import FastArena.ArenaSteps

/-!
# Arenas in two places

Two arenas that agree on everything but where their blocks lie and what is
registered for destruction. A request of a size an object can have and of an
alignment every block has is rounded, placed, counted and refused alike in
both, and so is what a rewind or a reset leaves.
-/

set_option autoImplicit false

namespace FastArena.Relocation
open FastArena.MachineWord FastArena.ByteSpan FastArena.ArenaBlock FastArena.InlineStorage
  FastArena.DropTracking FastArena.ArenaCore FastArena.ArenaInvariant FastArena.RawRequest
  FastArena.ArenaSweep FastArena.ArenaRequests FastArena.ArenaTransaction FastArena.ArenaSteps

structure SameBlock (b b' : Block) : Prop where
  offset : b'.offset = b.offset
  capacity : b'.capacity = b.capacity
  align : b'.align = b.align

structure SameBlocks (blocks blocks' : Blocks) : Prop where
  len : blocks'.len = blocks.len
  block : ∀ i < blocks.len, SameBlock (blocks.get i) (blocks'.get i)

structure SameStock (A A' : Arena) : Prop where
  blocks : SameBlocks A.blocks A'.blocks
  growth : A'.nextBlockSize = A.nextBlockSize
  allocated : A'.bytesAllocated = A.bytesAllocated
  reserved : A'.bytesReserved = A.bytesReserved
  depth : A'.txnDepth = A.txnDepth
  high : A'.highWaterMark = A.highWaterMark
  roomIdx : A'.largestRemainingIdx = A.largestRemainingIdx

/-- One arena in two places: everything but the addresses and the registry. -/
structure SameArena (A A' : Arena) : Prop where
  stock : SameStock A A'
  room : A'.largestRemaining = A.largestRemaining
  current : A'.current = A.current
  offset : A'.curOffset = A.curOffset

inductive SameRet (base base' : ℕ) : Ret → Ret → Prop where
  | ptr (o : ℕ) : SameRet base base' (.ptr (base+o)) (.ptr (base'+o))
  | none : SameRet base base' .none .none
  | panic (message : String) : SameRet base base' (.panic message) (.panic message)

structure SameEnd (r r' : Ret × Arena) : Prop where
  ret : SameRet r.2.curBase r'.2.curBase r.1 r'.1
  arena : SameArena r.2 r'.2

def Agree (sys sys' : SystemAlloc) : Prop :=
  ∀ capacity align, (sys' capacity align).isSome = (sys capacity align).isSome

section blocks
variable {blocks blocks' : Blocks}

theorem sameBlocks_modify (h : SameBlocks blocks blocks') (i : ℕ) {f f' : Block → Block}
    (hf : SameBlock (f (blocks.get i)) (f' (blocks'.get i))) :
    SameBlocks (blocks.modify i f) (blocks'.modify i f') where
  len := by rw [InlineVec.len_modify, InlineVec.len_modify, h.len]
  block := by
    intro j hj
    rw [InlineVec.len_modify] at hj
    rw [InlineVec.get_modify, InlineVec.get_modify, h.len]
    by_cases hji : j = i ∧ i < blocks.len
    · rw [if_pos hji, if_pos hji]
      exact hf
    · rw [if_neg hji, if_neg hji]
      exact h.block j hj

theorem sameBlocks_push (h : SameBlocks blocks blocks') {b b' : Block} (hb : SameBlock b b') :
    SameBlocks (blocks.push b) (blocks'.push b') where
  len := by rw [InlineVec.len_push, InlineVec.len_push, h.len]
  block := by
    intro j hj
    rw [InlineVec.len_push] at hj
    rw [InlineVec.get_push, InlineVec.get_push, h.len]
    by_cases hlast : j = blocks.len
    · rw [if_pos hlast, if_pos hlast]
      exact hb
    · rw [if_neg hlast, if_neg hlast]
      exact h.block j (by omega)

theorem sameBlocks_clearOffsets (n i : ℕ) (h : SameBlocks blocks blocks')
    (hi : i+n ≤ blocks.len) :
    SameBlocks (clearOffsets n i blocks) (clearOffsets n i blocks') := by
  induction n generalizing i blocks blocks' with
  | zero => exact h
  | succ n ih =>
    have hb := h.block i (by omega)
    have hcleared : SameBlocks (blocks.modify i (fun b => { b with offset := 0 }))
        (blocks'.modify i (fun b => { b with offset := 0 })) :=
      sameBlocks_modify h i ⟨rfl,hb.capacity,hb.align⟩
    exact ih (i+1) hcleared (by rw [InlineVec.len_modify]; omega)

end blocks

section arenas
variable {A A' : Arena} {sys sys' : SystemAlloc} {size align : ℕ}

theorem same_room {b b' : Block} (h : SameBlock b b') :
    wsub b'.capacity b'.offset = wsub b.capacity b.offset := by
  rw [h.capacity, h.offset]

theorem sameArena_setCurrentBlock (h : SameStock A A') {idx : ℕ} (hlaid : Laid A.blocks)
    (hlaid' : Laid A'.blocks) (hidx : idx < A.blocks.len)
    (hroom : A.largestRemainingIdx < A.blocks.len) :
    SameArena (A.setCurrentBlock idx) (A'.setCurrentBlock idx) := by
  have hoffset : ∀ {b : Block}, Placed b → wsub (wadd b.base b.offset) b.base = b.offset := by
    intro b hb
    have htop : b.base + b.capacity ≤ 2^63 := hb.below_top
    have hle := hb.offset_le
    rw [wadd_eq (by omega), wsub_eq (Nat.le_add_right _ _) (by omega)]
    omega
  have hcur : wsub (wadd (A'.blocks.get idx).base (A'.blocks.get idx).offset)
        (A'.blocks.get idx).base =
      wsub (wadd (A.blocks.get idx).base (A.blocks.get idx).offset) (A.blocks.get idx).base := by
    rw [hoffset (hlaid.placed idx hidx), hoffset (hlaid'.placed idx (h.blocks.len ▸ hidx))]
    exact (h.blocks.block idx hidx).offset
  have hhigh : (if idx > A'.highWaterMark then idx else A'.highWaterMark) =
      if idx > A.highWaterMark then idx else A.highWaterMark := by rw [h.high]
  unfold Arena.setCurrentBlock
  dsimp only
  rw [h.roomIdx]
  by_cases hlater : A.largestRemainingIdx ≥ idx+1
  · rw [if_pos hlater, if_pos hlater]
    exact ⟨⟨h.blocks,h.growth,h.allocated,h.reserved,h.depth,hhigh,rfl⟩,
      same_room (h.blocks.block _ hroom),rfl,hcur⟩
  · rw [if_neg hlater, if_neg hlater]
    have hbest : largestFrom (fun i => wsub (A'.blocks.get i).capacity (A'.blocks.get i).offset)
          (A'.blocks.len - (idx+1)) (idx+1) 0 idx =
        largestFrom (fun i => wsub (A.blocks.get i).capacity (A.blocks.get i).offset)
          (A.blocks.len - (idx+1)) (idx+1) 0 idx := by
      rw [h.blocks.len]
      exact largestFrom_congr _ _ _ _ (fun j _ hj => same_room (h.blocks.block j (by omega)))
    exact ⟨⟨h.blocks,h.growth,h.allocated,h.reserved,h.depth,hhigh,congrArg Prod.snd hbest⟩,
      congrArg Prod.fst hbest,rfl,hcur⟩

theorem sameArena_finishSlowPath (h : SameArena A A') (hA : Wf A) :
    SameArena A.finishSlowPath A'.finishSlowPath where
  stock := {
    blocks := by
      unfold Arena.finishSlowPath
      have hb := h.stock.blocks.block A.current (current_lt hA)
      rw [h.current, h.offset]
      exact sameBlocks_modify h.stock.blocks A.current ⟨rfl,hb.capacity,hb.align⟩
    growth := h.stock.growth
    allocated := by
      unfold Arena.finishSlowPath
      dsimp only
      rw [h.stock.allocated, h.offset]
    reserved := h.stock.reserved
    depth := h.stock.depth
    high := h.stock.high
    roomIdx := h.stock.roomIdx }
  room := h.room
  current := h.current
  offset := h.offset

/-- Rounding up commutes with moving by a multiple of the alignment. -/
theorem alignUp_add {base offset : ℕ} (hpow : PowerOfTwo align) (hdvd : align ∣ base)
    (h : base + offset + align ≤ 2^64) :
    alignUp (base + offset) align = base + alignUp offset align := by
  have hpos := powerOfTwo_pos hpow
  obtain ⟨k,rfl⟩ := hdvd
  rw [alignUp_eq hpow h, alignUp_eq hpow (by omega), Nat.add_assoc, Nat.add_sub_assoc (by omega),
    Nat.mul_add_div hpos, Nat.add_mul, Nat.mul_comm k align]

theorem alignUp_current (hA : Wf A) (hpow : PowerOfTwo align) (hlow : align ≤ minBlockAlign) :
    alignUp A.curPtr align = A.curBase + alignUp A.curOffset align := by
  have htop : A.curEnd ≤ 2^63 := curEnd_le hA
  have hptr := hA.ptr_le
  have heq := curPtr_eq hA
  have halign := powerOfTwo_le hpow
  have hplaced := current_placed hA
  have hdvd : align ∣ A.curBase := by
    rw [hA.base_eq]
    exact placed_align_dvd hplaced hpow (hlow.trans hplaced.align_min)
  rw [heq]
  exact alignUp_add hpow hdvd (by omega)

theorem fits_offset (hA : Wf A) (hpow : PowerOfTwo align) (hlow : align ≤ minBlockAlign) :
    Fits A size align ↔ alignUp A.curOffset align + size ≤ (A.blocks.get A.current).capacity := by
  have hend := hA.end_eq
  unfold Fits
  rw [alignUp_current hA hpow hlow]
  constructor
  · rintro ⟨-,hroom⟩
    omega
  · intro hroom
    exact ⟨hlow,by omega⟩

theorem fits_same (h : SameArena A A') (hA : Wf A) (hA' : Wf A') (hpow : PowerOfTwo align)
    (hlow : align ≤ minBlockAlign) : Fits A' size align ↔ Fits A size align := by
  rw [fits_offset hA hpow hlow, fits_offset hA' hpow hlow, h.current, h.offset,
    (h.stock.blocks.block A.current (current_lt hA)).capacity]

theorem firstFit_same {blocks blocks' : Blocks} (h : SameBlocks blocks blocks')
    (hlaid : Laid blocks) (hlaid' : Laid blocks') (hpow : PowerOfTwo align) (hsize : size < 2^63)
    (n i : ℕ) (hn : i+n ≤ blocks.len)
    (hempty : ∀ j < blocks.len, i ≤ j → (blocks.get j).offset = 0) :
    (firstFit blocks size align n i = none ∧ firstFit blocks' size align n i = none) ∨
      ∃ j, i ≤ j ∧ j < blocks.len ∧
        firstFit blocks size align n i =
          some (j,(blocks.get j).base,size,{ blocks.get j with offset := size }) ∧
        firstFit blocks' size align n i =
          some (j,(blocks'.get j).base,size,{ blocks'.get j with offset := size }) := by
  induction n generalizing i with
  | zero => exact Or.inl ⟨rfl,rfl⟩
  | succ n ih =>
    have hi : i < blocks.len := by omega
    have hb := h.block i hi
    have hzero := hempty i hi (le_refl i)
    have hrest := ih (i+1) (by omega) (fun j hj hle => hempty j hj (by omega))
    have hlater : ∀ {P : ℕ → Prop}, (∃ j, i+1 ≤ j ∧ j < blocks.len ∧ P j) →
        ∃ j, i ≤ j ∧ j < blocks.len ∧ P j := by
      rintro P ⟨j,hlo,hj,hfound⟩
      exact ⟨j,by omega,hj,hfound⟩
    unfold firstFit
    rw [hb.align]
    by_cases halign : (blocks.get i).align ≥ align
    · rw [if_pos halign, if_pos halign,
        tryAlloc_empty (hlaid.placed i hi) hzero hpow halign (by omega),
        tryAlloc_empty (hlaid'.placed i (h.len ▸ hi)) (hb.offset.trans hzero) hpow
          (hb.align ▸ halign) (by omega)]
      by_cases hfit : size ≤ (blocks.get i).capacity
      · rw [if_pos hfit, if_pos (hb.capacity ▸ hfit)]
        exact Or.inr ⟨i,le_refl i,hi,rfl,rfl⟩
      · rw [if_neg hfit, if_neg (hb.capacity ▸ hfit)]
        exact hrest.imp_right hlater
    · rw [if_neg halign, if_neg halign]
      exact hrest.imp_right hlater

theorem retained_same (h : SameArena A A') (hA : Wf A) (hA' : Wf A') (hpow : PowerOfTwo align)
    (hsize : size < 2^63) :
    (A.retained size align = none ∧ A'.retained size align = none) ∨
      ∃ j, A.current < j ∧ j < A.blocks.len ∧
        A.retained size align =
          some (j,(A.blocks.get j).base,size,{ A.blocks.get j with offset := size }) ∧
        A'.retained size align =
          some (j,(A'.blocks.get j).base,size,{ A'.blocks.get j with offset := size }) := by
  unfold Arena.retained
  rw [h.room, h.current, h.stock.blocks.len]
  by_cases hover : align > minBlockAlign
  · rw [if_pos hover, if_pos hover]
    exact Or.inl ⟨rfl,rfl⟩
  · rw [if_neg hover, if_neg hover]
    by_cases hroom : size ≤ A.largestRemaining
    · rw [if_pos hroom, if_pos hroom]
      have hcur := current_lt hA
      exact firstFit_same h.stock.blocks hA.laid hA'.laid hpow hsize _ _ (by omega)
        (fun j hj hle => hA.tail j hj hle)
    · rw [if_neg hroom, if_neg hroom]
      exact Or.inl ⟨rfl,rfl⟩

theorem tryNew_same (hagree : Agree sys sys') (capacity align : ℕ) :
    (Block.tryNew sys capacity align = none ∧ Block.tryNew sys' capacity align = none) ∨
      ∃ b b', Block.tryNew sys capacity align = some b ∧
        Block.tryNew sys' capacity align = some b' ∧ SameBlock b b' := by
  unfold Block.tryNew
  by_cases hzero : capacity = 0
  · rw [if_pos hzero, if_pos hzero]
    exact Or.inl ⟨rfl,rfl⟩
  · rw [if_neg hzero, if_neg hzero]
    dsimp only
    by_cases hfits : layoutFits capacity (max align minBlockAlign) = true
    · rw [if_pos hfits, if_pos hfits]
      have hsome := hagree capacity (max align minBlockAlign)
      cases hsys : sys capacity (max align minBlockAlign) with
      | none =>
        rw [hsys, Option.isSome_none, Option.isSome_eq_false_iff, Option.isNone_iff_eq_none] at hsome
        rw [hsome]
        exact Or.inl ⟨rfl,rfl⟩
      | some base =>
        rw [hsys, Option.isSome_some, Option.isSome_iff_exists] at hsome
        obtain ⟨base',hbase'⟩ := hsome
        rw [hbase']
        exact Or.inr ⟨_,_,rfl,rfl,rfl,rfl,rfl⟩
    · rw [if_neg hfits, if_neg hfits]
      exact Or.inl ⟨rfl,rfl⟩

theorem nextBlockFor_same (h : SameArena A A') (hA : Wf A) (size align : ℕ) :
    (A.nextBlockFor size align = none ∧ A'.nextBlockFor size align = none) ∨
      ∃ blockSize n, size ≤ blockSize ∧
        A.nextBlockFor size align = some (blockSize,{ A with nextBlockSize := n }) ∧
        A'.nextBlockFor size align = some (blockSize,{ A' with nextBlockSize := n }) := by
  cases hnext : A.nextBlockFor size align with
  | none =>
    unfold Arena.nextBlockFor at hnext ⊢
    rw [Option.map_eq_none_iff] at hnext
    rw [hnext]
    exact Or.inl ⟨rfl,rfl⟩
  | some result =>
    obtain ⟨blockSize,B⟩ := result
    obtain ⟨hfit,n,-,-,rfl⟩ := nextBlockFor_some hA.growth_min hnext
    refine Or.inr ⟨blockSize,n,hfit,rfl,?_⟩
    unfold Arena.nextBlockFor at hnext ⊢
    obtain ⟨worst,hworst,heq⟩ := Option.map_eq_some_iff.mp hnext
    obtain ⟨hrounded,harena⟩ := Prod.mk.inj heq
    have hn := congrArg Arena.nextBlockSize harena
    dsimp only at hn
    rw [h.stock.growth, hworst, Option.map_some]
    dsimp only
    rw [hrounded, ← hn, hrounded]

theorem sameEnd_answer {ret : Ret} {B B' : Arena} (hret : ∀ p, ret ≠ .ptr p)
    (h : SameArena B B') : SameEnd (ret,B) (ret,B') := by
  refine ⟨?_,h⟩
  cases ret with
  | ptr p => exact absurd rfl (hret p)
  | none => exact .none
  | panic message => exact .panic message

theorem sameEnd_entered {B B' : Arena} {idx : ℕ} (h : SameStock B B') (hlaid : Laid B.blocks)
    (hlaid' : Laid B'.blocks) (hidx : idx < B.blocks.len)
    (hroom : B.largestRemainingIdx < B.blocks.len) :
    SameEnd (.ptr (B.blocks.get idx).base,B.setCurrentBlock idx)
      (.ptr (B'.blocks.get idx).base,B'.setCurrentBlock idx) := by
  have hbase : ∀ C : Arena, (C.setCurrentBlock idx).curBase = (C.blocks.get idx).base := by
    intro C
    unfold Arena.setCurrentBlock
    dsimp only
    split <;> rfl
  refine ⟨?_,sameArena_setCurrentBlock h hlaid hlaid' hidx hroom⟩
  dsimp only
  rw [hbase, hbase]
  exact .ptr 0

theorem newBlock_same (h : SameArena A A') (hA : Wf A) (hA' : Wf A')
    (hs : Grants sys A.blocks) (hs' : Grants sys' A'.blocks) (hagree : Agree sys sys')
    (hpow : PowerOfTwo align) (hsize : size < 2^63) {oom misfit : Ret}
    (hoom : ∀ p, oom ≠ .ptr p) :
    SameEnd (Arena.newBlockWith oom misfit sys A size align)
      (Arena.newBlockWith oom misfit sys' A' size align) := by
  unfold Arena.newBlockWith
  rcases nextBlockFor_same h hA size align with ⟨hn,hn'⟩ | ⟨blockSize,n,hfit,hn,hn'⟩
  · rw [hn, hn']
    exact sameEnd_answer (fun _ => Ret.noConfusion) h
  · rw [hn, hn']
    dsimp only
    rcases tryNew_same hagree blockSize align with ⟨hnew,hnew'⟩ | ⟨b,b',hnew,hnew',hb⟩
    · rw [hnew, hnew']
      exact sameEnd_answer hoom
        ⟨⟨h.stock.blocks,rfl,h.stock.allocated,h.stock.reserved,h.stock.depth,h.stock.high,
          h.stock.roomIdx⟩,h.room,h.current,h.offset⟩
    · obtain ⟨-,-,hplaced,hapart,htry⟩ := freshBlock hs hpow (by omega) hfit hnew
      obtain ⟨-,-,hplaced',hapart',htry'⟩ := freshBlock hs' hpow (by omega) hfit hnew'
      rw [hnew, hnew']
      dsimp only
      rw [htry, htry']
      dsimp only
      have hpushed : SameBlocks (A.blocks.push { b with offset := size })
          (A'.blocks.push { b' with offset := size }) :=
        sameBlocks_push h.stock.blocks ⟨rfl,hb.capacity,hb.align⟩
      have hlast : ∀ {blocks : Blocks} {c : Block}, (blocks.push c).len - 1 = blocks.len := by
        intro blocks c
        rw [InlineVec.len_push, Nat.add_sub_cancel]
      have hentered : ∀ {blocks : Blocks} {c : Block}, (blocks.push c).get blocks.len = c := by
        intro blocks c
        rw [InlineVec.get_push, if_pos rfl]
      have hstock : SameStock
          { A with
            nextBlockSize := n
            bytesReserved := wadd A.bytesReserved blockSize
            bytesAllocated := wadd A.bytesAllocated size
            blocks := A.blocks.push { b with offset := size } }
          { A' with
            nextBlockSize := n
            bytesReserved := wadd A'.bytesReserved blockSize
            bytesAllocated := wadd A'.bytesAllocated size
            blocks := A'.blocks.push { b' with offset := size } } :=
        ⟨hpushed,rfl,congrArg (wadd · size) h.stock.allocated,
          congrArg (wadd · blockSize) h.stock.reserved,h.stock.depth,h.stock.high,h.stock.roomIdx⟩
      have hidx : A.blocks.len < (A.blocks.push { b with offset := size }).len := by
        rw [InlineVec.len_push]
        exact Nat.lt_succ_self _
      have hend := sameEnd_entered hstock (laid_push hA.laid hplaced hapart).1
        (laid_push hA'.laid hplaced' hapart').1 hidx (hA.largest_lt.trans hidx)
      dsimp only at hend
      rw [hentered, ← h.stock.blocks.len, hentered, h.stock.blocks.len] at hend
      rw [hlast, hlast, h.stock.blocks.len]
      exact hend

theorem grants_grown {blocks blocks' : Blocks} (hs : Grants sys blocks)
    (hgrown : Grown blocks blocks') (hlen : blocks'.len = blocks.len) : Grants sys blocks' := by
  intro capacity align base hsys
  obtain ⟨hpos,hdvd,htop,hapart⟩ := hs capacity align base hsys
  refine ⟨hpos,hdvd,htop,?_⟩
  intro i hi
  rw [hlen] at hi
  rw [hgrown.extent_eq i hi]
  exact hapart i hi

theorem laid_taken {blocks : Blocks} (h : Laid blocks) {j : ℕ}
    (hfit : size ≤ (blocks.get j).capacity) :
    Laid (blocks.modify j (fun _ => { blocks.get j with offset := size })) := by
  have hwrite : blocks.modify j (fun _ => { blocks.get j with offset := size }) =
      blocks.modify j (fun b => { b with offset := size }) := InlineVec.modify_congr _ rfl
  rw [hwrite]
  exact (laid_offset h j size hfit).1

theorem slow_same (h : SameArena A A') (hA : Wf A) (hA' : Wf A')
    (hs : Grants sys A.blocks) (hs' : Grants sys' A'.blocks) (hagree : Agree sys sys')
    (hpow : PowerOfTwo align) (hsize : size < 2^63) {oom misfit : Ret}
    (hoom : ∀ p, oom ≠ .ptr p) :
    SameEnd (A.slowWith (Arena.newBlockWith oom misfit sys) size align)
      (A'.slowWith (Arena.newBlockWith oom misfit sys') size align) := by
  have hflushed := sameArena_finishSlowPath h hA
  have hwf := wf_finishSlowPath hA
  have hwf' := wf_finishSlowPath hA'
  unfold Arena.slowWith
  dsimp only
  rcases retained_same hflushed hwf hwf' hpow hsize with ⟨hr,hr'⟩ | ⟨j,hlo,hj,hr,hr'⟩
  · rw [hr, hr']
    exact newBlock_same hflushed hwf hwf'
      (grants_grown hs (finishSlowPath_grown hA) (finishSlowPath_len A))
      (grants_grown hs' (finishSlowPath_grown hA') (finishSlowPath_len A')) hagree hpow hsize hoom
  · obtain ⟨-,-,-,-,-,hfit,-⟩ := retained_some hwf hpow (by omega) hr
    obtain ⟨-,-,-,-,-,hfit',-⟩ := retained_some hwf' hpow (by omega) hr'
    rw [hr, hr']
    dsimp only
    have hb := hflushed.stock.blocks.block j hj
    have hstock : SameStock
        { A.finishSlowPath with
          bytesAllocated := wadd A.finishSlowPath.bytesAllocated size
          blocks := A.finishSlowPath.blocks.modify j
            (fun _ => { A.finishSlowPath.blocks.get j with offset := size }) }
        { A'.finishSlowPath with
          bytesAllocated := wadd A'.finishSlowPath.bytesAllocated size
          blocks := A'.finishSlowPath.blocks.modify j
            (fun _ => { A'.finishSlowPath.blocks.get j with offset := size }) } :=
      ⟨sameBlocks_modify hflushed.stock.blocks j ⟨rfl,hb.capacity,hb.align⟩,
        hflushed.stock.growth,congrArg (wadd · size) hflushed.stock.allocated,
        hflushed.stock.reserved,hflushed.stock.depth,hflushed.stock.high,hflushed.stock.roomIdx⟩
    have hentered : ∀ C : Arena, ((C.finishSlowPath.blocks.modify j
        (fun _ => { C.finishSlowPath.blocks.get j with offset := size })).get j).base =
          (C.finishSlowPath.blocks.get j).base := by
      intro C
      rw [InlineVec.get_modify]
      split <;> rfl
    have hlen := InlineVec.len_modify A.finishSlowPath.blocks j
      (fun _ => { A.finishSlowPath.blocks.get j with offset := size })
    have hend := sameEnd_entered hstock (laid_taken hwf.laid hfit) (laid_taken hwf'.laid hfit')
      (hj.trans_eq hlen.symm) (hwf.largest_lt.trans_eq hlen.symm)
    dsimp only at hend
    rw [hentered, hentered] at hend
    exact hend

theorem bump_same (h : SameArena A A') (hA : Wf A) (hA' : Wf A') (hpow : PowerOfTwo align)
    (hfits : Fits A size align) :
    SameEnd (.ptr (alignUp A.curPtr align),{ A with curPtr := alignUp A.curPtr align + size })
      (.ptr (alignUp A'.curPtr align),{ A' with curPtr := alignUp A'.curPtr align + size }) := by
  have hlow := hfits.1
  have hfits' := (fits_same h hA hA' hpow hlow).mpr hfits
  have hoffset : ∀ {C : Arena}, Wf C → Fits C size align →
      wsub (alignUp C.curPtr align + size) C.curBase = alignUp C.curOffset align + size := by
    intro C hC hfit
    have htop : C.curEnd ≤ 2^63 := curEnd_le hC
    have hroom := hfit.2
    rw [alignUp_current hC hpow hlow] at hroom ⊢
    rw [wsub_eq (by omega) (by omega)]
    omega
  refine ⟨?_,⟨⟨h.stock.blocks,h.stock.growth,h.stock.allocated,h.stock.reserved,h.stock.depth,
    h.stock.high,h.stock.roomIdx⟩,h.room,h.current,?_⟩⟩
  · dsimp only
    rw [alignUp_current hA hpow hlow, alignUp_current hA' hpow hlow, h.offset]
    exact .ptr _
  · unfold Arena.curOffset at hoffset ⊢
    dsimp only
    rw [hoffset hA hfits, hoffset hA' hfits']
    exact congrArg (alignUp · align + size) h.offset

/-- A raw request does the same in both places. -/
theorem raw_same (h : SameArena A A') (hA : Wf A) (hA' : Wf A')
    (hs : Grants sys A.blocks) (hs' : Grants sys' A'.blocks) (hagree : Agree sys sys')
    (hpow : PowerOfTwo align) (hlow : align ≤ minBlockAlign) (hsize : size < 2^63)
    (fallible : Bool) :
    SameEnd (A.rawInner fallible sys size align) (A'.rawInner fallible sys' size align) := by
  by_cases hfits : Fits A size align
  · rw [rawInner_fits (anchored hA) sys hpow hfits fallible,
      rawInner_fits (anchored hA') sys' hpow ((fits_same h hA hA' hpow hlow).mpr hfits) fallible]
    exact bump_same h hA hA' hpow hfits
  · have hfits' := fun hh => hfits ((fits_same h hA hA' hpow hlow).mp hh)
    have hover : ¬ Overflows A size align := not_overflows hA hpow hsize
    have hover' : ¬ Overflows A' size align := not_overflows hA' hpow hsize
    cases fallible with
    | false =>
      have hslow : ∀ (C : Arena) (s : SystemAlloc), ¬ Fits C size align →
          C.rawInner false s size align = C.allocSlow s size align :=
        fun C s hC => (rawInnerWith_not_fits hC _ _).trans (ite_self _)
      rw [hslow A sys hfits, hslow A' sys' hfits']
      exact slow_same h hA hA' hs hs' hagree hpow hsize (fun _ => Ret.noConfusion)
    | true =>
      have hslow : ∀ (C : Arena) (s : SystemAlloc), ¬ Fits C size align →
          ¬ Overflows C size align →
          C.rawInner true s size align = C.allocSlowTry s size align :=
        fun C s hC hword =>
          (rawInnerWith_not_fits hC (Arena.allocSlowTry s) (fun C _ _ => (.none,C))).trans
            (if_neg hword)
      rw [hslow A sys hfits hover, hslow A' sys' hfits' hover']
      exact slow_same h hA hA' hs hs' hagree hpow hsize (fun _ => Ret.noConfusion)

end arenas

def siteOf (o : Outcome) : Option (ℕ × ℕ × ℕ × ℕ) :=
  o.carved.map fun region =>
    (o.arena.current,region.span.start - o.arena.curBase,region.span.size,region.align)

structure SameOutcome (o o' : Outcome) : Prop where
  arena : SameArena o.arena o'.arena
  site : siteOf o' = siteOf o
  ret : SameRet o.arena.curBase o'.arena.curBase o.ret o'.ret ∨
    o.carved = none ∧ o'.ret = o.ret
  drops : o'.valueDrops = o.valueDrops

def Measured (r : Request) : Prop :=
  r.Typed ∧ ∀ size align, r.kind.demand = some (size,align) → size < 2^63 ∧ align ≤ minBlockAlign

section outcomes
variable {A A' : Arena} {sys sys' : SystemAlloc} {size align : ℕ}

theorem same_answer (h : SameArena A A') (ret : Ret) (drops : ℕ) :
    SameOutcome (answer A ret drops) (answer A' ret drops) :=
  ⟨h,rfl,Or.inr ⟨rfl,rfl⟩,rfl⟩

theorem sameArena_registry (h : SameArena A A') (r r' : DropRegistry) :
    SameArena { A with dropRegistry := r } { A' with dropRegistry := r' } :=
  ⟨⟨h.stock.blocks,h.stock.growth,h.stock.allocated,h.stock.reserved,h.stock.depth,h.stock.high,
    h.stock.roomIdx⟩,h.room,h.current,h.offset⟩

theorem filled_drops (k : Kind) (p : ℕ) (A : Arena) : (k.filled p A).valueDrops = 0 := by
  have helements : ∀ ty len yields, (placeElements ty len yields p A).valueDrops = 0 := by
    intro ty len yields
    unfold placeElements
    split <;> rfl
  cases k with
  | slice ty len yields => exact helements ty len yields
  | sliceCopy ty len => exact helements ty len len
  | _ => rfl

theorem same_filled {k : Kind} (hd : k.demand = some (size,align)) (h : SameArena A A') (o : ℕ) :
    SameOutcome
      { k.filled (A.curBase+o) A with carved := some ⟨⟨A.curBase+o,size⟩,align⟩ }
      { k.filled (A'.curBase+o) A' with carved := some ⟨⟨A'.curBase+o,size⟩,align⟩ } := by
  obtain ⟨⟨r,harena,-,-⟩,-,hret,-⟩ := filled_fills hd (A.curBase+o) A
  obtain ⟨⟨r',harena',-,-⟩,-,hret',-⟩ := filled_fills hd (A'.curBase+o) A'
  refine ⟨?_,?_,Or.inl ?_,?_⟩
  · dsimp only
    rw [harena, harena']
    exact sameArena_registry h r r'
  · unfold siteOf
    dsimp only [Option.map_some]
    rw [harena, harena']
    dsimp only
    rw [h.current, Nat.add_sub_cancel_left, Nat.add_sub_cancel_left]
  · dsimp only
    rw [hret, hret', harena, harena']
    unfold Kind.reply
    split
    · exact .ptr o
    · exact .panic _
  · exact (filled_drops _ _ _).trans (filled_drops _ _ _).symm

theorem same_onRaw {r r' : Ret × Arena} {k : Kind} (hd : k.demand = some (size,align))
    (h : SameEnd r r') :
    SameOutcome (onRaw r size align k.lost k.filled) (onRaw r' size align k.lost k.filled) := by
  obtain ⟨ret,B⟩ := r
  obtain ⟨ret',B'⟩ := r'
  obtain ⟨hret,hsame⟩ := h
  dsimp only at hret hsame
  cases hret with
  | ptr o => exact same_filled hd hsame o
  | none => exact same_answer hsame _ _
  | panic message => exact same_answer hsame _ _

theorem unasked_unless {c : Prop} [Decidable c] {x : ℕ × ℕ}
    (hd : (if c then none else some x) = none) : c := by
  by_contra hno
  rw [if_neg hno] at hd
  cases hd

theorem unasked_if {c : Prop} [Decidable c] {x : ℕ × ℕ}
    (hd : (if c then some x else none) = none) : ¬ c := by
  intro hyes
  rw [if_pos hyes] at hd
  cases hd

theorem serve_unasked {r : Request} (hr : r.Typed) (hd : r.kind.demand = none) :
    ∃ ret drops, ∀ (sys : SystemAlloc) (A : Arena), r.serve sys A = answer A ret drops := by
  have hslice : ∀ (fallible : Bool) (overflow : Ret) (ty : Ty) (len : ℕ)
      (filled : ℕ → Arena → Outcome), sliceDemand ty len = none →
      ∃ ret drops, ∀ (sys : SystemAlloc) (A : Arena),
        allocSliceWith fallible overflow sys A ty len filled = answer A ret drops := by
    intro fallible overflow ty len filled hnone
    unfold sliceDemand at hnone
    unfold allocSliceWith
    by_cases hlen : len = 0
    · exact ⟨_,_,fun _ _ => if_pos hlen⟩
    · rw [if_neg hlen, Option.map_eq_none_iff] at hnone
      rw [hnone]
      exact ⟨_,_,fun _ _ => if_neg hlen⟩
  have hraw : ∀ (fallible : Bool) (n a : ℕ) (filled : ℕ → Arena → Outcome),
      ¬ (PowerOfTwo a ∧ n ≠ 0) → ∃ ret drops, ∀ (sys : SystemAlloc) (A : Arena),
        allocRawWith fallible sys A n a filled = answer A ret drops := by
    intro fallible n a filled hno
    unfold allocRawWith
    by_cases hpow : PowerOfTwo a
    · have hzero : n = 0 := of_not_not (fun hn => hno ⟨hpow,hn⟩)
      exact ⟨_,_,fun _ _ => (if_pos hpow).trans (if_pos hzero)⟩
    · exact ⟨_,_,fun _ _ => if_neg hpow⟩
  obtain ⟨kind,fallible⟩ := r
  cases kind with
  | value ty =>
    have hzero : ty.size = 0 := unasked_unless hd
    cases fallible <;> exact ⟨_,_,fun _ _ => if_pos hzero⟩
  | slice ty len yields => cases fallible <;> exact hslice _ _ ty len _ hd
  | sliceCopy ty len => cases fallible <;> exact hslice _ _ ty len _ hd
  | str len =>
    have hzero : len = 0 := unasked_unless hd
    cases fallible <;> exact ⟨_,_,fun _ _ => if_pos hzero⟩
  | uninit ty =>
    have hzero : ty.size = 0 := unasked_unless hd
    exact ⟨_,_,fun _ _ => if_pos hzero⟩
  | raw n a =>
    have hno : ¬ (PowerOfTwo a ∧ n ≠ 0) := unasked_if hd
    cases fallible <;> exact hraw _ n a _ hno
  | zeroed n a =>
    have hno : ¬ (PowerOfTwo a ∧ n ≠ 0) := unasked_if hd
    cases fallible with
    | true => exact hraw true n a _ hno
    | false =>
      by_cases hzero : n = 0
      · exact ⟨_,_,fun _ _ => if_pos hzero⟩
      · obtain ⟨ret,drops,hans⟩ := hraw false n a (placeBytes n) hno
        exact ⟨ret,drops,fun sys A => (if_neg hzero).trans (hans sys A)⟩
  | cacheAligned n =>
    have hno : ¬ (PowerOfTwo cacheLineSize ∧ n ≠ 0) := fun hyes => unasked_if hd hyes.2
    cases fallible <;> exact hraw _ n cacheLineSize _ hno

theorem serve_same (h : SameArena A A') (hA : Wf A) (hA' : Wf A') (hs : Grants sys A.blocks)
    (hs' : Grants sys' A'.blocks) (hagree : Agree sys sys') {r : Request} (hr : Measured r) :
    SameOutcome (r.serve sys A) (r.serve sys' A') := by
  rcases serve_demand hA sys hr.1 with ⟨hd,-⟩ | ⟨size,align,hd,heq⟩
  · obtain ⟨ret,drops,hans⟩ := serve_unasked hr.1 hd
    rw [hans, hans]
    exact same_answer h ret drops
  · rcases serve_demand hA' sys' hr.1 with ⟨hd',-⟩ | ⟨size',align',hd',heq'⟩
    · rw [hd] at hd'
      cases hd'
    · obtain ⟨rfl,rfl⟩ := demand_unique hd hd'
      obtain ⟨hsize,hlow⟩ := hr.2 _ _ hd
      obtain ⟨hpow,-⟩ := demand_typed hr.1 hd
      rw [heq, heq']
      exact same_onRaw hd (raw_same h hA hA' hs hs' hagree hpow hlow hsize r.fallible)

end outcomes

structure SamePlace (cp cp' : Checkpoint) : Prop where
  blockIdx : cp'.blockIdx = cp.blockIdx
  offset : cp'.offset = cp.offset
  bytes : cp'.bytesAllocated = cp.bytesAllocated

theorem samePlace_checkpoint {A A' : Arena} (h : SameArena A A') :
    SamePlace A.checkpoint A'.checkpoint where
  blockIdx := h.current
  offset := h.offset
  bytes := by
    unfold Arena.checkpoint
    dsimp only
    rw [h.stock.allocated, h.offset]

section sweeps
variable {A A' : Arena} {boom : ℕ → ℕ → Bool} {cp cp' : Checkpoint}

theorem rewind_same (h : SameArena A A') (hA : Wf A) (hA' : Wf A') (hcp : Recallable A.blocks cp)
    (hcp' : Recallable A'.blocks cp') (hplace : SamePlace cp cp')
    (hflag : (A'.dropRegistry.runDropsUntil boom cp'.dropRegistryLen).2.2 =
      (A.dropRegistry.runDropsUntil boom cp.dropRegistryLen).2.2) :
    SameArena (A.rewind boom cp).arena (A'.rewind boom cp').arena ∧
      (A'.rewind boom cp').panic = (A.rewind boom cp).panic := by
  unfold Arena.rewind
  rw [if_pos hcp.idx_lt, if_pos hcp'.idx_lt]
  dsimp only
  rw [hflag]
  cases (A.dropRegistry.runDropsUntil boom cp.dropRegistryLen).2.2 with
  | true => exact ⟨sameArena_registry h _ _,rfl⟩
  | false =>
    rw [if_neg Bool.false_ne_true, if_neg Bool.false_ne_true]
    refine ⟨?_,rfl⟩
    dsimp only
    obtain ⟨hlaid,-,hlen,-⟩ := rewound_blocks hA hcp rfl
    obtain ⟨hlaid',-,-⟩ := rewound_blocks hA' hcp' rfl
    have hcur := current_lt hA
    have hidx := hcp.idx_lt
    have hroom := hA.largest_lt
    have hcleared := sameBlocks_clearOffsets (A.current+1 - (cp.blockIdx+1)) (cp.blockIdx+1)
      h.stock.blocks (by omega)
    have hblock := hcleared.block cp.blockIdx (by rw [len_clearOffsets]; exact hidx)
    rw [hplace.blockIdx, hplace.offset, h.current] at hlaid' ⊢
    rw [hplace.bytes]
    apply sameArena_setCurrentBlock
    · exact ⟨sameBlocks_modify hcleared cp.blockIdx ⟨rfl,hblock.capacity,hblock.align⟩,
        h.stock.growth,rfl,h.stock.reserved,h.stock.depth,h.stock.high,h.stock.roomIdx⟩
    · exact hlaid
    · exact hlaid'
    · exact hidx.trans_eq hlen.symm
    · exact hroom.trans_eq hlen.symm

theorem reset_same (h : SameArena A A') (hA : Wf A) (hA' : Wf A')
    (hflag : (A'.dropRegistry.runAllDrops boom).2.2 = (A.dropRegistry.runAllDrops boom).2.2) :
    SameArena (A.reset boom).arena (A'.reset boom).arena ∧
      (A'.reset boom).panic = (A.reset boom).panic := by
  have hcleared := sameBlocks_clearOffsets (A.highWaterMark+1) 0 h.stock.blocks
    (by have := hA.high_lt; omega)
  have hlen := len_clearOffsets (A.highWaterMark+1) 0 A.blocks
  have hbest : scanned (clearOffsets (A'.highWaterMark+1) 0 A'.blocks) =
      scanned (clearOffsets (A.highWaterMark+1) 0 A.blocks) := by
    rw [h.stock.high]
    exact scanned_congr hcleared.len (fun j hj => (hcleared.block j hj).capacity)
  have hbase : ∀ {C : Arena}, Wf C →
      wsub ((clearOffsets (C.highWaterMark+1) 0 C.blocks).get 0).base
        ((clearOffsets (C.highWaterMark+1) 0 C.blocks).get 0).base = 0 := by
    intro C hC
    have hlaid := (laid_clearOffsets (C.highWaterMark+1) 0 hC.laid).1
    have hhigh := hC.high_lt
    have htop := (hlaid.placed 0 (by rw [len_clearOffsets]; omega)).below_top
    unfold addressTop at htop
    exact wsub_self (by omega)
  unfold Arena.reset
  dsimp only
  rw [hflag]
  cases (A.dropRegistry.runAllDrops boom).2.2 with
  | true => exact ⟨sameArena_registry h _ _,rfl⟩
  | false =>
    rw [if_neg Bool.false_ne_true, if_neg Bool.false_ne_true]
    refine ⟨⟨⟨?_,h.stock.growth,rfl,h.stock.reserved,h.stock.depth,rfl,congrArg Prod.snd hbest⟩,
      congrArg Prod.fst hbest,rfl,(hbase hA').trans (hbase hA).symm⟩,rfl⟩
    dsimp only
    rw [h.stock.high]
    exact hcleared

end sweeps
end FastArena.Relocation
