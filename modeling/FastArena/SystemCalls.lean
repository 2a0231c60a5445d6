import FastArena.ArenaSteps
import FastArena.SystemHeap

/-!
# Calls on the system allocator

Which memory each call on an arena takes from the system allocator, and which
memory dropping the arena gives back. A block takes its memory when it is made
and gives it back, by the layout it remembers, when it is dropped; nothing else
on the way takes or gives.
-/

set_option autoImplicit false

namespace FastArena.SystemCalls
open FastArena.MachineWord FastArena.ByteSpan FastArena.ArenaBlock FastArena.InlineStorage
  FastArena.DropTracking FastArena.ArenaCore FastArena.ArenaInvariant FastArena.RawRequest
  FastArena.ArenaSweep FastArena.ArenaRequests FastArena.ArenaTransaction FastArena.LabelledRun
  FastArena.ArenaWorld FastArena.ArenaSteps FastArena.SystemHeap

def tryNewEvents (sys : SystemAlloc) (capacity align : ℕ) : List Event :=
  if capacity = 0 then []
  else
    let align := max align minBlockAlign
    if layoutFits capacity align then
      match sys capacity align with
      | some base => [.acquire ⟨base,capacity,align⟩]
      | none => [.decline capacity align]
    else []

def dropBlock (b : Block) : Event := .release ⟨b.base,b.capacity,b.align⟩

def createEvents (sys : SystemAlloc) (initialBytes : ℕ) : List Event :=
  tryNewEvents sys (max initialBytes minBlockSize) minBlockAlign

def newBlockEvents (sys : SystemAlloc) (A : Arena) (size align : ℕ) : List Event :=
  match A.nextBlockFor size align with
  | none => []
  | some (blockSize,_) =>
    tryNewEvents sys blockSize align ++
      match Block.tryNew sys blockSize align with
      | none => []
      | some block =>
        match block.tryAlloc size align with
        | none => [dropBlock block]
        | some _ => []

def slowEvents (sys : SystemAlloc) (A : Arena) (size align : ℕ) : List Event :=
  let A := A.finishSlowPath
  match A.retained size align with
  | some _ => []
  | none => newBlockEvents sys A size align

def rawEvents (fallible : Bool) (sys : SystemAlloc) (A : Arena) (size align : ℕ) : List Event :=
  if align > minBlockAlign then slowEvents sys A size align
  else
    match checkedAdd (alignUp A.curPtr align) size with
    | none => if fallible then [] else slowEvents sys A size align
    | some newEnd => if newEnd ≤ A.curEnd then [] else slowEvents sys A size align

def serveEvents (sys : SystemAlloc) (A : Arena) (r : Request) : List Event :=
  match r.kind.demand with
  | none => []
  | some (size,align) => rawEvents r.fallible sys A size align

def guardedEvents (t : Transaction) (sys : SystemAlloc) (A : Arena) (r : Request) : List Event :=
  if offered r = true ∧ t.budgetOk A (payload r.kind) = true then serveEvents sys A r else []

def opEvents (w : World) : Op → List Event
  | .request sys r => serveEvents sys w.arena r
  | .guarded sys r =>
    match w.opened with
    | [] => []
    | f::_ => guardedEvents f.txn sys w.arena r
  | _ => []

-- Dropping an arena drops its block list, and with it the blocks in order. The registry's entries
-- have no drop glue, so no destructor runs.
def dropEvents (A : Arena) : List Event := A.blocks.toList.map dropBlock

def chunk (b : Block) : Chunk := ⟨b.base,b.capacity,b.align⟩

def chunks (blocks : Blocks) : List Chunk := blocks.toList.map chunk

def Legal (layout : ℕ × ℕ) : Prop := 0 < layout.1 ∧ layoutFits layout.1 layout.2 = true

def AllLegal (es : List Event) : Prop := ∀ e ∈ es, ∀ layout ∈ e.asked, Legal layout

theorem allLegal_append {es rest : List Event} (h : AllLegal es) (hrest : AllLegal rest) :
    AllLegal (es++rest) :=
  fun e he => (List.mem_append.mp he).elim (h e) (hrest e)

theorem allLegal_singleton {e : Event} (h : ∀ layout ∈ e.asked, Legal layout) : AllLegal [e] := by
  intro e' he'
  rw [List.mem_singleton.mp he']
  exact h

theorem dropEvents_eq (A : Arena) : dropEvents A = (chunks A.blocks).map .release := by
  rw [chunks, List.map_map]
  rfl

theorem chunks_length (blocks : Blocks) : (chunks blocks).length = blocks.len := by
  rw [chunks, List.length_map, InlineVec.length_toList]

theorem chunks_getElem {blocks : Blocks} {i : ℕ} (hi : i < blocks.len) :
    (chunks blocks)[i]? = some (chunk (blocks.get i)) := by
  rw [chunks, InlineVec.toList, List.map_map, List.getElem?_map, List.getElem?_range hi]
  rfl

section blocks
variable {A : Arena} {sys : SystemAlloc} {size align : ℕ}

theorem chunks_modify (blocks : Blocks) (i : ℕ) {f : Block → Block}
    (hf : chunk (f (blocks.get i)) = chunk (blocks.get i)) :
    chunks (blocks.modify i f) = chunks blocks := by
  unfold chunks InlineVec.toList
  rw [InlineVec.len_modify, List.map_map, List.map_map]
  apply List.map_congr_left
  intro j _
  dsimp only [Function.comp]
  rw [InlineVec.get_modify]
  split
  · next hj => rw [hj.1, hf]
  · rfl

theorem chunks_push (blocks : Blocks) (b : Block) :
    chunks (blocks.push b) = chunks blocks ++ [chunk b] := by
  rw [chunks, InlineVec.toList_push, List.map_append]
  rfl

theorem chunks_clearOffsets (n i : ℕ) (blocks : Blocks) :
    chunks (clearOffsets n i blocks) = chunks blocks := by
  induction n generalizing i blocks with
  | zero => rfl
  | succ n ih => rw [clearOffsets, ih, chunks_modify blocks i rfl]

theorem chunks_finishSlowPath (A : Arena) : chunks A.finishSlowPath.blocks = chunks A.blocks :=
  chunks_modify A.blocks A.current rfl

theorem tryAlloc_chunk {b b' : Block} {p delta : ℕ}
    (h : b.tryAlloc size align = some (p,delta,b')) : chunk b' = chunk b := by
  unfold Block.tryAlloc at h
  dsimp only at h
  split at h
  · cases h
  · split at h
    · cases h
    · obtain ⟨-,hrest⟩ := Prod.mk.inj (Option.some.inj h)
      rw [← (Prod.mk.inj hrest).2]
      rfl

theorem retained_chunk {i p delta : ℕ} {b : Block}
    (h : A.retained size align = some (i,p,delta,b)) :
    A.current < i ∧ chunk b = chunk (A.blocks.get i) := by
  unfold Arena.retained at h
  split at h
  · cases h
  · split at h
    · obtain ⟨hlo,-,-,hfit⟩ := firstFit_some h
      exact ⟨hlo,tryAlloc_chunk hfit⟩
    · cases h

theorem tryNewEvents_some {capacity : ℕ} {b : Block}
    (h : Block.tryNew sys capacity align = some b) :
    tryNewEvents sys capacity align = [.acquire (chunk b)] ∧
      sys b.capacity b.align = some b.base ∧ Legal (b.capacity,b.align) := by
  unfold Block.tryNew at h
  unfold tryNewEvents
  split at h
  · cases h
  · next hcap =>
    rw [if_neg hcap]
    dsimp only at h ⊢
    split at h
    · next hfits =>
      rw [if_pos hfits]
      obtain ⟨base,hbase,rfl⟩ := Option.map_eq_some_iff.mp h
      exact ⟨by rw [hbase]; rfl,hbase,Nat.pos_of_ne_zero hcap,hfits⟩
    · cases h

theorem tryNewEvents_none {capacity : ℕ} (h : Block.tryNew sys capacity align = none) :
    Declines (tryNewEvents sys capacity align) ∧ AllLegal (tryNewEvents sys capacity align) := by
  unfold Block.tryNew at h
  unfold tryNewEvents
  split at h
  · next hcap =>
    rw [if_pos hcap]
    exact ⟨nofun,nofun⟩
  · next hcap =>
    rw [if_neg hcap]
    dsimp only at h ⊢
    split at h
    · next hfits =>
      rw [if_pos hfits, Option.map_eq_none_iff.mp h]
      refine ⟨declines_decline _ _,allLegal_singleton ?_⟩
      rintro _ ⟨⟩
      exact ⟨Nat.pos_of_ne_zero hcap,hfits⟩
    · next hno =>
      rw [if_neg hno]
      exact ⟨nofun,nofun⟩

end blocks

/-- The calls on the system allocator account for the memory an arena owns: what they acquire and
do not release again is at most one chunk, which it owns now and did not before, and it gives up
nothing. -/
structure Accounts (sys : SystemAlloc) (before after : Blocks) (es : List Event) : Prop where
  new : ∃ new : Option Chunk, chunks after = chunks before ++ new.toList ∧
    (∀ c ∈ new, sys c.size c.align = some c.base) ∧ ∀ cs, Settles cs es (new.toList++cs)
  legal : AllLegal es

section requests
variable {A A' : Arena} {sys : SystemAlloc} {size align : ℕ}

theorem accounts_none {before after : Blocks} {es : List Event}
    (h : chunks after = chunks before) (hsettle : ∀ cs, Settles cs es cs) (hlegal : AllLegal es) :
    Accounts sys before after es :=
  ⟨⟨none,h.trans (List.append_nil _).symm,nofun,hsettle⟩,hlegal⟩

theorem accounts_same {before after : Blocks} (h : chunks after = chunks before) :
    Accounts sys before after [] := accounts_none h settles_nil nofun

theorem slowEvents_retained {found : ℕ × ℕ × ℕ × Block} (h : A.retained size align = some found) :
    slowEvents sys A size align = [] := by
  unfold slowEvents
  dsimp only
  rw [retained_finishSlowPath, h]

theorem slowEvents_none (h : A.retained size align = none) :
    slowEvents sys A size align = newBlockEvents sys A.finishSlowPath size align := by
  unfold slowEvents
  dsimp only
  rw [retained_finishSlowPath, h]

theorem newBlockEvents_some {blockSize n : ℕ}
    (hn : A.nextBlockFor size align = some (blockSize,{ A with nextBlockSize := n })) :
    newBlockEvents sys A.finishSlowPath size align = tryNewEvents sys blockSize align ++
      match Block.tryNew sys blockSize align with
      | none => []
      | some block =>
        match block.tryAlloc size align with
        | none => [dropBlock block]
        | some _ => [] := by
  unfold newBlockEvents
  rw [nextBlockFor_finishSlowPath, hn]
  rfl

theorem accounts_fresh {before : Blocks} {blockSize : ℕ} {b b' : Block}
    (hnew : Block.tryNew sys blockSize align = some b) (hchunk : chunk b' = chunk b) :
    Accounts sys before (before.push b') (tryNewEvents sys blockSize align) := by
  obtain ⟨hevents,hgrant,hlegal⟩ := tryNewEvents_some hnew
  rw [hevents]
  refine ⟨⟨some (chunk b),by rw [chunks_push, hchunk]; rfl,?_,fun cs => settles_acquire _ cs⟩,?_⟩
  · intro c hc
    rw [← Option.mem_some.mp hc]
    exact hgrant
  · refine allLegal_singleton ?_
    rintro _ ⟨⟩
    exact hlegal

theorem accounts_chunks {before before' after after' : Blocks} {es : List Event}
    (h : Accounts sys before after es) (hbefore : chunks before' = chunks before)
    (hafter : chunks after' = chunks after) : Accounts sys before' after' es := by
  obtain ⟨⟨new,hnew,hrest⟩,hlegal⟩ := h
  exact ⟨⟨new,by rw [hafter, hbefore, hnew],hrest⟩,hlegal⟩

theorem accounts_slow (oom misfit : Ret) : Accounts sys A.blocks
    (A.slowWith (Arena.newBlockWith oom misfit sys) size align).2.blocks
    (slowEvents sys A size align) := by
  cases hslow : A.slowWith (Arena.newBlockWith oom misfit sys) size align with
  | mk ret A' =>
  have hflush := chunks_finishSlowPath A
  cases slowWith_ends oom misfit hslow with
  | @resumed i p delta b hr =>
    rw [slowEvents_retained hr]
    apply accounts_same
    obtain ⟨hi,hchunk⟩ := retained_chunk hr
    rw [setCurrentBlock_blocks, chunks_modify _ i ?_, hflush]
    rw [hchunk, finishSlowPath_get A (Nat.ne_of_gt hi)]
  | overflowed hr hn =>
    rw [slowEvents_none hr]
    have hnone : newBlockEvents sys A.finishSlowPath size align = [] := by
      unfold newBlockEvents
      rw [nextBlockFor_finishSlowPath, hn]
      rfl
    rw [hnone]
    exact accounts_same hflush
  | refused hr hn hnew =>
    rw [slowEvents_none hr, newBlockEvents_some hn, hnew]
    dsimp only
    rw [List.append_nil]
    obtain ⟨hvain,hlegal⟩ := tryNewEvents_none hnew
    exact accounts_none hflush (settles_declines hvain) hlegal
  | @misfitted blockSize n b hr hn hnew htry =>
    -- the block that was made goes out of scope unused
    rw [slowEvents_none hr, newBlockEvents_some hn, hnew]
    dsimp only
    obtain ⟨hevents,-,hlegal⟩ := tryNewEvents_some hnew
    rw [htry, hevents]
    apply accounts_none hflush
    · exact fun cs => settles_append (settles_acquire (chunk b) cs) (settles_release (chunk b) cs)
    · apply allLegal_append
      · refine allLegal_singleton ?_
        rintro _ ⟨⟩
        exact hlegal
      · exact allLegal_singleton nofun
  | @fresh blockSize n p delta b b' hr hn hnew htry =>
    rw [slowEvents_none hr, newBlockEvents_some hn, hnew]
    dsimp only
    rw [htry]
    dsimp only
    rw [List.append_nil, setCurrentBlock_blocks]
    exact accounts_chunks (accounts_fresh hnew (tryAlloc_chunk htry)) hflush.symm rfl

theorem accounts_rawWith {fallible : Bool} {slow overflow : Arena → ℕ → ℕ → Ret × Arena}
    (hslow : Accounts sys A.blocks (slow A size align).2.blocks (slowEvents sys A size align))
    (hover : Accounts sys A.blocks (overflow A size align).2.blocks
      (if fallible then [] else slowEvents sys A size align)) :
    Accounts sys A.blocks (A.rawInnerWith slow overflow size align).2.blocks
      (rawEvents fallible sys A size align) := by
  unfold Arena.rawInnerWith rawEvents
  by_cases halign : align > minBlockAlign
  · rw [if_pos halign, if_pos halign]
    exact hslow
  · rw [if_neg halign, if_neg halign]
    dsimp only
    cases checkedAdd (alignUp A.curPtr align) size with
    | none => exact hover
    | some newEnd =>
      dsimp only
      split
      · exact accounts_same rfl
      · exact hslow

theorem accounts_raw (fallible : Bool) : Accounts sys A.blocks
    (A.rawInner fallible sys size align).2.blocks (rawEvents fallible sys A size align) := by
  cases fallible with
  | false => exact accounts_rawWith (accounts_slow _ _) (accounts_slow _ _)
  | true => exact accounts_rawWith (accounts_slow _ _) (accounts_same rfl)

theorem blocks_placeElements (ty : Ty) (len yields p : ℕ) (A : Arena) :
    (placeElements ty len yields p A).arena.blocks = A.blocks := by
  unfold placeElements
  split <;> rfl

theorem blocks_filled (kind : Kind) (p : ℕ) (A : Arena) :
    (kind.filled p A).arena.blocks = A.blocks := by
  cases kind with
  | slice ty len yields => exact blocks_placeElements ty len yields p A
  | sliceCopy ty len => exact blocks_placeElements ty len len p A
  | value ty => rfl
  | str len => rfl
  | uninit ty => rfl
  | raw size align => rfl
  | zeroed size align => rfl
  | cacheAligned size => rfl

theorem blocks_onRaw (ret : Ret) (A : Arena) (lost : ℕ) (kind : Kind) :
    (onRaw (ret,A) size align lost kind.filled).arena.blocks = A.blocks := by
  cases ret with
  | ptr p => exact blocks_filled kind p A
  | none => rfl
  | panic message => rfl

theorem accounts_serve (h : Wf A) {r : Request} (hr : r.Typed) :
    Accounts sys A.blocks (r.serve sys A).arena.blocks (serveEvents sys A r) := by
  unfold serveEvents
  rcases serve_demand h sys hr with ⟨hd,ret,drops,heq⟩ | ⟨size,align,hd,heq⟩
  · rw [hd, heq]
    exact accounts_same rfl
  · rw [hd, heq]
    cases hraw : A.rawInner r.fallible sys size align with
    | mk ret A' =>
      rw [blocks_onRaw]
      have haccounts : Accounts sys A.blocks (A.rawInner r.fallible sys size align).2.blocks
          (rawEvents r.fallible sys A size align) := accounts_raw r.fallible
      rw [hraw] at haccounts
      exact haccounts

theorem accounts_guarded (h : Wf A) {r : Request} (hr : r.Typed) (t : Transaction) :
    Accounts sys A.blocks (t.serve sys A r).arena.blocks (guardedEvents t sys A r) := by
  unfold guardedEvents
  rcases txn_serve t sys A r with ⟨hok,heq⟩ | ⟨hno,ret,-,lost,heq⟩
  · rw [if_pos hok, heq]
    exact accounts_serve h hr
  · rw [if_neg hno, heq]
    exact accounts_same rfl

end requests

theorem chunks_rewind (boom : ℕ → ℕ → Bool) (A : Arena) (cp : Checkpoint) :
    chunks (A.rewind boom cp).arena.blocks = chunks A.blocks := by
  unfold Arena.rewind
  split
  · dsimp only
    split
    · rfl
    · dsimp only
      rw [setCurrentBlock_blocks]
      dsimp only
      rw [chunks_modify _ cp.blockIdx rfl, chunks_clearOffsets]
  · rfl

theorem chunks_reset (boom : ℕ → ℕ → Bool) (A : Arena) :
    chunks (A.reset boom).arena.blocks = chunks A.blocks := by
  unfold Arena.reset
  dsimp only
  split
  · rfl
  · exact chunks_clearOffsets _ _ _

theorem chunks_drop (boom : ℕ → ℕ → Bool) (t : Transaction) (A : Arena) :
    chunks (t.drop boom A).arena.blocks = chunks A.blocks := by
  unfold Transaction.drop
  dsimp only
  split
  · rfl
  · exact chunks_rewind _ _ _

def allocator : Op → SystemAlloc
  | .request sys _ => sys
  | .guarded sys _ => sys
  | _ => noMemory

/-- Any call on an arena accounts for the memory the arena owns. -/
theorem accounts_step {w : World} (h : Inv w) {op : Op} (hop : Honest w op) :
    Accounts (allocator op) w.arena.blocks (w.step op).arena.blocks (opEvents w op) := by
  cases op with
  | request sys r => exact accounts_serve h.wf hop.2
  | guarded sys r =>
    cases hopened : w.opened with
    | nil =>
      simp only [World.step, opEvents, hopened]
      exact accounts_same rfl
    | cons f rest =>
      simp only [World.step, opEvents, hopened]
      exact accounts_guarded h.wf hop.2 f.txn
  | checkpoint => exact accounts_same rfl
  | rewind boom stamp =>
    apply accounts_same
    simp only [World.step]
    split
    · rfl
    · exact chunks_rewind _ _ _
  | reset boom => exact accounts_same (chunks_reset _ _)
  | begin => exact accounts_same rfl
  | commit =>
    apply accounts_same
    simp only [World.step]
    split <;> rfl
  | rollback boom =>
    apply accounts_same
    simp only [World.step]
    split
    · rfl
    · exact chunks_drop _ _ _
  | setLimit bytes =>
    apply accounts_same
    simp only [World.step]
    split <;> rfl

theorem accounts_create {sys : SystemAlloc} {feature : Bool} {initialBytes : ℕ} {A : Arena}
    (hA : Arena.withCapacity sys feature initialBytes = some A) :
    Accounts sys (InlineVec.new : Blocks) A.blocks (createEvents sys initialBytes) := by
  obtain ⟨b,hb,rfl⟩ := Option.map_eq_some_iff.mp hA
  exact accounts_fresh hb rfl

theorem createEvents_none {sys : SystemAlloc} {feature : Bool} {initialBytes : ℕ}
    (hA : Arena.withCapacity sys feature initialBytes = none) :
    Declines (createEvents sys initialBytes) ∧ AllLegal (createEvents sys initialBytes) :=
  tryNewEvents_none (Option.map_eq_none_iff.mp hA)

end FastArena.SystemCalls
