import FastArena.VecGrowth

/-!
# What a failed call leaves behind

A fallible call that finds no memory has flushed the counters of the current
block and advanced the growth of blocks before it gives up. Two arenas that
differ only in what no call looks at are twins and answer every later request
alike; a failed call leaves a twin exactly when the current block was empty and
the growth at its cap, or nothing was asked of the slow path.
-/

set_option autoImplicit false

namespace FastArena.FailureAtomicity
open FastArena.MachineWord FastArena.ArenaBlock FastArena.InlineStorage FastArena.ArenaCore
  FastArena.ArenaInvariant FastArena.RawRequest FastArena.ArenaRequests
  FastArena.ArenaTransaction FastArena.ArenaWorld FastArena.GrowableVec FastArena.VecGrowth

/-- Nothing a caller can ask tells the second arena from the first. -/
structure Unobserved (A A' : Arena) : Prop where
  stats : A'.stats = A.stats
  checkpoint : A'.checkpoint = A.checkpoint
  used : ∀ t : Transaction, t.bytesUsed A' = t.bytesUsed A
  remaining : ∀ t : Transaction, t.budgetRemaining A' = t.budgetRemaining A
  nextBlock : ∀ size align,
    (A'.nextBlockFor size align).map Prod.fst = (A.nextBlockFor size align).map Prod.fst
  answers : ∀ calls, answers A' calls = answers A calls

theorem unobserved_refl (A : Arena) : Unobserved A A :=
  ⟨rfl,rfl,fun _ => rfl,fun _ => rfl,fun _ _ => rfl,fun _ => rfl⟩

/-- Equal but for the offset kept in the current block, which is overwritten before it is read, and
for a block growth that is at its cap either way. -/
inductive Twin (A : Arena) : Arena → Prop where
  | intro (blocks : Blocks) (n : ℕ)
      (hblocks : ∀ o, blocks.modify A.current (fun b => { b with offset := o }) =
        A.blocks.modify A.current (fun b => { b with offset := o }))
      (hcap : maxBlockSize/2 < A.nextBlockSize) (hcap' : maxBlockSize/2 < n) :
      Twin A { A with blocks := blocks, nextBlockSize := n }

section twins
variable {A A' : Arena} {sys : SystemAlloc} {size align : ℕ}

theorem twin_growth {n : ℕ} (hcap : maxBlockSize/2 < A.nextBlockSize) (hn : maxBlockSize/2 < n) :
    Twin A { A with nextBlockSize := n } := .intro A.blocks n (fun _ => rfl) hcap hn

theorem twin_refl (hcap : maxBlockSize/2 < A.nextBlockSize) : Twin A A := twin_growth hcap hcap

theorem power_capped {n wanted : ℕ} (hn : maxBlockSize/2 < n) (hle : n ≤ wanted) :
    maxBlockSize ≤ (checkedNextPowerOfTwo wanted).getD (2^64-1) := by
  have hhalf : maxBlockSize/2 = 2^23 := by norm_num [maxBlockSize]
  cases hp : checkedNextPowerOfTwo wanted with
  | none => norm_num [maxBlockSize]
  | some p =>
    obtain ⟨⟨k,-,rfl⟩,hge⟩ := checkedNextPowerOfTwo_some hp
    have hk : 23 < k := (Nat.pow_lt_pow_iff_right (show 1 < 2 by norm_num)).mp (by omega)
    change 16*1024*1024 ≤ 2^k
    calc
      16*1024*1024 = 2^24 := by norm_num
      _ ≤ 2^k := Nat.pow_le_pow_right (by norm_num) hk

theorem nextBlockFor_capped (hcap : maxBlockSize/2 < A.nextBlockSize) (size align : ℕ) :
    A.nextBlockFor size align = (checkedAdd size (wsub align 1)).map fun worst =>
      (max (max maxBlockSize worst) (wmul align 2),{ A with nextBlockSize := maxBlockSize }) := by
  unfold Arena.nextBlockFor
  cases checkedAdd size (wsub align 1) with
  | none => rfl
  | some worst =>
    have hpow := power_capped hcap
      (show A.nextBlockSize ≤ max (max A.nextBlockSize worst) (wmul align 2) by simp)
    rw [Option.map_some, Option.map_some]
    dsimp only
    rw [min_eq_right hpow]
    have hgrowth : min (saturatingAdd (max (max maxBlockSize worst) (wmul align 2))
        (max (max maxBlockSize worst) (wmul align 2) / 2)) maxBlockSize = maxBlockSize := by
      apply min_eq_right
      have hmax : maxBlockSize < 2^64-1 := by norm_num [maxBlockSize]
      unfold saturatingAdd
      omega
    rw [hgrowth]

theorem setCurrentBlock_growth (A : Arena) (idx n : ℕ) :
    Arena.setCurrentBlock { A with nextBlockSize := n } idx =
      { A.setCurrentBlock idx with nextBlockSize := n } := by
  unfold Arena.setCurrentBlock
  dsimp only
  split <;> rfl

def Same (r r' : Ret × Arena) : Prop := r.1 = r'.1 ∧ Twin r.2 r'.2

theorem newBlock_same {n : ℕ} (hcap : maxBlockSize/2 < A.nextBlockSize) (hn : maxBlockSize/2 < n)
    (oom misfit : Ret) :
    Same (A.newBlockWith oom misfit sys size align)
      (Arena.newBlockWith oom misfit sys { A with nextBlockSize := n } size align) := by
  have hmax : maxBlockSize/2 < maxBlockSize := by norm_num [maxBlockSize]
  unfold Arena.newBlockWith
  rw [nextBlockFor_capped hcap, nextBlockFor_capped hn]
  cases checkedAdd size (wsub align 1) with
  | none => exact ⟨rfl,twin_growth hcap hn⟩
  | some worst =>
    dsimp only [Option.map_some]
    split
    · exact ⟨rfl,twin_refl hmax⟩
    · split
      · exact ⟨rfl,twin_refl hmax⟩
      · refine ⟨rfl,twin_refl ?_⟩
        dsimp only
        rw [setCurrentBlock_nextBlockSize]
        exact hmax

theorem twin_finishSlowPath (h : Twin A A') : ∃ n, maxBlockSize/2 < n ∧
    A'.finishSlowPath = { A.finishSlowPath with nextBlockSize := n } := by
  cases h with
  | intro blocks n hblocks _ hcap' =>
    refine ⟨n,hcap',?_⟩
    have hsame := hblocks A.curOffset
    unfold Arena.finishSlowPath
    dsimp only [Arena.curOffset] at hsame ⊢
    rw [hsame]

theorem twin_cap (h : Twin A A') : maxBlockSize/2 < A.nextBlockSize := by
  cases h with
  | intro _ _ _ hcap _ => exact hcap

theorem slowWith_same (h : Twin A A') (oom misfit : Ret) :
    Same (A.slowWith (Arena.newBlockWith oom misfit sys) size align)
      (A'.slowWith (Arena.newBlockWith oom misfit sys) size align) := by
  obtain ⟨n,hn,hfinish⟩ := twin_finishSlowPath h
  have hcap := twin_cap h
  have hcap' : maxBlockSize/2 < A.finishSlowPath.nextBlockSize := hcap
  have hretained : Arena.retained { A.finishSlowPath with nextBlockSize := n } size align =
      A.finishSlowPath.retained size align := rfl
  unfold Arena.slowWith
  rw [hfinish]
  dsimp only
  rw [hretained]
  cases A.finishSlowPath.retained size align with
  | some found =>
    refine ⟨rfl,?_⟩
    have henter := setCurrentBlock_growth { A.finishSlowPath with
      bytesAllocated := wadd A.finishSlowPath.bytesAllocated found.2.2.1
      blocks := A.finishSlowPath.blocks.modify found.1 (fun _ => found.2.2.2) } found.1 n
    dsimp only
    rw [henter]
    apply twin_growth _ hn
    rw [setCurrentBlock_nextBlockSize]
    exact hcap'
  | none => exact newBlock_same hcap' hn oom misfit

theorem twin_register (h : Twin A A') (registry : DropTracking.DropRegistry) :
    Twin { A with dropRegistry := registry } { A' with dropRegistry := registry } := by
  cases h with
  | intro blocks n hblocks hcap hcap' => exact .intro blocks n hblocks hcap hcap'

theorem twin_registry (h : Twin A A') : A'.dropRegistry = A.dropRegistry := by
  cases h with
  | intro blocks n hblocks hcap hcap' => rfl

theorem twin_bump (h : Twin A A') (q : ℕ) :
    Twin { A with curPtr := q } { A' with curPtr := q } := by
  cases h with
  | intro blocks n hblocks hcap hcap' => exact .intro blocks n hblocks hcap hcap'

theorem twin_pointers (h : Twin A A') : A'.curPtr = A.curPtr ∧ A'.curEnd = A.curEnd := by
  cases h with
  | intro blocks n hblocks hcap hcap' => exact ⟨rfl,rfl⟩

theorem rawInnerWith_same (h : Twin A A') {slow overflow : Arena → ℕ → ℕ → Ret × Arena}
    (hslow : Same (slow A size align) (slow A' size align))
    (hoverflow : Same (overflow A size align) (overflow A' size align)) :
    Same (A.rawInnerWith slow overflow size align) (A'.rawInnerWith slow overflow size align) := by
  obtain ⟨hptr,hend⟩ := twin_pointers h
  rcases rawInnerWith_branches hptr hend slow overflow slow overflow size align with
    ⟨p,q,heq,heq'⟩ | ⟨-,-,heq,heq'⟩ | ⟨-,heq,heq'⟩
  · rw [heq, heq']
    exact ⟨rfl,twin_bump h q⟩
  · rw [heq, heq']
    exact hslow
  · rw [heq, heq']
    exact hoverflow

theorem rawInner_same (h : Twin A A') (fallible : Bool) :
    Same (A.rawInner fallible sys size align) (A'.rawInner fallible sys size align) := by
  cases fallible with
  | false => exact rawInnerWith_same h (slowWith_same h _ _) (slowWith_same h _ _)
  | true => exact rawInnerWith_same h (slowWith_same h _ _) ⟨rfl,h⟩

def Alike (o o' : Outcome) : Prop := o.ret = o'.ret ∧ Twin o.arena o'.arena

def Even (filled : ℕ → Arena → Outcome) : Prop :=
  ∀ p A A', Twin A A' → Alike (filled p A) (filled p A')

theorem onRaw_alike {r r' : Ret × Arena} (h : Same r r') (lost : ℕ)
    {filled : ℕ → Arena → Outcome} (hfilled : Even filled) :
    Alike (onRaw r size align lost filled) (onRaw r' size align lost filled) := by
  obtain ⟨ret,A⟩ := r
  obtain ⟨ret',A'⟩ := r'
  obtain ⟨hret,htwin⟩ := h
  obtain rfl : ret = ret' := hret
  cases ret with
  | ptr p => exact hfilled p A A' htwin
  | none => exact ⟨rfl,htwin⟩
  | panic message => exact ⟨rfl,htwin⟩

theorem placeValue_even (ty : Ty) : Even (placeValue ty) := by
  intro p A A' h
  refine ⟨rfl,?_⟩
  unfold placeValue
  rw [twin_registry h]
  exact twin_register h _

theorem placeElements_even (ty : Ty) (len yields : ℕ) : Even (placeElements ty len yields) := by
  intro p A A' h
  unfold placeElements
  rw [twin_registry h]
  split
  · exact ⟨rfl,h⟩
  · exact ⟨rfl,twin_register h _⟩

theorem placeBytes_even (size : ℕ) : Even (placeBytes size) := fun _ _ _ h => ⟨rfl,h⟩

theorem placeNothing_even : Even placeNothing := fun _ _ _ h => ⟨rfl,h⟩

theorem allocWith_alike (h : Twin A A') (fallible : Bool) (ty : Ty) :
    Alike (allocWith fallible sys A ty) (allocWith fallible sys A' ty) := by
  unfold allocWith
  split
  · exact ⟨rfl,h⟩
  · exact onRaw_alike (rawInner_same h fallible) _ (placeValue_even ty)

theorem allocSliceWith_alike (h : Twin A A') (fallible : Bool) (overflow : Ret) (ty : Ty)
    (len : ℕ) {filled : ℕ → Arena → Outcome} (hfilled : Even filled) :
    Alike (allocSliceWith fallible overflow sys A ty len filled)
      (allocSliceWith fallible overflow sys A' ty len filled) := by
  unfold allocSliceWith
  split
  · exact ⟨rfl,h⟩
  · split
    · exact ⟨rfl,h⟩
    · exact onRaw_alike (rawInner_same h fallible) _ hfilled

theorem allocRawWith_alike (h : Twin A A') (fallible : Bool) (size align : ℕ)
    {filled : ℕ → Arena → Outcome} (hfilled : Even filled) :
    Alike (allocRawWith fallible sys A size align filled)
      (allocRawWith fallible sys A' size align filled) := by
  unfold allocRawWith
  split
  · split
    · exact ⟨rfl,h⟩
    · exact onRaw_alike (rawInner_same h fallible) _ hfilled
  · exact ⟨rfl,h⟩

theorem allocStr_alike (h : Twin A A') (len : ℕ) :
    Alike (allocStr sys A len) (allocStr sys A' len) := by
  have hslow : Alike (allocSlowStr sys A len) (allocSlowStr sys A' len) :=
    onRaw_alike (rawInner_same h false) _ (placeBytes_even len)
  cases h with
  | intro blocks n hblocks hcap hcap' =>
    unfold allocStr
    split
    · exact ⟨rfl,.intro blocks n hblocks hcap hcap'⟩
    · dsimp only
      split
      · exact ⟨rfl,.intro blocks n hblocks hcap hcap'⟩
      · exact hslow

theorem tryAllocStr_alike (h : Twin A A') (len : ℕ) :
    Alike (tryAllocStr sys A len) (tryAllocStr sys A' len) := by
  have hslow : Alike (tryAllocSlowStr sys A len) (tryAllocSlowStr sys A' len) :=
    onRaw_alike (rawInner_same h true) _ (placeBytes_even len)
  cases h with
  | intro blocks n hblocks hcap hcap' =>
    unfold tryAllocStr
    split
    · exact ⟨rfl,.intro blocks n hblocks hcap hcap'⟩
    · dsimp only
      split
      · exact ⟨rfl,.intro blocks n hblocks hcap hcap'⟩
      · split
        · exact ⟨rfl,.intro blocks n hblocks hcap hcap'⟩
        · exact hslow

theorem allocUninit_alike (h : Twin A A') (ty : Ty) :
    Alike (allocUninit sys A ty) (allocUninit sys A' ty) := by
  unfold allocUninit
  split
  · exact ⟨rfl,h⟩
  · exact onRaw_alike (rawInner_same h false) _ placeNothing_even

theorem allocZeroed_alike (h : Twin A A') (size align : ℕ) :
    Alike (allocZeroed sys A size align) (allocZeroed sys A' size align) := by
  unfold allocZeroed
  split
  · exact ⟨rfl,h⟩
  · exact allocRawWith_alike h false size align (placeBytes_even size)

/-- Twins serve every request alike. -/
theorem serve_alike (h : Twin A A') (sys : SystemAlloc) (r : Request) :
    Alike (r.serve sys A) (r.serve sys A') := by
  obtain ⟨kind,fallible⟩ := r
  cases kind with
  | value ty => cases fallible <;> exact allocWith_alike h _ ty
  | slice ty len yields =>
    cases fallible <;> exact allocSliceWith_alike h _ _ ty len (placeElements_even ty len yields)
  | sliceCopy ty len =>
    cases fallible <;> exact allocSliceWith_alike h _ _ ty len (placeElements_even ty len len)
  | str len =>
    cases fallible with
    | false => exact allocStr_alike h len
    | true => exact tryAllocStr_alike h len
  | uninit ty => exact allocUninit_alike h ty
  | raw size align => cases fallible <;> exact allocRawWith_alike h _ size align placeNothing_even
  | zeroed size align =>
    cases fallible with
    | false => exact allocZeroed_alike h size align
    | true => exact allocRawWith_alike h true size align (placeBytes_even size)
  | cacheAligned size =>
    cases fallible <;> exact allocRawWith_alike h _ size cacheLineSize placeNothing_even

theorem answers_twin (h : Twin A A') (calls : List Ask) :
    answers A' calls = answers A calls := by
  induction calls generalizing A A' with
  | nil => rfl
  | cons c rest ih =>
    obtain ⟨hret,hnext⟩ := serve_alike h c.1 c.2
    have hrest : answers (served A' c) rest = answers (served A c) rest := ih hnext
    rw [answers, answers, hret, hrest]

theorem twin_unobserved (h : Twin A A') : Unobserved A A' := by
  have hanswers := answers_twin h
  cases h with
  | intro blocks n hblocks hcap hcap' =>
    have hlen : blocks.len = A.blocks.len := by
      have hsame := congrArg InlineVec.len (hblocks 0)
      rwa [InlineVec.len_modify, InlineVec.len_modify] at hsame
    refine ⟨?_,rfl,fun _ => rfl,fun _ => rfl,?_,hanswers⟩
    · unfold Arena.stats
      dsimp only
      rw [hlen]
      rfl
    · intro size align
      rw [nextBlockFor_capped hcap, nextBlockFor_capped hcap', Option.map_map, Option.map_map]
      rfl

end twins

section failure
variable {A A' : Arena} {sys : SystemAlloc} {size align : ℕ}

def Aborted (A : Arena) (size align : ℕ) (A' : Arena) : Prop :=
  ∃ rounded n, A.nextBlockFor size align = some (rounded,{ A with nextBlockSize := n }) ∧
    A' = { A.finishSlowPath with nextBlockSize := n }

theorem slow_none (hslow : A.allocSlowTry sys size align = (.none,A')) :
    Aborted A size align A' := by
  generalize hret : Ret.none = ret at hslow
  cases slowWith_ends .none .none hslow with
  | resumed => cases hret
  | overflowed => cases hret
  | refused _ hn => exact ⟨_,_,hn,rfl⟩
  | misfitted _ hn => exact ⟨_,_,hn,rfl⟩
  | fresh => cases hret

theorem raw_none (hraw : A.rawInner true sys size align = (.none,A')) :
    (Overflows A size align ∧ A' = A) ∨ ¬ Overflows A size align ∧ Aborted A size align A' := by
  change A.rawInnerWith (Arena.allocSlowTry sys) (fun A _ _ => (.none,A)) size align = _ at hraw
  unfold Arena.rawInnerWith at hraw
  by_cases hhigh : align > minBlockAlign
  · rw [if_pos hhigh] at hraw
    exact Or.inr ⟨fun hover => absurd hover.1 (by omega),slow_none hraw⟩
  · rw [if_neg hhigh] at hraw
    dsimp only at hraw
    cases hadd : checkedAdd (alignUp A.curPtr align) size with
    | none =>
      rw [hadd] at hraw
      exact Or.inl ⟨⟨by omega,hadd⟩,(Prod.mk.inj hraw).2.symm⟩
    | some newEnd =>
      rw [hadd] at hraw
      dsimp only at hraw
      have hover : ¬ Overflows A size align := fun hover => nomatch hadd.symm.trans hover.2
      by_cases hroom : newEnd ≤ A.curEnd
      · rw [if_pos hroom] at hraw
        cases (Prod.mk.inj hraw).1
      · rw [if_neg hroom] at hraw
        exact Or.inr ⟨hover,slow_none hraw⟩

def probe (n : ℕ) : ℕ :=
  max (max (min ((checkedNextPowerOfTwo (max (max n 1) 2)).getD (2^64-1)) maxBlockSize) 1) 2

theorem nextBlockFor_probe (A : Arena) :
    (A.nextBlockFor 1 1).map Prod.fst = some (probe A.nextBlockSize) := by
  have hwmul : wmul 1 2 = 2 := rfl
  have hadd : checkedAdd 1 (wsub 1 1) = some 1 := rfl
  unfold Arena.nextBlockFor probe
  rw [hadd, hwmul]
  rfl

theorem le_getD_power (n : ℕ) (hn : n ≤ 2^64-1) :
    n ≤ (checkedNextPowerOfTwo n).getD (2^64-1) := by
  cases hp : checkedNextPowerOfTwo n with
  | none => exact hn
  | some p => exact (checkedNextPowerOfTwo_some hp).2

theorem probe_ge {n : ℕ} (hn : n ≤ maxBlockSize) : n ≤ probe n := by
  have hmax : maxBlockSize < 2^64-2 := by norm_num [maxBlockSize]
  have hpow := le_getD_power (max (max n 1) 2) (by omega)
  unfold probe
  omega

theorem probe_small {n : ℕ} (hn : n ≤ maxBlockSize/2) : PowerOfTwo (probe n) ∧
    probe n ≤ maxBlockSize/2 ∧ 2 ≤ probe n ∧
      ∀ q, PowerOfTwo q → n ≤ q → 2 ≤ q → probe n ≤ q := by
  have hhalf : maxBlockSize/2 = 2^23 := by norm_num [maxBlockSize]
  have hmax : maxBlockSize = 2^24 := by norm_num [maxBlockSize]
  cases hp : checkedNextPowerOfTwo (max (max n 1) 2) with
  | none =>
    have hbig := checkedNextPowerOfTwo_none hp
    omega
  | some p =>
    obtain ⟨hpow,hge⟩ := checkedNextPowerOfTwo_some hp
    have hleast := fun q hq => checkedNextPowerOfTwo_least (q := q) hp hq
    have hle := hleast (2^23) ⟨23,by norm_num,rfl⟩ (by omega)
    have hprobe : probe n = p := by
      unfold probe
      rw [hp, Option.getD_some, hmax]
      omega
    rw [hprobe, hhalf]
    exact ⟨hpow,hle,by omega,fun q hq hn hq2 => hleast q hq (by omega)⟩

theorem rounded_ge (hpow : PowerOfTwo align) (hcap : A.nextBlockSize ≤ maxBlockSize/2)
    {rounded : ℕ} {B : Arena} (hnext : A.nextBlockFor size align = some (rounded,B)) :
    probe A.nextBlockSize ≤ rounded ∧
      B.nextBlockSize = min (saturatingAdd rounded (rounded/2)) maxBlockSize := by
  have halign := powerOfTwo_pos hpow
  have hle := powerOfTwo_le hpow
  have hhalf : maxBlockSize/2 = 2^23 := by norm_num [maxBlockSize]
  have hmax : maxBlockSize = 2^24 := by norm_num [maxBlockSize]
  obtain ⟨-,hsmall,-,hleast⟩ := probe_small hcap
  obtain ⟨worst,hworst,heq⟩ := Option.map_eq_some_iff.mp hnext
  obtain ⟨hrounded,rfl⟩ := Prod.mk.inj heq
  obtain ⟨hsum,-⟩ := checkedAdd_some hworst
  refine ⟨?_,by dsimp only; rw [hrounded]⟩
  rw [← hrounded]
  -- a request of any alignment has a block of two bytes reserved at least
  have htwo : 2 ≤ max worst (wmul align 2) := by
    rw [wsub_eq halign (by omega)] at hsum
    unfold wmul
    omega
  by_cases hn : A.nextBlockSize < 2
  · have hprobe := hleast 2 ⟨1,by norm_num,rfl⟩ (by omega) (le_refl 2)
    omega
  · have hwanted : A.nextBlockSize ≤ max (max A.nextBlockSize worst) (wmul align 2) := by simp
    generalize max (max A.nextBlockSize worst) (wmul align 2) = wanted at hwanted ⊢
    cases hq : checkedNextPowerOfTwo wanted with
    | none =>
      rw [Option.getD_none]
      omega
    | some q =>
      obtain ⟨hqpow,hqge⟩ := checkedNextPowerOfTwo_some hq
      have hprobe := hleast q hqpow (by omega) (by omega)
      rw [Option.getD_some]
      omega

/-- Below the cap a failed request shows in the size of the next block. -/
theorem growth_visible (hpow : PowerOfTwo align) (hcap : A.nextBlockSize ≤ maxBlockSize/2)
    {rounded n : ℕ}
    (hnext : A.nextBlockFor size align = some (rounded,{ A with nextBlockSize := n })) :
    probe A.nextBlockSize < probe n := by
  obtain ⟨hge,hgrowth⟩ := rounded_ge hpow hcap hnext
  obtain ⟨-,hsmall,htwo,-⟩ := probe_small hcap
  have hmax : maxBlockSize = 2^24 := by norm_num [maxBlockSize]
  have hn : n = min (saturatingAdd rounded (rounded/2)) maxBlockSize := hgrowth
  have hprobe := probe_ge (show n ≤ maxBlockSize by omega)
  unfold saturatingAdd at hn
  omega

structure Words (A : Arena) : Prop where
  bytes_lt : A.bytesAllocated < 2^64
  ptr_lt : A.curPtr < 2^64

theorem words_reached {w : World} (h : Reached Honest w) : Words w.arena := by
  have hwf := (inv_reached (fun _ _ hop => hop) h).wf
  have htop := curEnd_le hwf
  have hle := hwf.ptr_le
  unfold addressTop at htop
  exact ⟨hwf.allocated_lt,by omega⟩

def Fresh (A : Arena) : Prop := A.curOffset = 0 ∧ maxBlockSize/2 < A.nextBlockSize

instance (A : Arena) : Decidable (Fresh A) := inferInstanceAs (Decidable (_ ∧ _))

theorem twin_aborted (hwords : Words A) (hfresh : Fresh A) (h : Aborted A size align A') :
    Twin A A' := by
  obtain ⟨hoff,hcap⟩ := hfresh
  obtain ⟨rounded,n,hnext,rfl⟩ := h
  rw [nextBlockFor_capped hcap] at hnext
  obtain ⟨worst,-,heq⟩ := Option.map_eq_some_iff.mp hnext
  have hn : maxBlockSize = n := congrArg Arena.nextBlockSize (Prod.mk.inj heq).2
  have hbytes : wadd A.bytesAllocated A.curOffset = A.bytesAllocated := by
    rw [hoff, wadd_eq (by have := hwords.bytes_lt; omega), Nat.add_zero]
  have hfinish : { A.finishSlowPath with nextBlockSize := n } = { A with
      blocks := A.blocks.modify A.current (fun b => { b with offset := A.curOffset })
      nextBlockSize := n } := by
    unfold Arena.finishSlowPath
    dsimp only
    rw [hbytes]
  rw [hfinish]
  refine .intro _ n (fun o => ?_) hcap ?_
  · rw [InlineVec.modify_modify]
  · rw [← hn]
    norm_num [maxBlockSize]

/-- A request that the slow path gave up goes unobserved exactly on a fresh arena. -/
theorem aborted_iff (hwords : Words A) (hpow : PowerOfTwo align) (h : Aborted A size align A') :
    Unobserved A A' ↔ Fresh A := by
  constructor
  · intro hun
    obtain ⟨rounded,n,hnext,rfl⟩ := h
    constructor
    · have hbytes : wadd (wadd A.bytesAllocated A.curOffset) A.curOffset =
          wadd A.bytesAllocated A.curOffset := congrArg ArenaStats.bytesAllocated hun.stats
      exact (wadd_eq_self_iff (wadd_lt _ _) (wsub_lt _ _)).mp hbytes
    · by_contra hcap
      have hgrown := growth_visible hpow (Nat.not_lt.mp hcap) hnext
      have hsame := hun.nextBlock 1 1
      rw [nextBlockFor_probe, nextBlockFor_probe] at hsame
      exact absurd (Option.some.inj hsame) (Nat.ne_of_gt hgrown)
  · intro hfresh
    exact twin_unobserved (twin_aborted hwords hfresh h)

end failure

inductive Attempt where
  | request (r : Request)
  | guarded (t : Transaction) (r : Request)
  | vec (ty : Ty) (v : ArenaVec) (op : VecOp)

namespace Attempt

def after (sys : SystemAlloc) (A : Arena) : Attempt → Arena
  | .request r => (r.serve sys A).arena
  | .guarded t r => (t.serve sys A r).arena
  | .vec ty v op => (op.apply sys A ty v).call.arena

def Failed (sys : SystemAlloc) (A : Arena) : Attempt → Prop
  | .request r => r.fallible = true ∧ (r.serve sys A).ret = .none
  | .guarded t r => r.fallible = true ∧ (t.serve sys A r).ret = .none
  | .vec ty v op => op.fallible = true ∧
    ((op.apply sys A ty v).res = .returned ∨ ∃ e, (op.apply sys A ty v).res = .err e)

def Typed : Attempt → Prop
  | .request r => r.Typed
  | .guarded _ r => r.Typed
  | .vec ty _ op => op.Typed ty

def demand (A : Arena) : Attempt → Option (ℕ × ℕ)
  | .request r => r.kind.demand
  | .guarded t r =>
    if offered r ∧ t.budgetOk A (payload r.kind) then r.kind.demand else none
  | .vec ty v op =>
    if ty.size = 0 then none
    else (target v op).bind fun n => (checkedMul n ty.size).map (·,ty.align)

/-- Nothing was asked, or the end of the region overflowed a word, or the arena is fresh. -/
def Harmless (A : Arena) (a : Attempt) : Prop :=
  ∀ size align, a.demand A = some (size,align) → Overflows A size align ∨ Fresh A

end Attempt

section attempts
variable {A : Arena} {sys : SystemAlloc} {size align : ℕ}

def Rejected (A : Arena) (demand : Option (ℕ × ℕ)) (A' : Arena) : Prop :=
  (demand = none ∧ A' = A) ∨ ∃ size align, demand = some (size,align) ∧ PowerOfTwo align ∧
    ((Overflows A size align ∧ A' = A) ∨ ¬ Overflows A size align ∧ Aborted A size align A')

theorem onRaw_none {r : Ret × Arena} {lost : ℕ} {filled : ℕ → Arena → Outcome}
    (hfilled : ∀ p B, (filled p B).ret ≠ .none) (h : (onRaw r size align lost filled).ret = .none) :
    r = (.none,(onRaw r size align lost filled).arena) := by
  obtain ⟨ret,B⟩ := r
  cases ret with
  | ptr p => exact absurd h (hfilled p B)
  | none => rfl
  | panic message => cases h

theorem ptr_ne_none (p : ℕ) : Ret.ptr p ≠ .none := Ret.noConfusion

theorem placeElements_ret (ty : Ty) (len yields p : ℕ) (B : Arena) :
    (placeElements ty len yields p B).ret ≠ .none := by
  unfold placeElements
  split <;> nofun

theorem rejected_raw {lost : ℕ} {filled : ℕ → Arena → Outcome} (hpow : PowerOfTwo align)
    (hfilled : ∀ p B, (filled p B).ret ≠ .none)
    (h : (onRaw (A.rawInner true sys size align) size align lost filled).ret = .none) :
    Rejected A (some (size,align))
      (onRaw (A.rawInner true sys size align) size align lost filled).arena :=
  Or.inr ⟨size,align,rfl,hpow,raw_none (onRaw_none hfilled h)⟩

theorem rejected_slice {ty : Ty} {len : ℕ} {filled : ℕ → Arena → Outcome}
    (hfilled : ∀ p B, (filled p B).ret ≠ .none)
    (h : (allocSliceWith true .none sys A ty len filled).ret = .none) :
    Rejected A (sliceDemand ty len) (allocSliceWith true .none sys A ty len filled).arena := by
  rcases allocSliceWith_cases true .none sys A ty len filled with
    ⟨hd,ret,drops,heq⟩ | ⟨size,align,hd,heq⟩
  · rw [heq]
    exact Or.inl ⟨hd,rfl⟩
  · obtain ⟨-,-,halign,-⟩ := sliceDemand_some hd
    rw [heq] at h ⊢
    rw [hd]
    exact rejected_raw (halign ▸ ty.align_pow) hfilled h

theorem rejected_allocRaw {filled : ℕ → Arena → Outcome} (hfilled : ∀ p B, (filled p B).ret ≠ .none)
    (h : (allocRawWith true sys A size align filled).ret = .none) :
    Rejected A (Kind.raw size align).demand (allocRawWith true sys A size align filled).arena := by
  rcases allocRawWith_cases true sys A size align filled with ⟨hno,ret,drops,heq⟩ | ⟨hyes,heq⟩
  · rw [heq]
    exact Or.inl ⟨if_neg hno,rfl⟩
  · rw [heq] at h ⊢
    rw [Kind.demand, if_pos hyes]
    exact rejected_raw hyes.1 hfilled h

theorem rejected_str (hwords : Words A) {len : ℕ} (h : (tryAllocStr sys A len).ret = .none) :
    Rejected A (Kind.str len).demand (tryAllocStr sys A len).arena := by
  have hup : alignUp A.curPtr 1 = A.curPtr := alignUp_one hwords.ptr_lt
  unfold tryAllocStr at h ⊢
  by_cases hlen : len = 0
  · rw [if_pos hlen] at h
    cases h
  · rw [if_neg hlen] at h ⊢
    rw [Kind.demand, if_neg hlen]
    cases hadd : checkedAdd A.curPtr len with
    | none =>
      have hover : Overflows A len 1 :=
        ⟨by norm_num [minBlockAlign],(congrArg (checkedAdd · len) hup).trans hadd⟩
      exact Or.inr ⟨len,1,rfl,powerOfTwo_one,Or.inl ⟨hover,rfl⟩⟩
    | some newEnd =>
      rw [hadd] at h
      dsimp only at h ⊢
      by_cases hroom : newEnd ≤ A.curEnd
      · rw [if_pos hroom] at h
        cases h
      · rw [if_neg hroom] at h ⊢
        exact rejected_raw powerOfTwo_one (fun p _ => ptr_ne_none p) h

theorem rejected_request (hwords : Words A) {r : Request} (hr : r.Typed) (hf : r.fallible = true)
    (h : (r.serve sys A).ret = .none) : Rejected A r.kind.demand (r.serve sys A).arena := by
  obtain ⟨kind,fallible⟩ := r
  obtain rfl : fallible = true := hf
  cases kind with
  | value ty =>
    change (allocWith true sys A ty).ret = .none at h
    change Rejected A _ (allocWith true sys A ty).arena
    unfold allocWith at h ⊢
    by_cases hsize : ty.size = 0
    · rw [if_pos hsize] at h
      cases h
    · rw [if_neg hsize] at h ⊢
      rw [Kind.demand, if_neg hsize]
      exact rejected_raw ty.align_pow (fun p _ => ptr_ne_none p) h
  | slice ty len yields => exact rejected_slice (placeElements_ret ty len yields) h
  | sliceCopy ty len => exact rejected_slice (placeElements_ret ty len len) h
  | str len => exact rejected_str hwords h
  | uninit ty => exact Bool.noConfusion (show true = false from hr)
  | raw size align => exact rejected_allocRaw (fun p _ => ptr_ne_none p) h
  | zeroed size align => exact rejected_allocRaw (fun p _ => ptr_ne_none p) h
  | cacheAligned size =>
    have hrejected : Rejected A (Kind.raw size cacheLineSize).demand
        (allocRawWith true sys A size cacheLineSize placeNothing).arena :=
      rejected_allocRaw (fun p _ => ptr_ne_none p) h
    have hdemand : (Kind.raw size cacheLineSize).demand = (Kind.cacheAligned size).demand := by
      have hpow : PowerOfTwo cacheLineSize := minBlockAlign_pow
      simp [Kind.demand, hpow]
    rw [hdemand] at hrejected
    exact hrejected

theorem rejected_guarded (hwords : Words A) (t : Transaction) {r : Request} (hr : r.Typed)
    (hf : r.fallible = true) (h : (t.serve sys A r).ret = .none) :
    Rejected A (if offered r ∧ t.budgetOk A (payload r.kind) then r.kind.demand else none)
      (t.serve sys A r).arena := by
  rcases txn_serve t sys A r with ⟨hyes,heq⟩ | ⟨hno,ret,-,lost,heq⟩
  · rw [heq] at h ⊢
    rw [if_pos hyes]
    exact rejected_request hwords hr hf h
  · rw [heq]
    exact Or.inl ⟨if_neg hno,rfl⟩

theorem allocRaw_none {filled : ℕ → Arena → Outcome}
    (h : (allocRawWith true sys A size align filled).ret = .none) :
    (Kind.raw size align).demand = some (size,align) := by
  rw [allocRawWith_eq] at h
  by_cases hyes : PowerOfTwo align ∧ size ≠ 0
  · exact if_pos hyes
  · rw [if_neg hyes] at h
    change (if PowerOfTwo align then Ret.ptr 1 else .panic alignPanic) = .none at h
    split at h <;> cases h

def Reports (res : VecRes) : Prop := res = .returned ∨ ∃ e, res = .err e

theorem reports_ok : ¬ Reports .ok := by
  rintro (hok | ⟨e,hok⟩) <;> cases hok

theorem reports_panic (message : String) : ¬ Reports (.panic message) := by
  rintro (hpanic | ⟨e,hpanic⟩) <;> cases hpanic

section vectors
variable {ty : Ty} {v : ArenaVec}

theorem rejected_growWith (hsize : ty.size ≠ 0) {n : ℕ}
    (h : Reports (growWith true sys A ty v n).res) :
    Rejected A ((checkedMul n ty.size).map (·,ty.align))
      (growWith true sys A ty v n).call.arena := by
  unfold growWith at h ⊢
  rw [if_neg hsize] at h ⊢
  cases hend : extendedEnd A ty v n with
  | some newEnd =>
    rw [hend] at h
    exact absurd h reports_ok
  | none =>
    rw [hend] at h
    dsimp only at h ⊢
    cases hbytes : checkedMul n ty.size with
    | none => exact Or.inl ⟨rfl,rfl⟩
    | some bytes =>
      rw [hbytes] at h
      dsimp only at h ⊢
      rw [if_pos rfl] at h ⊢
      cases hret : (tryAllocRaw sys A bytes ty.align).ret with
      | ptr p =>
        rw [hret] at h
        exact absurd h reports_ok
      | none =>
        have hrejected : Rejected A (Kind.raw bytes ty.align).demand
            (tryAllocRaw sys A bytes ty.align).arena := rejected_allocRaw nofun hret
        rw [allocRaw_none hret] at hrejected
        exact hrejected
      | panic message =>
        rw [hret] at h
        exact absurd h (reports_panic message)

theorem rejected_phase {sat : Bool} {room : ℕ} {g : VecOutcome}
    (hphase : Phase sys A ty v true sat room g) (h : Reports g.res) :
    Rejected A (if ty.size = 0 then none
      else (goal v sat room).bind fun n => (checkedMul n ty.size).map (·,ty.align))
        g.call.arena := by
  rcases hphase with ⟨n,hn,rfl⟩ | ⟨hnone,⟨-,rfl⟩ | ⟨-,rfl⟩⟩
  · by_cases hsize : ty.size = 0
    · unfold growWith at h
      rw [if_pos hsize] at h
      exact absurd h reports_ok
    · rw [if_neg hsize, hn, Option.bind_some]
      exact rejected_growWith hsize h
  · exact absurd h reports_ok
  · rw [hnone, Option.bind_none, ite_self]
    exact Or.inl ⟨rfl,rfl⟩

theorem writing_res (g : VecOutcome) (newLen : ℕ) : (writing g newLen none).res = g.res := by
  unfold writing
  split <;> rfl

theorem rejected_tryPush (h : Reports (tryPush sys A ty v).res) :
    Rejected A ((Attempt.vec ty v .tryPush).demand A) (tryPush sys A ty v).call.arena := by
  by_cases hfull : v.len = v.cap
  · have hphase : Phase sys A ty v true false (asked v .tryPush) (tryGrow sys A ty v) := by
      rw [asked, if_pos hfull]
      exact growOnce_phase true
    have hgrow : (tryPush sys A ty v).call = (tryGrow sys A ty v).call ∧
        Reports (tryGrow sys A ty v).res := by
      unfold tryPush at h ⊢
      rw [if_pos hfull] at h ⊢
      dsimp only at h ⊢
      split at h
      · next e hres => exact ⟨rfl,by rw [hres]; exact Or.inr ⟨e,rfl⟩⟩
      · rw [writing_res] at h
        exact ⟨writing_call _ _ _,h⟩
    rw [hgrow.1]
    exact rejected_phase hphase hgrow.2
  · unfold tryPush at h
    rw [if_neg hfull] at h
    exact absurd h reports_ok

theorem rejected_tryReserve {n : ℕ} (h : Reports (tryReserve sys A ty v n).res) :
    Rejected A ((Attempt.vec ty v (.tryReserve n)).demand A)
      (tryReserve sys A ty v n).call.arena := by
  by_cases hgrow : min (v.len+n) (2^64-1) > v.cap
  · have hphase : Phase sys A ty v true true (v.len+n) (tryReserve sys A ty v n) :=
      Or.inl ⟨_,if_pos ⟨Or.inr rfl,hgrow⟩,if_pos hgrow⟩
    exact rejected_phase hphase h
  · have henough : tryReserve sys A ty v n = enough v A := if_neg hgrow
    rw [henough] at h
    exact absurd h reports_ok

theorem rejected_vec {op : VecOp} (hf : op.fallible = true)
    (h : Reports (op.apply sys A ty v).res) :
    Rejected A ((Attempt.vec ty v op).demand A) (op.apply sys A ty v).call.arena := by
  cases op with
  | tryPush => exact rejected_tryPush h
  | tryReserve n => exact rejected_tryReserve h
  | tryReserveExact n => exact rejected_phase (reserveExact_phase true n) h
  | push => cases hf
  | reserve n => cases hf
  | reserveExact n => cases hf
  | extendExact n yields => cases hf
  | extendFromSlice n => cases hf
  | resize n unwinds => cases hf
  | truncate n => cases hf
  | pop => cases hf
  | clear => cases hf

end vectors

theorem attempt_rejected (hwords : Words A) {a : Attempt} (ha : a.Typed) (hf : a.Failed sys A) :
    Rejected A (a.demand A) (a.after sys A) := by
  cases a with
  | request r => exact rejected_request hwords ha hf.1 hf.2
  | guarded t r => exact rejected_guarded hwords t ha hf.1 hf.2
  | vec ty v op => exact rejected_vec hf.1 hf.2

/-- A failed call goes unobserved if and only if it was harmless. -/
theorem unobserved_iff (hwords : Words A) {a : Attempt} (ha : a.Typed) (hf : a.Failed sys A) :
    Unobserved A (a.after sys A) ↔ a.Harmless A := by
  rcases attempt_rejected hwords ha hf with
    ⟨hnone,heq⟩ | ⟨size,align,hd,hpow,⟨hover,heq⟩ | ⟨hover,haborted⟩⟩
  · rw [heq]
    exact iff_of_true (unobserved_refl A) (fun size align hd => nomatch hnone.symm.trans hd)
  · rw [heq]
    refine iff_of_true (unobserved_refl A) (fun size' align' hd' => Or.inl ?_)
    obtain ⟨rfl,rfl⟩ := Prod.mk.inj (Option.some.inj (hd.symm.trans hd'))
    exact hover
  · rw [aborted_iff hwords hpow haborted]
    constructor
    · exact fun hfresh _ _ _ => Or.inr hfresh
    · exact fun hharmless => (hharmless size align hd).resolve_left hover

end attempts

theorem unobserved_iff_large : ∃ A, smallArena true (2^24) = some A ∧
    Unobserved A ((Attempt.request ⟨.raw (2^24+1) 1,true⟩).after noMemory A) := by
  obtain ⟨A,hA⟩ : ∃ A, smallArena true (2^24) = some A := ⟨_,rfl⟩
  have hwords : Words A := words_reached (reached_small (by norm_num) hA [] trivial)
  have hfailed : (Attempt.request ⟨.raw (2^24+1) 1,true⟩).Failed noMemory A := by
    cases hA
    exact ⟨rfl,by decide +kernel⟩
  have htyped : (Attempt.request ⟨.raw (2^24+1) 1,true⟩).Typed := show 2^24+1 < 2^64 by norm_num
  refine ⟨A,hA,(unobserved_iff hwords htyped hfailed).mpr (fun size align _ => Or.inr ?_)⟩
  cases hA
  decide +kernel

/-- A small arena with eight bytes in use refuses a larger request, and counts them twice. -/
theorem failure_observed : ∃ w, Reached Honest w ∧
    (Attempt.request ⟨.raw 100 1,true⟩).Failed noMemory w.arena ∧
      w.arena.stats.bytesAllocated = 8 ∧
        ((Attempt.request ⟨.raw 100 1,true⟩).after noMemory w.arena).stats.bytesAllocated = 16 ∧
          ¬ Unobserved w.arena ((Attempt.request ⟨.raw 100 1,true⟩).after noMemory w.arena) := by
  obtain ⟨A,hA⟩ : ∃ A, smallArena true 64 = some A := ⟨_,rfl⟩
  have height : (8 : ℕ) < 2^64 := by norm_num
  have hreached : Reached Honest (LabelledRun.run World.step (World.start A)
      [.request noMemory ⟨.raw 8 8,false⟩]) :=
    reached_small (by norm_num) hA _ ⟨⟨grants_noMemory _,height⟩,trivial⟩
  have hbefore : (LabelledRun.run World.step (World.start A)
      [.request noMemory ⟨.raw 8 8,false⟩]).arena.stats.bytesAllocated = 8 := by
    cases hA
    decide +kernel
  have hafter : ((Attempt.request ⟨.raw 100 1,true⟩).after noMemory (LabelledRun.run World.step
      (World.start A) [.request noMemory ⟨.raw 8 8,false⟩]).arena).stats.bytesAllocated = 16 := by
    cases hA
    decide +kernel
  refine ⟨_,hreached,⟨rfl,?_⟩,hbefore,hafter,fun hun => ?_⟩
  · cases hA
    decide +kernel
  · have hsame := congrArg ArenaStats.bytesAllocated hun.stats
    rw [hbefore, hafter] at hsame
    cases hsame

end FastArena.FailureAtomicity
