import FastArena.Accounting
import FastArena.SystemCalls

/-!
# How full the blocks are

Without rewinds the arena fills its blocks as next fit fills bins: a block is
left only for a request that does not fit in it, and that request opens the
next. So two neighbouring blocks hold more than the first has room for, up to
the padding, and the blocks left behind are on the whole at least half used.
-/

set_option autoImplicit false

namespace FastArena.NextFit
open FastArena.MachineWord FastArena.ByteSpan FastArena.ArenaBlock FastArena.InlineStorage
  FastArena.ArenaCore FastArena.ArenaInvariant FastArena.RawRequest FastArena.ArenaRequests
  FastArena.ArenaTransaction FastArena.LabelledRun FastArena.ArenaWorld FastArena.ArenaSteps
  FastArena.Accounting FastArena.SystemHeap FastArena.SystemCalls

def Small (r : Request) : Prop :=
  ∀ size align, r.kind.demand = some (size,align) → align ≤ minBlockAlign

def Growing : Op → Prop
  | .request _ r => Small r
  | .guarded _ r => Small r
  | .rewind _ _ => False
  | .reset _ => False
  | .rollback _ => False
  | _ => True

def behind (A : Arena) : ℕ := ∑ i ∈ Finset.range A.current, (A.blocks.get i).capacity

structure Packed (A : Arena) : Prop where
  last : A.blocks.len = A.current+1
  filled : behind A ≤ 2 * spent A.blocks A.current + A.curOffset + 62 * A.current

section arenas
variable {A A' : Arena} {sys : SystemAlloc} {size align p : ℕ}

theorem behind_grown (h : Wf A) (hgrown : Grown A.blocks A'.blocks)
    (hcur : A'.current = A.current) : behind A' = behind A := by
  unfold behind
  rw [hcur]
  apply Finset.sum_congr rfl
  intro i hi
  have hlt := current_lt h
  exact (extent_inj (hgrown.extent_eq i (lt_trans (Finset.mem_range.mp hi) hlt))).2

theorem packed_bumped (h : Wf A) (hpow : PowerOfTwo align) (hp : Packed A)
    (hb : Bumped A size align p A') : Packed A' := by
  have hwf := (carved_bumped h hpow hb).wf
  obtain ⟨hfits,rfl,rfl⟩ := hb
  have hoff := curOffset_eq h
  have hoff' := curOffset_eq hwf
  obtain ⟨hle,-,-⟩ := alignUp_spec A.curPtr hpow (by
    have htop : A.curEnd ≤ 2^63 := curEnd_le h
    have hptr := h.ptr_le
    have halign : align ≤ 64 := hfits.1
    omega)
  have hfilled := hp.filled
  refine ⟨hp.last,?_⟩
  change behind A ≤ 2 * spent A.blocks A.current + Arena.curOffset _ + 62 * A.current
  dsimp only at hoff'
  omega

theorem packed_unmoved (h : Wf A) (hp : Packed A) (hu : Unmoved A A')
    (hlen : A'.blocks.len = A.blocks.len) : Packed A' := by
  have hspent : spent A'.blocks A.current = spent A.blocks A.current :=
    spent_congr (fun i hi => congrArg Block.offset (hu.kept i hi))
  have hoff : A'.curOffset = A.curOffset := by
    rw [Arena.curOffset, Arena.curOffset, hu.ptr_eq, hu.base_eq]
  refine ⟨by rw [hlen, hu.current_eq]; exact hp.last,?_⟩
  rw [behind_grown h hu.grown hu.current_eq, hu.current_eq, hspent, hoff]
  exact hp.filled

/-- The request that leaves a block behind would have overfilled it. -/
theorem packed_moved (h : Wf A) (hpow : PowerOfTwo align) (hp : Packed A)
    (halign : align ≤ minBlockAlign) (hfits : ¬ Fits A size align) (hm : Moved A size align p A')
    (hlen : A'.blocks.len ≤ A.blocks.len+1) : Packed A' := by
  have hlast := hp.last
  have hlater := hm.later
  have hlt := current_lt hm.wf
  have hcur : A'.current = A.current+1 := by omega
  have hgrown : ∀ i < A.blocks.len, (A'.blocks.get i).capacity = (A.blocks.get i).capacity :=
    fun i hi => (extent_inj (hm.grown.extent_eq i hi)).2
  have hbehind : behind A' = behind A + (A.blocks.get A.current).capacity := by
    unfold behind
    rw [hcur, Finset.sum_range_succ, hgrown _ (by omega)]
    congr 1
    exact Finset.sum_congr rfl (fun i hi => hgrown i (by have := Finset.mem_range.mp hi; omega))
  have hoff' : A'.curOffset = size := by
    rw [curOffset_eq hm.wf, hm.end_eq, hm.ptr_eq]
    omega
  -- the room left was less than the request and its padding
  have hroom : (A.blocks.get A.current).capacity ≤ A.curOffset + size + 62 := by
    have htop : A.curEnd ≤ 2^63 := curEnd_le h
    have hptr := h.ptr_le
    have hbase := h.base_le
    have hend := h.end_eq
    have hoff := curOffset_eq h
    have hmin : minBlockAlign = 64 := rfl
    obtain ⟨-,hup,-⟩ := alignUp_spec A.curPtr hpow (by omega)
    have hover : A.curEnd < alignUp A.curPtr align + size := by
      by_contra hno
      exact hfits ⟨halign,by omega⟩
    omega
  have hspent := spent_moved hm
  have hused : used A = spent A.blocks A.current + A.curOffset := rfl
  have hfilled := hp.filled
  refine ⟨by omega,?_⟩
  rw [hbehind, hspent, hoff', hcur]
  omega

theorem packed_served (h : Wf A) (hp : Packed A) {r : Request} {o : Outcome}
    (ho : Served sys A r o) (hsmall : Small r) (hlen : o.arena.blocks.len ≤ A.blocks.len+1) :
    Packed o.arena := by
  cases ho with
  | carved hd hpow hend hcarved hcarve hfills =>
    obtain ⟨registry,harena,-,-⟩ := hfills.arena_eq
    rw [harena] at hlen ⊢
    have halign := hsmall _ _ hd
    cases hend with
    | bumped hb =>
      have hpacked := packed_bumped h hpow hp hb
      exact ⟨hpacked.last,hpacked.filled⟩
    | moved hfits _ _ hm =>
      have hpacked := packed_moved h hpow hp halign hfits hm hlen
      exact ⟨hpacked.last,hpacked.filled⟩
    | stalled _ _ _ _ hret => rcases hret with ⟨hret,-⟩ | ⟨message,hret⟩ <;> cases hret
  | failed hd hpow hend hret hunmoved =>
    cases hend with
    | bumped _ => exact absurd rfl (hret _)
    | moved _ _ _ _ => exact absurd rfl (hret _)
    | stalled _ _ _ hstalled _ =>
      obtain ⟨n,-,-,rfl⟩ := hstalled
      exact packed_unmoved h hp hunmoved (finishSlowPath_len A)
    | rejected _ _ => exact hp
  | answered hd => exact hp

end arenas

/-- A call adds at most one block. -/
theorem len_step {w : World} (h : Inv w) {op : Op} (hop : Honest w op) :
    (w.step op).arena.blocks.len ≤ w.arena.blocks.len+1 := by
  obtain ⟨⟨new,hnew,-⟩,-⟩ := accounts_step h hop
  rw [← chunks_length, ← chunks_length, hnew, List.length_append]
  cases new with
  | none => exact Nat.le_succ _
  | some c => exact le_refl _

theorem packed_step {w : World} (h : Inv w) (hp : Packed w.arena) {op : Op}
    (hop : Honest w op ∧ Growing op) : Packed (w.step op).arena := by
  obtain ⟨hhonest,hgrowing⟩ := hop
  have hlen := len_step h hhonest
  have hstep := stepped h hhonest
  generalize w.step op = w' at hlen hstep
  cases hstep with
  | @served sys r o hop ho hserved =>
    have hsmall : Small r := by
      rcases hop with rfl | ⟨rfl,-⟩ <;> exact hgrowing
    exact packed_served h.wf hp hserved hsmall hlen
  | declined _ => exact hp
  | ticked _ => exact ⟨hp.last,hp.filled⟩
  | noted _ => exact ⟨hp.last,hp.filled⟩
  | rewound _ _ hboom _ => rcases hboom with rfl | rfl <;> exact hgrowing.elim
  | reset hboom =>
    subst hboom
    exact hgrowing.elim

theorem packed_withCapacity {sys : SystemAlloc} {feature : Bool} {initialBytes : ℕ} {A : Arena}
    (hA : Arena.withCapacity sys feature initialBytes = some A) : Packed A := by
  obtain ⟨b,-,rfl⟩ := Option.map_eq_some_iff.mp hA
  exact ⟨rfl,Nat.zero_le _⟩

/-- In a run that takes nothing back and asks for alignments of up to 64 bytes, the blocks left
behind are at least half used, but for 62 bytes of padding each: what is reserved is at most twice
what is consumed, that padding, and the current block. A block lost with the buffer the block list
was refused, which `stats` would count too, is not part of these runs. -/
theorem half_used {w : World} (h : Reached (fun w op => Honest w op ∧ Growing op) w) :
    w.arena.stats.blockCount = w.arena.current+1 ∧
      w.arena.stats.bytesReserved ≤ 2 * used w.arena + 62 * w.arena.current +
        (w.arena.blocks.get w.arena.current).capacity := by
  have hinv := inv_reached (fun _ _ hop => hop.1) h
  have hpacked : Packed w.arena := by
    obtain ⟨sys,feature,initialBytes,A,ops,hs,hA,halong,rfl⟩ := h
    obtain ⟨hwf,-,-,-,-,hregistry⟩ := wf_withCapacity hs hA
    have hstart : Inv (World.start A) :=
      inv_start hwf (by rw [hregistry, DropTracking.DropRegistry.entries_new])
    exact (run_invariant World.step _ (fun w => Inv w ∧ Packed w.arena)
      (fun w op hw hop => ⟨inv_step hw.1 hop.1,packed_step hw.1 hw.2 hop⟩) _ ops
      ⟨hstart,packed_withCapacity hA⟩ halong).2
  have hfilled := hpacked.filled
  have htotal : totalCapacity w.arena.blocks =
      behind w.arena + (w.arena.blocks.get w.arena.current).capacity := by
    rw [totalCapacity, hpacked.last, Finset.sum_range_succ]
    rfl
  refine ⟨hpacked.last,?_⟩
  change w.arena.bytesReserved ≤ _
  rw [hinv.wf.reserved, htotal, used]
  omega

def leftBehind : List Op :=
  [.request noMemory ⟨.raw 40 8,false⟩,.request (oneBlock 128 8192) ⟨.str 100,true⟩]

theorem half_used_leftBehind : ∃ A, smallArena false 64 = some A ∧
    used (run World.step (World.start A) leftBehind).arena = 140 ∧
      (run World.step (World.start A) leftBehind).arena.stats.bytesReserved ≤
        2 * 140 + 62 * 1 + 128 := by
  obtain ⟨A,hA⟩ : ∃ A, smallArena false 64 = some A := ⟨_,rfl⟩
  have hraw : (40 : ℕ) < 2^64 := by norm_num
  have hstr : (100 : ℕ) < 2^63 := by norm_num
  have hsmall : Small ⟨.raw 40 8,false⟩ := by
    intro size align hd
    rw [Kind.demand] at hd
    obtain ⟨-,-,rfl⟩ := demand_if hd
    decide
  have hsmall' : Small ⟨.str 100,true⟩ := by
    intro size align hd
    rw [Kind.demand] at hd
    obtain ⟨-,-,rfl⟩ := demand_unless hd
    decide
  have hreached : Reached (fun w op => Honest w op ∧ Growing op)
      (run World.step (World.start A) leftBehind) := by
    apply reached_small (by norm_num) hA
    refine ⟨⟨⟨grants_noMemory _,hraw⟩,hsmall⟩,⟨⟨?_,hstr⟩,hsmall'⟩,trivial⟩
    cases hA
    exact grants_second ⟨128,rfl⟩ (by norm_num [addressTop]) (by decide +kernel)
      (by decide +kernel) (by norm_num)
  have hbound := (half_used hreached).2
  have hused : used (run World.step (World.start A) leftBehind).arena = 140 := by
    cases hA
    decide +kernel
  have hcurrent : (run World.step (World.start A) leftBehind).arena.current = 1 := by
    cases hA
    decide +kernel
  have hcapacity : ((run World.step (World.start A) leftBehind).arena.blocks.get 1).capacity =
      128 := by
    cases hA
    decide +kernel
  rw [hused, hcurrent, hcapacity] at hbound
  exact ⟨A,hA,hused,hbound⟩

end FastArena.NextFit
