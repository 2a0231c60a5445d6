import FastArena.ArenaWorld

/-!
# The byte limit of a transaction

A guard checks its limit against the payload alone. What a served call adds to
the count is the payload and its padding in the current block, and twice the
payload in any other. The limit holds after a call exactly when it has room for
what the call adds.
-/

set_option autoImplicit false

namespace FastArena.Budget
open FastArena.MachineWord FastArena.ByteSpan FastArena.ArenaBlock FastArena.InlineStorage
  FastArena.DropTracking FastArena.ArenaCore FastArena.ArenaInvariant FastArena.RawRequest
  FastArena.ArenaRequests FastArena.ArenaTransaction FastArena.LabelledRun FastArena.ArenaWorld

def charge (fallible : Bool) (sys : SystemAlloc) (A : Arena) (size align : ℕ) : Option ℕ :=
  if Fits A size align then some (alignUp A.curPtr align + size - A.curPtr)
  else if Refused sys A size align ∨ fallible = true ∧ Overflows A size align then none
  else some (2*size)

theorem charge_rawEnd {A A' : Arena} (h : Wf A) {fallible : Bool} {sys : SystemAlloc}
    {size align p : ℕ} (hpow : PowerOfTwo align)
    (hend : RawEnd fallible sys A size align (.ptr p) A') :
    ∃ k ≤ 2^64, charge fallible sys A size align = some k ∧
      A'.stats.bytesAllocated = wadd A.stats.bytesAllocated k := by
  cases hend with
  | bumped hb =>
    obtain ⟨hfits,rfl,rfl⟩ := hb
    obtain ⟨hge,-,-⟩ := alignUp_curPtr (anchored h) hpow
    have htop : A.curEnd ≤ 2^63 := curEnd_le h
    have hbase := h.base_le
    have hroom := hfits.2
    have hoff := curOffset_eq h
    have hoff' := curOffset_eq (wf_bump h (q := alignUp A.curPtr align + size)
      (h.base_le.trans (by omega)) hroom)
    refine ⟨_,?_,if_pos hfits,?_⟩
    · omega
    · change wadd A.bytesAllocated (Arena.curOffset { A with curPtr := alignUp A.curPtr align + size })
        = wadd (wadd A.bytesAllocated A.curOffset) _
      rw [hoff', hoff]
      dsimp only
      unfold wadd
      omega
  | moved hfits hroom hslow hm =>
    have htop : A'.curEnd ≤ 2^63 := curEnd_le hm.wf
    have hptr := hm.wf.ptr_le
    rw [hm.end_eq] at hptr
    have hoff := curOffset_eq hm.wf
    rw [hm.end_eq, hm.ptr_eq, Nat.add_sub_cancel_left] at hoff
    have hserved : ¬ (Refused sys A size align ∨ fallible = true ∧ Overflows A size align) :=
      fun hh => hh.elim hroom hslow
    refine ⟨2*size,?_,?_,?_⟩
    · omega
    · rw [charge, if_neg hfits, if_neg hserved]
    · change wadd A'.bytesAllocated A'.curOffset = wadd (wadd A.bytesAllocated A.curOffset) _
      rw [hoff, hm.bytes]
      unfold wadd
      omega
  | stalled _ _ _ _ hret =>
    rcases hret with ⟨hret,-⟩ | ⟨_,hret⟩ <;> cases hret

/-- The limit has room for what the call adds, or the count wraps around past it. -/
def Affordable (t : Transaction) (limit : ℕ) (A : Arena) (k : ℕ) : Prop :=
  A.stats.bytesAllocated + k ≤ t.bytesAtOpen + limit ∨ 2^64 ≤ A.stats.bytesAllocated + k

theorem bytesUsed_le {t : Transaction} {limit payload : ℕ} {A : Arena}
    (hlimit : t.limit = some limit) (hok : t.budgetOk A payload = true) :
    t.bytesUsed A ≤ limit := by
  have hused : t.bytesUsed A = A.stats.bytesAllocated - t.bytesAtOpen := rfl
  have hlt : A.stats.bytesAllocated < 2^64 := wadd_lt _ _
  rw [Transaction.budgetOk, hlimit] at hok
  have hcheck : saturatingAdd (t.bytesUsed A) payload ≤ limit := of_decide_eq_true hok
  rw [hused] at hcheck ⊢
  unfold saturatingAdd at hcheck
  omega

/-- For a call that passed the check, the limit holds afterwards if and only if it was
affordable. -/
theorem affordable_iff {t : Transaction} {limit payload k : ℕ} {A A' : Arena}
    (hlimit : t.limit = some limit) (hok : t.budgetOk A payload = true) (hk : k ≤ 2^64)
    (hcount : A'.stats.bytesAllocated = wadd A.stats.bytesAllocated k) :
    t.bytesUsed A' ≤ limit ↔ Affordable t limit A k := by
  have hlt : A.stats.bytesAllocated < 2^64 := wadd_lt _ _
  have hused : ∀ B : Arena, t.bytesUsed B = B.stats.bytesAllocated - t.bytesAtOpen := fun _ => rfl
  have hle := bytesUsed_le hlimit hok
  rw [hused, hcount]
  rw [hused] at hle
  unfold Affordable wadd
  omega

/-- After a call of the guard's own methods that succeeds, the limit holds. -/
def Capped (t : Transaction) (limit : ℕ) (w : World) (op : Op) : Prop :=
  ∀ sys r p, op = .guarded sys r → (t.serve sys w.arena r).ret = .ptr p →
    t.bytesUsed (w.step op).arena ≤ limit

/-- A call that passes the check and succeeds adds no more than the limit has room for. -/
def Afforded (t : Transaction) (limit : ℕ) (w : World) (op : Op) : Prop :=
  ∀ sys r size align k, op = .guarded sys r → offered r = true →
    t.budgetOk w.arena (payload r.kind) = true → r.kind.Complete →
    r.kind.demand = some (size,align) → charge r.fallible sys w.arena size align = some k →
      Affordable t limit w.arena k

theorem step_guarded {w : World} {f : Open} {rest : List Open} (hopened : w.opened = f::rest)
    (sys : SystemAlloc) (r : Request) :
    w.step (.guarded sys r) = w.take (f.txn.serve sys w.arena r) := by
  simp only [World.step, hopened]

theorem charge_served {A : Arena} (h : Wf A) {sys : SystemAlloc} {r : Request} {o : Outcome}
    (ho : Served sys A r o) {size align p : ℕ} (hd : r.kind.demand = some (size,align))
    (hret : o.ret = .ptr p) : r.kind.Complete ∧ ∃ k ≤ 2^64,
      charge r.fallible sys A size align = some k ∧
        o.arena.stats.bytesAllocated = wadd A.stats.bytesAllocated k := by
  cases ho with
  | carved hd' hpow hend _ _ hfills =>
    obtain ⟨rfl,rfl⟩ := demand_unique hd hd'
    obtain ⟨k,hk,hcharge,hcount⟩ := charge_rawEnd h hpow hend
    have hreply := hfills.ret_eq.symm.trans hret
    obtain ⟨registry,harena,-,-⟩ := hfills.arena_eq
    refine ⟨?_,k,hk,hcharge,by rw [harena]; exact hcount⟩
    by_contra hshort
    rw [Kind.reply, if_neg hshort] at hreply
    cases hreply
  | failed _ _ _ hno _ => exact absurd hret (hno p)
  | answered hnone => exact nomatch hd.symm.trans hnone

theorem answered_arena {A : Arena} {sys : SystemAlloc} {r : Request} {o : Outcome}
    (ho : Served sys A r o) (hd : r.kind.demand = none) : o.arena = A := by
  cases ho with
  | carved hd' _ _ _ _ _ => exact nomatch hd.symm.trans hd'
  | failed hd' _ _ _ _ => exact nomatch hd.symm.trans hd'
  | answered _ => rfl

theorem served_charge {A : Arena} (h : Wf A) {sys : SystemAlloc} {r : Request} {o : Outcome}
    (ho : Served sys A r o) {size align k : ℕ} (hd : r.kind.demand = some (size,align))
    (hcomplete : r.kind.Complete) (hcharge : charge r.fallible sys A size align = some k) :
    ∃ p, o.ret = .ptr p := by
  cases ho with
  | carved _ _ _ _ _ hfills => exact ⟨_,hfills.ret_eq.trans (if_pos hcomplete)⟩
  | failed hd' _ hend hno _ =>
    obtain ⟨rfl,rfl⟩ := demand_unique hd hd'
    cases hend with
    | bumped _ => exact absurd rfl (hno _)
    | moved _ _ _ _ => exact absurd rfl (hno _)
    | stalled hfits hrefused _ _ _ =>
      rw [charge, if_neg hfits, if_pos (Or.inl hrefused)] at hcharge
      cases hcharge
    | rejected hfallible hover =>
      rw [charge, if_neg (not_fits_of_overflows h hover), if_pos (Or.inr ⟨hfallible,hover⟩)]
        at hcharge
      cases hcharge
  | answered hnone => exact nomatch hd.symm.trans hnone

theorem afforded_of {t : Transaction} {limit : ℕ} {w : World} {sys : SystemAlloc} {r : Request}
    {size align k : ℕ} (hd : r.kind.demand = some (size,align))
    (hcharge : charge r.fallible sys w.arena size align = some k)
    (h : Affordable t limit w.arena k) : Afforded t limit w (.guarded sys r) := by
  intro sys' r' size' align' k' heq _ _ _ hd' hcharge'
  cases heq
  cases hd.symm.trans hd'
  cases hcharge.symm.trans hcharge'
  exact h

theorem capped_iff {w : World} (h : Inv w) {f : Open} {rest : List Open} {limit : ℕ}
    (hopened : w.opened = f::rest) (hlimit : f.txn.limit = some limit) {op : Op}
    (hop : Honest w op) : Capped f.txn limit w op ↔ Afforded f.txn limit w op := by
  constructor
  · rintro hcapped sys r size align k rfl hoffered hok hcomplete hd hcharge
    rcases txn_serve f.txn sys w.arena r with ⟨-,heq⟩ | ⟨hstop,-⟩
    · have hserved := serve_served h.wf hop.1 hop.2
      obtain ⟨p,hret⟩ := served_charge h.wf hserved hd hcomplete hcharge
      obtain ⟨-,k',hk,hcharge',hcount⟩ := charge_served h.wf hserved hd hret
      cases hcharge.symm.trans hcharge'
      apply (affordable_iff hlimit hok hk hcount).mp
      have hle := hcapped sys r p rfl (by rw [heq]; exact hret)
      rw [step_guarded hopened, heq] at hle
      exact hle
    · exact absurd ⟨hoffered,hok⟩ hstop
  · rintro hafforded sys r p rfl hret
    rw [step_guarded hopened]
    rcases txn_serve f.txn sys w.arena r with ⟨⟨hoffered,hok⟩,heq⟩ | ⟨-,ret,hno,lost,heq⟩
    · rw [heq] at hret ⊢
      have hserved := serve_served h.wf hop.1 hop.2
      cases hd : r.kind.demand with
      | none =>
        change f.txn.bytesUsed (r.serve sys w.arena).arena ≤ limit
        rw [answered_arena hserved hd]
        exact bytesUsed_le hlimit hok
      | some demand =>
        obtain ⟨size,align⟩ := demand
        obtain ⟨hcomplete,k,hk,hcharge,hcount⟩ := charge_served h.wf hserved hd hret
        exact (affordable_iff hlimit hok hk hcount).mpr
          (hafforded sys r size align k rfl hoffered hok hcomplete hd hcharge)
    · rw [heq] at hret
      exact absurd hret (hno p)

def Own (w : World) (op : Op) : Prop := Honest w op ∧ ∃ sys r, op = .guarded sys r

/-- Over any calls of a guard's own methods, from any state, the limit holds after each that
succeeds if and only if each was affordable. -/
theorem budget_capped_iff {w : World} (h : Reached Honest w) {f : Open} {rest : List Open}
    {limit : ℕ} (hopened : w.opened = f::rest) (hlimit : f.txn.limit = some limit)
    (calls : List Op) (hcalls : Along World.step Own w calls) :
    Along World.step (Capped f.txn limit) w calls ↔
      Along World.step (Afforded f.txn limit) w calls := by
  have hinv := inv_reached (fun _ _ hop => hop) h
  apply along_congr World.step Own (fun w => Inv w ∧ w.opened = f::rest) _ _ w calls
    ⟨hinv,hopened⟩ hcalls
  · rintro w op ⟨hw,hopen⟩ ⟨hhonest,sys,r,rfl⟩
    refine ⟨inv_step hw hhonest,?_⟩
    rw [step_guarded hopen]
    exact hopen
  · rintro w op ⟨hw,hopen⟩ ⟨hhonest,-⟩
    exact capped_iff hw hopen hlimit hhonest

def limited (A : Arena) (limit : ℕ) : World :=
  run World.step (World.start A) [.begin,.setLimit limit]

theorem limited_opened (A : Arena) (limit : ℕ) :
    (limited A limit).opened = [⟨{ (Transaction.new A).1 with limit := some limit },1,A⟩] := rfl

def paddedCalls : List Op :=
  [.guarded noMemory ⟨.raw 1 1,false⟩,.guarded noMemory ⟨.raw 8 8,false⟩]

theorem own_paddedCalls (w : World) : Along World.step Own w paddedCalls :=
  have hone : (1 : ℕ) < 2^64 := by norm_num
  have height : (8 : ℕ) < 2^64 := by norm_num
  ⟨⟨⟨grants_noMemory _,hone⟩,_,_,rfl⟩,⟨⟨grants_noMemory _,height⟩,_,_,rfl⟩,trivial⟩

theorem budget_capped_iff_paddedCalls : ∃ A, smallArena true 64 = some A ∧
    ∃ t, Along World.step (Capped t 16) (limited A 16) paddedCalls ∧
      t.bytesUsed (run World.step (limited A 16) paddedCalls).arena = 16 := by
  obtain ⟨A,hA⟩ : ∃ A, smallArena true 64 = some A := ⟨_,rfl⟩
  have hreached : Reached Honest (limited A 16) :=
    reached_small (by norm_num) hA _ ⟨trivial,trivial,trivial⟩
  refine ⟨A,hA,_,(budget_capped_iff hreached (limited_opened A 16) rfl _
    (own_paddedCalls _)).mpr ?_,?_⟩
  · refine ⟨afforded_of (k := 1) rfl ?_ (Or.inl ?_),afforded_of (k := 15) rfl ?_ (Or.inl ?_),trivial⟩
    all_goals
      cases hA
      decide +kernel
  · cases hA
    decide +kernel

/-- The padding is not checked, and a limit of ten is exceeded. -/
theorem limit_exceeded : ∃ w f, Reached Honest w ∧ w.opened = [f] ∧ f.txn.limit = some 10 ∧
    f.txn.bytesUsed w.arena = 0 ∧ Along World.step Own w paddedCalls ∧
      ¬ Along World.step (Capped f.txn 10) w paddedCalls := by
  obtain ⟨A,hA⟩ : ∃ A, smallArena true 64 = some A := ⟨_,rfl⟩
  have hreached : Reached Honest (limited A 10) :=
    reached_small (by norm_num) hA _ ⟨trivial,trivial,trivial⟩
  refine ⟨_,_,hreached,limited_opened A 10,rfl,?_,own_paddedCalls _,?_⟩
  · cases hA
    decide +kernel
  · rintro ⟨-,hcapped,-⟩
    have hle := hcapped _ _ 4104 rfl (by cases hA; decide +kernel)
    revert hle
    cases hA
    decide +kernel

end FastArena.Budget
