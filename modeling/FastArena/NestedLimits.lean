import FastArena.Budget

/-!
# Limits and savepoints

A limit is a field of one guard, and a savepoint opens without one. What a
guard and the savepoints committed into it have requested stays within its
limit as long as every call through a savepoint would also pass the check of
each enclosing guard, which none of them makes.
-/

set_option autoImplicit false

namespace FastArena.NestedLimits
open FastArena.MachineWord FastArena.ArenaBlock FastArena.InlineStorage FastArena.DropTracking
  FastArena.ArenaCore FastArena.ArenaInvariant FastArena.RawRequest FastArena.ArenaSweep
  FastArena.ArenaRequests FastArena.ArenaTransaction FastArena.LabelledRun FastArena.ArenaWorld
  FastArena.Budget

theorem saturatingMul_eq {a b : ℕ} (h : a*b < 2^64) : saturatingMul a b = a*b := by
  unfold saturatingMul
  omega

theorem payload_slice {ty : Ty} {len size align : ℕ}
    (hd : sliceDemand ty len = some (size,align)) : saturatingMul ty.size len = size := by
  obtain ⟨-,rfl,-,hlt⟩ := sliceDemand_some hd
  rw [Nat.mul_comm] at hlt ⊢
  exact saturatingMul_eq hlt

theorem payload_demand {k : Kind} {size align : ℕ} (hd : k.demand = some (size,align)) :
    payload k = size := by
  cases k with
  | slice ty len yields => exact payload_slice hd
  | sliceCopy ty len => exact payload_slice hd
  | value _ | str _ | uninit _ =>
    exact (demand_unless hd).2.1
  | raw _ _ | zeroed _ _ | cacheAligned _ =>
    exact (demand_if hd).2.1

theorem slice_answered {fallible : Bool} {overflow : Ret} {sys : SystemAlloc} {A : Arena} {ty : Ty}
    {len p : ℕ} {filled : ℕ → Arena → Outcome} (hd : sliceDemand ty len = none)
    (hno : ∀ q, overflow ≠ .ptr q)
    (hret : (allocSliceWith fallible overflow sys A ty len filled).ret = .ptr p) :
    saturatingMul ty.size len = 0 := by
  by_cases hlen : len = 0
  · subst hlen
    exact saturatingMul_eq (by norm_num)
  · rw [sliceDemand, if_neg hlen, Option.map_eq_none_iff] at hd
    rw [allocSliceWith, if_neg hlen, hd] at hret
    exact absurd hret (hno p)

theorem raw_answered {fallible : Bool} {sys : SystemAlloc} {A : Arena} {size align p : ℕ}
    {filled : ℕ → Arena → Outcome} (hd : ¬ (PowerOfTwo align ∧ size ≠ 0))
    (hret : (allocRawWith fallible sys A size align filled).ret = .ptr p) : size = 0 := by
  by_contra hsize
  rw [allocRawWith, if_neg (fun hpow => hd ⟨hpow,hsize⟩)] at hret
  cases hret

theorem payload_answered {sys : SystemAlloc} {A : Arena} {r : Request} {p : ℕ}
    (hd : r.kind.demand = none) (hret : (r.serve sys A).ret = .ptr p) : payload r.kind = 0 := by
  obtain ⟨kind,fallible⟩ := r
  cases kind with
  | value _ | str _ | uninit _ => exact of_not_not (fun hne => nomatch (if_neg hne).symm.trans hd)
  | slice _ _ _ | sliceCopy _ _ =>
    cases fallible <;>
    · refine slice_answered hd ?_ hret
      nofun
  | raw size align =>
    have hno : ¬ (PowerOfTwo align ∧ size ≠ 0) := fun hyes => nomatch (if_pos hyes).symm.trans hd
    cases fallible <;> exact raw_answered hno hret
  | zeroed size align =>
    have hno : ¬ (PowerOfTwo align ∧ size ≠ 0) := fun hyes => nomatch (if_pos hyes).symm.trans hd
    by_contra hsize
    cases fallible with
    | false =>
      exact hsize (raw_answered hno ((congrArg Outcome.ret (if_neg hsize)).symm.trans hret))
    | true => exact hsize (raw_answered hno hret)
  | cacheAligned size => exact of_not_not (fun hne => nomatch (if_pos hne).symm.trans hd)

def added (fallible : Bool) (sys : SystemAlloc) (A : Arena) (size align : ℕ) : ℕ :=
  match charge fallible sys A size align with
  | some k => k
  | none => if fallible = true ∧ Overflows A size align then 0 else A.curOffset

theorem charge_le {fallible : Bool} {sys : SystemAlloc} {A : Arena} {size align k : ℕ} (h : Wf A)
    (hpow : PowerOfTwo align) (hcharge : charge fallible sys A size align = some k) : size ≤ k := by
  obtain ⟨hge,-,-⟩ := alignUp_curPtr (anchored h) hpow
  unfold charge at hcharge
  split at hcharge
  · cases hcharge
    omega
  · rw [Option.ite_none_left_eq_some, Option.some.injEq] at hcharge
    omega

theorem stats_stalled {A A' : Arena} (h : Stalled A A') :
    A'.stats.bytesAllocated = wadd A.stats.bytesAllocated A.curOffset := by
  obtain ⟨n,-,-,rfl⟩ := h
  rfl

theorem count_failed {A A' : Arena} (h : Wf A) {fallible : Bool} {sys : SystemAlloc}
    {size align : ℕ} {ret : Ret} (hend : RawEnd fallible sys A size align ret A')
    (hret : ∀ p, ret ≠ .ptr p) :
    A'.stats.bytesAllocated = wadd A.stats.bytesAllocated (added fallible sys A size align) := by
  cases hend with
  | bumped _ => exact absurd rfl (hret _)
  | moved _ _ _ _ => exact absurd rfl (hret _)
  | stalled hfits hrefused hslow hs _ =>
    have hnone : charge fallible sys A size align = none := by
      rw [charge, if_neg hfits, if_pos (Or.inl hrefused)]
    rw [added, hnone, stats_stalled hs]
    dsimp only
    rw [if_neg hslow]
  | rejected hfallible hover =>
    have hnone : charge fallible sys A size align = none := by
      rw [charge, if_neg (not_fits_of_overflows h hover), if_pos (Or.inr ⟨hfallible,hover⟩)]
    have hlt : A.stats.bytesAllocated < 2^64 := wadd_lt _ _
    rw [added, hnone]
    dsimp only
    rw [if_pos ⟨hfallible,hover⟩, wadd_eq (by omega)]
    rfl

/-- A call served or refused by the raw allocator adds to the count what it should, modulo the word
size, and no less than a successful call's payload. -/
theorem count_served {A : Arena} (h : Wf A) {sys : SystemAlloc} {r : Request} {o : Outcome}
    (ho : Served sys A r o) {size align : ℕ} (hd : r.kind.demand = some (size,align)) :
    o.arena.stats.bytesAllocated =
        wadd A.stats.bytesAllocated (added r.fallible sys A size align) ∧
      ∀ p, o.ret = .ptr p → payload r.kind ≤ added r.fallible sys A size align := by
  cases ho with
  | carved hd' hpow hend _ _ hfills =>
    obtain ⟨rfl,rfl⟩ := demand_unique hd hd'
    obtain ⟨k,-,hcharge,hcount⟩ := charge_rawEnd h hpow hend
    obtain ⟨registry,harena,-,-⟩ := hfills.arena_eq
    rw [added, hcharge, payload_demand hd, harena]
    exact ⟨hcount,fun _ _ => charge_le h hpow hcharge⟩
  | failed hd' _ hend hno _ =>
    obtain ⟨rfl,rfl⟩ := demand_unique hd hd'
    exact ⟨count_failed h hend hno,fun p hret => absurd hret (hno p)⟩
  | answered hnone => exact nomatch hd.symm.trans hnone

def paid (r : Request) (o : Outcome) : ℕ :=
  match o.ret with
  | .ptr _ => payload r.kind
  | _ => 0

theorem paid_of_not_ptr {r : Request} {o : Outcome} (h : ∀ p, o.ret ≠ .ptr p) : paid r o = 0 := by
  unfold paid
  split
  · exact absurd ‹_› (h _)
  · rfl

theorem paid_le {r : Request} {o : Outcome} {n : ℕ}
    (h : ∀ p, o.ret = .ptr p → payload r.kind ≤ n) : paid r o ≤ n := by
  unfold paid
  split
  · exact h _ ‹_›
  · exact Nat.zero_le n

theorem paid_le_payload (r : Request) (o : Outcome) : paid r o ≤ payload r.kind :=
  paid_le (fun _ _ => le_refl _)

def Counted (sys : SystemAlloc) (A : Arena) (r : Request) : Prop :=
  ∀ size align, r.kind.demand = some (size,align) →
    A.stats.bytesAllocated + added r.fallible sys A size align < 2^64

theorem count_paid {A : Arena} (h : Wf A) {sys : SystemAlloc} (hs : Grants sys A.blocks)
    {r : Request} (hr : r.Typed) (hcounted : Counted sys A r) :
    A.stats.bytesAllocated + paid r (r.serve sys A) ≤
        (r.serve sys A).arena.stats.bytesAllocated ∧
      (r.serve sys A).arena.stats.bytesAllocated < 2^64 := by
  have hserved := serve_served h hs hr
  refine ⟨?_,wadd_lt _ _⟩
  cases hd : r.kind.demand with
  | none =>
    rw [answered_arena hserved hd,
      Nat.eq_zero_of_le_zero (paid_le (fun p hret => le_of_eq (payload_answered hd hret)))]
    exact le_refl _
  | some demand =>
    obtain ⟨size,align⟩ := demand
    obtain ⟨hcount,hpaid⟩ := count_served h hserved hd
    have hle := paid_le hpaid
    rw [hcount, wadd_eq (hcounted size align hd)]
    omega

/-- A world, and for each open guard, innermost first, the payload of the calls that succeeded in
it and in the savepoints committed into it. -/
structure Tally where
  world : World
  spent : List ℕ

def credit (n : ℕ) : List ℕ → List ℕ
  | [] => []
  | m::rest => (m+n)::rest

namespace Tally

def start (A : Arena) : Tally := ⟨World.start A,[]⟩

def book (s : Tally) : Op → List ℕ
  | .guarded sys r =>
    match s.world.opened with
    | [] => s.spent
    | f::_ => credit (paid r (f.txn.serve sys s.world.arena r)) s.spent
  | .begin => 0::s.spent
  | .commit =>
    match s.spent with
    | [] => []
    | n::rest => credit n rest
  | .rollback _ => s.spent.tail
  | _ => s.spent

def step (s : Tally) (op : Op) : Tally := ⟨s.world.step op,s.book op⟩

def Reached (ok : Tally → Op → Prop) (s : Tally) : Prop :=
  ∃ sys feature initialBytes A ops, Grants sys (InlineVec.new : Blocks) ∧
    Arena.withCapacity sys feature initialBytes = some A ∧
    Along Tally.step ok (start A) ops ∧ s = run Tally.step (start A) ops

end Tally

/-- No guard, counting what the guards open below it have spent, is past its limit. -/
def Within : ℕ → List Open → List ℕ → Prop
  | below, f::fs, n::ns =>
    (∀ limit, f.txn.limit = some limit → below+n ≤ limit) ∧ Within (below+n) fs ns
  | _, [], [] => True
  | _, _, _ => False

def Backed : ℕ → List Open → List ℕ → Prop
  | count, f::fs, n::ns => f.txn.bytesAtOpen + n ≤ count ∧ Backed f.txn.bytesAtOpen fs ns
  | _, [], [] => True
  | _, _, _ => False

section nested
variable {f : Open} {opened : List Open} {spent : List ℕ} {below count n : ℕ}

theorem within_nil (h : Within below [] spent) : spent = [] := by
  cases spent with
  | nil => rfl
  | cons _ _ => exact h.elim

theorem within_cons (h : Within below (f::opened) spent) : ∃ m ms, spent = m::ms ∧
    (∀ limit, f.txn.limit = some limit → below+m ≤ limit) ∧ Within (below+m) opened ms := by
  cases spent with
  | nil => exact h.elim
  | cons m ms => exact ⟨m,ms,rfl,h⟩

theorem backed_nil (h : Backed count [] spent) : spent = [] := by
  cases spent with
  | nil => rfl
  | cons _ _ => exact h.elim

theorem backed_cons (h : Backed count (f::opened) spent) : ∃ m ms, spent = m::ms ∧
    f.txn.bytesAtOpen + m ≤ count ∧ Backed f.txn.bytesAtOpen opened ms := by
  cases spent with
  | nil => exact h.elim
  | cons m ms => exact ⟨m,ms,rfl,h⟩

theorem within_credit (h : Within (below+n) opened spent) :
    Within below opened (credit n spent) := by
  cases opened with
  | nil =>
    obtain rfl := within_nil h
    trivial
  | cons f fs =>
    obtain ⟨m,ms,rfl,hhead,htail⟩ := within_cons h
    have hsum : below + n + m = below + (m+n) := by omega
    rw [hsum] at hhead htail
    exact ⟨hhead,htail⟩

theorem within_mono {below' : ℕ} (hle : below' ≤ below) (h : Within below opened spent) :
    Within below' opened spent := by
  induction opened generalizing below below' spent with
  | nil =>
    obtain rfl := within_nil h
    trivial
  | cons f fs ih =>
    obtain ⟨m,ms,rfl,hhead,htail⟩ := within_cons h
    have hle' := Nat.add_le_add_right hle m
    exact ⟨fun limit hlimit => hle'.trans (hhead limit hlimit),ih hle' htail⟩

theorem backed_credit {count' : ℕ} (hle : count + n ≤ count') (h : Backed count opened spent) :
    Backed count' opened (credit n spent) := by
  cases opened with
  | nil =>
    obtain rfl := backed_nil h
    trivial
  | cons f fs =>
    obtain ⟨m,ms,rfl,hhead,htail⟩ := backed_cons h
    refine ⟨?_,htail⟩
    omega

theorem credit_zero (spent : List ℕ) : credit 0 spent = spent := by
  cases spent <;> rfl

theorem within_of_backed (h : Backed count opened spent)
    (hlimits : ∀ f ∈ opened, ∀ limit, f.txn.limit = some limit →
      below + count ≤ f.txn.bytesAtOpen + limit) : Within below opened spent := by
  induction opened generalizing below count spent with
  | nil =>
    obtain rfl := backed_nil h
    trivial
  | cons f fs ih =>
    obtain ⟨m,ms,rfl,hhead,htail⟩ := backed_cons h
    constructor
    · intro limit hlimit
      have hroom := hlimits f List.mem_cons_self limit hlimit
      omega
    · apply ih htail
      intro g hg limit hlimit
      have hroom := hlimits g (List.mem_cons_of_mem f hg) limit hlimit
      omega

end nested

-- Arguments have their types, and while a transaction is open the arena itself is not called: that
-- takes `arena_mut`.
def Scoped (s : Tally) (op : Op) : Prop :=
  Honest s.world op ∧
    match op with
    | .request _ _ | .rewind _ _ | .reset _ => s.world.opened = []
    | _ => True

/-- What the guard itself lets through each enclosing guard would let through, without the count
wrapping around; and no limit is set below what was spent before. -/
def Covered (s : Tally) (op : Op) : Prop :=
  match op with
  | .guarded sys r => ∀ f rest, s.world.opened = f::rest →
      f.txn.budgetOk s.world.arena (payload r.kind) = true →
      (∀ g ∈ rest, g.txn.budgetOk s.world.arena (payload r.kind) = true) ∧
        Counted sys s.world.arena r
  | .setLimit bytes => ∀ n ∈ s.spent.head?, n ≤ bytes
  | _ => True

structure Fair (s : Tally) : Prop where
  inv : Inv s.world
  anchored : ∀ f ∈ s.world.opened, f.txn.bytesAtOpen = f.txn.checkpoint.bytesAllocated ∧
    f.txn.bytesAtOpen < 2^64
  backed : Backed s.world.arena.stats.bytesAllocated s.world.opened s.spent
  within : Within 0 s.world.opened s.spent

section steps
variable {s : Tally}

theorem fair_same (h : Fair s) {w : World} (hinv : Inv w) (hopened : w.opened = s.world.opened)
    (hstats : w.arena.stats.bytesAllocated = s.world.arena.stats.bytesAllocated) :
    Fair ⟨w,s.spent⟩ where
  inv := hinv
  anchored := by
    dsimp only
    rw [hopened]
    exact h.anchored
  backed := by
    dsimp only
    rw [hopened, hstats]
    exact h.backed
  within := by
    dsimp only
    rw [hopened]
    exact h.within

theorem spent_closed (h : Fair s) (hopened : s.world.opened = []) : s.spent = [] := by
  have hbacked := h.backed
  rw [hopened] at hbacked
  exact backed_nil hbacked

theorem spent_open (h : Fair s) {f : Open} {rest : List Open} (hopened : s.world.opened = f::rest) :
    ∃ n ns, s.spent = n::ns ∧
      f.txn.bytesAtOpen + n ≤ s.world.arena.stats.bytesAllocated ∧
      Backed f.txn.bytesAtOpen rest ns ∧
      (∀ limit, f.txn.limit = some limit → n ≤ limit) ∧ Within n rest ns := by
  have hbacked := h.backed
  have hwithin := h.within
  rw [hopened] at hbacked hwithin
  obtain ⟨n,ns,hspent,hhead,htail⟩ := backed_cons hbacked
  rw [hspent] at hwithin
  obtain ⟨hlimit,hrest⟩ := hwithin
  rw [Nat.zero_add] at hlimit hrest
  exact ⟨n,ns,hspent,hhead,htail,hlimit,hrest⟩

theorem fair_closed {w : World} (hinv : Inv w) (hopened : w.opened = []) : Fair ⟨w,[]⟩ where
  inv := hinv
  anchored := by
    dsimp only
    rw [hopened]
    nofun
  backed := by
    dsimp only
    rw [hopened]
    trivial
  within := by
    dsimp only
    rw [hopened]
    trivial

theorem fair_idle (h : Fair s) (hclosed : s.world.opened = []) {w : World} (hinv : Inv w)
    (hopened : w.opened = []) : Fair ⟨w,s.spent⟩ := by
  rw [spent_closed h hclosed]
  exact fair_closed hinv hopened

theorem fair_leave (h : Fair s) {f : Open} {rest : List Open} {w : World} {spent : List ℕ}
    (hopened : s.world.opened = f::rest) (hinv : Inv w) (hrest : w.opened = rest)
    (hbacked : Backed w.arena.stats.bytesAllocated rest spent) (hwithin : Within 0 rest spent) :
    Fair ⟨w,spent⟩ where
  inv := hinv
  anchored := by
    dsimp only
    rw [hrest]
    exact fun g hg => h.anchored g (hopened ▸ List.mem_cons_of_mem f hg)
  backed := by
    dsimp only
    rw [hrest]
    exact hbacked
  within := by
    dsimp only
    rw [hrest]
    exact hwithin

theorem limits_room {f : Open} {limit payload : ℕ} {A : Arena} (hlimit : f.txn.limit = some limit)
    (hok : f.txn.budgetOk A payload = true)
    (hcount : A.stats.bytesAllocated + payload < 2^64) :
    A.stats.bytesAllocated + payload ≤ f.txn.bytesAtOpen + limit := by
  rw [Transaction.budgetOk, hlimit] at hok
  have hcheck : saturatingAdd (f.txn.bytesUsed A) payload ≤ limit := of_decide_eq_true hok
  have hused : f.txn.bytesUsed A = A.stats.bytesAllocated - f.txn.bytesAtOpen := rfl
  rw [hused] at hcheck
  unfold saturatingAdd at hcheck
  omega

theorem fair_guarded (h : Fair s) {f : Open} {rest : List Open} {sys : SystemAlloc} {r : Request}
    (hopened : s.world.opened = f::rest) (hhonest : Honest s.world (.guarded sys r))
    (hcovered : Covered s (.guarded sys r)) :
    Fair ⟨s.world.take (f.txn.serve sys s.world.arena r),
      credit (paid r (f.txn.serve sys s.world.arena r)) s.spent⟩ := by
  have hinv := inv_step h.inv hhonest
  rw [step_guarded hopened] at hinv
  rcases txn_serve f.txn sys s.world.arena r with ⟨⟨-,hok⟩,heq⟩ | ⟨-,ret,hret,lost,heq⟩
  · obtain ⟨hrest,hcounted⟩ := hcovered f rest hopened hok
    obtain ⟨hcount,hlt⟩ := count_paid h.inv.wf hhonest.1 hhonest.2 hcounted
    have hpaid := paid_le_payload r (r.serve sys s.world.arena)
    rw [heq] at hinv ⊢
    refine ⟨hinv,h.anchored,backed_credit hcount h.backed,?_⟩
    by_cases hfree : paid r (r.serve sys s.world.arena) = 0
    · rw [hfree, credit_zero]
      exact h.within
    · apply within_of_backed (backed_credit (le_refl _) h.backed)
      intro g hg limit hlimit
      have hpass : g.txn.budgetOk s.world.arena (payload r.kind) = true := by
        have hg' : g ∈ f::rest := hopened ▸ hg
        rcases List.mem_cons.mp hg' with rfl | hin
        · exact hok
        · exact hrest g hin
      have hpay : paid r (r.serve sys s.world.arena) = payload r.kind := by
        unfold paid at hfree ⊢
        split
        · rfl
        · rename_i hno
          exact absurd (paid_of_not_ptr hno) hfree
      rw [Nat.zero_add, hpay]
      rw [hpay] at hcount
      exact limits_room hlimit hpass (lt_of_le_of_lt hcount hlt)
  · rw [heq] at hinv ⊢
    rw [paid_of_not_ptr (o := answer s.world.arena ret lost) hret, credit_zero]
    exact fair_same h hinv rfl rfl

theorem stats_rewound {A A' : Arena} {cp : Checkpoint} (h : Wf A) (hcp : Recallable A.blocks cp)
    (hlt : cp.bytesAllocated < 2^64) (hrewound : Rewound A cp A') :
    A'.stats.bytesAllocated = cp.bytesAllocated := by
  have hroom := hcp.offset_le
  have htop : (A.blocks.get cp.blockIdx).base + (A.blocks.get cp.blockIdx).capacity ≤ 2^63 :=
    (h.laid.placed _ hcp.idx_lt).below_top
  change wadd A'.bytesAllocated A'.curOffset = _
  rw [rewound_offset hrewound, hrewound.bytes]
  unfold wadd wsub
  omega

theorem stats_rollback (h : Fair s) {f : Open} (hf : f ∈ s.world.opened) (boom : ℕ → ℕ → Bool) :
    (f.txn.drop boom s.world.arena).arena.stats.bytesAllocated = f.txn.bytesAtOpen ∨
      (f.txn.drop boom s.world.arena).arena.stats.bytesAllocated =
        s.world.arena.stats.bytesAllocated := by
  have hdepth := inv_depth h.inv (s.world.arena.txnDepth-1)
  have hcp := hdepth.recallable _ (h.inv.opened f hf).1
  obtain ⟨hanchor,hlt⟩ := h.anchored f hf
  rw [drop_eq h.inv hf boom]
  obtain ⟨-,-,⟨-,-,harena⟩ | ⟨-,-,hrewound⟩⟩ := rewind_cases boom hdepth.wf hcp
  · right
    rw [harena]
    rfl
  · left
    exact (stats_rewound hdepth.wf hcp (hanchor ▸ hlt) hrewound).trans hanchor.symm

theorem fair_begin (h : Fair s) : Fair (s.step .begin) where
  inv :=
    have hhonest : Honest s.world .begin := trivial
    inv_step h.inv hhonest
  anchored := by
    intro f hf
    rcases List.mem_cons.mp hf with rfl | hold
    · exact ⟨rfl,wadd_lt _ _⟩
    · exact h.anchored f hold
  backed := ⟨le_refl _,h.backed⟩
  within := ⟨nofun,h.within⟩

theorem fair_commit (h : Fair s) : Fair (s.step .commit) := by
  have hinv : Inv (s.world.step .commit) := inv_step h.inv trivial
  unfold Tally.step Tally.book
  cases hopened : s.world.opened with
  | nil =>
    simp only [World.step, hopened, spent_closed h hopened] at hinv ⊢
    exact fair_closed hinv hopened
  | cons f rest =>
    obtain ⟨n,ns,hspent,hhead,hbacked,-,hwithin⟩ := spent_open h hopened
    have harena : (s.world.step .commit).arena.stats.bytesAllocated =
        s.world.arena.stats.bytesAllocated := by
      simp only [World.step, hopened]
      rfl
    simp only [hspent]
    refine fair_leave h hopened hinv (by simp only [World.step, hopened]) ?_ ?_
    · rw [harena]
      exact backed_credit hhead hbacked
    · apply within_credit
      rw [Nat.zero_add]
      exact hwithin

theorem fair_rollback (h : Fair s) (boom : ℕ → ℕ → Bool) : Fair (s.step (.rollback boom)) := by
  have hinv : Inv (s.world.step (.rollback boom)) := inv_step h.inv trivial
  unfold Tally.step Tally.book
  cases hopened : s.world.opened with
  | nil =>
    simp only [World.step, hopened, spent_closed h hopened] at hinv ⊢
    exact fair_closed hinv hopened
  | cons f rest =>
    obtain ⟨n,ns,hspent,hhead,hbacked,-,hwithin⟩ := spent_open h hopened
    have hf : f ∈ s.world.opened := hopened ▸ List.mem_cons_self
    have harena : (s.world.step (.rollback boom)).arena =
        (f.txn.drop boom s.world.arena).arena := by
      simp only [World.step, hopened]
      rfl
    simp only [hspent]
    refine fair_leave h hopened hinv (by simp only [World.step, hopened]) ?_
      (within_mono (Nat.zero_le n) hwithin)
    rw [List.tail_cons, ← credit_zero ns]
    apply backed_credit _ hbacked
    rw [harena]
    rcases stats_rollback h hf boom with heq | heq
    · exact le_of_eq heq.symm
    · omega

theorem fair_setLimit (h : Fair s) {bytes : ℕ} (hcovered : Covered s (.setLimit bytes)) :
    Fair (s.step (.setLimit bytes)) := by
  have hinv : Inv (s.world.step (.setLimit bytes)) := inv_step h.inv trivial
  unfold Tally.step Tally.book
  cases hopened : s.world.opened with
  | nil =>
    simp only [World.step, hopened, spent_closed h hopened] at hinv ⊢
    exact fair_closed hinv hopened
  | cons f rest =>
    obtain ⟨n,ns,hspent,hhead,hbacked,-,hwithin⟩ := spent_open h hopened
    have hle : n ≤ bytes := hcovered n (by rw [hspent]; rfl)
    simp only [World.step, hopened] at hinv ⊢
    rw [hspent]
    refine ⟨hinv,?_,⟨hhead,hbacked⟩,?_,?_⟩
    · intro g hg
      rcases List.mem_cons.mp hg with rfl | hold
      · exact h.anchored f (hopened ▸ List.mem_cons_self)
      · exact h.anchored g (hopened ▸ List.mem_cons_of_mem f hold)
    · intro limit hlimit
      obtain rfl : bytes = limit := Option.some.inj hlimit
      rw [Nat.zero_add]
      exact hle
    · rw [Nat.zero_add]
      exact hwithin

theorem fair_step (h : Fair s) {op : Op} (hscoped : Scoped s op) (hcovered : Covered s op) :
    Fair (s.step op) := by
  have hinv := inv_step h.inv hscoped.1
  cases op with
  | request sys r => exact fair_idle h hscoped.2 hinv hscoped.2
  | guarded sys r =>
    unfold Tally.step Tally.book
    cases hopened : s.world.opened with
    | nil =>
      simp only [World.step, hopened] at hinv ⊢
      exact fair_same h hinv rfl rfl
    | cons f rest =>
      simp only [step_guarded hopened]
      exact fair_guarded h hopened hscoped.1 hcovered
  | checkpoint => exact fair_same h hinv rfl rfl
  | rewind boom stamp =>
    apply fair_idle h hscoped.2 hinv
    simp only [World.step]
    split <;> exact hscoped.2
  | reset boom => exact fair_idle h hscoped.2 hinv hscoped.2
  | begin => exact fair_begin h
  | commit => exact fair_commit h
  | rollback boom => exact fair_rollback h boom
  | setLimit bytes => exact fair_setLimit h hcovered

end steps

/-- In every run whose calls through savepoints are covered by the enclosing guards, no limit is
exceeded by what the guard and its open and committed savepoints have requested. -/
theorem limits_nest {s : Tally} (h : Tally.Reached (fun s op => Scoped s op ∧ Covered s op) s) :
    Within 0 s.world.opened s.spent := by
  obtain ⟨sys,feature,initialBytes,A,ops,hs,hA,halong,rfl⟩ := h
  obtain ⟨hwf,-,-,-,-,hregistry⟩ := wf_withCapacity hs hA
  have hstart : Fair (Tally.start A) :=
    fair_closed (inv_start hwf (by rw [hregistry, DropRegistry.entries_new])) rfl
  exact (run_invariant Tally.step _ Fair (fun s op hfair hop => fair_step hfair hop.1 hop.2)
    _ ops hstart halong).within

def savepointCalls (limit size : ℕ) : List Op :=
  [.begin,.setLimit limit,.begin,.guarded noMemory ⟨.raw size 1,false⟩,.commit]

theorem reached_tally {ok : Tally → Op → Prop} {capacity : ℕ} {A : Arena}
    (hcap : capacity ≤ 2^62) (hA : smallArena true capacity = some A) (ops : List Op)
    (h : Along Tally.step ok (Tally.start A) ops) :
    Tally.Reached ok (run Tally.step (Tally.start A) ops) :=
  ⟨_,true,capacity,A,ops,grants_small hcap,hA,h,rfl⟩

theorem scoped_savepointCalls (A : Arena) {limit size : ℕ} (hsize : size < 2^64) :
    Along Tally.step Scoped (Tally.start A) (savepointCalls limit size) :=
  ⟨⟨trivial,trivial⟩,⟨trivial,trivial⟩,⟨trivial,trivial⟩,⟨⟨grants_noMemory _,hsize⟩,trivial⟩,
    ⟨trivial,trivial⟩,trivial⟩

theorem limits_nest_savepoint : ∃ A, smallArena true 64 = some A ∧
    ∃ s, s = run Tally.step (Tally.start A) (savepointCalls 32 16) ∧ s.spent = [16] ∧
      Within 0 s.world.opened s.spent := by
  obtain ⟨A,hA⟩ : ∃ A, smallArena true 64 = some A := ⟨_,rfl⟩
  have hsize : (16 : ℕ) < 2^64 := by norm_num
  refine ⟨A,hA,_,rfl,?_,limits_nest (reached_tally (by norm_num) hA _
    (along_and _ _ _ (scoped_savepointCalls A hsize) ⟨trivial,?_,trivial,?_,trivial,trivial⟩))⟩
  · cases hA
    decide +kernel
  · rintro n hn
    cases hn
    exact Nat.zero_le _
  · rintro f rest hopened -
    cases hopened
    constructor
    · intro g hg
      obtain rfl := List.mem_singleton.mp hg
      cases hA
      decide +kernel
    · intro size align hd
      cases hd
      cases hA
      decide +kernel

/-- The savepoint takes sixteen bytes under a limit of ten. -/
theorem savepoint_exceeds : ∃ s f, Tally.Reached Scoped s ∧ s.world.opened = [f] ∧
    f.txn.limit = some 10 ∧ s.spent = [16] ∧ ¬ Within 0 s.world.opened s.spent := by
  obtain ⟨A,hA⟩ : ∃ A, smallArena true 64 = some A := ⟨_,rfl⟩
  have hspent : (run Tally.step (Tally.start A) (savepointCalls 10 16)).spent = [16] := by
    cases hA
    decide +kernel
  refine ⟨_,_,reached_tally (by norm_num) hA _ (scoped_savepointCalls A (by norm_num)),rfl,rfl,
    hspent,?_⟩
  rw [hspent]
  rintro ⟨hlimit,-⟩
  exact absurd (hlimit 10 rfl) (by norm_num)

end FastArena.NestedLimits
