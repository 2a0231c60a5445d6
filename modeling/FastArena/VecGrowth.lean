import FastArena.GrowableVec
import FastArena.ArenaWorld

/-!
# Growth of a vector on its arena

While a vector is open nothing else is done to the arena, so its buffer ends at
the bump pointer. A growth in place is then a carved region behind the buffer,
unless the unchecked product wraps around to an address below the end of the
block; this is the one way the buffer can leave its block.
-/

set_option autoImplicit false

namespace FastArena.VecGrowth
open FastArena.MachineWord FastArena.ByteSpan FastArena.ArenaBlock FastArena.InlineStorage
  FastArena.DropTracking FastArena.ArenaCore FastArena.ArenaInvariant FastArena.RawRequest
  FastArena.ArenaRequests FastArena.LabelledRun FastArena.ArenaWorld FastArena.GrowableVec

def asked (v : ArenaVec) : VecOp → ℕ
  | .push => if v.len = v.cap then (if v.cap = 0 then 4 else v.cap*2) else v.len+1
  | .tryPush => if v.len = v.cap then (if v.cap = 0 then 4 else v.cap*2) else v.len+1
  | .reserve n => v.len+n
  | .reserveExact n => v.len+n
  | .tryReserve n => v.len+n
  | .tryReserveExact n => v.len+n
  | .extendExact n _ => v.len+n
  | .extendFromSlice n => v.len+n
  | .resize n _ => n
  | _ => 0

def saturates : VecOp → Bool
  | .reserve _ => true
  | .tryReserve _ => true
  | _ => false

def goal (v : ArenaVec) (sat : Bool) (room : ℕ) : Option ℕ :=
  if (room < 2^64 ∨ sat = true) ∧ v.cap < min room (2^64-1) then some (min room (2^64-1)) else none

def target (v : ArenaVec) (op : VecOp) : Option ℕ := goal v (saturates op) (asked v op)

structure Follows (fallible : Bool) (room : ℕ) (g o : VecOutcome) : Prop where
  call_eq : o.call = g.call
  grew_eq : o.grew = g.grew
  ptr_eq : o.vec.ptr = g.vec.ptr
  cap_eq : o.vec.cap = g.vec.cap
  len_le : o.vec.len ≤ max g.vec.len room
  stopped : g.grew = false →
    o.vec = g.vec ∧ (o.res = g.res ∨ fallible = true ∧ o.res = .returned)

theorem follows_self (fallible : Bool) (room : ℕ) (g : VecOutcome) : Follows fallible room g g :=
  ⟨rfl,rfl,rfl,rfl,le_max_left _ _,fun _ => ⟨rfl,Or.inl rfl⟩⟩

theorem writing_follows (fallible : Bool) {room newLen : ℕ} (h : newLen ≤ room) (g : VecOutcome)
    (unwinds : Option String) : Follows fallible room g (writing g newLen unwinds) := by
  unfold writing
  by_cases hgrew : g.grew = true
  · rw [if_pos hgrew]
    cases unwinds with
    | some message =>
      exact ⟨rfl,rfl,rfl,rfl,le_max_left _ _,fun hno => absurd (hgrew.symm.trans hno) (by decide)⟩
    | none =>
      exact ⟨rfl,rfl,rfl,rfl,h.trans (le_max_right _ _),
        fun hno => absurd (hgrew.symm.trans hno) (by decide)⟩
  · rw [if_neg hgrew]
    exact follows_self fallible room g

/-- The growth phase of a method: it grows to its goal, or has room already, or gives up because
what it asks exceeds a word. -/
def Phase (sys : SystemAlloc) (A : Arena) (ty : Ty) (v : ArenaVec) (fallible sat : Bool)
    (room : ℕ) (g : VecOutcome) : Prop :=
  (∃ n, goal v sat room = some n ∧ g = growWith fallible sys A ty v n) ∨
    goal v sat room = none ∧ ((room ≤ v.cap ∧ g = enough v A) ∨
      2^64 ≤ room ∧ g = refuse v A (overflowRes fallible))

section methods
variable {sys : SystemAlloc} {A : Arena} {ty : Ty} {v : ArenaVec}

theorem goal_of_lt {sat : Bool} {room : ℕ} (hroom : room < 2^64) :
    goal v sat room = if v.cap < room then some room else none := by
  have hmin : min room (2^64-1) = room := by omega
  unfold goal
  rw [hmin]
  simp only [hroom, true_or, true_and]

theorem goal_of_ge {room : ℕ} (hroom : 2^64 ≤ room) : goal v false room = none :=
  if_neg (fun hh => hh.1.elim (fun hlt => absurd hlt (by omega)) Bool.false_ne_true)

theorem phase_lt (fallible sat : Bool) {room : ℕ} (hroom : room < 2^64) : Phase sys A ty v fallible
    sat room (if room > v.cap then growWith fallible sys A ty v room else enough v A) := by
  by_cases hgrow : room > v.cap
  · rw [if_pos hgrow]
    exact Or.inl ⟨room,by rw [goal_of_lt hroom, if_pos hgrow],rfl⟩
  · rw [if_neg hgrow]
    exact Or.inr ⟨by rw [goal_of_lt hroom, if_neg hgrow],Or.inl ⟨by omega,rfl⟩⟩

theorem phase_ge (fallible : Bool) {room : ℕ} (hroom : 2^64 ≤ room) :
    Phase sys A ty v fallible false room (refuse v A (overflowRes fallible)) :=
  Or.inr ⟨goal_of_ge hroom,Or.inr ⟨hroom,rfl⟩⟩

theorem phase_grow (fallible : Bool) {room : ℕ} (hroom : room < 2^64) (hcap : v.cap < room) :
    Phase sys A ty v fallible false room (growWith fallible sys A ty v room) :=
  Or.inl ⟨room,by rw [goal_of_lt hroom, if_pos hcap],rfl⟩

theorem growOnce_phase (fallible : Bool) : Phase sys A ty v fallible false
    (if v.cap = 0 then 4 else v.cap*2) (growOnceWith sys A ty v fallible) := by
  unfold growOnceWith doubled
  by_cases hcap : v.cap = 0
  · rw [if_pos hcap, if_pos hcap]
    exact phase_grow fallible (by norm_num) (by omega)
  · rw [if_neg hcap, if_neg hcap]
    unfold checkedMul
    by_cases hlt : v.cap*2 < 2^64
    · rw [if_pos hlt]
      exact phase_grow fallible hlt (by omega)
    · rw [if_neg hlt]
      exact phase_ge fallible (by omega)

theorem push_phase (hlen : v.len ≤ v.cap) (hcap : v.cap < 2^64-1) (fallible : Bool) :
    Phase sys A ty v fallible false
      (if v.len = v.cap then (if v.cap = 0 then 4 else v.cap*2) else v.len+1)
      (if v.len = v.cap then growOnceWith sys A ty v fallible else enough v A) := by
  by_cases hfull : v.len = v.cap
  · rw [if_pos hfull, if_pos hfull]
    exact growOnce_phase fallible
  · rw [if_neg hfull, if_neg hfull]
    refine Or.inr ⟨?_,Or.inl ⟨by omega,rfl⟩⟩
    rw [goal_of_lt (by omega), if_neg (by omega)]

theorem reserve_phase (hcap : v.cap < 2^64-1) (fallible : Bool) (n : ℕ) :
    Phase sys A ty v fallible true (v.len+n) (reserveWith sys A ty v fallible n) := by
  unfold reserveWith saturatingAdd
  dsimp only
  by_cases hgrow : min (v.len+n) (2^64-1) > v.cap
  · rw [if_pos hgrow]
    exact Or.inl ⟨_,if_pos ⟨Or.inr rfl,hgrow⟩,rfl⟩
  · rw [if_neg hgrow]
    exact Or.inr ⟨if_neg (fun hh => hgrow hh.2),Or.inl ⟨by omega,rfl⟩⟩

theorem reserveExact_phase (fallible : Bool) (n : ℕ) :
    Phase sys A ty v fallible false (v.len+n) (reserveExactWith sys A ty v fallible n) := by
  unfold reserveExactWith checkedAdd
  by_cases hlt : v.len+n < 2^64
  · rw [if_pos hlt]
    exact phase_lt fallible false hlt
  · rw [if_neg hlt]
    exact phase_ge fallible (by omega)

theorem extend_phase (hsize : 0 < ty.size) (hlen : v.len ≤ v.cap) (hcap : v.cap < 2^64-1) (n : ℕ)
    (unwinds : Option String) : ∃ g, Phase sys A ty v false false (v.len+n) g ∧
      Follows false (v.len+n) g (extendWith sys A ty v n unwinds) := by
  unfold extendWith
  by_cases hn : n = 0
  · rw [if_pos hn]
    refine ⟨_,Or.inr ⟨?_,Or.inl ⟨by omega,rfl⟩⟩,follows_self _ _ _⟩
    rw [goal_of_lt (by omega), if_neg (by omega)]
  · rw [if_neg hn]
    unfold checkedAdd
    by_cases hlt : v.len+n < 2^64
    · rw [if_pos hlt]
      simp only [hsize, true_and]
      exact ⟨_,phase_lt false false hlt,writing_follows false (le_refl _) _ _⟩
    · rw [if_neg hlt]
      exact ⟨_,phase_ge false (by omega),follows_self _ _ _⟩

theorem resize_phase (hlen : v.len ≤ v.cap) {n : ℕ} (hn : n < 2^64)
    (unwinds : Option String) : ∃ g, Phase sys A ty v false false n g ∧
      Follows false n g (resize sys A ty v n unwinds) := by
  unfold resize
  by_cases hlonger : n > v.len
  · rw [if_pos hlonger]
    exact ⟨_,phase_lt false false hn,writing_follows false (le_refl _) _ _⟩
  · rw [if_neg hlonger]
    refine ⟨enough v A,Or.inr ⟨?_,Or.inl ⟨by omega,rfl⟩⟩,?_⟩
    · rw [goal_of_lt hn, if_neg (by omega)]
    · unfold truncate
      split
      · exact ⟨rfl,rfl,rfl,rfl,le_max_right _ _,fun hno => Bool.noConfusion hno⟩
      · exact follows_self _ _ _

theorem shrink_phase (fallible : Bool) {len : ℕ} (hlen : len ≤ v.len) :
    ∃ g, Phase sys A ty v fallible false 0 g ∧
      Follows fallible 0 g (enough { v with len := len } A) := by
  refine ⟨enough v A,Or.inr ⟨?_,Or.inl ⟨Nat.zero_le _,rfl⟩⟩,?_⟩
  · rw [goal_of_lt (by norm_num), if_neg (by omega)]
  · exact ⟨rfl,rfl,rfl,rfl,hlen.trans (le_max_left _ _),fun hno => Bool.noConfusion hno⟩

theorem tryPush_follows {room : ℕ} (hroom : v.len+1 ≤ room) (g : VecOutcome) :
    Follows true room g (match g.res with
      | .err _ => { g with res := .returned }
      | _ => writing g (wadd v.len 1) none) := by
  have hle : wadd v.len 1 ≤ room := (Nat.mod_le _ _).trans hroom
  cases hres : g.res with
  | err e => exact ⟨rfl,rfl,rfl,rfl,le_max_left _ _,fun _ => ⟨rfl,Or.inr ⟨rfl,rfl⟩⟩⟩
  | ok => exact writing_follows true hle g none
  | returned => exact writing_follows true hle g none
  | panic message => exact writing_follows true hle g none

theorem full_le :
    v.len+1 ≤ if v.len = v.cap then (if v.cap = 0 then 4 else v.cap*2) else v.len+1 := by
  split
  · split <;> omega
  · exact le_refl _

/-- Every method is a growth phase for the room it asks, followed by its own end. -/
theorem apply_phase (sys : SystemAlloc) (A : Arena) (hsize : 0 < ty.size) (hlen : v.len ≤ v.cap)
    (hcap : v.cap < 2^64-1) {op : VecOp} (hop : op.Typed ty) :
    ∃ g, Phase sys A ty v op.fallible (saturates op) (asked v op) g ∧
      Follows op.fallible (asked v op) g (op.apply sys A ty v) := by
  cases op with
  | push =>
    exact ⟨_,push_phase hlen hcap false,
      writing_follows false ((Nat.mod_le _ _).trans full_le) _ none⟩
  | tryPush => exact ⟨_,push_phase hlen hcap true,tryPush_follows full_le _⟩
  | reserve n => exact ⟨_,reserve_phase hcap false n,follows_self _ _ _⟩
  | reserveExact n => exact ⟨_,reserveExact_phase false n,follows_self _ _ _⟩
  | tryReserve n => exact ⟨_,reserve_phase hcap true n,follows_self _ _ _⟩
  | tryReserveExact n => exact ⟨_,reserveExact_phase true n,follows_self _ _ _⟩
  | extendExact n yields => exact extend_phase hsize hlen hcap n _
  | extendFromSlice n => exact extend_phase hsize hlen hcap n none
  | resize n unwinds => exact resize_phase hlen hop unwinds
  | truncate n =>
    change ∃ g, Phase sys A ty v false false 0 g ∧ Follows false 0 g (truncate A v n)
    unfold truncate
    split
    · exact shrink_phase false (by omega)
    · exact shrink_phase false (le_refl v.len)
  | pop =>
    change ∃ g, Phase sys A ty v false false 0 g ∧ Follows false 0 g (pop A v)
    unfold pop
    split
    · exact shrink_phase false (le_refl v.len)
    · exact shrink_phase false (Nat.sub_le _ _)
  | clear => exact shrink_phase false (Nat.zero_le _)

end methods

/-- The buffer lies in the current block and ends at the bump pointer. -/
structure Fitted (A : Arena) (ty : Ty) (v : ArenaVec) : Prop where
  len_le : v.len ≤ v.cap
  base_le : 0 < v.cap → A.curBase ≤ v.ptr
  end_eq : 0 < v.cap → v.ptr + v.cap * ty.size = A.curPtr

/-- Growing in place to `n` elements runs past the last address and comes round to one that passes
the check against the end of the block. -/
def Wraps (A : Arena) (ty : Ty) (v : ArenaVec) (n : ℕ) : Prop :=
  0 < v.cap ∧ v.cap < n ∧ wadd v.ptr (wmul v.cap ty.size) = A.curPtr ∧
    2^64 ≤ v.ptr + n * ty.size ∧ (v.ptr + n * ty.size) % 2^64 ≤ A.curEnd

instance (A : Arena) (ty : Ty) (v : ArenaVec) (n : ℕ) : Decidable (Wraps A ty v n) :=
  inferInstanceAs (Decidable (_ ∧ _))

section growth
variable {sys : SystemAlloc} {A : Arena} {ty : Ty} {v : ArenaVec} {n : ℕ} {fallible : Bool}

theorem fitted_end (h : Wf A) (hv : Fitted A ty v) (hcap : 0 < v.cap) :
    wadd v.ptr (wmul v.cap ty.size) = A.curPtr := by
  have htop : A.curEnd ≤ 2^63 := curEnd_le h
  have hptr := h.ptr_le
  have hend := hv.end_eq hcap
  rw [wmul_eq (by omega), wadd_eq (by omega)]
  exact hend

theorem fitted_extra (hv : Fitted A ty v) (hcap : 0 < v.cap) (hlt : v.cap < n) :
    A.curPtr + (n - v.cap) * ty.size = v.ptr + n * ty.size := by
  have hend := hv.end_eq hcap
  have hmul : v.cap * ty.size ≤ n * ty.size := Nat.mul_le_mul_right _ hlt.le
  rw [Nat.sub_mul]
  omega

theorem extendedEnd_eq (h : Wf A) (hv : Fitted A ty v) (n : ℕ) : extendedEnd A ty v n =
    if 0 < v.cap ∧ v.cap < n ∧ (v.ptr + n * ty.size) % 2^64 ≤ A.curEnd then
      some ((v.ptr + n * ty.size) % 2^64) else none := by
  unfold extendedEnd
  by_cases hcap : v.cap > 0 ∧ n > v.cap
  · have hend := fitted_end h hv hcap.1
    have hwrap : wadd A.curPtr (wmul (n - v.cap) ty.size) = (v.ptr + n * ty.size) % 2^64 := by
      rw [← fitted_extra hv hcap.1 hcap.2]
      exact Nat.add_mod_mod _ _ _
    rw [if_pos hcap]
    dsimp only
    rw [if_pos hend, hend, hwrap]
    by_cases hroom : (v.ptr + n * ty.size) % 2^64 ≤ A.curEnd
    · rw [if_pos hroom, if_pos ⟨hcap.1,hcap.2,hroom⟩]
    · rw [if_neg hroom, if_neg (fun hh => hroom hh.2.2)]
  · rw [if_neg hcap, if_neg (fun hh => hcap ⟨hh.1,hh.2.1⟩)]

inductive Grew (fallible : Bool) (sys : SystemAlloc) (A : Arena) (ty : Ty) (v : ArenaVec)
    (n : ℕ) : VecOutcome → Prop where
  | extended (hcap : 0 < v.cap) (hlt : v.cap < n) (hroom : v.ptr + n * ty.size ≤ A.curEnd) :
      Grew fallible sys A ty v n
        ⟨{ v with cap := n },extendInPlace A (v.ptr + n * ty.size),.ok,true⟩
  | wrapped (hwraps : Wraps A ty v n) : Grew fallible sys A ty v n
      ⟨{ v with cap := n },extendInPlace A ((v.ptr + n * ty.size) % 2^64),.ok,true⟩
  | overflowed (hbytes : 2^64 ≤ n * ty.size) :
      Grew fallible sys A ty v n (refuse v A (overflowRes fallible))
  | relocated {raw : Outcome} {p : ℕ} (hpos : 0 < n * ty.size)
      (hraw : Served sys A ⟨.raw (n * ty.size) ty.align,fallible⟩ raw) (hret : raw.ret = .ptr p) :
      Grew fallible sys A ty v n ⟨⟨p,v.len,n⟩,raw,.ok,true⟩
  | stuck {raw : Outcome} {res : VecRes} (hpos : 0 < n * ty.size)
      (hbytes : n * ty.size < 2^64)
      (hraw : Served sys A ⟨.raw (n * ty.size) ty.align,fallible⟩ raw)
      (hret : raw.ret = .none ∧ res = .err .allocError ∨
        ∃ message, raw.ret = .panic message ∧ res = .panic message) :
      Grew fallible sys A ty v n ⟨v,raw,res,false⟩

theorem growWith_grew (h : Wf A) (hs : Grants sys A.blocks) (hsize : 0 < ty.size)
    (hv : Fitted A ty v) (hn : 0 < n) (fallible : Bool) :
    Grew fallible sys A ty v n (growWith fallible sys A ty v n) := by
  have hpos : 0 < n * ty.size := Nat.mul_pos hn hsize
  unfold growWith
  rw [if_neg (by omega), extendedEnd_eq h hv n]
  by_cases hpass : 0 < v.cap ∧ v.cap < n ∧ (v.ptr + n * ty.size) % 2^64 ≤ A.curEnd
  · rw [if_pos hpass]
    obtain ⟨hcap,hlt,hroom⟩ := hpass
    by_cases hbig : 2^64 ≤ v.ptr + n * ty.size
    · exact .wrapped ⟨hcap,hlt,fitted_end h hv hcap,hbig,hroom⟩
    · have hsmall : (v.ptr + n * ty.size) % 2^64 = v.ptr + n * ty.size :=
        Nat.mod_eq_of_lt (by omega)
      rw [hsmall] at hroom ⊢
      exact .extended hcap hlt hroom
  · rw [if_neg hpass]
    dsimp only
    unfold checkedMul
    by_cases hbytes : n * ty.size < 2^64
    · rw [if_pos hbytes]
      dsimp only
      have hserved := serve_served h hs
        (show Request.Typed ⟨.raw (n * ty.size) ty.align,fallible⟩ from hbytes)
      have hcall : (if fallible then tryAllocRaw sys A (n * ty.size) ty.align
          else allocRaw sys A (n * ty.size) ty.align) =
            Request.serve sys A ⟨.raw (n * ty.size) ty.align,fallible⟩ := by cases fallible <;> rfl
      rw [hcall]
      cases hret : (Request.serve sys A ⟨.raw (n * ty.size) ty.align,fallible⟩).ret with
      | ptr p => exact .relocated hpos hserved hret
      | none => exact .stuck hpos hbytes hserved (Or.inl ⟨hret,rfl⟩)
      | panic message => exact .stuck hpos hbytes hserved (Or.inr ⟨message,hret,rfl⟩)
    · rw [if_neg hbytes]
      exact .overflowed (by omega)

structure Roomy (A : Arena) (ty : Ty) (v : ArenaVec) (n : ℕ) (g : VecOutcome) : Prop where
  grew : g.grew = true
  cap_eq : g.vec.cap = n
  len_eq : g.vec.len = v.len
  base_le : g.call.arena.curBase ≤ g.vec.ptr
  end_eq : g.vec.ptr + n * ty.size = g.call.arena.curPtr
  after : position A ≤ position g.call.arena

structure Stayed (A : Arena) (v : ArenaVec) (g : VecOutcome) : Prop where
  grew : g.grew = false
  vec_eq : g.vec = v
  current_eq : g.call.arena.current = A.current
  base_eq : g.call.arena.curBase = A.curBase
  ptr_eq : g.call.arena.curPtr = A.curPtr

theorem carved_after {A₁ A' : Arena} {size align p : ℕ} (hcarved : Carved A size align p A₁)
    {registry : DropRegistry} (harena : A' = { A₁ with dropRegistry := registry }) :
    position A ≤ position A' := by
  rw [position_carved hcarved harena]
  apply hcarved.above.trans
  rw [Prod.Lex.toLex_le_toLex]
  exact Or.inr ⟨rfl,Nat.le_add_right _ _⟩

theorem raw_demand {size : ℕ} (hpos : 0 < size) : (Kind.raw size ty.align).demand ≠ none := by
  rw [demand_raw ty.align_pow (by omega)]
  nofun

theorem raw_carved {size p : ℕ} {raw : Outcome} (hpos : 0 < size)
    (hraw : Served sys A ⟨.raw size ty.align,fallible⟩ raw) (hret : raw.ret = .ptr p) :
    ∃ A₁ registry, raw.arena = { A₁ with dropRegistry := registry } ∧
      Carved A size ty.align p A₁ := by
  cases hraw with
  | carved hd _ _ hcarved _ hfills =>
    obtain ⟨registry,harena,-,-⟩ := hfills.arena_eq
    obtain ⟨-,rfl,rfl⟩ := demand_if hd
    obtain rfl := Ret.ptr.inj (hfills.ret_eq.symm.trans hret)
    exact ⟨_,registry,harena,hcarved⟩
  | failed _ _ _ hno _ => exact absurd hret (hno _)
  | answered hd => exact absurd hd (raw_demand hpos)

theorem raw_failed {size : ℕ} {raw : Outcome} (hpos : 0 < size)
    (hraw : Served sys A ⟨.raw size ty.align,fallible⟩ raw) (hno : ∀ p, raw.ret ≠ .ptr p) :
    ∃ ret A₁, raw = answer A₁ ret 0 ∧ RawEnd fallible sys A size ty.align ret A₁ ∧
      Unmoved A A₁ := by
  cases hraw with
  | carved _ _ _ _ _ hfills => exact absurd hfills.ret_eq (hno _)
  | failed hd _ hend _ hunmoved =>
    obtain ⟨-,rfl,rfl⟩ := demand_if hd
    exact ⟨_,_,rfl,hend,hunmoved⟩
  | answered hd => exact absurd hd (raw_demand hpos)

theorem not_ptr_of_stuck {raw : Outcome} {res : VecRes}
    (hret : raw.ret = .none ∧ res = .err .allocError ∨
      ∃ message, raw.ret = .panic message ∧ res = .panic message) (p : ℕ) :
    raw.ret ≠ .ptr p := by
  intro hptr
  rcases hret with ⟨hnone,-⟩ | ⟨message,hpanic,-⟩
  · exact nomatch hptr.symm.trans hnone
  · exact nomatch hptr.symm.trans hpanic

theorem bumped_extra (h : Wf A) (hv : Fitted A ty v) (hcap : 0 < v.cap) (hlt : v.cap < n)
    (hroom : v.ptr + n * ty.size ≤ A.curEnd) :
    Bumped A ((n - v.cap) * ty.size) 1 A.curPtr { A with curPtr := v.ptr + n * ty.size } := by
  have htop : A.curEnd ≤ 2^63 := curEnd_le h
  have hptr := h.ptr_le
  have hextra := fitted_extra hv hcap hlt
  have hup : alignUp A.curPtr 1 = A.curPtr := alignUp_one (by omega)
  exact ⟨(str_fits (anchored h)).mpr (by omega),hup.symm,by rw [hextra]⟩

/-- Growing that does not wrap makes the room or leaves everything in place. -/
theorem grew_cases (h : Wf A) (hv : Fitted A ty v) {g : VecOutcome}
    (hg : Grew fallible sys A ty v n g) (hno : ¬ Wraps A ty v n) :
    Roomy A ty v n g ∨ Stayed A v g := by
  cases hg with
  | extended hcap hlt hroom =>
    have hcarved := carved_bumped h powerOfTwo_one (bumped_extra h hv hcap hlt hroom)
    exact Or.inl ⟨rfl,rfl,rfl,hv.base_le hcap,rfl,carved_after hcarved rfl⟩
  | wrapped hwraps => exact absurd hwraps hno
  | overflowed _ => exact Or.inr ⟨rfl,rfl,rfl,rfl,rfl⟩
  | relocated hpos hraw hret =>
    obtain ⟨A₁,registry,harena,hcarved⟩ := raw_carved hpos hraw hret
    refine Or.inl ⟨rfl,rfl,rfl,?_,?_,carved_after hcarved harena⟩
    · dsimp only
      rw [harena]
      exact hcarved.base_le
    · dsimp only
      rw [harena]
      exact hcarved.end_eq.symm
  | stuck hpos _ hraw hret =>
    obtain ⟨ret,A₁,rfl,-,hunmoved⟩ := raw_failed hpos hraw (not_ptr_of_stuck hret)
    exact Or.inr ⟨rfl,rfl,hunmoved.current_eq,hunmoved.base_eq,hunmoved.ptr_eq⟩

theorem inv_grew {w : World} (h : Inv w) (hv : Fitted w.arena ty v) {g : VecOutcome}
    (hg : Grew fallible sys w.arena ty v n g) (hno : ¬ Wraps w.arena ty v n) :
    Inv (w.take g.call) := by
  cases hg with
  | extended hcap hlt hroom =>
    have htop : w.arena.curEnd ≤ 2^63 := curEnd_le h.wf
    have hcarved := carved_bumped h.wf powerOfTwo_one (bumped_extra h.wf hv hcap hlt hroom)
    have hextra := fitted_extra hv hcap hlt
    have hbytes : wsub (v.ptr + n * ty.size) w.arena.curPtr = (n - v.cap) * ty.size := by
      rw [wsub_eq (by omega) (by omega)]
      omega
    apply inv_take_carved h hcarved
    · dsimp only [extendInPlace]
      rw [hbytes]
    · exact plain_fills (k := .raw ((n - v.cap) * ty.size) 1) _ rfl rfl nofun rfl
  | wrapped hwraps => exact absurd hwraps hno
  | overflowed _ => exact inv_take_unmoved h _ _ (unmoved_refl h.wf)
  | relocated _ hraw _ => exact inv_take h hraw
  | stuck _ _ hraw _ => exact inv_take h hraw

def Reported : Bool → VecRes → Prop
  | false, res => ∃ message, res = .panic message
  | true, res => res = .returned ∨ ∃ e, res = .err e

theorem overflowRes_reported (fallible : Bool) : Reported fallible (overflowRes fallible) := by
  cases fallible with
  | false => exact ⟨_,rfl⟩
  | true => exact Or.inr ⟨_,rfl⟩

theorem overflows_top (h : Wf A) {size : ℕ} (hsize : 2^64-1 ≤ size) : Overflows A size 1 := by
  have hnonnull := (current_placed h).nonnull
  have htop : A.curEnd ≤ 2^63 := curEnd_le h
  have hbase := h.base_le
  have hptr := h.ptr_le
  rw [h.base_eq] at hbase
  have hup : alignUp A.curPtr 1 = A.curPtr := alignUp_one (by omega)
  refine ⟨by norm_num [minBlockAlign],?_⟩
  rw [hup, checkedAdd, if_neg (by omega)]

theorem grew_reported (h : Wf A) {g : VecOutcome} (hg : Grew fallible sys A ty v n g)
    (hgrew : g.grew = false) (hbig : n * ty.size < 2^64 → ty.align = 1 ∧ 2^64-1 ≤ n * ty.size) :
    Reported fallible g.res := by
  cases hg with
  | extended _ _ _ => cases hgrew
  | wrapped _ => cases hgrew
  | overflowed _ => exact overflowRes_reported fallible
  | relocated _ _ _ => cases hgrew
  | stuck hpos hbytes hraw hret =>
    obtain ⟨halign,hsize⟩ := hbig hbytes
    have hno := not_ptr_of_stuck hret
    obtain ⟨ret,A₁,rfl,hend,-⟩ := raw_failed hpos hraw hno
    rw [halign] at hend
    cases hend with
    | bumped _ => exact absurd rfl (hno _)
    | moved _ _ _ _ => exact absurd rfl (hno _)
    | stalled _ _ hslow _ hend =>
      cases fallible with
      | false =>
        rcases hret with ⟨rfl,-⟩ | ⟨message,-,hres⟩
        · rcases hend with ⟨-,hfallible⟩ | ⟨message,hpanic⟩
          · cases hfallible
          · cases hpanic
        · exact ⟨message,hres⟩
      | true => exact absurd ⟨rfl,overflows_top h hsize⟩ hslow
    | rejected hfallible _ =>
      rw [show fallible = true from hfallible]
      rcases hret with ⟨-,hres⟩ | ⟨message,hpanic,-⟩
      · exact Or.inr ⟨_,hres⟩
      · cases hpanic

def Housed (A : Arena) (ty : Ty) (v : ArenaVec) : Prop :=
  0 < v.cap → ∃ i < A.blocks.len,
    (⟨v.ptr,v.cap * ty.size⟩ : Span).Within (A.blocks.get i).extent ∧
      v.ptr + v.cap * ty.size ≤ A.curPtr

/-- What a method promises: with the growth done the buffer is housed, has the room asked for, and
the bump pointer did not go back; a size that is no word is refused and moves nothing. -/
structure GrowsWell (A : Arena) (ty : Ty) (v : ArenaVec) (op : VecOp) (o : VecOutcome) : Prop where
  grown : o.grew = true → Housed o.call.arena ty o.vec ∧ asked v op ≤ o.vec.cap ∧
    position A ≤ position o.call.arena
  refused : 2^64 ≤ asked v op * ty.size → o.grew = false ∧ Reported op.fallible o.res ∧
    o.vec = v ∧ position o.call.arena = position A ∧ o.call.arena.curPtr = A.curPtr

def Straight (A : Arena) (ty : Ty) (v : ArenaVec) (op : VecOp) : Prop :=
  ∀ n, target v op = some n → ¬ Wraps A ty v n

theorem fitted_bytes (h : Wf A) (hv : Fitted A ty v) : v.cap * ty.size ≤ 2^63 := by
  have htop : A.curEnd ≤ 2^63 := curEnd_le h
  have hptr := h.ptr_le
  rcases Nat.eq_zero_or_pos v.cap with hzero | hpos
  · rw [hzero, Nat.zero_mul]
    exact Nat.zero_le _
  · have hend := hv.end_eq hpos
    omega

theorem fitted_cap (h : Wf A) (hsize : 0 < ty.size) (hv : Fitted A ty v) : v.cap < 2^64-1 := by
  have hbytes := fitted_bytes h hv
  have hle : v.cap ≤ v.cap * ty.size := Nat.le_mul_of_pos_right _ hsize
  omega

theorem housed_fitted (h : Wf A) (hv : Fitted A ty v) : Housed A ty v := by
  intro hcap
  have hend := hv.end_eq hcap
  have hbase := hv.base_le hcap
  have hptr := h.ptr_le
  rw [h.end_eq] at hptr
  rw [h.base_eq] at hbase hptr
  refine ⟨A.current,current_lt h,⟨hbase,?_⟩,hend.le⟩
  dsimp only [Block.extent]
  omega

theorem target_some {op : VecOp} (hn : target v op = some n) :
    n = min (asked v op) (2^64-1) ∧ v.cap < n := by
  unfold target goal at hn
  obtain ⟨⟨-,hlt⟩,heq⟩ := Option.ite_none_right_eq_some.mp hn
  obtain rfl := Option.some.inj heq
  exact ⟨rfl,hlt⟩

theorem roomy_asked {g : VecOutcome} (hwf : Wf g.call.arena) (hsize : 0 < ty.size)
    (hg : Roomy A ty v n g) {room : ℕ} (hn : n = min room (2^64-1)) :
    n = room ∧ n * ty.size ≤ 2^63 := by
  have htop : g.call.arena.curEnd ≤ 2^63 := curEnd_le hwf
  have hptr := hwf.ptr_le
  have hend := hg.end_eq
  have hle : n ≤ n * ty.size := Nat.le_mul_of_pos_right _ hsize
  omega

theorem fitted_roomy {op : VecOp} {g o : VecOutcome} (hv : Fitted A ty v) (hlt : v.cap < n)
    (hg : Roomy A ty v n g) (hroom : asked v op ≤ n)
    (ho : Follows fallible (asked v op) g o) : Fitted o.call.arena ty o.vec := by
  have hlen := ho.len_le
  have hfits := hv.len_le
  rw [hg.len_eq] at hlen
  refine ⟨?_,fun _ => ?_,fun _ => ?_⟩
  · rw [ho.cap_eq, hg.cap_eq]
    omega
  · rw [ho.call_eq, ho.ptr_eq]
    exact hg.base_le
  · rw [ho.call_eq, ho.ptr_eq, ho.cap_eq, hg.cap_eq]
    exact hg.end_eq

theorem fitted_stayed {A' : Arena} (hv : Fitted A ty v) (hbase : A'.curBase = A.curBase)
    (hptr : A'.curPtr = A.curPtr) : Fitted A' ty v :=
  ⟨hv.len_le,fun hcap => hbase ▸ hv.base_le hcap,fun hcap => hptr ▸ hv.end_eq hcap⟩

theorem oversize_goal (hsize : 0 < ty.size) {room : ℕ} (hbig : 2^64 ≤ room * ty.size)
    (hn : n = min room (2^64-1)) :
    2^63 < n * ty.size ∧ (n * ty.size < 2^64 → ty.align = 1 ∧ 2^64-1 ≤ n * ty.size) := by
  have hle : n ≤ n * ty.size := Nat.le_mul_of_pos_right _ hsize
  rcases Nat.lt_or_ge room (2^64) with hlt | hge
  · obtain rfl : n = room := by omega
    exact ⟨by omega,fun hsmall => by omega⟩
  · obtain rfl : n = 2^64-1 := by omega
    refine ⟨by omega,fun hsmall => ⟨?_,hle⟩⟩
    have hone : ty.size = 1 := by omega
    exact Nat.dvd_one.mp (hone ▸ ty.align_dvd)

theorem growsWell_roomy {op : VecOp} {g o : VecOutcome} (hwf : Wf g.call.arena)
    (hsize : 0 < ty.size) (hn : n = min (asked v op) (2^64-1)) (hg : Roomy A ty v n g)
    (ho : Follows op.fallible (asked v op) g o) (hfits : Fitted o.call.arena ty o.vec) :
    GrowsWell A ty v op o := by
  obtain ⟨hroom,hbytes⟩ := roomy_asked hwf hsize hg hn
  constructor
  · intro _
    refine ⟨housed_fitted (by rw [ho.call_eq]; exact hwf) hfits,?_,?_⟩
    · rw [ho.cap_eq, hg.cap_eq, hroom]
    · rw [ho.call_eq]
      exact hg.after
  · intro hbig
    rw [← hroom] at hbig
    omega

theorem growsWell_stayed {op : VecOp} {g o : VecOutcome} (hg : Stayed A v g)
    (ho : Follows op.fallible (asked v op) g o)
    (hreported : 2^64 ≤ asked v op * ty.size → Reported op.fallible g.res) :
    GrowsWell A ty v op o := by
  obtain ⟨hvec,hres⟩ := ho.stopped hg.grew
  have hgrew : o.grew = false := ho.grew_eq.trans hg.grew
  have hpos := position_eq hg.current_eq hg.base_eq hg.ptr_eq
  constructor
  · intro hyes
    exact nomatch hyes.symm.trans hgrew
  · intro hbig
    refine ⟨hgrew,?_,hvec.trans hg.vec_eq,?_,?_⟩
    · rcases hres with hsame | ⟨hfallible,hreturned⟩
      · rw [hsame]
        exact hreported hbig
      · rw [hfallible]
        exact Or.inl hreturned
    · rw [ho.call_eq]
      exact hpos
    · rw [ho.call_eq]
      exact hg.ptr_eq

/-- A method none of whose growth wraps keeps the invariant, leaves the buffer at the end of the
block, and does what it promises. -/
theorem apply_spec {w : World} (h : Inv w) (hs : Grants sys w.arena.blocks) (hsize : 0 < ty.size)
    (hv : Fitted w.arena ty v) {op : VecOp} (hop : op.Typed ty)
    (hstraight : Straight w.arena ty v op) :
    Inv (w.take (op.apply sys w.arena ty v).call) ∧
      Fitted (op.apply sys w.arena ty v).call.arena ty (op.apply sys w.arena ty v).vec ∧
        GrowsWell w.arena ty v op (op.apply sys w.arena ty v) := by
  have hcap := fitted_cap h.wf hsize hv
  obtain ⟨g,hphase,ho⟩ := apply_phase sys w.arena hsize hv.len_le hcap hop
  rcases hphase with ⟨n,hn,rfl⟩ | ⟨-,⟨hroom,rfl⟩ | ⟨hbig,rfl⟩⟩
  · obtain ⟨hmin,hlt⟩ := target_some hn
    have hgrew := growWith_grew h.wf hs hsize hv (show 0 < n by omega) op.fallible
    have hinv := inv_grew h hv hgrew (hstraight n hn)
    rw [ho.call_eq]
    rcases grew_cases h.wf hv hgrew (hstraight n hn) with hroomy | hstayed
    · have hroom := (roomy_asked hinv.wf hsize hroomy hmin).1
      have hfits := fitted_roomy hv hlt hroomy hroom.ge ho
      have hwell := growsWell_roomy hinv.wf hsize hmin hroomy ho hfits
      rw [ho.call_eq] at hfits
      exact ⟨hinv,hfits,hwell⟩
    · have hwell : GrowsWell w.arena ty v op (op.apply sys w.arena ty v) := by
        apply growsWell_stayed hstayed ho
        intro hbig
        exact grew_reported h.wf hgrew hstayed.grew (oversize_goal hsize hbig hmin).2
      rw [(ho.stopped hstayed.grew).1, hstayed.vec_eq]
      exact ⟨hinv,fitted_stayed hv hstayed.base_eq hstayed.ptr_eq,hwell⟩
  · have hlen := ho.len_le
    have hfits : Fitted w.arena ty (op.apply sys w.arena ty v).vec := by
      refine ⟨?_,fun hpos => ?_,fun hpos => ?_⟩
      · rw [ho.cap_eq]
        have hle := hv.len_le
        change _ ≤ max v.len _ at hlen
        change _ ≤ v.cap
        omega
      · rw [ho.cap_eq] at hpos
        rw [ho.ptr_eq]
        exact hv.base_le hpos
      · rw [ho.cap_eq] at hpos ⊢
        rw [ho.ptr_eq]
        exact hv.end_eq hpos
    have hbytes := fitted_bytes h.wf hv
    have hmul : asked v op * ty.size ≤ v.cap * ty.size := Nat.mul_le_mul_right _ hroom
    rw [ho.call_eq]
    refine ⟨inv_take_unmoved h _ _ (unmoved_refl h.wf),hfits,⟨fun _ => ⟨?_,?_,?_⟩,fun hbig => ?_⟩⟩
    · rw [ho.call_eq]
      exact housed_fitted h.wf hfits
    · rw [ho.cap_eq]
      exact hroom
    · rw [ho.call_eq]
      exact le_refl _
    · omega
  · have hstayed : Stayed w.arena v (refuse v w.arena (overflowRes op.fallible)) :=
      ⟨rfl,rfl,rfl,rfl,rfl⟩
    have hwell : GrowsWell w.arena ty v op (op.apply sys w.arena ty v) :=
      growsWell_stayed hstayed ho (fun _ => overflowRes_reported _)
    rw [ho.call_eq, (ho.stopped rfl).1]
    exact ⟨inv_take_unmoved h _ _ (unmoved_refl h.wf),hv,hwell⟩

/-- A growth that wraps is reported as done and moves the bump pointer to the wrapped end. -/
theorem wrapped_apply (h : Wf A) (hsize : 0 < ty.size) (hv : Fitted A ty v) {op : VecOp}
    (hop : op.Typed ty) (hn : target v op = some n) (hwraps : Wraps A ty v n) :
    (op.apply sys A ty v).grew = true ∧
      (op.apply sys A ty v).call = extendInPlace A ((v.ptr + n * ty.size) % 2^64) ∧
        (op.apply sys A ty v).vec.ptr = v.ptr ∧ (op.apply sys A ty v).vec.cap = n := by
  obtain ⟨hcap,hlt,-,-,hroom⟩ := hwraps
  have hgrow : growWith op.fallible sys A ty v n =
      ⟨{ v with cap := n },extendInPlace A ((v.ptr + n * ty.size) % 2^64),.ok,true⟩ := by
    unfold growWith
    rw [if_neg (by omega), extendedEnd_eq h hv n, if_pos ⟨hcap,hlt,hroom⟩]
  obtain ⟨g,hphase,ho⟩ := apply_phase sys A hsize hv.len_le (fitted_cap h hsize hv) hop
  rcases hphase with ⟨m,hm,rfl⟩ | ⟨hnone,-⟩
  · obtain rfl := Option.some.inj (hn.symm.trans hm)
    rw [hgrow] at ho
    exact ⟨ho.grew_eq,ho.call_eq,ho.ptr_eq,ho.cap_eq⟩
  · exact nomatch hn.symm.trans hnone

theorem not_growsWell (h : Wf A) (hsize : 0 < ty.size) (hv : Fitted A ty v) {op : VecOp}
    (hop : op.Typed ty) (hn : target v op = some n) (hwraps : Wraps A ty v n) :
    ¬ GrowsWell A ty v op (op.apply sys A ty v) := by
  intro hwell
  obtain ⟨hgrew,hcall,hptr,hcap⟩ := @wrapped_apply sys A ty v n h hsize hv op hop hn hwraps
  obtain ⟨-,hlt,-,hbig,-⟩ := hwraps
  have hpos : 0 < (op.apply sys A ty v).vec.cap := by
    rw [hcap]
    exact Nat.zero_lt_of_lt hlt
  obtain ⟨i,hi,hwithin,-⟩ := (hwell.grown hgrew).1 hpos
  rw [hcall] at hi hwithin
  have htop : (A.blocks.get i).base + (A.blocks.get i).capacity ≤ 2^63 :=
    (h.laid.placed i hi).below_top
  have hend : (op.apply sys A ty v).vec.ptr + (op.apply sys A ty v).vec.cap * ty.size ≤
    (A.blocks.get i).base + (A.blocks.get i).capacity := hwithin.2
  rw [hptr, hcap] at hend
  omega

theorem writing_call (g : VecOutcome) (newLen : ℕ) (unwinds : Option String) :
    (writing g newLen unwinds).call = g.call :=
  (writing_follows false (le_refl newLen) g unwinds).call_eq

def ByGrowth (sys : SystemAlloc) (A : Arena) (ty : Ty) (v : ArenaVec) (o : Outcome) : Prop :=
  o = answer A .none 0 ∨ ∃ fallible n, o = (growWith fallible sys A ty v n).call

def beyond (v : ArenaVec) (room : Option ℕ) : Option ℕ := room.filter (v.cap < ·)

def grownTo (ty : Ty) (v : ArenaVec) : VecOp → Option ℕ
  | .push => if v.len = v.cap then doubled v else none
  | .tryPush => if v.len = v.cap then doubled v else none
  | .reserve n => beyond v (some (saturatingAdd v.len n))
  | .reserveExact n => beyond v (checkedAdd v.len n)
  | .tryReserve n => beyond v (some (saturatingAdd v.len n))
  | .tryReserveExact n => beyond v (checkedAdd v.len n)
  | .extendExact n _ => if n = 0 ∨ ty.size = 0 then none else beyond v (checkedAdd v.len n)
  | .extendFromSlice n => if n = 0 ∨ ty.size = 0 then none else beyond v (checkedAdd v.len n)
  | .resize n _ => if n > v.len then beyond v (some n) else none
  | _ => none

def growing (fallible : Bool) (sys : SystemAlloc) (A : Arena) (ty : Ty) (v : ArenaVec) :
    Option ℕ → Outcome
  | none => answer A .none 0
  | some n => (growWith fallible sys A ty v n).call

theorem beyond_call (fallible : Bool) (room : ℕ) :
    (if room > v.cap then growWith fallible sys A ty v room else enough v A).call =
      growing fallible sys A ty v (beyond v (some room)) := by
  unfold beyond
  simp only [Option.filter_some, decide_eq_true_eq]
  by_cases hroom : v.cap < room
  · rw [if_pos hroom, if_pos hroom]
    rfl
  · rw [if_neg hroom, if_neg hroom]
    rfl

theorem growOnce_call (fallible : Bool) :
    (if v.len = v.cap then growOnceWith sys A ty v fallible else enough v A).call =
      growing fallible sys A ty v (if v.len = v.cap then doubled v else none) := by
  by_cases hfull : v.len = v.cap
  · rw [if_pos hfull, if_pos hfull]
    unfold growOnceWith
    cases doubled v <;> rfl
  · rw [if_neg hfull, if_neg hfull]
    rfl

theorem reserveExact_call (fallible : Bool) (n : ℕ) :
    (reserveExactWith sys A ty v fallible n).call =
      growing fallible sys A ty v (beyond v (checkedAdd v.len n)) := by
  unfold reserveExactWith
  cases checkedAdd v.len n with
  | none => rfl
  | some room => exact beyond_call fallible room

theorem extend_call (n : ℕ) (unwinds : Option String) : (extendWith sys A ty v n unwinds).call =
    growing false sys A ty v
      (if n = 0 ∨ ty.size = 0 then none else beyond v (checkedAdd v.len n)) := by
  unfold extendWith
  by_cases hn : n = 0
  · rw [if_pos hn, if_pos (Or.inl hn)]
    rfl
  · rw [if_neg hn]
    cases hsum : checkedAdd v.len n with
    | none => exact (ite_self _ ▸ rfl)
    | some room =>
      dsimp only
      rw [writing_call]
      by_cases hsize : ty.size = 0
      · rw [if_pos (Or.inr hsize), if_neg (fun hh => absurd hsize (Nat.ne_of_gt hh.1))]
        rfl
      · have hpos : 0 < ty.size := Nat.pos_of_ne_zero hsize
        rw [if_neg (not_or.mpr ⟨hn,hsize⟩), ← beyond_call]
        simp only [gt_iff_lt, hpos, true_and]
        rfl

theorem apply_call (op : VecOp) :
    (op.apply sys A ty v).call = growing op.fallible sys A ty v (grownTo ty v op) := by
  cases op with
  | push => exact (writing_call _ _ _).trans (growOnce_call false)
  | tryPush =>
    refine Eq.trans ?_ (growOnce_call true)
    change (tryPush sys A ty v).call = _
    unfold tryPush
    dsimp only
    split
    · rfl
    · exact writing_call _ _ _
  | reserve n => exact beyond_call false _
  | reserveExact n => exact reserveExact_call false n
  | tryReserve n => exact beyond_call true _
  | tryReserveExact n => exact reserveExact_call true n
  | extendExact n yields => exact extend_call n _
  | extendFromSlice n => exact extend_call n none
  | resize n unwinds =>
    change (resize sys A ty v n unwinds).call =
      growing false sys A ty v (if n > v.len then beyond v (some n) else none)
    unfold resize
    split
    · exact (writing_call _ _ _).trans (beyond_call false n)
    · rfl
  | truncate n => rfl
  | pop => rfl
  | clear => rfl

theorem byGrowth_apply (op : VecOp) : ByGrowth sys A ty v (op.apply sys A ty v).call := by
  rw [apply_call]
  cases grownTo ty v op with
  | none => exact Or.inl rfl
  | some n => exact Or.inr ⟨_,n,rfl⟩

theorem zero_call (hsize : ty.size = 0) (op : VecOp) :
    (op.apply sys A ty v).call = answer A .none 0 := by
  rcases @byGrowth_apply sys A ty v op with hstill | ⟨fallible,n,hgrown⟩
  · exact hstill
  · rw [hgrown, growWith, if_pos hsize]
    rfl

end growth

structure Session where
  world : World
  vec : Option (Ty × ArenaVec)

inductive Call where
  | arena (op : Op)
  | new (ty : Ty)
  | withCapacity (sys : SystemAlloc) (ty : Ty) (cap : ℕ)
  | vec (sys : SystemAlloc) (op : VecOp)
  | close

-- The arena is not used while a vector borrows it: such a call is no call.
def Session.step (s : Session) : Call → Session
  | .arena op =>
    match s.vec with
    | none => ⟨s.world.step op,none⟩
    | some open' => ⟨s.world.tick,some open'⟩
  | .new ty =>
    match s.vec with
    | none => ⟨s.world.tick,some (ty,GrowableVec.new ty)⟩
    | some open' => ⟨s.world.tick,some open'⟩
  | .withCapacity sys ty cap =>
    match s.vec with
    | none =>
      let o := GrowableVec.withCapacity sys s.world.arena ty cap
      ⟨s.world.take o.call,if o.res = .ok then some (ty,o.vec) else none⟩
    | some open' => ⟨s.world.tick,some open'⟩
  | .vec sys op =>
    match s.vec with
    | none => ⟨s.world.tick,none⟩
    | some (ty,v) =>
      let o := op.apply sys s.world.arena ty v
      ⟨s.world.take o.call,some (ty,o.vec)⟩
  | .close => ⟨s.world.tick,none⟩

def Session.Honest (s : Session) : Call → Prop
  | .arena op => ArenaWorld.Honest s.world op
  | .withCapacity sys _ cap => Grants sys s.world.arena.blocks ∧ cap < 2^64
  | .vec sys op => Grants sys s.world.arena.blocks ∧ ∀ ty v, s.vec = some (ty,v) → op.Typed ty
  | _ => True

def Session.Straight (s : Session) : Call → Prop
  | .vec _ op => ∀ ty v, s.vec = some (ty,v) → 0 < ty.size → VecGrowth.Straight s.world.arena ty v op
  | _ => True

def Session.Proper (s : Session) (c : Call) : Prop := s.Honest c ∧ s.Straight c

def Session.Reached (ok : Session → Call → Prop) (s : Session) : Prop :=
  ∃ sys feature initialBytes A calls, Grants sys (InlineVec.new : Blocks) ∧
    Arena.withCapacity sys feature initialBytes = some A ∧
    Along Session.step ok ⟨World.start A,none⟩ calls ∧
      s = run Session.step ⟨World.start A,none⟩ calls

structure Session.Inv (s : Session) : Prop where
  world : ArenaWorld.Inv s.world
  fitted : ∀ ty v, s.vec = some (ty,v) → 0 < ty.size → Fitted s.world.arena ty v

theorem fitted_new (A : Arena) (ty : Ty) : Fitted A ty (GrowableVec.new ty) :=
  ⟨le_refl _,fun hcap => absurd hcap (Nat.lt_irrefl 0),fun hcap => absurd hcap (Nat.lt_irrefl 0)⟩

section sessions
variable {s : Session}

theorem withCapacity_spec {w : World} (h : ArenaWorld.Inv w) {sys : SystemAlloc}
    (hs : Grants sys w.arena.blocks) (ty : Ty) (cap : ℕ) :
    ArenaWorld.Inv (w.take (GrowableVec.withCapacity sys w.arena ty cap).call) ∧
      (0 < ty.size → Fitted (GrowableVec.withCapacity sys w.arena ty cap).call.arena ty
        (GrowableVec.withCapacity sys w.arena ty cap).vec) := by
  unfold GrowableVec.withCapacity
  by_cases hgrow : cap > 0 ∧ ty.size > 0
  · rw [if_pos hgrow]
    have hempty := fitted_new w.arena ty
    have hno : ¬ Wraps w.arena ty (GrowableVec.new ty) cap := fun hh => Nat.lt_irrefl 0 hh.1
    have hgrew : Grew false sys w.arena ty (GrowableVec.new ty) cap
        (growTo sys w.arena ty (GrowableVec.new ty) cap) :=
      growWith_grew h.wf hs hgrow.2 hempty hgrow.1 false
    refine ⟨inv_grew h hempty hgrew hno,fun _ => ?_⟩
    rcases grew_cases h.wf hempty hgrew hno with hroomy | hstayed
    · refine ⟨?_,fun _ => hroomy.base_le,fun _ => ?_⟩
      · rw [hroomy.len_eq]
        exact Nat.zero_le _
      · rw [hroomy.cap_eq]
        exact hroomy.end_eq
    · rw [hstayed.vec_eq]
      exact fitted_new _ ty
  · rw [if_neg hgrow]
    split
    · exact ⟨inv_take_unmoved h _ _ (unmoved_refl h.wf),fun hsize => by omega⟩
    · exact ⟨inv_take_unmoved h _ _ (unmoved_refl h.wf),fun _ => fitted_new _ ty⟩

theorem session_tick (h : s.Inv) : Session.Inv ⟨s.world.tick,s.vec⟩ :=
  ⟨inv_tick h.world,h.fitted⟩

theorem session_step (h : s.Inv) {c : Call} (hc : s.Honest c) (hstraight : s.Straight c) :
    (s.step c).Inv := by
  obtain ⟨w,opened⟩ := s
  cases opened with
  | none =>
    cases c with
    | arena op => exact ⟨inv_step h.world hc,nofun⟩
    | new ty =>
      refine ⟨inv_tick h.world,?_⟩
      rintro ty' v hv -
      obtain ⟨rfl,rfl⟩ := Prod.mk.inj (Option.some.inj hv)
      exact fitted_new _ _
    | withCapacity sys ty cap =>
      obtain ⟨hinv,hfits⟩ := withCapacity_spec h.world hc.1 ty cap
      refine ⟨hinv,?_⟩
      intro ty' v hv hsize
      obtain ⟨-,hsome⟩ := Option.ite_none_right_eq_some.mp hv
      obtain ⟨rfl,rfl⟩ := Prod.mk.inj (Option.some.inj hsome)
      exact hfits hsize
    | vec sys op => exact ⟨inv_tick h.world,nofun⟩
    | close => exact ⟨inv_tick h.world,nofun⟩
  | some held =>
    obtain ⟨ty,v⟩ := held
    cases c with
    | arena op => exact session_tick h
    | new ty' => exact session_tick h
    | withCapacity sys ty' cap => exact session_tick h
    | vec sys op =>
      rcases Nat.eq_zero_or_pos ty.size with hzero | hsize
      · refine ⟨?_,?_⟩
        · change ArenaWorld.Inv (w.take (op.apply sys w.arena ty v).call)
          rw [zero_call hzero]
          exact inv_take_unmoved h.world _ _ (unmoved_refl h.world.wf)
        · intro ty' v' hv hsize
          obtain ⟨rfl,-⟩ := Prod.mk.inj (Option.some.inj hv)
          omega
      · obtain ⟨hinv,hfits,-⟩ := apply_spec h.world hc.1 hsize (h.fitted ty v rfl hsize)
          (hc.2 ty v rfl) (hstraight ty v rfl hsize)
        refine ⟨hinv,?_⟩
        intro ty' v' hv _
        obtain ⟨rfl,rfl⟩ := Prod.mk.inj (Option.some.inj hv)
        exact hfits
    | close => exact ⟨inv_tick h.world,nofun⟩

theorem session_reached (h : s.Reached Session.Proper) : s.Inv := by
  obtain ⟨sys,feature,initialBytes,A,calls,hs,hA,halong,rfl⟩ := h
  obtain ⟨hwf,-,-,-,-,hregistry⟩ := wf_withCapacity hs hA
  apply run_invariant Session.step Session.Proper Session.Inv
    (fun s c hinv hc => session_step hinv hc.1 hc.2) _ calls _ halong
  exact ⟨inv_start hwf (by rw [hregistry, DropRegistry.entries_new]),nofun⟩

/-- A method on a vector that has grown straight so far does what it promises if and only if none
of its own growth wraps. -/
theorem growth_iff (h : s.Reached Session.Proper) {ty : Ty} {v : ArenaVec}
    (hv : s.vec = some (ty,v)) (hsize : 0 < ty.size) {sys : SystemAlloc}
    (hs : Grants sys s.world.arena.blocks) {op : VecOp} (hop : op.Typed ty) :
    GrowsWell s.world.arena ty v op (op.apply sys s.world.arena ty v) ↔
      Straight s.world.arena ty v op := by
  have hinv := session_reached h
  have hfits := hinv.fitted ty v hv hsize
  constructor
  · intro hwell n hn hwraps
    exact not_growsWell hinv.world.wf hsize hfits hop hn hwraps hwell
  · intro hstraight
    exact (apply_spec hinv.world hs hsize hfits hop hstraight).2.2

end sessions

theorem session_small {ok : Session → Call → Prop} {feature : Bool} {capacity : ℕ} {A : Arena}
    (hcap : capacity ≤ 2^62) (hA : smallArena feature capacity = some A) (calls : List Call)
    (h : Along Session.step ok ⟨World.start A,none⟩ calls) :
    Session.Reached ok (run Session.step ⟨World.start A,none⟩ calls) :=
  ⟨_,feature,capacity,A,calls,grants_small hcap,hA,h,rfl⟩

def oneByte : Ty := ⟨1,1,false,powerOfTwo_one,by norm_num,by norm_num⟩

def pushedCalls : List Call := [.new oneByte,.vec noMemory .push]

theorem honest_push {s : Session} : s.Honest (.vec noMemory .push) :=
  ⟨grants_noMemory _,fun _ _ _ => trivial⟩

theorem straight_push {w : World} : Session.Straight ⟨w,some (oneByte,GrowableVec.new oneByte)⟩
    (.vec noMemory .push) := by
  intro ty v hv _ n _ hwraps
  obtain ⟨-,rfl⟩ := Prod.mk.inj (Option.some.inj hv)
  exact Nat.lt_irrefl 0 hwraps.1

theorem pushed_vec {A : Arena} (hA : smallArena true 64 = some A) :
    (run Session.step ⟨World.start A,none⟩ pushedCalls).vec = some (oneByte,⟨4096,1,4⟩) := by
  cases hA
  rfl

theorem growth_iff_pushed : ∃ A, smallArena true 64 = some A ∧
    ∃ s, s = run Session.step ⟨World.start A,none⟩ pushedCalls ∧
      GrowsWell s.world.arena oneByte ⟨4096,1,4⟩ (.reserve 9)
        (VecOp.apply noMemory s.world.arena oneByte ⟨4096,1,4⟩ (.reserve 9)) := by
  obtain ⟨A,hA⟩ : ∃ A, smallArena true 64 = some A := ⟨_,rfl⟩
  have hreached : Session.Reached Session.Proper
      (run Session.step ⟨World.start A,none⟩ pushedCalls) :=
    session_small (by norm_num) hA pushedCalls
      ⟨⟨trivial,trivial⟩,⟨honest_push,straight_push⟩,trivial⟩
  have htyped : (VecOp.reserve 9).Typed oneByte := show 9 < 2^64 by norm_num
  refine ⟨A,hA,_,rfl,(growth_iff hreached (pushed_vec hA) (by decide) (grants_noMemory _)
    htyped).mpr ?_⟩
  rintro n hn ⟨-,-,-,hbig,-⟩
  have hgoal : n = min (1+9) (2^64-1) := (target_some hn).1
  change 2^64 ≤ 4096 + n*1 at hbig
  omega

/-- Asked for a word's worth of elements more, the vector reports success: its buffer runs to the
end of the address space and the bump pointer is below its block. -/
theorem buffer_past_memory : ∃ (s : Session) (v : ArenaVec),
    s.Reached Session.Honest ∧ s.vec = some (oneByte,v) ∧
    ∃ o, o = VecOp.apply noMemory s.world.arena oneByte v (.tryReserve (2^64-1)) ∧ o.res = .ok ∧
      o.vec.cap = 2^64-1 ∧ o.call.arena.curPtr < s.world.arena.curBase ∧
        ¬ GrowsWell s.world.arena oneByte v (.tryReserve (2^64-1)) o := by
  obtain ⟨A,hA⟩ : ∃ A, smallArena true 64 = some A := ⟨_,rfl⟩
  have hreached : Session.Reached Session.Honest
      (run Session.step ⟨World.start A,none⟩ pushedCalls) :=
    session_small (by norm_num) hA pushedCalls ⟨trivial,honest_push,trivial⟩
  have hgrew : (VecOp.apply noMemory
      (run Session.step ⟨World.start A,none⟩ pushedCalls).world.arena oneByte ⟨4096,1,4⟩
      (.tryReserve (2^64-1))).grew = true := by
    cases hA
    decide +kernel
  refine ⟨_,_,hreached,pushed_vec hA,_,rfl,?_,?_,?_,fun hwell => ?_⟩
  · cases hA
    decide +kernel
  · cases hA
    decide +kernel
  · cases hA
    decide +kernel
  · have hasked : 2^64 ≤ asked ⟨4096,1,4⟩ (.tryReserve (2^64-1)) * oneByte.size := by decide
    exact nomatch hgrew.symm.trans (hwell.refused hasked).1

end FastArena.VecGrowth
