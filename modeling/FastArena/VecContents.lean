import FastArena.RegionSafety
import FastArena.TypedMemory
import FastArena.VecGrowth

/-!
# The elements of a vector in memory

The vector's methods with the elements they write, read and copy, beside an
ordinary list to which the same is done. Growth in place leaves the elements
where they are, a move copies them; what is written goes behind them. Each
method ends in one of three ways, and what it writes fits the room it asks for.
-/

set_option autoImplicit false

namespace FastArena.VecContents
open FastArena.MachineWord FastArena.ByteSpan FastArena.ArenaBlock FastArena.InlineStorage
  FastArena.ArenaCore FastArena.ArenaInvariant FastArena.RawRequest FastArena.ArenaRequests
  FastArena.LabelledRun FastArena.ArenaWorld FastArena.RegionSafety FastArena.TypedMemory
  FastArena.GrowableVec FastArena.VecGrowth

/-- The methods with the elements they are given. An iterator reports `addLen` elements and yields
`xs`; the calls of `clone` return `clones`, in this order, before one panics. -/
inductive ElemOp (α : Type*) where
  | push (x : α)
  | tryPush (x : α)
  | pop
  | clear
  | truncate (len : ℕ)
  | reserve (additional : ℕ)
  | reserveExact (additional : ℕ)
  | tryReserve (additional : ℕ)
  | tryReserveExact (additional : ℕ)
  | extendExact (addLen : ℕ) (xs : List α)
  | extendFromSlice (xs : List α)
  | resize (newLen : ℕ) (clones : List α)

structure ElemOutcome (α β : Type*) where
  out : VecOutcome
  mem : ℕ → β
  gives : Option α

namespace ElemOp
variable {α β : Type*}

def vecOp (v : ArenaVec) : ElemOp α → VecOp
  | .push _ => .push
  | .tryPush _ => .tryPush
  | .pop => .pop
  | .clear => .clear
  | .truncate len => .truncate len
  | .reserve n => .reserve n
  | .reserveExact n => .reserveExact n
  | .tryReserve n => .tryReserve n
  | .tryReserveExact n => .tryReserveExact n
  | .extendExact addLen xs => .extendExact addLen xs.length
  | .extendFromSlice xs => .extendFromSlice xs.length
  | .resize newLen clones =>
    .resize newLen (if clones.length < newLen - v.len then some clonePanic else none)

def written (v : ArenaVec) : ElemOp α → List α
  | .push x => [x]
  | .tryPush x => [x]
  | .extendExact addLen xs => xs.take addLen
  | .extendFromSlice xs => xs
  | .resize newLen clones => clones.take (newLen - v.len)
  | _ => []

def relocated (ty : Ty) (v v' : ArenaVec) (m : ℕ → β) : ℕ → β :=
  if v'.ptr = v.ptr then m else copy m v.ptr v'.ptr (v.len * ty.size)

def handsBack {ty : Ty} (c : Codec ty.size α β) (v : ArenaVec) (m : ℕ → β) (res : VecRes) :
    ElemOp α → Option α
  | .pop => if v.len = 0 then none else some (load c m (v.ptr + (v.len-1) * ty.size))
  | .tryPush x => if res = .returned then some x else none
  | _ => none

def apply {ty : Ty} (c : Codec ty.size α β) (sys : SystemAlloc) (A : Arena) (v : ArenaVec)
    (m : ℕ → β) (op : ElemOp α) : ElemOutcome α β :=
  let o := (op.vecOp v).apply sys A ty v
  ⟨o,
    if o.grew then
      stores c (relocated ty v o.vec m) (o.vec.ptr + v.len * ty.size) (op.written v)
    else m,
    op.handsBack c v m o.res⟩

def onList : ElemOp α → List α → List α
  | .push x, l => l ++ [x]
  | .tryPush x, l => l ++ [x]
  | .pop, l => l.dropLast
  | .clear, _ => []
  | .truncate len, l => l.take len
  | .extendExact addLen xs, l => l ++ xs.take addLen
  | .extendFromSlice xs, l => l ++ xs
  | .resize newLen clones, l =>
    if newLen > l.length then l ++ clones.take (newLen - l.length) else l.take newLen
  | _, l => l

end ElemOp

def indexMut {α β : Type*} {ty : Ty} (c : Codec ty.size α β) (v : ArenaVec) (m : ℕ → β) (i : ℕ)
    (x : α) : VecRes × (ℕ → β) :=
  if i < v.len then (.ok,store c m (v.ptr + i * ty.size) x)
  else (.panic s!"index {i} out of bounds (len={v.len})",m)

def asSlice (v : ArenaVec) : ℕ × ℕ := (v.ptr,v.len)

def finish (v : ArenaVec) : ℕ × ℕ := (v.ptr,v.len)

structure IntoIter where
  inner : ArenaVec
  start : ℕ

def intoIter (v : ArenaVec) : IntoIter := ⟨v,0⟩

section memory
variable {α β : Type*} {ty : Ty} (c : Codec ty.size α β)

def elements (m : ℕ → β) (s : ℕ × ℕ) : List α := loads c m s.1 s.2

def next (m : ℕ → β) (it : IntoIter) : Option α × IntoIter :=
  if it.start ≥ it.inner.len then (none,it)
  else (some (load c m (it.inner.ptr + it.start * ty.size)),{ it with start := it.start+1 })

def nexts (m : ℕ → β) : ℕ → IntoIter → List (Option α)
  | 0, _ => []
  | n+1, it => (next c m it).1 :: nexts m n (next c m it).2

end memory

structure Bench (α β : Type*) where
  world : World
  vec : ArenaVec
  mem : ℕ → β
  list : List α

section bench
variable {α β : Type*} {ty : Ty} (c : Codec ty.size α β)

def Bench.method (b : Bench α β) (sys : SystemAlloc) (op : ElemOp α) : Bench α β :=
  let o := op.apply c sys b.world.arena b.vec b.mem
  ⟨b.world.take o.out.call,o.out.vec,o.mem,
    if o.out.res = .ok then op.onList b.list else b.list⟩

def Bench.assign (b : Bench α β) (i : ℕ) (x : α) : Bench α β :=
  let o := indexMut c b.vec b.mem i x
  { b with mem := o.2, list := if o.1 = .ok then b.list.set i x else b.list }

def Bench.extend (b : Bench α β) : List (SystemAlloc × α) → Bench α β
  | [] => b
  | (sys,x)::items =>
    if (ElemOp.apply c sys b.world.arena b.vec b.mem (.push x)).out.res = .ok then
      (b.method c sys (.push x)).extend items
    else b.method c sys (.push x)

inductive ElemCall (α : Type*) where
  | method (sys : SystemAlloc) (op : ElemOp α)
  | assign (i : ℕ) (x : α)
  | extend (items : List (SystemAlloc × α))

def Bench.step (b : Bench α β) : ElemCall α → Bench α β
  | .method sys op => b.method c sys op
  | .assign i x => b.assign c i x
  | .extend items => b.extend c items

end bench

def ElemOp.Small {α : Type*} (ty : Ty) (v : ArenaVec) : ElemOp α → Prop
  | .reserve n => (v.len+n) * ty.size < 2^63
  | .reserveExact n => (v.len+n) * ty.size < 2^63
  | .tryReserve n => (v.len+n) * ty.size < 2^63
  | .tryReserveExact n => (v.len+n) * ty.size < 2^63
  | .extendExact addLen _ => (v.len+addLen) * ty.size < 2^63
  | .resize newLen _ => newLen * ty.size < 2^63
  | _ => True

section runs
variable {α β : Type*} {ty : Ty} (c : Codec ty.size α β)

def Bench.Honest (ty : Ty) (b : Bench α β) (sys : SystemAlloc) (op : ElemOp α) : Prop :=
  Grants sys b.world.arena.blocks ∧ (op.vecOp b.vec).Typed ty ∧ op.Small ty b.vec

def Bench.ExtendHonest (b : Bench α β) : List (SystemAlloc × α) → Prop
  | [] => True
  | (sys,x)::items => Grants sys b.world.arena.blocks ∧
    ((ElemOp.apply c sys b.world.arena b.vec b.mem (.push x)).out.res = .ok →
      (b.method c sys (.push x)).ExtendHonest items)

def Bench.Proper (b : Bench α β) : ElemCall α → Prop
  | .method sys op => b.Honest ty sys op
  | .assign _ _ => True
  | .extend items => b.ExtendHonest c items

end runs

def ElemOp.newLen {α : Type*} (v : ArenaVec) : ElemOp α → ℕ
  | .push _ => v.len+1
  | .tryPush _ => v.len+1
  | .pop => v.len-1
  | .clear => 0
  | .truncate len => min len v.len
  | .extendExact addLen _ => v.len+addLen
  | .extendFromSlice xs => v.len+xs.length
  | .resize newLen _ => newLen
  | _ => v.len

def ElemOp.unwinds {α : Type*} (v : ArenaVec) : ElemOp α → Option String
  | .extendExact addLen xs => if xs.length < addLen then some unwrapPanic else none
  | .resize newLen clones => if clones.length < newLen - v.len then some clonePanic else none
  | _ => none

def Plain (v : ArenaVec) (g : VecOutcome) : Prop :=
  (g.grew = true ∧ g.res = .ok ∧ g.vec.len = v.len) ∨ (g.grew = false ∧ g.res ≠ .ok ∧ g.vec = v)

def Ends (v : ArenaVec) (newLen : ℕ) (unwinds : Option String) (o : VecOutcome) : Prop :=
  (o.grew = true ∧ unwinds = none ∧ o.res = .ok ∧ o.vec.len = newLen) ∨
    (o.grew = true ∧ unwinds ≠ none ∧ o.res ≠ .ok ∧ o.vec.len = v.len) ∨
      (o.grew = false ∧ o.res ≠ .ok ∧ o.vec = v)

section ends
variable {sys : SystemAlloc} {A : Arena} {ty : Ty} {v : ArenaVec}

theorem plain_enough (v : ArenaVec) (A : Arena) : Plain v (enough v A) := Or.inl ⟨rfl,rfl,rfl⟩

theorem plain_overflow (v : ArenaVec) (A : Arena) (fallible : Bool) :
    Plain v (refuse v A (overflowRes fallible)) := by
  refine Or.inr ⟨rfl,?_,rfl⟩
  cases fallible <;> nofun

theorem plain_growWith (fallible : Bool) (n : ℕ) : Plain v (growWith fallible sys A ty v n) := by
  rcases @growWith_ends sys A ty v n fallible _ rfl with ⟨hgrew,hres,hlen,-⟩ | hstop
  · exact Or.inl ⟨hgrew,hres,hlen⟩
  · exact Or.inr hstop

theorem plain_growOnce (fallible : Bool) : Plain v (growOnceWith sys A ty v fallible) := by
  unfold growOnceWith
  split
  · exact plain_overflow v A fallible
  · exact plain_growWith fallible _

theorem plain_if {g : VecOutcome} (h : Plain v g) (p : Prop) [Decidable p] :
    Plain v (if p then g else enough v A) := by
  split
  · exact h
  · exact plain_enough v A

theorem ends_plain {g : VecOutcome} (h : Plain v g) : Ends v v.len none g := by
  rcases h with ⟨hgrew,hres,hlen⟩ | hstop
  · exact Or.inl ⟨hgrew,rfl,hres,hlen⟩
  · exact Or.inr (Or.inr hstop)

theorem ends_writing {g : VecOutcome} (h : Plain v g) (newLen : ℕ) (unwinds : Option String) :
    Ends v newLen unwinds (writing g newLen unwinds) := by
  unfold writing
  rcases h with ⟨hgrew,hres,hlen⟩ | ⟨hgrew,hres,hvec⟩
  · rw [if_pos hgrew]
    cases unwinds with
    | none => exact Or.inl ⟨hgrew,rfl,hres,rfl⟩
    | some message => exact Or.inr (Or.inl ⟨hgrew,nofun,nofun,hlen⟩)
  · rw [hgrew, if_neg Bool.false_ne_true]
    exact Or.inr (Or.inr ⟨hgrew,hres,hvec⟩)

theorem ends_extend (n : ℕ) {unwinds : Option String} (hnone : n = 0 → unwinds = none) :
    Ends v (v.len+n) unwinds (extendWith sys A ty v n unwinds) := by
  unfold extendWith
  by_cases hn : n = 0
  · rw [if_pos hn, hnone hn, hn]
    exact ends_plain (plain_enough v A)
  · rw [if_neg hn]
    cases hadd : checkedAdd v.len n with
    | none =>
      rcases plain_overflow v A false with ⟨hgrew,-⟩ | hstop
      · cases hgrew
      · exact Or.inr (Or.inr hstop)
    | some newLen =>
      obtain ⟨rfl,-⟩ := checkedAdd_some hadd
      exact ends_writing (plain_if (plain_growWith false _) _) _ _

theorem ends_tryPush {g : VecOutcome} (h : Plain v g) (newLen : ℕ) :
    Ends v newLen none (match g.res with
      | .err _ => { g with res := .returned }
      | _ => writing g newLen none) := by
  cases hres : g.res with
  | err e =>
    rcases h with ⟨-,hok,-⟩ | ⟨hgrew,-,hvec⟩
    · exact nomatch hres.symm.trans hok
    · exact Or.inr (Or.inr ⟨hgrew,nofun,hvec⟩)
  | ok => exact ends_writing h newLen none
  | returned => exact ends_writing h newLen none
  | panic message => exact ends_writing h newLen none

theorem ends_resize {n : ℕ} {unwinds : Option String} (hnone : n ≤ v.len → unwinds = none) :
    Ends v n unwinds (resize sys A ty v n unwinds) := by
  unfold resize
  by_cases hlonger : n > v.len
  · rw [if_pos hlonger]
    exact ends_writing (plain_if (plain_growWith false n) _) n unwinds
  · rw [if_neg hlonger, hnone (by omega)]
    unfold truncate
    split
    · exact Or.inl ⟨rfl,rfl,rfl,rfl⟩
    · exact Or.inl ⟨rfl,rfl,rfl,by change v.len = n; omega⟩

/-- How each method ends. -/
theorem apply_ends {α : Type*} (hlen : v.len < 2^64-1) (op : ElemOp α) :
    Ends v (op.newLen v) (op.unwinds v) ((op.vecOp v).apply sys A ty v) := by
  have hadd : wadd v.len 1 = v.len+1 := wadd_eq (by omega)
  cases op with
  | push x =>
    change Ends v (v.len+1) none (GrowableVec.push sys A ty v)
    unfold GrowableVec.push
    rw [hadd]
    exact ends_writing (plain_if (plain_growOnce false) _) _ none
  | tryPush x =>
    change Ends v (v.len+1) none (GrowableVec.tryPush sys A ty v)
    unfold GrowableVec.tryPush
    rw [hadd]
    exact ends_tryPush (plain_if (plain_growOnce true) _) _
  | pop =>
    change Ends v (v.len-1) none (GrowableVec.pop A v)
    unfold GrowableVec.pop
    split
    · exact Or.inl ⟨rfl,rfl,rfl,by change v.len = v.len-1; omega⟩
    · exact Or.inl ⟨rfl,rfl,rfl,rfl⟩
  | clear => exact Or.inl ⟨rfl,rfl,rfl,rfl⟩
  | truncate len =>
    change Ends v (min len v.len) none (GrowableVec.truncate A v len)
    unfold GrowableVec.truncate
    split
    · exact Or.inl ⟨rfl,rfl,rfl,by change len = min len v.len; omega⟩
    · exact Or.inl ⟨rfl,rfl,rfl,by change v.len = min len v.len; omega⟩
  | reserve n => exact ends_plain (plain_if (plain_growWith false _) _)
  | reserveExact n =>
    change Ends v v.len none (GrowableVec.reserveExactWith sys A ty v false n)
    unfold reserveExactWith
    split
    · exact ends_plain (plain_overflow v A false)
    · exact ends_plain (plain_if (plain_growWith false _) _)
  | tryReserve n => exact ends_plain (plain_if (plain_growWith true _) _)
  | tryReserveExact n =>
    change Ends v v.len none (GrowableVec.reserveExactWith sys A ty v true n)
    unfold reserveExactWith
    split
    · exact ends_plain (plain_overflow v A true)
    · exact ends_plain (plain_if (plain_growWith true _) _)
  | extendExact n xs =>
    exact ends_extend n (fun hn => if_neg (by omega))
  | extendFromSlice xs => exact ends_extend xs.length (fun _ => rfl)
  | resize n clones =>
    refine ends_resize (fun hle => if_neg ?_)
    change n ≤ v.len at hle
    omega

end ends

section lists
variable {α : Type*} {v : ArenaVec}

theorem onList_eq (op : ElemOp α) {l : List α} (hl : l.length = v.len) :
    op.onList l = l.take (op.newLen v) ++ op.written v := by
  have hall : ∀ k, v.len ≤ k → l.take k = l := fun k hk => List.take_of_length_le (by omega)
  cases op with
  | push x => exact (congrArg (· ++ [x]) (hall _ (Nat.le_succ _))).symm
  | tryPush x => exact (congrArg (· ++ [x]) (hall _ (Nat.le_succ _))).symm
  | pop =>
    change l.dropLast = l.take (v.len-1) ++ []
    rw [List.append_nil, List.dropLast_eq_take, hl]
  | clear => rfl
  | truncate len =>
    change l.take len = l.take (min len v.len) ++ []
    rw [List.append_nil, ← hl, ← List.take_take, List.take_length]
  | extendExact n xs =>
    exact (congrArg (· ++ xs.take n) (hall _ (Nat.le_add_right _ _))).symm
  | extendFromSlice xs => exact (congrArg (· ++ xs) (hall _ (Nat.le_add_right _ _))).symm
  | resize n clones =>
    change (if n > l.length then l ++ clones.take (n - l.length) else l.take n) =
      l.take n ++ clones.take (n - v.len)
    rw [hl]
    split
    · rw [hall n (by omega)]
    · rw [Nat.sub_eq_zero_of_le (by omega), List.take_zero, List.append_nil]
  | _ => exact ((List.append_nil _).trans (hall _ (le_refl _))).symm

theorem written_length (op : ElemOp α) (h : op.unwinds v = none) :
    op.newLen v = v.len + (op.written v).length ∨
      op.newLen v ≤ v.len ∧ op.written v = [] := by
  cases op with
  | push x => exact Or.inl rfl
  | tryPush x => exact Or.inl rfl
  | pop => exact Or.inr ⟨Nat.sub_le _ _,rfl⟩
  | clear => exact Or.inr ⟨Nat.zero_le _,rfl⟩
  | truncate len => exact Or.inr ⟨min_le_right _ _,rfl⟩
  | extendExact n xs =>
    have hyields : ¬ xs.length < n := fun hlt => nomatch (if_pos hlt).symm.trans h
    left
    change v.len+n = v.len + (xs.take n).length
    rw [List.length_take]
    omega
  | extendFromSlice xs => exact Or.inl rfl
  | resize n clones =>
    have hclones : ¬ clones.length < n - v.len := fun hlt => nomatch (if_pos hlt).symm.trans h
    change n = v.len + (clones.take (n - v.len)).length ∨ n ≤ v.len ∧ clones.take (n - v.len) = []
    rw [List.length_take]
    rcases Nat.lt_or_ge v.len n with hlt | hge
    · left
      omega
    · right
      exact ⟨hge,by rw [Nat.sub_eq_zero_of_le hge, List.take_zero]⟩
  | _ => exact Or.inr ⟨le_refl _,rfl⟩

theorem written_room (op : ElemOp α) {cap : ℕ} (hlen : v.len ≤ cap)
    (hasked : asked v (op.vecOp v) ≤ cap) : v.len + (op.written v).length ≤ cap := by
  cases op with
  | push x => exact full_le.trans hasked
  | tryPush x => exact full_le.trans hasked
  | extendExact n xs =>
    change v.len + (xs.take n).length ≤ cap
    change v.len+n ≤ cap at hasked
    rw [List.length_take]
    omega
  | extendFromSlice xs => exact hasked
  | resize n clones =>
    change v.len + (clones.take (n - v.len)).length ≤ cap
    change n ≤ cap at hasked
    rw [List.length_take]
    omega
  | _ => exact hlen

end lists

section writes
variable {α β : Type*} {ty : Ty} {c : Codec ty.size α β} {v v' : ArenaVec} {m : ℕ → β}

theorem loads_relocated (c : Codec ty.size α β) (m : ℕ → β) :
    loads c (ElemOp.relocated ty v v' m) v'.ptr v.len = loads c m v.ptr v.len := by
  unfold ElemOp.relocated
  split
  · next heq => rw [heq]
  · exact loads_copy c m v.ptr v'.ptr v.len

theorem loads_behind (m : ℕ → β) (p len : ℕ) (xs : List α) :
    loads c (stores c m (p + len * ty.size) xs) p len = loads c m p len :=
  loads_same (same_stores (apart_of_le (le_refl _)) m)

theorem loads_written (m : ℕ → β) (p len newLen : ℕ) (xs : List α)
    (h : newLen = len + xs.length ∨ newLen ≤ len ∧ xs = []) :
    loads c (stores c m (p + len * ty.size) xs) p newLen =
      (loads c m p len).take newLen ++ xs := by
  rcases h with rfl | ⟨hle,rfl⟩
  · rw [loads_append, loads_behind, loads_stores]
    rw [List.take_of_length_le (by rw [length_loads]; exact Nat.le_add_right _ _)]
  · rw [List.append_nil]
    exact (loads_take c m p hle).symm

theorem same_written {s : Span} {cap : ℕ} (hs : s.Apart ⟨v'.ptr,cap * ty.size⟩) {xs : List α}
    (hroom : v.len + xs.length ≤ cap) (m : ℕ → β) :
    Same s m (stores c (ElemOp.relocated ty v v' m) (v'.ptr + v.len * ty.size) xs) := by
  have hmul : (v.len + xs.length) * ty.size ≤ cap * ty.size := Nat.mul_le_mul_right _ hroom
  rw [Nat.add_mul] at hmul
  have hold : (⟨v'.ptr,v.len * ty.size⟩ : Span).Within ⟨v'.ptr,cap * ty.size⟩ :=
    ⟨le_refl _,by dsimp only; omega⟩
  have hnew : (⟨v'.ptr + v.len * ty.size,xs.length * ty.size⟩ : Span).Within
      ⟨v'.ptr,cap * ty.size⟩ := ⟨Nat.le_add_right _ _,by dsimp only; omega⟩
  have hcopied : Same s m (ElemOp.relocated ty v v' m) := by
    unfold ElemOp.relocated
    split
    · exact same_refl s m
    · exact same_copy (apart_within hs hold) m
  exact same_trans hcopied (same_stores (apart_within hs hnew) _)

end writes

end FastArena.VecContents
