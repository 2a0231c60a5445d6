import FastArena.TypedMemory

/-!
# Objects in one memory

Objects lie in one memory, each in a span of its own. A store says what is
known of their cells and knows no address: a cell changes when its own object is
written to. While no two objects share a byte, memory bears the store out.
-/

set_option autoImplicit false

namespace FastArena.ObjectStore
open FastArena.ByteSpan FastArena.TypedMemory

variable {κ β : Type*}

structure Object (κ : Type*) where
  key : κ
  span : Span

abbrev Store (κ β : Type*) := κ → ℕ → Option β

/-- What is known of a listed object is what memory holds where the object lies. -/
def Holds (objs : List (Object κ)) (S : Store κ β) (m : ℕ → β) : Prop :=
  ∀ o ∈ objs, ∀ i < o.span.size, ∀ x, S o.key i = some x → m (o.span.start + i) = x

def fill (s : Span) (f : ℕ → Option β) (m : ℕ → β) : ℕ → β :=
  fun b => if s.start ≤ b ∧ b < s.start + s.size then (f (b - s.start)).getD (m b) else m b

def Spread (objs : List (Object κ)) : Prop :=
  objs.Pairwise (fun a b => a.key ≠ b.key ∧ a.span.Apart b.span)

section memory
variable {s t : Span} {f : ℕ → Option β} {m m' : ℕ → β}

theorem fill_at {i : ℕ} (hi : i < s.size) : fill s f m (s.start + i) = (f i).getD (m (s.start + i)) := by
  rw [fill, if_pos ⟨Nat.le_add_right _ _,Nat.add_lt_add_left hi _⟩, Nat.add_sub_cancel_left]

theorem fill_empty (a : ℕ) : fill ⟨a,0⟩ f m = m := by
  funext b
  exact if_neg (fun hb => Nat.not_lt.mpr hb.1 hb.2)

theorem same_fill (h : s.Apart t) : Same s m (fill t f m) :=
  fun b hb => if_neg (h b hb)

theorem fill_short {a k n : ℕ} (hk : k ≤ n) (hf : ∀ i, k ≤ i → f i = none) :
    fill ⟨a,k⟩ f m = fill ⟨a,n⟩ f m := by
  funext b
  unfold fill
  dsimp only
  by_cases hin : a ≤ b ∧ b < a+k
  · rw [if_pos hin, if_pos (by omega)]
  · rw [if_neg hin]
    split
    · next hout =>
      rw [hf (b-a) (by omega)]
      rfl
    · rfl

theorem fill_congr {g : ℕ → Option β} (h : ∀ i < s.size, f i = g i) : fill s f m = fill s g m := by
  funext b
  unfold fill
  split
  · next hb => rw [h _ (by omega)]
  · rfl

end memory

section holds
variable {objs objs' : List (Object κ)} {S : Store κ β} {m m' : ℕ → β}

theorem holds_nil (S : Store κ β) (m : ℕ → β) : Holds [] S m :=
  fun _ ho => absurd ho List.not_mem_nil

theorem holds_subset (h : Holds objs S m) (hsub : ∀ o ∈ objs', o ∈ objs) : Holds objs' S m :=
  fun o ho => h o (hsub o ho)

theorem holds_same (h : Holds objs S m) (hsame : ∀ o ∈ objs, Same o.span m m') :
    Holds objs S m' := by
  intro o ho i hi x hx
  rw [hsame o ho (o.span.start + i) ⟨Nat.le_add_right _ _,Nat.add_lt_add_left hi _⟩]
  exact h o ho i hi x hx

theorem spread_of_ne (hspread : Spread objs) {a b : Object κ} (ha : a ∈ objs) (hb : b ∈ objs)
    (hne : a ≠ b) : a.key ≠ b.key ∧ a.span.Apart b.span := by
  have hsymm : Std.Symm (fun a b : Object κ => a.key ≠ b.key ∧ a.span.Apart b.span) :=
    ⟨fun _ _ hab => ⟨hab.1.symm,apart_symm hab.2⟩⟩
  exact hspread.forall ha hb hne

section keyed
variable [DecidableEq κ]

def put (S : Store κ β) (key : κ) (i : ℕ) (x : β) : Store κ β :=
  Function.update S key (Function.update (S key) i (some x))

theorem holds_create (h : Holds objs S m) {new : Object κ} (f : ℕ → Option β)
    (hspread : Spread (new::objs)) :
    Holds (new::objs) (Function.update S new.key f) (fill new.span f m) := by
  obtain ⟨hnew,-⟩ := List.pairwise_cons.mp hspread
  intro o ho i hi x hx
  rcases List.mem_cons.mp ho with rfl | hold
  · rw [Function.update_self] at hx
    rw [fill_at hi, hx]
    rfl
  · obtain ⟨hkey,hapart⟩ := hnew o hold
    rw [Function.update_of_ne hkey.symm] at hx
    rw [same_fill (m := m) (f := f) (apart_symm hapart) (o.span.start + i)
      ⟨Nat.le_add_right _ _,Nat.add_lt_add_left hi _⟩]
    exact h o hold i hi x hx

/-- Writing to one object leaves the cells of every other alone. -/
theorem holds_put (h : Holds objs S m) (hspread : Spread objs) {o : Object κ} (ho : o ∈ objs)
    {i : ℕ} (hi : i < o.span.size) (x : β) :
    Holds objs (put S o.key i x) (Function.update m (o.span.start + i) x) := by
  have hin : o.span.Has (o.span.start + i) :=
    ⟨Nat.le_add_right _ _,Nat.add_lt_add_left hi _⟩
  intro o' ho' j hj y hy
  have hin' : o'.span.Has (o'.span.start + j) :=
    ⟨Nat.le_add_right _ _,Nat.add_lt_add_left hj _⟩
  by_cases hsame : o' = o
  · subst hsame
    rw [put, Function.update_self] at hy
    by_cases hji : j = i
    · subst hji
      rw [Function.update_self] at hy ⊢
      exact Option.some.inj hy
    · rw [Function.update_of_ne hji] at hy
      rw [Function.update_of_ne (by omega)]
      exact h o' ho' j hj y hy
  · obtain ⟨hkey,hapart⟩ := spread_of_ne hspread ho' ho hsame
    rw [put, Function.update_of_ne hkey] at hy
    have hne : o'.span.start + j ≠ o.span.start + i := fun heq => hapart _ hin' (heq ▸ hin)
    rw [Function.update_of_ne hne]
    exact h o' ho' j hj y hy

end keyed
end holds
end FastArena.ObjectStore
