import FastArena.ByteSpan

/-!
# Typed access to bytes

Memory gives a byte for each address. A codec fixes how values of a type lie in
a number of bytes; with it values are loaded and stored, one or many in a row,
and whole ranges are copied. A range that is not written reads as before.
-/

set_option autoImplicit false

namespace FastArena.TypedMemory
open FastArena.ByteSpan

/-- Values as rows of `size` bytes, whatever a byte is. -/
structure Codec (size : ℕ) (α β : Type*) where
  bytes : α → Fin size → β
  value : (Fin size → β) → α
  value_bytes : ∀ x, value (bytes x) = x

variable {α β : Type*} {size : ℕ}

def load (c : Codec size α β) (m : ℕ → β) (a : ℕ) : α := c.value (fun k => m (a+k))

def store (c : Codec size α β) (m : ℕ → β) (a : ℕ) (x : α) : ℕ → β :=
  fun b => if h : a ≤ b ∧ b < a+size then c.bytes x ⟨b-a,by omega⟩ else m b

def copy (m : ℕ → β) (src dst n : ℕ) : ℕ → β :=
  fun b => if dst ≤ b ∧ b < dst+n then m (src+(b-dst)) else m b

def loads (c : Codec size α β) (m : ℕ → β) (a n : ℕ) : List α :=
  (List.range n).map (fun i => load c m (a + i*size))

def stores (c : Codec size α β) : (ℕ → β) → ℕ → List α → ℕ → β
  | m, _, [] => m
  | m, a, x::xs => stores c (store c m a x) (a+size) xs

def Same (s : Span) (m m' : ℕ → β) : Prop := ∀ b, s.Has b → m' b = m b

section same
variable {s t : Span} {m m' m'' : ℕ → β}

theorem same_refl (s : Span) (m : ℕ → β) : Same s m m := fun _ _ => rfl

theorem same_trans (h : Same s m m') (h' : Same s m' m'') : Same s m m'' :=
  fun b hb => (h' b hb).trans (h b hb)

theorem same_within (h : Same t m m') (hs : s.Within t) : Same s m m' :=
  fun b hb => h b (within_has hs hb)

end same

variable {c : Codec size α β} {m m' : ℕ → β} {a : ℕ}

theorem load_same (h : Same ⟨a,size⟩ m m') : load c m' a = load c m a := by
  apply congrArg c.value
  funext k
  exact h _ ⟨Nat.le_add_right _ _,Nat.add_lt_add_left k.isLt a⟩

theorem load_store (m : ℕ → β) (a : ℕ) (x : α) : load c (store c m a x) a = x := by
  have hbytes : (fun k : Fin size => store c m a x (a+k)) = c.bytes x := by
    funext k
    have hin : a ≤ a+k.val ∧ a+k.val < a+size := by omega
    rw [store, dif_pos hin]
    congr
    omega
  rw [load, hbytes, c.value_bytes]

theorem same_store {s : Span} (h : s.Apart ⟨a,size⟩) (m : ℕ → β) (x : α) :
    Same s m (store c m a x) :=
  fun b hb => dif_neg (h b hb)

theorem same_copy {s : Span} {src dst n : ℕ} (h : s.Apart ⟨dst,n⟩) (m : ℕ → β) :
    Same s m (copy m src dst n) :=
  fun b hb => if_neg (h b hb)

theorem same_stores {s : Span} {xs : List α} (h : s.Apart ⟨a,xs.length*size⟩) (m : ℕ → β) :
    Same s m (stores c m a xs) := by
  induction xs generalizing a m with
  | nil => exact same_refl s m
  | cons x xs ih =>
    rw [List.length_cons, Nat.succ_mul] at h
    have hfirst : (⟨a,size⟩ : Span).Within ⟨a,xs.length*size+size⟩ :=
      ⟨le_refl _,by dsimp only; omega⟩
    have hrest : (⟨a+size,xs.length*size⟩ : Span).Within ⟨a,xs.length*size+size⟩ :=
      ⟨Nat.le_add_right _ _,by dsimp only; omega⟩
    exact same_trans (same_store (apart_within h hfirst) m x) (ih (apart_within h hrest) _)

@[simp] theorem length_loads (c : Codec size α β) (m : ℕ → β) (a n : ℕ) :
    (loads c m a n).length = n := by
  simp [loads]

theorem getElem?_loads (c : Codec size α β) (m : ℕ → β) (a n i : ℕ) :
    (loads c m a n)[i]? = if i < n then some (load c m (a + i*size)) else none := by
  by_cases hi : i < n <;> simp [loads, hi]

theorem loads_same {n : ℕ} (h : Same ⟨a,n*size⟩ m m') : loads c m' a n = loads c m a n := by
  apply List.map_congr_left
  intro i hi
  have hlt := List.mem_range.mp hi
  have hmul : (i+1)*size ≤ n*size := Nat.mul_le_mul_right _ hlt
  rw [Nat.succ_mul] at hmul
  exact load_same (same_within h ⟨Nat.le_add_right _ _,by dsimp only; omega⟩)

theorem loads_append (c : Codec size α β) (m : ℕ → β) (a n k : ℕ) :
    loads c m a (n+k) = loads c m a n ++ loads c m (a + n*size) k := by
  unfold loads
  rw [List.range_add, List.map_append, List.map_map]
  congr
  funext i
  dsimp only [Function.comp]
  rw [Nat.add_mul, Nat.add_assoc]

theorem loads_cons (c : Codec size α β) (m : ℕ → β) (a n : ℕ) :
    loads c m a (n+1) = load c m a :: loads c m (a+size) n := by
  rw [Nat.add_comm n 1, loads_append, Nat.one_mul]
  simp [loads]

theorem loads_stores (m : ℕ → β) (a : ℕ) (xs : List α) :
    loads c (stores c m a xs) a xs.length = xs := by
  induction xs generalizing a m with
  | nil => rfl
  | cons x xs ih =>
    have hfirst : Same ⟨a,size⟩ (store c m a x) (stores c (store c m a x) (a+size) xs) :=
      same_stores (apart_of_le (le_refl _)) _
    rw [List.length_cons, loads_cons, stores, load_same hfirst, load_store, ih]

theorem loads_copy (c : Codec size α β) (m : ℕ → β) (src dst n : ℕ) :
    loads c (copy m src dst (n*size)) dst n = loads c m src n := by
  apply List.map_congr_left
  intro i hi
  have hlt := List.mem_range.mp hi
  have hmul : (i+1)*size ≤ n*size := Nat.mul_le_mul_right _ hlt
  rw [Nat.succ_mul] at hmul
  apply congrArg c.value
  funext k
  have hk := k.isLt
  rw [copy, if_pos (by omega)]
  congr 1
  omega

theorem loads_take (c : Codec size α β) (m : ℕ → β) (a : ℕ) {n k : ℕ} (h : k ≤ n) :
    (loads c m a n).take k = loads c m a k := by
  unfold loads
  rw [← List.map_take, List.take_range, min_eq_left h]

/-- Storing in a row of values sets one of them. -/
theorem loads_store {n i : ℕ} (hi : i < n) (m : ℕ → β) (x : α) :
    loads c (store c m (a + i*size) x) a n = (loads c m a n).set i x := by
  apply List.ext_getElem?
  intro j
  rw [getElem?_loads, List.getElem?_set, length_loads, getElem?_loads]
  by_cases hj : i = j
  · subst hj
    rw [if_pos hi, if_pos rfl, if_pos hi, load_store]
  · rw [if_neg hj]
    split
    · congr 1
      apply load_same
      apply same_store
      rcases Nat.lt_or_gt_of_ne hj with hlt | hgt
      · have hmul : (i+1)*size ≤ j*size := Nat.mul_le_mul_right _ hlt
        rw [Nat.succ_mul] at hmul
        exact apart_symm (apart_of_le (by dsimp only; omega))
      · have hmul : (j+1)*size ≤ i*size := Nat.mul_le_mul_right _ hgt
        rw [Nat.succ_mul] at hmul
        exact apart_of_le (by dsimp only; omega)
    · rfl

end FastArena.TypedMemory
