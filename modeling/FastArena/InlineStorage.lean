import Mathlib.Tactic

/-!
# Inline vectors

The first `N` elements live in an inline array; the next push promotes them to
a heap buffer, which doubles when full. Storage is an untagged union read
according to `onHeap`. The list's own heap buffer is taken to be granted when
it is asked for. Block list and drop registry both rest on this module.
-/

set_option autoImplicit false

namespace FastArena.InlineStorage

variable {α : Type}

/-- The union: an inline array or a heap buffer, each a row of cells that may be
uninitialised. The capacity of the buffer is its length. -/
inductive Storage (α : Type) where
  | inline (cells : List (Option α))
  | heap (cells : List (Option α))

def Storage.isHeap : Storage α → Bool
  | .inline _ => false
  | .heap _ => true

def Storage.cells : Storage α → List (Option α)
  | .inline cells => cells
  | .heap cells => cells

-- Reading the union as an array when it holds a buffer finds no cell, and conversely.
def Storage.asInline : Storage α → List (Option α)
  | .inline cells => cells
  | .heap _ => []

def Storage.asHeap : Storage α → List (Option α)
  | .inline _ => []
  | .heap cells => cells

structure RawVec (α : Type) where
  data : Storage α
  len : ℕ
  onHeap : Bool

namespace RawVec

def new (N : ℕ) : RawVec α := ⟨.inline (List.replicate N none),0,false⟩

def read (v : RawVec α) (i : ℕ) : Option α :=
  if v.onHeap then v.data.asHeap.getD i none else v.data.asInline.getD i none

def promoteAndPush (N : ℕ) (v : RawVec α) (a : α) : RawVec α :=
  let buffer := v.data.asInline.take N ++ List.replicate (2*N - N) none
  ⟨.heap (buffer.set v.len (some a)),v.len+1,true⟩

def heapGrow (v : RawVec α) : RawVec α :=
  let cap := v.data.asHeap.length
  { v with data := .heap (v.data.asHeap.take v.len ++ List.replicate (2*cap - v.len) none) }

def pushSlow (N : ℕ) (v : RawVec α) (a : α) : RawVec α :=
  if v.onHeap then
    let w := if v.len = v.data.asHeap.length then heapGrow v else v
    { w with data := .heap (w.data.asHeap.set w.len (some a)), len := w.len+1 }
  else promoteAndPush N v a

def push (N : ℕ) (v : RawVec α) (a : α) : RawVec α :=
  if v.onHeap = false ∧ v.len < N then
    { v with data := .inline (v.data.asInline.set v.len (some a)), len := v.len+1 }
  else pushSlow N v a

def pop (v : RawVec α) : Option α × RawVec α :=
  if v.len = 0 then (none,v) else (v.read (v.len-1),{ v with len := v.len-1 })

def modify (v : RawVec α) (i : ℕ) (f : α → α) : RawVec α :=
  if v.onHeap then { v with data := .heap (v.data.asHeap.set i ((v.read i).map f)) }
  else { v with data := .inline (v.data.asInline.set i ((v.read i).map f)) }

/-- The tag names the union's variant, the cells have room, the first `len` are initialised. -/
structure Wf (N : ℕ) (v : RawVec α) : Prop where
  tag : v.onHeap = v.data.isHeap
  inlineRoom : v.onHeap = false → v.data.cells.length = N
  heapRoom : v.onHeap = true → N < v.data.cells.length
  room : v.len ≤ v.data.cells.length
  init : ∀ i < v.len, (v.data.cells.getD i none).isSome = true

variable {N : ℕ} {v : RawVec α}

theorem read_cells (h : v.Wf N) (i : ℕ) : v.read i = v.data.cells.getD i none := by
  obtain ⟨data,len,onHeap⟩ := v
  have ht := h.tag
  cases data <;> simp_all [read, Storage.isHeap, Storage.cells, Storage.asInline, Storage.asHeap]

theorem new_wf (N : ℕ) : (new N : RawVec α).Wf N where
  tag := rfl
  inlineRoom := fun _ => by simp [new, Storage.cells]
  heapRoom := fun h => by simp [new] at h
  room := Nat.zero_le _
  init := fun i hi => absurd hi (Nat.not_lt_zero i)

theorem getD_set (cells : List (Option α)) (k i : ℕ) (x : Option α) (hk : k < cells.length) :
    (cells.set k x).getD i none = if i = k then x else cells.getD i none := by
  rw [List.getD_eq_getElem?_getD, List.getD_eq_getElem?_getD, List.getElem?_set]
  by_cases hik : i = k
  · subst hik
    simp [hk]
  · simp [hik, Ne.symm hik]

theorem getD_take_append (cells : List (Option α)) (n k i : ℕ) (hn : n ≤ cells.length) :
    (cells.take n ++ List.replicate k none).getD i none =
      if i < n then cells.getD i none else none := by
  rw [List.getD_eq_getElem?_getD, List.getD_eq_getElem?_getD]
  by_cases hi : i < n
  · rw [List.getElem?_append_left (by simp; omega), List.getElem?_take_of_lt hi, if_pos hi]
  · rw [List.getElem?_append_right (by simp; omega), if_neg hi]
    by_cases hik : i - (cells.take n).length < k
    · rw [List.getElem?_replicate_of_lt hik]
      rfl
    · rw [List.getElem?_eq_none (by simpa using Nat.le_of_not_lt hik)]
      rfl

theorem store_cells {cells : List (Option α)} {len : ℕ} (grown : List (Option α)) (a : α)
    (hroom : len < grown.length)
    (hkept : ∀ i < len, grown.getD i none = cells.getD i none)
    (hinit : ∀ i < len, (cells.getD i none).isSome = true) :
    (∀ i < len+1, ((grown.set len (some a)).getD i none).isSome = true) ∧
      ∀ i ≤ len, (grown.set len (some a)).getD i none =
        if i = len then some a else cells.getD i none := by
  have hread : ∀ i ≤ len, (grown.set len (some a)).getD i none =
      if i = len then some a else cells.getD i none := by
    intro i hi
    rw [getD_set grown len i _ hroom]
    split
    · rfl
    · exact hkept i (by omega)
  refine ⟨?_,hread⟩
  intro i hi
  rw [hread i (by omega)]
  split
  · rfl
  · exact hinit i (by omega)

theorem take_kept {cells : List (Option α)} {n k : ℕ} (hn : n ≤ cells.length) :
    ∀ i < n, (cells.take n ++ List.replicate k none).getD i none = cells.getD i none := by
  intro i hi
  rw [getD_take_append cells n k i hn, if_pos hi]

/-- What a push does to the cells, on each of its four paths. -/
theorem push_cells (h : v.Wf N) (hN : 0 < N) (a : α) :
    (v.push N a).Wf N ∧ (v.push N a).len = v.len+1 ∧
      ∀ i ≤ v.len, (v.push N a).data.cells.getD i none =
        if i = v.len then some a else v.data.cells.getD i none := by
  obtain ⟨data,len,onHeap⟩ := v
  obtain ⟨htag,hinline,hheap,hroom,hinit⟩ := h
  cases data with
  | inline cells =>
    cases htag
    have hcells : cells.length = N := hinline rfl
    simp only [Storage.cells] at hroom hinit
    by_cases hlt : len < N
    · obtain ⟨hsome,hread⟩ := store_cells cells a (by omega) (fun _ _ => rfl) hinit
      simp only [push, hlt, Storage.asInline, and_self, if_true]
      exact ⟨⟨rfl,fun _ => (by simpa [Storage.cells] using hcells),nofun,
        (by simp [Storage.cells]; omega),hsome⟩,trivial,hread⟩
    · -- promotion: the inline row is full and moves to a buffer of twice its size
      obtain rfl : len = N := by omega
      obtain ⟨hsome,hread⟩ := store_cells
        (cells.take len ++ List.replicate (2*len - len) none) a
        (by simp; omega) (take_kept hroom) hinit
      simp only [push, pushSlow, promoteAndPush, Storage.asInline, lt_self_iff_false, and_false,
        if_false, Bool.false_eq_true]
      exact ⟨⟨rfl,nofun,fun _ => (by simp [Storage.cells]; omega),
        (by simp [Storage.cells]; omega),hsome⟩,trivial,hread⟩
  | heap cells =>
    cases htag
    have hcap : N < cells.length := hheap rfl
    simp only [Storage.cells] at hroom hinit
    by_cases hfull : len = cells.length
    · obtain ⟨hsome,hread⟩ := store_cells
        (cells.take len ++ List.replicate (2*cells.length - len) none) a
        (by simp; omega) (take_kept hroom) hinit
      simp only [push, pushSlow, heapGrow, Storage.asHeap, Bool.true_eq_false, false_and, if_false,
        if_true, hfull] at hsome hread ⊢
      exact ⟨⟨rfl,nofun,fun _ => (by simp [Storage.cells]; omega),
        (by simp [Storage.cells]; omega),hsome⟩,trivial,hread⟩
    · obtain ⟨hsome,hread⟩ := store_cells cells a (by omega) (fun _ _ => rfl) hinit
      simp only [push, pushSlow, Storage.asHeap, Bool.true_eq_false, false_and, if_false, if_true,
        hfull]
      exact ⟨⟨rfl,nofun,fun _ => (by simpa [Storage.cells] using hcap),
        (by simp [Storage.cells]; omega),hsome⟩,trivial,hread⟩

theorem pop_wf (h : v.Wf N) : v.pop.2.Wf N := by
  unfold pop
  split
  · exact h
  · exact ⟨h.tag,h.inlineRoom,h.heapRoom,(Nat.sub_le _ _).trans h.room,
      fun i hi => h.init i (lt_of_lt_of_le hi (Nat.sub_le _ _))⟩

theorem pop_nonempty (h : v.len ≠ 0) : v.pop = (v.read (v.len-1),{ v with len := v.len-1 }) :=
  if_neg h

theorem modify_cells (h : v.Wf N) (i : ℕ) (f : α → α) :
    (v.modify i f).onHeap = v.onHeap ∧ (v.modify i f).data.isHeap = v.data.isHeap ∧
      (v.modify i f).data.cells = v.data.cells.set i ((v.data.cells.getD i none).map f) := by
  have hread := read_cells h i
  obtain ⟨data,len,onHeap⟩ := v
  have htag := h.tag
  cases data <;> cases htag <;>
    simp_all [modify, Storage.cells, Storage.isHeap, Storage.asInline, Storage.asHeap]

theorem modify_len (v : RawVec α) (i : ℕ) (f : α → α) : (v.modify i f).len = v.len := by
  unfold modify
  split <;> rfl

theorem modify_heap (h : v.Wf N) (i : ℕ) (f : α → α) : (v.modify i f).onHeap = v.onHeap ∧
    (v.modify i f).data.asHeap.length = v.data.asHeap.length := by
  unfold modify
  split
  · exact ⟨rfl,List.length_set⟩
  · next hinline =>
    have htag := h.tag
    refine ⟨rfl,?_⟩
    cases hdata : v.data with
    | inline cells => rfl
    | heap cells =>
      rw [hdata] at htag
      exact absurd htag hinline

theorem modify_wf (h : v.Wf N) (i : ℕ) (f : α → α) (hi : i < v.len) : (v.modify i f).Wf N := by
  obtain ⟨hflag,hvariant,hcells⟩ := modify_cells h i f
  refine ⟨by rw [hflag, hvariant]; exact h.tag,?_,?_,?_,?_⟩
  · intro hf
    rw [hcells, List.length_set]
    exact h.inlineRoom (by rwa [hflag] at hf)
  · intro hf
    rw [hcells, List.length_set]
    exact h.heapRoom (by rwa [hflag] at hf)
  · rw [hcells, List.length_set, modify_len]
    exact h.room
  · intro j hj
    rw [modify_len] at hj
    rw [hcells, getD_set _ i j _ (lt_of_lt_of_le hi h.room)]
    split
    · simpa using h.init i hi
    · exact h.init j hj

end RawVec

structure InlineVec (α : Type) (N : ℕ) where
  raw : RawVec α
  wf : raw.Wf N

namespace InlineVec

variable {N : ℕ}

def new : InlineVec α N := ⟨RawVec.new N,RawVec.new_wf N⟩

def len (v : InlineVec α N) : ℕ := v.raw.len

def push [NeZero N] (v : InlineVec α N) (a : α) : InlineVec α N :=
  ⟨v.raw.push N a,(RawVec.push_cells v.wf (NeZero.pos N) a).1⟩

def pop (v : InlineVec α N) : Option α × InlineVec α N :=
  (v.raw.pop.1,⟨v.raw.pop.2,RawVec.pop_wf v.wf⟩)

-- An unchecked read. Out of range it is undefined behaviour; the model answers a default.
def get [Inhabited α] (v : InlineVec α N) (i : ℕ) : α :=
  if i < v.len then (v.raw.read i).getD default else default

def modify (v : InlineVec α N) (i : ℕ) (f : α → α) : InlineVec α N :=
  if h : i < v.len then ⟨v.raw.modify i f,RawVec.modify_wf v.wf i f h⟩ else v

@[simp] theorem len_new : (new : InlineVec α N).len = 0 := rfl

@[simp] theorem len_push [NeZero N] (v : InlineVec α N) (a : α) : (v.push a).len = v.len+1 :=
  (RawVec.push_cells v.wf (NeZero.pos N) a).2.1

@[simp] theorem len_pop (v : InlineVec α N) : v.pop.2.len = v.len-1 := by
  unfold len pop RawVec.pop
  split
  · next h => simp [h]
  · rfl

@[simp] theorem len_modify (v : InlineVec α N) (i : ℕ) (f : α → α) :
    (v.modify i f).len = v.len := by
  unfold modify
  split
  · exact RawVec.modify_len _ _ _
  · rfl

variable [Inhabited α]

theorem get_beyond (v : InlineVec α N) {i : ℕ} (h : v.len ≤ i) : v.get i = default :=
  if_neg (by omega)

theorem get_cells (v : InlineVec α N) {i : ℕ} (h : i < v.len) :
    v.get i = (v.raw.data.cells.getD i none).getD default := by
  rw [get, if_pos h, RawVec.read_cells v.wf]

@[simp] theorem get_push [NeZero N] (v : InlineVec α N) (a : α) (i : ℕ) :
    (v.push a).get i = if i = v.len then a else v.get i := by
  obtain ⟨-,hlen,hcells⟩ := RawVec.push_cells v.wf (NeZero.pos N) a
  by_cases hi : i ≤ v.len
  · rw [get_cells _ (by rw [len_push]; omega)]
    change ((v.raw.push N a).data.cells.getD i none).getD default = _
    rw [hcells i hi]
    by_cases heq : i = v.len
    · simp [heq, len]
    · rw [if_neg heq, get_cells v (by omega), if_neg (by simpa [len] using heq)]
  · rw [get_beyond _ (by rw [len_push]; omega), get_beyond v (by omega), if_neg (by omega)]

@[simp] theorem get_modify (v : InlineVec α N) (i j : ℕ) (f : α → α) :
    (v.modify i f).get j = if j = i ∧ i < v.len then f (v.get i) else v.get j := by
  by_cases hi : i < v.len
  · by_cases hj : j < v.len
    · rw [get_cells _ (by simpa using hj), modify, dif_pos hi]
      change ((v.raw.modify i f).data.cells.getD j none).getD default = _
      rw [(RawVec.modify_cells v.wf i f).2.2,
        RawVec.getD_set _ i j _ (lt_of_lt_of_le hi v.wf.room)]
      by_cases hji : j = i
      · subst hji
        obtain ⟨a,ha⟩ := Option.isSome_iff_exists.mp (v.wf.init j hj)
        simp only [if_true, hj, and_self, get_cells v hj, ha, Option.map_some, Option.getD_some]
      · simp only [hji, if_false, false_and, get_cells v hj]
    · have hne : j ≠ i := by omega
      rw [if_neg (fun h => hne h.1), get_beyond v (by omega), get_beyond _ (by simpa using hj)]
  · simp [modify, hi]

theorem read_get (v : InlineVec α N) {i : ℕ} (h : i < v.len) : v.raw.read i = some (v.get i) := by
  obtain ⟨a,ha⟩ := Option.isSome_iff_exists.mp (v.wf.init i h)
  rw [get_cells v h, RawVec.read_cells v.wf, ha]
  rfl

theorem modify_congr (v : InlineVec α N) {i : ℕ} {f g : α → α} (h : f (v.get i) = g (v.get i)) :
    v.modify i f = v.modify i g := by
  by_cases hi : i < v.len
  · have hraw : v.raw.modify i f = v.raw.modify i g := by
      simp only [RawVec.modify, read_get v hi, Option.map_some, h]
    simp only [modify, hi, dif_pos, hraw]
  · simp only [modify, hi, dif_neg, not_false_iff]

theorem modify_modify (v : InlineVec α N) (i : ℕ) (f g : α → α) :
    (v.modify i f).modify i g = v.modify i (fun a => g (f a)) := by
  by_cases hi : i < v.len
  · have hi' : i < (v.modify i f).len := by rw [len_modify]; exact hi
    have hfirst : v.modify i f = ⟨v.raw.modify i f,RawVec.modify_wf v.wf i f hi⟩ := dif_pos hi
    have hread : (v.raw.modify i f).read i = some (f (v.get i)) := by
      have hget := read_get (v.modify i f) hi'
      rw [get_modify, if_pos ⟨rfl,hi⟩, hfirst] at hget
      exact hget
    have hraw : (v.raw.modify i f).modify i g = v.raw.modify i (fun a => g (f a)) := by
      have hold := read_get v hi
      unfold RawVec.modify at hread ⊢
      cases hheap : v.raw.onHeap <;>
        simp_all [Storage.asInline, Storage.asHeap, List.set_set]
    have hleft : (v.modify i f).modify i g =
        ⟨_,RawVec.modify_wf (v.modify i f).wf i g hi'⟩ := dif_pos hi'
    have hright : v.modify i (fun a => g (f a)) = ⟨_,RawVec.modify_wf v.wf i _ hi⟩ := dif_pos hi
    rw [hleft, hright]
    congr 1
    rw [hfirst]
    exact hraw
  · simp only [modify, hi, dif_neg, not_false_iff]

theorem pop_get (v : InlineVec α N) (h : 0 < v.len) : v.pop.1 = some (v.get (v.len-1)) := by
  change v.raw.pop.1 = _
  rw [RawVec.pop_nonempty (Nat.ne_of_gt h)]
  exact read_get v (Nat.sub_lt h Nat.one_pos)

theorem get_pop (v : InlineVec α N) (i : ℕ) (h : i < v.len-1) : v.pop.2.get i = v.get i := by
  rw [get_cells _ (by rwa [len_pop]), get_cells v (by omega)]
  unfold pop RawVec.pop
  split <;> rfl

def toList (v : InlineVec α N) : List α := (List.range v.len).map v.get

@[simp] theorem length_toList (v : InlineVec α N) : v.toList.length = v.len := by simp [toList]

@[simp] theorem toList_push [NeZero N] (v : InlineVec α N) (a : α) :
    (v.push a).toList = v.toList ++ [a] := by
  rw [toList, len_push, List.range_succ, List.map_append, List.map_singleton, get_push, if_pos rfl]
  congr 1
  apply List.map_congr_left
  intro i hi
  rw [get_push, if_neg (Nat.ne_of_lt (List.mem_range.mp hi))]

theorem toList_pop (v : InlineVec α N) (h : 0 < v.len) :
    v.toList = v.pop.2.toList ++ [v.get (v.len-1)] := by
  obtain ⟨n,hn⟩ : ∃ n, v.len = n+1 := ⟨v.len-1,by omega⟩
  have hpop : v.pop.2.len = n := by rw [len_pop, hn, Nat.add_sub_cancel]
  rw [toList, toList, hpop, hn, List.range_succ, List.map_append, List.map_singleton,
    Nat.add_sub_cancel]
  congr 1
  apply List.map_congr_left
  intro i hi
  rw [get_pop v i (by have := List.mem_range.mp hi; omega)]

end InlineVec
end FastArena.InlineStorage
