import FastArena.ByteSpan
import Mathlib.Data.List.Perm.Basic

/-!
# Traces of a system heap

A system heap is seen through the calls made on it: chunks acquired and chunks
released, each with its address and layout, and layouts that were asked for in
vain. A trace is good if every release is of a chunk that is outstanding, at that
address and with that layout; what is outstanding at its end has been acquired
and not released.
-/

set_option autoImplicit false

namespace FastArena.SystemHeap
open FastArena.ByteSpan

structure Chunk where
  base : ℕ
  size : ℕ
  align : ℕ
  deriving DecidableEq, Repr

def Chunk.span (c : Chunk) : Span := ⟨c.base,c.size⟩

inductive Event where
  | acquire (c : Chunk)
  | release (c : Chunk)
  | decline (size align : ℕ)
  deriving DecidableEq, Repr

def Event.asked : Event → Option (ℕ × ℕ)
  | .acquire c => some (c.size,c.align)
  | .release _ => none
  | .decline size align => some (size,align)

def play : List Chunk → List Event → Option (List Chunk)
  | cs, [] => some cs
  | cs, .acquire c :: es => play (c::cs) es
  | cs, .release c :: es => if c ∈ cs then play (cs.erase c) es else none
  | cs, .decline _ _ :: es => play cs es

def Settles (cs : List Chunk) (es : List Event) (cs' : List Chunk) : Prop :=
  ∃ left, play cs es = some left ∧ left.Perm cs'

/-- The order in which chunks are outstanding does not matter. -/
theorem play_perm {cs cs' : List Chunk} (h : cs.Perm cs') (es : List Event) :
    (play cs es = none ∧ play cs' es = none) ∨
      ∃ left left', play cs es = some left ∧ play cs' es = some left' ∧ left.Perm left' := by
  induction es generalizing cs cs' with
  | nil => exact Or.inr ⟨cs,cs',rfl,rfl,h⟩
  | cons e es ih =>
    cases e with
    | acquire c => exact ih (h.cons c)
    | release c =>
      unfold play
      by_cases hc : c ∈ cs
      · rw [if_pos hc, if_pos (h.mem_iff.mp hc)]
        exact ih (h.erase c)
      · rw [if_neg hc, if_neg (fun hc' => hc (h.mem_iff.mpr hc'))]
        exact Or.inl ⟨rfl,rfl⟩
    | decline size align => exact ih h

theorem play_append (cs : List Chunk) (es rest : List Event) :
    play cs (es++rest) = (play cs es).bind (fun left => play left rest) := by
  induction es generalizing cs with
  | nil => rfl
  | cons e es ih =>
    cases e with
    | acquire c => exact ih (c::cs)
    | release c =>
      rw [List.cons_append, play, play]
      split
      · exact ih (cs.erase c)
      · rfl
    | decline size align => exact ih cs

section settles
variable {cs cs' cs'' : List Chunk} {es rest : List Event}

theorem settles_nil (cs : List Chunk) : Settles cs [] cs := ⟨cs,rfl,List.Perm.refl cs⟩

theorem settles_perm (h : Settles cs es cs') (hperm : cs'.Perm cs'') : Settles cs es cs'' := by
  obtain ⟨left,hplay,hleft⟩ := h
  exact ⟨left,hplay,hleft.trans hperm⟩

theorem settles_from (hperm : cs.Perm cs') (h : Settles cs' es cs'') : Settles cs es cs'' := by
  obtain ⟨left,hplay,hleft⟩ := h
  rcases play_perm hperm es with ⟨-,hnone⟩ | ⟨left',left'',hplay',hplay'',hsame⟩
  · exact nomatch hplay.symm.trans hnone
  · obtain rfl := Option.some.inj (hplay.symm.trans hplay'')
    exact ⟨left',hplay',hsame.trans hleft⟩

theorem settles_append (h : Settles cs es cs') (h' : Settles cs' rest cs'') :
    Settles cs (es++rest) cs'' := by
  obtain ⟨left,hplay,hleft⟩ := h
  obtain ⟨left',hplay',hleft'⟩ := settles_from hleft h'
  exact ⟨left',by rw [play_append, hplay]; exact hplay',hleft'⟩

theorem settles_acquire (c : Chunk) (cs : List Chunk) : Settles cs [.acquire c] (c::cs) :=
  ⟨c::cs,rfl,List.Perm.refl _⟩

theorem settles_release (c : Chunk) (cs : List Chunk) : Settles (c::cs) [.release c] cs := by
  refine ⟨cs,?_,List.Perm.refl cs⟩
  rw [play, if_pos List.mem_cons_self, List.erase_cons_head]
  rfl

theorem settles_decline (size align : ℕ) (cs : List Chunk) : Settles cs [.decline size align] cs :=
  ⟨cs,rfl,List.Perm.refl cs⟩

def Declines (es : List Event) : Prop := ∀ e ∈ es, ∃ size align, e = .decline size align

theorem declines_append (h : Declines es) (hrest : Declines rest) : Declines (es++rest) :=
  fun e he => (List.mem_append.mp he).elim (h e) (hrest e)

theorem declines_decline (size align : ℕ) : Declines [.decline size align] :=
  fun _ he => ⟨size,align,List.mem_singleton.mp he⟩

theorem settles_declines (h : Declines es) (cs : List Chunk) : Settles cs es cs := by
  induction es with
  | nil => exact settles_nil cs
  | cons e es ih =>
    obtain ⟨size,align,rfl⟩ := h e List.mem_cons_self
    exact settles_append (settles_decline size align cs)
      (ih (fun e he => h e (List.mem_cons_of_mem _ he)))

theorem settles_releases (ds cs : List Chunk) : Settles (ds++cs) (ds.map .release) cs := by
  induction ds with
  | nil => exact settles_nil cs
  | cons d ds ih => exact settles_append (settles_release d (ds++cs)) ih

end settles
end FastArena.SystemHeap
