import FastArena.VecContents

/-!
# A vector is a list

No growth that stays within `isize::MAX` bytes wraps, so a vector's buffer is
the end of the arena: it grows over free bytes or moves to fresh ones. After
any calls its elements are those of a list to which the same was done, and what
was live when it was created holds the bytes it held.
-/

set_option autoImplicit false

namespace FastArena.VecRefinement
open FastArena.MachineWord FastArena.ByteSpan FastArena.ArenaBlock FastArena.InlineStorage
  FastArena.ArenaCore FastArena.ArenaInvariant FastArena.RawRequest FastArena.ArenaRequests
  FastArena.LabelledRun FastArena.ArenaWorld FastArena.RegionSafety FastArena.TypedMemory
  FastArena.GrowableVec FastArena.VecGrowth FastArena.VecContents

section straight
variable {α : Type*} {A : Arena} {ty : Ty} {v : ArenaVec}

theorem straight_of {op : VecOp}
    (h : 0 < v.cap → v.cap < asked v op → v.ptr + asked v op * ty.size < 2^64) :
    Straight A ty v op := by
  rintro n hn ⟨hcap,hlt,-,hbig,-⟩
  have hmin := (target_some hn).1
  have hle : n ≤ asked v op := by omega
  have hmul : n * ty.size ≤ asked v op * ty.size := Nat.mul_le_mul_right _ hle
  have hsmall := h hcap (by omega)
  omega

theorem straight_small (h : Wf A) (hsize : 0 < ty.size) (hv : Fitted A ty v) {op : ElemOp α}
    (hop : (op.vecOp v).Typed ty) (hsmall : op.Small ty v) : Straight A ty v (op.vecOp v) := by
  have htop : A.curEnd ≤ 2^63 := curEnd_le h
  have hptr := h.ptr_le
  have hnonnull := (current_placed h).nonnull
  rw [← h.base_eq] at hnonnull
  apply straight_of
  intro hcap hlt
  have hend := hv.end_eq hcap
  have hbase := hv.base_le hcap
  have hpos : 0 < v.cap * ty.size := Nat.mul_pos hcap hsize
  have hmove : ∀ n, n * ty.size < 2^63 → v.ptr + n * ty.size < 2^64 := fun n hn => by omega
  have hdouble : asked v .push * ty.size ≤ v.cap * ty.size + v.cap * ty.size := by
    have hfull : asked v .push ≤ v.cap+v.cap := by
      have hlen := hv.len_le
      change (if v.len = v.cap then (if v.cap = 0 then 4 else v.cap*2) else v.len+1) ≤ _
      split
      · rw [if_neg (by omega)]
        omega
      · omega
    rw [← Nat.add_mul]
    exact Nat.mul_le_mul_right _ hfull
  cases op with
  | push x =>
    change v.ptr + asked v .push * ty.size < 2^64
    omega
  | tryPush x =>
    change v.ptr + asked v .push * ty.size < 2^64
    omega
  | pop => exact absurd hlt (Nat.not_lt_zero _)
  | clear => exact absurd hlt (Nat.not_lt_zero _)
  | truncate len => exact absurd hlt (Nat.not_lt_zero _)
  | extendFromSlice xs =>
    have hlen : v.len * ty.size ≤ v.cap * ty.size := Nat.mul_le_mul_right _ hv.len_le
    have hbytes : xs.length * ty.size < 2^63 := hop.2
    change v.ptr + (v.len + xs.length) * ty.size < 2^64
    rw [Nat.add_mul]
    omega
  | reserve n => exact hmove _ hsmall
  | reserveExact n => exact hmove _ hsmall
  | tryReserve n => exact hmove _ hsmall
  | tryReserveExact n => exact hmove _ hsmall
  | extendExact n xs => exact hmove _ hsmall
  | resize n clones => exact hmove _ hsmall

end straight

structure Moved (A : Arena) (v : ArenaVec) (o : VecOutcome) : Prop where
  cap_le : v.cap ≤ o.vec.cap
  after : position A ≤ position o.call.arena
  buffer : (o.vec.ptr = v.ptr ∧ (0 < o.vec.cap → 0 < v.cap) ∧
      o.call.arena.current = A.current ∧ o.call.arena.curBase = A.curBase) ∨
    position A ≤ toLex (o.call.arena.current,o.vec.ptr - o.call.arena.curBase) ∧
      Grown A.blocks o.call.arena.blocks

section moved
variable {sys : SystemAlloc} {A : Arena} {ty : Ty} {v : ArenaVec} {fallible : Bool}

theorem moved_stayed {g : VecOutcome} (hg : Stayed A v g) : Moved A v g := by
  refine ⟨?_,(position_eq hg.current_eq hg.base_eq hg.ptr_eq).ge,Or.inl ⟨?_,?_,?_,?_⟩⟩
  · rw [hg.vec_eq]
  · rw [hg.vec_eq]
  · rw [hg.vec_eq]
    exact id
  · exact hg.current_eq
  · exact hg.base_eq

theorem moved_grew (h : Wf A) (hv : Fitted A ty v) {n : ℕ} (hlt : v.cap < n) {g : VecOutcome}
    (hg : Grew fallible sys A ty v n g) (hno : ¬ Wraps A ty v n) : Moved A v g := by
  rcases grew_cases h hv hg hno with hroomy | hstayed
  · have hcap_le : v.cap ≤ g.vec.cap := hlt.le.trans hroomy.cap_eq.ge
    cases hg with
    | extended hcap _ _ => exact ⟨hcap_le,hroomy.after,Or.inl ⟨rfl,fun _ => hcap,rfl,rfl⟩⟩
    | wrapped hwraps => exact absurd hwraps hno
    | overflowed _ => cases hroomy.grew
    | stuck _ _ _ _ => cases hroomy.grew
    | relocated hpos hraw hret =>
      obtain ⟨A₁,registry,harena,hcarved⟩ := raw_carved hpos hraw hret
      refine ⟨hcap_le,hroomy.after,Or.inr ⟨?_,?_⟩⟩
      · dsimp only
        rw [harena]
        exact hcarved.above
      · dsimp only
        rw [harena]
        exact hcarved.grown
  · exact moved_stayed hstayed

theorem moved_follows {room : ℕ} {g o : VecOutcome} (hg : Moved A v g)
    (ho : Follows fallible room g o) : Moved A v o := by
  obtain ⟨hcap,hafter,hbuffer⟩ := hg
  rw [← ho.cap_eq] at hcap
  rw [← ho.call_eq] at hafter
  rw [← ho.call_eq, ← ho.ptr_eq, ← ho.cap_eq] at hbuffer
  exact ⟨hcap,hafter,hbuffer⟩

theorem moved_apply (h : Wf A) (hs : Grants sys A.blocks) (hsize : 0 < ty.size)
    (hv : Fitted A ty v) {op : VecOp} (hop : op.Typed ty)
    (hstraight : VecGrowth.Straight A ty v op) : Moved A v (op.apply sys A ty v) := by
  obtain ⟨g,hphase,ho⟩ := apply_phase sys A hsize hv.len_le (fitted_cap h hsize hv) hop
  refine moved_follows ?_ ho
  rcases hphase with ⟨n,hn,rfl⟩ | ⟨-,⟨-,rfl⟩ | ⟨-,rfl⟩⟩
  · have hlt := (target_some hn).2
    exact moved_grew h hv hlt (growWith_grew h hs hsize hv (by omega) _) (hstraight n hn)
  · exact ⟨le_refl _,le_refl _,Or.inl ⟨rfl,id,rfl,rfl⟩⟩
  · exact moved_stayed ⟨rfl,rfl,rfl,rfl,rfl⟩

end moved

structure Rests (ty : Ty) (w w' : World) (v : ArenaVec) : Prop where
  world : ArenaWorld.Inv w'
  fitted : Fitted w'.arena ty v
  begun : position w.arena ≤ position w'.arena
  beyond : 0 < v.cap → position w.arena ≤ toLex (w'.arena.current,v.ptr - w'.arena.curBase)
  live : ∀ g ∈ w.live, g ∈ w'.live

def buffer (ty : Ty) (A : Arena) (v : ArenaVec) : Grant :=
  ⟨0,A.current,v.ptr - A.curBase,⟨⟨v.ptr,v.cap * ty.size⟩,1⟩,[],[]⟩

section rests
variable {sys : SystemAlloc} {ty : Ty} {w w' : World} {v : ArenaVec}

theorem situated_buffer {A : Arena} (h : Wf A) (hv : Fitted A ty v) (hcap : 0 < v.cap) :
    Situated A.blocks (buffer ty A v) := by
  have hend := hv.end_eq hcap
  have hbase := hv.base_le hcap
  have hptr := h.ptr_le
  have htop := h.end_eq
  refine ⟨current_lt h,?_,?_,one_dvd _,nofun⟩
  · dsimp only [buffer]
    rw [← h.base_eq]
    omega
  · dsimp only [buffer]
    omega

theorem rests_apart (hw : ArenaWorld.Inv w) (h : Rests ty w w' v) {g : Grant} (hg : g ∈ w.live) :
    g.region.span.Apart ⟨v.ptr,v.cap * ty.size⟩ := by
  rcases Nat.eq_zero_or_pos v.cap with hzero | hcap
  · rw [hzero, Nat.zero_mul]
    exact apart_symm (apart_of_empty rfl)
  · have hsituated := h.world.situated g (h.world.live_issued.subset (h.live g hg))
    have hbelow := (live_untouched hw hg).1
    exact apart_of_pieces h.world.wf.laid hsituated (situated_buffer h.world.wf h.fitted hcap)
      (hbelow.trans (h.beyond hcap))

theorem moved_apart {A : Arena} (h : Wf A) (hv : Fitted A ty v) {o : VecOutcome}
    (hwf : Wf o.call.arena) (hfits : Fitted o.call.arena ty o.vec) (hmoved : Moved A v o)
    (hptr : o.vec.ptr ≠ v.ptr) :
    (⟨v.ptr,v.cap * ty.size⟩ : Span).Apart ⟨o.vec.ptr,o.vec.cap * ty.size⟩ := by
  rcases hmoved.buffer with ⟨hsame,-⟩ | ⟨habove,hgrown⟩
  · exact absurd hsame hptr
  · rcases Nat.eq_zero_or_pos v.cap with hzero | hcap
    · rw [hzero, Nat.zero_mul]
      exact apart_of_empty rfl
    · rcases Nat.eq_zero_or_pos o.vec.cap with hzero | hcap'
      · rw [hzero, Nat.zero_mul]
        exact apart_symm (apart_of_empty rfl)
      · have hold := situated_grown (situated_buffer h hv hcap) hgrown
        have hends : (buffer ty A v).piece.hi = position A := by
          have hend := hv.end_eq hcap
          have hbase := hv.base_le hcap
          rw [position, curOffset_eq h, ← hend, Nat.sub_add_comm hbase]
          rfl
        exact apart_of_pieces hwf.laid hold (situated_buffer hwf hfits hcap')
          (hends.le.trans habove)

theorem rests_moved (h : Rests ty w w' v) {o : VecOutcome}
    (hinv : ArenaWorld.Inv (w'.take o.call)) (hfits : Fitted o.call.arena ty o.vec)
    (hmoved : Moved w'.arena v o) : Rests ty w (w'.take o.call) o.vec where
  world := hinv
  fitted := hfits
  begun := h.begun.trans hmoved.after
  beyond := by
    intro hcap
    change position w.arena ≤ toLex (o.call.arena.current,o.vec.ptr - o.call.arena.curBase)
    rcases hmoved.buffer with ⟨hptr,hpos,hcurrent,hbase⟩ | ⟨habove,-⟩
    · rw [hptr, hcurrent, hbase]
      exact h.beyond (hpos hcap)
    · exact h.begun.trans habove
  live := fun g hg => List.mem_append_right _ (h.live g hg)

end rests

structure Alike {α β : Type*} {ty : Ty} (c : Codec ty.size α β) (w : World) (m : ℕ → β)
    (b : Bench α β) : Prop where
  rests : Rests ty w b.world b.vec
  contents : loads c b.mem b.vec.ptr b.vec.len = b.list
  kept : ∀ g ∈ w.live, Same g.region.span m b.mem

section alike
variable {α β : Type*} {ty : Ty} {c : Codec ty.size α β} {w : World} {m : ℕ → β} {b : Bench α β}
  {sys : SystemAlloc} {op : ElemOp α}

/-- What one method does to the vector and the arena. -/
theorem method_spec (hsize : 0 < ty.size) (h : Rests ty w b.world b.vec)
    (hop : b.Honest ty sys op) {o : VecOutcome}
    (ho : o = (op.vecOp b.vec).apply sys b.world.arena ty b.vec) :
    Rests ty w (b.world.take o.call) o.vec ∧ Moved b.world.arena b.vec o ∧
      (o.grew = true → asked b.vec (op.vecOp b.vec) ≤ o.vec.cap) ∧
        Ends b.vec (op.newLen b.vec) (op.unwinds b.vec) o := by
  subst ho
  obtain ⟨hs,htyped,hsmall⟩ := hop
  have hwf := h.world.wf
  have hstraight := straight_small hwf hsize h.fitted htyped hsmall
  have hmoved := moved_apply hwf hs hsize h.fitted htyped hstraight
  have hcap := fitted_cap hwf hsize h.fitted
  obtain ⟨hinv,hfits,hwell⟩ := apply_spec h.world hs hsize h.fitted htyped hstraight
  refine ⟨rests_moved h hinv hfits hmoved,hmoved,fun hgrew => (hwell.grown hgrew).2.1,?_⟩
  exact apply_ends (lt_of_le_of_lt h.fitted.len_le hcap) op

theorem list_length (h : Alike c w m b) : b.list.length = b.vec.len := by
  rw [← h.contents, length_loads]

/-- The list goes along with each method. -/
theorem contents_method (hsize : 0 < ty.size) (h : Alike c w m b) (hop : b.Honest ty sys op) :
    loads c (b.method c sys op).mem (b.method c sys op).vec.ptr (b.method c sys op).vec.len =
      (b.method c sys op).list := by
  have hcontents := h.contents
  obtain ⟨-,-,-,hends⟩ := method_spec hsize h.rests hop rfl
  unfold Bench.method ElemOp.apply
  dsimp only
  rcases hends with ⟨hgrew,hcalm,hres,hlen⟩ | ⟨hgrew,-,hres,hlen⟩ | ⟨hgrew,hres,hvec⟩
  · rw [if_pos hgrew, if_pos hres, hlen, loads_written _ _ _ _ _ (written_length op hcalm),
      loads_relocated, hcontents, onList_eq op (list_length h)]
  · rw [if_pos hgrew, if_neg hres, hlen, loads_behind, loads_relocated, hcontents]
  · rw [hgrew, if_neg Bool.false_ne_true, if_neg hres, hvec, hcontents]

theorem kept_method (hw : ArenaWorld.Inv w) (hsize : 0 < ty.size) (h : Alike c w m b)
    (hop : b.Honest ty sys op) {g : Grant} (hg : g ∈ w.live) :
    Same g.region.span m (b.method c sys op).mem := by
  obtain ⟨hrests,hmoved,hroom,-⟩ := method_spec hsize h.rests hop rfl
  have hapart := rests_apart hw hrests hg
  have hlen := h.rests.fitted.len_le.trans hmoved.cap_le
  refine same_trans (h.kept g hg) ?_
  unfold Bench.method ElemOp.apply
  dsimp only
  split
  · next hgrew => exact same_written hapart (written_room op hlen (hroom hgrew)) _
  · exact same_refl _ _

theorem alike_method (hw : ArenaWorld.Inv w) (hsize : 0 < ty.size) (h : Alike c w m b)
    (hop : b.Honest ty sys op) : Alike c w m (b.method c sys op) :=
  ⟨(method_spec hsize h.rests hop rfl).1,contents_method hsize h hop,
    fun _ hg => kept_method hw hsize h hop hg⟩

theorem element_within (ty : Ty) {v : ArenaVec} {i : ℕ} (hi : i < v.cap) :
    (⟨v.ptr + i * ty.size,ty.size⟩ : Span).Within ⟨v.ptr,v.cap * ty.size⟩ := by
  have hmul : (i+1) * ty.size ≤ v.cap * ty.size := Nat.mul_le_mul_right _ hi
  rw [Nat.succ_mul] at hmul
  exact ⟨Nat.le_add_right _ _,by dsimp only; omega⟩

theorem alike_assign (hw : ArenaWorld.Inv w) (h : Alike c w m b) (i : ℕ) (x : α) :
    Alike c w m (b.assign c i x) := by
  unfold Bench.assign indexMut
  by_cases hi : i < b.vec.len
  · rw [if_pos hi]
    refine ⟨h.rests,?_,?_⟩
    · dsimp only
      rw [if_pos rfl, ← h.contents]
      exact loads_store hi b.mem x
    · intro g hg
      have hin := element_within ty (hi.trans_le h.rests.fitted.len_le)
      exact same_trans (h.kept g hg) (same_store (apart_within (rests_apart hw h.rests hg) hin) _ _)
  · rw [if_neg hi]
    exact ⟨h.rests,h.contents,h.kept⟩

theorem alike_extend (hw : ArenaWorld.Inv w) (hsize : 0 < ty.size)
    (items : List (SystemAlloc × α)) (h : Alike c w m b) (hitems : b.ExtendHonest c items) :
    Alike c w m (b.extend c items) := by
  induction items generalizing b with
  | nil => exact h
  | cons item items ih =>
    obtain ⟨sys,x⟩ := item
    obtain ⟨hs,hrest⟩ := hitems
    have hfirst : Alike c w m (b.method c sys (.push x)) :=
      alike_method hw hsize h ⟨hs,trivial,trivial⟩
    unfold Bench.extend
    split
    · next hres => exact ih hfirst (hrest hres)
    · exact hfirst

theorem alike_step (hw : ArenaWorld.Inv w) (hsize : 0 < ty.size) (h : Alike c w m b)
    {call : ElemCall α} (hcall : b.Proper c call) : Alike c w m (b.step c call) := by
  cases call with
  | method sys op => exact alike_method hw hsize h hcall
  | assign i x => exact alike_assign hw h i x
  | extend items => exact alike_extend hw hsize items h hcall

theorem elements_end {mem : ℕ → β} {v : ArenaVec} {start : ℕ} (hend : v.len ≤ start) (n : ℕ) :
    (List.range' start n).map (fun i => (elements c mem (asSlice v))[i]?) =
      List.replicate n none := by
  have hnone : ∀ i ∈ List.range' start n, (elements c mem (asSlice v))[i]? = none := by
    intro i hi
    have hle := (List.mem_range'_1.mp hi).1
    rw [elements, getElem?_loads, if_neg (by change ¬ i < v.len; omega)]
  have hall := List.map_eq_replicate_iff.mpr hnone
  rw [List.length_range'] at hall
  exact hall

theorem nexts_elements (mem : ℕ → β) (v : ArenaVec) (n start : ℕ) :
    nexts c mem n ⟨v,start⟩ =
      (List.range' start n).map (fun i => (elements c mem (asSlice v))[i]?) := by
  induction n generalizing start with
  | zero => rfl
  | succ n ih =>
    rw [nexts, List.range'_succ, List.map_cons]
    unfold next
    dsimp only
    by_cases hlt : start < v.len
    · rw [if_neg (by omega), ih (start+1), elements, getElem?_loads]
      rw [if_pos (by exact hlt)]
      rfl
    · rw [if_pos (by omega), ih start, elements_end (by omega), elements_end (by omega)]
      rw [elements, getElem?_loads, if_neg (by exact hlt)]

end alike

theorem moved_withCapacity {sys : SystemAlloc} {A : Arena} {ty : Ty} (h : Wf A)
    (hs : Grants sys A.blocks) (hsize : 0 < ty.size) (cap : ℕ) :
    Moved A (GrowableVec.new ty) (GrowableVec.withCapacity sys A ty cap) ∧
      (GrowableVec.withCapacity sys A ty cap).vec.len = 0 := by
  have hempty := fitted_new A ty
  unfold GrowableVec.withCapacity
  by_cases hgrow : cap > 0 ∧ ty.size > 0
  · rw [if_pos hgrow]
    constructor
    · exact moved_grew h hempty hgrow.1 (growWith_grew h hs hsize hempty hgrow.1 false)
        (fun hwraps => Nat.lt_irrefl 0 hwraps.1)
    · have hplain : Plain (GrowableVec.new ty) (growTo sys A ty (GrowableVec.new ty) cap) :=
        plain_growWith false cap
      rcases hplain with ⟨-,-,hlen⟩ | ⟨-,-,hvec⟩
      · exact hlen
      · exact congrArg ArenaVec.len hvec
  · rw [if_neg hgrow, if_neg (by omega)]
    exact ⟨⟨le_refl _,le_refl _,Or.inl ⟨rfl,id,rfl,rfl⟩⟩,rfl⟩

theorem rests_created {s : Session} (h : s.Inv) {ty : Ty} (hsize : 0 < ty.size)
    (hnone : s.vec = none) {create : Call} (hc : s.Honest create) {v : ArenaVec}
    (hv : (s.step create).vec = some (ty,v)) :
    Rests ty s.world (s.step create).world v ∧ v.len = 0 := by
  obtain ⟨w,opened⟩ := s
  obtain rfl : opened = none := hnone
  have hkept : ∀ g ∈ w.live, g ∈ w.tick.live := fun _ hg => hg
  cases create with
  | arena op => cases hv
  | vec sys op => cases hv
  | close => cases hv
  | new ty' =>
    obtain ⟨rfl,rfl⟩ := Prod.mk.inj (Option.some.inj hv)
    exact ⟨⟨inv_tick h.world,fitted_new _ _,le_refl _,nofun,hkept⟩,rfl⟩
  | withCapacity sys ty' cap =>
    obtain ⟨-,hsome⟩ := Option.ite_none_right_eq_some.mp hv
    obtain ⟨rfl,rfl⟩ := Prod.mk.inj (Option.some.inj hsome)
    have hempty : Rests ty' w w (GrowableVec.new ty') :=
      ⟨h.world,fitted_new _ _,le_refl _,nofun,fun _ hg => hg⟩
    obtain ⟨hinv,hfits⟩ := withCapacity_spec h.world hc.1 ty' cap
    obtain ⟨hmoved,hlen⟩ := moved_withCapacity h.world.wf hc.1 hsize cap
    exact ⟨rests_moved hempty hinv (hfits hsize) hmoved,hlen⟩

/-- What can be seen of the elements is the list. -/
structure Mirrors {α β : Type*} {ty : Ty} (c : Codec ty.size α β) (b : Bench α β) : Prop where
  slice : elements c b.mem (asSlice b.vec) = b.list
  finished : finish b.vec = asSlice b.vec
  nexts : ∀ n, nexts c b.mem n (intoIter b.vec) = (List.range n).map (fun i => b.list[i]?)

/-- What a method answers: it fails for want of room only, moves elements only to get some, and
to bytes of which it had none. -/
structure Answers {α β : Type*} (ty : Ty) (b : Bench α β) (op : ElemOp α)
    (o : ElemOutcome α β) : Prop where
  roomy : asked b.vec (op.vecOp b.vec) ≤ b.vec.cap → o.out.grew = true
  returns : o.out.grew = true → op.unwinds b.vec = none → o.out.res = .ok
  moves : o.out.grew = true → o.out.vec.ptr ≠ b.vec.ptr →
    (⟨b.vec.ptr,b.vec.cap * ty.size⟩ : Span).Apart ⟨o.out.vec.ptr,o.out.vec.cap * ty.size⟩
  popped : op = .pop → o.gives = b.list.getLast?
  pushed : ∀ x, op = .push x → b.vec.len < b.vec.cap →
    o.out.vec.ptr = b.vec.ptr ∧ o.out.vec.cap = b.vec.cap ∧
      Same ⟨b.vec.ptr,b.vec.len * ty.size⟩ b.mem o.mem
  returned : ∀ x, op = .tryPush x → o.out.res = .returned →
    o.out.vec = b.vec ∧ o.mem = b.mem ∧ o.gives = some x

section answers
variable {α β : Type*} {ty : Ty} {c : Codec ty.size α β} {w : World} {m : ℕ → β} {b : Bench α β}
  {sys : SystemAlloc} {op : ElemOp α}

theorem mirrors_alike (h : Alike c w m b) : Mirrors c b := by
  have hslice : elements c b.mem (asSlice b.vec) = b.list := h.contents
  refine ⟨hslice,rfl,fun n => ?_⟩
  rw [intoIter, nexts_elements, hslice, List.range_eq_range']

theorem grew_roomy (hsize : 0 < ty.size) {A : Arena} (h : Wf A) {v : ArenaVec}
    (hv : Fitted A ty v) {op : VecOp} (hop : op.Typed ty) (hroom : asked v op ≤ v.cap) :
    (op.apply sys A ty v).grew = true := by
  have hcap := fitted_cap h hsize hv
  obtain ⟨g,hphase,ho⟩ := apply_phase sys A hsize hv.len_le hcap hop
  rw [ho.grew_eq]
  rcases hphase with ⟨n,hn,-⟩ | ⟨-,⟨-,rfl⟩ | ⟨hbig,-⟩⟩
  · have hgoal := target_some hn
    omega
  · rfl
  · omega

theorem gives_pop (h : Alike c w m b) (res : VecRes) :
    ElemOp.handsBack c b.vec b.mem res .pop = b.list.getLast? := by
  rw [List.getLast?_eq_getElem?, list_length h, ← h.contents, getElem?_loads]
  unfold ElemOp.handsBack
  dsimp only
  rcases Nat.eq_zero_or_pos b.vec.len with hzero | hpos
  · rw [if_pos hzero, if_neg (by omega)]
  · rw [if_neg (by omega), if_pos (by omega)]

theorem push_in_place {A : Arena} {v : ArenaVec} {mem : ℕ → β} (hroom : v.len < v.cap) (x : α) :
    let o := ElemOp.apply c sys A v mem (.push x)
    o.out.vec.ptr = v.ptr ∧ o.out.vec.cap = v.cap ∧ Same ⟨v.ptr,v.len * ty.size⟩ mem o.mem := by
  have hpush : GrowableVec.push sys A ty v =
      ⟨{ v with len := wadd v.len 1 },answer A .none 0,.ok,true⟩ := by
    unfold GrowableVec.push
    rw [if_neg (by omega)]
    rfl
  unfold ElemOp.apply
  change (GrowableVec.push sys A ty v).vec.ptr = _ ∧ (GrowableVec.push sys A ty v).vec.cap = _ ∧ _
  refine ⟨by rw [hpush],by rw [hpush],?_⟩
  change Same _ mem (if (GrowableVec.push sys A ty v).grew then
    stores c (ElemOp.relocated ty v (GrowableVec.push sys A ty v).vec mem)
      ((GrowableVec.push sys A ty v).vec.ptr + v.len * ty.size) [x] else mem)
  rw [hpush, if_pos rfl]
  unfold ElemOp.relocated
  rw [if_pos rfl]
  exact same_stores (apart_of_le (le_refl _)) mem

theorem answers (hsize : 0 < ty.size) (h : Alike c w m b) (hop : b.Honest ty sys op) :
    Answers ty b op (op.apply c sys b.world.arena b.vec b.mem) := by
  obtain ⟨hrests,hmoved,-,hends⟩ := method_spec hsize h.rests hop rfl
  refine ⟨?_,?_,?_,?_,?_,?_⟩
  · exact grew_roomy hsize h.rests.world.wf h.rests.fitted hop.2.1
  · intro hgrew hcalm
    rcases hends with ⟨-,-,hres,-⟩ | ⟨-,hunwinds,-⟩ | ⟨hstop,-⟩
    · exact hres
    · exact absurd hcalm hunwinds
    · exact nomatch hgrew.symm.trans hstop
  · intro _ hptr
    exact moved_apart h.rests.world.wf h.rests.fitted hrests.world.wf hrests.fitted hmoved hptr
  · rintro rfl
    exact gives_pop h .ok
  · rintro x rfl hroom
    exact push_in_place hroom x
  · rintro x rfl hres
    rcases hends with ⟨-,-,hok,-⟩ | ⟨-,hunwinds,-⟩ | ⟨hstop,-,hvec⟩
    · exact nomatch hok.symm.trans hres
    · exact absurd rfl hunwinds
    · exact ⟨hvec,if_neg (by rw [hstop]; decide),if_pos hres⟩

end answers

/-- From any arena on, and after any calls: what can be seen of the vector is what the same calls
make of a list, each further method answers as it does, and no memory that was handed out before
has changed. -/
theorem vec_refines_list {α β : Type*} {ty : Ty} (hsize : 0 < ty.size) (c : Codec ty.size α β)
    {s : Session} (h : s.Reached Session.Proper) (hnone : s.vec = none) {create : Call}
    (hc : s.Honest create) {v : ArenaVec} (hv : (s.step create).vec = some (ty,v)) (m : ℕ → β)
    {calls : List (ElemCall α)}
    (halong : Along (Bench.step c) (Bench.Proper c) ⟨(s.step create).world,v,m,[]⟩ calls)
    {b : Bench α β} (hb : b = run (Bench.step c) ⟨(s.step create).world,v,m,[]⟩ calls) :
    Mirrors c b ∧
      (∀ sys op, b.Honest ty sys op →
        Answers ty b op (op.apply c sys b.world.arena b.vec b.mem)) ∧
      ∀ g ∈ s.world.live, Same g.region.span m b.mem := by
  have hinv := session_reached h
  obtain ⟨hrests,hlen⟩ := rests_created hinv hsize hnone hc hv
  have hstart : Alike c s.world m ⟨(s.step create).world,v,m,[]⟩ := by
    refine ⟨hrests,?_,fun g _ => same_refl _ m⟩
    rw [hlen]
    rfl
  have hrun : Alike c s.world m b := by
    rw [hb]
    exact run_invariant (Bench.step c) (Bench.Proper c) (Alike c s.world m)
      (fun _ _ hb hcall => alike_step hinv.world hsize hb hcall) _ calls hstart halong
  exact ⟨mirrors_alike hrun,fun _ _ hop => answers hsize hrun hop,hrun.kept⟩

def byteCodec : Codec oneByte.size ℕ ℕ where
  bytes := fun x _ => x
  value := fun f => f ⟨0,by decide⟩
  value_bytes := fun _ => rfl

def valueCalls : List Call := [.arena (.request noMemory ⟨.value eightBytes,false⟩)]

def elemCalls : List (ElemCall ℕ) :=
  [.method noMemory (.push 1),.extend [(noMemory,2),(noMemory,3)],.assign 0 7,.method noMemory .pop]

theorem vec_refines_list_elemCalls : ∃ A, smallArena true 64 = some A ∧
    ∃ s, s = run Session.step ⟨World.start A,none⟩ valueCalls ∧
      ∃ b, b = run (Bench.step byteCodec)
          ⟨(s.step (.new oneByte)).world,GrowableVec.new oneByte,fun _ => 0,[]⟩ elemCalls ∧
        s.world.live.length = 1 ∧ b.list = [7,2] ∧ Mirrors byteCodec b := by
  obtain ⟨A,hA⟩ : ∃ A, smallArena true 64 = some A := ⟨_,rfl⟩
  have hreached : Session.Reached Session.Proper
      (run Session.step ⟨World.start A,none⟩ valueCalls) :=
    session_small (by norm_num) hA valueCalls ⟨⟨⟨grants_noMemory _,trivial⟩,trivial⟩,trivial⟩
  refine ⟨A,hA,_,rfl,_,rfl,?_,?_,?_⟩
  · cases hA
    decide +kernel
  · cases hA
    decide +kernel
  · have hnew : (run Session.step ⟨World.start A,none⟩ valueCalls).Honest (.new oneByte) := trivial
    refine (vec_refines_list (by decide) byteCodec hreached rfl hnew rfl (fun _ => 0) ?_ rfl).1
    exact ⟨⟨grants_noMemory _,trivial,trivial⟩,
      ⟨grants_noMemory _,fun _ => ⟨grants_noMemory _,fun _ => trivial⟩⟩,trivial,
      ⟨grants_noMemory _,trivial,trivial⟩,trivial⟩

end FastArena.VecRefinement
