import FastArena.VecRefinement
import FastArena.VecCosts

/-!
# The macro `arenavec!`

The vectors its forms make. The list form pushes one element after another, so
its buffer doubles as it fills; the repeat form asks for its room at once and
fills it without going back to the arena. Both show what was written.
-/

set_option autoImplicit false

namespace FastArena.VecMacro
open FastArena.MachineWord FastArena.ByteSpan FastArena.ArenaBlock FastArena.ArenaCore
  FastArena.ArenaInvariant FastArena.RawRequest FastArena.ArenaRequests FastArena.LabelledRun
  FastArena.ArenaWorld FastArena.RegionSafety FastArena.TypedMemory FastArena.GrowableVec
  FastArena.VecGrowth FastArena.VecContents FastArena.VecRefinement FastArena.VecCosts

section forms
variable {α β : Type*} {ty : Ty} (c : Codec ty.size α β) (s : Session) (m : ℕ → β)

def emptyForm (ty : Ty) : Bench α β :=
  ⟨(s.step (.new ty)).world,GrowableVec.new ty,m,[]⟩

-- `arenavec![in arena; x, y, z]`. Each expression is evaluated and pushed before the next, and a
-- push that panics ends it.
def listForm (items : List (SystemAlloc × α)) : Bench α β := (emptyForm s m ty).extend c items

-- `arenavec![in arena; x; n]`, where the expression `n` is evaluated for the room and again for
-- the count, and `x` once and cloned each time. `none` if there is no memory for the room.
def repeatForm (sys sys' : SystemAlloc) (room : ℕ) {count : ℕ} (clones : Fin count → α) :
    Option (Bench α β) :=
  let opened := s.step (.withCapacity sys ty room)
  opened.vec.map (fun o =>
    Bench.method c ⟨opened.world,o.2,m,[]⟩ sys' (.extendExact count (List.ofFn clones)))

end forms

def pushedRoom (n : ℕ) : ℕ := if n = 0 then 0 else max 4 (2^Nat.clog 2 n)

theorem pushedRoom_full {n : ℕ} (h : n = pushedRoom n) :
    (if n = 0 then 4 else n*2) = pushedRoom (n+1) := by
  unfold pushedRoom at h ⊢
  rw [if_neg (Nat.succ_ne_zero n)]
  by_cases hzero : n = 0
  · subst hzero
    decide
  · rw [if_neg hzero] at h ⊢
    obtain ⟨k,hk,hpow⟩ : ∃ k, 2 ≤ k ∧ n = 2^k := by
      rcases le_total (2^Nat.clog 2 n) 4 with hle | hge
      · rw [max_eq_left hle] at h
        exact ⟨2,le_refl 2,h⟩
      · rw [max_eq_right hge] at h
        refine ⟨Nat.clog 2 n,?_,h⟩
        have hpow : (2:ℕ)^2 ≤ 2^Nat.clog 2 n := hge
        exact (Nat.pow_le_pow_iff_right Nat.one_lt_two).mp hpow
    have hnext : Nat.clog 2 (n+1) = k+1 := by
      have hlt : n < n+1 := Nat.lt_succ_self n
      have hle : n+1 ≤ 2^(k+1) := by
        have hone : 1 ≤ 2^k := Nat.one_le_two_pow
        rw [pow_succ]
        omega
      apply le_antisymm
      · exact Nat.clog_le_of_le_pow hle
      · rw [Nat.succ_le_iff, Nat.lt_clog_iff_pow_lt (by norm_num), ← hpow]
        exact hlt
    have hfour : 4 ≤ 2^(k+1) := Nat.pow_le_pow_right Nat.zero_lt_two (show 2 ≤ k+1 by omega)
    rw [hnext, max_eq_right hfour, pow_succ, ← hpow]

theorem pushedRoom_within {n : ℕ} (h : n < pushedRoom n) : pushedRoom (n+1) = pushedRoom n := by
  unfold pushedRoom at h ⊢
  rw [if_neg (Nat.succ_ne_zero n)]
  by_cases hzero : n = 0
  · rw [if_pos hzero] at h
    omega
  · rw [if_neg hzero] at h ⊢
    have hmono : Nat.clog 2 n ≤ Nat.clog 2 (n+1) := Nat.clog_mono_right 2 (Nat.le_succ n)
    rcases Nat.lt_or_ge n 4 with hsmall | hbig
    · have hnext : Nat.clog 2 (n+1) ≤ 2 := Nat.clog_le_of_le_pow (by omega)
      have hone : (2:ℕ)^Nat.clog 2 (n+1) ≤ 2^2 := Nat.pow_le_pow_right (by norm_num) hnext
      have htwo : (2:ℕ)^Nat.clog 2 n ≤ 2^2 := Nat.pow_le_pow_right (by norm_num) (hmono.trans hnext)
      omega
    · have hlt : n < 2^Nat.clog 2 n := by omega
      rw [le_antisymm (Nat.clog_le_of_le_pow hlt) hmono]

section pushing
variable {α β : Type*} {ty : Ty} {c : Codec ty.size α β} {w : World} {m : ℕ → β} {b : Bench α β}
  {sys : SystemAlloc}

theorem room_push (hsize : 0 < ty.size) (h : Alike c w m b) (hs : Grants sys b.world.arena.blocks)
    (hroom : b.vec.cap = pushedRoom b.vec.len) (x : α) :
    (b.method c sys (.push x)).vec.cap = pushedRoom (b.method c sys (.push x)).vec.len := by
  have hhonest : b.Honest ty sys (.push x) := ⟨hs,trivial,trivial⟩
  have hnext : Rests ty w (b.method c sys (.push x)).world (b.method c sys (.push x)).vec :=
    (method_spec hsize h.rests hhonest rfl).1
  have hlen := hnext.fitted.len_le
  have hcap := fitted_cap h.rests.world.wf hsize h.rests.fitted
  have hfits := h.rests.fitted.len_le
  have hadd : wadd b.vec.len 1 = b.vec.len+1 := wadd_eq (by omega)
  have hpushed := @pushed_push sys b.world.arena ty b.vec
  change (GrowableVec.push sys b.world.arena ty b.vec).vec.len ≤
    (GrowableVec.push sys b.world.arena ty b.vec).vec.cap at hlen
  change (GrowableVec.push sys b.world.arena ty b.vec).vec.cap =
    pushedRoom (GrowableVec.push sys b.world.arena ty b.vec).vec.len
  cases hpushed with
  | cheap hvec _ _ =>
    rcases hvec with hvec | hvec
    · rw [hvec]
      exact hroom
    · rw [hvec] at hlen ⊢
      dsimp only at hlen ⊢
      rw [hadd, hroom] at hlen
      rw [hadd, pushedRoom_within hlen]
      exact hroom
  | grown hfull hlen' hcap' _ _ =>
    rw [hlen', hcap', hadd, ← hfull]
    exact pushedRoom_full (hfull.trans hroom)

def Stopped (c : Codec ty.size α β) (b : Bench α β) (items : List (SystemAlloc × α)) : Prop :=
  ∃ done sys x rest, items = done ++ (sys,x)::rest ∧
    (b.extend c items).list = b.list ++ done.map Prod.snd ∧
      (ElemOp.apply c sys (b.extend c done).world.arena (b.extend c done).vec
        (b.extend c done).mem (.push x)).out.res ≠ .ok

/-- Every element in order, unless a push did not return. -/
theorem extend_list (c : Codec ty.size α β) (b : Bench α β) (items : List (SystemAlloc × α)) :
    (b.extend c items).list = b.list ++ items.map Prod.snd ∨ Stopped c b items := by
  induction items generalizing b with
  | nil => exact Or.inl (List.append_nil _).symm
  | cons item items ih =>
    obtain ⟨sys,x⟩ := item
    by_cases hres : (ElemOp.apply c sys b.world.arena b.vec b.mem (.push x)).out.res = .ok
    · have hunfold : ∀ its, b.extend c ((sys,x)::its) = (b.method c sys (.push x)).extend c its :=
        fun _ => if_pos hres
      have hlist : (b.method c sys (.push x)).list = b.list ++ [x] := if_pos hres
      rcases ih (b.method c sys (.push x)) with hall | ⟨done,sys',y,rest,hitems,hpart,hfails⟩
      · left
        rw [hunfold, hall, hlist, List.append_assoc]
        rfl
      · right
        refine ⟨(sys,x)::done,sys',y,rest,?_,?_,?_⟩
        · rw [hitems, List.cons_append]
        · rw [hunfold, hpart, hlist, List.append_assoc]
          rfl
        · rw [hunfold]
          exact hfails
    · right
      refine ⟨[],sys,x,items,rfl,?_,hres⟩
      have hstop : b.extend c ((sys,x)::items) = b.method c sys (.push x) := if_neg hres
      have hlist : (b.method c sys (.push x)).list = b.list := if_neg hres
      rw [hstop, hlist, List.map_nil, List.append_nil]

theorem room_extend (hw : ArenaWorld.Inv w) (hsize : 0 < ty.size)
    (items : List (SystemAlloc × α)) (h : Alike c w m b) (hitems : b.ExtendHonest c items)
    (hroom : b.vec.cap = pushedRoom b.vec.len) :
    (b.extend c items).vec.cap = pushedRoom (b.extend c items).vec.len := by
  induction items generalizing b with
  | nil => exact hroom
  | cons item items ih =>
    obtain ⟨sys,x⟩ := item
    obtain ⟨hs,hrest⟩ := hitems
    have hnext := room_push hsize h hs hroom x
    unfold Bench.extend
    split
    · next hres =>
      exact ih (alike_method hw hsize h ⟨hs,trivial,trivial⟩) (hrest hres) hnext
    · exact hnext

end pushing

/-- What a form of the macro leaves: the elements it was given in a buffer of its own, and what
was live before it as it was. -/
structure Made {α β : Type*} {ty : Ty} (c : Codec ty.size α β) (w : World) (m : ℕ → β)
    (b : Bench α β) (room : ℕ) : Prop where
  mirrors : Mirrors c b
  len_eq : b.vec.len = b.list.length
  cap_eq : b.vec.cap = room
  kept : ∀ g ∈ w.live, Same g.region.span m b.mem

section made
variable {α β : Type*} {ty : Ty} {c : Codec ty.size α β} {s : Session} {m : ℕ → β}

theorem made_alike {w : World} {b : Bench α β} (h : Alike c w m b) :
    Made c w m b b.vec.cap :=
  ⟨mirrors_alike h,(list_length h).symm,rfl,h.kept⟩

theorem alike_created (h : s.Inv) (hsize : 0 < ty.size) (hnone : s.vec = none) {create : Call}
    (hc : s.Honest create) {v : ArenaVec} (hv : (s.step create).vec = some (ty,v)) (m : ℕ → β) :
    Alike c s.world m ⟨(s.step create).world,v,m,[]⟩ := by
  obtain ⟨hrests,hlen⟩ := rests_created h hsize hnone hc hv
  refine ⟨hrests,?_,fun g _ => same_refl _ m⟩
  rw [hlen]
  rfl

theorem room_withCapacity (hsize : 0 < ty.size) {sys : SystemAlloc} {A : Arena} {room : ℕ}
    (hok : (GrowableVec.withCapacity sys A ty room).res = .ok) :
    (GrowableVec.withCapacity sys A ty room).vec.cap = room := by
  unfold GrowableVec.withCapacity at hok ⊢
  by_cases hgrow : room > 0 ∧ ty.size > 0
  · rw [if_pos hgrow] at hok ⊢
    rcases growWith_ends false (g := growTo sys A ty (GrowableVec.new ty) room) rfl with
      ⟨-,-,-,hcap⟩ | ⟨-,hfails,-⟩
    · exact hcap
    · exact absurd hok hfails
  · rw [if_neg hgrow, if_neg (by omega)]
    change 0 = room
    omega

/-- The vector that `with_capacity` hands out, and the arena it borrows. -/
theorem opened_step (hnone : s.vec = none) {sys : SystemAlloc} {room : ℕ} {o : Ty × ArenaVec}
    (ho : (s.step (.withCapacity sys ty room)).vec = some o) :
    (GrowableVec.withCapacity sys s.world.arena ty room).res = .ok ∧
      o = (ty,(GrowableVec.withCapacity sys s.world.arena ty room).vec) ∧
      (s.step (.withCapacity sys ty room)).world.arena =
        (GrowableVec.withCapacity sys s.world.arena ty room).call.arena := by
  obtain ⟨w,borrowed⟩ := s
  obtain rfl : borrowed = none := hnone
  obtain ⟨hok,hsome⟩ := Option.ite_none_right_eq_some.mp ho
  exact ⟨hok,(Option.some.inj hsome).symm,rfl⟩

theorem extendExact_roomy {sys : SystemAlloc} {A : Arena} {v : ArenaVec} {n : ℕ}
    (hroom : v.len+n ≤ v.cap) (hcap : v.cap < 2^64) :
    GrowableVec.extendExact sys A ty v n n = enough { v with len := v.len+n } A := by
  unfold GrowableVec.extendExact extendWith
  rw [if_neg (Nat.lt_irrefl n)]
  by_cases hn : n = 0
  · rw [if_pos hn, hn]
    rfl
  · rw [if_neg hn, checkedAdd, if_pos (by omega)]
    dsimp only
    rw [if_neg (by omega)]
    rfl

theorem buffer_small {A : Arena} {v : ArenaVec} (h : Wf A) (hv : Fitted A ty v) :
    v.cap * ty.size < 2^63 := by
  have htop : A.curEnd ≤ 2^63 := curEnd_le h
  have hptr := h.ptr_le
  have hnonnull := (current_placed h).nonnull
  rw [← h.base_eq] at hnonnull
  rcases Nat.eq_zero_or_pos v.cap with hzero | hpos
  · rw [hzero, Nat.zero_mul]
    norm_num
  · have hend := hv.end_eq hpos
    have hbase := hv.base_le hpos
    omega

theorem filled {w : World} (hw : ArenaWorld.Inv w) (hsize : 0 < ty.size) {o : Bench α β}
    (h : Alike c w m o) (hempty : o.list = []) {count : ℕ} (hcount : count ≤ o.vec.cap)
    (clones : Fin count → α) {sys : SystemAlloc} {b : Bench α β}
    (hb : b = o.method c sys (.extendExact count (List.ofFn clones))) :
    Alike c w m b ∧ b.list = List.ofFn clones ∧ b.vec = { o.vec with len := count } ∧
      b.world.arena = o.world.arena := by
  have hwf := h.rests.world.wf
  have hword := fitted_cap hwf hsize h.rests.fitted
  have hlen : o.vec.len = 0 := by rw [← list_length h, hempty, List.length_nil]
  have hcall : ∀ sys : SystemAlloc, GrowableVec.extendExact sys o.world.arena ty o.vec count
      (List.ofFn clones).length = enough { o.vec with len := count } o.world.arena := by
    intro sys
    rw [List.length_ofFn, extendExact_roomy (by omega) (by omega), hlen, Nat.zero_add]
  -- no request is made, so it is as if the system had no memory
  have hnoMemory : b = o.method c noMemory (.extendExact count (List.ofFn clones)) := by
    rw [hb]
    unfold Bench.method ElemOp.apply ElemOp.vecOp VecOp.apply
    dsimp only
    rw [hcall sys, hcall noMemory]
  have hsmall : (o.vec.len+count) * ty.size < 2^63 := by
    have hle : (o.vec.len+count) * ty.size ≤ o.vec.cap * ty.size :=
      Nat.mul_le_mul_right _ (by omega)
    exact lt_of_le_of_lt hle (buffer_small hwf h.rests.fitted)
  have hcounted : count < 2^64 := by omega
  refine ⟨?_,?_,?_,?_⟩
  · rw [hnoMemory]
    exact alike_method hw hsize h ⟨grants_noMemory _,hcounted,hsmall⟩
  · have hok : (GrowableVec.extendExact sys o.world.arena ty o.vec count
        (List.ofFn clones).length).res = .ok := by rw [hcall sys]; rfl
    have hlist : b.list = o.list ++ (List.ofFn clones).take count := by
      rw [hb]
      exact if_pos hok
    rw [hlist, hempty, List.nil_append]
    exact List.take_of_length_le (List.length_ofFn).le
  · rw [hb]
    exact congrArg VecOutcome.vec (hcall sys)
  · rw [hb]
    exact congrArg (fun o => o.call.arena) (hcall sys)

end made

/-- `arenavec!` with a list of elements, on any arena: the vector shows all of them, or those in
front of one whose push did not return. Its room is a power of two, and what was live before is as
it was. -/
theorem listForm_shows {α β : Type*} {ty : Ty} (hsize : 0 < ty.size) (c : Codec ty.size α β)
    {s : Session} (h : s.Reached Session.Proper) (hnone : s.vec = none) (m : ℕ → β)
    {items : List (SystemAlloc × α)} (hitems : (emptyForm s m ty).ExtendHonest c items)
    {b : Bench α β} (hb : b = listForm c s m items) :
    Made c s.world m b (pushedRoom b.list.length) ∧
      (b.list = items.map Prod.snd ∨ Stopped c (emptyForm s m ty) items) := by
  have hinv := session_reached h
  have hnew : (s.step (.new ty)).vec = some (ty,GrowableVec.new ty) := by
    unfold Session.step
    rw [hnone]
  have hc : s.Honest (.new ty) := trivial
  have hstart : Alike c s.world m (emptyForm s m ty) := alike_created hinv hsize hnone hc hnew m
  have halike := alike_extend hinv.world hsize items hstart hitems
  have hroom := room_extend hinv.world hsize items hstart hitems rfl
  subst hb
  constructor
  · unfold listForm
    rw [list_length halike, ← hroom]
    exact made_alike halike
  · exact extend_list c (emptyForm s m ty) items

def fiveItems : List (SystemAlloc × ℕ) := [1,2,3,4,5].map (fun x => (noMemory,x))

theorem listForm_shows_fiveItems : ∃ A, smallArena true 64 = some A ∧
    ∃ s, s = run Session.step ⟨World.start A,none⟩ valueCalls ∧
      ∃ b, b = listForm byteCodec s (fun _ => 0) fiveItems ∧ s.world.live.length = 1 ∧
        b.list = [1,2,3,4,5] ∧ b.vec.cap = 8 ∧
          Made byteCodec s.world (fun _ => 0) b (pushedRoom b.list.length) := by
  obtain ⟨A,hA⟩ : ∃ A, smallArena true 64 = some A := ⟨_,rfl⟩
  have hreached : Session.Reached Session.Proper
      (run Session.step ⟨World.start A,none⟩ valueCalls) :=
    session_small (by norm_num) hA valueCalls ⟨⟨⟨grants_noMemory _,trivial⟩,trivial⟩,trivial⟩
  have hitems : (emptyForm (run Session.step ⟨World.start A,none⟩ valueCalls) (fun _ => 0)
      oneByte).ExtendHonest byteCodec fiveItems :=
    ⟨grants_noMemory _,fun _ => ⟨grants_noMemory _,fun _ => ⟨grants_noMemory _,fun _ =>
      ⟨grants_noMemory _,fun _ => ⟨grants_noMemory _,fun _ => trivial⟩⟩⟩⟩⟩
  have hmade := (listForm_shows (by decide) byteCodec hreached rfl (fun _ => 0) hitems rfl).1
  refine ⟨A,hA,_,rfl,_,rfl,?_,?_,?_,hmade⟩
  · cases hA
    decide +kernel
  · cases hA
    decide +kernel
  · cases hA
    decide +kernel

/-- `arenavec!` with a repeated element, on any arena, once there is memory for the room: the
vector shows the clones in the buffer that was opened for them, its room is what was asked for, the
arena is as `with_capacity` left it and what was live before is as it was. -/
theorem repeatForm_shows {α β : Type*} {ty : Ty} (hsize : 0 < ty.size) (c : Codec ty.size α β)
    {s : Session} (h : s.Reached Session.Proper) (hnone : s.vec = none) (m : ℕ → β)
    {sys : SystemAlloc} {room : ℕ} (hc : s.Honest (.withCapacity sys ty room)) {count : ℕ}
    (hcount : count ≤ room) (clones : Fin count → α) (sys' : SystemAlloc) {b : Bench α β}
    (hb : repeatForm c s m sys sys' room clones = some b) :
    Made c s.world m b room ∧ b.list = List.ofFn clones ∧
      b.vec.ptr = (GrowableVec.withCapacity sys s.world.arena ty room).vec.ptr ∧
      b.world.arena = (GrowableVec.withCapacity sys s.world.arena ty room).call.arena := by
  have hinv := session_reached h
  obtain ⟨o,hv,hfill⟩ := Option.map_eq_some_iff.mp hb
  obtain ⟨hok,rfl,harena⟩ := opened_step hnone hv
  have hcap := room_withCapacity hsize hok
  have hstart : Alike c s.world m ⟨(s.step (.withCapacity sys ty room)).world,
      (GrowableVec.withCapacity sys s.world.arena ty room).vec,m,[]⟩ :=
    alike_created hinv hsize hnone hc hv m
  obtain ⟨halike,hlist,hvec,hsame⟩ :=
    filled hinv.world hsize hstart rfl (by rw [hcap]; exact hcount) clones hfill.symm
  refine ⟨?_,hlist,?_,hsame.trans harena⟩
  · have hmade := made_alike halike
    rw [hvec] at hmade
    dsimp only at hmade
    rw [hcap] at hmade
    exact hmade
  · rw [hvec]

theorem repeatForm_shows_three : ∃ A, smallArena true 64 = some A ∧
    ∃ s, s = run Session.step ⟨World.start A,none⟩ valueCalls ∧
      ∃ b, repeatForm byteCodec s (fun _ => 0) noMemory noMemory 3 (fun _ : Fin 3 => 7) = some b ∧
        b.list = [7,7,7] ∧ Made byteCodec s.world (fun _ => 0) b 3 := by
  obtain ⟨A,hA⟩ : ∃ A, smallArena true 64 = some A := ⟨_,rfl⟩
  have hreached : Session.Reached Session.Proper
      (run Session.step ⟨World.start A,none⟩ valueCalls) :=
    session_small (by norm_num) hA valueCalls ⟨⟨⟨grants_noMemory _,trivial⟩,trivial⟩,trivial⟩
  obtain ⟨b,hb⟩ : ∃ b, repeatForm byteCodec (run Session.step ⟨World.start A,none⟩ valueCalls)
      (fun _ => 0) noMemory noMemory 3 (fun _ : Fin 3 => 7) = some b := by
    cases hA
    exact ⟨_,rfl⟩
  obtain ⟨hmade,hlist,-⟩ := repeatForm_shows (by decide) byteCodec hreached rfl (fun _ => 0)
    ⟨grants_noMemory _,by norm_num⟩ (le_refl 3) (fun _ => 7) noMemory hb
  exact ⟨A,hA,_,rfl,b,hb,hlist,hmade⟩

end FastArena.VecMacro
