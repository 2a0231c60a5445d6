import FastArena.DropOrder
import FastArena.ObjectStore

/-!
# What allocations hold

The bytes of memory beside a run: what each allocating method writes into the
region it hands out, what the caller writes there afterwards through its
reference, and what destructors leave behind. Seen through the references alone
each allocation is an object with cells of its own.
-/

set_option autoImplicit false

namespace FastArena.ArenaContents
open FastArena.MachineWord FastArena.ByteSpan FastArena.ArenaBlock FastArena.InlineStorage
  FastArena.DropTracking FastArena.ArenaCore FastArena.ArenaInvariant FastArena.RawRequest
  FastArena.ArenaRequests FastArena.ArenaTransaction FastArena.LabelledRun FastArena.ArenaWorld
  FastArena.ArenaSteps FastArena.RegionSafety FastArena.DropOrder FastArena.TypedMemory
  FastArena.ObjectStore

def filledBytes : Kind → ℕ
  | .value ty => ty.size
  | .slice ty len yields => if yields < len then yields * ty.size else len * ty.size
  | .sliceCopy ty len => len * ty.size
  | .str len => len
  | .zeroed size _ => size
  | .uninit _ => 0
  | .raw _ _ => 0
  | .cacheAligned _ => 0

def filling (data : ℕ → UInt8) : Kind → ℕ → UInt8
  | .zeroed _ _ => fun _ => 0
  | _ => data

def initial (data : ℕ → UInt8) (k : Kind) : ℕ → Option UInt8 :=
  fun i => if i < filledBytes k then some (filling data k i) else none

def fillAll (f : ℕ → Option UInt8) (spans : List Span) (m : ℕ → UInt8) : ℕ → UInt8 :=
  spans.foldl (fun m s => fill s f m) m

def elemSpan (d : Drop) : Span := ⟨d.slot.ptr + d.elem * d.slot.ty.size,d.slot.ty.size⟩

def scribble (junk : ℕ → UInt8) (ds : List Drop) (m : ℕ → UInt8) : ℕ → UInt8 :=
  ds.foldl (fun m d => fill (elemSpan d) (fun i => some (junk ((elemSpan d).start + i))) m) m

def requested : Op → Option Kind
  | .request _ r => some r.kind
  | .guarded _ r => some r.kind
  | _ => none

def given (op : Op) (data : ℕ → UInt8) : (ℕ → UInt8) × (ℕ → Option UInt8) :=
  match requested op with
  | none => (data,fun _ => none)
  | some k => (filling data k,initial data k)

structure Loaded where
  world : World
  memory : ℕ → UInt8
  store : Store ℕ UInt8

inductive Act where
  | call (op : Op) (data : ℕ → UInt8)
  | write (stamp i : ℕ) (x : UInt8)

namespace Loaded

def start (A : Arena) (memory : ℕ → UInt8) : Loaded := ⟨World.start A,memory,fun _ _ => none⟩

def fresh (L : Loaded) (w : World) : List Grant :=
  w.issued.take (w.issued.length - L.world.issued.length)

def afterCall (L : Loaded) (op : Op) (data : ℕ → UInt8) : Loaded :=
  let w := L.world.step op
  let destroyed := w.drops.drop L.world.drops.length
  ⟨w,fillAll (fun i => some ((given op data).1 i)) ((L.fresh w).flatMap (·.wrote))
      (scribble data destroyed L.memory),
    (L.fresh w).foldl (fun S g => Function.update S g.stamp (given op data).2) L.store⟩

def liveAt (L : Loaded) (stamp : ℕ) : Option Grant := L.world.live.find? (fun g => g.stamp = stamp)

def step (L : Loaded) : Act → Loaded
  | .call op data => L.afterCall op data
  | .write stamp i x =>
    match L.liveAt stamp with
    | none => L
    | some g => ⟨L.world,Function.update L.memory (g.region.span.start + i) x,put L.store stamp i x⟩

end Loaded

/-- Calls in order, and writes within allocations that are live. -/
def Respectful (L : Loaded) : Act → Prop
  | .call op _ => Orderly L.world op
  | .write stamp i _ => ∃ g ∈ L.world.live, g.stamp = stamp ∧ i < g.region.span.size

def ReachedLoaded (L : Loaded) : Prop :=
  ∃ sys feature initialBytes A memory acts, Grants sys (InlineVec.new : Blocks) ∧
    Arena.withCapacity sys feature initialBytes = some A ∧
    Along Loaded.step Respectful (Loaded.start A memory) acts ∧
      L = run Loaded.step (Loaded.start A memory) acts

def Grant.object (g : Grant) : Object ℕ := ⟨g.stamp,g.region.span⟩

def objects (w : World) : List (Object ℕ) := w.live.map Grant.object

section filling
variable {A : Arena} {sys : SystemAlloc} {k : Kind} {size align p : ℕ}

theorem filledBytes_le (hd : k.demand = some (size,align)) : filledBytes k ≤ size := by
  cases k with
  | value ty =>
    obtain ⟨-,rfl,-⟩ := demand_unless hd
    exact le_refl _
  | slice ty len yields =>
    obtain ⟨-,rfl,-,-⟩ := sliceDemand_some hd
    change (if yields < len then yields * ty.size else len * ty.size) ≤ len * ty.size
    split
    · next hshort => exact Nat.mul_le_mul_right _ (Nat.le_of_lt hshort)
    · exact le_refl _
  | sliceCopy ty len =>
    obtain ⟨-,rfl,-,-⟩ := sliceDemand_some hd
    exact le_refl _
  | str len =>
    obtain ⟨-,rfl,-⟩ := demand_unless hd
    exact le_refl _
  | zeroed size' align' =>
    obtain ⟨-,rfl,-⟩ := demand_if hd
    exact le_refl _
  | uninit ty => exact Nat.zero_le _
  | raw size' align' => exact Nat.zero_le _
  | cacheAligned size' => exact Nat.zero_le _

theorem filled_wrote (k : Kind) (p : ℕ) (A : Arena) (f : ℕ → Option UInt8) (m : ℕ → UInt8) :
    fillAll f (k.filled p A).wrote m = fill ⟨p,filledBytes k⟩ f m := by
  have hnone : m = fill ⟨p,0⟩ f m := (fill_empty p).symm
  cases k with
  | value ty => rfl
  | slice ty len yields =>
    change fillAll f (placeElements ty len yields p A).wrote m =
      fill ⟨p,if yields < len then yields * ty.size else len * ty.size⟩ f m
    unfold placeElements
    split <;> rfl
  | sliceCopy ty len =>
    change fillAll f (placeElements ty len len p A).wrote m = fill ⟨p,len * ty.size⟩ f m
    rw [placeElements, if_neg (Nat.lt_irrefl len)]
    rfl
  | str len => rfl
  | zeroed size' align' => rfl
  | uninit ty => exact hnone
  | raw size' align' => exact hnone
  | cacheAligned size' => exact hnone

theorem serve_wrote (h : Wf A) {r : Request} (hr : r.Typed)
    (hcarve : (r.serve sys A).carved = some ⟨⟨p,size⟩,align⟩) (f : ℕ → Option UInt8)
    (m : ℕ → UInt8) :
    fillAll f (r.serve sys A).wrote m = fill ⟨p,filledBytes r.kind⟩ f m := by
  rcases serve_demand h sys hr with ⟨-,ret,drops,heq⟩ | ⟨size',align',-,heq⟩
  · rw [heq] at hcarve
    cases hcarve
  · rw [heq] at hcarve ⊢
    cases hraw : A.rawInner r.fallible sys size' align' with
    | mk ret A₁ =>
    rw [hraw] at hcarve
    cases ret with
    | ptr q =>
      obtain rfl : q = p := congrArg (fun reg => reg.span.start) (Option.some.inj hcarve)
      exact filled_wrote r.kind q A₁ f m
    | none => cases hcarve
    | panic message => cases hcarve

end filling

section steps
variable {w : World}

/-- A call issues nothing, or the one region of its request with what it wrote there. -/
theorem issued_step (h : Inv w) {op : Op} (hop : Honest w op) :
    (w.step op).issued = w.issued ∨ ∃ g k, (w.step op).issued = g :: w.issued ∧
      g.stamp = w.clock ∧ requested op = some k ∧ filledBytes k ≤ g.region.span.size ∧
        ∀ f m, fillAll f g.wrote m = fill ⟨g.region.span.start,filledBytes k⟩ f m := by
  have hstep := stepped h hop
  generalize w.step op = w' at hstep
  cases hstep with
  | @served sys r o hcall ho hserved =>
    cases hserved with
    | carved hd _ _ hcarved hcarve hfills =>
      right
      obtain ⟨registry,harena,-,-⟩ := hfills.arena_eq
      have hissued : (w.take o).issued = w.grantOf o ++ w.issued := rfl
      rw [grantOf_carved hcarve harena, List.singleton_append] at hissued
      have hkind : requested op = some r.kind ∧ r.Typed := by
        rcases hcall with rfl | ⟨rfl,-⟩
        · exact ⟨rfl,hop.2⟩
        · exact ⟨rfl,hop.2⟩
      rw [ho] at hcarve
      refine ⟨_,r.kind,hissued,rfl,hkind.1,filledBytes_le hd,?_⟩
      rw [ho]
      exact serve_wrote h.wf hkind.2 hcarve
    | failed _ _ _ _ _ => exact Or.inl rfl
    | answered _ => exact Or.inl rfl
  | declined _ => exact Or.inl rfl
  | ticked _ => exact Or.inl rfl
  | noted _ => exact Or.inl rfl
  | rewound _ _ _ _ => exact Or.inl rfl
  | reset _ => exact Or.inl rfl

theorem spread_live (h : Inv w) : Spread (objects w) := by
  apply List.pairwise_map.mpr
  apply List.Pairwise.imp _ ((live_newest h).and (live_apart h))
  exact fun hab => ⟨Nat.ne_of_gt hab.1,hab.2⟩

theorem elemSpan_within {g : Grant} (h : Owing g) {time : ℕ} {d : Drop}
    (hd : d ∈ dropsAt time g) : (elemSpan d).Within g.region.span := by
  obtain ⟨e,he,rfl⟩ := List.mem_map.mp hd
  obtain ⟨s,hs,hk⟩ := List.mem_flatMap.mp he
  obtain ⟨k,hlt,rfl⟩ := List.mem_map.mp hk
  have hone : g.owes = [s] := by
    rcases h with hnone | ⟨s',hs',-⟩
    · rw [hnone] at hs
      cases hs
    · rw [hs'] at hs
      rw [hs', List.mem_singleton.mp hs]
  rw [← owing_extent h hone]
  have hmul : (k+1) * s.ty.size ≤ s.count * s.ty.size :=
    Nat.mul_le_mul_right _ (List.mem_range.mp hlt)
  rw [Nat.succ_mul] at hmul
  exact ⟨Nat.le_add_right _ _,by dsimp only [elemSpan, DropSlot.extent]; omega⟩

theorem same_scribble {s : Span} {ds : List Drop} (h : ∀ d ∈ ds, s.Apart (elemSpan d))
    (junk : ℕ → UInt8) (m : ℕ → UInt8) : Same s m (scribble junk ds m) := by
  induction ds generalizing m with
  | nil => exact same_refl s m
  | cons d ds ih =>
    exact same_trans (same_fill (h d List.mem_cons_self))
      (ih (fun d' hd' => h d' (List.mem_cons_of_mem _ hd')) _)

theorem same_destroyed (hinv : Inv w) (h : Coupled w) {gone kept : List Grant}
    (hlive : w.live = gone ++ kept) {g : Grant} (hg : g ∈ kept) (time : ℕ) (junk : ℕ → UInt8)
    (m : ℕ → UInt8) : Same g.region.span m (scribble junk (gone.flatMap (dropsAt time)) m) := by
  have hapart := live_apart hinv
  rw [hlive] at hapart
  obtain ⟨-,-,hcross⟩ := List.pairwise_append.mp hapart
  apply same_scribble
  intro d hd
  obtain ⟨g',hg',hd'⟩ := List.mem_flatMap.mp hd
  have hissued : g' ∈ w.issued :=
    hinv.live_issued.subset (hlive ▸ List.mem_append_left _ hg')
  exact apart_within (apart_symm (hcross g' hg' g hg)) (elemSpan_within (h.owing g' hissued) hd')

end steps

structure Kept (L : Loaded) : Prop where
  inv : Inv L.world
  stacked : Stacked L.world
  coupled : Coupled L.world
  holds : Holds (objects L.world) L.store L.memory

section kept
variable {L : Loaded}

theorem kept_write (h : Kept L) {stamp i : ℕ} (x : UInt8)
    (hi : ∃ g ∈ L.world.live, g.stamp = stamp ∧ i < g.region.span.size) :
    Kept (L.step (.write stamp i x)) := by
  obtain ⟨g,hg,hstamp,hlt⟩ := hi
  have hspread := spread_live h.inv
  cases hfound : L.liveAt stamp with
  | none =>
    simp only [Loaded.step, hfound]
    exact h
  | some g' =>
    have hg' := List.mem_of_find?_eq_some hfound
    have hstamp' : g'.stamp = stamp := by simpa using List.find?_some hfound
    have hobject : Grant.object g' = Grant.object g := by
      by_contra hne
      exact (spread_of_ne hspread (List.mem_map_of_mem hg') (List.mem_map_of_mem hg) hne).1
        (hstamp'.trans hstamp.symm)
    have hlt' : i < (Grant.object g').span.size := by
      rw [hobject]
      exact hlt
    have hput := holds_put h.holds hspread (List.mem_map_of_mem hg') hlt' x
    simp only [Loaded.step, hfound]
    rw [← hstamp']
    exact ⟨h.inv,h.stacked,h.coupled,hput⟩

theorem kept_call (h : Kept L) {op : Op} (hop : Orderly L.world op) (data : ℕ → UInt8) :
    Kept (L.step (.call op data)) := by
  have hl := logged_step h.inv h.stacked h.coupled hop
  have hinv := inv_step h.inv hop.1.1
  have hstacked := stacked_step h.inv h.stacked hop.1.1 hop.1.2
  refine ⟨hinv,hstacked,hl.coupled,?_⟩
  obtain ⟨new,kept,hlive',hlive,hissued⟩ := hl.live
  have hspread := spread_live hinv
  have hfresh : L.fresh (L.world.step op) = new := by
    rw [Loaded.fresh, hissued, List.length_append, Nat.add_sub_cancel, List.take_left]
  have hdestroyed : (L.world.step op).drops.drop L.world.drops.length =
      (reclaimed L.world (L.world.step op)).flatMap (dropsAt L.world.clock) := by
    rw [hl.drops, List.drop_left]
  have hkept : Holds (kept.map Grant.object) L.store
      (scribble data ((reclaimed L.world (L.world.step op)).flatMap (dropsAt L.world.clock))
        L.memory) := by
    apply holds_same (holds_subset h.holds _)
    · intro o ho
      obtain ⟨g,hg,rfl⟩ := List.mem_map.mp ho
      exact same_destroyed h.inv h.coupled hlive hg _ _ _
    · intro o ho
      obtain ⟨g,hg,rfl⟩ := List.mem_map.mp ho
      exact List.mem_map_of_mem (hlive ▸ List.mem_append_right _ hg)
  change Holds (objects (L.world.step op)) (L.afterCall op data).store (L.afterCall op data).memory
  unfold Loaded.afterCall objects at *
  dsimp only
  rw [hfresh, hdestroyed]
  rcases issued_step h.inv hop.1.1 with hsame | ⟨g,k,hone,hstamp,hkind,hle,hwrote⟩
  · obtain rfl : new = [] := List.append_left_eq_self.mp (hissued.symm.trans hsame)
    rw [hlive', List.nil_append]
    exact hkept
  · obtain rfl : new = [g] := List.append_cancel_right (hissued.symm.trans hone)
    rw [hlive'] at hspread ⊢
    have hgiven : given op data = (filling data k,initial data k) := by rw [given, hkind]
    have hfill : ∀ m, fill ⟨g.region.span.start,filledBytes k⟩ (fun i => some (filling data k i)) m =
        fill g.region.span (initial data k) m := by
      intro m
      have hknown : fill ⟨g.region.span.start,filledBytes k⟩ (fun i => some (filling data k i)) m =
          fill ⟨g.region.span.start,filledBytes k⟩ (initial data k) m :=
        fill_congr (fun i hi => (if_pos hi).symm)
      rw [hknown]
      exact fill_short hle (fun i hi => if_neg (Nat.not_lt.mpr hi))
    rw [hgiven, List.flatMap_singleton, hwrote, hfill]
    exact holds_create hkept (initial data k) hspread

theorem kept_reached (h : ReachedLoaded L) : Kept L := by
  obtain ⟨sys,feature,initialBytes,A,memory,acts,hs,hA,halong,rfl⟩ := h
  have hstart : Reached Orderly (World.start A) := ⟨sys,feature,initialBytes,A,[],hs,hA,trivial,rfl⟩
  obtain ⟨hinv,hstacked,hcoupled,-⟩ := settled_reached hstart
  apply run_invariant Loaded.step Respectful Kept _ _ acts _ halong
  · intro L act hL hact
    cases act with
    | call op data => exact kept_call hL hact data
    | write stamp i x => exact kept_write hL x hact
  · exact ⟨hinv,hstacked,hcoupled,holds_nil _ _⟩

def Answers (w : World) (sys : SystemAlloc) (r : Request) (op : Op) (o : Outcome) : Prop :=
  op = .request sys r ∧ o = r.serve sys w.arena ∨
    op = .guarded sys r ∧ ∃ f rest, w.opened = f::rest ∧ o = f.txn.serve sys w.arena r

theorem step_answers {w : World} {sys : SystemAlloc} {r : Request} {op : Op} {o : Outcome}
    (h : Answers w sys r op o) : w.step op = w.take o ∧ requested op = some r.kind ∧
      (o = r.serve sys w.arena ∨ ∃ f ∈ w.opened, o = f.txn.serve sys w.arena r) := by
  rcases h with ⟨rfl,rfl⟩ | ⟨rfl,f,rest,hopened,rfl⟩
  · exact ⟨rfl,rfl,Or.inl rfl⟩
  · refine ⟨by simp only [World.step, hopened],rfl,Or.inr ⟨f,?_,rfl⟩⟩
    rw [hopened]
    exact List.mem_cons_self

/-- Each live allocation keeps what it was given and what was written there since, whatever else is
allocated, written, rolled back or destroyed; and what a call returns reads as what the call was
given, all zero after `alloc_zeroed` also where memory was used before. -/
theorem references_read_back (h : ReachedLoaded L) :
    (∀ g ∈ L.world.live, ∀ i < g.region.span.size, ∀ x, L.store g.stamp i = some x →
      L.memory (g.region.span.start + i) = x) ∧
    ∀ sys r op o p size align data, Answers L.world sys r op o → Orderly L.world op →
      o.ret = .ptr p → r.kind.demand = some (size,align) → ∀ i < filledBytes r.kind,
        (L.step (.call op data)).memory (p+i) = filling data r.kind i := by
  have hkept := kept_reached h
  refine ⟨?_,?_⟩
  · intro g hg i hi x hx
    exact hkept.holds (Grant.object g) (List.mem_map_of_mem hg) i hi x hx
  · intro sys r op o p size align data hans hop hret hd i hi
    obtain ⟨hstep,hkind,hserve⟩ := step_answers hans
    have hhonest : Grants sys L.world.arena.blocks ∧ r.Typed := by
      rcases hans with ⟨rfl,-⟩ | ⟨rfl,-⟩
      · exact hop.1.1
      · exact hop.1.1
    have hcarve := noted_region hkept.inv hhonest hserve hret hd
    have hgrant : L.world.grantOf o = [⟨L.world.clock,o.arena.current,p - o.arena.curBase,
        ⟨⟨p,size⟩,align⟩,o.wrote,
        o.arena.dropRegistry.entries.drop L.world.arena.dropRegistry.len⟩] := by
      rw [World.grantOf, hcarve]
    have hfresh : L.fresh (L.world.step op) = L.world.grantOf o := by
      rw [hstep, Loaded.fresh]
      change (L.world.grantOf o ++ L.world.issued).take
        ((L.world.grantOf o ++ L.world.issued).length - L.world.issued.length) = _
      rw [List.length_append, Nat.add_sub_cancel, List.take_left]
    have hstore : (L.step (.call op data)).store L.world.clock i = some (filling data r.kind i) := by
      change (L.fresh (L.world.step op)).foldl
        (fun S g => Function.update S g.stamp (given op data).2) L.store L.world.clock i = _
      rw [hfresh, hgrant, given, hkind]
      dsimp only [List.foldl]
      rw [Function.update_self]
      exact if_pos hi
    have hlive : ∃ g ∈ (L.world.step op).live, g.stamp = L.world.clock ∧
        g.region.span = ⟨p,size⟩ := by
      rw [hstep]
      refine ⟨_,List.mem_append_left _ (by rw [hgrant]; exact List.mem_singleton_self _),rfl,rfl⟩
    obtain ⟨g,hg,hstamp,hspan⟩ := hlive
    have hholds := (kept_call hkept hop data).holds (Grant.object g) (List.mem_map_of_mem hg)
    simp only [Grant.object, hstamp, hspan] at hholds
    exact hholds i (lt_of_lt_of_le hi (filledBytes_le hd)) _ hstore

end kept

def recycledActs : List Act :=
  [.call (.request noMemory ⟨.value eightBytes,false⟩) (fun _ => 1),
    .call .checkpoint (fun _ => 0),
    .call (.request noMemory ⟨.str 5,false⟩) (fun _ => 104),
    .call (.rewind quiet 2) (fun _ => 255),
    .call (.request noMemory ⟨.zeroed 8 8,true⟩) (fun _ => 3),
    .write 1 0 7]

theorem references_read_back_recycledActs : ∃ A, smallArena true 64 = some A ∧
    (∀ g ∈ (run Loaded.step (Loaded.start A (fun _ => 9)) recycledActs).world.live,
      ∀ i < g.region.span.size, ∀ x,
        (run Loaded.step (Loaded.start A (fun _ => 9)) recycledActs).store g.stamp i = some x →
        (run Loaded.step (Loaded.start A (fun _ => 9)) recycledActs).memory
          (g.region.span.start + i) = x) ∧
    ([4096,4097,4104,4111,4112] : List ℕ).map
      (run Loaded.step (Loaded.start A (fun _ => 9)) recycledActs).memory = [7,1,0,0,9] := by
  obtain ⟨A,hA⟩ : ∃ A, smallArena true 64 = some A := ⟨_,rfl⟩
  have hreached : ReachedLoaded (run Loaded.step (Loaded.start A (fun _ => 9)) recycledActs) := by
    refine ⟨_,true,64,A,_,_,grants_small (by norm_num),hA,?_,rfl⟩
    have hstr : (5 : ℕ) < 2^63 := by norm_num
    have hzeroed : (8 : ℕ) < 2^64 := by norm_num
    refine ⟨⟨⟨⟨grants_noMemory _,trivial⟩,trivial⟩,trivial⟩,⟨⟨trivial,trivial⟩,trivial⟩,
      ⟨⟨⟨grants_noMemory _,hstr⟩,trivial⟩,trivial⟩,⟨⟨trivial,?_⟩,rfl⟩,
      ⟨⟨⟨grants_noMemory _,hzeroed⟩,trivial⟩,trivial⟩,?_,trivial⟩
    · exact List.mem_cons_self
    · change ∃ g ∈ World.live _, g.stamp = 1 ∧ 0 < g.region.span.size
      cases hA
      decide +kernel
  refine ⟨A,hA,(references_read_back hreached).1,?_⟩
  cases hA
  decide +kernel

end FastArena.ArenaContents
