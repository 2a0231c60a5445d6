import FastArena.SystemCalls
import FastArena.RegionSafety

/-!
# Arenas sharing a system allocator

Arenas made, used and dropped in any order over one system allocator. The
allocator promises something only to a program that keeps its rules: as long as
no call has released what was not outstanding, a grant is clear of everything
outstanding. What an arena owns is what is outstanding on its behalf.
-/

set_option autoImplicit false

namespace FastArena.ArenaFleet
open FastArena.ByteSpan FastArena.ArenaBlock FastArena.InlineStorage FastArena.ArenaCore
  FastArena.ArenaInvariant FastArena.RawRequest FastArena.ArenaRequests FastArena.LabelledRun
  FastArena.ArenaWorld FastArena.RegionSafety FastArena.SystemHeap FastArena.SystemCalls

structure Fleet where
  arenas : List World
  events : List Event

inductive FleetOp where
  | create (sys : SystemAlloc) (feature : Bool) (initialBytes : ℕ)
  | call (i : ℕ) (op : Op)
  | drop (i : ℕ)

namespace Fleet

def empty : Fleet := ⟨[],[]⟩

def step (f : Fleet) : FleetOp → Fleet
  | .create sys feature initialBytes =>
    ⟨((Arena.withCapacity sys feature initialBytes).map World.start).toList ++ f.arenas,
      f.events ++ createEvents sys initialBytes⟩
  | .call i op =>
    match f.arenas[i]? with
    | none => f
    | some w => ⟨f.arenas.set i (w.step op),f.events ++ opEvents w op⟩
  | .drop i =>
    match f.arenas[i]? with
    | none => f
    | some w => ⟨f.arenas.eraseIdx i,f.events ++ dropEvents w.arena⟩

def owned (f : Fleet) : List Chunk := f.arenas.flatMap (fun w => chunks w.arena.blocks)

end Fleet

/-- What the system allocator promises to a program that has released only what was outstanding. -/
def Promises (sys : SystemAlloc) (es : List Event) : Prop :=
  ∀ cs, play [] es = some cs → ∀ capacity align base, sys capacity align = some base →
    0 < base ∧ align ∣ base ∧ base + capacity ≤ addressTop ∧
      ∀ c ∈ cs, (⟨base,capacity⟩ : Span).Apart c.span

def Typed : Op → Prop
  | .request _ r => r.Typed
  | .guarded _ r => r.Typed
  | _ => True

def Careful (f : Fleet) : FleetOp → Prop
  | .create sys _ _ => Promises sys f.events
  | .call _ op => Promises (allocator op) f.events ∧ Typed op
  | .drop _ => True

def FleetReached (f : Fleet) : Prop :=
  ∃ ops, Along Fleet.step Careful Fleet.empty ops ∧ f = run Fleet.step Fleet.empty ops

/-- The arenas own exactly what is outstanding, and no byte of it twice. -/
structure FleetInv (f : Fleet) : Prop where
  inv : ∀ w ∈ f.arenas, Inv w
  settled : Settles [] f.events f.owned
  apart : f.owned.Pairwise (fun c d => c.span.Apart d.span)
  legal : AllLegal f.events

section steps
variable {f : Fleet} {arenas : List World} {es : List Event}

theorem spans_perm {cs cs' : List Chunk} (hperm : cs.Perm cs')
    (h : cs.Pairwise (fun c d => c.span.Apart d.span)) :
    cs'.Pairwise (fun c d => c.span.Apart d.span) :=
  (hperm.pairwise_iff apart_symm).mp h

theorem promises_owned (h : FleetInv f) {sys : SystemAlloc} (hsys : Promises sys f.events)
    {capacity align base : ℕ} (hgrant : sys capacity align = some base) :
    0 < base ∧ align ∣ base ∧ base + capacity ≤ addressTop ∧
      ∀ c ∈ f.owned, (⟨base,capacity⟩ : Span).Apart c.span := by
  obtain ⟨cs,hplay,hperm⟩ := h.settled
  obtain ⟨hpos,hdvd,htop,hapart⟩ := hsys cs hplay capacity align base hgrant
  exact ⟨hpos,hdvd,htop,fun c hc => hapart c (hperm.mem_iff.mpr hc)⟩

theorem owned_of_mem {w : World} (hw : w ∈ f.arenas) {c : Chunk}
    (hc : c ∈ chunks w.arena.blocks) : c ∈ f.owned :=
  List.mem_flatMap.mpr ⟨w,hw,hc⟩

theorem chunk_mem {blocks : Blocks} {i : ℕ} (hi : i < blocks.len) :
    chunk (blocks.get i) ∈ chunks blocks :=
  List.mem_map_of_mem (List.mem_map_of_mem (List.mem_range.mpr hi))

/-- What the shared allocator promises, it promises each arena. -/
theorem grants_of_promises (h : FleetInv f) {sys : SystemAlloc} (hsys : Promises sys f.events)
    {w : World} (hw : w ∈ f.arenas) : Grants sys w.arena.blocks := by
  intro capacity align base hgrant
  obtain ⟨hpos,hdvd,htop,hapart⟩ := promises_owned h hsys hgrant
  exact ⟨hpos,hdvd,htop,fun i hi => hapart _ (owned_of_mem hw (chunk_mem hi))⟩

theorem fleetInv_gain (h : FleetInv f) {sys : SystemAlloc} (hsys : Promises sys f.events)
    {new : Option Chunk} (hgrant : ∀ c ∈ new, sys c.size c.align = some c.base)
    (hsettle : ∀ cs, Settles cs es (new.toList++cs)) (hlegal : AllLegal es)
    (hinv : ∀ w ∈ arenas, Inv w)
    (howned : (new.toList ++ f.owned).Perm (Fleet.owned ⟨arenas,f.events++es⟩)) :
    FleetInv ⟨arenas,f.events++es⟩ where
  inv := hinv
  settled := settles_perm (settles_append h.settled (hsettle f.owned)) howned
  apart := by
    apply spans_perm howned
    cases new with
    | none => exact h.apart
    | some c =>
      exact List.pairwise_cons.mpr ⟨(promises_owned h hsys (hgrant c rfl)).2.2.2,h.apart⟩
  legal := allLegal_append h.legal hlegal

theorem fleetInv_create (h : FleetInv f) {sys : SystemAlloc} (hsys : Promises sys f.events)
    (feature : Bool) (initialBytes : ℕ) : FleetInv (f.step (.create sys feature initialBytes)) := by
  have hs : Grants sys (InlineVec.new : Blocks) := by
    intro capacity align base hgrant
    obtain ⟨hpos,hdvd,htop,-⟩ := promises_owned h hsys hgrant
    exact ⟨hpos,hdvd,htop,fun i hi => absurd hi (Nat.not_lt_zero i)⟩
  simp only [Fleet.step]
  cases hA : Arena.withCapacity sys feature initialBytes with
  | none =>
    obtain ⟨hvain,hlegal⟩ := createEvents_none hA
    have hgrant : ∀ c ∈ (none : Option Chunk), sys c.size c.align = some c.base := nofun
    exact fleetInv_gain h hsys hgrant (settles_declines hvain) hlegal h.inv (List.Perm.refl _)
  | some A =>
    obtain ⟨⟨new,hnew,hgrant,hsettle⟩,hlegal⟩ := accounts_create hA
    obtain ⟨hwf,-,-,-,-,hregistry⟩ := wf_withCapacity hs hA
    apply fleetInv_gain h hsys hgrant hsettle hlegal
    · intro w hw
      rcases List.mem_cons.mp hw with rfl | hold
      · exact inv_start hwf (by rw [hregistry, DropTracking.DropRegistry.entries_new])
      · exact h.inv w hold
    · change (new.toList ++ f.owned).Perm (chunks A.blocks ++ f.owned)
      rw [hnew]
      exact List.Perm.refl _

/-- The arena called, among the others. -/
theorem arenas_split {i : ℕ} {w : World} (hw : f.arenas[i]? = some w) :
    ∃ front back, f.arenas = front ++ w :: back ∧
      (∀ w', f.arenas.set i w' = front ++ w' :: back) ∧ f.arenas.eraseIdx i = front ++ back := by
  obtain ⟨hi,rfl⟩ := List.getElem?_eq_some_iff.mp hw
  refine ⟨f.arenas.take i,f.arenas.drop (i+1),?_,fun w' => ?_,List.eraseIdx_eq_take_drop_succ _ _⟩
  · rw [List.getElem_cons_drop, List.take_append_drop]
  · rw [List.set_eq_take_append_cons_drop, if_pos hi]

theorem owned_split (front back : List World) (w : World) (es : List Event) :
    (Fleet.owned ⟨front ++ w :: back,es⟩).Perm
      (chunks w.arena.blocks ++ Fleet.owned ⟨front ++ back,es⟩) := by
  unfold Fleet.owned
  rw [List.flatMap_append, List.flatMap_cons, List.flatMap_append]
  exact List.perm_append_comm_assoc _ _ _

theorem honest_of_careful (h : FleetInv f) {w : World} (hw : w ∈ f.arenas) {op : Op}
    (hop : Promises (allocator op) f.events ∧ Typed op) : Honest w op := by
  cases op with
  | request sys r => exact ⟨grants_of_promises h hop.1 hw,hop.2⟩
  | guarded sys r => exact ⟨grants_of_promises h hop.1 hw,hop.2⟩
  | _ => trivial

theorem fleetInv_call (h : FleetInv f) {i : ℕ} {w : World} (hw : f.arenas[i]? = some w) {op : Op}
    (hop : Promises (allocator op) f.events ∧ Typed op) :
    FleetInv ⟨f.arenas.set i (w.step op),f.events ++ opEvents w op⟩ := by
  obtain ⟨front,back,hsplit,hset,-⟩ := arenas_split hw
  have hmem : w ∈ f.arenas := List.mem_of_getElem? hw
  have hhonest := honest_of_careful h hmem hop
  obtain ⟨⟨new,hnew,hgrant,hsettle⟩,hlegal⟩ := accounts_step (h.inv w hmem) hhonest
  have hold : f.owned.Perm (chunks w.arena.blocks ++ Fleet.owned ⟨front ++ back,f.events⟩) := by
    have hperm := owned_split front back w f.events
    rw [← hsplit] at hperm
    exact hperm
  apply fleetInv_gain h hop.1 hgrant hsettle hlegal
  · intro w' hw'
    rcases List.mem_or_eq_of_mem_set hw' with hw' | rfl
    · exact h.inv w' hw'
    · exact inv_step (h.inv w hmem) hhonest
  · rw [hset (w.step op)]
    refine List.Perm.trans ?_ (owned_split front back (w.step op) _).symm
    rw [hnew, List.append_assoc]
    refine ((hold.append_left _).trans ?_)
    exact List.perm_append_comm_assoc _ _ _

theorem fleetInv_drop (h : FleetInv f) {i : ℕ} {w : World} (hw : f.arenas[i]? = some w) :
    FleetInv ⟨f.arenas.eraseIdx i,f.events ++ dropEvents w.arena⟩ := by
  obtain ⟨front,back,hsplit,-,herase⟩ := arenas_split hw
  have hold : f.owned.Perm (chunks w.arena.blocks ++ Fleet.owned ⟨front ++ back,f.events⟩) := by
    have hperm := owned_split front back w f.events
    rw [← hsplit] at hperm
    exact hperm
  have hrest : Fleet.owned ⟨f.arenas.eraseIdx i,f.events ++ dropEvents w.arena⟩ =
      Fleet.owned ⟨front ++ back,f.events⟩ := by
    rw [herase]
    rfl
  constructor
  · exact fun w' hw' => h.inv w' (List.mem_of_mem_eraseIdx hw')
  · rw [hrest, dropEvents_eq]
    exact settles_append (settles_perm h.settled hold) (settles_releases _ _)
  · rw [hrest]
    exact (List.pairwise_append.mp (spans_perm hold h.apart)).2.1
  · apply allLegal_append h.legal
    intro e he
    obtain ⟨b,-,rfl⟩ := List.mem_map.mp he
    exact nofun

theorem fleetInv_step (h : FleetInv f) {op : FleetOp} (hop : Careful f op) :
    FleetInv (f.step op) := by
  cases op with
  | create sys feature initialBytes => exact fleetInv_create h hop feature initialBytes
  | call i op =>
    simp only [Fleet.step]
    cases hw : f.arenas[i]? with
    | none => exact h
    | some w => exact fleetInv_call h hw hop
  | drop i =>
    simp only [Fleet.step]
    cases hw : f.arenas[i]? with
    | none => exact h
    | some w => exact fleetInv_drop h hw

end steps

theorem fleetInv_empty : FleetInv Fleet.empty :=
  ⟨nofun,settles_nil [],List.Pairwise.nil,nofun⟩

theorem fleetInv_reached {f : Fleet} (h : FleetReached f) : FleetInv f := by
  obtain ⟨ops,halong,rfl⟩ := h
  exact run_invariant Fleet.step Careful FleetInv (fun f op hf hop => fleetInv_step hf hop) _ ops
    fleetInv_empty halong

theorem promises_oneBlock {es : List Event} {capacity base : ℕ} (hpos : 0 < base)
    (hdvd : minBlockAlign ∣ base) (htop : base + capacity ≤ addressTop)
    (hapart : ∀ c ∈ (play [] es).getD [],
      base + capacity ≤ c.base ∨ c.base + c.size ≤ base) :
    Promises (oneBlock capacity base) es := by
  intro cs hplay c a b hsys
  simp only [oneBlock, Option.ite_none_right_eq_some, Option.some.injEq] at hsys
  obtain ⟨⟨rfl,rfl⟩,rfl⟩ := hsys
  refine ⟨hpos,hdvd,htop,fun d hd => ?_⟩
  rw [hplay] at hapart
  rcases hapart d hd with hle | hle
  · exact apart_of_le hle
  · exact apart_symm (apart_of_le hle)

theorem promises_noMemory (es : List Event) : Promises noMemory es := nofun

def twoArenas : List FleetOp :=
  [.create (oneBlock 64 4096) true 64,.create (oneBlock 64 8192) true 64,
    .call 0 (.request noMemory ⟨.value eightBytes,false⟩),
    .call 1 (.request noMemory ⟨.value eightBytes,false⟩),
    .call 0 (.request (oneBlock 128 12288) ⟨.raw 64 8,true⟩)]

theorem along_twoArenas : Along Fleet.step Careful Fleet.empty twoArenas := by
  have hdvd : ∀ n, minBlockAlign ∣ 64 * n := fun n => Nat.dvd_mul_right 64 n
  have hraw : (64 : ℕ) < 2^64 := by norm_num
  refine ⟨?_,?_,⟨promises_noMemory _,trivial⟩,⟨promises_noMemory _,trivial⟩,⟨?_,hraw⟩,trivial⟩
  · exact promises_oneBlock (by norm_num) (hdvd 64) (by norm_num [addressTop]) (by decide +kernel)
  · exact promises_oneBlock (by norm_num) (hdvd 128) (by norm_num [addressTop]) (by decide +kernel)
  · exact promises_oneBlock (by norm_num) (hdvd 192) (by norm_num [addressTop]) (by decide +kernel)

/-- Whatever arenas are made, used and dropped, in any order: every chunk released was outstanding
and went back with its own address and layout, and what is outstanding is what the remaining
arenas own, nothing once all are gone. Each layout asked for is legal, also where the call is
refused. -/
theorem heap_balanced {f : Fleet} (h : FleetReached f) :
    (∃ cs, play [] f.events = some cs ∧ cs.Perm f.owned) ∧
      (f.arenas = [] → play [] f.events = some []) ∧
        ∀ e ∈ f.events, ∀ layout ∈ e.asked,
          0 < layout.1 ∧ layoutFits layout.1 layout.2 = true := by
  have hinv := fleetInv_reached h
  refine ⟨hinv.settled,?_,hinv.legal⟩
  intro hnone
  obtain ⟨cs,hplay,hperm⟩ := hinv.settled
  have howned : f.owned = [] := by
    rw [Fleet.owned, hnone]
    rfl
  rw [howned] at hperm
  rw [hplay, hperm.eq_nil]

theorem heap_balanced_twoArenas :
    (run Fleet.step Fleet.empty (twoArenas ++ [.drop 0,.drop 0])).events.length = 6 ∧
      play [] (run Fleet.step Fleet.empty (twoArenas ++ [.drop 0,.drop 0])).events = some [] := by
  have halong : Along Fleet.step Careful Fleet.empty (twoArenas ++ [.drop 0,.drop 0]) :=
    (along_append _ _ _ _ _).mpr ⟨along_twoArenas,trivial,trivial,trivial⟩
  have hnone : (run Fleet.step Fleet.empty (twoArenas ++ [.drop 0,.drop 0])).arenas.length = 0 := by
    decide +kernel
  exact ⟨by decide +kernel,
    (heap_balanced ⟨_,halong,rfl⟩).2.1 (List.length_eq_zero_iff.mp hnone)⟩

theorem live_within_chunk {w : World} (h : Inv w) {g : Grant} (hg : g ∈ w.live) :
    ∃ c ∈ chunks w.arena.blocks, g.region.span.Within c.span := by
  have hsituated := h.situated g (h.live_issued.subset hg)
  exact ⟨_,chunk_mem hsituated.lane_lt,situated_within hsituated⟩

/-- No two live regions share a byte, be they of one arena or of two, and all of them lie in memory
that is outstanding. -/
theorem fleet_live_apart {f : Fleet} (h : FleetReached f) :
    (f.arenas.flatMap (·.live)).Pairwise (fun a b => a.region.span.Apart b.region.span) ∧
      ∃ cs, play [] f.events = some cs ∧
        ∀ w ∈ f.arenas, ∀ g ∈ w.live, ∃ c ∈ cs, g.region.span.Within c.span := by
  have hinv := fleetInv_reached h
  constructor
  · apply List.pairwise_flatMap.mpr
    refine ⟨fun w hw => live_apart (hinv.inv w hw),?_⟩
    apply List.Pairwise.imp_of_mem _ (List.pairwise_flatMap.mp hinv.apart).2
    intro w w' hw hw' hapart g hg g' hg'
    obtain ⟨c,hc,hwithin⟩ := live_within_chunk (hinv.inv w hw) hg
    obtain ⟨c',hc',hwithin'⟩ := live_within_chunk (hinv.inv w' hw') hg'
    exact apart_of_within hwithin hwithin' (hapart c hc c' hc')
  · obtain ⟨cs,hplay,hperm⟩ := hinv.settled
    refine ⟨cs,hplay,?_⟩
    intro w hw g hg
    obtain ⟨c,hc,hwithin⟩ := live_within_chunk (hinv.inv w hw) hg
    exact ⟨c,hperm.mem_iff.mpr (owned_of_mem hw hc),hwithin⟩

theorem fleet_live_apart_twoArenas :
    ((run Fleet.step Fleet.empty twoArenas).arenas.flatMap (·.live)).map (·.region.span) =
        [⟨12288,64⟩,⟨8192,8⟩,⟨4096,8⟩] ∧
      ((run Fleet.step Fleet.empty twoArenas).arenas.flatMap (·.live)).Pairwise
        (fun a b => a.region.span.Apart b.region.span) :=
  ⟨by decide +kernel,(fleet_live_apart ⟨twoArenas,along_twoArenas,rfl⟩).1⟩

end FastArena.ArenaFleet
