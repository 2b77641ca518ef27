import HashLink.Gc.IncrementalSafety

/-!
What every step keeps of the pages, whatever the program leaves in its blocks. Tracing and capturing
only add marks and move the lists of the marker, and a page of the current cycle has its mark bits.
-/

namespace HashLink.Gc

namespace GcInc

variable {s s' : GcInc}

theorem traces_enqueue (s : GcInc) (b : BlockRef) : s.Traces (s.enqueue b) :=
  (visits_enqueue s b).traces

theorem traces_visit (s : GcInc) (interior : Bool) (ptr : Nat) :
    s.Traces (s.visit interior ptr) := by
  unfold visit
  split
  · exact .refl s
  · split
    · exact .refl s
    · exact (traces_setMark s _).trans (traces_enqueue _ _)

theorem traces_visits (words : List Nat) (s : GcInc) :
    s.Traces (words.foldl (fun s ptr => s.visit true ptr) s) := by
  induction words generalizing s with
  | nil => exact .refl s
  | cons ptr words ih => exact (traces_visit s true ptr).trans (ih _)

theorem traces_visitRoots (s : GcInc) : s.Traces s.visitRoots := traces_visits s.roots s

theorem traces_dirtyPop (s : GcInc) (id : Nat) (rest : List Nat) :
    s.Traces (s.dirtyPop id rest) :=
  (Traces.modifyPage s id fun p _ => p.keeps_setDirty false).setLists _ _ _ _ _ _ _

theorem traces_rescanBlock (s : GcInc) (b : BlockRef) : s.Traces (s.rescanBlock b) := by
  rcases rescanBlock_cases s b with ⟨-, heq⟩ | ⟨-, ⟨c, -, -, heq⟩ | ⟨-, heq⟩⟩
  · rw [heq]
    exact .refl s
  · rw [heq]
    exact (Traces.refl s).setLists _ _ _ _ _ _ _
  · rw [heq]
    exact traces_enqueue s b

theorem traces_rescanDirty (fuel : Nat) (s : GcInc) : s.Traces (rescanDirty fuel s).1 := by
  induction fuel generalizing s with
  | zero => exact .refl s
  | succ fuel ih =>
    unfold rescanDirty
    split
    · split
      · exact .refl s
      · exact (traces_dirtyPop s _ _).trans (ih _)
    · split
      · exact ((traces_rescanBlock s _).setLists _ _ _ _ _ _ _).trans (ih _)
      · exact ((Traces.refl s).setLists _ _ _ _ _ _ _).trans (ih _)

theorem traces_finishBlock (s : GcInc) (b : BlockRef) : s.Traces (s.finishBlock b) :=
  (Traces.modifyPage s b.1 fun p _ => p.keeps_setQueued b.2 false).setLists _ _ _ _ _ _ _

theorem traces_drain (fuel : Nat) (s : GcInc) : s.Traces (drain fuel s).1 := by
  induction fuel generalizing s with
  | zero => exact .refl s
  | succ fuel ih =>
    unfold drain
    split
    · split
      · exact .refl s
      · exact ((Traces.refl s).setLists _ _ _ _ _ _ _).trans (ih _)
    · split
      · exact (((Traces.refl s).setLists _ _ _ _ _ _ _).trans (traces_visit _ _ _)).trans (ih _)
      · exact (traces_finishBlock s _).trans (ih _)

theorem traces_traceSlice (d : Deadlines) (s : GcInc) : s.Traces (traceSlice d s).1 := by
  have hscan := (traces_visitRoots s).trans (traces_rescanDirty d.rescan s.visitRoots)
  unfold traceSlice
  generalize rescanDirty d.rescan s.visitRoots = r at hscan ⊢
  obtain ⟨t, done⟩ := r
  cases done with
  | false => exact hscan
  | true => exact hscan.trans (traces_drain d.drain t)

theorem traces_dirtyEnqueue (s : GcInc) (id : Nat) : s.Traces (s.dirtyEnqueue id) := by
  rcases dirtyEnqueue_eq s id with ⟨heq, -⟩ | heq
  · rw [heq]
    exact .refl s
  · rw [heq]
    exact (Traces.modifyPage s id fun p _ => p.keeps_setDirty true).setLists _ _ _ _ _ _ _

theorem Captures.traces (h : s.Captures s') : s.Traces s' := by
  induction h with
  | refl => exact .refl s
  | walk walk _ ih => exact ih.setLists _ _ _ _ _ _ _
  | dirty id _ ih => exact ih.trans (traces_dirtyEnqueue _ id)

theorem traces_captureSlice (c : Capture) (h : (captureSlice c s).state = some s') :
    s.Traces s' := by
  unfold captureSlice at h
  split at h
  · cases h
    exact .refl s
  · rename_i hcollect
    cases h
    exact (captures_collect c hcollect).traces.setLists _ _ _ _ _ _ _
  · rename_i hcollect
    have htraces := (captures_collect c hcollect).traces
    split at h
    · split at h
      · cases h
        exact htraces.setLists _ _ _ _ _ _ _
      · cases h
    · cases h
      exact htraces

/-- The heap at any time. In a cycle a page that has been prepared has its mark bits, and every other
page waits to be prepared. -/
structure Sound (s : GcInc) : Prop where
  heap : s.Heap
  bits : s.active = true → ∀ (id : Nat) (p : IncPage), s.pages[id]? = some p → p.epoch = s.epoch →
    p.page.bmp.isSome = true ∧ p.page.needFlush = false
  prepared : s.active = true → ∀ (id : Nat) (p : IncPage), s.pages[id]? = some p →
    p.epoch = s.epoch ∨ s.preparing = true ∧ s.Waits id

theorem Idle.sound (h : s.Idle) : s.Sound :=
  ⟨h.heap, fun hactive => absurd (h.active.symm.trans hactive) Bool.false_ne_true,
    fun hactive => absurd (h.active.symm.trans hactive) Bool.false_ne_true⟩

theorem Sound.of_inactive (h : s.Heap) (hidle : s.active = false) : s.Sound :=
  ⟨h, fun hactive => absurd (hidle.symm.trans hactive) Bool.false_ne_true,
    fun hactive => absurd (hidle.symm.trans hactive) Bool.false_ne_true⟩

theorem Sound.traces (h : s.Sound) (ht : s.Traces s') : s'.Sound where
  heap := h.heap.traces ht
  bits hactive id p' hp' hepoch := by
    obtain ⟨p, hp, hkeeps⟩ := ht.page hp'
    obtain ⟨hbits, hsettled⟩ := h.bits (ht.active ▸ hactive) id p hp
      (hkeeps.epoch.symm.trans (hepoch.trans ht.epoch))
    refine ⟨?_, ?_⟩
    · rw [← Option.isSome_map (f := List.length), hkeeps.bits, Option.isSome_map]
      exact hbits
    · rw [hkeeps.same]
      exact hsettled
  prepared hactive := Prepared.traces (h.prepared (ht.active ▸ hactive)) ht

theorem Sound.turn {id : Nat} {p p' : IncPage} (h : s.Sound) (hframe : s.Frame s')
    (hturn : Turns s s' id p p') (hok : p'.Ok) (hepoch : p'.epoch = p.epoch ∨ p'.epoch = s.epoch)
    (hbits : s.active = true → p'.epoch = s.epoch →
      p'.page.bmp.isSome = true ∧ p'.page.needFlush = false) : s'.Sound where
  heap := by
    refine h.heap.turn hframe hturn hok ?_
    rcases hepoch with heq | heq
    · rw [heq]
      exact h.heap.epochs id p hturn.old
    · exact Nat.le_of_eq heq
  bits hactive id' q hq hqe := by
    rw [hframe.active] at hactive
    rw [hframe.epoch] at hqe
    rcases hturn.page hq with ⟨rfl, rfl⟩ | ⟨-, hq⟩
    · exact hbits hactive hqe
    · exact h.bits hactive id' q hq hqe
  prepared hactive := Prepared.turn (h.prepared (hframe.active ▸ hactive)) hframe hturn hepoch

theorem Sound.preparePage (h : s.Sound) (id : Nat) :
    (s.modifyPage id (GcInc.preparePage s.epoch)).Sound := by
  cases hp : s.pages[id]? with
  | none =>
    rw [modifyPage_same fun p hp' => (nomatch hp.symm.trans hp')]
    exact h
  | some p =>
    by_cases hepoch : p.epoch = s.epoch
    · rw [modifyPage_same fun p' hp' => ?_]
      · exact h
      · cases hp.symm.trans hp'
        exact hepoch ▸ preparePage_self p
    · obtain ⟨hok, hepoch', -, -, -, hbits, hsettled, -⟩ := prepared_spec (h.heap.ok id p hp) hepoch
      exact h.turn ⟨rfl, rfl, rfl, rfl, rfl, rfl, rfl, rfl, rfl, rfl, rfl⟩ ⟨hp, modifyPage_eq hp _⟩
        hok (.inr hepoch') fun _ _ => ⟨hbits, hsettled⟩

theorem prepareSlice_sound (fuel : Nat) (h : s.Sound) (hactive : s.active = true)
    (hpreparing : s.preparing = true) :
    GcInc.Sound { (prepareSlice fuel s).1 with preparing := !(prepareSlice fuel s).2 } := by
  have hprepared := prepareSlice_prepared fuel h.heap.ok (h.prepared hactive) hpreparing
  obtain ⟨pid, cursor, hsound⟩ : ∃ pid cursor,
      GcInc.Sound { (prepareSlice fuel s).1 with preparePid := pid, prepareCursor := cursor } := by
    refine prepareSlice_keeps (P := fun r => ∃ pid cursor,
      GcInc.Sound { r with preparePid := pid, prepareCursor := cursor }) ?_ ?_ fuel ⟨_, _, h⟩
    · rintro r id ⟨pid, cursor, hr⟩
      exact ⟨pid, cursor, hr.preparePage id⟩
    · rintro r _ _ ⟨pid, cursor, hr⟩
      exact ⟨pid, cursor, hr⟩
  exact ⟨⟨hsound.heap.epochs, hsound.heap.ok, hsound.heap.listed⟩, hsound.bits, fun _ => hprepared⟩

theorem Sound.beginCycle (h : s.Sound) (hidle : s.active = false) : s.beginCycle.Sound := by
  have hcycle : (GcInc.beginCycle { s with stack := [], cursor := none, rescan := none }).Cycle :=
    beginCycle_cycle ⟨⟨h.heap.epochs, h.heap.ok, h.heap.listed⟩, hidle, rfl, rfl, rfl⟩
  refine ⟨⟨hcycle.heap.epochs, hcycle.heap.ok, hcycle.heap.listed⟩, ?_, fun _ => hcycle.prepared⟩
  intro _ id p hp hepoch
  exact ⟨(hcycle.queues.ready id p hp hepoch).bits, (hcycle.queues.ready id p hp hepoch).settled⟩

theorem Sound.publish (h : s.Sound) (hactive : s.active = true) (hprepared : s.preparing = false) :
    s.publish.Sound := by
  refine Sound.of_inactive (heap_publish h.heap fun id q hq => (h.bits hactive id q hq ?_).1) rfl
  refine (h.prepared hactive id q hq).resolve_right fun hwait => ?_
  cases hprepared.symm.trans hwait.1

def SliceSound : Slice → Prop
  | .paused s | .published s | .failed s => s.Sound
  | .fatal => True

theorem sliceRule_sound (env : Env) :
    SliceRule env (fun s => s.Sound ∧ s.active = true ∧ s.preparing = false) SliceSound where
  trace d s h := by
    have ht := traces_traceSlice d s
    exact ⟨h.1.traces ht, ht.active.trans h.2.1, ht.preparing.trans h.2.2⟩
  capture s s' h hs' := by
    have ht := traces_captureSlice env.capture hs'
    exact ⟨h.1.traces ht, ht.active.trans h.2.1, ht.preparing.trans h.2.2⟩
  paused s h := h.1
  failed s h := h.1
  fatal := trivial
  published d s r h _ hr := by
    have ht := traces_traceSlice d s
    rw [hr] at ht
    exact (h.1.traces ht).publish (ht.active.trans h.2.1) (ht.preparing.trans h.2.2)

theorem slice_sound (env : Env) (h : s.Sound) : SliceSound (s.slice env) := by
  -- The state with which a slice goes on, in a new cycle or in the one that is active.
  obtain ⟨hstart, hactive⟩ : (if !s.active then s.beginCycle else s).Sound ∧
      (if !s.active then s.beginCycle else s).active = true := by
    cases hactive : s.active with
    | false => exact ⟨h.beginCycle hactive, rfl⟩
    | true => exact ⟨h, hactive⟩
  generalize ht : (if !s.active then s.beginCycle else s) = t at hstart hactive
  exact (sliceRule_sound env).slice ht hstart (prepareSlice_sound env.prepare hstart hactive)
    fun hprepared => ⟨hstart, hactive, hprepared⟩

theorem preparePage_spec {e : Nat} {p : IncPage} (hok : p.Ok)
    (hbits : p.epoch = e → p.page.bmp.isSome = true ∧ p.page.needFlush = false) :
    (GcInc.preparePage e p).Ok ∧ (GcInc.preparePage e p).epoch = e ∧
      (GcInc.preparePage e p).page.bmp.isSome = true ∧
      (GcInc.preparePage e p).page.needFlush = false ∧
      (GcInc.preparePage e p).page.maxBlocks = p.page.maxBlocks := by
  by_cases hepoch : p.epoch = e
  · obtain ⟨hsome, hsettled⟩ := hbits hepoch
    subst hepoch
    rw [preparePage_self]
    exact ⟨hok, rfl, hsome, hsettled, rfl⟩
  · obtain ⟨hok', hepoch', -, -, -, hsome, hsettled, -⟩ := prepared_spec hok hepoch
    obtain ⟨q, -, hflushes, heq⟩ := preparePage_eq hok hepoch
    refine ⟨hok', hepoch', hsome, hsettled, ?_⟩
    rw [heq]
    exact hflushes.same ▸ rfl

theorem Sound.alloc_page (h : s.Sound) {id size : Nat} {zero : Bool} {p : IncPage} {page : GcPage}
    {run : Run} (hp : s.pages[id]? = some p) (htake : p.page.takeBlock size = some (page, run)) :
    (s.alloc id size zero).Sound ∧ (s.active = true → (s.alloc id size zero).Marked (id, run.pos)) := by
  have hok := h.heap.ok id p hp
  obtain ⟨q, hq, hflushes, htakes⟩ := GcPage.takeBlock_spec hok.page htake
  have htaken := taken_of_takes hok hq hflushes htakes
  have hlt := (List.getElem?_eq_some_iff.mp hp).1
  rw [alloc_eq hp htake]
  cases hactive : s.active with
  | false =>
    refine ⟨?_, by simp⟩
    exact h.turn ⟨rfl, rfl, hactive.symm, rfl, rfl, rfl, rfl, rfl, rfl, rfl, rfl⟩ ⟨hp, rfl⟩ htaken.ok
      (.inl rfl) fun hon => absurd (hactive.symm.trans hon) Bool.false_ne_true
  | true =>
    obtain ⟨hok', hepoch, hbits, hsettled, hmax⟩ :=
      preparePage_spec (e := s.epoch) htaken.ok fun hepoch => by
        obtain ⟨hsome, hflush⟩ := h.bits hactive id p hp hepoch
        exact ⟨(htaken.ready hflush).1 ▸ hsome, htaken.settled⟩
    have hkeeps := (GcInc.preparePage s.epoch { p with page }).keeps_mark run.pos
    refine ⟨?_, fun _ => ?_⟩
    · refine h.turn ⟨rfl, rfl, hactive.symm, rfl, rfl, rfl, rfl, rfl, rfl, rfl, rfl⟩ ⟨hp, rfl⟩
        (hkeeps.ok hok') (.inr hepoch) fun _ _ => ⟨?_, ?_⟩
      · rw [if_pos rfl, ← Option.isSome_map (f := List.length), hkeeps.bits, Option.isSome_map]
        exact hbits
      · exact hsettled
    · refine ⟨_, List.getElem?_set_self hlt, ?_, ?_⟩
      · exact hepoch
      · exact GcPage.marked_set_self hok'.page hbits (hmax ▸ htaken.bound)

theorem Sound.alloc (h : s.Sound) (id size : Nat) (zero : Bool) : (s.alloc id size zero).Sound := by
  rcases alloc_cases s id size zero with heq | ⟨p, page, run, hp, htake⟩
  · rw [heq]
    exact h
  · exact (h.alloc_page hp htake).1

theorem Sound.reserve (h : s.Sound) (id size : Nat) (zero : Bool) :
    (s.reserve id size zero).Sound := by
  rcases reserve_cases s id size zero with heq | ⟨p, page, run, hp, htake⟩
  · rw [heq]
    exact h
  · have hok := h.heap.ok id p hp
    obtain ⟨q, hq, hflushes, htakes, -⟩ := GcPage.takeBuffer_spec hok.page htake
    have htaken := taken_of_takes hok hq hflushes htakes
    rw [reserve_eq hp htake]
    refine h.turn ⟨rfl, rfl, rfl, rfl, rfl, rfl, rfl, rfl, rfl, rfl, rfl⟩ ⟨hp, rfl⟩ htaken.ok
      (.inl rfl) fun hactive hepoch => ?_
    obtain ⟨hsome, hflush⟩ := h.bits hactive id p hp hepoch
    exact ⟨(htaken.ready hflush).1 ▸ hsome, htaken.settled⟩

theorem Sound.newPage (h : s.Sound) (slot : Nat) (pid : Pid) (base size : Nat) :
    (s.newPage slot pid base size).Sound := by
  rcases newPage_cases s slot pid base size with heq | ⟨hgrows, hok⟩
  · rw [heq]
    exact h
  · have hepoch : (s.bornPage pid base size).epoch = if s.active then s.epoch else 0 := rfl
    refine ⟨hgrows.heap h.heap hok ?_, ?_, ?_⟩
    · rw [hepoch]
      split
      · exact Nat.le_refl _
      · exact Nat.zero_le _
    · intro hactive id p hp hpe
      rw [hgrows.active] at hactive
      rw [hgrows.epoch] at hpe
      rcases hgrows.page hp with hp | ⟨-, rfl⟩
      · exact h.bits hactive id p hp hpe
      · simp [bornPage, Allocator.freshPage, hactive]
    · intro hactive
      rw [hgrows.active] at hactive
      exact hgrows.prepared (h.prepared hactive) (hepoch.trans (if_pos hactive))

theorem Sound.setMem (h : s.Sound) (mem : Nat → Nat → Nat) : GcInc.Sound { s with mem } :=
  ⟨⟨h.heap.epochs, h.heap.ok, h.heap.listed⟩, h.bits, h.prepared⟩

theorem Sound.store (h : s.Sound) (id i value : Nat) : (s.store id i value).Sound := by
  unfold GcInc.store
  simp only
  split
  · exact (h.traces (traces_dirtyEnqueue s id)).setMem _
  · exact h.setMem _

theorem Sound.step (h : s.Sound) {e : IncEvent} (hstep : s.step e = some s') : s'.Sound := by
  cases e with
  | slice env marks =>
    have hslice := slice_sound env h
    unfold GcInc.step at hstep
    simp only at hstep
    generalize s.slice env = r at hslice hstep
    cases r with
    | paused t =>
      cases hstep
      exact hslice
    | published t =>
      cases hstep
      exact hslice
    | failed t =>
      cases hstep
      exact (major_idle hslice.heap marks).sound
    | fatal => cases hstep
  | store id i value =>
    cases hstep
    exact h.store id i value
  | setRoots roots =>
    cases hstep
    exact ⟨⟨h.heap.epochs, h.heap.ok, h.heap.listed⟩, h.bits, h.prepared⟩
  | alloc id size zero =>
    cases hstep
    exact h.alloc id size zero
  | reserve id size zero =>
    cases hstep
    exact h.reserve id size zero
  | newPage slot pid base size =>
    cases hstep
    exact h.newPage slot pid base size
  | major marks =>
    cases hstep
    exact (major_idle h.heap marks).sound

end GcInc

end HashLink.Gc
