import HashLink.Gc.IncrementalProgram

/-! A cycle that publishes its marks has marked every reachable block, in every run whose allocations
leave no name of an unmarked block behind. -/

namespace HashLink.Gc

namespace GcInc

variable {s s' : GcInc}

/-- What a capture does: it moves the walk over the pages and makes pages dirty. -/
inductive Captures (s : GcInc) : GcInc → Prop where
  | refl : Captures s s
  | walk {r : GcInc} (walk : DirtyWalk) (h : Captures s r) : Captures s { r with dirtyWalk := walk }
  | dirty {r : GcInc} (id : Nat) (h : Captures s r) : Captures s (r.dirtyEnqueue id)

theorem captures_captureAll (kernel : Kernel) (ids : List Nat) {r : GcInc} (hr : s.Captures r)
    (h : captureAll kernel ids r = some s') : s.Captures s' := by
  induction ids generalizing r with
  | nil =>
    cases h
    exact hr
  | cons id ids ih =>
    unfold captureAll at h
    split at h
    · exact ih hr h
    · split at h
      · split at h
        · cases h
        · rename_i dirty _
          cases dirty with
          | false => exact ih hr h
          | true => exact ih (hr.dirty id) h
      · exact ih hr h

theorem captures_collectLoop (kernel : Kernel) (fuel : Nat) {r : GcInc} (hr : s.Captures r) {complete : Bool}
    (h : collectLoop kernel fuel r = some (s', complete)) : s.Captures s' := by
  induction fuel generalizing r with
  | zero =>
    cases h
    exact hr.walk _
  | succ fuel ih =>
    unfold collectLoop at h
    split at h
    · split at h
      · exact ih (hr.walk _) h
      · obtain ⟨t, ht, heq⟩ := Option.map_eq_some_iff.mp h
        cases heq
        refine .walk _ ?_
        split at ht
        · exact captures_captureAll kernel _ hr ht
        · cases ht
          exact hr
    · rename_i id rest _
      split at h
      · exact ih (hr.walk _) h
      · simp only at h
        split at h
        · cases h
        · rename_i dirty _
          have hdirty : s.Captures (if dirty = true then r.dirtyEnqueue id else r) := by
            split
            · exact hr.dirty id
            · exact hr
          -- the offset, then whether the page is done
          split at h <;> split at h <;> exact ih (hdirty.walk _) h

theorem captures_collect (c : Capture) {complete : Bool} (h : collect c s = some (s', complete)) :
    s.Captures s' := by
  unfold collect at h
  split at h
  · cases h
    exact .refl
  · simp only at h
    split at h
    · exact captures_collectLoop _ _ .refl h
    · exact captures_collectLoop _ _ (.walk _ .refl) h

theorem Captures.catches (h : s.Captures s') (hq : s.Queues) (htr : s.Traced) : s.Catches s' := by
  induction h with
  | refl => exact .refl hq htr
  | walk walk _ ih =>
    exact ⟨ih.traces.setLists _ _ _ _ _ _ _,
      ⟨ih.queues.ready, ih.queues.dirty, ih.queues.queued, ih.queues.stack, ih.queues.cursor⟩, ih.traced,
      ih.batch⟩
  | dirty id _ ih => exact ih.trans (catches_dirtyEnqueue ih.queues ih.traced id)

theorem works_takeBatch (hq : s.Queues) (htr : s.Traced) (hbatch : s.batch = []) :
    s.Traces { s with batch := s.incoming, incoming := [], discovering := false } ∧
      GcInc.Queues { s with batch := s.incoming, incoming := [], discovering := false } ∧
      GcInc.Traced { s with batch := s.incoming, incoming := [], discovering := false } := by
  have ht : s.Traces { s with batch := s.incoming, incoming := [], discovering := false } :=
    (Traces.refl s).setLists _ _ _ _ _ _ _
  refine ⟨ht, ⟨hq.ready, fun id p hp hdirty => ?_, hq.queued, hq.stack, hq.cursor⟩,
    htr.step ht fun b i hb _ _ => .inr ⟨hb, fun hpending => .inr ?_⟩⟩
  · rcases hq.dirty id p hp hdirty with hmem | hmem
    · exact .inr hmem
    · rw [hbatch] at hmem
      cases hmem
  · rcases hpending with hmem | hcursor | hmem | hmem | hrescan
    · exact .inl hmem
    · exact .inr (.inl hcursor)
    · exact .inr (.inr (.inr (.inl hmem)))
    · rw [hbatch] at hmem
      cases hmem
    · exact .inr (.inr (.inr (.inr hrescan)))

def Captured.state : Captured → Option GcInc
  | .ok s _ => some s
  | .failed s => some s
  | .fatal => none

theorem captureSlice_works (c : Capture) (hq : s.Queues) (htr : s.Traced)
    (h : (captureSlice c s).state = some s') : s.Traces s' ∧ s'.Queues ∧ s'.Traced := by
  unfold captureSlice at h
  split at h
  · cases h
    exact ⟨.refl s, hq, htr⟩
  · rename_i hcollect
    cases h
    have hcatches := (captures_collect c hcollect).catches hq htr
    exact ⟨hcatches.traces.setLists _ _ _ _ _ _ _, ⟨hcatches.queues.ready, hcatches.queues.dirty,
      hcatches.queues.queued, hcatches.queues.stack, hcatches.queues.cursor⟩, hcatches.traced⟩
  · rename_i hcollect
    have hcatches := (captures_collect c hcollect).catches hq htr
    split at h
    · split at h
      · rename_i hbatch
        cases h
        obtain ⟨ht, hqueues, htraced⟩ := works_takeBatch hcatches.queues hcatches.traced hbatch
        exact ⟨hcatches.traces.trans ht, hqueues, htraced⟩
      · cases h
    · cases h
      exact ⟨hcatches.traces, hcatches.queues, hcatches.traced⟩

theorem incoming_captureSlice {c : Capture} (h : captureSlice c s = .ok s' true) : s'.incoming = [] := by
  unfold captureSlice at h
  split at h
  · cases h
  · cases h
  · split at h
    · split at h
      · cases h
        rfl
      · cases h
    · cases h

/-- What a slice ends in, when tracing and capturing keep `P`. -/
structure SliceRule (env : Env) (P : GcInc → Prop) (R : Slice → Prop) : Prop where
  trace : ∀ (d : Deadlines) (s : GcInc), P s → P (traceSlice d s).1
  capture : ∀ s s' : GcInc, P s → (captureSlice env.capture s).state = some s' → P s'
  paused : ∀ s : GcInc, P s → R (.paused s)
  failed : ∀ s : GcInc, P s → R (.failed s)
  fatal : R .fatal
  published : ∀ (d : Deadlines) (s r : GcInc), P s → s.incoming = [] → traceSlice d s = (r, true) →
    R (.published r.publish)

namespace SliceRule

variable {env : Env} {P : GcInc → Prop} {R : Slice → Prop}

theorem traceAfter {d : Deadlines} (h : SliceRule env P R) (hs : P s) (hincoming : s.incoming = []) :
    R (GcInc.traceAfter { env with trace := d } s) := by
  have ht := h.trace d s hs
  have hpublished := h.published d s
  unfold GcInc.traceAfter
  simp only
  generalize traceSlice d s = r at ht hpublished ⊢
  obtain ⟨t, done⟩ := r
  cases done with
  | false => exact h.paused t ht
  | true => exact hpublished t hs hincoming rfl

theorem afterCapture {d : Deadlines} (h : SliceRule env P R) (hs : P s) :
    R (match captureSlice env.capture s with
      | .failed s => .failed s
      | .fatal => .fatal
      | .ok s false => .paused s
      | .ok s true => GcInc.traceAfter { env with trace := d } s) := by
  have hcapture := fun s' => h.capture s s' hs
  cases hc : captureSlice env.capture s with
  | failed t => exact h.failed t (hcapture t (hc ▸ rfl))
  | fatal => exact h.fatal
  | ok t complete =>
    have ht := hcapture t (hc ▸ rfl)
    cases complete with
    | false => exact h.paused t ht
    | true => exact h.traceAfter ht (incoming_captureSlice hc)

theorem traceThenCapture (h : SliceRule env P R) (hs : P s) : R (GcInc.traceThenCapture env s) := by
  have ht := h.trace env.trace s hs
  unfold GcInc.traceThenCapture
  generalize traceSlice env.trace s = r at ht ⊢
  obtain ⟨t, done⟩ := r
  cases done with
  | false => exact h.paused t ht
  | true => exact h.afterCapture (d := env.retrace) ht

/-- A slice goes on with the cycle that is active, or with a new one. -/
theorem slice (h : SliceRule env P R) {t : GcInc} (ht : (if !s.active then s.beginCycle else s) = t)
    (hstart : R (.failed t)) (hprepare : t.preparing = true →
      R (.paused { (prepareSlice env.prepare t).1 with preparing := !(prepareSlice env.prepare t).2 }))
    (hgo : t.preparing = false → P t) : R (s.slice env) := by
  unfold GcInc.slice
  simp only
  rw [ht]
  split
  · exact hstart
  · split
    · rename_i hpreparing
      exact hprepare hpreparing
    · rename_i hpreparing
      have hP := hgo (Bool.eq_false_iff.mpr hpreparing)
      split
      · exact h.afterCapture (d := env.trace) hP
      · exact h.traceThenCapture hP

end SliceRule

theorem beginCycle_cycle (h : s.Idle) : s.beginCycle.Cycle := by
  -- no page is prepared yet
  have hpage : ∀ (id : Nat) (p : IncPage), s.beginCycle.pages[id]? = some p →
      ∃ q, s.pages[id]? = some q ∧ p = q.setDirty false := by
    intro id p hp
    unfold beginCycle at hp
    simp only [List.getElem?_map] at hp
    obtain ⟨q, hq, rfl⟩ := Option.map_eq_some_iff.mp hp
    exact ⟨q, hq, rfl⟩
  have hepoch : ∀ (id : Nat) (p : IncPage), s.beginCycle.pages[id]? = some p →
      p.epoch < s.beginCycle.epoch := by
    intro id p hp
    obtain ⟨q, hq, rfl⟩ := hpage id p hp
    exact Nat.lt_succ_of_le (h.heap.epochs id q hq)
  have hunmarked : ∀ b, ¬s.beginCycle.Marked b := by
    rintro b ⟨p, hp, heq, -⟩
    exact absurd heq (Nat.ne_of_lt (hepoch _ p hp))
  have hstack : s.beginCycle.stack = [] := h.stack
  have hcursor : s.beginCycle.cursor = none := h.cursor
  constructor
  case heap =>
    refine ⟨fun id p hp => Nat.le_of_lt (hepoch id p hp), fun id p hp => ?_, fun id hid => ?_⟩
    · obtain ⟨q, hq, rfl⟩ := hpage id p hp
      exact (q.keeps_setDirty false).ok (h.heap.ok id q hq)
    · refine h.heap.listed id ?_
      unfold beginCycle at hid
      simp only [List.length_map] at hid
      exact hid
  case queues =>
    refine ⟨fun id p hp heq => absurd heq (Nat.ne_of_lt (hepoch id p hp)), fun id p hp hdirty => ?_,
      fun b p hp heq => absurd heq (Nat.ne_of_lt (hepoch b.1 p hp)), fun b hb => ?_, fun c hc => ?_⟩
    · obtain ⟨q, -, rfl⟩ := hpage id p hp
      cases hdirty
    · rw [hstack] at hb
      cases hb
    · rw [hcursor] at hc
      cases hc
  case traced => exact fun b hb => absurd hb (hunmarked b)
  case prepared =>
    intro id p hp
    refine .inr ⟨rfl, .inr ?_⟩
    obtain ⟨q, hq, -⟩ := hpage id p hp
    obtain ⟨ids, hmem, hin⟩ := h.heap.listed id (List.getElem?_eq_some_iff.mp hq).1
    obtain ⟨k, hk⟩ := List.mem_iff_getElem?.mp hmem
    exact ⟨k, ids, Nat.zero_le k, hk, hin⟩

/-- Preparing keeps what it keeps page by page, when that does not depend on how far it has come. -/
theorem prepareSlice_keeps {P : GcInc → Prop}
    (hpage : ∀ (s : GcInc) (id : Nat), P s → P (s.modifyPage id (preparePage s.epoch)))
    (hmove : ∀ (s : GcInc) (pid : Nat) (cursor : List Nat), P s →
      P { s with preparePid := pid, prepareCursor := cursor })
    (fuel : Nat) (h : P s) : P (prepareSlice fuel s).1 := by
  induction fuel generalizing s with
  | zero => exact h
  | succ fuel ih =>
    unfold prepareSlice
    split
    · exact ih (hmove _ _ _ (hpage s _ h))
    · split
      · exact ih (hmove s _ _ h)
      · exact h

theorem epoch_preparePage {e : Nat} {p : IncPage} (hok : p.Ok) : (GcInc.preparePage e p).epoch = e := by
  by_cases hepoch : p.epoch = e
  · rw [← hepoch, preparePage_self]
  · exact (prepared_spec hok hepoch).2.1

theorem ok_preparePage (hok : ∀ (id : Nat) (p : IncPage), s.pages[id]? = some p → p.Ok) (id' : Nat) :
    ∀ (id : Nat) (p : IncPage), (s.modifyPage id' (preparePage s.epoch)).pages[id]? = some p → p.Ok := by
  intro id p hp
  obtain ⟨q, hq, ⟨-, rfl⟩ | ⟨rfl, rfl⟩⟩ := page_modifyPage hp
  · exact hok id _ hq
  · by_cases hepoch : q.epoch = s.epoch
    · rw [← hepoch, preparePage_self]
      exact hok id q hq
    · exact (prepared_spec (hok id q hq) hepoch).1

theorem prepareSlice_prepared (fuel : Nat) (hok : ∀ (id : Nat) (p : IncPage), s.pages[id]? = some p → p.Ok)
    (h : s.Prepared) (hpreparing : s.preparing = true) :
    GcInc.Prepared { (prepareSlice fuel s).1 with preparing := !(prepareSlice fuel s).2 } := by
  induction fuel generalizing s with
  | zero => exact fun id p hp => (h id p hp).imp_right fun hwait => ⟨rfl, hwait.2⟩
  | succ fuel ih =>
    unfold prepareSlice
    split
    · rename_i id rest hcursor
      refine ih (ok_preparePage hok id) (fun id' p hp => ?_) hpreparing
      obtain ⟨q, hq, ⟨hne, rfl⟩ | ⟨-, rfl⟩⟩ := page_modifyPage hp
      · refine (h id' p hq).imp_right fun hwait => ⟨hpreparing, hwait.2.imp_left fun hmem => ?_⟩
        rw [hcursor] at hmem
        exact (List.mem_cons.mp hmem).resolve_left hne
      · exact .inl (epoch_preparePage (hok id' q hq))
    · rename_i hcursor
      have hcursor' : ∀ id, id ∉ s.prepareCursor := fun id hmem => by
        rw [hcursor] at hmem
        cases hmem
      split
      · rename_i ids hlist
        refine ih hok (fun id p hp => ?_) hpreparing
        refine (h id p hp).imp_right fun hwait => ⟨hpreparing, ?_⟩
        obtain ⟨k, ids', hle, hk, hin⟩ := hwait.2.resolve_left (hcursor' id)
        rcases Nat.eq_or_lt_of_le hle with rfl | hlt
        · rw [hlist] at hk
          cases hk
          exact .inl hin
        · exact .inr ⟨k, ids', hlt, hk, hin⟩
      · rename_i hlist
        refine fun id p hp => .inl ((h id p hp).resolve_right fun hwait => ?_)
        obtain ⟨k, ids', hle, hk, -⟩ := hwait.2.resolve_left (hcursor' id)
        have hlength := List.getElem?_eq_none_iff.mp hlist
        have := (List.getElem?_eq_some_iff.mp hk).1
        omega

theorem prepareSlice_cycle (fuel : Nat) (h : s.Cycle) (hpreparing : s.preparing = true) :
    GcInc.Cycle { (prepareSlice fuel s).1 with preparing := !(prepareSlice fuel s).2 } ∧
      (prepareSlice fuel s).1.active = s.active := by
  have hprepared := prepareSlice_prepared fuel h.heap.ok h.prepared hpreparing
  -- what the pages keep, wherever the preparation is
  obtain ⟨hactive, pid, cursor, hcycle⟩ : (prepareSlice fuel s).1.active = s.active ∧ ∃ pid cursor,
      GcInc.Cycle { (prepareSlice fuel s).1 with preparePid := pid, prepareCursor := cursor } := by
    refine prepareSlice_keeps (P := fun r => r.active = s.active ∧ ∃ pid cursor,
      GcInc.Cycle { r with preparePid := pid, prepareCursor := cursor }) ?_ ?_ fuel ⟨rfl, _, _, h⟩
    · rintro r id ⟨hactive, pid, cursor, hr⟩
      exact ⟨hactive, pid, cursor, hr.preparePage id⟩
    · rintro r _ _ ⟨hactive, pid, cursor, hr⟩
      exact ⟨hactive, pid, cursor, hr⟩
  exact ⟨⟨⟨hcycle.heap.epochs, hcycle.heap.ok, hcycle.heap.listed⟩, ⟨hcycle.queues.ready, hcycle.queues.dirty,
    hcycle.queues.queued, hcycle.queues.stack, hcycle.queues.cursor⟩, hcycle.traced, hprepared⟩, hactive⟩

/-- Where the program and the marker meet: between cycles, or in one. -/
def Inv (s : GcInc) : Prop := s.active = false ∧ s.Idle ∨ s.active = true ∧ s.Cycle

def AllMarked (s : GcInc) : Prop := ∀ b, s.Reach b → s.bit b = true

theorem Cycle.allReady (h : s.Cycle) (hprepared : s.preparing = false) : s.AllReady := by
  intro id p hp
  refine ⟨(h.prepared id p hp).resolve_right fun hwait => ?_, h.heap.ok id p hp⟩
  rw [hprepared] at hwait
  exact Bool.false_ne_true hwait.1

theorem page_publish {id : Nat} {p : IncPage} (hp : s.publish.pages[id]? = some p) :
    ∃ q, s.pages[id]? = some q ∧ p = { q with page := { q.page with needFlush := true } } := by
  unfold publish at hp
  simp only [List.getElem?_map] at hp
  obtain ⟨q, hq, rfl⟩ := Option.map_eq_some_iff.mp hp
  exact ⟨q, hq, rfl⟩

theorem heap_publish (h : s.Heap)
    (hbits : ∀ (id : Nat) (p : IncPage), s.pages[id]? = some p → p.page.bmp.isSome = true) : s.publish.Heap := by
  refine ⟨fun id p hp => ?_, fun id p hp => ?_, fun id hid => ?_⟩
  · obtain ⟨q, hq, rfl⟩ := page_publish hp
    exact h.epochs id q hq
  · obtain ⟨q, hq, rfl⟩ := page_publish hp
    have hok := h.ok id q hq
    exact ⟨Allocator.ok_setBits hok.page (Allocator.bits_of_ok hok.page).1 fun _ => hbits id q hq, hok.align,
      hok.first⟩
  · refine h.listed id ?_
    unfold publish at hid
    simp only [List.length_map] at hid
    exact hid

theorem publish_spec (h : s.Cycle) (hall : s.AllReady) (hd : s.Drained) (hincoming : s.incoming = []) :
    s.publish.Idle ∧ s.publish.AllMarked := by
  have hshapes : s.publish.shapes = s.shapes := by
    unfold shapes publish
    simp only [List.map_map]
    rfl
  refine ⟨⟨heap_publish h.heap fun id p hp => (h.queues.ready id p hp (hall id p hp).1).bits, rfl, hd.stack,
    hd.cursor, hd.rescan⟩, fun b hb => ?_⟩
  · have hreach : s.Reach b := by
      induction hb with
      | root hw hb => exact .root hw (hshapes ▸ hb)
      | word _ hptr hi ht ih =>
        rw [hasPtr_iff, hshapes, ← hasPtr_iff] at hptr
        rw [blockWords_eq, hshapes, ← blockWords_eq] at hi
        rw [word_eq, hshapes] at ht
        exact .word ih hptr hi (by rw [word_eq]; exact ht)
    have hbit := bit_of_marked (hd.reach_marked hincoming h.traced hreach)
    obtain ⟨p, hp, -, -⟩ := hd.reach_marked hincoming h.traced hreach
    unfold bit at hbit ⊢
    rw [hp] at hbit
    have hp' : s.publish.pages[b.1]? =
        some { p with page := { p.page with needFlush := true } } := by
      unfold publish
      simp only [List.getElem?_map, hp]
      rfl
    rw [hp']
    exact hbit

def SliceOk : Slice → Prop
  | .paused s => s.active = true ∧ s.Cycle
  | .published s => s.Inv ∧ s.AllMarked
  | .failed s => s.Heap
  | .fatal => True

theorem Cycle.works (h : s.Cycle) (hw : s.Works s') : s'.Cycle :=
  h.traces hw.traces hw.queues hw.traced

theorem sliceRule_ok (env : Env) :
    SliceRule env (fun s => s.Cycle ∧ s.active = true ∧ s.preparing = false) SliceOk where
  trace d s h := by
    obtain ⟨hw, -⟩ := traceSlice_works d (h.1.allReady h.2.2) h.1.queues h.1.traced
    exact ⟨h.1.works hw, hw.traces.active.trans h.2.1, hw.traces.preparing.trans h.2.2⟩
  capture s s' h hs' := by
    obtain ⟨ht, hqueues, htraced⟩ := captureSlice_works env.capture h.1.queues h.1.traced hs'
    exact ⟨h.1.traces ht hqueues htraced, ht.active.trans h.2.1, ht.preparing.trans h.2.2⟩
  paused s h := ⟨h.2.1, h.1⟩
  failed s h := h.1.heap
  fatal := trivial
  published d s r h hincoming hr := by
    have hall := h.1.allReady h.2.2
    obtain ⟨hw, hdrained⟩ := traceSlice_works d hall h.1.queues h.1.traced
    rw [hr] at hw hdrained
    obtain ⟨hidle, hmarked⟩ := publish_spec (h.1.works hw) (hall.traces hw.traces) (hdrained rfl)
      (hw.incoming.trans hincoming)
    exact ⟨.inl ⟨rfl, hidle⟩, hmarked⟩

theorem slice_ok (env : Env) (h : s.Inv) : SliceOk (s.slice env) := by
  have hcycle : (if !s.active then s.beginCycle else s).Cycle ∧
      (if !s.active then s.beginCycle else s).active = true := by
    rcases h with ⟨hidle, hs⟩ | ⟨hactive, hs⟩
    · rw [hidle]
      exact ⟨beginCycle_cycle hs, rfl⟩
    · rw [hactive]
      exact ⟨hs, hactive⟩
  generalize ht : (if !s.active then s.beginCycle else s) = r at hcycle
  obtain ⟨hr, hactive⟩ := hcycle
  refine (sliceRule_ok env).slice ht hr.heap (fun hpreparing => ?_) fun hpreparing => ⟨hr, hactive, hpreparing⟩
  obtain ⟨hprep, hactive'⟩ := prepareSlice_cycle env.prepare hr hpreparing
  exact ⟨hactive'.trans hactive, hprep⟩

theorem page_major {marks : Nat → List Bool} {id : Nat} {p : IncPage}
    (hp : (s.major marks).pages[id]? = some p) : ∃ q, s.pages[id]? = some q ∧
      p = { q with page := { q.page with
        bmp := some ((List.range q.page.maxBlocks).map fun bid => (marks id).getD bid false)
        needFlush := true } } := by
  unfold major at hp
  simp only [List.getElem?_mapIdx] at hp
  obtain ⟨q, hq, rfl⟩ := Option.map_eq_some_iff.mp hp
  exact ⟨q, hq, rfl⟩

theorem major_idle (h : s.Heap) (marks : Nat → List Bool) : (s.major marks).Idle := by
  refine ⟨⟨fun id p hp => ?_, fun id p hp => ?_, fun id hid => ?_⟩, rfl, rfl, rfl, rfl⟩
  · obtain ⟨q, hq, rfl⟩ := page_major hp
    exact h.epochs id q hq
  · obtain ⟨q, hq, rfl⟩ := page_major hp
    have hok := h.ok id q hq
    refine ⟨Allocator.ok_setBits hok.page (fun l hl => ?_) fun _ => rfl, hok.align, hok.first⟩
    cases hl
    rw [List.length_map, List.length_range]
  · refine h.listed id ?_
    unfold major at hid
    simp only [List.length_mapIdx] at hid
    exact hid

theorem Idle.turn {id : Nat} {p p' : IncPage} (h : s.Idle) (hframe : s.Frame s')
    (hturn : Turns s s' id p p') (hok : p'.Ok) (hepoch : p'.epoch = p.epoch) : s'.Idle where
  heap := h.heap.turn hframe hturn hok (hepoch ▸ h.heap.epochs id p hturn.old)
  active := hframe.active.trans h.active
  stack := hframe.stack.trans h.stack
  cursor := hframe.cursor.trans h.cursor
  rescan := hframe.rescan.trans h.rescan

theorem Idle.alloc (h : s.Idle) (id size : Nat) (zero : Bool) : (s.alloc id size zero).Idle := by
  rcases alloc_cases s id size zero with heq | ⟨p, page, run, hp, htake⟩
  · rw [heq]
    exact h
  · have hok := h.heap.ok id p hp
    obtain ⟨q, hq, hf, ht⟩ := GcPage.takeBlock_spec hok.page htake
    have heq : s.alloc id size zero = _ := alloc_eq hp htake
    rw [if_neg (by rw [h.active]; exact Bool.false_ne_true)] at heq
    rw [heq]
    exact h.turn ⟨rfl, rfl, rfl, rfl, rfl, rfl, rfl, rfl, rfl, rfl, rfl⟩ ⟨hp, rfl⟩
      (taken_of_takes hok hq hf ht).ok rfl

theorem Idle.reserve (h : s.Idle) (id size : Nat) (zero : Bool) : (s.reserve id size zero).Idle := by
  rcases reserve_cases s id size zero with heq | ⟨p, page, run, hp, htake⟩
  · rw [heq]
    exact h
  · have hok := h.heap.ok id p hp
    obtain ⟨q, hq, hf, ht, -⟩ := GcPage.takeBuffer_spec hok.page htake
    have heq : s.reserve id size zero = _ := reserve_eq hp htake
    rw [heq]
    exact h.turn ⟨rfl, rfl, rfl, rfl, rfl, rfl, rfl, rfl, rfl, rfl, rfl⟩ ⟨hp, rfl⟩
      (taken_of_takes hok hq hf ht).ok rfl

theorem Idle.newPage (h : s.Idle) (slot : Nat) (pid : Pid) (base size : Nat) :
    (s.newPage slot pid base size).Idle := by
  rcases newPage_cases s slot pid base size with heq | ⟨hgrows, hok⟩
  · rw [heq]
    exact h
  · have hepoch : (s.bornPage pid base size).epoch = 0 :=
      if_neg (by rw [h.active]; exact Bool.false_ne_true)
    exact ⟨hgrows.heap h.heap hok (hepoch ▸ Nat.zero_le _), hgrows.active.trans h.active,
      hgrows.stack.trans h.stack, hgrows.cursor.trans h.cursor, hgrows.rescan.trans h.rescan⟩

/-- What the steps of the program must not do in a cycle: leave the name of an unmarked block in a
block that is marked without being scanned, or map a page under words that name it already. -/
def Clean (s : GcInc) : IncEvent → Prop
  | .alloc id size zero => ∀ p page run, s.pages[id]? = some p →
      p.page.takeBlock size = some (page, run) → s.LeavesClean id { p with page } run.pos size zero
  | .reserve id size zero => ∀ p page run, s.pages[id]? = some p →
      p.page.takeBuffer = some (page, run) → s.Marked (id, run.pos) →
        s.LeavesClean id { p with page } run.pos size zero
  | .newPage _ _ base size => ∀ b, s.Marked b → s.HasPtr b → ∀ i < s.blockWords b,
      ¬(base ≤ s.word b i ∧ s.word b i < base + size)
  | _ => True

theorem clean_zero (s : GcInc) (id size : Nat) : s.Clean (.alloc id size true) := by
  intro p page run _ _ _ i _ t ht
  have hzero : target s.shapes false 0 = none := rfl
  rw [leftWord, if_pos rfl, hzero] at ht
  cases ht

theorem Inv.step (h : s.Inv) (e : IncEvent) (hclean : s.active = true → s.Clean e)
    (hstep : s.step e = some s') : s'.Inv := by
  cases e with
  | slice env marks =>
    have hok := slice_ok env h
    unfold GcInc.step at hstep
    simp only at hstep
    cases hs : s.slice env with
    | paused r =>
      rw [hs] at hok hstep
      cases hstep
      exact .inr hok
    | published r =>
      rw [hs] at hok hstep
      cases hstep
      exact hok.1
    | failed r =>
      rw [hs] at hok hstep
      cases hstep
      exact .inl ⟨rfl, major_idle hok marks⟩
    | fatal =>
      rw [hs] at hstep
      cases hstep
  | store id i v =>
    cases hstep
    rcases h with ⟨hidle, hs⟩ | ⟨hactive, hs⟩
    · have heq : s.store id i v = { s with
          mem := Function.update s.mem id (Function.update (s.mem id) i v) } := by
        unfold GcInc.store
        rw [if_neg (by rw [hidle]; exact Bool.false_ne_true)]
      rw [heq]
      exact .inl ⟨hidle, ⟨hs.heap.epochs, hs.heap.ok, hs.heap.listed⟩, hs.active, hs.stack,
        hs.cursor, hs.rescan⟩
    · refine .inr ⟨?_, hs.store hactive id i v⟩
      unfold GcInc.store
      rw [if_pos hactive]
      exact (catches_dirtyEnqueue hs.queues hs.traced id).traces.active.trans hactive
  | setRoots roots =>
    cases hstep
    rcases h with ⟨hidle, hs⟩ | ⟨hactive, hs⟩
    · exact .inl ⟨hidle, ⟨hs.heap.epochs, hs.heap.ok, hs.heap.listed⟩, hs.active, hs.stack,
        hs.cursor, hs.rescan⟩
    · exact .inr ⟨hactive, ⟨hs.heap.epochs, hs.heap.ok, hs.heap.listed⟩, ⟨hs.queues.ready,
        hs.queues.dirty, hs.queues.queued, hs.queues.stack, hs.queues.cursor⟩, hs.traced,
        hs.prepared⟩
  | alloc id size zero =>
    cases hstep
    rcases h with ⟨hidle, hs⟩ | ⟨hactive, hs⟩
    · have hs' := hs.alloc id size zero
      exact .inl ⟨hs'.active, hs'⟩
    · exact .inr ⟨(s.active_alloc id size zero).trans hactive, hs.alloc hactive (hclean hactive)⟩
  | reserve id size zero =>
    cases hstep
    rcases h with ⟨hidle, hs⟩ | ⟨hactive, hs⟩
    · have hs' := hs.reserve id size zero
      exact .inl ⟨hs'.active, hs'⟩
    · exact .inr ⟨(s.active_reserve id size zero).trans hactive, hs.reserve (hclean hactive)⟩
  | newPage slot pid base size =>
    cases hstep
    rcases h with ⟨hidle, hs⟩ | ⟨hactive, hs⟩
    · have hs' := hs.newPage slot pid base size
      exact .inl ⟨hs'.active, hs'⟩
    · refine .inr ⟨?_, hs.newPage hactive slot pid base size (hclean hactive)⟩
      rcases newPage_cases s slot pid base size with heq | ⟨hgrows, -⟩
      · rw [heq]
        exact hactive
      · exact hgrows.active.trans hactive
  | major marks =>
    cases hstep
    have hheap : s.Heap := by
      rcases h with ⟨-, hs⟩ | ⟨-, hs⟩
      · exact hs.heap
      · exact hs.heap
    exact .inl ⟨rfl, major_idle hheap marks⟩

inductive CleanRun (s : GcInc) : GcInc → Prop where
  | start : CleanRun s s
  | step {r r' : GcInc} (e : IncEvent) (hrun : CleanRun s r)
      (hclean : r.active = true → r.Clean e) (hstep : r.step e = some r') : CleanRun s r'

theorem CleanRun.inv (h : s.Inv) (hrun : s.CleanRun s') : s'.Inv := by
  induction hrun with
  | start => exact h
  | step e _ hclean hstep ih => exact ih.step e hclean hstep

/-- In every clean run from a heap between cycles, when a slice publishes its marks every reachable
block is marked, and the sweep of its page keeps it. -/
theorem published_marks_reachable (hidle : s.Idle) {r : GcInc} (hrun : s.CleanRun r) (env : Env)
    (hslice : r.slice env = .published s') :
    ∀ b, s'.Reach b → s'.bit b = true ∧ ∀ p, s'.pages[b.1]? = some p →
      ∃ q, p.page.flushed = .ok q ∧ q.Ok ∧ ∀ blk ∈ p.page.blocks, blk.run.pos = b.2 →
        ∃ blk' ∈ q.blocks, blk'.run = blk.run := by
  have hinv := hrun.inv (.inl ⟨hidle.active, hidle⟩)
  have hok := slice_ok env hinv
  rw [hslice] at hok
  obtain ⟨hinv', hmarked⟩ := hok
  intro b hb
  have hbit := hmarked b hb
  refine ⟨hbit, fun p hp => ?_⟩
  have hpage : p.page.Ok := by
    rcases hinv' with ⟨-, hs⟩ | ⟨-, hs⟩
    · exact (hs.heap.ok b.1 p hp).page
    · exact (hs.heap.ok b.1 p hp).page
  obtain ⟨q, hq, hqok, hsettles⟩ := hpage.flushed
  refine ⟨q, hq, hqok, fun blk hblk hpos => hsettles.survive blk hblk fun _ => ?_⟩
  rw [bit, hp] at hbit
  rw [hpos]
  exact hbit

def stalePage : GcPage where
  pid := ⟨0, 7, .dynamic⟩
  blockSize := 8192
  firstBlock := 0
  maxBlocks := 8
  free := [⟨0, 4⟩, ⟨6, 2⟩]
  current := 0
  sizes := some [0, 0, 0, 0, 2, 0, 0, 0]
  needFlush := false
  bmp := none
  nextPage := none
  blocks := [⟨⟨4, 2⟩, false⟩]

def staleHeap : GcInc where
  pages := [⟨stalePage, 65536, 65536, 0, [], false⟩]
  lists := [[0]]
  mem := fun id i => if id = 0 ∧ i = 0 then 65536 + 4 * 8192 else 0
  roots := []
  epoch := 0
  active := false
  preparing := false
  discovering := false
  preparePid := 0
  prepareCursor := []
  stack := []
  cursor := none
  rescan := none
  incoming := []
  batch := []
  dirtyWalk := .reset

def quick : Env := ⟨true, 4, ⟨none, 0, true⟩, ⟨8, 8⟩, ⟨8, 8⟩⟩

/-- The first slice prepares the page; then the free block is allocated without `MEM_ZERO`, and a
root names it. -/
def staleSteps : List IncEvent :=
  [.slice quick fun _ => [], .alloc 0 16384 false, .setRoots [65536]]

def runSteps (s : GcInc) : List IncEvent → Option GcInc
  | [] => some s
  | e :: es => (s.step e).bind fun s => s.runSteps es

theorem staleHeap_idle : staleHeap.Idle := by
  have hpage : stalePage.Small := by
    constructor
    case part => decide
    case range => decide
    case sorted => simp [stalePage, GcPage.runs, Run.Before, Run.stop]
    case runsIn => decide
    case blocksIn => decide
    case disjoint => simp [stalePage]
    case apart => simp [stalePage, GcPage.runs, Run.Apart, Run.Before, Run.stop]
    case sized =>
      intro l hl
      cases hl
      refine ⟨rfl, by decide, fun x _ hx hnone => ?_⟩
      have hne : (4 : Nat) ≠ x := hnone ⟨⟨4, 2⟩, false⟩ List.mem_cons_self trivial
      change x < 8 at hx
      interval_cases x <;> first | rfl | exact absurd rfl hne
    case single => exact fun h => by cases h
    case varsize => rfl
    case bits => exact fun l hl => by cases hl
    case flush => exact fun h => by cases h
  have hone : ∀ (id : Nat) (p : IncPage), staleHeap.pages[id]? = some p →
      p = ⟨stalePage, 65536, 65536, 0, [], false⟩ := by
    intro id p hp
    obtain ⟨hlt, heq⟩ := List.getElem?_eq_some_iff.mp hp
    change id < 1 at hlt
    obtain rfl : id = 0 := by omega
    exact heq.symm
  refine ⟨⟨fun id p hp => ?_, fun id p hp => ?_, fun id hid => ?_⟩, rfl, rfl, rfl, rfl⟩
  · rw [hone id p hp]
    exact Nat.zero_le _
  · rw [hone id p hp]
    exact ⟨.inl hpage, by decide, fun h => by cases h⟩
  · change id < 1 at hid
    obtain rfl : id = 0 := by omega
    exact ⟨[0], List.mem_cons_self, List.mem_cons_self⟩

/-- With `MEM_ZERO` the same allocation is clean, and the block is kept. -/
theorem published_marks_staleHeap : ∃ r s', staleHeap.CleanRun r ∧ r.slice quick = .published s' ∧
    s'.Reach (0, 0) ∧ s'.bit (0, 0) = true := by
  have hstart : staleHeap.CleanRun _ :=
    .step (.slice quick fun _ => []) .start (fun _ => trivial) rfl
  have halloc : staleHeap.CleanRun _ :=
    .step (.alloc 0 16384 true) hstart (fun _ => clean_zero _ 0 16384) rfl
  have hroots : staleHeap.CleanRun _ := .step (.setRoots [65536]) halloc (fun _ => trivial) rfl
  refine ⟨_, _, hroots, rfl, .root (w := 65536) (by decide) (by decide), ?_⟩
  refine (published_marks_reachable staleHeap_idle hroots quick rfl (0, 0) ?_).1
  exact .root (w := 65536) (by decide) (by decide)

/-- The allocation brings the stale word to life, nothing scans it, and the block it names is swept
although it is reachable. -/
theorem stale_word_loses_block : staleHeap.Idle ∧ ∃ r s', staleHeap.runSteps staleSteps = some r ∧
    r.slice quick = .published s' ∧ s'.Reach (0, 4) ∧ s'.bit (0, 4) = false ∧
    ∃ p q, s'.pages[0]? = some p ∧ ⟨⟨4, 2⟩, false⟩ ∈ p.page.blocks ∧ p.page.flushed = .ok q ∧
      ∀ blk ∈ q.blocks, blk.run ≠ ⟨4, 2⟩ := by
  refine ⟨staleHeap_idle, _, _, rfl, rfl, ?_, by decide, _, _, rfl, by decide, rfl, by decide⟩
  refine .word (b := (0, 0)) (i := 0) (.root (w := 65536) ?_ ?_) ⟨_, rfl, ?_⟩ ?_ ?_
  · decide
  · decide
  · decide
  · decide
  · decide

end GcInc

end HashLink.Gc
