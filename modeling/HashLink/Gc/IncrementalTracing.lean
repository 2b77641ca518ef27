import HashLink.Gc.IncrementalInvariant

/-! Tracing keeps the invariant of a cycle, wherever a deadline stops it, and when it comes to its
end the marked blocks are closed under the words that the marker reads. -/

namespace HashLink.Gc

variable {bid : Nat}

namespace GcPage

variable {p : GcPage}

theorem marked_set {bid' : Nat} (h : GcPage.marked { p with bmp := p.bmp.map (·.set bid true) } bid' = true) :
    p.marked bid' = true ∨ bid' = bid := by
  by_cases heq : bid' = bid
  · exact .inr heq
  · left
    unfold marked at h ⊢
    cases hbmp : p.bmp with
    | none => rw [hbmp] at h; cases h
    | some l =>
      rw [hbmp] at h
      simp only [Option.map_some, List.getD_eq_getElem?_getD, List.getElem?_set_ne (Ne.symm heq)] at h ⊢
      exact h

theorem marked_set_of {bid' : Nat} (h : p.marked bid' = true) :
    GcPage.marked { p with bmp := p.bmp.map (·.set bid true) } bid' = true := by
  unfold marked at h ⊢
  cases hbmp : p.bmp with
  | none => rw [hbmp] at h; cases h
  | some l =>
    rw [hbmp] at h
    simp only [Option.map_some, List.getD_eq_getElem?_getD, List.getElem?_set] at h ⊢
    split
    · split
      · rfl
      · rename_i heq hlt
        subst heq
        rw [List.getElem?_eq_none (Nat.le_of_not_lt hlt)] at h
        exact h
    · exact h

theorem marked_set_self (hok : p.Ok) (hbits : p.bmp.isSome = true) (hbid : bid < p.maxBlocks) :
    GcPage.marked { p with bmp := p.bmp.map (·.set bid true) } bid = true := by
  obtain ⟨l, hl⟩ := Option.isSome_iff_exists.mp hbits
  have hlength := (Allocator.bits_of_ok hok).1 l hl
  unfold marked
  simp only [hl, Option.map_some, List.getD_eq_getElem?_getD,
    List.getElem?_set_self (hlength ▸ hbid), Option.getD_some]

end GcPage

namespace IncPage

theorem keeps_mark (p : IncPage) (bid : Nat) : p.Keeps (p.mark bid) := by
  refine ⟨rfl, ?_, fun _ h => GcPage.marked_set_of h⟩
  unfold mark
  cases p.page.bmp with
  | none => rfl
  | some l => simp

theorem keeps_setQueued (p : IncPage) (bid : Nat) (queued : Bool) :
    p.Keeps (p.setQueued bid queued) := ⟨rfl, rfl, fun _ h => h⟩

theorem keeps_setDirty (p : IncPage) (dirty : Bool) : p.Keeps (p.setDirty dirty) :=
  ⟨rfl, rfl, fun _ h => h⟩

end IncPage

namespace GcInc

variable {s s' : GcInc} {b t : BlockRef}

theorem traces_setMark (s : GcInc) (b : BlockRef) : s.Traces (s.setMark b) :=
  .modifyPage s b.1 fun p _ => p.keeps_mark b.2

theorem marked_setMark (h : (s.setMark b).Marked t) : s.Marked t ∨ t = b := by
  obtain ⟨p', hp', hepoch, hmarked⟩ := h
  obtain ⟨p, hp, ⟨-, rfl⟩ | ⟨hid, rfl⟩⟩ := page_modifyPage hp'
  · exact .inl ⟨p', hp, hepoch, hmarked⟩
  · rcases GcPage.marked_set hmarked with hold | hnew
    · exact .inl ⟨p, hp, hepoch, hold⟩
    · exact .inr (Prod.ext hid hnew)

theorem setMark_marked {p : IncPage} (hp : s.pages[b.1]? = some p) (hok : p.Ok)
    (hepoch : p.epoch = s.epoch) (hready : p.Ready) (hbound : b.2 < p.page.maxBlocks) :
    (s.setMark b).Marked b := by
  refine ⟨p.mark b.2, ?_, hepoch, GcPage.marked_set_self hok.page hready.bits hbound⟩
  unfold setMark
  rw [getElem?_modifyPage, if_pos rfl, hp]
  rfl

theorem queues_setMark (h : s.Queues) {p : IncPage} (hp : s.pages[b.1]? = some p)
    (hstart : p.page.Starts b.2) : (s.setMark b).Queues := by
  have ht := traces_setMark s b
  -- a page of the new state is one of the old with more marks and the same flags
  have hpage : ∀ (id : Nat) (q' : IncPage), (s.setMark b).pages[id]? = some q' →
      ∃ q, s.pages[id]? = some q ∧ q'.queued = q.queued ∧ q'.dirty = q.dirty ∧ q'.epoch = q.epoch ∧
        q.Keeps q' ∧ ∀ bid, q'.page.marked bid = true → q.page.marked bid = true ∨ q.page.Starts bid := by
    intro id q' hq'
    obtain ⟨q, hq, ⟨-, rfl⟩ | ⟨rfl, rfl⟩⟩ := page_modifyPage hq'
    · exact ⟨q', hq, rfl, rfl, rfl, .refl q', fun bid hbid => .inl hbid⟩
    · refine ⟨q, hq, rfl, rfl, rfl, q.keeps_mark b.2, fun bid hbid => ?_⟩
      rw [hp] at hq
      cases hq
      rcases GcPage.marked_set hbid with hold | rfl
      · exact .inl hold
      · exact .inr hstart
  constructor
  case ready =>
    intro id q' hq' hepoch
    obtain ⟨q, hq, -, -, heq, hkeeps, hmarks⟩ := hpage id q' hq'
    exact hkeeps.ready (h.ready id q hq (heq.symm.trans hepoch)) hmarks
  case dirty =>
    intro id q' hq' hdirty
    obtain ⟨q, hq, -, heq, -, -, -⟩ := hpage id q' hq'
    exact h.dirty id q hq (heq.symm.trans hdirty)
  case queued =>
    intro b' q' hq' hepoch hqueued
    obtain ⟨q, hq, heq, -, heq', -, -⟩ := hpage b'.1 q' hq'
    exact h.queued b' q hq (heq'.symm.trans hepoch) (heq ▸ hqueued)
  case stack => exact fun b' hb' => ht.marked (h.stack b' hb')
  case cursor =>
    intro c hc
    obtain ⟨hmarked, hstop⟩ := h.cursor c hc
    exact ⟨ht.marked hmarked, hstop.trans (ht.blockWords _).symm⟩

variable {id : Nat} {r : GcInc}

theorem marked_of_modifyPage {f : IncPage → IncPage} (hf : ∀ p, (f p).page = p.page ∧ (f p).epoch = p.epoch)
    (h : (s.modifyPage id f).Marked t) :
    s.Marked t := by
  obtain ⟨p', hp', hepoch, hmarked⟩ := h
  obtain ⟨p, hp, ⟨-, rfl⟩ | ⟨-, rfl⟩⟩ := page_modifyPage hp'
  · exact ⟨p', hp, hepoch, hmarked⟩
  · obtain ⟨hpage, heq⟩ := hf p
    exact ⟨p, hp, heq.symm.trans hepoch, hpage ▸ hmarked⟩

/-- What a visit does: besides marks, it pushes blocks on the stack. -/
structure Visits (s s' : GcInc) : Prop where
  traces : s.Traces s'
  stack : s.stack ⊆ s'.stack
  cursor : s'.cursor = s.cursor
  rescan : s'.rescan = s.rescan
  incoming : s'.incoming = s.incoming
  batch : s'.batch = s.batch

namespace Visits

theorem refl (s : GcInc) : s.Visits s := ⟨.refl s, fun _ h => h, rfl, rfl, rfl, rfl⟩

theorem trans (h : s.Visits s') (h' : s'.Visits r) : s.Visits r :=
  ⟨h.traces.trans h'.traces, fun _ hb => h'.stack (h.stack hb), h'.cursor.trans h.cursor,
    h'.rescan.trans h.rescan, h'.incoming.trans h.incoming, h'.batch.trans h.batch⟩

theorem pending (h : s.Visits s') {i : Nat} (hb : s.Pending b i) : s'.Pending b i := by
  unfold Pending at hb ⊢
  rw [h.cursor, h.rescan, h.incoming, h.batch]
  exact hb.imp_left fun hmem => h.stack hmem

end Visits

theorem enqueue_eq (s : GcInc) (b : BlockRef) :
    (s.enqueue b = s ∧ ∀ p, s.pages[b.1]? = some p → p.shape.hasPtr = true → p.queued.getD b.2 false = true) ∨
      s.enqueue b =
        { s.modifyPage b.1 fun p => p.setQueued b.2 true with stack := b :: s.stack } := by
  unfold enqueue
  cases hp : s.pages[b.1]? with
  | none => exact .inl ⟨rfl, fun p hp' => by cases hp'⟩
  | some p =>
    simp only
    split
    · rename_i hskip
      refine .inl ⟨rfl, fun q hq hptr => ?_⟩
      cases hq
      exact hskip.resolve_left (not_not_intro hptr)
    · exact .inr rfl

theorem visits_enqueue (s : GcInc) (b : BlockRef) : s.Visits (s.enqueue b) := by
  rcases enqueue_eq s b with ⟨heq, -⟩ | heq
  · rw [heq]
    exact .refl s
  · rw [heq]
    refine ⟨?_, fun _ h => List.mem_cons_of_mem b h, rfl, rfl, rfl, rfl⟩
    exact (Traces.modifyPage s b.1 fun p _ => p.keeps_setQueued b.2 true).setLists _ _ _ _ _ _ _

theorem marked_enqueue : (s.enqueue b).Marked t ↔ s.Marked t := by
  refine ⟨fun h => ?_, (visits_enqueue s b).traces.marked⟩
  rcases enqueue_eq s b with ⟨heq, -⟩ | heq
  · rw [heq] at h
    exact h
  · rw [heq] at h
    exact marked_of_modifyPage (f := fun p => p.setQueued b.2 true) (fun p => ⟨rfl, rfl⟩) h

theorem queues_enqueue (h : s.Queues) (hb : s.Marked b) : (s.enqueue b).Queues := by
  have hvisits := visits_enqueue s b
  have ht := hvisits.traces
  have hmarks : ∀ t, s.Marked t → (s.enqueue b).Marked t := fun t => ht.marked
  have hcursor : ∀ c, (s.enqueue b).cursor = some c →
      (s.enqueue b).Marked c.block ∧ c.stop = (s.enqueue b).blockWords c.block := by
    intro c hc
    rw [hvisits.cursor] at hc
    obtain ⟨hmarked, hstop⟩ := h.cursor c hc
    exact ⟨ht.marked hmarked, hstop.trans (ht.blockWords _).symm⟩
  rcases enqueue_eq s b with ⟨heq, -⟩ | heq
  · rw [heq]
    exact h
  · rw [heq] at hmarks hcursor ⊢
    constructor
    case ready =>
      intro id q' hq' hepoch
      obtain ⟨q, hq, ⟨-, rfl⟩ | ⟨-, rfl⟩⟩ := page_modifyPage hq'
      · exact h.ready id q' hq hepoch
      · exact (q.keeps_setQueued b.2 true).ready (h.ready id q hq hepoch) fun bid hbid => .inl hbid
    case dirty =>
      intro id q' hq' hdirty
      obtain ⟨q, hq, ⟨-, rfl⟩ | ⟨-, rfl⟩⟩ := page_modifyPage hq'
      · exact h.dirty id q' hq hdirty
      · exact h.dirty id q hq hdirty
    case queued =>
      intro b' q' hq' hepoch hqueued
      obtain ⟨q, hq, ⟨-, rfl⟩ | ⟨hid, rfl⟩⟩ := page_modifyPage hq'
      · exact (h.queued b' q' hq hepoch hqueued).imp_left fun hmem => List.mem_cons_of_mem b hmem
      · by_cases hbid : b'.2 = b.2
        · rw [show b' = b from Prod.ext hid hbid]
          exact .inl List.mem_cons_self
        · have hold : q.queued.getD b'.2 false = true := by
            rw [List.getD_eq_getElem?_getD] at hqueued ⊢
            rw [← List.getElem?_set_ne (Ne.symm hbid)]
            exact hqueued
          exact (h.queued b' q hq hepoch hold).imp_left fun hmem => List.mem_cons_of_mem b hmem
    case stack =>
      intro b' hb'
      rcases List.mem_cons.mp hb' with rfl | hb'
      · exact hmarks b' hb
      · exact hmarks b' (h.stack b' hb')
    case cursor => exact hcursor

theorem mem_enqueue (h : s.Queues) (hb : s.Marked b) (hptr : s.HasPtr b) :
    b ∈ (s.enqueue b).stack ∨ ∃ c, s.cursor = some c ∧ c.block = b := by
  rcases enqueue_eq s b with ⟨heq, hqueued⟩ | heq
  · rw [heq]
    obtain ⟨p, hp, hepoch, -⟩ := hb
    obtain ⟨p', hp', hptr⟩ := hptr
    rw [hp] at hp'
    cases hp'
    exact h.queued b p hp hepoch (hqueued p hp hptr)
  · rw [heq]
    exact .inl List.mem_cons_self

/-- Every page was prepared in the cycle. -/
def AllReady (s : GcInc) : Prop :=
  ∀ (id : Nat) (p : IncPage), s.pages[id]? = some p → p.epoch = s.epoch ∧ p.Ok

theorem AllReady.traces (h : s.AllReady) (ht : s.Traces s') : s'.AllReady := by
  intro id p' hp'
  obtain ⟨p, hp, hkeeps⟩ := ht.page hp'
  obtain ⟨hepoch, hok⟩ := h id p hp
  exact ⟨hkeeps.epoch.trans (hepoch.trans ht.epoch.symm), hkeeps.ok hok⟩

/-- A step of the marker on prepared pages. -/
structure Marks (s s' : GcInc) : Prop where
  visits : s.Visits s'
  queues : s'.Queues
  traced : s'.Traced

theorem visit_eq_none {interior : Bool} {ptr : Nat} (h : target s.shapes interior ptr = none) :
    s.visit interior ptr = s := by
  rw [visit, h]

theorem visit_marks (hall : s.AllReady) (hq : s.Queues) (htr : s.Traced) (interior : Bool) (ptr : Nat) :
    s.Marks (s.visit interior ptr) ∧
      ∀ t, target s.shapes interior ptr = some t → (s.visit interior ptr).Marked t := by
  cases htarget : target s.shapes interior ptr with
  | none =>
    rw [visit_eq_none htarget]
    exact ⟨⟨.refl s, hq, htr⟩, fun t ht => by cases ht⟩
  | some b =>
    obtain ⟨sh, -, hsh, hblock, -⟩ := target_eq_some htarget
    rw [getElem?_shapes] at hsh
    obtain ⟨p, hp, rfl⟩ := Option.map_eq_some_iff.mp hsh
    obtain ⟨hepoch, hok⟩ := hall b.1 p hp
    have hready := hq.ready b.1 p hp hepoch
    rw [visit, htarget]
    simp only
    split
    · rename_i hbit
      refine ⟨⟨.refl s, hq, htr⟩, fun t ht => ?_⟩
      cases ht
      rw [bit, hp] at hbit
      exact ⟨p, hp, hepoch, hbit⟩
    · rename_i hbit
      have hnew : ¬s.Marked b := by
        rintro ⟨p', hp', -, hmarked⟩
        rw [hp] at hp'
        cases hp'
        rw [bit, hp] at hbit
        exact hbit hmarked
      have hstart : p.page.Starts b.2 := by
        refine ⟨?_, fun l hl => (hblock.start l hl).2⟩
        cases hsizes : p.page.sizes with
        | none => rw [hok.first hsizes]; exact Nat.zero_le _
        | some l => exact (hblock.start l hsizes).1
      have hmarked : (s.setMark b).Marked b := setMark_marked hp hok hepoch hready hblock.bound
      have hqueues := queues_setMark hq hp hstart
      have hvisits : s.Visits ((s.setMark b).enqueue b) := by
        refine Visits.trans ?_ (visits_enqueue (s.setMark b) b)
        exact ⟨traces_setMark s b, fun _ h => h, rfl, rfl, rfl, rfl⟩
      refine ⟨⟨hvisits, queues_enqueue hqueues hmarked, ?_⟩, fun t ht => ?_⟩
      · refine htr.step hvisits.traces fun t i ht hptr _ => ?_
        rcases marked_setMark (marked_enqueue.mp ht) with hold | rfl
        · exact .inr ⟨hold, fun hpending => .inr (hvisits.pending hpending)⟩
        · refine .inl (.inl ?_)
          have hptr' : (s.setMark t).HasPtr t := (traces_setMark s t).hasPtr.mpr hptr
          refine (mem_enqueue hqueues hmarked hptr').resolve_right ?_
          -- the block under the cursor was marked before
          rintro ⟨c, hc, rfl⟩
          exact hnew (hq.cursor c hc).1
      · cases ht
        exact marked_enqueue.mpr hmarked

theorem Marks.trans (h : s.Marks s') (h' : s'.Marks r) : s.Marks r :=
  ⟨h.visits.trans h'.visits, h'.queues, h'.traced⟩

theorem foldl_visit_marks (words : List Nat) (hall : s.AllReady) (hq : s.Queues) (htr : s.Traced) :
    s.Marks (words.foldl (fun s ptr => s.visit true ptr) s) ∧
      ∀ w ∈ words, ∀ t, target s.shapes true w = some t →
        (words.foldl (fun s ptr => s.visit true ptr) s).Marked t := by
  induction words generalizing s with
  | nil => exact ⟨⟨.refl s, hq, htr⟩, fun w hw => by cases hw⟩
  | cons w words ih =>
    obtain ⟨hmarks, hnamed⟩ := visit_marks hall hq htr true w
    have ht := hmarks.visits.traces
    obtain ⟨hmarks', hnamed'⟩ := ih (hall.traces ht) hmarks.queues hmarks.traced
    refine ⟨hmarks.trans hmarks', fun v hv t htarget => ?_⟩
    rcases List.mem_cons.mp hv with rfl | hv
    · exact hmarks'.visits.traces.marked (hnamed t htarget)
    · rw [← ht.shapes] at htarget
      exact hnamed' v hv t htarget

/-- What tracing does: nothing becomes dirty in it. -/
structure Works (s s' : GcInc) : Prop where
  traces : s.Traces s'
  queues : s'.Queues
  traced : s'.Traced
  incoming : s'.incoming = s.incoming

theorem Works.trans (h : s.Works s') (h' : s'.Works r) : s.Works r :=
  ⟨h.traces.trans h'.traces, h'.queues, h'.traced, h'.incoming.trans h.incoming⟩

theorem Marks.works (h : s.Marks s') : s.Works s' :=
  ⟨h.visits.traces, h.queues, h.traced, h.visits.incoming⟩

theorem queues_setDirty (hq : s.Queues) {dirty : Bool} (ht : s.Traces s')
    (hpages : s'.pages = (s.modifyPage id fun p => p.setDirty dirty).pages) (hstack : s'.stack = s.stack)
    (hcursor : s'.cursor = s.cursor)
    (hother : ∀ n, n ≠ id → n ∈ s.incoming ∨ n ∈ s.batch → n ∈ s'.incoming ∨ n ∈ s'.batch)
    (hself : dirty = true → id ∈ s'.incoming ∨ id ∈ s'.batch) : s'.Queues := by
  have hpage : ∀ (n : Nat) (q : IncPage), s'.pages[n]? = some q → ∃ p, s.pages[n]? = some p ∧
      (n ≠ id ∧ q = p ∨ n = id ∧ q = p.setDirty dirty) := fun n q hq' => page_modifyPage (hpages ▸ hq')
  constructor
  case ready =>
    intro n q' hq' hepoch
    rw [ht.epoch] at hepoch
    obtain ⟨q, hp, ⟨-, rfl⟩ | ⟨-, rfl⟩⟩ := hpage n q' hq'
    · exact hq.ready n q' hp hepoch
    · exact (q.keeps_setDirty dirty).ready (hq.ready n q hp hepoch) fun bid hbid => .inl hbid
  case dirty =>
    intro n q' hq' hdirty
    obtain ⟨q, hp, ⟨hne, rfl⟩ | ⟨rfl, rfl⟩⟩ := hpage n q' hq'
    · exact hother n hne (hq.dirty n q' hp hdirty)
    · exact hself hdirty
  case queued =>
    intro b q' hq' hepoch hqueued
    rw [ht.epoch] at hepoch
    rw [hstack, hcursor]
    obtain ⟨q, hp, ⟨-, rfl⟩ | ⟨-, rfl⟩⟩ := hpage b.1 q' hq'
    · exact hq.queued b q' hp hepoch hqueued
    · exact hq.queued b q hp hepoch hqueued
  case stack => exact fun b hb => ht.marked (hq.stack b (hstack ▸ hb))
  case cursor =>
    intro c hc
    obtain ⟨hmarked, hstop⟩ := hq.cursor c (hcursor ▸ hc)
    exact ⟨ht.marked hmarked, hstop.trans (ht.blockWords _).symm⟩

theorem works_dirtyPop (hq : s.Queues) (htr : s.Traced) (hrescan : s.rescan = none) {rest : List Nat}
    (hbatch : s.batch = id :: rest) : s.Works (s.dirtyPop id rest) := by
  have hmodify := Traces.modifyPage s id fun p _ => p.keeps_setDirty false
  have ht : s.Traces (s.dirtyPop id rest) := hmodify.setLists _ _ _ _ _ _ _
  have hold : ∀ t, (s.dirtyPop id rest).Marked t → s.Marked t := fun t h =>
    marked_of_modifyPage (f := fun p => p.setDirty false) (fun p => ⟨rfl, rfl⟩) h
  refine ⟨ht, ?_, ?_, rfl⟩
  · refine queues_setDirty hq ht rfl rfl rfl (fun n hne hn => hn.imp_right fun hmem => ?_) nofun
    rw [hbatch] at hmem
    exact (List.mem_cons.mp hmem).resolve_left hne
  · refine htr.step ht fun b i hb _ _ => .inr ⟨hold b hb, fun hpending => .inr ?_⟩
    rcases hpending with hstack | hcursor | hincoming | hdirty | ⟨k, hk, -⟩
    · exact .inl hstack
    · exact .inr (.inl hcursor)
    · exact .inr (.inr (.inl hincoming))
    · rw [hbatch] at hdirty
      rcases List.mem_cons.mp hdirty with hid | hrest
      · -- the scan of the page starts at its first block
        obtain ⟨p, hp, hepoch, hmarked⟩ := hold b hb
        refine .inr (.inr (.inr (.inr ⟨p.page.firstBlock, ?_, ?_⟩)))
        · rw [hid] at hp
          simp only [dirtyPop, firstBlock, hp, hid]
        · exact ((hq.ready b.1 p hp hepoch).starts b.2 hmarked).1
      · exact .inr (.inr (.inr (.inl hrest)))
    · rw [hrescan] at hk
      cases hk

theorem rescanBlock_cases (s : GcInc) (b : BlockRef) :
    s.bit b = false ∧ s.rescanBlock b = s ∨ s.bit b = true ∧ ((∃ c, s.cursor = some c ∧ c.block = b ∧
          s.rescanBlock b = { s with cursor := some { c with pos := 0 } }) ∨
        (¬∃ c, s.cursor = some c ∧ c.block = b) ∧ s.rescanBlock b = s.enqueue b) := by
  unfold rescanBlock
  cases hbit : s.bit b with
  | false => exact .inl ⟨rfl, rfl⟩
  | true =>
    refine .inr ⟨rfl, ?_⟩
    cases hc : s.cursor with
    | none => exact .inr ⟨by simp, rfl⟩
    | some c =>
      by_cases hblock : c.block = b
      · refine .inl ⟨c, rfl, hblock, ?_⟩
        simp only [hblock, if_true]
      · refine .inr ⟨?_, ?_⟩
        · rintro ⟨c', hc', rfl⟩
          cases hc'
          exact hblock rfl
        · simp only [hblock, if_true, if_false]

theorem marked_of_bit (hall : s.AllReady) (h : s.bit b = true) : s.Marked b := by
  unfold bit at h
  cases hp : s.pages[b.1]? with
  | none => rw [hp] at h; cases h
  | some p => rw [hp] at h; exact ⟨p, hp, (hall b.1 p hp).1, h⟩

theorem bit_of_marked (h : s.Marked b) : s.bit b = true := by
  obtain ⟨p, hp, -, hmarked⟩ := h
  rw [bit, hp]
  exact hmarked

theorem Pending.next {i : Nat} (hrescan : s.rescan = some (id, bid)) (hne : t ≠ (id, bid))
    (hstack : s.stack ⊆ s'.stack) (hincoming : s'.incoming = s.incoming) (hbatch : s'.batch = s.batch)
    (hnext : s'.rescan = some (id, bid + 1))
    (hcursor : ∀ c, s.cursor = some c → c.block = t → s'.cursor = some c) (h : s.Pending t i) :
    s'.Pending t i := by
  rcases h with hmem | ⟨c, hc, hblock, hpos⟩ | hmem | hmem | ⟨k, hk, hle⟩
  · exact .inl (hstack hmem)
  · exact .inr (.inl ⟨c, hcursor c hc hblock, hblock, hpos⟩)
  · exact .inr (.inr (.inl (hincoming ▸ hmem)))
  · exact .inr (.inr (.inr (.inl (hbatch ▸ hmem))))
  · rw [hrescan] at hk
    cases hk
    refine .inr (.inr (.inr (.inr ⟨bid + 1, hnext, ?_⟩)))
    exact Nat.lt_of_le_of_ne hle fun heq => hne (Prod.ext rfl heq.symm)

theorem works_rescanBlock (hq : s.Queues) (htr : s.Traced) (hall : s.AllReady)
    (hrescan : s.rescan = some (id, bid)) :
    s.Works { s.rescanBlock (id, bid) with rescan := some (id, bid + 1) } := by
  rcases rescanBlock_cases s (id, bid) with
    ⟨hbit, heq⟩ | ⟨hbit, ⟨c, hc, hblock, heq⟩ | ⟨hcursor, heq⟩⟩
  · rw [heq]
    have ht : s.Traces { s with rescan := some (id, bid + 1) } :=
      (Traces.refl s).setLists _ _ _ _ _ _ _
    refine ⟨ht, ⟨hq.ready, hq.dirty, hq.queued, hq.stack, hq.cursor⟩,
      htr.step ht fun t i hmark _ _ => .inr ⟨hmark, fun hpending => .inr ?_⟩, rfl⟩
    refine hpending.next hrescan ?_ (fun _ h => h) rfl rfl rfl fun _ h _ => h
    rintro rfl
    exact Bool.false_ne_true (hbit.symm.trans (bit_of_marked (s := s) hmark))
  · -- the block under the cursor starts over
    rw [heq]
    have ht : s.Traces
        { s with cursor := some { c with pos := 0 }, rescan := some (id, bid + 1) } :=
      (Traces.refl s).setLists _ _ _ _ _ _ _
    refine ⟨ht, ⟨hq.ready, hq.dirty, fun b q hp hepoch hqueued => ?_, hq.stack, fun c' hc' => ?_⟩,
      htr.step ht fun t i hmark _ _ => .inr ⟨hmark, fun hpending => .inr ?_⟩, rfl⟩
    · refine (hq.queued b q hp hepoch hqueued).imp_right ?_
      rintro ⟨c', hc', rfl⟩
      rw [hc] at hc'
      cases hc'
      exact ⟨_, rfl, rfl⟩
    · cases hc'
      exact hq.cursor c hc
    · by_cases hself : t = (id, bid)
      · exact .inr (.inl ⟨_, rfl, hblock.trans hself.symm, Nat.zero_le _⟩)
      · refine hpending.next hrescan hself (fun _ h => h) rfl rfl rfl fun c' hc' hblock' => ?_
        rw [hc] at hc'
        cases hc'
        exact absurd (hblock'.symm.trans hblock) hself
  · rw [heq]
    have hmarked := marked_of_bit hall hbit
    have hvisits := visits_enqueue s (id, bid)
    have hqueues := queues_enqueue hq hmarked
    have ht : s.Traces { s.enqueue (id, bid) with rescan := some (id, bid + 1) } :=
      hvisits.traces.setLists _ _ _ _ _ _ _
    refine ⟨ht, ⟨hqueues.ready, hqueues.dirty, hqueues.queued, hqueues.stack, hqueues.cursor⟩,
      htr.step ht fun t i hmark hptr _ => ?_, hvisits.incoming⟩
    by_cases hself : t = (id, bid)
    · subst hself
      exact .inl (.inl ((mem_enqueue hq hmarked hptr).resolve_right hcursor))
    · refine .inr ⟨marked_enqueue.mp hmark, fun hpending => .inr ?_⟩
      exact hpending.next hrescan hself hvisits.stack hvisits.incoming hvisits.batch rfl
        fun c' hc' _ => hvisits.cursor.trans hc'

theorem works_pageEnd (hq : s.Queues) (htr : s.Traced) (hall : s.AllReady)
    (hrescan : s.rescan = some (id, bid)) (hend : ∀ p, s.pages[id]? = some p → p.page.maxBlocks ≤ bid) :
    s.Works { s with rescan := none } := by
  have ht : s.Traces { s with rescan := none } := (Traces.refl s).setLists _ _ _ _ _ _ _
  refine ⟨ht, ⟨hq.ready, hq.dirty, hq.queued, hq.stack, hq.cursor⟩,
    htr.step ht fun t i hmark _ _ => .inr ⟨hmark, fun hpending => .inr ?_⟩, rfl⟩
  rcases hpending with hmem | hcursor | hmem | hmem | ⟨k, hk, hle⟩
  · exact .inl hmem
  · exact .inr (.inl hcursor)
  · exact .inr (.inr (.inl hmem))
  · exact .inr (.inr (.inr (.inl hmem)))
  · rw [hrescan] at hk
    obtain ⟨p, hp, hepoch, hmarked⟩ := hmark
    cases hk
    have hbound : t.2 < p.page.maxBlocks := by
      refine Nat.lt_of_not_le fun hge => ?_
      obtain ⟨l, hl⟩ := Option.isSome_iff_exists.mp (hq.ready t.1 p hp hepoch).bits
      have hlength := (Allocator.bits_of_ok (hall t.1 p hp).2.page).1 l hl
      rw [GcPage.marked, hl] at hmarked
      simp only [List.getD_eq_getElem?_getD] at hmarked
      rw [List.getElem?_eq_none (hlength ▸ hge)] at hmarked
      cases hmarked
    have := hend p hp
    omega

theorem rescanDirty_works (fuel : Nat) (hall : s.AllReady) (hq : s.Queues) (htr : s.Traced) :
    s.Works (rescanDirty fuel s).1 ∧ ((rescanDirty fuel s).2 = true →
      (rescanDirty fuel s).1.batch = [] ∧ (rescanDirty fuel s).1.rescan = none) := by
  induction fuel generalizing s with
  | zero => exact ⟨⟨.refl s, hq, htr, rfl⟩, fun h => by cases h⟩
  | succ fuel ih =>
    -- one step, and the rest of the scan
    have hgo : ∀ {r : GcInc}, s.Works r → rescanDirty (fuel + 1) s = rescanDirty fuel r →
        s.Works (rescanDirty (fuel + 1) s).1 ∧ ((rescanDirty (fuel + 1) s).2 = true →
          (rescanDirty (fuel + 1) s).1.batch = [] ∧ (rescanDirty (fuel + 1) s).1.rescan = none) := by
      intro r hworks heq
      obtain ⟨hrest, hdone⟩ := ih (hall.traces hworks.traces) hworks.queues hworks.traced
      rw [heq]
      exact ⟨hworks.trans hrest, hdone⟩
    cases hrescan : s.rescan with
    | none =>
      cases hbatch : s.batch with
      | nil =>
        have heq : rescanDirty (fuel + 1) s = (s, true) := by
          rw [rescanDirty]
          simp only [hrescan, hbatch]
        rw [heq]
        exact ⟨⟨.refl s, hq, htr, rfl⟩, fun _ => ⟨hbatch, hrescan⟩⟩
      | cons id rest =>
        refine hgo (works_dirtyPop hq htr hrescan hbatch) ?_
        rw [rescanDirty]
        simp only [hrescan, hbatch]
    | some cell =>
      obtain ⟨id, bid⟩ := cell
      by_cases hlt : bid < s.maxBlocks id
      · refine hgo (works_rescanBlock hq htr hall hrescan) ?_
        rw [rescanDirty]
        simp only [hrescan, hlt, if_true]
      · refine hgo (works_pageEnd hq htr hall hrescan fun p hp => ?_) ?_
        · rw [maxBlocks, hp] at hlt
          exact Nat.le_of_not_lt hlt
        · rw [rescanDirty]
          simp only [hrescan, hlt, if_false]

theorem works_pop (hq : s.Queues) (htr : s.Traced) (hcursor : s.cursor = none) {rest : List BlockRef}
    (hstack : s.stack = b :: rest) :
    s.Works { s with stack := rest, cursor := some ⟨b, 0, s.blockWords b⟩ } := by
  have ht : s.Traces { s with stack := rest, cursor := some ⟨b, 0, s.blockWords b⟩ } :=
    (Traces.refl s).setLists _ _ _ _ _ _ _
  refine ⟨ht, ⟨hq.ready, hq.dirty, fun b' q hp hepoch hqueued => ?_, fun b' hb' => ?_,
    fun c hc => ?_⟩, htr.step ht fun t i hmark _ _ => .inr ⟨hmark, fun hpending => .inr ?_⟩, rfl⟩
  · rcases hq.queued b' q hp hepoch hqueued with hmem | ⟨c, hc, -⟩
    · rw [hstack] at hmem
      rcases List.mem_cons.mp hmem with rfl | hmem
      · exact .inr ⟨_, rfl, rfl⟩
      · exact .inl hmem
    · rw [hcursor] at hc
      cases hc
  · exact hq.stack b' (hstack ▸ List.mem_cons_of_mem b hb')
  · cases hc
    exact ⟨hq.stack b (hstack ▸ List.mem_cons_self), rfl⟩
  · rcases hpending with hmem | ⟨c, hc, -⟩ | hrest
    · rw [hstack] at hmem
      rcases List.mem_cons.mp hmem with rfl | hmem
      · exact .inr (.inl ⟨_, rfl, rfl, Nat.zero_le _⟩)
      · exact .inl hmem
    · rw [hcursor] at hc
      cases hc
    · exact .inr (.inr hrest)

theorem visit_setCursor (s : GcInc) (cursor : Option Cursor) (interior : Bool) (ptr : Nat) :
    { s with cursor }.visit interior ptr = { s.visit interior ptr with cursor } := by
  have htarget : target (GcInc.shapes { s with cursor }) interior ptr = target s.shapes interior ptr := rfl
  unfold visit
  rw [htarget]
  cases target s.shapes interior ptr with
  | none => rfl
  | some b =>
    have hbit : GcInc.bit { s with cursor } b = s.bit b := rfl
    simp only [hbit]
    cases s.bit b with
    | true => rfl
    | false =>
      have hmark : GcInc.setMark { s with cursor } b = { s.setMark b with cursor } := rfl
      simp only [Bool.false_eq_true, if_false, hmark]
      unfold enqueue
      simp only
      cases (s.setMark b).pages[b.1]? with
      | none => rfl
      | some p =>
        simp only
        split <;> rfl

theorem works_scanWord (hq : s.Queues) (htr : s.Traced) (hall : s.AllReady) {c : Cursor}
    (hc : s.cursor = some c) :
    s.Works ({ s with cursor := some { c with pos := c.pos + 1 } }.visit false (s.word c.block c.pos)) := by
  rw [visit_setCursor]
  obtain ⟨hmarks, hnamed⟩ := visit_marks hall hq htr false (s.word c.block c.pos)
  have hv := hmarks.visits
  have hscanned : (s.visit false (s.word c.block c.pos)).Settled (s.word c.block c.pos) := by
    intro t ht
    rw [hv.traces.shapes] at ht
    exact hnamed t ht
  generalize s.visit false (s.word c.block c.pos) = r at hmarks hv hscanned
  have ht : r.Traces { r with cursor := some { c with pos := c.pos + 1 } } :=
    (Traces.refl r).setLists _ _ _ _ _ _ _
  have hcr : r.cursor = some c := hv.cursor.trans hc
  have hqr := hmarks.queues
  refine ⟨hv.traces.trans ht, ⟨hqr.ready, hqr.dirty, fun b q hp hepoch hqueued => ?_, hqr.stack,
    fun c' hc' => ?_⟩, hmarks.traced.step ht fun t i hmark _ _ => .inr ⟨hmark, fun hpending => ?_⟩,
    hv.incoming⟩
  · refine (hqr.queued b q hp hepoch hqueued).imp_right ?_
    rintro ⟨c', hc', rfl⟩
    rw [hcr] at hc'
    cases hc'
    exact ⟨_, rfl, rfl⟩
  · cases hc'
    exact hqr.cursor c hcr
  · rcases hpending with hmem | ⟨c', hc', rfl, hpos⟩ | hrest
    · exact .inr (.inl hmem)
    · rw [hcr] at hc'
      cases hc'
      by_cases hi : i = c.pos
      · left
        rw [hi, hv.traces.word]
        exact hscanned
      · exact .inr (.inr (.inl ⟨_, rfl, rfl, Nat.lt_of_le_of_ne hpos (Ne.symm hi)⟩))
    · exact .inr (.inr (.inr hrest))

theorem works_finishBlock (hq : s.Queues) (htr : s.Traced) {c : Cursor} (hc : s.cursor = some c)
    (hend : c.stop ≤ c.pos) : s.Works (s.finishBlock c.block) := by
  have hmodify := Traces.modifyPage s c.block.1 fun p _ => p.keeps_setQueued c.block.2 false
  have ht : s.Traces (s.finishBlock c.block) := hmodify.setLists _ _ _ _ _ _ _
  have hold : ∀ t, (s.finishBlock c.block).Marked t → s.Marked t := fun t h =>
    marked_of_modifyPage (f := fun p => p.setQueued c.block.2 false) (fun p => ⟨rfl, rfl⟩) h
  refine ⟨ht, ?_, htr.step ht fun t i hmark _ hi => .inr ⟨hold t hmark, fun hpending => .inr ?_⟩, rfl⟩
  · constructor
    case ready =>
      intro id q' hq' hepoch
      obtain ⟨q, hp, ⟨-, rfl⟩ | ⟨-, rfl⟩⟩ := page_modifyPage hq'
      · exact hq.ready id q' hp hepoch
      · exact (q.keeps_setQueued _ _).ready (hq.ready id q hp hepoch) fun bid hbid => .inl hbid
    case dirty =>
      intro id q' hq' hdirty
      obtain ⟨q, hp, ⟨-, rfl⟩ | ⟨-, rfl⟩⟩ := page_modifyPage hq'
      · exact hq.dirty id q' hp hdirty
      · exact hq.dirty id q hp hdirty
    case queued =>
      intro b q' hq' hepoch hqueued
      -- another block than the one whose flag is cleared
      have hother : ∀ q, s.pages[b.1]? = some q → q.epoch = s.epoch → q.queued.getD b.2 false = true →
          b ≠ c.block → b ∈ s.stack := by
        intro q hp hepoch hqueued hne
        refine (hq.queued b q hp hepoch hqueued).resolve_right ?_
        rintro ⟨c', hc', rfl⟩
        rw [hc] at hc'
        cases hc'
        exact hne rfl
      left
      obtain ⟨q, hp, ⟨hne, rfl⟩ | ⟨hid, rfl⟩⟩ := page_modifyPage hq'
      · exact hother q' hp hepoch hqueued fun heq => hne (by rw [heq])
      · have hqueued' : (q.queued.set c.block.2 false).getD b.2 false = true := hqueued
        rw [List.getD_eq_getElem?_getD, List.getElem?_set] at hqueued'
        split at hqueued'
        · split at hqueued' <;> cases hqueued'
        · rename_i hbid
          rw [← List.getD_eq_getElem?_getD] at hqueued'
          exact hother q hp hepoch hqueued' fun heq => hbid (by rw [heq])
    case stack => exact fun b hb => ht.marked (hq.stack b hb)
    case cursor => exact fun c' hc' => by cases hc'
  · rcases hpending with hmem | ⟨c', hc', rfl, hpos⟩ | hrest
    · exact .inl hmem
    · -- the words of the block are all scanned
      rw [hc] at hc'
      cases hc'
      have := (hq.cursor c hc).2
      omega
    · exact .inr (.inr hrest)

theorem drain_works (fuel : Nat) (hall : s.AllReady) (hq : s.Queues) (htr : s.Traced) :
    s.Works (drain fuel s).1 ∧ (drain fuel s).1.batch = s.batch ∧ (drain fuel s).1.rescan = s.rescan ∧
      ((drain fuel s).2 = true → (drain fuel s).1.stack = [] ∧ (drain fuel s).1.cursor = none) := by
  induction fuel generalizing s with
  | zero => exact ⟨⟨.refl s, hq, htr, rfl⟩, rfl, rfl, fun h => by cases h⟩
  | succ fuel ih =>
    have hgo : ∀ {r : GcInc}, s.Works r → r.batch = s.batch → r.rescan = s.rescan →
        drain (fuel + 1) s = drain fuel r →
        s.Works (drain (fuel + 1) s).1 ∧ (drain (fuel + 1) s).1.batch = s.batch ∧
          (drain (fuel + 1) s).1.rescan = s.rescan ∧ ((drain (fuel + 1) s).2 = true →
            (drain (fuel + 1) s).1.stack = [] ∧ (drain (fuel + 1) s).1.cursor = none) := by
      intro r hworks hbatch hrescan heq
      obtain ⟨hrest, hbatch', hrescan', hdone⟩ :=
        ih (hall.traces hworks.traces) hworks.queues hworks.traced
      rw [heq]
      exact ⟨hworks.trans hrest, hbatch'.trans hbatch, hrescan'.trans hrescan, hdone⟩
    cases hcursor : s.cursor with
    | none =>
      cases hstack : s.stack with
      | nil =>
        have heq : drain (fuel + 1) s = (s, true) := by
          rw [drain]
          simp only [hcursor, hstack]
        rw [heq]
        exact ⟨⟨.refl s, hq, htr, rfl⟩, rfl, rfl, fun _ => ⟨hstack, hcursor⟩⟩
      | cons b rest =>
        refine hgo (works_pop hq htr hcursor hstack) rfl rfl ?_
        rw [drain]
        simp only [hcursor, hstack]
    | some c =>
      by_cases hlt : c.pos < c.stop
      · have hworks := works_scanWord hq htr hall hcursor
        have heq : drain (fuel + 1) s = drain fuel ({ s with
            cursor := some { c with pos := c.pos + 1 } }.visit false (s.word c.block c.pos)) := by
          rw [drain]
          simp only [hcursor, hlt, if_true]
        rw [visit_setCursor] at hworks heq
        have hv := (visit_marks hall hq htr false (s.word c.block c.pos)).1.visits
        exact hgo hworks hv.batch hv.rescan heq
      · refine hgo (works_finishBlock hq htr hcursor (Nat.le_of_not_lt hlt)) rfl rfl ?_
        rw [drain]
        simp only [hcursor, hlt, if_false]

/-- There is no work left: all roots were visited, and every list of the marker but the one of new
dirty pages is empty. -/
structure Drained (s : GcInc) : Prop where
  stack : s.stack = []
  cursor : s.cursor = none
  rescan : s.rescan = none
  batch : s.batch = []
  roots : ∀ w ∈ s.roots, ∀ t, target s.shapes true w = some t → s.Marked t

theorem traceSlice_works (d : Deadlines) (hall : s.AllReady) (hq : s.Queues) (htr : s.Traced) :
    s.Works (traceSlice d s).1 ∧ ((traceSlice d s).2 = true → (traceSlice d s).1.Drained) := by
  obtain ⟨hmarks, hroots⟩ := foldl_visit_marks s.roots hall hq htr
  change s.Marks s.visitRoots at hmarks
  have hw₁ := hmarks.works
  have hall₁ := hall.traces hw₁.traces
  obtain ⟨hw₂, hclean⟩ := rescanDirty_works d.rescan hall₁ hw₁.queues hw₁.traced
  unfold traceSlice
  generalize rescanDirty d.rescan s.visitRoots = result at hw₂ hclean
  obtain ⟨r, clean⟩ := result
  cases clean with
  | false => exact ⟨hw₁.trans hw₂, fun h => by cases h⟩
  | true =>
    obtain ⟨hbatch, hrescan⟩ := hclean rfl
    obtain ⟨hw₃, hbatch', hrescan', hdone⟩ :=
      drain_works d.drain (hall₁.traces hw₂.traces) hw₂.queues hw₂.traced
    refine ⟨(hw₁.trans hw₂).trans hw₃, fun h => ?_⟩
    obtain ⟨hstack, hcursor⟩ := hdone h
    have ht := hw₂.traces.trans hw₃.traces
    refine ⟨hstack, hcursor, hrescan'.trans hrescan, hbatch'.trans hbatch, fun w hword t htarget => ?_⟩
    have htotal := hw₁.traces.trans ht
    change w ∈ (drain d.drain r).1.roots at hword
    rw [htotal.roots] at hword
    rw [htotal.shapes] at htarget
    exact ht.marked (hroots w hword t htarget)

/-- A block that a root names, or a word of a block with pointers that is reachable. -/
inductive Reach (s : GcInc) : BlockRef → Prop where
  | root {w : Nat} {b : BlockRef} (hw : w ∈ s.roots) (hb : target s.shapes true w = some b) :
      Reach s b
  | word {b t : BlockRef} {i : Nat} (hb : Reach s b) (hptr : s.HasPtr b) (hi : i < s.blockWords b)
      (ht : target s.shapes false (s.word b i) = some t) : Reach s t

theorem Drained.reach_marked (h : s.Drained) (hincoming : s.incoming = []) (htr : s.Traced)
    (hb : s.Reach b) : s.Marked b := by
  induction hb with
  | root hw hb => exact h.roots _ hw _ hb
  | @word b t i _ hptr hi ht ih =>
    refine (htr b ih hptr i hi).resolve_right ?_ t ht
    rintro (hmem | ⟨c, hc, -⟩ | hmem | hmem | ⟨k, hk, -⟩)
    · rw [h.stack] at hmem
      cases hmem
    · rw [h.cursor] at hc
      cases hc
    · rw [hincoming] at hmem
      cases hmem
    · rw [h.batch] at hmem
      cases hmem
    · rw [h.rescan] at hk
      cases hk

end GcInc

end HashLink.Gc
