import HashLink.Gc.IncrementalPages

/-! Preparing a page and allocating from it keep the invariant of a cycle. An allocation is marked at
once, and nothing scans its words: what it leaves in the block must not name an unmarked block. -/

namespace HashLink.Gc

namespace GcInc

/-- The lists and the progress of the marker are as before. -/
structure Frame (s s' : GcInc) : Prop where
  lists : s'.lists = s.lists
  epoch : s'.epoch = s.epoch
  active : s'.active = s.active
  preparing : s'.preparing = s.preparing
  preparePid : s'.preparePid = s.preparePid
  prepareCursor : s'.prepareCursor = s.prepareCursor
  stack : s'.stack = s.stack
  cursor : s'.cursor = s.cursor
  rescan : s'.rescan = s.rescan
  incoming : s'.incoming = s.incoming
  batch : s'.batch = s.batch

/-- The page `id` was `p` and is `p'`. -/
structure Turns (s s' : GcInc) (id : Nat) (p p' : IncPage) : Prop where
  old : s.pages[id]? = some p
  pages : s'.pages = s.pages.set id p'

variable {s s' : GcInc} {id : Nat} {p p' : IncPage} {b t : BlockRef}

theorem modifyPage_eq (hp : s.pages[id]? = some p) (f : IncPage → IncPage) :
    (s.modifyPage id f).pages = s.pages.set id (f p) := by
  unfold modifyPage
  rw [List.modify_eq_set_getElem?, hp]
  rfl

theorem modifyPage_same {f : IncPage → IncPage} (hf : ∀ p, s.pages[id]? = some p → f p = p) :
    s.modifyPage id f = s := by
  have hpages : s.pages.modify id f = s.pages := by
    ext n : 1
    show (s.modifyPage id f).pages[n]? = s.pages[n]?
    rw [getElem?_modifyPage]
    split
    · rename_i hid
      subst hid
      cases hp : s.pages[id]? with
      | none => rfl
      | some p => rw [Option.map_some, hf p hp]
    · rfl
  unfold modifyPage
  rw [hpages]

variable {size : Nat} {zero : Bool} {q : IncPage} {run : Run}

namespace Turns

variable (h : Turns s s' id p p')

include h

theorem new : s'.pages[id]? = some p' := by
  rw [h.pages]
  exact List.getElem?_set_self (List.getElem?_eq_some_iff.mp h.old).1

theorem other {id' : Nat} (hne : id' ≠ id) : s'.pages[id']? = s.pages[id']? := by
  rw [h.pages, List.getElem?_set_ne (Ne.symm hne)]

theorem page {id' : Nat} (hq : s'.pages[id']? = some q) :
    id' = id ∧ q = p' ∨ id' ≠ id ∧ s.pages[id']? = some q := by
  by_cases hid : id' = id
  · subst hid
    rw [h.new] at hq
    cases hq
    exact .inl ⟨rfl, rfl⟩
  · rw [h.other hid] at hq
    exact .inr ⟨hid, hq⟩

theorem target {fresh : Nat → Prop} (hfades : p.shape.Fades p'.shape fresh) {w : Nat}
    (ht : GcInc.target s'.shapes false w = some t) :
    GcInc.target s.shapes false w = some t ∨ t.1 = id ∧ fresh t.2 := by
  have hkeys : s'.shapes.map (fun p => (p.base, p.size)) = s.shapes.map fun p => (p.base, p.size) := by
    ext n : 1
    simp only [shapes, List.getElem?_map]
    by_cases hn : n = id
    · subst hn
      rw [h.new, h.old]
      simp only [Option.map_some]
      rw [hfades.same]
    · rw [h.other hn]
  have hpage : getPage s'.shapes w = getPage s.shapes w := by
    have hfind : ∀ l : List Shape, l.findIdx? (fun p => p.inPage w) =
        (l.map fun p => (p.base, p.size)).findIdx? fun k => k.1 ≤ w && w < k.1 + k.2 := by
      intro l
      rw [List.findIdx?_map]
      rfl
    unfold getPage
    rw [hfind, hkeys, ← hfind]
  obtain ⟨sh, hget, hsh, -, hblock⟩ := target_eq_some ht
  rw [hpage] at hget
  rw [getElem?_shapes] at hsh
  obtain ⟨q, hq, rfl⟩ := Option.map_eq_some_iff.mp hsh
  -- the word names the same place of the same page
  have hsame : ∀ r, s.pages[t.1]? = some r → r.shape.blockId w = some t.2 →
      GcInc.target s.shapes false w = some t := by
    intro r hr hblock
    unfold GcInc.target
    rw [hget]
    simp only [Option.bind_some, getElem?_shapes, hr, Option.map_some, Bool.false_eq_true, if_false, hblock]
  rcases h.page hq with ⟨hid, rfl⟩ | ⟨-, hq⟩
  · rcases hfades.blockId hblock with hold | hfresh
    · exact .inl (hsame p (hid ▸ h.old) hold)
    · exact .inr ⟨hid, hfresh⟩
  · exact .inl (hsame q hq hblock)

end Turns

/-- Tracing survives a change of the heap that forgets blocks, when the words of marked blocks stay
or are settled. -/
theorem Traced.change (h : s.Traced) (hmarks : ∀ b, s.Marked b → s'.Marked b)
    (htargets : ∀ b i, s.Marked b → s.HasPtr b → i < s.blockWords b → ∀ t,
      target s'.shapes false (s.word b i) = some t → target s.shapes false (s.word b i) = some t ∨ s'.Marked t)
    (hpending : ∀ b i, s.Pending b i → s'.Pending b i)
    (hcase : ∀ b i, s'.Marked b → s'.HasPtr b → i < s'.blockWords b → s'.Settled (s'.word b i) ∨
        s.Marked b ∧ s.HasPtr b ∧ i < s.blockWords b ∧ s'.word b i = s.word b i) :
    s'.Traced := by
  intro b hb hptr i hi
  rcases hcase b i hb hptr hi with hsettled | ⟨hb', hptr', hi', hword⟩
  · exact .inl hsettled
  · rw [hword]
    refine (h b hb' hptr' i hi').imp (fun hsettled t ht => ?_) (hpending b i)
    rcases htargets b i hb' hptr' hi' t ht with hold | hmarked
    · exact hmarks t (hsettled t hold)
    · exact hmarked

theorem Frame.pending (h : s.Frame s') {i : Nat} (hb : s.Pending b i) : s'.Pending b i := by
  unfold Pending at hb ⊢
  rw [h.stack, h.cursor, h.rescan, h.incoming, h.batch]
  exact hb

/-- What a page must keep when it changes in a cycle: the marks of the cycle, and the sizes of marked
blocks. -/
structure PageStep (e : Nat) (p p' : IncPage) : Prop where
  ok : p'.Ok
  epoch : p'.epoch = p.epoch ∨ p'.epoch = e
  ready : p'.epoch = e → p'.Ready
  dirty : p'.dirty = p.dirty
  queued : p'.epoch = e → ∀ bid, p'.queued.getD bid false = true → p.epoch = e ∧ p.queued.getD bid false = true
  marks : p.epoch = e → p'.epoch = e ∧ ∀ bid, p.page.marked bid = true →
    p'.page.marked bid = true ∧ p'.shape.words bid = p.shape.words bid

theorem PageStep.marked (hturn : Turns s s' id p p') (hepoch : s'.epoch = s.epoch)
    (hstep : PageStep s.epoch p p') (hb : s.Marked b) :
    s'.Marked b ∧ s'.blockWords b = s.blockWords b := by
  obtain ⟨q, hq, hqe, hmarked⟩ := hb
  by_cases hid : b.1 = id
  · rw [hid, hturn.old] at hq
    cases hq
    obtain ⟨hpe, hmarks⟩ := hstep.marks hqe
    obtain ⟨hmarked', hwords⟩ := hmarks b.2 hmarked
    refine ⟨⟨p', hid ▸ hturn.new, hpe.trans hepoch.symm, hmarked'⟩, ?_⟩
    unfold blockWords
    rw [hid, hturn.old, hturn.new]
    exact hwords
  · refine ⟨⟨q, (hturn.other hid).trans hq, hqe.trans hepoch.symm, hmarked⟩, ?_⟩
    unfold blockWords
    rw [hturn.other hid]

theorem Heap.turn (h : s.Heap) (hframe : s.Frame s') (hturn : Turns s s' id p p')
    (hok : p'.Ok) (hepoch : p'.epoch ≤ s.epoch) : s'.Heap where
  epochs id' q hq := by
    rw [hframe.epoch]
    rcases hturn.page hq with ⟨rfl, rfl⟩ | ⟨-, hq⟩
    · exact hepoch
    · exact h.epochs id' q hq
  ok id' q hq := by
    rcases hturn.page hq with ⟨rfl, rfl⟩ | ⟨-, hq⟩
    · exact hok
    · exact h.ok id' q hq
  listed id' hid' := by
    rw [hframe.lists]
    refine h.listed id' ?_
    rw [hturn.pages, List.length_set] at hid'
    exact hid'

theorem Queues.turn (h : s.Queues) (hframe : s.Frame s') (hturn : Turns s s' id p p')
    (hstep : PageStep s.epoch p p') : s'.Queues where
  ready id' q hq hqe := by
    rw [hframe.epoch] at hqe
    rcases hturn.page hq with ⟨rfl, rfl⟩ | ⟨-, hq⟩
    · exact hstep.ready hqe
    · exact h.ready id' q hq hqe
  dirty id' q hq hdirty := by
    rw [hframe.incoming, hframe.batch]
    rcases hturn.page hq with ⟨rfl, rfl⟩ | ⟨-, hq⟩
    · exact h.dirty id' p hturn.old (hstep.dirty ▸ hdirty)
    · exact h.dirty id' q hq hdirty
  queued b q hq hqe hqueued := by
    rw [hframe.epoch] at hqe
    rw [hframe.stack, hframe.cursor]
    rcases hturn.page hq with ⟨hid, rfl⟩ | ⟨-, hq⟩
    · obtain ⟨hpe, hold⟩ := hstep.queued hqe b.2 hqueued
      exact h.queued b p (hid ▸ hturn.old) hpe hold
    · exact h.queued b q hq hqe hqueued
  stack b hb := by
    rw [hframe.stack] at hb
    exact (hstep.marked hturn hframe.epoch (h.stack b hb)).1
  cursor c hc := by
    rw [hframe.cursor] at hc
    obtain ⟨hmarked, hstop⟩ := h.cursor c hc
    obtain ⟨hmarked', hwords⟩ := hstep.marked hturn hframe.epoch hmarked
    exact ⟨hmarked', hstop.trans hwords.symm⟩

theorem Prepared.turn (h : s.Prepared) (hframe : s.Frame s') (hturn : Turns s s' id p p')
    (hepoch : p'.epoch = p.epoch ∨ p'.epoch = s.epoch) : s'.Prepared := by
  intro id' q hq
  rw [hframe.epoch, hframe.preparing, Waits, hframe.prepareCursor, hframe.preparePid, hframe.lists]
  rcases hturn.page hq with ⟨rfl, rfl⟩ | ⟨-, hq⟩
  · rcases hepoch with heq | heq
    · rw [heq]
      exact h id' p hturn.old
    · exact .inl heq
  · exact h id' q hq

theorem Cycle.turn (h : s.Cycle) (hframe : s.Frame s') (hturn : Turns s s' id p p')
    (hstep : PageStep s.epoch p p') (htraced : s'.Traced) : s'.Cycle where
  heap := by
    refine h.heap.turn hframe hturn hstep.ok ?_
    rcases hstep.epoch with heq | heq
    · rw [heq]
      exact h.heap.epochs id p hturn.old
    · exact Nat.le_of_eq heq
  queues := h.queues.turn hframe hturn hstep
  traced := htraced
  prepared := Prepared.turn h.prepared hframe hturn hstep.epoch

theorem Turns.block (h : Turns s s' id p p') (hepoch : s'.epoch = s.epoch)
    (hmem : s'.mem b.1 = s.mem b.1) (hne : b.1 ≠ id) :
    (s'.Marked b ↔ s.Marked b) ∧ (s'.HasPtr b ↔ s.HasPtr b) ∧ s'.blockWords b = s.blockWords b ∧
      ∀ i, s'.word b i = s.word b i := by
  unfold Marked HasPtr blockWords word
  rw [h.other hne, hepoch, hmem]
  exact ⟨Iff.rfl, Iff.rfl, rfl, fun _ => rfl⟩

variable {pos e : Nat}

theorem preparePage_eq (hok : p.Ok) (hne : p.epoch ≠ e) :
    ∃ q, p.page.flushed = .ok q ∧ p.page.Flushes q ∧
      preparePage e p = { p with
        page := { q with bmp := some (List.replicate q.maxBlocks false) }
        epoch := e
        queued := List.replicate q.maxBlocks false } := by
  obtain ⟨q, hq, hflushes⟩ := hok.page.flushes
  refine ⟨q, hq, hflushes, ?_⟩
  unfold preparePage
  rw [if_neg hne, Allocator.gcIncPreparePage, hq]
  rfl

theorem preparePage_self (p : IncPage) : preparePage p.epoch p = p := if_pos rfl

theorem marked_clear {q : GcPage} {n bid : Nat} :
    GcPage.marked { q with bmp := some (List.replicate n false) } bid = false := by
  show (List.replicate n false).getD bid false = false
  rw [List.getD_eq_getElem?_getD, List.getElem?_replicate]
  split <;> rfl

theorem prepared_spec (hok : p.Ok) (hne : p.epoch ≠ e) :
    (preparePage e p).Ok ∧ (preparePage e p).epoch = e ∧ (preparePage e p).dirty = p.dirty ∧
      (∀ bid, (preparePage e p).page.marked bid = false) ∧
      (∀ bid, (preparePage e p).queued.getD bid false = false) ∧
      (preparePage e p).page.bmp.isSome = true ∧ (preparePage e p).page.needFlush = false ∧
      p.shape.Fades (preparePage e p).shape fun _ => False := by
  obtain ⟨q, -, hflushes, heq⟩ := preparePage_eq hok hne
  have hsame := hflushes.same
  rw [heq]
  refine ⟨⟨?_, ?_, ?_⟩, rfl, rfl, fun bid => marked_clear, fun bid => ?_, rfl, ?_,
    ⟨?_, hflushes.none, fun l l' hl hl' x hx => ?_⟩⟩
  · refine Allocator.ok_setBits hflushes.ok (fun l hl => ?_) fun _ => rfl
    cases hl
    exact List.length_replicate
  · rw [hsame]
    exact hok.align
  · intro hnone
    rw [hsame]
    exact hok.first (hflushes.none.mp hnone)
  · rw [List.getD_eq_getElem?_getD, List.getElem?_replicate]
    split <;> rfl
  · rw [hsame]
  · rw [hsame]
    rfl
  · left
    rcases hflushes.sizes l l' hl hl' x with hold | hzero
    · rw [← hold]
      exact hx
    · exact absurd hzero hx

theorem pageStep_prepare (hok : p.Ok) (hready : p.epoch = e → p.Ready) :
    PageStep e p (preparePage e p) ∧ (preparePage e p).epoch = e ∧
      p.shape.Fades (preparePage e p).shape fun _ => False := by
  by_cases he : p.epoch = e
  · subst he
    rw [preparePage_self]
    refine ⟨⟨hok, .inl rfl, fun _ => hready rfl, rfl, fun _ bid hbid => ⟨rfl, hbid⟩,
      fun _ => ⟨rfl, fun bid hbid => ⟨hbid, rfl⟩⟩⟩, rfl, rfl, Iff.rfl, fun l l' hl hl' x hx => ?_⟩
    rw [hl] at hl'
    cases hl'
    exact .inl hx
  · obtain ⟨hok', hepoch, hdirty, hclear, hunqueued, hbits, hsettled, hfades⟩ := prepared_spec hok he
    refine ⟨⟨hok', .inr hepoch, fun _ => ⟨hbits, hsettled, fun bid hbid => ?_⟩, hdirty,
      fun _ bid hbid => ?_, fun hpe => absurd hpe he⟩, hepoch, hfades⟩
    · rw [hclear] at hbid
      cases hbid
    · rw [hunqueued] at hbid
      cases hbid

theorem Cycle.preparePage (h : s.Cycle) (id : Nat) :
    (s.modifyPage id (GcInc.preparePage s.epoch)).Cycle := by
  by_cases hsame : ∀ p, s.pages[id]? = some p → p.epoch = s.epoch
  · rw [modifyPage_same fun p hp => hsame p hp ▸ preparePage_self p]
    exact h
  · obtain ⟨p, hne⟩ := not_forall.mp hsame
    obtain ⟨hp, hne⟩ := Classical.not_imp.mp hne
    have hok := h.heap.ok id p hp
    have hturn : Turns s (s.modifyPage id (GcInc.preparePage s.epoch)) id p
        (GcInc.preparePage s.epoch p) := ⟨hp, modifyPage_eq hp _⟩
    have hframe : s.Frame (s.modifyPage id (GcInc.preparePage s.epoch)) :=
      ⟨rfl, rfl, rfl, rfl, rfl, rfl, rfl, rfl, rfl, rfl, rfl⟩
    obtain ⟨hstep, -, hfades⟩ := pageStep_prepare hok (h.queues.ready id p hp)
    refine h.turn hframe hturn hstep (h.traced.change ?_ ?_ ?_ ?_)
    · exact fun b hb => (hstep.marked hturn rfl hb).1
    · intro b i _ _ _ t ht
      rcases hturn.target hfades ht with hold | ⟨-, hfalse⟩
      · exact .inl hold
      · exact hfalse.elim
    · exact fun b i => hframe.pending
    · intro b i hb hptr hi
      right
      by_cases hid : b.1 = id
      · obtain ⟨q, hq, -, hmarked⟩ := hb
        rw [hid, hturn.new] at hq
        cases hq
        rw [(prepared_spec hok hne).2.2.2.1] at hmarked
        cases hmarked
      · obtain ⟨hmark, hhas, hwords, hword⟩ := hturn.block (b := b) rfl rfl hid
        exact ⟨hmark.mp hb, hhas.mp hptr, hwords ▸ hi, hword i⟩

def LeavesClean (s : GcInc) (id : Nat) (p : IncPage) (pos size : Nat) (zero : Bool) : Prop :=
  p.shape.hasPtr = true → ∀ i < p.shape.words pos, ∀ t, target s.shapes false
        (leftWord true zero size i (s.mem id (p.page.blockSize * pos / 8 + i))) = some t →
      s.Marked t ∨ t = (id, pos)

/-- A page after blocks were taken from it, and before it is prepared. -/
structure Taken (p : IncPage) (page : GcPage) (run : Run) : Prop where
  ok : IncPage.Ok { p with page }
  fades : p.shape.Fades (IncPage.shape { p with page }) (· = run.pos)
  settled : page.needFlush = false
  bound : run.pos < page.maxBlocks
  starts : page.Starts run.pos
  ready : p.page.needFlush = false → p.page.bmp.isSome = page.bmp.isSome ∧
    (∀ bid, page.marked bid = true → p.page.marked bid = true ∨ bid = run.pos) ∧
    (∀ bid, p.page.marked bid = true → page.marked bid = true) ∧
    ∀ bid, p.page.Starts bid → page.Starts bid ∧
      (IncPage.shape { p with page }).words bid = p.shape.words bid

theorem taken_of_takes {q page : GcPage} (hok : p.Ok) (hq : p.page.flushed = .ok q) (hf : p.page.Flushes q)
    (ht : GcPage.Takes q page run) : Taken p page run := by
  have hsame := ht.same
  rw [hf.same] at hsame
  constructor
  case ok =>
    refine ⟨ht.ok, ?_, fun hnone => ?_⟩
    · rw [hsame]
      exact hok.align
    · rw [hsame]
      exact hok.first (hf.none.mp (ht.none.mp hnone))
  case fades => exact ht.fades hf
  case settled => rw [hsame]
  case bound =>
    have hbound := ht.bound
    rw [hf.same] at hbound
    rw [hsame]
    exact hbound
  case starts =>
    refine ⟨?_, ht.starts.2⟩
    have hfirst := ht.starts.1
    rw [hf.same] at hfirst
    rw [hsame]
    exact hfirst
  case ready =>
    intro hneed
    rw [GcPage.flushed_of_settled hneed] at hq
    cases hq
    refine ⟨ht.bits.symm, ht.marks, ht.keeps, fun bid hbid => ?_⟩
    cases hsizes : p.page.sizes with
    | none =>
      have hnone := ht.none.mpr hsizes
      refine ⟨⟨?_, fun l hl => ?_⟩, ?_⟩
      · rw [hsame]
        exact hbid.1
      · rw [hnone] at hl
        cases hl
      · unfold IncPage.shape Shape.words
        simp only [hnone, hsizes]
        rw [hsame]
    | some l =>
      cases hpage : page.sizes with
      | none => rw [ht.none.mp hpage] at hsizes; cases hsizes
      | some l' =>
        obtain ⟨hzero, hother⟩ := ht.sizes l l' hsizes hpage
        have hne : bid ≠ run.pos := by
          rintro rfl
          exact hbid.2 l hsizes hzero
        refine ⟨⟨?_, fun l'' hl'' => ?_⟩, ?_⟩
        · rw [hsame]
          exact hbid.1
        · rw [hpage] at hl''
          cases hl''
          rw [hother bid hne]
          exact hbid.2 l hsizes
        · unfold IncPage.shape Shape.words
          simp only [hpage, hsizes, hother bid hne]
          rw [hsame]

theorem pageStep_alloc {page : GcPage} (hready : p.epoch = e → p.Ready) (ht : Taken p page run) :
    PageStep e p ((preparePage e { p with page }).mark run.pos) ∧
      ((preparePage e { p with page }).mark run.pos).shape = IncPage.shape { p with page } ∧
      ((preparePage e { p with page }).mark run.pos).epoch = e ∧
      ((preparePage e { p with page }).mark run.pos).page.marked run.pos = true ∧
      ∀ bid, ((preparePage e { p with page }).mark run.pos).page.marked bid = true →
        p.epoch = e ∧ p.page.marked bid = true ∨ bid = run.pos := by
  by_cases he : p.epoch = e
  · have hprep : preparePage e { p with page } = { p with page } := if_pos he
    rw [hprep]
    have hr := hready he
    obtain ⟨hbits, hmarks, hkeeps, hstarts⟩ := ht.ready hr.settled
    have hmark := IncPage.keeps_mark { p with page } run.pos
    have hnew : ∀ bid, (IncPage.mark { p with page } run.pos).page.marked bid = true →
        p.page.marked bid = true ∨ bid = run.pos := by
      intro bid hbid
      rcases GcPage.marked_set hbid with hold | hpos
      · exact hmarks bid hold
      · exact .inr hpos
    refine ⟨⟨hmark.ok ht.ok, .inl rfl, fun _ => ?_, rfl, fun _ bid hbid => ⟨he, hbid⟩,
      fun _ => ⟨he, fun bid hbid => ⟨hmark.marks bid (hkeeps bid hbid),
        (hstarts bid (hr.starts bid hbid)).2⟩⟩⟩, rfl, he, ?_, fun bid hbid => ?_⟩
    · refine hmark.ready ⟨hbits ▸ hr.bits, ht.settled, fun bid hbid => ?_⟩ fun bid hbid => ?_
      · rcases hmarks bid hbid with hold | rfl
        · exact (hstarts bid (hr.starts bid hold)).1
        · exact ht.starts
      · rcases GcPage.marked_set hbid with hold | rfl
        · exact .inl hold
        · exact .inr ht.starts
    · exact GcPage.marked_set_self ht.ok.page (hbits ▸ hr.bits) ht.bound
    · exact (hnew bid hbid).imp_left fun hold => ⟨he, hold⟩
  · have hne : IncPage.epoch { p with page } ≠ e := he
    obtain ⟨hok, hepoch, hdirty, hclear, hunqueued, hbits, hsettled, -⟩ := prepared_spec ht.ok hne
    obtain ⟨q, hq, -, heq⟩ := preparePage_eq ht.ok hne
    rw [GcPage.flushed_of_settled ht.settled] at hq
    cases hq
    have hmark := IncPage.keeps_mark (preparePage e { p with page }) run.pos
    have hpage : (preparePage e { p with page }).page.Starts run.pos := by
      rw [heq]
      exact ht.starts
    have hbound : run.pos < (preparePage e { p with page }).page.maxBlocks := by
      rw [heq]
      exact ht.bound
    refine ⟨⟨hmark.ok hok, .inr hepoch, fun _ => ?_, hdirty, fun _ bid hbid => ?_,
      fun hpe => absurd hpe he⟩, ?_, hepoch, GcPage.marked_set_self hok.page hbits hbound,
      fun bid hbid => ?_⟩
    · refine hmark.ready ⟨hbits, hsettled, fun bid hbid => ?_⟩ fun bid hbid => ?_
      · rw [hclear] at hbid
        cases hbid
      · rcases GcPage.marked_set hbid with hold | rfl
        · exact .inl hold
        · exact .inr hpage
    · change (preparePage e { p with page }).queued.getD bid false = true at hbid
      rw [hunqueued] at hbid
      cases hbid
    · rw [hmark.shape, heq]
      rfl
    · rcases GcPage.marked_set hbid with hold | rfl
      · rw [hclear] at hold
        cases hold
      · exact .inr rfl

/-- The memory after an allocation cleared words of the block at `pos`. -/
def clearedMem (s : GcInc) (id : Nat) (p : IncPage) (pos size : Nat) (zero : Bool) :
    Nat → Nat → Nat :=
  Function.update s.mem id fun i =>
    if p.page.blockSize * pos / 8 ≤ i ∧ i < p.page.blockSize * pos / 8 + p.shape.words pos then
      leftWord p.shape.hasPtr zero size (i - p.page.blockSize * pos / 8) (s.mem id i)
    else s.mem id i

theorem clearBlock_eq (hp : s.pages[id]? = some p) :
    s.clearBlock (id, pos) size zero = { s with mem := s.clearedMem id p pos size zero } := by
  unfold clearBlock
  simp only [hp]
  rfl

theorem modifyPage_set {mem : Nat → Nat → Nat} (hlt : id < s.pages.length) (f : IncPage → IncPage) :
    GcInc.modifyPage { s with pages := s.pages.set id q, mem } id f =
      { s with pages := s.pages.set id (f q), mem } := by
  unfold modifyPage
  simp only [List.modify_eq_set_getElem?, List.getElem?_set_self hlt, Option.map_eq_map,
    Option.map_some, Option.getD_some, List.set_set]

theorem taken_eq {page : GcPage} (hp : s.pages[id]? = some p) :
    (s.modifyPage id fun p => { p with page }).clearBlock (id, pos) size zero =
      { s with
        pages := s.pages.set id { p with page }
        mem := s.clearedMem id { p with page } pos size zero } := by
  have hlt := (List.getElem?_eq_some_iff.mp hp).1
  have hmodify : s.modifyPage id (fun p => { p with page }) =
      { s with pages := s.pages.set id { p with page } } := by
    unfold modifyPage
    rw [List.modify_eq_set_getElem?, hp]
    rfl
  have hnew : (GcInc.pages { s with pages := s.pages.set id { p with page } })[id]? =
      some { p with page } := List.getElem?_set_self hlt
  rw [hmodify, clearBlock_eq hnew]
  rfl

theorem alloc_eq {page : GcPage} (hp : s.pages[id]? = some p)
    (htake : p.page.takeBlock size = some (page, run)) :
    s.alloc id size zero = { s with
      pages := s.pages.set id (if s.active then (preparePage s.epoch { p with page }).mark run.pos
        else { p with page })
      mem := s.clearedMem id { p with page } run.pos size zero } := by
  have hlt := (List.getElem?_eq_some_iff.mp hp).1
  unfold alloc
  simp only [hp, Option.bind_some, htake]
  rw [taken_eq hp]
  by_cases hactive : s.active = true
  · rw [if_pos hactive, if_pos hactive, modifyPage_set hlt, setMark, modifyPage_set hlt]
  · rw [if_neg hactive, if_neg hactive]

theorem alloc_cases (s : GcInc) (id size : Nat) (zero : Bool) : s.alloc id size zero = s ∨
    ∃ p page run, s.pages[id]? = some p ∧ p.page.takeBlock size = some (page, run) := by
  cases htake : (s.pages[id]?).bind fun p => p.page.takeBlock size with
  | none =>
    left
    unfold alloc
    rw [htake]
  | some taken =>
    obtain ⟨p, hp, htake⟩ := Option.bind_eq_some_iff.mp htake
    exact .inr ⟨p, taken.1, taken.2, hp, htake⟩

theorem active_alloc (s : GcInc) (id size : Nat) (zero : Bool) :
    (s.alloc id size zero).active = s.active := by
  rcases alloc_cases s id size zero with heq | ⟨p, page, run, hp, htake⟩
  · rw [heq]
  · rw [alloc_eq hp htake]

theorem Turns.settled (h : Turns s s' id p p') {w : Nat} (hfades : p.shape.Fades p'.shape (· = pos))
    (hmarks : ∀ b, s.Marked b → s'.Marked b) (hnew : s'.Marked (id, pos))
    (hw : ∀ t, GcInc.target s.shapes false w = some t → s.Marked t ∨ t = (id, pos)) :
    s'.Settled w := by
  intro t ht
  rcases h.target hfades ht with hold | ⟨hid, hpos⟩
  · rcases hw t hold with hmarked | rfl
    · exact hmarks t hmarked
    · exact hnew
  · rw [show t = (id, pos) from Prod.ext hid hpos]
    exact hnew

theorem word_cleared (hp' : s'.pages[id]? = some p') (hmem : s'.mem = s.clearedMem id q pos size zero)
    (hshape : p'.shape = q.shape) (bid i : Nat) :
    s'.word (id, bid) i =
      if q.page.blockSize * pos / 8 ≤ q.page.blockSize * bid / 8 + i ∧
          q.page.blockSize * bid / 8 + i < q.page.blockSize * pos / 8 + q.shape.words pos then
        leftWord q.shape.hasPtr zero size (q.page.blockSize * bid / 8 + i - q.page.blockSize * pos / 8)
          (s.mem id (q.page.blockSize * bid / 8 + i))
      else s.mem id (q.page.blockSize * bid / 8 + i) := by
  have hblock : p'.page.blockSize = q.page.blockSize := congrArg Shape.blockSize hshape
  unfold word
  simp only [hp', hmem, clearedMem, Function.update_self, hblock]

theorem word_of_page (hp : s.pages[id]? = some p) {bid i : Nat} :
    s.word (id, bid) i = s.mem id (p.page.blockSize * bid / 8 + i) := by
  unfold word
  simp only [hp]

/-- An allocation on the page `id` clears words of the blocks at `pos`. -/
theorem Cycle.cleared {fresh : Nat → Prop} (h : s.Cycle) (hframe : s.Frame s') (hturn : Turns s s' id p p')
    (hstep : PageStep s.epoch p p') (hmem : s'.mem = s.clearedMem id q pos size zero)
    (hshape : p'.shape = q.shape) (hfades : p.shape.Fades q.shape fresh)
    (hfresh : ∀ bid, fresh bid → s'.Marked (id, bid))
    (hmarked : ∀ bid, s'.Marked (id, bid) → s.Marked (id, bid) ∨ bid = pos)
    (hclean : ∀ bid i, s'.Marked (id, bid) → q.shape.hasPtr = true → i < q.shape.words bid →
      q.page.blockSize * pos / 8 ≤ q.page.blockSize * bid / 8 + i →
      q.page.blockSize * bid / 8 + i < q.page.blockSize * pos / 8 + q.shape.words pos →
      s'.Settled (leftWord true zero size (q.page.blockSize * bid / 8 + i - q.page.blockSize * pos / 8)
        (s.mem id (q.page.blockSize * bid / 8 + i)))) : s'.Cycle := by
  rw [← hshape] at hfades
  have hold : ∀ b, s.Marked b → s'.Marked b := fun b hb => (hstep.marked hturn hframe.epoch hb).1
  refine h.turn hframe hturn hstep (h.traced.change hold ?_ (fun b i => hframe.pending) ?_)
  · intro b i _ _ _ t ht
    rcases hturn.target hfades ht with hsame | ⟨hid, hbid⟩
    · exact .inl hsame
    · obtain ⟨_, bid⟩ := t
      subst hid
      exact .inr (hfresh bid hbid)
  · intro b i hb hptr hi
    obtain ⟨id', bid⟩ := b
    by_cases hid : id' = id
    · subst hid
      have hwords : s'.blockWords (id', bid) = q.shape.words bid := by
        unfold blockWords
        rw [hturn.new, ← hshape]
      obtain ⟨r, hr, hhas⟩ := hptr
      rw [hturn.new] at hr
      cases hr
      have hword := word_cleared hturn.new hmem hshape bid i
      have hq : q.shape.hasPtr = true := hshape ▸ hhas
      rw [hq] at hword
      split at hword
      · rename_i hrange
        left
        rw [hword]
        exact hclean bid i hb hq (hwords ▸ hi) hrange.1 hrange.2
      · rename_i hrange
        right
        rcases hmarked bid hb with hbold | rfl
        · refine ⟨hbold, ⟨p, hturn.old, ?_⟩, ?_, ?_⟩
          · exact (congrArg Shape.hasPtr hfades.same).symm.trans hhas
          · rw [← (hstep.marked hturn hframe.epoch hbold).2]
            exact hi
          · have hblock := congrArg Shape.blockSize hfades.same
            rw [hshape] at hblock
            rw [hword, word_of_page hturn.old]
            exact congrArg (fun n => s.mem id' (n * bid / 8 + i)) hblock
        · rw [hwords] at hi
          exact absurd ⟨Nat.le_add_right _ _, Nat.add_lt_add_left hi _⟩ hrange
    · right
      have hsame : s'.mem id' = s.mem id' := by
        rw [hmem, clearedMem, Function.update_of_ne hid]
      obtain ⟨hmark, hhas, hwords, hword⟩ := hturn.block (b := (id', bid)) hframe.epoch hsame hid
      exact ⟨hmark.mp hb, hhas.mp hptr, hwords ▸ hi, hword i⟩

theorem Cycle.alloc (h : s.Cycle) (hactive : s.active = true)
    (hclean : ∀ p page run, s.pages[id]? = some p → p.page.takeBlock size = some (page, run) →
      s.LeavesClean id { p with page } run.pos size zero) :
    (s.alloc id size zero).Cycle := by
  rcases alloc_cases s id size zero with heq | ⟨p, page, run, hp, htake⟩
  · rw [heq]
    exact h
  · have hok := h.heap.ok id p hp
    obtain ⟨q, hq, hf, ht⟩ := GcPage.takeBlock_spec hok.page htake
    have htaken := taken_of_takes hok hq hf ht
    obtain ⟨hstep, hshape, hepoch, hself, hmarks⟩ :=
      pageStep_alloc (e := s.epoch) (h.queues.ready id p hp) htaken
    have hleft := hclean p page run hp htake
    have heq : s.alloc id size zero = _ := alloc_eq hp htake
    rw [if_pos hactive] at heq
    generalize (GcInc.preparePage s.epoch { p with page }).mark run.pos = p' at *
    generalize s.alloc id size zero = s' at *
    have hturn : Turns s s' id p p' := ⟨hp, by rw [heq]⟩
    have hframe : s.Frame s' := by
      rw [heq]
      exact ⟨rfl, rfl, rfl, rfl, rfl, rfl, rfl, rfl, rfl, rfl, rfl⟩
    have hmem : s'.mem = s.clearedMem id { p with page } run.pos size zero := by
      rw [heq]
    have hnew : s'.Marked (id, run.pos) :=
      ⟨p', hturn.new, hepoch.trans hframe.epoch.symm, hself⟩
    refine h.cleared hframe hturn hstep hmem hshape htaken.fades (fun bid hbid => hbid ▸ hnew) ?_ ?_
    · rintro bid ⟨r, hr, -, hmarked⟩
      rw [hturn.new] at hr
      cases hr
      exact (hmarks bid hmarked).imp_left fun hold => ⟨p, hp, hold.1, hold.2⟩
    · intro bid i _ hhas _ hlo hhi
      refine hturn.settled (hshape ▸ htaken.fades) (fun b hb => (hstep.marked hturn hframe.epoch hb).1) hnew
        fun t ht => hleft hhas _ (Nat.sub_lt_left_of_lt_add hlo hhi) t ?_
      rw [Nat.add_sub_of_le hlo]
      exact ht

theorem reserve_eq {page : GcPage} (hp : s.pages[id]? = some p) (htake : p.page.takeBuffer = some (page, run)) :
    s.reserve id size zero = { s with
      pages := s.pages.set id { p with page }
      mem := s.clearedMem id { p with page } run.pos size zero } := by
  unfold reserve
  simp only [hp, Option.bind_some, htake]
  rw [taken_eq hp]

theorem reserve_cases (s : GcInc) (id size : Nat) (zero : Bool) : s.reserve id size zero = s ∨
    ∃ p page run, s.pages[id]? = some p ∧ p.page.takeBuffer = some (page, run) := by
  cases htake : (s.pages[id]?).bind fun p => p.page.takeBuffer with
  | none =>
    left
    unfold reserve
    rw [htake]
  | some taken =>
    obtain ⟨p, hp, htake⟩ := Option.bind_eq_some_iff.mp htake
    exact .inr ⟨p, taken.1, taken.2, hp, htake⟩

theorem active_reserve (s : GcInc) (id size : Nat) (zero : Bool) :
    (s.reserve id size zero).active = s.active := by
  rcases reserve_cases s id size zero with heq | ⟨p, page, run, hp, htake⟩
  · rw [heq]
  · rw [reserve_eq hp htake]

theorem block_eq_of_word {k bid i : Nat} (hi : i < k) (hlo : k * pos ≤ k * bid + i)
    (hhi : k * bid + i < k * pos + k) : bid = pos := by
  have hk : 0 < k := by omega
  have hbid : (k * bid + i) / k = bid := by
    rw [Nat.mul_add_div hk, Nat.div_eq_of_lt hi, Nat.add_zero]
  have hpos : (k * bid + i) / k = pos := by
    refine Nat.div_eq_of_lt_le ?_ ?_
    · rw [Nat.mul_comm pos k]
      exact hlo
    · rw [Nat.mul_comm (pos + 1) k, Nat.mul_add, Nat.mul_one]
      exact hhi
  exact hbid.symm.trans hpos

theorem Cycle.reserve (h : s.Cycle)
    (hclean : ∀ p page run, s.pages[id]? = some p → p.page.takeBuffer = some (page, run) →
      s.Marked (id, run.pos) → s.LeavesClean id { p with page } run.pos size zero) :
    (s.reserve id size zero).Cycle := by
  rcases reserve_cases s id size zero with heq | ⟨p, page, run, hp, htake⟩
  · rw [heq]
    exact h
  · have hok := h.heap.ok id p hp
    obtain ⟨q, hq, hf, ht, hfixed, hbmp⟩ := GcPage.takeBuffer_spec hok.page htake
    have htaken := taken_of_takes hok hq hf ht
    have hleft := hclean p page run hp htake
    have hnone : p.page.sizes = none := hf.none.mp hfixed
    have hnone' : page.sizes = none := ht.none.mpr hfixed
    have hfades : p.shape.Fades (IncPage.shape { p with page }) fun _ => False := by
      refine ⟨htaken.fades.same, htaken.fades.none, fun l l' hl => ?_⟩
      rw [IncPage.shape, hnone] at hl
      cases hl
    have hbits : page.bmp = p.page.bmp := by
      rw [hbmp, hf.same]
    have hsame : ∀ bid, page.marked bid = p.page.marked bid := by
      intro bid
      rw [GcPage.marked, GcPage.marked, hbits]
    have hblock : page.blockSize = p.page.blockSize := congrArg Shape.blockSize htaken.fades.same
    have hwords : ∀ bid, (IncPage.shape { p with page }).words bid = p.page.blockSize / 8 := by
      intro bid
      unfold IncPage.shape Shape.words
      simp only [hnone', Nat.mul_one, hblock]
    have hwords' : ∀ bid, p.shape.words bid = p.page.blockSize / 8 := by
      intro bid
      unfold IncPage.shape Shape.words
      simp only [hnone, Nat.mul_one]
    have hstep : PageStep s.epoch p { p with page } := by
      refine ⟨htaken.ok, .inl rfl, fun hpe => ?_, rfl, fun hpe bid hbid => ⟨hpe, hbid⟩,
        fun hpe => ⟨hpe, fun bid hbid => ⟨(hsame bid).trans hbid, ?_⟩⟩⟩
      · have hr := h.queues.ready id p hp hpe
        refine ⟨hbits ▸ hr.bits, htaken.settled, fun bid hbid => ?_⟩
        exact ((htaken.ready hr.settled).2.2.2 bid (hr.starts bid ((hsame bid).symm.trans hbid))).1
      · rw [hwords, hwords']
    have heq : s.reserve id size zero = _ := reserve_eq hp htake
    generalize s.reserve id size zero = s' at *
    have hturn : Turns s s' id p { p with page } := ⟨hp, by rw [heq]⟩
    have hframe : s.Frame s' := by
      rw [heq]
      exact ⟨rfl, rfl, rfl, rfl, rfl, rfl, rfl, rfl, rfl, rfl, rfl⟩
    have hmem : s'.mem = s.clearedMem id { p with page } run.pos size zero := by
      rw [heq]
    have hold : ∀ bid, s'.Marked (id, bid) → s.Marked (id, bid) := by
      rintro bid ⟨r, hr, hre, hmarked⟩
      rw [hturn.new] at hr
      cases hr
      exact ⟨p, hp, hre.trans hframe.epoch, (hsame bid).symm.trans hmarked⟩
    refine h.cleared hframe hturn hstep hmem rfl hfades (fun _ hfalse => hfalse.elim)
      (fun bid hb => .inl (hold bid hb)) fun bid i hb hhas hi hlo hhi => ?_
    -- a word of the first block of the run, which is marked
    obtain ⟨k, hk⟩ := hok.align
    have hpos : bid = run.pos := by
      have hlo' := hlo
      have hhi' := hhi
      simp only [hblock, hwords] at hi hlo' hhi'
      rw [hk] at hi hlo' hhi'
      simp only [Nat.mul_assoc, Nat.mul_div_cancel_left _ (show 0 < 8 by decide)] at hi hlo' hhi'
      exact block_eq_of_word hi hlo' hhi'
    subst hpos
    intro t ht
    have hclean' := hleft (hold _ hb) hhas _ (Nat.sub_lt_left_of_lt_add hlo hhi) t
    rw [Nat.add_sub_of_le hlo] at hclean'
    rcases hclean' ((hturn.target hfades ht).resolve_right fun hfalse => hfalse.2) with hmark | rfl
    · exact (hstep.marked hturn hframe.epoch hmark).1
    · exact hb

end GcInc

end HashLink.Gc
