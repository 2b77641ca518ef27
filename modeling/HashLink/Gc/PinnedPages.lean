import HashLink.Gc.LiveInstances

/-! What a collection and an allocation do to the blocks of a page that must stay. A block stays when
it is allocated and, if the page waits for a flush, marked. -/

namespace HashLink.Gc

variable {run : Run}

namespace GcPage

theorem takeBlocks_apart {q page : GcPage} {n : Nat} (hok : q.Ok) (hn : 0 < n)
    (h : q.takeBlocks n = some (page, run)) :
    ∀ b ∈ q.blocks, b ∈ page.blocks ∧ b.run.Apart run := by
  unfold takeBlocks at h
  by_cases hlarge : q.pid.part = gcLargePart
  · rw [if_pos hlarge] at h
    split at h
    · rename_i hnone
      intro b hb
      rw [hnone] at hb
      cases hb
    · cases h
  · rw [if_neg hlarge] at h
    have hq : q.Small := hok.resolve_right fun hq => hlarge hq.part
    intro b hb
    cases hsizes : q.sizes with
    | none =>
      rw [hsizes] at h
      obtain ⟨⟨p', run'⟩, htake, heq⟩ := Option.map_eq_some_iff.mp h
      cases heq
      have htook := (hq.takeFixed hsizes hn htake).1
      refine ⟨?_, htook.runApart hq b hb⟩
      rw [handOut, htook.same]
      exact List.mem_append_left _ hb
    | some l =>
      rw [hsizes] at h
      obtain ⟨⟨p', run'⟩, htake, heq⟩ := Option.bind_eq_some_iff.mp h
      have htook := (hq.takeVar htake).1
      obtain ⟨page', hpage', heq⟩ := Option.map_eq_some_iff.mp heq
      cases heq
      refine ⟨?_, htook.runApart hq b hb⟩
      unfold recordVar at hpage'
      have hl : p'.sizes = some l := by
        rw [htook.same]
        exact hsizes
      rw [hl] at hpage'
      simp only at hpage'
      split at hpage'
      · cases hpage'
        refine List.mem_append_left _ ?_
        rw [htook.same]
        exact hb
      · cases hpage'

theorem takeBlock_apart {p page : GcPage} {size : Nat} (hok : p.Ok) (h : p.takeBlock size = some (page, run)) :
    ∃ q, p.flushed = .ok q ∧ ∀ b ∈ q.blocks, b ∈ page.blocks ∧ b.run.Apart run := by
  obtain ⟨q, hq, hok', -⟩ := hok.flushed
  refine ⟨q, hq, ?_⟩
  unfold takeBlock at h
  rw [hq] at h
  cases hpart : Allocator.partOf size p.pid.kind with
  | none => rw [hpart] at h; cases h
  | some choice =>
    rw [hpart] at h
    simp only at h
    split at h
    · exact takeBlocks_apart hok' (partOf_count hpart).1 h
    · cases h

theorem takeBuffer_apart {p page : GcPage} (hok : p.Ok) (h : p.takeBuffer = some (page, run)) :
    ∃ q, p.flushed = .ok q ∧ ∀ b ∈ q.blocks, b ∈ page.blocks ∧ b.run.Apart run := by
  obtain ⟨q, hq, hok', -⟩ := hok.flushed
  refine ⟨q, hq, ?_⟩
  unfold takeBuffer at h
  rw [hq] at h
  simp only at h
  split at h
  · rename_i hpart
    obtain ⟨hlow, hhigh⟩ := Allocator.gcSizes_fixed hpart
    exact takeBlocks_apart hok' (Nat.div_pos (Nat.le_trans hhigh (by decide)) (by omega)) h
  · cases h

end GcPage

namespace IncPage

/-- An allocated block that no flush sweeps. -/
structure Holds (p : IncPage) (bid : Nat) : Prop where
  block : ∃ b ∈ p.page.blocks, b.run.pos = bid
  marked : p.page.needFlush = true → p.page.marked bid = true

/-- The page is where it was, and keeps the blocks that must stay. -/
structure Steady (p p' : IncPage) : Prop where
  base : p'.base = p.base
  size : p'.size = p.size
  blockSize : p'.page.blockSize = p.page.blockSize
  maxBlocks : p'.page.maxBlocks = p.page.maxBlocks
  pid : p'.page.pid = p.page.pid
  holds : ∀ bid, p.Holds bid → p'.Holds bid

variable {p p' : IncPage}

theorem Steady.refl (p : IncPage) : p.Steady p := ⟨rfl, rfl, rfl, rfl, rfl, fun _ h => h⟩

theorem Steady.trans {q : IncPage} (h : p.Steady p') (h' : p'.Steady q) : p.Steady q where
  base := h'.base.trans h.base
  size := h'.size.trans h.size
  blockSize := h'.blockSize.trans h.blockSize
  maxBlocks := h'.maxBlocks.trans h.maxBlocks
  pid := h'.pid.trans h.pid
  holds bid hbid := h'.holds bid (h.holds bid hbid)

theorem Keeps.steady (h : p.Keeps p') : p.Steady p' := by
  have hsame := h.same
  refine ⟨by rw [hsame], by rw [hsame], by rw [hsame], by rw [hsame], by rw [hsame], fun bid hbid => ⟨?_, ?_⟩⟩
  · rw [hsame]
    exact hbid.block
  · intro hneed
    refine h.marks bid (hbid.marked ?_)
    rw [hsame] at hneed
    exact hneed

theorem Holds.flushed {bid : Nat} (h : p.Holds bid) (hok : p.Ok) {q : GcPage}
    (hq : p.page.flushed = .ok q) : ∃ b ∈ q.blocks, b.run.pos = bid := by
  obtain ⟨q', hq', -, hsettles⟩ := hok.page.flushed
  cases hq.symm.trans hq'
  obtain ⟨b, hb, hpos⟩ := h.block
  obtain ⟨b', hb', heq⟩ := hsettles.survive b hb fun hneed => hpos ▸ h.marked hneed
  exact ⟨b', hb', by rw [heq, hpos]⟩

theorem Holds.apart {bid : Nat} (h : p.Holds bid) (hok : p.Ok) {q page : GcPage} (hq : p.page.flushed = .ok q)
    (hapart : ∀ b ∈ q.blocks, b ∈ page.blocks ∧ b.run.Apart run) :
    ∃ b ∈ p.page.blocks, b.run.pos = bid ∧ b.run.Apart run := by
  obtain ⟨q', hq', -, hsettles⟩ := hok.page.flushed
  cases hq.symm.trans hq'
  obtain ⟨b, hb, hpos⟩ := h.block
  obtain ⟨b', hb', heq⟩ := hsettles.survive b hb fun hneed => hpos ▸ h.marked hneed
  exact ⟨b, hb, hpos, heq ▸ (hapart b' hb').2⟩

theorem steady_preparePage (hok : p.Ok) (e : Nat) : p.Steady (GcInc.preparePage e p) := by
  by_cases hepoch : p.epoch = e
  · rw [← hepoch, GcInc.preparePage_self]
    exact .refl p
  · obtain ⟨q, hq, hflushes, heq⟩ := GcInc.preparePage_eq hok hepoch
    rw [heq]
    have hsame := hflushes.same
    refine ⟨rfl, rfl, by rw [hsame], by rw [hsame], by rw [hsame], fun bid hbid => ⟨?_, ?_⟩⟩
    · obtain ⟨b, hb, hpos⟩ := hbid.flushed hok hq
      exact ⟨b, hb, hpos⟩
    · intro hneed
      rw [hsame] at hneed
      cases hneed

theorem steady_taken {page q : GcPage} (hok : p.Ok) (hq : p.page.flushed = .ok q)
    (hflushes : p.page.Flushes q) (htakes : GcPage.Takes q page run)
    (hblocks : ∀ b ∈ q.blocks, b ∈ page.blocks ∧ b.run.Apart run) : p.Steady { p with page } := by
  have hsame := htakes.same
  rw [hflushes.same] at hsame
  refine ⟨rfl, rfl, by rw [hsame], by rw [hsame], by rw [hsame], fun bid hbid => ⟨?_, ?_⟩⟩
  · obtain ⟨b, hb, hpos⟩ := hbid.flushed hok hq
    exact ⟨b, (hblocks b hb).1, hpos⟩
  · intro hneed
    rw [hsame] at hneed
    cases hneed

end IncPage

namespace GcInc

variable {s s' : GcInc}

structure Steady (s s' : GcInc) : Prop where
  length : s'.pages.length = s.pages.length
  page : ∀ (id : Nat) (p : IncPage), s.pages[id]? = some p → ∃ p', s'.pages[id]? = some p' ∧ p.Steady p'

theorem Steady.refl (s : GcInc) : s.Steady s := ⟨rfl, fun _ p hp => ⟨p, hp, .refl p⟩⟩

theorem Steady.trans {t : GcInc} (h : s.Steady s') (h' : s'.Steady t) : s.Steady t := by
  refine ⟨h'.length.trans h.length, fun id p hp => ?_⟩
  obtain ⟨p', hp', hsteady⟩ := h.page id p hp
  obtain ⟨q, hq, hsteady'⟩ := h'.page id p' hp'
  exact ⟨q, hq, hsteady.trans hsteady'⟩

theorem Steady.of_pages {t : GcInc} (h : t.Steady s') (hpages : t.pages = s.pages) : s.Steady s' :=
  ⟨hpages ▸ h.length, hpages ▸ h.page⟩

theorem Traces.steady (h : s.Traces s') : s.Steady s' := by
  refine ⟨h.length, fun id p hp => ?_⟩
  obtain ⟨p', hp', hkeeps⟩ := h.page_of hp
  exact ⟨p', hp', hkeeps.steady⟩

theorem Steady.of_turns {id : Nat} {p p' : IncPage} (h : Turns s s' id p p') (hp : p.Steady p') :
    s.Steady s' := by
  refine ⟨by rw [h.pages, List.length_set], fun id' q hq => ?_⟩
  by_cases hid : id' = id
  · subst hid
    cases h.old.symm.trans hq
    exact ⟨p', h.new, hp⟩
  · exact ⟨q, (h.other hid).trans hq, .refl q⟩

theorem steady_prepareSlice (fuel : Nat) (hok : ∀ (id : Nat) (p : IncPage), s.pages[id]? = some p → p.Ok) :
    s.Steady (prepareSlice fuel s).1 := by
  refine (prepareSlice_keeps (P := fun r => s.Steady r ∧
    ∀ (id : Nat) (p : IncPage), r.pages[id]? = some p → p.Ok) ?_ ?_ fuel ⟨.refl s, hok⟩).1
  · rintro r id ⟨hsteady, hok⟩
    refine ⟨hsteady.trans ?_, ok_preparePage hok id⟩
    cases hp : r.pages[id]? with
    | none =>
      rw [modifyPage_same fun p hp' => (nomatch hp.symm.trans hp')]
      exact .refl r
    | some p => exact .of_turns ⟨hp, modifyPage_eq hp _⟩ (IncPage.steady_preparePage (hok id p hp) _)
  · rintro r _ _ ⟨hsteady, hok⟩
    exact ⟨⟨hsteady.length, hsteady.page⟩, hok⟩

theorem steady_beginCycle (s : GcInc) : s.Steady s.beginCycle := by
  refine ⟨List.length_map _, fun id p hp => ⟨p.setDirty false, ?_, (p.keeps_setDirty false).steady⟩⟩
  show (s.pages.map fun p => p.setDirty false)[id]? = _
  rw [List.getElem?_map, hp]
  rfl

variable {b : BlockRef}

theorem Traces.bit (h : s.Traces s') (hb : s.bit b = true) : s'.bit b = true := by
  unfold GcInc.bit at hb ⊢
  cases hp : s.pages[b.1]? with
  | none => rw [hp] at hb; cases hb
  | some p =>
    obtain ⟨p', hp', hkeeps⟩ := h.page_of hp
    rw [hp] at hb
    rw [hp']
    exact hkeeps.marks _ hb

def AllBits (s : GcInc) : Prop :=
  ∀ (id : Nat) (p : IncPage), s.pages[id]? = some p → p.Ok ∧ p.page.bmp.isSome = true

theorem AllBits.traces (h : s.AllBits) (ht : s.Traces s') : s'.AllBits := by
  intro id p' hp'
  obtain ⟨p, hp, hkeeps⟩ := ht.page hp'
  obtain ⟨hok, hbits⟩ := h id p hp
  refine ⟨hkeeps.ok hok, ?_⟩
  rw [← Option.isSome_map (f := List.length), hkeeps.bits, Option.isSome_map]
  exact hbits

theorem AllBits.bit_setMark (h : s.AllBits) {interior : Bool} {w : Nat}
    (hb : target s.shapes interior w = some b) : (s.setMark b).bit b = true := by
  obtain ⟨shape, -, hshape, hblock, -⟩ := target_eq_some hb
  rw [getElem?_shapes] at hshape
  obtain ⟨p, hp, rfl⟩ := Option.map_eq_some_iff.mp hshape
  obtain ⟨hok, hbits⟩ := h b.1 p hp
  unfold GcInc.bit setMark
  rw [getElem?_modifyPage, if_pos rfl, hp]
  exact GcPage.marked_set_self hok.page hbits hblock.bound

theorem AllBits.bit_visit (h : s.AllBits) {w : Nat} (hb : target s.shapes true w = some b) :
    (s.visit true w).bit b = true := by
  unfold visit
  rw [hb]
  simp only
  split
  · rename_i hbit
    exact hbit
  · exact (traces_enqueue _ b).bit (h.bit_setMark hb)

theorem AllBits.bit_visits (words : List Nat) (h : s.AllBits) {w : Nat} (hw : w ∈ words)
    (hb : target s.shapes true w = some b) :
    (words.foldl (fun s ptr => s.visit true ptr) s).bit b = true := by
  induction words generalizing s with
  | nil => cases hw
  | cons w' words ih =>
    rcases List.mem_cons.mp hw with rfl | hw
    · exact (traces_visits words _).bit (h.bit_visit hb)
    · have ht := traces_visit s true w'
      exact ih (h.traces ht) hw (ht.shapes ▸ hb)

def RootsMarked (s : GcInc) : Prop :=
  ∀ w ∈ s.roots, ∀ b, target s.shapes true w = some b → s.bit b = true

theorem RootsMarked.traces (h : s.RootsMarked) (ht : s.Traces s') : s'.RootsMarked := by
  intro w hw b hb
  rw [ht.roots] at hw
  rw [ht.shapes] at hb
  exact ht.bit (h w hw b hb)

theorem rootsMarked_traceSlice (d : Deadlines) (h : s.AllBits) : (traceSlice d s).1.RootsMarked := by
  have hroots : s.visitRoots.RootsMarked := by
    have ht := traces_visitRoots s
    intro w hw b hb
    rw [ht.roots] at hw
    rw [ht.shapes] at hb
    exact h.bit_visits s.roots hw hb
  have hrescan := hroots.traces (traces_rescanDirty d.rescan s.visitRoots)
  unfold traceSlice
  generalize rescanDirty d.rescan s.visitRoots = r at hrescan ⊢
  obtain ⟨t, done⟩ := r
  cases done with
  | false => exact hrescan
  | true => exact hrescan.traces (traces_drain d.drain t)

def SliceSteady (s : GcInc) : Slice → Prop
  | .paused s' | .failed s' => s.Steady s'
  | .published s' =>
    ∃ t, s.Steady t ∧ t.roots = s.roots ∧ t.AllBits ∧ t.RootsMarked ∧ s' = t.publish
  | .fatal => True

theorem Sound.allBits (h : s.Sound) (hactive : s.active = true) (hprepared : s.preparing = false) :
    s.AllBits := by
  intro id p hp
  refine ⟨h.heap.ok id p hp, (h.bits hactive id p hp ?_).1⟩
  refine (h.prepared hactive id p hp).resolve_right fun hwait => ?_
  cases hprepared.symm.trans hwait.1

theorem sliceRule_steady (env : Env) (s : GcInc) :
    SliceRule env (fun r => s.Steady r ∧ r.roots = s.roots ∧ r.AllBits) (SliceSteady s) where
  trace d r h := by
    have ht := traces_traceSlice d r
    exact ⟨h.1.trans ht.steady, ht.roots.trans h.2.1, h.2.2.traces ht⟩
  capture r r' h hr' := by
    have ht := traces_captureSlice env.capture hr'
    exact ⟨h.1.trans ht.steady, ht.roots.trans h.2.1, h.2.2.traces ht⟩
  paused r h := h.1
  failed r h := h.1
  fatal := trivial
  published d r t h _ hrt := by
    have ht := traces_traceSlice d r
    have hroots := rootsMarked_traceSlice d h.2.2
    rw [hrt] at ht hroots
    exact ⟨t, h.1.trans ht.steady, ht.roots.trans h.2.1, h.2.2.traces ht, hroots, rfl⟩

theorem slice_steady (env : Env) (h : s.Sound) : SliceSteady s (s.slice env) := by
  obtain ⟨hsteady, hstart, hactive, hroots⟩ : s.Steady (if !s.active then s.beginCycle else s) ∧
      (if !s.active then s.beginCycle else s).Sound ∧
      (if !s.active then s.beginCycle else s).active = true ∧
      (if !s.active then s.beginCycle else s).roots = s.roots := by
    cases hactive : s.active with
    | false => exact ⟨steady_beginCycle s, h.beginCycle hactive, rfl, rfl⟩
    | true => exact ⟨.refl s, h, hactive, rfl⟩
  generalize ht : (if !s.active then s.beginCycle else s) = t at hsteady hstart hactive hroots
  refine (sliceRule_steady env s).slice ht hsteady (fun _ => ?_) fun hprepared =>
    ⟨hsteady, hroots, hstart.allBits hactive hprepared⟩
  have hprepare := hsteady.trans (steady_prepareSlice env.prepare hstart.heap.ok)
  exact ⟨hprepare.length, hprepare.page⟩

end GcInc

end HashLink.Gc
