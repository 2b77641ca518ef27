import HashLink.Gc.PinnedPages

/-! A report of live instances is right when no stale word names a free block of a fixed page that
still looks like an instance. In a run where that holds of every report, a pinned block is never
handed out: each collection marks it, so no flush makes it free and no sweep gives its page back. -/

namespace HashLink.Gc

open GcInc

variable {b : BlockRef} {fuel : Nat}
variable {w : Nat} {p : IncPage}

namespace GcInc

variable {s : GcInc} {m : Marking}

theorem traces_markWord (interior : Bool) (m : Marking) (ptr : Nat) :
    m.heap.Traces (markWord interior m ptr).heap := by
  unfold markWord
  split
  · exact .refl _
  · split
    · exact .refl _
    · exact traces_setMark _ _

theorem traces_markWords (interior : Bool) (words : List Nat) (m : Marking) :
    m.heap.Traces (words.foldl (markWord interior) m).heap := by
  induction words generalizing m with
  | nil => exact .refl _
  | cons w words ih => exact (traces_markWord interior m w).trans (ih _)

variable {interior : Bool} {words : List Nat} {P : BlockRef → Prop}

theorem bit_markWords (hbits : m.heap.AllBits) (hw : w ∈ words)
    (hb : target m.heap.shapes interior w = some b) :
    (words.foldl (markWord interior) m).heap.bit b = true := by
  induction words generalizing m with
  | nil => cases hw
  | cons w' words ih =>
    rcases List.mem_cons.mp hw with rfl | hw
    · refine (traces_markWords interior words _).bit ?_
      unfold markWord
      rw [hb]
      simp only
      split
      · rename_i hbit
        exact hbit
      · exact hbits.bit_setMark hb
    · have ht := traces_markWord interior m w'
      exact ih (hbits.traces ht) hw (ht.shapes ▸ hb)

variable {precise : List Nat → List Nat}
variable {s' : GcInc}

theorem traces_gcFlushMark (h : gcFlushMark precise fuel m = some s') :
    m.heap.Traces s' := by
  induction fuel generalizing m with
  | zero => cases h
  | succ fuel ih =>
    rw [gcFlushMark] at h
    split at h
    · cases h
      exact .refl _
    · rename_i b rest hstack
      exact (traces_markWords false _ { m with stack := rest }).trans (ih h)

/-- What is marked, or on the stack, has a property. -/
structure Marking.All (P : BlockRef → Prop) (m : Marking) : Prop where
  marked : ∀ b, m.heap.bit b = true → P b
  stack : ∀ b ∈ m.stack, P b ∧ m.heap.HasPtr b

theorem bit_of_setMark {t : BlockRef} (h : (s.setMark b).bit t = true) : s.bit t = true ∨ t = b := by
  unfold bit setMark at *
  rw [getElem?_modifyPage] at h
  by_cases hid : b.1 = t.1
  · rw [if_pos hid] at h
    cases hp : s.pages[t.1]? with
    | none => rw [hp] at h; cases h
    | some p =>
      rw [hp] at h
      rcases GcPage.marked_set (show GcPage.marked _ t.2 = true from h) with hold | heq
      · exact .inl hold
      · exact .inr (Prod.ext hid.symm heq)
  · rw [if_neg hid] at h
    exact .inl h

theorem Marking.All.markWord (h : m.All P) (hw : ∀ b, target m.heap.shapes interior w = some b → P b) :
    (markWord interior m w).All P := by
  unfold GcInc.markWord
  split
  · exact h
  · rename_i b hb
    split
    · exact h
    · have ht := traces_setMark m.heap b
      refine ⟨fun t hbit => ?_, fun t hmem => ?_⟩
      · rcases bit_of_setMark hbit with hold | rfl
        · exact h.marked t hold
        · exact hw _ hb
      · rw [ht.hasPtr]
        simp only at hmem
        split at hmem
        · rename_i hptr
          rcases List.mem_cons.mp hmem with rfl | hmem
          · refine ⟨hw _ hb, (hasPtr_iff _ _).mpr ?_⟩
            cases hshape : m.heap.shapes[t.1]? with
            | none => rw [hshape] at hptr; cases hptr
            | some shape =>
              rw [hshape] at hptr
              exact ⟨shape, rfl, hptr⟩
          · exact h.stack t hmem
        · exact h.stack t hmem

theorem Marking.All.markWords (h : m.All P)
    (hwords : ∀ w ∈ words, ∀ b, target m.heap.shapes interior w = some b → P b) :
    (words.foldl (GcInc.markWord interior) m).All P := by
  induction words generalizing m with
  | nil => exact h
  | cons w words ih =>
    refine ih (h.markWord (hwords w List.mem_cons_self)) fun w' hw' b hb => ?_
    rw [(traces_markWord interior m w).shapes] at hb
    exact hwords w' (List.mem_cons_of_mem _ hw') b hb

theorem scanned_traces {s : GcInc} (h : s.Traces s') (b : BlockRef) :
    s'.scanned precise b = s.scanned precise b := by
  have hwords : (List.range (s'.blockWords b)).map (s'.word b) =
      (List.range (s.blockWords b)).map (s.word b) := by
    rw [h.blockWords, funext (h.word b)]
  unfold scanned
  rw [hwords]
  cases hp : s.pages[b.1]? with
  | none =>
    have hrel := h.pages b.1
    rw [hp] at hrel
    cases hp' : s'.pages[b.1]? with
    | none => rfl
    | some p' => rw [hp'] at hrel; cases hrel
  | some p =>
    obtain ⟨p', hp', hkeeps⟩ := h.page_of hp
    rw [hp', hkeeps.same]

theorem Marking.All.flush (h : m.All P)
    (hclosed : ∀ b w t, P b → m.heap.HasPtr b → w ∈ m.heap.scanned precise b →
      target m.heap.shapes false w = some t → P t) (hflush : gcFlushMark precise fuel m = some s') :
    ∀ b, s'.bit b = true → P b := by
  induction fuel generalizing m with
  | zero => cases hflush
  | succ fuel ih =>
    rw [gcFlushMark] at hflush
    split at hflush
    · cases hflush
      exact h.marked
    · rename_i b rest hstack
      obtain ⟨hb, hptr⟩ := h.stack b (hstack ▸ List.mem_cons_self)
      have hrest : Marking.All P { m with stack := rest } :=
        ⟨h.marked, fun t ht => h.stack t (hstack ▸ List.mem_cons_of_mem b ht)⟩
      have ht := traces_markWords false (m.heap.scanned precise b) { m with stack := rest }
      refine ih (hrest.markWords fun w hw t htarget => hclosed b w t hb hptr hw htarget) ?_ hflush
      intro b' w t hb' hptr' hw htarget
      rw [ht.shapes] at htarget
      rw [scanned_traces ht] at hw
      exact hclosed b' w t hb' (ht.hasPtr.mp hptr') hw htarget

/-- Every block that a word of the block names is marked. -/
def Done (precise : List Nat → List Nat) (s : GcInc) (b : BlockRef) : Prop :=
  ∀ w ∈ s.scanned precise b, ∀ t, target s.shapes false w = some t → s.bit t = true

theorem Done.traces {s : GcInc} (h : s.Done precise b) (ht : s.Traces s') :
    s'.Done precise b := by
  intro w hw t htarget
  rw [scanned_traces ht] at hw
  rw [ht.shapes] at htarget
  exact ht.bit (h w hw t htarget)

def Marking.Closed (precise : List Nat → List Nat) (m : Marking) (current : BlockRef → Prop) : Prop :=
  ∀ b, m.heap.bit b = true → m.heap.HasPtr b → b ∈ m.stack ∨ current b ∨ m.heap.Done precise b

theorem Marking.Closed.markWord {current : BlockRef → Prop} (h : m.Closed precise current)
    (interior : Bool) (w : Nat) : (GcInc.markWord interior m w).Closed precise current := by
  have ht := traces_markWord interior m w
  intro b hb hptr
  have hold : m.heap.bit b = true → b ∈ (GcInc.markWord interior m w).stack ∨ current b ∨
      (GcInc.markWord interior m w).heap.Done precise b := by
    intro hbit
    refine (h b hbit (ht.hasPtr.mp hptr)).imp ?_ (Or.imp_right fun hdone => hdone.traces ht)
    intro hmem
    unfold GcInc.markWord
    split
    · exact hmem
    · split
      · exact hmem
      · simp only
        split
        · exact List.mem_cons_of_mem _ hmem
        · exact hmem
  unfold GcInc.markWord at hb
  split at hb
  · exact hold hb
  · rename_i b' hb'
    split at hb
    · exact hold hb
    · rename_i hbit
      rcases bit_of_setMark hb with hbit' | rfl
      · exact hold hbit'
      · left
        obtain ⟨shape, hshape, hhas⟩ := (hasPtr_iff _ _).mp (ht.hasPtr.mp hptr)
        unfold GcInc.markWord
        rw [hb']
        simp only
        rw [if_neg hbit, hshape, Option.any_some, hhas, if_pos rfl]
        exact List.mem_cons_self

theorem Marking.Closed.markWords {current : BlockRef → Prop} (h : m.Closed precise current) :
    (words.foldl (GcInc.markWord interior) m).Closed precise current := by
  induction words generalizing m with
  | nil => exact h
  | cons w words ih => exact ih (h.markWord interior w)

theorem Marking.Closed.flush (hbits : m.heap.AllBits) (h : m.Closed precise fun _ => False)
    (hflush : gcFlushMark precise fuel m = some s') :
    ∀ b, s'.bit b = true → s'.HasPtr b → s'.Done precise b := by
  induction fuel generalizing m with
  | zero => cases hflush
  | succ fuel ih =>
    rw [gcFlushMark] at hflush
    split at hflush
    · rename_i hstack
      cases hflush
      intro b hb hptr
      rcases h b hb hptr with hmem | hfalse | hdone
      · rw [hstack] at hmem
        cases hmem
      · exact hfalse.elim
      · exact hdone
    · rename_i b rest hstack
      have hpop : Marking.Closed precise { m with stack := rest } (· = b) := by
        intro t ht hptr
        rcases h t ht hptr with hmem | hfalse | hdone
        · rw [hstack] at hmem
          exact (List.mem_cons.mp hmem).symm.imp_right .inl
        · exact hfalse.elim
        · exact .inr (.inr hdone)
      have ht := traces_markWords false (m.heap.scanned precise b) { m with stack := rest }
      refine ih (hbits.traces ht) (fun t hbit hptr => ?_) hflush
      rcases hpop.markWords t hbit hptr with hmem | rfl | hdone
      · exact .inl hmem
      · refine .inr (.inr fun w hw u hu => ?_)
        rw [scanned_traces ht] at hw
        rw [ht.shapes] at hu
        exact bit_markWords (m := { m with stack := rest }) hbits hw hu
      · exact .inr (.inr hdone)

section Major

variable {marks : Nat → List Bool}

theorem shapes_major (s : GcInc) : (s.major marks).shapes = s.shapes := by
  ext id : 1
  rw [getElem?_shapes, getElem?_shapes]
  unfold major
  simp only [List.getElem?_mapIdx]
  cases s.pages[id]? <;> rfl

theorem hasPtr_major : (s.major marks).HasPtr b ↔ s.HasPtr b := by
  rw [hasPtr_iff, hasPtr_iff, shapes_major]

theorem scanned_major (b : BlockRef) : (s.major marks).scanned precise b = s.scanned precise b := by
  have hwords : (s.major marks).blockWords b = s.blockWords b := by
    rw [blockWords_eq, blockWords_eq, shapes_major]
  have hword : (s.major marks).word b = s.word b := by
    funext i
    rw [word_eq, word_eq, shapes_major]
    rfl
  unfold scanned
  rw [hwords, hword]
  cases hp : (s.major marks).pages[b.1]? with
  | none =>
    unfold major at hp
    simp only [List.getElem?_mapIdx, Option.map_eq_none_iff] at hp
    rw [hp]
  | some p =>
    obtain ⟨q, hq, rfl⟩ := page_major hp
    rw [hq]

theorem bit_cleared (s : GcInc) (b : BlockRef) : (s.major fun _ => []).bit b = false := by
  unfold bit
  cases hp : (s.major fun _ => []).pages[b.1]? with
  | none => rfl
  | some p =>
    obtain ⟨q, hq, rfl⟩ := page_major hp
    show ((List.range q.page.maxBlocks).map fun bid => List.getD [] bid false).getD b.2 false = false
    rw [List.getD_eq_getElem?_getD, List.getElem?_map]
    cases (List.range q.page.maxBlocks)[b.2]? <;> rfl

theorem allBits_major (h : s.Heap) : (s.major marks).AllBits := by
  intro id p hp
  refine ⟨(major_idle h marks).heap.ok id p hp, ?_⟩
  obtain ⟨q, hq, rfl⟩ := page_major hp
  rfl

end Major

end GcInc

namespace PinnedHeap

variable (precise : List Nat → List Nat)

/-- A block that marking comes to: a root names it, or a word of such a block does. -/
inductive Named (s : PinnedHeap) : BlockRef → Prop where
  | global {w : Nat} {b : BlockRef} (hw : w ∈ s.globals) (hb : target s.heap.shapes false w = some b) :
      Named s b
  | stack {w : Nat} {b : BlockRef} (hw : w ∈ s.pins ++ s.stackWords)
      (hb : target s.heap.shapes true w = some b) : Named s b
  | word {b t : BlockRef} {w : Nat} (hb : Named s b) (hptr : s.heap.HasPtr b)
      (hw : w ∈ s.heap.scanned precise b) (ht : target s.heap.shapes false w = some t) : Named s t

/-- What a full mark leaves, before empty pages are given back. -/
structure MarkedFrom (s : PinnedHeap) (heap : GcInc) : Prop where
  traces : (s.heap.major fun _ => []).Traces heap
  named : ∀ b, heap.bit b = true → Named precise s b
  complete : ∀ b, Named precise s b → heap.bit b = true

variable {precise}

theorem MarkedFrom.pins {s : PinnedHeap} {heap : GcInc} (h : MarkedFrom precise s heap) (hw : w ∈ s.pins)
    (hb : target s.heap.shapes true w = some b) : heap.bit b = true :=
  h.complete b (.stack (List.mem_append_left _ hw) hb)

theorem markedFrom_gcMark {s : PinnedHeap} {keep : Nat → Bool} {heap : GcInc} (h : s.heap.Heap)
    (hmark : gcMark precise fuel keep s = some heap) :
    ∃ marked, MarkedFrom precise s marked ∧ heap = marked.releaseEmpty keep := by
  unfold gcMark at hmark
  obtain ⟨marked, hflush, rfl⟩ := Option.map_eq_some_iff.mp hmark
  refine ⟨marked, ?_, rfl⟩
  have hshapes : (s.heap.major fun _ => []).shapes = s.heap.shapes := shapes_major s.heap
  have hglobals := traces_markWords false s.globals ⟨s.heap.major fun _ => [], []⟩
  have hstack := traces_markWords true (s.pins ++ s.stackWords)
    (s.globals.foldl (markWord false) ⟨s.heap.major fun _ => [], []⟩)
  have htraces := traces_gcFlushMark hflush
  constructor
  case traces => exact (hglobals.trans hstack).trans htraces
  case named =>
    have hstart : Marking.All (Named precise s) ⟨s.heap.major fun _ => [], []⟩ := by
      refine ⟨fun b hb => ?_, fun b hb => (nomatch hb)⟩
      cases (bit_cleared s.heap b).symm.trans hb
    have hmarked := (hstart.markWords fun w hw b hb => .global hw (hshapes ▸ hb)).markWords
      fun w hw b hb => .stack hw (hshapes ▸ hglobals.shapes ▸ hb)
    refine hmarked.flush (fun b w t hb hptr hw ht => ?_) hflush
    have hall := hglobals.trans hstack
    rw [hall.shapes, hshapes] at ht
    rw [hall.hasPtr, hasPtr_major] at hptr
    rw [scanned_traces hall, scanned_major] at hw
    exact .word hb hptr hw ht
  case complete =>
    have hbits : (s.heap.major fun _ => []).AllBits := allBits_major h
    have hclosed : Marking.Closed precise ⟨s.heap.major fun _ => [], []⟩ fun _ => False := by
      intro b hb
      cases (bit_cleared s.heap b).symm.trans hb
    have hdone := hclosed.markWords.markWords.flush ((hbits.traces hglobals).traces hstack) hflush
    have hall := (hglobals.trans hstack).trans htraces
    intro b hb
    induction hb with
    | global hw hb => exact (hstack.trans htraces).bit (bit_markWords hbits hw (hshapes ▸ hb))
    | stack hw hb =>
      refine htraces.bit (bit_markWords (hbits.traces hglobals) hw ?_)
      rw [hglobals.shapes, hshapes]
      exact hb
    | @word b t w _ hptr hw ht ih =>
      have hdone' := hdone b ih (hall.hasPtr.mpr (hasPtr_major.mpr hptr))
      refine hdone' w ?_ t ?_
      · rw [scanned_traces hall, scanned_major]
        exact hw
      · rw [hall.shapes, hshapes]
        exact ht

end PinnedHeap

theorem GcPage.Ok.block {p : GcPage} (h : p.Ok) {b : Block} (hb : b ∈ p.blocks) :
    0 < b.run.count ∧ p.firstBlock ≤ b.run.pos ∧ b.run.stop ≤ p.maxBlocks := by
  rcases h with h | h
  · exact h.blocksIn b hb
  · rw [h.blocks b hb, h.first, h.max]
    exact ⟨Nat.zero_lt_one, Nat.le_refl _, Nat.le_refl _⟩

theorem GcPage.Ok.sized {p : GcPage} (h : p.Ok) {l : List Nat} (hl : p.sizes = some l) :
    Sized p.firstBlock p.maxBlocks p.blocks (fun _ => True) l := by
  rcases h with h | h
  · exact h.sized l hl
  · cases h.sizes.symm.trans hl

theorem IncPage.Holds.lt {bid : Nat} (h : p.Holds bid) (hok : p.Ok) :
    p.page.firstBlock ≤ bid ∧ bid < p.page.maxBlocks := by
  obtain ⟨b, hb, rfl⟩ := h.block
  obtain ⟨hpos, hfirst, hstop⟩ := hok.page.block hb
  unfold Run.stop at hstop
  exact ⟨hfirst, by omega⟩

theorem blockStart_self {sizes : List Nat} {first bid : Nat} (h : sizes.getD bid 0 ≠ 0) :
    Shape.blockStart sizes first bid = some bid := by
  cases bid with
  | zero => rw [Shape.blockStart, if_neg h]
  | succ bid => rw [Shape.blockStart, if_neg h]

theorem IncPage.Holds.blockInterior {bid : Nat} (h : p.Holds bid) (hok : p.Ok) (hsize : 0 < p.page.blockSize) :
    p.shape.blockInterior (p.base + bid * p.page.blockSize) = some bid := by
  obtain ⟨hfirst, hlt⟩ := h.lt hok
  have hstart : (p.base + bid * p.page.blockSize - p.base) / p.page.blockSize = bid := by
    rw [Nat.add_sub_cancel_left, Nat.mul_div_cancel _ hsize]
  unfold Shape.blockInterior
  simp only [IncPage.shape, hstart, if_neg (Nat.not_le_of_lt hlt)]
  cases hsizes : p.page.sizes with
  | none => rfl
  | some l =>
    obtain ⟨b, hb, rfl⟩ := h.block
    have hcount : l.getD b.run.pos 0 = b.run.count := by
      rw [List.getD_eq_getElem?_getD, (hok.page.sized hsizes).start b hb trivial]
      rfl
    have hpos := (hok.page.block hb).1
    have hne : l.getD b.run.pos 0 ≠ 0 := by omega
    simp only [if_neg (Nat.not_lt_of_le hfirst), blockStart_self hne, Nat.sub_self, hcount]
    rw [if_neg (by omega)]

namespace GcInc

variable {s s' : GcInc}

/-- The pages have memory of their own, with room for their blocks. -/
structure Laid (s : GcInc) : Prop where
  room : ∀ (id : Nat) (p : IncPage), s.pages[id]? = some p → p.size ≠ 0 →
    p.base ≠ 0 ∧ 0 < p.page.blockSize ∧ p.page.maxBlocks * p.page.blockSize ≤ p.size
  apart : ∀ (id id' : Nat) (p p' : IncPage), s.pages[id]? = some p → s.pages[id']? = some p' →
    id ≠ id' → p.size ≠ 0 → p'.size ≠ 0 → p.base + p.size ≤ p'.base ∨ p'.base + p'.size ≤ p.base

/-- A block at an address that no collection frees. -/
def HoldsAt (s : GcInc) (b : BlockRef) (addr : Nat) : Prop :=
  ∃ p, s.pages[b.1]? = some p ∧ p.size ≠ 0 ∧ p.Holds b.2 ∧ addr = p.base + b.2 * p.page.blockSize

theorem Steady.page_of (h : s.Steady s') {id : Nat} {p' : IncPage} (hp' : s'.pages[id]? = some p') :
    ∃ p, s.pages[id]? = some p ∧ p.Steady p' := by
  have hlt := (List.getElem?_eq_some_iff.mp hp').1
  rw [h.length] at hlt
  have hp := List.getElem?_eq_getElem hlt
  obtain ⟨q, hq, hsteady⟩ := h.page id _ hp
  cases hp'.symm.trans hq
  exact ⟨_, hp, hsteady⟩

theorem Laid.steady (h : s.Laid) (hs : s.Steady s') : s'.Laid where
  room id p' hp' hsize := by
    obtain ⟨p, hp, hsteady⟩ := hs.page_of hp'
    rw [hsteady.size] at hsize ⊢
    rw [hsteady.base, hsteady.blockSize, hsteady.maxBlocks]
    exact h.room id p hp hsize
  apart id id' p p' hp hp' hne hsize hsize' := by
    obtain ⟨q, hq, hsteady⟩ := hs.page_of hp
    obtain ⟨q', hq', hsteady'⟩ := hs.page_of hp'
    rw [hsteady.size] at hsize ⊢
    rw [hsteady'.size] at hsize' ⊢
    rw [hsteady.base, hsteady'.base]
    exact h.apart id id' q q' hq hq' hne hsize hsize'

theorem HoldsAt.steady {addr : Nat} (h : s.HoldsAt b addr) (hs : s.Steady s') :
    s'.HoldsAt b addr := by
  obtain ⟨p, hp, hsize, hholds, rfl⟩ := h
  obtain ⟨p', hp', hsteady⟩ := hs.page _ p hp
  refine ⟨p', hp', ?_, hsteady.holds _ hholds, ?_⟩
  · rw [hsteady.size]
    exact hsize
  · rw [hsteady.base, hsteady.blockSize]

theorem Laid.getPage (h : s.Laid) {id addr : Nat} (hp : s.pages[id]? = some p) (hsize : p.size ≠ 0)
    (hlo : p.base ≤ addr) (hhi : addr < p.base + p.size) :
    getPage s.shapes addr = some id := by
  have hin : p.shape.inPage addr = true := by
    simp [Shape.inPage, IncPage.shape, hlo, hhi]
  have hbase := (h.room id p hp hsize).1
  have hshape : s.shapes[id]? = some p.shape := by rw [getElem?_shapes, hp]; rfl
  unfold GcInc.getPage
  rw [if_neg (by omega)]
  cases hfind : s.shapes.findIdx? (fun p => p.inPage addr) with
  | none =>
    rw [List.findIdx?_eq_none_iff] at hfind
    cases (hfind p.shape (List.mem_of_getElem? hshape)).symm.trans hin
  | some id' =>
    obtain ⟨hlt, hin', -⟩ := List.findIdx?_eq_some_iff_getElem.mp hfind
    have hshape' := List.getElem?_eq_getElem hlt
    rw [getElem?_shapes] at hshape'
    obtain ⟨p', hp', heq⟩ := Option.map_eq_some_iff.mp hshape'
    rw [← heq] at hin'
    obtain ⟨hlo', hhi'⟩ := Bool.and_eq_true_iff.mp hin'
    have hlo' : p'.base ≤ addr := of_decide_eq_true hlo'
    have hhi' : addr < p'.base + p'.size := of_decide_eq_true hhi'
    by_contra hne
    have hne' : id ≠ id' := fun h => hne (h ▸ rfl)
    have hsize' : p'.size ≠ 0 := by omega
    have := h.apart id id' p p' hp hp' hne' hsize hsize'
    omega

theorem Laid.target (h : s.Laid) (hok : ∀ (id : Nat) (p : IncPage), s.pages[id]? = some p → p.Ok) {addr : Nat}
    (hb : s.HoldsAt b addr) : target s.shapes true addr = some b := by
  obtain ⟨p, hp, hsize, hholds, rfl⟩ := hb
  obtain ⟨hbase, hblock, hroom⟩ := h.room b.1 p hp hsize
  have hok := hok b.1 p hp
  have hlt := (hholds.lt hok).2
  have hhi : b.2 * p.page.blockSize < p.page.maxBlocks * p.page.blockSize :=
    Nat.mul_lt_mul_of_pos_right hlt hblock
  have hpage := h.getPage hp hsize (Nat.le_add_right p.base (b.2 * p.page.blockSize)) (by omega)
  have hshape : s.shapes[b.1]? = some p.shape := by rw [getElem?_shapes, hp]; rfl
  unfold GcInc.target
  rw [hpage, Option.bind_some, hshape, Option.bind_some, if_pos rfl, hholds.blockInterior hok hblock]
  rfl

end GcInc

end HashLink.Gc
