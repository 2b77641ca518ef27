import HashLink.Gc.AllocatorSafety
import HashLink.Gc.Incremental

/-! The invariant of a cycle of the incremental marker. A marked block names only marked blocks,
unless it waits to be scanned: on the stack, under the cursor, or on a page that is dirty or scanned
again. -/

namespace HashLink.Gc

/-- A page as the allocator keeps it, whose blocks are whole words. -/
structure IncPage.Ok (p : IncPage) : Prop where
  page : p.page.Ok
  align : 8 ∣ p.page.blockSize
  first : p.page.sizes = none → p.page.firstBlock = 0

def GcPage.Starts (p : GcPage) (bid : Nat) : Prop :=
  p.firstBlock ≤ bid ∧ ∀ l, p.sizes = some l → l.getD bid 0 ≠ 0

/-- A page that was prepared in the cycle. -/
structure IncPage.Ready (p : IncPage) : Prop where
  bits : p.page.bmp.isSome = true
  settled : p.page.needFlush = false
  starts : ∀ bid, p.page.marked bid = true → p.page.Starts bid

/-- What the marker changes of a page: it adds marks, and keeps its own flags. -/
structure IncPage.Keeps (p p' : IncPage) : Prop where
  same : p' = { p with
    page := { p.page with bmp := p'.page.bmp }
    queued := p'.queued
    dirty := p'.dirty }
  bits : p'.page.bmp.map List.length = p.page.bmp.map List.length
  marks : ∀ bid, p.page.marked bid = true → p'.page.marked bid = true

namespace IncPage.Keeps

variable {p p' : IncPage}

theorem refl (p : IncPage) : p.Keeps p := ⟨rfl, rfl, fun _ h => h⟩

theorem trans {q : IncPage} (h : p.Keeps p') (h' : p'.Keeps q) : p.Keeps q := by
  refine ⟨?_, h'.bits.trans h.bits, fun bid hbid => h'.marks bid (h.marks bid hbid)⟩
  have hsame := h'.same
  rw [h.same] at hsame
  exact hsame

variable (h : p.Keeps p')

include h

theorem shape : p'.shape = p.shape := by
  rw [h.same]
  rfl

theorem epoch : p'.epoch = p.epoch := by
  rw [h.same]

theorem ok (hok : p.Ok) : p'.Ok := by
  have hlength : ∀ l, p'.page.bmp = some l → l.length = p.page.maxBlocks := by
    intro l hl
    have hbits := h.bits
    rw [hl] at hbits
    obtain ⟨l', hl', hlen⟩ := Option.map_eq_some_iff.mp hbits.symm
    rw [← hlen]
    exact (Allocator.bits_of_ok hok.page).1 l' hl'
  have hflush : p.page.needFlush = true → p'.page.bmp.isSome = true := by
    intro hneed
    have hsome := (Allocator.bits_of_ok hok.page).2 hneed
    rw [← Option.isSome_map (f := List.length), ← h.bits, Option.isSome_map] at hsome
    exact hsome
  rw [h.same]
  exact ⟨Allocator.ok_setBits hok.page hlength hflush, hok.align, hok.first⟩

theorem ready (hready : p.Ready) (hstarts : ∀ bid, p'.page.marked bid = true →
    p.page.marked bid = true ∨ p.page.Starts bid) : p'.Ready := by
  have hbits : p'.page.bmp.isSome = true := by
    rw [← Option.isSome_map (f := List.length), h.bits, Option.isSome_map]
    exact hready.bits
  have hstart : ∀ bid, p'.page.marked bid = true → p.page.Starts bid := by
    intro bid hbid
    rcases hstarts bid hbid with hold | hnew
    · exact hready.starts bid hold
    · exact hnew
  rw [h.same] at hbits hstart ⊢
  exact ⟨hbits, hready.settled, hstart⟩

end IncPage.Keeps

namespace GcInc

theorem getElem?_modifyPage (s : GcInc) (id id' : Nat) (f : IncPage → IncPage) :
    (s.modifyPage id f).pages[id']? = if id = id' then (s.pages[id']?).map f else s.pages[id']? := by
  unfold modifyPage
  rw [List.getElem?_modify]
  split
  · rfl
  · exact id_map' _

theorem page_modifyPage {s : GcInc} {id id' : Nat} {f : IncPage → IncPage} {q' : IncPage}
    (h : (s.modifyPage id f).pages[id']? = some q') :
    ∃ q, s.pages[id']? = some q ∧ (id' ≠ id ∧ q' = q ∨ id' = id ∧ q' = f q) := by
  rw [getElem?_modifyPage] at h
  split at h
  · rename_i hid
    obtain ⟨q, hq, rfl⟩ := Option.map_eq_some_iff.mp h
    exact ⟨q, hq, .inr ⟨hid.symm, rfl⟩⟩
  · rename_i hid
    exact ⟨q', h, .inl ⟨Ne.symm hid, rfl⟩⟩

theorem getElem?_shapes (s : GcInc) (id : Nat) :
    s.shapes[id]? = (s.pages[id]?).map IncPage.shape := by
  rw [shapes, List.getElem?_map]

def Marked (s : GcInc) (b : BlockRef) : Prop :=
  ∃ p, s.pages[b.1]? = some p ∧ p.epoch = s.epoch ∧ p.page.marked b.2 = true

def HasPtr (s : GcInc) (b : BlockRef) : Prop :=
  ∃ p, s.pages[b.1]? = some p ∧ p.shape.hasPtr = true

/-- A word that names no block, or one that is marked. -/
def Settled (s : GcInc) (w : Nat) : Prop := ∀ t, target s.shapes false w = some t → s.Marked t

/-- A word of a block that is still to be scanned. -/
def Pending (s : GcInc) (b : BlockRef) (i : Nat) : Prop :=
  b ∈ s.stack ∨ (∃ c, s.cursor = some c ∧ c.block = b ∧ c.pos ≤ i) ∨
    b.1 ∈ s.incoming ∨ b.1 ∈ s.batch ∨ ∃ k, s.rescan = some (b.1, k) ∧ k ≤ b.2

/-- No marked block names an unmarked one, but for words that are still to be scanned. -/
def Traced (s : GcInc) : Prop :=
  ∀ b, s.Marked b → s.HasPtr b → ∀ i < s.blockWords b, s.Settled (s.word b i) ∨ s.Pending b i

theorem blockWords_eq (s : GcInc) (b : BlockRef) :
    s.blockWords b = ((s.shapes[b.1]?).map fun p => p.words b.2).getD 0 := by
  rw [getElem?_shapes]
  unfold blockWords
  cases s.pages[b.1]? <;> rfl

theorem word_eq (s : GcInc) (b : BlockRef) (i : Nat) :
    s.word b i = ((s.shapes[b.1]?).map fun p => s.mem b.1 (p.blockSize * b.2 / 8 + i)).getD 0 := by
  rw [getElem?_shapes]
  unfold word
  cases s.pages[b.1]? <;> rfl

theorem hasPtr_iff (s : GcInc) (b : BlockRef) :
    s.HasPtr b ↔ ∃ p, s.shapes[b.1]? = some p ∧ p.hasPtr = true := by
  rw [getElem?_shapes]
  unfold HasPtr
  cases s.pages[b.1]? <;> simp

theorem blockStart_spec {sizes : List Nat} {first start bid : Nat} (hfirst : first ≤ start)
    (h : Shape.blockStart sizes first start = some bid) :
    first ≤ bid ∧ bid ≤ start ∧ sizes.getD bid 0 ≠ 0 := by
  induction start with
  | zero =>
    unfold Shape.blockStart at h
    split at h
    · cases h
    · rename_i hne
      cases h
      exact ⟨hfirst, Nat.le_refl _, hne⟩
  | succ start ih =>
    unfold Shape.blockStart at h
    split at h
    · split at h
      · cases h
      · obtain ⟨hlo, hhi, hne⟩ := ih (by omega) h
        exact ⟨hlo, by omega, hne⟩
    · rename_i hne
      cases h
      exact ⟨hfirst, Nat.le_refl _, hne⟩

structure Shape.Block (p : Shape) (bid : Nat) : Prop where
  bound : bid < p.maxBlocks
  start : ∀ l, p.sizes = some l → p.firstBlock ≤ bid ∧ l.getD bid 0 ≠ 0

theorem block_of_blockId {p : Shape} {ptr bid : Nat} (h : p.blockId ptr = some bid) :
    Shape.Block p bid := by
  unfold Shape.blockId at h
  simp only at h
  split at h
  · cases h
  · split at h
    · cases h
    · rename_i hbound
      split at h
      · rename_i hsizes
        cases h
        exact ⟨Nat.lt_of_not_le hbound, fun l hl => by rw [hsizes] at hl; cases hl⟩
      · rename_i sizes hsizes
        split at h
        · cases h
        · rename_i hne
          cases h
          refine ⟨Nat.lt_of_not_le hbound, fun l hl => ?_⟩
          rw [hsizes] at hl
          cases hl
          exact ⟨Nat.le_of_not_lt fun hlt => hne (.inl hlt), fun hzero => hne (.inr hzero)⟩

theorem block_of_blockInterior {p : Shape} {ptr bid : Nat} (h : p.blockInterior ptr = some bid) :
    Shape.Block p bid := by
  unfold Shape.blockInterior at h
  simp only at h
  split at h
  · cases h
  · rename_i hbound
    split at h
    · rename_i hsizes
      cases h
      exact ⟨Nat.lt_of_not_le hbound, fun l hl => by rw [hsizes] at hl; cases hl⟩
    · rename_i sizes hsizes
      split at h
      · cases h
      · rename_i hfirst
        split at h
        · cases h
        · rename_i bid' hstart
          split at h
          · cases h
          · cases h
            obtain ⟨hlo, hhi, hne⟩ := blockStart_spec (Nat.le_of_not_lt hfirst) hstart
            refine ⟨by omega, fun l hl => ?_⟩
            rw [hsizes] at hl
            cases hl
            exact ⟨hlo, hne⟩

theorem target_eq_some {shapes : List Shape} {interior : Bool} {ptr : Nat} {b : BlockRef}
    (h : target shapes interior ptr = some b) :
    ∃ p, getPage shapes ptr = some b.1 ∧ shapes[b.1]? = some p ∧ Shape.Block p b.2 ∧
      (if interior then p.blockInterior ptr else p.blockId ptr) = some b.2 := by
  obtain ⟨id, hid, h⟩ := Option.bind_eq_some_iff.mp h
  obtain ⟨p, hp, h⟩ := Option.bind_eq_some_iff.mp h
  obtain ⟨bid, hbid, rfl⟩ := Option.map_eq_some_iff.mp h
  refine ⟨p, hid, hp, ?_, hbid⟩
  split at hbid
  · exact block_of_blockInterior hbid
  · exact block_of_blockId hbid

/-- The pages of `s'` are those of `s` with more marks, and nothing happens to the rest of the
heap. -/
structure Traces (s s' : GcInc) : Prop where
  mem : s'.mem = s.mem
  lists : s'.lists = s.lists
  roots : s'.roots = s.roots
  epoch : s'.epoch = s.epoch
  active : s'.active = s.active
  preparing : s'.preparing = s.preparing
  preparePid : s'.preparePid = s.preparePid
  prepareCursor : s'.prepareCursor = s.prepareCursor
  pages : ∀ id : Nat, Option.Rel IncPage.Keeps (s.pages[id]?) (s'.pages[id]?)

namespace Traces

variable {s s' : GcInc}

theorem page (h : s.Traces s') {id : Nat} {p' : IncPage} (hp' : s'.pages[id]? = some p') :
    ∃ p, s.pages[id]? = some p ∧ p.Keeps p' := by
  have hrel := h.pages id
  rw [hp'] at hrel
  cases hp : s.pages[id]? with
  | none => rw [hp] at hrel; cases hrel
  | some p =>
    rw [hp] at hrel
    cases hrel with
    | some hkeeps => exact ⟨p, rfl, hkeeps⟩

theorem page_of (h : s.Traces s') {id : Nat} {p : IncPage} (hp : s.pages[id]? = some p) :
    ∃ p', s'.pages[id]? = some p' ∧ p.Keeps p' := by
  have hrel := h.pages id
  rw [hp] at hrel
  cases hp' : s'.pages[id]? with
  | none => rw [hp'] at hrel; cases hrel
  | some p' =>
    rw [hp'] at hrel
    cases hrel with
    | some hkeeps => exact ⟨p', rfl, hkeeps⟩

theorem refl (s : GcInc) : s.Traces s := by
  refine ⟨rfl, rfl, rfl, rfl, rfl, rfl, rfl, rfl, fun id => ?_⟩
  cases s.pages[id]? with
  | none => exact .none
  | some p => exact .some (.refl p)

theorem trans {t : GcInc} (h : s.Traces s') (h' : s'.Traces t) : s.Traces t where
  mem := h'.mem.trans h.mem
  lists := h'.lists.trans h.lists
  roots := h'.roots.trans h.roots
  epoch := h'.epoch.trans h.epoch
  active := h'.active.trans h.active
  preparing := h'.preparing.trans h.preparing
  preparePid := h'.preparePid.trans h.preparePid
  prepareCursor := h'.prepareCursor.trans h.prepareCursor
  pages id := by
    have hrel := h.pages id
    have hrel' := h'.pages id
    cases hp : s.pages[id]? with
    | none =>
      rw [hp] at hrel
      cases hp' : s'.pages[id]? with
      | none => rw [hp'] at hrel'; exact hrel'
      | some p' => rw [hp'] at hrel; cases hrel
    | some p =>
      obtain ⟨p', hp', hkeeps⟩ := h.page_of hp
      obtain ⟨q, hq, hkeeps'⟩ := h'.page_of hp'
      rw [hq]
      exact .some (hkeeps.trans hkeeps')

theorem setLists (h : s.Traces s') (stack : List BlockRef) (cursor : Option Cursor)
    (rescan : Option (Nat × Nat)) (incoming batch : List Nat) (walk : DirtyWalk)
    (discovering : Bool) :
    s.Traces { s' with stack, cursor, rescan, incoming, batch, dirtyWalk := walk, discovering } :=
  ⟨h.mem, h.lists, h.roots, h.epoch, h.active, h.preparing, h.preparePid, h.prepareCursor, h.pages⟩

theorem modifyPage (s : GcInc) (id : Nat) {f : IncPage → IncPage}
    (hf : ∀ p, s.pages[id]? = some p → p.Keeps (f p)) : s.Traces (s.modifyPage id f) := by
  refine ⟨rfl, rfl, rfl, rfl, rfl, rfl, rfl, rfl, fun id' => ?_⟩
  rw [getElem?_modifyPage]
  cases hp : s.pages[id']? with
  | none => rw [Option.map_none, ite_self]; exact .none
  | some p =>
    split
    · rename_i heq
      subst heq
      exact .some (hf p hp)
    · exact .some (.refl p)

variable (h : s.Traces s')

include h

theorem shapes : s'.shapes = s.shapes := by
  ext id : 1
  rw [getElem?_shapes, getElem?_shapes]
  have hrel := h.pages id
  cases hp : s.pages[id]? with
  | none =>
    cases hp' : s'.pages[id]? with
    | none => rfl
    | some p' => rw [hp, hp'] at hrel; cases hrel
  | some p =>
    obtain ⟨p', hp', hkeeps⟩ := h.page_of hp
    rw [hp', Option.map_some, Option.map_some, hkeeps.shape]

theorem length : s'.pages.length = s.pages.length := by
  have hshapes := congrArg List.length h.shapes
  rw [GcInc.shapes, GcInc.shapes, List.length_map, List.length_map] at hshapes
  exact hshapes

theorem marked {b : BlockRef} (hb : s.Marked b) : s'.Marked b := by
  obtain ⟨p, hp, hepoch, hmarked⟩ := hb
  obtain ⟨p', hp', hkeeps⟩ := h.page_of hp
  exact ⟨p', hp', hkeeps.epoch.trans (hepoch.trans h.epoch.symm), hkeeps.marks _ hmarked⟩

theorem settled {w : Nat} (hw : s.Settled w) : s'.Settled w := by
  intro t ht
  rw [h.shapes] at ht
  exact h.marked (hw t ht)

theorem blockWords (b : BlockRef) : s'.blockWords b = s.blockWords b := by
  rw [blockWords_eq, blockWords_eq, h.shapes]

theorem word (b : BlockRef) (i : Nat) : s'.word b i = s.word b i := by
  rw [word_eq, word_eq, h.shapes, h.mem]

theorem hasPtr {b : BlockRef} : s'.HasPtr b ↔ s.HasPtr b := by
  rw [hasPtr_iff, hasPtr_iff, h.shapes]

end Traces

theorem Traced.step {s s' : GcInc} (h : s.Traced) (ht : s.Traces s')
    (hcase : ∀ b i, s'.Marked b → s.HasPtr b → i < s.blockWords b →
      s'.Pending b i ∨ s.Marked b ∧ (s.Pending b i → s'.Settled (s.word b i) ∨ s'.Pending b i)) :
    s'.Traced := by
  intro b hb hptr i hi
  rw [ht.hasPtr] at hptr
  rw [ht.blockWords] at hi
  rw [ht.word]
  rcases hcase b i hb hptr hi with hpending | ⟨hmarked, hnext⟩
  · exact .inr hpending
  · rcases h b hmarked hptr i hi with hsettled | hpending
    · exact .inl (ht.settled hsettled)
    · exact hnext hpending

structure Heap (s : GcInc) : Prop where
  epochs : ∀ (id : Nat) (p : IncPage), s.pages[id]? = some p → p.epoch ≤ s.epoch
  ok : ∀ (id : Nat) (p : IncPage), s.pages[id]? = some p → p.Ok
  listed : ∀ id, id < s.pages.length → ∃ ids ∈ s.lists, id ∈ ids

/-- The lists of the marker and the flags of the pages agree. -/
structure Queues (s : GcInc) : Prop where
  ready : ∀ (id : Nat) (p : IncPage), s.pages[id]? = some p → p.epoch = s.epoch → p.Ready
  dirty : ∀ (id : Nat) (p : IncPage), s.pages[id]? = some p → p.dirty = true → id ∈ s.incoming ∨ id ∈ s.batch
  queued : ∀ (b : BlockRef) (p : IncPage), s.pages[b.1]? = some p → p.epoch = s.epoch →
    p.queued.getD b.2 false = true → b ∈ s.stack ∨ ∃ c, s.cursor = some c ∧ c.block = b
  stack : ∀ b ∈ s.stack, s.Marked b
  cursor : ∀ c, s.cursor = some c → s.Marked c.block ∧ c.stop = s.blockWords c.block

/-- A page that the preparation still has to reach. -/
def Waits (s : GcInc) (id : Nat) : Prop :=
  id ∈ s.prepareCursor ∨ ∃ k ids, s.preparePid ≤ k ∧ s.lists[k]? = some ids ∧ id ∈ ids

structure Cycle (s : GcInc) : Prop where
  heap : s.Heap
  queues : s.Queues
  traced : s.Traced
  prepared : ∀ (id : Nat) (p : IncPage), s.pages[id]? = some p →
    p.epoch = s.epoch ∨ s.preparing = true ∧ s.Waits id

/-- Between cycles the marker has no work. -/
structure Idle (s : GcInc) : Prop where
  heap : s.Heap
  active : s.active = false
  stack : s.stack = []
  cursor : s.cursor = none
  rescan : s.rescan = none

theorem Heap.traces {s s' : GcInc} (h : s.Heap) (ht : s.Traces s') : s'.Heap where
  epochs id p' hp' := by
    obtain ⟨p, hp, hkeeps⟩ := ht.page hp'
    rw [hkeeps.epoch, ht.epoch]
    exact h.epochs id p hp
  ok id p' hp' := by
    obtain ⟨p, hp, hkeeps⟩ := ht.page hp'
    exact hkeeps.ok (h.ok id p hp)
  listed id hid := by
    rw [ht.lists]
    exact h.listed id (ht.length ▸ hid)

/-- Every page has been prepared or waits for it. -/
def Prepared (s : GcInc) : Prop :=
  ∀ (id : Nat) (p : IncPage), s.pages[id]? = some p → p.epoch = s.epoch ∨ s.preparing = true ∧ s.Waits id

theorem Prepared.traces {s s' : GcInc} (h : s.Prepared) (ht : s.Traces s') : s'.Prepared := by
  intro id p' hp'
  obtain ⟨p, hp, hkeeps⟩ := ht.page hp'
  rw [hkeeps.epoch, ht.epoch, ht.preparing, Waits, ht.prepareCursor, ht.preparePid, ht.lists]
  exact h id p hp

theorem Cycle.traces {s s' : GcInc} (h : s.Cycle) (ht : s.Traces s') (hqueues : s'.Queues)
    (htraced : s'.Traced) : s'.Cycle where
  heap := h.heap.traces ht
  queues := hqueues
  traced := htraced
  prepared := Prepared.traces h.prepared ht

end GcInc

end HashLink.Gc
