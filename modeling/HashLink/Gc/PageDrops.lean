import HashLink.Gc.PinnedRuns

/-! Owner classes of `gc.c`. An owner that registers gets pages of its own, by a table of classes;
owners beyond the size of the table share the overflow class. An owner that is released while some of
its blocks are alive leaves its class retired, and a retired class is given to another owner when the
mark bits of its pages show no block. Those bits are read whatever the collector is doing.

Pages that lose their memory, in a sweep of empty pages or when a class is released. Such a page keeps
its number and its mark bits, words name nothing in it any more, and the incremental marker goes on as
it was. -/

namespace HashLink.Gc

open GcInc

def gcOwnerClasses : Nat := 16

def gcOverflowClass : Nat := gcOwnerClasses + 1

/-- An entry of `gc_owner_table`; a retired one is `GC_RETIRED_OWNER`. -/
inductive OwnerEntry where
  | none
  | owner (owner : Nat)
  | retired
  deriving DecidableEq

/-- The heap with `gc_owner_table`, whose entry for class `i` is at `i - 1`, and
`gc_overflow_owners`. -/
structure OwnerHeap where
  heap : PinnedHeap
  table : List OwnerEntry
  overflow : List Nat

def IncPage.liveBlocks (p : IncPage) : Nat :=
  ((List.range p.page.maxBlocks).filter fun bid => p.page.firstBlock ≤ bid ∧ p.page.marked bid).length

namespace GcInc

def classPages (s : GcInc) (oc : Nat) : List IncPage :=
  s.pages.filter fun p => p.page.pid.oc = oc ∧ p.size ≠ 0

def gcAllocatorClassLiveBlocks (s : GcInc) (oc : Nat) : Nat :=
  ((s.classPages oc).map IncPage.liveBlocks).sum

def gcAllocatorReleaseClass (s : GcInc) (oc : Nat) : GcInc :=
  { s with pages := s.pages.map fun p => if p.page.pid.oc = oc then { p with size := 0 } else p }

end GcInc

namespace OwnerHeap

/-- `gc_owner_class_lookup`. The hint only chooses where the search starts. -/
def gcOwnerClassLookup (s : OwnerHeap) (owner : Nat) : Option Nat :=
  (s.table.findIdx? fun e => e = .owner owner).map fun i => i + 1

def gcOwnerClassFind (s : OwnerHeap) (owner : Nat) : Nat :=
  match s.gcOwnerClassLookup owner with
  | some oc => oc
  | none => if owner ∈ s.overflow then gcOverflowClass else 0

def releaseClass (s : OwnerHeap) (oc : Nat) : OwnerHeap :=
  { s with heap := s.heap.setHeap (s.heap.heap.gcAllocatorReleaseClass oc) }

def liveBlocks (s : OwnerHeap) (oc : Nat) : Nat := s.heap.heap.gcAllocatorClassLiveBlocks oc

/-- The first retired class without live blocks. -/
def reusable (s : OwnerHeap) : Option Nat :=
  (List.range s.table.length).find? fun i =>
    s.table[i]? = some OwnerEntry.retired ∧ s.liveBlocks (i + 1) = 0

def gcOwnerClassRegister (s : OwnerHeap) (owner : Nat) : OwnerHeap :=
  if 0 < s.gcOwnerClassFind owner then s
  else
    match s.table.findIdx? fun e => e = .none with
    | some i => { s with table := s.table.set i (.owner owner) }
    | none =>
      match s.reusable with
      | some i =>
        let s := s.releaseClass (i + 1)
        { s with table := s.table.set i (.owner owner) }
      | none => { s with overflow := s.overflow ++ [owner] }

variable (precise : List Nat → List Nat)

/-- `hl_gc_owner_release`: a full collection, and then the owner gives back its class if nothing in it
lives. -/
def hlGcOwnerRelease (s : OwnerHeap) (owner fuel : Nat) (keep : Nat → Bool) : Option OwnerHeap :=
  let oc := s.gcOwnerClassFind owner
  if oc = 0 then some s
  else
    (PinnedHeap.gcMark precise fuel keep s.heap).map fun heap =>
      let s := { s with heap := s.heap.setHeap heap }
      if oc = gcOverflowClass then
        let s := { s with overflow := s.overflow.erase owner }
        if s.overflow = [] ∧ s.liveBlocks oc = 0 then s.releaseClass oc else s
      else if s.liveBlocks oc = 0 then
        { s.releaseClass oc with table := s.table.set (oc - 1) .none }
      else { s with table := s.table.set (oc - 1) .retired }

def allocatesIn (s : OwnerHeap) (e : PinEvent) (oc : Nat) : Prop :=
  match e with
  | .alloc id _ _ | .reserve id _ _ => ∀ p, s.heap.heap.pages[id]? = some p → p.page.pid.oc = oc
  | .newPage _ pid _ _ => pid.oc = oc
  | _ => True

/-- A step of the program or of the collector, which allocates in the class `oc` that was looked up
for an owner before it took the lock, or a change of owners. -/
inductive OwnerEvent where
  | heap (owner : Option Nat) (oc : Nat) (e : PinEvent)
  | register (owner : Nat)
  | release (owner fuel : Nat) (keep : Nat → Bool)

def step (s : OwnerHeap) : OwnerEvent → Option OwnerHeap
  | .heap _ _ e => (PinnedHeap.step precise s.heap e).map fun r => { s with heap := r.1 }
  | .register owner => some (s.gcOwnerClassRegister owner)
  | .release owner fuel keep => s.hlGcOwnerRelease precise owner fuel keep

def start (slots : Nat) : OwnerHeap where
  heap := PinnedHeap.start slots
  table := List.replicate gcOwnerClasses .none
  overflow := []

end OwnerHeap

variable {b : BlockRef}

namespace GcInc

variable {s s' : GcInc}

theorem inPage_of_target {shapes : List Shape} {interior : Bool} {w : Nat}
    (h : target shapes interior w = some b) : ∃ shape, shapes[b.1]? = some shape ∧
      shape.base ≤ w ∧ w < shape.base + shape.size ∧ Shape.Block shape b.2 ∧
      (if interior then shape.blockInterior w else shape.blockId w) = some b.2 := by
  obtain ⟨shape, hpage, hshape, hblock, hfound⟩ := target_eq_some h
  unfold GcInc.getPage at hpage
  split at hpage
  · cases hpage
  · obtain ⟨hlt, hin, -⟩ := List.findIdx?_eq_some_iff_getElem.mp hpage
    rw [List.getElem?_eq_getElem hlt] at hshape
    cases hshape
    obtain ⟨hlo, hhi⟩ := Bool.and_eq_true_iff.mp hin
    exact ⟨_, List.getElem?_eq_getElem hlt, of_decide_eq_true hlo, of_decide_eq_true hhi, hblock, hfound⟩

/-- Some pages of `s` have no memory any more. -/
structure Drops (s s' : GcInc) : Prop where
  same : s' = { s with pages := s'.pages }
  pages : ∀ id : Nat, Option.Rel (fun p p' => p' = p ∨ p' = { p with size := 0 }) (s.pages[id]?) (s'.pages[id]?)

theorem drops_releaseEmpty (s : GcInc) (keep : Nat → Bool) : s.Drops (s.releaseEmpty keep) := by
  refine ⟨rfl, fun id => ?_⟩
  unfold releaseEmpty
  simp only [List.getElem?_mapIdx]
  cases s.pages[id]? with
  | none => exact .none
  | some p =>
    refine .some ?_
    dsimp only
    split
    · exact .inr rfl
    · exact .inl rfl

theorem drops_releaseClass (s : GcInc) (oc : Nat) : s.Drops (s.gcAllocatorReleaseClass oc) := by
  refine ⟨rfl, fun id => ?_⟩
  unfold gcAllocatorReleaseClass
  simp only [List.getElem?_map]
  cases s.pages[id]? with
  | none => exact .none
  | some p =>
    refine .some ?_
    dsimp only
    split
    · exact .inr rfl
    · exact .inl rfl

namespace Drops

theorem page (h : s.Drops s') {id : Nat} {p' : IncPage} (hp' : s'.pages[id]? = some p') :
    ∃ p, s.pages[id]? = some p ∧ (p' = p ∨ p' = { p with size := 0 }) := by
  have hrel := h.pages id
  rw [hp'] at hrel
  cases hp : s.pages[id]? with
  | none =>
    rw [hp] at hrel
    cases hrel
  | some p =>
    rw [hp] at hrel
    cases hrel with
    | some hrel => exact ⟨p, rfl, hrel⟩

theorem page_of (h : s.Drops s') {id : Nat} {p : IncPage} (hp : s.pages[id]? = some p) :
    ∃ p', s'.pages[id]? = some p' ∧ (p' = p ∨ p' = { p with size := 0 }) := by
  have hrel := h.pages id
  rw [hp] at hrel
  cases hp' : s'.pages[id]? with
  | none =>
    rw [hp'] at hrel
    cases hrel
  | some p' =>
    rw [hp'] at hrel
    cases hrel with
    | some hrel => exact ⟨p', rfl, hrel⟩

theorem page_none (h : s.Drops s') {id : Nat} (hp : s.pages[id]? = none) : s'.pages[id]? = none := by
  have hrel := h.pages id
  rw [hp] at hrel
  cases hp' : s'.pages[id]? with
  | none => rfl
  | some p' =>
    rw [hp'] at hrel
    cases hrel

theorem length_le (h : s.Drops s') : s'.pages.length ≤ s.pages.length := by
  rw [← List.getElem?_eq_none_iff]
  exact h.page_none (List.getElem?_eq_none (Nat.le_refl _))

theorem read (h : s.Drops s') {α : Type} (f : IncPage → α) (hf : ∀ p, f { p with size := 0 } = f p)
    (id : Nat) : (s'.pages[id]?).map f = (s.pages[id]?).map f := by
  cases hp : s.pages[id]? with
  | none => rw [h.page_none hp]
  | some p =>
    obtain ⟨p', hp', rfl | rfl⟩ := h.page_of hp
    · rw [hp']
    · rw [hp', Option.map_some, Option.map_some, hf]

theorem bit (h : s.Drops s') (b : BlockRef) : s'.bit b = s.bit b := by
  have heq : ∀ s : GcInc, s.bit b = ((s.pages[b.1]?).map fun p => p.page.marked b.2).getD false := by
    intro s
    unfold GcInc.bit
    cases s.pages[b.1]? <;> rfl
  rw [heq, heq, h.read (fun p => p.page.marked b.2) (fun _ => rfl)]

theorem blockWords (h : s.Drops s') (b : BlockRef) : s'.blockWords b = s.blockWords b := by
  have heq : ∀ s : GcInc, s.blockWords b = ((s.pages[b.1]?).map fun p => p.shape.words b.2).getD 0 := by
    intro s
    unfold GcInc.blockWords
    cases s.pages[b.1]? <;> rfl
  rw [heq, heq, h.read (fun p => p.shape.words b.2) (fun _ => rfl)]

theorem word (h : s.Drops s') (b : BlockRef) (i : Nat) : s'.word b i = s.word b i := by
  have heq : ∀ s : GcInc, s.word b i =
      ((s.pages[b.1]?).map fun p => s.mem b.1 (p.page.blockSize * b.2 / 8 + i)).getD 0 := by
    intro s
    unfold GcInc.word
    cases s.pages[b.1]? <;> rfl
  have hmem : s'.mem = s.mem := by rw [h.same]
  rw [heq, heq, hmem, h.read (fun p => s.mem b.1 (p.page.blockSize * b.2 / 8 + i)) (fun _ => rfl)]

theorem hasPtr (h : s.Drops s') (hptr : s'.HasPtr b) : s.HasPtr b := by
  obtain ⟨p', hp', hptr⟩ := hptr
  obtain ⟨p, hp, rfl | rfl⟩ := h.page hp'
  · exact ⟨_, hp, hptr⟩
  · exact ⟨_, hp, hptr⟩

theorem marked (h : s.Drops s') : s'.Marked b ↔ s.Marked b := by
  have hepoch : s'.epoch = s.epoch := by rw [h.same]
  unfold Marked
  rw [hepoch]
  constructor
  · rintro ⟨p', hp', hmarked⟩
    obtain ⟨p, hp, rfl | rfl⟩ := h.page hp'
    · exact ⟨_, hp, hmarked⟩
    · exact ⟨_, hp, hmarked⟩
  · rintro ⟨p, hp, hmarked⟩
    obtain ⟨p', hp', rfl | rfl⟩ := h.page_of hp
    · exact ⟨_, hp', hmarked⟩
    · exact ⟨_, hp', hmarked⟩

theorem target (h : s.Drops s') (hlaid : s.Laid) {interior : Bool} {w : Nat}
    (hb : GcInc.target s'.shapes interior w = some b) : GcInc.target s.shapes interior w = some b := by
  obtain ⟨shape, hshape, hlo, hhi, -, hfound⟩ := inPage_of_target hb
  rw [getElem?_shapes] at hshape
  obtain ⟨p', hp', rfl⟩ := Option.map_eq_some_iff.mp hshape
  have hlo : p'.base ≤ w := hlo
  have hhi : w < p'.base + p'.size := hhi
  have hsize : p'.size ≠ 0 := by omega
  obtain ⟨p, hp, rfl | rfl⟩ := h.page hp'
  · unfold GcInc.target
    rw [hlaid.getPage hp hsize hlo hhi, Option.bind_some, getElem?_shapes, hp]
    show (if interior then p'.shape.blockInterior w else p'.shape.blockId w).map _ = some b
    rw [hfound]
    rfl
  · exact absurd rfl hsize

theorem laid (h : s.Drops s') (hlaid : s.Laid) : s'.Laid := by
  have hpage : ∀ (id : Nat) (p : IncPage), s'.pages[id]? = some p → p.size ≠ 0 → s.pages[id]? = some p := by
    intro id p hp hsize
    obtain ⟨q, hq, rfl | rfl⟩ := h.page hp
    · exact hq
    · exact absurd rfl hsize
  constructor
  · exact fun id p hp hsize => hlaid.room id p (hpage id p hp hsize) hsize
  · exact fun id id' p p' hp hp' hne hsize hsize' =>
      hlaid.apart id id' p p' (hpage id p hp hsize) (hpage id' p' hp' hsize') hne hsize hsize'

theorem heap (h : s.Drops s') (hheap : s.Heap) : s'.Heap := by
  have hepoch : s'.epoch = s.epoch := by rw [h.same]
  have hlists : s'.lists = s.lists := by rw [h.same]
  refine ⟨fun id p hp => ?_, fun id p hp => ?_, fun id hid => ?_⟩
  · rw [hepoch]
    obtain ⟨q, hq, rfl | rfl⟩ := h.page hp
    · exact hheap.epochs id _ hq
    · exact hheap.epochs id q hq
  · obtain ⟨q, hq, rfl | rfl⟩ := h.page hp
    · exact hheap.ok id _ hq
    · have hok := hheap.ok id q hq
      exact ⟨hok.page, hok.align, hok.first⟩
  · rw [hlists]
    exact hheap.listed id (Nat.lt_of_lt_of_le hid h.length_le)

theorem queues (h : s.Drops s') (hq : s.Queues) : s'.Queues := by
  have hsame := h.same
  have hepoch : s'.epoch = s.epoch := by rw [h.same]
  have hstack : s'.stack = s.stack := by rw [h.same]
  have hcursor : s'.cursor = s.cursor := by rw [h.same]
  have hincoming : s'.incoming = s.incoming := by rw [h.same]
  have hbatch : s'.batch = s.batch := by rw [h.same]
  constructor
  case ready =>
    intro id p hp hready
    rw [hepoch] at hready
    obtain ⟨q, hpage, rfl | rfl⟩ := h.page hp
    · exact hq.ready id _ hpage hready
    · have hready := hq.ready id q hpage hready
      exact ⟨hready.bits, hready.settled, hready.starts⟩
  case dirty =>
    intro id p hp hdirty
    rw [hincoming, hbatch]
    obtain ⟨q, hpage, rfl | rfl⟩ := h.page hp
    · exact hq.dirty id _ hpage hdirty
    · exact hq.dirty id q hpage hdirty
  case queued =>
    intro b p hp hcycle hqueued
    rw [hepoch] at hcycle
    rw [hstack, hcursor]
    obtain ⟨q, hpage, rfl | rfl⟩ := h.page hp
    · exact hq.queued b _ hpage hcycle hqueued
    · exact hq.queued b q hpage hcycle hqueued
  case stack =>
    intro b hb
    rw [hstack] at hb
    exact h.marked.mpr (hq.stack b hb)
  case cursor =>
    intro c hc
    rw [hcursor] at hc
    rw [h.marked, h.blockWords]
    exact hq.cursor c hc

theorem traced (h : s.Drops s') (hlaid : s.Laid) (htr : s.Traced) : s'.Traced := by
  intro b hb hptr i hi
  rw [h.blockWords] at hi
  rcases htr b (h.marked.mp hb) (h.hasPtr hptr) i hi with hsettled | hpending
  · left
    intro t ht
    rw [h.word] at ht
    exact h.marked.mpr (hsettled t (h.target hlaid ht))
  · right
    have hsame : s' = _ := h.same
    unfold Pending at hpending ⊢
    rw [hsame]
    exact hpending

theorem inv (h : s.Drops s') (hlaid : s.Laid) (hinv : s.Inv) : s'.Inv := by
  have hactive : s'.active = s.active := by rw [h.same]
  rcases hinv with ⟨hidle, hs⟩ | ⟨hcycle, hs⟩
  · left
    refine ⟨hactive.trans hidle, h.heap hs.heap, hactive.trans hidle, ?_, ?_, ?_⟩
    · rw [h.same]
      exact hs.stack
    · rw [h.same]
      exact hs.cursor
    · rw [h.same]
      exact hs.rescan
  · right
    refine ⟨hactive.trans hcycle, h.heap hs.heap, h.queues hs.queues, h.traced hlaid hs.traced, ?_⟩
    intro id p hp
    have hwait : s'.Waits id ↔ s.Waits id := by
      unfold Waits
      rw [h.same]
    have hepoch : s'.epoch = s.epoch := by rw [h.same]
    have hpreparing : s'.preparing = s.preparing := by rw [h.same]
    rw [hepoch, hpreparing, hwait]
    obtain ⟨q, hq, rfl | rfl⟩ := h.page hp
    · exact hs.prepared id _ hq
    · exact hs.prepared id q hq

theorem scanned (h : s.Drops s') (precise : List Nat → List Nat) (b : BlockRef) :
    s'.scanned precise b = s.scanned precise b := by
  have hwords : (List.range (s'.blockWords b)).map (s'.word b) =
      (List.range (s.blockWords b)).map (s.word b) := by
    rw [h.blockWords]
    exact List.map_congr_left fun i _ => h.word b i
  unfold GcInc.scanned
  rw [hwords]
  cases hp : s.pages[b.1]? with
  | none => rw [h.page_none hp]
  | some p =>
    obtain ⟨p', hp', rfl | rfl⟩ := h.page_of hp
    · rw [hp']
    · rw [hp']

end Drops

theorem blockInterior_of_blockId {p : Shape} {ptr bid : Nat} (h : p.blockId ptr = some bid) :
    p.blockInterior ptr = some bid := by
  have hblock := block_of_blockId h
  have hid : (ptr - p.base) / p.blockSize = bid := by
    unfold Shape.blockId at h
    simp only at h
    split at h
    · cases h
    · split at h
      · cases h
      · split at h
        · exact Option.some.inj h
        · split at h
          · cases h
          · exact Option.some.inj h
  unfold Shape.blockInterior
  simp only [hid]
  rw [if_neg (Nat.not_le_of_lt hblock.bound)]
  cases hsizes : p.sizes with
  | none => rfl
  | some sizes =>
    obtain ⟨hfirst, hne⟩ := hblock.start sizes hsizes
    simp only [if_neg (Nat.not_lt_of_le hfirst), blockStart_self hne, Nat.sub_self]
    rw [if_neg (by omega)]

theorem target_interior {shapes : List Shape} {w : Nat} (h : target shapes false w = some b) :
    target shapes true w = some b := by
  obtain ⟨id, hid, h⟩ := Option.bind_eq_some_iff.mp h
  obtain ⟨p, hp, h⟩ := Option.bind_eq_some_iff.mp h
  obtain ⟨bid, hbid, rfl⟩ := Option.map_eq_some_iff.mp h
  unfold target
  rw [hid, Option.bind_some, hp, Option.bind_some, if_pos rfl, blockInterior_of_blockId hbid]
  rfl

theorem mem_scanned {precise : List Nat → List Nat} (hprecise : ∀ words, precise words ⊆ words) {w : Nat}
    (hw : w ∈ s.scanned precise b) : ∃ i < s.blockWords b, s.word b i = w := by
  have hwords : w ∈ (List.range (s.blockWords b)).map (s.word b) := by
    unfold scanned at hw
    dsimp only at hw
    split at hw
    · cases hw
    · split at hw
      · split at hw
        · cases hw
        · exact hprecise _ hw
      · exact hw
  obtain ⟨i, hi, rfl⟩ := List.mem_map.mp hwords
  exact ⟨i, List.mem_range.mp hi, rfl⟩

/-! ### A full mark leaves the marker without work -/

variable {m : Marking} {precise : List Nat → List Nat}

theorem markWord_same (interior : Bool) (m : Marking) (w : Nat) :
    (markWord interior m w).heap = { m.heap with pages := (markWord interior m w).heap.pages } := by
  unfold markWord
  split
  · rfl
  · split
    · rfl
    · rfl

theorem markWords_same (interior : Bool) (words : List Nat) (m : Marking) :
    (words.foldl (markWord interior) m).heap =
      { m.heap with pages := (words.foldl (markWord interior) m).heap.pages } := by
  induction words generalizing m with
  | nil => rfl
  | cons w words ih =>
    rw [List.foldl_cons, ih, markWord_same]

theorem gcFlushMark_same {fuel : Nat} (h : gcFlushMark precise fuel m = some s') :
    s' = { m.heap with pages := s'.pages } := by
  induction fuel generalizing m with
  | zero => cases h
  | succ fuel ih =>
    unfold gcFlushMark at h
    split at h
    · cases h
      rfl
    · rw [ih h, markWords_same]

end GcInc

namespace PinnedHeap

variable {precise : List Nat → List Nat} {s : PinnedHeap} {heap : GcInc}

theorem idle_gcMark (h : s.heap.Heap) {fuel : Nat} {keep : Nat → Bool}
    (hmark : gcMark precise fuel keep s = some heap) : heap.Idle := by
  have hheap : heap.Heap := by
    obtain ⟨marked, hm, rfl⟩ := markedFrom_gcMark h hmark
    exact (drops_releaseEmpty marked keep).heap ((major_idle h _).heap.traces hm.traces)
  unfold gcMark at hmark
  obtain ⟨marked, hflush, rfl⟩ := Option.map_eq_some_iff.mp hmark
  have hsame := gcFlushMark_same hflush
  rw [markWords_same, markWords_same] at hsame
  refine ⟨hheap, ?_, ?_, ?_, ?_⟩
  · show marked.active = false
    rw [hsame]
    rfl
  · show marked.stack = []
    rw [hsame]
    rfl
  · show marked.cursor = none
    rw [hsame]
    rfl
  · show marked.rescan = none
    rw [hsame]
    rfl

theorem Named.memory (h : Named precise s b) :
    ∃ p, s.heap.pages[b.1]? = some p ∧ p.size ≠ 0 ∧ Shape.Block p.shape b.2 := by
  have hnamed : ∀ {interior : Bool} {w : Nat} {b : BlockRef}, target s.heap.shapes interior w = some b →
      ∃ p, s.heap.pages[b.1]? = some p ∧ p.size ≠ 0 ∧ Shape.Block p.shape b.2 := by
    intro interior w b hb
    obtain ⟨shape, hshape, hlo, hhi, hblock, -⟩ := inPage_of_target hb
    rw [getElem?_shapes] at hshape
    obtain ⟨p, hp, rfl⟩ := Option.map_eq_some_iff.mp hshape
    have hhi : w < p.base + p.size := hhi
    have hlo : p.base ≤ w := hlo
    exact ⟨p, hp, by omega, hblock⟩
  cases h with
  | global _ hb => exact hnamed hb
  | stack _ hb => exact hnamed hb
  | word _ _ _ ht => exact hnamed ht

/-- Words name fewer blocks in `heap` than in `s`. -/
structure Shrinks (precise : List Nat → List Nat) (s heap : GcInc) : Prop where
  target : ∀ {interior : Bool} {w : Nat} {b : BlockRef},
    target heap.shapes interior w = some b → target s.shapes interior w = some b
  hasPtr : ∀ {b : BlockRef}, heap.HasPtr b → s.HasPtr b
  scanned : ∀ b : BlockRef, heap.scanned precise b = s.scanned precise b

theorem Shrinks.trans {r t u : GcInc} (h : Shrinks precise r t) (h' : Shrinks precise t u) :
    Shrinks precise r u :=
  ⟨fun hb => h.target (h'.target hb), fun hb => h.hasPtr (h'.hasPtr hb),
    fun b => (h'.scanned b).trans (h.scanned b)⟩

theorem shrinks_drops {r t : GcInc} (h : r.Drops t) (hlaid : r.Laid) : Shrinks precise r t :=
  ⟨h.target hlaid, h.hasPtr, h.scanned precise⟩

theorem MarkedFrom.shrinks {marked : GcInc} (hm : MarkedFrom precise s marked) :
    Shrinks precise s.heap marked := by
  have hshapes : marked.shapes = s.heap.shapes := hm.traces.shapes.trans (shapes_major s.heap)
  refine ⟨fun hb => hshapes ▸ hb, fun hb => hasPtr_major.mp (hm.traces.hasPtr.mp hb), fun b => ?_⟩
  rw [scanned_traces hm.traces, scanned_major]

theorem Named.shrinks_pins {pinned : List (Nat × List Nat)} (h : Shrinks precise s.heap heap)
    (hpins : ∀ w ∈ pinned.flatMap (fun list => list.2), ∀ b, GcInc.target heap.shapes true w = some b →
      Named precise s b) (hb : Named precise { s with heap, pinned } b) :
    Named precise s b := by
  induction hb with
  | global hw hb => exact .global hw (h.target hb)
  | stack hw hb =>
    rcases List.mem_append.mp hw with hw | hw
    · exact hpins _ hw _ hb
    · exact .stack (List.mem_append_right _ hw) (h.target hb)
  | word _ hptr hw ht ih => exact .word ih (h.hasPtr hptr) (h.scanned _ ▸ hw) (h.target ht)

theorem Named.shrinks (h : Shrinks precise s.heap heap) (hb : Named precise (s.setHeap heap) b) :
    Named precise s b :=
  shrinks_pins h (fun _ hw _ hb => .stack (List.mem_append_left _ hw) (h.target hb)) hb

theorem Named.reach (hprecise : ∀ words, precise words ⊆ words) (h : Named precise s b)
    (hroots : s.heap.roots = s.globals ++ s.pins ++ s.stackWords) :
    s.heap.Reach b := by
  induction h with
  | global hw hb =>
    refine .root ?_ (target_interior hb)
    rw [hroots, List.append_assoc]
    exact List.mem_append_left _ hw
  | stack hw hb =>
    refine .root ?_ hb
    rw [hroots, List.append_assoc]
    exact List.mem_append_right _ hw
  | word _ hptr hw ht ih =>
    obtain ⟨i, hi, rfl⟩ := mem_scanned hprecise hw
    exact .word ih hptr hi ht

end PinnedHeap

end HashLink.Gc
