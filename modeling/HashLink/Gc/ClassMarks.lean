import HashLink.Gc.PageDrops

/-! What the marks of a class say after each step of a heap with pinned lists. A full mark, or a cycle
that ends, leaves the marks of the reachable blocks; between cycles the program changes only the pages
it allocates in. -/

namespace HashLink.Gc

open GcInc

variable {b : BlockRef} {p' : IncPage}

namespace GcInc

variable {s : GcInc}

theorem Inv.heap (h : s.Inv) : s.Heap := by
  rcases h with ⟨-, h⟩ | ⟨-, h⟩
  · exact h.heap
  · exact h.heap

theorem Inv.sound (h : s.Inv) : s.Sound := by
  rcases h with ⟨-, h⟩ | ⟨-, h⟩
  · exact h.sound
  · refine ⟨h.heap, fun _ id p hp hepoch => ?_, fun _ => h.prepared⟩
    have hready := h.queues.ready id p hp hepoch
    exact ⟨hready.bits, hready.settled⟩

theorem page_alloc_other {id id' size : Nat} {zero : Bool} (hne : id' ≠ id) :
    (s.alloc id size zero).pages[id']? = s.pages[id']? := by
  rcases alloc_cases s id size zero with heq | ⟨p, page, run, hp, htake⟩
  · rw [heq]
  · rw [alloc_eq hp htake]
    exact List.getElem?_set_ne (Ne.symm hne)

theorem page_reserve_other {id id' size : Nat} {zero : Bool} (hne : id' ≠ id) :
    (s.reserve id size zero).pages[id']? = s.pages[id']? := by
  rcases reserve_cases s id size zero with heq | ⟨p, page, run, hp, htake⟩
  · rw [heq]
  · rw [reserve_eq hp htake]
    exact List.getElem?_set_ne (Ne.symm hne)

theorem steady_allocated (h : s.Sound) (id size : Nat) (zero : Bool) :
    s.Steady (s.alloc id size zero) := by
  rcases alloc_cases s id size zero with heq | ⟨p, page, run, hp, htake⟩
  · rw [heq]
    exact .refl s
  · exact (steady_alloc h hp htake).1

theorem steady_reserved (h : s.Sound) (id size : Nat) (zero : Bool) :
    s.Steady (s.reserve id size zero) := by
  rcases reserve_cases s id size zero with heq | ⟨p, page, run, hp, htake⟩
  · rw [heq]
    exact .refl s
  · exact (steady_reserve h hp htake).1

theorem bit_of_page {s s' : GcInc} (h : s'.pages[b.1]? = s.pages[b.1]?) :
    s'.bit b = s.bit b := by
  unfold GcInc.bit
  rw [h]

end GcInc

theorem IncPage.Ok.first_le {p : IncPage} (h : p.Ok) {bid : Nat} (hblock : Shape.Block p.shape bid) :
    p.page.firstBlock ≤ bid := by
  cases hsizes : p.page.sizes with
  | none =>
    rw [h.first hsizes]
    exact Nat.zero_le bid
  | some sizes => exact (hblock.start sizes hsizes).1

namespace PinnedHeap

variable {precise : List Nat → List Nat} {s s' : PinnedHeap} {heap : GcInc} {P : BlockRef → Prop}

/-- A step keeps the heap in order, and the pages that have memory had it, but for a new one in the
class `oc`. When no cycle goes on after it, every block of `P` that is reachable has its mark, if that
held before a step that began without a cycle. -/
structure Kept (precise : List Nat → List Nat) (P : BlockRef → Prop) (oc : Option Nat)
    (s s' : PinnedHeap) : Prop where
  inv : s'.heap.Inv
  laid : s'.heap.Laid
  pages : ∀ (id : Nat) (p' : IncPage), s'.heap.pages[id]? = some p' → p'.size ≠ 0 →
    (∃ p, s.heap.pages[id]? = some p ∧ p.page.pid = p'.page.pid ∧ p.size ≠ 0) ∨ some p'.page.pid.oc = oc
  marks : s'.heap.active = false → ∀ b, P b → Named precise s' b →
    (s.heap.active = false → Named precise s b → s.heap.bit b = true) → s'.heap.bit b = true

/-- What a full mark leaves: its marks are those of the blocks it comes to, and a page that it gives back
has none of them. -/
structure FullMark (precise : List Nat → List Nat) (s : PinnedHeap) (heap : GcInc) : Prop where
  idle : heap.Idle
  laid : heap.Laid
  page : ∀ (id : Nat) (p' : IncPage), heap.pages[id]? = some p' → ∃ p, s.heap.pages[id]? = some p ∧
    p'.page.pid = p.page.pid ∧ p'.shape = { p.shape with size := p'.size } ∧
    (p'.size = p.size ∨ p'.size = 0 ∧ p'.isEmpty = true)
  bits : ∀ b, heap.bit b = true ↔ Named precise s b
  shrinks : Shrinks precise s.heap heap

theorem fullMark_gcMark (hheap : s.heap.Heap) (hlaid : s.heap.Laid) {fuel : Nat} {keep : Nat → Bool}
    (hmark : gcMark precise fuel keep s = some heap) : FullMark precise s heap := by
  have hidle := idle_gcMark hheap hmark
  obtain ⟨marked, hm, rfl⟩ := markedFrom_gcMark hheap hmark
  have hdrops := drops_releaseEmpty marked keep
  have hmarked := hm.laid hlaid
  refine ⟨hidle, hdrops.laid hmarked, fun id p' hp' => ?_, fun b => ?_, ?_⟩
  · obtain ⟨q, hq, hcase⟩ := page_releaseEmpty hp'
    obtain ⟨p, hp, heq⟩ := hm.page hq
    refine ⟨p, hp, ?_⟩
    rcases hcase with rfl | ⟨hempty, -, rfl⟩
    · rw [heq]
      exact ⟨rfl, rfl, .inl rfl⟩
    · have hempty : IncPage.isEmpty { q with size := 0 } = true := hempty
      refine ⟨?_, ?_, .inr ⟨rfl, hempty⟩⟩
      · rw [heq]
      · rw [heq]
        rfl
  · rw [hdrops.bit]
    exact ⟨hm.named b, hm.complete b⟩
  · exact hm.shrinks.trans (shrinks_drops hdrops hmarked)

theorem FullMark.named (h : FullMark precise s heap) (hb : Named precise (s.setHeap heap) b) :
    heap.bit b = true :=
  (h.bits b).mpr (hb.shrinks h.shrinks)

theorem FullMark.memory (h : FullMark precise s heap) {id : Nat} (hp' : heap.pages[id]? = some p')
    (hsize : p'.size ≠ 0) :
    ∃ p, s.heap.pages[id]? = some p ∧ p.page.pid = p'.page.pid ∧ p.size ≠ 0 := by
  obtain ⟨p, hp, hpid, -, hcase⟩ := h.page id p' hp'
  refine ⟨p, hp, hpid.symm, ?_⟩
  rcases hcase with hcase | ⟨hzero, -⟩
  · exact hcase ▸ hsize
  · exact absurd hzero hsize

theorem target_address {s : GcInc} (hlaid : s.Laid) {p : IncPage} (hp : s.pages[b.1]? = some p)
    (hsize : p.size ≠ 0) (hblock : Shape.Block p.shape b.2) :
    target s.shapes true (s.address b) = some b := by
  obtain ⟨hbase, hpos, hroom⟩ := hlaid.room b.1 p hp hsize
  have haddress : s.address b = p.base + b.2 * p.page.blockSize := by
    unfold GcInc.address
    rw [hp]
  have hbound : b.2 < p.page.maxBlocks := hblock.bound
  have hlt : b.2 * p.page.blockSize < p.page.maxBlocks * p.page.blockSize :=
    Nat.mul_lt_mul_of_pos_right hbound hpos
  have hpage := hlaid.getPage hp hsize (Nat.le_add_right p.base (b.2 * p.page.blockSize)) (by omega)
  have hid : p.shape.blockInterior (p.base + b.2 * p.page.blockSize) = some b.2 := by
    have hstart : (p.base + b.2 * p.page.blockSize - p.base) / p.page.blockSize = b.2 := by
      rw [Nat.add_sub_cancel_left, Nat.mul_div_cancel _ hpos]
    unfold Shape.blockInterior
    simp only [IncPage.shape, hstart]
    rw [if_neg (Nat.not_le_of_lt hbound)]
    cases hsizes : p.page.sizes with
    | none => rfl
    | some sizes =>
      obtain ⟨hfirst, hne⟩ := hblock.start sizes hsizes
      have hfirst : p.page.firstBlock ≤ b.2 := hfirst
      simp only [if_neg (Nat.not_lt_of_le hfirst), blockStart_self hne, Nat.sub_self]
      rw [if_neg (by omega)]
  have hshape : s.shapes[b.1]? = some p.shape := by
    rw [getElem?_shapes, hp]
    rfl
  unfold GcInc.target
  rw [haddress, hpage, Option.bind_some, hshape, Option.bind_some, if_pos rfl, hid]
  rfl

section Kept

variable (P)

theorem FullMark.kept (h : FullMark precise s heap) : Kept precise P none s (s.setHeap heap) where
  inv := .inl ⟨h.idle.active, h.idle⟩
  laid := h.laid
  pages _ _ hp' hsize := .inl (h.memory hp' hsize)
  marks _ _ _ hb _ := h.named hb

theorem kept_sweep (hinv : s.heap.Inv) (hlaid : s.heap.Laid) (keep : Nat → Bool) :
    Kept precise P none s (s.setHeap (s.heap.releaseEmpty keep)) := by
  have hdrops := drops_releaseEmpty s.heap keep
  refine ⟨hdrops.inv hlaid hinv, hdrops.laid hlaid, fun id p' hp' hsize => .inl ?_,
    fun hidle b _ hb hbefore => ?_⟩
  · obtain ⟨p, hp, rfl | rfl⟩ := hdrops.page hp'
    · exact ⟨_, hp, rfl, hsize⟩
    · exact absurd rfl hsize
  · show (s.heap.releaseEmpty keep).bit b = true
    rw [hdrops.bit]
    exact hbefore hidle (hb.shrinks (shrinks_drops hdrops hlaid))

theorem kept_slice (hprecise : ∀ words, precise words ⊆ words) (hinv : s.heap.Inv)
    (hlaid : s.heap.Laid) (env : Env) :
    match s.rooted.slice env with
    | .paused heap | .published heap => Kept precise P none s (s.setHeap heap)
    | .failed heap => heap.Heap ∧ s.heap.Steady heap
    | .fatal => True := by
  have hrooted : s.rooted.Inv := by
    rcases hinv with ⟨hactive, h⟩ | ⟨hactive, h⟩
    · exact .inl ⟨hactive, ⟨h.heap.epochs, h.heap.ok, h.heap.listed⟩, h.active, h.stack, h.cursor, h.rescan⟩
    · exact .inr ⟨hactive, ⟨h.heap.epochs, h.heap.ok, h.heap.listed⟩, ⟨h.queues.ready, h.queues.dirty,
        h.queues.queued, h.queues.stack, h.queues.cursor⟩, h.traced, h.prepared⟩
  have hok := slice_ok env hrooted
  have hsteady := slice_steady env hrooted.sound
  generalize s.rooted.slice env = r at hok hsteady
  have hpages : ∀ heap : GcInc, s.heap.Steady heap → ∀ (id : Nat) (p' : IncPage),
      heap.pages[id]? = some p' → p'.size ≠ 0 →
        ∃ p, s.heap.pages[id]? = some p ∧ p.page.pid = p'.page.pid ∧ p.size ≠ 0 := by
    intro heap hs id p' hp' hsize
    obtain ⟨p, hp, hpage⟩ := hs.page_of hp'
    exact ⟨p, hp, hpage.pid.symm, hpage.size ▸ hsize⟩
  cases r with
  | fatal => trivial
  | failed heap => exact ⟨hok, hsteady.length, hsteady.page⟩
  | paused heap =>
    have hs : s.heap.Steady heap := ⟨hsteady.length, hsteady.page⟩
    refine ⟨.inr hok, hlaid.steady hs, fun id p' hp' hsize => .inl (hpages heap hs id p' hp' hsize), ?_⟩
    intro hidle
    cases hok.1.symm.trans hidle
  | published heap =>
    obtain ⟨t, ht, hroots, -, -, rfl⟩ := hsteady
    have hs : s.heap.Steady t := ⟨ht.length, ht.page⟩
    refine ⟨hok.1, (hlaid.steady hs).publish, fun id p' hp' hsize => .inl ?_, fun _ b _ hb _ => ?_⟩
    · obtain ⟨q, hq, rfl⟩ := page_publish hp'
      exact hpages t hs id q hq hsize
    · exact hok.2 b (Named.reach hprecise hb hroots)

theorem kept_program {oc : Option Nat} (hinv : s'.heap.Inv) (hlaid : s'.heap.Laid)
    (hpages : ∀ (id : Nat) (p' : IncPage), s'.heap.pages[id]? = some p' → p'.size ≠ 0 →
      (∃ p, s.heap.pages[id]? = some p ∧ p.page.pid = p'.page.pid ∧ p.size ≠ 0) ∨ some p'.page.pid.oc = oc)
    (hactive : s'.heap.active = s.heap.active)
    (hbits : s.heap.active = false → ∀ b, P b → s.heap.bit b = true → s'.heap.bit b = true)
    (hguard : ∀ b, P b → Named precise s' b → Named precise s b) : Kept precise P oc s s' where
  inv := hinv
  laid := hlaid
  pages := hpages
  marks hidle b hP hb hbefore :=
    hbits (hactive ▸ hidle) b hP (hbefore (hactive ▸ hidle) (hguard b hP hb))

theorem kept_same {oc : Option Nat} (hinv : s.heap.Inv) (hlaid : s.heap.Laid) (hheap : s'.heap = s.heap)
    (hguard : ∀ b, P b → Named precise s' b → Named precise s b) : Kept precise P oc s s' := by
  refine kept_program P (hheap ▸ hinv) (hheap ▸ hlaid) (fun id p' hp' hsize => .inl ?_) ?_ ?_ hguard
  · rw [hheap] at hp'
    exact ⟨p', hp', rfl, hsize⟩
  · rw [hheap]
  · rw [hheap]
    exact fun _ _ _ hbit => hbit

theorem kept_failed (hsteady : s.heap.Steady heap) {heap' : GcInc}
    (hmark : FullMark precise (s.setHeap heap) heap') : Kept precise P none s (s.setHeap heap') where
  inv := .inl ⟨hmark.idle.active, hmark.idle⟩
  laid := hmark.laid
  pages id p' hp' hsize := by
    obtain ⟨q, hq, hpid, hmemory⟩ := hmark.memory hp' hsize
    obtain ⟨p, hp, hpage⟩ := hsteady.page_of hq
    exact .inl ⟨p, hp, hpage.pid.symm.trans hpid, hpage.size ▸ hmemory⟩
  marks _ _ _ hb _ := hmark.named hb

theorem FullMark.found (h : FullMark precise s heap) {types : List Nat} {minSize : Nat} {w : Nat}
    (hw : w ∈ (heap.lists.flatten.flatMap (collectLiveInstancePage types minSize heap)).map heap.address)
    {t : BlockRef} (ht : target heap.shapes true w = some t) : Named precise s t := by
  obtain ⟨c, hc, rfl⟩ := List.mem_map.mp hw
  obtain ⟨id, -, hc⟩ := List.mem_flatMap.mp hc
  unfold collectLiveInstancePage at hc
  cases hp : heap.pages[id]? with
  | none => rw [hp] at hc; cases hc
  | some p =>
    rw [hp] at hc
    simp only at hc
    split at hc
    · rename_i hkind
      obtain ⟨bid, hbid, rfl⟩ := List.mem_map.mp hc
      obtain ⟨-, hbid⟩ := List.mem_filter.mp hbid
      have hbit : heap.bit (id, bid) = true := by
        unfold GcInc.bit
        rw [hp]
        exact (of_decide_eq_true hbid).1
      have hnamed := (h.bits (id, bid)).mp hbit
      obtain ⟨q, hq, -, hblock⟩ := hnamed.memory
      obtain ⟨q', hq', -, hshape, -⟩ := h.page id p hp
      cases hq.symm.trans hq'
      have hblock' : Shape.Block p.shape bid := by
        rw [hshape]
        exact ⟨hblock.bound, hblock.start⟩
      have htarget := target_address h.laid (b := (id, bid)) hp hkind.1 hblock'
      cases htarget.symm.trans ht
      exact hnamed
    · cases hc

theorem FullMark.report (h : FullMark precise s heap) (types : List Nat) (minSize values : Nat) :
    Kept precise P none s { s with
      heap
      pinned := (values, (heap.lists.flatten.flatMap (collectLiveInstancePage types minSize heap)).map
        heap.address) :: s.pinned } where
  inv := .inl ⟨h.idle.active, h.idle⟩
  laid := h.laid
  pages _ _ hp' hsize := .inl (h.memory hp' hsize)
  marks _ b _ hb _ := by
    refine (h.bits b).mpr (hb.shrinks_pins h.shrinks fun w hw t ht => ?_)
    rw [List.flatMap_cons] at hw
    rcases List.mem_append.mp hw with hw | hw
    · exact h.found hw ht
    · exact .stack (List.mem_append_left _ hw) (h.shrinks.target ht)

end Kept

end PinnedHeap

def PinEvent.OfProgram : PinEvent → Prop
  | .store .. | .setRoots .. | .alloc .. | .reserve .. | .newPage .. | .liveInstancesRelease .. => True
  | _ => False

def PinEvent.takesFrom : PinEvent → Option Nat
  | .alloc id _ _ | .reserve id _ _ => some id
  | _ => none

def PinEvent.newClass : PinEvent → Option Nat
  | .newPage _ pid _ _ => some pid.oc
  | _ => none

namespace PinnedHeap

variable {precise : List Nat → List Nat} {s s' : PinnedHeap}

/-- The condition of the marker on what the program does in a cycle. -/
def Clean (s : PinnedHeap) : PinEvent → Prop
  | .alloc id size zero => s.heap.Clean (.alloc id size zero)
  | .reserve id size zero => s.heap.Clean (.reserve id size zero)
  | .newPage slot pid base size => s.heap.Clean (.newPage slot pid base size)
  | _ => True

theorem memory_steady {heap : GcInc} (h : s.heap.Steady heap) {id : Nat} (hp' : heap.pages[id]? = some p')
    (hsize : p'.size ≠ 0) :
    ∃ p, s.heap.pages[id]? = some p ∧ p.page.pid = p'.page.pid ∧ p.size ≠ 0 := by
  obtain ⟨p, hp, hpage⟩ := h.page_of hp'
  exact ⟨p, hp, hpage.pid.symm, hpage.size ▸ hsize⟩

theorem laid_newPage (hinv : s.heap.Inv) (hlaid : s.heap.Laid) {slot base size : Nat} {pid : Pid}
    (hfree : isFree s.heap base size = true) : (s.heap.newPage slot pid base size).Laid := by
  have hbare : Inv ⟨s.heap, [], [], []⟩ := ⟨hinv.sound, hlaid, fun _ haddr => nomatch haddr⟩
  exact (hbare.newPage hfree).laid

theorem kept_newPage {P : BlockRef → Prop} (hinv : s.heap.Inv) (hlaid : s.heap.Laid)
    {slot base size : Nat} {pid : Pid} (hfree : isFree s.heap base size = true)
    (hclean : s.heap.active = true → s.heap.Clean (.newPage slot pid base size))
    (hguard : ∀ b, P b → Named precise (s.setHeap (s.heap.newPage slot pid base size)) b → Named precise s b) :
    Kept precise P (some pid.oc) s (s.setHeap (s.heap.newPage slot pid base size)) := by
  have hinv' : (s.heap.newPage slot pid base size).Inv :=
    hinv.step (.newPage slot pid base size) hclean rfl
  have hlaid' : (s.heap.newPage slot pid base size).Laid := laid_newPage hinv hlaid hfree
  refine kept_program P hinv' hlaid' (fun id p' hp' hsize => ?_) ?_ (fun _ b _ hbit => ?_) hguard
  · rcases newPage_cases s.heap slot pid base size with heq | ⟨hgrows, -⟩
    · have hp' : (s.heap.newPage slot pid base size).pages[id]? = some p' := hp'
      rw [heq] at hp'
      exact .inl ⟨p', hp', rfl, hsize⟩
    · rcases hgrows.page hp' with hp | ⟨-, rfl⟩
      · exact .inl ⟨p', hp, rfl, hsize⟩
      · exact .inr rfl
  · rcases newPage_cases s.heap slot pid base size with heq | ⟨hgrows, -⟩
    · exact congrArg GcInc.active heq
    · exact hgrows.active
  · rcases newPage_cases s.heap slot pid base size with heq | ⟨hgrows, -⟩
    · show (s.heap.newPage slot pid base size).bit b = true
      rw [heq]
      exact hbit
    · unfold GcInc.bit at hbit ⊢
      cases hp : s.heap.pages[b.1]? with
      | none => rw [hp] at hbit; cases hbit
      | some p =>
        rw [hp] at hbit
        rw [show (s.setHeap (s.heap.newPage slot pid base size)).heap.pages[b.1]? = some p from
          hgrows.old hp]
        exact hbit

theorem kept_step {P : BlockRef → Prop} (hprecise : ∀ words, precise words ⊆ words)
    (hinv : s.heap.Inv) (hlaid : s.heap.Laid) {e : PinEvent} {out : PinOutcome}
    (hclean : s.heap.active = true → s.Clean e)
    (htake : ∀ id, e.takesFrom = some id → ∀ bid, ¬P (id, bid))
    (hstep : step precise s e = some (s', out))
    (hguard : e.OfProgram → ∀ b, P b → Named precise s' b → Named precise s b) :
    Kept precise P e.newClass s s' := by
  cases e with
  | store id i value =>
    cases hstep
    refine kept_program P (hinv.step (.store id i value) (fun _ => trivial) rfl)
      (hlaid.steady (steady_store _ _ _ _))
      (fun id p' hp' hsize => .inl (memory_steady (steady_store _ _ _ _) hp' hsize)) ?_ ?_
      (hguard trivial)
    · show (s.heap.store id i value).active = _
      unfold GcInc.store
      dsimp only
      split
      · exact (traces_dirtyEnqueue s.heap id).active
      · rfl
    · intro hidle b _ hbit
      show (s.heap.store id i value).bit b = true
      unfold GcInc.store
      rw [hidle]
      exact hbit
  | setRoots globals stackWords =>
    cases hstep
    exact kept_same P hinv hlaid rfl (hguard trivial)
  | alloc id size zero =>
    unfold PinnedHeap.step at hstep
    simp only at hstep
    split at hstep
    · cases hstep
      have hsteady := steady_allocated hinv.sound id size zero
      refine kept_program P (hinv.step (.alloc id size zero) hclean rfl) (hlaid.steady hsteady)
        (fun id p' hp' hsize => .inl (memory_steady hsteady hp' hsize))
        (s.heap.active_alloc id size zero) (fun _ b hP hbit => ?_) (hguard trivial)
      have hne : b.1 ≠ id := fun heq => htake id rfl b.2 (heq ▸ hP)
      exact (bit_of_page (page_alloc_other hne)).trans hbit
    · cases hstep
      exact kept_same P hinv hlaid rfl (hguard trivial)
  | reserve id size zero =>
    unfold PinnedHeap.step at hstep
    simp only at hstep
    split at hstep
    · cases hstep
      have hsteady := steady_reserved hinv.sound id size zero
      refine kept_program P (hinv.step (.reserve id size zero) hclean rfl) (hlaid.steady hsteady)
        (fun id p' hp' hsize => .inl (memory_steady hsteady hp' hsize))
        (s.heap.active_reserve id size zero) (fun _ b hP hbit => ?_) (hguard trivial)
      have hne : b.1 ≠ id := fun heq => htake id rfl b.2 (heq ▸ hP)
      exact (bit_of_page (page_reserve_other hne)).trans hbit
    · cases hstep
      exact kept_same P hinv hlaid rfl (hguard trivial)
  | newPage slot pid base size =>
    unfold PinnedHeap.step at hstep
    simp only at hstep
    split at hstep
    · rename_i hfree
      cases hstep
      exact kept_newPage hinv hlaid hfree hclean (hguard trivial)
    · cases hstep
      exact kept_same P hinv hlaid rfl (hguard trivial)
  | slice env fuel keep =>
    have hslice := kept_slice P hprecise hinv hlaid env
    unfold PinnedHeap.step at hstep
    simp only at hstep
    generalize s.rooted.slice env = r at hslice hstep
    cases r with
    | paused heap =>
      cases hstep
      exact hslice
    | published heap =>
      cases hstep
      exact hslice
    | failed heap =>
      obtain ⟨heap', hmark, heq⟩ := Option.map_eq_some_iff.mp hstep
      cases heq
      exact kept_failed P hslice.2 (fullMark_gcMark hslice.1 (hlaid.steady hslice.2) hmark)
    | fatal => cases hstep
  | major fuel keep =>
    obtain ⟨heap, hmark, heq⟩ := Option.map_eq_some_iff.mp hstep
    cases heq
    exact (fullMark_gcMark hinv.heap hlaid hmark).kept P
  | sweep keep =>
    cases hstep
    exact kept_sweep P hinv hlaid keep
  | liveInstances types minSize fuel keep memory values =>
    obtain ⟨heap, hmark, heq⟩ := Option.map_eq_some_iff.mp hstep
    have hmark := fullMark_gcMark hinv.heap hlaid hmark
    dsimp only at heq
    split at heq
    · cases heq
      exact hmark.report P types minSize values
    · cases heq
      exact hmark.kept P
  | liveInstancesRelease values =>
    unfold PinnedHeap.step at hstep
    simp only at hstep
    split at hstep
    · cases hstep
      exact kept_same P hinv hlaid rfl (hguard trivial)
    · cases hstep

end PinnedHeap

def GcInc.InClass (s : GcInc) (b : BlockRef) (oc : Nat) : Prop :=
  ∃ p, s.pages[b.1]? = some p ∧ p.page.pid.oc = oc

namespace PinnedHeap

variable {precise : List Nat → List Nat} {s : PinnedHeap} {heap : GcInc}

theorem bit_of_liveBlocks {heap : GcInc} {oc : Nat} (hlive : heap.gcAllocatorClassLiveBlocks oc = 0)
    {p : IncPage} (hp : heap.pages[b.1]? = some p) (hoc : p.page.pid.oc = oc) (hsize : p.size ≠ 0)
    (hfirst : p.page.firstBlock ≤ b.2) (hbound : b.2 < p.page.maxBlocks) :
    heap.bit b = false := by
  unfold gcAllocatorClassLiveBlocks at hlive
  rw [List.sum_eq_zero_iff_forall_eq_nat] at hlive
  have hmem : p ∈ heap.classPages oc :=
    List.mem_filter.mpr ⟨List.mem_of_getElem? hp, decide_eq_true ⟨hoc, hsize⟩⟩
  have hnone := hlive _ (List.mem_map_of_mem hmem)
  unfold IncPage.liveBlocks at hnone
  rw [List.length_eq_zero_iff, List.filter_eq_nil_iff] at hnone
  have hnot := hnone b.2 (List.mem_range.mpr hbound)
  unfold GcInc.bit
  rw [hp]
  rw [decide_eq_true_iff] at hnot
  exact Bool.eq_false_iff.mpr fun hmarked => hnot ⟨hfirst, hmarked⟩

theorem FullMark.kept_page (hmark : FullMark precise s heap) (hheap : s.heap.Heap) (hb : Named precise s b)
    (hp' : heap.pages[b.1]? = some p') : p'.size ≠ 0 ∧ p'.page.firstBlock ≤ b.2 ∧ b.2 < p'.page.maxBlocks := by
  obtain ⟨p, hp, hpid, hshape, hcase⟩ := hmark.page b.1 p' hp'
  obtain ⟨q, hq, hsize, hblock⟩ := hb.memory
  cases hp.symm.trans hq
  have hfirst : p'.page.firstBlock ≤ b.2 := by
    have heq : p'.page.firstBlock = p.page.firstBlock := congrArg Shape.firstBlock hshape
    rw [heq]
    exact (hheap.ok b.1 p hp).first_le hblock
  have hbound : b.2 < p'.page.maxBlocks := by
    have heq : p'.page.maxBlocks = p.page.maxBlocks := congrArg Shape.maxBlocks hshape
    rw [heq]
    exact hblock.bound
  refine ⟨?_, hfirst, hbound⟩
  rcases hcase with hcase | ⟨-, hempty⟩
  · exact hcase ▸ hsize
  · have hbit := (hmark.bits b).mpr hb
    unfold GcInc.bit at hbit
    rw [hp'] at hbit
    cases (isEmpty_of_marked hfirst hbit).symm.trans hempty

theorem FullMark.dead (hmark : FullMark precise s heap) (hheap : s.heap.Heap) {oc : Nat}
    (hlive : heap.gcAllocatorClassLiveBlocks oc = 0) (hb : Named precise s b) : ¬s.heap.InClass b oc := by
  rintro ⟨p, hp, hclass⟩
  have hbit := (hmark.bits b).mpr hb
  cases hp' : heap.pages[b.1]? with
  | none =>
    unfold GcInc.bit at hbit
    rw [hp'] at hbit
    cases hbit
  | some p' =>
    obtain ⟨hsize, hfirst, hbound⟩ := hmark.kept_page hheap hb hp'
    obtain ⟨q, hq, hpid, -⟩ := hmark.page b.1 p' hp'
    cases hp.symm.trans hq
    have hnot := bit_of_liveBlocks hlive hp' (hpid ▸ hclass) hsize hfirst hbound
    cases hbit.symm.trans hnot

theorem FullMark.released (hmark : FullMark precise s heap) (hheap : s.heap.Heap) {id : Nat}
    (hp' : heap.pages[id]? = some p') (hzero : p'.size = 0) (bid : Nat) :
    ¬Named precise s (id, bid) :=
  fun hb => (hmark.kept_page hheap hb hp').1 hzero

end PinnedHeap

end HashLink.Gc
