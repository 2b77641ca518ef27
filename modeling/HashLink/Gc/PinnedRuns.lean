import HashLink.Gc.LiveInstancesSafety

/-! Runs with reports of live instances. The pinned addresses are roots of every mark, so at any time
a pinned block is allocated, and marked when its page waits for a flush. -/

namespace HashLink.Gc

open GcInc

variable {p : IncPage} {b : BlockRef} {zero : Bool}

namespace GcInc

variable {s s' : GcInc}

theorem steady_store (s : GcInc) (id i value : Nat) : s.Steady (s.store id i value) := by
  have hqueue : s.Steady (if s.active then s.dirtyEnqueue id else s) := by
    split
    · exact (traces_dirtyEnqueue s id).steady
    · exact .refl s
  exact ⟨hqueue.length, hqueue.page⟩

theorem steady_alloc (h : s.Sound) {id size : Nat} {page : GcPage} {run : Run} (hp : s.pages[id]? = some p)
    (htake : p.page.takeBlock size = some (page, run)) :
    s.Steady (s.alloc id size zero) ∧
      ∀ bid, p.Holds bid → ∃ b ∈ p.page.blocks, b.run.pos = bid ∧ b.run.Apart run := by
  have hok := h.heap.ok id p hp
  obtain ⟨q, hq, hflushes, htakes⟩ := GcPage.takeBlock_spec hok.page htake
  obtain ⟨q', hq', hapart⟩ := GcPage.takeBlock_apart hok.page htake
  cases hq.symm.trans hq'
  have hsteady := IncPage.steady_taken hok hq hflushes htakes hapart
  have htaken := taken_of_takes hok hq hflushes htakes
  refine ⟨?_, fun bid hbid => hbid.apart hok hq hapart⟩
  rw [alloc_eq hp htake]
  refine .of_turns ⟨hp, rfl⟩ ?_
  split
  · exact (hsteady.trans (IncPage.steady_preparePage htaken.ok _)).trans (IncPage.keeps_mark _ _).steady
  · exact hsteady

theorem steady_reserve (h : s.Sound) {id size : Nat} {page : GcPage} {run : Run} (hp : s.pages[id]? = some p)
    (htake : p.page.takeBuffer = some (page, run)) :
    s.Steady (s.reserve id size zero) ∧
      ∀ bid, p.Holds bid → ∃ b ∈ p.page.blocks, b.run.pos = bid ∧ b.run.Apart run := by
  have hok := h.heap.ok id p hp
  obtain ⟨q, hq, hflushes, htakes, -⟩ := GcPage.takeBuffer_spec hok.page htake
  obtain ⟨q', hq', hapart⟩ := GcPage.takeBuffer_apart hok.page htake
  cases hq.symm.trans hq'
  refine ⟨?_, fun bid hbid => hbid.apart hok hq hapart⟩
  rw [reserve_eq hp htake]
  exact .of_turns ⟨hp, rfl⟩ (IncPage.steady_taken hok hq hflushes htakes hapart)

theorem HoldsAt.publish (hbits : s.AllBits) (hlaid : s.Laid) (hroots : s.RootsMarked) {addr : Nat}
    (h : s.HoldsAt b addr) (haddr : addr ∈ s.roots) : s.publish.HoldsAt b addr := by
  have hbit := hroots addr haddr b (hlaid.target (fun id p hp => (hbits id p hp).1) h)
  obtain ⟨p, hp, hsize, hholds, rfl⟩ := h
  refine ⟨{ p with page := { p.page with needFlush := true } }, ?_, hsize, ⟨hholds.block, fun _ => ?_⟩, rfl⟩
  · show (s.pages.map _)[b.1]? = _
    rw [List.getElem?_map, hp]
    rfl
  · unfold GcInc.bit at hbit
    rw [hp] at hbit
    exact hbit

theorem Laid.publish (h : s.Laid) : s.publish.Laid := by
  constructor
  · intro id p hp hsize
    obtain ⟨q, hq, rfl⟩ := page_publish hp
    exact h.room id q hq hsize
  · intro id id' p p' hp hp' hne hsize hsize'
    obtain ⟨q, hq, rfl⟩ := page_publish hp
    obtain ⟨q', hq', rfl⟩ := page_publish hp'
    exact h.apart id id' q q' hq hq' hne hsize hsize'

section Release

variable {keep : Nat → Bool}

theorem page_releaseEmpty {id : Nat} (hp : (s.releaseEmpty keep).pages[id]? = some p) :
    ∃ q, s.pages[id]? = some q ∧
      (p = q ∨ q.isEmpty = true ∧ q.page.needFlush = true ∧ p = { q with size := 0 }) := by
  unfold releaseEmpty at hp
  simp only [List.getElem?_mapIdx] at hp
  obtain ⟨q, hq, rfl⟩ := Option.map_eq_some_iff.mp hp
  refine ⟨q, hq, ?_⟩
  split
  · rename_i hempty
    exact .inr ⟨hempty.2.1, hempty.1, rfl⟩
  · exact .inl rfl

theorem Laid.releaseEmpty (h : s.Laid) : (s.releaseEmpty keep).Laid := by
  have hpage : ∀ (id : Nat) (p : IncPage), (s.releaseEmpty keep).pages[id]? = some p → p.size ≠ 0 →
      s.pages[id]? = some p := by
    intro id p hp hsize
    obtain ⟨q, hq, rfl | ⟨-, -, rfl⟩⟩ := page_releaseEmpty hp
    · exact hq
    · exact absurd rfl hsize
  constructor
  · exact fun id p hp hsize => h.room id p (hpage id p hp hsize) hsize
  · exact fun id id' p p' hp hp' hne hsize hsize' =>
      h.apart id id' p p' (hpage id p hp hsize) (hpage id' p' hp' hsize') hne hsize hsize'

theorem length_releaseEmpty (s : GcInc) : (s.releaseEmpty keep).pages.length = s.pages.length :=
  List.length_mapIdx

theorem Sound.releaseEmpty (h : s.Sound) : (s.releaseEmpty keep).Sound := by
  refine ⟨⟨fun id p hp => ?_, fun id p hp => ?_, fun id hid => ?_⟩, fun hactive id p hp => ?_,
    fun hactive id p hp => ?_⟩
  · obtain ⟨q, hq, rfl | ⟨-, -, rfl⟩⟩ := page_releaseEmpty hp
    · exact h.heap.epochs id p hq
    · exact h.heap.epochs id q hq
  · obtain ⟨q, hq, rfl | ⟨-, -, rfl⟩⟩ := page_releaseEmpty hp
    · exact h.heap.ok id p hq
    · have hok := h.heap.ok id q hq
      exact ⟨hok.page, hok.align, hok.first⟩
  · rw [length_releaseEmpty] at hid
    exact h.heap.listed id hid
  · obtain ⟨q, hq, rfl | ⟨-, -, rfl⟩⟩ := page_releaseEmpty hp
    · exact h.bits hactive id p hq
    · exact h.bits hactive id q hq
  · obtain ⟨q, hq, rfl | ⟨-, -, rfl⟩⟩ := page_releaseEmpty hp
    · exact h.prepared hactive id p hq
    · exact h.prepared hactive id q hq

theorem isEmpty_of_marked {bid : Nat} (hfirst : p.page.firstBlock ≤ bid) (hmarked : p.page.marked bid = true) :
    p.isEmpty = false := by
  unfold GcPage.marked at hmarked
  unfold IncPage.isEmpty
  cases hbmp : p.page.bmp with
  | none => rfl
  | some bmp =>
    rw [hbmp] at hmarked
    simp only [List.getD_eq_getElem?_getD] at hmarked
    rw [Bool.eq_false_iff]
    intro hall
    rw [List.all_eq_true] at hall
    have hget : bmp[bid]? = some true := by
      cases hbit : bmp[bid]? with
      | none => rw [hbit] at hmarked; cases hmarked
      | some bit =>
        rw [hbit] at hmarked
        exact congrArg some hmarked
    have hle : p.page.firstBlock / 8 * 8 ≤ bid := Nat.le_trans (Nat.div_mul_le_self _ _) hfirst
    have hmem : true ∈ bmp.drop (p.page.firstBlock / 8 * 8) := by
      apply List.mem_of_getElem? (i := bid - p.page.firstBlock / 8 * 8)
      rw [List.getElem?_drop, Nat.add_sub_cancel' hle]
      exact hget
    cases hall true hmem

theorem HoldsAt.releaseEmpty (hok : ∀ (id : Nat) (p : IncPage), s.pages[id]? = some p → p.Ok) {addr : Nat}
    (h : s.HoldsAt b addr) : (s.releaseEmpty keep).HoldsAt b addr := by
  obtain ⟨p, hp, hsize, hholds, rfl⟩ := h
  refine ⟨p, ?_, hsize, hholds, rfl⟩
  unfold GcInc.releaseEmpty
  simp only [List.getElem?_mapIdx]
  rw [hp, Option.map_some, if_neg]
  rintro ⟨hneed, hempty, -⟩
  have hnot := isEmpty_of_marked (hholds.lt (hok b.1 p hp)).1 (hholds.marked hneed)
  cases hnot.symm.trans hempty

end Release

end GcInc

namespace PinnedHeap

variable {precise : List Nat → List Nat} {s s' : PinnedHeap}

structure Inv (s : PinnedHeap) : Prop where
  sound : s.heap.Sound
  laid : s.heap.Laid
  pinned : ∀ addr ∈ s.pins, ∃ b, s.heap.HoldsAt b addr

variable {heap : GcInc} {keep : Nat → Bool} {types : List Nat} {out : PinOutcome}

theorem Inv.steady (h : s.Inv) (hs : s.heap.Steady heap) (hsound : heap.Sound) :
    (s.setHeap heap).Inv where
  sound := hsound
  laid := h.laid.steady hs
  pinned addr haddr := by
    obtain ⟨b, hb⟩ := h.pinned addr haddr
    exact ⟨b, hb.steady hs⟩

theorem Inv.slice (h : s.Inv) (env : Env) :
    match s.rooted.slice env with
    | .paused heap | .published heap | .failed heap => (s.setHeap heap).Inv
    | .fatal => True := by
  have hrooted : s.rooted.Sound :=
    ⟨⟨h.sound.heap.epochs, h.sound.heap.ok, h.sound.heap.listed⟩, h.sound.bits, h.sound.prepared⟩
  have hsound := slice_sound env hrooted
  have hsteady := slice_steady env hrooted
  generalize s.rooted.slice env = r at hsound hsteady
  cases r with
  | fatal => trivial
  | paused heap => exact h.steady ⟨hsteady.length, hsteady.page⟩ hsound
  | failed heap => exact h.steady ⟨hsteady.length, hsteady.page⟩ hsound
  | published heap =>
    obtain ⟨t, ht, hroots, hbits, hmarked, rfl⟩ := hsteady
    have ht : s.heap.Steady t := ⟨ht.length, ht.page⟩
    refine ⟨hsound, (h.laid.steady ht).publish, fun addr haddr => ?_⟩
    obtain ⟨b, hb⟩ := h.pinned addr haddr
    refine ⟨b, (hb.steady ht).publish hbits (h.laid.steady ht) hmarked ?_⟩
    rw [hroots]
    exact List.mem_append_left _ (List.mem_append_right _ haddr)

theorem MarkedFrom.page {marked : GcInc} (h : MarkedFrom precise s marked) {id : Nat}
    (hp : marked.pages[id]? = some p) : ∃ q, s.heap.pages[id]? = some q ∧
      p = { q with
        page := { q.page with bmp := p.page.bmp, needFlush := true }
        queued := p.queued
        dirty := p.dirty } := by
  obtain ⟨c, hc, hkeeps⟩ := h.traces.page hp
  obtain ⟨q, hq, rfl⟩ := page_major hc
  exact ⟨q, hq, hkeeps.same⟩

theorem MarkedFrom.page_of {marked : GcInc} (h : MarkedFrom precise s marked) {id : Nat} {q : IncPage}
    (hq : s.heap.pages[id]? = some q) : ∃ p, marked.pages[id]? = some p ∧
      p = { q with
        page := { q.page with bmp := p.page.bmp, needFlush := true }
        queued := p.queued
        dirty := p.dirty } := by
  have hlt : id < marked.pages.length := by
    rw [h.traces.length]
    show id < (s.heap.pages.mapIdx _).length
    rw [List.length_mapIdx]
    exact (List.getElem?_eq_some_iff.mp hq).1
  obtain ⟨q', hq', heq⟩ := h.page (List.getElem?_eq_getElem hlt)
  cases hq.symm.trans hq'
  exact ⟨_, List.getElem?_eq_getElem hlt, heq⟩

theorem MarkedFrom.laid {marked : GcInc} (hm : MarkedFrom precise s marked) (h : s.heap.Laid) :
    marked.Laid := by
  constructor
  · intro id p hp hsize
    obtain ⟨q, hq, heq⟩ := hm.page hp
    rw [heq] at hsize ⊢
    exact h.room id q hq hsize
  · intro id id' p p' hp hp' hne hsize hsize'
    obtain ⟨q, hq, heq⟩ := hm.page hp
    obtain ⟨q', hq', heq'⟩ := hm.page hp'
    rw [heq] at hsize ⊢
    rw [heq'] at hsize' ⊢
    exact h.apart id id' q q' hq hq' hne hsize hsize'

theorem Inv.marked (h : s.Inv) {marked : GcInc} (hm : MarkedFrom precise s marked) :
    (s.setHeap marked).Inv := by
  refine ⟨((major_idle h.sound.heap _).sound).traces hm.traces, hm.laid h.laid, fun addr haddr => ?_⟩
  obtain ⟨b, hb⟩ := h.pinned addr haddr
  have hbit := hm.pins haddr (h.laid.target h.sound.heap.ok hb)
  obtain ⟨q, hq, hsize, hholds, rfl⟩ := hb
  obtain ⟨p, hp, heq⟩ := hm.page_of hq
  unfold GcInc.bit at hbit
  rw [hp] at hbit
  refine ⟨b, p, hp, ?_, ⟨?_, fun _ => hbit⟩, ?_⟩
  · rw [heq]
    exact hsize
  · rw [heq]
    exact hholds.block
  · rw [heq]

theorem Inv.releaseEmpty (h : s.Inv) (keep : Nat → Bool) : (s.setHeap (s.heap.releaseEmpty keep)).Inv where
  sound := h.sound.releaseEmpty
  laid := h.laid.releaseEmpty
  pinned addr haddr := by
    obtain ⟨b, hb⟩ := h.pinned addr haddr
    exact ⟨b, hb.releaseEmpty h.sound.heap.ok⟩

theorem Inv.gcMark (h : s.Inv) {fuel : Nat} (hmark : gcMark precise fuel keep s = some heap) :
    (s.setHeap heap).Inv := by
  obtain ⟨marked, hm, rfl⟩ := markedFrom_gcMark h.sound.heap hmark
  exact (h.marked hm).releaseEmpty keep

theorem Inv.newPage (h : s.Inv) {slot base size : Nat} {pid : Pid}
    (hfree : isFree s.heap base size = true) : (s.setHeap (s.heap.newPage slot pid base size)).Inv := by
  obtain ⟨hbase, hsize, hall⟩ := of_decide_eq_true hfree
  rw [List.all_eq_true] at hall
  have hapart : ∀ p ∈ s.heap.pages, p.size ≠ 0 → p.base + p.size ≤ base ∨ base + size ≤ p.base :=
    fun p hp hne => (of_decide_eq_true (hall p hp)).resolve_left hne
  have hsound := h.sound.newPage slot pid base size
  unfold GcInc.newPage at hsound ⊢
  simp only at hsound ⊢
  split at hsound
  · rename_i hguard
    rw [if_pos hguard]
    obtain ⟨-, -, -, hroom⟩ := hguard
    have hpos : 0 < (s.heap.bornPage pid base size).page.maxBlocks := Nat.lt_of_le_of_lt (Nat.zero_le _) hroom
    have hnew : ∀ (id : Nat) (p : IncPage), (s.heap.pages ++ [s.heap.bornPage pid base size])[id]? = some p →
          s.heap.pages[id]? = some p ∨ id = s.heap.pages.length ∧ p = s.heap.bornPage pid base size := by
      intro id p hp
      rcases Nat.lt_or_ge id s.heap.pages.length with hlt | hge
      · rw [List.getElem?_append_left hlt] at hp
        exact .inl hp
      · rw [List.getElem?_append_right hge, List.getElem?_singleton] at hp
        split at hp
        · cases hp
          exact .inr ⟨by omega, rfl⟩
        · cases hp
    refine ⟨hsound, ⟨fun id p hp hne => ?_, fun id id' p p' hp hp' hne hsz hsz' => ?_⟩, ?_⟩
    · rcases hnew id p hp with hp | ⟨-, rfl⟩
      · exact h.laid.room id p hp hne
      · refine ⟨hbase, ?_, ?_⟩
        · exact Nat.pos_of_ne_zero fun hzero => by
            simp only [bornPage, Allocator.freshPage] at hpos hzero
            rw [hzero, Nat.div_zero] at hpos
            cases hpos
        · exact Nat.div_mul_le_self size _
    · rcases hnew id p hp with hp | ⟨rfl, rfl⟩ <;> rcases hnew id' p' hp' with hp' | ⟨rfl, rfl⟩
      · exact h.laid.apart id id' p p' hp hp' hne hsz hsz'
      · exact hapart p (List.mem_of_getElem? hp) hsz
      · exact (hapart p' (List.mem_of_getElem? hp') hsz').symm
      · exact absurd rfl hne
    · intro addr haddr
      obtain ⟨b, p, hp, hb⟩ := h.pinned addr haddr
      refine ⟨b, p, ?_, hb⟩
      show (s.heap.pages ++ [s.heap.bornPage pid base size])[b.1]? = _
      rw [List.getElem?_append_left (List.getElem?_eq_some_iff.mp hp).1]
      exact hp
  · rename_i hguard
    rw [if_neg hguard]
    exact h

/-- A block that was handed out and is on no free list. The list of a large page is never used. -/
structure Allocated (s : GcInc) (b : BlockRef) : Prop where
  block : ∃ p, s.pages[b.1]? = some p ∧ ∃ block ∈ p.page.blocks, block.run.pos = b.2
  notFree : ∀ p, s.pages[b.1]? = some p → p.page.pid.part < gcLargePart → ∀ r ∈ p.page.runs, ¬r.Has b.2

def Pinned (s : PinnedHeap) (b : BlockRef) : Prop :=
  ∃ addr ∈ s.pins, target s.heap.shapes true addr = some b

theorem allocated_of_block {s : GcInc} (hok : ∀ (id : Nat) (p : IncPage), s.pages[id]? = some p → p.Ok)
    (hp : s.pages[b.1]? = some p) {block : Block} (hblock : block ∈ p.page.blocks)
    (hpos : block.run.pos = b.2) : Allocated s b := by
  refine ⟨⟨p, hp, block, hblock, hpos⟩, fun p' hp' hpart r hr => ?_⟩
  cases hp.symm.trans hp'
  have hsmall := Allocator.small_of_ok (hok b.1 p hp).page hpart
  have hcount := (hsmall.blocksIn block hblock).1
  have hhas : block.run.Has b.2 := by
    rw [← hpos]
    exact ⟨Nat.le_refl _, Nat.lt_add_of_pos_right hcount⟩
  exact fun hr' => (hsmall.apart block hblock r hr).disjoint b.2 ⟨hhas, hr'⟩

theorem Named.block (h : Named precise s b) :
    ∃ p, s.heap.pages[b.1]? = some p ∧ Shape.Block p.shape b.2 := by
  have hnamed : ∀ {interior : Bool} {w : Nat} {b : BlockRef}, target s.heap.shapes interior w = some b →
      ∃ p, s.heap.pages[b.1]? = some p ∧ Shape.Block p.shape b.2 := by
    intro interior w b hb
    obtain ⟨shape, -, hshape, hblock, -⟩ := target_eq_some hb
    rw [getElem?_shapes] at hshape
    obtain ⟨p, hp, rfl⟩ := Option.map_eq_some_iff.mp hshape
    exact ⟨p, hp, hblock⟩
  cases h with
  | global _ hb => exact hnamed hb
  | stack _ hb => exact hnamed hb
  | word _ _ _ ht => exact hnamed ht

theorem Named.allocated (h : Named precise s b) (hp : s.heap.pages[b.1]? = some p) (hok : p.Ok) {l : List Nat}
    (hl : p.page.sizes = some l) :
    ∃ block ∈ p.page.blocks, block.run.pos = b.2 := by
  obtain ⟨p', hp', hblock⟩ := h.block
  cases hp.symm.trans hp'
  obtain ⟨hfirst, hne⟩ := hblock.start l hl
  by_contra hnone
  have hzero := (hok.page.sized hl).other b.2 hfirst hblock.bound
    fun block hmem _ hpos => hnone ⟨block, hmem, hpos⟩
  rw [List.getD_eq_getElem?_getD, hzero] at hne
  exact hne rfl

/-- A block of the program, not a free slot. -/
def IsBlock (s : PinnedHeap) (b : BlockRef) : Prop :=
  ∃ p, s.heap.pages[b.1]? = some p ∧ ∃ block ∈ p.page.blocks, block.run.pos = b.2

/-- A free slot of a page without a table of sizes, which has one of the types in its first word or is in
a page with pointers. -/
structure Stale (s : PinnedHeap) (types : List Nat) (minSize : Nat) (b : BlockRef) : Prop where
  free : ¬s.IsBlock b
  page : ∃ p, s.heap.pages[b.1]? = some p ∧ p.page.sizes = none ∧ (s.heap.HasPtr b ∨
    (p.page.pid.kind = .dynamic ∨ p.page.pid.kind = .noptr) ∧ minSize ≤ p.page.blockSize ∧ s.heap.word b 0 ∈ types)

/-- No root, pinned address or word of a stack is the address of such a slot, and no word of a block is. -/
def NoStale (precise : List Nat → List Nat) (s : PinnedHeap) : PinEvent → Prop
  | .liveInstances types minSize _ _ _ _ => ∀ b, s.Stale types minSize b →
      (∀ w ∈ s.globals, target s.heap.shapes false w ≠ some b) ∧
      (∀ w ∈ s.pins ++ s.stackWords, target s.heap.shapes true w ≠ some b) ∧
      ∀ t, s.IsBlock t → s.heap.HasPtr t → ∀ w ∈ s.heap.scanned precise t, target s.heap.shapes false w ≠ some b
  | _ => True

/-- Marking comes to no such slot: the block before it on the way would be one, or have a word that is its
address. -/
theorem Named.not_stale {minSize fuel values : Nat} {memory : Bool}
    (hstale : NoStale precise s (.liveInstances types minSize fuel keep memory values)) (hheap : s.heap.Heap)
    (h : Named precise s b) : ¬s.Stale types minSize b := by
  induction h with
  | global hw hb => exact fun hbad => (hstale _ hbad).1 _ hw hb
  | stack hw hb => exact fun hbad => (hstale _ hbad).2.1 _ hw hb
  | @word t b w ht hptr hw hb ih =>
    refine fun hbad => (hstale _ hbad).2.2 t ?_ hptr _ hw hb
    by_contra hfree
    obtain ⟨p, hp, -⟩ := ht.block
    refine ih ⟨hfree, p, hp, ?_, .inl hptr⟩
    cases hsizes : p.page.sizes with
    | none => rfl
    | some l => exact absurd ⟨p, hp, ht.allocated hp (hheap.ok t.1 p hp) hsizes⟩ hfree

theorem Inv.found (h : s.Inv) {minSize fuel : Nat} {memory : Bool} {values : Nat}
    (hstale : NoStale precise s (.liveInstances types minSize fuel keep memory values))
    (hmark : PinnedHeap.gcMark precise fuel keep s = some heap)
    (hb : b ∈ heap.lists.flatten.flatMap (collectLiveInstancePage types minSize heap)) :
    heap.HoldsAt b (heap.address b) := by
  obtain ⟨marked, hm, rfl⟩ := markedFrom_gcMark h.sound.heap hmark
  obtain ⟨id, -, hb⟩ := List.mem_flatMap.mp hb
  unfold collectLiveInstancePage at hb
  cases hp : (marked.releaseEmpty keep).pages[id]? with
  | none => rw [hp] at hb; cases hb
  | some p =>
    rw [hp] at hb
    simp only at hb
    split at hb
    · rename_i hkind
      obtain ⟨bid, hbid, rfl⟩ := List.mem_map.mp hb
      obtain ⟨hlt, hbid⟩ := List.mem_filter.mp hbid
      obtain ⟨hbit, hmin, htype⟩ := of_decide_eq_true hbid
      -- the page has its memory, so it is the one that was marked
      obtain ⟨p', hp', rfl | ⟨-, -, rfl⟩⟩ := page_releaseEmpty hp
      · obtain ⟨q, hq, heq⟩ := hm.page hp'
        have hnamed : Named precise s (id, bid) := by
          refine hm.named _ ?_
          unfold GcInc.bit
          rw [hp']
          exact hbit
        have hword : (marked.releaseEmpty keep).word (id, bid) 0 = s.heap.word (id, bid) 0 := by
          unfold GcInc.word
          rw [hp, hq, heq]
          show marked.mem _ _ = _
          rw [hm.traces.mem]
          rfl
        have hblock : ∃ block ∈ q.page.blocks, block.run.pos = bid := by
          cases hsizes : q.page.sizes with
          | some l => exact hnamed.allocated hq (h.sound.heap.ok id q hq) hsizes
          | none =>
            rw [heq] at hmin hkind
            unfold IncPage.blockBytes at hmin
            rw [hsizes] at hmin
            by_contra hfree
            refine hnamed.not_stale hstale h.sound.heap ⟨fun hblock => hfree ?_, q, hq, hsizes, .inr ⟨hkind.2, hmin, ?_⟩⟩
            · obtain ⟨q', hq', hblock⟩ := hblock
              cases hq.symm.trans hq'
              exact hblock
            · exact hword ▸ htype
        refine ⟨p, hp, hkind.1, ⟨?_, fun _ => hbit⟩, ?_⟩
        · rw [heq]
          exact hblock
        · unfold address
          rw [hp]
      · exact absurd rfl hkind.1
    · cases hb

/-- What the program may rely on in a step: the blocks of a report are allocated, and pinned from then
on, and no pinned block is handed out. -/
structure Law (s s' : PinnedHeap) (out : PinOutcome) : Prop where
  reported : ∀ b ∈ out.reported, Allocated s'.heap b ∧ Pinned s' b
  handed : ∀ id run, out.handed = some (id, run) → ∀ b, Pinned s b → b.1 = id →
    ∃ p, s.heap.pages[id]? = some p ∧ ∃ block ∈ p.page.blocks, block.run.pos = b.2 ∧ block.run.Apart run

theorem law_of_nothing (s s' : PinnedHeap) : Law s s' ⟨none, []⟩ :=
  ⟨fun _ hb => (nomatch hb), fun _ _ h => (nomatch h)⟩

theorem Inv.pinned_holds (h : s.Inv) (hb : Pinned s b) :
    ∃ p, s.heap.pages[b.1]? = some p ∧ p.Holds b.2 := by
  obtain ⟨addr, haddr, htarget⟩ := hb
  obtain ⟨b', hb'⟩ := h.pinned addr haddr
  cases htarget.symm.trans (h.laid.target h.sound.heap.ok hb')
  obtain ⟨p, hp, -, hholds, -⟩ := hb'
  exact ⟨p, hp, hholds⟩

theorem Inv.handed (h : s.Inv) {id : Nat} {run : Run} (hp : s.heap.pages[id]? = some p)
    (hapart : ∀ bid, p.Holds bid → ∃ b ∈ p.page.blocks, b.run.pos = bid ∧ b.run.Apart run) :
    Law s s' ⟨some (id, run), []⟩ := by
  refine ⟨fun _ hb => (nomatch hb), fun id' run' heq b hb hid => ?_⟩
  cases heq
  obtain ⟨p', hp', hholds⟩ := h.pinned_holds hb
  rw [hid] at hp'
  cases hp.symm.trans hp'
  exact ⟨p, hp, hapart b.2 hholds⟩

theorem Inv.taking (h : s.Inv) {id : Nat} {take : GcPage → Option (GcPage × Run)} (hsound : heap.Sound)
    (hnone : (s.heap.pages[id]?).bind (fun p => take p.page) = none → heap = s.heap)
    (hsome : ∀ p page run, s.heap.pages[id]? = some p → take p.page = some (page, run) → s.heap.Steady heap ∧
        ∀ bid, p.Holds bid → ∃ b ∈ p.page.blocks, b.run.pos = bid ∧ b.run.Apart run) :
    (s.setHeap heap).Inv ∧ Law s (s.setHeap heap)
      ⟨((s.heap.pages[id]?).bind fun p => (take p.page).map Prod.snd).map fun run => (id, run), []⟩ := by
  cases hp : s.heap.pages[id]? with
  | none =>
    rw [hnone (by rw [hp]; rfl)]
    exact ⟨h, law_of_nothing _ _⟩
  | some p =>
    rw [Option.bind_some]
    cases htake : take p.page with
    | none =>
      rw [hnone (by rw [hp]; exact htake)]
      exact ⟨h, law_of_nothing _ _⟩
    | some taken =>
      obtain ⟨hsteady, hapart⟩ := hsome p taken.1 taken.2 hp htake
      exact ⟨h.steady hsteady hsound, h.handed hp hapart⟩

theorem Inv.alloc (h : s.Inv) {id size : Nat}
    (hstep : PinnedHeap.step precise s (.alloc id size zero) = some (s', out)) : s'.Inv ∧ Law s s' out := by
  unfold PinnedHeap.step at hstep
  simp only at hstep
  split at hstep
  · cases hstep
    refine h.taking (h.sound.alloc id size zero) (fun hnone => ?_)
      fun p page run hp htake => steady_alloc h.sound hp htake
    unfold GcInc.alloc
    rw [hnone]
  · cases hstep
    exact ⟨h, law_of_nothing _ _⟩

theorem Inv.reserve (h : s.Inv) {id size : Nat}
    (hstep : PinnedHeap.step precise s (.reserve id size zero) = some (s', out)) :
    s'.Inv ∧ Law s s' out := by
  unfold PinnedHeap.step at hstep
  simp only at hstep
  split at hstep
  · cases hstep
    refine h.taking (h.sound.reserve id size zero) (fun hnone => ?_)
      fun p page run hp htake => steady_reserve h.sound hp htake
    unfold GcInc.reserve
    rw [hnone]
  · cases hstep
    exact ⟨h, law_of_nothing _ _⟩

theorem Inv.liveInstances (h : s.Inv) {minSize fuel : Nat} {memory : Bool} {values : Nat}
    (hstale : NoStale precise s (.liveInstances types minSize fuel keep memory values))
    (hstep : PinnedHeap.step precise s (.liveInstances types minSize fuel keep memory values) =
      some (s', out)) : s'.Inv ∧ Law s s' out := by
  obtain ⟨heap, hmark, heq⟩ := Option.map_eq_some_iff.mp hstep
  have hheap := h.gcMark hmark
  cases memory with
  | false =>
    cases heq
    exact ⟨hheap, law_of_nothing _ _⟩
  | true =>
    cases heq
    have hfound := fun b hb => h.found hstale hmark (b := b) hb
    refine ⟨⟨hheap.sound, hheap.laid, fun addr haddr => ?_⟩, ⟨fun b hb => ⟨?_, ?_⟩, fun _ _ h => (nomatch h)⟩⟩
    · rcases List.mem_append.mp haddr with haddr | haddr
      · obtain ⟨b, hb, rfl⟩ := List.mem_map.mp haddr
        exact ⟨b, hfound b hb⟩
      · exact hheap.pinned addr haddr
    · obtain ⟨p, hp, -, hholds, -⟩ := hfound b hb
      obtain ⟨block, hblock, hpos⟩ := hholds.block
      exact allocated_of_block hheap.sound.heap.ok hp hblock hpos
    · exact ⟨heap.address b, List.mem_append_left _ (List.mem_map_of_mem hb),
        hheap.laid.target hheap.sound.heap.ok (hfound b hb)⟩

theorem Inv.step (h : s.Inv) {e : PinEvent} (hstale : NoStale precise s e)
    (hstep : step precise s e = some (s', out)) : s'.Inv ∧ Law s s' out := by
  cases e with
  | store id i value =>
    cases hstep
    exact ⟨h.steady (steady_store _ _ _ _) (h.sound.store id i value), law_of_nothing _ _⟩
  | setRoots globals stackWords =>
    cases hstep
    exact ⟨⟨h.sound, h.laid, h.pinned⟩, law_of_nothing _ _⟩
  | alloc id size zero => exact h.alloc hstep
  | reserve id size zero => exact h.reserve hstep
  | newPage slot pid base size =>
    unfold PinnedHeap.step at hstep
    simp only at hstep
    split at hstep
    · rename_i hfree
      cases hstep
      exact ⟨h.newPage hfree, law_of_nothing _ _⟩
    · cases hstep
      exact ⟨h, law_of_nothing _ _⟩
  | slice env fuel keep =>
    have hslice := h.slice env
    unfold PinnedHeap.step at hstep
    simp only at hstep
    generalize s.rooted.slice env = r at hslice hstep
    cases r with
    | paused heap =>
      cases hstep
      exact ⟨hslice, law_of_nothing _ _⟩
    | published heap =>
      cases hstep
      exact ⟨hslice, law_of_nothing _ _⟩
    | failed heap =>
      obtain ⟨heap', hmark, heq⟩ := Option.map_eq_some_iff.mp hstep
      cases heq
      exact ⟨hslice.gcMark hmark, law_of_nothing _ _⟩
    | fatal => cases hstep
  | major fuel keep =>
    obtain ⟨heap, hmark, heq⟩ := Option.map_eq_some_iff.mp hstep
    cases heq
    exact ⟨h.gcMark hmark, law_of_nothing _ _⟩
  | sweep keep =>
    cases hstep
    exact ⟨h.releaseEmpty keep, law_of_nothing _ _⟩
  | liveInstances types minSize fuel keep memory values => exact h.liveInstances hstale hstep
  | liveInstancesRelease values =>
    unfold PinnedHeap.step at hstep
    simp only at hstep
    split at hstep
    · cases hstep
      refine ⟨⟨h.sound, h.laid, fun addr haddr => h.pinned addr ?_⟩, law_of_nothing _ _⟩
      obtain ⟨list, hlist, hmem⟩ := List.mem_flatMap.mp haddr
      exact List.mem_flatMap.mpr ⟨list, List.mem_of_mem_eraseP hlist, hmem⟩
    · cases hstep

theorem inv_start (slots : Nat) : (start slots).Inv where
  sound := .of_inactive ⟨fun _ _ hp => (nomatch hp), fun _ _ hp => (nomatch hp), fun _ hid => (nomatch hid)⟩ rfl
  laid := ⟨fun _ _ hp => (nomatch hp), fun _ _ _ _ hp => (nomatch hp)⟩
  pinned _ haddr := nomatch haddr

/-- The states of the runs in which there is no stale word at a report. -/
inductive Reachable (precise : List Nat → List Nat) : PinnedHeap → Prop where
  | start (slots : Nat) : Reachable precise (start slots)
  | step {s s' : PinnedHeap} {e : PinEvent} {out : PinOutcome} (hs : Reachable precise s)
      (hstale : NoStale precise s e) (hstep : PinnedHeap.step precise s e = some (s', out)) :
      Reachable precise s'

theorem Reachable.inv (h : Reachable precise s) : s.Inv := by
  induction h with
  | start slots => exact inv_start slots
  | step _ hstale hstep ih => exact (ih.step hstale hstep).1

/-- In every such run a report has only allocated blocks, and what it pins is not handed out. -/
theorem live_instances_kept (precise : List Nat → List Nat) {s s' : PinnedHeap} {e : PinEvent}
    {out : PinOutcome} (hs : Reachable precise s) (hstale : NoStale precise s e)
    (hstep : step precise s e = some (s', out)) : Law s s' out :=
  (hs.inv.step hstale hstep).2

def run (precise : List Nat → List Nat) : PinnedHeap → List PinEvent → Option PinnedHeap
  | s, [] => some s
  | s, e :: events => (step precise s e).bind fun r => run precise r.1 events

theorem Reachable.run {events : List PinEvent} (hs : Reachable precise s)
    (hstale : ∀ e ∈ events, ∀ s, NoStale precise s e) (hrun : run precise s events = some s') :
    Reachable precise s' := by
  induction events generalizing s with
  | nil =>
    cases hrun
    exact hs
  | cons e events ih =>
    obtain ⟨⟨t, out⟩, hstep, hrun⟩ := Option.bind_eq_some_iff.mp hrun
    exact ih (hs.step (hstale e List.mem_cons_self s) hstep)
      (fun e' he' => hstale e' (List.mem_cons_of_mem _ he')) hrun

theorem mem_collectLiveInstancePage {minSize id bid : Nat} (hp : heap.pages[id]? = some p)
    (hpage : p.size ≠ 0 ∧ (p.page.pid.kind = .dynamic ∨ p.page.pid.kind = .noptr))
    (hbid : bid < p.page.maxBlocks)
    (hlive : p.page.marked bid ∧ minSize ≤ p.blockBytes bid ∧ heap.word (id, bid) 0 ∈ types) :
    (id, bid) ∈ collectLiveInstancePage types minSize heap id := by
  unfold collectLiveInstancePage
  rw [hp]
  simp only
  rw [if_pos hpage]
  exact List.mem_map.mpr ⟨bid, List.mem_filter.mpr ⟨List.mem_range.mpr hbid, decide_eq_true hlive⟩, rfl⟩

def twoBlocks : List PinEvent :=
  [.newPage 0 ⟨0, 4, .dynamic⟩ 65536 65536, .alloc 0 40 true, .alloc 0 40 true, .store 0 5 7]

def report : PinEvent := .liveInstances [7] 40 5 (fun _ => true) true 1

def showsSecond (heap : GcInc) (p : IncPage) : Bool :=
  heap.lists = [[0]] ∧ p.size ≠ 0 ∧ p.page.pid.kind = .dynamic ∧ 1 < p.page.maxBlocks ∧
    p.page.marked 1 ∧ 40 ≤ p.blockBytes 1 ∧ heap.word (0, 1) 0 = 7

theorem reported_second (hmark : gcMark precise 5 (fun _ => true) s = some heap)
    (hp : heap.pages[0]? = some p) (hshows : showsSecond heap p = true) :
    ∃ s' out, step precise s report = some (s', out) ∧ s'.heap = heap ∧ (0, 1) ∈ out.reported := by
  obtain ⟨hlists, hsize, hkind, hbid, hmarked, hmin, htype⟩ := of_decide_eq_true hshows
  refine ⟨_, _, Option.map_eq_some_iff.mpr ⟨heap, hmark, rfl⟩, rfl, ?_⟩
  show (0, 1) ∈ heap.lists.flatten.flatMap (collectLiveInstancePage [7] 40 heap)
  rw [hlists]
  refine List.mem_flatMap.mpr ⟨0, List.mem_singleton_self 0, ?_⟩
  refine mem_collectLiveInstancePage hp ⟨hsize, .inl hkind⟩ hbid ⟨hmarked, hmin, ?_⟩
  rw [htype]
  exact List.mem_singleton_self 7

def liveRun : List PinEvent := twoBlocks ++ [.setRoots [65576] []]

def noStaleWord (s : PinnedHeap) : Bool :=
  s.globals = [65576] ∧ s.pins ++ s.stackWords = [] ∧ target s.heap.shapes false 65576 = some (0, 1) ∧
    (s.heap.pages[0]?).any (fun p => p.page.blocks.any fun block => block.run.pos = 1) ∧
    s.heap.pages.length = 1 ∧ (s.heap.pages[0]?).all fun p => p.page.blocks.all fun block =>
      (s.heap.scanned id (0, block.run.pos)).all fun w => target s.heap.shapes false w = none

theorem noStale_of_noStaleWord (h : noStaleWord s = true) : NoStale id s report := by
  obtain ⟨hglobals, hstack, htarget, hsecond, hlength, hwords⟩ := of_decide_eq_true h
  refine fun b hbad => ⟨fun w hw hb => hbad.free ?_, fun w hw => ?_, ?_⟩
  · rw [hglobals, List.mem_singleton] at hw
    rw [hw, htarget] at hb
    cases hb
    obtain ⟨p, hp, hany⟩ := (Option.any_eq_true _ _).mp hsecond
    obtain ⟨block, hmem, hpos⟩ := List.any_eq_true.mp hany
    exact ⟨p, hp, block, hmem, of_decide_eq_true hpos⟩
  · rw [hstack] at hw
    cases hw
  · rintro ⟨id, bid⟩ ⟨p, hp, block, hmem, rfl⟩ - w hw hb
    have hid : id = 0 := by
      have hlt := (List.getElem?_eq_some_iff.mp hp).1
      rw [hlength] at hlt
      exact Nat.lt_one_iff.mp hlt
    subst hid
    rw [hp] at hwords
    have hnone := of_decide_eq_true (List.all_eq_true.mp (List.all_eq_true.mp hwords _ hmem) _ hw)
    cases hnone.symm.trans hb

def marksSecond (s : PinnedHeap) : Bool :=
  (gcMark id 5 (fun _ => true) s).any fun heap => (heap.pages[0]?).any (showsSecond heap)

theorem report_of_marksSecond (h : marksSecond s = true) :
    ∃ s' out, step id s report = some (s', out) ∧ gcMark id 5 (fun _ => true) s = some s'.heap ∧
      (0, 1) ∈ out.reported := by
  obtain ⟨heap, hmark, h⟩ := (Option.any_eq_true _ _).mp h
  obtain ⟨p, hp, hshows⟩ := (Option.any_eq_true _ _).mp h
  obtain ⟨s', out, hstep, rfl, hmem⟩ := reported_second hmark hp hshows
  exact ⟨s', out, hstep, hmark, hmem⟩

theorem live_instances_kept_liveRun : ∃ s s' out, run id (start 1) liveRun = some s ∧
    step id s report = some (s', out) ∧ (0, 1) ∈ out.reported ∧ Law s s' out := by
  have hrun : (run id (start 1) liveRun).any (fun s => noStaleWord s && marksSecond s) = true := by
    decide +kernel
  obtain ⟨s, hs, h⟩ := (Option.any_eq_true _ _).mp hrun
  obtain ⟨hclean, hmarks⟩ := Bool.and_eq_true_iff.mp h
  obtain ⟨s', out, hstep, -, hmem⟩ := report_of_marksSecond hmarks
  have hreach : Reachable id s := by
    refine (Reachable.start 1).run (fun e he t => ?_) hs
    simp only [liveRun, twoBlocks, List.cons_append, List.nil_append, List.mem_cons,
      List.not_mem_nil, or_false] at he
    rcases he with rfl | rfl | rfl | rfl | rfl <;> trivial
  exact ⟨s, s', out, hs, hstep, hmem, live_instances_kept id hreach (noStale_of_noStaleWord hclean) hstep⟩

/-- Both blocks die, the next allocation takes the place of the first, and a stack still has a word
that names the second. -/
def staleRun : List PinEvent :=
  twoBlocks ++ [.major 5 fun _ => true, .alloc 0 40 true, .setRoots [] [65576]]

def secondFree (s : PinnedHeap) : Bool :=
  (gcMark id 5 (fun _ => true) s).all fun heap => (heap.pages[0]?).any fun p =>
    p.page.pid.part < gcLargePart ∧ p.page.runs.any fun r => r.Has 1

/-- The report of that heap has a block of the free list. -/
theorem stale_word_reports_free_block : ¬ ∀ events s s' e out, run id (start 1) events = some s →
    step id s e = some (s', out) → Law s s' out := by
  intro hlaw
  have hrun : (run id (start 1) staleRun).any (fun s => secondFree s && marksSecond s) = true := by
    decide +kernel
  obtain ⟨s, hs, h⟩ := (Option.any_eq_true _ _).mp hrun
  obtain ⟨hfree, hmarks⟩ := Bool.and_eq_true_iff.mp h
  obtain ⟨s', out, hstep, hmark, hmem⟩ := report_of_marksSecond hmarks
  have hallocated := ((hlaw staleRun s s' report out hs hstep).reported (0, 1) hmem).1
  unfold secondFree at hfree
  rw [hmark] at hfree
  obtain ⟨p, hp, h⟩ := (Option.any_eq_true _ _).mp hfree
  obtain ⟨hpart, hruns⟩ := of_decide_eq_true h
  obtain ⟨r, hr, hhas⟩ := List.any_eq_true.mp hruns
  exact hallocated.notFree p hp hpart r hr (of_decide_eq_true hhas)

end PinnedHeap

end HashLink.Gc
