import HashLink.Gc.ClassMarks

/-! The scans of the heap that a patch makes before it commits: for the closures with given code, and
for what holds an address. Each is a full mark, and a walk over the blocks that got their mark. A scan
finds what it looks for wherever marking comes to it, and leaves the same blocks reachable. -/

namespace HashLink.Gc

open GcInc

/-- What `hl_gc_live_closures` looks for: code addresses, and the range of the module's types. `isFun`
says that the type at an address has kind `HFUN`. -/
structure LiveClosures where
  funs : List Nat
  typesLo : Nat
  typesHi : Nat
  isFun : Nat → Bool

/-- `sizeof(vclosure)`: the words are `t`, `fun`, `hasValue` with the field after it, and `value`. -/
def sizeofClosure : Nat := 32

namespace GcInc

/-- `gc_collect_live_closure`. -/
def collectLiveClosure (q : LiveClosures) (s : GcInc) (p : IncPage) (b : BlockRef) : Bool :=
  sizeofClosure ≤ p.blockBytes b.2 ∧ s.word b 1 ∈ q.funs ∧
    if p.page.pid.kind = .noptr then
      s.word b 2 % 2 ^ 32 = 0 ∧ s.word b 3 = 0 ∧ q.typesLo ≤ s.word b 0 ∧ s.word b 0 < q.typesHi
    else s.word b 0 ≠ 0 ∧ q.isFun (s.word b 0) = true

/-- `gc_collect_live_closure_page`. -/
def collectLiveClosurePage (q : LiveClosures) (s : GcInc) (id : Nat) : List BlockRef :=
  match s.pages[id]? with
  | none => []
  | some p =>
    if p.size ≠ 0 ∧ (p.page.pid.kind = .dynamic ∨ p.page.pid.kind = .noptr) then
      ((List.range p.page.maxBlocks).filter fun bid =>
        p.page.marked bid && collectLiveClosure q s p (id, bid)).map fun bid => (id, bid)
    else []

/-- `gc_find_referrer_block`: where the block has the address. -/
def findReferrerBlock (value : Nat) (skip : Option BlockRef) (s : GcInc) (p : IncPage) (b : BlockRef) :
    Option (BlockRef × Nat) :=
  if skip = some b then none
  else ((List.range (p.blockBytes b.2 / 8)).find? fun i => s.word b i = value).map fun i => (b, i)

/-- `gc_find_referrer_page`. -/
def findReferrerPage (value : Nat) (skip : Option BlockRef) (s : GcInc) (id : Nat) :
    Option (BlockRef × Nat) :=
  match s.pages[id]? with
  | none => none
  | some p =>
    if p.size ≠ 0 ∧ p.page.pid.kind ≠ .noptr then
      ((List.range p.page.maxBlocks).filter p.page.marked).findSome? fun bid =>
        findReferrerBlock value skip s p (id, bid)
    else none

end GcInc

/-- What a scan meets: the fuel of its mark, the pages a sweep keeps, whether there is memory for the
array of what it finds, with its address, and the words of the frames of the scan itself. -/
structure ScanEnv where
  fuel : Nat
  keep : Nat → Bool
  memory : Bool
  values : Nat
  own : List Nat

/-- Where `hl_gc_root_holder` finds an address: 0, 1 or 2. -/
inductive RootHolder where
  | nowhere
  | root
  | thread
  deriving DecidableEq, Repr

namespace PinnedHeap

variable (precise : List Nat → List Nat)

/-- The heap as a scan sees it, with its own frames on the stack. -/
def within (s : PinnedHeap) (env : ScanEnv) : PinnedHeap :=
  { s with stackWords := s.stackWords ++ env.own }

def liveClosures (q : LiveClosures) (heap : GcInc) : List BlockRef :=
  heap.lists.flatten.flatMap (collectLiveClosurePage q heap)

/-- `hl_gc_live_closures`. There is no list when it returns -1. -/
def hlGcLiveClosures (q : LiveClosures) (env : ScanEnv) (s : PinnedHeap) :
    Option (PinnedHeap × Option (List BlockRef)) :=
  (gcMark precise env.fuel env.keep (s.within env)).map fun heap =>
    let found := liveClosures q heap
    if env.memory then
      ({ s with heap, pinned := (env.values, found.map heap.address) :: s.pinned }, some found)
    else (s.setHeap heap, none)

/-- `hl_gc_find_referrer`, none when its mark does not end. -/
def hlGcFindReferrer (value : Nat) (skip : Option BlockRef) (env : ScanEnv) (s : PinnedHeap) :
    Option (PinnedHeap × Option (BlockRef × Nat)) :=
  (gcMark precise env.fuel env.keep (s.within env)).map fun heap =>
    (s.setHeap heap, heap.lists.flatten.findSome? (findReferrerPage value skip heap))

def hlGcLiveInstancesRelease (values : Nat) (s : PinnedHeap) : PinnedHeap :=
  { s with pinned := s.pinned.eraseP fun list => list.1 = values }

def hlGcRootHolder (value : Nat) (s : PinnedHeap) : RootHolder :=
  if value ∈ s.globals then .root else if value ∈ s.stackWords then .thread else .nowhere

variable {precise} {s s' : PinnedHeap} {heap : GcInc}

/-- What a full mark leaves of a heap: its marks, and the words of all blocks. -/
structure Scanned (precise : List Nat → List Nat) (s : PinnedHeap) (heap : GcInc) : Prop where
  mark : FullMark precise s heap
  word : ∀ b i, heap.word b i = s.heap.word b i

theorem scanned_gcMark (hheap : s.heap.Heap) (hlaid : s.heap.Laid) {fuel : Nat} {keep : Nat → Bool}
    (hmark : gcMark precise fuel keep s = some heap) : Scanned precise s heap := by
  refine ⟨fullMark_gcMark hheap hlaid hmark, fun b i => ?_⟩
  obtain ⟨marked, hm, rfl⟩ := markedFrom_gcMark hheap hmark
  rw [(drops_releaseEmpty marked keep).word]
  unfold GcInc.word
  cases hq : s.heap.pages[b.1]? with
  | none =>
    cases hp : marked.pages[b.1]? with
    | none => rfl
    | some p =>
      obtain ⟨q, hq', -⟩ := hm.page hp
      cases hq.symm.trans hq'
  | some q =>
    obtain ⟨p, hp, heq⟩ := hm.page_of hq
    rw [hp, heq]
    show marked.mem _ _ = _
    rw [hm.traces.mem]
    rfl

variable {b : BlockRef}

theorem FullMark.page_of_bit (h : FullMark precise s heap) (hb : Named precise s b) :
    ∃ p p', s.heap.pages[b.1]? = some p ∧ heap.pages[b.1]? = some p' ∧ p.size ≠ 0 ∧
      Shape.Block p.shape b.2 ∧ p'.page.marked b.2 = true ∧ p'.page.pid = p.page.pid ∧
      p'.shape = p.shape := by
  obtain ⟨p, hp, hsize, hblock⟩ := hb.memory
  have hbit := (h.bits b).mpr hb
  unfold GcInc.bit at hbit
  cases hp' : heap.pages[b.1]? with
  | none => rw [hp'] at hbit; cases hbit
  | some p' =>
    rw [hp'] at hbit
    obtain ⟨q, hq, hpid, hshape, hcase⟩ := h.page b.1 p' hp'
    cases hp.symm.trans hq
    have hblock' : Shape.Block p'.shape b.2 := by
      rw [hshape]
      exact ⟨hblock.bound, hblock.start⟩
    have hsame : p'.size = p.size := by
      refine hcase.resolve_right fun hempty => ?_
      have hnot := isEmpty_of_marked ((h.idle.heap.ok b.1 p' hp').first_le hblock') hbit
      cases hnot.symm.trans hempty.2
    refine ⟨p, p', hp, rfl, hsize, hblock, hbit, hpid, ?_⟩
    rw [hshape, hsame]
    rfl

theorem FullMark.target (h : FullMark precise s heap) (hb : Named precise s b) {interior : Bool} {w : Nat}
    (ht : target s.heap.shapes interior w = some b) :
    target heap.shapes interior w = some b := by
  obtain ⟨p, p', hp, hp', hsize, -, -, -, hshape⟩ := h.page_of_bit hb
  obtain ⟨shape, hpage, hshapes, -, hid⟩ := target_eq_some ht
  obtain ⟨shape', hshapes', hlo, hhi, -⟩ := inPage_of_target ht
  cases hshapes.symm.trans hshapes'
  rw [getElem?_shapes, hp] at hshapes
  cases hshapes
  have hbase : p'.base = p.base := congrArg Shape.base hshape
  have hsize' : p'.size = p.size := congrArg Shape.size hshape
  have hlo : p'.base ≤ w := by
    rw [hbase]
    exact hlo
  have hhi : w < p'.base + p'.size := by
    rw [hbase, hsize']
    exact hhi
  have hget := h.laid.getPage hp' (hsize'.trans_ne hsize) hlo hhi
  unfold GcInc.target
  rw [hget, Option.bind_some, getElem?_shapes, hp', Option.map_some, Option.bind_some, hshape, hid]
  rfl

theorem Named.within (hb : Named precise s b) (env : ScanEnv) :
    Named precise (s.within env) b := by
  induction hb with
  | global hw ht => exact .global hw ht
  | @stack w b hw ht =>
    refine .stack ?_ ht
    rcases List.mem_append.mp hw with hpin | hword
    · exact List.mem_append_left _ hpin
    · exact List.mem_append_right _ (List.mem_append_left _ hword)
  | word _ hptr hw ht ih => exact .word ih hptr hw ht

theorem FullMark.survives {env : ScanEnv} (h : FullMark precise (s.within env) heap)
    {pinned : List (Nat × List Nat)} (hpins : s.pins ⊆ pinned.flatMap fun list => list.2)
    (hb : Named precise s b) : Named precise { s with heap, pinned } b := by
  induction hb with
  | global hw ht => exact .global hw (h.target (Named.within (.global hw ht) env) ht)
  | @stack w b hw ht =>
    refine .stack ?_ (h.target (Named.within (.stack hw ht) env) ht)
    rcases List.mem_append.mp hw with hpin | hword
    · exact List.mem_append_left _ (hpins hpin)
    · exact List.mem_append_right _ hword
  | @word c t w hc hptr hw ht ih =>
    obtain ⟨p, p', hp, hp', -, -, -, -, hshape⟩ := h.page_of_bit (hc.within env)
    obtain ⟨q, hq, hhas⟩ := hptr
    cases hp.symm.trans hq
    refine .word ih ⟨p', hp', ?_⟩ ?_ (h.target (Named.within (.word hc ⟨p, hp, hhas⟩ hw ht) env) ht)
    · rw [hshape]
      exact hhas
    · rw [h.shrinks.scanned]
      exact hw

theorem Scanned.page_of (h : Scanned precise s heap) (hb : Named precise s b) :
    ∃ p p', s.heap.pages[b.1]? = some p ∧ heap.pages[b.1]? = some p' ∧ b.1 ∈ heap.lists.flatten ∧
      p'.size ≠ 0 ∧ b.2 < p'.page.maxBlocks ∧ p'.page.marked b.2 = true ∧
      p'.page.pid = p.page.pid ∧ p'.blockBytes b.2 = p.blockBytes b.2 := by
  obtain ⟨p, p', hp, hp', hsize, hblock, hmarked, hpid, hshape⟩ := h.mark.page_of_bit hb
  have hlisted : b.1 ∈ heap.lists.flatten :=
    List.mem_flatten.mpr (h.mark.idle.heap.listed b.1 (List.getElem?_eq_some_iff.mp hp').1)
  have hbytes : p'.blockBytes b.2 = p.blockBytes b.2 := by
    have hsizes : p'.page.sizes = p.page.sizes := congrArg Shape.sizes hshape
    have hblockSize : p'.page.blockSize = p.page.blockSize := congrArg Shape.blockSize hshape
    unfold IncPage.blockBytes
    rw [hsizes, hblockSize]
  have hsize' : p'.size = p.size := congrArg Shape.size hshape
  have hmax : p'.page.maxBlocks = p.page.maxBlocks := congrArg Shape.maxBlocks hshape
  exact ⟨p, p', hp, hp', hlisted, hsize'.trans_ne hsize, hmax ▸ hblock.bound, hmarked, hpid, hbytes⟩

theorem Scanned.closure_found (h : Scanned precise s heap) {q : LiveClosures} (hb : Named precise s b)
    {p : IncPage} (hp : s.heap.pages[b.1]? = some p)
    (hkind : p.page.pid.kind = .dynamic ∨ p.page.pid.kind = .noptr)
    (hclosure : collectLiveClosure q s.heap p b = true) : b ∈ liveClosures q heap := by
  obtain ⟨p₀, p', hp₀, hp', hlisted, hsize, hbound, hmarked, hpid, hbytes⟩ := h.page_of hb
  cases hp.symm.trans hp₀
  have hclosure' : collectLiveClosure q heap p' b = true := by
    unfold collectLiveClosure at hclosure ⊢
    simp only [h.word, hbytes, hpid]
    exact hclosure
  refine List.mem_flatMap.mpr ⟨b.1, hlisted, ?_⟩
  unfold collectLiveClosurePage
  rw [hp']
  simp only
  rw [if_pos ⟨hsize, by rw [hpid]; exact hkind⟩]
  refine List.mem_map.mpr ⟨b.2, List.mem_filter.mpr ⟨List.mem_range.mpr hbound, ?_⟩, rfl⟩
  rw [hmarked]
  exact hclosure'

theorem Scanned.referrer_found (h : Scanned precise s heap) (hb : Named precise s b) {p : IncPage}
    (hp : s.heap.pages[b.1]? = some p) (hkind : p.page.pid.kind ≠ .noptr) {i : Nat}
    (hi : i < p.blockBytes b.2 / 8) :
    (heap.lists.flatten.findSome? (findReferrerPage (s.heap.word b i) none heap)).isSome = true := by
  obtain ⟨p₀, p', hp₀, hp', hlisted, hsize, hbound, hmarked, hpid, hbytes⟩ := h.page_of hb
  cases hp.symm.trans hp₀
  rw [List.findSome?_isSome_iff]
  refine ⟨b.1, hlisted, ?_⟩
  unfold findReferrerPage
  rw [hp']
  simp only
  rw [if_pos ⟨hsize, by rw [hpid]; exact hkind⟩, List.findSome?_isSome_iff]
  refine ⟨b.2, List.mem_filter.mpr ⟨List.mem_range.mpr hbound, hmarked⟩, ?_⟩
  unfold findReferrerBlock
  rw [if_neg (by simp), Option.isSome_map, List.find?_isSome]
  refine ⟨i, List.mem_range.mpr (hbytes ▸ hi), ?_⟩
  rw [h.word]
  exact decide_eq_true rfl

/-- What a sequence of scans leaves of a heap: the roots, the words of all blocks, and the reachable
blocks, on pages of the same kind. -/
structure Follows (precise : List Nat → List Nat) (s s' : PinnedHeap) : Prop where
  heap : s'.heap.Heap
  laid : s'.heap.Laid
  globals : s'.globals = s.globals
  stackWords : s'.stackWords = s.stackWords
  named : ∀ b, Named precise s b → Named precise s' b
  word : ∀ b i, s'.heap.word b i = s.heap.word b i
  page : ∀ b, Named precise s b → ∀ p, s.heap.pages[b.1]? = some p → ∃ p',
    s'.heap.pages[b.1]? = some p' ∧ p'.page.pid = p.page.pid ∧ p'.blockBytes b.2 = p.blockBytes b.2

theorem Follows.refl (hheap : s.heap.Heap) (hlaid : s.heap.Laid) : Follows precise s s :=
  ⟨hheap, hlaid, rfl, rfl, fun _ hb => hb, fun _ _ => rfl, fun _ _ p hp => ⟨p, hp, rfl, rfl⟩⟩

theorem Scanned.follows {env : ScanEnv} (h : Scanned precise (s.within env) heap) :
    Follows precise s (s.setHeap heap) where
  heap := h.mark.idle.heap
  laid := h.mark.laid
  globals := rfl
  stackWords := rfl
  named _ hb := h.mark.survives (fun _ hw => hw) hb
  word b i := h.word b i
  page b hb p hp := by
    obtain ⟨p₀, p', hp₀, hp', -, -, -, -, hpid, hbytes⟩ := h.page_of (hb.within env)
    cases hp.symm.trans hp₀
    exact ⟨p', hp', hpid, hbytes⟩

theorem scanned_within (hheap : s.heap.Heap) (hlaid : s.heap.Laid) {env : ScanEnv}
    (hmark : gcMark precise env.fuel env.keep (s.within env) = some heap) :
    Scanned precise (s.within env) heap :=
  have hheap' : (s.within env).heap.Heap := hheap
  scanned_gcMark hheap' hlaid hmark

theorem release_eq (values : Nat) (found : List Nat) (s : PinnedHeap) :
    hlGcLiveInstancesRelease values { s with pinned := (values, found) :: s.pinned } = s := by
  unfold hlGcLiveInstancesRelease
  simp only [List.eraseP_cons, decide_true, cond_true]

end PinnedHeap

end HashLink.Gc
