import Mathlib.Data.List.Nodup
import Mathlib.Algebra.Group.Int.Units

/-!
The map from addresses to pages, and the write barrier that uses it. A hash of the address selects the slot, and a page
whose slots are taken is not used, so that a slot has at most one live page; the lookup checks the bounds of the page
it finds. This is the map of 64-bit systems.
-/

namespace HashLink.PageMap

inductive Platform where
  | windows
  | posix

def gcHash : Platform → BitVec 64 → BitVec 64
  | .windows, ptr => ptr &&& 0x0000000FFFFFFFFF
  | .posix, v => (v ^^^ (v.sshiftRight 33 <<< 28)) &&& 0x0000000FFFFFFFFF

/-- A size of a page: `gc_allocator_new_page` asks for a number of units of 64 KB, which is an `int`. -/
structure PageSize where
  bytes : Nat
  units : bytes % 65536 = 0
  pos : 0 < bytes
  int : bytes < 2 ^ 31
  deriving DecidableEq

/-- What `gc_alloc_page_memory` returns: a mapping in the address space. -/
structure PageMemory (size : PageSize) where
  base : BitVec 64
  inside : base.toNat + size.bytes ≤ 2 ^ 64

structure GcPheader where
  base : BitVec 64
  pageSize : PageSize
  pageKind : Nat
  aligned : base.toNat % 65536 = 0
  inside : base.toNat + pageSize.bytes ≤ 2 ^ 64
  deriving DecidableEq

/-- `hl_gc_page_map`. The second level is missing where `gc_level1_null` stands. -/
abbrev GcPageMap := Nat → Option (Nat → Option GcPheader)

variable (pf : Platform)

def level0 (ptr : BitVec 64) : Nat := (gcHash pf ptr >>> 26).toNat

def level1 (ptr : BitVec 64) : Nat := (gcHash pf ptr >>> 16 &&& 1023).toNat

def gcGetPage (m : GcPageMap) (ptr : BitVec 64) : Option GcPheader :=
  (m (level0 pf ptr)).bind fun level => level (level1 pf ptr)

def unitsOf (base : BitVec 64) (size : PageSize) : List (BitVec 64) :=
  (List.range (size.bytes >>> 16)).map fun i => base + BitVec.ofNat 64 (i <<< 16)

def gcWillCollide (m : GcPageMap) (base : BitVec 64) (size : PageSize) : Bool :=
  (unitsOf base size).any fun ptr => (gcGetPage pf m ptr).isSome

def register (p : GcPheader) (m : GcPageMap) (ptr : BitVec 64) : GcPageMap :=
  Function.update m (level0 pf ptr)
    (some (Function.update ((m (level0 pf ptr)).getD fun _ => none) (level1 pf ptr) (some p)))

/-- One turn of the loop of `gc_free_page`. -/
def unregister (m : GcPageMap) (ptr : BitVec 64) : GcPageMap :=
  match m (level0 pf ptr) with
  | none => m
  | some level => Function.update m (level0 pf ptr) (some (Function.update level (level1 pf ptr) none))

/-- `gc_alloc_page`, with the mappings that the system gives one after the other. There is no result when it has no
more, or when one is not aligned. -/
def gcAllocPage (m : GcPageMap) (size : PageSize) (kind : Nat) :
    List (PageMemory size) → Option (GcPageMap × GcPheader)
  | [] => none
  | memory :: rest =>
    if gcWillCollide pf m memory.base size then gcAllocPage m size kind rest
    else if h : memory.base.toNat % 65536 = 0 then
      let p : GcPheader := ⟨memory.base, size, kind, h, memory.inside⟩
      some ((unitsOf memory.base size).foldl (register pf p) m, p)
    else none

def gcFreePage (m : GcPageMap) (ph : GcPheader) : GcPageMap := (unitsOf ph.base ph.pageSize).foldl (unregister pf) m

def InPage (ptr : BitVec 64) (page : GcPheader) : Prop :=
  page.base.toNat ≤ ptr.toNat ∧ ptr.toNat < page.base.toNat + page.pageSize.bytes

instance (ptr : BitVec 64) (page : GcPheader) : Decidable (InPage ptr page) := inferInstanceAs (Decidable (_ ∧ _))

def hlGcGetPage (m : GcPageMap) (v : BitVec 64) : Option GcPheader :=
  match gcGetPage pf m v with
  | some page => if InPage v page then some page else none
  | none => none

/-- The maps after any allocations and releases, with the pages that are live. -/
inductive Reach : GcPageMap → List GcPheader → Prop
  | start : Reach (fun _ => none) []
  | alloc {m m' : GcPageMap} {live : List GcPheader} {p : GcPheader} (size : PageSize) (kind : Nat)
      (memory : List (PageMemory size)) (h : Reach m live) (halloc : gcAllocPage pf m size kind memory = some (m', p)) :
      Reach m' (p :: live)
  | free {m : GcPageMap} {live : List GcPheader} {p : GcPheader} (h : Reach m live) (hp : p ∈ live) :
      Reach (gcFreePage pf m p) (live.erase p)

def memHasPtr (kind : Nat) : Bool := kind &&& 2 = 0

/-- The pages that were written to: those that came in, and those that the collector has taken over and not yet
scanned. -/
structure DirtyQueue where
  softwareDirty : GcPheader → Bool
  head : List GcPheader
  batch : List GcPheader
  count : Nat
  scanProfile : Bool
  sources : GcPheader → Nat
  queued : ∀ p, softwareDirty p = true → p ∈ head ++ batch

def gcDirtyEnqueueSource (q : DirtyQueue) (p : GcPheader) (source : Nat) : DirtyQueue :=
  let sources := if q.scanProfile ∧ memHasPtr p.pageKind then Function.update q.sources p (q.sources p ||| source)
    else q.sources
  if !memHasPtr p.pageKind || q.softwareDirty p then { q with sources }
  else { q with
    sources
    softwareDirty := Function.update q.softwareDirty p true
    head := p :: q.head
    count := q.count + 1
    queued := by
      intro p' hp'
      by_cases heq : p' = p
      · exact heq ▸ List.mem_cons_self
      · rw [Function.update_of_ne heq] at hp'
        exact List.mem_cons_of_mem _ (q.queued p' hp') }

/-- `hl_gc_write_barrier` at one address: the page it looks at. -/
def barrierPage (m : GcPageMap) (ptr : BitVec 64) (q : DirtyQueue) : DirtyQueue :=
  match gcGetPage pf m ptr with
  | some p => if InPage ptr p ∧ memHasPtr p.pageKind then gcDirtyEnqueueSource q p 1 else q
  | none => q

/-- The loop of `hl_gc_write_barrier`, from `first` to `last`. -/
def barrierLoop (m : GcPageMap) (last first : Nat) (q : DirtyQueue) : DirtyQueue :=
  let q := barrierPage pf m (BitVec.ofNat 64 first) q
  if first >>> 16 = last >>> 16 then q
  else if first >>> 16 < last >>> 16 then barrierLoop m last ((first >>> 16 + 1) <<< 16) q
  else q
termination_by last >>> 16 - first >>> 16
decreasing_by
  rw [Nat.shiftLeft_shiftRight]
  omega

def hlGcWriteBarrier (m : GcPageMap) (active : Bool) (q : DirtyQueue) (address bytes : BitVec 64) : DirtyQueue :=
  if !active || bytes = 0 then q
  else
    let first := address.toNat
    let last := (address + bytes - 1).toNat
    if last < first then q else barrierLoop pf m last first q

def SameSlot (v w : BitVec 64) : Prop := level0 pf v = level0 pf w ∧ level1 pf v = level1 pf w

theorem gcHash_unit {v w : BitVec 64} (h : v >>> 16 = w >>> 16) : gcHash pf v >>> 16 = gcHash pf w >>> 16 := by
  have hbit : ∀ i, 16 ≤ i → v.getLsbD i = w.getLsbD i := by
    intro i hi
    have hshift := congrArg (fun x : BitVec 64 => x.getLsbD (i - 16)) h
    simp only [BitVec.getLsbD_ushiftRight] at hshift
    rwa [show 16 + (i - 16) = i by omega] at hshift
  have hmsb : v.msb = w.msb := by
    rw [BitVec.msb_eq_getLsbD_last, BitVec.msb_eq_getLsbD_last]
    exact hbit 63 (by decide)
  refine BitVec.eq_of_getLsbD_eq fun i hi => ?_
  cases pf with
  | windows =>
    simp only [gcHash, BitVec.getLsbD_ushiftRight, BitVec.getLsbD_and]
    rw [hbit (16 + i) (by omega)]
  | posix =>
    simp only [gcHash, BitVec.getLsbD_ushiftRight, BitVec.getLsbD_and, BitVec.getLsbD_xor, BitVec.getLsbD_shiftLeft,
      BitVec.getLsbD_sshiftRight, hmsb]
    rw [hbit (16 + i) (by omega)]
    by_cases hlow : 16 + i < 28
    · simp [hlow]
    · rw [hbit (33 + (16 + i - 28)) (by omega)]

theorem sameSlot_of_unit {v w : BitVec 64} (h : v.toNat / 65536 = w.toNat / 65536) : SameSlot pf v w := by
  have hshift : v >>> 16 = w >>> 16 := by
    apply BitVec.eq_of_toNat_eq
    rw [BitVec.toNat_ushiftRight, BitVec.toNat_ushiftRight, Nat.shiftRight_eq_div_pow, Nat.shiftRight_eq_div_pow]
    exact h
  have hhash := gcHash_unit pf hshift
  have hhigh (x : BitVec 64) : x >>> 26 = (x >>> 16) >>> 10 := BitVec.shiftRight_add x 16 10
  refine ⟨?_, ?_⟩
  · rw [level0, level0, hhigh, hhigh (gcHash pf w), hhash]
  · rw [level1, level1, hhash]

section Map

variable {pf} {m m' : GcPageMap} {live : List GcPheader} {p q : GcPheader} {v u ptr : BitVec 64} {l : List (BitVec 64)}

theorem gcGetPage_register (p : GcPheader) (m : GcPageMap) (u ptr : BitVec 64) :
    (SameSlot pf u ptr → gcGetPage pf (register pf p m u) ptr = some p) ∧
      (¬SameSlot pf u ptr → gcGetPage pf (register pf p m u) ptr = gcGetPage pf m ptr) := by
  unfold gcGetPage register SameSlot
  by_cases h0 : level0 pf ptr = level0 pf u
  · rw [h0, Function.update_self, Option.bind_some]
    by_cases h1 : level1 pf ptr = level1 pf u
    · rw [h1, Function.update_self]
      exact ⟨fun _ => rfl, fun hnot => absurd ⟨rfl, rfl⟩ hnot⟩
    · rw [Function.update_of_ne h1]
      refine ⟨fun h => absurd h.2.symm h1, fun _ => ?_⟩
      cases m (level0 pf u) <;> rfl
  · rw [Function.update_of_ne h0]
    exact ⟨fun h => absurd h.1.symm h0, fun _ => rfl⟩

theorem gcGetPage_unregister (m : GcPageMap) (u ptr : BitVec 64) :
    (SameSlot pf u ptr → gcGetPage pf (unregister pf m u) ptr = none) ∧
      (¬SameSlot pf u ptr → gcGetPage pf (unregister pf m u) ptr = gcGetPage pf m ptr) := by
  unfold gcGetPage unregister SameSlot
  cases hlevel : m (level0 pf u) with
  | none =>
    dsimp only
    exact ⟨fun h => by rw [← h.1, hlevel]; rfl, fun _ => rfl⟩
  | some level =>
    dsimp only
    by_cases h0 : level0 pf ptr = level0 pf u
    · rw [h0, Function.update_self, Option.bind_some, hlevel, Option.bind_some]
      by_cases h1 : level1 pf ptr = level1 pf u
      · rw [h1, Function.update_self]
        exact ⟨fun _ => rfl, fun hnot => absurd ⟨rfl, rfl⟩ hnot⟩
      · rw [Function.update_of_ne h1]
        exact ⟨fun h => absurd h.2.symm h1, fun _ => rfl⟩
    · rw [Function.update_of_ne h0]
      exact ⟨fun h => absurd h.1.symm h0, fun _ => rfl⟩

theorem gcGetPage_foldl {step : GcPageMap → BitVec 64 → GcPageMap} {o : Option GcPheader}
    (hstep : ∀ m u ptr, (SameSlot pf u ptr → gcGetPage pf (step m u) ptr = o) ∧
      (¬SameSlot pf u ptr → gcGetPage pf (step m u) ptr = gcGetPage pf m ptr)) (l : List (BitVec 64)) :
    ∀ m ptr, ((∃ u ∈ l, SameSlot pf u ptr) → gcGetPage pf (l.foldl step m) ptr = o) ∧
      ((∀ u ∈ l, ¬SameSlot pf u ptr) → gcGetPage pf (l.foldl step m) ptr = gcGetPage pf m ptr) := by
  induction l with
  | nil => exact fun m ptr => ⟨fun ⟨_, hu, _⟩ => absurd hu List.not_mem_nil, fun _ => rfl⟩
  | cons u l ih =>
    intro m ptr
    obtain ⟨hin, hout⟩ := ih (step m u) ptr
    rw [List.foldl_cons]
    by_cases hrest : ∃ u' ∈ l, SameSlot pf u' ptr
    · refine ⟨fun _ => hin hrest, fun hnot => ?_⟩
      obtain ⟨u', hu', hsame⟩ := hrest
      exact absurd hsame (hnot u' (List.mem_cons_of_mem u hu'))
    · have hrest' : ∀ u' ∈ l, ¬SameSlot pf u' ptr := fun u' hu' hsame => hrest ⟨u', hu', hsame⟩
      rw [hout hrest']
      refine ⟨?_, fun hnot => (hstep m u ptr).2 (hnot u List.mem_cons_self)⟩
      rintro ⟨u', hu', hsame⟩
      rcases List.mem_cons.mp hu' with rfl | hu'
      · exact (hstep m u' ptr).1 hsame
      · exact absurd hsame (hrest' u' hu')

/-- The page has the slot of the address. -/
def Takes (pf : Platform) (p : GcPheader) (ptr : BitVec 64) : Prop :=
  ∃ u ∈ unitsOf p.base p.pageSize, SameSlot pf u ptr

theorem takes_of_inPage (pf : Platform) (h : InPage v p) : Takes pf p v := by
  have hbase := p.aligned
  have hunits := p.pageSize.units
  have hinside := p.inside
  obtain ⟨hlow, hhigh⟩ := h
  refine ⟨p.base + BitVec.ofNat 64 (((v.toNat - p.base.toNat) / 65536) <<< 16), ?_, sameSlot_of_unit pf ?_⟩
  · refine List.mem_map.mpr ⟨(v.toNat - p.base.toNat) / 65536, List.mem_range.mpr ?_, rfl⟩
    rw [Nat.shiftRight_eq_div_pow]
    omega
  · rw [BitVec.toNat_add, BitVec.toNat_ofNat, Nat.shiftLeft_eq]
    omega

theorem gcGetPage_congr (m : GcPageMap) (h : SameSlot pf u ptr) : gcGetPage pf m u = gcGetPage pf m ptr := by
  rw [gcGetPage, h.1, h.2]
  rfl

/-- The slots of the live pages have them, and the others are empty. -/
structure Exact (pf : Platform) (m : GcPageMap) (live : List GcPheader) : Prop where
  nodup : live.Nodup
  slots : ∀ ptr p, gcGetPage pf m ptr = some p ↔ p ∈ live ∧ Takes pf p ptr

theorem exact_start (pf : Platform) : Exact pf (fun _ => none) [] where
  nodup := List.nodup_nil
  slots _ _ := iff_of_false (fun h => nomatch h) fun h => absurd h.1 List.not_mem_nil

theorem gcAllocPage_some {size : PageSize} {kind : Nat} {memory : List (PageMemory size)}
    (h : gcAllocPage pf m size kind memory = some (m', p)) :
    (∀ u ∈ unitsOf p.base p.pageSize, gcGetPage pf m u = none) ∧
      m' = (unitsOf p.base p.pageSize).foldl (register pf p) m := by
  induction memory with
  | nil => cases h
  | cons memory rest ih =>
    rw [gcAllocPage] at h
    split at h
    · exact ih h
    · rename_i hfree
      split at h
      · cases h
        refine ⟨fun u hu => ?_, rfl⟩
        by_contra hsome
        exact hfree (List.any_eq_true.mpr ⟨u, hu, Option.isSome_iff_ne_none.mpr hsome⟩)
      · cases h

theorem inPage_base (p : GcPheader) : InPage p.base p :=
  ⟨Nat.le_refl _, Nat.lt_add_of_pos_right p.pageSize.pos⟩

theorem Exact.alloc (h : Exact pf m live) {size : PageSize} {kind : Nat} {memory : List (PageMemory size)}
    (halloc : gcAllocPage pf m size kind memory = some (m', p)) : Exact pf m' (p :: live) := by
  obtain ⟨hfree, rfl⟩ := gcAllocPage_some halloc
  have hother : ∀ q ∈ live, ∀ ptr, Takes pf q ptr → ¬Takes pf p ptr := by
    rintro q hq ptr hqptr ⟨u, hu, hsame⟩
    have hsome := (h.slots ptr q).mpr ⟨hq, hqptr⟩
    rw [← gcGetPage_congr m hsame, hfree u hu] at hsome
    cases hsome
  refine ⟨List.nodup_cons.mpr ⟨fun hp => ?_, h.nodup⟩, fun ptr q => ?_⟩
  · have htakes := takes_of_inPage pf (inPage_base p)
    exact hother p hp _ htakes htakes
  · obtain ⟨hin, hout⟩ := gcGetPage_foldl (gcGetPage_register p) (unitsOf p.base p.pageSize) m ptr
    by_cases htakes : Takes pf p ptr
    · rw [hin htakes]
      constructor
      · rintro ⟨⟩
        exact ⟨List.mem_cons_self, htakes⟩
      · rintro ⟨hq, hqptr⟩
        rcases List.mem_cons.mp hq with rfl | hq
        · rfl
        · exact absurd htakes (hother q hq ptr hqptr)
    · rw [hout fun u hu hsame => htakes ⟨u, hu, hsame⟩, h.slots]
      refine and_congr_left fun hqptr => ⟨List.mem_cons_of_mem p, fun hq => ?_⟩
      rcases List.mem_cons.mp hq with rfl | hq
      · exact absurd hqptr htakes
      · exact hq

theorem Exact.free (h : Exact pf m live) (hp : p ∈ live) : Exact pf (gcFreePage pf m p) (live.erase p) := by
  refine ⟨h.nodup.erase p, fun ptr q => ?_⟩
  obtain ⟨hin, hout⟩ := gcGetPage_foldl gcGetPage_unregister (unitsOf p.base p.pageSize) m ptr
  rw [h.nodup.mem_erase_iff, gcFreePage]
  by_cases htakes : Takes pf p ptr
  · rw [hin htakes]
    refine iff_of_false (fun h => nomatch h) ?_
    rintro ⟨⟨hne, hq⟩, hqptr⟩
    have hsome := (h.slots ptr q).mpr ⟨hq, hqptr⟩
    rw [(h.slots ptr p).mpr ⟨hp, htakes⟩] at hsome
    exact hne (Option.some.inj hsome).symm
  · rw [hout fun u hu hsame => htakes ⟨u, hu, hsame⟩, h.slots]
    refine and_congr_left fun hqptr => ⟨fun hq => ⟨?_, hq⟩, fun hq => hq.2⟩
    rintro rfl
    exact htakes hqptr

theorem Reach.exact (h : Reach pf m live) : Exact pf m live := by
  induction h with
  | start => exact exact_start pf
  | alloc size kind memory _ halloc ih => exact ih.alloc halloc
  | free _ hp ih => exact ih.free hp

theorem Exact.lookup (h : Exact pf m live) (v : BitVec 64) (p : GcPheader) :
    hlGcGetPage pf m v = some p ↔ p ∈ live ∧ InPage v p := by
  unfold hlGcGetPage
  constructor
  · intro hsome
    split at hsome
    · rename_i page hpage
      split at hsome
      · cases hsome
        exact ⟨((h.slots v p).mp hpage).1, ‹_›⟩
      · cases hsome
    · cases hsome
  · rintro ⟨hp, hin⟩
    rw [(h.slots v p).mpr ⟨hp, takes_of_inPage pf hin⟩]
    exact if_pos hin

theorem enqueue_keeps (q : DirtyQueue) (p : GcPheader) (source : Nat) {p' : GcPheader}
    (h : q.softwareDirty p' = true) : (gcDirtyEnqueueSource q p source).softwareDirty p' = true := by
  unfold gcDirtyEnqueueSource
  dsimp only
  split
  · exact h
  · by_cases heq : p' = p
    · rw [heq]
      exact Function.update_self _ _ _
    · exact (Function.update_of_ne heq _ _).trans h

theorem enqueue_dirty (q : DirtyQueue) (source : Nat) (hkind : memHasPtr p.pageKind = true) :
    (gcDirtyEnqueueSource q p source).softwareDirty p = true := by
  unfold gcDirtyEnqueueSource
  dsimp only
  split
  · rename_i h
    rw [hkind] at h
    exact h
  · exact Function.update_self _ _ _

theorem barrierPage_keeps (m : GcPageMap) (ptr : BitVec 64) (q : DirtyQueue) {p : GcPheader}
    (h : q.softwareDirty p = true) : (barrierPage pf m ptr q).softwareDirty p = true := by
  unfold barrierPage
  split
  · split
    · exact enqueue_keeps q _ 1 h
    · exact h
  · exact h

theorem barrierLoop_step (m : GcPageMap) (last first : Nat) (q : DirtyQueue) :
    barrierLoop pf m last first q =
      if first >>> 16 < last >>> 16 then
        barrierLoop pf m last ((first >>> 16 + 1) <<< 16) (barrierPage pf m (BitVec.ofNat 64 first) q)
      else barrierPage pf m (BitVec.ofNat 64 first) q := by
  rw [barrierLoop]
  by_cases heq : first >>> 16 = last >>> 16
  · rw [if_pos heq, if_neg (by omega)]
  · rw [if_neg heq]

theorem next_lt {first last : Nat} (h : first >>> 16 < last >>> 16) :
    last >>> 16 - ((first >>> 16 + 1) <<< 16) >>> 16 < last >>> 16 - first >>> 16 := by
  rw [Nat.shiftLeft_shiftRight]
  omega

theorem barrierLoop_keeps (m : GcPageMap) (last first : Nat) (q : DirtyQueue) {p : GcPheader}
    (h : q.softwareDirty p = true) : (barrierLoop pf m last first q).softwareDirty p = true := by
  induction hn : last >>> 16 - first >>> 16 using Nat.strongRecOn generalizing first q with
  | _ n ih =>
    have hpage := @barrierPage_keeps pf m (BitVec.ofNat 64 first) q p h
    rw [barrierLoop_step]
    split
    · exact ih _ (hn ▸ next_lt ‹_›) _ _ hpage rfl
    · exact hpage

theorem inPage_unit {first : Nat} (hv : InPage v p) (hunit : v.toNat / 65536 = first / 65536) :
    InPage (BitVec.ofNat 64 first) p := by
  have hbase := p.aligned
  have hunits := p.pageSize.units
  have hinside := p.inside
  obtain ⟨hlow, hhigh⟩ := hv
  have hfirst : (BitVec.ofNat 64 first).toNat = first := by
    rw [BitVec.toNat_ofNat]
    exact Nat.mod_eq_of_lt (by omega)
  rw [InPage, hfirst]
  omega

theorem Exact.barrierPage_dirty (h : Exact pf m live) (hp : p ∈ live) (hin : InPage ptr p)
    (hkind : memHasPtr p.pageKind = true) (q : DirtyQueue) : (barrierPage pf m ptr q).softwareDirty p = true := by
  have hpage := (h.slots ptr p).mpr ⟨hp, takes_of_inPage pf hin⟩
  rw [barrierPage, hpage]
  dsimp only
  rw [if_pos ⟨hin, hkind⟩]
  exact enqueue_dirty q 1 hkind

theorem Exact.barrierLoop_covers (h : Exact pf m live) (hp : p ∈ live) (hkind : memHasPtr p.pageKind = true)
    (hv : InPage v p) (last first : Nat) (q : DirtyQueue) (hlow : first ≤ v.toNat) (hhigh : v.toNat ≤ last) :
    (barrierLoop pf m last first q).softwareDirty p = true := by
  induction hn : last >>> 16 - first >>> 16 using Nat.strongRecOn generalizing first q with
  | _ n ih =>
    rw [barrierLoop_step]
    by_cases hunit : v.toNat / 65536 = first / 65536
    · have hpage := h.barrierPage_dirty hp (inPage_unit hv hunit) hkind q
      split
      · exact barrierLoop_keeps m last _ _ hpage
      · exact hpage
    · have hshift (n : Nat) : n >>> 16 = n / 65536 := Nat.shiftRight_eq_div_pow n 16
      have hlt : first >>> 16 < last >>> 16 := by
        rw [hshift, hshift]
        omega
      have hnext : (first >>> 16 + 1) <<< 16 ≤ v.toNat := by
        rw [Nat.shiftLeft_eq, hshift]
        omega
      rw [if_pos hlt]
      exact ih _ (hn ▸ next_lt hlt) _ _ hnext rfl

theorem Exact.barrier_covers (h : Exact pf m live) (q : DirtyQueue) {address bytes : BitVec 64}
    (hrange : address.toNat + bytes.toNat ≤ 2 ^ 64) (hp : p ∈ live) (hkind : memHasPtr p.pageKind = true)
    (hv : InPage v p) (hlow : address.toNat ≤ v.toNat) (hhigh : v.toNat < address.toNat + bytes.toNat) :
    (hlGcWriteBarrier pf m true q address bytes).softwareDirty p = true := by
  have hpos : 0 < bytes.toNat := by omega
  have hbytes : ¬bytes = 0 := by
    intro hzero
    rw [hzero] at hpos
    exact absurd hpos (Nat.lt_irrefl 0)
  have hlast : (address + bytes - 1).toNat = address.toNat + bytes.toNat - 1 := by
    have hone : (1 : BitVec 64).toNat = 1 := rfl
    rw [BitVec.toNat_sub, BitVec.toNat_add, hone]
    omega
  have hactive : ¬((!true || decide (bytes = 0)) = true) := by
    rw [Bool.not_true, Bool.false_or, decide_eq_true_iff]
    exact hbytes
  rw [hlGcWriteBarrier, if_neg hactive]
  dsimp only
  rw [hlast, if_neg (by omega)]
  exact h.barrierLoop_covers hp hkind hv _ _ q hlow (by omega)

end Map

/-- After any allocations and releases the lookup is exact, and the barrier of incremental marking has every live page
with pointers that a range overlaps in the queue. -/
theorem page_map_exact {m : GcPageMap} {live : List GcPheader} (h : Reach pf m live) :
    (∀ v p, hlGcGetPage pf m v = some p ↔ p ∈ live ∧ InPage v p) ∧
      ∀ q (address bytes : BitVec 64), address.toNat + bytes.toNat ≤ 2 ^ 64 →
        ∀ p ∈ live, memHasPtr p.pageKind = true →
          (∃ v, InPage v p ∧ address.toNat ≤ v.toNat ∧ v.toNat < address.toNat + bytes.toNat) →
          p ∈ (hlGcWriteBarrier pf m true q address bytes).head ++
            (hlGcWriteBarrier pf m true q address bytes).batch := by
  refine ⟨h.exact.lookup, fun q address bytes hrange p hp hkind hover => ?_⟩
  obtain ⟨v, hv, hlow, hhigh⟩ := hover
  exact (hlGcWriteBarrier pf m true q address bytes).queued p
    (h.exact.barrier_covers q hrange hp hkind hv hlow hhigh)

def onePageSize : PageSize := ⟨65536, rfl, by decide, by decide⟩

def onePage : GcPheader := ⟨0x10000#64, onePageSize, 0, rfl, by decide⟩

def onePageMap : GcPageMap := (unitsOf onePage.base onePageSize).foldl (register .posix onePage) fun _ => none

theorem gcWillCollide_start (base : BitVec 64) (size : PageSize) : gcWillCollide pf (fun _ => none) base size = false :=
  List.any_eq_false.mpr fun _ _ => Bool.false_ne_true

theorem onePage_reach : Reach .posix onePageMap [onePage] := by
  refine Reach.alloc onePageSize 0 [⟨0x10000#64, by decide⟩] .start ?_
  rw [gcAllocPage, if_neg (by rw [gcWillCollide_start]; exact Bool.false_ne_true), dif_pos (by decide)]
  rfl

/-- The queue after `gc_inc_tracking_begin`. -/
def emptyQueue : DirtyQueue := ⟨fun _ => false, [], [], 0, false, fun _ => 0, fun _ h => absurd h Bool.false_ne_true⟩

theorem onePage_exact :
    onePage ∈ (hlGcWriteBarrier .posix onePageMap true emptyQueue 0x1FFF8#64 8#64).head ++
      (hlGcWriteBarrier .posix onePageMap true emptyQueue 0x1FFF8#64 8#64).batch :=
  (page_map_exact .posix onePage_reach).2 emptyQueue 0x1FFF8#64 8#64 (by decide) onePage List.mem_cons_self rfl
    ⟨0x1FFF8#64, by decide, by decide, by decide⟩

/-- Outside incremental marking the barrier returns at once. -/
theorem inactive_not_covered :
    ∃ m live, Reach .posix m live ∧ ∃ p ∈ live, memHasPtr p.pageKind = true ∧ InPage 0x1FFF8#64 p ∧
      p ∉ (hlGcWriteBarrier .posix m false emptyQueue 0x1FFF8#64 8#64).head ++
        (hlGcWriteBarrier .posix m false emptyQueue 0x1FFF8#64 8#64).batch :=
  ⟨onePageMap, [onePage], onePage_reach, onePage, List.mem_cons_self, rfl, by decide, List.not_mem_nil⟩

end HashLink.PageMap
