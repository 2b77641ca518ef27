import HashLink.Gc.HeapInvariant

/-! `hl_gc_live_instances` of `gc.c`: a full mark from conservative roots, and then every marked block
whose first word is one of the given types. The blocks it finds go to the pinned lists, which are
roots of every collection until they are released. A page of fixed blocks has no record of what is
allocated, so a stale word can mark a block that is free. -/

namespace HashLink.Gc

/-- `gc_page_is_empty`. -/
def IncPage.isEmpty (p : IncPage) : Bool :=
  match p.page.bmp with
  | some bmp => (bmp.drop (p.page.firstBlock / 8 * 8)).all fun marked => !marked
  | none => false

/-- The size of a block, as `gc_iter_live_blocks` gives it. -/
def IncPage.blockBytes (p : IncPage) (bid : Nat) : Nat :=
  match p.page.sizes with
  | some sizes => sizes.getD bid 0 * p.page.blockSize
  | none => p.page.blockSize

namespace GcInc

/-- `gc_empty_sweep_slice`, on the pages it does not keep for later. A page that is given back keeps
its number and has no memory. -/
def releaseEmpty (keep : Nat → Bool) (s : GcInc) : GcInc :=
  { s with
    pages := s.pages.mapIdx fun id p =>
      if p.page.needFlush ∧ p.isEmpty ∧ ¬keep id then { p with size := 0 } else p }

/-- The heap and `global_mark_stack`. -/
structure Marking where
  heap : GcInc
  stack : List BlockRef

/-- What `gc_mark_stack` and `gc_flush_mark` do with a word. -/
def markWord (interior : Bool) (m : Marking) (ptr : Nat) : Marking :=
  match target m.heap.shapes interior ptr with
  | none => m
  | some b =>
    if m.heap.bit b then m
    else ⟨m.heap.setMark b, if (m.heap.shapes[b.1]?).any Shape.hasPtr then b :: m.stack else m.stack⟩

variable (precise : List Nat → List Nat)

/-- The words of a block that are looked at. `precise` chooses among the words of a dynamic block
those that the mark bits of its type select. -/
def scanned (s : GcInc) (b : BlockRef) : List Nat :=
  let words := (List.range (s.blockWords b)).map (s.word b)
  match s.pages[b.1]? with
  | none => []
  | some p =>
    if p.page.pid.kind = .dynamic then if words.headD 0 = 0 then [] else precise words else words

/-- `gc_flush_mark`, none when the fuel runs out. -/
def gcFlushMark : Nat → Marking → Option GcInc
  | 0, _ => none
  | fuel + 1, m =>
    match m.stack with
    | [] => some m.heap
    | b :: rest =>
      gcFlushMark fuel ((m.heap.scanned precise b).foldl (markWord false) { m with stack := rest })

def address (s : GcInc) (b : BlockRef) : Nat :=
  match s.pages[b.1]? with
  | some p => p.base + b.2 * p.page.blockSize
  | none => 0

/-- `gc_collect_live_instance_page`. -/
def collectLiveInstancePage (types : List Nat) (minSize : Nat) (s : GcInc) (id : Nat) : List BlockRef :=
  match s.pages[id]? with
  | none => []
  | some p =>
    if p.size ≠ 0 ∧ (p.page.pid.kind = .dynamic ∨ p.page.pid.kind = .noptr) then
      ((List.range p.page.maxBlocks).filter fun bid =>
        p.page.marked bid ∧ minSize ≤ p.blockBytes bid ∧ s.word (id, bid) 0 ∈ types).map
        fun bid => (id, bid)
    else []

end GcInc

open GcInc

/-- The heap with its roots: `gc_roots`, the stacks and registers of the threads, and
`gc_pinned_lists`, each list under the address of its array. -/
structure PinnedHeap where
  heap : GcInc
  globals : List Nat
  stackWords : List Nat
  pinned : List (Nat × List Nat)

structure PinOutcome where
  handed : Option (Nat × Run)
  reported : List BlockRef

/-- The steps of the program and of the collector. A full mark has fuel, and a sweep may keep pages;
`memory` says that there is memory for the array of a report, `values`. -/
inductive PinEvent where
  | store (id i value : Nat)
  | setRoots (globals stackWords : List Nat)
  | alloc (id size : Nat) (zero : Bool)
  | reserve (id size : Nat) (zero : Bool)
  | newPage (slot : Nat) (pid : Pid) (base size : Nat)
  | slice (env : Env) (fuel : Nat) (keep : Nat → Bool)
  | major (fuel : Nat) (keep : Nat → Bool)
  | sweep (keep : Nat → Bool)
  | liveInstances (types : List Nat) (minSize fuel : Nat) (keep : Nat → Bool) (memory : Bool) (values : Nat)
  | liveInstancesRelease (values : Nat)

namespace PinnedHeap

def pins (s : PinnedHeap) : List Nat := s.pinned.flatMap fun list => list.2

/-- What `gc_inc_roots` visits. -/
def rooted (s : PinnedHeap) : GcInc := { s.heap with roots := s.globals ++ s.pins ++ s.stackWords }

def setHeap (s : PinnedHeap) (heap : GcInc) : PinnedHeap := { s with heap }

def isFree (s : GcInc) (base size : Nat) : Bool :=
  base ≠ 0 ∧ size ≠ 0 ∧ s.pages.all fun p => p.size = 0 ∨ p.base + p.size ≤ base ∨ base + size ≤ p.base

def hasMemory (s : GcInc) (id : Nat) : Bool := (s.pages[id]?).any fun p => p.size ≠ 0

variable (precise : List Nat → List Nat)

def gcMark (fuel : Nat) (keep : Nat → Bool) (s : PinnedHeap) : Option GcInc :=
  let m : Marking := ⟨s.heap.major fun _ => [], []⟩
  let m := s.globals.foldl (markWord false) m
  let m := (s.pins ++ s.stackWords).foldl (markWord true) m
  (gcFlushMark precise fuel m).map (releaseEmpty keep)

def step (s : PinnedHeap) : PinEvent → Option (PinnedHeap × PinOutcome)
  | .store id i value => some (s.setHeap (s.heap.store id i value), ⟨none, []⟩)
  | .setRoots globals stackWords => some ({ s with globals, stackWords }, ⟨none, []⟩)
  | .alloc id size zero =>
    if hasMemory s.heap id then
      let run := (s.heap.pages[id]?).bind fun p => (p.page.takeBlock size).map Prod.snd
      some (s.setHeap (s.heap.alloc id size zero), ⟨run.map fun run => (id, run), []⟩)
    else some (s, ⟨none, []⟩)
  | .reserve id size zero =>
    if hasMemory s.heap id then
      let run := (s.heap.pages[id]?).bind fun p => p.page.takeBuffer.map Prod.snd
      some (s.setHeap (s.heap.reserve id size zero), ⟨run.map fun run => (id, run), []⟩)
    else some (s, ⟨none, []⟩)
  | .newPage slot pid base size =>
    if isFree s.heap base size then
      some (s.setHeap (s.heap.newPage slot pid base size), ⟨none, []⟩)
    else some (s, ⟨none, []⟩)
  | .slice env fuel keep =>
    match s.rooted.slice env with
    | .paused heap | .published heap => some (s.setHeap heap, ⟨none, []⟩)
    | .failed heap => (gcMark precise fuel keep (s.setHeap heap)).map fun heap => (s.setHeap heap, ⟨none, []⟩)
    | .fatal => none
  | .major fuel keep =>
    (gcMark precise fuel keep s).map fun heap => (s.setHeap heap, ⟨none, []⟩)
  | .sweep keep => some (s.setHeap (s.heap.releaseEmpty keep), ⟨none, []⟩)
  | .liveInstances types minSize fuel keep memory values =>
    (gcMark precise fuel keep s).map fun heap =>
      let found := heap.lists.flatten.flatMap (collectLiveInstancePage types minSize heap)
      if memory then
        ({ s with heap, pinned := (values, found.map heap.address) :: s.pinned }, ⟨none, found⟩)
      else (s.setHeap heap, ⟨none, []⟩)
  | .liveInstancesRelease values =>
    if s.pinned.any fun list => list.1 = values then
      some ({ s with pinned := s.pinned.eraseP fun list => list.1 = values }, ⟨none, []⟩)
    else none

def start (slots : Nat) : PinnedHeap where
  heap :=
    { pages := []
      lists := List.replicate slots []
      mem := fun _ _ => 0
      roots := []
      epoch := 0
      active := false
      preparing := false
      discovering := false
      preparePid := 0
      prepareCursor := []
      stack := []
      cursor := none
      rescan := none
      incoming := []
      batch := []
      dirtyWalk := .reset }
  globals := []
  stackWords := []
  pinned := []

end PinnedHeap

end HashLink.Gc
