import HashLink.Lib.Outcome
import HashLink.Lib.RunList

/-! The block allocator of `allocator.c`. A page is cut into blocks of one size; a fixed page hands
out single blocks and a variable one runs of blocks, whose lengths it keeps in a table. What is
free on a page is a list of runs with a cursor, rebuilt from the mark bits when the page needs a
flush. -/

namespace HashLink.Gc

inductive AllocError where
  | outOfMemory
  | fatal
  | badAccess
  deriving DecidableEq, Repr

/-- An operation returns a value with the property, or runs out of memory. -/
abbrev Meets {α : Type} (P : α → Prop) : Except AllocError α → Prop :=
  Outcome.Meets (· = .outOfMemory) P

/-- The kinds of page, `MEM_KIND_DYNAMIC` to `MEM_KIND_FINALIZER`. -/
inductive MemKind where
  | dynamic
  | raw
  | noptr
  | finalizer
  deriving DecidableEq, Repr

def gcPageSize : Nat := 65536

def gcFixedParts : Nat := 5

def gcLargePart : Nat := 8

def gcLargeBlock : Nat := 1048576

def gcAlign : Nat := 8

def gcTlabRun : Nat := 2048

def sizesPadding : Nat := 8

def gcSizes (part : Nat) : Nat := [8, 16, 24, 32, 40, 8, 64, 8192, 0].getD part 0

def gcSbits (part : Nat) : Nat := [0, 0, 0, 0, 0, 3, 6, 13, 0].getD part 0

/-- `GC_PID`: an owner class, a partition and a kind. -/
structure Pid where
  oc : Nat
  part : Nat
  kind : MemKind
  deriving DecidableEq

/-- A block that was handed out and not swept since. `recent` says that its page was not flushed
since. Both are history: the allocator never reads them. -/
structure Block where
  run : Run
  recent : Bool
  deriving DecidableEq

/-- `gc_pheader` with its `gc_allocator_page_data`. `sizes` is null on a fixed page and `bmp` before
the first mark. -/
structure GcPage where
  pid : Pid
  blockSize : Nat
  firstBlock : Nat
  maxBlocks : Nat
  free : List Run
  current : Nat
  sizes : Option (List Nat)
  needFlush : Bool
  bmp : Option (List Bool)
  nextPage : Option Nat
  blocks : List Block

/-- The pages, `gc_pages`, `gc_free_pages` and `gc_incremental_active`. -/
structure Allocator where
  pages : List GcPage
  gcPages : Pid → Option Nat
  gcFreePages : Pid → Option Nat
  incremental : Bool

namespace GcPage

def runs (p : GcPage) : List Run := p.free.drop p.current

def marked (p : GcPage) (bid : Nat) : Bool :=
  match p.bmp with
  | some bmp => bmp.getD bid false
  | none => false

/-- The blocks allocated since the last flush of the page, or marked. -/
def live (p : GcPage) : List Block := p.blocks.filter fun b => b.recent || p.marked b.run.pos

/-- The first reused run, if it starts at `bid`. -/
def nextReuse (bid : Nat) : List Run → Option (Run × List Run)
  | r :: rest => if bid = r.pos then some (r, rest) else none
  | [] => none

theorem nextReuse_eq {bid : Nat} {reuse rest : List Run} {r : Run}
    (h : nextReuse bid reuse = some (r, rest)) : reuse = r :: rest ∧ r.pos = bid := by
  cases reuse with
  | nil => cases h
  | cons r' rest' =>
    simp only [nextReuse] at h
    split at h
    · rename_i hpos
      cases h
      exact ⟨rfl, hpos.symm⟩
    · cases h

/-- The blocks of the piece at `bid`; a length of zero is one block. -/
def pieceCount (sizes : Option (List Nat)) (bid : Nat) : Nat :=
  match sizes with
  | some l => if l.getD bid 0 = 0 then 1 else l.getD bid 0
  | none => 1

theorem pieceCount_pos (sizes : Option (List Nat)) (bid : Nat) : 0 < pieceCount sizes bid := by
  unfold pieceCount
  split
  · split <;> omega
  · omega

/-- The loop of `flush_free_list`: runs that were free are taken over, and unmarked pieces become
free. `acc` is the new list. -/
def flushLoop (bmp : List Bool) (last bid : Nat) (reuse acc : List Run)
    (sizes : Option (List Nat)) : List Run × Option (List Nat) :=
  if bid < last then
    match _h : nextReuse bid reuse with
    | some (r, rest) => flushLoop bmp last (bid + r.count) rest (RunList.push acc r.pos r.count) sizes
    | none =>
      if bmp.getD bid false then
        flushLoop bmp last (bid + pieceCount sizes bid) reuse acc sizes
      else
        flushLoop bmp last (bid + pieceCount sizes bid) reuse
          (RunList.push acc bid (pieceCount sizes bid)) (sizes.map fun l => l.set bid 0)
  else (acc, sizes)
termination_by (last - bid) + reuse.length
decreasing_by
  · obtain ⟨rfl, -⟩ := nextReuse_eq _h
    simp only [List.length_cons]
    omega
  · have := pieceCount_pos sizes bid
    omega
  · have := pieceCount_pos sizes bid
    omega

/-- `flush_free_list`. The unmarked blocks are swept. -/
def flushFreeList (p : GcPage) : Except AllocError GcPage :=
  match p.bmp with
  | none => .error .badAccess
  | some bmp =>
    let result := flushLoop bmp p.maxBlocks p.firstBlock p.runs [] p.sizes
    .ok { p with
      free := result.1
      current := 0
      sizes := result.2
      needFlush := false
      blocks := (p.blocks.filter fun b => bmp.getD b.run.pos false).map
        fun b => { b with recent := false } }

/-- `if( p->need_flush ) flush_free_list(ph)`. -/
def flushed (p : GcPage) : Except AllocError GcPage :=
  if p.needFlush then p.flushFreeList else .ok p

/-- Takes the first `n` blocks of the run `k`. -/
def cut (p : GcPage) (k n : Nat) (c : Run) : List Run := p.free.set k ⟨c.pos + n, c.count - n⟩

/-- `gc_alloc_fixed_run` on a page: up to `want` blocks of the run at the cursor. -/
def takeFixed (want : Nat) (p : GcPage) : Option (GcPage × Run) :=
  match p.free[p.current]? with
  | some c =>
    let taken := if c.count < want then c.count else want
    some ({ p with
      free := p.cut p.current taken c
      current := if c.count - taken = 0 then p.current + 1 else p.current }, ⟨c.pos, taken⟩)
  | none => none

/-- `gc_alloc_var` on a page: the first run with `n` blocks. When the run is used up the cursor
moves, whichever run it was. -/
def takeVar (n : Nat) (p : GcPage) : Option (GcPage × Run) :=
  match p.runs.findIdx? (fun c => n ≤ c.count) with
  | some i =>
    match p.free[p.current + i]? with
    | some c =>
      some ({ p with
        free := p.cut (p.current + i) n c
        current := if c.count - n = 0 then p.current + 1 else p.current }, ⟨c.pos, n⟩)
    | none => none
  | none => none

def takeFirst (n : Nat) (p : GcPage) : Option (GcPage × Run) :=
  match p.free[0]? with
  | some c =>
    if n ≤ c.count then some ({ p with free := p.cut 0 n c }, ⟨c.pos, n⟩) else none
  | none => none

/-- The history of a run of single blocks. -/
def handOut (p : GcPage) (run : Run) : GcPage :=
  { p with
    blocks := p.blocks ++ (List.range run.count).map fun i => ⟨⟨run.pos + i, 1⟩, true⟩ }

/-- The end of `gc_alloc_var`: the block is marked if the page has mark bits, and its length is
written. -/
def recordVar (p : GcPage) (run : Run) : Except AllocError GcPage :=
  match p.sizes with
  | none => .error .badAccess
  | some l =>
    if run.stop ≤ l.length then
      let zeroed := if 1 < run.count then
        l.take run.pos ++ List.replicate run.count 0 ++ l.drop run.stop else l
      .ok { p with
        bmp := p.bmp.map fun bmp => bmp.set run.pos true
        sizes := some (zeroed.set run.pos (run.count % 256))
        blocks := p.blocks ++ [⟨run, true⟩] }
    else .error .badAccess

end GcPage

namespace Allocator

/-- The pages from one on, along `next_page`. A page links to an older one, so no list is longer
than the number of pages. -/
def chain (pages : List GcPage) : Nat → Option Nat → List Nat
  | 0, _ => []
  | _, none => []
  | fuel + 1, some id =>
    match pages[id]? with
    | some p => id :: chain pages fuel p.nextPage
    | none => [id]

def pagesFrom (s : Allocator) (start : Option Nat) : List Nat :=
  chain s.pages s.pages.length start

def setPage (s : Allocator) (id : Nat) (p : GcPage) : Allocator :=
  { s with pages := s.pages.set id p }

def growPage (block numPages size : Nat) : Nat :=
  if 8 < numPages ∧ size * 2 / block ≤ gcPageSize then growPage block (numPages / 3) (size * 2)
  else size
termination_by numPages
decreasing_by omega

def startPos (block maxBlocks : Nat) (varsize : Bool) : Nat :=
  let start := if varsize ∧ sizesPadding < maxBlocks then
    maxBlocks + (64 - maxBlocks % 64) % 64 else 0
  if start % block ≠ 0 then start + (block - start % block) else start

def freshPage (pid : Pid) (block maxBlocks : Nat) (varsize incremental : Bool)
    (next : Option Nat) : GcPage where
  pid := pid
  blockSize := block
  firstBlock := startPos block maxBlocks varsize / block
  maxBlocks := maxBlocks
  free := [⟨startPos block maxBlocks varsize / block, maxBlocks - startPos block maxBlocks varsize / block⟩]
  current := 0
  sizes := if varsize then some (List.replicate maxBlocks 0) else none
  needFlush := false
  bmp := if incremental then some (List.replicate maxBlocks false) else none
  nextPage := next
  blocks := []

def pageSize (s : Allocator) (pid : Pid) (block size : Nat) : Nat :=
  if block < 256 then growPage block (s.pagesFrom (s.gcPages pid)).length size else size

variable (memory : Nat → Bool)

def gcAllocatorNewPage (s : Allocator) (pid : Pid) (block size : Nat) (varsize : Bool) :
    Except AllocError (Allocator × Nat) :=
  let size := s.pageSize pid block size
  let maxBlocks := size / block
  if ¬(size < 2 ^ 31 ∧ memory size) then .error .outOfMemory
  else if gcPageSize < maxBlocks then .error .fatal
  else
    .ok ({ s with
      pages := s.pages ++ [freshPage pid block maxBlocks varsize s.incremental (s.gcPages pid)]
      gcPages := Function.update s.gcPages pid (some s.pages.length) }, s.pages.length)

/-- The loop over the pages of an allocation: each is flushed if it has to be, and the first one
that has blocks gives them. -/
def walkPages (take : GcPage → Option (GcPage × Run)) :
    Allocator → List Nat → Except AllocError (Allocator × Option (Nat × GcPage × Run))
  | s, [] => .ok (s, none)
  | s, id :: ids => do
      match s.pages[id]? with
      | none => .error .badAccess
      | some p =>
        let p ← p.flushed
        match take p with
        | some (p', run) => .ok (s, some (id, p', run))
        | none => walkPages take (s.setPage id p) ids

def findPage (s : Allocator) (pid : Pid) (take first : GcPage → Option (GcPage × Run))
    (block size : Nat) (varsize : Bool) : Except AllocError (Allocator × Nat × GcPage × Run) := do
  match ← walkPages take s (s.pagesFrom (s.gcFreePages pid)) with
  | (s, some (id, p, run)) => .ok (s, id, p, run)
  | (s, none) => do
      let (s, id) ← gcAllocatorNewPage memory s pid block size varsize
      match s.pages[id]?.bind first with
      | some (p, run) => .ok (s, id, p, run)
      | none => .error .badAccess

/-- What an allocation returns: blocks of a page. -/
structure Handed where
  page : Nat
  run : Run

/-- The new page of `gc_alloc_fixed_run` gives up to `want` of its blocks. -/
def firstFixed (want : Nat) (p : GcPage) : Option (GcPage × Run) :=
  match p.free[0]? with
  | some c => p.takeFirst (if c.count < want then c.count else want)
  | none => none

def gcAllocFixedRun (s : Allocator) (oc part : Nat) (kind : MemKind) (want : Nat) :
    Except AllocError (Allocator × Handed) := do
  let pid : Pid := ⟨oc, part, kind⟩
  let (s, id, p, run) ←
    findPage memory s pid (GcPage.takeFixed want) (firstFixed want) (gcSizes part) gcPageSize false
  if run.count = 0 ∨ want < run.count then .error .fatal
  else
    .ok ({ s.setPage id (p.handOut run) with
      gcFreePages := Function.update s.gcFreePages pid (some id) }, ⟨id, run⟩)

/-- The size of a new page of `gc_alloc_var`. -/
def varPageSize (size : Nat) : Nat → Nat → Nat
  | 0, psize => psize
  | fuel + 1, psize => if psize < size + 1024 then varPageSize size fuel (psize * 2) else psize

def gcAllocVar (s : Allocator) (oc part size : Nat) (kind : MemKind) :
    Except AllocError (Allocator × Handed) := do
  let pid : Pid := ⟨oc, part, kind⟩
  let nblocks := size / 2 ^ gcSbits part
  let (s, id, p, run) ←
    findPage memory s pid (GcPage.takeVar nblocks) (GcPage.takeFirst nblocks) (gcSizes part)
      (varPageSize size 32 gcPageSize) true
  let p ← p.recordVar run
  .ok ({ s.setPage id p with
    gcFreePages := Function.update s.gcFreePages pid (some id) }, ⟨id, run⟩)

/-- A size rounded up to a multiple of a block; the large partition has no block size. -/
def query (sz block : Nat) : Nat := if block = 0 then 0 else sz + (block - sz % block) % block

/-- `gc_allocator_alloc`, where its caller returns null for an empty block. -/
def gcAllocatorAlloc (s : Allocator) (size : Nat) (kind : MemKind) (oc : Nat) :
    Except AllocError (Allocator × Option Handed) := do
  if size = 0 then .ok (s, none)
  else
    let sz := query size gcAlign
    if gcLargeBlock ≤ sz then
      let sz := query sz gcPageSize
      let (s, id) ← gcAllocatorNewPage memory s ⟨oc, gcLargePart, kind⟩ sz sz false
      match s.pages[id]? with
      | some p => .ok (s.setPage id (p.handOut ⟨0, 1⟩), some ⟨id, ⟨0, 1⟩⟩)
      | none => .error .badAccess
    else if sz ≤ gcSizes (gcFixedParts - 1) ∧ kind ≠ .finalizer then
      let (s, h) ← gcAllocFixedRun memory s oc (sz / gcAlign - 1) kind 1
      .ok (s, some h)
    else
      match [5, 6, 7, 8].find? fun part => query sz (gcSizes part) < gcSizes part * 255 with
      | some part =>
        let (s, h) ← gcAllocVar memory s oc part (query sz (gcSizes part)) kind
        .ok (s, some h)
      | none => .error .fatal

/-- `gc_allocator_before_mark`: every page gets clear mark bits and needs a flush. -/
def gcAllocatorBeforeMark (s : Allocator) : Allocator :=
  { s with
    pages := s.pages.map fun p =>
      { p with bmp := some (List.replicate p.maxBlocks false), needFlush := true }
    gcFreePages := s.gcPages }

def markBlock (p : GcPage) (bid : Nat) : GcPage :=
  if p.blocks.any fun b => b.run.pos = bid then
    { p with bmp := p.bmp.map fun bmp => bmp.set bid true }
  else p

/-- `gc_inc_prepare_page`: the previous sweep is finished before the marks are cleared. -/
def gcIncPreparePage (p : GcPage) : Except AllocError GcPage := do
  let p ← p.flushed
  .ok { p with bmp := some (List.replicate p.maxBlocks false) }

/-- `gc_inc_publish_marks`, on a page that was prepared. -/
def gcIncPublishMarks (p : GcPage) : GcPage := if p.bmp.isSome then { p with needFlush := true } else p

def changePage (s : Allocator) (id : Nat) (f : GcPage → Except AllocError GcPage) :
    Except AllocError Allocator :=
  match s.pages[id]? with
  | some p => do return s.setPage id (← f p)
  | none => .ok s

end Allocator

/-- What happens to the allocator: allocations, the runs a thread reserves for its buffer, and the
steps of a collector. `rebuild` is the eager flush of `gc_free_memory`. -/
inductive Event where
  | alloc (size : Nat) (kind : MemKind) (oc : Nat)
  | reserve (oc : Nat) (part : Fin 5) (kind : MemKind)
  | mark (id bid : Nat)
  | beforeMark
  | rebuild (id : Nat)
  | prepare (id : Nat)
  | publish (id : Nat)
  | cycle (active : Bool)

namespace Allocator

def start : Allocator where
  pages := []
  gcPages _ := none
  gcFreePages _ := none
  incremental := false

def step (memory : Nat → Bool) (s : Allocator) :
    Event → Except AllocError (Allocator × Option Handed)
  | .alloc size kind oc => gcAllocatorAlloc memory s size kind oc
  | .reserve oc part kind => do
      let (s, h) ← gcAllocFixedRun memory s oc part kind (gcTlabRun / gcSizes part)
      .ok (s, some h)
  | .mark id bid => do return (← s.changePage id fun p => .ok (markBlock p bid), none)
  | .beforeMark => .ok (s.gcAllocatorBeforeMark, none)
  | .rebuild id => do return (← s.changePage id GcPage.flushed, none)
  | .prepare id => do return (← s.changePage id gcIncPreparePage, none)
  | .publish id => do return (← s.changePage id fun p => .ok (gcIncPublishMarks p), none)
  | .cycle active => .ok ({ s with incremental := active }, none)

def run (s : Allocator) : List (Event × (Nat → Bool)) → Except AllocError Allocator
  | [] => .ok s
  | (e, memory) :: events => do run (← s.step memory e).1 events

end Allocator

end HashLink.Gc
