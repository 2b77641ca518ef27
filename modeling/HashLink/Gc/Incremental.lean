import HashLink.Gc.Allocator

/-! The incremental marker of `gc_incremental.c` and the dirty queues of `gc_write_tracking.c`. A
cycle prepares the pages, then marks from the roots in slices, between which the program runs. A
slice that sees the clock pass its deadline stops where it is: the deadlines are numbers of steps,
one for each loop, so that a loop may stop at any of its steps, those where the code looks at the
clock among them. -/

namespace HashLink.Gc

/-- `MEM_HAS_PTR`. -/
def MemKind.hasPtr : MemKind → Bool
  | .dynamic | .raw => true
  | .noptr | .finalizer => false

/-- The partition of an allocation and its number of blocks, as `gc_allocator_alloc` chooses them. -/
def Allocator.partOf (size : Nat) (kind : MemKind) : Option (Nat × Nat) :=
  let sz := query size gcAlign
  if size = 0 then none
  else if gcLargeBlock ≤ sz then some (gcLargePart, 1)
  else if sz ≤ gcSizes (gcFixedParts - 1) ∧ kind ≠ .finalizer then some (sz / gcAlign - 1, 1)
  else
    ([5, 6, 7, 8].find? fun part => query sz (gcSizes part) < gcSizes part * 255).map
      fun part => (part, query sz (gcSizes part) / 2 ^ gcSbits part)

/-- What an allocation of `n` blocks takes from a page. The block of a large page is given when the
page is new. -/
def GcPage.takeBlocks (n : Nat) (p : GcPage) : Option (GcPage × Run) :=
  if p.pid.part = gcLargePart then
    if p.blocks = [] then some (p.handOut ⟨0, 1⟩, ⟨0, 1⟩) else none
  else
    match p.sizes with
    | none => (p.takeFixed n).map fun (p, run) => (p.handOut run, run)
    | some _ => (p.takeVar n).bind fun (p, run) => (p.recordVar run).toOption.map fun p => (p, run)

/-- What an allocation of `size` bytes takes from a page of its partition. -/
def GcPage.takeBlock (size : Nat) (p : GcPage) : Option (GcPage × Run) :=
  match p.flushed, Allocator.partOf size p.pid.kind with
  | .ok p, some (part, n) => if p.pid.part = part then p.takeBlocks n else none
  | _, _ => none

def GcPage.takeBuffer (p : GcPage) : Option (GcPage × Run) :=
  match p.flushed with
  | .ok p =>
    if p.pid.part < gcFixedParts then p.takeBlocks (gcTlabRun / gcSizes p.pid.part) else none
  | .error _ => none

/-- What the marker reads of a page to find a block. -/
structure Shape where
  base : Nat
  size : Nat
  blockSize : Nat
  firstBlock : Nat
  maxBlocks : Nat
  sizes : Option (List Nat)
  hasPtr : Bool
  deriving DecidableEq

namespace Shape

def inPage (p : Shape) (ptr : Nat) : Bool := p.base ≤ ptr && ptr < p.base + p.size

/-- `gc_allocator_get_block_id`. -/
def blockId (p : Shape) (ptr : Nat) : Option Nat :=
  let offset := ptr - p.base
  let bid := offset / p.blockSize
  if bid * p.blockSize ≠ offset then none
  else if p.maxBlocks ≤ bid then none
  else
    match p.sizes with
    | none => some bid
    | some sizes => if bid < p.firstBlock ∨ sizes.getD bid 0 = 0 then none else some bid

def blockStart (sizes : List Nat) (first : Nat) : Nat → Option Nat
  | 0 => if sizes.getD 0 0 = 0 then none else some 0
  | bid + 1 =>
    if sizes.getD (bid + 1) 0 = 0 then
      if bid + 1 = first then none else blockStart sizes first bid
    else some (bid + 1)

/-- `gc_allocator_get_block_interior`. -/
def blockInterior (p : Shape) (ptr : Nat) : Option Nat :=
  let start := (ptr - p.base) / p.blockSize
  if p.maxBlocks ≤ start then none
  else
    match p.sizes with
    | none => some start
    | some sizes =>
      if start < p.firstBlock then none
      else
        match blockStart sizes p.firstBlock start with
        | none => none
        | some bid => if sizes.getD bid 0 ≤ start - bid then none else some bid

def words (p : Shape) (bid : Nat) : Nat :=
  p.blockSize * (match p.sizes with | some sizes => sizes.getD bid 0 | none => 1) / 8

end Shape

/-- `gc_pheader` with the fields of the incremental marker. -/
structure IncPage where
  page : GcPage
  base : Nat
  size : Nat
  epoch : Nat
  queued : List Bool
  dirty : Bool

def IncPage.shape (p : IncPage) : Shape where
  base := p.base
  size := p.size
  blockSize := p.page.blockSize
  firstBlock := p.page.firstBlock
  maxBlocks := p.page.maxBlocks
  sizes := p.page.sizes
  hasPtr := p.page.pid.kind.hasPtr

def IncPage.mark (p : IncPage) (bid : Nat) : IncPage :=
  { p with page := { p.page with bmp := p.page.bmp.map (·.set bid true) } }

def IncPage.setQueued (p : IncPage) (bid : Nat) (queued : Bool) : IncPage :=
  { p with queued := p.queued.set bid queued }

def IncPage.setDirty (p : IncPage) (dirty : Bool) : IncPage := { p with dirty }

abbrev BlockRef := Nat × Nat

/-- `gc_inc_block`, `gc_inc_cursor` and `gc_inc_end`: a block of which some words are scanned. -/
structure Cursor where
  block : BlockRef
  pos : Nat
  stop : Nat

/-- The walk of `gc_inc_collect_dirty` over the pages. -/
structure DirtyWalk where
  pid : Nat
  cursor : List Nat
  offset : Nat
  walk : Bool
  spanned : Bool

def DirtyWalk.reset : DirtyWalk := ⟨0, [], 0, false, false⟩

/-- The heap and the state of the marker. `lists` is `gc_pages`, the newest page of a list first; the
words of a page are by their index in it. -/
structure GcInc where
  pages : List IncPage
  lists : List (List Nat)
  mem : Nat → Nat → Nat
  roots : List Nat
  epoch : Nat
  active : Bool
  preparing : Bool
  discovering : Bool
  preparePid : Nat
  prepareCursor : List Nat
  stack : List BlockRef
  cursor : Option Cursor
  rescan : Option (Nat × Nat)
  incoming : List Nat
  batch : List Nat
  dirtyWalk : DirtyWalk

namespace GcInc

def shapes (s : GcInc) : List Shape := s.pages.map IncPage.shape

def modifyPage (s : GcInc) (id : Nat) (f : IncPage → IncPage) : GcInc :=
  { s with pages := s.pages.modify id f }

/-- `GC_GET_PAGE`. -/
def getPage (shapes : List Shape) (ptr : Nat) : Option Nat :=
  if ptr = 0 then none else shapes.findIdx? fun p => p.inPage ptr

/-- The block a word names: a word of the heap names a block by its start, and a root also by an
address inside of it. -/
def target (shapes : List Shape) (interior : Bool) (ptr : Nat) : Option BlockRef :=
  (getPage shapes ptr).bind fun id =>
    (shapes[id]?).bind fun p =>
      (if interior then p.blockInterior ptr else p.blockId ptr).map fun bid => (id, bid)

def blockWords (s : GcInc) (b : BlockRef) : Nat :=
  match s.pages[b.1]? with
  | some p => p.shape.words b.2
  | none => 0

def word (s : GcInc) (b : BlockRef) (i : Nat) : Nat :=
  match s.pages[b.1]? with
  | some p => s.mem b.1 (p.page.blockSize * b.2 / 8 + i)
  | none => 0

/-- `gc_inc_enqueue`. -/
def enqueue (s : GcInc) (b : BlockRef) : GcInc :=
  match s.pages[b.1]? with
  | none => s
  | some p =>
    if ¬p.shape.hasPtr ∨ p.queued.getD b.2 false then s
    else
      { s.modifyPage b.1 fun p => p.setQueued b.2 true with stack := b :: s.stack }

def setMark (s : GcInc) (b : BlockRef) : GcInc :=
  s.modifyPage b.1 fun p => p.mark b.2

/-- The mark of a block, in the bits its page has. -/
def bit (s : GcInc) (b : BlockRef) : Bool :=
  match s.pages[b.1]? with
  | some p => p.page.marked b.2
  | none => false

/-- `gc_inc_visit`. -/
def visit (s : GcInc) (interior : Bool) (ptr : Nat) : GcInc :=
  match target s.shapes interior ptr with
  | none => s
  | some b => if s.bit b then s else (s.setMark b).enqueue b

/-- `gc_inc_roots`. -/
def visitRoots (s : GcInc) : GcInc := s.roots.foldl (fun s ptr => s.visit true ptr) s

/-- `gc_inc_prepare_page`. A page that needs a flush has mark bits. -/
def preparePage (epoch : Nat) (p : IncPage) : IncPage :=
  if p.epoch = epoch then p
  else
    match Allocator.gcIncPreparePage p.page with
    | .error _ => p
    | .ok page => { p with page, epoch, queued := List.replicate page.maxBlocks false }

/-- `gc_inc_prepare_slice`. -/
def prepareSlice : Nat → GcInc → GcInc × Bool
  | 0, s => (s, false)
  | fuel + 1, s =>
    match s.prepareCursor with
    | id :: rest =>
      prepareSlice fuel { s.modifyPage id (preparePage s.epoch) with prepareCursor := rest }
    | [] =>
      match s.lists[s.preparePid]? with
      | some ids =>
        prepareSlice fuel { s with preparePid := s.preparePid + 1, prepareCursor := ids }
      | none => (s, true)

/-- `gc_dirty_enqueue_source`. -/
def dirtyEnqueue (s : GcInc) (id : Nat) : GcInc :=
  match s.pages[id]? with
  | none => s
  | some p =>
    if ¬p.shape.hasPtr ∨ p.dirty then s
    else { s.modifyPage id fun p => p.setDirty true with incoming := id :: s.incoming }

def firstBlock (s : GcInc) (id : Nat) : Nat :=
  match s.pages[id]? with
  | some p => p.page.firstBlock
  | none => 0

def maxBlocks (s : GcInc) (id : Nat) : Nat :=
  match s.pages[id]? with
  | some p => p.page.maxBlocks
  | none => 0

/-- `gc_dirty_pop`, with the start of the scan of the page. -/
def dirtyPop (s : GcInc) (id : Nat) (rest : List Nat) : GcInc :=
  { s.modifyPage id fun p => p.setDirty false with
    batch := rest
    rescan := some (id, s.firstBlock id) }

def rescanBlock (s : GcInc) (b : BlockRef) : GcInc :=
  if s.bit b then
    match s.cursor with
    | some c => if c.block = b then { s with cursor := some { c with pos := 0 } } else s.enqueue b
    | none => s.enqueue b
  else s

/-- `gc_inc_rescan_dirty`. -/
def rescanDirty : Nat → GcInc → GcInc × Bool
  | 0, s => (s, false)
  | fuel + 1, s =>
    match s.rescan with
    | none =>
      match s.batch with
      | [] => (s, true)
      | id :: rest => rescanDirty fuel (s.dirtyPop id rest)
    | some (id, bid) =>
      if bid < s.maxBlocks id then
        rescanDirty fuel { s.rescanBlock (id, bid) with rescan := some (id, bid + 1) }
      else rescanDirty fuel { s with rescan := none }

def finishBlock (s : GcInc) (b : BlockRef) : GcInc :=
  { s.modifyPage b.1 fun p => p.setQueued b.2 false with cursor := none }

/-- `gc_inc_drain`. -/
def drain : Nat → GcInc → GcInc × Bool
  | 0, s => (s, false)
  | fuel + 1, s =>
    match s.cursor with
    | none =>
      match s.stack with
      | [] => (s, true)
      | b :: rest => drain fuel { s with stack := rest, cursor := some ⟨b, 0, s.blockWords b⟩ }
    | some c =>
      if c.pos < c.stop then
        drain fuel
          ({ s with cursor := some { c with pos := c.pos + 1 } }.visit false (s.word c.block c.pos))
      else drain fuel (s.finishBlock c.block)

structure Deadlines where
  rescan : Nat
  drain : Nat

/-- `gc_inc_trace_slice`. -/
def traceSlice (d : Deadlines) (s : GcInc) : GcInc × Bool :=
  match rescanDirty d.rescan s.visitRoots with
  | (s, true) => drain d.drain s
  | (s, false) => (s, false)

abbrev Kernel := Nat → Nat → Option Bool

def chunkBytes : Nat := 256 * 4096

/-- `gc_inc_capture_all` on one page: it reads chunks until one is dirty. -/
def captureChunks (kernel : Kernel) (id size : Nat) : Nat → Nat → Option Bool
  | 0, _ => some false
  | fuel + 1, offset =>
    if size ≤ offset then some false
    else
      match kernel id offset with
      | none => none
      | some true => some true
      | some false => captureChunks kernel id size fuel (offset + chunkBytes)

/-- `gc_inc_capture_all`. -/
def captureAll (kernel : Kernel) : List Nat → GcInc → Option GcInc
  | [], s => some s
  | id :: ids, s =>
    match s.pages[id]? with
    | none => captureAll kernel ids s
    | some p =>
      if p.shape.hasPtr then
        match captureChunks kernel id p.size (p.size + 1) 0 with
        | none => none
        | some dirty => captureAll kernel ids (if dirty then s.dirtyEnqueue id else s)
      else captureAll kernel ids s

/-- The loop of `gc_inc_collect_dirty`. There is no result when a read fails; the flag says that the
walk is complete. -/
def collectLoop (kernel : Kernel) : Nat → GcInc → Option (GcInc × Bool)
  | 0, s => some ({ s with dirtyWalk := { s.dirtyWalk with spanned := true } }, false)
  | fuel + 1, s =>
    match s.dirtyWalk.cursor with
    | [] =>
      match s.lists[s.dirtyWalk.pid]? with
      | some ids =>
        collectLoop kernel fuel
          { s with dirtyWalk := { s.dirtyWalk with pid := s.dirtyWalk.pid + 1, cursor := ids } }
      | none =>
        let s' := if s.dirtyWalk.spanned then captureAll kernel s.lists.flatten s else some s
        s'.map fun s => ({ s with dirtyWalk := .reset }, true)
    | id :: rest =>
      match s.pages[id]? with
      | none =>
        collectLoop kernel fuel
          { s with dirtyWalk := { s.dirtyWalk with cursor := rest, offset := 0 } }
      | some p =>
        let read := if p.shape.hasPtr then kernel id s.dirtyWalk.offset else some false
        match read with
        | none => none
        | some dirty =>
          let offset := if p.shape.hasPtr then s.dirtyWalk.offset + chunkBytes
            else s.dirtyWalk.offset
          let s := if dirty then s.dirtyEnqueue id else s
          let walk := s.dirtyWalk
          if dirty ∨ ¬p.shape.hasPtr ∨ p.size ≤ offset then
            collectLoop kernel fuel
              { s with dirtyWalk := { walk with cursor := rest, offset := 0 } }
          else collectLoop kernel fuel { s with dirtyWalk := { walk with offset } }

/-- What a capture meets: the kernel, a deadline, and whether the kernel clears its dirty bits. The
software backend has no kernel. -/
structure Capture where
  kernel : Option Kernel
  deadline : Nat
  rearm : Bool

/-- `gc_write_tracking.collect`. -/
def collect (c : Capture) (s : GcInc) : Option (GcInc × Bool) :=
  match c.kernel with
  | none => some (s, true)
  | some kernel =>
    let s := if s.dirtyWalk.walk then s
      else { s with dirtyWalk := { DirtyWalk.reset with walk := true } }
    collectLoop kernel c.deadline s

/-- How a slice goes on: with a state and a flag, or not at all. `failed` falls back to a full
collection, and `fatal` stops the program. -/
inductive Captured where
  | ok (s : GcInc) (complete : Bool)
  | failed (s : GcInc)
  | fatal

/-- `gc_inc_capture_slice`. -/
def captureSlice (c : Capture) (s : GcInc) : Captured :=
  match collect c s with
  | none => .failed s
  | some (s, false) => .ok { s with discovering := true } false
  | some (s, true) =>
    if c.rearm then
      if s.batch = [] then
        .ok { s with batch := s.incoming, incoming := [], discovering := false } true
      else .fatal
    else .failed s

structure Env where
  begin_ : Bool
  prepare : Nat
  capture : Capture
  trace : Deadlines
  retrace : Deadlines

def beginCycle (s : GcInc) : GcInc :=
  { s with
    pages := s.pages.map fun p => p.setDirty false
    epoch := s.epoch + 1
    active := true
    preparing := true
    preparePid := 0
    prepareCursor := []
    incoming := []
    batch := []
    dirtyWalk := .reset }

/-- `gc_inc_publish_marks` on every page, and the end of the cycle. -/
def publish (s : GcInc) : GcInc :=
  { s with
    pages := s.pages.map fun p => { p with page := { p.page with needFlush := true } }
    active := false
    incoming := []
    batch := [] }

inductive Slice where
  | paused (s : GcInc)
  | published (s : GcInc)
  | failed (s : GcInc)
  | fatal

def traceAfter (env : Env) (s : GcInc) : Slice :=
  match traceSlice env.trace s with
  | (s, true) => .published s.publish
  | (s, false) => .paused s

/-- A slice of tracing: when the work is done the dirty pages are captured, and what they bring is
traced in the same pause. -/
def traceThenCapture (env : Env) (s : GcInc) : Slice :=
  match traceSlice env.trace s with
  | (s, false) => .paused s
  | (s, true) =>
    match captureSlice env.capture s with
    | .failed s => .failed s
    | .fatal => .fatal
    | .ok s false => .paused s
    | .ok s true =>
      match traceSlice env.retrace s with
      | (s, true) => .published s.publish
      | (s, false) => .paused s

/-- `gc_incremental_step_unbudgeted_locked`, from a state without a failure before. -/
def slice (env : Env) (s : GcInc) : Slice :=
  let fresh := !s.active
  let s := if fresh then s.beginCycle else s
  if fresh && !env.begin_ then .failed s
  else if s.preparing then
    let (s, done) := prepareSlice env.prepare s
    .paused { s with preparing := !done }
  else if s.discovering then
    match captureSlice env.capture s with
    | .failed s => .failed s
    | .fatal => .fatal
    | .ok s false => .paused s
    | .ok s true => traceAfter env s
  else traceThenCapture env s

def store (s : GcInc) (id i value : Nat) : GcInc :=
  let s' := if s.active then s.dirtyEnqueue id else s
  { s' with mem := Function.update s.mem id (Function.update (s.mem id) i value) }

/-- What is left of a word of a block when it is allocated: nothing with `MEM_ZERO`, and in a page
with pointers what is before the end of the `size` bytes. -/
def leftWord (hasPtr zero : Bool) (size i w : Nat) : Nat :=
  if zero then 0
  else if ¬hasPtr ∨ i < size / 8 then w
  else if i = size / 8 then w % 256 ^ (size % 8)
  else 0

def clearBlock (s : GcInc) (b : BlockRef) (size : Nat) (zero : Bool) : GcInc :=
  match s.pages[b.1]? with
  | none => s
  | some p =>
    let first := p.page.blockSize * b.2 / 8
    { s with
      mem := Function.update s.mem b.1 fun i =>
        if first ≤ i ∧ i < first + p.shape.words b.2 then
          leftWord p.shape.hasPtr zero size (i - first) (s.mem b.1 i)
        else s.mem b.1 i }

/-- An allocation from a page. In a cycle `gc_incremental_allocated` marks the block. -/
def alloc (s : GcInc) (id size : Nat) (zero : Bool) : GcInc :=
  match (s.pages[id]?).bind fun p => p.page.takeBlock size with
  | none => s
  | some (page, run) =>
    let s := (s.modifyPage id fun p => { p with page }).clearBlock (id, run.pos) size zero
    if s.active then (s.modifyPage id (preparePage s.epoch)).setMark (id, run.pos) else s

/-- A run that a thread reserves for its buffer when it has already seen that there is no cycle. Its
blocks are not marked, and the first one is allocated. -/
def reserve (s : GcInc) (id size : Nat) (zero : Bool) : GcInc :=
  match (s.pages[id]?).bind fun p => p.page.takeBuffer with
  | none => s
  | some (page, run) =>
    (s.modifyPage id fun p => { p with page }).clearBlock (id, run.pos) size zero

/-- The page that `gc_alloc_page` and `gc_allocator_new_page` make, in a cycle already prepared. -/
def bornPage (s : GcInc) (pid : Pid) (base size : Nat) : IncPage :=
  let block := if pid.part = gcLargePart then size else gcSizes pid.part
  let varsize := decide (gcFixedParts ≤ pid.part ∧ pid.part < gcLargePart)
  { page := Allocator.freshPage pid block (size / block) varsize s.active none
    base := base
    size := size
    epoch := if s.active then s.epoch else 0
    queued := List.replicate (size / block) false
    dirty := false }

/-- A new page in a list, whose memory the system gives all zero. Pages are multiples of
`GC_PAGE_SIZE`, with room for a block. -/
def newPage (s : GcInc) (slot : Nat) (pid : Pid) (base size : Nat) : GcInc :=
  let p := s.bornPage pid base size
  if slot < s.lists.length ∧ pid.part ≤ gcLargePart ∧ gcPageSize ∣ size ∧
      p.page.firstBlock < p.page.maxBlocks then
    { s with
      pages := s.pages ++ [p]
      lists := s.lists.modify slot fun l => s.pages.length :: l
      mem := Function.update s.mem s.pages.length fun _ => 0 }
  else s

/-- `gc_major`: the cycle is given up, and the pages get the marks of a full collection. -/
def major (s : GcInc) (marks : Nat → List Bool) : GcInc :=
  { s with
    pages := s.pages.mapIdx fun id p =>
      let bmp := (List.range p.page.maxBlocks).map fun bid => (marks id).getD bid false
      { p with page := { p.page with bmp := some bmp, needFlush := true } }
    active := false
    preparing := false
    discovering := false
    preparePid := 0
    prepareCursor := []
    stack := []
    cursor := none
    rescan := none
    incoming := []
    batch := [] }

end GcInc

/-- What happens to the heap: a slice, with the marks of the full collection it may fall back to, or
a step of the program. -/
inductive IncEvent where
  | slice (env : GcInc.Env) (marks : Nat → List Bool)
  | store (id i value : Nat)
  | setRoots (roots : List Nat)
  | alloc (id size : Nat) (zero : Bool)
  | reserve (id size : Nat) (zero : Bool)
  | newPage (slot : Nat) (pid : Pid) (base size : Nat)
  | major (marks : Nat → List Bool)

namespace GcInc

def step (s : GcInc) : IncEvent → Option GcInc
  | .slice env marks =>
    match s.slice env with
    | .paused s | .published s => some s
    | .failed s => some (s.major marks)
    | .fatal => none
  | .store id i value => some (s.store id i value)
  | .setRoots roots => some { s with roots }
  | .alloc id size zero => some (s.alloc id size zero)
  | .reserve id size zero => some (s.reserve id size zero)
  | .newPage slot pid base size => some (s.newPage slot pid base size)
  | .major marks => some (s.major marks)

end GcInc

end HashLink.Gc
