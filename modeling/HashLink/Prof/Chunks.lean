import HashLink.Prof.DropAccounting

/-!
The writers again, with the chunks they write to: which chunks `next_chunk` takes from the pool, which of them it
gives the thread, and which bytes of a chunk each record is stored at.

Every record is stored inside the chunk it is for, every position is before the end of its chunk, and the chunks
that were taken from the pool are those the thread was given.
-/

namespace HashLink.Prof

/-- What `next_chunk` finds: whether it may wait, what `pool_pop` gives at first and in the turns of the loop while
recording is on (after them it is off), the bytes of the chunk, and the clock before and after a wait. -/
structure PoolEnv where
  wait : Bool
  first : Option Nat
  turns : List (Option Nat)
  memory : Nat → UInt8
  started : UInt64
  ended : UInt64

/-- The loop of `next_chunk` while the pool is empty. -/
def waitForChunk (wait : Bool) : Option Nat → List (Option Nat) → Option Nat
  | some index, _ => some index
  | none, [] => none
  | none, next :: turns => if wait then waitForChunk wait next turns else none

def PoolEnv.stall (env : PoolEnv) : Option (UInt64 × UInt64) :=
  match env.first with
  | some _ => none
  | none => some (env.started, env.ended)

/-- What the call comes to, for the records that it lets through. -/
def PoolEnv.fresh (env : PoolEnv) : Option FreshChunk :=
  (waitForChunk env.wait env.first env.turns).map fun _ => ⟨env.memory, env.stall⟩

structure ChunkStore where
  chunk : Option Nat
  start : Nat
  length : Nat
  deriving DecidableEq, Repr

/-- A thread, the index of its chunk, the chunks it took from the pool, those it was given, and its stores. -/
structure ChunkThread where
  thread : ProfThread
  index : Option Nat
  taken : List Nat
  attached : List Nat
  stores : List ChunkStore

namespace ChunkThread

variable (w : ChunkThread)

def start : ChunkThread := ⟨.start, none, [], [], []⟩

def put (r : ProfRecord) : ChunkThread :=
  { w with
    thread := w.thread.put r
    stores := w.stores ++ [⟨w.index, w.thread.cur, r.bytes.length⟩] }

def commit : ChunkThread := { w with thread := w.thread.commit }

/-- `next_chunk`. The first chunk is taken before the length is checked. -/
def nextChunk (bytes : Nat) (env : PoolEnv) : ChunkThread × Bool :=
  if chunkSize < bytes + 16 then ({ w with taken := w.taken ++ env.first.toList }, false)
  else
    match waitForChunk env.wait env.first env.turns with
    | none => (w, false)
    | some index =>
      let stall := match env.stall with
        | none => []
        | some (started, ended) =>
          [⟨some index, 0, (⟨tickMask started, .stall (tickMask ended)⟩ : ProfRecord).bytes.length⟩]
      ({ thread := w.thread.nextChunk ⟨env.memory, env.stall⟩
         index := some index
         taken := w.taken ++ [index]
         attached := w.attached ++ [index]
         stores := w.stores ++ stall }, true)

/-- `reserve`, and whether there is room. -/
def reserve (bytes : Nat) (env : PoolEnv) : ChunkThread × Bool :=
  if w.thread.chunk ∧ bytes < chunkSize - w.thread.cur then (w, true) else w.nextChunk bytes env

def record (r : ProfRecord) (env : PoolEnv) : ChunkThread :=
  match w.reserve r.size env with
  | (w, false) => w
  | (w, true) => (w.put r).commit

def clearDropped : ChunkThread := { w with thread := w.thread.clearDropped }

/-- `write_dropped`. The entries are those of the table, and the position moves by `dropped_used` of them. -/
def writeDropped (now : UInt64) (env : PoolEnv) : ChunkThread :=
  if w.thread.droppedUsed = 0 then w
  else
    match w.reserve (16 + 16 * w.thread.droppedUsed) env with
    | (w', false) => w'.clearDropped
    | (w', true) =>
      let cur := w'.thread.cur
      let payload := load (store w'.thread.memory (cur + 16) w.thread.droppedBytes) (cur + 16)
        (16 * w.thread.droppedUsed)
      { w' with
        thread :=
          ((w'.thread.put ⟨tickMask now, .event (UInt32.ofNat eventDroppedCalls) payload⟩).commit).clearDropped
        stores := w'.stores ++ [⟨w'.index, cur, 16⟩, ⟨w'.index, cur + 16, w.thread.droppedBytes.length⟩] }

def countDropped (key : UInt64) (now : UInt64) (env : PoolEnv) : ChunkThread :=
  let slot := (key * 0x9E3779B97F4A7C15).toNat / 2 ^ 56
  let claim (w : ChunkThread) (at_ : Nat) : ChunkThread :=
    { w with thread := { w.thread with
        dropped := w.thread.dropped.set at_ ⟨key, 1⟩
        droppedUsed := w.thread.droppedUsed + 1 } }
  match w.thread.probeDropped key slot droppedProbes with
  | none => claim (w.writeDropped now env) slot
  | some at_ =>
    let d := w.thread.dropped.getD at_ ⟨0, 0⟩
    if d.key = key then
      let w := { w with thread := { w.thread with dropped := w.thread.dropped.set at_ ⟨key, d.count + 1⟩ } }
      if d.count + 1 = 0xFFFFFFFF then w.writeDropped now env else w
    else claim w at_

end ChunkThread

structure ChunkEnv where
  now : UInt64
  recordingChanges : Nat
  pool : PoolEnv
  droppedPool : PoolEnv

def ChunkEnv.writer (env : ChunkEnv) : WriterEnv :=
  ⟨env.now, env.recordingChanges, env.pool.fresh, env.droppedPool.fresh⟩

/-- `release_thread` does not wait. -/
def ChunkEnv.noWait (env : ChunkEnv) : ChunkEnv := { env with droppedPool := { env.droppedPool with wait := false } }

namespace ChunkThread

variable (w : ChunkThread)

def writeEnter (minCall : UInt64) (key : UInt64) (keep : Bool) (env : ChunkEnv) : ChunkThread :=
  match w.reserve 16 env.pool with
  | (w, false) => w
  | (w, true) =>
    let w' := w.put ⟨tickMask env.now, .enter key⟩
    let w' := { w' with thread := { w'.thread with depth := w.thread.depth + 1 } }
    if minCall ≠ 0 ∧ keep = false then
      match w.thread.held with
      | none =>
        { w' with thread := { w'.thread with
            held := some w.thread.cur
            heldRecording := env.recordingChanges } }
      | some _ => w'
    else w'.commit

def hlProfExit (minCall : UInt64) (env : ChunkEnv) : ChunkThread :=
  let t := w.thread
  let enter := LittleEndian.value (load t.memory (t.cur - 16) 8) % 2 ^ 56
  let key := LittleEndian.value (load t.memory (t.cur - 8) 8)
  let elapsed := (tickMask env.now + 2 ^ 64 - enter) % 2 ^ 64
  if t.held ≠ none ∧ t.heldRecording = env.recordingChanges ∧ elapsed < minCall.toNat then
    let cur := t.cur - 16
    let t := { t with
      cur := cur
      held := if t.held = some cur then none else t.held
      depth := t.depth - 1
      written := t.written.dropLast }
    { w with thread := t }.countDropped (UInt64.ofNat key) env.now env.droppedPool
  else
    match w.reserve 8 env.pool with
    | (w, false) => w
    | (w, true) =>
      ({ w with thread := { w.thread with depth := w.thread.depth - 1 } }.put ⟨tickMask env.now, .exit⟩).commit

def hlProfUnwind (depth : Int) (env : ChunkEnv) : ChunkThread :=
  if w.thread.depth ≤ depth then w
  else
    { w with thread := { w.thread with depth := depth } }.record
      ⟨tickMask env.now, .unwind (UInt64.ofNat (w.thread.depth - depth).toNat)⟩ env.pool

def hlProfFrame (idle : Bool) (frameSet : UInt32) (env : ChunkEnv) : ChunkThread :=
  match w.reserve 16 env.pool with
  | (w, false) => w
  | (w, true) =>
    ((w.put ⟨tickMask env.now, if idle then .frameIdle frameSet else .frameMark frameSet⟩).commit).writeDropped
      env.now env.droppedPool

def hlProfEvent (id : UInt32) (payload : Nat → UInt8) (length : UInt32) (env : ChunkEnv) : ChunkThread :=
  if chunkSize - 64 < length.toNat then w
  else w.record ⟨tickMask env.now, .event id (load payload 0 length.toNat)⟩ env.pool

def hlProfSample (tid : UInt32) (flags : UInt8) (frames : Nat → UInt64) (count : Int) (env : ChunkEnv) :
    ChunkThread :=
  let n := min count.toNat 0xFFFF
  if count < 0 ∨ chunkSize - 64 < 16 + n * 8 then w
  else w.record ⟨tickMask env.now, .sample tid flags ((List.range n).map frames)⟩ env.pool

def releaseThread (env : ChunkEnv) : ChunkThread :=
  let w := w.writeDropped env.now env.noWait.droppedPool
  match w.thread.held with
  | none => w
  | some _ => w.commit

end ChunkThread

/-- The calls of the writers, and the consumer. -/
inductive ChunkCall
  | enter (key : UInt64) (keep : Bool) (env : ChunkEnv)
  | exit (env : ChunkEnv)
  | unwind (depth : Int) (env : ChunkEnv)
  | spanBegin (name : Nat → UInt8) (units : Int) (encoding : UInt32) (env : ChunkEnv)
  | spanEnd (env : ChunkEnv)
  | frame (idle : Bool) (frameSet : UInt32) (env : ChunkEnv)
  | counter (name : Nat → UInt8) (units : Int) (encoding : UInt32) (value : UInt64) (env : ChunkEnv)
  | event (id : UInt32) (payload : Nat → UInt8) (length : UInt32) (env : ChunkEnv)
  | sample (tid : UInt32) (flags : UInt8) (frames : Nat → UInt64) (count : Int) (env : ChunkEnv)
  | release (env : ChunkEnv)
  | drain

def ChunkCall.erase : ChunkCall → ProfCall
  | .enter key keep env => .enter key keep env.writer
  | .exit env => .exit env.writer
  | .unwind depth env => .unwind depth env.writer
  | .spanBegin name units encoding env => .spanBegin name units encoding env.writer
  | .spanEnd env => .spanEnd env.writer
  | .frame idle frameSet env => .frame idle frameSet env.writer
  | .counter name units encoding value env => .counter name units encoding value env.writer
  | .event id payload length env => .event id payload length env.writer
  | .sample tid flags frames count env => .sample tid flags frames count env.writer
  | .release env => .release env.noWait.writer
  | .drain => .drain

/-- One call, in a session with the given `min_call_ticks`. -/
def ChunkThread.call (minCall : UInt64) (w : ChunkThread) : ChunkCall → ChunkThread
  | .enter key keep env => w.writeEnter minCall key keep env
  | .exit env => w.hlProfExit minCall env
  | .unwind depth env => w.hlProfUnwind depth env
  | .spanBegin name units encoding env =>
    w.record ⟨tickMask env.now, .spanBegin (ProfThread.nameOf name units encoding)⟩ env.pool
  | .spanEnd env => w.record ⟨tickMask env.now, .spanEnd⟩ env.pool
  | .frame idle frameSet env => w.hlProfFrame idle frameSet env
  | .counter name units encoding value env =>
    w.record ⟨tickMask env.now, .counter value (ProfThread.nameOf name units encoding)⟩ env.pool
  | .event id payload length env => w.hlProfEvent id payload length env
  | .sample tid flags frames count env => w.hlProfSample tid flags frames count env
  | .release env => w.releaseThread env
  | .drain => { w with thread := w.thread.drainThread }

def ChunkThread.run (minCall : UInt64) (w : ChunkThread) (calls : List ChunkCall) : ChunkThread :=
  calls.foldl (ChunkThread.call minCall) w

variable {w w' : ChunkThread} {bytes : Nat} {env : PoolEnv}

/-- The invariant of a thread and its chunks. -/
structure Bounded (w : ChunkThread) : Prop where
  index : w.thread.chunk = w.index.isSome
  last : w.index = w.attached.getLast?
  cur_lt : w.thread.chunk = true → w.thread.cur < chunkSize
  pos_le : w.thread.pos ≤ w.thread.cur
  empty : w.thread.chunk = false → w.thread.cur = 0
  held : ∀ p, w.thread.held = some p → w.thread.pos ≤ p ∧ ∃ k, w.thread.cur = p + 16 * (k + 1)
  stores : ∀ s ∈ w.stores, ∃ i ∈ w.attached, s.chunk = some i ∧ s.start + s.length ≤ chunkSize
  kept : w.taken = w.attached
  slots : w.thread.dropped.length = droppedSlots
  keys : w.thread.dropped.countP (fun d => d.key ≠ 0) ≤ w.thread.droppedUsed
  used : w.thread.droppedUsed ≤ w.thread.dropped.countP (fun d => d.key ≠ 0) + 1

theorem start_bounded : Bounded .start where
  index := rfl
  last := rfl
  cur_lt := nofun
  pos_le := Nat.le_refl 0
  empty := fun _ => rfl
  held := fun _ hp => by cases hp
  stores := fun _ hs => absurd hs List.not_mem_nil
  kept := rfl
  slots := List.length_replicate
  keys := by
    rw [show (ChunkThread.start.thread.dropped.countP fun d => d.key ≠ 0) = 0 from (tabled_clear .start).used]
    exact Nat.zero_le _
  used := Nat.zero_le _

theorem Bounded.index_mem (h : Bounded w) (hchunk : w.thread.chunk = true) :
    ∃ i ∈ w.attached, w.index = some i := by
  rw [h.index] at hchunk
  obtain ⟨i, hi⟩ := Option.isSome_iff_exists.mp hchunk
  refine ⟨i, ?_, hi⟩
  rw [h.last] at hi
  exact List.mem_of_getLast? hi

theorem Bounded.add_stores (h : Bounded w) (hchunk : w.thread.chunk = true) {l : List ChunkStore}
    (hl : ∀ s ∈ l, s.chunk = w.index ∧ s.start + s.length ≤ chunkSize) :
    ∀ s ∈ w.stores ++ l, ∃ i ∈ w.attached, s.chunk = some i ∧ s.start + s.length ≤ chunkSize := by
  intro s hs
  rcases List.mem_append.mp hs with hold | hnew
  · exact h.stores s hold
  · obtain ⟨i, hi, hindex⟩ := h.index_mem hchunk
    exact ⟨i, hi, (hl s hnew).1.trans hindex, (hl s hnew).2⟩

theorem size_stall (started ended : UInt64) :
    (⟨tickMask started, .stall (tickMask ended)⟩ : ProfRecord).size = 16 := size_two rfl

theorem length_le_size (r : ProfRecord) : r.bytes.length ≤ r.size := le_pad8 _

theorem nextChunk_cur (t : ProfThread) (fresh : FreshChunk) :
    (t.nextChunk fresh).cur ≤ 16 ∧ (t.nextChunk fresh).pos = (t.nextChunk fresh).cur ∧
      (t.nextChunk fresh).held = none := by
  unfold ProfThread.nextChunk
  dsimp only
  split
  · exact ⟨Nat.zero_le _, rfl, rfl⟩
  · next started ended hstall =>
    refine ⟨?_, rfl, rfl⟩
    change 0 + ProfRecord.size _ ≤ 16
    rw [size_stall]

/-- A thread that is given a chunk keeps what it took; for a length that the writers admit, nothing is taken
otherwise. -/
theorem Bounded.nextChunk (h : Bounded w) (hbytes : bytes + 48 ≤ chunkSize) (env : PoolEnv) :
    Bounded (w.nextChunk bytes env).1 ∧ ((w.nextChunk bytes env).2 = true →
      (w.nextChunk bytes env).1.thread.chunk = true ∧
        (w.nextChunk bytes env).1.thread.cur + bytes < chunkSize) := by
  unfold ChunkThread.nextChunk
  rw [if_neg (by omega)]
  split
  · exact ⟨h, fun hf => by cases hf⟩
  · next index hindex =>
    obtain ⟨hchunk, -, hdropped, hused⟩ := nextChunk_other (t := w.thread) ⟨env.memory, env.stall⟩
    obtain ⟨hcur, hpos, hheld⟩ := nextChunk_cur w.thread ⟨env.memory, env.stall⟩
    have hsmall : 16 < chunkSize := by decide
    refine ⟨?_, fun _ => ⟨hchunk, ?_⟩⟩
    · constructor
      · exact hchunk
      · exact List.getLast?_concat.symm
      · exact fun _ => Nat.lt_of_le_of_lt hcur hsmall
      · exact Nat.le_of_eq hpos
      · intro hnone
        change (w.thread.nextChunk _).chunk = false at hnone
        rw [hchunk] at hnone
        cases hnone
      · intro p hp
        change (w.thread.nextChunk _).held = some p at hp
        rw [hheld] at hp
        cases hp
      · intro s hs
        rcases List.mem_append.mp hs with hold | hnew
        · obtain ⟨i, hi, hs⟩ := h.stores s hold
          exact ⟨i, List.mem_append_left _ hi, hs⟩
        · refine ⟨index, List.mem_append_right _ (List.mem_singleton_self index), ?_⟩
          split at hnew
          · cases hnew
          · next started ended hstall =>
            rw [List.mem_singleton.mp hnew]
            have hle := length_le_size ⟨tickMask started, .stall (tickMask ended)⟩
            rw [size_stall] at hle
            refine ⟨rfl, ?_⟩
            dsimp only
            omega
      · change w.taken ++ [index] = w.attached ++ [index]
        rw [h.kept]
      · change (w.thread.nextChunk _).dropped.length = _
        rw [hdropped]
        exact h.slots
      · change (w.thread.nextChunk _).dropped.countP _ ≤ (w.thread.nextChunk _).droppedUsed
        rw [hdropped, hused]
        exact h.keys
      · change (w.thread.nextChunk _).droppedUsed ≤ (w.thread.nextChunk _).dropped.countP _ + 1
        rw [hdropped, hused]
        exact h.used
    · change (w.thread.nextChunk _).cur + bytes < chunkSize
      omega

theorem Bounded.reserve (h : Bounded w) (hbytes : bytes + 48 ≤ chunkSize) (env : PoolEnv) :
    Bounded (w.reserve bytes env).1 ∧ ((w.reserve bytes env).2 = true →
      (w.reserve bytes env).1.thread.chunk = true ∧ (w.reserve bytes env).1.thread.cur + bytes < chunkSize) := by
  unfold ChunkThread.reserve
  split
  · next hroom => exact ⟨h, fun _ => ⟨hroom.1, show w.thread.cur + bytes < chunkSize by omega⟩⟩
  · exact h.nextChunk hbytes env

theorem Bounded.put_commit (h : Bounded w) (hchunk : w.thread.chunk = true) {r : ProfRecord}
    (hroom : w.thread.cur + r.size < chunkSize) : Bounded (w.put r).commit where
  index := h.index
  last := h.last
  cur_lt := fun _ => hroom
  pos_le := Nat.le_refl _
  empty := fun hnone => by
    change w.thread.chunk = false at hnone
    rw [hchunk] at hnone
    cases hnone
  held := fun _ hp => by cases hp
  stores := by
    apply h.add_stores hchunk
    intro s hs
    rw [List.mem_singleton.mp hs]
    have hle := length_le_size r
    exact ⟨rfl, show w.thread.cur + r.bytes.length ≤ chunkSize by omega⟩
  kept := h.kept
  slots := h.slots
  keys := h.keys
  used := h.used

theorem Bounded.depth (h : Bounded w) (depth : Int) : Bounded { w with thread := { w.thread with depth := depth } } :=
  ⟨h.index, h.last, h.cur_lt, h.pos_le, h.empty, h.held, h.stores, h.kept, h.slots, h.keys, h.used⟩

theorem Bounded.record (h : Bounded w) {r : ProfRecord} (hsize : r.size + 48 ≤ chunkSize) (env : PoolEnv) :
    Bounded (w.record r env) := by
  obtain ⟨hreserve, hroom⟩ := h.reserve hsize env
  unfold ChunkThread.record
  rcases hres : w.reserve r.size env with ⟨w₁, _ | _⟩
  · rw [hres] at hreserve
    exact hreserve
  · rw [hres] at hreserve hroom
    obtain ⟨hchunk, hfits⟩ := hroom rfl
    exact hreserve.put_commit hchunk hfits

theorem Bounded.clearDropped (h : Bounded w) : Bounded w.clearDropped where
  index := h.index
  last := h.last
  cur_lt := h.cur_lt
  pos_le := h.pos_le
  empty := h.empty
  held := h.held
  stores := h.stores
  kept := h.kept
  slots := List.length_replicate
  keys := by
    change w.thread.clearDropped.dropped.countP _ ≤ w.thread.clearDropped.droppedUsed
    rw [(tabled_clear w.thread).used]
  used := Nat.zero_le _

theorem Bounded.length_droppedBytes_le (h : Bounded w) :
    w.thread.droppedBytes.length ≤ 16 * w.thread.droppedUsed := by
  rw [length_droppedBytes]
  exact Nat.mul_le_mul_left 16 h.keys

theorem Bounded.droppedUsed_le (h : Bounded w) : w.thread.droppedUsed ≤ droppedSlots + 1 := by
  have hcount := List.countP_le_length (p := fun d : DroppedCall => decide (d.key ≠ 0)) (l := w.thread.dropped)
  rw [h.slots] at hcount
  exact Nat.le_trans h.used (Nat.succ_le_succ hcount)

theorem Bounded.writeDropped (h : Bounded w) (now : UInt64) (env : PoolEnv) :
    Bounded (w.writeDropped now env) := by
  unfold ChunkThread.writeDropped
  split
  · exact h
  · have hused := h.droppedUsed_le
    have hlength := h.length_droppedBytes_le
    have hbytes : 16 + 16 * w.thread.droppedUsed + 48 ≤ chunkSize := by
      unfold droppedSlots at hused
      unfold chunkSize
      omega
    obtain ⟨hreserve, hroom⟩ := h.reserve hbytes env
    rcases hres : w.reserve (16 + 16 * w.thread.droppedUsed) env with ⟨w₁, _ | _⟩
    · rw [hres] at hreserve
      exact hreserve.clearDropped
    · rw [hres] at hreserve hroom
      obtain ⟨hchunk, hfits⟩ := hroom rfl
      dsimp only
      generalize hpayload : load (store w₁.thread.memory (w₁.thread.cur + 16) w.thread.droppedBytes)
        (w₁.thread.cur + 16) (16 * w.thread.droppedUsed) = payload
      have hsize : (⟨tickMask now, .event (UInt32.ofNat eventDroppedCalls) payload⟩ : ProfRecord).size =
          16 + 16 * w.thread.droppedUsed := by
        rw [size_eq, RecordBody.bytes, List.length_append, LittleEndian.length_bytes, ← hpayload, length_load]
        unfold pad8
        omega
      have hput := hreserve.put_commit hchunk
        (r := ⟨tickMask now, .event (UInt32.ofNat eventDroppedCalls) payload⟩) (by rw [hsize]; exact hfits)
      have hclear := hput.clearDropped
      refine ⟨hclear.index, hclear.last, hclear.cur_lt, hclear.pos_le, hclear.empty, hclear.held, ?_, hclear.kept,
        hclear.slots, hclear.keys, hclear.used⟩
      apply hreserve.add_stores hchunk
      intro s hs
      dsimp only at hfits
      rcases List.mem_cons.mp hs with rfl | hs
      · exact ⟨rfl, show w₁.thread.cur + 16 ≤ chunkSize by omega⟩
      · rw [List.mem_singleton.mp hs]
        exact ⟨rfl, show w₁.thread.cur + 16 + w.thread.droppedBytes.length ≤ chunkSize by omega⟩

theorem Bounded.setTable (h : Bounded w) {dropped : List DroppedCall} {used : Nat}
    (hlength : dropped.length = w.thread.dropped.length) (hkeys : dropped.countP (fun d => d.key ≠ 0) ≤ used)
    (hused : used ≤ dropped.countP (fun d => d.key ≠ 0) + 1) :
    Bounded { w with thread := { w.thread with dropped := dropped, droppedUsed := used } } :=
  ⟨h.index, h.last, h.cur_lt, h.pos_le, h.empty, h.held, h.stores, h.kept, hlength.trans h.slots, hkeys, hused⟩

theorem writeDropped_empties (w : ChunkThread) (now : UInt64) (env : PoolEnv) (hused : w.thread.droppedUsed ≠ 0) :
    (w.writeDropped now env).thread.droppedUsed = 0 := by
  unfold ChunkThread.writeDropped
  rw [if_neg hused]
  rcases w.reserve (16 + 16 * w.thread.droppedUsed) env with ⟨w₁, _ | _⟩
  · rfl
  · rfl

theorem Bounded.probe_none (h : Bounded w) {key : UInt64} {slot n : Nat}
    (hprobe : w.thread.probeDropped key slot (n + 1) = none) : w.thread.droppedUsed ≠ 0 := by
  intro hused
  have hzero : w.thread.dropped.countP (fun d => d.key ≠ 0) = 0 := by
    have hkeys := h.keys
    omega
  exact probeDropped_none ⟨h.slots, by rw [hzero, hused]⟩ hprobe hused

theorem Bounded.countDropped (h : Bounded w) (key now : UInt64) (env : PoolEnv) :
    Bounded (w.countDropped key now env) := by
  have hwritten := h.writeDropped now env
  unfold ChunkThread.countDropped
  dsimp only
  split
  · next hprobe =>
    have hused := writeDropped_empties w now env (h.probe_none hprobe)
    rw [hused]
    apply hwritten.setTable List.length_set
    · have hkeys := hwritten.keys
      rw [hused] at hkeys
      have hle := countP_set_le (l := (w.writeDropped now env).thread.dropped)
        (i := (key * 0x9E3779B97F4A7C15).toNat / 2 ^ 56) (d := ⟨key, 1⟩)
      omega
    · exact Nat.succ_le_succ (Nat.zero_le _)
  · next i hprobe =>
    obtain ⟨hi, hfound⟩ := probeDropped_some hprobe
    split
    · next hsame =>
      have hcount : (w.thread.dropped.set i ⟨key, (w.thread.dropped.getD i ⟨0, 0⟩).count + 1⟩).countP
          (fun d => d.key ≠ 0) = w.thread.dropped.countP (fun d => d.key ≠ 0) := by
        rw [← hsame, countP_set_count]
      have hset : Bounded { w with thread := { w.thread with
          dropped := w.thread.dropped.set i ⟨key, (w.thread.dropped.getD i ⟨0, 0⟩).count + 1⟩ } } := by
        apply h.setTable List.length_set
        · rw [hcount]
          exact h.keys
        · rw [hcount]
          exact h.used
      split
      · exact hset.writeDropped now env
      · exact hset
    · next hother =>
      have hfree := hfound.resolve_left hother
      have hkey : key ≠ 0 := by
        rintro rfl
        exact hother hfree
      have hsum := sum_map_set (show i < w.thread.dropped.length by rwa [h.slots])
        (fun d => if d.key ≠ 0 then 1 else 0) ⟨key, 1⟩
      rw [← countP_eq_sum, ← countP_eq_sum, if_neg (not_not.mpr hfree), if_pos hkey, Nat.add_zero] at hsum
      apply h.setTable List.length_set
      · rw [hsum]
        exact Nat.succ_le_succ h.keys
      · rw [hsum]
        exact Nat.succ_le_succ h.used

theorem Bounded.writeEnter (h : Bounded w) (minCall key : UInt64) (keep : Bool) (env : ChunkEnv) :
    Bounded (w.writeEnter minCall key keep env) := by
  obtain ⟨hreserve, hroom⟩ := h.reserve (show 16 + 48 ≤ chunkSize by decide) env.pool
  have hsize : (⟨tickMask env.now, .enter key⟩ : ProfRecord).size = 16 := size_two rfl
  unfold ChunkThread.writeEnter
  rcases hres : w.reserve 16 env.pool with ⟨w₁, _ | _⟩
  · rw [hres] at hreserve
    exact hreserve
  · rw [hres] at hreserve hroom
    obtain ⟨hchunk, hfits⟩ := hroom rfl
    dsimp only at hreserve hchunk hfits ⊢
    have hput := hreserve.put_commit hchunk (r := ⟨tickMask env.now, .enter key⟩) (by rw [hsize]; exact hfits)
    have hpos := hreserve.pos_le
    have hend : w₁.thread.cur + (⟨tickMask env.now, .enter key⟩ : ProfRecord).size = w₁.thread.cur + 16 := by
      rw [hsize]
    split
    · split
      · refine ⟨hput.index, hput.last, hput.cur_lt, ?_, hput.empty, ?_, hput.stores, hput.kept, hput.slots,
          hput.keys, hput.used⟩
        · change w₁.thread.pos ≤ w₁.thread.cur + ProfRecord.size _
          omega
        · intro p hp
          cases hp
          exact ⟨hpos, 0, hend⟩
      · next start hheld =>
        refine ⟨hput.index, hput.last, hput.cur_lt, ?_, hput.empty, ?_, hput.stores, hput.kept, hput.slots,
          hput.keys, hput.used⟩
        · change w₁.thread.pos ≤ w₁.thread.cur + ProfRecord.size _
          omega
        · intro p hp
          obtain ⟨hle, k, hk⟩ := hreserve.held p hp
          refine ⟨hle, k + 1, ?_⟩
          change w₁.thread.cur + ProfRecord.size _ = _
          omega
    · exact hput.depth _

theorem Bounded.hlProfExit (h : Bounded w) (minCall : UInt64) (env : ChunkEnv) :
    Bounded (w.hlProfExit minCall env) := by
  unfold ChunkThread.hlProfExit
  dsimp only
  split
  · next hshort =>
    obtain ⟨p, hp⟩ := Option.ne_none_iff_exists'.mp hshort.1
    obtain ⟨hle, k, hk⟩ := h.held p hp
    refine Bounded.countDropped (w := { w with thread := { w.thread with
      cur := w.thread.cur - 16
      held := if w.thread.held = some (w.thread.cur - 16) then none else w.thread.held
      depth := w.thread.depth - 1
      written := w.thread.written.dropLast } })
      ⟨h.index, h.last, ?_, ?_, ?_, ?_, h.stores, h.kept, h.slots, h.keys, h.used⟩ _ _ _
    · intro hchunk
      exact Nat.lt_of_le_of_lt (Nat.sub_le _ _) (h.cur_lt hchunk)
    · change w.thread.pos ≤ w.thread.cur - 16
      omega
    · intro hnone
      change w.thread.cur - 16 = 0
      rw [h.empty hnone]
    · intro p' hp'
      change (if w.thread.held = some (w.thread.cur - 16) then none else w.thread.held) = some p' at hp'
      change w.thread.pos ≤ p' ∧ ∃ k, w.thread.cur - 16 = p' + 16 * (k + 1)
      split at hp'
      · cases hp'
      · next hne =>
        rw [hp] at hp' hne
        cases hp'
        cases k with
        | zero => exact absurd (by rw [hk]; rfl) hne
        | succ k => exact ⟨hle, k, by omega⟩
  · obtain ⟨hreserve, hroom⟩ := h.reserve (show 8 + 48 ≤ chunkSize by decide) env.pool
    rcases hres : w.reserve 8 env.pool with ⟨w₁, _ | _⟩
    · rw [hres] at hreserve
      exact hreserve
    · rw [hres] at hreserve hroom
      obtain ⟨hchunk, hfits⟩ := hroom rfl
      refine (hreserve.depth (w₁.thread.depth - 1)).put_commit (r := ⟨tickMask env.now, .exit⟩) hchunk ?_
      rw [size_one rfl]
      exact hfits

theorem Bounded.hlProfFrame (h : Bounded w) (idle : Bool) (frameSet : UInt32) (env : ChunkEnv) :
    Bounded (w.hlProfFrame idle frameSet env) := by
  obtain ⟨hreserve, hroom⟩ := h.reserve (show 16 + 48 ≤ chunkSize by decide) env.pool
  have hsize : (⟨tickMask env.now, if idle then .frameIdle frameSet else .frameMark frameSet⟩ :
      ProfRecord).size = 16 := by
    split <;> exact size_two rfl
  unfold ChunkThread.hlProfFrame
  rcases hres : w.reserve 16 env.pool with ⟨w₁, _ | _⟩
  · rw [hres] at hreserve
    exact hreserve
  · rw [hres] at hreserve hroom
    obtain ⟨hchunk, hfits⟩ := hroom rfl
    exact (hreserve.put_commit hchunk (by rw [hsize]; exact hfits)).writeDropped _ _

theorem Bounded.releaseThread (h : Bounded w) (env : ChunkEnv) : Bounded (w.releaseThread env) := by
  have hwritten := h.writeDropped env.now env.noWait.droppedPool
  unfold ChunkThread.releaseThread
  dsimp only
  generalize w.writeDropped env.now env.noWait.droppedPool = w₁ at hwritten
  split
  · exact hwritten
  · exact ⟨hwritten.index, hwritten.last, hwritten.cur_lt, Nat.le_refl _, hwritten.empty, fun _ hp => (by cases hp),
      hwritten.stores, hwritten.kept, hwritten.slots, hwritten.keys, hwritten.used⟩

theorem Bounded.drainThread (h : Bounded w) : Bounded { w with thread := w.thread.drainThread } := by
  unfold ProfThread.drainThread
  split
  · exact ⟨h.index, h.last, h.cur_lt, h.pos_le, h.empty, h.held, h.stores, h.kept, h.slots, h.keys, h.used⟩
  · exact h

theorem Bounded.call (h : Bounded w) (minCall : UInt64) (c : ChunkCall) : Bounded (w.call minCall c) := by
  cases c with
  | enter key keep env => exact h.writeEnter minCall key keep env
  | exit env => exact h.hlProfExit minCall env
  | unwind depth env =>
    change Bounded (w.hlProfUnwind depth env)
    unfold ChunkThread.hlProfUnwind
    split
    · exact h
    · refine (h.depth depth).record ?_ _
      rw [size_two rfl]
      decide
  | spanBegin name units encoding env =>
    have hlength := length_nameOf name units encoding
    refine h.record ?_ _
    rw [size_eq, RecordBody.bytes, List.length_append, LittleEndian.length_bytes]
    unfold pad8 chunkSize
    omega
  | spanEnd env =>
    refine h.record ?_ _
    rw [size_one rfl]
    decide
  | frame idle frameSet env => exact h.hlProfFrame idle frameSet env
  | counter name units encoding value env =>
    have hlength := length_nameOf name units encoding
    refine h.record ?_ _
    rw [size_eq, RecordBody.bytes, List.length_append, List.length_append, LittleEndian.length_bytes,
      LittleEndian.length_bytes]
    unfold pad8 chunkSize
    omega
  | event id payload length env =>
    change Bounded (w.hlProfEvent id payload length env)
    unfold ChunkThread.hlProfEvent
    split
    · exact h
    · next hfits =>
      refine h.record ?_ _
      rw [size_eq, RecordBody.bytes, List.length_append, LittleEndian.length_bytes, length_load]
      unfold chunkSize at hfits ⊢
      unfold pad8
      omega
  | sample tid flags frames count env =>
    change Bounded (w.hlProfSample tid flags frames count env)
    unfold ChunkThread.hlProfSample
    dsimp only
    split
    · exact h
    · next hfits =>
      rw [not_or] at hfits
      refine h.record ?_ _
      rw [size_eq, RecordBody.bytes, List.length_append, LittleEndian.length_bytes, length_frames,
        List.length_map, List.length_range]
      unfold chunkSize at hfits ⊢
      unfold pad8
      omega
  | release env => exact h.releaseThread env
  | drain => exact h.drainThread

theorem Bounded.run (h : Bounded w) (minCall : UInt64) (calls : List ChunkCall) :
    Bounded (w.run minCall calls) := by
  induction calls generalizing w with
  | nil => exact h
  | cons c calls ih => exact ih (h.call minCall c)

theorem reserve_thread (w : ChunkThread) (bytes : Nat) (env : PoolEnv) :
    w.thread.reserve bytes env.fresh =
      if (w.reserve bytes env).2 then some (w.reserve bytes env).1.thread else none := by
  unfold ProfThread.reserve ChunkThread.reserve
  split
  · rfl
  · unfold ChunkThread.nextChunk PoolEnv.fresh
    split
    · rfl
    · cases waitForChunk env.wait env.first env.turns with
      | none => rfl
      | some index => rfl

variable (w bytes env) in
theorem reserve_lost (h : (w.reserve bytes env).2 = false) : (w.reserve bytes env).1.thread = w.thread := by
  unfold ChunkThread.reserve at h ⊢
  split
  · rfl
  · next hfull =>
    rw [if_neg hfull] at h
    unfold ChunkThread.nextChunk at h ⊢
    split
    · rfl
    · next hsmall =>
      rw [if_neg hsmall] at h
      split
      · rfl
      · next index hindex =>
        rw [hindex] at h
        cases h

theorem record_thread (w : ChunkThread) (r : ProfRecord) (env : PoolEnv) :
    (w.record r env).thread = w.thread.record r env.fresh := by
  have hreserve := reserve_thread w r.size env
  have hlost := reserve_lost w r.size env
  unfold ChunkThread.record ProfThread.record
  rcases hres : w.reserve r.size env with ⟨w₁, _ | _⟩
  · rw [hres] at hreserve hlost
    rw [hreserve]
    exact hlost rfl
  · rw [hres] at hreserve
    rw [hreserve]
    rfl

theorem writeDropped_thread (w : ChunkThread) (now : UInt64) (env : PoolEnv) :
    (w.writeDropped now env).thread = w.thread.writeDropped now env.fresh := by
  have hreserve := reserve_thread w (16 + 16 * w.thread.droppedUsed) env
  have hlost := reserve_lost w (16 + 16 * w.thread.droppedUsed) env
  unfold ChunkThread.writeDropped ProfThread.writeDropped
  split
  · rfl
  · rcases hres : w.reserve (16 + 16 * w.thread.droppedUsed) env with ⟨w₁, _ | _⟩
    · rw [hres] at hreserve hlost
      rw [hreserve]
      exact congrArg ProfThread.clearDropped (hlost rfl)
    · rw [hres] at hreserve
      rw [hreserve]
      rfl

theorem countDropped_thread (w : ChunkThread) (key now : UInt64) (env : PoolEnv) :
    (w.countDropped key now env).thread = w.thread.countDropped key now env.fresh := by
  unfold ChunkThread.countDropped ProfThread.countDropped
  dsimp only
  cases w.thread.probeDropped key ((key * 0x9E3779B97F4A7C15).toNat / 2 ^ 56) droppedProbes with
  | none =>
    dsimp only
    rw [writeDropped_thread]
  | some i =>
    dsimp only
    by_cases hkey : (w.thread.dropped.getD i ⟨0, 0⟩).key = key
    · rw [if_pos hkey, if_pos hkey]
      by_cases hfull : (w.thread.dropped.getD i ⟨0, 0⟩).count + 1 = 0xFFFFFFFF
      · rw [if_pos hfull, if_pos hfull, writeDropped_thread]
      · rw [if_neg hfull, if_neg hfull]
    · rw [if_neg hkey, if_neg hkey]

theorem call_thread (w : ChunkThread) (minCall : UInt64) (c : ChunkCall) :
    (w.call minCall c).thread = w.thread.call minCall c.erase := by
  cases c with
  | enter key keep env =>
    change (w.writeEnter minCall key keep env).thread = w.thread.writeEnter minCall key keep env.writer
    have hreserve := reserve_thread w 16 env.pool
    have hlost := reserve_lost w 16 env.pool
    unfold ChunkThread.writeEnter ProfThread.writeEnter
    dsimp only [ChunkEnv.writer]
    rcases hres : w.reserve 16 env.pool with ⟨w₁, _ | _⟩
    · rw [hres] at hreserve hlost
      rw [hreserve]
      exact hlost rfl
    · rw [hres] at hreserve
      have hroom : w.thread.reserve 16 env.pool.fresh = some w₁.thread := hreserve
      rw [hroom]
      dsimp only
      split
      · cases w₁.thread.held with
        | none => rfl
        | some start => rfl
      · rfl
  | exit env =>
    change (w.hlProfExit minCall env).thread = w.thread.hlProfExit minCall env.writer
    have hreserve := reserve_thread w 8 env.pool
    have hlost := reserve_lost w 8 env.pool
    unfold ChunkThread.hlProfExit ProfThread.hlProfExit
    dsimp only
    by_cases hshort : w.thread.held ≠ none ∧ w.thread.heldRecording = env.recordingChanges ∧
        (tickMask env.now + 2 ^ 64 - LittleEndian.value (load w.thread.memory (w.thread.cur - 16) 8) % 2 ^ 56) %
          2 ^ 64 < minCall.toNat
    · rw [if_pos hshort]
      exact (countDropped_thread _ _ _ _).trans (if_pos hshort).symm
    · rw [if_neg hshort]
      refine Eq.trans ?_ (if_neg hshort).symm
      dsimp only [ChunkEnv.writer]
      rcases hres : w.reserve 8 env.pool with ⟨w₁, _ | _⟩
      · rw [hres] at hreserve hlost
        rw [hreserve]
        exact hlost rfl
      · rw [hres] at hreserve
        rw [hreserve]
        rfl
  | unwind depth env =>
    change (w.hlProfUnwind depth env).thread = w.thread.hlProfUnwind depth env.writer
    unfold ChunkThread.hlProfUnwind ProfThread.hlProfUnwind
    split
    · rfl
    · exact record_thread _ _ _
  | spanBegin name units encoding env => exact record_thread _ _ _
  | spanEnd env => exact record_thread _ _ _
  | frame idle frameSet env =>
    change (w.hlProfFrame idle frameSet env).thread = w.thread.hlProfFrame idle frameSet env.writer
    have hreserve := reserve_thread w 16 env.pool
    have hlost := reserve_lost w 16 env.pool
    unfold ChunkThread.hlProfFrame ProfThread.hlProfFrame
    dsimp only [ChunkEnv.writer]
    rcases hres : w.reserve 16 env.pool with ⟨w₁, _ | _⟩
    · rw [hres] at hreserve hlost
      rw [hreserve]
      exact hlost rfl
    · rw [hres] at hreserve
      rw [hreserve]
      exact writeDropped_thread _ _ _
  | counter name units encoding value env => exact record_thread _ _ _
  | event id payload length env =>
    change (w.hlProfEvent id payload length env).thread = w.thread.hlProfEvent id payload length env.writer
    unfold ChunkThread.hlProfEvent ProfThread.hlProfEvent
    split
    · rfl
    · exact record_thread _ _ _
  | sample tid flags frames count env =>
    change (w.hlProfSample tid flags frames count env).thread =
      w.thread.hlProfSample tid flags frames count env.writer
    unfold ChunkThread.hlProfSample ProfThread.hlProfSample
    dsimp only
    split
    · rfl
    · exact record_thread _ _ _
  | release env =>
    change (w.releaseThread env).thread = w.thread.releaseThread env.noWait.writer
    unfold ChunkThread.releaseThread ProfThread.releaseThread
    dsimp only
    have hwritten : (w.writeDropped env.now env.noWait.droppedPool).thread =
        w.thread.writeDropped env.noWait.writer.now env.noWait.writer.droppedRoom := writeDropped_thread _ _ _
    rw [← hwritten]
    cases (w.writeDropped env.now env.noWait.droppedPool).thread.held with
    | none => rfl
    | some start => rfl
  | drain => rfl

theorem run_thread (w : ChunkThread) (minCall : UInt64) (calls : List ChunkCall) :
    (w.run minCall calls).thread = (calls.map ChunkCall.erase).foldl (ProfThread.call minCall) w.thread := by
  induction calls generalizing w with
  | nil => rfl
  | cons c calls ih =>
    rw [List.map_cons, List.foldl_cons, ← call_thread]
    exact ih _

/-- From the start, and from every state of the invariant, whatever the lengths and the fill of the chunk: a record
is stored inside a chunk of the thread, positions stay before the end of the chunk, and the chunks taken from the
pool are those that the thread was given. The threads are those of the writers without the chunks. -/
theorem chunk_bounds :
    Bounded .start ∧ ∀ (minCall : UInt64) (w : ChunkThread) (calls : List ChunkCall), Bounded w →
        Bounded (w.run minCall calls) ∧
          (∀ s ∈ (w.run minCall calls).stores, ∃ i ∈ (w.run minCall calls).attached,
            s.chunk = some i ∧ s.start + s.length ≤ chunkSize) ∧
          ((w.run minCall calls).thread.chunk = true →
            (w.run minCall calls).thread.pos < chunkSize ∧ (w.run minCall calls).thread.cur < chunkSize) ∧
          (w.run minCall calls).taken = (w.run minCall calls).attached ∧
          (w.run minCall calls).thread = (calls.map ChunkCall.erase).foldl (ProfThread.call minCall) w.thread := by
  refine ⟨start_bounded, fun minCall w calls h => ?_⟩
  have hrun := h.run minCall calls
  refine ⟨hrun, hrun.stores, fun hchunk => ?_, hrun.kept, run_thread w minCall calls⟩
  have hcur := hrun.cur_lt hchunk
  exact ⟨Nat.lt_of_le_of_lt hrun.pos_le hcur, hcur⟩

def emptyPool : PoolEnv := ⟨true, none, [none, some 3], fun _ => 0, 10, 20⟩

theorem chunk_bounds_stall :
    (ChunkThread.start.run 0 [.spanEnd ⟨30, 0, emptyPool, emptyPool⟩]).stores =
        [⟨some 3, 0, 16⟩, ⟨some 3, 16, 8⟩] ∧
      (ChunkThread.start.run 0 [.spanEnd ⟨30, 0, emptyPool, emptyPool⟩]).taken =
        (ChunkThread.start.run 0 [.spanEnd ⟨30, 0, emptyPool, emptyPool⟩]).attached :=
  ⟨by decide +kernel, ((chunk_bounds).2 0 .start [.spanEnd ⟨30, 0, emptyPool, emptyPool⟩] (chunk_bounds).1).2.2.2.1⟩

end HashLink.Prof
