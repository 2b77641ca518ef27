import HashLink.Prof.Records

/-!
The writers of `prof.c` on one thread. A record goes to the thread's chunk at its current position, over whatever
the chunk held before. Most writers publish it at once; with a minimum call duration, an `ENTER` is held back
until something follows it, and a short call takes it back. The consumer is handed the published bytes.
-/

namespace HashLink.Prof

def tickMask (ticks : UInt64) : Nat := ticks.toNat % 2 ^ 56

/-- A chunk from the pool: the bytes it has from its last use, and the wait for it if there was one. -/
structure FreshChunk where
  memory : Nat → UInt8
  stall : Option (UInt64 × UInt64)

/-- What a call finds when it begins: the time since the base tick, `recording_changes`, and what
`next_chunk` comes to for the call's record and for the dropped calls after it. -/
structure WriterEnv where
  now : UInt64
  recordingChanges : Nat
  room : Option FreshChunk
  droppedRoom : Option FreshChunk

/-- `prof_dropped`. A slot without a key is free. -/
structure DroppedCall where
  key : UInt64
  count : UInt32
  deriving DecidableEq, Repr

/-- `DROPPED_SLOTS` and `DROPPED_PROBES`. -/
def droppedSlots : Nat := 256

def droppedProbes : Nat := 8

def maxNameUnits : Nat := 1024

/-- `prof_thread`, with the memory of its chunk and the consumer's offset into it. `written` are the records from
that offset on, and `segments` what the consumer was handed so far, each with the records that were written. -/
structure ProfThread where
  chunk : Bool
  memory : Nat → UInt8
  cur : Nat
  pos : Nat
  held : Option Nat
  heldRecording : Nat
  depth : Int
  dropped : List DroppedCall
  droppedUsed : Nat
  readOffset : Nat
  written : List ProfRecord
  segments : List (List ProfRecord × List UInt8)

/-- Stores bytes from `at_` on. -/
def store (memory : Nat → UInt8) (at_ : Nat) (data : List UInt8) : Nat → UInt8 :=
  fun i => if at_ ≤ i ∧ i < at_ + data.length then data.getD (i - at_) 0 else memory i

/-- The `n` bytes from `at_` on. -/
def load (memory : Nat → UInt8) (at_ n : Nat) : List UInt8 := (List.range n).map fun i => memory (at_ + i)

namespace ProfThread

variable (t : ProfThread)

def start : ProfThread where
  chunk := false
  memory := fun _ => 0
  cur := 0
  pos := 0
  held := none
  heldRecording := 0
  depth := 0
  dropped := List.replicate droppedSlots ⟨0, 0⟩
  droppedUsed := 0
  readOffset := 0
  written := []
  segments := []

def put (r : ProfRecord) : ProfThread :=
  { t with
    memory := store t.memory t.cur r.bytes
    cur := t.cur + r.size
    written := t.written ++ [r] }

def commit : ProfThread := { t with held := none, pos := t.cur }

/-- `next_chunk`, with a chunk from the pool. The rest of the finished chunk goes to the consumer. -/
def nextChunk (fresh : FreshChunk) : ProfThread :=
  let segments := if t.chunk ∧ t.readOffset < t.cur then
      t.segments ++ [(t.written, load t.memory t.readOffset (t.cur - t.readOffset))]
    else t.segments
  let t := { t with
    chunk := true
    memory := fresh.memory
    cur := 0
    pos := 0
    held := none
    readOffset := 0
    written := []
    segments := segments }
  match fresh.stall with
  | none => t
  | some (started, ended) => (t.put ⟨tickMask started, .stall (tickMask ended)⟩).commit

/-- `reserve`: room for a record, or the record is lost. -/
def reserve (bytes : Nat) (room : Option FreshChunk) : Option ProfThread :=
  if t.chunk ∧ bytes < chunkSize - t.cur then some t
  else if chunkSize < bytes + 16 then none
  else room.map t.nextChunk

def record (r : ProfRecord) (room : Option FreshChunk) : ProfThread :=
  match t.reserve r.size room with
  | none => t
  | some t => (t.put r).commit

def droppedBytes : List UInt8 :=
  (t.dropped.filter fun d => d.key ≠ 0).flatMap fun d =>
    LittleEndian.bytes 8 d.key.toNat ++ LittleEndian.bytes 8 d.count.toNat

def clearDropped : ProfThread :=
  { t with dropped := List.replicate droppedSlots ⟨0, 0⟩, droppedUsed := 0 }

/-- `write_dropped`. The payload has room for `dropped_used` entries, whatever the table has. -/
def writeDropped (now : UInt64) (room : Option FreshChunk) : ProfThread :=
  if t.droppedUsed = 0 then t
  else
    match t.reserve (16 + 16 * t.droppedUsed) room with
    | none => t.clearDropped
    | some t' =>
      let payload := load (store t'.memory (t'.cur + 16) t.droppedBytes) (t'.cur + 16) (16 * t.droppedUsed)
      ((t'.put ⟨tickMask now, .event (UInt32.ofNat eventDroppedCalls) payload⟩).commit).clearDropped

def probeDropped (key : UInt64) (slot : Nat) : Nat → Option Nat
  | 0 => none
  | n + 1 =>
    let at_ := (slot + (droppedProbes - (n + 1))) % droppedSlots
    let d := t.dropped.getD at_ ⟨0, 0⟩
    if d.key = key ∨ d.key = 0 then some at_ else probeDropped key slot n

def countDropped (key : UInt64) (now : UInt64) (room : Option FreshChunk) : ProfThread :=
  let slot := (key * 0x9E3779B97F4A7C15).toNat / 2 ^ 56
  let claim (t : ProfThread) (at_ : Nat) : ProfThread :=
    { t with dropped := t.dropped.set at_ ⟨key, 1⟩, droppedUsed := t.droppedUsed + 1 }
  match t.probeDropped key slot droppedProbes with
  | none => claim (t.writeDropped now room) slot
  | some at_ =>
    let d := t.dropped.getD at_ ⟨0, 0⟩
    if d.key = key then
      let t := { t with dropped := t.dropped.set at_ ⟨key, d.count + 1⟩ }
      if d.count + 1 = 0xFFFFFFFF then t.writeDropped now room else t
    else claim t at_

def writeEnter (minCall : UInt64) (key : UInt64) (keep : Bool) (env : WriterEnv) : ProfThread :=
  match t.reserve 16 env.room with
  | none => t
  | some t =>
    let t' := { t.put ⟨tickMask env.now, .enter key⟩ with depth := t.depth + 1 }
    if minCall ≠ 0 ∧ keep = false then
      match t.held with
      | none => { t' with held := some t.cur, heldRecording := env.recordingChanges }
      | some _ => t'
    else t'.commit

/-- `hl_prof_exit`. With a run held, the last record is the `ENTER` of the innermost open call. -/
def hlProfExit (minCall : UInt64) (env : WriterEnv) : ProfThread :=
  let enter := LittleEndian.value (load t.memory (t.cur - 16) 8) % 2 ^ 56
  let key := LittleEndian.value (load t.memory (t.cur - 8) 8)
  let elapsed := (tickMask env.now + 2 ^ 64 - enter) % 2 ^ 64
  if t.held ≠ none ∧ t.heldRecording = env.recordingChanges ∧ elapsed < minCall.toNat then
    let cur := t.cur - 16
    let t := { t with
      cur := cur
      held := if t.held = some cur then none else t.held
      depth := t.depth - 1
      written := t.written.dropLast }
    t.countDropped (UInt64.ofNat key) env.now env.droppedRoom
  else
    match t.reserve 8 env.room with
    | none => t
    | some t => ({ t with depth := t.depth - 1 }.put ⟨tickMask env.now, .exit⟩).commit

def hlProfUnwind (depth : Int) (env : WriterEnv) : ProfThread :=
  if t.depth ≤ depth then t
  else
    { t with depth := depth }.record ⟨tickMask env.now, .unwind (UInt64.ofNat (t.depth - depth).toNat)⟩ env.room

/-- The name that `write_named` stores, from the memory at its pointer. -/
def nameOf (name : Nat → UInt8) (units : Int) (encoding : UInt32) : RecordName :=
  let units := min units.toNat maxNameUnits
  ⟨units, encoding, load name 0 (units * if encoding = utf16 then 2 else 1)⟩

/-- `write_named` for a span. -/
def hlProfSpanBegin (name : Nat → UInt8) (units : Int) (encoding : UInt32) (env : WriterEnv) : ProfThread :=
  t.record ⟨tickMask env.now, .spanBegin (nameOf name units encoding)⟩ env.room

/-- `write_named` for a counter. -/
def hlProfCounter (name : Nat → UInt8) (units : Int) (encoding : UInt32) (value : UInt64)
    (env : WriterEnv) : ProfThread :=
  t.record ⟨tickMask env.now, .counter value (nameOf name units encoding)⟩ env.room

def hlProfSpanEnd (env : WriterEnv) : ProfThread := t.record ⟨tickMask env.now, .spanEnd⟩ env.room

/-- `hl_prof_frame`. A frame's dropped calls are counted within it. -/
def hlProfFrame (idle : Bool) (frameSet : UInt32) (env : WriterEnv) : ProfThread :=
  match t.reserve 16 env.room with
  | none => t
  | some t =>
    ((t.put ⟨tickMask env.now, if idle then .frameIdle frameSet else .frameMark frameSet⟩).commit).writeDropped
      env.now env.droppedRoom

def hlProfEvent (id : UInt32) (payload : Nat → UInt8) (length : UInt32) (env : WriterEnv) : ProfThread :=
  if chunkSize - 64 < length.toNat then t
  else t.record ⟨tickMask env.now, .event id (load payload 0 length.toNat)⟩ env.room

def hlProfSample (tid : UInt32) (flags : UInt8) (frames : Nat → UInt64) (count : Int) (env : WriterEnv) :
    ProfThread :=
  let n := min count.toNat 0xFFFF
  if count < 0 ∨ chunkSize - 64 < 16 + n * 8 then t
  else t.record ⟨tickMask env.now, .sample tid flags ((List.range n).map frames)⟩ env.room

/-- `release_thread`, when the thread no longer records. -/
def releaseThread (env : WriterEnv) : ProfThread :=
  let t := t.writeDropped env.now env.droppedRoom
  match t.held with
  | none => t
  | some _ => { t with held := none, pos := t.cur }

/-- `drain_thread` on the thread's chunk. -/
def drainThread : ProfThread :=
  if t.chunk ∧ t.readOffset < t.pos then
    let count := t.written.length - (t.cur - t.pos) / 16
    { t with
      readOffset := t.pos
      written := t.written.drop count
      segments := t.segments ++ [(t.written.take count, load t.memory t.readOffset (t.pos - t.readOffset))] }
  else t

end ProfThread

/-- The calls of the writers, and the consumer. -/
inductive ProfCall
  | enter (key : UInt64) (keep : Bool) (env : WriterEnv)
  | exit (env : WriterEnv)
  | unwind (depth : Int) (env : WriterEnv)
  | spanBegin (name : Nat → UInt8) (units : Int) (encoding : UInt32) (env : WriterEnv)
  | spanEnd (env : WriterEnv)
  | frame (idle : Bool) (frameSet : UInt32) (env : WriterEnv)
  | counter (name : Nat → UInt8) (units : Int) (encoding : UInt32) (value : UInt64) (env : WriterEnv)
  | event (id : UInt32) (payload : Nat → UInt8) (length : UInt32) (env : WriterEnv)
  | sample (tid : UInt32) (flags : UInt8) (frames : Nat → UInt64) (count : Int) (env : WriterEnv)
  | release (env : WriterEnv)
  | drain

/-- One call, in a session with the given `min_call_ticks`. -/
def ProfThread.call (minCall : UInt64) (t : ProfThread) : ProfCall → ProfThread
  | .enter key keep env => t.writeEnter minCall key keep env
  | .exit env => t.hlProfExit minCall env
  | .unwind depth env => t.hlProfUnwind depth env
  | .spanBegin name units encoding env => t.hlProfSpanBegin name units encoding env
  | .spanEnd env => t.hlProfSpanEnd env
  | .frame idle frameSet env => t.hlProfFrame idle frameSet env
  | .counter name units encoding value env => t.hlProfCounter name units encoding value env
  | .event id payload length env => t.hlProfEvent id payload length env
  | .sample tid flags frames count env => t.hlProfSample tid flags frames count env
  | .release env => t.releaseThread env
  | .drain => t.drainThread

section Memory

variable {memory : Nat → UInt8} {i n k : Nat} {data : List UInt8}

@[simp] theorem length_load (memory : Nat → UInt8) (i n : Nat) : (load memory i n).length = n := by
  rw [load, List.length_map, List.length_range]

theorem load_add (memory : Nat → UInt8) (i n k : Nat) :
    load memory i (n + k) = load memory i n ++ load memory (i + n) k := by
  rw [load, load, load, List.range_add, List.map_append, List.map_map]
  refine congrArg (_ ++ ·) (List.map_congr_left fun j _ => ?_)
  rw [Function.comp_apply, Nat.add_assoc]

theorem load_store_before (h : i + n ≤ k) : load (store memory k data) i n = load memory i n := by
  refine List.map_congr_left fun j hj => if_neg ?_
  rw [List.mem_range] at hj
  omega

theorem load_store_self : load (store memory i data) i data.length = data := by
  refine List.ext_getElem (by rw [length_load]) fun j hj hj' => ?_
  rw [length_load] at hj
  simp only [load, List.getElem_map, List.getElem_range, store]
  rw [if_pos (by omega), Nat.add_sub_cancel_left, List.getD_eq_getElem?_getD,
    List.getElem?_eq_getElem hj, Option.getD_some]

theorem length_nameOf (name : Nat → UInt8) (units : Int) (encoding : UInt32) :
    (ProfThread.nameOf name units encoding).bytes.length ≤ 2048 := by
  have hmin : min units.toNat maxNameUnits ≤ 1024 := Nat.min_le_right _ _
  change (load name 0 _).length ≤ 2048
  rw [length_load]
  split
  · omega
  · omega

end Memory

end HashLink.Prof
