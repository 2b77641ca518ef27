import Mathlib.Data.List.Basic
import Mathlib.Algebra.Group.Int.Units

/-!
The frames of the diagnostics endpoint, `diagnostics.c`, and the streaming session that pushes them.
The socket and the other parts of the runtime (the recorder, the clock, the thread list, the modules)
are inputs: the socket answers each send, and a `Runtime` holds what the rest answers while one step
of the session runs.

`handle_client` of `diagnostics.c`: it greets a client, then reads one request after another and
answers each, and pushes the frames of the session in between. The client's bytes, the socket and the
rest of the runtime are inputs of each turn of the loop; the program finishing is an event of its own.
-/

namespace HashLink.Diag

abbrev Bytes := List UInt8

def writeU32 (value : UInt32) : Bytes :=
  [value.toUInt8, (value >>> 8).toUInt8, (value >>> 16).toUInt8, (value >>> 24).toUInt8]

def writeU64 (value : UInt64) : Bytes :=
  writeU32 value.toUInt32 ++ writeU32 (value >>> 32).toUInt32

def readU32 (p : Bytes) : UInt32 :=
  (p.getD 0 0).toUInt32 ||| ((p.getD 1 0).toUInt32 <<< 8) ||| ((p.getD 2 0).toUInt32 <<< 16) |||
    ((p.getD 3 0).toUInt32 <<< 24)

def serviceControl : UInt8 := 0
def serviceProfiler : UInt8 := 2

def controlCapabilities : UInt8 := 1
def controlAuthenticate : UInt8 := 2

def profileStatus : UInt8 := 1
def profileMetadata : UInt8 := 4
def profileStart : UInt8 := 16
def profileStop : UInt8 := 17
def profilePause : UInt8 := 18
def profileResume : UInt8 := 19

def pushSession : UInt8 := 16
def pushDataType : UInt8 := 17
def pushClockType : UInt8 := 18
def pushThreadsType : UInt8 := 19
def pushEnd : UInt8 := 20
def pushStatsType : UInt8 := 21
def pushRecordingType : UInt8 := 22

def flagResponse : UInt16 := 1
def flagError : UInt16 := 2
def flagPush : UInt16 := 4

/-- A frame with its header. The header's length is the length of the payload. -/
structure Frame where
  service : UInt8
  type : UInt8
  flags : UInt16
  requestId : UInt32
  payload : Bytes
  deriving DecidableEq, Repr

/-- The static `session`. Times are in milliseconds. -/
structure Session where
  active : Bool
  finishRequested : Bool
  finished : Bool
  failed : Bool
  sources : UInt32
  dataFrames : UInt64
  rawBytes : UInt64
  sentBytes : UInt64
  threadsSignature : UInt32
  recordingChanges : Nat
  nextClock : Nat
  nextThreads : Nat
  nextStats : Nat
  nextGc : Nat
  frameCapacity : Nat
  deriving DecidableEq, Repr

/-- The state of `handle_client`. `answers` are the results of the sends to come, which all fail once
they are used up. `broken` says that a send has failed, and `sent` are the frames sent whole before:
behind a frame cut short the client finds no other. -/
structure Client where
  session : Session
  authenticated : Bool
  capabilities : UInt32
  answers : List Bool
  sent : List Frame
  broken : Bool
  closed : Bool
  deriving DecidableEq, Repr

/-- A segment that `hl_prof_drain` hands over. `compressed` is what LZ4 makes of it, empty when it
fails; `grown` is whether the frame buffer can grow, when it has to. -/
structure Segment where
  tid : UInt32
  data : Bytes
  compressed : Bytes
  grown : Bool
  fits : data.length < 2 ^ 32

/-- The answers of the rest of the runtime during one step of the session. -/
structure Runtime where
  segments : List Segment
  now : Nat
  metadataChanged : Bool
  /-- The metadata snapshot, `none` when it is beyond 64 MiB or cannot be allocated. -/
  snapshot : Option Bytes
  /-- Whether the lock of the thread list is free. -/
  threadsUnlocked : Bool
  /-- The named threads that `push_threads` lists. -/
  threads : List (UInt32 × Bytes)
  threadsFit : Bool
  chunkCount : UInt32
  chunksInUse : UInt32
  stalls : UInt64
  stallTicks : UInt64
  lostRecords : UInt64
  ticks : UInt64
  monotonicNs : UInt64
  unixNs : UInt64
  recordingChanges : Nat
  recording : Bool
  tickKind : UInt32
  baseTicks : UInt64
  nominalHz : UInt64
  /-- `hl_prof_start`, `hl_prof_set_recording` and `hl_profile_session_start`. -/
  profStart : Bool
  setRecording : Bool
  sessionStart : Bool

/-- `hl_diag_transport_send`. -/
def transportSend (c : Client) : Client × Bool :=
  match c.answers with
  | true :: rest => ({ c with answers := rest }, true)
  | _ :: rest => ({ c with answers := rest, broken := true }, false)
  | [] => ({ c with broken := true }, false)

def Client.log (c : Client) (f : Frame) : List Frame :=
  if c.broken then c.sent else c.sent ++ [f]

def sendFrame (c : Client) (f : Frame) : Client × Bool :=
  let (c, ok) := transportSend c
  if ok then
    if f.payload.length = 0 then ({ c with sent := c.log f }, true)
    else
      let (c, ok) := transportSend c
      if ok then ({ c with sent := c.log f }, true) else (c, false)
  else (c, false)

def pushFrame (type : UInt8) (payload : Bytes) : Frame :=
  ⟨serviceProfiler, type, flagPush, 0, payload⟩

def push (c : Client) (type : UInt8) (payload : Bytes) : Client :=
  if c.session.failed then c
  else
    let (c, ok) := sendFrame c (pushFrame type payload)
    if ok then
      { c with
        session := { c.session with
          sentBytes := c.session.sentBytes + (16 + UInt64.ofNat payload.length) } }
    else { c with session := { c.session with failed := true } }

/-- `LZ4_compressBound`. -/
def compressBound (length : Nat) : Nat :=
  if length > 0x7E000000 then 0 else length + length / 255 + 16

/-- The frame that `push_data` builds: compressed only when that is smaller. -/
def dataFrame (s : Segment) : Frame :=
  let small := 0 < s.compressed.length ∧ s.compressed.length < s.data.length
  pushFrame pushDataType (writeU32 s.tid ++ writeU32 (if small then 1 else 0) ++
    writeU32 (UInt32.ofNat s.data.length) ++ writeU32 0 ++ if small then s.compressed else s.data)

def pushData (c : Client) (s : Segment) : Client :=
  let bound := compressBound s.data.length
  if c.session.failed then c
  else if c.session.frameCapacity < 32 + bound ∧ ¬s.grown then
    { c with session := { c.session with failed := true } }
  else
    let c := { c with session := { c.session with
      frameCapacity := max c.session.frameCapacity (32 + bound) } }
    let (c, ok) := transportSend c
    if ok then
      { c with
        sent := c.log (dataFrame s)
        session := { c.session with
          dataFrames := c.session.dataFrames + 1
          rawBytes := c.session.rawBytes + UInt64.ofNat s.data.length
          sentBytes := c.session.sentBytes + (16 + UInt64.ofNat (dataFrame s).payload.length) } }
    else { c with session := { c.session with failed := true } }

def pushClock (c : Client) (r : Runtime) : Client :=
  push c pushClockType (writeU64 (r.ticks - r.baseTicks) ++ writeU64 r.monotonicNs ++ writeU64 r.unixNs)

/-- `add_thread_name`, the part of it that a change is found by. -/
def nameSignature (signature : UInt32) (thread : UInt32 × Bytes) : UInt32 :=
  thread.2.foldl (fun signature b => (signature ^^^ b.toUInt32) * 16777619)
    ((signature ^^^ thread.1) * 16777619)

def threadsPayload (threads : List (UInt32 × Bytes)) : Bytes :=
  writeU32 (UInt32.ofNat threads.length) ++ threads.flatMap fun t =>
    writeU32 t.1 ++ writeU32 (UInt32.ofNat t.2.length) ++ t.2

/-- Without `wait` the list is skipped for now when its lock is taken. -/
def pushThreads (c : Client) (r : Runtime) (force wait : Bool) : Client :=
  if ¬wait ∧ ¬r.threadsUnlocked then
    { c with session := { c.session with threadsSignature := 0 } }
  else
    let signature := r.threads.foldl nameSignature 2166136261
    if r.threadsFit ∧ (force ∨ signature ≠ c.session.threadsSignature) then
      push { c with session := { c.session with threadsSignature := signature } } pushThreadsType
        (threadsPayload r.threads)
    else c

def pushStats (c : Client) (r : Runtime) : Client :=
  push c pushStatsType (writeU32 r.chunksInUse ++ writeU32 r.chunkCount ++ writeU64 r.stalls ++
    writeU64 r.stallTicks ++ writeU64 c.session.rawBytes ++ writeU64 c.session.sentBytes ++
    writeU64 r.lostRecords)

def sendMetadata (c : Client) (r : Runtime) (requestId : UInt32) (flags : UInt16) :
    Client × Bool :=
  match r.snapshot with
  | none => (c, false)
  | some snapshot =>
    sendFrame c ⟨serviceProfiler, profileMetadata, flags, requestId, snapshot⟩

/-- `session_end`. What becomes of the metadata is not looked at. -/
def sessionEnd (c : Client) (r : Runtime) : Client :=
  if ¬c.session.active then c
  else
    let c := r.segments.foldl pushData c
    let c := if r.metadataChanged then (sendMetadata c r 0 flagPush).1 else c
    let c := pushThreads c r false true
    let c := pushStats c r
    let c := pushClock c r
    let c := push c pushEnd (writeU64 c.session.dataFrames ++ writeU64 c.session.rawBytes)
    { c with session := { c.session with active := false, finished := true } }

def pushRecording (c : Client) (r : Runtime) (force : Bool) : Client :=
  if ¬force ∧ r.recordingChanges = c.session.recordingChanges then c
  else
    push { c with session := { c.session with recordingChanges := r.recordingChanges } }
      pushRecordingType (writeU32 (if r.recording then 1 else 0))

def pushMetadata (c : Client) (r : Runtime) : Client :=
  let (c, ok) := sendMetadata c r 0 flagPush
  if ok then c else { c with session := { c.session with failed := true } }

/-! The periodic work of `session_pump`. -/

def gcDue (c : Client) (r : Runtime) : Client :=
  if r.now ≥ c.session.nextGc then
    { c with session := { c.session with nextGc := r.now + 1000 } }
  else c

def clockDue (c : Client) (r : Runtime) : Client :=
  if r.now ≥ c.session.nextClock then
    let c := pushClock c r
    { c with session := { c.session with nextClock := r.now + 100 } }
  else c

def threadsDue (c : Client) (r : Runtime) : Client :=
  if r.now ≥ c.session.nextThreads then
    let c := pushThreads c r false false
    { c with session := { c.session with nextThreads := r.now + 500 } }
  else c

def statsDue (c : Client) (r : Runtime) : Client :=
  if r.now ≥ c.session.nextStats then
    let c := pushStats c r
    { c with session := { c.session with nextStats := r.now + 1000 } }
  else c

def sessionPump (c : Client) (r : Runtime) : Client :=
  if c.session.finishRequested then sessionEnd c r
  else
    let c := r.segments.foldl pushData c
    let c := statsDue (threadsDue (clockDue (gcDue c r) r) r) r
    let c := pushRecording c r false
    if r.metadataChanged then pushMetadata c r else c

def statusPayload (c : Client) (r : Runtime) : Bytes :=
  writeU32 (if c.session.active then 1 else 0) ++ writeU32 c.session.sources ++
    writeU32 r.chunkCount ++ writeU32 r.chunksInUse ++ writeU64 c.session.dataFrames ++
    writeU64 c.session.rawBytes

def sendStatus (c : Client) (r : Runtime) (type : UInt8) (requestId : UInt32) : Client × Bool :=
  sendFrame c ⟨serviceProfiler, type, flagResponse, requestId, statusPayload c r⟩

/-- The fields that `session_start` sets once the recorder runs. -/
def Session.opened (s : Session) (sources : UInt32) : Session :=
  { s with
    active := true
    failed := false
    finishRequested := false
    finished := false
    sources := sources
    dataFrames := 0
    rawBytes := 0
    sentBytes := 0
    threadsSignature := 0 }

/-- The frames of `session_start` after the session frame, and the times of the periodic ones. -/
def firstFrames (c : Client) (r : Runtime) : Client :=
  let c := if c.session.failed then c else pushMetadata c r
  let c := pushClock c r
  let c := pushThreads c r true false
  let c := pushRecording c r true
  { c with session := { c.session with
    nextClock := r.now + 100, nextThreads := r.now + 500, nextStats := r.now + 1000
    nextGc := r.now } }

def sessionPayload (r : Runtime) (sources : UInt32) : Bytes :=
  writeU32 1 ++ writeU32 sources ++ writeU32 r.tickKind ++ writeU32 0 ++ writeU64 r.baseTicks ++
    writeU64 r.nominalHz

/-- `session_start`. When the sources cannot be started, the session ends at once; `last` are the
answers of the runtime by then. -/
def sessionStart (c : Client) (payload : Bytes) (requestId : UInt32) (r last : Runtime) :
    Client × Bool :=
  let sources := readU32 payload
  if c.session.active then (c, false)
  else if ¬r.profStart then (c, false)
  else
    let c := { c with session := c.session.opened sources }
    let (c, ok) := sendStatus c r profileStart requestId
    if ¬ok then ({ c with session := { c.session with failed := true } }, true)
    else
      let c := firstFrames (push c pushSession (sessionPayload r sources)) r
      if ¬r.sessionStart then (sessionEnd c last, true) else (c, true)

/-- The token of the environment, a C string: its characters before the terminating zero. The
environment's strings are far shorter than an `unsigned int` can count. -/
structure Token where
  chars : Bytes
  nonzero : ∀ b ∈ chars, b ≠ 0
  fits : chars.length < 2 ^ 32

/-- `diag_token`, null when the variable is not set. -/
abbrev DiagToken := Option Token

def DiagToken.configured (token : DiagToken) : Bool :=
  match token with
  | none => false
  | some t => !t.chars.isEmpty

def DiagToken.chars (token : DiagToken) : Bytes :=
  match token with
  | none => []
  | some t => t.chars

structure Header where
  service : UInt8
  type : UInt8
  requestId : UInt32
  length : UInt32
  deriving DecidableEq, Repr

structure Request where
  header : Header
  payload : Bytes
  whole : payload.length = header.length.toNat

def Request.isAuthenticate (q : Request) : Bool :=
  q.header.service = serviceControl ∧ q.header.type = controlAuthenticate ∧ q.header.length ≤ 1024

def difference (token : DiagToken) (payload : Bytes) (length : UInt32) : UInt32 :=
  let expected := UInt32.ofNat token.chars.length
  (payload.zipIdx).foldl (fun difference (b, i) =>
      difference ||| (b ^^^ if UInt32.ofNat i < expected then token.chars.getD i 0 else 0).toUInt32)
    (expected ^^^ length)

/-- The answer of `handle_client` to a request that is no error: the requests after authentication. -/
def serve (c : Client) (q : Request) (r last : Runtime) : Client × Bool :=
  let h := q.header
  if h.service = serviceControl ∧ h.type = controlCapabilities ∧ h.length = 0 then
    sendFrame c ⟨h.service, h.type, flagResponse, h.requestId, writeU32 c.capabilities⟩
  else if h.service = serviceProfiler ∧ h.type = profileStatus ∧ h.length = 0 then
    sendStatus c r h.type h.requestId
  else if h.service = serviceProfiler ∧ h.type = profileStart ∧
      (h.length = 16 ∨ h.length = 20 ∨ h.length = 24) then
    sessionStart c q.payload h.requestId r last
  else if h.service = serviceProfiler ∧ (h.type = profilePause ∨ h.type = profileResume) ∧ h.length = 0 then
    if c.session.active ∧ r.setRecording then sendStatus c r h.type h.requestId else (c, false)
  else if h.service = serviceProfiler ∧ h.type = profileStop ∧ h.length = 0 then
    sendStatus (sessionEnd c r) last h.type h.requestId
  else if h.service = serviceProfiler ∧ h.type = profileMetadata ∧ h.length = 0 then
    sendMetadata c r h.requestId flagResponse
  else (c, false)

/-- What `handle_client` does with a request, and whether it is honoured. -/
def dispatch (token : DiagToken) (c : Client) (q : Request) (r last : Runtime) : Client × Bool :=
  if q.isAuthenticate then
    let c := { c with authenticated := difference token q.payload q.header.length = 0 }
    if c.authenticated then
      sendFrame c ⟨q.header.service, q.header.type, flagResponse, q.header.requestId, []⟩
    else (c, false)
  else if ¬c.authenticated then (c, false)
  else serve c q r last

/-- The end of `handle_client`: a session still active is dropped. -/
def leave (c : Client) : Client :=
  if c.session.active then
    { c with closed := true, session := { c.session with active := false, finished := true } }
  else { c with closed := true }

/-- A request that is not honoured gets an empty error response. -/
def answer (token : DiagToken) (c : Client) (q : Request) (r last : Runtime) : Client :=
  let (c, ok) := dispatch token c q r last
  if ok then c
  else
    let (c, sent) := sendFrame c
      ⟨q.header.service, q.header.type, flagResponse ||| flagError, q.header.requestId, []⟩
    if sent then c else leave c

/-- What the client's end of the socket gives in one turn of the loop. -/
inductive Incoming where
  /-- The connection ends before a whole request. -/
  | lost
  /-- A header whose length is beyond 1 MiB. -/
  | oversized
  /-- No memory for the payload. -/
  | unallocated
  | request (q : Request) (admissible : q.header.length.toNat ≤ 2 ^ 20)

/-- The inputs of one turn of the loop: the two answers of `hl_diag_transport_readable`, the request
and the rest of the runtime. -/
structure Turn where
  ready : Int
  readyAgain : Int
  incoming : Incoming
  runtime : Runtime
  last : Runtime

def receive (token : DiagToken) (c : Client) (t : Turn) : Client :=
  match t.incoming with
  | .request q _ => answer token c q t.runtime t.last
  | _ => leave c

/-- One turn of the loop of `handle_client`. -/
def turn (token : DiagToken) (c : Client) (t : Turn) : Client :=
  if c.session.active then
    if c.session.failed then leave c
    else if t.ready < 0 then leave c
    else if t.ready = 0 then
      let c := sessionPump c t.runtime
      if c.session.active ∧ t.readyAgain < 0 then leave c else c
    else receive token c t
  else receive token c t

/-- What happens on a connection. `finish` is `hl_diagnostics_finish` of the program's thread; its flag
is read at the start of a pump only, so that it may as well come between two turns. -/
inductive Event where
  | finish
  | turn (t : Turn)

def step (token : DiagToken) (c : Client) (e : Event) : Client :=
  if c.closed then c
  else
    match e with
    | .finish =>
      if c.session.active then { c with session := { c.session with finishRequested := true } }
      else c
    | .turn t => turn token c t

def connect (token : DiagToken) (s : Session) (answers : List Bool) : Client :=
  let authenticated := !token.configured
  { session := s
    authenticated := authenticated
    capabilities := 1 ||| 2 ||| if authenticated then 0 else 4
    answers := answers
    sent := []
    broken := false
    closed := false }

def hello (token : DiagToken) (s : Session) (answers : List Bool) : Client :=
  let (c, ok) := transportSend (connect token s answers)
  if ok then c else { c with closed := true }

/-- A connection: no session is active when it begins. -/
def handleClient (token : DiagToken) (s : Session) (answers : List Bool) (events : List Event) :
    Client :=
  events.foldl (step token) (hello token { s with active := false } answers)

end HashLink.Diag
