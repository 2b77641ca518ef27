import HashLink.Diag.Protocol

/-!
The frames of a whole connection. Up to the first send that fails, if one does, they are in the order of
the protocol: whatever is pushed lies between a session frame and its end frame, whose totals are right,
and the requests have their responses in turn. As long as the socket takes what is sent, every request
has its one response, and a session that has no end frame was cut off, by the client's end of the
connection or by a metadata snapshot that could not be built.
-/

namespace HashLink.Diag

variable {cause : Prop} {c c' : Client} {token : DiagToken} {q : Request} {r last : Runtime}

/-- The request that an event makes `handle_client` answer. -/
def received (c : Client) (e : Event) : Option Request :=
  if c.closed then none
  else
    match e with
    | .finish => none
    | .turn t =>
      if c.session.active ∧ (c.session.failed ∨ t.ready ≤ 0) then none
      else
        match t.incoming with
        | .request q _ => some q
        | _ => none

/-- The requests answered while these events happen. -/
def history (token : DiagToken) (c : Client) : List Event → List Request
  | [] => []
  | e :: es => (received c e).toList ++ history token (step token c e) es

/-- What a response repeats of its request. -/
def Frame.key (f : Frame) : UInt8 × UInt8 × UInt32 := (f.service, f.type, f.requestId)

def Request.key (q : Request) : UInt8 × UInt8 × UInt32 :=
  (q.header.service, q.header.type, q.header.requestId)

def InSession (c : Client) : Prop :=
  ∃ n b, scan .idle c.sent = some (.streaming n b) ∧ c.session.dataFrames = UInt64.ofNat n ∧
    c.session.rawBytes = UInt64.ofNat b

theorem Streams.scanned (h : Streams cause c c') (hin : InSession c) :
    ∃ n b, scan .idle c'.sent = some (.streaming n b) := by
  obtain ⟨n, b, hscan, -⟩ := hin
  obtain ⟨fs, hsent, hbody, -⟩ := h.frames
  refine ⟨n + dataCount fs, b + rawCount fs, ?_⟩
  rw [hsent, scan_append, hscan]
  exact scan_body hbody n b

theorem Streams.inSession (h : Streams cause c c') (hin : InSession c) (hsound : c'.broken = false) :
    InSession c' := by
  obtain ⟨n, b, hscan, hcount, hraw⟩ := hin
  obtain ⟨fs, hsent, hbody, htotals⟩ := h.frames
  obtain ⟨hcount', hraw'⟩ := htotals hsound
  refine ⟨n + dataCount fs, b + rawCount fs, ?_, ?_, ?_⟩
  · rw [hsent, scan_append, hscan]
    exact scan_body hbody n b
  · rw [hcount', hcount, UInt64.ofNat_add]
  · rw [hraw', hraw, UInt64.ofNat_add]

theorem Streams.responses_eq (h : Streams cause c c') : responses c'.sent = responses c.sent := by
  obtain ⟨fs, hsent, hbody, -⟩ := h.frames
  rw [hsent, responses_append, responses_body hbody, List.append_nil]

/-- The frames so far are in order. Until a send fails, the last of them say whether a session runs. -/
structure Orderly (c : Client) : Prop where
  scanned : ∃ p, scan .idle c.sent = some p
  inSession : c.broken = false → c.session.active = true → InSession c
  between : c.broken = false → c.session.active = false → c.closed = false →
    scan .idle c.sent = some .idle

theorem Orderly.of_broken (hbroken : c.broken = true) (h : ∃ p, scan .idle c.sent = some p) :
    Orderly c where
  scanned := h
  inSession := by simp [hbroken]
  between := by simp [hbroken]

theorem Orderly.of_inSession (hactive : c.session.active = true) (h : InSession c) : Orderly c where
  scanned := ⟨_, h.choose_spec.choose_spec.1⟩
  inSession := fun _ _ => h
  between := by simp [hactive]

theorem Streams.orderly (h : Streams cause c c') (hactive : c.session.active = true)
    (hin : InSession c) : Orderly c' := by
  cases hbroken : c'.broken with
  | false => exact Orderly.of_inSession (h.active.trans hactive) (h.inSession hin hbroken)
  | true =>
    obtain ⟨n, b, hscan⟩ := h.scanned hin
    exact Orderly.of_broken hbroken ⟨_, hscan⟩

theorem sessionEnd_scanned (r : Runtime) (hactive : c.session.active = true) (hin : InSession c) :
    (∃ p, scan .idle (sessionEnd c r).sent = some p) ∧
      responses (sessionEnd c r).sent = responses c.sent := by
  have hstreams := closingFrames_streams c r
  obtain ⟨n, b, hscan⟩ := hstreams.scanned hin
  rw [sessionEnd_eq r hactive]
  dsimp only
  rcases push_cases (closingFrames c r) pushEnd (writeU64 (closingFrames c r).session.dataFrames ++
        writeU64 (closingFrames c r).session.rawBytes) with
    ⟨-, h⟩ | ⟨-, hsound, rest, sentBytes, h⟩ | ⟨rest, failed, sentBytes, h⟩
  · rw [h]
    exact ⟨⟨_, hscan⟩, hstreams.responses_eq⟩
  · rw [h]
    obtain ⟨n, b, hscan, hcount, hraw⟩ := hstreams.inSession hin hsound
    refine ⟨⟨.idle, ?_⟩, ?_⟩
    · rw [scan_append, hscan, hcount, hraw]
      simp only [Option.bind_some, scan_single]
      exact accept_end n b
    · rw [responses_append, hstreams.responses_eq, responses_pushFrame, List.append_nil]
  · rw [h]
    exact ⟨⟨_, hscan⟩, hstreams.responses_eq⟩

theorem sessionEnd_idle (hactive : c.session.active = true) (hin : InSession c)
    (hfailed : c.session.failed = false) (hgrows : ∀ s ∈ r.segments, s.grown = true)
    (hsound : (sessionEnd c r).broken = false) : scan .idle (sessionEnd c r).sent = some .idle := by
  have hstreams := closingFrames_streams c r
  rw [sessionEnd_eq r hactive] at hsound ⊢
  dsimp only at hsound ⊢
  rcases push_cases (closingFrames c r) pushEnd (writeU64 (closingFrames c r).session.dataFrames ++
        writeU64 (closingFrames c r).session.rawBytes) with
    ⟨hfailed', h⟩ | ⟨-, hclosing, rest, sentBytes, h⟩ | ⟨rest, failed, sentBytes, h⟩
  · rw [h] at hsound
    rcases hstreams.failed hfailed' with hbad | hbad | ⟨s, hs, hbad⟩
    · cases hfailed.symm.trans hbad
    · cases hsound.symm.trans hbad
    · cases (hgrows s hs).symm.trans hbad
  · rw [h]
    obtain ⟨n, b, hscan, hcount, hraw⟩ := hstreams.inSession hin hclosing
    rw [scan_append, hscan, hcount, hraw]
    simp only [Option.bind_some, scan_single]
    exact accept_end n b
  · rw [h] at hsound
    cases hsound

theorem sessionEnd_active (c : Client) (r : Runtime) :
    (sessionEnd c r).session.active = false := by
  cases hactive : c.session.active with
  | false => rw [sessionEnd_inactive r hactive, hactive]
  | true => rw [sessionEnd_eq r hactive]

/-! Requests. -/

def keys (c : Client) : List (UInt8 × UInt8 × UInt32) := (responses c.sent).map Frame.key

def Frame.IsResponse (f : Frame) : Prop :=
  f.flags = flagResponse ∨ f.flags = flagResponse ||| flagError

variable {f : Frame}

/-- A response that has nothing to do with the start or the stop of a session. -/
def Frame.Neutral (f : Frame) : Prop :=
  f.IsResponse ∧ ¬(f.service = serviceProfiler ∧ (f.type = profileStart ∨ f.type = profileStop) ∧
    f.flags = flagResponse)

theorem Orderly.phase (h : Orderly c) (hsound : c.broken = false) (hopen : c.closed = false) :
    ∃ p, p ≠ .started ∧ scan .idle c.sent = some p := by
  cases hactive : c.session.active with
  | true =>
    obtain ⟨n, b, hscan, -⟩ := h.inSession hsound hactive
    exact ⟨.streaming n b, by simp, hscan⟩
  | false => exact ⟨.idle, by simp, h.between hsound hactive hopen⟩

/-- A session that is active has not failed, as at the top of the loop when it goes on. -/
def Healthy (c : Client) : Prop := c.session.active = true → c.session.failed = false

def Request.IsStart (q : Request) : Prop :=
  q.header.service = serviceProfiler ∧ q.header.type = profileStart

/-- A request is dealt with: honoured with one response, or nothing has been sent for it yet. -/
structure Dealt (c : Client) (q : Request) (r : Runtime) (d : Client × Bool) : Prop where
  healthy : d.1.broken = false → Healthy c → ¬(q.IsStart ∧ r.snapshot = none) → Healthy d.1
  orderly : Orderly d.1
  honoured : d.1.broken = false → d.2 = true → keys d.1 = keys c ++ [q.key]
  refused : d.1.broken = false → d.2 = false → keys d.1 = keys c
  answered : keys d.1 <+: keys c ++ [q.key]

theorem Dealt.lost {d : Client × Bool} (hbroken : d.1.broken = true)
    (hscan : ∃ p, scan .idle d.1.sent = some p) (hkeys : keys d.1 <+: keys c ++ [q.key]) :
    Dealt c q r d where
  healthy := by simp [hbroken]
  orderly := Orderly.of_broken hbroken hscan
  honoured := by simp [hbroken]
  refused := by simp [hbroken]
  answered := hkeys

def Runtime.Grows (r : Runtime) : Prop := ∀ s ∈ r.segments, s.grown = true

theorem Orderly.sessionEnd (h : Orderly c) (hhealthy : c.broken = false → Healthy c)
    (hgrows : r.Grows) : Orderly (sessionEnd c r) ∧ keys (sessionEnd c r) = keys c := by
  have hkeeps := sessionEnd_keeps c r
  have hidle := sessionEnd_active c r
  cases hbroken : c.broken with
  | true =>
    have hsilent := hkeeps.silent hbroken
    refine ⟨Orderly.of_broken (hkeeps.broken hbroken) ?_, by rw [keys, hsilent, keys]⟩
    rw [hsilent]
    exact h.scanned
  | false =>
    cases hactive : c.session.active with
    | false =>
      rw [sessionEnd_inactive r hactive]
      exact ⟨h, rfl⟩
    | true =>
      have hin := h.inSession hbroken hactive
      obtain ⟨hscan, hresponses⟩ := sessionEnd_scanned r hactive hin
      refine ⟨⟨hscan, by simp [hidle], fun hsound _ _ => ?_⟩, by rw [keys, hresponses, keys]⟩
      exact sessionEnd_idle hactive hin (hhealthy hbroken hactive) hgrows hsound

/-- What is left out: a start whose snapshot and whose sources both fail. -/
def Runtime.Announces (r : Runtime) : Prop := r.snapshot = none → r.sessionStart = true

theorem Orderly.congr (h : Orderly c) (hsession : c'.session = c.session) (hsent : c'.sent = c.sent)
    (hbroken : c'.broken = c.broken) (hclosed : c'.closed = c.closed) : Orderly c' := by
  obtain ⟨hscanned, hin, hbetween⟩ := h
  exact ⟨by rwa [hsent], by rw [hbroken, hsession, InSession, hsession, hsent]; exact hin,
    by rw [hbroken, hsession, hsent, hclosed]; exact hbetween⟩

theorem leave_fields (c : Client) :
    (leave c).session.active = false ∧ (leave c).sent = c.sent ∧ (leave c).broken = c.broken ∧
      (leave c).closed = true := by
  unfold leave
  cases hactive : c.session.active with
  | true => exact ⟨rfl, rfl, rfl, rfl⟩
  | false => exact ⟨hactive, rfl, rfl, rfl⟩

theorem leave_authenticated (c : Client) : (leave c).authenticated = c.authenticated := by
  unfold leave
  split <;> rfl

theorem Orderly.left (h : Orderly c) : Orderly (leave c) := by
  obtain ⟨hactive, hsent, -, hclosed⟩ := leave_fields c
  refine ⟨by rw [hsent]; exact h.scanned, ?_, ?_⟩
  · intro _ hrun
    cases hactive.symm.trans hrun
  · intro _ _ hopen
    cases hclosed.symm.trans hopen

theorem keys_leave (c : Client) : keys (leave c) = keys c := by
  rw [keys, (leave_fields c).2.1, keys]

/-- One turn of the loop, or one event: the frames stay in order, the request has its response, and the
connection goes on unless it is cut or a send fails. -/
structure Advanced (c : Client) (request : Option Request) (cut : Prop) (c' : Client) : Prop where
  orderly : Orderly c'
  keys : c'.broken = false → keys c' = keys c ++ request.toList.map Request.key
  answered : HashLink.Diag.keys c' <+: HashLink.Diag.keys c ++ request.toList.map Request.key
  goes_on : c'.broken = false → ¬cut → c.closed = false → Healthy c → c'.closed = false ∧ Healthy c'

theorem Advanced.same {cut : Prop} (horderly : Orderly c') (hkeys : HashLink.Diag.keys c' = HashLink.Diag.keys c)
    (hgoes : c'.broken = false → ¬cut → c.closed = false → Healthy c → c'.closed = false ∧ Healthy c') :
    Advanced c none cut c' where
  orderly := horderly
  keys := fun _ => by simp [hkeys]
  answered := by simp [hkeys]
  goes_on := hgoes

theorem Advanced.left {cut : Prop} (h : Orderly c) (hcut : cut ∨ ¬Healthy c) :
    Advanced c none cut (leave c) :=
  Advanced.same h.left (keys_leave c)
    fun _ hnot _ hhealthy => absurd hcut (not_or.2 ⟨hnot, not_not.2 hhealthy⟩)

theorem Advanced.lost {cut : Prop} (request : Option Request) (hbroken : c'.broken = true)
    (horderly : Orderly c')
    (hkeys : HashLink.Diag.keys c' <+: HashLink.Diag.keys c ++ request.toList.map Request.key) :
    Advanced c request cut c' where
  orderly := horderly
  keys := by simp [hbroken]
  answered := hkeys
  goes_on := by simp [hbroken]

/-- What is left out: a frame buffer that cannot grow, and a start whose snapshot and sources both
fail. -/
structure Turn.Clean (t : Turn) : Prop where
  grows : t.runtime.Grows
  last_grows : t.last.Grows
  announces : t.runtime.Announces

theorem Advanced.mono {request : Option Request} {cut cut' : Prop} (h : Advanced c request cut c')
    (himp : cut → cut') : Advanced c request cut' c' :=
  { h with goes_on := fun hsound hnot => h.goes_on hsound (mt himp hnot) }

def Event.Clean : Event → Prop
  | .finish => True
  | .turn t => t.Clean

def noSession : Session where
  active := false
  finishRequested := false
  finished := false
  failed := false
  sources := 0
  dataFrames := 0
  rawBytes := 0
  sentBytes := 0
  threadsSignature := 0
  recordingChanges := 0
  nextClock := 0
  nextThreads := 0
  nextStats := 0
  nextGc := 0
  frameCapacity := 0

def quietRuntime : Runtime where
  segments := []
  now := 0
  metadataChanged := false
  snapshot := some [4, 0, 0, 0, 0, 0, 0, 0]
  threadsUnlocked := true
  threads := []
  threadsFit := true
  chunkCount := 256
  chunksInUse := 0
  stalls := 0
  stallTicks := 0
  lostRecords := 0
  ticks := 0
  monotonicNs := 0
  unixNs := 0
  recordingChanges := 0
  recording := true
  tickKind := 3
  baseTicks := 0
  nominalHz := 1000000000
  profStart := true
  setRecording := true
  sessionStart := true

def ask (q : Request) (h : q.header.length.toNat ≤ 2 ^ 20) (r : Runtime) : Event :=
  .turn ⟨1, 0, .request q h, r, r⟩

end HashLink.Diag
