import HashLink.Diag.Session
import Mathlib

/-!
The order that the protocol document gives to the frames of a connection, as an automaton on what has
been sent, and what the pushes of a running session do to it. All of them are of one kind: they append
frames that belong inside a session and count the data frames among them.
-/

namespace HashLink.Diag

/-- Where a connection stands: no session, a session accepted but not yet announced, or one that
streams, with the data frames and raw bytes so far. -/
inductive Phase where
  | idle
  | started
  | streaming (frames bytes : Nat)
  deriving DecidableEq, Repr

def Frame.rawLength (f : Frame) : Nat := (readU32 (f.payload.drop 8)).toNat

def totals (frames bytes : Nat) : Bytes :=
  writeU64 (UInt64.ofNat frames) ++ writeU64 (UInt64.ofNat bytes)

/-- The pushes between a session frame and its end frame. -/
def bodyTypes : List UInt8 :=
  [profileMetadata, pushDataType, pushClockType, pushThreadsType, pushStatsType, pushRecordingType]

def Phase.streamed (p : Phase) (f : Frame) : Phase :=
  match p with
  | .streaming n b => if f.type = pushDataType then .streaming (n + 1) (b + f.rawLength) else p
  | p => p

def accept (p : Phase) (f : Frame) : Option Phase :=
  match p with
  | .idle =>
    if f.flags = flagPush then none
    else if f.service = serviceProfiler ∧ f.type = profileStart ∧ f.flags = flagResponse then
      some .started
    else some .idle
  | .started => if f.flags = flagPush ∧ f.type = pushSession then some (.streaming 0 0) else none
  | .streaming n b =>
    if f.flags = flagPush then
      if f.type ∈ bodyTypes then some (p.streamed f)
      else if f.type = pushEnd ∧ f.payload = totals n b then some .idle
      else none
    else if f.service = serviceProfiler ∧ (f.type = profileStart ∨ f.type = profileStop) ∧
        f.flags = flagResponse then none
    else some p

def scan (p : Phase) (fs : List Frame) : Option Phase := fs.foldlM accept p

theorem scan_append (p : Phase) (fs gs : List Frame) :
    scan p (fs ++ gs) = (scan p fs).bind fun p => scan p gs :=
  List.foldlM_append

theorem scan_single (p : Phase) (f : Frame) : scan p [f] = accept p f := by
  simp [scan]

def responses (fs : List Frame) : List Frame := fs.filter fun f => f.flags &&& flagResponse = 1

theorem responses_append (fs gs : List Frame) :
    responses (fs ++ gs) = responses fs ++ responses gs :=
  List.filter_append ..

def dataCount (fs : List Frame) : Nat := fs.countP fun f => f.type = pushDataType

def rawCount (fs : List Frame) : Nat :=
  ((fs.filter fun f => f.type = pushDataType).map Frame.rawLength).sum

theorem dataCount_append (fs gs : List Frame) :
    dataCount (fs ++ gs) = dataCount fs + dataCount gs :=
  List.countP_append

theorem rawCount_append (fs gs : List Frame) : rawCount (fs ++ gs) = rawCount fs + rawCount gs := by
  simp only [rawCount, List.filter_append, List.map_append, List.sum_append]

/-- A push that belongs inside a session. -/
def Frame.IsBody (f : Frame) : Prop := f.flags = flagPush ∧ f.type ∈ bodyTypes

theorem accept_body {f : Frame} (hbody : f.IsBody) (n b : Nat) :
    accept (.streaming n b) f = some ((Phase.streaming n b).streamed f) := by
  simp only [accept, if_pos hbody.1, if_pos hbody.2]

theorem scan_body {fs : List Frame} (hbody : ∀ f ∈ fs, f.IsBody) (n b : Nat) :
    scan (.streaming n b) fs = some (.streaming (n + dataCount fs) (b + rawCount fs)) := by
  induction fs generalizing n b with
  | nil => rfl
  | cons f fs ih =>
    have hrest := fun g hg => hbody g (List.mem_cons_of_mem f hg)
    simp only [scan, List.foldlM_cons, accept_body (hbody f List.mem_cons_self)]
    by_cases hdata : f.type = pushDataType
    · simp only [Phase.streamed, hdata, if_true, Option.bind_eq_bind, Option.bind_some]
      rw [← scan, ih hrest]
      simp only [dataCount, rawCount, List.countP_cons, List.filter_cons, hdata, decide_true,
        if_true, List.map_cons, List.sum_cons, Option.some.injEq, Phase.streaming.injEq]
      omega
    · simp only [Phase.streamed, hdata, if_false, Option.bind_eq_bind, Option.bind_some]
      rw [← scan, ih hrest]
      simp [dataCount, rawCount, hdata]

theorem responses_body {fs : List Frame} (hbody : ∀ f ∈ fs, f.IsBody) : responses fs = [] := by
  apply List.filter_eq_nil_iff.2
  intro f hf
  rw [(hbody f hf).1]
  decide

theorem responses_pushFrame (type : UInt8) (payload : Bytes) :
    responses [pushFrame type payload] = [] := by
  apply List.filter_eq_nil_iff.2
  intro f hf
  rw [List.mem_singleton.1 hf]
  show ¬decide (flagPush &&& flagResponse = 1) = true
  decide

theorem accept_end (n b : Nat) :
    accept (.streaming n b) (pushFrame pushEnd (totals n b)) = some .idle := by
  have hflags : (pushFrame pushEnd (totals n b)).flags = flagPush := rfl
  have hbody : (pushFrame pushEnd (totals n b)).type ∉ bodyTypes := by
    show pushEnd ∉ bodyTypes
    decide
  have hend : (pushFrame pushEnd (totals n b)).type = pushEnd ∧
      (pushFrame pushEnd (totals n b)).payload = totals n b := ⟨rfl, rfl⟩
  simp only [accept, if_pos hflags, if_neg hbody, if_pos hend]

/-- `c'` comes from `c` by pushes inside a session. The session fails on the way only because a send
failed, or because of `cause`. -/
structure Streams (cause : Prop) (c c' : Client) : Prop where
  authenticated : c'.authenticated = c.authenticated
  closed : c'.closed = c.closed
  active : c'.session.active = c.session.active
  broken : c.broken = true → c'.broken = true
  failed : c'.session.failed = true → c.session.failed = true ∨ c'.broken = true ∨ cause
  stays : c.session.failed = true → c'.session.failed = true
  silent : c.broken = true → c'.sent = c.sent
  frames : ∃ fs, c'.sent = c.sent ++ fs ∧ (∀ f ∈ fs, f.IsBody) ∧ (c'.broken = false →
    c'.session.dataFrames = c.session.dataFrames + UInt64.ofNat (dataCount fs) ∧
      c'.session.rawBytes = c.session.rawBytes + UInt64.ofNat (rawCount fs))

variable {cause : Prop} {c c' c'' : Client}

theorem Streams.refl (cause : Prop) (c : Client) : Streams cause c c where
  authenticated := rfl
  closed := rfl
  active := rfl
  broken := id
  failed := Or.inl
  stays := id
  silent := fun _ => rfl
  frames := ⟨[], by simp, by simp, by simp [dataCount, rawCount]⟩

theorem Streams.trans (h : Streams cause c c') (h' : Streams cause c' c'') :
    Streams cause c c'' where
  authenticated := h'.authenticated.trans h.authenticated
  closed := h'.closed.trans h.closed
  active := h'.active.trans h.active
  broken := fun hbroken => h'.broken (h.broken hbroken)
  failed := by
    intro hfailed
    rcases h'.failed hfailed with hfailed | hbroken | hcause
    · rcases h.failed hfailed with hfailed | hbroken | hcause
      · exact Or.inl hfailed
      · exact Or.inr (Or.inl (h'.broken hbroken))
      · exact Or.inr (Or.inr hcause)
    · exact Or.inr (Or.inl hbroken)
    · exact Or.inr (Or.inr hcause)
  stays := fun hfailed => h'.stays (h.stays hfailed)
  silent := fun hbroken => (h'.silent (h.broken hbroken)).trans (h.silent hbroken)
  frames := by
    obtain ⟨fs, hsent, hbody, htotals⟩ := h.frames
    obtain ⟨gs, hsent', hbody', htotals'⟩ := h'.frames
    refine ⟨fs ++ gs, by rw [hsent', hsent, List.append_assoc], ?_, fun hsound => ?_⟩
    · intro f hf
      exact (List.mem_append.1 hf).elim (hbody f) (hbody' f)
    · obtain ⟨hcount, hraw⟩ := htotals (Bool.eq_false_iff.2 fun hb =>
        Bool.false_ne_true (hsound.symm.trans (h'.broken hb)))
      obtain ⟨hcount', hraw'⟩ := htotals' hsound
      constructor
      · rw [hcount', hcount, dataCount_append, UInt64.ofNat_add, UInt64.add_assoc]
      · rw [hraw', hraw, rawCount_append, UInt64.ofNat_add, UInt64.add_assoc]

theorem Streams.mono {cause' : Prop} (h : Streams cause c c') (himp : cause → cause') :
    Streams cause' c c' :=
  { h with failed := fun hfailed => (h.failed hfailed).imp_right (Or.imp_right himp) }

theorem Streams.of_sent_eq (hauth : c'.authenticated = c.authenticated) (hclosed : c'.closed = c.closed)
    (hbroken : c'.broken = c.broken) (hsent : c'.sent = c.sent)
    (hactive : c'.session.active = c.session.active)
    (hfailed : c'.session.failed = c.session.failed)
    (hframes : c'.session.dataFrames = c.session.dataFrames)
    (hbytes : c'.session.rawBytes = c.session.rawBytes) : Streams cause c c' where
  authenticated := hauth
  closed := hclosed
  active := hactive
  broken := by rw [hbroken]; exact id
  failed := by rw [hfailed]; exact Or.inl
  stays := by rw [hfailed]; exact id
  silent := fun _ => hsent
  frames := ⟨[], by simp [hsent], by simp, by simp [dataCount, rawCount, hframes, hbytes]⟩

theorem Streams.fail (h : Streams cause c c') (hwhy : c'.broken = true ∨ cause) :
    Streams cause c { c' with session := { c'.session with failed := true } } :=
  { h with
    failed := fun _ => Or.inr hwhy
    stays := fun _ => rfl }

theorem transportSend_cases (c : Client) :
    (∃ rest, transportSend c = ({ c with answers := rest }, true)) ∨
      ∃ rest, transportSend c = ({ c with answers := rest, broken := true }, false) := by
  obtain ⟨session, authenticated, capabilities, answers, sent, broken, closed⟩ := c
  match answers with
  | true :: rest => exact Or.inl ⟨rest, rfl⟩
  | false :: rest => exact Or.inr ⟨rest, rfl⟩
  | [] => exact Or.inr ⟨[], rfl⟩

theorem Client.log_of_broken {f : Frame} (h : c.broken = true) : c.log f = c.sent := if_pos h

theorem Client.log_of_sound {f : Frame} (h : c.broken = false) : c.log f = c.sent ++ [f] := by
  simp [Client.log, h]

theorem Client.logged_cases (c : Client) (rest : List Bool) (f : Frame) :
    (c.broken = false ∧ { c with answers := rest, sent := c.log f } =
        { c with answers := rest, sent := c.sent ++ [f] }) ∨
      (c.broken = true ∧ { c with answers := rest, sent := c.log f } =
        { c with answers := rest, broken := true }) := by
  by_cases hbroken : c.broken = true
  · exact Or.inr ⟨hbroken, by rw [Client.log_of_broken hbroken, hbroken]⟩
  · have hsound := Bool.eq_false_iff.2 hbroken
    exact Or.inl ⟨hsound, by rw [Client.log_of_sound hsound]⟩

/-- A frame is sent whole, or a send has failed by then. -/
theorem sendFrame_cases (c : Client) (f : Frame) :
    (c.broken = false ∧
        ∃ rest, sendFrame c f = ({ c with answers := rest, sent := c.sent ++ [f] }, true)) ∨
      ∃ rest ok, sendFrame c f = ({ c with answers := rest, broken := true }, ok) ∧
        (c.broken = false → ok = false) := by
  by_cases hempty : f.payload.length = 0
  · rcases transportSend_cases c with ⟨rest, h⟩ | ⟨rest, h⟩
    · rcases Client.logged_cases c rest f with ⟨hsound, hlog⟩ | ⟨hbroken, hlog⟩
      · exact Or.inl ⟨hsound, rest, by simp only [sendFrame, h, if_true, if_pos hempty, ← hlog]; rfl⟩
      · refine Or.inr ⟨rest, true, ?_, by simp [hbroken]⟩
        simp only [sendFrame, h, if_true, if_pos hempty, ← hlog]
        rfl
    · exact Or.inr ⟨rest, false, by simp [sendFrame, h], fun _ => rfl⟩
  · rcases transportSend_cases c with ⟨rest, h⟩ | ⟨rest, h⟩
    · rcases transportSend_cases { c with answers := rest } with ⟨rest', h'⟩ | ⟨rest', h'⟩
      · rcases Client.logged_cases c rest' f with ⟨hsound, hlog⟩ | ⟨hbroken, hlog⟩
        · exact Or.inl ⟨hsound, rest', by simp only [sendFrame, h, if_true, if_neg hempty, h', ← hlog]; rfl⟩
        · refine Or.inr ⟨rest', true, ?_, by simp [hbroken]⟩
          simp only [sendFrame, h, if_true, if_neg hempty, h', ← hlog]
          rfl
      · exact Or.inr ⟨rest', false, by simp [sendFrame, h, hempty, h'], fun _ => rfl⟩
    · exact Or.inr ⟨rest, false, by simp [sendFrame, h], fun _ => rfl⟩

theorem streams_lost (cause : Prop) (c : Client) (rest : List Bool) :
    Streams cause c { c with answers := rest, broken := true } :=
  { Streams.refl cause c with
    broken := fun _ => rfl
    failed := Or.inl
    frames := ⟨[], by simp, by simp, by simp⟩ }

theorem streams_sent (cause : Prop) (rest : List Bool) {f : Frame} (hsound : c.broken = false)
    (hbody : f.IsBody) (hdata : f.type ≠ pushDataType) :
    Streams cause c { c with answers := rest, sent := c.sent ++ [f] } where
  authenticated := rfl
  closed := rfl
  active := rfl
  broken := id
  failed := Or.inl
  stays := id
  silent := by simp [hsound]
  frames := ⟨[f], rfl, by simpa using hbody, by simp [dataCount, rawCount, hdata]⟩

theorem isBody_pushFrame {type : UInt8} (htype : type ∈ bodyTypes) (payload : Bytes) :
    (pushFrame type payload).IsBody :=
  ⟨rfl, htype⟩

theorem push_streams (cause : Prop) (c : Client) {type : UInt8} (htype : type ∈ bodyTypes)
    (hdata : type ≠ pushDataType) (payload : Bytes) : Streams cause c (push c type payload) := by
  unfold push
  by_cases hfailed : c.session.failed = true
  · rw [if_pos hfailed]
    exact Streams.refl cause c
  · rw [if_neg hfailed]
    rcases sendFrame_cases c (pushFrame type payload) with ⟨hsound, rest, h⟩ | ⟨rest, ok, h, -⟩
    · simp only [h, if_true]
      exact (streams_sent cause rest hsound (isBody_pushFrame htype payload) hdata).trans
        (Streams.of_sent_eq rfl rfl rfl rfl rfl rfl rfl rfl)
    · simp only [h]
      have hlost := streams_lost cause c rest
      split
      · exact hlost.trans (Streams.of_sent_eq rfl rfl rfl rfl rfl rfl rfl rfl)
      · exact hlost.fail (Or.inl rfl)

theorem readU32_writeU32 (value : UInt32) (rest : Bytes) :
    readU32 (writeU32 value ++ rest) = value := by
  obtain ⟨v⟩ := value
  show UInt32.ofBitVec ((v.setWidth 8).setWidth 32 ||| (((v >>> 8).setWidth 8).setWidth 32 <<< 8) |||
    (((v >>> 16).setWidth 8).setWidth 32 <<< 16) ||| (((v >>> 24).setWidth 8).setWidth 32 <<< 24)) = _
  congr 1
  ext i hi
  simp only [BitVec.getElem_or, BitVec.getElem_shiftLeft, BitVec.getElem_setWidth,
    BitVec.getLsbD_setWidth, BitVec.getLsbD_ushiftRight]
  grind

theorem rawLength_dataFrame (s : Segment) : (dataFrame s).rawLength = s.data.length := by
  simp only [Frame.rawLength, dataFrame, pushFrame, List.append_assoc]
  rw [show ∀ a b rest, (writeU32 a ++ (writeU32 b ++ rest)).drop 8 = rest from fun _ _ _ => rfl,
    readU32_writeU32]
  exact UInt32.toNat_ofNat_of_lt s.fits

theorem pushData_streams (c : Client) (s : Segment) :
    Streams (s.grown = false) c (pushData c s) := by
  unfold pushData
  dsimp only
  by_cases hfailed : c.session.failed = true
  · rw [if_pos hfailed]
    exact Streams.refl _ c
  rw [if_neg hfailed]
  by_cases hfull : c.session.frameCapacity < 32 + compressBound s.data.length ∧ ¬s.grown
  · rw [if_pos hfull]
    exact (Streams.refl _ c).fail (Or.inr (Bool.eq_false_iff.2 hfull.2))
  rw [if_neg hfull]
  generalize hgrown : ({ c with session := { c.session with
    frameCapacity := max c.session.frameCapacity (32 + compressBound s.data.length) } } : Client) = d
  have hd : Streams (s.grown = false) c d := by
    subst hgrown
    exact Streams.of_sent_eq rfl rfl rfl rfl rfl rfl rfl rfl
  rcases transportSend_cases d with ⟨rest, h⟩ | ⟨rest, h⟩
  · simp only [h, if_true]
    by_cases hbroken : d.broken = true
    · refine hd.trans ⟨rfl, rfl, rfl, fun _ => hbroken, Or.inl, id, fun _ => Client.log_of_broken hbroken, [],
        (Client.log_of_broken hbroken).trans (List.append_nil _).symm, by simp, fun hsound => ?_⟩
      cases hbroken.symm.trans hsound
    · have hsound := Bool.eq_false_iff.2 hbroken
      refine hd.trans ⟨rfl, rfl, rfl, id, Or.inl, id, fun hb => absurd hb hbroken, [dataFrame s],
        Client.log_of_sound hsound, ?_, fun _ => ⟨rfl, ?_⟩⟩
      · intro f hf
        rw [List.mem_singleton.1 hf]
        exact isBody_pushFrame (by decide) _
      · show d.session.rawBytes + _ = d.session.rawBytes + UInt64.ofNat ((dataFrame s).rawLength + 0)
        rw [rawLength_dataFrame, Nat.add_zero]
  · simp only [h]
    exact (hd.trans (streams_lost _ d rest)).fail (Or.inl rfl)

theorem drain_streams (segments : List Segment) (c : Client) :
    Streams (∃ s ∈ segments, s.grown = false) c (segments.foldl pushData c) := by
  induction segments generalizing c with
  | nil => exact Streams.refl _ c
  | cons s rest ih =>
    have hfirst : Streams (∃ t ∈ s :: rest, t.grown = false) c (pushData c s) :=
      (pushData_streams c s).mono fun h => ⟨s, List.mem_cons_self, h⟩
    refine hfirst.trans ((ih (pushData c s)).mono ?_)
    rintro ⟨t, ht, h⟩
    exact ⟨t, List.mem_cons_of_mem s ht, h⟩

theorem pushClock_streams (cause : Prop) (c : Client) (r : Runtime) :
    Streams cause c (pushClock c r) :=
  push_streams cause c (by decide) (by decide) _

theorem pushStats_streams (cause : Prop) (c : Client) (r : Runtime) :
    Streams cause c (pushStats c r) :=
  push_streams cause c (by decide) (by decide) _

theorem pushThreads_streams (cause : Prop) (c : Client) (r : Runtime) (force wait : Bool) :
    Streams cause c (pushThreads c r force wait) := by
  unfold pushThreads
  dsimp only
  split
  · exact Streams.of_sent_eq rfl rfl rfl rfl rfl rfl rfl rfl
  · split
    · refine Streams.trans ?_ (push_streams cause _ ?_ ?_ _)
      · exact Streams.of_sent_eq rfl rfl rfl rfl rfl rfl rfl rfl
      · decide
      · decide
    · exact Streams.refl cause c

theorem pushRecording_streams (cause : Prop) (c : Client) (r : Runtime) (force : Bool) :
    Streams cause c (pushRecording c r force) := by
  unfold pushRecording
  split
  · exact Streams.refl cause c
  · refine Streams.trans ?_ (push_streams cause _ ?_ ?_ _)
    · exact Streams.of_sent_eq rfl rfl rfl rfl rfl rfl rfl rfl
    · decide
    · decide

theorem sendMetadata_streams (cause : Prop) (c : Client) (r : Runtime) :
    Streams cause c (sendMetadata c r 0 flagPush).1 ∧ ((sendMetadata c r 0 flagPush).2 = false →
      (sendMetadata c r 0 flagPush).1.broken = true ∨ r.snapshot = none) := by
  unfold sendMetadata
  cases hsnapshot : r.snapshot with
  | none => exact ⟨Streams.refl cause c, fun _ => Or.inr rfl⟩
  | some snapshot =>
    have hbody : (⟨serviceProfiler, profileMetadata, flagPush, 0, snapshot⟩ : Frame).IsBody :=
      ⟨rfl, by show profileMetadata ∈ bodyTypes; decide⟩
    have hdata : profileMetadata ≠ pushDataType := by decide
    rcases sendFrame_cases c ⟨serviceProfiler, profileMetadata, flagPush, 0, snapshot⟩ with
      ⟨hsound, rest, h⟩ | ⟨rest, ok, h, -⟩
    · dsimp only
      rw [h]
      exact ⟨streams_sent cause rest hsound hbody hdata, by simp⟩
    · dsimp only
      rw [h]
      exact ⟨streams_lost cause c rest, fun _ => Or.inl rfl⟩

theorem pushMetadata_streams (c : Client) (r : Runtime) :
    Streams (r.snapshot = none) c (pushMetadata c r) := by
  obtain ⟨hsent, hrefused⟩ := sendMetadata_streams (r.snapshot = none) c r
  unfold pushMetadata
  dsimp only
  split
  · exact hsent
  · next hnot => exact hsent.fail (hrefused (Bool.eq_false_iff.2 hnot))

theorem Streams.timed (h : Streams cause c c') {s : Session}
    (hactive : s.active = c'.session.active) (hfailed : s.failed = c'.session.failed)
    (hframes : s.dataFrames = c'.session.dataFrames) (hbytes : s.rawBytes = c'.session.rawBytes) :
    Streams cause c { c' with session := s } :=
  h.trans (Streams.of_sent_eq rfl rfl rfl rfl hactive hfailed hframes hbytes)

theorem gcDue_streams (cause : Prop) (c : Client) (r : Runtime) : Streams cause c (gcDue c r) := by
  unfold gcDue
  split
  · exact (Streams.refl cause c).timed rfl rfl rfl rfl
  · exact Streams.refl cause c

theorem clockDue_streams (cause : Prop) (c : Client) (r : Runtime) :
    Streams cause c (clockDue c r) := by
  unfold clockDue
  split
  · exact (pushClock_streams cause c r).timed rfl rfl rfl rfl
  · exact Streams.refl cause c

theorem threadsDue_streams (cause : Prop) (c : Client) (r : Runtime) :
    Streams cause c (threadsDue c r) := by
  unfold threadsDue
  split
  · exact (pushThreads_streams cause c r false false).timed rfl rfl rfl rfl
  · exact Streams.refl cause c

theorem statsDue_streams (cause : Prop) (c : Client) (r : Runtime) :
    Streams cause c (statsDue c r) := by
  unfold statsDue
  split
  · exact (pushStats_streams cause c r).timed rfl rfl rfl rfl
  · exact Streams.refl cause c

/-- A push of metadata has nothing to send. -/
def Runtime.Unbuilt (r : Runtime) : Prop := r.metadataChanged = true ∧ r.snapshot = none

def Runtime.Fails (r : Runtime) : Prop := r.Unbuilt ∨ ∃ s ∈ r.segments, s.grown = false

theorem sessionPump_streams (c : Client) (r : Runtime) (hrun : c.session.finishRequested = false) :
    Streams r.Fails c (sessionPump c r) := by
  simp only [sessionPump, hrun, Bool.false_eq_true, if_false]
  have hdrain := (drain_streams r.segments c).mono (Or.inr : _ → r.Fails)
  refine hdrain.trans ((gcDue_streams _ _ r).trans ?_)
  refine (clockDue_streams _ _ r).trans ((threadsDue_streams _ _ r).trans ?_)
  refine (statsDue_streams _ _ r).trans ((pushRecording_streams _ _ r false).trans ?_)
  split
  · next hchanged => exact (pushMetadata_streams _ r).mono fun hnone => Or.inl ⟨hchanged, hnone⟩
  · exact Streams.refl _ _

/-- `session_end` up to the end frame. -/
def closingFrames (c : Client) (r : Runtime) : Client :=
  let c := r.segments.foldl pushData c
  let c := if r.metadataChanged then (sendMetadata c r 0 flagPush).1 else c
  pushClock (pushStats (pushThreads c r false true) r) r

theorem closingFrames_streams (c : Client) (r : Runtime) :
    Streams (∃ s ∈ r.segments, s.grown = false) c (closingFrames c r) := by
  unfold closingFrames
  refine (drain_streams r.segments c).trans (Streams.trans ?_ ((pushThreads_streams _ _ r false true).trans
      ((pushStats_streams _ _ r).trans (pushClock_streams _ _ r))))
  split
  · exact (sendMetadata_streams _ _ r).1
  · exact Streams.refl _ _

theorem sessionEnd_inactive (r : Runtime) (hactive : c.session.active = false) :
    sessionEnd c r = c := by
  simp [sessionEnd, hactive]

theorem sessionEnd_eq (r : Runtime) (hactive : c.session.active = true) :
    sessionEnd c r =
      let d := closingFrames c r
      let d := push d pushEnd (writeU64 d.session.dataFrames ++ writeU64 d.session.rawBytes)
      { d with session := { d.session with active := false, finished := true } } := by
  simp only [sessionEnd, hactive, not_true_eq_false, if_false, closingFrames]

theorem push_cases (c : Client) (type : UInt8) (payload : Bytes) :
    (c.session.failed = true ∧ push c type payload = c) ∨
      (c.session.failed = false ∧ c.broken = false ∧ ∃ rest sentBytes, push c type payload =
        { c with
          answers := rest
          sent := c.sent ++ [pushFrame type payload]
          session := { c.session with sentBytes := sentBytes } }) ∨
      ∃ rest failed sentBytes, push c type payload =
        { c with
          answers := rest
          broken := true
          session := { c.session with failed := failed, sentBytes := sentBytes } } := by
  unfold push
  cases hfailed : c.session.failed with
  | true => exact Or.inl ⟨rfl, rfl⟩
  | false =>
    refine Or.inr ?_
    rcases sendFrame_cases c (pushFrame type payload) with ⟨hsound, rest, h⟩ | ⟨rest, ok, h, -⟩
    · refine Or.inl ⟨rfl, hsound, rest, c.session.sentBytes + (16 + UInt64.ofNat payload.length), ?_⟩
      simp only [h, if_true]
      rfl
    · rw [h]
      cases ok with
      | true => exact Or.inr ⟨rest, c.session.failed, _, rfl⟩
      | false => exact Or.inr ⟨rest, true, c.session.sentBytes, rfl⟩

theorem firstFrames_streams (c : Client) (r : Runtime) :
    Streams (r.snapshot = none) c (firstFrames c r) := by
  unfold firstFrames
  refine Streams.timed (Streams.trans ?_ ((pushClock_streams _ _ r).trans
    ((pushThreads_streams _ _ r true false).trans (pushRecording_streams _ _ r true))))
    rfl rfl rfl rfl
  split
  · exact Streams.refl _ c
  · exact pushMetadata_streams c r

/-! What every step keeps, sent or not. -/

structure Keeps (c c' : Client) : Prop where
  authenticated : c'.authenticated = c.authenticated
  closed : c'.closed = c.closed
  broken : c.broken = true → c'.broken = true
  silent : c.broken = true → c'.sent = c.sent

theorem Keeps.trans (h : Keeps c c') (h' : Keeps c' c'') : Keeps c c'' :=
  ⟨h'.authenticated.trans h.authenticated, h'.closed.trans h.closed,
    fun hbroken => h'.broken (h.broken hbroken),
    fun hbroken => (h'.silent (h.broken hbroken)).trans (h.silent hbroken)⟩

theorem Keeps.of_eq (hauth : c'.authenticated = c.authenticated) (hclosed : c'.closed = c.closed)
    (hbroken : c'.broken = c.broken) (hsent : c'.sent = c.sent) : Keeps c c' :=
  ⟨hauth, hclosed, fun h => hbroken.trans h, fun _ => hsent⟩

theorem Streams.keeps (h : Streams cause c c') : Keeps c c' :=
  ⟨h.authenticated, h.closed, h.broken, h.silent⟩

theorem sendFrame_keeps (c : Client) (f : Frame) : Keeps c (sendFrame c f).1 := by
  rcases sendFrame_cases c f with ⟨hsound, rest, h⟩ | ⟨rest, ok, h, -⟩
  · rw [h]
    exact ⟨rfl, rfl, id, by simp [hsound]⟩
  · rw [h]
    exact ⟨rfl, rfl, fun _ => rfl, fun _ => rfl⟩

theorem push_keeps (c : Client) (type : UInt8) (payload : Bytes) : Keeps c (push c type payload) := by
  rcases push_cases c type payload with
    ⟨-, h⟩ | ⟨-, hsound, rest, sentBytes, h⟩ | ⟨rest, failed, sentBytes, h⟩
  · rw [h]
    exact Keeps.of_eq rfl rfl rfl rfl
  · rw [h]
    exact ⟨rfl, rfl, id, by simp [hsound]⟩
  · rw [h]
    exact ⟨rfl, rfl, fun _ => rfl, fun _ => rfl⟩

theorem sessionEnd_keeps (c : Client) (r : Runtime) : Keeps c (sessionEnd c r) := by
  cases hactive : c.session.active with
  | false =>
    rw [sessionEnd_inactive r hactive]
    exact Keeps.of_eq rfl rfl rfl rfl
  | true =>
    rw [sessionEnd_eq r hactive]
    exact (closingFrames_streams c r).keeps.trans ((push_keeps _ _ _).trans (Keeps.of_eq rfl rfl rfl rfl))

theorem sessionPump_keeps (c : Client) (r : Runtime) : Keeps c (sessionPump c r) := by
  cases hfinish : c.session.finishRequested with
  | true =>
    simp only [sessionPump, hfinish, if_true]
    exact sessionEnd_keeps c r
  | false => exact (sessionPump_streams c r hfinish).keeps

theorem sessionStart_keeps (c : Client) (payload : Bytes) (requestId : UInt32) (r last : Runtime) :
    Keeps c (sessionStart c payload requestId r last).1 := by
  unfold sessionStart
  dsimp only
  split
  · exact Keeps.of_eq rfl rfl rfl rfl
  split
  · exact Keeps.of_eq rfl rfl rfl rfl
  have hopened : Keeps c { c with session := c.session.opened (readU32 payload) } := Keeps.of_eq rfl rfl rfl rfl
  have hstatus := hopened.trans (sendFrame_keeps _ ⟨serviceProfiler, profileStart, flagResponse,
    requestId, statusPayload { c with session := c.session.opened (readU32 payload) } r⟩)
  split
  · exact hstatus.trans (Keeps.of_eq rfl rfl rfl rfl)
  have hfirst := (hstatus.trans (push_keeps _ pushSession (sessionPayload r (readU32 payload)))).trans
    (firstFrames_streams _ r).keeps
  split
  · exact hfirst.trans (sessionEnd_keeps _ last)
  · exact hfirst

theorem serve_keeps (c : Client) (q : Request) (r last : Runtime) : Keeps c (serve c q r last).1 := by
  unfold serve
  dsimp only
  split
  · exact sendFrame_keeps c _
  split
  · exact sendFrame_keeps c _
  split
  · exact sessionStart_keeps c _ _ r last
  split
  · split
    · exact sendFrame_keeps c _
    · exact Keeps.of_eq rfl rfl rfl rfl
  split
  · exact (sessionEnd_keeps c r).trans (sendFrame_keeps _ _)
  split
  · unfold sendMetadata
    split
    · exact Keeps.of_eq rfl rfl rfl rfl
    · exact sendFrame_keeps c _
  · exact Keeps.of_eq rfl rfl rfl rfl

theorem dispatch_keeps (token : DiagToken) (c : Client) (q : Request) (r last : Runtime) :
    Keeps { c with
      authenticated := if q.isAuthenticate then decide (difference token q.payload q.header.length = 0)
        else c.authenticated } (dispatch token c q r last).1 := by
  unfold dispatch
  dsimp only
  split
  · split
    · exact sendFrame_keeps _ _
    · exact Keeps.of_eq rfl rfl rfl rfl
  split
  · exact Keeps.of_eq rfl rfl rfl rfl
  · exact serve_keeps c q r last

end HashLink.Diag
