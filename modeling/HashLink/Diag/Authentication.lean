import HashLink.Diag.ProtocolSafety

/-!
Who may make requests. The check of a token compares it with the payload exactly, and the last
authenticate request of a connection decides. With no token configured the check is made all the same,
against the empty string, so that such a request can lock out a client that needs no authentication.
-/

namespace HashLink.Diag

variable {token : DiagToken} {c : Client}

theorem foldl_or_eq_zero {α : Type} (f : α → UInt32) (xs : List α) (init : UInt32) :
    xs.foldl (fun d x => d ||| f x) init = 0 ↔ init = 0 ∧ ∀ x ∈ xs, f x = 0 := by
  induction xs generalizing init with
  | nil => simp
  | cons x xs ih => simp [ih, and_assoc]

theorem DiagToken.chars_lt (token : DiagToken) : token.chars.length < 2 ^ 32 := by
  cases token with
  | none => exact Nat.two_pow_pos 32
  | some t => exact t.fits

def byteDifference (token : DiagToken) (x : UInt8 × Nat) : UInt32 :=
  (x.1 ^^^ if UInt32.ofNat x.2 < UInt32.ofNat token.chars.length then token.chars.getD x.2 0
    else 0).toUInt32

theorem byteDifference_eq_zero {i : Nat} (hi : i < token.chars.length) (b : UInt8) :
    byteDifference token (b, i) = 0 ↔ b = token.chars.getD i 0 := by
  have hchars := token.chars_lt
  have hlt : UInt32.ofNat i < UInt32.ofNat token.chars.length := by
    rw [UInt32.lt_iff_toNat_lt, UInt32.toNat_ofNat_of_lt' (Nat.lt_trans hi hchars),
      UInt32.toNat_ofNat_of_lt' hchars]
    exact hi
  rw [byteDifference, if_pos hlt]
  exact (UInt8.toUInt32_inj (b := 0)).trans UInt8.xor_eq_zero_iff

theorem difference_eq_zero {payload : Bytes} {length : UInt32} (hwhole : payload.length = length.toNat) :
    difference token payload length = 0 ↔ payload = token.chars := by
  have hlength : UInt32.ofNat token.chars.length ^^^ length = 0 ↔ payload.length = token.chars.length := by
    rw [UInt32.xor_eq_zero_iff, ← UInt32.toNat_inj, UInt32.toNat_ofNat_of_lt' token.chars_lt, hwhole]
    exact eq_comm
  have hfold := foldl_or_eq_zero (byteDifference token) payload.zipIdx
    (UInt32.ofNat token.chars.length ^^^ length)
  rw [hlength] at hfold
  refine hfold.trans ⟨?_, ?_⟩
  · rintro ⟨hlen, hbytes⟩
    apply List.ext_getElem hlen
    intro i hi hi'
    have hbyte := hbytes (payload[i], i) (by simp [List.mem_zipIdx_iff_getElem?, hi])
    rw [byteDifference_eq_zero hi'] at hbyte
    simpa [hi'] using hbyte
  · rintro rfl
    refine ⟨rfl, ?_⟩
    rintro ⟨b, i⟩ hb
    have hget : token.chars[i]? = some b := by simpa [List.mem_zipIdx_iff_getElem?] using hb
    obtain ⟨hi, hb⟩ := List.getElem?_eq_some_iff.1 hget
    rw [byteDifference_eq_zero hi, List.getD_eq_getElem?_getD, hget]
    rfl

/-! The history of a connection. -/

def lastAuthenticate : List Request → Option Bytes
  | [] => none
  | q :: qs => (lastAuthenticate qs).or (if q.isAuthenticate then some q.payload else none)

def authenticatedBy (token : DiagToken) (initially : Bool) (qs : List Request) : Bool :=
  match lastAuthenticate qs with
  | none => initially
  | some payload => payload = token.chars

theorem authenticatedBy_cons (initially : Bool) (q : Request) (qs : List Request) :
    authenticatedBy token initially (q :: qs) = authenticatedBy token
        (if q.isAuthenticate then decide (q.payload = token.chars) else initially) qs := by
  unfold authenticatedBy
  rw [lastAuthenticate]
  cases lastAuthenticate qs with
  | some payload => rfl
  | none => cases q.isAuthenticate <;> rfl

theorem answer_authenticated (q : Request) (r last : Runtime) :
    (answer token c q r last).authenticated =
      if q.isAuthenticate then decide (q.payload = token.chars) else c.authenticated := by
  have hdispatch := (dispatch_keeps token c q r last).authenticated
  simp only [difference_eq_zero q.whole] at hdispatch
  unfold answer
  dsimp only
  split
  · exact hdispatch
  have hsend := (sendFrame_keeps (dispatch token c q r last).1 ⟨q.header.service, q.header.type,
    flagResponse ||| flagError, q.header.requestId, []⟩).authenticated.trans hdispatch
  split
  · exact hsend
  · rw [leave_authenticated]
    exact hsend

theorem receive_authenticated (t : Turn) :
    (receive token c t).authenticated = authenticatedBy token c.authenticated
      (match t.incoming with | .request q _ => some q | _ => none).toList := by
  unfold receive
  cases t.incoming with
  | request q _ =>
    rw [answer_authenticated, Option.toList_some, authenticatedBy_cons]
    rfl
  | _ => exact leave_authenticated c

theorem step_authenticated (e : Event) :
    (step token c e).authenticated = authenticatedBy token c.authenticated (received c e).toList := by
  unfold step received
  split
  · rfl
  cases e with
  | finish =>
    dsimp only
    split <;> rfl
  | turn t =>
    dsimp only
    unfold turn
    by_cases hactive : c.session.active = true
    · rw [if_pos hactive]
      by_cases hfailed : c.session.failed = true
      · rw [if_pos hfailed, if_pos ⟨hactive, Or.inl hfailed⟩]
        exact leave_authenticated c
      rw [if_neg hfailed]
      by_cases hlost : t.ready < 0
      · rw [if_pos hlost, if_pos ⟨hactive, Or.inr (Int.le_of_lt hlost)⟩]
        exact leave_authenticated c
      rw [if_neg hlost]
      by_cases hready : t.ready = 0
      · have hpump := (sessionPump_keeps c t.runtime).authenticated
        have hskip : c.session.active = true ∧ (c.session.failed = true ∨ t.ready ≤ 0) :=
          ⟨hactive, Or.inr (Int.le_of_eq hready)⟩
        rw [if_pos hskip, if_pos hready]
        dsimp only
        split
        · rw [leave_authenticated, hpump]
          rfl
        · rw [hpump]
          rfl
      · have hgo : ¬(c.session.active = true ∧ (c.session.failed = true ∨ t.ready ≤ 0)) := by
          rintro ⟨-, hbad | hbad⟩
          · exact hfailed hbad
          · omega
        rw [if_neg hready, if_neg hgo]
        exact receive_authenticated t
    · rw [if_neg hactive, if_neg fun h => hactive h.1]
      exact receive_authenticated t

theorem run_authenticated (es : List Event) :
    (es.foldl (step token) c).authenticated = authenticatedBy token c.authenticated (history token c es) := by
  induction es generalizing c with
  | nil => rfl
  | cons e es ih =>
    rw [List.foldl_cons, ih, step_authenticated, history]
    cases received c e with
    | none => rfl
    | some q =>
      rw [Option.toList_some, authenticatedBy_cons, List.singleton_append, authenticatedBy_cons]
      rfl

theorem hello_authenticated (s : Session) (answers : List Bool) :
    (hello token s answers).authenticated = !token.configured := by
  rcases transportSend_cases (connect token s answers) with ⟨rest, h⟩ | ⟨rest, h⟩
  · simp only [hello, h, if_true]
    rfl
  · simp only [hello, h]
    rfl

theorem lastAuthenticate_none {qs : List Request} (h : lastAuthenticate qs = none) :
    ∀ q ∈ qs, q.isAuthenticate = false := by
  induction qs with
  | nil => simp
  | cons q qs ih =>
    rw [lastAuthenticate, Option.or_eq_none_iff] at h
    intro q' hq'
    rcases List.mem_cons.1 hq' with rfl | hq'
    · cases hq : q'.isAuthenticate with
      | false => rfl
      | true => simp [hq] at h
    · exact ih h.1 q' hq'

def Presented (token : DiagToken) (qs : List Request) : Prop :=
  ∃ before a after, qs = before ++ a :: after ∧ a.isAuthenticate = true ∧ a.payload = token.chars ∧
    ∀ q ∈ after, q.isAuthenticate = true → q.payload = token.chars

theorem presented_of_last {qs : List Request} (h : lastAuthenticate qs = some token.chars) :
    Presented token qs := by
  induction qs with
  | nil => cases h
  | cons q qs ih =>
    rw [lastAuthenticate, Option.or_eq_some_iff] at h
    rcases h with h | ⟨hnone, h⟩
    · obtain ⟨before, a, after, rfl, ha⟩ := ih h
      exact ⟨q :: before, a, after, rfl, ha⟩
    · cases hq : q.isAuthenticate with
      | false => simp [hq] at h
      | true =>
        simp only [hq, if_true, Option.some.injEq] at h
        refine ⟨[], q, qs, rfl, hq, h, fun q' hq' hauth => ?_⟩
        cases (lastAuthenticate_none hnone q' hq').symm.trans hauth

def Request.WellFormed (q : Request) : Prop :=
  (q.header.service = serviceControl ∧ q.header.type = controlCapabilities ∧ q.header.length = 0) ∨
    (q.header.service = serviceProfiler ∧ q.header.type = profileStart ∧
      (q.header.length = 16 ∨ q.header.length = 20 ∨ q.header.length = 24)) ∨
    (q.header.service = serviceProfiler ∧ q.header.length = 0 ∧
      q.header.type ∈ [profileStatus, profilePause, profileResume, profileStop, profileMetadata])

/-- The law for a request that comes after the requests `earlier`: it is honoured only for a client that
has presented the token, and where none is configured it is not refused for want of it. -/
structure AuthenticationLaw (token : DiagToken) (earlier : List Request) (c : Client) (q : Request)
    (r last : Runtime) : Prop where
  honoured : q.isAuthenticate = false → (dispatch token c q r last).2 = true →
    token.configured = false ∨ Presented token earlier
  not_refused : token.configured = false → q.WellFormed → c.authenticated = true

theorem DiagToken.chars_nil (h : token.configured = false) : token.chars = [] := by
  cases token with
  | none => rfl
  | some t =>
    have hempty : t.chars.isEmpty = true := by simpa [DiagToken.configured] using h
    exact List.isEmpty_iff.1 hempty

/-- The law holds for a request exactly when a token is configured, the request is malformed, or the last
authentication, if any, came with an empty payload. -/
theorem authentication_law_iff (token : DiagToken) (s : Session) (answers : List Bool)
    (es : List Event) (q : Request) (r last : Runtime) :
    AuthenticationLaw token (history token (hello token { s with active := false } answers) es)
        (handleClient token s answers es) q r last ↔
      token.configured = true ∨ ¬q.WellFormed ∨ ∀ payload, lastAuthenticate
          (history token (hello token { s with active := false } answers) es) = some payload →
            payload = [] := by
  have hstate : (handleClient token s answers es).authenticated = _ := run_authenticated es
  rw [hello_authenticated, authenticatedBy] at hstate
  generalize history token (hello token { s with active := false } answers) es = earlier at hstate ⊢
  generalize handleClient token s answers es = c at hstate ⊢
  constructor
  · intro hlaw
    cases hconfigured : token.configured with
    | true => exact Or.inl rfl
    | false =>
      refine Or.inr ?_
      by_cases hformed : q.WellFormed
      · refine Or.inr fun payload hlast => ?_
        rw [hlaw.not_refused hconfigured hformed, hlast] at hstate
        rw [← DiagToken.chars_nil hconfigured]
        exact of_decide_eq_true hstate.symm
      · exact Or.inl hformed
  · intro hcondition
    constructor
    · intro hother hhonoured
      have hauth : c.authenticated = true := by
        cases h : c.authenticated with
        | true => rfl
        | false => simp [dispatch, hother, h] at hhonoured
      rw [hauth] at hstate
      cases hlast : lastAuthenticate earlier with
      | none =>
        rw [hlast] at hstate
        exact Or.inl (by simpa using hstate.symm)
      | some payload =>
        rw [hlast] at hstate
        rw [of_decide_eq_true hstate.symm] at hlast
        exact Or.inr (presented_of_last hlast)
    · intro hconfigured hformed
      rw [hstate]
      cases hlast : lastAuthenticate earlier with
      | none => simp [hconfigured]
      | some payload =>
        rcases hcondition with hbad | hbad | hempty
        · cases hconfigured.symm.trans hbad
        · exact absurd hformed hbad
        · rw [hempty payload hlast, DiagToken.chars_nil hconfigured]
          rfl

def wrongToken : Request := ⟨⟨serviceControl, controlAuthenticate, 1, 1⟩, [120], by decide⟩

def capabilitiesRequest : Request := ⟨⟨serviceControl, controlCapabilities, 2, 0⟩, [], by decide⟩

/-- With no token configured, a client that presents one is locked out. -/
theorem open_runtime_locks_out :
    let es := [ask wrongToken (by decide) quietRuntime]
    let c := handleClient none noSession (List.replicate 8 true) es
    ¬AuthenticationLaw none (history none (hello none noSession (List.replicate 8 true)) es) c
      capabilitiesRequest quietRuntime quietRuntime := by
  intro es c hlaw
  have hauth := hlaw.not_refused rfl (Or.inl ⟨rfl, rfl, rfl⟩)
  have hlocked : c.authenticated = false := by decide +kernel
  cases hlocked.symm.trans hauth

end HashLink.Diag
