import Mathlib.Data.Fintype.Card

/-!
An object behind a mutex with one condition variable. Each operation is a section that no other one interrupts: to give,
or to take what is there. A thread that finds nothing waits until it is signalled, and then looks again.
-/

namespace Monitor

/-- Where a thread is. A thread that is `ready` or `woken` looks into the object at its next turn, and one that is not
`patient` does not wait. -/
inductive Phase where
  | out
  | ready (patient : Bool)
  | asleep
  | woken
  deriving DecidableEq

/-- The sections. What is left after a taking tells whether to signal. -/
structure Object (γ β σ : Type*) where
  give : γ → σ → σ
  take : σ → Option (β × σ)
  signals : σ → Bool

/-- A section that has been. A thread that `missed` has found nothing. -/
inductive Entry (ι γ β : Type*) where
  | gave (g : γ)
  | took (t : ι) (b : β)
  | missed (t : ι)

/-- The state, with the sections in their order. -/
structure State (ι γ β σ : Type*) where
  shared : σ
  phase : ι → Phase
  log : List (Entry ι γ β)

/-- A signal wakes what is asleep of `wakes`. A thread stirs that wakes without a signal. -/
inductive Event (ι γ : Type*) where
  | give (g : γ) (wakes : Finset ι)
  | ask (t : ι) (patient : Bool)
  | look (t : ι) (wakes : Finset ι)
  | stir (t : ι)

variable {ι γ β σ τ : Type*}

namespace Object

/-- The sections of a log, one after the other. -/
inductive Replays (o : Object γ β σ) : σ → List (Entry ι γ β) → σ → Prop where
  | nil (x : σ) : Replays o x [] x
  | gave {x y : σ} {g : γ} {log : List (Entry ι γ β)} (hrest : Replays o (o.give g x) log y) :
      Replays o x (.gave g :: log) y
  | took {x x' y : σ} {t : ι} {b : β} {log : List (Entry ι γ β)} (htake : o.take x = some (b, x'))
      (hrest : Replays o x' log y) : Replays o x (.took t b :: log) y
  | missed {x y : σ} {t : ι} {log : List (Entry ι γ β)} (hnone : o.take x = none) (hrest : Replays o x log y) :
      Replays o x (.missed t :: log) y

theorem Replays.append {o : Object γ β σ} {x y z : σ} {log log' : List (Entry ι γ β)} (h : o.Replays x log y)
    (h' : o.Replays y log' z) : o.Replays x (log ++ log') z := by
  induction h with
  | nil x => exact h'
  | gave hrest ih => exact .gave (ih h')
  | took htake hrest ih => exact .took htake (ih h')
  | missed hnone hrest ih => exact .missed hnone (ih h')

end Object

variable [Fintype ι] [DecidableEq ι]

def signal (wakes : Finset ι) (phase : ι → Phase) (t : ι) : Phase :=
  if t ∈ wakes ∧ phase t = .asleep then .woken else phase t

/-- A signal wakes a thread at least, when one is asleep. -/
def Heard (wakes : Finset ι) (phase : ι → Phase) : Prop :=
  (∃ t, phase t = .asleep) → ∃ t ∈ wakes, phase t = .asleep

instance (wakes : Finset ι) (phase : ι → Phase) : Decidable (Heard wakes phase) :=
  inferInstanceAs (Decidable ((∃ t, phase t = .asleep) → ∃ t ∈ wakes, phase t = .asleep))

/-- Whether a thread looks into the object, and whether it would wait. -/
def Phase.looks : Phase → Option Bool
  | .ready patient => some patient
  | .woken => some true
  | _ => none

namespace State

def start (x : σ) : State ι γ β σ := ⟨x, fun _ => .out, []⟩

def go (s : State ι γ β σ) (t : ι) (p : Phase) : State ι γ β σ := { s with phase := Function.update s.phase t p }

end State

namespace Object

/-- The section of a thread that takes. -/
def look (o : Object γ β σ) (s : State ι γ β σ) (t : ι) (patient : Bool) (wakes : Finset ι) :
    Option (State ι γ β σ) :=
  match o.take s.shared with
  | none => some { s.go t (if patient then .asleep else .out) with log := s.log ++ [.missed t] }
  | some (b, x) =>
    let s := { s.go t .out with shared := x, log := s.log ++ [.took t b] }
    if o.signals x = false then some s
    else if Heard wakes s.phase then some { s with phase := signal wakes s.phase } else none

def step (o : Object γ β σ) (s : State ι γ β σ) : Event ι γ → Option (State ι γ β σ)
  | .give g wakes =>
    if Heard wakes s.phase then some ⟨o.give g s.shared, signal wakes s.phase, s.log ++ [.gave g]⟩ else none
  | .ask t patient => if s.phase t = .out then some (s.go t (.ready patient)) else none
  | .look t wakes => (s.phase t).looks.bind fun patient => o.look s t patient wakes
  | .stir t => if s.phase t = .asleep then some (s.go t .woken) else none

def run (o : Object γ β σ) (s : State ι γ β σ) : List (Event ι γ) → Option (State ι γ β σ)
  | [] => some s
  | e :: events => (o.step s e).bind fun s => run o s events

variable {o : Object γ β σ} {s s' : State ι γ β σ} {t : ι} {e : Event ι γ} {events : List (Event ι γ)}

/-! ### What a step does -/

variable {wakes : Finset ι} {phase : ι → Phase}

/-- A thread that looks finds nothing, or takes and signals if it has to. -/
theorem look_cases {patient : Bool} (h : o.look s t patient wakes = some s') :
    (o.take s.shared = none ∧ s'.shared = s.shared ∧ s'.log = s.log ++ [.missed t]) ∨
      ∃ b, o.take s.shared = some (b, s'.shared) ∧ s'.log = s.log ++ [.took t b] ∧
        ((o.signals s'.shared = false ∧ s'.phase = Function.update s.phase t .out) ∨
          s'.phase = signal wakes (Function.update s.phase t .out)) := by
  unfold look at h
  cases htake : o.take s.shared with
  | none =>
    rw [htake] at h
    cases h
    exact Or.inl ⟨rfl, rfl, rfl⟩
  | some r =>
    rw [htake] at h
    right
    dsimp only at h
    split at h
    · rename_i hquiet
      cases h
      exact ⟨r.1, rfl, rfl, Or.inl ⟨hquiet, rfl⟩⟩
    · split at h
      · cases h
        exact ⟨r.1, rfl, rfl, Or.inr rfl⟩
      · cases h

theorem step_replays (h : o.step s e = some s') : ∃ log, s'.log = s.log ++ log ∧ o.Replays s.shared log s'.shared := by
  cases e with
  | give g wakes =>
    rw [step] at h
    split at h
    · cases h
      exact ⟨[.gave g], rfl, .gave (.nil _)⟩
    · cases h
  | look u wakes =>
    obtain ⟨patient, -, hlook⟩ := Option.bind_eq_some_iff.1 h
    rcases look_cases hlook with ⟨hnone, hsame, hlog⟩ | ⟨b, htake, hlog, -⟩
    · rw [hsame]
      exact ⟨[.missed u], hlog, .missed hnone (.nil _)⟩
    · exact ⟨[.took u b], hlog, .took htake (.nil _)⟩
  | ask u patient | stir u =>
    rw [step] at h
    split at h
    · cases h
      exact ⟨[], (List.append_nil _).symm, .nil _⟩
    · cases h

/-- The order of the sections explains a run: each of them does to the object what it would do alone. -/
theorem run_replays (h : o.run s events = some s') : ∃ log, s'.log = s.log ++ log ∧ o.Replays s.shared log s'.shared := by
  induction events generalizing s with
  | nil =>
    cases h
    exact ⟨[], (List.append_nil _).symm, .nil _⟩
  | cons e events ih =>
    obtain ⟨s₁, hstep, hrun⟩ := Option.bind_eq_some_iff.1 h
    obtain ⟨log, hlog, hreplays⟩ := step_replays hstep
    obtain ⟨log', hlog', hreplays'⟩ := ih hrun
    refine ⟨log ++ log', ?_, hreplays.append hreplays'⟩
    rw [hlog', hlog, List.append_assoc]

/-! ### No wake-up is lost -/

def woken (phase : ι → Phase) : Nat := (Finset.univ.filter fun t => phase t = .woken).card

theorem woken_le_update {p : Phase} (hp : phase t ≠ .woken ∨ p = .woken) :
    woken phase ≤ woken (Function.update phase t p) := by
  refine Finset.card_le_card fun u hu => ?_
  rw [Finset.mem_filter] at hu ⊢
  refine ⟨hu.1, ?_⟩
  by_cases hut : u = t
  · subst hut
    rw [Function.update_self]
    exact hp.resolve_left fun hne => hne hu.2
  · rw [Function.update_of_ne hut]
    exact hu.2

theorem woken_le_succ (phase : ι → Phase) (t : ι) (p : Phase) :
    woken phase ≤ woken (Function.update phase t p) + 1 := by
  have hsub : (Finset.univ.filter fun u => phase u = .woken) ⊆
      insert t (Finset.univ.filter fun u => Function.update phase t p u = .woken) := by
    intro u hu
    by_cases hut : u = t
    · exact hut ▸ Finset.mem_insert_self _ _
    · refine Finset.mem_insert_of_mem (Finset.mem_filter.2 ⟨Finset.mem_univ u, ?_⟩)
      rw [Function.update_of_ne hut]
      exact (Finset.mem_filter.1 hu).2
  exact (Finset.card_le_card hsub).trans (Finset.card_insert_le _ _)

omit [Fintype ι] in
theorem asleep_of_signal (h : signal wakes phase t = .asleep) :
    phase t = .asleep := by
  unfold signal at h
  split at h
  · cases h
  · exact h

theorem woken_le_signal (wakes : Finset ι) (phase : ι → Phase) : woken phase ≤ woken (signal wakes phase) := by
  refine Finset.card_le_card fun u hu => ?_
  rw [Finset.mem_filter] at hu ⊢
  refine ⟨hu.1, ?_⟩
  unfold signal
  split
  · rfl
  · exact hu.2

theorem woken_lt_signal (hheard : Heard wakes phase) (hasleep : ∃ t, phase t = .asleep) :
    woken phase < woken (signal wakes phase) := by
  obtain ⟨t, ht, hp⟩ := hheard hasleep
  refine Finset.card_lt_card ⟨fun u hu => ?_, fun hsub => ?_⟩
  · rw [Finset.mem_filter] at hu ⊢
    refine ⟨hu.1, ?_⟩
    unfold signal
    split
    · rfl
    · exact hu.2
  · have hmem := hsub (Finset.mem_filter.2 ⟨Finset.mem_univ t, if_pos ⟨ht, hp⟩⟩)
    cases hp.symm.trans (Finset.mem_filter.1 hmem).2

/-- How many threads an object has something for. -/
structure Measured (o : Object γ β σ) (avail : σ → Nat) : Prop where
  give : ∀ g x, avail (o.give g x) ≤ avail x + 1
  empty : ∀ x, o.take x = none → avail x = 0
  take : ∀ x b x', o.take x = some (b, x') → avail x' + 1 ≤ avail x

/-- While a thread sleeps, there are as many woken ones as the object has something for. -/
def Awake (avail : σ → Nat) (s : State ι γ β σ) : Prop :=
  (∃ t, s.phase t = .asleep) → avail s.shared ≤ woken s.phase

theorem Awake.step {avail : σ → Nat} (hm : o.Measured avail) (hs : Awake avail s) (h : o.step s e = some s') :
    Awake avail s' := by
  rintro ⟨u, hu⟩
  cases e with
  | give g wakes =>
    rw [Object.step] at h
    split at h
    · rename_i hheard
      cases h
      have hasleep := asleep_of_signal hu
      calc avail (o.give g s.shared) ≤ avail s.shared + 1 := hm.give g _
        _ ≤ woken s.phase + 1 := Nat.succ_le_succ (hs ⟨u, hasleep⟩)
        _ ≤ woken (signal wakes s.phase) := woken_lt_signal hheard ⟨u, hasleep⟩
    · cases h
  | ask t patient =>
    rw [Object.step] at h
    split at h
    · rename_i hout
      cases h
      have hne : u ≠ t := by
        rintro rfl
        simp [State.go] at hu
      have hasleep : s.phase u = .asleep := (Function.update_of_ne hne _ _).symm.trans hu
      exact (hs ⟨u, hasleep⟩).trans (woken_le_update (Or.inl (by simp [hout])))
    · cases h
  | look t wakes =>
    obtain ⟨patient, hlooks, hlook⟩ := Option.bind_eq_some_iff.1 h
    rcases look_cases hlook with ⟨hnone, hsame, -⟩ | ⟨b, htake, -, hphase⟩
    · rw [hsame, hm.empty _ hnone]
      exact Nat.zero_le _
    · have hle : woken (Function.update s.phase t .out) ≤ woken s'.phase := by
        rcases hphase with ⟨-, hp⟩ | hp
        · rw [hp]
        · rw [hp]
          exact woken_le_signal _ _
      have hasleep : Function.update s.phase t .out u = .asleep := by
        rcases hphase with ⟨-, hp⟩ | hp
        · rw [← hp]
          exact hu
        · rw [hp] at hu
          exact asleep_of_signal hu
      have hne : u ≠ t := by
        rintro rfl
        simp at hasleep
      rw [Function.update_of_ne hne] at hasleep
      apply Nat.le_of_succ_le_succ
      calc avail s'.shared + 1 ≤ avail s.shared := hm.take _ _ _ htake
        _ ≤ woken s.phase := hs ⟨u, hasleep⟩
        _ ≤ woken (Function.update s.phase t .out) + 1 := woken_le_succ _ _ _
        _ ≤ woken s'.phase + 1 := Nat.succ_le_succ hle
  | stir t =>
    rw [Object.step] at h
    split at h
    · rename_i hasleep
      cases h
      exact (hs ⟨t, hasleep⟩).trans (woken_le_update (Or.inr rfl))
    · cases h

theorem Awake.run {avail : σ → Nat} (hm : o.Measured avail) (hs : Awake avail s) (h : o.run s events = some s') :
    Awake avail s' := by
  induction events generalizing s with
  | nil =>
    cases h
    exact hs
  | cons e events ih =>
    obtain ⟨s₁, hstep, hrun⟩ := Option.bind_eq_some_iff.1 h
    exact ih (hs.step hm hstep) hrun

/-! ### Two objects -/

/-- An object whose sections do what those of another one do. -/
structure Simulates (o : Object γ β σ) (a : Object γ β τ) (rep : σ → τ → Prop) : Prop where
  give : ∀ g x y, rep x y → rep (o.give g x) (a.give g y)
  empty : ∀ x y, rep x y → o.take x = none → a.take y = none
  take : ∀ x y b x', rep x y → o.take x = some (b, x') →
    ∃ y', a.take y = some (b, y') ∧ rep x' y' ∧ o.signals x' = a.signals y'

variable {a : Object γ β τ} {rep : σ → τ → Prop}

theorem Simulates.step (hsim : o.Simulates a rep) {y : τ} (hrep : rep s.shared y) (h : o.step s e = some s') :
    ∃ y', a.step ⟨y, s.phase, s.log⟩ e = some ⟨y', s'.phase, s'.log⟩ ∧ rep s'.shared y' := by
  cases e with
  | give g wakes =>
    rw [Object.step] at h
    split at h
    · rename_i hheard
      cases h
      exact ⟨a.give g y, if_pos hheard, hsim.give g _ _ hrep⟩
    · cases h
  | ask t patient | stir t =>
    rw [Object.step] at h
    split at h
    · rename_i hcond
      cases h
      exact ⟨y, if_pos hcond, hrep⟩
    · cases h
  | look t wakes =>
    obtain ⟨patient, hlooks, hlook⟩ := Option.bind_eq_some_iff.1 h
    have hstep : ∀ u, a.look ⟨y, s.phase, s.log⟩ t patient wakes = some u →
        a.step ⟨y, s.phase, s.log⟩ (.look t wakes) = some u := fun u hu =>
      Option.bind_eq_some_iff.2 ⟨patient, hlooks, hu⟩
    unfold look at hlook
    cases htake : o.take s.shared with
    | none =>
      rw [htake] at hlook
      cases hlook
      refine ⟨y, hstep _ ?_, hrep⟩
      rw [look, hsim.empty _ _ hrep htake]
      rfl
    | some r =>
      obtain ⟨y', htake', hrep', hsignals⟩ := hsim.take _ _ r.1 r.2 hrep htake
      rw [htake] at hlook
      dsimp only at hlook
      split at hlook
      · rename_i hquiet
        cases hlook
        refine ⟨y', hstep _ ?_, hrep'⟩
        rw [look, htake']
        exact if_pos (hsignals ▸ hquiet)
      · rename_i hloud
        split at hlook
        · rename_i hheard
          cases hlook
          refine ⟨y', hstep _ ?_, hrep'⟩
          rw [look, htake']
          exact (if_neg (hsignals ▸ hloud)).trans (if_pos hheard)
        · cases hlook

/-- A run of an object is a run of what it simulates, with the same threads asleep and the same sections. -/
theorem Simulates.run (hsim : o.Simulates a rep) {y : τ} (hrep : rep s.shared y) (h : o.run s events = some s') :
    ∃ y', a.run ⟨y, s.phase, s.log⟩ events = some ⟨y', s'.phase, s'.log⟩ ∧ rep s'.shared y' := by
  induction events generalizing s y with
  | nil =>
    cases h
    exact ⟨y, rfl, hrep⟩
  | cons e events ih =>
    obtain ⟨s₁, hstep, hrun⟩ := Option.bind_eq_some_iff.1 h
    obtain ⟨y₁, hstep', hrep₁⟩ := hsim.step hrep hstep
    obtain ⟨y', hrun', hrep'⟩ := ih hrep₁ hrun
    exact ⟨y', Option.bind_eq_some_iff.2 ⟨_, hstep', hrun'⟩, hrep'⟩

end Object

end Monitor
