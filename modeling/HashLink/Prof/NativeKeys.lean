import Mathlib

/-!
The native call keys of a session. A thread that calls a native looks for its key in a set of fixed size,
puts the key there if it is new, takes the next place of a queue and stores the key at it. The consumer
takes the keys from the queue. Each access of shared memory is a step of its own, of any thread.
-/

namespace HashLink.Prof.Native

def nativeKeys : Nat := 65536

def nativeProbes : Nat := 32

instance : NeZero nativeKeys := ⟨by decide⟩

def probeSlot (key : UInt64) (probe : Nat) : Fin nativeKeys :=
  Fin.ofNat nativeKeys (((key * 0x9E3779B97F4A7C15) >>> 48).toNat + probe)

def queueSlot (index : Nat) : Fin nativeKeys := Fin.ofNat nativeKeys index

/-- A thread and its call of `native_key_seen`: what it accesses next. -/
inductive Caller where
  | idle
  /-- Reads the entry. -/
  | load (key : UInt64) (probe : Nat)
  /-- The entry was empty. -/
  | cas (key : UInt64) (probe : Nat)
  /-- Another thread filled the entry first. -/
  | recheck (key : UInt64) (probe : Nat)
  /-- The key is in the set, and needs an index. -/
  | claimed (key : UInt64)
  /-- Compares its index with the tail. -/
  | ticket (key : UInt64) (index : Nat)
  /-- Stores the key in the queue. -/
  | store (key : UInt64) (index : Nat)
  deriving DecidableEq, Repr

/-- The consumer and its call of `hl_prof_native_keys_take`. -/
inductive Consumer where
  | idle
  /-- The condition of the loop. -/
  | check (count max : Int)
  /-- Reads the entry at the tail. -/
  | fetch (count max : Int)
  | clear (count max : Int) (key : UInt64)
  /-- The entry is cleared, and the tail moves. -/
  | advance (count max : Int) (key : UInt64)
  deriving DecidableEq, Repr

structure State (τ : Type) where
  keys : Fin nativeKeys → UInt64
  queue : Fin nativeKeys → UInt64
  head : Nat
  tail : Nat
  callers : τ → Caller
  consumer : Consumer
  /-- What the calls of the consumer have given, in order. -/
  delivered : List UInt64

variable {τ : Type} [DecidableEq τ]

/-- `hl_prof_native_keys_reset`, with no call in progress. -/
def reset : State τ where
  keys := fun _ => 0
  queue := fun _ => 0
  head := 0
  tail := 0
  callers := fun _ => .idle
  consumer := .idle
  delivered := []

def State.setCaller (s : State τ) (t : τ) (c : Caller) : State τ :=
  { s with callers := Function.update s.callers t c }

/-- The next access of a call of `native_key_seen`. -/
def callerStep (s : State τ) (t : τ) : State τ :=
  match s.callers t with
  | .idle => s
  | .load key probe =>
    if nativeProbes ≤ probe then s.setCaller t .idle
    else if s.keys (probeSlot key probe) = key then s.setCaller t .idle
    else if s.keys (probeSlot key probe) = 0 then s.setCaller t (.cas key probe)
    else s.setCaller t (.load key (probe + 1))
  | .cas key probe =>
    if s.keys (probeSlot key probe) = 0 then
      { s with keys := Function.update s.keys (probeSlot key probe) key }.setCaller t (.claimed key)
    else s.setCaller t (.recheck key probe)
  | .recheck key probe =>
    if s.keys (probeSlot key probe) = key then s.setCaller t .idle
    else s.setCaller t (.load key (probe + 1))
  | .claimed key => { s with head := s.head + 1 }.setCaller t (.ticket key s.head)
  | .ticket key index =>
    -- a full queue loses the key's name
    if (index : Int) - s.tail < nativeKeys then s.setCaller t (.store key index) else s.setCaller t .idle
  | .store key index =>
    { s with queue := Function.update s.queue (queueSlot index) key }.setCaller t .idle

/-- The next access of a call of `hl_prof_native_keys_take`. -/
def consumerStep (s : State τ) : State τ :=
  match s.consumer with
  | .idle => s
  | .check count max =>
    if count < max ∧ s.tail < s.head then { s with consumer := .fetch count max }
    else { s with consumer := .idle }
  | .fetch count max =>
    -- claimed but not stored yet
    if s.queue (queueSlot s.tail) = 0 then { s with consumer := .idle }
    else { s with consumer := .clear count max (s.queue (queueSlot s.tail)) }
  | .clear count max key =>
    { s with
      queue := Function.update s.queue (queueSlot s.tail) 0
      consumer := .advance count max key }
  | .advance count max key =>
    { s with
      tail := s.tail + 1
      delivered := s.delivered ++ [key]
      consumer := .check (count + 1) max }

inductive Action (τ : Type) where
  /-- A thread begins `native_key_seen`. -/
  | call (t : τ) (key : UInt64)
  | step (t : τ)
  /-- The consumer begins `hl_prof_native_keys_take`. -/
  | take (max : Int)
  | consume
  deriving DecidableEq, Repr

def step (s : State τ) : Action τ → State τ
  | .call t key => if s.callers t = .idle then s.setCaller t (.load key 0) else s
  | .step t => callerStep s t
  | .take max => if s.consumer = .idle then { s with consumer := .check 0 max } else s
  | .consume => consumerStep s

def Caller.probe : Caller → Option (UInt64 × Nat)
  | .load key probe => some (key, probe)
  | .cas key probe => some (key, probe)
  | .recheck key probe => some (key, probe)
  | _ => none

def Caller.claim : Caller → Option UInt64
  | .claimed key => some key
  | _ => none

def Caller.index : Caller → Option (UInt64 × Nat)
  | .ticket key index => some (key, index)
  | .store key index => some (key, index)
  | _ => none

/-- A probe for the key found another one. -/
def Passed (keys : Fin nativeKeys → UInt64) (key : UInt64) (probe : Nat) : Prop :=
  keys (probeSlot key probe) ≠ 0 ∧ keys (probeSlot key probe) ≠ key

/-- The set holds a key once, where the probes for it stop. -/
structure SetInv (s : State τ) : Prop where
  unique : ∀ i j, s.keys i = s.keys j → s.keys i ≠ 0 → i = j
  placed : ∀ i, s.keys i ≠ 0 → ∃ p, i = probeSlot (s.keys i) p ∧ ∀ q < p, Passed s.keys (s.keys i) q
  passed : ∀ t key p, (s.callers t).probe = some (key, p) → ∀ q < p, Passed s.keys key q
  cas : ∀ t key p, s.callers t = .cas key p → key ≠ 0
  recheck : ∀ t key p, s.callers t = .recheck key p → s.keys (probeSlot key p) ≠ 0

omit [DecidableEq τ] in
theorem reset_setInv : SetInv (reset : State τ) where
  unique := fun _ _ _ h => absurd rfl h
  placed := fun _ h => absurd rfl h
  passed := fun _ _ _ h => by cases h
  cas := fun _ _ _ h => by cases h
  recheck := fun _ _ _ h => by cases h

variable {s : State τ} {t : τ}

@[simp] theorem setCaller_self (s : State τ) (t : τ) (c : Caller) : (s.setCaller t c).callers t = c := by
  unfold State.setCaller
  exact Function.update_self t c s.callers

theorem setCaller_of_ne {t' : τ} (s : State τ) (c : Caller) (h : t' ≠ t) :
    (s.setCaller t c).callers t' = s.callers t' := by
  unfold State.setCaller
  exact Function.update_of_ne h c s.callers

theorem SetInv.setCaller (h : SetInv s) {c : Caller}
    (hpassed : ∀ key p, c.probe = some (key, p) → ∀ q < p, Passed s.keys key q)
    (hcas : ∀ key p, c = .cas key p → key ≠ 0)
    (hrecheck : ∀ key p, c = .recheck key p → s.keys (probeSlot key p) ≠ 0) : SetInv (s.setCaller t c) where
  unique := h.unique
  placed := h.placed
  passed := fun t' key p hc => by
    by_cases heq : t' = t
    · rw [heq, setCaller_self] at hc
      exact hpassed key p hc
    · rw [setCaller_of_ne s c heq] at hc
      exact h.passed t' key p hc
  cas := fun t' key p hc => by
    by_cases heq : t' = t
    · rw [heq, setCaller_self] at hc
      exact hcas key p hc
    · rw [setCaller_of_ne s c heq] at hc
      exact h.cas t' key p hc
  recheck := fun t' key p hc => by
    by_cases heq : t' = t
    · rw [heq, setCaller_self] at hc
      exact hrecheck key p hc
    · rw [setCaller_of_ne s c heq] at hc
      exact h.recheck t' key p hc

theorem SetInv.leave (h : SetInv s) {c : Caller} (hc : c.probe = none) : SetInv (s.setCaller t c) := by
  apply h.setCaller
  · intro key p hp
    rw [hc] at hp
    cases hp
  · rintro key p rfl
    cases hc
  · rintro key p rfl
    cases hc

variable {key : UInt64} {p : Nat}

theorem Passed.update {keys : Fin nativeKeys → UInt64} (h : Passed keys key p) {i : Fin nativeKeys}
    (hi : keys i = 0) (v : UInt64) : Passed (Function.update keys i v) key p := by
  have hne : probeSlot key p ≠ i := by
    intro heq
    rw [← heq] at hi
    exact h.1 hi
  unfold Passed
  rw [Function.update_of_ne hne]
  exact h

omit [DecidableEq τ] in
theorem SetInv.fresh (h : SetInv s) (hkey : key ≠ 0) (hpassed : ∀ q < p, Passed s.keys key q)
    (hempty : s.keys (probeSlot key p) = 0) (i : Fin nativeKeys) :
    s.keys i ≠ key := by
  rintro rfl
  obtain ⟨p', hslot, hbefore⟩ := h.placed i hkey
  rcases Nat.lt_trichotomy p' p with hlt | rfl | hgt
  · exact (hpassed p' hlt).2 (congrArg s.keys hslot.symm)
  · rw [← hslot] at hempty
    exact hkey hempty
  · exact (hbefore p hgt).1 hempty

omit [DecidableEq τ] in
theorem SetInv.fill (h : SetInv s) (hkey : key ≠ 0) (hpassed : ∀ q < p, Passed s.keys key q)
    (hempty : s.keys (probeSlot key p) = 0) :
    SetInv { s with keys := Function.update s.keys (probeSlot key p) key } where
  unique := fun i j heq hne => by
    have hfresh := h.fresh hkey hpassed hempty
    dsimp only at heq hne
    by_cases hi : i = probeSlot key p
    · by_cases hj : j = probeSlot key p
      · rw [hi, hj]
      · rw [hi, Function.update_self, Function.update_of_ne hj] at heq
        exact absurd heq.symm (hfresh j)
    · rw [Function.update_of_ne hi] at heq hne
      by_cases hj : j = probeSlot key p
      · rw [hj, Function.update_self] at heq
        exact absurd heq (hfresh i)
      · rw [Function.update_of_ne hj] at heq
        exact h.unique i j heq hne
  placed := fun i hne => by
    dsimp only at hne ⊢
    by_cases hi : i = probeSlot key p
    · rw [hi, Function.update_self]
      exact ⟨p, rfl, fun q hq => (hpassed q hq).update hempty key⟩
    · rw [Function.update_of_ne hi] at hne ⊢
      obtain ⟨p', hslot, hbefore⟩ := h.placed i hne
      exact ⟨p', hslot, fun q hq => (hbefore q hq).update hempty key⟩
  passed := fun t' key' p' hc q hq => (h.passed t' key' p' hc q hq).update hempty key
  cas := h.cas
  recheck := fun t' key' p' hc => by
    have hne := h.recheck t' key' p' hc
    dsimp only
    rw [Function.update_of_ne]
    · exact hne
    · intro heq
      rw [heq] at hne
      exact hne hempty

theorem passed_succ {keys : Fin nativeKeys → UInt64} (h : ∀ q < p, Passed keys key q) (hp : Passed keys key p) :
    ∀ q < p + 1, Passed keys key q := by
  intro q hq
  rcases Nat.lt_or_eq_of_le (Nat.le_of_lt_succ hq) with hlt | rfl
  · exact h q hlt
  · exact hp

theorem SetInv.next (h : SetInv s) (hprobe : (s.callers t).probe = some (key, p))
    (hzero : s.keys (probeSlot key p) ≠ 0) (hother : s.keys (probeSlot key p) ≠ key) :
    SetInv (s.setCaller t (.load key (p + 1))) := by
  apply h.setCaller
  · intro key' p' hc
    cases hc
    exact passed_succ (h.passed t key p hprobe) ⟨hzero, hother⟩
  · intro _ _ hc
    cases hc
  · intro _ _ hc
    cases hc

theorem SetInv.callerStep (h : SetInv s) (t : τ) : SetInv (callerStep s t) := by
  unfold Native.callerStep
  cases hc : s.callers t with
  | idle => exact h
  | load key p =>
    dsimp only
    have hprobe : (s.callers t).probe = some (key, p) := by rw [hc]; rfl
    split
    · exact h.leave rfl
    · split
      case isTrue => exact h.leave rfl
      case isFalse hother =>
          split
          case isTrue hempty =>
              apply h.setCaller
              · intro key' p' hp
                cases hp
                exact h.passed t key p hprobe
              · intro key' p' hcas
                cases hcas
                rw [hempty] at hother
                exact Ne.symm hother
              · intro key' p' hre
                cases hre
          case isFalse hzero => exact h.next hprobe hzero hother
  | cas key p =>
    dsimp only
    have hprobe : (s.callers t).probe = some (key, p) := by rw [hc]; rfl
    split
    case isTrue hempty =>
        exact (h.fill (h.cas t key p hc) (h.passed t key p hprobe) hempty).leave rfl
    case isFalse hfull =>
        apply h.setCaller
        · intro key' p' hp
          cases hp
          exact h.passed t key p hprobe
        · intro key' p' hcas
          cases hcas
        · intro key' p' hre
          cases hre
          exact hfull
  | recheck key p =>
    dsimp only
    have hprobe : (s.callers t).probe = some (key, p) := by rw [hc]; rfl
    split
    case isTrue => exact h.leave rfl
    case isFalse hother => exact h.next hprobe (h.recheck t key p hc) hother
  | claimed key =>
    have hleft : SetInv (s.setCaller t (.ticket key s.head)) := h.leave rfl
    exact ⟨hleft.unique, hleft.placed, hleft.passed, hleft.cas, hleft.recheck⟩
  | ticket key index =>
    dsimp only
    split
    · exact h.leave rfl
    · exact h.leave rfl
  | store key index =>
    have hleft : SetInv (s.setCaller t .idle) := h.leave rfl
    exact ⟨hleft.unique, hleft.placed, hleft.passed, hleft.cas, hleft.recheck⟩

omit [DecidableEq τ] in
theorem consumerStep_set (s : State τ) : (consumerStep s).keys = s.keys ∧ (consumerStep s).callers = s.callers := by
  unfold consumerStep
  split
  · exact ⟨rfl, rfl⟩
  · split
    · exact ⟨rfl, rfl⟩
    · exact ⟨rfl, rfl⟩
  · split
    · exact ⟨rfl, rfl⟩
    · exact ⟨rfl, rfl⟩
  · exact ⟨rfl, rfl⟩
  · exact ⟨rfl, rfl⟩

omit [DecidableEq τ] in
theorem SetInv.congr {s' : State τ} (h : SetInv s) (hkeys : s'.keys = s.keys) (hcallers : s'.callers = s.callers) :
    SetInv s' := by
  constructor
  · rw [hkeys]
    exact h.unique
  · rw [hkeys]
    exact h.placed
  · rw [hkeys, hcallers]
    exact h.passed
  · rw [hcallers]
    exact h.cas
  · rw [hkeys, hcallers]
    exact h.recheck

theorem SetInv.step (h : SetInv s) (a : Action τ) : SetInv (step s a) := by
  unfold Native.step
  cases a with
  | call t key =>
    dsimp only
    split
    · apply h.setCaller
      · intro key' p' hp
        cases hp
        exact fun q hq => absurd hq (Nat.not_lt_zero q)
      · intro _ _ hc
        cases hc
      · intro _ _ hc
        cases hc
    · exact h
  | step t => exact h.callerStep t
  | take max =>
    dsimp only
    split
    · exact h.congr rfl rfl
    · exact h
  | consume => exact h.congr (consumerStep_set s).1 (consumerStep_set s).2

end HashLink.Prof.Native
