import HashLink.Lib.FairRun
import HashLink.Prof.NativeQueue

/-!
Every native key of the set is delivered, once. The calls that have begun go on, and the consumer calls
`hl_prof_native_keys_take` again and again.
-/

namespace HashLink.Prof.Native

open FairRun

variable {τ : Type} [DecidableEq τ] {s : State τ} {t : τ} {k : UInt64} {j : Nat}

omit [DecidableEq τ] in
def Has (k : UInt64) (j : Nat) (s : State τ) : Prop := ∃ tickets, Queued s tickets ∧ tickets[j]? = some k

theorem Has.step (hinv : Inv s) (h : Has k j s) (a : Action τ) : Has k j (step s a) := by
  obtain ⟨tickets, hqueue, hj⟩ := h
  obtain ⟨tickets', ⟨more, rfl⟩, hnext⟩ := hqueue.step hinv.1 a
  refine ⟨_, hnext, ?_⟩
  rw [List.getElem?_append_left (List.getElem?_eq_some_iff.mp hj).1]
  exact hj

variable {n : ℕ} {a : Action τ}

theorem callers_step (s : State τ) (hother : a ≠ .step t) (hbusy : s.callers t ≠ .idle) :
    (step s a).callers t = s.callers t := by
  have hset : ∀ (s' : State τ) {t' : τ} (c : Caller), s'.callers = s.callers → t' ≠ t →
      (s'.setCaller t' c).callers t = s.callers t := fun s' t' c hs' hne => by
    rw [setCaller_of_ne s' c (Ne.symm hne), hs']
  unfold step
  cases a with
  | call t' key =>
    dsimp only
    split
    case isTrue hidle =>
        apply hset s _ rfl
        rintro rfl
        exact hbusy hidle
    case isFalse => rfl
  | step t' =>
    have hne : t' ≠ t := by
      rintro rfl
      exact hother rfl
    change (callerStep s t').callers t = _
    unfold callerStep
    cases s.callers t' with
    | idle => rfl
    | load key p =>
      dsimp only
      split
      · exact hset s _ rfl hne
      · split
        · exact hset s _ rfl hne
        · split
          · exact hset s _ rfl hne
          · exact hset s _ rfl hne
    | cas key p =>
      dsimp only
      split
      · exact hset _ _ rfl hne
      · exact hset s _ rfl hne
    | recheck key p =>
      dsimp only
      split
      · exact hset s _ rfl hne
      · exact hset s _ rfl hne
    | claimed key => exact hset _ _ rfl hne
    | ticket key index =>
      dsimp only
      split
      · exact hset s _ rfl hne
      · exact hset s _ rfl hne
    | store key index => exact hset _ _ rfl hne
  | take max =>
    dsimp only
    split
    · rfl
    · rfl
  | consume => exact congrFun (consumerStep_set s).2 t

theorem callerStep_consumer (hinv : Inv s) (t : τ) :
    (callerStep s t).tail = s.tail ∧ (callerStep s t).consumer = s.consumer ∧
      ∀ e, s.queue e ≠ 0 → (callerStep s t).queue e = s.queue e := by
  unfold callerStep
  cases hc : s.callers t with
  | idle => exact ⟨rfl, rfl, fun _ _ => rfl⟩
  | load key p =>
    dsimp only
    split
    · exact ⟨rfl, rfl, fun _ _ => rfl⟩
    · split
      · exact ⟨rfl, rfl, fun _ _ => rfl⟩
      · split
        · exact ⟨rfl, rfl, fun _ _ => rfl⟩
        · exact ⟨rfl, rfl, fun _ _ => rfl⟩
  | cas key p =>
    dsimp only
    split
    · exact ⟨rfl, rfl, fun _ _ => rfl⟩
    · exact ⟨rfl, rfl, fun _ _ => rfl⟩
  | recheck key p =>
    dsimp only
    split
    · exact ⟨rfl, rfl, fun _ _ => rfl⟩
    · exact ⟨rfl, rfl, fun _ _ => rfl⟩
  | claimed key => exact ⟨rfl, rfl, fun _ _ => rfl⟩
  | ticket key index =>
    dsimp only
    split
    · exact ⟨rfl, rfl, fun _ _ => rfl⟩
    · exact ⟨rfl, rfl, fun _ _ => rfl⟩
  | store key index =>
    obtain ⟨-, tickets, hqueue⟩ := hinv
    have hzero := (hqueue.index t key index (by rw [hc]; rfl)).2.2.1
    refine ⟨rfl, rfl, fun e he => Function.update_of_ne ?_ _ _⟩
    rintro rfl
    exact he hzero

/-! ### A key gets its index and is stored -/

variable {states : ℕ → State τ} {actions : ℕ → Action τ}

def CallsGoOn (actions : ℕ → Action τ) : Prop := ∀ t n, ∃ m, n ≤ m ∧ actions m = .step t

theorem eventually_step {P Q : State τ → Prop} (hrun : IsRun step states actions) (hinv : ∀ n, Inv (states n))
    (hcalls : CallsGoOn actions) (hwait : ∀ x a, Inv x → P x → a ≠ .step t → P (step x a))
    (hhelp : ∀ x, Inv x → P x → Q (callerStep x t)) (hP : P (states n)) :
    ∃ m, n ≤ m ∧ Q (states m) := by
  apply hrun.eventually hinv (H := fun _ a => a = .step t) (hcalls t) _ _ hP
  · exact fun x a hx hPx hother => Or.inl (hwait x a hx hPx hother)
  · rintro x a hx hPx rfl
    exact hhelp x hx hPx

theorem claimed_gets_index (hrun : IsRun step states actions) (hinv : ∀ n, Inv (states n))
    (hcalls : CallsGoOn actions) (hc : (states n).callers t = .claimed k) :
    ∃ m j, n ≤ m ∧ Has k j (states m) := by
  have hfound : ∃ m, n ≤ m ∧ ∃ j, Has k j (states m) := by
    apply eventually_step (t := t) (P := fun x => x.callers t = .claimed k) (Q := fun x => ∃ j, Has k j x) hrun hinv
      hcalls
      _ _ hc
    · intro x a _ hx hother
      rw [callers_step x hother (by rw [hx]; exact Caller.noConfusion), hx]
    · rintro x ⟨-, tickets, hqueue⟩ hx
      refine ⟨tickets.length, tickets ++ [k], ?_, List.getElem?_concat_length⟩
      unfold callerStep
      rw [hx]
      exact hqueue.claimed hx
  obtain ⟨m, hm, j, hj⟩ := hfound
  exact ⟨m, j, hm, hj⟩

theorem index_stored (hrun : IsRun step states actions) (hinv : ∀ n, Inv (states n))
    (hcalls : CallsGoOn actions) (hc : ((states n).callers t).index = some (k, j)) :
    ∃ m, n ≤ m ∧ (states m).queue (queueSlot j) ≠ 0 := by
  have hstore : ∀ {n}, (states n).callers t = .store k j → ∃ m, n ≤ m ∧ (states m).queue (queueSlot j) ≠ 0 := by
    intro n hn
    apply eventually_step (t := t) (P := fun x => x.callers t = .store k j)
      (Q := fun x => x.queue (queueSlot j) ≠ 0) hrun hinv hcalls _ _ hn
    · intro x a _ hx hother
      rw [callers_step x hother (by rw [hx]; exact Caller.noConfusion), hx]
    · rintro x ⟨-, tickets, hqueue⟩ hx
      have hzero := hqueue.ne_zero (hqueue.index t k j (by rw [hx]; rfl)).1
      unfold callerStep
      rw [hx]
      change Function.update x.queue (queueSlot j) k (queueSlot j) ≠ 0
      rwa [Function.update_self]
  cases hcaller : (states n).callers t with
  | ticket key index =>
    rw [hcaller] at hc
    cases hc
    have hnext : ∃ m, n ≤ m ∧ (states m).callers t = .store k j := by
      apply eventually_step (t := t) (P := fun x => x.callers t = .ticket k j)
        (Q := fun x => x.callers t = .store k j) hrun hinv hcalls _ _ hcaller
      · intro x a _ hx hother
        rw [callers_step x hother (by rw [hx]; exact Caller.noConfusion), hx]
      · rintro x ⟨-, tickets, hqueue⟩ hx
        have hlt := hqueue.lt_head (hqueue.index t k j (by rw [hx]; rfl)).1
        have hle := hqueue.head_le
        unfold callerStep
        rw [hx]
        dsimp only
        rw [if_pos (by omega), setCaller_self]
    obtain ⟨m, hm, hstored⟩ := hnext
    obtain ⟨m', hm', hready⟩ := hstore hstored
    exact ⟨m', Nat.le_trans hm hm', hready⟩
  | store key index =>
    rw [hcaller] at hc
    cases hc
    exact hstore hcaller
  | idle => rw [hcaller] at hc; cases hc
  | load key p => rw [hcaller] at hc; cases hc
  | cas key p => rw [hcaller] at hc; cases hc
  | recheck key p => rw [hcaller] at hc; cases hc
  | claimed key => rw [hcaller] at hc; cases hc

/-- A call of `hl_prof_native_keys_take` that has room for a key begins. -/
def Begins (s : State τ) (a : Action τ) : Prop := s.consumer = .idle ∧ ∃ max, 0 < max ∧ a = .take max

def ConsumerGoesOn (states : ℕ → State τ) (actions : ℕ → Action τ) : Prop :=
  ∀ n, ∃ m, n ≤ m ∧ Begins (states m) (actions m)

def Consumer.Takes : Consumer → Prop
  | .check count max => count < max
  | .fetch _ _ => True
  | .clear _ _ _ => True
  | _ => False

/-- The consumer has passed the index, or has its key, or finds it at the tail. -/
def Ready (j : Nat) (s : State τ) : Prop :=
  j < s.tail ∨ j = s.tail ∧ (s.consumer.hand ≠ none ∨ s.queue (queueSlot j) ≠ 0)

/-- The same, with the consumer about to take the key it finds. -/
def Taking (j : Nat) (s : State τ) : Prop :=
  j < s.tail ∨ j = s.tail ∧ (s.consumer.hand ≠ none ∨ s.queue (queueSlot j) ≠ 0 ∧ s.consumer.Takes)

omit [DecidableEq τ] in
theorem consumerStep_tail (s : State τ) : s.tail ≤ (consumerStep s).tail := by
  unfold consumerStep
  split
  · exact Nat.le_refl _
  · split
    · exact Nat.le_refl _
    · exact Nat.le_refl _
  · split
    · exact Nat.le_refl _
    · exact Nat.le_refl _
  · exact Nat.le_refl _
  · exact Nat.le_succ _

theorem step_consumer (hinv : Inv s) (ha : a ≠ .consume) :
    (step s a).tail = s.tail ∧ (∀ e, s.queue e ≠ 0 → (step s a).queue e = s.queue e) ∧
      ((step s a).consumer = s.consumer ∨ s.consumer = .idle) := by
  unfold step
  cases a with
  | call t key =>
    dsimp only
    split
    · exact ⟨rfl, fun _ _ => rfl, Or.inl rfl⟩
    · exact ⟨rfl, fun _ _ => rfl, Or.inl rfl⟩
  | step t =>
    obtain ⟨htail, hconsumer, hqueue⟩ := callerStep_consumer hinv t
    exact ⟨htail, hqueue, Or.inl hconsumer⟩
  | take max =>
    dsimp only
    split
    case isTrue hidle => exact ⟨rfl, fun _ _ => rfl, Or.inr hidle⟩
    case isFalse => exact ⟨rfl, fun _ _ => rfl, Or.inl rfl⟩
  | consume => exact absurd rfl ha

theorem step_tail (hinv : Inv s) (a : Action τ) : s.tail ≤ (step s a).tail := by
  by_cases ha : a = .consume
  · rw [ha]
    exact consumerStep_tail s
  · rw [(step_consumer hinv ha).1]

theorem Ready.step (hinv : Inv s) (h : Ready j s) (a : Action τ) : Ready j (step s a) := by
  have htail := step_tail hinv a
  rcases h with hlt | ⟨heq, h⟩
  · exact Or.inl (Nat.lt_of_lt_of_le hlt htail)
  by_cases ha : a = .consume
  · rw [ha]
    change Ready j (consumerStep s)
    unfold Ready consumerStep
    cases hc : s.consumer with
    | idle =>
      refine Or.inr ⟨heq, ?_⟩
      rw [hc] at h
      rcases h with hnone | hstored
      · exact absurd rfl hnone
      · exact Or.inr hstored
    | check count max =>
      rw [hc] at h
      rcases h with hnone | hstored
      · exact absurd rfl hnone
      · dsimp only
        split
        · exact Or.inr ⟨heq, Or.inr hstored⟩
        · exact Or.inr ⟨heq, Or.inr hstored⟩
    | fetch count max =>
      rw [hc] at h
      rcases h with hnone | hstored
      · exact absurd rfl hnone
      · dsimp only
        split
        · exact Or.inr ⟨heq, Or.inr hstored⟩
        · exact Or.inr ⟨heq, Or.inr hstored⟩
    | clear count max key => exact Or.inr ⟨heq, Or.inl (Option.some_ne_none key)⟩
    | advance count max key => exact Or.inl (Nat.lt_succ_of_le (Nat.le_of_eq heq))
  · obtain ⟨htail', hqueue, hconsumer⟩ := step_consumer hinv ha
    refine Or.inr ⟨by rw [htail', heq], ?_⟩
    rcases h with hhand | hstored
    · left
      rcases hconsumer with hsame | hidle
      · rwa [hsame]
      · rw [hidle] at hhand
        exact absurd rfl hhand
    · right
      rwa [hqueue _ hstored]

theorem Taking.step (hinv : Inv s) (h : Taking j s) (hhas : Has k j s) (a : Action τ) : Taking j (step s a) := by
  have htail := step_tail hinv a
  rcases h with hlt | ⟨heq, h⟩
  · exact Or.inl (Nat.lt_of_lt_of_le hlt htail)
  by_cases ha : a = .consume
  · obtain ⟨tickets, hqueue, hj⟩ := hhas
    have hmore := hqueue.lt_head hj
    rw [ha]
    change Taking j (consumerStep s)
    unfold Taking consumerStep
    cases hc : s.consumer with
    | idle =>
      rw [hc] at h
      rcases h with hnone | ⟨-, htakes⟩
      · exact absurd rfl hnone
      · exact absurd htakes id
    | check count max =>
      rw [hc] at h
      rcases h with hnone | ⟨hstored, htakes⟩
      · exact absurd rfl hnone
      · dsimp only
        rw [if_pos ⟨htakes, by omega⟩]
        exact Or.inr ⟨heq, Or.inr ⟨hstored, trivial⟩⟩
    | fetch count max =>
      rw [hc] at h
      rcases h with hnone | ⟨hstored, -⟩
      · exact absurd rfl hnone
      · dsimp only
        rw [if_neg (by rw [← heq]; exact hstored)]
        exact Or.inr ⟨heq, Or.inr ⟨hstored, trivial⟩⟩
    | clear count max key => exact Or.inr ⟨heq, Or.inl (Option.some_ne_none key)⟩
    | advance count max key => exact Or.inl (Nat.lt_succ_of_le (Nat.le_of_eq heq))
  · obtain ⟨htail', hqueue, hconsumer⟩ := step_consumer hinv ha
    refine Or.inr ⟨by rw [htail', heq], ?_⟩
    rcases hconsumer with hsame | hidle
    · rw [hsame]
      rcases h with hhand | ⟨hstored, htakes⟩
      · exact Or.inl hhand
      · exact Or.inr ⟨by rwa [hqueue _ hstored], htakes⟩
    · rw [hidle] at h
      rcases h with hnone | ⟨-, htakes⟩
      · exact absurd rfl hnone
      · exact absurd htakes id

theorem Ready.taking (h : Ready j s) (ha : Begins s a) :
    Taking j (Native.step s a) := by
  obtain ⟨hidle, max, hmax, rfl⟩ := ha
  change Taking j (if s.consumer = .idle then { s with consumer := .check 0 max } else s)
  rw [if_pos hidle]
  rcases h with hlt | ⟨heq, hnone | hstored⟩
  · exact Or.inl hlt
  · rw [hidle] at hnone
    exact absurd rfl hnone
  · exact Or.inr ⟨heq, Or.inr ⟨hstored, hmax⟩⟩

omit [DecidableEq τ] in
theorem Taking.passed (h : Taking j s) (ha : Begins s a) : j < s.tail := by
  rcases h with hlt | ⟨-, hnone | ⟨-, htakes⟩⟩
  · exact hlt
  · rw [ha.1] at hnone
    exact absurd rfl hnone
  · rw [ha.1] at htakes
    exact absurd htakes id

theorem has_ready (hrun : IsRun step states actions) (hinv : ∀ n, Inv (states n)) (hcalls : CallsGoOn actions)
    (h : Has k j (states n)) (hle : j ≤ (states n).tail) :
    ∃ m, n ≤ m ∧ Ready j (states m) := by
  obtain ⟨tickets, hqueue, hj⟩ := h
  rcases Nat.lt_or_eq_of_le hle with hlt | heq
  · exact ⟨n, Nat.le_refl n, Or.inl hlt⟩
  · rcases hqueue.entries j k hj (Nat.le_of_eq heq.symm) with hstored | ⟨htail, hhand⟩ | ⟨t, ht⟩
    · refine ⟨n, Nat.le_refl n, Or.inr ⟨heq, Or.inr ?_⟩⟩
      rw [hstored]
      exact hqueue.ne_zero hj
    · refine ⟨n, Nat.le_refl n, Or.inr ⟨htail, Or.inl ?_⟩⟩
      rw [hhand]
      exact Option.some_ne_none k
    · obtain ⟨m, hm, hstored⟩ := index_stored hrun hinv hcalls ht
      have hlater : j ≤ (states m).tail :=
        hrun.lasts hinv (P := fun x => j ≤ x.tail) (fun x a hx hP => Nat.le_trans hP (step_tail hx a)) hle hm
      rcases Nat.lt_or_eq_of_le hlater with hlt | heq'
      · exact ⟨m, hm, Or.inl hlt⟩
      · exact ⟨m, hm, Or.inr ⟨heq', Or.inr hstored⟩⟩

theorem has_lasts (hrun : IsRun step states actions) (hinv : ∀ n, Inv (states n)) {m : ℕ}
    (h : Has k j (states n)) (hnm : n ≤ m) : Has k j (states m) :=
  hrun.lasts hinv (fun _ a hx hP => hP.step hx a) h hnm

theorem ready_passed (hrun : IsRun step states actions) (hinv : ∀ n, Inv (states n))
    (hcalls : CallsGoOn actions) (hconsumer : ConsumerGoesOn states actions) (h : Has k j (states n))
    (hle : j ≤ (states n).tail) : ∃ m, n ≤ m ∧ j < (states m).tail := by
  obtain ⟨m₁, hm₁, hready⟩ := has_ready hrun hinv hcalls h hle
  have htaking : ∃ m, m₁ ≤ m ∧ Taking j (states m) := by
    apply hrun.eventually hinv hconsumer (P := Ready j)
    · exact fun x a hx hP _ => Or.inl (hP.step hx a)
    · exact fun x a _ hP ha => hP.taking ha
    · exact hready
  obtain ⟨m₂, hm₂, htaking⟩ := htaking
  have hhas := has_lasts hrun hinv h (Nat.le_trans hm₁ hm₂)
  have hpassed : ∃ m, m₂ ≤ m ∧ j < (states m).tail := by
    apply hrun.eventually hinv hconsumer (P := fun x => Taking j x ∧ Has k j x) (Q := fun x => j < x.tail)
    · exact fun x a hx hP _ => Or.inl ⟨hP.1.step hx hP.2 a, hP.2.step hx a⟩
    · exact fun x a hx hP ha => Nat.lt_of_lt_of_le (hP.1.passed ha) (step_tail hx a)
    · exact ⟨htaking, hhas⟩
  obtain ⟨m₃, hm₃, hlt⟩ := hpassed
  exact ⟨m₃, by omega, hlt⟩

theorem index_passed (hrun : IsRun step states actions) (hinv : ∀ n, Inv (states n))
    (hcalls : CallsGoOn actions) (hconsumer : ConsumerGoesOn states actions) (j : Nat) :
    ∀ {n : ℕ} {k : UInt64}, Has k j (states n) → ∃ m, n ≤ m ∧ j < (states m).tail := by
  induction j with
  | zero =>
    intro n k h
    exact ready_passed hrun hinv hcalls hconsumer h (Nat.zero_le _)
  | succ j ih =>
    intro n k h
    obtain ⟨tickets, hqueue, hj⟩ := h
    have hbefore : j < tickets.length := Nat.lt_of_succ_lt (List.getElem?_eq_some_iff.mp hj).1
    obtain ⟨m, hm, htail⟩ := ih ⟨tickets, hqueue, List.getElem?_eq_getElem hbefore⟩
    obtain ⟨m', hm', hpassed⟩ :=
      ready_passed hrun hinv hcalls hconsumer (has_lasts hrun hinv ⟨tickets, hqueue, hj⟩ hm) htail
    exact ⟨m', Nat.le_trans hm hm', hpassed⟩

theorem key_gets_index (hrun : IsRun step states actions) (hinv : ∀ n, Inv (states n))
    (hcalls : CallsGoOn actions) {i : Fin nativeKeys} (hi : (states n).keys i ≠ 0) :
    ∃ m j, n ≤ m ∧ Has ((states n).keys i) j (states m) := by
  obtain ⟨-, tickets, hqueue⟩ := hinv n
  rcases hqueue.covered i hi with hmem | ⟨t, ht⟩
  · obtain ⟨j, hj⟩ := List.getElem?_of_mem hmem
    exact ⟨n, j, Nat.le_refl n, tickets, hqueue, hj⟩
  · cases hc : (states n).callers t with
    | claimed key =>
      rw [hc] at ht
      injection ht with hkey
      rw [← hkey]
      exact claimed_gets_index hrun hinv hcalls hc
    | idle => rw [hc] at ht; cases ht
    | load key p => rw [hc] at ht; cases ht
    | cas key p => rw [hc] at ht; cases ht
    | recheck key p => rw [hc] at ht; cases ht
    | ticket key index => rw [hc] at ht; cases ht
    | store key index => rw [hc] at ht; cases ht

omit [DecidableEq τ] in
theorem passed_delivered (h : Has k j s) (hpassed : j < s.tail) : k ∈ s.delivered := by
  obtain ⟨tickets, hqueue, hj⟩ := h
  rw [hqueue.delivered]
  apply List.mem_of_getElem? (i := j)
  rw [List.getElem?_take_of_lt hpassed, hj]

/-- In every run of a session, the consumer gets no key twice and nothing that is not in the set. When the
calls go on, it gets every key of the set, and moves past every index that was given out. -/
theorem native_key_delivery (hrun : IsRun step states actions) (hstart : states 0 = reset) :
    (∀ n, (states n).delivered.Nodup ∧ ∀ k ∈ (states n).delivered, k ≠ 0 ∧ ∃ i, (states n).keys i = k) ∧
    (CallsGoOn actions → ConsumerGoesOn states actions →
      (∀ n i, (states n).keys i ≠ 0 → ∃ m, n ≤ m ∧ (states n).keys i ∈ (states m).delivered) ∧
      ∀ n, (states n).tail < (states n).head → ∃ m, n ≤ m ∧ (states n).tail < (states m).tail) := by
  have hinv : ∀ n, Inv (states n) := by
    have hreset : Inv (states 0) := by
      rw [hstart]
      exact reset_inv
    exact hrun.invariant hreset fun _ a hx => hx.step a
  refine ⟨fun n => ⟨(hinv n).delivered_nodup, fun k hk => (hinv n).delivered_mem hk⟩, ?_⟩
  intro hcalls hconsumer
  constructor
  · intro n i hi
    obtain ⟨m, j, hm, hhas⟩ := key_gets_index hrun hinv hcalls hi
    obtain ⟨m', hm', hpassed⟩ := index_passed hrun hinv hcalls hconsumer j hhas
    exact ⟨m', Nat.le_trans hm hm', passed_delivered (has_lasts hrun hinv hhas hm') hpassed⟩
  · intro n hlt
    obtain ⟨-, tickets, hqueue⟩ := hinv n
    rw [← hqueue.head] at hlt
    exact index_passed hrun hinv hcalls hconsumer _ ⟨tickets, hqueue, List.getElem?_eq_getElem hlt⟩

/-- Two threads at once, each with a key that is new, and the consumer behind them. -/
def twoKeyActions (n : ℕ) : Action Bool :=
  if n = 0 then .call false 5
  else if n = 1 then .call true 6
  else if n < 16 then .step (n % 2 = 1)
  else if n % 4 = 0 then .take 2
  else if n % 4 = 1 then .consume
  else .step (n % 4 = 3)

def twoKeyStates : ℕ → State Bool
  | 0 => reset
  | n + 1 => step (twoKeyStates n) (twoKeyActions n)

/-- Nobody does anything, and there is nothing to take. -/
def Rests (s : State Bool) : Prop := (∀ t, s.callers t = .idle) ∧ s.consumer = .idle ∧ s.tail = s.head

instance (s : State Bool) : Decidable (Rests s) := inferInstanceAs (Decidable (_ ∧ _ ∧ _))

theorem twoKeys_settle : Rests (twoKeyStates 64) ∧
    (twoKeyStates 16).keys (probeSlot 5 0) = 5 ∧ (twoKeyStates 16).keys (probeSlot 6 0) = 6 := by
  decide +kernel

theorem twoKeyActions_cycle (i : ℕ) : twoKeyActions (64 + 4 * i) = .take 2 ∧
    twoKeyActions (64 + 4 * i + 1) = .consume ∧ twoKeyActions (64 + 4 * i + 2) = .step false ∧
    twoKeyActions (64 + 4 * i + 3) = .step true := by
  have hmod : ∀ j < 4, (64 + 4 * i + j) % 4 = j := fun j hj => by omega
  have hlater : ∀ j, twoKeyActions (64 + 4 * i + j) = if (64 + 4 * i + j) % 4 = 0 then .take 2
      else if (64 + 4 * i + j) % 4 = 1 then .consume else .step ((64 + 4 * i + j) % 4 = 3) := fun j => by
    unfold twoKeyActions
    rw [if_neg (by omega), if_neg (by omega), if_neg (by omega)]
  refine ⟨(hlater 0).trans ?_, (hlater 1).trans ?_, (hlater 2).trans ?_, (hlater 3).trans ?_⟩
  all_goals
    rw [hmod _ (by decide)]
    rfl

theorem twoKeys_rest (i : ℕ) : Rests (twoKeyStates (64 + 4 * i)) := by
  induction i with
  | zero => exact (twoKeys_settle).1
  | succ i ih =>
    obtain ⟨htake, hconsume, hfirst, hsecond⟩ := twoKeyActions_cycle i
    change Rests (step (step (step (step (twoKeyStates (64 + 4 * i)) (twoKeyActions (64 + 4 * i)))
      (twoKeyActions (64 + 4 * i + 1))) (twoKeyActions (64 + 4 * i + 2))) (twoKeyActions (64 + 4 * i + 3)))
    rw [htake, hconsume, hfirst, hsecond]
    obtain ⟨hcallers, hidle, hall⟩ := ih
    generalize twoKeyStates (64 + 4 * i) = s at hcallers hidle hall
    have hbegins : step s (.take 2) = { s with consumer := .check 0 2 } := by
      change (if s.consumer = .idle then { s with consumer := .check 0 2 } else s) = _
      rw [if_pos hidle]
    have hends : step { s with consumer := .check 0 2 } .consume = { s with consumer := .idle } := by
      change (if (0 : Int) < 2 ∧ s.tail < s.head then _ else { s with consumer := .idle }) = _
      rw [if_neg (by omega)]
    have hnothing (t : Bool) : step { s with consumer := .idle } (.step t) = { s with consumer := .idle } := by
      change callerStep _ t = _
      unfold callerStep
      rw [hcallers t]
    rw [hbegins, hends, hnothing, hnothing]
    exact ⟨hcallers, rfl, hall⟩

theorem native_key_delivery_two : ∃ m m', 5 ∈ (twoKeyStates m).delivered ∧ 6 ∈ (twoKeyStates m').delivered := by
  have hcalls : CallsGoOn twoKeyActions := by
    rintro (_ | _) n
    · exact ⟨64 + 4 * n + 2, by omega, (twoKeyActions_cycle n).2.2.1⟩
    · exact ⟨64 + 4 * n + 3, by omega, (twoKeyActions_cycle n).2.2.2⟩
  have hconsumer : ConsumerGoesOn twoKeyStates twoKeyActions := fun n =>
    ⟨64 + 4 * n, by omega, (twoKeys_rest n).2.1, 2, by decide, (twoKeyActions_cycle n).1⟩
  have hrun : IsRun step twoKeyStates twoKeyActions := fun _ => rfl
  have hdelivered := ((native_key_delivery hrun rfl).2 hcalls hconsumer).1 16
  obtain ⟨-, hfive, hsix⟩ := twoKeys_settle
  obtain ⟨m, -, hm⟩ := hdelivered (probeSlot 5 0) (hfive ▸ by decide)
  obtain ⟨m', -, hm'⟩ := hdelivered (probeSlot 6 0) (hsix ▸ by decide)
  exact ⟨m, m', hfive ▸ hm, hsix ▸ hm'⟩

end HashLink.Prof.Native
