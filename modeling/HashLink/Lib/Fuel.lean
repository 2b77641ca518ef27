import Mathlib.Order.Basic

/-!
Functions with fuel. A recursive function is what it does with an argument: it has a result, or it asks for its own
value at another argument and goes on with the answer. With fuel for the depth of the calls it gives a result in the
end exactly when no chain of questions, each asked for the answer to the one before, goes on forever.
-/

namespace Fuel

variable {Q A B α : Type*}

inductive Asking (Q A : Type*) where
  | done (a : A)
  | ask (q : Q) (next : A → Asking Q A)

namespace Asking

def call (q : Q) : Asking Q A := .ask q .done

def andThen (f : A → Asking Q A) : Asking Q A → Asking Q A
  | done a => f a
  | ask q next => ask q fun a => (next a).andThen f

def eval (answer : Q → Option A) : Asking Q A → Option A
  | done a => some a
  | ask q next => (answer q).bind fun a => (next a).eval answer

@[simp] theorem eval_done (answer : Q → Option A) (a : A) : (done a).eval answer = some a := rfl

@[simp] theorem eval_call (answer : Q → Option A) (q : Q) : (call q).eval answer = answer q := by
  cases h : answer q <;> simp [call, eval, h]

@[simp] theorem eval_andThen (answer : Q → Option A) (f : A → Asking Q A) (t : Asking Q A) :
    (t.andThen f).eval answer = (t.eval answer).bind fun a => (f a).eval answer := by
  induction t with
  | done a => rfl
  | ask q next ih =>
    rw [andThen, eval, eval, Option.bind_assoc]
    exact congrArg _ (funext ih)

theorem eval_mono {answer answer' : Q → Option A} (hle : ∀ q a, answer q = some a → answer' q = some a)
    {t : Asking Q A} {a : A} (h : t.eval answer = some a) : t.eval answer' = some a := by
  induction t with
  | done b => exact h
  | ask q next ih =>
    obtain ⟨b, hb, hnext⟩ := Option.bind_eq_some_iff.1 h
    exact Option.bind_eq_some_iff.2 ⟨b, hle q b hb, ih b hnext⟩

/-- The arguments a function asks for, when its values are as given. -/
inductive Asks (value : Q → A → Prop) : Asking Q A → Q → Prop where
  | now (q : Q) (next : A → Asking Q A) : Asks value (.ask q next) q
  | later {q q' : Q} {next : A → Asking Q A} {a : A} (ha : value q a) (h : Asks value (next a) q') :
      Asks value (.ask q next) q'

theorem asks_call {value : Q → A → Prop} {q q' : Q} (h : (call q).Asks value q') : q' = q := by
  cases h with
  | now => rfl
  | later _ h => cases h

theorem asks_andThen {value : Q → A → Prop} {f : A → Asking Q A} {t : Asking Q A} {q : Q}
    (h : (t.andThen f).Asks value q) : t.Asks value q ∨ ∃ a, (f a).Asks value q := by
  induction t with
  | done a => exact .inr ⟨a, h⟩
  | ask q' next ih =>
    cases h with
    | now => exact .inl (.now _ _)
    | later ha h => exact (ih _ h).imp_left (.later ha)

end Asking

def run (body : Q → Asking Q A) : Nat → Q → Option A
  | 0, _ => none
  | fuel + 1, q => (body q).eval (run body fuel)

def Terminates (f : Nat → Option α) : Prop :=
  ∃ bound, ∀ fuel, bound ≤ fuel → ∃ a, f fuel = some a

variable {body : Q → Asking Q A} {q : Q} {a b : A} {n k : Nat}

theorem run_succ (h : run body n q = some a) : run body (n + 1) q = some a := by
  induction n generalizing q a with
  | zero => cases h
  | succ n ih => exact Asking.eval_mono (fun _ _ => ih) h

theorem run_mono (hle : n ≤ k) (h : run body n q = some a) : run body k q = some a := by
  induction hle with
  | refl => exact h
  | step _ ih => exact run_succ ih

def Value (body : Q → Asking Q A) (q : Q) (a : A) : Prop := ∃ fuel, run body fuel q = some a

theorem Value.unique (h : Value body q a) (h' : Value body q b) : a = b := by
  obtain ⟨n, hn⟩ := h
  obtain ⟨k, hk⟩ := h'
  have hmax := run_mono (Nat.le_max_left n k) hn
  exact Option.some.inj (hmax.symm.trans (run_mono (Nat.le_max_right n k) hk))

/-- The value at `q'` is needed for the value at `q`. -/
def Needs (body : Q → Asking Q A) (q' q : Q) : Prop := (body q).Asks (Value body) q'

theorem asks_eval {t : Asking Q A} (h : t.eval (run body n) = some a) {q : Q} (hq : t.Asks (Value body) q) :
    ∃ b, run body n q = some b := by
  induction t with
  | done => cases hq
  | ask q' next ih =>
    obtain ⟨b, hb, hnext⟩ := Option.bind_eq_some_iff.1 h
    cases hq with
    | now => exact ⟨b, hb⟩
    | later hvalue hq =>
      obtain rfl := hvalue.unique ⟨n, hb⟩
      exact ih _ hnext hq

theorem eval_of_asks {t : Asking Q A} (h : ∀ q, t.Asks (Value body) q → ∃ b, Value body q b) :
    ∃ n a, t.eval (run body n) = some a := by
  induction t with
  | done a => exact ⟨0, a, rfl⟩
  | ask q next ih =>
    obtain ⟨b, n, hb⟩ := h q (.now q next)
    obtain ⟨k, a, ha⟩ := ih b fun q' hq' => h q' (.later ⟨n, hb⟩ hq')
    refine ⟨max n k, a, Option.bind_eq_some_iff.2 ⟨b, run_mono (Nat.le_max_left n k) hb, ?_⟩⟩
    exact Asking.eval_mono (fun _ _ => run_mono (Nat.le_max_right n k)) ha

theorem value_iff_acc : (∃ a, Value body q a) ↔ Acc (Needs body) q := by
  constructor
  · rintro ⟨a, n, h⟩
    induction n generalizing q a with
    | zero => cases h
    | succ n ih =>
      refine .intro q fun q' hq' => ?_
      obtain ⟨b, hb⟩ := asks_eval h hq'
      exact ih b hb
  · intro h
    induction h with
    | intro q _ ih =>
      obtain ⟨n, a, ha⟩ := eval_of_asks ih
      exact ⟨a, n + 1, ha⟩

theorem terminates_of_acc {f : Nat → Option A} (heq : ∀ fuel, f fuel = run body fuel q) (h : Acc (Needs body) q) :
    Terminates f := by
  obtain ⟨a, n, hn⟩ := value_iff_acc.2 h
  exact ⟨n, fun fuel hle => ⟨a, (heq fuel).trans (run_mono hle hn)⟩⟩

end Fuel
