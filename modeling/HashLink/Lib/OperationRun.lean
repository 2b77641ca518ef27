import Mathlib.Logic.Basic

/-!
Runs of operations on a state, each of which gives a result or fails, and their refinement of a relation on abstract
states.
-/

namespace OperationRun

variable {σ τ ω ρ : Type*}

/-- The state and the results after a list of operations. -/
def run (step : σ → ω → Option (σ × ρ)) : σ → List ω → Option (σ × List ρ)
  | s, [] => some (s, [])
  | s, o :: os => (step s o).bind fun (s, r) => (run step s os).map fun (s, rs) => (s, r :: rs)

/-- Every operation of a run meets a condition in the state before it. -/
def Meets (step : σ → ω → Option (σ × ρ)) (ok : σ → ω → Prop) : σ → List ω → Prop
  | _, [] => True
  | s, o :: os => ok s o ∧ ∀ s' r, step s o = some (s', r) → Meets step ok s' os

inductive Spec (spec : τ → ω → τ → ρ → Prop) : τ → List ω → τ → List ρ → Prop where
  | nil (t : τ) : Spec spec t [] t []
  | cons {t t' t'' : τ} {o : ω} {os : List ω} {r : ρ} {rs : List ρ} (hstep : spec t o t' r)
      (hrest : Spec spec t' os t'' rs) : Spec spec t (o :: os) t'' (r :: rs)

variable {step : σ → ω → Option (σ × ρ)} {ok : σ → ω → Prop} {spec : τ → ω → τ → ρ → Prop} {rep : σ → τ → Prop}

theorem run_append (s : σ) (os os' : List ω) : run step s (os ++ os') =
    (run step s os).bind fun (s', rs) => (run step s' os').map fun (s'', rs') => (s'', rs ++ rs') := by
  induction os generalizing s with
  | nil =>
    show run step s os' = (run step s os').map id
    rw [Option.map_id, id]
  | cons o os ih =>
    rw [List.cons_append, run, run]
    cases step s o with
    | none => rfl
    | some next =>
      simp only [Option.bind_some, ih next.1]
      cases run step next.1 os with
      | none => rfl
      | some last =>
        simp only [Option.bind_some, Option.map_some, Option.map_map]
        rfl

theorem run_refines
    (hstep : ∀ s t o, rep s t → ok s o → ∃ s' r t', step s o = some (s', r) ∧ spec t o t' r ∧ rep s' t')
    {s : σ} {t : τ} (hrep : rep s t) {os : List ω} (hmeets : Meets step ok s os) :
    ∃ s' rs t', run step s os = some (s', rs) ∧ Spec spec t os t' rs ∧ rep s' t' := by
  induction os generalizing s t with
  | nil => exact ⟨s, [], t, rfl, .nil t, hrep⟩
  | cons o os ih =>
    obtain ⟨s₁, r, t₁, hs₁, ht₁, hrep₁⟩ := hstep s t o hrep hmeets.1
    obtain ⟨s', rs, t', hs', ht', hrep'⟩ := ih hrep₁ (hmeets.2 s₁ r hs₁)
    refine ⟨s', r :: rs, t', ?_, .cons ht₁ ht', hrep'⟩
    rw [run, hs₁]
    show (run step s₁ os).map _ = _
    rw [hs']
    rfl

end OperationRun
