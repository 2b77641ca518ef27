import Mathlib.Data.List.Basic
import Mathlib.Data.List.Count

/-!
A forward dataflow worklist over numbered nodes. Every node carries at most one value: the first
edge that reaches a node records the value and queues the node, and a later edge has to bring the
same value again. The search therefore visits a node once, ends after at most as many rounds as
there are nodes, and leaves a table that is closed under the edges of every recorded node.
-/

namespace Worklist

/-- The values recorded so far and the nodes still to be followed, the last queued one first. -/
structure State (σ : Type) where
  table : List (Option σ)
  pending : List Nat

variable {σ ε : Type}

/-- Hands one edge to the table. An edge that leaves the table is ignored. -/
def visit [DecidableEq σ] (clash : ε) (s : State σ) (edge : Nat × σ) : Except ε (State σ) :=
  match s.table[edge.1]? with
  | none => .ok s
  | some none => .ok { table := s.table.set edge.1 (some edge.2), pending := edge.1 :: s.pending }
  | some (some old) => if old = edge.2 then .ok s else .error clash

/-- Hands over the edges of one node, in order, up to the first disagreement. -/
def visitAll [DecidableEq σ] (clash : ε) : State σ → List (Nat × σ) → Except ε (State σ)
  | s, [] => .ok s
  | s, edge :: edges =>
    match visit clash s edge with
    | .error e => .error e
    | .ok s' => visitAll clash s' edges

/-- The value recorded for a queued node. -/
def State.value [Inhabited σ] (s : State σ) (i : Nat) : σ := (s.table.getD i none).getD default

/-- Follows queued nodes for at most `fuel` rounds; `none` says that the queue was not empty then. -/
def iterate [DecidableEq σ] [Inhabited σ] (next : Nat → σ → Except ε (List (Nat × σ))) (clash : ε) :
    Nat → State σ → Option (Except ε (List (Option σ)))
  | 0, _ => none
  | fuel + 1, s =>
    match s.pending with
    | [] => some (.ok s.table)
    | i :: rest =>
      match next i (s.value i) with
      | .error e => some (.error e)
      | .ok edges =>
        match visitAll clash { s with pending := rest } edges with
        | .error e => some (.error e)
        | .ok s' => iterate next clash fuel s'

/-! ### What one node's edges do to the table -/

def State.unset (s : State σ) : Nat := s.table.countP Option.isNone

theorem countP_set_some {table : List (Option σ)} {i : Nat} (v : σ) (h : table[i]? = some none) :
    (table.set i (some v)).countP Option.isNone + 1 = table.countP Option.isNone := by
  induction table generalizing i with
  | nil => simp at h
  | cons a rest ih =>
    cases i with
    | zero =>
      simp only [List.getElem?_cons_zero, Option.some.injEq] at h
      subst h
      simp
    | succ i =>
      have := ih (i := i) (by simpa using h)
      simp only [List.set_cons_succ, List.countP_cons]
      omega

/-- What a table records once `s` is extended to `s'`: nothing is overwritten, and whatever is
new is queued. -/
structure Extends (s s' : State σ) : Prop where
  length : s'.table.length = s.table.length
  keeps : ∀ (i : Nat) (v : σ), s.table[i]? = some (some v) → s'.table[i]? = some (some v)
  queued : ∀ (i : Nat) (v : σ), s'.table[i]? = some (some v) → s.table[i]? = some (some v) ∨ i ∈ s'.pending
  pending : ∀ i ∈ s.pending, i ∈ s'.pending
  recorded : ∀ i ∈ s'.pending, i ∈ s.pending ∨ ∃ v : σ, s'.table[i]? = some (some v)
  measure : s'.pending.length + s'.unset = s.pending.length + s.unset

theorem Extends.refl (s : State σ) : Extends s s :=
  ⟨rfl, fun _ _ h => h, fun _ _ h => .inl h, fun _ h => h, fun _ h => .inl h, rfl⟩

theorem Extends.trans {a b c : State σ} (hab : Extends a b) (hbc : Extends b c) :
    Extends a c where
  length := hbc.length.trans hab.length
  keeps i v h := hbc.keeps i v (hab.keeps i v h)
  queued i v h := by
    rcases hbc.queued i v h with hb | hc
    · exact (hab.queued i v hb).imp_right (hbc.pending i)
    · exact .inr hc
  pending i h := hbc.pending i (hab.pending i h)
  recorded i h := by
    rcases hbc.recorded i h with hb | hc
    · rcases hab.recorded i hb with ha | ⟨v, hv⟩
      · exact .inl ha
      · exact .inr ⟨v, hbc.keeps i v hv⟩
    · exact .inr hc
  measure := hbc.measure.trans hab.measure

variable {s : State σ} {clash : ε} {edges : List (Nat × σ)} {next : Nat → σ → Except ε (List (Nat × σ))}

section Edges

variable [DecidableEq σ]

theorem visit_extends {s' : State σ} {edge : Nat × σ} (h : visit clash s edge = .ok s') :
    Extends s s' ∧ (edge.1 < s'.table.length → s'.table[edge.1]? = some (some edge.2)) := by
  unfold visit at h
  split at h
  case h_1 hout =>
    cases h
    refine ⟨Extends.refl s, fun hlt => ?_⟩
    rw [List.getElem?_eq_none_iff] at hout
    omega
  case h_2 hnone =>
    cases h
    have hlt : edge.1 < s.table.length := by
      by_contra hge
      rw [List.getElem?_eq_none (by omega)] at hnone
      simp at hnone
    refine ⟨⟨by simp, ?_, ?_, ?_, ?_, ?_⟩, ?_⟩
    · intro i v hv
      have hne : edge.1 ≠ i := by
        rintro rfl
        rw [hnone] at hv
        simp at hv
      simp [List.getElem?_set_ne hne, hv]
    · intro i v hv
      by_cases hne : edge.1 = i
      · exact .inr (by simp [hne])
      · exact .inl (by simpa [List.getElem?_set_ne hne] using hv)
    · exact fun i hi => List.mem_cons_of_mem _ hi
    · intro i hi
      rcases List.mem_cons.mp hi with rfl | hi
      · exact .inr ⟨edge.2, by simp [hlt]⟩
      · exact .inl hi
    · have := countP_set_some edge.2 hnone
      simp only [State.unset, List.length_cons]
      omega
    · intro _
      simp [hlt]
  case h_3 old hold =>
    split at h
    · rename_i heq
      cases h
      exact ⟨Extends.refl _, fun _ => by rw [hold, heq]⟩
    · cases h

theorem visitAll_error {e : ε} (h : visitAll clash s edges = .error e) : e = clash := by
  induction edges generalizing s with
  | nil => cases h
  | cons edge edges ih =>
    rw [visitAll] at h
    split at h
    · rename_i hvisit
      cases h
      unfold visit at hvisit
      split at hvisit
      · cases hvisit
      · cases hvisit
      · split at hvisit
        · cases hvisit
        · cases hvisit
          rfl
    · exact ih h

theorem visitAll_extends {s' : State σ} (h : visitAll clash s edges = .ok s') :
    Extends s s' ∧ ∀ edge ∈ edges, edge.1 < s'.table.length → s'.table[edge.1]? = some (some edge.2) := by
  induction edges generalizing s with
  | nil =>
    cases h
    exact ⟨Extends.refl _, fun _ hmem => absurd hmem List.not_mem_nil⟩
  | cons edge edges ih =>
    rw [visitAll] at h
    split at h
    · cases h
    · rename_i t ht
      obtain ⟨hst, hedge⟩ := visit_extends ht
      obtain ⟨hts', hrest⟩ := ih h
      refine ⟨hst.trans hts', fun e hmem hlt => ?_⟩
      rcases List.mem_cons.mp hmem with rfl | hmem
      · exact hts'.keeps _ _ (hedge (hts'.length ▸ hlt))
      · exact hrest e hmem hlt

end Edges

/-- A recorded node has been followed: it has edges, and every edge into the table agrees with it. -/
def Followed (next : Nat → σ → Except ε (List (Nat × σ))) (table : List (Option σ)) (i : Nat) (v : σ) : Prop :=
  ∃ edges, next i v = .ok edges ∧ ∀ edge ∈ edges, edge.1 < table.length → table[edge.1]? = some (some edge.2)

/-- The loop invariant: queued nodes are recorded, and a recorded node is queued or followed. -/
structure Invariant (next : Nat → σ → Except ε (List (Nat × σ))) (s : State σ) : Prop where
  recorded : ∀ i ∈ s.pending, ∃ v : σ, s.table[i]? = some (some v)
  covered : ∀ (i : Nat) (v : σ), s.table[i]? = some (some v) → i ∈ s.pending ∨ Followed next s.table i v

variable [DecidableEq σ] [Inhabited σ]

theorem invariant_step {s' : State σ} {i : Nat} {rest : List Nat} (hs : Invariant next s)
    (hpending : s.pending = i :: rest) (hnext : next i (s.value i) = .ok edges)
    (hvisit : visitAll clash { s with pending := rest } edges = .ok s') : Invariant next s' := by
  obtain ⟨hext, hedges⟩ := visitAll_extends hvisit
  refine ⟨fun j hj => ?_, fun j v hv => ?_⟩
  · rcases hext.recorded j hj with hold | hnew
    · obtain ⟨v, hv⟩ := hs.recorded j (hpending ▸ List.mem_cons_of_mem i hold)
      exact ⟨v, hext.keeps j v hv⟩
    · exact hnew
  · rcases hext.queued j v hv with hold | hqueued
    · rcases hs.covered j v hold with hmem | ⟨old, hnextOld, hclosed⟩
      · rw [hpending] at hmem
        rcases List.mem_cons.mp hmem with rfl | hmem
        · -- the node just taken from the queue
          have hvalue : s.value j = v := by simp [State.value, List.getD, hold]
          exact .inr ⟨edges, hvalue ▸ hnext, hedges⟩
        · exact .inl (hext.pending j hmem)
      · refine .inr ⟨old, hnextOld, fun edge hmem hlt => ?_⟩
        exact hext.keeps _ _ (hclosed edge hmem (hext.length ▸ hlt))
    · exact .inl hqueued

/-- A finished search leaves a table that extends the one it started from, in which every
recorded node has been followed. -/
theorem iterate_followed {fuel : Nat} {table : List (Option σ)} (hs : Invariant next s)
    (h : iterate next clash fuel s = some (.ok table)) :
    table.length = s.table.length ∧
      (∀ (i : Nat) (v : σ), s.table[i]? = some (some v) → table[i]? = some (some v)) ∧
      ∀ (i : Nat) (v : σ), table[i]? = some (some v) → Followed next table i v := by
  induction fuel generalizing s with
  | zero => simp [iterate] at h
  | succ fuel ih =>
    rw [iterate] at h
    split at h
    · rename_i hempty
      cases h
      refine ⟨rfl, fun _ _ hv => hv, fun i v hv => ?_⟩
      rcases hs.covered i v hv with hmem | hfollowed
      · rw [hempty] at hmem
        exact absurd hmem List.not_mem_nil
      · exact hfollowed
    · rename_i i rest hpending
      split at h
      · cases h
      · rename_i edges hnext
        split at h
        · cases h
        · rename_i s' hvisit
          obtain ⟨hlength, hkeeps, hfollowed⟩ :=
            ih (invariant_step hs hpending hnext hvisit) h
          have hext := (visitAll_extends hvisit).1
          exact ⟨hlength.trans hext.length, fun j v hv => hkeeps j v (hext.keeps j v hv), hfollowed⟩

theorem iterate_terminates (next : Nat → σ → Except ε (List (Nat × σ))) (clash : ε) {fuel : Nat}
    (h : s.pending.length + s.unset < fuel) :
    (iterate next clash fuel s).isSome := by
  induction fuel generalizing s with
  | zero => omega
  | succ fuel ih =>
    rw [iterate]
    split
    · rfl
    · rename_i i rest hpending
      split
      · rfl
      · rename_i edges hnext
        split
        · rfl
        · rename_i s' hvisit
          have hmeasure := (visitAll_extends hvisit).1.measure
          have hrest : ({ s with pending := rest } : State σ).pending.length = rest.length := rfl
          have hunset : ({ s with pending := rest } : State σ).unset = s.unset := rfl
          rw [hpending, List.length_cons] at h
          exact ih (by omega)

theorem iterate_error {e : ε} {fuel : Nat} (h : iterate next clash fuel s = some (.error e)) :
    e = clash ∨ ∃ i v, next i v = .error e := by
  induction fuel generalizing s with
  | zero => simp [iterate] at h
  | succ fuel ih =>
    rw [iterate] at h
    split at h
    · cases h
    · rename_i i rest hpending
      split at h
      · rename_i hnext
        cases h
        exact .inr ⟨i, s.value i, hnext⟩
      · split at h
        · rename_i hvisit
          cases h
          exact .inl (visitAll_error hvisit)
        · exact ih h

end Worklist
