import Mathlib.Data.List.Basic

/-!
Slices that are begun and ended on a track. An end belongs to the innermost open slice, and is of its kind.
-/

namespace NestedSlices

variable {α κ : Type*}

inductive Mark (α κ : Type*) where
  | begins (a : α)
  | ends (k : κ)

variable [DecidableEq κ] (kind : α → κ)

/-- The open slices after a mark, the innermost first. There is no result for an end that belongs to none. -/
def play : List α → Mark α κ → Option (List α)
  | s, .begins a => some (a :: s)
  | [], .ends _ => none
  | a :: s, .ends k => if kind a = k then some s else none

def playAll (s : List α) (marks : List (Mark α κ)) : Option (List α) := marks.foldlM (play kind) s

variable {kind} {s t : List α} {marks marks' : List (Mark α κ)}

@[simp] theorem playAll_nil : playAll kind s [] = some s := rfl

theorem playAll_append (h : playAll kind s marks = some t) :
    playAll kind s (marks ++ marks') = playAll kind t marks' := by
  unfold playAll at h ⊢
  rw [List.foldlM_append, h]
  rfl

theorem playAll_begins (l : List α) : playAll kind s (l.map .begins) = some (l.reverse ++ s) := by
  induction l generalizing s with
  | nil => rfl
  | cons a l ih =>
    show playAll kind (a :: s) (l.map .begins) = _
    rw [ih, List.reverse_cons, List.append_assoc]
    rfl

theorem playAll_ends (l : List α) : playAll kind (l ++ s) (l.map fun a => .ends (kind a)) = some s := by
  induction l with
  | nil => rfl
  | cons a l ih =>
    show (if kind a = kind a then some (l ++ s) else none).bind _ = _
    rw [if_pos rfl]
    exact ih

end NestedSlices
