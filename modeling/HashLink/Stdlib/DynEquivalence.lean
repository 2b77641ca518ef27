import HashLink.Stdlib.DynEquality
import Mathlib.Data.List.Forall2

/-! When the equality of dynamic values and that of enum values are equivalences. -/

namespace HashLink.DynCompare

variable {h : Heap}

section
variable {p q : Ptr} {t i u j : Nat} {fs gs : List Field}

end

section
variable {s t : Scalar}

end

section
variable {v w : Option Ptr}

end

inductive Field.SameType : Field → Field → Prop where
  | scalar {s t : Scalar} (hkind : s.kind = t.kind) : SameType (.scalar s) (.scalar t)
  | struct (c : Class) (v w : Option Ptr) : SameType (.struct c v) (.struct c w)
  | void (v w : Option Ptr) : SameType (.void v) (.void w)
  | dyn (v w : Option Ptr) : SameType (.dyn v) (.dyn w)
  | enum (v w : Option Ptr) : SameType (.enum v) (.enum w)

/-- Two objects, or two structs. -/
inductive Cell.SameSort : Cell → Cell → Prop where
  | obj (c d : Class) (x y : List UInt16) : SameSort (.obj c x) (.obj d y)
  | struct (c d : Class) : SameSort (.struct c) (.struct d)

theorem Cell.SameSort.symm {c d : Cell} (hsort : c.SameSort d) : d.SameSort c := by
  cases hsort with
  | obj c d x y => exact .obj d c y x
  | struct c d => exact .struct d c

theorem Cell.SameSort.trans {c d e : Cell} (hcd : c.SameSort d) (hde : d.SameSort e) : c.SameSort e := by
  cases hcd with
  | obj c d x y =>
    cases hde with
    | obj _ e _ z => exact .obj c e x z
  | struct c d =>
    cases hde with
    | struct _ e => exact .struct c e

/-- Two strings of the same characters, two objects of a class that finds its objects equal, and scalars. -/
def sampleCell (xs : List Scalar) : Ptr → Cell
  | 0 => .obj 0 [97]
  | 1 => .obj 0 [97]
  | 2 => .obj 1 []
  | 3 => .obj 1 []
  | p + 4 => (xs[p]?).elim .other .scalar

def isPoint : Value → Bool
  | .heap 2 => true
  | .heap 3 => true
  | _ => false

def comparePoints (a b : Value) : Int := if isPoint a = isPoint b then 0 else -1

theorem sampleCell_flat (xs : List Scalar) (p : Ptr) :
    (∃ c x, sampleCell xs p = .obj c x) ∨ (∃ s, sampleCell xs p = .scalar s) ∨ sampleCell xs p = .other := by
  rcases p with _ | _ | _ | _ | p
  · exact .inl ⟨_, _, rfl⟩
  · exact .inl ⟨_, _, rfl⟩
  · exact .inl ⟨_, _, rfl⟩
  · exact .inl ⟨_, _, rfl⟩
  · rw [sampleCell]
    cases xs[p]? with
    | none => exact .inr (.inr rfl)
    | some s => exact .inr (.inl ⟨s, rfl⟩)

def sample (xs : List Scalar) : Heap where
  cell := sampleCell xs
  above _ _ := false
  isStringType c := c = 0
  compareFun c := if c = 1 then some comparePoints else none
  constructs _ _ := []
  rank _ := 0
  older p q hq := by obtain ⟨_, _, hp⟩ | ⟨_, hp⟩ | hp := sampleCell_flat xs p <;> rw [hp] at hq <;> cases hq
  wrapped p q hp := by obtain ⟨_, _, hx⟩ | ⟨_, hx⟩ | hx := sampleCell_flat xs p <;> cases hp.symm.trans hx
  proxied p q hp := by obtain ⟨_, _, hx⟩ | ⟨_, hx⟩ | hx := sampleCell_flat xs p <;> cases hp.symm.trans hx
  constructed p t i fields hp := by
    obtain ⟨_, _, hx⟩ | ⟨_, hx⟩ | hx := sampleCell_flat xs p <;> cases hp.symm.trans hx

end HashLink.DynCompare
