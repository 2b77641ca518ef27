import HashLink.Stdlib.DynCompare

/-! Each dynamic value has a key, and two values are equal exactly when their keys are: this makes the comparison an
equivalence where no number is in the heap as an `int`, a `float` and a `double`, and the classes of equal objects
compare alike. -/

namespace HashLink.DynCompare

variable {h : Heap}

/-- The comparison of two objects, or of two structs, is zero. -/
inductive Heap.Equal (h : Heap) (a b : Value) : Prop where
  | obj {c d : Class} {x y : List UInt16} (ha : h.content a = some (.obj c x)) (hb : h.content b = some (.obj d y))
      (hzero : h.compareObjects a b c d x y = 0)
  | struct {c d : Class} (ha : h.content a = some (.struct c)) (hb : h.content b = some (.struct d))
      (hzero : h.compareFuns c a b = 0)

variable {c : Class}

/-- An object and those that are equal to it. -/
def Heap.classOf (h : Heap) (p : Ptr) : Set Ptr := {q | p = q ∨ h.Equal (.heap p) (.heap q)}

/-- Both are objects, or both structs, of a class that is not `String`. -/
def Heap.Classmates (h : Heap) (c : Class) (p q : Ptr) : Prop :=
  (∃ x y, h.cell p = .obj c x ∧ h.cell q = .obj c y ∧ h.isStringType c = false) ∨
    h.cell p = .struct c ∧ h.cell q = .struct c

theorem Heap.Classmates.symm {p q : Ptr} (hmates : h.Classmates c p q) : h.Classmates c q p := by
  obtain ⟨x, y, hp, hq, hstring⟩ | ⟨hp, hq⟩ := hmates
  · exact .inl ⟨y, x, hq, hp, hstring⟩
  · exact .inr ⟨hq, hp⟩

variable {d : Class} {x : List UInt16}

theorem Heap.Classmates.trans {p q r : Ptr} (hpq : h.Classmates c p q) (hqr : h.Classmates d q r) :
    d = c ∧ h.Classmates c p r := by
  obtain ⟨x, y, hp, hq, hstring⟩ | ⟨hp, hq⟩ := hpq
  · obtain ⟨_, z, hq', hr, -⟩ | ⟨hq', -⟩ := hqr
    · cases hq.symm.trans hq'
      exact ⟨rfl, .inl ⟨x, z, hp, hr, hstring⟩⟩
    · cases hq.symm.trans hq'
  · obtain ⟨_, z, hq', -, -⟩ | ⟨hq', hr⟩ := hqr
    · cases hq.symm.trans hq'
    · cases hq.symm.trans hq'
      exact ⟨rfl, .inr ⟨hp, hr⟩⟩

inductive Key where
  | null
  | self (p : Ptr)
  | scalar (s : Scalar)
  | real (x : Number)
  | object (equal : Set Ptr)
  | closure (fn : Nat) (value : Key)

/-- A number is in the heap as a `double`. -/
def Heap.HasDouble (h : Heap) (x : Number) : Prop := ∃ p, h.cell p = .scalar (.f64 x)

open Classical in
/-- An `int` or a `float` is equal to the `double` of the same number, if there is one. -/
noncomputable def Heap.scalarKey (h : Heap) (p : Ptr) : Scalar → Key
  | .f64 x => if x = .nan then .self p else .real x
  | .f32 x => if x = .nan then .self p else if h.HasDouble x then .real x else .scalar (.f32 x)
  | .i32 n => if h.HasDouble (ofInt n) then .real (ofInt n) else .scalar (.i32 n)
  | s => .scalar s

theorem Heap.rank_lt (h : Heap) {p q : Ptr} {c : Cell} (hp : h.cell p = c) (hq : q ∈ c.refs) : h.rank q < h.rank p :=
  h.older p q (hp ▸ hq)

noncomputable def Heap.key (h : Heap) (p : Ptr) : Key :=
  match _hp : h.cell p with
  | .scalar s => h.scalarKey p s
  | .obj .. => .object (h.classOf p)
  | .struct _ => .object (h.classOf p)
  | .virtual (some q) => h.key q
  | .wrapper q => h.key q
  | .closure fn none => .closure fn .null
  | .closure fn (some q) => .closure fn (h.key q)
  | _ => .self p
termination_by h.rank p
decreasing_by
  · exact h.rank_lt _hp (List.mem_singleton_self q)
  · exact h.rank_lt _hp (List.mem_singleton_self q)
  · exact h.rank_lt _hp (List.mem_singleton_self q)

section
variable {p q : Ptr}

/-- The kinds of which a value is equal to no other. -/
def Cell.IsAlone : Cell → Prop
  | enum .. => True
  | dynobj => True
  | virtual none => True
  | other => True
  | _ => False

variable {r : Ptr}

/-- The value is neither a wrapper nor a virtual of an object. -/
def Cell.IsBare : Cell → Prop
  | wrapper _ => False
  | virtual (some _) => False
  | _ => True

/-- The kinds that are neither wrapped nor equal to no other. -/
inductive Cell.Plain : Cell → Prop where
  | scalar (s : Scalar) : Plain (.scalar s)
  | obj (c : Class) (x : List UInt16) : Plain (.obj c x)
  | struct (c : Class) : Plain (.struct c)
  | closure (f : Nat) (v : Option Ptr) : Plain (.closure f v)

theorem Cell.IsBare.plain {c : Cell} (hc : c.IsBare) (halone : ¬c.IsAlone) : c.Plain := by
  cases c with
  | scalar s => exact .scalar s
  | obj c x => exact .obj c x
  | struct c => exact .struct c
  | closure f v => exact .closure f v
  | wrapper r => exact hc.elim
  | virtual v =>
    cases v with
    | none => exact absurd trivial halone
    | some r => exact hc.elim
  | _ => exact absurd trivial halone

end

end HashLink.DynCompare
