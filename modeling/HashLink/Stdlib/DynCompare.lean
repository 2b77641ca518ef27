import Mathlib.Algebra.Order.Field.Rat

/-! `hl_dyn_compare` of `cast.c` and `hl_type_enum_eq` of `types.c`, over a heap of dynamic values. -/

namespace HashLink.DynCompare

abbrev Ptr := Nat

abbrev Class := Nat

/-- What a `float` or a `double` stands for. Both zeros are one number. -/
inductive Number where
  | nan
  | infinite (negative : Bool)
  | finite (q : ℚ)
  deriving DecidableEq

inductive Scalar where
  | ui8 (n : UInt8)
  | ui16 (n : UInt16)
  | i32 (n : BitVec 32)
  | i64 (n : BitVec 64)
  | f32 (x : Number)
  | f64 (x : Number)
  | bool (b : Bool)
  | type (p : Nat)
  | bytes (p : Nat)
  deriving DecidableEq

inductive ScalarKind where
  | ui8
  | ui16
  | i32
  | i64
  | f32
  | f64
  | bool
  | type
  | bytes
  deriving DecidableEq

def Scalar.kind : Scalar → ScalarKind
  | ui8 _ => .ui8
  | ui16 _ => .ui16
  | i32 _ => .i32
  | i64 _ => .i64
  | f32 _ => .f32
  | f64 _ => .f64
  | bool _ => .bool
  | type _ => .type
  | bytes _ => .bytes

/-- A parameter of an enum value. `void` stands for the kinds that are never equal in a box: references, abstracts and
identifiers. -/
inductive Field where
  | scalar (s : Scalar)
  | struct (c : Class) (source : Option Ptr)
  | void (address : Option Ptr)
  | dyn (v : Option Ptr)
  | enum (v : Option Ptr)

inductive FieldType where
  | scalar (k : ScalarKind)
  | struct (c : Class)
  | void
  | dyn
  | enum
  deriving DecidableEq

def Field.type : Field → FieldType
  | scalar s => .scalar s.kind
  | struct c _ => .struct c
  | void _ => .void
  | dyn _ => .dyn
  | enum _ => .enum

/-- What a pointer points to. The characters of an object matter for strings only, a closure that `hasValue == 2` is a
wrapper, and `other` has a kind that no case names. -/
inductive Cell where
  | scalar (s : Scalar)
  | obj (c : Class) (chars : List UInt16)
  | struct (c : Class)
  | dynobj
  | enum (t index : Nat) (fields : List Field)
  | virtual (value : Option Ptr)
  | closure (fn : Nat) (value : Option Ptr)
  | wrapper (wrappedFun : Ptr)
  | other

def Field.refs : Field → List Ptr
  | dyn v => v.toList
  | enum v => v.toList
  | _ => []

/-- The pointers that a comparison follows. -/
def Cell.refs : Cell → List Ptr
  | enum _ _ fields => fields.flatMap Field.refs
  | virtual value => value.toList
  | closure _ value => value.toList
  | wrapper wrappedFun => [wrappedFun]
  | _ => []

def Cell.IsClosure : Cell → Prop
  | closure .. => True
  | wrapper _ => True
  | _ => False

def Cell.IsObject : Cell → Prop
  | obj .. => True
  | dynobj => True
  | _ => False

/-- A `vdynamic` that `hl_make_dyn` has just allocated. -/
inductive Box where
  | scalar (s : Scalar)
  | struct (c : Class) (source : Ptr)
  | other

def Box.cell : Box → Cell
  | scalar s => .scalar s
  | struct c _ => .struct c
  | other => .other

inductive Value where
  | null
  | heap (p : Ptr)
  | box (b : Box)

def Value.ofPtr : Option Ptr → Value
  | none => null
  | some p => heap p

/-- The heap and the types. What a value is compared by was there before it, a virtual stands for an object, and the
parameters of an enum value have the types of its constructor. -/
structure Heap where
  cell : Ptr → Cell
  above : Value → Value → Bool
  isStringType : Class → Bool
  compareFun : Class → Option (Value → Value → Int)
  constructs : Nat → Nat → List FieldType
  rank : Ptr → Nat
  older : ∀ p q, q ∈ (cell p).refs → rank q < rank p
  wrapped : ∀ p q, cell p = .wrapper q → (cell q).IsClosure
  proxied : ∀ p q, cell p = .virtual (some q) → (cell q).IsObject
  constructed : ∀ p t i fields, cell p = .enum t i fields → fields.map Field.type = constructs t i

def Heap.content (h : Heap) : Value → Option Cell
  | .null => none
  | .heap p => some (h.cell p)
  | .box b => some b.cell

def Heap.depth (h : Heap) : Value → Nat
  | .heap p => h.rank p + 1
  | _ => 0

def Number.sub : Number → Number → Number
  | finite x, finite y => finite (x - y)
  | infinite s, infinite t => if s = t then nan else infinite s
  | infinite s, finite _ => infinite s
  | finite _, infinite t => infinite !t
  | _, _ => nan

/-- `==` of two numbers. -/
def Number.eq (a b : Number) : Bool := a ≠ nan && a = b

def Number.positive : Number → Bool
  | finite x => 0 < x
  | infinite negative => !negative
  | nan => false

def ofInt (n : BitVec 32) : Number := .finite n.toInt

def compareChars : List UInt16 → List UInt16 → Int
  | x :: xs, y :: ys => if x ≠ y then if x < y then -1 else 1 else compareChars xs ys
  | xs, ys => (xs.length : Int) - ys.length

def Heap.comparePtrs (h : Heap) (a b : Value) : Int := if h.above a b then 1 else -1

def Heap.compareFuns (h : Heap) (c : Class) (a b : Value) : Int :=
  match h.compareFun c with
  | some f => f a b
  | none => h.comparePtrs a b

def Heap.compareObjects (h : Heap) (a b : Value) (c d : Class) (x y : List UInt16) : Int :=
  if h.isStringType c && h.isStringType d then compareChars x y else h.compareFuns c a b

/-- `a == b` of two pointers. What is in a box has just been allocated. -/
def same : Value → Value → Bool
  | .null, .null => true
  | .heap p, .heap q => p = q
  | _, _ => false

variable {a : Value} {v : Option Ptr}

def hlMakeDyn : Field → Value
  | .scalar (.type 0) => .null
  | .scalar (.bytes 0) => .null
  | .scalar s => .box (.scalar s)
  | .struct _ none => .null
  | .struct c (some p) => .box (.struct c p)
  | .void none => .null
  | .void (some _) => .box .other
  | .dyn v => .ofPtr v
  | .enum v => .ofPtr v

def Value.ptr : Value → Option Ptr
  | heap p => some p
  | _ => none

end HashLink.DynCompare
