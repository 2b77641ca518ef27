import HashLink.DynObj.Model
import HashLink.Gc.AllocatorSafety
import HashLink.Lib.WrappedInt

/-! The arrays of `array.c`. An array is a header with the count of its elements and the capacity of its
storage, a block of its own that starts with a type word and that growth replaces. Sizes, indices and
counts of bytes are 32-bit integers, also where a wider value was computed for them.

What the storage of an array holds. A call keeps every array inside of its storage, with the elements
that were there and zeros for new ones, as long as the counts it computes fit 32 bits. They do up to a
bound on the capacity, and past it some count wraps around, which no check afterwards sees. -/

namespace HashLink.Arrays

open FlatMemory WrappedInt

/-- How a call ends early: `hl_error` throws, `hl_fatal` ends the process, and an access outside of a block
is not defined. -/
inductive Stop where
  | error (msg : String)
  | fatal
  | badAccess
  deriving DecidableEq

abbrev Run (α : Type) := WrappedInt Stop α

structure Block where
  length : Nat
  mem : Memory

namespace Block

def read (b : Block) (a : Int) (n : Nat) : Run (List UInt8) :=
  if 0 ≤ a ∧ a + n ≤ b.length then pure (bytes b.mem a n) else stop .badAccess

def write (b : Block) (a : Int) (n : Nat) (value : Nat → UInt8) : Run Block :=
  if 0 ≤ a ∧ a + n ≤ b.length then pure { b with mem := writeBytes b.mem a n value }
  else stop .badAccess

end Block

section

variable (room : Int → Bool)

/-- `gc_allocator_alloc`: the size of the block, where `room` says if the heap has or gets one so large. A
page of a negative size is never had. -/
def gcAllocatorAlloc (size : Int) : Run Nat := do
  let sz ← int32 (size + -size % Gc.gcAlign)
  if Gc.gcLargeBlock ≤ sz then
    let sz ← int32 (sz + -sz % Gc.gcPageSize)
    if 0 ≤ sz ∧ room sz then pure sz.toNat
    else if 8 * 2 ^ 20 ≤ sz then stop (.error ("Failed to alloc " ++ toString (sz / 1024) ++ " KB"))
    else stop .fatal
  else if sz ≤ Gc.gcSizes (Gc.gcFixedParts - 1) then
    -- the partition of a size that is not positive is outside of `GC_SIZES`
    if sz ≤ 0 then stop .badAccess
    else if room sz then pure (Gc.gcSizes (sz.toNat / Gc.gcAlign - 1))
    else stop .fatal
  else
    match [5, 6, 7, 8].find? fun part => Gc.Allocator.query sz.toNat (Gc.gcSizes part) < Gc.gcSizes part * 255 with
    | some part =>
      if room sz then pure (Gc.Allocator.query sz.toNat (Gc.gcSizes part)) else stop .fatal
    | none => stop (.error "Required memory allocation too big")

/-- `hl_gc_alloc_gen_owner` with `MEM_ZERO`. -/
def hlGcAllocGenOwner (size : Int) : Run (Option Block) :=
  if size = 0 then pure none
  else if size < 0 then stop (.error "Invalid allocation size")
  else do
    let allocated ← gcAllocatorAlloc room size
    pure (some ⟨allocated, fun _ => 0⟩)

/-- `varray`: the kind of its elements, its counts and its storage. -/
structure VArray where
  elem : HlTypeKind
  size : Int
  capacity : Int
  data : Block

/-- `sizeof(varray)`. -/
def sizeofVArray : Int := 32

-- the bytes of the address of `hlt_array`
variable (hltArray : Nat → UInt8)

/-- `hl_array_alloc_storage`. The count of bytes is 64 bits wide, but not the parameter it is passed for. -/
def hlArrayAllocStorage (elem : HlTypeKind) (capacity : Int) : Run Block := do
  let size ← int32 (hlWSize + elem.size * capacity)
  match ← hlGcAllocGenOwner room size with
  | some storage => storage.write 0 hlWSize hltArray
  | none => stop .badAccess

def firstCapacity (size : Int) : Run Int :=
  if size < 4 then pure 4 else int32 (size + size / 2)

def hlAllocArray (elem : HlTypeKind) (size : Int) : Run VArray :=
  if size < 0 then stop (.error "Invalid array size")
  else do
    let capacity ← firstCapacity size
    let _ ← hlGcAllocGenOwner room sizeofVArray
    let data ← hlArrayAllocStorage room hltArray elem capacity
    pure ⟨elem, size, capacity, data⟩

/-- The loop of `hl_array_reserve`, which grows by half. -/
def growTo (next capacity : Int) : Run Int :=
  if next < capacity then do
    let grown ← int32 (next + next / 2)
    if grown ≤ next then pure capacity else growTo grown capacity
  else pure next
termination_by (capacity - next).toNat

/-- `hl_gc_copy_values` of the elements. -/
def copyElements (a : VArray) (data : Block) : Run Block :=
  if 0 < a.size then do
    let values ← a.data.read hlWSize (a.size.toNat * a.elem.size)
    data.write hlWSize (a.size.toNat * a.elem.size) fun k => values.getD k 0
  else pure data

def hlArrayReserve (a : VArray) (capacity : Int) : Run VArray :=
  if capacity ≤ a.capacity then pure a
  else do
    let next ← growTo (if a.capacity < 4 then 4 else a.capacity) capacity
    let data ← hlArrayAllocStorage room hltArray a.elem next
    let data ← copyElements a data
    pure { a with capacity := next, data }

def hlArrayCheck (a : VArray) (index : Int) : Run Unit :=
  if index < 0 ∨ a.size ≤ index then stop (.error "Array index out of bounds") else pure ()

def hlArrayEnsure (a : VArray) (index : Int) : Run VArray :=
  if index < 0 then stop (.error "Array index out of bounds")
  else if index < a.size then pure a
  else do
    let size ← int32 (index + 1)
    let a ← hlArrayReserve room hltArray a size
    pure { a with size }

/-- A store to the element at `index` of `hl_aptr`, after its check. -/
def setElement (a : VArray) (index : Int) (value : Nat → UInt8) : Run VArray := do
  hlArrayCheck a index
  let data ← a.data.write (hlWSize + index * a.elem.size) a.elem.size value
  pure { a with data }

/-- An operation on the arrays a program has, by their number. -/
inductive ArrayCall where
  | allocArray (elem : HlTypeKind) (size : Int32)
  | reserve (a : Nat) (capacity : Int32)
  | ensure (a : Nat) (index : Int32)
  | set (a : Nat) (index : Int32) (value : Nat → UInt8)

def onArray (arrays : List VArray) (a : Nat) (f : VArray → Run VArray) : Run (List VArray) :=
  match arrays[a]? with
  | some v => do
      let v ← f v
      pure (arrays.set a v)
  | none => stop .badAccess

def call (arrays : List VArray) : ArrayCall → Run (List VArray)
  | .allocArray elem size => do
      let v ← hlAllocArray room hltArray elem size.toInt
      pure (arrays ++ [v])
  | .reserve a capacity => onArray arrays a (hlArrayReserve room hltArray · capacity.toInt)
  | .ensure a index => onArray arrays a (hlArrayEnsure room hltArray · index.toInt)
  | .set a index value => onArray arrays a (setElement · index.toInt value)

def afterCall (arrays : List VArray) (c : ArrayCall) : List VArray :=
  match (call room hltArray arrays c).outcome with
  | .ok arrays => arrays
  | .error _ => arrays

end

namespace VArray

def element (a : VArray) (i : Nat) : List UInt8 :=
  bytes a.data.mem (hlWSize + (i * a.elem.size : Nat)) a.elem.size

def elements (a : VArray) : List (List UInt8) := (List.range a.size.toNat).map a.element

/-- The counts of an array agree with its storage: a type word and room for the capacity. -/
structure Stored (a : VArray) : Prop where
  size_nonneg : 0 ≤ a.size
  size_le : a.size ≤ a.capacity
  length : hlWSize + a.elem.size * a.capacity ≤ a.data.length

/-- The invariant of an array. What is behind the last element is zero, up to the capacity. -/
structure Sound (a : VArray) : Prop extends Stored a where
  capacity_lt : a.capacity < 2 ^ 31
  zero : ∀ k : Int, hlWSize + a.elem.size * a.size ≤ k → k < hlWSize + a.elem.size * a.capacity → a.data.mem k = 0

end VArray

/-- An array as a program sees it: the kind of its elements and these. -/
structure Contents where
  elem : HlTypeKind
  elements : List (List UInt8)
  deriving DecidableEq

def VArray.contents (a : VArray) : Contents := ⟨a.elem, a.elements⟩

def zeroElement (elem : HlTypeKind) : List UInt8 := List.replicate elem.size 0

namespace Contents

def ensure (x : Contents) (index : Int) : Contents :=
  { x with elements := x.elements ++ List.replicate ((index + 1).toNat - x.elements.length) (zeroElement x.elem) }

def set (x : Contents) (index : Int) (value : Nat → UInt8) : Contents :=
  { x with elements := x.elements.set index.toNat ((List.range x.elem.size).map value) }

end Contents

namespace ArrayCall

/-- What a call does to the contents of the arrays. -/
def effect (xs : List Contents) : ArrayCall → List Contents
  | allocArray elem size => xs ++ [⟨elem, List.replicate size.toInt.toNat (zeroElement elem)⟩]
  | reserve _ _ => xs
  | ensure a index => xs.modify a (·.ensure index.toInt)
  | set a index value => xs.modify a (·.set index.toInt value)

/-- The array of a call is one of the program. -/
def Names (arrays : List VArray) : ArrayCall → Prop
  | allocArray _ _ => True
  | reserve a _ | ensure a _ | set a _ _ => a < arrays.length

end ArrayCall

/-- How a call may end early: with an error, or with the process where the heap has no room. -/
def Ended (room : Int → Bool) : Stop → Prop
  | .error _ => True
  | .fatal => ∃ size, room size = false
  | .badAccess => False

/-- A call keeps the arrays: no count wraps around, and either it ends early or every array agrees with its
storage and has the contents the call gives it. -/
def Kept (room : Int → Bool) (arrays : List VArray) (c : ArrayCall) : Run (List VArray) → Prop :=
  Exact (Ended room) fun arrays' =>
    (∀ a ∈ arrays', a.Stored) ∧ arrays'.map VArray.contents = c.effect (arrays.map VArray.contents)

/-- A capacity that is an `int`, with a count of bytes that is one as a whole number of pages. -/
def Allocatable (elem : HlTypeKind) (capacity : Int) : Prop :=
  capacity < 2 ^ 31 ∧ hlWSize + elem.size * capacity ≤ 2 ^ 31 - Gc.gcPageSize

instance (elem : HlTypeKind) (capacity : Int) : Decidable (Allocatable elem capacity) :=
  inferInstanceAs (Decidable (_ ∧ _))

def growth (capacity : Int) (k : Nat) : Int := (fun n : Int => n + n / 2)^[k] capacity

def VArray.Grows (a : VArray) (capacity : Int) : Prop :=
  capacity ≤ a.capacity ∨ ∃ k, capacity ≤ growth (max 4 a.capacity) k ∧ Allocatable a.elem (growth (max 4 a.capacity) k)

def ArrayCall.Fits (arrays : List VArray) : ArrayCall → Prop
  | allocArray elem size =>
    size.toInt < 0 ∨ Allocatable elem (if size.toInt < 4 then 4 else size.toInt + size.toInt / 2)
  | reserve a capacity => ∀ v ∈ arrays[a]?, v.Grows capacity.toInt
  | ensure a index => ∀ v ∈ arrays[a]?, index.toInt < v.size ∨ v.Grows (index.toInt + 1)
  | set _ _ _ => True

variable {a : VArray} {size capacity index : Int} {elem : HlTypeKind}

section Blocks

variable {room : Int → Bool} {hltArray : Nat → UInt8}

theorem round_up (size : Int) {unit : Nat} (h : 0 < unit) :
    size ≤ size + -size % unit ∧ size + -size % unit < size + unit ∧ (unit : Int) ∣ size + -size % unit := by
  have hnonneg : 0 ≤ -size % (unit : Int) := Int.emod_nonneg _ (by omega)
  have hlt : -size % (unit : Int) < unit := Int.emod_lt_of_pos _ (by omega)
  refine ⟨by omega, by omega, ?_⟩
  have hdiv := Int.mul_ediv_add_emod (-size) unit
  exact ⟨-(-size / unit), by rw [Int.mul_neg]; omega⟩

theorem gcSizes_part {sz : Nat} (hpos : 0 < sz) (hle : sz ≤ 40) (h : 8 ∣ sz) :
    Gc.gcSizes (sz / Gc.gcAlign - 1) = sz := by
  obtain ⟨n, rfl⟩ := h
  have hn : n = 1 ∨ n = 2 ∨ n = 3 ∨ n = 4 ∨ n = 5 := by omega
  rcases hn with rfl | rfl | rfl | rfl | rfl <;> rfl

theorem gcAllocatorAlloc_exact (hpos : 0 < size) (hle : size ≤ 2 ^ 31 - Gc.gcPageSize) :
    Exact (Ended room) (fun n : Nat => size ≤ n) (gcAllocatorAlloc room size) := by
  obtain ⟨hup, hlt, hdvd⟩ := round_up size (show 0 < Gc.gcAlign by decide)
  have halign : Gc.gcAlign = 8 := rfl
  have hpage : Gc.gcPageSize = 65536 := rfl
  rw [halign] at hdvd
  rw [gcAllocatorAlloc, int32_of_fits (by omega) (by omega), pure_bind]
  generalize hsz : size + -size % (Gc.gcAlign : Int) = sz at hup hlt ⊢
  rw [halign] at hsz
  rw [hsz] at hdvd
  split
  · obtain ⟨hup', hlt', hdvd'⟩ := round_up sz (show 0 < Gc.gcPageSize by decide)
    rw [hpage] at hdvd'
    rw [int32_of_fits (by omega) (by omega), pure_bind]
    split
    · exact exact_pure (by omega)
    · split
      · exact exact_stop trivial
      · rename_i hroom _
        refine exact_stop ⟨sz + -sz % Gc.gcPageSize, ?_⟩
        simpa using fun h => hroom ⟨by omega, h⟩
  · split
    · rename_i hfixed
      have hfixed' : sz ≤ 40 := hfixed
      rw [if_neg (by omega)]
      split
      · refine exact_pure ?_
        rw [gcSizes_part (by omega) (by omega) (by omega)]
        omega
      · exact exact_stop ⟨sz, by simpa using ‹¬room sz = true›⟩
    · split
      · rename_i part hpart
        split
        · refine exact_pure ?_
          have hmem := List.mem_of_find?_eq_some hpart
          have hlast : part ≠ 8 := by
            rintro rfl
            simpa [Gc.gcSizes, Gc.Allocator.query] using List.find?_some hpart
          have hblock : 0 < Gc.gcSizes part := by
            simp only [List.mem_cons, List.not_mem_nil, or_false] at hmem
            rcases hmem with rfl | rfl | rfl | rfl <;> first | decide | exact absurd rfl hlast
          have hquery : sz.toNat ≤ Gc.Allocator.query sz.toNat (Gc.gcSizes part) :=
            (Gc.Allocator.query_spec _ hblock).1
          omega
        · exact exact_stop ⟨sz, by simpa using ‹¬room sz = true›⟩
      · exact exact_stop trivial

theorem gcAllocatorAlloc_wrapped (h : 2 ^ 31 - Gc.gcPageSize < size) :
    (gcAllocatorAlloc room size).wrapped = true := by
  obtain ⟨hup, hlt', hdvd⟩ := round_up size (show 0 < Gc.gcAlign by decide)
  have hpage : Gc.gcPageSize = 65536 := rfl
  have halign : Gc.gcAlign = 8 := rfl
  have hlarge : Gc.gcLargeBlock = 1048576 := rfl
  rw [gcAllocatorAlloc]
  by_cases hfits : size + -size % Gc.gcAlign < 2 ^ 31
  · rw [int32_of_fits (by omega) hfits, pure_bind, if_pos (by omega)]
    generalize size + -size % (Gc.gcAlign : Int) = sz at hup hlt' hdvd hfits ⊢
    obtain ⟨hup', -, hdvd'⟩ := round_up sz (show 0 < Gc.gcPageSize by decide)
    generalize sz + -sz % (Gc.gcPageSize : Int) = paged at hup' hdvd' ⊢
    rw [hpage] at hdvd'
    exact wrapped_bind (wrapped_int32 (by omega))
  · exact wrapped_bind (wrapped_int32 (by omega))

theorem Block.write_exact {b : Block} {a : Int} {n : Nat} {value : Nat → UInt8} {P : Block → Prop} (ha : 0 ≤ a)
    (hn : a + n ≤ b.length) (h : P { b with mem := writeBytes b.mem a n value }) :
    Exact (Ended room) P (b.write a n value) := by
  rw [Block.write, if_pos ⟨ha, hn⟩]
  exact exact_pure h

theorem hlArrayAllocStorage_exact (h : 0 ≤ capacity) (hfits : Allocatable elem capacity) :
    Exact (Ended room) (fun b => hlWSize + elem.size * capacity ≤ b.length ∧ ∀ k : Int, hlWSize ≤ k → b.mem k = 0)
      (hlArrayAllocStorage room hltArray elem capacity) := by
  obtain ⟨hcapacity, hbytes⟩ := hfits
  have hsize : (0 : Int) ≤ elem.size * capacity := Int.mul_nonneg (Int.natCast_nonneg _) h
  have hword : hlWSize = 8 := rfl
  have hpage : Gc.gcPageSize = 65536 := rfl
  rw [hlArrayAllocStorage, int32_of_fits (by omega) (by omega), pure_bind, hlGcAllocGenOwner, if_neg (by omega),
    if_neg (by omega), bind_assoc]
  refine exact_bind (gcAllocatorAlloc_exact (by omega) hbytes) fun n hn => ?_
  rw [pure_bind]
  refine Block.write_exact le_rfl (by show (0 : Int) + hlWSize ≤ n; omega) ⟨hn, fun k hk => ?_⟩
  exact writeBytes_of_apart (Or.inr (by omega))

theorem hlArrayAllocStorage_wrapped (hlt : capacity < 2 ^ 31) (h : 0 ≤ capacity)
    (hfits : ¬Allocatable elem capacity) :
    (hlArrayAllocStorage room hltArray elem capacity).wrapped = true := by
  have hsize : (0 : Int) ≤ elem.size * capacity := Int.mul_nonneg (Int.natCast_nonneg _) h
  have hlarge : 2 ^ 31 - Gc.gcPageSize < hlWSize + elem.size * capacity := by
    by_contra hle
    exact hfits ⟨hlt, by omega⟩
  have hpage : Gc.gcPageSize = 65536 := rfl
  rw [hlArrayAllocStorage]
  by_cases hint : hlWSize + elem.size * capacity < 2 ^ 31
  · rw [int32_of_fits (by omega) hint, pure_bind, hlGcAllocGenOwner, if_neg (by omega), if_neg (by omega), bind_assoc]
    exact wrapped_bind (gcAllocatorAlloc_wrapped hlarge)
  · exact wrapped_bind (wrapped_int32 (by omega))

end Blocks

section Growth

theorem growth_succ (n : Int) (k : Nat) : growth n (k + 1) = growth (n + n / 2) k :=
  Function.iterate_succ_apply _ _ _

theorem le_growth {n : Int} (h : 0 ≤ n) (k : Nat) : n ≤ growth n k := by
  induction k generalizing n with
  | zero => exact le_rfl
  | succ k ih =>
    rw [growth_succ]
    have := ih (show 0 ≤ n + n / 2 by omega)
    omega

theorem growTo_exact {allowed : Stop → Prop} {next : Int} {k : Nat} (h : 4 ≤ next)
    (hcapacity : capacity ≤ growth next k) (hlt : growth next k < 2 ^ 31) :
    Exact allowed (fun n => capacity ≤ n ∧ n ≤ growth next k) (growTo next capacity) := by
  induction k generalizing next with
  | zero =>
    rw [growTo, if_neg (show ¬next < capacity from not_lt.mpr hcapacity)]
    exact exact_pure ⟨hcapacity, le_rfl⟩
  | succ k ih =>
    have hle := le_growth (show 0 ≤ next by omega) (k + 1)
    rw [growTo]
    split
    · rw [growth_succ] at hcapacity hlt hle ⊢
      have hgrown := le_growth (show 0 ≤ next + next / 2 by omega) k
      rw [int32_of_fits (by omega) (by omega), pure_bind, if_neg (by omega)]
      exact ih (by omega) hcapacity hlt
    · exact exact_pure ⟨by omega, hle⟩

theorem growTo_cases {next : Int} (capacity : Int) (h : 4 ≤ next) (hlt : next < 2 ^ 31) :
    (growTo next capacity).wrapped = true ∨
      ∃ k, growTo next capacity = pure (growth next k) ∧ capacity ≤ growth next k ∧ growth next k < 2 ^ 31 := by
  by_cases hmore : next < capacity
  · rw [growTo, if_pos hmore]
    by_cases hgrown : next + next / 2 < 2 ^ 31
    · rw [int32_of_fits (by omega) hgrown, pure_bind, if_neg (by omega)]
      rcases growTo_cases capacity (show 4 ≤ next + next / 2 by omega) hgrown with hwrapped | ⟨k, hk⟩
      · exact Or.inl hwrapped
      · exact Or.inr ⟨k + 1, by rwa [growth_succ]⟩
    · exact Or.inl (wrapped_bind (wrapped_int32 (by omega)))
  · exact Or.inr ⟨0, by rw [growTo, if_neg hmore]; rfl, by simpa [growth] using hmore, hlt⟩
termination_by (capacity - next).toNat

theorem Allocatable.of_le {m n : Int} (h : Allocatable elem n) (hle : m ≤ n) :
    Allocatable elem m := by
  have hmul : elem.size * m ≤ elem.size * n := Int.mul_le_mul_of_nonneg_left hle (Int.natCast_nonneg _)
  exact ⟨by have := h.1; omega, by have := h.2; omega⟩

end Growth

namespace VArray

variable {a : VArray}

theorem size_bytes (h : 0 ≤ a.size) : ((a.size.toNat * a.elem.size : Nat) : Int) = a.elem.size * a.size := by
  rw [Int.natCast_mul, Int.toNat_of_nonneg h, Int.mul_comm]

theorem Stored.mul_le (h : a.Stored) : a.elem.size * a.size ≤ a.elem.size * a.capacity :=
  Int.mul_le_mul_of_nonneg_left h.size_le (Int.natCast_nonneg _)

theorem element_end {i j e : Nat} (h : i < j) : i * e + e ≤ j * e := by
  calc i * e + e = (i + 1) * e := (Nat.succ_mul i e).symm
    _ ≤ j * e := Nat.mul_le_mul_right e h

theorem contents_congr {b : VArray} (helem : b.elem = a.elem) (hsize : b.size = a.size)
    (hbytes : ∀ k < a.size.toNat * a.elem.size, b.data.mem (hlWSize + k) = a.data.mem (hlWSize + k)) :
    b.contents = a.contents := by
  simp only [contents, elements, Contents.mk.injEq, helem, hsize, true_and]
  refine List.map_congr_left fun i hi => ?_
  have hend := element_end (e := a.elem.size) (List.mem_range.mp hi)
  simp only [element, helem]
  refine bytes_congr fun k hk => ?_
  have := hbytes (i * a.elem.size + k) (by omega)
  rwa [Int.natCast_add, ← Int.add_assoc] at this

theorem element_of_zero {i : Nat}
    (h : ∀ k : Nat, k < a.elem.size → a.data.mem (hlWSize + (i * a.elem.size : Nat) + k) = 0) :
    a.element i = zeroElement a.elem := by
  rw [element, bytes, List.map_congr_left (g := fun _ => 0) fun k hk => h k (List.mem_range.mp hk),
    List.map_const', List.length_range, zeroElement]

theorem Sound.element_eq (h : a.Sound) {i : Nat} (hi : a.size ≤ i) (hi' : i < a.capacity) :
    a.element i = zeroElement a.elem := by
  refine element_of_zero fun k hk => h.zero _ ?_ ?_
  · have hle : a.elem.size * a.size ≤ a.elem.size * (i : Int) :=
      Int.mul_le_mul_of_nonneg_left hi (Int.natCast_nonneg _)
    rw [Int.natCast_mul, Int.mul_comm (i : Int)]
    omega
  · have hle : a.elem.size * (i + 1 : Int) ≤ a.elem.size * a.capacity :=
      Int.mul_le_mul_of_nonneg_left (by omega) (Int.natCast_nonneg _)
    rw [Int.mul_add, Int.mul_one] at hle
    rw [Int.natCast_mul, Int.mul_comm (i : Int)]
    omega

end VArray

section Calls

variable {room : Int → Bool} {hltArray : Nat → UInt8}

theorem firstCapacity_eq (hlt : (if size < 4 then 4 else size + size / 2) < 2 ^ 31) :
    firstCapacity size = pure (if size < 4 then 4 else size + size / 2) := by
  rw [firstCapacity]
  split
  · rfl
  · rename_i hlarge
    rw [if_neg hlarge] at hlt
    exact int32_of_fits (by omega) hlt

theorem zero_array {data : Block} (hnonneg : 0 ≤ size) (hle : size ≤ capacity) (hlt : capacity < 2 ^ 31)
    (hlength : hlWSize + elem.size * capacity ≤ data.length) (hzero : ∀ k : Int, hlWSize ≤ k → data.mem k = 0) :
    (VArray.mk elem size capacity data).Sound ∧
      (VArray.mk elem size capacity data).contents = ⟨elem, List.replicate size.toNat (zeroElement elem)⟩ := by
  constructor
  · refine ⟨⟨hnonneg, hle, hlength⟩, hlt, fun k hk _ => hzero k ?_⟩
    have hsize : (0 : Int) ≤ elem.size * size := Int.mul_nonneg (Int.natCast_nonneg _) hnonneg
    exact Int.le_trans (Int.le_add_of_nonneg_right hsize) hk
  · simp only [VArray.contents, VArray.elements, Contents.mk.injEq, true_and]
    refine List.eq_replicate_iff.mpr ⟨by rw [List.length_map, List.length_range], fun x hx => ?_⟩
    obtain ⟨i, -, rfl⟩ := List.mem_map.mp hx
    exact VArray.element_of_zero fun k _ => hzero _ (by omega)

theorem hlAllocArray_exact (hfits : size < 0 ∨ Allocatable elem (if size < 4 then 4 else size + size / 2)) :
    Exact (Ended room) (fun a => a.Sound ∧ a.contents = ⟨elem, List.replicate size.toNat (zeroElement elem)⟩)
      (hlAllocArray room hltArray elem size) := by
  rw [hlAllocArray]
  split
  · exact exact_stop trivial
  · rename_i hneg
    have hfits := hfits.resolve_left hneg
    rw [firstCapacity_eq hfits.1, pure_bind]
    have hle : size ≤ (if size < 4 then 4 else size + size / 2) := by split <;> omega
    generalize (if size < 4 then 4 else size + size / 2) = capacity at hfits hle ⊢
    have hheader : Exact (Ended room) (fun _ => True) (hlGcAllocGenOwner room sizeofVArray) :=
      exact_bind (gcAllocatorAlloc_exact (by decide) (by decide)) fun _ _ => exact_pure trivial
    refine exact_bind hheader fun _ _ => ?_
    refine exact_bind (hlArrayAllocStorage_exact (by omega) hfits) fun data hdata => ?_
    exact exact_pure (zero_array (by omega) hle hfits.1 hdata.1 hdata.2)

theorem copyElements_exact {data : Block} (ha : a.Sound)
    (hlength : hlWSize + a.elem.size * a.size ≤ data.length) (hzero : ∀ k : Int, hlWSize ≤ k → data.mem k = 0) :
    Exact (Ended room) (fun b => b.length = data.length ∧
        (∀ k < a.size.toNat * a.elem.size, b.mem (hlWSize + k) = a.data.mem (hlWSize + k)) ∧
        ∀ k : Int, hlWSize + a.elem.size * a.size ≤ k → b.mem k = 0)
      (copyElements a data) := by
  have hbytes := VArray.size_bytes ha.size_nonneg
  have hle := ha.mul_le
  have hold := ha.length
  rw [copyElements]
  split
  · rw [Block.read, if_pos ⟨by omega, by omega⟩, pure_bind]
    refine Block.write_exact (by omega) (by omega) ⟨rfl, fun k hk => ?_, fun k hk => ?_⟩
    · dsimp only
      rw [writeBytes, if_pos (by omega), show ((hlWSize : Int) + k - hlWSize).toNat = k by omega]
      simp only [bytes, List.getD_eq_getElem?_getD, List.getElem?_map, List.getElem?_range hk, Option.map_some,
        Option.getD_some]
    · dsimp only
      refine (writeBytes_of_apart ?_).trans (hzero k (by omega))
      exact Or.inr (by omega)
  · rename_i hpos
    have hsize : a.size = 0 := by
      have := ha.size_nonneg
      omega
    refine exact_pure ⟨rfl, fun k hk => ?_, fun k hk => hzero k ?_⟩
    · simp [hsize] at hk
    · simpa [hsize] using hk

theorem hlArrayReserve_exact (ha : a.Sound) (hgrows : a.Grows capacity) :
    Exact (Ended room)
      (fun b => b.Sound ∧ b.contents = a.contents ∧ b.elem = a.elem ∧ b.size = a.size ∧ capacity ≤ b.capacity)
      (hlArrayReserve room hltArray a capacity) := by
  rw [hlArrayReserve]
  split
  · exact exact_pure ⟨ha, rfl, rfl, rfl, by assumption⟩
  · rename_i hmore
    obtain ⟨k, hk, hfits⟩ := hgrows.resolve_left hmore
    have hfirst : (if a.capacity < 4 then 4 else a.capacity) = max 4 a.capacity := by split <;> omega
    rw [hfirst]
    refine exact_bind (growTo_exact (by omega) hk hfits.1) fun next ⟨hnext, hnext'⟩ => ?_
    have hfits' := hfits.of_le hnext'
    have hsize := ha.size_nonneg
    have hle := ha.size_le
    have hmul : a.elem.size * a.size ≤ a.elem.size * next :=
      Int.mul_le_mul_of_nonneg_left (by omega) (Int.natCast_nonneg _)
    refine exact_bind (hlArrayAllocStorage_exact (by omega) hfits') fun data ⟨hlength, hzero⟩ => ?_
    refine exact_bind (copyElements_exact ha (by omega) hzero) fun b ⟨hb, hcopy, hrest⟩ => ?_
    refine exact_pure ⟨⟨⟨hsize, by show a.size ≤ next; omega, ?_⟩, hfits'.1, fun k hk _ => hrest k hk⟩, ?_,
      rfl, rfl, hnext⟩
    · show _ ≤ (b.length : Int)
      rw [hb]
      exact hlength
    · exact VArray.contents_congr rfl rfl hcopy

theorem contents_grown (ha : a.Sound) (h : a.size ≤ index) (hle : index + 1 ≤ a.capacity) :
    { a with size := index + 1 }.contents = a.contents.ensure index := by
  have hsize := ha.size_nonneg
  obtain ⟨d, hd⟩ : ∃ d, (index + 1).toNat = a.size.toNat + d := Nat.exists_eq_add_of_le (by omega)
  simp only [VArray.contents, Contents.ensure, VArray.elements, Contents.mk.injEq, true_and, hd, List.range_add,
    List.map_append, List.length_map, List.length_range, Nat.add_sub_cancel_left]
  congr 1
  refine List.eq_replicate_iff.mpr ⟨by simp only [List.length_map, List.length_range], fun x hx => ?_⟩
  simp only [List.map_map, List.mem_map, List.mem_range, Function.comp_apply] at hx
  obtain ⟨j, hj, rfl⟩ := hx
  exact ha.element_eq (by omega) (by omega)

theorem contents_ensured (hsize : 0 ≤ a.size) (h : index < a.size) :
    a.contents.ensure index = a.contents := by
  have hlength : a.elements.length = a.size.toNat := by rw [VArray.elements, List.length_map, List.length_range]
  simp only [VArray.contents, Contents.ensure, hlength, show (index + 1).toNat - a.size.toNat = 0 by omega,
    List.replicate_zero, List.append_nil]

theorem hlArrayEnsure_exact (ha : a.Sound) (hfits : index < a.size ∨ a.Grows (index + 1)) :
    Exact (Ended room) (fun b => b.Sound ∧ b.contents = a.contents.ensure index)
      (hlArrayEnsure room hltArray a index) := by
  have hsize := ha.size_nonneg
  rw [hlArrayEnsure]
  split
  · exact exact_stop trivial
  · split
    · rename_i hin
      exact exact_pure ⟨ha, (contents_ensured hsize hin).symm⟩
    · rename_i hneg hout
      have hgrows := hfits.resolve_left hout
      have hlt : index + 1 < 2 ^ 31 := by
        rcases hgrows with hle | ⟨k, hk, hfits⟩
        · exact Int.lt_of_le_of_lt hle ha.capacity_lt
        · exact Int.lt_of_le_of_lt hk hfits.1
      rw [int32_of_fits (by omega) hlt, pure_bind]
      refine exact_bind (hlArrayReserve_exact ha hgrows) fun b ⟨hb, hcontents, helem, hbsize, hle⟩ => ?_
      refine exact_pure ⟨⟨⟨by show 0 ≤ index + 1; omega, hle, hb.length⟩, hb.capacity_lt, fun k hk hk' => ?_⟩, ?_⟩
      · refine hb.zero k (Int.le_trans ?_ hk) hk'
        have hmul : b.elem.size * b.size ≤ b.elem.size * (index + 1) :=
          Int.mul_le_mul_of_nonneg_left (by omega) (Int.natCast_nonneg _)
        exact Int.add_le_add_left hmul _
      · rw [contents_grown hb (by omega) hle, hcontents]

theorem setElement_exact {value : Nat → UInt8} (ha : a.Sound) :
    Exact (Ended room) (fun b => b.Sound ∧ b.contents = a.contents.set index value) (setElement a index value) := by
  rw [setElement, hlArrayCheck]
  split
  · exact exact_stop trivial
  · rename_i hin
    rw [pure_bind]
    obtain ⟨i, rfl⟩ : ∃ i : Nat, index = i := Int.eq_ofNat_of_zero_le (by omega)
    have hend := VArray.element_end (e := a.elem.size) (show i < a.size.toNat by omega)
    have hbytes := VArray.size_bytes ha.size_nonneg
    have hle := ha.mul_le
    have hlength := ha.length
    rw [← Int.natCast_mul]
    rw [Block.write, if_pos ⟨by omega, by omega⟩, pure_bind]
    refine exact_pure ⟨⟨⟨ha.size_nonneg, ha.size_le, ha.length⟩, ha.capacity_lt, fun k hk hk' => ?_⟩, ?_⟩
    · have hk : (hlWSize : Int) + a.elem.size * a.size ≤ k := hk
      exact (writeBytes_of_apart (Or.inr (by omega))).trans (ha.zero k hk hk')
    · simp only [VArray.contents, Contents.set, VArray.elements, Contents.mk.injEq, true_and, Int.toNat_natCast]
      refine List.ext_getElem (by simp) fun j hj hj' => ?_
      simp only [List.getElem_map, List.getElem_range, List.getElem_set]
      split
      · rename_i heq
        subst heq
        exact bytes_writeBytes_self
      · rename_i hne
        refine bytes_writeBytes_of_apart ?_
        dsimp only
        rcases Nat.lt_or_gt_of_ne hne with hlt | hlt
        · exact Or.inr (by have := VArray.element_end (e := a.elem.size) hlt; omega)
        · exact Or.inl (by have := VArray.element_end (e := a.elem.size) hlt; omega)

end Calls

section Wraps

variable {room : Int → Bool} {hltArray : Nat → UInt8}

theorem gcAllocatorAlloc_header (hroom : ∀ size, room size = true) :
    (hlGcAllocGenOwner room sizeofVArray).outcome = .ok (some ⟨32, fun _ => 0⟩) := by
  obtain rfl : room = fun _ => true := funext hroom
  rfl

theorem hlAllocArray_wrapped (hroom : ∀ size, room size = true)
    (hfits : ¬(size < 0 ∨ Allocatable elem (if size < 4 then 4 else size + size / 2))) :
    (hlAllocArray room hltArray elem size).wrapped = true := by
  obtain ⟨hneg, hfits⟩ := not_or.mp hfits
  rw [hlAllocArray, if_neg hneg]
  by_cases hlt : (if size < 4 then 4 else size + size / 2) < 2 ^ 31
  · rw [firstCapacity_eq hlt, pure_bind]
    have hcapacity : 0 ≤ (if size < 4 then 4 else size + size / 2) := by split <;> omega
    exact wrapped_bind_next (gcAllocatorAlloc_header hroom)
      (wrapped_bind (hlArrayAllocStorage_wrapped hlt hcapacity hfits))
  · refine wrapped_bind ?_
    rw [firstCapacity]
    split
    · rename_i hsmall
      rw [if_pos hsmall] at hlt
      omega
    · rename_i hlarge
      rw [if_neg hlarge] at hlt
      exact wrapped_int32 (by omega)

theorem hlArrayReserve_wrapped (ha : a.Sound) (h : ¬a.Grows capacity) :
    (hlArrayReserve room hltArray a capacity).wrapped = true := by
  obtain ⟨hmore, hgrowth⟩ := not_or.mp h
  have hfirst : (if a.capacity < 4 then 4 else a.capacity) = max 4 a.capacity := by split <;> omega
  have hlt := ha.capacity_lt
  rw [hlArrayReserve, if_neg hmore, hfirst]
  rcases growTo_cases capacity (show 4 ≤ max 4 a.capacity by omega) (by omega) with hwrapped | ⟨k, hk, hle, hint⟩
  · exact wrapped_bind hwrapped
  · rw [hk, pure_bind]
    have hnonneg := le_growth (show 0 ≤ max 4 a.capacity by omega) k
    exact wrapped_bind (hlArrayAllocStorage_wrapped hint (by omega) fun hfits => hgrowth ⟨k, hle, hfits⟩)

theorem hlArrayEnsure_wrapped (ha : a.Sound) (h : ¬(index < a.size ∨ a.Grows (index + 1))) :
    (hlArrayEnsure room hltArray a index).wrapped = true := by
  obtain ⟨hout, hgrows⟩ := not_or.mp h
  have hsize := ha.size_nonneg
  rw [hlArrayEnsure, if_neg (by omega), if_neg hout]
  by_cases hlt : index + 1 < 2 ^ 31
  · rw [int32_of_fits (by omega) hlt, pure_bind]
    exact wrapped_bind (hlArrayReserve_wrapped ha hgrows)
  · exact wrapped_bind (wrapped_int32 (by omega))

end Wraps

section Runs

variable {room : Int → Bool} {hltArray : Nat → UInt8} {arrays : List VArray}

theorem map_set_eq_modify {α β : Type} {l : List α} {g : α → β} {f : β → β} {i : Nat} {x y : α} (hx : l[i]? = some x)
    (hy : g y = f (g x)) : (l.set i y).map g = (l.map g).modify i f := by
  rw [List.map_set, hy, List.modify_eq_set_getElem?, List.getElem?_map, hx]
  rfl

theorem onArray_exact {a : Nat} {f : VArray → Run VArray} {g : Contents → Contents} (harrays : ∀ v ∈ arrays, v.Sound)
    (ha : a < arrays.length)
    (hf : ∀ v ∈ arrays[a]?, Exact (Ended room) (fun b => b.Sound ∧ b.contents = g v.contents) (f v)) :
    Exact (Ended room) (fun arrays' => (∀ v ∈ arrays', v.Sound) ∧
        arrays'.map VArray.contents = (arrays.map VArray.contents).modify a g)
      (onArray arrays a f) := by
  have hv := List.getElem?_eq_getElem ha
  rw [onArray, hv]
  refine exact_bind (hf _ hv) fun b ⟨hb, hcontents⟩ => exact_pure ⟨fun v hmem => ?_, map_set_eq_modify hv hcontents⟩
  rcases List.mem_or_eq_of_mem_set hmem with hmem | rfl
  · exact harrays v hmem
  · exact hb

variable (room hltArray) in
theorem call_exact {c : ArrayCall} (harrays : ∀ v ∈ arrays, v.Sound) (hnames : c.Names arrays) (hfits : c.Fits arrays) :
    Exact (Ended room) (fun arrays' => (∀ v ∈ arrays', v.Sound) ∧
        arrays'.map VArray.contents = c.effect (arrays.map VArray.contents))
      (call room hltArray arrays c) := by
  cases c with
  | allocArray elem size =>
    refine exact_bind (hlAllocArray_exact hfits) fun v ⟨hv, hcontents⟩ => exact_pure ⟨fun w hw => ?_, ?_⟩
    · rcases List.mem_append.mp hw with hw | hw
      · exact harrays w hw
      · exact List.mem_singleton.mp hw ▸ hv
    · rw [List.map_append, List.map_singleton, hcontents]
      rfl
  | reserve a capacity =>
    refine (onArray_exact (g := id) harrays hnames fun v hv => ?_).imp fun arrays' h =>
      ⟨h.1, by rw [h.2, List.modify_id]; rfl⟩
    exact (hlArrayReserve_exact (harrays v (List.mem_of_getElem? hv)) (hfits v hv)).imp fun b hb => ⟨hb.1, hb.2.1⟩
  | ensure a index =>
    exact onArray_exact harrays hnames fun v hv =>
      hlArrayEnsure_exact (harrays v (List.mem_of_getElem? hv)) (hfits v hv)
  | set a index value =>
    exact onArray_exact harrays hnames fun v hv => setElement_exact (harrays v (List.mem_of_getElem? hv))

theorem onArray_wrapped {a : Nat} {v : VArray} {f : VArray → Run VArray} (hv : arrays[a]? = some v)
    (h : (f v).wrapped = true) : (onArray arrays a f).wrapped = true := by
  rw [onArray, hv]
  exact wrapped_bind h

variable (hltArray) in
theorem call_wrapped {c : ArrayCall} (harrays : ∀ v ∈ arrays, v.Sound) (hroom : ∀ size, room size = true)
    (hfits : ¬c.Fits arrays) : (call room hltArray arrays c).wrapped = true := by
  cases c with
  | allocArray elem size => exact wrapped_bind (hlAllocArray_wrapped hroom hfits)
  | reserve a capacity =>
    simp only [ArrayCall.Fits, not_forall] at hfits
    obtain ⟨v, hv, hgrows⟩ := hfits
    exact onArray_wrapped hv (hlArrayReserve_wrapped (harrays v (List.mem_of_getElem? hv)) hgrows)
  | ensure a index =>
    simp only [ArrayCall.Fits, not_forall] at hfits
    obtain ⟨v, hv, hgrows⟩ := hfits
    exact onArray_wrapped hv (hlArrayEnsure_wrapped (harrays v (List.mem_of_getElem? hv)) hgrows)
  | set a index value => exact absurd trivial hfits

/-- The arrays of a program after calls that fit, each with the room the heap then has. -/
inductive FittingRun (hltArray : Nat → UInt8) : List VArray → Prop where
  | start : FittingRun hltArray []
  | call {arrays : List VArray} (room : Int → Bool) {c : ArrayCall} (hrun : FittingRun hltArray arrays)
      (hnames : c.Names arrays) (hfits : c.Fits arrays) : FittingRun hltArray (afterCall room hltArray arrays c)

theorem FittingRun.sound (hrun : FittingRun hltArray arrays) : ∀ v ∈ arrays, v.Sound := by
  induction hrun with
  | start => exact fun v hv => absurd hv List.not_mem_nil
  | @call arrays room c _ hnames hfits ih =>
    have hcall := (call_exact room hltArray ih hnames hfits).2
    rw [afterCall]
    split
    · rename_i arrays' heq
      rw [heq] at hcall
      exact hcall.1
    · exact ih

/-- In a run of calls that fit, every call keeps the arrays; and of the calls that may come next, exactly
those that fit do in a heap that has room. -/
theorem array_storage_kept (hrun : FittingRun hltArray arrays) :
    (∀ a ∈ arrays, a.Stored) ∧
      (∀ room c, c.Names arrays → c.Fits arrays → Kept room arrays c (call room hltArray arrays c)) ∧
      ∀ c, c.Names arrays →
        (Kept (fun _ => true) arrays c (call (fun _ => true) hltArray arrays c) ↔ c.Fits arrays) := by
  have hsound := hrun.sound
  have hkept : ∀ room c, c.Names arrays → c.Fits arrays → Kept room arrays c (call room hltArray arrays c) :=
    fun room c hnames hfits => (call_exact room hltArray hsound hnames hfits).imp fun arrays' h =>
      ⟨fun v hv => (h.1 v hv).toStored, h.2⟩
  refine ⟨fun v hv => (hsound v hv).toStored, hkept, fun c hnames => ⟨fun h => ?_, hkept _ c hnames⟩⟩
  by_contra hfits
  have hwrapped := call_wrapped hltArray hsound (fun _ => rfl) hfits
  exact absurd h.1 (by rw [hwrapped]; decide)

/-- A new array of words, which is then made longer. -/
theorem array_storage_kept_grown :
    ∃ a, a.size = 7 ∧ a.capacity = 10 ∧
      Kept (fun _ => true) [a] (.ensure 0 90) (call (fun _ => true) (fun _ => 0) [a] (.ensure 0 90)) := by
  have hrun := FittingRun.call (fun _ => true) (.start : FittingRun (fun _ => 0) [])
    (show (ArrayCall.allocArray .hI64 7).Names [] from trivial) (Or.inr (by decide))
  obtain ⟨a, ha, helem, hsize, hcapacity⟩ : ∃ a,
      afterCall (fun _ => true) (fun _ => 0) [] (.allocArray .hI64 7) = [a] ∧
        a.elem = .hI64 ∧ a.size = 7 ∧ a.capacity = 10 := ⟨_, rfl, rfl, rfl, rfl⟩
  rw [ha] at hrun
  refine ⟨a, hsize, hcapacity, (array_storage_kept hrun).2.1 _ _ Nat.one_pos fun v hv => Or.inr (Or.inr ⟨6, ?_⟩)⟩
  cases hv
  rw [hcapacity, helem]
  decide

/-- Words so many that their bytes are counted modulo 2^32 get a block of two words. -/
theorem storage_of_two_words :
    ∃ a, (call (fun _ => true) (fun _ => 0) [] (.allocArray .hI64 357913942)).outcome = .ok [a] ∧
      a.size = 357913942 ∧ a.capacity = 536870913 ∧ a.data.length = 16 ∧
      ¬Kept (fun _ => true) [] (.allocArray .hI64 357913942)
        (call (fun _ => true) (fun _ => 0) [] (.allocArray .hI64 357913942)) := by
  refine ⟨_, rfl, rfl, rfl, rfl, fun h => absurd h.1 ?_⟩
  decide +kernel

end Runs

end HashLink.Arrays
