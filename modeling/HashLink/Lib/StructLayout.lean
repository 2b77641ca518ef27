import Mathlib.Order.Lattice.Nat

/-!
Structures laid out the way C does it: each member is at the next multiple of its alignment, and the whole is brought
to a multiple of the largest one. Members that are put behind those of a structure leave them where they are.
-/

namespace StructLayout

/-- The next multiple of an alignment. Everything is aligned on 0. -/
def roundUp (n align : Nat) : Nat := n + (align - n % align) % align

structure Member where
  size : Nat
  align : Nat

/-- Where members end that are put from an offset on. -/
def finish (n : Nat) (members : List Member) : Nat :=
  members.foldl (fun n mem => roundUp n mem.align + mem.size) n

def offsets : Nat → List Member → List Nat
  | _, [] => []
  | n, mem :: rest => roundUp n mem.align :: offsets (roundUp n mem.align + mem.size) rest

/-- Members behind a header, which is aligned on its size. -/
structure Struct where
  header : Nat
  members : List Member

namespace Struct

def finish (s : Struct) : Nat := StructLayout.finish s.header s.members

def offsets (s : Struct) : List Nat := StructLayout.offsets s.header s.members

def largest (s : Struct) : Nat := s.members.foldl (fun n mem => max n mem.align) s.header

def size (s : Struct) : Nat := roundUp s.finish s.largest

/-- More members behind those there are, before the padding at the end. -/
def extend (s : Struct) (more : List Member) : Struct := ⟨s.header, s.members ++ more⟩

/-- The structure as a member of another one. -/
def member (s : Struct) : Member := ⟨s.size, s.largest⟩

end Struct

variable {n k i j a b : Nat} {mem mem' : Member} {members more : List Member} {s : Struct}

theorem le_roundUp (n a : Nat) : n ≤ roundUp n a := Nat.le_add_right n _

@[simp] theorem roundUp_zero (n : Nat) : roundUp n 0 = n := by
  rw [roundUp, Nat.zero_sub, Nat.mod_zero, Nat.add_zero]

theorem dvd_roundUp (ha : 0 < a) : a ∣ roundUp n a := by
  have hmod := Nat.mod_lt n ha
  have hdiv := Nat.div_add_mod n a
  unfold roundUp
  by_cases hzero : n % a = 0
  · rw [hzero, Nat.sub_zero, Nat.mod_self, Nat.add_zero]
    exact Nat.dvd_of_mod_eq_zero hzero
  · rw [Nat.mod_eq_of_lt (by omega)]
    exact ⟨n / a + 1, by rw [Nat.mul_add, Nat.mul_one]; omega⟩

theorem roundUp_le (hle : n ≤ k) (hdvd : a ∣ k) : roundUp n a ≤ k := by
  obtain ⟨q, rfl⟩ := hdvd
  have hdiv := Nat.div_add_mod n a
  rcases Nat.eq_zero_or_pos a with rfl | ha
  · rw [roundUp_zero]
    exact hle
  have hmod := Nat.mod_lt n ha
  unfold roundUp
  by_cases hzero : n % a = 0
  · rw [hzero, Nat.sub_zero, Nat.mod_self]
    exact hle
  · rw [Nat.mod_eq_of_lt (by omega)]
    have hlt : n / a < q := Nat.lt_of_mul_lt_mul_left (a := a) (by omega)
    have hmul := Nat.mul_le_mul_left a (Nat.succ_le_of_lt hlt)
    rw [Nat.mul_succ] at hmul
    omega

theorem finish_append : finish n (members ++ more) = finish (finish n members) more := List.foldl_append

theorem le_finish (n : Nat) (members : List Member) : n ≤ finish n members := by
  induction members generalizing n with
  | nil => exact Nat.le_refl n
  | cons mem rest ih => exact ((le_roundUp n mem.align).trans (Nat.le_add_right _ _)).trans (ih _)

theorem finish_take_le (h : i ≤ j) : finish n (members.take i) ≤ finish n (members.take j) := by
  obtain ⟨d, rfl⟩ := Nat.exists_eq_add_of_le h
  rw [List.take_add, finish_append]
  exact le_finish _ _

theorem offsets_append : offsets n (members ++ more) = offsets n members ++ offsets (finish n members) more := by
  induction members generalizing n with
  | nil => rfl
  | cons mem rest ih => exact congrArg (roundUp n mem.align :: ·) ih

@[simp] theorem length_offsets : (offsets n members).length = members.length := by
  induction members generalizing n with
  | nil => rfl
  | cons mem rest ih => exact congrArg (· + 1) ih

theorem offsets_getElem? (h : members[k]? = some mem) :
    (offsets n members)[k]? = some (roundUp (finish n (members.take k)) mem.align) := by
  induction members generalizing n k with
  | nil => cases h
  | cons head rest ih =>
    cases k with
    | zero =>
      cases h
      rfl
    | succ k => exact ih h

theorem finish_take_succ (h : members[k]? = some mem) :
    finish n (members.take (k + 1)) = roundUp (finish n (members.take k)) mem.align + mem.size := by
  rw [List.take_add_one, h, finish_append]
  rfl

theorem offsets_spec {o : Nat} (hmem : members[k]? = some mem) (ho : (offsets n members)[k]? = some o) :
    n ≤ o ∧ (0 < mem.align → mem.align ∣ o) ∧ o + mem.size ≤ finish n members := by
  cases (offsets_getElem? hmem).symm.trans ho
  have hbefore : n ≤ finish n (members.take k) := le_finish n _
  have hend : finish n (members.take (k + 1)) ≤ finish n (members.take (max (k + 1) members.length)) :=
    finish_take_le (Nat.le_max_left _ _)
  rw [finish_take_succ hmem, List.take_of_length_le (Nat.le_max_right _ _)] at hend
  exact ⟨hbefore.trans (le_roundUp _ _), fun halign => dvd_roundUp halign, hend⟩

theorem offsets_disjoint {o o' : Nat} (hij : i < j) (hmem : members[i]? = some mem)
    (ho : (offsets n members)[i]? = some o) (hmem' : members[j]? = some mem')
    (ho' : (offsets n members)[j]? = some o') : o + mem.size ≤ o' := by
  cases (offsets_getElem? hmem).symm.trans ho
  cases (offsets_getElem? hmem').symm.trans ho'
  rw [← finish_take_succ hmem]
  exact (finish_take_le hij).trans (le_roundUp _ _)

def Alignment (a : Nat) : Prop := a = 0 ∨ ∃ k, a = 2 ^ k

theorem Alignment.max (ha : Alignment a) (hb : Alignment b) : Alignment (max a b) := by
  rcases Nat.le_total a b with h | h
  · rwa [Nat.max_eq_right h]
  · rwa [Nat.max_eq_left h]

theorem Alignment.dvd (ha : Alignment a) (hb : Alignment b) (hpos : 0 < a) (hle : a ≤ b) : a ∣ b := by
  rcases ha with rfl | ⟨i, rfl⟩
  · exact absurd hpos (Nat.lt_irrefl 0)
  rcases hb with rfl | ⟨j, rfl⟩
  · exact Nat.dvd_zero _
  · exact Nat.pow_dvd_pow 2 ((Nat.pow_le_pow_iff_right (by decide)).mp hle)

namespace Struct

structure Regular (s : Struct) : Prop where
  header : Alignment s.header
  members : ∀ mem ∈ s.members, Alignment mem.align

theorem finish_le_size (s : Struct) : s.finish ≤ s.size := le_roundUp _ _

theorem size_eq (s : Struct) : s.finish + (s.largest - s.finish % s.largest) % s.largest = s.size := rfl

theorem largest_extend (s : Struct) (more : List Member) :
    (s.extend more).largest = more.foldl (fun n mem => max n mem.align) s.largest := List.foldl_append

theorem le_foldl_max (n : Nat) (members : List Member) :
    n ≤ members.foldl (fun n mem => max n mem.align) n ∧
      ∀ mem ∈ members, mem.align ≤ members.foldl (fun n mem => max n mem.align) n := by
  induction members generalizing n with
  | nil => exact ⟨Nat.le_refl n, fun _ h => absurd h List.not_mem_nil⟩
  | cons mem rest ih =>
    obtain ⟨hle, hrest⟩ := ih (max n mem.align)
    refine ⟨(Nat.le_max_left _ _).trans hle, List.forall_mem_cons.mpr ⟨(Nat.le_max_right _ _).trans hle, hrest⟩⟩

theorem align_le_largest (h : mem ∈ s.members) : mem.align ≤ s.largest := (le_foldl_max s.header s.members).2 mem h

theorem largest_le_extend (s : Struct) (more : List Member) : s.largest ≤ (s.extend more).largest := by
  rw [largest_extend]
  exact (le_foldl_max s.largest more).1

theorem Regular.extend (h : s.Regular) (hmore : ∀ mem ∈ more, Alignment mem.align) : (s.extend more).Regular :=
  ⟨h.header, fun mem hmem => (List.mem_append.mp hmem).elim (h.members mem) (hmore mem)⟩

theorem Regular.largest (h : s.Regular) : Alignment s.largest := by
  obtain ⟨header, members⟩ := s
  obtain ⟨hheader, hmembers⟩ := h
  show Alignment (members.foldl _ header)
  induction members generalizing header with
  | nil => exact hheader
  | cons mem rest ih =>
    obtain ⟨hmem, hrest⟩ := List.forall_mem_cons.mp hmembers
    exact ih (max header mem.align) (hheader.max hmem) hrest

theorem Regular.align_dvd (h : s.Regular) (hmem : mem ∈ s.members) (hpos : 0 < mem.align) :
    mem.align ∣ s.largest ∧ mem.align ∣ s.size := by
  have hle := align_le_largest hmem
  have hdvd := (h.members mem hmem).dvd h.largest hpos hle
  exact ⟨hdvd, hdvd.trans (dvd_roundUp (Nat.lt_of_lt_of_le hpos hle))⟩

/-- Members at offsets: one behind the other, between the header and the end, and aligned wherever the structure is. -/
structure Placed (header size largest : Nat) (members : List Member) (offsets : List Nat) : Prop where
  count : offsets.length = members.length
  apart : ∀ (i j : Nat) (mem : Member) o o', i < j → members[i]? = some mem → offsets[i]? = some o →
    offsets[j]? = some o' → o + mem.size ≤ o'
  inside : ∀ (i : Nat) (mem : Member) o, members[i]? = some mem → offsets[i]? = some o →
    header ≤ o ∧ o + mem.size ≤ size
  aligned : ∀ (i : Nat) (mem : Member) o, members[i]? = some mem → offsets[i]? = some o → 0 < mem.align →
    mem.align ∣ o ∧ mem.align ∣ largest ∧ mem.align ∣ size

theorem Regular.placed (h : s.Regular) : Placed s.header s.size s.largest s.members s.offsets where
  count := length_offsets
  apart i j mem o o' hij hmem ho ho' := by
    have hlt := (List.getElem?_eq_some_iff.mp ho').1
    rw [show s.offsets.length = s.members.length from length_offsets] at hlt
    exact offsets_disjoint hij hmem ho (List.getElem?_eq_getElem hlt) ho'
  inside i mem o hmem ho := by
    obtain ⟨hle, -, hend⟩ := offsets_spec hmem ho
    exact ⟨hle, hend.trans s.finish_le_size⟩
  aligned i mem o hmem ho halign := by
    obtain ⟨-, hdvd, -⟩ := offsets_spec hmem ho
    exact ⟨hdvd halign, h.align_dvd (List.mem_of_getElem? hmem) halign⟩

theorem Regular.size_le_extend (h : s.Regular) (h' : (s.extend more).Regular) : s.size ≤ (s.extend more).size := by
  have hfinish : s.finish ≤ (s.extend more).finish := by
    show _ ≤ StructLayout.finish s.header (s.members ++ more)
    rw [finish_append]
    exact le_finish _ _
  have hend := hfinish.trans (s.extend more).finish_le_size
  have hlargest := s.largest_le_extend more
  rcases Nat.eq_zero_or_pos s.largest with hzero | hpos
  · rw [Struct.size, hzero, roundUp_zero]
    exact hend
  · exact roundUp_le hend ((h.largest.dvd h'.largest hpos hlargest).trans (dvd_roundUp (hpos.trans_le hlargest)))

end Struct

end StructLayout
