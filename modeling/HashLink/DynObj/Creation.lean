import HashLink.DynObj.Invariant
import Mathlib.Data.List.Forall2

/-! The objects a program starts from have the invariant: an empty one, the one a virtual with data
of its own becomes, and a copy. -/

namespace HashLink

namespace DynObj

open FlatMemory

theorem inv_alloc (mem : Memory) : Inv (DynState.hlAllocDynobj mem) where
  layout := ⟨List.Pairwise.nil, by simp [DynState.hlAllocDynobj], by simp [DynState.hlAllocDynobj],
    by simp [DynState.hlAllocDynobj], by simp [DynState.hlAllocDynobj]⟩
  arrays := Or.inl (Int.le_refl _)
  started b hb := by cases b <;> exact absurd hb (Nat.lt_irrefl 0)
  views v hv := by cases hv

/-! ### The lookup of the value of a virtual -/

/-- Entries that fill the two arrays from `start` up to `stop`, each after the ones before it. -/
structure Packs (start : Bool → Nat) (l : List DynField) (stop : Bool → Nat) : Prop where
  le : ∀ b, start b ≤ stop b
  inside : ∀ f ∈ l, start f.isPtr ≤ f.offset ∧ f.offset + f.width ≤ stop f.isPtr
  ordered : l.Pairwise fun f g => f.isPtr = g.isPtr → f.offset + f.width ≤ g.offset

variable {f : DynField} {l : List DynField}

theorem Packs.cons {start next stop : Bool → Nat} (h : Packs next l stop) (hstart : start f.isPtr ≤ f.offset)
    (hnext : next f.isPtr = f.offset + f.width) (hother : next (!f.isPtr) = start (!f.isPtr)) :
    Packs start (f :: l) stop := by
  have hle : ∀ b, start b ≤ next b := by
    intro b
    by_cases hb : b = f.isPtr
    · rw [hb, hnext]
      omega
    · exact Nat.le_of_eq (by rw [Bool.eq_not_of_ne hb, hother])
  constructor
  case le => exact fun b => Nat.le_trans (hle b) (h.le b)
  case inside =>
    refine List.forall_mem_cons.mpr ⟨⟨hstart, hnext ▸ h.le f.isPtr⟩, fun g hg => ?_⟩
    exact ⟨Nat.le_trans (hle _) (h.inside g hg).1, (h.inside g hg).2⟩
  case ordered =>
    refine List.pairwise_cons.mpr ⟨fun g hg hsame => ?_, h.ordered⟩
    rw [← hnext, hsame]
    exact (h.inside g hg).1

theorem Packs.apart {start stop : Bool → Nat} (h : Packs start l stop) {g : DynField} (hf : f ∈ l)
    (hg : g ∈ l) (hne : f.hash ≠ g.hash) (hsame : f.isPtr = g.isPtr) :
    f.offset + f.width ≤ g.offset ∨ g.offset + g.width ≤ f.offset := by
  obtain ⟨i, hi, rfl⟩ := List.getElem_of_mem hf
  obtain ⟨j, hj, rfl⟩ := List.getElem_of_mem hg
  have hordered := List.pairwise_iff_getElem.mp h.ordered
  rcases Nat.lt_trichotomy i j with hij | rfl | hij
  · exact Or.inl (hordered i j hi hj hij hsame)
  · exact absurd rfl hne
  · exact Or.inr (hordered j i hj hi hij hsame.symm)

/-- Where the next field goes in each array. -/
def filled (nvalues rawSize : Nat) (isPtr : Bool) : Nat := if isPtr then 8 * nvalues else rawSize

theorem makeLookup_spec {lookup : List VLookup} {i nvalues rawSize : Nat} {n r : Nat}
    (h : DynState.makeLookup lookup i nvalues rawSize = some (l, n, r)) :
    List.Forall₂ (fun f vf => f.hash = vf.hash ∧ f.t = vf.t) l lookup ∧
      (∀ f ∈ l, f.index ≤ indexMask) ∧ Packs (filled nvalues rawSize) l (filled n r) := by
  induction lookup generalizing i nvalues rawSize l n r with
  | nil =>
    cases h
    exact ⟨List.Forall₂.nil, by simp, fun _ => Nat.le_refl _, by simp, List.Pairwise.nil⟩
  | cons vf rest ih =>
    rw [DynState.makeLookup] at h
    by_cases hptr : vf.t.kind.isPtr
    · simp only [hptr, if_true] at h
      split at h
      · cases h
      · rename_i hmask
        obtain ⟨⟨l', n', r'⟩, hrest, heq⟩ := Option.map_eq_some_iff.mp h
        cases heq
        obtain ⟨hsame, hindexed, hpacks⟩ := ih hrest
        refine ⟨List.Forall₂.cons ⟨rfl, rfl⟩ hsame,
          List.forall_mem_cons.mpr ⟨Nat.le_of_not_lt hmask, hindexed⟩, hpacks.cons ?_ ?_ ?_⟩
        all_goals simp [DynField.isPtr, DynField.offset, DynField.width, filled, hptr]
        omega
    · simp only [hptr, Bool.false_eq_true, if_false] at h
      split at h
      · cases h
      · rename_i hmask
        obtain ⟨⟨l', n', r'⟩, hrest, heq⟩ := Option.map_eq_some_iff.mp h
        cases heq
        obtain ⟨hsame, hindexed, hpacks⟩ := ih hrest
        refine ⟨List.Forall₂.cons ⟨rfl, rfl⟩ hsame,
          List.forall_mem_cons.mpr ⟨Nat.le_of_not_lt hmask, hindexed⟩, hpacks.cons ?_ ?_ ?_⟩
        all_goals
          simp [DynField.isPtr, DynField.offset, DynField.width, DynField.size, filled, hptr]

/-! ### Data that moves from the virtual to its value -/

theorem bindLoop_slots (o : DynState) {pairs : List (DynField × VLookup)} (mem : Memory)
    (slots : List Int) (hnodup : (pairs.map fun p => p.2.index).Nodup) :
    (DynState.bindLoop o pairs mem slots).2.length = slots.length ∧ (∀ p ∈ pairs, p.2.index < slots.length →
        (DynState.bindLoop o pairs mem slots).2[p.2.index]? = some (o.addr p.1)) ∧
      ∀ j, (∀ p ∈ pairs, p.2.index ≠ j) → (DynState.bindLoop o pairs mem slots).2[j]? = slots[j]? := by
  induction pairs generalizing mem slots with
  | nil => exact ⟨rfl, by simp, fun _ _ => rfl⟩
  | cons p rest ih =>
    rw [List.map_cons, List.nodup_cons] at hnodup
    obtain ⟨hfresh, hnodup⟩ := hnodup
    rw [DynState.bindLoop]
    obtain ⟨hlength, hset, hkeep⟩ := ih (copyBytes mem (o.addr p.1) (slots.getD p.2.index 0) p.1.size)
      (slots.set p.2.index (o.addr p.1)) hnodup
    rw [List.length_set] at hlength hset
    refine ⟨hlength, List.forall_mem_cons.mpr ⟨fun hlt => ?_, hset⟩, fun j hj => ?_⟩
    · rw [hkeep p.2.index fun q hq heq => hfresh (heq ▸ List.mem_map_of_mem hq)]
      exact List.getElem?_set_self hlt
    · rw [hkeep j fun q hq => hj q (List.mem_cons_of_mem p hq),
        List.getElem?_set_ne (hj p List.mem_cons_self)]

theorem bindLoop_mem (o : DynState) (pairs : List (DynField × VLookup)) (base : Int) (size : Nat)
    (mem : Memory) (slots : List Int) (hnodup : (pairs.map fun p => p.2.index).Nodup)
    (hinline : ∀ p ∈ pairs, Apart (o.addr p.1) p.1.size base size)
    (hapart : pairs.Pairwise fun p q => Apart (o.addr p.1) p.1.size (o.addr q.1) q.1.size)
    (hsrc : ∀ p ∈ pairs, base ≤ slots.getD p.2.index 0 ∧ slots.getD p.2.index 0 + p.1.size ≤ base + size) :
    (∀ p ∈ pairs, bytes (DynState.bindLoop o pairs mem slots).1 (o.addr p.1) p.1.size =
      bytes mem (slots.getD p.2.index 0) p.1.size) ∧
    ∀ a n, (∀ p ∈ pairs, Apart a n (o.addr p.1) p.1.size) →
      bytes (DynState.bindLoop o pairs mem slots).1 a n = bytes mem a n := by
  induction pairs generalizing mem slots with
  | nil => exact ⟨by simp, fun _ _ _ => rfl⟩
  | cons p rest ih =>
    rw [List.map_cons, List.nodup_cons] at hnodup
    rw [List.pairwise_cons] at hapart
    obtain ⟨hfresh, hnodup⟩ := hnodup
    obtain ⟨hhead, hapart⟩ := hapart
    have hslot : ∀ q ∈ rest, (slots.set p.2.index (o.addr p.1)).getD q.2.index 0 =
        slots.getD q.2.index 0 := by
      intro q hq
      have hne : p.2.index ≠ q.2.index := fun heq =>
        hfresh (List.mem_map.mpr ⟨q, hq, heq.symm⟩)
      rw [List.getD_eq_getElem?_getD, List.getElem?_set_ne hne, ← List.getD_eq_getElem?_getD]
    obtain ⟨hcopied, hframe⟩ := ih (copyBytes mem (o.addr p.1) (slots.getD p.2.index 0) p.1.size)
      (slots.set p.2.index (o.addr p.1)) hnodup
      (fun q hq => hinline q (List.mem_cons_of_mem p hq)) hapart
      (fun q hq => by
        rw [hslot q hq]
        exact hsrc q (List.mem_cons_of_mem p hq))
    rw [DynState.bindLoop]
    refine ⟨List.forall_mem_cons.mpr ⟨?_, fun q hq => ?_⟩, fun a n ha => ?_⟩
    · rw [hframe _ _ hhead]
      exact bytes_copyBytes_self
    · rw [hcopied q hq, hslot q hq]
      have hsrcq := hsrc q (List.mem_cons_of_mem p hq)
      exact bytes_copyBytes_of_apart ((hinline p List.mem_cons_self).symm.part hsrcq.1 hsrcq.2
        (Int.le_refl _) (Int.le_refl _))
    · rw [hframe a n fun q hq => ha q (List.mem_cons_of_mem p hq)]
      exact bytes_copyBytes_of_apart (ha p List.mem_cons_self)

variable {valuesAt base : Int} {vf : VField} {vt : VirtType} {mem : Memory}

theorem eraseLoop_frame {size : Nat} {l : List (VField × Nat)} (mem : Memory)
    (hinside : ∀ p ∈ l, p.2 + p.1.t.kind.size ≤ size) {a : Int} {n : Nat} (h : Apart a n base size) :
    bytes (DynState.eraseLoop base l mem) a n = bytes mem a n := by
  induction l generalizing mem with
  | nil => rfl
  | cons p rest ih =>
    have hp := hinside p List.mem_cons_self
    rw [DynState.eraseLoop, ih _ fun q hq => hinside q (List.mem_cons_of_mem p hq)]
    exact bytes_writeBytes_of_apart (h.part (Int.le_refl _) (Int.le_refl _) (by omega) (by omega))

theorem initIndexes_spec (fields : List VField) (size : Nat) :
    (initIndexes fields size).1.length = fields.length ∧ size ≤ (initIndexes fields size).2 ∧
      ∀ p ∈ fields.zip (initIndexes fields size).1, p.2 + p.1.t.kind.size ≤ (initIndexes fields size).2 := by
  induction fields generalizing size with
  | nil => exact ⟨rfl, Nat.le_refl _, by simp [initIndexes]⟩
  | cons vf rest ih =>
    obtain ⟨hlength, hle, hinside⟩ := ih (size + hlPadStruct size vf.t.kind + vf.t.kind.size)
    rw [initIndexes]
    simp only [List.length_cons, List.zip_cons_cons]
    exact ⟨congrArg (· + 1) hlength, by omega, List.forall_mem_cons.mpr ⟨hle, hinside⟩⟩

section MakeValue

variable {vt : VirtType} (hvt : vt.Proper) {l : List DynField}
  (hsame : List.Forall₂ (fun f vf => f.hash = vf.hash ∧ f.t = vf.t) l (initLookup vt.fields))
include hvt hsame

theorem sorted_of_same : SortedTable.Sorted DynField.hash l := by
  have hkeys : l.map DynField.hash = (initLookup vt.fields).map VLookup.hash := by
    rw [← List.forall₂_eq_eq_eq, List.forall₂_map_left_iff, List.forall₂_map_right_iff]
    exact hsame.imp fun _ _ h => h.1
  have hsorted := List.pairwise_map.mpr hvt.initLookup_spec.1
  rw [← hkeys] at hsorted
  exact List.pairwise_map.mp hsorted

omit hsame in
theorem initLookup_index_nodup : ((initLookup vt.fields).map VLookup.index).Nodup := by
  obtain ⟨hsorted, hmem⟩ := hvt.initLookup_spec
  refine List.pairwise_map.mpr (hsorted.imp_of_mem fun {a b} ha hb hlt heq => ?_)
  have hget := (hmem a).mp ha
  rw [heq, (hmem b).mp hb] at hget
  cases a
  cases b
  cases hget
  exact Int.lt_irrefl _ hlt

theorem exists_pair {i : Nat} (hvf : vt.fields[i]? = some vf) :
    ∃ f, (f, ⟨vf.hash, vf.t, i⟩) ∈ l.zip (initLookup vt.fields) ∧ f ∈ l ∧ f.hash = vf.hash ∧ f.t = vf.t := by
  obtain ⟨hlength, hzip⟩ := List.forall₂_iff_zip.mp hsame
  have hmem : (⟨vf.hash, vf.t, i⟩ : VLookup) ∈ initLookup vt.fields :=
    (hvt.initLookup_spec.2 _).mpr hvf
  obtain ⟨k, hk, hget⟩ := List.getElem_of_mem hmem
  have hkl : k < l.length := by omega
  have hpair : (l[k], ⟨vf.hash, vf.t, i⟩) ∈ l.zip (initLookup vt.fields) := by
    rw [← hget, ← List.getElem_zip (h := by simp; omega)]
    exact List.getElem_mem _
  exact ⟨l[k], hpair, List.getElem_mem hkl, hzip hpair⟩

theorem pair_field {p : DynField × VLookup} (hp : p ∈ l.zip (initLookup vt.fields)) :
    p.1 ∈ l ∧ p.1.hash = p.2.hash ∧ p.1.t = p.2.t ∧ vt.fields[p.2.index]? = some ⟨p.2.hash, p.2.t⟩ := by
  have heq := (List.forall₂_iff_zip.mp hsame).2 hp
  exact ⟨(List.of_mem_zip hp).1, heq.1, heq.2, (hvt.initLookup_spec.2 p.2).mp (List.of_mem_zip hp).2⟩

theorem pairs_index_nodup :
    ((l.zip (initLookup vt.fields)).map fun p => p.2.index).Nodup := by
  have hsnd := List.map_snd_zip (Nat.le_of_eq hsame.length_eq.symm)
  have hindex := initLookup_index_nodup hvt
  rw [← hsnd, List.map_map] at hindex
  exact hindex

theorem pairs_sorted :
    (l.zip (initLookup vt.fields)).Pairwise fun p q => p.1.hash < q.1.hash := by
  have hfst := List.map_fst_zip (Nat.le_of_eq hsame.length_eq)
  have hsorted := sorted_of_same hvt hsame
  rw [← hfst, SortedTable.Sorted, List.pairwise_map] at hsorted
  exact hsorted

theorem layout_of_packs {extent : Bool → Nat} (hindexed : ∀ f ∈ l, f.index ≤ indexMask)
    (hpacks : Packs (filled 0 0) l extent) : Layout l extent where
  sorted := sorted_of_same hvt hsame
  valued f hf := by
    obtain ⟨k, hk, rfl⟩ := List.getElem_of_mem hf
    have hk' : k < (initLookup vt.fields).length := hsame.length_eq ▸ hk
    have hpair : (l[k], (initLookup vt.fields)[k]) ∈ l.zip (initLookup vt.fields) := by
      rw [← List.getElem_zip (h := by simp; omega)]
      exact List.getElem_mem _
    obtain ⟨-, -, ht, hfield⟩ := pair_field hvt hsame hpair
    rw [ht]
    exact hvt.valued _ (List.mem_of_getElem? hfield)
  indexed := hindexed
  bounded f hf := (hpacks.inside f hf).2
  apart _ hf _ hg hne hptr := hpacks.apart hf hg hne hptr

end MakeValue

theorem indexes_spec (vt : VirtType) :
    vt.indexes.1.length = vt.fields.length ∧
      ∀ p ∈ vt.fields.zip vt.indexes.1, p.2 + p.1.t.kind.size ≤ vt.indexes.2 := by
  obtain ⟨hlength, -, hinside⟩ := initIndexes_spec vt.fields (24 + hlWSize * vt.fields.length)
  exact ⟨hlength, hinside⟩

theorem exists_index {i : Nat} (hvf : vt.fields[i]? = some vf) :
    ∃ ix, vt.indexes.1[i]? = some ix ∧ ix + vf.t.kind.size ≤ vt.indexes.2 := by
  obtain ⟨hlength, hinside⟩ := indexes_spec vt
  obtain ⟨hi, rfl⟩ := List.getElem?_eq_some_iff.mp hvf
  have hi' : i < vt.indexes.1.length := hlength.symm ▸ hi
  refine ⟨_, List.getElem?_eq_getElem hi', hinside (vt.fields[i], vt.indexes.1[i]) ?_⟩
  rw [← List.getElem_zip (h := by
    rw [List.length_zip]
    exact Nat.lt_min.mpr ⟨hi, hi'⟩)]
  exact List.getElem_mem _

theorem allocAt_apart {a b : Int} {m n : Nat} (ha : 0 < a) (hb : 0 < b) (h : Apart a (8 * m) b n) :
    Apart (DynState.allocAt a m) (8 * m) (DynState.allocAt b n) n := by
  unfold DynState.allocAt
  split <;> split
  · exact Or.inl (by omega)
  · exact Or.inl (by omega)
  · exact Or.inr (by omega)
  · exact h

theorem apart_allocAt {a b : Int} {m n : Nat} (ha : 0 ≤ a) (h : Apart a m b n) :
    Apart a m (DynState.allocAt b n) n := by
  unfold DynState.allocAt
  split
  · exact Or.inr (by omega)
  · exact h

theorem inv_of_arrays (nvalues rawSize : Nat) {rawAt : Int} (hlayout : Layout l (filled nvalues rawSize))
    (hraw : 0 < rawAt) (hvalues : 0 < valuesAt) (hapart : Apart rawAt rawSize valuesAt (8 * nvalues))
    (mem : Memory) :
    Inv ⟨mem, l, DynState.allocAt valuesAt nvalues, nvalues, DynState.allocAt rawAt rawSize, rawSize, []⟩ where
  layout := hlayout
  arrays := allocAt_apart hvalues hraw hapart.symm
  started b hb := by
    cases b
    · have hne : rawSize ≠ 0 := Nat.pos_iff_ne_zero.mp hb
      exact lt_of_lt_of_eq hraw (if_neg hne).symm
    · have hne : nvalues ≠ 0 := by
        rintro rfl
        exact Nat.lt_irrefl 0 hb
      exact lt_of_lt_of_eq hvalues (if_neg hne).symm
  views v hv := by cases hv

theorem addr_apart {nvalues rawSize : Nat} {rawAt : Int} (hlayout : Layout l (filled nvalues rawSize))
    {size : Nat} (hraw : Apart rawAt rawSize base size) (hvalues : Apart valuesAt (8 * nvalues) base size)
    (hf : f ∈ l) :
    Apart (DynState.addr ⟨mem, l, DynState.allocAt valuesAt nvalues, nvalues,
      DynState.allocAt rawAt rawSize, rawSize, []⟩ f) f.width base size := by
  have hbound := hlayout.bounded f hf
  have hwidth := DynField.width_pos (hlayout.valued f hf)
  unfold filled DynField.offset at hbound
  unfold DynState.addr DynState.allocAt
  by_cases hptr : f.isPtr
  · simp only [hptr, if_true] at hbound ⊢
    rw [if_neg (by omega)]
    exact hvalues.part (by omega) (by omega) (Int.le_refl _) (Int.le_refl _)
  · simp only [hptr, Bool.false_eq_true, if_false] at hbound ⊢
    rw [if_neg (by omega)]
    exact hraw.part (by omega) (by omega) (Int.le_refl _) (Int.le_refl _)

section Bind

variable {o : DynState} (hinv : Inv o) {vt : VirtType} (hvt : vt.Proper) {base : Int}
  (hsame : List.Forall₂ (fun f vf => f.hash = vf.hash ∧ f.t = vf.t) o.lookup (initLookup vt.fields))
  (hinline : ∀ f ∈ o.lookup, Apart (o.addr f) f.width base vt.indexes.2) (mem : Memory)
include hinv hvt hsame

theorem bind_shows :
    Shows [⟨vt, (DynState.bindLoop o (o.lookup.zip (initLookup vt.fields)) mem
      (vt.indexes.1.map fun (i : Nat) => base + i)).2⟩] o.slotOf := by
  obtain ⟨hlength, hset, -⟩ := bindLoop_slots o mem (vt.indexes.1.map fun (i : Nat) => base + i)
    (pairs_index_nodup hvt hsame)
  rw [List.length_map] at hlength hset
  intro v hv
  rw [List.mem_singleton] at hv
  subst hv
  refine ⟨hvt, List.ext_getElem? fun i => ?_⟩
  rw [List.getElem?_map]
  cases hvf : vt.fields[i]? with
  | none =>
    rw [Option.map_none, List.getElem?_eq_none_iff]
    rw [List.getElem?_eq_none_iff] at hvf
    exact Nat.le_trans (Nat.le_of_eq (hlength.trans (indexes_spec vt).1)) hvf
  | some vf =>
    obtain ⟨f, hpair, hf, hhash, ht⟩ := exists_pair hvt hsame hvf
    obtain ⟨ix, hix, -⟩ := exists_index hvf
    rw [hset _ hpair (List.getElem?_eq_some_iff.mp hix).1, Option.map_some, DynState.slotOf,
      hinv.find_iff.mpr ⟨hf, hhash⟩]
    simp only [ht, if_true]

include hinline

theorem bind_mem :
    (∀ p ∈ o.lookup.zip (initLookup vt.fields),
      bytes (DynState.bindLoop o (o.lookup.zip (initLookup vt.fields)) mem
        (vt.indexes.1.map fun (i : Nat) => base + i)).1 (o.addr p.1) p.1.size =
      bytes mem ((vt.indexes.1.map fun (i : Nat) => base + i).getD p.2.index 0) p.1.size) ∧
    ∀ a n, (∀ p ∈ o.lookup.zip (initLookup vt.fields), Apart a n (o.addr p.1) p.1.size) →
      bytes (DynState.bindLoop o (o.lookup.zip (initLookup vt.fields)) mem
        (vt.indexes.1.map fun (i : Nat) => base + i)).1 a n = bytes mem a n := by
  refine bindLoop_mem o (o.lookup.zip (initLookup vt.fields)) base vt.indexes.2 mem _
    (pairs_index_nodup hvt hsame) (fun p hp => ?_) ?_ (fun p hp => ?_)
  · have hle := p.1.size_le_width
    exact (hinline p.1 (pair_field hvt hsame hp).1).part (Int.le_refl _) (by omega) (Int.le_refl _) (Int.le_refl _)
  · refine (pairs_sorted hvt hsame).imp_of_mem fun {p q} hp hq hlt => ?_
    have hp' := (pair_field hvt hsame hp).1
    have hq' := (pair_field hvt hsame hq).1
    have hle := p.1.size_le_width
    have hle' := q.1.size_le_width
    exact (hinv.fields_apart hp' hq' (Int.ne_of_lt hlt)).part (Int.le_refl _) (by omega)
      (Int.le_refl _) (by omega)
  · obtain ⟨-, -, hpt, hfield⟩ := pair_field hvt hsame hp
    obtain ⟨jx, hjx, hinside⟩ := exists_index hfield
    have hsize : p.1.size = p.2.t.kind.size := by rw [DynField.size, hpt]
    rw [List.getD_eq_getElem?_getD, List.getElem?_map, hjx, hsize]
    simp only [Option.map_some, Option.getD_some] at hinside ⊢
    exact ⟨by omega, by omega⟩

omit hinv hvt hsame in
theorem erase_frame (hf : f ∈ o.lookup) {n : Nat} (hn : n ≤ f.width) (mem : Memory) :
    bytes (DynState.eraseLoop base (vt.fields.zip vt.indexes.1) mem) (o.addr f) n = bytes mem (o.addr f) n := by
  refine eraseLoop_frame mem (indexes_spec vt).2 ?_
  exact (hinline f hf).part (Int.le_refl _) (by omega) (Int.le_refl _) (Int.le_refl _)

theorem bind_value {i ix : Nat} (hvf : vt.fields[i]? = some vf) (hix : vt.indexes.1[i]? = some ix) :
    ∃ f, o.find vf.hash = some f ∧ f.t = vf.t ∧ bytes (DynState.eraseLoop base (vt.fields.zip vt.indexes.1)
        (DynState.bindLoop o (o.lookup.zip (initLookup vt.fields)) mem
          (vt.indexes.1.map fun (i : Nat) => base + i)).1) (o.addr f) vf.t.kind.size =
        bytes mem (base + ix) vf.t.kind.size := by
  obtain ⟨f, hpair, hf, hhash, ht⟩ := exists_pair hvt hsame hvf
  refine ⟨f, hinv.find_iff.mpr ⟨hf, hhash⟩, ht, ?_⟩
  have hfsize : f.size = vf.t.kind.size := by rw [DynField.size, ht]
  have hmoved := (bind_mem hinv hvt hsame hinline mem).1 _ hpair
  rw [List.getD_eq_getElem?_getD, List.getElem?_map, hix] at hmoved
  rw [← hfsize, erase_frame hinline hf f.size_le_width]
  exact hmoved

theorem bind_unsized (hf : f ∈ o.lookup) (hsize : f.size = 0) :
    bytes (DynState.eraseLoop base (vt.fields.zip vt.indexes.1)
      (DynState.bindLoop o (o.lookup.zip (initLookup vt.fields)) mem
        (vt.indexes.1.map fun (i : Nat) => base + i)).1) (o.addr f) f.width =
      bytes mem (o.addr f) f.width := by
  rw [erase_frame hinline hf (Nat.le_refl _)]
  refine (bind_mem hinv hvt hsame hinline mem).2 _ _ fun p hp => ?_
  have hp' := (pair_field hvt hsame hp).1
  by_cases hhash : f.hash = p.1.hash
  · rw [← hinv.layout.sorted.eq_of_key hf hp' hhash, hsize]
    exact .inr (by omega)
  · have hle := p.1.size_le_width
    exact (hinv.fields_apart hf hp' hhash).part (Int.le_refl _) (Int.le_refl _) (Int.le_refl _) (by omega)

end Bind

/-- The value of a virtual has the invariant, and the data the virtual had. Nothing is copied to a
field whose type has no bytes. -/
theorem makeValue_data (hvt : vt.Proper) {rawAt : Int} {o : DynState}
    (h : DynState.hlVirtualMakeValue vt base mem rawAt valuesAt = some o) :
    Inv o ∧ (∀ (i : Nat) (vf : VField) (ix : Nat), vt.fields[i]? = some vf → vt.indexes.1[i]? = some ix →
      ∃ f, o.find vf.hash = some f ∧ f.t = vf.t ∧
        bytes o.mem (o.addr f) vf.t.kind.size = bytes mem (base + ix) vf.t.kind.size) ∧
      ∀ f ∈ o.lookup, f.size = 0 → o.contents f = bytes mem (o.addr f) f.width := by
  unfold DynState.hlVirtualMakeValue at h
  simp only at h
  split at h
  · cases h
  · rename_i l nvalues rawSize hmake
    split at h
    · rename_i hfresh
      obtain ⟨hrawPos, hvaluesPos, hrawInline, hvaluesInline, harrays⟩ := hfresh
      obtain ⟨hsame, hindexed, hpacks⟩ := makeLookup_spec hmake
      have hlayout := layout_of_packs hvt hsame hindexed hpacks
      have hinv := inv_of_arrays nvalues rawSize hlayout hrawPos hvaluesPos harrays mem
      cases h
      exact ⟨⟨hinv.layout, hinv.arrays, hinv.started, bind_shows hinv hvt hsame mem⟩,
        fun i vf ix hvf hix => bind_value hinv hvt hsame
          (fun f hf => addr_apart hlayout hrawInline hvaluesInline hf) mem hvf hix,
        fun f hf hsize => bind_unsized hinv hvt hsame
          (fun f hf => addr_apart hlayout hrawInline hvaluesInline hf) mem hf hsize⟩
    · cases h

theorem makeValue_spec (hvt : vt.Proper) {rawAt : Int} {o : DynState}
    (h : DynState.hlVirtualMakeValue vt base mem rawAt valuesAt = some o) :
    Inv o ∧ ∀ (i : Nat) (vf : VField) (ix : Nat), vt.fields[i]? = some vf → vt.indexes.1[i]? = some ix →
      ∃ f, o.find vf.hash = some f ∧ f.t = vf.t ∧
        bytes o.mem (o.addr f) vf.t.kind.size = bytes mem (base + ix) vf.t.kind.size :=
  ⟨(makeValue_data hvt h).1, (makeValue_data hvt h).2.1⟩

theorem copy_spec {o c : DynState} (ho : Inv o) {rawAt : Int} (h : o.hlObjCopy rawAt valuesAt = some c) :
    Inv c ∧ ∀ k, c.value k = o.value k := by
  unfold DynState.hlObjCopy at h
  split at h
  · rename_i hfresh
    obtain ⟨hraw, hvalues, harrays⟩ := hfresh
    cases h
    have hinv := inv_of_arrays o.nvalues o.rawSize ho.layout hraw.1 hvalues.1 harrays o.mem
    refine ⟨⟨hinv.layout, hinv.arrays, hinv.started, fun v hv => by cases hv⟩, fun k => ?_⟩
    refine DynState.value_congr (g := id) Option.map_id_apply.symm fun f hf => ⟨rfl, ?_⟩
    have hmem := (ho.find_iff.mp hf).1
    have hbound := ho.layout.bounded f hmem
    have hpos := ho.addr_pos hmem
    have hwidth := DynField.width_pos (ho.layout.valued f hmem)
    unfold DynState.contents DynState.addr
    unfold DynState.addr at hpos
    unfold DynField.offset DynState.extent at hbound
    by_cases hptr : f.isPtr
    · simp only [hptr, if_true, id] at hbound hpos ⊢
      have hvaluesAt : DynState.allocAt valuesAt o.nvalues = valuesAt := if_neg (by omega)
      rw [hvaluesAt, bytes_copyBytes (by omega) (by omega)]
      refine bytes_copyBytes_of_apart (apart_allocAt (Int.le_of_lt hpos) ?_)
      exact hraw.2.1.symm.part (by omega) (by omega) (Int.le_refl _) (Int.le_refl _)
    · simp only [hptr, Bool.false_eq_true, if_false, id] at hbound hpos ⊢
      have hrawAt : DynState.allocAt rawAt o.rawSize = rawAt := if_neg (by omega)
      have hrawPos := hraw.1
      have hother : Apart (rawAt + (f.index : Int)) f.width (DynState.allocAt valuesAt o.nvalues)
          (8 * o.nvalues) :=
        (allocAt_apart hvalues.1 hrawPos harrays.symm).symm.part (by rw [hrawAt]; omega)
          (by rw [hrawAt]; omega) (Int.le_refl _) (Int.le_refl _)
      rw [hrawAt, bytes_copyBytes_of_apart hother, bytes_copyBytes (by omega) (by omega)]
  · cases h

end DynObj

end HashLink
