import HashLink.DynObj.Compaction
import Mathlib.Data.List.InsertIdx

/-! What a deletion, an addition and a change of type do to an object: the invariant stays, and so
does the value of every other field. -/

namespace HashLink

namespace DynObj

open FlatMemory

/-- The entry that is left of a field when `f` is deleted. -/
def afterDelete (f g : DynField) : DynField :=
  { g with
    index := if f.isPtr ∧ g.isPtr ∧ f.index < g.index then g.index - 1 else g.index
    order := if f.order < g.order then g.order - 1 else g.order }

variable {f g : DynField}

section Delete

variable {o : DynState} {i : Nat} {f : DynField}

theorem eraseData_of_ptr (hptr : f.isPtr) : o.eraseData f = o.dropValue f.index := if_pos hptr

theorem eraseData_of_raw (hptr : ¬f.isPtr) : o.eraseData f = o := if_neg hptr

theorem delete_lookup (o : DynState) (i : Nat) (f : DynField) :
    (o.hlDynobjDeleteField i f).lookup = (o.lookup.eraseIdx i).map (afterDelete f) := by
  have hdef : (o.hlDynobjDeleteField i f).lookup = ((o.eraseData f).lookup.eraseIdx i).map fun g =>
      if f.order < g.order then { g with order := g.order - 1 } else g := rfl
  rw [hdef]
  by_cases hptr : f.isPtr
  · rw [eraseData_of_ptr hptr, DynState.dropValue, List.eraseIdx_map, List.map_map]
    refine List.map_congr_left fun g _ => ?_
    simp only [Function.comp, afterDelete, hptr, true_and]
    split <;> split <;> rfl
  · rw [eraseData_of_raw hptr]
    refine List.map_congr_left fun g _ => ?_
    simp only [afterDelete, hptr]
    split <;> rfl

theorem delete_nvalues (o : DynState) (i : Nat) (f : DynField) :
    (o.hlDynobjDeleteField i f).nvalues = if f.isPtr then o.nvalues - 1 else o.nvalues := by
  have hdef : (o.hlDynobjDeleteField i f).nvalues = (o.eraseData f).nvalues := rfl
  rw [hdef, DynState.eraseData]
  split <;> rfl

theorem delete_base (o : DynState) (i : Nat) (f : DynField) (b : Bool) :
    (o.hlDynobjDeleteField i f).base b = o.base b := by
  have hdef : (o.hlDynobjDeleteField i f).base b = (o.eraseData f).base b := rfl
  rw [hdef, DynState.eraseData]
  split <;> rfl

theorem delete_rawSize (o : DynState) (i : Nat) (f : DynField) :
    (o.hlDynobjDeleteField i f).rawSize = o.rawSize := by
  have hdef : (o.hlDynobjDeleteField i f).rawSize = (o.eraseData f).rawSize := rfl
  rw [hdef, DynState.eraseData]
  split <;> rfl

theorem delete_extent_le (o : DynState) (i : Nat) (f : DynField) (b : Bool) :
    (o.hlDynobjDeleteField i f).extent b ≤ o.extent b := by
  unfold DynState.extent
  rw [delete_nvalues, delete_rawSize]
  split
  · split
    · omega
    · exact Nat.le_refl _
  · exact Nat.le_refl _

theorem afterDelete_offset (f g : DynField) :
    (afterDelete f g).offset =
      if f.isPtr ∧ g.isPtr ∧ f.index < g.index then g.offset - 8 else g.offset := by
  unfold afterDelete DynField.offset DynField.isPtr
  by_cases hg : g.t.kind.isPtr
  · simp only [hg, if_true, true_and]
    split
    · omega
    · rfl
  · simp only [hg]
    simp

theorem delete_addr (o : DynState) (i : Nat) :
    (o.hlDynobjDeleteField i f).addr (afterDelete f g) =
      if f.isPtr ∧ g.isPtr ∧ f.index < g.index then o.addr g - 8 else o.addr g := by
  have hptr : (afterDelete f g).isPtr = g.isPtr := rfl
  rw [DynState.addr_eq, DynState.addr_eq, delete_base, afterDelete_offset, hptr]
  split
  · rename_i hmoved
    have hoffset : 8 ≤ g.offset := by
      unfold DynField.offset
      rw [if_pos hmoved.2.1]
      omega
    omega
  · rfl

variable (h : Inv o) (hget : o.lookup[i]? = some f)
include h hget

theorem delete_find (k : Int) :
    (o.hlDynobjDeleteField i f).find k =
      if k = f.hash then none else (o.find k).map (afterDelete f) := by
  have hsorted := h.layout.sorted
  unfold DynState.find
  rw [delete_lookup, SortedTable.find_map (g := afterDelete f) (hsorted.eraseIdx i) (fun _ _ => rfl),
    SortedTable.find_eraseIdx hsorted hget]
  split
  · rfl
  · rfl

theorem index_ne (hg : g ∈ o.lookup) (hne : g.hash ≠ f.hash) (hfp : f.isPtr) (hgp : g.isPtr) :
    g.index ≠ f.index := by
  have hapart := h.layout.apart g hg f (List.mem_of_getElem? hget) hne (hgp.trans hfp.symm)
  unfold DynField.offset DynField.width at hapart
  simp only [hfp, hgp, if_true] at hapart
  omega

theorem delete_layout :
    Layout (o.hlDynobjDeleteField i f).lookup (o.hlDynobjDeleteField i f).extent := by
  rw [delete_lookup]
  have hmem : ∀ g, g ∈ o.lookup.eraseIdx i ↔ g ∈ o.lookup ∧ g.hash ≠ f.hash :=
    fun g => SortedTable.mem_eraseIdx h.layout.sorted hget
  refine (h.layout.sub (List.eraseIdx_sublist _ i)).map (fun _ _ => rfl) (fun _ _ => rfl) ?_ ?_ ?_
  · intro g _
    simp only [afterDelete]
    split
    · omega
    · exact Nat.le_refl _
  · intro g hg
    obtain ⟨hg, hne⟩ := (hmem g).mp hg
    have hbound := h.layout.bounded g hg
    have hf := h.layout.bounded f (List.mem_of_getElem? hget)
    have hindex := index_ne h hget hg hne
    have hwidth : (afterDelete f g).width = g.width := rfl
    rw [afterDelete_offset, hwidth]
    unfold DynState.extent at hbound hf ⊢
    rw [delete_nvalues, delete_rawSize]
    unfold DynField.offset DynField.width at hbound hf ⊢
    by_cases hfp : f.isPtr <;> by_cases hgp : g.isPtr <;>
      simp only [hfp, hgp, if_true, true_and, false_and, if_false, Bool.false_eq_true] at hbound hf hindex ⊢
    · have := hindex trivial trivial
      split <;> omega
    · exact hbound
    · exact hbound
    · exact hbound
  · intro g hg g' hg' hne hsame
    obtain ⟨hg, hgf⟩ := (hmem g).mp hg
    obtain ⟨hg', hgf'⟩ := (hmem g').mp hg'
    have hapart := h.layout.apart g hg g' hg' hne hsame
    have hindex := index_ne h hget hg hgf
    have hindex' := index_ne h hget hg' hgf'
    have hwidth : (afterDelete f g).width = g.width := rfl
    have hwidth' : (afterDelete f g').width = g'.width := rfl
    rw [afterDelete_offset, afterDelete_offset, hwidth, hwidth']
    unfold DynField.offset DynField.width at hapart ⊢
    by_cases hfp : f.isPtr <;> by_cases hgp : g'.isPtr <;>
      simp only [hfp, hgp, hsame, if_true, true_and, false_and, if_false, Bool.false_eq_true]
        at hapart hindex hindex' ⊢
    · have := hindex trivial trivial
      have := hindex' trivial trivial
      split <;> split <;> omega
    · exact hapart
    · exact hapart
    · exact hapart

theorem delete_contents (hg : g ∈ o.lookup) (hne : g.hash ≠ f.hash) :
    (o.hlDynobjDeleteField i f).contents (afterDelete f g) = o.contents g := by
  have hwidth : (afterDelete f g).width = g.width := rfl
  have hdef : (o.hlDynobjDeleteField i f).mem = (o.eraseData f).mem := rfl
  unfold DynState.contents
  rw [delete_addr, hwidth, hdef]
  by_cases hfp : f.isPtr
  · rw [eraseData_of_ptr hfp, DynState.dropValue]
    have hbound := h.layout.bounded g hg
    have hf := h.layout.bounded f (List.mem_of_getElem? hget)
    have harrays : Apart o.values (8 * o.nvalues) o.raw o.rawSize := h.arrays
    unfold DynState.extent DynField.offset DynField.width at hbound hf
    simp only [hfp, if_true] at hf
    unfold DynField.width DynState.addr
    by_cases hgp : g.isPtr
    · have hindex := index_ne h hget hg hne hfp hgp
      simp only [hgp, hfp, if_true, true_and] at hbound ⊢
      have hlast : Apart (if f.index < g.index then o.values + 8 * (g.index : Int) - 8
          else o.values + 8 * (g.index : Int)) 8 (o.values + 8 * ((o.nvalues - 1 : Nat) : Int)) 8 := by
        refine Or.inl ?_
        split <;> omega
      rw [bytes_writeBytes_of_apart hlast]
      split
      · -- the word moved down with those after the deleted one
        have hdst : o.values + 8 * (g.index : Int) - 8 =
            o.values + 8 * (f.index : Int) + 8 * ((g.index : Int) - f.index - 1) := by omega
        have hsrc : o.values + 8 * (g.index : Int) =
            o.values + 8 * ((f.index + 1 : Nat) : Int) + 8 * ((g.index : Int) - f.index - 1) := by omega
        rw [hdst, bytes_copyBytes (by omega) (by omega), ← hsrc]
      · exact bytes_copyBytes_of_apart (Or.inl (by omega))
    · simp only [hgp, if_false, Bool.false_eq_true, and_false, false_and] at hbound ⊢
      have hother : Apart (o.raw + (g.index : Int)) g.size o.values (8 * o.nvalues) :=
        harrays.symm.part (by omega) (by omega) (Int.le_refl _) (Int.le_refl _)
      rw [bytes_writeBytes_of_apart (hother.part (by omega) (by omega) (by omega) (by omega)),
        bytes_copyBytes_of_apart (hother.part (by omega) (by omega) (by omega) (by omega))]
  · rw [eraseData_of_raw hfp, if_neg (fun hmoved => hfp hmoved.1)]

theorem delete_shows :
    Shows (o.hlDynobjDeleteField i f).virtuals (o.hlDynobjDeleteField i f).slotOf := by
  have hvalues : (o.eraseData f).values = o.values := by
    have := delete_base o i f true
    exact this
  have hvirtuals : (o.eraseData f).virtuals = o.virtuals := by
    rw [DynState.eraseData]
    split <;> rfl
  have hshows : Shows (o.hlDynobjDeleteField i f).virtuals fun vf =>
      let s := if vf.hash = f.hash then 0 else o.slotOf vf
      if f.isPtr ∧ vf.t.kind.isPtr ∧ s ≠ 0 ∧ o.values + 8 * f.index < s then s - 8 else s := by
    intro v hv
    obtain ⟨w, hw, rfl⟩ := List.mem_map.mp hv
    rw [hvirtuals] at hw
    have hset : (w.setSlot f.hash fun _ => 0).slots = (w.setSlot f.hash fun _ => 0).t.fields.map
        fun vf => if vf.hash = f.hash then 0 else o.slotOf vf := by
      rw [View.setSlot_t]
      exact View.setSlot_slots (h.views w hw).1 (h.views w hw).2 f.hash fun _ => 0
    by_cases hfp : f.isPtr
    · simp only [hfp, if_true, true_and, View.shift_t, hvalues]
      exact ⟨(View.setSlot_t (v := w) _ _).symm ▸ (h.views w hw).1, View.shift_slots hset _⟩
    · exact ⟨by simpa [hfp] using (h.views w hw).1, by simpa [hfp] using hset⟩
  refine hshows.congr fun vf => ?_
  unfold DynState.slotOf
  rw [delete_find h hget]
  by_cases hhash : vf.hash = f.hash
  · simp [hhash]
  · simp only [hhash, if_false]
    cases hfind : o.find vf.hash with
    | none => simp
    | some g =>
      obtain ⟨hg, hgh⟩ := h.find_iff.mp hfind
      have hpos := h.addr_pos hg
      have ht : (afterDelete f g).t = g.t := rfl
      simp only [Option.map_some, ht]
      by_cases hsame : vf.t = g.t
      · have hptr : vf.t.kind.isPtr = g.isPtr := by rw [hsame, DynField.isPtr]
        have hindex := index_ne h hget hg (hgh ▸ hhash)
        rw [if_pos hsame, if_pos hsame, delete_addr, hptr]
        by_cases hmoved : f.isPtr ∧ g.isPtr
        · have haddr : o.addr g = o.values + 8 * g.index := if_pos hmoved.2
          have hindex := hindex hmoved.1 hmoved.2
          simp only [hmoved, true_and, haddr]
          rw [haddr] at hpos
          split <;> split <;> omega
        · rw [if_neg (fun hc => hmoved ⟨hc.1, hc.2.1⟩), if_neg (fun hc => hmoved ⟨hc.1, hc.2.1⟩)]
      · simp [hsame]

theorem delete_spec :
    Inv (o.hlDynobjDeleteField i f) ∧
      ∀ k, (o.hlDynobjDeleteField i f).value k = if k = f.hash then none else o.value k := by
  refine ⟨⟨delete_layout h hget, ?_, ?_, delete_shows h hget⟩, fun k => ?_⟩
  · rw [delete_base, delete_base]
    have htrue := delete_extent_le o i f true
    have hfalse := delete_extent_le o i f false
    exact h.arrays.part (Int.le_refl _) (by omega) (Int.le_refl _) (by omega)
  · intro b hb
    rw [delete_base]
    exact h.started b (Nat.lt_of_lt_of_le hb (delete_extent_le o i f b))
  · have hfind := delete_find h hget k
    split
    · rename_i hk
      rw [if_pos hk] at hfind
      rw [DynState.value, hfind, Option.map_none]
    · rename_i hk
      rw [if_neg hk] at hfind
      refine DynState.value_congr hfind fun g hg => ⟨rfl, ?_⟩
      obtain ⟨hmem, rfl⟩ := h.find_iff.mp hg
      exact delete_contents h hget hmem hk

end Delete

theorem Layout.put {l : List DynField} {extent extent' : Bool → Nat} (h : Layout l extent)
    (hle : ∀ b, extent b ≤ extent' b) {i : Nat}
    (hsorted : SortedTable.Sorted DynField.hash (l.take i ++ f :: l.drop i)) (hvoid : f.t.kind ≠ .hVoid)
    (hmask : f.index ≤ indexMask) (hstart : extent f.isPtr ≤ f.offset)
    (hend : f.offset + f.width ≤ extent' f.isPtr) : Layout (l.take i ++ f :: l.drop i) extent' := by
  have hafter : ∀ g ∈ l, g.isPtr = f.isPtr → g.offset + g.width ≤ f.offset := by
    intro g hg hsame
    have hbound := h.bounded g hg
    rw [hsame] at hbound
    exact Nat.le_trans hbound hstart
  constructor
  case sorted => exact hsorted
  case valued =>
    intro g hg
    rcases SortedTable.mem_put.mp hg with rfl | hg
    · exact hvoid
    · exact h.valued g hg
  case indexed =>
    intro g hg
    rcases SortedTable.mem_put.mp hg with rfl | hg
    · exact hmask
    · exact h.indexed g hg
  case bounded =>
    intro g hg
    rcases SortedTable.mem_put.mp hg with rfl | hg
    · exact hend
    · exact Nat.le_trans (h.bounded g hg) (hle _)
  case apart =>
    intro g hg g' hg' hne hsame
    rcases SortedTable.mem_put.mp hg with hgf | hmem <;>
      rcases SortedTable.mem_put.mp hg' with hgf' | hmem'
    · exact absurd (hgf ▸ hgf' ▸ rfl) hne
    · exact Or.inr (hgf ▸ hafter g' hmem' (hgf ▸ hsame.symm))
    · exact Or.inl (hgf' ▸ hafter g hmem (hgf' ▸ hsame))
    · exact h.apart g hmem g' hmem' hne hsame

/-- A state whose views still show the fields of `x`, of which one array was moved and grew. -/
structure Grown (x o : DynState) (isPtr : Bool) : Prop where
  lookup : o.lookup = x.lookup
  virtuals : o.virtuals = x.virtuals
  base : o.base (!isPtr) = x.base (!isPtr)
  extent : ∀ b, x.extent b ≤ o.extent b
  arrays : Apart (o.base true) (o.extent true) (o.base false) (o.extent false)
  started : ∀ b, 0 < o.extent b → 0 < o.base b
  layout : Layout x.lookup x.extent
  positive : ∀ g ∈ x.lookup, 0 < x.addr g
  shows_ : Shows x.virtuals x.slotOf

theorem addEntry_spec {x o : DynState} (hash : Int) {t : HlTy} (index : Nat) (offset : Int)
    (hgrown : Grown x o t.kind.isPtr) (hoffset : offset = o.base t.kind.isPtr - x.base t.kind.isPtr)
    (hf : (o.addEntry hash t index offset).2 = f) (hnew : x.find hash = none) (hvoid : t.kind ≠ .hVoid)
    (hmask : index ≤ indexMask) (hstart : x.extent t.kind.isPtr ≤ f.offset)
    (hend : f.offset + f.width ≤ o.extent t.kind.isPtr) :
    Inv (o.addEntry hash t index offset).1 ∧ (o.addEntry hash t index offset).1.find hash = some f ∧
      ∀ k, k ≠ hash → (o.addEntry hash t index offset).1.value k = o.value k := by
  have hfh : f.hash = hash := hf ▸ rfl
  have hft : f.t = t := hf ▸ rfl
  have hfi : f.index = index := hf ▸ rfl
  have hfp : f.isPtr = t.kind.isPtr := hf ▸ rfl
  have hlookup : (o.addEntry hash t index offset).1.lookup =
      x.lookup.take (SortedTable.place DynField.hash x.lookup hash) ++
        f :: x.lookup.drop (SortedTable.place DynField.hash x.lookup hash) :=
    hf ▸ hgrown.lookup ▸ rfl
  have hkeys : ∀ g ∈ x.lookup, g.hash ≠ f.hash := by
    intro g hg
    rw [hfh]
    exact (SortedTable.find_eq_none_iff hgrown.layout.sorted).mp hnew g hg
  have hsorted := SortedTable.sorted_place hgrown.layout.sorted hkeys
  rw [hfh] at hsorted
  have hfind : ∀ k, (o.addEntry hash t index offset).1.find k =
      if k = hash then some f else x.find k := by
    intro k
    have hput := SortedTable.find_put hgrown.layout.sorted hsorted k
    rw [hfh, ← hlookup] at hput
    exact hput
  refine ⟨⟨?_, hgrown.arrays, hgrown.started, ?_⟩, ?_, ?_⟩
  · rw [hlookup]
    exact hgrown.layout.put hgrown.extent hsorted (hft ▸ hvoid) (hfi ▸ hmask) (hfp ▸ hstart) (hfp ▸ hend)
  · have hshows : Shows o.virtuals x.slotOf := hgrown.virtuals ▸ hgrown.shows_
    have hremap := shows_remap (o := { o with lookup := (o.addEntry hash t index offset).1.lookup })
      hshows f offset
    have hvirtuals : (o.addEntry hash t index offset).1.virtuals = (DynState.hlDynobjRemapVirtuals
          { o with lookup := (o.addEntry hash t index offset).1.lookup } f offset).virtuals := hf ▸ rfl
    rw [hvirtuals]
    refine hremap.congr fun vf => ?_
    unfold DynState.slotOf
    rw [hfind, hfh]
    by_cases hhash : vf.hash = hash
    · rw [if_pos hhash, if_pos hhash]
      rfl
    · rw [if_neg hhash, if_neg hhash]
      cases hold : x.find vf.hash with
      | none => simp
      | some g =>
        have hpos := hgrown.positive g (SortedTable.find_some hold).1
        have haddr : (o.addEntry hash t index offset).1.addr g = o.addr g := rfl
        simp only [haddr]
        by_cases hsame : vf.t = g.t
        · have hptr : vf.t.kind.isPtr = g.isPtr := by rw [hsame, DynField.isPtr]
          rw [if_pos hsame, if_pos hsame, hptr]
          rw [x.addr_eq] at hpos ⊢
          rw [o.addr_eq]
          by_cases hmoved : g.isPtr = f.isPtr
          · rw [if_pos ⟨by omega, hmoved⟩, hoffset, hmoved, hfp]
            omega
          · have hother : g.isPtr = !t.kind.isPtr := by
              rw [hfp] at hmoved
              exact Bool.eq_not_of_ne hmoved
            rw [if_neg (fun hc => hmoved hc.2), hother, hgrown.base]
        · simp [hsame]
  · rw [hfind, if_pos rfl]
  · intro k hk
    have hfind' : (o.addEntry hash t index offset).1.find k = o.find k := by
      rw [hfind, if_neg hk, DynState.find, DynState.find, hgrown.lookup]
    unfold DynState.value
    rw [hfind']
    rfl

/-- What an operation that makes a field `f` leaves: the field, and the others as they were. -/
def Makes (o o' : DynState) (hash : Int) (t : HlTy) (f : DynField) : Prop :=
  Inv o' ∧ o'.find hash = some f ∧ f.t = t ∧ ∀ k, k ≠ hash → o'.value k = o.value k

section Add

variable {o : DynState} (h : Inv o) {hash : Int} {t : HlTy} {newData : Int}
include h

theorem grown_values (hfresh : o.Fresh newData (8 * (o.nvalues + 1))) (mem : Memory) :
    Grown o { o with mem, values := newData, nvalues := o.nvalues + 1 } true where
  lookup := rfl
  virtuals := rfl
  base := rfl
  extent b := by
    cases b
    · exact Nat.le_refl _
    · exact Nat.mul_le_mul_left 8 (Nat.le_succ _)
  arrays := hfresh.2.2
  started b hb := by
    cases b
    · exact h.started false hb
    · exact hfresh.1
  layout := h.layout
  positive _ hg := h.addr_pos hg
  shows_ := h.views

theorem values_contents (hfresh : o.Fresh newData (8 * (o.nvalues + 1))) (hg : g ∈ o.lookup) :
    DynState.contents { o with
      mem := writeBytes (copyBytes o.mem newData o.values (8 * o.nvalues))
        (newData + 8 * o.nvalues) 8 fun _ => 0
      values := newData
      nvalues := o.nvalues + 1 } g = o.contents g := by
  have hbound := h.layout.bounded g hg
  unfold DynState.contents DynState.addr
  by_cases hptr : g.isPtr
  · simp only [DynField.offset, DynField.width, DynState.extent, hptr, if_true] at hbound ⊢
    rw [bytes_writeBytes_of_apart (Or.inl (by omega)), bytes_copyBytes (by omega) (by omega)]
  · simp only [DynField.offset, DynField.width, DynState.extent, hptr, Bool.false_eq_true, if_false]
      at hbound ⊢
    have hapart : Apart (o.raw + g.index) g.size newData (8 * (o.nvalues + 1)) :=
      hfresh.2.2.symm.part (by omega) (by omega) (Int.le_refl _) (Int.le_refl _)
    rw [bytes_writeBytes_of_apart (hapart.part (by omega) (by omega) (by omega) (by omega)),
      bytes_copyBytes_of_apart (hapart.part (by omega) (by omega) (by omega) (by omega))]

theorem add_ptr (hnew : o.find hash = none) (hptr : t.kind.isPtr) (hmask : o.nvalues ≤ indexMask)
    (hfresh : o.Fresh newData (8 * (o.nvalues + 1))) {o₁ : DynState}
    (ho₁ : o₁ = { o with
      mem := writeBytes (copyBytes o.mem newData o.values (8 * o.nvalues))
        (newData + 8 * o.nvalues) 8 fun _ => 0
      values := newData
      nvalues := o.nvalues + 1 }) :
    Makes o (o₁.addEntry hash t o.nvalues (newData - o.values)).1 hash t
      (o₁.addEntry hash t o.nvalues (newData - o.values)).2 := by
  have hvoid : t.kind ≠ .hVoid := by
    intro hv
    rw [hv] at hptr
    cases hptr
  have hgrown : Grown o o₁ t.kind.isPtr := by
    rw [ho₁, hptr]
    exact grown_values h hfresh _
  obtain ⟨hinv, hfind, hvalue⟩ := addEntry_spec hash o.nvalues (newData - o.values) hgrown (by
      rw [ho₁, hptr]
      rfl)
    rfl hnew hvoid hmask
    (by simp [DynState.addEntry, DynField.offset, DynField.isPtr, DynState.extent, hptr])
    (by
      rw [ho₁]
      simp only [DynState.addEntry, DynField.offset, DynField.width, DynField.isPtr, DynState.extent,
        hptr, if_true]
      omega)
  refine ⟨hinv, hfind, rfl, fun k hk => ?_⟩
  rw [hvalue k hk, ho₁]
  refine DynState.value_congr (g := id) Option.map_id_apply.symm fun g hg => ⟨rfl, ?_⟩
  exact values_contents h hfresh (h.find_iff.mp hg).1

theorem add_raw (hnew : o.find hash = none) (hptr : ¬t.kind.isPtr) (hvoid : t.kind ≠ .hVoid)
    {o₁ : DynState} {size pad : Nat} (hmoved : Moved o o₁ newData size)
    (hmask : size + pad ≤ indexMask)
    (hfresh : o.Fresh newData (size + pad + t.kind.size)) {o₂ : DynState}
    (ho₂ : o₂ = { o₁ with raw := newData, rawSize := o₁.rawSize + pad + t.kind.size }) :
    Makes o (o₂.addEntry hash t (o₁.rawSize + pad) (newData - o₁.raw)).1 hash t
      (o₂.addEntry hash t (o₁.rawSize + pad) (newData - o₁.raw)).2 := by
  have hfp : t.kind.isPtr = false := by simpa using hptr
  have hgrown : Grown o₁ o₂ t.kind.isPtr := by
    rw [ho₂, hfp]
    constructor
    case lookup => rfl
    case virtuals => rfl
    case base => rfl
    case extent =>
      intro b
      cases b
      · show o₁.rawSize ≤ o₁.rawSize + pad + t.kind.size
        omega
      · exact Nat.le_refl _
    case arrays =>
      show Apart o₁.values (8 * o₁.nvalues) newData (o₁.rawSize + pad + t.kind.size)
      rw [hmoved.values, hmoved.nvalues, hmoved.rawSize]
      exact hfresh.2.1.symm
    case started =>
      intro b hb
      cases b
      · exact hfresh.1
      · have hstarted := h.started true
        simp only [DynState.extent, DynState.base, if_true] at hb hstarted ⊢
        rw [hmoved.nvalues] at hb
        rw [hmoved.values]
        exact hstarted hb
    case layout => exact hmoved.layout
    case positive => exact hmoved.positive
    case shows_ => exact hmoved.shows_
  have hnone : o₁.find hash = none := by
    have hvalue := hmoved.value hash
    rw [DynState.value, DynState.value, hnew, Option.map_none, Option.map_eq_none_iff] at hvalue
    exact hvalue
  obtain ⟨hinv, hfind, hvalue⟩ := addEntry_spec hash (o₁.rawSize + pad) (newData - o₁.raw) hgrown (by
      rw [ho₂, hfp]
      rfl)
    rfl hnone hvoid (hmoved.rawSize.symm ▸ hmask)
    (by
      simp only [DynState.addEntry, DynField.offset, DynField.isPtr, DynState.extent, hfp,
        Bool.false_eq_true, if_false]
      omega)
    (by
      rw [ho₂]
      simp only [DynState.addEntry, DynField.offset, DynField.width, DynField.isPtr, DynState.extent,
        DynField.size, hfp, Bool.false_eq_true, if_false]
      omega)
  refine ⟨hinv, hfind, rfl, fun k hk => ?_⟩
  rw [hvalue k hk, ho₂, ← hmoved.value k]
  rfl

theorem add_spec (hnew : o.find hash = none) (hvoid : t.kind ≠ .hVoid) {o' : DynState}
    (hadd : o.hlDynobjAddField hash t newData = some (o', f)) :
    Makes o o' hash t f := by
  unfold DynState.hlDynobjAddField at hadd
  split at hadd
  · rename_i hptr
    simp only at hadd
    split at hadd
    · cases hadd
    · rename_i hmask
      split at hadd
      · rename_i hfresh
        have hmake := add_ptr h hnew hptr (Nat.le_of_not_lt hmask) hfresh rfl
        rw [Option.some.inj hadd] at hmake
        exact hmake
      · cases hadd
  · rename_i hptr
    simp only at hadd
    split at hadd
    · cases hadd
    · rename_i hmask
      split at hadd
      · rename_i hfresh
        have hmask := Nat.le_of_not_lt hmask
        have hmoved := moved_moveRaw h (hfresh.mono (by omega)) (by omega)
        have hmake := add_raw h hnew hptr hvoid hmoved hmask hfresh rfl
        rw [Option.some.inj hadd] at hmake
        exact hmake
      · cases hadd

end Add

section Retype

variable {o : DynState} (h : Inv o) {i : Nat} {f : DynField} (hget : o.lookup[i]? = some f) {t : HlTy}
  (hptr : t.kind.isPtr = f.isPtr) (hsize : t.kind.size = f.size) (hvoid : t.kind ≠ .hVoid)
include h hget hptr hsize hvoid

theorem layout_retype : Layout (o.lookup.set i { f with t }) o.extent := by
  have hsorted := h.layout.sorted
  have hf := List.mem_of_getElem? hget
  have hptr' : DynField.isPtr { f with t } = f.isPtr := hptr
  have hoffset : DynField.offset { f with t } = f.offset := by
    unfold DynField.offset
    rw [hptr']
  have hwidth : DynField.width { f with t } = f.width := by
    have hsize' : DynField.size { f with t } = f.size := hsize
    unfold DynField.width
    rw [hptr', hsize']
  have hold : ∀ g ∈ o.lookup.set i { f with t }, ∃ g' ∈ o.lookup, g.hash = g'.hash ∧
      g.index = g'.index ∧ g.isPtr = g'.isPtr ∧ g.offset = g'.offset ∧ g.width = g'.width := by
    intro g hg
    rcases (SortedTable.mem_set hsorted hget).mp hg with rfl | ⟨hg, -⟩
    · exact ⟨f, hf, rfl, rfl, hptr, hoffset, hwidth⟩
    · exact ⟨g, hg, rfl, rfl, rfl, rfl, rfl⟩
  constructor
  case sorted => exact hsorted.set hget rfl
  case valued =>
    intro g hg
    rcases (SortedTable.mem_set hsorted hget).mp hg with rfl | ⟨hg, -⟩
    · exact hvoid
    · exact h.layout.valued g hg
  case indexed =>
    intro g hg
    obtain ⟨g', hg', -, hindex, -⟩ := hold g hg
    rw [hindex]
    exact h.layout.indexed g' hg'
  case bounded =>
    intro g hg
    obtain ⟨g', hg', -, -, hp, ho, hw⟩ := hold g hg
    rw [hp, ho, hw]
    exact h.layout.bounded g' hg'
  case apart =>
    intro g hg k hk hne hsame
    obtain ⟨g', hg', hgh, -, hgp, hgo, hgw⟩ := hold g hg
    obtain ⟨k', hk', hkh, -, hkp, hko, hkw⟩ := hold k hk
    rw [hgo, hgw, hko, hkw]
    exact h.layout.apart g' hg' k' hk' (hgh ▸ hkh ▸ hne) (hgp ▸ hkp ▸ hsame)

theorem retype_spec :
    Makes o (DynState.hlDynobjRemapVirtuals { o with lookup := o.lookup.set i { f with t } }
      { f with t } 0) f.hash t { f with t } := by
  have hfind : ∀ k, SortedTable.find DynField.hash (o.lookup.set i { f with t }) k =
      if k = f.hash then some { f with t } else o.find k :=
    fun k => SortedTable.find_set (b := { f with t }) h.layout.sorted hget rfl k
  refine ⟨⟨layout_retype h hget hptr hsize hvoid, h.arrays, h.started, ?_⟩, ?_, rfl, fun k hk => ?_⟩
  · have hremap := shows_remap (o := { o with lookup := o.lookup.set i { f with t } }) h.views
      { f with t } 0
    refine hremap.congr fun vf => ?_
    simp only [DynState.slotOf, DynState.find, DynState.hlDynobjRemapVirtuals, Int.add_zero, ite_self]
    rw [hfind]
    by_cases hhash : vf.hash = f.hash
    · rw [if_pos hhash, if_pos hhash]
      rfl
    · rw [if_neg hhash, if_neg hhash]
      rfl
  · exact (hfind f.hash).trans (if_pos rfl)
  · have hfind' := hfind k
    rw [if_neg hk] at hfind'
    unfold DynState.value
    exact congrArg (Option.map fun f => (f.t, o.contents f)) hfind'

end Retype

section Set

variable {o : DynState} (h : Inv o) (hash : Int) {t : HlTy} (hvoid : t.kind ≠ .hVoid) (newData : Int)
include h hvoid

theorem lookupSet_spec :
    (∃ o' f, o.hlObjLookupSet hash t newData = (o', some f) ∧ Makes o o' hash t f) ∨
      ∃ o', o.hlObjLookupSet hash t newData = (o', none) ∧ Inv o' ∧ ∀ k, k ≠ hash → o'.value k = o.value k := by
  have hadd : ∀ x : DynState, Inv x → x.find hash = none → (∀ k, k ≠ hash → x.value k = o.value k) →
      (∃ o' f, x.hlDynobjAddField hash t newData = some (o', f) ∧ Makes o o' hash t f) ∨
        x.hlDynobjAddField hash t newData = none := by
    intro x hx hnew hvalue
    cases hres : x.hlDynobjAddField hash t newData with
    | none => exact Or.inr rfl
    | some p =>
      obtain ⟨hinv, hfind, ht, hkeep⟩ := add_spec hx hnew hvoid hres
      exact Or.inl ⟨p.1, p.2, rfl, hinv, hfind, ht, fun k hk => (hkeep k hk).trans (hvalue k hk)⟩
  unfold DynState.hlObjLookupSet
  cases hidx : SortedTable.findIdx DynField.hash o.lookup hash with
  | none =>
    have hnone : o.find hash = none := by rw [DynState.find, SortedTable.find, hidx, Option.bind_none]
    rcases hadd o h hnone (fun _ _ => rfl) with ⟨o', f, hres, hmake⟩ | hres
    · exact Or.inl ⟨o', f, by simp only [hres], hmake⟩
    · exact Or.inr ⟨o, by simp only [hres], h, fun _ _ => rfl⟩
  | some i =>
    obtain ⟨f, hget, rfl⟩ := SortedTable.findIdx_some hidx
    simp only [hget]
    by_cases hsame : hlSameType t f.t
    · refine Or.inl ⟨o, f, by rw [if_pos hsame], h, ?_, (hlSameType_iff.mp hsame).symm, fun _ _ => rfl⟩
      exact SortedTable.find_of_findIdx hidx hget
    · rw [if_neg hsame]
      by_cases hother : t.kind.isPtr ≠ f.isPtr ∨ t.kind.size ≠ f.size
      · rw [if_pos hother]
        obtain ⟨hinv, hvalue⟩ := delete_spec h hget
        have hnone : (o.hlDynobjDeleteField i f).find f.hash = none := by
          have := hvalue f.hash
          rwa [if_pos rfl, DynState.value, Option.map_eq_none_iff] at this
        have hkeep : ∀ k, k ≠ f.hash → (o.hlDynobjDeleteField i f).value k = o.value k := by
          intro k hk
          rw [hvalue, if_neg hk]
        rcases hadd _ hinv hnone hkeep with ⟨o', f', hres, hmake⟩ | hres
        · exact Or.inl ⟨o', f', by simp only [hres], hmake⟩
        · exact Or.inr ⟨_, by simp only [hres], hinv, hkeep⟩
      · rw [if_neg hother]
        simp only [not_or, ne_eq, not_not] at hother
        exact Or.inl ⟨_, _, rfl, retype_spec h hget hother.1 hother.2 hvoid⟩

theorem setField_spec (value : Nat → UInt8) :
    Inv (o.setField hash t newData value).1 ∧
      (∀ k, k ≠ hash → (o.setField hash t newData value).1.value k = o.value k) ∧
      ((o.setField hash t newData value).2 = true → (o.setField hash t newData value).1.value hash =
          some (t, (List.range t.width).map value)) := by
  unfold DynState.setField
  rcases lookupSet_spec h hash hvoid newData with
    ⟨o', f, heq, hinv, hfind, rfl, hkeep⟩ | ⟨o', heq, hinv, hkeep⟩
  · rw [heq]
    have hwrite := value_write hinv hfind value
    refine ⟨inv_mem hinv _, fun k hk => ?_, fun _ => ?_⟩
    · rw [hwrite, if_neg hk]
      exact hkeep k hk
    · rw [hwrite, if_pos rfl]
      rfl
  · rw [heq]
    exact ⟨hinv, hkeep, fun hc => by cases hc⟩

end Set

end DynObj

end HashLink
