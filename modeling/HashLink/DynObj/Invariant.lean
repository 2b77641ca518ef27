import HashLink.DynObj.Model

/-! What the views of an object show. All views on an object show the same thing of a field: a
function from the fields of a view to addresses gives the slots of every one of them, and each
change `obj.c` makes to the slots is a change of that function.

The invariant of a dynamic object: the fields lie in their arrays, apart from each other, and
every view shows the address of each field it shares with the object. A field is at an offset in one
of two arrays, and the lemmas are about both alike. -/

namespace HashLink

namespace DynObj

open FlatMemory

mutual

theorem hlSameType_iff : ∀ {t t' : HlTy}, hlSameType t t' = true ↔ t = t'
  | .basic k, .basic k' => by simp [hlSameType]
  | .param k t, .param k' t' => by simp [hlSameType, hlSameType_iff (t := t)]
  | .func k args ret, .func k' args' ret' => by
    simp [hlSameType, hlSameArgs_iff (l := args), hlSameType_iff (t := ret), and_assoc]
  | .named k id, .named k' id' => by simp [hlSameType]
  | .basic _, .param .. | .basic _, .func .. | .basic _, .named .. => by simp [hlSameType]
  | .param .., .basic _ | .param .., .func .. | .param .., .named .. => by simp [hlSameType]
  | .func .., .basic _ | .func .., .param .. | .func .., .named .. => by simp [hlSameType]
  | .named .., .basic _ | .named .., .param .. | .named .., .func .. => by simp [hlSameType]

theorem hlSameArgs_iff : ∀ {l l' : List HlTy}, hlSameArgs l l' = true ↔ l = l'
  | [], [] => by simp [hlSameArgs]
  | t :: l, t' :: l' => by simp [hlSameArgs, hlSameType_iff (t := t), hlSameArgs_iff (l := l)]
  | [], _ :: _ => by simp [hlSameArgs]
  | _ :: _, [] => by simp [hlSameArgs]

end

instance : DecidableEq HlTy := fun _ _ => decidable_of_iff _ hlSameType_iff

theorem initLookup_eq (fields : List VField) :
    initLookup fields = (fields.zipIdx.map fun p => (⟨p.1.hash, p.1.t, p.2⟩ : VLookup)).foldl
      (SortedTable.insert VLookup.hash) [] := by
  rw [initLookup, List.foldl_map]

variable {f : DynField} {hash : Int} {o : DynState}

namespace VirtType.Proper

variable {vt : VirtType} (hvt : vt.Proper)
include hvt

theorem initLookup_spec :
    SortedTable.Sorted VLookup.hash (initLookup vt.fields) ∧
      ∀ e, e ∈ initLookup vt.fields ↔ vt.fields[e.index]? = some ⟨e.hash, e.t⟩ := by
  have hkeys : (vt.fields.zipIdx.map fun p => (⟨p.1.hash, p.1.t, p.2⟩ : VLookup)).map VLookup.hash
      = vt.fields.map VField.hash := by
    rw [List.map_map]
    nth_rewrite 2 [← List.zipIdx_map_fst 0 vt.fields]
    rw [List.map_map]
    rfl
  obtain ⟨hsorted, hmem⟩ := SortedTable.foldl_insert VLookup.hash (l := [])
    List.Pairwise.nil (hkeys ▸ hvt.nodup) (by simp)
  rw [initLookup_eq]
  refine ⟨hsorted, fun e => ?_⟩
  rw [hmem, List.mem_map]
  constructor
  · rintro (h | ⟨p, hp, rfl⟩)
    · cases h
    · exact List.mem_zipIdx_iff_getElem?.mp hp
  · intro h
    exact Or.inr ⟨(⟨e.hash, e.t⟩, e.index), List.mem_zipIdx_iff_getElem?.mpr h, rfl⟩

theorem find_eq_some {e : VLookup} :
    vt.find hash = some e ↔ vt.fields[e.index]? = some ⟨e.hash, e.t⟩ ∧ e.hash = hash := by
  obtain ⟨hsorted, hmem⟩ := hvt.initLookup_spec
  rw [VirtType.find, SortedTable.find_iff hsorted, hmem]

theorem find_eq_none : vt.find hash = none ↔ ∀ vf ∈ vt.fields, vf.hash ≠ hash := by
  obtain ⟨hsorted, hmem⟩ := hvt.initLookup_spec
  rw [VirtType.find, SortedTable.find_eq_none_iff hsorted]
  constructor
  · intro h vf hvf
    obtain ⟨i, hi⟩ := List.getElem?_of_mem hvf
    exact h ⟨vf.hash, vf.t, i⟩ ((hmem _).mpr hi)
  · intro h e he
    exact h _ (List.mem_of_getElem? ((hmem e).mp he))

theorem index_unique {i j : Nat} {vf vf' : VField} (hi : vt.fields[i]? = some vf)
    (hj : vt.fields[j]? = some vf') (hhash : vf.hash = vf'.hash) : i = j := by
  have hlt : i < (vt.fields.map VField.hash).length := by
    rw [List.length_map]
    exact (List.getElem?_eq_some_iff.mp hi).1
  refine (List.getElem?_inj hlt hvt.nodup).mp ?_
  rw [List.getElem?_map, List.getElem?_map, hi, hj, Option.map_some, Option.map_some, hhash]

end VirtType.Proper

/-- The slots of every view are what `s` gives the fields of its type, which is a proper one. -/
def Shows (vs : List View) (s : VField → Int) : Prop := ∀ v ∈ vs, v.t.Proper ∧ v.slots = v.t.fields.map s

namespace View

variable {v : View} {s : VField → Int}

@[simp] theorem setSlot_t (hash : Int) (x : HlTy → Int) : (v.setSlot hash x).t = v.t := by
  unfold setSlot
  split <;> rfl

@[simp] theorem shift_t (g : HlTy → Int → Int) : (v.shift g).t = v.t := rfl

theorem shift_slots (h : v.slots = v.t.fields.map s) (g : HlTy → Int → Int) :
    (v.shift g).slots = v.t.fields.map fun vf => g vf.t (s vf) := by
  rw [shift, h, List.zipWith_map_right, List.zipWith_self]

theorem setSlot_slots (hv : v.t.Proper) (h : v.slots = v.t.fields.map s) (hash : Int) (x : HlTy → Int) :
    (v.setSlot hash x).slots = v.t.fields.map fun vf => if vf.hash = hash then x vf.t else s vf := by
  unfold setSlot
  split
  · rename_i e he
    obtain ⟨hget, rfl⟩ := hv.find_eq_some.mp he
    refine List.ext_getElem? fun i => ?_
    rw [h, List.getElem?_map]
    by_cases hi : e.index = i
    · subst hi
      rw [List.getElem?_set_self (by simpa using (List.getElem?_eq_some_iff.mp hget).1), hget]
      simp
    · rw [List.getElem?_set_ne hi, List.getElem?_map]
      cases hvf : v.t.fields[i]? with
      | none => rfl
      | some vf =>
        have hne : vf.hash ≠ e.hash := fun heq => hi (hv.index_unique hget hvf heq.symm)
        simp [hne]
  · rename_i he
    rw [h]
    refine List.map_congr_left fun vf hvf => ?_
    rw [if_neg (hv.find_eq_none.mp he vf hvf)]

end View

theorem Shows.congr {vs : List View} {s s' : VField → Int} (h : Shows vs s)
    (heq : ∀ vf, s vf = s' vf) : Shows vs s' :=
  funext heq ▸ h

theorem shows_remap {s : VField → Int} (h : Shows o.virtuals s) (f : DynField) (offset : Int) :
    Shows (o.hlDynobjRemapVirtuals f offset).virtuals fun vf =>
      if vf.hash = f.hash then if vf.t = f.t then o.addr f else 0
      else if s vf ≠ 0 ∧ vf.t.kind.isPtr = f.isPtr then s vf + offset else s vf := by
  intro v hv
  obtain ⟨w, hw, rfl⟩ := List.mem_map.mp hv
  simp only [hlSameType_iff]
  by_cases hoffset : offset = 0
  · subst hoffset
    simp only [ne_eq, not_true_eq_false, if_false, View.setSlot_t, Int.add_zero, ite_self]
    exact ⟨(h w hw).1, View.setSlot_slots (h w hw).1 (h w hw).2 _ _⟩
  · simp only [ne_eq, hoffset, not_false_eq_true, if_true, View.setSlot_t, View.shift_t]
    exact ⟨(h w hw).1, View.setSlot_slots (v := w.shift _) (h w hw).1 (View.shift_slots (h w hw).2 _) _ _⟩

namespace DynField

def offset (f : DynField) : Nat := if f.isPtr then 8 * f.index else f.index

theorem width_pos (h : f.t.kind ≠ .hVoid) : 0 < f.width := by
  have hsize : f.t.kind.isPtr = false → 0 < f.t.kind.size := by
    cases hkind : f.t.kind <;> simp_all [HlTypeKind.isPtr, HlTypeKind.size]
  unfold width isPtr size
  split
  · decide
  · rename_i hptr
    exact hsize (by simpa using hptr)

theorem size_le_width (f : DynField) : f.size ≤ f.width := by
  unfold width size isPtr
  cases f.t.kind <;> decide

end DynField

namespace DynState

/-- The address of one of the two arrays. -/
def base (o : DynState) (isPtr : Bool) : Int := if isPtr then o.values else o.raw

def extent (o : DynState) (isPtr : Bool) : Nat := if isPtr then 8 * o.nvalues else o.rawSize

theorem addr_eq (o : DynState) (f : DynField) : o.addr f = o.base f.isPtr + f.offset := by
  unfold addr base DynField.offset
  split
  · rw [Int.natCast_mul]
    rfl
  · rfl

def slotOf (o : DynState) (vf : VField) : Int :=
  match o.find vf.hash with
  | some f => if vf.t = f.t then o.addr f else 0
  | none => 0

/-- The field of a name: its type and its bytes. -/
def value (o : DynState) (hash : Int) : Option (HlTy × List UInt8) :=
  (o.find hash).map fun f => (f.t, o.contents f)

end DynState

/-- The entries of a lookup lie in arrays of some size, each apart from the others. -/
structure Layout (l : List DynField) (extent : Bool → Nat) : Prop where
  sorted : SortedTable.Sorted DynField.hash l
  valued : ∀ f ∈ l, f.t.kind ≠ .hVoid
  indexed : ∀ f ∈ l, f.index ≤ indexMask
  bounded : ∀ f ∈ l, f.offset + f.width ≤ extent f.isPtr
  apart : ∀ f ∈ l, ∀ g ∈ l, f.hash ≠ g.hash → f.isPtr = g.isPtr →
    f.offset + f.width ≤ g.offset ∨ g.offset + g.width ≤ f.offset

structure Inv (o : DynState) : Prop where
  layout : Layout o.lookup o.extent
  arrays : Apart (o.base true) (o.extent true) (o.base false) (o.extent false)
  started : ∀ b, 0 < o.extent b → 0 < o.base b
  views : Shows o.virtuals o.slotOf

namespace Layout

variable {l : List DynField} {extent : Bool → Nat}

theorem map (h : Layout l extent) {extent' : Bool → Nat} {g : DynField → DynField}
    (hhash : ∀ f ∈ l, (g f).hash = f.hash) (ht : ∀ f ∈ l, (g f).t = f.t)
    (hindex : ∀ f ∈ l, (g f).index ≤ f.index)
    (hbound : ∀ f ∈ l, (g f).offset + (g f).width ≤ extent' f.isPtr)
    (hapart : ∀ f ∈ l, ∀ f' ∈ l, f.hash ≠ f'.hash → f.isPtr = f'.isPtr →
      (g f).offset + (g f).width ≤ (g f').offset ∨ (g f').offset + (g f').width ≤ (g f).offset) :
    Layout (l.map g) extent' := by
  have hptr : ∀ f ∈ l, (g f).isPtr = f.isPtr := by
    intro f hf
    unfold DynField.isPtr
    rw [ht f hf]
  constructor
  case sorted => exact h.sorted.map hhash
  case valued =>
    intro f' hf'
    obtain ⟨f, hf, rfl⟩ := List.mem_map.mp hf'
    rw [ht f hf]
    exact h.valued f hf
  case indexed =>
    intro f' hf'
    obtain ⟨f, hf, rfl⟩ := List.mem_map.mp hf'
    exact Nat.le_trans (hindex f hf) (h.indexed f hf)
  case bounded =>
    intro f' hf'
    obtain ⟨f, hf, rfl⟩ := List.mem_map.mp hf'
    rw [hptr f hf]
    exact hbound f hf
  case apart =>
    intro f' hf' g' hg' hne hsame
    obtain ⟨f, hf, rfl⟩ := List.mem_map.mp hf'
    obtain ⟨f₂, hf₂, rfl⟩ := List.mem_map.mp hg'
    rw [hhash f hf, hhash f₂ hf₂] at hne
    rw [hptr f hf, hptr f₂ hf₂] at hsame
    exact hapart f hf f₂ hf₂ hne hsame

theorem sub (h : Layout l extent) {l' : List DynField} (hsub : l'.Sublist l) : Layout l' extent where
  sorted := h.sorted.sublist hsub
  valued f hf := h.valued f (hsub.subset hf)
  indexed f hf := h.indexed f (hsub.subset hf)
  bounded f hf := h.bounded f (hsub.subset hf)
  apart f hf g hg := h.apart f (hsub.subset hf) g (hsub.subset hg)

end Layout

namespace Inv

variable {o : DynState}

theorem find_iff (h : Inv o) :
    o.find hash = some f ↔ f ∈ o.lookup ∧ f.hash = hash :=
  SortedTable.find_iff h.layout.sorted

theorem base_pos (h : Inv o) (hf : f ∈ o.lookup) : 0 < o.base f.isPtr := by
  have hwidth := DynField.width_pos (h.layout.valued f hf)
  have hbound := h.layout.bounded f hf
  exact h.started f.isPtr (by omega)

theorem addr_pos (h : Inv o) (hf : f ∈ o.lookup) : 0 < o.addr f := by
  have hbase := h.base_pos hf
  rw [o.addr_eq]
  omega

theorem arrays_apart (h : Inv o) (b : Bool) :
    Apart (o.base b) (o.extent b) (o.base !b) (o.extent !b) := by
  cases b
  · exact h.arrays.symm
  · exact h.arrays

theorem fields_apart (h : Inv o) {g : DynField} (hf : f ∈ o.lookup) (hg : g ∈ o.lookup)
    (hne : f.hash ≠ g.hash) : Apart (o.addr f) f.width (o.addr g) g.width := by
  have hboundf := h.layout.bounded f hf
  have hboundg := h.layout.bounded g hg
  rw [o.addr_eq, o.addr_eq]
  by_cases hsame : f.isPtr = g.isPtr
  · rw [hsame]
    rcases h.layout.apart f hf g hg hne hsame with hle | hle
    · exact Or.inl (by omega)
    · exact Or.inr (by omega)
  · have hother : g.isPtr = !f.isPtr := by
      cases hfp : f.isPtr <;> cases hgp : g.isPtr <;> simp_all
    rw [hother] at hboundg ⊢
    exact (h.arrays_apart f.isPtr).part (by omega) (by omega) (by omega) (by omega)

end Inv

namespace DynState

theorem value_of_find (h : o.find hash = some f) :
    o.value hash = some (f.t, o.contents f) := by
  rw [value, h, Option.map_some]

theorem value_congr {o' : DynState} {g : DynField → DynField} (hfind : o'.find hash = (o.find hash).map g)
    (hg : ∀ f, o.find hash = some f → (g f).t = f.t ∧ o'.contents (g f) = o.contents f) :
    o'.value hash = o.value hash := by
  unfold value
  rw [hfind]
  cases h : o.find hash with
  | none => rfl
  | some f =>
    obtain ⟨ht, hcontents⟩ := hg f h
    rw [Option.map_some, Option.map_some, Option.map_some, ht, hcontents]

end DynState

theorem DynState.Fresh.mono {a : Int} {m n : Nat} (h : o.Fresh a n) (hle : m ≤ n) :
    o.Fresh a m :=
  ⟨h.1, h.2.1.part (Int.le_refl _) (by omega) (Int.le_refl _) (Int.le_refl _),
    h.2.2.part (Int.le_refl _) (by omega) (Int.le_refl _) (Int.le_refl _)⟩

theorem inv_mem (h : Inv o) (mem : Memory) : Inv { o with mem } :=
  ⟨h.layout, h.arrays, h.started, h.views⟩

theorem value_write (h : Inv o) (hfind : o.find hash = some f) (value : Nat → UInt8) (k : Int) :
    (o.write f value).value k =
      if k = hash then some (f.t, (List.range f.width).map value) else o.value k := by
  obtain ⟨hf, rfl⟩ := h.find_iff.mp hfind
  split
  · rename_i hk
    subst hk
    have hfind' : (o.write f value).find f.hash = some f := hfind
    rw [DynState.value_of_find hfind']
    exact congrArg (fun c => some (f.t, c)) bytes_writeBytes_self
  · rename_i hk
    have hfind' : (o.write f value).find k = (o.find k).map id := Option.map_id_apply.symm
    refine DynState.value_congr hfind' fun g hg => ⟨rfl, ?_⟩
    obtain ⟨hg', rfl⟩ := h.find_iff.mp hg
    exact bytes_writeBytes_of_apart (h.fields_apart hg' hf hk)

end DynObj

end HashLink
