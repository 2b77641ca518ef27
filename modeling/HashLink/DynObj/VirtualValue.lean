import HashLink.DynObj.FieldOrder

/-! A virtual with data of its own, and the object it becomes. Every access to the virtual goes to its
value when it has one, and compiled code goes through the slot of the field, or by name when the slot
is null. -/

namespace HashLink

namespace DynObj

open FlatMemory Numbering

/-- `vvirtual` at an address, with the memory its data is in. The value is missing when it is null. -/
structure VVirtual where
  t : VirtType
  base : Int
  mem : Memory
  value : Option DynState

namespace VVirtual

/-- `hl_obj_lookup`: the type of the field and what is at its address. -/
def hlObjLookup (v : VVirtual) (hash : Int) : Option (HlTy × List UInt8) :=
  match v.value with
  | some o => o.value hash
  | none =>
    (v.t.find hash).map fun e =>
      (e.t, bytes v.mem (v.base + (v.t.indexes.1.getD e.index 0 : Nat)) e.t.width)

def hlObjHasField (v : VVirtual) (hash : Int) : Bool :=
  match v.value with
  | some o => (o.find hash).isSome
  | none => (v.t.find hash).isSome

def hlObjFields (v : VVirtual) : List (Option Int) :=
  match v.value with
  | some o => o.hlObjFields
  | none => v.t.fields.map fun vf => some vf.hash

/-- `hl_virtual_make_value`. There is no result when it raises an error. -/
def hlVirtualMakeValue (v : VVirtual) (rawAt valuesAt : Int) : Option VVirtual :=
  match v.value with
  | some _ => some v
  | none =>
    (DynState.hlVirtualMakeValue v.t v.base v.mem rawAt valuesAt).map fun o =>
      { v with value := some o }

/-- A value the virtual has already is an object it is a view of. -/
def Valid (v : VVirtual) : Prop :=
  ∀ o, v.value = some o → Reachable VirtType.Proper o ∧ v.t ∈ o.virtuals.map View.t

theorem valid_of_none {v : VVirtual} (h : v.value = none) : v.Valid := by
  intro o ho
  rw [h] at ho
  cases ho

end VVirtual

namespace DynState

def readField (o : DynState) (w : View) (e : VLookup) : Option (HlTy × List UInt8) :=
  let s := w.slots.getD e.index 0
  if s = 0 then o.value e.hash else some (e.t, bytes o.mem s e.t.width)

def writeField (o : DynState) (i : Nat) (w : View) (e : VLookup) (newData : Int)
    (value : Nat → UInt8) : DynState × Bool :=
  if w.slots.getD e.index 0 = 0 then o.setField e.hash e.t newData value
  else (o.writeSlot i e.hash value, true)

end DynState

/-- The fields of a type are the same through a view of that type and through the object. A write
through the view is one of the operations on the object. -/
structure Shared (vt : VirtType) (o : DynState) (i : Nat) (w : View) : Prop where
  reads : ∀ {hash : Int} {e : VLookup}, vt.find hash = some e → o.readField w e = o.value hash
  writes : ∀ {hash : Int} {e : VLookup}, vt.find hash = some e → ∀ (newData : Int) (value : Nat → UInt8),
      (∃ op, (o.writeField i w e newData value).1 = o.apply op) ∧
      (∀ k, k ≠ hash → (o.writeField i w e newData value).1.value k = o.value k) ∧
      ((o.writeField i w e newData value).2 = true → (o.writeField i w e newData value).1.value hash =
          some (e.t, (List.range e.t.width).map value))
  sets : ∀ (hash : Int) (t : ValueType) (newData : Int) (value : Nat → UInt8),
    (o.setField hash t.1 newData value).2 = true → (o.setField hash t.1 newData value).1.value hash =
        some (t.1, (List.range t.1.width).map value)
  deletes : ∀ hash, (o.deleteField hash).value hash = none

/-- What a program sees of a virtual is the same before and after, and from then on it sees the same
fields through the virtual and through its value, whatever it does to them with proper virtual types. -/
structure Neutral (v v' : VVirtual) : Prop where
  get : ∀ hash, v'.hlObjLookup hash = v.hlObjLookup hash
  has : ∀ hash, v'.hlObjHasField hash = v.hlObjHasField hash
  fields : ∀ name, name ∈ v'.hlObjFields ↔ name ∈ v.hlObjFields
  later : ∃ o, v'.value = some o ∧ ∀ ops : List Op, (∀ op ∈ ops, op.Over VirtType.Proper) →
    v.t ∈ (ops.foldl DynState.apply o).virtuals.map View.t ∧
    ∀ (i : Nat) (w : View), (ops.foldl DynState.apply o).virtuals[i]? = some w → w.t = v.t →
      Shared v.t (ops.foldl DynState.apply o) i w

section Views

variable {o : DynState} {vt : VirtType}

def DynState.viewTypes (o : DynState) : List VirtType := o.virtuals.map View.t

theorem remap_types (o : DynState) (f : DynField) (offset : Int) :
    (o.hlDynobjRemapVirtuals f offset).viewTypes = o.viewTypes := by
  unfold DynState.viewTypes DynState.hlDynobjRemapVirtuals
  rw [List.map_map]
  refine List.map_congr_left fun v _ => (View.setSlot_t _ _).trans ?_
  split <;> rfl

theorem delete_types (o : DynState) (i : Nat) (f : DynField) :
    (o.hlDynobjDeleteField i f).viewTypes = o.viewTypes := by
  have hdata : (o.eraseData f).virtuals = o.virtuals := by
    unfold DynState.eraseData
    split <;> rfl
  unfold DynState.viewTypes DynState.hlDynobjDeleteField
  rw [List.map_map, hdata]
  refine List.map_congr_left fun v _ => ?_
  show (if f.isPtr then View.shift _ _ else _).t = v.t
  split
  · exact View.setSlot_t _ _
  · exact View.setSlot_t _ _

theorem compactField_types (o : DynState) (newData : Int) (f : DynField) (n : Nat) :
    (o.compactField newData f n).viewTypes = o.viewTypes := by
  unfold DynState.compactField
  dsimp only
  split
  · exact remap_types _ _ 0
  · rfl

theorem compactLoop_types (newData : Int) (l : List DynField) (n : Nat) (o : DynState) :
    (DynState.compactLoop newData l n o).2.2.viewTypes = o.viewTypes := by
  induction l generalizing n o with
  | nil => rfl
  | cons f rest ih =>
    unfold DynState.compactLoop
    split
    · exact ih n o
    · exact (ih _ _).trans (compactField_types o newData f _)

theorem moveRaw_types (o : DynState) (newData : Int) (size : Nat) :
    (o.moveRaw newData size).viewTypes = o.viewTypes := by
  unfold DynState.moveRaw
  split
  · rfl
  · exact compactLoop_types newData o.lookup 0 o

theorem add_types {o' : DynState} {hash : Int} {t : HlTy} {newData : Int} {f : DynField}
    (h : o.hlDynobjAddField hash t newData = some (o', f)) : o'.viewTypes = o.viewTypes := by
  unfold DynState.hlDynobjAddField at h
  split at h
  · dsimp only at h
    split at h
    · cases h
    · split at h
      · obtain rfl := congrArg Prod.fst (Option.some.inj h)
        exact remap_types _ _ _
      · cases h
  · dsimp only at h
    split at h
    · cases h
    · split at h
      · obtain rfl := congrArg Prod.fst (Option.some.inj h)
        exact (remap_types _ _ _).trans (moveRaw_types o newData o.keptSize)
      · cases h

theorem lookupSet_types (o : DynState) (hash : Int) (t : HlTy) (newData : Int) :
    (o.hlObjLookupSet hash t newData).1.viewTypes = o.viewTypes := by
  unfold DynState.hlObjLookupSet
  dsimp only
  split
  · cases h : o.hlDynobjAddField hash t newData with
    | none => rfl
    | some p => exact add_types h
  · split
    · rfl
    · split
      · rfl
      · split
        · split
          · next hadd => exact (add_types hadd).trans (delete_types o _ _)
          · exact delete_types o _ _
        · exact remap_types _ _ 0

theorem setField_types (o : DynState) (hash : Int) (t : HlTy) (newData : Int)
    (value : Nat → UInt8) : (o.setField hash t newData value).1.viewTypes = o.viewTypes := by
  have hlookup := lookupSet_types o hash t newData
  unfold DynState.setField
  split
  · rename_i heq
    rw [heq] at hlookup
    exact hlookup
  · rename_i heq
    rw [heq] at hlookup
    exact hlookup

theorem mem_types_apply (h : vt ∈ o.viewTypes) (op : Op) : vt ∈ (o.apply op).viewTypes := by
  cases op with
  | set hash t newData value => exact (setField_types o hash t.1 newData value).symm ▸ h
  | delete hash =>
    show vt ∈ (o.deleteField hash).viewTypes
    unfold DynState.deleteField
    split
    · exact h
    · split
      · exact (delete_types o _ _).symm ▸ h
      · exact h
  | attach wt =>
    show vt ∈ (o.attach wt).viewTypes
    unfold DynState.attach
    split
    · exact h
    · exact List.mem_cons_of_mem _ h
  | writeSlot view hash value =>
    show vt ∈ (o.writeSlot view hash value).viewTypes
    unfold DynState.writeSlot
    split
    · exact h
    · split
      · exact h
      · dsimp only
        split
        · exact h
        · exact h
  | writeOutside mem => exact h

theorem mem_types_foldl (h : vt ∈ o.viewTypes) (ops : List Op) :
    vt ∈ (ops.foldl DynState.apply o).viewTypes := by
  induction ops generalizing o with
  | nil => exact h
  | cons op ops ih => exact ih (mem_types_apply h op)

end Views

section Shared

variable {o : DynState} (h : Inv o) {i : Nat} {w : View} (hw : o.virtuals[i]? = some w)
  {hash : Int} {e : VLookup} (he : w.t.find hash = some e)
include h hw he

theorem slot_eq : w.slots.getD e.index 0 = o.slotOf ⟨e.hash, e.t⟩ := by
  obtain ⟨hproper, hslots⟩ := h.views w (List.mem_of_getElem? hw)
  obtain ⟨hget, -⟩ := hproper.find_eq_some.mp he
  rw [hslots, List.getD_eq_getElem?_getD, List.getElem?_map, hget]
  rfl

theorem readField_eq : o.readField w e = o.value hash := by
  obtain ⟨hget, rfl⟩ := (h.views w (List.mem_of_getElem? hw)).1.find_eq_some.mp he
  unfold DynState.readField
  dsimp only
  rw [slot_eq h hw he]
  rcases slotOf_cases h ⟨e.hash, e.t⟩ with ⟨hzero, -⟩ | ⟨hne, f, hf, hhash, ht, hslot⟩
  · rw [if_pos hzero]
  · have hfind : o.find e.hash = some f := h.find_iff.mpr ⟨hf, hhash⟩
    have hwidth : f.width = e.t.width := congrArg HlTy.width ht
    rw [if_neg hne, DynState.value_of_find hfind, hslot, ht, DynState.contents, hwidth]

theorem writeSlot_eq (hne : w.slots.getD e.index 0 ≠ 0) (value : Nat → UInt8) :
    ∃ f, o.find hash = some f ∧ f.t = e.t ∧ o.writeSlot i hash value = o.write f value := by
  obtain ⟨hget, rfl⟩ := (h.views w (List.mem_of_getElem? hw)).1.find_eq_some.mp he
  have hslot := slot_eq h hw he
  rcases slotOf_cases h ⟨e.hash, e.t⟩ with ⟨hzero, -⟩ | ⟨-, f, hf, hhash, ht, haddr⟩
  · exact absurd (hslot.trans hzero) hne
  · refine ⟨f, h.find_iff.mpr ⟨hf, hhash⟩, ht, ?_⟩
    have hwidth : f.width = e.t.width := congrArg HlTy.width ht
    unfold DynState.writeSlot
    simp only [hw, he, if_neg hne]
    rw [hslot, haddr, ← hwidth]
    rfl

end Shared

variable {o : DynState}

theorem Inv.shared (h : Inv o) {i : Nat} {w : View} (hw : o.virtuals[i]? = some w) :
    Shared w.t o i w where
  reads he := readField_eq h hw he
  writes {hash e} he newData value := by
    have hproper := (h.views w (List.mem_of_getElem? hw)).1
    obtain ⟨hget, rfl⟩ := hproper.find_eq_some.mp he
    have hvoid : e.t.kind ≠ .hVoid := hproper.valued _ (List.mem_of_getElem? hget)
    unfold DynState.writeField
    by_cases hzero : w.slots.getD e.index 0 = 0
    · rw [if_pos hzero]
      obtain ⟨-, hkeep, hvalue⟩ := setField_spec h e.hash hvoid newData value
      exact ⟨⟨.set e.hash ⟨e.t, hvoid⟩ newData value, rfl⟩, hkeep, hvalue⟩
    · rw [if_neg hzero]
      obtain ⟨f, hfind, ht, heq⟩ := writeSlot_eq h hw he hzero value
      have hwrite := value_write h hfind value
      refine ⟨⟨.writeSlot i e.hash value, rfl⟩, fun k hk => ?_, fun _ => ?_⟩
      · rw [heq, hwrite, if_neg hk]
      · rw [heq, hwrite, if_pos rfl, ← ht]
        rfl
  sets hash t newData value := (setField_spec h hash t.2 newData value).2.2
  deletes hash := by
    unfold DynState.deleteField
    cases hidx : SortedTable.findIdx DynField.hash o.lookup hash with
    | none =>
      have hnone : o.find hash = none := by
        rw [DynState.find, SortedTable.find, hidx, Option.bind_none]
      exact congrArg (Option.map _) hnone
    | some j =>
      obtain ⟨f, hget, rfl⟩ := SortedTable.findIdx_some hidx
      simp only [hget]
      rw [(delete_spec h hget).2, if_pos rfl]

theorem shared_run (h : Reachable VirtType.Proper o) {vt : VirtType} (hview : vt ∈ o.viewTypes)
    (ops : List Op) (hops : ∀ op ∈ ops, op.Over VirtType.Proper) :
    vt ∈ (ops.foldl DynState.apply o).virtuals.map View.t ∧
    ∀ (i : Nat) (w : View), (ops.foldl DynState.apply o).virtuals[i]? = some w → w.t = vt →
      Shared vt (ops.foldl DynState.apply o) i w := by
  refine ⟨mem_types_foldl hview ops, fun i w hw ht => ?_⟩
  subst ht
  exact (inv_reachable (reachable_foldl h hops)).shared hw

section MakeValue

theorem initLookup_names (fields : List VField) :
    ((initLookup fields).map VLookup.hash).Perm (fields.map VField.hash) := by
  have hfold : ∀ (entries l : List VLookup),
      (entries.foldl (SortedTable.insert VLookup.hash) l).Perm (entries ++ l) := by
    intro entries
    induction entries with
    | nil => exact fun l => .refl l
    | cons e rest ih =>
      intro l
      refine (ih _).trans ?_
      exact (SortedTable.insert_perm.append_left rest).trans List.perm_middle
  rw [initLookup_eq]
  have hperm := (hfold (fields.zipIdx.map fun p => (⟨p.1.hash, p.1.t, p.2⟩ : VLookup)) []).map VLookup.hash
  rw [List.append_nil, List.map_map] at hperm
  refine hperm.trans ?_
  nth_rewrite 2 [← List.zipIdx_map_fst 0 fields]
  rw [List.map_map]
  exact .refl _

theorem width_eq_size {t : HlTy} (hvoid : t.kind ≠ .hVoid) (hpacked : t.kind ≠ .hPacked) :
    t.width = t.kind.size := by
  unfold HlTy.width
  cases hkind : t.kind <;> simp_all [HlTypeKind.isPtr, HlTypeKind.size, hlWSize]

variable {vt : VirtType} {base rawAt valuesAt : Int} {mem : Memory} {o : DynState}
  (h : DynState.hlVirtualMakeValue vt base mem rawAt valuesAt = some o)
include h

theorem makeValue_hashes : o.lookup.map DynField.hash = (initLookup vt.fields).map VLookup.hash := by
  have hmarks := congrArg (List.map Prod.fst) (makeValue_marks h)
  rw [DynState.marks, List.map_map, List.map_map] at hmarks
  refine hmarks.trans ?_
  nth_rewrite 2 [← List.zipIdx_map_fst 0 (initLookup vt.fields)]
  rw [List.map_map]
  rfl

theorem makeValue_names : (o.lookup.map DynField.hash).Perm (vt.fields.map VField.hash) := by
  rw [makeValue_hashes h]
  exact initLookup_names vt.fields

theorem makeValue_ordered : SortedTable.Ordered DynField.hash o.lookup := by
  have hfold : ∀ (entries l : List VLookup), SortedTable.Ordered VLookup.hash l →
      SortedTable.Ordered VLookup.hash (entries.foldl (SortedTable.insert VLookup.hash) l) := by
    intro entries
    induction entries with
    | nil => exact fun _ hl => hl
    | cons e rest ih => exact fun l hl => ih _ (SortedTable.ordered_insert hl e)
  have hordered := List.pairwise_map.mpr
    (hfold (vt.fields.zipIdx.map fun p => (⟨p.1.hash, p.1.t, p.2⟩ : VLookup)) [] List.Pairwise.nil)
  rw [← initLookup_eq, ← makeValue_hashes h] at hordered
  exact List.pairwise_map.mp hordered

theorem makeValue_has (hvt : vt.Proper) (hash : Int) : (o.find hash).isSome = (vt.find hash).isSome := by
  have hinv := (makeValue_spec hvt h).1
  rw [Bool.eq_iff_iff, Option.isSome_iff_exists, Option.isSome_iff_exists]
  calc (∃ f, o.find hash = some f) ↔ hash ∈ o.lookup.map DynField.hash := by
        rw [List.mem_map]
        exact exists_congr fun f => hinv.find_iff
    _ ↔ hash ∈ vt.fields.map VField.hash := (makeValue_names h).mem_iff
    _ ↔ ∃ e, vt.find hash = some e := by
        rw [← Option.ne_none_iff_exists', ne_eq, hvt.find_eq_none, List.mem_map]
        push Not
        exact Iff.rfl

theorem makeValue_find (hvt : vt.Proper) {hash : Int} {e : VLookup} (he : vt.find hash = some e) :
    ∃ f, o.find hash = some f ∧ f.t = e.t ∧ bytes o.mem (o.addr f) e.t.kind.size =
        bytes mem (base + (vt.indexes.1.getD e.index 0 : Nat)) e.t.kind.size := by
  obtain ⟨hget, rfl⟩ := hvt.find_eq_some.mp he
  obtain ⟨ix, hix, -⟩ := exists_index hget
  have hindex : vt.indexes.1.getD e.index 0 = ix := by
    rw [List.getD_eq_getElem?_getD, hix]
    rfl
  rw [hindex]
  exact (makeValue_spec hvt h).2 e.index ⟨e.hash, e.t⟩ ix hget hix

theorem makeValue_get (hvt : vt.Proper) (hpacked : ∀ vf ∈ vt.fields, vf.t.kind ≠ .hPacked) (hash : Int) :
    o.value hash = (vt.find hash).map fun e =>
      (e.t, bytes mem (base + (vt.indexes.1.getD e.index 0 : Nat)) e.t.width) := by
  cases he : vt.find hash with
  | none =>
    have hnone : o.find hash = none := by
      have hhas := makeValue_has h hvt hash
      rw [he] at hhas
      exact Option.isNone_iff_eq_none.mp (Option.isSome_eq_false_iff.mp hhas)
    exact congrArg (Option.map _) hnone
  | some e =>
    obtain ⟨f, hfind, ht, hbytes⟩ := makeValue_find h hvt he
    have hmem := List.mem_of_getElem? (hvt.find_eq_some.mp he).1
    have hsize := width_eq_size (hvt.valued _ hmem) (hpacked _ hmem)
    have hwidth : f.width = e.t.width := congrArg HlTy.width ht
    rw [DynState.value_of_find hfind, ht, DynState.contents, hwidth, hsize, hbytes, Option.map_some, hsize]

theorem makeValue_fields (hle : vt.fields.length ≤ orderLimit) (name : Option Int) :
    name ∈ o.hlObjFields ↔ name ∈ vt.fields.map fun vf => some vf.hash := by
  have hlen : (initLookup vt.fields).length = vt.fields.length := by
    have := (initLookup_names vt.fields).length_eq
    rwa [List.length_map, List.length_map] at this
  have hnum : Numbers o.marks ((initLookup vt.fields).map VLookup.hash) := by
    unfold Numbers
    rw [makeValue_marks h, List.zipIdx_map]
    refine List.Perm.of_eq (List.map_congr_left fun e he => ?_)
    have hlt := (List.mem_zipIdx he).2.1
    exact Prod.ext rfl (Nat.mod_eq_of_lt (by omega))
  rw [hlObjFields_eq, hnum.write_eq]
  have hperm := (initLookup_names vt.fields).map some
  rw [hperm.mem_iff, List.map_map]
  rfl

theorem makeValue_length (hfields : none ∉ o.hlObjFields) : vt.fields.length ≤ orderLimit := by
  have hnames : o.hlObjFields = (o.hlObjFields.map fun name => name.getD 0).map some := by
    rw [List.map_map]
    conv_lhs => rw [← List.map_id o.hlObjFields]
    refine List.map_congr_left fun name hname => ?_
    cases name with
    | none => exact absurd hname hfields
    | some hash => rfl
  have hle := length_le_of_listed hnames (bounded_reachable (.makeValue (P := fun _ => True) trivial h))
  have hlen := (makeValue_names h).length_eq
  rw [List.length_map, List.length_map] at hlen
  omega

theorem makeValue_view : vt ∈ o.viewTypes := by
  unfold DynState.hlVirtualMakeValue at h
  simp only at h
  split at h
  · cases h
  · split at h
    · cases h
      exact List.mem_singleton_self vt
    · cases h

end MakeValue

/-! ### When the value can be made, it can be made anywhere -/

section Exists

variable {vt : VirtType}

def farValues (vt : VirtType) (rawSize : Nat) : Int := vt.indexes.2 + 9 + rawSize

def farMemory (vt : VirtType) (rawSize : Nat) : Memory :=
  fun a => if a < farValues vt rawSize then 1 else 0

theorem makeValue_admits {base rawAt valuesAt : Int} {mem : Memory}
    (h : DynState.hlVirtualMakeValue vt base mem rawAt valuesAt = some o) (mem' : Memory) :
    ∃ o', DynState.hlVirtualMakeValue vt 0 mem' (vt.indexes.2 + 9) (farValues vt o.rawSize) = some o' ∧
      o'.values = DynState.allocAt (farValues vt o.rawSize) o'.nvalues := by
  unfold DynState.hlVirtualMakeValue at h ⊢
  simp only at h ⊢
  cases hmake : DynState.makeLookup (initLookup vt.fields) 0 0 0 with
  | none =>
    rw [hmake] at h
    cases h
  | some r =>
    obtain ⟨l, nvalues, rawSize⟩ := r
    rw [hmake] at h
    simp only at h ⊢
    split at h
    · cases h
      refine ⟨_, if_pos ?_, rfl⟩
      simp only [farValues, Apart]
      omega
    · cases h

end Exists

theorem neutral_makeValue {v v' : VVirtual} (hvt : v.t.Proper) (hvalid : v.Valid) (hlength : v.t.fields.length ≤ orderLimit)
    (hpacked : ∀ vf ∈ v.t.fields, vf.t.kind ≠ .hPacked) {rawAt valuesAt : Int}
    (h : v.hlVirtualMakeValue rawAt valuesAt = some v') : Neutral v v' := by
  unfold VVirtual.hlVirtualMakeValue at h
  split at h
  · rename_i o hvalue
    cases h
    obtain ⟨hreach, hview⟩ := hvalid o hvalue
    exact ⟨fun _ => rfl, fun _ => rfl, fun _ => Iff.rfl, o, hvalue, shared_run hreach hview⟩
  · rename_i hvalue
    obtain ⟨o, hmake, rfl⟩ := Option.map_eq_some_iff.mp h
    constructor
    case get =>
      intro hash
      unfold VVirtual.hlObjLookup
      rw [hvalue]
      exact makeValue_get hmake hvt hpacked hash
    case has =>
      intro hash
      unfold VVirtual.hlObjHasField
      rw [hvalue]
      exact makeValue_has hmake hvt hash
    case fields =>
      intro name
      unfold VVirtual.hlObjFields
      rw [hvalue]
      exact makeValue_fields hmake hlength name
    case later => exact ⟨o, rfl, shared_run (.makeValue hvt hmake) (makeValue_view hmake)⟩

theorem packed_lost {v : VVirtual} (hvt : v.t.Proper) (hvalue : v.value = none) {vf : VField}
    (hvf : vf ∈ v.t.fields) (hkind : vf.t.kind = .hPacked) (rawSize : Nat)
    (hmem : v.mem = farMemory v.t rawSize) (hbase : v.base = 0) {rawAt : Int}
    (h : DynState.hlVirtualMakeValue v.t v.base v.mem rawAt (farValues v.t rawSize) = some o)
    (hvalues : o.values = DynState.allocAt (farValues v.t rawSize) o.nvalues) :
    o.value vf.hash ≠ v.hlObjLookup vf.hash := by
  intro heq
  obtain ⟨i, hi⟩ := List.getElem?_of_mem hvf
  have he : v.t.find vf.hash = some ⟨vf.hash, vf.t, i⟩ := hvt.find_eq_some.mpr ⟨hi, rfl⟩
  obtain ⟨ix, hix, hinside⟩ := exists_index hi
  obtain ⟨f, hfind, ht, -⟩ := makeValue_find h hvt he
  obtain ⟨hinv, -, hunsized⟩ := makeValue_data hvt h
  have hf := (hinv.find_iff.mp hfind).1
  have hptr : f.isPtr = true := by
    rw [DynField.isPtr, ht, hkind]
    rfl
  have hwidth : f.width = 8 := if_pos hptr
  have hsize : f.size = 0 := by
    rw [DynField.size, ht, hkind]
    rfl
  have htwidth : vf.t.width = 8 := by
    unfold HlTy.width
    rw [hkind]
    rfl
  -- the field lies in the values of the object, which are past the virtual
  have hbound := hinv.layout.bounded f hf
  unfold DynField.offset DynState.extent at hbound
  simp only [hptr, if_true, hwidth] at hbound
  have hstart : o.values = farValues v.t rawSize := hvalues.trans (if_neg (by omega))
  have haddr : o.addr f = farValues v.t rawSize + 8 * f.index := by
    rw [← hstart]
    exact if_pos hptr
  unfold VVirtual.hlObjLookup at heq
  rw [hvalue] at heq
  simp only [he, Option.map_some, List.getD_eq_getElem?_getD, hix, Option.getD_some] at heq
  rw [DynState.value_of_find hfind, hunsized f hf hsize, hwidth, htwidth, hmem, hbase] at heq
  have hbyte := bytes_inj (congrArg Prod.snd (Option.some.inj heq)) (k := 0) (by omega)
  have hhigh : farMemory v.t rawSize (o.addr f + (0 : Nat)) = 0 := if_neg (by rw [haddr]; omega)
  have hlow : farMemory v.t rawSize (0 + (ix : Int) + (0 : Nat)) = 1 := by
    refine if_pos ?_
    unfold farValues
    omega
  rw [hhigh, hlow] at hbyte
  exact absurd hbyte (by decide)

/-- Where a deletion by name leaves nothing of that name, each name is there once. -/
theorem nodup_of_deletes (hordered : SortedTable.Ordered DynField.hash o.lookup)
    (h : ∀ hash, (o.deleteField hash).value hash = none) : (o.lookup.map DynField.hash).Nodup := by
  refine List.pairwise_map.mpr (List.pairwise_iff_getElem.mpr fun i j hi hj hij heq => ?_)
  cases hidx : SortedTable.findIdx DynField.hash o.lookup o.lookup[i].hash with
  | none =>
    have hnone : SortedTable.find DynField.hash o.lookup o.lookup[i].hash = none := by
      rw [SortedTable.find, hidx, Option.bind_none]
    exact SortedTable.find_none hordered hnone _ (List.getElem_mem hi) rfl
  | some d =>
    obtain ⟨f, hget, -⟩ := SortedTable.findIdx_some hidx
    have hdelete := h o.lookup[i].hash
    unfold DynState.deleteField at hdelete
    simp only [hidx, hget] at hdelete
    -- one of the two is left
    obtain ⟨e, g, hne, hg, hk⟩ : ∃ e g, e ≠ d ∧ o.lookup[e]? = some g ∧ g.hash = o.lookup[i].hash := by
      by_cases hid : i = d
      · exact ⟨j, _, by omega, List.getElem?_eq_getElem hj, heq.symm⟩
      · exact ⟨i, _, hid, List.getElem?_eq_getElem hi, rfl⟩
    have hordered' : SortedTable.Ordered DynField.hash (o.hlDynobjDeleteField d f).lookup := by
      rw [delete_lookup]
      exact List.pairwise_map.mpr (hordered.sublist (List.eraseIdx_sublist _ _))
    refine SortedTable.find_none hordered' (Option.map_eq_none_iff.mp hdelete) (afterDelete f g) ?_ hk
    rw [delete_lookup]
    exact List.mem_map_of_mem (List.mem_eraseIdx_iff_getElem?.mpr ⟨e, hne, hg⟩)

/-- Making the value of a virtual without a `Void` field is not noticed if and only if the type of the virtual declares
each name once and has at most 32768 fields, none of them packed. -/
theorem make_value_neutral {vt : VirtType} {base rawAt valuesAt : Int} {mem : Memory} {o : DynState}
    (hvalued : ∀ vf ∈ vt.fields, vf.t.kind ≠ .hVoid)
    (h : DynState.hlVirtualMakeValue vt base mem rawAt valuesAt = some o) :
    (∀ v : VVirtual, v.t = vt → v.Valid → ∀ (rawAt valuesAt : Int) (v' : VVirtual),
      v.hlVirtualMakeValue rawAt valuesAt = some v' → Neutral v v') ↔
    (vt.fields.map VField.hash).Nodup ∧ vt.fields.length ≤ orderLimit ∧ ∀ vf ∈ vt.fields, vf.t.kind ≠ .hPacked := by
  constructor
  · intro hneutral
    obtain ⟨o', hmake, hvalues⟩ := makeValue_admits h (farMemory vt o.rawSize)
    have hmade := hneutral ⟨vt, 0, farMemory vt o.rawSize, none⟩ rfl (VVirtual.valid_of_none rfl)
      (vt.indexes.2 + 9) (farValues vt o.rawSize) ⟨vt, 0, farMemory vt o.rawSize, some o'⟩
      (congrArg (Option.map _) hmake)
    have hnodup : (vt.fields.map VField.hash).Nodup := by
      obtain ⟨w, hmem, ht⟩ := List.mem_map.mp (makeValue_view hmake)
      obtain ⟨i, hw⟩ := List.mem_iff_getElem?.mp hmem
      obtain ⟨_, ⟨⟩, hlater⟩ := hmade.later
      have hshared := (hlater [] fun _ hop => absurd hop List.not_mem_nil).2 i w hw ht
      exact (makeValue_names hmake).nodup_iff.mp (nodup_of_deletes (makeValue_ordered hmake) hshared.deletes)
    refine ⟨hnodup, ?_, ?_⟩
    · refine makeValue_length hmake fun hnull => ?_
      obtain ⟨vf, -, hvf⟩ := List.mem_map.mp ((hmade.fields none).mp hnull)
      cases hvf
    · intro vf hvf hkind
      exact packed_lost (v := ⟨vt, 0, farMemory vt o.rawSize, none⟩) ⟨hnodup, hvalued⟩ rfl hvf hkind o.rawSize rfl rfl
        hmake hvalues (hmade.get vf.hash)
  · rintro ⟨hnodup, hlength, hpacked⟩ v rfl hvalid rawAt valuesAt v' hmake
    exact neutral_makeValue ⟨hnodup, hvalued⟩ hvalid hlength hpacked hmake

def demoVirtual : VirtType :=
  ⟨0, [⟨7, .basic .hI32⟩, ⟨4, .basic .hDyn⟩]⟩

theorem make_value_neutral_small :
    demoVirtual.fields.length ≤ orderLimit ∧
      ∀ v : VVirtual, v.t = demoVirtual → v.Valid → ∀ (rawAt valuesAt : Int) (v' : VVirtual),
        v.hlVirtualMakeValue rawAt valuesAt = some v' → Neutral v v' := by
  have hmade : ∃ o, DynState.hlVirtualMakeValue demoVirtual 100 (fun _ => 3) 1000 2000 = some o :=
    ⟨_, rfl⟩
  obtain ⟨o, ho⟩ := hmade
  exact ⟨by decide, (make_value_neutral (by decide) ho).mpr ⟨by decide, by decide, by decide⟩⟩

/-! ### A virtual with a field more than there are numbers -/

def wideVirtual (n : Nat) : VirtType where
  id := 0
  fields := (List.range n).map fun (i : Nat) => ⟨i, .basic .hDyn⟩

theorem wideVirtual_proper (n : Nat) : (wideVirtual n).Proper where
  nodup := by
    rw [wideVirtual, List.map_map]
    exact List.nodup_range.map fun i j hij => Int.ofNat_inj.mp hij
  valued vf hvf := by
    obtain ⟨i, -, rfl⟩ := List.mem_map.mp hvf
    exact HlTypeKind.noConfusion

theorem wideVirtual_length (n : Nat) : (wideVirtual n).fields.length = n :=
  (List.length_map _).trans List.length_range

theorem makeLookup_pointers {lookup : List VLookup} (hptr : ∀ e ∈ lookup, e.t.kind.isPtr = true)
    {i nvalues : Nat} (rawSize : Nat) (hroom : nvalues + lookup.length ≤ indexMask + 1) :
    ∃ l, DynState.makeLookup lookup i nvalues rawSize = some (l, nvalues + lookup.length, rawSize) := by
  induction lookup generalizing i nvalues with
  | nil => exact ⟨[], rfl⟩
  | cons e rest ih =>
    obtain ⟨he, hrest⟩ := List.forall_mem_cons.mp hptr
    rw [List.length_cons] at hroom
    obtain ⟨l, hl⟩ := @ih hrest (i + 1) (nvalues + 1) (by omega)
    have hmask : ¬indexMask < nvalues := by omega
    refine ⟨⟨e.hash, e.t, nvalues, i % orderLimit⟩ :: l, ?_⟩
    rw [DynState.makeLookup]
    simp only [he, if_true, if_neg hmask, hl, Option.map_some, List.length_cons]
    rw [Nat.add_assoc, Nat.add_comm 1]

theorem wideVirtual_makes {n : Nat} (hroom : n ≤ indexMask + 1) (mem : Memory) :
    ∃ o, DynState.hlVirtualMakeValue (wideVirtual n) 0 mem ((wideVirtual n).indexes.2 + 9)
      ((wideVirtual n).indexes.2 + 9) = some o := by
  have hptr : ∀ e ∈ initLookup (wideVirtual n).fields, e.t.kind.isPtr = true := by
    intro e he
    have hget := ((wideVirtual_proper n).initLookup_spec.2 e).mp he
    obtain ⟨i, -, hi⟩ := List.mem_map.mp (List.mem_of_getElem? hget)
    have ht : e.t = .basic .hDyn := (congrArg VField.t hi).symm
    rw [ht]
    rfl
  have hlen : (initLookup (wideVirtual n).fields).length = n := by
    have hperm := (initLookup_names (wideVirtual n).fields).length_eq
    rw [List.length_map, List.length_map, wideVirtual_length] at hperm
    exact hperm
  obtain ⟨l, hl⟩ := @makeLookup_pointers _ hptr 0 0 0 (by omega)
  unfold DynState.hlVirtualMakeValue
  simp only [hl]
  refine ⟨_, if_pos ?_⟩
  simp only [Apart]
  omega

theorem wide_null {n : Nat} (hwide : orderLimit < n) {base rawAt valuesAt : Int} {mem : Memory}
    (h : DynState.hlVirtualMakeValue (wideVirtual n) base mem rawAt valuesAt = some o) :
    none ∈ o.hlObjFields ∧ none ∉ (wideVirtual n).fields.map fun vf => some vf.hash := by
  constructor
  · by_contra hnone
    have hle := makeValue_length h hnone
    rw [wideVirtual_length] at hle
    omega
  · intro hnone
    obtain ⟨vf, -, hvf⟩ := List.mem_map.mp hnone
    cases hvf

theorem wide_noticed {n : Nat} (hwide : orderLimit < n) (hroom : n ≤ indexMask + 1) :
    ∃ (v v' : VVirtual) (rawAt valuesAt : Int), v.t = wideVirtual n ∧ v.Valid ∧
      v.hlVirtualMakeValue rawAt valuesAt = some v' ∧ none ∈ v'.hlObjFields ∧ ¬Neutral v v' := by
  obtain ⟨o, ho⟩ := wideVirtual_makes hroom fun _ => 0
  obtain ⟨hafter, hbefore⟩ := wide_null hwide ho
  refine ⟨⟨wideVirtual n, 0, fun _ => 0, none⟩, ⟨wideVirtual n, 0, fun _ => 0, some o⟩, _, _, rfl,
    VVirtual.valid_of_none rfl, congrArg (Option.map _) ho, hafter, fun hneutral => ?_⟩
  exact hbefore ((hneutral.fields none).mp hafter)

theorem wide_virtual_noticed :
    ∃ (v v' : VVirtual) (rawAt valuesAt : Int), v.t = wideVirtual (orderLimit + 1) ∧ v.Valid ∧
      v.hlVirtualMakeValue rawAt valuesAt = some v' ∧ none ∈ v'.hlObjFields ∧ ¬Neutral v v' :=
  wide_noticed (Nat.lt_succ_self _) (by decide)

end DynObj

end HashLink
