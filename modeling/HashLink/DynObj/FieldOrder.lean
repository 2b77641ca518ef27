import HashLink.DynObj.Soundness
import HashLink.Lib.Numbering

/-! The order in which an object lists its fields. Each entry of the lookup has a number above its
index, the additions count the fields and the deletions renumber them, and the list is made by
writing each name at its number. The numbers have 15 bits, which nothing checks. -/

namespace HashLink

namespace DynObj

open Numbering

/-- `hl_obj_fields` on a dynamic object: an array of nulls where each name is stored. -/
def DynState.hlObjFields (o : DynState) : List (Option Int) :=
  o.lookup.foldl (fun a f => a.set f.order (some f.hash)) (List.replicate o.lookup.length none)

/-- An addition or a deletion that was made. -/
inductive FieldEvent where
  | added (hash : Int)
  | deleted (hash : Int)

def FieldEvent.record (names : List Int) : FieldEvent → List Int
  | .added hash => names ++ [hash]
  | .deleted hash => names.erase hash

namespace DynState

/-- The call of `hl_dynobj_add_field`, when it raises no error. -/
def addEvents (o : DynState) (hash : Int) (t : HlTy) (newData : Int) : List FieldEvent :=
  if (o.hlDynobjAddField hash t newData).isSome then [.added hash] else []

/-- The additions and deletions of an operation. A set whose type does not fit the place of the
field deletes the field and adds it again. -/
def events (o : DynState) : Op → List FieldEvent
  | .set hash t newData _ =>
    match SortedTable.findIdx DynField.hash o.lookup hash with
    | none => o.addEvents hash t.1 newData
    | some i =>
      match o.lookup[i]? with
      | none => []
      | some f =>
        if hlSameType t.1 f.t then []
        else if t.1.kind.isPtr ≠ f.isPtr ∨ t.1.kind.size ≠ f.size then
          .deleted hash :: (o.hlDynobjDeleteField i f).addEvents hash t.1 newData
        else []
  | .delete hash => if (o.find hash).isSome then [.deleted hash] else []
  | _ => []

/-- An operation on an object whose fields were inserted in some order. -/
def track (s : DynState × List Int) (op : Op) : DynState × List Int :=
  (s.1.apply op, (s.1.events op).foldl FieldEvent.record s.2)

end DynState

/-- The list has every field of the object once, in an order. -/
structure InOrder (o : DynState) (names : List Int) : Prop where
  listed : o.hlObjFields = names.map some
  once : names.Nodup
  present : ∀ hash, hash ∈ names ↔ (o.find hash).isSome

def DynField.mark (f : DynField) : Int × Nat := (f.hash, f.order)

def DynState.marks (o : DynState) : List (Int × Nat) := o.lookup.map DynField.mark

theorem hlObjFields_eq (o : DynState) :
    o.hlObjFields = write (List.replicate o.marks.length none) o.marks := by
  unfold DynState.hlObjFields DynState.marks write
  rw [List.length_map, List.foldl_map]
  rfl

variable {o : DynState} {hash : Int}

theorem numbers_iff (h : Inv o) {names : List Int} :
    Numbers o.marks names ↔ InOrder o names := by
  constructor
  · intro hnum
    have hperm : (o.lookup.map DynField.hash).Perm names := by
      have hkeys := hnum.keys
      rwa [DynState.marks, List.map_map] at hkeys
    refine ⟨(hlObjFields_eq o).trans hnum.write_eq, hperm.nodup_iff.mp h.layout.sorted.nodup, ?_⟩
    intro hash
    rw [← hperm.mem_iff, List.mem_map, Option.isSome_iff_exists]
    exact exists_congr fun f => h.find_iff.symm
  · intro hin
    exact numbers_of_write ((hlObjFields_eq o).symm.trans hin.listed)

/-! ### What the operations do to the numbers -/

theorem compactLoop_marks (newData : Int) (l : List DynField) (n : Nat) (o : DynState) :
    (DynState.compactLoop newData l n o).1.map DynField.mark = l.map DynField.mark := by
  induction l generalizing n o with
  | nil => rfl
  | cons f rest ih =>
    unfold DynState.compactLoop
    split
    · exact congrArg (f.mark :: ·) (ih n o)
    · exact congrArg (f.mark :: ·) (ih _ _)

theorem moveRaw_marks (o : DynState) (newData : Int) (size : Nat) :
    (o.moveRaw newData size).marks = o.marks := by
  unfold DynState.moveRaw
  split
  · rfl
  · exact compactLoop_marks newData o.lookup 0 o

theorem addEntry_marks (o : DynState) (hash : Int) (t : HlTy) (index : Nat) (offset : Int) :
    (o.addEntry hash t index offset).1.marks.Perm ((hash, o.marks.length % orderLimit) :: o.marks) := by
  have hput : (o.addEntry hash t index offset).1.lookup.Perm
      (⟨hash, t, index, o.lookup.length % orderLimit⟩ :: o.lookup) := by
    refine List.perm_middle.trans (List.Perm.cons _ ?_)
    rw [List.take_append_drop]
  unfold DynState.marks
  rw [List.length_map]
  exact hput.map DynField.mark

theorem add_marks {o' : DynState} {t : HlTy} {newData : Int} {f : DynField}
    (h : o.hlDynobjAddField hash t newData = some (o', f)) :
    o'.marks.Perm ((hash, o.marks.length % orderLimit) :: o.marks) := by
  unfold DynState.hlDynobjAddField at h
  split at h
  · dsimp only at h
    split at h
    · cases h
    · split at h
      · obtain rfl := congrArg Prod.fst (Option.some.inj h)
        exact addEntry_marks _ hash t _ _
      · cases h
  · dsimp only at h
    split at h
    · cases h
    · split at h
      · obtain rfl := congrArg Prod.fst (Option.some.inj h)
        rw [← moveRaw_marks o newData o.keptSize]
        exact addEntry_marks _ hash t _ _
      · cases h

/-- The numbers without those of the entry `i`. -/
def dropMark (m : List (Int × Nat)) (i order : Nat) : List (Int × Nat) :=
  (m.eraseIdx i).map (renumber order)

theorem delete_marks (o : DynState) (i : Nat) (f : DynField) :
    (o.hlDynobjDeleteField i f).marks = dropMark o.marks i f.order := by
  unfold DynState.marks dropMark
  rw [delete_lookup, List.eraseIdx_map, List.map_map, List.map_map]
  exact List.map_congr_left fun g _ => rfl

theorem marks_get {i : Nat} {f : DynField} (hget : o.lookup[i]? = some f) :
    o.marks[i]? = some (f.hash, f.order) := by
  rw [DynState.marks, List.getElem?_map, hget]
  rfl

theorem retype_marks {i : Nat} {f : DynField} (hget : o.lookup[i]? = some f) (t : HlTy) :
    (o.lookup.set i { f with t }).map DynField.mark = o.marks := by
  obtain ⟨hlt, heq⟩ := List.getElem?_eq_some_iff.mp (marks_get hget)
  have hsame : ({ f with t } : DynField).mark = o.marks[i] := heq.symm
  rw [List.map_set, hsame]
  exact List.set_getElem_self hlt

/-- The numbers after an addition: the new entry has the number of the entries before it, less what
does not fit. -/
def Appends (m : List (Int × Nat)) (hash : Int) (m' : List (Int × Nat)) : Prop :=
  m'.Perm ((hash, m.length % orderLimit) :: m)

/-- What an operation does to the numbers, with the additions and deletions it makes. -/
inductive Marked (m : List (Int × Nat)) : List FieldEvent → List (Int × Nat) → Prop
  | same : Marked m [] m
  | added {hash : Int} {m' : List (Int × Nat)} (h : Appends m hash m') : Marked m [.added hash] m'
  | deleted {hash : Int} {i order : Nat} (h : m[i]? = some (hash, order)) :
      Marked m [.deleted hash] (dropMark m i order)
  | replaced {hash : Int} {i order : Nat} {m' : List (Int × Nat)} (h : m[i]? = some (hash, order))
      (h' : Appends (dropMark m i order) hash m') : Marked m [.deleted hash, .added hash] m'

theorem lookupSet_marked (o : DynState) (hash : Int) (t : ValueType) (newData : Int) (value : Nat → UInt8) :
    Marked o.marks (o.events (.set hash t newData value)) (o.hlObjLookupSet hash t.1 newData).1.marks := by
  unfold DynState.hlObjLookupSet DynState.events DynState.addEvents
  cases hidx : SortedTable.findIdx DynField.hash o.lookup hash with
  | none =>
    simp only [hidx]
    cases hadd : o.hlDynobjAddField hash t.1 newData with
    | none => exact .same
    | some p => exact .added (add_marks hadd)
  | some i =>
    obtain ⟨f, hget, rfl⟩ := SortedTable.findIdx_some hidx
    simp only [hidx, hget]
    by_cases hsame : hlSameType t.1 f.t
    · rw [if_pos hsame, if_pos hsame]
      exact .same
    · rw [if_neg hsame, if_neg hsame]
      by_cases hother : t.1.kind.isPtr ≠ f.isPtr ∨ t.1.kind.size ≠ f.size
      · rw [if_pos hother, if_pos hother]
        have hdelete := delete_marks o i f
        cases hadd : (o.hlDynobjDeleteField i f).hlDynobjAddField f.hash t.1 newData with
        | none =>
          rw [hdelete]
          exact .deleted (marks_get hget)
        | some p =>
          have hmarks := add_marks hadd
          rw [hdelete] at hmarks
          exact .replaced (marks_get hget) hmarks
      · rw [if_neg hother, if_neg hother]
        show Marked o.marks [] ((o.lookup.set i { f with t := t.1 }).map DynField.mark)
        rw [retype_marks hget t.1]
        exact .same

theorem setField_marks (o : DynState) (hash : Int) (t : HlTy) (newData : Int) (value : Nat → UInt8) :
    (o.setField hash t newData value).1.marks = (o.hlObjLookupSet hash t newData).1.marks := by
  unfold DynState.setField
  split
  · rename_i heq
    rw [heq]
    rfl
  · rename_i heq
    rw [heq]

theorem deleteField_marked (o : DynState) (hash : Int) :
    Marked o.marks (o.events (.delete hash)) (o.deleteField hash).marks := by
  unfold DynState.deleteField DynState.events
  cases hidx : SortedTable.findIdx DynField.hash o.lookup hash with
  | none =>
    have hnone : o.find hash = none := by
      rw [DynState.find, SortedTable.find, hidx, Option.bind_none]
    simp only [hnone]
    exact .same
  | some i =>
    obtain ⟨f, hget, rfl⟩ := SortedTable.findIdx_some hidx
    have hfind : o.find f.hash = some f := SortedTable.find_of_findIdx hidx hget
    simp only [hfind, hget, delete_marks]
    exact .deleted (marks_get hget)

theorem attach_marks (o : DynState) (vt : VirtType) : (o.attach vt).marks = o.marks := by
  unfold DynState.attach
  split <;> rfl

theorem writeSlot_marks (o : DynState) (view : Nat) (hash : Int) (value : Nat → UInt8) :
    (o.writeSlot view hash value).marks = o.marks := by
  unfold DynState.writeSlot
  split
  · rfl
  · split
    · rfl
    · dsimp only
      split <;> rfl

theorem apply_marked (o : DynState) (op : Op) : Marked o.marks (o.events op) (o.apply op).marks := by
  cases op with
  | set hash t newData value =>
    have hmarks : (o.apply (.set hash t newData value)).marks = _ :=
      setField_marks o hash t.1 newData value
    rw [hmarks]
    exact lookupSet_marked o hash t newData value
  | delete hash => exact deleteField_marked o hash
  | attach vt =>
    have hmarks : (o.apply (.attach vt)).marks = o.marks := attach_marks o vt
    rw [hmarks]
    exact .same
  | writeSlot view hash value =>
    have hmarks : (o.apply (.writeSlot view hash value)).marks = o.marks :=
      writeSlot_marks o view hash value
    rw [hmarks]
    exact .same
  | writeOutside mem => exact .same

/-! ### The numbers are the places in the order of insertion -/

section Numbers

variable {m m' : List (Int × Nat)} {names : List Int}

theorem Appends.numbers (h : Appends m hash m') (hnum : Numbers m names) (hle : m'.length ≤ orderLimit) :
    Numbers m' (names ++ [hash]) := by
  have hlen := h.length_eq
  rw [List.length_cons] at hlen
  rw [Appends, Nat.mod_eq_of_lt (by omega), hnum.length_eq] at h
  exact hnum.append h

theorem dropMark_numbers (hnum : Numbers m names) (hnodup : names.Nodup) {i order : Nat}
    (hget : m[i]? = some (hash, order)) : Numbers (dropMark m i order) (names.erase hash) := by
  obtain ⟨hlt, heq⟩ := List.getElem?_eq_some_iff.mp hget
  have hperm : ((hash, order) :: m.eraseIdx i).Perm m := heq ▸ List.getElem_cons_eraseIdx_perm hlt
  have hplace := hnum.get_iff.mp (hperm.mem_iff.mp List.mem_cons_self)
  obtain ⟨hltn, hname⟩ := List.getElem?_eq_some_iff.mp hplace
  have herase : names.erase hash = names.eraseIdx order := by
    rw [← hname]
    exact hnodup.erase_getElem order hltn
  rw [herase]
  exact Numbers.erase (hperm.trans hnum)

/-- An operation keeps the numbers in step with the order of insertion, when it leaves no more
fields than there are numbers. -/
theorem Marked.numbers {events : List FieldEvent} (h : Marked m events m') (hnum : Numbers m names)
    (hnodup : names.Nodup) (hle : m'.length ≤ orderLimit) :
    Numbers m' (events.foldl FieldEvent.record names) := by
  cases h with
  | same => exact hnum
  | added happ => exact happ.numbers hnum hle
  | deleted hget => exact dropMark_numbers hnum hnodup hget
  | replaced hget happ => exact happ.numbers (dropMark_numbers hnum hnodup hget) hle

def Bounded (m : List (Int × Nat)) : Prop := ∀ e ∈ m, e.2 < orderLimit

theorem Appends.bounded (h : Appends m hash m') (hm : Bounded m) : Bounded m' := by
  intro e he
  rcases List.mem_cons.mp (h.mem_iff.mp he) with rfl | he
  · exact Nat.mod_lt _ (by decide)
  · exact hm e he

theorem dropMark_bounded (hm : Bounded m) (i order : Nat) : Bounded (dropMark m i order) := by
  intro e' he'
  obtain ⟨e, he, rfl⟩ := List.mem_map.mp he'
  have hlt := hm e (List.mem_of_mem_eraseIdx he)
  show (if order < e.2 then e.2 - 1 else e.2) < orderLimit
  split <;> omega

theorem Marked.bounded {events : List FieldEvent} (h : Marked m events m') (hm : Bounded m) :
    Bounded m' := by
  cases h with
  | same => exact hm
  | added happ => exact happ.bounded hm
  | deleted hget => exact dropMark_bounded hm _ _
  | replaced hget happ => exact happ.bounded (dropMark_bounded hm _ _)

end Numbers

theorem bounded_foldl (h : Bounded o.marks) (ops : List Op) :
    Bounded (ops.foldl DynState.apply o).marks := by
  induction ops generalizing o with
  | nil => exact h
  | cons op ops ih => exact ih ((apply_marked o op).bounded h)

theorem bounded_recastLoop (bits : List Nat) (extraCheck : Bool) (cast : Nat → DynState.Recast)
    (l : List (VField × Nat)) (h : Bounded o.marks) :
    Bounded (DynState.recastLoop bits extraCheck cast l o).marks := by
  induction l generalizing o with
  | nil => exact h
  | cons p rest ih =>
    obtain ⟨vf, i⟩ := p
    rw [DynState.recastLoop]
    split
    · rename_i hcond
      have hvf : vf.t.kind ≠ .hVoid := by
        intro hvoid
        rcases hcond.2.2 with hptr | hfloat
        · rw [hvoid] at hptr
          cases hptr
        · rw [hvoid] at hfloat
          cases hfloat
      have hnow := bounded_foldl h (cast i).meanwhile
      simp only
      split
      · exact hnow
      · rename_i value _
        have hset : Bounded (((cast i).meanwhile.foldl DynState.apply o).setField vf.hash vf.t
            (cast i).newData value).1.marks :=
          (apply_marked _ (.set vf.hash ⟨vf.t, hvf⟩ (cast i).newData value)).bounded hnow
        split
        · rename_i o' heq
          rw [heq] at hset
          exact ih hset
        · rename_i o' heq
          rw [heq] at hset
          exact hset
    · exact ih h

theorem makeLookup_marks {lookup : List VLookup} {i nvalues rawSize : Nat}
    {r : List DynField × Nat × Nat} (h : DynState.makeLookup lookup i nvalues rawSize = some r) :
    r.1.map DynField.mark = (lookup.zipIdx i).map fun e => (e.1.hash, e.2 % orderLimit) := by
  induction lookup generalizing i nvalues rawSize r with
  | nil =>
    cases h
    rfl
  | cons vf rest ih =>
    rw [DynState.makeLookup] at h
    generalize (if vf.t.kind.isPtr then nvalues else rawSize + hlPadSize rawSize vf.t.kind) = index at h
    dsimp only at h
    by_cases hmask : indexMask < index
    · rw [if_pos hmask] at h
      cases h
    · rw [if_neg hmask] at h
      obtain ⟨r', hrest, rfl⟩ := Option.map_eq_some_iff.mp h
      exact congrArg ((vf.hash, i % orderLimit) :: ·) (ih hrest)

theorem makeValue_marks {vt : VirtType} {base rawAt valuesAt : Int} {mem : FlatMemory.Memory}
    (h : DynState.hlVirtualMakeValue vt base mem rawAt valuesAt = some o) :
    o.marks = ((initLookup vt.fields).zipIdx).map fun e => (e.1.hash, e.2 % orderLimit) := by
  unfold DynState.hlVirtualMakeValue at h
  simp only at h
  split at h
  · cases h
  · rename_i l nvalues rawSize hmake
    split at h
    · cases h
      exact makeLookup_marks hmake
    · cases h

theorem bounded_reachable {P : VirtType → Prop} (h : Reachable P o) : Bounded o.marks := by
  induction h with
  | alloc mem => exact fun e he => absurd he List.not_mem_nil
  | makeValue _ h =>
    intro e he
    rw [makeValue_marks h] at he
    obtain ⟨e', -, rfl⟩ := List.mem_map.mp he
    exact Nat.mod_lt _ (by decide)
  | copy _ h ih =>
    unfold DynState.hlObjCopy at h
    split at h
    · cases h
      exact ih
    · cases h
  | serve _ r _ ih =>
    cases r with
    | op a => exact (apply_marked _ a).bounded ih
    | toVirtual castFun vt cast =>
      unfold DynState.serve DynState.hlToVirtual
      dsimp only
      split
      · exact ih
      · refine bounded_recastLoop _ _ cast vt.fields.zipIdx ?_
        rw [attach_marks]
        exact ih

theorem fst_foldl_track (ops : List Op) (s : DynState × List Int) :
    (ops.foldl DynState.track s).1 = ops.foldl DynState.apply s.1 := by
  induction ops generalizing s with
  | nil => rfl
  | cons op ops ih => exact ih (DynState.track s op)

theorem length_le_of_listed {names : List Int} (hlisted : o.hlObjFields = names.map some)
    (hbounded : Bounded o.marks) :
    o.lookup.length ≤ orderLimit := by
  have hnum : Numbers o.marks names := numbers_of_write ((hlObjFields_eq o).symm.trans hlisted)
  have hlen : o.lookup.length = names.length := (List.length_map _).symm.trans hnum.length_eq
  refine Nat.le_of_not_lt fun hlt => ?_
  rw [hlen] at hlt
  have hlast : (names[orderLimit], orderLimit) ∈ o.marks :=
    hnum.get_iff.mpr (List.getElem?_eq_getElem hlt)
  exact Nat.lt_irrefl _ (hbounded _ hlast)

theorem reachable_foldl {P : VirtType → Prop} (h : Reachable P o) {ops : List Op}
    (hops : ∀ op ∈ ops, op.Over P) : Reachable P (ops.foldl DynState.apply o) := by
  induction ops generalizing o with
  | nil => exact h
  | cons op ops ih =>
    obtain ⟨hop, hrest⟩ := List.forall_mem_cons.mp hops
    exact ih (h.serve (.op op) hop) hrest

/-- The fields are listed in the order of their insertion throughout a run if and only if the object
never has more than 32768 of them. -/
theorem fields_in_insertion_order {o : DynState} {names : List Int} (h : Reachable VirtType.Proper o)
    (hstart : InOrder o names) (ops : List Op) (hops : ∀ op ∈ ops, op.Over VirtType.Proper) :
    (∀ n, InOrder ((ops.take n).foldl DynState.track (o, names)).1
        ((ops.take n).foldl DynState.track (o, names)).2) ↔
      ∀ n, ((ops.take n).foldl DynState.apply o).lookup.length ≤ orderLimit := by
  have hreachable : ∀ n, Reachable VirtType.Proper ((ops.take n).foldl DynState.apply o) :=
    fun n => reachable_foldl h fun op hop => hops op (List.mem_of_mem_take hop)
  have hstate : ∀ n, ((ops.take n).foldl DynState.track (o, names)).1 =
      (ops.take n).foldl DynState.apply o := fun n => fst_foldl_track (ops.take n) (o, names)
  constructor
  · intro hin n
    have hn := hin n
    rw [hstate] at hn
    exact length_le_of_listed hn.listed (bounded_reachable (hreachable n))
  · intro hle n
    induction n with
    | zero => exact hstart
    | succ n ih =>
      have hreach := hreachable n
      have hbound := hle (n + 1)
      rw [← hstate] at hreach hbound
      rw [List.take_add_one] at hbound ⊢
      cases hop : ops[n]? with
      | none =>
        rw [Option.toList_none, List.append_nil]
        exact ih
      | some op =>
        rw [hop, Option.toList_some, List.foldl_append] at hbound
        rw [Option.toList_some, List.foldl_append]
        generalize (ops.take n).foldl DynState.track (o, names) = s at ih hreach hbound ⊢
        have hinv := inv_reachable hreach
        have hinv' := inv_reachable (hreach.serve (.op op) (hops op (List.mem_of_getElem? hop)))
        refine (numbers_iff hinv').mp ?_
        refine (apply_marked s.1 op).numbers ((numbers_iff hinv).mpr ih) ih.once ?_
        rw [DynState.marks, List.length_map]
        exact hbound

/-- Two fields are added, and the first one is deleted and added again. -/
def demoOrder : List Op :=
  [.set 5 ⟨.basic .hI32, by decide⟩ 64 fun _ => 7, .set 3 ⟨.basic .hDyn, by decide⟩ 128 fun _ => 1,
    .delete 5, .set 5 ⟨.basic .hDyn, by decide⟩ 192 fun _ => 2]

theorem fields_in_insertion_order_readded :
    (∀ n, InOrder ((demoOrder.take n).foldl DynState.track (DynState.hlAllocDynobj fun _ => 0, [])).1
      ((demoOrder.take n).foldl DynState.track (DynState.hlAllocDynobj fun _ => 0, [])).2) ∧
    (demoOrder.foldl DynState.track (DynState.hlAllocDynobj fun _ => 0, [])).2 = [3, 5] := by
  have hstart : InOrder (DynState.hlAllocDynobj fun _ => 0) [] :=
    ⟨rfl, List.nodup_nil, fun hash => by
      simp [DynState.find, SortedTable.find, DynState.hlAllocDynobj]⟩
  refine ⟨(fields_in_insertion_order (.alloc _) hstart demoOrder ?_).mpr fun n => ?_, by decide⟩
  · exact List.forall_mem_cons.mpr ⟨trivial, List.forall_mem_cons.mpr ⟨trivial, List.forall_mem_cons.mpr ⟨trivial,
      List.forall_mem_singleton.mpr trivial⟩⟩⟩
  rcases n with _ | _ | _ | _ | n
  · decide
  · decide
  · decide
  · decide
  · have htake : demoOrder.take (n + 1 + 1 + 1 + 1) = demoOrder :=
      List.take_of_length_le (by simp [demoOrder])
    rw [htake]
    decide

/-! ### An object with a field more than there are numbers -/

def wideData (n : Nat) : Int := (8 * (n * n) : Nat)

def wideOps (n : Nat) : List Op :=
  (List.range n).map fun (i : Nat) => .set i ⟨.basic .hDyn, by decide⟩ (wideData (i + 1)) fun _ => 0

/-- The object after a number of these additions. -/
structure Wide (o : DynState) (n : Nat) : Prop where
  length : o.lookup.length = n
  nvalues : o.nvalues = n
  values : o.values = wideData n
  raw : o.raw = 0
  rawSize : o.rawSize = 0
  hashes : ∀ f ∈ o.lookup, f.hash < n

theorem Wide.fresh {n : Nat} (h : Wide o n) :
    o.Fresh (wideData (n + 1)) (8 * (o.nvalues + 1)) := by
  have hsq : (n + 1) * (n + 1) = n * n + 2 * n + 1 := by grind
  unfold DynState.Fresh FlatMemory.Apart wideData
  rw [h.values, h.raw, h.rawSize, h.nvalues, hsq, wideData]
  omega

theorem Wide.add {n : Nat} (h : Wide o n) (hmask : n ≤ indexMask) :
    ∃ o' f, o.hlDynobjAddField n (.basic .hDyn) (wideData (n + 1)) = some (o', f) ∧ Wide o' (n + 1) := by
  have hindex : ¬indexMask < o.nvalues := by
    rw [h.nvalues]
    omega
  unfold DynState.hlDynobjAddField
  simp only [HlTy.kind, HlTypeKind.isPtr, if_true, if_neg hindex, if_pos h.fresh]
  refine ⟨_, _, rfl, ?_, ?_, rfl, h.raw, h.rawSize, ?_⟩
  · have hperm := (addEntry_marks o n (.basic .hDyn) o.nvalues 0).length_eq
    rw [List.length_cons, DynState.marks, List.length_map, DynState.marks, List.length_map, h.length] at hperm
    exact hperm
  · exact congrArg (· + 1) h.nvalues
  · intro f hf
    rcases SortedTable.mem_put.mp hf with rfl | hf
    · exact Int.lt_succ _
    · exact Int.lt_trans (h.hashes f hf) (Int.lt_succ _)

theorem Wide.setField {n : Nat} (h : Wide o n) (hmask : n ≤ indexMask) (value : Nat → UInt8) :
    Wide (o.setField n (.basic .hDyn) (wideData (n + 1)) value).1 (n + 1) := by
  have hidx : SortedTable.findIdx DynField.hash o.lookup n = none := by
    cases hidx : SortedTable.findIdx DynField.hash o.lookup n with
    | none => rfl
    | some i =>
      obtain ⟨f, hget, hf⟩ := SortedTable.findIdx_some hidx
      have hlt := h.hashes f (List.mem_of_getElem? hget)
      omega
  obtain ⟨o', f, hadd, hwide⟩ := h.add hmask
  unfold DynState.setField DynState.hlObjLookupSet
  simp only [hidx, hadd]
  exact ⟨hwide.length, hwide.nvalues, hwide.values, hwide.raw, hwide.rawSize, hwide.hashes⟩

theorem wide_run {n : Nat} (hle : n ≤ indexMask + 1) (mem : FlatMemory.Memory) :
    Wide ((wideOps n).foldl DynState.apply (DynState.hlAllocDynobj mem)) n := by
  induction n with
  | zero => exact ⟨rfl, rfl, rfl, rfl, rfl, fun f hf => absurd hf List.not_mem_nil⟩
  | succ n ih =>
    have hops : wideOps (n + 1) = wideOps n ++
        [.set n ⟨.basic .hDyn, by decide⟩ (wideData (n + 1)) fun _ => 0] := by
      unfold wideOps
      rw [List.range_succ, List.map_append]
      rfl
    rw [hops, List.foldl_append]
    exact (ih (by omega)).setField (by omega) fun _ => 0

/-- The field after the last number has the first number again, and its place is null. -/
theorem wide_field_unlisted :
    ¬InOrder ((wideOps (orderLimit + 1)).foldl DynState.track (DynState.hlAllocDynobj fun _ => 0, [])).1
      ((wideOps (orderLimit + 1)).foldl DynState.track (DynState.hlAllocDynobj fun _ => 0, [])).2 := by
  intro hin
  rw [fst_foldl_track] at hin
  have hover : ∀ op ∈ wideOps (orderLimit + 1), op.Over VirtType.Proper := by
    intro op hop
    obtain ⟨i, -, rfl⟩ := List.mem_map.mp hop
    trivial
  have hreach := reachable_foldl (.alloc fun _ => 0) hover
  have hle := length_le_of_listed hin.listed (bounded_reachable hreach)
  have hwide : _ = orderLimit + 1 := (wide_run (n := orderLimit + 1) (by decide) fun _ => 0).length
  rw [hwide] at hle
  exact Nat.not_succ_le_self _ hle

end DynObj

end HashLink
