import HashLink.DynObj.Model
import HashLink.Lib.StructLayout
import HashLink.Objects.PackedDivision

/-!
`hl_get_obj_rt`: the size of the objects of a class as an `int`, and the mark bits of its type, with a bit for each
word of an object that the collector looks at.
-/

namespace HashLink

open StructLayout

/-- `hl_mark_size`, in bytes. -/
def hlMarkSize (dataSize : Nat) : Nat := ((dataSize + hlWSize - 1) / hlWSize + 31) / 32 * 4

abbrev MarkBits := List (BitVec 32)

namespace MarkBits

/-- `mark[pos >> 5] & (1 << (pos & 31))`, where the bits are looked at. -/
def has (mark : MarkBits) (pos : Nat) : Bool := (mark.getD (pos / 32) 0).getLsbD (pos % 32)

/-- `mark[pos >> 5] |= 1 << (pos & 31)`, inside the array. -/
def set (mark : MarkBits) (pos : Nat) : Option MarkBits :=
  if pos / 32 < mark.length then some (mark.modify (pos / 32) (· ||| BitVec.twoPow 32 (pos % 32))) else none

/-- `memcpy(mark, src, size)`. -/
def copy (mark src : MarkBits) (size : Nat) : Option MarkBits :=
  if size / 4 ≤ src.length ∧ size / 4 ≤ mark.length then some (src.take (size / 4) ++ mark.drop (size / 4)) else none

/-- The bits of a packed structure of `nwords` words, from the word `pos` on. -/
def setPacked (nested : MarkBits) (pos nwords : Nat) (mark : MarkBits) : Option MarkBits :=
  (List.range nwords).foldlM (fun mark k =>
    if nested.length ≤ k / 32 then none else if nested.has k then mark.set (pos + k) else some mark) mark

end MarkBits

/-- What `hl_get_obj_rt` finds out about the objects of a class, with `ot->mark_bits`. -/
structure ClassLayout where
  rt : ObjRt
  hasPtr : Bool
  markBits : Option MarkBits

namespace ClassLayout

/-- Whether a field brings a pointer to the objects. -/
def holdsPtr (m : HlModule) (layouts : Nat → Option ClassLayout) (field : HlObjField) : Bool :=
  let type := m.typeAt field.t
  if type.kind = .hPacked then
    match type.data with
    | .tparam u => (layouts u).any (·.hasPtr)
    | _ => false
  else type.kind.isPtr

def markField (m : HlModule) (layouts : Nat → Option ClassLayout) (mark : MarkBits) (field : HlObjField × Int) :
    Option MarkBits :=
  let type := m.typeAt field.1.t
  let pos := field.2.toNat / hlWSize
  if type.kind.isPtr then
    if type.kind = .hPacked then
      match type.data with
      | .tparam u => do
          let rts ← layouts u
          match rts.markBits with
          | some nested => MarkBits.setPacked nested pos (rts.rt.size / hlWSize) mark
          | none => some mark
      | _ => none
    else mark.set pos
  else some mark

def markInherited (parent : Option ClassLayout) (mark : MarkBits) : Option MarkBits :=
  match parent with
  | some p =>
    match p.markBits with
    | some inherited => MarkBits.copy mark inherited (hlMarkSize p.rt.size)
    | none => some mark
  | none => some mark

/-- The mark bits of a class. Their size is computed from a sum that has to be an `int` too. -/
def marks (m : HlModule) (layouts : Nat → Option ClassLayout) (obj : HlTypeObj) (parent : Option ClassLayout)
    (rt : ObjRt) : Option MarkBits :=
  if 2 ^ 31 ≤ rt.size + (hlWSize - 1) then none
  else do
    let mark ← markInherited parent (List.replicate (hlMarkSize rt.size / 4) 0)
    (obj.fields.zip (rt.fieldsIndexes.drop rt.parentFields)).foldlM (markField m layouts) mark

/-- `hl_get_obj_rt` of a class, with the layouts of the others. All its sums are below the size it ends with, so an
`int` overflows where that one does. -/
def step (m : HlModule) (layouts : Nat → Option ClassLayout) (t : Nat) : Option ClassLayout := do
  let obj ← (m.typeAt t).obj?
  let parent ← ofSuper layouts obj
  let rt ← layoutClass m (fun u => (layouts u).map (·.rt)) (m.typeAt t).kind obj (parent.map (·.rt))
  if 2 ^ 31 ≤ rt.size then none
  else if parent.any (·.hasPtr) || obj.fields.any (holdsPtr m layouts) then do
    let mark ← marks m layouts obj parent rt
    return ⟨rt, true, some mark⟩
  else return ⟨rt, false, none⟩

end ClassLayout

/-- `hl_get_obj_rt`, with a bound on how deep it follows bases and packed structures. -/
def classLayout (m : HlModule) : Nat → Nat → Option ClassLayout := DepthBound.eval (ClassLayout.step m)

/-- What `hl_get_obj_rt` returns for a class. -/
def HasLayout (m : HlModule) (t : Nat) (c : ClassLayout) : Prop := ∃ depth, classLayout m depth t = some c

/-- A field as a member of a structure. A packed one is the structure it packs, which has to have something in it. -/
def memberOf (m : HlModule) (packed : Nat → Option Member) (field : HlObjField) : Option Member :=
  let type := m.typeAt field.t
  if type.kind = .hPacked then
    match type.data with
    | .tparam u => (packed u).filter fun mem => mem.align ≠ 0
    | _ => none
  else some ⟨type.kind.size, type.kind.size⟩

/-- The structure that a class declares: the members of its base and then its own. -/
def shapeStep (m : HlModule) (shapes : Nat → Option Struct) (t : Nat) : Option Struct := do
  let obj ← (m.typeAt t).obj?
  let base ← ofSuper shapes obj
  let own ← obj.fields.mapM (memberOf m fun u => (shapes u).map Struct.member)
  return (base.getD ⟨if (m.typeAt t).kind = .hStruct then 0 else hlWSize, []⟩).extend own

def classShape (m : HlModule) : Nat → Nat → Option Struct := DepthBound.eval (shapeStep m)

def HasShape (m : HlModule) (t : Nat) (s : Struct) : Prop := ∃ depth, classShape m depth t = some s

namespace MarkBits

variable {mark mark' nested src : MarkBits} {pos q n : Nat}

structure Covers (mark mark' : MarkBits) : Prop where
  length : mark'.length = mark.length
  has : ∀ q, mark.has q = true → mark'.has q = true

theorem Covers.refl (mark : MarkBits) : Covers mark mark := ⟨rfl, fun _ => id⟩

theorem Covers.trans {mark'' : MarkBits} (h : Covers mark mark') (h' : Covers mark' mark'') : Covers mark mark'' :=
  ⟨h'.length.trans h.length, fun q hq => h'.has q (h.has q hq)⟩

theorem lt_of_has (h : mark.has q = true) : q / 32 < mark.length := by
  by_contra hlt
  rw [has, List.getD_eq_default _ _ (Nat.le_of_not_lt hlt)] at h
  simp at h

theorem set_spec (mark : MarkBits) (pos : Nat) (h : pos / 32 < mark.length) :
    ∃ mark', mark.set pos = some mark' ∧ Covers mark mark' ∧ mark'.has pos = true := by
  have hhas : ∀ q, (mark.modify (pos / 32) (· ||| BitVec.twoPow 32 (pos % 32))).getD (q / 32) 0 =
      if pos / 32 = q / 32 then mark.getD (q / 32) 0 ||| BitVec.twoPow 32 (pos % 32) else mark.getD (q / 32) 0 := by
    intro q
    rw [List.getD_eq_getElem?_getD, List.getD_eq_getElem?_getD, List.getElem?_modify]
    split
    · rename_i heq
      rw [← heq, List.getElem?_eq_getElem h]
      rfl
    · cases mark[q / 32]? <;> rfl
  refine ⟨_, if_pos h, ⟨List.length_modify _ _ _, fun q hq => ?_⟩, ?_⟩
  · rw [has, hhas]
    split
    · rw [BitVec.getLsbD_or, show (mark.getD (q / 32) 0).getLsbD (q % 32) = true from hq, Bool.true_or]
    · exact hq
  · rw [has, hhas, if_pos rfl, BitVec.getLsbD_or, BitVec.getLsbD_twoPow]
    simp [Nat.mod_lt]

theorem copy_spec (mark : MarkBits) {size : Nat} (hsrc : src.length = size / 4) (hle : src.length ≤ mark.length) :
    ∃ mark', mark.copy src size = some mark' ∧ mark'.length = mark.length ∧
      ∀ q, src.has q = true → mark'.has q = true := by
  refine ⟨_, if_pos ⟨hsrc.ge, hsrc ▸ hle⟩, ?_, fun q hq => ?_⟩
  · rw [List.length_append, List.length_take, List.length_drop, ← hsrc, Nat.min_self]
    omega
  · rw [has, ← hsrc, List.take_length, List.getD_append _ _ _ _ (lt_of_has hq)]
    exact hq

theorem foldlM_spec {α : Type} {turn : MarkBits → α → Option MarkBits} {l : List α} {P : α → MarkBits → Prop}
    (hkept : ∀ a mark mark', Covers mark mark' → P a mark → P a mark')
    (hturn : ∀ a ∈ l, ∀ mark, mark.length = n → ∃ mark', turn mark a = some mark' ∧ Covers mark mark' ∧ P a mark')
    (hlength : mark.length = n) :
    ∃ mark', l.foldlM turn mark = some mark' ∧ Covers mark mark' ∧ ∀ a ∈ l, P a mark' := by
  induction l generalizing mark with
  | nil => exact ⟨mark, rfl, .refl mark, fun _ h => absurd h List.not_mem_nil⟩
  | cons a l ih =>
    obtain ⟨next, hnext, hcovers, ha⟩ := hturn a List.mem_cons_self mark hlength
    obtain ⟨mark', hrest, hcovers', hall⟩ := ih (fun b hb => hturn b (List.mem_cons_of_mem _ hb))
      (hcovers.length.trans hlength)
    refine ⟨mark', ?_, hcovers.trans hcovers', List.forall_mem_cons.mpr ⟨hkept a _ _ hcovers' ha, hall⟩⟩
    rw [List.foldlM_cons, hnext]
    exact hrest

theorem setPacked_spec {nwords : Nat} (hnested : nwords ≤ 32 * nested.length)
    (hmark : pos + nwords ≤ 32 * mark.length) :
    ∃ mark', setPacked nested pos nwords mark = some mark' ∧ Covers mark mark' ∧
      ∀ k < nwords, nested.has k = true → mark'.has (pos + k) = true := by
  obtain ⟨mark', hfold, hcovers, hall⟩ := @foldlM_spec mark mark.length Nat
    (fun mark k => if nested.length ≤ k / 32 then none else if nested.has k then mark.set (pos + k) else some mark)
    (List.range nwords) (fun k mark => nested.has k = true → mark.has (pos + k) = true)
    (fun k _ _ hcovers h hk => hcovers.has _ (h hk)) (fun k hk mark₁ hlength => by
      have hlt := List.mem_range.mp hk
      rw [if_neg (by omega)]
      by_cases hbit : nested.has k = true
      · obtain ⟨mark₂, hset, hcovers, hhas⟩ := set_spec mark₁ (pos + k) (by omega)
        exact ⟨mark₂, (if_pos hbit).trans hset, hcovers, fun _ => hhas⟩
      · exact ⟨mark₁, if_neg hbit, .refl mark₁, fun h => absurd h hbit⟩) rfl
  exact ⟨mark', hfold, hcovers, fun k hk => hall k (List.mem_range.mpr hk)⟩

end MarkBits

/-- The layout of a class has the structure that it declares. -/
structure Shaped (rt : ObjRt) (s : Struct) : Prop where
  indexes : rt.fieldsIndexes = s.offsets.map Nat.cast
  dataSize : rt.dataSize = s.finish
  largest : rt.largestField = s.largest
  size : rt.size = s.size

def ObjRt.member (rt : ObjRt) : Member := ⟨rt.size, rt.largestField⟩

variable {m : HlModule} {packed : Nat → Option ObjRt} {field : HlObjField} {obj : HlTypeObj}

theorem Shaped.member {rt : ObjRt} {s : Struct} (h : Shaped rt s) : rt.member = s.member := by
  rw [ObjRt.member, h.size, h.largest]
  rfl

theorem layoutField_eq (layout : FieldLayout) : layoutField m packed layout field =
    (memberOf m (fun u => (packed u).map ObjRt.member) field).map fun mem =>
      layout.put field (roundUp layout.size mem.align) mem.size mem.align := by
  unfold layoutField memberOf
  dsimp only
  by_cases hkind : (m.typeAt field.t).kind = .hPacked
  · rw [if_pos hkind, if_pos hkind]
    cases (m.typeAt field.t).data with
    | tparam u =>
      dsimp only
      cases packed u with
      | none => rfl
      | some rt =>
        show (if rt.largestField = 0 then none else _) = _
        by_cases hzero : rt.largestField = 0
        · simp [ObjRt.member, hzero]
        · simp [ObjRt.member, hzero, roundUp]
    | _ => rfl
  · rw [if_neg hkind, if_neg hkind]
    refine congrArg some (congrArg (fun offset => layout.put field offset _ _) ?_)
    unfold hlPadSize
    split
    · rename_i hnone
      have hzero : (m.typeAt field.t).kind.size = 0 := hnone.elim (fun hvoid => by rw [hvoid]; rfl) id
      rw [hzero, roundUp_zero, Nat.add_zero]
    · rfl

theorem layoutFields_eq {fields : List HlObjField} {layout layout' : FieldLayout}
    (h : fields.foldlM (layoutField m packed) layout = some layout') :
    ∃ own, fields.mapM (memberOf m fun u => (packed u).map ObjRt.member) = some own ∧
      layout'.size = finish layout.size own ∧
      layout'.largest = own.foldl (fun n mem => max n mem.align) layout.largest ∧
      layout'.indexes = layout.indexes ++ (offsets layout.size own).map Nat.cast := by
  induction fields generalizing layout with
  | nil =>
    cases h
    exact ⟨[], rfl, rfl, rfl, (List.append_nil _).symm⟩
  | cons field fields ih =>
    obtain ⟨next, hnext, h⟩ := Option.bind_eq_some_iff.mp h
    rw [layoutField_eq] at hnext
    obtain ⟨mem, hmem, rfl⟩ := Option.map_eq_some_iff.mp hnext
    obtain ⟨own, hown, hsize, hlargest, hindexes⟩ := ih h
    refine ⟨mem :: own, ?_, hsize, hlargest, ?_⟩
    · rw [List.mapM_cons, hmem, hown]
      rfl
    · rw [hindexes]
      exact List.append_assoc _ _ _

theorem layoutClass_shaped {kind : HlTypeKind} {parent : Option ObjRt} {base : Struct} {rt : ObjRt}
    (hbase : (parent = none ∧ base = ⟨if kind = .hStruct then 0 else hlWSize, []⟩) ∨
      ∃ p, parent = some p ∧ Shaped p base)
    (h : layoutClass m packed kind obj parent = some rt) :
    ∃ own, obj.fields.mapM (memberOf m fun u => (packed u).map ObjRt.member) = some own ∧
      Shaped rt (base.extend own) ∧ rt.parentFields = base.members.length := by
  obtain ⟨fields, hfields, h⟩ := Option.bind_eq_some_iff.mp h
  obtain ⟨own, hown, hsize, hlargest, hindexes⟩ := layoutFields_eq hfields
  cases h
  obtain ⟨hsize, hlargest, hindexes, hlength⟩ : fields.size = (base.extend own).finish ∧
      fields.largest = (base.extend own).largest ∧ fields.indexes = (base.extend own).offsets.map Nat.cast ∧
      (parent.map (·.fieldsIndexes.length)).getD 0 = base.members.length := by
    rw [Struct.finish, Struct.largest_extend, Struct.offsets, Struct.extend, finish_append, offsets_append,
      List.map_append]
    rcases hbase with ⟨rfl, rfl⟩ | ⟨p, rfl, hp⟩
    · exact ⟨hsize, hlargest, hindexes, rfl⟩
    · rw [← show p.dataSize = finish base.header base.members from hp.dataSize, ← hp.largest]
      refine ⟨hsize, hlargest, hindexes.trans ?_, ?_⟩
      · exact congrArg (· ++ _) hp.indexes
      · show p.fieldsIndexes.length = _
        rw [hp.indexes, List.length_map]
        exact length_offsets
  refine ⟨own, hown, ⟨hindexes, hsize, hlargest, ?_⟩, hlength⟩
  rw [← Struct.size_eq, ← hsize, ← hlargest]
  rfl

end HashLink
