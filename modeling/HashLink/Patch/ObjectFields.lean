import HashLink.Patch.Atomicity
import HashLink.Patch.Readers
import HashLink.Patch.Globals
import Mathlib.Data.List.GetD
import Mathlib.Data.List.Induction
import Mathlib.Data.List.Nodup

/-!
The fields a patch adds to classes. A class is loaded with unnamed fields in reserve; a patch names
some of them and gives each an entry in the lookup of its class. The lookups are staged in a chain,
each built from the one before it, and the last one of a class is published.
-/

namespace HashLink

open Transaction SortedTable

namespace HlTypeObj

/-- Where the field `k` of the class is in an object. -/
def offset (obj : HlTypeObj) (k : Nat) : Int :=
  obj.rt.fieldsIndexes.getD (obj.rt.parentFields + k) 0

/-- The entry of the lookup for the field `k`. -/
def entry (obj : HlTypeObj) (k : Nat) (field : HlObjField) : HlFieldLookup :=
  ⟨field.hashedName, field.t, obj.offset k⟩

/-- What `hl_get_obj_rt` leaves of a class. Its lookup is in order and has the entries of its named fields, next to
those of its methods, which have negative indexes. A field that is not `Void` takes room, so the fields behind it have
other offsets. -/
structure Laid (m : HlModule) (obj : HlTypeObj) : Prop where
  ordered : Ordered HlFieldLookup.hashedName obj.rt.lookup
  types : ∀ field ∈ obj.fields, field.t < m.ntypes
  apart : ∀ j k field, obj.fields[j]? = some field → (m.typeAt field.t).kind ≠ .hVoid → j < k → k < obj.fields.length →
    obj.offset j < obj.offset k
  fields : ∀ e ∈ obj.rt.lookup, 0 ≤ e.fieldIndex →
    ∃ k field, obj.fields[k]? = some field ∧ field.name ≠ [] ∧ e = obj.entry k field
  named : ∀ k field, obj.fields[k]? = some field → field.name ≠ [] → obj.entry k field ∈ obj.rt.lookup

def withLookup (obj : HlTypeObj) (lookup : List HlFieldLookup) : HlTypeObj :=
  { obj with rt := { obj.rt with lookup } }

/-- The class with the field `k` written over and entered into the lookup. -/
def addField (obj : HlTypeObj) (k : Nat) (field : HlObjField) : HlTypeObj :=
  { obj with
    fields := obj.fields.set k field
    rt := { obj.rt with lookup := insert HlFieldLookup.hashedName obj.rt.lookup (obj.entry k field) } }

variable {m m' : HlModule} {obj obj' : HlTypeObj} {k : Nat} {field : HlObjField}

/-- The class after fields were added one after the other, each with a name that was not there. -/
inductive Extends (obj : HlTypeObj) : List (Nat × HlObjField) → HlTypeObj → Prop where
  | nil : Extends obj [] obj
  | snoc {added : List (Nat × HlObjField)} {obj' : HlTypeObj} {k : Nat} {field : HlObjField}
      (before : Extends obj added obj') (named : field.name ≠ [])
      (fresh : find HlFieldLookup.hashedName obj'.rt.lookup field.hashedName = none) :
      Extends obj (added ++ [(k, field)]) (obj'.addField k field)

variable {added : List (Nat × HlObjField)}

theorem Extends.offset (h : obj.Extends added obj') (k : Nat) : obj'.offset k = obj.offset k := by
  induction h with
  | nil => rfl
  | snoc _ _ _ ih => exact ih

theorem Extends.fields (h : obj.Extends added obj') (hk : k ∉ added.map Prod.fst) :
    obj'.fields[k]? = obj.fields[k]? := by
  induction h with
  | nil => rfl
  | snoc _ _ _ ih =>
    rw [List.map_append, List.mem_append, not_or] at hk
    refine (List.getElem?_set_ne fun heq => ?_).trans (ih hk.1)
    exact hk.2 (List.mem_singleton.mpr heq.symm)

theorem Extends.lookup_perm (h : obj.Extends added obj') :
    obj'.rt.lookup.Perm (obj.rt.lookup ++ added.map fun (k, field) => obj.entry k field) := by
  induction h with
  | nil => exact List.Perm.of_eq (List.append_nil _).symm
  | @snoc added obj' k field before _ _ ih =>
    have hentry : obj'.entry k field = obj.entry k field :=
      congrArg (HlFieldLookup.mk _ _) (before.offset k)
    rw [List.map_append, ← List.append_assoc]
    refine insert_perm.trans ?_
    rw [hentry]
    exact (List.Perm.cons _ ih).trans (List.perm_append_singleton _ _).symm

theorem Extends.length (h : obj.Extends added obj') : obj'.fields.length = obj.fields.length := by
  induction h with
  | nil => rfl
  | snoc _ _ _ ih => exact (List.length_set ..).trans ih

theorem Extends.ordered (h : obj.Extends added obj') (hordered : Ordered HlFieldLookup.hashedName obj.rt.lookup) :
    Ordered HlFieldLookup.hashedName obj'.rt.lookup := by
  induction h with
  | nil => exact hordered
  | snoc _ _ _ ih => exact ordered_insert ih _

theorem Extends.fresh (h : obj.Extends added obj') (hordered : Ordered HlFieldLookup.hashedName obj.rt.lookup) :
    (added.map (·.2.hashedName)).Nodup ∧ ∀ p ∈ added, ∀ e ∈ obj.rt.lookup, e.hashedName ≠ p.2.hashedName := by
  induction h with
  | nil => exact ⟨List.nodup_nil, fun _ hp => absurd hp List.not_mem_nil⟩
  | @snoc added obj' k field before _ hfresh ih =>
    have hnone := find_none (before.ordered hordered) hfresh
    have hlookup : ∀ e, e ∈ obj'.rt.lookup ↔ e ∈ obj.rt.lookup ∨ ∃ p ∈ added, obj.entry p.1 p.2 = e := by
      intro e
      rw [before.lookup_perm.mem_iff, List.mem_append, List.mem_map]
    refine ⟨?_, fun p hp e he => ?_⟩
    · rw [List.map_append, List.nodup_append]
      refine ⟨ih.1, List.nodup_singleton _, ?_⟩
      rintro _ hhash _ hnew rfl
      obtain ⟨p, hp, heq⟩ := List.mem_map.mp hhash
      exact hnone _ ((hlookup _).mpr (.inr ⟨p, hp, rfl⟩)) (heq.trans (List.mem_singleton.mp hnew))
    · rcases List.mem_append.mp hp with hp | hp
      · exact ih.2 p hp e he
      · obtain rfl := List.mem_singleton.mp hp
        exact hnone e ((hlookup e).mpr (.inl he))

/-- The fields that are added are reserved slots: unnamed fields that hold a `Dyn`. -/
def Reserves (m : HlModule) (obj : HlTypeObj) (added : List (Nat × HlObjField)) : Prop :=
  ∀ p ∈ added, ∃ field, obj.fields[p.1]? = some field ∧ field.name = [] ∧ (m.typeAt field.t).kind = .hDyn

theorem Extends.slots (h : obj.Extends added obj') (hdistinct : (added.map Prod.fst).Nodup)
    (hreserved : obj.Reserves m added) {p : Nat × HlObjField} (hp : p ∈ added) :
    obj'.fields[p.1]? = some p.2 ∧ p.2.name ≠ [] := by
  induction h with
  | nil => exact absurd hp List.not_mem_nil
  | @snoc added obj' k field before hname _ ih =>
    rw [List.map_append, List.nodup_append] at hdistinct
    rcases List.mem_append.mp hp with hold | hnew
    · have hne : k ≠ p.1 := fun heq =>
        hdistinct.2.2 p.1 (List.mem_map_of_mem hold) k (List.mem_singleton.mpr rfl) heq.symm
      obtain ⟨hfield, hname'⟩ := ih hdistinct.1 (fun q hq => hreserved q (List.mem_append_left _ hq)) hold
      exact ⟨(List.getElem?_set_ne hne).trans hfield, hname'⟩
    · obtain rfl := List.mem_singleton.mp hnew
      obtain ⟨_, hslot, -⟩ := hreserved _ hp
      have hlt := (List.getElem?_eq_some_iff.mp hslot).1
      exact ⟨List.getElem?_set_self (before.length ▸ hlt), hname⟩

theorem Extends.fields_eq (h : obj.Extends added obj') (hdistinct : (added.map Prod.fst).Nodup)
    (hreserved : obj.Reserves m added) (k : Nat) :
    obj'.fields[k]? = obj.fields[k]? ∨ ∃ field, (k, field) ∈ added ∧ obj'.fields[k]? = some field := by
  by_cases hk : k ∈ added.map Prod.fst
  · obtain ⟨p, hp, rfl⟩ := List.mem_map.mp hk
    exact .inr ⟨p.2, hp, (h.slots hdistinct hreserved hp).1⟩
  · exact .inl (h.fields hk)

/-- What is published for a class: its lookup with the new entries in their places, each at the offset of its own slot.
No other entry has the name of a new one, and no other field but one without room has its offset. -/
structure Publishes (m : HlModule) (obj : HlTypeObj) (added : List (Nat × HlObjField)) (obj' : HlTypeObj) :
    Prop where
  lookup : obj'.rt.lookup.Perm (obj.rt.lookup ++ added.map fun (k, field) => obj.entry k field)
  ordered : Ordered HlFieldLookup.hashedName obj'.rt.lookup
  hashes : (added.map (·.2.hashedName)).Nodup ∧ ∀ p ∈ added, ∀ e ∈ obj.rt.lookup, e.hashedName ≠ p.2.hashedName
  offsets : ∀ p ∈ added, ∀ k field, obj.fields[k]? = some field → k ≠ p.1 → obj.offset k = obj.offset p.1 →
    (m.typeAt field.t).kind = .hVoid

theorem Extends.publishes (h : obj.Extends added obj') (hlaid : obj.Laid m) (hreserved : obj.Reserves m added) :
    obj.Publishes m added obj' := by
  refine ⟨h.lookup_perm, h.ordered hlaid.ordered, h.fresh hlaid.ordered, fun p hp k field hk hne heq => ?_⟩
  obtain ⟨reserved, hslot, -, hkind⟩ := hreserved p hp
  by_contra hroom
  rcases Nat.lt_or_gt_of_ne hne with hlt | hlt
  · exact absurd (hlaid.apart k p.1 field hk hroom hlt (List.getElem?_eq_some_iff.mp hslot).1) (heq ▸ Int.lt_irrefl _)
  · refine absurd (hlaid.apart p.1 k reserved hslot ?_ hlt (List.getElem?_eq_some_iff.mp hk).1) (heq ▸ Int.lt_irrefl _)
    rw [hkind]
    exact HlTypeKind.noConfusion

/-- A class is laid out as before after a patch that leaves the kinds of the types as they are. -/
theorem Extends.laid (h : obj.Extends added obj') (hlaid : obj.Laid m) (hreserved : obj.Reserves m added)
    (hkinds : ∀ t < m.ntypes, (m'.typeAt t).kind = (m.typeAt t).kind) (hntypes : m.ntypes ≤ m'.ntypes)
    (hdistinct : (added.map Prod.fst).Nodup)
    (htypes : ∀ p ∈ added, p.2.t < m'.ntypes) : obj'.Laid m' := by
  have hlookup : ∀ e, e ∈ obj'.rt.lookup ↔ e ∈ obj.rt.lookup ∨ ∃ p ∈ added, obj.entry p.1 p.2 = e := by
    intro e
    rw [h.lookup_perm.mem_iff, List.mem_append, List.mem_map]
  have hentry : ∀ k field, obj'.entry k field = obj.entry k field :=
    fun k field => congrArg (HlFieldLookup.mk _ _) (h.offset k)
  refine ⟨h.ordered hlaid.ordered, fun field hfield => ?_, fun j k field hj hroom hjk hk => ?_,
    fun e he hindex => ?_, fun k field hk hname => ?_⟩
  · obtain ⟨k, hk⟩ := List.mem_iff_getElem?.mp hfield
    rcases h.fields_eq hdistinct hreserved k with hold | ⟨field', hmem, hnew⟩
    · exact Nat.lt_of_lt_of_le (hlaid.types field (List.mem_of_getElem? (hold.symm.trans hk))) hntypes
    · cases hnew.symm.trans hk
      exact htypes _ hmem
  · rw [h.offset, h.offset]
    rw [h.length] at hk
    rcases h.fields_eq hdistinct hreserved j with hold | ⟨field', hmem, hnew⟩
    · have hj' := hold.symm.trans hj
      rw [hkinds _ (hlaid.types field (List.mem_of_getElem? hj'))] at hroom
      exact hlaid.apart j k field hj' hroom hjk hk
    · obtain ⟨reserved, hslot, -, hkind⟩ := hreserved _ hmem
      refine hlaid.apart j k reserved hslot ?_ hjk hk
      rw [hkind]
      exact HlTypeKind.noConfusion
  · rcases (hlookup e).mp he with hold | ⟨p, hp, rfl⟩
    · obtain ⟨k, field, hk, hname, rfl⟩ := hlaid.fields e hold hindex
      have hnew : k ∉ added.map Prod.fst := by
        intro hmem
        obtain ⟨p, hp, rfl⟩ := List.mem_map.mp hmem
        obtain ⟨reserved, hslot, hempty, -⟩ := hreserved p hp
        cases hk.symm.trans hslot
        exact hname hempty
      exact ⟨k, field, (h.fields hnew).trans hk, hname, (hentry k field).symm⟩
    · obtain ⟨hfield, hname⟩ := h.slots hdistinct hreserved hp
      exact ⟨p.1, p.2, hfield, hname, (hentry p.1 p.2).symm⟩
  · rw [hlookup, hentry]
    rcases h.fields_eq hdistinct hreserved k with hold | ⟨field', hmem, hnew⟩
    · exact .inl (hlaid.named k field (hold.symm.trans hk) hname)
    · cases hnew.symm.trans hk
      exact .inr ⟨_, hmem, rfl⟩

end HlTypeObj

def patchField (env : PatchEnv) (ustrings : List (List UInt16)) (f : HlPatchObjectField) :
    Nat × HlObjField :=
  let name := nameAt ustrings f.name
  (f.field.toNat, ⟨name, env.hashGen name, f.fieldType.toNat⟩)

/-- The fields a list of entries adds to the class `t`. -/
def classFields (env : PatchEnv) (ustrings : List (List UInt16)) (t : Nat)
    (entries : List HlPatchObjectField) : List (Nat × HlObjField) :=
  (entries.filter fun f => f.type.toNat = t).map (patchField env ustrings)

/-- The class `t` as it will be once what is staged is published. -/
def PatchState.stagedClass (s : PatchState) (t : Nat) : Option HlTypeObj :=
  (s.module.typeAt t).obj?.map fun obj => obj.withLookup (stagedLookup s.stagedFields t obj)

/-- The state after the entries `done` were staged on the module `m`. -/
structure FieldsStaged (env : PatchEnv) (ustrings : List (List UInt16)) (m : HlModule)
    (done : List HlPatchObjectField) (s : PatchState) : Prop where
  undo : unstagePatchObjectFields s.stagedFields s.module = m
  classes : ∀ t obj, (m.typeAt t).obj? = some obj →
    ∃ obj', s.stagedClass t = some obj' ∧ obj.Extends (classFields env ustrings t done) obj'

variable {env : PatchEnv} {ustrings : List (List UInt16)} {m m' : HlModule} {patch : HlPatch}
  {done : List HlPatchObjectField} {s : PatchState}

theorem unstageTypes_kinds (staged : List PatchObjectFieldStage) (types : List HlType) :
    (unstageTypes staged types).map HlType.kind = types.map HlType.kind := by
  induction staged with
  | nil => rfl
  | cons stage staged ih =>
    refine (map_kind_modify _ _ fun type => ?_).trans ih
    obtain ⟨kind, data, owner⟩ := type
    cases data <;> rfl

theorem FieldsStaged.kind (h : FieldsStaged env ustrings m done s) (t : Nat) :
    (s.module.typeAt t).kind = (m.typeAt t).kind := by
  have hundo := h.undo
  rw [unstage_eq] at hundo
  rw [← hundo]
  show (s.module.types.getD t .zero).kind = ((unstageTypes s.stagedFields s.module.types).getD t .zero).kind
  rw [getD_kind, getD_kind, unstageTypes_kinds]

end HashLink
