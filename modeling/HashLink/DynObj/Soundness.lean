import HashLink.DynObj.Updates
import HashLink.DynObj.Creation

/-! Every object a program can have keeps its fields in bounds and apart, and every view on it shows
where they are. What a request does not touch has the same type and bytes after it. -/

namespace HashLink

namespace DynObj

open FlatMemory

/-- The names an operation sets, deletes or writes. -/
def Op.touches : Op → Int → Prop
  | .set hash _ _ _, k | .delete hash, k | .writeSlot _ hash _, k => k = hash
  | .attach _, _ | .writeOutside _, _ => False

def Keeps (o o' : DynState) (touches : Int → Prop) : Prop :=
  Inv o' ∧ ∀ k, ¬touches k → o'.value k = o.value k

namespace Keeps

variable {o o' o'' : DynState} {touches touches' : Int → Prop}

theorem refl (h : Inv o) : Keeps o o touches := ⟨h, fun _ _ => rfl⟩

theorem trans (h : Keeps o o' touches) (h' : Keeps o' o'' touches) : Keeps o o'' touches :=
  ⟨h'.1, fun k hk => (h'.2 k hk).trans (h.2 k hk)⟩

theorem mono (h : Keeps o o' touches) (himp : ∀ k, touches k → touches' k) : Keeps o o' touches' :=
  ⟨h.1, fun k hk => h.2 k fun ht => hk (himp k ht)⟩

end Keeps

section Operations

variable {o : DynState} (h : Inv o)
include h

omit h in
theorem slotOf_eq_newSlot (vf : VField) : o.newSlot vf = o.slotOf vf := by
  unfold DynState.newSlot DynState.slotOf
  cases o.find vf.hash with
  | none => rfl
  | some f =>
    simp only [hlSameType_iff]
    by_cases hsame : vf.t = f.t
    · rw [if_pos hsame, if_pos hsame.symm]
    · rw [if_neg hsame, if_neg fun heq => hsame heq.symm]

theorem keeps_attach {vt : VirtType} (hvt : vt.Proper) : Keeps o (o.attach vt) fun _ => False := by
  unfold DynState.attach
  split
  · exact Keeps.refl h
  · refine ⟨⟨h.layout, h.arrays, h.started, ?_⟩, fun _ _ => rfl⟩
    refine List.forall_mem_cons.mpr ⟨?_, h.views⟩
    exact ⟨hvt, List.map_congr_left fun vf _ => slotOf_eq_newSlot vf⟩

theorem writeSlot_spec (view : Nat) (hash : Int) (value : Nat → UInt8) :
    o.writeSlot view hash value = o ∨
      ∃ f, o.find hash = some f ∧ o.writeSlot view hash value = o.write f value := by
  unfold DynState.writeSlot
  split
  · exact Or.inl rfl
  · rename_i v hv
    split
    · exact Or.inl rfl
    · rename_i vf hfind
      obtain ⟨hproper, hslots⟩ := h.views v (List.mem_of_getElem? hv)
      obtain ⟨hget, rfl⟩ := hproper.find_eq_some.mp hfind
      have hslot : v.slots.getD vf.index 0 = o.slotOf ⟨vf.hash, vf.t⟩ := by
        rw [hslots, List.getD_eq_getElem?_getD, List.getElem?_map, hget]
        rfl
      simp only [hslot]
      split
      · exact Or.inl rfl
      · rename_i hne
        refine Or.inr ?_
        unfold DynState.slotOf at hne ⊢
        cases hold : o.find vf.hash with
        | none =>
          rw [hold] at hne
          exact absurd rfl hne
        | some f =>
          refine ⟨f, rfl, ?_⟩
          rw [hold] at hne
          by_cases hsame : vf.t = f.t
          · simp only [hsame, if_true]
            rfl
          · exact absurd (if_neg hsame) hne

theorem keeps_writeSlot (view : Nat) (hash : Int) (value : Nat → UInt8) :
    Keeps o (o.writeSlot view hash value) fun k => k = hash := by
  rcases writeSlot_spec h view hash value with heq | ⟨f, hfind, heq⟩
  · rw [heq]
    exact Keeps.refl h
  · rw [heq]
    refine ⟨inv_mem h _, fun k hk => ?_⟩
    rw [value_write h hfind, if_neg hk]

theorem keeps_writeOutside (mem : Memory) : Keeps o (o.writeOutside mem) fun _ => False := by
  refine ⟨inv_mem h _, fun k _ => ?_⟩
  have hfind : (o.writeOutside mem).find k = (o.find k).map id := Option.map_id_apply.symm
  refine DynState.value_congr hfind fun f hf => ⟨rfl, bytes_congr fun j hj => ?_⟩
  have hbound := h.layout.bounded f (h.find_iff.mp hf).1
  have hj' : j < f.width := hj
  refine if_pos ?_
  unfold DynField.offset DynState.extent at hbound
  by_cases hptr : f.isPtr
  · have haddr : (o.writeOutside mem).addr f = o.values + 8 * f.index := if_pos hptr
    simp only [hptr, if_true] at hbound
    rw [id, haddr]
    exact Or.inl (by omega)
  · have haddr : (o.writeOutside mem).addr f = o.raw + f.index := if_neg hptr
    simp only [hptr, Bool.false_eq_true, if_false] at hbound
    rw [id, haddr]
    exact Or.inr (by omega)

theorem keeps_deleteField (hash : Int) : Keeps o (o.deleteField hash) fun k => k = hash := by
  unfold DynState.deleteField
  split
  · exact Keeps.refl h
  · rename_i i hidx
    obtain ⟨f, hget, rfl⟩ := SortedTable.findIdx_some hidx
    rw [hget]
    obtain ⟨hinv, hvalue⟩ := delete_spec h hget
    refine ⟨hinv, fun k hk => ?_⟩
    rw [hvalue, if_neg hk]

theorem keeps_setField (hash : Int) (t : ValueType) (newData : Int) (value : Nat → UInt8) :
    Keeps o (o.setField hash t.1 newData value).1 fun k => k = hash := by
  obtain ⟨hinv, hkeep, -⟩ := setField_spec h hash t.2 newData value
  exact ⟨hinv, hkeep⟩

theorem keeps_apply {op : Op} (hop : op.Over VirtType.Proper) : Keeps o (o.apply op) op.touches := by
  cases op with
  | set hash t newData value => exact keeps_setField h hash t newData value
  | delete hash => exact keeps_deleteField h hash
  | attach vt => exact keeps_attach h hop
  | writeSlot view hash value => exact keeps_writeSlot h view hash value
  | writeOutside mem => exact keeps_writeOutside h mem

end Operations

variable {o : DynState}

theorem keeps_foldl (h : Inv o) {ops : List Op} (hops : ∀ op ∈ ops, op.Over VirtType.Proper) :
    Keeps o (ops.foldl DynState.apply o) fun k => ∃ op ∈ ops, op.touches k := by
  induction ops generalizing o with
  | nil => exact Keeps.refl h
  | cons op rest ih =>
    obtain ⟨hover, hrest⟩ := List.forall_mem_cons.mp hops
    have hop := keeps_apply h hover
    refine (hop.mono fun k hk => ?_).trans ((ih hop.1 hrest).mono fun k hk => ?_)
    · exact ⟨op, List.mem_cons_self, hk⟩
    · obtain ⟨op', hop', hk⟩ := hk
      exact ⟨op', List.mem_cons_of_mem _ hop', hk⟩

def recastTouches (bits : List Nat) (cast : Nat → DynState.Recast) (l : List (VField × Nat)) (k : Int) : Prop :=
  ∃ p ∈ l, p.2 % 64 ∈ bits ∧ (k = p.1.hash ∨ ∃ op ∈ (cast p.2).meanwhile, op.touches k)

theorem keeps_recastLoop (bits : List Nat) (extraCheck : Bool) {cast : Nat → DynState.Recast}
    (hcast : ∀ i, ∀ op ∈ (cast i).meanwhile, op.Over VirtType.Proper) {l : List (VField × Nat)}
    (hvalued : ∀ p ∈ l, p.1.t.kind ≠ .hVoid) (h : Inv o) :
    Keeps o (DynState.recastLoop bits extraCheck cast l o) (recastTouches bits cast l) := by
  induction l generalizing o with
  | nil => exact Keeps.refl h
  | cons p rest ih =>
    obtain ⟨vf, i⟩ := p
    obtain ⟨hvf, hrest⟩ := List.forall_mem_cons.mp hvalued
    have hlater : ∀ k, recastTouches bits cast rest k → recastTouches bits cast ((vf, i) :: rest) k := by
      rintro k ⟨q, hq, hk⟩
      exact ⟨q, List.mem_cons_of_mem _ hq, hk⟩
    rw [DynState.recastLoop]
    split
    · rename_i hbit
      have hnow : Keeps o ((cast i).meanwhile.foldl DynState.apply o)
          (recastTouches bits cast ((vf, i) :: rest)) :=
        (keeps_foldl h (hcast i)).mono fun k hk => ⟨(vf, i), List.mem_cons_self, hbit.1, Or.inr hk⟩
      simp only
      split
      · exact hnow
      · rename_i value _
        have htouch : ∀ k, k = vf.hash → recastTouches bits cast ((vf, i) :: rest) k :=
          fun k hk => ⟨(vf, i), List.mem_cons_self, hbit.1, Or.inl hk⟩
        have hset :=
          (keeps_setField hnow.1 vf.hash ⟨vf.t, hvf⟩ (cast i).newData value).mono htouch
        split
        · rename_i o' heq
          rw [heq] at hset
          exact (hnow.trans hset).trans ((ih hrest hset.1).mono hlater)
        · rename_i o' heq
          rw [heq] at hset
          exact hnow.trans hset
    · exact (ih hrest h).mono hlater

def Request.touches (o : DynState) : Request → Int → Prop
  | .op a, k => a.touches k
  | .toVirtual castFun vt cast, k =>
    recastTouches (DynState.recastBits castFun o vt) cast vt.fields.zipIdx k

theorem keeps_toVirtual (h : Inv o) (castFun : Nat → Bool) {vt : VirtType} (hvt : vt.Proper)
    {cast : Nat → DynState.Recast} (hcast : ∀ i, ∀ op ∈ (cast i).meanwhile, op.Over VirtType.Proper) :
    Keeps o (o.hlToVirtual castFun vt cast)
      (recastTouches (DynState.recastBits castFun o vt) cast vt.fields.zipIdx) := by
  unfold DynState.hlToVirtual
  split
  · exact Keeps.refl h
  · have hattach := keeps_attach h hvt
    have hrecast := keeps_recastLoop (l := vt.fields.zipIdx) (DynState.recastBits castFun o vt)
      (63 < vt.fields.length) hcast
      (fun p hp => hvt.valued p.1 (List.fst_mem_of_mem_zipIdx hp)) hattach.1
    exact (hattach.mono fun _ hk => hk.elim).trans hrecast

theorem keeps_serve (h : Inv o) {r : Request} (hr : r.Over VirtType.Proper) :
    Keeps o (o.serve r) (r.touches o) := by
  cases r with
  | op a => exact keeps_apply h hr
  | toVirtual castFun vt cast => exact keeps_toVirtual h castFun hr.1 hr.2

theorem inv_reachable (h : Reachable VirtType.Proper o) : Inv o := by
  induction h with
  | alloc mem => exact inv_alloc mem
  | makeValue hvt h => exact (makeValue_spec hvt h).1
  | copy _ h ih => exact (copy_spec ih h).1
  | serve _ r hr ih => exact (keeps_serve ih hr).1

/-- The storage of an object and what its views show of it: a slot is null when the object has no
field of that name and type, and the address of the field when it has. -/
structure Sound (o : DynState) : Prop where
  inBounds : ∀ f ∈ o.lookup, o.base f.isPtr ≤ o.addr f ∧ o.addr f + f.width ≤ o.base f.isPtr + o.extent f.isPtr
  disjoint : o.lookup.Pairwise fun f g => Apart (o.addr f) f.width (o.addr g) g.width
  slots : ∀ v ∈ o.virtuals, v.slots.length = v.t.fields.length ∧
    ∀ (i : Nat) (vf : VField) (s : Int), v.t.fields[i]? = some vf → v.slots[i]? = some s →
      (s = 0 ∧ ∀ f ∈ o.lookup, f.hash = vf.hash → f.t ≠ vf.t) ∨
      (s ≠ 0 ∧ ∃ f ∈ o.lookup, f.hash = vf.hash ∧ f.t = vf.t ∧ s = o.addr f)

theorem slotOf_cases (h : Inv o) (vf : VField) :
    (o.slotOf vf = 0 ∧ ∀ f ∈ o.lookup, f.hash = vf.hash → f.t ≠ vf.t) ∨
      (o.slotOf vf ≠ 0 ∧ ∃ f ∈ o.lookup, f.hash = vf.hash ∧ f.t = vf.t ∧ o.slotOf vf = o.addr f) := by
  unfold DynState.slotOf
  cases hfind : o.find vf.hash with
  | none =>
    refine Or.inl ⟨rfl, fun f hf hhash => ?_⟩
    exact absurd hhash ((SortedTable.find_eq_none_iff h.layout.sorted).mp hfind f hf)
  | some f =>
    obtain ⟨hf, hhash⟩ := h.find_iff.mp hfind
    have hpos := h.addr_pos hf
    by_cases hsame : vf.t = f.t
    · simp only [hsame, if_true]
      exact Or.inr ⟨by omega, f, hf, hhash, rfl, rfl⟩
    · simp only [hsame, if_false]
      refine Or.inl ⟨trivial, fun g hg hgh hgt => hsame ?_⟩
      rw [← hgt, h.layout.sorted.eq_of_key hg hf (hgh.trans hhash.symm)]

theorem Inv.sound (h : Inv o) : Sound o where
  inBounds f hf := by
    have hbound := h.layout.bounded f hf
    rw [o.addr_eq]
    exact ⟨by omega, by omega⟩
  disjoint := h.layout.sorted.imp_of_mem fun hf hg hlt => h.fields_apart hf hg (Int.ne_of_lt hlt)
  slots v hv := by
    have hslots := (h.views v hv).2
    refine ⟨by rw [hslots, List.length_map], fun i vf s hvf hs => ?_⟩
    rw [hslots, List.getElem?_map, hvf, Option.map_some, Option.some.injEq] at hs
    subst hs
    exact slotOf_cases h vf

/-- Every object a program can have with proper virtual types is sound, and so is what any request makes of it. A request
leaves the type and the bytes of each field it does not touch, through compaction and reallocation;
a set that raises no error leaves its value; a copy has the values of the object, and the value of a
virtual has the data the virtual had. -/
theorem reachable_sound {o : DynState} (h : Reachable VirtType.Proper o) :
    Sound o ∧
    (∀ (r : Request) (k : Int), r.Over VirtType.Proper → ¬r.touches o k → (o.serve r).value k = o.value k) ∧
    (∀ (hash : Int) (t : ValueType) (newData : Int) (value : Nat → UInt8),
      (o.setField hash t.1 newData value).2 = true →
      (o.setField hash t.1 newData value).1.value hash = some (t.1, (List.range t.1.width).map value)) ∧
    (∀ (rawAt valuesAt : Int) (c : DynState), o.hlObjCopy rawAt valuesAt = some c →
      ∀ k, c.value k = o.value k) ∧
    ∀ (vt : VirtType) (base : Int) (mem : Memory) (rawAt valuesAt : Int), vt.Proper →
      DynState.hlVirtualMakeValue vt base mem rawAt valuesAt = some o →
      ∀ (i : Nat) (vf : VField) (ix : Nat), vt.fields[i]? = some vf → vt.indexes.1[i]? = some ix →
        ∃ f, o.find vf.hash = some f ∧ f.t = vf.t ∧
          bytes o.mem (o.addr f) vf.t.kind.size = bytes mem (base + ix) vf.t.kind.size := by
  have hinv := inv_reachable h
  refine ⟨hinv.sound, ?_, ?_, ?_, ?_⟩
  · intro r k hr hk
    exact (keeps_serve hinv hr).2 k hk
  · intro hash t newData value
    exact (setField_spec hinv hash t.2 newData value).2.2
  · intro rawAt valuesAt c hc
    exact (copy_spec hinv hc).2
  · intro vt base mem rawAt valuesAt hvt hmake
    exact (makeValue_spec hvt hmake).2

theorem hI32_kind : (HlTy.basic .hI32).kind ≠ .hVoid := by decide

def demoView : VirtType := ⟨0, [⟨5, .basic .hI32⟩, ⟨6, .basic .hDyn⟩]⟩

theorem demoView_proper : demoView.Proper := ⟨by decide, by decide⟩

def demoObject : DynState :=
  ((DynState.hlAllocDynobj fun _ => 0).serve (.op (.set 5 ⟨.basic .hI32, hI32_kind⟩ 64 fun _ => 7))).serve
    (.op (.attach demoView))

theorem demoObject_sound :
    Sound demoObject ∧ demoObject.virtuals.map View.slots = [[64, 0]] ∧
      (demoObject.serve (.op (.set 6 ⟨.basic .hDyn, by decide⟩ 128 fun _ => 1))).value 5 =
        some (.basic .hI32, [7, 7, 7, 7]) := by
  have h : Reachable VirtType.Proper demoObject :=
    .serve (.serve (.alloc _) _ (by trivial)) (.op (.attach demoView)) demoView_proper
  obtain ⟨hsound, hkeep, -⟩ := reachable_sound h
  refine ⟨hsound, by decide, ?_⟩
  rw [hkeep _ 5 (by trivial) (by simp [Request.touches, Op.touches])]
  rfl

/-- An object with a view that has a field twice, after the field was deleted. -/
def staleObject : DynState :=
  (((DynState.hlAllocDynobj fun _ => 0).serve (.op (.set 5 ⟨.basic .hI32, hI32_kind⟩ 64 fun _ => 7))).serve
    (.op (.attach ⟨0, [⟨5, .basic .hI32⟩, ⟨5, .basic .hI32⟩]⟩))).serve (.op (.delete 5))

theorem repeated_field_stale : Reachable (fun _ => True) staleObject ∧ staleObject.lookup.map DynField.hash = [] ∧
    staleObject.virtuals.map View.slots = [[0, 64]] ∧ ¬Sound staleObject := by
  refine ⟨.serve (.serve (.serve (.alloc _) _ (by trivial)) _ (by trivial)) _ (by trivial), rfl, by decide,
    fun h => ?_⟩
  obtain ⟨-, hslots⟩ := h.slots _ List.mem_cons_self
  rcases hslots 1 _ 64 rfl rfl with ⟨hzero, -⟩ | ⟨-, f, hf, -⟩
  · exact absurd hzero (by decide)
  · cases hf

end DynObj

end HashLink
