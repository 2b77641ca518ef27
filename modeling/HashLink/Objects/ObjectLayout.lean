import HashLink.Objects.MarkBits

/-!
The objects of a class: its fields are apart and aligned inside the size of the objects, those of the base stay where
they are, and the mark bits have every pointer. `hl_get_obj_rt` has this for each class it returns for, and returns
where no structure that is packed is empty and the size is an `int`.
-/

namespace HashLink

open StructLayout

variable {m : HlModule} {layouts : Nat → Option ClassLayout} {t u d : Nat} {obj : HlTypeObj} {field : HlObjField}
  {rt : ObjRt} {c : ClassLayout} {s : Struct} {mem : Member} {own : List Member}

def ClassLayout.of (m : HlModule) (layouts : Nat → Option ClassLayout) (obj : HlTypeObj) (parent : Option ClassLayout)
    (rt : ObjRt) : Option ClassLayout :=
  if parent.any (·.hasPtr) || obj.fields.any (holdsPtr m layouts) then
    (marks m layouts obj parent rt).map fun mark => ⟨rt, true, some mark⟩
  else some ⟨rt, false, none⟩

theorem toOption_eq_some {ε α : Type} {x : Except ε α} {a : α} : x.toOption = some a ↔ x = .ok a := by
  cases x <;> simp [Except.toOption]

theorem ClassLayout.step_eq_some : ClassLayout.step m layouts t = some c ↔
    ∃ obj parent rt, (m.typeAt t).obj? = some obj ∧ ParentOf layouts obj parent ∧
      layoutClass m (fun u => (layouts u).map (·.rt)) (m.typeAt t).kind obj (parent.map (·.rt)) = some rt ∧
      rt.size < 2 ^ 31 ∧ ClassLayout.of m layouts obj parent rt = some c := by
  have hrest : ∀ obj parent rt, (if 2 ^ 31 ≤ rt.size then none else if
      (parent.any (·.hasPtr) || obj.fields.any (holdsPtr m layouts)) = true then
        (do let mark ← marks m layouts obj parent rt; return (⟨rt, true, some mark⟩ : ClassLayout))
      else return ⟨rt, false, none⟩) = some c ↔ rt.size < 2 ^ 31 ∧ ClassLayout.of m layouts obj parent rt = some c := by
    intro obj parent rt
    rw [← Nat.not_le, ClassLayout.of]
    by_cases hsize : 2 ^ 31 ≤ rt.size
    · rw [if_pos hsize]
      exact iff_of_false (fun h => by cases h) fun h => h.1 hsize
    · rw [if_neg hsize, and_iff_right hsize]
      cases marks m layouts obj parent rt <;> rfl
  unfold ClassLayout.step
  constructor
  · intro h
    obtain ⟨obj, hobj, h⟩ := Option.bind_eq_some_iff.mp h
    obtain ⟨parent, hparent, h⟩ := Option.bind_eq_some_iff.mp h
    obtain ⟨rt, hrt, h⟩ := Option.bind_eq_some_iff.mp h
    exact ⟨obj, parent, rt, hobj, ofSuper_eq_some.mp hparent, hrt, (hrest obj parent rt).mp h⟩
  · rintro ⟨obj, parent, rt, hobj, hparent, hrt, h⟩
    rw [hobj, Option.bind_eq_bind, Option.bind_some, ofSuper_eq_some.mpr hparent, Option.bind_eq_bind,
      Option.bind_some, hrt]
    exact (hrest obj parent rt).mpr h

theorem ClassLayout.of_rt {parent : Option ClassLayout} (h : ClassLayout.of m layouts obj parent rt = some c) :
    c.rt = rt := by
  unfold ClassLayout.of at h
  split at h
  · obtain ⟨mark, -, rfl⟩ := Option.map_eq_some_iff.mp h
    rfl
  · cases h
    rfl

theorem objLayout_of_classLayout (h : classLayout m d t = some c) :
    objLayout m d t = .ok c.rt ∧ c.rt.size < 2 ^ 31 := by
  induction d generalizing t c with
  | zero => cases h
  | succ d ih =>
    obtain ⟨obj, parent, rt, hobj, hparent, hrt, hsize, hc⟩ := (ClassLayout.step_eq_some).mp h
    have hlayouts : ∀ u c, classLayout m d u = some c → (objLayout m d u).toOption = some c.rt := fun u c hu => by
      rw [(ih hu).1]
      rfl
    have hready := layoutClass_isSome.mp (Option.isSome_iff_exists.mpr ⟨rt, hrt⟩)
    rw [ClassLayout.of_rt hc]
    refine ⟨layoutStep_ok.mpr ⟨obj, parent.map (·.rt), hobj, ?_, fun f hf => ?_, ?_⟩, hsize⟩
    · unfold ParentOf at hparent
      cases hsuper : obj.super with
      | none =>
        rw [hsuper] at hparent
        exact baseLayout_ok.mpr (.inl ⟨hsuper, by rw [hparent]; rfl⟩)
      | some u =>
        rw [hsuper] at hparent
        obtain ⟨p, hp, rfl⟩ := hparent
        exact baseLayout_ok.mpr (.inr ⟨u, p.rt, hsuper, (ih hp).1, rfl⟩)
    · refine packedDivisor_ok.mpr fun hkind => ?_
      obtain ⟨u, rt', hdata, hu, hlargest⟩ := hready f hf hkind
      obtain ⟨c', hc', rfl⟩ := Option.map_eq_some_iff.mp hu
      exact ⟨u, c'.rt, hdata, (ih hc').1, hlargest⟩
    · rw [← hrt]
      refine layoutClass_congr fun f hf u hkind hdata => ?_
      obtain ⟨u', rt', hdata', hu, -⟩ := hready f hf hkind
      cases hdata.symm.trans hdata'
      obtain ⟨c', hc', -⟩ := Option.map_eq_some_iff.mp hu
      exact (hlayouts u c' hc').trans (congrArg (Option.map ClassLayout.rt) hc').symm

theorem memberOf_congr {packed packed' : Nat → Option Member} (h : ∀ u, (m.typeAt field.t).kind = .hPacked →
    (m.typeAt field.t).data = .tparam u → packed u = packed' u) :
    memberOf m packed field = memberOf m packed' field := by
  unfold memberOf
  dsimp only
  by_cases hkind : (m.typeAt field.t).kind = .hPacked
  · rw [if_pos hkind, if_pos hkind]
    cases hdata : (m.typeAt field.t).data with
    | tparam u =>
      dsimp only
      rw [h u hkind hdata]
    | _ => rfl
  · rw [if_neg hkind, if_neg hkind]

theorem memberOf_eq_some {packed : Nat → Option Member} (h : memberOf m packed field = some mem) :
    (∃ u, (m.typeAt field.t).kind = .hPacked ∧ (m.typeAt field.t).data = .tparam u ∧ packed u = some mem ∧
        mem.align ≠ 0) ∨
      (m.typeAt field.t).kind ≠ .hPacked ∧ mem = ⟨(m.typeAt field.t).kind.size, (m.typeAt field.t).kind.size⟩ := by
  unfold memberOf at h
  dsimp only at h
  split at h
  · rename_i hkind
    cases hdata : (m.typeAt field.t).data with
    | tparam u =>
      rw [hdata] at h
      obtain ⟨hmem, halign⟩ := Option.filter_eq_some_iff.mp h
      exact .inl ⟨u, hkind, rfl, hmem, by simpa using halign⟩
    | _ =>
      rw [hdata] at h
      cases h
  · rename_i hkind
    cases h
    exact .inr ⟨hkind, rfl⟩

theorem mapM_congr {α β : Type} {f g : α → Option β} {l : List α} (h : ∀ a ∈ l, f a = g a) : l.mapM f = l.mapM g := by
  induction l with
  | nil => rfl
  | cons a l ih =>
    obtain ⟨ha, hl⟩ := List.forall_mem_cons.mp h
    rw [List.mapM_cons, List.mapM_cons, ha, ih hl]

theorem mapM_getElem? {α β : Type} {f : α → Option β} {l : List α} {r : List β} (h : l.mapM f = some r) :
    r.length = l.length ∧ ∀ (k : Nat) a, l[k]? = some a → ∃ b, r[k]? = some b ∧ f a = some b := by
  induction l generalizing r with
  | nil =>
    cases h
    exact ⟨rfl, fun k a h => by cases h⟩
  | cons a l ih =>
    rw [List.mapM_cons] at h
    obtain ⟨b, hb, h⟩ := Option.bind_eq_some_iff.mp h
    obtain ⟨r, hr, h⟩ := Option.bind_eq_some_iff.mp h
    cases h
    obtain ⟨hlength, hall⟩ := ih hr
    refine ⟨congrArg (· + 1) hlength, fun k a' hk => ?_⟩
    cases k with
    | zero =>
      cases hk
      exact ⟨b, rfl, hb⟩
    | succ k => exact hall k a' hk

theorem mapM_mem {α β : Type} {f : α → Option β} {l : List α} {r : List β} (h : l.mapM f = some r) {b : β}
    (hb : b ∈ r) : ∃ a ∈ l, f a = some b := by
  obtain ⟨hlength, hall⟩ := mapM_getElem? h
  obtain ⟨k, hk, rfl⟩ := List.mem_iff_getElem.mp hb
  obtain ⟨b', hb', hf⟩ := hall k _ (List.getElem?_eq_getElem (hlength ▸ hk))
  cases (List.getElem?_eq_getElem hk).symm.trans hb'
  exact ⟨_, List.getElem_mem _, hf⟩

theorem size_alignment (kind : HlTypeKind) : Alignment kind.size := by
  cases kind <;> first
    | exact .inl rfl
    | exact .inr ⟨0, rfl⟩
    | exact .inr ⟨1, rfl⟩
    | exact .inr ⟨2, rfl⟩
    | exact .inr ⟨3, rfl⟩

/-- The parts of a layout, in terms of the structure of the base and the members that are added. -/
structure Parts (m : HlModule) (rts : Nat → Option ObjRt) (obj : HlTypeObj) (rt : ObjRt) (base : Struct)
    (own : List Member) : Prop where
  members : obj.fields.mapM (memberOf m fun u => (rts u).map ObjRt.member) = some own
  shaped : Shaped rt (base.extend own)
  regular : (base.extend own).Regular
  baseRegular : base.Regular
  start : rt.parentFields = base.members.length

def StartsAt (kind : HlTypeKind) (parent : Option ObjRt) (base : Struct) : Prop :=
  (parent = none ∧ base = ⟨if kind = .hStruct then 0 else hlWSize, []⟩) ∨ ∃ p, parent = some p ∧ Shaped p base

theorem header_regular (kind : HlTypeKind) : Struct.Regular ⟨if kind = .hStruct then 0 else hlWSize, []⟩ := by
  refine ⟨?_, fun _ h => absurd h List.not_mem_nil⟩
  show Alignment (if _ then 0 else 8)
  split
  · exact .inl rfl
  · exact .inr ⟨3, rfl⟩

theorem parts_of {rts : Nat → Option ObjRt} {kind : HlTypeKind} {parent : Option ObjRt} {base : Struct}
    (hrts : ∀ u rt, rts u = some rt → ∃ s, Shaped rt s ∧ s.Regular) (hstart : StartsAt kind parent base)
    (hbase : base.Regular) (hlaid : layoutClass m rts kind obj parent = some rt) :
    ∃ own, Parts m rts obj rt base own := by
  obtain ⟨own, hown, hshaped, hlength⟩ := layoutClass_shaped hstart hlaid
  refine ⟨own, hown, hshaped, hbase.extend fun mem hmem => ?_, hbase, hlength⟩
  obtain ⟨f, -, hf⟩ := mapM_mem hown hmem
  rcases memberOf_eq_some hf with ⟨u, -, -, hu, -⟩ | ⟨-, rfl⟩
  · obtain ⟨rt', hrt', rfl⟩ := Option.map_eq_some_iff.mp hu
    obtain ⟨s, hs, hregular⟩ := hrts u rt' hrt'
    show Alignment rt'.largestField
    rw [hs.largest]
    exact hregular.largest
  · exact size_alignment _

theorem classShape_of_objLayout (h : objLayout m d t = .ok rt) :
    ∃ s, classShape m d t = some s ∧ Shaped rt s ∧ s.Regular := by
  induction d generalizing t rt with
  | zero => cases h
  | succ d ih =>
    obtain ⟨obj, parent, hobj, hparent, hfields, hlaid⟩ := layoutStep_ok.mp h
    obtain ⟨base, b, hbase, hb, hstart, hregular⟩ : ∃ base b, ofSuper (classShape m d) obj = some b ∧
        base = b.getD ⟨if (m.typeAt t).kind = .hStruct then 0 else hlWSize, []⟩ ∧
        StartsAt (m.typeAt t).kind parent base ∧ base.Regular := by
      rcases baseLayout_ok.mp hparent with ⟨hsuper, rfl⟩ | ⟨u, p, hsuper, hp, rfl⟩
      · exact ⟨_, none, by rw [ofSuper, hsuper], rfl, .inl ⟨rfl, rfl⟩, header_regular _⟩
      · obtain ⟨s, hs, hshaped, hregular⟩ := ih hp
        refine ⟨s, some s, ?_, rfl, .inr ⟨p, rfl, hshaped⟩, hregular⟩
        rw [ofSuper, hsuper]
        exact congrArg (·.map some) hs
    have hrts : ∀ u rt, (objLayout m d u).toOption = some rt → ∃ s, Shaped rt s ∧ s.Regular := by
      intro u rt hu
      obtain ⟨s, -, hs⟩ := ih (toOption_eq_some.mp hu)
      exact ⟨s, hs⟩
    obtain ⟨own, hparts⟩ := parts_of hrts hstart hregular hlaid
    have hmember : ∀ f ∈ obj.fields, memberOf m (fun u => ((objLayout m d u).toOption).map ObjRt.member) f =
        memberOf m (fun u => (classShape m d u).map Struct.member) f := by
      refine fun f hf => memberOf_congr fun u hkind hdata => ?_
      obtain ⟨u', rt', hdata', hu, -⟩ := packedDivisor_ok.mp (hfields f hf) hkind
      cases hdata.symm.trans hdata'
      obtain ⟨s, hs, hshaped, -⟩ := ih hu
      rw [hu, hs]
      exact congrArg some hshaped.member
    have hown := hparts.members
    rw [mapM_congr hmember] at hown
    refine ⟨base.extend own, ?_, hparts.shaped, hparts.regular⟩
    show shapeStep m (classShape m d) t = _
    simp only [shapeStep, hobj, hbase, hown, hb, Option.bind_eq_bind, Option.bind_some]
    rfl

namespace Parts

variable {rts : Nat → Option ObjRt} {base : Struct} {k : Nat}

theorem base_le (h : Parts m rts obj rt base own) : base.size ≤ rt.size := by
  rw [h.shaped.size]
  exact h.baseRegular.size_le_extend h.regular

theorem placed (h : Parts m rts obj rt base own) (hf : obj.fields[k]? = some field) :
    ∃ mem o, memberOf m (fun u => (rts u).map ObjRt.member) field = some mem ∧
      rt.fieldsIndexes[rt.parentFields + k]? = some ((o : Nat) : Int) ∧ o + mem.size ≤ rt.size ∧
      (0 < mem.align → mem.align ∣ o ∧ mem.align ∣ rt.largestField ∧ 0 < rt.largestField) := by
  obtain ⟨mem, hown, hmem⟩ := (mapM_getElem? h.members).2 k field hf
  have hindex : (base.extend own).members[base.members.length + k]? = some mem := by
    show (base.members ++ own)[_]? = _
    rw [List.getElem?_append_right (Nat.le_add_right _ _), Nat.add_sub_cancel_left]
    exact hown
  obtain ⟨o, hoffset⟩ : ∃ o, (base.extend own).offsets[base.members.length + k]? = some o :=
    ⟨_, offsets_getElem? hindex⟩
  obtain ⟨-, hdvd, hend⟩ := offsets_spec hindex hoffset
  refine ⟨mem, o, hmem, ?_, ?_, fun halign => ?_⟩
  · rw [h.start, h.shaped.indexes, List.getElem?_map]
    exact congrArg (Option.map Nat.cast) hoffset
  · rw [h.shaped.size]
    exact hend.trans (Struct.finish_le_size _)
  · have hmember := List.mem_of_getElem? hindex
    rw [h.shaped.largest]
    exact ⟨hdvd halign, (h.regular.align_dvd hmember halign).1, halign.trans_le (Struct.align_le_largest hmember)⟩

theorem zipped (h : Parts m rts obj rt base own) {f : HlObjField × Int}
    (hf : f ∈ obj.fields.zip (rt.fieldsIndexes.drop rt.parentFields)) :
    ∃ mem, memberOf m (fun u => (rts u).map ObjRt.member) f.1 = some mem ∧ f.2.toNat + mem.size ≤ rt.size := by
  obtain ⟨k, hk⟩ := List.mem_iff_getElem?.mp hf
  obtain ⟨hfield, hindex⟩ := List.getElem?_zip_eq_some.mp hk
  obtain ⟨mem, o, hmem, ho, hle, -⟩ := h.placed hfield
  rw [List.getElem?_drop, ho] at hindex
  refine ⟨mem, hmem, ?_⟩
  rwa [← Option.some.inj hindex, Int.toNat_natCast]

end Parts

def ClassLayout.marked (c : ClassLayout) (q : Nat) : Bool := c.markBits.any (·.has q)

structure ClassLayout.Sound (c : ClassLayout) : Prop where
  flag : c.hasPtr = c.markBits.isSome
  length : ∀ mark, c.markBits = some mark → mark.length = hlMarkSize c.rt.size / 4
  aligned : c.hasPtr = true → 0 < c.rt.largestField ∧ 8 ∣ c.rt.largestField

theorem ClassLayout.Sound.of_marked (h : c.Sound) {q : Nat} (hq : c.marked q = true) : c.hasPtr = true := by
  unfold marked at hq
  cases hmark : c.markBits with
  | none =>
    rw [hmark] at hq
    cases hq
  | some mark => rw [h.flag, hmark, Option.isSome_some]

def FieldMarked (m : HlModule) (layouts : Nat → Option ClassLayout) (field : HlObjField × Int) (has : Nat → Bool) :
    Prop :=
  ((m.typeAt field.1.t).kind.isPtr = true → (m.typeAt field.1.t).kind ≠ .hPacked →
    has (field.2.toNat / 8) = true) ∧
  ∀ u rts, (m.typeAt field.1.t).kind = .hPacked → (m.typeAt field.1.t).data = .tparam u → layouts u = some rts →
    ∀ k < rts.rt.size / 8, rts.marked k = true → has (field.2.toNat / 8 + k) = true

theorem size_of_isPtr {kind : HlTypeKind} (h : kind.isPtr = true) (hpacked : kind ≠ .hPacked) : kind.size = 8 := by
  cases kind <;> simp_all [HlTypeKind.isPtr, HlTypeKind.size, hlWSize]

section Marks

variable {rts : ClassLayout} {parent : Option ClassLayout}
  (hsound : ∀ u rts, layouts u = some rts → rts.Sound)
include hsound

theorem markField_spec {f : HlObjField × Int} {size : Nat} {mark : MarkBits}
    (hmember : ∃ mem, memberOf m (fun u => ((layouts u).map (·.rt)).map ObjRt.member) f.1 = some mem ∧
      f.2.toNat + mem.size ≤ size) (hlength : mark.length = hlMarkSize size / 4) :
    ∃ mark', ClassLayout.markField m layouts mark f = some mark' ∧ MarkBits.Covers mark mark' ∧
      FieldMarked m layouts f mark'.has := by
  obtain ⟨mem, hmem, hle⟩ := hmember
  unfold hlMarkSize hlWSize at hlength
  unfold ClassLayout.markField
  dsimp only
  by_cases hptr : (m.typeAt f.1.t).kind.isPtr = true
  · rw [if_pos hptr]
    rcases memberOf_eq_some hmem with ⟨u, hkind, hdata, hu, -⟩ | ⟨hkind, rfl⟩
    · rw [Option.map_map] at hu
      obtain ⟨rts, hrts, rfl⟩ := Option.map_eq_some_iff.mp hu
      have hfields : ∀ mark' : MarkBits, (∀ k < rts.rt.size / 8, rts.marked k = true →
          mark'.has (f.2.toNat / 8 + k) = true) → FieldMarked m layouts f mark'.has := fun mark' hall =>
        ⟨fun _ h => absurd hkind h, fun u' rts' _ hdata' hrts' => by
          cases hdata.symm.trans hdata'
          cases hrts.symm.trans hrts'
          exact hall⟩
      rw [if_pos hkind, hdata]
      dsimp only
      rw [hrts, Option.bind_eq_bind, Option.bind_some]
      cases hbits : rts.markBits with
      | none =>
        refine ⟨mark, rfl, .refl mark, hfields mark fun k _ hk => ?_⟩
        rw [ClassLayout.marked, hbits] at hk
        cases hk
      | some nested =>
        have hnested := (hsound u rts hrts).length nested hbits
        have hle' : f.2.toNat + rts.rt.size ≤ size := hle
        unfold hlMarkSize hlWSize at hnested
        obtain ⟨mark', hset, hcovers, hall⟩ := @MarkBits.setPacked_spec mark nested (f.2.toNat / 8)
          (rts.rt.size / 8) (by omega) (by omega)
        refine ⟨mark', hset, hcovers, hfields mark' fun k hk hbit => hall k hk ?_⟩
        rwa [ClassLayout.marked, hbits] at hbit
    · have hle' : f.2.toNat + (m.typeAt f.1.t).kind.size ≤ size := hle
      rw [size_of_isPtr hptr hkind] at hle'
      rw [if_neg hkind]
      obtain ⟨mark', hset, hcovers, hhas⟩ := MarkBits.set_spec mark (f.2.toNat / 8) (by omega)
      exact ⟨mark', hset, hcovers, fun _ _ => hhas, fun _ _ h => absurd h hkind⟩
  · rw [if_neg hptr]
    refine ⟨mark, rfl, .refl mark, fun h => absurd h hptr, fun _ _ hkind => ?_⟩
    rw [hkind] at hptr
    exact absurd rfl hptr

theorem marks_spec (hsize : rt.size + 7 < 2 ^ 31) (hparent : ∀ p, parent = some p → p.Sound ∧ p.rt.size ≤ rt.size)
    (hfields : ∀ f ∈ obj.fields.zip (rt.fieldsIndexes.drop rt.parentFields),
      ∃ mem, memberOf m (fun u => ((layouts u).map (·.rt)).map ObjRt.member) f.1 = some mem ∧
        f.2.toNat + mem.size ≤ rt.size) :
    ∃ mark, ClassLayout.marks m layouts obj parent rt = some mark ∧ mark.length = hlMarkSize rt.size / 4 ∧
      (∀ p, parent = some p → ∀ q, p.marked q = true → mark.has q = true) ∧
      ∀ f ∈ obj.fields.zip (rt.fieldsIndexes.drop rt.parentFields), FieldMarked m layouts f mark.has := by
  have hzero : (List.replicate (hlMarkSize rt.size / 4) (0 : BitVec 32)).length = hlMarkSize rt.size / 4 :=
    List.length_replicate
  obtain ⟨first, hfirst, hlength, hinherited⟩ : ∃ first,
      ClassLayout.markInherited parent (List.replicate (hlMarkSize rt.size / 4) 0) = some first ∧
        first.length = hlMarkSize rt.size / 4 ∧ ∀ p, parent = some p → ∀ q, p.marked q = true → first.has q = true := by
    cases parent with
    | none => exact ⟨_, rfl, hzero, fun _ h => by cases h⟩
    | some p =>
      obtain ⟨hp, hle⟩ := hparent p rfl
      unfold ClassLayout.markInherited
      dsimp only
      cases hbits : p.markBits with
      | none =>
        refine ⟨_, rfl, hzero, fun p' hp' q hq => ?_⟩
        cases hp'
        rw [ClassLayout.marked, hbits] at hq
        cases hq
      | some src =>
        have hsrc := hp.length src hbits
        have hle' : src.length ≤ (List.replicate (hlMarkSize rt.size / 4) (0 : BitVec 32)).length := by
          rw [hsrc, hzero]
          unfold hlMarkSize hlWSize
          omega
        obtain ⟨first, hcopy, hlength, hall⟩ := MarkBits.copy_spec _ hsrc hle'
        refine ⟨first, hcopy, hlength.trans hzero, fun p' hp' q hq => ?_⟩
        cases hp'
        rw [ClassLayout.marked, hbits] at hq
        exact hall q hq
  obtain ⟨mark, hfold, hcovers, hall⟩ := @MarkBits.foldlM_spec first _ _ (ClassLayout.markField m layouts)
    _ (fun f mark => FieldMarked m layouts f mark.has)
    (fun f _ _ hcovers h => ⟨fun hptr hkind => hcovers.has _ (h.1 hptr hkind),
      fun u rts hkind hdata hrts k hk hbit => hcovers.has _ (h.2 u rts hkind hdata hrts k hk hbit)⟩)
    (fun f hf mark hmark => markField_spec hsound (hfields f hf) hmark) hlength
  refine ⟨mark, ?_, hcovers.length.trans hlength, fun p hp q hq => hcovers.has q (hinherited p hp q hq), hall⟩
  unfold ClassLayout.marks
  rw [if_neg (by unfold hlWSize; omega), hfirst]
  exact hfold

/-- What a class has once `hl_get_obj_rt` is done with it. -/
structure LaidFrom (m : HlModule) (layouts : Nat → Option ClassLayout) (obj : HlTypeObj) (parent : Option ClassLayout)
    (base : Struct) (own : List Member) (c : ClassLayout) : Prop where
  parts : Parts m (fun u => (layouts u).map (·.rt)) obj c.rt base own
  sound : c.Sound
  inherited : ∀ p, parent = some p → ∀ q, p.marked q = true → c.marked q = true
  fields : ∀ f ∈ obj.fields.zip (c.rt.fieldsIndexes.drop c.rt.parentFields), FieldMarked m layouts f c.marked

theorem aligned_of_ptr {base : Struct} (hparts : Parts m (fun u => (layouts u).map (·.rt)) obj rt base own)
    (hparent : ∀ p, parent = some p → p.Sound ∧ Shaped p.rt base)
    (h : (parent.any (·.hasPtr) || obj.fields.any (ClassLayout.holdsPtr m layouts)) = true) :
    0 < rt.largestField ∧ 8 ∣ rt.largestField := by
  rcases Bool.or_eq_true_iff.mp h with h | h
  · cases parent with
    | none => cases h
    | some p =>
      obtain ⟨hp, hshaped⟩ := hparent p rfl
      obtain ⟨hpos, hdvd⟩ := hp.aligned h
      rw [hshaped.largest] at hpos hdvd
      rw [hparts.shaped.largest]
      have hle := base.largest_le_extend own
      exact ⟨hpos.trans_le hle, hdvd.trans (hparts.baseRegular.largest.dvd hparts.regular.largest hpos hle)⟩
  · obtain ⟨f, hf, hholds⟩ := List.any_eq_true.mp h
    obtain ⟨k, hk⟩ := List.mem_iff_getElem?.mp hf
    obtain ⟨mem, o, hmem, -, -, halign⟩ := hparts.placed hk
    have hdvd : 0 < mem.align ∧ 8 ∣ mem.align := by
      unfold ClassLayout.holdsPtr at hholds
      rcases memberOf_eq_some hmem with ⟨u, hkind, hdata, hu, -⟩ | ⟨hkind, rfl⟩
      · dsimp only at hholds
        rw [if_pos hkind, hdata] at hholds
        dsimp only at hholds
        rw [Option.map_map] at hu
        obtain ⟨rts, hrts, rfl⟩ := Option.map_eq_some_iff.mp hu
        refine (hsound u rts hrts).aligned ?_
        rw [hrts] at hholds
        exact hholds
      · dsimp only at hholds
        rw [if_neg hkind] at hholds
        rw [size_of_isPtr hholds hkind]
        decide
    obtain ⟨-, hlargest, hpos⟩ := halign hdvd.1
    exact ⟨hpos, hdvd.2.trans hlargest⟩

theorem built_of {base : Struct} (hparts : Parts m (fun u => (layouts u).map (·.rt)) obj rt base own)
    (hsize : rt.size < 2 ^ 31) (hparent : ∀ p, parent = some p → p.Sound ∧ Shaped p.rt base) :
    ∃ c, ClassLayout.of m layouts obj parent rt = some c ∧ c.rt = rt ∧ LaidFrom m layouts obj parent base own c := by
  unfold ClassLayout.of
  by_cases hptr : (parent.any (·.hasPtr) || obj.fields.any (ClassLayout.holdsPtr m layouts)) = true
  · obtain ⟨hpos, hdvd⟩ := aligned_of_ptr hsound hparts hparent hptr
    have hwords : 8 ∣ rt.size := by
      rw [hparts.shaped.largest] at hpos hdvd
      rw [hparts.shaped.size]
      exact hdvd.trans (dvd_roundUp hpos)
    obtain ⟨mark, hmark, hlength, hinherited, hfields⟩ := marks_spec hsound (by omega)
      (fun p hp => ⟨(hparent p hp).1, (hparent p hp).2.size ▸ hparts.base_le⟩) fun f hf => hparts.zipped hf
    refine ⟨⟨rt, true, some mark⟩, by rw [if_pos hptr, hmark]; rfl, rfl, hparts, ⟨rfl, ?_, fun _ => ⟨hpos, hdvd⟩⟩,
      hinherited, hfields⟩
    rintro _ ⟨⟩
    exact hlength
  · rw [Bool.or_eq_true_iff, not_or] at hptr
    refine ⟨⟨rt, false, none⟩, if_neg (by rw [Bool.or_eq_true_iff]; exact not_or.mpr hptr), rfl, hparts,
      ⟨rfl, nofun, nofun⟩, fun p hp q hq => ?_, fun f hf => ⟨fun hkind hpacked => ?_, ?_⟩⟩
    · subst hp
      exact absurd ((hparent p rfl).1.of_marked hq) hptr.1
    · refine absurd (List.any_eq_true.mpr ⟨f.1, (List.of_mem_zip hf).1, ?_⟩) hptr.2
      unfold ClassLayout.holdsPtr
      dsimp only
      rw [if_neg hpacked]
      exact hkind
    · intro u rts hkind hdata hrts k _ hk
      refine absurd (List.any_eq_true.mpr ⟨f.1, (List.of_mem_zip hf).1, ?_⟩) hptr.2
      unfold ClassLayout.holdsPtr
      dsimp only
      rw [if_pos hkind, hdata]
      dsimp only
      rw [hrts]
      exact (hsound u rts hrts).of_marked hk

end Marks

end HashLink
