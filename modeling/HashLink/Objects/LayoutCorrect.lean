import HashLink.Objects.ObjectLayout

/-!
When `hl_get_obj_rt` lays a class out as it should: exactly when what it needs is there, no structure that is packed
is empty, and the structure that the class declares has a size that is an `int`.
-/

namespace HashLink

open StructLayout

variable {m : HlModule} {t u d : Nat} {obj : HlTypeObj} {rt : ObjRt} {c : ClassLayout} {s : Struct}

theorem startsAt_of {layouts : Nat → Option ClassLayout} {parent : Option ClassLayout} {kind : HlTypeKind}
    (hshaped : ∀ u c, layouts u = some c → ∃ s, Shaped c.rt s ∧ s.Regular) (hparent : ParentOf layouts obj parent) :
    ∃ base, StartsAt kind (parent.map (·.rt)) base ∧ base.Regular ∧ ∀ p, parent = some p → Shaped p.rt base := by
  unfold ParentOf at hparent
  cases hsuper : obj.super with
  | none =>
    rw [hsuper] at hparent
    subst hparent
    exact ⟨_, .inl ⟨rfl, rfl⟩, header_regular kind, nofun⟩
  | some u =>
    rw [hsuper] at hparent
    obtain ⟨p, hp, rfl⟩ := hparent
    obtain ⟨s, hs, hregular⟩ := hshaped u p hp
    refine ⟨s, .inr ⟨p.rt, rfl, hs⟩, hregular, ?_⟩
    rintro _ ⟨⟩
    exact hs

theorem ParentOf.super {α : Type} {values : Nat → Option α} {p : α} (h : ParentOf values obj (some p)) :
    ∃ u, obj.super = some u ∧ values u = some p := by
  unfold ParentOf at h
  cases hsuper : obj.super with
  | none =>
    rw [hsuper] at h
    cases h
  | some u =>
    rw [hsuper] at h
    obtain ⟨_, hu, ⟨⟩⟩ := h
    exact ⟨u, rfl, hu⟩

theorem shaped_of_classLayout (h : classLayout m d t = some c) : ∃ s, Shaped c.rt s ∧ s.Regular := by
  obtain ⟨s, -, hs⟩ := classShape_of_objLayout (objLayout_of_classLayout h).1
  exact ⟨s, hs⟩

theorem shaped_of_map : ∀ u rt, (classLayout m d u).map (·.rt) = some rt → ∃ s, Shaped rt s ∧ s.Regular := by
  intro u rt hu
  obtain ⟨c, hc, rfl⟩ := Option.map_eq_some_iff.mp hu
  exact shaped_of_classLayout hc

theorem built_of_laid {parent : Option ClassLayout} (hsound : ∀ u c, classLayout m d u = some c → c.Sound)
    (hparent : ParentOf (classLayout m d) obj parent)
    (hlaid : layoutClass m (fun u => (classLayout m d u).map (·.rt)) (m.typeAt t).kind obj (parent.map (·.rt)) =
      some rt) (hsize : rt.size < 2 ^ 31) :
    ∃ c base own, ClassLayout.of m (classLayout m d) obj parent rt = some c ∧ c.rt = rt ∧
      StartsAt (m.typeAt t).kind (parent.map (·.rt)) base ∧ LaidFrom m (classLayout m d) obj parent base own c := by
  obtain ⟨base, hstart, hregular, hshape⟩ := startsAt_of (fun _ _ => shaped_of_classLayout) hparent
  obtain ⟨own, hparts⟩ := parts_of shaped_of_map hstart hregular hlaid
  have hbase : ∀ p, parent = some p → p.Sound ∧ Shaped p.rt base := by
    rintro p rfl
    obtain ⟨u, -, hu⟩ := hparent.super
    exact ⟨hsound u p hu, hshape p rfl⟩
  obtain ⟨c, hc, hrt, hbuilt⟩ := built_of hsound hparts hsize hbase
  exact ⟨c, base, own, hc, hrt, hstart, hbuilt⟩

theorem classLayout_of_objLayout (h : objLayout m d t = .ok rt) (hsize : rt.size < 2 ^ 31) :
    ∃ c, classLayout m d t = some c ∧ c.rt = rt ∧ c.Sound := by
  induction d generalizing t rt with
  | zero => cases h
  | succ d ih =>
    obtain ⟨obj, parent, hobj, hparent, hfields, hlaid⟩ := layoutStep_ok.mp h
    have hshaped : ∀ u rt, (objLayout m d u).toOption = some rt → ∃ s, Shaped rt s ∧ s.Regular := by
      intro u rt hu
      obtain ⟨s, -, hs⟩ := classShape_of_objLayout (toOption_eq_some.mp hu)
      exact ⟨s, hs⟩
    -- the sizes of the base and of the packed structures are below that of the class
    obtain ⟨p, hp, hprt⟩ : ∃ p, ParentOf (classLayout m d) obj p ∧ p.map (·.rt) = parent := by
      rcases baseLayout_ok.mp hparent with ⟨hsuper, rfl⟩ | ⟨u, rt', hsuper, hu, rfl⟩
      · exact ⟨none, by rw [ParentOf, hsuper], rfl⟩
      · obtain ⟨s, hs, hregular⟩ := hshaped u rt' (toOption_eq_some.mpr hu)
        obtain ⟨own, hparts⟩ := parts_of hshaped (.inr ⟨rt', rfl, hs⟩) hregular hlaid
        obtain ⟨p, hp, rfl, -⟩ := ih hu (by rw [hs.size]; exact hparts.base_le.trans_lt hsize)
        exact ⟨some p, by rw [ParentOf, hsuper]; exact ⟨p, hp, rfl⟩, rfl⟩
    have hpacked : ∀ f ∈ obj.fields, ∀ u, (m.typeAt f.t).kind = .hPacked → (m.typeAt f.t).data = .tparam u →
        (classLayout m d u).map (·.rt) = (objLayout m d u).toOption := by
      intro f hf u hkind hdata
      obtain ⟨u', rt', hdata', hu, -⟩ := packedDivisor_ok.mp (hfields f hf) hkind
      cases hdata.symm.trans hdata'
      obtain ⟨base, hstart, hregular⟩ : ∃ base, StartsAt (m.typeAt t).kind parent base ∧ base.Regular := by
        obtain ⟨base, hstart, hregular, -⟩ := startsAt_of (fun _ _ => shaped_of_classLayout) hp
        exact ⟨base, hprt ▸ hstart, hregular⟩
      obtain ⟨own, hparts⟩ := parts_of hshaped hstart hregular hlaid
      obtain ⟨k, hk⟩ := List.mem_iff_getElem?.mp hf
      obtain ⟨mem, o, hmem, -, hle, -⟩ := hparts.placed hk
      rcases memberOf_eq_some hmem with ⟨u', -, hdata', hu', -⟩ | ⟨hnot, -⟩
      · cases hdata.symm.trans hdata'
        rw [hu] at hu'
        cases hu'
        obtain ⟨c, hc, hrt, -⟩ := ih hu ((Nat.le_add_left _ _).trans_lt (hle.trans_lt hsize))
        rw [hc, hu, ← hrt]
        rfl
      · exact absurd hkind hnot
    have hsound : ∀ u c, classLayout m d u = some c → c.Sound := by
      intro u c hc
      obtain ⟨hrt, hlt⟩ := objLayout_of_classLayout hc
      obtain ⟨c', hc', -, hsound⟩ := ih hrt hlt
      cases hc.symm.trans hc'
      exact hsound
    rw [← hprt, ← layoutClass_congr hpacked] at hlaid
    obtain ⟨c, base, own, hc, hrt, -, hbuilt⟩ := built_of_laid hsound hp hlaid hsize
    exact ⟨c, ClassLayout.step_eq_some.mpr ⟨obj, p, rt, hobj, hp, hlaid, hsize, hc⟩, hrt, hbuilt.sound⟩

theorem sound_of_classLayout (h : classLayout m d t = some c) : c.Sound := by
  obtain ⟨hrt, hsize⟩ := objLayout_of_classLayout h
  obtain ⟨c', hc', -, hsound⟩ := classLayout_of_objLayout hrt hsize
  cases h.symm.trans hc'
  exact hsound

theorem built_of_classLayout (h : classLayout m (d + 1) t = some c) :
    ∃ obj parent base own, (m.typeAt t).obj? = some obj ∧ ParentOf (classLayout m d) obj parent ∧
      StartsAt (m.typeAt t).kind (parent.map (·.rt)) base ∧ LaidFrom m (classLayout m d) obj parent base own c := by
  obtain ⟨obj, parent, rt, hobj, hparent, hlaid, hsize, hc⟩ := ClassLayout.step_eq_some.mp h
  obtain ⟨c', base, own, hc', -, hstart, hbuilt⟩ :=
    built_of_laid (fun _ _ => sound_of_classLayout) hparent hlaid hsize
  cases hc.symm.trans hc'
  exact ⟨obj, parent, base, own, hobj, hparent, hstart, hbuilt⟩

/-- What `hl_get_obj_rt` computes for a class. -/
def HasRt (m : HlModule) (t : Nat) (rt : ObjRt) : Prop := ∃ depth, objLayout m depth t = .ok rt

/-- The size and the alignment of a field. A packed structure has those of its own layout. -/
def Extent (m : HlModule) (f : HlObjField) (mem : Member) : Prop :=
  if (m.typeAt f.t).kind = .hPacked then
    ∃ u rt, (m.typeAt f.t).data = .tparam u ∧ HasRt m u rt ∧ mem = rt.member
  else mem = ⟨(m.typeAt f.t).kind.size, (m.typeAt f.t).kind.size⟩

def headerSize (m : HlModule) : List (Nat × HlTypeObj) → Nat
  | [] => 0
  | [(t, _)] => if (m.typeAt t).kind = .hStruct then 0 else hlWSize
  | _ :: base => headerSize m base

/-- The objects of a class hold a pointer at an offset: in a field of the class or of its base, or inside a structure
that is packed. -/
inductive PointerAt (m : HlModule) : Nat → Nat → Prop
  | inherited {t u o : Nat} {obj : HlTypeObj} (hobj : (m.typeAt t).obj? = some obj) (hsuper : obj.super = some u)
      (h : PointerAt m u o) : PointerAt m t o
  | field {t k o : Nat} {obj : HlTypeObj} {f : HlObjField} {rt : ObjRt} (hobj : (m.typeAt t).obj? = some obj)
      (hf : obj.fields[k]? = some f) (hptr : (m.typeAt f.t).kind.isPtr = true) (hkind : (m.typeAt f.t).kind ≠ .hPacked)
      (hrt : HasRt m t rt) (ho : rt.fieldsIndexes[rt.parentFields + k]? = some (o : Int)) : PointerAt m t o
  | packed {t u k o o' : Nat} {obj : HlTypeObj} {f : HlObjField} {rt : ObjRt} (hobj : (m.typeAt t).obj? = some obj)
      (hf : obj.fields[k]? = some f) (hkind : (m.typeAt f.t).kind = .hPacked)
      (hdata : (m.typeAt f.t).data = .tparam u) (hrt : HasRt m t rt)
      (ho : rt.fieldsIndexes[rt.parentFields + k]? = some (o : Int)) (h : PointerAt m u o') : PointerAt m t (o + o')

/-- What is right about the layout of a class. Its fields, with those of the bases first, are apart, aligned and inside
the objects; those of the base are where the base has them; and each pointer has a word of its own and a mark bit. -/
structure ClassLayout.Right (m : HlModule) (t : Nat) (c : ClassLayout) : Prop where
  fields : ∃ chain members offsets, Bases m t chain ∧ List.Forall₂ (Extent m) (allFields chain) members ∧
    c.rt.fieldsIndexes = offsets.map Nat.cast ∧
    Struct.Placed (headerSize m chain) c.rt.size c.rt.largestField members offsets
  inherited : ∀ obj u rt, (m.typeAt t).obj? = some obj → obj.super = some u → HasRt m u rt →
    rt.fieldsIndexes <+: c.rt.fieldsIndexes
  array : ∀ mark, c.markBits = some mark → 4 * mark.length = hlMarkSize c.rt.size
  marks : ∀ o, PointerAt m t o → 8 ∣ o ∧ o + 8 ≤ c.rt.size ∧ c.marked (o / 8) = true

/-- `hl_get_obj_rt` returns for a class, with every sum an `int` and every mark bit inside the array, and with a layout
that is right. -/
def LaidOut (m : HlModule) (t : Nat) : Prop := ∃ c, HasLayout m t c ∧ c.Right m t

theorem HasRt.unique {rt' : ObjRt} (h : HasRt m t rt) (h' : HasRt m t rt') : rt = rt' := by
  obtain ⟨d, hd⟩ := h
  obtain ⟨d', hd'⟩ := h'
  have hmax := (objLayout_le (Nat.le_max_left d d')).1 t rt hd
  rw [(objLayout_le (Nat.le_max_right d d')).1 t rt' hd'] at hmax
  exact (Except.ok.inj hmax).symm

theorem HasLayout.hasRt (h : HasLayout m t c) : HasRt m t c.rt := by
  obtain ⟨d, hd⟩ := h
  exact ⟨d, (objLayout_of_classLayout hd).1⟩

theorem Parts.extents {base : Struct} {own : List Member}
    (h : Parts m (fun u => (classLayout m d u).map (·.rt)) obj rt base own) :
    List.Forall₂ (Extent m) obj.fields own := by
  obtain ⟨hlength, hall⟩ := mapM_getElem? h.members
  refine List.forall₂_iff_get.mpr ⟨hlength.symm, fun k hk hk' => ?_⟩
  obtain ⟨mem, hmem, hf⟩ := hall k _ (List.getElem?_eq_getElem hk)
  cases (List.getElem?_eq_getElem hk').symm.trans hmem
  unfold Extent
  rcases memberOf_eq_some hf with ⟨u, hkind, hdata, hu, -⟩ | ⟨hkind, hvalue⟩
  · rw [Option.map_map] at hu
    obtain ⟨c', hc', hmember⟩ := Option.map_eq_some_iff.mp hu
    exact (if_pos hkind).mpr ⟨u, c'.rt, hdata, HasLayout.hasRt ⟨d, hc'⟩, hmember.symm⟩
  · exact (if_neg hkind).mpr hvalue

theorem fields_of_classLayout (h : classLayout m d t = some c) : ∃ chain s, Bases m t chain ∧ Shaped c.rt s ∧
    s.Regular ∧ s.header = headerSize m chain ∧ List.Forall₂ (Extent m) (allFields chain) s.members := by
  induction d generalizing t c with
  | zero => cases h
  | succ d ih =>
    obtain ⟨obj, parent, rt, hobj, hparent, hlaid, -, hc⟩ := ClassLayout.step_eq_some.mp h
    rw [ClassLayout.of_rt hc]
    unfold ParentOf at hparent
    cases hsuper : obj.super with
    | none =>
      rw [hsuper] at hparent
      subst hparent
      obtain ⟨own, hparts⟩ := parts_of shaped_of_map (.inl ⟨rfl, rfl⟩) (header_regular _) hlaid
      exact ⟨[(t, obj)], _, .root hobj hsuper, hparts.shaped, hparts.regular, rfl, hparts.extents⟩
    | some u =>
      rw [hsuper] at hparent
      obtain ⟨p, hp, rfl⟩ := hparent
      obtain ⟨chain, s, hchain, hshaped, hregular, hheader, hfields⟩ := ih hp
      obtain ⟨own, hparts⟩ := parts_of shaped_of_map (.inr ⟨p.rt, rfl, hshaped⟩) hregular hlaid
      refine ⟨(t, obj) :: chain, _, .derived hobj hsuper hchain, hparts.shaped, hparts.regular, ?_, ?_⟩
      · cases hchain <;> exact hheader
      · exact List.rel_append hfields hparts.extents

theorem inherited_of_classLayout (h : classLayout m d t = some c) (hobj : (m.typeAt t).obj? = some obj)
    (hsuper : obj.super = some u) (hu : HasRt m u rt) : rt.fieldsIndexes <+: c.rt.fieldsIndexes := by
  cases d with
  | zero => cases h
  | succ d =>
    obtain ⟨obj', parent, rt', hobj', hparent, hlaid, -, hc⟩ := ClassLayout.step_eq_some.mp h
    cases hobj.symm.trans hobj'
    rw [ClassLayout.of_rt hc]
    unfold ParentOf at hparent
    rw [hsuper] at hparent
    obtain ⟨p, hp, rfl⟩ := hparent
    obtain ⟨s, hs, hregular⟩ := shaped_of_classLayout hp
    obtain ⟨own, hparts⟩ := parts_of shaped_of_map (.inr ⟨p.rt, rfl, hs⟩) hregular hlaid
    rw [hu.unique (HasLayout.hasRt ⟨d, hp⟩), hparts.shaped.indexes, hs.indexes]
    refine List.IsPrefix.map Nat.cast ?_
    show offsets s.header s.members <+: offsets s.header (s.members ++ own)
    rw [offsets_append]
    exact List.prefix_append _ _

theorem mem_zip_fields {k o : Nat} {f : HlObjField} (hf : obj.fields[k]? = some f)
    (ho : rt.fieldsIndexes[rt.parentFields + k]? = some (o : Int)) :
    (f, (o : Int)) ∈ obj.fields.zip (rt.fieldsIndexes.drop rt.parentFields) := by
  refine List.mem_of_getElem? (List.getElem?_zip_eq_some.mpr ⟨hf, ?_⟩)
  rw [List.getElem?_drop]
  exact ho

theorem marked_of_pointerAt {o : Nat} (h : PointerAt m t o) (hlayout : HasLayout m t c) :
    8 ∣ o ∧ o + 8 ≤ c.rt.size ∧ c.marked (o / 8) = true := by
  induction h generalizing c with
  | @inherited t u o obj hobj hsuper _ ih =>
    obtain ⟨d, hd⟩ := hlayout
    cases d with
    | zero => cases hd
    | succ d =>
      obtain ⟨obj', parent, base, own, hobj', hparent, hstart, hbuilt⟩ := built_of_classLayout hd
      cases hobj.symm.trans hobj'
      unfold ParentOf at hparent
      rw [hsuper] at hparent
      obtain ⟨p, hp, rfl⟩ := hparent
      obtain ⟨hdvd, hle, hmarked⟩ := ih ⟨d, hp⟩
      rcases hstart with ⟨⟨⟩, -⟩ | ⟨_, ⟨⟩, hshaped⟩
      have hbase := hbuilt.parts.base_le
      rw [← hshaped.size] at hbase
      exact ⟨hdvd, hle.trans hbase, hbuilt.inherited p rfl _ hmarked⟩
  | @field t k o obj f rt hobj hf hptr hkind hrt ho =>
    cases hrt.unique hlayout.hasRt
    obtain ⟨d, hd⟩ := hlayout
    cases d with
    | zero => cases hd
    | succ d =>
      obtain ⟨obj', parent, base, own, hobj', -, -, hbuilt⟩ := built_of_classLayout hd
      cases hobj.symm.trans hobj'
      obtain ⟨mem, o', hmem, ho', hle, halign⟩ := hbuilt.parts.placed hf
      obtain rfl : o = o' := Int.ofNat.inj (Option.some.inj (ho.symm.trans ho'))
      rcases memberOf_eq_some hmem with ⟨_, hpacked, -⟩ | ⟨-, rfl⟩
      · exact absurd hpacked hkind
      · rw [size_of_isPtr hptr hkind] at hle halign
        exact ⟨(halign (by decide)).1, hle, (hbuilt.fields _ (mem_zip_fields hf ho)).1 hptr hkind⟩
  | @packed t u k o o' obj f rt hobj hf hkind hdata hrt ho _ ih =>
    cases hrt.unique hlayout.hasRt
    obtain ⟨d, hd⟩ := hlayout
    cases d with
    | zero => cases hd
    | succ d =>
      obtain ⟨obj', parent, base, own, hobj', -, -, hbuilt⟩ := built_of_classLayout hd
      cases hobj.symm.trans hobj'
      obtain ⟨mem, i, hmem, hi, hle, halign⟩ := hbuilt.parts.placed hf
      obtain rfl : o = i := Int.ofNat.inj (Option.some.inj (ho.symm.trans hi))
      rcases memberOf_eq_some hmem with ⟨u', -, hdata', hu, -⟩ | ⟨hnot, -⟩
      · cases hdata.symm.trans hdata'
        rw [Option.map_map] at hu
        obtain ⟨rts, hrts, rfl⟩ := Option.map_eq_some_iff.mp hu
        obtain ⟨hdvd, hle', hmarked⟩ := ih ⟨d, hrts⟩
        have hsound := sound_of_classLayout hrts
        obtain ⟨hpos, hwords⟩ := hsound.aligned (hsound.of_marked hmarked)
        have ho8 : 8 ∣ o := hwords.trans (halign hpos).1
        have hend : o + rts.rt.size ≤ c.rt.size := hle
        refine ⟨Nat.dvd_add ho8 hdvd, by omega, ?_⟩
        rw [show (o + o') / 8 = o / 8 + o' / 8 by omega]
        exact (hbuilt.fields _ (mem_zip_fields hf ho)).2 u rts hkind hdata hrts _ (by omega) hmarked
      · exact absurd hkind hnot

theorem right_of_classLayout (h : classLayout m d t = some c) : c.Right m t where
  fields := by
    obtain ⟨chain, s, hchain, hshaped, hregular, hheader, hfields⟩ := fields_of_classLayout h
    refine ⟨chain, s.members, s.offsets, hchain, hfields, hshaped.indexes, ?_⟩
    rw [hshaped.size, hshaped.largest, ← hheader]
    exact hregular.placed
  inherited _ _ _ hobj hsuper hu := inherited_of_classLayout h hobj hsuper hu
  array mark hmark := by
    rw [(sound_of_classLayout h).length mark hmark]
    unfold hlMarkSize
    omega
  marks _ ho := marked_of_pointerAt ho ⟨d, h⟩

theorem shapeStep_uses (m : HlModule) : DepthBound.Uses (shapeStep m) m.Needs where
  demands := by
    rintro shapes t s u h ⟨obj, hobj, hneeds⟩
    obtain ⟨obj', hobj', h⟩ := Option.bind_eq_some_iff.mp h
    cases hobj.symm.trans hobj'
    obtain ⟨base, hbase, h⟩ := Option.bind_eq_some_iff.mp h
    obtain ⟨own, hown, -⟩ := Option.bind_eq_some_iff.mp h
    rcases hneeds with hsuper | ⟨f, hf, hkind, hdata⟩
    · rw [ofSuper_eq_some, ParentOf, hsuper] at hbase
      obtain ⟨s', hs', -⟩ := hbase
      exact Option.isSome_iff_exists.mpr ⟨s', hs'⟩
    · obtain ⟨k, hk⟩ := List.mem_iff_getElem?.mp hf
      obtain ⟨mem, -, hmem⟩ := (mapM_getElem? hown).2 k f hk
      rcases memberOf_eq_some hmem with ⟨u', -, hdata', hu, -⟩ | ⟨hnot, -⟩
      · cases hdata.symm.trans hdata'
        obtain ⟨s', hs', -⟩ := Option.map_eq_some_iff.mp hu
        exact Option.isSome_iff_exists.mpr ⟨s', hs'⟩
      · exact absurd hkind hnot
  congr := by
    intro shapes shapes' t s h hsame
    rw [← h]
    unfold shapeStep
    cases hobj : (m.typeAt t).obj? with
    | none => rfl
    | some obj =>
      have hbase : ofSuper shapes' obj = ofSuper shapes obj := by
        unfold ofSuper
        cases hsuper : obj.super with
        | none => rfl
        | some u => exact congrArg (·.map some) (hsame u ⟨obj, hobj, .inl hsuper⟩)
      have hown : obj.fields.mapM (memberOf m fun u => (shapes' u).map Struct.member) =
          obj.fields.mapM (memberOf m fun u => (shapes u).map Struct.member) :=
        mapM_congr fun f hf => memberOf_congr fun u hkind hdata =>
          congrArg (·.map Struct.member) (hsame u ⟨obj, hobj, .inr ⟨f, hf, hkind, hdata⟩⟩)
      simp only [Option.bind_eq_bind, Option.bind_some, hbase, hown]

/-- A class is laid out as it should be exactly when `hl_get_obj_rt` has all that it needs, no structure that is packed
is empty, and the size that the class declares is an `int`. -/
theorem laidOut_iff (m : HlModule) (t : Nat) :
    LaidOut m t ↔ Complete m t ∧ ∀ s, HasShape m t s → s.size < 2 ^ 31 := by
  constructor
  · rintro ⟨c, ⟨d, hd⟩, -⟩
    obtain ⟨hrt, hsize⟩ := objLayout_of_classLayout hd
    obtain ⟨s, hs, hshaped, -⟩ := classShape_of_objLayout hrt
    refine ⟨(objLayout_complete hrt).1, ?_⟩
    rintro s' ⟨d', hs'⟩
    cases (shapeStep_uses m).unique hs hs'
    rwa [← hshaped.size]
  · rintro ⟨hcomplete, hsizes⟩
    obtain ⟨d, rt, hrt⟩ := objLayout_of_complete hcomplete
    obtain ⟨s, hs, hshaped, -⟩ := classShape_of_objLayout hrt
    obtain ⟨c, hc, -⟩ := classLayout_of_objLayout hrt (hshaped.size ▸ hsizes s ⟨d, hs⟩)
    exact ⟨c, ⟨d, hc⟩, right_of_classLayout hc⟩

inductive BasesEnd (m : HlModule) : Nat → Prop
  | intro {t : Nat} {obj : HlTypeObj} (hobj : (m.typeAt t).obj? = some obj)
      (hbase : ∀ u, obj.super = some u → BasesEnd m u)
      (hpacked : ∀ f ∈ obj.fields, (m.typeAt f.t).kind = .hPacked → ∃ u, (m.typeAt f.t).data = .tparam u)
      (hstruct : ∀ f ∈ obj.fields, ∀ u, (m.typeAt f.t).kind = .hPacked → (m.typeAt f.t).data = .tparam u →
        BasesEnd m u) :
      BasesEnd m t

def emptyStruct : HlModule :=
  { patchedModule with types :=
      [⟨.hStruct, .obj ⟨[], none, [], [], [], none, ⟨[], [], 0⟩⟩, true⟩, ⟨.hPacked, .tparam 0, true⟩,
        ⟨.hObj, .obj ⟨[], none, [⟨[], 0, 1⟩], [], [], none, ⟨[], [], 0⟩⟩, true⟩] }

/-- The class with the empty structure is not laid out. -/
theorem emptyStruct_not_laidOut : ¬∀ m t, BasesEnd m t → LaidOut m t := by
  intro hclaim
  have hempty : BasesEnd emptyStruct 0 :=
    .intro rfl nofun nofun nofun
  obtain ⟨c, ⟨d, hd⟩, -⟩ := hclaim emptyStruct 2 (.intro rfl nofun (fun f hf _ => ⟨0, by
    obtain rfl := List.mem_singleton.mp hf
    rfl⟩) fun f hf u _ hdata => by
    obtain rfl := List.mem_singleton.mp hf
    cases hdata
    exact hempty)
  have hcomplete := (objLayout_complete (objLayout_of_classLayout hd).1).1
  obtain ⟨u, hdata, -, hsized⟩ := (complete_iff rfl).mp hcomplete |>.2 _ (List.mem_singleton.mpr rfl) rfl
  cases hdata
  cases hsized with
  | object _ _ hkind => exact hkind rfl
  | field hobj hf =>
    cases hobj
    cases hf
  | base hobj hsuper =>
    cases hobj
    cases hsuper

end HashLink
