import HashLink.Code.WellFormed
import HashLink.Objects.RuntimeBuilt

/-!
Where `hl_get_obj_rt` divides by zero. A packed field is aligned on the largest field of the structure it
holds, and neither the reader nor the patch checks ask whether that structure has a field.
-/

namespace HashLink

/-- What stops `hl_get_obj_rt`: it has followed bases and packed structures for too long, a type is read
as a class that is none, or a remainder is by zero. -/
inductive LayoutFault where
  | endless
  | noClass
  | divisionByZero
  deriving DecidableEq

/-- What a field asks of the structure it packs. Whether the remainder is defined does not depend on the
offset, so the layout itself is left to `layoutClass`. -/
def packedDivisor (m : HlModule) (layouts : Nat → Except LayoutFault ObjRt) (field : HlObjField) :
    Except LayoutFault Unit :=
  if (m.typeAt field.t).kind = .hPacked then
    match (m.typeAt field.t).data with
    | .tparam t => do
        let rt ← layouts t
        if rt.largestField = 0 then throw .divisionByZero
    | _ => throw .noClass
  else pure ()

/-- `hl_get_obj_rt` of the base of a class. -/
def baseLayout (layouts : Nat → Except LayoutFault ObjRt) (obj : HlTypeObj) : Except LayoutFault (Option ObjRt) :=
  match obj.super with
  | none => pure none
  | some super => some <$> layouts super

/-- `hl_get_obj_rt` of a class, with the layouts of the others. -/
def layoutStep (m : HlModule) (layouts : Nat → Except LayoutFault ObjRt) (t : Nat) : Except LayoutFault ObjRt :=
  match (m.typeAt t).obj? with
  | none => throw .noClass
  | some obj => do
      let parent ← baseLayout layouts obj
      obj.fields.forM (packedDivisor m layouts)
      match layoutClass m (fun u => (layouts u).toOption) (m.typeAt t).kind obj parent with
      | some rt => pure rt
      | none => throw .noClass

/-- `hl_get_obj_rt`, with what stops it. -/
def objLayout (m : HlModule) : Nat → Nat → Except LayoutFault ObjRt
  | 0, _ => throw .endless
  | depth + 1, t => layoutStep m (objLayout m depth) t

variable {m : HlModule} {layouts layouts' : Nat → Except LayoutFault ObjRt} {t u : Nat} {obj : HlTypeObj}
  {field : HlObjField} {rt : ObjRt} {e : LayoutFault}

theorem except_bind_ok {α β : Type} {x : Except LayoutFault α} {f : α → Except LayoutFault β} {b : β} :
    x >>= f = .ok b ↔ ∃ a, x = .ok a ∧ f a = .ok b := by
  cases x <;> simp [bind, Except.bind]

theorem except_bind_error {α β : Type} {x : Except LayoutFault α} {f : α → Except LayoutFault β} :
    x >>= f = .error e ↔ x = .error e ∨ ∃ a, x = .ok a ∧ f a = .error e := by
  cases x <;> simp [bind, Except.bind]

variable {l : List HlObjField} {parent : Option ObjRt}

theorem forM_ok {f : HlObjField → Except LayoutFault Unit} :
    l.forM f = .ok () ↔ ∀ a ∈ l, f a = .ok () := by
  induction l with
  | nil => exact ⟨fun _ a ha => absurd ha List.not_mem_nil, fun _ => rfl⟩
  | cons a l ih =>
    rw [List.forall_mem_cons, ← ih]
    exact (except_bind_ok).trans ⟨fun ⟨_, ha, hl⟩ => ⟨ha, hl⟩, fun ⟨ha, hl⟩ => ⟨(), ha, hl⟩⟩

theorem forM_error {f : HlObjField → Except LayoutFault Unit} :
    l.forM f = .error e ↔
      ∃ done a rest, l = done ++ a :: rest ∧ (∀ b ∈ done, f b = .ok ()) ∧ f a = .error e := by
  constructor
  · intro h
    induction l with
    | nil => cases h
    | cons a l ih =>
      rcases (except_bind_error).mp h with ha | ⟨_, ha, hl⟩
      · exact ⟨[], a, l, rfl, fun _ hb => absurd hb List.not_mem_nil, ha⟩
      · obtain ⟨done, b, rest, rfl, hdone, hb⟩ := ih hl
        exact ⟨a :: done, b, rest, rfl, List.forall_mem_cons.mpr ⟨ha, hdone⟩, hb⟩
  · rintro ⟨done, a, rest, rfl, hdone, ha⟩
    induction done with
    | nil => exact (except_bind_error).mpr (.inl ha)
    | cons b done ih =>
      obtain ⟨hb, hdone⟩ := List.forall_mem_cons.mp hdone
      exact (except_bind_error).mpr (.inr ⟨(), hb, ih hdone⟩)

theorem packedDivisor_ok : packedDivisor m layouts field = .ok () ↔ (m.typeAt field.t).kind = .hPacked →
    ∃ u rt, (m.typeAt field.t).data = .tparam u ∧ layouts u = .ok rt ∧ rt.largestField ≠ 0 := by
  unfold packedDivisor
  split
  · rename_i hkind
    rw [forall_prop_of_true hkind]
    split
    · rename_i u hdata
      rw [except_bind_ok]
      constructor
      · rintro ⟨rt, hrt, hzero⟩
        refine ⟨u, rt, hdata, hrt, fun hlargest => ?_⟩
        rw [if_pos hlargest] at hzero
        cases hzero
      · rintro ⟨u', rt, hdata', hrt, hlargest⟩
        cases hdata.symm.trans hdata'
        exact ⟨rt, hrt, if_neg hlargest⟩
    · rename_i hdata
      exact iff_of_false (fun h => by cases h) fun ⟨u, _, hu, _⟩ => hdata u hu
  · rename_i hkind
    exact iff_of_true rfl fun h => absurd h hkind

theorem packedDivisor_zero : packedDivisor m layouts field = .error .divisionByZero ↔
    (m.typeAt field.t).kind = .hPacked ∧ ∃ u, (m.typeAt field.t).data = .tparam u ∧
      (layouts u = .error .divisionByZero ∨ ∃ rt, layouts u = .ok rt ∧ rt.largestField = 0) := by
  unfold packedDivisor
  split
  · rename_i hkind
    rw [and_iff_right hkind]
    split
    · rename_i u hdata
      rw [except_bind_error]
      constructor
      · rintro (herror | ⟨rt, hrt, hzero⟩)
        · exact ⟨u, hdata, .inl herror⟩
        · refine ⟨u, hdata, .inr ⟨rt, hrt, ?_⟩⟩
          by_contra hlargest
          rw [if_neg hlargest] at hzero
          cases hzero
      · rintro ⟨u', hdata', herror | ⟨rt, hrt, hlargest⟩⟩
        · cases hdata.symm.trans hdata'
          exact .inl herror
        · cases hdata.symm.trans hdata'
          exact .inr ⟨rt, hrt, if_pos hlargest⟩
    · rename_i hdata
      exact iff_of_false (fun h => by cases h) fun ⟨u, hu, _⟩ => hdata u hu
  · rename_i hkind
    exact iff_of_false (fun h => by cases h) fun h => hkind h.1

theorem layoutStep_ok : layoutStep m layouts t = .ok rt ↔ ∃ obj parent, (m.typeAt t).obj? = some obj ∧
    baseLayout layouts obj = .ok parent ∧ (∀ f ∈ obj.fields, packedDivisor m layouts f = .ok ()) ∧
    layoutClass m (fun u => (layouts u).toOption) (m.typeAt t).kind obj parent = some rt := by
  unfold layoutStep
  cases (m.typeAt t).obj? with
  | none => exact iff_of_false (fun h => by cases h) fun ⟨_, _, h, _⟩ => by cases h
  | some obj =>
    dsimp only
    rw [except_bind_ok]
    constructor
    · rintro ⟨parent, hparent, h⟩
      obtain ⟨⟨⟩, hfields, h⟩ := (except_bind_ok).mp h
      refine ⟨obj, parent, rfl, hparent, (forM_ok).mp hfields, ?_⟩
      split at h
      · rename_i hlaid
        cases h
        exact hlaid
      · cases h
    · rintro ⟨_, parent, ⟨⟩, hparent, hfields, hlaid⟩
      refine ⟨parent, hparent, (except_bind_ok).mpr ⟨(), (forM_ok).mpr hfields, ?_⟩⟩
      rw [hlaid]
      rfl

theorem layoutStep_zero : layoutStep m layouts t = .error .divisionByZero ↔
    ∃ obj, (m.typeAt t).obj? = some obj ∧ (baseLayout layouts obj = .error .divisionByZero ∨
      ∃ parent, baseLayout layouts obj = .ok parent ∧ ∃ done f rest, obj.fields = done ++ f :: rest ∧
        (∀ g ∈ done, packedDivisor m layouts g = .ok ()) ∧
        packedDivisor m layouts f = .error .divisionByZero) := by
  unfold layoutStep
  cases (m.typeAt t).obj? with
  | none => exact iff_of_false (fun h => by cases h) fun ⟨_, h, _⟩ => by cases h
  | some obj =>
    dsimp only
    rw [except_bind_error]
    constructor
    · rintro (hbase | ⟨parent, hparent, h⟩)
      · exact ⟨obj, rfl, .inl hbase⟩
      · refine ⟨obj, rfl, .inr ⟨parent, hparent, (forM_error).mp ?_⟩⟩
        rcases (except_bind_error).mp h with hfields | ⟨-, -, h⟩
        · exact hfields
        · split at h <;> cases h
    · rintro ⟨_, ⟨⟩, hbase | ⟨parent, hparent, hfields⟩⟩
      · exact .inl hbase
      · exact .inr ⟨parent, hparent, (except_bind_error).mpr (.inl ((forM_error).mpr hfields))⟩

theorem baseLayout_ok : baseLayout layouts obj = .ok parent ↔
    obj.super = none ∧ parent = none ∨ ∃ s rt, obj.super = some s ∧ layouts s = .ok rt ∧ parent = some rt := by
  unfold baseLayout
  cases obj.super with
  | none =>
    refine ⟨fun h => by cases h; exact .inl ⟨rfl, rfl⟩, ?_⟩
    rintro (⟨-, rfl⟩ | ⟨_, _, ⟨⟩, _⟩)
    rfl
  | some s =>
    constructor
    · intro h
      obtain ⟨rt, hrt, h⟩ := (except_bind_ok).mp h
      cases h
      exact .inr ⟨s, rt, rfl, hrt, rfl⟩
    · rintro (⟨⟨⟩, -⟩ | ⟨_, rt, ⟨⟩, hrt, rfl⟩)
      exact (except_bind_ok).mpr ⟨rt, hrt, rfl⟩

theorem baseLayout_zero : baseLayout layouts obj = .error .divisionByZero ↔
    ∃ s, obj.super = some s ∧ layouts s = .error .divisionByZero := by
  unfold baseLayout
  cases obj.super with
  | none => exact iff_of_false (fun h => by cases h) fun ⟨_, h, _⟩ => by cases h
  | some s =>
    refine ⟨fun h => ⟨s, rfl, ?_⟩, fun ⟨_, hs, herror⟩ => ?_⟩
    · rcases (except_bind_error).mp h with h | ⟨_, _, h⟩
      · exact h
      · cases h
    · cases hs
      exact (except_bind_error).mpr (.inl herror)

section Depth

variable (hok : ∀ u rt, layouts u = .ok rt → layouts' u = .ok rt)
include hok

theorem packedDivisor_mono (h : packedDivisor m layouts field = .ok ()) :
    packedDivisor m layouts' field = .ok () := by
  rw [packedDivisor_ok] at h ⊢
  intro hkind
  obtain ⟨u, rt, hdata, hrt, hlargest⟩ := h hkind
  exact ⟨u, rt, hdata, hok u rt hrt, hlargest⟩

theorem baseLayout_mono (h : baseLayout layouts obj = .ok parent) :
    baseLayout layouts' obj = .ok parent := by
  rw [baseLayout_ok] at h ⊢
  refine h.imp_right fun ⟨s, rt, hs, hrt, hparent⟩ => ⟨s, rt, hs, hok s rt hrt, hparent⟩

theorem layoutStep_mono (h : layoutStep m layouts t = .ok rt) : layoutStep m layouts' t = .ok rt := by
  rw [layoutStep_ok] at h ⊢
  obtain ⟨obj, parent, hobj, hparent, hfields, hlaid⟩ := h
  refine ⟨obj, parent, hobj, baseLayout_mono hok hparent, fun f hf => packedDivisor_mono hok (hfields f hf), ?_⟩
  rw [← hlaid]
  refine layoutClass_congr fun f hf u hkind hdata => ?_
  obtain ⟨u', rt', hdata', hrt, -⟩ := (packedDivisor_ok).mp (hfields f hf) hkind
  cases hdata.symm.trans hdata'
  rw [hrt, hok u rt' hrt]

theorem layoutStep_mono_zero
    (hzero : ∀ u, layouts u = .error .divisionByZero → layouts' u = .error .divisionByZero)
    (h : layoutStep m layouts t = .error .divisionByZero) :
    layoutStep m layouts' t = .error .divisionByZero := by
  rw [layoutStep_zero] at h ⊢
  obtain ⟨obj, hobj, hbase | ⟨parent, hparent, done, f, rest, hfields, hdone, hf⟩⟩ := h
  · obtain ⟨s, hs, herror⟩ := (baseLayout_zero).mp hbase
    exact ⟨obj, hobj, .inl ((baseLayout_zero).mpr ⟨s, hs, hzero s herror⟩)⟩
  · refine ⟨obj, hobj, .inr ⟨parent, baseLayout_mono hok hparent, done, f, rest, hfields,
      fun g hg => packedDivisor_mono hok (hdone g hg), ?_⟩⟩
    obtain ⟨hkind, u, hdata, hu⟩ := (packedDivisor_zero).mp hf
    exact (packedDivisor_zero).mpr ⟨hkind, u, hdata, hu.imp (hzero u) fun ⟨rt, hrt, hl⟩ => ⟨rt, hok u rt hrt, hl⟩⟩

end Depth

theorem objLayout_succ (depth : Nat) :
    (∀ u rt, objLayout m depth u = .ok rt → objLayout m (depth + 1) u = .ok rt) ∧
      ∀ u, objLayout m depth u = .error .divisionByZero →
        objLayout m (depth + 1) u = .error .divisionByZero := by
  induction depth with
  | zero => exact ⟨fun u rt h => (by cases h), fun u h => (by cases h)⟩
  | succ depth ih =>
    exact ⟨fun u rt h => layoutStep_mono ih.1 h, fun u h => layoutStep_mono_zero ih.1 ih.2 h⟩

theorem objLayout_le {depth depth' : Nat} (hle : depth ≤ depth') :
    (∀ u rt, objLayout m depth u = .ok rt → objLayout m depth' u = .ok rt) ∧
      ∀ u, objLayout m depth u = .error .divisionByZero → objLayout m depth' u = .error .divisionByZero := by
  induction hle with
  | refl => exact ⟨fun _ _ => id, fun _ => id⟩
  | @step k _ ih =>
    have hnext := @objLayout_succ m k
    exact ⟨fun u rt h => hnext.1 u rt (ih.1 u rt h), fun u h => hnext.2 u (ih.2 u h)⟩

/-- What `hl_get_obj_rt` returns for: classes, with bases and packed structures it returns for, of which the
packed ones have something in them. -/
inductive Complete (m : HlModule) : Nat → Prop
  | intro {t : Nat} {obj : HlTypeObj} (hobj : (m.typeAt t).obj? = some obj)
      (hbase : ∀ s, obj.super = some s → Complete m s)
      (hpacked : ∀ f ∈ obj.fields, (m.typeAt f.t).kind = .hPacked →
        ∀ u, (m.typeAt f.t).data = .tparam u → Complete m u)
      (hsized : ∀ f ∈ obj.fields, (m.typeAt f.t).kind = .hPacked →
        ∃ u, (m.typeAt f.t).data = .tparam u ∧ Sized m u) : Complete m t

def FieldComplete (m : HlModule) (f : HlObjField) : Prop :=
  (m.typeAt f.t).kind = .hPacked → ∃ u, (m.typeAt f.t).data = .tparam u ∧ Complete m u ∧ Sized m u

/-- Following the bases and then the fields in order, `hl_get_obj_rt` comes to a packed field whose structure
has nothing in it. -/
inductive MeetsEmpty (m : HlModule) : Nat → Prop
  | base {t s : Nat} {obj : HlTypeObj} (hobj : (m.typeAt t).obj? = some obj) (hsuper : obj.super = some s)
      (rest : MeetsEmpty m s) : MeetsEmpty m t
  | packed {t u : Nat} {obj : HlTypeObj} {done rest : List HlObjField} {f : HlObjField}
      (hobj : (m.typeAt t).obj? = some obj) (hbase : ∀ s, obj.super = some s → Complete m s)
      (hfields : obj.fields = done ++ f :: rest) (hdone : ∀ g ∈ done, FieldComplete m g)
      (hkind : (m.typeAt f.t).kind = .hPacked) (hdata : (m.typeAt f.t).data = .tparam u)
      (inner : MeetsEmpty m u) : MeetsEmpty m t
  | empty {t u : Nat} {obj : HlTypeObj} {done rest : List HlObjField} {f : HlObjField}
      (hobj : (m.typeAt t).obj? = some obj) (hbase : ∀ s, obj.super = some s → Complete m s)
      (hfields : obj.fields = done ++ f :: rest) (hdone : ∀ g ∈ done, FieldComplete m g)
      (hkind : (m.typeAt f.t).kind = .hPacked) (hdata : (m.typeAt f.t).data = .tparam u)
      (hcomplete : Complete m u) (hempty : ¬Sized m u) : MeetsEmpty m t

theorem complete_iff (hobj : (m.typeAt t).obj? = some obj) : Complete m t ↔
    (∀ s, obj.super = some s → Complete m s) ∧ ∀ f ∈ obj.fields, FieldComplete m f := by
  constructor
  · rintro ⟨hobj', hbase, hpacked, hsized⟩
    cases hobj.symm.trans hobj'
    refine ⟨hbase, fun f hf hkind => ?_⟩
    obtain ⟨u, hdata, hu⟩ := hsized f hf hkind
    exact ⟨u, hdata, hpacked f hf hkind u hdata, hu⟩
  · rintro ⟨hbase, hfields⟩
    refine ⟨hobj, hbase, fun f hf hkind u hdata => ?_, fun f hf hkind => ?_⟩
    · obtain ⟨u', hdata', hu, -⟩ := hfields f hf hkind
      cases hdata.symm.trans hdata'
      exact hu
    · obtain ⟨u, hdata, -, hu⟩ := hfields f hf hkind
      exact ⟨u, hdata, hu⟩

theorem largest_iff_sized (hobj : (m.typeAt t).obj? = some obj) (hparent : obj.super = none ∧ parent = none ∨
      ∃ s rt, obj.super = some s ∧ (rt.largestField ≠ 0 ↔ Sized m s) ∧ parent = some rt)
    {packed : Nat → Option ObjRt} (h : layoutClass m packed (m.typeAt t).kind obj parent = some rt) :
    rt.largestField ≠ 0 ↔ Sized m t := by
  obtain ⟨fields, hfields, h⟩ := Option.bind_eq_some_iff.mp h
  cases h
  refine (layoutFields_laid hfields).largest.trans ⟨?_, fun hsized => ?_⟩
  · rintro (hstart | ⟨f, hf, hvoid⟩)
    · rcases hparent with ⟨hsuper, rfl⟩ | ⟨s, rt, hsuper, hlargest, rfl⟩
      · refine .object hobj hsuper fun hkind => hstart ?_
        rw [hkind]
        rfl
      · exact .base hobj hsuper (hlargest.mp hstart)
    · exact .field hobj hf hvoid
  · cases hsized with
    | object hobj' hsuper hkind =>
      cases hobj.symm.trans hobj'
      rcases hparent with ⟨-, rfl⟩ | ⟨s, rt, hsuper', -, -⟩
      · refine .inl ?_
        show (if (m.typeAt t).kind = .hStruct then 0 else hlWSize) ≠ 0
        rw [if_neg hkind]
        decide
      · cases hsuper.symm.trans hsuper'
    | field hobj' hf hvoid =>
      cases hobj.symm.trans hobj'
      exact .inr ⟨_, hf, hvoid⟩
    | base hobj' hsuper hrest =>
      cases hobj.symm.trans hobj'
      rcases hparent with ⟨hsuper', -⟩ | ⟨s, rt, hsuper', hlargest, rfl⟩
      · cases hsuper.symm.trans hsuper'
      · cases hsuper.symm.trans hsuper'
        exact .inl (hlargest.mpr hrest)

theorem objLayout_complete {depth : Nat} (h : objLayout m depth t = .ok rt) :
    Complete m t ∧ (rt.largestField ≠ 0 ↔ Sized m t) := by
  induction depth generalizing t rt with
  | zero => cases h
  | succ depth ih =>
    obtain ⟨obj, parent, hobj, hparent, hfields, hlaid⟩ := layoutStep_ok.mp h
    refine ⟨(complete_iff hobj).mpr ⟨fun s hs => ?_, fun f hf hkind => ?_⟩,
      largest_iff_sized hobj ((baseLayout_ok.mp hparent).imp_right
        fun ⟨s, rt, hs, hrt, hsome⟩ => ⟨s, rt, hs, (ih hrt).2, hsome⟩) hlaid⟩
    · rcases baseLayout_ok.mp hparent with ⟨hnone, -⟩ | ⟨s', rt', hs', hrt, -⟩
      · cases hs.symm.trans hnone
      · cases hs.symm.trans hs'
        exact (ih hrt).1
    · obtain ⟨u, rt', hdata, hrt, hlargest⟩ := packedDivisor_ok.mp (hfields f hf) hkind
      exact ⟨u, hdata, (ih hrt).1, (ih hrt).2.mp hlargest⟩

theorem fields_depth (h : ∀ f ∈ l, (m.typeAt f.t).kind = .hPacked →
    ∃ u depth rt, (m.typeAt f.t).data = .tparam u ∧ objLayout m depth u = .ok rt ∧ rt.largestField ≠ 0) :
    ∃ depth, ∀ f ∈ l, packedDivisor m (objLayout m depth) f = .ok () := by
  induction l with
  | nil => exact ⟨0, fun f hf => absurd hf List.not_mem_nil⟩
  | cons f l ih =>
    obtain ⟨hf, hl⟩ := List.forall_mem_cons.mp h
    obtain ⟨depth, hdepth⟩ := ih hl
    by_cases hkind : (m.typeAt f.t).kind = .hPacked
    · obtain ⟨u, d, rt, hdata, hrt, hlargest⟩ := hf hkind
      refine ⟨max d depth, List.forall_mem_cons.mpr ⟨packedDivisor_ok.mpr fun _ => ?_, fun g hg => ?_⟩⟩
      · exact ⟨u, rt, hdata, (objLayout_le (Nat.le_max_left d depth)).1 u rt hrt, hlargest⟩
      · exact packedDivisor_mono (objLayout_le (Nat.le_max_right d depth)).1 (hdepth g hg)
    · exact ⟨depth, List.forall_mem_cons.mpr ⟨packedDivisor_ok.mpr fun h => absurd h hkind, hdepth⟩⟩

theorem base_depth (h : ∀ s, obj.super = some s → ∃ depth rt, objLayout m depth s = .ok rt) :
    ∃ depth parent, baseLayout (objLayout m depth) obj = .ok parent := by
  cases hsuper : obj.super with
  | none => exact ⟨0, none, baseLayout_ok.mpr (.inl ⟨hsuper, rfl⟩)⟩
  | some s =>
    obtain ⟨depth, rt, hrt⟩ := h s hsuper
    exact ⟨depth, some rt, baseLayout_ok.mpr (.inr ⟨s, rt, hsuper, hrt, rfl⟩)⟩

theorem objLayout_of_complete (h : Complete m t) : ∃ depth rt, objLayout m depth t = .ok rt := by
  induction h with
  | @intro t obj hobj hbase hpacked hsized ihbase ihpacked =>
    obtain ⟨d, parent, hparent⟩ := base_depth ihbase
    obtain ⟨d', hfields⟩ := @fields_depth m obj.fields fun f hf hkind => by
      obtain ⟨u, hdata, hu⟩ := hsized f hf hkind
      obtain ⟨depth, rt, hrt⟩ := ihpacked f hf hkind u hdata
      exact ⟨u, depth, rt, hdata, hrt, (objLayout_complete hrt).2.mpr hu⟩
    have hparent' := baseLayout_mono (objLayout_le (Nat.le_max_left d d')).1 hparent
    have hfields' : ∀ f ∈ obj.fields, packedDivisor m (objLayout m (max d d')) f = .ok () :=
      fun f hf => packedDivisor_mono (objLayout_le (Nat.le_max_right d d')).1 (hfields f hf)
    have hlaid : (layoutClass m (fun u => (objLayout m (max d d') u).toOption) (m.typeAt t).kind obj
        parent).isSome := layoutClass_isSome.mpr fun f hf hkind => by
      obtain ⟨u, rt, hdata, hrt, hlargest⟩ := packedDivisor_ok.mp (hfields' f hf) hkind
      exact ⟨u, rt, hdata, by rw [hrt]; rfl, hlargest⟩
    obtain ⟨rt, hrt⟩ := Option.isSome_iff_exists.mp hlaid
    exact ⟨max d d' + 1, rt, layoutStep_ok.mpr ⟨obj, parent, hobj, hparent', hfields', hrt⟩⟩

theorem divides_of_field {done rest : List HlObjField} (hobj : (m.typeAt t).obj? = some obj)
    (hbase : ∀ s, obj.super = some s → Complete m s) (hfields : obj.fields = done ++ field :: rest)
    (hdone : ∀ g ∈ done, FieldComplete m g) {depth : Nat}
    (hzero : packedDivisor m (objLayout m depth) field = .error .divisionByZero) :
    ∃ depth, objLayout m depth t = .error .divisionByZero := by
  obtain ⟨d, parent, hparent⟩ := base_depth fun s hs => objLayout_of_complete (hbase s hs)
  obtain ⟨d', hdone'⟩ := @fields_depth m done fun g hg hkind => by
    obtain ⟨u, hdata, hu, hsized⟩ := hdone g hg hkind
    obtain ⟨k, rt, hrt⟩ := objLayout_of_complete hu
    exact ⟨u, k, rt, hdata, hrt, (objLayout_complete hrt).2.mpr hsized⟩
  have h₁ : d ≤ max depth (max d d') := by omega
  have h₂ : d' ≤ max depth (max d d') := by omega
  have h₃ := @objLayout_le m _ _ (Nat.le_max_left depth (max d d'))
  refine ⟨max depth (max d d') + 1, layoutStep_zero.mpr ⟨obj, hobj, .inr ⟨parent,
    baseLayout_mono (objLayout_le h₁).1 hparent, done, field, rest, hfields,
    fun g hg => packedDivisor_mono (objLayout_le h₂).1 (hdone' g hg), ?_⟩⟩⟩
  obtain ⟨hkind, u, hdata, hu⟩ := packedDivisor_zero.mp hzero
  exact packedDivisor_zero.mpr
    ⟨hkind, u, hdata, hu.imp (h₃.2 u) fun ⟨rt, hrt, hlargest⟩ => ⟨rt, h₃.1 u rt hrt, hlargest⟩⟩

theorem divides_of_meets (h : MeetsEmpty m t) : ∃ depth, objLayout m depth t = .error .divisionByZero := by
  induction h with
  | base hobj hsuper _ ih =>
    obtain ⟨depth, herror⟩ := ih
    exact ⟨depth + 1, layoutStep_zero.mpr ⟨_, hobj, .inl (baseLayout_zero.mpr ⟨_, hsuper, herror⟩)⟩⟩
  | packed hobj hbase hfields hdone hkind hdata _ ih =>
    obtain ⟨depth, herror⟩ := ih
    exact divides_of_field hobj hbase hfields hdone (packedDivisor_zero.mpr ⟨hkind, _, hdata, .inl herror⟩)
  | empty hobj hbase hfields hdone hkind hdata hcomplete hempty =>
    obtain ⟨depth, rt, hrt⟩ := objLayout_of_complete hcomplete
    have hlargest : rt.largestField = 0 := by
      by_contra hne
      exact hempty ((objLayout_complete hrt).2.mp hne)
    exact divides_of_field hobj hbase hfields hdone
      (packedDivisor_zero.mpr ⟨hkind, _, hdata, .inr ⟨rt, hrt, hlargest⟩⟩)

theorem meets_of_divides {depth : Nat} (h : objLayout m depth t = .error .divisionByZero) : MeetsEmpty m t := by
  induction depth generalizing t with
  | zero => cases h
  | succ depth ih =>
    obtain ⟨obj, hobj, hbase | ⟨parent, hparent, done, f, rest, hfields, hdone, hf⟩⟩ := layoutStep_zero.mp h
    · obtain ⟨s, hs, herror⟩ := baseLayout_zero.mp hbase
      exact .base hobj hs (ih herror)
    · have hbase : ∀ s, obj.super = some s → Complete m s := by
        intro s hs
        rcases baseLayout_ok.mp hparent with ⟨hnone, -⟩ | ⟨s', rt, hs', hrt, -⟩
        · cases hs.symm.trans hnone
        · cases hs.symm.trans hs'
          exact (objLayout_complete hrt).1
      have hdone' : ∀ g ∈ done, FieldComplete m g := by
        intro g hg hkind
        obtain ⟨u, rt, hdata, hrt, hlargest⟩ := packedDivisor_ok.mp (hdone g hg) hkind
        exact ⟨u, hdata, (objLayout_complete hrt).1, (objLayout_complete hrt).2.mp hlargest⟩
      obtain ⟨hkind, u, hdata, herror | ⟨rt, hrt, hlargest⟩⟩ := packedDivisor_zero.mp hf
      · exact .packed hobj hbase hfields hdone' hkind hdata (ih herror)
      · exact .empty hobj hbase hfields hdone' hkind hdata (objLayout_complete hrt).1
          fun hsized => (objLayout_complete hrt).2.mpr hsized hlargest

/-- `hl_get_obj_rt` of a class never takes a remainder by zero exactly when it comes to no packed field whose
structure has nothing in it, and with sizes of any length returns exactly when what it needs is there and has
something in it. -/
theorem objLayout_division_iff (m : HlModule) (t : Nat) :
    ((∀ depth, objLayout m depth t ≠ .error .divisionByZero) ↔ ¬MeetsEmpty m t) ∧
      ((∃ depth rt, objLayout m depth t = .ok rt) ↔ Complete m t) := by
  refine ⟨⟨fun h hmeets => ?_, fun h depth hzero => h (meets_of_divides hzero)⟩,
    fun ⟨depth, rt, hrt⟩ => (objLayout_complete hrt).1, objLayout_of_complete⟩
  obtain ⟨depth, hzero⟩ := divides_of_meets hmeets
  exact h depth hzero

/-- A file with a structure, its packed type and a class with a field of that type. The field of the structure,
if it has one, is of the type 3, an `Int`. -/
def packedFile (fields : List UInt8) : List UInt8 :=
  [0x48, 0x4C, 0x42, 2, 0, 0, 0, 1, 4, 0, 0, 0, 0, 1, 0, 0, 0, 0, 0] ++
    [21, 0, 0xA0, 1, 0] ++ fields ++ [22, 0] ++ [11, 0, 0xA0, 1, 0, 1, 0, 0, 0, 1] ++ [3]

def packedFileType (t : Code.HlType) : HlType where
  kind := t.kind
  data := match t.data with
    | .obj o =>
      .obj ⟨[], o.super, o.fields.map fun f => ⟨[], 0, f.t⟩, [], [], none, ⟨[], [], 0⟩⟩
    | .tparam u => .tparam u
    | _ => .null
  gcOwner := true

def packedFileModule (types : List Code.HlType) : HlModule :=
  { patchedModule with types := types.map packedFileType }

/-- The class is read, and its layout takes a remainder by the largest field of the empty structure. -/
theorem packedFile_divides : ∃ code,
    Code.accepted (Code.bytesOf (packedFile [0, 0, 0])) 40 (fun _ => 0) = some code ∧
      objLayout (packedFileModule code.types) 2 2 = .error .divisionByZero :=
  ⟨_, rfl, rfl⟩

example : ∃ code rt, Code.accepted (Code.bytesOf (packedFile [1, 0, 0, 0, 3])) 42 (fun _ => 0) = some code ∧
    objLayout (packedFileModule code.types) 2 2 = .ok rt ∧ rt.fieldsIndexes = [8] :=
  ⟨_, _, rfl, rfl, rfl⟩

end HashLink
