import HashLink.HotReload.Termination

/-!
`hl_same_type` and `hl_safe_cast` as relations between types: what one call of either asks of the calls it makes, and
from that an equivalence and an order, whatever cycles there are among the types.
-/

namespace HashLink.HotReload

variable {m : TypeMem} {n k : Nat} {a b c : Nat}

/-- `hl_same_type` returns true. -/
def Same (m : TypeMem) (a b : Nat) : Prop := ∃ fuel, hlSameType fuel m a b = some true

/-- `hl_safe_cast` returns true. -/
def Casts (m : TypeMem) (t to_ : Nat) : Prop := ∃ fuel, hlSafeCast fuel m t to_ = some true

theorem allPairs_iff {α : Type} {check : α → α → Option Bool} {as bs : List α} :
    allPairs check as bs = some true ↔
      ∀ (i : Nat) (x y : α), as[i]? = some x → bs[i]? = some y → check x y = some true := by
  induction as generalizing bs with
  | nil => exact iff_of_true rfl fun i x y hx => by cases hx
  | cons a as ih =>
    cases bs with
    | nil => exact iff_of_true rfl fun i x y _ hy => by cases hy
    | cons b bs =>
      rw [allPairs]
      constructor
      · intro h
        split at h
        · rename_i hab
          intro i x y hx hy
          cases i with
          | zero =>
            cases hx
            cases hy
            exact hab
          | succ i => exact ih.mp h i x y hx hy
        · rename_i hne
          exact absurd h hne
      · intro h
        rw [h 0 a b rfl rfl]
        exact ih.mpr fun i x y hx hy => h (i + 1) x y hx hy

/-- The entries that are compared without another call. -/
def Atomic : TypeEntry → Prop
  | .fun_ .. | .tparam .. => False
  | _ => True

/-- What `hl_same_type` asks of the types it compares in turn. -/
inductive SameStep (m : TypeMem) (same : Nat → Nat → Prop) (a b : Nat) : Prop
  | refl (h : a = b)
  | atom (hatom : Atomic (m.types a)) (h : m.types a = m.types b)
  | tparam {kind : ParamKind} {t t' : Nat} (ha : m.types a = .tparam kind t) (hb : m.types b = .tparam kind t')
      (h : same t t')
  | func {method : Bool} {args args' : List Nat} {ret ret' : Nat} (ha : m.types a = .fun_ method args ret)
      (hb : m.types b = .fun_ method args' ret') (hlen : args.length = args'.length)
      (hargs : ∀ (i : Nat) (x y : Nat), args[i]? = some x → args'[i]? = some y → same x y) (hret : same ret ret')

theorem sameStep_iff :
    hlSameType (n + 1) m a b = some true ↔ SameStep m (fun a b => hlSameType n m a b = some true) a b := by
  constructor
  · intro h
    by_cases hab : a = b
    · exact .refl hab
    rw [hlSameType, if_neg hab] at h
    split at h
    case h_1 kind kind' ha hb =>
      refine .atom (by rw [ha]; trivial) ?_
      rw [ha, hb, of_decide_eq_true (Option.some.inj h)]
    case h_2 kind t kind' t' ha hb =>
      split at h
      · rename_i heq
        cases heq
        exact .tparam ha hb h
      · cases h
    case h_3 method args ret method' args' ret' ha hb =>
      split at h
      · rename_i hsame
        obtain ⟨rfl, hlen⟩ := hsame
        split at h
        · rename_i hargs
          exact .func ha hb hlen (allPairs_iff.mp hargs) h
        · rename_i hne
          exact absurd h hne
      · cases h
    case h_4 struct o struct' o' ha hb =>
      obtain ⟨rfl, rfl⟩ := of_decide_eq_true (Option.some.inj h)
      exact .atom (by rw [ha]; trivial) (ha.trans hb.symm)
    case h_5 v v' ha hb =>
      obtain rfl := of_decide_eq_true (Option.some.inj h)
      exact .atom (by rw [ha]; trivial) (ha.trans hb.symm)
    case h_6 name name' ha hb =>
      obtain rfl := of_decide_eq_true (Option.some.inj h)
      exact .atom (by rw [ha]; trivial) (ha.trans hb.symm)
    case h_7 e e' ha hb =>
      obtain rfl := of_decide_eq_true (Option.some.inj h)
      exact .atom (by rw [ha]; trivial) (ha.trans hb.symm)
    case h_8 => cases h
  · intro h
    by_cases hab : a = b
    · rw [hlSameType, if_pos hab]
    rw [hlSameType, if_neg hab]
    cases h with
    | refl h => exact absurd h hab
    | atom hatom h =>
      rw [← h]
      cases ha : m.types a <;> rw [ha] at hatom
      case fun_ => exact hatom.elim
      case tparam => exact hatom.elim
      all_goals simp
    | tparam ha hb h =>
      rw [ha, hb]
      exact (if_pos rfl).trans h
    | func ha hb hlen hargs hret =>
      rw [ha, hb]
      dsimp only
      rw [if_pos ⟨rfl, hlen⟩, allPairs_iff.mpr hargs]
      exact hret

theorem hlSameType_mono (h : hlSameType n m a b = some true) (hle : n ≤ k) : hlSameType k m a b = some true := by
  rw [hlSameType_run] at h ⊢
  exact Fuel.run_mono hle h

theorem hlSameType_symm (h : hlSameType n m a b = some true) : hlSameType n m b a = some true := by
  induction n generalizing a b with
  | zero => cases h
  | succ n ih =>
    refine (sameStep_iff).mpr ?_
    cases (sameStep_iff).mp h with
    | refl h => exact .refl h.symm
    | atom hatom h => exact .atom (h ▸ hatom) h.symm
    | tparam ha hb h => exact .tparam hb ha (ih h)
    | func ha hb hlen hargs hret =>
      exact .func hb ha hlen.symm (fun i x y hx hy => ih (hargs i y x hy hx)) (ih hret)

theorem hlSameType_trans (hab : hlSameType n m a b = some true) (hbc : hlSameType n m b c = some true) :
    hlSameType n m a c = some true := by
  induction n generalizing a b c with
  | zero => cases hab
  | succ n ih =>
    have hstep := (sameStep_iff).mp hbc
    cases (sameStep_iff).mp hab with
    | refl h => exact h ▸ hbc
    | atom hatom h =>
      cases hstep with
      | refl h' => exact h' ▸ hab
      | atom _ h' => exact (sameStep_iff).mpr (.atom hatom (h.trans h'))
      | tparam hb _ _ => rw [h, hb] at hatom; exact hatom.elim
      | func hb _ _ _ _ => rw [h, hb] at hatom; exact hatom.elim
    | tparam ha hb h =>
      cases hstep with
      | refl h' => exact h' ▸ hab
      | atom hatom _ => rw [hb] at hatom; exact hatom.elim
      | tparam hb' hc h' =>
        cases hb.symm.trans hb'
        exact (sameStep_iff).mpr (.tparam ha hc (ih h h'))
      | func hb' _ _ _ _ => cases hb.symm.trans hb'
    | func ha hb hlen hargs hret =>
      cases hstep with
      | refl h' => exact h' ▸ hab
      | atom hatom _ => rw [hb] at hatom; exact hatom.elim
      | tparam hb' _ _ => cases hb.symm.trans hb'
      | func hb' hc hlen' hargs' hret' =>
        cases hb.symm.trans hb'
        refine (sameStep_iff).mpr (.func ha hc (hlen.trans hlen') (fun i x z hx hz => ?_) (ih hret hret'))
        obtain ⟨hi, -⟩ := List.getElem?_eq_some_iff.mp hx
        exact ih (hargs i x _ hx (List.getElem?_eq_getElem (hlen ▸ hi)))
          (hargs' i _ z (List.getElem?_eq_getElem (hlen ▸ hi)) hz)

theorem same_equivalence (m : TypeMem) : Equivalence (Same m) where
  refl _ := ⟨1, (sameStep_iff).mpr (.refl rfl)⟩
  symm := fun ⟨n, h⟩ => ⟨n, hlSameType_symm h⟩
  trans := fun ⟨n, h⟩ ⟨k, h'⟩ => ⟨max n k,
    hlSameType_trans (hlSameType_mono h (Nat.le_max_left n k)) (hlSameType_mono h' (Nat.le_max_right n k))⟩

theorem derives_step {o o' : Nat} : derives (n + 1) m o o' = some true ↔ (m.objs o).name = (m.objs o').name ∨
      ∃ t struct s, (m.objs o).super = some t ∧ m.types t = .obj struct s ∧ derives n m s o' = some true := by
  rw [derives]
  by_cases hname : (m.objs o).name = (m.objs o').name
  · exact iff_of_true (if_pos (.inr hname)) (.inl hname)
  · rw [if_neg fun h => h.elim (fun heq => hname (heq ▸ rfl)) hname]
    constructor
    · intro h
      split at h
      · cases h
      · rename_i t hsuper
        split at h
        · rename_i struct s ht
          exact .inr ⟨t, struct, s, hsuper, ht, h⟩
        · cases h
    · rintro (h | ⟨t, struct, s, hsuper, ht, h⟩)
      · exact absurd h hname
      · simp only [hsuper, ht, h]

theorem derives_mono {o o' : Nat} (h : derives n m o o' = some true) (hle : n ≤ k) :
    derives k m o o' = some true := by
  rw [derives_run] at h ⊢
  exact Fuel.run_mono hle h

def superName (m : TypeMem) (o : Nat) : Option Nat :=
  match (m.objs o).super with
  | none => none
  | some t =>
    match m.types t with
    | .obj _ s => some (m.objs s).name
    | _ => none

def NamesAgree (m : TypeMem) : Prop :=
  ∀ o o', (m.objs o).name = (m.objs o').name → superName m o = superName m o'

theorem superName_eq_some {o name : Nat} : superName m o = some name ↔
    ∃ t struct s, (m.objs o).super = some t ∧ m.types t = .obj struct s ∧ (m.objs s).name = name := by
  unfold superName
  constructor
  · intro h
    split at h
    · cases h
    · rename_i t hsuper
      split at h
      · rename_i struct s ht
        exact ⟨t, struct, s, hsuper, ht, Option.some.inj h⟩
      · cases h
  · rintro ⟨t, struct, s, hsuper, ht, rfl⟩
    simp only [hsuper, ht]

theorem derives_of_name (hnames : NamesAgree m) {o o' o'' : Nat} (hname : (m.objs o).name = (m.objs o').name)
    (h : derives n m o' o'' = some true) : derives n m o o'' = some true := by
  induction n generalizing o o' with
  | zero => cases h
  | succ n ih =>
    rcases (derives_step).mp h with hname' | ⟨t, struct, s, hsuper, ht, h⟩
    · exact (derives_step).mpr (.inl (hname.trans hname'))
    · have hsome := (superName_eq_some).mpr ⟨t, struct, s, hsuper, ht, rfl⟩
      rw [← hnames o o' hname] at hsome
      obtain ⟨t', struct', s', hsuper', ht', hname'⟩ := (superName_eq_some).mp hsome
      exact (derives_step).mpr (.inr ⟨t', struct', s', hsuper', ht', ih hname' h⟩)

theorem derives_trans (hnames : NamesAgree m) {o o' o'' : Nat} (h : derives n m o o' = some true)
    (h' : derives k m o' o'' = some true) : derives (n + k) m o o'' = some true := by
  induction n generalizing o with
  | zero => cases h
  | succ n ih =>
    rcases (derives_step).mp h with hname | ⟨t, struct, s, hsuper, ht, h⟩
    · exact derives_mono (derives_of_name hnames hname h') (Nat.le_add_left k (n + 1))
    · rw [Nat.succ_add]
      exact (derives_step).mpr (.inr ⟨t, struct, s, hsuper, ht, ih h⟩)

/-- The entries that are cast when they are the same. -/
def Leafy : TypeEntry → Prop
  | .plain _ | .absName _ | .tenum _ | .tparam .ref _ | .tparam .null _ => True
  | _ => False

/-- What `hl_safe_cast` asks of the comparisons, the super classes and the casts it looks at in turn. -/
inductive CastStep (m : TypeMem) (same super cast : Nat → Nat → Prop) (t u : Nat) : Prop
  | refl (h : t = u)
  | dyn (hu : m.kind u = .hDyn) (ht : hlIsDynamic (m.kind t) = true)
  | virt {v : Nat} (ht : m.types t = .virt v) (hu : m.types u = .virt v) (h : same t u)
  | fields {v w : Nat} (ht : m.types t = .virt v) (hu : m.types u = .virt w)
      (hlt : (m.virts w).length < (m.virts v).length)
      (hfields : ∀ (i : Nat) (f g : Int × Nat), (m.virts v)[i]? = some f → (m.virts w)[i]? = some g →
        f.1 = g.1 ∧ same f.2 g.2)
  | string {struct : Bool} {o o' : Nat} (ht : m.types t = .obj struct o) (hu : m.types u = .obj struct o')
      (h : hlIsStringType m t = true ∧ hlIsStringType m u = true)
  | super {struct : Bool} {o o' : Nat} (ht : m.types t = .obj struct o) (hu : m.types u = .obj struct o')
      (h : super o o')
  | func {method : Bool} {args args' : List Nat} {ret ret' : Nat} (ht : m.types t = .fun_ method args ret)
      (hu : m.types u = .fun_ method args' ret') (hlen : args.length = args'.length) (hret : cast ret ret')
      (hargs : ∀ (i : Nat) (x y : Nat), args[i]? = some x → args'[i]? = some y → cast y x)
  | packed {x y : Nat} (ht : m.types t = .tparam .packed x) (hu : m.types u = .tparam .packed y) (h : cast x u)
  | leaf (hleaf : Leafy (m.types t)) (hkind : m.kind t = m.kind u) (h : same t u)

theorem argument_cast {x y : Nat} :
    (match hlSafeCast n m y x with
      | some false => some (decide (m.kind x = .hDyn ∧ hlIsDynamic (m.kind y) = true))
      | r => r) = some true ↔ hlSafeCast n m y x = some true := by
  split
  · rename_i hfalse
    refine iff_of_false (fun h => ?_) (fun h => by cases hfalse.symm.trans h)
    obtain ⟨hdyn, hdynamic⟩ := of_decide_eq_true (Option.some.inj h)
    cases n with
    | zero => cases hfalse
    | succ n =>
      rw [hlSafeCast, if_pos hdyn, hdynamic] at hfalse
      split at hfalse <;> cases hfalse
  · exact Iff.rfl

section Steps

variable {same super cast : Nat → Nat → Prop} {t u : Nat}

theorem CastStep.kind (h : CastStep m same super cast t u) :
    m.kind t = m.kind u ∨ m.kind u = .hDyn ∧ hlIsDynamic (m.kind t) = true := by
  cases h with
  | refl h => exact .inl (h ▸ rfl)
  | dyn hu ht => exact .inr ⟨hu, ht⟩
  | leaf _ hkind _ => exact .inl hkind
  | virt ht hu _ => exact .inl (congrArg TypeEntry.kind (ht.trans hu.symm))
  | fields ht hu _ _ | string ht hu _ | super ht hu _ | func ht hu _ _ _ | packed ht hu _ =>
    refine .inl ?_
    rw [TypeMem.kind, TypeMem.kind, ht, hu]
    rfl

theorem CastStep.dynamic (h : CastStep m same super cast t u) (hu : hlIsDynamic (m.kind u) = true) :
    hlIsDynamic (m.kind t) = true := by
  rcases h.kind with hkind | ⟨-, ht⟩
  · rw [hkind]
    exact hu
  · exact ht

end Steps

theorem TypeEntry.shape (e : TypeEntry) : Leafy e ∨ (e.kind = .hVirtual ∧ ∃ v, e = .virt v) ∨
    (∃ struct o, e.kind = (if struct then .hStruct else .hObj) ∧ e = .obj struct o) ∨
    (∃ method args ret, e.kind = (if method then .hMethod else .hFun) ∧ e = .fun_ method args ret) ∨
    (e.kind = .hPacked ∧ ∃ x, e = .tparam .packed x) := by
  rcases e with _ | ⟨method, args, ret⟩ | ⟨struct, o⟩ | v | _ | _ | ⟨kind, x⟩
  case tparam =>
    cases kind
    case packed => exact .inr (.inr (.inr (.inr ⟨rfl, x, rfl⟩)))
    all_goals exact .inl trivial
  case fun_ => exact .inr (.inr (.inr (.inl ⟨method, args, ret, rfl, rfl⟩)))
  case obj => exact .inr (.inr (.inl ⟨struct, o, rfl, rfl⟩))
  case virt => exact .inr (.inl ⟨rfl, v, rfl⟩)
  all_goals exact .inl trivial

theorem leafy_kind {e : TypeEntry} (h : Leafy e) : e.kind ≠ .hVirtual ∧ e.kind ≠ .hObj ∧ e.kind ≠ .hStruct ∧
    e.kind ≠ .hFun ∧ e.kind ≠ .hMethod ∧ e.kind ≠ .hPacked := by
  rcases e with ⟨kind, hplain⟩ | _ | _ | _ | _ | _ | ⟨kind, _⟩
  case plain =>
    refine ⟨?_, ?_, ?_, ?_, ?_, ?_⟩
    all_goals
      rintro (rfl : kind = _)
      cases hplain
  case tparam =>
    cases kind
    case packed => exact h.elim
    all_goals exact ⟨nofun, nofun, nofun, nofun, nofun, nofun⟩
  case absName | tenum => exact ⟨nofun, nofun, nofun, nofun, nofun, nofun⟩
  all_goals exact h.elim

theorem leafy_of_kind (hkind : m.kind a = m.kind b)
    (hvirt : ∀ v w, m.types a = .virt v → m.types b = .virt w → False)
    (hobj : ∀ s o s' o', m.types a = .obj s o → m.types b = .obj s' o' → False)
    (hfun : ∀ method args ret method' args' ret', m.types a = .fun_ method args ret →
      m.types b = .fun_ method' args' ret' → False)
    (hpacked : ∀ x y, m.types a = .tparam .packed x → m.types b = .tparam .packed y → False) :
    Leafy (m.types a) := by
  unfold TypeMem.kind at hkind
  rcases (m.types a).shape with h | ⟨ha, v, hav⟩ | ⟨s, o, ha, hao⟩ | ⟨method, args, ret, ha, haf⟩ | ⟨ha, x, hax⟩
  · exact h
  all_goals
    rw [ha] at hkind
    rcases (m.types b).shape with h | ⟨hb, w, hbv⟩ | ⟨s', o', hb, hbo⟩ | ⟨method', args', ret', hb, hbf⟩ | ⟨hb, y, hby⟩
  case inr.inl.inr.inl => exact (hvirt v w hav hbv).elim
  case inr.inr.inl.inr.inr.inl => exact (hobj s o s' o' hao hbo).elim
  case inr.inr.inr.inl.inr.inr.inr.inl => exact (hfun _ _ _ _ _ _ haf hbf).elim
  case inr.inr.inr.inr.inr.inr.inr.inr => exact (hpacked x y hax hby).elim
  all_goals grind [leafy_kind]

theorem leafy_of_leafy (h : Leafy (m.types a)) (hkind : m.kind a = m.kind b) : Leafy (m.types b) := by
  have hkinds := leafy_kind h
  unfold TypeMem.kind at hkind
  rw [hkind] at hkinds
  rcases (m.types b).shape with hb | ⟨hb, -⟩ | ⟨s, o, hb, -⟩ | ⟨method, args, ret, hb, -⟩ | ⟨hb, -⟩
  · exact hb
  all_goals grind

theorem virt_of_same {v w : Nat} (h : hlSameType n m a b = some true) (ha : m.types a = .virt v)
    (hb : m.types b = .virt w) : v = w := by
  cases n with
  | zero => cases h
  | succ n =>
    cases sameStep_iff.mp h with
    | refl h =>
      subst h
      cases ha.symm.trans hb
      rfl
    | atom _ h =>
      cases ha.symm.trans (h.trans hb)
      rfl
    | tparam ha' _ _ => cases ha.symm.trans ha'
    | func ha' _ _ _ _ => cases ha.symm.trans ha'

theorem castStep_iff : hlSafeCast (n + 1) m a b = some true ↔
    CastStep m (fun a b => hlSameType n m a b = some true) (fun o o' => derives n m o o' = some true)
      (fun t u => hlSafeCast n m t u = some true) a b := by
  by_cases hab : a = b
  · exact iff_of_true (by rw [hlSafeCast, if_pos hab]) (.refl hab)
  by_cases hdyn : m.kind b = .hDyn
  · rw [hlSafeCast, if_neg hab, if_pos hdyn, Option.some_inj]
    exact ⟨.dyn hdyn, fun h => h.dynamic (hdyn ▸ rfl)⟩
  by_cases hkind : m.kind a = m.kind b
  · rw [hlSafeCast, if_neg hab, if_neg hdyn, if_neg (not_not_intro hkind)]
    constructor
    · intro h
      split at h
      case h_1 v w ha hb =>
        have hvirt (hsame : hlSameType n m a b = some true) :
            CastStep m (fun a b => hlSameType n m a b = some true) (fun o o' => derives n m o o' = some true)
              (fun t u => hlSafeCast n m t u = some true) a b :=
          .virt ha (virt_of_same hsame ha hb ▸ hb) hsame
        split at h
        · rename_i hlt
          split at h
          · exact hvirt h
          · refine .fields ha hb hlt fun i f g hf hg => ?_
            have hpair := allPairs_iff.mp h i f g hf hg
            split at hpair
            · cases hpair
            · rename_i hname
              exact ⟨Decidable.not_not.mp hname, hpair⟩
        · exact hvirt h
      case h_2 struct o struct' o' ha hb =>
        obtain rfl : struct = struct' := by
          rw [TypeMem.kind, TypeMem.kind, ha, hb] at hkind
          cases struct <;> cases struct' <;> first | rfl | cases hkind
        split at h
        · rename_i hstring
          exact .string ha hb hstring
        · exact .super ha hb h
      case h_3 method args ret method' args' ret' ha hb =>
        obtain rfl : method = method' := by
          rw [TypeMem.kind, TypeMem.kind, ha, hb] at hkind
          cases method <;> cases method' <;> first | rfl | cases hkind
        split at h
        · rename_i hlen
          split at h
          · rename_i hret
            exact .func ha hb hlen hret fun i x y hx hy =>
              (argument_cast).mp (allPairs_iff.mp h i x y hx hy)
          · rename_i hne
            exact absurd h hne
        · rename_i hlen
          cases n with
          | zero => cases h
          | succ n =>
            cases sameStep_iff.mp h with
            | refl h => exact absurd h hab
            | atom hatom _ => rw [ha] at hatom; exact hatom.elim
            | tparam ha' _ _ => cases ha.symm.trans ha'
            | func ha' hb' hlen' _ _ =>
              cases ha.symm.trans ha'
              cases hb.symm.trans hb'
              exact absurd hlen' hlen
      case h_4 x y ha hb => exact .packed ha hb h
      case h_5 hvirt hobj hfun hpacked =>
        exact .leaf (leafy_of_kind hkind hvirt hobj hfun hpacked) hkind h
    · intro h
      cases h with
      | refl h => exact absurd h hab
      | dyn hu _ => exact absurd hu hdyn
      | virt ht hu h =>
        simp only [ht, hu, Nat.lt_irrefl, if_false]
        exact h
      | fields ht hu hlt hfields =>
        simp only [ht, hu, if_pos hlt]
        rw [allPairs_iff.mpr fun i f g hf hg => ?_]
        rw [if_neg (not_not_intro (hfields i f g hf hg).1)]
        exact (hfields i f g hf hg).2
      | string ht hu h => simp only [ht, hu, if_pos h]
      | super ht hu h =>
        simp only [ht, hu, h]
        split <;> rfl
      | func ht hu hlen hret hargs =>
        simp only [ht, hu, if_pos hlen, hret]
        exact allPairs_iff.mpr fun i x y hx hy => (argument_cast).mpr (hargs i x y hx hy)
      | packed ht hu h =>
        simp only [ht, hu]
        exact h
      | leaf hleaf _ h =>
        split
        case h_5 => exact h
        all_goals
          rename_i ha hb
          rw [ha] at hleaf
          exact hleaf.elim
  · rw [hlSafeCast, if_neg hab, if_neg hdyn, if_pos hkind]
    exact iff_of_false (fun h => by cases h) fun h => h.kind.elim hkind fun hkind => hdyn hkind.1

theorem hlSafeCast_mono (h : hlSafeCast n m a b = some true) (hle : n ≤ k) : hlSafeCast k m a b = some true := by
  rw [hlSafeCast_run] at h ⊢
  exact Fuel.run_mono hle h

def PackedOnce (m : TypeMem) : Prop :=
  ∀ a b, m.kind a = .hPacked → m.kind b = .hPacked → Same m a b → a = b

theorem cast_of_same (hpacked : PackedOnce m) (h : hlSameType n m a b = some true) :
    hlSafeCast (n + 1) m a b = some true := by
  induction n generalizing a b with
  | zero => cases h
  | succ n ih =>
    refine (castStep_iff).mpr ?_
    cases sameStep_iff.mp h with
    | refl h => exact .refl h
    | atom hatom heq =>
      have hkind : m.kind a = m.kind b := congrArg TypeEntry.kind heq
      cases ha : m.types a with
      | obj struct o => exact .super ha (heq ▸ ha) (derives_step.mpr (.inl rfl))
      | virt v => exact .virt ha (heq ▸ ha) h
      | fun_ | tparam => rw [ha] at hatom; exact hatom.elim
      | plain | absName | tenum => exact .leaf (by rw [ha]; trivial) hkind h
    | @tparam kind x y ha hb hxy =>
      have hkind : m.kind a = m.kind b := by
        rw [TypeMem.kind, TypeMem.kind, ha, hb]
        cases kind <;> rfl
      cases kind with
      | packed =>
        have hka : m.kind a = .hPacked := by
          rw [TypeMem.kind, ha]
          rfl
        exact .refl (hpacked a b hka (hkind ▸ hka) ⟨n + 1, h⟩)
      | ref | null => exact .leaf (by rw [ha]; trivial) hkind h
    | func ha hb hlen hargs hret =>
      exact .func ha hb hlen (ih hret) fun i x y hx hy => ih (hlSameType_symm (hargs i x y hx hy))

def StringsApart (m : TypeMem) : Prop :=
  ∀ t u struct o o', m.types t = .obj struct o → m.types u = .obj struct o' →
    (∃ n, derives n m o o' = some true) → hlIsStringType m t = hlIsStringType m u

theorem hlSafeCast_trans (hnames : NamesAgree m) (hstrings : StringsApart m) {t u v : Nat}
    (htu : hlSafeCast n m t u = some true) (huv : hlSafeCast k m u v = some true) :
    hlSafeCast (n + k) m t v = some true := by
  induction hsum : n + k using Nat.strongRecOn generalizing n k t u v with
  | _ sum ih =>
    obtain ⟨n, rfl⟩ : ∃ j, n = j + 1 := by
      cases n with
      | zero => cases htu
      | succ n => exact ⟨n, rfl⟩
    obtain ⟨k, rfl⟩ : ∃ j, k = j + 1 := by
      cases k with
      | zero => cases huv
      | succ k => exact ⟨k, rfl⟩
    subst hsum
    by_cases hrefl : t = u
    · exact hrefl ▸ hlSafeCast_mono huv (by omega)
    by_cases hrefl' : u = v
    · exact hrefl' ▸ hlSafeCast_mono htu (by omega)
    have hfirst := (castStep_iff).mp htu
    have hsecond := (castStep_iff).mp huv
    rw [← Nat.add_assoc]
    by_cases hdyn : m.kind v = .hDyn
    · exact (castStep_iff).mpr (.dyn hdyn (hfirst.dynamic (hsecond.dynamic (hdyn ▸ rfl))))
    have hdynu : m.kind u ≠ .hDyn := fun hu => hsecond.kind.elim (fun hkind => hdyn (hkind ▸ hu)) fun h => hdyn h.1
    have hsame {x y z : Nat} (hxy : hlSameType n m x y = some true) (hyz : hlSameType k m y z = some true) :
        hlSameType (n + 1 + k) m x z = some true :=
      hlSameType_trans (hlSameType_mono hxy (by omega)) (hlSameType_mono hyz (by omega))
    refine (castStep_iff).mpr ?_
    cases hfirst with
    | refl h => exact absurd h hrefl
    | dyn hu _ => exact absurd hu hdynu
    | virt ht hu h =>
      cases hsecond with
      | refl h' => exact absurd h' hrefl'
      | dyn hv _ => exact absurd hv hdyn
      | virt hu' hv h' =>
        cases hu.symm.trans hu'
        exact .virt ht hv (hsame h h')
      | fields hu' hv hlt hfields =>
        cases hu.symm.trans hu'
        exact .fields ht hv hlt fun i f g hf hg =>
          (hfields i f g hf hg).imp_right fun h => hlSameType_mono h (by omega)
      | string hu' _ _ | super hu' _ _ | func hu' _ _ _ _ | packed hu' _ _ => cases hu.symm.trans hu'
      | leaf hleaf _ _ => rw [hu] at hleaf; exact hleaf.elim
    | fields ht hu hlt hfields =>
      cases hsecond with
      | refl h' => exact absurd h' hrefl'
      | dyn hv _ => exact absurd hv hdyn
      | virt hu' hv h' =>
        cases hu.symm.trans hu'
        exact .fields ht hv hlt fun i f g hf hg =>
          (hfields i f g hf hg).imp_right fun h => hlSameType_mono h (by omega)
      | fields hu' hv hlt' hfields' =>
        cases hu.symm.trans hu'
        refine .fields ht hv (by omega) fun i f g hf hg => ?_
        obtain ⟨hi, -⟩ := List.getElem?_eq_some_iff.mp hg
        have hmid := List.getElem?_eq_getElem (Nat.lt_trans hi hlt')
        exact ⟨(hfields i f _ hf hmid).1.trans (hfields' i _ g hmid hg).1,
          hsame (hfields i f _ hf hmid).2 (hfields' i _ g hmid hg).2⟩
      | string hu' _ _ | super hu' _ _ | func hu' _ _ _ _ | packed hu' _ _ => cases hu.symm.trans hu'
      | leaf hleaf _ _ => rw [hu] at hleaf; exact hleaf.elim
    | string ht hu h =>
      cases hsecond with
      | refl h' => exact absurd h' hrefl'
      | dyn hv _ => exact absurd hv hdyn
      | string hu' hv h' =>
        cases hu.symm.trans hu'
        exact .string ht hv ⟨h.1, h'.2⟩
      | super hu' hv h' =>
        cases hu.symm.trans hu'
        exact .string ht hv ⟨h.1, hstrings u v _ _ _ hu hv ⟨k, h'⟩ ▸ h.2⟩
      | virt hu' _ _ | fields hu' _ _ _ | func hu' _ _ _ _ | packed hu' _ _ => cases hu.symm.trans hu'
      | leaf hleaf _ _ => rw [hu] at hleaf; exact hleaf.elim
    | super ht hu h =>
      cases hsecond with
      | refl h' => exact absurd h' hrefl'
      | dyn hv _ => exact absurd hv hdyn
      | string hu' hv h' =>
        cases hu.symm.trans hu'
        exact .string ht hv ⟨hstrings t u _ _ _ ht hu ⟨n, h⟩ ▸ h'.1, h'.2⟩
      | super hu' hv h' =>
        cases hu.symm.trans hu'
        exact .super ht hv (derives_mono (derives_trans hnames h h') (by omega))
      | virt hu' _ _ | fields hu' _ _ _ | func hu' _ _ _ _ | packed hu' _ _ => cases hu.symm.trans hu'
      | leaf hleaf _ _ => rw [hu] at hleaf; exact hleaf.elim
    | func ht hu hlen hret hargs =>
      cases hsecond with
      | refl h' => exact absurd h' hrefl'
      | dyn hv _ => exact absurd hv hdyn
      | func hu' hv hlen' hret' hargs' =>
        cases hu.symm.trans hu'
        refine .func ht hv (hlen.trans hlen') (hlSafeCast_mono (ih (n + k) (by omega) hret hret' rfl) (by omega))
          fun i x z hx hz => ?_
        obtain ⟨hi, -⟩ := List.getElem?_eq_some_iff.mp hx
        have hmid := List.getElem?_eq_getElem (hlen ▸ hi)
        -- the arguments are cast the other way
        exact hlSafeCast_mono (ih (k + n) (by omega) (hargs' i _ z hmid hz) (hargs i x _ hx hmid) rfl) (by omega)
      | virt hu' _ _ | fields hu' _ _ _ | string hu' _ _ | super hu' _ _ | packed hu' _ _ =>
        cases hu.symm.trans hu'
      | leaf hleaf _ _ => rw [hu] at hleaf; exact hleaf.elim
    | packed ht hu h =>
      cases hsecond with
      | refl h' => exact absurd h' hrefl'
      | dyn hv _ => exact absurd hv hdyn
      | packed _ hv _ => exact .packed ht hv (hlSafeCast_mono (ih (n + (k + 1)) (by omega) h huv rfl) (by omega))
      | virt hu' _ _ | fields hu' _ _ _ | string hu' _ _ | super hu' _ _ | func hu' _ _ _ _ =>
        cases hu.symm.trans hu'
      | leaf hleaf _ _ => rw [hu] at hleaf; exact hleaf.elim
    | leaf hleaf hkind h =>
      have hleafu := leafy_of_leafy hleaf hkind
      cases hsecond with
      | refl h' => exact absurd h' hrefl'
      | dyn hv _ => exact absurd hv hdyn
      | leaf _ hkind' h' => exact .leaf hleaf (hkind.trans hkind') (hsame h h')
      | virt hu' _ _ | fields hu' _ _ _ | string hu' _ _ | super hu' _ _ | func hu' _ _ _ _ | packed hu' _ _ =>
        rw [hu'] at hleafu
        exact hleafu.elim

/-- The comparison is an equivalence; equal types are cast, where packed types occur once; a cast is reflexive, and
transitive where names and string types are coherent; and on settled types both functions end. -/
theorem type_relations_coherent (m : TypeMem) :
    Equivalence (Same m) ∧ (PackedOnce m → ∀ a b, Same m a b → Casts m a b) ∧ (∀ t, Casts m t t) ∧
      (NamesAgree m → StringsApart m → ∀ t u v, Casts m t u → Casts m u v → Casts m t v) ∧
      ∀ a b, Settled m a → Settled m b → (Fuel.Terminates fun fuel => hlSameType fuel m a b) ∧
        Fuel.Terminates fun fuel => hlSafeCast fuel m a b := by
  refine ⟨same_equivalence m, ?_, fun t => ⟨1, (castStep_iff).mpr (.refl rfl)⟩, ?_, fun a b ha hb =>
    ⟨Fuel.terminates_of_acc (hlSameType_run · a b) (same_acc ha.grounded b),
      Fuel.terminates_of_acc (hlSafeCast_run · a b) (cast_acc_both ha hb).1⟩⟩
  · rintro hpacked a b ⟨n, h⟩
    exact ⟨n + 1, cast_of_same hpacked h⟩
  · rintro hnames hstrings t u v ⟨n, htu⟩ ⟨k, huv⟩
    exact ⟨n + k, hlSafeCast_trans hnames hstrings htu huv⟩

/-- A class, its super class, and `Dynamic`. -/
def oneSuper : TypeMem where
  types
    | 0 => .obj false 0
    | 1 => .obj false 1
    | _ => .plain ⟨.hDyn, isPlain_hDyn⟩
  objs o := ⟨o, if o = 0 then some 1 else none, []⟩
  virts _ := []
  tenums e := e
  text _ := []
  hlStringType := none

theorem oneSuper_casts : Casts oneSuper 0 2 := by
  obtain ⟨-, -, -, htrans, -⟩ := type_relations_coherent oneSuper
  refine htrans ?_ ?_ 0 1 2 ⟨3, rfl⟩ ⟨1, rfl⟩
  · rintro o o' (rfl : o = o')
    rfl
  · have hnone : ∀ t, hlIsStringType oneSuper t = false := by
      intro t
      match t with
      | 0 | 1 | _ + 2 => rfl
    intro t u _ _ _ _ _ _
    rw [hnone t, hnone u]

/-- The String types of two modules, and a class of the first module that derives from its String. -/
def stringSubclass : TypeMem where
  types
    | 0 => .plain ⟨.hBytes, rfl⟩
    | 1 => .plain ⟨.hI32, rfl⟩
    | 2 => .obj false 0
    | 3 => .obj false 1
    | _ => .obj false 2
  objs
    | 0 => ⟨0, none, [0, 1]⟩
    | 1 => ⟨1, none, [0, 1]⟩
    | _ => ⟨2, some 2, []⟩
  virts _ := []
  tenums e := e
  text name := if name < 2 then stringName else []
  hlStringType := none

/-- The class is cast to the String of its module, which is cast to the other one; the class is not. -/
theorem stringSubclass_not_transitive :
    Casts stringSubclass 4 2 ∧ Casts stringSubclass 2 3 ∧ ¬Casts stringSubclass 4 3 := by
  refine ⟨⟨3, rfl⟩, ⟨1, by decide⟩, ?_⟩
  rintro ⟨n, h⟩
  match n with
  | 0 => cases h
  | 1 => cases h
  | 2 => cases h
  | n + 3 =>
    have hfalse : hlSafeCast (n + 3) stringSubclass 4 3 = some false := by
      simp [hlSafeCast, derives, stringSubclass, TypeMem.kind, TypeEntry.kind, hlIsStringType]
    cases hfalse.symm.trans h

end HashLink.HotReload
