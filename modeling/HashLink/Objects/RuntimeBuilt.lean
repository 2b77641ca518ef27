import HashLink.Objects.Hierarchy

/-!
When `hl_get_obj_rt` returns for a class, and what it has found: the first free prototype index, the fields, the
names with their methods, and whether the objects have a size.

`hl_get_obj_rt` returns for a class exactly when no class that it needs, as a base or packed in a field, needs
itself, and every one of them is ready for its layout.
-/

namespace HashLink

open SortedTable

section Folds

variable {α β : Type}

theorem foldlM_isSome_inv {f : β → α → Option β} {ok : α → Prop} {l : List α} (P : β → Prop)
    (h : ∀ a ∈ l, ∀ b, P b → ((f b a).isSome ↔ ok a))
    (hkept : ∀ a ∈ l, ∀ b b', P b → f b a = some b' → P b') {b : β} (hb : P b) :
    ((l.foldlM f b).isSome ↔ ∀ a ∈ l, ok a) ∧ ∀ b', l.foldlM f b = some b' → P b' := by
  induction l generalizing b with
  | nil => exact ⟨⟨fun _ a ha => absurd ha List.not_mem_nil, fun _ => rfl⟩, fun b' hb' => Option.some.inj hb' ▸ hb⟩
  | cons a l ih =>
    rw [List.foldlM_cons, List.forall_mem_cons, ← h a List.mem_cons_self b hb]
    cases hstep : f b a with
    | none => simp
    | some b' =>
      have hrest := ih (fun a' ha' => h a' (List.mem_cons_of_mem _ ha'))
        (fun a' ha' => hkept a' (List.mem_cons_of_mem _ ha')) (hkept a List.mem_cons_self b b' hb hstep)
      exact ⟨hrest.1.trans ⟨fun hall => ⟨rfl, hall⟩, fun hall => hall.2⟩, hrest.2⟩

theorem foldlM_isSome {f : β → α → Option β} {ok : α → Prop} {l : List α}
    (h : ∀ a ∈ l, ∀ b, (f b a).isSome ↔ ok a) (b : β) : (l.foldlM f b).isSome ↔ ∀ a ∈ l, ok a :=
  (foldlM_isSome_inv (fun _ => True) (fun a ha b _ => h a ha b) (fun _ _ _ _ _ _ => trivial) trivial).1

theorem foldlM_congr {step step' : β → α → Option β} {l : List α} (h : ∀ a ∈ l, ∀ b, step b a = step' b a) (b : β) :
    l.foldlM step b = l.foldlM step' b := by
  induction l generalizing b with
  | nil => rfl
  | cons a l ih =>
    rw [List.foldlM_cons, List.foldlM_cons, h a List.mem_cons_self]
    refine congrArg _ (funext fun b' => ih (fun a' ha' => h a' (List.mem_cons_of_mem _ ha')) b')

end Folds

section Layouts

variable {m : HlModule} {packed packed' : Nat → Option ObjRt} {layout layout' : FieldLayout} {field : HlObjField}

def PackedReady (m : HlModule) (packed : Nat → Option ObjRt) (field : HlObjField) : Prop :=
  (m.typeAt field.t).kind = .hPacked →
    ∃ u rt, (m.typeAt field.t).data = .tparam u ∧ packed u = some rt ∧ rt.largestField ≠ 0

theorem layoutField_isSome (layout : FieldLayout) :
    (layoutField m packed layout field).isSome ↔ PackedReady m packed field := by
  unfold layoutField PackedReady
  dsimp only
  by_cases hkind : (m.typeAt field.t).kind = .hPacked
  · rw [if_pos hkind]
    cases hdata : (m.typeAt field.t).data with
    | tparam u =>
      dsimp only
      cases hrt : packed u with
      | none => simp [hkind, hrt]
      | some rt =>
        by_cases hzero : rt.largestField = 0
        · simp [hkind, hrt, hzero]
        · simp [hkind, hrt, hzero]
    | _ => simp [hkind]
  · simp [hkind]

theorem layoutField_eq_put (h : layoutField m packed layout field = some layout') :
    ∃ offset size largest, layout' = layout.put field offset size largest ∧
      (largest ≠ 0 ↔ (m.typeAt field.t).kind ≠ .hVoid) := by
  unfold layoutField at h
  dsimp only at h
  by_cases hkind : (m.typeAt field.t).kind = .hPacked
  · rw [if_pos hkind] at h
    split at h
    · next u hdata =>
      obtain ⟨rt, hrt, h⟩ := Option.bind_eq_some_iff.mp h
      split at h
      · cases h
      · next hzero =>
        cases h
        exact ⟨_, _, _, rfl, by simp [hkind, hzero]⟩
    · cases h
  · rw [if_neg hkind] at h
    cases h
    refine ⟨_, _, _, rfl, ⟨fun hsize hvoid => hsize (by rw [hvoid]; rfl), fun hvoid => ?_⟩⟩
    exact Nat.ne_of_gt (size_pos hvoid hkind)

theorem layoutField_congr (h : ∀ u, (m.typeAt field.t).kind = .hPacked → (m.typeAt field.t).data = .tparam u →
    packed u = packed' u) : layoutField m packed layout field = layoutField m packed' layout field := by
  unfold layoutField
  dsimp only
  by_cases hkind : (m.typeAt field.t).kind = .hPacked
  · rw [if_pos hkind, if_pos hkind]
    cases hdata : (m.typeAt field.t).data with
    | tparam u =>
      dsimp only
      rw [h u hkind hdata]
    | _ => rfl
  · rw [if_neg hkind, if_neg hkind]

def lookupNames (lookup : List HlFieldLookup) : List (Int × Bool) :=
  lookup.map fun e => (e.hashedName, decide (e.fieldIndex < 0))

theorem lookupNames_insert (lookup : List HlFieldLookup) (e : HlFieldLookup) :
    lookupNames (insert HlFieldLookup.hashedName lookup e) =
      insert Prod.fst (lookupNames lookup) (e.hashedName, decide (e.fieldIndex < 0)) :=
  (insert_image (r := Prod.fst) (fun _ => rfl) lookup e).symm

/-- What the loop over the fields leaves. -/
structure FieldsLaid (m : HlModule) (fields : List HlObjField) (layout layout' : FieldLayout) : Prop where
  names : lookupNames layout'.lookup =
    (fields.filter fun f => f.name ≠ []).foldl (fun table f => insert Prod.fst table (f.hashedName, false))
      (lookupNames layout.lookup)
  offsets : (∀ e ∈ layout.lookup, 0 ≤ e.fieldIndex) → ∀ e ∈ layout'.lookup, 0 ≤ e.fieldIndex
  largest : layout'.largest ≠ 0 ↔ layout.largest ≠ 0 ∨ ∃ f ∈ fields, (m.typeAt f.t).kind ≠ .hVoid

theorem FieldsLaid.put {fields : List HlObjField} {offset size largest : Nat}
    (h : FieldsLaid m fields (layout.put field offset size largest) layout')
    (hlargest : largest ≠ 0 ↔ (m.typeAt field.t).kind ≠ .hVoid) : FieldsLaid m (field :: fields) layout layout' := by
  have hput : (layout.put field offset size largest).largest ≠ 0 ↔
      layout.largest ≠ 0 ∨ (m.typeAt field.t).kind ≠ .hVoid := by
    rw [← hlargest]
    show max layout.largest largest ≠ 0 ↔ _
    omega
  refine ⟨?_, fun hoffsets => h.offsets ?_, ?_⟩
  · rw [h.names]
    by_cases hname : field.name = []
    · rw [List.filter_cons_of_neg (by simp [hname])]
      unfold FieldLayout.put
      rw [if_pos hname]
    · rw [List.filter_cons_of_pos (by simp [hname]), List.foldl_cons]
      unfold FieldLayout.put
      rw [if_neg hname, lookupNames_insert]
      have hfalse : decide ((offset : Int) < 0) = false := decide_eq_false (by omega)
      rw [hfalse]
  · intro e he
    unfold FieldLayout.put at he
    dsimp only at he
    split at he
    · exact hoffsets e he
    · rcases mem_insert.1 he with rfl | he
      · exact Int.natCast_nonneg offset
      · exact hoffsets e he
  · rw [h.largest, hput, List.exists_mem_cons_iff, or_assoc]

theorem layoutFields_laid {fields : List HlObjField}
    (h : fields.foldlM (layoutField m packed) layout = some layout') : FieldsLaid m fields layout layout' := by
  induction fields generalizing layout with
  | nil =>
    cases h
    exact ⟨rfl, fun hoffsets => hoffsets, by simp⟩
  | cons field fields ih =>
    obtain ⟨next, hnext, h⟩ := Option.bind_eq_some_iff.mp h
    obtain ⟨offset, size, largest, rfl, hlargest⟩ := layoutField_eq_put hnext
    exact (ih h).put hlargest

/-- What the loop over the methods leaves. -/
structure MethodsLaid (parentProtos : Int) (protos : List HlObjProto) (layout layout' : MethodLayout) : Prop where
  nproto : layout'.nproto = protos.foldl (fun n p => max n (p.pindex + 1)) layout.nproto
  nmethods : layout'.nmethods = layout.nmethods + (protos.filter fun p => !overrides parentProtos p).length
  names : lookupNames layout'.lookup = (protos.filter fun p => !overrides parentProtos p).foldl
      (fun table p => insert Prod.fst table (p.hashedName, true)) (lookupNames layout.lookup)
  indexes : (∀ e ∈ layout.lookup, e.fieldIndex < 0 → -e.fieldIndex - 1 < layout.nmethods) →
    ∀ e ∈ layout'.lookup, e.fieldIndex < 0 → -e.fieldIndex - 1 < layout'.nmethods

theorem layoutMethods_laid {protos : List HlObjProto} {parentProtos : Int} {layout : MethodLayout}
    (hpositive : 0 ≤ layout.nproto) (hle : parentProtos ≤ layout.nproto) :
    MethodsLaid parentProtos protos layout (protos.foldl (layoutMethod m parentProtos) layout) := by
  induction protos generalizing layout with
  | nil => exact ⟨rfl, rfl, rfl, fun h => h⟩
  | cons p protos ih =>
    rw [List.foldl_cons]
    by_cases hover : overrides parentProtos p = true
    · have hstep : layoutMethod m parentProtos layout p = layout := if_pos hover
      have hmax : max layout.nproto (p.pindex + 1) = layout.nproto := by
        unfold overrides hlProtoTypedEntry at hover
        rw [Bool.or_eq_true, Bool.and_eq_true, decide_eq_true_eq, decide_eq_true_eq, decide_eq_true_eq] at hover
        omega
      obtain ⟨hnproto, hnmethods, hnames, hindexes⟩ := ih hpositive hle
      rw [hstep]
      refine ⟨?_, ?_, ?_, hindexes⟩
      · rw [List.foldl_cons, hmax, hnproto]
      · rw [List.filter_cons_of_neg (by simp [hover]), hnmethods]
      · rw [List.filter_cons_of_neg (by simp [hover]), hnames]
    · have hover' : overrides parentProtos p = false := Bool.eq_false_iff.2 hover
      have hnproto' : (layoutMethod m parentProtos layout p).nproto = max layout.nproto (p.pindex + 1) := by
        rw [layoutMethod, if_neg hover]
        dsimp only
        split <;> omega
      have hcount : (layoutMethod m parentProtos layout p).nmethods = layout.nmethods + 1 := by
        rw [layoutMethod, if_neg hover]
      have hlookup : (layoutMethod m parentProtos layout p).lookup = insert HlFieldLookup.hashedName layout.lookup
          ⟨p.hashedName, (m.functionsTypes.getD p.findex.toNat none).getD 0, -((layout.nmethods : Int) + 1)⟩ := by
        rw [layoutMethod, if_neg hover]
      obtain ⟨hnproto, hnmethods, hnames, hindexes⟩ := @ih (layoutMethod m parentProtos layout p)
        (by omega) (by omega)
      refine ⟨?_, ?_, ?_, fun hold => hindexes fun e he hneg => ?_⟩
      · rw [hnproto, hnproto', List.foldl_cons]
      · rw [hnmethods, hcount, List.filter_cons_of_pos (by simp [hover']), List.length_cons]
        omega
      · have htrue : decide (-((layout.nmethods : Int) + 1) < 0) = true := decide_eq_true (by omega)
        rw [List.filter_cons_of_pos (by simp [hover']), List.foldl_cons, hnames, hlookup, lookupNames_insert, htrue]
      · rw [hcount]
        rw [hlookup] at he
        rcases mem_insert.1 he with rfl | he
        · show -(-((layout.nmethods : Int) + 1)) - 1 < _
          omega
        · have hbound := hold e he hneg
          omega

end Layouts

variable {packed : Nat → Option ObjRt} {kind : HlTypeKind} {parent : Option ObjRt}

section Steps

variable {m : HlModule} {hash : List UInt16 → Int} {runtime runtime' : Nat → Option ClassRt} {t : Nat} {c : ClassRt}
  {obj : HlTypeObj}

/-- The base of a class has what `hl_get_obj_rt` finds for it. -/
def ParentOf {α : Type} (values : Nat → Option α) (obj : HlTypeObj) (parent : Option α) : Prop :=
  match obj.super with
  | none => parent = none
  | some super => ∃ c, values super = some c ∧ parent = some c

theorem ofSuper_eq_some {α : Type} {values : Nat → Option α} {parent : Option α} :
    ofSuper values obj = some parent ↔ ParentOf values obj parent := by
  unfold ofSuper ParentOf
  cases obj.super with
  | none => exact ⟨fun h => (Option.some.inj h).symm, fun h => by rw [h]⟩
  | some super =>
    dsimp only
    rw [Option.map_eq_some_iff]
    exact ⟨fun ⟨c, hc, hparent⟩ => ⟨c, hc, hparent.symm⟩, fun ⟨c, hc, hparent⟩ => ⟨c, hc, hparent.symm⟩⟩

def inheritedProtos (parent : Option ClassRt) : Int := (parent.map (·.rt.nproto)).getD 0

/-- What `hl_get_obj_rt` makes of the parts of a class. -/
def ClassRt.of (obj : HlTypeObj) (parent : Option ClassRt) (rt : ObjRt) (compareFun : Int) : ClassRt where
  rt := rt
  fields := (parent.map (·.fields)).getD [] ++ obj.fields
  lookups := rt.lookup :: (parent.map (·.lookups)).getD []
  bound := (parent.map (·.bound)).getD [] ++ obj.bindingPairs.map Prod.fst
  nbindings := (parent.map (·.nbindings)).getD 0 +
    (obj.bindingPairs.filter fun b => b.1 ∉ (parent.map (·.bound)).getD []).length
  compareFun := compareFun

theorem runtimeStep_eq_some : runtimeStep m hash runtime t = some c ↔
    ∃ obj parent rt compareFun, (m.typeAt t).obj? = some obj ∧ ParentOf runtime obj parent ∧
      layoutClass m (fun u => (runtime u).map (·.rt)) (m.typeAt t).kind obj (parent.map (·.rt)) = some rt ∧
      obj.protos.foldlM (compareMethod m hash (inheritedProtos parent)) 0 = some compareFun ∧
      c = .of obj parent rt compareFun := by
  unfold runtimeStep
  constructor
  · intro h
    obtain ⟨obj, hobj, h⟩ := Option.bind_eq_some_iff.1 h
    obtain ⟨parent, hparent, h⟩ := Option.bind_eq_some_iff.1 h
    obtain ⟨rt, hrt, h⟩ := Option.bind_eq_some_iff.1 h
    obtain ⟨compareFun, hcompare, h⟩ := Option.bind_eq_some_iff.1 h
    exact ⟨obj, parent, rt, compareFun, hobj, (ofSuper_eq_some).1 hparent, hrt, hcompare, (Option.some.inj h).symm⟩
  · rintro ⟨obj, parent, rt, compareFun, hobj, hparent, hrt, hcompare, rfl⟩
    rw [hobj, Option.bind_eq_bind, Option.bind_some, (ofSuper_eq_some).2 hparent, Option.bind_eq_bind, Option.bind_some,
      hrt, Option.bind_eq_bind, Option.bind_some]
    unfold inheritedProtos at hcompare
    rw [hcompare]
    rfl

theorem compareMethod_isSome {parentProtos compareFun : Int} {p : HlObjProto} :
    (compareMethod m hash parentProtos compareFun p).isSome ↔ (overrides parentProtos p = false →
      ∃ type, tableAt m.functionsTypes p.findex = some type ∧ (p.hashedName = hash compareName → type ≠ none)) := by
  unfold compareMethod
  cases hover : overrides parentProtos p with
  | true => simp
  | false =>
    cases htype : tableAt m.functionsTypes p.findex with
    | none => simp
    | some type =>
      by_cases hname : p.hashedName = hash compareName
      · cases type <;> simp [hname]
      · simp [hname]

theorem layoutClass_isSome :
    (layoutClass m packed kind obj parent).isSome ↔ ∀ f ∈ obj.fields, PackedReady m packed f := by
  unfold layoutClass
  rw [← foldlM_isSome (f := layoutField m packed) (fun f _ layout => layoutField_isSome layout)]
  dsimp only
  cases List.foldlM (layoutField m packed) _ obj.fields <;> rfl

theorem layoutClass_congr {packed' : Nat → Option ObjRt}
    (h : ∀ f ∈ obj.fields, ∀ u, (m.typeAt f.t).kind = .hPacked → (m.typeAt f.t).data = .tparam u →
      packed u = packed' u) :
    layoutClass m packed kind obj parent = layoutClass m packed' kind obj parent := by
  unfold layoutClass
  dsimp only
  exact congrArg (· >>= _) (foldlM_congr (fun f hf _ => layoutField_congr (h f hf)) _)

theorem runtimeStep_uses (m : HlModule) (hash : List UInt16 → Int) :
    DepthBound.Uses (runtimeStep m hash) m.Needs where
  demands := by
    rintro runtime t c u h ⟨obj, hobj, hneeds⟩
    obtain ⟨obj', parent, rt, compareFun, hobj', hparent, hrt, -, -⟩ := (runtimeStep_eq_some).1 h
    cases hobj.symm.trans hobj'
    rcases hneeds with hsuper | ⟨f, hf, hkind, hdata⟩
    · unfold ParentOf at hparent
      rw [hsuper] at hparent
      obtain ⟨c', hc', -⟩ := hparent
      exact Option.isSome_iff_exists.2 ⟨c', hc'⟩
    · have hsome := (layoutClass_isSome).1 (Option.isSome_iff_exists.2 ⟨rt, hrt⟩) f hf hkind
      obtain ⟨u', rt', hdata', hrt', -⟩ := hsome
      cases hdata.symm.trans hdata'
      obtain ⟨c', hc', -⟩ := Option.map_eq_some_iff.1 hrt'
      exact Option.isSome_iff_exists.2 ⟨c', hc'⟩
  congr := by
    intro runtime runtime' t c h hsame
    obtain ⟨obj, parent, rt, compareFun, hobj, hparent, hrt, hcompare, hc⟩ := (runtimeStep_eq_some).1 h
    refine (runtimeStep_eq_some).2 ⟨obj, parent, rt, compareFun, hobj, ?_, ?_, hcompare, hc⟩
    · unfold ParentOf at hparent ⊢
      cases hsuper : obj.super with
      | none =>
        rw [hsuper] at hparent
        exact hparent
      | some super =>
        rw [hsuper] at hparent
        obtain ⟨c', hc', hparent⟩ := hparent
        exact ⟨c', (hsame super ⟨obj, hobj, .inl hsuper⟩).trans hc', hparent⟩
    · rw [← hrt]
      refine layoutClass_congr fun f hf u hkind hdata => ?_
      rw [hsame u ⟨obj, hobj, .inr ⟨f, hf, hkind, hdata⟩⟩]

end Steps

section Found

variable {m : HlModule} {hash : List UInt16 → Int} {t : Nat} {obj : HlTypeObj} {base : List (Nat × HlTypeObj)}

structure ClassLaid (m : HlModule) (kind : HlTypeKind) (obj : HlTypeObj) (parent : Option ObjRt) (rt : ObjRt) :
    Prop where
  nproto : rt.nproto = obj.protos.foldl (fun n p => max n (p.pindex + 1)) ((parent.map (·.nproto)).getD 0)
  nmethods : rt.nmethods = (parent.map (·.nmethods)).getD 0 +
    (obj.protos.filter fun p => !overrides ((parent.map (·.nproto)).getD 0) p).length
  names : lookupNames rt.lookup = nameTable ((parent.map (·.nproto)).getD 0) obj
  indexes : ∀ e ∈ rt.lookup, e.fieldIndex < 0 → -e.fieldIndex - 1 < rt.nmethods
  largest : rt.largestField ≠ 0 ↔
    (parent.map (·.largestField)).getD (if kind = .hStruct then 0 else hlWSize) ≠ 0 ∨
      ∃ f ∈ obj.fields, (m.typeAt f.t).kind ≠ .hVoid

theorem layoutClass_laidOut {rt : ObjRt} (hparent : 0 ≤ (parent.map (·.nproto)).getD 0)
    (h : layoutClass m packed kind obj parent = some rt) :
    ClassLaid m kind obj parent rt := by
  obtain ⟨fields, hfields, h⟩ := Option.bind_eq_some_iff.mp h
  have hlaid := layoutFields_laid hfields
  have hoffsets := hlaid.offsets fun e he => absurd he List.not_mem_nil
  have hmethods := @layoutMethods_laid m obj.protos ((parent.map (·.nproto)).getD 0)
    ⟨(parent.map (·.nproto)).getD 0, (parent.map (·.nmethods)).getD 0, fields.lookup⟩ hparent (Int.le_refl _)
  cases h
  refine ⟨hmethods.nproto, hmethods.nmethods, ?_, hmethods.indexes fun e he hneg => ?_, ?_⟩
  · rw [nameTable]
    exact hmethods.names.trans (by rw [hlaid.names]; rfl)
  · exact absurd hneg (by have := hoffsets e he; omega)
  · rw [hlaid.largest]
    cases parent with
    | none => rfl
    | some rt => rfl

/-- What `hl_get_obj_rt` finds is what the hierarchy declares. -/
structure Describes (m : HlModule) (t : Nat) (chain : List (Nat × HlTypeObj)) (c : ClassRt) : Prop where
  bases : Bases m t chain
  nproto : c.rt.nproto = topProto chain
  fields : c.fields = allFields chain
  names : ∀ name, (resolveField c.lookups name).map (fun e => decide (e.fieldIndex < 0)) = resolves chain name
  methods : ∀ name e, resolveField c.lookups name = some e → e.fieldIndex < 0 → -e.fieldIndex - 1 < c.rt.nmethods
  sized : c.rt.largestField ≠ 0 ↔ Sized m t

def BaseDescribed (m : HlModule) (obj : HlTypeObj) (base : List (Nat × HlTypeObj)) (parent : Option ClassRt) : Prop :=
  match obj.super with
  | none => base = [] ∧ parent = none
  | some super => ∃ c, parent = some c ∧ Describes m super base c

theorem BaseDescribed.nproto {parent : Option ClassRt} (h : BaseDescribed m obj base parent) :
    inheritedProtos parent = topProto base := by
  unfold BaseDescribed at h
  unfold inheritedProtos
  cases hsuper : obj.super with
  | none =>
    rw [hsuper] at h
    rw [h.1, h.2]
    rfl
  | some super =>
    rw [hsuper] at h
    obtain ⟨c, rfl, hc⟩ := h
    exact hc.nproto

theorem describes_of {parent : Option ClassRt} {rt : ObjRt} {compareFun : Int}
    (hobj : (m.typeAt t).obj? = some obj) (hbase : BaseDescribed m obj base parent)
    (hrt : layoutClass m packed (m.typeAt t).kind obj (parent.map (·.rt)) = some rt) :
    Describes m t ((t, obj) :: base) (.of obj parent rt compareFun) := by
  have hprotos : ((parent.map (·.rt)).map (·.nproto)).getD 0 = topProto base := by
    rw [Option.map_map]
    exact hbase.nproto
  have hlaid := layoutClass_laidOut (hprotos ▸ topProto_nonneg base) hrt
  have hown : ∀ name, (find HlFieldLookup.hashedName rt.lookup name).map (fun e => decide (e.fieldIndex < 0)) =
      (find Prod.fst (nameTable (topProto base) obj) name).map Prod.snd := by
    intro name
    have himage := find_image (r := Prod.fst) (g := fun e : HlFieldLookup => (e.hashedName, decide (e.fieldIndex < 0)))
      (fun _ => rfl) rt.lookup name
    rw [← hprotos, ← hlaid.names, lookupNames, himage, Option.map_map]
    rfl
  unfold BaseDescribed at hbase
  cases hsuper : obj.super with
  | none =>
    rw [hsuper] at hbase
    obtain ⟨rfl, rfl⟩ := hbase
    refine ⟨.root hobj hsuper, hlaid.nproto, rfl, fun name => ?_, fun name e he hneg => ?_, ?_⟩
    · show (resolveField [rt.lookup] name).map _ = _
      unfold resolveField
      rw [resolves, resolves, Option.or_none, List.findSome?_singleton]
      exact hown name
    · have hfound : find HlFieldLookup.hashedName rt.lookup name = some e := by
        rw [← he]
        exact (List.findSome?_singleton).symm
      exact hlaid.indexes e (find_some hfound).1 hneg
    · refine hlaid.largest.trans ⟨?_, fun hsized => ?_⟩
      · rintro (hkind | ⟨f, hf, hvoid⟩)
        · refine .object hobj hsuper fun hstruct => hkind ?_
          rw [hstruct]
          rfl
        · exact .field hobj hf hvoid
      · cases hsized with
        | object hobj' hsuper' hkind =>
          refine .inl ?_
          show (if _ then 0 else hlWSize) ≠ 0
          rw [if_neg hkind]
          decide
        | field hobj' hf hvoid =>
          cases hobj.symm.trans hobj'
          exact .inr ⟨_, hf, hvoid⟩
        | base hobj' hsuper' =>
          cases hobj.symm.trans hobj'
          cases hsuper.symm.trans hsuper'
  | some super =>
    rw [hsuper] at hbase
    obtain ⟨c, rfl, hc⟩ := hbase
    have hresolve : ∀ name, resolveField (rt.lookup :: c.lookups) name =
        (find HlFieldLookup.hashedName rt.lookup name).or (resolveField c.lookups name) := by
      intro name
      unfold resolveField
      rw [List.findSome?_cons]
      cases find HlFieldLookup.hashedName rt.lookup name <;> rfl
    refine ⟨.derived hobj hsuper hc.bases, ?_, ?_, fun name => ?_, fun name e he hneg => ?_, ?_⟩
    · rw [topProto, ← hprotos]
      exact hlaid.nproto
    · rw [allFields, ← hc.fields]
      rfl
    · show (resolveField (rt.lookup :: c.lookups) name).map _ = _
      rw [hresolve, resolves, ← hown name, ← hc.names name]
      cases find HlFieldLookup.hashedName rt.lookup name <;> rfl
    · have hfound : (find HlFieldLookup.hashedName rt.lookup name).or (resolveField c.lookups name) = some e := by
        rw [← hresolve]
        exact he
      cases hfind : find HlFieldLookup.hashedName rt.lookup name with
      | some e' =>
        rw [hfind] at hfound
        cases hfound
        exact hlaid.indexes e (find_some hfind).1 hneg
      | none =>
        rw [hfind] at hfound
        have hcount : rt.nmethods = c.rt.nmethods + _ := hlaid.nmethods
        have hlt := hc.methods name e hfound hneg
        show -e.fieldIndex - 1 < (rt.nmethods : Int)
        omega
    · refine hlaid.largest.trans ⟨?_, fun hsized => ?_⟩
      · rintro (hbase | ⟨f, hf, hvoid⟩)
        · exact .base hobj hsuper (hc.sized.1 hbase)
        · exact .field hobj hf hvoid
      · cases hsized with
        | object hobj' hsuper' hkind =>
          cases hobj.symm.trans hobj'
          cases hsuper.symm.trans hsuper'
        | field hobj' hf hvoid =>
          cases hobj.symm.trans hobj'
          exact .inr ⟨_, hf, hvoid⟩
        | base hobj' hsuper' rest =>
          cases hobj.symm.trans hobj'
          cases hsuper.symm.trans hsuper'
          exact .inl (hc.sized.2 rest)

theorem objRuntime_describes {depth : Nat} {c : ClassRt} (h : objRuntime m hash depth t = some c) :
    ∃ chain, Describes m t chain c := by
  induction depth generalizing t c with
  | zero => cases h
  | succ depth ih =>
    obtain ⟨obj, parent, rt, compareFun, hobj, hparent, hrt, -, rfl⟩ := runtimeStep_eq_some.1 h
    have hbase : ∃ base, BaseDescribed m obj base parent := by
      unfold ParentOf at hparent
      unfold BaseDescribed
      cases hsuper : obj.super with
      | none =>
        rw [hsuper] at hparent
        exact ⟨[], rfl, hparent⟩
      | some super =>
        rw [hsuper] at hparent
        obtain ⟨c, hc, rfl⟩ := hparent
        obtain ⟨chain, hchain⟩ := ih hc
        exact ⟨chain, c, rfl, hchain⟩
    obtain ⟨base, hbase⟩ := hbase
    exact ⟨_, describes_of hobj hbase hrt⟩

end Found

open Relation

variable {m : HlModule} {hash : List UInt16 → Int} {t u : Nat} {obj : HlTypeObj}

/-- `hl_get_obj_rt` returns. -/
def LayoutBuilt (m : HlModule) (hash : List UInt16 → Int) (t : Nat) : Prop :=
  ∃ depth, (objRuntime m hash depth t).isSome

/-- Nothing that a class needs needs itself. -/
def Acyclic (m : HlModule) (t : Nat) : Prop := ∀ u, ReflTransGen m.Needs t u → ¬TransGen m.Needs u u

def ReadyForLayout (m : HlModule) (hash : List UInt16 → Int) (u : Nat) : Prop :=
  ∃ obj base, Bases m u ((u, obj) :: base) ∧ LayoutReady m hash obj base

theorem obj_lt (hobj : (m.typeAt t).obj? = some obj) : t < m.types.length := by
  rw [← not_le]
  intro hle
  have hzero : m.typeAt t = .zero := List.getD_eq_default _ _ hle
  rw [hzero] at hobj
  cases hobj

theorem finite_needed (hready : ∀ u, ReflTransGen m.Needs t u → ReadyForLayout m hash u) :
    {u | ReflTransGen m.Needs t u}.Finite := by
  refine (Set.finite_lt_nat m.types.length).subset fun u hu => ?_
  obtain ⟨obj, base, hbases, -⟩ := hready u hu
  obtain ⟨obj', base', heq, hobj, -⟩ := hbases.cons
  exact obj_lt hobj

theorem baseDescribed_of {runtime : Nat → Option ClassRt} {parent : Option ClassRt}
    (hruntime : ∀ super c, runtime super = some c → ∃ chain, Describes m super chain c)
    (hparent : ParentOf runtime obj parent) : ∃ base, BaseDescribed m obj base parent := by
  unfold ParentOf at hparent
  unfold BaseDescribed
  cases hsuper : obj.super with
  | none =>
    rw [hsuper] at hparent
    exact ⟨[], rfl, hparent⟩
  | some super =>
    rw [hsuper] at hparent
    obtain ⟨c, hc, rfl⟩ := hparent
    obtain ⟨chain, hchain⟩ := hruntime super c hc
    exact ⟨chain, c, rfl, hchain⟩

theorem readyForLayout_of_isSome {depth : Nat} (h : (objRuntime m hash depth t).isSome) :
    ReadyForLayout m hash t := by
  cases depth with
  | zero => cases h
  | succ depth =>
    obtain ⟨c, hc⟩ := Option.isSome_iff_exists.1 h
    obtain ⟨obj, parent, rt, compareFun, hobj, hparent, hrt, hcompare, -⟩ := runtimeStep_eq_some.1 hc
    obtain ⟨base, hbase⟩ := baseDescribed_of (fun _ _ => objRuntime_describes) hparent
    have hdescribes : Describes m t ((t, obj) :: base) (.of obj parent rt compareFun) := describes_of hobj hbase hrt
    refine ⟨obj, base, hdescribes.bases, fun f hf hkind => ?_, fun p hp hover => ?_⟩
    · have hpacked := layoutClass_isSome.1 (Option.isSome_iff_exists.2 ⟨rt, hrt⟩) f hf hkind
      obtain ⟨u, rt', hdata, hrt', hlargest⟩ := hpacked
      obtain ⟨c', hc', rfl⟩ := Option.map_eq_some_iff.1 hrt'
      obtain ⟨chain, hchain⟩ := objRuntime_describes hc'
      exact ⟨u, hdata, hchain.sized.1 hlargest⟩
    · have htyped := (foldlM_isSome (fun p _ compareFun => compareMethod_isSome) 0).1
        (Option.isSome_iff_exists.2 ⟨compareFun, hcompare⟩) p hp
      rw [hbase.nproto] at htyped
      exact htyped hover

theorem runtimeStep_isSome (hready : ReadyForLayout m hash t) {depth : Nat}
    (hneeds : ∀ u, m.Needs t u → (objRuntime m hash depth u).isSome) :
    (runtimeStep m hash (objRuntime m hash depth) t).isSome := by
  obtain ⟨obj, base, hbases, hlayout⟩ := hready
  obtain ⟨obj', base', heq, hobj, hsupers⟩ := hbases.cons
  cases heq
  have hparent : ∃ parent, ParentOf (objRuntime m hash depth) obj parent ∧ BaseDescribed m obj base parent := by
    unfold ParentOf BaseDescribed
    rcases hsupers with ⟨hsuper, rfl⟩ | ⟨super, hsuper, hrest⟩
    · rw [hsuper]
      exact ⟨none, rfl, rfl, rfl⟩
    · rw [hsuper]
      obtain ⟨c, hc⟩ := Option.isSome_iff_exists.1 (hneeds super ⟨obj, hobj, .inl hsuper⟩)
      obtain ⟨chain, hchain⟩ := objRuntime_describes hc
      cases hchain.bases.unique hrest
      exact ⟨some c, ⟨c, hc, rfl⟩, c, rfl, hchain⟩
  obtain ⟨parent, hparent, hbase⟩ := hparent
  have hpacked : ∀ f ∈ obj.fields, PackedReady m (fun u => (objRuntime m hash depth u).map (·.rt)) f := by
    intro f hf hkind
    obtain ⟨u, hdata, hsized⟩ := hlayout.packed f hf hkind
    obtain ⟨c, hc⟩ := Option.isSome_iff_exists.1 (hneeds u ⟨obj, hobj, .inr ⟨f, hf, hkind, hdata⟩⟩)
    obtain ⟨chain, hchain⟩ := objRuntime_describes hc
    exact ⟨u, c.rt, hdata, congrArg (Option.map (·.rt)) hc, hchain.sized.2 hsized⟩
  have hlaid : (layoutClass m (fun u => (objRuntime m hash depth u).map (·.rt)) (m.typeAt t).kind obj
      (parent.map (·.rt))).isSome := layoutClass_isSome.2 hpacked
  obtain ⟨rt, hrt⟩ := Option.isSome_iff_exists.1 hlaid
  have htyped : (obj.protos.foldlM (compareMethod m hash (inheritedProtos parent)) 0).isSome := by
    rw [foldlM_isSome (fun p _ compareFun => compareMethod_isSome), hbase.nproto]
    exact hlayout.typed
  obtain ⟨compareFun, hcompare⟩ := Option.isSome_iff_exists.1 htyped
  exact Option.isSome_iff_exists.2 ⟨_, runtimeStep_eq_some.2
    ⟨obj, parent, rt, compareFun, hobj, hparent, hrt, hcompare, rfl⟩⟩

theorem layoutBuilt_iff : LayoutBuilt m hash t ↔
    Acyclic m t ∧ ∀ u, ReflTransGen m.Needs t u → ReadyForLayout m hash u := by
  have huses := runtimeStep_uses m hash
  constructor
  · rintro ⟨depth, h⟩
    refine ⟨fun u hu => ?_, fun u hu => ?_⟩
    · obtain ⟨k, hk⟩ := huses.reaches h hu
      exact huses.acyclic hk
    · obtain ⟨k, hk⟩ := huses.reaches h hu
      exact readyForLayout_of_isSome hk
  · rintro ⟨hacyclic, hready⟩
    exact huses.terminates (finite_needed hready) hacyclic fun u hu depth hneeds =>
      runtimeStep_isSome (hready u hu) hneeds

end HashLink
