import HashLink.Objects.ProtoFacts

/-!
A class can be built, with a function in every slot of its prototype, exactly when its hierarchy declares what both
functions need.
-/

namespace HashLink

open Relation

variable {m : HlModule} {hash : List UInt16 → Int} {t : Nat} {obj : HlTypeObj} {base chain : List (Nat × HlTypeObj)}

/-- What `hl_get_obj_proto` has filled in for a hierarchy. -/
structure ProtoOf (m : HlModule) (chain : List (Nat × HlTypeObj)) (c : ClassRt) (proto : ObjProto) : Prop where
  slots : SlotsOf m chain proto.vobjProto
  methods : proto.methods.length = c.rt.nmethods
  bound : BoundBy proto.bindings c.bound
  nbindings : proto.bindings.length = c.nbindings

/-- What a class takes over is what its base declares. The counts of methods and of bindings and the bound
fields are those that `hl_get_obj_rt` has found for the base. -/
structure Inherited (m : HlModule) (base : List (Nat × HlTypeObj)) (p : InheritedProto) (methodCount : Nat)
    (fids : List Int) (bindingCount : Nat) : Prop where
  slots : SlotsOf m base p.vobjProto
  nproto : p.nproto = topProto base
  methods : p.methods.length = methodCount
  placed : MethodsPlaced p.lookups methodCount
  names : ∀ name, (resolveField p.lookups name).map (fun e => decide (e.fieldIndex < 0)) = resolves base name
  bound : BoundBy p.bindings fids
  nbindings : p.bindings.length = bindingCount

/-- What `hl_get_obj_rt` adds for a class to what it has found for its base. -/
structure Extended (m : HlModule) (hash : List UInt16 → Int) (obj : HlTypeObj) (base : List (Nat × HlTypeObj))
    (methodCount : Nat) (fids : List Int) (bindingCount : Nat) (c : ClassRt) : Prop where
  nmethods : c.rt.nmethods = methodCount + (obj.protos.filter fun p => !overrides (topProto base) p).length
  bound : c.bound = fids ++ obj.bindingPairs.map Prod.fst
  nbindings : c.nbindings = bindingCount + (obj.bindingPairs.filter fun b => b.1 ∉ fids).length
  compareFun : obj.protos.foldlM (compareMethod m hash (topProto base)) 0 = some c.compareFun

section Class

variable {p : InheritedProto} {methodCount : Nat} {fids : List Int} {bindingCount : Nat} {c : ClassRt}

theorem Inherited.slots_isSome (hin : Inherited m base p methodCount fids bindingCount)
    (hdescribes : Describes m t ((t, obj) :: base) c) :
    (obj.protos.foldlM (protoSlot m)
        (p.vobjProto ++ List.replicate (c.rt.nproto.toNat - p.vobjProto.length) none)).isSome ↔
      ∀ q ∈ obj.protos, 0 ≤ q.pindex → (tableAt m.functionsPtrs q.findex).isSome := by
  have hlength := hin.slots.length
  obtain ⟨hle, hall⟩ := foldl_max_le obj.protos (topProto base)
  refine (protoSlots_isSome fun q hq => ?_).1
  have hlt := hall q hq
  rw [List.length_append, List.length_replicate, hdescribes.nproto, topProto]
  omega

theorem Inherited.methods_spec (hin : Inherited m base p methodCount fids bindingCount)
    (hext : Extended m hash obj base methodCount fids bindingCount c) :
    ((obj.protos.foldlM (protoMethod m p.lookups p.nproto)
        (p.methods ++ List.replicate (c.rt.nmethods - p.methods.length) none, p.methods.length)).isSome ↔
          ∀ q ∈ obj.protos, MethodReady m p.lookups p.nproto q) ∧
      ∀ state, obj.protos.foldlM (protoMethod m p.lookups p.nproto)
        (p.methods ++ List.replicate (c.rt.nmethods - p.methods.length) none, p.methods.length) = some state →
          state.1.length = c.rt.nmethods := by
  have hcount := hext.nmethods
  have hlength : (p.methods ++ List.replicate (c.rt.nmethods - p.methods.length) (none : Option Nat)).length =
      c.rt.nmethods := by
    rw [List.length_append, List.length_replicate, hin.methods]
    omega
  refine (protoMethods_isSome hin.placed ?_ ?_).imp id fun hlengths state hstate =>
    (hlengths state hstate).trans hlength
  · rw [hlength]
    omega
  · rw [hlength, hin.nproto, hin.methods, hcount]

theorem Inherited.bindings_spec (hin : Inherited m base p methodCount fids bindingCount)
    (hdescribes : Describes m t ((t, obj) :: base) c)
    (hext : Extended m hash obj base methodCount fids bindingCount c) :
    ((obj.bindingPairs.foldlM (protoBinding m c.fields p.bindings c.nbindings) p.bindings).isSome ↔
        ∀ b ∈ obj.bindingPairs, Bindable m ((t, obj) :: base) b) ∧
      ∀ bindings, obj.bindingPairs.foldlM (protoBinding m c.fields p.bindings c.nbindings) p.bindings = some bindings →
        bindings.map ObjBinding.fid =
          p.bindings.map ObjBinding.fid ++ (obj.bindingPairs.filter fun b => b.1 ∉ fids).map Prod.fst := by
  have hroom : p.bindings.length + (obj.bindingPairs.filter fun b => b.1 ∉ fids).length ≤ c.nbindings := by
    rw [hext.nbindings, hin.nbindings]
  rw [hdescribes.fields]
  exact protoBindings_spec hin.bound (List.append_nil _).symm hroom

theorem protoClass_isSome (hin : Inherited m base p methodCount fids bindingCount)
    (hdescribes : Describes m t ((t, obj) :: base) c)
    (hext : Extended m hash obj base methodCount fids bindingCount c) :
    (protoClass m hash c obj p).isSome ↔ ProtoReady m hash obj base t := by
  have hslots := hin.slots_isSome hdescribes
  obtain ⟨hmethods, hmethodsLength⟩ := hin.methods_spec hext
  obtain ⟨hbindings, -⟩ := hin.bindings_spec hdescribes hext
  have hnames : ∀ (state : List (Option Nat) × Nat), state.1.length = c.rt.nmethods → ∀ name,
      (namedMethod c.lookups state.1 name).isSome ↔ resolves ((t, obj) :: base) name ≠ some false := by
    intro state hlength name
    rw [namedMethod_isSome hdescribes.methods (Nat.le_of_eq hlength.symm), hdescribes.names]
  have hzero : c.compareFun = 0 ↔ obj.protos.foldlM (compareMethod m hash (topProto base)) 0 = some 0 := by
    rw [hext.compareFun, Option.some.injEq]
  unfold protoClass
  constructor
  · intro h
    obtain ⟨proto, h⟩ := Option.isSome_iff_exists.1 h
    obtain ⟨slots, hslots', h⟩ := Option.bind_eq_some_iff.1 h
    obtain ⟨methods, hmethods', h⟩ := Option.bind_eq_some_iff.1 h
    obtain ⟨bindings, hbindings', h⟩ := Option.bind_eq_some_iff.1 h
    obtain ⟨toStringFun, hstring, h⟩ := Option.bind_eq_some_iff.1 h
    obtain ⟨compareFun, hcompare, h⟩ := Option.bind_eq_some_iff.1 h
    obtain ⟨castFun, hcast, h⟩ := Option.bind_eq_some_iff.1 h
    obtain ⟨getFieldFun, hgetField, h⟩ := Option.bind_eq_some_iff.1 h
    have hready := hmethods.1 (Option.isSome_iff_exists.2 ⟨methods, hmethods'⟩)
    have hnamed := hnames methods (hmethodsLength methods hmethods')
    refine ⟨fun q hq htyped => (hready q hq htyped).1, fun q hq hindex hlt => ?_,
      hbindings.1 (Option.isSome_iff_exists.2 ⟨bindings, hbindings'⟩), fun name hname => ?_, fun hne => ?_⟩
    · have htyped : q.pindex ≠ hlProtoTypedEntry := by
        unfold hlProtoTypedEntry
        omega
      rw [← hin.names]
      exact (hready q hq htyped).2 hindex (by rw [hin.nproto]; exact hlt)
    · rw [← hnamed]
      simp only [List.mem_cons, List.not_mem_nil, or_false] at hname
      rcases hname with rfl | rfl | rfl
      · rw [hstring]
        rfl
      · rw [hcast]
        rfl
      · rw [hgetField]
        rfl
    · unfold compareFunOf at hcompare
      rw [if_neg (mt hzero.1 hne)] at hcompare
      rw [← hnamed, hcompare]
      rfl
  · intro h
    obtain ⟨slots, hslots'⟩ := Option.isSome_iff_exists.1 (hslots.2 fun q hq hindex =>
      h.code q hq (by unfold hlProtoTypedEntry; omega))
    obtain ⟨methods, hmethods'⟩ := Option.isSome_iff_exists.1 (hmethods.2 fun q hq htyped =>
      ⟨h.code q hq htyped, fun hindex hlt => by
        rw [hin.names]
        exact h.overriding q hq hindex (by rw [← hin.nproto]; exact hlt)⟩)
    obtain ⟨bindings, hbindings'⟩ := Option.isSome_iff_exists.1 (hbindings.2 h.bindings)
    have hnamed := hnames methods (hmethodsLength methods hmethods')
    obtain ⟨toStringFun, hstring⟩ := Option.isSome_iff_exists.1
      ((hnamed (hash stringName)).2 (h.named _ List.mem_cons_self))
    obtain ⟨castFun, hcast⟩ := Option.isSome_iff_exists.1
      ((hnamed (hash castName)).2 (h.named _ (List.mem_cons_of_mem _ List.mem_cons_self)))
    obtain ⟨getFieldFun, hgetField⟩ := Option.isSome_iff_exists.1 ((hnamed (hash getFieldName)).2
        (h.named _ (List.mem_cons_of_mem _ (List.mem_cons_of_mem _ List.mem_cons_self))))
    have hcompare : (compareFunOf c methods.1 (hash compareName)).isSome := by
      unfold compareFunOf
      split
      · rfl
      · next hne => exact (hnamed _).2 (h.compares (mt hzero.2 hne))
    obtain ⟨compareFun, hcompare⟩ := Option.isSome_iff_exists.1 hcompare
    simp only [hslots', hmethods', hbindings', hstring, hcompare, hcast, hgetField, Option.bind_eq_bind,
      Option.bind_some]
    rfl

theorem protoClass_protoOf (hin : Inherited m base p methodCount fids bindingCount)
    (hdescribes : Describes m t ((t, obj) :: base) c)
    (hext : Extended m hash obj base methodCount fids bindingCount c) {proto : ObjProto}
    (h : protoClass m hash c obj p = some proto) : ProtoOf m ((t, obj) :: base) c proto := by
  obtain ⟨slots, hslots, h⟩ := Option.bind_eq_some_iff.1 h
  obtain ⟨methods, hmethods, h⟩ := Option.bind_eq_some_iff.1 h
  obtain ⟨bindings, hbindings, h⟩ := Option.bind_eq_some_iff.1 h
  obtain ⟨toStringFun, -, h⟩ := Option.bind_eq_some_iff.1 h
  obtain ⟨compareFun, -, h⟩ := Option.bind_eq_some_iff.1 h
  obtain ⟨castFun, -, h⟩ := Option.bind_eq_some_iff.1 h
  obtain ⟨getFieldFun, -, h⟩ := Option.bind_eq_some_iff.1 h
  have hfids := (hin.bindings_spec hdescribes hext).2 bindings hbindings
  cases h
  refine ⟨?_, (hin.methods_spec hext).2 methods hmethods, fun fid => ?_, ?_⟩
  · rw [hdescribes.nproto] at hslots
    exact slotsOf_class hin.slots hslots
  · show fid ∈ bindings.map ObjBinding.fid ↔ _
    rw [hfids, hext.bound, List.mem_append, List.mem_append, hin.bound fid]
    constructor
    · rintro (hold | hfresh)
      · exact .inl hold
      · obtain ⟨b, hb, rfl⟩ := List.mem_map.1 hfresh
        exact .inr (List.mem_map.2 ⟨b, (List.mem_filter.1 hb).1, rfl⟩)
    · rintro (hold | hpair)
      · exact .inl hold
      · obtain ⟨b, hb, rfl⟩ := List.mem_map.1 hpair
        by_cases hold : b.1 ∈ fids
        · exact .inl hold
        · exact .inr (List.mem_map.2 ⟨b, List.mem_filter.2 ⟨hb, decide_eq_true hold⟩, rfl⟩)
  · have hlength := congrArg List.length hfids
    rw [List.length_map, List.length_append, List.length_map, List.length_map, hin.nbindings] at hlength
    exact hlength.trans hext.nbindings.symm

end Class

section Hierarchies

def BaseProto (m : HlModule) (obj : HlTypeObj) (base : List (Nat × HlTypeObj)) (parent : Option (ClassRt × ObjProto)) :
    Prop :=
  match obj.super with
  | none => base = [] ∧ parent = none
  | some super => ∃ c proto, parent = some (c, proto) ∧ Describes m super base c ∧ ProtoOf m base c proto

variable {parent : Option (ClassRt × ObjProto)}

theorem BaseProto.inherited (h : BaseProto m obj base parent) :
    Inherited m base (.of parent) ((parent.map (·.1.rt.nmethods)).getD 0) ((parent.map (·.1.bound)).getD [])
      ((parent.map (·.1.nbindings)).getD 0) := by
  unfold BaseProto at h
  cases hsuper : obj.super with
  | none =>
    rw [hsuper] at h
    obtain ⟨rfl, rfl⟩ := h
    refine ⟨⟨rfl, fun k hk hlt => ?_⟩, rfl, rfl, ?_, fun _ => rfl, fun fid => Iff.rfl, rfl⟩
    · exact absurd hlt (by show ¬k < 0; omega)
    · intro name e he
      cases he
  | some super =>
    rw [hsuper] at h
    obtain ⟨c, proto, rfl, hdescribes, hproto⟩ := h
    exact ⟨hproto.slots, hdescribes.nproto, hproto.methods, hdescribes.methods, hdescribes.names, hproto.bound,
      hproto.nbindings⟩

theorem BaseProto.described (h : BaseProto m obj base parent) :
    BaseDescribed m obj base (parent.map Prod.fst) := by
  unfold BaseProto at h
  unfold BaseDescribed
  cases hsuper : obj.super with
  | none =>
    rw [hsuper] at h
    exact ⟨h.1, by rw [h.2]; rfl⟩
  | some super =>
    rw [hsuper] at h
    obtain ⟨c, proto, rfl, hdescribes, -⟩ := h
    exact ⟨c, rfl, hdescribes⟩

theorem extended_of {packed : Nat → Option ObjRt} {kind : HlTypeKind} {rt : ObjRt} {compareFun : Int}
    (hbase : BaseProto m obj base parent)
    (hrt : layoutClass m packed kind obj ((parent.map Prod.fst).map (·.rt)) = some rt)
    (hcompare : obj.protos.foldlM (compareMethod m hash (inheritedProtos (parent.map Prod.fst))) 0 = some compareFun) :
    Extended m hash obj base ((parent.map (·.1.rt.nmethods)).getD 0) ((parent.map (·.1.bound)).getD [])
      ((parent.map (·.1.nbindings)).getD 0) (.of obj (parent.map Prod.fst) rt compareFun) := by
  have hprotos : (((parent.map Prod.fst).map (·.rt)).map (·.nproto)).getD 0 = topProto base := by
    rw [Option.map_map]
    exact hbase.described.nproto
  have hcount := (layoutClass_laidOut (hprotos ▸ topProto_nonneg base) hrt).nmethods
  rw [hprotos] at hcount
  rw [hbase.described.nproto] at hcompare
  cases parent with
  | none => exact ⟨hcount, rfl, rfl, hcompare⟩
  | some parent => exact ⟨hcount, rfl, rfl, hcompare⟩

def ProtosReady (m : HlModule) (hash : List UInt16 → Int) : List (Nat × HlTypeObj) → Prop
  | [] => True
  | (t, obj) :: base => ProtoReady m hash obj base t ∧ ProtosReady m hash base

theorem objProto_class {depth n : Nat} (hlayout : (objRuntime m hash depth t).isSome)
    (hobj : (m.typeAt t).obj? = some obj) (hparent : ofSuper (objProto m hash depth n) obj = some parent)
    (hbase : BaseProto m obj base parent)
    (hruntime : ∀ super c proto, obj.super = some super → parent = some (c, proto) →
      objRuntime m hash depth super = some c) :
    ((objProto m hash depth (n + 1) t).isSome ↔ ProtoReady m hash obj base t) ∧
      ∀ c proto, objProto m hash depth (n + 1) t = some (c, proto) →
        objRuntime m hash depth t = some c ∧ ProtoOf m ((t, obj) :: base) c proto := by
  obtain ⟨c, hc⟩ := Option.isSome_iff_exists.1 hlayout
  obtain ⟨d, rfl⟩ : ∃ d, depth = d + 1 := by
    cases depth with
    | zero => cases hlayout
    | succ d => exact ⟨d, rfl⟩
  obtain ⟨obj', parent', rt, compareFun, hobj', hparent', hrt, hcompare, hof⟩ := runtimeStep_eq_some.1 hc
  cases hobj.symm.trans hobj'
  have hsame : parent' = parent.map Prod.fst := by
    unfold ParentOf at hparent'
    unfold BaseProto at hbase
    cases hsuper : obj.super with
    | none =>
      rw [hsuper] at hparent' hbase
      rw [hparent', hbase.2]
      rfl
    | some super =>
      rw [hsuper] at hparent' hbase
      obtain ⟨c', hc', rfl⟩ := hparent'
      obtain ⟨c'', proto, rfl, -, -⟩ := hbase
      rw [(runtimeStep_uses m hash).unique hc' (hruntime super c'' proto hsuper rfl)]
      rfl
  subst hsame
  have hdescribes : Describes m t ((t, obj) :: base) c := hof ▸ describes_of hobj hbase.described hrt
  have hext : Extended m hash obj base _ _ _ c := hof ▸ extended_of hbase hrt hcompare
  have hready := protoClass_isSome hbase.inherited hdescribes hext
  have heq : objProto m hash (d + 1) (n + 1) t = (protoClass m hash c obj (.of parent)).map (c, ·) := by
    rw [objProto, hc, Option.bind_eq_bind, Option.bind_some, hobj, Option.bind_eq_bind, Option.bind_some, hparent,
      Option.bind_eq_bind, Option.bind_some]
    cases protoClass m hash c obj (.of parent) <;> rfl
  rw [heq, Option.isSome_map]
  refine ⟨hready, fun c' proto h => ?_⟩
  obtain ⟨proto', hproto, hpair⟩ := Option.map_eq_some_iff.1 h
  cases hpair
  exact ⟨hc, protoClass_protoOf hbase.inherited hdescribes hext hproto⟩

theorem objProto_spec {depth : Nat} (hlayout : (objRuntime m hash depth t).isSome) (hbases : Bases m t chain)
    (n : Nat) :
    ((objProto m hash depth n t).isSome ↔ ProtosReady m hash chain ∧ chain.length ≤ n) ∧
      ∀ c proto, objProto m hash depth n t = some (c, proto) →
        objRuntime m hash depth t = some c ∧ ProtoOf m chain c proto := by
  have huses := runtimeStep_uses m hash
  induction hbases generalizing n with
  | @root t obj hobj hsuper =>
    cases n with
    | zero => exact ⟨by simp [objProto], fun _ _ h => by cases h⟩
    | succ n =>
      have hparent : ofSuper (objProto m hash depth n) obj = some none := by
        unfold ofSuper
        rw [hsuper]
      have hbase : BaseProto m obj [] none := by
        unfold BaseProto
        rw [hsuper]
        exact ⟨rfl, rfl⟩
      have hclass := objProto_class hlayout hobj hparent hbase fun _ _ _ _ h => by cases h
      refine ⟨hclass.1.trans ⟨fun h => ⟨⟨h, trivial⟩, ?_⟩, fun h => h.1.1⟩, hclass.2⟩
      rw [List.length_singleton]
      omega
  | @derived t u obj base hobj hsuper rest ih =>
    cases n with
    | zero => exact ⟨by simp [objProto], fun _ _ h => by cases h⟩
    | succ n =>
      -- the base has its layout at the same depth
      obtain ⟨k, hk, hsome⟩ := huses.below hlayout (.single ⟨obj, hobj, .inl hsuper⟩)
      obtain ⟨c, hc⟩ := Option.isSome_iff_exists.1 hsome
      have hc' : objRuntime m hash depth u = some c := huses.mono hk.le hc
      obtain ⟨hiff, hresult⟩ := ih (Option.isSome_iff_exists.2 ⟨c, hc'⟩) n
      have hlength : ((t, obj) :: base).length ≤ n + 1 ↔ base.length ≤ n := by
        rw [List.length_cons]
        omega
      rw [ProtosReady, hlength, and_assoc, ← hiff]
      cases hproto : objProto m hash depth n u with
      | none =>
        have hparent : ofSuper (objProto m hash depth n) obj = none := by
          unfold ofSuper
          rw [hsuper]
          dsimp only
          rw [hproto]
          rfl
        have hnone : objProto m hash depth (n + 1) t = none := by
          rw [objProto]
          cases objRuntime m hash depth t with
          | none => rfl
          | some c =>
            rw [Option.bind_eq_bind, Option.bind_some, hobj, Option.bind_eq_bind, Option.bind_some, hparent]
            rfl
        rw [hnone]
        exact ⟨by simp, fun _ _ h => by cases h⟩
      | some parent =>
        obtain ⟨c'', proto⟩ := parent
        obtain ⟨hruntime, hprotoOf⟩ := hresult c'' proto hproto
        cases hc'.symm.trans hruntime
        have hdescribes : Describes m u base c := by
          obtain ⟨chain, hchain⟩ := objRuntime_describes hc'
          cases hchain.bases.unique rest
          exact hchain
        have hparent : ofSuper (objProto m hash depth n) obj = some (some (c, proto)) := by
          unfold ofSuper
          rw [hsuper]
          dsimp only
          rw [hproto]
          rfl
        have hbase : BaseProto m obj base (some (c, proto)) := by
          unfold BaseProto
          rw [hsuper]
          exact ⟨c, proto, rfl, hdescribes, hprotoOf⟩
        have hclass := objProto_class hlayout hobj hparent hbase fun super c' proto' hsuper' hsome => by
          cases hsuper.symm.trans hsuper'
          cases hsome
          exact hc'
        refine ⟨hclass.1.trans ⟨fun h => ⟨h, rfl⟩, fun h => h.1⟩, hclass.2⟩

/-- `hl_get_obj_rt` and `hl_get_obj_proto` return, and every slot of the prototype holds a function. -/
def Built (m : HlModule) (hash : List UInt16 → Int) (t : Nat) : Prop :=
  ∃ depth n c proto, objProto m hash depth n t = some (c, proto) ∧
    ∀ k, 0 ≤ k → k < c.rt.nproto → ∃ code, tableAt proto.vobjProto k = some (some code)

/-- No prototype index is left out below the highest one, and the last method that has it is a function. -/
def NoGaps (m : HlModule) (chain : List (Nat × HlTypeObj)) : Prop :=
  ∀ k, 0 ≤ k → k < topProto chain → ∃ p code, slotMethod chain k = some p ∧
    tableAt m.functionsPtrs p.findex = some (some code)

theorem SlotsOf.filled_iff {slots : List (Option Nat)} (h : SlotsOf m chain slots) :
    (∀ k, 0 ≤ k → k < topProto chain → ∃ code, tableAt slots k = some (some code)) ↔ NoGaps m chain := by
  refine forall_congr' fun k => forall_congr' fun hk => forall_congr' fun hlt => ?_
  rw [h.slot k hk hlt]
  cases slotMethod chain k with
  | none => simp
  | some p => simp

theorem built_iff : Built m hash t ↔ Acyclic m t ∧ (∀ u, ReflTransGen m.Needs t u → ReadyForLayout m hash u) ∧
      ∃ chain, Bases m t chain ∧ ProtosReady m hash chain ∧ NoGaps m chain := by
  rw [← and_assoc, ← layoutBuilt_iff]
  constructor
  · rintro ⟨depth, n, c, proto, hproto, hfilled⟩
    have hlayout : (objRuntime m hash depth t).isSome := by
      cases n with
      | zero => cases hproto
      | succ n =>
        obtain ⟨c', hc', -⟩ := Option.bind_eq_some_iff.1 hproto
        exact Option.isSome_iff_exists.2 ⟨c', hc'⟩
    obtain ⟨c', hc'⟩ := Option.isSome_iff_exists.1 hlayout
    obtain ⟨chain, hdescribes⟩ := objRuntime_describes hc'
    obtain ⟨hiff, hresult⟩ := objProto_spec hlayout hdescribes.bases n
    obtain ⟨hruntime, hprotoOf⟩ := hresult c proto hproto
    cases hc'.symm.trans hruntime
    rw [hdescribes.nproto] at hfilled
    exact ⟨⟨depth, hlayout⟩, chain, hdescribes.bases, (hiff.1 (Option.isSome_iff_exists.2 ⟨_, hproto⟩)).1,
      hprotoOf.slots.filled_iff.1 hfilled⟩
  · rintro ⟨⟨depth, hlayout⟩, chain, hbases, hready, hgaps⟩
    obtain ⟨hiff, hresult⟩ := objProto_spec hlayout hbases chain.length
    obtain ⟨⟨c, proto⟩, hproto⟩ := Option.isSome_iff_exists.1 (hiff.2 ⟨hready, Nat.le_refl _⟩)
    obtain ⟨hruntime, hprotoOf⟩ := hresult c proto hproto
    obtain ⟨chain', hdescribes⟩ := objRuntime_describes hruntime
    cases hdescribes.bases.unique hbases
    refine ⟨depth, chain.length, c, proto, hproto, ?_⟩
    rw [hdescribes.nproto]
    exact hprotoOf.slots.filled_iff.2 hgaps

end Hierarchies

end HashLink
