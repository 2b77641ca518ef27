import HashLink.Objects.MethodTables

/-!
`hl_get_obj_proto` of a whole hierarchy: the prototype, the methods, the lookups and the bindings agree with each
other and with the counts of `hl_get_obj_rt`.
-/

namespace HashLink

open Relation SortedTable

variable {m : HlModule} {hash : List UInt16 → Int} {t : Nat} {obj : HlTypeObj} {base chain : List (Nat × HlTypeObj)}
variable {proto : ObjProto} {c : ClassRt}

theorem objProto_inv {depth n : Nat} (h : objProto m hash depth (n + 1) t = some (c, proto)) :
    ∃ obj parent packed rt compareFun, (m.typeAt t).obj? = some obj ∧ ParentOf (objProto m hash depth n) obj parent ∧
      layoutClass m packed (m.typeAt t).kind obj ((parent.map Prod.fst).map (·.rt)) = some rt ∧
      c = .of obj (parent.map Prod.fst) rt compareFun ∧ protoClass m hash c obj (.of parent) = some proto := by
  obtain ⟨c', hc, h⟩ := Option.bind_eq_some_iff.1 h
  obtain ⟨obj, hobj, h⟩ := Option.bind_eq_some_iff.1 h
  obtain ⟨parent, hparent, h⟩ := Option.bind_eq_some_iff.1 h
  obtain ⟨proto', hproto, h⟩ := Option.bind_eq_some_iff.1 h
  cases h
  obtain ⟨d, rfl⟩ : ∃ d, depth = d + 1 := by
    cases depth with
    | zero => cases hc
    | succ d => exact ⟨d, rfl⟩
  obtain ⟨obj', parent', rt, compareFun, hobj', hparent', hrt, -, rfl⟩ := runtimeStep_eq_some.1 hc
  cases hobj.symm.trans hobj'
  have hparent := ofSuper_eq_some.1 hparent
  -- both walks have the same base
  have hsame : parent' = parent.map Prod.fst := by
    unfold ParentOf at hparent hparent'
    cases hsuper : obj.super with
    | none =>
      rw [hsuper] at hparent hparent'
      rw [hparent, hparent']
      rfl
    | some super =>
      rw [hsuper] at hparent hparent'
      obtain ⟨c', hc', rfl⟩ := hparent'
      obtain ⟨⟨c'', proto''⟩, hproto'', rfl⟩ := hparent
      have hruntime : objRuntime m hash (d + 1) super = some c'' := by
        cases n with
        | zero => cases hproto''
        | succ n =>
          obtain ⟨x, hx, hrest⟩ := Option.bind_eq_some_iff.1 hproto''
          obtain ⟨_, -, hrest⟩ := Option.bind_eq_some_iff.1 hrest
          obtain ⟨_, -, hrest⟩ := Option.bind_eq_some_iff.1 hrest
          obtain ⟨_, -, hrest⟩ := Option.bind_eq_some_iff.1 hrest
          cases hrest
          exact hx
      rw [(runtimeStep_uses m hash).unique hc' hruntime]
      rfl
  subst hsame
  exact ⟨obj, parent, _, rt, compareFun, hobj, hparent, hrt, rfl, hproto⟩

theorem protoClass_inv {p : InheritedProto} (h : protoClass m hash c obj p = some proto) :
    obj.protos.foldlM (protoSlot m)
        (p.vobjProto ++ List.replicate (c.rt.nproto.toNat - p.vobjProto.length) none) = some proto.vobjProto ∧
      (∃ next, obj.protos.foldlM (protoMethod m p.lookups p.nproto)
        (p.methods ++ List.replicate (c.rt.nmethods - p.methods.length) none, p.methods.length) =
          some (proto.methods, next)) ∧
      obj.bindingPairs.foldlM (protoBinding m c.fields p.bindings c.nbindings) p.bindings = some proto.bindings := by
  obtain ⟨slots, hslots, h⟩ := Option.bind_eq_some_iff.1 h
  obtain ⟨methods, hmethods, h⟩ := Option.bind_eq_some_iff.1 h
  obtain ⟨bindings, hbindings, h⟩ := Option.bind_eq_some_iff.1 h
  obtain ⟨_, -, h⟩ := Option.bind_eq_some_iff.1 h
  obtain ⟨_, -, h⟩ := Option.bind_eq_some_iff.1 h
  obtain ⟨_, -, h⟩ := Option.bind_eq_some_iff.1 h
  obtain ⟨_, -, h⟩ := Option.bind_eq_some_iff.1 h
  cases h
  exact ⟨hslots, ⟨methods.2, hmethods⟩, hbindings⟩

/-- What a class has of its own and of its bases, once both functions have returned. -/
structure Filled (m : HlModule) (chain : List (Nat × HlTypeObj)) (c : ClassRt) (proto : ObjProto) : Prop where
  nproto : c.rt.nproto = topProto chain
  nmethods : proto.methods.length = c.rt.nmethods
  fields : c.fields = allFields chain
  methods : MethodTable m chain c.lookups proto.methods
  bindings : BindingTable m chain proto.bindings
  nlookup : ∀ t obj base, chain = (t, obj) :: base → (c.rt.lookup.length : Int) = obj.nlookup (topProto base)

structure FromParent (m : HlModule) (base : List (Nat × HlTypeObj)) (parent : Option (ClassRt × ObjProto)) : Prop where
  nproto : (InheritedProto.of parent).nproto = topProto base
  nproto' : (((parent.map Prod.fst).map (·.rt)).map (·.nproto)).getD 0 = topProto base
  nmethods : (InheritedProto.of parent).methods.length = (((parent.map Prod.fst).map (·.rt)).map (·.nmethods)).getD 0
  lookups : ((parent.map Prod.fst).map (·.lookups)).getD [] = (InheritedProto.of parent).lookups
  fields : ((parent.map Prod.fst).map (·.fields)).getD [] = allFields base
  methods : MethodTable m base (InheritedProto.of parent).lookups (InheritedProto.of parent).methods
  bindings : BindingTable m base (InheritedProto.of parent).bindings

theorem fromParent_none : FromParent m [] none := ⟨rfl, rfl, rfl, rfl, rfl, methodTable_nil, bindingTable_nil⟩

theorem Filled.fromParent (h : Filled m base c proto) :
    FromParent m base (some (c, proto)) :=
  ⟨h.nproto, h.nproto, h.nmethods, rfl, h.fields, h.methods, h.bindings⟩

theorem FromParent.filled {parent : Option (ClassRt × ObjProto)} {packed : Nat → Option ObjRt}
    {kind : HlTypeKind} {rt : ObjRt} {compareFun : Int} (h : FromParent m base parent)
    (honce : obj.DeclaresOnce)
    (hrt : layoutClass m packed kind obj ((parent.map Prod.fst).map (·.rt)) = some rt)
    (hproto : protoClass m hash (.of obj (parent.map Prod.fst) rt compareFun) obj (.of parent) = some proto) :
    Filled m ((t, obj) :: base) (.of obj (parent.map Prod.fst) rt compareFun) proto := by
  obtain ⟨-, ⟨next, hmethods⟩, hbindings⟩ := protoClass_inv hproto
  have hnonneg : 0 ≤ (((parent.map Prod.fst).map (·.rt)).map (·.nproto)).getD 0 :=
    h.nproto' ▸ topProto_nonneg base
  have hlaid := layoutClass_laidOut hnonneg hrt
  have hown := layoutClass_lookup honce hnonneg hrt
  have hcount : rt.nmethods - (InheritedProto.of parent).methods.length =
      (obj.introduced (topProto base)).length := by
    rw [hlaid.nmethods, h.nmethods, h.nproto', HlTypeObj.introduced]
    omega
  have hfilled := protoMethods_filled h.methods.placed (Nat.le_refl _) hmethods
  rw [h.nproto] at hfilled
  have hcount' : (ClassRt.of obj (parent.map Prod.fst) rt compareFun).rt.nmethods -
      (InheritedProto.of parent).methods.length = (obj.introduced (topProto base)).length := hcount
  rw [hcount'] at hfilled
  rw [h.nproto', ← h.nmethods] at hown
  refine ⟨?_, ?_, ?_, ?_, ?_, ?_⟩
  · rw [topProto, ← h.nproto']
    exact hlaid.nproto
  · rw [hfilled.length, List.length_append, List.length_replicate, h.nmethods, ← h.nproto']
    exact hlaid.nmethods.symm
  · rw [allFields, ← h.fields]
    rfl
  · show MethodTable m _ (rt.lookup :: _) _
    rw [h.lookups]
    exact h.methods.derived honce hown hfilled
  · have hfields : (ClassRt.of obj (parent.map Prod.fst) rt compareFun).fields = allFields base ++ obj.fields := by
      rw [← h.fields]
      rfl
    rw [hfields] at hbindings
    exact h.bindings.derived honce hbindings
  · rintro t' obj' base' heq
    cases heq
    rw [← h.nproto']
    exact length_lookup hnonneg hrt

theorem objProto_filled {depth n : Nat} (hbases : Bases m t chain) (honce : ∀ d ∈ chain, d.2.DeclaresOnce)
    (h : objProto m hash depth n t = some (c, proto)) :
    Filled m chain c proto := by
  induction hbases generalizing n c proto with
  | @root t obj hobj hsuper =>
    cases n with
    | zero => cases h
    | succ n =>
      obtain ⟨obj', parent, packed, rt, compareFun, hobj', hparent, hrt, rfl, hproto⟩ := objProto_inv h
      cases hobj.symm.trans hobj'
      unfold ParentOf at hparent
      rw [hsuper] at hparent
      subst hparent
      exact fromParent_none.filled (honce _ List.mem_cons_self) hrt hproto
  | @derived t u obj base hobj hsuper rest ih =>
    cases n with
    | zero => cases h
    | succ n =>
      obtain ⟨obj', parent, packed, rt, compareFun, hobj', hparent, hrt, rfl, hproto⟩ := objProto_inv h
      cases hobj.symm.trans hobj'
      unfold ParentOf at hparent
      rw [hsuper] at hparent
      obtain ⟨⟨c', proto'⟩, hproto', rfl⟩ := hparent
      exact (ih (fun d hd => honce d (List.mem_cons_of_mem _ hd)) hproto').fromParent.filled
        (honce _ List.mem_cons_self) hrt hproto

/-- The tables of a class hold the most derived methods and bindings, whichever way they are reached, and are as long
as `hl_get_obj_rt` has counted. -/
structure TablesAgree (m : HlModule) (t : Nat) (obj : HlTypeObj) (base : List (Nat × HlTypeObj)) (c : ClassRt)
    (proto : ObjProto) : Prop where
  nlookup : (c.rt.lookup.length : Int) = obj.nlookup (topProto base)
  nproto : (proto.vobjProto.length : Int) = c.rt.nproto
  nmethods : proto.methods.length = c.rt.nmethods
  nbindings : proto.bindings.length = c.nbindings
  slot : ∀ k, 0 ≤ k → k < c.rt.nproto → tableAt proto.vobjProto k = match slotMethod ((t, obj) :: base) k with
    | some p => tableAt m.functionsPtrs p.findex
    | none => some none
  filled : ∀ i : Int, 0 ≤ i → i < c.rt.nmethods →
    ∃ d ∈ (t, obj) :: base, ∃ p ∈ d.2.protos, tableAt proto.methods i = tableAt m.functionsPtrs p.findex
  found : ∀ name e, resolveField c.lookups name = some e → e.fieldIndex < 0 →
    ∃ p code, nameMethod ((t, obj) :: base) name = some p ∧ tableAt m.functionsPtrs p.findex = some code ∧
      tableAt proto.methods (-e.fieldIndex - 1) = some code ∧
      (0 ≤ p.pindex → tableAt proto.vobjProto p.pindex = some code)
  slotted : ∀ k p, 0 ≤ k → slotMethod ((t, obj) :: base) k = some p → NoField ((t, obj) :: base) p.hashedName →
    ∃ e code, resolveField c.lookups p.hashedName = some e ∧ e.fieldIndex < 0 ∧
      tableAt proto.methods (-e.fieldIndex - 1) = some code ∧ tableAt proto.vobjProto k = some code
  bindings : BindingTable m ((t, obj) :: base) proto.bindings

theorem slotMethod_lt {k : Int} {p : HlObjProto} (h : slotMethod chain k = some p) : k < topProto chain := by
  by_contra hle
  rw [slotMethod_none chain (by omega)] at h
  cases h

theorem Filled.agree (h : Filled m ((t, obj) :: base) c proto) (hproto : ProtoOf m ((t, obj) :: base) c proto)
    (hkeeps : KeepsOverrides ((t, obj) :: base)) (honce : ∀ d ∈ (t, obj) :: base, d.2.DeclaresOnce) :
    TablesAgree m t obj base c proto := by
  have hplace : ∀ {name e}, resolveField c.lookups name = some e → e.fieldIndex < 0 →
      ∃ code, tableAt proto.methods (-e.fieldIndex - 1) = some code := fun he hneg =>
    Option.isSome_iff_exists.1 (tableAt_isSome.2 ⟨by omega, h.methods.placed _ _ he hneg⟩)
  have hslot : ∀ {k p}, 0 ≤ k → slotMethod ((t, obj) :: base) k = some p →
      tableAt proto.vobjProto k = tableAt m.functionsPtrs p.findex := by
    intro k p hk hp
    rw [hproto.slots.slot k hk (slotMethod_lt hp), hp]
  refine ⟨h.nlookup t obj base rfl, hproto.slots.length.trans h.nproto.symm, h.nmethods, hproto.nbindings,
    fun k hk hlt => hproto.slots.slot k hk (h.nproto ▸ hlt), fun i hi hlt => h.methods.filled i hi (by
      rw [h.nmethods]
      exact hlt), fun name e he hneg => ?_, fun k p hk hp hfield => ?_, h.bindings⟩
  · obtain ⟨p, hp, hcode⟩ := h.methods.found name e he hneg
    obtain ⟨code, hat⟩ := hplace he hneg
    refine ⟨p, code, hp, hcode.symm.trans hat, hat, fun hindex => ?_⟩
    rw [hslot hindex (slotMethod_of_name hkeeps honce hp hindex), ← hcode, hat]
  · have hname := nameMethod_of_slot hkeeps honce hk hp
    obtain ⟨e, he, hneg⟩ := h.methods.known _ p hname hfield
    obtain ⟨p', hp', hcode⟩ := h.methods.found _ e he hneg
    cases hname.symm.trans hp'
    obtain ⟨code, hat⟩ := hplace he hneg
    exact ⟨e, code, he, hneg, hat, by rw [hslot hk hp, ← hcode, hat]⟩

/-- A hierarchy whose classes declare each name, index and binding once, and whose overriding methods keep the name
and the index: when its prototype is built the tables agree, and with sizes of any length it is built when the
hierarchy is ready. -/
theorem class_tables_agree (hbases : Bases m t ((t, obj) :: base)) (hkeeps : KeepsOverrides ((t, obj) :: base))
    (honce : ∀ d ∈ (t, obj) :: base, d.2.DeclaresOnce) :
    (∀ depth n c proto, objProto m hash depth n t = some (c, proto) → TablesAgree m t obj base c proto) ∧
      (Acyclic m t → (∀ u, ReflTransGen m.Needs t u → ReadyForLayout m hash u) →
        ProtosReady m hash ((t, obj) :: base) → ∃ depth n, (objProto m hash depth n t).isSome) := by
  constructor
  · intro depth n c proto h
    have hlayout : (objRuntime m hash depth t).isSome := by
      cases n with
      | zero => cases h
      | succ n =>
        obtain ⟨c', hc', -⟩ := Option.bind_eq_some_iff.1 h
        exact Option.isSome_iff_exists.2 ⟨c', hc'⟩
    exact (objProto_filled hbases honce h).agree ((objProto_spec hlayout hbases n).2 c proto h).2 hkeeps honce
  · intro hacyclic hready hprotos
    obtain ⟨depth, hlayout⟩ := layoutBuilt_iff.2 ⟨hacyclic, hready⟩
    exact ⟨depth, _, (objProto_spec hlayout hbases _).1.2 ⟨hprotos, Nat.le_refl _⟩⟩

def loadedClass : HlTypeObj where
  name := [65]
  super := none
  fields := [⟨[97], 50, 2⟩]
  protos := [⟨[98], 60, 0, 0⟩, ⟨[99], 70, 1, 1⟩]
  bindings := [0, 2]
  globalValue := none
  rt := ⟨[], [], 0⟩

/-- It overrides the second method, introduces another one and binds the field again. -/
def derivedClass : HlTypeObj where
  name := [66]
  super := some 0
  fields := []
  protos := [⟨[99], 70, 3, 1⟩, ⟨[100], 80, 4, -1⟩]
  bindings := [0, 5]
  globalValue := none
  rt := ⟨[], [], 0⟩

def derivedModule : HlModule :=
  { patchedModule with
    types := [⟨.hObj, .obj loadedClass, true⟩, ⟨.hObj, .obj derivedClass, true⟩, ⟨.hDyn, .null, true⟩]
    functionsTypes := List.replicate 6 none
    functionsPtrs := [some 10, some 11, some 12, some 13, some 14, some 15] }

theorem class_tables_agree_derived : ∃ c proto,
    objProto derivedModule (fun _ => 99) 2 2 1 = some (c, proto) ∧ proto.methods = [some 10, some 13, some 14] ∧
      TablesAgree derivedModule 1 derivedClass [(0, loadedClass)] c proto := by
  have hbases : Bases derivedModule 1 [(1, derivedClass), (0, loadedClass)] := .derived rfl rfl (.root rfl rfl)
  have hkeeps : KeepsOverrides [(1, derivedClass), (0, loadedClass)] := by
    simp [KeepsOverrides, derivedClass, loadedClass]
  have honce : ∀ d ∈ [(1, derivedClass), (0, loadedClass)], d.2.DeclaresOnce := by
    refine List.forall_mem_cons.2 ⟨⟨.nil, ?_, ?_, ?_, ?_⟩, List.forall_mem_singleton.2 ⟨?_, ?_, ?_, ?_, ?_⟩⟩ <;>
      first | decide | simp [loadedClass]
  obtain ⟨c, proto, hproto, hmethods⟩ : ∃ c proto, objProto derivedModule (fun _ => 99) 2 2 1 = some (c, proto) ∧
      proto.methods = [some 10, some 13, some 14] := ⟨_, _, rfl, rfl⟩
  exact ⟨c, proto, hproto, hmethods, (class_tables_agree hbases hkeeps honce).1 2 2 c proto hproto⟩

def repeatingClass : HlTypeObj :=
  { loadedClass with
    fields := [⟨[97], 90, 2⟩]
    protos := [⟨[98], 60, 0, 0⟩, ⟨[98], 60, 1, 0⟩]
    bindings := [0, 2, 0, 3] }

def rebindingClass : HlTypeObj :=
  { derivedClass with
    protos := []
    bindings := [0, 5] }

def repeatingModule : HlModule :=
  { derivedModule with
    types := [⟨.hObj, .obj repeatingClass, true⟩, ⟨.hObj, .obj rebindingClass, true⟩, ⟨.hDyn, .null, true⟩] }

/-- The lookup of the name leads to another function than the prototype index, and the second binding of the base is
left after the one of the derived class. -/
theorem repeated_declarations : Bases repeatingModule 1 [(1, rebindingClass), (0, repeatingClass)] ∧
    KeepsOverrides [(1, rebindingClass), (0, repeatingClass)] ∧ ∃ c proto e,
      objProto repeatingModule (fun _ => 99) 2 2 1 = some (c, proto) ∧ resolveField c.lookups 60 = some e ∧
        e.fieldIndex = -1 ∧ proto.methods = [some 10, some 11] ∧ proto.vobjProto = [some 11] ∧
          proto.bindings.map (fun b => (b.fid, b.mid)) = [(0, 5), (0, 3)] := by
  refine ⟨.derived rfl rfl (.root rfl rfl), ?_, _, _, _, rfl, rfl, rfl, rfl, rfl, rfl⟩
  simp [KeepsOverrides, rebindingClass, repeatingClass]

end HashLink
