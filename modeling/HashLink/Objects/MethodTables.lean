import HashLink.Objects.ProtoBuilt

/-!
The numbers that methods get. `hl_get_obj_rt` counts the methods a class introduces and notes their numbers in its
lookup; `hl_get_obj_proto` counts them again when it fills in the methods, and takes the number of an overriding
method from the lookups of the base.

The tables of a hierarchy. A method is called through its prototype index or through the number that the lookup of
its name has, and both lead to the most derived one; a binding is that of the most derived class which has one for
the field.
-/

namespace HashLink

open SortedTable

def HlObjProto.isMethod (p : HlObjProto) : Bool := p.pindex ≠ hlProtoTypedEntry

/-- The methods that a class introduces, where its bases have `parentProtos` prototype indexes. -/
def HlTypeObj.introduced (obj : HlTypeObj) (parentProtos : Int) : List HlObjProto :=
  obj.protos.filter fun p => !overrides parentProtos p

def HlTypeObj.namedFields (obj : HlTypeObj) : List HlObjField := obj.fields.filter fun f => f.name ≠ []

/-- `nlookup` of `hl_get_obj_rt`: the fields and the methods it counts first, less the fields it then finds to have
no name. -/
def HlTypeObj.nlookup (obj : HlTypeObj) (parentProtos : Int) : Int :=
  (obj.fields.length + (obj.introduced parentProtos).length : Nat) -
    ((obj.fields.filter fun f => f.name = []).length : Nat)

/-- A class declares each name, each prototype index and each binding once. -/
structure HlTypeObj.DeclaresOnce (obj : HlTypeObj) : Prop where
  fields : obj.fields.Pairwise NamesApart
  methods : obj.protos.Pairwise fun p q => p.isMethod → q.isMethod → p.hashedName ≠ q.hashedName
  apart : ∀ f ∈ obj.fields, f.name ≠ [] → ∀ p ∈ obj.protos, p.isMethod → f.hashedName ≠ p.hashedName
  indexes : obj.protos.Pairwise fun p q => 0 ≤ p.pindex → p.pindex ≠ q.pindex
  bindings : (obj.bindingPairs.map Prod.fst).Nodup

section

variable {m : HlModule} {obj : HlTypeObj} {parentProtos : Int}

theorem overrides_eq_false {p : HlObjProto} : overrides parentProtos p = false ↔
    p.isMethod ∧ ¬(0 ≤ p.pindex ∧ p.pindex < parentProtos) := by
  simp only [overrides, HlObjProto.isMethod, Bool.or_eq_false_iff, Bool.and_eq_false_iff, decide_eq_false_iff_not,
    ne_eq, decide_not, Bool.not_eq_true']
  omega

theorem mem_introduced {p : HlObjProto} : p ∈ obj.introduced parentProtos ↔
    p ∈ obj.protos ∧ p.isMethod ∧ ¬(0 ≤ p.pindex ∧ p.pindex < parentProtos) := by
  rw [HlTypeObj.introduced, List.mem_filter, Bool.not_eq_true', overrides_eq_false]

theorem HlTypeObj.DeclaresOnce.eq_of_name (h : obj.DeclaresOnce) {p q : HlObjProto} (hp : p ∈ obj.protos)
    (hq : q ∈ obj.protos) (hp' : p.isMethod) (hq' : q.isMethod) (hname : p.hashedName = q.hashedName) : p = q := by
  by_contra hne
  have hsymm : Std.Symm fun p q : HlObjProto => p.isMethod → q.isMethod → p.hashedName ≠ q.hashedName :=
    ⟨fun _ _ h hp hq heq => h hq hp heq.symm⟩
  exact h.methods.forall hp hq hne hp' hq' hname

theorem HlTypeObj.DeclaresOnce.eq_of_index (h : obj.DeclaresOnce) {p q : HlObjProto} (hp : p ∈ obj.protos)
    (hq : q ∈ obj.protos) (hindex : 0 ≤ p.pindex) (heq : p.pindex = q.pindex) : p = q := by
  by_contra hne
  have hsymm : Std.Symm fun p q : HlObjProto => 0 ≤ p.pindex → p.pindex ≠ q.pindex :=
    ⟨fun _ _ h hq heq => h (heq ▸ hq) heq.symm⟩
  exact h.indexes.forall hp hq hne hindex heq

section Lookup

/-- The entry of the method with the number `i`. -/
def methodEntry (m : HlModule) (p : HlObjProto) (i : Nat) : HlFieldLookup :=
  ⟨p.hashedName, (m.functionsTypes.getD p.findex.toNat none).getD 0, -((i : Int) + 1)⟩

theorem mem_layoutMethods {protos : List HlObjProto} {layout : MethodLayout} {e : HlFieldLookup} :
    e ∈ (protos.foldl (layoutMethod m parentProtos) layout).lookup ↔
      e ∈ layout.lookup ∨ ∃ j p, (protos.filter fun p => !overrides parentProtos p)[j]? = some p ∧
        e = methodEntry m p (layout.nmethods + j) := by
  induction protos generalizing layout with
  | nil => simp
  | cons p protos ih =>
    rw [List.foldl_cons, ih]
    cases hover : overrides parentProtos p with
    | true =>
      rw [List.filter_cons_of_neg (by simp [hover]), layoutMethod, if_pos hover]
    | false =>
      have hlookup : (layoutMethod m parentProtos layout p).lookup =
          insert HlFieldLookup.hashedName layout.lookup (methodEntry m p layout.nmethods) := by
        rw [layoutMethod, if_neg (by simp [hover])]
        rfl
      have hcount : (layoutMethod m parentProtos layout p).nmethods = layout.nmethods + 1 := by
        rw [layoutMethod, if_neg (by simp [hover])]
      rw [List.filter_cons_of_pos (by simp [hover]), hlookup, hcount, mem_insert]
      constructor
      · rintro ((rfl | hold) | ⟨j, q, hq, rfl⟩)
        · exact .inr ⟨0, p, rfl, rfl⟩
        · exact .inl hold
        · exact .inr ⟨j + 1, q, hq, by rw [Nat.add_assoc, Nat.add_comm 1 j]⟩
      · rintro (hold | ⟨_ | j, q, hq, rfl⟩)
        · exact .inl (.inr hold)
        · cases hq
          exact .inl (.inl rfl)
        · exact .inr ⟨j, q, hq, by rw [Nat.add_assoc, Nat.add_comm 1 j]⟩

theorem length_foldl_insert {α : Type} (key : α → Int) (l as : List α) :
    (as.foldl (insert key) l).length = l.length + as.length := by
  induction as generalizing l with
  | nil => rfl
  | cons a as ih =>
    rw [List.foldl_cons, ih, insert_perm.length_eq, List.length_cons, List.length_cons]
    omega

theorem mem_foldl_insert {α : Type} {key : α → Int} {l as : List α} {b : α} :
    b ∈ as.foldl (insert key) l ↔ b ∈ l ∨ b ∈ as := by
  induction as generalizing l with
  | nil => simp
  | cons a as ih => rw [List.foldl_cons, ih, mem_insert, List.mem_cons, or_comm (a := b = a), or_assoc]

/-- What the lookup of a class has, where its bases have `count` methods. -/
structure OwnLookup (m : HlModule) (obj : HlTypeObj) (parentProtos : Int) (count : Nat) (lookup : List HlFieldLookup) :
    Prop where
  sorted : Sorted HlFieldLookup.hashedName lookup
  methods : ∀ e, e.fieldIndex < 0 →
    (e ∈ lookup ↔ ∃ j p, (obj.introduced parentProtos)[j]? = some p ∧ e = methodEntry m p (count + j))
  fields : ∀ e ∈ lookup, 0 ≤ e.fieldIndex → ∃ f ∈ obj.namedFields, e.hashedName = f.hashedName

theorem sorted_lookupNames {l : List HlFieldLookup} :
    Sorted Prod.fst (lookupNames l) ↔ Sorted HlFieldLookup.hashedName l := List.pairwise_map

theorem nameTable_eq (obj : HlTypeObj) : nameTable parentProtos obj =
    (obj.introduced parentProtos |>.map fun p => (p.hashedName, true)).foldl (insert Prod.fst)
      ((obj.namedFields.map fun f => (f.hashedName, false)).foldl (insert Prod.fst) []) := by
  rw [nameTable, List.foldl_map, List.foldl_map]
  rfl

theorem namesSorted (parentProtos : Int) (h : obj.DeclaresOnce) : Sorted Prod.fst (nameTable parentProtos obj) := by
  have hfields : ((obj.namedFields.map fun f => (f.hashedName, false)).map Prod.fst).Nodup := by
    rw [List.map_map]
    refine List.Pairwise.map _ (fun f g hne => hne) ((h.fields.filter _).imp_of_mem fun {f g} hf hg hne => ?_)
    exact hne (by simpa using (List.mem_filter.1 hf).2) (by simpa using (List.mem_filter.1 hg).2)
  have hmethods : (((obj.introduced parentProtos).map fun p => (p.hashedName, true)).map Prod.fst).Nodup := by
    rw [List.map_map]
    refine List.Pairwise.map _ (fun p q hne => hne) ((h.methods.filter _).imp_of_mem fun {p q} hp hq hne => ?_)
    exact hne (mem_introduced.1 hp).2.1 (mem_introduced.1 hq).2.1
  obtain ⟨hsorted, hmem⟩ := foldl_insert Prod.fst (l := ([] : List (Int × Bool))) .nil hfields
    (fun _ _ _ hb => absurd hb List.not_mem_nil)
  rw [nameTable_eq]
  refine (foldl_insert Prod.fst hsorted hmethods fun a ha b hb => ?_).1
  obtain ⟨p, hp, rfl⟩ := List.mem_map.1 ha
  obtain ⟨f, hf, rfl⟩ := List.mem_map.1 (((hmem b).1 hb).resolve_left List.not_mem_nil)
  have hf' := List.mem_filter.1 hf
  have hp' := mem_introduced.1 hp
  exact h.apart f hf'.1 (by simpa using hf'.2) p hp'.1 hp'.2.1

variable {packed : Nat → Option ObjRt} {kind : HlTypeKind} {parent : Option ObjRt} {rt : ObjRt}

theorem length_lookup (hparent : 0 ≤ (parent.map (·.nproto)).getD 0)
    (h : layoutClass m packed kind obj parent = some rt) :
    (rt.lookup.length : Int) = obj.nlookup ((parent.map (·.nproto)).getD 0) := by
  have hlength := congrArg List.length (layoutClass_laidOut hparent h).names
  rw [lookupNames, List.length_map, nameTable_eq, length_foldl_insert, length_foldl_insert, List.length_map,
    List.length_map, List.length_nil] at hlength
  have hfields : obj.fields.length = obj.namedFields.length + (obj.fields.filter fun f => f.name = []).length := by
    rw [HlTypeObj.namedFields, ← List.countP_eq_length_filter, ← List.countP_eq_length_filter,
      List.length_eq_countP_add_countP fun f : HlObjField => decide (f.name ≠ [])]
    simp
  rw [HlTypeObj.nlookup, hlength]
  omega

theorem layoutClass_lookup (honce : obj.DeclaresOnce) (hparent : 0 ≤ (parent.map (·.nproto)).getD 0)
    (h : layoutClass m packed kind obj parent = some rt) :
    OwnLookup m obj ((parent.map (·.nproto)).getD 0) ((parent.map (·.nmethods)).getD 0) rt.lookup := by
  have hnames := (layoutClass_laidOut hparent h).names
  obtain ⟨fields, hfields, h⟩ := Option.bind_eq_some_iff.mp h
  have hlaid := layoutFields_laid hfields
  have hoffsets := hlaid.offsets fun e he => absurd he List.not_mem_nil
  have hfieldNames : ∀ e ∈ fields.lookup, ∃ f ∈ obj.namedFields, e.hashedName = f.hashedName := by
    intro e he
    have hmem : (e.hashedName, decide (e.fieldIndex < 0)) ∈ lookupNames fields.lookup := List.mem_map_of_mem he
    rw [hlaid.names, ← List.foldl_map (f := fun f : HlObjField => (f.hashedName, false)) (g := insert Prod.fst),
      mem_foldl_insert] at hmem
    obtain ⟨f, hf, heq⟩ := List.mem_map.1 (hmem.resolve_left List.not_mem_nil)
    exact ⟨f, hf, (congrArg Prod.fst heq).symm⟩
  cases h
  refine ⟨?_, fun e hneg => ?_, fun e he hpos => ?_⟩
  · have hsorted := namesSorted ((parent.map (·.nproto)).getD 0) honce
    rw [← hnames] at hsorted
    exact (sorted_lookupNames).1 hsorted
  · rw [mem_layoutMethods]
    refine or_iff_right fun he => ?_
    have := hoffsets e he
    omega
  · rcases mem_layoutMethods.1 he with he | ⟨j, p, hp, rfl⟩
    · exact hfieldNames e he
    · exact absurd hpos (by show ¬0 ≤ -((_ : Int) + 1); omega)

end Lookup

section Methods

variable {lookups : List (List HlFieldLookup)} {p : HlObjProto} {methods methods' : List (Option Nat)}
  {next next' : Nat}

/-- A method with the place of an inherited one of its name. -/
def takes (lookups : List (List HlFieldLookup)) (parentProtos : Int) (i : Int) (p : HlObjProto) : Bool :=
  0 ≤ p.pindex && p.pindex < parentProtos &&
    (resolveField lookups p.hashedName).map (fun e => -e.fieldIndex - 1) = some i

theorem protoMethod_cases (h : protoMethod m lookups parentProtos (methods, next) p = some (methods', next')) :
    (¬p.isMethod ∧ methods' = methods ∧ next' = next) ∨
      (∃ e code, p.isMethod ∧ 0 ≤ p.pindex ∧ p.pindex < parentProtos ∧ resolveField lookups p.hashedName = some e ∧
        tableAt m.functionsPtrs p.findex = some code ∧ setAt methods (-e.fieldIndex - 1) code = some methods' ∧
        next' = next) ∨
      ∃ code, overrides parentProtos p = false ∧ tableAt m.functionsPtrs p.findex = some code ∧
        setAt methods next code = some methods' ∧ next' = next + 1 := by
  unfold protoMethod at h
  split at h
  · next htyped =>
    cases h
    exact .inl ⟨by simp [HlObjProto.isMethod, htyped], rfl, rfl⟩
  · next htyped =>
    have hmethod : p.isMethod := by simpa [HlObjProto.isMethod] using htyped
    split at h
    · next hindex =>
      obtain ⟨e, he, h⟩ := Option.bind_eq_some_iff.1 h
      obtain ⟨code, hcode, h⟩ := Option.bind_eq_some_iff.1 h
      obtain ⟨methods', hset, h⟩ := Option.bind_eq_some_iff.1 h
      cases h
      exact .inr (.inl ⟨e, code, hmethod, hindex.1, hindex.2, he, hcode, hset, rfl⟩)
    · next hindex =>
      obtain ⟨code, hcode, h⟩ := Option.bind_eq_some_iff.1 h
      obtain ⟨methods', hset, h⟩ := Option.bind_eq_some_iff.1 h
      cases h
      exact .inr (.inr ⟨code, overrides_eq_false.2 ⟨hmethod, hindex⟩, hcode, hset, rfl⟩)

/-- The methods after the loop: those that are introduced follow the inherited ones, and these have the last method
that takes their place. -/
structure MethodsFilled (m : HlModule) (lookups : List (List HlFieldLookup)) (parentProtos : Int)
    (protos : List HlObjProto) (methods : List (Option Nat)) (next : Nat) (methods' : List (Option Nat)) : Prop where
  length : methods'.length = methods.length
  inherited : ∀ i : Int, 0 ≤ i → i < next → tableAt methods' i =
    match protos.reverse.find? (takes lookups parentProtos i) with
    | some p => tableAt m.functionsPtrs p.findex
    | none => tableAt methods i
  introduced : ∀ j p, (protos.filter fun p => !overrides parentProtos p)[j]? = some p →
    tableAt methods' (next + j : Nat) = tableAt m.functionsPtrs p.findex
  resolved : ∀ p ∈ protos, 0 ≤ p.pindex → p.pindex < parentProtos →
    ∃ e, resolveField lookups p.hashedName = some e ∧ e.fieldIndex < 0

theorem takes_eq_false {i : Int} (h : ¬(0 ≤ p.pindex ∧ p.pindex < parentProtos)) :
    takes lookups parentProtos i p = false := by
  rw [takes, Bool.and_eq_false_iff, Bool.and_eq_false_iff, decide_eq_false_iff_not, decide_eq_false_iff_not]
  omega

theorem not_takes {n : Nat} (hplaced : MethodsPlaced lookups n) (hle : n ≤ next) :
    takes lookups parentProtos next p = false := by
  rw [takes, Bool.and_eq_false_iff, decide_eq_false_iff_not]
  refine .inr fun h => ?_
  obtain ⟨e, he, hplace⟩ := Option.map_eq_some_iff.1 h
  have hlt := hplaced _ e he
  omega

theorem protoMethods_filled {protos : List HlObjProto} {state : List (Option Nat) × Nat} {n : Nat}
    (hplaced : MethodsPlaced lookups n) (hle : n ≤ next)
    (h : protos.foldlM (protoMethod m lookups parentProtos) (methods, next) = some state) :
    MethodsFilled m lookups parentProtos protos methods next state.1 := by
  induction protos generalizing methods next with
  | nil =>
    cases h
    exact ⟨rfl, fun _ _ _ => rfl, fun _ _ hp => (by simp at hp), fun _ hp => absurd hp List.not_mem_nil⟩
  | cons p protos ih =>
    obtain ⟨⟨methods', next'⟩, hstep, hrest⟩ := Option.bind_eq_some_iff.1 h
    rcases protoMethod_cases hstep with ⟨htyped, rfl, rfl⟩ | ⟨e, code, hmethod, hpos, hlt, he, hcode, hset, rfl⟩ |
      ⟨code, hover, hcode, hset, rfl⟩
    · have hindex : ¬(0 ≤ p.pindex ∧ p.pindex < parentProtos) := by
        have : p.pindex = hlProtoTypedEntry := by simpa [HlObjProto.isMethod] using htyped
        rw [this, hlProtoTypedEntry]
        omega
      have hover : overrides parentProtos p = true := by
        rw [← Bool.not_eq_false, overrides_eq_false]
        exact fun h => htyped h.1
      obtain ⟨hlength, hinherited, hintroduced, hresolved⟩ := ih hle hrest
      refine ⟨hlength, fun i hi hlt => ?_, fun j q hq => ?_, fun q hq hpos hlt => ?_⟩
      · rw [hinherited i hi hlt, List.reverse_cons, List.find?_append, List.find?_singleton,
          if_neg (by rw [takes_eq_false hindex]; decide), Option.or_none]
      · rw [List.filter_cons_of_neg (by simp [hover])] at hq
        exact hintroduced j q hq
      · rcases List.mem_cons.1 hq with rfl | hq
        · exact absurd ⟨hpos, hlt⟩ hindex
        · exact hresolved q hq hpos hlt
    · have hover : overrides parentProtos p = true := by
        rw [← Bool.not_eq_false, overrides_eq_false]
        exact fun h => h.2 ⟨hpos, hlt⟩
      obtain ⟨hplace, -, -⟩ := setAt_eq_some hset
      obtain ⟨hlength, hinherited, hintroduced, hresolved⟩ := ih hle hrest
      refine ⟨hlength.trans (length_setAt hset), fun i hi hi' => ?_, fun j q hq => ?_, fun q hq hpos' hlt' => ?_⟩
      · rw [hinherited i hi hi', List.reverse_cons, List.find?_append, List.find?_singleton]
        cases protos.reverse.find? (takes lookups parentProtos i) with
        | some q => rfl
        | none =>
          have htakes : takes lookups parentProtos i p = decide (-e.fieldIndex - 1 = i) := by
            simp [takes, hpos, hlt, he]
          rw [Option.none_or, htakes]
          dsimp only
          rw [tableAt_setAt hset hi]
          by_cases heq : -e.fieldIndex - 1 = i
          · rw [if_pos heq, if_pos (decide_eq_true heq)]
            exact hcode.symm
          · rw [if_neg heq, if_neg (by simp [heq])]
      · rw [List.filter_cons_of_neg (by simp [hover])] at hq
        exact hintroduced j q hq
      · rcases List.mem_cons.1 hq with rfl | hq
        · exact ⟨e, he, by omega⟩
        · exact hresolved q hq hpos' hlt'
    · have hindex := (overrides_eq_false.1 hover).2
      obtain ⟨hlength, hinherited, hintroduced, hresolved⟩ := ih (Nat.le_succ_of_le hle) hrest
      refine ⟨hlength.trans (length_setAt hset), fun i hi hlt => ?_, fun j q hq => ?_, fun q hq hpos hlt => ?_⟩
      · rw [hinherited i hi (by omega), List.reverse_cons, List.find?_append, List.find?_singleton,
          if_neg (by rw [takes_eq_false hindex]; decide), Option.or_none, tableAt_setAt hset hi, if_neg (by omega)]
      · rw [List.filter_cons_of_pos (by simp [hover])] at hq
        cases j with
        | zero =>
          cases hq
          have hnone : protos.reverse.find? (takes lookups parentProtos (next : Int)) = none :=
            List.find?_eq_none.2 fun q _ => by rw [not_takes hplaced hle]; decide
          rw [Nat.add_zero, hinherited next (by omega) (by omega), hnone]
          dsimp only
          rw [tableAt_setAt hset (by omega), if_pos rfl, hcode]
        | succ j =>
          rw [← Nat.add_assoc, Nat.add_right_comm]
          exact hintroduced j q hq
      · rcases List.mem_cons.1 hq with rfl | hq
        · exact absurd ⟨hpos, hlt⟩ hindex
        · exact hresolved q hq hpos hlt

end Methods

end

def nameMethod : List (Nat × HlTypeObj) → Int → Option HlObjProto
  | [], _ => none
  | (_, obj) :: base, name => (obj.protos.find? fun p => p.isMethod && p.hashedName = name).or (nameMethod base name)

def fieldBinding : List (Nat × HlTypeObj) → Int → Option (Int × Int)
  | [], _ => none
  | (_, obj) :: base, fid => (obj.bindingPairs.find? fun b => b.1 = fid).or (fieldBinding base fid)

/-- A method of a class overrides one of its bases that is in the prototype, when it has its name or its prototype
index: then it has both. -/
def KeepsOverrides : List (Nat × HlTypeObj) → Prop
  | [] => True
  | (_, obj) :: base =>
    (∀ q ∈ obj.protos, q.isMethod → ∀ c ∈ base, ∀ p ∈ c.2.protos, 0 ≤ p.pindex →
      (q.hashedName = p.hashedName ↔ q.pindex = p.pindex)) ∧ KeepsOverrides base

def NoField (chain : List (Nat × HlTypeObj)) (name : Int) : Prop :=
  ∀ c ∈ chain, ∀ f ∈ c.2.namedFields, f.hashedName ≠ name

variable {m : HlModule} {t : Nat} {obj : HlTypeObj} {base chain : List (Nat × HlTypeObj)} {name k : Int}
  {p q : HlObjProto}

theorem nameMethod_spec (h : nameMethod chain name = some p) :
    p.isMethod ∧ p.hashedName = name ∧ ∃ c ∈ chain, p ∈ c.2.protos := by
  induction chain with
  | nil => cases h
  | cons c base ih =>
    rcases Option.or_eq_some_iff.1 h with hown | ⟨-, hbase⟩
    · have hp := List.find?_some hown
      rw [Bool.and_eq_true, decide_eq_true_eq] at hp
      exact ⟨hp.1, hp.2, c, List.mem_cons_self, List.mem_of_find?_eq_some hown⟩
    · obtain ⟨hmethod, hname, d, hd, hmem⟩ := ih hbase
      exact ⟨hmethod, hname, d, List.mem_cons_of_mem _ hd, hmem⟩

theorem slotMethod_spec (h : slotMethod chain k = some p) : p.pindex = k ∧ ∃ c ∈ chain, p ∈ c.2.protos := by
  induction chain with
  | nil => cases h
  | cons c base ih =>
    rcases Option.or_eq_some_iff.1 h with hown | ⟨-, hbase⟩
    · exact ⟨by simpa using List.find?_some hown, c, List.mem_cons_self,
        List.mem_reverse.1 (List.mem_of_find?_eq_some hown)⟩
    · obtain ⟨hindex, d, hd, hmem⟩ := ih hbase
      exact ⟨hindex, d, List.mem_cons_of_mem _ hd, hmem⟩

theorem isMethod_of_index (h : 0 ≤ p.pindex) : p.isMethod := by
  have hne : p.pindex ≠ hlProtoTypedEntry := by
    unfold hlProtoTypedEntry
    omega
  simpa [HlObjProto.isMethod] using hne

theorem find_name (honce : obj.DeclaresOnce) (hq : q ∈ obj.protos) (hmethod : q.isMethod) :
    (obj.protos.find? fun p => p.isMethod && p.hashedName = q.hashedName) = some q := by
  cases hfind : obj.protos.find? fun p => p.isMethod && p.hashedName = q.hashedName with
  | none => exact absurd (List.find?_eq_none.1 hfind q hq) (by simp [hmethod])
  | some p =>
    have hp := List.find?_some hfind
    rw [Bool.and_eq_true, decide_eq_true_eq] at hp
    rw [honce.eq_of_name (List.mem_of_find?_eq_some hfind) hq hp.1 hmethod hp.2]

theorem find_index (honce : obj.DeclaresOnce) (hq : q ∈ obj.protos) (hindex : 0 ≤ q.pindex) :
    (obj.protos.reverse.find? fun p => p.pindex = q.pindex) = some q := by
  cases hfind : obj.protos.reverse.find? fun p => p.pindex = q.pindex with
  | none => exact absurd (List.find?_eq_none.1 hfind q (List.mem_reverse.2 hq)) (by simp)
  | some p =>
    have hp : p.pindex = q.pindex := by simpa using List.find?_some hfind
    have hmem := List.mem_reverse.1 (List.mem_of_find?_eq_some hfind)
    rw [honce.eq_of_index hq hmem hindex hp.symm]

theorem slotMethod_of_name (hkeeps : KeepsOverrides chain) (honce : ∀ c ∈ chain, c.2.DeclaresOnce)
    (h : nameMethod chain name = some p) (hindex : 0 ≤ p.pindex) : slotMethod chain p.pindex = some p := by
  induction chain with
  | nil => cases h
  | cons c base ih =>
    obtain ⟨hown, hrest⟩ := hkeeps
    rw [slotMethod]
    rcases Option.or_eq_some_iff.1 h with hfind | ⟨hnone, hbase⟩
    · rw [find_index (honce c List.mem_cons_self) (List.mem_of_find?_eq_some hfind) hindex]
      rfl
    · obtain ⟨-, hname, d, hd, hmem⟩ := nameMethod_spec hbase
      have hslot : (c.2.protos.reverse.find? fun q => q.pindex = p.pindex) = none := by
        refine List.find?_eq_none.2 fun q hq heq => ?_
        have heq : q.pindex = p.pindex := of_decide_eq_true heq
        have hq' := List.mem_reverse.1 hq
        have hmethod : q.isMethod := isMethod_of_index (by omega)
        have hsame := (hown q hq' hmethod d hd p hmem hindex).2 heq
        exact absurd (List.find?_eq_none.1 hnone q hq') (by simp [hmethod, hsame, hname])
      rw [hslot, Option.none_or]
      exact ih hrest (fun d hd => honce d (List.mem_cons_of_mem _ hd)) hbase

theorem nameMethod_of_slot (hkeeps : KeepsOverrides chain) (honce : ∀ c ∈ chain, c.2.DeclaresOnce) (hk : 0 ≤ k)
    (h : slotMethod chain k = some p) : nameMethod chain p.hashedName = some p := by
  induction chain with
  | nil => cases h
  | cons c base ih =>
    obtain ⟨hown, hrest⟩ := hkeeps
    obtain ⟨hindex, -⟩ := slotMethod_spec h
    have hmethod : p.isMethod := isMethod_of_index (by omega)
    rw [nameMethod]
    rcases Option.or_eq_some_iff.1 h with hfind | ⟨hnone, hbase⟩
    · rw [find_name (honce c List.mem_cons_self) (List.mem_reverse.1 (List.mem_of_find?_eq_some hfind)) hmethod]
      rfl
    · obtain ⟨-, d, hd, hmem⟩ := slotMethod_spec hbase
      have hname : (c.2.protos.find? fun q => q.isMethod && q.hashedName = p.hashedName) = none := by
        refine List.find?_eq_none.2 fun q hq heq => ?_
        rw [Bool.and_eq_true, decide_eq_true_eq] at heq
        have hsame := (hown q hq heq.1 d hd p hmem (by omega)).1 heq.2
        exact absurd (List.find?_eq_none.1 hnone q (List.mem_reverse.2 hq)) (by simp [hsame, hindex])
      rw [hname, Option.none_or]
      exact ih hrest (fun d hd => honce d (List.mem_cons_of_mem _ hd)) hbase

/-- The lookups and the methods of a hierarchy: the number of a name is that of the most derived method. -/
structure MethodTable (m : HlModule) (chain : List (Nat × HlTypeObj)) (lookups : List (List HlFieldLookup))
    (methods : List (Option Nat)) : Prop where
  placed : MethodsPlaced lookups methods.length
  apart : ∀ name name' e e', resolveField lookups name = some e → resolveField lookups name' = some e' →
    e.fieldIndex < 0 → e.fieldIndex = e'.fieldIndex → name = name'
  found : ∀ name e, resolveField lookups name = some e → e.fieldIndex < 0 → ∃ p, nameMethod chain name = some p ∧
    tableAt methods (-e.fieldIndex - 1) = tableAt m.functionsPtrs p.findex
  known : ∀ name p, nameMethod chain name = some p → NoField chain name →
    ∃ e, resolveField lookups name = some e ∧ e.fieldIndex < 0
  filled : ∀ i : Int, 0 ≤ i → i < methods.length →
    ∃ c ∈ chain, ∃ p ∈ c.2.protos, tableAt methods i = tableAt m.functionsPtrs p.findex

theorem methodTable_nil : MethodTable m [] [] [] where
  placed := by
    intro name e he
    cases he
  apart := by
    intro name name' e e' he
    cases he
  found := by
    intro name e he
    cases he
  known := by
    intro name p hp
    cases hp
  filled := fun i hi hlt => absurd hlt (by show ¬i < 0; omega)

variable {lookups : List (List HlFieldLookup)} {methods methods' : List (Option Nat)} {own : List HlFieldLookup}

theorem resolveField_cons : resolveField (own :: lookups) name =
    (find HlFieldLookup.hashedName own name).or (resolveField lookups name) := by
  rw [resolveField, List.findSome?_cons]
  cases find HlFieldLookup.hashedName own name <;> rfl

theorem MethodTable.derived (h : MethodTable m base lookups methods) (honce : obj.DeclaresOnce)
    (hown : OwnLookup m obj (topProto base) methods.length own)
    (hfilled : MethodsFilled m lookups (topProto base) obj.protos
      (methods ++ List.replicate (obj.introduced (topProto base)).length none) methods.length methods') :
    MethodTable m ((t, obj) :: base) (own :: lookups) methods' := by
  have hlength : methods'.length = methods.length + (obj.introduced (topProto base)).length := by
    rw [hfilled.length, List.length_append, List.length_replicate]
  -- an own entry of a method is that of an introduced one
  have hentry : ∀ {name e}, find HlFieldLookup.hashedName own name = some e → e.fieldIndex < 0 →
      ∃ j p, (obj.introduced (topProto base))[j]? = some p ∧ p.hashedName = name ∧
        e.fieldIndex = -((methods.length + j : Nat) + 1 : Int) := by
    intro name e he hneg
    obtain ⟨hmem, hname⟩ := find_some he
    obtain ⟨j, p, hp, rfl⟩ := (hown.methods e hneg).1 hmem
    exact ⟨j, p, hp, hname, rfl⟩
  have hnew : ∀ {q}, q ∈ obj.introduced (topProto base) → find HlFieldLookup.hashedName own q.hashedName ≠ none := by
    intro q hq hnone
    obtain ⟨j, hj⟩ := List.getElem?_of_mem hq
    have hneg : (methodEntry m q (methods.length + j)).fieldIndex < 0 := by
      show -((_ : Int) + 1) < 0
      omega
    exact (find_eq_none_iff hown.sorted).1 hnone _ ((hown.methods _ hneg).2 ⟨j, q, hj, rfl⟩) rfl
  -- a name that is resolved in the bases is not introduced
  have hover : ∀ {name q}, find HlFieldLookup.hashedName own name = none → q ∈ obj.protos → q.isMethod →
      q.hashedName = name → 0 ≤ q.pindex ∧ q.pindex < topProto base := by
    intro name q hnone hq hmethod hname
    by_contra hindex
    exact hnew (mem_introduced.2 ⟨hq, hmethod, hindex⟩) (by rw [hname]; exact hnone)
  have hplace : ∀ {name e}, resolveField lookups name = some e → e.fieldIndex < 0 →
      0 ≤ -e.fieldIndex - 1 ∧ -e.fieldIndex - 1 < methods.length := fun he hneg =>
    ⟨by omega, h.placed _ _ he hneg⟩
  -- an inherited place is taken by the method of its name
  have htakes : ∀ {name e q}, resolveField lookups name = some e → e.fieldIndex < 0 →
      takes lookups (topProto base) (-e.fieldIndex - 1) q = true → q.isMethod ∧ q.hashedName = name := by
    intro name e q he hneg htakes
    simp only [takes, Bool.and_eq_true, decide_eq_true_eq] at htakes
    obtain ⟨e', he', heq⟩ := Option.map_eq_some_iff.1 htakes.2
    exact ⟨isMethod_of_index htakes.1.1, (h.apart _ _ _ _ he he' hneg (by omega)).symm⟩
  refine ⟨fun name e he hneg => ?_, fun name name' e e' he he' hneg heq => ?_, fun name e he hneg => ?_,
    fun name p hp hfield => ?_, fun i hi hlt => ?_⟩
  · rw [resolveField_cons] at he
    rcases Option.or_eq_some_iff.1 he with he | ⟨-, he⟩
    · obtain ⟨j, p, hp, -, hindex⟩ := hentry he hneg
      have hj := (List.getElem?_eq_some_iff.1 hp).1
      omega
    · have := hplace he hneg
      omega
  · rw [resolveField_cons] at he he'
    rcases Option.or_eq_some_iff.1 he with he | ⟨-, he⟩ <;>
      rcases Option.or_eq_some_iff.1 he' with he' | ⟨-, he'⟩
    · obtain ⟨j, p, hp, hname, hindex⟩ := hentry he hneg
      obtain ⟨j', p', hp', hname', hindex'⟩ := hentry he' (by omega)
      obtain rfl : j = j' := by omega
      cases hp.symm.trans hp'
      exact hname.symm.trans hname'
    · obtain ⟨j, p, hp, hname, hindex⟩ := hentry he hneg
      have := hplace he' (by omega)
      omega
    · obtain ⟨j, p, hp, hname, hindex⟩ := hentry he' (by omega)
      have := hplace he hneg
      omega
    · exact h.apart _ _ _ _ he he' hneg heq
  · rw [resolveField_cons] at he
    rw [nameMethod]
    rcases Option.or_eq_some_iff.1 he with he | ⟨hnone, he⟩
    · obtain ⟨j, p, hp, rfl, hindex⟩ := hentry he hneg
      obtain ⟨hmem, hmethod, -⟩ := mem_introduced.1 (List.mem_of_getElem? hp)
      refine ⟨p, by rw [find_name honce hmem hmethod]; rfl, ?_⟩
      rw [← hfilled.introduced j p hp]
      congr 1
      omega
    · obtain ⟨p, hp, hcode⟩ := h.found name e he hneg
      obtain ⟨hnonneg, hlt⟩ := hplace he hneg
      have hinherited := hfilled.inherited _ hnonneg hlt
      rw [tableAt_append_replicate hnonneg (by omega), if_pos hlt] at hinherited
      rw [hinherited]
      cases hfind : obj.protos.reverse.find? (takes lookups (topProto base) (-e.fieldIndex - 1)) with
      | some q =>
        obtain ⟨hmethod, rfl⟩ := htakes he hneg (List.find?_some hfind)
        have hmem := List.mem_reverse.1 (List.mem_of_find?_eq_some hfind)
        exact ⟨q, by rw [find_name honce hmem hmethod]; rfl, rfl⟩
      | none =>
        have hnone' : (obj.protos.find? fun p => p.isMethod && p.hashedName = name) = none := by
          refine List.find?_eq_none.2 fun q hq hname => ?_
          rw [Bool.and_eq_true, decide_eq_true_eq] at hname
          obtain ⟨hpos, htop⟩ := hover hnone hq hname.1 hname.2
          refine absurd ?_ (List.find?_eq_none.1 hfind q (List.mem_reverse.2 hq))
          simp [takes, hpos, htop, hname.2, he]
        exact ⟨p, by rw [hnone']; exact hp, hcode⟩
  · rw [resolveField_cons]
    cases hfind : find HlFieldLookup.hashedName own name with
    | some e =>
      refine ⟨e, rfl, ?_⟩
      by_contra hpos
      obtain ⟨hmem, hname⟩ := find_some hfind
      obtain ⟨f, hf, heq⟩ := hown.fields e hmem (by omega)
      exact hfield _ List.mem_cons_self f hf (heq.symm.trans hname)
    | none =>
      rw [Option.none_or]
      rcases Option.or_eq_some_iff.1 hp with hfirst | ⟨-, hp⟩
      · have hname := List.find?_some hfirst
        rw [Bool.and_eq_true, decide_eq_true_eq] at hname
        have hmem := List.mem_of_find?_eq_some hfirst
        obtain ⟨hpos, htop⟩ := hover hfind hmem hname.1 hname.2
        rw [← hname.2]
        exact hfilled.resolved p hmem hpos htop
      · exact h.known name p hp fun c hc => hfield c (List.mem_cons_of_mem _ hc)
  · by_cases hold : i < methods.length
    · have hinherited := hfilled.inherited i hi hold
      rw [tableAt_append_replicate hi (by omega), if_pos hold] at hinherited
      rw [hinherited]
      cases hfind : obj.protos.reverse.find? (takes lookups (topProto base) i) with
      | some q => exact ⟨_, List.mem_cons_self, q, List.mem_reverse.1 (List.mem_of_find?_eq_some hfind), rfl⟩
      | none =>
        obtain ⟨c, hc, hcode⟩ := h.filled i hi hold
        exact ⟨c, List.mem_cons_of_mem _ hc, hcode⟩
    · obtain ⟨j, rfl⟩ : ∃ j : Nat, i = (methods.length + j : Nat) := ⟨(i - methods.length).toNat, by omega⟩
      have hj : j < (obj.introduced (topProto base)).length := by omega
      have hp := List.getElem?_eq_getElem hj
      exact ⟨_, List.mem_cons_self, _, (mem_introduced.1 (List.getElem_mem hj)).1, hfilled.introduced j _ hp⟩

/-- A field has at most one binding, that of the most derived class which binds it. -/
structure BindingTable (m : HlModule) (chain : List (Nat × HlTypeObj)) (bindings : List ObjBinding) : Prop where
  nodup : (bindings.map ObjBinding.fid).Nodup
  bound : ∀ fid b, fieldBinding chain fid = some b → (bindField m (allFields chain) b).isSome
  binding : ∀ fid, bindings.find? (fun b => b.fid = fid) = (fieldBinding chain fid).bind (bindField m (allFields chain))

theorem find?_set_fid {l : List ObjBinding} {a : ObjBinding} {i : Nat} (hnodup : (l.map ObjBinding.fid).Nodup)
    (hi : (l.map ObjBinding.fid)[i]? = some a.fid) (fid : Int) :
    (l.set i a).find? (fun b => b.fid = fid) = if a.fid = fid then some a else l.find? fun b => b.fid = fid := by
  induction l generalizing i with
  | nil => simp at hi
  | cons b l ih =>
    obtain ⟨hfresh, hnodup⟩ := List.nodup_cons.1 hnodup
    cases i with
    | zero =>
      have hb : b.fid = a.fid := by simpa using hi
      by_cases heq : a.fid = fid
      · simp [heq]
      · simp [heq, hb]
    | succ i =>
      have hi : (l.map ObjBinding.fid)[i]? = some a.fid := by simpa using hi
      have hne : b.fid ≠ a.fid := fun heq => hfresh (heq ▸ List.mem_of_getElem? hi)
      rw [List.set_cons_succ, List.find?_cons, List.find?_cons, ih hnodup hi]
      by_cases heq : a.fid = fid
      · simp [heq, show b.fid ≠ fid from heq ▸ hne]
      · simp [heq]

section Bindings

variable {fields : List HlObjField} {inherited bindings bindings' : List ObjBinding} {extra : List Int}
  {capacity : Nat} {pairs : List (Int × Int)} {b : Int × Int}

theorem protoBinding_find (hfids : bindings.map ObjBinding.fid = inherited.map ObjBinding.fid ++ extra)
    (hnodup : (bindings.map ObjBinding.fid).Nodup) (hfresh : b.1 ∉ extra)
    (h : protoBinding m fields inherited capacity bindings b = some bindings') :
    (∃ extra', bindings'.map ObjBinding.fid = inherited.map ObjBinding.fid ++ extra' ∧
        ∀ fid ∈ extra', fid ∈ extra ∨ fid = b.1) ∧
      (bindings'.map ObjBinding.fid).Nodup ∧ (bindField m fields b).isSome ∧
      ∀ fid, bindings'.find? (fun x => x.fid = fid) =
        if b.1 = fid then bindField m fields b else bindings.find? fun x => x.fid = fid := by
  unfold protoBinding at h
  cases hfind : inherited.findIdx? fun binding => binding.fid = b.1 with
  | some i =>
    rw [hfind] at h
    obtain ⟨binding, hbinding, h⟩ := Option.bind_eq_some_iff.1 h
    cases h
    have hfid := bindField_fid hbinding
    obtain ⟨hlt, hat, -⟩ := List.findIdx?_eq_some_iff_getElem.1 hfind
    have hat : inherited[i].fid = b.1 := of_decide_eq_true hat
    have hi : (bindings.map ObjBinding.fid)[i]? = some binding.fid := by
      rw [hfids, List.getElem?_append_left (by rw [List.length_map]; exact hlt), List.getElem?_map,
        List.getElem?_eq_getElem hlt, Option.map_some, hat, hfid]
    have hsame : (bindings.set i binding).map ObjBinding.fid = bindings.map ObjBinding.fid := by
      obtain ⟨hlt', hget⟩ := List.getElem?_eq_some_iff.1 hi
      rw [List.map_set, ← hget, List.set_getElem_self]
    refine ⟨⟨extra, hsame.trans hfids, fun fid hmem => .inl hmem⟩, by rw [hsame]; exact hnodup, by rw [hbinding]; rfl,
      fun fid => ?_⟩
    rw [find?_set_fid hnodup hi, hfid, hbinding]
  | none =>
    rw [hfind] at h
    dsimp only at h
    split at h
    · obtain ⟨binding, hbinding, h⟩ := Option.bind_eq_some_iff.1 h
      cases h
      have hfid := bindField_fid hbinding
      have hnew : b.1 ∉ bindings.map ObjBinding.fid := by
        rw [hfids, List.mem_append]
        rintro (hmem | hmem)
        · obtain ⟨x, hx, hxfid⟩ := List.mem_map.1 hmem
          exact absurd (List.findIdx?_eq_none_iff.1 hfind x hx) (by simp [hxfid])
        · exact hfresh hmem
      refine ⟨⟨extra ++ [b.1], ?_, fun fid hmem => ?_⟩, ?_, by rw [hbinding]; rfl, fun fid => ?_⟩
      · rw [List.map_append, hfids, List.map_singleton, hfid, List.append_assoc]
      · rcases List.mem_append.1 hmem with hmem | hmem
        · exact .inl hmem
        · exact .inr (List.mem_singleton.1 hmem)
      · rw [List.map_append, List.map_singleton, hfid]
        refine List.nodup_append.2 ⟨hnodup, List.nodup_singleton _, fun x hx y hy => ?_⟩
        rw [List.mem_singleton.1 hy]
        exact fun heq => hnew (heq ▸ hx)
      · rw [List.find?_append, List.find?_singleton, hfid, hbinding]
        by_cases heq : b.1 = fid
        · have hnone : bindings.find? (fun x => x.fid = fid) = none :=
            List.find?_eq_none.2 fun x hx hxfid =>
              hnew (heq.trans (of_decide_eq_true hxfid).symm ▸ List.mem_map_of_mem hx)
          rw [hnone, Option.none_or, if_pos (decide_eq_true heq), if_pos heq]
        · rw [if_neg (by simp [heq]), if_neg heq, Option.or_none]
    · cases h

theorem protoBindings_find (hfids : bindings.map ObjBinding.fid = inherited.map ObjBinding.fid ++ extra)
    (hnodup : (bindings.map ObjBinding.fid).Nodup) (hpairs : (pairs.map Prod.fst).Nodup)
    (hfresh : ∀ b ∈ pairs, b.1 ∉ extra)
    (h : pairs.foldlM (protoBinding m fields inherited capacity) bindings = some bindings') :
    (bindings'.map ObjBinding.fid).Nodup ∧ (∀ b ∈ pairs, (bindField m fields b).isSome) ∧
      ∀ fid, bindings'.find? (fun x => x.fid = fid) =
        match pairs.find? fun b => b.1 = fid with
        | some b => bindField m fields b
        | none => bindings.find? fun x => x.fid = fid := by
  induction pairs generalizing bindings extra with
  | nil =>
    cases h
    exact ⟨hnodup, fun b hb => absurd hb List.not_mem_nil, fun fid => rfl⟩
  | cons b pairs ih =>
    obtain ⟨next, hnext, hrest⟩ := Option.bind_eq_some_iff.1 h
    obtain ⟨hb, hpairs⟩ := List.nodup_cons.1 hpairs
    obtain ⟨⟨extra', hfids', hextra⟩, hnodup', hsome, hfind⟩ :=
      protoBinding_find hfids hnodup (hfresh b List.mem_cons_self) hnext
    have hfresh' : ∀ b' ∈ pairs, b'.1 ∉ extra' := fun b' hb' hmem =>
      (hextra _ hmem).elim (hfresh b' (List.mem_cons_of_mem _ hb')) fun heq =>
        hb (heq ▸ List.mem_map_of_mem hb')
    obtain ⟨hlast, hbound, hall⟩ := ih hfids' hnodup' hpairs hfresh' hrest
    refine ⟨hlast, List.forall_mem_cons.2 ⟨hsome, hbound⟩, fun fid => ?_⟩
    rw [hall fid, hfind fid, List.find?_cons]
    by_cases heq : b.1 = fid
    · have hnone : pairs.find? (fun b => b.1 = fid) = none :=
        List.find?_eq_none.2 fun x hx hxfid =>
          hb (heq.trans (of_decide_eq_true hxfid).symm ▸ List.mem_map_of_mem hx)
      rw [hnone, if_pos heq, decide_eq_true heq]
    · rw [if_neg heq, decide_eq_false heq]

theorem tableAt_append {α : Type} {l l' : List α} {i : Int} {a : α} (h : tableAt l i = some a) :
    tableAt (l ++ l') i = some a := by
  have hi := tableAt_isSome.1 (Option.isSome_iff_exists.2 ⟨a, h⟩)
  rw [tableAt_of_nonneg hi.1] at h ⊢
  rw [List.getElem?_append_left (by omega), h]

theorem bindField_append {more : List HlObjField} {x : ObjBinding} (h : bindField m fields b = some x) :
    bindField m (fields ++ more) b = some x := by
  obtain ⟨field, hfield, h⟩ := Option.bind_eq_some_iff.1 h
  rw [bindField, tableAt_append hfield]
  exact h

end Bindings

theorem bindingTable_nil : BindingTable m [] [] :=
  ⟨List.nodup_nil, fun _ _ h => (by cases h), fun _ => rfl⟩

theorem BindingTable.derived {inherited bindings : List ObjBinding} {capacity : Nat}
    (h : BindingTable m base inherited) (honce : obj.DeclaresOnce)
    (hbindings : obj.bindingPairs.foldlM (protoBinding m (allFields base ++ obj.fields) inherited capacity) inherited =
      some bindings) : BindingTable m ((t, obj) :: base) bindings := by
  obtain ⟨hnodup, hsome, hfind⟩ := protoBindings_find (List.append_nil _).symm h.nodup honce.bindings
    (fun _ _ => List.not_mem_nil) hbindings
  refine ⟨hnodup, fun fid b hb => ?_, fun fid => ?_⟩
  · rcases Option.or_eq_some_iff.1 hb with hown | ⟨-, hbase⟩
    · exact hsome b (List.mem_of_find?_eq_some hown)
    · obtain ⟨x, hx⟩ := Option.isSome_iff_exists.1 (h.bound fid b hbase)
      exact Option.isSome_iff_exists.2 ⟨x, bindField_append hx⟩
  · rw [hfind fid, fieldBinding, allFields]
    cases obj.bindingPairs.find? fun b => b.1 = fid with
    | some b => rfl
    | none =>
      rw [Option.none_or]
      dsimp only
      rw [h.binding fid]
      cases hbase : fieldBinding base fid with
      | none => rfl
      | some b =>
        obtain ⟨x, hx⟩ := Option.isSome_iff_exists.1 (h.bound fid b hbase)
        rw [Option.bind_some, Option.bind_some, hx, bindField_append hx]

end HashLink
