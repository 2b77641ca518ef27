import HashLink.Objects.RuntimeBuilt

/-!
When `hl_get_obj_proto` returns for a class whose base has its prototype, and what it has then filled in.
-/

namespace HashLink

open SortedTable

section Arrays

variable {α : Type} {l l' : List α} {a : α} {i k : Int}

theorem tableAt_of_nonneg (h : 0 ≤ i) : tableAt l i = l[i.toNat]? := if_neg (by omega)

theorem tableAt_isSome : (tableAt l i).isSome ↔ 0 ≤ i ∧ i < l.length := by
  unfold tableAt
  split
  · next h => simp; omega
  · next h =>
    rw [isSome_getElem?]
    omega

theorem setAt_isSome : (setAt l i a).isSome ↔ 0 ≤ i ∧ i < l.length := by
  unfold setAt
  split
  · next h => simp [h]
  · next h => simp [h]

theorem setAt_eq_some (h : setAt l i a = some l') : 0 ≤ i ∧ i < l.length ∧ l' = l.set i.toNat a := by
  unfold setAt at h
  split at h
  · next hi =>
    cases h
    exact ⟨hi.1, hi.2, rfl⟩
  · cases h

theorem length_setAt (h : setAt l i a = some l') : l'.length = l.length := by
  obtain ⟨-, -, rfl⟩ := setAt_eq_some h
  exact List.length_set

theorem tableAt_setAt (h : setAt l i a = some l') (hk : 0 ≤ k) :
    tableAt l' k = if i = k then some a else tableAt l k := by
  obtain ⟨hi, hlt, rfl⟩ := setAt_eq_some h
  rw [tableAt_of_nonneg hk, tableAt_of_nonneg hk, List.getElem?_set]
  by_cases heq : i = k
  · subst heq
    rw [if_pos rfl, if_pos rfl, if_pos (by omega)]
  · rw [if_neg (by omega), if_neg heq]

theorem tableAt_append_replicate {n : Nat} (hk : 0 ≤ k) (hlt : k < (l.length + n : Nat)) :
    tableAt (l ++ List.replicate n a) k = if k < l.length then tableAt l k else some a := by
  rw [tableAt_of_nonneg hk, tableAt_of_nonneg hk]
  split
  · next h => rw [List.getElem?_append_left (by omega)]
  · next h => rw [List.getElem?_append_right (by omega), List.getElem?_replicate, if_pos (by omega)]

end Arrays

section Slots

variable {m : HlModule} {protos : List HlObjProto} {slots slots' : List (Option Nat)} {k : Int}

theorem protoSlots_isSome (htop : ∀ p ∈ protos, p.pindex < slots.length) :
    ((protos.foldlM (protoSlot m) slots).isSome ↔
        ∀ p ∈ protos, 0 ≤ p.pindex → (tableAt m.functionsPtrs p.findex).isSome) ∧
      ∀ slots', protos.foldlM (protoSlot m) slots = some slots' → slots'.length = slots.length := by
  refine foldlM_isSome_inv (fun s : List (Option Nat) => s.length = slots.length) ?_ ?_ rfl
  · intro p hp s hs
    have hlt := htop p hp
    unfold protoSlot
    split
    · next hindex =>
      cases hcode : tableAt m.functionsPtrs p.findex with
      | none => simp [hindex]
      | some code =>
        have hset : (setAt s p.pindex code).isSome := (setAt_isSome).2 ⟨hindex, by omega⟩
        simp [hset]
    · next hindex => simp [hindex]
  · intro p hp s s' hs h
    unfold protoSlot at h
    split at h
    · obtain ⟨code, -, h⟩ := Option.bind_eq_some_iff.1 h
      rw [length_setAt h, hs]
    · cases h
      exact hs

theorem tableAt_protoSlots (h : protos.foldlM (protoSlot m) slots = some slots') (hk : 0 ≤ k) :
    tableAt slots' k = match protos.reverse.find? fun p => p.pindex = k with
      | some p => tableAt m.functionsPtrs p.findex
      | none => tableAt slots k := by
  induction protos generalizing slots with
  | nil =>
    cases h
    rfl
  | cons p protos ih =>
    obtain ⟨next, hnext, h⟩ := Option.bind_eq_some_iff.1 h
    rw [ih h, List.reverse_cons, List.find?_append]
    cases protos.reverse.find? fun p => p.pindex = k with
    | some q => rfl
    | none =>
      rw [Option.none_or]
      unfold protoSlot at hnext
      by_cases heq : p.pindex = k
      · rw [if_pos (by omega)] at hnext
        obtain ⟨code, hcode, hset⟩ := Option.bind_eq_some_iff.1 hnext
        rw [List.find?_singleton, if_pos (decide_eq_true heq)]
        dsimp only
        rw [tableAt_setAt hset hk, if_pos heq, hcode]
      · rw [List.find?_singleton, if_neg (by simp [heq])]
        dsimp only
        split at hnext
        · obtain ⟨code, hcode, hset⟩ := Option.bind_eq_some_iff.1 hnext
          rw [tableAt_setAt hset hk, if_neg heq]
        · cases hnext
          rfl

theorem foldl_max_le (protos : List HlObjProto) (n : Int) :
    n ≤ protos.foldl (fun n p => max n (p.pindex + 1)) n ∧
      ∀ p ∈ protos, p.pindex < protos.foldl (fun n p => max n (p.pindex + 1)) n := by
  induction protos generalizing n with
  | nil => exact ⟨Int.le_refl n, fun _ hp => absurd hp List.not_mem_nil⟩
  | cons p protos ih =>
    obtain ⟨hle, hall⟩ := ih (max n (p.pindex + 1))
    rw [List.foldl_cons]
    refine ⟨by omega, fun q hq => ?_⟩
    rcases List.mem_cons.1 hq with rfl | hq
    · omega
    · exact hall q hq

theorem slotMethod_none (chain : List (Nat × HlTypeObj)) (hk : topProto chain ≤ k) : slotMethod chain k = none := by
  induction chain with
  | nil => rfl
  | cons c base ih =>
    obtain ⟨hle, hall⟩ := foldl_max_le c.2.protos (topProto base)
    have hown : (c.2.protos.reverse.find? fun p => p.pindex = k) = none := by
      refine List.find?_eq_none.2 fun p hp heq => ?_
      have hlt := hall p (List.mem_reverse.1 hp)
      rw [topProto] at hk
      exact absurd (of_decide_eq_true heq) (by omega)
    rw [topProto] at hk
    rw [slotMethod, hown, ih (by omega)]
    rfl

/-- The slots of a hierarchy, each with the method that has its index last. -/
structure SlotsOf (m : HlModule) (chain : List (Nat × HlTypeObj)) (slots : List (Option Nat)) : Prop where
  length : (slots.length : Int) = topProto chain
  slot : ∀ k, 0 ≤ k → k < topProto chain → tableAt slots k = match slotMethod chain k with
    | some p => tableAt m.functionsPtrs p.findex
    | none => some none

theorem slotsOf_class {t : Nat} {obj : HlTypeObj} {base : List (Nat × HlTypeObj)} {inherited : List (Option Nat)}
    (hbase : SlotsOf m base inherited)
    (h : obj.protos.foldlM (protoSlot m)
      (inherited ++ List.replicate ((topProto ((t, obj) :: base)).toNat - inherited.length) none) = some slots) :
    SlotsOf m ((t, obj) :: base) slots := by
  obtain ⟨hle, hall⟩ := foldl_max_le obj.protos (topProto base)
  have hlength := hbase.length
  have hstart : ((inherited ++ List.replicate ((topProto ((t, obj) :: base)).toNat - inherited.length)
      (none : Option Nat)).length : Int) = topProto ((t, obj) :: base) := by
    rw [List.length_append, List.length_replicate, topProto]
    omega
  refine ⟨?_, fun k hk hlt => ?_⟩
  · rw [(protoSlots_isSome fun p hp => by rw [hstart, topProto]; exact hall p hp).2 slots h]
    exact hstart
  · rw [tableAt_protoSlots h hk, slotMethod]
    cases obj.protos.reverse.find? fun p => p.pindex = k with
    | some p => rfl
    | none =>
      rw [Option.none_or]
      dsimp only
      rw [tableAt_append_replicate hk (by rw [topProto] at hlt ⊢; omega)]
      split
      · next hinherited => exact hbase.slot k hk (by omega)
      · next hinherited => rw [slotMethod_none base (by omega)]

end Slots

section Methods

variable {m : HlModule} {lookups : List (List HlFieldLookup)} {parentProtos : Int} {protos : List HlObjProto}

/-- A method has an entry in the table of functions, and one that overrides finds a method of its name. -/
def MethodReady (m : HlModule) (lookups : List (List HlFieldLookup)) (parentProtos : Int) (p : HlObjProto) : Prop :=
  p.pindex ≠ hlProtoTypedEntry → (tableAt m.functionsPtrs p.findex).isSome ∧
    (0 ≤ p.pindex → p.pindex < parentProtos →
      (resolveField lookups p.hashedName).map (fun e => decide (e.fieldIndex < 0)) = some true)

def MethodsPlaced (lookups : List (List HlFieldLookup)) (n : Nat) : Prop :=
  ∀ name e, resolveField lookups name = some e → e.fieldIndex < 0 → -e.fieldIndex - 1 < n

variable {methods : List (Option Nat)}

theorem place_iff {n : Nat} (hplaced : MethodsPlaced lookups n) (hlength : n ≤ methods.length) {name : Int}
    {e : HlFieldLookup} (he : resolveField lookups name = some e) :
    0 ≤ -e.fieldIndex - 1 ∧ -e.fieldIndex - 1 < methods.length ↔ e.fieldIndex < 0 := by
  have hlt := hplaced name e he
  constructor
  · rintro ⟨hle, -⟩
    omega
  · intro hneg
    have hbound := hlt hneg
    omega

theorem protoMethod_spec {p : HlObjProto} {next n : Nat} (hplaced : MethodsPlaced lookups n)
    (hlength : n ≤ methods.length) (hnext : overrides parentProtos p = false → next < methods.length) :
    ((protoMethod m lookups parentProtos (methods, next) p).isSome ↔ MethodReady m lookups parentProtos p) ∧
      ∀ state, protoMethod m lookups parentProtos (methods, next) p = some state →
        state.1.length = methods.length ∧ state.2 = if overrides parentProtos p then next else next + 1 := by
  unfold protoMethod MethodReady
  by_cases htyped : p.pindex = hlProtoTypedEntry
  · have hover : overrides parentProtos p = true := by
      unfold overrides
      rw [decide_eq_true htyped, Bool.true_or]
    rw [if_pos htyped, hover]
    refine ⟨by simp [htyped], fun state hstate => ?_⟩
    cases hstate
    exact ⟨rfl, rfl⟩
  · rw [if_neg htyped]
    by_cases hindex : 0 ≤ p.pindex ∧ p.pindex < parentProtos
    · have hover : overrides parentProtos p = true := by
        unfold overrides
        simp [hindex.1, hindex.2]
      rw [if_pos hindex, hover]
      cases hfound : resolveField lookups p.hashedName with
      | none => simp [htyped, hindex]
      | some e =>
        cases hcode : tableAt m.functionsPtrs p.findex with
        | none => simp [htyped]
        | some code =>
          have hset : (setAt methods (-e.fieldIndex - 1) code).isSome ↔ e.fieldIndex < 0 :=
            setAt_isSome.trans (place_iff hplaced hlength hfound)
          cases hmethods : setAt methods (-e.fieldIndex - 1) code with
          | none =>
            rw [hmethods] at hset
            have hfield : ¬e.fieldIndex < 0 := fun hneg => absurd (hset.2 hneg) (by simp)
            simp [htyped, hindex, hmethods, hfield]
          | some methods' =>
            rw [hmethods] at hset
            have hmethod : e.fieldIndex < 0 := hset.1 rfl
            refine ⟨by simp [htyped, hindex, hmethods, hmethod], fun state hstate => ?_⟩
            simp only [Option.bind_eq_bind, Option.bind_some, hmethods] at hstate
            cases hstate
            exact ⟨length_setAt hmethods, rfl⟩
    · have hover : overrides parentProtos p = false := by
        unfold overrides
        rw [decide_eq_false htyped, Bool.false_or, Bool.and_eq_false_iff, decide_eq_false_iff_not,
          decide_eq_false_iff_not]
        omega
      rw [if_neg hindex, hover]
      cases hcode : tableAt m.functionsPtrs p.findex with
      | none => simp [htyped]
      | some code =>
        have hset : (setAt methods (next : Int) code).isSome :=
          setAt_isSome.2 ⟨Int.natCast_nonneg _, by have := hnext hover; omega⟩
        obtain ⟨methods', hmethods⟩ := Option.isSome_iff_exists.1 hset
        refine ⟨?_, fun state hstate => ?_⟩
        · simp only [Option.bind_eq_bind, Option.bind_some, hmethods]
          refine ⟨fun _ _ => ⟨rfl, fun h0 hlt => absurd ⟨h0, hlt⟩ hindex⟩, fun _ => rfl⟩
        · simp only [Option.bind_eq_bind, Option.bind_some, hmethods] at hstate
          cases hstate
          exact ⟨length_setAt hmethods, rfl⟩

theorem protoMethods_isSome {next n : Nat} (hplaced : MethodsPlaced lookups n) (hlength : n ≤ methods.length)
    (hcount : next + (protos.filter fun p => !overrides parentProtos p).length ≤ methods.length) :
    ((protos.foldlM (protoMethod m lookups parentProtos) (methods, next)).isSome ↔
        ∀ p ∈ protos, MethodReady m lookups parentProtos p) ∧
      ∀ state, protos.foldlM (protoMethod m lookups parentProtos) (methods, next) = some state →
        state.1.length = methods.length := by
  induction protos generalizing methods next with
  | nil =>
    refine ⟨⟨fun _ p hp => absurd hp List.not_mem_nil, fun _ => rfl⟩, fun state hstate => ?_⟩
    cases hstate
    rfl
  | cons p protos ih =>
    have hnext : overrides parentProtos p = false → next < methods.length := by
      intro hover
      rw [List.filter_cons_of_pos (by simp [hover]), List.length_cons] at hcount
      omega
    obtain ⟨hiff, hstep⟩ := protoMethod_spec (m := m) hplaced hlength hnext
    rw [List.foldlM_cons, List.forall_mem_cons, ← hiff]
    cases hfirst : protoMethod m lookups parentProtos (methods, next) p with
    | none => simp
    | some state =>
      obtain ⟨hsame, hplace⟩ := hstep state hfirst
      have hcount' : state.2 + (protos.filter fun p => !overrides parentProtos p).length ≤ state.1.length := by
        rw [hplace, hsame]
        cases hover : overrides parentProtos p with
        | true =>
          rw [List.filter_cons_of_neg (by simp [hover])] at hcount
          exact hcount
        | false =>
          rw [List.filter_cons_of_pos (by simp [hover]), List.length_cons] at hcount
          show next + 1 + _ ≤ _
          omega
      obtain ⟨hrest, hend⟩ := ih (by rw [hsame]; exact hlength) hcount'
      refine ⟨hrest.trans ⟨fun hall => ⟨rfl, hall⟩, fun hall => hall.2⟩, fun state' hstate' => ?_⟩
      rw [hend state' hstate', hsame]

theorem namedMethod_isSome {n : Nat} (hplaced : MethodsPlaced lookups n) (hlength : n ≤ methods.length)
    (name : Int) :
    (namedMethod lookups methods name).isSome ↔
      (resolveField lookups name).map (fun e => decide (e.fieldIndex < 0)) ≠ some false := by
  unfold namedMethod
  cases hfound : resolveField lookups name with
  | none => simp
  | some e =>
    dsimp only
    rw [tableAt_isSome, place_iff hplaced hlength hfound]
    simp

end Methods

section Bindings

variable {m : HlModule} {chain : List (Nat × HlTypeObj)} {fields : List HlObjField} {inherited : List ObjBinding}
  {bound : List Int} {capacity : Nat} {pairs : List (Int × Int)} {b : Int × Int}

theorem bindField_isSome : (bindField m (allFields chain) b).isSome ↔ Bindable m chain b := by
  unfold bindField
  constructor
  · intro h
    obtain ⟨binding, h⟩ := Option.isSome_iff_exists.1 h
    obtain ⟨field, hfield, h⟩ := Option.bind_eq_some_iff.1 h
    obtain ⟨code, hcode, h⟩ := Option.bind_eq_some_iff.1 h
    obtain ⟨type, htype, h⟩ := Option.bind_eq_some_iff.1 h
    refine ⟨⟨field, hfield, ?_⟩, by rw [htype]; rfl, by rw [hcode]; rfl⟩
    split at h
    · next hkind =>
      obtain ⟨t, rfl, -⟩ := Option.bind_eq_some_iff.1 h
      exact .inr ⟨hkind, by rw [htype]; simp⟩
    · next hkind => exact .inl hkind
    · cases h
  · rintro ⟨⟨field, hfield, hkind⟩, htype, hcode⟩
    obtain ⟨type, htype⟩ := Option.isSome_iff_exists.1 htype
    obtain ⟨code, hcode⟩ := Option.isSome_iff_exists.1 hcode
    simp only [hfield, hcode, htype, Option.bind_eq_bind, Option.bind_some]
    rcases hkind with hkind | ⟨hkind, hnull⟩
    · rw [hkind]
      rfl
    · rw [hkind]
      cases type with
      | none => exact absurd htype hnull
      | some t => rfl

theorem bindField_fid {binding : ObjBinding} (h : bindField m fields b = some binding) : binding.fid = b.1 := by
  obtain ⟨field, -, h⟩ := Option.bind_eq_some_iff.1 h
  obtain ⟨code, -, h⟩ := Option.bind_eq_some_iff.1 h
  obtain ⟨type, -, h⟩ := Option.bind_eq_some_iff.1 h
  split at h
  · obtain ⟨t, -, h⟩ := Option.bind_eq_some_iff.1 h
    cases h
    rfl
  · cases h
    rfl
  · cases h

/-- The fields of the inherited bindings. -/
def BoundBy (inherited : List ObjBinding) (bound : List Int) : Prop :=
  ∀ fid, fid ∈ inherited.map ObjBinding.fid ↔ fid ∈ bound

theorem protoBinding_spec {bindings : List ObjBinding} {extra : List Int} (hbound : BoundBy inherited bound)
    (hfids : bindings.map ObjBinding.fid = inherited.map ObjBinding.fid ++ extra)
    (hroom : b.1 ∉ bound → bindings.length < capacity) :
    ((protoBinding m (allFields chain) inherited capacity bindings b).isSome ↔ Bindable m chain b) ∧
      ∀ bindings', protoBinding m (allFields chain) inherited capacity bindings b = some bindings' →
        bindings'.map ObjBinding.fid = bindings.map ObjBinding.fid ++ if b.1 ∈ bound then [] else [b.1] := by
  unfold protoBinding
  rw [← bindField_isSome]
  cases hfind : inherited.findIdx? fun binding => binding.fid = b.1 with
  | none =>
    have hfresh : b.1 ∉ bound := by
      rw [← hbound b.1]
      intro hmem
      obtain ⟨x, hx, hfid⟩ := List.mem_map.1 hmem
      exact absurd (decide_eq_true hfid) (by rw [List.findIdx?_eq_none_iff.1 hfind x hx]; decide)
    dsimp only
    rw [if_pos (hroom hfresh)]
    cases hbind : bindField m (allFields chain) b with
    | none => simp
    | some binding =>
      refine ⟨by simp, fun bindings' hbindings' => ?_⟩
      cases hbindings'
      rw [if_neg hfresh, List.map_append, List.map_singleton, bindField_fid hbind]
  | some i =>
    obtain ⟨hlt, hat, -⟩ := List.findIdx?_eq_some_iff_getElem.1 hfind
    have hfid : inherited[i].fid = b.1 := of_decide_eq_true hat
    have hold : b.1 ∈ bound := (hbound b.1).1 (List.mem_map.2 ⟨inherited[i], List.getElem_mem hlt, hfid⟩)
    dsimp only
    cases hbind : bindField m (allFields chain) b with
    | none => simp
    | some binding =>
      refine ⟨by simp, fun bindings' hbindings' => ?_⟩
      cases hbindings'
      have hsame : (bindings.map ObjBinding.fid)[i]? = some b.1 := by
        rw [hfids, List.getElem?_append_left (by rw [List.length_map]; exact hlt), List.getElem?_map,
          List.getElem?_eq_getElem hlt, Option.map_some, hfid]
      rw [if_pos hold, List.append_nil, List.map_set, bindField_fid hbind]
      obtain ⟨hlt', hget⟩ := List.getElem?_eq_some_iff.1 hsame
      rw [← hget, List.set_getElem_self]

theorem protoBindings_spec {bindings : List ObjBinding} {extra : List Int} (hbound : BoundBy inherited bound)
    (hfids : bindings.map ObjBinding.fid = inherited.map ObjBinding.fid ++ extra)
    (hroom : bindings.length + (pairs.filter fun b => b.1 ∉ bound).length ≤ capacity) :
    ((pairs.foldlM (protoBinding m (allFields chain) inherited capacity) bindings).isSome ↔
        ∀ b ∈ pairs, Bindable m chain b) ∧
      ∀ bindings', pairs.foldlM (protoBinding m (allFields chain) inherited capacity) bindings = some bindings' →
        bindings'.map ObjBinding.fid =
          bindings.map ObjBinding.fid ++ (pairs.filter fun b => b.1 ∉ bound).map Prod.fst := by
  induction pairs generalizing bindings extra with
  | nil =>
    refine ⟨⟨fun _ b hb => absurd hb List.not_mem_nil, fun _ => rfl⟩, fun bindings' h => ?_⟩
    cases h
    rw [List.filter_nil, List.map_nil, List.append_nil]
  | cons b pairs ih =>
    have hnext : b.1 ∉ bound → bindings.length < capacity := by
      intro hfresh
      rw [List.filter_cons_of_pos (by simp [hfresh]), List.length_cons] at hroom
      omega
    obtain ⟨hiff, hstep⟩ : ((protoBinding m (allFields chain) inherited capacity bindings b).isSome ↔
        Bindable m chain b) ∧ _ := protoBinding_spec hbound hfids hnext
    rw [List.foldlM_cons, List.forall_mem_cons, ← hiff]
    cases hfirst : protoBinding m (allFields chain) inherited capacity bindings b with
    | none => simp
    | some next =>
      have hmap := hstep next hfirst
      have hfids' : next.map ObjBinding.fid =
          inherited.map ObjBinding.fid ++ (extra ++ if b.1 ∈ bound then [] else [b.1]) := by
        rw [hmap, hfids, List.append_assoc]
      have hlength : next.length = bindings.length + if b.1 ∈ bound then 0 else 1 := by
        have := congrArg List.length hmap
        rw [List.length_map, List.length_append, List.length_map] at this
        rw [this]
        split <;> rfl
      have hroom' : next.length + (pairs.filter fun b => b.1 ∉ bound).length ≤ capacity := by
        rw [hlength]
        by_cases hold : b.1 ∈ bound
        · rw [List.filter_cons_of_neg (by simp [hold])] at hroom
          rw [if_pos hold]
          omega
        · rw [List.filter_cons_of_pos (by simp [hold]), List.length_cons] at hroom
          rw [if_neg hold]
          omega
      obtain ⟨hrest, hend⟩ := ih hfids' hroom'
      refine ⟨hrest.trans ⟨fun hall => ⟨rfl, hall⟩, fun hall => hall.2⟩, fun bindings' hbindings' => ?_⟩
      rw [hend bindings' hbindings', hmap]
      by_cases hold : b.1 ∈ bound
      · rw [List.filter_cons_of_neg (by simp [hold]), if_pos hold, List.append_nil]
      · rw [List.filter_cons_of_pos (by simp [hold]), if_neg hold, List.append_assoc, List.map_cons]
        rfl

end Bindings

end HashLink
