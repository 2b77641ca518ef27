import HashLink.Patch.ControlFlow

/-!
The table lookups of `emit_opcode` in `jit_emit.c`, for the opcodes a patch can have. A lookup is an
index that comes from the operands of an instruction, and the size of the table it is for. Some are made
by the emitted code, with an index the compiler has put there.

Which lookups of the compiler the validator has made sure of.
-/

namespace HashLink

abbrev Lookup := Int × Nat

def Lookup.InRange (l : Lookup) : Prop := 0 ≤ l.1 ∧ l.1 < l.2

/-- `rt->nfields` of `hl_get_obj_rt`. Only a class has a runtime object. -/
def HlType.objFields (t : HlType) : Nat :=
  match t.kind, t.data with
  | .hObj, .obj o | .hStruct, .obj o => o.rt.fieldsIndexes.length
  | _, _ => 0

/-- `virt->nfields`. -/
def HlType.virtFields (t : HlType) : Nat :=
  match t.data with
  | .virt fields => fields.length
  | _ => 0

/-- `tenum->constructs`, the number of parameters of each. -/
def HlType.constructs (t : HlType) : List Nat :=
  match t.data with
  | .tenum _ constructs => constructs.map fun c => c.2.length
  | _ => []

/-- `rt->nproto` of `hl_get_obj_rt`, up the superclasses. -/
def nproto (types : List HlType) : Nat → HlType → Nat
  | 0, _ => 0
  | fuel + 1, t =>
    match t.obj? with
    | none => 0
    | some o =>
      let inherited := o.super.elim 0 fun super => nproto types fuel (types.getD super .zero)
      o.protos.foldl (fun n p => if (n : Int) ≤ p.pindex then p.pindex.toNat + 1 else n) inherited

section Emit

variable (m : HlModule) (patch : HlPatch) (layout : PatchLayout) (types : List HlType)
variable (f : HlPatchFunction)

/-- `R(reg)->t`. -/
def regType (reg : Int) : HlType := types.getD (f.registers.getD reg.toNat 0).toNat .zero

/-- `R(reg)`. -/
def regLookup (reg : Int) : Lookup := (reg, f.registers.length)

/-- The first `count` arguments of an instruction, which are registers. -/
def argLookups (extra : List Int) (count : Nat) : List Lookup :=
  (List.range count).flatMap fun (i : Nat) => [((i : Int), extra.length), regLookup f (extra.getD i 0)]

/-- The field lookups of `OField` and `OSetField`. The compiler stops at any other kind of type. -/
def fieldLookups (t : HlType) (field : Int) : List Lookup :=
  match t.kind with
  | .hObj | .hStruct => [(field, t.objFields)]
  | .hVirtual => [(field, t.virtFields)]
  | _ => []

/-- The entry of `functions_indexes`. -/
def functionIndex (findex : Int) : Int := layout.indexes.getD findex.toNat (-1)

/-- `emit_call_fun`, up to the table of natives. -/
def callLookups (findex : Int) : List Lookup :=
  (findex, layout.indexes.length) ::
    if layout.functions.length ≤ functionIndex layout findex then
      [(functionIndex layout findex - layout.functions.length, m.natives.length)]
    else []

def HlOp.registers : HlOp → List Nat
  | .oAdd | .oSub | .oMul | .oSDiv | .oUDiv | .oSMod | .oUMod | .oShl | .oSShr | .oUShr | .oAnd | .oOr
  | .oXor | .oGetI8 | .oGetI16 | .oGetMem | .oSetI8 | .oSetI16 | .oSetMem | .oGetArray | .oSetArray
  | .oRefOffset => [0, 1, 2]
  | .oMov | .oUnsafeCast | .oNeg | .oNot | .oJEq | .oJNotEq | .oJSLt | .oJSGte | .oJSLte | .oJSGt
  | .oJULt | .oJUGte | .oJNotLt | .oJNotGte | .oToDyn | .oToSFloat | .oToInt | .oToUFloat
  | .oCallClosure | .oField | .oGetType | .oArraySize | .oRef | .oUnref | .oSetref | .oRefData
  | .oToVirtual | .oEnumField | .oEnumIndex | .oSafeCast | .oGetTID => [0, 1]
  | .oInstanceClosure | .oSetField => [0, 2]
  | .oInt | .oBool | .oNull | .oFloat | .oString | .oGetGlobal | .oCall0 | .oCall1 | .oCall2 | .oCall3
  | .oCall4 | .oCallN | .oJTrue | .oJFalse | .oJNull | .oJNotNull | .oRet | .oIncr | .oDecr | .oNew
  | .oStaticClosure | .oGetThis | .oCallThis | .oCallMethod | .oThrow | .oRethrow | .oType
  | .oMakeEnum | .oEnumAlloc | .oNullCheck | .oTrap | .oCleanupTrap => [0]
  | .oSetGlobal | .oSetThis => [1]
  | _ => []

/-- The opcodes from `OInt` to `ODecr`. -/
def HlOp.isPlain : HlOp → Bool
  | .oInt | .oFloat | .oBool | .oBytes | .oString | .oNull | .oAdd | .oSub | .oMul | .oSDiv | .oUDiv
  | .oSMod | .oUMod | .oShl | .oSShr | .oUShr | .oAnd | .oOr | .oXor | .oNeg | .oNot | .oIncr
  | .oDecr => true
  | _ => false

/-- The instruction that `ONullCheck` looks for behind it. -/
def nextAccess : List HlPatchInstruction → Option HlPatchInstruction
  | [] => none
  | [op] => some op
  | op :: ops => if op.opcode.isPlain then nextAccess ops else some op

/-- The lookups of `ONullCheck` in the instruction behind it. -/
def accessLookups (reg : Int) (next : HlPatchInstruction) : List Lookup :=
  match next.opcode with
  | .oField => if next.p 1 = reg then fieldLookups (regType types f reg) (next.p 2) else []
  | .oSetField => if next.p 0 = reg then fieldLookups (regType types f reg) (next.p 1) else []
  | .oCall1 | .oCall2 | .oCall3 | .oCall4 | .oCallN =>
    if next.p 2 = reg ∧ 0 ≤ next.p 1 then [(next.p 1, layout.indexes.length)] else []
  | _ => []

/-- `m->code->globals` and `m->globals_indexes`. -/
def globalLookup (index : Int) : Lookup := (index, m.nglobals + patch.globals.length)

/-- How `OTrap` finds out which exceptions its handler is for. -/
def handlerLookups (i : Nat) (op : HlPatchInstruction) : List Lookup :=
  let at_ (k : Int) : Option HlPatchInstruction := f.instructions[k.toNat]?
  [((i : Int) + 1, f.instructions.length), (i + 1 + op.p 1, f.instructions.length)] ++
    match at_ (i + 1), at_ (i + 1 + op.p 1) with
    | some first, some next =>
      if first.opcode = .oCatch then [globalLookup m patch (first.p 0)]
      else if next.opcode = .oGetGlobal then
        (i + 2 + op.p 1, f.instructions.length) ::
          match at_ (i + 2 + op.p 1) with
          | some next2 =>
            if next2.opcode = .oCall2 ∧ next2.p 2 = next.p 0 ∧ op.p 0 = next2.p 3 then
              [globalLookup m patch (next.p 1)]
            else []
          | none => []
      else []
    | _, _ => []

/-- The lookups other than those of `HlOp.registers`. -/
def tableLookups (i : Nat) (op : HlPatchInstruction) : List Lookup :=
  let extra := op.operands.drop 3
  match op.opcode with
  | .oInt => [(op.p 1, patch.totalInts)]
  | .oFloat => [(op.p 1, patch.totalFloats)]
  | .oString => [(op.p 1, patch.totalStrings)]
  | .oType => [(op.p 1, patch.totalTypes)]
  | .oGetGlobal => [globalLookup m patch (op.p 1)]
  | .oSetGlobal => [globalLookup m patch (op.p 0)]
  | .oCall0 | .oCall1 | .oCall2 | .oCall3 | .oCall4 =>
    callLookups m layout (op.p 1) ++ (op.operands.drop 2).map (regLookup f)
  | .oCallN => callLookups m layout (op.p 1) ++ argLookups f extra (op.p 2).toNat
  | .oCallClosure => argLookups f extra (op.p 2).toNat
  | .oInstanceClosure =>
    [(op.p 1, layout.indexes.length), (functionIndex layout (op.p 1), layout.functions.length)]
  | .oStaticClosure =>
    [(op.p 1, layout.indexes.length),
      if layout.functions.length ≤ functionIndex layout (op.p 1) then
        (functionIndex layout (op.p 1) - layout.functions.length, m.natives.length)
      else (functionIndex layout (op.p 1), layout.functions.length)]
  | .oField => fieldLookups (regType types f (op.p 1)) (op.p 2)
  | .oSetField => fieldLookups (regType types f (op.p 0)) (op.p 1)
  | .oGetThis => [regLookup f 0, (op.p 1, (regType types f 0).objFields)]
  | .oSetThis => [regLookup f 0, (op.p 0, (regType types f 0).objFields)]
  | .oCallThis =>
    [regLookup f 0, (op.p 1, nproto types types.length (regType types f 0))] ++
      argLookups f extra (op.p 2).toNat
  | .oCallMethod =>
    let this := regType types f (extra.getD 0 0)
    argLookups f extra 1 ++
      match this.kind with
      | .hObj => (op.p 1, nproto types types.length this) :: argLookups f extra (op.p 2).toNat
      | .hVirtual => (op.p 1, this.virtFields) :: argLookups f extra (op.p 2).toNat
      | _ => []
  | .oMakeEnum =>
    let constructs := (regType types f (op.p 0)).constructs
    (op.p 1, constructs.length) :: argLookups f extra (constructs.getD (op.p 1).toNat 0)
  | .oEnumAlloc => [(op.p 1, (regType types f (op.p 0)).constructs.length)]
  | .oEnumField =>
    let constructs := (regType types f (op.p 1)).constructs
    [(op.p 2, constructs.length), (op.p 3, constructs.getD (op.p 2).toNat 0)]
  | .oNullCheck =>
    ((nextAccess (f.instructions.drop (i + 1))).map (accessLookups layout types f (op.p 0))).getD []
  | .oTrap | .oCleanupTrap => handlerLookups m patch f i op
  | _ => []

/-- The lookups of `emit_opcode` for instruction `i`. -/
def emitLookups (i : Nat) (op : HlPatchInstruction) : List Lookup :=
  op.opcode.registers.map (fun k => regLookup f (op.p k)) ++ tableLookups m patch layout types f i op

def HlType.FieldFits (t : HlType) (field : Int) : Prop :=
  match t.kind with
  | .hObj | .hStruct => field < t.objFields
  | .hVirtual => field < t.virtFields
  | _ => True

def HlType.MethodFits (types : List HlType) (t : HlType) (method : Int) : Prop :=
  match t.kind with
  | .hObj => method < nproto types types.length t
  | .hVirtual => method < t.virtFields
  | _ => True

/-- What the validator leaves open: the field, construct and method operands, which it compares with no
table or with that of the registers, the length of some argument lists, and whether there is an
instruction behind a handler that reads a global. -/
def OperandsFit (i : Nat) (op : HlPatchInstruction) : Prop :=
  let this := regType types f 0
  match op.opcode with
  | .oField => (regType types f (op.p 1)).FieldFits (op.p 2)
  | .oSetField => (regType types f (op.p 0)).FieldFits (op.p 1)
  | .oGetThis => op.p 1 < this.objFields
  | .oSetThis => op.p 0 < this.objFields
  | .oCallThis => op.p 1 < nproto types types.length this
  | .oCallMethod => 3 < op.operands.length ∧ (regType types f (op.p 3)).MethodFits types (op.p 1)
  | .oMakeEnum => ∃ params, (regType types f (op.p 0)).constructs[(op.p 1).toNat]? = some params ∧
      params + 3 ≤ op.operands.length
  | .oEnumAlloc => op.p 1 < (regType types f (op.p 0)).constructs.length
  | .oEnumField => ∃ params, (regType types f (op.p 1)).constructs[(op.p 2).toNat]? = some params ∧
      op.p 3 < params
  | .oTrap | .oCleanupTrap => ∀ next, f.instructions[(i + 1 + op.p 1).toNat]? = some next →
      next.opcode = .oGetGlobal → i + 2 + op.p 1 < f.instructions.length
  | _ => True

end Emit

/-- `functions_indexes` as `hl_module_init` fills it: a slot is one of a function or of a native. -/
def HlModule.Indexed (m : HlModule) : Prop :=
  ∀ (slot : Nat) (index : Int), slot < m.slotCount → m.functionsIndexes[slot]? = some index →
    index < m.functions.length ∨ slot ∈ m.natives

variable {m : HlModule} {patch : HlPatch} {layout : PatchLayout} {types : List HlType}
variable {f : HlPatchFunction} {i : Nat} {op : HlPatchInstruction}
variable {findex reg : Int} {count : Nat}

theorem inTable_iff {index : Int} :
    inTable index count = true ↔ Lookup.InRange (index, count) := by
  unfold inTable Lookup.InRange
  rw [Bool.and_eq_true, decide_eq_true_iff, decide_eq_true_iff]

theorem inRange_reg (h : validReg f reg = true) : (regLookup f reg).InRange := (inTable_iff).mp h

theorem operands_length {n : Nat} (h : op.opcode.operands = some n) : op.operands.length = n := by
  have haccepted := op.accepted
  unfold HlOp.accepts at haccepted
  rw [h] at haccepted
  exact of_decide_eq_true haccepted

theorem registers_valid (h : validateInstruction m patch layout f i op = .ok ()) :
    ∀ k ∈ op.opcode.registers, validReg f (op.p k) = true := by
  have hlength : op.opcode.operands = some 2 → ¬op.operands.length ≤ 1 := by
    intro htwo
    rw [operands_length htwo]
    decide
  obtain ⟨opcode, operands, accepted⟩ := op
  cases opcode <;>
    simp_all [validateInstruction, require_eq_ok, except_bind_eq_ok, HlOp.registers, HlOp.operands,
      HlOp.shape, OperandKind.width]

theorem mem_argLookups {extra : List Int} {l : Lookup} :
    l ∈ argLookups f extra count ↔
      ∃ k < count, l = ((k : Int), extra.length) ∨ l = regLookup f (extra.getD k 0) := by
  unfold argLookups
  simp only [List.mem_flatMap, List.mem_range, List.mem_cons, List.not_mem_nil, or_false]

theorem args_inRange_iff {extra : List Int} (h : extra.all (validReg f) = true) :
    (∀ l ∈ argLookups f extra count, l.InRange) ↔ count ≤ extra.length := by
  constructor
  · intro hall
    by_contra hlt
    have hmem : ((extra.length : Int), extra.length) ∈ argLookups f extra count :=
      (mem_argLookups).mpr ⟨extra.length, by omega, .inl rfl⟩
    exact absurd (hall _ hmem).2 (Int.lt_irrefl _)
  · intro hle l hl
    obtain ⟨k, hk, rfl | rfl⟩ := (mem_argLookups).mp hl
    · exact ⟨Int.natCast_nonneg k, Int.ofNat_lt.mpr (by omega)⟩
    · have hlt : k < extra.length := by omega
      rw [List.getD_eq_getElem?_getD, List.getElem?_eq_getElem hlt, Option.getD_some]
      exact inRange_reg (List.all_eq_true.mp h _ (List.getElem_mem hlt))

theorem argumentCount_eq (h : validArgumentCount op = true) : (op.p 2).toNat = (op.operands.drop 3).length := by
  unfold validArgumentCount at h
  rw [Bool.and_eq_true, decide_eq_true_iff, decide_eq_true_iff] at h
  rw [List.length_drop]
  omega

theorem variadic_inRange (hcount : validArgumentCount op = true) (hregs : validRegsFrom f op 3 = true) :
    ∀ l ∈ argLookups f (op.operands.drop 3) (op.p 2).toNat, l.InRange :=
  (args_inRange_iff hregs).mpr (Nat.le_of_eq (argumentCount_eq hcount))

theorem foldl_set_native {base : Nat} {pairs : List (Nat × Nat)} {slots : List Int} {slot : Nat}
    {index : Int} (h : (pairs.foldl
      (fun indexes pair => indexes.set pair.1 ((base + pair.2 : Nat) : Int)) slots)[slot]? = some index) :
    (∃ k, (slot, k) ∈ pairs ∧ index = (base + k : Nat)) ∨
      slots[slot]? = some index ∧ ∀ k, (slot, k) ∉ pairs := by
  induction pairs generalizing slots with
  | nil => exact .inr ⟨h, fun k hk => (nomatch hk)⟩
  | cons pair pairs ih =>
    obtain ⟨native, n⟩ := pair
    rcases ih h with ⟨k, hk, rfl⟩ | ⟨hslot, hnot⟩
    · exact .inl ⟨k, List.mem_cons_of_mem _ hk, rfl⟩
    · rw [List.getElem?_set] at hslot
      split at hslot
      · rename_i heq
        subst heq
        split at hslot
        · cases hslot
          exact .inl ⟨n, List.mem_cons_self .., rfl⟩
        · cases hslot
      · rename_i hne
        refine .inr ⟨hslot, fun k hk => ?_⟩
        rcases List.mem_cons.mp hk with heq | hrest
        · cases heq
          exact hne rfl
        · exact hnot k hrest

def PatchLayout.Resolved (layout : PatchLayout) (natives : Nat) : Prop :=
  ∀ index ∈ layout.indexes, index < layout.functions.length + natives

theorem resolved_of_stagePatchLayout {env : PatchEnv} (hm : m.Indexed)
    (h : stagePatchLayout env m patch = .ok layout) : layout.Resolved m.natives.length := by
  unfold stagePatchLayout at h
  simp only [except_bind_eq_ok, pure, Except.pure, Except.ok.injEq] at h
  obtain ⟨_, -, _, -, _, -, _, -, rfl⟩ := h
  intro index hindex
  simp only at hindex ⊢
  obtain ⟨slot, hslot⟩ := List.getElem?_of_mem hindex
  rcases foldl_set_native hslot with ⟨k, hk, rfl⟩ | ⟨hslot, hnot⟩
  · have := (List.mem_zipIdx hk).2.1
    rw [Int.natCast_add]
    omega
  · rw [List.getElem?_append] at hslot
    rw [List.length_append, List.length_map, Int.natCast_add]
    split at hslot
    · rename_i hlt
      rw [List.length_take] at hlt
      rw [List.getElem?_take_of_lt (by omega)] at hslot
      rcases hm slot index (by omega) hslot with hlt' | hnative
      · omega
      · obtain ⟨k, hk, hget⟩ := List.mem_iff_getElem.mp hnative
        refine absurd ?_ (hnot k)
        rw [List.mem_zipIdx_iff_getElem?, List.getElem?_eq_getElem hk, hget]
    · rw [List.getElem?_map] at hslot
      obtain ⟨k, hk, rfl⟩ := Option.map_eq_some_iff.mp hslot
      have := List.mem_range.mp (List.mem_of_getElem? hk)
      omega

theorem functionIndex_mem (h : Lookup.InRange (findex, layout.indexes.length)) :
    functionIndex layout findex ∈ layout.indexes := by
  obtain ⟨hpos, hlt⟩ := h
  have hlt' : findex.toNat < layout.indexes.length := by
    simp only at hlt
    omega
  unfold functionIndex
  rw [List.getD_eq_getElem?_getD, List.getElem?_eq_getElem hlt', Option.getD_some]
  exact List.getElem_mem hlt'

theorem validCallTarget_inRange (h : validCallTarget m layout findex = true) :
    Lookup.InRange (findex, layout.indexes.length) := by
  unfold validCallTarget at h
  rw [Bool.and_eq_true] at h
  exact (inTable_iff).mp h.1

theorem native_inRange (hlayout : layout.Resolved m.natives.length)
    (h : Lookup.InRange (findex, layout.indexes.length))
    (hnative : layout.functions.length ≤ functionIndex layout findex) :
    Lookup.InRange (functionIndex layout findex - layout.functions.length, m.natives.length) := by
  have := hlayout _ (functionIndex_mem h)
  refine ⟨?_, ?_⟩
  · simp only
    omega
  · simp only
    omega

theorem calls_inRange (hlayout : layout.Resolved m.natives.length)
    (h : validCallTarget m layout findex = true) : ∀ l ∈ callLookups m layout findex, l.InRange := by
  have hrange := validCallTarget_inRange h
  unfold callLookups
  intro l hl
  rcases List.mem_cons.mp hl with rfl | hl
  · exact hrange
  · split at hl
    · rename_i hnative
      rw [List.mem_singleton.mp hl]
      exact native_inRange hlayout hrange hnative
    · cases hl

theorem function_inRange (h : (layout.function findex).isSome = true) :
    Lookup.InRange (functionIndex layout findex, layout.functions.length) := by
  unfold PatchLayout.function at h
  split at h
  · cases h
  · simp only at h
    split at h
    · cases h
    · rename_i hpos
      obtain ⟨function, hfunction⟩ := Option.isSome_iff_exists.mp h
      have hlt := (List.getElem?_eq_some_iff.mp hfunction).1
      change ¬functionIndex layout findex < 0 at hpos
      change (functionIndex layout findex).toNat < _ at hlt
      refine ⟨?_, ?_⟩
      · simp only
        omega
      · simp only
        omega

theorem inRange_iff_lt {index : Int} (h : 0 ≤ index) :
    Lookup.InRange (index, count) ↔ index < count := and_iff_right h

theorem forall_mem_singleton {l : Lookup} : (∀ l' ∈ [l], l'.InRange) ↔ l.InRange := by
  simp

theorem fields_iff {t : HlType} {field : Int} (h : 0 ≤ field) :
    (∀ l ∈ fieldLookups t field, l.InRange) ↔ t.FieldFits field := by
  unfold fieldLookups HlType.FieldFits
  cases t.kind <;> simp [inRange_iff_lt h]

theorem getD_drop_three (op : HlPatchInstruction) (k : Nat) :
    (op.operands.drop 3).getD k 0 = op.p (3 + k) := by
  unfold HlPatchInstruction.p
  rw [List.getD_eq_getElem?_getD, List.getD_eq_getElem?_getD, List.getElem?_drop]

def constantOps : List HlOp := [.oInt, .oFloat, .oString, .oType, .oGetGlobal, .oSetGlobal]

def functionOps : List HlOp :=
  [.oCall0, .oCall1, .oCall2, .oCall3, .oCall4, .oCallN, .oCallClosure, .oInstanceClosure, .oStaticClosure]

def fieldOps : List HlOp := [.oField, .oSetField, .oGetThis, .oSetThis]

def methodOps : List HlOp := [.oCallThis, .oCallMethod]

def enumOps : List HlOp := [.oMakeEnum, .oEnumAlloc, .oEnumField]

def trapOps : List HlOp := [.oTrap, .oCleanupTrap]

theorem constants_inRange (h : validateInstruction m patch layout f i op = .ok ())
    (hop : op.opcode ∈ constantOps) : ∀ l ∈ tableLookups m patch layout types f i op, l.InRange := by
  simp only [constantOps, List.mem_cons, List.not_mem_nil, or_false] at hop
  rcases hop with hop | hop | hop | hop | hop | hop <;>
    simp only [validateInstruction, hop, require_eq_ok, Bool.and_eq_true] at h <;>
    simp only [tableLookups, hop, forall_mem_singleton]
  · exact (inTable_iff).mp h.2
  · exact (inTable_iff).mp h.2
  · exact (inTable_iff).mp h.2
  · exact (inTable_iff).mp h.2
  · exact (inTable_iff).mp h.2
  · obtain ⟨hpos, hlt⟩ := (inTable_iff).mp h.1
    refine ⟨hpos, ?_⟩
    show op.p 0 < ((m.nglobals + patch.globals.length : Nat) : Int)
    simp only at hlt
    omega

theorem functions_inRange (hlayout : layout.Resolved m.natives.length)
    (h : validateInstruction m patch layout f i op = .ok ())
    (hop : op.opcode ∈ functionOps) : ∀ l ∈ tableLookups m patch layout types f i op, l.InRange := by
  have hfixed : validCallTarget m layout (op.p 1) = true → validRegsFrom f op 2 = true →
      ∀ l ∈ callLookups m layout (op.p 1) ++ (op.operands.drop 2).map (regLookup f), l.InRange := by
    intro hcall hregs l hl
    rcases List.mem_append.mp hl with hl | hl
    · exact calls_inRange hlayout hcall l hl
    · obtain ⟨reg, hreg, rfl⟩ := List.mem_map.mp hl
      exact inRange_reg (List.all_eq_true.mp hregs reg hreg)
  simp only [functionOps, List.mem_cons, List.not_mem_nil, or_false] at hop
  rcases hop with hop | hop | hop | hop | hop | hop | hop | hop | hop <;>
    simp only [validateInstruction, hop, require_eq_ok, except_bind_eq_ok, Bool.and_eq_true, exists_const] at h <;>
    simp only [tableLookups, hop]
  · exact hfixed h.1.2 h.2
  · exact hfixed h.1.2 h.2
  · exact hfixed h.1.2 h.2
  · exact hfixed h.1.2 h.2
  · exact hfixed h.1.2 h.2
  · intro l hl
    rcases List.mem_append.mp hl with hl | hl
    · exact calls_inRange hlayout h.1.1.2 l hl
    · exact variadic_inRange h.1.2 h.2 l hl
  · exact variadic_inRange h.1.2 h.2
  · unfold validFunctionTarget at h
    rw [Bool.and_eq_true] at h
    intro l hl
    rcases List.mem_cons.mp hl with rfl | hl
    · exact validCallTarget_inRange h.1.2.1
    · rw [List.mem_singleton.mp hl]
      exact function_inRange h.1.2.2
  · unfold validClosureTarget at h
    rw [Bool.and_eq_true, Bool.or_eq_true] at h
    have hrange := validCallTarget_inRange h.2.1
    intro l hl
    rcases List.mem_cons.mp hl with rfl | hl
    · exact hrange
    · rw [List.mem_singleton.mp hl]
      split
      · rename_i hnative
        exact native_inRange hlayout hrange hnative
      · rename_i hfunction
        rcases h.2.2 with hsome | hnative
        · exact function_inRange hsome
        · have hpos : 0 ≤ functionIndex layout (op.p 1) - layout.functions.length := ((inTable_iff).mp hnative).1
          exact absurd (by omega) hfunction

theorem forall_mem_pair {l l' : Lookup} : (∀ k ∈ [l, l'], k.InRange) ↔ l.InRange ∧ l'.InRange := by
  simp

theorem nonneg_of_validReg (h : validReg f reg = true) : 0 ≤ reg := (inRange_reg h).1

theorem this_inRange (h : validReg f reg = true) : (regLookup f 0).InRange := by
  obtain ⟨hpos, hlt⟩ := inRange_reg h
  exact ⟨Int.le_refl 0, Int.lt_of_le_of_lt hpos hlt⟩

theorem fields_fit_iff (h : validateInstruction m patch layout f i op = .ok ()) (hop : op.opcode ∈ fieldOps) :
    (∀ l ∈ tableLookups m patch layout types f i op, l.InRange) ↔ OperandsFit types f i op := by
  have htwo : op.opcode.operands = some 2 → ¬op.operands.length ≤ 1 := by
    intro hlength
    rw [operands_length hlength]
    decide
  simp only [fieldOps, List.mem_cons, List.not_mem_nil, or_false] at hop
  rcases hop with hop | hop | hop | hop <;>
    simp only [validateInstruction, hop, require_eq_ok, Bool.and_eq_true, Bool.or_eq_true,
      decide_eq_true_iff] at h <;>
    simp only [tableLookups, OperandsFit, hop]
  · exact fields_iff h.2
  · exact fields_iff h.1.2
  · have hfield := h.2.resolve_left (htwo (by rw [hop]; rfl))
    rw [forall_mem_pair, inRange_iff_lt (nonneg_of_validReg hfield)]
    exact and_iff_right (this_inRange h.1)
  · rw [forall_mem_pair, inRange_iff_lt (nonneg_of_validReg h.1)]
    exact and_iff_right (this_inRange h.1)

theorem methods_fit_iff (h : validateInstruction m patch layout f i op = .ok ()) (hop : op.opcode ∈ methodOps) :
    (∀ l ∈ tableLookups m patch layout types f i op, l.InRange) ↔ OperandsFit types f i op := by
  simp only [methodOps, List.mem_cons, List.not_mem_nil, or_false] at hop
  rcases hop with hop | hop <;>
    simp only [validateInstruction, hop, require_eq_ok, except_bind_eq_ok, Bool.and_eq_true,
      decide_eq_true_iff, exists_const] at h <;>
    obtain ⟨⟨⟨hdst, hmethod⟩, hcount⟩, hregs⟩ := h <;>
    have hargs := variadic_inRange hcount hregs <;>
    simp only [tableLookups, OperandsFit, hop, List.forall_mem_append]
  · rw [forall_mem_pair, inRange_iff_lt hmethod]
    exact ⟨fun h => h.1.2, fun h => ⟨⟨this_inRange hdst, h⟩, hargs⟩⟩
  · rw [args_inRange_iff hregs, getD_drop_three, List.length_drop]
    refine and_congr (by omega) ?_
    unfold HlType.MethodFits
    cases (regType types f (op.p 3)).kind <;>
      simp only [Nat.add_zero, List.forall_mem_cons, inRange_iff_lt hmethod, List.not_mem_nil, false_implies,
        implies_true, and_iff_left hargs]

theorem enums_fit_iff (h : validateInstruction m patch layout f i op = .ok ()) (hop : op.opcode ∈ enumOps) :
    (∀ l ∈ tableLookups m patch layout types f i op, l.InRange) ↔ OperandsFit types f i op := by
  have hconstruct : ∀ {constructs : List Nat} {index : Int} {P : Nat → Prop}, 0 ≤ index →
      (index < constructs.length ∧ P (constructs.getD index.toNat 0) ↔
        ∃ params, constructs[index.toNat]? = some params ∧ P params) := by
    intro constructs index P hpos
    rw [List.getD_eq_getElem?_getD]
    constructor
    · rintro ⟨hlt, hP⟩
      have hlt' : index.toNat < constructs.length := by omega
      rw [List.getElem?_eq_getElem hlt'] at hP ⊢
      exact ⟨_, rfl, hP⟩
    · rintro ⟨params, hparams, hP⟩
      have hlt := (List.getElem?_eq_some_iff.mp hparams).1
      rw [hparams]
      exact ⟨by omega, hP⟩
  simp only [enumOps, List.mem_cons, List.not_mem_nil, or_false] at hop
  rcases hop with hop | hop | hop <;>
    simp only [validateInstruction, hop, require_eq_ok, except_bind_eq_ok, Bool.and_eq_true,
      decide_eq_true_iff, exists_const] at h <;>
    simp only [tableLookups, OperandsFit, hop]
  · obtain ⟨⟨⟨-, hindex⟩, hcount⟩, hregs⟩ := h
    have hlength : 3 ≤ op.operands.length := by
      simp only [validArgumentCount, Bool.and_eq_true, decide_eq_true_iff] at hcount
      omega
    rw [List.forall_mem_cons, args_inRange_iff hregs, inRange_iff_lt hindex,
      hconstruct (P := fun params => params ≤ (op.operands.drop 3).length) hindex, List.length_drop]
    exact exists_congr fun params => and_congr_right fun _ => by omega
  · rw [forall_mem_singleton, inRange_iff_lt (nonneg_of_validReg h.2)]
  · obtain ⟨⟨-, hindex⟩, hfield⟩ := h
    rw [forall_mem_pair, inRange_iff_lt hindex, inRange_iff_lt hfield,
      hconstruct (P := fun params => op.p 3 < params) hindex]

/-- Every instruction of the function has passed its check. -/
def AllValid (m : HlModule) (patch : HlPatch) (layout : PatchLayout) (f : HlPatchFunction) : Prop :=
  ∀ (k : Nat) (op : HlPatchInstruction), f.instructions[k]? = some op →
    validateInstruction m patch layout f k op = .ok ()

theorem AllValid.global_inRange (hall : AllValid m patch layout f) {k : Nat}
    (hk : f.instructions[k]? = some op) (hop : op.opcode = .oGetGlobal) :
    (globalLookup m patch (op.p 1)).InRange := by
  have h := hall k op hk
  simp only [validateInstruction, hop, require_eq_ok, Bool.and_eq_true] at h
  exact (inTable_iff).mp h.2

theorem AllValid.ne_catch (hall : AllValid m patch layout f) {k : Nat}
    (hk : f.instructions[k]? = some op) : op.opcode ≠ .oCatch := by
  intro hop
  have h := hall k op hk
  simp [validateInstruction, hop] at h

theorem handlers_iff (hall : AllValid m patch layout f) (hpos : 0 ≤ op.p 1)
    (hbranch : validBranch f i (op.p 1) = true) :
    (∀ l ∈ handlerLookups m patch f i op, l.InRange) ↔
      ∀ next, f.instructions[(i + 1 + op.p 1).toNat]? = some next → next.opcode = .oGetGlobal →
        i + 2 + op.p 1 < f.instructions.length := by
  obtain ⟨-, hlt⟩ := (inTable_iff).mp hbranch
  simp only at hlt
  have hfirst : i + 1 < f.instructions.length := by omega
  have hhandler : ((i : Int) + 1 + op.p 1).toNat < f.instructions.length := by omega
  have hhead : Lookup.InRange ((i : Int) + 1, f.instructions.length) ∧
      Lookup.InRange ((i : Int) + 1 + op.p 1, f.instructions.length) :=
    ⟨⟨by simp only; omega, by simp only; omega⟩, ⟨by simp only; omega, hlt⟩⟩
  have hget := List.getElem?_eq_getElem hfirst
  have hcatch := hall.ne_catch hget
  have hnext := List.getElem?_eq_getElem hhandler
  have htoNat : ((i : Int) + 1).toNat = i + 1 := rfl
  simp only [handlerLookups, htoNat, hget, hnext, hcatch, if_false, List.forall_mem_append, forall_mem_pair,
    Option.some.injEq, forall_eq', and_iff_right hhead]
  split
  · rename_i hglobal
    simp only [hglobal, true_implies, List.forall_mem_cons]
    rw [inRange_iff_lt (by omega)]
    refine and_iff_left ?_
    split
    · split
      · rw [forall_mem_singleton]
        exact hall.global_inRange hnext hglobal
      · exact fun _ hl => (nomatch hl)
    · exact fun _ hl => (nomatch hl)
  · rename_i hother
    exact ⟨fun _ hglobal => absurd hglobal hother, fun _ _ hl => (nomatch hl)⟩

theorem traps_fit_iff (hall : AllValid m patch layout f) (hi : f.instructions[i]? = some op)
    (hop : op.opcode ∈ trapOps) :
    (∀ l ∈ tableLookups m patch layout types f i op, l.InRange) ↔ OperandsFit types f i op := by
  have h := hall i op hi
  simp only [trapOps, List.mem_cons, List.not_mem_nil, or_false] at hop
  rcases hop with hop | hop <;>
    simp only [validateInstruction, hop, require_eq_ok, Bool.and_eq_true, decide_eq_true_iff] at h <;>
    simp only [tableLookups, OperandsFit, hop] <;>
    exact handlers_iff hall h.1.2 h.2

theorem nextAccess_mem {ops : List HlPatchInstruction} {next : HlPatchInstruction}
    (h : nextAccess ops = some next) : next ∈ ops := by
  fun_induction nextAccess ops with
  | case1 => cases h
  | case2 op =>
    cases h
    exact List.mem_singleton_self _
  | case3 op ops hne hplain ih => exact List.mem_cons_of_mem _ (ih h)
  | case4 op ops hne hplain =>
    cases h
    exact List.mem_cons_self ..

theorem access_subset {k : Nat} {next : HlPatchInstruction} :
    accessLookups layout types f reg next ⊆ tableLookups m patch layout types f k next := by
  have hcall : ∀ rest, (if next.p 2 = reg ∧ 0 ≤ next.p 1 then [(next.p 1, layout.indexes.length)] else []) ⊆
      callLookups m layout (next.p 1) ++ rest := by
    intro rest l hl
    split at hl
    · rw [List.mem_singleton.mp hl]
      exact List.mem_append_left _ (List.mem_cons_self ..)
    · cases hl
  unfold accessLookups
  split
  · rename_i hop
    simp only [tableLookups, hop]
    split
    · rename_i hreg
      rw [hreg]
      exact List.Subset.refl _
    · exact List.nil_subset _
  · rename_i hop
    simp only [tableLookups, hop]
    split
    · rename_i hreg
      rw [hreg]
      exact List.Subset.refl _
    · exact List.nil_subset _
  · rename_i hop
    simp only [tableLookups, hop]
    exact hcall _
  · rename_i hop
    simp only [tableLookups, hop]
    exact hcall _
  · rename_i hop
    simp only [tableLookups, hop]
    exact hcall _
  · rename_i hop
    simp only [tableLookups, hop]
    exact hcall _
  · rename_i hop
    simp only [tableLookups, hop]
    exact hcall _
  · exact List.nil_subset _

def openOps : List HlOp := fieldOps ++ methodOps ++ enumOps ++ trapOps

theorem open_fit_iff (hall : AllValid m patch layout f) (hi : f.instructions[i]? = some op)
    (hopen : op.opcode ∈ openOps) :
    (∀ l ∈ tableLookups m patch layout types f i op, l.InRange) ↔ OperandsFit types f i op := by
  have h := hall i op hi
  simp only [openOps, List.mem_append] at hopen
  rcases hopen with ((hop | hop) | hop) | hop
  · exact fields_fit_iff h hop
  · exact methods_fit_iff h hop
  · exact enums_fit_iff h hop
  · exact traps_fit_iff hall hi hop

theorem fit_of_not_open (hopen : op.opcode ∉ openOps) : OperandsFit types f i op := by
  unfold OperandsFit
  split
  all_goals first
    | trivial
    | exact absurd (by rw [‹op.opcode = _›]; decide) hopen

theorem closed_inRange (hlayout : layout.Resolved m.natives.length)
    (h : validateInstruction m patch layout f i op = .ok ()) (hopen : op.opcode ∉ openOps)
    (hcheck : op.opcode ≠ .oNullCheck) : ∀ l ∈ tableLookups m patch layout types f i op, l.InRange := by
  by_cases hconstant : op.opcode ∈ constantOps
  · exact constants_inRange h hconstant
  · by_cases hfunction : op.opcode ∈ functionOps
    · exact functions_inRange hlayout h hfunction
    · have hnone : tableLookups m patch layout types f i op = [] := by
        unfold tableLookups
        simp only
        split
        all_goals first
          | rfl
          | exact absurd (by rw [‹op.opcode = _›]; decide) hopen
          | exact absurd (by rw [‹op.opcode = _›]; decide) hconstant
          | exact absurd (by rw [‹op.opcode = _›]; decide) hfunction
          | exact absurd ‹op.opcode = _› hcheck
      rw [hnone]
      exact fun _ hl => (nomatch hl)

theorem tables_inRange (hlayout : layout.Resolved m.natives.length) (hall : AllValid m patch layout f)
    (hfit : ∀ k op, f.instructions[k]? = some op → OperandsFit types f k op)
    (hi : f.instructions[i]? = some op) : ∀ l ∈ tableLookups m patch layout types f i op, l.InRange := by
  have hother : ∀ (k : Nat) (op : HlPatchInstruction), f.instructions[k]? = some op →
      op.opcode ≠ .oNullCheck → ∀ l ∈ tableLookups m patch layout types f k op, l.InRange := by
    intro k op hk hcheck
    by_cases hopen : op.opcode ∈ openOps
    · exact (open_fit_iff hall hk hopen).mpr (hfit k op hk)
    · exact closed_inRange hlayout (hall k op hk) hopen hcheck
  by_cases hcheck : op.opcode = .oNullCheck
  · intro l hl
    simp only [tableLookups, hcheck] at hl
    cases hnext : nextAccess (f.instructions.drop (i + 1)) with
    | none =>
      rw [hnext] at hl
      cases hl
    | some next =>
      rw [hnext] at hl
      obtain ⟨k, hk⟩ := List.getElem?_of_mem (nextAccess_mem hnext)
      rw [List.getElem?_drop] at hk
      -- the instruction behind is no null check, or nothing is read of it
      by_cases hagain : next.opcode = .oNullCheck
      · simp [accessLookups, hagain] at hl
      · exact hother (i + 1 + k) next hk hagain l (access_subset hl)
  · exact hother i op hi hcheck

theorem stagePatchLayout_of_checkPatch {env : PatchEnv} {result : PatchLayout × Nat}
    (h : checkPatch env m patch = .ok result) : stagePatchLayout env m patch = .ok result.1 := by
  simp only [checkPatch, except_bind_eq_ok, require_eq_ok] at h
  obtain ⟨_, -, _, -, _, -, _, -, _, -, _, -, _, -, size, -, _, -, layout, hlayout, _, -, _, -,
    _, -, _, -, _, -, _, -, hresult⟩ := h
  cases hresult
  exact hlayout

/-- In a patch that passes the checks, the lookups of the compiler are in range exactly when the operands
that the validator leaves open fit. -/
theorem lookups_inRange_iff (env : PatchEnv) (m : HlModule) (patch : HlPatch)
    (result : PatchLayout × Nat) (hm : m.Indexed) (h : checkPatch env m patch = .ok result)
    (types : List HlType) : ∀ f ∈ patch.functions,
      (∀ i op, f.instructions[i]? = some op → ∀ l ∈ emitLookups m patch result.1 types f i op, l.InRange) ↔
        ∀ i op, f.instructions[i]? = some op → OperandsFit types f i op := by
  intro f hf
  obtain ⟨k, hvalid⟩ := validateFunction_of_checkPatch h hf
  have hall : AllValid m patch result.1 f :=
    fun i op hop => validateInstruction_of_validateFunction hvalid hop
  have hlayout := resolved_of_stagePatchLayout hm (stagePatchLayout_of_checkPatch h)
  constructor
  · intro hrange i op hi
    by_cases hopen : op.opcode ∈ openOps
    · refine (open_fit_iff hall hi hopen).mp fun l hl => ?_
      exact hrange i op hi l (List.mem_append_right _ hl)
    · exact fit_of_not_open hopen
  · intro hfit i op hi l hl
    rcases List.mem_append.mp hl with hl | hl
    · obtain ⟨k, hk, rfl⟩ := List.mem_map.mp hl
      exact inRange_reg (registers_valid (hall i op hi) k hk)
    · exact tables_inRange hlayout hall hfit hi l hl

def pointType : HlType where
  kind := .hObj
  data := .obj
    { name := [], super := none, fields := [⟨[], 1, 1⟩], protos := [], bindings := [], globalValue := none
      rt := ⟨[⟨1, 1, 8⟩], [8], 0⟩ }
  gcOwner := false

def pointModule : HlModule :=
  { oneFunctionModule with
    types := oneFunctionModule.types ++ [pointType]
    ntypes := 3 }

def fieldPatch (field : Int) : HlPatch :=
  { bodyPatch [1, 2] [⟨.oField, [0, 1, field], rfl⟩, ⟨.oRet, [0], oRet_accepts⟩] with baseTypeCount := 3 }

theorem indexed_pointModule : pointModule.Indexed := by
  intro slot index _ hslot
  match slot with
  | 0 =>
    cases hslot
    exact .inl (by decide)
  | slot + 1 => cases hslot

theorem lookups_inRange_fieldPatch :
    ∃ result, checkPatch idleEnv pointModule (fieldPatch 0) = .ok result ∧ ∀ f ∈ (fieldPatch 0).functions,
      ∀ i op, f.instructions[i]? = some op →
        ∀ l ∈ emitLookups pointModule (fieldPatch 0) result.1 pointModule.types f i op, l.InRange := by
  refine ⟨_, rfl, fun f hf => ?_⟩
  refine (lookups_inRange_iff idleEnv pointModule (fieldPatch 0) _ indexed_pointModule rfl
    pointModule.types f hf).mpr ?_
  cases List.mem_singleton.mp hf
  intro i op hop
  match i with
  | 0 =>
    cases hop
    exact (by decide : (0 : Int) < 1)
  | 1 =>
    cases hop
    trivial
  | i + 2 => cases hop

/-- The validator takes any field index that is not negative. -/
theorem field_beyond_class :
    ∃ result, checkPatch idleEnv pointModule (fieldPatch 5) = .ok result ∧ ∃ f ∈ (fieldPatch 5).functions,
      ∃ op, f.instructions[0]? = some op ∧
        (5, 1) ∈ emitLookups pointModule (fieldPatch 5) result.1 pointModule.types f 0 op ∧
        ¬Lookup.InRange (5, 1) :=
  ⟨_, rfl, _, List.mem_singleton_self _, _, rfl, by decide, fun h => absurd h.2 (by decide)⟩

end HashLink
