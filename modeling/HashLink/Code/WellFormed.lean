import HashLink.Code.Accepted
import HashLink.Code.ReaderBounds

/-!
Whether the references of an accepted file denote entries. Those that are read by `hl_get_type`,
`hl_read_string` and `hl_read_ustring` do. A super class, the global of a class or an enum, the
functions of methods and bindings, the positions of the bytes, the constants and the operands of the
opcodes are taken as they stand in the file.

Where the opcodes of an accepted file can go. `hl_validate_function_control_flow` checks the jumps
and the traps; the table of a switch, its end and the operand of `OCatch`, which `opcodes.h` also
declares to be jump offsets, it does not look at.
-/

namespace HashLink.Code

def HlCode.HasType (code : HlCode) (i : Int) : Prop := 0 ≤ i ∧ i < code.types.length

def HlCode.HasString (code : HlCode) (i : Int) : Prop :=
  ∃ s, code.strings = some s ∧ 0 ≤ i ∧ i < s.entries.length

def HlCode.HasGlobal (code : HlCode) (i : Int) : Prop := 0 ≤ i ∧ i < code.globals.length

def HlCode.HasGlobalValue (code : HlCode) (i : Nat) : Prop := i = 0 ∨ code.HasGlobal (i - 1)

def HlCode.HasFunction (code : HlCode) (findex : Nat) : Prop :=
  findex < code.functions.length + code.natives.length

/-- The entry `OBytes` refers to: one of the bytes, or a string before version 5. -/
def HlCode.HasBytes (code : HlCode) (i : Int) : Prop :=
  if 5 ≤ code.header.version then 0 ≤ i ∧ i < code.bytesPos.length else code.HasString i

def HlObjField.WellFormed (code : HlCode) (f : HlObjField) : Prop :=
  code.HasString f.name ∧ code.HasType f.t

structure HlTypeObj.WellFormed (code : HlCode) (o : HlTypeObj) : Prop where
  name : code.HasString o.name
  super : ∀ t, o.super = some t → code.HasType t
  globalValue : code.HasGlobalValue o.globalValue
  fields : ∀ f ∈ o.fields, f.WellFormed code
  protos : ∀ p ∈ o.protos, code.HasString p.name ∧ code.HasFunction p.findex
  bindings : ∀ b ∈ o.bindings, code.HasFunction b.2

structure HlTypeEnum.WellFormed (code : HlCode) (e : HlTypeEnum) : Prop where
  name : code.HasString e.name
  globalValue : code.HasGlobalValue e.globalValue
  constructs : ∀ k ∈ e.constructs, code.HasString k.name ∧ ∀ t ∈ k.params, code.HasType (t : Nat)

def HlTypeData.WellFormed (code : HlCode) : HlTypeData → Prop
  | .none => True
  | .fun_ args ret => (∀ t ∈ args, code.HasType (t : Nat)) ∧ code.HasType ret
  | .obj o => o.WellFormed code
  | .virt fields => ∀ f ∈ fields, f.WellFormed code
  | .absName name => code.HasString name
  | .tenum e => e.WellFormed code
  | .tparam t => code.HasType t

def HlOpcode.WellFormed (code : HlCode) (op : HlOpcode) : Prop :=
  match op.op with
  | .oString | .oDynSet => code.HasString op.p2
  | .oDynGet => code.HasString op.p3
  | .oBytes => code.HasBytes op.p2
  | .oGetGlobal => code.HasGlobal op.p2
  | .oSetGlobal => code.HasGlobal op.p1
  | .oType => code.HasType op.p2
  | _ => True

def HlCode.HasConstant (code : HlCode) (kind : HlTypeKind) (i : Int) : Prop :=
  match kind with
  | .hI32 => 0 ≤ i ∧ i < code.ints.length
  | .hBool => True
  | .hF64 => 0 ≤ i ∧ i < code.floats.length
  | .hBytes => code.HasString i
  | .hType => code.HasType i
  | _ => code.HasGlobal i

def HlCode.fieldsOf (code : HlCode) (global : Nat) : List HlObjField :=
  match (code.globals[global]?).bind (code.types[·]?) with
  | some ⟨_, .obj o⟩ => o.fields
  | _ => []

structure HlConstant.WellFormed (code : HlCode) (k : HlConstant) : Prop where
  global : code.HasGlobal k.global
  fields : ∀ p ∈ (code.fieldsOf k.global).zip k.fields, ∀ t, code.types[p.1.t]? = some t →
    code.HasConstant t.kind p.2

structure HlNative.WellFormed (code : HlCode) (n : HlNative) : Prop where
  lib : ∃ i : Nat, n.lib = some i ∧ code.HasString i
  name : ∃ i : Nat, n.name = some i ∧ code.HasString i
  t : code.HasType n.t

structure HlFunction.WellFormed (code : HlCode) (f : HlFunction) : Prop where
  type : code.HasType f.type
  regs : ∀ t ∈ f.regs, code.HasType (t : Nat)
  ops : ∀ op ∈ f.ops, op.WellFormed code

/-- Every reference denotes an entry of the table it is for. -/
structure HlCode.WellFormed (code : HlCode) : Prop where
  types : ∀ t ∈ code.types, t.data.WellFormed code
  globals : ∀ t ∈ code.globals, code.HasType (t : Nat)
  natives : ∀ n ∈ code.natives, n.WellFormed code
  functions : ∀ f ∈ code.functions, f.WellFormed code
  constants : ∀ k ∈ code.constants, k.WellFormed code
  bytes : ∀ p ∈ code.bytesPos, (p : Int) < code.bytesSize

/-! ### The references that are not checked -/

def HlTypeData.RawInside (code : HlCode) : HlTypeData → Prop
  | .obj o => (∀ t, o.super = some t → code.HasType t) ∧ code.HasGlobalValue o.globalValue ∧
      (∀ p ∈ o.protos, code.HasFunction p.findex) ∧ ∀ b ∈ o.bindings, code.HasFunction b.2
  | .tenum e => code.HasGlobalValue e.globalValue
  | _ => True

/-- The references no check is made of are in range. -/
structure HlCode.RawInside (code : HlCode) : Prop where
  types : ∀ t ∈ code.types, t.data.RawInside code
  ops : ∀ f ∈ code.functions, ∀ op ∈ f.ops, op.WellFormed code
  constants : ∀ k ∈ code.constants, k.WellFormed code
  bytes : ∀ p ∈ code.bytesPos, (p : Int) < code.bytesSize

section

variable {code : HlCode}

theorem HlCode.Checked.hasType (h : code.Checked) {t : Nat} (ht : t < code.header.ntypes) :
    code.HasType t := by
  have := h.ntypes
  unfold HlCode.HasType
  omega

theorem HlCode.Checked.hasString (h : code.Checked) {i : Nat} (hi : i < code.header.nstrings) :
    code.HasString i := by
  obtain ⟨s, hs, hlength⟩ := h.strings
  exact ⟨s, hs, by omega, by omega⟩

theorem HlCode.Checked.field (h : code.Checked) {f : HlObjField} (hf : f.Checked code.header) :
    f.WellFormed code :=
  ⟨h.hasString hf.1, h.hasType hf.2⟩

theorem HlCode.Checked.type (h : code.Checked) {data : HlTypeData}
    (hchecked : data.Checked code.header) (hraw : data.RawInside code) : data.WellFormed code := by
  cases data with
  | none => trivial
  | fun_ args ret => exact ⟨fun t ht => h.hasType (hchecked.1 t ht), h.hasType hchecked.2⟩
  | obj o =>
    obtain ⟨hname, hfields, hprotos⟩ := hchecked
    obtain ⟨hsuper, hglobal, hmethods, hbindings⟩ := hraw
    exact ⟨h.hasString hname, hsuper, hglobal, fun f hf => h.field (hfields f hf),
      fun p hp => ⟨h.hasString (hprotos p hp), hmethods p hp⟩, hbindings⟩
  | virt fields => exact fun f hf => h.field (hchecked f hf)
  | absName name => exact h.hasString hchecked
  | tenum e =>
    obtain ⟨hname, hconstructs⟩ := hchecked
    exact ⟨h.hasString hname, hraw, fun k hk => ⟨h.hasString (hconstructs k hk).1,
      fun t ht => h.hasType ((hconstructs k hk).2 t ht)⟩⟩
  | tparam t => exact h.hasType hchecked

theorem HlTypeData.WellFormed.raw {data : HlTypeData} (h : data.WellFormed code) :
    data.RawInside code := by
  cases data with
  | obj o => exact ⟨h.super, h.globalValue, fun p hp => (h.protos p hp).2, h.bindings⟩
  | tenum e => exact h.globalValue
  | _ => trivial

theorem HlCode.Checked.native (h : code.Checked) {n : HlNative} (hn : n.Checked code.header) :
    n.WellFormed code := by
  obtain ⟨⟨i, hlib, hi⟩, ⟨j, hname, hj⟩, ht⟩ := hn
  exact ⟨⟨i, hlib, h.hasString hi⟩, ⟨j, hname, h.hasString hj⟩, h.hasType ht⟩

/-- An accepted file is well formed exactly when the references that are not checked are in
range. -/
theorem accepted_wellFormed_iff (data : Bytes) (size : BitVec 32) (fresh : Bytes) (code : HlCode)
    (h : accepted data size fresh = some code) : code.WellFormed ↔ code.RawInside := by
  have hchecked := checked_of_accepted h
  constructor
  · intro hwell
    exact ⟨fun t ht => (hwell.types t ht).raw, fun f hf => (hwell.functions f hf).ops,
      hwell.constants, hwell.bytes⟩
  · intro hraw
    refine ⟨fun t ht => hchecked.type (hchecked.types t ht) (hraw.types t ht),
      fun t ht => hchecked.hasType (hchecked.globals t ht),
      fun n hn => hchecked.native (hchecked.natives n hn), fun f hf => ?_, hraw.constants, hraw.bytes⟩
    have hf' := hchecked.functions f hf
    exact ⟨hchecked.hasType hf'.type, fun t ht => hchecked.hasType (hf'.regs t ht), hraw.ops f hf⟩

/-- A file with one class, of the super class `super`. -/
def classFile (super : UInt8) : List UInt8 :=
  [0x48, 0x4C, 0x42, 2, 0, 0, 0, 1, 1, 0, 0, 0, 0, 1, 0, 0, 0, 0, 0, 11, 0, super, 0, 0, 0, 0]

def classType (super : Nat) : HlType := ⟨.hObj, .obj ⟨0, some super, 0, [], [], []⟩⟩

theorem accepted_wellFormed_classFile :
    ∃ code, accepted (bytesOf (classFile 0)) 26 (fun _ => 0) = some code ∧
      code.types = [classType 0] ∧ code.WellFormed := by
  have hread : ∃ code, accepted (bytesOf (classFile 0)) 26 (fun _ => 0) = some code ∧
      code.types = [classType 0] ∧ code.functions = [] ∧ code.constants = [] ∧
      code.bytesPos = [] := ⟨_, rfl, rfl, rfl, rfl, rfl⟩
  obtain ⟨code, haccepted, htypes, hfunctions, hconstants, hbytes⟩ := hread
  refine ⟨code, haccepted, htypes, ?_⟩
  rw [accepted_wellFormed_iff _ _ _ code haccepted]
  refine ⟨?_, by simp [hfunctions], by simp [hconstants], by simp [hbytes]⟩
  simp [htypes, classType, HlTypeData.RawInside, HlCode.HasType, HlCode.HasGlobalValue]

theorem classFile_super_outside :
    (∃ code, accepted (bytesOf (classFile 5)) 26 (fun _ => 0) = some code ∧ code.types = [classType 5]) ∧
      ¬∀ data size fresh code, accepted data size fresh = some code → code.WellFormed := by
  have hread : ∃ code, accepted (bytesOf (classFile 5)) 26 (fun _ => 0) = some code ∧
      code.types = [classType 5] := ⟨_, rfl, rfl⟩
  refine ⟨hread, fun hall => ?_⟩
  obtain ⟨code, haccepted, htypes⟩ := hread
  have hclass := (hall _ _ _ code haccepted).types (classType 5) (by simp [htypes])
  have hsuper := hclass.super 5 rfl
  simp [HlCode.HasType, htypes] at hsuper

end

/-- Where an opcode at `i` may go besides the next one. -/
def HlOpcode.targets (op : HlOpcode) (i : Nat) : List Int :=
  match op.op with
  | .oJAlways | .oCatch => [i + 1 + op.p1]
  | .oJTrue | .oJFalse | .oJNull | .oJNotNull | .oTrap | .oCleanupTrap => [i + 1 + op.p2]
  | .oJSLt | .oJSGte | .oJSGt | .oJSLte | .oJULt | .oJUGte | .oJNotLt | .oJNotGte | .oJEq
  | .oJNotEq => [i + 1 + op.p3]
  | .oSwitch => (i + 1 + op.p3) :: op.extra.map fun offset => i + 1 + offset
  | _ => []

/-- Whether a target is an instruction of the body. -/
def HlFunction.Inside (f : HlFunction) (target : Int) : Prop := 0 ≤ target ∧ target < f.ops.length

def HlFunction.TargetsInside (f : HlFunction) : Prop :=
  ∀ (i : Nat) (op : HlOpcode), f.ops[i]? = some op → ∀ target ∈ op.targets i, f.Inside target

/-- The switches and the `OCatch` of the body stay in it. -/
def HlFunction.SwitchesInside (f : HlFunction) : Prop :=
  ∀ (i : Nat) (op : HlOpcode), f.ops[i]? = some op →
    (op.op = .oSwitch → f.Inside (i + 1 + op.p3) ∧ ∀ offset ∈ op.extra, f.Inside (i + 1 + offset)) ∧
    (op.op = .oCatch → f.Inside (i + 1 + op.p1))

variable {f : HlFunction} {i : Nat} {op : HlOpcode}

theorem validTarget_inside {offset : Int} (hi : i < 2 ^ 29) (hsmall : Small offset)
    (h : validTarget f i offset = true) : f.Inside (i + 1 + offset) := by
  have hnext : addInt (i : Int) 1 = i + 1 := addInt_eq (by omega) (by omega)
  have hsum : addInt (i + 1) offset = i + 1 + offset :=
    addInt_eq (by unfold Small at hsmall; omega) (by unfold Small at hsmall; omega)
  simp only [validTarget, hnext, hsum, Bool.and_eq_true, decide_eq_true_eq] at h
  exact h

theorem validateOpcode_of_flow (h : hlValidateFunctionControlFlow f = none)
    (hop : f.ops[i]? = some op) : validateOpcode f i op = none := by
  unfold hlValidateFunctionControlFlow at h
  rw [List.findSome?_eq_none_iff] at h
  apply h (op, i)
  rw [List.mem_zipIdx_iff_getElem?]
  exact hop

theorem passed {ok : Prop} [Decidable ok] {error : String}
    (h : (if ok then none else some error) = none) : ok := by
  by_contra hno
  simp [hno] at h

theorem targets_inside_of_validateOpcode (hi : i < 2 ^ 29) (hsmall : op.Small)
    (h : validateOpcode f i op = none) (hswitch : op.op ≠ .oSwitch) (hcatch : op.op ≠ .oCatch) :
    ∀ target ∈ op.targets i, f.Inside target := by
  unfold validateOpcode at h
  unfold HlOpcode.targets
  cases hop : op.op <;> simp only [hop, List.forall_mem_singleton] at h ⊢
  case oSwitch => exact absurd hop hswitch
  case oCatch => exact absurd hop hcatch
  case oJAlways => exact validTarget_inside hi hsmall.p1 (passed h)
  case oJTrue | oJFalse | oJNull | oJNotNull => exact validTarget_inside hi hsmall.p2 (passed h)
  case oTrap | oCleanupTrap =>
    have hvalid : validTarget f i op.p2 = true := by
      by_contra hno
      simp [hno] at h
    exact validTarget_inside hi hsmall.p2 hvalid
  case oJSLt | oJSGte | oJSGt | oJSLte | oJULt | oJUGte | oJNotLt | oJNotGte | oJEq | oJNotEq =>
    exact validTarget_inside hi hsmall.p3 (passed h)
  all_goals simp

/-- In an accepted file, every target of a function is in its body exactly when those of its
switches and of its `OCatch` are. -/
theorem accepted_targetsInside_iff (data : Bytes) (size : BitVec 32) (fresh : Bytes) (code : HlCode)
    (h : accepted data size fresh = some code) :
    ∀ f ∈ code.functions, f.TargetsInside ↔ f.SwitchesInside := by
  intro f hf
  have hchecked := (checked_of_accepted h).functions f hf
  constructor
  · intro hinside i op hop
    have htargets := hinside i op hop
    unfold HlOpcode.targets at htargets
    refine ⟨fun hswitch => ?_, fun hcatch => ?_⟩
    · rw [hswitch] at htargets
      refine ⟨htargets _ List.mem_cons_self, fun offset hoffset => htargets _ ?_⟩
      exact List.mem_cons_of_mem _ (List.mem_map_of_mem hoffset)
    · rw [hcatch] at htargets
      exact htargets _ List.mem_cons_self
  · intro hswitches i op hop
    obtain ⟨hswitch, hcatch⟩ := hswitches i op hop
    by_cases his : op.op = .oSwitch
    · obtain ⟨hend, htable⟩ := hswitch his
      simp only [HlOpcode.targets, his, List.forall_mem_cons, List.forall_mem_map]
      exact ⟨hend, htable⟩
    by_cases hic : op.op = .oCatch
    · simp only [HlOpcode.targets, hic, List.forall_mem_singleton]
      exact hcatch hic
    obtain ⟨hlt, -⟩ := List.getElem?_eq_some_iff.mp hop
    exact targets_inside_of_validateOpcode (by have := hchecked.nops; omega)
      (hchecked.small op (List.mem_of_getElem? hop)) (validateOpcode_of_flow hchecked.flow hop) his hic

/-- A file with one function of two opcodes: a switch of one case, which goes on by `offset`, and a
return. -/
def switchFile (offset : UInt8) : List UInt8 :=
  [0x48, 0x4C, 0x42, 2, 0, 0, 0, 0, 1, 0, 0, 1, 0, 0, 0, 0, 0, 0, 0, 0, 1, 2, 0, 70, 0, 1, offset, 0, 67, 0]

def switchFunction (offset : Int) : HlFunction where
  type := 0
  findex := 0
  regs := [0]
  ops := [{ op := .oSwitch, p1 := 0, p2 := 1, p3 := 0, extra := [offset] }, { op := .oRet, p1 := 0 }]

theorem accepted_targetsInside_switchFile :
    ∃ code, accepted (bytesOf (switchFile 0)) 30 (fun _ => 0) = some code ∧
      code.functions = [switchFunction 0] ∧ (switchFunction 0).TargetsInside := by
  have hread : ∃ code, accepted (bytesOf (switchFile 0)) 30 (fun _ => 0) = some code ∧
      code.functions = [switchFunction 0] := ⟨_, rfl, rfl⟩
  obtain ⟨code, haccepted, hfunctions⟩ := hread
  refine ⟨code, haccepted, hfunctions, ?_⟩
  rw [accepted_targetsInside_iff _ _ _ code haccepted _ (by simp [hfunctions])]
  intro i op hop
  rcases i with _ | _ | i <;> simp [switchFunction] at hop <;> subst hop <;>
    simp [switchFunction, HlFunction.Inside]

theorem switchFile_leaves_body :
    (∃ code, accepted (bytesOf (switchFile 5)) 30 (fun _ => 0) = some code ∧
      code.functions = [switchFunction 5]) ∧
      ¬∀ data size fresh code, accepted data size fresh = some code →
        ∀ f ∈ code.functions, f.TargetsInside := by
  have hread : ∃ code, accepted (bytesOf (switchFile 5)) 30 (fun _ => 0) = some code ∧
      code.functions = [switchFunction 5] := ⟨_, rfl, rfl⟩
  refine ⟨hread, fun hall => ?_⟩
  obtain ⟨code, haccepted, hfunctions⟩ := hread
  have hinside := hall _ _ _ code haccepted (switchFunction 5) (by simp [hfunctions])
  have htarget := hinside 0 _ rfl 6 (by decide)
  exact absurd htarget.2 (by decide)

end HashLink.Code
