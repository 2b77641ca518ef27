import HashLink.Code.Read

/-!
What `hl_code_read` has checked of the file it accepts. Every reading function is judged by the
value it returns when no error is noted at the end; a file is accepted only then.
-/

namespace HashLink.Code

open Sticky

variable {c : HlHeader}

def HlObjField.Checked (c : HlHeader) (f : HlObjField) : Prop := f.name < c.nstrings ∧ f.t < c.ntypes

def HlEnumConstruct.Checked (c : HlHeader) (k : HlEnumConstruct) : Prop :=
  k.name < c.nstrings ∧ ∀ t ∈ k.params, t < c.ntypes

def HlTypeData.Checked (c : HlHeader) : HlTypeData → Prop
  | .none => True
  | .fun_ args ret => (∀ t ∈ args, t < c.ntypes) ∧ ret < c.ntypes
  | .obj o =>
    o.name < c.nstrings ∧ (∀ f ∈ o.fields, f.Checked c) ∧ ∀ p ∈ o.protos, p.name < c.nstrings
  | .virt fields => ∀ f ∈ fields, f.Checked c
  | .absName name => name < c.nstrings
  | .tenum e => e.name < c.nstrings ∧ ∀ k ∈ e.constructs, k.Checked c
  | .tparam t => t < c.ntypes

def Small (i : Int) : Prop := -(2 : Int) ^ 29 < i ∧ i < 2 ^ 29

structure HlOpcode.Small (op : HlOpcode) : Prop where
  p1 : Code.Small op.p1
  p2 : Code.Small op.p2
  p3 : Code.Small op.p3

structure HlFunction.Checked (c : HlHeader) (f : HlFunction) : Prop where
  type : f.type < c.ntypes
  regs : ∀ t ∈ f.regs, t < c.ntypes
  nops : f.ops.length < 2 ^ 29
  small : ∀ op ∈ f.ops, op.Small
  flow : hlValidateFunctionControlFlow f = none

structure HlNative.Checked (c : HlHeader) (n : HlNative) : Prop where
  lib : ∃ i, n.lib = some i ∧ i < c.nstrings
  name : ∃ i, n.name = some i ∧ i < c.nstrings
  t : n.t < c.ntypes

/-- What is known of a module that was read. -/
structure HlCode.Checked (code : HlCode) : Prop where
  strings : ∃ s, code.strings = some s ∧ s.entries.length = code.header.nstrings
  ntypes : code.types.length = code.header.ntypes
  types : ∀ t ∈ code.types, t.data.Checked code.header
  globals : ∀ t ∈ code.globals, t < code.header.ntypes
  natives : ∀ n ∈ code.natives, n.Checked code.header
  functions : ∀ f ∈ code.functions, f.Checked code.header

theorem small_zero : Small 0 := by
  unfold Small
  omega

theorem small_of_nat {n : Nat} (h : n < 2 ^ 29) : Small n := by
  unfold Small
  omega

theorem yields_true {α : Type} {x : ReadM α} {good : α → Prop}
    (h : Yields HlReader.Clean x good) : Yields HlReader.Clean x fun _ => True :=
  yields_mono h fun _ _ => trivial

theorem hlGetType_checked : Yields HlReader.Clean (hlGetType c) fun t => t < c.ntypes := by
  refine yields_bind hlReadIndex_clean fun i => yields_ite (fun _ => yields_error _) fun hin => ?_
  refine yields_pure fun _ => ?_
  omega

theorem hlReadString_checked : Yields HlReader.Clean (hlReadString c) fun s =>
    ∃ i, s = some i ∧ i < c.nstrings := by
  refine yields_bind hlReadIndex_clean fun i => yields_ite (fun _ => yields_error _) fun hin => ?_
  refine yields_pure fun _ => ⟨i.toNat, rfl, ?_⟩
  omega

theorem hlReadUstring_checked : Yields HlReader.Clean (hlReadUstring c) fun i => i < c.nstrings := by
  have hindex : Yields HlReader.Clean (ustringIndex c) fun i => i < c.nstrings := by
    refine yields_bind hlReadIndex_clean fun i => yields_ite (fun _ => yields_error _) fun hin => ?_
    refine yields_pure fun _ => ?_
    omega
  exact yields_bind hindex fun i => yields_ite (fun _ => yields_throw _) fun _ => yields_pure id

theorem collect_types_checked (n : Nat) : Yields HlReader.Clean (collect (hlGetType c) n) fun l =>
    ∀ t ∈ l, t < c.ntypes :=
  yields_mono (yields_collect hlGetType_checked n) fun _ h => h.2

theorem hlReadField_checked : Yields HlReader.Clean (hlReadField c) (HlObjField.Checked c) :=
  yields_bind hlReadUstring_checked fun _ => yields_bind hlGetType_checked fun _ =>
    yields_pure fun ht hname => ⟨hname, ht⟩

theorem collect_fields_checked (n : Nat) : Yields HlReader.Clean (collect (hlReadField c) n) fun l =>
    ∀ f ∈ l, f.Checked c :=
  yields_mono (yields_collect hlReadField_checked n) fun _ h => h.2

theorem hlReadProto_checked : Yields HlReader.Clean (hlReadProto c) fun p => p.name < c.nstrings :=
  yields_bind hlReadUstring_checked fun _ => yields_bind hlReadUindex_clean fun _ =>
    yields_bind hlReadIndex_clean fun _ => yields_pure fun _ _ hname => hname

theorem hlReadBinding_checked : Yields HlReader.Clean hlReadBinding fun _ => True :=
  yields_bind hlReadUindex_clean fun _ => yields_bind hlReadUindex_clean fun _ =>
    yields_pure fun _ _ => trivial

theorem hlReadConstruct_checked :
    Yields HlReader.Clean (hlReadConstruct c) (HlEnumConstruct.Checked c) :=
  yields_bind hlReadUstring_checked fun _ => yields_bind hlReadUindex_clean fun n =>
    yields_bind (collect_types_checked n) fun _ => yields_pure fun hparams _ hname =>
      ⟨hname, hparams⟩

theorem hlReadObj_checked : Yields HlReader.Clean (hlReadObj c) fun o =>
    (HlTypeData.obj o).Checked c := by
  refine yields_bind hlReadUstring_checked fun _ => yields_bind hlReadIndex_clean fun _ =>
    yields_bind hlReadUindex_clean fun _ => yields_bind hlReadUindex_clean fun nfields =>
    yields_bind hlReadUindex_clean fun nproto => yields_bind hlReadUindex_clean fun nbindings =>
    yields_bind (collect_fields_checked nfields) fun _ =>
    yields_bind (yields_collect hlReadProto_checked nproto) fun _ =>
    yields_bind (yields_collect hlReadBinding_checked nbindings) fun _ => yields_pure ?_
  exact fun _ hprotos hfields _ _ _ _ _ hname => ⟨hname, hfields, hprotos.2⟩

theorem hlReadTypeData_checked (kind : HlTypeKind) :
    Yields HlReader.Clean (hlReadTypeData c kind) (HlTypeData.Checked c) := by
  have hfun : Yields HlReader.Clean (hlReadTypeData c .hFun) (HlTypeData.Checked c) :=
    yields_bind hlReadB_clean fun _ => yields_bind (collect_types_checked _) fun _ =>
      yields_bind hlGetType_checked fun _ => yields_pure fun hret hargs _ => ⟨hargs, hret⟩
  have hobj : Yields HlReader.Clean (hlReadTypeData c .hObj) (HlTypeData.Checked c) :=
    yields_bind hlReadObj_checked fun _ => yields_pure id
  have hparam : Yields HlReader.Clean (hlReadTypeData c .hRef) (HlTypeData.Checked c) :=
    yields_bind hlGetType_checked fun _ => yields_pure id
  cases kind with
  | hFun => exact hfun
  | hMethod => exact hfun
  | hObj => exact hobj
  | hStruct => exact hobj
  | hVirtual =>
    exact yields_bind hlReadUindex_clean fun n => yields_bind (collect_fields_checked n) fun _ =>
      yields_pure fun hfields _ => hfields
  | hAbstract => exact yields_bind hlReadUstring_checked fun _ => yields_pure id
  | hEnum =>
    exact yields_bind hlReadUstring_checked fun _ => yields_bind hlReadUindex_clean fun _ =>
      yields_bind hlReadUindex_clean fun n =>
        yields_bind (yields_collect hlReadConstruct_checked n) fun _ =>
          yields_pure fun hconstructs _ _ hname => ⟨hname, hconstructs.2⟩
  | hRef => exact hparam
  | hNull => exact hparam
  | hPacked => exact hparam
  | _ => exact yields_pure trivial

theorem hlReadType_checked : Yields HlReader.Clean (hlReadType c) fun t => t.data.Checked c := by
  refine yields_bind hlReadB_clean fun b => ?_
  split
  · exact yields_error _
  · exact yields_bind (hlReadTypeData_checked _) fun _ => yields_pure fun h _ => h

theorem hlReadTypeEntry_checked :
    Yields HlReader.Clean (hlReadTypeEntry c) fun t => t.data.Checked c :=
  yields_bind hlReadType_checked fun _ => yields_bind chkError_clean fun _ =>
    yields_pure fun _ h => h

theorem hlReadOperands_small (op : HlOp) (n : Nat) :
    Yields HlReader.Clean (hlReadOperands op n) HlOpcode.Small := by
  match n with
  | 0 => exact yields_pure ⟨small_zero, small_zero, small_zero⟩
  | 1 =>
    exact yields_bind hlReadIndex_clean fun _ => yields_pure fun h1 => ⟨h1, small_zero, small_zero⟩
  | 2 =>
    exact yields_bind hlReadIndex_clean fun _ => yields_bind hlReadIndex_clean fun _ =>
      yields_pure fun h2 h1 => ⟨h1, h2, small_zero⟩
  | n + 3 =>
    exact yields_bind hlReadIndex_clean fun _ => yields_bind hlReadIndex_clean fun _ =>
      yields_bind hlReadIndex_clean fun _ =>
        yields_bind (yields_collect hlReadIndex_clean n) fun _ =>
          yields_pure fun _ h3 h2 h1 => ⟨h1, h2, h3⟩

theorem hlReadSwitch_small : Yields HlReader.Clean hlReadSwitch HlOpcode.Small :=
  yields_bind hlReadUindex_clean fun _ => yields_bind hlReadUindex_clean fun n =>
    yields_bind (yields_collect hlReadUindex_clean n) fun _ =>
      yields_bind hlReadUindex_clean fun _ => yields_pure fun h3 _ h2 h1 =>
        ⟨small_of_nat h1, small_of_nat h2, small_of_nat h3⟩

theorem hlReadCallArgs_small (op : HlOp) : Yields HlReader.Clean (hlReadCallArgs op) HlOpcode.Small :=
  yields_bind hlReadIndex_clean fun _ => yields_bind hlReadIndex_clean fun _ =>
    yields_bind hlReadB_clean fun n => yields_bind (yields_collect hlReadIndex_clean _) fun _ =>
      yields_pure fun _ _ h2 h1 => ⟨h1, h2, small_of_nat (byte_lt_of_le n (by decide))⟩

theorem hlReadOpcode_small : Yields HlReader.Clean hlReadOpcode HlOpcode.Small := by
  refine yields_bind hlReadB_clean fun b => ?_
  split
  · exact yields_error _
  · refine yields_mono ?_ fun _ h _ => h
    split
    · exact hlReadOperands_small _ _
    · exact yields_ite (fun _ => hlReadSwitch_small) fun _ => hlReadCallArgs_small _

/-- A function before its control flow is checked. -/
structure HlFunction.Read (c : HlHeader) (f : HlFunction) : Prop where
  type : f.type < c.ntypes
  regs : ∀ t ∈ f.regs, t < c.ntypes
  nops : f.ops.length < 2 ^ 29
  small : ∀ op ∈ f.ops, op.Small

theorem hlReadFunction_read : Yields HlReader.Clean (hlReadFunction c) (HlFunction.Read c) := by
  refine yields_bind hlGetType_checked fun _ => yields_bind hlReadUindex_clean fun _ =>
    yields_bind hlReadUindex_clean fun nregs => yields_bind hlReadUindex_clean fun nops =>
    yields_bind (collect_types_checked nregs) fun regs => yields_get_bind fun r f r' hrun hclean => ?_
  split at hrun
  · obtain ⟨-, rfl⟩ := pure_eq_ok.mp hrun
    simp_all [HlReader.Clean]
  · obtain ⟨ops, t, hops, hreturn⟩ := bind_eq_ok.mp hrun
    obtain ⟨rfl, rfl⟩ := pure_eq_ok.mp hreturn
    obtain ⟨hstart, hlength, hsmall⟩ := yields_collect hlReadOpcode_small nops _ _ _ hops hclean
    exact ⟨hstart, fun hregs hnops _ _ htype => ⟨htype, hregs, hlength ▸ hnops, hsmall⟩⟩

theorem debugLoop_clean (ndebugfiles fuel : Nat) (n curfile curline : Int) (debug : List (Int × Int)) :
    Yields HlReader.Clean (debugLoop ndebugfiles fuel n curfile curline debug) fun _ => True := by
  induction fuel generalizing n curfile curline debug with
  | zero => exact yields_pure trivial
  | succ fuel ih =>
    have hnext : ∀ n curfile curline debug, Yields HlReader.Clean
        (debugLoop ndebugfiles fuel n curfile curline debug) fun _ => True → True :=
      fun n curfile curline debug => yields_mono (ih n curfile curline debug) fun _ _ _ => trivial
    have herror : ∀ message n curfile curline debug, Yields HlReader.Clean
        (do hlError message; debugLoop ndebugfiles fuel n curfile curline debug)
        fun _ => True → True := fun message n curfile curline debug => by
      have hnote : Yields HlReader.Clean (hlError message) fun _ => True := hlError_clean
      exact yields_bind hnote fun _ =>
        yields_mono (ih n curfile curline debug) fun _ _ _ _ => trivial
    refine yields_ite (fun _ => yields_pure trivial) fun _ => yields_bind hlReadB_clean fun c => ?_
    refine yields_ite (fun _ => ?_) fun _ => yields_ite (fun _ => ?_) fun _ =>
      yields_ite (fun _ => hnext _ _ _ _) fun _ => ?_
    · refine yields_bind hlReadB_clean fun _ => yields_mono ?_ fun _ h _ => h
      exact yields_ite (fun _ => herror _ _ _ _ _) fun _ => hnext _ _ _ _
    · exact yields_ite (fun _ => herror _ _ _ _ _) fun _ => hnext _ _ _ _
    · exact yields_bind hlReadB_clean fun _ => yields_bind hlReadB_clean fun _ =>
        yields_mono (ih _ _ _ _) fun _ _ _ _ _ => trivial

theorem hlReadDebugInfos_clean (ndebugfiles nops : Nat) :
    Yields HlReader.Clean (hlReadDebugInfos ndebugfiles nops) fun _ => True :=
  yields_get_bind fun _ _ _ hrun hclean => debugLoop_clean _ _ _ _ _ _ _ _ _ hrun hclean

theorem hlReadAssign_clean : Yields HlReader.Clean (hlReadAssign c) fun _ => True := by
  refine yields_bind hlReadUindex_clean fun _ => yields_bind hlReadIndex_clean fun _ =>
    yields_ite (fun _ => ?_) fun _ => yields_pure fun _ _ => trivial
  exact yields_bind hlReadIndex_clean fun _ => yields_pure fun _ _ _ => trivial

theorem hlReadFunctionDebug_keeps (ndebugfiles : Nat) (f : HlFunction) :
    Yields HlReader.Clean (hlReadFunctionDebug c ndebugfiles f) fun f' =>
      f'.type = f.type ∧ f'.regs = f.regs ∧ f'.ops = f.ops := by
  refine yields_ite (fun _ => ?_) fun _ => yields_pure ⟨rfl, rfl, rfl⟩
  refine yields_bind (hlReadDebugInfos_clean _ _) fun _ =>
    yields_ite (fun _ => ?_) fun _ => yields_pure fun _ => ⟨rfl, rfl, rfl⟩
  exact yields_bind hlReadUindex_clean fun n =>
    yields_bind (yields_collect hlReadAssign_clean n) fun _ =>
      yields_pure fun _ _ _ => ⟨rfl, rfl, rfl⟩

theorem hlValidateFunctionControlFlow_congr {f f' : HlFunction} (h : f'.ops = f.ops) :
    hlValidateFunctionControlFlow f' = hlValidateFunctionControlFlow f := by
  have htarget : validTarget f' = validTarget f := by
    funext i offset
    simp only [validTarget, h]
  have hopcode : validateOpcode f' = validateOpcode f := by
    funext i op
    simp only [validateOpcode, htarget]
  simp only [hlValidateFunctionControlFlow, hopcode, h]

theorem hlReadFunctionEntry_checked (ndebugfiles : Nat) :
    Yields HlReader.Clean (hlReadFunctionEntry c ndebugfiles) (HlFunction.Checked c) := by
  refine yields_bind hlReadFunction_read fun f => yields_bind chkError_clean fun _ => ?_
  split
  · exact hlExit_clean _
  · rename_i hflow
    refine yields_mono (hlReadFunctionDebug_keeps ndebugfiles f) fun f' hsame _ hread => ?_
    obtain ⟨htype, hregs, hops⟩ := hsame
    refine ⟨htype ▸ hread.type, hregs ▸ hread.regs, hops ▸ hread.nops, hops ▸ hread.small, ?_⟩
    rw [hlValidateFunctionControlFlow_congr hops, hflow]

theorem stringLoop_length (base : Bytes) (size : Int) (n : Nat) (sdata : Int) :
    Yields HlReader.Clean (stringLoop base size n sdata) fun entries =>
      ∃ l, entries = some l ∧ l.length = n := by
  induction n generalizing sdata with
  | zero => exact yields_pure ⟨[], rfl, rfl⟩
  | succ n ih =>
    refine yields_bind hlReadUindex_clean fun sz => yields_ite (fun _ => yields_error _) fun _ => ?_
    refine yields_bind (ih _) fun rest => yields_pure ?_
    rintro ⟨l, rfl, hlength⟩ -
    exact ⟨_, rfl, by simp [hlength]⟩

theorem hlReadStrings_length (n : Nat) : Yields HlReader.Clean (hlReadStrings n) fun strings =>
    ∃ s, strings = some s ∧ s.entries.length = n := by
  refine yields_bind hlReadI32_clean fun size => yields_get_bind fun r s r' hrun hclean => ?_
  have hrest : Yields HlReader.Clean (do
      let base ← hlReadBytes r.fresh size
      let entries ← stringLoop base size n 0
      return entries.map fun entries => { base, entries }) fun strings =>
        ∃ s : HlStrings, strings = some s ∧ s.entries.length = n := by
    refine yields_bind (hlReadBytes_clean r.fresh size) fun base =>
      yields_bind (stringLoop_length base size n 0) fun entries => yields_pure ?_
    rintro ⟨l, rfl, hlength⟩ -
    exact ⟨⟨base, l⟩, rfl, hlength⟩
  obtain ⟨hstart, hgood⟩ := hrest r s r' hrun hclean
  exact ⟨hstart, fun _ => hgood⟩

theorem hlReadCountSince_clean (first version : Nat) :
    Yields HlReader.Clean (hlReadCountSince first version) fun _ => True :=
  yields_ite (fun _ => yields_true hlReadUindex_clean) fun _ => yields_pure trivial

theorem hlReadNative_checked : Yields HlReader.Clean (hlReadNative c) (HlNative.Checked c) :=
  yields_bind hlReadString_checked fun _ => yields_bind hlReadString_checked fun _ =>
    yields_bind hlGetType_checked fun _ => yields_bind hlReadUindex_clean fun _ =>
      yields_pure fun _ ht hname hlib => ⟨hlib, hname, ht⟩

theorem hlReadHeader_clean : Yields HlReader.Clean hlReadHeader fun _ => True := by
  refine yields_bind hlReadB_clean fun _ => yields_ite (fun _ => hlExit_clean _) fun _ =>
    yields_bind hlReadB_clean fun _ => yields_ite (fun _ => hlExit_clean _) fun _ =>
    yields_bind hlReadB_clean fun _ => yields_ite (fun _ => hlExit_clean _) fun _ =>
    yields_bind hlReadB_clean fun version => yields_ite (fun _ => hlExit_clean _) fun _ => ?_
  refine yields_bind hlReadUindex_clean fun _ => yields_bind hlReadUindex_clean fun _ =>
    yields_bind hlReadUindex_clean fun _ => yields_bind hlReadUindex_clean fun _ =>
    yields_bind (hlReadCountSince_clean _ _) fun _ =>
    yields_bind hlReadUindex_clean fun _ => yields_bind hlReadUindex_clean fun _ =>
    yields_bind hlReadUindex_clean fun _ => yields_bind hlReadUindex_clean fun _ =>
    yields_bind (hlReadCountSince_clean _ _) fun _ => ?_
  refine yields_bind hlReadUindex_clean fun _ => yields_bind chkError_clean fun _ => yields_pure ?_
  intros
  trivial

theorem hlReadBytesTable_clean : Yields HlReader.Clean (hlReadBytesTable c) fun _ => True := by
  refine yields_ite (fun _ => ?_) fun _ => yields_pure trivial
  refine yields_bind hlReadI32_clean fun size => yields_get_bind fun r t r' hrun hclean => ?_
  have hrest : Yields HlReader.Clean (do
      let bytes ← hlReadBytes r.fresh size
      chkError
      let bytesPos ← collect hlReadUindex c.nbytes
      chkError
      return (bytes, size, bytesPos)) fun _ => True :=
    yields_bind (hlReadBytes_clean _ _) fun _ => yields_bind chkError_clean fun _ =>
      yields_bind (yields_collect hlReadUindex_clean _) fun _ => yields_bind chkError_clean fun _ =>
        yields_pure fun _ _ _ _ => trivial
  exact ⟨(hrest r t r' hrun hclean).1, fun _ => trivial⟩

theorem hlReadDebugFiles_clean : Yields HlReader.Clean (hlReadDebugFiles c) fun _ => True := by
  refine yields_ite (fun _ => ?_) fun _ => yields_pure trivial
  exact yields_bind hlReadUindex_clean fun n => yields_bind (hlReadStrings_length n) fun _ =>
    yields_bind chkError_clean fun _ => yields_pure fun _ _ _ => trivial

theorem hlReadConstant_clean : Yields HlReader.Clean hlReadConstant fun _ => True :=
  yields_bind hlReadUindex_clean fun _ => yields_bind hlReadUindex_clean fun n =>
    yields_bind (yields_collect hlReadUindex_clean n) fun _ =>
      yields_bind chkError_clean fun _ => yields_pure fun _ _ _ _ => trivial

theorem withSection_clean {α : Type} (data : Bytes) (size : Nat) (x : ReadM α) :
    Yields HlReader.Clean (withSection data size x) fun _ => True := by
  intro r a r' hrun hclean
  unfold withSection at hrun
  split at hrun
  · cases hrun
    exact ⟨hclean, trivial⟩
  · cases hrun

theorem hlReadFunctionIdentities_clean (functions : List HlFunction) (ids : HlIdentities)
    (data : Bytes) (size : Nat) :
    Yields HlReader.Clean (hlReadFunctionIdentities functions ids data size) fun _ => True := by
  refine yields_bind (withSection_clean data size _) fun result => ?_
  cases result with
  | error e => exact yields_error _
  | ok ids => exact yields_pure fun _ => trivial

theorem hlReadDebugSection_clean (functions : List HlFunction) (ids : HlIdentities) :
    Yields HlReader.Clean (hlReadDebugSection functions ids) fun _ => True := by
  refine yields_bind hlReadUindex_clean fun kind => yields_bind hlReadUindex_clean fun version =>
    yields_bind hlReadUindex_clean fun _ => yields_bind hlReadUindex_clean fun size =>
    yields_bind chkError_clean fun _ => yields_ite (fun _ => hlExit_clean _) fun _ =>
    yields_get_bind fun r ids' r' hrun hclean => ?_
  have hrest : Yields HlReader.Clean (do
      let data ← hlReadBytes r.fresh size
      chkError
      if kind = 1 ∧ version = 1 then
        let ids ← hlReadFunctionIdentities functions ids data size
        chkError
        return ids
      else return ids) fun _ => True := by
    refine yields_bind (hlReadBytes_clean _ _) fun data => yields_bind chkError_clean fun _ =>
      yields_ite (fun _ => ?_) fun _ => yields_pure fun _ _ => trivial
    exact yields_bind (hlReadFunctionIdentities_clean functions ids data size) fun _ =>
      yields_bind chkError_clean fun _ => yields_pure fun _ _ _ _ => trivial
  exact ⟨(hrest r ids' r' hrun hclean).1, fun _ _ _ _ _ => trivial⟩

theorem hlReadDebugSections_clean (functions : List HlFunction) (n : Nat) (ids : HlIdentities) :
    Yields HlReader.Clean (hlReadDebugSections functions n ids) fun _ => True := by
  induction n generalizing ids with
  | zero => exact yields_pure trivial
  | succ n ih =>
    exact yields_bind (hlReadDebugSection_clean functions ids) fun ids' =>
      yields_mono (ih ids') fun _ _ _ => trivial

theorem hlReadIdentities_clean (functions : List HlFunction) :
    Yields HlReader.Clean (hlReadIdentities c functions) fun _ => True := by
  refine yields_ite (fun _ => ?_) fun _ => yields_pure trivial
  exact yields_bind hlReadUindex_clean fun n => yields_bind chkError_clean fun _ =>
    yields_mono (hlReadDebugSections_clean functions n _) fun _ _ _ _ => trivial

theorem hlCodeReadM_checked : Yields HlReader.Clean hlCodeReadM HlCode.Checked := by
  refine yields_bind hlReadHeader_clean fun c => ?_
  refine yields_bind (yields_collect hlReadI32_clean _) fun _ => yields_bind chkError_clean fun _ =>
    yields_bind (yields_collect hlReadDouble_clean _) fun _ => yields_bind chkError_clean fun _ =>
    yields_bind (hlReadStrings_length _) fun strings => yields_bind chkError_clean fun _ =>
    yields_bind hlReadBytesTable_clean fun _ => yields_bind hlReadDebugFiles_clean fun files => ?_
  refine yields_bind (yields_collect hlReadTypeEntry_checked _) fun types =>
    yields_bind (collect_types_checked _) fun globals => yields_bind chkError_clean fun _ =>
    yields_bind (yields_collect hlReadNative_checked _) fun natives =>
    yields_bind chkError_clean fun _ =>
    yields_bind (yields_collect (hlReadFunctionEntry_checked files.1) _) fun functions =>
    yields_bind chkError_clean fun _ => ?_
  refine yields_bind (yields_collect hlReadConstant_clean _) fun _ =>
    yields_bind (hlReadIdentities_clean functions) fun _ => yields_pure ?_
  intro _ _ _ hfunctions _ hnatives _ hglobals htypes _ _ _ hstrings _ _ _ _ _
  exact ⟨hstrings, htypes.1, htypes.2, hglobals, hnatives.2, hfunctions.2⟩

theorem chkError_ends : Ends HlReader.Clean chkError := by
  intro r u r' hrun
  unfold chkError at hrun
  obtain ⟨s, t, hget, hrest⟩ := bind_eq_ok.mp hrun
  cases hget
  cases herror : r.error with
  | none =>
    simp only [herror] at hrest
    obtain ⟨-, rfl⟩ := pure_eq_ok.mp hrest
    exact herror
  | some e =>
    simp only [herror] at hrest
    cases hrest

theorem hlExit_ends {α : Type} {message : String} :
    Ends HlReader.Clean (hlExit message : ReadM α) := by
  intro r a r' hrun
  cases hrun

theorem hlReadConstant_ends : Ends HlReader.Clean hlReadConstant :=
  ends_bind fun _ => ends_bind fun _ => ends_bind fun _ =>
    chkError_ends.bind fun _ => settles_pure _

theorem hlReadDebugSection_ends (functions : List HlFunction) (ids : HlIdentities) :
    Ends HlReader.Clean (hlReadDebugSection functions ids) := by
  refine ends_bind fun kind => ends_bind fun version => ends_bind fun _ => ends_bind fun size =>
    ends_bind fun _ => ends_ite hlExit_ends ?_
  refine ends_bind fun _ => ends_bind fun _ => chkError_ends.bind fun _ => settles_ite ?_ ?_
  · exact (ends_bind fun _ => chkError_ends.bind fun _ => settles_pure _).settles
  · exact settles_pure _

theorem hlReadDebugSections_settles (functions : List HlFunction) (n : Nat) (ids : HlIdentities) :
    Settles HlReader.Clean (hlReadDebugSections functions n ids) := by
  induction n generalizing ids with
  | zero => exact settles_pure _
  | succ n ih => exact settles_bind (hlReadDebugSection_ends functions ids).settles fun ids => ih ids

theorem hlReadIdentities_settles (functions : List HlFunction) :
    Settles HlReader.Clean (hlReadIdentities c functions) := by
  refine settles_ite (Ends.settles ?_) (settles_pure _)
  exact ends_bind fun n => chkError_ends.bind fun _ => hlReadDebugSections_settles functions n _

theorem hlCodeReadM_ends : Ends HlReader.Clean hlCodeReadM := by
  refine ends_bind fun c => ends_bind fun _ => ends_bind fun _ => ends_bind fun _ =>
    ends_bind fun _ => ends_bind fun _ => ends_bind fun _ => ends_bind fun _ => ends_bind fun _ =>
    ends_bind fun _ => ends_bind fun _ => ends_bind fun _ => ends_bind fun _ => ends_bind fun _ =>
    ends_bind fun functions => chkError_ends.bind fun _ => ?_
  exact settles_bind (settles_collect hlReadConstant_ends.settles _) fun _ =>
    settles_bind (hlReadIdentities_settles functions) fun _ => settles_pure _

theorem checked_of_accepted {data : Bytes} {size : BitVec 32} {fresh : Bytes} {code : HlCode}
    (h : accepted data size fresh = some code) : code.Checked := by
  unfold accepted at h
  split at h
  · rename_i code' r hrun
    cases h
    exact (hlCodeReadM_checked _ _ _ hrun (hlCodeReadM_ends _ _ _ hrun)).2
  · cases h

end HashLink.Code
