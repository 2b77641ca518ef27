import HashLink.Patch.Atomicity

/-!
Whether a run of an accepted patch function stays in its body. `validate_function` checks every
branch and every handler; that the last instruction does not run into what follows it is checked
nowhere, and neither is that there is an instruction to start with.
-/

namespace HashLink

/-- The control flow of a body is closed: a run stays inside, an instruction of a run that goes on
to the next one has one, and every branch and every handler is an instruction of the body. A patch
has no switch. -/
structure HlPatchFunction.Closed (f : HlPatchFunction) : Prop where
  inside : ∀ c, TrapReachable f c → c.pc < f.instructions.length
  successor : ∀ c op, TrapReachable f c → f.instructions[c.pc]? = some op →
    op.opcode.fallsThrough → c.pc + 1 < f.instructions.length
  targets : f.TargetsInRange
  noSwitch : ∀ op ∈ f.instructions, op.opcode ≠ .oSwitch

/-- The body has a last instruction, which does not go on to the next one or is in no run. -/
def HlPatchFunction.EndsClosed (f : HlPatchFunction) : Prop :=
  ∃ op, f.instructions.getLast? = some op ∧
    (op.opcode.fallsThrough → ∀ c, TrapReachable f c → c.pc + 1 ≠ f.instructions.length)

variable {i : Nat} {op : HlPatchInstruction}

theorem validBranch_iff {f : HlPatchFunction} {offset : Int} :
    validBranch f i offset = true ↔ 0 ≤ i + 1 + offset ∧ i + 1 + offset < f.instructions.length := by
  simp [validBranch, inTable]

variable {m : HlModule} {patch : HlPatch} {layout : PatchLayout} {f : HlPatchFunction}
  {env : PatchEnv}

theorem validateInstruction_branch {target : Int} (h : validateInstruction m patch layout f i op = .ok ())
    (hbranch : op.branch i = some target) :
    0 ≤ target ∧ target < f.instructions.length := by
  unfold HlPatchInstruction.branch at hbranch
  cases hop : op.opcode <;> simp only [hop, Option.some.injEq, reduceCtorEq] at hbranch
  all_goals
    subst hbranch
    simp only [validateInstruction, hop, require_eq_ok, Bool.and_eq_true] at h
    apply (validBranch_iff).mp
    simp only [h]

theorem validateInstruction_handler (h : validateInstruction m patch layout f i op = .ok ())
    (htrap : op.opcode.opensTrap) :
    0 ≤ i + 1 + op.p 1 ∧ i + 1 + op.p 1 < f.instructions.length := by
  apply (validBranch_iff).mp
  unfold HlOp.opensTrap at htrap
  cases hop : op.opcode <;> simp [hop] at htrap
  all_goals
    simp only [validateInstruction, hop, require_eq_ok, Bool.and_eq_true] at h
    simp only [h]

theorem validateInstruction_switch (h : validateInstruction m patch layout f i op = .ok ()) :
    op.opcode ≠ .oSwitch := by
  intro hop
  simp [validateInstruction, hop] at h

theorem validateFunction_of_checkPatch {result : PatchLayout × Nat}
    (h : checkPatch env m patch = .ok result) (hf : f ∈ patch.functions) :
    ∃ k, validateFunction env m patch result.1 k f = .ok () := by
  simp only [checkPatch, except_bind_eq_ok, require_eq_ok] at h
  obtain ⟨_, -, _, -, _, -, _, -, _, -, _, -, _, -, size, -, _, -, layout, -, _, -, _, hfunctions,
    _, -, _, -, _, -, _, -, hresult⟩ := h
  cases hresult
  obtain ⟨k, hk⟩ := List.getElem?_of_mem hf
  have hcheck := forEach_ok hfunctions hk
  simp only [except_bind_eq_ok, Nat.zero_add] at hcheck
  obtain ⟨_, -, hvalid⟩ := hcheck
  exact ⟨k, hvalid⟩

theorem validateInstruction_of_validateFunction {k : Nat}
    (h : validateFunction env m patch layout k f = .ok ()) (hop : f.instructions[i]? = some op) :
    validateInstruction m patch layout f i op = .ok () := by
  unfold validateFunction at h
  split at h
  · cases h
  · simp only [except_bind_eq_ok] at h
    obtain ⟨_, -, _, -, _, hops, -⟩ := h
    have hcheck := forEach_ok hops hop
    rwa [Nat.zero_add] at hcheck

theorem targetsInRange_of_validateFunction {k : Nat}
    (h : validateFunction env m patch layout k f = .ok ()) : f.TargetsInRange := by
  intro i op target hop htarget
  have hcheck := validateInstruction_of_validateFunction h hop
  rcases htarget with hbranch | ⟨htrap, rfl⟩
  · exact validateInstruction_branch hcheck hbranch
  · exact validateInstruction_handler hcheck htrap

/-- The next instruction and every handler are in the body. -/
structure InBody (f : HlPatchFunction) (c : TrapConfig) : Prop where
  pc : c.pc < f.instructions.length
  handlers : ∀ trap ∈ c.traps, trap.handler < f.instructions.length

theorem HlPatchFunction.EndsClosed.next (hends : f.EndsClosed) {c : TrapConfig} (hc : TrapReachable f c)
    (hop : f.instructions[c.pc]? = some op) (hfalls : op.opcode.fallsThrough) :
    c.pc + 1 < f.instructions.length := by
  obtain ⟨last, hlast, hquiet⟩ := hends
  obtain ⟨hpc, -⟩ := List.getElem?_eq_some_iff.mp hop
  by_contra hout
  have hend : c.pc + 1 = f.instructions.length := by omega
  rw [List.getLast?_eq_getElem?, ← hend, Nat.add_sub_cancel, hop, Option.some.injEq] at hlast
  subst hlast
  exact hquiet hfalls c hc hend

theorem fallsThrough_of_opensTrap {op : HlOp} (h : op.opensTrap) : op.fallsThrough := by
  cases op <;> simp [HlOp.opensTrap] at h <;> rfl

theorem fallsThrough_of_closesTrap {op : HlOp} (h : op.closesTrap) : op.fallsThrough := by
  cases op <;> simp [HlOp.closesTrap] at h <;> rfl

theorem inBody_step (hends : f.EndsClosed) (hrange : f.TargetsInRange) {c c' : TrapConfig}
    (hreach : TrapReachable f c) (hc : InBody f c) (hstep : TrapStep f c c') : InBody f c' := by
  cases hstep with
  | branch hop hbranch =>
    obtain ⟨-, htarget⟩ := hrange _ _ _ hop (.inl hbranch)
    exact ⟨by exact_mod_cast htarget, hc.handlers⟩
  | next hop hfalls _ _ => exact ⟨hends.next hreach hop hfalls, hc.handlers⟩
  | enter hop htrap =>
    obtain ⟨-, htarget⟩ := hrange _ _ _ hop (.inr ⟨htrap, rfl⟩)
    refine ⟨hends.next hreach hop (fallsThrough_of_opensTrap htrap), fun trap hmem => ?_⟩
    rcases List.mem_cons.mp hmem with rfl | hold
    · exact htarget
    · exact hc.handlers trap hold
  | leave hop htrap =>
    exact ⟨hends.next hreach hop (fallsThrough_of_closesTrap htrap),
      fun trap hmem => hc.handlers trap (List.mem_cons_of_mem _ hmem)⟩
  | raise hhandler =>
    have hin := hc.handlers _ List.mem_cons_self
    rw [hhandler] at hin
    exact ⟨by exact_mod_cast hin, fun trap hmem => hc.handlers trap (List.mem_cons_of_mem _ hmem)⟩

theorem inBody_reachable (hends : f.EndsClosed) (hrange : f.TargetsInRange) {c : TrapConfig}
    (hc : TrapReachable f c) : InBody f c := by
  induction hc with
  | refl =>
    obtain ⟨last, hlast, -⟩ := hends
    have hne : f.instructions ≠ [] := by
      intro hnil
      simp [hnil] at hlast
    exact ⟨List.length_pos_of_ne_nil hne, by simp⟩
  | tail hreach hstep ih => exact inBody_step hends hrange hreach ih hstep

theorem HlPatchFunction.Closed.endsClosed (h : f.Closed) : f.EndsClosed := by
  have hpos : 0 < f.instructions.length := h.inside ⟨0, []⟩ .refl
  refine ⟨f.instructions[f.instructions.length - 1], ?_, fun hfalls c hc hend => ?_⟩
  · rw [List.getLast?_eq_getElem?]
    exact List.getElem?_eq_getElem _
  · have hop : f.instructions[c.pc]? = some f.instructions[f.instructions.length - 1] := by
      rw [← List.getElem?_eq_getElem]
      congr 1
      omega
    have hnext := h.successor c _ hc hop hfalls
    omega

/-- In a patch that passes the checks, a function's control flow is closed exactly when its body
ends closed. -/
theorem checkPatch_closed_iff (env : PatchEnv) (m : HlModule) (patch : HlPatch)
    (result : PatchLayout × Nat) (h : checkPatch env m patch = .ok result) :
    ∀ f ∈ patch.functions, f.Closed ↔ f.EndsClosed := by
  intro f hf
  obtain ⟨k, hvalid⟩ := validateFunction_of_checkPatch h hf
  have hrange := targetsInRange_of_validateFunction hvalid
  refine ⟨HlPatchFunction.Closed.endsClosed, fun hends => ?_⟩
  refine ⟨fun c hc => (inBody_reachable hends hrange hc).pc,
    fun c op hc hop hfalls => hends.next hc hop hfalls, hrange, fun op hmem => ?_⟩
  obtain ⟨i, hi⟩ := List.getElem?_of_mem hmem
  exact validateInstruction_switch (validateInstruction_of_validateFunction hvalid hi)

def oneFunctionModule : HlModule :=
  { patchedModule with
    types := [⟨.hFun, .fun_ [] 1, false⟩, ⟨.hI32, .null, false⟩]
    functions := [⟨0, 0⟩]
    functionsCapacity := 1
    functionsIndexes := [0]
    functionsPtrs := [some 0] }

def bodyPatch (registers : List Int) (instructions : List HlPatchInstruction) : HlPatch :=
  { stalePatch with
    baseRevision := 1
    revision := 2
    baseTypeCount := 2
    types := []
    functions := [{ type := 0, stableId := 1, findex := 0, registers, instructions }] }

theorem oTrap_accepts : HlOp.oTrap.accepts [0, 2] = true := rfl

theorem oEndTrap_accepts : HlOp.oEndTrap.accepts [0] = true := rfl

/-- A trap that is closed again, and a jump over its handler. -/
def returningPatch : HlPatch := bodyPatch [1] [⟨.oTrap, [0, 2], oTrap_accepts⟩, ⟨.oEndTrap, [0], oEndTrap_accepts⟩,
  ⟨.oJAlways, [1], rfl⟩, ⟨.oLabel, [], rfl⟩, ⟨.oRet, [0], oRet_accepts⟩]

theorem checkPatch_closed_returningPatch :
    ∃ result, checkPatch idleEnv oneFunctionModule returningPatch = .ok result ∧
      ∀ f ∈ returningPatch.functions, f.Closed := by
  refine ⟨_, rfl, fun f hf => ?_⟩
  rw [checkPatch_closed_iff idleEnv oneFunctionModule returningPatch _ rfl f hf]
  rw [List.mem_singleton.mp hf]
  exact ⟨⟨.oRet, [0], oRet_accepts⟩, rfl, fun hfalls => absurd hfalls (by decide)⟩

/-- A body of one label: a run goes on behind it. -/
def runningOnPatch : HlPatch := bodyPatch [] [⟨.oLabel, [], rfl⟩]

theorem runningOnPatch_leaves_body :
    (∃ result, checkPatch idleEnv oneFunctionModule runningOnPatch = .ok result) ∧
      (∀ f ∈ runningOnPatch.functions, TrapReachable f ⟨1, []⟩ ∧ f.instructions.length = 1) ∧
      ¬∀ env m patch result, checkPatch env m patch = .ok result → ∀ f ∈ patch.functions, f.Closed := by
  have hruns : ∀ f ∈ runningOnPatch.functions, TrapReachable f ⟨1, []⟩ ∧ f.instructions.length = 1 := by
    intro f hf
    rw [List.mem_singleton.mp hf]
    exact ⟨.single (TrapStep.next rfl rfl rfl rfl), rfl⟩
  refine ⟨⟨_, rfl⟩, hruns, fun hclosed => ?_⟩
  have hbody := hclosed idleEnv oneFunctionModule runningOnPatch _ rfl _ (List.mem_singleton_self _)
  obtain ⟨hreach, hlength⟩ := hruns _ (List.mem_singleton_self _)
  exact absurd (hbody.inside _ hreach) (by rw [hlength]; decide)

end HashLink
