import HashLink.Lib.Worklist
import HashLink.Patch.Data
import Mathlib.Logic.Relation

/-!
`validate_traps` of `hlpatch.c`: the check that a patch function opens and closes its try regions
in step on every path. A first loop counts, in instruction order, the regions the compiler has open
at each instruction. The main loop walks the branches and gives each instruction it reaches one
trap state: how many traps are active, and which of them are cleanup traps.

What `validate_traps` promises. A patch function runs with a stack of active traps: a trap pushes
its handler, an end-trap pops, and an exception jumps to the innermost handler with that trap
removed. In an accepted function the table the validator built gives, at every instruction a run
can reach, the depth of that stack and the kinds of the traps on it.
-/

namespace HashLink

/-- `PATCH_MAX_TRAPS`, the `MAX_TRAPS` of the compiler. -/
def patchMaxTraps : Nat := 32

/-- The ways `validate_traps` refuses a function. The source has no check for a branch to before
the first instruction, which `validate_function` has excluded; here it is an error of its own. -/
inductive TrapError where
  | outOfMemory
  | tooManyNested
  | outsideRegion
  | unbalanced
  | endTrapOperands
  | mismatchedCleanup
  | inconsistent
  | targetOutOfBounds
  deriving DecidableEq, Repr

def TrapError.message : TrapError → Option String
  | .outOfMemory => some "Out of memory validating patch traps"
  | .tooManyNested => some "Too many nested patch traps"
  | .outsideRegion => some "Patch trap outside its try region"
  | .unbalanced => some "Unbalanced patch traps"
  | .endTrapOperands => some "Invalid end-trap operands"
  | .mismatchedCleanup => some "Mismatched cleanup trap"
  | .inconsistent => some "Inconsistent patch trap state"
  | .targetOutOfBounds => none

def HlOp.opensTrap (op : HlOp) : Bool := op = .oTrap || op = .oCleanupTrap

def closeRegion (i : Nat) : List Int → List Int
  | [] => []
  | target :: targets => if target = i then targets else target :: targets

/-- The first loop: the number of open regions at each instruction from `i` on. The open regions
are the handlers they close at, the innermost one first. -/
def trapRegionsFrom : Nat → List Int → List HlPatchInstruction → Except TrapError (List Nat)
  | _, _, [] => .ok []
  | i, targets, op :: ops =>
    let targets := closeRegion i targets
    if op.opcode.opensTrap then
      if targets.length = patchMaxTraps then .error .tooManyNested
      else do
        let rest ← trapRegionsFrom (i + 1) ((i + 1 + op.p 1) :: targets) ops
        return targets.length :: rest
    else do
      let rest ← trapRegionsFrom (i + 1) targets ops
      return targets.length :: rest

def trapRegions (f : HlPatchFunction) : Except TrapError (List Nat) :=
  trapRegionsFrom 0 [] f.instructions

/-- `depth[i]` and `guards[i]`. -/
structure TrapState where
  depth : Nat
  guards : BitVec 32
  deriving DecidableEq, Repr, Inhabited

/-- The bit of the trap opened at `depth`. -/
def guardBit (depth : Nat) : BitVec 32 := 1#32 <<< depth

/-- The switch of the main loop: where instruction `i` goes and in which state. -/
def trapEdges (op : HlPatchInstruction) (i : Nat) (s : TrapState) :
    Except TrapError (List (Int × TrapState)) :=
  match op.opcode with
  | .oJTrue | .oJFalse | .oJNull | .oJNotNull => .ok [(i + 1 + op.p 1, s), (i + 1, s)]
  | .oJSLt | .oJSGte | .oJSGt | .oJSLte | .oJULt | .oJUGte | .oJNotLt | .oJNotGte | .oJEq
  | .oJNotEq => .ok [(i + 1 + op.p 2, s), (i + 1, s)]
  | .oJAlways => .ok [(i + 1 + op.p 0, s)]
  | .oRet => if s.depth ≠ 0 then .error .unbalanced else .ok []
  | .oThrow | .oRethrow => .ok []
  | .oTrap | .oCleanupTrap =>
    if s.depth = patchMaxTraps then .error .tooManyNested
    else
      let guards :=
        if op.opcode = .oCleanupTrap then s.guards ||| guardBit s.depth else s.guards
      .ok [(i + 1 + op.p 1, s), (i + 1, ⟨s.depth + 1, guards⟩)]
  | .oEndTrap | .oEndCleanupTrap =>
    if s.depth = 0 then .error .endTrapOperands
    else if (s.guards &&& guardBit (s.depth - 1) ≠ 0) ≠ (op.opcode = .oEndCleanupTrap) then
      .error .mismatchedCleanup
    else .ok [(i + 1, ⟨s.depth - 1, s.guards &&& ~~~ guardBit (s.depth - 1)⟩)]
  | _ => .ok [(i + 1, s)]

def edgeIndex (edge : Int × TrapState) : Except TrapError (Nat × TrapState) :=
  if edge.1 < 0 then .error .targetOutOfBounds else .ok (edge.1.toNat, edge.2)

/-- One turn of the main loop, up to the edges it hands to the tables. -/
def trapNext (f : HlPatchFunction) (regions : List Nat) (i : Nat) (s : TrapState) :
    Except TrapError (List (Nat × TrapState)) :=
  if regions.getD i 0 < s.depth then .error .outsideRegion
  else
    match f.instructions[i]? with
    | none => .ok []
    | some op => do (← trapEdges op i s).mapM edgeIndex

def trapInit (n : Nat) : Worklist.State TrapState :=
  match n with
  | 0 => { table := [], pending := [] }
  | n + 1 => { table := some ⟨0, 0⟩ :: List.replicate n none, pending := [0] }

/-- `validate_traps`; `memory` says whether its four tables could be allocated. The loop is given a
turn for each instruction and one to see that nothing is left. -/
def validateTraps (memory : Bool) (f : HlPatchFunction) : Option (Except TrapError Unit) :=
  if memory then
    match trapRegions f with
    | .error e => some (.error e)
    | .ok regions =>
      (Worklist.iterate (trapNext f regions) .inconsistent (f.instructions.length + 1)
        (trapInit f.instructions.length)).map (·.map fun _ => ())
  else some (.error .outOfMemory)

/-- A trap set at run time: its kind and where an exception continues. -/
structure ActiveTrap where
  cleanup : Bool
  handler : Int

/-- The next instruction and the active traps, the innermost one first. -/
structure TrapConfig where
  pc : Nat
  traps : List ActiveTrap

/-- Where the branch of instruction `i` goes. -/
def HlPatchInstruction.branch (op : HlPatchInstruction) (i : Nat) : Option Int :=
  match op.opcode with
  | .oJTrue | .oJFalse | .oJNull | .oJNotNull => some (i + 1 + op.p 1)
  | .oJSLt | .oJSGte | .oJSGt | .oJSLte | .oJULt | .oJUGte | .oJNotLt | .oJNotGte | .oJEq
  | .oJNotEq => some (i + 1 + op.p 2)
  | .oJAlways => some (i + 1 + op.p 0)
  | _ => none

/-- Whether an opcode may continue with the next instruction. -/
def HlOp.fallsThrough : HlOp → Bool
  | .oJAlways | .oRet | .oThrow | .oRethrow => false
  | _ => true

def HlOp.closesTrap (op : HlOp) : Bool := op = .oEndTrap || op = .oEndCleanupTrap

/-- One step of a run. An exception may leave any instruction. -/
inductive TrapStep (f : HlPatchFunction) : TrapConfig → TrapConfig → Prop where
  | branch {pc target : Nat} {traps : List ActiveTrap} {op : HlPatchInstruction} :
      f.instructions[pc]? = some op → op.branch pc = some (target : Int) →
      TrapStep f ⟨pc, traps⟩ ⟨target, traps⟩
  | next {pc : Nat} {traps : List ActiveTrap} {op : HlPatchInstruction} :
      f.instructions[pc]? = some op → op.opcode.fallsThrough →
      op.opcode.opensTrap = false → op.opcode.closesTrap = false →
      TrapStep f ⟨pc, traps⟩ ⟨pc + 1, traps⟩
  | enter {pc : Nat} {traps : List ActiveTrap} {op : HlPatchInstruction} :
      f.instructions[pc]? = some op → op.opcode.opensTrap →
      TrapStep f ⟨pc, traps⟩ ⟨pc + 1, ⟨op.opcode = .oCleanupTrap, pc + 1 + op.p 1⟩ :: traps⟩
  | leave {pc : Nat} {trap : ActiveTrap} {traps : List ActiveTrap} {op : HlPatchInstruction} :
      f.instructions[pc]? = some op → op.opcode.closesTrap →
      TrapStep f ⟨pc, trap :: traps⟩ ⟨pc + 1, traps⟩
  | raise {pc target : Nat} {trap : ActiveTrap} {traps : List ActiveTrap} :
      trap.handler = target → TrapStep f ⟨pc, trap :: traps⟩ ⟨target, traps⟩

/-- The configurations a run of `f` passes through. -/
def TrapReachable (f : HlPatchFunction) : TrapConfig → Prop :=
  Relation.ReflTransGen (TrapStep f) ⟨0, []⟩

/-- What the instruction about to run needs of the active traps. -/
structure TrapSafe (f : HlPatchFunction) (c : TrapConfig) : Prop where
  bounded : c.traps.length ≤ patchMaxTraps
  closes : ∀ op, f.instructions[c.pc]? = some op → op.opcode.closesTrap →
    ∃ trap rest, c.traps = trap :: rest ∧ trap.cleanup = (op.opcode = .oEndCleanupTrap)
  returns : ∀ op, f.instructions[c.pc]? = some op → op.opcode = .oRet → c.traps = []

/-! ### The guard mask of a stack of traps -/

/-- The mask that has the bit of every cleanup trap. -/
def guardsOf : List ActiveTrap → BitVec 32
  | [] => 0
  | trap :: traps =>
    if trap.cleanup then guardsOf traps ||| guardBit traps.length else guardsOf traps

def stateOf (traps : List ActiveTrap) : TrapState := ⟨traps.length, guardsOf traps⟩

theorem guardBit_getLsbD (depth j : Nat) (h : j < 32) :
    (guardBit depth).getLsbD j = decide (j = depth) := by
  simp only [guardBit, BitVec.getLsbD_shiftLeft, BitVec.getLsbD_one]
  by_cases heq : j = depth
  · subst heq
    simp [h]
  · by_cases hlt : j < depth
    · simp [hlt, heq]
    · have : j - depth ≠ 0 := by omega
      simp [heq, this]

theorem guardsOf_above (traps : List ActiveTrap) {j : Nat} (hj : traps.length ≤ j) (h : j < 32) :
    (guardsOf traps).getLsbD j = false := by
  induction traps with
  | nil => simp [guardsOf]
  | cons trap traps ih =>
    simp only [List.length_cons] at hj
    have hrest := ih (by omega)
    rw [guardsOf]
    split
    · rw [BitVec.getLsbD_or, hrest, guardBit_getLsbD _ _ h]
      simp
      omega
    · exact hrest

theorem and_guardBit_ne_zero (mask : BitVec 32) {depth : Nat} (h : depth < 32) :
    (mask &&& guardBit depth ≠ 0) ↔ mask.getLsbD depth = true := by
  constructor
  · intro hne
    by_contra hbit
    refine hne (BitVec.eq_of_getLsbD_eq fun j hj => ?_)
    rw [BitVec.getLsbD_and, guardBit_getLsbD _ _ hj]
    by_cases heq : j = depth
    · subst heq
      simpa using hbit
    · simp [heq]
  · intro hbit hzero
    have := congrArg (·.getLsbD depth) hzero
    simp [guardBit_getLsbD depth depth h, hbit] at this

theorem guardsOf_top (trap : ActiveTrap) (traps : List ActiveTrap) (h : traps.length < 32) :
    (guardsOf (trap :: traps)).getLsbD traps.length = trap.cleanup := by
  have hbelow := guardsOf_above traps (Nat.le_refl _) h
  rw [guardsOf]
  split
  · rename_i hcleanup
    rw [BitVec.getLsbD_or, guardBit_getLsbD _ _ h, hcleanup]
    simp
  · rename_i hplain
    rw [hbelow]
    simpa using hplain

theorem guardsOf_pop (trap : ActiveTrap) (traps : List ActiveTrap) (h : traps.length < 32) :
    guardsOf (trap :: traps) &&& ~~~ guardBit traps.length = guardsOf traps := by
  refine BitVec.eq_of_getLsbD_eq fun j hj => ?_
  have hbit := guardBit_getLsbD traps.length j hj
  have htop := guardsOf_above traps (Nat.le_refl _) h
  rw [BitVec.getLsbD_and, BitVec.getLsbD_not, hbit]
  by_cases heq : j = traps.length
  · subst heq
    simp [htop]
  · rw [guardsOf]
    split
    · rw [BitVec.getLsbD_or, hbit]
      simp [heq, hj]
    · simp [heq, hj]

variable {i : Nat} {s : TrapState} {op : HlPatchInstruction} {f : HlPatchFunction}

theorem branch_edge {target : Int} {edges : List (Int × TrapState)} (hbranch : op.branch i = some target)
    (hedges : trapEdges op i s = .ok edges) : (target, s) ∈ edges := by
  unfold HlPatchInstruction.branch at hbranch
  unfold trapEdges at hedges
  cases hop : op.opcode <;> simp_all <;> simp [← hedges]

theorem next_edge {edges : List (Int × TrapState)} (hfalls : op.opcode.fallsThrough)
    (hopens : op.opcode.opensTrap = false) (hcloses : op.opcode.closesTrap = false)
    (hedges : trapEdges op i s = .ok edges) : ((i : Int) + 1, s) ∈ edges := by
  unfold trapEdges at hedges
  cases hop : op.opcode <;>
    simp_all [HlOp.fallsThrough, HlOp.opensTrap, HlOp.closesTrap] <;> simp [← hedges]

theorem enter_edges {edges : List (Int × TrapState)} (hopens : op.opcode.opensTrap)
    (hedges : trapEdges op i s = .ok edges) :
    s.depth ≠ patchMaxTraps ∧ ((i : Int) + 1 + op.p 1, s) ∈ edges ∧ ((i : Int) + 1, ⟨s.depth + 1,
        if op.opcode = .oCleanupTrap then s.guards ||| guardBit s.depth else s.guards⟩) ∈ edges := by
  have hcases : op.opcode = .oTrap ∨ op.opcode = .oCleanupTrap := by
    simpa [HlOp.opensTrap] using hopens
  unfold trapEdges at hedges
  rcases hcases with hop | hop <;> rw [hop] at hedges <;> simp only at hedges <;> split at hedges
  · cases hedges
  · rename_i hdepth
    cases hedges
    simp [hop, hdepth]
  · cases hedges
  · rename_i hdepth
    cases hedges
    simp [hop, hdepth]

theorem leave_edges {edges : List (Int × TrapState)} (hcloses : op.opcode.closesTrap)
    (hedges : trapEdges op i s = .ok edges) :
    s.depth ≠ 0 ∧ (s.guards &&& guardBit (s.depth - 1) ≠ 0 ↔ op.opcode = .oEndCleanupTrap) ∧
      ((i : Int) + 1, ⟨s.depth - 1, s.guards &&& ~~~ guardBit (s.depth - 1)⟩) ∈ edges := by
  have hcases : op.opcode = .oEndTrap ∨ op.opcode = .oEndCleanupTrap := by
    simpa [HlOp.closesTrap] using hcloses
  unfold trapEdges at hedges
  rcases hcases with hop | hop <;> rw [hop] at hedges <;> simp only at hedges <;>
    split at hedges <;> try cases hedges
  all_goals
    rename_i hdepth
    split at hedges
    · cases hedges
    · rename_i hkind
      cases hedges
      refine ⟨hdepth, ?_, by simp⟩
      simpa [hop] using hkind

theorem ret_edges {edges : List (Int × TrapState)} (hret : op.opcode = .oRet)
    (hedges : trapEdges op i s = .ok edges) : s.depth = 0 := by
  unfold trapEdges at hedges
  rw [hret] at hedges
  simp only at hedges
  split at hedges
  · cases hedges
  · rename_i hdepth
    simpa using hdepth

theorem mapM_edgeIndex {edges : List (Int × TrapState)} {indexed : List (Nat × TrapState)}
    (h : edges.mapM edgeIndex = .ok indexed) {target : Nat} (hmem : ((target : Int), s) ∈ edges) :
    (target, s) ∈ indexed := by
  induction edges generalizing indexed with
  | nil => simp at hmem
  | cons edge edges ih =>
    rw [List.mapM_cons] at h
    cases hhead : edgeIndex edge with
    | error e =>
      rw [hhead] at h
      cases h
    | ok first =>
      cases htail : edges.mapM edgeIndex with
      | error e =>
        rw [hhead, htail] at h
        cases h
      | ok rest =>
        rw [hhead, htail] at h
        cases h
        rcases List.mem_cons.mp hmem with rfl | hmem
        · unfold edgeIndex at hhead
          rw [if_neg (by simp)] at hhead
          cases hhead
          simp
        · exact List.mem_cons_of_mem _ (ih htail hmem)

theorem followed_edges {regions : List Nat} {table : List (Option TrapState)}
    (h : Worklist.Followed (trapNext f regions) table i s) (hop : f.instructions[i]? = some op) :
    ∃ edges, trapEdges op i s = .ok edges ∧ ∀ (target : Nat) (s' : TrapState),
      ((target : Int), s') ∈ edges → target < table.length → table[target]? = some (some s') := by
  obtain ⟨indexed, hnext, hclosed⟩ := h
  unfold trapNext at hnext
  split at hnext
  · cases hnext
  · rw [hop] at hnext
    cases hedges : trapEdges op i s with
    | error e =>
      simp only [hedges] at hnext
      cases hnext
    | ok edges =>
      simp only [hedges] at hnext
      exact ⟨edges, rfl, fun target s' hmem hlt =>
        hclosed (target, s') (mapM_edgeIndex hnext hmem) hlt⟩

/-- The invariant of a run: the table agrees with the active traps at the next instruction, and
with what is left of them at the handler of each. -/
structure Tracks (table : List (Option TrapState)) (c : TrapConfig) : Prop where
  here : c.pc < table.length → table[c.pc]? = some (some (stateOf c.traps))
  handlers : ∀ (trap : ActiveTrap) (rest : List ActiveTrap) (target : Nat),
    trap :: rest <:+ c.traps → trap.handler = target → target < table.length →
      table[target]? = some (some (stateOf rest))
  bounded : c.traps.length ≤ patchMaxTraps

section Accepted

variable {f : HlPatchFunction} {regions : List Nat} {table : List (Option TrapState)}

/-- The table of an accepted function: one entry for each instruction, all of them followed. -/
structure Accepted (f : HlPatchFunction) (regions : List Nat) (table : List (Option TrapState)) :
    Prop where
  length : table.length = f.instructions.length
  start : 0 < table.length → table[0]? = some (some ⟨0, 0⟩)
  followed : ∀ (i : Nat) (s : TrapState), table[i]? = some (some s) →
    Worklist.Followed (trapNext f regions) table i s

variable {c : TrapConfig}

theorem Accepted.edges (hacc : Accepted f regions table) (hc : Tracks table c)
    (hop : f.instructions[c.pc]? = some op) :
    ∃ edges, trapEdges op c.pc (stateOf c.traps) = .ok edges ∧
      ∀ (target : Nat) (s' : TrapState), ((target : Int), s') ∈ edges →
        target < table.length → table[target]? = some (some s') := by
  have hlt : c.pc < table.length := by
    obtain ⟨hlt, -⟩ := List.getElem?_eq_some_iff.mp hop
    rw [hacc.length]
    exact hlt
  exact followed_edges (hacc.followed c.pc _ (hc.here hlt)) hop

theorem tracks_start (hacc : Accepted f regions table) : Tracks table ⟨0, []⟩ where
  here := hacc.start
  handlers trap rest target hsuffix := by simp at hsuffix
  bounded := Nat.zero_le _

theorem tracks_step (hacc : Accepted f regions table) {c' : TrapConfig} (hc : Tracks table c)
    (hstep : TrapStep f c c') : Tracks table c' := by
  cases hstep with
  | branch hop hbranch =>
    obtain ⟨edges, hedges, hclosed⟩ := hacc.edges hc hop
    exact ⟨hclosed _ _ (branch_edge hbranch hedges), hc.handlers, hc.bounded⟩
  | next hop hfalls hopens hcloses =>
    obtain ⟨edges, hedges, hclosed⟩ := hacc.edges hc hop
    exact ⟨hclosed (_ + 1) _ (next_edge hfalls hopens hcloses hedges), hc.handlers, hc.bounded⟩
  | @enter pc traps op hop hopens =>
    obtain ⟨edges, hedges, hclosed⟩ := hacc.edges hc hop
    obtain ⟨hdepth, hhandler, hinside⟩ := enter_edges hopens hedges
    refine ⟨fun hlt => ?_, fun trap rest target hsuffix htarget hlt => ?_, ?_⟩
    · rw [hclosed (pc + 1) _ hinside hlt]
      by_cases hcleanup : op.opcode = .oCleanupTrap <;> simp [stateOf, guardsOf, hcleanup]
    · rcases List.suffix_cons_iff.mp hsuffix with heq | hold
      · cases heq
        exact hclosed target _ (htarget ▸ hhandler) hlt
      · exact hc.handlers trap rest target hold htarget hlt
    · have hle : traps.length ≤ patchMaxTraps := hc.bounded
      have hne : traps.length ≠ patchMaxTraps := hdepth
      simp only [List.length_cons]
      omega
  | @leave pc trap traps op hop hcloses =>
    obtain ⟨edges, hedges, hclosed⟩ := hacc.edges hc hop
    obtain ⟨-, -, houtside⟩ := leave_edges hcloses hedges
    have hle : traps.length < 32 := hc.bounded
    refine ⟨fun hlt => ?_, fun t rest target hsuffix => ?_, Nat.le_of_lt hle⟩
    · rw [hclosed (pc + 1) _ houtside hlt]
      simp [stateOf, guardsOf_pop trap traps hle]
    · exact hc.handlers t rest target (hsuffix.trans (List.suffix_cons trap traps))
  | @raise pc target trap traps hhandler =>
    refine ⟨fun hlt => ?_, fun t rest target hsuffix => ?_, ?_⟩
    · exact hc.handlers trap traps target (List.suffix_refl _) hhandler hlt
    · exact hc.handlers t rest target (hsuffix.trans (List.suffix_cons trap traps))
    · exact Nat.le_of_succ_le hc.bounded

theorem tracks_reachable (hacc : Accepted f regions table) (hreach : TrapReachable f c) : Tracks table c := by
  induction hreach with
  | refl => exact tracks_start hacc
  | tail _ hstep ih => exact tracks_step hacc ih hstep

theorem trapSafe_of_tracks (hacc : Accepted f regions table) (hc : Tracks table c) : TrapSafe f c where
  bounded := hc.bounded
  closes op hop hcloses := by
    obtain ⟨edges, hedges, -⟩ := hacc.edges hc hop
    obtain ⟨hdepth, hkind, -⟩ := leave_edges hcloses hedges
    cases htraps : c.traps with
    | nil => simp [stateOf, htraps] at hdepth
    | cons trap rest =>
      refine ⟨trap, rest, rfl, ?_⟩
      have hle : rest.length < 32 := by
        have := hc.bounded
        rw [htraps] at this
        exact this
      rw [htraps] at hkind
      simp only [stateOf, List.length_cons, Nat.add_sub_cancel] at hkind
      rw [and_guardBit_ne_zero _ hle, guardsOf_top trap rest hle] at hkind
      simpa using hkind
  returns op hop hret := by
    obtain ⟨edges, hedges, -⟩ := hacc.edges hc hop
    exact List.eq_nil_of_length_eq_zero (ret_edges hret hedges)

end Accepted

theorem trapInit_length (n : Nat) : (trapInit n).table.length = n := by
  cases n <;> simp [trapInit]

theorem trapInit_start {n : Nat} (h : 0 < n) :
    (trapInit n).table[0]? = some (some ⟨0, 0⟩) := by
  cases n with
  | zero => omega
  | succ n => simp [trapInit]

theorem trapInit_invariant (next : Nat → TrapState → Except TrapError (List (Nat × TrapState)))
    (n : Nat) : Worklist.Invariant next (trapInit n) := by
  cases n with
  | zero => exact ⟨by simp [trapInit], by simp [trapInit]⟩
  | succ n =>
    refine ⟨by simp [trapInit], fun i s hs => .inl ?_⟩
    cases i with
    | zero => simp [trapInit]
    | succ i =>
      simp only [trapInit, List.getElem?_cons_succ, List.getElem?_replicate] at hs
      split at hs <;> cases hs

theorem trapInit_measure (n : Nat) : (trapInit n).pending.length + (trapInit n).unset = n := by
  cases n with
  | zero => simp [trapInit, Worklist.State.unset]
  | succ n =>
    simp [trapInit, Worklist.State.unset, List.countP_replicate]
    omega

theorem accepted_of_validateTraps {memory : Bool} (h : validateTraps memory f = some (.ok ())) :
    ∃ regions table, trapRegions f = .ok regions ∧ Accepted f regions table := by
  unfold validateTraps at h
  split at h
  · split at h
    · cases h
    · rename_i regions hregions
      obtain ⟨result, hiterate, hok⟩ := Option.map_eq_some_iff.mp h
      cases result with
      | error e => cases hok
      | ok table =>
        obtain ⟨hlength, hkeeps, hfollowed⟩ :=
          Worklist.iterate_followed (trapInit_invariant _ _) hiterate
        rw [trapInit_length] at hlength
        refine ⟨regions, table, hregions, hlength, fun hpos => ?_, hfollowed⟩
        exact hkeeps 0 _ (trapInit_start (hlength ▸ hpos))
  · cases h

def HlPatchFunction.TargetsInRange (f : HlPatchFunction) : Prop :=
  ∀ (i : Nat) (op : HlPatchInstruction) (target : Int), f.instructions[i]? = some op →
    op.branch i = some target ∨ (op.opcode.opensTrap ∧ target = i + 1 + op.p 1) →
      0 ≤ target ∧ target < f.instructions.length

theorem trapEdges_targets {edges : List (Int × TrapState)} (hedges : trapEdges op i s = .ok edges)
    {edge : Int × TrapState} (hmem : edge ∈ edges) :
    edge.1 = i + 1 ∨ op.branch i = some edge.1 ∨ (op.opcode.opensTrap ∧ edge.1 = i + 1 + op.p 1) := by
  unfold trapEdges at hedges
  unfold HlPatchInstruction.branch HlOp.opensTrap
  cases hop : op.opcode <;> simp only [hop] at hedges ⊢ <;>
    (repeat' split at hedges) <;> cases hedges <;> simp at hmem ⊢ <;> grind

theorem mapM_edgeIndex_ok {edges : List (Int × TrapState)} (h : ∀ edge ∈ edges, 0 ≤ edge.1) :
    ∃ indexed, edges.mapM edgeIndex = .ok indexed := by
  induction edges with
  | nil => exact ⟨[], rfl⟩
  | cons edge edges ih =>
    obtain ⟨rest, hrest⟩ := ih fun e he => h e (List.mem_cons_of_mem _ he)
    have hedge := h edge List.mem_cons_self
    rw [List.mapM_cons, hrest, edgeIndex, if_neg (by omega)]
    exact ⟨_, rfl⟩

theorem trapRegionsFrom_error {targets : List Int} {ops : List HlPatchInstruction} {e : TrapError}
    (h : trapRegionsFrom i targets ops = .error e) : e = .tooManyNested := by
  induction ops generalizing i targets with
  | nil => cases h
  | cons op ops ih =>
    rw [trapRegionsFrom] at h
    split at h
    · split at h
      · cases h
        rfl
      · cases hrest : trapRegionsFrom (i + 1) ((i + 1 + op.p 1) :: closeRegion i targets) ops with
        | error e' =>
          rw [hrest] at h
          cases h
          exact ih hrest
        | ok rest =>
          rw [hrest] at h
          cases h
    · cases hrest : trapRegionsFrom (i + 1) (closeRegion i targets) ops with
      | error e' =>
        rw [hrest] at h
        cases h
        exact ih hrest
      | ok rest =>
        rw [hrest] at h
        cases h

theorem trapEdges_error (h : trapEdges op i s = .error .targetOutOfBounds) : False := by
  unfold trapEdges at h
  cases hop : op.opcode <;> simp only [hop] at h <;> (repeat' split at h) <;> cases h

theorem trapNext_error (hrange : f.TargetsInRange) {regions : List Nat}
    (h : trapNext f regions i s = .error .targetOutOfBounds) : False := by
  unfold trapNext at h
  split at h
  · cases h
  · split at h
    · cases h
    · rename_i op hop
      cases hedges : trapEdges op i s with
      | error e =>
        simp only [hedges] at h
        cases h
        exact trapEdges_error hedges
      | ok edges =>
        simp only [hedges] at h
        have hnonneg : ∀ edge ∈ edges, 0 ≤ edge.1 := by
          intro edge hmem
          rcases trapEdges_targets hedges hmem with hnext | htarget
          · omega
          · exact (hrange i op edge.1 hop htarget).1
        obtain ⟨indexed, hindexed⟩ := mapM_edgeIndex_ok hnonneg
        have hcontra : edges.mapM edgeIndex = .error .targetOutOfBounds := h
        rw [hindexed] at hcontra
        cases hcontra

theorem validateTraps_terminates (memory : Bool) (f : HlPatchFunction) :
    ∃ result, validateTraps memory f = some result := by
  unfold validateTraps
  split
  · split
    · exact ⟨_, rfl⟩
    · rename_i regions hregions
      have hfuel : (trapInit f.instructions.length).pending.length +
          (trapInit f.instructions.length).unset < f.instructions.length + 1 := by
        rw [trapInit_measure]
        omega
      obtain ⟨result, hresult⟩ := Option.isSome_iff_exists.mp
        (Worklist.iterate_terminates (trapNext f regions) .inconsistent hfuel)
      rw [hresult]
      exact ⟨_, rfl⟩
  · exact ⟨_, rfl⟩

theorem validateTraps_inRange {memory : Bool} (hrange : f.TargetsInRange) :
    validateTraps memory f ≠ some (.error .targetOutOfBounds) := by
  intro h
  unfold validateTraps at h
  split at h
  · split at h
    · rename_i hregions
      cases h
      cases trapRegionsFrom_error hregions
    · obtain ⟨result, hiterate, herror⟩ := Option.map_eq_some_iff.mp h
      cases result with
      | ok table => cases herror
      | error e =>
        cases herror
        rcases Worklist.iterate_error hiterate with hclash | ⟨i, s, hnext⟩
        · cases hclash
        · exact trapNext_error hrange hnext
  · cases h

/-- An accepted function keeps its traps in step: every reachable configuration is safe, and an
instruction is only ever reached at one depth. The validator ends on every function, and reads no
table outside its bounds where the branch targets are in range. -/
theorem validateTraps_sound (memory : Bool) (f : HlPatchFunction) :
    (validateTraps memory f = some (.ok ()) → (∀ c, TrapReachable f c → TrapSafe f c) ∧
      ∀ c c', TrapReachable f c → TrapReachable f c' → c.pc = c'.pc →
        c.pc < f.instructions.length → c.traps.length = c'.traps.length) ∧
    (f.TargetsInRange → ∃ result, validateTraps memory f = some result ∧
      result ≠ .error .targetOutOfBounds) := by
  refine ⟨fun h => ?_, fun hrange => ?_⟩
  · obtain ⟨regions, table, -, hacc⟩ := accepted_of_validateTraps h
    refine ⟨fun c hc => trapSafe_of_tracks hacc (tracks_reachable hacc hc), ?_⟩
    intro c c' hc hc' hpc hlt
    rw [← hacc.length] at hlt
    have hstate := (tracks_reachable hacc hc).here hlt
    have hstate' := (tracks_reachable hacc hc').here (hpc ▸ hlt)
    rw [hpc, hstate'] at hstate
    simp only [Option.some.injEq, stateOf, TrapState.mk.injEq] at hstate
    exact hstate.1.symm
  · obtain ⟨result, hresult⟩ := validateTraps_terminates memory f
    refine ⟨result, hresult, fun heq => ?_⟩
    exact validateTraps_inRange hrange (heq ▸ hresult)

def cleanupBody : HlPatchFunction where
  type := 0
  stableId := 1
  findex := 0
  registers := [0]
  instructions :=
    [⟨.oCleanupTrap, [0, 2], rfl⟩, ⟨.oEndCleanupTrap, [0], rfl⟩, ⟨.oRet, [0], oRet_accepts⟩,
      ⟨.oRethrow, [0], rfl⟩]

theorem validateTraps_sound_cleanupBody :
    validateTraps true cleanupBody = some (.ok ()) ∧
      TrapReachable cleanupBody ⟨1, [⟨true, 3⟩]⟩ ∧ TrapSafe cleanupBody ⟨1, [⟨true, 3⟩]⟩ ∧
      ∃ result, validateTraps true cleanupBody = some result ∧ result ≠ .error .targetOutOfBounds := by
  have haccepted : validateTraps true cleanupBody = some (.ok ()) := by decide
  have hfirst : cleanupBody.instructions[0]? = some ⟨.oCleanupTrap, [0, 2], rfl⟩ := rfl
  have hreach : TrapReachable cleanupBody ⟨1, [⟨true, 3⟩]⟩ := .single (TrapStep.enter hfirst rfl)
  have hrange : cleanupBody.TargetsInRange := by
    intro i op target hop htarget
    rcases i with _ | _ | _ | _ | i <;>
      simp [cleanupBody] at hop <;> subst hop <;>
      simp [HlPatchInstruction.branch, HlOp.opensTrap, HlPatchInstruction.p] at htarget
    subst htarget
    simp [cleanupBody]
  exact ⟨haccepted, hreach, ((validateTraps_sound true cleanupBody).1 haccepted).1 _ hreach,
    (validateTraps_sound true cleanupBody).2 hrange⟩

end HashLink
