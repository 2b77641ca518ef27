import HashLink.Patch.ControlFlow
import Mathlib.Data.List.Sort

/-!
How `hl_emit_function` of `jit_emit.c` keeps track of try regions. It goes through the instructions in
order and holds the handlers of the open regions. A region is closed at its handler, but only in the
code for arrival points, the instructions that a jump emitted so far is waiting for.

Where the compiler and the validator count the same regions. They differ on traps that are never
reached: one whose handler is the next instruction stays open in the compiler unless some earlier jump
goes past it, and one that is ended outside every region stops the compiler.
-/

namespace HashLink

def maxTraps : Nat := 32

/-- The ways the bookkeeping of traps and arrival points stops the compiler. -/
inductive EmitAbort where
  | pointBehind
  | tooManyTraps
  | noOpenTrap
  deriving DecidableEq, Repr

/-- `arrival_points` and `traps`, the innermost trap first. A point is the instruction it is for; the
block that a jump comes from has no part in what follows. -/
structure EmitTraps where
  arrivalPoints : List Int
  traps : List Int

/-- The offset of the jump that `emit_opcode` registers. A patch has no `OSwitch`. -/
def HlPatchInstruction.jumpOffset (op : HlPatchInstruction) : Option Int :=
  match op.opcode with
  | .oJTrue | .oJFalse | .oJNull | .oJNotNull => some (op.p 1)
  | .oJSLt | .oJSGte | .oJSGt | .oJSLte | .oJULt | .oJUGte | .oJNotLt | .oJNotGte | .oJEq
  | .oJNotEq => some (op.p 2)
  | .oJAlways => some (op.p 0)
  | .oTrap | .oCleanupTrap => some (op.p 1)
  | _ => none

def addJumpTarget (i : Nat) (offs : Int) (points : List Int) : List Int :=
  points.orderedInsert (· ≤ ·) (offs + i + 1)

/-- `register_jump`: a jump to the next instruction, or back, leaves no arrival point. -/
def registerJump (i : Nat) (offs : Int) (points : List Int) : List Int :=
  if 0 < offs then addJumpTarget i offs points else points

/-- The loop of `hl_emit_function`, before `emit_opcode`. -/
def arrive (i : Nat) (s : EmitTraps) : Except EmitAbort EmitTraps :=
  match s.arrivalPoints with
  | [] => .ok s
  | id :: _ =>
    if id < i then .error .pointBehind
    else .ok ⟨s.arrivalPoints.dropWhile (· = i), closeRegion i s.traps⟩

/-- `emit_opcode`. An instruction other than a trap may also jump over code of its own, to the next
instruction; whether it does depends on the types, and is a parameter. -/
def emitOpcode (joins : Bool) (i : Nat) (op : HlPatchInstruction) (s : EmitTraps) :
    Except EmitAbort EmitTraps :=
  if op.opcode.opensTrap then
    if s.traps.length = maxTraps then .error .tooManyTraps
    else .ok ⟨registerJump i (op.p 1) s.arrivalPoints, (i + 1 + op.p 1) :: s.traps⟩
  else if op.opcode.closesTrap ∧ s.traps = [] then .error .noOpenTrap
  else
    let points := op.jumpOffset.elim s.arrivalPoints fun offs => registerJump i offs s.arrivalPoints
    .ok ⟨if joins then addJumpTarget i 0 points else points, s.traps⟩

/-- The value of `trap_count` at each instruction from `i` on. -/
def emitFrom (joins : Nat → Bool) : Nat → EmitTraps → List HlPatchInstruction → Except EmitAbort (List Nat)
  | _, _, [] => .ok []
  | i, s, op :: ops => do
      let s ← arrive i s
      let next ← emitOpcode (joins i) i op s
      let rest ← emitFrom joins (i + 1) next ops
      return s.traps.length :: rest

def hlEmitFunction (joins : Nat → Bool) (f : HlPatchFunction) : Except EmitAbort (List Nat) :=
  emitFrom joins 0 ⟨[], []⟩ f.instructions

/-- `emit_store_reg`: whether a store goes to the memory that a handler reads. -/
def writesThrough (trapCount : Nat) : Bool := 0 < trapCount

/-- The compiler counts the regions that the validator counted, and its stores go to memory wherever a
trap is active. -/
def TrapsAgree (joins : Nat → Bool) (f : HlPatchFunction) : Prop :=
  ∃ regions, trapRegions f = .ok regions ∧ hlEmitFunction joins f = .ok regions ∧
    ∀ c, TrapReachable f c → c.pc < f.instructions.length → c.traps ≠ [] → writesThrough (regions.getD c.pc 0)

def HlPatchFunction.trapHandler (f : HlPatchFunction) (j : Nat) : Option Int :=
  (f.instructions[j]?).bind fun op =>
    if op.opcode.opensTrap then some (j + 1 + op.p 1) else none

/-- The region of a trap closes at its handler if every trap on the way there has closed before. -/
inductive Closes (f : HlPatchFunction) : Nat → Int → Prop where
  | intro {j : Nat} {t : Int} (trap : f.trapHandler j = some t) (after : (j : Int) < t)
      (before : ∀ (k : Nat) (t' : Int), j < k → (k : Int) < t → f.trapHandler k = some t' → t' < t)
      (inner : ∀ (k : Nat) (t' : Int), j < k → (k : Int) < t → f.trapHandler k = some t' →
        Closes f k t') : Closes f j t

/-- The region of the trap at `j` is open at `i`. -/
def RegionOpen (f : HlPatchFunction) (i j : Nat) (t : Int) : Prop :=
  f.trapHandler j = some t ∧ j < i ∧ (t ≤ i → ¬Closes f j t)

def HlPatchFunction.EmptyTrapsCovered (f : HlPatchFunction) : Prop :=
  ∀ (i : Nat) (op : HlPatchInstruction), f.instructions[i]? = some op → op.opcode.opensTrap →
    op.p 1 = 0 → i + 1 < f.instructions.length →
      ∃ (j : Nat) (jump : HlPatchInstruction) (offs : Int), j < i ∧ f.instructions[j]? = some jump ∧
        jump.jumpOffset = some offs ∧ (i : Int) ≤ j + offs

def HlPatchFunction.EndTrapsInside (f : HlPatchFunction) : Prop :=
  ∀ (i : Nat) (op : HlPatchInstruction), f.instructions[i]? = some op → op.opcode.closesTrap →
    ∃ j t, RegionOpen f i j t

variable {f : HlPatchFunction}

/-- The open regions, the innermost one first. Those with a handler up to `b` have been closed. -/
structure Regions (f : HlPatchFunction) (i : Nat) (b : Int) (regions : List (Nat × Int)) : Prop where
  sorted : regions.Pairwise fun outer inner => inner.1 < outer.1
  mem : ∀ (j : Nat) (t : Int), (j, t) ∈ regions ↔ f.trapHandler j = some t ∧ j < i ∧ (t ≤ b → ¬Closes f j t)

theorem regions_start (f : HlPatchFunction) : Regions f 0 (-1) [] := by
  refine ⟨List.Pairwise.nil, fun j t => ⟨fun hmem => (nomatch hmem), ?_⟩⟩
  rintro ⟨-, hj, -⟩
  exact absurd hj (Nat.not_lt_zero j)

variable {j : Nat} {t : Int}

theorem Closes.after (h : Closes f j t) : (j : Int) < t := by
  cases h with
  | intro trap after before inner => exact after

variable {i : Nat} {op : HlPatchInstruction} {points : List Int} {regions : List (Nat × Int)}
   {ops : List HlPatchInstruction} {counts : List Nat}

theorem Regions.head_of_closes (h : Regions f i (i - 1) regions) (hmem : (j, (i : Int)) ∈ regions)
    (hcloses : Closes f j i) :
    ∃ rest, regions = (j, (i : Int)) :: rest := by
  cases regions with
  | nil => cases hmem
  | cons top rest =>
    obtain ⟨k, t⟩ := top
    rcases List.mem_cons.mp hmem with heq | hrest
    · exact ⟨rest, by rw [heq]⟩
    · obtain ⟨htrap, hk, hopen⟩ := (h.mem k t).mp (List.mem_cons_self ..)
      have hjk : j < k := List.rel_of_pairwise_cons h.sorted hrest
      cases hcloses with
      | intro trap after before inner =>
        have hbefore := before k t hjk (by omega) htrap
        exact absurd (inner k t hjk (by omega) htrap) (hopen (by omega))

theorem Regions.closes_of_head {rest : List (Nat × Int)} (h : Regions f i (i - 1) ((j, (i : Int)) :: rest)) :
    Closes f j i := by
  obtain ⟨htrap, hj, -⟩ := (h.mem j i).mp (List.mem_cons_self ..)
  have hinner : ∀ (k : Nat) (t' : Int), j < k → (k : Int) < i → f.trapHandler k = some t' →
      t' < i ∧ Closes f k t' := by
    intro k t' hjk hki hk
    by_contra hnot
    have hmem : (k, t') ∈ (j, (i : Int)) :: rest := by
      refine (h.mem k t').mpr ⟨hk, by omega, fun hle hcloses => hnot ⟨by omega, hcloses⟩⟩
    rcases List.mem_cons.mp hmem with heq | hrest
    · cases heq
      exact absurd hjk (Nat.lt_irrefl j)
    · exact absurd (List.rel_of_pairwise_cons h.sorted hrest) (by omega)
  refine .intro htrap (by omega) ?_ ?_
  · exact fun k t' hjk hki hk => (hinner k t' hjk hki hk).1
  · exact fun k t' hjk hki hk => (hinner k t' hjk hki hk).2

theorem Regions.close (h : Regions f i (i - 1) regions) :
    ∃ regions', Regions f i i regions' ∧ regions'.map Prod.snd = closeRegion i (regions.map Prod.snd) := by
  have hkeep : (∀ j, (j, (i : Int)) ∈ regions → ¬Closes f j i) → Regions f i i regions := by
    intro hopen
    refine ⟨h.sorted, fun j t => ?_⟩
    rw [h.mem j t]
    refine and_congr_right fun htrap => and_congr_right fun hj => ⟨?_, ?_⟩
    · intro hold hle
      rcases Int.lt_or_eq_of_le hle with hlt | rfl
      · exact hold (by omega)
      · refine hopen j ((h.mem j i).mpr ⟨htrap, hj, fun hle' => hold hle'⟩)
    · exact fun hnew hle => hnew (by omega)
  cases regions with
  | nil => exact ⟨[], hkeep fun j hmem => (nomatch hmem), rfl⟩
  | cons top rest =>
    obtain ⟨k, t⟩ := top
    by_cases ht : t = i
    · subst ht
      have hcloses := h.closes_of_head
      refine ⟨rest, ⟨h.sorted.of_cons, fun j t => ?_⟩, ?_⟩
      · constructor
        · intro hmem
          obtain ⟨htrap, hj, hopen⟩ := (h.mem j t).mp (List.mem_cons_of_mem _ hmem)
          refine ⟨htrap, hj, fun hle => ?_⟩
          rcases Int.lt_or_eq_of_le hle with hlt | rfl
          · exact hopen (by omega)
          · intro hj'
            obtain ⟨rest', heq⟩ := h.head_of_closes (List.mem_cons_of_mem _ hmem) hj'
            cases heq
            exact absurd (List.rel_of_pairwise_cons h.sorted hmem) (Nat.lt_irrefl _)
        · rintro ⟨htrap, hj, hopen⟩
          have hmem := (h.mem j t).mpr ⟨htrap, hj, fun hle => hopen (by omega)⟩
          rcases List.mem_cons.mp hmem with heq | hrest
          · cases heq
            exact absurd hcloses (hopen (Int.le_refl _))
          · exact hrest
      · simp [closeRegion]
    · refine ⟨(k, t) :: rest, hkeep ?_, by simp [closeRegion, ht]⟩
      intro j hmem hcloses
      obtain ⟨rest', heq⟩ := h.head_of_closes hmem hcloses
      cases heq
      exact ht rfl

theorem trapHandler_of_opens (hop : f.instructions[i]? = some op) (hopens : op.opcode.opensTrap) :
    f.trapHandler i = some (i + 1 + op.p 1) := by
  unfold HlPatchFunction.trapHandler
  rw [hop, Option.bind_some, if_pos hopens]

theorem trapHandler_of_not_opens (hop : f.instructions[i]? = some op) (hopens : ¬op.opcode.opensTrap) :
    f.trapHandler i = none := by
  unfold HlPatchFunction.trapHandler
  rw [hop, Option.bind_some, if_neg hopens]

theorem Regions.push (h : Regions f i i regions) (htrap : f.trapHandler i = some t) :
    Regions f (i + 1) i ((i, t) :: regions) := by
  refine ⟨List.pairwise_cons.mpr ⟨fun inner hinner => ((h.mem inner.1 inner.2).mp hinner).2.1, h.sorted⟩, ?_⟩
  intro j t'
  rw [List.mem_cons, h.mem j t']
  constructor
  · rintro (heq | ⟨hj, hlt, hopen⟩)
    · cases heq
      refine ⟨htrap, Nat.lt_succ_self i, fun hle hcloses => ?_⟩
      have := hcloses.after
      omega
    · exact ⟨hj, Nat.lt_succ_of_lt hlt, hopen⟩
  · rintro ⟨hj, hlt, hopen⟩
    rcases Nat.lt_succ_iff_lt_or_eq.mp hlt with hlt | rfl
    · exact .inr ⟨hj, hlt, hopen⟩
    · rw [htrap] at hj
      cases hj
      exact .inl rfl

theorem Regions.next (h : Regions f i i regions) (hnone : f.trapHandler i = none) :
    Regions f (i + 1) i regions := by
  refine ⟨h.sorted, fun j t => ?_⟩
  rw [h.mem j t]
  refine ⟨fun ⟨hj, hlt, hopen⟩ => ⟨hj, Nat.lt_succ_of_lt hlt, hopen⟩, ?_⟩
  rintro ⟨hj, hlt, hopen⟩
  rcases Nat.lt_succ_iff_lt_or_eq.mp hlt with hlt | rfl
  · exact ⟨hj, hlt, hopen⟩
  · cases hnone.symm.trans hj

/-- A jump from before `i` that goes to `i` or past it. -/
def JumpsPast (f : HlPatchFunction) (i : Nat) (id : Int) : Prop :=
  ∃ (j : Nat) (jump : HlPatchInstruction) (offs : Int), j < i ∧ f.instructions[j]? = some jump ∧
    jump.jumpOffset = some offs ∧ 0 < offs ∧ id = j + 1 + offs

/-- The arrival points at `i` are for the jumps that go there or past it. Only behind an instruction
that is no trap there is one for a jump in the code of that instruction. -/
structure Points (f : HlPatchFunction) (i : Nat) (points : List Int) : Prop where
  sorted : points.Pairwise (· ≤ ·)
  ahead : ∀ id ∈ points, (i : Int) ≤ id
  jumps : ∀ id, (i : Int) ≤ id → JumpsPast f i id → id ∈ points
  known : ∀ id ∈ points, JumpsPast f i id ∨ id = i ∧ ∀ j, i = j + 1 → f.trapHandler j = none

theorem points_start (f : HlPatchFunction) : Points f 0 [] := by
  refine ⟨List.Pairwise.nil, fun id hid => (nomatch hid), ?_, fun id hid => (nomatch hid)⟩
  rintro id - ⟨j, -, -, hj, -⟩
  exact absurd hj (Nat.not_lt_zero j)

theorem mem_dropWhile_point (hsorted : points.Pairwise (· ≤ ·)) (hahead : ∀ id ∈ points, (i : Int) ≤ id)
    (id : Int) :
    id ∈ points.dropWhile (· = (i : Int)) ↔ id ∈ points ∧ id ≠ i := by
  induction points with
  | nil => simp
  | cons p ps ih =>
    have ih' := ih hsorted.of_cons fun id hid => hahead id (List.mem_cons_of_mem _ hid)
    by_cases hp : p = i
    · rw [List.dropWhile_cons_of_pos (by simpa using hp), ih', List.mem_cons, hp]
      tauto
    · rw [List.dropWhile_cons_of_neg (by simpa using hp)]
      refine ⟨fun hid => ⟨hid, ?_⟩, fun hid => hid.1⟩
      rintro rfl
      have hle := hahead p (List.mem_cons_self ..)
      rcases List.mem_cons.mp hid with heq | hrest
      · exact hp heq.symm
      · have := List.rel_of_pairwise_cons hsorted hrest
        omega

theorem mem_registerJump {offs id : Int} :
    id ∈ registerJump i offs points ↔ id ∈ points ∨ 0 < offs ∧ id = i + 1 + offs := by
  unfold registerJump addJumpTarget
  split
  · rename_i hpos
    rw [List.mem_orderedInsert]
    constructor
    · rintro (rfl | hid)
      · exact .inr ⟨hpos, by omega⟩
      · exact .inl hid
    · rintro (hid | ⟨-, rfl⟩)
      · exact .inr hid
      · exact .inl (by omega)
  · rename_i hpos
    exact ⟨.inl, fun hid => hid.resolve_right fun hnew => hpos hnew.1⟩

theorem sorted_registerJump (i : Nat) (offs : Int) (h : points.Pairwise (· ≤ ·)) :
    (registerJump i offs points).Pairwise (· ≤ ·) := by
  unfold registerJump addJumpTarget
  split
  · exact h.orderedInsert _ _
  · exact h

theorem jumpOffset_of_opens (h : op.opcode.opensTrap) :
    op.jumpOffset = some (op.p 1) := by
  unfold HlOp.opensTrap at h
  rw [Bool.or_eq_true, decide_eq_true_iff, decide_eq_true_iff] at h
  unfold HlPatchInstruction.jumpOffset
  rcases h with h | h <;> rw [h]

theorem jumpsPast_succ (hop : f.instructions[i]? = some op) (id : Int) :
    JumpsPast f (i + 1) id ↔
      JumpsPast f i id ∨ ∃ offs, op.jumpOffset = some offs ∧ 0 < offs ∧ id = i + 1 + offs := by
  constructor
  · rintro ⟨j, jump, offs, hj, hjump, hoffs, hpos, hid⟩
    rcases Nat.lt_succ_iff_lt_or_eq.mp hj with hj | rfl
    · exact .inl ⟨j, jump, offs, hj, hjump, hoffs, hpos, hid⟩
    · rw [hop] at hjump
      cases hjump
      exact .inr ⟨offs, hoffs, hpos, hid⟩
  · rintro (⟨j, jump, offs, hj, hrest⟩ | ⟨offs, hoffs, hpos, hid⟩)
    · exact ⟨j, jump, offs, Nat.lt_succ_of_lt hj, hrest⟩
    · exact ⟨i, op, offs, Nat.lt_succ_self i, hop, hoffs, hpos, hid⟩

theorem Points.step {points' : List Int} (h : Points f i points) (hop : f.instructions[i]? = some op)
    (hsorted : points'.Pairwise (· ≤ ·)) (hmem : ∀ id, id ∈ points' ↔ (id ∈ points ∧ id ≠ i) ∨
      (∃ offs, op.jumpOffset = some offs ∧ 0 < offs ∧ id = i + 1 + offs) ∨
      id = i + 1 ∧ id ∈ points' ∧ f.trapHandler i = none) : Points f (i + 1) points' := by
  refine ⟨hsorted, ?_, ?_, ?_⟩
  · intro id hid
    rw [Int.natCast_succ]
    rcases (hmem id).mp hid with ⟨hold, hne⟩ | ⟨offs, -, hpos, rfl⟩ | ⟨rfl, -⟩
    · have := h.ahead id hold
      omega
    · omega
    · omega
  · intro id hle hpast
    rw [Int.natCast_succ] at hle
    rcases (jumpsPast_succ hop id).mp hpast with hold | hnew
    · exact (hmem id).mpr (.inl ⟨h.jumps id (by omega) hold, by omega⟩)
    · exact (hmem id).mpr (.inr (.inl hnew))
  · intro id hid
    rw [jumpsPast_succ hop id]
    rcases (hmem id).mp hid with ⟨hold, hne⟩ | hnew | ⟨hid, -, hnone⟩
    · rcases h.known id hold with hpast | hbehind
      · exact .inl (.inl hpast)
      · exact absurd hbehind.1 hne
    · exact .inl (.inr hnew)
    · refine .inr ⟨by omega, fun j hj => ?_⟩
      cases hj
      exact hnone

theorem Points.trap (h : Points f i points) (hop : f.instructions[i]? = some op)
    (hopens : op.opcode.opensTrap) :
    Points f (i + 1) (registerJump i (op.p 1) (points.dropWhile (· = (i : Int)))) := by
  refine h.step hop (sorted_registerJump i _ (h.sorted.sublist (List.dropWhile_sublist _))) fun id => ?_
  rw [mem_registerJump, mem_dropWhile_point h.sorted h.ahead, jumpOffset_of_opens hopens,
    trapHandler_of_opens hop hopens]
  simp

theorem Points.other (h : Points f i points) (hop : f.instructions[i]? = some op)
    (hopens : ¬op.opcode.opensTrap) (joins : Bool) :
    Points f (i + 1) (
      let points := op.jumpOffset.elim (points.dropWhile (· = (i : Int)))
        fun offs => registerJump i offs (points.dropWhile (· = (i : Int)))
      if joins then addJumpTarget i 0 points else points) := by
  have hsorted := h.sorted.sublist (List.dropWhile_sublist (· = (i : Int)))
  have hjump : (op.jumpOffset.elim (points.dropWhile (· = (i : Int)))
      fun offs => registerJump i offs (points.dropWhile (· = (i : Int)))).Pairwise (· ≤ ·) := by
    cases op.jumpOffset with
    | none => exact hsorted
    | some offs => exact sorted_registerJump i offs hsorted
  have hmem : ∀ id, id ∈ (op.jumpOffset.elim (points.dropWhile (· = (i : Int)))
      fun offs => registerJump i offs (points.dropWhile (· = (i : Int)))) ↔ (id ∈ points ∧ id ≠ i) ∨
        ∃ offs, op.jumpOffset = some offs ∧ 0 < offs ∧ id = i + 1 + offs := by
    intro id
    cases op.jumpOffset with
    | none => simp [mem_dropWhile_point h.sorted h.ahead]
    | some offs => simp [mem_registerJump, mem_dropWhile_point h.sorted h.ahead]
  refine h.step hop ?_ fun id => ?_
  · split
    · exact hjump.orderedInsert _ _
    · exact hjump
  · rw [trapHandler_of_not_opens hop hopens, ← or_assoc, ← hmem id]
    split
    · unfold addJumpTarget
      rw [List.mem_orderedInsert]
      constructor
      · rintro (rfl | hid)
        · exact .inr ⟨by omega, .inl rfl, rfl⟩
        · exact .inl hid
      · rintro (hid | ⟨hid, -, -⟩)
        · exact .inr hid
        · exact .inl (by omega)
    · exact ⟨.inl, fun hid => hid.elim (fun hid => hid) fun hid => hid.2.1⟩

/-- An empty region that closes at `i` has a jump over it. -/
def CoveredAt (f : HlPatchFunction) (i : Nat) : Prop :=
  ∀ j, i = j + 1 → f.trapHandler j = some (i : Int) → ∃ id, (i : Int) ≤ id ∧ JumpsPast f i id

/-- If `i` ends a trap it is in a region. -/
def InsideAt (f : HlPatchFunction) (i : Nat) : Prop :=
  ∀ op, f.instructions[i]? = some op → op.opcode.closesTrap → ∃ j t, RegionOpen f i j t

theorem trapHandler_eq_some (h : f.trapHandler j = some t) :
    ∃ op, f.instructions[j]? = some op ∧ op.opcode.opensTrap = true ∧ t = j + 1 + op.p 1 := by
  obtain ⟨op, hop, hif⟩ := Option.bind_eq_some_iff.mp h
  split at hif
  · rename_i hopens
    cases hif
    exact ⟨op, hop, hopens, rfl⟩
  · cases hif

theorem jumpsPast_of_trapHandler (h : f.trapHandler j = some t) (hj : j < i) (ht : (j : Int) + 1 < t) :
    JumpsPast f i t := by
  obtain ⟨op, hop, hopens, rfl⟩ := trapHandler_eq_some h
  exact ⟨j, op, op.p 1, hj, hop, jumpOffset_of_opens hopens, by omega, rfl⟩

/-- The regions the compiler has open at `i` are those the validator has, unless there is an empty one
that no jump goes over. -/
theorem arrive_eq (hregions : Regions f i (i - 1) regions) (hpoints : Points f i points) :
    ∃ traps, arrive i ⟨points, regions.map Prod.snd⟩ = .ok ⟨points.dropWhile (· = (i : Int)), traps⟩ ∧
      (CoveredAt f i → traps = closeRegion i (regions.map Prod.snd)) ∧
      (traps.length = (closeRegion i (regions.map Prod.snd)).length → CoveredAt f i) := by
  cases points with
  | nil =>
    refine ⟨regions.map Prod.snd, rfl, ?_, ?_⟩
    · intro hcovered
      have hno : ∀ id, (i : Int) ≤ id → ¬JumpsPast f i id :=
        fun id hle hpast => (nomatch hpoints.jumps id hle hpast)
      cases regions with
      | nil => rfl
      | cons top rest =>
        obtain ⟨k, t⟩ := top
        obtain ⟨htrap, hk, -⟩ := (hregions.mem k t).mp (List.mem_cons_self ..)
        have ht : t ≠ i := by
          rintro rfl
          by_cases hnext : i = k + 1
          · obtain ⟨id, hle, hpast⟩ := hcovered k hnext htrap
            exact hno id hle hpast
          · exact hno i (Int.le_refl _) (jumpsPast_of_trapHandler htrap hk (by omega))
        simp [closeRegion, ht]
    · intro hlength j hj htrap
      have hmem : (j, (i : Int)) ∈ regions :=
        (hregions.mem j i).mpr ⟨htrap, by omega, fun hle => absurd hle (by omega)⟩
      cases regions with
      | nil => cases hmem
      | cons top rest =>
        obtain ⟨k, t⟩ := top
        rcases List.mem_cons.mp hmem with heq | hrest
        · cases heq
          simp [closeRegion] at hlength
        · have hk := ((hregions.mem k t).mp (List.mem_cons_self ..)).2.1
          have hjk : j < k := List.rel_of_pairwise_cons hregions.sorted hrest
          omega
  | cons id ids =>
    have hle := hpoints.ahead id (List.mem_cons_self ..)
    refine ⟨closeRegion i (regions.map Prod.snd), ?_, fun _ => rfl, fun _ => ?_⟩
    · unfold arrive
      simp only
      rw [if_neg (by omega)]
    · intro j hj htrap
      rcases hpoints.known id (List.mem_cons_self ..) with hpast | ⟨-, hnone⟩
      · exact ⟨id, hle, hpast⟩
      · cases htrap.symm.trans (hnone j hj)

theorem not_closes_of_opens {op : HlOp} (h : op.opensTrap = true) : op.closesTrap = false := by
  cases op <;> first | rfl | cases h

theorem emitFrom_cons {joins : Nat → Bool} {s : EmitTraps} :
    emitFrom joins i s (op :: ops) = .ok counts ↔
      ∃ here, arrive i s = .ok here ∧ ∃ next, emitOpcode (joins i) i op here = .ok next ∧
        ∃ rest, emitFrom joins (i + 1) next ops = .ok rest ∧ here.traps.length :: rest = counts := by
  rw [emitFrom]
  simp only [except_bind_eq_ok, pure, Except.pure, Except.ok.injEq]

theorem trapRegionsFrom_cons {targets : List Int} (h : trapRegionsFrom i targets (op :: ops) = .ok counts) :
    ∃ rest, counts = (closeRegion i targets).length :: rest ∧
      if op.opcode.opensTrap then (closeRegion i targets).length ≠ patchMaxTraps ∧
        trapRegionsFrom (i + 1) ((i + 1 + op.p 1) :: closeRegion i targets) ops = .ok rest
      else trapRegionsFrom (i + 1) (closeRegion i targets) ops = .ok rest := by
  rw [trapRegionsFrom] at h
  split at h
  · split at h
    · cases h
    · rename_i hopens hfew
      simp only [except_bind_eq_ok, pure, Except.pure, Except.ok.injEq] at h
      obtain ⟨rest, hrest, rfl⟩ := h
      refine ⟨rest, rfl, ?_⟩
      rw [if_pos hopens]
      exact ⟨hfew, hrest⟩
  · rename_i hopens
    simp only [except_bind_eq_ok, pure, Except.pure, Except.ok.injEq] at h
    obtain ⟨rest, hrest, rfl⟩ := h
    refine ⟨rest, rfl, ?_⟩
    rw [if_neg hopens]
    exact hrest

theorem forall_from_iff {P : Nat → Prop} {n : Nat} (hi : i < n) :
    (∀ k, i ≤ k → k < n → P k) ↔ P i ∧ ∀ k, i + 1 ≤ k → k < n → P k := by
  refine ⟨fun h => ⟨h i (Nat.le_refl i) hi, fun k hk => h k (Nat.le_of_succ_le hk)⟩, ?_⟩
  rintro ⟨hhere, hlater⟩ k hik hk
  rcases Nat.eq_or_lt_of_le hik with rfl | hlt
  · exact hhere
  · exact hlater k hlt hk

theorem insideAt_iff (hop : f.instructions[i]? = some op) (hopen : Regions f i i regions) :
    InsideAt f i ↔ ¬(op.opcode.closesTrap ∧ regions.map Prod.snd = []) := by
  constructor
  · rintro hinside ⟨hcloses, hnil⟩
    obtain ⟨j, t, hregion⟩ := hinside op hop hcloses
    have hmem := (hopen.mem j t).mpr hregion
    rw [List.map_eq_nil_iff.mp hnil] at hmem
    cases hmem
  · intro hnot op' hop' hcloses
    rw [hop] at hop'
    cases hop'
    cases regions with
    | nil => exact absurd ⟨hcloses, rfl⟩ hnot
    | cons top rest => exact ⟨top.1, top.2, (hopen.mem top.1 top.2).mp (List.mem_cons_self ..)⟩

theorem emitFrom_iff {joins : Nat → Bool} (hops : f.instructions.drop i = ops)
    (hregions : Regions f i (i - 1) regions) (hpoints : Points f i points)
    (hcounts : trapRegionsFrom i (regions.map Prod.snd) ops = .ok counts) :
    emitFrom joins i ⟨points, regions.map Prod.snd⟩ ops = .ok counts ↔
      ∀ k, i ≤ k → k < f.instructions.length → CoveredAt f k ∧ InsideAt f k := by
  induction ops generalizing i regions points counts with
  | nil =>
    cases hcounts
    refine ⟨fun _ k hik hk => ?_, fun _ => rfl⟩
    have := List.drop_eq_nil_iff.mp hops
    omega
  | cons op ops ih =>
    have hop : f.instructions[i]? = some op := by
      rw [← List.head?_drop, hops]
      rfl
    have hdrop : f.instructions.drop (i + 1) = ops := by
      rw [← List.tail_drop, hops]
      rfl
    have hbound : (((i + 1 : Nat) : Int) - 1) = i := by omega
    obtain ⟨regions', hopen, htargets⟩ := hregions.close
    obtain ⟨traps, harrive, hsame, hcovered⟩ := arrive_eq hregions hpoints
    obtain ⟨rest, rfl, hrest⟩ := trapRegionsFrom_cons hcounts
    rw [← htargets] at hsame hcovered hrest ⊢
    rw [forall_from_iff (List.getElem?_eq_some_iff.mp hop).1, emitFrom_cons, harrive]
    simp only [Except.ok.injEq, exists_eq_left', List.cons.injEq]
    by_cases hcover : CoveredAt f i
    · cases hsame hcover
      split at hrest
      · -- a trap: the validator has made sure of the room for it
        rename_i hopens
        obtain ⟨hfew, hrest⟩ := hrest
        have hregions' : Regions f (i + 1) ((i + 1 : Nat) - 1) ((i, i + 1 + op.p 1) :: regions') := by
          rw [hbound]
          exact hopen.push (trapHandler_of_opens hop hopens)
        rw [← ih hdrop hregions' (hpoints.trap hop hopens) hrest]
        have hinside : InsideAt f i := by
          rw [insideAt_iff hop hopen, not_closes_of_opens hopens]
          exact fun hcloses => Bool.false_ne_true hcloses.1
        have hemit : emitOpcode (joins i) i op ⟨points.dropWhile (· = (i : Int)), regions'.map Prod.snd⟩ =
              .ok ⟨registerJump i (op.p 1) (points.dropWhile (· = (i : Int))),
                (i + 1 + op.p 1) :: regions'.map Prod.snd⟩ := by
          unfold emitOpcode
          rw [if_pos hopens]
          exact if_neg hfew
        rw [hemit]
        simp [hcover, hinside]
      · rename_i hopens
        have hregions' : Regions f (i + 1) ((i + 1 : Nat) - 1) regions' := by
          rw [hbound]
          exact hopen.next (trapHandler_of_not_opens hop hopens)
        rw [insideAt_iff hop hopen, ← ih hdrop hregions' (hpoints.other hop hopens (joins i)) hrest]
        unfold emitOpcode
        rw [if_neg hopens]
        split
        · rename_i hbad
          refine ⟨?_, fun h => absurd hbad h.1.2⟩
          rintro ⟨next, hnext, -⟩
          cases hnext
        · rename_i hgood
          simp only [Except.ok.injEq, exists_eq_left', true_and, exists_eq_right]
          exact ⟨fun h => ⟨⟨hcover, hgood⟩, h⟩, fun h => h.2⟩
    · refine ⟨?_, fun h => absurd h.1.1 hcover⟩
      rintro ⟨next, -, rest', -, hlength, -⟩
      exact absurd (hcovered hlength) hcover

theorem hlEmitFunction_iff (joins : Nat → Bool) {regions : List Nat}
    (h : trapRegions f = .ok regions) : hlEmitFunction joins f = .ok regions ↔
      ∀ k < f.instructions.length, CoveredAt f k ∧ InsideAt f k := by
  have hiff : hlEmitFunction joins f = .ok regions ↔ _ :=
    emitFrom_iff (i := 0) rfl (regions_start f) (points_start f) h
  simp only [Nat.zero_le, forall_const] at hiff
  exact hiff

theorem coveredAt_iff : (∀ k < f.instructions.length, CoveredAt f k) ↔ f.EmptyTrapsCovered := by
  constructor
  · intro hcovered i op hop hopens hzero hlt
    have htrap := trapHandler_of_opens hop hopens
    rw [hzero, Int.add_zero, ← Int.natCast_succ] at htrap
    obtain ⟨id, hle, j, jump, offs, hj, hjump, hoffs, hpos, rfl⟩ := hcovered (i + 1) hlt i rfl htrap
    have hne : j ≠ i := by
      rintro rfl
      rw [hop] at hjump
      cases hjump
      rw [jumpOffset_of_opens hopens, hzero] at hoffs
      cases hoffs
      exact absurd hpos (by decide)
    exact ⟨j, jump, offs, by omega, hjump, hoffs, by omega⟩
  · intro hcovered k hk j hj htrap
    subst hj
    obtain ⟨op, hop, hopens, hhandler⟩ := trapHandler_eq_some htrap
    obtain ⟨j', jump, offs, hlt, hjump, hoffs, hle⟩ := hcovered j op hop hopens (by omega) hk
    exact ⟨j' + 1 + offs, by omega, j', jump, offs, by omega, hjump, hoffs, by omega, rfl⟩

theorem insideAt_all_iff : (∀ k < f.instructions.length, InsideAt f k) ↔ f.EndTrapsInside :=
  ⟨fun h i op hop => h i (List.getElem?_eq_some_iff.mp hop).1 op hop, fun h k _ op => h k op⟩

theorem Accepted.inside {regions : List Nat} {table : List (Option TrapState)}
    (hacc : Accepted f regions table) {c : TrapConfig} (hc : TrapReachable f c)
    (hpc : c.pc < f.instructions.length) : c.traps.length ≤ regions.getD c.pc 0 := by
  have htracks := (tracks_reachable hacc hc).here (by rw [hacc.length]; exact hpc)
  obtain ⟨edges, hedges, -⟩ := hacc.followed c.pc _ htracks
  unfold trapNext at hedges
  split at hedges
  · cases hedges
  · rename_i hinside
    exact Nat.le_of_not_lt hinside

theorem validateTraps_of_validateFunction {env : PatchEnv} {m : HlModule} {patch : HlPatch}
    {layout : PatchLayout} {k : Nat} (h : validateFunction env m patch layout k f = .ok ()) :
    validateTraps (env.memory .traps k) f = some (.ok ()) := by
  unfold validateFunction at h
  split at h
  · cases h
  · simp only [except_bind_eq_ok] at h
    obtain ⟨_, -, _, -, _, -, hverdict⟩ := h
    obtain ⟨result, hresult⟩ := validateTraps_terminates (env.memory .traps k) f
    unfold trapsVerdict at hverdict
    simp only [hresult, Option.get_some] at hverdict
    rw [hresult]
    cases result with
    | error e => cases hverdict
    | ok u => rfl

/-- The compiler agrees with the validator on a function that was accepted exactly when every empty
region has a jump over it and every end of a trap, reached or not, is in a region. -/
theorem traps_agree_iff (env : PatchEnv) (m : HlModule) (patch : HlPatch) (layout : PatchLayout) (k : Nat)
    (f : HlPatchFunction) (joins : Nat → Bool) (h : validateFunction env m patch layout k f = .ok ()) :
    TrapsAgree joins f ↔ f.EmptyTrapsCovered ∧ f.EndTrapsInside := by
  obtain ⟨regions, table, hregions, hacc⟩ :=
    accepted_of_validateTraps (validateTraps_of_validateFunction h)
  rw [← coveredAt_iff, ← insideAt_all_iff, ← forall_and]
  simp only [← imp_and]
  rw [← hlEmitFunction_iff joins hregions]
  constructor
  · rintro ⟨regions', hsame, hemit, -⟩
    rw [hregions] at hsame
    cases hsame
    exact hemit
  · intro hemit
    refine ⟨regions, hregions, hemit, fun c hc hpc hactive => ?_⟩
    have hle := hacc.inside hc hpc
    have hpos := List.length_pos_of_ne_nil hactive
    exact decide_eq_true (Nat.lt_of_lt_of_le hpos hle)

def trapPatch : HlPatch :=
  bodyPatch [1] [⟨.oTrap, [0, 2], rfl⟩, ⟨.oEndTrap, [0], rfl⟩, ⟨.oRet, [0], oRet_accepts⟩, ⟨.oRet, [0], oRet_accepts⟩]

theorem traps_agree_trapPatch : ∃ result, checkPatch idleEnv oneFunctionModule trapPatch = .ok result ∧
    ∀ f ∈ trapPatch.functions, TrapsAgree (fun _ => false) f := by
  have hcheck : ∃ result, checkPatch idleEnv oneFunctionModule trapPatch = .ok result := ⟨_, rfl⟩
  obtain ⟨result, hcheck⟩ := hcheck
  refine ⟨result, hcheck, fun f hf => ?_⟩
  obtain ⟨k, hvalid⟩ := validateFunction_of_checkPatch hcheck hf
  refine (traps_agree_iff idleEnv oneFunctionModule trapPatch _ k f (fun _ => false) hvalid).mpr ?_
  cases List.mem_singleton.mp hf
  refine ⟨?_, ?_⟩
  · intro i op hop hopens hzero hlt
    match i with
    | 0 => cases hop; exact absurd hzero (by decide)
    | 1 => cases hop; cases hopens
    | 2 => cases hop; cases hopens
    | 3 => cases hop; cases hopens
    | i + 4 => cases hop
  · intro i op hop hcloses
    match i with
    | 0 => cases hop; cases hcloses
    | 1 => exact ⟨0, 3, rfl, Nat.zero_lt_one, fun hle => absurd hle (by decide)⟩
    | 2 => cases hop; cases hcloses
    | 3 => cases hop; cases hcloses
    | i + 4 => cases hop

def deadTrapPatch : HlPatch :=
  bodyPatch [1] [⟨.oRet, [0], oRet_accepts⟩, ⟨.oTrap, [0, 0], rfl⟩, ⟨.oRet, [0], oRet_accepts⟩]

def deadEndTrapPatch : HlPatch :=
  bodyPatch [1] [⟨.oRet, [0], oRet_accepts⟩, ⟨.oEndTrap, [0], rfl⟩, ⟨.oRet, [0], oRet_accepts⟩]

theorem dead_traps_disagree :
    (∃ result, checkPatch idleEnv oneFunctionModule deadTrapPatch = .ok result) ∧
      (∀ f ∈ deadTrapPatch.functions, trapRegions f = .ok [0, 0, 0] ∧
        hlEmitFunction (fun _ => false) f = .ok [0, 0, 1]) ∧
      (∃ result, checkPatch idleEnv oneFunctionModule deadEndTrapPatch = .ok result) ∧
      ∀ f ∈ deadEndTrapPatch.functions, trapRegions f = .ok [0, 0, 0] ∧
        hlEmitFunction (fun _ => false) f = .error .noOpenTrap := by
  refine ⟨⟨_, rfl⟩, fun f hf => ?_, ⟨_, rfl⟩, fun f hf => ?_⟩
  · cases List.mem_singleton.mp hf
    exact ⟨rfl, rfl⟩
  · cases List.mem_singleton.mp hf
    exact ⟨rfl, rfl⟩

end HashLink
