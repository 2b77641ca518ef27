import HashLink.HotReload.TypeCheck
import Mathlib.Logic.Relation

/-!
The entries of the functions of a patchable module, and what `hl_module_redirect_slot` writes to them.
A function is called through the table of functions, which has the stub of its slot, or directly at
the entry it was compiled to. The stub jumps to what `patch_targets` has for the slot. Memory is what
is executed at an address: the compiled functions are far enough apart for all that is written here.
-/

namespace HashLink.HotReload

open Fuel

/-- A pointer that code jumps through: of `patch_targets`, or of `functions_ptrs`. -/
inductive Cell where
  | target (slot : Nat)
  | function (slot : Nat)
  deriving DecidableEq, Repr

/-- What is executed at an entry: the code of a function, with or without the nop in front of it, a
jump to an address, or a jump through a pointer. -/
inductive Instr where
  | body
  | nop
  | jump (target : Nat)
  | through (cell : Cell)
  deriving DecidableEq, Repr

def Instr.IsCode : Instr → Prop
  | .body | .nop => True
  | _ => False

/-- The executable memory. `direct` is `HL_JIT_DIRECT_PATCHABLE_CALLS`, `stubs` is
`m->patch_entry_code` and `stride` is `HL_JIT_PATCH_ENTRY_STRIDE`. -/
structure CodeMem where
  direct : Bool
  stubs : Nat
  stride : Nat
  strided : 0 < stride
  instrs : Nat → Instr

namespace CodeMem

def stub (c : CodeMem) (slot : Nat) : Nat := c.stubs + slot * c.stride

def write (c : CodeMem) (a : Nat) (i : Instr) : CodeMem :=
  { c with instrs := Function.update c.instrs a i }

/-- `hl_jit_patch_entry_jump`. There is no result when it returns false. -/
def hlJitPatchEntryJump (c : CodeMem) (entry stub : Nat) : Option CodeMem :=
  let delta : Int := stub - (entry + 5)
  if entry % 8 ≠ 0 ∨ delta < -2 ^ 31 ∨ 2 ^ 31 ≤ delta then none
  else
    match c.instrs entry with
    | .jump _ | .nop => some (c.write entry (.jump stub))
    | _ => none

def hlJitPatchMethod (c : CodeMem) (function : Nat) (cell : Cell) : CodeMem :=
  c.write function (.through cell)

end CodeMem

/-- `m->patch_targets[slot]`. -/
def patchTarget (m : HlModule) (slot : Nat) : Option Nat :=
  m.patchTargets.bind fun targets => targets.getD slot none

/-- `m->patch_origin[slot]`. -/
def patchOrigin (m : HlModule) (slot : Nat) : Option Nat :=
  m.patchOrigin.bind fun origins => origins.getD slot none

def functionEntry (m : HlModule) (slot : Nat) : Option Nat := m.functionsPtrs.getD slot none

def hlModuleRedirectSlot (c : CodeMem) (m : HlModule) (slot code : Nat) : CodeMem × HlModule :=
  match m.patchTargets with
  | none => (c.hlJitPatchMethod ((functionEntry m slot).getD 0) (.function slot), redirectSlot m slot code)
  | some _ =>
    let first := patchTarget m slot = patchOrigin m slot
    let m' := redirectSlot m slot code
    match patchOrigin m slot with
    | none => (c, m')
    | some origin =>
      if c.direct then
        match c.hlJitPatchEntryJump origin code with
        | some c => (c, m')
        | none =>
          match c.hlJitPatchEntryJump origin (c.stub slot) with
          | some c => (c, m')
          | none => (c.hlJitPatchMethod origin (.target slot), m')
      else if first then (c.hlJitPatchMethod origin (.target slot), m')
      else (c, m')

def moduleSlotCapacity (m : HlModule) : Nat :=
  max m.functionsCapacity m.functions.length + m.natives.length

def giveStub (s : CodeMem × HlModule) (slot : Nat) : CodeMem × HlModule :=
  (s.1.hlJitPatchMethod (s.1.stub slot) (.target slot),
    { s.2 with functionsPtrs := s.2.functionsPtrs.set slot (some (s.1.stub slot)) })

def installFunction (s : CodeMem × HlModule) (f : HlFunction) : CodeMem × HlModule :=
  let slot := f.findex.toNat
  let target := functionEntry s.2 slot
  giveStub (s.1, { s.2 with
    patchTargets := s.2.patchTargets.map fun targets => targets.set slot target
    patchOrigin := s.2.patchOrigin.map fun origins => origins.set slot target }) slot

def moduleInitPatchEntries (c : CodeMem) (m : HlModule) : CodeMem × HlModule :=
  let count := moduleSlotCapacity m
  let m := { m with
    patchTargets := some (List.replicate count none)
    patchOrigin := some (List.replicate count none) }
  let s := m.functions.foldl installFunction (c, m)
  let added := List.range' (m.functions.length + m.natives.length)
    (count - (m.functions.length + m.natives.length))
  added.foldl giveStub s

/-- `hl_module_patch_slots`: the answer, the executable memory, the target and the memory of the
types. -/
def CodeMem.hlModulePatchSlots (c : CodeMem) (fuel : Nat) (mem : TypeMem)
    (target generation : HlModule) (base base' : Nat) (indices : List Int) :
    Option (Bool × (CodeMem × HlModule) × TypeMem) :=
  if ¬target.patchable ∨ indices = [] then some (false, (c, target), mem) else
  match checkSlots fuel target generation base base' mem indices with
  | none => none
  | some (false, mem) => some (false, (c, target), mem)
  | some (true, mem) =>
    let redirect (s : CodeMem × HlModule) (index : Int) :=
      hlModuleRedirectSlot s.1 s.2 index.toNat ((functionPtr generation index).getD 0)
    some (true, indices.foldl redirect (c, target), mem)

def nextEntry (s : CodeMem × HlModule) (a : Nat) : Option Nat :=
  match s.1.instrs a with
  | .jump b => some b
  | .through (.target slot) => patchTarget s.2 slot
  | .through (.function slot) => functionEntry s.2 slot
  | _ => none

/-- A call of `a` comes to `b` by jumps. -/
def Reaches (s : CodeMem × HlModule) : Nat → Nat → Prop := Relation.ReflTransGen fun a b => nextEntry s a = some b

variable {origin : Nat} {s₀ : CodeMem × HlModule}

section Redirect

variable {c : CodeMem} {m : HlModule} {slot code : Nat}

theorem patchOrigin_redirectSlot (m : HlModule) (slot code s : Nat) :
    patchOrigin (redirectSlot m slot code) s = patchOrigin m s := by
  unfold redirectSlot
  split <;> rfl

theorem functionEntry_redirectSlot (h : m.patchTargets ≠ none) (s : Nat) :
    functionEntry (redirectSlot m slot code) s = functionEntry m s := by
  unfold redirectSlot
  split
  · exact absurd ‹_› h
  · rfl

theorem patchTarget_redirectSlot_ne {s : Nat} (hne : s ≠ slot) :
    patchTarget (redirectSlot m slot code) s = patchTarget m s := by
  unfold redirectSlot patchTarget
  split
  · rfl
  · next targets htargets =>
    rw [htargets]
    show (targets.set slot (some code)).getD s none = targets.getD s none
    rw [List.getD_eq_getElem?_getD, List.getElem?_set_ne (Ne.symm hne), ← List.getD_eq_getElem?_getD]

theorem patchTarget_redirectSlot_self {t : Nat} (h : patchTarget m slot = some t) :
    patchTarget (redirectSlot m slot code) slot = some code := by
  unfold patchTarget at h
  unfold redirectSlot patchTarget
  cases htargets : m.patchTargets with
  | none =>
    rw [htargets] at h
    cases h
  | some targets =>
    rw [htargets] at h
    have hlt : slot < targets.length := by
      by_contra hge
      have hnone : targets.getD slot none = some t := h
      rw [List.getD_eq_getElem?_getD, List.getElem?_eq_none (Nat.le_of_not_lt hge)] at hnone
      cases hnone
    show (targets.set slot (some code)).getD slot none = some code
    rw [List.getD_eq_getElem?_getD, List.getElem?_set_self hlt]
    rfl

theorem redirectSlot_tables (h : m.patchTargets ≠ none) :
    (redirectSlot m slot code).patchTargets ≠ none := by
  unfold redirectSlot
  split
  · exact absurd ‹_› h
  · exact Option.some_ne_none _

theorem redirect_module (c : CodeMem) (m : HlModule) (slot code : Nat) :
    (hlModuleRedirectSlot c m slot code).2 = redirectSlot m slot code := by
  unfold hlModuleRedirectSlot
  split
  · rfl
  · dsimp only
    split
    · rfl
    · split
      · split
        · rfl
        · split <;> rfl
      · split <;> rfl

/-- What the original entry of a slot is after it was redirected. -/
def Leads (c : CodeMem) (slot origin code : Nat) : Prop :=
  c.instrs origin = .through (.target slot) ∨
    c.direct = true ∧ (c.instrs origin = .jump code ∨ c.instrs origin = .jump (c.stub slot))

theorem patchEntryJump_eq {c' : CodeMem} {entry stub : Nat}
    (h : c.hlJitPatchEntryJump entry stub = some c') : c' = c.write entry (.jump stub) := by
  unfold CodeMem.hlJitPatchEntryJump at h
  dsimp only at h
  split at h
  · cases h
  · split at h
    · exact (Option.some.inj h).symm
    · exact (Option.some.inj h).symm
    · cases h

theorem redirect_added (htables : m.patchTargets ≠ none) (horigin : patchOrigin m slot = none) :
    (hlModuleRedirectSlot c m slot code).1 = c := by
  unfold hlModuleRedirectSlot
  split
  · exact absurd ‹_› htables
  · simp only [horigin]

theorem redirect_entry (htables : m.patchTargets ≠ none) (horigin : patchOrigin m slot = some origin)
    (hleads : c.direct = false → patchTarget m slot ≠ some origin → c.instrs origin = .through (.target slot)) :
    ∃ i, (hlModuleRedirectSlot c m slot code).1 = c.write origin i ∧
      Leads (c.write origin i) slot origin code := by
  have hself : ∀ i, (c.write origin i).instrs origin = i := fun i => Function.update_self ..
  have hkeep : c.write origin (c.instrs origin) = c := by
    unfold CodeMem.write
    rw [Function.update_eq_self]
  unfold hlModuleRedirectSlot
  split
  · exact absurd ‹_› htables
  · simp only [horigin]
    cases hdirect : c.direct with
    | true =>
      rw [if_pos rfl]
      split
      · next c' hjump => exact ⟨_, patchEntryJump_eq hjump, .inr ⟨hdirect, .inl (hself _)⟩⟩
      · split
        · next c' hjump => exact ⟨_, patchEntryJump_eq hjump, .inr ⟨hdirect, .inr (hself _)⟩⟩
        · exact ⟨_, rfl, .inl (hself _)⟩
    | false =>
      rw [if_neg (by decide)]
      split
      · exact ⟨_, rfl, .inl (hself _)⟩
      · next hfirst =>
        exact ⟨c.instrs origin, hkeep.symm, .inl ((hself _).trans (hleads hdirect hfirst))⟩

end Redirect

/-! ### The entries of a module are in place -/

/-- The entries of a slot: the table has its stub, which goes through its target, and the original
entry is as it was compiled or leads to the target. -/
structure Linked (s : CodeMem × HlModule) (slot origin target : Nat) : Prop where
  target_eq : patchTarget s.2 slot = some target
  origin_eq : patchOrigin s.2 slot = some origin
  called : functionEntry s.2 slot = some (s.1.stub slot)
  stub : s.1.instrs (s.1.stub slot) = .through (.target slot)
  entry : target = origin ∧ (s.1.instrs origin).IsCode ∨ Leads s.1 slot origin target

structure Installed (s : CodeMem × HlModule) : Prop where
  tables : s.2.patchTargets ≠ none
  origins : ∀ {slot slot' a : Nat}, patchOrigin s.2 slot = some a → patchOrigin s.2 slot' = some a →
    slot = slot'
  stubs : ∀ {slot a : Nat}, patchOrigin s.2 slot = some a → ∀ slot', a ≠ s.1.stub slot'
  linked : ∀ {slot origin : Nat}, patchOrigin s.2 slot = some origin → ∃ t, Linked s slot origin t

def redirectOne (s : CodeMem × HlModule) (slot code : Nat) : CodeMem × HlModule :=
  hlModuleRedirectSlot s.1 s.2 slot code

section Installed

variable {s : CodeMem × HlModule} (h : Installed s) (slot code : Nat)
include h

theorem Installed.redirect_cases :
    (redirectOne s slot code).2 = redirectSlot s.2 slot code ∧
      ((patchOrigin s.2 slot = none ∧ (redirectOne s slot code).1 = s.1) ∨
        ∃ origin i, patchOrigin s.2 slot = some origin ∧ (redirectOne s slot code).1 = s.1.write origin i ∧
          Leads (s.1.write origin i) slot origin code) := by
  refine ⟨redirect_module s.1 s.2 slot code, ?_⟩
  cases horigin : patchOrigin s.2 slot with
  | none => exact .inl ⟨rfl, redirect_added h.tables horigin⟩
  | some origin =>
    obtain ⟨t, hlinked⟩ := h.linked horigin
    have hthrough : s.1.direct = false → patchTarget s.2 slot ≠ some origin →
        s.1.instrs origin = .through (.target slot) := by
      intro hdirect hne
      rcases hlinked.entry with ⟨rfl, -⟩ | hthrough | ⟨hdirect', -⟩
      · exact absurd hlinked.target_eq hne
      · exact hthrough
      · rw [hdirect] at hdirect'
        cases hdirect'
    obtain ⟨i, heq, hleads⟩ : ∃ i, (hlModuleRedirectSlot s.1 s.2 slot code).1 = _ ∧ _ :=
      redirect_entry h.tables horigin hthrough
    exact .inr ⟨origin, i, rfl, heq, hleads⟩

theorem Installed.redirect_linked_self {t : Nat} (hlinked : Linked s slot origin t) :
    Linked (redirectOne s slot code) slot origin code := by
  obtain ⟨hmodule, ⟨hnone, -⟩ | ⟨origin', i, horigin, hcode, hleads⟩⟩ := h.redirect_cases slot code
  · rw [hlinked.origin_eq] at hnone
    cases hnone
  · obtain rfl : origin = origin' := Option.some.inj (hlinked.origin_eq.symm.trans horigin)
    rw [← hcode] at hleads
    have hstub : (redirectOne s slot code).1.stub slot = s.1.stub slot := by rw [hcode]; rfl
    refine ⟨?_, ?_, ?_, ?_, .inr hleads⟩
    · rw [hmodule]
      exact patchTarget_redirectSlot_self hlinked.target_eq
    · rw [hmodule, patchOrigin_redirectSlot]
      exact horigin
    · rw [hmodule, functionEntry_redirectSlot h.tables, hstub]
      exact hlinked.called
    · rw [hstub, hcode]
      exact (Function.update_of_ne (Ne.symm (h.stubs horigin slot)) ..).trans hlinked.stub

theorem Installed.redirect_linked_ne {slot' t : Nat} (hlinked : Linked s slot' origin t) (hne : slot' ≠ slot) :
    Linked (redirectOne s slot code) slot' origin t := by
  obtain ⟨hmodule, hcases⟩ := h.redirect_cases slot code
  have htarget : patchTarget (redirectOne s slot code).2 slot' = some t := by
    rw [hmodule, patchTarget_redirectSlot_ne hne]
    exact hlinked.target_eq
  have horigin : patchOrigin (redirectOne s slot code).2 slot' = some origin := by
    rw [hmodule, patchOrigin_redirectSlot]
    exact hlinked.origin_eq
  have hcalled : functionEntry (redirectOne s slot code).2 slot' = some (s.1.stub slot') := by
    rw [hmodule, functionEntry_redirectSlot h.tables]
    exact hlinked.called
  rcases hcases with ⟨-, hcode⟩ | ⟨origin', i, horigin', hcode, -⟩
  · rw [← hcode] at hcalled
    exact ⟨htarget, horigin, hcalled, hcode ▸ hlinked.stub, hcode ▸ hlinked.entry⟩
  · have hentry : (redirectOne s slot code).1.instrs origin = s.1.instrs origin := by
      rw [hcode]
      refine Function.update_of_ne ?_ ..
      rintro rfl
      exact hne (h.origins hlinked.origin_eq horigin')
    have hstub : (redirectOne s slot code).1.instrs (s.1.stub slot') = s.1.instrs (s.1.stub slot') := by
      rw [hcode]
      exact Function.update_of_ne (Ne.symm (h.stubs horigin' slot')) ..
    have hsame : (redirectOne s slot code).1.stub = s.1.stub ∧ (redirectOne s slot code).1.direct = s.1.direct := by
      rw [hcode]
      exact ⟨rfl, rfl⟩
    refine ⟨htarget, horigin, ?_, ?_, ?_⟩
    · rw [hsame.1]
      exact hcalled
    · rw [hsame.1, hstub]
      exact hlinked.stub
    · unfold Leads
      rw [hentry, hsame.1, hsame.2]
      exact hlinked.entry

theorem Installed.redirect : Installed (redirectOne s slot code) := by
  obtain ⟨hmodule, hcases⟩ := h.redirect_cases slot code
  have horigin : ∀ slot', patchOrigin (redirectOne s slot code).2 slot' = patchOrigin s.2 slot' := by
    intro slot'
    rw [hmodule]
    exact patchOrigin_redirectSlot s.2 slot code slot'
  have hstub : (redirectOne s slot code).1.stub = s.1.stub := by
    rcases hcases with ⟨-, hcode⟩ | ⟨origin', i, -, hcode, -⟩
    · rw [hcode]
    · rw [hcode]
      rfl
  constructor
  case tables =>
    rw [hmodule]
    exact redirectSlot_tables h.tables
  case origins =>
    intro slot₁ slot₂ a h₁ h₂
    rw [horigin] at h₁ h₂
    exact h.origins h₁ h₂
  case stubs =>
    intro slot₁ a h₁ slot₂
    rw [horigin] at h₁
    rw [hstub]
    exact h.stubs h₁ slot₂
  case linked =>
    intro slot₁ origin h₁
    rw [horigin] at h₁
    obtain ⟨t, hlinked⟩ := h.linked h₁
    by_cases hne : slot₁ = slot
    · subst hne
      exact ⟨code, h.redirect_linked_self slot₁ code hlinked⟩
    · exact ⟨t, h.redirect_linked_ne slot code hlinked hne⟩

end Installed

def redirectAll (code : Nat → Nat) (slots : List Nat) (s : CodeMem × HlModule) : CodeMem × HlModule :=
  slots.foldl (fun s slot => redirectOne s slot (code slot)) s

/-- The addresses a function of a slot is called at. -/
def IsEntry (s : CodeMem × HlModule) (slot a : Nat) : Prop :=
  functionEntry s.2 slot = some a ∨ a = s.1.stub slot ∨ patchOrigin s.2 slot = some a

/-- What the compiler and the loader leave of a patchable module: functions with slots of their own,
each compiled to an entry of its own, none of them among the stubs. -/
structure Compiled (c : CodeMem) (m : HlModule) : Prop where
  base : m.npatchfunctions = 0
  slots : (m.functions.map fun f => f.findex.toNat).Nodup
  room : ∀ f ∈ m.functions, f.findex.toNat < moduleSlotCapacity m
  table : m.functionsPtrs.length = moduleSlotCapacity m
  entries : ∀ f ∈ m.functions, ∃ a, functionEntry m f.findex.toNat = some a ∧
    (c.instrs a).IsCode ∧ ∀ slot, a ≠ c.stub slot
  apart : ∀ f ∈ m.functions, ∀ g ∈ m.functions,
    functionEntry m f.findex.toNat = functionEntry m g.findex.toNat → f.findex.toNat = g.findex.toNat

theorem CodeMem.stub_inj (c : CodeMem) {slot slot' : Nat} (h : c.stub slot = c.stub slot') :
    slot = slot' := by
  unfold CodeMem.stub at h
  exact Nat.eq_of_mul_eq_mul_right c.strided (by omega)

/-- The slots that are done have their stub, with the entry they had before behind it, and the other
slots have no original entry. -/
structure Ready (s₀ s : CodeMem × HlModule) (done : List Nat) : Prop where
  mem : s.1.stub = s₀.1.stub ∧ s.1.direct = s₀.1.direct ∧ s.2.functions = s₀.2.functions ∧
    s.2.npatchfunctions = s₀.2.npatchfunctions
  sized : ∃ targets origins, s.2.patchTargets = some targets ∧ s.2.patchOrigin = some origins ∧
    targets.length = s.2.functionsPtrs.length ∧ origins.length = s.2.functionsPtrs.length ∧
    s.2.functionsPtrs.length = s₀.2.functionsPtrs.length
  others : ∀ slot ∉ done, patchOrigin s.2 slot = none
  installed : ∀ slot ∈ done, functionEntry s.2 slot = some (s.1.stub slot) ∧
    s.1.instrs (s.1.stub slot) = .through (.target slot) ∧
    patchTarget s.2 slot = functionEntry s₀.2 slot ∧ patchOrigin s.2 slot = functionEntry s₀.2 slot
  outside : ∀ a, (∀ slot, a ≠ s₀.1.stub slot) → s.1.instrs a = s₀.1.instrs a

/-- The module while its functions are put behind their stubs. -/
structure Installing (s₀ s : CodeMem × HlModule) (done : List Nat) : Prop extends Ready s₀ s done where
  pending : ∀ slot ∉ done, functionEntry s.2 slot = functionEntry s₀.2 slot

theorem getD_set {α : Type} (l : List (Option α)) {i : Nat} (hi : i < l.length) (x : Option α) (j : Nat) :
    (l.set i x).getD j none = if j = i then x else l.getD j none := by
  rw [List.getD_eq_getElem?_getD, List.getElem?_set, List.getD_eq_getElem?_getD]
  by_cases hij : j = i
  · subst hij
    simp [hi]
  · rw [if_neg (Ne.symm hij), if_neg hij]

section Install

variable {s : CodeMem × HlModule} {f : HlFunction}

theorem giveStub_entry {slot : Nat} (hroom : slot < s.2.functionsPtrs.length) (x : Nat) :
    functionEntry (giveStub s slot).2 x =
      if x = slot then some (s.1.stub slot) else functionEntry s.2 x :=
  getD_set s.2.functionsPtrs hroom _ x

theorem giveStub_stub (s : CodeMem × HlModule) (slot x : Nat) :
    (giveStub s slot).1.instrs (s.1.stub x) =
      if x = slot then .through (.target slot) else s.1.instrs (s.1.stub x) := by
  by_cases hx : x = slot
  · subst hx
    rw [if_pos rfl]
    exact Function.update_self ..
  · rw [if_neg hx]
    exact Function.update_of_ne (fun heq => hx (s.1.stub_inj heq)) ..

theorem install_target {targets : List (Option Nat)} (htargets : s.2.patchTargets = some targets)
    (hroom : f.findex.toNat < targets.length) (x : Nat) :
    patchTarget (installFunction s f).2 x =
      if x = f.findex.toNat then functionEntry s.2 f.findex.toNat else patchTarget s.2 x := by
  unfold patchTarget installFunction giveStub
  simp only [htargets, Option.map_some, Option.bind_some]
  exact getD_set targets hroom _ x

theorem install_origin {origins : List (Option Nat)} (horigins : s.2.patchOrigin = some origins)
    (hroom : f.findex.toNat < origins.length) (x : Nat) :
    patchOrigin (installFunction s f).2 x =
      if x = f.findex.toNat then functionEntry s.2 f.findex.toNat else patchOrigin s.2 x := by
  unfold patchOrigin installFunction giveStub
  simp only [horigins, Option.map_some, Option.bind_some]
  exact getD_set origins hroom _ x

end Install

variable {s : CodeMem × HlModule} {done : List Nat}

theorem Installing.step (h : Installing s₀ s done) {f : HlFunction}
    (hroom : f.findex.toNat < s₀.2.functionsPtrs.length) (hnew : f.findex.toNat ∉ done) :
    Installing s₀ (installFunction s f) (f.findex.toNat :: done) := by
  obtain ⟨targets, origins, htargets, horigins, htlen, holen, hlen⟩ := h.sized
  have hroom' : f.findex.toNat < s.2.functionsPtrs.length := hlen ▸ hroom
  have hentry : ∀ x, functionEntry (installFunction s f).2 x = _ := fun x =>
    getD_set s.2.functionsPtrs hroom' (some (s.1.stub f.findex.toNat)) x
  have hstub : ∀ x, (installFunction s f).1.instrs (s.1.stub x) = _ := giveStub_stub s f.findex.toNat
  have htarget := install_target htargets (htlen.symm ▸ hroom')
  have horigin := install_origin horigins (holen.symm ▸ hroom')
  refine ⟨⟨h.mem, ?_, ?_, ?_, ?_⟩, ?_⟩
  · refine ⟨targets.set f.findex.toNat (functionEntry s.2 f.findex.toNat),
      origins.set f.findex.toNat (functionEntry s.2 f.findex.toNat), ?_, ?_, ?_, ?_, ?_⟩
    · exact congrArg (Option.map _) htargets
    · exact congrArg (Option.map _) horigins
    · exact List.length_set.trans (htlen.trans List.length_set.symm)
    · exact List.length_set.trans (holen.trans List.length_set.symm)
    · exact List.length_set.trans hlen
  · intro slot hslot
    rw [List.mem_cons, not_or] at hslot
    obtain ⟨hne, hnot⟩ := hslot
    rw [horigin, if_neg hne]
    exact h.others slot hnot
  · intro slot hslot
    show functionEntry _ slot = some (s.1.stub slot) ∧ (installFunction s f).1.instrs (s.1.stub slot) = _ ∧ _
    rw [hentry, hstub, htarget, horigin]
    by_cases hx : slot = f.findex.toNat
    · rw [if_pos hx, if_pos hx, if_pos hx, if_pos hx, hx]
      exact ⟨rfl, rfl, h.pending _ hnew, h.pending _ hnew⟩
    · rw [if_neg hx, if_neg hx, if_neg hx, if_neg hx]
      exact h.installed slot ((List.mem_cons.mp hslot).resolve_left hx)
  · intro a ha
    refine (Function.update_of_ne ?_ ..).trans (h.outside a ha)
    rw [h.mem.1]
    exact ha _
  · intro slot hslot
    rw [List.mem_cons, not_or] at hslot
    obtain ⟨hne, hnot⟩ := hslot
    rw [hentry, if_neg hne]
    exact h.pending slot hnot

theorem Installing.run (h : Installing s₀ s done) {fs : List HlFunction}
    (hroom : ∀ f ∈ fs, f.findex.toNat < s₀.2.functionsPtrs.length)
    (hnodup : (fs.map fun f => f.findex.toNat).Nodup) (hnew : ∀ f ∈ fs, f.findex.toNat ∉ done) :
    ∃ done', Installing s₀ (fs.foldl installFunction s) done' ∧
      ∀ slot, slot ∈ done' ↔ slot ∈ done ∨ ∃ f ∈ fs, f.findex.toNat = slot := by
  induction fs generalizing s done with
  | nil => exact ⟨done, h, fun slot => by simp⟩
  | cons f fs ih =>
    obtain ⟨hroomf, hroom'⟩ := List.forall_mem_cons.mp hroom
    obtain ⟨hnewf, hnew'⟩ := List.forall_mem_cons.mp hnew
    obtain ⟨hfresh, hnodup'⟩ := List.nodup_cons.mp hnodup
    obtain ⟨done', hrun, hmem⟩ := ih (h.step hroomf hnewf) hroom' hnodup' (by
      intro g hg hcons
      rcases List.mem_cons.mp hcons with heq | hold
      · exact hfresh (List.mem_map.mpr ⟨g, hg, heq⟩)
      · exact hnew' g hg hold)
    refine ⟨done', hrun, fun slot => (hmem slot).trans ?_⟩
    rw [List.mem_cons, List.exists_mem_cons_iff, eq_comm]
    tauto

theorem Ready.giveStub (h : Ready s₀ s done) (slot : Nat) :
    Ready s₀ (giveStub s slot) done := by
  obtain ⟨targets, origins, htargets, horigins, htlen, holen, hlen⟩ := h.sized
  refine ⟨h.mem, ⟨targets, origins, htargets, horigins, ?_, ?_, ?_⟩, h.others, ?_, ?_⟩
  · exact htlen.trans List.length_set.symm
  · exact holen.trans List.length_set.symm
  · exact List.length_set.trans hlen
  · intro x hx
    obtain ⟨hentry, hstub, hrest⟩ := h.installed x hx
    refine ⟨?_, ?_, hrest⟩
    · show functionEntry (HotReload.giveStub s slot).2 x = some (s.1.stub x)
      by_cases hroom : slot < s.2.functionsPtrs.length
      · rw [giveStub_entry hroom]
        split
        · next heq => rw [heq]
        · exact hentry
      · have hset : s.2.functionsPtrs.set slot (some (s.1.stub slot)) = s.2.functionsPtrs :=
          List.set_eq_of_length_le (Nat.le_of_not_lt hroom)
        exact (congrArg (fun l => l.getD x none) hset).trans hentry
    · show (HotReload.giveStub s slot).1.instrs (s.1.stub x) = .through (.target x)
      rw [giveStub_stub]
      split
      · next heq => rw [heq]
      · exact hstub
  · intro a ha
    refine (Function.update_of_ne ?_ ..).trans (h.outside a ha)
    rw [h.mem.1]
    exact ha _

theorem Ready.giveStubs (h : Ready s₀ s done) (slots : List Nat) :
    Ready s₀ (slots.foldl HotReload.giveStub s) done := by
  induction slots generalizing s with
  | nil => exact h
  | cons slot slots ih => exact ih (h.giveStub slot)

def loadedFunctions (m : HlModule) : List HlFunction :=
  m.functions.take (m.functions.length - m.npatchfunctions)

/-- The module before its entries are put in place. -/
def withTables (c : CodeMem) (m : HlModule) : CodeMem × HlModule :=
  (c, { m with
    patchTargets := some (List.replicate (moduleSlotCapacity m) none)
    patchOrigin := some (List.replicate (moduleSlotCapacity m) none) })

theorem ready_init {c : CodeMem} {m : HlModule} (h : Compiled c m) :
    ∃ done, Ready (withTables c m) (moduleInitPatchEntries c m) done ∧
      ∀ slot, slot ∈ done ↔ ∃ f ∈ m.functions, f.findex.toNat = slot := by
  have hlen : (List.replicate (moduleSlotCapacity m) (none : Option Nat)).length =
      m.functionsPtrs.length := List.length_replicate.trans h.table.symm
  have hnone : ∀ slot, patchOrigin (withTables c m).2 slot = none := by
    intro slot
    show (List.replicate (moduleSlotCapacity m) (none : Option Nat)).getD slot none = none
    rw [List.getD_eq_getElem?_getD, List.getElem?_replicate]
    split <;> rfl
  have hstart : Installing (withTables c m) (withTables c m) [] :=
    { mem := ⟨rfl, rfl, rfl, rfl⟩
      sized := ⟨_, _, rfl, rfl, hlen, hlen, rfl⟩
      others := fun slot _ => hnone slot
      installed := fun slot hslot => absurd hslot List.not_mem_nil
      outside := fun _ _ => rfl
      pending := fun _ _ => rfl }
  have hroom : ∀ f ∈ m.functions, f.findex.toNat < (withTables c m).2.functionsPtrs.length :=
    fun f hf => h.table.symm ▸ h.room f hf
  obtain ⟨done, hrun, hmem⟩ := hstart.run hroom h.slots (fun f _ => List.not_mem_nil)
  refine ⟨done, hrun.toReady.giveStubs _, fun slot => (hmem slot).trans ?_⟩
  exact or_iff_right List.not_mem_nil

theorem installed_init {c : CodeMem} {m : HlModule} (h : Compiled c m) :
    Installed (moduleInitPatchEntries c m) ∧ ∀ f ∈ loadedFunctions (moduleInitPatchEntries c m).2,
        patchOrigin (moduleInitPatchEntries c m).2 f.findex.toNat ≠ none := by
  obtain ⟨done, hready, hdone⟩ := ready_init h
  generalize moduleInitPatchEntries c m = s at hready
  obtain ⟨hstub, hdirect, hfunctions, hnpatch⟩ := hready.mem
  -- a slot with an original entry is the one of a function, which was compiled to that entry
  have hfound : ∀ {slot a}, patchOrigin s.2 slot = some a → slot ∈ done ∧
      ∃ f ∈ m.functions, f.findex.toNat = slot ∧ functionEntry m f.findex.toNat = some a := by
    intro slot a horigin
    by_cases hslot : slot ∈ done
    · obtain ⟨f, hf, rfl⟩ := (hdone slot).mp hslot
      refine ⟨hslot, f, hf, rfl, ?_⟩
      exact (hready.installed _ hslot).2.2.2.symm.trans horigin
    · rw [hready.others slot hslot] at horigin
      cases horigin
  refine ⟨⟨?_, ?_, ?_, ?_⟩, ?_⟩
  · obtain ⟨targets, -, htargets, -⟩ := hready.sized
    rw [htargets]
    exact Option.some_ne_none targets
  · intro slot slot' a h₁ h₂
    obtain ⟨-, f, hf, rfl, hfa⟩ := hfound h₁
    obtain ⟨-, g, hg, rfl, hga⟩ := hfound h₂
    exact h.apart f hf g hg (hfa.trans hga.symm)
  · intro slot a h₁ slot'
    obtain ⟨-, f, hf, rfl, hfa⟩ := hfound h₁
    obtain ⟨a', ha', -, hapart⟩ := h.entries f hf
    rw [hstub]
    exact Option.some.inj (ha'.symm.trans hfa) ▸ hapart slot'
  · intro slot a h₁
    obtain ⟨hslot, f, hf, rfl, hfa⟩ := hfound h₁
    obtain ⟨hentry, hthrough, htarget, -⟩ := hready.installed _ hslot
    obtain ⟨a', ha', hcode, hapart⟩ := h.entries f hf
    obtain rfl : a' = a := Option.some.inj (ha'.symm.trans hfa)
    refine ⟨a', htarget.trans hfa, h₁, hentry, hthrough, .inl ⟨rfl, ?_⟩⟩
    rw [hready.outside a' hapart]
    exact hcode
  · intro f hf
    have hf' : f ∈ m.functions := by
      have hsub := List.mem_of_mem_take hf
      rwa [hfunctions] at hsub
    obtain ⟨a, ha, -⟩ := h.entries f hf'
    have horigin := (hready.installed _ ((hdone _).mpr ⟨f, hf', rfl⟩)).2.2.2
    rw [horigin]
    exact fun hnone => Option.some_ne_none a (ha.symm.trans hnone)

/-- What a program may have of a patchable module: its entries as they were put in place, redirected
any number of times by patches and by other generations, while the rest of the module changes and
other code is loaded and freed. -/
inductive Patched : CodeMem × HlModule → Prop where
  | init {c : CodeMem} {m : HlModule} (h : Compiled c m) : Patched (moduleInitPatchEntries c m)
  | redirect {s : CodeMem × HlModule} (h : Patched s) (slot code : Nat) :
      Patched (redirectOne s slot code)
  | module {s : CodeMem × HlModule} {m' : HlModule} (h : Patched s)
      (hptrs : m'.functionsPtrs = s.2.functionsPtrs) (htargets : m'.patchTargets = s.2.patchTargets)
      (horigin : m'.patchOrigin = s.2.patchOrigin)
      (hloaded : loadedFunctions m' = loadedFunctions s.2) : Patched (s.1, m')
  | code {s : CodeMem × HlModule} (h : Patched s) (instrs : Nat → Instr)
      (hkeep : ∀ slot a, patchOrigin s.2 slot ≠ none → IsEntry s slot a → instrs a = s.1.instrs a) :
      Patched ({ s.1 with instrs }, s.2)

theorem Patched.installed (h : Patched s) :
    Installed s ∧ ∀ f ∈ loadedFunctions s.2, patchOrigin s.2 f.findex.toNat ≠ none := by
  induction h with
  | init h => exact installed_init h
  | @redirect s h slot code ih =>
    refine ⟨ih.1.redirect slot code, ?_⟩
    rw [(ih.1.redirect_cases slot code).1]
    have hloaded : loadedFunctions (redirectSlot s.2 slot code) = loadedFunctions s.2 := by
      unfold redirectSlot
      split <;> rfl
    intro f hf
    rw [patchOrigin_redirectSlot]
    exact ih.2 f (hloaded ▸ hf)
  | @module s m' h hptrs htargets horigin hloaded ih =>
    have htarget : ∀ slot, patchTarget m' slot = patchTarget s.2 slot := fun slot => by
      unfold patchTarget
      rw [htargets]
    have horigin' : ∀ slot, HotReload.patchOrigin m' slot = patchOrigin s.2 slot := fun slot => by
      unfold patchOrigin
      rw [horigin]
    have hentry : ∀ slot, functionEntry m' slot = functionEntry s.2 slot := fun slot => by
      unfold functionEntry
      rw [hptrs]
    obtain ⟨hinst, hfunctions⟩ := ih
    refine ⟨⟨?_, ?_, ?_, ?_⟩, ?_⟩
    · exact htargets ▸ hinst.tables
    · intro slot slot' a h₁ h₂
      rw [horigin'] at h₁ h₂
      exact hinst.origins h₁ h₂
    · intro slot a h₁
      rw [horigin'] at h₁
      exact hinst.stubs h₁
    · intro slot origin h₁
      rw [horigin'] at h₁
      obtain ⟨t, hlinked⟩ := hinst.linked h₁
      exact ⟨t, (htarget slot).trans hlinked.target_eq, (horigin' slot).trans h₁,
        (hentry slot).trans hlinked.called, hlinked.stub, hlinked.entry⟩
    · intro f hf
      rw [horigin']
      exact hfunctions f (hloaded ▸ hf)
  | @code s h instrs hkeep ih =>
    obtain ⟨hinst, hfunctions⟩ := ih
    refine ⟨⟨hinst.tables, hinst.origins, hinst.stubs, ?_⟩, hfunctions⟩
    intro slot origin h₁
    obtain ⟨t, hlinked⟩ := hinst.linked h₁
    have hsome : patchOrigin s.2 slot ≠ none := by
      rw [hlinked.origin_eq]
      exact Option.some_ne_none origin
    have hstub := hkeep slot (s.1.stub slot) hsome (.inr (.inl rfl))
    have hentry := hkeep slot origin hsome (.inr (.inr hlinked.origin_eq))
    refine ⟨t, hlinked.target_eq, hlinked.origin_eq, hlinked.called, hstub.trans hlinked.stub, ?_⟩
    unfold Leads
    show t = origin ∧ (instrs origin).IsCode ∨ instrs origin = _ ∨ _ ∧ (instrs origin = _ ∨ instrs origin = _)
    rw [hentry]
    exact hlinked.entry

theorem redirectAll_same (h : Installed s) (code : Nat → Nat) (slots : List Nat) :
    (redirectAll code slots s).1.stub = s.1.stub ∧
      ∀ slot, functionEntry (redirectAll code slots s).2 slot = functionEntry s.2 slot := by
  induction slots generalizing s with
  | nil => exact ⟨rfl, fun _ => rfl⟩
  | cons slot slots ih =>
    obtain ⟨hstub, hentry⟩ := ih (h.redirect slot (code slot))
    obtain ⟨hmodule, hcases⟩ := h.redirect_cases slot (code slot)
    refine ⟨hstub.trans ?_, fun x => (hentry x).trans ?_⟩
    · rcases hcases with ⟨-, hcode⟩ | ⟨origin', i, -, hcode, -⟩
      · rw [hcode]
      · rw [hcode]
        rfl
    · rw [hmodule]
      exact functionEntry_redirectSlot h.tables x

theorem Linked.reaches {slot t a : Nat} (h : Linked s slot origin t) (ha : IsEntry s slot a) :
    Reaches s a t := by
  have hthrough : ∀ {a}, s.1.instrs a = .through (.target slot) → Reaches s a t := fun hinstr => by
    refine .single ?_
    unfold nextEntry
    rw [hinstr]
    exact h.target_eq
  have hjump : ∀ {a b}, s.1.instrs a = .jump b → Reaches s b t → Reaches s a t := fun hinstr hb => by
    refine .head ?_ hb
    unfold nextEntry
    rw [hinstr]
  rcases ha with hcalled | rfl | horigin
  · cases h.called.symm.trans hcalled
    exact hthrough h.stub
  · exact hthrough h.stub
  · cases h.origin_eq.symm.trans horigin
    rcases h.entry with ⟨rfl, -⟩ | hlead | ⟨-, hlead | hlead⟩
    · exact .refl
    · exact hthrough hlead
    · exact hjump hlead .refl
    · exact hjump hlead (hthrough h.stub)

def demoCode : CodeMem where
  direct := true
  stubs := 4096
  stride := 16
  strided := by decide
  instrs a := if a = 64 then .nop else .body

theorem demo_compiled : Compiled demoCode (castModule (some 64)) where
  base := rfl
  slots := by decide
  room := by decide
  table := rfl
  entries f hf := by
    rw [List.mem_singleton.mp hf]
    refine ⟨64, rfl, trivial, fun slot => ?_⟩
    have hstub : demoCode.stub slot = 4096 + slot * 16 := rfl
    omega
  apart f hf g hg _ := by rw [List.mem_singleton.mp hf, List.mem_singleton.mp hg]

end HashLink.HotReload
