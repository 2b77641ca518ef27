import HashLink.Patch.Apply

/-!
The code allocations of a patched module, in `hlpatch.c`: who owns each function slot, the reference
counts, the live table and the retired list. A patch brings one allocation and takes over the slots of
its functions; an allocation that has no slot left is freed, or retired while something may still
reach it. The module is the one of `hlModuleApplyPatch`.
-/

namespace HashLink

/-- `hl_patch_code`. An allocation is known by its number, in the order of their making. -/
structure HlPatchCode where
  code : Nat
  references : Int
  listed : Bool
  deriving DecidableEq, Repr, Inhabited

/-- `hl_patch_live`, with the room of its buffer. The lists before it, which readers may still hold,
are left out. -/
structure HlPatchLive where
  capacity : Nat
  entries : List Nat
  deriving DecidableEq, Repr

/-- A call of `patch_code_free`: the allocation, its references and whether the live table had it. -/
structure FreedCode where
  allocation : Nat
  references : Int
  live : Bool
  deriving DecidableEq, Repr

/-- `patch_owners`, `patch_live` and `retired_patch_code`, with all allocations made so far and the
calls of `patch_code_free`. -/
structure PatchCodes where
  owners : List (Option Nat)
  codes : List HlPatchCode
  live : Option HlPatchLive
  retired : List Nat
  freed : List FreedCode
  deriving DecidableEq, Repr

def PatchCodes.entries (s : PatchCodes) : List Nat :=
  match s.live with
  | none => []
  | some live => live.entries

def PatchCodes.code (s : PatchCodes) (a : Nat) : HlPatchCode := s.codes.getD a default

def patchCodeFree (s : PatchCodes) (a : Nat) : PatchCodes :=
  { s with freed := s.freed ++ [⟨a, (s.code a).references, a ∈ s.entries⟩] }

def PatchCodes.addReferences (s : PatchCodes) (a : Nat) (n : Int) : PatchCodes :=
  { s with codes := s.codes.modify a fun c => { c with references := c.references + n } }

/-- One turn of the loop that gives the slots to the new allocation, with the list of superseded
allocations. -/
def takeSlot (targets : Bool) (a : Nat) (st : PatchCodes × List Nat) (slot : Nat) :
    PatchCodes × List Nat :=
  let (s, superseded) := st
  let old := s.owners.getD slot none
  let s := { s with owners := s.owners.set slot (some a) }.addReferences a 1
  match old with
  | none => (s, superseded)
  | some o =>
    let s := s.addReferences o (-1)
    if (s.code o).references = 0 then
      if targets then (s, o :: superseded) else ({ s with retired := o :: s.retired }, superseded)
    else (s, superseded)

/-- The first loop of `patch_live_publish`. -/
def markListed (codes : List HlPatchCode) : List (Option Nat) → List HlPatchCode
  | [] => codes
  | none :: owners => markListed codes owners
  | some a :: owners => markListed (codes.modify a fun c => { c with listed := true }) owners

def collectListed (codes : List HlPatchCode) (entries : List Nat) :
    List (Option Nat) → List HlPatchCode × List Nat
  | [] => (codes, entries)
  | none :: owners => collectListed codes entries owners
  | some a :: owners =>
    if (codes.getD a default).listed then
      collectListed (codes.modify a fun c => { c with listed := false }) (entries ++ [a]) owners
    else collectListed codes entries owners

def byCode (codes : List HlPatchCode) (a b : Nat) : Bool :=
  (codes.getD a default).code ≤ (codes.getD b default).code

/-- `patch_live_publish`, into a buffer with room for `capacity` entries. -/
def patchLivePublish (slots capacity : Nat) (s : PatchCodes) : PatchCodes :=
  let owners := s.owners.take slots
  let (codes, entries) := collectListed (markListed s.codes owners) [] owners
  { s with codes := codes, live := some ⟨capacity, entries.mergeSort (byCode codes)⟩ }

def dropSuperseded (held : Nat → Bool) (s : PatchCodes) (a : Nat) : PatchCodes :=
  if held a then { s with retired := a :: s.retired } else patchCodeFree s a

def PatchCodes.allocate (s : PatchCodes) (code : Nat) : PatchCodes :=
  { s with codes := s.codes ++ [⟨code, 0, false⟩] }

/-- What the commit of a patch does to the allocations. `patch_live_alloc` makes room for one entry
more than the live table has, and the struct has one of its own. -/
def commitCodes (targets : Bool) (held : Nat → Bool) (code slots : Nat) (functions : List Nat)
    (s : PatchCodes) : PatchCodes :=
  let a := s.codes.length
  let capacity := s.entries.length + 1 + 1
  let (s, superseded) := functions.foldl (takeSlot targets a) (s.allocate code, [])
  superseded.foldl (dropSuperseded held) (patchLivePublish slots capacity s)

/-- The inputs of one application: `held` are the allocations that a reader or a stopped thread holds
by then, and `allocated` is whether a failure comes after the patch's own allocation. -/
structure Application where
  env : PatchEnv
  patch : HlPatch
  held : Nat → Bool
  allocated : Bool

structure PatchedModule where
  module : HlModule
  codes : PatchCodes

/-- `hl_module_apply_patch` with the allocations. -/
def PatchedModule.apply (p : PatchedModule) (a : Application) : PatchedModule :=
  match hlModuleApplyPatch a.env p.module a.patch with
  | (m, some _) =>
    ⟨m, if a.allocated then
        patchCodeFree (p.codes.allocate (a.env.jitPatchCode.getD 0)) p.codes.codes.length
      else p.codes⟩
  | (m, none) =>
    ⟨m, commitCodes p.module.patchTargets.isSome a.held (a.env.jitPatchCode.getD 0) m.slotCount
      (a.patch.functions.map fun f => f.findex.toNat) p.codes⟩

/-- One turn of the loop of `hl_module_patch_release_all`. -/
def releaseSlot (s : PatchCodes) (slot : Nat) : PatchCodes :=
  match s.owners.getD slot none with
  | none => s
  | some o =>
    let s := { s with owners := s.owners.set slot none }.addReferences o (-1)
    if (s.code o).references = 0 then patchCodeFree s o else s

def hlModulePatchReleaseAll (slots : Nat) (s : PatchCodes) : PatchCodes :=
  let s := (List.range slots).foldl releaseSlot { s with live := none }
  { s.retired.foldl patchCodeFree s with retired := [] }

/-- A module as it is loaded: the owners are a zeroed table of `module_slot_capacity` entries. -/
def PatchedModule.load (m : HlModule) : PatchedModule where
  module := m
  codes :=
    { owners := List.replicate (m.functionsCapacity + m.natives.length) none
      codes := []
      live := none
      retired := []
      freed := [] }

end HashLink
