import HashLink.Gc.LiveClosures
import HashLink.HotReload.Slots
import HashLink.Lib.LittleEndian

/-!
The guards of a patch: functions that it leaves behind, which no closure may enter. The check looks for
closures among the blocks of the heap and among the closures that the code made when it was loaded. A
closure has its code from the table of functions, from code that was loaded, or from another closure, so
that its code is an entry of a slot, and the check knows all entries of a slot. What it does not look at
are the closures that a class binds to its fields, which are in the memory of the module.

The closures of a module over its history: those its code made when it was loaded, those that code of any
revision makes, copies of others, and those that classes bind to their fields. Patches redirect slots to
code of their own. A check that passes leaves no closure of a guarded function, except for the closures
that classes bind: their memory is the module's, and no list has them.
-/

namespace HashLink

open HotReload Gc

/-- An address is listed once, and null is not. -/
def addCandidate (out : List Nat) : Option Nat → List Nat
  | none => out
  | some a => if a ∈ out then out else out ++ [a]

def patchSlotEntries (s : CodeMem × HlModule) (slot : Nat) : List Nat :=
  [functionEntry s.2 slot, patchOrigin s.2 slot, some (s.1.stub slot), patchTarget s.2 slot].foldl addCandidate []

/-- The code addresses of the guarded functions, each with its guard: `entries` and `owners`. -/
def guardEntries (s : CodeMem × HlModule) (guards : List Nat) : List (Nat × Nat) :=
  guards.zipIdx.flatMap fun guard => (patchSlotEntries s guard.1).map fun a => (a, guard.2)

def ownerOf (entries : List (Nat × Nat)) (fn : Nat) : Option Nat :=
  (entries.find? fun entry => entry.1 = fn).map Prod.snd

def namedGlobals (m : HlModule) (indexes : List Int) : List Nat :=
  indexes.filterMap fun (index : Int) =>
    if index < 0 ∨ m.nglobals ≤ index then none
    else (LittleEndian.read m.globalsData (m.globalsIndexes.getD index.toNat 0).toNat 8)

/-- How far the check is: the heap, the guard it reports, and the closures it counted and named. -/
structure GuardState where
  heap : PinnedHeap
  refused : Option Nat
  held : Nat
  named : Nat

/-- What `check_patch_guards` says; a refusal has the guard and the number of closures. -/
inductive GuardVerdict where
  | passed
  | refused (guard held : Nat)
  | outOfMemory
  deriving DecidableEq, Repr

def GuardState.count (st : GuardState) (owner : Nat) : GuardState :=
  { st with refused := some owner, held := st.held + 1, named := min 3 (st.named + 1) }

section Check

variable (precise : List Nat → List Nat)

/-- Whether `patch_holder_path` has a path. The text of the path, and the scans for it, are left out. -/
def patchHolderPath (names : List Nat) (value : Nat) (env : ScanEnv) (s : PinnedHeap) :
    Option (PinnedHeap × Bool) :=
  (PinnedHeap.hlGcFindReferrer precise value none env s).map fun r => (r.1, r.2.isSome || value ∈ names)

def foundStep (entries : List (Nat × Nat)) (names : List Nat) (env : Nat → ScanEnv) (st : GuardState)
    (found : BlockRef × Nat) : Option GuardState :=
  match ownerOf entries (st.heap.heap.word found.1 1) with
  | none => some st
  | some owner =>
    if st.refused.getD owner ≠ owner then some st
    else if st.named < 3 then
      (patchHolderPath precise names (st.heap.heap.address found.1) (env found.2) st.heap).map fun r =>
        { st with heap := r.1 }.count owner
    else some (st.count owner)

/-- A closure that the code made when it was loaded, by its address and its code. -/
def staticStep (entries : List (Nat × Nat)) (names : List Nat) (env : Nat → ScanEnv) (st : GuardState)
    (closure : (Nat × Nat) × Nat) : Option GuardState :=
  match ownerOf entries closure.1.2 with
  | none => some st
  | some owner =>
    if st.refused.getD owner ≠ owner then some st
    else
      (patchHolderPath precise names closure.1.1 (env closure.2) st.heap).map fun r =>
        if r.2 = false ∧ r.1.hlGcRootHolder closure.1.1 = .nowhere then { st with heap := r.1 }
        else { st with heap := r.1 }.count owner

/-- `check_patch_guards`, none when a mark does not end. `statics` is `m->static_closures`, `types`
the range of the types of the module, and `memory` says that there is memory for the entries. -/
def checkPatchGuards (types : Nat × Nat) (isFun : Nat → Bool) (memory : Bool) (env : Nat → ScanEnv)
    (s : CodeMem × HlModule) (statics : List (Nat × Nat)) (guards : List Nat) (names : List Int)
    (heap : PinnedHeap) : Option (GuardVerdict × PinnedHeap) :=
  let entries := guardEntries s guards
  let words := namedGlobals s.2 names
  if ¬memory then some (.outOfMemory, heap)
  else
    match PinnedHeap.hlGcLiveClosures precise ⟨entries.map Prod.fst, types.1, types.2, isFun⟩ (env 0) heap with
    | none => none
    | some (heap, none) => some (.outOfMemory, heap)
    | some (heap, some found) =>
      match (found.zipIdx 1).foldlM (foundStep precise entries words env) ⟨heap, none, 0, 0⟩ with
      | none => none
      | some st =>
        let st := { st with heap := PinnedHeap.hlGcLiveInstancesRelease (env 0).values st.heap }
        match (statics.zipIdx (found.length + 1)).foldlM (staticStep precise entries words env) st with
        | none => none
        | some st =>
          match st.refused with
          | none => some (.passed, st.heap)
          | some guard => some (.refused guard st.held, st.heap)

end Check

theorem mem_addCandidate {out : List Nat} {c : Option Nat} {a : Nat} (h : a ∈ out ∨ c = some a) :
    a ∈ addCandidate out c := by
  cases c with
  | none => exact h.resolve_right (by simp)
  | some a' =>
    show a ∈ if a' ∈ out then out else out ++ [a']
    split
    · next hmem =>
      rcases h with h | h
      · exact h
      · cases h
        exact hmem
    · rcases h with h | h
      · exact List.mem_append_left _ h
      · cases h
        exact List.mem_append_right _ (List.mem_singleton_self a)

theorem mem_foldl_addCandidate {candidates : List (Option Nat)} {a : Nat} {out : List Nat}
    (h : a ∈ out ∨ some a ∈ candidates) : a ∈ candidates.foldl addCandidate out := by
  induction candidates generalizing out with
  | nil => exact h.resolve_right (by simp)
  | cons c candidates ih =>
    rw [List.foldl_cons]
    rcases h with h | h
    · exact ih (.inl (mem_addCandidate (.inl h)))
    · rcases List.mem_cons.mp h with h | h
      · exact ih (.inl (mem_addCandidate (.inr h.symm)))
      · exact ih (.inr h)

theorem mem_patchSlotEntries {s : CodeMem × HlModule} {slot a : Nat} (h : IsEntry s slot a) :
    a ∈ patchSlotEntries s slot := by
  apply mem_foldl_addCandidate
  right
  rcases h with h | rfl | h
  · rw [h]
    exact List.mem_cons_self
  · exact List.mem_cons_of_mem _ (List.mem_cons_of_mem _ List.mem_cons_self)
  · rw [h]
    exact List.mem_cons_of_mem _ List.mem_cons_self

theorem ownerOf_entry {s : CodeMem × HlModule} {guards : List Nat} {g a : Nat} (hg : g ∈ guards)
    (ha : IsEntry s g a) :
    a ∈ (guardEntries s guards).map Prod.fst ∧ (ownerOf (guardEntries s guards) a).isSome = true := by
  obtain ⟨i, hi⟩ := List.getElem?_of_mem hg
  have hguard : (g, i) ∈ guards.zipIdx := List.mem_zipIdx_iff_getElem?.mpr hi
  have hmem : (a, i) ∈ guardEntries s guards :=
    List.mem_flatMap.mpr ⟨(g, i), hguard, List.mem_map_of_mem (mem_patchSlotEntries ha)⟩
  refine ⟨List.mem_map_of_mem hmem, ?_⟩
  unfold ownerOf
  rw [Option.isSome_map, List.find?_isSome]
  exact ⟨(a, i), hmem, decide_eq_true rfl⟩

variable {s : PinnedHeap}

section Passed

variable {precise : List Nat → List Nat} {entries : List (Nat × Nat)} {words : List Nat}
  {env : Nat → ScanEnv} {st st' : GuardState}

theorem foundStep_refused {found : BlockRef × Nat}
    (h : foundStep precise entries words env st found = some st') (hpassed : st'.refused = none) :
    st' = st ∧ ownerOf entries (st.heap.heap.word found.1 1) = none := by
  unfold foundStep at h
  split at h
  · next hnone =>
    cases h
    exact ⟨rfl, hnone⟩
  · split at h
    · next owner _ hne =>
      cases h
      rw [hpassed] at hne
      exact absurd rfl hne
    · split at h
      · obtain ⟨r, -, rfl⟩ := Option.map_eq_some_iff.mp h
        cases hpassed
      · cases h
        cases hpassed

theorem found_passed {found : List (BlockRef × Nat)}
    (h : found.foldlM (foundStep precise entries words env) st = some st') (hpassed : st'.refused = none) :
    st' = st ∧ ∀ f ∈ found, ownerOf entries (st.heap.heap.word f.1 1) = none := by
  induction found generalizing st with
  | nil =>
    cases h
    exact ⟨rfl, fun _ hf => (nomatch hf)⟩
  | cons f found ih =>
    rw [List.foldlM_cons] at h
    obtain ⟨st₁, hstep, hrest⟩ := Option.bind_eq_some_iff.mp h
    obtain ⟨rfl, hfound⟩ := ih hrest
    obtain ⟨rfl, hone⟩ := foundStep_refused hstep hpassed
    exact ⟨rfl, List.forall_mem_cons.mpr ⟨hone, hfound⟩⟩

/-- What keeps a closure that is not a block: a block with pointers, a root or a frame of a thread. -/
def HeldAddress (precise : List Nat → List Nat) (s : PinnedHeap) (addr : Nat) : Prop :=
  (∃ b p i, PinnedHeap.Named precise s b ∧ s.heap.pages[b.1]? = some p ∧ p.page.pid.kind ≠ .noptr ∧
    i < p.blockBytes b.2 / 8 ∧ s.heap.word b i = addr) ∨ addr ∈ s.globals ∨ addr ∈ s.stackWords

theorem HeldAddress.follows {s' : PinnedHeap} {addr : Nat} (h : HeldAddress precise s addr)
    (hs : PinnedHeap.Follows precise s s') : HeldAddress precise s' addr := by
  rcases h with ⟨b, p, i, hb, hp, hkind, hi, hword⟩ | h | h
  · obtain ⟨p', hp', hpid, hbytes⟩ := hs.page b hb p hp
    refine .inl ⟨b, p', i, hs.named b hb, hp', ?_, ?_, (hs.word b i).trans hword⟩
    · rw [hpid]
      exact hkind
    · rw [hbytes]
      exact hi
  · exact .inr (.inl (hs.globals ▸ h))
  · exact .inr (.inr (hs.stackWords ▸ h))

theorem rootHolder_of_root {value : Nat} (h : value ∈ s.globals ∨ value ∈ s.stackWords) :
    s.hlGcRootHolder value ≠ .nowhere := by
  unfold PinnedHeap.hlGcRootHolder
  split
  · exact nofun
  · next hnot =>
    rw [if_pos (h.resolve_left hnot)]
    exact nofun

theorem patchHolderPath_follows {value : Nat} {e : ScanEnv} {r : PinnedHeap × Bool} (hheap : s.heap.Heap)
    (hlaid : s.heap.Laid) (h : patchHolderPath precise words value e s = some r) :
    PinnedHeap.Follows precise s r.1 ∧
      (HeldAddress precise s value → r.2 = true ∨ r.1.hlGcRootHolder value ≠ .nowhere) := by
  obtain ⟨r', hr', rfl⟩ := Option.map_eq_some_iff.mp h
  obtain ⟨heap, hmark, rfl⟩ := Option.map_eq_some_iff.mp hr'
  have hscan := PinnedHeap.scanned_within hheap hlaid hmark
  refine ⟨hscan.follows, ?_⟩
  rintro (⟨b, p, i, hb, hp, hkind, hi, rfl⟩ | hroot | hstack)
  · have hfound := hscan.referrer_found (hb.within e) hp hkind hi
    left
    show (_ || _) = true
    rw [Bool.or_eq_true]
    exact .inl hfound
  · exact .inr (rootHolder_of_root (.inl hroot))
  · exact .inr (rootHolder_of_root (.inr hstack))

variable {closure : (Nat × Nat) × Nat}

theorem staticStep_follows (hheap : st.heap.heap.Heap) (hlaid : st.heap.heap.Laid)
    (h : staticStep precise entries words env st closure = some st') :
    PinnedHeap.Follows precise st.heap st'.heap := by
  unfold staticStep at h
  split at h
  · cases h
    exact .refl hheap hlaid
  · split at h
    · cases h
      exact .refl hheap hlaid
    · obtain ⟨r, hr, rfl⟩ := Option.map_eq_some_iff.mp h
      have hfollows := (patchHolderPath_follows hheap hlaid hr).1
      split <;> exact hfollows

theorem staticStep_refused (h : staticStep precise entries words env st closure = some st')
    (hpassed : st'.refused = none) :
    st.refused = none := by
  unfold staticStep at h
  split at h
  · cases h
    exact hpassed
  · split at h
    · cases h
      exact hpassed
    · obtain ⟨r, -, rfl⟩ := Option.map_eq_some_iff.mp h
      split at hpassed
      · exact hpassed
      · cases hpassed

theorem statics_refused {closures : List ((Nat × Nat) × Nat)}
    (h : closures.foldlM (staticStep precise entries words env) st = some st') (hpassed : st'.refused = none) :
    st.refused = none := by
  induction closures generalizing st with
  | nil =>
    cases h
    exact hpassed
  | cons c closures ih =>
    rw [List.foldlM_cons] at h
    obtain ⟨st₁, hstep, hrest⟩ := Option.bind_eq_some_iff.mp h
    exact staticStep_refused hstep (ih hrest)

theorem staticStep_passed (hheap : st.heap.heap.Heap) (hlaid : st.heap.heap.Laid)
    (h : staticStep precise entries words env st closure = some st') (hpassed : st'.refused = none) :
    ownerOf entries closure.1.2 = none ∨ ¬HeldAddress precise st.heap closure.1.1 := by
  unfold staticStep at h
  split at h
  · next hnone => exact .inl hnone
  · split at h
    · next owner _ hne =>
      cases h
      rw [hpassed] at hne
      exact absurd rfl hne
    · obtain ⟨r, hr, heq⟩ := Option.map_eq_some_iff.mp h
      have hheld := (patchHolderPath_follows hheap hlaid hr).2
      split at heq
      · next hnot =>
        refine .inr fun hh => ?_
        rcases hheld hh with hpath | hroot
        · cases hpath.symm.trans hnot.1
        · exact hroot hnot.2
      · cases heq
        cases hpassed

theorem statics_passed {closures : List ((Nat × Nat) × Nat)} (hheap : st.heap.heap.Heap)
    (hlaid : st.heap.heap.Laid)
    (h : closures.foldlM (staticStep precise entries words env) st = some st') (hpassed : st'.refused = none) :
    ∀ c ∈ closures, ownerOf entries c.1.2 = none ∨ ¬HeldAddress precise st.heap c.1.1 := by
  induction closures generalizing st with
  | nil => exact fun _ hc => (nomatch hc)
  | cons c closures ih =>
    rw [List.foldlM_cons] at h
    obtain ⟨st₁, hstep, hrest⟩ := Option.bind_eq_some_iff.mp h
    have hfollows := staticStep_follows hheap hlaid hstep
    have hone := staticStep_passed hheap hlaid hstep (statics_refused hrest hpassed)
    refine List.forall_mem_cons.mpr ⟨hone, fun c' hc' => ?_⟩
    exact (ih hfollows.heap hfollows.laid hrest c' hc').imp_right fun hnot hheld =>
      hnot (hheld.follows hfollows)

/-- A check that passes met no closure of a guard, neither among the blocks of the heap nor among the
closures of the code that something holds. -/
theorem checkPatchGuards_passed {types : Nat × Nat} {isFun : Nat → Bool} {memory : Bool}
    {s : CodeMem × HlModule} {statics : List (Nat × Nat)} {guards : List Nat} {names : List Int}
    {heap heap' : PinnedHeap} (hheap : heap.heap.Heap) (hlaid : heap.heap.Laid)
    (h : checkPatchGuards precise types isFun memory env s statics guards names heap = some (.passed, heap')) :
    (∀ (b : BlockRef) (p : IncPage), PinnedHeap.Named precise heap b → heap.heap.pages[b.1]? = some p →
      p.page.pid.kind = .dynamic ∨ p.page.pid.kind = .noptr →
      GcInc.collectLiveClosure ⟨(guardEntries s guards).map Prod.fst, types.1, types.2, isFun⟩ heap.heap p b →
      ownerOf (guardEntries s guards) (heap.heap.word b 1) = none) ∧
    ∀ c ∈ statics, ownerOf (guardEntries s guards) c.2 = none ∨ ¬HeldAddress precise heap c.1 := by
  unfold checkPatchGuards at h
  simp only at h
  split at h
  · cases h
  · unfold PinnedHeap.hlGcLiveClosures at h
    cases hmark : PinnedHeap.gcMark precise (env 0).fuel (env 0).keep (heap.within (env 0)) with
    | none =>
      rw [hmark] at h
      cases h
    | some marked =>
      have hscan := PinnedHeap.scanned_within hheap hlaid hmark
      have hfollows := hscan.follows
      rw [hmark, Option.map_some] at h
      split at h
      · cases h
      · cases h
      · next heap₁ found heq =>
        split at heq
        · cases heq
          split at h
          · cases h
          · next st hfound =>
            split at h
            · cases h
            · next st' hstatics =>
              split at h
              · next hpassed =>
                cases h
                have hpassed' := statics_refused hstatics hpassed
                obtain ⟨rfl, hblocks⟩ := found_passed hfound hpassed'
                refine ⟨fun b p hb hp hkind hclosure => ?_, fun c hc => ?_⟩
                · obtain ⟨i, hi⟩ := List.getElem?_of_mem
                    (hscan.closure_found (hb.within (env 0)) hp hkind hclosure)
                  have hnone := hblocks (b, 1 + i) (List.mk_add_mem_zipIdx_iff_getElem?.mpr hi)
                  rw [← hfollows.word b 1]
                  exact hnone
                · obtain ⟨i, hi⟩ := List.getElem?_of_mem hc
                  have hrun : List.foldlM _ (GuardState.mk (PinnedHeap.hlGcLiveInstancesRelease (env 0).values
                      { heap.setHeap marked with pinned := (_, _) :: (heap.setHeap marked).pinned })
                      none 0 0) _ = some st' := hstatics
                  rw [PinnedHeap.release_eq] at hrun
                  have hclosures := statics_passed hfollows.heap hfollows.laid hrun hpassed
                  exact (hclosures (c, _) (List.mk_add_mem_zipIdx_iff_getElem?.mpr hi)).imp_right
                    fun hnot hheld => hnot (hheld.follows hfollows)
              · cases h
        · cases heq

end Passed

/-- A `vclosure` with its type and its code. It is a block of the heap, or memory of the module: made
for `OStaticClosure` of a function or of a native when code was loaded, or by `hl_get_obj_proto`. -/
inductive Closure where
  | alloc (b : BlockRef) (t fn : Nat) (hasValue : Bool)
  | static (addr t fn : Nat)
  | native (addr t fn : Nat)
  | binding (addr t fn : Nat)
  deriving DecidableEq, Repr

namespace Closure

def fn : Closure → Nat
  | alloc _ _ fn _ | static _ _ fn | native _ _ fn | binding _ _ fn => fn

def IsBinding : Closure → Prop
  | binding .. => True
  | _ => False

/-- What `hl_emit_final` lists. -/
def listed : Closure → Option (Nat × Nat)
  | static addr _ fn => some (addr, fn)
  | _ => none

/-- The block has what `hl_alloc_closure_ptr` or `hl_alloc_closure_void` wrote: a closure with a value
starts with its type, on a page of values, and one without is raw data. -/
def StoredAt (s : GcInc) (b : BlockRef) (t fn : Nat) (hasValue : Bool) : Prop :=
  ∃ p, s.pages[b.1]? = some p ∧ sizeofClosure ≤ p.blockBytes b.2 ∧ s.word b 0 = t ∧ s.word b 1 = fn ∧
    if hasValue then p.page.pid.kind = .dynamic
    else p.page.pid.kind = .noptr ∧ s.word b 2 % 2 ^ 32 = 0 ∧ s.word b 3 = 0

/-- A closure that a block of the heap, a global, a native root or the stack of a thread holds. -/
def Held (precise : List Nat → List Nat) (s : PinnedHeap) : Closure → Prop
  | alloc b t fn hasValue => PinnedHeap.Named precise s b ∧ StoredAt s.heap b t fn hasValue
  | static addr _ _ | native addr _ _ | binding addr _ _ => HeldAddress precise s addr

end Closure

/-- A module with the closures that were made, the newest first, and the code that patches put behind
each slot. -/
structure History where
  code : CodeMem × HlModule
  closures : List Closure
  bodies : Nat → List Nat

namespace History

/-- `m->static_closures`. -/
def statics (h : History) : List (Nat × Nat) := h.closures.filterMap Closure.listed

/-- An address that enters the function of a slot: one of its entries, or code it had in a revision. -/
def Enters (h : History) (slot a : Nat) : Prop := IsEntry h.code slot a ∨ a ∈ h.bodies slot

/-- An address that a closure may get: from the table of functions, the entry that code loaded with the
module was compiled with, or the code of another closure. -/
inductive Gives (h : History) : Nat → Prop where
  | table {slot a : Nat} (ha : functionEntry h.code.2 slot = some a) : Gives h a
  | entry {slot a : Nat} (ha : patchOrigin h.code.2 slot = some a) : Gives h a
  | copied {c : Closure} (hc : c ∈ h.closures) : Gives h c.fn

def AtLoad (natives : List Nat) (s : CodeMem × HlModule) : Closure → Prop
  | .alloc .. => False
  | .static _ _ fn => ∃ slot, patchOrigin s.2 slot = some fn
  | .native _ _ fn => ∃ slot ∈ natives, functionEntry s.2 slot = some fn
  | .binding _ _ fn => ∃ slot, functionEntry s.2 slot = some fn

/-- The histories of a module: it is loaded, closures are made, and patches are applied, in any order.
`natives` has the slots of the natives, whose code is not the module's, `types` is the range of the types
of the module, and `isFun` says that the type at an address is a function type. Code of a patch is at a
place of its own; the other steps change neither the entries of the slots nor what the tables have. -/
inductive Reachable (natives : List Nat) (types : Nat × Nat) (isFun : Nat → Bool) : History → Prop where
  | load {c : CodeMem} {m : HlModule} (hcompiled : Compiled c m) (closures : List Closure)
      (hclosures : ∀ cl ∈ closures, AtLoad natives (moduleInitPatchEntries c m) cl)
      (hnatives : ∀ slot ∈ natives, ∀ a, functionEntry (moduleInitPatchEntries c m).2 slot = some a →
        ∀ slot', slot' ∉ natives → ¬IsEntry (moduleInitPatchEntries c m) slot' a) :
      Reachable natives types isFun ⟨moduleInitPatchEntries c m, closures, fun _ => []⟩
  | closure {h : History} (hr : Reachable natives types isFun h) (b : BlockRef) (t fn : Nat) (hasValue : Bool)
      (hfn : h.Gives fn)
      (ht : if hasValue then t ≠ 0 ∧ isFun t = true else types.1 ≤ t ∧ t < types.2) :
      Reachable natives types isFun { h with closures := .alloc b t fn hasValue :: h.closures }
  | binding {h : History} (hr : Reachable natives types isFun h) (addr t slot fn : Nat)
      (hfn : functionEntry h.code.2 slot = some fn) :
      Reachable natives types isFun { h with closures := .binding addr t fn :: h.closures }
  | patch {h : History} (hr : Reachable natives types isFun h) (slot code : Nat)
      (hapart : ∀ slot', ¬IsEntry h.code slot' code) :
      Reachable natives types isFun
        { h with
          code := redirectOne h.code slot code
          bodies := Function.update h.bodies slot (code :: h.bodies slot) }
  | other {h : History} (hr : Reachable natives types isFun h) {s : CodeMem × HlModule}
      (hpatched : Patched s) (hstub : s.1.stub = h.code.1.stub)
      (hptrs : s.2.functionsPtrs = h.code.2.functionsPtrs)
      (horigin : s.2.patchOrigin = h.code.2.patchOrigin) :
      Reachable natives types isFun { h with code := s }

structure CodeOk (natives : List Nat) (types : Nat × Nat) (isFun : Nat → Bool) (h : History) (c : Closure) :
    Prop where
  given : ∃ slot, functionEntry h.code.2 slot = some c.fn ∨ patchOrigin h.code.2 slot = some c.fn
  native : ∀ addr t fn, c = .native addr t fn → ∃ slot ∈ natives, functionEntry h.code.2 slot = some fn
  type : ∀ b t fn hasValue, c = .alloc b t fn hasValue →
    if hasValue then t ≠ 0 ∧ isFun t = true else types.1 ≤ t ∧ t < types.2

structure Inv (natives : List Nat) (types : Nat × Nat) (isFun : Nat → Bool) (h : History) : Prop where
  installed : Installed h.code
  closures : ∀ c ∈ h.closures, CodeOk natives types isFun h c
  bodies : ∀ slot, ∀ a ∈ h.bodies slot, ∀ slot', ¬IsEntry h.code slot' a
  natives : ∀ slot ∈ natives, ∀ a, functionEntry h.code.2 slot = some a →
    ∀ slot', slot' ∉ natives → ¬IsEntry h.code slot' a

variable {natives : List Nat} {types : Nat × Nat} {isFun : Nat → Bool} {h : History}

theorem CodeOk.same {h' : History} {c : Closure} (hc : CodeOk natives types isFun h c)
    (hentry : functionEntry h'.code.2 = functionEntry h.code.2)
    (horigin : patchOrigin h'.code.2 = patchOrigin h.code.2) : CodeOk natives types isFun h' c := by
  refine ⟨?_, ?_, hc.type⟩
  · rw [hentry, horigin]
    exact hc.given
  · rw [hentry]
    exact hc.native

theorem isEntry_same {s s' : CodeMem × HlModule} (hentry : functionEntry s'.2 = functionEntry s.2)
    (horigin : patchOrigin s'.2 = patchOrigin s.2) (hstub : s'.1.stub = s.1.stub) (slot a : Nat) :
    IsEntry s' slot a ↔ IsEntry s slot a := by
  unfold IsEntry
  rw [hentry, horigin, hstub]

theorem Inv.same {h' : History} (hinv : h.Inv natives types isFun) (hinstalled : Installed h'.code)
    (hentry : functionEntry h'.code.2 = functionEntry h.code.2)
    (horigin : patchOrigin h'.code.2 = patchOrigin h.code.2) (hstub : h'.code.1.stub = h.code.1.stub)
    (hclosures : h'.closures = h.closures)
    (hbodies : ∀ slot, ∀ a ∈ h'.bodies slot, a ∈ h.bodies slot ∨ ∀ slot', ¬IsEntry h.code slot' a) :
    h'.Inv natives types isFun where
  installed := hinstalled
  closures c hc := (hinv.closures c (hclosures ▸ hc)).same hentry horigin
  bodies slot a ha slot' := by
    rw [isEntry_same hentry horigin hstub]
    rcases hbodies slot a ha with hold | hnew
    · exact hinv.bodies slot a hold slot'
    · exact hnew slot'
  natives slot hslot a ha slot' hslot' := by
    rw [isEntry_same hentry horigin hstub]
    exact hinv.natives slot hslot a (hentry ▸ ha) slot' hslot'

theorem Inv.add {c : Closure} (hinv : h.Inv natives types isFun) (hc : CodeOk natives types isFun h c) :
    Inv natives types isFun { h with closures := c :: h.closures } where
  installed := hinv.installed
  closures c' hc' := by
    rcases List.mem_cons.mp hc' with rfl | hc'
    · exact ⟨hc.given, hc.native, hc.type⟩
    · exact ⟨(hinv.closures c' hc').given, (hinv.closures c' hc').native, (hinv.closures c' hc').type⟩
  bodies := hinv.bodies
  natives := hinv.natives

theorem Inv.given (hinv : h.Inv natives types isFun) {fn : Nat} (hfn : h.Gives fn) :
    ∃ slot, functionEntry h.code.2 slot = some fn ∨ patchOrigin h.code.2 slot = some fn := by
  cases hfn with
  | table ha => exact ⟨_, .inl ha⟩
  | entry ha => exact ⟨_, .inr ha⟩
  | copied hc => exact (hinv.closures _ hc).given

theorem Reachable.inv (hr : Reachable natives types isFun h) : h.Inv natives types isFun := by
  induction hr with
  | @load c m hcompiled closures hclosures hnatives =>
    refine ⟨(installed_init hcompiled).1, fun cl hcl => ?_, fun _ _ ha => (nomatch ha), hnatives⟩
    have hload := hclosures cl hcl
    cases cl with
    | alloc => exact hload.elim
    | static addr t fn =>
      obtain ⟨slot, hslot⟩ := hload
      exact ⟨⟨slot, .inr hslot⟩, nofun, nofun⟩
    | native addr t fn =>
      obtain ⟨slot, hnative, hslot⟩ := hload
      refine ⟨⟨slot, .inl hslot⟩, fun _ _ _ heq => ?_, nofun⟩
      cases heq
      exact ⟨slot, hnative, hslot⟩
    | binding addr t fn =>
      obtain ⟨slot, hslot⟩ := hload
      exact ⟨⟨slot, .inl hslot⟩, nofun, nofun⟩
  | closure _ b t fn hasValue hfn ht ih =>
    refine ih.add ⟨ih.given hfn, nofun, fun _ _ _ _ heq => ?_⟩
    cases heq
    exact ht
  | binding _ addr t slot fn hfn ih => exact ih.add ⟨⟨slot, .inl hfn⟩, nofun, nofun⟩
  | @patch h _ slot code hapart ih =>
    have hmodule := redirect_module h.code.1 h.code.2 slot code
    refine ih.same (ih.installed.redirect slot code) ?_ ?_ ?_ rfl fun slot' a ha => ?_
    · funext slot'
      show functionEntry (redirectOne h.code slot code).2 slot' = _
      rw [show (redirectOne h.code slot code).2 = _ from hmodule]
      exact functionEntry_redirectSlot ih.installed.tables slot'
    · funext slot'
      show patchOrigin (redirectOne h.code slot code).2 slot' = _
      rw [show (redirectOne h.code slot code).2 = _ from hmodule]
      exact patchOrigin_redirectSlot h.code.2 slot code slot'
    · exact (redirectAll_same ih.installed (fun _ => code) [slot]).1
    · have ha : a ∈ Function.update h.bodies slot (code :: h.bodies slot) slot' := ha
      by_cases hslot : slot' = slot
      · subst hslot
        rw [Function.update_self] at ha
        rcases List.mem_cons.mp ha with rfl | ha
        · exact .inr hapart
        · exact .inl ha
      · rw [Function.update_of_ne hslot] at ha
        exact .inl ha
  | @other h _ s hpatched hstub hptrs horigin ih =>
    refine ih.same hpatched.installed.1 ?_ ?_ hstub rfl fun _ _ ha => .inl ha
    · funext slot
      unfold functionEntry
      rw [hptrs]
    · funext slot
      unfold patchOrigin
      rw [horigin]

theorem Inv.entry_of_enters (hinv : h.Inv natives types isFun) {c : Closure} (hc : c ∈ h.closures) {g : Nat}
    (hg : g ∉ natives) (henters : h.Enters g c.fn) :
    IsEntry h.code g c.fn ∧ ∀ addr t fn, c ≠ .native addr t fn := by
  have hentry : IsEntry h.code g c.fn := by
    refine henters.resolve_right fun hbody => ?_
    obtain ⟨slot, hgiven⟩ := (hinv.closures c hc).given
    rcases hgiven with hgiven | hgiven
    · exact hinv.bodies g c.fn hbody slot (.inl hgiven)
    · exact hinv.bodies g c.fn hbody slot (.inr (.inr hgiven))
  refine ⟨hentry, ?_⟩
  rintro addr t fn rfl
  obtain ⟨slot, hslot, hfn⟩ := (hinv.closures _ hc).native addr t fn rfl
  exact hinv.natives slot hslot fn hfn g hg hentry

end History

open History

/-- When the check lets a patch commit, the closures that something holds enter no guarded function if
and only if those that a class binds do not. -/
theorem check_patch_guards_sound {precise : List Nat → List Nat} {natives : List Nat} {types : Nat × Nat}
    {isFun : Nat → Bool} {h : History} (hreachable : h.Reachable natives types isFun)
    {heap heap' : PinnedHeap} (hheap : heap.heap.Heap) (hlaid : heap.heap.Laid) {memory : Bool}
    {env : Nat → ScanEnv} {guards : List Nat} {names : List Int} (hguards : ∀ g ∈ guards, g ∉ natives)
    (hpassed : checkPatchGuards precise types isFun memory env h.code h.statics guards names heap =
      some (.passed, heap')) :
    (∀ c ∈ h.closures, c.Held precise heap → ∀ g ∈ guards, ¬h.Enters g c.fn) ↔
      ∀ c ∈ h.closures, c.IsBinding → c.Held precise heap → ∀ g ∈ guards, ¬h.Enters g c.fn := by
  refine ⟨fun hall c hc _ => hall c hc, fun hbindings c hc hheld g hg henters => ?_⟩
  have hinv := hreachable.inv
  obtain ⟨hblocks, hstatics⟩ := checkPatchGuards_passed hheap hlaid hpassed
  obtain ⟨hentry, hnative⟩ := hinv.entry_of_enters hc (hguards g hg) henters
  obtain ⟨hmem, howner⟩ := ownerOf_entry hg hentry
  cases c with
  | binding addr t fn => exact hbindings _ hc trivial hheld g hg henters
  | native addr t fn => exact hnative addr t fn rfl
  | static addr t fn =>
    rcases hstatics (addr, fn) (List.mem_filterMap.mpr ⟨_, hc, rfl⟩) with hnone | hnot
    · have howner : (ownerOf (guardEntries h.code guards) fn).isSome = true := howner
      rw [show ownerOf (guardEntries h.code guards) fn = none from hnone] at howner
      cases howner
    · exact hnot hheld
  | alloc b t fn hasValue =>
    obtain ⟨hnamed, p, hp, hsize, rfl, rfl, hwords⟩ := hheld
    have htype := (hinv.closures _ hc).type b _ _ hasValue rfl
    have hkind : p.page.pid.kind = .dynamic ∨ p.page.pid.kind = .noptr := by
      cases hasValue with
      | true => exact .inl hwords
      | false => exact .inr hwords.1
    have hclosure : GcInc.collectLiveClosure
        ⟨(guardEntries h.code guards).map Prod.fst, types.1, types.2, isFun⟩ heap.heap p b = true := by
      refine decide_eq_true ⟨hsize, hmem, ?_⟩
      cases hasValue with
      | true =>
        rw [if_neg (by rw [show p.page.pid.kind = .dynamic from hwords]; decide)]
        exact htype
      | false =>
        rw [if_pos hwords.1]
        exact ⟨hwords.2.1, hwords.2.2, htype⟩
    have hnone := hblocks b p hnamed hp hkind hclosure
    have howner : (ownerOf (guardEntries h.code guards) (heap.heap.word b 1)).isSome = true := howner
    rw [hnone] at howner
    cases howner

def demoLoaded : CodeMem × HlModule := moduleInitPatchEntries demoCode (castModule (some 64))

def objectRun : List PinEvent :=
  [.newPage 0 ⟨0, 7, .dynamic⟩ 65536 65536, .alloc 0 20000 true, .store 0 1 5000, .setRoots [65536] []]

def scanEnv : Nat → ScanEnv := fun _ => ⟨5, fun _ => true, true, 1, []⟩

def passesWith (statics : List (Nat × Nat)) (s : PinnedHeap) : Bool :=
  (checkPatchGuards id (0, 1) (fun _ => true) true scanEnv demoLoaded statics [0] [] s).any fun r =>
    r.1 = .passed

def holdsField (s : PinnedHeap) : Bool :=
  s.globals = [65536] ∧ GcInc.target s.heap.shapes false 65536 = some (0, 0) ∧ s.heap.word (0, 0) 1 = 5000 ∧
    (s.heap.pages[0]?).any fun p => p.page.pid.kind ≠ .noptr ∧ 1 < p.blockBytes 0 / 8

theorem held_of_holdsField (h : holdsField s = true) : HeldAddress id s 5000 := by
  obtain ⟨hglobals, htarget, hword, hpage⟩ := of_decide_eq_true h
  obtain ⟨p, hp, hok⟩ := (Option.any_eq_true _ _).mp hpage
  obtain ⟨hkind, hbytes⟩ := of_decide_eq_true hok
  have hnamed : PinnedHeap.Named id s (0, 0) :=
    .global (hglobals ▸ List.mem_singleton_self 65536) htarget
  exact .inl ⟨(0, 0), p, 1, hnamed, hp, hkind, hbytes, hword⟩

theorem objectRun_inv (h : PinnedHeap.run id (PinnedHeap.start 1) objectRun = some s) :
    s.Inv := by
  refine (PinnedHeap.Reachable.run (.start 1) (fun e he s' => ?_) h).inv
  simp only [objectRun, List.mem_cons, List.not_mem_nil, or_false] at he
  rcases he with rfl | rfl | rfl | rfl <;> trivial

theorem demo_entry : functionEntry demoLoaded.2 0 = some 4096 ∧ patchOrigin demoLoaded.2 0 = some 64 := by
  decide

def boundHistory : History := ⟨demoLoaded, [.binding 5000 0 4096], fun _ => []⟩

theorem boundHistory_reachable : boundHistory.Reachable [] (0, 1) (fun _ => true) := by
  refine .load demo_compiled _ (fun c hc => ?_) (fun _ h => (nomatch h))
  rw [List.mem_singleton.mp hc]
  exact ⟨0, (demo_entry).1⟩

def staticHistory : History := ⟨demoLoaded, [.static 6000 0 64], fun _ => []⟩

theorem staticHistory_reachable : staticHistory.Reachable [] (0, 1) (fun _ => true) := by
  refine .load demo_compiled _ (fun c hc => ?_) (fun _ h => (nomatch h))
  rw [List.mem_singleton.mp hc]
  exact ⟨0, (demo_entry).2⟩

theorem passes_of_passesWith {h : History} (hcode : h.code = demoLoaded)
    (hpasses : passesWith h.statics s = true) : ∃ heap',
      checkPatchGuards id (0, 1) (fun _ => true) true scanEnv h.code h.statics [0] [] s =
        some (.passed, heap') := by
  obtain ⟨⟨verdict, heap'⟩, hcheck, hverdict⟩ := (Option.any_eq_true _ _).mp hpasses
  obtain rfl : verdict = .passed := of_decide_eq_true hverdict
  rw [hcode]
  exact ⟨heap', hcheck⟩

theorem objectRun_bound : (PinnedHeap.run id (PinnedHeap.start 1) objectRun).any
    (fun s => holdsField s && passesWith boundHistory.statics s) = true := by
  decide +kernel

theorem objectRun_static : (PinnedHeap.run id (PinnedHeap.start 1) objectRun).any
    (fun s => passesWith staticHistory.statics s) = true := by
  decide +kernel

/-- The closure that a class binds to the field of the object enters the function, and the check does
not see it. -/
theorem binding_closure_missed :
    ∃ (h : History) (heap heap' : PinnedHeap), h.Reachable [] (0, 1) (fun _ => true) ∧
      heap.heap.Heap ∧ heap.heap.Laid ∧
      checkPatchGuards id (0, 1) (fun _ => true) true scanEnv h.code h.statics [0] [] heap =
        some (.passed, heap') ∧
      ∃ c ∈ h.closures, c.Held id heap ∧ h.Enters 0 c.fn := by
  obtain ⟨s, hs, hok⟩ := (Option.any_eq_true _ _).mp objectRun_bound
  have hok : (holdsField s && passesWith boundHistory.statics s) = true := hok
  rw [Bool.and_eq_true] at hok
  obtain ⟨heap', hcheck⟩ := passes_of_passesWith (h := boundHistory) rfl hok.2
  have hinv := objectRun_inv hs
  exact ⟨boundHistory, s, heap', boundHistory_reachable, hinv.sound.heap, hinv.laid, hcheck,
    .binding 5000 0 4096, List.mem_cons_self, held_of_holdsField hok.1, .inl (.inl (demo_entry).1)⟩

/-- A closure of the code that nothing holds does not keep the patch from being applied. -/
theorem check_patch_guards_sound_static :
    ∃ (h : History) (heap heap' : PinnedHeap), h.Reachable [] (0, 1) (fun _ => true) ∧
      checkPatchGuards id (0, 1) (fun _ => true) true scanEnv h.code h.statics [0] [] heap =
        some (.passed, heap') ∧
      ((∀ c ∈ h.closures, c.Held id heap → ∀ g ∈ [0], ¬h.Enters g c.fn) ↔
        ∀ c ∈ h.closures, c.IsBinding → c.Held id heap → ∀ g ∈ [0], ¬h.Enters g c.fn) := by
  obtain ⟨s, hs, hpasses⟩ := (Option.any_eq_true _ _).mp objectRun_static
  obtain ⟨heap', hcheck⟩ := passes_of_passesWith (h := staticHistory) rfl hpasses
  have hinv := objectRun_inv hs
  exact ⟨staticHistory, s, heap', staticHistory_reachable, hcheck,
    check_patch_guards_sound staticHistory_reachable hinv.sound.heap hinv.laid (fun _ _ h => (nomatch h)) hcheck⟩

end HashLink
