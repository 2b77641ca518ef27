import Mathlib.Data.List.Nodup
import Mathlib.Data.List.Perm.Basic
import Mathlib.Algebra.Group.Int.Units

/-!
The registry of modules in `module.c` and the retirement of a runtime module in `hlruntime.c`. A reader takes a
snapshot of the registry, which counts it in every module that it lists. A module that is retired leaves the
registry first, and its memory is released once neither a reader nor a live allocation is left. The handler of
a fatal signal reads the registry itself, which stays as it is meanwhile. Readers, retirements and the collector
take their steps in any order; each step is what one lock covers.

Retirement over any order of steps. A module that has left the registry is in no new snapshot, so the count of
its readers only falls from there on; one that is released had neither a reader nor an allocation.
-/

namespace HashLink.Registry

/-- Where the thread is that has a module for itself, by the lock of its `hl_runtime_module` or because the
handle was not given out yet. `try_` is `hl_module_retire_try`, otherwise only `hl_module_retire_prepare`
runs. -/
inductive RetirePoint
  | loading
  /-- The test of `m->retiring`. -/
  | prepare (try_ : Bool)
  /-- `m->retiring` is set, and `module_registry_remove` is next. -/
  | unpublish (try_ : Bool)
  /-- `hl_module_live_allocation_count`. -/
  | countLive
  /-- `m->registry_readers`, with the count of the allocations. -/
  | readReaders (live : BitVec 32)
  /-- The test on both. -/
  | decide (live readers : BitVec 32)
  /-- `hl_module_free_shutdown`. -/
  | release
  /-- `runtime->module = NULL` and the release of the lock. -/
  | clear
  deriving DecidableEq, Repr

/-- Modules are known by their numbers, in the order of their making. -/
structure ModuleRegistry where
  made : Nat
  /-- `cur_modules`. -/
  curModules : List Nat
  /-- `m->registry_readers`. -/
  registryReaders : Nat → BitVec 32
  /-- `m->retiring`. -/
  retiring : Nat → Bool
  /-- The allocation class of the module, which the owners of the overflow class share. -/
  gcClass : Nat → Nat
  /-- Whether `runtime->module` is the module still. -/
  runtimeModule : Nat → Bool
  lock : Nat → Option RetirePoint
  /-- How often `hl_module_free_shutdown` has released the memory. -/
  released : Nat → Nat
  /-- The snapshots that are not freed yet. -/
  snapshots : List (List Nat)
  /-- The modules that `hl_module_resolve_crash_location` goes through while it has `crash_registry_busy`. -/
  crashReader : Option (List Nat)
  /-- The modules that own the live allocations. -/
  allocations : List Nat

inductive RegistryEvent
  /-- `hl_module_init` comes to its end, with the module in the given allocation class. -/
  | load (gcClass : Nat)
  /-- `hl_module_init` fails. -/
  | loadFails
  /-- `hl_runtime_module_load` returns the handle. -/
  | share (m : Nat)
  /-- The initializer fails: `hl_module_retire_prepare`, and the handle goes to the failed retirements. -/
  | initializerFails (m : Nat)
  /-- `hl_runtime_module_load` gives up: `hl_module_unload`. -/
  | unload (m : Nat)
  /-- `hl_runtime_module_release`, also from `hl_runtime_failed_retirements_retry`. -/
  | moduleRelease (m : Nat)
  /-- The next step of the thread that has the module. -/
  | retire (m : Nat)
  | snapshot
  | snapshotFree (reader : Nat)
  /-- `hl_module_resolve_crash_location` begins, in the handler of a signal, and comes to its end. -/
  | crashResolve
  | crashResolved
  /-- Code of the module allocates. -/
  | allocate (m : Nat)
  /-- An allocation is not live any more. -/
  | drop (allocation : Nat)
  /-- `hl_module_free_shutdown` on its own. -/
  | freeShutdown (m : Nat)
  deriving DecidableEq, Repr

def addReaders (delta : BitVec 32) (modules : List Nat) (readers : Nat → BitVec 32) : Nat → BitVec 32 :=
  modules.foldl (fun readers m => Function.update readers m (readers m + delta)) readers

namespace ModuleRegistry

variable (s : ModuleRegistry)

def empty : ModuleRegistry where
  made := 0
  curModules := []
  registryReaders := fun _ => 0
  retiring := fun _ => false
  gcClass := fun _ => 0
  runtimeModule := fun _ => false
  lock := fun _ => none
  released := fun _ => 0
  snapshots := []
  crashReader := none
  allocations := []

def setLock (m : Nat) (point : Option RetirePoint) : ModuleRegistry :=
  { s with lock := Function.update s.lock m point }

/-- `hl_module_add`, for a module that was just made. -/
def hlModuleAdd (gcClass : Nat) : ModuleRegistry :=
  { s with
    made := s.made + 1
    curModules := s.curModules ++ [s.made]
    gcClass := Function.update s.gcClass s.made gcClass
    runtimeModule := Function.update s.runtimeModule s.made true
    lock := Function.update s.lock s.made (some .loading) }

def moduleRegistryRemove (m : Nat) : ModuleRegistry := { s with curModules := s.curModules.erase m }

def hlModuleFreeShutdown (m : Nat) : ModuleRegistry :=
  let s := s.moduleRegistryRemove m
  { s with released := Function.update s.released m (s.released m + 1) }

/-- `hl_gc_owner_live_count`: the live blocks of the module's allocation class. -/
def hlModuleLiveAllocationCount (m : Nat) : BitVec 32 :=
  BitVec.ofNat 32 (s.allocations.countP fun owner => s.gcClass owner = s.gcClass m)

def hlModuleRegistrySnapshot : ModuleRegistry :=
  { s with
    snapshots := s.snapshots ++ [s.curModules]
    registryReaders := addReaders 1 s.curModules s.registryReaders }

def hlModuleRegistrySnapshotFree (reader : Nat) : ModuleRegistry :=
  { s with
    snapshots := s.snapshots.eraseIdx reader
    registryReaders := addReaders (-1) (s.snapshots.getD reader []) s.registryReaders }

/-- `hl_module_crash_write_lock` waits for the handler of the signal. -/
def crashBusy : Bool := s.crashReader.isSome

/-- One step of `hl_module_retire_prepare` and `hl_module_retire_try`. -/
def retireStep (m : Nat) : ModuleRegistry :=
  match s.lock m with
  | none => s
  | some .loading => s
  | some (.prepare try_) =>
    if s.retiring m then s.setLock m (if try_ then some .countLive else none)
    else { s with retiring := Function.update s.retiring m true }.setLock m (some (.unpublish try_))
  | some (.unpublish try_) =>
    if s.crashBusy then s else (s.moduleRegistryRemove m).setLock m (if try_ then some .countLive else none)
  | some .countLive => s.setLock m (some (.readReaders (s.hlModuleLiveAllocationCount m)))
  | some (.readReaders live) => s.setLock m (some (.decide live (s.registryReaders m)))
  | some (.decide live readers) =>
    if 0 < live.toInt ∨ 0 < readers.toInt then s.setLock m none else s.setLock m (some .release)
  | some .release => if s.crashBusy then s else (s.hlModuleFreeShutdown m).setLock m (some .clear)
  | some .clear => { s with runtimeModule := Function.update s.runtimeModule m false }.setLock m none

def step : RegistryEvent → ModuleRegistry
  | .load gcClass => if s.crashBusy then s else s.hlModuleAdd gcClass
  | .loadFails => { s with made := s.made + 1, released := Function.update s.released s.made 1 }
  | .share m => if s.lock m = some .loading then s.setLock m none else s
  | .initializerFails m => if s.lock m = some .loading then s.setLock m (some (.prepare false)) else s
  | .unload m => if s.lock m = some .loading then s.setLock m (some (.prepare true)) else s
  | .moduleRelease m =>
    if s.lock m = none ∧ s.runtimeModule m = true then s.setLock m (some (.prepare true)) else s
  | .retire m => s.retireStep m
  | .snapshot => s.hlModuleRegistrySnapshot
  | .snapshotFree reader => if reader < s.snapshots.length then s.hlModuleRegistrySnapshotFree reader else s
  | .crashResolve => if s.crashBusy then s else { s with crashReader := some s.curModules }
  | .crashResolved => { s with crashReader := none }
  | .allocate m =>
    if m < s.made ∧ s.released m = 0 then { s with allocations := s.allocations ++ [m] } else s
  | .drop allocation => { s with allocations := s.allocations.eraseIdx allocation }
  | .freeShutdown m => if m < s.made ∧ ¬s.crashBusy then s.hlModuleFreeShutdown m else s

def run (events : List RegistryEvent) : ModuleRegistry := events.foldl step s

end ModuleRegistry

theorem addReaders_apply {modules : List Nat} (hnodup : modules.Nodup) (delta : BitVec 32)
    (readers : Nat → BitVec 32) (m : Nat) :
    addReaders delta modules readers m = if m ∈ modules then readers m + delta else readers m := by
  induction modules generalizing readers with
  | nil => rfl
  | cons a modules ih =>
    obtain ⟨hnot, hnodup⟩ := List.nodup_cons.1 hnodup
    show addReaders delta modules (Function.update readers a (readers a + delta)) m = _
    rw [ih hnodup]
    by_cases hm : m = a
    · subst hm
      rw [if_neg hnot, if_pos List.mem_cons_self, Function.update_self]
    · simp [hm]

namespace ModuleRegistry

variable {s s' : ModuleRegistry} {m : Nat}

def readersOf (s : ModuleRegistry) (m : Nat) : Nat := s.snapshots.countP (m ∈ ·)

def Unseen (s : ModuleRegistry) (m : Nat) : Prop := ∀ snapshot ∈ s.snapshots, m ∉ snapshot

theorem unseen_iff : s.Unseen m ↔ s.readersOf m = 0 := by
  simp [Unseen, readersOf, List.countP_eq_zero]

/-- What is known of a module where the thread is that has it. -/
def Stage (s : ModuleRegistry) (m : Nat) : Option RetirePoint → Prop
  | none => (s.retiring m = true → m ∉ s.curModules) ∧ (s.runtimeModule m = true → s.released m = 0) ∧
      s.released m ≤ 1
  | some .loading => s.released m = 0 ∧ (s.retiring m = true → m ∉ s.curModules)
  | some (.prepare _) => s.released m = 0 ∧ (s.retiring m = true → m ∉ s.curModules)
  | some (.unpublish _) => s.released m = 0
  | some .countLive => s.released m = 0 ∧ m ∉ s.curModules
  | some (.readReaders live) => s.released m = 0 ∧ m ∉ s.curModules ∧ (¬0 < live.toInt → m ∉ s.allocations)
  | some (.decide live readers) => s.released m = 0 ∧ m ∉ s.curModules ∧
      (¬0 < live.toInt → m ∉ s.allocations) ∧ (¬0 < readers.toInt → s.Unseen m)
  | some .release => s.released m = 0 ∧ m ∉ s.curModules ∧ m ∉ s.allocations ∧ s.Unseen m
  | some .clear => s.released m = 1 ∧ m ∉ s.curModules

structure Kept (s : ModuleRegistry) : Prop where
  nodup : s.curModules.Nodup
  listed : ∀ m ∈ s.curModules, m < s.made ∧ s.released m = 0
  seen : ∀ snapshot ∈ s.snapshots, snapshot.Nodup ∧ ∀ m ∈ snapshot, m < s.made ∧ s.released m = 0
  owned : ∀ m ∈ s.allocations, m < s.made ∧ s.released m = 0
  counted : ∀ m, s.registryReaders m = BitVec.ofNat 32 (s.readersOf m)
  few : s.snapshots.length < 2 ^ 31
  fewLive : s.allocations.length < 2 ^ 31
  crash : ∀ modules, s.crashReader = some modules → modules = s.curModules
  fresh : ∀ m, s.made ≤ m →
    s.lock m = none ∧ s.runtimeModule m = false ∧ s.retiring m = false ∧ s.released m = 0
  stage : ∀ m, s.Stage m (s.lock m)

theorem Stage.mono {point : Option RetirePoint} (h : s.Stage m point)
    (hcur : m ∈ s'.curModules → m ∈ s.curModules) (hretiring : s'.retiring m = s.retiring m)
    (hruntime : s'.runtimeModule m = s.runtimeModule m) (hreleased : s'.released m = s.released m)
    (hallocations : point ≠ none → point ≠ some .loading → m ∈ s'.allocations → m ∈ s.allocations)
    (hunseen : m ∉ s.curModules → s.Unseen m → s'.Unseen m) : s'.Stage m point := by
  unfold Stage at h ⊢
  rw [hretiring, hruntime, hreleased]
  have hnot : m ∉ s.curModules → m ∉ s'.curModules := fun hnot hmem => hnot (hcur hmem)
  have hcleared : point ≠ none → point ≠ some .loading → m ∉ s.allocations → m ∉ s'.allocations :=
    fun hsome hbusy hnot hmem => hnot (hallocations hsome hbusy hmem)
  cases point with
  | none => exact ⟨fun hr => hnot (h.1 hr), h.2⟩
  | some point =>
    cases point with
    | loading => exact ⟨h.1, fun hr => hnot (h.2 hr)⟩
    | prepare try_ => exact ⟨h.1, fun hr => hnot (h.2 hr)⟩
    | unpublish try_ => exact h
    | countLive => exact ⟨h.1, hnot h.2⟩
    | readReaders live =>
      obtain ⟨hreleased, hcur, hlive⟩ := h
      exact ⟨hreleased, hnot hcur, fun hzero => hcleared nofun nofun (hlive hzero)⟩
    | decide live readers =>
      obtain ⟨hreleased, hcur, hlive, hseen⟩ := h
      exact ⟨hreleased, hnot hcur, fun hzero => hcleared nofun nofun (hlive hzero),
        fun hzero => hunseen hcur (hseen hzero)⟩
    | release =>
      obtain ⟨hreleased, hcur, hlive, hseen⟩ := h
      exact ⟨hreleased, hnot hcur, hcleared nofun nofun hlive, hunseen hcur hseen⟩
    | clear => exact ⟨h.1, hnot h.2⟩

/-- A change of one module, an old one or a new one. -/
theorem Kept.change (h : s.Kept) (hmade : s.made ≤ s'.made) (hm : m < s'.made)
    (hcur : ∀ n ∈ s'.curModules, n ∈ s.curModules ∨ n = m ∧ s'.released n = 0) (hnodup : s'.curModules.Nodup)
    (hreaders : s'.registryReaders = s.registryReaders)
    (hsnapshots : s'.snapshots = s.snapshots) (hallocations : s'.allocations = s.allocations)
    (hcrash : s'.crashReader = s.crashReader ∧ (s.crashReader ≠ none → s'.curModules = s.curModules))
    (hother : ∀ n, n ≠ m → s'.lock n = s.lock n ∧ s'.runtimeModule n = s.runtimeModule n ∧
      s'.retiring n = s.retiring n ∧ s'.released n = s.released n)
    (hreleased : s'.released m = s.released m ∨ m ∉ s.curModules ∧ m ∉ s.allocations ∧ s.Unseen m)
    (hstage : s'.Stage m (s'.lock m)) : s'.Kept := by
  have hkeep : ∀ n, (n = m → s'.released m = s.released m) → n < s.made ∧ s.released n = 0 →
      n < s'.made ∧ s'.released n = 0 := by
    intro n hn hold
    refine ⟨Nat.lt_of_lt_of_le hold.1 hmade, ?_⟩
    by_cases hnm : n = m
    · subst hnm
      exact (hn rfl).trans hold.2
    · exact (hother n hnm).2.2.2.trans hold.2
  refine ⟨hnodup, fun n hn => ?_, ?_, ?_, ?_, ?_, by rw [hallocations]; exact h.fewLive, ?_, ?_, ?_⟩
  · rcases hcur n hn with hn | ⟨rfl, hzero⟩
    · refine hkeep n ?_ (h.listed n hn)
      rintro rfl
      exact hreleased.resolve_right fun hgone => hgone.1 hn
    · exact ⟨hm, hzero⟩
  · intro snapshot hsnapshot
    rw [hsnapshots] at hsnapshot
    obtain ⟨hnodup, hall⟩ := h.seen snapshot hsnapshot
    refine ⟨hnodup, fun n hn => hkeep n ?_ (hall n hn)⟩
    rintro rfl
    exact hreleased.resolve_right fun hgone => hgone.2.2 snapshot hsnapshot hn
  · intro n hn
    rw [hallocations] at hn
    refine hkeep n ?_ (h.owned n hn)
    rintro rfl
    exact hreleased.resolve_right fun hgone => hgone.2.1 hn
  · intro n
    rw [hreaders, readersOf, hsnapshots]
    exact h.counted n
  · rw [hsnapshots]
    exact h.few
  · intro modules hmodules
    rw [hcrash.1] at hmodules
    rw [hcrash.2 (by rw [hmodules]; nofun)]
    exact h.crash modules hmodules
  · intro n hn
    have hne : n ≠ m := fun hnm => absurd hm (hnm ▸ Nat.not_lt.2 hn)
    obtain ⟨hlock, hruntime, hretiring, hsame⟩ := hother n hne
    rw [hlock, hruntime, hretiring, hsame]
    exact h.fresh n (Nat.le_trans hmade hn)
  · intro n
    by_cases hnm : n = m
    · exact hnm ▸ hstage
    · obtain ⟨hlock, hruntime, hretiring, hsame⟩ := hother n hnm
      rw [hlock]
      refine (h.stage n).mono ?_ hretiring hruntime hsame ?_ ?_
      · exact fun hmem => (hcur n hmem).resolve_right fun hnew => hnm hnew.1
      · exact fun _ _ hmem => hallocations ▸ hmem
      · exact fun _ hseen snapshot hsnapshot => hseen snapshot (hsnapshots ▸ hsnapshot)

theorem Kept.setLock (h : s.Kept) (hm : m < s.made) {point : Option RetirePoint}
    (hstage : s.Stage m point) : (s.setLock m point).Kept := by
  refine h.change (Nat.le_refl _) hm (fun _ => .inl) h.nodup rfl rfl rfl ⟨rfl, fun _ => rfl⟩ ?_ (Or.inl rfl) ?_
  · exact fun n hn => ⟨Function.update_of_ne hn _ _, rfl, rfl, rfl⟩
  · show Stage _ m (Function.update s.lock m point m)
    rw [Function.update_self]
    exact hstage.mono (fun hmem => hmem) rfl rfl rfl (fun _ _ hmem => hmem) fun _ hseen => hseen

theorem Kept.lt_made (h : s.Kept) (hm : s.lock m ≠ none) : m < s.made := by
  by_contra hge
  exact hm (h.fresh m (Nat.not_lt.1 hge)).1

theorem Kept.markRetiring (h : s.Kept) {try_ : Bool} (hlock : s.lock m = some (.prepare try_)) :
    ({ s with retiring := Function.update s.retiring m true }.setLock m (some (.unpublish try_))).Kept := by
  have hstage := h.stage m
  rw [hlock] at hstage
  refine h.change (Nat.le_refl _) (h.lt_made (by rw [hlock]; nofun)) (fun _ => .inl) h.nodup rfl rfl rfl
    ⟨rfl, fun _ => rfl⟩
    ?_ (Or.inl rfl) ?_
  · exact fun n hn => ⟨Function.update_of_ne hn _ _, rfl, Function.update_of_ne hn _ _, rfl⟩
  · show Stage _ m (Function.update s.lock m _ m)
    rw [Function.update_self]
    exact hstage.1

theorem not_busy (h : ¬s.crashBusy) : s.crashReader = none := by
  simpa [crashBusy] using h

theorem Kept.unpublish (h : s.Kept) (hidle : ¬s.crashBusy) {try_ : Bool} (hlock : s.lock m = some (.unpublish try_))
    {point : Option RetirePoint} (hstage : (s.moduleRegistryRemove m).Stage m point) :
    ((s.moduleRegistryRemove m).setLock m point).Kept := by
  refine h.change (Nat.le_refl _) (h.lt_made (by rw [hlock]; nofun))
    (fun _ hn => .inl (List.mem_of_mem_erase hn)) (h.nodup.erase _)
    rfl rfl rfl ⟨rfl, fun hbusy => absurd (not_busy hidle) hbusy⟩ ?_ (Or.inl rfl) ?_
  · exact fun n hn => ⟨Function.update_of_ne hn _ _, rfl, rfl, rfl⟩
  · show Stage _ m (Function.update s.lock m _ m)
    rw [Function.update_self]
    exact hstage.mono (fun hmem => hmem) rfl rfl rfl (fun _ _ hmem => hmem) fun _ hseen => hseen

theorem Kept.free (h : s.Kept) (hidle : ¬s.crashBusy) (hlock : s.lock m = some .release) :
    ((s.hlModuleFreeShutdown m).setLock m (some .clear)).Kept := by
  have hstage := h.stage m
  rw [hlock] at hstage
  obtain ⟨hreleased, hgone⟩ := hstage
  refine h.change (Nat.le_refl _) (h.lt_made (by rw [hlock]; nofun))
    (fun _ hn => .inl (List.mem_of_mem_erase hn)) (h.nodup.erase _)
    rfl rfl rfl ⟨rfl, fun hbusy => absurd (not_busy hidle) hbusy⟩ ?_ (Or.inr hgone) ?_
  · exact fun n hn => ⟨Function.update_of_ne hn _ _, rfl, rfl, Function.update_of_ne hn _ _⟩
  · show Stage _ m (Function.update s.lock m _ m)
    rw [Function.update_self]
    refine ⟨?_, fun hmem => hgone.1 (List.mem_of_mem_erase hmem)⟩
    show Function.update s.released m (s.released m + 1) m = 1
    rw [Function.update_self, hreleased]

theorem Kept.clear (h : s.Kept) (hlock : s.lock m = some .clear) :
    ({ s with runtimeModule := Function.update s.runtimeModule m false }.setLock m none).Kept := by
  have hstage := h.stage m
  rw [hlock] at hstage
  refine h.change (Nat.le_refl _) (h.lt_made (by rw [hlock]; nofun)) (fun _ => .inl) h.nodup rfl rfl rfl
    ⟨rfl, fun _ => rfl⟩
    ?_ (Or.inl rfl) ?_
  · exact fun n hn => ⟨Function.update_of_ne hn _ _, Function.update_of_ne hn _ _, rfl, rfl⟩
  · show Stage _ m (Function.update s.lock m _ m)
    rw [Function.update_self]
    refine ⟨fun _ => hstage.2, fun hruntime => ?_, Nat.le_of_eq hstage.1⟩
    have hfalse : Function.update s.runtimeModule m false m = true := hruntime
    rw [Function.update_self] at hfalse
    cases hfalse

theorem Kept.unseen_of_count (h : s.Kept) (hzero : ¬0 < (s.registryReaders m).toInt) : s.Unseen m := by
  rw [unseen_iff]
  have hle : s.readersOf m ≤ s.snapshots.length := List.countP_le_length
  have hfew := h.few
  rw [h.counted, BitVec.toInt_ofNat', Int.bmod_eq_of_le] at hzero
  all_goals omega

theorem Kept.unowned_of_count (h : s.Kept) (hzero : ¬0 < (s.hlModuleLiveAllocationCount m).toInt) :
    m ∉ s.allocations := by
  have hle : s.allocations.countP (fun owner => s.gcClass owner = s.gcClass m) ≤ s.allocations.length :=
    List.countP_le_length
  have hfew := h.fewLive
  have hnone : s.allocations.countP (fun owner => s.gcClass owner = s.gcClass m) = 0 := by
    rw [hlModuleLiveAllocationCount, BitVec.toInt_ofNat', Int.bmod_eq_of_le] at hzero
    all_goals omega
  intro hmem
  have hbad := List.countP_eq_zero.1 hnone m hmem
  simp at hbad

theorem Kept.retireStep (h : s.Kept) (m : Nat) : (s.retireStep m).Kept := by
  have hstage := h.stage m
  have hmade := h.lt_made (m := m)
  unfold ModuleRegistry.retireStep
  cases hlock : s.lock m with
  | none => exact h
  | some point =>
    rw [hlock] at hstage hmade
    have hm := hmade nofun
    -- with or without `hl_module_retire_try`, the module has left the registry by now
    have hprepared : ∀ (s : ModuleRegistry) (try_ : Bool), s.released m = 0 → m ∉ s.curModules →
        s.Stage m (if try_ then some .countLive else none) := by
      intro s try_ hreleased hcur
      cases try_ with
      | false => exact ⟨fun _ => hcur, fun _ => hreleased, by omega⟩
      | true => exact ⟨hreleased, hcur⟩
    cases point with
    | loading => exact h
    | prepare try_ =>
      dsimp only
      split
      · next hretiring => exact h.setLock hm (hprepared s try_ hstage.1 (hstage.2 hretiring))
      · exact h.markRetiring hlock
    | unpublish try_ =>
      dsimp only
      split
      · exact h
      · next hidle => exact h.unpublish hidle hlock (hprepared _ try_ hstage h.nodup.not_mem_erase)
    | countLive =>
      exact h.setLock hm ⟨hstage.1, hstage.2, h.unowned_of_count⟩
    | readReaders live =>
      obtain ⟨hreleased, hcur, hlive⟩ := hstage
      exact h.setLock hm ⟨hreleased, hcur, hlive, h.unseen_of_count⟩
    | decide live readers =>
      obtain ⟨hreleased, hcur, hlive, hseen⟩ := hstage
      dsimp only
      split
      · exact h.setLock hm ⟨fun _ => hcur, fun _ => hreleased, by omega⟩
      · next hnone =>
        rw [not_or] at hnone
        exact h.setLock hm ⟨hreleased, hcur, hlive hnone.1, hseen hnone.2⟩
    | release =>
      dsimp only
      split
      · exact h
      · next hidle => exact h.free hidle hlock
    | clear => exact h.clear hlock

/-- Nothing names the module that is made next. -/
theorem Kept.unnamed (h : s.Kept) : s.made ∉ s.curModules ∧ s.made ∉ s.allocations ∧ s.Unseen s.made :=
  ⟨fun hmem => absurd (h.listed _ hmem).1 (Nat.lt_irrefl _), fun hmem => absurd (h.owned _ hmem).1 (Nat.lt_irrefl _),
    fun _ hsnapshot hmem => absurd ((h.seen _ hsnapshot).2 _ hmem).1 (Nat.lt_irrefl _)⟩

theorem Kept.load (h : s.Kept) (hidle : ¬s.crashBusy) (gcClass : Nat) : (s.hlModuleAdd gcClass).Kept := by
  obtain ⟨hlock, hruntime, hretiring, hreleased⟩ := h.fresh s.made (Nat.le_refl _)
  refine h.change (Nat.le_succ _) (Nat.lt_succ_self _) ?_ ?_ rfl rfl rfl
    ⟨rfl, fun hbusy => absurd (not_busy hidle) hbusy⟩ ?_ (.inl rfl) ?_
  · intro n hn
    rcases List.mem_append.1 hn with hn | hn
    · exact Or.inl hn
    · cases List.mem_singleton.1 hn
      exact Or.inr ⟨rfl, hreleased⟩
  · refine List.Nodup.append h.nodup (List.nodup_singleton _) fun n hn hnew => ?_
    cases List.mem_singleton.1 hnew
    exact h.unnamed.1 hn
  · exact fun n hn => ⟨Function.update_of_ne hn _ _, Function.update_of_ne hn _ _, rfl, rfl⟩
  · show Stage _ s.made (Function.update s.lock s.made _ s.made)
    rw [Function.update_self]
    refine ⟨hreleased, fun hbad => ?_⟩
    have htrue : s.retiring s.made = true := hbad
    rw [hretiring] at htrue
    cases htrue

theorem Kept.loadFails (h : s.Kept) :
    ({ s with made := s.made + 1, released := Function.update s.released s.made 1 } : ModuleRegistry).Kept := by
  obtain ⟨hlock, hruntime, hretiring, hreleased⟩ := h.fresh s.made (Nat.le_refl _)
  refine h.change (Nat.le_succ _) (Nat.lt_succ_self _) (fun n hn => Or.inl hn) h.nodup rfl rfl rfl
    ⟨rfl, fun _ => rfl⟩ ?_ (.inr h.unnamed) ?_
  · exact fun n hn => ⟨rfl, rfl, rfl, Function.update_of_ne hn _ _⟩
  · show Stage _ s.made (s.lock s.made)
    rw [hlock]
    refine ⟨fun _ => h.unnamed.1, fun hbad => ?_, ?_⟩
    · have htrue : s.runtimeModule s.made = true := hbad
      rw [hruntime] at htrue
      cases htrue
    · exact Nat.le_of_eq (Function.update_self ..)

theorem Kept.snapshot (h : s.Kept) (hfew : s.snapshots.length + 1 < 2 ^ 31) :
    s.hlModuleRegistrySnapshot.Kept := by
  have hmem : ∀ snapshot ∈ s.snapshots ++ [s.curModules], snapshot ∈ s.snapshots ∨ snapshot = s.curModules := by
    intro snapshot hsnapshot
    rcases List.mem_append.1 hsnapshot with hold | hnew
    · exact Or.inl hold
    · exact Or.inr (List.mem_singleton.1 hnew)
  refine ⟨h.nodup, h.listed, ?_, h.owned, ?_, ?_, h.fewLive, h.crash, h.fresh, ?_⟩
  · intro snapshot hsnapshot
    rcases hmem snapshot hsnapshot with hold | rfl
    · exact h.seen snapshot hold
    · exact ⟨h.nodup, h.listed⟩
  · intro n
    show addReaders 1 s.curModules s.registryReaders n =
      BitVec.ofNat 32 ((s.snapshots ++ [s.curModules]).countP (n ∈ ·))
    rw [addReaders_apply h.nodup, List.countP_append, List.countP_singleton, h.counted n]
    by_cases hn : n ∈ s.curModules
    · rw [if_pos hn, if_pos (decide_eq_true hn), BitVec.ofNat_add]
      rfl
    · rw [if_neg hn, if_neg (by simpa using hn)]
      rfl
  · show (s.snapshots ++ [s.curModules]).length < 2 ^ 31
    rw [List.length_append]
    exact hfew
  · intro n
    refine (h.stage n).mono (fun hmem => hmem) rfl rfl rfl (fun _ _ hmem => hmem) ?_
    intro hnot hseen snapshot hsnapshot
    rcases hmem snapshot hsnapshot with hold | rfl
    · exact hseen snapshot hold
    · exact hnot

theorem Kept.snapshotFree (h : s.Kept) {reader : Nat} (hreader : reader < s.snapshots.length) :
    (s.hlModuleRegistrySnapshotFree reader).Kept := by
  have hget : s.snapshots.getD reader [] = s.snapshots[reader] := by
    rw [List.getD_eq_getElem?_getD, List.getElem?_eq_getElem hreader]
    rfl
  have hnodup := (h.seen s.snapshots[reader] (List.getElem_mem hreader)).1
  refine ⟨h.nodup, h.listed, fun snapshot hsnapshot => h.seen snapshot (List.mem_of_mem_eraseIdx hsnapshot),
    h.owned, ?_, ?_, h.fewLive, h.crash, h.fresh, ?_⟩
  · intro n
    have hcount : s.readersOf n =
        (s.snapshots.eraseIdx reader).countP (n ∈ ·) + if n ∈ s.snapshots[reader] then 1 else 0 := by
      rw [readersOf, ← (List.getElem_cons_eraseIdx_perm hreader).countP_eq, List.countP_cons]
      simp
    show addReaders (-1) (s.snapshots.getD reader []) s.registryReaders n =
      BitVec.ofNat 32 ((s.snapshots.eraseIdx reader).countP (n ∈ ·))
    rw [hget, addReaders_apply hnodup, h.counted n, hcount]
    by_cases hn : n ∈ s.snapshots[reader]
    · rw [if_pos hn, if_pos hn, BitVec.ofNat_add, BitVec.add_assoc]
      exact BitVec.add_zero _
    · rw [if_neg hn, if_neg hn, Nat.add_zero]
  · exact Nat.lt_of_le_of_lt (List.length_eraseIdx_le _ _) h.few
  · intro n
    refine (h.stage n).mono (fun hmem => hmem) rfl rfl rfl (fun _ _ hmem => hmem) ?_
    exact fun _ hseen snapshot hsnapshot => hseen snapshot (List.mem_of_mem_eraseIdx hsnapshot)

theorem Kept.allocate (h : s.Kept) (hm : m < s.made ∧ s.released m = 0)
    (hquiet : s.lock m = none ∨ s.lock m = some .loading) (hfew : s.allocations.length + 1 < 2 ^ 31) :
    ({ s with allocations := s.allocations ++ [m] } : ModuleRegistry).Kept := by
  have hmem : ∀ n ∈ s.allocations ++ [m], n ∈ s.allocations ∨ n = m := by
    intro n hn
    rcases List.mem_append.1 hn with hold | hnew
    · exact Or.inl hold
    · exact Or.inr (List.mem_singleton.1 hnew)
  refine ⟨h.nodup, h.listed, h.seen, fun n hn => ?_, h.counted, h.few, ?_, h.crash, h.fresh, fun n => ?_⟩
  · rcases hmem n hn with hold | rfl
    · exact h.owned n hold
    · exact hm
  · show (s.allocations ++ [m]).length < 2 ^ 31
    rw [List.length_append]
    exact hfew
  · refine (h.stage n).mono (fun hmem => hmem) rfl rfl rfl ?_ fun _ hseen => hseen
    intro hsome hbusy hn
    rcases hmem n hn with hold | rfl
    · exact hold
    · rcases hquiet with hlock | hlock
      · exact absurd hlock hsome
      · exact absurd hlock hbusy

theorem Kept.drop (h : s.Kept) (allocation : Nat) :
    ({ s with allocations := s.allocations.eraseIdx allocation } : ModuleRegistry).Kept := by
  refine ⟨h.nodup, h.listed, h.seen, fun n hn => h.owned n (List.mem_of_mem_eraseIdx hn), h.counted, h.few,
    Nat.lt_of_le_of_lt (List.length_eraseIdx_le _ _) h.fewLive, h.crash, h.fresh, fun n => ?_⟩
  exact (h.stage n).mono (fun hmem => hmem) rfl rfl rfl (fun _ _ hmem => List.mem_of_mem_eraseIdx hmem)
    fun _ hseen => hseen

theorem Kept.crashing (h : s.Kept) (modules : Option (List Nat))
    (hmodules : ∀ l, modules = some l → l = s.curModules) :
    ({ s with crashReader := modules } : ModuleRegistry).Kept :=
  ⟨h.nodup, h.listed, h.seen, h.owned, h.counted, h.few, h.fewLive, hmodules, h.fresh, fun n =>
    (h.stage n).mono (fun hmem => hmem) rfl rfl rfl (fun _ _ hmem => hmem) fun _ hseen => hseen⟩

/-- What the callers see to: `hl_module_free_shutdown` is for the end of the process only, the code of a module
that is being retired does not run, and there are fewer than `2 ^ 31` snapshots and allocations at a time. -/
def Admissible (s : ModuleRegistry) : RegistryEvent → Prop
  | .freeShutdown _ => False
  | .allocate m => (s.lock m = none ∨ s.lock m = some .loading) ∧ s.allocations.length + 1 < 2 ^ 31
  | .snapshot => s.snapshots.length + 1 < 2 ^ 31
  | _ => True

def Orderly (s : ModuleRegistry) : List RegistryEvent → Prop
  | [] => True
  | e :: events => s.Admissible e ∧ (s.step e).Orderly events

theorem Kept.step (h : s.Kept) {e : RegistryEvent} (he : s.Admissible e) : (s.step e).Kept := by
  have hloading : ∀ (m : Nat) {point : Option RetirePoint},
      (s.released m = 0 ∧ (s.retiring m = true → m ∉ s.curModules) → s.Stage m point) →
        (if s.lock m = some .loading then s.setLock m point else s).Kept := by
    intro m point hpoint
    split
    · next hlock =>
      have hstage := h.stage m
      rw [hlock] at hstage
      exact h.setLock (h.lt_made (by rw [hlock]; nofun)) (hpoint hstage)
    · exact h
  cases e with
  | load gcClass =>
    unfold ModuleRegistry.step
    dsimp only
    split
    · exact h
    · next hidle => exact h.load hidle gcClass
  | loadFails => exact h.loadFails
  | share m => exact hloading m fun hstage => ⟨hstage.2, fun _ => hstage.1, by omega⟩
  | initializerFails m => exact hloading m fun hstage => hstage
  | unload m => exact hloading m fun hstage => hstage
  | moduleRelease m =>
    unfold ModuleRegistry.step
    dsimp only
    split
    · next hfree =>
      have hstage := h.stage m
      rw [hfree.1] at hstage
      have hm : m < s.made := by
        by_contra hge
        have hfresh := (h.fresh m (Nat.not_lt.1 hge)).2.1
        rw [hfree.2] at hfresh
        cases hfresh
      exact h.setLock hm ⟨hstage.2.1 hfree.2, hstage.1⟩
    · exact h
  | retire m => exact h.retireStep m
  | snapshot => exact h.snapshot he
  | snapshotFree reader =>
    unfold ModuleRegistry.step
    dsimp only
    split
    · next hreader => exact h.snapshotFree hreader
    · exact h
  | crashResolve =>
    unfold ModuleRegistry.step
    dsimp only
    split
    · exact h
    · exact h.crashing _ fun l hl => (Option.some.inj hl).symm
  | crashResolved => exact h.crashing none nofun
  | allocate m =>
    unfold ModuleRegistry.step
    dsimp only
    split
    · next hm => exact h.allocate hm he.1 he.2
    · exact h
  | drop allocation => exact h.drop allocation
  | freeShutdown m => exact absurd he id

theorem Kept.run (h : s.Kept) {events : List RegistryEvent} (horderly : s.Orderly events) :
    (s.run events).Kept := by
  induction events generalizing s with
  | nil => exact h
  | cons e events ih => exact ih (h.step horderly.1) horderly.2

theorem kept_empty : empty.Kept :=
  ⟨List.nodup_nil, nofun, nofun, nofun, fun _ => rfl, Nat.two_pow_pos 31, Nat.two_pow_pos 31, nofun,
    fun _ _ => ⟨rfl, rfl, rfl, rfl⟩, fun _ => ⟨nofun, nofun, Nat.zero_le 1⟩⟩

/-- Whatever the order of the steps, a module is released once at most, and nothing has it then: no snapshot of a
reader, no handler of a signal, no live allocation, and not the registry. -/
theorem module_retirement {events : List RegistryEvent} (horderly : empty.Orderly events) (m : Nat) :
    let s := empty.run events
    s.released m ≤ 1 ∧
      (s.released m ≠ 0 → (∀ snapshot ∈ s.snapshots, m ∉ snapshot) ∧
        (∀ modules, s.crashReader = some modules → m ∉ modules) ∧ m ∉ s.allocations ∧ m ∉ s.curModules) := by
  intro s
  have h : s.Kept := kept_empty.run horderly
  refine ⟨?_, fun hreleased => ⟨?_, fun modules hmodules => ?_, ?_, ?_⟩⟩
  · have hstage := h.stage m
    unfold Stage at hstage
    split at hstage <;> omega
  · exact fun snapshot hsnapshot hmem => hreleased ((h.seen snapshot hsnapshot).2 m hmem).2
  · rw [h.crash modules hmodules]
    exact fun hmem => hreleased (h.listed m hmem).2
  · exact fun hmem => hreleased (h.owned m hmem).2
  · exact fun hmem => hreleased (h.listed m hmem).2

/-- A retirement that waits for the handler of a signal, that a reader blocks, and that is tried again once the
snapshot is freed. -/
def retriedRelease : List RegistryEvent :=
  [.load 0, .share 0, .snapshot, .moduleRelease 0, .retire 0, .crashResolve, .retire 0, .crashResolved, .retire 0,
    .retire 0, .retire 0, .retire 0, .snapshotFree 0, .moduleRelease 0, .retire 0, .retire 0, .retire 0, .retire 0, .retire 0, .retire 0]

theorem module_retirement_retried :
    let s := empty.run retriedRelease
    s.released 0 = 1 ∧ (∀ snapshot ∈ s.snapshots, 0 ∉ snapshot) ∧ 0 ∉ s.allocations := by
  intro s
  have horderly : empty.Orderly retriedRelease := by
    refine ⟨trivial, trivial, (by decide : 0 + 1 < 2 ^ 31), ?_⟩
    repeat' first | exact trivial | refine ⟨trivial, ?_⟩
  have hone : s.released 0 = 1 := by decide
  obtain ⟨hseen, -, howned, -⟩ := (module_retirement horderly 0).2 (by rw [hone]; exact Nat.one_ne_zero)
  exact ⟨hone, hseen, howned⟩

theorem run_append (s : ModuleRegistry) (events events' : List RegistryEvent) :
    s.run (events ++ events') = (s.run events).run events' := List.foldl_append

/-- A shared module, which `n` readers have in their snapshots and which `k` live allocations are of. -/
structure HeldBy (s : ModuleRegistry) (n k : Nat) : Prop where
  made : s.made = 1
  curModules : s.curModules = [0]
  readers : s.registryReaders 0 = BitVec.ofNat 32 n
  snapshots : s.snapshots = List.replicate n [0]
  lock : s.lock 0 = none
  handle : s.runtimeModule 0 = true
  active : s.retiring 0 = false
  there : s.released 0 = 0
  idle : s.crashReader = none
  allocations : s.allocations = List.replicate k 0

theorem heldBy_snapshots (n : Nat) :
    (empty.run ([.load 0, .share 0] ++ List.replicate n .snapshot)).HeldBy n 0 := by
  induction n with
  | zero => exact ⟨rfl, rfl, rfl, rfl, rfl, rfl, rfl, rfl, rfl, rfl⟩
  | succ n ih =>
    rw [List.replicate_succ', ← List.append_assoc, run_append]
    generalize empty.run ([.load 0, .share 0] ++ List.replicate n .snapshot) = s at ih ⊢
    refine ⟨ih.made, ih.curModules, ?_, ?_, ih.lock, ih.handle, ih.active, ih.there, ih.idle, ih.allocations⟩
    · show addReaders 1 _ _ 0 = _
      rw [addReaders_apply (by rw [ih.curModules]; decide), ih.curModules, if_pos List.mem_cons_self,
        ih.readers, BitVec.ofNat_add]
      rfl
    · show _ ++ [_] = _
      rw [ih.snapshots, ih.curModules, List.replicate_succ']

theorem HeldBy.allocate {n : Nat} (h : s.HeldBy n 0) (k : Nat) :
    (s.run (List.replicate k (.allocate 0))).HeldBy n k := by
  induction k with
  | zero => exact h
  | succ k ih =>
    rw [List.replicate_succ', run_append]
    generalize s.run (List.replicate k (.allocate 0)) = s at ih ⊢
    have hstep : s.run [.allocate 0] = { s with allocations := s.allocations ++ [0] } := by
      show (if 0 < s.made ∧ s.released 0 = 0 then _ else s) = _
      rw [if_pos ⟨by rw [ih.made]; exact Nat.one_pos, ih.there⟩]
    rw [hstep]
    refine ⟨ih.made, ih.curModules, ih.readers, ih.snapshots, ih.lock, ih.handle, ih.active, ih.there, ih.idle, ?_⟩
    show s.allocations ++ [0] = _
    rw [ih.allocations, List.replicate_succ']

theorem HeldBy.released {n k : Nat} (h : s.HeldBy n k) (hn : ¬0 < (BitVec.ofNat 32 n).toInt)
    (hk : ¬0 < (BitVec.ofNat 32 k).toInt) :
    let s' := s.run (.moduleRelease 0 :: List.replicate 6 (.retire 0))
    s'.released 0 = 1 ∧ s'.snapshots = List.replicate n [0] ∧ s'.allocations = List.replicate k 0 := by
  rw [← h.readers] at hn
  have hlive : ∀ s' : ModuleRegistry, s'.allocations = List.replicate k 0 →
      s'.hlModuleLiveAllocationCount 0 = BitVec.ofNat 32 k := by
    intro s' hk
    rw [hlModuleLiveAllocationCount, hk, List.countP_replicate]
    simp
  simp [run, List.replicate, step, retireStep, crashBusy, ModuleRegistry.setLock, moduleRegistryRemove,
    hlModuleFreeShutdown, h.lock, h.handle, h.active, h.there, h.snapshots, h.idle, hn, hk, hlive, h.allocations]

/-- With counts that an `int` does not hold, a module is released that readers and allocations have. -/
theorem released_by_overflow {n k : Nat} (hn : ¬0 < (BitVec.ofNat 32 n).toInt)
    (hk : ¬0 < (BitVec.ofNat 32 k).toInt) :
    ∃ events, (∀ m, RegistryEvent.freeShutdown m ∉ events) ∧ (empty.run events).released 0 = 1 ∧
      (empty.run events).snapshots = List.replicate n [0] ∧
      (empty.run events).allocations = List.replicate k 0 := by
  refine ⟨[.load 0, .share 0] ++ List.replicate n .snapshot ++ List.replicate k (.allocate 0) ++
    .moduleRelease 0 :: List.replicate 6 (.retire 0), fun m hm => by simp at hm, ?_⟩
  rw [run_append, run_append _ (_ ++ _)]
  exact ((heldBy_snapshots n).allocate k).released hn hk

/-- `hl_module_free_shutdown` on its own releases a module that a reader has in its snapshot and that live
allocations are of, and it does so again when it is called again. So does a retirement with `2 ^ 31` readers, or
with as many live allocations. -/
theorem forced_teardown_of_read_module :
    (let s := empty.run [.load 0, .share 0, .allocate 0, .snapshot, .freeShutdown 0]
    s.released 0 = 1 ∧ (∃ snapshot ∈ s.snapshots, 0 ∈ snapshot) ∧ 0 ∈ s.allocations ∧
      (s.step (.freeShutdown 0)).released 0 = 2) ∧
    (∃ events, (∀ m, RegistryEvent.freeShutdown m ∉ events) ∧ (empty.run events).released 0 = 1 ∧
      ∃ snapshot ∈ (empty.run events).snapshots, 0 ∈ snapshot) ∧
    ∃ events, (∀ m, RegistryEvent.freeShutdown m ∉ events) ∧ (empty.run events).released 0 = 1 ∧
      0 ∈ (empty.run events).allocations := by
  have hnegative : ¬0 < (BitVec.ofNat 32 2147483648).toInt := by decide
  have hzero : ¬0 < (BitVec.ofNat 32 0).toInt := by decide
  obtain ⟨events, hshutdown, hreleased, hsnapshots, -⟩ := released_by_overflow hnegative hzero
  obtain ⟨events', hshutdown', hreleased', -, hallocations⟩ := released_by_overflow hzero hnegative
  refine ⟨by decide, ⟨events, hshutdown, hreleased, [0], ?_, List.mem_cons_self⟩,
    events', hshutdown', hreleased', ?_⟩
  · rw [hsnapshots]
    exact List.mem_replicate.2 ⟨Nat.succ_ne_zero _, rfl⟩
  · rw [hallocations]
    exact List.mem_replicate.2 ⟨Nat.succ_ne_zero _, rfl⟩

end ModuleRegistry

end HashLink.Registry
