import HashLink.Patch.OwnershipRuns
import HashLink.Patch.Staging

/-!
The history of a module. Each patch it takes begins at the revision it has and leaves a later one, so that no patch
is taken twice. The literals and functions that code names by index are those of the module as it was loaded, with
what the patches taken have added, in order.
-/

namespace HashLink

open Transaction

variable {env : PatchEnv} {m m' : HlModule} {patch : HlPatch}

/-- A module, and the patches that it has taken. -/
structure PatchLog where
  module : HlModule
  taken : List HlPatch

/-- One call of `hl_module_apply_patch`. -/
def PatchLog.apply (log : PatchLog) (a : PatchEnv × HlPatch) : PatchLog :=
  match hlModuleApplyPatch a.1 log.module a.2 with
  | (m, none) => ⟨m, log.taken ++ [a.2]⟩
  | (m, some _) => ⟨m, log.taken⟩

/-- The functions that a patch adds. -/
def HlPatch.publishes (patch : HlPatch) : List HlFunction :=
  patch.addedFunctions.map fun a => ⟨a.findex, a.type.toNat⟩

/-- `m'` has the tables of `m`, each with entries after its last one. -/
structure Appends (m m' : HlModule) (patches : List HlPatch) : Prop where
  ints : m'.ints = m.ints ++ patches.flatMap HlPatch.ints
  floats : m'.floats = m.floats ++ patches.flatMap HlPatch.floats
  strings : m'.strings = m.strings ++ patches.flatMap HlPatch.strings
  functions : m'.functions = m.functions ++ patches.flatMap HlPatch.publishes

theorem Appends.refl (m : HlModule) : Appends m m [] := by
  constructor <;> rw [List.flatMap_nil, List.append_nil]

theorem Appends.trans {m'' : HlModule} {p q : List HlPatch} (h : Appends m m' p) (h' : Appends m' m'' q) :
    Appends m m'' (p ++ q) := by
  constructor
  · rw [h'.ints, h.ints, List.flatMap_append, List.append_assoc]
  · rw [h'.floats, h.floats, List.flatMap_append, List.append_assoc]
  · rw [h'.strings, h.strings, List.flatMap_append, List.append_assoc]
  · rw [h'.functions, h.functions, List.flatMap_append, List.append_assoc]

/-- The revision and the tables of literals. -/
def HlModule.logged (m : HlModule) := (m.revision, m.ints, m.floats, m.strings)

theorem logged_of_tables (h : m'.tables = m.tables) : m'.logged = m.logged := by
  have hlogged := congrArg HlModule.logged h
  exact hlogged

theorem publishAddedFunctions_adds (patch : HlPatch) (m : HlModule) :
    (publishAddedFunctions patch m).functions = m.functions ++ patch.publishes := by
  unfold publishAddedFunctions HlPatch.publishes
  generalize patch.addedFunctions = added
  induction added generalizing m with
  | nil => rw [List.map_nil, List.append_nil, List.foldl_nil]
  | cons a added ih => exact (ih _).trans (List.append_assoc _ _ _)

theorem commitPatch_logged (env : PatchEnv) (patch : HlPatch) (globalsSize code : Nat) (offsets : List Nat)
    (s : PatchState) : (commitPatch env patch globalsSize code offsets s).logged = (patch.revision,
      s.module.ints ++ patch.ints, s.module.floats ++ patch.floats, s.module.strings ++ patch.strings) := by
  have hpublish : ∀ m, (publishAddedFunctions patch m).logged = m.logged := by
    intro m
    refine foldl_keeps (g := HlModule.logged) ?_ _ m
    exact fun _ _ => rfl
  have hfields : ∀ m, (commitPatchObjectFields s.stagedFields m).logged = m.logged := by
    intro m
    refine foldl_keeps (g := HlModule.logged) ?_ _ m
    exact fun _ _ => rfl
  have hcommit : ∃ m : HlModule, m.logged = s.module.logged ∧ commitPatch env patch globalsSize code offsets s =
      { m with
        ints := m.ints ++ patch.ints
        floats := m.floats ++ patch.floats
        strings := m.strings ++ patch.strings
        revision := patch.revision } := by
    refine ⟨_, ?_, rfl⟩
    refine (hpublish _).trans ((foldl_keeps (g := HlModule.logged) ?_ _ _).trans ((hfields _).trans ?_))
    · intro m x
      dsimp only
      unfold redirectSlot
      split <;> rfl
    · refine foldIdx_keeps (Q := fun m : HlModule => m.logged = s.module.logged) (fun i global m _ hm => ?_) ?_
      · dsimp only
        split <;> exact hm
      · rfl
  obtain ⟨m, hm, hcommit⟩ := hcommit
  rw [hcommit]
  exact congrArg (fun l => (patch.revision, l.2.1 ++ patch.ints, l.2.2.1 ++ patch.floats, l.2.2.2 ++ patch.strings)) hm

/-- A patch that is taken begins at the revision of the module, and leaves a later one. -/
theorem applied_appends (h : hlModuleApplyPatch env m patch = (m', none)) :
    Appends m m' [patch] ∧ m.revision = patch.baseRevision ∧ m'.revision = patch.revision ∧
      patch.baseRevision < patch.revision := by
  obtain ⟨layout, size, code, offsets, s, hcheck, hstage, rfl⟩ := applied_steps h
  have hfits := fits_of_checkPatch hcheck
  have hkeeps := stagePatch_recoverable hcheck
  unfold finalState at hkeeps
  simp only [hstage] at hkeeps
  have hundone := hkeeps.undoes
  rw [Undoes, unstage_eq] at hundone
  have hstaged := logged_of_tables hundone
  have hslots := hkeeps.undoes.sameSlots
  obtain ⟨m₁, hsame, hfunctions, -⟩ := commitPatch_eq env patch size code offsets s
  have hlogged := commitPatch_logged env patch size code offsets s
  simp only [checkPatch, except_bind_eq_ok, require_eq_ok, Bool.and_eq_true, decide_eq_true_eq] at hcheck
  obtain ⟨_, -, _, -, _, hrevision, -⟩ := hcheck
  simp only [HlModule.logged, Prod.mk.injEq] at hlogged hstaged
  obtain ⟨-, hints, hfloats, hstrings⟩ := hstaged
  obtain ⟨hrevision', hints', hfloats', hstrings'⟩ := hlogged
  refine ⟨⟨?_, ?_, ?_, ?_⟩, hrevision.1, hrevision', hrevision.2⟩
  · rw [hints', hints, List.flatMap_singleton]
  · rw [hfloats', hfloats, List.flatMap_singleton]
  · rw [hstrings', hstrings, List.flatMap_singleton]
  · rw [hfunctions, publishAddedFunctions_adds, hsame.functions, hslots.functions, List.flatMap_singleton]

theorem refused_appends {e : String} (h : hlModuleApplyPatch env m patch = (m', some e)) :
    Appends m m' [] ∧ m'.revision = m.revision := by
  have hsame := (refused_slots h).functions
  have hlogged : m'.logged = m.logged := by
    unfold hlModuleApplyPatch at h
    split at h
    case h_1 =>
      cases h
      have hclear : (clearPatchTypes patch m).logged = m.logged := by
        unfold clearPatchTypes
        split <;> rfl
      exact hclear
    case h_2 layout size hcheck =>
      have hfits := fits_of_checkPatch hcheck
      have hkeeps := stagePatch_recoverable hcheck
      unfold finalState at hkeeps
      split at h
      case h_1 e s hstage =>
        simp only [hstage] at hkeeps
        cases h
        exact logged_of_tables (failPatch_recovers hfits hkeeps)
      case h_2 => cases h
  simp only [HlModule.logged, Prod.mk.injEq] at hlogged
  obtain ⟨hrevision, hints, hfloats, hstrings⟩ := hlogged
  refine ⟨?_, hrevision⟩
  constructor <;> simp only [hints, hfloats, hstrings, hsame, List.flatMap_nil, List.append_nil]

/-- What a log says about the module it began with. -/
structure PatchLog.Tells (log : PatchLog) (m : HlModule) : Prop where
  chain : log.taken.map HlPatch.baseRevision ++ [log.module.revision] = m.revision :: log.taken.map HlPatch.revision
  rises : (m.revision :: log.taken.map HlPatch.revision).Pairwise (· < ·)
  appends : Appends m log.module log.taken

theorem PatchLog.Tells.apply {log : PatchLog} (h : log.Tells m) (a : PatchEnv × HlPatch) : (log.apply a).Tells m := by
  unfold PatchLog.apply
  rcases happly : hlModuleApplyPatch a.1 log.module a.2 with ⟨m', _ | e⟩
  · obtain ⟨happends, hbase, hrevision, hlt⟩ := applied_appends happly
    refine ⟨?_, ?_, h.appends.trans happends⟩
    · rw [List.map_append, List.map_append, ← List.cons_append, ← h.chain, hbase, hrevision]
      rfl
    · rw [List.map_append, ← List.cons_append, List.pairwise_append]
      refine ⟨h.rises, List.pairwise_singleton _ _, fun r hr r' hr' => ?_⟩
      cases List.mem_singleton.1 hr'
      have hlast := h.rises
      rw [← h.chain] at hr hlast
      rw [← hbase] at hlt
      rcases List.mem_append.1 hr with hr | hr
      · exact Int.lt_trans ((List.pairwise_append.1 hlast).2.2 r hr _ List.mem_cons_self) hlt
      · rwa [List.mem_singleton.1 hr]
  · obtain ⟨happends, hrevision⟩ := refused_appends happly
    refine ⟨?_, h.rises, ?_⟩
    · rw [← h.chain, hrevision]
    · have hsame := h.appends.trans happends
      rwa [List.append_nil] at hsame

/-- In every sequence of applications, taken or refused, the patches taken follow each other by revision, none is taken
twice, and the module has its own tables with what they added. -/
theorem patch_history (m : HlModule) (applications : List (PatchEnv × HlPatch)) :
    let log := applications.foldl PatchLog.apply ⟨m, []⟩
    log.taken.map HlPatch.baseRevision ++ [log.module.revision] = m.revision :: log.taken.map HlPatch.revision ∧
      (m.revision :: log.taken.map HlPatch.revision).Pairwise (· < ·) ∧ log.taken.Nodup ∧
      Appends m log.module log.taken := by
  intro log
  have hrun : ∀ log : PatchLog, log.Tells m → (applications.foldl PatchLog.apply log).Tells m := by
    clear log
    induction applications with
    | nil => exact fun _ h => h
    | cons a applications ih => exact fun _ h => ih _ (h.apply a)
  have htells : log.Tells m := hrun _ ⟨rfl, List.pairwise_singleton _ _, Appends.refl m⟩
  refine ⟨htells.chain, htells.rises, ?_, htells.appends⟩
  have hrises := (List.pairwise_cons.1 htells.rises).2
  exact (hrises.imp fun hlt => Int.ne_of_lt hlt).of_map _ fun p q hne heq => hne (heq ▸ rfl)

end HashLink
