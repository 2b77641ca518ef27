import HashLink.Patch.ControlFlow
import HashLink.Patch.OwnershipSafety

/-!
The allocations over a whole life of a module: any patches, applied or refused, and its release at the
end. What the commit relies on is what the checks have found: the slots of a patch are distinct, and
they are slots of the module or of the functions that the patch adds.
-/

namespace HashLink

open Transaction

variable {env : PatchEnv} {m m' : HlModule} {patch : HlPatch}

structure SameSlots (m m' : HlModule) : Prop where
  functions : m'.functions = m.functions
  natives : m'.natives = m.natives
  capacity : m'.functionsCapacity = m.functionsCapacity

theorem SameSlots.trans {m'' : HlModule} (h : SameSlots m m') (h' : SameSlots m' m'') :
    SameSlots m m'' :=
  ⟨h'.functions.trans h.functions, h'.natives.trans h.natives, h'.capacity.trans h.capacity⟩

theorem SameSlots.slotCount (h : SameSlots m m') : m'.slotCount = m.slotCount := by
  rw [HlModule.slotCount, h.functions, h.natives, HlModule.slotCount]

theorem sameSlots_of_tables (h : m'.tables = m.tables) : SameSlots m m' := by
  refine ⟨?_, ?_, ?_⟩
  · have hfield := congrArg HlModule.functions h
    exact hfield
  · have hfield := congrArg HlModule.natives h
    exact hfield
  · have hfield := congrArg HlModule.functionsCapacity h
    exact hfield

theorem Undoes.sameSlots {staged : List PatchObjectFieldStage} (h : Undoes m staged m') :
    SameSlots m m' := by
  rw [Undoes, unstage_eq] at h
  obtain ⟨hfunctions, hnatives, hcapacity⟩ := sameSlots_of_tables h
  exact ⟨hfunctions, hnatives, hcapacity⟩

/-- What the checks have found about the slots of a patch. -/
structure TakesSlots (m : HlModule) (patch : HlPatch) : Prop where
  some_function : patch.functions ≠ []
  distinct : (patch.functions.map fun f => f.findex.toNat).Nodup
  in_use : ∀ f ∈ patch.functions, f.findex.toNat < m.slotCount + patch.addedFunctions.length
  fits : m.functions.length + patch.addedFunctions.length ≤ m.functionsCapacity

theorem PatchLayout.findex_lt {layout : PatchLayout} {findex : Int}
    (h : (layout.function findex).isSome) : 0 ≤ findex ∧ findex.toNat < layout.indexes.length := by
  unfold PatchLayout.function at h
  split at h
  · cases h
  · next hrange => omega

theorem stagePatchLayout_length {layout : PatchLayout} (h : stagePatchLayout env m patch = .ok layout) :
    layout.indexes.length ≤ m.slotCount + patch.addedFunctions.length ∧
      m.functions.length + patch.addedFunctions.length ≤ m.functionsCapacity := by
  simp only [stagePatchLayout, except_bind_eq_ok, require_eq_ok, decide_eq_true_eq] at h
  obtain ⟨_, -, _, hfits, _, -, _, -, hlayout⟩ := h
  refine ⟨?_, hfits⟩
  have hset : ∀ (natives : List (Nat × Nat)) (indexes : List Int),
      (natives.foldl (fun indexes p => indexes.set p.1
        ((((m.functions ++ patch.addedFunctions.map fun a => (⟨a.findex, a.type.toNat⟩ : HlFunction))
          ).length + p.2 : Nat) : Int)) indexes).length = indexes.length := by
    intro natives
    induction natives with
    | nil => exact fun _ => rfl
    | cons native natives ih => exact fun indexes => (ih _).trans (List.length_set ..)
  cases hlayout
  rw [hset, List.length_append, List.length_take, List.length_map, List.length_range]
  omega

theorem takesSlots_of_checkPatch {result : PatchLayout × Nat}
    (h : checkPatch env m patch = .ok result) : TakesSlots m patch := by
  have hvalid := fun f hf => validateFunction_of_checkPatch (f := f) h hf
  simp only [checkPatch, except_bind_eq_ok, require_eq_ok] at h
  obtain ⟨_, -, _, hsome, _, -, _, -, _, -, _, -, _, -, size, -, _, -, layout, hlayout, _, -, _,
    hfunctions, _, -, _, -, _, -, _, -, hresult⟩ := h
  cases hresult
  obtain ⟨hlength, hfits⟩ := stagePatchLayout_length hlayout
  have hfindex : ∀ f ∈ patch.functions, 0 ≤ f.findex ∧ f.findex.toNat < layout.indexes.length := by
    intro f hf
    obtain ⟨k, hk⟩ := hvalid f hf
    apply PatchLayout.findex_lt
    unfold validateFunction at hk
    cases hslot : layout.function f.findex with
    | none => simp [hslot] at hk
    | some live => rfl
  refine ⟨of_decide_eq_true hsome, ?_, fun f hf => Nat.lt_of_lt_of_le (hfindex f hf).2 hlength, hfits⟩
  rw [List.nodup_iff_pairwise_ne, List.pairwise_map, List.pairwise_iff_getElem]
  intro i j hi hj hij heq
  have hcheck := forEach_ok hfunctions (List.getElem?_eq_getElem hj)
  simp only [except_bind_eq_ok, require_eq_ok, Nat.zero_add, List.all_eq_true] at hcheck
  obtain ⟨_, hdistinct, -⟩ := hcheck
  have hne := hdistinct patch.functions[i] (List.mem_take_iff_getElem.2 ⟨i, by omega, rfl⟩)
  have hi_pos := (hfindex _ (List.getElem_mem hi)).1
  have hj_pos := (hfindex _ (List.getElem_mem hj)).1
  exact of_decide_eq_true hne (by omega)

theorem sameSlots_foldl {α : Type} {f : HlModule → α → HlModule} (h : ∀ m a, SameSlots m (f m a))
    (l : List α) (m : HlModule) : SameSlots m (l.foldl f m) := by
  induction l generalizing m with
  | nil => exact ⟨rfl, rfl, rfl⟩
  | cons a l ih => exact (h m a).trans (ih _)

theorem publishAddedFunctions_slots (patch : HlPatch) (m : HlModule) :
    (publishAddedFunctions patch m).slotCount = m.slotCount + patch.addedFunctions.length ∧
      (publishAddedFunctions patch m).natives = m.natives ∧
      (publishAddedFunctions patch m).functionsCapacity = m.functionsCapacity := by
  unfold publishAddedFunctions
  generalize patch.addedFunctions = added
  induction added generalizing m with
  | nil => exact ⟨rfl, rfl, rfl⟩
  | cons a added ih =>
    obtain ⟨hcount, hnatives, hcapacity⟩ := ih _
    refine ⟨hcount.trans ?_, hnatives, hcapacity⟩
    simp only [HlModule.slotCount, List.length_append, List.length_cons, List.length_nil]
    omega

theorem commitPatchObjectFields_slots (staged : List PatchObjectFieldStage) (m : HlModule) :
    SameSlots m (commitPatchObjectFields staged m) := by
  apply sameSlots_foldl
  intro m stage
  exact ⟨rfl, rfl, rfl⟩

theorem commitPatch_eq (env : PatchEnv) (patch : HlPatch) (globalsSize code : Nat)
    (offsets : List Nat) (s : PatchState) :
    ∃ m, SameSlots s.module m ∧ (commitPatch env patch globalsSize code offsets s).functions =
        (publishAddedFunctions patch m).functions ∧
      (commitPatch env patch globalsSize code offsets s).natives = (publishAddedFunctions patch m).natives ∧
      (commitPatch env patch globalsSize code offsets s).functionsCapacity =
        (publishAddedFunctions patch m).functionsCapacity := by
  refine ⟨_, ?_, rfl, rfl, rfl⟩
  refine SameSlots.trans ?_ (sameSlots_foldl ?_ _ _)
  · refine SameSlots.trans ?_ (commitPatchObjectFields_slots _ _)
    refine @SameSlots.trans _ (foldIdx _ _ _ _) _ ?_ ⟨rfl, rfl, rfl⟩
    refine foldIdx_keeps (fun i global m _ hm => hm.trans ?_) ⟨rfl, rfl, rfl⟩
    dsimp only
    split <;> exact ⟨rfl, rfl, rfl⟩
  · rintro m ⟨f, offset⟩
    dsimp only
    unfold redirectSlot
    split <;> exact ⟨rfl, rfl, rfl⟩

theorem applied_slots (h : hlModuleApplyPatch env m patch = (m', none)) :
    TakesSlots m patch ∧ m'.slotCount = m.slotCount + patch.addedFunctions.length ∧
      m'.natives = m.natives ∧ m'.functionsCapacity = m.functionsCapacity := by
  unfold hlModuleApplyPatch at h
  cases hcheck : checkPatch env m patch with
  | error e => simp [hcheck] at h
  | ok result =>
    obtain ⟨layout, globalsSize⟩ := result
    simp only [hcheck] at h
    have hkeeps := stagePatch_recoverable hcheck
    unfold finalState at hkeeps
    cases hstage : stagePatch env patch layout (.start m) with
    | error e s => simp [hstage] at h
    | ok staged s =>
      obtain ⟨code, offsets⟩ := staged
      simp only [hstage, Prod.mk.injEq, and_true] at h hkeeps
      have hsame := hkeeps.undoes.sameSlots
      obtain ⟨m₁, hbefore, hfunctions, hnatives, hcapacity⟩ :=
        commitPatch_eq env patch globalsSize code offsets s
      obtain ⟨hcount, hkeep⟩ := publishAddedFunctions_slots patch m₁
      have htotal := hsame.trans hbefore
      subst h
      refine ⟨takesSlots_of_checkPatch hcheck, ?_, ?_, ?_⟩
      · rw [HlModule.slotCount, hfunctions, hnatives, ← HlModule.slotCount, hcount, htotal.slotCount]
      · rw [hnatives, hkeep.1, htotal.natives]
      · rw [hcapacity, hkeep.2, htotal.capacity]

theorem clearPatchTypes_slots (patch : HlPatch) (m : HlModule) :
    SameSlots m (clearPatchTypes patch m) := by
  unfold clearPatchTypes
  split <;> exact ⟨rfl, rfl, rfl⟩

theorem refused_slots {e : String} (h : hlModuleApplyPatch env m patch = (m', some e)) :
    SameSlots m m' := by
  unfold hlModuleApplyPatch at h
  cases hcheck : checkPatch env m patch with
  | error e =>
    simp only [hcheck, Prod.mk.injEq] at h
    rw [← h.1]
    exact clearPatchTypes_slots patch m
  | ok result =>
    obtain ⟨layout, globalsSize⟩ := result
    have hfits := fits_of_checkPatch hcheck
    simp only [hcheck] at h
    have hkeeps := stagePatch_recoverable hcheck
    unfold finalState at hkeeps
    cases hstage : stagePatch env patch layout (.start m) with
    | ok staged s => simp [hstage] at h
    | error e s =>
      simp only [hstage, Prod.mk.injEq] at h hkeeps
      rw [← h.1]
      exact sameSlots_of_tables (failPatch_recovers hfits hkeeps)

/-- The allocations and the tables of a module. -/
structure PatchedModule.Accounted (p : PatchedModule) : Prop where
  sound : Sound p.module.slotCount p.codes []
  owners : p.codes.owners.length = p.module.functionsCapacity + p.module.natives.length

theorem commitCodes_owners (targets : Bool) (held : Nat → Bool) (code slots : Nat)
    (functions : List Nat) (s : PatchCodes) :
    (commitCodes targets held code slots functions s).owners =
      functions.foldl (fun owners slot => owners.set slot (some s.codes.length)) s.owners := by
  have htake : ∀ (l : List Nat) (st : PatchCodes × List Nat),
      (l.foldl (takeSlot targets s.codes.length) st).1.owners =
        l.foldl (fun owners slot => owners.set slot (some s.codes.length)) st.1.owners := by
    intro l
    induction l with
    | nil => exact fun _ => rfl
    | cons slot l ih =>
      intro st
      rw [List.foldl_cons, ih, (takeSlot_took targets s.codes.length st slot).owners, List.foldl_cons]
  have hdrop : ∀ (l : List Nat) (t : PatchCodes), (l.foldl (dropSuperseded held) t).owners = t.owners := by
    intro l
    induction l with
    | nil => exact fun _ => rfl
    | cons a l ih =>
      intro t
      rw [List.foldl_cons, ih]
      unfold dropSuperseded
      split <;> rfl
  unfold commitCodes
  dsimp only
  rw [hdrop]
  exact htake functions (s.allocate code, [])

theorem foldl_set_spec (owner : Option Nat) (slots : List Nat) (owners : List (Option Nat))
    (hslots : ∀ slot ∈ slots, slot < owners.length) :
    (slots.foldl (fun owners slot => owners.set slot owner) owners).length = owners.length ∧
      ∀ slot, (slots.foldl (fun owners slot => owners.set slot owner) owners).getD slot none =
        if slot ∈ slots then owner else owners.getD slot none := by
  induction slots generalizing owners with
  | nil => exact ⟨rfl, fun slot => (if_neg List.not_mem_nil).symm⟩
  | cons first rest ih =>
    have hfirst := hslots first List.mem_cons_self
    obtain ⟨hlength, hget⟩ := ih (owners.set first owner) fun slot hslot => by
      rw [List.length_set]
      exact hslots slot (List.mem_cons_of_mem first hslot)
    refine ⟨hlength.trans (List.length_set ..), fun slot => (hget slot).trans ?_⟩
    simp only [List.mem_cons, List.getD_eq_getElem?_getD, List.getElem?_set]
    by_cases hslot : slot = first
    · simp [hslot, hfirst]
    · simp [hslot, Ne.symm hslot]

theorem slots_inside {p : PatchedModule} (h : p.Accounted) {a : Application}
    (happly : hlModuleApplyPatch a.env p.module a.patch = (m, none)) :
    ∀ slot ∈ a.patch.functions.map fun f => f.findex.toNat, slot < m.slotCount ∧ slot < p.codes.owners.length := by
  obtain ⟨htakes, hcount, -⟩ := applied_slots happly
  intro slot hslot
  obtain ⟨f, hf, rfl⟩ := List.mem_map.1 hslot
  have hlt := htakes.in_use f hf
  have hfits := htakes.fits
  rw [h.owners, hcount]
  simp only [HlModule.slotCount] at hlt ⊢
  omega

theorem accounted_apply {p : PatchedModule} (h : p.Accounted) (a : Application) :
    (p.apply a).Accounted := by
  unfold PatchedModule.apply
  cases happly : hlModuleApplyPatch a.env p.module a.patch with
  | mk m result =>
  cases result with
  | some e =>
    have hsame := refused_slots happly
    have hcodes : Sound p.module.slotCount (if a.allocated then
        patchCodeFree (p.codes.allocate (a.env.jitPatchCode.getD 0)) p.codes.codes.length
      else p.codes) [] := by
      split
      · exact h.sound.discard _
      · exact h.sound
    refine ⟨?_, ?_⟩
    · rw [hsame.slotCount]
      exact hcodes
    · rw [hsame.capacity, hsame.natives, ← h.owners]
      dsimp only
      split <;> rfl
  | none =>
    obtain ⟨htakes, hcount, hnatives, hcapacity⟩ := applied_slots happly
    have hinside := slots_inside h happly
    refine ⟨h.sound.commit ?_ _ a.held _ ?_ htakes.distinct hinside, ?_⟩
    · show p.module.slotCount ≤ m.slotCount
      omega
    · simpa using htakes.some_function
    · rw [commitCodes_owners, (foldl_set_spec _ _ _ fun slot hslot => (hinside slot hslot).2).1, h.owners, hcapacity, hnatives]

theorem accounted_load (m : HlModule) : (PatchedModule.load m).Accounted := by
  have hnone : ∀ a, some a ∉ (PatchedModule.load m).codes.owners := by
    intro a ha
    cases List.eq_of_mem_replicate ha
  have hzero : ∀ a, (PatchedModule.load m).codes.owned a = 0 :=
    fun a => owned_eq_zero_of_not_mem (hnone a)
  refine ⟨⟨⟨?_, ?_, ?_⟩, ?_, ?_, List.nodup_nil, ?_, List.Pairwise.nil, ?_, ?_⟩, ?_⟩
  · exact fun a ha => absurd ha (hnone a)
  · exact fun a ha => absurd ha (Nat.not_lt_zero a)
  · intro a
    rw [if_neg fun hbad => Nat.not_lt_zero a hbad.2.1]
    rfl
  · exact fun a => rfl
  · intro slot _
    cases hget : (PatchedModule.load m).codes.owners.getD slot none with
    | none => rfl
    | some a => exact absurd (mem_owners_of_getD hget).2 (hnone a)
  · exact fun a => ⟨fun ha => absurd ha List.not_mem_nil, fun ha => absurd ha (hnone a)⟩
  · intro live hlive
    cases hlive
  · exact fun f hf => absurd hf List.not_mem_nil
  · exact List.length_replicate

theorem accounted_run (m : HlModule) (applications : List Application) :
    (applications.foldl PatchedModule.apply (.load m)).Accounted := by
  have hrun : ∀ p : PatchedModule, p.Accounted → (applications.foldl PatchedModule.apply p).Accounted := by
    induction applications with
    | nil => exact fun p hp => hp
    | cons a applications ih => exact fun p hp => ih _ (accounted_apply hp a)
  exact hrun _ (accounted_load m)

theorem Ledger.freed_nodup {s : PatchCodes} (h : Ledger s [] []) : s.freedCodes.Nodup := by
  rw [List.nodup_iff_count]
  intro a
  have hfate := h.fate a
  split at hfate <;> omega

/-- A patch that is taken gives exactly the slots of its functions to its own allocation, which is then live. -/
def PatchedModule.Takes (p : PatchedModule) (a : Application) : Prop :=
  (hlModuleApplyPatch a.env p.module a.patch).2 = none → p.codes.codes.length ∈ (p.apply a).codes.entries ∧
    ∀ slot, (p.apply a).codes.owners.getD slot none =
      if slot ∈ a.patch.functions.map (fun f => f.findex.toNat) then some p.codes.codes.length
      else p.codes.owners.getD slot none

theorem accounted_takes {p : PatchedModule} (h : p.Accounted) (a : Application) : p.Takes a := by
  intro htaken
  have happly : hlModuleApplyPatch a.env p.module a.patch =
      ((hlModuleApplyPatch a.env p.module a.patch).1, none) := Prod.ext rfl htaken
  have howners : ∀ slot, (p.apply a).codes.owners.getD slot none =
      if slot ∈ a.patch.functions.map (fun f => f.findex.toNat) then some p.codes.codes.length
      else p.codes.owners.getD slot none := by
    unfold PatchedModule.apply
    rw [happly]
    dsimp only
    rw [commitCodes_owners]
    exact (foldl_set_spec _ _ _ fun slot hslot => (slots_inside h happly slot hslot).2).2
  refine ⟨((accounted_apply h a).sound.live_iff _).2 ?_, howners⟩
  obtain ⟨f, hf⟩ := List.exists_mem_of_ne_nil _ (applied_slots happly).1.some_function
  exact (mem_owners_of_getD ((howners f.findex.toNat).trans (if_pos (List.mem_map.2 ⟨f, hf, rfl⟩)))).2

/-- The ownership of patch code, over any sequence of patches and at the release of the module. -/
theorem patch_code_ownership (m : HlModule) (applications : List Application) :
    let p := applications.foldl PatchedModule.apply (.load m)
    (∀ a, a < p.codes.codes.length → (p.codes.code a).references = p.codes.owners.count (some a)) ∧
      (∀ a, p.Takes a) ∧
      (p.codes.entries.Nodup ∧ ∀ a, a ∈ p.codes.entries ↔ some a ∈ p.codes.owners) ∧
      (p.codes.entries.Pairwise fun a b => (p.codes.code a).code ≤ (p.codes.code b).code) ∧
      (∀ live, p.codes.live = some live → live.entries.length ≤ live.capacity) ∧
      (p.codes.freedCodes.Nodup ∧ ∀ f ∈ p.codes.freed, f.references = 0 ∧ f.live = false) ∧
      (∀ f ∈ (hlModulePatchReleaseAll p.module.slotCount p.codes).freed, f.references = 0 ∧ f.live = false) ∧
      (hlModulePatchReleaseAll p.module.slotCount p.codes).freedCodes.Perm
        (List.range p.codes.codes.length) := by
  intro p
  have haccounted := accounted_run m applications
  have hsound : Sound p.module.slotCount p.codes [] := haccounted.sound
  obtain ⟨hreleased, hall⟩ := hsound.release
  exact ⟨hsound.ledger.references, accounted_takes haccounted, ⟨hsound.live_nodup, hsound.live_iff⟩,
    hsound.live_sorted, hsound.room, ⟨hsound.ledger.freed_nodup, hsound.freed⟩, hreleased, hall⟩

end HashLink
