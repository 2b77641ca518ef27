import HashLink.Patch.Ownership
import HashLink.Patch.Read

/-!
What `hl_patch_read` makes sure of in the lists of a patch it accepts: an added function has a stable
id and a slot no other one has, and no two entries name the same field of a class.
-/

namespace HashLink.Hlp

open Sticky

def AddedApart (a b : HlPatchAddedFunction) : Prop := a.stableId ≠ b.stableId ∧ a.findex ≠ b.findex

def FieldsApart (f g : HlPatchObjectField) : Prop := f.type ≠ g.type ∨ f.field ≠ g.field

/-- The lists of a patch whose entries the reader compares with each other. -/
structure Unrepeated (p : HlPatch) : Prop where
  added : p.addedFunctions.Pairwise AddedApart
  addedIds : ∀ a ∈ p.addedFunctions, 0 ≤ a.stableId
  fields : p.objectFields.Pairwise FieldsApart
  fieldTypes : ∀ f ∈ p.objectFields, 0 ≤ f.type ∧ 0 ≤ f.field

/-- Every value the reader returns has `good`. -/
abbrev Returns {α : Type} (x : PatchReadM α) (good : α → Prop) : Prop :=
  Yields (fun _ => True) x good

theorem yields_demand {ok : Bool} {error : String} : Returns (demand ok error) fun _ => ok = true := by
  unfold demand
  exact yields_ite (fun h => yields_pure h) fun _ => yields_throw _

theorem yields_readGrowing {α : Type} {R : α → α → Prop} {S : α → Prop}
    {entry : List α → PatchReadM α}
    (hentry : ∀ seen, Returns (entry seen) fun a => (∀ b ∈ seen, R b a) ∧ S a) (count : Nat)
    {seen : List α} (hseen : seen.Pairwise R ∧ ∀ a ∈ seen, S a) :
    Returns (readGrowing entry count seen) fun l => l.Pairwise R ∧ ∀ a ∈ l, S a := by
  induction count generalizing seen with
  | zero => exact yields_pure hseen
  | succ count ih =>
    refine yields_then (hentry seen) fun a ha => ih ⟨?_, ?_⟩
    · refine List.pairwise_append.mpr ⟨hseen.1, List.pairwise_singleton R a, ?_⟩
      intro b hb c hc
      cases List.mem_singleton.mp hc
      exact ha.1 b hb
    · intro b hb
      rcases List.mem_append.mp hb with hb | hb
      · exact hseen.2 b hb
      · cases List.mem_singleton.mp hb
        exact ha.2

theorem yields_readAddedFunction (seen : List HlPatchAddedFunction) :
    Returns (readAddedFunction seen) fun a => (∀ b ∈ seen, AddedApart b a) ∧ 0 ≤ a.stableId := by
  refine yields_skip fun stableId => yields_skip fun findex => yields_skip fun type =>
    yields_skip fun name => yields_skip fun _ => yields_then yields_demand fun _ hnew => ?_
  refine yields_pure ⟨fun b hb => ?_, Int.natCast_nonneg stableId⟩
  have hb' := List.all_eq_true.mp hnew b hb
  rw [Bool.and_eq_true, decide_eq_true_eq, decide_eq_true_eq] at hb'
  exact hb'

theorem yields_readObjectField (seen : List HlPatchObjectField) :
    Returns (readObjectField seen) fun f =>
      (∀ g ∈ seen, FieldsApart g f) ∧ 0 ≤ f.type ∧ 0 ≤ f.field := by
  refine yields_skip fun type => yields_skip fun field => yields_skip fun name =>
    yields_skip fun fieldType => yields_then yields_demand fun _ hnew => ?_
  refine yields_pure ⟨fun g hg => ?_, Int.natCast_nonneg type, Int.natCast_nonneg field⟩
  have hg' := List.all_eq_true.mp hnew g hg
  rw [Bool.or_eq_true, decide_eq_true_eq, decide_eq_true_eq] at hg'
  exact hg'

theorem yields_readAddedFunctions :
    Returns readAddedFunctions fun l => l.Pairwise AddedApart ∧ ∀ a ∈ l, 0 ≤ a.stableId :=
  yields_skip fun count => yields_skip fun _ =>
    yields_readGrowing yields_readAddedFunction count ⟨.nil, nofun⟩

theorem yields_readObjectFields :
    Returns readObjectFields fun l =>
      l.Pairwise FieldsApart ∧ ∀ f ∈ l, 0 ≤ f.type ∧ 0 ≤ f.field :=
  yields_skip fun count => yields_skip fun _ => yields_skip fun _ => yields_skip fun _ =>
    yields_readGrowing yields_readObjectField count ⟨.nil, nofun⟩

variable {p : HlPatch} {build : PatchBuild}

theorem Unrepeated.of_eq {q : HlPatch} (h : Unrepeated p) (hadded : q.addedFunctions = p.addedFunctions)
    (hfields : q.objectFields = p.objectFields) :
    Unrepeated q :=
  ⟨hadded ▸ h.added, hadded ▸ h.addedIds, hfields ▸ h.fields, hfields ▸ h.fieldTypes⟩

theorem yields_readSymbols (version : Nat) (h : Unrepeated p) :
    Returns (readSymbols version p) Unrepeated := by
  -- the four tables, each after its hash and its counts
  refine yields_skip fun _ => yields_skip fun _ => yields_skip fun _ => yields_skip fun _ =>
    yields_skip fun _ => ?_
  refine yields_skip fun _ => yields_skip fun _ => yields_skip fun _ => yields_skip fun _ =>
    yields_skip fun _ => ?_
  refine yields_skip fun _ => yields_skip fun _ => yields_skip fun _ => yields_skip fun _ => ?_
  refine yields_skip fun _ => yields_skip fun _ => yields_skip fun _ => yields_skip fun _ =>
    yields_skip fun _ => ?_
  exact yields_pure (h.of_eq rfl rfl)

theorem yields_readDebug (h : Unrepeated p) : Returns (readDebug p) Unrepeated :=
  yields_skip fun _ => yields_skip fun _ => yields_skip fun _ => yields_skip fun _ =>
    yields_pure (h.of_eq rfl rfl)

theorem yields_readGlobals (version : Nat) (h : Unrepeated p) :
    Returns (readGlobals version p) Unrepeated :=
  yields_skip fun _ => yields_skip fun _ => yields_skip fun _ => yields_skip fun _ =>
    yields_skip fun _ => yields_skip fun _ => yields_pure (h.of_eq rfl rfl)

theorem yields_readSectionBody (version tag : Nat) (h : Unrepeated build.file.patch) :
    Returns (readSectionBody version tag build) fun file => Unrepeated file.patch := by
  unfold readSectionBody
  split
  · exact yields_skip fun _ => yields_then (yields_readSymbols version h) fun _ hp => yields_pure hp
  · exact yields_skip fun _ => yields_skip fun _ => yields_pure (h.of_eq rfl rfl)
  · exact yields_skip fun _ => yields_then (yields_readDebug h) fun _ hp => yields_pure hp
  · exact yields_skip fun _ => yields_skip fun _ => yields_pure (h.of_eq rfl rfl)
  · exact yields_skip fun _ => yields_then yields_readAddedFunctions fun _ hadded =>
      yields_pure ⟨hadded.1, hadded.2, h.fields, h.fieldTypes⟩
  · exact yields_skip fun _ => yields_then (yields_readGlobals version h) fun _ hp => yields_pure hp
  · exact yields_skip fun _ => yields_then yields_readObjectFields fun _ hfields =>
      yields_pure ⟨h.added, h.addedIds, hfields.1, hfields.2⟩
  · exact yields_skip fun _ => yields_skip fun _ => yields_pure (h.of_eq rfl rfl)
  · exact yields_skip fun _ => yields_skip fun _ => yields_pure (h.of_eq rfl rfl)
  · exact yields_skip fun _ => yields_pure h

theorem yields_inSection {α : Type} {tag header length : Nat} {x : PatchReadM α} {good : α → Prop}
    (hx : Returns x good) : Returns (inSection tag header length x) good :=
  yields_skip fun _ => yields_skip fun _ => yields_then hx fun _ ha => yields_skip fun _ =>
    yields_ite (fun _ => yields_throw _) fun _ => yields_skip fun _ => yields_pure ha

theorem yields_readSection (version : Nat) (h : Unrepeated build.file.patch) :
    Returns (readSection version build) fun build => Unrepeated build.file.patch := by
  refine yields_skip fun _ => yields_skip fun tag => yields_skip fun length => yields_skip fun _ =>
    yields_ite (fun _ => yields_throw _) fun _ => ?_
  exact yields_then (yields_inSection (yields_readSectionBody version _ h)) fun _ hfile =>
    yields_pure hfile

theorem yields_readSections (version count : Nat) (h : Unrepeated build.file.patch) :
    Returns (readSections version count build) fun build => Unrepeated build.file.patch := by
  induction count generalizing build with
  | zero => exact yields_pure h
  | succ count ih => exact yields_then (yields_readSection version h) fun _ hbuild => ih hbuild

theorem unrepeated_empty (moduleId : List UInt8) (baseRevision revision : Nat) :
    Unrepeated (HlPatchFile.empty moduleId baseRevision revision).patch :=
  ⟨.nil, nofun, .nil, nofun⟩

theorem yields_readHeader :
    Returns readHeader fun (_, file, _) => Unrepeated file.patch := by
  refine yields_skip fun _ => yields_skip fun _ => yields_skip fun _ => yields_skip fun _ =>
    yields_skip fun _ => yields_skip fun moduleId => yields_skip fun baseRevision => ?_
  refine yields_skip fun revision => yields_skip fun _ => yields_skip fun _ => ?_
  exact yields_pure (unrepeated_empty moduleId baseRevision revision)

theorem yields_readPatch : Returns readPatch fun file => Unrepeated file.patch := by
  refine yields_then yields_readHeader fun (version, file, count) hfile => ?_
  have hempty : Unrepeated (PatchBuild.mk file []).file.patch := hfile
  exact yields_then (yields_readSections version count hempty) fun _ hbuild =>
    yields_skip fun _ => yields_skip fun _ => yields_skip fun _ => yields_pure hbuild

theorem hlPatchRead_unrepeated {data : List UInt8} {memory : Nat → Bool} {file : HlPatchFile}
    (h : hlPatchRead data memory = .accepted file) : Unrepeated file.patch := by
  unfold hlPatchRead at h
  split at h
  case h_1 file' r hrun =>
    cases h
    exact (yields_readPatch _ _ _ hrun trivial).2
  case h_2 error fault r hrun =>
    unfold hlPatchFree at h
    split at h <;> cases h
  case h_3 => cases h

end HashLink.Hlp
