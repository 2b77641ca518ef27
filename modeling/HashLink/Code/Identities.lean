import Mathlib.Data.List.Nodup
import HashLink.Code.ReaderBounds

/-!
The stable ids of the functions of a file. An identity section gives ids to the functions it names;
the ids of a section are checked against each other, those of two sections are not. A function no
section names falls back on its index, which is not checked against the ids the sections give. The
ids of an accepted file are therefore distinct exactly when what the file declares keeps them apart.
-/

namespace HashLink.Code

open Sticky

/-- The indices of the functions of a file, in order, and the identities of its sections: a stable
id and the index of the function it is for. -/
structure DeclaredIdentities where
  findexes : List Nat
  identities : List (Nat × Nat)
  deriving DecidableEq, Repr

def declaredIdentity : ReadM (Nat × Nat) := do
  let stableId ← hlReadUindex
  let functionIndex ← hlReadUindex
  let _ ← hlSkipString
  let _ ← hlSkipString
  let _ ← hlSkipString
  let _ ← hlReadIndex
  let _ ← hlReadIndex
  let _ ← hlReadUindex
  let _ ← hlReadUindex
  return (stableId, functionIndex)

def declaredSection (data : Bytes) (size : Nat) : ReadM (List (Nat × Nat)) :=
  withSection data size do
    let count ← hlReadUindex
    collect declaredIdentity count

def declaredDebugSection : ReadM (List (Nat × Nat)) := do
  let kind ← hlReadUindex
  let version ← hlReadUindex
  let _ ← hlReadUindex
  let size ← hlReadUindex
  let data ← hlReadBytes (← get).fresh size
  if kind = 1 ∧ version = 1 then declaredSection data size else return []

def declaredDebugSections (c : HlHeader) : ReadM (List (Nat × Nat)) := do
  if 7 ≤ c.version then
    let ndebugsections ← hlReadUindex
    let sections ← collect declaredDebugSection ndebugsections
    return sections.flatten
  else return []

def declaredIdentitiesM : ReadM DeclaredIdentities := do
  let c ← hlReadHeader
  let _ ← collect hlReadI32 c.nints
  let _ ← collect hlReadDouble c.nfloats
  let _ ← hlReadStrings c.nstrings
  let _ ← hlReadBytesTable c
  let (ndebugfiles, _) ← hlReadDebugFiles c
  let _ ← collect (hlReadTypeEntry c) c.ntypes
  let _ ← collect (hlGetType c) c.nglobals
  let _ ← collect (hlReadNative c) c.nnatives
  let functions ← collect (hlReadFunctionEntry c ndebugfiles) c.nfunctions
  let _ ← collect hlReadConstant c.nconstants
  let identities ← declaredDebugSections c
  return { findexes := functions.map (·.findex), identities }

def declaredIdentities (data : Bytes) (size : BitVec 32) (fresh : Bytes) :
    Option DeclaredIdentities :=
  match declaredIdentitiesM (.start data size.toInt fresh) with
  | .ok d _ => some d
  | .error _ _ => none

variable {identities : List (Nat × Nat)} {e : Nat × Nat}

namespace DeclaredIdentities

variable (d : DeclaredIdentities)

/-- The function an identity is for: the first one that has its index. -/
def target (e : Nat × Nat) : Option Nat := d.findexes.findIdx? (· = e.2)

/-- Some section has an identity for the function. -/
def Names (i : Nat) : Prop := ∃ e ∈ d.identities, d.target e = some i

structure Apart : Prop where
  /-- No two identities give the same id, be they of one section or of two. -/
  identities : (d.identities.map Prod.fst).Nodup
  /-- No identity gives an id that a function without identity has as its index. -/
  fallback : ∀ (i f : Nat), d.findexes[i]? = some f → ¬d.Names i → ∀ e ∈ d.identities, e.1 ≠ f
  /-- No two functions without identity have the same index. -/
  unnamed : ∀ (i j f : Nat), d.findexes[i]? = some f → d.findexes[j]? = some f → ¬d.Names i → ¬d.Names j → i = j

/-- The table of ids holds what the identities say, each for a function of its own. -/
structure Tabled (stableIds : List (Option Nat)) : Prop where
  length : stableIds.length = d.findexes.length
  entry : ∀ (i id : Nat), stableIds[i]? = some (some id) ↔ ∃ e ∈ d.identities, e.1 = id ∧ d.target e = some i
  targets : ∀ e ∈ d.identities, ∃ i, d.target e = some i
  own : (d.identities.map d.target).Nodup

def assigned (stableIds : List (Option Nat)) : List Nat :=
  List.zipWith (fun id f => id.getD f) stableIds d.findexes

variable {d} {stableIds : List (Option Nat)}

theorem target_lt {i : Nat} (h : d.target e = some i) : i < d.findexes.length := by
  obtain ⟨hi, -⟩ := List.findIdx?_eq_some_iff_getElem.mp h
  exact hi

namespace Tabled

theorem assigned_named (h : d.Tabled stableIds) {i : Nat} (he : e ∈ d.identities) (ht : d.target e = some i) :
    (d.assigned stableIds)[i]? = some e.1 := by
  have hid := (h.entry i e.1).mpr ⟨e, he, rfl, ht⟩
  have hf := List.getElem?_eq_getElem (target_lt ht)
  simp [assigned, List.getElem?_zipWith, hid, hf]

theorem assigned_unnamed (h : d.Tabled stableIds) {i f : Nat} (hf : d.findexes[i]? = some f)
    (hn : ¬d.Names i) : (d.assigned stableIds)[i]? = some f := by
  obtain ⟨hi, -⟩ := List.getElem?_eq_some_iff.mp hf
  have hlt : i < stableIds.length := h.length.symm ▸ hi
  have hid := List.getElem?_eq_getElem hlt
  cases hv : stableIds[i] with
  | none => simp [assigned, List.getElem?_zipWith, hid, hf, hv]
  | some id =>
    obtain ⟨e, he, -, ht⟩ := (h.entry i id).mp (hid.trans (congrArg some hv))
    exact absurd ⟨e, he, ht⟩ hn

theorem assigned_cases (h : d.Tabled stableIds) {i id : Nat} (hi : (d.assigned stableIds)[i]? = some id) :
    (∃ e ∈ d.identities, e.1 = id ∧ d.target e = some i) ∨ (d.findexes[i]? = some id ∧ ¬d.Names i) := by
  by_cases hn : d.Names i
  · obtain ⟨e, he, ht⟩ := hn
    have hnamed := (h.assigned_named he ht).symm.trans hi
    exact .inl ⟨e, he, Option.some.inj hnamed, ht⟩
  · obtain ⟨hlt, -⟩ := List.getElem?_eq_some_iff.mp hi
    have hlt : i < d.findexes.length := by
      simp only [assigned, List.length_zipWith, h.length, Nat.min_self] at hlt
      exact hlt
    have hf := List.getElem?_eq_getElem hlt
    have hvalue := Option.some.inj ((h.assigned_unnamed hf hn).symm.trans hi)
    exact .inr ⟨hf.trans (congrArg some hvalue), hn⟩

theorem own_inj (h : d.Tabled stableIds) {e' : Nat × Nat} (he : e ∈ d.identities) (he' : e' ∈ d.identities)
    (heq : d.target e = d.target e') : e = e' :=
  List.inj_on_of_nodup_map h.own he he' heq

theorem apart (h : d.Tabled stableIds) (hnodup : (d.assigned stableIds).Nodup) : d.Apart := by
  have hinj : ∀ {i j id : Nat}, (d.assigned stableIds)[i]? = some id →
      (d.assigned stableIds)[j]? = some id → i = j := by
    intro i j id hi hj
    obtain ⟨hlt, -⟩ := List.getElem?_eq_some_iff.mp hi
    exact (List.getElem?_inj hlt hnodup).mp (hi.trans hj.symm)
  refine ⟨?_, ?_, ?_⟩
  · refine List.Nodup.map_on ?_ h.own.of_map
    intro e he e' he' heq
    obtain ⟨i, hi⟩ := h.targets e he
    obtain ⟨j, hj⟩ := h.targets e' he'
    have hij := hinj (h.assigned_named he hi) (heq ▸ h.assigned_named he' hj)
    exact h.own_inj he he' (hi.trans (hij ▸ hj.symm))
  · rintro i f hf hn e he rfl
    obtain ⟨j, hj⟩ := h.targets e he
    have hij := hinj (h.assigned_unnamed hf hn) (h.assigned_named he hj)
    exact hn ⟨e, he, hij ▸ hj⟩
  · intro i j f hi hj hni hnj
    exact hinj (h.assigned_unnamed hi hni) (h.assigned_unnamed hj hnj)

theorem nodup (h : d.Tabled stableIds) (hapart : d.Apart) : (d.assigned stableIds).Nodup := by
  rw [List.nodup_iff_getElem?_ne_getElem?]
  intro i j hij hj heq
  have hjd := List.getElem?_eq_getElem hj
  suffices i = j by omega
  rcases h.assigned_cases (heq.trans hjd) with ⟨e, he, hid, hi⟩ | ⟨hf, hn⟩ <;>
    rcases h.assigned_cases hjd with ⟨e', he', hid', hj'⟩ | ⟨hf', hn'⟩
  · have hsame := List.inj_on_of_nodup_map hapart.identities he he' (hid.trans hid'.symm)
    exact Option.some.inj (hi.symm.trans (hsame ▸ hj'))
  · exact absurd hid (hapart.fallback j _ hf' hn' e he)
  · exact absurd hid' (hapart.fallback i _ hf hn e' he')
  · exact hapart.unnamed i j _ hf hf' hn hn'

theorem nodup_iff (h : d.Tabled stableIds) : (d.assigned stableIds).Nodup ↔ d.Apart :=
  ⟨h.apart, h.nodup⟩

theorem snoc {findexes : List Nat} {i : Nat} (h : Tabled ⟨findexes, identities⟩ stableIds)
    (ht : findexes.findIdx? (· = e.2) = some i) (hfree : (stableIds.getD i none).isSome = false) :
    Tabled ⟨findexes, identities ++ [e]⟩ (stableIds.set i (some e.1)) := by
  have hnone : ∀ e' ∈ identities, findexes.findIdx? (· = e'.2) ≠ some i := by
    intro e' he' ht'
    have hentry := (h.entry i e'.1).mpr ⟨e', he', rfl, ht'⟩
    simp [List.getD_eq_getElem?_getD, hentry] at hfree
  have hlt : i < stableIds.length := h.length.symm ▸ @target_lt e ⟨findexes, []⟩ i ht
  refine ⟨by simpa using h.length, ?_, ?_, ?_⟩
  · intro j id
    have hold := h.entry j id
    simp only [target, List.mem_append, List.mem_singleton] at hold ⊢
    by_cases hj : i = j
    · subst hj
      rw [List.getElem?_set_self hlt]
      constructor
      · intro hid
        exact ⟨e, .inr rfl, Option.some.inj (Option.some.inj hid), ht⟩
      · rintro ⟨e', he' | rfl, hid, ht'⟩
        · exact absurd ht' (hnone e' he')
        · rw [hid]
    · rw [List.getElem?_set_ne hj, hold]
      constructor
      · rintro ⟨e', he', hid, ht'⟩
        exact ⟨e', .inl he', hid, ht'⟩
      · rintro ⟨e', he' | rfl, hid, ht'⟩
        · exact ⟨e', he', hid, ht'⟩
        · exact absurd (Option.some.inj (ht.symm.trans ht')) hj
  · intro e' he'
    rcases List.mem_append.mp he' with he' | he'
    · exact h.targets e' he'
    · rw [List.mem_singleton.mp he']
      exact ⟨i, ht⟩
  · rw [List.map_append, List.nodup_append]
    refine ⟨h.own, List.nodup_singleton _, ?_⟩
    rintro _ ht' _ hlast rfl
    obtain ⟨e', he', heq⟩ := List.mem_map.mp ht'
    exact hnone e' he' (heq.trans ((List.mem_singleton.mp hlast).trans ht))

end Tabled

end DeclaredIdentities

open DeclaredIdentities (Tabled)

variable {functions : List HlFunction} {ids ids' : HlIdentities} {r s : HlReader}

theorem chkError_eq_ok {α : Type} {f : Unit → ReadM α} {a : α} (h : (chkError >>= f) r = .ok a s) :
    r.Clean ∧ f () r = .ok a s := by
  obtain ⟨u, t, hcheck, hrest⟩ := bind_eq_ok.mp h
  obtain ⟨v, t', hget, hthrow⟩ := bind_eq_ok.mp hcheck
  cases hget
  cases herror : r.error with
  | none =>
    rw [herror] at hthrow
    cases hthrow
    exact ⟨herror, hrest⟩
  | some e =>
    rw [herror] at hthrow
    cases hthrow

theorem follows_chkError {α β : Type} {f : Unit → ReadM α} {y : ReadM β} {fits : α → β → Prop}
    (h : Follows (f ()) y fits) : Follows (chkError >>= f) y fits := by
  intro r a s hrun
  exact h r a s (chkError_eq_ok hrun).2

theorem passed_of_returned {α : Type} {c : Prop} [Decidable c] {x : ReadM (Except String α)} {e : String} {a : α}
    (h : (if c then pure (.error e) else x) r = .ok (.ok a) s) : ¬c ∧ x r = .ok (.ok a) s := by
  split at h
  · cases h
  · exact ⟨‹_›, h⟩

theorem hlReadFunctionIdentity_declared (h : hlReadFunctionIdentity functions ids r = .ok (.ok ids') s) :
    ∃ e, declaredIdentity r = .ok e s ∧ ∃ i, functions.findIdx? (·.findex = e.2) = some i ∧
      (ids.stableIds.getD i none).isSome = false ∧
      ids'.stableIds = ids.stableIds.set i (some e.1) := by
  obtain ⟨stableId, r₁, h₁, h⟩ := bind_eq_ok.mp h
  obtain ⟨functionIndex, r₂, h₂, h⟩ := bind_eq_ok.mp h
  obtain ⟨_, r₃, h₃, h⟩ := bind_eq_ok.mp h
  obtain ⟨_, r₄, h₄, h⟩ := bind_eq_ok.mp (passed_of_returned h).2
  obtain ⟨_, r₅, h₅, h⟩ := bind_eq_ok.mp (passed_of_returned h).2
  obtain ⟨_, r₆, h₆, h⟩ := bind_eq_ok.mp (passed_of_returned h).2
  obtain ⟨_, r₇, h₇, h⟩ := bind_eq_ok.mp h
  obtain ⟨_, r₈, h₈, h⟩ := bind_eq_ok.mp h
  obtain ⟨_, r₉, h₉, h⟩ := bind_eq_ok.mp h
  obtain ⟨_, r₁₀, hget, h⟩ := bind_eq_ok.mp (passed_of_returned h).2
  cases hget
  have hread : declaredIdentity r = .ok (stableId, functionIndex) r₉ :=
    bind_eq_ok.mpr ⟨_, r₁, h₁, bind_eq_ok.mpr ⟨_, r₂, h₂, bind_eq_ok.mpr ⟨_, r₃, h₃,
      bind_eq_ok.mpr ⟨_, r₄, h₄, bind_eq_ok.mpr ⟨_, r₅, h₅, bind_eq_ok.mpr ⟨_, r₆, h₆,
      bind_eq_ok.mpr ⟨_, r₇, h₇, bind_eq_ok.mpr ⟨_, r₈, h₈, bind_eq_ok.mpr ⟨_, r₉, h₉,
      rfl⟩⟩⟩⟩⟩⟩⟩⟩⟩
  cases htarget : functions.findIdx? (·.findex = functionIndex) with
  | none =>
    rw [htarget] at h
    cases h
  | some i =>
    rw [htarget] at h
    obtain ⟨hpassed, h⟩ := passed_of_returned h
    cases h
    exact ⟨_, hread, i, htarget, by simpa using (not_or.mp hpassed).2, rfl⟩

def HlIdentities.Holds (functions : List HlFunction) (ids : HlIdentities)
    (identities : List (Nat × Nat)) : Prop :=
  Tabled ⟨functions.map (·.findex), identities⟩ ids.stableIds

theorem HlIdentities.Holds.snoc {i : Nat} (h : ids.Holds functions identities)
    (ht : functions.findIdx? (·.findex = e.2) = some i) (hfree : (ids.stableIds.getD i none).isSome = false)
    (hids : ids'.stableIds = ids.stableIds.set i (some e.1)) :
    ids'.Holds functions (identities ++ [e]) := by
  unfold HlIdentities.Holds
  rw [hids]
  exact Tabled.snoc h (by rw [List.findIdx?_map]; exact ht) hfree

theorem identityLoop_declared {n : Nat} (hheld : ids.Holds functions identities)
    (h : identityLoop functions n ids r = .ok (.ok ids') s) :
    ∃ es, collect declaredIdentity n r = .ok es s ∧ ids'.Holds functions (identities ++ es) := by
  induction n generalizing ids identities r with
  | zero =>
    obtain ⟨_, r₁, hget, h⟩ := bind_eq_ok.mp h
    cases hget
    cases (passed_of_returned h).2
    exact ⟨[], rfl, by simpa using hheld⟩
  | succ n ih =>
    obtain ⟨result, r₁, hone, h⟩ := bind_eq_ok.mp h
    cases result with
    | error e => cases h
    | ok ids₁ =>
      obtain ⟨e, hread, i, ht, hfree, hids⟩ := hlReadFunctionIdentity_declared hone
      obtain ⟨es, hrest, hheld'⟩ := ih (hheld.snoc ht hfree hids) h
      refine ⟨e :: es, bind_eq_ok.mpr ⟨e, r₁, hread, bind_eq_ok.mpr ⟨es, s, hrest, rfl⟩⟩, ?_⟩
      simpa using hheld'

theorem withSection_eq_ok {α : Type} {data : Bytes} {size : Nat} {x : ReadM α} {a : α}
    (h : withSection data size x r = .ok a s) :
    ∃ t, x (.start data size r.fresh) = .ok a t ∧ r.back t = s := by
  unfold withSection at h
  split at h
  · cases h
    exact ⟨_, ‹_›, rfl⟩
  · cases h

theorem hlReadFunctionIdentities_declared {data : Bytes} {size : Nat} (hheld : ids.Holds functions identities)
    (h : hlReadFunctionIdentities functions ids data size r = .ok ids' s) (hclean : s.Clean) :
    ∃ es, declaredSection data size r = .ok es s ∧ ids'.Holds functions (identities ++ es) := by
  obtain ⟨result, r₁, hsection, h⟩ := bind_eq_ok.mp h
  cases result with
  | error e =>
    obtain ⟨_, r₂, hnote, h⟩ := bind_eq_ok.mp h
    cases hnote
    cases h
    exact absurd hclean (by simp [HlReader.Clean])
  | ok ids₁ =>
    cases h
    obtain ⟨t, hinner, hback⟩ := withSection_eq_ok hsection
    obtain ⟨count, t₁, hcount, hloop⟩ := bind_eq_ok.mp hinner
    have hempty : HlIdentities.Holds functions { ids with seen := [] } identities := hheld
    obtain ⟨es, hes, hheld'⟩ := identityLoop_declared hempty hloop
    refine ⟨es, ?_, hheld'⟩
    have hall := bind_eq_ok.mpr ⟨count, t₁, hcount, hes⟩
    unfold declaredSection withSection
    rw [hall, ← hback]

theorem hlReadDebugSection_declared (hheld : ids.Holds functions identities) :
    Follows (hlReadDebugSection functions ids) declaredDebugSection fun ids' es =>
      ids'.Holds functions (identities ++ es) := by
  refine follows_same fun kind => follows_same fun version => follows_same fun _ =>
    follows_same fun size => follows_chkError fun r ids' s h => ?_
  split at h
  · cases h
  obtain ⟨_, r₁, hget, h⟩ := bind_eq_ok.mp h
  cases hget
  obtain ⟨data, r₂, hdata, h⟩ := bind_eq_ok.mp h
  have hrest := (chkError_eq_ok h).2
  by_cases hkind : kind = 1 ∧ version = 1
  · rw [if_pos hkind] at hrest
    obtain ⟨ids₁, r₃, hids, hrest⟩ := bind_eq_ok.mp hrest
    obtain ⟨hclean, hreturn⟩ := chkError_eq_ok hrest
    cases hreturn
    obtain ⟨es, hes, hheld'⟩ := hlReadFunctionIdentities_declared hheld hids hclean
    refine ⟨es, bind_eq_ok.mpr ⟨r, r, rfl, bind_eq_ok.mpr ⟨data, r₂, hdata, ?_⟩⟩, hheld'⟩
    rw [if_pos hkind]
    exact hes
  · rw [if_neg hkind] at hrest
    cases hrest
    refine ⟨[], bind_eq_ok.mpr ⟨r, r, rfl, bind_eq_ok.mpr ⟨data, s, hdata, ?_⟩⟩, by simpa using hheld⟩
    rw [if_neg hkind]
    rfl

theorem hlReadDebugSections_declared (n : Nat) (hheld : ids.Holds functions identities) :
    Follows (hlReadDebugSections functions n ids) (collect declaredDebugSection n) fun ids' es =>
      ids'.Holds functions (identities ++ es.flatten) := by
  induction n generalizing ids identities with
  | zero => exact follows_pure (by simpa using hheld)
  | succ n ih =>
    refine follows_bind (hlReadDebugSection_declared hheld) fun ids₁ es hheld₁ => ?_
    intro r ids₂ s hrun
    obtain ⟨rest, hrest, hheld₂⟩ := ih hheld₁ r ids₂ s hrun
    exact ⟨es :: rest, bind_eq_ok.mpr ⟨rest, s, hrest, rfl⟩, by simpa using hheld₂⟩

theorem HlIdentities.holds_nil (functions : List HlFunction) (names : List (Option (List UInt8))) :
    HlIdentities.Holds functions ⟨functions.map fun _ => none, names, []⟩ [] := by
  refine ⟨by simp, fun i id => ?_, by simp, by simp⟩
  simp only [List.getElem?_map, List.not_mem_nil, false_and, exists_false, iff_false]
  cases functions[i]? <;> simp

theorem hlReadIdentities_declared (c : HlHeader) (functions : List HlFunction) :
    Follows (hlReadIdentities c functions) (declaredDebugSections c) fun ids es =>
      ids.Holds functions es := by
  have hstart := HlIdentities.holds_nil functions (functions.map fun _ => none)
  unfold hlReadIdentities declaredDebugSections
  split
  · refine follows_same fun n => follows_chkError fun r ids s hrun => ?_
    obtain ⟨es, hes, hheld⟩ := hlReadDebugSections_declared n hstart r ids s hrun
    exact ⟨es.flatten, bind_eq_ok.mpr ⟨es, s, hes, rfl⟩, hheld⟩
  · exact follows_pure hstart

/-- The stable ids of a module are those its table gives, with the index of the function for the
entries without one. -/
theorem hlCodeReadM_declared : Follows hlCodeReadM declaredIdentitiesM fun code d =>
    ∃ stableIds, d.Tabled stableIds ∧ code.functionStableIds = d.assigned stableIds ∧
      code.functions.length = d.findexes.length := by
  refine follows_same fun c => follows_same fun _ => follows_chkError <| follows_same fun _ =>
    follows_chkError <| follows_same fun _ => follows_chkError <| follows_same fun _ =>
    follows_same fun files => follows_same fun _ => follows_same fun _ => follows_chkError <|
    follows_same fun _ => follows_chkError <| follows_same fun functions => follows_chkError <|
    follows_same fun _ => follows_bind (hlReadIdentities_declared c functions) fun ids es hheld =>
    follows_pure ⟨ids.stableIds, hheld, ?_, by simp⟩
  simp [DeclaredIdentities.assigned, List.zipWith_map_right]

/-- The functions of an accepted file have distinct stable ids exactly when the file gives no id
twice, be it in one section or in two, no id that is the index of a function without identity, and
no two functions without identity the same index. -/
theorem stable_ids_unique_iff (data : Bytes) (size : BitVec 32) (fresh : Bytes) (code : HlCode)
    (h : accepted data size fresh = some code) :
    code.functionStableIds.length = code.functions.length ∧ (code.functionStableIds.Nodup ↔
        ∃ d, declaredIdentities data size fresh = some d ∧ d.Apart) := by
  unfold accepted hlCodeRead at h
  split at h
  case h_2 => cases h
  case h_1 code' s hrun =>
    cases h
    obtain ⟨d, hd, stableIds, htable, hids, hlength⟩ := hlCodeReadM_declared _ _ _ hrun
    have hdeclared : declaredIdentities data size fresh = some d := by
      unfold declaredIdentities
      rw [hd]
    refine ⟨?_, ?_⟩
    · rw [hids, hlength, DeclaredIdentities.assigned, List.length_zipWith, htable.length]
      exact Nat.min_self _
    · rw [hids, htable.nodup_iff, hdeclared]
      simp

/-- A file with two functions, of the indices 0 and 1, whose two identity sections give them the ids
`id` and `id'`. -/
def twoSections (id id' : UInt8) : List UInt8 :=
  [0x48, 0x4C, 0x42, 7, 0, 0, 0, 0, 0, 2, 0, 0, 2, 0, 0, 0, 0, 0, 0, 0, 0, 0, 0, 0, 10, 0, 0,
    1, 0, 1, 1, 0, 67, 0, 1, 1, 1, 1, 0, 67, 0, 2,
    1, 1, 0, 10, 1, id, 0, 0, 0, 0, 0, 0, 0, 0,
    1, 1, 0, 10, 1, id', 1, 0, 0, 0, 0, 0, 0, 0]

theorem stable_ids_unique_twoSections :
    ∃ code, accepted (bytesOf (twoSections 5 7)) 70 (fun _ => 0) = some code ∧
      code.functions.length = 2 ∧ code.functionStableIds.Nodup := by
  have hread : ((accepted (bytesOf (twoSections 5 7)) 70 fun _ => 0).map fun code =>
      code.functions.length) = some 2 := by decide +kernel
  have hdeclared : declaredIdentities (bytesOf (twoSections 5 7)) 70 (fun _ => 0) =
      some ⟨[0, 1], [(5, 0), (7, 1)]⟩ := by decide +kernel
  obtain ⟨code, haccepted, hfunctions⟩ := Option.map_eq_some_iff.mp hread
  refine ⟨code, haccepted, hfunctions, ?_⟩
  rw [(stable_ids_unique_iff _ _ _ code haccepted).2]
  have hnamed : ∀ (i f : Nat), ([0, 1] : List Nat)[i]? = some f →
      DeclaredIdentities.Names ⟨[0, 1], [(5, 0), (7, 1)]⟩ i := by
    intro i f hf
    match i, hf with
    | 0, _ => exact ⟨(5, 0), by simp, rfl⟩
    | 1, _ => exact ⟨(7, 1), by simp, rfl⟩
  exact ⟨_, hdeclared, by decide, fun i f hf hn => absurd (hnamed i f hf) hn,
    fun i j f hi _ hn _ => absurd (hnamed i f hi) hn⟩

/-- The second section gives the id of the first one again. -/
theorem stable_ids_repeated_twoSections :
    (∃ code, accepted (bytesOf (twoSections 5 5)) 70 (fun _ => 0) = some code ∧
      code.functions.map (·.findex) = [0, 1] ∧ code.functionStableIds = [5, 5]) ∧
      ¬∀ data size fresh code, accepted data size fresh = some code → code.functionStableIds.Nodup := by
  have hread : ((accepted (bytesOf (twoSections 5 5)) 70 fun _ => 0).map fun code =>
      (code.functions.map (·.findex), code.functionStableIds)) = some ([0, 1], [5, 5]) := by
    decide +kernel
  obtain ⟨code, haccepted, hids⟩ := Option.map_eq_some_iff.mp hread
  obtain ⟨hfindexes, hstable⟩ := Prod.mk.inj hids
  refine ⟨⟨code, haccepted, hfindexes, hstable⟩, fun hall => ?_⟩
  have hnodup := hall _ _ _ code haccepted
  rw [hstable] at hnodup
  exact absurd hnodup (by decide)

end HashLink.Code
