import HashLink.Patch.Globals
import HashLink.Patch.Atomicity

/-!
The globals of a module as it is loaded, and the patches it takes from there on. `hl_module_alloc`
lays the globals out in 32-bit arithmetic. The padding of a packed type, which has no size, is the
size so far with its sign changed, so a packed global starts the layout again at zero; the slots
before it may then reach past the size the module ends with, where the first patch puts its own.
-/

namespace HashLink

open Transaction

/-- `hl_pad_size`, as the 32-bit expression it is. -/
def padInt (size : BitVec 32) (kind : HlTypeKind) : BitVec 32 :=
  if kind = .hVoid then 0 else -size &&& (BitVec.ofNat 32 kind.size - 1)

/-- The loop of `hl_module_alloc`: the offsets and the size they end with. -/
def layGlobals : List HlTypeKind → BitVec 32 → List Int × BitVec 32
  | [], gsize => ([], gsize)
  | kind :: rest, gsize =>
    let gsize := gsize + padInt gsize kind
    let (offsets, last) := layGlobals rest (gsize + BitVec.ofNat 32 kind.size)
    (gsize.toInt :: offsets, last)

def HlModule.globalKind (m : HlModule) (g : Option Nat) : HlTypeKind := (m.typeAt (g.getD 0)).kind

/-- `hl_module_alloc`, for the globals. A negative size is more memory than there is. -/
def hlModuleAlloc (m : HlModule) : Option HlModule :=
  let (offsets, gsize) := layGlobals (m.globals.map m.globalKind) 0
  if gsize.toInt < 0 then none
  else some { m with
    globalsIndexes := offsets
    globalsSize := gsize.toNat
    globalsData := List.replicate gsize.toNat 0 }

def hlPatchGlobalReserve : Nat := 16384

/-- `module_reserve_patch_globals`, of a module whose arrays have no room to spare. -/
def moduleReservePatchGlobals (m : HlModule) : Option HlModule :=
  let extra := hlWSize * (hlPatchGlobalReserve + 1)
  let dataCapacity := BitVec.ofNat 32 m.globalsSize + BitVec.ofNat 32 extra
  if dataCapacity.toInt < 0 then none
  else some { m with
    globals := m.globals ++ List.replicate hlPatchGlobalReserve none
    globalsIndexes := m.globalsIndexes ++ List.replicate hlPatchGlobalReserve (-1)
    globalsData := m.globalsData ++ List.replicate extra 0 }

/-- The tables of globals and types as `hl_code_read` has read them. -/
structure HlModule.GlobalsRead (m : HlModule) : Prop where
  count : m.nglobals = m.globals.length
  types : ∀ g ∈ m.globals, ∃ t, g = some t ∧ t < m.ntypes
  arena : m.ntypes ≤ m.types.length

def Loaded (m : HlModule) : Prop :=
  ∃ m₀ m₁ : HlModule, m₀.GlobalsRead ∧ hlModuleAlloc m₀ = some m₁ ∧ moduleReservePatchGlobals m₁ = some m

/-- Every slot ends before the first pointer boundary past the size of the globals. -/
def HlModule.Covered (m : HlModule) : Prop :=
  ∀ g, g < m.nglobals → ∃ t offset, m.HasSlot g t offset ∧ offset + m.globalSize t ≤ padded m.globalsSize

variable {m : HlModule}

theorem layGlobals_length (kinds : List HlTypeKind) (gsize : BitVec 32) :
    (layGlobals kinds gsize).1.length = kinds.length := by
  induction kinds generalizing gsize with
  | nil => rfl
  | cons kind rest ih => simp [layGlobals, ih]

theorem toNat_lt_of_toInt {x : BitVec 32} (h : ¬x.toInt < 0) : x.toNat < 2 ^ 31 := by
  rw [BitVec.toInt_eq_toNat_cond] at h
  have hlt := x.isLt
  split at h <;> omega

/-- Loading leaves as many entries as it found globals, and room for those of the reserve. -/
structure LoadedTables (m₀ m : HlModule) : Prop where
  globals : m.globals = m₀.globals ++ List.replicate hlPatchGlobalReserve none
  indexes : m.globalsIndexes.length = m.globals.length
  nglobals : m.nglobals = m₀.nglobals
  types : m.types = m₀.types ∧ m.ntypes = m₀.ntypes
  capacity : m.globalsDataCapacity = m.globalsSize + hlWSize * (hlPatchGlobalReserve + 1)
  int : m.globalsDataCapacity < 2 ^ 31

theorem loaded_tables {m₀ m₁ : HlModule} (halloc : hlModuleAlloc m₀ = some m₁)
    (hreserve : moduleReservePatchGlobals m₁ = some m) : LoadedTables m₀ m := by
  simp only [hlModuleAlloc] at halloc
  split at halloc
  · cases halloc
  case isFalse hsize =>
    cases halloc
    simp only [moduleReservePatchGlobals] at hreserve
    split at hreserve
    · cases hreserve
    case isFalse hint =>
      cases hreserve
      have hsum := toNat_lt_of_toInt hint
      have hlow := toNat_lt_of_toInt hsize
      simp only [BitVec.toNat_add, BitVec.toNat_ofNat, hlWSize, hlPatchGlobalReserve] at hsum
      refine ⟨rfl, by simp [layGlobals_length], rfl, ⟨rfl, rfl⟩, ?_, ?_⟩
      · simp [HlModule.globalsDataCapacity]
      · simp only [HlModule.globalsDataCapacity, List.length_append, List.length_replicate,
          hlWSize, hlPatchGlobalReserve]
        omega

theorem Loaded.laidOut (h : Loaded m) (hcovered : m.Covered) : m.LaidOut := by
  obtain ⟨m₀, m₁, hread, halloc, hreserve⟩ := h
  have htables := loaded_tables halloc hreserve
  obtain ⟨htypes, hntypes⟩ := htables.types
  have hlength : m.globals.length = m.nglobals + hlPatchGlobalReserve := by
    rw [htables.globals, htables.nglobals, hread.count]
    simp
  refine ⟨htables.indexes, by omega, ?_, fun g hg => ?_, ?_, htables.int⟩
  · rw [hntypes, htypes]
    exact hread.arena
  · obtain ⟨t, offset, hslot, hend⟩ := hcovered g hg
    refine ⟨t, offset, hslot, ?_, hend⟩
    have hg' : g < m₀.globals.length := by
      rw [← hread.count, ← htables.nglobals]
      exact hg
    have htype := hslot.type
    rw [htables.globals, List.getElem?_append_left hg'] at htype
    obtain ⟨t', ht', hlt⟩ := hread.types _ (List.mem_of_getElem? htype)
    cases ht'
    rw [hntypes]
    exact hlt
  · have hpad := padded_lt m.globalsSize
    have hcapacity := htables.capacity
    rw [hlength]
    simp only [hlWSize] at hpad hcapacity ⊢
    omega

theorem size_cases (kind : HlTypeKind) : kind.size = 0 ∨ kind.size = 1 ∨ kind.size = 2 ∨
    kind.size = 4 ∨ kind.size = 8 := by
  cases kind <;> decide

theorem and_mask (x : BitVec 32) {k : Nat} (hk : k < 32) :
    (x &&& (BitVec.ofNat 32 (2 ^ k) - 1)).toNat = x.toNat % 2 ^ k := by
  have hlt : 2 ^ k < 2 ^ 32 := Nat.pow_lt_pow_right (by omega) hk
  have hpos := Nat.two_pow_pos k
  have hmask : (BitVec.ofNat 32 (2 ^ k) - 1).toNat = 2 ^ k - 1 := by
    have hone : (1 : BitVec 32).toNat = 1 := rfl
    rw [BitVec.toNat_sub, BitVec.toNat_ofNat, Nat.mod_eq_of_lt hlt, hone]
    omega
  rw [BitVec.toNat_and, hmask, Nat.and_two_pow_sub_one_eq_mod]

theorem padInt_eq {used : Nat} (hused : used < 2 ^ 32) {kind : HlTypeKind} (hkind : kind ≠ .hPacked) :
    padInt (BitVec.ofNat 32 used) kind = BitVec.ofNat 32 (hlPadSize used kind) := by
  unfold padInt hlPadSize
  by_cases hvoid : kind = .hVoid
  · simp [hvoid]
  have hsize : kind.size ≠ 0 := by
    cases kind <;> first | exact absurd rfl hkind | exact absurd rfl hvoid | decide
  rw [if_neg hvoid, if_neg (by simp [hvoid, hsize])]
  apply BitVec.eq_of_toNat_eq
  have hneg : (-BitVec.ofNat 32 used).toNat = (2 ^ 32 - used) % 2 ^ 32 := by
    rw [BitVec.toNat_neg, BitVec.toNat_ofNat, Nat.mod_eq_of_lt hused]
  rw [BitVec.toNat_ofNat]
  rcases size_cases kind with h | h | h | h | h
  · exact absurd h hsize
  · rw [h, show (1 : Nat) = 2 ^ 0 from rfl, and_mask _ (by decide), hneg]
    omega
  · rw [h, show (2 : Nat) = 2 ^ 1 from rfl, and_mask _ (by decide), hneg]
    omega
  · rw [h, show (4 : Nat) = 2 ^ 2 from rfl, and_mask _ (by decide), hneg]
    omega
  · rw [h, show (8 : Nat) = 2 ^ 3 from rfl, and_mask _ (by decide), hneg]
    omega

theorem padded_next (used : Nat) (kind : HlTypeKind) :
    padded (used + hlPadSize used kind + kind.size) ≤ padded used + hlWSize := by
  simp only [padded_eq, hlPadSize, hlWSize]
  rcases size_cases kind with h | h | h | h | h <;> rw [h] <;> split <;> omega

theorem layGlobals_covers (kinds : List HlTypeKind) (hkinds : .hPacked ∉ kinds) {used : Nat}
    (hused : padded used + hlWSize * kinds.length < 2 ^ 32) :
    ∃ (offsets : List Nat) (last : Nat), layGlobals kinds (BitVec.ofNat 32 used) =
        (offsets.map fun o => (BitVec.ofNat 32 o).toInt, BitVec.ofNat 32 last) ∧
      used ≤ last ∧ last < 2 ^ 32 ∧ offsets.length = kinds.length ∧
      ∀ (i offset : Nat) (kind : HlTypeKind), offsets[i]? = some offset → kinds[i]? = some kind →
        offset + kind.size ≤ last := by
  induction kinds generalizing used with
  | nil =>
    have hle := le_padded used
    exact ⟨[], used, rfl, Nat.le_refl _, by omega, rfl, by simp⟩
  | cons kind rest ih =>
    rw [List.mem_cons, not_or] at hkinds
    have hle := le_padded used
    have hnext := padded_next used kind
    have hroom : padded (used + hlPadSize used kind + kind.size) + hlWSize * rest.length < 2 ^ 32 := by
      simp only [List.length_cons, hlWSize] at hused hnext ⊢
      omega
    obtain ⟨offsets, last, hlay, hlast, hint, hlength, hends⟩ := ih hkinds.2 hroom
    refine ⟨(used + hlPadSize used kind) :: offsets, last, ?_, by omega, hint, by simp [hlength], ?_⟩
    · have hlt : used < 2 ^ 32 := by omega
      have hpad := padInt_eq hlt (Ne.symm hkinds.1)
      have hstart : BitVec.ofNat 32 used + BitVec.ofNat 32 (hlPadSize used kind) =
          BitVec.ofNat 32 (used + hlPadSize used kind) :=
        (BitVec.ofNat_add ..).symm
      have hend : BitVec.ofNat 32 (used + hlPadSize used kind) + BitVec.ofNat 32 kind.size =
          BitVec.ofNat 32 (used + hlPadSize used kind + kind.size) :=
        (BitVec.ofNat_add ..).symm
      simp only [layGlobals, hpad, hstart, hend, hlay, List.map_cons]
    · intro i offset kind' hoffset hkind'
      cases i with
      | zero =>
        cases hoffset
        cases hkind'
        exact hlast
      | succ i => exact hends i offset kind' hoffset hkind'

/-- A module none of whose globals is packed is loaded with its slots covered. The file counts its
globals in less than 2^29. -/
theorem covered_of_unpacked {m₀ m₁ : HlModule} (hread : m₀.GlobalsRead)
    (halloc : hlModuleAlloc m₀ = some m₁) (hreserve : moduleReservePatchGlobals m₁ = some m)
    (hcount : m₀.globals.length < 2 ^ 29)
    (hunpacked : ∀ g ∈ m₀.globals, m₀.globalKind g ≠ .hPacked) : m.Covered := by
  have hkinds : .hPacked ∉ m₀.globals.map m₀.globalKind := by
    intro hmem
    obtain ⟨g, hg, hpacked⟩ := List.mem_map.mp hmem
    exact hunpacked g hg hpacked
  have hbound : padded 0 + hlWSize * (m₀.globals.map m₀.globalKind).length < 2 ^ 32 := by
    rw [List.length_map, padded_eq]
    simp only [hlWSize]
    omega
  obtain ⟨offsets, last, hlay, -, hlast, hlength, hends⟩ := layGlobals_covers _ hkinds hbound
  have hlay' : layGlobals (m₀.globals.map m₀.globalKind) 0 = _ := hlay
  rw [List.length_map] at hlength
  simp only [hlModuleAlloc, hlay'] at halloc
  split at halloc
  · cases halloc
  case isFalse hsize =>
    cases halloc
    simp only [moduleReservePatchGlobals] at hreserve
    split at hreserve
    · cases hreserve
    cases hreserve
    have hlow := toNat_lt_of_toInt hsize
    rw [BitVec.toNat_ofNat, Nat.mod_eq_of_lt hlast] at hlow
    intro g hg
    have hg' : g < m₀.globals.length := hread.count ▸ hg
    have hglobal := List.getElem?_eq_getElem hg'
    obtain ⟨t, ht, -⟩ := hread.types _ (List.mem_of_getElem? hglobal)
    have hoffset := List.getElem?_eq_getElem (hlength.symm ▸ hg')
    have hend := hends g _ (m₀.typeAt t).kind hoffset (by rw [List.getElem?_map, hglobal, ht]; rfl)
    have hsmall : (BitVec.ofNat 32 (offsets[g])).toInt = ((offsets[g] : Nat) : Int) := by
      rw [BitVec.toInt_eq_toNat_cond, BitVec.toNat_ofNat, Nat.mod_eq_of_lt (by omega), if_pos (by omega)]
    refine ⟨t, offsets[g], ⟨hg, ?_, ?_⟩, ?_⟩
    · rw [List.getElem?_append_left hg', hglobal, ht]
    · rw [List.getElem?_append_left (by rw [List.length_map, hlength]; exact hg'), List.getElem?_map,
        hoffset, Option.map_some, hsmall]
    · refine Nat.le_trans hend ?_
      rw [BitVec.toNat_ofNat, Nat.mod_eq_of_lt hlast]
      exact le_padded last

/-- In every run of patches a module takes after it is loaded with its slots covered, the check and
the staging of each patch lay its globals out alike: aligned, in the capacity, apart from every
other slot, and without moving a slot there was. -/
theorem patch_globals_layout {m₀ m m' : HlModule} (hloaded : Loaded m₀) (hcovered : m₀.Covered)
    (hrun : PatchRun m₀ m) (env : PatchEnv) (patch : HlPatch)
    (htaken : hlModuleApplyPatch env m patch = (m', none)) : PatchGlobalsLayout m patch m' := by
  have hlaid := hrun.laidOut (hloaded.laidOut hcovered)
  exact (appliedGlobals hlaid htaken).layout hlaid

/-- A module with a global of a class and one of the kind `kind`, before it is loaded. -/
def twoGlobals (kind : HlTypeKind) : HlModule :=
  { patchedModule with
    types := [.zero, ⟨.hObj, .obj ⟨[], none, [], [], [], none, ⟨[], [], 0⟩⟩, false⟩,
      ⟨kind, .tparam 1, false⟩, ⟨.hFun, .fun_ [] 0, false⟩]
    ntypes := 4
    globals := [some 1, some 2]
    nglobals := 2
    functions := [⟨0, 3⟩]
    functionsCapacity := 1
    functionsIndexes := [0]
    functionsTypes := [some 3]
    functionsPtrs := [some 0]
    patchOwners := [none] }

def twoGlobalsLoaded (kind : HlTypeKind) (offset size : Nat) : HlModule :=
  { twoGlobals kind with
    globals := [some 1, some 2] ++ List.replicate hlPatchGlobalReserve none
    globalsIndexes := [0, (offset : Int)] ++ List.replicate hlPatchGlobalReserve (-1)
    globalsSize := size
    globalsData := List.replicate size 0 ++ List.replicate (hlWSize * (hlPatchGlobalReserve + 1)) 0 }

def constantPatch : HlPatch :=
  { stalePatch with
    baseRevision := 1
    revision := 2
    baseTypeCount := 4
    types := []
    functions := [⟨3, 1, 0, [0], [⟨.oRet, [0], oRet_accepts⟩], []⟩]
    baseGlobalCount := 2
    globals := [⟨1, some []⟩] }

theorem twoGlobals_read (kind : HlTypeKind) : (twoGlobals kind).GlobalsRead := by
  refine ⟨rfl, fun g hg => ?_, Nat.le_refl 4⟩
  have hcases : g = some 1 ∨ g = some 2 := by simpa [twoGlobals] using hg
  rcases hcases with rfl | rfl
  · exact ⟨1, rfl, (by decide : 1 < 4)⟩
  · exact ⟨2, rfl, (by decide : 2 < 4)⟩

theorem constantPatch_valid {kind : HlTypeKind} {offset size : Nat} :
    validatePatchGlobals (twoGlobalsLoaded kind offset size) constantPatch = .ok (padded size + hlWSize) := by
  have hlength : (twoGlobalsLoaded kind offset size).globals.length = 2 + hlPatchGlobalReserve := by
    simp only [twoGlobalsLoaded, List.length_append, List.length_replicate]
    rfl
  have hcapacity : (twoGlobalsLoaded kind offset size).globalsDataCapacity =
      size + hlWSize * (hlPatchGlobalReserve + 1) := by
    simp only [twoGlobalsLoaded, HlModule.globalsDataCapacity, List.length_append, List.length_replicate]
  have hpad := padded_lt size
  have hroom : padded size + hlWSize ≤ (twoGlobalsLoaded kind offset size).globalsDataCapacity := by
    rw [hcapacity]
    simp only [hlWSize, hlPatchGlobalReserve] at hpad ⊢
    omega
  have hsome : (twoGlobalsLoaded kind offset size).globalsDataCapacity ≠ 0 := by
    simp only [hlWSize] at hroom
    omega
  have hentries : (twoGlobalsLoaded kind offset size).nglobals + constantPatch.globals.length ≤
      (twoGlobalsLoaded kind offset size).globals.length := by
    rw [hlength]
    show 2 + 1 ≤ 2 + hlPatchGlobalReserve
    decide
  have hglobal : validatePatchGlobal (twoGlobalsLoaded kind offset size) constantPatch size
      ⟨1, some []⟩ = .ok (padded size + hlWSize) := by
    show (require (decide (padded size + hlWSize ≤ _)) "Global capacity exceeded" >>=
      fun _ => Except.ok (padded size + hlWSize)) = _
    rw [(require_eq_ok (u := ())).mpr (decide_eq_true hroom)]
    rfl
  show (require (decide _ && decide _) "Global capacity exceeded" >>= fun _ =>
    [(⟨1, some []⟩ : HlPatchGlobal)].foldlM (validatePatchGlobal _ constantPatch) size) = _
  rw [(require_eq_ok (u := ())).mpr (by simp only [hsome, hentries, ne_eq, not_false_eq_true, decide_true,
    Bool.and_self])]
  show (validatePatchGlobal _ constantPatch size ⟨1, some []⟩ >>= fun used => pure used) = _
  rw [hglobal]
  rfl

def constantLayout : PatchLayout where
  functions := [⟨0, 3⟩]
  indexes := [0]

theorem constantPatch_checks {kind : HlTypeKind} {offset size : Nat} :
    checkPatch idleEnv (twoGlobalsLoaded kind offset size) constantPatch =
      .ok (constantLayout, padded size + hlWSize) := by
  have hbody : validateFunctions idleEnv (twoGlobalsLoaded kind offset size) constantPatch
      constantLayout = .ok () := by
    have htraps : trapsVerdict true ⟨3, 1, 0, [0], [⟨.oRet, [0], oRet_accepts⟩], []⟩ = .ok () := by
      decide +kernel
    have hone : validateFunction idleEnv (twoGlobalsLoaded kind offset size) constantPatch
        constantLayout 0 ⟨3, 1, 0, [0], [⟨.oRet, [0], oRet_accepts⟩], []⟩ = .ok () := htraps
    simp only [validateFunctions, constantPatch, forEach, except_bind_eq_ok]
    exact ⟨(), ⟨(), rfl, hone⟩, trivial⟩
  simp only [checkPatch, except_bind_eq_ok, require_eq_ok]
  exact ⟨(), rfl, (), rfl, (), rfl, (), rfl, (), rfl, (), rfl, (), rfl, _, constantPatch_valid, (),
    rfl, _, rfl, (), rfl, (), hbody, (), rfl, (), rfl, (), rfl, (), rfl, rfl⟩

def twoGlobalsPatched (kind : HlTypeKind) (offset size : Nat) : HlModule :=
  commitPatch idleEnv constantPatch (padded size + hlWSize) 0 [0]
    ⟨stagePatchGlobals constantPatch (twoGlobalsLoaded kind offset size), true, true, []⟩

theorem constantPatch_taken {kind : HlTypeKind} {offset size : Nat} :
    hlModuleApplyPatch idleEnv (twoGlobalsLoaded kind offset size) constantPatch =
      (twoGlobalsPatched kind offset size, none) := by
  simp only [hlModuleApplyPatch, constantPatch_checks]
  rfl

/-- The slots of an object and an integer end where the size of the globals says. The constant gets
the next pointer boundary. -/
theorem patch_globals_layout_unpacked :
    PatchGlobalsLayout (twoGlobalsLoaded .hI32 8 12) constantPatch (twoGlobalsPatched .hI32 8 12) ∧
      (twoGlobalsPatched .hI32 8 12).HasSlot 2 1 16 := by
  have hunpacked : ∀ g ∈ (twoGlobals .hI32).globals, (twoGlobals .hI32).globalKind g ≠ .hPacked := by
    decide
  have hloaded : Loaded (twoGlobalsLoaded .hI32 8 12) := ⟨_, _, twoGlobals_read .hI32, rfl, rfl⟩
  have hcovered : (twoGlobalsLoaded .hI32 8 12).Covered :=
    covered_of_unpacked (twoGlobals_read .hI32) rfl rfl (by decide) hunpacked
  exact ⟨patch_globals_layout hloaded hcovered .start idleEnv constantPatch constantPatch_taken,
    by decide, by decide, rfl⟩

/-- A packed global takes the layout back to its start: the size of the globals ends at 0, and the
constant gets the slot of the class's global. -/
theorem packed_global_overlaps :
    Loaded (twoGlobalsLoaded .hPacked 0 0) ∧
      hlModuleApplyPatch idleEnv (twoGlobalsLoaded .hPacked 0 0) constantPatch =
        (twoGlobalsPatched .hPacked 0 0, none) ∧
      (twoGlobalsPatched .hPacked 0 0).HasSlot 0 1 0 ∧
      (twoGlobalsPatched .hPacked 0 0).HasSlot 2 1 0 ∧
      ¬PatchGlobalsLayout (twoGlobalsLoaded .hPacked 0 0) constantPatch (twoGlobalsPatched .hPacked 0 0) := by
  have hloaded : Loaded (twoGlobalsLoaded .hPacked 0 0) := ⟨_, _, twoGlobals_read .hPacked, rfl, rfl⟩
  have hclass : (twoGlobalsPatched .hPacked 0 0).HasSlot 0 1 0 := ⟨by decide, by decide, rfl⟩
  have hconstant : (twoGlobalsPatched .hPacked 0 0).HasSlot 2 1 0 := ⟨by decide, by decide, rfl⟩
  have hsize : (twoGlobalsPatched .hPacked 0 0).globalSize 1 = 8 := rfl
  refine ⟨hloaded, constantPatch_taken, hclass, hconstant, fun hlayout => ?_⟩
  refine hlayout.apart 2 1 0 0 1 0 (Nat.le_refl 2) hconstant hclass (by decide) 0 ?_
  rw [hsize]
  decide

end HashLink
