import HashLink.Lib.GreedyPrefix
import HashLink.Module
import Mathlib.Data.List.Nodup

/-!
How a hot reload gives the globals of the new code their slots, `hl_code_hash_remap_globals` of
`code.c`. Globals are told apart by the signatures that `hl_code_hash_alloc` makes of them. A global
whose signature the old code has goes to a slot of the old code; the search for it starts behind the
slots that are all taken, and any other slot may be found again.

When the remapping of globals is right. The start of the search is as far as the old signatures have
been met in order among the new ones; a slot behind it that is already taken is found again by the
next global with its signature. So two globals share a slot exactly when a signature is repeated
before the old slots up to its own have all been met.
-/

namespace HashLink.HotReload

/-- The instructions that the remapping and the signatures look at. -/
inductive GlobalOp where
  | int (value : UInt32)
  | getArray
  | getGlobal (p2 : Nat)
  | setGlobal (p1 : Nat)
  | other
  deriving DecidableEq, Repr

/-- `hl_constant`, with the hash of its fields. -/
structure ReloadConstant where
  global : Nat
  hash : UInt32
  deriving DecidableEq, Repr

/-- What hot reload reads of `hl_code`: the kind and the `global_value` of each type, zero for none,
the type of each global, the constants and the functions by `findex`. `hlt_void` is no type of the
code. -/
structure ReloadCode where
  types : List (HlTypeKind × Nat)
  globals : List (Option Nat)
  constants : List ReloadConstant
  functions : List (List GlobalOp)
  entrypoint : Nat
  deriving DecidableEq, Repr

/-- The kinds that have a `global_value`. -/
def hasGlobalValue (kind : HlTypeKind) : Bool := kind = .hObj ∨ kind = .hStruct ∨ kind = .hEnum

def ReloadCode.kind (c : ReloadCode) (t : Option Nat) : HlTypeKind :=
  match t with
  | none => .hVoid
  | some t => (c.types.getD t (.hVoid, 0)).1

section Signatures

variable (hashType : Option Nat → UInt32) (c : ReloadCode)

def globalSign (i : Nat) (t : Option Nat) : UInt32 :=
  if c.kind t = .hAbstract then hashType t else UInt32.ofNat i ||| 0x80000000

def signClasses (signs : List UInt32) : List UInt32 :=
  c.types.zipIdx.foldl (fun signs ((kind, value), i) =>
    if hasGlobalValue kind ∧ value ≠ 0 then signs.set (value - 1) (hashType (some i)) else signs) signs

def signConstants (signs : List UInt32) : List UInt32 :=
  c.constants.foldl (fun signs k => signs.set k.global k.hash) signs

def signEnums (signs : List UInt32) : List UInt32 :=
  let ops := c.functions.getD c.entrypoint []
  ops.zipIdx.foldl (fun signs (op, i) =>
    match op, ops[i - 2]?, ops[i - 3]? with
    | .setGlobal p1, some .getArray, some (.int value) =>
      if 4 ≤ i ∧ c.kind (c.globals.getD p1 none) = .hEnum then signs.set p1 value else signs
    | _, _, _ => signs) signs

/-- The `globals_signs` of `hl_code_hash_alloc`. -/
def globalsSigns : List UInt32 :=
  List.zipWith (fun sign t => sign ^^^ hashType t)
    (signEnums c (signConstants c (signClasses hashType c (c.globals.mapIdx (globalSign hashType c)))))
    c.globals

theorem length_signClasses (signs : List UInt32) :
    (signClasses hashType c signs).length = signs.length := by
  unfold signClasses
  generalize c.types.zipIdx = types
  induction types generalizing signs with
  | nil => rfl
  | cons t types ih =>
    rw [List.foldl_cons, ih]
    split
    split
    · exact List.length_set
    · rfl

theorem length_signConstants (signs : List UInt32) : (signConstants c signs).length = signs.length := by
  unfold signConstants
  generalize c.constants = constants
  induction constants generalizing signs with
  | nil => rfl
  | cons k constants ih => exact (ih _).trans List.length_set

theorem length_signEnums (signs : List UInt32) : (signEnums c signs).length = signs.length := by
  unfold signEnums
  dsimp only
  generalize c.functions.getD c.entrypoint [] = ops
  generalize ops.zipIdx = indexed
  induction indexed generalizing signs with
  | nil => rfl
  | cons op indexed ih =>
    rw [List.foldl_cons, ih]
    split
    · split
      · exact List.length_set
      · rfl
    · rfl

theorem length_globalsSigns : (globalsSigns hashType c).length = c.globals.length := by
  simp [globalsSigns, length_signEnums, length_signConstants, length_signClasses]

end Signatures

/-- `hl_code_hash`, as far as the globals go: every global has a signature. -/
structure HlCodeHash where
  code : ReloadCode
  globalsSigns : List UInt32
  signed : globalsSigns.length = code.globals.length

/-- `hl_code_hash_alloc`, over the hashes of the types. -/
def hlCodeHashAlloc (hashType : Option Nat → UInt32) (code : ReloadCode) : HlCodeHash where
  code := code
  globalsSigns := globalsSigns hashType code
  signed := length_globalsSigns hashType code

/-- The inner loop: the first old global with this signature, from `k` on. -/
def findSign (h : UInt32) : List UInt32 → Nat → Option Nat
  | [], _ => none
  | sign :: signs, k => if sign = h then some k else findSign h signs (k + 1)

/-- The first loop. Only a match at `old_start` moves the start of the search. -/
def matchGlobals (old : List UInt32) : Nat → List UInt32 → List (Option Nat)
  | _, [] => []
  | oldStart, h :: signs =>
    match findSign h (old.drop oldStart) oldStart with
    | some k => some k :: matchGlobals old (if k = oldStart then oldStart + 1 else oldStart) signs
    | none => none :: matchGlobals old oldStart signs

def assignNew : Nat → List (Option Nat) → List Nat
  | _, [] => []
  | next, some k :: rest => k :: assignNew next rest
  | next, none :: rest => next :: assignNew (next + 1) rest

def remap (new old : List UInt32) : List Nat :=
  assignNew (old.length + (old.length - new.length)) (matchGlobals old 0 new)

def newCount (new old : List UInt32) : Nat :=
  old.length + (old.length - new.length) + (matchGlobals old 0 new).count none

def placeGlobals {α : Type} (slots : List Nat) (entries : List α) (table : List α) : List α :=
  (slots.zip entries).foldl (fun table (slot, a) => table.set slot a) table

theorem length_placeGlobals {α : Type} (slots : List Nat) (entries table : List α) :
    (placeGlobals slots entries table).length = table.length := by
  unfold placeGlobals
  generalize slots.zip entries = writes
  induction writes generalizing table with
  | nil => rfl
  | cons write writes ih => exact (ih _).trans List.length_set

def remapOp (slots : List Nat) (op : GlobalOp) : GlobalOp :=
  match op with
  | .getGlobal p2 => .getGlobal (slots.getD p2 0)
  | .setGlobal p1 => .setGlobal (slots.getD p1 0)
  | op => op

def hlCodeHashRemapGlobals (hnew hold : HlCodeHash) : HlCodeHash :=
  let slots := remap hnew.globalsSigns hold.globalsSigns
  let fresh := newCount hnew.globalsSigns hold.globalsSigns - hold.globalsSigns.length
  let c := hnew.code
  { code :=
      { c with
        globals := placeGlobals slots c.globals (hold.code.globals ++ List.replicate fresh none)
        types := c.types.map fun (kind, value) =>
          (kind, if hasGlobalValue kind ∧ value ≠ 0 then slots.getD (value - 1) 0 + 1 else value)
        constants := c.constants.map fun k => { k with global := slots.getD k.global 0 }
        functions := c.functions.map (List.map (remapOp slots)) }
    globalsSigns := placeGlobals slots hnew.globalsSigns (hold.globalsSigns ++ List.replicate fresh 0xFFFFFFFF)
    signed := by
      simp only [length_placeGlobals, List.length_append, List.length_replicate, hold.signed] }

open GreedyPrefix

variable {new old : List UInt32}

/-! The loops. -/

variable {signs : List UInt32} {h : UInt32}

theorem findSign_some {k n : Nat} :
    findSign h signs k = some n ↔ k ≤ n ∧ signs[n - k]? = some h ∧ ∀ m, m < n - k → signs[m]? ≠ some h := by
  induction signs generalizing k with
  | nil => simp [findSign]
  | cons sign signs ih =>
    rw [findSign]
    by_cases hsign : sign = h
    · rw [if_pos hsign, Option.some.injEq]
      constructor
      · rintro rfl
        simp [hsign]
      · rintro ⟨hle, hget, hfirst⟩
        by_contra hne
        exact hfirst 0 (by omega) (by simp [hsign])
    · rw [if_neg hsign, ih]
      constructor
      · rintro ⟨hle, hget, hfirst⟩
        refine ⟨by omega, ?_, ?_⟩
        · rw [show n - k = n - (k + 1) + 1 by omega]
          simpa using hget
        · intro m hm
          cases m with
          | zero => simpa using hsign
          | succ m => simpa using hfirst m (by omega)
      · rintro ⟨hle, hget, hfirst⟩
        have hne : n ≠ k := by
          rintro rfl
          simp [hsign] at hget
        refine ⟨by omega, ?_, ?_⟩
        · rw [show n - k = n - (k + 1) + 1 by omega] at hget
          simpa using hget
        · intro m hm
          simpa using hfirst (m + 1) (by omega)

theorem findSign_none {k : Nat} :
    findSign h signs k = none ↔ h ∉ signs := by
  induction signs generalizing k with
  | nil => simp [findSign]
  | cons sign signs ih =>
    rw [findSign]
    by_cases hsign : sign = h
    · simp [hsign]
    · simp [hsign, ih, Ne.symm hsign]

theorem getElem?_matchGlobals (old : List UInt32) (start : Nat) (new : List UInt32) (i : Nat) :
    (matchGlobals old start new)[i]? = new[i]?.map fun h =>
      findSign h (old.drop (start + found (new.take i) (old.drop start)))
        (start + found (new.take i) (old.drop start)) := by
  induction new generalizing start i with
  | nil => simp [matchGlobals]
  | cons h new ih =>
    cases i with
    | zero =>
      rw [matchGlobals]
      cases hfind : findSign h (old.drop start) start <;> simp [found, hfind]
    | succ i =>
      rw [matchGlobals, List.take_succ_cons]
      cases hdrop : old.drop start with
      | nil => simp [findSign, found, ih, hdrop, found_nil]
      | cons o rest =>
        have hrest : old.drop (start + 1) = rest := by
          rw [← List.drop_drop, hdrop]
          rfl
        by_cases heq : o = h
        · simp [findSign, found, heq, ih, hrest, Nat.add_assoc, Nat.add_comm 1]
        · have hfound : found (h :: new.take i) (o :: rest) = found (new.take i) (old.drop start) := by
            rw [found, if_neg (Ne.symm heq), hdrop]
          have hfind : findSign h (o :: rest) start = findSign h rest (start + 1) := by
            rw [findSign, if_neg heq]
          rw [hfound, hfind]
          cases hk : findSign h rest (start + 1) with
          | none => simp [ih]
          | some k =>
            -- found behind the start, which stays where it is
            have hle := ((findSign_some).1 hk).1
            have hne : k ≠ start := by omega
            simp [hne, ih]

theorem getElem?_assignNew (next : Nat) (found : List (Option Nat)) (i : Nat) :
    (assignNew next found)[i]? = found[i]?.map fun k => k.getD (next + (found.take i).count none) := by
  induction found generalizing next i with
  | nil => simp [assignNew]
  | cons k found ih =>
    cases k with
    | some k =>
      rw [assignNew]
      cases i with
      | zero => simp
      | succ i => simp [ih]
    | none =>
      rw [assignNew]
      cases i with
      | zero => simp
      | succ i => simp [ih, Nat.add_assoc, Nat.add_comm 1]

theorem length_matchGlobals (old : List UInt32) (start : Nat) (new : List UInt32) :
    (matchGlobals old start new).length = new.length := by
  induction new generalizing start with
  | nil => rfl
  | cons h new ih =>
    rw [matchGlobals]
    split <;> simp [ih]

theorem length_assignNew (next : Nat) (found : List (Option Nat)) :
    (assignNew next found).length = found.length := by
  induction found generalizing next with
  | nil => rfl
  | cons k found ih => cases k <;> simp [assignNew, ih]

theorem length_remap : (remap new old).length = new.length := by
  rw [remap, length_assignNew, length_matchGlobals]

/-! The entries are placed where the slots say, when no slot is taken twice. -/

theorem getElem?_placeGlobals_of_notMem {α : Type} {slots : List Nat} {slot : Nat}
    (hslot : slot ∉ slots) (entries table : List α) :
    (placeGlobals slots entries table)[slot]? = table[slot]? := by
  induction slots generalizing entries table with
  | nil => rfl
  | cons s slots ih =>
    cases entries with
    | nil => rfl
    | cons a entries =>
      rw [List.mem_cons, not_or] at hslot
      show (placeGlobals slots entries (table.set s a))[slot]? = _
      rw [ih hslot.2, List.getElem?_set_ne (Ne.symm hslot.1)]

theorem getElem?_placeGlobals {α : Type} {slots : List Nat} {entries table : List α}
    (hnodup : slots.Nodup) (hlen : slots.length = entries.length) {i slot : Nat}
    (hslot : slots[i]? = some slot) (hlt : slot < table.length) :
    (placeGlobals slots entries table)[slot]? = entries[i]? := by
  induction slots generalizing entries table i with
  | nil => simp at hslot
  | cons s slots ih =>
    cases entries with
    | nil => simp at hlen
    | cons a entries =>
      have hlen : slots.length = entries.length := by simpa using hlen
      obtain ⟨hfirst, hrest⟩ := List.nodup_cons.1 hnodup
      show (placeGlobals slots entries (table.set s a))[slot]? = _
      cases i with
      | succ i => exact ih hrest hlen (by simpa using hslot) (by simpa using hlt)
      | zero =>
        obtain rfl : s = slot := by simpa using hslot
        rw [getElem?_placeGlobals_of_notMem hfirst]
        simp [hlt]

/-! When the remapping is right. -/

/-- The global `i` of the new code is the global `k` of the old one: they have the same signature and
as many others with it come before them. -/
def Unchanged (new old : List UInt32) (i k : Nat) : Prop :=
  ∃ h, new[i]? = some h ∧ old[k]? = some h ∧ (new.take i).count h = (old.take k).count h

structure RemapLaw (hnew hold : HlCodeHash) : Prop where
  injective : (remap hnew.globalsSigns hold.globalsSigns).Nodup
  types : ∀ {i slot : Nat}, (remap hnew.globalsSigns hold.globalsSigns)[i]? = some slot →
    (hlCodeHashRemapGlobals hnew hold).code.globals[slot]? = hnew.code.globals[i]?
  keeps : ∀ {i k : Nat}, Unchanged hnew.globalsSigns hold.globalsSigns i k →
    (remap hnew.globalsSigns hold.globalsSigns)[i]? = some k

/-- Whenever the new code comes to a signature whose first old slots, up to `k`, are all used by the
globals before it, the signatures of all old slots up to `k` have been met in order. -/
def MetInOrder (new old : List UInt32) : Prop :=
  ∀ {j k : Nat} {h : UInt32}, new[j]? = some h → old[k]? = some h →
    (old.take (k + 1)).count h ≤ (new.take j).count h → (old.take (k + 1)).Sublist (new.take j)

theorem count_take_succ {k : Nat} (hk : signs[k]? = some h) :
    (signs.take (k + 1)).count h = (signs.take k).count h + 1 := by
  rw [List.take_add_one, hk]
  simp

theorem count_take_le {k m : Nat} (hle : k ≤ m) (h : UInt32) :
    (signs.take k).count h ≤ (signs.take m).count h :=
  (List.take_prefix_take_left hle).sublist.count_le h

theorem exists_rank {n r : Nat} (hr : r < (signs.take n).count h) :
    ∃ i, i < n ∧ signs[i]? = some h ∧ (signs.take i).count h = r := by
  induction n with
  | zero => simp at hr
  | succ n ih =>
    by_cases hlt : r < (signs.take n).count h
    · obtain ⟨i, hi, hget, hrank⟩ := ih hlt
      exact ⟨i, by omega, hget, hrank⟩
    · have hget : signs[n]? = some h := by
        by_contra hne
        rw [List.take_add_one, List.count_append] at hr
        have hzero : (signs[n]?.toList).count h = 0 := by
          rw [List.count_eq_zero]
          simpa using hne
        omega
      rw [count_take_succ hget] at hr
      exact ⟨n, by omega, hget, by omega⟩

section Search

variable {i k : Nat} {h : UInt32}

/-- The old slot that the first loop gives to a global with the signature `h`, if any. -/
def foundSlot (new old : List UInt32) (i : Nat) (h : UInt32) : Option Nat :=
  findSign h (old.drop (found (new.take i) old)) (found (new.take i) old)

theorem foundSlot_some : foundSlot new old i h = some k ↔ found (new.take i) old ≤ k ∧ old[k]? = some h ∧
      ∀ m, found (new.take i) old ≤ m → m < k → old[m]? ≠ some h := by
  rw [foundSlot, findSign_some]
  refine and_congr_right fun hle => ?_
  rw [List.getElem?_drop, Nat.add_sub_cancel' hle]
  refine and_congr_right fun _ => ⟨fun hfirst m hm hlt => ?_, fun hfirst m hm => ?_⟩
  · have := hfirst (m - found (new.take i) old) (by omega)
    rwa [List.getElem?_drop, Nat.add_sub_cancel' hm] at this
  · rw [List.getElem?_drop]
    exact hfirst _ (by omega) (by omega)

theorem foundSlot_none : foundSlot new old i h = none ↔ ∀ m, found (new.take i) old ≤ m → old[m]? ≠ some h := by
  rw [foundSlot, findSign_none, List.mem_iff_getElem?]
  constructor
  · intro hnone m hm hget
    refine hnone ⟨m - found (new.take i) old, ?_⟩
    rwa [List.getElem?_drop, Nat.add_sub_cancel' hm]
  · rintro hnone ⟨m, hget⟩
    rw [List.getElem?_drop] at hget
    exact hnone _ (by omega) hget

theorem lt_length_of_foundSlot (hfound : foundSlot new old i h = some k) : k < old.length :=
  (List.getElem?_eq_some_iff.1 ((foundSlot_some).1 hfound).2.1).1

theorem getElem?_matchGlobals_zero (hget : new[i]? = some h) :
    (matchGlobals old 0 new)[i]? = some (foundSlot new old i h) := by
  rw [getElem?_matchGlobals, hget]
  simp [foundSlot]

theorem getElem?_remap (hget : new[i]? = some h) :
    (remap new old)[i]? = some ((foundSlot new old i h).getD
      (old.length + (old.length - new.length) + ((matchGlobals old 0 new).take i).count none)) := by
  rw [remap, getElem?_assignNew, getElem?_matchGlobals_zero hget]
  rfl

theorem found_le_of_count_le (hold : old[k]? = some h)
    (hcount : (new.take i).count h ≤ (old.take k).count h) : found (new.take i) old ≤ k := by
  by_contra hlt
  have hk : k < old.length := (List.getElem?_eq_some_iff.1 hold).1
  have hsub := (lt_found_iff hk).1 (Nat.lt_of_not_le hlt)
  have hle := hsub.count_le h
  rw [count_take_succ hold] at hle
  omega

variable (hmet : MetInOrder new old) (hnew : new[i]? = some h)
include hmet hnew

theorem MetInOrder.lt_found (hold : old[k]? = some h)
    (hcount : (old.take k).count h < (new.take i).count h) : k < found (new.take i) old := by
  have hk : k < old.length := (List.getElem?_eq_some_iff.1 hold).1
  rw [lt_found_iff hk]
  apply hmet hnew hold
  rw [count_take_succ hold]
  exact hcount

theorem MetInOrder.foundSlot_of_rank (hold : old[k]? = some h)
    (hrank : (new.take i).count h = (old.take k).count h) : foundSlot new old i h = some k := by
  rw [foundSlot_some]
  refine ⟨found_le_of_count_le hold (Nat.le_of_eq hrank), hold, ?_⟩
  intro m hm hlt hget
  have hcount : (old.take (m + 1)).count h ≤ (old.take k).count h := count_take_le hlt h
  rw [count_take_succ hget] at hcount
  have := hmet.lt_found hnew hget (by omega)
  omega

theorem MetInOrder.rank_of_foundSlot (hfound : foundSlot new old i h = some k) :
    (new.take i).count h = (old.take k).count h := by
  obtain ⟨hle, hold, -⟩ := (foundSlot_some).1 hfound
  rcases Nat.lt_trichotomy ((old.take k).count h) ((new.take i).count h) with hlt | heq | hgt
  · have := hmet.lt_found hnew hold hlt
    omega
  · exact heq.symm
  · obtain ⟨m, hm, hget, hrank⟩ := exists_rank hgt
    have hfound' := hmet.foundSlot_of_rank hnew hget hrank.symm
    cases hfound.symm.trans hfound'
    omega

end Search

theorem count_none_take_lt {found : List (Option Nat)} {i j : Nat} (hij : i < j)
    (hget : found[i]? = some none) : (found.take i).count none < (found.take j).count none := by
  have hle : (found.take (i + 1)).count none ≤ (found.take j).count none :=
    (List.take_prefix_take_left hij).sublist.count_le none
  have hsucc : (found.take (i + 1)).count none = (found.take i).count none + 1 := by
    rw [List.take_add_one, hget]
    simp
  omega

theorem MetInOrder.nodup_remap (hmet : MetInOrder new old) : (remap new old).Nodup := by
  rw [List.nodup_iff_getElem?_ne_getElem?]
  intro i j hij hj heq
  rw [length_remap] at hj
  have hi := Nat.lt_trans hij hj
  have hgetj := List.getElem?_eq_getElem hj
  have hgeti : new[i]? = some new[i] := List.getElem?_eq_getElem hi
  rw [getElem?_remap hgeti, getElem?_remap hgetj, Option.some.injEq] at heq
  cases hfi : foundSlot new old i new[i] with
  | some k =>
    have hk := lt_length_of_foundSlot hfi
    cases hfj : foundSlot new old j new[j] with
    | some m =>
      -- two globals with one old slot would have the same signature and the same rank
      obtain rfl : k = m := by simpa [hfi, hfj] using heq
      have hsame : new[i] = new[j] :=
        Option.some.inj (((foundSlot_some).1 hfi).2.1.symm.trans ((foundSlot_some).1 hfj).2.1)
      have hri := hmet.rank_of_foundSlot hgeti hfi
      have hrj := hmet.rank_of_foundSlot hgetj hfj
      have hlt : (new.take (i + 1)).count new[i] ≤ (new.take j).count new[i] := count_take_le hij _
      rw [count_take_succ hgeti] at hlt
      rw [← hsame] at hrj
      omega
    | none =>
      simp only [hfi, hfj, Option.getD_some, Option.getD_none] at heq
      omega
  | none =>
    cases hfj : foundSlot new old j new[j] with
    | some m =>
      have hm := lt_length_of_foundSlot hfj
      simp only [hfi, hfj, Option.getD_some, Option.getD_none] at heq
      omega
    | none =>
      have hnone : (matchGlobals old 0 new)[i]? = some none :=
        (getElem?_matchGlobals_zero hgeti).trans (congrArg some hfi)
      have hlt := count_none_take_lt hij hnone
      simp only [hfi, hfj, Option.getD_none] at heq
      omega

theorem lt_newCount {i slot : Nat} (hslot : (remap new old)[i]? = some slot) :
    slot < newCount new old := by
  have hi : i < new.length :=
    Nat.lt_of_lt_of_eq (List.getElem?_eq_some_iff.1 hslot).1 length_remap
  have hget := List.getElem?_eq_getElem hi
  rw [getElem?_remap hget, Option.some.injEq] at hslot
  have hmatch : (matchGlobals old 0 new)[i]? = some (foundSlot new old i new[i]) :=
    getElem?_matchGlobals_zero hget
  cases hf : foundSlot new old i new[i] with
  | some k =>
    have hk := lt_length_of_foundSlot hf
    rw [hf, Option.getD_some] at hslot
    unfold newCount
    omega
  | none =>
    rw [hf] at hmatch
    have hlt := count_none_take_lt (Nat.lt_of_lt_of_eq hi (length_matchGlobals old 0 new).symm) hmatch
    rw [List.take_length] at hlt
    rw [hf, Option.getD_none] at hslot
    unfold newCount
    omega

theorem remapLaw_of_metInOrder {hnew hold : HlCodeHash}
    (hmet : MetInOrder hnew.globalsSigns hold.globalsSigns) : RemapLaw hnew hold where
  injective := hmet.nodup_remap
  types := by
    intro i slot hslot
    refine getElem?_placeGlobals hmet.nodup_remap (length_remap.trans hnew.signed) hslot ?_
    have hlt := lt_newCount hslot
    have hle : hold.globalsSigns.length ≤ newCount hnew.globalsSigns hold.globalsSigns := by
      unfold newCount
      omega
    rw [List.length_append, List.length_replicate, ← hold.signed]
    omega
  keeps := by
    rintro i k ⟨h, hget, hold, hrank⟩
    rw [getElem?_remap hget, hmet.foundSlot_of_rank hget hold hrank]
    rfl

theorem RemapLaw.metInOrder {hnew hold : HlCodeHash} (law : RemapLaw hnew hold) :
    MetInOrder hnew.globalsSigns hold.globalsSigns := by
  intro j k h hj hk hcount
  have hlen : k < hold.globalsSigns.length := (List.getElem?_eq_some_iff.1 hk).1
  rw [← lt_found_iff hlen]
  by_contra hle
  have hle := Nat.le_of_not_lt hle
  cases hf : foundSlot hnew.globalsSigns hold.globalsSigns j h with
  | none => exact (foundSlot_none).1 hf k hle hk
  | some m =>
    obtain ⟨-, hm, hfirst⟩ := (foundSlot_some).1 hf
    have hmk : m ≤ k := by
      by_contra hlt
      exact hfirst k hle (Nat.lt_of_not_le hlt) hk
    have hrank : (hold.globalsSigns.take m).count h < (hnew.globalsSigns.take j).count h := by
      have hle' : (hold.globalsSigns.take (m + 1)).count h ≤ (hold.globalsSigns.take (k + 1)).count h :=
        count_take_le (Nat.succ_le_succ hmk) h
      rw [count_take_succ hm] at hle'
      omega
    obtain ⟨i, hij, hi, heq⟩ := exists_rank hrank
    have hkeep := law.keeps ⟨h, hi, hm, heq⟩
    have hshare : (remap hnew.globalsSigns hold.globalsSigns)[j]? = some m := by
      rw [getElem?_remap hj, hf]
      rfl
    have hjlen : j < (remap hnew.globalsSigns hold.globalsSigns).length :=
      (List.getElem?_eq_some_iff.1 hshare).1
    exact List.nodup_iff_getElem?_ne_getElem?.1 law.injective i j hij hjlen (hkeep.trans hshare.symm)

/-- The slots are right exactly when the old signatures up to a slot that is used again are met in order. -/
theorem remap_globals_law_iff (hnew hold : HlCodeHash) :
    RemapLaw hnew hold ↔ MetInOrder hnew.globalsSigns hold.globalsSigns :=
  ⟨fun law => law.metInOrder, fun hmet => remapLaw_of_metInOrder hmet⟩

/-- A code with one plain global and two of abstract types. The signature of an abstract one is its
hash, and the hash is then folded into it once more: both come out as zero. -/
def abstractsCode (kind : HlTypeKind) : ReloadCode where
  types := [(kind, 0), (.hAbstract, 0), (.hAbstract, 0)]
  globals := [some 0, some 1, some 2]
  constants := []
  functions := []
  entrypoint := 0

def abstractsHashType (plain : UInt32) : Option Nat → UInt32
  | some 0 => plain
  | some 1 => 11
  | some 2 => 12
  | _ => 0

/-- The plain global has another type after the reload, and the two abstract ones share a slot. -/
theorem abstract_globals_share_slot : ¬ ∀ hnew hold, RemapLaw hnew hold := by
  intro hlaw
  have law := hlaw (hlCodeHashAlloc (abstractsHashType 6) (abstractsCode .hF64))
    (hlCodeHashAlloc (abstractsHashType 3) (abstractsCode .hI32))
  have hslots : remap (globalsSigns (abstractsHashType 6) (abstractsCode .hF64))
      (globalsSigns (abstractsHashType 3) (abstractsCode .hI32)) = [3, 1, 1] := by
    decide +kernel
  have hnodup : [3, 1, 1].Nodup := hslots ▸ law.injective
  exact absurd hnodup (by decide)

end HashLink.HotReload
