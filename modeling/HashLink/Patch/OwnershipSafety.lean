import HashLink.Patch.Atomicity
import HashLink.Patch.Ownership
import Mathlib.Data.List.Nodup

/-!
The accounts of the code allocations. Every allocation is at each moment owned by slots, as many as
its references say, or retired, or freed, and only one of these; the superseded ones are on their way
from the first to one of the others. Nothing is freed while a slot or the live table has it.
-/

namespace HashLink

variable {s : PatchCodes} {spare pending : List Nat}

def PatchCodes.owned (s : PatchCodes) (a : Nat) : Nat := s.owners.count (some a)

def PatchCodes.freedCodes (s : PatchCodes) : List Nat := s.freed.map FreedCode.allocation

/-- The accounts, with the superseded allocations `spare` that are yet to be dropped and those of
`pending` that are yet to get a slot. -/
structure Ledger (s : PatchCodes) (spare pending : List Nat) : Prop where
  valid : ∀ a, some a ∈ s.owners → a < s.codes.length
  references : ∀ a, a < s.codes.length → (s.code a).references = s.owned a
  fate : ∀ a, spare.count a + s.retired.count a + s.freedCodes.count a =
    if s.owned a = 0 ∧ a < s.codes.length ∧ a ∉ pending then 1 else 0

@[simp] theorem addReferences_length (s : PatchCodes) (a : Nat) (n : Int) :
    (s.addReferences a n).codes.length = s.codes.length :=
  List.length_modify ..

theorem addReferences_references (s : PatchCodes) (a : Nat) (n : Int) {b : Nat} (hb : b < s.codes.length) :
    ((s.addReferences a n).code b).references = (s.code b).references + if a = b then n else 0 := by
  simp only [PatchCodes.code, PatchCodes.addReferences, List.getD_eq_getElem?_getD,
    List.getElem?_modify, List.getElem?_eq_getElem hb, Option.map_eq_map, Option.map_some,
    Option.getD_some]
  split <;> simp

variable {a : Nat} {s' : PatchCodes} {owner : Option Nat}

theorem owned_pos_iff : 0 < s.owned a ↔ some a ∈ s.owners := List.count_pos_iff

theorem owned_set {slot : Nat} (hslot : slot < s.owners.length)
    (howners : s'.owners = s.owners.set slot owner) (a : Nat) :
    s'.owned a = s.owned a - (if s.owners.getD slot none = some a then 1 else 0) +
        (if owner = some a then 1 else 0) := by
  simp only [PatchCodes.owned, howners, List.count_set hslot, beq_iff_eq, List.getD_eq_getElem?_getD,
    List.getElem?_eq_getElem hslot, Option.getD_some]

theorem mem_owners_of_getD {slot : Nat} (h : s.owners.getD slot none = some a) :
    slot < s.owners.length ∧ some a ∈ s.owners := by
  rw [List.getD_eq_getElem?_getD] at h
  by_cases hslot : slot < s.owners.length
  · rw [List.getElem?_eq_getElem hslot, Option.getD_some] at h
    exact ⟨hslot, h ▸ List.getElem_mem hslot⟩
  · rw [List.getElem?_eq_none (Nat.le_of_not_lt hslot)] at h
    cases h

theorem owned_moved {slot : Nat} (hslot : slot < s.owners.length)
    (howners : s'.owners = s.owners.set slot owner) (a : Nat) :
    (s'.owned a : Int) = s.owned a + (if owner = some a then 1 else 0) +
      (if s.owners.getD slot none = some a then -1 else 0) := by
  have howned : s'.owned a = _ := owned_set hslot howners a
  by_cases hold : s.owners.getD slot none = some a
  · have hpos : 0 < s.owned a := (owned_pos_iff).2 (mem_owners_of_getD hold).2
    rw [if_pos hold] at howned ⊢
    split at howned <;> split <;> simp_all
    all_goals omega
  · rw [if_neg hold] at howned ⊢
    split at howned <;> split <;> simp_all

theorem mem_set_owners {slot : Nat} (h : some a ∈ s.owners.set slot owner) :
    some a ∈ s.owners ∨ owner = some a :=
  (List.mem_or_eq_of_mem_set h).imp_right Eq.symm

theorem Ledger.move {spare' : List Nat} {slot : Nat} (h : Ledger s spare pending)
    (hslot : slot < s.owners.length) (hnew : ∀ a, owner = some a → a < s.codes.length ∧ a ∈ pending)
    (hold : ∀ a ∈ pending, s.owners.getD slot none ≠ some a) (howners : s'.owners = s.owners.set slot owner)
    (hlength : s'.codes.length = s.codes.length)
    (hrefs : ∀ a, a < s.codes.length → (s'.code a).references = (s.code a).references +
      (if owner = some a then 1 else 0) + if s.owners.getD slot none = some a then -1 else 0)
    (hcounts : ∀ a, spare'.count a + s'.retired.count a + s'.freedCodes.count a =
      spare.count a + s.retired.count a + s.freedCodes.count a +
        if s.owners.getD slot none = some a ∧ s'.owned a = 0 then 1 else 0) :
    Ledger s' spare' pending := by
  have howned := owned_moved hslot howners
  refine ⟨?_, ?_, ?_⟩
  · intro a ha
    rw [howners] at ha
    rw [hlength]
    exact (mem_set_owners ha).elim (h.valid a) fun hto => (hnew a hto).1
  · intro a ha
    rw [hlength] at ha
    rw [hrefs a ha, howned a, h.references a ha]
  · intro a
    have hfate := h.fate a
    have hcount := howned a
    rw [hcounts a, hlength]
    by_cases hfrom : s.owners.getD slot none = some a
    · have hmem := (mem_owners_of_getD hfrom).2
      have hpos := (owned_pos_iff).2 hmem
      have hlt := h.valid a hmem
      have hnot : a ∉ pending := fun hmem => hold a hmem hfrom
      rw [if_neg (by omega)] at hfate
      by_cases hzero : s'.owned a = 0
      · rw [if_pos ⟨hfrom, hzero⟩, if_pos ⟨hzero, hlt, hnot⟩, hfate]
      · rw [if_neg fun hbad => hzero hbad.2, if_neg fun hbad => hzero hbad.1, hfate]
    · rw [if_neg hfrom] at hcount
      rw [if_neg fun hbad => hfrom hbad.1, Nat.add_zero, hfate]
      by_cases hto : owner = some a
      · have hmem := (hnew a hto).2
        simp [hmem]
      · rw [if_neg hto] at hcount
        rw [show s'.owned a = s.owned a by omega]

theorem Ledger.slotTaken {n slot : Nat} (targets : Bool) (h : Ledger s spare [n])
    (hn : n < s.codes.length) (hslot : slot < s.owners.length)
    (hother : s.owners.getD slot none ≠ some n) :
    Ledger (takeSlot targets n (s, spare) slot).1 (takeSlot targets n (s, spare) slot).2 [n] := by
  have hnew : ∀ a, some n = some a → a < s.codes.length ∧ a ∈ [n] := by
    intro a ha
    rw [← Option.some.inj ha]
    exact ⟨hn, List.mem_singleton_self n⟩
  have hpending : ∀ a ∈ [n], s.owners.getD slot none ≠ some a := by
    intro a ha
    rw [List.mem_singleton.1 ha]
    exact hother
  have hgain : ∀ a, a < s.codes.length →
      ((({ s with owners := s.owners.set slot (some n) } : PatchCodes).addReferences n 1).code
        a).references = (s.code a).references + if some n = some a then 1 else 0 := by
    intro a ha
    rw [addReferences_references { s with owners := s.owners.set slot (some n) } n 1 ha]
    simp only [Option.some.injEq]
    rfl
  unfold takeSlot
  dsimp only
  cases hold : s.owners.getD slot none with
  | none =>
    refine h.move hslot hnew hpending rfl (addReferences_length ..) ?_ ?_
    · intro a ha
      rw [hgain a ha, hold]
      simp
    · intro a
      simp only [hold, reduceCtorEq, false_and, if_false, Nat.add_zero]
      rfl
  | some o =>
    have hlt := h.valid o (mem_owners_of_getD hold).2
    dsimp only
    generalize hs' : (({ s with owners := s.owners.set slot (some n) } : PatchCodes).addReferences
      n 1).addReferences o (-1) = s'
    have howners : s'.owners = s.owners.set slot (some n) := by
      rw [← hs']
      rfl
    have hlength : s'.codes.length = s.codes.length := by
      rw [← hs', addReferences_length, addReferences_length]
    have hrefs : ∀ a, a < s.codes.length → (s'.code a).references = (s.code a).references +
        (if some n = some a then 1 else 0) +
          if s.owners.getD slot none = some a then -1 else 0 := by
      intro a ha
      rw [← hs', addReferences_references _ _ _ (by rwa [addReferences_length]), hgain a ha, hold]
      simp only [Option.some.injEq]
    have hzero : (s'.code o).references = 0 ↔ s'.owned o = 0 := by
      rw [hrefs o hlt, h.references o hlt, ← Int.natCast_eq_zero, owned_moved hslot howners]
    have hsame : s'.retired = s.retired ∧ s'.freedCodes = s.freedCodes := by
      rw [← hs']
      exact ⟨rfl, rfl⟩
    have hcount : ∀ (l : List Nat) a, (o :: l).count a = l.count a + if o = a then 1 else 0 := by
      intro l a
      rw [List.count_cons]
      simp only [beq_iff_eq]
    by_cases hnone : (s'.code o).references = 0
    · have howned := hzero.1 hnone
      have hdropped : ∀ a, (if o = a then 1 else 0) =
          if s.owners.getD slot none = some a ∧ s'.owned a = 0 then 1 else 0 := by
        intro a
        simp only [hold, Option.some.injEq]
        by_cases ha : o = a
        · subst ha
          rw [if_pos rfl, if_pos ⟨rfl, howned⟩]
        · rw [if_neg ha, if_neg fun hbad => ha hbad.1]
      rw [if_pos hnone]
      cases targets with
      | true =>
        refine h.move hslot hnew hpending howners hlength hrefs fun a => ?_
        simp only [if_true]
        rw [hcount, hsame.1, hsame.2, ← hdropped]
        omega
      | false =>
        refine h.move hslot hnew hpending howners hlength hrefs fun a => ?_
        show spare.count a + (o :: s'.retired).count a + s'.freedCodes.count a =
          spare.count a + s.retired.count a + s.freedCodes.count a +
            if s.owners.getD slot none = some a ∧ s'.owned a = 0 then 1 else 0
        rw [hcount, hsame.1, hsame.2, ← hdropped]
        omega
    · rw [if_neg hnone]
      refine h.move hslot hnew hpending howners hlength hrefs fun a => ?_
      rw [hsame.1, hsame.2, if_neg, Nat.add_zero]
      rintro ⟨hfrom, howned⟩
      rw [hold] at hfrom
      exact hnone (hzero.2 (Option.some.inj hfrom ▸ howned))

theorem addReferences_same (s : PatchCodes) (a : Nat) (n : Int) (b : Nat) :
    ((s.addReferences a n).code b).listed = (s.code b).listed ∧
      ((s.addReferences a n).code b).code = (s.code b).code := by
  simp only [PatchCodes.code, PatchCodes.addReferences, List.getD_eq_getElem?_getD, List.getElem?_modify]
  cases s.codes[b]? with
  | none => split <;> exact ⟨rfl, rfl⟩
  | some c => split <;> exact ⟨rfl, rfl⟩

/-- What taking a slot leaves alone, and what becomes of the owners. -/
structure TookSlot (n slot : Nat) (s s' : PatchCodes) : Prop where
  owners : s'.owners = s.owners.set slot (some n)
  length : s'.codes.length = s.codes.length
  live : s'.live = s.live
  freed : s'.freed = s.freed
  same : ∀ a, (s'.code a).listed = (s.code a).listed ∧ (s'.code a).code = (s.code a).code

theorem takeSlot_took (targets : Bool) (n : Nat) (st : PatchCodes × List Nat) (slot : Nat) :
    TookSlot n slot st.1 (takeSlot targets n st slot).1 := by
  have hgain : TookSlot n slot st.1
      (({ st.1 with owners := st.1.owners.set slot (some n) } : PatchCodes).addReferences n 1) :=
    ⟨rfl, addReferences_length .., rfl, rfl, addReferences_same _ n 1⟩
  unfold takeSlot
  dsimp only
  split
  · exact hgain
  · next o ho =>
    have hloss : TookSlot n slot st.1 ((({ st.1 with
        owners := st.1.owners.set slot (some n) } : PatchCodes).addReferences n 1).addReferences o (-1)) := by
      refine ⟨rfl, (addReferences_length ..).trans hgain.length, rfl, rfl, fun a => ?_⟩
      have hsame := addReferences_same
        (({ st.1 with owners := st.1.owners.set slot (some n) } : PatchCodes).addReferences n 1) o (-1) a
      exact ⟨hsame.1.trans (hgain.same a).1, hsame.2.trans (hgain.same a).2⟩
    split
    · split
      · exact hloss
      · exact ⟨hloss.owners, hloss.length, hloss.live, hloss.freed, hloss.same⟩
    · exact hloss

theorem Ledger.slotsTaken {n : Nat} (targets : Bool) (slots : List Nat) (h : Ledger s spare [n])
    (hn : n < s.codes.length) (hnodup : slots.Nodup) (hslots : ∀ slot ∈ slots, slot < s.owners.length)
    (hother : ∀ slot ∈ slots, s.owners.getD slot none ≠ some n) :
    let st := slots.foldl (takeSlot targets n) (s, spare)
    Ledger st.1 st.2 [n] ∧ st.1.codes.length = s.codes.length ∧ st.1.live = s.live ∧
      st.1.freed = s.freed ∧ st.1.owners.length = s.owners.length ∧
      (∀ a, (st.1.code a).listed = (s.code a).listed ∧ (st.1.code a).code = (s.code a).code) ∧
      (∀ slot, st.1.owners.getD slot none =
        if slot ∈ slots then some n else s.owners.getD slot none) := by
  induction slots generalizing s spare with
  | nil => exact ⟨h, rfl, rfl, rfl, rfl, fun a => ⟨rfl, rfl⟩, fun slot => by simp⟩
  | cons slot rest ih =>
    obtain ⟨hfirst, hrest⟩ := List.nodup_cons.1 hnodup
    have hlt := hslots slot List.mem_cons_self
    have htook := takeSlot_took targets n (s, spare) slot
    have hledger := h.slotTaken targets hn hlt (hother slot List.mem_cons_self)
    have howner : ∀ i, (takeSlot targets n (s, spare) slot).1.owners.getD i none =
        if i = slot then some n else s.owners.getD i none := by
      intro i
      rw [htook.owners, List.getD_eq_getElem?_getD, List.getElem?_set]
      by_cases hi : i = slot
      · subst hi
        simp [hlt]
      · simp [hi, Ne.symm hi, List.getD_eq_getElem?_getD]
    obtain ⟨hl, hlen, hlive, hfreed, howners, hsame, hget⟩ := ih hledger (htook.length.symm ▸ hn) hrest (by
        intro i hi
        rw [htook.owners, List.length_set]
        exact hslots i (List.mem_cons_of_mem slot hi))
      (by
        intro i hi
        rw [howner i, if_neg (ne_of_mem_of_not_mem hi hfirst)]
        exact hother i (List.mem_cons_of_mem slot hi))
    refine ⟨hl, hlen.trans htook.length, hlive.trans htook.live, hfreed.trans htook.freed, ?_, ?_, ?_⟩
    · exact howners.trans (by rw [htook.owners, List.length_set])
    · exact fun a => ⟨(hsame a).1.trans (htook.same a).1, (hsame a).2.trans (htook.same a).2⟩
    · intro i
      rw [List.foldl_cons, hget i, howner i]
      simp only [List.mem_cons]
      by_cases hi : i = slot
      · simp [hi]
      · simp [hi]

/-! The live table. -/

def listed (codes : List HlPatchCode) (a : Nat) : Bool := (codes.getD a default).listed

/-- Only the marks of `patch_live_publish` may differ. -/
structure Relisted (codes codes' : List HlPatchCode) : Prop where
  length : codes'.length = codes.length
  code : ∀ a, (codes'.getD a default).code = (codes.getD a default).code
  references : ∀ a, (codes'.getD a default).references = (codes.getD a default).references

theorem Relisted.trans {codes codes' codes'' : List HlPatchCode} (h : Relisted codes codes')
    (h' : Relisted codes' codes'') : Relisted codes codes'' :=
  ⟨h'.length.trans h.length, fun a => (h'.code a).trans (h.code a),
    fun a => (h'.references a).trans (h.references a)⟩

theorem relisted_modify (codes : List HlPatchCode) (a : Nat) (mark : Bool) :
    Relisted codes (codes.modify a fun c => { c with listed := mark }) := by
  refine ⟨List.length_modify .., fun b => ?_, fun b => ?_⟩
  · simp only [List.getD_eq_getElem?_getD, List.getElem?_modify]
    cases codes[b]? with
    | none => split <;> rfl
    | some c => split <;> rfl
  · simp only [List.getD_eq_getElem?_getD, List.getElem?_modify]
    cases codes[b]? with
    | none => split <;> rfl
    | some c => split <;> rfl

theorem listed_mark (codes : List HlPatchCode) (a : Nat) {b : Nat} (hb : b < codes.length) :
    listed (codes.modify a fun c => { c with listed := true }) b = (decide (a = b) || listed codes b) := by
  simp only [listed, List.getD_eq_getElem?_getD, List.getElem?_modify, List.getElem?_eq_getElem hb]
  by_cases hab : a = b <;> simp [hab]

theorem listed_clear (codes : List HlPatchCode) (a b : Nat) :
    listed (codes.modify a fun c => { c with listed := false }) b = (!decide (a = b) && listed codes b) := by
  simp only [listed, List.getD_eq_getElem?_getD, List.getElem?_modify]
  cases codes[b]? with
  | none =>
    by_cases hab : a = b <;> simp [hab]
    all_goals rfl
  | some c => by_cases hab : a = b <;> simp [hab]

theorem markListed_relisted (codes : List HlPatchCode) (owners : List (Option Nat)) :
    Relisted codes (markListed codes owners) := by
  induction owners generalizing codes with
  | nil => exact ⟨rfl, fun _ => rfl, fun _ => rfl⟩
  | cons owner owners ih =>
    cases owner with
    | none => exact ih codes
    | some a => exact (relisted_modify codes a true).trans (ih _)

theorem markListed_listed (codes : List HlPatchCode) (owners : List (Option Nat)) {b : Nat}
    (hb : b < codes.length) :
    listed (markListed codes owners) b = true ↔ listed codes b = true ∨ some b ∈ owners := by
  induction owners generalizing codes with
  | nil => simp [markListed]
  | cons owner owners ih =>
    cases owner with
    | none => simp [markListed, ih codes hb]
    | some a =>
      rw [markListed, ih _ (by rwa [List.length_modify]), listed_mark codes a hb, Bool.or_eq_true,
        decide_eq_true_eq, List.mem_cons, Option.some.injEq, eq_comm]
      tauto

theorem collectListed_spec (codes : List HlPatchCode) (entries : List Nat)
    (owners : List (Option Nat)) (hnodup : entries.Nodup)
    (hclear : ∀ a ∈ entries, listed codes a = false) :
    Relisted codes (collectListed codes entries owners).1 ∧
      (∀ b, listed (collectListed codes entries owners).1 b = true ↔ listed codes b = true ∧ some b ∉ owners) ∧
      (∀ b, b ∈ (collectListed codes entries owners).2 ↔
        b ∈ entries ∨ listed codes b = true ∧ some b ∈ owners) ∧
      (collectListed codes entries owners).2.Nodup := by
  induction owners generalizing codes entries with
  | nil =>
    exact ⟨⟨rfl, fun _ => rfl, fun _ => rfl⟩, by simp [collectListed], by simp [collectListed], hnodup⟩
  | cons owner owners ih =>
    cases owner with
    | none =>
      obtain ⟨hsame, hmarks, hmem, hnew⟩ := ih codes entries hnodup hclear
      exact ⟨hsame, by simpa [collectListed] using hmarks, by simpa [collectListed] using hmem, hnew⟩
    | some a =>
      cases hmark : listed codes a with
      | true =>
        have hmark' : (codes.getD a default).listed = true := hmark
        have hfresh : a ∉ entries := by
          intro hmem
          cases (hclear a hmem).symm.trans hmark
        obtain ⟨hsame, hmarks, hmem, hnew⟩ := ih
          (codes.modify a fun c => { c with listed := false }) (entries ++ [a])
          (by
            rw [List.nodup_append_comm]
            exact List.nodup_cons.2 ⟨hfresh, hnodup⟩)
          (by
            intro b hb
            rw [listed_clear]
            rcases List.mem_append.1 hb with hb | hb
            · simp [hclear b hb]
            · simp [List.mem_singleton.1 hb])
        simp only [collectListed, hmark', if_true]
        refine ⟨(relisted_modify codes a false).trans hsame, ?_, ?_, hnew⟩
        · intro b
          rw [hmarks, listed_clear, List.mem_cons]
          by_cases hab : a = b
          · simp [hab]
          · simp [hab, Ne.symm hab]
        · intro b
          rw [hmem, listed_clear, List.mem_append, List.mem_singleton, List.mem_cons]
          by_cases hab : a = b
          · subst hab
            simp [hmark]
          · simp [hab, Ne.symm hab]
      | false =>
        have hmark' : (codes.getD a default).listed = false := hmark
        obtain ⟨hsame, hmarks, hmem, hnew⟩ := ih codes entries hnodup hclear
        simp only [collectListed, hmark', Bool.false_eq_true, if_false]
        refine ⟨hsame, ?_, ?_, hnew⟩
        · intro b
          rw [hmarks, List.mem_cons]
          by_cases hab : b = a
          · simp [hab, hmark]
          · simp [hab]
        · intro b
          rw [hmem, List.mem_cons]
          by_cases hab : b = a
          · simp [hab, hmark]
          · simp [hab]

theorem mergeSort_byCode (codes : List HlPatchCode) (entries : List Nat) :
    (entries.mergeSort (byCode codes)).Pairwise fun a b => byCode codes a b = true := by
  apply List.pairwise_mergeSort
  · intro a b c hab hbc
    simp only [byCode, decide_eq_true_eq] at *
    omega
  · intro a b
    simp only [byCode, Bool.or_eq_true, decide_eq_true_eq]
    omega

theorem patchLivePublish_spec (slots capacity : Nat) (hvalid : ∀ a, some a ∈ s.owners → a < s.codes.length)
    (hbeyond : ∀ slot, slots ≤ slot → s.owners.getD slot none = none)
    (hclear : ∀ a, (s.code a).listed = false) :
    Relisted s.codes (patchLivePublish slots capacity s).codes ∧
      (∀ a, ((patchLivePublish slots capacity s).code a).listed = false) ∧
      (patchLivePublish slots capacity s).entries.Nodup ∧
      (∀ a, a ∈ (patchLivePublish slots capacity s).entries ↔ some a ∈ s.owners) ∧
      (patchLivePublish slots capacity s).entries.Pairwise fun a b =>
        ((patchLivePublish slots capacity s).code a).code ≤
          ((patchLivePublish slots capacity s).code b).code := by
  have htake : ∀ a, some a ∈ s.owners.take slots ↔ some a ∈ s.owners := by
    intro a
    refine ⟨List.mem_of_mem_take, fun hmem => ?_⟩
    obtain ⟨i, hi, hget⟩ := List.getElem_of_mem hmem
    have hlt : i < slots := by
      by_contra hge
      have hnone := hbeyond i (Nat.le_of_not_lt hge)
      rw [List.getD_eq_getElem?_getD, List.getElem?_eq_getElem hi, hget] at hnone
      cases hnone
    exact List.mem_take_iff_getElem.2 ⟨i, by omega, hget⟩
  have hmarked := markListed_relisted s.codes (s.owners.take slots)
  obtain ⟨hsame, hmarks, hmem, hnodup⟩ := collectListed_spec
    (markListed s.codes (s.owners.take slots)) [] (s.owners.take slots) List.nodup_nil (by simp)
  have hlisted : ∀ a, listed (markListed s.codes (s.owners.take slots)) a = true ↔
      some a ∈ s.owners.take slots := by
    intro a
    by_cases ha : a < s.codes.length
    · rw [markListed_listed s.codes _ ha]
      have hnot : listed s.codes a = false := hclear a
      simp [hnot]
    · have hout : listed (markListed s.codes (s.owners.take slots)) a = false := by
        rw [listed, List.getD_eq_getElem?_getD, List.getElem?_eq_none]
        · rfl
        · rw [hmarked.length]
          omega
      rw [hout]
      simp only [Bool.false_eq_true, false_iff, htake]
      exact fun hmem => ha (hvalid a hmem)
  have hperm := fun le => List.mergeSort_perm
    (collectListed (markListed s.codes (s.owners.take slots)) [] (s.owners.take slots)).2 le
  refine ⟨hmarked.trans hsame, ?_, ?_, ?_, ?_⟩
  · intro a
    apply Bool.eq_false_iff.2
    intro hbad
    obtain ⟨hin, hout⟩ := (hmarks a).1 hbad
    exact hout ((hlisted a).1 hin)
  · exact (hperm _).nodup_iff.2 hnodup
  · intro a
    refine (hperm _).mem_iff.trans ((hmem a).trans ?_)
    rw [hlisted a, htake]
    simp
  · exact (mergeSort_byCode _ _).imp of_decide_eq_true

/-! Between two applications. -/

/-- The allocations of a module with `slots` slots in use, once the live table is published. -/
structure Sound (slots : Nat) (s : PatchCodes) (spare : List Nat) : Prop where
  ledger : Ledger s spare []
  unlisted : ∀ a, (s.code a).listed = false
  beyond : ∀ slot, slots ≤ slot → s.owners.getD slot none = none
  live_nodup : s.entries.Nodup
  live_iff : ∀ a, a ∈ s.entries ↔ some a ∈ s.owners
  live_sorted : s.entries.Pairwise fun a b => (s.code a).code ≤ (s.code b).code
  room : ∀ live, s.live = some live → live.entries.length ≤ live.capacity
  freed : ∀ f ∈ s.freed, f.references = 0 ∧ f.live = false

theorem owned_eq_zero_of_not_mem (h : some a ∉ s.owners) : s.owned a = 0 :=
  List.count_eq_zero.2 h

theorem code_allocate (s : PatchCodes) (code a : Nat) (ha : a < s.codes.length) :
    (s.allocate code).code a = s.code a := by
  simp only [PatchCodes.code, PatchCodes.allocate, List.getD_eq_getElem?_getD, List.getElem?_append_left ha]

theorem code_allocate_new (s : PatchCodes) (code : Nat) :
    (s.allocate code).code s.codes.length = ⟨code, 0, false⟩ := by
  simp [PatchCodes.code, PatchCodes.allocate]

theorem unlisted_allocate (h : ∀ a, (s.code a).listed = false) (code a : Nat) :
    ((s.allocate code).code a).listed = false := by
  rcases Nat.lt_trichotomy a s.codes.length with ha | rfl | ha
  · rw [code_allocate s code a ha]
    exact h a
  · rw [code_allocate_new]
  · rw [PatchCodes.code, List.getD_eq_getElem?_getD, List.getElem?_eq_none]
    · rfl
    · simp only [PatchCodes.allocate, List.length_append, List.length_singleton]
      omega

theorem Ledger.allocate (h : Ledger s [] []) (code : Nat) :
    Ledger (s.allocate code) [] [s.codes.length] := by
  have hlength : (s.allocate code).codes.length = s.codes.length + 1 := by
    simp [PatchCodes.allocate]
  have hnew : s.owned s.codes.length = 0 := by
    apply owned_eq_zero_of_not_mem
    intro hmem
    exact absurd (h.valid _ hmem) (Nat.lt_irrefl _)
  refine ⟨?_, ?_, ?_⟩
  · intro a ha
    rw [hlength]
    exact Nat.lt_succ_of_lt (h.valid a ha)
  · intro a ha
    rw [hlength] at ha
    rcases Nat.lt_succ_iff_lt_or_eq.1 ha with ha | rfl
    · rw [code_allocate s code a ha]
      exact h.references a ha
    · rw [code_allocate_new]
      exact (congrArg Int.ofNat hnew).symm
  · intro a
    refine (h.fate a).trans ?_
    rw [hlength]
    show (if s.owned a = 0 ∧ _ then 1 else 0) = if s.owned a = 0 ∧ _ then 1 else 0
    simp only [List.mem_singleton, List.not_mem_nil, not_false_eq_true, and_true]
    congr 1
    apply propext
    constructor
    · rintro ⟨hzero, hlt⟩
      exact ⟨hzero, by omega, by omega⟩
    · rintro ⟨hzero, hlt, hne⟩
      exact ⟨hzero, by omega⟩

theorem Ledger.relist (h : Ledger s spare pending) (howners : s'.owners = s.owners)
    (hcodes : Relisted s.codes s'.codes) (hretired : s'.retired = s.retired)
    (hfreed : s'.freedCodes = s.freedCodes) : Ledger s' spare pending := by
  refine ⟨?_, ?_, ?_⟩
  · rw [howners, hcodes.length]
    exact h.valid
  · intro a ha
    rw [hcodes.length] at ha
    rw [PatchCodes.owned, howners]
    exact (hcodes.references a).trans (h.references a ha)
  · intro a
    rw [hretired, hfreed, PatchCodes.owned, howners, hcodes.length]
    exact h.fate a

theorem Ledger.settle {n : Nat} (h : Ledger s spare [n]) (hn : some n ∈ s.owners) :
    Ledger s spare [] := by
  refine ⟨h.valid, h.references, fun a => (h.fate a).trans ?_⟩
  have hpos := owned_pos_iff.2 hn
  by_cases ha : a = n
  · subst ha
    rw [if_neg (by omega), if_neg (by omega)]
  · simp [ha]

theorem Ledger.spare_unowned (h : Ledger s spare []) (ha : a ∈ spare) :
    a < s.codes.length ∧ s.owned a = 0 := by
  have hfate := h.fate a
  have hpos := List.count_pos_iff.2 ha
  split at hfate
  · next hzero => exact ⟨hzero.2.1, hzero.1⟩
  · omega

theorem freedCodes_free (s : PatchCodes) (a : Nat) :
    (patchCodeFree s a).freedCodes = s.freedCodes ++ [a] := by
  simp [patchCodeFree, PatchCodes.freedCodes]

theorem Ledger.drop (h : Ledger s (a :: spare) []) (held : Nat → Bool) :
    Ledger (dropSuperseded held s a) spare [] := by
  unfold dropSuperseded
  split
  · refine ⟨h.valid, h.references, fun b => Eq.trans ?_ (h.fate b)⟩
    show spare.count b + (a :: s.retired).count b + s.freedCodes.count b = _
    rw [List.count_cons, List.count_cons]
    omega
  · refine ⟨h.valid, h.references, fun b => Eq.trans ?_ (h.fate b)⟩
    show spare.count b + s.retired.count b + (patchCodeFree s a).freedCodes.count b = _
    rw [freedCodes_free, List.count_append, List.count_cons, List.count_cons, List.count_nil]
    omega

theorem not_mem_of_owned_eq_zero (h : s.owned a = 0) : some a ∉ s.owners :=
  List.count_eq_zero.1 h

theorem Sound.free {slots : Nat} (h : Sound slots s spare) (ha : a < s.codes.length) (hzero : s.owned a = 0) :
    ∀ f ∈ (patchCodeFree s a).freed, f.references = 0 ∧ f.live = false := by
  intro f hf
  rcases List.mem_append.1 hf with hf | hf
  · exact h.freed f hf
  · rw [List.mem_singleton.1 hf]
    refine ⟨?_, ?_⟩
    · show (s.code a).references = 0
      rw [h.ledger.references a ha, hzero]
      rfl
    · apply decide_eq_false
      rw [h.live_iff]
      exact not_mem_of_owned_eq_zero hzero

theorem Sound.drop {slots : Nat} (held : Nat → Bool) (h : Sound slots s (a :: spare)) :
    Sound slots (dropSuperseded held s a) spare := by
  have hledger := h.ledger.drop held
  obtain ⟨ha, hzero⟩ := h.ledger.spare_unowned List.mem_cons_self
  have hfreed := h.free ha hzero
  unfold dropSuperseded at hledger ⊢
  split at hledger
  · next hheld =>
    rw [if_pos hheld]
    exact ⟨hledger, h.unlisted, h.beyond, h.live_nodup, h.live_iff, h.live_sorted, h.room, h.freed⟩
  · next hheld =>
    rw [if_neg hheld]
    exact ⟨hledger, h.unlisted, h.beyond, h.live_nodup, h.live_iff, h.live_sorted, h.room, hfreed⟩

theorem Sound.drop_all {slots : Nat} (held : Nat → Bool) (h : Sound slots s spare) :
    Sound slots (spare.foldl (dropSuperseded held) s) [] := by
  induction spare generalizing s with
  | nil => exact h
  | cons a spare ih => exact ih (h.drop held)

theorem exists_slot_of_mem (h : some a ∈ s.owners) :
    ∃ slot, s.owners.getD slot none = some a := by
  obtain ⟨i, hi, hget⟩ := List.getElem_of_mem h
  exact ⟨i, by rw [List.getD_eq_getElem?_getD, List.getElem?_eq_getElem hi, hget]; rfl⟩

theorem Sound.commit {slots slots' : Nat} (h : Sound slots s []) (hslots : slots ≤ slots')
    (targets : Bool) (held : Nat → Bool) (code : Nat) {functions : List Nat}
    (hsome : functions ≠ []) (hnodup : functions.Nodup)
    (hbound : ∀ slot ∈ functions, slot < slots' ∧ slot < s.owners.length) :
    Sound slots' (commitCodes targets held code slots' functions s) [] := by
  have hn : s.codes.length < (s.allocate code).codes.length := by simp [PatchCodes.allocate]
  have hother : ∀ slot ∈ functions, (s.allocate code).owners.getD slot none ≠ some s.codes.length := by
    intro slot _ hbad
    exact absurd (h.ledger.valid _ (mem_owners_of_getD (s := s) hbad).2) (Nat.lt_irrefl _)
  obtain ⟨hledger, hlength, hlive, hfreed, howners, hsame, hget⟩ :=
    (h.ledger.allocate code).slotsTaken targets functions hn hnodup (fun slot hslot => (hbound slot hslot).2)
      hother
  unfold commitCodes
  dsimp only
  generalize functions.foldl (takeSlot targets s.codes.length) (s.allocate code, []) = st at *
  obtain ⟨t, spare⟩ := st
  dsimp only at *
  have howners_of : ∀ a, some a ∈ t.owners → a = s.codes.length ∨ some a ∈ s.owners := by
    intro a ha
    obtain ⟨slot, hslot⟩ := exists_slot_of_mem ha
    rw [hget slot] at hslot
    split at hslot
    · exact Or.inl (Option.some.inj hslot).symm
    · exact Or.inr (mem_owners_of_getD (s := s) hslot).2
  have hmine : some s.codes.length ∈ t.owners := by
    obtain ⟨slot, hslot⟩ := List.exists_mem_of_ne_nil functions hsome
    have howner := hget slot
    rw [if_pos hslot] at howner
    exact (mem_owners_of_getD howner).2
  have hclear : ∀ a, (t.code a).listed = false := by
    intro a
    rw [(hsame a).1]
    exact unlisted_allocate h.unlisted code a
  have hbeyond : ∀ slot, slots' ≤ slot → t.owners.getD slot none = none := by
    intro slot hslot
    rw [hget slot, if_neg fun hmem => absurd (hbound slot hmem).1 (by omega)]
    exact h.beyond slot (by omega)
  obtain ⟨hcodes, hunlisted, hlnodup, hliff, hsorted⟩ :=
    patchLivePublish_spec slots' (s.entries.length + 1 + 1) hledger.valid hbeyond hclear
  apply Sound.drop_all
  refine ⟨(hledger.settle hmine).relist rfl hcodes rfl rfl, hunlisted, hbeyond, hlnodup, hliff, hsorted, ?_, ?_⟩
  · intro live hl
    have hentries : live.entries = (patchLivePublish slots' (s.entries.length + 1 + 1) t).entries := by
      rw [PatchCodes.entries, hl]
    have hroom : live.capacity = s.entries.length + 1 + 1 := by
      rw [← Option.some.inj hl]
    have hsubset : live.entries ⊆ s.codes.length :: s.entries := by
      intro a ha
      rw [hentries, hliff] at ha
      rcases howners_of a ha with rfl | ha
      · exact List.mem_cons_self
      · exact List.mem_cons_of_mem _ ((h.live_iff a).2 ha)
    have hle := (hentries ▸ hlnodup : live.entries.Nodup).length_le_of_subset hsubset
    rw [List.length_cons] at hle
    omega
  · intro f hf
    have hsame : f ∈ s.freed := by
      have : (patchLivePublish slots' (s.entries.length + 1 + 1) t).freed = s.freed := hfreed
      rwa [this] at hf
    exact h.freed f hsame

theorem Ledger.abandon {n : Nat} (h : Ledger s spare [n]) (hn : n < s.codes.length)
    (hzero : s.owned n = 0) : Ledger s (n :: spare) [] := by
  refine ⟨h.valid, h.references, fun a => ?_⟩
  have hfate := h.fate a
  rw [List.count_cons]
  by_cases ha : a = n
  · subst ha
    rw [if_neg fun hbad => hbad.2.2 List.mem_cons_self] at hfate
    rw [beq_self_eq_true, if_pos rfl, if_pos ⟨hzero, hn, List.not_mem_nil⟩]
    omega
  · simp only [List.mem_singleton, ha, not_false_eq_true, and_true] at hfate
    simp only [List.not_mem_nil, not_false_eq_true, and_true, beq_iff_eq, Ne.symm ha, if_false]
    omega

theorem Sound.discard {slots : Nat} (h : Sound slots s []) (code : Nat) :
    Sound slots (patchCodeFree (s.allocate code) s.codes.length) [] := by
  have hnew : (s.allocate code).owned s.codes.length = 0 := by
    apply owned_eq_zero_of_not_mem
    intro hmem
    exact absurd (h.ledger.valid _ hmem) (Nat.lt_irrefl _)
  have hlength : s.codes.length < (s.allocate code).codes.length := by simp [PatchCodes.allocate]
  have hsorted : (s.allocate code).entries.Pairwise fun a b =>
      ((s.allocate code).code a).code ≤ ((s.allocate code).code b).code := by
    refine h.live_sorted.imp_of_mem fun {a b} ha hb hab => ?_
    have ha_old := h.ledger.valid a ((h.live_iff a).1 ha)
    have hb_old := h.ledger.valid b ((h.live_iff b).1 hb)
    rw [code_allocate s code a ha_old, code_allocate s code b hb_old]
    exact hab
  have habandoned : Sound slots (s.allocate code) [s.codes.length] :=
    ⟨(h.ledger.allocate code).abandon hlength hnew, unlisted_allocate h.unlisted code, h.beyond,
      h.live_nodup, h.live_iff, hsorted, h.room, h.freed⟩
  exact habandoned.drop fun _ => false

/-! Releasing the module. -/

/-- The accounts while the slots are given up; the live table is gone. -/
structure Releasing (s : PatchCodes) : Prop where
  ledger : Ledger s [] []
  live : s.live = none
  freed : ∀ f ∈ s.freed, f.references = 0 ∧ f.live = false

theorem releaseSlot_owners (s : PatchCodes) (slot i : Nat) :
    (releaseSlot s slot).owners.getD i none = if i = slot then none else s.owners.getD i none := by
  have hset : ∀ t : PatchCodes, t.owners = s.owners.set slot none →
      t.owners.getD i none = if i = slot then none else s.owners.getD i none := by
    intro t ht
    rw [ht, List.getD_eq_getElem?_getD, List.getElem?_set, List.getD_eq_getElem?_getD]
    by_cases hi : i = slot
    · subst hi
      by_cases hlt : i < s.owners.length
      · simp [hlt]
      · simp [hlt]
    · simp [hi, Ne.symm hi]
  unfold releaseSlot
  split
  · next hnone =>
    by_cases hi : i = slot
    · rw [if_pos hi, hi, hnone]
    · rw [if_neg hi]
  · dsimp only
    split
    · exact hset _ rfl
    · exact hset _ rfl

theorem releaseSlot_length (s : PatchCodes) (slot : Nat) :
    (releaseSlot s slot).codes.length = s.codes.length := by
  unfold releaseSlot
  split
  · rfl
  · dsimp only
    split
    · exact addReferences_length ..
    · exact addReferences_length ..

theorem Releasing.slot (h : Releasing s) (slot : Nat) : Releasing (releaseSlot s slot) := by
  unfold releaseSlot
  cases hold : s.owners.getD slot none with
  | none => exact h
  | some o =>
    obtain ⟨hslot, hmem⟩ := mem_owners_of_getD hold
    have hlt := h.ledger.valid o hmem
    dsimp only
    generalize hs' : ({ s with owners := s.owners.set slot none } : PatchCodes).addReferences o (-1) = s'
    have howners : s'.owners = s.owners.set slot none := by
      rw [← hs']
      rfl
    have hlength : s'.codes.length = s.codes.length := by
      rw [← hs', addReferences_length]
    have hrefs : ∀ a, a < s.codes.length → (s'.code a).references = (s.code a).references +
        (if none = some a then 1 else 0) + if s.owners.getD slot none = some a then -1 else 0 := by
      intro a ha
      rw [← hs', addReferences_references { s with owners := s.owners.set slot none } o (-1) ha, hold]
      simp only [reduceCtorEq, if_false, Option.some.injEq, Int.add_zero]
      rfl
    have hzero : (s'.code o).references = 0 ↔ s'.owned o = 0 := by
      rw [hrefs o hlt, h.ledger.references o hlt, ← Int.natCast_eq_zero, owned_moved hslot howners]
    have hsame : s'.retired = s.retired ∧ s'.freed = s.freed ∧ s'.live = s.live := by
      rw [← hs']
      exact ⟨rfl, rfl, rfl⟩
    have hfreedCodes : s'.freedCodes = s.freedCodes := by
      rw [PatchCodes.freedCodes, hsame.2.1, PatchCodes.freedCodes]
    by_cases hnone : (s'.code o).references = 0
    · have howned := hzero.1 hnone
      rw [if_pos hnone]
      refine ⟨?_, hsame.2.2.trans h.live, ?_⟩
      · refine h.ledger.move hslot (by simp) (by simp) howners hlength hrefs fun a => ?_
        show [].count a + s'.retired.count a + (patchCodeFree s' o).freedCodes.count a =
          [].count a + s.retired.count a + s.freedCodes.count a +
            if s.owners.getD slot none = some a ∧ s'.owned a = 0 then 1 else 0
        rw [freedCodes_free, List.count_append, hsame.1, hfreedCodes, List.count_singleton]
        simp only [hold, Option.some.injEq, beq_iff_eq]
        by_cases ha : o = a
        · subst ha
          rw [if_pos rfl, if_pos ⟨rfl, howned⟩]
          omega
        · rw [if_neg ha, if_neg fun hbad => ha hbad.1]
          omega
      · intro f hf
        rcases List.mem_append.1 hf with hf | hf
        · exact h.freed f (hsame.2.1 ▸ hf)
        · rw [List.mem_singleton.1 hf]
          refine ⟨hnone, decide_eq_false ?_⟩
          rw [PatchCodes.entries, hsame.2.2, h.live]
          exact List.not_mem_nil
    · rw [if_neg hnone]
      refine ⟨?_, hsame.2.2.trans h.live, by rw [hsame.2.1]; exact h.freed⟩
      refine h.ledger.move hslot (by simp) (by simp) howners hlength hrefs fun a => ?_
      rw [hsame.1, hfreedCodes, if_neg, Nat.add_zero]
      rintro ⟨hfrom, howned⟩
      rw [hold] at hfrom
      exact hnone (hzero.2 (Option.some.inj hfrom ▸ howned))

theorem Releasing.slots (h : Releasing s) (n : Nat) :
    Releasing ((List.range n).foldl releaseSlot s) ∧
      ((List.range n).foldl releaseSlot s).codes.length = s.codes.length ∧
      ∀ i, ((List.range n).foldl releaseSlot s).owners.getD i none =
        if i < n then none else s.owners.getD i none := by
  induction n with
  | zero => exact ⟨h, rfl, fun i => by simp⟩
  | succ n ih =>
    rw [List.range_succ, List.foldl_append, List.foldl_cons, List.foldl_nil]
    refine ⟨ih.1.slot n, (releaseSlot_length _ n).trans ih.2.1, fun i => ?_⟩
    rw [releaseSlot_owners, ih.2.2 i]
    by_cases hi : i = n
    · simp [hi]
    · rw [if_neg hi]
      by_cases hlt : i < n
      · rw [if_pos hlt, if_pos (by omega)]
      · rw [if_neg hlt, if_neg (by omega)]

theorem freeAll_spec (l : List Nat) (hlive : s.live = none) (hrefs : ∀ a ∈ l, (s.code a).references = 0)
    (hfreed : ∀ f ∈ s.freed, f.references = 0 ∧ f.live = false) :
    (∀ f ∈ (l.foldl patchCodeFree s).freed, f.references = 0 ∧ f.live = false) ∧
      (l.foldl patchCodeFree s).freedCodes = s.freedCodes ++ l := by
  induction l generalizing s with
  | nil => exact ⟨hfreed, by simp⟩
  | cons a l ih =>
    have hnext := ih (s := patchCodeFree s a) hlive (fun b hb => hrefs b (List.mem_cons_of_mem a hb)) (by
        intro f hf
        rcases List.mem_append.1 hf with hf | hf
        · exact hfreed f hf
        · rw [List.mem_singleton.1 hf]
          refine ⟨hrefs a List.mem_cons_self, decide_eq_false ?_⟩
          rw [PatchCodes.entries, hlive]
          exact List.not_mem_nil)
    refine ⟨hnext.1, ?_⟩
    rw [List.foldl_cons, hnext.2, freedCodes_free, List.append_assoc, List.singleton_append]

theorem Releasing.retire (h : Releasing s) (hnone : ∀ a, some a ∉ s.owners) :
    (∀ f ∈ (s.retired.foldl patchCodeFree s).freed, f.references = 0 ∧ f.live = false) ∧
      (s.retired.foldl patchCodeFree s).freedCodes.Perm (List.range s.codes.length) := by
  have hfate := fun a => h.ledger.fate a
  simp only [owned_eq_zero_of_not_mem (hnone _), List.count_nil, Nat.zero_add, true_and,
    List.not_mem_nil, not_false_eq_true, and_true] at hfate
  have hretired : ∀ a ∈ s.retired, (s.code a).references = 0 := by
    intro a ha
    have hlt : a < s.codes.length := by
      by_contra hge
      have hcount := hfate a
      rw [if_neg hge] at hcount
      have hpos := List.count_pos_iff.2 ha
      omega
    rw [h.ledger.references a hlt, owned_eq_zero_of_not_mem (hnone a)]
    rfl
  obtain ⟨hfreed, hcodes⟩ := freeAll_spec s.retired h.live hretired h.freed
  refine ⟨hfreed, ?_⟩
  rw [hcodes, List.perm_iff_count]
  intro a
  rw [List.count_append, Nat.add_comm, hfate a]
  by_cases ha : a < s.codes.length
  · rw [if_pos ha, List.count_eq_one_of_mem List.nodup_range (List.mem_range.2 ha)]
  · rw [if_neg ha, List.count_eq_zero.2 fun hmem => ha (List.mem_range.1 hmem)]

theorem Sound.release {slots : Nat} (h : Sound slots s []) :
    (∀ f ∈ (hlModulePatchReleaseAll slots s).freed, f.references = 0 ∧ f.live = false) ∧
      (hlModulePatchReleaseAll slots s).freedCodes.Perm (List.range s.codes.length) := by
  have hstart : Releasing { s with live := none } :=
    ⟨⟨h.ledger.valid, h.ledger.references, h.ledger.fate⟩, rfl, h.freed⟩
  obtain ⟨hreleasing, hlength, howners⟩ := hstart.slots slots
  have hnone : ∀ a, some a ∉
      ((List.range slots).foldl releaseSlot { s with live := none }).owners := by
    intro a ha
    obtain ⟨slot, hslot⟩ := exists_slot_of_mem ha
    rw [howners slot] at hslot
    split at hslot
    · cases hslot
    · next hge =>
      have hbeyond := h.beyond slot (Nat.le_of_not_lt hge)
      cases hbeyond.symm.trans hslot
  obtain ⟨hfreed, hperm⟩ := hreleasing.retire hnone
  rw [hlength] at hperm
  exact ⟨hfreed, hperm⟩

end HashLink
