import HashLink.Lib.BackLinks
import Mathlib.Data.List.Perm.Basic
import Mathlib.Tactic.IntervalCases

/-! The table of roots of `gc.c`. The roots are in an array; a hash table of doubly linked chains has the
index of each, so that a root is found without a look at all. A root that is removed leaves its place to
the last one.

The table of roots holds what a plain array holds. Each live entry is on the chain of its bucket, once,
and the chains are linked both ways; adding and removing a root keeps that, also when the entry that moves
is on the chain of the one that goes. -/

namespace HashLink.Gc

/-- The arrays `gc_roots`, `gc_root_owners`, `gc_root_buckets`, `gc_root_next` and `gc_root_previous`,
where an index of -1 is none. What the first two have past `count` has no meaning. -/
structure RootTable where
  roots : Nat → BitVec 64
  owners : Nat → BitVec 64
  buckets : Nat → Option Nat
  next : Nat → Option Nat
  previous : Nat → Option Nat
  count : Nat
  max : Nat

/-- Why a call does not return: there is no memory, an `int` overflows, or a chain has no end. -/
inductive RootError where
  | outOfMemory
  | overflow
  | endless
  deriving DecidableEq

namespace RootTable

def gcRootBucket (t : RootTable) (r : BitVec 64) : Nat :=
  let value := r ^^^ (r >>> 16)
  let value := value * 2654435761#64
  let value := value ^^^ (value >>> 16)
  (value.toNat % 2 ^ 32) &&& (t.max * 2 - 1)

def gcRootLink (t : RootTable) (index : Nat) : RootTable :=
  let bucket := t.gcRootBucket (t.roots index)
  let head := t.buckets bucket
  { t with
    previous := BackLinks.setAt (Function.update t.previous index none) head (some index)
    next := Function.update t.next index head
    buckets := Function.update t.buckets bucket (some index) }

def gcRootUnlink (t : RootTable) (index : Nat) : RootTable :=
  let previous := t.previous index
  let next := t.next index
  { t with
    next := BackLinks.setAt t.next previous next
    buckets := if previous = none then
      Function.update t.buckets (t.gcRootBucket (t.roots index)) next else t.buckets
    previous := BackLinks.setAt t.previous next previous }

/-- The larger arrays of `hl_add_root_owner`; `junk` is what the new links hold. -/
def grow (memory : Bool) (junk : Nat → Option Nat) (t : RootTable) : Except RootError RootTable :=
  let nroots := if t.max = 0 then 16 else t.max * 2
  if ¬memory then .error .outOfMemory
  else if 2 ^ 31 ≤ nroots * 2 then .error .overflow
  else
    .ok ((List.range t.count).foldl gcRootLink
      { t with buckets := fun _ => none, next := junk, previous := junk, max := nroots })

/-- `hl_add_root_owner`; `hl_add_root` has no owner. -/
def hlAddRootOwner (memory : Bool) (junk : Nat → Option Nat) (t : RootTable) (r owner : BitVec 64) :
    Except RootError RootTable := do
  let t ← if t.count = t.max then t.grow memory junk else .ok t
  let t := { t with
    roots := Function.update t.roots t.count r
    owners := Function.update t.owners t.count owner }
  .ok { t.gcRootLink t.count with count := t.count + 1 }

/-- The loop of `hl_remove_root`: the largest index of the chain with the root. -/
def findRoot (t : RootTable) (v : BitVec 64) : Nat → Option Nat → Option Nat → Except RootError (Option Nat)
  | _, none, found => .ok found
  | 0, some _, _ => .error .endless
  | fuel + 1, some i, found =>
    findRoot t v fuel (t.next i)
      (if t.roots i = v ∧ (found.all fun f => decide (f < i)) then some i else found)

def moveLast (t : RootTable) (found last : Nat) : RootTable :=
  let t := { t with
    roots := Function.update t.roots found (t.roots last)
    owners := Function.update t.owners found (t.owners last) }
  let previous := t.previous last
  let next := t.next last
  { t with
    previous := BackLinks.setAt (Function.update t.previous found previous) next (some found)
    next := BackLinks.setAt (Function.update t.next found next) previous (some found)
    buckets := if previous = none then
      Function.update t.buckets (t.gcRootBucket (t.roots found)) (some found) else t.buckets }

/-- The search of `hl_remove_root`. A chain has no more entries than the table. -/
def lookupRoot (t : RootTable) (v : BitVec 64) : Except RootError (Option Nat) :=
  if 0 < t.count then t.findRoot v t.count (t.buckets (t.gcRootBucket v)) none else .ok none

/-- The entry goes, and the last one takes its place. -/
def removeAt (t : RootTable) (found : Nat) : RootTable :=
  let t := t.gcRootUnlink found
  let last := t.count - 1
  let t := { t with count := last }
  if found ≠ last then t.moveLast found last else t

def hlRemoveRoot (t : RootTable) (v : BitVec 64) : Except RootError RootTable :=
  (t.lookupRoot v).map fun found => found.elim t t.removeAt

def entries (t : RootTable) : List (BitVec 64) := (List.range t.count).map t.roots

def start : RootTable where
  roots _ := 0
  owners _ := 0
  buckets _ := none
  next _ := none
  previous _ := none
  count := 0
  max := 0

end RootTable

inductive RootCall where
  | add (r owner : BitVec 64) (memory : Bool) (junk : Nat → Option Nat)
  | remove (v : BitVec 64)

namespace RootCall

def apply (t : RootTable) : RootCall → Except RootError RootTable
  | .add r owner memory junk => t.hlAddRootOwner memory junk r owner
  | .remove v => t.hlRemoveRoot v

def run (t : RootTable) : List RootCall → Except RootError RootTable
  | [] => .ok t
  | c :: calls => (c.apply t).bind fun t => run t calls

def plain (roots : List (BitVec 64)) : RootCall → List (BitVec 64)
  | .add r _ _ _ => roots ++ [r]
  | .remove v => (roots.reverse.erase v).reverse

end RootCall

open BackLinks

namespace RootTable

variable {t : RootTable} {live : Nat → Prop} {chain : Nat → List Nat} {index : Nat} {plain : List (BitVec 64)}

/-- The chain of each bucket has the live entries whose roots fall in it. -/
structure Indexed (t : RootTable) (live : Nat → Prop) (chain : Nat → List Nat) : Prop where
  linked : ∀ k, Linked t.next t.previous (chain k)
  head : ∀ k, t.buckets k = (chain k).head?
  nodup : ∀ k, (chain k).Nodup
  mem : ∀ k i, i ∈ chain k ↔ live i ∧ t.gcRootBucket (t.roots i) = k

theorem Indexed.imp {live' : Nat → Prop} (h : Indexed t live chain) (hiff : ∀ i, live' i ↔ live i) :
    Indexed t live' chain :=
  ⟨h.linked, h.head, h.nodup, fun k i => (h.mem k i).trans (and_congr_left fun _ => (hiff i).symm)⟩

theorem Indexed.apart (h : Indexed t live chain) {k k' i : Nat} (hi : i ∈ chain k) (hne : k' ≠ k) :
    i ∉ chain k' := by
  intro hi'
  exact hne (((h.mem k' i).mp hi').2.symm.trans ((h.mem k i).mp hi).2)

theorem Indexed.link (h : Indexed t live chain) (hnew : ¬live index) :
    Indexed (t.gcRootLink index) (fun i => live i ∨ i = index)
      (Function.update chain (t.gcRootBucket (t.roots index))
        (index :: chain (t.gcRootBucket (t.roots index)))) := by
  generalize hb : t.gcRootBucket (t.roots index) = b
  have hnot : ∀ k, index ∉ chain k := fun k hmem => hnew ((h.mem k index).mp hmem).1
  have hprevious : (t.gcRootLink index).previous =
      setAt (Function.update t.previous index none) (chain b).head? (some index) := by
    rw [← h.head, ← hb]
    rfl
  have hnext : (t.gcRootLink index).next = Function.update t.next index (chain b).head? := by
    rw [← h.head, ← hb]
    rfl
  have hbuckets : (t.gcRootLink index).buckets = Function.update t.buckets b (some index) := by
    rw [← hb]
    rfl
  have hsame : ∀ i, (t.gcRootLink index).gcRootBucket ((t.gcRootLink index).roots i) =
      t.gcRootBucket (t.roots i) := fun _ => rfl
  refine ⟨fun k => ?_, fun k => ?_, fun k => ?_, fun k i => ?_⟩
  · rw [hprevious, hnext]
    by_cases hk : k = b
    · rw [hk, Function.update_self]
      exact (h.linked b).push (h.nodup b) (hnot b)
    · rw [Function.update_of_ne hk]
      refine (h.linked k).congr fun i hi => ?_
      have hne : i ≠ index := fun heq => hnot k (heq ▸ hi)
      refine ⟨Function.update_of_ne hne .., (setAt_of_ne fun hhead => ?_).trans (Function.update_of_ne hne ..)⟩
      exact h.apart hi (Ne.symm hk) (List.mem_of_head? hhead)
  · rw [hbuckets]
    by_cases hk : k = b
    · rw [hk, Function.update_self, Function.update_self]
      rfl
    · rw [Function.update_of_ne hk, Function.update_of_ne hk]
      exact h.head k
  · by_cases hk : k = b
    · rw [hk, Function.update_self]
      exact List.nodup_cons.mpr ⟨hnot b, h.nodup b⟩
    · rw [Function.update_of_ne hk]
      exact h.nodup k
  · rw [hsame]
    by_cases hk : k = b
    · rw [hk, Function.update_self, List.mem_cons, h.mem]
      constructor
      · rintro (rfl | ⟨hlive, hbucket⟩)
        · exact ⟨.inr rfl, hb⟩
        · exact ⟨.inl hlive, hbucket⟩
      · rintro ⟨hlive | rfl, hbucket⟩
        · exact .inr ⟨hlive, hbucket⟩
        · exact .inl rfl
    · rw [Function.update_of_ne hk, h.mem]
      refine and_congr_left fun hbucket => ⟨.inl, fun hlive => hlive.resolve_right ?_⟩
      rintro rfl
      exact hk (hbucket.symm.trans hb)

theorem Indexed.unlink (h : Indexed t live chain) (hlive : live index) :
    Indexed (t.gcRootUnlink index) (fun i => live i ∧ i ≠ index)
      (Function.update chain (t.gcRootBucket (t.roots index))
        ((chain (t.gcRootBucket (t.roots index))).erase index)) := by
  generalize hb : t.gcRootBucket (t.roots index) = b
  have hmem : index ∈ chain b := (h.mem b index).mpr ⟨hlive, hb⟩
  obtain ⟨l, l', hsplit⟩ := List.append_of_mem hmem
  have hnodup := h.nodup b
  have hlinked := h.linked b
  rw [hsplit] at hnodup hlinked
  have hnotl : index ∉ l := fun hin =>
    (List.nodup_append.mp hnodup).2.2 index hin index List.mem_cons_self rfl
  have herase : (chain b).erase index = l ++ l' := by
    rw [hsplit, List.erase_append_right _ hnotl, List.erase_cons_head]
  obtain ⟨hprev, hnext⟩ := hlinked.at
  have hsame : ∀ i, (t.gcRootUnlink index).gcRootBucket ((t.gcRootUnlink index).roots i) =
      t.gcRootBucket (t.roots i) := fun _ => rfl
  rw [herase]
  refine ⟨fun k => ?_, fun k => ?_, fun k => ?_, fun k i => ?_⟩
  · show Linked (setAt t.next (t.previous index) (t.next index))
      (setAt t.previous (t.next index) (t.previous index)) _
    by_cases hk : k = b
    · rw [hk, Function.update_self]
      exact hlinked.unlink hnodup
    · rw [Function.update_of_ne hk]
      refine (h.linked k).congr fun i hi => ⟨setAt_of_ne fun heq => ?_, setAt_of_ne fun heq => ?_⟩
      · rw [hprev] at heq
        refine h.apart hi (Ne.symm hk) ?_
        rw [hsplit]
        exact List.mem_append_left _ (List.mem_of_getLast? heq)
      · rw [hnext] at heq
        refine h.apart hi (Ne.symm hk) ?_
        rw [hsplit]
        exact List.mem_append_right _ (List.mem_cons_of_mem _ (List.mem_of_head? heq))
  · show (if t.previous index = none then
      Function.update t.buckets (t.gcRootBucket (t.roots index)) (t.next index) else t.buckets) k = _
    rw [hb, hprev, hnext]
    by_cases hk : k = b
    · rw [hk, Function.update_self]
      cases l with
      | nil => exact (congrFun (if_pos rfl) b).trans (Function.update_self ..)
      | cons a l =>
        rw [if_neg (by simp), h.head, hsplit]
        rfl
    · rw [Function.update_of_ne hk, ← h.head]
      split
      · exact Function.update_of_ne hk ..
      · rfl
  · by_cases hk : k = b
    · rw [hk, Function.update_self, ← herase]
      exact (h.nodup b).erase index
    · rw [Function.update_of_ne hk]
      exact h.nodup k
  · rw [hsame]
    by_cases hk : k = b
    · rw [hk, Function.update_self, ← herase, (h.nodup b).mem_erase_iff, h.mem]
      exact ⟨fun ⟨hne, hl, hbucket⟩ => ⟨⟨hl, hne⟩, hbucket⟩, fun ⟨⟨hl, hne⟩, hbucket⟩ => ⟨hne, hl, hbucket⟩⟩
    · rw [Function.update_of_ne hk, h.mem]
      refine and_congr_left fun hbucket => ⟨fun hl => ⟨hl, ?_⟩, And.left⟩
      rintro rfl
      exact hk (hbucket.symm.trans hb)

theorem Indexed.moveLast (h : Indexed t live chain) (found last : Nat) (hlive : live last)
    (hfree : ¬live found) :
    ∃ chain', Indexed (t.moveLast found last) (fun i => live i ∧ i ≠ last ∨ i = found) chain' := by
  have hne : found ≠ last := fun heq => hfree (heq ▸ hlive)
  generalize hb : t.gcRootBucket (t.roots last) = b
  have hmem : last ∈ chain b := (h.mem b last).mpr ⟨hlive, hb⟩
  obtain ⟨l, l', hsplit⟩ := List.append_of_mem hmem
  have hnodup := h.nodup b
  have hlinked := h.linked b
  have hnot : ∀ k, found ∉ chain k := fun k hin => hfree ((h.mem k found).mp hin).1
  have hnotb := hnot b
  rw [hsplit] at hnodup hlinked hnotb
  obtain ⟨hprev, hnext⟩ := hlinked.at
  have hnotl : found ∉ l ++ l' := fun hin => hnotb (by
    rcases List.mem_append.mp hin with hin | hin
    · exact List.mem_append_left _ hin
    · exact List.mem_append_right _ (List.mem_cons_of_mem _ hin))
  have hroots : ∀ i, (t.moveLast found last).roots i = if i = found then t.roots last else t.roots i := by
    intro i
    exact Function.update_apply ..
  have hbucket : ∀ r, (t.moveLast found last).gcRootBucket r = t.gcRootBucket r := fun _ => rfl
  have hnodup' : (l ++ found :: l').Nodup := by
    have hmiddle := List.nodup_middle.mp hnodup
    exact List.nodup_middle.mpr (List.nodup_cons.mpr ⟨hnotl, (List.nodup_cons.mp hmiddle).2⟩)
  refine ⟨Function.update chain b (l ++ found :: l'), fun k => ?_, fun k => ?_, fun k => ?_, fun k i => ?_⟩
  · show Linked (setAt (Function.update t.next found (t.next last)) (t.previous last) (some found))
      (setAt (Function.update t.previous found (t.previous last)) (t.next last) (some found)) _
    by_cases hk : k = b
    · rw [hk, Function.update_self]
      exact hlinked.replace hnodup hnotl
    · rw [Function.update_of_ne hk]
      refine (h.linked k).congr fun i hi => ?_
      have hif : i ≠ found := fun heq => hnot k (heq ▸ hi)
      have happart : i ∉ l ++ last :: l' := hsplit ▸ h.apart hi (Ne.symm hk)
      refine ⟨(setAt_of_ne fun heq => ?_).trans (Function.update_of_ne hif ..),
        (setAt_of_ne fun heq => ?_).trans (Function.update_of_ne hif ..)⟩
      · rw [hprev] at heq
        exact happart (List.mem_append_left _ (List.mem_of_getLast? heq))
      · rw [hnext] at heq
        exact happart (List.mem_append_right _ (List.mem_cons_of_mem _ (List.mem_of_head? heq)))
  · have hfound : (t.moveLast found last).gcRootBucket ((t.moveLast found last).roots found) = b := by
      rw [hroots, if_pos rfl, hbucket, hb]
    show (if t.previous last = none then Function.update t.buckets
      ((t.moveLast found last).gcRootBucket ((t.moveLast found last).roots found)) (some found)
      else t.buckets) k = _
    rw [hfound, hprev]
    by_cases hk : k = b
    · rw [hk, Function.update_self]
      cases l with
      | nil => exact (congrFun (if_pos rfl) b).trans (Function.update_self ..)
      | cons a l =>
        rw [if_neg (by simp), h.head, hsplit]
        rfl
    · rw [Function.update_of_ne hk, ← h.head]
      split
      · exact Function.update_of_ne hk ..
      · rfl
  · by_cases hk : k = b
    · rw [hk, Function.update_self]
      exact hnodup'
    · rw [Function.update_of_ne hk]
      exact h.nodup k
  · rw [hbucket, hroots]
    by_cases hif : i = found
    · rw [if_pos hif, hif, hb]
      by_cases hk : k = b
      · rw [hk, Function.update_self]
        exact iff_of_true (by simp) ⟨.inr rfl, rfl⟩
      · rw [Function.update_of_ne hk]
        exact iff_of_false (hnot k) fun hand => hk hand.2.symm
    · rw [if_neg hif]
      have hiff : (live i ∧ i ≠ last ∨ i = found) ∧ t.gcRootBucket (t.roots i) = k ↔
          i ∈ chain k ∧ i ≠ last := by
        rw [h.mem]
        constructor
        · rintro ⟨⟨hl, hil⟩ | heq, hk⟩
          · exact ⟨⟨hl, hk⟩, hil⟩
          · exact absurd heq hif
        · rintro ⟨⟨hl, hk⟩, hil⟩
          exact ⟨.inl ⟨hl, hil⟩, hk⟩
      rw [hiff]
      by_cases hk : k = b
      · rw [hk, Function.update_self, hsplit]
        have hlast : last ∉ l ++ l' := (List.nodup_cons.mp (List.nodup_middle.mp hnodup)).1
        rw [List.mem_append] at hlast
        simp only [List.mem_append, List.mem_cons]
        constructor
        · rintro (hin | heq | hin)
          · exact ⟨.inl hin, fun heq => hlast (.inl (heq ▸ hin))⟩
          · exact absurd heq hif
          · exact ⟨.inr (.inr hin), fun heq => hlast (.inr (heq ▸ hin))⟩
        · rintro ⟨hin | heq | hin, hil⟩
          · exact .inl hin
          · exact absurd heq hil
          · exact .inr (.inr hin)
      · rw [Function.update_of_ne hk]
        refine ⟨fun hin => ⟨hin, ?_⟩, And.left⟩
        rintro rfl
        exact h.apart hmem hk hin

theorem findRoot_spec {v : BitVec 64} {l : List Nat} {before : Option Nat} {fuel : Nat} (found : Option Nat)
    (hlinked : Segment t.next t.previous before l none) (hfuel : l.length ≤ fuel) :
    ∃ result, t.findRoot v fuel l.head? found = .ok result ∧
      (∀ f, result = some f → found = some f ∨ f ∈ l ∧ t.roots f = v) ∧
      (∀ f, found = some f → ∃ g, result = some g ∧ f ≤ g) ∧
      ∀ i ∈ l, t.roots i = v → ∃ g, result = some g ∧ i ≤ g := by
  induction l generalizing before found fuel with
  | nil =>
    refine ⟨found, by cases fuel <;> rfl, fun f hf => .inl hf, fun f hf => ⟨f, hf, Nat.le_refl f⟩, nofun⟩
  | cons i l ih =>
    obtain ⟨-, hnext, hrest⟩ := hlinked
    cases fuel with
    | zero => cases hfuel
    | succ fuel =>
      generalize hnow : (if t.roots i = v ∧ (found.all fun f => decide (f < i)) then some i else found) =
        now
      obtain ⟨result, hresult, hsource, hfound, hall⟩ :=
        ih now hrest (Nat.le_of_succ_le_succ hfuel)
      have hup : ∀ f, now = some f → ∃ g, result = some g ∧ f ≤ g := hfound
      refine ⟨result, ?_, fun f hf => ?_, fun f hf => ?_, fun j hj hroot => ?_⟩
      · show t.findRoot v fuel (t.next i) _ = _
        rw [hnext, Option.or_none, hnow]
        exact hresult
      · rcases hsource f hf with heq | ⟨hin, hroot⟩
        · rw [← hnow] at heq
          split at heq
          · rename_i hcond
            cases heq
            exact .inr ⟨List.mem_cons_self, hcond.1⟩
          · exact .inl heq
        · exact .inr ⟨List.mem_cons_of_mem i hin, hroot⟩
      · rw [← hnow] at hup
        split at hup
        · rename_i hcond
          obtain ⟨g, hg, hle⟩ := hup i rfl
          rw [hf] at hcond
          have hlt : f < i := of_decide_eq_true hcond.2
          exact ⟨g, hg, by omega⟩
        · exact hup f hf
      · rcases List.mem_cons.mp hj with rfl | hj
        · rw [← hnow] at hup
          split at hup
          · exact hup j rfl
          · rename_i hcond
            cases hf : found with
            | none =>
              rw [hf] at hcond
              exact absurd ⟨hroot, rfl⟩ hcond
            | some f =>
              rw [hf] at hcond hup
              obtain ⟨g, hg, hle⟩ := hup f rfl
              have hge : ¬f < j := fun hlt => hcond ⟨hroot, decide_eq_true hlt⟩
              exact ⟨g, hg, by omega⟩
        · exact hall j hj hroot

/-- The table is indexed and holds the roots of a plain array. -/
structure Holds (t : RootTable) (plain : List (BitVec 64)) : Prop where
  indexed : ∃ chain, Indexed t (· < t.count) chain
  perm : t.entries.Perm plain
  room : t.count ≤ t.max
  size : t.max = 0 ∨ ∃ k ≤ 29, t.max = 2 ^ k

theorem Holds.length (h : Holds t plain) : plain.length = t.count := by
  rw [← h.perm.length_eq, entries, List.length_map, List.length_range]

theorem Holds.mem_iff (h : Holds t plain) {v : BitVec 64} : v ∈ plain ↔ ∃ i < t.count, t.roots i = v := by
  rw [← h.perm.mem_iff, entries, List.mem_map]
  simp only [List.mem_range]

theorem links_fields (n : Nat) (t : RootTable) :
    ((List.range n).foldl gcRootLink t).roots = t.roots ∧ ((List.range n).foldl gcRootLink t).max = t.max ∧
      ((List.range n).foldl gcRootLink t).count = t.count := by
  induction n with
  | zero => exact ⟨rfl, rfl, rfl⟩
  | succ n ih =>
    rw [List.range_succ, List.foldl_append]
    exact ih

theorem indexed_links (hempty : ∀ k, t.buckets k = none) (n : Nat) :
    ∃ chain, Indexed ((List.range n).foldl gcRootLink t) (· < n) chain := by
  induction n with
  | zero => exact ⟨fun _ => [], fun _ => trivial, hempty, fun _ => List.nodup_nil, fun k i => by simp⟩
  | succ n ih =>
    obtain ⟨chain, h⟩ := ih
    rw [List.range_succ, List.foldl_append]
    refine ⟨_, (h.link (Nat.lt_irrefl n)).imp fun i => ?_⟩
    omega

theorem Holds.grow (h : Holds t plain) (memory : Bool) (junk : Nat → Option Nat) (hfull : t.count = t.max)
    (hfew : t.count < 2 ^ 29) :
    memory = false ∧ t.grow memory junk = .error .outOfMemory ∨
      ∃ t', t.grow memory junk = .ok t' ∧ Holds t' plain ∧ t'.count < t'.max := by
  have hsize : ∃ k ≤ 29, (if t.max = 0 then 16 else t.max * 2) = 2 ^ k ∧
      t.max < (if t.max = 0 then 16 else t.max * 2) := by
    rcases h.size with hzero | ⟨k, hk, hmax⟩
    · rw [if_pos hzero]
      exact ⟨4, by omega, rfl, by omega⟩
    · have hpos : 0 < 2 ^ k := Nat.two_pow_pos k
      have hlt : k < 29 := (Nat.pow_lt_pow_iff_right (by omega : 1 < 2)).mp (by omega)
      rw [if_neg (by omega)]
      exact ⟨k + 1, hlt, by rw [Nat.pow_succ, hmax], by omega⟩
  obtain ⟨k, hk, hnroots, hlt⟩ := hsize
  unfold RootTable.grow
  generalize (if t.max = 0 then 16 else t.max * 2) = nroots at hnroots hlt
  dsimp only
  split
  · rename_i hnone
    exact .inl ⟨Bool.eq_false_iff.mpr hnone, rfl⟩
  · right
    have hpow : 2 ^ k ≤ 2 ^ 29 := Nat.pow_le_pow_right (by omega) hk
    rw [if_neg (by omega)]
    refine ⟨_, rfl, ?_, ?_⟩
    · obtain ⟨hroots, hmax, hcount⟩ := links_fields t.count
        { t with buckets := fun _ => none, next := junk, previous := junk, max := nroots }
      refine ⟨?_, ?_, ?_, ?_⟩
      · rw [hcount]
        exact indexed_links (fun _ => rfl) t.count
      · rw [entries, hcount, hroots]
        exact h.perm
      · rw [hcount, hmax]
        show t.count ≤ nroots
        omega
      · rw [hmax]
        exact .inr ⟨k, hk, hnroots⟩
    · obtain ⟨-, hmax, hcount⟩ := links_fields t.count
        { t with buckets := fun _ => none, next := junk, previous := junk, max := nroots }
      rw [hcount, hmax]
      show t.count < nroots
      omega

theorem Holds.append (h : Holds t plain) (hroom : t.count < t.max) (r owner : BitVec 64) :
    Holds { RootTable.gcRootLink { t with
        roots := Function.update t.roots t.count r
        owners := Function.update t.owners t.count owner } t.count with count := t.count + 1 }
      (plain ++ [r]) := by
  obtain ⟨chain, hindexed⟩ := h.indexed
  have hsame : ∀ i < t.count, Function.update t.roots t.count r i = t.roots i :=
    fun i hi => Function.update_of_ne (Nat.ne_of_lt hi) ..
  have hwritten : Indexed { t with
      roots := Function.update t.roots t.count r
      owners := Function.update t.owners t.count owner } (· < t.count) chain := by
    refine ⟨hindexed.linked, hindexed.head, hindexed.nodup, fun k i => (hindexed.mem k i).trans ?_⟩
    refine and_congr_right fun hi => ?_
    show _ ↔ t.gcRootBucket (Function.update t.roots t.count r i) = k
    rw [hsame i hi]
  have hlinked : Indexed _ (· < t.count + 1) _ :=
    (hwritten.link (Nat.lt_irrefl t.count)).imp fun i => by omega
  refine ⟨⟨_, hlinked.linked, hlinked.head, hlinked.nodup, hlinked.mem⟩, ?_, hroom, h.size⟩
  show ((List.range (t.count + 1)).map (Function.update t.roots t.count r)).Perm _
  rw [List.range_succ, List.map_append, List.map_singleton, Function.update_self]
  refine List.Perm.append_right [r] (List.Perm.trans (List.Perm.of_eq ?_) h.perm)
  exact List.map_congr_left fun i hi => hsame i (List.mem_range.mp hi)

theorem Holds.add (h : Holds t plain) {memory : Bool} {junk : Nat → Option Nat} {r owner : BitVec 64}
    (hfew : plain.length < 2 ^ 29) :
    memory = false ∧ t.hlAddRootOwner memory junk r owner = .error .outOfMemory ∨
      ∃ t', t.hlAddRootOwner memory junk r owner = .ok t' ∧ Holds t' (plain ++ [r]) := by
  unfold hlAddRootOwner
  by_cases hfull : t.count = t.max
  · rw [if_pos hfull]
    rcases h.grow memory junk hfull (h.length ▸ hfew) with ⟨hmemory, hnone⟩ | ⟨t', hgrown, hholds, hroom⟩
    · refine .inl ⟨hmemory, ?_⟩
      rw [hnone]
      rfl
    · right
      rw [hgrown]
      exact ⟨_, rfl, hholds.append hroom r owner⟩
  · rw [if_neg hfull]
    exact .inr ⟨_, rfl, h.append (Nat.lt_of_le_of_ne h.room hfull) r owner⟩

theorem perm_set_last {α : Type} {l : List α} {x : α} {i : Nat} (hi : i < l.length) :
    (l ++ [x]).Perm (l[i] :: l.set i x) := by
  calc (l ++ [x]).Perm (x :: l) := List.perm_append_singleton x l
    _ |>.Perm (x :: l[i] :: l.eraseIdx i) := (List.getElem_cons_eraseIdx_perm hi).symm.cons x
    _ |>.Perm (l[i] :: x :: l.eraseIdx i) := List.Perm.swap _ _ _
    _ |>.Perm (l[i] :: l.set i x) := (List.set_perm_cons_eraseIdx hi x).symm.cons _

theorem map_update_range {α : Type} (f : Nat → α) (x : α) {i n : Nat} :
    (List.range n).map (Function.update f i x) = ((List.range n).map f).set i x := by
  refine List.ext_getElem (by simp) fun j hj hj' => ?_
  rw [List.getElem_set, List.getElem_map, List.getElem_range, List.getElem_map, List.getElem_range]
  exact (Function.update_apply f i x j).trans (if_congr eq_comm rfl rfl)

theorem perm_plain_remove {entries : List (BitVec 64)} {v : BitVec 64} (h : entries.Perm plain)
    (hmem : v ∈ plain) {rest : List (BitVec 64)} (hrest : entries.Perm (v :: rest)) :
    rest.Perm (plain.reverse.erase v).reverse := by
  have hcons : (v :: rest).Perm (v :: (plain.reverse.erase v)) := by
    calc (v :: rest).Perm entries := hrest.symm
      _ |>.Perm plain := h
      _ |>.Perm plain.reverse := plain.reverse_perm.symm
      _ |>.Perm (v :: plain.reverse.erase v) := List.perm_cons_erase (List.mem_reverse.mpr hmem)
  exact ((List.perm_cons v).mp hcons).trans (List.reverse_perm _).symm

theorem Holds.taken (h : Holds t plain) {f : Nat} (hf : f < t.count) :
    (if f ≠ t.count - 1 then (List.range (t.count - 1)).map (Function.update t.roots f (t.roots (t.count - 1)))
      else (List.range (t.count - 1)).map t.roots).Perm (plain.reverse.erase (t.roots f)).reverse := by
  obtain ⟨n, hn⟩ : ∃ n, t.count = n + 1 := ⟨t.count - 1, by omega⟩
  have hentries : t.entries = (List.range n).map t.roots ++ [t.roots n] := by
    rw [entries, hn, List.range_succ, List.map_append, List.map_singleton]
  refine perm_plain_remove h.perm (h.mem_iff.mpr ⟨f, hf, rfl⟩) ?_
  rw [hn, Nat.add_sub_cancel, hentries]
  split
  · have hlt : f < ((List.range n).map t.roots).length := by
      rw [List.length_map, List.length_range]
      omega
    have hset := perm_set_last (x := t.roots n) hlt
    rw [List.getElem_map, List.getElem_range] at hset
    rw [map_update_range]
    exact hset
  · rename_i heq
    rw [not_not.mp heq]
    exact List.perm_append_singleton _ _

theorem Holds.lookup (h : Holds t plain) (v : BitVec 64) : ∃ found, t.lookupRoot v = .ok found ∧
    (∀ f, found = some f → f < t.count ∧ t.roots f = v) ∧ (found = none → v ∉ plain) := by
  obtain ⟨chain, hindexed⟩ := h.indexed
  unfold lookupRoot
  by_cases hpos : 0 < t.count
  · rw [if_pos hpos, hindexed.head]
    have hlength : (chain (t.gcRootBucket v)).length ≤ t.count := by
      have hsub : (chain (t.gcRootBucket v)).Subperm (List.range t.count) :=
        List.subperm_of_subset (hindexed.nodup _) fun i hi => List.mem_range.mpr ((hindexed.mem _ i).mp hi).1
      exact Nat.le_trans hsub.length_le (Nat.le_of_eq List.length_range)
    obtain ⟨found, hfound, hsource, -, hall⟩ :=
      findRoot_spec (v := v) none (hindexed.linked (t.gcRootBucket v)) hlength
    refine ⟨found, hfound, fun f hf => ?_, fun hf hmem => ?_⟩
    · rcases hsource f hf with heq | ⟨hin, hroot⟩
      · cases heq
      · exact ⟨((hindexed.mem _ f).mp hin).1, hroot⟩
    · obtain ⟨i, hi, hroot⟩ := h.mem_iff.mp hmem
      obtain ⟨g, hg, -⟩ := hall i ((hindexed.mem _ i).mpr ⟨hi, by rw [hroot]⟩) hroot
      cases hf.symm.trans hg
  · rw [if_neg hpos]
    refine ⟨none, rfl, nofun, fun _ hmem => ?_⟩
    obtain ⟨i, hi, -⟩ := h.mem_iff.mp hmem
    omega

theorem Holds.removeAt (h : Holds t plain) {f : Nat} (hf : f < t.count) :
    Holds (t.removeAt f) (plain.reverse.erase (t.roots f)).reverse := by
  obtain ⟨chain, hindexed⟩ := h.indexed
  have hunlinked := hindexed.unlink hf
  have htaken := h.taken hf
  have hroom := h.room
  unfold RootTable.removeAt
  dsimp only
  have hcount : (t.gcRootUnlink f).count = t.count := rfl
  rw [hcount]
  split
  · rename_i hne
    rw [if_pos hne] at htaken
    have hmoved : Indexed { t.gcRootUnlink f with count := t.count - 1 } (fun i => i < t.count ∧ i ≠ f) _ :=
      ⟨hunlinked.linked, hunlinked.head, hunlinked.nodup, hunlinked.mem⟩
    obtain ⟨chain', hchain'⟩ := hmoved.moveLast f (t.count - 1)
      ⟨by omega, fun heq => hne heq.symm⟩ fun hlive => hlive.2 rfl
    refine ⟨⟨chain', hchain'.imp fun i => ?_⟩, htaken, ?_, h.size⟩
    · show i < t.count - 1 ↔ _
      omega
    · show t.count - 1 ≤ t.max
      omega
  · rename_i heq
    have heq : f = t.count - 1 := not_not.mp heq
    rw [if_neg (not_not.mpr heq)] at htaken
    refine ⟨⟨_, hunlinked.linked, hunlinked.head, hunlinked.nodup, fun k i =>
      (hunlinked.mem k i).trans (and_congr_left fun _ => ?_)⟩, htaken, ?_, h.size⟩
    · show i < t.count ∧ i ≠ f ↔ i < t.count - 1
      omega
    · show t.count - 1 ≤ t.max
      omega

theorem Holds.remove (h : Holds t plain) (v : BitVec 64) :
    ∃ t', t.hlRemoveRoot v = .ok t' ∧ Holds t' (plain.reverse.erase v).reverse := by
  obtain ⟨found, hfound, hsome, hnone⟩ := h.lookup v
  unfold hlRemoveRoot
  rw [hfound]
  cases found with
  | none =>
    refine ⟨t, rfl, ?_⟩
    rw [List.erase_of_not_mem fun hmem => hnone rfl (List.mem_reverse.mp hmem), List.reverse_reverse]
    exact h
  | some f =>
    obtain ⟨hf, hroot⟩ := hsome f rfl
    refine ⟨t.removeAt f, rfl, ?_⟩
    rw [← hroot]
    exact h.removeAt hf

end RootTable

namespace RootCall

open RootTable

/-- Fewer roots than `2 ^ 29` are registered when one is added. -/
def FewRoots (roots : List (BitVec 64)) : RootCall → Prop
  | .add .. => roots.length < 2 ^ 29
  | .remove _ => True

theorem holds_start : Holds RootTable.start [] where
  indexed := ⟨fun _ => [], fun _ => trivial, fun _ => rfl, fun _ => List.nodup_nil,
    fun k i => by simp [RootTable.start]⟩
  perm := List.Perm.refl _
  room := Nat.le_refl _
  size := .inl rfl

variable {t : RootTable} {roots : List (BitVec 64)}

theorem holds_apply (h : Holds t roots) {c : RootCall} (hfew : c.FewRoots roots) :
    c.apply t = .error .outOfMemory ∨ ∃ t', c.apply t = .ok t' ∧ Holds t' (c.plain roots) := by
  cases c with
  | add r owner memory junk => exact (h.add hfew).imp_left And.right
  | remove v => exact .inr (h.remove v)

theorem holds_run (h : Holds t roots) {calls : List RootCall}
    (hfew : ∀ (k : Nat) (c : RootCall), calls[k]? = some c → c.FewRoots ((calls.take k).foldl plain roots)) :
    run t calls = .error .outOfMemory ∨ ∃ t', run t calls = .ok t' ∧ Holds t' (calls.foldl plain roots) := by
  induction calls generalizing t roots with
  | nil => exact .inr ⟨t, rfl, h⟩
  | cons c calls ih =>
    rcases holds_apply h (hfew 0 c rfl) with hnone | ⟨t', happly, hholds⟩
    · left
      rw [run, hnone]
      rfl
    · rw [run, happly]
      exact ih hholds fun k c' hget => hfew (k + 1) c' hget

/-- In every sequence of calls that finds fewer than `2 ^ 29` roots at each addition, the table returns from
every call unless there is no memory; then every live entry is on the chain of its bucket, once, with links
both ways, and the table holds the roots of the plain array. -/
theorem root_table_refines {calls : List RootCall}
    (hfew : ∀ (k : Nat) (c : RootCall), calls[k]? = some c → c.FewRoots ((calls.take k).foldl plain [])) :
    run RootTable.start calls = .error .outOfMemory ∨ ∃ t, run RootTable.start calls = .ok t ∧
      (∃ chain, Indexed t (· < t.count) chain) ∧ t.entries.Perm (calls.foldl plain []) := by
  rcases holds_run holds_start hfew with hnone | ⟨t, hrun, hholds⟩
  · exact .inl hnone
  · exact .inr ⟨t, hrun, hholds.indexed, hholds.perm⟩

/-- A root is registered twice beside another one, and taken out once; the last entry moves. -/
def twice : List RootCall :=
  [.add 16 0 true fun _ => none, .add 32 1 true fun _ => none, .add 16 1 true fun _ => none,
    .add 48 0 true fun _ => none, .remove 32, .remove 16]

theorem root_table_refines_twice : ∃ t, run RootTable.start twice = .ok t ∧
    (∃ chain, Indexed t (· < t.count) chain) ∧ t.entries.Perm [16, 48] := by
  have hfew : ∀ (k : Nat) (c : RootCall), twice[k]? = some c → c.FewRoots ((twice.take k).foldl plain []) := by
    intro k c hget
    have hlength : ∀ (roots : List (BitVec 64)) (c : RootCall), roots.length < 6 → c.FewRoots roots := by
      intro roots c hlt
      cases c with
      | add => exact Nat.lt_trans hlt (by decide)
      | remove => trivial
    obtain ⟨hlt, -⟩ := List.getElem?_eq_some_iff.mp hget
    have hlt : k < 6 := hlt
    refine hlength _ c ?_
    interval_cases k <;> decide
  have hok : (match run RootTable.start twice with
      | .ok _ => true
      | .error _ => false) = true := by decide +kernel
  rcases root_table_refines hfew with hnone | ⟨t, hrun, hchain, hperm⟩
  · rw [hnone] at hok
    cases hok
  · exact ⟨t, hrun, hchain, hperm⟩

theorem overflow_of_full (h : Holds t roots) (hlength : roots.length = 2 ^ 29) (r owner : BitVec 64)
    (junk : Nat → Option Nat) :
    t.hlAddRootOwner true junk r owner = .error .overflow := by
  have hcount : t.count = 2 ^ 29 := h.length.symm.trans hlength
  have hroom := h.room
  have hmax : t.max = 2 ^ 29 := by
    rcases h.size with hzero | ⟨k, hk, hmax⟩
    · omega
    · have := Nat.pow_le_pow_right (by omega : 0 < 2) hk
      omega
  unfold hlAddRootOwner
  rw [if_pos (hcount.trans hmax.symm), RootTable.grow, hmax]
  rfl

theorem overflow_run (h : Holds t roots) {n : Nat} (hlength : roots.length + n = 2 ^ 29) :
    run t (List.replicate (n + 1) (.add 16 0 true fun _ => none)) = .error .overflow := by
  induction n generalizing t roots with
  | zero =>
    rw [List.replicate_succ, run, apply, overflow_of_full h hlength]
    rfl
  | succ n ih =>
    rcases @Holds.add t roots h true (fun _ => none) 16 0 (by omega) with
      ⟨hmemory, -⟩ | ⟨t', hadd, hholds⟩
    · cases hmemory
    · rw [List.replicate_succ, run, apply, hadd]
      refine ih hholds ?_
      rw [List.length_append, List.length_singleton]
      omega

theorem root_table_overflows : ¬∀ calls, run RootTable.start calls = .error .outOfMemory ∨
    ∃ t, run RootTable.start calls = .ok t ∧ (∃ chain, Indexed t (· < t.count) chain) ∧
      t.entries.Perm (calls.foldl plain []) := by
  intro hall
  obtain ⟨calls, hoverflow⟩ : ∃ calls, run RootTable.start calls = .error .overflow :=
    ⟨_, @overflow_run RootTable.start [] holds_start (2 ^ 29) (Nat.zero_add _)⟩
  rcases hall calls with hnone | ⟨t, hrun, -⟩
  · cases hoverflow.symm.trans hnone
  · cases hoverflow.symm.trans hrun

end RootCall

end HashLink.Gc
