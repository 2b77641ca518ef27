import Mathlib.Data.List.Basic
import Mathlib.Algebra.Group.Int.Units

/-!
Tables with open addressing. A key has a home cell; its entry is in the first cell from there on that was free when it
was put in, past the end back at the start. Walks end while some cell is free.
-/

namespace OpenAddressing

variable {α κ : Type}

def cell (t : List (Option α)) (i : Nat) : Option α := (t[i]?).join

/-- The walk from the cell `i` to the first one that is free or has an entry to stop at. -/
def probe (stop : α → Bool) (next : Nat → Nat) (t : List (Option α)) : Nat → Nat → Option Nat
  | 0, _ => none
  | fuel + 1, i =>
    match cell t i with
    | none => some i
    | some a => if stop a then some i else probe stop next t fuel (next i)

/-- `a` is an entry of the table. -/
def Has (t : List (Option α)) (a : α) : Prop := ∃ i, cell t i = some a

/-- The number of cells that have an entry. -/
def filled (t : List (Option α)) : Nat := t.countP (·.isSome)

variable {t : List (Option α)} {a b : α} {i c fuel : Nat}

theorem cell_eq_some : cell t i = some a ↔ t[i]? = some (some a) := Option.join_eq_some_iff

theorem cell_lt (h : cell t i = some a) : i < t.length := by
  obtain ⟨hi, -⟩ := List.getElem?_eq_some_iff.mp ((cell_eq_some).mp h)
  exact hi

theorem cell_set (hc : c < t.length) (v : Option α) (i : Nat) :
    cell (t.set c v) i = if i = c then v else cell t i := by
  unfold cell
  split
  · rename_i heq
    rw [heq, List.getElem?_set_self hc]
    rfl
  · rename_i hne
    rw [List.getElem?_set_ne (Ne.symm hne)]

theorem cell_replicate (n i : Nat) : cell (List.replicate n (none : Option α)) i = none := by
  unfold cell
  rw [List.getElem?_replicate]
  split <;> rfl

theorem filled_replicate (n : Nat) : filled (List.replicate n (none : Option α)) = 0 := by
  simp [filled, List.countP_replicate]

theorem exists_free (h : filled t < t.length) : ∃ f < t.length, cell t f = none := by
  by_contra hall
  have hfull : filled t = t.length := by
    refine List.countP_eq_length.mpr fun v hv => ?_
    obtain ⟨f, hf, rfl⟩ := List.mem_iff_getElem.mp hv
    cases hcell : t[f] with
    | some a => rfl
    | none => exact absurd ⟨f, hf, by rw [cell, List.getElem?_eq_getElem hf, hcell]; rfl⟩ hall
  omega

theorem cell_of_filled (h : t.length ≤ filled t) : ∀ i < t.length, ∃ a, cell t i = some a := by
  intro i hi
  have hfull : t.countP (·.isSome) = t.length := Nat.le_antisymm List.countP_le_length h
  obtain ⟨a, ha⟩ := Option.isSome_iff_exists.mp (List.countP_eq_length.mp hfull t[i] (List.getElem_mem hi))
  exact ⟨a, by rw [cell_eq_some, List.getElem?_eq_getElem hi, ha]⟩

theorem filled_set (hc : c < t.length) (hfree : cell t c = none) : filled (t.set c (some a)) = filled t + 1 := by
  have hget : t[c] = none := by
    rw [cell, List.getElem?_eq_getElem hc] at hfree
    exact hfree
  rw [filled, List.countP_set hc, hget]
  simp [filled]

theorem filled_replace (hcell : cell t c = some b) : filled (t.set c (some a)) = filled t := by
  have hc := cell_lt hcell
  have hget : t[c] = some b := by
    rw [cell_eq_some, List.getElem?_eq_getElem hc] at hcell
    exact Option.some.inj hcell
  have hpos : 0 < t.countP (·.isSome) := List.countP_pos_iff.mpr ⟨t[c], List.getElem_mem hc, by rw [hget]; rfl⟩
  rw [filled, List.countP_set hc, hget]
  simp only [Option.isSome_some, if_true, filled]
  omega

section Walk

variable {stop : α → Bool} {next : Nat → Nat} (hnext : ∀ i < t.length, next i = (i + 1) % t.length)
include hnext

theorem probe_some (hi : i < t.length) (h : probe stop next t fuel i = some c) :
    ∃ d, c = (i + d) % t.length ∧ (∀ j < d, ∃ a, cell t ((i + j) % t.length) = some a ∧ stop a = false) ∧
      ∀ a, cell t c = some a → stop a = true := by
  induction fuel generalizing i with
  | zero => cases h
  | succ fuel ih =>
    have hmod : (i + 0) % t.length = i := Nat.mod_eq_of_lt hi
    rw [probe] at h
    split at h
    · rename_i hfree
      cases h
      exact ⟨0, hmod.symm, fun j hj => absurd hj (Nat.not_lt_zero j), fun a ha => by rw [hfree] at ha; cases ha⟩
    · rename_i a ha
      split at h
      · rename_i hstop
        cases h
        refine ⟨0, hmod.symm, fun j hj => absurd hj (Nat.not_lt_zero j), fun b hb => ?_⟩
        cases ha.symm.trans hb
        exact hstop
      · rename_i hstop
        have hlen : 0 < t.length := Nat.zero_lt_of_lt hi
        rw [hnext i hi] at h
        obtain ⟨d, rfl, hpassed, hend⟩ := ih (Nat.mod_lt _ hlen) h
        have hshift (j : Nat) : ((i + 1) % t.length + j) % t.length = (i + (j + 1)) % t.length := by
          rw [Nat.mod_add_mod]
          congr 1
          omega
        refine ⟨d + 1, hshift d, fun j hj => ?_, fun b hb => hend b hb⟩
        cases j with
        | zero => exact ⟨a, by rw [hmod]; exact ha, Bool.eq_false_iff.mpr hstop⟩
        | succ j =>
          obtain ⟨b, hb, hskip⟩ := hpassed j (Nat.lt_of_succ_lt_succ hj)
          exact ⟨b, hshift j ▸ hb, hskip⟩

theorem probe_ends_at {d : Nat} (hi : i < t.length) (hend : ∀ a, cell t ((i + d) % t.length) = some a → stop a = true) :
    ∃ c, ∀ fuel > d, probe stop next t fuel i = some c := by
  induction d generalizing i with
  | zero =>
    rw [Nat.add_zero, Nat.mod_eq_of_lt hi] at hend
    refine ⟨i, fun fuel hfuel => ?_⟩
    obtain ⟨n, rfl⟩ := Nat.exists_eq_succ_of_ne_zero (Nat.ne_zero_of_lt hfuel)
    rw [probe]
    cases hcell : cell t i with
    | none => rfl
    | some a => exact if_pos (hend a hcell)
  | succ d ih =>
    cases hcell : cell t i with
    | none =>
      refine ⟨i, fun fuel hfuel => ?_⟩
      obtain ⟨n, rfl⟩ := Nat.exists_eq_succ_of_ne_zero (Nat.ne_zero_of_lt hfuel)
      rw [probe, hcell]
    | some a =>
      have hshift : ((i + 1) % t.length + d) % t.length = (i + (d + 1)) % t.length := by
        rw [Nat.mod_add_mod]
        congr 1
        omega
      obtain ⟨c, hc⟩ := ih (Nat.mod_lt _ (Nat.zero_lt_of_lt hi)) (hshift ▸ hend)
      refine ⟨if stop a then i else c, fun fuel hfuel => ?_⟩
      obtain ⟨n, rfl⟩ := Nat.exists_eq_succ_of_ne_zero (Nat.ne_zero_of_lt hfuel)
      rw [probe, hcell]
      dsimp only
      rw [hnext i hi, hc n (by omega)]
      split <;> rfl

theorem probe_ends_of (hi : i < t.length) (hex : ∃ f < t.length, ∀ a, cell t f = some a → stop a = true) :
    ∃ c, ∀ fuel ≥ t.length, probe stop next t fuel i = some c := by
  obtain ⟨f, hf, hend⟩ := hex
  have hmod : (i + (f + t.length - i) % t.length) % t.length = f := by
    rw [Nat.add_mod_mod, show i + (f + t.length - i) = f + t.length by omega, Nat.add_mod_right, Nat.mod_eq_of_lt hf]
  obtain ⟨c, hc⟩ : ∃ c, ∀ fuel > (f + t.length - i) % t.length, probe stop next t fuel i = some c :=
    probe_ends_at hnext hi (hmod.symm ▸ hend)
  exact ⟨c, fun fuel hfuel => hc fuel (Nat.lt_of_lt_of_le (Nat.mod_lt _ (Nat.zero_lt_of_lt hi)) hfuel)⟩

theorem probe_ends (hi : i < t.length) (hfilled : filled t < t.length) :
    ∃ c, ∀ fuel ≥ t.length, probe stop next t fuel i = some c := by
  obtain ⟨f, hf, hfree⟩ := exists_free hfilled
  exact probe_ends_of hnext hi ⟨f, hf, fun a ha => by rw [hfree] at ha; cases ha⟩

theorem probe_full (hi : i < t.length) (hfull : ∀ j < t.length, ∃ a, cell t j = some a ∧ stop a = false) (fuel : Nat) :
    probe stop next t fuel i = none := by
  induction fuel generalizing i with
  | zero => rfl
  | succ fuel ih =>
    obtain ⟨a, ha, hskip⟩ := hfull i hi
    rw [probe, ha]
    dsimp only
    rw [if_neg (Bool.eq_false_iff.mp hskip), hnext i hi]
    exact ih (Nat.mod_lt _ (Nat.zero_lt_of_lt hi))

end Walk

/-- Between the home of an entry and its cell every cell is full, and no two entries have one key. -/
structure Valid (key : α → κ) (home : κ → Nat) (t : List (Option α)) : Prop where
  reach : ∀ i a, cell t i = some a →
    ∃ d, i = (home (key a) + d) % t.length ∧ ∀ j < d, ∃ b, cell t ((home (key a) + j) % t.length) = some b
  single : ∀ i j a b, cell t i = some a → cell t j = some b → key a = key b → i = j

variable {key : α → κ} {home : κ → Nat}

theorem valid_empty (key : α → κ) (home : κ → Nat) (n : Nat) : Valid key home (List.replicate n none) := by
  constructor
  · intro i a h
    rw [cell_replicate] at h
    cases h
  · intro i j a b h
    rw [cell_replicate] at h
    cases h

theorem Valid.lookup {stop : α → Bool} {next : Nat → Nat} {k : κ} (h : Valid key home t)
    (hnext : ∀ i < t.length, next i = (i + 1) % t.length) (hhome : home k < t.length)
    (hstop : ∀ a, Has t a → (stop a = true ↔ key a = k)) (hprobe : probe stop next t fuel (home k) = some c) :
    (∃ a, cell t c = some a ∧ key a = k) ∨ (cell t c = none ∧ ∀ a, Has t a → key a ≠ k) := by
  obtain ⟨d, rfl, hpassed, hend⟩ := probe_some hnext hhome hprobe
  cases hcell : cell t ((home k + d) % t.length) with
  | some a => exact .inl ⟨a, rfl, (hstop a ⟨_, hcell⟩).mp (hend a hcell)⟩
  | none =>
    refine .inr ⟨rfl, ?_⟩
    rintro a ⟨i, hi⟩ rfl
    obtain ⟨d', rfl, hreach⟩ := h.reach i a hi
    rcases Nat.lt_trichotomy d d' with hlt | rfl | hgt
    · obtain ⟨b, hb⟩ := hreach d hlt
      rw [hcell] at hb
      cases hb
    · rw [hcell] at hi
      cases hi
    · obtain ⟨b, hb, hskip⟩ := hpassed d' hgt
      cases hi.symm.trans hb
      rw [(hstop a ⟨_, hi⟩).mpr rfl] at hskip
      cases hskip

theorem walk_of_probe {stop : α → Bool} {next : Nat → Nat} (hnext : ∀ i < t.length, next i = (i + 1) % t.length)
    (hi : i < t.length) (hprobe : probe stop next t fuel i = some c) :
    c < t.length ∧ ∃ d, c = (i + d) % t.length ∧ ∀ j < d, ∃ b, cell t ((i + j) % t.length) = some b := by
  obtain ⟨d, rfl, hpassed, -⟩ := probe_some hnext hi hprobe
  exact ⟨Nat.mod_lt _ (Nat.zero_lt_of_lt hi), d, rfl, fun j hj => (hpassed j hj).imp fun _ hb => hb.1⟩

theorem Valid.insert (h : Valid key home t) (hc : c < t.length) (hfree : cell t c = none)
    (hwalk : ∃ d, c = (home (key a) + d) % t.length ∧
      ∀ j < d, ∃ b, cell t ((home (key a) + j) % t.length) = some b)
    (hnew : ∀ b, Has t b → key b ≠ key a) : Valid key home (t.set c (some a)) := by
  have hkeeps : ∀ i b, cell t i = some b → cell (t.set c (some a)) i = some b := by
    intro i b hb
    rw [cell_set hc, if_neg (by rintro rfl; rw [hfree] at hb; cases hb)]
    exact hb
  constructor
  · intro i b hb
    rw [List.length_set]
    rw [cell_set hc] at hb
    split at hb
    · rename_i heq
      cases hb
      obtain ⟨d, hd, hpassed⟩ := hwalk
      exact ⟨d, heq.trans hd, fun j hj => (hpassed j hj).imp fun e he => hkeeps _ e he⟩
    · obtain ⟨d, hd, hpassed⟩ := h.reach i b hb
      exact ⟨d, hd, fun j hj => (hpassed j hj).imp fun e he => hkeeps _ e he⟩
  · intro i j x y hx hy hkey
    rw [cell_set hc] at hx hy
    split at hx <;> split at hy
    · exact (‹i = c›).trans (‹j = c›).symm
    · cases hx
      exact absurd hkey.symm (hnew y ⟨j, hy⟩)
    · cases hy
      exact absurd hkey (hnew x ⟨i, hx⟩)
    · exact h.single i j x y hx hy hkey

theorem Valid.replace (h : Valid key home t) (hcell : cell t c = some b) (hkey : key a = key b) :
    Valid key home (t.set c (some a)) := by
  have hc := cell_lt hcell
  have hkeeps : ∀ i, (∃ e, cell t i = some e) → ∃ e, cell (t.set c (some a)) i = some e := by
    rintro i ⟨e, he⟩
    rw [cell_set hc]
    split
    · exact ⟨a, rfl⟩
    · exact ⟨e, he⟩
  have hback : ∀ i x, cell (t.set c (some a)) i = some x → ∃ e, cell t i = some e ∧ key e = key x := by
    intro i x hx
    rw [cell_set hc] at hx
    split at hx
    · rename_i heq
      cases hx
      exact ⟨b, heq ▸ hcell, hkey.symm⟩
    · exact ⟨x, hx, rfl⟩
  constructor
  · intro i x hx
    obtain ⟨e, he, hsame⟩ := hback i x hx
    obtain ⟨d, hd, hpassed⟩ := h.reach i e he
    rw [List.length_set, ← hsame]
    exact ⟨d, hd, fun j hj => hkeeps _ (hpassed j hj)⟩
  · intro i j x y hx hy hxy
    obtain ⟨e, he, hsame⟩ := hback i x hx
    obtain ⟨e', he', hsame'⟩ := hback j y hy
    exact h.single i j e e' he he' (hsame.trans (hxy.trans hsame'.symm))

theorem has_set (hc : c < t.length) {x : α} :
    Has (t.set c (some a)) x ↔ x = a ∨ ∃ i, i ≠ c ∧ cell t i = some x := by
  constructor
  · rintro ⟨i, hi⟩
    rw [cell_set hc] at hi
    split at hi
    · cases hi
      exact .inl rfl
    · exact .inr ⟨i, ‹_›, hi⟩
  · rintro (rfl | ⟨i, hne, hi⟩)
    · exact ⟨c, by rw [cell_set hc, if_pos rfl]⟩
    · exact ⟨i, by rw [cell_set hc, if_neg hne]; exact hi⟩

theorem has_insert (hc : c < t.length) (hfree : cell t c = none) {x : α} :
    Has (t.set c (some a)) x ↔ x = a ∨ Has t x := by
  rw [has_set hc]
  refine or_congr_right ⟨fun ⟨i, _, hi⟩ => ⟨i, hi⟩, fun ⟨i, hi⟩ => ⟨i, ?_, hi⟩⟩
  rintro rfl
  rw [hfree] at hi
  cases hi

/-- An entry goes into the first free cell from its home on. -/
def place (key : α → κ) (home : κ → Nat) (next : Nat → Nat) (fuel : Nat) (t : List (Option α)) :
    Option α → Option (List (Option α))
  | none => some t
  | some a => do
      let i ← probe (fun _ => false) next t fuel (home (key a))
      return t.set i (some a)

/-- The entries that were moved from the cells `done`. -/
structure Moved (key : α → κ) (home : κ → Nat) (n : Nat) (done t : List (Option α)) : Prop where
  length : t.length = n
  valid : Valid key home t
  has : ∀ a, Has t a ↔ Has done a
  filled : filled t = filled done

theorem has_iff_mem : Has t a ↔ some a ∈ t := by
  rw [List.mem_iff_getElem?]
  exact exists_congr fun i => cell_eq_some

section Move

variable {next : Nat → Nat} {n : Nat} {done : List (Option α)}

theorem Moved.place (h : Moved key home n done t) (hnext : ∀ i < n, next i = (i + 1) % n)
    (hhome : ∀ k, home k < n) (hroom : OpenAddressing.filled done < n) (hfuel : n ≤ fuel) {o : Option α}
    (hnew : ∀ a, o = some a → ∀ b, Has done b → key b ≠ key a) :
    ∃ t', place key home next fuel t o = some t' ∧ Moved key home n (done ++ [o]) t' := by
  have hlast : ∀ a, Has (done ++ [o]) a ↔ Has done a ∨ o = some a := by
    intro a
    rw [has_iff_mem, has_iff_mem, List.mem_append, List.mem_singleton]
    exact or_congr_right eq_comm
  cases o with
  | none =>
    refine ⟨t, rfl, h.length, h.valid, fun a => ?_, ?_⟩
    · rw [h.has a, hlast a]
      exact (or_iff_left nofun).symm
    · rw [h.filled, OpenAddressing.filled, OpenAddressing.filled, List.countP_append]
      rfl
  | some a =>
    have hnext' : ∀ i < t.length, next i = (i + 1) % t.length := by
      rw [h.length]
      exact hnext
    have hstart : home (key a) < t.length := by
      rw [h.length]
      exact hhome _
    obtain ⟨c, hc⟩ : ∃ c, ∀ fuel ≥ t.length, probe (fun _ => false) next t fuel (home (key a)) = some c :=
      probe_ends hnext' hstart (by rw [h.length, h.filled]; exact hroom)
    have hprobe := hc fuel (h.length ▸ hfuel)
    obtain ⟨hlt, hwalk⟩ := walk_of_probe hnext' hstart hprobe
    have hfree : cell t c = none := by
      obtain ⟨-, -, -, hend⟩ := probe_some hnext' hstart hprobe
      cases hcell : cell t c with
      | none => rfl
      | some b => cases hend b hcell
    refine ⟨t.set c (some a), by rw [OpenAddressing.place, hprobe]; rfl, ?_, ?_, fun b => ?_, ?_⟩
    · rw [List.length_set, h.length]
    · exact h.valid.insert hlt hfree hwalk fun b hb => hnew a rfl b ((h.has b).mp hb)
    · rw [has_insert hlt hfree, h.has b, hlast b, Option.some.injEq, or_comm, eq_comm]
    · rw [filled_set hlt hfree, h.filled, OpenAddressing.filled, OpenAddressing.filled, List.countP_append]
      rfl

theorem Valid.move {home' : κ → Nat} (h : Valid key home' done) (hnext : ∀ i < n, next i = (i + 1) % n)
    (hhome : ∀ k, home k < n) (hroom : filled done < n) (hfuel : n ≤ fuel) :
    ∃ t, done.foldlM (OpenAddressing.place key home next fuel) (List.replicate n none) = some t ∧
      Moved key home n done t := by
  suffices hrun : ∀ (rest before t : List (Option α)), done = before ++ rest → Moved key home n before t →
      ∃ t', rest.foldlM (OpenAddressing.place key home next fuel) t = some t' ∧ Moved key home n done t' by
    refine hrun done [] _ rfl ⟨List.length_replicate, valid_empty _ _ _, fun a => ?_, filled_replicate _⟩
    rw [has_iff_mem, has_iff_mem, List.mem_replicate]
    exact iff_of_false (fun h => nomatch h.2) List.not_mem_nil
  intro rest
  induction rest with
  | nil =>
    rintro before t rfl hmoved
    exact ⟨t, rfl, by rwa [List.append_nil]⟩
  | cons o rest ih =>
    intro before t hdone hmoved
    have hle : filled before ≤ filled done := by
      rw [hdone, filled, filled, List.countP_append]
      omega
    have hnew : ∀ a, o = some a → ∀ b, Has before b → key b ≠ key a := by
      rintro a rfl b ⟨i, hi⟩ hkey
      have hilt := cell_lt hi
      have hbefore : cell done i = some b := by
        rw [cell_eq_some, hdone, List.getElem?_append_left hilt]
        exact cell_eq_some.mp hi
      have hhere : cell done before.length = some a := by
        rw [cell_eq_some, hdone]
        simp
      have heq := h.single _ _ b a hbefore hhere hkey
      omega
    obtain ⟨t', hplace, hmoved'⟩ := hmoved.place hnext hhome (Nat.lt_of_le_of_lt hle hroom) hfuel hnew
    obtain ⟨t'', hrest, hmoved''⟩ := ih (before ++ [o]) t' (by simp [hdone]) hmoved'
    exact ⟨t'', by rw [List.foldlM_cons, hplace]; exact hrest, hmoved''⟩

end Move

end OpenAddressing
