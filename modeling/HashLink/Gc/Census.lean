import HashLink.Lib.OpenAddressing
import Mathlib

/-!
The heap census: how many blocks of each type were allocated, and of how many bytes, in a table with open addressing
that grows at half its size. It is exact while the table could be allocated for the first block and has a free cell
for every new type. Without a table blocks are not counted, and a table that could not grow fills until a walk for one
more type does not end.
-/

namespace HashLink.HeapCensus

open OpenAddressing

/-- `gc_census_type`, where some block was counted. -/
structure GcCensusType where
  t : UInt64
  count : Nat
  bytes : Int
  deriving DecidableEq, Repr

/-- The table of the census; `gc_census_type_cap` is its length. -/
structure Census where
  types : List (Option GcCensusType)
  typeCount : Nat
  total : Nat

/-- A block that is counted, and whether the table can be allocated if it is to grow for it. -/
structure Block where
  t : UInt64
  bytes : Int
  calloc : Bool

/-- `gc_census_hash` of a type without frames. -/
def gcCensusHash (a : UInt64) : Nat := ((a * 0x9E3779B97F4A7C15) >>> 32).toUInt32.toNat

/-- The cell a type is looked for from, in a table of `cap` cells. -/
def home (cap : Nat) (t : UInt64) : Nat := gcCensusHash t &&& (cap - 1)

def nextCell (cap k : Nat) : Nat := (k + 1) &&& (cap - 1)

/-- The capacity that `gc_census_grow_types` asks for. -/
def nextCap (cap : Nat) : Nat := if cap ≠ 0 then cap * 2 else 1024

/-- The one that it gets. A capacity that is no `int` is not allocated. -/
def grownCap (cap : Nat) (calloc : Bool) : Nat := if calloc ∧ nextCap cap < 2 ^ 31 then nextCap cap else cap

/-- `gc_census_grow_types`. A walk of more than `fuel` steps has no result. -/
def gcCensusGrowTypes (fuel : Nat) (calloc : Bool) (c : Census) : Option Census := do
  let cap := nextCap c.types.length
  if calloc ∧ cap < 2 ^ 31 then
    let next ← c.types.foldlM (place GcCensusType.t (home cap) (nextCell cap) fuel) (List.replicate cap none)
    return { c with types := next }
  else return c

def gcCensusCount (fuel : Nat) (c : Census) (b : Block) : Option Census := do
  let c := { c with total := c.total + 1 }
  let c ← if c.types.length ≤ c.typeCount * 2 then gcCensusGrowTypes fuel b.calloc c else some c
  if c.types.length = 0 then return c
  else
    let k ← probe (·.t = b.t) (nextCell c.types.length) c.types fuel (home c.types.length b.t)
    match cell c.types k with
    | none => return { c with types := c.types.set k (some ⟨b.t, 1, b.bytes⟩), typeCount := c.typeCount + 1 }
    | some e =>
      return { c with types := c.types.set k (some { e with count := e.count + 1, bytes := e.bytes + b.bytes }) }

def census (fuel : Nat) (c : Census) (blocks : List Block) : Option Census := blocks.foldlM (gcCensusCount fuel) c

def countOf (blocks : List Block) (t : UInt64) : Nat := (blocks.filter (·.t = t)).length

def bytesOf (blocks : List Block) (t : UInt64) : Int := ((blocks.filter (·.t = t)).map Block.bytes).sum

/-- What is reported are the sums over the blocks, for each type once. -/
structure Reports (c : Census) (blocks : List Block) : Prop where
  sums : ∀ e, Has c.types e → 0 < e.count ∧ e.count = countOf blocks e.t ∧ e.bytes = bytesOf blocks e.t
  all : ∀ b ∈ blocks, ∃ e, Has c.types e ∧ e.t = b.t
  once : ∀ i j e e', cell c.types i = some e → cell c.types j = some e' → e.t = e'.t → i = j

/-- A number of cells that the table can have: none, or a power of two that is an `int`. -/
def IsCap (cap : Nat) : Prop := cap = 0 ∨ ∃ m ≤ 30, cap = 2 ^ m

structure Capacity where
  cap : Nat
  valid : IsCap cap

/-- The census before the first block, or after `hl_gc_census_reset`: all cells are free. -/
def Census.start (capacity : Capacity) : Census := ⟨List.replicate capacity.cap none, 0, 0⟩

/-- The capacity that a block is counted with, where so many types were counted before. -/
def capFor (cap types : Nat) (calloc : Bool) : Nat := if cap ≤ types * 2 then grownCap cap calloc else cap

def withType (seen : List UInt64) (t : UInt64) : List UInt64 := if t ∈ seen then seen else t :: seen

/-- Whenever a block is counted there is a table, and a free cell in it when the type is a new one. -/
def Fits : Nat → List UInt64 → List Block → Prop
  | _, _, [] => True
  | cap, seen, b :: blocks =>
    0 < capFor cap seen.length b.calloc ∧ (b.t ∈ seen ∨ seen.length < capFor cap seen.length b.calloc) ∧
      Fits (capFor cap seen.length b.calloc) (withType seen b.t) blocks

theorem countOf_append (blocks : List Block) (b : Block) (t : UInt64) :
    countOf (blocks ++ [b]) t = countOf blocks t + if b.t = t then 1 else 0 := by
  unfold countOf
  rw [List.filter_append, List.length_append]
  split <;> simp [*]

theorem bytesOf_append (blocks : List Block) (b : Block) (t : UInt64) :
    bytesOf (blocks ++ [b]) t = bytesOf blocks t + if b.t = t then b.bytes else 0 := by
  unfold bytesOf
  rw [List.filter_append, List.map_append, List.sum_append]
  split <;> simp [*]

structure Counts (c : Census) (seen : List UInt64) (blocks : List Block) : Prop where
  cap : IsCap c.types.length
  valid : Valid GcCensusType.t (home c.types.length) c.types
  load : filled c.types = c.typeCount
  types : c.typeCount = seen.length
  seen_iff : ∀ t, t ∈ seen ↔ ∃ e, Has c.types e ∧ e.t = t
  sums : ∀ e, Has c.types e → 0 < e.count ∧ e.count = countOf blocks e.t ∧ e.bytes = bytesOf blocks e.t
  all : ∀ b ∈ blocks, b.t ∈ seen

variable {c c' : Census} {seen : List UInt64} {blocks : List Block} {b : Block} {fuel cap m : Nat}

theorem home_lt (m : Nat) (t : UInt64) : home (2 ^ m) t < 2 ^ m := by
  rw [home, Nat.and_two_pow_sub_one_eq_mod]
  exact Nat.mod_lt _ (Nat.two_pow_pos m)

theorem nextCell_eq {t : List (Option GcCensusType)} (hcap : t.length = 2 ^ m) :
    ∀ i < t.length, nextCell t.length i = (i + 1) % t.length := by
  intro i _
  rw [hcap, nextCell]
  exact Nat.and_two_pow_sub_one_eq_mod _ _

theorem Counts.reports (h : Counts c seen blocks) : Reports c blocks where
  sums := h.sums
  all b hb := (h.seen_iff b.t).mp (h.all b hb)
  once := h.valid.single

theorem Reports.length_eq {blocks' : List Block} (h : Reports c blocks) (h' : Reports c blocks') :
    blocks.length = blocks'.length := by
  have hcount : ∀ t, countOf blocks t = countOf blocks' t := by
    intro t
    by_cases hex : ∃ e, Has c.types e ∧ e.t = t
    · obtain ⟨e, he, rfl⟩ := hex
      exact (h.sums e he).2.1.symm.trans (h'.sums e he).2.1
    · have hzero : ∀ bs : List Block, (∀ b ∈ bs, ∃ e, Has c.types e ∧ e.t = b.t) → countOf bs t = 0 := by
        intro bs hall
        rw [countOf, List.length_eq_zero_iff, List.filter_eq_nil_iff]
        intro b hb hbt
        obtain ⟨e, he, het⟩ := hall b hb
        exact hex ⟨e, he, het.trans (of_decide_eq_true hbt)⟩
      rw [hzero blocks h.all, hzero blocks' h'.all]
  have hperm : (blocks.map Block.t).Perm (blocks'.map Block.t) := by
    rw [List.perm_iff_count]
    intro t
    have hmap : ∀ bs : List Block, (bs.map Block.t).count t = countOf bs t := by
      intro bs
      rw [countOf, List.count, List.countP_map, List.countP_eq_length_filter]
      rfl
    rw [hmap, hmap, hcount t]
  simpa using hperm.length_eq

theorem nextCap_spec (hcap : IsCap cap) (hlt : nextCap cap < 2 ^ 31) :
    (∃ m ≤ 30, nextCap cap = 2 ^ m) ∧ cap < nextCap cap := by
  rcases hcap with rfl | ⟨m, hm, rfl⟩
  · exact ⟨⟨10, by decide, rfl⟩, by decide⟩
  · have hpos := Nat.two_pow_pos m
    rw [nextCap, if_pos (Nat.ne_of_gt hpos), ← Nat.pow_succ] at hlt ⊢
    have hm' := (Nat.pow_lt_pow_iff_right (by decide : 1 < 2)).mp hlt
    exact ⟨⟨m + 1, by omega, rfl⟩, Nat.pow_lt_pow_right (by decide) (Nat.lt_succ_self m)⟩

theorem Counts.grow (h : Counts c seen blocks) (hfuel : 2 ^ 31 ≤ fuel) (calloc : Bool) :
    ∃ c', gcCensusGrowTypes fuel calloc c = some c' ∧ Counts c' seen blocks ∧
      c'.types.length = grownCap c.types.length calloc := by
  unfold gcCensusGrowTypes grownCap
  dsimp only
  by_cases hgrows : calloc ∧ nextCap c.types.length < 2 ^ 31
  · rw [if_pos hgrows, if_pos hgrows]
    obtain ⟨⟨m, hm30, hm⟩, hlt⟩ := nextCap_spec h.cap hgrows.2
    generalize nextCap c.types.length = n at hgrows hm hlt ⊢
    have hroom : filled c.types < n := Nat.lt_of_le_of_lt List.countP_le_length hlt
    have hnext : ∀ i < n, nextCell n i = (i + 1) % n := by
      intro i _
      rw [hm, nextCell]
      exact Nat.and_two_pow_sub_one_eq_mod _ _
    have hhome : ∀ t, home n t < n := by
      intro t
      rw [hm]
      exact home_lt m t
    obtain ⟨next, hrun, hmoved⟩ := h.valid.move hnext hhome hroom (by omega : n ≤ fuel)
    refine ⟨{ c with types := next }, by rw [hrun]; rfl, ?_, hmoved.length⟩
    have hlength : next.length = n := hmoved.length
    refine ⟨?_, ?_, hmoved.filled.trans h.load, h.types, fun t => ?_,
      fun e he => h.sums e ((hmoved.has e).mp he), h.all⟩
    · rw [hlength]
      exact .inr ⟨m, hm30, hm⟩
    · rw [hlength]
      exact hmoved.valid
    · rw [h.seen_iff t]
      exact exists_congr fun e => and_congr_left fun _ => (hmoved.has e).symm
  · rw [if_neg hgrows, if_neg hgrows]
    exact ⟨c, rfl, h, rfl⟩

/-- The census when its table is as large as it gets for a block. -/
def countIn (fuel : Nat) (c : Census) (b : Block) : Option Census := do
  if c.types.length = 0 then return c
  else
    let k ← probe (·.t = b.t) (nextCell c.types.length) c.types fuel (home c.types.length b.t)
    match cell c.types k with
    | none => return { c with types := c.types.set k (some ⟨b.t, 1, b.bytes⟩), typeCount := c.typeCount + 1 }
    | some e =>
      return { c with types := c.types.set k (some { e with count := e.count + 1, bytes := e.bytes + b.bytes }) }

theorem gcCensusCount_eq (h : Counts c seen blocks) (hfuel : 2 ^ 31 ≤ fuel) (b : Block) :
    ∃ c', gcCensusCount fuel c b = countIn fuel c' b ∧ Counts c' seen blocks ∧
      c'.types.length = capFor c.types.length seen.length b.calloc := by
  have h' : Counts { c with total := c.total + 1 } seen blocks :=
    ⟨h.cap, h.valid, h.load, h.types, h.seen_iff, h.sums, h.all⟩
  unfold gcCensusCount capFor
  dsimp only
  by_cases hgrows : c.types.length ≤ c.typeCount * 2
  · obtain ⟨c', hrun, hcounts, hlength⟩ := h'.grow hfuel b.calloc
    rw [if_pos hgrows, if_pos (h.types ▸ hgrows), hrun]
    exact ⟨c', rfl, hcounts, hlength⟩
  · rw [if_neg hgrows, if_neg (h.types ▸ hgrows)]
    exact ⟨_, rfl, h', rfl⟩

theorem Counts.cap_pow (h : Counts c seen blocks) (hpos : 0 < c.types.length) :
    ∃ m ≤ 30, c.types.length = 2 ^ m := h.cap.resolve_left (Nat.ne_of_gt hpos)

theorem sums_absent {t : UInt64} (h : ∀ b ∈ blocks, b.t ≠ t) : countOf blocks t = 0 ∧ bytesOf blocks t = 0 := by
  have hnil : blocks.filter (·.t = t) = [] :=
    List.filter_eq_nil_iff.mpr fun b hb => by simpa using h b hb
  rw [countOf, bytesOf, hnil]
  exact ⟨rfl, rfl⟩

theorem withType_known {t : UInt64} (h : t ∈ seen) : withType seen t = seen := if_pos h

theorem withType_new {t : UInt64} (h : t ∉ seen) : withType seen t = t :: seen := if_neg h

theorem mem_withType (h : ∀ b ∈ blocks, b.t ∈ seen) : ∀ b' ∈ blocks ++ [b], b'.t ∈ withType seen b.t := by
  intro b' hb'
  unfold withType
  rcases List.mem_append.mp hb' with hb' | hb'
  · have hmem := h b' hb'
    split
    · exact hmem
    · exact List.mem_cons_of_mem _ hmem
  · rw [List.mem_singleton.mp hb']
    split
    · assumption
    · exact List.mem_cons_self

theorem Counts.counted (h : Counts c seen blocks) {k : Nat} {e : GcCensusType} (he : cell c.types k = some e)
    (het : e.t = b.t) :
    Counts { c with types := c.types.set k (some { e with count := e.count + 1, bytes := e.bytes + b.bytes }) }
      (withType seen b.t) (blocks ++ [b]) := by
  have hk := cell_lt he
  have hseen : b.t ∈ seen := (h.seen_iff b.t).mpr ⟨e, ⟨k, he⟩, het⟩
  refine ⟨?_, ?_, (filled_replace he).trans h.load, ?_, fun t => ?_, fun x hx => ?_, mem_withType h.all⟩
  · rw [List.length_set]
    exact h.cap
  · rw [List.length_set]
    exact h.valid.replace he rfl
  · rw [withType_known hseen]
    exact h.types
  · rw [withType_known hseen, h.seen_iff t]
    constructor
    · rintro ⟨x, ⟨i, hi⟩, rfl⟩
      by_cases hik : i = k
      · subst hik
        cases hi.symm.trans he
        exact ⟨_, (has_set hk).mpr (.inl rfl), rfl⟩
      · exact ⟨x, (has_set hk).mpr (.inr ⟨i, hik, hi⟩), rfl⟩
    · rintro ⟨x, hx, rfl⟩
      rcases (has_set hk).mp hx with rfl | ⟨i, -, hi⟩
      · exact ⟨e, ⟨k, he⟩, rfl⟩
      · exact ⟨x, ⟨i, hi⟩, rfl⟩
  · rw [countOf_append, bytesOf_append]
    rcases (has_set hk).mp hx with rfl | ⟨i, hik, hi⟩
    · obtain ⟨hpos, hcount, hbytes⟩ := h.sums e ⟨k, he⟩
      refine ⟨Nat.succ_pos _, ?_, ?_⟩
      · rw [if_pos het.symm, ← hcount]
      · rw [if_pos het.symm, ← hbytes]
    · have hne : b.t ≠ x.t := fun heq => hik (h.valid.single i k x e hi he (heq.symm.trans het.symm))
      rw [if_neg hne, if_neg hne, Nat.add_zero, Int.add_zero]
      exact h.sums x ⟨i, hi⟩

theorem Counts.entered (h : Counts c seen blocks) {k : Nat} (hk : k < c.types.length) (hfree : cell c.types k = none)
    (hwalk : ∃ d, k = (home c.types.length b.t + d) % c.types.length ∧
      ∀ j < d, ∃ e, cell c.types ((home c.types.length b.t + j) % c.types.length) = some e)
    (hnew : ∀ e, Has c.types e → e.t ≠ b.t) :
    Counts { c with types := c.types.set k (some ⟨b.t, 1, b.bytes⟩), typeCount := c.typeCount + 1 }
      (withType seen b.t) (blocks ++ [b]) := by
  have hunseen : b.t ∉ seen := fun hseen =>
    let ⟨e, he, het⟩ := (h.seen_iff b.t).mp hseen
    hnew e he het
  refine ⟨?_, ?_, ?_, ?_, fun t => ?_, fun x hx => ?_, mem_withType h.all⟩
  · rw [List.length_set]
    exact h.cap
  · rw [List.length_set]
    exact h.valid.insert hk hfree hwalk hnew
  · rw [filled_set hk hfree, h.load]
  · rw [withType_new hunseen, List.length_cons, h.types]
  · rw [withType_new hunseen, List.mem_cons, h.seen_iff t]
    constructor
    · rintro (rfl | ⟨x, hx, rfl⟩)
      · exact ⟨_, (has_insert hk hfree).mpr (.inl rfl), rfl⟩
      · exact ⟨x, (has_insert hk hfree).mpr (.inr hx), rfl⟩
    · rintro ⟨x, hx, rfl⟩
      rcases (has_insert hk hfree).mp hx with rfl | hx
      · exact .inl rfl
      · exact .inr ⟨x, hx, rfl⟩
  · rw [countOf_append, bytesOf_append]
    rcases (has_insert hk hfree).mp hx with rfl | hx
    · obtain ⟨hcount, hbytes⟩ := sums_absent (t := b.t) fun b' hb' heq => hunseen (heq ▸ h.all b' hb')
      refine ⟨Nat.one_pos, ?_, ?_⟩
      · rw [if_pos rfl, hcount]
      · rw [if_pos rfl, hbytes, Int.zero_add]
    · have hne : b.t ≠ x.t := fun heq => hnew x hx heq.symm
      rw [if_neg hne, if_neg hne, Nat.add_zero, Int.add_zero]
      exact h.sums x hx

theorem Counts.count (h : Counts c seen blocks) (hfuel : 2 ^ 31 ≤ fuel) (hpos : 0 < c.types.length)
    (hroom : b.t ∈ seen ∨ seen.length < c.types.length) :
    ∃ c', countIn fuel c b = some c' ∧ Counts c' (withType seen b.t) (blocks ++ [b]) ∧
      c'.types.length = c.types.length := by
  obtain ⟨m, hm30, hm⟩ := h.cap_pow hpos
  have hlarge : c.types.length ≤ fuel := by
    have hpow := Nat.pow_le_pow_right (by decide : 0 < 2) hm30
    omega
  have hnext := nextCell_eq hm
  have hhome : home c.types.length b.t < c.types.length := by
    rw [hm]
    exact home_lt m b.t
  have hex : ∃ f < c.types.length, ∀ e, cell c.types f = some e → decide (e.t = b.t) = true := by
    rcases hroom with hseen | hroom
    · obtain ⟨e, ⟨f, hf⟩, het⟩ := (h.seen_iff b.t).mp hseen
      refine ⟨f, cell_lt hf, fun e' he' => ?_⟩
      cases hf.symm.trans he'
      exact decide_eq_true het
    · obtain ⟨f, hf, hfree⟩ := exists_free (t := c.types) (by rw [h.load, h.types]; exact hroom)
      exact ⟨f, hf, fun e he => by rw [hfree] at he; cases he⟩
  obtain ⟨k, hprobe⟩ := probe_ends_of hnext hhome hex
  have hprobe := hprobe fuel hlarge
  obtain ⟨hlt, hwalk⟩ := walk_of_probe hnext hhome hprobe
  unfold countIn
  rw [if_neg (Nat.ne_of_gt hpos), hprobe]
  rcases h.valid.lookup hnext hhome (fun e _ => decide_eq_true_iff) hprobe with ⟨e, he, het⟩ | ⟨hfree, hnew⟩
  · refine ⟨_, by simp only [Option.bind_eq_bind, Option.bind_some, he]; rfl, h.counted he het, List.length_set⟩
  · refine ⟨_, by simp only [Option.bind_eq_bind, Option.bind_some, hfree]; rfl, h.entered hlt hfree hwalk hnew,
      List.length_set⟩

theorem Counts.full (h : Counts c seen blocks) (hpos : 0 < c.types.length) (hnew : b.t ∉ seen)
    (hfull : c.types.length ≤ seen.length) (fuel : Nat) : countIn fuel c b = none := by
  obtain ⟨m, -, hm⟩ := h.cap_pow hpos
  have hhome : home c.types.length b.t < c.types.length := by
    rw [hm]
    exact home_lt m b.t
  have hcells : ∀ j < c.types.length, ∃ e, cell c.types j = some e ∧ decide (e.t = b.t) = false := by
    intro j hj
    obtain ⟨e, he⟩ := cell_of_filled (by rw [h.load, h.types]; exact hfull) j hj
    exact ⟨e, he, decide_eq_false fun het => hnew ((h.seen_iff b.t).mpr ⟨e, ⟨j, he⟩, het⟩)⟩
  unfold countIn
  rw [if_neg (Nat.ne_of_gt hpos), probe_full (nextCell_eq hm) hhome hcells]
  rfl

theorem counts_start (capacity : Capacity) : Counts (.start capacity) [] [] := by
  have hnone : ∀ e, ¬Has (Census.start capacity).types e := by
    rintro e ⟨i, hi⟩
    rw [Census.start, cell_replicate] at hi
    cases hi
  refine ⟨?_, valid_empty _ _ _, filled_replicate _, rfl, fun t => ?_, fun e he => absurd he (hnone e), nofun⟩
  · rw [Census.start, List.length_replicate]
    exact capacity.valid
  · exact iff_of_false List.not_mem_nil fun ⟨e, he, _⟩ => hnone e he

theorem Counts.dropped (h : Counts c seen blocks) (hfuel : 2 ^ 31 ≤ fuel)
    (hnone : capFor c.types.length seen.length b.calloc = 0) :
    ∃ c', gcCensusCount fuel c b = some c' ∧ Counts c' seen blocks ∧
      c'.types.length = capFor c.types.length seen.length b.calloc := by
  obtain ⟨c', hrun, h', hlength⟩ := gcCensusCount_eq h hfuel b
  refine ⟨c', ?_, h', hlength⟩
  rw [hrun, countIn, if_pos (hlength.trans hnone)]
  rfl

theorem census_cons (b : Block) (rest : List Block) :
    census fuel c (b :: rest) = (gcCensusCount fuel c b).bind fun c => census fuel c rest := rfl

/-- Whatever was counted, and whatever is to come: all of the rest is counted when it fits, and not all of it when it
does not. -/
theorem census_run (hfuel : 2 ^ 31 ≤ fuel) (rest : List Block) : ∀ {c : Census} {seen : List UInt64}
    {blocks : List Block}, Counts c seen blocks →
      (Fits c.types.length seen rest → ∃ c' seen', census fuel c rest = some c' ∧ Counts c' seen' (blocks ++ rest)) ∧
      (¬Fits c.types.length seen rest → ∀ c', census fuel c rest = some c' →
        ∃ seen' counted, Counts c' seen' counted ∧ counted.length < (blocks ++ rest).length) := by
  induction rest with
  | nil =>
    intro c seen blocks h
    exact ⟨fun _ => ⟨c, seen, rfl, by rwa [List.append_nil]⟩, fun hnot => absurd trivial hnot⟩
  | cons b rest ih =>
    intro c seen blocks h
    have hlonger : (blocks ++ b :: rest).length = (blocks ++ rest).length + 1 := by
      simp only [List.length_append, List.length_cons]
      omega
    have hsplit : blocks ++ b :: rest = blocks ++ [b] ++ rest := by simp
    rcases Nat.eq_zero_or_pos (capFor c.types.length seen.length b.calloc) with hnone | hpos
    · -- there is no table, and the block is lost
      obtain ⟨c₁, hstep, h₁, -⟩ := h.dropped hfuel hnone
      refine ⟨fun hfits => absurd hnone (Nat.ne_of_gt hfits.1), fun _ c' hrun => ?_⟩
      rw [census_cons, hstep, Option.bind_some] at hrun
      obtain ⟨hfits, hnot⟩ := ih h₁
      by_cases hrest : Fits c₁.types.length seen rest
      · obtain ⟨c₂, seen', hrun', h₂⟩ := hfits hrest
        cases hrun.symm.trans hrun'
        exact ⟨seen', _, h₂, by omega⟩
      · obtain ⟨seen', counted, h₂, hlt⟩ := hnot hrest c' hrun
        exact ⟨seen', counted, h₂, by omega⟩
    · obtain ⟨c₁, hstep, h₁, hlength⟩ := gcCensusCount_eq h hfuel b
      by_cases hroom : b.t ∈ seen ∨ seen.length < capFor c.types.length seen.length b.calloc
      · rw [← hlength] at hpos hroom
        obtain ⟨c₂, hcount, h₂, hsame⟩ := h₁.count hfuel hpos hroom
        obtain ⟨hfits, hnot⟩ := ih h₂
        rw [hsame, hlength] at hfits hnot
        rw [census_cons, hstep, hcount, Option.bind_some, hsplit]
        rw [hlength] at hpos hroom
        exact ⟨fun h => hfits h.2.2, fun h => hnot fun hrest => h ⟨hpos, hroom, hrest⟩⟩
      · -- the table is full, and the walk for the type does not end
        rw [not_or, Nat.not_lt] at hroom
        have hstuck := h₁.full (hlength ▸ hpos) hroom.1 (hlength ▸ hroom.2) fuel
        rw [census_cons, hstep, hstuck]
        exact ⟨fun hfits => absurd hfits.2.1 (by rw [not_or, Nat.not_lt]; exact hroom), fun _ _ hrun => nomatch hrun⟩

/-- The census of the blocks ends, and reports their sums. -/
def Exact (capacity : Capacity) (blocks : List Block) : Prop :=
  ∃ n, ∀ fuel ≥ n, ∃ c, census fuel (.start capacity) blocks = some c ∧ Reports c blocks

theorem not_exact {capacity : Capacity} (hnot : ¬Fits capacity.cap [] blocks) : ¬Exact capacity blocks := by
  rintro ⟨n, hn⟩
  have hcap : (Census.start capacity).types.length = capacity.cap := List.length_replicate
  obtain ⟨c, hrun, hreports⟩ := hn (max n (2 ^ 31)) (Nat.le_max_left _ _)
  obtain ⟨-, hlost⟩ := census_run (Nat.le_max_right n (2 ^ 31)) blocks (counts_start capacity)
  obtain ⟨seen', counted, h, hlt⟩ := hlost (hcap.symm ▸ hnot) c hrun
  have hsame := h.reports.length_eq hreports
  simp only [List.nil_append] at hlt
  omega

/-- The census is exact exactly for the sequences for which there is a table whenever a block is counted, with a free
cell when the type is a new one. -/
theorem census_exact_iff (capacity : Capacity) (blocks : List Block) :
    Exact capacity blocks ↔ Fits capacity.cap [] blocks := by
  refine ⟨fun hexact => ?_, fun hfits => ⟨2 ^ 31, fun fuel hfuel => ?_⟩⟩
  · by_contra hnot
    exact not_exact hnot hexact
  · have hcap : (Census.start capacity).types.length = capacity.cap := List.length_replicate
    obtain ⟨hrun, -⟩ := census_run hfuel blocks (counts_start capacity)
    obtain ⟨c, seen, hc, h⟩ := hrun (hcap.symm ▸ hfits)
    exact ⟨c, hc, h.reports⟩

theorem Fits.distinct (hfits : Fits cap seen blocks) (hcalloc : ∀ b ∈ blocks, b.calloc = false)
    (hnodup : (blocks.map Block.t).Nodup) (hnew : ∀ b ∈ blocks, b.t ∉ seen) (hseen : seen.length ≤ cap) :
    seen.length + blocks.length ≤ cap := by
  induction blocks generalizing seen with
  | nil => exact hseen
  | cons b blocks ih =>
    obtain ⟨hb, hcalloc⟩ := List.forall_mem_cons.mp hcalloc
    obtain ⟨hunseen, hnew⟩ := List.forall_mem_cons.mp hnew
    obtain ⟨hnotin, hnodup⟩ := List.nodup_cons.mp hnodup
    obtain ⟨-, hroom, hrest⟩ := hfits
    have hsame : capFor cap seen.length b.calloc = cap := by
      have hgrown : grownCap cap b.calloc = cap := by rw [grownCap, hb, if_neg (by simp)]
      rw [capFor, hgrown, ite_self]
    rw [hsame] at hroom hrest
    rw [withType_new hunseen] at hrest
    have hlt := hroom.resolve_left hunseen
    have hle := ih hrest hcalloc hnodup (fun b' hb' hmem => ?_) hlt
    · rw [List.length_cons] at hle ⊢
      omega
    · rcases List.mem_cons.mp hmem with heq | hmem
      · exact hnotin (List.mem_map.mpr ⟨b', hb', heq⟩)
      · exact hnew b' hb' hmem

theorem not_fits {n : Nat} (hcap : capFor cap 0 b.calloc = n) (hcalloc : ∀ b' ∈ blocks, b'.calloc = false)
    (hnodup : (blocks.map Block.t).Nodup) (hnew : ∀ b' ∈ blocks, b'.t ∉ [b.t]) (hmany : n < blocks.length + 1) :
    ¬Fits cap [] (b :: blocks) := by
  rintro ⟨hpos, -, hrest⟩
  rw [List.length_nil, hcap] at hpos hrest
  rw [withType_new List.not_mem_nil] at hrest
  have hle := hrest.distinct hcalloc hnodup hnew hpos
  rw [List.length_singleton] at hle
  omega

def laterTypes : List Block := (List.range 1024).map fun i => ⟨UInt64.ofNat (0x1020 + 32 * i), 16, false⟩

/-- One more block before, for which the table is allocated. -/
def manyTypes : List Block := ⟨0x1000, 16, true⟩ :: laterTypes

theorem manyTypes_not_exact : ¬Exact ⟨0, .inl rfl⟩ manyTypes := by
  have hcap : capFor 0 0 (Block.mk 0x1000 16 true).calloc = 1024 := by simp [capFor, grownCap, nextCap]
  have haddress : ∀ i < 1024, (UInt64.ofNat (0x1020 + 32 * i)).toNat = 0x1020 + 32 * i := by
    intro i hi
    rw [UInt64.toNat_ofNat']
    exact Nat.mod_eq_of_lt (by omega)
  have hblock : ∀ b ∈ laterTypes, ∃ i < 1024, b = ⟨UInt64.ofNat (0x1020 + 32 * i), 16, false⟩ := by
    intro b hb
    obtain ⟨i, hi, rfl⟩ := List.mem_map.mp hb
    exact ⟨i, List.mem_range.mp hi, rfl⟩
  have hcalloc : ∀ b ∈ laterTypes, b.calloc = false := by
    intro b hb
    obtain ⟨i, -, rfl⟩ := hblock b hb
    rfl
  have hnodup : (laterTypes.map Block.t).Nodup := by
    rw [laterTypes, List.map_map]
    refine List.Nodup.map_on (fun i hi j hj heq => ?_) List.nodup_range
    have htypes : (UInt64.ofNat (0x1020 + 32 * i)).toNat = (UInt64.ofNat (0x1020 + 32 * j)).toNat :=
      congrArg UInt64.toNat heq
    rw [haddress i (List.mem_range.mp hi), haddress j (List.mem_range.mp hj)] at htypes
    omega
  have hnew : ∀ b ∈ laterTypes, b.t ∉ [0x1000] := by
    intro b hb hmem
    obtain ⟨i, hi, rfl⟩ := hblock b hb
    have hfirst : (UInt64.ofNat (0x1020 + 32 * i)).toNat = 0x1000 := congrArg UInt64.toNat (List.mem_singleton.mp hmem)
    rw [haddress i hi] at hfirst
    omega
  refine not_exact (not_fits hcap hcalloc hnodup hnew ?_)
  rw [laterTypes, List.length_map, List.length_range]
  omega

end HashLink.HeapCensus
