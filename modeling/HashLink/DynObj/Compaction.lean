import HashLink.DynObj.Invariant

/-! The raw data of an object when it moves to new data. The loop that packs the raw fields changes
the lookup, the memory and the views together; here is what it does to each, by induction over the
entries that are left. -/

namespace HashLink

namespace DynObj

open FlatMemory

def packed : List DynField → Nat → List (DynField × Nat)
  | [], _ => []
  | f :: rest, n =>
    if f.isPtr then (f, f.index) :: packed rest n
    else (f, n + hlPadSize n f.t.kind) :: packed rest (n + hlPadSize n f.t.kind + f.size)

def placed (p : DynField × Nat) : DynField := { p.1 with index := p.2 }

@[simp] theorem packed_fst (fs : List DynField) (n : Nat) : (packed fs n).map Prod.fst = fs := by
  induction fs generalizing n with
  | nil => rfl
  | cons f rest ih =>
    rw [packed]
    split <;> simp [ih]

variable {o : DynState} {n : Nat} {newData : Int}

theorem mem_of_packed {fs : List DynField} {p : DynField × Nat} (hp : p ∈ packed fs n) :
    p.1 ∈ fs := by
  have h := List.mem_map_of_mem (f := Prod.fst) hp
  rwa [packed_fst] at h

theorem le_packedSize (fs : List DynField) (n : Nat) : n ≤ DynState.packedSize fs n := by
  induction fs generalizing n with
  | nil => exact Nat.le_refl _
  | cons f rest ih =>
    rw [DynState.packedSize]
    split
    · exact ih n
    · exact Nat.le_trans (by omega) (ih _)

theorem packed_spec (fs : List DynField) (n : Nat) :
    (∀ p ∈ packed fs n, p.1.isPtr → p.2 = p.1.index) ∧
      (∀ p ∈ packed fs n, ¬p.1.isPtr → n ≤ p.2 ∧ p.2 + p.1.size ≤ DynState.packedSize fs n) ∧
      (packed fs n).Pairwise fun p q => ¬p.1.isPtr → ¬q.1.isPtr → p.2 + p.1.size ≤ q.2 := by
  induction fs generalizing n with
  | nil => exact ⟨by simp [packed], by simp [packed], List.Pairwise.nil⟩
  | cons f rest ih =>
    rw [packed, DynState.packedSize]
    by_cases hptr : f.isPtr
    · obtain ⟨hindex, hrange, hpair⟩ := ih n
      simp only [hptr, if_true]
      refine ⟨?_, ?_, List.pairwise_cons.mpr ⟨fun q _ hp => absurd hptr hp, hpair⟩⟩
      · exact List.forall_mem_cons.mpr ⟨fun _ => rfl, hindex⟩
      · exact List.forall_mem_cons.mpr ⟨fun hp => absurd hptr hp, hrange⟩
    · obtain ⟨hindex, hrange, hpair⟩ := ih (n + hlPadSize n f.t.kind + f.size)
      have hle := le_packedSize rest (n + hlPadSize n f.t.kind + f.size)
      simp only [hptr]
      refine ⟨?_, ?_, List.pairwise_cons.mpr ⟨fun q hq _ hp => (hrange q hq hp).1, hpair⟩⟩
      · exact List.forall_mem_cons.mpr ⟨fun hp => absurd hp hptr, hindex⟩
      · refine List.forall_mem_cons.mpr ⟨fun _ => ⟨by omega, hle⟩, fun p hp hraw => ?_⟩
        have := hrange p hp hraw
        exact ⟨by omega, this.2⟩

theorem packed_apart {fs : List DynField} {p q : DynField × Nat} (hp : p ∈ packed fs n) (hq : q ∈ packed fs n)
    (hne : p.1.hash ≠ q.1.hash) (hpr : ¬p.1.isPtr) (hqr : ¬q.1.isPtr) :
    p.2 + p.1.size ≤ q.2 ∨ q.2 + q.1.size ≤ p.2 := by
  obtain ⟨i, hi, rfl⟩ := List.getElem_of_mem hp
  obtain ⟨j, hj, rfl⟩ := List.getElem_of_mem hq
  have hpair := List.pairwise_iff_getElem.mp (packed_spec fs n).2.2
  rcases Nat.lt_trichotomy i j with hij | rfl | hij
  · exact Or.inl (hpair i j hi hj hij hpr hqr)
  · exact absurd rfl hne
  · exact Or.inr (hpair j i hj hi hij hqr hpr)

section Loop

variable (newData : Int)

theorem compactLoop_lookup (fs : List DynField) (n : Nat) (o : DynState) :
    (DynState.compactLoop newData fs n o).1 = (packed fs n).map placed ∧
      (DynState.compactLoop newData fs n o).2.1 = DynState.packedSize fs n := by
  induction fs generalizing n o with
  | nil => exact ⟨rfl, rfl⟩
  | cons f rest ih =>
    rw [DynState.compactLoop, packed, DynState.packedSize]
    split
    · exact ⟨congrArg (f :: ·) (ih n o).1, (ih n o).2⟩
    · exact ⟨congrArg (_ :: ·) (ih _ _).1, (ih _ _).2⟩

theorem compactField_spec (o : DynState) (f : DynField) (n : Nat) {s : VField → Int}
    (hraw : ¬f.isPtr) (hshows : Shows o.virtuals s)
    (hs : ∀ vf, vf.hash = f.hash → s vf = if vf.t = f.t then o.raw + f.index else 0) :
    ∃ virtuals, o.compactField newData f n =
        { o with mem := copyBytes o.mem (newData + n) (o.raw + f.index) f.size, virtuals } ∧
      Shows virtuals fun vf =>
        if vf.hash = f.hash then if vf.t = f.t then o.raw + n else 0 else s vf := by
  unfold DynState.compactField
  simp only
  split
  · refine ⟨_, rfl, ?_⟩
    have hremap := shows_remap
      (o := { o with mem := copyBytes o.mem (newData + n) (o.raw + f.index) f.size }) hshows
      { f with index := n } 0
    refine hremap.congr fun vf => ?_
    have haddr : DynState.addr
        { o with mem := copyBytes o.mem (newData + n) (o.raw + f.index) f.size }
        { f with index := n } = o.raw + n := if_neg hraw
    rw [haddr, Int.add_zero, ite_self]
  · rename_i hsame
    refine ⟨_, rfl, hshows.congr fun vf => ?_⟩
    by_cases hhash : vf.hash = f.hash
    · have hindex : f.index = n := not_not.mp hsame
      rw [if_pos hhash, hs vf hhash, hindex]
    · rw [if_neg hhash]

theorem compactLoop_spec (fs : List DynField) (n : Nat) (o : DynState) {s : VField → Int}
    (hnodup : (fs.map DynField.hash).Nodup) (hshows : Shows o.virtuals s)
    (hs : ∀ f ∈ fs, ¬f.isPtr → ∀ vf, vf.hash = f.hash → s vf = if vf.t = f.t then o.raw + f.index else 0)
    (hbound : ∀ f ∈ fs, ¬f.isPtr → f.index + f.size ≤ o.rawSize)
    (hapart : Apart newData (DynState.packedSize fs n) o.raw o.rawSize) :
    ∃ mem virtuals s',
      (DynState.compactLoop newData fs n o).2.2 = { o with mem, virtuals } ∧
      (∀ a, a < newData + n ∨ newData + DynState.packedSize fs n ≤ a → mem a = o.mem a) ∧
      (∀ p ∈ packed fs n, ¬p.1.isPtr →
        bytes mem (newData + p.2) p.1.size = bytes o.mem (o.raw + p.1.index) p.1.size) ∧
      Shows virtuals s' ∧
      (∀ p ∈ packed fs n, ¬p.1.isPtr → ∀ vf, vf.hash = p.1.hash →
        s' vf = if vf.t = p.1.t then o.raw + p.2 else 0) ∧
      ∀ vf, (∀ f ∈ fs, ¬f.isPtr → vf.hash ≠ f.hash) → s' vf = s vf := by
  induction fs generalizing n o s with
  | nil => exact ⟨o.mem, o.virtuals, s, rfl, by simp, by simp [packed], hshows, by simp [packed], by simp⟩
  | cons f rest ih =>
    rw [List.map_cons, List.nodup_cons] at hnodup
    obtain ⟨hfresh, hnodup⟩ := hnodup
    have hs' := fun g hg => hs g (List.mem_cons_of_mem f hg)
    have hbound' := fun g hg => hbound g (List.mem_cons_of_mem f hg)
    rw [DynState.compactLoop, packed, DynState.packedSize]
    rw [DynState.packedSize] at hapart
    by_cases hptr : f.isPtr
    · simp only [hptr, if_true] at hapart ⊢
      obtain ⟨mem, virtuals, s', heq, hout, hin, hshows', hmoved, hkept⟩ :=
        ih n o hnodup hshows hs' hbound' hapart
      refine ⟨mem, virtuals, s', heq, hout, ?_, hshows', ?_, ?_⟩
      · exact List.forall_mem_cons.mpr ⟨fun hp => absurd hptr hp, hin⟩
      · exact List.forall_mem_cons.mpr ⟨fun hp => absurd hptr hp, hmoved⟩
      · exact fun vf hvf => hkept vf fun g hg => hvf g (List.mem_cons_of_mem f hg)
    · simp only [hptr, Bool.false_eq_true, if_false] at hapart ⊢
      have hle := le_packedSize rest (n + hlPadSize n f.t.kind + f.size)
      have hfbound := hbound f List.mem_cons_self hptr
      obtain ⟨virtuals₁, heq₁, hshows₁⟩ := compactField_spec newData o f
        (n + hlPadSize n f.t.kind) hptr hshows (hs f List.mem_cons_self hptr)
      rw [heq₁]
      obtain ⟨mem, virtuals, s', heq, hout, hin, hshows', hmoved, hkept⟩ :=
        ih (n + hlPadSize n f.t.kind + f.size)
          { o with
            mem := copyBytes o.mem (newData + (n + hlPadSize n f.t.kind : Nat)) (o.raw + f.index) f.size
            virtuals := virtuals₁ } hnodup hshows₁
          (by
            intro g hg hraw vf hvf
            have hne : vf.hash ≠ f.hash := fun heq =>
              hfresh (heq ▸ hvf ▸ List.mem_map_of_mem hg)
            rw [if_neg hne]
            exact hs' g hg hraw vf hvf)
          hbound' hapart
      refine ⟨mem, virtuals, s', heq, ?_, ?_, hshows', ?_, ?_⟩
      · intro a ha
        rw [hout a (by omega)]
        exact copyBytes_of_apart (by omega)
      · refine List.forall_mem_cons.mpr ⟨fun _ => ?_, fun p hp hraw => ?_⟩
        · have hkeep : ∀ k : Nat, k < f.size → newData + (n + hlPadSize n f.t.kind : Nat) + k <
              newData + (n + hlPadSize n f.t.kind + f.size : Nat) := fun k hk => by omega
          rw [bytes_congr fun k hk => hout _ (Or.inl (hkeep k hk))]
          exact bytes_copyBytes_self
        · have hpbound := hbound' p.1 (mem_of_packed hp) hraw
          have hpapart : Apart (o.raw + p.1.index) p.1.size
              (newData + (n + hlPadSize n f.t.kind : Nat)) f.size :=
            hapart.symm.part (by omega) (by omega) (by omega) (by omega)
          exact (hin p hp hraw).trans (bytes_copyBytes_of_apart hpapart)
      · refine List.forall_mem_cons.mpr ⟨fun _ vf hvf => ?_, hmoved⟩
        have hother : ∀ g ∈ rest, ¬g.isPtr → vf.hash ≠ g.hash := fun g hg _ heq =>
          hfresh (hvf ▸ heq ▸ List.mem_map_of_mem hg)
        rw [hkept vf hother, if_pos hvf]
      · intro vf hvf
        rw [hkept vf fun g hg => hvf g (List.mem_cons_of_mem f hg), if_neg (hvf f List.mem_cons_self hptr)]

end Loop

/-- An object whose raw data was copied to new data of `size` bytes, while its views still show the
old data. -/
structure Moved (o o' : DynState) (newData : Int) (size : Nat) : Prop where
  values : o'.values = o.values
  nvalues : o'.nvalues = o.nvalues
  raw : o'.raw = o.raw
  rawSize : o'.rawSize = size
  layout : Layout o'.lookup o'.extent
  positive : ∀ g ∈ o'.lookup, 0 < o'.addr g
  shows_ : Shows o'.virtuals o'.slotOf
  value : ∀ k, DynState.value { o' with raw := newData } k = o.value k

theorem contents_of_outside (h : Inv o) {f : DynField} (hf : f ∈ o.lookup) {mem : Memory} {a : Int}
    (hout : ∀ x, x < a ∨ a + n ≤ x → mem x = o.mem x) (hapart : Apart a n (o.base f.isPtr) (o.extent f.isPtr)) :
    bytes mem (o.addr f) f.width = o.contents f := by
  have hbound := h.layout.bounded f hf
  refine bytes_congr fun k hk => hout _ ?_
  rw [o.addr_eq]
  rcases hapart with hle | hle <;> omega

theorem moved_copy (h : Inv o) (hfresh : o.Fresh newData o.rawSize) :
    Moved o (o.moveRaw newData o.rawSize) newData o.rawSize := by
  have hdef : o.moveRaw newData o.rawSize =
      { o with mem := copyBytes o.mem newData o.raw o.rawSize } := if_pos rfl
  rw [hdef]
  refine ⟨rfl, rfl, rfl, rfl, h.layout, fun g hg => h.addr_pos hg, h.views, fun k => ?_⟩
  refine DynState.value_congr (g := id) Option.map_id_apply.symm fun f hf => ⟨rfl, ?_⟩
  obtain ⟨hmem, -⟩ := h.find_iff.mp hf
  by_cases hptr : f.isPtr
  · have haddr : DynState.addr
        { o with mem := copyBytes o.mem newData o.raw o.rawSize, raw := newData } f = o.addr f := by
      rw [DynState.addr, DynState.addr, if_pos hptr, if_pos hptr]
    have hkeep : bytes (copyBytes o.mem newData o.raw o.rawSize) (o.addr f) f.width = o.contents f := by
      refine contents_of_outside h hmem (a := newData) (n := o.rawSize) (fun x hx => copyBytes_of_apart hx) ?_
      rw [hptr]
      exact hfresh.2.1
    exact (congrArg (bytes _ · f.width) haddr).trans hkeep
  · have hbound := h.layout.bounded f hmem
    simp only [DynField.offset, DynField.width, DynState.extent, hptr, Bool.false_eq_true, if_false]
      at hbound
    have hold : o.addr f = o.raw + f.index := if_neg hptr
    have hnew : DynState.addr
        { o with mem := copyBytes o.mem newData o.raw o.rawSize, raw := newData } f =
          newData + f.index := if_neg hptr
    have hwidth : f.width = f.size := if_neg hptr
    refine (congrArg (bytes _ · f.width) hnew).trans ?_
    rw [DynState.contents, hold, hwidth]
    exact bytes_copyBytes (by omega) (by omega)

section Compact

variable {o : DynState} (h : Inv o)
include h

theorem sorted_packed : SortedTable.Sorted DynField.hash ((packed o.lookup 0).map placed) := by
  have hsorted := h.layout.sorted
  rw [← packed_fst o.lookup 0, SortedTable.Sorted, List.pairwise_map] at hsorted
  exact List.pairwise_map.mpr hsorted

theorem find_packed (k : Int) :
    (o.find k = none ∧ SortedTable.find DynField.hash ((packed o.lookup 0).map placed) k = none) ∨
      ∃ p ∈ packed o.lookup 0, o.find k = some p.1 ∧
        SortedTable.find DynField.hash ((packed o.lookup 0).map placed) k = some (placed p) := by
  have hsorted := sorted_packed h
  cases hfind : o.find k with
  | none =>
    refine Or.inl ⟨rfl, (SortedTable.find_eq_none_iff hsorted).mpr fun f' hf' => ?_⟩
    obtain ⟨p, hp, rfl⟩ := List.mem_map.mp hf'
    exact (SortedTable.find_eq_none_iff h.layout.sorted).mp hfind p.1 (mem_of_packed hp)
  | some f =>
    obtain ⟨hf, rfl⟩ := h.find_iff.mp hfind
    rw [← packed_fst o.lookup 0] at hf
    obtain ⟨p, hp, rfl⟩ := List.mem_map.mp hf
    exact Or.inr ⟨p, hp, rfl, (SortedTable.find_iff hsorted).mpr ⟨List.mem_map_of_mem hp, rfl⟩⟩

theorem layout_packed {extent : Bool → Nat} (hmask : DynState.packedSize o.lookup 0 ≤ indexMask)
    (htrue : extent true = o.extent true)
    (hfalse : extent false = DynState.packedSize o.lookup 0) :
    Layout ((packed o.lookup 0).map placed) extent := by
  obtain ⟨hindex, hrange, -⟩ := packed_spec o.lookup 0
  have hoffset : ∀ p ∈ packed o.lookup 0, p.1.isPtr → (placed p).offset = p.1.offset := by
    intro p hp hptr
    unfold DynField.offset placed DynField.isPtr
    rw [hindex p hp hptr]
  have hraw : ∀ p : DynField × Nat, ¬p.1.isPtr → (placed p).offset = p.2 ∧ (placed p).width = p.1.size :=
    fun p hptr => ⟨if_neg hptr, if_neg hptr⟩
  constructor
  case sorted => exact sorted_packed h
  case valued =>
    intro f' hf'
    obtain ⟨p, hp, rfl⟩ := List.mem_map.mp hf'
    exact h.layout.valued p.1 (mem_of_packed hp)
  case indexed =>
    intro f' hf'
    obtain ⟨p, hp, rfl⟩ := List.mem_map.mp hf'
    show p.2 ≤ indexMask
    by_cases hptr : p.1.isPtr
    · rw [hindex p hp hptr]
      exact h.layout.indexed p.1 (mem_of_packed hp)
    · have := hrange p hp hptr
      omega
  case bounded =>
    intro f' hf'
    obtain ⟨p, hp, rfl⟩ := List.mem_map.mp hf'
    show (placed p).offset + (placed p).width ≤ extent p.1.isPtr
    by_cases hptr : p.1.isPtr
    · have hbound := h.layout.bounded p.1 (mem_of_packed hp)
      rw [hptr] at hbound
      rw [hoffset p hp hptr, hptr, htrue]
      exact hbound
    · have hfp : p.1.isPtr = false := by simpa using hptr
      rw [(hraw p hptr).1, (hraw p hptr).2, hfp, hfalse]
      exact (hrange p hp hptr).2
  case apart =>
    intro f' hf' g' hg' hne hsame
    obtain ⟨p, hp, rfl⟩ := List.mem_map.mp hf'
    obtain ⟨q, hq, rfl⟩ := List.mem_map.mp hg'
    have hsame' : p.1.isPtr = q.1.isPtr := hsame
    by_cases hptr : p.1.isPtr
    · rw [hoffset p hp hptr, hoffset q hq (hsame' ▸ hptr)]
      exact h.layout.apart p.1 (mem_of_packed hp) q.1 (mem_of_packed hq) hne hsame
    · have hqr : ¬q.1.isPtr := hsame' ▸ hptr
      rw [(hraw p hptr).1, (hraw p hptr).2, (hraw q hqr).1, (hraw q hqr).2]
      exact packed_apart hp hq hne hptr hqr

end Compact

theorem moved_compact (h : Inv o) (hfresh : o.Fresh newData (DynState.packedSize o.lookup 0))
    (hmask : DynState.packedSize o.lookup 0 ≤ indexMask) (hne : DynState.packedSize o.lookup 0 ≠ o.rawSize) :
    Moved o (o.moveRaw newData (DynState.packedSize o.lookup 0)) newData (DynState.packedSize o.lookup 0) := by
  have hslot : ∀ f ∈ o.lookup, ∀ vf : VField, vf.hash = f.hash →
      o.slotOf vf = if vf.t = f.t then o.addr f else 0 := by
    intro f hf vf hvf
    unfold DynState.slotOf
    rw [h.find_iff.mpr ⟨hf, hvf.symm⟩]
  have hbound : ∀ f ∈ o.lookup, ¬f.isPtr → f.index + f.size ≤ o.rawSize := by
    intro f hf hraw
    have hb := h.layout.bounded f hf
    simpa only [DynField.offset, DynField.width, DynState.extent, hraw, Bool.false_eq_true, if_false] using hb
  obtain ⟨mem, virtuals, s, heq, hout, hin, hshows, hmoved, hkept⟩ :=
    compactLoop_spec newData o.lookup 0 o h.layout.sorted.nodup h.views (fun f hf hraw vf hvf => by
        rw [hslot f hf vf hvf, DynState.addr, if_neg hraw])
      hbound hfresh.2.2
  obtain ⟨hlookup, hsize⟩ := compactLoop_lookup newData o.lookup 0 o
  have hdef : o.moveRaw newData (DynState.packedSize o.lookup 0) =
      { o with
        mem, virtuals, lookup := (packed o.lookup 0).map placed
        rawSize := DynState.packedSize o.lookup 0 } := by
    rw [DynState.moveRaw, if_neg hne, ← hlookup]
    simp only [heq, hsize]
  rw [hdef]
  refine ⟨rfl, rfl, rfl, rfl, layout_packed h hmask rfl rfl, fun g hg => ?_,
    hshows.congr fun vf => ?_, fun k => ?_⟩
  · obtain ⟨p, hp, rfl⟩ := List.mem_map.mp hg
    have hbase := h.base_pos (mem_of_packed hp)
    rw [DynState.addr_eq]
    exact Int.add_pos_of_pos_of_nonneg hbase (Int.natCast_nonneg _)
  · rcases find_packed h vf.hash with ⟨hold, hnew⟩ | ⟨p, hp, hold, hnew⟩
    · have hzero : o.slotOf vf = 0 := by
        unfold DynState.slotOf
        rw [hold]
      rw [hkept vf fun f hf _ heq => ?_, hzero]
      · unfold DynState.slotOf DynState.find
        rw [hnew]
      · exact (SortedTable.find_eq_none_iff h.layout.sorted).mp hold f hf heq.symm
    · obtain ⟨hmem, hhash⟩ := h.find_iff.mp hold
      unfold DynState.slotOf DynState.find
      rw [hnew]
      by_cases hptr : p.1.isPtr
      · rw [hkept vf fun f hf hraw heq => ?_, hslot p.1 hmem vf hhash.symm]
        · have haddr : o.addr p.1 = o.addr (placed p) := by
            unfold DynState.addr placed DynField.isPtr
            rw [(packed_spec o.lookup 0).1 p hp hptr]
          rw [haddr]
          rfl
        · have hsame := h.layout.sorted.eq_of_key hf hmem (heq.symm.trans hhash.symm)
          rw [hsame] at hraw
          exact hraw hptr
      · rw [hmoved p hp hptr vf hhash.symm]
        have haddr : o.addr (placed p) = o.raw + p.2 := if_neg hptr
        rw [← haddr]
        rfl
  · rcases find_packed h k with ⟨hold, hnew⟩ | ⟨p, hp, hold, hnew⟩
    · unfold DynState.value DynState.find
      rw [hnew]
      rw [DynState.find] at hold
      rw [hold]
      rfl
    · obtain ⟨hmem, -⟩ := h.find_iff.mp hold
      have hnew' : DynState.find
          { o with
            mem, virtuals, lookup := (packed o.lookup 0).map placed, raw := newData
            rawSize := DynState.packedSize o.lookup 0 } k = some (placed p) := hnew
      rw [DynState.value_of_find hold]
      refine (DynState.value_of_find hnew').trans ?_
      refine congrArg (fun c => some (p.1.t, c)) ?_
      by_cases hptr : p.1.isPtr
      · have haddr : o.values + 8 * (p.2 : Int) = o.addr p.1 := by
          rw [DynState.addr, if_pos hptr, (packed_spec o.lookup 0).1 p hp hptr]
        have hkeep : bytes mem (o.addr p.1) p.1.width = o.contents p.1 := by
          refine contents_of_outside h hmem (a := newData)
            (n := DynState.packedSize o.lookup 0) (fun x hx => hout x (by omega)) ?_
          rw [hptr]
          exact hfresh.2.1
        rw [← hkeep, ← haddr]
        exact congrArg (bytes mem · p.1.width) (if_pos hptr)
      · have hwidth : p.1.width = p.1.size := if_neg hptr
        have hold' : o.contents p.1 = bytes o.mem (o.raw + p.1.index) p.1.size := by
          rw [DynState.contents, hwidth, DynState.addr, if_neg hptr]
        rw [hold', ← hin p hp hptr, ← hwidth]
        exact congrArg (bytes mem · p.1.width) (if_neg hptr)

theorem moved_moveRaw (h : Inv o) (hfresh : o.Fresh newData o.keptSize) (hmask : o.keptSize ≤ indexMask) :
    Moved o (o.moveRaw newData o.keptSize) newData o.keptSize := by
  by_cases heq : o.keptSize = o.rawSize
  · rw [heq] at hfresh ⊢
    exact moved_copy h hfresh
  · have hkept : o.keptSize = DynState.packedSize o.lookup 0 := by
      unfold DynState.keptSize at heq ⊢
      simp only at heq ⊢
      split
      · rename_i hlt
        rw [if_pos hlt] at heq
        exact absurd rfl heq
      · rfl
    rw [hkept] at hfresh hmask heq ⊢
    exact moved_compact h hfresh hmask heq

end DynObj

end HashLink
