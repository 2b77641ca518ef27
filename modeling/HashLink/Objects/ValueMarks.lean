import HashLink.Gc.AllocatorSafety
import HashLink.Objects.MarkBits

/-!
The mark bits of enumerations and virtual types, and the words that the marker looks at. The bits cover the values as
`hl_init_enum` and `hl_init_virtual` lay them out, while the marker goes over the whole block that the allocator gave.
-/

namespace HashLink.ValueMarks

open StructLayout

/-- The bytes of the block that `gc_allocator_alloc` gives a dynamic value, where the size leaves room for the
rounding. -/
def blockSize (size : Nat) : Option Nat :=
  let sz := Gc.Allocator.query size Gc.gcAlign
  if 2 ^ 31 < size + Gc.gcPageSize then none
  else if Gc.gcLargeBlock ≤ sz then some (Gc.Allocator.query sz Gc.gcPageSize)
  else if sz ≤ Gc.gcSizes (Gc.gcFixedParts - 1) then some (Gc.gcSizes (sz / Gc.gcAlign - 1))
  else
    ([5, 6, 7, 8].find? fun part => Gc.Allocator.query sz (Gc.gcSizes part) < Gc.gcSizes part * 255).map fun part =>
      Gc.Allocator.query sz (Gc.gcSizes part)

/-- `hl_enum_construct`. -/
structure EnumConstruct where
  params : List HlTypeKind
  size : Nat
  offsets : List Nat
  hasPtr : Bool

/-- The type and the index in front of the parameters. -/
def enumHeader : Nat := hlWSize + 4

def initParam (c : EnumConstruct) (kind : HlTypeKind) : EnumConstruct :=
  let offset := c.size + hlPadStruct c.size kind
  { c with size := offset + kind.size, offsets := c.offsets ++ [offset], hasPtr := c.hasPtr || kind.isPtr }

def initConstruct (params : List HlTypeKind) : EnumConstruct := params.foldl initParam ⟨params, enumHeader, [], false⟩

/-- `mark_size` after the first loop. -/
def enumMarkSize (constructs : List EnumConstruct) : Nat :=
  constructs.zipIdx.foldl (fun markSize (c, i) =>
    if c.hasPtr then max markSize (i * 4 + hlMarkSize (c.size - 2 * hlWSize)) else markSize) 0

/-- The bit of a parameter, in the words of the construct `i`: they start at `mark[i]`. -/
def markParam (i : Nat) (mark : MarkBits) (param : HlTypeKind × Nat) : Option MarkBits :=
  if param.1.isPtr then mark.set (32 * i + (param.2 / hlWSize - 2)) else some mark

def markConstruct (mark : MarkBits) (construct : EnumConstruct × Nat) : Option MarkBits :=
  if construct.1.hasPtr then (construct.1.params.zip construct.1.offsets).foldlM (markParam construct.2) mark
  else some mark

/-- `hl_init_enum`. The sizes are of type `int`. -/
def hlInitEnum (params : List (List HlTypeKind)) : Option (List EnumConstruct × MarkBits) :=
  let constructs := params.map initConstruct
  if constructs.any (fun c => 2 ^ 31 ≤ c.size + (hlWSize - 1)) || decide (2 ^ 31 ≤ enumMarkSize constructs) then none
  else do
    let mark ← constructs.zipIdx.foldlM markConstruct (List.replicate (enumMarkSize constructs / 4) 0)
    return (constructs, mark)

def markField (m : HlModule) (mark : MarkBits) (field : HlObjField × Nat) : Option MarkBits :=
  if (m.typeAt field.1.t).kind.isPtr then mark.set (field.2 / hlWSize) else some mark

/-- The mark bits of `hl_init_virtual`, with those of `value` and `next`. -/
def virtualMarks (m : HlModule) (fields : List HlObjField) : Option MarkBits :=
  let layout := hlInitVirtual m fields
  if 2 ^ 31 ≤ layout.size + (hlWSize - 1) then none
  else if hlMarkSize layout.size = 0 then none
  else (fields.zip layout.indexes).foldlM (markField m) (List.set (List.replicate (hlMarkSize layout.size / 4) 0) 0 6)

/-- The words from `pos` on that the marker looks at, of `n`, by the bits from `mark[index]` on. There is no result when
it reads past them. -/
def flushWords (mark : MarkBits) (index : Nat) : Nat → Nat → Option (List Nat)
  | 0, _ => some []
  | n + 1, pos =>
    if mark.length ≤ index + pos / 32 then none
    else (flushWords mark index n (pos + 1)).map fun words =>
      if mark.has (32 * index + pos) then pos :: words else words

def flushEnum (mark : MarkBits) (index block : Nat) : Option (List Nat) :=
  flushWords mark index (block / hlWSize - 2) 0

def flushVirtual (mark : MarkBits) (block : Nat) : Option (List Nat) :=
  flushWords mark 0 (block / hlWSize - 1) 1

def memberOfKind (kind : HlTypeKind) : Member := ⟨kind.size, if kind = .hPacked then hlWSize else kind.size⟩

def valueSize (header : Nat) (kinds : List HlTypeKind) : Nat := finish header (kinds.map memberOfKind)

def valueOffsets (header : Nat) (kinds : List HlTypeKind) : List Nat := offsets header (kinds.map memberOfKind)

/-- Offsets behind a header, aligned and one behind the other. -/
structure Laid (header size : Nat) (kinds : List HlTypeKind) (offsets : List Nat) : Prop where
  count : offsets.length = kinds.length
  aligned : ∀ (i : Nat) (kind : HlTypeKind) (o : Nat), kinds[i]? = some kind → offsets[i]? = some o →
    header ≤ o ∧ (0 < (memberOfKind kind).align → (memberOfKind kind).align ∣ o) ∧ o + kind.size ≤ size
  apart : ∀ (i j : Nat) (kind : HlTypeKind) (o o' : Nat), i < j → kinds[i]? = some kind → offsets[i]? = some o →
    offsets[j]? = some o' → o + kind.size ≤ o'

section Layouts

variable {header i : Nat} {kind : HlTypeKind} {kinds : List HlTypeKind} {o : Nat}

theorem pad_eq (n : Nat) (kind : HlTypeKind) : n + hlPadStruct n kind = roundUp n (memberOfKind kind).align := by
  unfold hlPadStruct memberOfKind hlPadSize
  by_cases hpacked : kind = .hPacked
  · rw [if_pos hpacked, if_pos hpacked]
    rfl
  · rw [if_neg hpacked, if_neg hpacked]
    split
    · rename_i hzero
      have hsize : kind.size = 0 := hzero.elim (fun hvoid => by rw [hvoid]; rfl) id
      rw [hsize, roundUp_zero, Nat.add_zero]
    · rfl

theorem laid_value (header : Nat) (kinds : List HlTypeKind) :
    Laid header (valueSize header kinds) kinds (valueOffsets header kinds) := by
  have hmember {i : Nat} {kind : HlTypeKind} (h : kinds[i]? = some kind) :
      (kinds.map memberOfKind)[i]? = some (memberOfKind kind) := by
    rw [List.getElem?_map, h]
    rfl
  refine ⟨length_offsets.trans (List.length_map _), fun i kind o hkind ho => ?_,
    fun i j kind o o' hij hkind ho ho' => ?_⟩
  · exact offsets_spec (hmember hkind) ho
  · have hlt := (List.getElem?_eq_some_iff.mp ho').1
    rw [valueOffsets, length_offsets] at hlt
    exact offsets_disjoint hij (hmember hkind) ho (List.getElem?_eq_getElem hlt) ho'

theorem initParams_eq (c : EnumConstruct) (kinds : List HlTypeKind) : kinds.foldl initParam c =
    { c with
      size := valueSize c.size kinds
      offsets := c.offsets ++ valueOffsets c.size kinds
      hasPtr := c.hasPtr || kinds.any HlTypeKind.isPtr } := by
  induction kinds generalizing c with
  | nil => simp [valueSize, valueOffsets, finish, offsets]
  | cons kind kinds ih =>
    rw [List.foldl_cons, ih]
    simp only [initParam, valueSize, valueOffsets, finish, offsets, List.map_cons, List.foldl_cons, pad_eq,
      List.any_cons, Bool.or_assoc, List.append_assoc, List.singleton_append]
    rfl

theorem initConstruct_eq (kinds : List HlTypeKind) : initConstruct kinds =
    ⟨kinds, valueSize enumHeader kinds, valueOffsets enumHeader kinds, kinds.any HlTypeKind.isPtr⟩ := by
  rw [initConstruct, initParams_eq]
  rfl

theorem virtualFields_eq (m : HlModule) (fields : List HlObjField) (layout : VirtualLayout) :
    (fields.foldl (virtualField m) layout).indexes =
        layout.indexes ++ valueOffsets layout.size (fields.map fun f => (m.typeAt f.t).kind) ∧
      (fields.foldl (virtualField m) layout).size =
        valueSize layout.size (fields.map fun f => (m.typeAt f.t).kind) := by
  induction fields generalizing layout with
  | nil => exact ⟨(List.append_nil _).symm, rfl⟩
  | cons field fields ih =>
    obtain ⟨hindexes, hsize⟩ := ih (virtualField m layout field)
    rw [List.foldl_cons, hindexes, hsize, virtualField]
    simp only [valueSize, valueOffsets, finish, offsets, List.map_cons, List.foldl_cons, pad_eq, List.append_assoc,
      List.singleton_append]
    exact ⟨rfl, rfl⟩

end Layouts

section Bits

variable {α : Type} {mark mark' : MarkBits} {index n pos : Nat}

theorem foldlM_iff {turn : MarkBits → α → Option MarkBits} {Fits : α → Nat → Prop} {Bit : α → MarkBits → Prop}
    (hkept : ∀ a mark mark', MarkBits.Covers mark mark' → Bit a mark → Bit a mark')
    (hturn : ∀ a mark, Fits a mark.length →
      ∃ mark', turn mark a = some mark' ∧ MarkBits.Covers mark mark' ∧ Bit a mark')
    (hfits : ∀ a mark mark', turn mark a = some mark' → mark'.length = mark.length ∧ Fits a mark.length) (l : List α)
    (mark : MarkBits) :
    ((∀ a ∈ l, Fits a mark.length) → ∃ mark', l.foldlM turn mark = some mark' ∧ MarkBits.Covers mark mark' ∧
        ∀ a ∈ l, Bit a mark') ∧
      ∀ mark', l.foldlM turn mark = some mark' → mark'.length = mark.length ∧ ∀ a ∈ l, Fits a mark.length := by
  refine ⟨fun hall => ?_, ?_⟩
  · exact MarkBits.foldlM_spec hkept (fun a ha mark₁ hlength => hturn a mark₁ (hlength ▸ hall a ha)) rfl
  induction l generalizing mark with
  | nil =>
    rintro mark' ⟨⟩
    exact ⟨rfl, fun _ h => absurd h List.not_mem_nil⟩
  | cons a l ih =>
    intro mark' h
    rw [List.foldlM_cons] at h
    obtain ⟨next, hnext, hrest⟩ := Option.bind_eq_some_iff.mp h
    obtain ⟨hlength, ha⟩ := hfits a mark next hnext
    obtain ⟨hlength', hl⟩ := ih next mark' hrest
    rw [hlength] at hlength' hl
    exact ⟨hlength', List.forall_mem_cons.mpr ⟨ha, hl⟩⟩

theorem set_fits {mark mark' : MarkBits} {pos : Nat} (h : mark.set pos = some mark') :
    mark'.length = mark.length ∧ pos / 32 < mark.length := by
  unfold MarkBits.set at h
  split at h
  · cases h
    exact ⟨List.length_modify _ _ _, ‹_›⟩
  · cases h

theorem flushWords_spec (mark : MarkBits) (index n pos : Nat) :
    ((∀ q, pos ≤ q → q < pos + n → index + q / 32 < mark.length) → ∃ words, flushWords mark index n pos = some words ∧
        ∀ q, pos ≤ q → q < pos + n → mark.has (32 * index + q) = true → q ∈ words) ∧
      ∀ words, flushWords mark index n pos = some words →
        ∀ q, pos ≤ q → q < pos + n → index + q / 32 < mark.length := by
  induction n generalizing pos with
  | zero => exact ⟨fun _ => ⟨[], rfl, fun q hle hlt => absurd hlt (Nat.not_lt.mpr hle)⟩,
      fun _ _ q hle hlt => absurd hlt (Nat.not_lt.mpr hle)⟩
  | succ n ih =>
    obtain ⟨hreads, hinside⟩ := ih (pos + 1)
    rw [flushWords]
    constructor
    · intro hall
      obtain ⟨words, hwords, hmarked⟩ := hreads fun q hle hlt => hall q (by omega) (by omega)
      have hpos := hall pos (Nat.le_refl pos) (by omega)
      rw [if_neg (Nat.not_le.mpr hpos), hwords]
      refine ⟨_, rfl, fun q hle hlt hq => ?_⟩
      dsimp only
      rcases Nat.eq_or_lt_of_le hle with rfl | hgt
      · rw [if_pos hq]
        exact List.mem_cons_self
      · have hmem := hmarked q hgt (by omega) hq
        split
        · exact List.mem_cons_of_mem pos hmem
        · exact hmem
    · intro words h q hle hlt
      split at h
      · cases h
      · rename_i hpos
        obtain ⟨rest, hrest, -⟩ := Option.map_eq_some_iff.mp h
        rcases Nat.eq_or_lt_of_le hle with rfl | hgt
        · exact Nat.lt_of_not_le hpos
        · exact hinside rest hrest q hgt (by omega)

end Bits

theorem blockSize_spec {size block : Nat} (h : blockSize size = some block) : size ≤ block ∧ 8 ∣ block := by
  obtain ⟨hle, -, hdvd⟩ := Gc.Allocator.query_spec size (show 0 < Gc.gcAlign by decide)
  unfold blockSize at h
  dsimp only at h
  generalize Gc.Allocator.query size Gc.gcAlign = sz at hle hdvd h
  split at h
  · cases h
  split at h
  · cases h
    obtain ⟨hle', -, hdvd'⟩ := Gc.Allocator.query_spec sz (show 0 < Gc.gcPageSize by decide)
    exact ⟨hle.trans hle', (show 8 ∣ Gc.gcPageSize by decide).trans hdvd'⟩
  rename_i hlarge
  split at h
  · rename_i hsmall
    cases h
    obtain ⟨k, rfl⟩ := hdvd
    have hk : k ≤ 5 := by
      have hsmall' : 8 * k ≤ 40 := hsmall
      omega
    have hblock : ∀ k ≤ 5, 8 * k ≤ Gc.gcSizes (8 * k / 8 - 1) ∧ 8 ∣ Gc.gcSizes (8 * k / 8 - 1) := by decide
    exact ⟨hle.trans (hblock k hk).1, (hblock k hk).2⟩
  · obtain ⟨part, hfind, rfl⟩ := Option.map_eq_some_iff.mp h
    obtain ⟨hpart, hdvd', hle', -⟩ := Gc.Allocator.find_part (Nat.lt_of_not_le hlarge) hfind
    refine ⟨hle.trans hle', Nat.dvd_trans ?_ hdvd'⟩
    rcases hpart with rfl | rfl | rfl <;> decide

/-- The words of bits that a number of bytes needs. -/
def units (bytes : Nat) : Nat := (bytes + 255) / 256

theorem hlMarkSize_eq (bytes : Nat) : hlMarkSize bytes = 4 * units bytes := by
  unfold hlMarkSize units hlWSize
  omega

/-- The words of bits that the enumeration has are at least `n`. -/
def Room (params : List (List HlTypeKind)) (n : Nat) : Prop :=
  ∃ j kinds, params[j]? = some kinds ∧ kinds.any HlTypeKind.isPtr = true ∧
    n ≤ j + units (valueSize enumHeader kinds - 2 * hlWSize)

def EnumRight (params : List (List HlTypeKind)) : Prop :=
  ∃ constructs mark, hlInitEnum params = some (constructs, mark) ∧
    ∀ (i : Nat) (c : EnumConstruct), constructs[i]? = some c →
      Laid enumHeader c.size c.params c.offsets ∧ c.hasPtr = c.params.any HlTypeKind.isPtr ∧
      (∀ (k : Nat) (kind : HlTypeKind) (o : Nat), c.params[k]? = some kind → c.offsets[k]? = some o →
        kind.isPtr = true → mark.has (32 * i + (o / hlWSize - 2)) = true) ∧
      (c.hasPtr = true → ∀ block, blockSize c.size = some block → ∃ words, flushEnum mark i block = some words ∧
        ∀ pos < block / hlWSize - 2, mark.has (32 * i + pos) = true → pos ∈ words)

/-- When they are: the sizes are of type `int`, and the bits have room for the whole block of every construct, and for
the bit of a packed parameter at its end. -/
structure EnumFits (params : List (List HlTypeKind)) : Prop where
  int : ∀ kinds ∈ params, valueSize enumHeader kinds + (hlWSize - 1) < 2 ^ 31
  bits : ¬Room params (2 ^ 29)
  block : ∀ (i : Nat) (kinds : List HlTypeKind), params[i]? = some kinds → kinds.any HlTypeKind.isPtr = true →
    ∀ block, blockSize (valueSize enumHeader kinds) = some block → Room params (i + units (block - 2 * hlWSize))
  pointer : ∀ (i : Nat) (kinds : List HlTypeKind), params[i]? = some kinds →
    ∀ (k : Nat) (kind : HlTypeKind) (o : Nat), kinds[k]? = some kind →
      (valueOffsets enumHeader kinds)[k]? = some o → kind.isPtr = true → Room params (i + (o - 2 * hlWSize) / 256 + 1)

section Enum

variable {params : List (List HlTypeKind)}

theorem foldl_max_spec {α : Type} (p : α → Bool) (f : α → Nat) (l : List α) (n : Nat) :
    n ≤ l.foldl (fun n a => if p a then max n (f a) else n) n ∧
      (∀ a ∈ l, p a = true → f a ≤ l.foldl (fun n a => if p a then max n (f a) else n) n) ∧
      (l.foldl (fun n a => if p a then max n (f a) else n) n = n ∨
        ∃ a ∈ l, p a = true ∧ l.foldl (fun n a => if p a then max n (f a) else n) n = f a) := by
  induction l generalizing n with
  | nil => exact ⟨Nat.le_refl n, fun _ h => absurd h List.not_mem_nil, .inl rfl⟩
  | cons a l ih =>
    rw [List.foldl_cons]
    obtain ⟨hle, hall, hattained⟩ := ih (if p a then max n (f a) else n)
    generalize l.foldl (fun n a => if p a then max n (f a) else n) (if p a then max n (f a) else n) = r at *
    refine ⟨Nat.le_trans (by split <;> omega) hle, List.forall_mem_cons.mpr ⟨fun ha => ?_, hall⟩, ?_⟩
    · rw [if_pos ha] at hle
      omega
    · rcases hattained with rfl | ⟨b, hb, hpb, hr⟩
      · by_cases ha : p a = true
        · rw [if_pos ha]
          rcases Nat.le_total n (f a) with h | h
          · exact .inr ⟨a, List.mem_cons_self, ha, Nat.max_eq_right h⟩
          · exact .inl (Nat.max_eq_left h)
        · rw [if_neg ha]
          exact .inl rfl
      · exact .inr ⟨b, List.mem_cons_of_mem a hb, hpb, hr⟩

theorem mem_constructs {c : EnumConstruct} {i : Nat} : (c, i) ∈ (params.map initConstruct).zipIdx ↔
    ∃ kinds, params[i]? = some kinds ∧ initConstruct kinds = c := by
  rw [List.mem_zipIdx_iff_getElem?, List.getElem?_map, Option.map_eq_some_iff]

theorem room_iff {n : Nat} (hpos : 0 < n) : Room params n ↔ n ≤ enumMarkSize (params.map initConstruct) / 4 := by
  have hspec := foldl_max_spec (fun c : EnumConstruct × Nat => c.1.hasPtr)
    (fun c => c.2 * 4 + hlMarkSize (c.1.size - 2 * hlWSize)) (params.map initConstruct).zipIdx 0
  have hmark : enumMarkSize (params.map initConstruct) = (params.map initConstruct).zipIdx.foldl (fun n c =>
      if c.1.hasPtr then max n (c.2 * 4 + hlMarkSize (c.1.size - 2 * hlWSize)) else n) 0 := rfl
  rw [← hmark] at hspec
  obtain ⟨-, hall, hattained⟩ := hspec
  constructor
  · rintro ⟨j, kinds, hj, hany, hle⟩
    have hmem := hall _ ((mem_constructs).mpr ⟨kinds, hj, rfl⟩) (by rw [initConstruct_eq]; exact hany)
    rw [initConstruct_eq, hlMarkSize_eq] at hmem
    dsimp only at hmem
    omega
  · intro hle
    rcases hattained with hzero | ⟨⟨c, i⟩, hmem, hc, hsize⟩
    · omega
    · obtain ⟨kinds, hi, rfl⟩ := (mem_constructs).mp hmem
      rw [initConstruct_eq] at hc hsize
      rw [hlMarkSize_eq] at hsize
      dsimp only at hc hsize
      exact ⟨i, kinds, hi, hc, by omega⟩

/-- The bits of the parameters of a construct are inside an array of `n` words. -/
def ConstructFits (c : EnumConstruct × Nat) (n : Nat) : Prop :=
  c.1.hasPtr = true → ∀ param ∈ c.1.params.zip c.1.offsets, param.1.isPtr = true →
    c.2 + (param.2 / hlWSize - 2) / 32 < n

def ConstructMarked (c : EnumConstruct × Nat) (mark : MarkBits) : Prop :=
  c.1.hasPtr = true → ∀ param ∈ c.1.params.zip c.1.offsets, param.1.isPtr = true →
    mark.has (32 * c.2 + (param.2 / hlWSize - 2)) = true

theorem markConstruct_turn :
    (∀ (c : EnumConstruct × Nat) (mark : MarkBits), ConstructFits c mark.length →
      ∃ mark', markConstruct mark c = some mark' ∧ MarkBits.Covers mark mark' ∧ ConstructMarked c mark') ∧
    ∀ (c : EnumConstruct × Nat) (mark mark' : MarkBits), markConstruct mark c = some mark' →
      mark'.length = mark.length ∧ ConstructFits c mark.length := by
  have hindex (i pos : Nat) : (32 * i + pos) / 32 = i + pos / 32 := by omega
  have hloop (i : Nat) := @foldlM_iff (HlTypeKind × Nat) (markParam i)
    (fun param n => param.1.isPtr = true → i + (param.2 / hlWSize - 2) / 32 < n)
    (fun param mark => param.1.isPtr = true → mark.has (32 * i + (param.2 / hlWSize - 2)) = true)
    (fun _ _ _ hcovers h hptr => hcovers.has _ (h hptr))
    (fun param mark h => by
      unfold markParam
      by_cases hptr : param.1.isPtr = true
      · obtain ⟨mark', hset, hcovers, hhas⟩ := MarkBits.set_spec mark (32 * i + (param.2 / hlWSize - 2))
          (hindex _ _ ▸ h hptr)
        exact ⟨mark', (if_pos hptr).trans hset, hcovers, fun _ => hhas⟩
      · exact ⟨mark, if_neg hptr, .refl mark, fun h => absurd h hptr⟩)
    (fun param mark mark' h => by
      unfold markParam at h
      split at h
      · obtain ⟨hlength, hlt⟩ := set_fits h
        exact ⟨hlength, fun _ => hindex i _ ▸ hlt⟩
      · rename_i hptr
        cases h
        exact ⟨rfl, fun h => absurd h hptr⟩)
  refine ⟨fun c mark h => ?_, fun c mark mark' h => ?_⟩
  · unfold markConstruct
    by_cases hc : c.1.hasPtr = true
    · obtain ⟨mark', hfold, hcovers, hall⟩ := (hloop c.2 (c.1.params.zip c.1.offsets) mark).1 (h hc)
      exact ⟨mark', (if_pos hc).trans hfold, hcovers, fun _ => hall⟩
    · exact ⟨mark, if_neg hc, .refl mark, fun h => absurd h hc⟩
  · unfold markConstruct at h
    split at h
    · obtain ⟨hlength, hall⟩ := (hloop c.2 (c.1.params.zip c.1.offsets) mark).2 mark' h
      exact ⟨hlength, fun _ => hall⟩
    · rename_i hc
      cases h
      exact ⟨rfl, fun h => absurd h hc⟩

theorem markConstructs_spec (constructs : List EnumConstruct) (mark : MarkBits) :
    ((∀ c ∈ constructs.zipIdx, ConstructFits c mark.length) →
      ∃ mark', constructs.zipIdx.foldlM markConstruct mark = some mark' ∧ MarkBits.Covers mark mark' ∧
        ∀ c ∈ constructs.zipIdx, ConstructMarked c mark') ∧
    ∀ mark', constructs.zipIdx.foldlM markConstruct mark = some mark' → mark'.length = mark.length ∧
      ∀ c ∈ constructs.zipIdx, ConstructFits c mark.length :=
  foldlM_iff (fun _ _ _ hcovers h hc param hparam hptr => hcovers.has _ (h hc param hparam hptr)) (markConstruct_turn).1
    (markConstruct_turn).2 constructs.zipIdx mark

theorem mem_zip_iff {α β : Type} {l : List α} {l' : List β} {x : α} {y : β} :
    (x, y) ∈ l.zip l' ↔ ∃ k : Nat, l[k]? = some x ∧ l'[k]? = some y := by
  rw [List.mem_iff_getElem?]
  exact exists_congr fun k => by rw [List.getElem?_zip_eq_some]

theorem int_iff :
    ¬((params.map initConstruct).any (fun c => 2 ^ 31 ≤ c.size + (hlWSize - 1)) ||
        decide (2 ^ 31 ≤ enumMarkSize (params.map initConstruct))) = true ↔
      (∀ kinds ∈ params, valueSize enumHeader kinds + (hlWSize - 1) < 2 ^ 31) ∧ ¬Room params (2 ^ 29) := by
  have hbits : ¬Room params (2 ^ 29) ↔ ¬2 ^ 31 ≤ enumMarkSize (params.map initConstruct) := by
    rw [room_iff (by decide)]
    omega
  rw [hbits, Bool.or_eq_true, decide_eq_true_iff, not_or, List.any_map, List.any_eq_true]
  refine and_congr_left fun _ => ⟨fun h kinds hkinds => ?_, fun h => ?_⟩
  · by_contra hlarge
    refine h ⟨kinds, hkinds, ?_⟩
    rw [Function.comp_apply, initConstruct_eq, decide_eq_true_iff]
    exact Nat.le_of_not_lt hlarge
  · rintro ⟨kinds, hkinds, hlarge⟩
    rw [Function.comp_apply, initConstruct_eq, decide_eq_true_iff] at hlarge
    exact Nat.not_lt.mpr hlarge (h kinds hkinds)

theorem reads_iff {i block length : Nat} (hdvd : 8 ∣ block) (hpos : 0 < block / hlWSize - 2) :
    (∀ q, 0 ≤ q → q < 0 + (block / hlWSize - 2) → i + q / 32 < length) ↔
      i + units (block - 2 * hlWSize) ≤ length := by
  obtain ⟨k, rfl⟩ := hdvd
  simp only [units, hlWSize] at *
  constructor
  · intro h
    have hlast := h (8 * k / 8 - 3) (Nat.zero_le _) (by omega)
    omega
  · intro h q _ hq
    omega

theorem EnumRight.fits (h : EnumRight params) : EnumFits params := by
  obtain ⟨constructs, mark, hinit, hall⟩ := h
  unfold hlInitEnum at hinit
  dsimp only at hinit
  split at hinit
  · cases hinit
  rename_i hint
  obtain ⟨mark', hmark, heq⟩ := Option.bind_eq_some_iff.mp hinit
  cases heq
  obtain ⟨hlength, hfits⟩ := (markConstructs_spec _ _).2 mark hmark
  rw [List.length_replicate] at hlength hfits
  obtain ⟨hsizes, hbits⟩ := (int_iff).mp hint
  refine ⟨hsizes, hbits, fun i kinds hi hany block hblock => ?_, fun i kinds hi k kind o hkind ho hptr => ?_⟩
  · have hc : (params.map initConstruct)[i]? = some (initConstruct kinds) := by
      rw [List.getElem?_map, hi]
      rfl
    obtain ⟨-, -, -, hflush⟩ := hall i _ hc
    rw [initConstruct_eq] at hflush
    obtain ⟨words, hwords, -⟩ := hflush hany block hblock
    rcases Nat.eq_zero_or_pos (block / hlWSize - 2) with hzero | hpos
    · have hunits : units (block - 2 * hlWSize) = 0 := by
        obtain ⟨k, rfl⟩ := (blockSize_spec hblock).2
        simp only [units, hlWSize] at *
        omega
      exact ⟨i, kinds, hi, hany, by omega⟩
    · have hreads := (reads_iff (blockSize_spec hblock).2 hpos).mp ((flushWords_spec mark i _ 0).2 words hwords)
      rw [hlength] at hreads
      refine (room_iff ?_).mpr hreads
      obtain ⟨k, rfl⟩ := (blockSize_spec hblock).2
      simp only [units, hlWSize] at *
      omega
  · have hfit := hfits _ ((mem_constructs).mpr ⟨kinds, hi, rfl⟩)
    unfold ConstructFits at hfit
    rw [initConstruct_eq] at hfit
    have hany : kinds.any HlTypeKind.isPtr = true := List.any_eq_true.mpr ⟨kind, List.mem_of_getElem? hkind, hptr⟩
    have hlt := hfit hany (kind, o) ((mem_zip_iff).mpr ⟨k, hkind, ho⟩) hptr
    refine (room_iff (Nat.succ_pos _)).mpr ?_
    simp only [hlWSize] at *
    omega

theorem EnumFits.right (h : EnumFits params) : EnumRight params := by
  have hint := (int_iff).mpr ⟨h.int, h.bits⟩
  have hfits : ∀ c ∈ (params.map initConstruct).zipIdx,
      ConstructFits c (List.replicate (enumMarkSize (params.map initConstruct) / 4) (0 : BitVec 32)).length := by
    rintro ⟨c, i⟩ hmem hc ⟨kind, o⟩ hparam hptr
    obtain ⟨kinds, hi, rfl⟩ := (mem_constructs).mp hmem
    rw [initConstruct_eq] at hparam
    obtain ⟨k, hkind, ho⟩ := (mem_zip_iff).mp hparam
    have hroom := (room_iff (Nat.succ_pos _)).mp (h.pointer i kinds hi k kind o hkind ho hptr)
    rw [List.length_replicate]
    simp only [hlWSize] at *
    omega
  obtain ⟨mark, hmark, hcovers, hmarked⟩ := (markConstructs_spec _ _).1 hfits
  refine ⟨params.map initConstruct, mark, ?_, fun i c hc => ?_⟩
  · unfold hlInitEnum
    dsimp only
    rw [if_neg hint, hmark]
    rfl
  · rw [List.getElem?_map] at hc
    obtain ⟨kinds, hi, rfl⟩ := Option.map_eq_some_iff.mp hc
    have hmem := (mem_constructs).mpr ⟨kinds, hi, rfl⟩
    have hbits := hmarked _ hmem
    unfold ConstructMarked at hbits
    rw [initConstruct_eq] at hbits ⊢
    refine ⟨laid_value enumHeader kinds, rfl, fun k kind o hkind ho hptr => ?_, fun hany block hblock => ?_⟩
    · exact hbits (List.any_eq_true.mpr ⟨kind, List.mem_of_getElem? hkind, hptr⟩) (kind, o)
        ((mem_zip_iff).mpr ⟨k, hkind, ho⟩) hptr
    · have hreads : ∀ q, 0 ≤ q → q < 0 + (block / hlWSize - 2) → i + q / 32 < mark.length := by
        intro q hq hlt
        rw [hcovers.length, List.length_replicate]
        have hdvd := (blockSize_spec hblock).2
        have hpos : 0 < i + units (block - 2 * hlWSize) := by
          obtain ⟨k, rfl⟩ := hdvd
          simp only [units, hlWSize] at *
          omega
        have hroom := (room_iff hpos).mp (h.block i kinds hi hany block hblock)
        exact (reads_iff hdvd (by omega)).mpr hroom q hq hlt
      obtain ⟨words, hwords, hvisited⟩ := (flushWords_spec mark i _ 0).1 hreads
      exact ⟨words, hwords, fun pos hpos => hvisited pos (Nat.zero_le pos) (by omega)⟩

end Enum

section Virtual

variable (m : HlModule) (fields : List HlObjField)

def virtualHeader : Nat := 3 * hlWSize + hlWSize * fields.length

def fieldKinds : List HlTypeKind := fields.map fun f => (m.typeAt f.t).kind

def VirtualRight : Prop :=
  ∃ mark, virtualMarks m fields = some mark ∧
    Laid (virtualHeader fields) (hlInitVirtual m fields).size (fieldKinds m fields) (hlInitVirtual m fields).indexes ∧
    (mark.has 1 = true ∧ mark.has 2 = true) ∧
    (∀ (k : Nat) (kind : HlTypeKind) (o : Nat), (fieldKinds m fields)[k]? = some kind →
      (hlInitVirtual m fields).indexes[k]? = some o → kind.isPtr = true → mark.has (o / hlWSize) = true) ∧
    ∀ block, blockSize (hlInitVirtual m fields).size = some block → ∃ words, flushVirtual mark block = some words ∧
      ∀ pos, 1 ≤ pos → pos < block / hlWSize → mark.has pos = true → pos ∈ words

/-- When they are: the size is of type `int`, and the words of its bits have room for the whole block, and for the bit
of a packed field at its end. -/
structure VirtualFits : Prop where
  int : valueSize (virtualHeader fields) (fieldKinds m fields) + (hlWSize - 1) < 2 ^ 31
  block : ∀ block, blockSize (valueSize (virtualHeader fields) (fieldKinds m fields)) = some block →
    units block ≤ units (valueSize (virtualHeader fields) (fieldKinds m fields))
  pointer : ∀ (k : Nat) (kind : HlTypeKind) (o : Nat), (fieldKinds m fields)[k]? = some kind →
    (valueOffsets (virtualHeader fields) (fieldKinds m fields))[k]? = some o → kind.isPtr = true →
    o / 256 < units (valueSize (virtualHeader fields) (fieldKinds m fields))

theorem hlInitVirtual_eq :
    (hlInitVirtual m fields).indexes = valueOffsets (virtualHeader fields) (fieldKinds m fields) ∧
      (hlInitVirtual m fields).size = valueSize (virtualHeader fields) (fieldKinds m fields) :=
  virtualFields_eq m fields ⟨[], [], virtualHeader fields⟩

theorem units_header : 0 < units (valueSize (virtualHeader fields) (fieldKinds m fields)) := by
  have hheader : 24 ≤ virtualHeader fields := Nat.le_add_right 24 _
  have hle : 24 ≤ valueSize (virtualHeader fields) (fieldKinds m fields) := hheader.trans (le_finish _ _)
  generalize valueSize (virtualHeader fields) (fieldKinds m fields) = size at hle
  rw [units]
  omega

theorem has_first {n : Nat} (hpos : 0 < n) (mark : MarkBits)
    (h : MarkBits.Covers (List.set (List.replicate n 0) 0 6) mark) :
    mark.length = n ∧ mark.has 1 = true ∧ mark.has 2 = true := by
  obtain ⟨k, rfl⟩ : ∃ k, n = k + 1 := ⟨n - 1, by omega⟩
  rw [List.replicate_succ, List.set_cons_zero] at h
  have hhas (pos : Nat) (hpos : pos < 32) (hbit : (6 : BitVec 32).getLsbD pos = true) : mark.has pos = true := by
    refine h.has pos ?_
    unfold MarkBits.has
    rw [Nat.div_eq_of_lt hpos, Nat.mod_eq_of_lt hpos]
    exact hbit
  exact ⟨by rw [h.length, List.length_cons, List.length_replicate], hhas 1 (by decide) (by decide),
    hhas 2 (by decide) (by decide)⟩

theorem markFields_spec (l : List (HlObjField × Nat)) (mark : MarkBits) :
    ((∀ f ∈ l, (m.typeAt f.1.t).kind.isPtr = true → f.2 / hlWSize / 32 < mark.length) →
      ∃ mark', l.foldlM (markField m) mark = some mark' ∧ MarkBits.Covers mark mark' ∧
        ∀ f ∈ l, (m.typeAt f.1.t).kind.isPtr = true → mark'.has (f.2 / hlWSize) = true) ∧
    ∀ mark', l.foldlM (markField m) mark = some mark' → mark'.length = mark.length ∧
      ∀ f ∈ l, (m.typeAt f.1.t).kind.isPtr = true → f.2 / hlWSize / 32 < mark.length := by
  refine @foldlM_iff (HlObjField × Nat) (markField m)
    (fun f n => (m.typeAt f.1.t).kind.isPtr = true → f.2 / hlWSize / 32 < n)
    (fun f mark => (m.typeAt f.1.t).kind.isPtr = true → mark.has (f.2 / hlWSize) = true)
    (fun _ _ _ hcovers h hptr => hcovers.has _ (h hptr)) (fun f mark h => ?_) (fun f mark mark' h => ?_) l mark
  · unfold markField
    by_cases hptr : (m.typeAt f.1.t).kind.isPtr = true
    · obtain ⟨mark', hset, hcovers, hhas⟩ := MarkBits.set_spec mark (f.2 / hlWSize) (h hptr)
      exact ⟨mark', (if_pos hptr).trans hset, hcovers, fun _ => hhas⟩
    · exact ⟨mark, if_neg hptr, .refl mark, fun h => absurd h hptr⟩
  · unfold markField at h
    split at h
    · obtain ⟨hlength, hlt⟩ := set_fits h
      exact ⟨hlength, fun _ => hlt⟩
    · rename_i hptr
      cases h
      exact ⟨rfl, fun h => absurd h hptr⟩

variable {m fields}

theorem mem_fields_iff {offsets : List Nat} (P : HlTypeKind → Nat → Prop) :
    (∀ f ∈ fields.zip offsets, P (m.typeAt f.1.t).kind f.2) ↔
      ∀ (k : Nat) (kind : HlTypeKind) (o : Nat), (fieldKinds m fields)[k]? = some kind → offsets[k]? = some o →
        P kind o := by
  constructor
  · intro h k kind o hkind ho
    rw [fieldKinds, List.getElem?_map] at hkind
    obtain ⟨f, hf, rfl⟩ := Option.map_eq_some_iff.mp hkind
    exact h (f, o) (mem_zip_iff.mpr ⟨k, hf, ho⟩)
  · rintro h ⟨f, o⟩ hmem
    obtain ⟨k, hf, ho⟩ := mem_zip_iff.mp hmem
    refine h k _ o ?_ ho
    rw [fieldKinds, List.getElem?_map, hf]
    rfl

theorem virtual_reads_iff {block length : Nat} (hdvd : 8 ∣ block) (hlt : 8 < block) :
    (∀ q, 1 ≤ q → q < 1 + (block / hlWSize - 1) → 0 + q / 32 < length) ↔ units block ≤ length := by
  obtain ⟨k, rfl⟩ := hdvd
  simp only [units, hlWSize] at *
  constructor
  · intro h
    have hlast := h (8 * k / 8 - 1) (by omega) (by omega)
    omega
  · intro h q _ hq
    omega

theorem virtualRight_iff (m : HlModule) (fields : List HlObjField) : VirtualRight m fields ↔ VirtualFits m fields := by
  have hpos := units_header m fields
  obtain ⟨hindexes, hsize⟩ := hlInitVirtual_eq m fields
  have hnonzero : hlMarkSize (hlInitVirtual m fields).size ≠ 0 := by
    rw [hsize, hlMarkSize_eq]
    omega
  have hwords : hlMarkSize (hlInitVirtual m fields).size / 4 =
      units (valueSize (virtualHeader fields) (fieldKinds m fields)) := by
    rw [hsize, hlMarkSize_eq]
    omega
  have hheader : 24 ≤ valueSize (virtualHeader fields) (fieldKinds m fields) :=
    Nat.le_trans (Nat.le_add_right 24 _) (le_finish (virtualHeader fields) _)
  have hspec := markFields_spec m (fields.zip (hlInitVirtual m fields).indexes)
    (List.set (List.replicate (units (valueSize (virtualHeader fields) (fieldKinds m fields))) 0) 0 6)
  rw [List.length_set, List.length_replicate] at hspec
  unfold VirtualRight virtualMarks
  dsimp only
  rw [if_neg hnonzero, hwords, hindexes, hsize]
  rw [hindexes] at hspec
  generalize hlarge : valueSize (virtualHeader fields) (fieldKinds m fields) = size at *
  constructor
  · rintro ⟨mark, hmark, -, -, -, hflush⟩
    split at hmark
    · cases hmark
    rename_i hint
    obtain ⟨hlength, hfits⟩ := hspec.2 mark hmark
    refine ⟨hlarge ▸ Nat.lt_of_not_le hint, fun block hblock => ?_, ?_⟩
    · rw [hlarge] at hblock ⊢
      obtain ⟨words, hwords, -⟩ := hflush block hblock
      obtain ⟨hle, hdvd⟩ := blockSize_spec hblock
      have hreads := (virtual_reads_iff hdvd (by omega)).mp ((flushWords_spec mark 0 _ 1).2 words hwords)
      rwa [hlength] at hreads
    · rw [hlarge]
      refine fun k kind o hkind ho hptr => ?_
      have hlt := (mem_fields_iff fun kind o => kind.isPtr = true → o / hlWSize / 32 < units size).mp hfits k kind o
        hkind ho hptr
      rwa [Nat.div_div_eq_div_mul] at hlt
  · intro h
    have hint : ¬2 ^ 31 ≤ size + (hlWSize - 1) := Nat.not_le.mpr (hlarge ▸ h.int)
    have hinside : ∀ (k : Nat) (kind : HlTypeKind) (o : Nat), (fieldKinds m fields)[k]? = some kind →
        (valueOffsets (virtualHeader fields) (fieldKinds m fields))[k]? = some o → kind.isPtr = true →
        o / hlWSize / 32 < units size := fun k kind o hkind ho hptr => by
      rw [Nat.div_div_eq_div_mul]
      exact hlarge ▸ h.pointer k kind o hkind ho hptr
    obtain ⟨mark, hmark, hcovers, hmarked⟩ := hspec.1
      ((mem_fields_iff fun kind o => kind.isPtr = true → o / hlWSize / 32 < units size).mpr hinside)
    obtain ⟨hlength, hfirst⟩ := has_first hpos mark hcovers
    refine ⟨mark, (if_neg hint).trans hmark, hlarge ▸ laid_value _ _, hfirst,
      (mem_fields_iff fun kind o => kind.isPtr = true → mark.has (o / hlWSize) = true).mp hmarked,
      fun block hblock => ?_⟩
    obtain ⟨hle, hdvd⟩ := blockSize_spec hblock
    have hroom : units block ≤ mark.length := by
      rw [hlength]
      exact hlarge ▸ h.block block (hlarge.symm ▸ hblock)
    obtain ⟨words, hwords, hvisited⟩ :=
      (flushWords_spec mark 0 (block / hlWSize - 1) 1).1 ((virtual_reads_iff hdvd (by omega)).mpr hroom)
    refine ⟨words, hwords, fun pos hpos hlt hhas => hvisited pos hpos (by omega) ?_⟩
    rwa [Nat.mul_zero, Nat.zero_add]

end Virtual

/-- When the mark bits of virtual types and of enumerations are right. -/
theorem value_marks_iff (m : HlModule) (fields : List HlObjField) (params : List (List HlTypeKind)) :
    (VirtualRight m fields ↔ VirtualFits m fields) ∧ (EnumRight params ↔ EnumFits params) :=
  ⟨virtualRight_iff m fields, EnumRight.fits, EnumFits.right⟩

/-- A construct with 256 pointers has 2064 bytes, and 8 words of bits. Its block has 2112 bytes, and the marker reads
the word behind them. -/
theorem block_past_marks : ¬EnumRight [List.replicate 256 .hDyn] := by
  have hsize : valueSize enumHeader (List.replicate 256 .hDyn) = 2064 := by decide +kernel
  have hblock : blockSize 2064 = some 2112 := by decide +kernel
  intro h
  obtain ⟨j, kinds, hj, -, hle⟩ := h.fits.block 0 _ rfl (by decide +kernel) 2112 (by rw [hsize, hblock])
  obtain ⟨hlt, rfl⟩ := List.getElem?_eq_some_iff.mp hj
  obtain rfl : j = 0 := Nat.lt_one_iff.mp hlt
  rw [List.getElem_cons_zero, hsize] at hle
  exact absurd hle (by decide)

end HashLink.ValueMarks
