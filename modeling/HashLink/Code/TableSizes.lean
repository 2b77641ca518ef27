import HashLink.Code.Read

/-!
The memory of the tables that `hl_code_read` fills. `ALLOC` multiplies a count by the size of an element and hands the
product to `hl_zalloc`, whose size is an `int`, and `hl_malloc` pads it to eight bytes. A block is what `malloc` gave,
with the rest of it that is not handed out yet.
-/

namespace HashLink.Code

open Sticky

/-- A value as an `int` keeps it. -/
def toInt32 (x : Int) : Int := x.bmod (2 ^ 32)

/-- `hl_alloc_block`: the bytes behind its header, the size of the rest, and where the rest starts. -/
structure HlAllocBlock where
  capacity : Int
  size : Int
  p : Int

/-- `size + hl_pad_size(size,&hlt_dyn)`. -/
def padded (size : Int) : Int := toInt32 (size + (-size) % 8)

/-- A block as `hl_malloc` creates it; the header has 24 bytes. -/
def newBlock (size : Int) : HlAllocBlock :=
  let alloc := if size < 4096 - 24 then 4096 - 24 else size
  ⟨alloc, alloc, 0⟩

/-- The blocks, with the one to take `size` bytes from in front. -/
def currentBlock (a : List HlAllocBlock) (size : Int) : HlAllocBlock × List HlAllocBlock :=
  match a with
  | [] => (newBlock size, [])
  | b :: rest => if b.size ≤ size then (newBlock size, b :: rest) else (b, rest)

/-- `hl_malloc`: the start of the bytes in the block in front, none for `NULL`. -/
def hlMalloc (a : List HlAllocBlock) (size : Int) : Option Int × List HlAllocBlock :=
  if size = 0 then (none, a)
  else
    let size := padded size
    let (b, rest) := currentBlock a size
    (some b.p, { b with p := b.p + size, size := toInt32 (b.size - size) } :: rest)

/-- What is between two calls: the rest of a block is inside of it. -/
def Valid (a : List HlAllocBlock) : Prop :=
  ∀ b ∈ a, 0 ≤ b.p ∧ 0 ≤ b.size ∧ b.p + b.size = b.capacity ∧ b.capacity < 2 ^ 31

/-- One table: the size of an element, the elements asked for, and those the reader uses. -/
structure TableRequest where
  elem : Int
  slots : Int
  entries : Int
  elem_pos : 0 < elem := by decide

/-- `(count)*sizeof(ptr)`, as the `int` that it is passed as. -/
def TableRequest.bytes (t : TableRequest) : Int := toInt32 (t.elem * t.slots)

/-- The size of the table is not truncated, and its elements are behind what was handed out before, in a block that
has room for them. -/
def Granted (a : List HlAllocBlock) (t : TableRequest) : Prop :=
  t.bytes = t.elem * t.slots ∧
    match hlMalloc a t.bytes with
    | (some p, b :: _) => 0 ≤ p ∧ p ≤ b.p ∧ p + t.elem * t.slots ≤ b.p ∧ b.p ≤ b.capacity
    | _ => t.slots ≤ 0

/-- The tables of a run, one after the other. -/
def AllGranted (a : List HlAllocBlock) : List TableRequest → Prop
  | [] => True
  | t :: ts => Granted a t ∧ AllGranted (hlMalloc a t.bytes).2 ts

/-- The padded size is an `int`, and not negative. -/
def TableRequest.Fits (t : TableRequest) : Prop := -8 < t.elem * t.slots ∧ t.elem * t.slots ≤ 2 ^ 31 - 8

theorem toInt32_of_fits {x : Int} (h : -2 ^ 31 ≤ x ∧ x < 2 ^ 31) : toInt32 x = x :=
  Int.bmod_eq_of_le (by omega) (by omega)

theorem toInt32_bounds (x : Int) : -2 ^ 31 ≤ toInt32 x ∧ toInt32 x < 2 ^ 31 := by
  have hle := Int.le_bmod (x := x) (m := 2 ^ 32) (by decide)
  have hlt := Int.bmod_lt (x := x) (m := 2 ^ 32) (by decide)
  unfold toInt32
  omega

theorem padded_iff {n : Int} (h : -2 ^ 31 ≤ n ∧ n < 2 ^ 31) :
    (0 ≤ padded n ↔ -8 < n ∧ n ≤ 2 ^ 31 - 8) ∧ (0 ≤ padded n → n ≤ padded n ∧ padded n < 2 ^ 31) := by
  by_cases hlarge : n ≤ 2 ^ 31 - 8
  · have hpadded : padded n = n + (-n) % 8 := toInt32_of_fits (by omega)
    rw [hpadded]
    omega
  · have hsum : n + (-n) % 8 = 2 ^ 31 := by omega
    have hpadded : padded n = -2 ^ 31 := by
      rw [padded, hsum]
      rfl
    rw [hpadded]
    omega

theorem newBlock_valid {size : Int} (h : size < 2 ^ 31) : Valid [newBlock size] := by
  intro b hb
  cases List.mem_singleton.mp hb
  unfold newBlock
  refine ⟨Int.le_refl 0, ?_, Int.zero_add _, ?_⟩
  · show 0 ≤ if size < 4096 - 24 then (4096 - 24 : Int) else size
    split <;> omega
  · show (if size < 4096 - 24 then (4096 - 24 : Int) else size) < 2 ^ 31
    split <;> omega

variable {a : List HlAllocBlock}

theorem currentBlock_valid {size : Int} (ha : Valid a) (hsize : size < 2 ^ 31) :
    Valid ((currentBlock a size).1 :: (currentBlock a size).2) ∧ size ≤ (currentBlock a size).1.size := by
  have hnew : size ≤ (newBlock size).size := by
    show size ≤ if size < 4096 - 24 then (4096 - 24 : Int) else size
    split <;> omega
  cases a with
  | nil => exact ⟨newBlock_valid hsize, hnew⟩
  | cons b rest =>
    by_cases hfull : b.size ≤ size
    · simp only [currentBlock, if_pos hfull]
      exact ⟨fun c hc => (List.mem_cons.mp hc).elim
        (fun heq => newBlock_valid hsize c (heq ▸ List.mem_singleton_self _)) (ha c), hnew⟩
    · simp only [currentBlock, if_neg hfull]
      exact ⟨ha, by omega⟩

theorem hlMalloc_spec {n : Int} (ha : Valid a) (hn : n ≠ 0) :
    ∃ p b rest, hlMalloc a n = (some p, b :: rest) ∧ 0 ≤ p ∧ b.p = p + padded n ∧
      (0 ≤ padded n → b.p ≤ b.capacity ∧ Valid (b :: rest)) := by
  have hpadded : padded n < 2 ^ 31 := (toInt32_bounds _).2
  unfold hlMalloc
  rw [if_neg hn]
  generalize padded n = s at hpadded
  obtain ⟨hvalid, hroom⟩ := currentBlock_valid ha hpadded
  rcases hcurrent : currentBlock a s with ⟨b, rest⟩
  rw [hcurrent] at hvalid hroom
  have hrest : s ≤ b.size := hroom
  obtain ⟨hp, hsize, hsum, hcapacity⟩ := hvalid b List.mem_cons_self
  refine ⟨b.p, { b with p := b.p + s, size := toInt32 (b.size - s) }, rest, by simp only [hcurrent], hp, rfl,
    fun hs => ?_⟩
  have hleft : toInt32 (b.size - s) = b.size - s := toInt32_of_fits (by omega)
  refine ⟨show b.p + s ≤ b.capacity by omega, fun c hc => ?_⟩
  rcases List.mem_cons.mp hc with rfl | hc
  · rw [hleft]
    exact ⟨show 0 ≤ b.p + s by omega, show 0 ≤ b.size - s by omega,
      show b.p + s + (b.size - s) = b.capacity by omega, hcapacity⟩
  · exact hvalid c (List.mem_cons_of_mem b hc)

theorem granted_iff {t : TableRequest} (ha : Valid a) :
    (Granted a t ↔ t.Fits) ∧ (t.Fits → Valid (hlMalloc a t.bytes).2) := by
  have hbounds := toInt32_bounds (t.elem * t.slots)
  by_cases hbytes : t.bytes = t.elem * t.slots
  · obtain ⟨hfits, hsize⟩ := padded_iff hbounds
    rw [show toInt32 (t.elem * t.slots) = t.elem * t.slots from hbytes] at hfits hsize
    unfold Granted TableRequest.Fits
    rw [← hfits, hbytes]
    by_cases hzero : t.elem * t.slots = 0
    · have hslots : t.slots = 0 := (Int.mul_eq_zero.mp hzero).resolve_left (Int.ne_of_gt t.elem_pos)
      rw [hzero, hlMalloc, if_pos rfl, hslots]
      exact ⟨iff_of_true ⟨rfl, Int.le_refl 0⟩ (by decide), fun _ => ha⟩
    · obtain ⟨p, b, rest, hmalloc, hp, hnext, hvalid⟩ := hlMalloc_spec ha hzero
      rw [hmalloc]
      refine ⟨⟨fun h => ?_, fun h => ⟨rfl, hp, ?_, ?_, (hvalid h).1⟩⟩, fun h => (hvalid h).2⟩
      · have := h.2.2.1
        omega
      · omega
      · have := hsize h
        omega
  · have hfits : ¬t.Fits := fun h => hbytes (toInt32_of_fits ⟨by have := h.1; omega, by have := h.2; omega⟩)
    exact ⟨iff_of_false (fun h => hbytes h.1) hfits, fun h => absurd h hfits⟩

theorem allGranted_iff {ts : List TableRequest} (ha : Valid a) :
    AllGranted a ts ↔ ∀ t ∈ ts, t.Fits := by
  induction ts generalizing a with
  | nil => exact iff_of_true trivial fun _ h => absurd h List.not_mem_nil
  | cons t ts ih =>
    rw [AllGranted, (granted_iff ha).1, List.forall_mem_cons]
    exact and_congr_right fun h => ih ((granted_iff ha).2 h)

def hlPatchTypeReserve : Nat := 65536
def hlPatchFunctionReserve : Nat := 4096

def typesCapacity (ntypes : Nat) : Nat :=
  if 0x7FFFFFFF - hlPatchTypeReserve < ntypes then ntypes else ntypes + hlPatchTypeReserve

def functionsCapacity (nfunctions nnatives : Nat) : Nat :=
  if 0x7FFFFFFF - hlPatchFunctionReserve - nnatives < nfunctions then nfunctions
  else nfunctions + hlPatchFunctionReserve

def maxFindex (findexes : List Nat) : Int := findexes.foldl (fun (m : Int) (f : Nat) => if m < f then f else m) (-1)

/-- The loop for `set_size`, where the set has `n` entries and is to have `limit`. -/
def growSet (limit n : Nat) : Nat := if limit ≤ n ∨ n = 0 then n else growSet limit (2 * n)
termination_by limit - n

def setSize (count : Nat) : Nat := growSet (2 * if 0 < count then count else 1) 16

/-- What a file says about the sizes of its tables: the header, the sizes of the string data and of the bytes, the
fields of each constant, the indices of the functions, and the counts of the sections with function identities. -/
structure TableCounts where
  header : HlHeader
  stringsSize : Int
  bytesSize : Int
  ndebugfiles : Nat
  debugSize : Int
  constantFields : List Nat
  ndebugsections : Nat
  findexes : List Nat
  identities : List Nat

def table (elem : Int) (count : Int) (h : 0 < elem := by decide) : TableRequest := ⟨elem, count, count, h⟩

def typesTable (c : HlHeader) : TableRequest := ⟨40, typesCapacity c.ntypes, c.ntypes, by decide⟩

def functionTable (c : HlHeader) (elem : Int) (h : 0 < elem := by decide) : TableRequest :=
  ⟨elem, functionsCapacity c.nfunctions c.nnatives, c.nfunctions, h⟩

/-- `hl_read_strings`: the data, the strings and their lengths. -/
def stringTables (nstrings : Nat) (size : Int) : List TableRequest := [table 1 size, table 8 nstrings, table 4 nstrings]

/-- `hl_read_function_identities`: the functions by their index, and the set of the identities seen. -/
def identityTables (findexes : List Nat) (count : Nat) : List TableRequest :=
  [⟨4, if 0 < maxFindex findexes + 1 then maxFindex findexes + 1 else 1, maxFindex findexes + 1, by decide⟩,
   table 4 (setSize count)]

/-- The tables of `hl_code_read`, in their order. -/
def codeTables (k : TableCounts) : List TableRequest :=
  let c := k.header
  [table 4 c.nints, table 8 c.nfloats] ++ stringTables c.nstrings k.stringsSize ++ [table 8 c.nstrings] ++
  (if 5 ≤ c.version then [table 1 k.bytesSize, table 4 c.nbytes] else []) ++
  (if c.hasdebug then stringTables k.ndebugfiles k.debugSize else []) ++
  [typesTable c, table 8 c.nglobals, table 32 c.nnatives] ++
  [functionTable c 80, functionTable c 4, functionTable c 8, functionTable c 4, table 16 c.nconstants] ++
  k.constantFields.map (fun nfields : Nat => table 4 nfields) ++
  (if 7 ≤ c.version then table 24 k.ndebugsections :: k.identities.flatMap (identityTables k.findexes) else [])

/-- The values are such as a file can have. -/
structure Admitted (k : TableCounts) : Prop where
  header : ∃ r r', hlReadHeader r = .ok k.header r'
  sizes : ∀ n ∈ [k.stringsSize, k.bytesSize, k.debugSize], ∃ r r', hlReadI32 r = .ok n r'
  counts : ∀ n ∈ k.ndebugfiles :: k.ndebugsections :: (k.constantFields ++ k.findexes ++ k.identities),
    ∃ r r', hlReadUindex r = .ok n r'

/-- The entry `i` is inside what was handed out for the table. -/
def Inside (a : List HlAllocBlock) (t : TableRequest) (i : Int) : Prop :=
  ∃ p b rest, hlMalloc a t.bytes = (some p, b :: rest) ∧ 0 ≤ p + t.elem * i ∧
    p + t.elem * (i + 1) ≤ b.p ∧ b.p ≤ b.capacity

theorem Granted.inside {t : TableRequest} {i : Int} (h : Granted a t) (hi : 0 ≤ i) (hlt : i < t.slots) :
    Inside a t i := by
  obtain ⟨-, h⟩ := h
  rcases hmalloc : hlMalloc a t.bytes with ⟨_ | p, _ | ⟨b, rest⟩⟩
  all_goals rw [hmalloc] at h
  · exact absurd (show t.slots ≤ 0 from h) (by omega)
  · exact absurd (show t.slots ≤ 0 from h) (by omega)
  · exact absurd (show t.slots ≤ 0 from h) (by omega)
  · obtain ⟨hp, -, hroom, hcapacity⟩ := h
    have hstart := Int.mul_nonneg (Int.le_of_lt t.elem_pos) hi
    have hend := Int.mul_le_mul_of_nonneg_left (show i + 1 ≤ t.slots by omega) (Int.le_of_lt t.elem_pos)
    exact ⟨p, b, rest, hmalloc, by omega, by omega, hcapacity⟩

theorem yields_any {α : Type} (x : ReadM α) : Yields (fun _ => True) x fun _ => True :=
  fun _ _ _ _ _ => ⟨trivial, trivial⟩

theorem hlExit_bounds {α : Type} {good : α → Prop} (message : String) :
    Yields (fun _ => True) (hlExit message) good := by
  intro r a r' hrun
  cases hrun

theorem hlReadUindex_bounds : Yields (fun _ => True) hlReadUindex (· < 2 ^ 29) := by
  refine yields_bind hlReadIndex_bounds fun i => yields_ite (fun _ => ?_) fun hi => yields_pure fun h => ?_
  · exact yields_bind (yields_any _) fun _ => yields_pure fun _ _ => by decide
  · omega

theorem hlReadCountSince_bounds (first version : Nat) :
    Yields (fun _ => True) (hlReadCountSince first version) (· < 2 ^ 29) :=
  yields_ite (fun _ => hlReadUindex_bounds) fun _ => yields_pure (by decide)

def HlHeader.counts (c : HlHeader) : List Nat :=
  [c.nints, c.nfloats, c.nstrings, c.nbytes, c.ntypes, c.nglobals, c.nnatives, c.nfunctions, c.nconstants]

theorem hlReadHeader_bounds : Yields (fun _ => True) hlReadHeader fun c => ∀ n ∈ c.counts, n < 2 ^ 29 := by
  refine yields_bind (yields_any _) fun _ => yields_ite (fun _ => hlExit_bounds _) fun _ =>
    yields_bind (yields_any _) fun _ => yields_ite (fun _ => hlExit_bounds _) fun _ =>
    yields_bind (yields_any _) fun _ => yields_ite (fun _ => hlExit_bounds _) fun _ =>
    yields_bind (yields_any _) fun version => yields_ite (fun _ => hlExit_bounds _) fun _ => ?_
  refine yields_bind hlReadUindex_bounds fun _ => yields_bind hlReadUindex_bounds fun _ =>
    yields_bind hlReadUindex_bounds fun _ => yields_bind hlReadUindex_bounds fun _ =>
    yields_bind (hlReadCountSince_bounds _ _) fun _ =>
    yields_bind hlReadUindex_bounds fun _ => yields_bind hlReadUindex_bounds fun _ =>
    yields_bind hlReadUindex_bounds fun _ => yields_bind hlReadUindex_bounds fun _ =>
    yields_bind (hlReadCountSince_bounds _ _) fun _ => ?_
  refine yields_bind hlReadUindex_bounds fun _ => yields_bind (yields_any chkError) fun _ => yields_pure ?_
  simp only [HlHeader.counts, List.forall_mem_cons]
  intro _ _ hconstants hfunctions hnatives hglobals htypes hbytes hstrings hfloats hints _ _ _ _ _
  exact ⟨hints, hfloats, hstrings, hbytes, htypes, hglobals, hnatives, hfunctions, hconstants,
    fun _ h => absurd h List.not_mem_nil⟩

theorem hlReadI32_bounds : Yields (fun _ => True) hlReadI32 fun i => -2 ^ 31 ≤ i ∧ i < 2 ^ 31 := by
  refine yields_bind (yields_any _) fun _ => yields_get_bind fun r n r' hrun _ => ?_
  split at hrun
  · obtain ⟨_, _, _, hzero⟩ := bind_eq_ok.mp hrun
    rw [← (pure_eq_ok.mp hzero).1]
    exact ⟨trivial, fun _ => by decide⟩
  · obtain ⟨_, _, _, hvalue⟩ := bind_eq_ok.mp hrun
    rw [← (pure_eq_ok.mp hvalue).1]
    exact ⟨trivial, fun _ => toInt32_bounds _⟩

theorem maxFindex_bounds {findexes : List Nat} (h : ∀ f ∈ findexes, f < 2 ^ 29) :
    -1 ≤ maxFindex findexes ∧ maxFindex findexes < 2 ^ 29 := by
  unfold maxFindex
  refine List.foldlRecOn (motive := fun m : Int => -1 ≤ m ∧ m < 2 ^ 29) findexes _
    ⟨Int.le_refl _, by decide⟩ fun m hm f hf => ?_
  have := h f hf
  split <;> omega

theorem growSet_bounds (limit n : Nat) : growSet limit n ≤ max n (2 * limit) := by
  induction n using growSet.induct limit with
  | case1 n hdone =>
    rw [growSet, if_pos hdone]
    exact Nat.le_max_left _ _
  | case2 n hmore ih =>
    rw [growSet, if_neg hmore]
    omega

/-- A table is as large as its entries, and the number of its elements is an `int`. -/
def TableRequest.Sized (t : TableRequest) : Prop := t.entries ≤ t.slots ∧ -2 ^ 31 ≤ t.slots ∧ t.slots < 2 ^ 31

theorem table_sized {elem n : Int} {h : 0 < elem} (hn : -2 ^ 31 ≤ n ∧ n < 2 ^ 31) : (table elem n h).Sized :=
  ⟨Int.le_refl n, hn⟩

theorem count_sized {elem : Int} {n : Nat} {h : 0 < elem} (hn : n < 2 ^ 29) : (table elem n h).Sized :=
  table_sized (by omega)

theorem stringTables_sized {nstrings : Nat} {size : Int} (hn : nstrings < 2 ^ 29)
    (hsize : -2 ^ 31 ≤ size ∧ size < 2 ^ 31) : ∀ t ∈ stringTables nstrings size, t.Sized := by
  simp only [stringTables, List.forall_mem_cons]
  exact ⟨table_sized hsize, count_sized hn, count_sized hn, fun _ h => absurd h List.not_mem_nil⟩

theorem identityTables_sized {findexes : List Nat} {count : Nat} (hfindexes : ∀ f ∈ findexes, f < 2 ^ 29)
    (hcount : count < 2 ^ 29) : ∀ t ∈ identityTables findexes count, t.Sized := by
  have hmax := maxFindex_bounds hfindexes
  have hset : setSize count < 2 ^ 31 := by
    have hle := growSet_bounds (2 * if 0 < count then count else 1) 16
    have hlimit : (if 0 < count then count else 1) < 2 ^ 29 := by
      split <;> omega
    unfold setSize
    omega
  simp only [identityTables, List.forall_mem_cons]
  refine ⟨?_, table_sized (by omega), fun _ h => absurd h List.not_mem_nil⟩
  simp only [TableRequest.Sized]
  split <;> omega

theorem functionTable_sized {c : HlHeader} {elem : Int} {h : 0 < elem} (hfunctions : c.nfunctions < 2 ^ 29) :
    (functionTable c elem h).Sized := by
  have hcapacity : c.nfunctions ≤ functionsCapacity c.nfunctions c.nnatives ∧
      functionsCapacity c.nfunctions c.nnatives < 2 ^ 31 := by
    unfold functionsCapacity hlPatchFunctionReserve
    split <;> omega
  simp only [functionTable, TableRequest.Sized]
  omega

theorem typesTable_sized {c : HlHeader} (htypes : c.ntypes < 2 ^ 29) : (typesTable c).Sized := by
  have hcapacity : c.ntypes ≤ typesCapacity c.ntypes ∧ typesCapacity c.ntypes < 2 ^ 31 := by
    unfold typesCapacity hlPatchTypeReserve
    split <;> omega
  simp only [typesTable, TableRequest.Sized]
  omega

theorem forall_mem_ite {α : Type} {P : α → Prop} {c : Prop} [Decidable c] {l : List α} (h : ∀ a ∈ l, P a) :
    ∀ a ∈ (if c then l else []), P a := by
  split
  · exact h
  · exact fun _ h => absurd h List.not_mem_nil

theorem codeTables_sized {k : TableCounts} (h : Admitted k) : ∀ t ∈ codeTables k, t.Sized := by
  obtain ⟨r, r', hheader⟩ := h.header
  have hcounts := (hlReadHeader_bounds r _ r' hheader trivial).2
  have hread : ∀ n ∈ k.ndebugfiles :: k.ndebugsections :: (k.constantFields ++ k.findexes ++ k.identities),
      n < 2 ^ 29 := fun n hn =>
    let ⟨r, r', hrun⟩ := h.counts n hn
    (hlReadUindex_bounds r n r' hrun trivial).2
  have hsizes : ∀ n ∈ [k.stringsSize, k.bytesSize, k.debugSize], -2 ^ 31 ≤ n ∧ n < 2 ^ 31 := fun n hn =>
    let ⟨r, r', hrun⟩ := h.sizes n hn
    (hlReadI32_bounds r n r' hrun trivial).2
  simp only [HlHeader.counts, List.forall_mem_cons, List.forall_mem_append] at hcounts hread hsizes
  obtain ⟨hints, hfloats, hstrings, hbytes, htypes, hglobals, hnatives, hfunctions, hconstants, -⟩ := hcounts
  obtain ⟨hdebugfiles, hsections, ⟨hfields, hfindexes⟩, hidentities⟩ := hread
  obtain ⟨hstringsSize, hbytesSize, hdebugSize, -⟩ := hsizes
  have hnil : ∀ t ∈ ([] : List TableRequest), t.Sized := fun _ h => absurd h List.not_mem_nil
  simp only [codeTables, List.forall_mem_append, List.forall_mem_cons]
  refine ⟨⟨⟨⟨⟨⟨⟨⟨⟨count_sized hints, count_sized hfloats, hnil⟩, stringTables_sized hstrings hstringsSize⟩,
    count_sized hstrings, hnil⟩, forall_mem_ite ?_⟩, forall_mem_ite (stringTables_sized hdebugfiles hdebugSize)⟩,
    typesTable_sized htypes, count_sized hglobals, count_sized hnatives, hnil⟩, functionTable_sized hfunctions,
    functionTable_sized hfunctions, functionTable_sized hfunctions, functionTable_sized hfunctions,
    count_sized hconstants, hnil⟩, ?_⟩, forall_mem_ite ?_⟩
  · simp only [List.forall_mem_cons]
    exact ⟨table_sized hbytesSize, count_sized hbytes, hnil⟩
  · simp only [List.forall_mem_map]
    exact fun n hn => count_sized (hfields n hn)
  · simp only [List.forall_mem_cons, List.mem_flatMap]
    refine ⟨count_sized hsections, ?_⟩
    rintro t ⟨n, hn, ht⟩
    exact identityTables_sized hfindexes (hidentities n hn) t ht

/-- The tables of a file have the memory they need, one by one and all of them in a run, exactly where the padded
size of each is an `int` and not negative; every entry is inside the memory of its table then. -/
theorem code_tables_granted_iff {k : TableCounts} (h : Admitted k) :
    ∀ a, Valid a → (AllGranted a (codeTables k) ↔ ∀ t ∈ codeTables k, t.Fits) ∧
      ∀ t ∈ codeTables k, (Granted a t ↔ t.Fits) ∧ t.slots < 2 ^ 31 ∧
        (t.Fits → ∀ i, 0 ≤ i → i < t.entries → Inside a t i) := by
  refine fun a ha => ⟨allGranted_iff ha, fun t ht => ?_⟩
  obtain ⟨hentries, -, hint⟩ := codeTables_sized h t ht
  refine ⟨(granted_iff ha).1, hint, fun hfits i hi hlt => ?_⟩
  have hgranted : Granted a t := ((granted_iff ha).1).mpr hfits
  exact hgranted.inside hi (by omega)

def manyFloats : List UInt8 := [0x48, 0x4C, 0x42, 2, 0, 0, 0xD0, 0, 0, 0, 0, 0, 0, 0, 0, 0]

def countsOf (nfloats : Nat) : TableCounts where
  header := ⟨2, 0, 0, nfloats, 0, 0, 0, 0, 0, 0, 0, 0⟩
  stringsSize := 0
  bytesSize := 0
  ndebugfiles := 0
  debugSize := 0
  constantFields := []
  ndebugsections := 0
  findexes := []
  identities := []

def readerAt (bytes : List UInt8) : HlReader := HlReader.start (fun i => bytes.getD i.toNat 0) bytes.length fun _ => 0

theorem hlReadI32_zero : ∃ r', hlReadI32 (readerAt [0, 0, 0, 0]) = .ok 0 r' := by
  have hvalue : (match hlReadI32 (readerAt [0, 0, 0, 0]) with | .ok n _ => n | .error _ _ => 1) = 0 := by decide
  rcases hrun : hlReadI32 (readerAt [0, 0, 0, 0]) with ⟨n, r'⟩ | ⟨e, r'⟩
  all_goals rw [hrun] at hvalue
  · exact ⟨r', by rw [show n = 0 from hvalue]⟩
  · cases hvalue

theorem admitted_countsOf {nfloats : Nat} (bytes : List UInt8)
    (h : ∃ r', hlReadHeader (readerAt bytes) = .ok (countsOf nfloats).header r') : Admitted (countsOf nfloats) where
  header := ⟨_, h⟩
  sizes := by
    rintro n hn
    obtain rfl : n = 0 := by simpa [countsOf] using hn
    exact ⟨_, hlReadI32_zero⟩
  counts := by
    rintro n hn
    obtain rfl : n = 0 := by simpa [countsOf] using hn
    exact ⟨readerAt [0], _, rfl⟩

theorem code_tables_granted_small : AllGranted [] (codeTables (countsOf 1)) := by
  have hadmitted : Admitted (countsOf 1) :=
    admitted_countsOf [0x48, 0x4C, 0x42, 2, 0, 0, 1, 0, 0, 0, 0, 0, 0] ⟨_, rfl⟩
  exact ((code_tables_granted_iff hadmitted [] fun _ h => absurd h List.not_mem_nil).1).mpr fun t ht => by
    revert t ht
    unfold TableRequest.Fits
    decide

/-- Eight bytes for each of 2 ^ 28 floats are no `int`. -/
theorem manyFloats_not_granted : ¬∀ k, Admitted k → ∀ a, Valid a → ∀ t ∈ codeTables k, Granted a t := by
  intro hclaim
  have hgranted := hclaim (countsOf (2 ^ 28)) (admitted_countsOf manyFloats ⟨_, rfl⟩) []
    (fun _ h => absurd h List.not_mem_nil) (table 8 (2 ^ 28)) (by simp [codeTables, countsOf])
  have hfits : ¬(table 8 (2 ^ 28)).Fits := by
    unfold TableRequest.Fits
    decide
  exact hfits ((granted_iff fun _ h => absurd h List.not_mem_nil).1.mp hgranted)

end HashLink.Code

