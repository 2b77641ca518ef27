import HashLink.Lib.Probing
import HashLink.Stdlib.Utf
import Mathlib.Data.Finset.Card

/-!
The hashes of field names: `hl_hash_gen` with and without its cache, `hl_hash_utf8` and
`hl_field_name`. The cached hash of a name is free of collisions; the other two are what the name hashes
to, so they find a field only when its name was given that hash.
-/

namespace HashLink.FieldNames

open SortedTable Probing Text

/-- A string of `uchar`, which ends at its first zero. -/
structure UString where
  units : List UInt16
  nonzero : ∀ u ∈ units, u ≠ 0
  deriving DecidableEq

/-- What `hl_hash_gen` computes from the units. -/
def hlHashGen (name : List UInt16) : BitVec 32 :=
  (name.foldl (fun h c => 223 * h + c.toBitVec.zeroExtend 32) 0#32).srem 0x1FFFFF7B

/-- `hl_hash_gen` without the cache. -/
def UString.hash (name : UString) : Int := (hlHashGen name.units).toInt

/-- `hl_cache` and `hl_cache_size`. `hl_cache_count` is the length of the table. -/
structure HlCache where
  entries : List (Entry UString)
  size : Nat
  deriving DecidableEq

def HlCache.empty : HlCache := ⟨[], 0⟩

/-- `newsize`, which is computed as an `int`. -/
def newsize (size : Nat) : Int := if size = 0 then 16 else Int.bmod (size * 3) (2 ^ 32) / 2

/-- The size of the table a new name goes into. A size that has overflowed cannot be allocated, and one
that is not above the count has no room for the copy. -/
def HlCache.grown (cache : HlCache) : Option Nat :=
  if cache.size = cache.entries.length then
    if newsize cache.size ≤ cache.entries.length then none else some (newsize cache.size).toNat
  else some cache.size

/-- `hl_hash_gen`. The walk stays in an `int`, since it passes no more hashes than there are entries. -/
def HlCache.hlHashGen (cache : HlCache) (name : UString) (cacheName : Bool) : Option (Int × HlCache) :=
  if cacheName then do
    let (h, l) ← probe cache.entries name (cache.entries.length + 1) name.hash
    match l with
    | some _ => some (h, cache)
    | none =>
      let size ← cache.grown
      some (h, ⟨insert Entry.number cache.entries ⟨h, name⟩, size⟩)
  else some (name.hash, cache)

def HlCache.hlFieldName (cache : HlCache) (hash : Int) : UString :=
  ((find Entry.number cache.entries hash).map Entry.name).getD ⟨[0x3F, 0x3F, 0x3F], by simp⟩

/-- Calls of `hl_hash_gen(name,true)` one after the other. -/
def HlCache.hashNames (cache : HlCache) : List UString → Option (List Int × HlCache)
  | [] => some ([], cache)
  | name :: names => do
      let (h, cache) ← cache.hlHashGen name true
      let (hashes, cache) ← cache.hashNames names
      some (h :: hashes, cache)

/-- The sizes the table passes through. Three times the last of them overflows an `int`. -/
def sizes : List Nat := (List.range 46).map fun k => (fun size => if size = 0 then 16 else size * 3 / 2)^[k] 0

def maxSize : Nat := 885410839

structure HlCache.Valid (cache : HlCache) : Prop where
  table : Probing.Valid UString.hash cache.entries
  room : cache.entries.length ≤ cache.size
  sized : cache.size ∈ sizes

variable {cache cache' : HlCache} {name : UString} {names : List UString} {hashes : List Int} {h : Int}

theorem valid_empty : HlCache.empty.Valid := ⟨valid_nil _, Nat.le_refl _, by decide⟩

theorem newsize_sizes : ∀ size ∈ sizes, size ≤ maxSize ∧
    (if size = maxSize then newsize size < 0 else ↑size < newsize size ∧ (newsize size).toNat ∈ sizes) := by
  decide +kernel

theorem grown_some (hvalid : cache.Valid) {size : Nat} (hgrown : cache.grown = some size) :
    cache.entries.length + 1 ≤ size ∧ size ∈ sizes := by
  have hroom := hvalid.room
  unfold HlCache.grown at hgrown
  split at hgrown
  · obtain ⟨-, hnew⟩ := newsize_sizes _ hvalid.sized
    split at hgrown
    · cases hgrown
    · cases hgrown
      split at hnew
      · omega
      · exact ⟨by omega, hnew.2⟩
  · cases hgrown
    exact ⟨by omega, hvalid.sized⟩

theorem grown_isSome (hvalid : cache.Valid) (hcount : cache.entries.length < maxSize) :
    ∃ size, cache.grown = some size := by
  unfold HlCache.grown
  split
  · rename_i hfull
    obtain ⟨-, hnew⟩ := newsize_sizes _ hvalid.sized
    rw [if_neg (by omega)] at hnew
    exact ⟨_, if_neg (by omega)⟩
  · exact ⟨_, rfl⟩

theorem hlFieldName_of_mem (hvalid : cache.Valid) (hmem : ⟨h, name⟩ ∈ cache.entries) :
    cache.hlFieldName h = name := by
  rw [HlCache.hlFieldName, (find_iff hvalid.table.sorted).mpr ⟨hmem, rfl⟩]
  rfl

theorem hlHashGen_spec (hvalid : cache.Valid) (hrun : cache.hlHashGen name true = some (h, cache')) :
    cache'.Valid ∧ ⟨h, name⟩ ∈ cache'.entries ∧ (∀ e ∈ cache.entries, e ∈ cache'.entries) ∧
      ∀ e ∈ cache'.entries, e ∈ cache.entries ∨ e.name = name := by
  rw [HlCache.hlHashGen, if_pos rfl] at hrun
  obtain ⟨⟨k, l⟩, hprobe, hrun⟩ := Option.bind_eq_some_iff.mp hrun
  obtain ⟨-, -, -, hsome, -⟩ := probe_some hvalid.table.sorted hprobe
  cases l with
  | some e =>
    cases hrun
    obtain ⟨he, rfl, rfl⟩ := hsome e rfl
    exact ⟨hvalid, he, fun _ => id, fun _ => .inl⟩
  | none =>
    obtain ⟨size, hgrown, hrun⟩ := Option.bind_eq_some_iff.mp hrun
    cases hrun
    obtain ⟨hroom, hsized⟩ := grown_some hvalid hgrown
    have hlength : (insert Entry.number cache.entries ⟨h, name⟩).length = cache.entries.length + 1 :=
      insert_perm.length_eq
    refine ⟨⟨(probe_free hvalid.table hprobe).2, by rw [hlength]; exact hroom, hsized⟩,
      mem_insert.mpr (.inl rfl), fun e he => mem_insert.mpr (.inr he), fun e he => ?_⟩
    rcases mem_insert.mp he with rfl | he
    · exact .inr rfl
    · exact .inl he

theorem hlHashGen_isSome (hvalid : cache.Valid) (name : UString)
    (hcount : (∀ e ∈ cache.entries, e.name ≠ name) → cache.entries.length < maxSize) :
    ∃ r, cache.hlHashGen name true = some r := by
  obtain ⟨⟨k, l⟩, hprobe⟩ := probe_ends cache.entries name name.hash
  rw [HlCache.hlHashGen, if_pos rfl, hprobe]
  cases l with
  | some e => exact ⟨_, rfl⟩
  | none =>
    obtain ⟨size, hgrown⟩ := grown_isSome hvalid (hcount (probe_free hvalid.table hprobe).1)
    exact ⟨(k, ⟨insert Entry.number cache.entries ⟨k, name⟩, size⟩), by rw [hgrown]; rfl⟩

theorem hashNames_spec (hvalid : cache.Valid) (hrun : cache.hashNames names = some (hashes, cache')) :
    cache'.Valid ∧ hashes.length = names.length ∧ (∀ e ∈ cache.entries, e ∈ cache'.entries) ∧
      (∀ p ∈ names.zip hashes, ⟨p.2, p.1⟩ ∈ cache'.entries) ∧
      (∀ n ∈ names, ∃ h, ⟨h, n⟩ ∈ cache'.entries) := by
  induction names generalizing cache hashes with
  | nil =>
    cases hrun
    exact ⟨hvalid, rfl, fun _ => id, fun _ hp => absurd hp List.not_mem_nil,
      fun _ hn => absurd hn List.not_mem_nil⟩
  | cons name names ih =>
    obtain ⟨⟨h, next⟩, hstep, hrun⟩ := Option.bind_eq_some_iff.mp hrun
    obtain ⟨⟨rest, last⟩, hrest, hrun⟩ := Option.bind_eq_some_iff.mp hrun
    cases hrun
    obtain ⟨hvalid', hmem, hkept, -⟩ := hlHashGen_spec hvalid hstep
    obtain ⟨hlast, hlength, hkept', hzip, hnames⟩ := ih hvalid' hrest
    refine ⟨hlast, congrArg (· + 1) hlength, fun e he => hkept' e (hkept e he), fun p hp => ?_, fun n hn => ?_⟩
    · rcases List.mem_cons.mp hp with rfl | hp
      · exact hkept' _ hmem
      · exact hzip p hp
    · rcases List.mem_cons.mp hn with rfl | hn
      · exact ⟨h, hkept' _ hmem⟩
      · exact hnames n hn

/-- The names of the entries, which are all different. -/
def HlCache.known (cache : HlCache) : Finset UString := (cache.entries.map Entry.name).toFinset

theorem mem_known : name ∈ cache.known ↔ ∃ e ∈ cache.entries, e.name = name := by
  rw [HlCache.known, List.mem_toFinset, List.mem_map]

theorem card_known (hvalid : cache.Valid) : cache.known.card = cache.entries.length := by
  have hnodup : (cache.entries.map Entry.name).Nodup := by
    refine (List.nodup_map_iff_inj_on ?_).mpr fun e he e' he' => hvalid.table.names e he e' he'
    exact hvalid.table.sorted.imp fun hlt heq => absurd (congrArg Entry.number heq) (Int.ne_of_lt hlt)
  rw [HlCache.known, List.toFinset_card_of_nodup hnodup, List.length_map]

theorem hashNames_isSome (hvalid : cache.Valid) {all : List UString} (hall : all.toFinset.card ≤ maxSize)
    (hold : ∀ e ∈ cache.entries, e.name ∈ all) (hnames : ∀ n ∈ names, n ∈ all) :
    ∃ r, cache.hashNames names = some r := by
  induction names generalizing cache with
  | nil => exact ⟨_, rfl⟩
  | cons name names ih =>
    have hcount (hnew : ∀ e ∈ cache.entries, e.name ≠ name) : cache.entries.length < maxSize := by
      have hsub : Insert.insert name cache.known ⊆ all.toFinset := by
        intro n hn
        rcases Finset.mem_insert.mp hn with rfl | hn
        · exact List.mem_toFinset.mpr (hnames n List.mem_cons_self)
        · obtain ⟨e, he, rfl⟩ := mem_known.mp hn
          exact List.mem_toFinset.mpr (hold e he)
      have hle := Finset.card_le_card hsub
      have hnotin : name ∉ cache.known := fun hmem => by
        obtain ⟨e, he, hname⟩ := mem_known.mp hmem
        exact hnew e he hname
      rw [Finset.card_insert_of_notMem hnotin, card_known hvalid] at hle
      omega
    obtain ⟨⟨h, next⟩, hstep⟩ := hlHashGen_isSome hvalid name hcount
    obtain ⟨hvalid', -, -, hfrom⟩ := hlHashGen_spec hvalid hstep
    obtain ⟨⟨rest, last⟩, hrest⟩ := ih hvalid' (fun e he => by
      rcases hfrom e he with he | heq
      · exact hold e he
      · exact heq ▸ hnames name List.mem_cons_self) fun n hn => hnames n (List.mem_cons_of_mem _ hn)
    exact ⟨(h :: rest, last), Option.bind_eq_some_iff.mpr
      ⟨(h, next), hstep, Option.bind_eq_some_iff.mpr ⟨(rest, last), hrest, rfl⟩⟩⟩

/-- The calls return, equal names have equal hashes and different names different ones, and
`hl_field_name` gives each name for its hash. -/
def HashesRight (names : List UString) : Prop :=
  ∃ hashes cache, HlCache.empty.hashNames names = some (hashes, cache) ∧ hashes.length = names.length ∧
    (∀ p ∈ names.zip hashes, ∀ q ∈ names.zip hashes, p.1 = q.1 ↔ p.2 = q.2) ∧
    ∀ p ∈ names.zip hashes, cache.hlFieldName p.2 = p.1

theorem hashesRight_of_run (hrun : HlCache.empty.hashNames names = some (hashes, cache)) :
    HashesRight names := by
  obtain ⟨hvalid, hlength, -, hzip, -⟩ := hashNames_spec valid_empty hrun
  refine ⟨hashes, cache, hrun, hlength, fun p hp q hq => ⟨fun hname => ?_, fun hhash => ?_⟩,
    fun p hp => hlFieldName_of_mem hvalid (hzip p hp)⟩
  · exact congrArg Entry.number (hvalid.table.names _ (hzip p hp) _ (hzip q hq) hname)
  · exact congrArg Entry.name (hvalid.table.sorted.eq_of_key (hzip p hp) (hzip q hq) hhash)

/-- The names that have been hashed are those of the entries, and the table never holds more than
`maxSize` of them. -/
theorem card_of_run (hrun : HlCache.empty.hashNames names = some (hashes, cache)) :
    names.toFinset.card ≤ maxSize := by
  obtain ⟨hvalid, -, -, -, hnames⟩ := hashNames_spec valid_empty hrun
  have hsub : names.toFinset ⊆ cache.known := fun n hn => by
    obtain ⟨h, hmem⟩ := hnames n (List.mem_toFinset.mp hn)
    exact mem_known.mpr ⟨_, hmem, rfl⟩
  calc names.toFinset.card ≤ cache.known.card := Finset.card_le_card hsub
    _ = cache.entries.length := card_known hvalid
    _ ≤ cache.size := hvalid.room
    _ ≤ maxSize := (newsize_sizes _ hvalid.sized).1

/-- Whatever names are hashed in whatever order, the calls return hashes that tell the names apart and
that `hl_field_name` turns back into them exactly when there are at most 885410839 different names. -/
theorem hashesRight_iff (names : List UString) : HashesRight names ↔ names.toFinset.card ≤ maxSize := by
  constructor
  · rintro ⟨hashes, cache, hrun, -⟩
    exact card_of_run hrun
  · intro hcount
    obtain ⟨⟨hashes, cache⟩, hrun⟩ := hashNames_isSome valid_empty hcount
      (fun e he => absurd he List.not_mem_nil) fun _ => id
    exact hashesRight_of_run hrun

/-- A name of two units for each number below `2 ^ 30`. -/
def numbered (n : Nat) : UString :=
  ⟨[UInt16.ofNat (n / 2 ^ 15 % 2 ^ 15 + 1), UInt16.ofNat (n % 2 ^ 15 + 1)], by
    intro u hu hzero
    rcases List.mem_pair.mp hu with rfl | rfl <;>
      · have hnat := congrArg UInt16.toNat hzero
        rw [toNat_unit (by omega), UInt16.toNat_zero] at hnat
        omega⟩

theorem numbered_injOn {m n : Nat} (hm : m < 2 ^ 30) (hn : n < 2 ^ 30) (h : numbered m = numbered n) : m = n := by
  have hunits := congrArg (fun name => name.units.map UInt16.toNat) h
  simp only [numbered, List.map_cons, List.map_nil, List.cons.injEq, and_true] at hunits
  rw [toNat_unit (by omega), toNat_unit (by omega), toNat_unit (by omega), toNat_unit (by omega)] at hunits
  omega

def manyNames : List UString := (List.range (maxSize + 1)).map numbered

/-- One name more than the table can hold. -/
theorem manyNames_not_right : ¬HashesRight manyNames := by
  have hnodup : manyNames.Nodup := by
    refine List.nodup_range.map_on fun m hm n hn h => numbered_injOn ?_ ?_ h
    · exact (List.mem_range.mp hm).trans (by decide)
    · exact (List.mem_range.mp hn).trans (by decide)
  intro hright
  have hcard := (hashesRight_iff manyNames).mp hright
  rw [List.toFinset_card_of_nodup hnodup, manyNames, List.length_map, List.length_range] at hcard
  omega

/-- `hl_hash_utf8`, where `char` is signed. -/
def hlHashUtf8 (name : List UInt8) : Int :=
  ((name.foldl (fun h c => 223 * h + c.toBitVec.signExtend 32) 0#32).srem 0x1FFFFF7B).toInt

/-- The hashes without the cache are the cached one, and in every table of fields whose names are in the
cache they find the field that has the name, and no other. -/
structure Agrees (cache : HlCache) (name : UString) : Prop where
  cached : ∀ h cache', cache.hlHashGen name true = some (h, cache') →
    cache.hlHashGen name false = some (h, cache)
  utf8 : ∀ text, name.units = utf16Text text → hlHashUtf8 (utf8Text text) = name.hash
  resolved : ∀ lookup, Sorted Entry.number lookup → (∀ e ∈ lookup, e ∈ cache.entries) →
    ∀ e, find Entry.number lookup name.hash = some e ↔ e ∈ lookup ∧ e.name = name

def Free (cache : HlCache) (name : UString) : Prop :=
  ∀ e ∈ cache.entries, e.number = name.hash → e.name = name

def UString.Ascii (name : UString) : Prop := ∀ u ∈ name.units, u.toNat < 128

theorem utf16_ascii {c : Char} (h : ∀ u ∈ Utf.utf16 c, u.toNat < 128) :
    c.toNat < 128 ∧ Utf.utf16 c = [UInt16.ofNat c.toNat] ∧ String.utf8EncodeChar c = [UInt8.ofNat c.toNat] := by
  have hform := Utf.form c
  generalize Utf.utf16 c = us, String.utf8EncodeChar c = bs, c.toNat = v at h hform
  cases hform with
  | one hv => exact ⟨hv, rfl, rfl⟩
  | two hlow hhigh =>
    have hlt := h _ List.mem_cons_self
    rw [toNat_unit (by omega)] at hlt
    omega
  | three hlow hhigh =>
    have hlt := h _ List.mem_cons_self
    rw [toNat_unit (by omega)] at hlt
    omega
  | four hhi hlo =>
    have hlt := h _ List.mem_cons_self
    rw [toNat_unit (by omega)] at hlt
    omega

theorem signExtend_ascii : ∀ v < 128,
    (UInt8.ofNat v).toBitVec.signExtend 32 = (UInt16.ofNat v).toBitVec.zeroExtend 32 := by decide

theorem foldl_ascii {text : List Char} (h : ∀ u ∈ utf16Text text, u.toNat < 128) (start : BitVec 32) :
    (utf8Text text).foldl (fun h c => 223 * h + c.toBitVec.signExtend 32) start =
      (utf16Text text).foldl (fun h c => 223 * h + c.toBitVec.zeroExtend 32) start := by
  induction text generalizing start with
  | nil => rfl
  | cons c text ih =>
    rw [utf16Text, List.flatMap_cons] at h
    obtain ⟨hc, hunits, hbytes⟩ := utf16_ascii fun u hu => h u (List.mem_append_left _ hu)
    rw [utf8Text, utf16Text, List.flatMap_cons, List.flatMap_cons, hunits, hbytes, List.foldl_append,
      List.foldl_append, List.foldl_cons, List.foldl_cons, signExtend_ascii _ hc]
    exact ih (fun u hu => h u (List.mem_append_right _ hu)) _

theorem hlHashUtf8_ascii (hname : name.Ascii) {text : List Char} (htext : name.units = utf16Text text) :
    hlHashUtf8 (utf8Text text) = name.hash := by
  rw [UString.Ascii, htext] at hname
  rw [hlHashUtf8, foldl_ascii hname, UString.hash, FieldNames.hlHashGen, htext]

theorem cached_of_free (hvalid : cache.Valid) (hfree : Free cache name)
    (hrun : cache.hlHashGen name true = some (h, cache')) : h = name.hash := by
  obtain ⟨hvalid', hmem, -, hfrom⟩ := hlHashGen_spec hvalid hrun
  refine (hvalid'.table.number_eq_hash_iff hmem).mpr fun e he hnumber => ?_
  rcases hfrom e he with he | hname
  · exact hfree e he hnumber
  · exact hname

theorem resolved_of_free (hvalid : cache.Valid) (hfree : Free cache name) {lookup : List (Entry UString)}
    (hsorted : Sorted Entry.number lookup) (hlookup : ∀ e ∈ lookup, e ∈ cache.entries) (e : Entry UString) :
    find Entry.number lookup name.hash = some e ↔ e ∈ lookup ∧ e.name = name := by
  rw [find_iff hsorted]
  refine and_congr_right fun he => ⟨hfree e (hlookup e he), ?_⟩
  rintro rfl
  exact (hvalid.table.number_eq_hash_iff (hlookup e he)).mpr hfree

/-- After any calls of `hl_hash_gen(name,true)`, the hash of a name without the cache agrees with the
cached one exactly when no other name was given it, if the name is ASCII or has no UTF-8 form. -/
theorem agrees_iff {names : List UString} {hashes : List Int} {cache : HlCache}
    (hrun : HlCache.empty.hashNames names = some (hashes, cache)) (name : UString) :
    (Agrees cache name → Free cache name) ∧
      (name.Ascii ∨ (∀ text, name.units ≠ utf16Text text) → (Agrees cache name ↔ Free cache name)) := by
  obtain ⟨hvalid, -⟩ := hashNames_spec valid_empty hrun
  have hfree : Agrees cache name → Free cache name := fun hagrees e he hnumber => by
    have hfind : find Entry.number [e] name.hash = some e :=
      (find_iff (List.pairwise_singleton _ _)).mpr ⟨List.mem_cons_self, hnumber⟩
    refine ((hagrees.resolved [e] (List.pairwise_singleton _ _) (fun e' he' => ?_) e).mp hfind).2
    rwa [List.mem_singleton.mp he']
  refine ⟨hfree, fun hname => ⟨hfree, fun hfree => ⟨fun h cache' hcall => ?_, fun text htext => ?_,
    fun lookup hsorted hlookup => resolved_of_free hvalid hfree hsorted hlookup⟩⟩⟩
  · rw [cached_of_free hvalid hfree hcall]
    rfl
  · rcases hname with hname | hname
    · exact hlHashUtf8_ascii hname htext
    · exact absurd htext (hname text)

/-- `__string`. -/
def stringName : UString := ⟨[0x5F, 0x5F, 0x73, 0x74, 0x72, 0x69, 0x6E, 0x67], by simp⟩

/-- `dObUL_`, which has the hash of `__string`. -/
def collidingName : UString := ⟨[0x64, 0x4F, 0x62, 0x55, 0x4C, 0x5F], by simp⟩

/-- A field named `dObUL_` that is read after `__string` is given the next hash. -/
theorem agrees_stringName :
    ∃ cache, HlCache.empty.hashNames [numbered 7, stringName, collidingName, stringName, numbered 8] =
      some ([231, -111176985, -111176984, -111176985, 232], cache) ∧ Agrees cache stringName :=
  have hrun : HlCache.empty.hashNames [numbered 7, stringName, collidingName, stringName, numbered 8] =
    some ([231, -111176985, -111176984, -111176985, 232],
      ⟨[⟨-111176985, stringName⟩, ⟨-111176984, collidingName⟩, ⟨231, numbered 7⟩, ⟨232, numbered 8⟩], 16⟩) := by
    decide
  ⟨_, hrun, ((agrees_iff hrun stringName).2 (.inl (by simp [UString.Ascii, stringName]))).mpr (by
    unfold Free
    decide)⟩

/-- A field named `dObUL_` that is read first is the one that is called to print the object. -/
theorem collidingName_not_agrees :
    ∃ cache, HlCache.empty.hashNames [collidingName, stringName] = some ([-111176985, -111176984], cache) ∧
      ¬Agrees cache stringName ∧
      find Entry.number cache.entries stringName.hash = some ⟨-111176985, collidingName⟩ := by
  refine ⟨⟨[⟨-111176985, collidingName⟩, ⟨-111176984, stringName⟩], 16⟩, by decide, fun hagrees => ?_,
    by decide⟩
  have hcall := hagrees.cached (-111176984)
    ⟨[⟨-111176985, collidingName⟩, ⟨-111176984, stringName⟩], 16⟩ (by decide)
  revert hcall
  decide

end HashLink.FieldNames
