import HashLink.Lib.LittleEndian
import HashLink.Lib.ReorderWindow
import Mathlib.Data.List.Induction
import Mathlib.Data.List.TakeWhile

/-!
The reorder window of the exporter: synthesized records come in drain order, and leave in time order. They are held in a
byte buffer, which each release compacts, under an index of their times and offsets.
-/

namespace HashLink.Reorder

open LittleEndian ReorderWindow

/-- The doubles of the capture, in any order of their 64 bits. `namesFirst` is -1e300, and `timed` is -1e299. -/
structure Clock (Time : Type) [LinearOrder Time] where
  ofBits : UInt64 → Time
  toBits : Time → UInt64
  ofBits_toBits : ∀ t, ofBits (toBits t) = t
  zero : Time
  namesFirst : Time
  timed : Time
  names_untimed : namesFirst < timed

def u32 (p : List UInt8) (i : Nat) : Nat := value ((p.drop i).take 4)

def u64 (p : List UInt8) (i : Nat) : UInt64 := UInt64.ofNat (value ((p.drop i).take 8))

/-- A record as `synth` makes it: the length of its body, kind and flags, time, thread, value, and what follows. -/
structure Record where
  bytes : List UInt8
  long : 24 ≤ bytes.length
  sized : u32 bytes 0 + 4 = bytes.length
  fits : bytes.length < 2 ^ 32

def profileEventThreadName : Nat := 0x484C0002
def profileEventNativeSymbol : Nat := 0x484C0004
def profileEventNativeLocation : Nat := 0x484C0006

def isName (bytes : List UInt8) : Bool :=
  bytes.getD 4 0 = 2 ∧ u32 bytes 20 ∈ [profileEventNativeSymbol, profileEventNativeLocation, profileEventThreadName]

variable {Time : Type} [LinearOrder Time] (c : Clock Time)

def ownTime (bytes : List UInt8) : Time := c.ofBits (u64 bytes 8)

def indexTime (bytes : List UInt8) : Time := if isName bytes then c.namesFirst else ownTime c bytes

/-- `put64` at the time of a record. -/
def putTime (bytes : List UInt8) (time : Time) : List UInt8 :=
  bytes.take 8 ++ LittleEndian.bytes 8 (c.toBits time).toNat ++ bytes.drop 16

structure OrderedRecord (Time : Type) where
  time : Time
  seq : Nat
  offset : Nat
  length : Nat

structure ReorderBuffer (Time : Type) where
  data : List UInt8 := []
  index : List (OrderedRecord Time) := []
  seq : Nat := 0
  late : Nat := 0
  newest : Time
  released : Time

def orderedCompare (x y : OrderedRecord Time) : Int :=
  if x.time ≠ y.time then if x.time < y.time then -1 else 1
  else if x.seq < y.seq then -1 else if x.seq > y.seq then 1 else 0

def addRecord (r : ReorderBuffer Time) (bytes : List UInt8) : ReorderBuffer Time :=
  let time := indexTime c bytes
  { r with
    data := r.data ++ bytes
    index := r.index ++ [⟨time, r.seq, r.data.length, (u32 bytes 0 + 4) % 2 ^ 32⟩]
    seq := r.seq + 1
    newest := if r.newest < time then time else r.newest }

/-- The loop of `reorder_add` over what is left of the records. -/
def reorderAddLoop : Nat → ReorderBuffer Time → List UInt8 → ReorderBuffer Time
  | 0, r, _ => r
  | fuel + 1, r, records =>
    if records.length < 24 ∨ records.length < u32 records 0 + 4 then r
    else
      reorderAddLoop fuel (addRecord c r (records.take (u32 records 0 + 4))) (records.drop (u32 records 0 + 4))

/-- Each turn of the loop takes some bytes, so that their number is enough for it. -/
def reorderAdd (r : ReorderBuffer Time) (records : List UInt8) : ReorderBuffer Time :=
  reorderAddLoop c records.length r records

/-- What a release moves on: the output, the time of the last timed record in it, and the count of late records. -/
structure Released (Time : Type) where
  out : List UInt8
  released : Time
  late : Nat

def releaseRecord (data : List UInt8) (s : Released Time) (x : OrderedRecord Time) : Released Time :=
  let p := (data.drop x.offset).take x.length
  if c.timed < x.time then
    if x.time < s.released then { s with out := s.out ++ putTime c p s.released, late := s.late + 1 }
    else { s with out := s.out ++ p, released := x.time }
  else { s with out := s.out ++ p }

def keepRecord (data : List UInt8) (s : List UInt8 × List (OrderedRecord Time)) (x : OrderedRecord Time) :
    List UInt8 × List (OrderedRecord Time) :=
  (s.1 ++ (data.drop x.offset).take x.length, s.2 ++ [{ x with offset := s.1.length }])

def reorderRelease (r : ReorderBuffer Time) (bound : Time) (out : List UInt8) : ReorderBuffer Time × List UInt8 :=
  let index := r.index.mergeSort fun x y => orderedCompare x y ≤ 0
  let s := (index.takeWhile (·.time ≤ bound)).foldl (releaseRecord c r.data) ⟨out, r.released, r.late⟩
  let rest := (index.dropWhile (·.time ≤ bound)).foldl (keepRecord r.data) ([], [])
  ({ r with data := rest.1, index := rest.2, released := s.released, late := s.late }, s.out)

inductive Op (Time : Type) where
  | add (records : List Record)
  | release (bound : Time)

/-- The buffer, and all that has been written. -/
structure Export (Time : Type) where
  buffer : ReorderBuffer Time
  out : List UInt8 := []

def step (s : Export Time) : Op Time → Export Time
  | .add records => { s with buffer := reorderAdd c s.buffer (records.flatMap Record.bytes) }
  | .release bound => let (buffer, out) := reorderRelease c s.buffer bound s.out; ⟨buffer, out⟩

def run (ops : List (Op Time)) : Export Time :=
  ops.foldl (step c) { buffer := { newest := c.zero, released := c.zero } }

omit [LinearOrder Time] in
def added (ops : List (Op Time)) : List Record :=
  ops.flatMap fun op => match op with
    | .add records => records
    | .release _ => []

instance : Inhabited Record :=
  ⟨⟨LittleEndian.bytes 4 20 ++ List.replicate 20 0, by decide, by decide, by decide⟩⟩

theorem u32_append (p rest : List UInt8) (h : 4 ≤ p.length) : u32 (p ++ rest) 0 = u32 p 0 := by
  rw [u32, u32, List.drop_zero, List.drop_zero, List.take_append_of_le_length h]

theorem reorderAddLoop_records (records : List Record) (r : ReorderBuffer Time) (fuel : Nat)
    (hfuel : (records.flatMap Record.bytes).length ≤ fuel) :
    reorderAddLoop c fuel r (records.flatMap Record.bytes) =
      records.foldl (fun r record => addRecord c r record.bytes) r := by
  induction records generalizing r fuel with
  | nil => cases fuel <;> rfl
  | cons record records ih =>
    have hlong := record.long
    rw [List.flatMap_cons, List.length_append] at hfuel
    obtain ⟨fuel, rfl⟩ : ∃ n, fuel = n + 1 := ⟨fuel - 1, by omega⟩
    have hsize : u32 (record.bytes ++ records.flatMap Record.bytes) 0 + 4 = record.bytes.length := by
      rw [u32_append _ _ (by omega), record.sized]
    rw [List.flatMap_cons, reorderAddLoop, hsize, if_neg (by rw [List.length_append]; omega), List.take_left,
      List.drop_left, ih _ _ (by omega)]
    rfl

theorem reorderAdd_records (records : List Record) (r : ReorderBuffer Time) :
    reorderAdd c r (records.flatMap Record.bytes) = records.foldl (fun r record => addRecord c r record.bytes) r :=
  reorderAddLoop_records c records r _ (Nat.le_refl _)

theorem ownTime_putTime (record : Record) (time : Time) : ownTime c (putTime c record.bytes time) = time := by
  have hlong := record.long
  have htake : (record.bytes.take 8).length = 8 := by rw [List.length_take]; omega
  have hread : (putTime c record.bytes time).drop 8 =
      LittleEndian.bytes 8 (c.toBits time).toNat ++ record.bytes.drop 16 := by
    rw [putTime, List.append_assoc, List.drop_left' htake]
  rw [ownTime, u64, hread, List.take_left' (length_bytes 8 _), value_bytes,
    Nat.mod_eq_of_lt (show _ < 256 ^ 8 from UInt64.toNat_lt _), UInt64.ofNat_toNat, c.ofBits_toBits]

theorem indexTime_timed {bytes : List UInt8} (h : c.timed < indexTime c bytes) :
    indexTime c bytes = ownTime c bytes := by
  unfold indexTime at h ⊢
  split
  · next hname =>
      rw [if_pos hname] at h
      exact absurd (h.trans c.names_untimed) (lt_irrefl _)
  · rfl

/-- A record as it is written, with the time it is raised to. -/
structure Written (Time : Type) where
  record : Record
  raised : Option Time

def Written.bytes (w : Written Time) : List UInt8 :=
  match w.raised with
  | none => w.record.bytes
  | some time => putTime c w.record.bytes time

def Written.timed (w : Written Time) : Bool := c.timed < indexTime c w.record.bytes

def write (released : Time) (record : Record) : Written Time :=
  ⟨record, if c.timed < indexTime c record.bytes ∧ indexTime c record.bytes < released then some released else none⟩

def nextReleased (released : Time) (record : Record) : Time :=
  if c.timed < indexTime c record.bytes ∧ ¬indexTime c record.bytes < released then indexTime c record.bytes
  else released

def writeAll : Time → List Record → List (Written Time)
  | _, [] => []
  | released, record :: records => write c released record :: writeAll (nextReleased c released record) records

theorem writeAll_append (released : Time) (l l' : List Record) :
    writeAll c released (l ++ l') = writeAll c released l ++ writeAll c (l.foldl (nextReleased c) released) l' := by
  induction l generalizing released with
  | nil => rfl
  | cons record l ih => rw [List.cons_append, writeAll, ih]; rfl

theorem writeAll_records (released : Time) (l : List Record) : (writeAll c released l).map Written.record = l := by
  induction l generalizing released with
  | nil => rfl
  | cons record l ih => rw [writeAll, List.map_cons, ih]; rfl

theorem raised_later {w : Written Time} {released time : Time} {l : List Record} (h : w ∈ writeAll c released l)
    (htime : w.raised = some time) : ownTime c w.record.bytes < time := by
  induction l generalizing released with
  | nil => cases h
  | cons record l ih =>
    rcases List.mem_cons.1 h with rfl | h
    · rw [write] at htime ⊢
      split at htime
      · next hlate =>
          cases htime
          rw [← indexTime_timed c hlate.1]
          exact hlate.2
      · cases htime
    · exact ih h

theorem ownTime_write {released : Time} {record : Record} (h : c.timed < indexTime c record.bytes) :
    ownTime c ((write c released record).bytes c) = nextReleased c released record ∧
      released ≤ nextReleased c released record := by
  by_cases hlate : indexTime c record.bytes < released
  · rw [write, if_pos ⟨h, hlate⟩, nextReleased, if_neg fun hnot => hnot.2 hlate]
    exact ⟨ownTime_putTime c record released, le_rfl⟩
  · rw [write, if_neg fun hboth => hlate hboth.2, nextReleased, if_pos ⟨h, hlate⟩]
    exact ⟨(indexTime_timed c h).symm, not_lt.1 hlate⟩

theorem nextReleased_untimed {released : Time} {record : Record} (h : ¬c.timed < indexTime c record.bytes) :
    nextReleased c released record = released := if_neg fun hboth => h hboth.1

theorem writeAll_ordered (released : Time) (l : List Record) :
    (((writeAll c released l).filter (Written.timed c)).map fun w => ownTime c (w.bytes c)).Pairwise (· ≤ ·) ∧
      ∀ w ∈ writeAll c released l, w.timed c → released ≤ ownTime c (w.bytes c) := by
  induction l generalizing released with
  | nil => exact ⟨.nil, nofun⟩
  | cons record l ih =>
    obtain ⟨hpair, hle⟩ := ih (nextReleased c released record)
    rw [writeAll]
    by_cases htimed : c.timed < indexTime c record.bytes
    · obtain ⟨hown, hnext⟩ : ownTime c ((write c released record).bytes c) = nextReleased c released record ∧
          released ≤ nextReleased c released record := ownTime_write c htimed
      have hhead : (write c released record).timed c = true := decide_eq_true htimed
      constructor
      · rw [List.filter_cons_of_pos hhead, List.map_cons, List.pairwise_cons, hown]
        refine ⟨fun time hmem => ?_, hpair⟩
        obtain ⟨w, hw, rfl⟩ := List.mem_map.1 hmem
        exact hle w (List.mem_of_mem_filter hw) (List.mem_filter.1 hw).2
      · intro w hw hwtimed
        rcases List.mem_cons.1 hw with rfl | hw
        · rwa [hown]
        · exact hnext.trans (hle w hw hwtimed)
    · have hnot : ¬(write c released record).timed c = true := fun h => htimed (of_decide_eq_true h)
      rw [nextReleased_untimed c htimed] at hpair hle ⊢
      constructor
      · rwa [List.filter_cons_of_neg hnot]
      · intro w hw hwtimed
        rcases List.mem_cons.1 hw with rfl | hw
        · exact absurd hwtimed hnot
        · exact hle w hw hwtimed

def stamp (x : OrderedRecord Time) : Stamp Time := (x.time, x.seq)

def stamps (come : List Record) : List (Stamp Time) := come.mapIdx fun i record => (indexTime c record.bytes, i)

def recordOf (come : List Record) (seq : Nat) : Record := come.getD seq default

/-- The bytes of the record are where the index says. -/
def Stored (come : List Record) (data : List UInt8) (x : OrderedRecord Time) : Prop :=
  x.seq < come.length ∧ x.time = indexTime c (recordOf come x.seq).bytes ∧
    x.length = (recordOf come x.seq).bytes.length ∧
    ∃ before after, data = before ++ (recordOf come x.seq).bytes ++ after ∧ before.length = x.offset

variable {c} {come : List Record} {data : List UInt8} {x : OrderedRecord Time}

theorem Stored.slice (h : Stored c come data x) : (data.drop x.offset).take x.length = (recordOf come x.seq).bytes := by
  obtain ⟨-, -, hlength, before, after, hdata, hoffset⟩ := h
  rw [hdata, List.append_assoc, List.drop_left' hoffset, List.take_left' hlength.symm]

theorem Stored.append (h : Stored c come data x) (more : List UInt8) : Stored c come (data ++ more) x := by
  obtain ⟨hseq, htime, hlength, before, after, hdata, hoffset⟩ := h
  exact ⟨hseq, htime, hlength, before, after ++ more, by rw [hdata, List.append_assoc _ after], hoffset⟩

theorem recordOf_append {seq : Nat} (h : seq < come.length) (record : Record) :
    recordOf (come ++ [record]) seq = recordOf come seq := by
  rw [recordOf, recordOf, List.getD_eq_getElem?_getD, List.getElem?_append_left h, List.getD_eq_getElem?_getD]

theorem recordOf_last (come : List Record) (record : Record) :
    recordOf (come ++ [record]) come.length = record := by
  rw [recordOf, List.getD_eq_getElem?_getD, List.getElem?_concat_length]
  rfl

theorem Stored.after (h : Stored c come data x) (record : Record) : Stored c (come ++ [record]) data x := by
  rw [Stored, recordOf_append h.1]
  exact ⟨by rw [List.length_append]; exact Nat.lt_add_right _ h.1, h.2⟩

theorem stamps_concat (come : List Record) (record : Record) :
    stamps c (come ++ [record]) = stamps c come ++ [(indexTime c record.bytes, come.length)] :=
  List.mapIdx_concat

theorem seq_lt_of_mem {y : Stamp Time} (h : y ∈ stamps c come) : y.2 < come.length := by
  obtain ⟨i, hi, rfl⟩ := List.mem_mapIdx.1 h
  exact hi

def records (come : List Record) (w : Window Time) : List Record := w.out.map fun y => recordOf come y.2

variable (c) in
/-- What the bytes of the buffer and of the output are, over the window of the stamps. -/
structure Inv (come : List Record) (s : Export Time) (w : Window Time) : Prop where
  keeps : Keeps (stamps c come) w
  held : s.buffer.index.map stamp = w.held
  stored : ∀ x ∈ s.buffer.index, Stored c come s.buffer.data x
  seq : s.buffer.seq = come.length
  out : s.out = (writeAll c c.zero (records come w)).flatMap (Written.bytes c)
  released : s.buffer.released = (records come w).foldl (nextReleased c) c.zero

variable {s : Export Time} {w : Window Time}

theorem inv_addRecord (h : Inv c come s w) (record : Record) :
    Inv c (come ++ [record]) { s with buffer := addRecord c s.buffer record.bytes }
      (w.add (indexTime c record.bytes, come.length)) := by
  have hrecords : records (come ++ [record]) (w.add (indexTime c record.bytes, come.length)) = records come w := by
    refine List.map_congr_left fun y hy => recordOf_append ?_ record
    exact seq_lt_of_mem (h.keeps.perm.subset (List.mem_append_left _ hy))
  refine ⟨?_, ?_, ?_, ?_, ?_, ?_⟩
  · rw [stamps_concat]
    exact keeps_add h.keeps fun y hy => Nat.le_of_lt (seq_lt_of_mem hy)
  · simp only [addRecord, Window.add, List.map_append, h.held, List.map_cons, List.map_nil, stamp, h.seq]
  · intro x hx
    rcases List.mem_append.1 hx with hx | hx
    · exact ((h.stored x hx).append record.bytes).after record
    · rw [List.mem_singleton.1 hx, Stored, h.seq, recordOf_last]
      refine ⟨by simp, rfl, ?_, s.buffer.data, [], (List.append_nil _).symm, rfl⟩
      rw [record.sized, Nat.mod_eq_of_lt record.fits]
  · rw [List.length_append]
    exact congrArg (· + 1) h.seq
  · rw [hrecords]
    exact h.out
  · rw [hrecords]
    exact h.released

theorem orderedCompare_le (x y : OrderedRecord Time) : decide (orderedCompare x y ≤ 0) = le (stamp x) (stamp y) := by
  rw [le, decide_eq_decide, orderedCompare, stamp, stamp]
  rcases lt_trichotomy x.time y.time with hlt | heq | hgt
  · simp [hlt, hlt.ne]
  · simp only [heq, ne_eq, not_true_eq_false, if_false, lt_irrefl, true_and, false_or]
    split
    · simp_all [Nat.le_of_lt]
    · split <;> simp <;> omega
  · simp [hgt.ne', not_lt.2 hgt.le]

theorem releaseRecord_eq (h : Stored c come data x) (s : Released Time) :
    (releaseRecord c data s x).out = s.out ++ (write c s.released (recordOf come x.seq)).bytes c ∧
      (releaseRecord c data s x).released = nextReleased c s.released (recordOf come x.seq) := by
  have htime := h.2.1
  unfold releaseRecord write nextReleased
  rw [h.slice, ← htime]
  by_cases htimed : c.timed < x.time
  · by_cases hlate : x.time < s.released
    · simp [htimed, hlate, Written.bytes]
    · simp [htimed, hlate, Written.bytes]
  · simp [htimed, Written.bytes]

theorem foldl_release (l : List (OrderedRecord Time)) (h : ∀ x ∈ l, Stored c come data x) (s : Released Time) :
    (l.foldl (releaseRecord c data) s).out =
        s.out ++ (writeAll c s.released (l.map fun x => recordOf come x.seq)).flatMap (Written.bytes c) ∧
      (l.foldl (releaseRecord c data) s).released =
        (l.map fun x => recordOf come x.seq).foldl (nextReleased c) s.released := by
  induction l generalizing s with
  | nil => exact ⟨(List.append_nil _).symm, rfl⟩
  | cons x l ih =>
    obtain ⟨hout, hreleased⟩ := releaseRecord_eq (h x (List.mem_cons_self ..)) s
    have htail := ih (fun y hy => h y (List.mem_cons_of_mem _ hy)) (releaseRecord c data s x)
    rw [hout, hreleased] at htail
    rw [List.foldl_cons, htail.1, htail.2, List.append_assoc]
    exact ⟨rfl, rfl⟩

theorem foldl_keep (l : List (OrderedRecord Time)) (h : ∀ x ∈ l, Stored c come data x)
    (s : List UInt8 × List (OrderedRecord Time)) (hs : ∀ x ∈ s.2, Stored c come s.1 x) :
    (∀ x ∈ (l.foldl (keepRecord data) s).2, Stored c come (l.foldl (keepRecord data) s).1 x) ∧
      (l.foldl (keepRecord data) s).2.map stamp = s.2.map stamp ++ l.map stamp := by
  induction l generalizing s with
  | nil => exact ⟨hs, (List.append_nil _).symm⟩
  | cons x l ih =>
    have hx := h x (List.mem_cons_self ..)
    have hnext : ∀ y ∈ (keepRecord data s x).2, Stored c come (keepRecord data s x).1 y := by
      intro y hy
      rcases List.mem_append.1 hy with hy | hy
      · exact (hs y hy).append _
      · rw [List.mem_singleton.1 hy, keepRecord, hx.slice]
        exact ⟨hx.1, hx.2.1, hx.2.2.1, s.1, [], (List.append_nil _).symm, rfl⟩
    obtain ⟨hstored, hmap⟩ := ih (fun y hy => h y (List.mem_cons_of_mem _ hy)) _ hnext
    refine ⟨hstored, ?_⟩
    rw [List.foldl_cons, hmap, keepRecord, List.map_append, List.append_assoc]
    rfl

theorem inv_release (h : Inv c come s w) (bound : Time) : Inv c come (step c s (.release bound)) (w.release bound) := by
  have hsort : (s.buffer.index.mergeSort fun x y => orderedCompare x y ≤ 0).map stamp = w.held.mergeSort le := by
    rw [← h.held, List.map_mergeSort fun x _ y _ => orderedCompare_le x y]
  have hstored : ∀ x ∈ s.buffer.index.mergeSort fun x y => orderedCompare x y ≤ 0, Stored c come s.buffer.data x :=
    fun x hx => h.stored x ((List.mergeSort_perm _ _).subset hx)
  obtain ⟨hout, hreleased⟩ := foldl_release
    ((s.buffer.index.mergeSort fun x y => orderedCompare x y ≤ 0).takeWhile (·.time ≤ bound))
    (fun x hx => hstored x ((List.takeWhile_sublist _).subset hx)) ⟨s.out, s.buffer.released, s.buffer.late⟩
  obtain ⟨hkeep, hmap⟩ := foldl_keep
    ((s.buffer.index.mergeSort fun x y => orderedCompare x y ≤ 0).dropWhile (·.time ≤ bound))
    (fun x hx => hstored x ((List.dropWhile_sublist _).subset hx)) ([], []) nofun
  have htake : ((s.buffer.index.mergeSort fun x y => orderedCompare x y ≤ 0).takeWhile (·.time ≤ bound)).map stamp =
      (w.held.mergeSort le).takeWhile (·.1 ≤ bound) := by
    rw [← hsort, List.takeWhile_map]
    rfl
  have hnew : records come (w.release bound) = records come w ++
      ((s.buffer.index.mergeSort fun x y => orderedCompare x y ≤ 0).takeWhile (·.time ≤ bound)).map fun x =>
        recordOf come x.seq := by
    rw [records, Window.release, List.map_append, ← htake, List.map_map]
    rfl
  refine ⟨keeps_release h.keeps bound, ?_, hkeep, h.seq, ?_, ?_⟩
  · refine hmap.trans ?_
    rw [List.map_nil, List.nil_append, Window.release, ← hsort, List.dropWhile_map]
    rfl
  · refine hout.trans ?_
    rw [hnew, writeAll_append, List.flatMap_append, ← h.out, ← h.released]
  · refine hreleased.trans ?_
    rw [hnew, List.foldl_append, ← h.released]

theorem inv_add (h : Inv c come s w) (more : List Record) :
    ∃ w', Inv c (come ++ more) (step c s (.add more)) w' := by
  rw [step, reorderAdd_records]
  induction more generalizing come s w with
  | nil => exact ⟨w, by rwa [List.append_nil]⟩
  | cons record more ih =>
    obtain ⟨w', h'⟩ := ih (inv_addRecord h record)
    exact ⟨w', by simpa using h'⟩

theorem run_concat (c : Clock Time) (ops : List (Op Time)) (op : Op Time) :
    run c (ops ++ [op]) = step c (run c ops) op := List.foldl_concat ..

theorem inv_run (c : Clock Time) (ops : List (Op Time)) : ∃ w, Inv c (added ops) (run c ops) w := by
  induction ops using List.reverseRecOn with
  | nil => exact ⟨{}, keeps_empty, rfl, nofun, rfl, rfl, rfl⟩
  | append_singleton ops op ih =>
    obtain ⟨w, h⟩ := ih
    rw [run_concat, added, List.flatMap_append]
    cases op with
    | add more => exact List.flatMap_singleton .. ▸ inv_add h more
    | release bound => exact ⟨_, List.append_nil (added ops) ▸ inv_release h bound⟩

theorem records_stamps (c : Clock Time) (come : List Record) :
    (stamps c come).map (fun y => recordOf come y.2) = come := by
  refine List.ext_getElem (by simp [stamps]) fun i hi hi' => ?_
  simp [stamps, recordOf, hi']

theorem time_of_mem {y : Stamp Time} (h : y ∈ stamps c come) : y.1 = indexTime c (recordOf come y.2).bytes := by
  obtain ⟨i, hi, rfl⟩ := List.mem_mapIdx.1 h
  simp [recordOf, hi]

theorem seq_stamps (c : Clock Time) (come : List Record) : (stamps c come).Pairwise fun x y => x.2 < y.2 := by
  rw [List.pairwise_iff_getElem]
  intro i j hi hj hij
  simpa [stamps] using hij

theorem Inv.records_perm (h : Inv c come s w) (hall : w.held = []) : (records come w).Perm come := by
  have hperm := h.keeps.perm.map fun y => recordOf come y.2
  rwa [hall, List.append_nil, records_stamps] at hperm

theorem Inv.records_filter (h : Inv c come s w) (hall : w.held = []) (p : Record → Bool)
    (hp : (come.filter p).Pairwise fun x y => indexTime c x.bytes ≤ indexTime c y.bytes) :
    (records come w).filter p = come.filter p := by
  have hcome : come.filter p =
      ((stamps c come).filter fun y => p (recordOf come y.2)).map fun y => recordOf come y.2 := by
    conv_lhs => rw [← records_stamps c come, List.filter_map]
    rfl
  have htimes : ((stamps c come).filter fun y => p (recordOf come y.2)).Pairwise fun x y => x.1 ≤ y.1 := by
    rw [hcome, List.pairwise_map] at hp
    refine hp.imp_of_mem fun {x y} hx hy hxy => ?_
    rwa [time_of_mem (List.mem_of_mem_filter hx), time_of_mem (List.mem_of_mem_filter hy)]
  rw [hcome, ← h.keeps.filter_eq hall (seq_stamps c come) _ htimes, records, List.filter_map]
  rfl

def tid (record : Record) : Nat := u32 record.bytes 16

def ofThread (thread : Nat) (name : Bool) (record : Record) : Bool :=
  tid record = thread ∧ isName record.bytes = name

theorem indexTimes_ordered (c : Clock Time) (thread : Nat) (name : Bool)
    (h : ((come.filter fun record => tid record = thread).map fun record => ownTime c record.bytes).Pairwise (· ≤ ·)) :
    (come.filter (ofThread thread name)).Pairwise fun x y => indexTime c x.bytes ≤ indexTime c y.bytes := by
  have hsplit : come.filter (ofThread thread name) =
      (come.filter fun record => tid record = thread).filter fun record => isName record.bytes = name := by
    rw [List.filter_filter]
    refine List.filter_congr fun record _ => ?_
    simp [ofThread, Bool.and_comm]
  rw [List.pairwise_map] at h
  rw [hsplit]
  refine (h.filter _).imp_of_mem fun {x y} hx hy hxy => ?_
  have hnx : isName x.bytes = name := of_decide_eq_true (List.mem_filter.1 hx).2
  have hny : isName y.bytes = name := of_decide_eq_true (List.mem_filter.1 hy).2
  cases name with
  | true => rw [indexTime, indexTime, if_pos hnx, if_pos hny]
  | false =>
    rw [indexTime, indexTime, if_neg (by rw [hnx]; exact Bool.false_ne_true),
      if_neg (by rw [hny]; exact Bool.false_ne_true)]
    exact hxy

/-- What a run writes that ends with a release of everything: each record that was added, once and with its bytes or a
later time, by time where it has one, and in the order of each thread apart from the name records, which come first. -/
def WindowMeets (c : Clock Time) (ops : List (Op Time)) (bound : Time) : Prop :=
  ∃ written : List (Written Time), (run c (ops ++ [.release bound])).out = written.flatMap (Written.bytes c) ∧
    (written.map Written.record).Perm (added ops) ∧
    (∀ w ∈ written, ∀ time ∈ w.raised, ownTime c w.record.bytes < time) ∧
    ((written.filter (Written.timed c)).map fun w => ownTime c (w.bytes c)).Pairwise (· ≤ ·) ∧
    ∀ thread,
      (((added ops).filter fun record => tid record = thread).map fun record => ownTime c record.bytes).Pairwise
        (· ≤ ·) →
      ∀ name, (written.map Written.record).filter (ofThread thread name) = (added ops).filter (ofThread thread name)

theorem reorder_window (c : Clock Time) (ops : List (Op Time)) (bound : Time)
    (hbound : ∀ x ∈ (run c ops).buffer.index, x.time ≤ bound) : WindowMeets c ops bound := by
  obtain ⟨w, h⟩ := inv_run c ops
  have hlast := inv_release h bound
  have hall : (w.release bound).held = [] := by
    rw [Window.release, List.dropWhile_eq_nil_iff]
    intro y hy
    have hmem : y ∈ (run c ops).buffer.index.map stamp := by
      rw [h.held]
      exact (List.mergeSort_perm _ _).subset hy
    obtain ⟨x, hx, rfl⟩ := List.mem_map.1 hmem
    exact decide_eq_true (hbound x hx)
  refine ⟨writeAll c c.zero (records (added ops) (w.release bound)), ?_, ?_, ?_, ?_, ?_⟩
  · rw [run_concat]
    exact hlast.out
  · rw [writeAll_records]
    exact hlast.records_perm hall
  · exact fun _ hw _ htime => raised_later c hw htime
  · exact (writeAll_ordered c _ _).1
  · intro thread hown name
    rw [writeAll_records]
    exact hlast.records_filter hall _ (indexTimes_ordered c thread name hown)

structure Double where
  bits : UInt64
  deriving DecidableEq

def Double.key (d : Double) : Int :=
  if d.bits.toNat < 2 ^ 63 then d.bits.toNat else 2 ^ 63 - 1 - d.bits.toNat

theorem Double.key_injective : Function.Injective Double.key := by
  intro a b hab
  have ha := a.bits.toNat_lt
  have hb := b.bits.toNat_lt
  unfold key at hab
  have hbits : a.bits.toNat = b.bits.toNat := by
    split at hab <;> split at hab <;> omega
  cases a
  cases b
  exact congrArg Double.mk (UInt64.toNat_inj.1 hbits)

instance : LinearOrder Double := LinearOrder.lift' Double.key Double.key_injective

def doubles : Clock Double where
  ofBits := .mk
  toBits := Double.bits
  ofBits_toBits _ := rfl
  zero := ⟨0⟩
  namesFirst := ⟨0xFE37E43C8800759C⟩
  timed := ⟨0xFE031CFD3999F7B0⟩
  names_untimed := by decide

def second : Double := ⟨0x3FF0000000000000⟩
def seconds2 : Double := ⟨0x4000000000000000⟩
def secondsAll : Double := ⟨0x7E37E43C8800759C⟩

def event (time : Double) (thread id : Nat) : Record where
  bytes := LittleEndian.bytes 4 20 ++ [2, 0, 0, 0] ++ LittleEndian.bytes 8 time.bits.toNat ++
    LittleEndian.bytes 4 thread ++ LittleEndian.bytes 4 id
  long := by simp
  sized := by simp [u32]; decide
  fits := by simp

def lateEvent : List (Op Double) :=
  [.add [event seconds2 7 0x484C1001], .release seconds2, .add [event second 8 0x484C1002]]

theorem late_event_written : WindowMeets doubles lateEvent secondsAll :=
  reorder_window doubles lateEvent secondsAll (by decide +kernel)

theorem mergeSort_pair {α : Type} {r : α → α → Bool} {x y : α} (h : r x y = false) : [x, y].mergeSort r = [y, x] := by
  simp [List.mergeSort, List.MergeSort.Internal.splitInTwo, h]

def namedThread : List Record := [event second 7 0x484C1001, event seconds2 7 profileEventThreadName]

theorem named_index : (run doubles [.add namedThread]).buffer.index =
    [⟨second, 0, 0, 24⟩, ⟨doubles.namesFirst, 1, 24, 24⟩] := by
  rfl

/-- The name is written before the event. -/
theorem name_before_event :
    (namedThread.filter fun record => tid record = 7).map Record.bytes = namedThread.map Record.bytes ∧
      (namedThread.map fun record => ownTime doubles record.bytes).Pairwise (· ≤ ·) ∧
      (run doubles [.add namedThread, .release secondsAll]).out = (namedThread.map Record.bytes).reverse.flatten ∧
      (namedThread.map Record.bytes).reverse ≠ namedThread.map Record.bytes := by
  refine ⟨by decide +kernel, by decide +kernel, ?_, by decide +kernel⟩
  show (reorderRelease doubles (run doubles [.add namedThread]).buffer secondsAll []).2 = _
  rw [reorderRelease, named_index, mergeSort_pair (by decide +kernel)]
  decide +kernel

end HashLink.Reorder
