import HashLink.Prof.CallStream

/-!
Short calls are dropped and accounted for. The records after the published position are `ENTER` records of
open calls, so that the last of them is that of the innermost one, and a call that is taken back goes to the
table or to an event of dropped calls.
-/

namespace HashLink.Prof

open LittleEndian

variable {t t' : ProfThread}

def enterRecord (e : Nat × UInt64) : ProfRecord := ⟨e.1, .enter e.2⟩

/-- The run of records that are held back, and their keys in memory. -/
structure HeldRun (t : ProfThread) (kept : List ProfRecord) (run : List (Nat × UInt64)) : Prop where
  written : t.written = kept ++ run.map enterRecord
  cur : t.cur = t.pos + 16 * run.length
  keys : ∀ i e, run[i]? = some e → load t.memory (t.pos + 16 * i + 8) 8 = bytes 8 e.2.toNat
  nonzero : ∀ e ∈ run, e.2 ≠ 0
  held : t.held = if run = [] then none else some t.pos

/-- The thread's chunk: its records from the consumer's offset on, and the run at their end. -/
structure Streams (t : ProfThread) : Prop where
  run : ∃ kept run, HeldRun t kept run
  sized : t.readOffset + (t.written.map ProfRecord.size).sum = t.cur
  read_le : t.readOffset ≤ t.pos
  empty : t.chunk = false → t.cur = 0

/-- The table of dropped calls: `dropped_used` counts its keys. -/
structure Tabled (t : ProfThread) : Prop where
  length : t.dropped.length = droppedSlots
  used : t.dropped.countP (fun d => d.key ≠ 0) = t.droppedUsed

def Small (t : ProfThread) : Prop := ∀ d ∈ t.dropped, d.key ≠ 0 → d.count.toNat + 1 < 2 ^ 32

theorem size_enterRecord (e : Nat × UInt64) : (enterRecord e).size = 16 := size_two rfl

theorem size_pos (r : ProfRecord) : 0 < r.size := by
  rw [size_eq]
  omega

theorem sum_sizes_enters (run : List (Nat × UInt64)) :
    ((run.map enterRecord).map ProfRecord.size).sum = 16 * run.length := by
  induction run with
  | nil => rfl
  | cons e run ih =>
    rw [List.map_cons, List.map_cons, List.sum_cons, ih, size_enterRecord, List.length_cons]
    omega

theorem Streams.put_commit (h : Streams t) (hchunk : t.chunk = true) (r : ProfRecord) :
    Streams (t.put r).commit where
  run := by
    refine ⟨t.written ++ [r], [], ?_, rfl, fun i e he => ?_, fun e he => absurd he List.not_mem_nil, rfl⟩
    · exact (List.append_nil _).symm
    · rw [List.getElem?_nil] at he
      cases he
  sized := by
    change t.readOffset + ((t.written ++ [r]).map ProfRecord.size).sum = t.cur + r.size
    rw [List.map_append, List.sum_append, ← Nat.add_assoc, h.sized]
    rfl
  read_le := by
    change t.readOffset ≤ t.cur + r.size
    have hsized := h.sized
    omega
  empty := by
    intro hnone
    change t.chunk = false at hnone
    rw [hchunk] at hnone
    cases hnone

theorem Streams.of_empty (hcur : t.cur = 0) (hpos : t.pos = 0) (hread : t.readOffset = 0) (hheld : t.held = none)
    (hwritten : t.written = []) : Streams t where
  run := by
    refine ⟨[], [], hwritten, by rw [hcur, hpos]; rfl, fun i e he => ?_, fun e he => absurd he List.not_mem_nil,
      hheld⟩
    rw [List.getElem?_nil] at he
    cases he
  sized := by
    rw [hread, hwritten, hcur]
    rfl
  read_le := by rw [hread]; exact Nat.zero_le _
  empty := fun _ => hcur

theorem Streams.congr (h : Streams t) (hchunk : t'.chunk = t.chunk) (hmemory : t'.memory = t.memory)
    (hcur : t'.cur = t.cur) (hpos : t'.pos = t.pos) (hheld : t'.held = t.held) (hread : t'.readOffset = t.readOffset)
    (hwritten : t'.written = t.written) : Streams t' where
  run := by
    obtain ⟨kept, run, hrun⟩ := h.run
    refine ⟨kept, run, hwritten.trans hrun.written, ?_, ?_, hrun.nonzero, ?_⟩
    · rw [hcur, hpos]
      exact hrun.cur
    · rw [hmemory, hpos]
      exact hrun.keys
    · rw [hheld, hpos]
      exact hrun.held
  sized := by
    rw [hread, hwritten, hcur]
    exact h.sized
  read_le := by
    rw [hread, hpos]
    exact h.read_le
  empty := by
    rw [hchunk, hcur]
    exact h.empty

/-- What the thread wrote is not changed by anything but records of stalls. -/
def Extends (t t' : ProfThread) : Prop :=
  ∃ stalls, t'.records = t.records ++ stalls ∧ (stalls = [] ∨ ∃ r, stalls = [r] ∧ Quiet r)

theorem Streams.written_nil (h : Streams t) (hread : ¬(t.chunk = true ∧ t.readOffset < t.cur)) : t.written = [] := by
  have hsized := h.sized
  have hzero : (t.written.map ProfRecord.size).sum = 0 := by
    by_cases hchunk : t.chunk = true
    · have hge : ¬t.readOffset < t.cur := fun hlt => hread ⟨hchunk, hlt⟩
      omega
    · rw [h.empty (Bool.not_eq_true _ ▸ hchunk)] at hsized
      omega
  cases hw : t.written with
  | nil => rfl
  | cons r rs =>
    rw [hw, List.map_cons, List.sum_cons] at hzero
    have hpos := size_pos r
    omega

def OnlyStall (rs : List ProfRecord) : Prop := rs = [] ∨ ∃ start ended, rs = [⟨start, .stall ended⟩]

theorem nextChunk_stalls (h : Streams t) (fresh : FreshChunk) :
    ∃ stalls, (t.nextChunk fresh).records = t.records ++ stalls ∧ OnlyStall stalls := by
  have hsegments : (if t.chunk = true ∧ t.readOffset < t.cur then
      t.segments ++ [(t.written, load t.memory t.readOffset (t.cur - t.readOffset))]
    else t.segments).flatMap Prod.fst = t.records := by
    unfold ProfThread.records
    split
    · rw [List.flatMap_append, List.flatMap_cons, List.flatMap_nil, List.append_nil]
    · next hread => rw [h.written_nil hread, List.append_nil]
  unfold ProfThread.nextChunk
  dsimp only
  split
  · refine ⟨[], ?_, Or.inl rfl⟩
    rw [List.append_nil]
    unfold ProfThread.records
    dsimp only
    rw [List.append_nil]
    exact hsegments
  · next started ended hstall =>
    exact ⟨[⟨tickMask started, .stall (tickMask ended)⟩], congrArg (· ++ [_]) hsegments, Or.inr ⟨_, _, rfl⟩⟩

theorem nextChunk_records (h : Streams t) (fresh : FreshChunk) : Extends t (t.nextChunk fresh) := by
  obtain ⟨stalls, hrecords, hstalls⟩ := nextChunk_stalls h fresh
  refine ⟨stalls, hrecords, hstalls.imp_right ?_⟩
  rintro ⟨start, ended, rfl⟩
  exact ⟨_, rfl, trivial⟩

variable {key : UInt64} {i : Nat} {room : Option FreshChunk}

theorem reserve_stalls (h : Streams t) {size : Nat} (hreserve : t.reserve size room = some t') :
    ∃ stalls, t'.records = t.records ++ stalls ∧ OnlyStall stalls := by
  unfold ProfThread.reserve at hreserve
  split at hreserve
  · cases hreserve
    exact ⟨[], (List.append_nil _).symm, Or.inl rfl⟩
  · split at hreserve
    · cases hreserve
    · obtain ⟨fresh, -, rfl⟩ := Option.map_eq_some_iff.1 hreserve
      exact nextChunk_stalls h fresh

theorem Streams.nextChunk (fresh : FreshChunk) : Streams (t.nextChunk fresh) := by
  unfold ProfThread.nextChunk
  dsimp only
  split
  · exact .of_empty rfl rfl rfl rfl rfl
  · exact Streams.put_commit (.of_empty rfl rfl rfl rfl rfl) rfl _

theorem nextChunk_other (fresh : FreshChunk) : (t.nextChunk fresh).chunk = true ∧
    (t.nextChunk fresh).depth = t.depth ∧ (t.nextChunk fresh).dropped = t.dropped ∧
    (t.nextChunk fresh).droppedUsed = t.droppedUsed := by
  unfold ProfThread.nextChunk
  dsimp only
  split
  · exact ⟨rfl, rfl, rfl, rfl⟩
  · exact ⟨rfl, rfl, rfl, rfl⟩

structure Reserved (t t' : ProfThread) : Prop where
  streams : Streams t'
  records : Extends t t'
  chunk : t'.chunk = true
  depth : t'.depth = t.depth
  dropped : t'.dropped = t.dropped
  used : t'.droppedUsed = t.droppedUsed

theorem Streams.reserve (h : Streams t) {size : Nat} (hroom : room ≠ none) (hsize : size + 16 ≤ chunkSize) :
    ∃ t', t.reserve size room = some t' ∧ Reserved t t' := by
  unfold ProfThread.reserve
  split
  · next hfits => exact ⟨t, rfl, h, ⟨[], (List.append_nil _).symm, Or.inl rfl⟩, hfits.1, rfl, rfl, rfl⟩
  · obtain ⟨fresh, rfl⟩ := Option.ne_none_iff_exists'.1 hroom
    obtain ⟨hchunk, hdepth, hdropped, hused⟩ := nextChunk_other (t := t) fresh
    rw [if_neg (by omega)]
    exact ⟨_, rfl, Streams.nextChunk fresh, nextChunk_records h fresh, hchunk, hdepth, hdropped, hused⟩

theorem sum_map_set {l : List DroppedCall} (hi : i < l.length) (f : DroppedCall → Nat) (d : DroppedCall) :
    ((l.set i d).map f).sum + f (l.getD i ⟨0, 0⟩) = (l.map f).sum + f d := by
  induction l generalizing i with
  | nil => exact absurd hi (Nat.not_lt_zero i)
  | cons e l ih =>
    cases i with
    | zero =>
      rw [List.set_cons_zero, List.map_cons, List.map_cons, List.sum_cons, List.sum_cons, List.getD_cons_zero]
      omega
    | succ i =>
      have hrest := ih (Nat.lt_of_succ_lt_succ hi)
      rw [List.set_cons_succ, List.map_cons, List.map_cons, List.sum_cons, List.sum_cons, List.getD_cons_succ]
      omega

theorem countP_eq_sum (l : List DroppedCall) :
    l.countP (fun d => d.key ≠ 0) = (l.map fun d => if d.key ≠ 0 then 1 else 0).sum := by
  induction l with
  | nil => rfl
  | cons e l ih =>
    rw [List.countP_cons, List.map_cons, List.sum_cons, ih]
    by_cases he : e.key = 0
    · rw [if_neg (not_not.mpr he), if_neg (by simpa using he), Nat.add_zero, Nat.zero_add]
    · rw [if_pos he, if_pos (by simpa using he), Nat.add_comm]

theorem tabled_clear (t : ProfThread) : Tabled t.clearDropped where
  length := List.length_replicate
  used := by
    change (List.replicate droppedSlots (⟨0, 0⟩ : DroppedCall)).countP _ = 0
    rw [List.countP_replicate]
    rfl

theorem small_clear (t : ProfThread) : Small t.clearDropped := by
  intro d hd hkey
  rw [List.eq_of_mem_replicate hd] at hkey
  exact absurd rfl hkey

theorem tableCount_clear (t : ProfThread) : t.clearDropped.tableCount key = 0 := by
  have hzero : (if (0 : UInt64) = key then (0 : UInt32).toNat else 0) = 0 := ite_self 0
  change ((List.replicate droppedSlots (⟨0, 0⟩ : DroppedCall)).map _).sum = 0
  rw [List.map_replicate, hzero, List.sum_replicate_nat, Nat.mul_zero]

theorem length_droppedEntries {p : List UInt8} {n : Nat} : ∀ {i : Nat} {l : List (Nat × Nat)},
    droppedEntries p i n = some l → l.length = n := by
  induction n with
  | zero =>
    intro i l h
    cases h
    rfl
  | succ n ih =>
    intro i l h
    unfold droppedEntries at h
    simp only [Option.bind_eq_bind, Option.bind_eq_some_iff, Option.pure_def, Option.some.injEq] at h
    obtain ⟨_, -, _, -, rest, hrest, rfl⟩ := h
    rw [List.length_cons, ih hrest]

theorem length_droppedBytes (t : ProfThread) :
    t.droppedBytes.length = 16 * t.dropped.countP (fun d => d.key ≠ 0) := by
  unfold ProfThread.droppedBytes
  rw [List.countP_eq_length_filter]
  induction t.dropped.filter fun d => d.key ≠ 0 with
  | nil => rfl
  | cons d l ih =>
    rw [List.flatMap_cons, List.length_append, ih, List.length_append, length_bytes, length_bytes,
      List.length_cons]
    omega

theorem Tabled.entries (h : Tabled t) (memory : Nat → UInt8) (i : Nat) :
    droppedEntries (load (store memory i t.droppedBytes) i (16 * t.droppedUsed)) 0 t.droppedUsed =
      some ((t.dropped.filter fun d => d.key ≠ 0).map fun d => (d.key.toNat, d.count.toNat)) := by
  have hlength := length_droppedBytes t
  rw [h.used] at hlength
  rw [← hlength, load_store_self]
  have hused : t.droppedUsed = (t.dropped.filter fun d => d.key ≠ 0).length + 0 := by
    rw [← h.used, List.countP_eq_length_filter, Nat.add_zero]
  have hpayload : t.droppedBytes = [] ++ (t.dropped.filter fun d => d.key ≠ 0).flatMap DroppedCall.bytes ++ [] := by
    rw [List.append_nil]
    rfl
  obtain ⟨rest, hrest⟩ := droppedEntries_entries hpayload (show 16 * 0 ≤ 0 from Nat.zero_le _)
  rw [List.length_nil, ← hused] at hrest
  have hcount := length_droppedEntries hrest
  rw [List.length_append, List.length_map, hused] at hcount
  have hnil : rest = [] := List.eq_nil_of_length_eq_zero (by omega)
  rw [hrest, hnil, List.append_nil]

theorem countOf_table (l : List DroppedCall) (hkey : key ≠ 0) :
    countOf key.toNat ((l.filter fun d => d.key ≠ 0).map fun d => (d.key.toNat, d.count.toNat)) =
      (l.map fun d => if d.key = key then d.count.toNat else 0).sum := by
  unfold countOf
  rw [List.map_map]
  induction l with
  | nil => rfl
  | cons d l ih =>
    rw [List.map_cons, List.sum_cons, ← ih]
    by_cases hd : d.key = 0
    · rw [List.filter_cons_of_neg (by simpa using hd), if_neg, Nat.zero_add]
      rintro rfl
      exact hkey hd
    · rw [List.filter_cons_of_pos (by simpa using hd), List.map_cons, List.sum_cons]
      congr 1
      change (if d.key.toNat = key.toNat then d.count.toNat else 0) = _
      by_cases heq : d.key = key
      · rw [if_pos heq, if_pos (congrArg UInt64.toNat heq)]
      · rw [if_neg heq, if_neg fun hnat => heq (UInt64.toNat_inj.mp hnat)]

/-- The stream leaves open what the calls left open, and every call that was entered is kept, reported or still
in the table. With no exit of a call that is not recorded, the stream is nested. -/
structure Balanced (t : ProfThread) (o : OpenCalls) (clean : Prop) (entered : UInt64 → Nat) : Prop where
  streams : Streams t
  tabled : Tabled t
  depth : t.depth = o.depth
  opens : openOf t.records = o.stack
  nested : clean → Nested t.records
  counts : ∀ key, key ≠ 0 →
    enterCount key t.records + reportedCount key t.records + t.tableCount key = entered key

variable {o : OpenCalls} {clean : Prop} {entered : UInt64 → Nat}

theorem Balanced.append (h : Balanced t o clean entered) (hstreams : Streams t') (htabled : Tabled t')
    (hdropped : t'.dropped = t.dropped) {r : ProfRecord} (hrecords : t'.records = t.records ++ [r]) :
    Balanced t' ⟨t'.depth, openAfter o.stack r⟩ (clean ∧ (r.body = .exit → o.stack ≠ []))
      fun key => entered key + enterCount key [r] + reportedBy key r where
  streams := hstreams
  tabled := htabled
  depth := rfl
  opens := by rw [hrecords, openOf_append, h.opens]
  nested := by
    rintro ⟨hclean, hexit⟩
    rw [hrecords]
    exact (h.nested hclean).append (by rwa [h.opens])
  counts := by
    intro key hkey
    have hcount := h.counts key hkey
    have htable : t'.tableCount key = t.tableCount key := by
      unfold ProfThread.tableCount
      rw [hdropped]
    have hreported : reportedCount key [r] = reportedBy key r := Nat.add_zero _
    rw [hrecords, enterCount_append, reportedCount_append, htable, hreported]
    omega

theorem Balanced.append_quiet (h : Balanced t o clean entered) (hstreams : Streams t') (htabled : Tabled t')
    (hdropped : t'.dropped = t.dropped) (hdepth : t'.depth = t.depth) {r : ProfRecord} (hr : Quiet r)
    (hrecords : t'.records = t.records ++ [r]) : Balanced t' o clean entered := by
  have happend := h.append hstreams htabled hdropped hrecords
  refine ⟨hstreams, htabled, hdepth.trans h.depth, ?_, ?_, ?_⟩
  · rw [happend.opens]
    exact hr.openAfter _
  · exact fun hclean => happend.nested ⟨hclean, fun hexit => absurd hexit hr.not_exit⟩
  · intro key hkey
    rw [happend.counts key hkey, hr.enterCount, show reportedBy key r = 0 from hr.reportedCount key]
    rfl

theorem Tabled.congr (h : Tabled t) (hdropped : t'.dropped = t.dropped) (hused : t'.droppedUsed = t.droppedUsed) :
    Tabled t' := by
  constructor
  · rw [hdropped]
    exact h.length
  · rw [hdropped, hused]
    exact h.used

theorem Balanced.congr (h : Balanced t o clean entered) (hstreams : Streams t')
    (hdropped : t'.dropped = t.dropped) (hused : t'.droppedUsed = t.droppedUsed)
    (hrecords : t'.records = t.records) {depth : Int} (hdepth : t'.depth = depth) :
    Balanced t' ⟨depth, o.stack⟩ clean entered := by
  refine ⟨hstreams, h.tabled.congr hdropped hused, hdepth, ?_, ?_, ?_⟩
  · rw [hrecords]
    exact h.opens
  · rw [hrecords]
    exact h.nested
  · have htable : ∀ key, t'.tableCount key = t.tableCount key := by
      intro key
      unfold ProfThread.tableCount
      rw [hdropped]
    intro key hkey
    rw [hrecords, htable]
    exact h.counts key hkey

theorem Balanced.reserved (h : Balanced t o clean entered) (hreserved : Reserved t t') :
    Balanced t' o clean entered := by
  have htabled := h.tabled.congr hreserved.dropped hreserved.used
  obtain ⟨stalls, hrecords, rfl | ⟨r, rfl, hr⟩⟩ := hreserved.records
  · rw [List.append_nil] at hrecords
    exact h.congr hreserved.streams hreserved.dropped hreserved.used hrecords (hreserved.depth.trans h.depth)
  · exact h.append_quiet hreserved.streams htabled hreserved.dropped hreserved.depth hr hrecords

theorem records_put (t : ProfThread) (r : ProfRecord) : (t.put r).commit.records = t.records ++ [r] :=
  (List.append_assoc _ _ _).symm

theorem Balanced.record (h : Balanced t o clean entered) {r : ProfRecord} (hr : Quiet r)
    (hsize : r.size + 16 ≤ chunkSize) (hroom : room ≠ none) :
    Balanced (t.record r room) o clean entered := by
  obtain ⟨t', hreserve, hreserved⟩ := h.streams.reserve hroom hsize
  have h' := h.reserved hreserved
  unfold ProfThread.record
  rw [hreserve]
  exact h'.append_quiet (hreserved.streams.put_commit hreserved.chunk r) (h'.tabled.congr rfl rfl) rfl rfl hr
    (records_put t' r)

theorem Tabled.used_le (h : Tabled t) : t.droppedUsed ≤ droppedSlots := by
  rw [← h.used, ← h.length]
  exact List.countP_le_length

theorem Balanced.writeDropped (h : Balanced t o clean entered) (now : UInt64) (hroom : room ≠ none) :
    Balanced (t.writeDropped now room) o clean entered := by
  unfold ProfThread.writeDropped
  split
  · exact h
  · have hused := h.tabled.used_le
    have hsize : 16 + 16 * t.droppedUsed + 16 ≤ chunkSize := by
      unfold droppedSlots at hused
      unfold chunkSize
      omega
    obtain ⟨t', hreserve, hreserved⟩ := h.streams.reserve hroom hsize
    have h' := h.reserved hreserved
    have hbytes : t.droppedBytes = t'.droppedBytes := by
      unfold ProfThread.droppedBytes
      rw [hreserved.dropped]
    rw [hreserve]
    dsimp only
    rw [hbytes, ← hreserved.used]
    generalize hpayload :
      load (store t'.memory (t'.cur + 16) t'.droppedBytes) (t'.cur + 16) (16 * t'.droppedUsed) = payload
    have hreported : ∀ key, key ≠ 0 →
        reportedBy key ⟨tickMask now, .event (UInt32.ofNat eventDroppedCalls) payload⟩ = t'.tableCount key := by
      intro key hkey
      have hlength : payload.length / 16 = t'.droppedUsed := by
        rw [← hpayload, length_load, Nat.mul_div_cancel_left _ (by decide)]
      change (if UInt32.ofNat eventDroppedCalls = UInt32.ofNat eventDroppedCalls then
        countOf key.toNat ((droppedEntries payload 0 (payload.length / 16)).getD []) else 0) = _
      rw [if_pos rfl, hlength, ← hpayload, h'.tabled.entries t'.memory (t'.cur + 16), Option.getD_some]
      exact countOf_table t'.dropped hkey
    have hput : ∀ t'' : ProfThread, t''.clearDropped.records = t''.records := fun _ => rfl
    constructor
    · have hcommit := hreserved.streams.put_commit hreserved.chunk
        ⟨tickMask now, .event (UInt32.ofNat eventDroppedCalls) payload⟩
      exact hcommit.congr rfl rfl rfl rfl rfl rfl rfl
    · exact tabled_clear _
    · exact h'.depth
    · rw [hput, records_put, openOf_append]
      exact h'.opens
    · intro hclean
      rw [hput, records_put]
      exact (h'.nested hclean).append fun hexit => by cases hexit
    · intro key hkey
      have hcount := h'.counts key hkey
      have henters : enterCount key [⟨tickMask now, .event (UInt32.ofNat eventDroppedCalls) payload⟩] = 0 := rfl
      have hsingle : reportedCount key [⟨tickMask now, .event (UInt32.ofNat eventDroppedCalls) payload⟩] =
          t'.tableCount key := (Nat.add_zero _).trans (hreported key hkey)
      rw [hput, records_put, enterCount_append, reportedCount_append, henters, hsingle, tableCount_clear]
      omega

theorem writeDropped_clears (now : UInt64) (room : Option FreshChunk) (hused : t.droppedUsed ≠ 0) :
    (t.writeDropped now room).dropped = List.replicate droppedSlots ⟨0, 0⟩ ∧
      (t.writeDropped now room).droppedUsed = 0 := by
  unfold ProfThread.writeDropped
  rw [if_neg hused]
  split
  · exact ⟨rfl, rfl⟩
  · exact ⟨rfl, rfl⟩

theorem probeDropped_some {slot n : Nat} (h : t.probeDropped key slot n = some i) :
    i < droppedSlots ∧ ((t.dropped.getD i ⟨0, 0⟩).key = key ∨ (t.dropped.getD i ⟨0, 0⟩).key = 0) := by
  induction n with
  | zero => cases h
  | succ n ih =>
    unfold ProfThread.probeDropped at h
    dsimp only at h
    split at h
    · next hfound =>
      cases h
      exact ⟨Nat.mod_lt _ (by decide), hfound⟩
    · exact ih h

theorem probeDropped_none (htabled : Tabled t) {slot n : Nat} (h : t.probeDropped key slot (n + 1) = none) :
    t.droppedUsed ≠ 0 := by
  intro hused
  unfold ProfThread.probeDropped at h
  dsimp only at h
  split at h
  · cases h
  · next hfull =>
    rw [not_or] at hfull
    have hcount := htabled.used
    rw [hused, List.countP_eq_zero] at hcount
    have hlt : (slot + (droppedProbes - (n + 1))) % droppedSlots < t.dropped.length := by
      rw [htabled.length]
      exact Nat.mod_lt _ (by decide)
    rw [List.getD_eq_getElem?_getD, List.getElem?_eq_getElem hlt, Option.getD_some] at hfull
    exact hcount _ (List.getElem_mem hlt) (by simpa using hfull.2)

theorem Tabled.sum_set (h : Tabled t) (hi : i < droppedSlots) (f : DroppedCall → Nat) (d : DroppedCall) :
    ((t.dropped.set i d).map f).sum + f (t.dropped.getD i ⟨0, 0⟩) = (t.dropped.map f).sum + f d := by
  apply sum_map_set
  rwa [h.length]

theorem Balanced.claim (h : Balanced t o clean entered) (hkey : key ≠ 0) (hi : i < droppedSlots)
    (hfree : (t.dropped.getD i ⟨0, 0⟩).key = 0) :
    Balanced { t with dropped := t.dropped.set i ⟨key, 1⟩, droppedUsed := t.droppedUsed + 1 } o clean
      fun k => entered k + if key = k then 1 else 0 where
  streams := h.streams.congr rfl rfl rfl rfl rfl rfl rfl
  tabled := by
    refine ⟨List.length_set.trans h.tabled.length, ?_⟩
    have hsum := h.tabled.sum_set hi (fun d => if d.key ≠ 0 then 1 else 0) ⟨key, 1⟩
    rw [← countP_eq_sum, ← countP_eq_sum, h.tabled.used, if_neg (not_not.mpr hfree), if_pos hkey] at hsum
    exact hsum
  depth := h.depth
  opens := h.opens
  nested := h.nested
  counts := by
    intro k hk
    have hcount := h.counts k hk
    have hsum := h.tabled.sum_set hi (fun d => if d.key = k then d.count.toNat else 0) ⟨key, 1⟩
    rw [hfree, if_neg (Ne.symm hk)] at hsum
    change enterCount k t.records + reportedCount k t.records +
      ((t.dropped.set i ⟨key, 1⟩).map fun d => if d.key = k then d.count.toNat else 0).sum = _
    rw [Nat.add_zero] at hsum
    rw [hsum, ← Nat.add_assoc]
    exact congrArg (· + _) hcount

theorem Balanced.recount (h : Balanced t o clean entered) (hi : i < droppedSlots)
    (hfound : (t.dropped.getD i ⟨0, 0⟩).key = key)
    (hsmall : (t.dropped.getD i ⟨0, 0⟩).count.toNat + 1 < 2 ^ 32) :
    Balanced { t with dropped := t.dropped.set i ⟨key, (t.dropped.getD i ⟨0, 0⟩).count + 1⟩ } o clean
      fun k => entered k + if key = k then 1 else 0 where
  streams := h.streams.congr rfl rfl rfl rfl rfl rfl rfl
  tabled := by
    refine ⟨List.length_set.trans h.tabled.length, ?_⟩
    change (t.dropped.set i ⟨key, _⟩).countP _ = t.droppedUsed
    rw [← hfound, countP_set_count]
    exact h.tabled.used
  depth := h.depth
  opens := h.opens
  nested := h.nested
  counts := by
    intro k hk
    have hcount := h.counts k hk
    have hnext : ((t.dropped.getD i ⟨0, 0⟩).count + 1).toNat = (t.dropped.getD i ⟨0, 0⟩).count.toNat + 1 := by
      rw [UInt32.toNat_add]
      exact Nat.mod_eq_of_lt hsmall
    have hsum := h.tabled.sum_set hi (fun d => if d.key = k then d.count.toNat else 0)
      ⟨key, (t.dropped.getD i ⟨0, 0⟩).count + 1⟩
    dsimp only at hsum
    rw [hfound, hnext] at hsum
    change enterCount k t.records + reportedCount k t.records +
      ((t.dropped.set i _).map fun d => if d.key = k then d.count.toNat else 0).sum = _
    change _ + (t.dropped.map fun d => if d.key = k then d.count.toNat else 0).sum = _ at hcount
    split at hsum
    · next heq =>
      rw [if_pos heq]
      omega
    · next hne =>
      rw [if_neg hne]
      omega

theorem small_set {l : List DroppedCall} {e : DroppedCall}
    (hl : ∀ d ∈ l, d.key ≠ 0 → d.count.toNat + 1 < 2 ^ 32) (he : e.count.toNat + 1 < 2 ^ 32) :
    ∀ d ∈ l.set i e, d.key ≠ 0 → d.count.toNat + 1 < 2 ^ 32 := by
  intro d hd hkey
  rcases List.mem_or_eq_of_mem_set hd with hold | rfl
  · exact hl d hold hkey
  · exact he

theorem small_of_replicate (h : t.dropped = List.replicate droppedSlots ⟨0, 0⟩) : Small t := by
  intro d hd hkey
  rw [h] at hd
  rw [List.eq_of_mem_replicate hd] at hkey
  exact absurd rfl hkey

theorem Small.writeDropped (h : Small t) (now : UInt64) (room : Option FreshChunk) :
    Small (t.writeDropped now room) := by
  by_cases hused : t.droppedUsed = 0
  · unfold ProfThread.writeDropped
    rwa [if_pos hused]
  · exact small_of_replicate (writeDropped_clears now room hused).1

theorem Balanced.countDropped (h : Balanced t o clean entered) (hsmall : Small t) (hkey : key ≠ 0)
    (now : UInt64) (hroom : room ≠ none) :
    (Balanced (t.countDropped key now room) o clean fun k => entered k + if key = k then 1 else 0) ∧
      Small (t.countDropped key now room) := by
  have hslot : (key * 0x9E3779B97F4A7C15).toNat / 2 ^ 56 < droppedSlots := by
    have hlt := (key * 0x9E3779B97F4A7C15).toNat_lt
    unfold droppedSlots
    omega
  unfold ProfThread.countDropped
  dsimp only
  split
  · next hprobe =>
    have hused := probeDropped_none h.tabled hprobe
    obtain ⟨hcleared, -⟩ := writeDropped_clears now room hused
    have hwritten := h.writeDropped now hroom
    constructor
    · apply hwritten.claim hkey hslot
      rw [hcleared, List.getD_eq_getElem?_getD, List.getElem?_replicate, if_pos hslot]
      rfl
    · change ∀ d ∈ (t.writeDropped now room).dropped.set _ ⟨key, 1⟩, _
      exact small_set (hsmall.writeDropped now room) (show (1 : UInt32).toNat + 1 < 2 ^ 32 by decide)
  · next i hprobe =>
    obtain ⟨hi, hfound⟩ := probeDropped_some hprobe
    split
    · next hsame =>
      have hmem : t.dropped.getD i ⟨0, 0⟩ ∈ t.dropped := by
        have hlt : i < t.dropped.length := by rwa [h.tabled.length]
        rw [List.getD_eq_getElem?_getD, List.getElem?_eq_getElem hlt, Option.getD_some]
        exact List.getElem_mem hlt
      have hcount := hsmall _ hmem (by rwa [hsame])
      have hrecount := h.recount hi hsame hcount
      split
      · next hfull =>
        refine ⟨hrecount.writeDropped now hroom, small_of_replicate (writeDropped_clears now room ?_).1⟩
        intro hzero
        have hused := h.tabled.used
        rw [show t.droppedUsed = 0 from hzero, List.countP_eq_zero] at hused
        exact hused _ hmem (by rw [hsame]; simpa using hkey)
      · next hnot =>
        refine ⟨hrecount, ?_⟩
        change ∀ d ∈ t.dropped.set i _, _
        apply small_set hsmall
        have hnext : ((t.dropped.getD i ⟨0, 0⟩).count + 1).toNat =
            (t.dropped.getD i ⟨0, 0⟩).count.toNat + 1 := by
          rw [UInt32.toNat_add]
          exact Nat.mod_eq_of_lt hcount
        have hne : ((t.dropped.getD i ⟨0, 0⟩).count + 1).toNat ≠ (0xFFFFFFFF : UInt32).toNat := fun heq =>
          hnot (UInt32.toNat_inj.mp heq)
        have hmax : (0xFFFFFFFF : UInt32).toNat = 2 ^ 32 - 1 := rfl
        dsimp only
        omega
    · next hother =>
      have hfree := hfound.resolve_left hother
      refine ⟨h.claim hkey hi hfree, ?_⟩
      change ∀ d ∈ t.dropped.set i ⟨key, 1⟩, _
      exact small_set hsmall (show (1 : UInt32).toNat + 1 < 2 ^ 32 by decide)

theorem Streams.hold (h : Streams t) (hchunk : t.chunk = true) (tick : Nat) (hkey : key ≠ 0)
    {held : Option Nat} (hheld : held = some (t.held.getD t.cur)) (recording : Nat) (depth : Int) :
    Streams { t.put ⟨tick, .enter key⟩ with depth := depth, held := held, heldRecording := recording } where
  run := by
    obtain ⟨kept, run, hrun⟩ := h.run
    refine ⟨kept, run ++ [(tick, key)], ?_, ?_, ?_, ?_, ?_⟩
    · change t.written ++ [enterRecord (tick, key)] = _
      rw [hrun.written, List.map_append, List.append_assoc]
      rfl
    · change t.cur + (enterRecord (tick, key)).size = t.pos + 16 * (run ++ [(tick, key)]).length
      rw [hrun.cur, size_enterRecord, List.length_append, List.length_singleton]
      omega
    · intro i e he
      change load (store t.memory t.cur (enterRecord (tick, key)).bytes) (t.pos + 16 * i + 8) 8 = _
      rcases Nat.lt_or_ge i run.length with hlt | hge
      · rw [List.getElem?_append_left hlt] at he
        have hcur := hrun.cur
        rw [load_store_before (by omega)]
        exact hrun.keys i e he
      · rw [List.getElem?_append_right hge, List.getElem?_singleton] at he
        split at he
        · next hi =>
          cases he
          have hplace : t.pos + 16 * i + 8 = t.cur + 8 := by
            rw [hrun.cur]
            omega
          have hall := @load_store_self t.memory t.cur (enterRecord (tick, key)).bytes
          have hlength : (enterRecord (tick, key)).bytes.length = 8 + 8 := by
            change (bytes 8 _ ++ bytes 8 _).length = _
            rw [List.length_append, length_bytes, length_bytes]
          rw [hlength, load_add] at hall
          rw [hplace]
          exact (List.append_inj hall (by rw [length_load, length_bytes])).2
        · cases he
    · intro e he
      rcases List.mem_append.mp he with hold | hnew
      · exact hrun.nonzero e hold
      · rw [List.mem_singleton.mp hnew]
        exact hkey
    · change held = _
      have hne : run ++ [(tick, key)] ≠ [] := by simp
      rw [if_neg hne, hheld, hrun.held]
      split
      · next hnil =>
        rw [hrun.cur, hnil]
        rfl
      · rfl
  sized := by
    change t.readOffset + ((t.written ++ [_]).map ProfRecord.size).sum = t.cur + _
    rw [List.map_append, List.sum_append, ← Nat.add_assoc, h.sized]
    rfl
  read_le := h.read_le
  empty := by
    intro hnone
    change t.chunk = false at hnone
    rw [hchunk] at hnone
    cases hnone

end HashLink.Prof
