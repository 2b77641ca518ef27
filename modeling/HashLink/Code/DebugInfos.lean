import HashLink.Code.ReaderBounds
import Mathlib

/-!
What `hl_read_debug_infos` makes of its records. The loop only notes an error and goes on, so a repeat
that crosses the end still writes its entries, and opcodes that come before the first file record are
given the file -1 without an error.
-/

namespace HashLink.Code

open Sticky Transaction

/-- The four shapes of a record, with the numbers in them. -/
inductive DebugRecord where
  | file (index : Nat)
  | run (count delta : Nat)
  | step (delta : Nat)
  | line (line : Nat)
  deriving DecidableEq

def DebugRecord.count : DebugRecord → Nat
  | .file _ => 0
  | .run count _ => count
  | .step _ | .line _ => 1

def DebugRecord.bytes : DebugRecord → Nat
  | .file _ => 2
  | .run _ _ | .step _ => 1
  | .line _ => 3

def debugRecord (s : Nat → UInt8) : DebugRecord :=
  let c := (s 0).toNat
  if c &&& 1 ≠ 0 then .file ((c >>> 1) <<< 8 ||| (s 1).toNat)
  else if c &&& 2 ≠ 0 then .run ((c >>> 2) &&& 15) (c >>> 6)
  else if c &&& 4 ≠ 0 then .step (c >>> 3)
  else .line (c >>> 3 ||| (s 1).toNat <<< 5 ||| (s 2).toNat <<< 13)

/-- The records for `n` opcodes. -/
def debugRecords : Nat → Int → (Nat → UInt8) → List DebugRecord
  | 0, _, _ => []
  | fuel + 1, n, s =>
    if n ≤ 0 then []
    else debugRecord s :: debugRecords fuel (n - (debugRecord s).count) fun i => s (i + (debugRecord s).bytes)

def debugEntries : Int → Int → List DebugRecord → List (Int × Int)
  | _, _, [] => []
  | _, curline, .file index :: rest => debugEntries index curline rest
  | curfile, curline, .run count delta :: rest =>
    List.replicate count (curfile, curline) ++ debugEntries curfile (curline + delta) rest
  | curfile, curline, .step delta :: rest =>
    (curfile, curline + delta) :: debugEntries curfile (curline + delta) rest
  | curfile, _, .line line :: rest => (curfile, (line : Int)) :: debugEntries curfile line rest

def opcodes (records : List DebugRecord) : Nat := (records.map DebugRecord.count).sum

def byteCount (records : List DebugRecord) : Nat := (records.map DebugRecord.bytes).sum

def FilesInside (ndebugfiles : Nat) (records : List DebugRecord) : Prop :=
  ∀ index, .file index ∈ records → index < ndebugfiles

def FileFirst : List DebugRecord → Prop
  | [] | .file _ :: _ => True
  | record :: rest => record.count = 0 ∧ FileFirst rest

theorem debugEntries_length (curfile curline : Int) (records : List DebugRecord) :
    (debugEntries curfile curline records).length = opcodes records := by
  induction records generalizing curfile curline with
  | nil => rfl
  | cons record rest ih =>
    cases record <;>
      simp only [debugEntries, opcodes, List.map_cons, List.sum_cons, DebugRecord.count,
        List.length_append, List.length_replicate, List.length_cons, ih] <;> omega

variable {ndebugfiles : Nat} {record : DebugRecord}

theorem debugEntries_inside {records : List DebugRecord} (hfiles : FilesInside ndebugfiles records)
    {curfile curline : Int} (hcur : FileFirst records ∨ 0 ≤ curfile ∧ curfile < ndebugfiles) :
    ∀ e ∈ debugEntries curfile curline records, 0 ≤ e.1 ∧ e.1 < ndebugfiles := by
  induction records generalizing curfile curline with
  | nil => exact fun e he => absurd he List.not_mem_nil
  | cons record rest ih =>
    have hrest : FilesInside ndebugfiles rest := fun i hi => hfiles i (List.mem_cons_of_mem _ hi)
    cases record with
    | file index =>
      have hlt := hfiles index List.mem_cons_self
      exact ih hrest (.inr ⟨Int.natCast_nonneg _, by omega⟩)
    | run count delta =>
      intro e he
      rcases List.mem_append.mp he with he | he
      · obtain ⟨hcount, rfl⟩ := List.mem_replicate.mp he
        exact hcur.resolve_left fun hfirst => hcount hfirst.1
      · exact ih hrest (hcur.imp_left And.right) e he
    | step delta =>
      have hin := hcur.resolve_left fun hfirst => absurd hfirst.1 Nat.one_ne_zero
      exact List.forall_mem_cons.mpr ⟨hin, ih hrest (.inr hin)⟩
    | line line =>
      have hin := hcur.resolve_left fun hfirst => absurd hfirst.1 Nat.one_ne_zero
      exact List.forall_mem_cons.mpr ⟨hin, ih hrest (.inr hin)⟩

theorem debugEntries_before {records : List DebugRecord} (hfirst : ¬FileFirst records)
    (curfile curline : Int) : ∃ e ∈ debugEntries curfile curline records, e.1 = curfile := by
  induction records generalizing curline with
  | nil => exact absurd trivial hfirst
  | cons record rest ih =>
    cases record with
    | file index => exact absurd trivial hfirst
    | run count delta =>
      by_cases hzero : count = 0
      · obtain ⟨e, he, heq⟩ := ih (fun hrest => hfirst ⟨hzero, hrest⟩) (curline + delta)
        exact ⟨e, List.mem_append_right _ he, heq⟩
      · exact ⟨(curfile, curline), List.mem_append_left _ (List.mem_replicate.mpr ⟨hzero, rfl⟩), rfl⟩
    | step delta => exact ⟨_, List.mem_cons_self, rfl⟩
    | line line => exact ⟨_, List.mem_cons_self, rfl⟩

/-- The cursor of the reader is in its buffer. -/
structure HlReader.Inside (r : HlReader) : Prop where
  low : 0 ≤ r.pos
  high : r.pos ≤ r.size
  size : r.size < 2 ^ 31

def HlReader.byte (r : HlReader) (i : Nat) : UInt8 := if r.pos + i < r.size then r.b (r.pos + i) else 0

def HlReader.left (r : HlReader) : Nat := (r.size - r.pos).toNat

variable {r r' : HlReader}

/-- The reader `r` after `k` bytes: without an error if it had none and there were so many. -/
structure HlReader.After (r : HlReader) (k : Nat) (r' : HlReader) : Prop where
  inside : r'.Inside
  byte : r'.byte = fun i => r.byte (i + k)
  left : r'.left = r.left - k
  error : r'.error = none ↔ r.error = none ∧ k ≤ r.left

theorem HlReader.Inside.note (h : r.Inside) (message : String) : (r.note message).Inside :=
  ⟨h.low, h.high, h.size⟩

theorem hlReadB_after (h : r.Inside) : ∃ r', hlReadB r = .ok (r.byte 0) r' ∧ r.After 1 r' := by
  obtain ⟨hlow, hhigh, hsize⟩ := h
  by_cases hend : r.size ≤ r.pos
  · refine ⟨r.note "No more data", ?_, ⟨hlow, hhigh, hsize⟩, ?_, ?_, ?_⟩
    · rw [HlReader.byte, if_neg (by omega)]
      show (if r.size ≤ r.pos then _ else _ : ReadM UInt8) r = _
      rw [if_pos hend]
      rfl
    · funext i
      have hout : ∀ k : Nat, r.byte k = 0 := fun k => if_neg (by omega)
      exact (hout i).trans (hout (i + 1)).symm
    · show (r.size - r.pos).toNat = (r.size - r.pos).toNat - 1
      omega
    · refine iff_of_false (fun h => by cases h) fun h => ?_
      have hle : 1 ≤ (r.size - r.pos).toNat := h.2
      omega
  · have hsum : addInt r.pos 1 = r.pos + 1 := addInt_eq (by omega) (by omega)
    refine ⟨r.access 1, ?_, ⟨?_, ?_, hsize⟩, ?_, ?_, ?_⟩
    · rw [HlReader.byte, if_pos (by omega)]
      show (if r.size ≤ r.pos then _ else _ : ReadM UInt8) r = _
      rw [if_neg hend, Int.natCast_zero, Int.add_zero]
      rfl
    · show 0 ≤ addInt r.pos 1
      omega
    · show addInt r.pos 1 ≤ r.size
      omega
    · funext i
      show (if addInt r.pos 1 + i < r.size then r.b (addInt r.pos 1 + i) else 0) = _
      rw [hsum, Int.add_assoc, Int.add_comm 1]
      rfl
    · show (r.size - addInt r.pos 1).toNat = (r.size - r.pos).toNat - 1
      omega
    · refine (and_iff_left ?_).symm
      show 1 ≤ (r.size - r.pos).toNat
      omega

theorem HlReader.After.trans {r'' : HlReader} {j k : Nat} (h : r.After j r') (h' : r'.After k r'') :
    r.After (j + k) r'' := by
  obtain ⟨-, hbyte, hleft, herror⟩ := h
  obtain ⟨hinside, hbyte', hleft', herror'⟩ := h'
  refine ⟨hinside, ?_, by omega, ?_⟩
  · rw [hbyte', hbyte]
    funext i
    show r.byte (i + k + j) = r.byte (i + (j + k))
    rw [Nat.add_assoc, Nat.add_comm k]
  · rw [herror', herror, and_assoc]
    refine and_congr_right fun _ => ?_
    omega

/-- What notes an error for the records of `n` opcodes. -/
structure Clean (ndebugfiles : Nat) (n : Int) (left : Nat) (records : List DebugRecord) : Prop where
  files : FilesInside ndebugfiles records
  fits : n ≤ 0 ∨ (opcodes records : Int) ≤ n
  bytes : byteCount records ≤ left

theorem debugRecords_of_le {fuel : Nat} {n : Int} (h : n ≤ 0) (s : Nat → UInt8) :
    debugRecords fuel n s = [] := by
  cases fuel with
  | zero => rfl
  | succ fuel => exact if_pos h

theorem clean_cons {left fuel : Nat} {n : Int} {s : Nat → UInt8} (hn : ¬n ≤ 0) :
    Clean ndebugfiles n left (record :: debugRecords fuel (n - record.count) s) ↔
      (FilesInside ndebugfiles [record] ∧ record.count ≤ n ∧ record.bytes ≤ left) ∧
        Clean ndebugfiles (n - record.count) (left - record.bytes)
          (debugRecords fuel (n - record.count) s) := by
  have hop : opcodes (record :: debugRecords fuel (n - record.count) s) =
      record.count + opcodes (debugRecords fuel (n - record.count) s) := rfl
  have hby : byteCount (record :: debugRecords fuel (n - record.count) s) =
      record.bytes + byteCount (debugRecords fuel (n - record.count) s) := rfl
  have hdone : n - record.count ≤ 0 → opcodes (debugRecords fuel (n - record.count) s) = 0 :=
    fun h => by rw [debugRecords_of_le h]; rfl
  constructor
  · rintro ⟨hfiles, hfits, hbytes⟩
    exact ⟨⟨fun i hi => hfiles i (List.mem_cons.mpr (.inl (List.mem_singleton.mp hi))), by omega, by omega⟩,
      fun i hi => hfiles i (List.mem_cons_of_mem _ hi), by omega, by omega⟩
  · rintro ⟨⟨hfile, hcount, hbyte⟩, hfiles, hfits, hbytes⟩
    refine ⟨fun i hi => ?_, by omega, by omega⟩
    rcases List.mem_cons.mp hi with heq | hi
    · exact hfile i (List.mem_singleton.mpr heq)
    · exact hfiles i hi

theorem noteIf (r : HlReader) (c : Prop) [Decidable c] (message : String) :
    ∃ r', (∀ k : Unit → ReadM (List (Int × Int)),
        (if c then hlError message >>= k else k () : ReadM _) r = k () r') ∧
      (r.Inside → r'.Inside) ∧ r'.byte = r.byte ∧ r'.left = r.left ∧
      (r'.error = none ↔ r.error = none ∧ ¬c) := by
  by_cases hc : c
  · refine ⟨r.note message, fun k => ?_, fun h => h.note message, rfl, rfl,
      iff_of_false (fun h => by cases h) fun h => h.2 hc⟩
    rw [if_pos hc]
    rfl
  · refine ⟨r, fun k => ?_, id, rfl, rfl, (and_iff_left hc).symm⟩
    rw [if_neg hc]

theorem clean_step {fuel : Nat} {n : Int} {r₁ r₂ : HlReader} {c : Prop} (hn : ¬n ≤ 0)
    (hafter : r.After record.bytes r₁) (hbyte : r₂.byte = r₁.byte) (hleft : r₂.left = r₁.left)
    (hnote : r₂.error = none ↔ r₁.error = none ∧ ¬c)
    (hc : ¬c ↔ FilesInside ndebugfiles [record] ∧ record.count ≤ n)
    (hrest : r'.error = none ↔ r₂.error = none ∧ Clean ndebugfiles (n - record.count) r₂.left
      (debugRecords fuel (n - record.count) r₂.byte)) :
    r'.error = none ↔ r.error = none ∧ Clean ndebugfiles n r.left
      (record :: debugRecords fuel (n - record.count) fun i => r.byte (i + record.bytes)) := by
  rw [clean_cons hn, hrest, hnote, hbyte, hleft, hafter.error, hafter.byte, hafter.left, hc]
  tauto

theorem filesInside_of_ne (h : ∀ index, record ≠ .file index) :
    FilesInside ndebugfiles [record] :=
  fun index hindex => absurd (List.mem_singleton.mp hindex).symm (h index)

theorem filesInside_file {index : Nat} :
    FilesInside ndebugfiles [.file index] ↔ index < ndebugfiles := by
  refine ⟨fun h => h index List.mem_cons_self, fun h i hi => ?_⟩
  cases List.mem_singleton.mp hi
  exact h

theorem debugLoop_spec {fuel : Nat} {n curfile curline : Int} {debug : List (Int × Int)} (hr : r.Inside) :
    ∃ r', debugLoop ndebugfiles fuel n curfile curline debug r =
        .ok (debug ++ debugEntries curfile curline (debugRecords fuel n r.byte)) r' ∧
      (r'.error = none ↔ r.error = none ∧ Clean ndebugfiles n r.left (debugRecords fuel n r.byte)) := by
  induction fuel generalizing n curfile curline debug r with
  | zero =>
    refine ⟨r, by rw [debugRecords, debugEntries, List.append_nil]; rfl, (and_iff_left ?_).symm⟩
    exact ⟨fun i hi => absurd hi List.not_mem_nil, by
      show n ≤ 0 ∨ (0 : Int) ≤ n
      omega, Nat.zero_le _⟩
  | succ fuel ih =>
    by_cases hn : n ≤ 0
    · rw [debugRecords_of_le hn, debugLoop, if_pos hn, debugEntries, List.append_nil]
      exact ⟨r, rfl, (and_iff_left ⟨fun i hi => absurd hi List.not_mem_nil, .inl hn, Nat.zero_le _⟩).symm⟩
    rw [debugRecords, if_neg hn, debugLoop, if_neg hn]
    obtain ⟨r₁, hread₁, hafter₁⟩ := hlReadB_after hr
    by_cases hfile : (r.byte 0).toNat &&& 1 ≠ 0
    · -- another file
      obtain ⟨r₂, hread₂, hafter₂⟩ := hlReadB_after hafter₁.inside
      rw [hafter₁.byte] at hread₂
      have hrecord : debugRecord r.byte = .file (((r.byte 0).toNat >>> 1) <<< 8 ||| (r.byte 1).toNat) :=
        if_pos hfile
      rw [hrecord]
      obtain ⟨r₃, hcheck, hinside, hbyte, hleft, hnote⟩ := noteIf r₂
        (ndebugfiles ≤ ((r.byte 0).toNat >>> 1) <<< 8 ||| (r.byte 1).toNat) "Invalid debug file"
      have hafter := hafter₁.trans hafter₂
      obtain ⟨r', hrun, herror⟩ := @ih r₃ n (((r.byte 0).toNat >>> 1) <<< 8 ||| (r.byte 1).toNat : Nat) curline
        debug (hinside hafter₂.inside)
      refine ⟨r', bind_eq_ok.mpr ⟨_, _, hread₁, ?_⟩, ?_⟩
      · show (if _ then _ else _ : ReadM _) r₁ = _
        rw [if_pos hfile]
        refine bind_eq_ok.mpr ⟨_, _, hread₂, (hcheck _).trans (hrun.trans ?_)⟩
        rw [hbyte, hafter.byte, DebugRecord.count, Int.natCast_zero, Int.sub_zero]
        rfl
      · refine clean_step hn hafter hbyte hleft hnote ?_ ?_
        · rw [filesInside_file, Nat.not_le]
          exact (and_iff_left (by rw [DebugRecord.count]; omega)).symm
        · rw [DebugRecord.count, Int.natCast_zero, Int.sub_zero]
          exact herror
    by_cases hrun : (r.byte 0).toNat &&& 2 ≠ 0
    · -- a repeat, which is written whether it crosses the end or not
      have hrecord : debugRecord r.byte = .run (((r.byte 0).toNat >>> 2) &&& 15) ((r.byte 0).toNat >>> 6) :=
        (if_neg hfile).trans (if_pos hrun)
      rw [hrecord]
      generalize hcount : ((r.byte 0).toNat >>> 2) &&& 15 = count
      generalize hdelta : (r.byte 0).toNat >>> 6 = delta
      obtain ⟨r₂, hcheck, hinside, hbyte, hleft, hnote⟩ := noteIf r₁ (n < (count : Int)) "Outside range"
      obtain ⟨r', hloop, herror⟩ := @ih r₂ (n - count) curfile (curline + delta)
        (debug ++ List.replicate count (curfile, curline)) (hinside hafter₁.inside)
      refine ⟨r', bind_eq_ok.mpr ⟨_, _, hread₁, ?_⟩, clean_step hn hafter₁ hbyte hleft hnote ?_ herror⟩
      · show (if _ then _ else _ : ReadM _) r₁ = _
        rw [if_neg hfile, if_pos hrun, hcount, hdelta]
        refine (hcheck _).trans (hloop.trans ?_)
        rw [hbyte, hafter₁.byte, debugEntries, List.append_assoc]
        rfl
      · rw [and_iff_right (filesInside_of_ne (fun _ h => by cases h)), Int.not_lt]
        rfl
    by_cases hstep : (r.byte 0).toNat &&& 4 ≠ 0
    · have hrecord : debugRecord r.byte = .step ((r.byte 0).toNat >>> 3) :=
        (if_neg hfile).trans ((if_neg hrun).trans (if_pos hstep))
      rw [hrecord]
      obtain ⟨r', hloop, herror⟩ := @ih r₁ (n - 1) curfile (curline + ((r.byte 0).toNat >>> 3 : Nat))
        (debug ++ [(curfile, curline + ((r.byte 0).toNat >>> 3 : Nat))]) hafter₁.inside
      refine ⟨r', bind_eq_ok.mpr ⟨_, _, hread₁, ?_⟩,
        clean_step (c := False) hn hafter₁ rfl rfl (and_iff_left not_false).symm ?_ herror⟩
      · show (if _ then _ else _ : ReadM _) r₁ = _
        rw [if_neg hfile, if_neg hrun, if_pos hstep]
        refine hloop.trans ?_
        rw [hafter₁.byte, debugEntries, List.append_assoc]
        rfl
      · refine iff_of_true not_false ⟨filesInside_of_ne (fun _ h => by cases h), ?_⟩
        rw [DebugRecord.count]
        omega
    · -- a line of its own
      obtain ⟨r₂, hread₂, hafter₂⟩ := hlReadB_after hafter₁.inside
      obtain ⟨r₃, hread₃, hafter₃⟩ := hlReadB_after hafter₂.inside
      have hafter := (hafter₁.trans hafter₂).trans hafter₃
      rw [(hafter₁.trans hafter₂).byte] at hread₃
      rw [hafter₁.byte] at hread₂
      have hrecord : debugRecord r.byte = .line
          ((r.byte 0).toNat >>> 3 ||| (r.byte 1).toNat <<< 5 ||| (r.byte 2).toNat <<< 13) :=
        (if_neg hfile).trans ((if_neg hrun).trans (if_neg hstep))
      rw [hrecord]
      obtain ⟨r', hloop, herror⟩ := @ih r₃ (n - 1) curfile
        ((r.byte 0).toNat >>> 3 ||| (r.byte 1).toNat <<< 5 ||| (r.byte 2).toNat <<< 13 : Nat)
        (debug ++ [(curfile,
          (((r.byte 0).toNat >>> 3 ||| (r.byte 1).toNat <<< 5 ||| (r.byte 2).toNat <<< 13 : Nat) : Int))])
        hafter₃.inside
      refine ⟨r', bind_eq_ok.mpr ⟨_, _, hread₁, ?_⟩,
        clean_step (c := False) hn hafter rfl rfl (and_iff_left not_false).symm ?_ herror⟩
      · show (if _ then _ else _ : ReadM _) r₁ = _
        rw [if_neg hfile, if_neg hrun, if_neg hstep]
        refine bind_eq_ok.mpr ⟨_, _, hread₂, bind_eq_ok.mpr ⟨_, _, hread₃, hloop.trans ?_⟩⟩
        rw [hafter.byte, debugEntries, List.append_assoc]
        rfl
      · refine iff_of_true not_false ⟨filesInside_of_ne (fun _ h => by cases h), ?_⟩
        rw [DebugRecord.count]
        omega

/-- The records the buffer has from the cursor on, for `nops` opcodes. -/
def HlReader.debugRecords (r : HlReader) (nops : Nat) : List DebugRecord :=
  Code.debugRecords (nops + r.left + 1) nops r.byte

/-- Nothing is written outside `2 * nops`, every opcode has been given an entry, and without an error
the files are those of the table. -/
structure DebugInfosRead (ndebugfiles nops : Nat) (debug : List (Int × Int)) (r' : HlReader) : Prop where
  inside : debug.length ≤ nops
  ended : nops ≤ debug.length
  files : r'.error ≠ none ∨ ∀ e ∈ debug, 0 ≤ e.1 ∧ e.1 < ndebugfiles

theorem hlReadDebugInfos_run (hr : r.Inside) (ndebugfiles nops : Nat) :
    ∃ r', hlReadDebugInfos ndebugfiles nops r = .ok (debugEntries (-1) 0 (r.debugRecords nops)) r' ∧
      nops ≤ opcodes (r.debugRecords nops) ∧
      (r'.error = none ↔ r.error = none ∧ Clean ndebugfiles nops r.left (r.debugRecords nops)) := by
  obtain ⟨r', hrun, herror⟩ :=
    @debugLoop_spec ndebugfiles r (nops + r.left + 1) nops (-1) 0 [] hr
  have hlow := hr.low
  have hended := hlReadDebugInfos_length hr.size (by omega) hrun
  rw [List.nil_append, debugEntries_length] at hended
  exact ⟨r', hrun, hended, herror⟩

/-- `hl_read_debug_infos` keeps to its output and fills it with files of the table, or reports an error,
exactly when no repeat crosses the end and a file comes before the first opcode, unless a file is not in
the table or the buffer is too short. -/
theorem hlReadDebugInfos_iff (hr : r.Inside) (hclean : r.error = none) (ndebugfiles nops : Nat) :
    (∃ debug r', hlReadDebugInfos ndebugfiles nops r = .ok debug r' ∧
        DebugInfosRead ndebugfiles nops debug r') ↔
      opcodes (r.debugRecords nops) ≤ nops ∧ (FileFirst (r.debugRecords nops) ∨
        ¬FilesInside ndebugfiles (r.debugRecords nops) ∨ r.left < byteCount (r.debugRecords nops)) := by
  obtain ⟨r', hrun, hended, herror⟩ := hlReadDebugInfos_run hr ndebugfiles nops
  constructor
  · rintro ⟨debug, s, hrun', hinside, -, hfiles⟩
    cases hrun.symm.trans hrun'
    rw [debugEntries_length] at hinside
    refine ⟨hinside, or_iff_not_imp_left.mpr fun hfirst => ?_⟩
    by_contra hneither
    obtain ⟨hin, hfits⟩ := not_or.mp hneither
    have hnone : r'.error = none :=
      herror.mpr ⟨hclean, not_not.mp hin, .inr (by omega), by omega⟩
    obtain ⟨e, he, hminus⟩ := debugEntries_before hfirst (-1) 0
    have hlow := ((hfiles.resolve_left fun hsome => hsome hnone) e he).1
    omega
  · rintro ⟨hcount, hcases⟩
    refine ⟨_, r', hrun, ?_, ?_, or_iff_not_imp_left.mpr fun hnone => ?_⟩
    · rw [debugEntries_length]
      exact hcount
    · rw [debugEntries_length]
      exact hended
    · obtain ⟨-, hin, -, hfits⟩ := herror.mp (Decidable.not_not.mp hnone)
      rcases hcases with hfirst | hout | hshort
      · exact debugEntries_inside hin (.inl hfirst)
      · exact absurd hin hout
      · omega

def readerOf (bytes : List UInt8) : HlReader :=
  HlReader.start (fun i => bytes.getD i.toNat 0) bytes.length fun _ => 0

theorem readerOf_inside (bytes : List UInt8) (h : bytes.length < 2 ^ 31) : (readerOf bytes).Inside :=
  ⟨Int.le_refl _, Int.natCast_nonneg _, show (bytes.length : Int) < 2 ^ 31 by omega⟩

/-- A file, and a repeat for the two opcodes. -/
theorem hlReadDebugInfos_repeat : ∃ debug r', hlReadDebugInfos 1 2 (readerOf [1, 0, 10]) = .ok debug r' ∧
    DebugInfosRead 1 2 debug r' :=
  (hlReadDebugInfos_iff (readerOf_inside _ (by decide)) rfl 1 2).mpr ⟨by decide, .inl trivial⟩

/-- A repeat of fifteen for one opcode, and an opcode without a file. -/
theorem hlReadDebugInfos_outside :
    (¬∃ debug r', hlReadDebugInfos 1 1 (readerOf [62]) = .ok debug r' ∧ DebugInfosRead 1 1 debug r') ∧
    ¬∃ debug r', hlReadDebugInfos 1 1 (readerOf [4]) = .ok debug r' ∧ DebugInfosRead 1 1 debug r' := by
  constructor
  · rintro ⟨debug, r', hrun, hinside, -⟩
    obtain ⟨s, hrun', -⟩ := hlReadDebugInfos_run (readerOf_inside [62] (by decide)) 1 1
    cases hrun'.symm.trans hrun
    exact absurd hinside (by decide)
  · rintro ⟨debug, r', hrun, -, -, hfiles⟩
    obtain ⟨s, hrun', -, herror⟩ := hlReadDebugInfos_run (readerOf_inside [4] (by decide)) 1 1
    cases hrun'.symm.trans hrun
    have hclean : Clean 1 (1 : Nat) (readerOf [4]).left ((readerOf [4]).debugRecords 1) :=
      ⟨@filesInside_of_ne 1 (.step 0) fun _ h => (by cases h), .inr (by decide), by decide⟩
    have hentry := (hfiles.resolve_left fun hsome => hsome (herror.mpr ⟨rfl, hclean⟩)) (-1, 0) (by decide)
    exact absurd hentry.1 (by decide)

end HashLink.Code
