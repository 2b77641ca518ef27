import HashLink.Export.FrameDrops
import HashLink.Prof.DropRuns

/-!
The frames of a run. A dropped call is credited to the frame it was dropped in, unless the table is written right after
a boundary that found it empty.
-/

namespace HashLink.FrameDrops

open Prof LittleEndian

/-- `hl_prof_exit` drops the call. -/
def Short (minCall : UInt64) (t : ProfThread) (env : WriterEnv) : Prop :=
  t.held ≠ none ∧ t.heldRecording = env.recordingChanges ∧
    (tickMask env.now + 2 ^ 64 - value (load t.memory (t.cur - 16) 8) % 2 ^ 56) % 2 ^ 64 < minCall.toNat

instance (minCall : UInt64) (t : ProfThread) (env : WriterEnv) : Decidable (Short minCall t env) :=
  inferInstanceAs (Decidable (_ ∧ _ ∧ _))

/-- The thread without its last `ENTER`. -/
def takenBack (t : ProfThread) : ProfThread :=
  { t with
    cur := t.cur - 16
    held := if t.held = some (t.cur - 16) then none else t.held
    depth := t.depth - 1
    written := t.written.dropLast }

def takenKey (t : ProfThread) : UInt64 := UInt64.ofNat (value (load t.memory (t.cur - 8) 8))

def writes (t : ProfThread) (key : UInt64) : Bool :=
  match t.probeDropped key ((key * 0x9E3779B97F4A7C15).toNat / 2 ^ 56) droppedProbes with
  | none => true
  | some at_ => (t.dropped.getD at_ ⟨0, 0⟩).key = key ∧ (t.dropped.getD at_ ⟨0, 0⟩).count + 1 = 0xFFFFFFFF

def FrameCount.drop (f : FrameCount) : FrameCount := { f with dropped := f.dropped + 1 }

def FrameCount.step (minCall : UInt64) (t : ProfThread) (f : FrameCount) : ProfStep → FrameCount
  | .call (.frame _ frameSet env) => if frameSet = 0 then f.close (tickMask env.now) else f
  | .call (.exit env) => if Short minCall t env then f.drop else f
  | _ => f

def runFrames (minCall : UInt64) (depth : Int) (steps : List ProfStep) : ProfThread × FrameCount :=
  steps.foldl (fun (t, f) s => (t.step minCall s, f.step minCall t s))
    ({ ProfThread.start with depth := depth }, ⟨[], 0, 0⟩)

/-- The table is not written right after a boundary that found it empty. The first boundary is that of a frame, and each
has a later tick than the one before it. -/
def Attributed (minCall : UInt64) (t : ProfThread) (f : FrameCount) : ProfStep → Prop
  | .call (.exit env) =>
    Short minCall t env → atBoundary (takenBack t).records = true → writes (takenBack t) (takenKey t) = false
  | .call (.release _) => atBoundary t.records = true → t.droppedUsed = 0
  | .call (.frame idle frameSet env) =>
    frameSet = 0 → (f.closed = [] → idle = false) ∧ f.start < tickMask env.now
  | _ => True

def tableTotal (t : ProfThread) : Nat := (t.dropped.map fun d => if d.key ≠ 0 then d.count.toNat else 0).sum

/-- What the exporter has of the thread's frames. -/
def Credited (tid : UInt32) (t : ProfThread) (f : FrameCount) : Prop :=
  Credits (({} : FrameScan).scanPass1 tid t.records) tid f (tableTotal t)

variable {tid : UInt32} {t t' : ProfThread} {f : FrameCount} {o : OpenCalls} {clean : Prop}
  {entered : UInt64 → Nat} {r : ProfRecord}

theorem scanPass1_stalls {s : FrameScan} {stalls : List ProfRecord} (h : OnlyStall stalls) :
    s.scanPass1 tid stalls = s := by
  rcases h with rfl | ⟨start, ended, rfl⟩
  · rfl
  · rfl

theorem Credited.congr (h : Credited tid t f) (hrecords : t'.records = t.records) (hdropped : t'.dropped = t.dropped) :
    Credited tid t' f := by
  unfold Credited tableTotal
  rw [hrecords, hdropped]
  exact h

theorem Credited.append (h : Credited tid t f) (hr : Neutral r) (hrecords : t'.records = t.records ++ [r])
    (hdropped : t'.dropped = t.dropped) : Credited tid t' f := by
  unfold Credited tableTotal
  rw [hrecords, hdropped, FrameScan.scanPass1_concat]
  exact Credits.neutral h hr

variable {room : Option FreshChunk} {env : WriterEnv} {steps : List ProfStep}

theorem Credited.reserve (h : Credited tid t f) (hstreams : Streams t) {size : Nat}
    (hreserve : t.reserve size room = some t') : Credited tid t' f := by
  obtain ⟨stalls, hrecords, hstalls⟩ := reserve_stalls hstreams hreserve
  unfold Credited tableTotal
  rw [hrecords, reserve_dropped hreserve, FrameScan.scanPass1_append, scanPass1_stalls hstalls]
  exact h

theorem Credited.record (h : Credited tid t f) (hstreams : Streams t) (hr : Neutral r) (room : Option FreshChunk) :
    Credited tid (t.record r room) f := by
  unfold ProfThread.record
  split
  · exact h
  · next t₁ hreserve => exact (h.reserve hstreams hreserve).append hr (records_put t₁ r) rfl

theorem tableTotal_clear (t : ProfThread) : tableTotal t.clearDropped = 0 := by
  change ((List.replicate droppedSlots (⟨0, 0⟩ : DroppedCall)).map _).sum = 0
  rw [List.map_replicate, List.sum_replicate_nat]
  rfl

theorem tableTotal_empty (htabled : Tabled t) (hused : t.droppedUsed = 0) : tableTotal t = 0 := by
  have hnone := htabled.used
  rw [hused, List.countP_eq_zero] at hnone
  have hzero : (t.dropped.map fun d => if d.key ≠ 0 then d.count.toNat else 0) = t.dropped.map fun _ => 0 :=
    List.map_congr_left fun d hd => if_neg fun hkey => hnone d hd (decide_eq_true hkey)
  unfold tableTotal
  rw [hzero, List.map_const', List.sum_replicate_nat, Nat.mul_zero]

theorem sum_filter_counts (l : List DroppedCall) :
    (((l.filter fun d => d.key ≠ 0).map fun d => (d.key.toNat, d.count.toNat)).map Prod.snd).sum =
      (l.map fun d => if d.key ≠ 0 then d.count.toNat else 0).sum := by
  induction l with
  | nil => rfl
  | cons d l ih =>
    rw [List.map_cons, List.sum_cons, ← ih]
    by_cases hd : d.key = 0
    · rw [List.filter_cons_of_neg (by simpa using hd), if_neg (not_not.2 hd), Nat.zero_add]
    · rw [List.filter_cons_of_pos (by simpa using hd), List.map_cons, List.map_cons, List.sum_cons, if_pos hd]

theorem writeDropped_event (hstreams : Streams t) (htabled : Tabled t) (now : UInt64) (hroom : room ≠ none)
    (hused : t.droppedUsed ≠ 0) : ∃ stalls payload, OnlyStall stalls ∧
      (t.writeDropped now room).records =
        t.records ++ stalls ++ [⟨tickMask now, .event (UInt32.ofNat eventDroppedCalls) payload⟩] ∧
      droppedTotal payload = tableTotal t ∧ tableTotal (t.writeDropped now room) = 0 := by
  have hle := htabled.used_le
  have hsize : 16 + 16 * t.droppedUsed + 16 ≤ chunkSize := by
    unfold droppedSlots at hle
    unfold chunkSize
    omega
  obtain ⟨t₁, hreserve, hreserved⟩ := hstreams.reserve hroom hsize
  obtain ⟨stalls, hrecords, hstalls⟩ := reserve_stalls hstreams hreserve
  have hlength : ∀ bytes : List UInt8, (load (store t₁.memory (t₁.cur + 16) bytes) (t₁.cur + 16)
      (16 * t.droppedUsed)).length / 16 = t.droppedUsed := by
    intro bytes
    rw [length_load, Nat.mul_div_cancel_left _ (by decide)]
  unfold ProfThread.writeDropped
  rw [if_neg hused, hreserve]
  dsimp only
  refine ⟨stalls, load (store t₁.memory (t₁.cur + 16) t.droppedBytes) (t₁.cur + 16) (16 * t.droppedUsed), hstalls,
    ?_, ?_, tableTotal_clear _⟩
  · rw [← hrecords]
    exact records_put t₁ _
  · unfold droppedTotal
    rw [hlength, htabled.entries t₁.memory (t₁.cur + 16), Option.getD_some]
    exact sum_filter_counts t.dropped

theorem Credited.writeDropped (h : Credited tid t f) (hstreams : Streams t) (htabled : Tabled t)
    (now : UInt64) (hroom : room ≠ none) (hat : atBoundary t.records = true → t.droppedUsed = 0) :
    Credited tid (t.writeDropped now room) f := by
  by_cases hused : t.droppedUsed = 0
  · unfold ProfThread.writeDropped
    rwa [if_pos hused]
  · obtain ⟨stalls, payload, hstalls, hrecords, hpayload, hempty⟩ :=
      writeDropped_event hstreams htabled now hroom hused
    unfold Credited
    rw [hrecords, hempty, FrameScan.scanPass1_concat, FrameScan.scanPass1_append, scanPass1_stalls hstalls]
    refine Credits.event h (Bool.eq_false_iff.2 fun hfollows => hused (hat ?_)) hpayload
    exact (scanPass1_follows tid t.records hfollows).2

theorem Credited.hlProfFrame (h : Credited tid t f) (hacc : Accounted t o clean entered) (htid : tid ≠ 0)
    {idle : Bool} {frameSet : UInt32} (hroom : env.room ≠ none) (hdropped : env.droppedRoom ≠ none)
    (hmark : frameSet = 0 → f.closed = [] → idle = false) :
    Credited tid (t.hlProfFrame idle frameSet env) (if frameSet = 0 then f.close (tickMask env.now) else f) := by
  obtain ⟨t₁, hreserve, hreserved⟩ := hacc.balanced.streams.reserve hroom (show 16 + 16 ≤ chunkSize by decide)
  have h₁ := h.reserve hacc.balanced.streams hreserve
  have htabled : Tabled t₁ := hacc.balanced.tabled.congr hreserved.dropped hreserved.used
  unfold ProfThread.hlProfFrame
  rw [hreserve]
  dsimp only
  change Credited tid (((t₁.put ⟨tickMask env.now, frameBody idle frameSet⟩).commit).writeDropped env.now
    env.droppedRoom) _
  have hstreams := hreserved.streams.put_commit hreserved.chunk ⟨tickMask env.now, frameBody idle frameSet⟩
  have hrecords := records_put t₁ ⟨tickMask env.now, frameBody idle frameSet⟩
  generalize ht₂ : (t₁.put ⟨tickMask env.now, frameBody idle frameSet⟩).commit = t₂ at hstreams hrecords ⊢
  have htable : t₂.dropped = t₁.dropped ∧ t₂.droppedUsed = t₁.droppedUsed := by
    rw [← ht₂]
    exact ⟨rfl, rfl⟩
  have htabled₂ := htabled.congr htable.1 htable.2
  by_cases hset : frameSet = 0
  · subst hset
    rw [if_pos rfl]
    by_cases hused : t₂.droppedUsed = 0
    · have hzero := tableTotal_empty htabled₂ hused
      have hcredits : Credits (({} : FrameScan).scanPass1 tid t₁.records) tid f (tableTotal t₂) := by
        unfold tableTotal
        rw [htable.1]
        exact h₁
      unfold ProfThread.writeDropped Credited
      rw [if_pos hused, hrecords, FrameScan.scanPass1_concat]
      rw [hzero] at hcredits ⊢
      exact hcredits.boundary htid (hmark rfl)
    · obtain ⟨stalls, payload, hstalls, hwritten, hpayload, hempty⟩ :=
        writeDropped_event hstreams htabled₂ env.now hdropped hused
      have htotal : droppedTotal payload = tableTotal t₁ := by
        rw [hpayload]
        unfold tableTotal
        rw [htable.1]
      unfold Credited
      rw [hwritten, hempty, hrecords, FrameScan.scanPass1_concat, FrameScan.scanPass1_append,
        FrameScan.scanPass1_concat, scanPass1_stalls hstalls]
      exact Credits.boundary_event h₁ htid (hmark rfl) htotal
  · rw [if_neg hset]
    have hneutral : Neutral ⟨tickMask env.now, frameBody idle frameSet⟩ := by
      cases idle
      · exact hset
      · exact hset
    have hlast : atBoundary t₂.records = false := by
      rw [hrecords, atBoundary_concat]
      cases idle
      · exact decide_eq_false hset
      · exact decide_eq_false hset
    refine (h₁.append hneutral hrecords htable.1).writeDropped hstreams htabled₂ env.now hdropped fun hat => ?_
    rw [hlast] at hat
    cases hat

theorem Credited.counted (h : Credited tid t f) (hrecords : t'.records = t.records)
    (htotal : tableTotal t' = tableTotal t + 1) : Credited tid t' f.drop := by
  unfold Credited
  rw [hrecords, htotal]
  refine ⟨h.thread, h.drops, h.start, ?_⟩
  rw [← Nat.add_assoc, h.counts]
  rfl

theorem Credited.claim (h : Credited tid t f) (htabled : Tabled t) {key : UInt64} (hkey : key ≠ 0) {i : Nat}
    (hi : i < droppedSlots) (hfree : (t.dropped.getD i ⟨0, 0⟩).key = 0) :
    Credited tid { t with dropped := t.dropped.set i ⟨key, 1⟩, droppedUsed := t.droppedUsed + 1 } f.drop := by
  have hsum := htabled.sum_set hi (fun d => if d.key ≠ 0 then d.count.toNat else 0) ⟨key, 1⟩
  rw [if_neg (not_not.2 hfree), if_pos hkey, Nat.add_zero] at hsum
  exact h.counted rfl hsum

theorem Credited.recount (h : Credited tid t f) (htabled : Tabled t) {key : UInt64} (hkey : key ≠ 0) {i : Nat}
    (hi : i < droppedSlots) (hfound : (t.dropped.getD i ⟨0, 0⟩).key = key)
    (hsmall : (t.dropped.getD i ⟨0, 0⟩).count.toNat + 1 < 2 ^ 32) :
    Credited tid { t with dropped := t.dropped.set i ⟨key, (t.dropped.getD i ⟨0, 0⟩).count + 1⟩ } f.drop := by
  have hnext : ((t.dropped.getD i ⟨0, 0⟩).count + 1).toNat = (t.dropped.getD i ⟨0, 0⟩).count.toNat + 1 := by
    rw [UInt32.toNat_add]
    exact Nat.mod_eq_of_lt hsmall
  have hsum := htabled.sum_set hi (fun d => if d.key ≠ 0 then d.count.toNat else 0)
    ⟨key, (t.dropped.getD i ⟨0, 0⟩).count + 1⟩
  rw [hfound, if_pos hkey, if_pos hkey] at hsum
  dsimp only at hsum
  refine h.counted rfl ?_
  change ((t.dropped.set i _).map _).sum = (t.dropped.map _).sum + 1
  omega

theorem slot_lt (key : UInt64) : (key * 0x9E3779B97F4A7C15).toNat / 2 ^ 56 < droppedSlots := by
  have hlt := (key * 0x9E3779B97F4A7C15).toNat_lt
  unfold droppedSlots
  omega

theorem Credited.countDropped (h : Credited tid t f) (hacc : Accounted t o clean entered) {key : UInt64}
    (hkey : key ≠ 0) (now : UInt64) (hroom : room ≠ none)
    (hat : atBoundary t.records = true → writes t key = false) :
    Credited tid (t.countDropped key now room) f.drop := by
  have hstreams := hacc.balanced.streams
  have htabled := hacc.balanced.tabled
  unfold writes at hat
  unfold ProfThread.countDropped
  dsimp only
  split
  · next hprobe =>
    rw [hprobe] at hat
    have hcleared := (writeDropped_clears now room (probeDropped_none htabled hprobe)).1
    refine (h.writeDropped hstreams htabled now hroom fun hlast => ?_).claim
      (hacc.balanced.writeDropped now hroom).tabled hkey (slot_lt key) ?_
    · cases hat hlast
    · rw [hcleared, List.getD_eq_getElem?_getD, List.getElem?_replicate, if_pos (slot_lt key)]
      rfl
  · next i hprobe =>
    rw [hprobe] at hat
    obtain ⟨hi, hfound⟩ := probeDropped_some hprobe
    split
    · next hsame =>
      have hmem : t.dropped.getD i ⟨0, 0⟩ ∈ t.dropped := by
        have hlt : i < t.dropped.length := by rwa [htabled.length]
        rw [List.getD_eq_getElem?_getD, List.getElem?_eq_getElem hlt, Option.getD_some]
        exact List.getElem_mem hlt
      have hcount := hacc.small _ hmem (by rwa [hsame])
      have hbalanced := hacc.balanced.recount hi hsame hcount
      have hcredited := h.recount htabled hkey hi hsame hcount
      split
      · next hends =>
        refine hcredited.writeDropped hbalanced.streams hbalanced.tabled now hroom fun hlast => ?_
        exact absurd ⟨hsame, hends⟩ (of_decide_eq_false (hat hlast))
      · exact hcredited
    · next hother => exact h.claim htabled hkey hi (hfound.resolve_left hother)

theorem takenBack_records (hstreams : Streams t) (hheld : t.held ≠ none) :
    ∃ e, t.records = (takenBack t).records ++ [enterRecord e] := by
  obtain ⟨kept, run, hrun⟩ := hstreams.run
  obtain ⟨run', e, rfl, -⟩ := hrun.last hheld
  have hwritten : t.written = (kept ++ run'.map enterRecord) ++ [enterRecord e] := by
    rw [hrun.written, List.map_append, List.append_assoc]
    rfl
  refine ⟨e, ?_⟩
  unfold takenBack ProfThread.records
  dsimp only
  rw [hwritten, List.dropLast_concat, List.append_assoc, List.append_assoc, List.append_assoc]

theorem exit_recorded (minCall : UInt64) (hshort : ¬Short minCall t env) :
    t.hlProfExit minCall env = match t.reserve 8 env.room with
      | none => t
      | some t => ({ t with depth := t.depth - 1 }.put ⟨tickMask env.now, .exit⟩).commit :=
  if_neg hshort

theorem Credited.hlProfExit (h : Credited tid t f) (hacc : Accounted t o clean entered) (minCall : UInt64)
    (hdropped : env.droppedRoom ≠ none) (hattributed : Attributed minCall t f (.call (.exit env))) :
    Credited tid (t.hlProfExit minCall env) (f.step minCall t (.call (.exit env))) := by
  have hstreams := hacc.balanced.streams
  unfold FrameCount.step
  dsimp only
  by_cases hshort : Short minCall t env
  · have hexit : t.hlProfExit minCall env =
        (takenBack t).countDropped (takenKey t) env.now env.droppedRoom := if_pos hshort
    rw [if_pos hshort, hexit]
    obtain ⟨hkey, entered', -, hback⟩ := hacc.balanced.takeBack hshort.1 (show takenKey t = _ from rfl)
    have hback' : Accounted (takenBack t) ⟨o.depth - 1, o.stack.tail⟩ clean entered' := ⟨hback, hacc.small.congr rfl⟩
    obtain ⟨e, hrecords⟩ := takenBack_records hstreams hshort.1
    have hbefore : Credited tid (takenBack t) f := by
      have hcredits : Credits (({} : FrameScan).scanPass1 tid t.records) tid f (tableTotal t) := h
      rw [hrecords, FrameScan.scanPass1_concat] at hcredits
      exact hcredits.of_core (neutral_core (r := enterRecord e) trivial).symm
    exact hbefore.countDropped hback' hkey env.now hdropped (hattributed hshort)
  · rw [if_neg hshort, exit_recorded minCall hshort]
    split
    · exact h
    · next t₁ hreserve =>
      exact (h.reserve hstreams hreserve).append (r := ⟨tickMask env.now, .exit⟩) trivial (records_put t₁ _) rfl

theorem Credited.writeEnter (h : Credited tid t f) (hstreams : Streams t) (minCall key : UInt64) (keep : Bool)
    (env : WriterEnv) : Credited tid (t.writeEnter minCall key keep env) f := by
  unfold ProfThread.writeEnter
  split
  · exact h
  · next t₁ hreserve =>
    have h₁ := h.reserve hstreams hreserve
    have hput : ∀ t₂ : ProfThread, t₂.records = t₁.records ++ [⟨tickMask env.now, .enter key⟩] →
        t₂.dropped = t₁.dropped → Credited tid t₂ f := fun t₂ hrecords htable =>
      h₁.append (r := ⟨tickMask env.now, .enter key⟩) trivial hrecords htable
    have hrecords := records_put t₁ ⟨tickMask env.now, .enter key⟩
    dsimp only
    split
    · split
      · exact hput _ hrecords rfl
      · exact hput _ hrecords rfl
    · exact hput _ hrecords rfl

theorem drainThread_records (t : ProfThread) : t.drainThread.records = t.records := by
  unfold ProfThread.drainThread
  split
  · unfold ProfThread.records
    dsimp only
    rw [List.flatMap_append, List.flatMap_cons, List.flatMap_nil, List.append_nil, List.append_assoc,
      List.take_append_drop]
  · rfl

theorem Credited.step (h : Credited tid t f) (hacc : Accounted t o clean entered) (htid : tid ≠ 0) (minCall : UInt64)
    {s : ProfStep} (hroomy : s.Roomy) (hkeyed : s.Keyed) (hattributed : Attributed minCall t f s) :
    Credited tid (t.step minCall s) (f.step minCall t s) := by
  have hstreams := hacc.balanced.streams
  cases s with
  | pausedUnwind depth =>
    unfold ProfThread.step
    dsimp only
    split
    · exact h
    · exact h.congr rfl rfl
  | call c =>
    cases c with
    | enter key keep env => exact h.writeEnter hstreams minCall key keep env
    | exit env => exact h.hlProfExit hacc minCall (hroomy env rfl).2 hattributed
    | unwind depth env =>
      change Credited tid (t.hlProfUnwind depth env) f
      unfold ProfThread.hlProfUnwind
      split
      · exact h
      · refine Credited.record (t := { t with depth := depth }) (h.congr rfl rfl) ?_ (by trivial) env.room
        exact hstreams.congr rfl rfl rfl rfl rfl rfl rfl
    | spanBegin name units encoding env => exact h.record hstreams (by trivial) env.room
    | spanEnd env => exact h.record hstreams (by trivial) env.room
    | frame idle frameSet env =>
      obtain ⟨hroom, hdropped⟩ := hroomy env rfl
      exact h.hlProfFrame hacc htid hroom hdropped fun hset => (hattributed hset).1
    | counter name units encoding value env => exact h.record hstreams (by trivial) env.room
    | event id payload length env =>
      change Credited tid (t.hlProfEvent id payload length env) f
      unfold ProfThread.hlProfEvent
      split
      · exact h
      · exact h.record hstreams (by exact hkeyed) env.room
    | sample stid flags frames count env =>
      change Credited tid (t.hlProfSample stid flags frames count env) f
      unfold ProfThread.hlProfSample
      dsimp only
      split
      · exact h
      · exact h.record hstreams (by trivial) env.room
    | release env =>
      have hwritten := h.writeDropped hstreams hacc.balanced.tabled env.now (hroomy env rfl).2 hattributed
      change Credited tid (t.releaseThread env) f
      unfold ProfThread.releaseThread
      dsimp only
      split
      · exact hwritten
      · exact hwritten.congr rfl rfl
    | drain =>
      refine h.congr (drainThread_records t) ?_
      change t.drainThread.dropped = t.dropped
      unfold ProfThread.drainThread
      split
      · rfl
      · rfl

def Ordered (f : FrameCount) : Prop := ((f.closed.map Prod.fst) ++ [f.start]).Pairwise (· < ·)

theorem Ordered.close (h : Ordered f) {ticks : Nat} (hlater : f.start < ticks) : Ordered (f.close ticks) := by
  unfold Ordered FrameCount.close
  dsimp only
  rw [List.map_append, List.map_cons, List.map_nil]
  refine List.pairwise_append.2 ⟨h, List.pairwise_singleton _ _, fun a ha b hb => ?_⟩
  rw [List.mem_singleton.1 hb]
  rcases List.mem_append.1 ha with hclosed | hlast
  · exact ((List.pairwise_append.1 h).2.2 a hclosed f.start (List.mem_singleton_self _)).trans hlater
  · rw [List.mem_singleton.1 hlast]
    exact hlater

theorem Ordered.step (h : Ordered f) (minCall : UInt64) {s : ProfStep} (hattributed : Attributed minCall t f s) :
    Ordered (f.step minCall t s) := by
  cases s with
  | pausedUnwind depth => exact h
  | call c =>
    cases c with
    | frame idle frameSet env =>
      unfold FrameCount.step
      dsimp only
      split
      · next hset => exact h.close (hattributed hset).2
      · exact h
    | exit env =>
      unfold FrameCount.step
      dsimp only
      split
      · exact h
      · exact h
    | enter | unwind | spanBegin | spanEnd | counter | event | sample | release | drain => exact h

def AttributedRun (minCall : UInt64) (depth : Int) (steps : List ProfStep) : Prop :=
  ∀ before s after, steps = before ++ s :: after →
    Attributed minCall (runFrames minCall depth before).1 (runFrames minCall depth before).2 s

theorem runFrames_concat (minCall : UInt64) (depth : Int) (steps : List ProfStep) (s : ProfStep) :
    runFrames minCall depth (steps ++ [s]) = ((runFrames minCall depth steps).1.step minCall s,
        (runFrames minCall depth steps).2.step minCall (runFrames minCall depth steps).1 s) := by
  unfold runFrames
  rw [List.foldl_append]
  rfl

theorem runFrames_thread (minCall : UInt64) (depth : Int) (steps : List ProfStep) :
    (runFrames minCall depth steps).1 = runSteps minCall depth steps := by
  induction steps using List.reverseRecOn with
  | nil => rfl
  | append_singleton steps s ih =>
    rw [runFrames_concat, ih]
    unfold runSteps
    rw [List.foldl_append]
    rfl

theorem prefix_of_run {P : List ProfStep → ProfStep → Prop} {s : ProfStep}
    (h : ∀ before s' after, steps ++ [s] = before ++ s' :: after → P before s') :
    (∀ before s' after, steps = before ++ s' :: after → P before s') ∧ P steps s := by
  refine ⟨fun before s' after hsplit => h before s' (after ++ [s]) ?_, h steps s [] rfl⟩
  rw [hsplit, List.append_assoc]
  rfl

theorem start_credited (tid : UInt32) (depth : Int) :
    Credited tid { ProfThread.start with depth := depth } ⟨[], 0, 0⟩ where
  thread := Or.inr ⟨rfl, rfl⟩
  drops := rfl
  start := rfl
  counts := by
    have hpending : (({} : FrameScan).scanPass1 tid []).pending tid = 0 := ite_self 0
    change (({} : FrameScan).scanPass1 tid []).pending tid + tableTotal ProfThread.start.clearDropped = 0
    rw [hpending, tableTotal_clear]

theorem run_credited (minCall : UInt64) (depth : Int) (htid : tid ≠ 0) (h : Possible depth steps)
    (hattributed : AttributedRun minCall depth steps) :
    Credited tid (runFrames minCall depth steps).1 (runFrames minCall depth steps).2 ∧
      Ordered (runFrames minCall depth steps).2 := by
  induction steps using List.reverseRecOn with
  | nil => exact ⟨start_credited tid depth, List.pairwise_singleton _ _⟩
  | append_singleton steps s ih =>
    obtain ⟨hpossible, hroomy, hkeyed, -⟩ := prefix_of_run h
    obtain ⟨hbefore, hstep⟩ := prefix_of_run hattributed
    obtain ⟨hcredited, hordered⟩ := ih hpossible hbefore
    have hacc := run_accounted minCall depth hpossible
    rw [← runFrames_thread] at hacc
    rw [runFrames_concat]
    exact ⟨hcredited.step hacc htid minCall hroomy hkeyed hstep, hordered.step minCall hstep⟩

theorem published_enters (hstreams : Streams t) : ∃ run : List (Nat × UInt64),
    t.records = t.published ++ run.map enterRecord := by
  obtain ⟨kept, run, hrun⟩ := hstreams.run
  refine ⟨run, ?_⟩
  unfold ProfThread.records ProfThread.published
  rw [hrun.count, hrun.written, List.take_left, List.append_assoc]

def exportedDrops (tid : UInt32) (t : ProfThread) : List (Nat × Nat) :=
  (({} : FrameScan).scanPass1 tid t.published).frameDrops

/-- In a run whose steps are all attributed, each frame that has ended has exactly the calls that were dropped in it,
the last one those of its calls that are not in the table any more, and `frame_drops_at` gives these numbers at the
boundaries, in their order and with any of them left out. -/
theorem frame_drops_exact (minCall : UInt64) (depth : Int) (tid : UInt32) (steps : List ProfStep) (htid : tid ≠ 0)
    (hpossible : Possible depth steps) (hattributed : AttributedRun minCall depth steps)
    (hframes : (runFrames minCall depth steps).2.closed ≠ []) :
    let t := (runFrames minCall depth steps).1
    let f := (runFrames minCall depth steps).2
    (∃ n, exportedDrops tid t = f.closed ++ [(f.start, n)] ∧ n + tableTotal t = f.dropped) ∧
      ∀ boundaries : List (Nat × Nat), boundaries.Sublist (exportedDrops tid t) →
        frameDropsReads (exportedDrops tid t) 0 (boundaries.map Prod.fst) = boundaries.map fun d => some d.2 := by
  obtain ⟨hcredited, hordered⟩ := run_credited minCall depth htid hpossible hattributed
  have hacc := run_accounted minCall depth hpossible
  rw [← runFrames_thread] at hacc
  generalize runFrames minCall depth steps = run at *
  obtain ⟨t, f⟩ := run
  obtain ⟨enters, hrecords⟩ := published_enters hacc.balanced.streams
  have hneutral : ∀ r ∈ enters.map enterRecord, Neutral r := by
    intro r hr
    obtain ⟨e, -, rfl⟩ := List.mem_map.1 hr
    trivial
  have hcredits : Credits (({} : FrameScan).scanPass1 tid t.published) tid f (tableTotal t) := by
    refine Credits.of_core (s := ({} : FrameScan).scanPass1 tid t.records) hcredited ?_
    rw [hrecords, FrameScan.scanPass1_append, scanPass1_neutral hneutral]
  obtain ⟨n, hdrops, hcount⟩ := hcredits.frameDrops htid hframes
  refine ⟨⟨n, hdrops, hcount⟩, fun boundaries hsub => frameDropsReads_eq ?_ hsub⟩
  unfold exportedDrops
  rw [hdrops, List.map_append]
  exact hordered

theorem possible_of_roomy {depth : Int} (h : ∀ s ∈ steps, s.Roomy ∧ s.Keyed ∧ ∀ o, s.InInt o) :
    Possible depth steps := by
  intro before s after hsplit
  obtain ⟨hroomy, hkeyed, hint⟩ := h s (by rw [hsplit]; exact List.mem_append_right _ List.mem_cons_self)
  exact ⟨hroomy, hkeyed, hint _⟩

def shortFrameSteps : List ProfStep :=
  [.call (.frame false 0 (roomyEnv 10)), .call (.enter 5 false (roomyEnv 20)), .call (.exit (roomyEnv 21)),
    .call (.frame true 0 (roomyEnv 30)), .call (.release (roomyEnv 40))]

theorem short_frame_drops :
    exportedDrops 1 (runFrames 100 0 shortFrameSteps).1 = [(0, 0), (10, 1), (30, 0)] ∧
      frameDropsReads (exportedDrops 1 (runFrames 100 0 shortFrameSteps).1) 0 [10, 30] = [some 1, some 0] := by
  have hpossible : Possible 0 shortFrameSteps := by
    refine possible_of_roomy fun s hs => ?_
    simp only [shortFrameSteps, List.mem_cons, List.not_mem_nil, or_false] at hs
    rcases hs with rfl | rfl | rfl | rfl | rfl <;>
      exact ⟨fun env henv => by cases henv; exact ⟨nofun, nofun⟩, by unfold ProfStep.Keyed; decide, fun _ => trivial⟩
  have hattributed : AttributedRun 100 0 shortFrameSteps := by
    intro before s after hsplit
    rcases before with _ | ⟨a, _ | ⟨b, _ | ⟨c, _ | ⟨d, _ | ⟨e, rest⟩⟩⟩⟩⟩
    · cases hsplit
      unfold Attributed
      decide +kernel
    · cases hsplit
      trivial
    · cases hsplit
      unfold Attributed
      decide +kernel
    · cases hsplit
      unfold Attributed
      decide +kernel
    · cases hsplit
      unfold Attributed
      decide +kernel
    · have hlength := congrArg List.length hsplit
      simp [shortFrameSteps] at hlength
  have hframes : (runFrames 100 0 shortFrameSteps).2.closed = [(0, 0), (10, 1)] := by decide +kernel
  have hstart : (runFrames 100 0 shortFrameSteps).2.start = 30 := by decide +kernel
  have hlast : (runFrames 100 0 shortFrameSteps).2.dropped = 0 := by decide +kernel
  obtain ⟨⟨n, hdrops, hcount⟩, hreads⟩ :=
    frame_drops_exact 100 0 1 shortFrameSteps (by decide) hpossible hattributed (by rw [hframes]; decide)
  rw [hlast] at hcount
  rw [hframes, hstart, Nat.eq_zero_of_add_eq_zero_right hcount] at hdrops
  refine ⟨hdrops, hreads [(10, 1), (30, 0)] ?_⟩
  rw [hdrops]
  exact List.sublist_cons_self _ _

/-- A second boundary with nothing to write, and a short call before the recording ends. -/
def flushedSteps : List ProfStep :=
  [.call (.frame false 0 (roomyEnv 10)), .call (.frame false 0 (roomyEnv 20)), .call (.enter 5 false (roomyEnv 30)),
    .call (.exit (roomyEnv 31)), .call (.release (roomyEnv 40))]

/-- The frame that begins at 20 dropped a call, and the one before it gets it. -/
theorem flush_after_boundary_misplaced :
    Possible 0 flushedSteps ∧ (runFrames 100 0 flushedSteps).2.closed = [(0, 0), (10, 0)] ∧
      (runFrames 100 0 flushedSteps).2.start = 20 ∧ (runFrames 100 0 flushedSteps).2.dropped = 1 ∧
      exportedDrops 1 (runFrames 100 0 flushedSteps).1 = [(0, 0), (10, 1), (20, 0)] := by
  refine ⟨possible_of_roomy fun s hs => ?_, by decide +kernel, by decide +kernel, by decide +kernel,
    by decide +kernel⟩
  simp only [flushedSteps, List.mem_cons, List.not_mem_nil, or_false] at hs
  rcases hs with rfl | rfl | rfl | rfl | rfl <;>
    exact ⟨fun env henv => by cases henv; exact ⟨nofun, nofun⟩, by unfold ProfStep.Keyed; decide, fun _ => trivial⟩

end HashLink.FrameDrops
