import HashLink.Export.Slices
import HashLink.Prof.CallStream

/-!
The dropped calls of each frame. `scan_pass1` sums the frame thread's counts between the boundaries of the main frames,
and `frame_drops_at` finds a frame's sum by the tick of its boundary.
-/

namespace HashLink.FrameDrops

open Prof
open Slices (frameDropsAt)

/-- What `scan_pass1` keeps of frames. `drops` has `frame_drop_starts` and `frame_drops`, and no thread has the id 0. -/
structure FrameScan where
  frameThread : UInt32 := 0
  earlyDrops : UInt32 → Nat := fun _ => 0
  drops : List (Nat × Nat) := []
  running : Nat := 0
  start : Nat := 0
  follows : Bool := false

def droppedTotal (payload : List UInt8) : Nat :=
  (((droppedEntries payload 0 (payload.length / 16)).getD []).map Prod.snd).sum

namespace FrameScan

variable (s : FrameScan) (tid : UInt32)

def frameDropsClose (nextStart : Nat) : FrameScan :=
  { s with drops := s.drops ++ [(s.start, s.running)], running := 0, start := nextStart }

/-- A record of the frame thread, other than a stall, ends what directly follows a boundary. -/
def settle : FrameScan := if tid = s.frameThread then { s with follows := false } else s

def findThread (set : UInt32) : FrameScan :=
  if s.frameThread = 0 ∧ set = 0 then { s with frameThread := tid, running := s.earlyDrops tid } else s

def boundary (set : UInt32) (ticks : Nat) : FrameScan :=
  if tid = s.frameThread ∧ set = 0 then { s.frameDropsClose ticks with follows := true } else s

/-- The counts that directly follow a boundary close the frame before it. -/
def addDropped (follows : Bool) (total : Nat) : FrameScan :=
  if tid ≠ s.frameThread then
    { s with earlyDrops := Function.update s.earlyDrops tid (s.earlyDrops tid + total) }
  else if follows ∧ s.drops ≠ [] then
    { s with drops := s.drops.modify (s.drops.length - 1) fun d => (d.1, d.2 + total) }
  else { s with running := s.running + total }

def scanRecord (r : ProfRecord) : FrameScan :=
  match r.body with
  | .stall _ => s
  | .frameMark set => ((s.settle tid).findThread tid set).boundary tid set r.ticks
  | .frameIdle set => (s.settle tid).boundary tid set r.ticks
  | .event id payload =>
    if id = UInt32.ofNat eventDroppedCalls then
      (s.settle tid).addDropped tid (tid = s.frameThread ∧ s.follows) (droppedTotal payload)
    else s.settle tid
  | _ => s.settle tid

def scanPass1 (rs : List ProfRecord) : FrameScan := rs.foldl (fun s r => s.scanRecord tid r) s

def frameDrops : List (Nat × Nat) := if s.frameThread ≠ 0 then (s.frameDropsClose 0).drops else s.drops

/-- The counts of the thread that belong to no closed frame. -/
def pending : Nat := if tid = s.frameThread then s.running else s.earlyDrops tid

theorem scanPass1_append (rs rs' : List ProfRecord) :
    s.scanPass1 tid (rs ++ rs') = (s.scanPass1 tid rs).scanPass1 tid rs' := List.foldl_append

theorem scanPass1_concat (rs : List ProfRecord) (r : ProfRecord) :
    s.scanPass1 tid (rs ++ [r]) = (s.scanPass1 tid rs).scanRecord tid r := scanPass1_append s tid rs [r]

end FrameScan

def boundaryLast (last : Bool) (r : ProfRecord) : Bool :=
  match r.body with
  | .stall _ => last
  | .frameMark set => set = 0
  | .frameIdle set => set = 0
  | _ => false

def atBoundary (rs : List ProfRecord) : Bool := rs.foldl boundaryLast false

/-- A record that neither ends a frame nor counts dropped calls. -/
def Neutral (r : ProfRecord) : Prop :=
  match r.body with
  | .frameMark set => set ≠ 0
  | .frameIdle set => set ≠ 0
  | .event id _ => id ≠ UInt32.ofNat eventDroppedCalls
  | _ => True

def frameBody (idle : Bool) (frameSet : UInt32) : RecordBody :=
  if idle then .frameIdle frameSet else .frameMark frameSet

variable {s : FrameScan} {tid : UInt32}

theorem atBoundary_concat (rs : List ProfRecord) (r : ProfRecord) :
    atBoundary (rs ++ [r]) = boundaryLast (atBoundary rs) r := by
  rw [atBoundary, List.foldl_append]
  rfl

theorem settle_follows (h : s.follows = true → tid = s.frameThread) : (s.settle tid).follows = false := by
  unfold FrameScan.settle
  split
  · rfl
  · next hother => exact Bool.eq_false_iff.2 fun hfollows => hother (h hfollows)

variable {ticks : Nat} {payload : List UInt8}

theorem boundary_follows {set : UInt32} (h : s.follows = false)
    (h' : (s.boundary tid set ticks).follows = true) :
    tid = (s.boundary tid set ticks).frameThread ∧ set = 0 := by
  unfold FrameScan.boundary at h' ⊢
  split at h'
  · next hset =>
    rw [if_pos hset]
    exact hset
  · rw [h] at h'
    cases h'

theorem findThread_follows {set : UInt32} : (s.findThread tid set).follows = s.follows := by
  unfold FrameScan.findThread
  split
  · rfl
  · rfl

theorem addDropped_follows {follows : Bool} {total : Nat} :
    (s.addDropped tid follows total).follows = s.follows := by
  unfold FrameScan.addDropped
  split
  · rfl
  · split
    · rfl
    · rfl

theorem scanRecord_follows {last : Bool} (h : s.follows = true → tid = s.frameThread ∧ last = true) (r : ProfRecord)
    (hfollows : (s.scanRecord tid r).follows = true) :
    tid = (s.scanRecord tid r).frameThread ∧ boundaryLast last r = true := by
  have hsettle := settle_follows fun hs => (h hs).1
  unfold FrameScan.scanRecord at hfollows ⊢
  unfold boundaryLast
  cases hbody : r.body with
  | stall ended =>
    rw [hbody] at hfollows
    exact h hfollows
  | frameMark set =>
    rw [hbody] at hfollows
    have hfound : ((s.settle tid).findThread tid set).follows = false := (findThread_follows).trans hsettle
    obtain ⟨hthread, hset⟩ := boundary_follows hfound hfollows
    exact ⟨hthread, decide_eq_true hset⟩
  | frameIdle set =>
    rw [hbody] at hfollows
    obtain ⟨hthread, hset⟩ := boundary_follows hsettle hfollows
    exact ⟨hthread, decide_eq_true hset⟩
  | event id payload =>
    rw [hbody] at hfollows
    dsimp only at hfollows
    split at hfollows
    · rw [addDropped_follows, hsettle] at hfollows
      cases hfollows
    · rw [hsettle] at hfollows
      cases hfollows
  | enter | exit | unwind | spanBegin | spanEnd | counter | sample =>
    rw [hbody] at hfollows
    dsimp only at hfollows
    rw [hsettle] at hfollows
    cases hfollows

theorem scanPass1_follows (tid : UInt32) (rs : List ProfRecord)
    (h : (({} : FrameScan).scanPass1 tid rs).follows = true) :
    tid = (({} : FrameScan).scanPass1 tid rs).frameThread ∧ atBoundary rs = true := by
  induction rs using List.reverseRecOn with
  | nil => cases h
  | append_singleton rs r ih =>
    rw [FrameScan.scanPass1_concat] at h ⊢
    rw [atBoundary_concat]
    exact scanRecord_follows ih r h

/-- The frame that goes on, the tick of its boundary and the calls that were dropped since then, and the frames before
it. The first one begins at 0, before any boundary. -/
structure FrameCount where
  closed : List (Nat × Nat)
  start : Nat
  dropped : Nat

/-- Closed frames have the calls that were dropped in them, and all that are missing from the last one are `left`. -/
structure Credits (s : FrameScan) (tid : UInt32) (f : FrameCount) (left : Nat) : Prop where
  thread : tid = s.frameThread ∨ s.frameThread = 0 ∧ f.closed = []
  drops : s.drops = f.closed
  start : s.start = f.start
  counts : s.pending tid + left = f.dropped

variable {f : FrameCount} {left : Nat} {r : ProfRecord}

def FrameScan.core (s : FrameScan) : FrameScan := { s with follows := false }

theorem Credits.of_core {s' : FrameScan} (h : Credits s tid f left) (hcore : s'.core = s.core) :
    Credits s' tid f left := by
  have hcredits : Credits s.core tid f left := ⟨h.thread, h.drops, h.start, h.counts⟩
  rw [← hcore] at hcredits
  exact ⟨hcredits.thread, hcredits.drops, hcredits.start, hcredits.counts⟩

theorem settle_core : (s.settle tid).core = s.core := by
  unfold FrameScan.settle
  split
  · rfl
  · rfl

theorem neutral_core (hr : Neutral r) : (s.scanRecord tid r).core = s.core := by
  unfold Neutral at hr
  unfold FrameScan.scanRecord
  cases hbody : r.body with
  | stall ended => rfl
  | frameMark set =>
    rw [hbody] at hr
    unfold FrameScan.findThread FrameScan.boundary
    dsimp only
    rw [if_neg fun hset => hr hset.2, if_neg fun hset => hr hset.2]
    exact settle_core
  | frameIdle set =>
    rw [hbody] at hr
    unfold FrameScan.boundary
    dsimp only
    rw [if_neg fun hset => hr hset.2]
    exact settle_core
  | event id payload =>
    rw [hbody] at hr
    dsimp only
    rw [if_neg hr]
    exact settle_core
  | enter | exit | unwind | spanBegin | spanEnd | counter | sample => exact settle_core

theorem Credits.neutral (h : Credits s tid f left) (hr : Neutral r) : Credits (s.scanRecord tid r) tid f left :=
  h.of_core (neutral_core hr)

theorem scanPass1_neutral {rs : List ProfRecord} (h : ∀ r ∈ rs, Neutral r) : (s.scanPass1 tid rs).core = s.core := by
  induction rs using List.reverseRecOn with
  | nil => rfl
  | append_singleton rs r ih =>
    rw [FrameScan.scanPass1_concat, neutral_core (h r (List.mem_append_right _ (List.mem_singleton_self r)))]
    exact ih fun r' hr' => h r' (List.mem_append_left _ hr')

theorem Credits.event (h : Credits s tid f left) (hfollows : s.follows = false)
    (hpayload : droppedTotal payload = left) :
    Credits (s.scanRecord tid ⟨ticks, .event (UInt32.ofNat eventDroppedCalls) payload⟩) tid f 0 := by
  have hscan : s.scanRecord tid ⟨ticks, .event (UInt32.ofNat eventDroppedCalls) payload⟩ =
      (s.settle tid).addDropped tid false left := by
    unfold FrameScan.scanRecord
    dsimp only
    rw [if_pos rfl, hfollows, hpayload]
    simp
  have hcounts := h.counts
  rw [hscan]
  unfold FrameScan.pending at hcounts
  unfold FrameScan.addDropped FrameScan.settle
  by_cases hthread : tid = s.frameThread
  · rw [if_pos hthread, if_neg (not_not.2 hthread), if_neg (by simp)]
    rw [if_pos hthread] at hcounts
    exact ⟨Or.inl hthread, h.drops, h.start, by unfold FrameScan.pending; rw [if_pos hthread]; exact hcounts⟩
  · rw [if_neg hthread, if_pos hthread]
    rw [if_neg hthread] at hcounts
    refine ⟨h.thread, h.drops, h.start, ?_⟩
    unfold FrameScan.pending
    dsimp only
    rw [if_neg hthread, Function.update_self]
    exact hcounts

theorem scanRecord_boundary (htid : tid ≠ 0) {idle : Bool}
    (h : tid = s.frameThread ∨ s.frameThread = 0 ∧ idle = false) :
    s.scanRecord tid ⟨ticks, frameBody idle 0⟩ =
      ⟨tid, s.earlyDrops, s.drops ++ [(s.start, s.pending tid)], 0, ticks, true⟩ := by
  have hclose : ∀ s' : FrameScan, tid = s'.frameThread → s'.boundary tid 0 ticks =
      ⟨tid, s'.earlyDrops, s'.drops ++ [(s'.start, s'.running)], 0, ticks, true⟩ := by
    intro s' hthread
    unfold FrameScan.boundary FrameScan.frameDropsClose
    rw [if_pos ⟨hthread, rfl⟩, ← hthread]
  unfold FrameScan.pending
  rcases h with hthread | ⟨hnone, rfl⟩
  · have hsettle : s.settle tid = { s with follows := false } := if_pos hthread
    have hfind : (s.settle tid).findThread tid 0 = s.settle tid := by
      rw [hsettle]
      exact if_neg fun hset => htid (hthread.trans hset.1)
    rw [if_pos hthread]
    cases idle with
    | true => exact (hclose _ (by rw [hsettle]; exact hthread)).trans (by rw [hsettle])
    | false =>
      change ((s.settle tid).findThread tid 0).boundary tid 0 ticks = _
      rw [hfind, hclose _ (by rw [hsettle]; exact hthread), hsettle]
  · have hother : tid ≠ s.frameThread := by
      rw [hnone]
      exact htid
    have hfind : (s.settle tid).findThread tid 0 = { s with frameThread := tid, running := s.earlyDrops tid } := by
      unfold FrameScan.settle
      rw [if_neg hother]
      exact if_pos ⟨hnone, rfl⟩
    change ((s.settle tid).findThread tid 0).boundary tid 0 ticks = _
    rw [hfind, hclose _ rfl, if_neg hother]

theorem modify_last (l : List (Nat × Nat)) (d : Nat × Nat) (g : Nat × Nat → Nat × Nat) :
    (l ++ [d]).modify ((l ++ [d]).length - 1) g = l ++ [g d] := by
  induction l with
  | nil => rfl
  | cons e l ih =>
    rw [List.length_append, List.length_singleton, Nat.add_sub_cancel] at ih ⊢
    exact congrArg (e :: ·) ih

theorem scanRecord_event {early : UInt32 → Nat} {drops : List (Nat × Nat)} {start count ticks' : Nat} :
    (⟨tid, early, drops ++ [(start, count)], 0, ticks, true⟩ : FrameScan).scanRecord tid
        ⟨ticks', .event (UInt32.ofNat eventDroppedCalls) payload⟩ =
      ⟨tid, early, drops ++ [(start, count + droppedTotal payload)], 0, ticks, false⟩ := by
  unfold FrameScan.scanRecord FrameScan.settle FrameScan.addDropped
  dsimp only
  rw [if_pos rfl, if_pos rfl, if_neg (not_not.2 rfl)]
  rw [if_pos ⟨decide_eq_true ⟨rfl, rfl⟩, by simp⟩, modify_last]

def FrameCount.close (f : FrameCount) (ticks : Nat) : FrameCount := ⟨f.closed ++ [(f.start, f.dropped)], ticks, 0⟩

theorem Credits.boundary (h : Credits s tid f 0) (htid : tid ≠ 0) {idle : Bool}
    (hmark : f.closed = [] → idle = false) :
    Credits (s.scanRecord tid ⟨ticks, frameBody idle 0⟩) tid (f.close ticks) 0 := by
  have hcounts := h.counts
  rw [scanRecord_boundary htid (h.thread.imp_right fun hnone => ⟨hnone.1, hmark hnone.2⟩)]
  refine ⟨Or.inl rfl, ?_, rfl, by unfold FrameScan.pending; rw [if_pos rfl]; rfl⟩
  change s.drops ++ [(s.start, s.pending tid)] = f.closed ++ [(f.start, f.dropped)]
  rw [h.drops, h.start, show s.pending tid = f.dropped from hcounts]

theorem Credits.boundary_event (h : Credits s tid f left) (htid : tid ≠ 0) {idle : Bool} {ticks' : Nat}
    (hmark : f.closed = [] → idle = false) (hpayload : droppedTotal payload = left) :
    Credits ((s.scanRecord tid ⟨ticks, frameBody idle 0⟩).scanRecord tid
      ⟨ticks', .event (UInt32.ofNat eventDroppedCalls) payload⟩) tid (f.close ticks) 0 := by
  have hcounts := h.counts
  rw [scanRecord_boundary htid (h.thread.imp_right fun hnone => ⟨hnone.1, hmark hnone.2⟩), scanRecord_event]
  refine ⟨Or.inl rfl, ?_, rfl, by unfold FrameScan.pending; rw [if_pos rfl]; rfl⟩
  change s.drops ++ [(s.start, s.pending tid + droppedTotal payload)] = f.closed ++ [(f.start, f.dropped)]
  rw [h.drops, h.start, hpayload, hcounts]

theorem Credits.frameDrops (h : Credits s tid f left) (htid : tid ≠ 0) (hclosed : f.closed ≠ []) :
    ∃ n, s.frameDrops = f.closed ++ [(f.start, n)] ∧ n + left = f.dropped := by
  have hthread : tid = s.frameThread := h.thread.resolve_right fun hnone => hclosed hnone.2
  have hcounts := h.counts
  unfold FrameScan.pending at hcounts
  rw [if_pos hthread] at hcounts
  refine ⟨s.running, ?_, hcounts⟩
  unfold FrameScan.frameDrops FrameScan.frameDropsClose
  rw [if_pos (by rw [← hthread]; exact htid)]
  dsimp only
  rw [h.drops, h.start]

/-- `frame_drops_at` for one boundary after the other. -/
def frameDropsReads (drops : List (Nat × Nat)) (cursor : Nat) : List Nat → List (Option Nat)
  | [] => []
  | ticks :: rest =>
    (frameDropsAt drops cursor ticks).2 :: frameDropsReads drops (frameDropsAt drops cursor ticks).1 rest

variable {drops before after : List (Nat × Nat)} {cursor : Nat} {d : Nat × Nat}

theorem frameDropsAt_of_drop (h : drops.drop cursor = before ++ d :: after) (hbefore : ∀ e ∈ before, e.1 < d.1) :
    frameDropsAt drops cursor d.1 = (cursor + before.length, some d.2) := by
  have htake : (drops.drop cursor).takeWhile (fun e => decide (e.1 < d.1)) = before := by
    rw [h, List.takeWhile_append_of_pos fun e he => decide_eq_true (hbefore e he),
      List.takeWhile_cons_of_neg (by simp), List.append_nil]
  have hget : drops[cursor + before.length]? = some d := by
    rw [← List.getElem?_drop, h, List.getElem?_append_right (Nat.le_refl _), Nat.sub_self]
    rfl
  unfold frameDropsAt
  rw [htake]
  dsimp only
  rw [hget, Option.bind_some, if_pos rfl]

theorem frameDropsReads_eq (hsorted : (drops.map Prod.fst).Pairwise (· < ·)) {boundaries : List (Nat × Nat)}
    (h : boundaries.Sublist (drops.drop cursor)) :
    frameDropsReads drops cursor (boundaries.map Prod.fst) = boundaries.map fun d => some d.2 := by
  induction boundaries generalizing cursor with
  | nil => rfl
  | cons d boundaries ih =>
    obtain ⟨first, rest, hsplit, hmem, hrest⟩ := List.cons_sublist_iff.1 h
    obtain ⟨before, after, rfl⟩ := List.append_of_mem hmem
    have hdrop : drops.drop cursor = before ++ d :: (after ++ rest) := by
      rw [hsplit, List.append_assoc, List.cons_append]
    have hbefore : ∀ e ∈ before, e.1 < d.1 := by
      intro e he
      have hpart := List.Pairwise.sublist ((List.drop_sublist cursor drops).map Prod.fst) hsorted
      rw [hdrop, List.map_append, List.pairwise_append] at hpart
      exact hpart.2.2 e.1 (List.mem_map_of_mem he) d.1 (List.mem_map_of_mem List.mem_cons_self)
    have hnext : boundaries.Sublist (drops.drop (cursor + before.length)) := by
      rw [← List.drop_drop, hdrop, List.drop_left]
      exact (hrest.trans (List.sublist_append_right after rest)).trans (List.sublist_cons_self d _)
    rw [List.map_cons, List.map_cons, frameDropsReads, frameDropsAt_of_drop hdrop hbefore, ih hnext]

end HashLink.FrameDrops
