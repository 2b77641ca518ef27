import HashLink.Prof.DropAccounting
import Mathlib.Data.List.Induction

/-!
Runs of the writers on one thread, with short calls dropped. Every exit closes the innermost open call, by a
record or by taking its `ENTER` back.
-/

namespace HashLink.Prof

open LittleEndian

variable {t t' : ProfThread} {o : OpenCalls} {clean : Prop} {entered : UInt64 → Nat}

theorem Balanced.weaken (h : Balanced t o clean entered) {o' : OpenCalls} {clean' : Prop}
    {entered' : UInt64 → Nat} (ho : o = o') (hclean : clean' → clean)
    (hentered : ∀ key, key ≠ 0 → entered key = entered' key) : Balanced t o' clean' entered' := by
  subst ho
  refine ⟨h.streams, h.tabled, h.depth, h.opens, fun hc => h.nested (hclean hc), fun key hkey => ?_⟩
  rw [h.counts key hkey, hentered key hkey]

/-- What is accounted for, with room in the table for the next call. -/
structure Accounted (t : ProfThread) (o : OpenCalls) (clean : Prop) (entered : UInt64 → Nat) : Prop where
  balanced : Balanced t o clean entered
  small : Small t

theorem reserve_dropped {size : Nat} {room : Option FreshChunk} (h : t.reserve size room = some t') :
    t'.dropped = t.dropped := by
  unfold ProfThread.reserve at h
  split at h
  · cases h
    rfl
  · split at h
    · cases h
    · obtain ⟨fresh, -, rfl⟩ := Option.map_eq_some_iff.1 h
      exact (nextChunk_other fresh).2.2.1

theorem Small.congr (h : Small t) (hdropped : t'.dropped = t.dropped) : Small t' := by
  unfold Small
  rw [hdropped]
  exact h

theorem record_dropped (t : ProfThread) (r : ProfRecord) (room : Option FreshChunk) :
    (t.record r room).dropped = t.dropped := by
  unfold ProfThread.record
  split
  · rfl
  · next t' hreserve => exact (reserve_dropped hreserve : t'.dropped = t.dropped)

theorem Accounted.record (h : Accounted t o clean entered) {r : ProfRecord} (hr : Quiet r)
    (hsize : r.size + 16 ≤ chunkSize) {room : Option FreshChunk} (hroom : room ≠ none) :
    Accounted (t.record r room) o clean entered :=
  ⟨h.balanced.record hr hsize hroom, h.small.congr (record_dropped t r room)⟩

variable {env : WriterEnv}

theorem Accounted.writeEnter (h : Accounted t o clean entered) (minCall : UInt64) {key : UInt64}
    (hkey : key ≠ 0) (keep : Bool) (hroom : env.room ≠ none) :
    Accounted (t.writeEnter minCall key keep env) ⟨o.depth + 1, key :: o.stack⟩ clean
      fun k => entered k + if key = k then 1 else 0 := by
  obtain ⟨t₁, hreserve, hreserved⟩ := h.balanced.streams.reserve hroom (show 16 + 16 ≤ chunkSize by decide)
  have h₁ := h.balanced.reserved hreserved
  have hsmall : ∀ t₂ : ProfThread, t₂.dropped = t₁.dropped → Small t₂ := fun t₂ ht₂ =>
    h.small.congr (ht₂.trans hreserved.dropped)
  have hentered : ∀ k, entered k + enterCount k [⟨tickMask env.now, .enter key⟩] +
      reportedBy k ⟨tickMask env.now, .enter key⟩ = entered k + if key = k then 1 else 0 := by
    intro k
    change entered k + List.countP _ [_] + 0 = _
    rw [List.countP_singleton, Nat.add_zero]
    congr 1
    by_cases heq : key = k
    · rw [if_pos heq, if_pos (by rw [heq]; exact decide_eq_true rfl)]
    · rw [if_neg heq, if_neg]
      intro hbody
      have hbody' := of_decide_eq_true hbody
      injection hbody' with hsame
      exact heq hsame
  have hfinish : ∀ t₂ : ProfThread, Streams t₂ → t₂.dropped = t₁.dropped → t₂.droppedUsed = t₁.droppedUsed →
      t₂.depth = t₁.depth + 1 → t₂.records = t₁.records ++ [⟨tickMask env.now, .enter key⟩] →
      Accounted t₂ ⟨o.depth + 1, key :: o.stack⟩ clean fun k => entered k + if key = k then 1 else 0 := by
    intro t₂ hstreams hdropped hused hdepth hrecords
    refine ⟨?_, hsmall t₂ hdropped⟩
    have happend := h₁.append hstreams (h₁.tabled.congr hdropped hused) hdropped hrecords
    apply happend.weaken
    · rw [hdepth, h₁.depth]
      rfl
    · exact fun hclean => ⟨hclean, fun hexit => by cases hexit⟩
    · exact fun k _ => hentered k
  unfold ProfThread.writeEnter
  rw [hreserve]
  dsimp only
  have hrecords := records_put t₁ ⟨tickMask env.now, .enter key⟩
  split
  · split
    · next hheld =>
      exact hfinish _ (hreserved.streams.hold hreserved.chunk _ hkey (by rw [hheld]; rfl) _ _) rfl rfl rfl hrecords
    · next start hheld =>
      have hsame : t₁.held = some (t₁.held.getD t₁.cur) := by
        rw [hheld]
        rfl
      exact hfinish _ (hreserved.streams.hold hreserved.chunk _ hkey hsame _ _) rfl rfl rfl hrecords
  · have hcommit := hreserved.streams.put_commit hreserved.chunk ⟨tickMask env.now, .enter key⟩
    refine hfinish _ ?_ rfl rfl rfl hrecords
    exact hcommit.congr rfl rfl rfl rfl rfl rfl rfl

theorem HeldRun.last {kept : List ProfRecord} {run : List (Nat × UInt64)} (h : HeldRun t kept run)
    (hheld : t.held ≠ none) : ∃ run' e, run = run' ++ [e] ∧ load t.memory (t.cur - 8) 8 = bytes 8 e.2.toNat := by
  rcases List.eq_nil_or_concat run with rfl | ⟨run', e, rfl⟩
  · rw [h.held, if_pos rfl] at hheld
    exact absurd rfl hheld
  · rw [List.concat_eq_append] at h ⊢
    refine ⟨run', e, rfl, ?_⟩
    have hkey := h.keys run'.length e List.getElem?_concat_length
    have hcur := h.cur
    rw [List.length_append, List.length_singleton] at hcur
    rwa [show t.pos + 16 * run'.length + 8 = t.cur - 8 by omega] at hkey

theorem Balanced.takeBack (h : Balanced t o clean entered) (hheld : t.held ≠ none) {key : UInt64}
    (hkey : key = UInt64.ofNat (value (load t.memory (t.cur - 8) 8))) :
    key ≠ 0 ∧ ∃ entered' : UInt64 → Nat, (∀ k, k ≠ 0 → entered' k + (if key = k then 1 else 0) = entered k) ∧
      Balanced { t with
        cur := t.cur - 16
        held := if t.held = some (t.cur - 16) then none else t.held
        depth := t.depth - 1
        written := t.written.dropLast } ⟨o.depth - 1, o.stack.tail⟩ clean entered' := by
  obtain ⟨kept, run, hrun⟩ := h.streams.run
  obtain ⟨run', e, rfl, hmemory⟩ := hrun.last hheld
  have hsame : key = e.2 := by
    rw [hkey, hmemory, value_bytes, Nat.mod_eq_of_lt (show e.2.toNat < 256 ^ 8 from e.2.toNat_lt)]
    exact UInt64.ofNat_toNat
  have hne : key ≠ 0 := by
    rw [hsame]
    exact hrun.nonzero e (List.mem_append_right _ (List.mem_singleton_self e))
  have hwritten : t.written = (kept ++ run'.map enterRecord) ++ [enterRecord e] := by
    rw [hrun.written, List.map_append, List.append_assoc]
    rfl
  have hdrop : t.written.dropLast = kept ++ run'.map enterRecord := by
    rw [hwritten, List.dropLast_concat]
  have hrecords : t.records = (t.segments.flatMap Prod.fst ++ t.written.dropLast) ++ [enterRecord e] := by
    unfold ProfThread.records
    rw [List.append_assoc, hdrop, ← hwritten]
  have hcur : t.cur = t.pos + 16 * run'.length + 16 := by
    rw [hrun.cur, List.length_append, List.length_singleton]
    omega
  have hopens : o.stack = e.2 :: openOf (t.segments.flatMap Prod.fst ++ t.written.dropLast) := by
    rw [← h.opens, hrecords, openOf_append]
    rfl
  refine ⟨hne, fun k => enterCount k (t.segments.flatMap Prod.fst ++ t.written.dropLast) +
    reportedCount k (t.segments.flatMap Prod.fst ++ t.written.dropLast) + t.tableCount k, ?_, ?_⟩
  · intro k hk
    have hcount := h.counts k hk
    have hlast : enterCount k [enterRecord e] = if key = k then 1 else 0 := by
      change List.countP _ [_] = _
      rw [List.countP_singleton, hsame]
      by_cases heq : e.2 = k
      · rw [if_pos heq, if_pos]
        change decide (RecordBody.enter e.2 = RecordBody.enter k) = true
        rw [heq]
        exact decide_eq_true rfl
      · rw [if_neg heq, if_neg]
        intro hbody
        have hbody' : RecordBody.enter e.2 = RecordBody.enter k := of_decide_eq_true hbody
        injection hbody' with hcontra
        exact heq hcontra
    rw [hrecords, enterCount_append, reportedCount_append, hlast, show reportedCount k [enterRecord e] = 0 from rfl]
      at hcount
    dsimp only
    omega
  · constructor
    · constructor
      · refine ⟨kept, run', hdrop, ?_, ?_, ?_, ?_⟩
        · change t.cur - 16 = t.pos + 16 * run'.length
          omega
        · intro i e' he'
          apply hrun.keys i e'
          rw [List.getElem?_append_left (List.getElem?_eq_some_iff.mp he').1]
          exact he'
        · exact fun e' he' => hrun.nonzero e' (List.mem_append_left _ he')
        · change (if t.held = some (t.cur - 16) then none else t.held) = _
          have hsome : t.held = some t.pos := by
            rw [hrun.held, if_neg (by simp)]
          rw [hsome]
          by_cases hnil : run' = []
          · rw [if_pos hnil, if_pos]
            rw [hcur, hnil]
            rfl
          · have hpos := List.length_pos_iff.mpr hnil
            rw [if_neg hnil, if_neg]
            rw [Option.some.injEq]
            omega
      · change t.readOffset + (t.written.dropLast.map ProfRecord.size).sum = t.cur - 16
        have hsized := h.streams.sized
        rw [hwritten, List.map_append, List.sum_append] at hsized
        rw [hdrop]
        change _ + (_ + ((enterRecord e).size + 0)) = _ at hsized
        rw [size_enterRecord] at hsized
        omega
      · exact h.streams.read_le
      · intro hnone
        change t.cur - 16 = 0
        rw [h.streams.empty hnone]
    · exact h.tabled.congr rfl rfl
    · change t.depth - 1 = o.depth - 1
      rw [h.depth]
    · change openOf (t.segments.flatMap Prod.fst ++ t.written.dropLast) = o.stack.tail
      rw [hopens]
      rfl
    · intro hclean
      have hnested := h.nested hclean
      rw [hrecords] at hnested
      exact hnested.prefix_of
    · exact fun k _ => rfl

theorem Accounted.hlProfExit (h : Accounted t o clean entered) (minCall : UInt64) (hroom : env.room ≠ none)
    (hdropped : env.droppedRoom ≠ none) :
    Accounted (t.hlProfExit minCall env) ⟨o.depth - 1, o.stack.tail⟩ (clean ∧ o.stack ≠ []) entered := by
  unfold ProfThread.hlProfExit
  dsimp only
  split
  · next hshort =>
    obtain ⟨hkey, entered', hentered, hback⟩ := h.balanced.takeBack hshort.1 rfl
    have hsmall : Small { t with
        cur := t.cur - 16
        held := if t.held = some (t.cur - 16) then none else t.held
        depth := t.depth - 1
        written := t.written.dropLast } := h.small.congr rfl
    obtain ⟨hbalanced, hsmall'⟩ := hback.countDropped hsmall hkey env.now hdropped
    exact ⟨hbalanced.weaken rfl (fun hclean => hclean.1) hentered, hsmall'⟩
  · obtain ⟨t₁, hreserve, hreserved⟩ := h.balanced.streams.reserve hroom (show 8 + 16 ≤ chunkSize by decide)
    have h₁ := h.balanced.reserved hreserved
    rw [hreserve]
    dsimp only
    refine ⟨?_, h.small.congr hreserved.dropped⟩
    have hdepth : Balanced { t₁ with depth := t₁.depth - 1 } ⟨o.depth - 1, o.stack⟩ clean entered := by
      apply h₁.congr
      · exact hreserved.streams.congr rfl rfl rfl rfl rfl rfl rfl
      · rfl
      · rfl
      · rfl
      · change t₁.depth - 1 = o.depth - 1
        rw [h₁.depth]
    have hcommit := hdepth.streams.put_commit hreserved.chunk ⟨tickMask env.now, .exit⟩
    have happend := hdepth.append hcommit (hdepth.tabled.congr rfl rfl) rfl (records_put _ _)
    apply happend.weaken
    · change OpenCalls.mk (t₁.depth - 1) o.stack.tail = _
      rw [h₁.depth]
    · exact fun hclean => ⟨hclean.1, fun _ => hclean.2⟩
    · exact fun _ _ => rfl

theorem Accounted.hlProfUnwind (h : Accounted t o clean entered) {depth : Int} (hroom : env.room ≠ none)
    (hint : o.depth < 2 ^ 31 ∧ -2 ^ 31 ≤ depth) :
    Accounted (t.hlProfUnwind depth env) (o.step (.call (.unwind depth env))) clean entered := by
  have hdepth := h.balanced.depth
  unfold ProfThread.hlProfUnwind OpenCalls.step
  dsimp only
  split
  · next hle =>
    rw [if_pos (by rwa [← hdepth])]
    exact h
  · next hgt =>
    rw [if_neg (by rwa [← hdepth])]
    have hskipped : (UInt64.ofNat (t.depth - depth).toNat).toNat = (o.depth - depth).toNat := by
      rw [UInt64.toNat_ofNat', hdepth]
      exact Nat.mod_eq_of_lt (by omega)
    have hset : Balanced { t with depth := depth } ⟨depth, o.stack⟩ clean entered := by
      apply h.balanced.congr
      · exact h.balanced.streams.congr rfl rfl rfl rfl rfl rfl rfl
      · rfl
      · rfl
      · rfl
      · rfl
    have hsize : (⟨tickMask env.now, .unwind (UInt64.ofNat (t.depth - depth).toNat)⟩ : ProfRecord).size = 16 :=
      size_two rfl
    obtain ⟨t₁, hreserve, hreserved⟩ := hset.streams.reserve hroom (show 16 + 16 ≤ chunkSize by decide)
    have h₁ := hset.reserved hreserved
    refine ⟨?_, h.small.congr (record_dropped _ _ _)⟩
    unfold ProfThread.record
    rw [hsize, hreserve]
    have hcommit := hreserved.streams.put_commit hreserved.chunk
      ⟨tickMask env.now, .unwind (UInt64.ofNat (t.depth - depth).toNat)⟩
    have happend := h₁.append hcommit (h₁.tabled.congr rfl rfl) rfl (records_put _ _)
    apply happend.weaken
    · change OpenCalls.mk t₁.depth (o.stack.drop (UInt64.ofNat (t.depth - depth).toNat).toNat) = _
      rw [h₁.depth, hskipped]
    · exact fun hclean => ⟨hclean, fun hexit => by cases hexit⟩
    · exact fun _ _ => rfl

theorem Accounted.hlProfFrame (h : Accounted t o clean entered) (idle : Bool) (frameSet : UInt32)
    (hroom : env.room ≠ none) (hdropped : env.droppedRoom ≠ none) :
    Accounted (t.hlProfFrame idle frameSet env) o clean entered := by
  obtain ⟨t₁, hreserve, hreserved⟩ := h.balanced.streams.reserve hroom (show 16 + 16 ≤ chunkSize by decide)
  have h₁ := h.balanced.reserved hreserved
  unfold ProfThread.hlProfFrame
  rw [hreserve]
  dsimp only
  have hquiet : Quiet ⟨tickMask env.now, if idle then .frameIdle frameSet else .frameMark frameSet⟩ := by
    cases idle
    · trivial
    · trivial
  have hput := h₁.append_quiet (hreserved.streams.put_commit hreserved.chunk _) (h₁.tabled.congr rfl rfl) rfl rfl
    hquiet (records_put _ _)
  have hsmall : Small (t₁.put ⟨tickMask env.now, if idle then .frameIdle frameSet else .frameMark frameSet⟩).commit :=
    h.small.congr hreserved.dropped
  exact ⟨hput.writeDropped env.now hdropped, hsmall.writeDropped env.now _⟩

theorem Accounted.releaseThread (h : Accounted t o clean entered) (hdropped : env.droppedRoom ≠ none) :
    Accounted (t.releaseThread env) o clean entered := by
  have hbalanced := h.balanced.writeDropped env.now hdropped
  have hsmall := h.small.writeDropped env.now env.droppedRoom
  unfold ProfThread.releaseThread
  dsimp only
  generalize t.writeDropped env.now env.droppedRoom = t₁ at hbalanced hsmall
  split
  · exact ⟨hbalanced, hsmall⟩
  · refine ⟨?_, hsmall⟩
    have hstreams : Streams t₁.commit := by
      have hold := hbalanced.streams
      obtain ⟨kept, run, hrun⟩ := hold.run
      refine ⟨⟨t₁.written, [], (List.append_nil _).symm, rfl, fun i e he => ?_,
        fun e he => absurd he List.not_mem_nil, rfl⟩, hold.sized, ?_, hold.empty⟩
      · rw [List.getElem?_nil] at he
        cases he
      · have hsized := hold.sized
        change t₁.readOffset ≤ t₁.cur
        omega
    exact hbalanced.congr hstreams rfl rfl rfl hbalanced.depth

theorem HeldRun.count {kept : List ProfRecord} {run : List (Nat × UInt64)} (h : HeldRun t kept run) :
    t.written.length - (t.cur - t.pos) / 16 = kept.length := by
  have hlength : t.written.length = kept.length + run.length := by
    rw [h.written, List.length_append, List.length_map]
  have hcur := h.cur
  have hdiv : (t.cur - t.pos) / 16 = run.length := by
    rw [hcur, Nat.add_sub_cancel_left, Nat.mul_div_cancel_left _ (by decide)]
  omega

theorem Accounted.drainThread (h : Accounted t o clean entered) : Accounted t.drainThread o clean entered := by
  unfold ProfThread.drainThread
  split
  · next hmore =>
    refine ⟨?_, h.small⟩
    obtain ⟨kept, run, hrun⟩ := h.balanced.streams.run
    have hcount := hrun.count
    have htake : t.written.take kept.length = kept := by rw [hrun.written, List.take_left]
    have hdrop : t.written.drop kept.length = run.map enterRecord := by rw [hrun.written, List.drop_left]
    dsimp only
    rw [hcount, htake, hdrop]
    apply h.balanced.congr
    · constructor
      · exact ⟨[], run, rfl, hrun.cur, hrun.keys, hrun.nonzero, hrun.held⟩
      · change t.pos + ((run.map enterRecord).map ProfRecord.size).sum = t.cur
        rw [sum_sizes_enters, hrun.cur]
      · exact Nat.le_refl _
      · exact h.balanced.streams.empty
    · rfl
    · rfl
    · change List.flatMap Prod.fst (t.segments ++ [(kept, _)]) ++ run.map enterRecord = _
      unfold ProfThread.records
      rw [List.flatMap_append, List.flatMap_cons, List.flatMap_nil, List.append_nil, List.append_assoc,
        ← hrun.written]
    · exact h.balanced.depth
  · exact h

theorem Accounted.step (h : Accounted t o clean entered) (minCall : UInt64) {s : ProfStep} (hroomy : s.Roomy)
    (hkeyed : s.Keyed) (hint : s.InInt o) :
    Accounted (t.step minCall s) (o.step s) (clean ∧ ∀ env, s = .call (.exit env) → o.stack ≠ [])
      fun key => entered key + enteredCount key [s] := by
  have hkeep : ∀ {t' : ProfThread} {o' : OpenCalls}, Accounted t' o' clean entered →
      (∀ key, enteredCount key [s] = 0) →
      Accounted t' o' (clean ∧ ∀ env, s = .call (.exit env) → o.stack ≠ [])
        fun key => entered key + enteredCount key [s] := fun hc hzero =>
    ⟨hc.balanced.weaken rfl And.left fun key _ => by rw [hzero, Nat.add_zero], hc.small⟩
  cases s with
  | pausedUnwind depth =>
    refine hkeep ?_ fun key => rfl
    have hdepth := h.balanced.depth
    unfold ProfThread.step OpenCalls.step
    dsimp only
    rw [hdepth]
    split
    · exact h
    · refine ⟨?_, h.small⟩
      apply h.balanced.congr
      · exact h.balanced.streams.congr rfl rfl rfl rfl rfl rfl rfl
      · rfl
      · rfl
      · rfl
      · rfl
  | call c =>
    cases c with
    | enter key keep env =>
      obtain ⟨hroom, -⟩ := hroomy env rfl
      have henter := h.writeEnter minCall hkeyed keep hroom
      refine ⟨henter.balanced.weaken rfl And.left fun k _ => ?_, henter.small⟩
      change _ = entered k + List.countP _ [_]
      rw [List.countP_singleton]
      by_cases heq : key = k
      · rw [if_pos heq, if_pos (decide_eq_true heq)]
      · rw [if_neg heq, if_neg]
        exact fun hsame => heq (of_decide_eq_true hsame)
    | exit env =>
      obtain ⟨hroom, hdropped⟩ := hroomy env rfl
      have hexit := h.hlProfExit minCall hroom hdropped
      exact ⟨hexit.balanced.weaken rfl (fun hc => ⟨hc.1, hc.2 env rfl⟩) fun _ _ => rfl, hexit.small⟩
    | unwind depth env => exact hkeep (h.hlProfUnwind (hroomy env rfl).1 hint) fun key => rfl
    | spanBegin name units encoding env =>
      refine hkeep (h.record (r := ⟨tickMask env.now, .spanBegin (ProfThread.nameOf name units encoding)⟩) trivial
        ?_ (hroomy env rfl).1) fun key => rfl
      have hlength := length_nameOf name units encoding
      rw [size_eq, RecordBody.bytes, List.length_append, length_bytes]
      unfold pad8 chunkSize
      omega
    | spanEnd env =>
      refine hkeep (h.record (r := ⟨tickMask env.now, .spanEnd⟩) trivial ?_ (hroomy env rfl).1) fun key => rfl
      rw [size_one rfl]
      decide
    | frame idle frameSet env =>
      obtain ⟨hroom, hdropped⟩ := hroomy env rfl
      exact hkeep (h.hlProfFrame idle frameSet hroom hdropped) fun key => rfl
    | counter name units encoding value env =>
      refine hkeep (h.record (r := ⟨tickMask env.now, .counter value (ProfThread.nameOf name units encoding)⟩)
        trivial ?_ (hroomy env rfl).1) fun key => rfl
      have hlength := length_nameOf name units encoding
      rw [size_eq, RecordBody.bytes, List.length_append, List.length_append, length_bytes, length_bytes]
      unfold pad8 chunkSize
      omega
    | event id payload length env =>
      refine hkeep ?_ fun key => rfl
      change Accounted (t.hlProfEvent id payload length env) o clean entered
      unfold ProfThread.hlProfEvent
      split
      · exact h
      · next hfits =>
        refine h.record (r := ⟨tickMask env.now, .event id (load payload 0 length.toNat)⟩) hkeyed ?_
          (hroomy env rfl).1
        rw [size_eq, RecordBody.bytes, List.length_append, length_bytes, length_load]
        unfold chunkSize at hfits ⊢
        unfold pad8
        omega
    | sample tid flags frames count env =>
      refine hkeep ?_ fun key => rfl
      change Accounted (t.hlProfSample tid flags frames count env) o clean entered
      unfold ProfThread.hlProfSample
      dsimp only
      split
      · exact h
      · next hfits =>
        rw [not_or] at hfits
        refine h.record (r := ⟨tickMask env.now, .sample tid flags
          ((List.range (min count.toNat 0xFFFF)).map frames)⟩) trivial ?_ (hroomy env rfl).1
        rw [size_eq, RecordBody.bytes, List.length_append, length_bytes, length_frames, List.length_map,
          List.length_range]
        unfold chunkSize at hfits ⊢
        unfold pad8
        omega
    | release env => exact hkeep (h.releaseThread (hroomy env rfl).2) fun key => rfl
    | drain => exact hkeep h.drainThread fun key => rfl

theorem start_accounted (depth : Int) :
    Accounted { ProfThread.start with depth := depth } ⟨depth, []⟩ True fun _ => 0 where
  balanced :=
    { streams := .of_empty rfl rfl rfl rfl rfl
      tabled := (tabled_clear .start).congr rfl rfl
      depth := rfl
      opens := rfl
      nested := fun _ before r after hsplit => by
        cases before with
        | nil => cases hsplit
        | cons => cases hsplit
      counts := fun key _ => (Nat.zero_add _).trans (tableCount_clear .start) }
  small := (small_clear .start).congr rfl

def Possible (depth : Int) (steps : List ProfStep) : Prop :=
  ∀ before s after, steps = before ++ s :: after → s.Roomy ∧ s.Keyed ∧ s.InInt (openCalls depth before)

/-- No exit is recorded whose call was not. -/
def Paired (depth : Int) (steps : List ProfStep) : Prop :=
  ∀ before env after, steps = before ++ .call (.exit env) :: after → (openCalls depth before).stack ≠ []

theorem run_accounted (minCall : UInt64) (depth : Int) {steps : List ProfStep} (h : Possible depth steps) :
    Accounted (runSteps minCall depth steps) (openCalls depth steps) (Paired depth steps)
      fun key => enteredCount key steps := by
  induction steps using List.reverseRecOn with
  | nil =>
    have hstart := start_accounted depth
    exact ⟨hstart.balanced.weaken rfl (fun _ => trivial) fun _ _ => rfl, hstart.small⟩
  | append_singleton steps s ih =>
    obtain ⟨hroomy, hkeyed, hint⟩ := h steps s [] rfl
    have hbefore := ih fun before s' after hsplit =>
      h before s' (after ++ [s]) (by rw [hsplit, List.append_assoc]; rfl)
    have hstep := hbefore.step minCall hroomy hkeyed hint
    have hrun : runSteps minCall depth (steps ++ [s]) = (runSteps minCall depth steps).step minCall s := by
      unfold runSteps
      rw [List.foldl_append]
      rfl
    have hopen : openCalls depth (steps ++ [s]) = (openCalls depth steps).step s := by
      unfold openCalls
      rw [List.foldl_append]
      rfl
    rw [hrun, hopen]
    refine ⟨hstep.balanced.weaken rfl (fun hpaired => ⟨?_, ?_⟩) fun key _ => ?_, hstep.small⟩
    · exact fun before env after hsplit =>
        hpaired before env (after ++ [s]) (by rw [hsplit, List.append_assoc]; rfl)
    · rintro env rfl
      exact hpaired steps env [] rfl
    · exact List.countP_append.symm

theorem published_prefix (t : ProfThread) : ∃ held, t.records = t.published ++ held := by
  refine ⟨t.written.drop (t.written.length - (t.cur - t.pos) / 16), ?_⟩
  unfold ProfThread.records ProfThread.published
  rw [List.append_assoc, List.take_append_drop]

/-- With no record lost for lack of a chunk, every exit closes the innermost of the calls that are recorded and
open, by a record or by taking its `ENTER` back. The stream is nested when no exit is recorded whose call was not,
and every call that was entered is kept, reported or still in the table. -/
theorem dropped_calls_accounted (minCall : UInt64) (depth : Int) (steps : List ProfStep)
    (h : Possible depth steps) :
    openOf (runSteps minCall depth steps).records = (openCalls depth steps).stack ∧
      (Paired depth steps → Nested (runSteps minCall depth steps).published) ∧
      ∀ key, key ≠ 0 → enterCount key (runSteps minCall depth steps).records +
          reportedCount key (runSteps minCall depth steps).records +
          (runSteps minCall depth steps).tableCount key = enteredCount key steps := by
  have hbalanced := (run_accounted minCall depth h).balanced
  refine ⟨hbalanced.opens, fun hpaired => ?_, hbalanced.counts⟩
  have hnested := hbalanced.nested hpaired
  obtain ⟨held, hheld⟩ := published_prefix (runSteps minCall depth steps)
  rw [hheld] at hnested
  exact hnested.prefix_of

/-- A call's environment, with chunks in the pool. -/
def roomyEnv (now : UInt64) : WriterEnv := ⟨now, 0, some ⟨fun _ => 0, none⟩, some ⟨fun _ => 0, none⟩⟩

def shortCallSteps : List ProfStep :=
  [.call (.enter 7 false (roomyEnv 0)), .call (.enter 5 false (roomyEnv 10)), .call (.exit (roomyEnv 12)),
    .call (.frame false 1 (roomyEnv 20)), .call (.exit (roomyEnv 300))]

theorem dropped_calls_accounted_short :
    Nested (runSteps 100 0 shortCallSteps).published ∧ enterCount 5 (runSteps 100 0 shortCallSteps).records +
        reportedCount 5 (runSteps 100 0 shortCallSteps).records +
        (runSteps 100 0 shortCallSteps).tableCount 5 = 1 := by
  have hpossible : Possible 0 shortCallSteps := by
    intro before s after hsplit
    have hmem : s ∈ shortCallSteps := by
      rw [hsplit]
      exact List.mem_append_right _ List.mem_cons_self
    simp only [shortCallSteps, List.mem_cons, List.not_mem_nil, or_false] at hmem
    rcases hmem with rfl | rfl | rfl | rfl | rfl
    · exact ⟨fun env henv => by cases henv; exact ⟨nofun, nofun⟩, show (7 : UInt64) ≠ 0 by decide, trivial⟩
    · exact ⟨fun env henv => by cases henv; exact ⟨nofun, nofun⟩, show (5 : UInt64) ≠ 0 by decide, trivial⟩
    · exact ⟨fun env henv => by cases henv; exact ⟨nofun, nofun⟩, trivial, trivial⟩
    · exact ⟨fun env henv => by cases henv; exact ⟨nofun, nofun⟩, trivial, trivial⟩
    · exact ⟨fun env henv => by cases henv; exact ⟨nofun, nofun⟩, trivial, trivial⟩
  have hpaired : Paired 0 shortCallSteps := by
    intro before env after hsplit
    rcases before with _ | ⟨a, _ | ⟨b, _ | ⟨c, _ | ⟨d, _ | ⟨e, rest⟩⟩⟩⟩⟩
    · cases hsplit
    · cases hsplit
    · cases hsplit
      exact List.cons_ne_nil _ _
    · cases hsplit
    · cases hsplit
      exact List.cons_ne_nil _ _
    · have hlength := congrArg List.length hsplit
      simp [shortCallSteps] at hlength
  obtain ⟨-, hnested, hcounts⟩ := dropped_calls_accounted 100 0 shortCallSteps hpossible
  exact ⟨hnested hpaired, hcounts 5 (by decide)⟩

def zeroKeySteps : List ProfStep :=
  [.call (.enter 0 false (roomyEnv 0)), .call (.exit (roomyEnv 1)), .call (.enter 5 false (roomyEnv 2)),
    .call (.exit (roomyEnv 3)), .call (.frame false 1 (roomyEnv 4))]

/-- An event of the program with the id of dropped calls, and an entry of key 5. -/
def reportingSteps : List ProfStep :=
  [.call (.event (UInt32.ofNat eventDroppedCalls) (fun i => if i = 0 then 5 else if i = 8 then 1 else 0) 16
    (roomyEnv 0))]

/-- An exit whose call was entered while recording was paused closes nothing. The key 0 marks a free slot of the
table, so that its dropped calls are lost, and an event of the program may report calls that were not entered. -/
theorem unpaired_exit_not_nested :
    ¬Nested (runSteps 0 0 [.call (.exit (roomyEnv 5))]).published ∧
      enterCount 0 (runSteps 100 0 zeroKeySteps).records + reportedCount 0 (runSteps 100 0 zeroKeySteps).records +
          (runSteps 100 0 zeroKeySteps).tableCount 0 ≠ enteredCount 0 zeroKeySteps ∧
      enterCount 5 (runSteps 0 0 reportingSteps).records + reportedCount 5 (runSteps 0 0 reportingSteps).records +
          (runSteps 0 0 reportingSteps).tableCount 5 ≠ enteredCount 5 reportingSteps := by
  refine ⟨fun hnested => ?_, by decide +kernel, by decide +kernel⟩
  have hpublished : (runSteps 0 0 [.call (.exit (roomyEnv 5))]).published = [⟨5, .exit⟩] := by decide +kernel
  rw [hpublished] at hnested
  exact hnested [] _ [] rfl rfl rfl

end HashLink.Prof
