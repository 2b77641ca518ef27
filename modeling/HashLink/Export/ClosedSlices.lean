import HashLink.Export.Slices
import Mathlib.Data.List.Dedup
import Mathlib.Data.List.Perm.Subperm

/-!
The slices of the exported tracks. An end always closes the innermost slice, and when the capture ends everything is
closed but the spans below the first call of a thread.
-/

namespace HashLink.Slices

open NestedSlices

inductive Slice where
  | call
  | span
  deriving DecidableEq

def Kind.slice : Kind → Option Slice
  | .call => some .call
  | .span => some .span
  | .hidden => none

def mark (e : Synth) : Option (Mark Slice Slice) :=
  if e.kind ≠ 2 then none
  else if e.value = profileEventSpanBegin then some (.begins .span)
  else if e.value = exportCallBegin then some (.begins .call)
  else if e.value = profileEventSpanEnd then some (.ends .span)
  else if e.value = exportCallEnd then some (.ends .call)
  else none

def marks (t : UInt32) (out : List Synth) : List (Mark Slice Slice) :=
  out.filterMap fun e => if e.tid = t then mark e else none

/-- The ends on a track are those of the innermost slices, and leave these open, the innermost first. -/
def Track (s : Export) (t : UInt32) (l : List Slice) : Prop := playAll id [] (marks t s.out) = some l

def slices (st : OpenStack) : List Slice := st.kinds.filterMap Kind.slice

def FrameSet.slices (f : FrameSet) : List Slice := if f.isOpen then [.span] else []

/-- The stacks and the frame sets say what is open. -/
structure Good (s : Export) : Prop where
  thread : ∀ t, (∀ i, t ≠ frameTrack i) → Track s t (slices (s.openStacks t))
  frame : ∀ i, Track s (frameTrack i) (s.frameSets i).slices

def Counted (s : Export) : Prop := ∀ t, (s.openStacks t).calls = (s.openStacks t).kinds.countP (· ≠ .span)

variable {s s' : Export} {t tid : UInt32} {es : List Synth}

theorem marks_append (t : UInt32) (out es : List Synth) : marks t (out ++ es) = marks t out ++ marks t es :=
  List.filterMap_append

theorem marks_other (h : ∀ e ∈ es, e.tid = tid) (hne : t ≠ tid) : marks t es = [] := by
  rw [marks, List.filterMap_eq_nil_iff]
  intro e he
  exact if_neg fun heq => hne (heq.symm.trans (h e he))

theorem marks_self (h : ∀ e ∈ es, e.tid = tid) : marks tid es = es.filterMap mark :=
  List.filterMap_congr fun e he => if_pos (h e he)

theorem Track.append {l l' : List Slice} (h : Track s t l) (hout : s'.out = s.out ++ es)
    (hplay : playAll id l (marks t es) = some l') : Track s' t l' := by
  rw [Track, hout, marks_append, playAll_append h]
  exact hplay

theorem frameTrack_injective : ∀ i j, frameTrack i = frameTrack j → i = j := by decide

/-- What the decoding of a thread's record does, one thing at a time. Only what is free may begin or end a slice that is
not on the stack. -/
inductive Step (tid : UInt32) (free : Prop) : Export → Export → Prop where
  | note {s s' : Export} (hused : s'.used = s.used) (hout : s'.out = s.out) (hframes : s'.frameSets = s.frameSets)
      (hkinds : ∀ t, (s'.openStacks t).kinds = (s.openStacks t).kinds)
      (hcalls : ∀ t, (s'.openStacks t).calls = (s.openStacks t).calls) : Step tid free s s'
  | emit (s : Export) (e : Synth) (h : mark e = none ∨ free) : Step tid free s { s with out := s.out ++ [e] }
  | push (s : Export) (kind : Kind) (es : List Synth) (htid : ∀ e ∈ es, e.tid = tid)
      (hmark : es.filterMap mark = kind.slice.toList.map .begins) :
      Step tid free s { s.stackPush tid kind with out := s.out ++ es }
  | close (s : Export) (time : UInt64) (calls : Nat) (untilSpan : Bool) :
      Step tid free s (closeSlices s time tid calls untilSpan)
  | frame (s : Export) (i : Fin 16) (f : FrameSet) (es : List Synth) (htid : ∀ e ∈ es, e.tid = frameTrack i)
      (hplay : playAll id (s.frameSets i).slices (es.filterMap mark) = some f.slices) :
      Step tid free s { s.setFrame i f with out := s.out ++ es }

theorem closeLoop_split (calls : Nat) (untilSpan : Bool) (kinds : List Kind) (n : Nat) :
    (closeLoop calls untilSpan kinds n).2.2 ++ (closeLoop calls untilSpan kinds n).1 = kinds := by
  induction kinds generalizing n with
  | nil => rfl
  | cons kind kinds ih =>
    unfold closeLoop
    split
    · rfl
    · dsimp only
      split
      · rfl
      · exact congrArg (kind :: ·) (ih _)

theorem count_rest {kind : Kind} {kinds : List Kind} {n : Nat} (h : n = (kind :: kinds).countP (· ≠ .span)) :
    (if kind = .span then n else n - 1) = kinds.countP (· ≠ .span) := by
  rw [List.countP_cons] at h
  by_cases hspan : kind = .span
  · simpa [hspan] using h
  · rw [if_pos (decide_eq_true hspan)] at h
    rw [if_neg hspan, h, Nat.add_sub_cancel]

theorem closeLoop_count (calls : Nat) (untilSpan : Bool) (kinds : List Kind) (n : Nat)
    (h : n = kinds.countP (· ≠ .span)) :
    (closeLoop calls untilSpan kinds n).2.1 = (closeLoop calls untilSpan kinds n).1.countP (· ≠ .span) := by
  induction kinds generalizing n with
  | nil => exact h
  | cons kind kinds ih =>
    have hleft : (if kind = .span then n else n - 1) = kinds.countP (· ≠ .span) := count_rest h
    unfold closeLoop
    split
    · exact h
    · dsimp only
      split
      · exact hleft
      · exact ih _ hleft

theorem closeLoop_zero (kinds : List Kind) (n : Nat) (h : n = kinds.countP (· ≠ .span)) :
    (closeLoop 0 false kinds n).1.filterMap Kind.slice = [] ↔ kinds.getLast? ≠ some .span := by
  induction kinds generalizing n with
  | nil => simp [closeLoop]
  | cons kind kinds ih =>
    unfold closeLoop
    by_cases hn : n = 0
    · have hspans : ∀ k ∈ kind :: kinds, k = .span := by
        rw [hn, eq_comm, List.countP_eq_zero] at h
        simpa using h
      have hlast : (kind :: kinds).getLast? = some .span := by
        rw [List.getLast?_eq_some_getLast (List.cons_ne_nil kind kinds), hspans _ (List.getLast_mem _)]
      rw [if_pos ⟨rfl, Nat.le_of_eq hn⟩, hlast, hspans kind (List.mem_cons_self ..)]
      simp [Kind.slice]
    · have hleft : (if kind = .span then n else n - 1) = kinds.countP (· ≠ .span) := count_rest h
      rw [if_neg (by omega)]
      simp only [Bool.false_eq_true, false_and, if_false]
      rw [ih _ hleft]
      cases kinds with
      | nil =>
        have hkind : kind ≠ .span := fun heq => hn (by rw [h, heq]; rfl)
        simpa using hkind
      | cons k kinds => rw [List.getLast?_cons_cons]

theorem endEvents_tid (time : UInt64) (tid : UInt32) (kinds : List Kind) :
    ∀ e ∈ kinds.filterMap (endEvent time tid), e.tid = tid := by
  intro e he
  obtain ⟨kind, -, hkind⟩ := List.mem_filterMap.1 he
  cases kind <;> cases hkind <;> rfl

theorem endEvents_marks (time : UInt64) (tid : UInt32) (kinds : List Kind) :
    (kinds.filterMap (endEvent time tid)).filterMap mark = (kinds.filterMap Kind.slice).map .ends := by
  rw [List.filterMap_filterMap, List.map_filterMap]
  refine List.filterMap_congr fun kind _ => ?_
  cases kind <;> rfl

variable {free : Prop}

theorem good_frames (h : Good s) (htid : ∀ i, tid ≠ frameTrack i) (hout : s'.out = s.out ++ es)
    (hes : ∀ e ∈ es, e.tid = tid) (hframes : s'.frameSets = s.frameSets)
    (hother : ∀ t, t ≠ tid → s'.openStacks t = s.openStacks t)
    (hplay : playAll id (slices (s.openStacks tid)) (es.filterMap mark) = some (slices (s'.openStacks tid))) :
    Good s' where
  thread t ht := by
    by_cases heq : t = tid
    · subst heq
      exact (h.thread t ht).append hout (by rwa [marks_self hes])
    · rw [hother t heq]
      exact (h.thread t ht).append hout (by rw [marks_other hes heq]; rfl)
  frame i := by
    rw [hframes]
    exact (h.frame i).append hout (by rw [marks_other hes (htid i).symm]; rfl)

theorem setStack_self (s : Export) (tid : UInt32) (st : OpenStack) : (s.setStack tid st).openStacks tid = st :=
  Function.update_self ..

theorem setStack_other (s : Export) (st : OpenStack) (h : t ≠ tid) :
    (s.setStack tid st).openStacks t = s.openStacks t := Function.update_of_ne h ..

theorem step_good (htid : ∀ i, tid ≠ frameTrack i) (h : Good s) (hstep : Step tid False s s') : Good s' := by
  cases hstep with
  | note _ hout hframes hkinds _ =>
    have hnil : s'.out = s.out ++ [] := by rw [hout, List.append_nil]
    refine ⟨fun t ht => (h.thread t ht).append hnil ?_, fun i => (h.frame i).append hnil ?_⟩
    · rw [slices, slices, hkinds]
      rfl
    · rw [hframes]
      rfl
  | emit e hmark =>
    have hnone : ∀ t, marks t [e] = [] := by
      intro t
      rw [marks, List.filterMap_cons_none, List.filterMap_nil]
      rw [hmark.resolve_right id, ite_self]
    exact ⟨fun t ht => (h.thread t ht).append rfl (by rw [hnone]; rfl),
      fun i => (h.frame i).append rfl (by rw [hnone]; rfl)⟩
  | push kind es hes hmark =>
    refine good_frames h htid rfl hes rfl (fun t ht => setStack_other s _ ht) ?_
    have hnew : slices ((s.stackPush tid kind).openStacks tid) =
        kind.slice.toList ++ slices (s.openStacks tid) := by
      rw [Export.stackPush, setStack_self, slices, slices]
      cases kind <;> rfl
    show _ = some (slices ((s.stackPush tid kind).openStacks tid))
    rw [hmark, hnew, playAll_begins]
    cases kind <;> rfl
  | close time calls untilSpan =>
    refine good_frames h htid rfl (endEvents_tid time tid _) rfl (fun t ht => setStack_other s _ ht) ?_
    have hsplit := closeLoop_split calls untilSpan (s.openStacks tid).kinds (s.openStacks tid).calls
    have hopen := congrArg (List.filterMap Kind.slice) hsplit
    rw [List.filterMap_append] at hopen
    rw [endEvents_marks, slices, ← hopen]
    show _ = some (slices ((s.setStack tid _).openStacks tid))
    rw [setStack_self]
    exact playAll_ends _
  | frame i f es hes hplay =>
    refine ⟨fun t ht => (h.thread t ht).append rfl (by rw [marks_other hes (ht i)]; rfl), fun j => ?_⟩
    refine (h.frame j).append rfl ?_
    by_cases heq : j = i
    · subst heq
      rw [marks_self hes]
      simpa [Export.setFrame] using hplay
    · rw [marks_other hes fun hne => heq (frameTrack_injective j i hne)]
      simp [Export.setFrame, Function.update_of_ne heq]

theorem step_counted (h : Counted s) (hstep : Step tid free s s') : Counted s' := by
  intro t
  cases hstep with
  | note _ _ _ hkinds hcalls => rw [hkinds, hcalls, h t]
  | emit => exact h t
  | frame => exact h t
  | push kind =>
    show ((s.stackPush tid kind).openStacks t).calls = _
    by_cases heq : t = tid
    · subst heq
      simp only [Export.stackPush, setStack_self, h t]
      cases kind <;> simp
    · rw [Export.stackPush, setStack_other _ _ heq, h t]
  | close time calls untilSpan =>
    show ((s.setStack tid _).openStacks t).calls = ((s.setStack tid _).openStacks t).kinds.countP _
    by_cases heq : t = tid
    · subst heq
      rw [setStack_self]
      exact closeLoop_count _ _ _ _ (h t)
    · rw [setStack_other _ _ heq, h t]

theorem step_used (hstep : Step tid free s s') : s'.used = s.used := by
  cases hstep with
  | note hused => exact hused
  | emit | push | close | frame => rfl

theorem step_other (hne : t ≠ tid) (hstep : Step tid free s s') :
    (s'.openStacks t).kinds = (s.openStacks t).kinds := by
  cases hstep with
  | note _ _ _ hkinds => exact hkinds t
  | emit | frame => rfl
  | push | close => exact congrArg OpenStack.kinds (setStack_other s _ hne)

abbrev Runs (tid : UInt32) (free : Prop) : Export → Export → Prop := Relation.ReflTransGen (Step tid free)

theorem runs_foldl {α : Type} {f : Export → α → Export} (l : List α) (s : Export)
    (h : ∀ s, ∀ x ∈ l, Runs tid free s (f s x)) : Runs tid free s (l.foldl f s) := by
  induction l generalizing s with
  | nil => exact .refl
  | cons x l ih =>
    exact (h s x (List.mem_cons_self ..)).trans (ih (f s x) fun s y hy => h s y (List.mem_cons_of_mem _ hy))

def sliceIds : List UInt32 := [profileEventSpanBegin, exportCallBegin, profileEventSpanEnd, exportCallEnd]

theorem runs_event {time : UInt64} {value : UInt32} {payload : List UInt8} (h : value ∉ sliceIds ∨ free) (t : UInt32) :
    Runs tid free s (s.synthEvent time t value payload) := by
  refine .single (.emit s _ (h.imp (fun hvalue => ?_) id))
  simp only [sliceIds, List.mem_cons, List.not_mem_nil, or_false, not_or] at hvalue
  simp [mark, hvalue]

theorem runs_setStack {st : OpenStack} (hkinds : st.kinds = (s.openStacks tid).kinds)
    (hcalls : st.calls = (s.openStacks tid).calls) : Runs tid free s (s.setStack tid st) := by
  refine .single (.note rfl rfl rfl (fun t => ?_) fun t => ?_)
  all_goals
    by_cases heq : t = tid
    · subst heq
      rw [setStack_self]
      assumption
    · rw [setStack_other s st heq]

theorem runs_begin {time : UInt64} {kind : Kind} {value : UInt32} {payload : List UInt8}
    (h : mark ⟨2, 0, time, tid, value, payload⟩ = kind.slice.map .begins) (hslice : kind ≠ .hidden) :
    Runs tid free s ((s.stackPush tid kind).synthEvent time tid value payload) := by
  refine .single (.push s kind _ (by simp) ?_)
  rw [List.filterMap_cons, h]
  cases kind
  · rfl
  · rfl
  · exact absurd rfl hslice

theorem runs_hidden : Runs tid free s (s.stackPush tid .hidden) := by
  have hstep : Step tid free s { s.stackPush tid .hidden with out := s.out ++ [] } := .push s .hidden [] nofun rfl
  rw [List.append_nil] at hstep
  exact .single hstep

theorem runs_pauseFrame (time : UInt64) (s : Export) (i : Fin 16) : Runs tid free s (pauseFrame time tid s i) := by
  unfold pauseFrame
  dsimp only
  split
  · next h =>
      have hend : Runs tid free s ((s.setFrame i { s.frameSets i with isOpen := false }).synthEvent time (frameTrack i)
          profileEventSpanEnd []) := by
        refine .single (.frame s i _ _ (by simp) ?_)
        rw [FrameSet.slices, if_pos h.1]
        rfl
      split
      · exact hend.trans (runs_event (.inl (by decide)) tid)
      · exact hend
  · exact .refl

variable (c : Capture)

theorem runs_crossPause (s : Export) (ticks : Nat) : Runs tid free s (crossPause c tid s ticks) := by
  have hpause : Runs tid free s (s.setStack tid { s.openStacks tid with pause := (s.openStacks tid).pause + 1 }) :=
    runs_setStack rfl rfl
  exact (hpause.trans (.single (.close _ _ 0 false))).trans
    (runs_foldl (f := pauseFrame (c.clockSeconds ticks) tid) _ _ fun s i _ => runs_pauseFrame _ s i)

theorem runs_crossPauses (ticks fuel : Nat) (s : Export) : Runs tid free s (crossPauses c tid ticks fuel s) := by
  induction fuel generalizing s with
  | zero => exact .refl
  | succ fuel ih =>
    unfold crossPauses
    split
    · exact .refl
    · split
      · exact (runs_crossPause c s _).trans (ih _)
      · exact .refl

theorem runs_nameEntry (name : List UInt8) (s : Export) : Runs tid free s (nameEntry c tid name s) := by
  have hnamed : Runs tid free s (s.setStack tid { s.openStacks tid with named := true }) := runs_setStack rfl rfl
  unfold nameEntry
  dsimp only
  split
  · split
    · exact hnamed.trans (runs_event (.inl (by decide)) tid)
    · exact hnamed
  · exact .refl

theorem runs_decodeEnter (time key : UInt64) (s : Export) : Runs tid free s (decodeEnter c tid time key s) := by
  unfold decodeEnter
  dsimp only
  split
  · exact runs_hidden
  · exact (runs_nameEntry c _ s).trans (runs_begin rfl (by decide))

theorem runs_dropsCounter (time : UInt64) (ticks : Nat) (s : Export) :
    Runs tid free s (dropsCounter c tid time ticks s) := by
  have hcursor : ∀ cursor, Runs tid free s { s with cursor := cursor } :=
    fun _ => .single (.note rfl rfl rfl (fun _ => rfl) fun _ => rfl)
  unfold dropsCounter
  dsimp only
  split
  · exact (hcursor _).trans (runs_event (.inl (by decide)) tid)
  · exact hcursor _

theorem dropsCounter_frameSets (time : UInt64) (ticks : Nat) (s : Export) :
    (dropsCounter c tid time ticks s).frameSets = s.frameSets := by
  unfold dropsCounter
  dsimp only
  split <;> rfl

theorem runs_endFrame (time : UInt64) (i : Fin 16) (s : Export) : Runs tid free s (endFrame time i s) := by
  unfold endFrame
  dsimp only
  split
  · next h =>
      refine .single (.frame s i { s.frameSets i with isOpen := false }
        [⟨2, 0, time, frameTrack i, profileEventSpanEnd, []⟩] (by simp) ?_)
      rw [FrameSet.slices, if_pos h]
      rfl
  · next h =>
      have hstep : Step tid free s
          { s.setFrame i { s.frameSets i with isOpen := false } with out := s.out ++ [] } := by
        refine .frame s i _ [] nofun ?_
        rw [FrameSet.slices, if_neg h]
        rfl
      rw [List.append_nil] at hstep
      exact .single hstep

theorem endFrame_closed (time : UInt64) (i : Fin 16) (s : Export) :
    ((endFrame time i s).frameSets i).isOpen = false := by
  simp [endFrame, Export.setFrame]

theorem runs_beginFrame (time : UInt64) (i : Fin 16) (s : Export) (h : (s.frameSets i).isOpen = false) :
    Runs tid free s (beginFrame tid time i s) := by
  have hbegin : ∀ number name, Runs tid free s
      ((s.synthEvent time (frameTrack i) profileEventSpanBegin name).setFrame i ⟨true, number, tid⟩) := by
    intro number name
    refine .single (.frame s i ⟨true, number, tid⟩
      [⟨2, 0, time, frameTrack i, profileEventSpanBegin, name⟩] (by simp) ?_)
    rw [FrameSet.slices, h]
    rfl
  unfold beginFrame
  dsimp only
  split
  · exact (hbegin _ _).trans (runs_event (.inl (by decide)) tid)
  · exact hbegin _ _

theorem runs_decodeFrame (time : UInt64) (ticks : Nat) (set : UInt64) (idle : Bool) (s : Export) :
    Runs tid free s (decodeFrame c tid time ticks set idle s) := by
  unfold decodeFrame
  split
  · next h =>
      dsimp only
      have hend : Runs tid free s (endFrame time ⟨set.toNat, h⟩ s) := runs_endFrame time ⟨set.toNat, h⟩ s
      have hclosed := endFrame_closed time ⟨set.toNat, h⟩ s
      generalize endFrame time ⟨set.toNat, h⟩ s = s₁ at hend hclosed
      have hdrops : Runs tid free s₁ (if (⟨set.toNat, h⟩ : Fin 16) = 0 ∧ tid = c.frameThread then
          dropsCounter c tid time ticks s₁ else s₁) := by
        split
        · exact runs_dropsCounter c time ticks s₁
        · exact .refl
      have hsame : (if (⟨set.toNat, h⟩ : Fin 16) = 0 ∧ tid = c.frameThread then
          dropsCounter c tid time ticks s₁ else s₁).frameSets = s₁.frameSets := by
        split
        · exact dropsCounter_frameSets c time ticks s₁
        · rfl
      rw [← hsame] at hclosed
      generalize (if (⟨set.toNat, h⟩ : Fin 16) = 0 ∧ tid = c.frameThread then
          dropsCounter c tid time ticks s₁ else s₁) = s₂ at hdrops hclosed
      refine (hend.trans hdrops).trans ?_
      split
      · split
        · exact runs_event (.inl (by decide)) tid
        · exact .refl
      · exact runs_beginFrame time _ s₂ hclosed
  · exact .refl

/-- The record is not an event of the program that begins or ends a slice. -/
def Body.Plain : Body → Prop
  | .event id _ => id ∉ sliceIds
  | _ => True

theorem runs_decodeBody (time : UInt64) (ticks : Nat) (s : Export) (body : Body) (h : body.Plain ∨ free) :
    Runs tid free s (decodeBody c tid time ticks s body) := by
  cases body with
  | enter key => exact runs_decodeEnter c time key s
  | exit =>
    show Runs tid free s (if _ then _ else _)
    split
    · exact .refl
    · exact .single (.close s time _ false)
  | unwind skipped => exact .single (.close s time _ false)
  | spanBegin name => exact runs_begin rfl (by decide)
  | spanEnd =>
    show Runs tid free s (if _ then _ else _)
    split
    · exact .single (.close s time 0 true)
    · exact .refl
  | frameMark set => exact runs_decodeFrame c time ticks set false s
  | frameIdle set => exact runs_decodeFrame c time ticks set true s
  | event id payload =>
    have hnamed : Runs tid free s (if id.toNat = Reorder.profileEventThreadName then
        s.setStack tid { s.openStacks tid with named := true } else s) := by
      split
      · exact runs_setStack rfl rfl
      · exact .refl
    show Runs tid free s (if _ then _ else _)
    split
    · exact hnamed
    · exact hnamed.trans (runs_event h tid)
  | counter value name => exact runs_event (.inl (by decide)) tid
  | sample sampleTid flags frames stack => exact .single (.emit s _ (.inl rfl))
  | stall ended => exact runs_event (.inl (by decide)) tid

theorem runs_decodeRecord (s : Export) (record : SegmentRecord) (h : (∀ body ∈ record.body, body.Plain) ∨ free) :
    Runs tid free s (decodeRecord c tid s record) := by
  unfold decodeRecord
  dsimp only
  refine (runs_crossPauses c record.ticks c.pauses.length s).trans ?_
  split
  · next body hbody => exact runs_decodeBody c _ _ _ body (h.imp_left fun h => h body hbody)
  · exact .single (.note rfl rfl rfl (fun _ => rfl) fun _ => rfl)

/-- The thread is none of the frame tracks, and no event of the program begins or ends a slice. -/
def Segment.Plain (segment : Segment) : Prop :=
  (∀ i, segment.tid ≠ frameTrack i) ∧ ∀ record ∈ segmentRecords segment.bytes, ∀ body ∈ record.body, body.Plain

theorem runs_segment (segment : Segment) (h : segment.Plain ∨ free) (s : Export) :
    Runs segment.tid free s ((segmentRecords segment.bytes).foldl (decodeRecord c segment.tid) s) :=
  runs_foldl _ s fun s record hrecord => runs_decodeRecord c s record (h.imp_left fun h => h.2 record hrecord)

theorem runs_good (htid : ∀ i, tid ≠ frameTrack i) (hgood : Good s) (h : Runs tid False s s') : Good s' := by
  induction h with
  | refl => exact hgood
  | tail _ hstep ih => exact step_good htid ih hstep

theorem runs_counted (hcounted : Counted s) (h : Runs tid free s s') : Counted s' := by
  induction h with
  | refl => exact hcounted
  | tail _ hstep ih => exact step_counted ih hstep

theorem runs_used (h : Runs tid free s s') : s'.used = s.used := by
  induction h with
  | refl => rfl
  | tail _ hstep ih => rw [step_used hstep, ih]

theorem runs_other (hne : t ≠ tid) (h : Runs tid free s s') : (s'.openStacks t).kinds = (s.openStacks t).kinds := by
  induction h with
  | refl => rfl
  | tail _ hstep ih => rw [step_other hne hstep, ih]

/-- What holds after any segments: the count of each stack, and that only the threads of the segments have one. -/
structure Reached (tids : List UInt32) (s : Export) : Prop where
  counted : Counted s
  nodup : s.used.Nodup
  among : ∀ t ∈ s.used, t ∈ tids
  unused : ∀ t, t ∉ s.used → (s.openStacks t).kinds = []

theorem reached_decode {tids : List UInt32} (h : Reached tids s) (segment : Segment) (htid : segment.tid ∈ tids)
    (hfew : tids.dedup.length ≤ openStacksSize) :
    ∃ s', decodeRecords c s segment = some s' ∧ Reached tids s' ∧ (segment.Plain → Good s → Good s') := by
  have hstack : ∃ s₁, stackOf s segment.tid = some s₁ ∧ segment.tid ∈ s₁.used ∧ Reached tids s₁ ∧
      (Good s → Good s₁) := by
    unfold stackOf
    by_cases hmem : segment.tid ∈ s.used
    · exact ⟨s, if_pos hmem, hmem, h, id⟩
    · have hnodup : (s.used ++ [segment.tid]).Nodup := by
        rw [List.nodup_append]
        refine ⟨h.nodup, List.nodup_singleton _, fun a ha b hb => ?_⟩
        rintro rfl
        exact hmem (List.mem_singleton.1 hb ▸ ha)
      have hamong : ∀ t ∈ s.used ++ [segment.tid], t ∈ tids := by
        intro t ht
        rcases List.mem_append.1 ht with ht | ht
        · exact h.among t ht
        · rw [List.mem_singleton.1 ht]
          exact htid
      have hlength : (s.used ++ [segment.tid]).length ≤ tids.dedup.length :=
        (List.subperm_of_subset hnodup fun t ht => List.mem_dedup.2 (hamong t ht)).length_le
      rw [List.length_append, List.length_singleton] at hlength
      rw [if_neg hmem, if_pos (Nat.lt_of_succ_le (Nat.le_trans hlength hfew))]
      refine ⟨_, rfl, List.mem_append_right _ (List.mem_singleton_self _), ⟨h.counted, hnodup, hamong, ?_⟩,
        fun hgood => ⟨hgood.thread, hgood.frame⟩⟩
      exact fun t ht => h.unused t fun hold => ht (List.mem_append_left _ hold)
  obtain ⟨s₁, hsome, hmem, hreached, hgood⟩ := hstack
  have hruns : Runs segment.tid True s₁ _ := runs_segment c segment (.inr trivial) s₁
  refine ⟨_, by rw [decodeRecords, hsome]; rfl, ⟨runs_counted hreached.counted hruns, ?_, ?_, ?_⟩, ?_⟩
  · rw [runs_used hruns]
    exact hreached.nodup
  · rw [runs_used hruns]
    exact hreached.among
  · intro t ht
    rw [runs_used hruns] at ht
    have hne : t ≠ segment.tid := fun heq => ht (heq ▸ hmem)
    rw [runs_other hne hruns]
    exact hreached.unused t ht
  · intro hplain h
    exact runs_good hplain.1 (hgood h) (runs_segment c segment (.inl hplain) s₁)

theorem reached_decodeAll (tids : List UInt32) (hfew : tids.dedup.length ≤ openStacksSize) (segments : List Segment)
    (htids : ∀ segment ∈ segments, segment.tid ∈ tids) (s : Export) (h : Reached tids s) :
    ∃ s', segments.foldlM (decodeRecords c) s = some s' ∧ Reached tids s' ∧
      ((∀ segment ∈ segments, segment.Plain) → Good s → Good s') := by
  induction segments generalizing s with
  | nil => exact ⟨s, rfl, h, fun _ => id⟩
  | cons segment segments ih =>
    obtain ⟨s₁, hsome, hreached, hgood⟩ := reached_decode c h segment (htids segment (List.mem_cons_self ..)) hfew
    obtain ⟨s', hrest, hreached', hgood'⟩ := ih (fun g hg => htids g (List.mem_cons_of_mem _ hg)) s₁ hreached
    refine ⟨s', ?_, hreached', fun hplain hs => ?_⟩
    · rw [List.foldlM_cons, hsome]
      exact hrest
    · exact hgood' (fun g hg => hplain g (List.mem_cons_of_mem _ hg))
        (hgood (hplain segment (List.mem_cons_self ..)) hs)

/-- What the closing pass leaves on a thread's stack. -/
def remaining (st : OpenStack) : List Slice := (closeLoop 0 false st.kinds st.calls).1.filterMap Kind.slice

theorem closeSlices_self (s : Export) (time : UInt64) (tid : UInt32) :
    slices ((closeSlices s time tid 0 false).openStacks tid) = remaining (s.openStacks tid) := by
  show slices ((s.setStack tid _).openStacks tid) = _
  rw [setStack_self]
  rfl

theorem closeSlices_other (s : Export) (time : UInt64) (hne : t ≠ tid) :
    (closeSlices s time tid 0 false).openStacks t = s.openStacks t := setStack_other s _ hne

theorem close_all (time : UInt64) (l : List UInt32) (hl : l.Nodup) (hframes : ∀ t ∈ l, ∀ i, t ≠ frameTrack i)
    (s : Export) (h : Good s) :
    Good (l.foldl (fun s tid => closeSlices s time tid 0 false) s) ∧
      (l.foldl (fun s tid => closeSlices s time tid 0 false) s).frameSets = s.frameSets ∧
      ∀ t, slices ((l.foldl (fun s tid => closeSlices s time tid 0 false) s).openStacks t) =
        if t ∈ l then remaining (s.openStacks t) else slices (s.openStacks t) := by
  induction l generalizing s with
  | nil => exact ⟨h, rfl, fun t => rfl⟩
  | cons tid l ih =>
    obtain ⟨hnotin, hnodup⟩ := List.nodup_cons.1 hl
    have hclosed : Good (closeSlices s time tid 0 false) :=
      step_good (hframes tid (List.mem_cons_self ..)) h (.close s time 0 false)
    obtain ⟨hgood, hsame, hslices⟩ := ih hnodup (fun t ht => hframes t (List.mem_cons_of_mem _ ht)) _ hclosed
    refine ⟨hgood, hsame, fun t => ?_⟩
    rw [List.foldl_cons, hslices]
    by_cases heq : t = tid
    · subst heq
      rw [if_neg hnotin, if_pos (List.mem_cons_self ..), closeSlices_self]
    · simp only [closeSlices_other s time heq, List.mem_cons, heq, false_or]

theorem closeFrame_other {o : List Slice} (time : UInt64) {i : Fin 16} (hne : t ≠ frameTrack i) (h : Track s t o) :
    Track (closeFrame time s i) t o := by
  unfold closeFrame
  split
  · exact h.append rfl (by rw [marks_other (by simp) hne]; rfl)
  · exact h

theorem closeFrame_frameSets (time : UInt64) (s : Export) (i : Fin 16) :
    (closeFrame time s i).frameSets = s.frameSets := by
  unfold closeFrame
  split <;> rfl

theorem closeFrame_self (time : UInt64) {i : Fin 16} (h : Track s (frameTrack i) (s.frameSets i).slices) :
    Track (closeFrame time s i) (frameTrack i) [] := by
  unfold closeFrame
  split
  · next hopen =>
      rw [FrameSet.slices, if_pos hopen] at h
      refine h.append rfl ?_
      rw [marks_self (by simp)]
      rfl
  · next hopen => rwa [FrameSet.slices, if_neg hopen] at h

theorem closeFrames_other {o : List Slice} (time : UInt64) (l : List (Fin 16)) (hne : ∀ i ∈ l, t ≠ frameTrack i)
    (s : Export) (h : Track s t o) : Track (l.foldl (closeFrame time) s) t o := by
  induction l generalizing s with
  | nil => exact h
  | cons i l ih =>
    exact ih (fun j hj => hne j (List.mem_cons_of_mem _ hj)) _
      (closeFrame_other time (hne i (List.mem_cons_self ..)) h)

theorem closeFrames_self (time : UInt64) (l : List (Fin 16)) (hl : l.Nodup) {i : Fin 16} (hi : i ∈ l) (s : Export)
    (h : Track s (frameTrack i) (s.frameSets i).slices) : Track (l.foldl (closeFrame time) s) (frameTrack i) [] := by
  induction l generalizing s with
  | nil => cases hi
  | cons j l ih =>
    obtain ⟨hnotin, hnodup⟩ := List.nodup_cons.1 hl
    by_cases heq : i = j
    · subst heq
      refine closeFrames_other time l (fun j hj hsame => hnotin ?_) _ (closeFrame_self time h)
      rwa [frameTrack_injective _ _ hsame]
    · refine ih hnodup ((List.mem_cons.1 hi).resolve_left heq) _ ?_
      rw [closeFrame_frameSets]
      exact closeFrame_other time (fun hsame => heq (frameTrack_injective _ _ hsame)) h

theorem closingPass_tracks {tids : List UInt32} (time : UInt64) (hreached : Reached tids s) (hgood : Good s)
    (htids : ∀ t ∈ tids, ∀ i, t ≠ frameTrack i) :
    (∀ i, Track (closingPass s time) (frameTrack i) []) ∧
      ∀ t, (∀ i, t ≠ frameTrack i) → Track (closingPass s time) t (remaining (s.openStacks t)) := by
  obtain ⟨hclosed, hframes, hslices⟩ :=
    close_all time s.used hreached.nodup (fun t ht => htids t (hreached.among t ht)) s hgood
  refine ⟨fun i => ?_, fun t ht => ?_⟩
  · exact closeFrames_self time _ (List.nodup_finRange 16) (List.mem_finRange i) _ (hclosed.frame i)
  · have htrack := hclosed.thread t ht
    rw [hslices] at htrack
    refine closeFrames_other time _ (fun i _ => ht i) _ ?_
    by_cases hmem : t ∈ s.used
    · rwa [if_pos hmem] at htrack
    · rw [if_neg hmem, slices, hreached.unused t hmem] at htrack
      rwa [remaining, hreached.unused t hmem]

/-- Over any segments and pauses the call counts are right. When no program event and no thread stands for a slice, each
end closes the innermost slice of its track and is of its kind, and the closing pass ends everything just when no thread
has a span open below its first call. -/
theorem closed_slices (segments : List Segment) (time : UInt64)
    (hfew : (segments.map Segment.tid).dedup.length ≤ openStacksSize) :
    ∃ s, decodeAll c segments = some s ∧ Counted s ∧ ((∀ segment ∈ segments, segment.Plain) → Good s ∧
      (∀ t, ∃ l, Track (closingPass s time) t l) ∧
      ((∀ t, Track (closingPass s time) t []) ↔ ∀ t, (s.openStacks t).kinds.getLast? ≠ some .span)) := by
  have hempty : Reached (segments.map Segment.tid) {} := ⟨fun _ => rfl, .nil, nofun, fun _ _ => rfl⟩
  have hnone : Good {} := ⟨fun _ _ => rfl, fun _ => rfl⟩
  obtain ⟨s, hsome, hreached, hgood⟩ := reached_decodeAll c _ hfew segments
    (fun segment h => List.mem_map_of_mem h) {} hempty
  refine ⟨s, hsome, hreached.counted, fun hplain => ?_⟩
  have hs := hgood hplain hnone
  have htids : ∀ t ∈ segments.map Segment.tid, ∀ i, t ≠ frameTrack i := by
    intro t ht
    obtain ⟨segment, hsegment, rfl⟩ := List.mem_map.1 ht
    exact (hplain segment hsegment).1
  obtain ⟨hframes, hthreads⟩ := closingPass_tracks time hreached hs htids
  refine ⟨hs, fun t => ?_, fun h t hlast => ?_, fun h t => ?_⟩
  · by_cases hframe : ∃ i, t = frameTrack i
    · obtain ⟨i, rfl⟩ := hframe
      exact ⟨_, hframes i⟩
    · exact ⟨_, hthreads t (not_exists.1 hframe)⟩
  · have hmem : t ∈ s.used := by
      by_contra hnot
      rw [hreached.unused t hnot] at hlast
      cases hlast
    have htrack := hthreads t (htids t (hreached.among t hmem))
    have hnil : remaining (s.openStacks t) = [] := Option.some.inj (htrack.symm.trans (h t))
    exact (closeLoop_zero _ _ (hreached.counted t)).1 hnil hlast
  · by_cases hframe : ∃ i, t = frameTrack i
    · obtain ⟨i, rfl⟩ := hframe
      exact hframes i
    · have htrack := hthreads t (not_exists.1 hframe)
      rwa [remaining, (closeLoop_zero _ _ (hreached.counted t)).2 (h t)] at htrack

def quietCapture : Capture where
  clockSeconds := UInt64.ofNat
  double := UInt64.ofNat
  callName _ := []
  recordName _ := []
  threadWrapper _ := false
  nameThread _ := none
  entryNames := false
  pauses := []
  frameThread := 0
  frameDrops := []

def recordWord (kind : Nat) : List UInt8 := LittleEndian.bytes 8 (kind * 2 ^ 56)

instance (body : Body) : Decidable body.Plain :=
  match body with
  | .event .. => inferInstanceAs (Decidable (¬_ ∈ _))
  | .enter _ | .exit | .unwind _ | .spanBegin _ | .spanEnd | .frameMark _ | .frameIdle _ | .counter .. | .sample ..
  | .stall _ => isTrue trivial

def spanInCall : Segment :=
  ⟨7, recordWord 0x01 ++ LittleEndian.bytes 8 4096 ++ recordWord 0x10 ++ LittleEndian.bytes 8 0⟩

theorem span_in_call_closed : ∃ s, decodeAll quietCapture [spanInCall] = some s ∧ Good s ∧
    ((∀ t, Track (closingPass s 0) t []) ↔ ∀ t, (s.openStacks t).kinds.getLast? ≠ some .span) := by
  obtain ⟨s, hsome, -, h⟩ := closed_slices quietCapture [spanInCall] 0 (by decide)
  have hplain : ∀ segment ∈ [spanInCall], segment.Plain := by
    intro segment hsegment
    rw [List.mem_singleton.1 hsegment]
    exact ⟨by decide, by decide +kernel⟩
  exact ⟨s, hsome, (h hplain).1, (h hplain).2.2⟩

/-- A span that begins without a call is still open after the closing pass. -/
theorem span_alone_stays :
    (decodeAll quietCapture [⟨7, recordWord 0x10 ++ LittleEndian.bytes 8 0⟩]).map (fun s =>
      playAll id [] (marks 7 (closingPass s 0).out)) = some (some [Slice.span]) := by
  decide +kernel

end HashLink.Slices
