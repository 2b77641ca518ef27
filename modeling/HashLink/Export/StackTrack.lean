import HashLink.Lib.NestedSlices
import Mathlib.Tactic.Linarith

/-!
The track of a thread's call stack in the Perfetto export. Samples, calls, startup phases and frame boundaries end and
begin its slices, and what they leave open is the root of the frame and the names of the stack.
-/

namespace HashLink.StackTrack

open NestedSlices

abbrev Stamped (Name : Type) := Nat × Mark Name Unit

def pfTime (seconds : ℚ) : Nat := if 0 < seconds then (seconds * 10 ^ 9 + 1 / 2).floor.toNat else 1

structure PfStack (Name : Type) where
  names : List Name := []
  emitted : Nat := 0
  root : Option Name := none
  last : ℚ := 0
  instrumented : Bool := false

variable {Name : Type}

/-- The loop of `pf_stack_cut`, with what is left of `emitted`. -/
def cutLoop (keep ns : Nat) : Nat → Nat × List (Stamped Name)
  | 0 => (0, [])
  | n + 1 =>
    if keep < n + 1 then ((cutLoop keep ns n).1, (ns, .ends ()) :: (cutLoop keep ns n).2) else (n + 1, [])

def pfStackCut (st : PfStack Name) (keep : Nat) (time : ℚ) : PfStack Name × List (Stamped Name) :=
  ({ st with emitted := (cutLoop keep (pfTime time) st.emitted : Nat × List (Stamped Name)).1 },
    (cutLoop keep (pfTime time) st.emitted).2)

def sharedNames [DecidableEq Name] : List Name → List Name → Nat
  | a :: s, b :: t => if a = b then sharedNames s t + 1 else 0
  | _, _ => 0

def base (st : PfStack Name) : Nat := if st.root.isSome then 1 else 0

/-- More than three intervals have gone by since the last sample. -/
def Gap (interval time : ℚ) (st : PfStack Name) : Prop := st.names ≠ [] ∧ interval * 3 < time - st.last

instance (interval time : ℚ) (st : PfStack Name) : Decidable (Gap interval time st) :=
  inferInstanceAs (Decidable (_ ∧ _))

/-- A thread's stack, and what its track has got. -/
structure Thread (Name : Type) where
  stack : PfStack Name := {}
  track : List (Stamped Name) := []

def Thread.cut (keep : Nat) (time : ℚ) (th : Thread Name) : Thread Name :=
  ⟨(pfStackCut th.stack keep time).1, th.track ++ (pfStackCut th.stack keep time).2⟩

def Thread.truncate (depth : Nat) (th : Thread Name) : Thread Name :=
  { th with stack := { th.stack with names := th.stack.names.take depth } }

def Thread.begins (time : ℚ) (th : Thread Name) (name : Name) : Thread Name :=
  ⟨{ th.stack with emitted := th.stack.emitted + 1 }, th.track ++ [(pfTime time, .begins name)]⟩

/-- A name that is put on the stack begins its slice. -/
def Thread.push (time : ℚ) (th : Thread Name) (name : Name) : Thread Name :=
  (Thread.mk { th.stack with names := th.stack.names ++ [name] } th.track).begins time name

/-- `emitted` is 0 when there is no root, as all slices have been cut before. -/
def pfStackReopen (time : ℚ) (th : Thread Name) : Thread Name :=
  let rooted : Thread Name := match th.stack.root with
    | some root =>
      ⟨{ th.stack with emitted := 1 }, th.track ++ [(pfTime time, .begins root)]⟩
    | none => th
  th.stack.names.foldl (Thread.begins time) rooted

def cutGap (interval time : ℚ) (th : Thread Name) : Thread Name :=
  if Gap interval time th.stack then (th.cut (base th.stack) (th.stack.last + interval)).truncate 0 else th

/-- The stack becomes the frames of the sample, the outermost first. -/
def relay [DecidableEq Name] (time : ℚ) (frames : List Name) (th : Thread Name) : Thread Name :=
  let shared := sharedNames th.stack.names frames
  (frames.drop shared).foldl (Thread.push time) ((th.cut (base th.stack + shared) time).truncate shared)

def Thread.seen (time : ℚ) (th : Thread Name) : Thread Name := { th with stack := { th.stack with last := time } }

def pfStackSample [DecidableEq Name] (interval time : ℚ) (leafFirst : List Name) (th : Thread Name) : Thread Name :=
  if th.stack.instrumented then th else (relay time leafFirst.reverse (cutGap interval time th)).seen time

def instrument (time : ℚ) (th : Thread Name) : Thread Name :=
  (Thread.cut (base th.stack) time
    { th with stack := { th.stack with instrumented := true } }).truncate 0

def pfStackCall (time : ℚ) (begun : Option Name) (instrumented : Bool) (th : Thread Name) : Thread Name :=
  let th := if instrumented && !th.stack.instrumented then instrument time th else th
  match begun with
  | some name => (th.push time name).seen time
  | none =>
    if th.stack.names = [] then th.seen time
    else ((th.cut (base th.stack + th.stack.names.length - 1) time).truncate (th.stack.names.length - 1)).seen time

def pfStackFrame (time : ℚ) (root : Name) (th : Thread Name) : Thread Name :=
  let th := th.cut 0 time
  pfStackReopen time { th with stack := { th.stack with root := some root } }

/-- The end of the export, for one thread. -/
def pfStackFinish (interval : ℚ) (th : Thread Name) : Thread Name :=
  (th.cut 0 (th.stack.last + interval)).truncate 0

inductive Op (Name : Type) where
  | sample (time : ℚ) (tid : UInt32) (leafFirst : List Name)
  | call (time : ℚ) (tid : UInt32) (begun : Option Name) (instrumented : Bool)
  | frame (time : ℚ) (tid : UInt32) (root : Name)

def Op.time : Op Name → ℚ
  | .sample time _ _ | .call time _ _ _ | .frame time _ _ => time

def Op.tid : Op Name → UInt32
  | .sample _ tid _ | .call _ tid _ _ | .frame _ tid _ => tid

def Op.apply [DecidableEq Name] (interval : ℚ) : Op Name → Thread Name → Thread Name
  | .sample time _ leafFirst => pfStackSample interval time leafFirst
  | .call time _ begun instrumented => pfStackCall time begun instrumented
  | .frame time _ root => pfStackFrame time root

/-- The threads by their id, where the ones that no operation has named yet are as `pf_stack_of` makes them. -/
abbrev Threads (Name : Type) := UInt32 → Thread Name

def step [DecidableEq Name] (interval : ℚ) (threads : Threads Name) (op : Op Name) : Threads Name :=
  Function.update threads op.tid (op.apply interval (threads op.tid))

def run [DecidableEq Name] (interval : ℚ) (ops : List (Op Name)) : Threads Name := ops.foldl (step interval) fun _ => {}

def pfStacksFinish (interval : ℚ) (threads : Threads Name) : Threads Name :=
  fun tid => pfStackFinish interval (threads tid)

/-- What should be open on the track: the root and then the names. -/
def slices (st : PfStack Name) : List Name := st.root.toList ++ st.names

def Open (th : Thread Name) (names : List Name) : Prop :=
  th.stack.emitted = names.length ∧ playAll (fun _ => ()) [] (th.track.map Prod.snd) = some names.reverse

variable {th : Thread Name} {names : List Name} {time interval : ℚ}

theorem cutLoop_fst (keep ns : Nat) (n : Nat) :
    (cutLoop keep ns n : Nat × List (Stamped Name)).1 = min keep n := by
  induction n with
  | zero => simp [cutLoop]
  | succ n ih =>
    unfold cutLoop
    split
    · simp only [ih]
      omega
    · simp only
      omega

theorem cutLoop_snd (keep ns : Nat) (n : Nat) :
    (cutLoop keep ns n : Nat × List (Stamped Name)).2 = List.replicate (n - keep) (ns, .ends ()) := by
  induction n with
  | zero => simp [cutLoop]
  | succ n ih =>
    unfold cutLoop
    split
    · next h => rw [ih, show n + 1 - keep = n - keep + 1 by omega, List.replicate_succ]
    · next h => simp [show n + 1 - keep = 0 by omega]

theorem open_cut (h : Open th names) (keep : Nat) : Open (th.cut keep time) (names.take keep) := by
  refine ⟨?_, ?_⟩
  · simp only [Thread.cut, pfStackCut, cutLoop_fst, h.1, List.length_take]
  · have hends : ((pfStackCut th.stack keep time).2.map Prod.snd) =
        (names.drop keep).reverse.map fun _ => (Mark.ends () : Mark Name Unit) := by
      simp [pfStackCut, cutLoop_snd, h.1, List.map_const']
    rw [Thread.cut, List.map_append, playAll_append h.2, hends]
    have hsplit : names.reverse = (names.drop keep).reverse ++ (names.take keep).reverse := by
      rw [← List.reverse_append, List.take_append_drop]
    rw [hsplit]
    exact playAll_ends _

theorem open_begins (h : Open th names) (name : Name) : Open (th.begins time name) (names ++ [name]) := by
  refine ⟨by simp [Thread.begins, h.1], ?_⟩
  rw [Thread.begins, List.map_append, playAll_append h.2, List.reverse_append]
  rfl

theorem open_foldl_begins (more : List Name) (h : Open th names) :
    Open (more.foldl (Thread.begins time) th) (names ++ more) := by
  induction more generalizing th names with
  | nil => rwa [List.append_nil]
  | cons name more ih => simpa using ih (open_begins h name)

theorem begins_stack (more : List Name) (th : Thread Name) :
    slices (more.foldl (Thread.begins time) th).stack = slices th.stack := by
  induction more generalizing th with
  | nil => rfl
  | cons name more ih => exact ih _

/-- The open slices are the root and the names. -/
def Good (th : Thread Name) : Prop := Open th (slices th.stack)

theorem take_slices (st : PfStack Name) (depth : Nat) :
    (slices st).take (base st + depth) = st.root.toList ++ st.names.take depth := by
  unfold slices base
  cases st.root <;> simp [Nat.add_comm 1]

theorem good_cut (h : Good th) (depth : Nat) : Good ((th.cut (base th.stack + depth) time).truncate depth) := by
  have hcut : Open (th.cut (base th.stack + depth) time) _ := open_cut h (base th.stack + depth)
  rw [take_slices] at hcut
  exact hcut

theorem good_push (h : Good th) (name : Name) : Good (th.push time name) := by
  have hbegins : Open (th.begins time name) _ := open_begins h name
  unfold slices at hbegins
  rw [List.append_assoc] at hbegins
  exact hbegins

theorem good_foldl_push (more : List Name) (h : Good th) : Good (more.foldl (Thread.push time) th) := by
  induction more generalizing th with
  | nil => exact h
  | cons name more ih => exact ih (good_push h name)

theorem good_cutGap (h : Good th) : Good (cutGap interval time th) := by
  unfold cutGap
  split
  · exact good_cut h 0
  · exact h

theorem good_sample [DecidableEq Name] (h : Good th) (leafFirst : List Name) :
    Good (pfStackSample interval time leafFirst th) := by
  unfold pfStackSample
  split
  · exact h
  · exact good_foldl_push _ (good_cut (good_cutGap h) _)

theorem good_call (h : Good th) (begun : Option Name) (instrumented : Bool) :
    Good (pfStackCall time begun instrumented th) := by
  have hth : Good (if instrumented && !th.stack.instrumented then instrument time th else th) := by
    split
    · exact @good_cut Name { th with stack := { th.stack with instrumented := true } } time h 0
    · exact h
  unfold pfStackCall
  generalize (if instrumented && !th.stack.instrumented then instrument time th else th) = th' at hth
  cases begun with
  | some name => exact good_push hth name
  | none =>
    simp only
    split
    · exact hth
    · next hne =>
        have hpos : 0 < th'.stack.names.length := List.length_pos_of_ne_nil hne
        rw [Nat.add_sub_assoc hpos]
        exact good_cut hth _

theorem good_frame (h : Good th) (root : Name) : Good (pfStackFrame time root th) := by
  have hcut : Open (th.cut 0 time) [] := by
    have hnone : Open (th.cut 0 time) _ := open_cut h 0
    simpa using hnone
  let rooted : Thread Name :=
    ⟨{ (th.cut 0 time).stack with root := some root, emitted := 1 },
      (th.cut 0 time).track ++ [(pfTime time, .begins root)]⟩
  have hroot : Open rooted [root] := ⟨rfl, (open_begins hcut root : Open ((th.cut 0 time).begins time root) _).2⟩
  have hall : Open (th.stack.names.foldl (Thread.begins time) rooted) (slices rooted.stack) :=
    open_foldl_begins th.stack.names hroot
  rw [← begins_stack th.stack.names rooted] at hall
  exact hall

theorem good_apply [DecidableEq Name] (op : Op Name) (h : Good th) : Good (op.apply interval th) :=
  match op with
  | .sample _ _ leafFirst => good_sample h leafFirst
  | .call _ _ begun instrumented => good_call h begun instrumented
  | .frame _ _ root => good_frame h root

theorem open_finish (h : Good th) : Open (pfStackFinish interval th) [] := by
  have hcut : Open (th.cut 0 (th.stack.last + interval)) [] := by simpa using open_cut h 0
  exact hcut

/-- The timestamps of the track do not decrease, and they end by `n`. -/
def Within (n : Nat) (th : Thread Name) : Prop :=
  (th.track.map Prod.fst).Pairwise (· ≤ ·) ∧ ∀ ns ∈ th.track.map Prod.fst, ns ≤ n

theorem within_append {n : Nat} {th th' : Thread Name} {marks : List (Stamped Name)} (h : Within n th)
    (htrack : th'.track = th.track ++ marks) (hmarks : ∀ mark ∈ marks, mark.1 = n) : Within n th' := by
  have hfst : ∀ ns ∈ marks.map Prod.fst, ns = n := by simpa using fun a b hab => hmarks (a, b) hab
  unfold Within
  rw [htrack, List.map_append]
  refine ⟨List.pairwise_append.2 ⟨h.1, ?_, ?_⟩, ?_⟩
  · exact List.Pairwise.imp_of_mem (fun ha hb _ => Nat.le_of_eq ((hfst _ ha).trans (hfst _ hb).symm))
      (List.pairwise_of_forall fun _ _ => trivial)
  · intro a ha b hb
    rw [hfst b hb]
    exact h.2 a ha
  · intro ns hns
    rcases List.mem_append.1 hns with hold | hnew
    · exact h.2 ns hold
    · exact Nat.le_of_eq (hfst ns hnew)

theorem within_cut {keep : Nat} (h : Within (pfTime time) th) : Within (pfTime time) (th.cut keep time) := by
  refine within_append h rfl fun mark hmark => ?_
  rw [pfStackCut, cutLoop_snd] at hmark
  rw [List.eq_of_mem_replicate hmark]

theorem within_begins (h : Within (pfTime time) th) (name : Name) : Within (pfTime time) (th.begins time name) :=
  within_append h rfl (by simp)

theorem within_foldl {f : Thread Name → Name → Thread Name} {n : Nat}
    (hf : ∀ th name, Within n th → Within n (f th name)) (more : List Name) (h : Within n th) :
    Within n (more.foldl f th) := by
  induction more generalizing th with
  | nil => exact h
  | cons name more ih => exact ih (hf th name h)

theorem within_relay [DecidableEq Name] (frames : List Name) (h : Within (pfTime time) th) :
    Within (pfTime time) (relay time frames th) :=
  within_foldl (f := Thread.push time) (fun _ name h => within_begins h name) _ (within_cut h)

theorem within_call (h : Within (pfTime time) th) (begun : Option Name) (instrumented : Bool) :
    Within (pfTime time) (pfStackCall time begun instrumented th) := by
  have hth : Within (pfTime time) (if instrumented && !th.stack.instrumented then instrument time th else th) := by
    split
    · exact @within_cut Name { th with stack := { th.stack with instrumented := true } } time _ h
    · exact h
  unfold pfStackCall
  generalize (if instrumented && !th.stack.instrumented then instrument time th else th) = th' at hth
  cases begun with
  | some name => exact within_begins hth name
  | none =>
    simp only
    split
    · exact hth
    · exact within_cut hth

theorem within_frame (h : Within (pfTime time) th) (root : Name) : Within (pfTime time) (pfStackFrame time root th) :=
  within_foldl (fun _ name h => within_begins h name) _ (within_append (@within_cut Name th time 0 h) rfl (by simp))

theorem Within.mono {m n : Nat} (h : Within m th) (hmn : m ≤ n) : Within n th :=
  ⟨h.1, fun ns hns => Nat.le_trans (h.2 ns hns) hmn⟩

/-- A time that is not in the first half of the first nanosecond, where `pf_time` is 0 although it is 1 before. -/
def Exact (time : ℚ) : Prop := time ≤ 0 ∨ 1 / 2 ≤ time * 10 ^ 9

instance (time : ℚ) : Decidable (Exact time) := inferInstanceAs (Decidable (_ ∨ _))

theorem pfTime_mono {s t : ℚ} (hst : s ≤ t) (ht : Exact t) : pfTime s ≤ pfTime t := by
  have hscale : s * 10 ^ 9 + 1 / 2 ≤ t * 10 ^ 9 + 1 / 2 := by linarith
  by_cases hs : 0 < s
  · rw [pfTime, if_pos hs, pfTime, if_pos (lt_of_lt_of_le hs hst)]
    exact Int.toNat_le_toNat (Rat.floor_monotone hscale)
  · rw [pfTime, if_neg hs]
    rcases ht with hle | hhalf
    · rw [pfTime, if_neg (not_lt.2 hle)]
    · rw [pfTime, if_pos (by linarith)]
      have hone : (1 : Int) ≤ (t * 10 ^ 9 + 1 / 2).floor := Rat.le_floor_iff.2 (by push_cast; linarith)
      omega

/-! ### The times that the operations are given -/

/-- The time of the last operation on a thread, and of its last frame boundary. -/
structure Times where
  latest : Option ℚ := none
  framed : Option ℚ := none

def Op.note (times : Times) : Op Name → Times
  | .sample time _ _ | .call time _ _ _ => { times with latest := some time }
  | .frame time _ _ => ⟨some time, some time⟩

/-- Slices may be ended an interval after the thread was last seen: no frame has begun after that. -/
def PastMeets (interval : ℚ) (times : Times) (st : PfStack Name) : Prop :=
  Exact (st.last + interval) ∧ ∀ framed ∈ times.framed, pfTime framed ≤ pfTime (st.last + interval)

instance (interval : ℚ) (times : Times) (st : PfStack Name) : Decidable (PastMeets interval times st) :=
  inferInstanceAs (Decidable (_ ∧ _))

def SampleMeets (interval : ℚ) (times : Times) (st : PfStack Name) : Op Name → Prop
  | .sample time _ _ => st.instrumented = false → Gap interval time st → PastMeets interval times st
  | _ => True

instance (interval : ℚ) (times : Times) (st : PfStack Name) (op : Op Name) :
    Decidable (SampleMeets interval times st op) :=
  match op with
  | .sample .. => inferInstanceAs (Decidable (_ → _ → _))
  | .call .. | .frame .. => isTrue trivial

def OpMeets (interval : ℚ) (times : Times) (st : PfStack Name) (op : Op Name) : Prop :=
  ((∀ latest ∈ times.latest, latest ≤ op.time) ∧ Exact op.time) ∧ SampleMeets interval times st op

instance (interval : ℚ) (times : Times) (st : PfStack Name) (op : Op Name) : Decidable (OpMeets interval times st op) :=
  inferInstanceAs (Decidable ((_ ∧ _) ∧ _))

def note (times : UInt32 → Times) (op : Op Name) : UInt32 → Times :=
  Function.update times op.tid (op.note (times op.tid))

def noteAll (ops : List (Op Name)) : UInt32 → Times := ops.foldl note fun _ => {}

def RunMeets [DecidableEq Name] (interval : ℚ) : Threads Name → (UInt32 → Times) → List (Op Name) → Prop
  | _, _, [] => True
  | threads, times, op :: ops =>
    OpMeets interval (times op.tid) (threads op.tid).stack op ∧
      RunMeets interval (step interval threads op) (note times op) ops

instance RunMeets.decidable [DecidableEq Name] (interval : ℚ) :
    ∀ (threads : Threads Name) (times : UInt32 → Times) (ops : List (Op Name)),
      Decidable (RunMeets interval threads times ops)
  | _, _, [] => isTrue trivial
  | threads, times, op :: ops =>
    have := RunMeets.decidable interval (step interval threads op) (note times op) ops
    inferInstanceAs (Decidable (_ ∧ _))

/-- The end of the export ends what is still open in the past. -/
def FinishMeets (interval : ℚ) (times : Times) (st : PfStack Name) : Prop :=
  slices st ≠ [] → PastMeets interval times st

/-- What is known of the track from the times of the operations. -/
structure Timed (times : Times) (th : Thread Name) : Prop where
  sorted : (th.track.map Prod.fst).Pairwise (· ≤ ·)
  latest : ∀ time, (∀ latest ∈ times.latest, latest ≤ time) → Exact time → Within (pfTime time) th
  past : ∀ time, th.stack.last ≤ time → (∀ framed ∈ times.framed, pfTime framed ≤ pfTime time) → Exact time →
    Within (pfTime time) th

variable {times : Times}

theorem timed_seen (h : Within (pfTime time) th) : Timed { times with latest := some time } (th.seen time) where
  sorted := h.1
  latest _ hlatest ht := Within.mono h (pfTime_mono (hlatest time rfl) ht)
  past _ hlast _ ht := Within.mono h (pfTime_mono hlast ht)

theorem timed_framed (h : Within (pfTime time) th) : Timed ⟨some time, some time⟩ th where
  sorted := h.1
  latest _ hlatest ht := Within.mono h (pfTime_mono (hlatest time rfl) ht)
  past _ _ hframed _ := Within.mono h (hframed time rfl)

theorem within_cutGap (hi : 0 ≤ interval) (h : Timed times th) (hlatest : ∀ latest ∈ times.latest, latest ≤ time)
    (ht : Exact time) (hpast : Gap interval time th.stack → PastMeets interval times th.stack) :
    Within (pfTime time) (cutGap interval time th) := by
  unfold cutGap
  split
  · next hgap =>
      have hend : th.stack.last + interval ≤ time := by linarith [hgap.2]
      have hth := h.past _ (le_add_of_nonneg_right hi) (hpast hgap).2 (hpast hgap).1
      exact Within.mono (@within_cut Name th _ (base th.stack) hth) (pfTime_mono hend ht)
  · exact h.latest time hlatest ht

theorem seen_call (begun : Option Name) (instrumented : Bool) :
    (pfStackCall time begun instrumented th).seen time = pfStackCall time begun instrumented th := by
  unfold pfStackCall
  cases begun with
  | some name => rfl
  | none =>
    simp only
    generalize (if instrumented && !th.stack.instrumented then instrument time th else th) = th'
    split <;> rfl

theorem timed_apply [DecidableEq Name] (hi : 0 ≤ interval) (op : Op Name) (h : Timed times th)
    (hop : OpMeets interval times th.stack op) : Timed (op.note times) (op.apply interval th) := by
  obtain ⟨⟨hlatest, ht⟩, hsample⟩ := hop
  have hth := h.latest op.time hlatest ht
  cases op with
  | sample time tid leafFirst =>
    show Timed { times with latest := some time } (pfStackSample interval time leafFirst th)
    unfold pfStackSample
    split
    · have hmax : ∀ t, (∀ latest ∈ (some time : Option ℚ), latest ≤ t) → ∀ latest ∈ times.latest, latest ≤ t :=
        fun t h latest hmem => le_trans (hlatest latest hmem) (h time rfl)
      exact ⟨h.sorted, fun t hle => h.latest t (hmax t hle), h.past⟩
    · next hplain =>
        exact timed_seen (within_relay _ (within_cutGap hi h hlatest ht (hsample (by simpa using hplain))))
  | call time tid begun instrumented =>
    show Timed { times with latest := some time } (pfStackCall time begun instrumented th)
    rw [← seen_call]
    exact timed_seen (within_call hth begun instrumented)
  | frame time tid root => exact timed_framed (within_frame hth root)

theorem ordered_finish (hi : 0 ≤ interval) (hgood : Good th) (h : Timed times th)
    (hfinish : FinishMeets interval times th.stack) :
    ((pfStackFinish interval th).track.map Prod.fst).Pairwise (· ≤ ·) := by
  by_cases hnone : slices th.stack = []
  · have htrack : (pfStackFinish interval th).track = th.track := by
      simp [pfStackFinish, Thread.truncate, Thread.cut, pfStackCut, cutLoop_snd, hgood.1, hnone]
    rw [htrack]
    exact h.sorted
  · have hpast := hfinish hnone
    exact (@within_cut Name th _ 0 (h.past _ (le_add_of_nonneg_right hi) hpast.2 hpast.1)).1

theorem good_run [DecidableEq Name] (ops : List (Op Name)) (tid : UInt32) : Good (run interval ops tid) := by
  have hfold : ∀ (ops : List (Op Name)) (threads : Threads Name), (∀ tid, Good (threads tid)) →
      ∀ tid, Good (ops.foldl (step interval) threads tid) := by
    intro ops
    induction ops with
    | nil => exact fun _ h => h
    | cons op ops ih =>
      refine fun threads h => ih _ fun tid => ?_
      by_cases heq : tid = op.tid
      · subst heq
        rw [step, Function.update_self]
        exact good_apply op (h _)
      · rw [step, Function.update_of_ne heq]
        exact h tid
  exact hfold ops _ (fun _ => ⟨rfl, rfl⟩) tid

theorem timed_fold [DecidableEq Name] (hi : 0 ≤ interval) (ops : List (Op Name)) (threads : Threads Name)
    (times : UInt32 → Times) (h : ∀ tid, Timed (times tid) (threads tid)) (hops : RunMeets interval threads times ops)
    (tid : UInt32) : Timed (ops.foldl note times tid) (ops.foldl (step interval) threads tid) := by
  induction ops generalizing threads times with
  | nil => exact h tid
  | cons op ops ih =>
    refine ih _ _ (fun tid => ?_) hops.2
    by_cases heq : tid = op.tid
    · subst heq
      rw [step, note, Function.update_self, Function.update_self]
      exact timed_apply hi op (h _) hops.1
    · rw [step, note, Function.update_of_ne heq, Function.update_of_ne heq]
      exact h tid

theorem timed_run [DecidableEq Name] (hi : 0 ≤ interval) (ops : List (Op Name))
    (hops : RunMeets interval (fun _ => {}) (fun _ => {}) ops) (tid : UInt32) :
    Timed (noteAll ops tid) (run interval ops tid) := by
  have hnone : ∀ n, Within n ({} : Thread Name) := fun _ => ⟨List.Pairwise.nil, nofun⟩
  exact timed_fold hi ops _ _ (fun _ => ⟨List.Pairwise.nil, fun _ _ _ => hnone _, fun _ _ _ _ => hnone _⟩) hops tid

def intervalOf (weightNs : Nat) : ℚ := weightNs / 10 ^ 9

/-- The slices are those of the root and the names, and after the end of the export there are none. The timestamps do
not decrease as long as what is ended in the past ends after the last frame boundary of its thread. -/
theorem stack_tracks_hold [DecidableEq Name] (weightNs : Nat) (ops : List (Op Name)) :
    (∀ tid, Good (run (intervalOf weightNs) ops tid) ∧
      Open (pfStacksFinish (intervalOf weightNs) (run (intervalOf weightNs) ops) tid) []) ∧
    (RunMeets (intervalOf weightNs) (fun _ => {}) (fun _ => {}) ops → ∀ tid,
      ((run (intervalOf weightNs) ops tid).track.map Prod.fst).Pairwise (· ≤ ·) ∧
      (FinishMeets (intervalOf weightNs) (noteAll ops tid) (run (intervalOf weightNs) ops tid).stack →
        ((pfStacksFinish (intervalOf weightNs) (run (intervalOf weightNs) ops) tid).track.map Prod.fst).Pairwise
          (· ≤ ·))) := by
  have hi : 0 ≤ intervalOf weightNs := div_nonneg (Nat.cast_nonneg _) (by norm_num)
  refine ⟨fun tid => ⟨good_run ops tid, open_finish (good_run ops tid)⟩, fun hops tid => ?_⟩
  have htimed := timed_run hi ops hops tid
  exact ⟨htimed.sorted, ordered_finish hi (good_run ops tid) htimed⟩

/-- A thread is sampled twice in a frame, with a gap between the samples, and then a call begins on it. -/
def sampledFrame : List (Op Nat) :=
  [.frame 1 7 0, .sample 2 7 [11, 10], .sample 3 7 [12, 10], .call 4 7 (some 13) true]

theorem sampled_frame_holds : ((run (intervalOf 1000000) sampledFrame 7).track.map Prod.fst).Pairwise (· ≤ ·) ∧
    ((pfStacksFinish (intervalOf 1000000) (run (intervalOf 1000000) sampledFrame) 7).track.map Prod.fst).Pairwise
      (· ≤ ·) := by
  have h := (stack_tracks_hold 1000000 sampledFrame).2 (by decide +kernel) 7
  exact ⟨h.1, h.2 fun _ => by decide +kernel⟩

/-- The frame boundary does not count as a time at which the thread is seen, so the end of the export lies before it. -/
theorem unsampled_frame_fails :
    let threads := pfStacksFinish (intervalOf 1000000) (run (intervalOf 1000000) [.frame 10 7 "Frame 1"])
    (threads 7).track.map Prod.fst = [10000000000, 1000000] ∧
      ¬ ((threads 7).track.map Prod.fst).Pairwise (· ≤ ·) := by
  decide +kernel

end HashLink.StackTrack
