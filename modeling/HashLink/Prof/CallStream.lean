import HashLink.Prof.DroppedEntries

/-!
The calls that a stream of records leaves open, and the calls that it counts as dropped. The writers' calls
have open calls of their own: those that were entered and not left while the thread recorded.
-/

namespace HashLink.Prof

def openAfter (opens : List UInt64) (r : ProfRecord) : List UInt64 :=
  match r.body with
  | .enter key => key :: opens
  | .exit => opens.tail
  | .unwind skipped => opens.drop skipped.toNat
  | _ => opens

def openOf (rs : List ProfRecord) : List UInt64 := rs.foldl openAfter []

/-- Every `EXIT` closes an open call, the innermost one. -/
def Nested (rs : List ProfRecord) : Prop :=
  ∀ before r after, rs = before ++ r :: after → r.body = .exit → openOf before ≠ []

/-- The `ENTER` records of a key. -/
def enterCount (key : UInt64) (rs : List ProfRecord) : Nat := rs.countP fun r => r.body = .enter key

def countOf (key : Nat) (entries : List (Nat × Nat)) : Nat :=
  (entries.map fun e => if e.1 = key then e.2 else 0).sum

def reportedBy (key : UInt64) (r : ProfRecord) : Nat :=
  match r.body with
  | .event id payload =>
    if id = UInt32.ofNat eventDroppedCalls then
      countOf key.toNat ((droppedEntries payload 0 (payload.length / 16)).getD [])
    else 0
  | _ => 0

def reportedCount (key : UInt64) (rs : List ProfRecord) : Nat := (rs.map (reportedBy key)).sum

namespace ProfThread

variable (t : ProfThread)

/-- Everything that the thread wrote and did not take back. -/
def records : List ProfRecord := t.segments.flatMap Prod.fst ++ t.written

/-- What the consumer was handed or can take. -/
def published : List ProfRecord :=
  t.segments.flatMap Prod.fst ++ t.written.take (t.written.length - (t.cur - t.pos) / 16)

def tableCount (key : UInt64) : Nat := (t.dropped.map fun d => if d.key = key then d.count.toNat else 0).sum

end ProfThread

theorem openOf_append (rs : List ProfRecord) (r : ProfRecord) : openOf (rs ++ [r]) = openAfter (openOf rs) r := by
  unfold openOf
  rw [List.foldl_append, List.foldl_cons, List.foldl_nil]

theorem enterCount_append (key : UInt64) (rs rs' : List ProfRecord) :
    enterCount key (rs ++ rs') = enterCount key rs + enterCount key rs' := List.countP_append

theorem reportedCount_append (key : UInt64) (rs rs' : List ProfRecord) :
    reportedCount key (rs ++ rs') = reportedCount key rs + reportedCount key rs' := by
  unfold reportedCount
  rw [List.map_append, List.sum_append]

theorem Nested.prefix_of {rs rs' : List ProfRecord} (h : Nested (rs ++ rs')) : Nested rs := by
  intro before r after hrs hr
  apply h before r (after ++ rs') _ hr
  rw [hrs, List.append_assoc, List.cons_append]

theorem Nested.append {rs : List ProfRecord} {r : ProfRecord} (h : Nested rs)
    (hr : r.body = .exit → openOf rs ≠ []) : Nested (rs ++ [r]) := by
  intro before r' after hsplit hexit
  rcases List.eq_nil_or_concat after with rfl | ⟨after', last, rfl⟩
  · obtain ⟨rfl, heq⟩ := List.append_inj' hsplit rfl
    cases heq
    exact hr hexit
  · rw [List.concat_eq_append, ← List.cons_append, ← List.append_assoc] at hsplit
    obtain ⟨heq, -⟩ := List.append_inj' hsplit rfl
    exact h before r' after' heq hexit

/-- A record that opens, closes and reports nothing. -/
def Quiet (r : ProfRecord) : Prop :=
  match r.body with
  | .enter _ => False
  | .exit => False
  | .unwind _ => False
  | .event id _ => id ≠ UInt32.ofNat eventDroppedCalls
  | _ => True

theorem Quiet.openAfter {r : ProfRecord} (h : Quiet r) (opens : List UInt64) : openAfter opens r = opens := by
  unfold Quiet at h
  unfold Prof.openAfter
  generalize r.body = body at h ⊢
  cases body <;> first | exact h.elim | rfl

theorem Quiet.enterCount {r : ProfRecord} (h : Quiet r) (key : UInt64) : enterCount key [r] = 0 := by
  unfold Quiet at h
  unfold Prof.enterCount
  rw [List.countP_eq_zero]
  intro r' hr'
  rw [List.mem_singleton.mp hr', decide_eq_true_iff]
  intro hr
  rw [hr] at h
  exact h

theorem Quiet.reportedCount {r : ProfRecord} (h : Quiet r) (key : UInt64) : reportedCount key [r] = 0 := by
  unfold Quiet at h
  change reportedBy key r + 0 = 0
  unfold reportedBy
  cases hr : r.body with
  | event id payload =>
    rw [hr] at h
    dsimp only
    rw [if_neg h]
  | enter | exit | unwind | spanBegin | spanEnd | frameMark | frameIdle | counter | sample | stall => rfl

theorem Quiet.not_exit {r : ProfRecord} (h : Quiet r) : r.body ≠ .exit := by
  intro hr
  unfold Quiet at h
  rw [hr] at h
  exact h

/-- A call on the thread. While recording is paused only an unwinding has an effect, on the depth. -/
inductive ProfStep
  | call (c : ProfCall)
  | pausedUnwind (depth : Int)

def ProfThread.step (minCall : UInt64) (t : ProfThread) : ProfStep → ProfThread
  | .call c => t.call minCall c
  | .pausedUnwind depth => if t.depth ≤ depth then t else { t with depth := depth }

/-- A session's calls on one thread. The depth is left over from the sessions before it. -/
def runSteps (minCall : UInt64) (depth : Int) (steps : List ProfStep) : ProfThread :=
  steps.foldl (ProfThread.step minCall) { ProfThread.start with depth := depth }

/-- The depth, and the recorded calls that are open, the innermost first. -/
structure OpenCalls where
  depth : Int
  stack : List UInt64

def OpenCalls.step (o : OpenCalls) : ProfStep → OpenCalls
  | .call (.enter key _ _) => ⟨o.depth + 1, key :: o.stack⟩
  | .call (.exit _) => ⟨o.depth - 1, o.stack.tail⟩
  | .call (.unwind depth _) => if o.depth ≤ depth then o else ⟨depth, o.stack.drop (o.depth - depth).toNat⟩
  | .call _ => o
  | .pausedUnwind depth => if o.depth ≤ depth then o else ⟨depth, o.stack⟩

def openCalls (depth : Int) (steps : List ProfStep) : OpenCalls := steps.foldl OpenCalls.step ⟨depth, []⟩

def enteredCount (key : UInt64) (steps : List ProfStep) : Nat :=
  steps.countP fun s => match s with
    | .call (.enter key' _ _) => key' = key
    | _ => false

def ProfCall.env : ProfCall → Option WriterEnv
  | .enter _ _ env => some env
  | .exit env => some env
  | .unwind _ env => some env
  | .spanBegin _ _ _ env => some env
  | .spanEnd env => some env
  | .frame _ _ env => some env
  | .counter _ _ _ _ env => some env
  | .event _ _ _ env => some env
  | .sample _ _ _ _ env => some env
  | .release env => some env
  | .drain => none

/-- No record is lost for lack of a chunk. -/
def ProfStep.Roomy : ProfStep → Prop
  | .call c => ∀ env, c.env = some env → env.room ≠ none ∧ env.droppedRoom ≠ none
  | .pausedUnwind _ => True

/-- Keys are not zero, and the program's events are not those of dropped calls. -/
def ProfStep.Keyed : ProfStep → Prop
  | .call (.enter key _ _) => key ≠ 0
  | .call (.event id _ _ _) => id ≠ UInt32.ofNat eventDroppedCalls
  | _ => True

/-- The depths are those of a C `int`. -/
def ProfStep.InInt (o : OpenCalls) : ProfStep → Prop
  | .call (.unwind depth _) => o.depth < 2 ^ 31 ∧ -2 ^ 31 ≤ depth
  | _ => True

end HashLink.Prof
