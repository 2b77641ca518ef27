import HashLink.Lib.Monitor

/-!
The deques of `thread.c`, as POSIX threads run them. The list of a deque lies in memory, and an address is
the number of allocations before it. What a thread does between `LOCK` and `UNLOCK` is one section, and a wait ends the
section it is in.
-/

namespace HashLink.Threads

open Monitor

variable {α : Type*}

/-- `tqueue`. -/
structure TQueue (α : Type*) where
  msg : α
  next : Option Nat

/-- `hl_deque`, with the memory of its nodes. -/
structure HlDeque (α : Type*) where
  mem : Nat → TQueue α
  fresh : Nat
  first : Option Nat
  last : Option Nat

/-- What a thread puts in: `hl_deque_add` at the end, `hl_deque_push` at the front. -/
inductive Put (α : Type*) where
  | add (msg : α)
  | push (msg : α)
  deriving DecidableEq

namespace HlDeque

/-- `hl_deque_alloc`, in a memory with anything in it. -/
def hlDequeAlloc (mem : Nat → TQueue α) : HlDeque α := ⟨mem, 0, none, none⟩

def hlDequeAdd (q : HlDeque α) (msg : α) : HlDeque α :=
  let t := q.fresh
  let mem := Function.update q.mem t ⟨msg, none⟩
  match q.last with
  | none => ⟨mem, t + 1, some t, some t⟩
  | some l => ⟨Function.update mem l { mem l with next := some t }, t + 1, q.first, some t⟩

def hlDequePush (q : HlDeque α) (msg : α) : HlDeque α :=
  let t := q.fresh
  ⟨Function.update q.mem t ⟨msg, q.first⟩, t + 1, some t, if q.last = none then some t else q.last⟩

/-- The section of `hl_deque_pop`, when there is a message. -/
def hlDequePop (q : HlDeque α) : Option (α × HlDeque α) :=
  match q.first with
  | none => none
  | some f =>
    let next := (q.mem f).next
    some ((q.mem f).msg, { q with first := next, last := if next = none then none else q.last })

def put (q : HlDeque α) : Put α → HlDeque α
  | .add msg => q.hlDequeAdd msg
  | .push msg => q.hlDequePush msg

end HlDeque

def dequeObject : Object (Put α) α (HlDeque α) where
  give p q := q.put p
  take := HlDeque.hlDequePop
  signals q := q.first.isSome

/-- What a deque is for: a sequence of messages. -/
def queueObject : Object (Put α) α (List α) where
  give
    | .add msg, msgs => msgs ++ [msg]
    | .push msg, msgs => msg :: msgs
  take
    | [] => none
    | msg :: msgs => some (msg, msgs)
  signals msgs := !msgs.isEmpty

/-! ### The list in memory -/

/-- Nodes that are linked, the last one to nothing. -/
def Linked (mem : Nat → TQueue α) : List Nat → Prop
  | [] => True
  | p :: ps => (mem p).next = ps.head? ∧ Linked mem ps

/-- The messages of a deque. -/
def HlDeque.Holds (q : HlDeque α) (msgs : List α) : Prop :=
  ∃ ps : List Nat, ps.Nodup ∧ (∀ p ∈ ps, p < q.fresh) ∧ q.first = ps.head? ∧ q.last = ps.getLast? ∧
    Linked q.mem ps ∧ msgs = ps.map fun p => (q.mem p).msg

variable {mem mem' : Nat → TQueue α} {ps : List Nat} {l t : Nat} {q : HlDeque α} {msgs : List α}

theorem Linked.congr (h : Linked mem ps) (heq : ∀ p ∈ ps, mem' p = mem p) : Linked mem' ps := by
  induction ps with
  | nil => exact trivial
  | cons p ps ih =>
    refine ⟨?_, ih h.2 fun p hp => heq p (List.mem_cons_of_mem _ hp)⟩
    rw [heq p List.mem_cons_self]
    exact h.1

/-- A node is linked behind the last one. -/
theorem Linked.concat (h : Linked mem (ps ++ [l])) (heq : ∀ p ∈ ps, mem' p = mem p) (hlast : (mem' l).next = some t)
    (hnew : (mem' t).next = none) : Linked mem' (ps ++ [l, t]) := by
  induction ps with
  | nil => exact ⟨hlast, hnew, trivial⟩
  | cons p ps ih =>
    refine ⟨?_, ih h.2 fun p hp => heq p (List.mem_cons_of_mem _ hp)⟩
    rw [heq p List.mem_cons_self]
    refine h.1.trans ?_
    cases ps with
    | nil => rfl
    | cons _ _ => rfl

theorem linked_unique {ps ps' : List Nat} (h : Linked mem ps) (h' : Linked mem ps') (hhead : ps.head? = ps'.head?) :
    ps = ps' := by
  induction ps generalizing ps' with
  | nil => exact (List.head?_eq_none_iff.1 hhead.symm).symm
  | cons p ps ih =>
    cases ps' with
    | nil => cases hhead
    | cons p' ps' =>
      cases hhead
      rw [ih h.2 h'.2 (h.1.symm.trans h'.1)]

theorem HlDeque.Holds.first_none (h : q.Holds msgs) : q.first = none ↔ msgs = [] := by
  obtain ⟨ps, -, -, hfirst, -, -, rfl⟩ := h
  rw [hfirst, List.head?_eq_none_iff, List.map_eq_nil_iff]

theorem HlDeque.Holds.add (h : q.Holds msgs) (msg : α) : (q.hlDequeAdd msg).Holds (msgs ++ [msg]) := by
  obtain ⟨ps, hnodup, hfresh, hfirst, hlast, hlinked, rfl⟩ := h
  have hnew : q.fresh ∉ ps := fun hmem => Nat.lt_irrefl _ (hfresh _ hmem)
  cases hps : ps using List.reverseRecOn with
  | nil =>
    subst hps
    refine ⟨[q.fresh], List.nodup_singleton _, ?_⟩
    simp only [hlDequeAdd, hlast, List.getLast?_nil, List.mem_singleton, forall_eq, List.map_nil, List.nil_append,
      List.map_cons, Function.update_self]
    exact ⟨Nat.lt_succ_self _, rfl, rfl, ⟨by rw [Function.update_self]; rfl, trivial⟩, trivial⟩
  | append_singleton ps l =>
    subst hps
    rw [List.getLast?_concat] at hlast
    have hl : l ≠ q.fresh := fun heq => hnew (heq ▸ List.mem_append_right _ (List.mem_singleton_self l))
    have hsame : ∀ p ∈ ps, (q.hlDequeAdd msg).mem p = q.mem p := by
      intro p hp
      have hpl : p ≠ l := by
        rintro rfl
        exact (List.nodup_append.1 hnodup).2.2 p hp p (List.mem_singleton_self p) rfl
      have hpt : p ≠ q.fresh := fun heq => hnew (heq ▸ List.mem_append_left _ hp)
      simp only [hlDequeAdd, hlast, Function.update_of_ne hpl, Function.update_of_ne hpt]
    have hlink : (q.hlDequeAdd msg).mem l = { q.mem l with next := some q.fresh } := by
      simp only [hlDequeAdd, hlast, Function.update_self, Function.update_of_ne hl]
    have hnode : (q.hlDequeAdd msg).mem q.fresh = ⟨msg, none⟩ := by
      simp only [hlDequeAdd, hlast, Function.update_of_ne hl.symm, Function.update_self]
    refine ⟨ps ++ [l, q.fresh], ?_, ?_, ?_, ?_, hlinked.concat hsame (by rw [hlink]) (by rw [hnode]), ?_⟩
    · rw [List.append_cons]
      exact List.nodup_append.2 ⟨hnodup, List.nodup_singleton _, fun p hp p' hp' heq =>
        hnew (List.mem_singleton.1 hp' ▸ heq ▸ hp)⟩
    · intro p hp
      have hnext : (q.hlDequeAdd msg).fresh = q.fresh + 1 := by simp only [hlDequeAdd, hlast]
      rw [hnext]
      rw [List.append_cons] at hp
      rcases List.mem_append.1 hp with hold | hlast
      · exact Nat.lt_succ_of_lt (hfresh p hold)
      · exact List.mem_singleton.1 hlast ▸ Nat.lt_succ_self _
    · have hkeep : (q.hlDequeAdd msg).first = q.first := by simp only [hlDequeAdd, hlast]
      rw [hkeep, hfirst]
      cases ps with
      | nil => rfl
      | cons _ _ => rfl
    · have hend : (q.hlDequeAdd msg).last = some q.fresh := by simp only [hlDequeAdd, hlast]
      rw [hend, List.append_cons, List.getLast?_concat]
    · have hmsgs : ps.map (fun p => ((q.hlDequeAdd msg).mem p).msg) = ps.map fun p => (q.mem p).msg :=
        List.map_congr_left fun p hp => by rw [hsame p hp]
      simp only [List.map_append, List.map_cons, List.map_nil, hmsgs, hlink, hnode, List.append_assoc,
        List.singleton_append]

theorem HlDeque.Holds.push (h : q.Holds msgs) (msg : α) : (q.hlDequePush msg).Holds (msg :: msgs) := by
  obtain ⟨ps, hnodup, hfresh, hfirst, hlast, hlinked, rfl⟩ := h
  have hnew : q.fresh ∉ ps := fun hmem => Nat.lt_irrefl _ (hfresh _ hmem)
  have hsame : ∀ p ∈ ps, (q.hlDequePush msg).mem p = q.mem p := fun p hp =>
    Function.update_of_ne (fun heq : p = q.fresh => hnew (heq ▸ hp)) _ _
  have hnode : (q.hlDequePush msg).mem q.fresh = ⟨msg, q.first⟩ := Function.update_self ..
  refine ⟨q.fresh :: ps, List.nodup_cons.2 ⟨hnew, hnodup⟩, ?_, rfl, ?_, ⟨?_, hlinked.congr hsame⟩, ?_⟩
  · intro p hp
    rcases List.mem_cons.1 hp with rfl | hold
    · exact Nat.lt_succ_self _
    · exact Nat.lt_succ_of_lt (hfresh p hold)
  · show (if q.last = none then some q.fresh else q.last) = _
    rw [hlast]
    cases ps with
    | nil => rfl
    | cons p ps =>
      rw [List.getLast?_cons_cons]
      exact if_neg (by rw [List.getLast?_eq_none_iff]; exact List.cons_ne_nil p ps)
  · rw [hnode]
    exact hfirst
  · have hmsgs : ps.map (fun p => ((q.hlDequePush msg).mem p).msg) = ps.map fun p => (q.mem p).msg :=
      List.map_congr_left fun p hp => by rw [hsame p hp]
    rw [List.map_cons, hnode, hmsgs]

theorem HlDeque.Holds.pop_none (h : q.Holds msgs) (hpop : q.hlDequePop = none) : msgs = [] := by
  refine h.first_none.1 ?_
  unfold hlDequePop at hpop
  cases hfirst : q.first with
  | none => rfl
  | some f =>
    rw [hfirst] at hpop
    cases hpop

theorem HlDeque.Holds.pop_some {q' : HlDeque α} {msg : α} (h : q.Holds msgs) (hpop : q.hlDequePop = some (msg, q')) :
    ∃ rest, msgs = msg :: rest ∧ q'.Holds rest := by
  obtain ⟨ps, hnodup, hfresh, hfirst, hlast, hlinked, rfl⟩ := h
  unfold hlDequePop at hpop
  cases ps with
  | nil =>
    rw [hfirst] at hpop
    cases hpop
  | cons p ps =>
    rw [hfirst] at hpop
    cases hpop
    refine ⟨_, rfl, ps, (List.nodup_cons.1 hnodup).2, fun p hp => hfresh p (List.mem_cons_of_mem _ hp), hlinked.1, ?_,
      hlinked.2, rfl⟩
    dsimp only
    rw [hlinked.1, hlast]
    cases ps with
    | nil => rfl
    | cons p' ps => exact (if_neg fun heq => by cases heq).trans List.getLast?_cons_cons

/-- The sections of a deque do what they would do to a sequence of messages. -/
theorem deque_simulates : Object.Simulates (dequeObject (α := α)) queueObject HlDeque.Holds where
  give p q msgs h := by
    cases p with
    | add msg => exact h.add msg
    | push msg => exact h.push msg
  empty q msgs h hpop := by
    rw [h.pop_none hpop]
    rfl
  take q msgs msg q' h hpop := by
    obtain ⟨rest, rfl, hrest⟩ := h.pop_some hpop
    refine ⟨rest, rfl, hrest, ?_⟩
    show q'.first.isSome = !rest.isEmpty
    cases rest with
    | nil => rw [hrest.first_none.2 rfl]; rfl
    | cons m rest =>
      cases hfirst : q'.first with
      | none => cases hrest.first_none.1 hfirst
      | some f => rfl

theorem queue_measured : Object.Measured (queueObject (α := α)) List.length where
  give p msgs := by
    cases p with
    | add msg => exact Nat.le_of_eq List.length_append
    | push msg => exact Nat.le_refl _
  empty msgs htake := by
    cases msgs with
    | nil => rfl
    | cons msg msgs => cases htake
  take msgs msg rest htake := by
    cases msgs with
    | nil => cases htake
    | cons m msgs =>
      cases htake
      exact Nat.le_refl _

/-! ### Runs -/

variable {ι : Type*}

/-- The messages that were put in, in the order of the sections. -/
def puts (log : List (Entry ι (Put α) α)) : List α :=
  log.filterMap fun
    | .gave (.add msg) | .gave (.push msg) => some msg
    | .took _ _ | .missed _ => none

def pops (log : List (Entry ι (Put α) α)) : List α :=
  log.filterMap fun
    | .gave _ | .missed _ => none
    | .took _ msg => some msg

theorem queue_conserves {msgs msgs' : List α} {log : List (Entry ι (Put α) α)}
    (h : queueObject.Replays msgs log msgs') : (pops log ++ msgs').Perm (msgs ++ puts log) := by
  induction h with
  | nil msgs => exact .of_eq (List.append_nil msgs).symm
  | @gave msgs msgs' p log hrest ih =>
    refine ih.trans ?_
    cases p with
    | add msg => exact .of_eq (List.append_assoc msgs [msg] (puts log))
    | push msg => exact List.perm_middle.symm
  | @took msgs rest msgs' t msg log htake hrest ih =>
    cases msgs with
    | nil => cases htake
    | cons m msgs =>
      cases htake
      exact ih.cons msg
  | missed hnone hrest ih => exact ih

/-- What is only added comes out in the order it was added. -/
theorem queue_fifo {msgs msgs' : List α} {log : List (Entry ι (Put α) α)} (h : queueObject.Replays msgs log msgs')
    (hadds : ∀ msg, .gave (.push msg) ∉ log) : pops log ++ msgs' = msgs ++ puts log := by
  induction h with
  | nil msgs => exact (List.append_nil msgs).symm
  | @gave msgs msgs' p log hrest ih =>
    have hold := ih fun msg hmem => hadds msg (List.mem_cons_of_mem _ hmem)
    cases p with
    | add msg => exact hold.trans (List.append_assoc msgs [msg] (puts log))
    | push msg => exact absurd List.mem_cons_self (hadds msg)
  | @took msgs rest msgs' t msg log htake hrest ih =>
    have hold := ih fun msg hmem => hadds msg (List.mem_cons_of_mem _ hmem)
    cases msgs with
    | nil => cases htake
    | cons m msgs =>
      cases htake
      exact congrArg (msg :: ·) hold
  | missed hnone hrest ih => exact ih fun msg hmem => hadds msg (List.mem_cons_of_mem _ hmem)

theorem holds_alloc (mem : Nat → TQueue α) : (HlDeque.hlDequeAlloc mem).Holds [] :=
  ⟨[], List.nodup_nil, fun _ hp => absurd hp List.not_mem_nil, rfl, rfl, trivial, rfl⟩

section
variable [Fintype ι] [DecidableEq ι] {s : State ι (Put α) α (HlDeque α)}

/-- A deque that any number of threads use is a sequence of messages, which the sections change one after the other. No
message is lost, made up or taken twice, and without `hl_deque_push` they are taken in the order they were added. -/
theorem deque_run (mem : Nat → TQueue α) (events : List (Event ι (Put α)))
    (h : dequeObject.run (State.start (HlDeque.hlDequeAlloc mem)) events = some s) :
    ∃ msgs, s.shared.Holds msgs ∧ queueObject.Replays [] s.log msgs ∧ (pops s.log ++ msgs).Perm (puts s.log) ∧
      ((∀ msg, .gave (.push msg) ∉ s.log) → pops s.log ++ msgs = puts s.log) := by
  obtain ⟨msgs, hrun, hholds⟩ := deque_simulates.run (holds_alloc mem) h
  obtain ⟨log, hlog, hreplays⟩ := Object.run_replays hrun
  obtain rfl : s.log = log := hlog
  exact ⟨msgs, hholds, hreplays, queue_conserves hreplays, queue_fifo hreplays⟩

/-- No signal is lost: while a thread sleeps in `hl_deque_pop`, for every message a thread is awake to take it. -/
theorem deque_wakes (mem : Nat → TQueue α) (events : List (Event ι (Put α)))
    (h : dequeObject.run (State.start (HlDeque.hlDequeAlloc mem)) events = some s)
    (hasleep : ∃ t, s.phase t = .asleep) {msgs : List α} (hmsgs : s.shared.Holds msgs) :
    msgs.length ≤ Object.woken s.phase := by
  obtain ⟨msgs', hrun, hholds⟩ := deque_simulates.run (holds_alloc mem) h
  have hawake : Object.Awake List.length (⟨[], fun _ => .out, []⟩ : State ι (Put α) α (List α)) := by
    rintro ⟨t, ht⟩
    cases ht
  have hsame : msgs' = msgs := by
    obtain ⟨ps, -, -, hfirst, -, hlinked, rfl⟩ := hmsgs
    obtain ⟨ps', -, -, hfirst', -, hlinked', rfl⟩ := hholds
    rw [linked_unique hlinked' hlinked (hfirst'.symm.trans hfirst)]
  exact hsame ▸ hawake.run queue_measured hrun hasleep

end

/-- Thread 0 waits, thread 1 puts in two messages, takes both before thread 0 looks again, and finds nothing more. -/
def demoDeque : List (Event (Fin 2) (Put Nat)) :=
  [.ask 0 true, .look 0 ∅, .give (.add 7) {0}, .give (.push 8) ∅, .ask 1 false, .look 1 ∅, .ask 1 false, .look 1 ∅,
    .ask 1 false, .look 1 ∅, .look 0 ∅]

theorem deque_run_demo : ∃ s, dequeObject.run (State.start (HlDeque.hlDequeAlloc fun _ => ⟨0, none⟩)) demoDeque = some s ∧
    ∃ msgs, s.shared.Holds msgs ∧ queueObject.Replays [] s.log msgs ∧ (pops s.log ++ msgs).Perm (puts s.log) ∧
      ((∀ msg, .gave (.push msg) ∉ s.log) → pops s.log ++ msgs = puts s.log) :=
  ⟨_, rfl, deque_run (fun _ => ⟨0, none⟩) demoDeque rfl⟩

/-- Two threads sleep, and a message wakes one of them. -/
def demoWakes : List (Event (Fin 2) (Put Nat)) :=
  [.ask 0 true, .look 0 ∅, .ask 1 true, .look 1 ∅, .give (.add 7) {0}]

theorem deque_wakes_demo : ∃ s,
    dequeObject.run (State.start (HlDeque.hlDequeAlloc fun _ => ⟨0, none⟩)) demoWakes = some s ∧
      s.phase 1 = .asleep ∧ ([7] : List Nat).length ≤ Object.woken s.phase := by
  refine ⟨_, rfl, rfl, deque_wakes (fun _ => ⟨0, none⟩) demoWakes rfl ⟨1, rfl⟩ ⟨[0], ?_⟩⟩
  exact ⟨List.nodup_singleton 0, by decide, rfl, rfl, ⟨rfl, trivial⟩, rfl⟩

end HashLink.Threads
