import HashLink.Gc.HeapInvariant

/-!
Allocation by several threads while cycles start and end. A small request takes a block of the
thread's buffer, or a new run for it; every other request takes a block of the allocator, which marks
it in a cycle. The buffers are not used in a cycle, and the world is only stopped between two steps
of a thread. A cycle can start after a request has chosen its way.
-/

namespace HashLink.Gc

/-- A request of `hl_gc_alloc_gen_owner`, for an owner that has a class. -/
structure AllocRequest where
  size : Nat
  kind : MemKind
  oc : Nat
  zero : Bool

namespace AllocRequest

def part (req : AllocRequest) : Nat := (req.size + gcAlign - 1) / gcAlign - 1

def pid (req : AllocRequest) : Pid := ⟨req.oc, req.part, req.kind⟩

/-- The part of `gc_tlab_thread` that is about the request. -/
def small (req : AllocRequest) : Bool := req.size ≤ gcSizes (gcFixedParts - 1) ∧ req.kind ≠ .finalizer

end AllocRequest

/-- `gc_tlab_slot`: the blocks of a page that a thread has left. -/
structure TlabSlot where
  page : Nat
  cur : Nat
  stop : Nat

/-- The two ways of a request that needs the lock: `gc_tlab_alloc` and `gc_alloc_gen_owner_full`. -/
inductive AllocPath where
  | refill
  | direct

inductive AllocPhase where
  | running
  | waits (path : AllocPath) (req : AllocRequest)
  | locked (path : AllocPath) (req : AllocRequest)

/-- The heap, and the buffers and the requests of the threads. -/
structure Mutators where
  heap : GcInc
  slots : Nat → Pid → TlabSlot
  phase : Nat → AllocPhase
  lock : Option Nat

/-- What the threads do. `allowed` stands for the parts of `GC_TLAB_POLICY` that have nothing to do
with a cycle. A collection is a part of a request, by `gc_check_mark` or for want of memory, or it is
asked for. -/
inductive AllocEvent where
  | request (thread : Nat) (req : AllocRequest) (allowed : Bool)
  | acquire (thread : Nat)
  | slice (thread : Nat) (env : GcInc.Env) (marks : Nat → List Bool)
  | major (thread : Nat) (marks : Nat → List Bool)
  | newPage (thread slot : Nat) (pid : Pid) (base size : Nat)
  | take (thread page : Nat)
  | store (id i value : Nat)
  | setRoots (roots : List Nat)

variable {req : AllocRequest}

namespace Mutators

def setSlot (m : Mutators) (t : Nat) (pid : Pid) (slot : TlabSlot) : Mutators :=
  { m with slots := Function.update m.slots t (Function.update (m.slots t) pid slot) }

def setPhase (m : Mutators) (t : Nat) (phase : AllocPhase) : Mutators :=
  { m with phase := Function.update m.phase t phase }

/-- `gc_stop_world` empties the buffers. -/
def clearSlots (m : Mutators) : Mutators := { m with slots := fun _ _ => ⟨0, 0, 0⟩ }

def request (m : Mutators) (t : Nat) (req : AllocRequest) (allowed : Bool) :
    Mutators × Option BlockRef :=
  if req.size = 0 then (m, none)
  else if req.small && allowed && !m.heap.active then
    let slot := m.slots t req.pid
    if slot.cur < slot.stop then
      let m := m.setSlot t req.pid { slot with cur := slot.cur + 1 }
      let heap := m.heap.clearBlock (slot.page, slot.cur) req.size req.zero
      ({ m with heap }, some (slot.page, slot.cur))
    else (m.setPhase t (.waits .refill req), none)
  else (m.setPhase t (.waits .direct req), none)

/-- The rest of a request on a page that has room for it, under the lock. -/
def take (m : Mutators) (t id : Nat) : AllocPath → AllocRequest → Option (Mutators × Option BlockRef)
  | .refill, req =>
    match (m.heap.pages[id]?).bind fun p => if p.page.pid = req.pid then p.page.takeBuffer else none with
    | none => none
    | some (_, run) =>
      let m := { m with heap := m.heap.reserve id req.size req.zero, lock := none }
      some ((m.setSlot t req.pid ⟨id, run.pos + 1, run.stop⟩).setPhase t .running, some (id, run.pos))
  | .direct, req =>
    match (m.heap.pages[id]?).bind fun p =>
      if p.page.pid.oc = req.oc ∧ p.page.pid.kind = req.kind then p.page.takeBlock req.size else none with
    | none => none
    | some (_, run) =>
      let m := { m with heap := m.heap.alloc id req.size req.zero, lock := none }
      some (m.setPhase t .running, some (id, run.pos))

/-- A step, with the block that it returns to a thread. There is none when it stops the program or
can not be taken. -/
def step (m : Mutators) : AllocEvent → Option (Mutators × Option BlockRef)
  | .request t req allowed =>
    match m.phase t with
    | .running => some (m.request t req allowed)
    | _ => none
  | .acquire t =>
    match m.lock, m.phase t with
    | none, .waits path req => some ({ m.setPhase t (.locked path req) with lock := some t }, none)
    | _, _ => none
  | .slice t env marks =>
    if m.lock = none ∨ m.lock = some t then
      (m.heap.step (.slice env marks)).map fun heap => ({ m.clearSlots with heap }, none)
    else none
  | .major t marks =>
    if m.lock = none ∨ m.lock = some t then
      some ({ m.clearSlots with heap := m.heap.major marks }, none)
    else none
  | .newPage t slot pid base size =>
    if m.lock = some t then some ({ m with heap := m.heap.newPage slot pid base size }, none)
    else none
  | .take t id =>
    match m.phase t with
    | .locked path req => m.take t id path req
    | _ => none
  | .store id i value => some ({ m with heap := m.heap.store id i value }, none)
  | .setRoots roots => some ({ m with heap := { m.heap with roots } }, none)

def runSteps (m : Mutators) : List AllocEvent → Option Mutators
  | [] => some m
  | e :: es => (m.step e).bind fun r => r.1.runSteps es

/-- The threads before their first request, over a heap between cycles. -/
structure Fresh (m : Mutators) : Prop where
  heap : m.heap.Idle
  slots : ∀ t pid, m.slots t pid = ⟨0, 0, 0⟩
  phase : ∀ t, m.phase t = .running
  lock : m.lock = none

variable {m m' : Mutators}

theorem sound_request (h : m.heap.Sound) (t : Nat) (req : AllocRequest) (allowed : Bool) :
    (m.request t req allowed).1.heap.Sound := by
  unfold request
  split
  · exact h
  · split
    · simp only
      split
      · unfold GcInc.clearBlock
        split
        · exact h
        · exact h.setMem _
      · exact h
    · exact h

variable {r : Mutators × Option BlockRef}

theorem take_refill {t id : Nat} (htake : m.take t id .refill req = some r) :
    ∃ p page run, m.heap.pages[id]? = some p ∧ p.page.takeBuffer = some (page, run) ∧
      r.1.heap = m.heap.reserve id req.size req.zero ∧ r.2 = some (id, run.pos) := by
  simp only [take] at htake
  split at htake
  · cases htake
  · rename_i page run hbind
    obtain ⟨p, hp, hpage⟩ := Option.bind_eq_some_iff.mp hbind
    cases htake
    refine ⟨p, page, run, hp, ?_, rfl, rfl⟩
    split at hpage
    · exact hpage
    · cases hpage

theorem take_direct {t id : Nat} (htake : m.take t id .direct req = some r) :
    ∃ p page run, m.heap.pages[id]? = some p ∧ p.page.takeBlock req.size = some (page, run) ∧
      r.1.heap = m.heap.alloc id req.size req.zero ∧ r.2 = some (id, run.pos) := by
  simp only [take] at htake
  split at htake
  · cases htake
  · rename_i page run hbind
    obtain ⟨p, hp, hpage⟩ := Option.bind_eq_some_iff.mp hbind
    cases htake
    refine ⟨p, page, run, hp, ?_, rfl, rfl⟩
    split at hpage
    · exact hpage
    · cases hpage

theorem sound_take (h : m.heap.Sound) {t id : Nat} {path : AllocPath} (htake : m.take t id path req = some r) :
    r.1.heap.Sound := by
  cases path with
  | refill =>
    obtain ⟨-, -, -, -, -, hheap, -⟩ := take_refill htake
    rw [hheap]
    exact h.reserve id req.size req.zero
  | direct =>
    obtain ⟨-, -, -, -, -, hheap, -⟩ := take_direct htake
    rw [hheap]
    exact h.alloc id req.size req.zero

theorem sound_step (h : m.heap.Sound) {e : AllocEvent} (hstep : m.step e = some r) : r.1.heap.Sound := by
  cases e with
  | request t req allowed =>
    unfold step at hstep
    simp only at hstep
    split at hstep
    · cases hstep
      exact sound_request h t req allowed
    · cases hstep
  | acquire t =>
    unfold step at hstep
    simp only at hstep
    split at hstep
    · cases hstep
      exact h
    · cases hstep
  | slice t env marks =>
    unfold step at hstep
    simp only at hstep
    split at hstep
    · obtain ⟨heap, hheap, rfl⟩ := Option.map_eq_some_iff.mp hstep
      exact h.step hheap
    · cases hstep
  | major t marks =>
    unfold step at hstep
    simp only at hstep
    split at hstep
    · cases hstep
      exact (GcInc.major_idle h.heap marks).sound
    · cases hstep
  | newPage t slot pid base size =>
    unfold step at hstep
    simp only at hstep
    split at hstep
    · cases hstep
      exact h.newPage slot pid base size
    · cases hstep
  | take t id =>
    unfold step at hstep
    simp only at hstep
    split at hstep
    · exact sound_take h hstep
    · cases hstep
  | store id i value =>
    cases hstep
    exact h.store id i value
  | setRoots roots =>
    cases hstep
    exact h.step (e := .setRoots roots) rfl

theorem sound_runSteps (h : m.heap.Sound) {events : List AllocEvent}
    (hrun : m.runSteps events = some m') : m'.heap.Sound := by
  induction events generalizing m with
  | nil =>
    cases hrun
    exact h
  | cons e events ih =>
    obtain ⟨r, hstep, hrest⟩ := Option.bind_eq_some_iff.mp hrun
    exact ih (sound_step h hstep) hrest

end Mutators

def GcInc.FirstFreeMarked (s : GcInc) (id : Nat) : Prop :=
  ∃ p run, s.pages[id]? = some p ∧ p.epoch = s.epoch ∧ p.page.runs.head? = some run ∧
    p.page.marked run.pos = true

theorem GcPage.takeBuffer_head {p page : GcPage} {run : Run} (hok : p.Ok)
    (hsettled : p.needFlush = false) (htake : p.takeBuffer = some (page, run)) :
    page.bmp = p.bmp ∧ ∃ r, p.runs.head? = some r ∧ r.pos = run.pos := by
  obtain ⟨q, hq, -, -, hnone, hbmp⟩ := takeBuffer_spec hok htake
  rw [flushed_of_settled hsettled] at hq
  cases hq
  refine ⟨hbmp, ?_⟩
  unfold takeBuffer at htake
  rw [flushed_of_settled hsettled] at htake
  simp only at htake
  split at htake
  · rename_i hpart
    have hlarge : ¬p.pid.part = gcLargePart := by
      intro heq
      rw [heq] at hpart
      exact absurd hpart (by decide)
    unfold takeBlocks at htake
    rw [if_neg hlarge, hnone] at htake
    obtain ⟨⟨p', run'⟩, hfixed, heq⟩ := Option.map_eq_some_iff.mp htake
    cases heq
    unfold takeFixed at hfixed
    split at hfixed
    · rename_i c hc
      cases hfixed
      refine ⟨c, ?_, rfl⟩
      unfold runs
      rw [List.head?_drop]
      exact hc
    · cases hfixed
  · cases htake

namespace Mutators

variable {m m' : Mutators}

/-- A run is taken for a buffer in a cycle, and its first block is not marked. -/
def UnmarkedRefill (m : Mutators) : AllocEvent → Prop
  | .take t id => (∃ req, m.phase t = .locked .refill req) ∧ m.heap.active = true ∧ ¬m.heap.FirstFreeMarked id
  | _ => False

theorem marked_reserve (h : m.heap.Sound) {id size : Nat} {zero : Bool} {p : IncPage} {page : GcPage}
    {run : Run} (hactive : m.heap.active = true) (hp : m.heap.pages[id]? = some p)
    (htake : p.page.takeBuffer = some (page, run)) :
    (m.heap.reserve id size zero).Marked (id, run.pos) ↔ m.heap.FirstFreeMarked id := by
  have hlt := (List.getElem?_eq_some_iff.mp hp).1
  have hok := h.heap.ok id p hp
  have hpage : (m.heap.reserve id size zero).pages[id]? = some { p with page } := by
    rw [GcInc.reserve_eq hp htake]
    exact List.getElem?_set_self hlt
  have hepoch : (m.heap.reserve id size zero).epoch = m.heap.epoch := by
    rw [GcInc.reserve_eq hp htake]
  constructor
  · rintro ⟨q, hq, hqe, hmarked⟩
    cases hpage.symm.trans hq
    have hpe : p.epoch = m.heap.epoch := hqe.trans hepoch
    obtain ⟨hbmp, r, hr, hpos⟩ := GcPage.takeBuffer_head hok.page (h.bits hactive id p hp hpe).2 htake
    refine ⟨p, r, hp, hpe, hr, ?_⟩
    unfold GcPage.marked at hmarked ⊢
    rw [hpos, ← hbmp]
    exact hmarked
  · rintro ⟨q, r, hq, hpe, hr, hmarked⟩
    cases hp.symm.trans hq
    obtain ⟨hbmp, r', hr', hpos⟩ := GcPage.takeBuffer_head hok.page (h.bits hactive id p hp hpe).2 htake
    cases hr.symm.trans hr'
    refine ⟨_, hpage, hpe.trans hepoch.symm, ?_⟩
    unfold GcPage.marked at hmarked ⊢
    rw [hbmp, ← hpos]
    exact hmarked

theorem active_of_hit {t : Nat} {allowed : Bool} {b : BlockRef} (h : (m.request t req allowed).2 = some b) :
    (m.request t req allowed).1.heap.active = false := by
  unfold request at h ⊢
  split at h
  · cases h
  · rename_i hsize
    rw [if_neg hsize]
    split at h
    · rename_i hpolicy
      rw [if_pos hpolicy]
      simp only [Bool.and_eq_true, Bool.not_eq_true'] at hpolicy
      simp only at h ⊢
      split at h
      · rename_i hslot
        rw [if_pos hslot]
        unfold GcInc.clearBlock
        split
        · exact hpolicy.2
        · exact hpolicy.2
      · cases h
    · cases h

/-- A block that is returned in a cycle is marked, but for the first block of a run that was taken
for a buffer in the cycle, unless it had a mark already. -/
theorem returned_marked_iff {start : Mutators} {events : List AllocEvent} {e : AllocEvent}
    {b : BlockRef} (hstart : start.Fresh) (hrun : start.runSteps events = some m)
    (hstep : m.step e = some (m', some b)) :
    (m'.heap.active = true → m'.heap.Marked b) ↔ ¬m.UnmarkedRefill e := by
  have hsound : m.heap.Sound := sound_runSteps hstart.heap.sound hrun
  cases e with
  | request t req allowed =>
    simp only [step] at hstep
    split at hstep
    · have hr : m.request t req allowed = (m', some b) := Option.some.inj hstep
      have hidle : m'.heap.active = false := by
        have hhit := active_of_hit (m := m) (t := t) (b := b) (congrArg Prod.snd hr)
        rw [hr] at hhit
        exact hhit
      refine ⟨fun _ hfalse => hfalse, fun _ hactive => ?_⟩
      cases hidle.symm.trans hactive
    · cases hstep
  | take t id =>
    simp only [step] at hstep
    split at hstep
    · rename_i path req hphase
      cases path with
      | refill =>
        obtain ⟨p, page, run, hp, htake, hheap, hb⟩ := take_refill hstep
        have hactive' : m'.heap.active = m.heap.active := by
          rw [show m'.heap = _ from hheap]
          exact GcInc.active_reserve ..
        cases hb
        have hmarked : m.heap.active = true →
            (m'.heap.Marked (id, run.pos) ↔ m.heap.FirstFreeMarked id) := by
          intro hactive
          rw [show m'.heap = _ from hheap]
          exact marked_reserve hsound hactive hp htake
        constructor
        · rintro hblack ⟨-, hactive, hfree⟩
          exact hfree ((hmarked hactive).mp (hblack (hactive'.trans hactive)))
        · intro hnot hactive
          rw [hactive'] at hactive
          refine (hmarked hactive).mpr (Classical.byContradiction fun hfree => ?_)
          exact hnot ⟨⟨req, hphase⟩, hactive, hfree⟩
      | direct =>
        obtain ⟨p, page, run, hp, htake, hheap, hb⟩ := take_direct hstep
        cases hb
        have hdirect : ¬m.UnmarkedRefill (.take t id) := by
          rintro ⟨⟨req', hphase'⟩, -⟩
          cases hphase.symm.trans hphase'
        refine ⟨fun _ => hdirect, fun _ hactive => ?_⟩
        rw [show m'.heap = _ from hheap] at hactive ⊢
        rw [GcInc.active_alloc] at hactive
        exact (hsound.alloc_page hp htake).2 hactive
    · cases hstep
  | acquire t =>
    simp only [step] at hstep
    split at hstep <;> cases hstep
  | slice t env marks =>
    simp only [step] at hstep
    split at hstep
    · obtain ⟨heap, -, heq⟩ := Option.map_eq_some_iff.mp hstep
      cases heq
    · cases hstep
  | major t marks =>
    simp only [step] at hstep
    split at hstep <;> cases hstep
  | newPage t slot pid base size =>
    simp only [step] at hstep
    split at hstep <;> cases hstep
  | store id i value => cases hstep
  | setRoots roots => cases hstep

def bare : Mutators where
  heap :=
    { pages := [], lists := [[]], mem := fun _ _ => 0, roots := [], epoch := 0, active := false,
      preparing := false, discovering := false, preparePid := 0, prepareCursor := [], stack := [],
      cursor := none, rescan := none, incoming := [], batch := [], dirtyWalk := .reset }
  slots := fun _ _ => ⟨0, 0, 0⟩
  phase := fun _ => .running
  lock := none

theorem fresh_bare : bare.Fresh where
  heap := ⟨⟨fun _ _ h => (nomatch h), fun _ _ h => (nomatch h), fun _ h => (nomatch h)⟩, rfl, rfl, rfl, rfl⟩
  slots _ _ := rfl
  phase _ := rfl
  lock := rfl

/-- Eight bytes for a thread without an owner. -/
def oneWord : AllocRequest := ⟨8, .dynamic, 0, true⟩

def startedByRefill : List AllocEvent :=
  [.request 0 oneWord true, .acquire 0, .slice 0 GcInc.quick fun _ => [],
    .newPage 0 0 ⟨0, 0, .dynamic⟩ 65536 65536]

def startedBefore : List AllocEvent :=
  [.slice 0 GcInc.quick fun _ => [], .request 0 oneWord true, .acquire 0,
    .newPage 0 0 ⟨0, 0, .dynamic⟩ 65536 65536]

theorem returned_marked_startedBefore : ∃ m m', bare.runSteps startedBefore = some m ∧
    m.step (.take 0 0) = some (m', some (0, 0)) ∧ m'.heap.active = true ∧ m'.heap.Marked (0, 0) := by
  have heval : (bare.runSteps startedBefore).bind (fun m => (m.step (.take 0 0)).map fun r =>
      (r.2, r.1.heap.active)) = some (some (0, 0), true) := by decide
  obtain ⟨m, hrun, hstep⟩ := Option.bind_eq_some_iff.mp heval
  obtain ⟨⟨m', b⟩, hstep, heq⟩ := Option.map_eq_some_iff.mp hstep
  simp only [Prod.mk.injEq] at heq
  obtain ⟨rfl, hactive⟩ := heq
  have hdirect : ¬m.UnmarkedRefill (.take 0 0) := by
    rintro ⟨⟨req, hphase⟩, -⟩
    have hpath : (bare.runSteps startedBefore).map (fun m => match m.phase 0 with
      | .locked .direct _ => true
      | _ => false) = some true := by decide
    rw [hrun, Option.map_some, hphase] at hpath
    cases hpath
  exact ⟨m, m', hrun, hstep, hactive, (returned_marked_iff fresh_bare hrun hstep).mpr hdirect hactive⟩

/-- The first block of a run is returned in a cycle and is not marked. -/
theorem refill_returns_unmarked :
    ¬∀ (start m m' : Mutators) (events : List AllocEvent) (e : AllocEvent) (b : BlockRef),
      start.Fresh → start.runSteps events = some m → m.step e = some (m', some b) →
      m'.heap.active = true → m'.heap.Marked b := by
  intro h
  have heval : (bare.runSteps startedByRefill).bind (fun m => (m.step (.take 0 0)).map fun r =>
      (r.2, r.1.heap.active, r.1.heap.bit (0, 0))) = some (some (0, 0), true, false) := by decide
  obtain ⟨m, hrun, hstep⟩ := Option.bind_eq_some_iff.mp heval
  obtain ⟨⟨m', b⟩, hstep, heq⟩ := Option.map_eq_some_iff.mp hstep
  simp only [Prod.mk.injEq] at heq
  obtain ⟨rfl, hactive, hbit⟩ := heq
  have hmarked := h bare m m' startedByRefill _ _ fresh_bare hrun hstep hactive
  rw [GcInc.bit_of_marked hmarked] at hbit
  cases hbit

end Mutators

end HashLink.Gc
