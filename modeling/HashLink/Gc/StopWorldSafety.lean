import HashLink.Gc.StopWorld
import Mathlib.Data.List.Count
import Mathlib.Data.List.Induction

/-!
The world stands still for whoever stops it, in any order of the steps of the threads. A thread that the collector has
found in a section stays at a point from which it comes to its own code only with the lock, or once the world runs
again. The collector waits only for code of the program: a thread in the runtime comes to a section by its own steps.
-/

namespace HashLink.Gc

/-- What `t->gc_blocking` counts beside the sections. -/
def WorldPoint.counted : WorldPoint → Nat
  | .lockWait _ | .unlockCount => 1
  | _ => 0

/-- How often a thread has taken the lock beside the sections. -/
def WorldPoint.holding : WorldPoint → Nat
  | .lockHeld _ | .unlockCount | .unlockRelease => 1
  | _ => 0

/-- Whether a thread looks at the others, or has done so. -/
def WorldPoint.sees : WorldPoint → Bool
  | .spin _ _ | .stopped => true
  | _ => false

/-- How many steps a thread is from a section, at most. -/
def WorldPoint.distance : WorldPoint → Nat
  | .blockCount | .lockCount _ => 1
  | .blockSave | .lockSave _ => 2
  | .lockTry _ => 3
  | _ => 4

namespace WorldThread

variable {w : WorldThread}

/-- How often the thread has taken the lock. -/
def held (w : WorldThread) : Nat := w.holds.count .lock + w.point.holding

/-- Where the collector does not wait for the thread. -/
def Parked (w : WorldThread) : Prop :=
  w.saved = true ∧
    match w.point with
    | .own | .blockSave | .blockCount => 0 < w.gcBlocking
    | .safeSave => False
    | _ => True

/-- What the points of a thread know. -/
def Knows (w : WorldThread) : WorldPoint → Prop
  | .blockCount => w.saved = true ∨ 0 < w.gcBlocking
  | .safeSave => w.gcBlocking = 0
  | .lockCount _ | .lockWait _ => w.saved = true
  | _ => True

structure Ok (w : WorldThread) : Prop where
  counts : w.gcBlocking = w.holds.length + w.point.counted
  base : w.holds.getLast? = some .region → w.saved = true
  point : w.Knows w.point

theorem Ok.goto (h : w.Ok) {p : WorldPoint} (hcounted : p.counted = w.point.counted) (hknows : w.Knows p) :
    ({ w with point := p } : WorldThread).Ok := ⟨h.counts.trans (by rw [hcounted]), h.base, hknows⟩

theorem Ok.save (h : w.Ok) {p : WorldPoint} (hcounted : p.counted = w.point.counted)
    (hknows : ({ w with saved := true } : WorldThread).Knows p) :
    ({ w with saved := true, point := p } : WorldThread).Ok :=
  ⟨h.counts.trans (by rw [hcounted]), fun _ => rfl, hknows⟩

theorem Ok.resume (h : w.Ok) (hcounted : w.point.counted = 0) : w.resume.Ok := by
  refine ⟨h.counts.trans (by rw [hcounted]; rfl), fun hbase => ?_, trivial⟩
  have hpos : 0 < w.gcBlocking := by
    rw [h.counts, hcounted, Nat.add_zero, List.length_pos_iff]
    rintro hnil
    rw [WorldThread.resume, hnil] at hbase
    cases hbase
  simp only [WorldThread.resume, h.base hbase, Bool.true_and, bne_iff_ne]
  exact Nat.ne_of_gt hpos

section
variable (brief : Bool)

/-- The end of `gc_global_lock(true)`, which counts the lock. -/
theorem Ok.locked (hcounts : w.gcBlocking = w.holds.length + 1)
    (hbase : w.holds.getLast? = some .region → w.saved = true) : (w.locked brief).Ok := by
  cases brief with
  | true => exact ⟨hcounts, hbase, trivial⟩
  | false =>
    refine ⟨hcounts, fun hlast => hbase ?_, trivial⟩
    cases hholds : w.holds with
    | nil =>
      rw [WorldThread.locked, hholds] at hlast
      cases hlast
    | cons hold holds =>
      rw [WorldThread.locked, hholds] at hlast
      exact hlast

theorem held_locked : (w.locked brief).held = w.holds.count .lock + 1 := by
  cases brief with
  | true => rfl
  | false =>
    show (Hold.lock :: w.holds).count .lock + 0 = _
    rw [List.count_cons_self]

theorem count_locked : w.holds.count .lock ≤ (w.locked brief).holds.count .lock := by
  cases brief with
  | true => exact Nat.le_refl _
  | false => exact List.count_le_count_cons

theorem sees_locked : (w.locked brief).point.sees = false := by cases brief <;> rfl

theorem parked_locked (hsaved : w.saved = true) (hcounts : w.gcBlocking = w.holds.length + 1) :
    (w.locked brief).Parked := by
  cases brief with
  | true => exact ⟨hsaved, trivial⟩
  | false => exact ⟨hsaved, hcounts ▸ Nat.succ_pos _⟩

end

theorem held_goto {p : WorldPoint} (h : p.holding = w.point.holding) :
    ({ w with point := p } : WorldThread).held = w.held := by
  rw [held, held, h]

end WorldThread

namespace World

variable {s s₁ : World} {t u c : Nat} {w : WorldThread}

/-- A collector at a point has seen the thread in a section. -/
def Passed (s : World) (p : WorldPoint) (t : Nat) : Prop :=
  t ∈ s.threads ∧ (0 < s.exclusiveDepth ∨ p = .stopped ∨ ∃ exclusive i, p = .spin exclusive i ∧ t ∈ s.threads.take i)

/-- What the points of a collection know. An exclusive section that begins has a lock of its own. -/
def Collects (s : World) (t : Nat) (w : WorldThread) : Prop :=
  match w.point with
  | .stopSave exclusive | .stopSet exclusive =>
    s.owner = some t ∧ (exclusive = true → s.exclusiveDepth < w.holds.count .lock)
  | .spin exclusive _ =>
    s.owner = some t ∧ (exclusive = true → s.exclusiveDepth < w.holds.count .lock) ∧ s.stoppingWorld = true
  | .stopped => s.owner = some t ∧ s.stoppingWorld = true
  | _ => True

/-- What an exclusive section keeps of its thread. -/
def Excludes (s : World) (w : WorldThread) : Prop :=
  s.exclusiveDepth ≤ w.holds.count .lock ∧ (0 < s.exclusiveDepth → s.stoppingWorld = true)

structure Kept (s : World) : Prop where
  ok : ∀ t, (s.info t).Ok
  held : ∀ t, (s.info t).held = if s.owner = some t then s.depth else 0
  free : s.owner = none → s.depth = 0 ∧ s.exclusiveDepth = 0
  collects : ∀ t, s.Collects t (s.info t)
  excludes : ∀ t, s.owner = some t → s.Excludes (s.info t)
  parked : ∀ c t, s.owner = some c → t ≠ c → s.Passed (s.info c).point t → (s.info t).Parked

@[simp] theorem set_info_self (s : World) (t : Nat) (w : WorldThread) : (s.set t w).info t = w := by
  simp [set]

@[simp] theorem set_info_ne (hne : u ≠ t) : (s.set t w).info u = s.info u := by
  simp [set, hne]

theorem set_same (s : World) (t : Nat) : s.set t (s.info t) = s := by
  rw [World.set, Function.update_eq_self]

/-- What holds of the thread that is set, and of the others as they were. -/
theorem forall_set {P : Nat → WorldThread → Prop} (hself : P t w) (hother : ∀ u, u ≠ t → P u (s.info u)) :
    ∀ u, P u ((s.set t w).info u) := by
  intro u
  by_cases hu : u = t
  · rw [hu, set_info_self]
    exact hself
  · rw [set_info_ne hu]
    exact hother u hu

theorem free_iff : s.free t = true ↔ s.owner = none ∨ s.owner = some t := decide_eq_true_iff

theorem not_owner (howner : s.owner = some t) (hne : u ≠ t) : s.owner ≠ some u :=
  fun heq => hne (Option.some.inj (heq.symm.trans howner))

theorem passed_depth (hsees : w.point.sees = false) (h : s.Passed w.point u) : 0 < s.exclusiveDepth := by
  rcases h.2 with hdepth | hp | ⟨exclusive, i, hp, -⟩
  · exact hdepth
  · rw [hp] at hsees
    cases hsees
  · rw [hp] at hsees
    cases hsees

theorem passed_idle (hsees : w.point.sees = false) (h : s.Passed w.point u) (p : WorldPoint) : s.Passed p u :=
  ⟨h.1, Or.inl (passed_depth hsees h)⟩

/-- A thread without the lock is in no collection. -/
theorem Collects.other (h : s.Collects t w) (howner : s.owner ≠ some t) (s₁ : World) : s₁.Collects t w := by
  rw [Collects] at h ⊢
  cases hp : w.point with
  | stopSave _ | stopSet _ | spin _ _ | stopped => rw [hp] at h; exact absurd h.1 howner
  | _ => exact trivial

theorem Kept.stopping (h : s.Kept) (howner : s.owner = some c) (hpassed : s.Passed (s.info c).point t) :
    s.stoppingWorld = true := by
  have hcollects := h.collects c
  rw [Collects] at hcollects
  rcases hpassed.2 with hdepth | hp | ⟨exclusive, i, hp, -⟩
  · exact (h.excludes c howner).2 hdepth
  · rw [hp] at hcollects
    exact hcollects.2
  · rw [hp] at hcollects
    exact hcollects.2.2

theorem Kept.owner (h : s.Kept) (hheld : 0 < (s.info t).held) :
    s.owner = some t ∧ (s.info t).held = s.depth := by
  have hold := h.held t
  by_cases howner : s.owner = some t
  · exact ⟨howner, hold.trans (if_pos howner)⟩
  · rw [hold, if_neg howner] at hheld
    exact absurd hheld (Nat.lt_irrefl 0)

/-- A thread in a section, without the lock, has saved its context. -/
theorem Kept.saved (h : s.Kept) (hcount : 0 < (s.info t).gcBlocking) (howner : s.owner ≠ some t) :
    (s.info t).saved = true := by
  have hheld := h.held t
  rw [if_neg howner, WorldThread.held, Nat.add_eq_zero_iff, List.count_eq_zero] at hheld
  cases hholds : (s.info t).holds.getLast? with
  | none =>
    rw [(h.ok t).counts, List.getLast?_eq_none_iff.1 hholds, List.length_nil, Nat.zero_add] at hcount
    have hpoint := (h.ok t).point
    cases hp : (s.info t).point with
    | lockWait brief => rwa [hp] at hpoint
    | unlockCount => rw [hp] at hheld; cases hheld.2
    | _ => rw [hp] at hcount; cases hcount
  | some hold =>
    cases hold with
    | region => exact (h.ok t).base hholds
    | lock => exact absurd (List.mem_of_getLast? hholds) hheld.1

theorem Kept.parked_of_blocking (h : s.Kept) (hcount : (s.info t).gcBlocking ≠ 0) (howner : s.owner ≠ some t) :
    (s.info t).Parked := by
  refine ⟨h.saved (Nat.pos_of_ne_zero hcount) howner, ?_⟩
  have hknows := (h.ok t).point
  cases hp : (s.info t).point with
  | own | blockSave | blockCount => exact Nat.pos_of_ne_zero hcount
  | safeSave =>
    rw [hp] at hknows
    exact hcount hknows
  | _ => exact trivial

/-- A step of the thread that has the lock, or takes it. -/
theorem Kept.byOwner (h : s.Kept) (hnot : ∀ u, u ≠ t → s.owner ≠ some u) (hinfo : s₁.info = s.info)
    (howner : s₁.owner = some t) (hok : w.Ok) (hheld : w.held = s₁.depth) (hcollects : s₁.Collects t w)
    (hexcludes : s₁.Excludes w) (hparked : ∀ u, u ≠ t → s₁.Passed w.point u → (s.info u).Parked) :
    (s₁.set t w).Kept := by
  have hne : ∀ u, u ≠ t → s₁.owner ≠ some u := fun u hu => not_owner howner hu
  refine ⟨forall_set (P := fun _ w => w.Ok) hok fun u _ => ?_,
    forall_set (P := fun u w => w.held = if s₁.owner = some u then s₁.depth else 0) ?_ fun u hu => ?_, fun hnone => ?_,
    forall_set (P := (s₁.set t w).Collects) hcollects fun u hu => ?_, fun u hown => ?_,
    fun c u hown hct hpassed => ?_⟩
  · rw [hinfo]
    exact h.ok u
  · rw [hheld, if_pos howner]
  · rw [hinfo, h.held u, if_neg (hnot u hu), if_neg (hne u hu)]
  · cases hnone.symm.trans howner
  · rw [hinfo]
    exact (h.collects u).other (hnot u hu) _
  · cases hown.symm.trans howner
    rw [set_info_self]
    exact hexcludes
  · cases hown.symm.trans howner
    rw [set_info_self] at hpassed
    rw [set_info_ne hct, hinfo]
    exact hparked u hct hpassed

/-- A step of a thread without the lock. -/
theorem Kept.byOther (h : s.Kept) (howner : s.owner ≠ some t) (hok : w.Ok) (hheld : w.held = 0)
    (hcollects : s.Collects t w) (hparked : s.stoppingWorld = true → (s.info t).Parked → w.Parked) :
    (s.set t w).Kept := by
  refine ⟨forall_set (P := fun _ w => w.Ok) hok fun u _ => h.ok u,
    forall_set (P := fun u w => w.held = if s.owner = some u then s.depth else 0) ?_ fun u _ => h.held u, h.free,
    forall_set (P := s.Collects) hcollects fun u _ => h.collects u, fun u hown => ?_,
    fun c u hown hne hpassed => ?_⟩
  · rw [hheld, if_neg howner]
  · have hut : u ≠ t := by
      rintro rfl
      exact howner hown
    rw [set_info_ne hut]
    exact h.excludes u hown
  · have hct : c ≠ t := by
      rintro rfl
      exact howner hown
    rw [set_info_ne hct] at hpassed
    have hold := h.parked c u hown hne hpassed
    by_cases hu : u = t
    · subst hu
      rw [set_info_self]
      exact hparked (h.stopping hown hpassed) hold
    · rw [set_info_ne hu]
      exact hold

/-- A step in which a thread neither takes the lock nor gives it back, nor looks at the others. -/
theorem Kept.moves (h : s.Kept) (hok : w.Ok) (hheld : w.held = (s.info t).held) (hsees : w.point.sees = false)
    (hcollects : s.Collects t w) (hlocks : s.Excludes (s.info t) → s.Excludes w)
    (hparked : s.stoppingWorld = true → (s.info t).Parked → w.Parked) : (s.set t w).Kept := by
  by_cases howner : s.owner = some t
  · refine h.byOwner (fun u => not_owner howner) rfl howner hok ?_ hcollects (hlocks (h.excludes t howner)) ?_
    · rw [hheld, h.held t, if_pos howner]
    · exact fun u hu hpassed => h.parked t u howner hu (passed_idle hsees hpassed _)
  · refine h.byOther howner hok ?_ hcollects hparked
    rw [hheld, h.held t, if_neg howner]

theorem Kept.acquired (h : s.Kept) (hfree : s.free t = true) (hok : w.Ok) (hheld : w.held = (s.info t).held + 1)
    (hlocks : (s.info t).holds.count .lock ≤ w.holds.count .lock) (hsees : w.point.sees = false)
    (hcollects : (s.acquire t).Collects t w) : ((s.acquire t).set t w).Kept := by
  rcases free_iff.1 hfree with hnone | howner
  · have hno : ∀ u, s.owner ≠ some u := fun u heq => by cases hnone.symm.trans heq
    obtain ⟨hdepth, hexclusive⟩ := h.free hnone
    have hfirst : w.held = s.depth + 1 := by rw [hheld, h.held t, if_neg (hno t), hdepth]
    refine h.byOwner (fun u _ => hno u) rfl rfl hok hfirst hcollects ⟨?_, fun hpos => ?_⟩ fun u _ hpassed => ?_
    · show s.exclusiveDepth ≤ _
      rw [hexclusive]
      exact Nat.zero_le _
    · exact absurd hexclusive (Nat.ne_of_gt hpos)
    · exact absurd hexclusive (Nat.ne_of_gt (passed_depth hsees hpassed))
  · have hagain : w.held = s.depth + 1 := by rw [hheld, h.held t, if_pos howner]
    obtain ⟨hle, hstop⟩ := h.excludes t howner
    exact h.byOwner (fun u => not_owner howner) rfl rfl hok hagain hcollects ⟨Nat.le_trans hle hlocks, hstop⟩
      fun u hu hpassed => h.parked t u howner hu (passed_idle hsees hpassed _)

theorem Kept.released (h : s.Kept) (hp : (s.info t).point = .unlockRelease) :
    (s.release.set t (s.info t).resume).Kept := by
  have hok := (h.ok t).resume (by rw [hp]; rfl)
  have hheld : (s.info t).held = (s.info t).holds.count .lock + 1 := by rw [WorldThread.held, hp]; rfl
  obtain ⟨howner, hdepth⟩ := h.owner (by rw [hheld]; exact Nat.succ_pos _)
  rw [hheld] at hdepth
  have hexcludes := h.excludes t howner
  by_cases hlast : s.depth = 1
  · -- the lock is free again, and no section of a collection is left
    have hnone : s.release.owner = none := if_pos hlast
    have hzero : (s.info t).holds.count .lock = 0 := by omega
    refine ⟨forall_set (P := fun _ w => w.Ok) hok fun u _ => h.ok u,
      forall_set (P := fun u w => w.held = if s.release.owner = some u then s.release.depth else 0) ?_ fun u hu => ?_,
      fun _ => ⟨?_, ?_⟩, forall_set (P := s.release.Collects) trivial fun u hu => ?_, fun u hown => ?_,
      fun c u hown => ?_⟩
    · rw [hnone, if_neg fun heq => by cases heq]
      exact hzero
    · rw [hnone, if_neg fun heq => by cases heq]
      exact (h.held u).trans (if_neg (not_owner howner hu))
    · show s.depth - 1 = 0
      omega
    · exact Nat.le_zero.1 (hzero ▸ hexcludes.1)
    · exact (h.collects u).other (not_owner howner hu) _
    · cases hown.symm.trans hnone
    · cases hown.symm.trans hnone
  · refine h.byOwner (fun u => not_owner howner) rfl ((if_neg hlast).trans howner) hok ?_ trivial hexcludes
      fun u hu hpassed => h.parked t u howner hu (passed_idle rfl hpassed _)
    exact Nat.eq_sub_of_add_eq hdepth

theorem Kept.own_call (h : s.Kept) (hown : (s.info t).point = .own) (call : WorldCall) : (s.call t call).Kept := by
  have hok := h.ok t
  have hcounts := hok.counts
  have hcounted : (s.info t).point.counted = 0 := by rw [hown]; rfl
  have hholding : (s.info t).point.holding = 0 := by rw [hown]; rfl
  have hheld : (s.info t).held = (s.info t).holds.count .lock := by rw [WorldThread.held, hholding]; rfl
  rw [hcounted] at hcounts
  have hparked : (s.info t).Parked → 0 < (s.info t).gcBlocking := by
    intro hp
    have hpos := hp.2
    rw [hown] at hpos
    exact hpos
  cases call with
  | blocking =>
    rw [World.call]
    split
    · exact h.moves (hok.goto hcounted.symm trivial) (WorldThread.held_goto hholding.symm) rfl trivial id
        fun _ hp => ⟨hp.1, hparked hp⟩
    · rename_i hpos
      exact h.moves (hok.goto hcounted.symm (Or.inr (Nat.pos_of_ne_zero hpos)))
        (WorldThread.held_goto hholding.symm) rfl trivial id fun _ hp => ⟨hp.1, hparked hp⟩
  | unblocking =>
    rw [World.call]
    split
    · rename_i holds hholds
      have hcount : (s.info t).holds.count .lock = holds.count .lock := by rw [hholds]; rfl
      rw [hholds, List.length_cons] at hcounts
      refine h.moves ⟨?_, fun hbase => hok.base ?_, trivial⟩ (hheld.trans hcount).symm rfl trivial (fun hx => ?_)
        fun _ hp => ⟨hp.1, trivial⟩
      · show (s.info t).gcBlocking - 1 = holds.length + 0
        omega
      · rw [hholds, List.getLast?_cons, hbase]
        rfl
      · rw [Excludes, hcount] at hx
        exact hx
    · exact h
  | safepoint =>
    rw [World.call]
    split
    · rename_i hcond
      exact h.moves (hok.goto hcounted.symm hcond.1) (WorldThread.held_goto hholding.symm) rfl trivial id
        fun _ hp => absurd hcond.1 (Nat.ne_of_gt (hparked hp))
    · exact h
  | lock =>
    exact h.moves (hok.goto hcounted.symm trivial) (WorldThread.held_goto hholding.symm) rfl trivial id
      fun _ hp => ⟨hp.1, trivial⟩
  | tryLock =>
    rw [World.call]
    split
    · rename_i hfree
      exact h.acquired hfree (hok.goto hcounted.symm trivial) (congrArg (· + 1) hheld.symm) (Nat.le_refl _) rfl
        trivial
    · exact h
  | unlock =>
    rw [World.call]
    split
    · rename_i holds hholds
      split
      · rename_i hdepth
        have hcount : (s.info t).holds.count .lock = holds.count .lock + 1 := by rw [hholds, List.count_cons_self]
        rw [hholds, List.length_cons] at hcounts
        obtain ⟨-, hlocks⟩ := h.owner (t := t) (by rw [hheld, hcount]; exact Nat.succ_pos _)
        refine h.moves ⟨?_, fun hbase => hok.base ?_, trivial⟩ (hheld.trans hcount).symm rfl trivial
          (fun hx => ⟨?_, hx.2⟩) fun _ hp => ⟨hp.1, trivial⟩
        · show (s.info t).gcBlocking - 1 = holds.length + 0
          omega
        · rw [hholds, List.getLast?_cons, hbase]
          rfl
        · show s.exclusiveDepth ≤ holds.count .lock
          omega
      · exact h
    · exact h
  | collect =>
    rw [World.call]
    split
    · rename_i howner
      exact h.moves (hok.goto hcounted.symm trivial) (WorldThread.held_goto hholding.symm) rfl
        ⟨howner, fun hx => by cases hx⟩ id fun _ hp => ⟨hp.1, trivial⟩
    · exact h
  | exclusiveBegin =>
    rw [World.call]
    split
    · rename_i hcond
      have hlocks := h.held t
      rw [if_pos hcond.1, hheld] at hlocks
      exact h.moves (hok.goto hcounted.symm trivial) (WorldThread.held_goto hholding.symm) rfl
        ⟨hcond.1, fun _ => Nat.lt_of_lt_of_eq hcond.2 hlocks.symm⟩ id fun _ hp => ⟨hp.1, trivial⟩
    · exact h
  | exclusiveEnd =>
    rw [World.call]
    split
    · rename_i hcond
      obtain ⟨hle, hstop⟩ := h.excludes t hcond.1
      have hlocks := h.held t
      rw [if_pos hcond.1] at hlocks
      have hstay : ({ s.info t with point := .stopped } : WorldThread).held = s.depth :=
        (WorldThread.held_goto (p := .stopped) hholding.symm).trans hlocks
      exact h.byOwner (fun u => not_owner hcond.1) rfl hcond.1 (hok.goto hcounted.symm trivial) hstay
        ⟨hcond.1, hstop hcond.2⟩
        ⟨Nat.le_trans (Nat.sub_le _ _) hle, fun _ => hstop hcond.2⟩
        fun u hu hpassed => h.parked t u hcond.1 hu ⟨hpassed.1, Or.inl hcond.2⟩
    · exact h
  | register =>
    rw [World.call]
    split
    · rename_i hcond
      have hlocks := h.held t
      rw [if_pos hcond.1] at hlocks
      rw [← set_same { s with threads := s.threads ++ [t] } t]
      refine h.byOwner (fun u => not_owner hcond.1) rfl hcond.1 hok hlocks ?_ (h.excludes t hcond.1) ?_
      · rw [Collects, hown]
        exact trivial
      · intro u hu hpassed
        have hmem := (List.mem_append.1 hpassed.1).resolve_right fun hlast => hu (List.mem_singleton.1 hlast)
        have hpos := passed_depth (by rw [hown]; rfl) hpassed
        exact h.parked t u hcond.1 hu ⟨hmem, Or.inl hpos⟩
    · exact h
  | unregister =>
    rw [World.call]
    split
    · rename_i hcond
      rw [hcond.1] at hheld
      obtain ⟨howner, hdepth⟩ := h.owner (t := t) (by rw [hheld]; exact Nat.one_pos)
      refine h.byOwner (fun u => not_owner howner) rfl howner ⟨rfl, (by cases ·), trivial⟩
        (hheld.symm.trans hdepth) trivial ⟨Nat.le_of_eq hcond.2, fun hpos => absurd hcond.2 (Nat.ne_of_gt hpos)⟩ ?_
      intro u _ hpassed
      have hpos := passed_depth rfl hpassed
      exact absurd hcond.2 (Nat.ne_of_gt hpos)
    · exact h

/-- The loop of `gc_stop_world` over the threads. -/
theorem Kept.spins (h : s.Kept) {exclusive : Bool} {i : Nat} (hp : (s.info t).point = .spin exclusive i) :
    (s.go t).Kept := by
  have hok := h.ok t
  have hcollects := h.collects t
  rw [Collects, hp] at hcollects
  obtain ⟨howner, hroom, hstop⟩ := hcollects
  have hlocks := h.held t
  rw [if_pos howner] at hlocks
  have hcounted : (s.info t).point.counted = 0 := by rw [hp]; rfl
  have hstay : ∀ p : WorldPoint, p.holding = 0 → ({ s.info t with point := p } : WorldThread).held = s.depth :=
    fun p hnone => (WorldThread.held_goto (by rw [hp]; exact hnone)).trans hlocks
  have hseen : ∀ u, u ≠ t → u ∈ s.threads.take i → (s.info u).Parked := fun u hu hmem =>
    h.parked t u howner hu ⟨List.mem_of_mem_take hmem, Or.inr (Or.inr ⟨exclusive, i, hp, hmem⟩)⟩
  rw [World.go, hp]
  dsimp only
  split
  · rename_i v hv
    split
    · exact h
    · -- the loop goes on to the next thread, since `v` is in a section
      rename_i hcount
      refine h.byOwner (fun u => not_owner howner) rfl howner (hok.goto hcounted.symm trivial)
        (hstay _ rfl) ⟨howner, hroom, hstop⟩ (h.excludes t howner) ?_
      rintro u hu ⟨hmem, hpos | hpoint | ⟨exclusive', i', hpoint, htake⟩⟩
      · exact h.parked t u howner hu ⟨hmem, Or.inl hpos⟩
      · cases hpoint
      · cases hpoint
        rw [List.take_add_one, hv] at htake
        rcases List.mem_append.1 htake with hbefore | hlast
        · exact hseen u hu hbefore
        · obtain rfl : u = v := List.mem_singleton.1 hlast
          exact h.parked_of_blocking hcount (not_owner howner hu)
  · -- every thread has been seen in a section
    rename_i hnone
    have hall : s.threads.take i = s.threads := List.take_of_length_le (List.getElem?_eq_none_iff.1 hnone)
    cases exclusive with
    | true =>
      exact h.byOwner (fun u => not_owner howner) rfl howner (hok.goto hcounted.symm trivial)
        (hstay _ rfl) trivial ⟨hroom rfl, fun _ => hstop⟩
        fun u hu hpassed => hseen u hu (by rw [hall]; exact hpassed.1)
    | false =>
      exact h.byOwner (fun u => not_owner howner) rfl howner (hok.goto hcounted.symm trivial)
        (hstay _ rfl) ⟨howner, hstop⟩ (h.excludes t howner)
        fun u hu hpassed => hseen u hu (by rw [hall]; exact hpassed.1)

theorem Kept.go (h : s.Kept) : (s.go t).Kept := by
  have hok := h.ok t
  have hcounts := hok.counts
  have hknows := hok.point
  have hcollects := h.collects t
  have hlocks := h.held t
  have hheld : (s.info t).held = (s.info t).holds.count .lock + (s.info t).point.holding := rfl
  rw [Collects] at hcollects
  cases hp : (s.info t).point with
  | own =>
    rw [World.go, hp]
    exact h
  | blockSave =>
    rw [hp] at hheld
    rw [World.go, hp]
    refine h.moves (hok.save (by rw [hp]; rfl) (Or.inl rfl)) hheld.symm rfl trivial id fun _ hpark => ⟨rfl, ?_⟩
    have hpos := hpark.2
    rw [hp] at hpos
    exact hpos
  | blockCount =>
    rw [hp] at hheld hcounts hknows
    rw [World.go, hp]
    refine h.moves ⟨congrArg (· + 1) hcounts, fun hbase => ?_, trivial⟩ hheld.symm rfl trivial id
      fun _ hpark => ⟨hpark.1, Nat.succ_pos _⟩
    cases hholds : (s.info t).holds with
    | nil =>
      refine hknows.resolve_right ?_
      rw [hcounts, hholds]
      exact Nat.lt_irrefl 0
    | cons hold holds =>
      refine hok.base ?_
      rw [hholds] at hbase ⊢
      exact hbase
  | unblockTest =>
    rw [hp] at hheld
    rw [World.go, hp]
    dsimp only
    split
    · exact h.moves (hok.goto (by rw [hp]; rfl) trivial) hheld.symm rfl trivial id fun _ hpark => ⟨hpark.1, trivial⟩
    · rename_i hcond
      refine h.moves (hok.resume (by rw [hp]; rfl)) hheld.symm rfl trivial id fun hstop hpark => ?_
      have hpos : (s.info t).gcBlocking ≠ 0 := fun hzero => hcond ⟨hzero, hstop⟩
      refine ⟨?_, Nat.pos_of_ne_zero hpos⟩
      rw [WorldThread.resume, hpark.1, Bool.true_and]
      exact bne_iff_ne.2 hpos
  | safeSave =>
    rw [hp] at hheld
    rw [World.go, hp]
    refine h.moves (hok.save (by rw [hp]; rfl) trivial) hheld.symm rfl trivial id fun _ hpark => ?_
    have hfalse := hpark.2
    rw [hp] at hfalse
    exact hfalse.elim
  | lockTry brief =>
    rw [hp] at hheld
    rw [World.go, hp]
    dsimp only
    split
    · rename_i hfree
      exact h.acquired hfree (hok.goto (by rw [hp]; rfl) trivial) (congrArg (· + 1) hheld.symm) (Nat.le_refl _) rfl
        trivial
    · exact h.moves (hok.goto (by rw [hp]; rfl) trivial) hheld.symm rfl trivial id fun _ hpark => ⟨hpark.1, trivial⟩
  | lockSave brief =>
    rw [hp] at hheld
    rw [World.go, hp]
    exact h.moves (hok.save (by rw [hp]; rfl) rfl) hheld.symm rfl trivial id fun _ _ => ⟨rfl, trivial⟩
  | lockCount brief =>
    rw [hp] at hheld hcounts hknows
    rw [World.go, hp]
    exact h.moves ⟨congrArg (· + 1) hcounts, hok.base, hknows⟩ hheld.symm rfl trivial id
      fun _ hpark => ⟨hpark.1, trivial⟩
  | lockWait brief =>
    rw [hp] at hheld hcounts
    rw [World.go, hp]
    dsimp only
    split
    · rename_i hfree
      refine h.acquired hfree (WorldThread.Ok.locked brief hcounts hok.base) ?_ (WorldThread.count_locked brief)
        (WorldThread.sees_locked brief) (by cases brief <;> exact trivial)
      rw [WorldThread.held_locked, hheld]
      rfl
    · exact h
  | lockHeld brief =>
    rw [hp] at hheld hcounts
    rw [World.go, hp]
    have hcounts' : (s.info t).gcBlocking + 1 = (s.info t).holds.length + 1 := congrArg (· + 1) hcounts
    refine h.moves (WorldThread.Ok.locked brief hcounts' hok.base) ?_ (WorldThread.sees_locked brief)
      (by cases brief <;> exact trivial) (fun hx => ⟨Nat.le_trans hx.1 (WorldThread.count_locked
        (w := { s.info t with gcBlocking := (s.info t).gcBlocking + 1 }) brief), hx.2⟩)
      fun _ hpark => WorldThread.parked_locked brief hpark.1 hcounts'
    rw [WorldThread.held_locked, hheld]
    rfl
  | unlockCount =>
    rw [hp] at hheld hcounts
    rw [World.go, hp]
    refine h.moves ⟨?_, hok.base, trivial⟩ hheld.symm rfl trivial id fun _ hpark => ⟨hpark.1, trivial⟩
    show (s.info t).gcBlocking - 1 = (s.info t).holds.length
    rw [hcounts]
    rfl
  | unlockRelease =>
    rw [World.go, hp]
    exact h.released hp
  | stopSave exclusive =>
    rw [hp] at hheld hcollects
    rw [World.go, hp]
    exact h.moves (hok.save (by rw [hp]; rfl) trivial) hheld.symm rfl hcollects id fun _ _ => ⟨rfl, trivial⟩
  | stopSet exclusive =>
    rw [hp] at hheld hcollects
    obtain ⟨howner, hroom⟩ := hcollects
    rw [if_pos howner, hheld] at hlocks
    rw [World.go, hp]
    refine h.byOwner (fun u => not_owner howner) rfl howner (hok.goto (by rw [hp]; rfl) trivial) hlocks
      ⟨howner, hroom, rfl⟩ ⟨(h.excludes t howner).1, fun _ => rfl⟩ ?_
    rintro u hu ⟨hmem, hpos | hpoint | ⟨exclusive', i, hpoint, htake⟩⟩
    · exact h.parked t u howner hu ⟨hmem, Or.inl hpos⟩
    · cases hpoint
    · cases hpoint
      cases htake
  | spin exclusive i => exact h.spins hp
  | stopped =>
    rw [hp] at hheld hcollects
    rw [if_pos hcollects.1, hheld] at hlocks
    obtain ⟨hle, hstop⟩ := h.excludes t hcollects.1
    rw [World.go, hp]
    refine h.byOwner (fun u => not_owner hcollects.1) rfl hcollects.1 (hok.resume (by rw [hp]; rfl)) hlocks trivial
      ⟨hle, fun hpos => ?_⟩ fun u hu hpassed => h.parked t u hcollects.1 hu (passed_idle rfl hpassed _)
    show (s.stoppingWorld && s.exclusiveDepth != 0) = true
    rw [hstop hpos, Bool.true_and]
    exact bne_iff_ne.2 (Nat.ne_of_gt hpos)

theorem Kept.step (h : s.Kept) (e : WorldEvent) : (s.step e).Kept := by
  cases e with
  | call t call =>
    rw [World.step]
    split
    · rename_i hown
      exact h.own_call hown call
    · exact h
  | go t => exact h.go

theorem kept_start : start.Kept := by
  refine ⟨fun _ => ⟨rfl, fun hbase => ?_, trivial⟩, fun _ => rfl, fun _ => ⟨rfl, rfl⟩, fun _ => trivial,
    fun t hc => ?_, fun c t hc => ?_⟩
  · cases hbase
  · cases hc
  · cases hc

theorem kept_run (events : List WorldEvent) : (run events).Kept := by
  induction events using List.reverseRecOn with
  | nil => exact kept_start
  | append_singleton events e ih =>
    rw [run, List.foldl_append]
    exact ih.step e

/-- In every run the other threads stand still while one has stopped them: each has saved its context, has run nothing
since, and goes on with no code of the program that is not in a section before the world runs again. -/
theorem world_stopped (events : List WorldEvent) {c t : Nat} (hstopped : (run events).Stopped c)
    (hmem : t ∈ (run events).threads) (hne : t ≠ c) :
    ((run events).info t).saved = true ∧ ¬(run events).Runs t := by
  have h := kept_run events
  have hpark : ((run events).info t).Parked :=
    h.parked c t hstopped.1 hne ⟨hmem, hstopped.2.elim (fun hp => Or.inr (Or.inl hp)) Or.inl⟩
  refine ⟨hpark.1, fun hruns => ?_⟩
  have hpos := hpark.2
  rw [hruns.1] at hpos
  rcases hruns.2 with hzero | howner
  · exact absurd hzero (Nat.ne_of_gt hpos)
  · exact not_owner hstopped.1 hne howner

/-- Two threads have registered, and thread 0 collects while thread 1 is in `hl_blocking`. -/
def demoStop : List WorldEvent :=
  ([1, 0].flatMap fun t => [.call t .lock, .go t, .go t, .call t .register, .call t .unlock, .go t]) ++
    [.call 1 .blocking, .call 0 .lock, .go 0, .go 0, .call 0 .collect, .go 0, .go 0]

theorem world_stopped_demo :
    ((run (demoStop ++ [.go 1, .go 1, .go 0, .go 0, .go 0])).info 1).saved = true ∧
      ¬(run (demoStop ++ [.go 1, .go 1, .go 0, .go 0, .go 0])).Runs 1 :=
  world_stopped (demoStop ++ [.go 1, .go 1, .go 0, .go 0, .go 0]) (c := 0) (t := 1) ⟨rfl, Or.inl rfl⟩ (by decide)
    (by decide)

/-! The loop of `gc_stop_world` ends for a thread in the runtime: while the collector waits for it, the thread gets to a
section with its own next steps, in any order of the steps of the others. -/

/-- The collector `c` waits for `u`, which is in a call of the runtime. -/
structure Awaits (s : World) (c u : Nat) : Prop where
  owner : s.owner = some c
  ne : u ≠ c
  stopping : s.stoppingWorld = true
  count : (s.info u).gcBlocking = 0
  called : (s.info u).point ≠ .own
  spins : ∃ exclusive i, (s.info c).point = .spin exclusive i ∧ s.threads[i]? = some u

theorem Awaits.set_other (h : s.Awaits c u) (htc : t ≠ c) (htu : t ≠ u) (w : WorldThread) :
    (s.set t w).Awaits c u := by
  refine ⟨h.owner, h.ne, h.stopping, ?_, ?_, ?_⟩
  · rw [set_info_ne htu.symm]
    exact h.count
  · rw [set_info_ne htu.symm]
    exact h.called
  · rw [set_info_ne htc.symm]
    exact h.spins

theorem Awaits.set_self (h : s.Awaits c u) (hcount : w.gcBlocking = 0) (hcalled : w.point ≠ .own) :
    (s.set u w).Awaits c u := by
  refine ⟨h.owner, h.ne, h.stopping, ?_, ?_, ?_⟩
  · rw [set_info_self]
    exact hcount
  · rw [set_info_self]
    exact hcalled
  · rw [set_info_ne h.ne.symm]
    exact h.spins

theorem not_free (howner : s.owner = some c) (hne : t ≠ c) : ¬s.free t = true := by
  rw [free_iff, howner]
  rintro (h | h)
  · cases h
  · exact hne (Option.some.inj h).symm

/-- While another thread has the lock, what a thread calls changes nothing but its own words. -/
theorem Kept.call_other (h : s.Kept) (howner : s.owner = some c) (hne : t ≠ c) (call : WorldCall) :
    ∃ w, s.call t call = s.set t w := by
  have hnot : s.owner ≠ some t := not_owner howner hne
  have hcount : .lock ∉ (s.info t).holds := by
    have hheld := h.held t
    rw [if_neg hnot, WorldThread.held, Nat.add_eq_zero_iff, List.count_eq_zero] at hheld
    exact hheld.1
  have hsame : ∃ w, s = s.set t w := ⟨_, (set_same s t).symm⟩
  cases call with
  | blocking =>
    rw [World.call]
    split
    · exact ⟨_, rfl⟩
    · exact ⟨_, rfl⟩
  | unblocking =>
    rw [World.call]
    split
    · exact ⟨_, rfl⟩
    · exact hsame
  | safepoint =>
    rw [World.call]
    split
    · exact ⟨_, rfl⟩
    · exact hsame
  | lock => exact ⟨_, rfl⟩
  | tryLock =>
    rw [World.call, if_neg (not_free howner hne)]
    exact hsame
  | unlock =>
    rw [World.call]
    split
    · rename_i hholds
      rw [hholds] at hcount
      exact absurd List.mem_cons_self hcount
    · exact hsame
  | collect =>
    rw [World.call, if_neg hnot]
    exact hsame
  | exclusiveBegin | exclusiveEnd | register =>
    rw [World.call]
    split
    · rename_i hcond
      exact absurd hcond.1 hnot
    · exact hsame
  | unregister =>
    rw [World.call]
    split
    · rename_i hcond
      rw [hcond.1] at hcount
      exact absurd List.mem_cons_self hcount
    · exact hsame

/-- The same of the steps in a call. -/
theorem Kept.go_other (h : s.Kept) (howner : s.owner = some c) (hne : t ≠ c) : ∃ w, s.go t = s.set t w := by
  have hnot : s.owner ≠ some t := not_owner howner hne
  have hcollects := h.collects t
  have hsame : ∃ w, s = s.set t w := ⟨_, (set_same s t).symm⟩
  rw [Collects] at hcollects
  rw [World.go]
  cases hp : (s.info t).point with
  | own => exact hsame
  | unblockTest =>
    dsimp only
    split
    · exact ⟨_, rfl⟩
    · exact ⟨_, rfl⟩
  | lockTry _ =>
    dsimp only
    rw [if_neg (not_free howner hne)]
    exact ⟨_, rfl⟩
  | lockWait _ =>
    dsimp only
    rw [if_neg (not_free howner hne)]
    exact hsame
  | unlockRelease =>
    obtain ⟨hown, -⟩ := h.owner (t := t) (by rw [WorldThread.held, hp]; exact Nat.succ_pos _)
    exact absurd hown hnot
  | stopSet _ | spin _ _ | stopped =>
    rw [hp] at hcollects
    exact absurd hcollects.1 hnot
  | _ => exact ⟨_, rfl⟩

theorem Awaits.step_other (h : s.Kept) (hw : s.Awaits c u) {e : WorldEvent} (hne : e ≠ .go u) :
    (s.step e).Awaits c u ∧ (s.step e).info u = s.info u := by
  have hset : ∀ t, t ≠ c → t ≠ u → ∀ w, (s.set t w).Awaits c u ∧ (s.set t w).info u = s.info u :=
    fun t htc htu w => ⟨hw.set_other htc htu w, set_info_ne htu.symm⟩
  obtain ⟨exclusive, i, hspin, hat⟩ := hw.spins
  cases e with
  | call t call =>
    rw [World.step]
    split
    · rename_i hown
      have htc : t ≠ c := by
        rintro rfl
        cases hspin.symm.trans hown
      have htu : t ≠ u := by
        rintro rfl
        exact hw.called hown
      obtain ⟨w, hcall⟩ := h.call_other hw.owner htc call
      rw [hcall]
      exact hset t htc htu w
    · exact ⟨hw, rfl⟩
  | go t =>
    have htu : t ≠ u := fun heq => hne (heq ▸ rfl)
    by_cases htc : t = c
    · subst htc
      have hsame : s.go t = s := by
        rw [World.go, hspin]
        dsimp only
        rw [hat]
        exact if_pos hw.count
      rw [World.step, hsame]
      exact ⟨hw, rfl⟩
    · obtain ⟨w, hgo⟩ := h.go_other hw.owner htc
      rw [World.step, hgo]
      exact hset t htc htu w

theorem Awaits.step_self (h : s.Kept) (hw : s.Awaits c u) : 0 < ((s.go u).info u).gcBlocking ∨
    (s.go u).Awaits c u ∧ ((s.go u).info u).point.distance < (s.info u).point.distance := by
  have hnot : s.owner ≠ some u := not_owner hw.owner hw.ne
  have hcounts := (h.ok u).counts
  have hcollects := h.collects u
  have hcloser : ∀ (p : WorldPoint) (b : Bool), p ≠ .own → p.distance < (s.info u).point.distance →
      0 < ((s.set u { s.info u with saved := b, point := p }).info u).gcBlocking ∨
        (s.set u { s.info u with saved := b, point := p }).Awaits c u ∧
          ((s.set u { s.info u with saved := b, point := p }).info u).point.distance < (s.info u).point.distance := by
    intro p b hcalled hlt
    rw [set_info_self]
    exact Or.inr ⟨hw.set_self hw.count hcalled, hlt⟩
  rw [hw.count] at hcounts
  rw [Collects] at hcollects
  rw [World.go]
  cases hp : (s.info u).point with
  | own => exact absurd hp hw.called
  | blockSave =>
    rw [hp] at hcloser
    exact hcloser .blockCount true (fun heq => by cases heq) (Nat.lt_succ_self 1)
  | lockSave brief =>
    rw [hp] at hcloser
    exact hcloser (.lockCount brief) true (fun heq => by cases heq) (Nat.lt_succ_self 1)
  | blockCount | lockCount _ =>
    left
    dsimp only
    rw [set_info_self]
    exact Nat.succ_pos _
  | unblockTest =>
    rw [hp] at hcloser
    dsimp only
    rw [if_pos ⟨hw.count, hw.stopping⟩]
    exact hcloser (.lockTry true) _ (fun heq => by cases heq) (Nat.lt_succ_self 3)
  | safeSave =>
    rw [hp] at hcloser
    exact hcloser (.lockTry true) true (fun heq => by cases heq) (Nat.lt_succ_self 3)
  | lockTry brief =>
    rw [hp] at hcloser
    dsimp only
    rw [if_neg (not_free hw.owner hw.ne)]
    exact hcloser (.lockSave brief) _ (fun heq => by cases heq) (Nat.lt_succ_self 2)
  | lockWait _ | unlockCount =>
    rw [hp] at hcounts
    cases hcounts
  | lockHeld _ | unlockRelease =>
    obtain ⟨hown, -⟩ := h.owner (t := u) (by rw [WorldThread.held, hp]; exact Nat.succ_pos _)
    exact absurd hown hnot
  | stopSave _ | stopSet _ | spin _ _ | stopped =>
    rw [hp] at hcollects
    exact absurd hcollects.1 hnot

/-- The collector waits for four steps at most of a thread that is in the runtime. -/
theorem spin_ends (events later : List WorldEvent) {c u : Nat} (hw : (run events).Awaits c u)
    (hcount : 4 ≤ later.count (.go u)) :
    ∃ before, before <+: later ∧ 0 < ((run (events ++ before)).info u).gcBlocking := by
  have hrange : ∀ p : WorldPoint, 0 < p.distance ∧ p.distance ≤ 4 := by
    intro p
    rw [WorldPoint.distance.eq_def]
    split <;> decide
  have hfar := (hrange ((run events).info u).point).2
  have hsteps := Nat.le_trans hfar hcount
  clear hfar hcount
  induction later generalizing events with
  | nil =>
    exact absurd hsteps (Nat.not_le.2 (hrange _).1)
  | cons e later ih =>
    have hrun : run (events ++ [e]) = (run events).step e := by rw [run, List.foldl_append]; rfl
    have hnext : (run (events ++ [e])).Awaits c u → ((run (events ++ [e])).info u).point.distance ≤ later.count (.go u) →
        ∃ before, before <+: e :: later ∧ 0 < ((run (events ++ before)).info u).gcBlocking := by
      intro hw' hsteps'
      obtain ⟨before, hbefore, hpos⟩ := ih (events ++ [e]) hw' hsteps'
      refine ⟨e :: before, List.cons_prefix_cons.2 ⟨rfl, hbefore⟩, ?_⟩
      rw [List.append_cons]
      exact hpos
    have h := kept_run events
    rw [hrun] at hnext
    by_cases he : e = .go u
    · subst he
      rw [List.count_cons_self] at hsteps
      rcases Awaits.step_self h hw with hpos | ⟨hw', hle⟩
      · refine ⟨[.go u], List.cons_prefix_cons.2 ⟨rfl, List.nil_prefix⟩, ?_⟩
        rw [hrun]
        exact hpos
      · exact hnext hw' (Nat.le_of_lt_succ (Nat.lt_of_lt_of_le hle hsteps))
    · rw [List.count_cons_of_ne he] at hsteps
      obtain ⟨hw', hsame⟩ := Awaits.step_other h hw he
      exact hnext hw' (by rw [hsame]; exact hsteps)

theorem spin_ends_demo : ∃ before, before <+: [.go 1, .go 1, .go 0, .go 1, .go 1] ∧
    0 < ((run (demoStop ++ before)).info 1).gcBlocking :=
  spin_ends demoStop [.go 1, .go 1, .go 0, .go 1, .go 1] (c := 0) (u := 1)
    ⟨rfl, by decide, rfl, rfl, by decide, false, 0, rfl, rfl⟩ (by decide)

end World

end HashLink.Gc
