import HashLink.Gc.PageInvariant
import Mathlib.Tactic.IntervalCases

/-! Runs of the allocator. Every page keeps its invariant whatever the program allocates and the
collector marks, so live blocks never overlap and no allocation returns a live one. -/

namespace HashLink.Gc

open Outcome

variable {p : GcPage}

namespace Allocator

theorem growPage_spec (block numPages size : Nat) :
    size ≤ growPage block numPages size ∧
      (size / block ≤ gcPageSize → growPage block numPages size / block ≤ gcPageSize) := by
  fun_induction growPage block numPages size with
  | case1 numPages size hgrow ih => exact ⟨by omega, fun _ => ih.2 hgrow.2⟩
  | case2 numPages size hstop => exact ⟨Nat.le_refl _, id⟩

theorem pageSize_spec (s : Allocator) (pid : Pid) (block size : Nat) :
    size ≤ s.pageSize pid block size ∧
      (size / block ≤ gcPageSize → s.pageSize pid block size / block ≤ gcPageSize) ∧
      (256 ≤ block → s.pageSize pid block size = size) := by
  unfold pageSize
  split
  · rename_i hsmall
    have hspec := growPage_spec block (s.pagesFrom (s.gcPages pid)).length size
    exact ⟨hspec.1, hspec.2, fun hge => by omega⟩
  · exact ⟨Nat.le_refl _, id, fun _ => rfl⟩

theorem startPos_fixed (block maxBlocks : Nat) : startPos block maxBlocks false = 0 := by
  simp [startPos]

variable {s : Allocator} {pid : Pid} {part id : Nat} {memory : Nat → Bool}
variable {size : Nat} {q : GcPage} {varsize : Bool}

theorem small_freshPage {block maxBlocks : Nat} (incremental : Bool) (next : Option Nat)
    (hpart : pid.part < gcLargePart) (hvar : varsize = decide (gcFixedParts ≤ pid.part))
    (hfirst : startPos block maxBlocks varsize / block < maxBlocks) :
    (freshPage pid block maxBlocks varsize incremental next).Small := by
  have hruns : (freshPage pid block maxBlocks varsize incremental next).runs =
      [⟨startPos block maxBlocks varsize / block, maxBlocks - startPos block maxBlocks varsize / block⟩] := rfl
  constructor
  case part => exact hpart
  case range => exact Nat.le_of_lt hfirst
  case sorted => rw [hruns]; exact List.pairwise_singleton _ _
  case runsIn =>
    intro r hr
    rw [hruns, List.mem_singleton] at hr
    subst hr
    simp only [freshPage, Run.stop]
    omega
  case blocksIn => simp [freshPage]
  case disjoint => exact List.Pairwise.nil
  case apart => simp [freshPage]
  case sized =>
    intro l hl
    simp only [freshPage] at hl
    split at hl
    · cases hl
      refine ⟨List.length_replicate, by simp [freshPage], fun x hx hx' _ => ?_⟩
      have hlt : x < maxBlocks := hx'
      rw [List.getElem?_replicate, if_pos hlt]
    · cases hl
  case single =>
    refine fun _ => ⟨by simp [freshPage], fun r hr => ?_⟩
    rw [hruns, List.mem_singleton] at hr
    subst hr
    simp only
    omega
  case varsize =>
    have hpid : (freshPage pid block maxBlocks varsize incremental next).pid.part = pid.part := rfl
    rw [hpid, ← hvar]
    cases varsize <;> rfl
  case bits =>
    intro l hl
    simp only [freshPage] at hl
    split at hl
    · cases hl
      exact List.length_replicate
    · cases hl
  case flush => exact fun hflush => by cases hflush

theorem varPageSize_spec (size fuel psize : Nat) (h : size + 1024 ≤ psize * 2 ^ fuel) :
    size + 1024 ≤ varPageSize size fuel psize ∧ psize ≤ varPageSize size fuel psize ∧
      psize ∣ varPageSize size fuel psize ∧
      (varPageSize size fuel psize = psize ∨ varPageSize size fuel psize ≤ 2 * (size + 1024)) := by
  induction fuel generalizing psize with
  | zero =>
    rw [Nat.pow_zero, Nat.mul_one] at h
    exact ⟨h, Nat.le_refl _, Nat.dvd_refl _, .inl rfl⟩
  | succ fuel ih =>
    rw [varPageSize]
    split
    · rename_i hlt
      have hstep : size + 1024 ≤ psize * 2 * 2 ^ fuel := by
        calc size + 1024 ≤ psize * 2 ^ (fuel + 1) := h
          _ = psize * 2 * 2 ^ fuel := by rw [Nat.pow_succ, Nat.mul_comm (2 ^ fuel), Nat.mul_assoc]
      obtain ⟨hge, hle, hdvd, hmax⟩ := ih _ hstep
      refine ⟨hge, by omega, Nat.dvd_trans (Nat.dvd_mul_right _ _) hdvd, .inr ?_⟩
      omega
    · exact ⟨by omega, Nat.le_refl _, Nat.dvd_refl _, .inl rfl⟩

theorem room_of_part {n : Nat} (hpart : part = 5 ∨ part = 6 ∨ part = 7) (hn : n < 255)
    (hsize : gcPageSize ≤ size) (hlast : part = 7 → (n + 1) * 8192 ≤ size ∧ size ≤ 2 ^ 22) :
    startPos (gcSizes part) (size / gcSizes part) true / gcSizes part < size / gcSizes part ∧
      n ≤ size / gcSizes part - startPos (gcSizes part) (size / gcSizes part) true / gcSizes part := by
  have h5 : gcSizes 5 = 8 := rfl
  have h6 : gcSizes 6 = 64 := rfl
  have h7 : gcSizes 7 = 8192 := rfl
  simp only [gcPageSize] at hsize
  rcases hpart with rfl | rfl | rfl
  · simp only [h5, startPos, sizesPadding]
    split <;> split <;> omega
  · simp only [h6, startPos, sizesPadding]
    split <;> split <;> omega
  · have := hlast rfl
    simp only [h7, startPos, sizesPadding]
    split <;> split <;> omega

/-- A page of the lists of `pid`. -/
def Has (s : Allocator) (pid : Pid) (id : Nat) : Prop := ∃ p, s.pages[id]? = some p ∧ p.pid = pid

structure Ok (s : Allocator) : Prop where
  pages : ∀ (id : Nat) (p : GcPage), s.pages[id]? = some p → p.Ok
  heads : ∀ (pid : Pid) (id : Nat), s.gcPages pid = some id → s.Has pid id
  frees : ∀ (pid : Pid) (id : Nat), s.gcFreePages pid = some id → s.Has pid id
  links : ∀ (id n : Nat) (p : GcPage), s.pages[id]? = some p → p.nextPage = some n → s.Has p.pid n

theorem ok_start : start.Ok where
  pages id p hp := by cases hp
  heads pid id h := by cases h
  frees pid id h := by cases h
  links id n p hp := by cases hp

theorem chain_has (hok : s.Ok) {fuel : Nat} {first : Option Nat}
    (hfirst : ∀ id, first = some id → s.Has pid id) : ∀ id ∈ chain s.pages fuel first, s.Has pid id := by
  induction fuel generalizing first with
  | zero => simp [chain]
  | succ fuel ih =>
    cases first with
    | none => simp [chain]
    | some id₀ =>
      have hhas := hfirst id₀ rfl
      obtain ⟨p, hp, hpid⟩ := hhas
      intro id hid
      rw [chain, hp] at hid
      rcases List.mem_cons.mp hid with rfl | hid
      · exact ⟨p, hp, hpid⟩
      · refine ih (fun n hn => ?_) id hid
        rw [← hpid]
        exact hok.links id₀ n p hp hn

theorem Has.setPage {id₀ : Nat} (h : s.Has pid id) (hp : s.pages[id₀]? = some p) (hpid : q.pid = p.pid) :
    (s.setPage id₀ q).Has pid id := by
  obtain ⟨t, ht, htpid⟩ := h
  by_cases heq : id₀ = id
  · subst heq
    rw [hp] at ht
    cases ht
    refine ⟨q, ?_, hpid.trans htpid⟩
    exact List.getElem?_set_self (List.getElem?_eq_some_iff.mp hp).1
  · exact ⟨t, (List.getElem?_set_ne heq).trans ht, htpid⟩

theorem getElem?_setPage {id₀ : Nat} {t : GcPage} (hp : s.pages[id₀]? = some p)
    (ht : (s.setPage id₀ q).pages[id]? = some t) :
    id = id₀ ∧ t = q ∨ id ≠ id₀ ∧ s.pages[id]? = some t := by
  have hset : (s.pages.set id₀ q)[id]? = some t := ht
  by_cases heq : id = id₀
  · subst heq
    rw [List.getElem?_set_self (List.getElem?_eq_some_iff.mp hp).1] at hset
    exact .inl ⟨rfl, (Option.some.inj hset).symm⟩
  · rw [List.getElem?_set_ne (Ne.symm heq)] at hset
    exact .inr ⟨heq, hset⟩

theorem Ok.setPage (hok : s.Ok) (hp : s.pages[id]? = some p) (hq : q.Ok) (hpid : q.pid = p.pid)
    (hnext : q.nextPage = p.nextPage) : (s.setPage id q).Ok where
  pages id' t ht := by
    rcases getElem?_setPage hp ht with ⟨rfl, rfl⟩ | ⟨-, ht⟩
    · exact hq
    · exact hok.pages id' t ht
  heads pid id' h := (hok.heads pid id' h).setPage hp hpid
  frees pid id' h := (hok.frees pid id' h).setPage hp hpid
  links id' n t ht hn := by
    rcases getElem?_setPage hp ht with ⟨rfl, rfl⟩ | ⟨-, ht⟩
    · rw [hnext] at hn
      rw [hpid]
      exact (hok.links id' n p hp hn).setPage hp hpid
    · exact (hok.links id' n t ht hn).setPage hp hpid

theorem Ok.setFree (hok : s.Ok) (h : s.Has pid id) :
    Ok { s with gcFreePages := Function.update s.gcFreePages pid (some id) } where
  pages := hok.pages
  heads := hok.heads
  frees pid' id' h' := by
    simp only [Function.update_apply] at h'
    split at h'
    · rename_i heq
      cases h'
      rw [heq]
      exact h
    · exact hok.frees pid' id' h'
  links := hok.links

/-- The state after `gc_allocator_new_page`. -/
def addPage (s : Allocator) (pid : Pid) (p : GcPage) : Allocator :=
  { s with
    pages := s.pages ++ [p]
    gcPages := Function.update s.gcPages pid (some s.pages.length) }

theorem Has.addPage {pid' : Pid} (h : s.Has pid id) (p : GcPage) :
    (s.addPage pid' p).Has pid id := by
  obtain ⟨t, ht, htpid⟩ := h
  exact ⟨t, (List.getElem?_append_left (List.getElem?_eq_some_iff.mp ht).1).trans ht, htpid⟩

theorem getElem?_addPage (s : Allocator) (pid : Pid) (p : GcPage) :
    (s.addPage pid p).pages[s.pages.length]? = some p := List.getElem?_concat_length

theorem Ok.addPage (hok : s.Ok) (hp : p.Ok) (hpid : p.pid = pid) (hnext : p.nextPage = s.gcPages pid) :
    (s.addPage pid p).Ok where
  pages id t ht := by
    have hget : (s.pages ++ [p])[id]? = some t := ht
    rcases List.mem_append.mp (List.mem_of_getElem? hget) with hmem | hmem
    · obtain ⟨id', hid'⟩ := List.getElem?_of_mem hmem
      exact hok.pages id' t hid'
    · rw [List.mem_singleton.mp hmem]
      exact hp
  heads pid' id h := by
    simp only [Allocator.addPage, Function.update_apply] at h
    split at h
    · rename_i heq
      cases h
      exact ⟨p, s.getElem?_addPage pid p, hpid.trans heq.symm⟩
    · exact (hok.heads pid' id h).addPage p
  frees pid' id h := (hok.frees pid' id h).addPage p
  links id n t ht hn := by
    have hget : (s.pages ++ [p])[id]? = some t := ht
    rcases Nat.lt_or_ge id s.pages.length with hlt | hge
    · rw [List.getElem?_append_left hlt] at hget
      exact (hok.links id n t hget hn).addPage p
    · rw [List.getElem?_append_right hge] at hget
      have heq : t = p := by
        have := List.mem_of_getElem? hget
        simpa using this
      subst heq
      rw [hnext] at hn
      rw [hpid]
      exact (hok.heads pid n hn).addPage t

theorem meets_newPage {block : Nat} (hlimit : size / block ≤ gcPageSize) :
    Meets (fun result => result = (s.addPage pid (freshPage pid block
        (s.pageSize pid block size / block) varsize s.incremental (s.gcPages pid)), s.pages.length))
      (gcAllocatorNewPage memory s pid block size varsize) := by
  have hspec := (s.pageSize_spec pid block size).2.1 hlimit
  unfold gcAllocatorNewPage
  simp only
  split
  · rfl
  · rw [if_neg (by omega)]
    rfl

/-- The pages of `s'` are those of `s`, some of them flushed. -/
def Settled (s s' : Allocator) : Prop :=
  ∀ (id : Nat) (p : GcPage), s.pages[id]? = some p → ∃ q, s'.pages[id]? = some q ∧ p.Settles q

theorem Settled.setPage (hp : s.pages[id]? = some p) (h : p.Settles q) :
    Settled s (s.setPage id q) := by
  intro id' t ht
  by_cases heq : id = id'
  · subst heq
    rw [hp] at ht
    cases ht
    exact ⟨q, List.getElem?_set_self (List.getElem?_eq_some_iff.mp hp).1, h⟩
  · exact ⟨t, (List.getElem?_set_ne heq).trans ht, .refl t⟩

theorem Settled.trans {s₁ s₂ s₃ : Allocator} (h : Settled s₁ s₂) (h' : Settled s₂ s₃) :
    Settled s₁ s₃ := by
  intro id p hp
  obtain ⟨q, hq, hsettles⟩ := h id p hp
  obtain ⟨r, hr, hsettles'⟩ := h' id q hq
  exact ⟨r, hr, hsettles.trans hsettles'⟩

/-- What a page gave: `Q` relates the flushed page, what is left of it and the run. -/
def Gave (Q : GcPage → GcPage → Run → Prop) (s : Allocator) (pid : Pid) (id : Nat) (p' : GcPage)
    (run : Run) : Prop :=
  ∃ p q, s.pages[id]? = some p ∧ p.Settles q ∧ q.Small ∧ q.pid = pid ∧ Q q p' run

section Allocate

variable {take first : GcPage → Option (GcPage × Run)} {Q : GcPage → GcPage → Run → Prop}
  {pid : Pid} {s : Allocator} {memory : Nat → Bool}

theorem small_of_ok (h : p.Ok) (hpart : p.pid.part < gcLargePart) : p.Small := by
  rcases h with h | h
  · exact h
  · exact absurd hpart (by rw [h.part]; exact Nat.lt_irrefl _)

theorem meets_walkPages (hpart : pid.part < gcLargePart)
    (htake : ∀ q p' run, q.Small → q.pid = pid → take q = some (p', run) → Q q p' run)
    (hok : s.Ok) (ids : List Nat) (hids : ∀ id ∈ ids, s.Has pid id) :
    Meets (fun result => result.1.Ok ∧ Settled s result.1 ∧ result.1.pages.length = s.pages.length ∧
        ∀ id p' run, result.2 = some (id, p', run) → Gave Q result.1 pid id p' run)
      (walkPages take s ids) := by
  induction ids generalizing s with
  | nil => exact ⟨hok, fun id p hp => ⟨p, hp, .refl p⟩, rfl, fun id p' run h => by cases h⟩
  | cons id ids ih =>
    obtain ⟨p, hp, hpid⟩ := hids id List.mem_cons_self
    have hsmall := small_of_ok (hok.pages id p hp) (by rw [hpid]; exact hpart)
    obtain ⟨q, hq, hqsmall, hsettles⟩ := hsmall.flushed
    rw [walkPages, hp]
    simp only [bind, Except.bind, hq]
    cases hgot : take q with
    | some got =>
      obtain ⟨p', run⟩ := got
      refine ⟨hok, fun id p hp => ⟨p, hp, .refl p⟩, rfl, fun id' p'' run' heq => ?_⟩
      cases heq
      have hqpid := hsettles.pid.trans hpid
      exact ⟨p, q, hp, hsettles, hqsmall, hqpid, htake q p' run hqsmall hqpid hgot⟩
    | none =>
      have hok' := hok.setPage hp (.inl hqsmall) hsettles.pid hsettles.nextPage
      refine (ih hok' fun id' hid' =>
        (hids id' (List.mem_cons_of_mem id hid')).setPage hp hsettles.pid).imp ?_
      rintro ⟨s', found⟩ ⟨hok', hsettled, hlength, hgave⟩
      refine ⟨hok', (Settled.setPage hp hsettles).trans hsettled, ?_, hgave⟩
      rw [hlength]
      exact List.length_set

theorem meets_findPage (hpart : pid.part < gcLargePart)
    (htake : ∀ q p' run, q.Small → q.pid = pid → take q = some (p', run) → Q q p' run) {block : Nat}
    (hlimit : size / block ≤ gcPageSize)
    (hfirst : ∀ (t : Allocator) (incremental : Bool) (next : Option Nat), ∃ fresh, fresh =
          freshPage pid block (t.pageSize pid block size / block) varsize incremental next ∧
        fresh.Small ∧ ∃ p' run, first fresh = some (p', run) ∧ Q fresh p' run) (hok : s.Ok) :
    Meets (fun result => result.1.Ok ∧ Settled s result.1 ∧
        Gave Q result.1 pid result.2.1 result.2.2.1 result.2.2.2)
      (findPage memory s pid take first block size varsize) := by
  refine meets_bind (meets_walkPages hpart htake hok _ (chain_has hok fun id hid => hok.frees pid id hid)) ?_
  rintro ⟨s₁, found⟩ ⟨hok₁, hsettled, hlength, hgave⟩
  cases found with
  | some got =>
    obtain ⟨id, p', run⟩ := got
    exact ⟨hok₁, hsettled, hgave id p' run rfl⟩
  | none =>
    refine meets_bind (meets_newPage hlimit) ?_
    rintro _ rfl
    obtain ⟨fresh, hfresh, hsmall, p', run, hgot, hQ⟩ :=
      hfirst s₁ s₁.incremental (s₁.gcPages pid)
    rw [← hfresh]
    simp only [s₁.getElem?_addPage, Option.bind_some, hgot]
    have hpid : fresh.pid = pid := by rw [hfresh]; rfl
    have hnext : fresh.nextPage = s₁.gcPages pid := by rw [hfresh]; rfl
    refine ⟨hok₁.addPage (.inl hsmall) hpid hnext, ?_,
      _, _, s₁.getElem?_addPage pid _, .refl _, hsmall, hpid, hQ⟩
    refine hsettled.trans fun id p hp => ⟨p, ?_, .refl p⟩
    exact (List.getElem?_append_left (List.getElem?_eq_some_iff.mp hp).1).trans hp

end Allocate

/-- An allocation returns blocks that are live from then on, and that no live block of the page
reached into, leaving out those that the flush of the page sweeps. -/
structure Sound (s s' : Allocator) (h : Handed) : Prop where
  fresh : ∃ p, s'.pages[h.page]? = some p ∧ ∀ x, h.run.Has x → ∃ b ∈ p.live, b.run.Has x
  apart : ∀ p, s.pages[h.page]? = some p → ∀ b ∈ p.live,
    (p.needFlush = true → p.marked b.run.pos = true) → ∀ x, ¬(b.run.Has x ∧ h.run.Has x)

theorem Gave.finish {Q : GcPage → GcPage → Run → Prop} {s₁ : Allocator} {p' P : GcPage} {run : Run}
    (hgave : Gave Q s₁ pid id p' run) (hok₁ : s₁.Ok) (hsettled : Settled s s₁)
    (hend : ∀ q, q.Small → q.pid = pid → Q q p' run → q.Took p' run ∧ P.Small ∧ P.pid = q.pid ∧
      P.nextPage = q.nextPage ∧ ∀ x, run.Has x → ∃ b ∈ P.blocks, b.recent = true ∧ b.run.Has x) :
    Ok { s₁.setPage id P with gcFreePages := Function.update s₁.gcFreePages pid (some id) } ∧
      Sound s { s₁.setPage id P with
        gcFreePages := Function.update s₁.gcFreePages pid (some id) } ⟨id, run⟩ := by
  obtain ⟨p, q, hp, hsettles, hqsmall, hqpid, hQ⟩ := hgave
  obtain ⟨htook, hP, hPpid, hPnext, hcover⟩ := hend q hqsmall hqpid hQ
  have hlt : id < s₁.pages.length := (List.getElem?_eq_some_iff.mp hp).1
  have hget : (s₁.pages.set id P)[id]? = some P := List.getElem?_set_self hlt
  have hok := hok₁.setPage hp (.inl hP) (hPpid.trans hsettles.pid) (hPnext.trans hsettles.nextPage)
  refine ⟨hok.setFree ⟨P, hget, hPpid.trans hqpid⟩, ⟨P, hget, fun x hx => ?_⟩, fun p₀ hp₀ b hb hkept x => ?_⟩
  · obtain ⟨b, hb, hrecent, hhas⟩ := hcover x hx
    exact ⟨b, List.mem_filter.mpr ⟨hb, by simp [hrecent]⟩, hhas⟩
  · obtain ⟨p₁, hp₁, hsettles₁⟩ := hsettled id p₀ hp₀
    have heq : p₁ = p := Option.some.inj (hp₁.symm.trans hp)
    subst heq
    obtain ⟨b', hb', hrun⟩ :=
      (hsettles₁.trans hsettles).survive b (List.mem_filter.mp hb).1 hkept
    rw [← hrun]
    exact (htook.runApart hqsmall b' hb').disjoint x

/-! #### Fixed partitions -/

theorem gcSizes_fixed (hpart : part < gcFixedParts) :
    8 ≤ gcSizes part ∧ gcSizes part ≤ 40 := by
  simp only [gcFixedParts] at hpart
  interval_cases part <;> decide

theorem fixed_blocks (hpart : part < gcFixedParts) (hsize : gcPageSize ≤ size) :
    256 < size / gcSizes part := by
  obtain ⟨hlow, hhigh⟩ := gcSizes_fixed hpart
  simp only [gcPageSize] at hsize
  rw [Nat.lt_iff_add_one_le, Nat.le_div_iff_mul_le (by omega)]
  omega

theorem meets_fixedRun (hok : s.Ok) (oc : Nat) (kind : MemKind) {want : Nat} (hpart : part < gcFixedParts)
    (hwant : 0 < want) (hmax : want ≤ 256) :
    Meets (fun result => result.1.Ok ∧ Sound s result.1 result.2)
      (gcAllocFixedRun memory s oc part kind want) := by
  have hlarge : part < gcLargePart := Nat.lt_trans hpart (by decide)
  obtain ⟨hlow, hhigh⟩ := gcSizes_fixed hpart
  have hvar : ∀ q : GcPage, q.Small → q.pid = ⟨oc, part, kind⟩ → q.sizes = none := by
    intro q hq hpid
    have hvarsize := hq.varsize
    rw [hpid, decide_eq_false (Nat.not_le.mpr hpart)] at hvarsize
    simpa using hvarsize
  have hfind : Meets (fun result => result.1.Ok ∧ Settled s result.1 ∧
      Gave (fun q p' run => q.Took p' run ∧ 0 < run.count ∧ run.count ≤ want ∧
        ∀ r ∈ p'.runs, 0 < r.count) result.1 ⟨oc, part, kind⟩ result.2.1 result.2.2.1 result.2.2.2)
      (findPage memory s ⟨oc, part, kind⟩ (GcPage.takeFixed want) (firstFixed want) (gcSizes part)
        gcPageSize false) := by
    refine meets_findPage hlarge (fun q p' run hq hpid htake =>
      hq.takeFixed (hvar q hq hpid) hwant htake) ?_ (fun t incremental next => ?_) hok
    · exact Nat.div_le_self _ _
    · have hblocks := fixed_blocks hpart (t.pageSize_spec ⟨oc, part, kind⟩ (gcSizes part) gcPageSize).1
      generalize t.pageSize ⟨oc, part, kind⟩ (gcSizes part) gcPageSize / gcSizes part = max at hblocks
      have hfirst : startPos (gcSizes part) max false / gcSizes part = 0 := by
        rw [startPos_fixed, Nat.zero_div]
      have hfree : (freshPage ⟨oc, part, kind⟩ (gcSizes part) max false incremental next).free =
          [⟨0, max⟩] := by
        simp only [freshPage, hfirst, Nat.sub_zero]
      have hsmall : (freshPage ⟨oc, part, kind⟩ (gcSizes part) max false incremental next).Small :=
        small_freshPage incremental next hlarge
          (decide_eq_false (Nat.not_le.mpr hpart)).symm (by rw [hfirst]; omega)
      obtain ⟨hgot, htook, hrest⟩ := GcPage.took_first hfree rfl (n := want) (by simp only; omega)
      refine ⟨_, rfl, hsmall, _, _, ?_, htook, hwant, Nat.le_refl _, fun r hr => ?_⟩
      · rw [← hgot, firstFixed, hfree]
        simp only [List.getElem?_cons_zero]
        rw [if_neg (by omega)]
      · rw [hrest r hr]
        simp only
        omega
  refine meets_bind hfind ?_
  rintro ⟨s₁, id, p', run⟩ ⟨hok₁, hsettled, hgave⟩
  simp only at hok₁ hsettled hgave
  have hbounds : 0 < run.count ∧ run.count ≤ want := by
    obtain ⟨p, q, -, -, -, -, -, hpos, hle, -⟩ := hgave
    exact ⟨hpos, hle⟩
  simp only
  rw [if_neg (by omega)]
  refine hgave.finish hok₁ hsettled fun q hq hpid ⟨htook, _, _, hruns⟩ => ?_
  refine ⟨htook, htook.handOut hq (hvar q hq hpid) hruns, by rw [htook.same]; rfl,
    by rw [htook.same]; rfl, fun x hx => ?_⟩
  refine ⟨⟨⟨run.pos + (x - run.pos), 1⟩, true⟩, List.mem_append_right _ ?_, rfl, ?_⟩
  · refine List.mem_map.mpr ⟨x - run.pos, List.mem_range.mpr ?_, rfl⟩
    simp only [Run.Has, Run.stop] at hx
    omega
  · simp only [Run.Has, Run.stop] at hx ⊢
    omega

/-! #### Variable partitions -/

theorem gcSizes_var (hpart : part = 5 ∨ part = 6 ∨ part = 7) :
    2 ^ gcSbits part = gcSizes part ∧ 8 ≤ gcSizes part ∧ part < gcLargePart ∧ gcFixedParts ≤ part := by
  rcases hpart with rfl | rfl | rfl <;> decide

theorem var_page (hpart : part = 5 ∨ part = 6 ∨ part = 7) (hdvd : gcSizes part ∣ size)
    (hlt : size < gcSizes part * 255) (hmax : size ≤ gcLargeBlock) (s : Allocator) (pid : Pid) :
    varPageSize size 32 gcPageSize / gcSizes part ≤ gcPageSize ∧
      ∃ t, s.pageSize pid (gcSizes part) (varPageSize size 32 gcPageSize) = t ∧ gcPageSize ≤ t ∧
        (part = 7 → (size / gcSizes part + 1) * 8192 ≤ t ∧ t ≤ 2 ^ 22) := by
  have h5 : gcSizes 5 = 8 := rfl
  have h6 : gcSizes 6 = 64 := rfl
  have h7 : gcSizes 7 = 8192 := rfl
  simp only [gcLargeBlock] at hmax
  obtain ⟨hge, hle, hmul, hbound⟩ :=
    varPageSize_spec size 32 gcPageSize (by simp only [gcPageSize]; omega)
  obtain ⟨hgrow, -, hsame⟩ :=
    s.pageSize_spec pid (gcSizes part) (varPageSize size 32 gcPageSize)
  have hsmall : size + 1024 ≤ gcPageSize → varPageSize size 32 gcPageSize = gcPageSize := by
    intro hle
    rw [varPageSize, if_neg (by omega)]
  generalize varPageSize size 32 gcPageSize = psize at *
  simp only [gcPageSize] at *
  obtain ⟨k, rfl⟩ := hdvd
  obtain ⟨j, rfl⟩ := hmul
  refine ⟨?_, _, rfl, by omega, fun h => ?_⟩
  · rcases hpart with rfl | rfl | rfl
    · rw [h5] at *
      have := hsmall (by omega)
      omega
    · rw [h6] at *
      have := hsmall (by omega)
      omega
    · rw [h7] at *
      omega
  · subst h
    rw [h7] at *
    rw [hsame (by omega), Nat.mul_div_cancel_left k (by omega)]
    omega

theorem meets_allocVar (hok : s.Ok) (oc : Nat) (kind : MemKind) (hpart : part = 5 ∨ part = 6 ∨ part = 7)
    (hdvd : gcSizes part ∣ size) (hpos : 0 < size) (hlt : size < gcSizes part * 255)
    (hmax : size ≤ gcLargeBlock) :
    Meets (fun result => result.1.Ok ∧ Sound s result.1 result.2) (gcAllocVar memory s oc part size kind) := by
  obtain ⟨hbits, hlow, hlarge, hvar⟩ := gcSizes_var hpart
  have hn : 0 < size / gcSizes part ∧ size / gcSizes part < 255 := by
    obtain ⟨k, rfl⟩ := hdvd
    rw [Nat.mul_div_cancel_left k (by omega)]
    exact ⟨Nat.pos_of_mul_pos_left hpos, Nat.lt_of_mul_lt_mul_left hlt⟩
  have hsizes : ∀ q : GcPage, q.Small → q.pid = ⟨oc, part, kind⟩ → q.sizes.isSome = true := by
    intro q hq hpid
    rw [hq.varsize, hpid]
    exact decide_eq_true hvar
  have hfind : Meets (fun result => result.1.Ok ∧ Settled s result.1 ∧
      Gave (fun q p' run => q.Took p' run ∧ run.count = size / gcSizes part) result.1
        ⟨oc, part, kind⟩ result.2.1 result.2.2.1 result.2.2.2)
      (findPage memory s ⟨oc, part, kind⟩ (GcPage.takeVar (size / gcSizes part))
        (GcPage.takeFirst (size / gcSizes part)) (gcSizes part) (varPageSize size 32 gcPageSize)
        true) := by
    refine meets_findPage hlarge (fun q p' run hq _ htake => hq.takeVar htake)
      (var_page hpart hdvd hlt hmax s ⟨oc, part, kind⟩).1 (fun t incremental next => ?_) hok
    obtain ⟨-, psize, hpsize, hge, hlast⟩ := var_page hpart hdvd hlt hmax t ⟨oc, part, kind⟩
    obtain ⟨hfirst, hroom⟩ := room_of_part hpart hn.2 hge hlast
    rw [hpsize]
    have hsmall : (freshPage ⟨oc, part, kind⟩ (gcSizes part) (psize / gcSizes part) true
        incremental next).Small :=
      small_freshPage incremental next hlarge (decide_eq_true hvar).symm hfirst
    obtain ⟨hgot, htook, -⟩ := GcPage.took_first (p := freshPage ⟨oc, part, kind⟩ (gcSizes part)
      (psize / gcSizes part) true incremental next) rfl rfl hroom
    exact ⟨_, rfl, hsmall, _, _, hgot, htook, rfl⟩
  unfold gcAllocVar
  rw [hbits]
  refine meets_bind hfind ?_
  rintro ⟨s₁, id, p', run⟩ ⟨hok₁, hsettled, hgave⟩
  simp only at hok₁ hsettled hgave
  obtain ⟨p, q, hp, hsettles, hq, hpid, htook, hcount⟩ := hgave
  obtain ⟨P, hrecord, hP, hPpid, hPnext, hblocks⟩ := htook.recordVar hq (hsizes q hq hpid) (by omega) (by omega)
  simp only [hrecord]
  have hgave : Gave (fun q' p'' _ => q' = q ∧ p'' = p') s₁ ⟨oc, part, kind⟩ id p' run :=
    ⟨p, q, hp, hsettles, hq, hpid, rfl, rfl⟩
  refine hgave.finish hok₁ hsettled fun q' _ _ ⟨heq, _⟩ => ?_
  subst heq
  refine ⟨htook, hP, hPpid, hPnext, fun x hx => ⟨⟨run, true⟩, ?_, rfl, hx⟩⟩
  rw [hblocks]
  exact List.mem_append_right _ (List.mem_singleton.mpr rfl)

/-! #### Every size -/

theorem query_spec (sz : Nat) {block : Nat} (hblock : 0 < block) :
    sz ≤ query sz block ∧ query sz block < sz + block ∧ block ∣ query sz block := by
  have hmod := Nat.mod_lt sz hblock
  rw [query, if_neg (by omega)]
  refine ⟨Nat.le_add_right _ _, ?_, ?_⟩
  · have := Nat.mod_lt (block - sz % block) hblock
    omega
  · rw [Nat.dvd_iff_mod_eq_zero, Nat.add_mod, Nat.mod_mod, ← Nat.add_mod]
    have hsplit : sz + (block - sz % block) = block * (sz / block + 1) := by
      have := Nat.div_add_mod sz block
      rw [Nat.mul_add, Nat.mul_one]
      omega
    rw [hsplit, Nat.mul_mod_right]

theorem large_freshPage (hpart : pid.part = gcLargePart) (block : Nat) (incremental : Bool)
    (next : Option Nat) :
    (freshPage pid block 1 false incremental next).Large where
  part := hpart
  first := by simp [freshPage, startPos_fixed]
  max := rfl
  free := by simp [freshPage, startPos_fixed]
  current := rfl
  sizes := rfl
  blocks b hb := by cases hb
  atMost := Nat.zero_le _
  bits l hl := by
    simp only [freshPage] at hl
    split at hl
    · cases hl
      exact List.length_replicate
    · cases hl
  flush hflush := by cases hflush

theorem large_handOut (h : p.Large) (hnone : p.blocks = []) :
    (p.handOut ⟨0, 1⟩).Large where
  part := h.part
  first := h.first
  max := h.max
  free := h.free
  current := h.current
  sizes := h.sizes
  blocks b hb := by
    simp [GcPage.handOut, hnone] at hb
    rw [hb]
  atMost := by simp [GcPage.handOut, hnone]
  bits := h.bits
  flush := h.flush

theorem meets_allocLarge (hok : s.Ok) {sz : Nat} (kind : MemKind) (oc : Nat) (hsz : 256 ≤ sz) :
    Meets (fun result => result.1.Ok ∧ ∀ h, result.2 = some h → Sound s result.1 h) (do
      let (s, id) ← gcAllocatorNewPage memory s ⟨oc, gcLargePart, kind⟩ sz sz false
      match s.pages[id]? with
      | some p => .ok (s.setPage id (p.handOut ⟨0, 1⟩), some ⟨id, ⟨0, 1⟩⟩)
      | none => .error .badAccess) := by
  have hone : sz / sz = 1 := Nat.div_self (by omega)
  refine meets_bind (meets_newPage (by rw [hone]; decide)) ?_
  rintro _ rfl
  rw [(s.pageSize_spec ⟨oc, gcLargePart, kind⟩ sz sz).2.2 hsz, hone]
  simp only [s.getElem?_addPage]
  have hlarge : (freshPage ⟨oc, gcLargePart, kind⟩ sz 1 false s.incremental
      (s.gcPages ⟨oc, gcLargePart, kind⟩)).Large := large_freshPage rfl sz _ _
  have hget := s.getElem?_addPage ⟨oc, gcLargePart, kind⟩ (freshPage ⟨oc, gcLargePart, kind⟩ sz 1
    false s.incremental (s.gcPages ⟨oc, gcLargePart, kind⟩))
  have hadd := hok.addPage (.inr hlarge) rfl rfl
  refine ⟨hadd.setPage hget (.inr (large_handOut hlarge rfl)) rfl rfl, fun h heq => ?_⟩
  cases heq
  constructor
  · refine ⟨_, List.getElem?_set_self (List.getElem?_eq_some_iff.mp hget).1, fun x hx => ?_⟩
    refine ⟨⟨⟨0, 1⟩, true⟩, List.mem_filter.mpr ⟨?_, rfl⟩, hx⟩
    simp [GcPage.handOut, freshPage]
  · intro p hp
    have hlt := (List.getElem?_eq_some_iff.mp hp).1
    exact absurd hlt (Nat.lt_irrefl _)

theorem find_part {sz : Nat} (hsz : sz < gcLargeBlock)
    (hfind : [5, 6, 7, 8].find? (fun part => query sz (gcSizes part) < gcSizes part * 255) = some part) :
    (part = 5 ∨ part = 6 ∨ part = 7) ∧ gcSizes part ∣ query sz (gcSizes part) ∧
      sz ≤ query sz (gcSizes part) ∧ query sz (gcSizes part) < gcSizes part * 255 ∧
      query sz (gcSizes part) ≤ gcLargeBlock := by
  have hlt : query sz (gcSizes part) < gcSizes part * 255 := by
    simpa using List.find?_some hfind
  have hpart : part = 5 ∨ part = 6 ∨ part = 7 := by
    have hmem := List.mem_of_find?_eq_some hfind
    simp only [List.mem_cons, List.not_mem_nil, or_false] at hmem
    rcases hmem with h | h | h | rfl
    · exact .inl h
    · exact .inr (.inl h)
    · exact .inr (.inr h)
    · exact absurd hlt (by simp [query, gcSizes])
  have hblock : 0 < gcSizes part := Nat.lt_of_lt_of_le (by decide) (gcSizes_var hpart).2.1
  have hle : sz ≤ query sz (gcSizes part) := (query_spec _ hblock).1
  have hup : query sz (gcSizes part) < sz + gcSizes part := (query_spec _ hblock).2.1
  have hdvd : gcSizes part ∣ query sz (gcSizes part) := (query_spec _ hblock).2.2
  refine ⟨hpart, hdvd, hle, hlt, ?_⟩
  obtain ⟨k, hk⟩ := hdvd
  have h5 : gcSizes 5 = 8 := rfl
  have h6 : gcSizes 6 = 64 := rfl
  have h7 : gcSizes 7 = 8192 := rfl
  simp only [gcLargeBlock] at hsz ⊢
  rcases hpart with rfl | rfl | rfl
  · rw [h5] at *
    omega
  · rw [h6] at *
    omega
  · rw [h7] at *
    omega

theorem meets_alloc (memory : Nat → Bool) (hok : s.Ok) (size : Nat) (kind : MemKind) (oc : Nat) :
    Meets (fun result => result.1.Ok ∧ ∀ h, result.2 = some h → Sound s result.1 h)
      (gcAllocatorAlloc memory s size kind oc) := by
  unfold gcAllocatorAlloc
  split
  · exact ⟨hok, fun h hh => by cases hh⟩
  · rename_i hsize
    have hle : size ≤ query size gcAlign := (query_spec _ (by decide)).1
    generalize query size gcAlign = sz at hle
    simp only
    split
    · rename_i hlarge
      have hle' : sz ≤ query sz gcPageSize := (query_spec _ (by decide)).1
      refine meets_allocLarge hok kind oc ?_
      simp only [gcLargeBlock] at hlarge
      omega
    · rename_i hsmall
      split
      · rename_i hfixed
        have hpart : sz / gcAlign - 1 < gcFixedParts := by
          have hmax : gcSizes (gcFixedParts - 1) = 40 := rfl
          simp only [gcAlign, gcFixedParts]
          omega
        refine meets_bind (meets_fixedRun hok oc kind hpart (by decide) (by decide)) ?_
        rintro ⟨s', h⟩ ⟨hok', hsound⟩
        exact ⟨hok', fun h' heq => by cases heq; exact hsound⟩
      · split
        · rename_i part hfind
          obtain ⟨hpart, hdvd, hge, hlt, hmax⟩ := find_part (by omega) hfind
          refine meets_bind (meets_allocVar hok oc kind hpart hdvd (by omega) hlt hmax) ?_
          rintro ⟨s', h⟩ ⟨hok', hsound⟩
          exact ⟨hok', fun h' heq => by cases heq; exact hsound⟩
        · rename_i hfind
          have hnone := List.find?_eq_none.mp hfind 7 (by simp)
          have h7 : gcSizes 7 = 8192 := rfl
          have hup : query sz 8192 < sz + 8192 := (query_spec _ (by decide)).2.1
          simp only [gcLargeBlock, h7, decide_eq_true_eq] at hsmall hnone
          omega

theorem Ok.changePage (hok : s.Ok) (id : Nat) {f : GcPage → Except AllocError GcPage}
    (hf : ∀ p, p.Ok → Meets (fun q => q.Ok ∧ q.pid = p.pid ∧ q.nextPage = p.nextPage) (f p)) :
    Meets Ok (s.changePage id f) := by
  unfold Allocator.changePage
  cases hp : s.pages[id]? with
  | none => exact hok
  | some p =>
    refine meets_bind (hf p (hok.pages id p hp)) ?_
    rintro q ⟨hq, hpid, hnext⟩
    exact hok.setPage hp hq hpid hnext

theorem small_setBits (h : p.Small) {bmp : Option (List Bool)} {needFlush : Bool}
    (hbits : ∀ l, bmp = some l → l.length = p.maxBlocks) (hflush : needFlush = true → bmp.isSome) :
    GcPage.Small { p with bmp, needFlush } :=
  ⟨h.part, h.range, h.sorted, h.runsIn, h.blocksIn, h.disjoint, h.apart, h.sized, h.single, h.varsize, hbits,
    hflush⟩

theorem ok_setBits (h : p.Ok) {bmp : Option (List Bool)} {needFlush : Bool}
    (hbits : ∀ l, bmp = some l → l.length = p.maxBlocks) (hflush : needFlush = true → bmp.isSome) :
    GcPage.Ok { p with bmp, needFlush } := by
  rcases h with h | h
  · exact .inl (small_setBits h hbits hflush)
  · exact .inr ⟨h.part, h.first, h.max, h.free, h.current, h.sizes, h.blocks, h.atMost, hbits, hflush⟩

theorem bits_of_ok (h : p.Ok) :
    (∀ l, p.bmp = some l → l.length = p.maxBlocks) ∧ (p.needFlush = true → p.bmp.isSome = true) := by
  rcases h with h | h
  · exact ⟨h.bits, h.flush⟩
  · exact ⟨h.bits, h.flush⟩

theorem ok_markBlock (h : p.Ok) (bid : Nat) : (markBlock p bid).Ok := by
  obtain ⟨hbits, hflush⟩ := bits_of_ok h
  unfold markBlock
  split
  · refine ok_setBits h (fun l hl => ?_) fun hneed => ?_
    · obtain ⟨bmp, hbmp, rfl⟩ := Option.map_eq_some_iff.mp hl
      rw [List.length_set]
      exact hbits bmp hbmp
    · rw [Option.isSome_map]
      exact hflush hneed
  · exact h

theorem Ok.beforeMark (hok : s.Ok) : s.gcAllocatorBeforeMark.Ok := by
  have hget : ∀ (id : Nat) (p : GcPage), s.gcAllocatorBeforeMark.pages[id]? = some p →
      ∃ t, s.pages[id]? = some t ∧
        p = { t with bmp := some (List.replicate t.maxBlocks false), needFlush := true } := by
    intro id p hp
    have hmap : (s.pages.map fun p =>
        { p with bmp := some (List.replicate p.maxBlocks false), needFlush := true })[id]? =
        some p := hp
    rw [List.getElem?_map] at hmap
    obtain ⟨t, ht, rfl⟩ := Option.map_eq_some_iff.mp hmap
    exact ⟨t, ht, rfl⟩
  have hhas : ∀ pid id, s.Has pid id → s.gcAllocatorBeforeMark.Has pid id := by
    rintro pid id ⟨p, hp, hpid⟩
    refine ⟨{ p with bmp := some (List.replicate p.maxBlocks false), needFlush := true }, ?_, hpid⟩
    simp [gcAllocatorBeforeMark, List.getElem?_map, hp]
  constructor
  case pages =>
    intro id p hp
    obtain ⟨t, ht, rfl⟩ := hget id p hp
    refine ok_setBits (hok.pages id t ht) (fun l hl => ?_) fun _ => rfl
    cases hl
    exact List.length_replicate
  case heads => exact fun pid id h => hhas pid id (hok.heads pid id h)
  case frees => exact fun pid id h => hhas pid id (hok.heads pid id h)
  case links =>
    intro id n p hp hn
    obtain ⟨t, ht, rfl⟩ := hget id p hp
    exact hhas t.pid n (hok.links id n t ht hn)

theorem Ok.meets_step (hok : s.Ok) (memory : Nat → Bool) (e : Event) :
    Meets (fun result => result.1.Ok ∧ ∀ h, result.2 = some h → Sound s result.1 h) (s.step memory e) := by
  cases e with
  | alloc size kind oc => exact meets_alloc _ hok size kind oc
  | reserve oc part kind =>
    have hwant : ∀ part : Fin 5, 0 < gcTlabRun / gcSizes part ∧ gcTlabRun / gcSizes part ≤ 256 := by
      decide
    refine meets_bind (meets_fixedRun hok oc kind part.isLt (hwant part).1 (hwant part).2) ?_
    rintro ⟨s', h⟩ ⟨hok', hsound⟩
    exact ⟨hok', fun h' heq => by cases heq; exact hsound⟩
  | mark id bid =>
    refine meets_bind (hok.changePage id fun p hp => ?_) fun s' hok' => ⟨hok', fun h hh => (by cases hh)⟩
    refine ⟨ok_markBlock hp bid, ?_, ?_⟩ <;> unfold markBlock <;> split <;> rfl
  | beforeMark => exact ⟨hok.beforeMark, fun h hh => (by cases hh)⟩
  | rebuild id =>
    refine meets_bind (hok.changePage id fun p hp => ?_) fun s' hok' => ⟨hok', fun h hh => (by cases hh)⟩
    obtain ⟨q, hq, hqok, hsettles⟩ := hp.flushed
    rw [hq]
    exact ⟨hqok, hsettles.pid, hsettles.nextPage⟩
  | prepare id =>
    refine meets_bind (hok.changePage id fun p hp => ?_) fun s' hok' => ⟨hok', fun h hh => (by cases hh)⟩
    obtain ⟨q, hq, hqok, hsettles⟩ := hp.flushed
    simp only [gcIncPreparePage, hq, bind, Except.bind]
    refine ⟨ok_setBits hqok (fun l hl => ?_) fun _ => rfl, hsettles.pid, hsettles.nextPage⟩
    cases hl
    exact List.length_replicate
  | publish id =>
    refine meets_bind (hok.changePage id fun p hp => ?_) fun s' hok' => ⟨hok', fun h hh => (by cases hh)⟩
    unfold gcIncPublishMarks
    split
    · rename_i hsome
      exact ⟨ok_setBits hp (bits_of_ok hp).1 fun _ => hsome, rfl, rfl⟩
    · exact ⟨hp, rfl, rfl⟩
  | cycle active =>
    exact ⟨⟨hok.pages, hok.heads, hok.frees, hok.links⟩, fun h hh => (by cases hh)⟩

theorem Ok.meets_run (hok : s.Ok) (events : List (Event × (Nat → Bool))) :
    Meets Ok (s.run events) := by
  induction events generalizing s with
  | nil => exact hok
  | cons e events ih =>
    obtain ⟨e, memory⟩ := e
    refine meets_bind (hok.meets_step memory e) ?_
    rintro ⟨s', handed⟩ ⟨hok', -⟩
    exact ih hok'

end Allocator

/-- The live blocks of a page are apart, in the page and not free. The free list of a page of the
large partition is not used. -/
structure GcPage.Safe (p : GcPage) : Prop where
  disjoint : p.live.Pairwise fun a b => ∀ x, ¬(a.run.Has x ∧ b.run.Has x)
  inside : ∀ b ∈ p.live, p.firstBlock ≤ b.run.pos ∧ b.run.stop ≤ p.maxBlocks
  free : p.pid.part < gcLargePart → ∀ b ∈ p.live, ∀ r ∈ p.runs, ∀ x, ¬(b.run.Has x ∧ r.Has x)

theorem GcPage.Ok.safe (h : p.Ok) : p.Safe := by
  have hsub : p.live.Sublist p.blocks := List.filter_sublist
  rcases h with h | h
  · refine ⟨(h.disjoint.sublist hsub).imp fun {a b} hapart => hapart.disjoint, fun b hb => ?_,
      fun _ b hb r hr => (h.apart b (hsub.subset hb) r hr).disjoint⟩
    exact (h.blocksIn b (hsub.subset hb)).2
  · refine ⟨?_, fun b hb => ?_, fun hpart => ?_⟩
    · have hle : p.live.length ≤ 1 := Nat.le_trans hsub.length_le h.atMost
      match p.live, hle with
      | [], _ => exact List.Pairwise.nil
      | [b], _ => exact List.pairwise_singleton _ _
    · rw [h.blocks b (hsub.subset hb), h.first, h.max]
      exact ⟨Nat.le_refl _, Nat.le_refl _⟩
    · exact absurd hpart (by rw [h.part]; exact Nat.lt_irrefl _)

/-- Whatever the program and the collector do, the allocator stops because memory ran out, or every
page is safe and the next allocation returns blocks that no live block reaches into. Of the code this is so for sizes
up to `2 ^ 31 - 65536`, whose arithmetic does not wrap. -/
theorem allocator_safe (events : List (Event × (Nat → Bool))) :
    Meets (fun s : Allocator => (∀ p ∈ s.pages, p.Safe) ∧ ∀ memory e,
        Meets (fun result => ∀ h, result.2 = some h → Allocator.Sound s result.1 h) (s.step memory e))
      (Allocator.start.run events) := by
  refine (Allocator.ok_start.meets_run events).imp fun s hok => ⟨fun p hp => ?_, fun memory e => ?_⟩
  · obtain ⟨id, hid⟩ := List.getElem?_of_mem hp
    exact (hok.pages id p hid).safe
  · exact (hok.meets_step memory e).imp fun _ h => h.2

end HashLink.Gc
