import HashLink.Gc.Flush

/-! The invariant of a page and what keeps it: a flush, taking blocks from a run and writing down
what was taken. -/

namespace HashLink.Gc

namespace GcPage

/-- A page of a fixed or variable partition. Blocks and free runs are pieces of the page that do
not reach into each other, and the table of sizes knows the blocks. -/
structure Small (p : GcPage) : Prop where
  part : p.pid.part < gcLargePart
  range : p.firstBlock ≤ p.maxBlocks
  sorted : p.runs.Pairwise Run.Before
  runsIn : ∀ r ∈ p.runs, p.firstBlock ≤ r.pos ∧ r.stop ≤ p.maxBlocks
  blocksIn : ∀ b ∈ p.blocks, 0 < b.run.count ∧ p.firstBlock ≤ b.run.pos ∧ b.run.stop ≤ p.maxBlocks
  disjoint : p.blocks.Pairwise fun a b => a.run.Apart b.run
  apart : ∀ b ∈ p.blocks, ∀ r ∈ p.runs, b.run.Apart r
  sized : ∀ l, p.sizes = some l → Sized p.firstBlock p.maxBlocks p.blocks (fun _ => True) l
  single : p.sizes = none → (∀ b ∈ p.blocks, b.run.count = 1) ∧ ∀ r ∈ p.runs, 0 < r.count
  varsize : p.sizes.isSome = decide (gcFixedParts ≤ p.pid.part)
  bits : ∀ l, p.bmp = some l → l.length = p.maxBlocks
  flush : p.needFlush = true → p.bmp.isSome = true

/-- A page of the large partition is one block. Its free list still holds the block: nothing is
ever taken from it. -/
structure Large (p : GcPage) : Prop where
  part : p.pid.part = gcLargePart
  first : p.firstBlock = 0
  max : p.maxBlocks = 1
  free : p.free = [⟨0, 1⟩]
  current : p.current = 0
  sizes : p.sizes = none
  blocks : ∀ b ∈ p.blocks, b.run = ⟨0, 1⟩
  atMost : p.blocks.length ≤ 1
  bits : ∀ l, p.bmp = some l → l.length = p.maxBlocks
  flush : p.needFlush = true → p.bmp.isSome = true

def Ok (p : GcPage) : Prop := p.Small ∨ p.Large

/-- What a flush may do to a page: blocks it has no reason to sweep stay. -/
structure Settles (p q : GcPage) : Prop where
  pid : q.pid = p.pid
  nextPage : q.nextPage = p.nextPage
  survive : ∀ b ∈ p.blocks, (p.needFlush = true → p.marked b.run.pos = true) → ∃ b' ∈ q.blocks, b'.run = b.run
  settled : q = p ∨ q.needFlush = false

theorem Settles.refl (p : GcPage) : Settles p p :=
  ⟨rfl, rfl, fun b hb _ => ⟨b, hb, rfl⟩, .inl rfl⟩

variable {p : GcPage}

theorem Settles.trans {q r : GcPage} (h : Settles p q) (h' : Settles q r) : Settles p r := by
  refine ⟨h'.pid.trans h.pid, h'.nextPage.trans h.nextPage, fun b hb hkept => ?_, ?_⟩
  · obtain ⟨b', hb', heq⟩ := h.survive b hb hkept
    obtain ⟨b'', hb'', heq'⟩ := h'.survive b' hb' fun hneed => by
      rcases h.settled with rfl | hsettled
      · rw [heq]
        exact hkept hneed
      · rw [hsettled] at hneed
        cases hneed
    exact ⟨b'', hb'', heq'.trans heq⟩
  · rcases h'.settled with rfl | hsettled
    · exact h.settled
    · exact .inr hsettled

theorem Small.sweep (h : p.Small) (bmp : List Bool) :
    Sweep p.firstBlock p.maxBlocks p.blocks bmp p.firstBlock p.runs [] p.sizes where
  lower := Nat.le_refl _
  upper := h.range
  bounded := h.blocksIn
  disjoint b hb b' hb' hne := by
    have hsymm : Std.Symm fun a b : Block => a.run.Apart b.run := ⟨fun _ _ => Run.Apart.symm⟩
    exact h.disjoint.forall hb hb' hne
  aligned b hb := .inr (h.blocksIn b hb).2.1
  reuseSorted := h.sorted
  reuseIn := h.runsIn
  reuseApart := h.apart
  accSorted := List.Pairwise.nil
  accIn := by simp
  accApart := by simp
  sized l hl := (h.sized l hl).imp fun b hb => by simp [(h.blocksIn b hb).2.1]
  single hnone := (h.single hnone).1

theorem Small.flushFreeList (h : p.Small) (hneed : p.needFlush = true) :
    ∃ q, p.flushFreeList = .ok q ∧ q.Small ∧ Settles p q := by
  obtain ⟨bmp, hbmp⟩ := Option.isSome_iff_exists.mp (h.flush hneed)
  obtain ⟨reuse', hend⟩ := (h.sweep bmp).finished
  rw [GcPage.flushFreeList, hbmp]
  refine ⟨_, rfl, ?_, rfl, rfl, fun b hb hkept => ?_, .inr rfl⟩
  · have hmem : ∀ b ∈ (p.blocks.filter fun b => bmp.getD b.run.pos false).map
        (fun b => ({ b with recent := false } : Block)),
        ∃ b' ∈ p.blocks, bmp.getD b'.run.pos false = true ∧ b.run = b'.run := by
      intro b hb
      obtain ⟨b', hb', rfl⟩ := List.mem_map.mp hb
      obtain ⟨hmem, hkept⟩ := List.mem_filter.mp hb'
      exact ⟨b', hmem, hkept, rfl⟩
    constructor
    case part => exact h.part
    case range => exact h.range
    case sorted => exact hend.accSorted
    case runsIn => exact hend.accIn
    case blocksIn =>
      intro b hb
      obtain ⟨b', hb', -, heq⟩ := hmem b hb
      rw [heq]
      exact h.blocksIn b' hb'
    case disjoint => exact (h.disjoint.filter _).map _ fun _ _ hapart => hapart
    case apart =>
      intro b hb r hr
      obtain ⟨b', hb', hkept, heq⟩ := hmem b hb
      rw [heq]
      exact hend.accApart b' hb' hkept r hr
    case sized =>
      intro l hl
      have hsized := hend.sized l hl
      refine ⟨hsized.length, fun b hb _ => ?_, fun x hx hx' hnone => ?_⟩
      · obtain ⟨b', hb', hkept, heq⟩ := hmem b hb
        rw [heq]
        exact hsized.start b' hb' (.inr hkept)
      · refine hsized.other x hx hx' fun b hb hkept => ?_
        have hbound := h.blocksIn b hb
        simp only [Run.stop] at hbound
        have hkept' := hkept.resolve_left (by omega)
        exact hnone { b with recent := false }
          (List.mem_map.mpr ⟨b, List.mem_filter.mpr ⟨hb, hkept'⟩, rfl⟩) trivial
    case single =>
      intro hnone
      obtain ⟨hone, hpos⟩ := h.single (flushLoop_sizes.mp hnone)
      refine ⟨fun b hb => ?_, flushLoop_pos hpos (by simp)⟩
      obtain ⟨b', hb', -, heq⟩ := hmem b hb
      rw [heq]
      exact hone b' hb'
    case varsize =>
      rw [← h.varsize, Bool.eq_iff_iff, Option.isSome_iff_ne_none, Option.isSome_iff_ne_none]
      exact not_congr flushLoop_sizes
    case bits => exact fun l hl => h.bits l (hbmp.trans hl)
    case flush => exact fun hflush => Bool.noConfusion hflush
  · refine ⟨{ b with recent := false }, List.mem_map.mpr ⟨b, List.mem_filter.mpr ⟨hb, ?_⟩, rfl⟩, rfl⟩
    have hmarked := hkept hneed
    rw [marked, hbmp] at hmarked
    exact hmarked

theorem Large.flushFreeList (h : p.Large) (hneed : p.needFlush = true) :
    ∃ q, p.flushFreeList = .ok q ∧ q.Large ∧ Settles p q := by
  obtain ⟨bmp, hbmp⟩ := Option.isSome_iff_exists.mp (h.flush hneed)
  have hloop : flushLoop bmp p.maxBlocks p.firstBlock p.runs [] p.sizes = ([⟨0, 1⟩], none) := by
    have hruns : p.runs = [⟨0, 1⟩] := by rw [runs, h.free, h.current, List.drop_zero]
    rw [hruns, h.first, h.max, h.sizes]
    unfold flushLoop
    simp only [nextReuse, Nat.zero_lt_one, if_true]
    unfold flushLoop
    simp [RunList.push]
  rw [GcPage.flushFreeList, hbmp]
  simp only [hloop]
  refine ⟨_, rfl, ⟨h.part, h.first, h.max, rfl, rfl, rfl, fun b hb => ?_, ?_,
    fun l hl => h.bits l (hbmp.trans hl), fun hflush => Bool.noConfusion hflush⟩, rfl, rfl,
    fun b hb hkept => ?_, .inr rfl⟩
  · obtain ⟨b', hb', rfl⟩ := List.mem_map.mp hb
    exact h.blocks b' (List.mem_filter.mp hb').1
  · rw [List.length_map]
    exact Nat.le_trans (List.length_filter_le _ _) h.atMost
  · refine ⟨{ b with recent := false }, List.mem_map.mpr ⟨b, List.mem_filter.mpr ⟨hb, ?_⟩, rfl⟩, rfl⟩
    have hmarked := hkept hneed
    rw [marked, hbmp] at hmarked
    exact hmarked

theorem Small.flushed (h : p.Small) :
    ∃ q, p.flushed = .ok q ∧ q.Small ∧ Settles p q := by
  unfold GcPage.flushed
  split
  · rename_i hneed
    exact h.flushFreeList hneed
  · exact ⟨p, rfl, h, .refl p⟩

theorem Ok.flushed (h : p.Ok) : ∃ q, p.flushed = .ok q ∧ q.Ok ∧ Settles p q := by
  rcases h with h | h
  · obtain ⟨q, hq, hok, hsettles⟩ := h.flushed
    exact ⟨q, hq, .inl hok, hsettles⟩
  · unfold GcPage.flushed
    split
    · rename_i hneed
      obtain ⟨q, hq, hok, hsettles⟩ := h.flushFreeList hneed
      exact ⟨q, hq, .inr hok, hsettles⟩
    · exact ⟨p, rfl, .inr h, .refl p⟩

/-- What taking a run leaves: parts of the runs there were, none of which the taken run reaches
into. -/
structure Took (p p' : GcPage) (run : Run) : Prop where
  same : p' = { p with free := p'.free, current := p'.current }
  sorted : p'.runs.Pairwise Run.Before
  part : ∀ r ∈ p'.runs, ∃ c ∈ p.runs, c.pos ≤ r.pos ∧ r.stop ≤ c.stop
  apart : ∀ r ∈ p'.runs, run.Apart r
  source : ∃ c ∈ p.runs, c.pos ≤ run.pos ∧ run.stop ≤ c.stop

variable {c run : Run} {n : Nat} {p' : GcPage}

theorem cut_runs {left right : List Run} (hsorted : (left ++ c :: right).Pairwise Run.Before)
    (hn : n ≤ c.count) :
    (left ++ ⟨c.pos + n, c.count - n⟩ :: right).Pairwise Run.Before ∧
      (∀ r ∈ left ++ (⟨c.pos + n, c.count - n⟩ : Run) :: right,
        ∃ t ∈ left ++ c :: right, t.pos ≤ r.pos ∧ r.stop ≤ t.stop) ∧
      ∀ r ∈ left ++ (⟨c.pos + n, c.count - n⟩ : Run) :: right, (Run.mk c.pos n).Apart r := by
  obtain ⟨hleft, hright, hcross⟩ := List.pairwise_append.mp hsorted
  obtain ⟨hafter, hright⟩ := List.pairwise_cons.mp hright
  refine ⟨List.pairwise_append.mpr ⟨hleft, List.pairwise_cons.mpr ⟨fun r hr => ?_, hright⟩,
    fun a ha b hb => ?_⟩, fun r hr => ?_, fun r hr => ?_⟩
  · have := hafter r hr
    simp only [Run.Before, Run.stop] at this ⊢
    omega
  · rcases List.mem_cons.mp hb with rfl | hb
    · have := hcross a ha c List.mem_cons_self
      simp only [Run.Before, Run.stop] at this ⊢
      omega
    · exact hcross a ha b (List.mem_cons_of_mem c hb)
  · rcases List.mem_append.mp hr with hr | hr
    · exact ⟨r, List.mem_append_left _ hr, Nat.le_refl _, Nat.le_refl _⟩
    · rcases List.mem_cons.mp hr with rfl | hr
      · refine ⟨c, by simp, Nat.le_add_right _ _, ?_⟩
        simp only [Run.stop]
        omega
      · exact ⟨r, by simp [hr], Nat.le_refl _, Nat.le_refl _⟩
  · rcases List.mem_append.mp hr with hr | hr
    · have := hcross r hr c List.mem_cons_self
      simp only [Run.Apart, Run.Before, Run.stop] at this ⊢
      omega
    · rcases List.mem_cons.mp hr with rfl | hr
      · exact .inl (Nat.le_refl _)
      · have := hafter r hr
        simp only [Run.Apart, Run.Before, Run.stop] at this ⊢
        omega

theorem drop_cut {i : Nat} (n : Nat) (hget : p.runs[i]? = some c) :
    p.runs = p.runs.take i ++ c :: p.runs.drop (i + 1) ∧ (p.cut (p.current + i) n c).drop p.current =
        p.runs.take i ++ ⟨c.pos + n, c.count - n⟩ :: p.runs.drop (i + 1) := by
  obtain ⟨hlt, hc⟩ := List.getElem?_eq_some_iff.mp hget
  constructor
  · rw [← hc, ← List.drop_eq_getElem_cons hlt, List.take_append_drop]
  · rw [cut, List.drop_set, if_neg (by omega), Nat.add_sub_cancel_left]
    exact List.set_eq_take_append_cons_drop.trans (if_pos hlt)

theorem took_cut (hsorted : p.runs.Pairwise Run.Before) {i current : Nat}
    (hget : p.free[p.current + i]? = some c) (hn : n ≤ c.count)
    (hcurrent : current = p.current ∨ current = p.current + 1) :
    Took p { p with free := p.cut (p.current + i) n c, current } ⟨c.pos, n⟩ := by
  have hi : p.runs[i]? = some c := by rw [runs, List.getElem?_drop, hget]
  obtain ⟨hsplit, hset⟩ := drop_cut n hi
  rw [hsplit] at hsorted
  obtain ⟨hcut, hpart, hapart⟩ := cut_runs hsorted hn
  rw [← hset, ← hsplit] at hpart
  rw [← hset] at hcut hapart
  -- moving the cursor only drops a run
  have hsub : ((p.cut (p.current + i) n c).drop current).Sublist
      ((p.cut (p.current + i) n c).drop p.current) := by
    rcases hcurrent with rfl | rfl
    · exact List.Sublist.refl _
    · rw [← List.drop_drop]
      exact List.drop_sublist _ _
  exact ⟨rfl, hcut.sublist hsub, fun r hr => hpart r (hsub.subset hr),
    fun r hr => hapart r (hsub.subset hr), c, List.mem_of_getElem? hi, Nat.le_refl _,
    by simp only [Run.stop]; omega⟩

theorem Small.takeFixed {want : Nat} (h : p.Small) (hfixed : p.sizes = none) (hwant : 0 < want)
    (htake : p.takeFixed want = some (p', run)) :
    Took p p' run ∧ 0 < run.count ∧ run.count ≤ want ∧ ∀ r ∈ p'.runs, 0 < r.count := by
  have hpos := (h.single hfixed).2
  unfold GcPage.takeFixed at htake
  split at htake
  · rename_i c hget
    have hi : p.runs[0]? = some c := by rw [runs, List.getElem?_drop, Nat.add_zero, hget]
    have hc := hpos c (List.mem_of_getElem? hi)
    obtain ⟨rfl, rfl⟩ := Prod.mk.inj (Option.some.inj htake)
    have hle : (if c.count < want then c.count else want) ≤ c.count := by split <;> omega
    have hle' : (if c.count < want then c.count else want) ≤ want := by split <;> omega
    have hgt : 0 < (if c.count < want then c.count else want) := by split <;> omega
    generalize (if c.count < want then c.count else want) = taken at hle hle' hgt
    refine ⟨took_cut (i := 0) h.sorted hget hle (by split <;> simp), hgt, hle', ?_⟩
    have hlt : p.current < p.free.length := (List.getElem?_eq_some_iff.mp hget).1
    have htail : ∀ r ∈ p.free.drop (p.current + 1), 0 < r.count := fun r hr =>
      hpos r (by rw [← List.drop_drop] at hr; exact List.mem_of_mem_drop hr)
    intro r hr
    simp only [runs, cut] at hr
    split at hr
    · rw [List.drop_set_of_lt (Nat.lt_succ_self _)] at hr
      exact htail r hr
    · rw [List.drop_set, if_neg (Nat.lt_irrefl _), Nat.sub_self, List.drop_eq_getElem_cons hlt,
        List.set_cons_zero] at hr
      rcases List.mem_cons.mp hr with rfl | hr
      · simp only
        omega
      · exact htail r hr
  · cases htake

theorem Small.takeVar (h : p.Small) (htake : p.takeVar n = some (p', run)) :
    Took p p' run ∧ run.count = n := by
  unfold GcPage.takeVar at htake
  split at htake
  · rename_i i hfind
    split at htake
    · rename_i c hget
      obtain ⟨rfl, rfl⟩ := Prod.mk.inj (Option.some.inj htake)
      have hi : p.runs[i]? = some c := by rw [runs, List.getElem?_drop, hget]
      obtain ⟨hlt, hn, -⟩ := List.findIdx?_eq_some_iff_getElem.mp hfind
      have hc : p.runs[i] = c := (List.getElem?_eq_some_iff.mp hi).2
      rw [hc, decide_eq_true_eq] at hn
      exact ⟨took_cut h.sorted hget hn (by split <;> simp), rfl⟩
    · cases htake
  · cases htake

theorem took_first (hfree : p.free = [c]) (hcurrent : p.current = 0) (hn : n ≤ c.count) :
    p.takeFirst n = some ({ p with free := p.cut 0 n c }, ⟨c.pos, n⟩) ∧
      Took p { p with free := p.cut 0 n c } ⟨c.pos, n⟩ ∧
      ∀ r ∈ GcPage.runs { p with free := p.cut 0 n c }, r = ⟨c.pos + n, c.count - n⟩ := by
  have hget : p.free[0]? = some c := by rw [hfree]; rfl
  have hsorted : p.runs.Pairwise Run.Before := by
    rw [runs, hfree, hcurrent]
    exact List.pairwise_singleton _ _
  refine ⟨?_, ?_, ?_⟩
  · simp only [takeFirst, hget, hn, if_true]
  · have htook : Took p { p with free := p.cut (p.current + 0) n c, current := p.current }
        ⟨c.pos, n⟩ := took_cut hsorted (by rw [hcurrent]; exact hget) hn (.inl rfl)
    rw [Nat.add_zero] at htook
    simp only [hcurrent] at htook ⊢
    exact htook
  · intro r hr
    simp only [runs, cut, hfree, hcurrent, List.set_cons_zero, List.drop_zero, List.mem_singleton] at hr
    exact hr

section Took

variable {p p' : GcPage} {run : Run} (h : p.Small) (htook : Took p p' run)

include h htook

theorem Took.runsIn : ∀ r ∈ p'.runs, p.firstBlock ≤ r.pos ∧ r.stop ≤ p.maxBlocks := by
  intro r hr
  obtain ⟨c, hc, hpos, hstop⟩ := htook.part r hr
  have := h.runsIn c hc
  omega

theorem Took.runIn : p.firstBlock ≤ run.pos ∧ run.stop ≤ p.maxBlocks := by
  obtain ⟨c, hc, hpos, hstop⟩ := htook.source
  have := h.runsIn c hc
  omega

theorem Took.blocksApart : ∀ b ∈ p.blocks, ∀ r ∈ p'.runs, b.run.Apart r := by
  intro b hb r hr
  obtain ⟨c, hc, hpos, hstop⟩ := htook.part r hr
  exact (h.apart b hb c hc).part hpos hstop

theorem Took.runApart : ∀ b ∈ p.blocks, b.run.Apart run := by
  intro b hb
  obtain ⟨c, hc, hpos, hstop⟩ := htook.source
  exact (h.apart b hb c hc).part hpos hstop

theorem Took.handOut (hfixed : p.sizes = none) (hpos : ∀ r ∈ p'.runs, 0 < r.count) :
    (p'.handOut run).Small := by
  have hrun := htook.runIn h
  have hsingles : ∀ b ∈ (List.range run.count).map fun i => (⟨⟨run.pos + i, 1⟩, true⟩ : Block),
      run.pos ≤ b.run.pos ∧ b.run.stop ≤ run.stop ∧ b.run.count = 1 := by
    intro b hb
    obtain ⟨i, hi, rfl⟩ := List.mem_map.mp hb
    have := List.mem_range.mp hi
    refine ⟨Nat.le_add_right _ _, ?_, rfl⟩
    simp only [Run.stop]
    omega
  rw [htook.same]
  constructor
  case part => exact h.part
  case range => exact h.range
  case sorted => exact htook.sorted
  case runsIn => exact fun r hr => htook.runsIn h r hr
  case blocksIn =>
    intro b hb
    rcases List.mem_append.mp hb with hb | hb
    · exact h.blocksIn b hb
    · have := hsingles b hb
      simp only [GcPage.handOut]
      omega
  case disjoint =>
    refine List.pairwise_append.mpr ⟨h.disjoint, ?_, fun a ha b hb => ?_⟩
    · refine List.pairwise_map.mpr (List.pairwise_lt_range.imp fun {i j} hij => .inl ?_)
      simp only [Run.Before, Run.stop]
      omega
    · have := hsingles b hb
      exact (htook.runApart h a ha).part this.1 this.2.1
  case apart =>
    intro b hb r hr
    rcases List.mem_append.mp hb with hb | hb
    · exact htook.blocksApart h b hb r hr
    · have := hsingles b hb
      exact ((htook.apart r hr).symm.part this.1 this.2.1).symm
  case sized => exact fun l hl => absurd (hfixed.symm.trans hl) (by simp)
  case single =>
    refine fun _ => ⟨fun b hb => ?_, hpos⟩
    rcases List.mem_append.mp hb with hb | hb
    · exact (h.single hfixed).1 b hb
    · exact (hsingles b hb).2.2
  case varsize => exact h.varsize
  case bits => exact h.bits
  case flush => exact h.flush

end Took

theorem getElem?_zeroed {l : List Nat} {pos count : Nat} (hle : pos + count ≤ l.length) (x : Nat) :
    (l.take pos ++ List.replicate count 0 ++ l.drop (pos + count))[x]? =
      if pos ≤ x ∧ x < pos + count then some 0 else l[x]? := by
  have htake : (l.take pos).length = pos := by rw [List.length_take]; omega
  rcases Nat.lt_or_ge x pos with hx | hx
  · rw [if_neg (by omega), List.append_assoc, List.getElem?_append_left (by omega), List.getElem?_take_of_lt hx]
  · rcases Nat.lt_or_ge x (pos + count) with hx' | hx'
    · rw [if_pos ⟨hx, hx'⟩, List.append_assoc, List.getElem?_append_right (by omega),
        List.getElem?_append_left (by simp; omega), List.getElem?_replicate, if_pos (by omega)]
    · rw [if_neg (by omega), List.getElem?_append_right (by simp; omega), List.getElem?_drop]
      congr 1
      simp only [List.length_append, List.length_replicate, htake]
      omega

theorem Took.recordVar (h : p.Small) (htook : Took p p' run) (hvar : p.sizes.isSome = true)
    (hpos : 0 < run.count) (hcount : run.count < 256) :
    ∃ q, p'.recordVar run = .ok q ∧ q.Small ∧ q.pid = p.pid ∧ q.nextPage = p.nextPage ∧
      q.blocks = p.blocks ++ [⟨run, true⟩] := by
  obtain ⟨l, hl⟩ := Option.isSome_iff_exists.mp hvar
  have hsized := h.sized l hl
  have hrun := htook.runIn h
  have hlength : run.stop ≤ l.length := by rw [hsized.length]; exact hrun.2
  have hmod : run.count % 256 = run.count := Nat.mod_eq_of_lt hcount
  -- the table after the write
  have hget : ∀ x, ((if 1 < run.count then
      l.take run.pos ++ List.replicate run.count 0 ++ l.drop run.stop else l).set run.pos run.count)[x]? =
      if x = run.pos then some run.count else if run.Has x then some 0 else l[x]? := by
    intro x
    have hlt : run.pos < (if 1 < run.count then
        l.take run.pos ++ List.replicate run.count 0 ++ l.drop run.stop else l).length := by
      simp only [Run.stop] at hlength ⊢
      split
      · simp
        omega
      · omega
    by_cases hx : x = run.pos
    · subst hx
      rw [List.getElem?_set_self hlt, if_pos rfl]
    · rw [List.getElem?_set_ne (Ne.symm hx), if_neg hx]
      split
      · rw [Run.stop, getElem?_zeroed hlength]
        rfl
      · rw [if_neg]
        simp only [Run.Has, Run.stop]
        omega
  have hsame := htook.same
  have hp'sizes : p'.sizes = some l := by rw [hsame]; exact hl
  unfold GcPage.recordVar
  rw [hp'sizes]
  simp only [hlength, if_true, hmod]
  refine ⟨_, rfl, ?_, by rw [hsame], by rw [hsame], by rw [hsame]⟩
  rw [hsame]
  constructor
  case part => exact h.part
  case range => exact h.range
  case sorted => exact htook.sorted
  case runsIn => exact fun r hr => htook.runsIn h r hr
  case blocksIn =>
    intro b hb
    rcases List.mem_append.mp hb with hb | hb
    · exact h.blocksIn b hb
    · obtain rfl := List.mem_singleton.mp hb
      exact ⟨hpos, hrun⟩
  case disjoint =>
    refine List.pairwise_append.mpr ⟨h.disjoint, List.pairwise_singleton _ _, fun a ha b hb => ?_⟩
    obtain rfl := List.mem_singleton.mp hb
    exact htook.runApart h a ha
  case apart =>
    intro b hb r hr
    rcases List.mem_append.mp hb with hb | hb
    · exact htook.blocksApart h b hb r hr
    · obtain rfl := List.mem_singleton.mp hb
      exact htook.apart r hr
  case sized =>
    intro l' hl'
    cases hl'
    refine ⟨?_, fun b hb _ => ?_, fun x hx hx' hnone => ?_⟩
    · rw [List.length_set]
      split
      · have := hsized.length
        simp only [Run.stop] at hlength ⊢
        simp
        omega
      · exact hsized.length
    · rw [hget]
      rcases List.mem_append.mp hb with hb | hb
      · have happart := htook.runApart h b hb
        have hb' := h.blocksIn b hb
        have hne : ¬run.Has b.run.pos := by
          simp only [Run.Apart, Run.Before, Run.Has, Run.stop] at happart hb' ⊢
          omega
        have hne' : b.run.pos ≠ run.pos := by
          rintro heq
          exact hne ⟨by omega, by simp only [Run.stop]; omega⟩
        rw [if_neg hne', if_neg hne]
        exact hsized.start b hb trivial
      · obtain rfl := List.mem_singleton.mp hb
        rw [if_pos rfl]
    · rw [hget]
      have hne : x ≠ run.pos := fun heq =>
        hnone ⟨run, true⟩ (by simp) trivial heq.symm
      rw [if_neg hne]
      split
      · rfl
      · exact hsized.other x hx hx' fun b hb _ => hnone b (List.mem_append_left _ hb) trivial
  case single => exact fun hnone => by cases hnone
  case varsize =>
    rw [← h.varsize, hl]
    rfl
  case bits =>
    intro bmp' hbmp'
    obtain ⟨bmp, hbmp, rfl⟩ := Option.map_eq_some_iff.mp hbmp'
    rw [List.length_set]
    exact h.bits bmp hbmp
  case flush =>
    intro hflush
    rw [Option.isSome_map]
    exact h.flush hflush

end GcPage

end HashLink.Gc
