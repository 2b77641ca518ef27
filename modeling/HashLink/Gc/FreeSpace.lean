import HashLink.Gc.AllocatorSafety

/-! The free space of a variable page between two sweeps. A request takes the front of the first run it
fits in; when it uses up that run the cursor moves on by one, whichever run it was. A block that nobody
holds stays on the list exactly when the run the cursor leaves has no block left. -/

namespace HashLink.Gc

open RunList

namespace GcPage

/-- Every block of the page that nobody holds is in a run at or after the cursor; those before
`firstBlock` are reserved for the table of sizes. -/
def Covered (p : GcPage) : Prop :=
  ∀ x, p.firstBlock ≤ x → x < p.maxBlocks → (∃ b ∈ p.blocks, b.run.Has x) ∨ Covers p.runs x

/-- A request that fits in blocks nobody holds gets them from the page. -/
def Serves (p : GcPage) : Prop :=
  ∀ x n, 0 < n → p.firstBlock ≤ x → x + n ≤ p.maxBlocks →
    (∀ y, x ≤ y → y < x + n → ∀ b ∈ p.blocks, ¬b.run.Has y) → (p.takeVar n).isSome = true

def AtCursor (n : Nat) (p : GcPage) : Prop :=
  ∀ i c, p.runs.findIdx? (fun c => n ≤ c.count) = some i → p.runs[i]? = some c → c.count = n →
    i = 0 ∨ ∃ c₀, p.runs[0]? = some c₀ ∧ c₀.count = 0

/-- What happens to a variable page: requests, and the steps of a collector. -/
inductive PageEvent where
  | alloc (n : Nat)
  | mark (bid : Nat)
  | beforeMark
  | rebuild
  | prepare
  | publish

def pageStep (p : GcPage) : PageEvent → Except AllocError GcPage
  | .alloc n => do
      let p ← p.flushed
      match p.takeVar n with
      | some (p', run) => p'.recordVar run
      | none => .ok p
  | .mark bid => .ok (Allocator.markBlock p bid)
  | .beforeMark => .ok { p with bmp := some (List.replicate p.maxBlocks false), needFlush := true }
  | .rebuild => p.flushed
  | .prepare => Allocator.gcIncPreparePage p
  | .publish => .ok (Allocator.gcIncPublishMarks p)

def pageRun (p : GcPage) : List PageEvent → Except AllocError GcPage
  | [] => .ok p
  | e :: events => (p.pageStep e).bind fun p => p.pageRun events

/-- The new page of `gc_alloc_var` after it has given the blocks it was made for. -/
def newVarPage (pid : Pid) (psize n : Nat) (incremental : Bool) (next : Option Nat) :
    Except AllocError GcPage :=
  match (Allocator.freshPage pid (gcSizes pid.part) (psize / gcSizes pid.part) true incremental
    next).takeFirst n with
  | some (p, run) => p.recordVar run
  | none => .error .badAccess

/-- A page as its runs leave it, with marks on blocks only. -/
structure Laid (p : GcPage) : Prop where
  small : p.Small
  var : p.sizes.isSome = true
  marks : ∀ x, p.marked x = true → ∃ b ∈ p.blocks, b.run.pos = x
  gapped : Gapped p.runs

variable {p q : GcPage}

theorem Sweep.leaves {first last bid : Nat} {blocks : List Block} {bmp : List Bool} {reuse acc : List Run}
    {sizes : Option (List Nat)} (h : Sweep first last blocks bmp bid reuse acc sizes)
    (hmarks : ∀ x, bmp.getD x false = true → ∃ b ∈ blocks, b.run.pos = x) (hgapped : Gapped acc)
    (hbefore : ∀ x, first ≤ x → x < bid →
      (∃ b ∈ blocks, bmp.getD b.run.pos false = true ∧ b.run.Has x) ∨ Covers acc x) :
    Gapped (flushLoop bmp last bid reuse acc sizes).1 ∧ ∀ x, first ≤ x → x < last →
      (∃ b ∈ blocks, bmp.getD b.run.pos false = true ∧ b.run.Has x) ∨
        Covers (flushLoop bmp last bid reuse acc sizes).1 x := by
  fun_induction flushLoop bmp last bid reuse acc sizes with
  | case1 bid reuse acc sizes hlt r rest hreuse ih =>
    obtain ⟨rfl, hpos⟩ := nextReuse_eq hreuse
    refine ih (h.reused hpos) (hgapped.push fun t ht => ?_) fun x hx hlt => ?_
    · rw [hpos]
      exact (h.accIn t ht).2
    · by_cases hold : x < bid
      · exact (hbefore x hx hold).imp_right fun hcovers => covers_push (.inl hcovers)
      · refine .inr (covers_push (.inr ?_))
        simp only [Run.Has, Run.stop]
        omega
  | case2 bid reuse acc sizes hlt hreuse hmarked ih =>
    refine ih (h.kept hlt hreuse hmarked) hgapped fun x hx hlt' => ?_
    by_cases hold : x < bid
    · exact hbefore x hx hold
    · obtain ⟨b, hb, hpos, hcount⟩ : ∃ b ∈ blocks, b.run.pos = bid ∧ pieceCount sizes bid = b.run.count := by
        rcases h.piece hlt with hblock | ⟨hnone, -⟩
        · exact hblock
        · obtain ⟨b, hb, hpos⟩ := hmarks bid hmarked
          exact absurd hpos (hnone b hb)
      refine .inl ⟨b, hb, by rw [hpos]; exact hmarked, ?_⟩
      simp only [Run.Has, Run.stop]
      omega
  | case3 bid reuse acc sizes hlt hreuse hmarked ih =>
    refine ih (h.freed hlt hreuse (by simpa using hmarked)) (hgapped.push fun t ht => (h.accIn t ht).2)
      fun x hx hlt' => ?_
    by_cases hold : x < bid
    · exact (hbefore x hx hold).imp_right fun hcovers => covers_push (.inl hcovers)
    · refine .inr (covers_push (.inr ?_))
      simp only [Run.Has, Run.stop]
      omega
  | case4 bid reuse acc sizes hge => exact ⟨hgapped, fun x hx hlt => hbefore x hx (by omega)⟩

theorem Laid.flushFreeList (h : p.Laid) (hneed : p.needFlush = true) :
    ∃ q, p.flushFreeList = .ok q ∧ q.Laid ∧ q.Covered := by
  obtain ⟨q, hq, hsmall, -⟩ := h.small.flushFreeList hneed
  obtain ⟨bmp, hbmp⟩ := Option.isSome_iff_exists.mp (h.small.flush hneed)
  have hmarks : ∀ x, bmp.getD x false = true → ∃ b ∈ p.blocks, b.run.pos = x := by
    intro x hx
    refine h.marks x ?_
    rw [marked, hbmp]
    exact hx
  obtain ⟨hgapped, hcovers⟩ := (h.small.sweep bmp).leaves hmarks List.Pairwise.nil fun x hx hlt => by omega
  refine ⟨q, hq, ?_⟩
  rw [GcPage.flushFreeList, hbmp] at hq
  cases hq
  have hkeep : ∀ b ∈ p.blocks, bmp.getD b.run.pos false = true →
      ({ b with recent := false } : Block) ∈ (p.blocks.filter fun b => bmp.getD b.run.pos false).map
        fun b => ({ b with recent := false } : Block) :=
    fun b hb hmarked => List.mem_map.mpr ⟨b, List.mem_filter.mpr ⟨hb, hmarked⟩, rfl⟩
  refine ⟨⟨hsmall, ?_, fun x hx => ?_, hgapped⟩, fun x hx hlt => ?_⟩
  · rw [Option.isSome_iff_ne_none]
    exact fun hnone => Option.isSome_iff_ne_none.mp h.var (flushLoop_sizes.mp hnone)
  · have hx : bmp.getD x false = true := hx
    obtain ⟨b, hb, hpos⟩ := hmarks x hx
    exact ⟨_, hkeep b hb (by rw [hpos]; exact hx), hpos⟩
  · rcases hcovers x hx hlt with ⟨b, hb, hmarked, hhas⟩ | hcovers
    · exact .inl ⟨_, hkeep b hb hmarked, hhas⟩
    · exact .inr hcovers

theorem Laid.flushed (h : p.Laid) : ∃ q, p.flushed = .ok q ∧ q.Laid ∧ (p.Covered → q.Covered) := by
  unfold GcPage.flushed
  split
  · rename_i hneed
    obtain ⟨q, hq, hlaid, hcovered⟩ := h.flushFreeList hneed
    exact ⟨q, hq, hlaid, fun _ => hcovered⟩
  · exact ⟨p, rfl, h, id⟩

variable {n : Nat} {p' : GcPage}

theorem takeVar_eq {run : Run} (h : p.takeVar n = some (p', run)) :
    ∃ i c, p.runs.findIdx? (fun c => n ≤ c.count) = some i ∧ p.runs[i]? = some c ∧ n ≤ c.count ∧
      run = ⟨c.pos, n⟩ ∧ p' = { p with free := p'.free, current := p'.current } ∧
      p'.runs = if c.count = n then
        (p.runs.take i ++ ⟨c.pos + n, c.count - n⟩ :: p.runs.drop (i + 1)).drop 1
      else p.runs.take i ++ ⟨c.pos + n, c.count - n⟩ :: p.runs.drop (i + 1) := by
  unfold takeVar at h
  split at h
  · rename_i i hfind
    split at h
    · rename_i c hget
      obtain ⟨rfl, rfl⟩ := Prod.mk.inj (Option.some.inj h)
      have hi : p.runs[i]? = some c := by rw [runs, List.getElem?_drop, hget]
      obtain ⟨hlt, hn, -⟩ := List.findIdx?_eq_some_iff_getElem.mp hfind
      rw [(List.getElem?_eq_some_iff.mp hi).2, decide_eq_true_eq] at hn
      refine ⟨i, c, hfind, hi, hn, rfl, rfl, ?_⟩
      rw [← (drop_cut n hi).2]
      show (p.cut (p.current + i) n c).drop (if c.count - n = 0 then p.current + 1 else p.current) = _
      by_cases heq : c.count = n
      · rw [if_pos (by omega), if_pos heq, List.drop_drop]
      · rw [if_neg (by omega), if_neg heq]
    · cases h
  · cases h

theorem takeVar_none (h : p.takeVar n = none) : ∀ c ∈ p.runs, c.count < n := by
  unfold takeVar at h
  split at h
  · rename_i i hfind
    split at h
    · cases h
    · rename_i hget
      obtain ⟨hlt, -⟩ := List.findIdx?_eq_some_iff_getElem.mp hfind
      have hi : p.runs[i]? = none := by rw [runs, List.getElem?_drop, hget]
      exact absurd (List.getElem?_eq_none_iff.mp hi) (Nat.not_le_of_lt hlt)
  · rename_i hfind
    intro c hc
    have hnot := List.findIdx?_eq_none_iff.mp hfind c hc
    exact Nat.lt_of_not_le (of_decide_eq_false hnot)

theorem recordVar_eq {run : Run} (h : p.recordVar run = .ok q) :
    q = { p with
      bmp := p.bmp.map fun bmp => bmp.set run.pos true
      sizes := q.sizes
      blocks := p.blocks ++ [⟨run, true⟩] } := by
  unfold recordVar at h
  split at h
  · cases h
  · split at h
    · cases h
      rfl
    · cases h

theorem covers_cut {left right : List Run} {c : Run} {x : Nat} (h : Covers (left ++ c :: right) x) :
    (Run.mk c.pos n).Has x ∨ Covers (left ++ ⟨c.pos + n, c.count - n⟩ :: right) x := by
  rw [covers_append, covers_cons] at h ⊢
  rcases h with h | h | h
  · exact .inr (.inl h)
  · by_cases hx : x < c.pos + n
    · left
      simp only [Run.Has, Run.stop] at h ⊢
      omega
    · right
      right
      left
      simp only [Run.Has, Run.stop] at h ⊢
      omega
  · exact .inr (.inr (.inr h))

theorem gapped_cut {left right : List Run} {c : Run} (h : Gapped (left ++ c :: right)) (hn : n ≤ c.count) :
    Gapped (left ++ ⟨c.pos + n, c.count - n⟩ :: right) := by
  obtain ⟨hleft, hright, hcross⟩ := List.pairwise_append.mp h
  obtain ⟨hafter, hright⟩ := List.pairwise_cons.mp hright
  refine List.pairwise_append.mpr ⟨hleft, List.pairwise_cons.mpr ⟨fun r hr => ?_, hright⟩, fun a ha b hb => ?_⟩
  · have := hafter r hr
    simp only [Run.stop] at this ⊢
    omega
  · rcases List.mem_cons.mp hb with rfl | hb
    · have := hcross a ha c List.mem_cons_self
      simp only [Run.stop] at this ⊢
      omega
    · exact hcross a ha b (List.mem_cons_of_mem c hb)

theorem Laid.record (h : p.Laid) {run : Run} (htook : Took p p' run) (hgapped : Gapped p'.runs)
    (hpos : 0 < run.count) (hcount : run.count < 255) :
    ∃ q, p'.recordVar run = .ok q ∧ q.Laid ∧ q.blocks = p.blocks ++ [⟨run, true⟩] ∧
      q.runs = p'.runs ∧ q.firstBlock = p.firstBlock ∧ q.maxBlocks = p.maxBlocks := by
  obtain ⟨q, hq, hsmall, -, -, hblocks⟩ := htook.recordVar h.small h.var hpos (by omega)
  have heq := recordVar_eq hq
  have hsame := htook.same
  have hruns : q.runs = p'.runs := by rw [heq]; rfl
  refine ⟨q, hq, ⟨hsmall, ?_, fun x hx => ?_, by rw [hruns]; exact hgapped⟩, hblocks, hruns,
    by rw [heq, hsame], by rw [heq, hsame]⟩
  · rw [hsmall.varsize]
    have hpid : q.pid = p.pid := by rw [heq, hsame]
    rw [hpid, ← h.small.varsize]
    exact h.var
  · rw [hblocks]
    by_cases hx' : x = run.pos
    · exact ⟨⟨run, true⟩, by simp, hx'.symm⟩
    · have hold : p.marked x = true := by
        have hbmp : q.bmp = p.bmp.map fun bmp => bmp.set run.pos true := by rw [heq, hsame]
        rw [marked, hbmp] at hx
        rw [marked]
        cases hp : p.bmp with
        | none =>
          rw [hp] at hx
          cases hx
        | some bmp =>
          rw [hp] at hx
          have hx : (bmp.set run.pos true).getD x false = true := hx
          rw [List.getD_eq_getElem?_getD, List.getElem?_set_ne (Ne.symm hx')] at hx
          show bmp.getD x false = true
          rw [List.getD_eq_getElem?_getD]
          exact hx
      obtain ⟨b, hb, hbx⟩ := h.marks x hold
      exact ⟨b, List.mem_append_left _ hb, hbx⟩

theorem lost_of_not_atCursor (h : p.Small) {left right : List Run} {c₀ c : Run} {run : Run} (hne : c₀.count ≠ 0)
    (hruns : p.runs = c₀ :: left ++ c :: right) (hrun : c.pos ≤ run.pos ∧ run.stop ≤ c.stop)
    {tail : List Run} (htail : ∀ r ∈ tail, ∃ t ∈ left ++ c :: right, t.pos ≤ r.pos) :
    p.firstBlock ≤ c₀.pos ∧ c₀.pos < p.maxBlocks ∧ (∀ b ∈ p.blocks, ¬b.run.Has c₀.pos) ∧
      ¬run.Has c₀.pos ∧ ¬Covers tail c₀.pos := by
  have hc₀ : c₀ ∈ p.runs := by rw [hruns]; exact List.mem_cons_self
  have hsorted := h.sorted
  rw [hruns, List.cons_append] at hsorted
  have hafter := (List.pairwise_cons.mp hsorted).1
  have hin := h.runsIn c₀ hc₀
  have hself : c₀.Has c₀.pos := by
    simp only [Run.Has, Run.stop]
    omega
  refine ⟨hin.1, ?_, fun b hb hhas => (h.apart b hb c₀ hc₀).disjoint _ ⟨hhas, hself⟩, fun hhas => ?_, ?_⟩
  · simp only [Run.stop] at hin
    omega
  · have hbefore := hafter c (by simp)
    simp only [Run.Before, Run.Has, Run.stop] at hbefore hhas hrun
    omega
  · rintro ⟨r, hr, hhas⟩
    obtain ⟨t, ht, hpos⟩ := htail r hr
    have hbefore := hafter t ht
    simp only [Run.Before, Run.Has, Run.stop] at hbefore hhas
    omega

theorem covers_tail {c₀ : Run} {runs : List Run} (hempty : c₀.count = 0) {x : Nat} (h : Covers (c₀ :: runs) x) :
    Covers runs x := by
  rcases covers_cons.mp h with h | h
  · simp only [Run.Has, Run.stop] at h
    omega
  · exact h

/-- The runs a request leaves, split at the run it is served from. -/
structure Served (n : Nat) (p p' : GcPage) (run : Run) (left right : List Run) (c : Run) : Prop where
  runs : p.runs = left ++ c :: right
  find : p.runs.findIdx? (fun c => n ≤ c.count) = some left.length
  run : run = ⟨c.pos, n⟩
  le : n ≤ c.count
  same : p' = { p with free := p'.free, current := p'.current }
  rest : p'.runs = if c.count = n then (left ++ ⟨c.pos + n, c.count - n⟩ :: right).drop 1
    else left ++ ⟨c.pos + n, c.count - n⟩ :: right

theorem takeVar_served {run : Run} (h : p.takeVar n = some (p', run)) :
    ∃ left right c, Served n p p' run left right c := by
  obtain ⟨i, c, hfind, hi, hn, hrun, hsame, hrest⟩ := takeVar_eq h
  have hlt : i < p.runs.length := (List.getElem?_eq_some_iff.mp hi).1
  refine ⟨p.runs.take i, p.runs.drop (i + 1), c, (drop_cut n hi).1, ?_, hrun, hn, hsame, hrest⟩
  rw [List.length_take, Nat.min_eq_left (Nat.le_of_lt hlt)]
  exact hfind

section Served

variable {n : Nat} {p' : GcPage} {run c : Run} {left right : List Run}

theorem Served.atCursor_iff (h : Served n p p' run left right c) :
    p.AtCursor n ↔ (c.count = n → left = [] ∨ ∃ c₀ rest, left = c₀ :: rest ∧ c₀.count = 0) := by
  have hc : p.runs[left.length]? = some c := by rw [h.runs]; simp
  constructor
  · intro hat hcount
    cases left with
    | nil => exact .inl rfl
    | cons c₀ rest =>
      right
      rcases hat _ c h.find hc hcount with hzero | ⟨c₁, hc₁, hempty⟩
      · cases hzero
      · rw [h.runs] at hc₁
        cases hc₁
        exact ⟨c₀, rest, rfl, hempty⟩
  · intro hat i c' hfind hget hcount
    obtain rfl : left.length = i := Option.some.inj (h.find.symm.trans hfind)
    obtain rfl : c = c' := Option.some.inj (hc.symm.trans hget)
    rcases hat hcount with rfl | ⟨c₀, rest, rfl, hempty⟩
    · exact .inl rfl
    · exact .inr ⟨c₀, by rw [h.runs]; rfl, hempty⟩

theorem Served.gapped (h : Served n p p' run left right c) (hgapped : Gapped p.runs) : Gapped p'.runs := by
  rw [h.runs] at hgapped
  have hcut := gapped_cut hgapped h.le
  rw [h.rest]
  split
  · exact hcut.sublist (List.drop_sublist _ _)
  · exact hcut

theorem Served.keeps (h : Served n p p' run left right c) (hat : p.AtCursor n) {x : Nat}
    (hx : Covers p.runs x) : run.Has x ∨ Covers p'.runs x := by
  rw [h.runs] at hx
  rw [h.run, h.rest]
  refine (covers_cut hx).imp_right fun hcovers => ?_
  split
  · rename_i hcount
    rcases h.atCursor_iff.mp hat hcount with rfl | ⟨c₀, rest, rfl, hempty⟩
    · exact covers_tail (by simp only; omega) hcovers
    · exact covers_tail hempty hcovers
  · exact hcovers

theorem Served.loses (h : Served n p p' run left right c) (hsmall : p.Small) (hat : ¬p.AtCursor n) :
    ∃ x, p.firstBlock ≤ x ∧ x < p.maxBlocks ∧ (∀ b ∈ p.blocks, ¬b.run.Has x) ∧ ¬run.Has x ∧
      ¬Covers p'.runs x := by
  rw [h.atCursor_iff] at hat
  push Not at hat
  obtain ⟨hcount, hleft, hnone⟩ := hat
  cases left with
  | nil => exact absurd rfl hleft
  | cons c₀ rest =>
    have hne : c₀.count ≠ 0 := hnone c₀ rest rfl
    refine ⟨c₀.pos, lost_of_not_atCursor hsmall hne h.runs ?_ fun r hr => ?_⟩
    · rw [h.run]
      refine ⟨Nat.le_refl _, ?_⟩
      simp only [Run.stop]
      have := h.le
      omega
    · rw [h.rest, if_pos hcount] at hr
      have hr : r ∈ rest ++ ⟨c.pos + n, c.count - n⟩ :: right := hr
      rcases List.mem_append.mp hr with hr | hr
      · exact ⟨r, List.mem_append_left _ hr, Nat.le_refl _⟩
      · rcases List.mem_cons.mp hr with rfl | hr
        · exact ⟨c, by simp, Nat.le_add_right _ _⟩
        · exact ⟨r, by simp [hr], Nat.le_refl _⟩

end Served

theorem Laid.request (h : p.Laid) (hn : 0 < n ∧ n < 255) :
    ∃ q, (match p.takeVar n with
      | some (p', run) => p'.recordVar run
      | none => .ok p) = .ok q ∧ q.Laid ∧ (p.Covered → (q.Covered ↔ p.AtCursor n)) := by
  cases htake : p.takeVar n with
  | none =>
    refine ⟨p, rfl, h, fun hcovered => ⟨fun _ i c hfind hget _ => ?_, fun _ => hcovered⟩⟩
    obtain ⟨hlt, hle, -⟩ := List.findIdx?_eq_some_iff_getElem.mp hfind
    have := takeVar_none htake _ (List.getElem_mem hlt)
    exact absurd (of_decide_eq_true hle) (Nat.not_le_of_lt this)
  | some taken =>
    obtain ⟨p', run⟩ := taken
    obtain ⟨htook, hcount⟩ := h.small.takeVar htake
    obtain ⟨left, right, c, hserved⟩ := takeVar_served htake
    obtain ⟨q, hq, hlaid, hblocks, hruns, hfirst, hmax⟩ :=
      h.record htook (hserved.gapped h.gapped) (by omega) (by omega)
    refine ⟨q, hq, hlaid, fun hcovered => ⟨fun hcov => ?_, fun hat x hx hlt => ?_⟩⟩
    · by_contra hat
      obtain ⟨x, hx, hlt, hfree, hrun, hlost⟩ := hserved.loses h.small hat
      rcases hcov x (hfirst ▸ hx) (hmax ▸ hlt) with ⟨b, hb, hhas⟩ | hcovers
      · rw [hblocks] at hb
        rcases List.mem_append.mp hb with hb | hb
        · exact hfree b hb hhas
        · obtain rfl := List.mem_singleton.mp hb
          exact hrun hhas
      · exact hlost (hruns ▸ hcovers)
    · rw [hblocks, hruns]
      rcases hcovered x (hfirst ▸ hx) (hmax ▸ hlt) with ⟨b, hb, hhas⟩ | hcovers
      · exact .inl ⟨b, List.mem_append_left _ hb, hhas⟩
      · rcases hserved.keeps hat hcovers with hhas | hcovers
        · exact .inl ⟨⟨run, true⟩, by simp, hhas⟩
        · exact .inr hcovers

theorem Laid.serves (h : p.Laid) (hcovered : p.Covered) : p.Serves := by
  intro x n hn hx hle hfree
  obtain ⟨k, rfl⟩ := Nat.exists_eq_add_of_lt hn
  rw [Nat.zero_add] at *
  obtain ⟨r, hr, hpos, hstop⟩ := h.gapped.stretch (x := x) (n := k) fun y hy hlt => by
    rcases hcovered y (by omega) (by omega) with ⟨b, hb, hhas⟩ | hcovers
    · exact absurd hhas (hfree y hy hlt b hb)
    · exact hcovers
  cases htake : p.takeVar (k + 1) with
  | some _ => rfl
  | none =>
    have := takeVar_none htake r hr
    simp only [Run.stop] at hstop
    omega

theorem Laid.setBits (h : p.Laid) {bmp : Option (List Bool)} {needFlush : Bool}
    (hbits : ∀ l, bmp = some l → l.length = p.maxBlocks) (hflush : needFlush = true → bmp.isSome)
    (hmarks : ∀ l x, bmp = some l → l.getD x false = true → ∃ b ∈ p.blocks, b.run.pos = x) :
    Laid { p with bmp, needFlush } where
  small := Allocator.small_setBits h.small hbits hflush
  var := h.var
  marks x hx := by
    cases bmp with
    | none => cases hx
    | some l => exact hmarks l x rfl hx
  gapped := h.gapped

theorem Laid.clear (h : p.Laid) (needFlush : Bool) :
    Laid { p with bmp := some (List.replicate p.maxBlocks false), needFlush } := by
  refine h.setBits (fun l hl => ?_) (fun _ => rfl) fun l x hl hx => ?_
  · cases hl
    exact List.length_replicate
  · cases hl
    rw [List.getD_eq_getElem?_getD, List.getElem?_replicate] at hx
    split at hx <;> cases hx

theorem Laid.markBlock (h : p.Laid) (bid : Nat) : (Allocator.markBlock p bid).Laid := by
  unfold Allocator.markBlock
  split
  · rename_i hany
    obtain ⟨b, hb, hpos⟩ := List.any_eq_true.mp hany
    refine h.setBits (fun l hl => ?_) (fun hneed => ?_) fun l x hl hx => ?_
    · obtain ⟨bmp, hbmp, rfl⟩ := Option.map_eq_some_iff.mp hl
      rw [List.length_set]
      exact h.small.bits bmp hbmp
    · rw [Option.isSome_map]
      exact h.small.flush hneed
    · obtain ⟨bmp, hbmp, rfl⟩ := Option.map_eq_some_iff.mp hl
      by_cases heq : x = bid
      · exact ⟨b, hb, (of_decide_eq_true hpos).trans heq.symm⟩
      · refine h.marks x ?_
        rw [marked, hbmp]
        rw [List.getD_eq_getElem?_getD, List.getElem?_set_ne (Ne.symm heq)] at hx
        show bmp.getD x false = true
        rw [List.getD_eq_getElem?_getD]
        exact hx
  · exact h

theorem Laid.step (h : p.Laid) {e : PageEvent} (hreq : ∀ n, e = .alloc n → 0 < n ∧ n < 255) :
    ∃ q, p.pageStep e = .ok q ∧ q.Laid ∧ (p.Covered →
      (q.Covered ↔ ∀ n p', e = .alloc n → p.flushed = .ok p' → p'.AtCursor n)) := by
  obtain ⟨p', hflushed, hlaid, hcov⟩ := h.flushed
  cases e with
  | alloc n =>
    obtain ⟨q, hq, hlaid', hiff⟩ := hlaid.request (hreq n rfl)
    refine ⟨q, ?_, hlaid', fun hcovered => (hiff (hcov hcovered)).trans
      ⟨fun hat n' p'' hn hp'' => ?_, fun hat => hat n p' rfl hflushed⟩⟩
    · rw [pageStep, hflushed]
      exact hq
    · cases hn
      cases hflushed.symm.trans hp''
      exact hat
  | mark bid =>
    refine ⟨_, rfl, h.markBlock bid, fun hcovered => iff_of_true ?_ fun _ _ he => by cases he⟩
    unfold Allocator.markBlock
    split
    · exact hcovered
    · exact hcovered
  | beforeMark => exact ⟨_, rfl, h.clear true, fun hcovered => iff_of_true hcovered fun _ _ he => by cases he⟩
  | rebuild => exact ⟨p', hflushed, hlaid, fun hcovered => iff_of_true (hcov hcovered) fun _ _ he => by cases he⟩
  | prepare =>
    refine ⟨{ p' with bmp := some (List.replicate p'.maxBlocks false) }, ?_, hlaid.clear _,
      fun hcovered => iff_of_true (hcov hcovered) fun _ _ he => by cases he⟩
    rw [pageStep, Allocator.gcIncPreparePage, hflushed]
    rfl
  | publish =>
    refine ⟨_, rfl, ?_, fun hcovered => iff_of_true ?_ fun _ _ he => by cases he⟩
    · unfold Allocator.gcIncPublishMarks
      split
      · rename_i hsome
        refine h.setBits h.small.bits (fun _ => hsome) fun l x hl hx => h.marks x ?_
        rw [marked, hl]
        exact hx
      · exact h
    · unfold Allocator.gcIncPublishMarks
      split
      · exact hcovered
      · exact hcovered

theorem laid_newVarPage {pid : Pid} {psize : Nat} {incremental : Bool} {next : Option Nat}
    (hpart : gcFixedParts ≤ pid.part ∧ pid.part < gcLargePart) (hn : 0 < n ∧ n < 255)
    (hnew : newVarPage pid psize n incremental next = .ok p) : p.Laid ∧ p.Covered := by
  unfold newVarPage at hnew
  generalize hfresh : Allocator.freshPage pid (gcSizes pid.part) (psize / gcSizes pid.part) true incremental
    next = f at hnew
  obtain ⟨c, hfree, hcurrent⟩ : ∃ c, f.free = [c] ∧ f.current = 0 := by
    rw [← hfresh]
    exact ⟨_, rfl, rfl⟩
  have hc : c = ⟨f.firstBlock, f.maxBlocks - f.firstBlock⟩ := by
    rw [← hfresh] at hfree ⊢
    exact (List.singleton_inj.mp hfree).symm
  have hroom : n ≤ c.count := by
    by_contra hnot
    rw [takeFirst, hfree] at hnew
    simp only [List.getElem?_cons_zero, if_neg hnot] at hnew
    cases hnew
  obtain ⟨htake, htook, hruns⟩ := took_first hfree hcurrent hroom
  rw [htake] at hnew
  have hlt : f.firstBlock < f.maxBlocks := by
    rw [hc] at hroom
    simp only at hroom
    omega
  have hsmall : f.Small := by
    rw [← hfresh] at hlt ⊢
    exact Allocator.small_freshPage incremental next hpart.2 (decide_eq_true hpart.1).symm hlt
  have hlaid : f.Laid := by
    refine ⟨hsmall, by rw [← hfresh]; rfl, fun x hx => ?_, ?_⟩
    · rw [← hfresh, marked] at hx
      cases incremental with
      | false => cases hx
      | true =>
        have hx : (List.replicate (psize / gcSizes pid.part) false).getD x false = true := hx
        rw [List.getD_eq_getElem?_getD, List.getElem?_replicate] at hx
        split at hx <;> cases hx
    · rw [runs, hfree, hcurrent]
      exact List.pairwise_singleton _ _
  have hrest : ({ f with free := f.cut 0 n c } : GcPage).runs = [⟨c.pos + n, c.count - n⟩] := by
    rw [runs, cut, hfree, hcurrent]
    rfl
  obtain ⟨q, hq, hlaid', hblocks, hqruns, hfirst, hmax⟩ :=
    hlaid.record htook (by rw [hrest]; exact List.pairwise_singleton _ _) hn.1 hn.2
  cases hq.symm.trans hnew
  refine ⟨hlaid', fun x hx hlt' => ?_⟩
  rw [hblocks, hqruns, hrest]
  rw [hfirst] at hx
  rw [hmax] at hlt'
  by_cases hold : x < c.pos + n
  · refine .inl ⟨⟨⟨c.pos, n⟩, true⟩, by simp, ?_⟩
    rw [hc] at hold ⊢
    exact ⟨hx, hold⟩
  · refine .inr ⟨_, List.mem_singleton.mpr rfl, Nat.le_of_not_lt hold, ?_⟩
    rw [hc] at hroom ⊢
    simp only [Run.stop] at hroom ⊢
    omega

theorem pageRun_cons (p : GcPage) (e : PageEvent) (events : List PageEvent) :
    p.pageRun (e :: events) = (p.pageStep e).bind fun p => p.pageRun events := rfl

theorem Laid.run (h : p.Laid) (hcovered : p.Covered) {events : List PageEvent}
    (hreq : ∀ n, .alloc n ∈ events → 0 < n ∧ n < 255) :
    (∀ k q, p.pageRun (events.take k) = .ok q → q.Covered ∧ q.Serves) ↔
      ∀ k q n q', p.pageRun (events.take k) = .ok q → events[k]? = some (.alloc n) →
        q.flushed = .ok q' → q'.AtCursor n := by
  induction events generalizing p with
  | nil =>
    refine iff_of_true (fun k q hq => ?_) fun k q n q' _ hget => nomatch hget
    rw [List.take_nil] at hq
    cases hq
    exact ⟨hcovered, h.serves hcovered⟩
  | cons e events ih =>
    obtain ⟨r, hr, hlaid, hiff⟩ := h.step (e := e) fun n hn => hreq n (hn ▸ List.mem_cons_self)
    have hiff := hiff hcovered
    have hrun : ∀ k, p.pageRun ((e :: events).take (k + 1)) = r.pageRun (events.take k) := by
      intro k
      rw [List.take_succ_cons, pageRun_cons, hr]
      rfl
    have hreq' : ∀ n, .alloc n ∈ events → 0 < n ∧ n < 255 := fun n hn => hreq n (List.mem_cons_of_mem e hn)
    constructor
    · intro hall
      have hrcov : r.Covered := (hall 1 r (hrun 0)).1
      have hrest := (ih hlaid hrcov hreq').mp fun k q hq => hall (k + 1) q ((hrun k).trans hq)
      intro k q n q' hq hget hflushed
      cases k with
      | zero =>
        cases hq
        exact hiff.mp hrcov n q' (Option.some.inj hget) hflushed
      | succ k => exact hrest k q n q' ((hrun k).symm.trans hq) hget hflushed
    · intro hcond
      have hrcov : r.Covered := by
        refine hiff.mpr fun n p' hn hflushed => hcond 0 p n p' rfl ?_ hflushed
        rw [hn]
        rfl
      have hrest := (ih hlaid hrcov hreq').mpr fun k q n q' hq hget hflushed =>
        hcond (k + 1) q n q' ((hrun k).trans hq) hget hflushed
      intro k q hq
      cases k with
      | zero =>
        cases hq
        exact ⟨hcovered, h.serves hcovered⟩
      | succ k => exact hrest k q ((hrun k).symm.trans hq)

theorem Laid.run_ok (h : p.Laid) {events : List PageEvent}
    (hreq : ∀ n, .alloc n ∈ events → 0 < n ∧ n < 255) : ∃ q, p.pageRun events = .ok q := by
  induction events generalizing p with
  | nil => exact ⟨p, rfl⟩
  | cons e events ih =>
    obtain ⟨r, hr, hlaid, -⟩ := h.step (e := e) fun n hn => hreq n (hn ▸ List.mem_cons_self)
    obtain ⟨q, hq⟩ := ih hlaid fun n hn => hreq n (List.mem_cons_of_mem e hn)
    refine ⟨q, ?_⟩
    rw [pageRun_cons, hr]
    exact hq

/-- In every run of a variable page, all blocks nobody holds are on the list, and what fits in them is
served, as long as each request that uses up a run finds it at the cursor, or finds the run at the cursor
empty; the first request that does not makes the page lose a block. -/
theorem free_space_kept_iff {pid : Pid} {psize n : Nat} {incremental : Bool} {next : Option Nat}
    {events : List PageEvent} (hpart : gcFixedParts ≤ pid.part ∧ pid.part < gcLargePart)
    (hn : 0 < n ∧ n < 255) (hnew : newVarPage pid psize n incremental next = .ok p)
    (hreq : ∀ n, .alloc n ∈ events → 0 < n ∧ n < 255) :
    (∃ q, p.pageRun events = .ok q) ∧ ((∀ k q, p.pageRun (events.take k) = .ok q → q.Covered ∧ q.Serves) ↔
        ∀ k q n q', p.pageRun (events.take k) = .ok q → events[k]? = some (.alloc n) →
          q.flushed = .ok q' → q'.AtCursor n) := by
  obtain ⟨hlaid, hcovered⟩ := laid_newVarPage hpart hn hnew
  exact ⟨hlaid.run_ok hreq, hlaid.run hcovered hreq⟩

/-- A new page of eight blocks gives two of them, and then the rest, which is the run at the cursor. -/
theorem free_space_kept_wholePage : ∃ p q, newVarPage ⟨0, 7, .dynamic⟩ 65536 2 false none = .ok p ∧
    p.pageRun [.alloc 6] = .ok q ∧ q.Covered ∧ q.Serves := by
  obtain ⟨p, hp, hruns, hneed⟩ : ∃ p, newVarPage ⟨0, 7, .dynamic⟩ 65536 2 false none = .ok p ∧
      p.runs = [⟨2, 6⟩] ∧ p.needFlush = false := ⟨_, rfl, rfl, rfl⟩
  obtain ⟨⟨q, hq⟩, hiff⟩ := @free_space_kept_iff p ⟨0, 7, .dynamic⟩ 65536 2 false none [.alloc 6] (by decide)
    (by decide) hp fun n hn => by
      cases List.mem_singleton.mp hn
      decide
  refine ⟨p, q, hp, hq, hiff.mpr (fun k r n r' hr hget hflushed i c hfind _ _ => ?_) 1 q hq⟩
  cases k with
  | zero =>
    cases hr
    rw [flushed, hneed] at hflushed
    cases hflushed
    obtain ⟨hlt, -⟩ := List.findIdx?_eq_some_iff_getElem.mp hfind
    rw [hruns, List.length_singleton] at hlt
    exact .inl (Nat.lt_one_iff.mp hlt)
  | succ k => cases hget

/-- A page of eight blocks gives three pieces, of which only the second is marked, and then four blocks:
they use up the second run. -/
def pastCursor : List PageEvent := [.alloc 2, .alloc 3, .beforeMark, .mark 2, .alloc 4]

def firstLost (p : GcPage) : Bool :=
  p.firstBlock = 0 ∧ 0 < p.maxBlocks ∧ (p.blocks.all fun b => ¬b.run.Has 0) ∧ p.runs.all fun r => ¬r.Has 0

def losesFirst (events : List PageEvent) : Bool :=
  match newVarPage ⟨0, 7, .dynamic⟩ 65536 2 false none with
  | .ok p => match p.pageRun events with
    | .ok q => q.firstLost
    | .error _ => false
  | .error _ => false

theorem free_space_lost_pastCursor : ¬∀ p events q, newVarPage ⟨0, 7, .dynamic⟩ 65536 2 false none = .ok p →
    p.pageRun events = .ok q → q.Covered := by
  intro hall
  have hlost : losesFirst pastCursor = true := by decide +kernel
  unfold losesFirst at hlost
  cases hp : newVarPage ⟨0, 7, .dynamic⟩ 65536 2 false none with
  | error _ =>
    rw [hp] at hlost
    cases hlost
  | ok p =>
    rw [hp] at hlost
    dsimp only at hlost
    cases hq : p.pageRun pastCursor with
    | error _ =>
      rw [hq] at hlost
      cases hlost
    | ok q =>
      rw [hq] at hlost
      obtain ⟨hfirst, hmax, hblocks, hruns⟩ := of_decide_eq_true hlost
      rcases hall p pastCursor q hp hq 0 (Nat.le_of_eq hfirst) hmax with ⟨b, hb, hhas⟩ | ⟨r, hr, hhas⟩
      · exact absurd hhas (of_decide_eq_true (List.all_eq_true.mp hblocks b hb))
      · exact absurd hhas (of_decide_eq_true (List.all_eq_true.mp hruns r hr))

end GcPage

end HashLink.Gc
