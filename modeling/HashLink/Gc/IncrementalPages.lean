import HashLink.Gc.IncrementalTracing

/-! What preparing a page and taking blocks from it do to a page in a cycle. A flush forgets the
blocks it sweeps, and an allocation makes one more start of a block. -/

namespace HashLink.Gc

variable {run : Run}

namespace GcPage

theorem flushLoop_getD {bmp : List Bool} {last bid : Nat} {reuse acc : List Run}
    {sizes : Option (List Nat)} {l l' : List Nat} (hl : sizes = some l)
    (hl' : (flushLoop bmp last bid reuse acc sizes).2 = some l') (x : Nat) :
    l'.getD x 0 = l.getD x 0 ∨ l'.getD x 0 = 0 := by
  fun_induction flushLoop bmp last bid reuse acc sizes generalizing l with
  | case1 bid reuse acc sizes hlt r rest hnext ih => exact ih hl hl'
  | case2 bid reuse acc sizes hlt hnext hmarked ih => exact ih hl hl'
  | case3 bid reuse acc sizes hlt hnext hmarked ih =>
    rcases ih (by rw [hl]; rfl) hl' with heq | hzero
    · by_cases hx : bid = x
      · right
        rw [heq, List.getD_eq_getElem?_getD, List.getElem?_set, if_pos hx]
        split <;> rfl
      · left
        rw [heq, List.getD_eq_getElem?_getD, List.getElem?_set_ne hx, List.getD_eq_getElem?_getD]
    · exact .inr hzero
  | case4 bid reuse acc sizes hge =>
    rw [hl] at hl'
    cases hl'
    exact .inl rfl

structure Flushes (p q : GcPage) : Prop where
  ok : q.Ok
  same : q = { p with
    free := q.free, current := q.current, sizes := q.sizes, needFlush := false, blocks := q.blocks }
  none : q.sizes = none ↔ p.sizes = none
  sizes : ∀ l l', p.sizes = some l → q.sizes = some l' → ∀ x, l'.getD x 0 = l.getD x 0 ∨ l'.getD x 0 = 0

theorem Ok.flushes {p : GcPage} (h : p.Ok) : ∃ q, p.flushed = .ok q ∧ p.Flushes q := by
  obtain ⟨q, hq, hok, -⟩ := h.flushed
  refine ⟨q, hq, ?_⟩
  unfold GcPage.flushed at hq
  cases hneed : p.needFlush with
  | true =>
    rw [hneed, if_pos rfl, flushFreeList] at hq
    cases hbmp : p.bmp with
    | none => rw [hbmp] at hq; cases hq
    | some bmp =>
      rw [hbmp] at hq
      cases hq
      exact ⟨hok, by rw [← hbmp], flushLoop_sizes, fun l l' hl hl' x => flushLoop_getD hl hl' x⟩
  | false =>
    rw [hneed, if_neg Bool.false_ne_true] at hq
    cases hq
    refine ⟨hok, by rw [← hneed], Iff.rfl, fun l l' hl hl' x => ?_⟩
    rw [hl] at hl'
    cases hl'
    exact .inl rfl

/-- What an allocation makes of a page: there is one more start of a block, and it may be
marked. -/
structure Takes (q page : GcPage) (run : Run) : Prop where
  ok : page.Ok
  same : page = { q with
    free := page.free, current := page.current, sizes := page.sizes, bmp := page.bmp,
    blocks := page.blocks }
  bits : page.bmp.isSome = q.bmp.isSome
  marks : ∀ bid, page.marked bid = true → q.marked bid = true ∨ bid = run.pos
  keeps : ∀ bid, q.marked bid = true → page.marked bid = true
  bound : run.pos < q.maxBlocks
  starts : q.firstBlock ≤ run.pos ∧ ∀ l, page.sizes = some l → l.getD run.pos 0 ≠ 0
  none : page.sizes = none ↔ q.sizes = none
  sizes : ∀ l l', q.sizes = some l → page.sizes = some l' →
    l.getD run.pos 0 = 0 ∧ ∀ x, x ≠ run.pos → l'.getD x 0 = l.getD x 0

theorem sizes_of_took {q p' : GcPage} (h : q.Small) (htook : Took q p' run) {l : List Nat}
    (hl : q.sizes = some l) {x : Nat} (hx : run.Has x) : l.getD x 0 = 0 := by
  obtain ⟨hfirst, hlast⟩ := htook.runIn h
  have hother := (h.sized l hl).other x (by simp only [Run.Has] at hx; omega)
    (by simp only [Run.Has, Run.stop] at hx hlast; omega) fun b hb _ heq => by
      have happart := htook.runApart h b hb
      have hpos := (h.blocksIn b hb).1
      simp only [Run.Apart, Run.Before, Run.Has, Run.stop] at happart hx
      omega
  rw [List.getD_eq_getElem?_getD, hother]
  rfl

theorem takes_handOut {q p' : GcPage} (hnone : q.sizes = none)
    (hsame : p' = { q with free := p'.free, current := p'.current }) (hok : (p'.handOut run).Ok)
    (hbound : run.pos < q.maxBlocks) (hfirst : q.firstBlock ≤ run.pos) :
    Takes q (p'.handOut run) run := by
  have hsizes : (p'.handOut run).sizes = none := by
    rw [hsame]
    exact hnone
  refine ⟨hok, ?_, ?_, fun bid hbid => .inl ?_, fun bid hbid => ?_, hbound,
    ⟨hfirst, fun l hl => ?_⟩, ⟨fun _ => hnone, fun _ => hsizes⟩, fun l l' hl => ?_⟩
  · rw [hsame]
    rfl
  · rw [hsame]
    rfl
  · rw [hsame] at hbid
    exact hbid
  · rw [hsame]
    exact hbid
  · rw [hsizes] at hl
    cases hl
  · rw [hnone] at hl
    cases hl

theorem takes_recordVar {q p' page : GcPage} (h : q.Small) (htook : Took q p' run)
    (hvar : q.sizes.isSome = true) (hpos : 0 < run.count) (hcount : run.count < 256)
    (hrecord : p'.recordVar run = .ok page) : Takes q page run := by
  obtain ⟨page', hpage', hsmall, -⟩ := htook.recordVar h hvar hpos hcount
  rw [hrecord] at hpage'
  cases hpage'
  obtain ⟨l, hl⟩ := Option.isSome_iff_exists.mp hvar
  obtain ⟨hfirst, hlast⟩ := htook.runIn h
  have hsame := htook.same
  have hlength := (h.sized l hl).length
  have hfree : ∀ x, run.Has x → l.getD x 0 = 0 := fun x hx => sizes_of_took h htook hl hx
  unfold recordVar at hrecord
  have hsizes : p'.sizes = some l := by rw [hsame]; exact hl
  have hstop : run.stop ≤ l.length := by rw [hlength]; exact hlast
  rw [hsizes] at hrecord
  simp only [hstop, if_true, Nat.mod_eq_of_lt hcount] at hrecord
  -- the table after the write
  have hget : ∀ x, ((if 1 < run.count then
      l.take run.pos ++ List.replicate run.count 0 ++ l.drop run.stop else l).set run.pos
        run.count).getD x 0 = if x = run.pos then run.count else l.getD x 0 := by
    intro x
    have hlt : run.pos < (if 1 < run.count then
        l.take run.pos ++ List.replicate run.count 0 ++ l.drop run.stop else l).length := by
      simp only [Run.stop] at hstop ⊢
      split
      · simp
        omega
      · omega
    rw [List.getD_eq_getElem?_getD]
    by_cases hx : x = run.pos
    · subst hx
      rw [List.getElem?_set_self hlt, if_pos rfl]
      rfl
    · rw [List.getElem?_set_ne (Ne.symm hx), if_neg hx]
      split
      · rw [Run.stop, getElem?_zeroed hstop]
        split
        · rename_i hin
          rw [hfree x hin]
          rfl
        · rw [List.getD_eq_getElem?_getD]
      · rw [List.getD_eq_getElem?_getD]
  have hbmp : p'.bmp = q.bmp := by rw [hsame]
  have hmarked : ∀ bid, p'.marked bid = q.marked bid := by
    intro bid
    rw [marked, marked, hbmp]
  cases hrecord
  refine ⟨.inl hsmall, ?_, ?_, fun bid hbid => ?_, fun bid hbid => ?_, ?_, ⟨hfirst, ?_⟩, ?_, ?_⟩
  · rw [hsame]
  · rw [Option.isSome_map, hbmp]
  · rw [← hmarked bid]
    exact marked_set (p := p') hbid
  · rw [← hmarked bid] at hbid
    exact marked_set_of (p := p') hbid
  · simp only [Run.stop] at hlast
    omega
  · intro l' hl'
    cases hl'
    rw [hget, if_pos rfl]
    omega
  · simp [hl]
  · intro l₁ l' hl₁ hl'
    rw [hl] at hl₁
    cases hl₁
    cases hl'
    refine ⟨hfree run.pos ?_, fun x hx => by rw [hget, if_neg hx]⟩
    simp only [Run.Has, Run.stop]
    omega

theorem takes_takeBlocks {q page : GcPage} {n : Nat} (hok : q.Ok) (hn : 0 < n)
    (hn' : q.sizes.isSome = true → n < 256) (h : q.takeBlocks n = some (page, run)) :
    Takes q page run := by
  unfold takeBlocks at h
  by_cases hlarge : q.pid.part = gcLargePart
  · rw [if_pos hlarge] at h
    split at h
    · rename_i hnone
      cases h
      have hq : q.Large := hok.resolve_left fun hsmall => by
        have := hsmall.part
        omega
      exact takes_handOut hq.sizes rfl (.inr (Allocator.large_handOut hq hnone))
        (by rw [hq.max]; exact Nat.zero_lt_one) (by rw [hq.first])
    · cases h
  · rw [if_neg hlarge] at h
    have hq : q.Small := hok.resolve_right fun hq => hlarge hq.part
    cases hsizes : q.sizes with
    | none =>
      rw [hsizes] at h
      obtain ⟨⟨p', run'⟩, htake, heq⟩ := Option.map_eq_some_iff.mp h
      cases heq
      obtain ⟨htook, hpos, -, hruns⟩ := hq.takeFixed hsizes hn htake
      obtain ⟨hfirst, hlast⟩ := htook.runIn hq
      refine takes_handOut hsizes htook.same (.inl (htook.handOut hq hsizes hruns)) ?_ hfirst
      simp only [Run.stop] at hlast
      omega
    | some l =>
      rw [hsizes] at h
      obtain ⟨⟨p', run'⟩, htake, heq⟩ := Option.bind_eq_some_iff.mp h
      obtain ⟨htook, hcount⟩ := hq.takeVar htake
      obtain ⟨page', hpage', heq⟩ := Option.map_eq_some_iff.mp heq
      cases heq
      have hvar : q.sizes.isSome = true := by rw [hsizes]; rfl
      have hlt := hn' hvar
      refine takes_recordVar hq htook hvar (by omega) (by omega) ?_
      cases hrec : p'.recordVar run with
      | error e => rw [hrec] at hpage'; cases hpage'
      | ok r => rw [hrec] at hpage'; cases hpage'; rfl

theorem partOf_count {size part n : Nat} {kind : MemKind}
    (h : Allocator.partOf size kind = some (part, n)) : 0 < n ∧ n < 256 := by
  unfold Allocator.partOf at h
  simp only at h
  split at h
  · cases h
  · split at h
    · cases h
      decide
    · split at h
      · cases h
        decide
      · rename_i hsize hlt _
        obtain ⟨part', hfind, heq⟩ := Option.map_eq_some_iff.mp h
        cases heq
        obtain ⟨hpart, hdvd, hle, hmax, -⟩ := Allocator.find_part (Nat.lt_of_not_le hlt) hfind
        obtain ⟨hbits, hblock, -⟩ := Allocator.gcSizes_var hpart
        have hround : size ≤ Allocator.query size gcAlign := (Allocator.query_spec _ (by decide)).1
        have hpos : 0 < Allocator.query size gcAlign :=
          Nat.lt_of_lt_of_le (Nat.pos_of_ne_zero hsize) hround
        rw [hbits]
        obtain ⟨k, hk⟩ := hdvd
        rw [hk] at hle hmax ⊢
        rw [Nat.mul_div_cancel_left k (by omega)]
        have hk0 : 0 < k := Nat.pos_of_ne_zero fun h0 => by
          rw [h0] at hle
          omega
        have := Nat.lt_of_mul_lt_mul_left hmax
        omega

theorem takeBlock_spec {p page : GcPage} {size : Nat} (hok : p.Ok) (h : p.takeBlock size = some (page, run)) :
    ∃ q, p.flushed = .ok q ∧ p.Flushes q ∧ Takes q page run := by
  obtain ⟨q, hq, hflushes⟩ := hok.flushes
  refine ⟨q, hq, hflushes, ?_⟩
  unfold takeBlock at h
  rw [hq] at h
  cases hpart : Allocator.partOf size p.pid.kind with
  | none => rw [hpart] at h; cases h
  | some choice =>
    obtain ⟨part, n⟩ := choice
    rw [hpart] at h
    simp only at h
    split at h
    · obtain ⟨hpos, hlt⟩ := partOf_count hpart
      exact takes_takeBlocks hflushes.ok hpos (fun _ => hlt) h
    · cases h

theorem takeBuffer_spec {p page : GcPage} (hok : p.Ok) (h : p.takeBuffer = some (page, run)) :
    ∃ q, p.flushed = .ok q ∧ p.Flushes q ∧ Takes q page run ∧ q.sizes = none ∧ page.bmp = q.bmp := by
  obtain ⟨q, hq, hflushes⟩ := hok.flushes
  refine ⟨q, hq, hflushes, ?_⟩
  unfold takeBuffer at h
  rw [hq] at h
  simp only at h
  split at h
  · rename_i hpart
    have hlt : q.pid.part < gcLargePart := Nat.lt_trans hpart (by decide)
    have hsmall := Allocator.small_of_ok hflushes.ok hlt
    have hnone : q.sizes = none := by
      have hvar := hsmall.varsize
      rw [decide_eq_false (by omega)] at hvar
      exact Option.isSome_eq_false_iff.mp hvar |> Option.isNone_iff_eq_none.mp
    obtain ⟨hlow, hhigh⟩ := Allocator.gcSizes_fixed hpart
    refine ⟨takes_takeBlocks hflushes.ok ?_ (fun hsome => by rw [hnone] at hsome; cases hsome) h, hnone, ?_⟩
    · exact Nat.div_pos (Nat.le_trans hhigh (by decide)) (by omega)
    · unfold takeBlocks at h
      rw [if_neg (by omega), hnone] at h
      obtain ⟨⟨p', run'⟩, htake, heq⟩ := Option.map_eq_some_iff.mp h
      cases heq
      have htook := (hsmall.takeFixed hnone (Nat.div_pos (Nat.le_trans hhigh (by decide)) (by omega)) htake).1
      rw [htook.same]
      rfl
  · cases h

theorem flushed_of_settled {p : GcPage} (h : p.needFlush = false) : p.flushed = .ok p := by
  unfold GcPage.flushed
  rw [h]
  rfl

end GcPage

/-- Some blocks of the page are forgotten, and only the `fresh` ones are new. -/
structure Shape.Fades (p p' : Shape) (fresh : Nat → Prop) : Prop where
  same : p' = { p with sizes := p'.sizes }
  none : p'.sizes = none ↔ p.sizes = none
  sizes : ∀ l l', p.sizes = some l → p'.sizes = some l' → ∀ x, l'.getD x 0 ≠ 0 → l.getD x 0 ≠ 0 ∨ fresh x

theorem Shape.Fades.blockId {p p' : Shape} {fresh : Nat → Prop} (h : p.Fades p' fresh)
    {ptr bid : Nat} (hb : p'.blockId ptr = some bid) : p.blockId ptr = some bid ∨ fresh bid := by
  have hsame := h.same
  unfold Shape.blockId at hb ⊢
  rw [hsame] at hb
  simp only at hb ⊢
  split at hb
  · cases hb
  · split at hb
    · cases hb
    · rename_i halign hbound
      rw [if_neg halign, if_neg hbound]
      cases hp' : p'.sizes with
      | none =>
        rw [hp'] at hb
        rw [h.none.mp hp']
        exact .inl hb
      | some l' =>
        rw [hp'] at hb
        cases hp : p.sizes with
        | none => rw [h.none.mpr hp] at hp'; cases hp'
        | some l =>
          simp only at hb ⊢
          split at hb
          · cases hb
          · rename_i hstart
            cases hb
            have hne := fun hzero => hstart (.inr hzero)
            rcases h.sizes l l' hp hp' _ hne with hold | hfresh
            · refine .inl (if_neg ?_)
              rintro (hlt | hzero)
              · exact hstart (.inl hlt)
              · exact hold hzero
            · exact .inr hfresh

theorem GcPage.Takes.fades {p q page : GcPage} (hf : p.Flushes q) (ht : Takes q page run)
    {base size epoch : Nat} {queued : List Bool} {dirty : Bool} :
    (IncPage.shape ⟨p, base, size, epoch, queued, dirty⟩).Fades
      (IncPage.shape ⟨page, base, size, epoch, queued, dirty⟩) (· = run.pos) := by
  have hsame := ht.same
  rw [hf.same] at hsame
  refine ⟨?_, ht.none.trans hf.none, fun l l' hl hl' x hx => ?_⟩
  · rw [hsame]
    rfl
  · cases hq : q.sizes with
    | none => rw [IncPage.shape, ht.none.mpr hq] at hl'; cases hl'
    | some m =>
      by_cases hpos : x = run.pos
      · exact .inr hpos
      · left
        rw [(ht.sizes m l' hq hl').2 x hpos] at hx
        rcases hf.sizes l m hl hq x with heq | hzero
        · rw [← heq]
          exact hx
        · exact absurd hzero hx

end HashLink.Gc
