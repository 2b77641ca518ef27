import HashLink.Gc.Allocator

/-! What `flush_free_list` leaves on a page. The loop goes over the page piece by piece, where a
piece is a run that was free, a block or a single block nobody holds; the invariant says that it
never stops inside a block or a run. -/

namespace HashLink.Gc

namespace GcPage

/-- The table holds the length of every kept block at its start, and zero elsewhere. -/
structure Sized (first last : Nat) (blocks : List Block) (kept : Block → Prop) (l : List Nat) :
    Prop where
  length : l.length = last
  start : ∀ b ∈ blocks, kept b → l[b.run.pos]? = some b.run.count
  other : ∀ x, first ≤ x → x < last → (∀ b ∈ blocks, kept b → b.run.pos ≠ x) → l[x]? = some 0

theorem Sized.imp {first last : Nat} {blocks : List Block} {kept kept' : Block → Prop}
    {l : List Nat} (h : Sized first last blocks kept l)
    (hiff : ∀ b ∈ blocks, kept' b ↔ kept b) : Sized first last blocks kept' l :=
  ⟨h.length, fun b hb hkept => h.start b hb ((hiff b hb).mp hkept), fun x hx hx' hnone =>
    h.other x hx hx' fun b hb hkept => hnone b hb ((hiff b hb).mpr hkept)⟩

/-- The state of the loop at `bid`: the pieces before it are settled. -/
structure Sweep (first last : Nat) (blocks : List Block) (bmp : List Bool) (bid : Nat)
    (reuse acc : List Run) (sizes : Option (List Nat)) : Prop where
  lower : first ≤ bid
  upper : bid ≤ last
  bounded : ∀ b ∈ blocks, 0 < b.run.count ∧ first ≤ b.run.pos ∧ b.run.stop ≤ last
  disjoint : ∀ b ∈ blocks, ∀ b' ∈ blocks, b ≠ b' → b.run.Apart b'.run
  aligned : ∀ b ∈ blocks, b.run.stop ≤ bid ∨ bid ≤ b.run.pos
  reuseSorted : reuse.Pairwise Run.Before
  reuseIn : ∀ r ∈ reuse, bid ≤ r.pos ∧ r.stop ≤ last
  reuseApart : ∀ b ∈ blocks, ∀ r ∈ reuse, b.run.Apart r
  accSorted : acc.Pairwise Run.Before
  accIn : ∀ r ∈ acc, first ≤ r.pos ∧ r.stop ≤ bid
  accApart : ∀ b ∈ blocks, bmp.getD b.run.pos false = true → ∀ r ∈ acc, b.run.Apart r
  sized : ∀ l, sizes = some l →
    Sized first last blocks (fun b => bid ≤ b.run.pos ∨ bmp.getD b.run.pos false = true) l
  single : sizes = none → ∀ b ∈ blocks, b.run.count = 1

namespace Sweep

variable {first last bid : Nat} {blocks : List Block} {bmp : List Bool} {reuse acc : List Run}
  {sizes : Option (List Nat)}

theorem apart_join {b c : Run} {pos count : Nat} (hb : 0 < b.count) (hc : b.Apart c)
    (hstop : c.stop = pos) (hrange : b.Apart ⟨pos, count⟩) :
    b.Apart ⟨c.pos, c.count + count⟩ := by
  simp only [Run.Apart, Run.Before, Run.stop] at *
  omega

theorem reused {r : Run} {rest : List Run}
    (h : Sweep first last blocks bmp bid (r :: rest) acc sizes) (hpos : r.pos = bid) :
    Sweep first last blocks bmp (bid + r.count) rest (RunList.push acc r.pos r.count) sizes := by
  have hr := h.reuseIn r List.mem_cons_self
  have hapart : ∀ b ∈ blocks, b.run.Apart r := fun b hb => h.reuseApart b hb r List.mem_cons_self
  have hstop : r.stop = bid + r.count := by rw [Run.stop, hpos]
  have hskip : ∀ b ∈ blocks, bid ≤ b.run.pos → bid + r.count ≤ b.run.pos := by
    intro b hb hle
    have hb' := h.bounded b hb
    have := hapart b hb
    simp only [Run.Apart, Run.Before, Run.stop] at this hb'
    omega
  obtain ⟨hbefore, hsorted⟩ := List.pairwise_cons.mp h.reuseSorted
  constructor
  case lower => exact Nat.le_add_right_of_le h.lower
  case upper => rw [← hstop]; exact hr.2
  case bounded => exact h.bounded
  case disjoint => exact h.disjoint
  case aligned =>
    intro b hb
    rcases h.aligned b hb with hle | hle
    · exact .inl (Nat.le_add_right_of_le hle)
    · exact .inr (hskip b hb hle)
  case reuseSorted => exact hsorted
  case reuseIn =>
    intro t ht
    refine ⟨?_, (h.reuseIn t (List.mem_cons_of_mem r ht)).2⟩
    rw [← hstop]
    exact hbefore t ht
  case reuseApart => exact fun b hb t ht => h.reuseApart b hb t (List.mem_cons_of_mem r ht)
  case accSorted =>
    exact RunList.push_sorted h.accSorted fun t ht => by rw [hpos]; exact (h.accIn t ht).2
  case accIn =>
    refine RunList.forall_push (fun t ht => ?_) ?_ fun c hc hcstop => ?_
    · exact ⟨(h.accIn t ht).1, Nat.le_add_right_of_le (h.accIn t ht).2⟩
    · exact ⟨by rw [hpos]; exact h.lower, by simp only [Run.stop]; omega⟩
    · refine ⟨hc.1, ?_⟩
      simp only [Run.stop] at hcstop ⊢
      omega
  case accApart =>
    intro b hb hmarked
    exact RunList.forall_push (h.accApart b hb hmarked) (hapart b hb) fun c hc hcstop =>
      apart_join (h.bounded b hb).1 hc hcstop (hapart b hb)
  case sized =>
    intro l hl
    refine (h.sized l hl).imp fun b hb => or_congr_left ⟨fun hle => ?_, hskip b hb⟩
    omega
  case single => exact h.single

theorem piece (h : Sweep first last blocks bmp bid reuse acc sizes) (hlt : bid < last) :
    (∃ b ∈ blocks, b.run.pos = bid ∧ pieceCount sizes bid = b.run.count) ∨
      (∀ b ∈ blocks, b.run.pos ≠ bid) ∧ pieceCount sizes bid = 1 := by
  by_cases hstart : ∃ b ∈ blocks, b.run.pos = bid
  · obtain ⟨b, hb, hpos⟩ := hstart
    refine .inl ⟨b, hb, hpos, ?_⟩
    have hcount := (h.bounded b hb).1
    cases hsizes : sizes with
    | none => exact (h.single hsizes b hb).symm
    | some l =>
      have hget : l[bid]? = some b.run.count := by
        rw [← hpos]
        exact (h.sized l hsizes).start b hb (.inl (by omega))
      have hgetD : l.getD bid 0 = b.run.count := by rw [List.getD_eq_getElem?_getD, hget]; rfl
      rw [pieceCount, hgetD, if_neg (by omega)]
  · have hnone : ∀ b ∈ blocks, b.run.pos ≠ bid := fun b hb hpos => hstart ⟨b, hb, hpos⟩
    refine .inr ⟨hnone, ?_⟩
    cases hsizes : sizes with
    | none => rfl
    | some l =>
      have hget : l[bid]? = some 0 :=
        (h.sized l hsizes).other bid h.lower hlt fun b hb _ => hnone b hb
      have hgetD : l.getD bid 0 = 0 := by rw [List.getD_eq_getElem?_getD, hget]; rfl
      rw [pieceCount, hgetD, if_pos rfl]

theorem advance (h : Sweep first last blocks bmp bid reuse acc sizes) (hlt : bid < last)
    (hreuse : nextReuse bid reuse = none) :
    bid + pieceCount sizes bid ≤ last ∧
      (∀ b ∈ blocks, bid ≤ b.run.pos → b.run.pos = bid ∨ bid + pieceCount sizes bid ≤ b.run.pos) ∧
      (∀ b ∈ blocks, b.run.stop ≤ bid + pieceCount sizes bid ∨ bid + pieceCount sizes bid ≤ b.run.pos) ∧
      ∀ r ∈ reuse, bid + pieceCount sizes bid ≤ r.pos := by
  have hafter : ∀ r ∈ reuse, bid < r.pos := by
    cases reuse with
    | nil => simp
    | cons r rest =>
      have hne : bid ≠ r.pos := by
        intro heq
        simp [nextReuse, heq] at hreuse
      have hr : bid < r.pos := Nat.lt_of_le_of_ne (h.reuseIn r List.mem_cons_self).1 hne
      intro t ht
      rcases List.mem_cons.mp ht with rfl | ht
      · exact hr
      · have hbefore := (List.pairwise_cons.mp h.reuseSorted).1 t ht
        simp only [Run.Before, Run.stop] at hbefore
        omega
  rcases h.piece hlt with ⟨b, hb, hpos, hcount⟩ | ⟨hnone, hcount⟩
  · have hbound := h.bounded b hb
    have hapart : ∀ t ∈ blocks, t = b ∨ t.run.stop ≤ bid ∨ bid + b.run.count ≤ t.run.pos := by
      intro t ht
      by_cases heq : t = b
      · exact .inl heq
      · have := h.disjoint t ht b hb heq
        simp only [Run.Apart, Run.Before, Run.stop] at this ⊢
        omega
    rw [hcount]
    simp only [Run.stop] at hbound
    refine ⟨by omega, fun t ht hle => ?_, fun t ht => ?_, fun r hr => ?_⟩
    · rcases hapart t ht with rfl | hstop | hstart
      · exact .inl hpos
      · have := h.bounded t ht
        simp only [Run.stop] at hstop this
        omega
      · exact .inr hstart
    · rcases hapart t ht with rfl | hstop | hstart
      · exact .inl (by simp only [Run.stop]; omega)
      · exact .inl (Nat.le_add_right_of_le hstop)
      · exact .inr hstart
    · have := h.reuseApart b hb r hr
      have := hafter r hr
      simp only [Run.Apart, Run.Before, Run.stop] at *
      omega
  · rw [hcount]
    refine ⟨by omega, fun t ht hle => ?_, fun t ht => ?_, fun r hr => hafter r hr⟩
    · have := hnone t ht
      omega
    · have := hnone t ht
      rcases h.aligned t ht with hstop | hstart
      · exact .inl (Nat.le_add_right_of_le hstop)
      · exact .inr (by omega)

theorem kept (h : Sweep first last blocks bmp bid reuse acc sizes) (hlt : bid < last)
    (hreuse : nextReuse bid reuse = none) (hmarked : bmp.getD bid false = true) :
    Sweep first last blocks bmp (bid + pieceCount sizes bid) reuse acc sizes := by
  obtain ⟨hupper, hskip, haligned, hafter⟩ := h.advance hlt hreuse
  constructor
  case lower => exact Nat.le_add_right_of_le h.lower
  case upper => exact hupper
  case bounded => exact h.bounded
  case disjoint => exact h.disjoint
  case aligned => exact haligned
  case reuseSorted => exact h.reuseSorted
  case reuseIn => exact fun r hr => ⟨hafter r hr, (h.reuseIn r hr).2⟩
  case reuseApart => exact h.reuseApart
  case accSorted => exact h.accSorted
  case accIn => exact fun r hr => ⟨(h.accIn r hr).1, Nat.le_add_right_of_le (h.accIn r hr).2⟩
  case accApart => exact h.accApart
  case sized =>
    intro l hl
    refine (h.sized l hl).imp fun b hb => ⟨Or.imp_left fun hle => by omega, ?_⟩
    rintro (hle | hkept)
    · rcases hskip b hb hle with hpos | hstart
      · exact .inr (by rw [hpos]; exact hmarked)
      · exact .inl hstart
    · exact .inr hkept
  case single => exact h.single

theorem freed (h : Sweep first last blocks bmp bid reuse acc sizes) (hlt : bid < last)
    (hreuse : nextReuse bid reuse = none) (hmarked : bmp.getD bid false = false) :
    Sweep first last blocks bmp (bid + pieceCount sizes bid) reuse
      (RunList.push acc bid (pieceCount sizes bid)) (sizes.map fun l => l.set bid 0) := by
  obtain ⟨hupper, hskip, haligned, hafter⟩ := h.advance hlt hreuse
  have hpos : ∀ b ∈ blocks, bmp.getD b.run.pos false = true → b.run.pos ≠ bid := by
    intro b _ hb heq
    rw [heq, hmarked] at hb
    cases hb
  have hapart : ∀ b ∈ blocks, bmp.getD b.run.pos false = true → b.run.Apart ⟨bid, pieceCount sizes bid⟩ := by
    intro b hb hkept
    rcases h.aligned b hb with hstop | hstart
    · exact .inl hstop
    · exact .inr ((hskip b hb hstart).resolve_left (hpos b hb hkept))
  constructor
  case lower => exact Nat.le_add_right_of_le h.lower
  case upper => exact hupper
  case bounded => exact h.bounded
  case disjoint => exact h.disjoint
  case aligned => exact haligned
  case reuseSorted => exact h.reuseSorted
  case reuseIn => exact fun r hr => ⟨hafter r hr, (h.reuseIn r hr).2⟩
  case reuseApart => exact h.reuseApart
  case accSorted => exact RunList.push_sorted h.accSorted fun t ht => (h.accIn t ht).2
  case accIn =>
    refine RunList.forall_push (fun t ht => ?_) ⟨h.lower, Nat.le_refl _⟩ fun c hc hcstop => ?_
    · exact ⟨(h.accIn t ht).1, Nat.le_add_right_of_le (h.accIn t ht).2⟩
    · refine ⟨hc.1, ?_⟩
      simp only [Run.stop] at hcstop ⊢
      omega
  case accApart =>
    intro b hb hkept
    exact RunList.forall_push (h.accApart b hb hkept) (hapart b hb hkept) fun c hc hcstop =>
      apart_join (h.bounded b hb).1 hc hcstop (hapart b hb hkept)
  case sized =>
    intro l' hl'
    obtain ⟨l, hl, rfl⟩ := Option.map_eq_some_iff.mp hl'
    have hsized := h.sized l hl
    have hcount := pieceCount_pos sizes bid
    refine ⟨by rw [List.length_set]; exact hsized.length, fun b hb hkept => ?_, fun x hx hx' hnone => ?_⟩
    · have hne : bid ≠ b.run.pos := by
        rcases hkept with hle | hkept
        · omega
        · exact (hpos b hb hkept).symm
      rw [List.getElem?_set_ne hne]
      exact hsized.start b hb (hkept.imp_left fun hle => by omega)
    · by_cases heq : bid = x
      · subst heq
        rw [List.getElem?_set_self (by rw [hsized.length]; exact hlt)]
      · rw [List.getElem?_set_ne heq]
        refine hsized.other x hx hx' fun b hb hkept hbx => ?_
        rcases hkept with hle | hkept
        · rcases hskip b hb hle with hstart | hstart
          · omega
          · exact hnone b hb (.inl hstart) hbx
        · exact hnone b hb (.inr hkept) hbx
  case single =>
    intro hnone
    exact h.single (Option.map_eq_none_iff.mp hnone)

theorem finished (h : Sweep first last blocks bmp bid reuse acc sizes) :
    ∃ reuse', Sweep first last blocks bmp last reuse' (flushLoop bmp last bid reuse acc sizes).1
      (flushLoop bmp last bid reuse acc sizes).2 := by
  fun_induction flushLoop bmp last bid reuse acc sizes with
  | case1 bid reuse acc sizes hlt r rest hreuse ih =>
    obtain ⟨rfl, hpos⟩ := nextReuse_eq hreuse
    exact ih (h.reused hpos)
  | case2 bid reuse acc sizes hlt hreuse hmarked ih => exact ih (h.kept hlt hreuse hmarked)
  | case3 bid reuse acc sizes hlt hreuse hmarked ih =>
    exact ih (h.freed hlt hreuse (by simpa using hmarked))
  | case4 bid reuse acc sizes hge =>
    have heq : bid = last := Nat.le_antisymm h.upper (Nat.le_of_not_lt hge)
    exact ⟨reuse, heq ▸ h⟩

end Sweep

theorem flushLoop_pos {bmp : List Bool} {last bid : Nat} {reuse acc : List Run}
    {sizes : Option (List Nat)} (hreuse : ∀ r ∈ reuse, 0 < r.count) (hacc : ∀ r ∈ acc, 0 < r.count) :
    ∀ r ∈ (flushLoop bmp last bid reuse acc sizes).1, 0 < r.count := by
  fun_induction flushLoop bmp last bid reuse acc sizes with
  | case1 bid reuse acc sizes hlt r rest hnext ih =>
    obtain ⟨rfl, -⟩ := nextReuse_eq hnext
    refine ih (fun t ht => hreuse t (List.mem_cons_of_mem r ht)) ?_
    exact RunList.forall_push hacc (hreuse r List.mem_cons_self) fun c hc _ =>
      Nat.add_pos_left hc _
  | case2 bid reuse acc sizes hlt hnext hmarked ih => exact ih hreuse hacc
  | case3 bid reuse acc sizes hlt hnext hmarked ih =>
    exact ih hreuse (RunList.forall_push hacc (pieceCount_pos sizes bid) fun c hc _ =>
      Nat.add_pos_left hc _)
  | case4 bid reuse acc sizes hge => exact hacc

theorem flushLoop_sizes {bmp : List Bool} {last bid : Nat} {reuse acc : List Run}
    {sizes : Option (List Nat)} :
    (flushLoop bmp last bid reuse acc sizes).2 = none ↔ sizes = none := by
  fun_induction flushLoop bmp last bid reuse acc sizes with
  | case1 bid reuse acc sizes hlt r rest hnext ih => exact ih
  | case2 bid reuse acc sizes hlt hnext hmarked ih => exact ih
  | case3 bid reuse acc sizes hlt hnext hmarked ih => exact ih.trans Option.map_eq_none_iff
  | case4 bid reuse acc sizes hge => exact Iff.rfl

end GcPage

end HashLink.Gc
