import Mathlib.Data.List.Nodup

/-! Doubly linked lists whose links are in the nodes. A segment is linked both ways, from what is before
its first node to what is after its last one, so that a list may be cut and changed at a node. -/

namespace BackLinks

variable {α : Type} [DecidableEq α] {next previous : α → Option α} {before after : Option α} {a : α}
  {l l' : List α}

/-- Changes the link of a node, if there is one. -/
def setAt (f : α → Option α) : Option α → Option α → α → Option α
  | some a, link => Function.update f a link
  | none, _ => f

theorem setAt_of_ne {f : α → Option α} {node link : Option α} (h : node ≠ some a) :
    setAt f node link a = f a := by
  cases node with
  | none => rfl
  | some b => exact Function.update_of_ne (fun heq => h (by rw [heq])) ..

theorem setAt_update {f : α → Option α} {node link value : Option α} {b : α} (h : a ≠ b) :
    setAt (Function.update f b value) node link a = setAt f node link a := by
  by_cases hnode : node = some a
  · rw [hnode]
    show Function.update (Function.update f b value) a link a = Function.update f a link a
    rw [Function.update_self, Function.update_self]
  · rw [setAt_of_ne hnode, setAt_of_ne hnode]
    exact Function.update_of_ne h ..

/-- The nodes are linked both ways, with `before` before the first one and `after` after the last. -/
def Segment (next previous : α → Option α) : Option α → List α → Option α → Prop
  | _, [], _ => True
  | before, a :: l, after =>
    previous a = before ∧ next a = l.head?.or after ∧ Segment next previous (some a) l after

omit [DecidableEq α] in
theorem segment_append : Segment next previous before (l ++ l') after ↔
    Segment next previous before l (l'.head?.or after) ∧
      Segment next previous (l.getLast?.or before) l' after := by
  induction l generalizing before with
  | nil => simp [Segment]
  | cons a l ih =>
    rw [List.cons_append, Segment, Segment, ih]
    have hhead : (l ++ l').head?.or after = l.head?.or (l'.head?.or after) := by cases l <;> rfl
    have hlast : (a :: l).getLast?.or before = l.getLast?.or (some a) := by
      cases hl : l.getLast? with
      | none =>
        rw [List.getLast?_eq_none_iff] at hl
        rw [hl]
        rfl
      | some b =>
        rw [List.getLast?_cons, hl]
        rfl
    rw [hhead, hlast]
    exact ⟨fun ⟨h₁, h₂, h₃, h₄⟩ => ⟨⟨h₁, h₂, h₃⟩, h₄⟩, fun ⟨⟨h₁, h₂, h₃⟩, h₄⟩ => ⟨h₁, h₂, h₃, h₄⟩⟩

omit [DecidableEq α] in
theorem Segment.congr {next' previous' : α → Option α} (h : Segment next previous before l after)
    (hsame : ∀ a ∈ l, next' a = next a ∧ previous' a = previous a) : Segment next' previous' before l after := by
  induction l generalizing before with
  | nil => trivial
  | cons a l ih =>
    obtain ⟨hprev, hnext, hrest⟩ := h
    obtain ⟨hn, hp⟩ := hsame a List.mem_cons_self
    exact ⟨hp.trans hprev, hn.trans hnext, ih hrest fun b hb => hsame b (List.mem_cons_of_mem a hb)⟩

theorem Segment.setBefore (h : Segment next previous before l after) (hnodup : l.Nodup) (before' : Option α) :
    Segment next (setAt previous l.head? before') before' l after := by
  cases l with
  | nil => trivial
  | cons a l =>
    obtain ⟨hprev, hnext, hrest⟩ := h
    refine ⟨Function.update_self .., hnext, hrest.congr fun b hb => ⟨rfl, Function.update_of_ne ?_ ..⟩⟩
    rintro rfl
    exact (List.nodup_cons.mp hnodup).1 hb

theorem Segment.setAfter (h : Segment next previous before l after) (hnodup : l.Nodup) (after' : Option α) :
    Segment (setAt next l.getLast? after') previous before l after' := by
  rcases List.eq_nil_or_concat l with rfl | ⟨l, a, rfl⟩
  · trivial
  · rw [List.concat_eq_append] at *
    obtain ⟨hbefore, hprev, -⟩ := (segment_append).mp h
    have hnot : a ∉ l := fun hmem => List.disjoint_of_nodup_append hnodup hmem (List.mem_singleton.mpr rfl)
    rw [List.getLast?_append]
    refine (segment_append).mpr ⟨hbefore.congr fun b hb => ⟨Function.update_of_ne ?_ .., rfl⟩, hprev,
      Function.update_self .., trivial⟩
    rintro rfl
    exact hnot hb

def Linked (next previous : α → Option α) (l : List α) : Prop := Segment next previous none l none

theorem Linked.push (h : Linked next previous l) (hnodup : l.Nodup) (hnot : a ∉ l) :
    Linked (Function.update next a l.head?) (setAt (Function.update previous a none) l.head? (some a))
      (a :: l) := by
  have hframe : Segment (Function.update next a l.head?) (Function.update previous a none) none l none := by
    refine h.congr fun b hb => ?_
    have hne : b ≠ a := fun heq => hnot (heq ▸ hb)
    exact ⟨Function.update_of_ne hne .., Function.update_of_ne hne ..⟩
  refine ⟨?_, ?_, hframe.setBefore hnodup (some a)⟩
  · rw [setAt_of_ne]
    · exact Function.update_self ..
    · exact fun hhead => hnot (List.mem_of_head? hhead)
  · rw [Function.update_self, Option.or_none]

omit [DecidableEq α] in
theorem Linked.at (h : Linked next previous (l ++ a :: l')) :
    previous a = l.getLast? ∧ next a = l'.head? := by
  obtain ⟨-, hprev, hnext, -⟩ := (segment_append).mp h
  rw [Option.or_none] at hprev hnext
  exact ⟨hprev, hnext⟩

theorem Linked.unlink (h : Linked next previous (l ++ a :: l')) (hnodup : (l ++ a :: l').Nodup) :
    Linked (setAt next (previous a) (next a)) (setAt previous (next a) (previous a)) (l ++ l') := by
  obtain ⟨hprev, hnext⟩ := h.at
  obtain ⟨hleft, -, -, hright⟩ := (segment_append).mp h
  obtain ⟨hl, hal', hdisjoint⟩ := List.nodup_append.mp hnodup
  have hl' := (List.nodup_cons.mp hal').2
  rw [hprev, hnext]
  refine (segment_append).mpr ⟨?_, ?_⟩
  · rw [Option.or_none]
    refine (hleft.setAfter hl l'.head?).congr fun b hb => ⟨rfl, setAt_of_ne fun hhead => ?_⟩
    exact hdisjoint b hb b (List.mem_cons_of_mem a (List.mem_of_head? hhead)) rfl
  · rw [Option.or_none]
    refine (hright.setBefore hl' l.getLast?).congr fun b hb => ⟨setAt_of_ne fun hlast => ?_, rfl⟩
    exact hdisjoint b (List.mem_of_getLast? hlast) b (List.mem_cons_of_mem a hb) rfl

theorem Linked.replace {b : α} (h : Linked next previous (l ++ a :: l')) (hnodup : (l ++ a :: l').Nodup)
    (hnot : b ∉ l ++ l') :
    Linked (setAt (Function.update next b (next a)) (previous a) (some b))
      (setAt (Function.update previous b (previous a)) (next a) (some b)) (l ++ b :: l') := by
  obtain ⟨hprev, hnext⟩ := h.at
  obtain ⟨hleft, -, -, hright⟩ := (segment_append).mp h
  obtain ⟨hl, hal', hdisjoint⟩ := List.nodup_append.mp hnodup
  have hl' := (List.nodup_cons.mp hal').2
  have hbl : ∀ c ∈ l, c ≠ b := fun c hc heq => hnot (heq ▸ List.mem_append_left _ hc)
  have hbl' : ∀ c ∈ l', c ≠ b := fun c hc heq => hnot (heq ▸ List.mem_append_right _ hc)
  rw [hprev, hnext]
  refine (segment_append).mpr ⟨?_, ?_, ?_, ?_⟩
  · refine Segment.congr (hleft.setAfter hl (some b)) fun c hc => ⟨?_, ?_⟩
    · exact setAt_update (hbl c hc)
    · rw [setAt_of_ne]
      · exact Function.update_of_ne (hbl c hc) ..
      · exact fun hhead => hdisjoint c hc c (List.mem_cons_of_mem a (List.mem_of_head? hhead)) rfl
  · rw [Option.or_none, setAt_of_ne]
    · exact Function.update_self ..
    · exact fun hhead => hbl' b (List.mem_of_head? hhead) rfl
  · rw [Option.or_none, setAt_of_ne]
    · exact Function.update_self ..
    · exact fun hlast => hbl b (List.mem_of_getLast? hlast) rfl
  · refine Segment.congr (hright.setBefore hl' (some b)) fun c hc => ⟨?_, ?_⟩
    · rw [setAt_of_ne]
      · exact Function.update_of_ne (hbl' c hc) ..
      · exact fun hlast => hdisjoint c (List.mem_of_getLast? hlast) c (List.mem_cons_of_mem a hc) rfl
    · exact setAt_update (hbl' c hc)

end BackLinks
