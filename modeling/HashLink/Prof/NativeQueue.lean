import HashLink.Prof.NativeKeys

/-!
The queue of native keys. An entry of the set gives at most one index, so that the queue is never full, and
an index below the head that the consumer has not passed is stored or has a call that will store it.
-/

namespace HashLink.Prof.Native

variable {τ : Type}

def Consumer.hand : Consumer → Option UInt64
  | .advance _ _ key => some key
  | _ => none

/-- The keys that got an index, in order, and where each of them is. -/
structure Queued (s : State τ) (tickets : List UInt64) : Prop where
  head : tickets.length = s.head
  nodup : tickets.Nodup
  inSet : ∀ k ∈ tickets, k ≠ 0 ∧ ∃ i, s.keys i = k
  covered : ∀ i, s.keys i ≠ 0 → s.keys i ∈ tickets ∨ ∃ t, (s.callers t).claim = some (s.keys i)
  tail_le : s.tail ≤ s.head
  delivered : s.delivered = tickets.take s.tail
  claim : ∀ t k, (s.callers t).claim = some k → k ∉ tickets ∧ k ≠ 0 ∧ ∃ i, s.keys i = k
  claim_unique : ∀ t t' k, (s.callers t).claim = some k → (s.callers t').claim = some k → t = t'
  index : ∀ t k j, (s.callers t).index = some (k, j) →
    tickets[j]? = some k ∧ s.tail ≤ j ∧ s.queue (queueSlot j) = 0 ∧ (j = s.tail → s.consumer.hand = none)
  index_unique : ∀ t t' k j, (s.callers t).index = some (k, j) → (s.callers t').index = some (k, j) → t = t'
  entries : ∀ j k, tickets[j]? = some k → s.tail ≤ j →
    s.queue (queueSlot j) = k ∨ (j = s.tail ∧ s.consumer.hand = some k) ∨ ∃ t, (s.callers t).index = some (k, j)
  empty : ∀ j, s.head ≤ j → j < nativeKeys → s.queue (queueSlot j) = 0
  fetch : ∀ count max, s.consumer = .fetch count max → s.tail < s.head
  clear : ∀ count max k, s.consumer = .clear count max k →
    tickets[s.tail]? = some k ∧ s.queue (queueSlot s.tail) = k
  advance : ∀ k, s.consumer.hand = some k → tickets[s.tail]? = some k ∧ s.queue (queueSlot s.tail) = 0

theorem reset_queued : Queued (reset : State τ) [] where
  head := rfl
  nodup := List.nodup_nil
  inSet := fun _ h => absurd h List.not_mem_nil
  covered := fun _ h => absurd rfl h
  tail_le := Nat.le_refl 0
  delivered := rfl
  claim := fun _ _ h => by cases h
  claim_unique := fun _ _ _ h => by cases h
  index := fun _ _ _ h => by cases h
  index_unique := fun _ _ _ _ h => by cases h
  entries := fun _ _ h => by cases h
  empty := fun _ _ _ => rfl
  fetch := fun _ _ h => by cases h
  clear := fun _ _ _ h => by cases h
  advance := fun _ h => by cases h

theorem length_le_nativeKeys {keys : Fin nativeKeys → UInt64} {l : List UInt64} (hl : l.Nodup)
    (h : ∀ k ∈ l, ∃ i, keys i = k) : l.length ≤ nativeKeys := by
  have hsub : l.toFinset ⊆ Finset.univ.image keys := by
    intro k hk
    obtain ⟨i, hi⟩ := h k (List.mem_toFinset.mp hk)
    exact Finset.mem_image.mpr ⟨i, Finset.mem_univ i, hi⟩
  calc l.length = l.toFinset.card := (List.toFinset_card_of_nodup hl).symm
    _ ≤ (Finset.univ.image keys).card := Finset.card_le_card hsub
    _ ≤ (Finset.univ : Finset (Fin nativeKeys)).card := Finset.card_image_le
    _ = nativeKeys := Finset.card_fin nativeKeys

variable {j : Nat} {key k : UInt64}

theorem queueSlot_inj {i : Nat} (hi : i < nativeKeys) (hj : j < nativeKeys) (h : queueSlot i = queueSlot j) :
    i = j := by
  have hval := congrArg Fin.val h
  unfold queueSlot at hval
  rwa [Fin.val_ofNat, Fin.val_ofNat, Nat.mod_eq_of_lt hi, Nat.mod_eq_of_lt hj] at hval

variable {s : State τ} {tickets : List UInt64} {t : τ}

theorem Queued.head_le (h : Queued s tickets) : s.head ≤ nativeKeys := by
  rw [← h.head]
  exact length_le_nativeKeys h.nodup fun k hk => (h.inSet k hk).2

theorem Queued.lt_head (h : Queued s tickets) (hj : tickets[j]? = some k) :
    j < s.head := by
  rw [← h.head]
  exact (List.getElem?_eq_some_iff.mp hj).1

theorem Queued.ne_zero (h : Queued s tickets) (hj : tickets[j]? = some k) : k ≠ 0 :=
  (h.inSet k (List.mem_of_getElem? hj)).1

variable [DecidableEq τ]

theorem Queued.control (h : Queued s tickets) {s' : State τ} {c : Caller}
    (hkeys : ∀ i k, k ≠ 0 → s.keys i = k → s'.keys i = k) (hqueue : s'.queue = s.queue)
    (hhead : s'.head = s.head) (htail : s'.tail = s.tail) (hdelivered : s'.delivered = s.delivered)
    (hconsumer : s'.consumer = s.consumer) (hcallers : s'.callers = Function.update s.callers t c)
    (hclaim : ∀ k, c.claim = some k → (s.callers t).claim = some k ∨
      (∀ i, s.keys i ≠ k) ∧ k ≠ 0 ∧ ∃ i, s'.keys i = k)
    (hcover : ∀ i, s'.keys i = s.keys i ∨ c.claim = some (s'.keys i))
    (hclaimed : ∀ k, (s.callers t).claim = some k → c.claim = some k)
    (hindex : ∀ e, c.index = some e → (s.callers t).index = some e)
    (hkeep : ∀ e, (s.callers t).index = some e → c.index = some e) : Queued s' tickets := by
  have hkept : ∀ k, k ≠ 0 → (∃ i, s.keys i = k) → ∃ i, s'.keys i = k := fun k hk ⟨i, hi⟩ =>
    ⟨i, hkeys i k hk hi⟩
  have hother : ∀ t', t' ≠ t → s'.callers t' = s.callers t' := fun t' ht => by
    rw [hcallers, Function.update_of_ne ht]
  have hself : s'.callers t = c := by rw [hcallers, Function.update_self]
  have hold : ∀ t' e, (s'.callers t').index = some e → (s.callers t').index = some e := by
    intro t' e he
    by_cases heq : t' = t
    · rw [heq] at he ⊢
      rw [hself] at he
      exact hindex e he
    · rwa [hother t' heq] at he
  have hclaims : ∀ t' k, (s'.callers t').claim = some k → (s.callers t').claim = some k ∨
      t' = t ∧ (∀ i, s.keys i ≠ k) ∧ k ≠ 0 ∧ ∃ i, s'.keys i = k := by
    intro t' k hk
    by_cases heq : t' = t
    · rw [heq] at hk ⊢
      rw [hself] at hk
      rcases hclaim k hk with hleft | hright
      · exact Or.inl hleft
      · exact Or.inr ⟨rfl, hright⟩
    · rw [hother t' heq] at hk
      exact Or.inl hk
  constructor
  · rw [hhead]
    exact h.head
  · exact h.nodup
  · intro k hk
    exact ⟨(h.inSet k hk).1, hkept k (h.inSet k hk).1 (h.inSet k hk).2⟩
  · intro i hi
    rcases hcover i with heq | hnew
    · rw [heq] at hi ⊢
      rcases h.covered i hi with hin | ⟨t', ht'⟩
      · exact Or.inl hin
      · refine Or.inr ⟨t', ?_⟩
        by_cases hsame : t' = t
        · rw [hsame] at ht' ⊢
          rw [hself]
          exact hclaimed _ ht'
        · rw [hother t' hsame]
          exact ht'
    · exact Or.inr ⟨t, by rw [hself]; exact hnew⟩
  · rw [hhead, htail]
    exact h.tail_le
  · rw [hdelivered, htail]
    exact h.delivered
  · intro t' k hk
    rcases hclaims t' k hk with hk | ⟨-, hnew, hzero, hin⟩
    · obtain ⟨hnot, hzero, hin⟩ := h.claim t' k hk
      exact ⟨hnot, hzero, hkept k hzero hin⟩
    · refine ⟨fun hmem => ?_, hzero, hin⟩
      obtain ⟨i, hi⟩ := (h.inSet k hmem).2
      exact hnew i hi
  · intro t₁ t₂ k h₁ h₂
    rcases hclaims t₁ k h₁ with h₁ | ⟨heq₁, hnew, -⟩
    · rcases hclaims t₂ k h₂ with h₂ | ⟨-, hnew, -⟩
      · exact h.claim_unique t₁ t₂ k h₁ h₂
      · obtain ⟨i, hi⟩ := (h.claim t₁ k h₁).2.2
        exact absurd hi (hnew i)
    · rcases hclaims t₂ k h₂ with h₂ | ⟨heq₂, -⟩
      · obtain ⟨i, hi⟩ := (h.claim t₂ k h₂).2.2
        exact absurd hi (hnew i)
      · rw [heq₁, heq₂]
  · rw [htail, hqueue, hconsumer]
    exact fun t' k j hj => h.index t' k j (hold t' _ hj)
  · exact fun t₁ t₂ k j h₁ h₂ => h.index_unique t₁ t₂ k j (hold t₁ _ h₁) (hold t₂ _ h₂)
  · rw [htail, hqueue, hconsumer]
    intro j k hj hle
    rcases h.entries j k hj hle with hstored | hhand | ⟨t', ht'⟩
    · exact Or.inl hstored
    · exact Or.inr (Or.inl hhand)
    · refine Or.inr (Or.inr ⟨t', ?_⟩)
      by_cases heq : t' = t
      · rw [heq] at ht' ⊢
        rw [hself]
        exact hkeep _ ht'
      · rw [hother t' heq]
        exact ht'
  · rw [hhead, hqueue]
    exact h.empty
  · rw [hconsumer, htail, hhead]
    exact h.fetch
  · rw [hconsumer, htail, hqueue]
    exact h.clear
  · rw [hconsumer, htail, hqueue]
    exact h.advance

theorem Queued.look (h : Queued s tickets) {c : Caller} (hindex : c.index = (s.callers t).index)
    (hclaim : c.claim = (s.callers t).claim) : Queued (s.setCaller t c) tickets := by
  apply h.control (t := t) (c := c)
  · exact fun _ _ _ hi => hi
  · rfl
  · rfl
  · rfl
  · rfl
  · rfl
  · rfl
  · intro k hk
    rw [← hclaim]
    exact Or.inl hk
  · exact fun _ => Or.inl rfl
  · intro k hk
    rw [hclaim, hk]
  · intro e he
    rw [← hindex, he]
  · intro e he
    rw [hindex, he]

theorem Queued.claimed (h : Queued s tickets) (hc : s.callers t = .claimed key) :
    Queued ({ s with head := s.head + 1 }.setCaller t (.ticket key s.head)) (tickets ++ [key]) := by
  obtain ⟨hnot, hzero, hin⟩ := h.claim t key (by rw [hc]; rfl)
  have hnodup : (tickets ++ [key]).Nodup := by
    rw [List.nodup_append]
    refine ⟨h.nodup, List.nodup_singleton key, fun k hk k' hk' => ?_⟩
    rw [List.mem_singleton.mp hk']
    rintro rfl
    exact hnot hk
  have hset : ∀ k ∈ tickets ++ [key], k ≠ 0 ∧ ∃ i, s.keys i = k := by
    intro k hk
    rcases List.mem_append.mp hk with hold | hnew
    · exact h.inSet k hold
    · rw [List.mem_singleton.mp hnew]
      exact ⟨hzero, hin⟩
  have hroom : s.head < nativeKeys := by
    have hle := length_le_nativeKeys hnodup fun k hk => (hset k hk).2
    rw [List.length_append, h.head] at hle
    exact hle
  have hself : ({ s with head := s.head + 1 }.setCaller t (.ticket key s.head)).callers t =
      .ticket key s.head := setCaller_self _ t _
  have hother : ∀ t', t' ≠ t → ({ s with head := s.head + 1 }.setCaller t (.ticket key s.head)).callers t' =
      s.callers t' := fun t' ht => setCaller_of_ne { s with head := s.head + 1 } _ ht
  have hlast : (tickets ++ [key])[s.head]? = some key := by
    rw [← h.head, List.getElem?_concat_length]
  have hold : ∀ {j k}, tickets[j]? = some k → (tickets ++ [key])[j]? = some k := fun hj => by
    rw [List.getElem?_append_left (List.getElem?_eq_some_iff.mp hj).1]
    exact hj
  have hsplit : ∀ {j k}, (tickets ++ [key])[j]? = some k → tickets[j]? = some k ∨ j = s.head ∧ k = key := by
    intro j k hj
    rcases Nat.lt_or_ge j tickets.length with hlt | hge
    · rw [List.getElem?_append_left hlt] at hj
      exact Or.inl hj
    · rw [List.getElem?_append_right hge, List.getElem?_singleton] at hj
      split at hj
      · cases hj
        exact Or.inr ⟨by rw [← h.head]; omega, rfl⟩
      · cases hj
  have hindexes : ∀ t' k j,
      (({ s with head := s.head + 1 }.setCaller t (.ticket key s.head)).callers t').index = some (k, j) →
      (t' ≠ t ∧ (s.callers t').index = some (k, j)) ∨ t' = t ∧ k = key ∧ j = s.head := by
    intro t' k j hj
    by_cases heq : t' = t
    · rw [heq, hself] at hj
      cases hj
      exact Or.inr ⟨heq, rfl, rfl⟩
    · rw [hother t' heq] at hj
      exact Or.inl ⟨heq, hj⟩
  constructor
  · rw [List.length_append, h.head]
    rfl
  · exact hnodup
  · exact hset
  · intro i hi
    rcases h.covered i hi with hin' | ⟨t', ht'⟩
    · exact Or.inl (List.mem_append_left _ hin')
    · by_cases heq : t' = t
      · rw [heq, hc] at ht'
        injection ht' with hkey
        left
        change s.keys i ∈ tickets ++ [key]
        rw [← hkey]
        exact List.mem_append_right _ (List.mem_singleton_self key)
      · exact Or.inr ⟨t', by rw [hother t' heq]; exact ht'⟩
  · exact Nat.le_succ_of_le h.tail_le
  · rw [List.take_append_of_le_length (by rw [h.head]; exact h.tail_le)]
    exact h.delivered
  · intro t' k hk
    by_cases heq : t' = t
    · rw [heq, hself] at hk
      cases hk
    · rw [hother t' heq] at hk
      obtain ⟨hnot', hzero', hin'⟩ := h.claim t' k hk
      refine ⟨fun hmem => ?_, hzero', hin'⟩
      rcases List.mem_append.mp hmem with hmem | hmem
      · exact hnot' hmem
      · rw [List.mem_singleton.mp hmem] at hk
        exact heq (h.claim_unique t' t key hk (by rw [hc]; rfl))
  · intro t₁ t₂ k h₁ h₂
    by_cases heq₁ : t₁ = t
    · rw [heq₁, hself] at h₁
      cases h₁
    · by_cases heq₂ : t₂ = t
      · rw [heq₂, hself] at h₂
        cases h₂
      · rw [hother t₁ heq₁] at h₁
        rw [hother t₂ heq₂] at h₂
        exact h.claim_unique t₁ t₂ k h₁ h₂
  · intro t' k j hj
    rcases hindexes t' k j hj with ⟨-, hj⟩ | ⟨-, rfl, rfl⟩
    · obtain ⟨hticket, hrest⟩ := h.index t' k j hj
      exact ⟨hold hticket, hrest⟩
    · refine ⟨hlast, h.tail_le, h.empty _ (Nat.le_refl _) hroom, fun htail => ?_⟩
      change s.consumer.hand = none
      cases hhand : s.consumer.hand with
      | none => rfl
      | some k' =>
        have hlt := h.lt_head (h.advance k' hhand).1
        change s.head = s.tail at htail
        omega
  · intro t₁ t₂ k j h₁ h₂
    rcases hindexes t₁ k j h₁ with ⟨-, hj₁⟩ | ⟨heq₁, -, hhead⟩
    · rcases hindexes t₂ k j h₂ with ⟨-, hj₂⟩ | ⟨-, -, hhead⟩
      · exact h.index_unique t₁ t₂ k j hj₁ hj₂
      · exact absurd (h.lt_head (h.index t₁ k j hj₁).1) (by omega)
    · rcases hindexes t₂ k j h₂ with ⟨-, hj₂⟩ | ⟨heq₂, -⟩
      · exact absurd (h.lt_head (h.index t₂ k j hj₂).1) (by omega)
      · rw [heq₁, heq₂]
  · intro j k hj hle
    rcases hsplit hj with hj | ⟨rfl, rfl⟩
    · rcases h.entries j k hj hle with hstored | hhand | ⟨t', ht'⟩
      · exact Or.inl hstored
      · exact Or.inr (Or.inl hhand)
      · refine Or.inr (Or.inr ⟨t', ?_⟩)
        have hne : t' ≠ t := by
          rintro rfl
          rw [hc] at ht'
          cases ht'
        rw [hother t' hne]
        exact ht'
    · exact Or.inr (Or.inr ⟨t, by rw [hself]; rfl⟩)
  · exact fun j hj hlt => h.empty j (Nat.le_of_succ_le hj) hlt
  · exact fun count max hf => Nat.lt_succ_of_lt (h.fetch count max hf)
  · intro count max k hk
    obtain ⟨hticket, hstored⟩ := h.clear count max k hk
    exact ⟨hold hticket, hstored⟩
  · intro k hk
    obtain ⟨hticket, hcleared⟩ := h.advance k hk
    exact ⟨hold hticket, hcleared⟩

theorem Queued.store (h : Queued s tickets) (hc : s.callers t = .store key j) :
    Queued ({ s with queue := Function.update s.queue (queueSlot j) key }.setCaller t .idle) tickets := by
  have ht : (s.callers t).index = some (key, j) := by
    rw [hc]
    rfl
  obtain ⟨hticket, htail, hzero, hhand⟩ := h.index t key j ht
  have hj := h.lt_head hticket
  have hself : ({ s with queue := Function.update s.queue (queueSlot j) key }.setCaller t .idle).callers t =
      .idle := setCaller_self _ t _
  have hother : ∀ t', t' ≠ t →
      ({ s with queue := Function.update s.queue (queueSlot j) key }.setCaller t .idle).callers t' =
      s.callers t' := fun t' hne =>
    setCaller_of_ne { s with queue := Function.update s.queue (queueSlot j) key } _ hne
  have hentry : ∀ i, i < nativeKeys → i ≠ j →
      Function.update s.queue (queueSlot j) key (queueSlot i) = s.queue (queueSlot i) := by
    intro i hi hne
    apply Function.update_of_ne
    exact fun heq => hne (queueSlot_inj hi (Nat.lt_of_lt_of_le hj h.head_le) heq)
  have hbelow : ∀ {i}, i < s.head → i < nativeKeys := fun hi => Nat.lt_of_lt_of_le hi h.head_le
  have hindexes : ∀ t' k i,
      (({ s with queue := Function.update s.queue (queueSlot j) key }.setCaller t .idle).callers t').index =
        some (k, i) → t' ≠ t ∧ (s.callers t').index = some (k, i) := by
    intro t' k i hi
    by_cases heq : t' = t
    · rw [heq, hself] at hi
      cases hi
    · rw [hother t' heq] at hi
      exact ⟨heq, hi⟩
  have hclaims : ∀ t' k,
      (({ s with queue := Function.update s.queue (queueSlot j) key }.setCaller t .idle).callers t').claim =
        some k → (s.callers t').claim = some k := by
    intro t' k hk
    by_cases heq : t' = t
    · rw [heq, hself] at hk
      cases hk
    · rwa [hother t' heq] at hk
  constructor
  · exact h.head
  · exact h.nodup
  · exact h.inSet
  · intro i hi
    rcases h.covered i hi with hin | ⟨t', ht'⟩
    · exact Or.inl hin
    · have hne : t' ≠ t := by
        rintro rfl
        rw [hc] at ht'
        cases ht'
      exact Or.inr ⟨t', by rw [hother t' hne]; exact ht'⟩
  · exact h.tail_le
  · exact h.delivered
  · exact fun t' k hk => h.claim t' k (hclaims t' k hk)
  · exact fun t₁ t₂ k h₁ h₂ => h.claim_unique t₁ t₂ k (hclaims t₁ k h₁) (hclaims t₂ k h₂)
  · intro t' k i hi
    obtain ⟨hne, hold⟩ := hindexes t' k i hi
    obtain ⟨hticket', htail', hzero', hhand'⟩ := h.index t' k i hold
    refine ⟨hticket', htail', ?_, hhand'⟩
    rw [← hzero']
    apply hentry i (hbelow (h.lt_head hticket'))
    rintro rfl
    rw [hticket] at hticket'
    cases hticket'
    exact hne (h.index_unique t' t key i hold ht)
  · exact fun t₁ t₂ k i h₁ h₂ => h.index_unique t₁ t₂ k i (hindexes t₁ k i h₁).2 (hindexes t₂ k i h₂).2
  · intro i k hi hle
    by_cases heq : i = j
    · left
      rw [heq, hticket] at hi
      cases hi
      rw [heq]
      exact Function.update_self _ _ _
    · rcases h.entries i k hi hle with hstored | hhand | ⟨t', ht'⟩
      · left
        rw [← hstored]
        exact hentry i (hbelow (h.lt_head hi)) heq
      · exact Or.inr (Or.inl hhand)
      · refine Or.inr (Or.inr ⟨t', ?_⟩)
        have hne : t' ≠ t := by
          rintro rfl
          rw [ht] at ht'
          cases ht'
          exact heq rfl
        rw [hother t' hne]
        exact ht'
  · intro i hi hlt
    rw [← h.empty i hi hlt]
    exact hentry i hlt (Nat.ne_of_gt (Nat.lt_of_lt_of_le hj hi))
  · exact h.fetch
  · intro count max k hk
    obtain ⟨hticket', hstored⟩ := h.clear count max k hk
    refine ⟨hticket', ?_⟩
    rw [← hstored]
    apply hentry _ (hbelow (h.lt_head hticket'))
    intro heq
    rw [heq, hzero] at hstored
    exact h.ne_zero hticket' hstored.symm
  · intro k hk
    obtain ⟨hticket', hcleared⟩ := h.advance k hk
    refine ⟨hticket', ?_⟩
    rw [← hcleared]
    apply hentry _ (hbelow (h.lt_head hticket'))
    intro heq
    have hnone := hhand heq.symm
    change s.consumer.hand = some k at hk
    rw [hnone] at hk
    cases hk

omit [DecidableEq τ] in
theorem Queued.consume (h : Queued s tickets) {c : Consumer} (hhand : s.consumer.hand = none)
    (hnone : c.hand = none) (hfetch : ∀ count max, c = .fetch count max → s.tail < s.head)
    (hclear : ∀ count max k, c = .clear count max k →
      tickets[s.tail]? = some k ∧ s.queue (queueSlot s.tail) = k) : Queued { s with consumer := c } tickets where
  head := h.head
  nodup := h.nodup
  inSet := h.inSet
  covered := h.covered
  tail_le := h.tail_le
  delivered := h.delivered
  claim := h.claim
  claim_unique := h.claim_unique
  index := fun t k j hj => by
    obtain ⟨hticket, hle, hzero, -⟩ := h.index t k j hj
    exact ⟨hticket, hle, hzero, fun _ => hnone⟩
  index_unique := h.index_unique
  entries := fun j k hj hle => by
    rcases h.entries j k hj hle with hstored | ⟨-, hsome⟩ | hpending
    · exact Or.inl hstored
    · rw [hhand] at hsome
      cases hsome
    · exact Or.inr (Or.inr hpending)
  empty := h.empty
  fetch := hfetch
  clear := hclear
  advance := fun k hk => by
    change c.hand = some k at hk
    rw [hnone] at hk
    cases hk

omit [DecidableEq τ] in
theorem Queued.clearEntry (h : Queued s tickets) {count max : Int} (hc : s.consumer = .clear count max key) :
    Queued { s with
      queue := Function.update s.queue (queueSlot s.tail) 0
      consumer := .advance count max key } tickets := by
  obtain ⟨hticket, hstored⟩ := h.clear count max key hc
  have hlt := h.lt_head hticket
  have hentry : ∀ i, i < nativeKeys → i ≠ s.tail →
      Function.update s.queue (queueSlot s.tail) 0 (queueSlot i) = s.queue (queueSlot i) := by
    intro i hi hne
    apply Function.update_of_ne
    exact fun heq => hne (queueSlot_inj hi (Nat.lt_of_lt_of_le hlt h.head_le) heq)
  constructor
  · exact h.head
  · exact h.nodup
  · exact h.inSet
  · exact h.covered
  · exact h.tail_le
  · exact h.delivered
  · exact h.claim
  · exact h.claim_unique
  · intro t k j hj
    obtain ⟨hticket', hle, hzero, -⟩ := h.index t k j hj
    have hne : j ≠ s.tail := by
      rintro rfl
      rw [hstored] at hzero
      exact h.ne_zero hticket hzero
    refine ⟨hticket', hle, ?_, fun heq => absurd heq hne⟩
    exact (hentry j (Nat.lt_of_lt_of_le (h.lt_head hticket') h.head_le) hne).trans hzero
  · exact h.index_unique
  · intro j k hj hle
    by_cases heq : j = s.tail
    · rw [heq, hticket] at hj
      cases hj
      exact Or.inr (Or.inl ⟨heq, rfl⟩)
    · rcases h.entries j k hj hle with hstored' | ⟨htail, -⟩ | hpending
      · left
        rw [← hstored']
        exact hentry j (Nat.lt_of_lt_of_le (h.lt_head hj) h.head_le) heq
      · exact absurd htail heq
      · exact Or.inr (Or.inr hpending)
  · intro j hj hlt'
    exact (hentry j hlt' (Nat.ne_of_gt (Nat.lt_of_lt_of_le hlt hj))).trans (h.empty j hj hlt')
  · exact fun _ _ hf => by cases hf
  · exact fun _ _ _ hf => by cases hf
  · intro k hk
    cases hk
    exact ⟨hticket, Function.update_self _ _ _⟩

omit [DecidableEq τ] in
theorem Queued.advanceTail (h : Queued s tickets) {count max : Int} (hc : s.consumer = .advance count max key) :
    Queued { s with
      tail := s.tail + 1
      delivered := s.delivered ++ [key]
      consumer := .check (count + 1) max } tickets := by
  have hhand : s.consumer.hand = some key := by
    rw [hc]
    rfl
  obtain ⟨hticket, -⟩ := h.advance key hhand
  constructor
  · exact h.head
  · exact h.nodup
  · exact h.inSet
  · exact h.covered
  · exact h.lt_head hticket
  · change s.delivered ++ [key] = tickets.take (s.tail + 1)
    rw [List.take_add_one, hticket, h.delivered]
    rfl
  · exact h.claim
  · exact h.claim_unique
  · intro t k j hj
    obtain ⟨hticket', hle, hzero, hnone⟩ := h.index t k j hj
    refine ⟨hticket', ?_, hzero, fun _ => rfl⟩
    change s.tail + 1 ≤ j
    have hne : j ≠ s.tail := by
      intro heq
      rw [hnone heq] at hhand
      cases hhand
    omega
  · exact h.index_unique
  · intro j k hj hle
    change s.tail + 1 ≤ j at hle
    rcases h.entries j k hj (by omega) with hstored | ⟨htail, -⟩ | hpending
    · exact Or.inl hstored
    · omega
    · exact Or.inr (Or.inr hpending)
  · exact h.empty
  · exact fun _ _ hf => by cases hf
  · exact fun _ _ _ hf => by cases hf
  · exact fun _ hf => by cases hf

omit [DecidableEq τ] in
theorem Queued.consumerStep (h : Queued s tickets) : Queued (consumerStep s) tickets := by
  unfold Native.consumerStep
  cases hc : s.consumer with
  | idle => exact h
  | check count max =>
    have hhand : s.consumer.hand = none := by
      rw [hc]
      rfl
    dsimp only
    split
    case isTrue hmore =>
        apply h.consume hhand rfl
        · exact fun _ _ _ => hmore.2
        · exact fun _ _ _ hf => by cases hf
    case isFalse =>
        apply h.consume hhand rfl
        · exact fun _ _ hf => by cases hf
        · exact fun _ _ _ hf => by cases hf
  | fetch count max =>
    have hhand : s.consumer.hand = none := by
      rw [hc]
      rfl
    dsimp only
    split
    case isTrue =>
        apply h.consume hhand rfl
        · exact fun _ _ hf => by cases hf
        · exact fun _ _ _ hf => by cases hf
    case isFalse hne =>
        apply h.consume hhand rfl
        · exact fun _ _ hf => by cases hf
        · intro _ _ k hf
          cases hf
          have hlt := h.fetch count max hc
          rw [← h.head] at hlt
          have hticket := List.getElem?_eq_getElem hlt
          rcases h.entries s.tail _ hticket (Nat.le_refl _) with hstored | ⟨-, hsome⟩ | ⟨t, ht⟩
          · rw [hstored]
            exact ⟨hticket, rfl⟩
          · rw [hhand] at hsome
            cases hsome
          · exact absurd (h.index t _ _ ht).2.2.1 hne
  | clear count max key => exact h.clearEntry hc
  | advance count max key => exact h.advanceTail hc

theorem Queued.callerStep (h : Queued s tickets) (hset : SetInv s) (t : τ) :
    ∃ tickets', tickets <+: tickets' ∧ Queued (callerStep s t) tickets' := by
  unfold Native.callerStep
  cases hc : s.callers t with
  | idle => exact ⟨tickets, List.prefix_rfl, h⟩
  | load key p =>
    refine ⟨tickets, List.prefix_rfl, ?_⟩
    dsimp only
    split
    · exact h.look (by rw [hc]; rfl) (by rw [hc]; rfl)
    · split
      · exact h.look (by rw [hc]; rfl) (by rw [hc]; rfl)
      · split
        · exact h.look (by rw [hc]; rfl) (by rw [hc]; rfl)
        · exact h.look (by rw [hc]; rfl) (by rw [hc]; rfl)
  | cas key p =>
    have hindex : (s.callers t).index = none := by rw [hc]; rfl
    have hprobe : (s.callers t).probe = some (key, p) := by rw [hc]; rfl
    refine ⟨tickets, List.prefix_rfl, ?_⟩
    dsimp only
    split
    case isFalse => exact h.look (by rw [hc]; rfl) (by rw [hc]; rfl)
    case isTrue hempty =>
        have hkey := hset.cas t key p hc
        apply h.control (t := t) (c := .claimed key)
        · intro i k hk hi
          change Function.update s.keys (probeSlot key p) key i = k
          rw [Function.update_of_ne]
          · exact hi
          · rintro rfl
            rw [hempty] at hi
            exact hk hi.symm
        · rfl
        · rfl
        · rfl
        · rfl
        · rfl
        · rfl
        · intro k hk
          cases hk
          exact Or.inr ⟨hset.fresh hkey (hset.passed t key p hprobe) hempty, hkey, probeSlot key p,
            Function.update_self _ _ _⟩
        · intro i
          by_cases hi : i = probeSlot key p
          · right
            change some key = some (Function.update s.keys (probeSlot key p) key i)
            rw [hi, Function.update_self]
          · exact Or.inl (Function.update_of_ne hi _ _)
        · intro k hk
          rw [hc] at hk
          cases hk
        · intro e he
          cases he
        · intro e he
          rw [hindex] at he
          cases he
  | recheck key p =>
    refine ⟨tickets, List.prefix_rfl, ?_⟩
    dsimp only
    split
    · exact h.look (by rw [hc]; rfl) (by rw [hc]; rfl)
    · exact h.look (by rw [hc]; rfl) (by rw [hc]; rfl)
  | claimed key => exact ⟨_, List.prefix_append _ _, h.claimed hc⟩
  | ticket key index =>
    have hindex : (s.callers t).index = some (key, index) := by rw [hc]; rfl
    refine ⟨tickets, List.prefix_rfl, ?_⟩
    dsimp only
    have hlt := h.lt_head (h.index t key index hindex).1
    have hle := h.head_le
    rw [if_pos (by omega)]
    exact h.look (by rw [hc]; rfl) (by rw [hc]; rfl)
  | store key index => exact ⟨tickets, List.prefix_rfl, h.store hc⟩

def Inv (s : State τ) : Prop := SetInv s ∧ ∃ tickets, Queued s tickets

omit [DecidableEq τ] in
theorem reset_inv : Inv (reset : State τ) := ⟨reset_setInv, [], reset_queued⟩

theorem Queued.step (h : Queued s tickets) (hset : SetInv s) (a : Action τ) :
    ∃ tickets', tickets <+: tickets' ∧ Queued (step s a) tickets' := by
  unfold Native.step
  cases a with
  | call t key =>
    refine ⟨tickets, List.prefix_rfl, ?_⟩
    dsimp only
    split
    case isTrue hidle => exact h.look (by rw [hidle]; rfl) (by rw [hidle]; rfl)
    case isFalse => exact h
  | step t => exact h.callerStep hset t
  | take max =>
    refine ⟨tickets, List.prefix_rfl, ?_⟩
    dsimp only
    split
    case isTrue hidle =>
        refine h.consume ?_ rfl (fun _ _ hf => by cases hf) fun _ _ _ hf => by cases hf
        rw [hidle]
        rfl
    case isFalse => exact h
  | consume => exact ⟨tickets, List.prefix_rfl, h.consumerStep⟩

theorem Inv.step (h : Inv s) (a : Action τ) : Inv (step s a) := by
  obtain ⟨hset, tickets, hqueue⟩ := h
  obtain ⟨tickets', -, hnext⟩ := hqueue.step hset a
  exact ⟨hset.step a, tickets', hnext⟩

omit [DecidableEq τ] in
theorem Inv.delivered_nodup (h : Inv s) : s.delivered.Nodup := by
  obtain ⟨-, tickets, hqueue⟩ := h
  rw [hqueue.delivered]
  exact hqueue.nodup.sublist (List.take_sublist _ _)

omit [DecidableEq τ] in
theorem Inv.delivered_mem (h : Inv s) (hk : k ∈ s.delivered) : k ≠ 0 ∧ ∃ i, s.keys i = k := by
  obtain ⟨-, tickets, hqueue⟩ := h
  rw [hqueue.delivered] at hk
  exact hqueue.inSet k (List.mem_of_mem_take hk)

end HashLink.Prof.Native
