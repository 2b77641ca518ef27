import HashLink.Jit.FlushMovs

/-!
`flush_movs` does the moves of its list at once. The values of the list past its end are read when a move
of a register to itself is removed, as the loop keeps its bound.
-/

namespace HashLink.Jit

open ParallelMove

section Lists

variable {a movs : MovArr} {k size : Nat} {m : Mov} {r : Ereg}

theorem MovArr.mem_toList : m ∈ a.toList ↔ ∃ i < a.cur, a.values i = m := by
  simp [MovArr.toList]

theorem MovArr.value_mem (h : k < a.cur) : a.values k ∈ a.toList := (MovArr.mem_toList).2 ⟨k, h, rfl⟩

@[simp] theorem MovArr.length_toList (a : MovArr) : a.toList.length = a.cur := by
  simp [MovArr.toList]

theorem MovArr.reads_iff : a.reads size r = true ↔ ∃ i < size, (a.values i).from_ = r := by
  simp [MovArr.reads]

/-- The list `movs` after the removal of an entry of `a`. -/
structure Removed (a movs : MovArr) (k : Nat) : Prop where
  lt : k < a.cur
  cur : movs.cur + 1 = a.cur
  before : ∀ i < k, movs.values i = a.values i
  shifted : ∀ i, k ≤ i → i + 1 < a.cur → movs.values i = a.values (i + 1)
  stale : ∀ i, a.cur ≤ i + 1 → movs.values i = a.values i

theorem removeRange_removed (h : k < a.cur) : ∃ movs, a.removeRange k = .ok movs ∧ Removed a movs k := by
  refine ⟨_, if_pos h, h, by dsimp only; omega, ?_, ?_, ?_⟩
  · intro i hi
    exact if_neg fun hc => by omega
  · intro i hi hcur
    exact if_pos ⟨hi, hcur⟩
  · intro i hi
    exact if_neg fun hc => by omega

theorem removeRange_outside (h : a.cur ≤ k) : a.removeRange k = .error .outside := if_neg (by omega)

theorem Removed.toList (h : Removed a movs k) : movs.toList = a.toList.eraseIdx k := by
  apply List.ext_getElem?
  intro i
  have hcur := h.cur
  rw [List.getElem?_eraseIdx]
  simp only [MovArr.toList, List.getElem?_map]
  split
  next hi =>
    rw [List.getElem?_range (by have := h.lt; omega), List.getElem?_range (by have := h.lt; omega)]
    simp [h.before i hi]
  next hi =>
    by_cases hlt : i + 1 < a.cur
    · rw [List.getElem?_range (by omega), List.getElem?_range (by omega)]
      simp [h.shifted i (by omega) hlt]
    · rw [List.getElem?_eq_none (by simp; omega), List.getElem?_eq_none (by simp; omega)]
      rfl

theorem Removed.perm (h : Removed a movs k) : a.toList.Perm (a.values k :: movs.toList) := by
  have hlt : k < a.toList.length := by simpa using h.lt
  have hget : a.toList[k] = a.values k := by simp [MovArr.toList]
  rw [h.toList, ← hget]
  exact (List.getElem_cons_eraseIdx_perm hlt).symm

end Lists

variable {a : MovArr} {ms : List Mov} {s : FlushState}

section Scan

variable {cond counting : Bool} {size : Nat}

def Quiet (a : MovArr) (size i : Nat) : Prop :=
  (a.values i).to_ ≠ (a.values i).from_ ∧ a.reads size (a.values i).to_ = true

theorem scan_quiet {left k : Nat} (cycle : Bool) (hquiet : ∀ i, k ≤ i → i < k + left → Quiet s.movs size i) :
    scanMovs cond counting size left k s cycle = .ok (s, cycle) := by
  induction left generalizing k with
  | zero => rfl
  | succ left ih =>
    obtain ⟨hself, hread⟩ := hquiet k (Nat.le_refl k) (by omega)
    rw [scanMovs, if_neg hself, if_pos hread]
    exact ih fun i hi hlt => hquiet i (by omega) (by omega)

/-- The first entry at which the scan does something, if there is one. -/
inductive FirstEvent (cond counting : Bool) (s : FlushState) (size k left : Nat) : Prop
  | quiet (hquiet : ∀ i, k ≤ i → i < k + left → Quiet s.movs size i)
      (heq : scanMovs cond counting size left k s true = .ok (s, true))
  | self (j : Nat) (movs : MovArr) (hj : k ≤ j ∧ j < k + left)
      (hbefore : ∀ i, k ≤ i → i < j → Quiet s.movs size i) (hremoved : Removed s.movs movs j)
      (hself : (s.movs.values j).to_ = (s.movs.values j).from_)
      (heq : scanMovs cond counting size left k s true =
        scanMovs cond counting size (k + left - (j + 1)) (j + 1) { s with movs := movs } false)
  | free (j : Nat) (movs : MovArr) (hj : k ≤ j ∧ j < k + left)
      (hbefore : ∀ i, k ≤ i → i < j → Quiet s.movs size i) (hremoved : Removed s.movs movs j)
      (hself : (s.movs.values j).to_ ≠ (s.movs.values j).from_)
      (hread : s.movs.reads size (s.movs.values j).to_ = false)
      (heq : scanMovs cond counting size left k s true =
        .ok ({ s.emit counting (movInstr cond (s.movs.values j)) with movs := movs }, false))

theorem scan_first (cond counting : Bool) (s : FlushState) (size left k : Nat) (hcur : k + left ≤ s.movs.cur) :
    FirstEvent cond counting s size k left := by
  induction left generalizing k with
  | zero => exact .quiet (fun i hi hlt => by omega) rfl
  | succ left ih =>
    by_cases hself : (s.movs.values k).to_ = (s.movs.values k).from_
    · obtain ⟨movs, heq, hremoved⟩ := removeRange_removed (a := s.movs) (k := k) (by omega)
      refine .self k movs (by omega) (fun i hi hlt => by omega) hremoved hself ?_
      rw [scanMovs, if_pos hself, heq, show k + (left + 1) - (k + 1) = left by omega]
    by_cases hread : s.movs.reads size (s.movs.values k).to_ = true
    · have hnext : scanMovs cond counting size (left + 1) k s true =
          scanMovs cond counting size left (k + 1) s true := by
        rw [scanMovs, if_neg hself, if_pos hread]
      have hextend : ∀ {j}, (∀ i, k + 1 ≤ i → i < j → Quiet s.movs size i) →
          ∀ i, k ≤ i → i < j → Quiet s.movs size i := by
        intro j hquiet i hi hlt
        obtain rfl | hi := Nat.eq_or_lt_of_le hi
        · exact ⟨hself, hread⟩
        · exact hquiet i hi hlt
      cases ih (k + 1) (by omega) with
      | quiet hquiet heq =>
        exact .quiet (hextend fun i hi hlt => hquiet i hi (by omega)) (hnext.trans heq)
      | self j movs hj hbefore hremoved hself heq =>
        refine .self j movs (by omega) (hextend hbefore) hremoved hself (hnext.trans (heq.trans ?_))
        rw [show k + 1 + left = k + (left + 1) by omega]
      | free j movs hj hbefore hremoved hself hread heq =>
        exact .free j movs (by omega) (hextend hbefore) hremoved hself hread (hnext.trans heq)
    · obtain ⟨movs, heq, hremoved⟩ := removeRange_removed (a := s.movs) (k := k) (by omega)
      refine .free k movs (by omega) (fun i hi hlt => by omega) hremoved hself (by simpa using hread) ?_
      rw [scanMovs, if_neg hself, if_neg hread]
      dsimp only [FlushState.emit]
      rw [heq]

end Scan

section Owed

variable {V : Type} {taken : Bool} {σ : Ereg → V} {moves : List (Ereg × Ereg)} {s : FlushState}

/-- What the list still holds, after the code emitted so far, makes up the moves. -/
def Owes (taken : Bool) (σ : Ereg → V) (moves : List (Ereg × Ereg)) (s : FlushState) : Prop :=
  ∀ σ', Parallel (s.movs.toList.map Mov.pair) (runMoves taken s.code σ) σ' → Parallel moves σ σ'

def Distinct (ms : List Mov) : Prop := (ms.map Mov.to_).Nodup

theorem Distinct.removed {movs : MovArr} {k : Nat} (h : Distinct a.toList) (hremoved : Removed a movs k) :
    Distinct movs.toList ∧ ∀ m ∈ movs.toList, m.to_ ≠ (a.values k).to_ := by
  have hnodup := (hremoved.perm.map Mov.to_).nodup_iff.1 h
  rw [List.map_cons, List.nodup_cons] at hnodup
  exact ⟨hnodup.2, fun m hm he => hnodup.1 (he ▸ List.mem_map_of_mem hm)⟩

variable {movs : MovArr} {k : Nat}

theorem Removed.parallel (hremoved : Removed s.movs movs k) {σ σ' : Ereg → V}
    (h : Parallel (((s.movs.values k).to_, (s.movs.values k).from_) :: movs.toList.map Mov.pair) σ σ') :
    Parallel (s.movs.toList.map Mov.pair) σ σ' :=
  h.perm (hremoved.perm.map Mov.pair).symm

theorem forall_pair {P : Ereg × Ereg → Prop} (h : ∀ m ∈ ms, P m.pair) :
    ∀ p ∈ ms.map Mov.pair, P p := by
  intro p hp
  obtain ⟨m, hm, rfl⟩ := List.mem_map.1 hp
  exact h m hm

theorem Owes.self (h : Owes taken σ moves s) (hdistinct : Distinct s.movs.toList)
    (hremoved : Removed s.movs movs k) (hself : (s.movs.values k).to_ = (s.movs.values k).from_) :
    Owes taken σ moves { s with movs := movs } := by
  intro σ' hrest
  apply h σ'
  apply hremoved.parallel
  rw [← hself]
  exact hrest.self (forall_pair (hdistinct.removed hremoved).2)

theorem run_movInstr {cond : Bool} (htaken : cond = true → taken = true) (m : Mov) (σ : Ereg → V) :
    (movInstr cond m).run taken σ = Function.update σ m.to_ (σ m.from_) := by
  unfold movInstr
  split
  next h =>
    rw [Bool.and_eq_true] at h
    exact if_pos (htaken h.1)
  next => rfl

theorem run_xchgInstr {cond : Bool} (htaken : cond = true → taken = true) (m : Mov) (σ : Ereg → V) :
    (xchgInstr cond m).run taken σ = exchange σ m.to_ m.from_ := by
  unfold xchgInstr
  dsimp only
  split
  next h =>
    rw [Bool.and_eq_true] at h
    exact if_pos (htaken h.1)
  next => rfl

theorem Owes.mov {cond counting : Bool} (h : Owes taken σ moves s) (hdistinct : Distinct s.movs.toList)
    (htaken : cond = true → taken = true) (hremoved : Removed s.movs movs k)
    (hread : ∀ m ∈ movs.toList, m.from_ ≠ (s.movs.values k).to_) :
    Owes taken σ moves { s.emit counting (movInstr cond (s.movs.values k)) with movs := movs } := by
  intro σ' hrest
  apply h σ'
  apply hremoved.parallel
  refine Parallel.move ?_ (forall_pair (hdistinct.removed hremoved).2) (forall_pair hread)
  rw [← run_movInstr htaken, ← runMoves_append]
  exact hrest

theorem pair_renameMov (to_ from_ : Ereg) (m : Mov) :
    (renameMov to_ from_ m).pair = (m.to_, rename to_ from_ m.from_) := by
  unfold renameMov rename
  split
  next => rfl
  next => split <;> rfl

theorem pairs_renameMovs (a : MovArr) (to_ from_ : Ereg) :
    (a.renameMovs to_ from_).toList.map Mov.pair =
      (a.toList.map Mov.pair).map fun m => (m.1, rename to_ from_ m.2) := by
  dsimp only [MovArr.toList, MovArr.renameMovs]
  rw [List.map_map, List.map_map, List.map_map]
  apply List.map_congr_left
  intro i hi
  dsimp only [Function.comp_apply]
  rw [if_pos (List.mem_range.1 hi), pair_renameMov]
  rfl

theorem breakCycle_eq {cond counting : Bool} (heq : s.movs.removeRange 0 = .ok movs) :
    breakCycle cond counting s = .ok { s.emit counting (xchgInstr cond (s.movs.values 0)) with
      movs := movs.renameMovs (s.movs.values 0).to_ (s.movs.values 0).from_ } := by
  unfold breakCycle
  dsimp only [FlushState.emit]
  rw [heq]

theorem Owes.xchg {cond counting : Bool} (h : Owes taken σ moves s) (hdistinct : Distinct s.movs.toList)
    (htaken : cond = true → taken = true) (hremoved : Removed s.movs movs 0)
    (hsrc : ∃ m ∈ movs.toList, m.to_ = (s.movs.values 0).from_) :
    Owes taken σ moves { s.emit counting (xchgInstr cond (s.movs.values 0)) with
      movs := movs.renameMovs (s.movs.values 0).to_ (s.movs.values 0).from_ } := by
  intro σ' hrest
  apply h σ'
  apply hremoved.parallel
  refine Parallel.swap ?_ (forall_pair (hdistinct.removed hremoved).2) ?_
  · rw [← run_xchgInstr htaken, ← runMoves_append, ← pairs_renameMovs]
    exact hrest
  · obtain ⟨m, hm, he⟩ := hsrc
    exact ⟨m.pair, List.mem_map_of_mem hm, he⟩

end Owed

section Runs

variable {s : FlushState}

def Mov.Self (m : Mov) : Prop := m.to_ = m.from_

instance (m : Mov) : Decidable m.Self := inferInstanceAs (Decidable (m.to_ = m.from_))

def SelfLast (ms : List Mov) : Prop := ∀ m ∈ ms.dropLast, ¬m.Self

/-- Every register that is moved to is read, and at most one by its own move. -/
structure Circular (ms : List Mov) : Prop where
  allRead : AllRead (ms.map Mov.pair)
  oneSelf : ∀ m ∈ ms, ∀ n ∈ ms, m.Self → n.Self → m.to_ = n.to_

structure FlushInv (s : FlushState) : Prop where
  distinct : Distinct s.movs.toList
  shape : SelfLast s.movs.toList ∨ Circular s.movs.toList

theorem map_fst_pair (ms : List Mov) : (ms.map Mov.pair).map Prod.fst = ms.map Mov.to_ := by
  rw [List.map_map]
  rfl

/-- An entry is gone and the moves that were owed are still. -/
structure Steps (cond : Bool) (s s' : FlushState) : Prop where
  inv : FlushInv s'
  cur : s'.movs.cur + 1 = s.movs.cur
  owes : ∀ {V : Type} {taken : Bool} {σ : Ereg → V} {moves : List (Ereg × Ereg)},
    (cond = true → taken = true) → Owes taken σ moves s → Owes taken σ moves s'

section Passes

variable {movs : MovArr} {k : Nat}

theorem selfLast_iff : SelfLast a.toList ↔ ∀ i, i + 1 < a.cur → ¬(a.values i).Self := by
  have hdrop : a.toList.dropLast = (List.range (a.cur - 1)).map a.values := by
    rw [List.dropLast_eq_take, MovArr.length_toList, MovArr.toList, ← List.map_take, List.take_range]
    congr 2
    omega
  unfold SelfLast
  rw [hdrop]
  constructor
  · intro h i hi
    exact h _ (List.mem_map_of_mem (List.mem_range.2 (by omega)))
  · intro h m hm
    obtain ⟨i, hi, rfl⟩ := List.mem_map.1 hm
    have hlt := List.mem_range.1 hi
    exact h i (by omega)

theorem SelfLast.removed (h : SelfLast a.toList) (hremoved : Removed a movs k) :
    SelfLast movs.toList := by
  rw [selfLast_iff] at h ⊢
  have hcur := hremoved.cur
  intro i hi
  by_cases hk : i < k
  · rw [hremoved.before i hk]
    exact h i (by omega)
  · rw [hremoved.shifted i (by omega) (by omega)]
    exact h (i + 1) (by omega)

theorem Circular.perm {ms' : List Mov} (h : Circular ms) (hperm : ms.Perm ms') : Circular ms' := by
  constructor
  · intro p hp
    exact ((hperm.map Mov.pair).map Prod.snd).mem_iff.1 (h.allRead p ((hperm.map Mov.pair).mem_iff.2 hp))
  · intro m hm n hn
    exact h.oneSelf m (hperm.mem_iff.2 hm) n (hperm.mem_iff.2 hn)

theorem Circular.removed (h : Circular a.toList) (hdistinct : Distinct a.toList) (hremoved : Removed a movs k)
    (hself : (a.values k).Self) :
    Circular movs.toList ∧ ∀ m ∈ movs.toList, ¬m.Self := by
  have hto := (hdistinct.removed hremoved).2
  have hcons := h.perm hremoved.perm
  have hnone : ∀ m ∈ movs.toList, ¬m.Self := by
    intro m hm hmself
    exact hto m hm (hcons.oneSelf m (List.mem_cons_of_mem _ hm) _ List.mem_cons_self hmself hself)
  refine ⟨⟨?_, fun m hm n hn hmself => absurd hmself (hnone m hm)⟩, hnone⟩
  have hread := hcons.allRead
  rw [List.map_cons, show (a.values k).pair = ((a.values k).to_, (a.values k).to_) from
    Prod.ext rfl hself.symm] at hread
  exact hread.tail (forall_pair hto)

theorem Circular.reads (h : Circular a.toList) {m : Mov} (hm : m ∈ a.toList) :
    a.reads a.cur m.to_ = true := by
  have hread := h.allRead _ (List.mem_map_of_mem hm)
  rw [List.map_map] at hread
  obtain ⟨n, hn, hfrom⟩ := List.mem_map.1 hread
  obtain ⟨j, hj, rfl⟩ := MovArr.mem_toList.1 hn
  exact MovArr.reads_iff.2 ⟨j, hj, hfrom⟩

/-- The rest of the scan after the removal of a move of a register to itself from a list of cycles. The
last entry of the list is looked at again past its end. -/
theorem Circular.quiet (h : Circular a.toList) (hdistinct : Distinct a.toList) (hremoved : Removed a movs k)
    (hself : (a.values k).Self) {i : Nat} (hk : k < i) (hi : i < a.cur) :
    Quiet movs a.cur i := by
  obtain ⟨hcircular, hnone⟩ := h.removed hdistinct hremoved hself
  have hcur := hremoved.cur
  have hmem : movs.values i ∈ movs.toList := by
    by_cases hlt : i < movs.cur
    · exact MovArr.value_mem hlt
    · have hlast : movs.values i = movs.values (i - 1) := by
        rw [hremoved.stale i (by omega), hremoved.shifted (i - 1) (by omega) (by omega)]
        congr 1
        omega
      rw [hlast]
      exact MovArr.value_mem (by omega)
  obtain ⟨j, hj, hfrom⟩ := MovArr.reads_iff.1 (hcircular.reads hmem)
  exact ⟨hnone _ hmem, MovArr.reads_iff.2 ⟨j, by omega, hfrom⟩⟩

theorem FlushInv.xchg (cond counting : Bool) (hdistinct : Distinct s.movs.toList) (hcircular : Circular s.movs.toList)
    (hnone : ∀ m ∈ s.movs.toList, ¬m.Self) (hcur : 0 < s.movs.cur) :
    ∃ s', breakCycle cond counting s = .ok s' ∧ Steps cond s s' := by
  obtain ⟨movs, heq, hremoved⟩ := removeRange_removed hcur
  refine ⟨_, breakCycle_eq heq, ?_⟩
  have hto := (hdistinct.removed hremoved).2
  have hcons := hcircular.perm hremoved.perm
  have hnodup : ((((s.movs.values 0).to_, (s.movs.values 0).from_) :: movs.toList.map Mov.pair).map
      Prod.fst).Nodup := by
    have hmap := (hremoved.perm.map Mov.to_).nodup_iff.1 hdistinct
    rw [List.map_cons, map_fst_pair]
    exact hmap
  have hread : AllRead (((s.movs.values 0).to_, (s.movs.values 0).from_) :: movs.toList.map Mov.pair) :=
    hcons.allRead
  have hne : (s.movs.values 0).to_ ≠ (s.movs.values 0).from_ := hnone _ (MovArr.value_mem hcur)
  constructor
  · constructor
    · show Distinct (movs.renameMovs _ _).toList
      unfold Distinct
      rw [← map_fst_pair, pairs_renameMovs, List.map_map]
      exact (List.nodup_cons.1 hnodup).2
    · refine .inr ⟨?_, ?_⟩
      · show AllRead ((movs.renameMovs _ _).toList.map Mov.pair)
        rw [pairs_renameMovs]
        exact hread.swap hnodup hne
      · have hsrc : ∀ m ∈ (movs.renameMovs (s.movs.values 0).to_ (s.movs.values 0).from_).toList, m.Self →
            m.to_ = (s.movs.values 0).from_ := by
          intro m hm hself
          have hpair := List.mem_map_of_mem (f := Mov.pair) hm
          rw [pairs_renameMovs] at hpair
          obtain ⟨p, hp, hpm⟩ := List.mem_map.1 hpair
          have hpne : p.1 ≠ p.2 := by
            obtain ⟨n, hn, rfl⟩ := List.mem_map.1 hp
            exact hnone n (hremoved.perm.mem_iff.2 (List.mem_cons_of_mem _ hn))
          have hto : m.to_ = p.1 := (congrArg Prod.fst hpm).symm
          have hfrom : m.from_ = rename (s.movs.values 0).to_ (s.movs.values 0).from_ p.2 :=
            (congrArg Prod.snd hpm).symm
          rw [hto]
          exact self_of_swap hread hnodup hp hpne (hto ▸ hfrom ▸ hself)
        intro m hm n hn hmself hnself
        rw [hsrc m hm hmself, hsrc n hn hnself]
  · exact hremoved.cur
  · intro V taken σ moves htaken h
    refine h.xchg hdistinct htaken hremoved ?_
    have hsrc := (hread.sources_perm hnodup).mem_iff.2 (List.mem_cons_self (a := (s.movs.values 0).from_))
    rw [List.map_cons, List.mem_cons, map_fst_pair] at hsrc
    obtain ⟨m, hm, he⟩ := List.mem_map.1 (hsrc.resolve_left hne.symm)
    exact ⟨m, hm, he⟩

theorem FlushInv.step (cond counting : Bool) (h : FlushInv s) (hcur : 0 < s.movs.cur) :
    ∃ s', (∀ fuel, flushMovs cond counting (fuel + 1) s = flushMovs cond counting fuel s') ∧
      Steps cond s s' := by
  have hpass : ∀ {s'}, scanMovs cond counting s.movs.cur s.movs.cur 0 s true = .ok (s', false) →
      ∀ fuel, flushMovs cond counting (fuel + 1) s = flushMovs cond counting fuel s' := by
    intro s' heq fuel
    rw [flushMovs, if_neg (by omega), heq]
  cases scan_first cond counting s s.movs.cur s.movs.cur 0 (by omega) with
  | quiet hquiet heq =>
    have hnone : ∀ m ∈ s.movs.toList, ¬m.Self := by
      intro m hm
      obtain ⟨i, hi, rfl⟩ := MovArr.mem_toList.1 hm
      exact (hquiet i (by omega) (by omega)).1
    have hcircular : Circular s.movs.toList := by
      refine ⟨forall_pair fun m hm => ?_, fun m hm n hn hself => absurd hself (hnone m hm)⟩
      obtain ⟨i, hi, rfl⟩ := MovArr.mem_toList.1 hm
      obtain ⟨j, hj, hfrom⟩ := MovArr.reads_iff.1 (hquiet i (by omega) (by omega)).2
      rw [List.map_map]
      exact List.mem_map.2 ⟨_, MovArr.value_mem hj, hfrom⟩
    obtain ⟨s', hbreak, hsteps⟩ := FlushInv.xchg cond counting h.distinct hcircular hnone hcur
    refine ⟨s', fun fuel => ?_, hsteps⟩
    rw [flushMovs, if_neg (by omega), heq]
    dsimp only
    rw [hbreak]
  | self j movs hj hbefore hremoved hself heq =>
    obtain ⟨hdistinct, hto⟩ := h.distinct.removed hremoved
    have howes : ∀ {V : Type} {taken : Bool} {σ : Ereg → V} {moves : List (Ereg × Ereg)},
        (cond = true → taken = true) → Owes taken σ moves s → Owes taken σ moves { s with movs := movs } :=
      fun _ howes => howes.self h.distinct hremoved hself
    refine ⟨{ s with movs := movs }, hpass (heq.trans ?_), ⟨hdistinct, ?_⟩, hremoved.cur, howes⟩
    · obtain hlast | hcircular := h.shape
      · have hj' : j + 1 = s.movs.cur := by
          by_contra hne
          exact (selfLast_iff).1 hlast j (by omega) hself
        rw [show 0 + s.movs.cur - (j + 1) = 0 by omega]
        rfl
      · exact scan_quiet false fun i hi hlt => hcircular.quiet h.distinct hremoved hself hi (by omega)
    · obtain hlast | hcircular := h.shape
      · exact .inl (hlast.removed hremoved)
      · exact .inr (hcircular.removed h.distinct hremoved hself).1
  | free j movs hj hbefore hremoved hself hread heq =>
    have hunread : ∀ m ∈ s.movs.toList, m.from_ ≠ (s.movs.values j).to_ := by
      intro m hm hfrom
      obtain ⟨i, hi, rfl⟩ := MovArr.mem_toList.1 hm
      rw [MovArr.reads_iff.2 ⟨i, hi, hfrom⟩] at hread
      exact absurd hread (by decide)
    obtain ⟨hdistinct, hto⟩ := h.distinct.removed hremoved
    refine ⟨_, hpass heq, ⟨hdistinct, ?_⟩, hremoved.cur, ?_⟩
    · obtain hlast | hcircular := h.shape
      · exact .inl (hlast.removed hremoved)
      · rw [hcircular.reads (MovArr.value_mem hremoved.lt)] at hread
        exact absurd hread (by decide)
    · intro V taken σ moves htaken howes
      refine howes.mov h.distinct htaken hremoved fun m hm => ?_
      exact hunread m (hremoved.perm.mem_iff.2 (List.mem_cons_of_mem _ hm))

theorem FlushInv.run (cond counting : Bool) {n : Nat} (h : FlushInv s) (hcur : s.movs.cur = n) {fuel : Nat}
    (hfuel : n < fuel) :
    ∃ s', flushMovs cond counting fuel s = .ok s' ∧ s'.movs.cur = 0 ∧
      ∀ {V : Type} {taken : Bool} {σ : Ereg → V} {moves : List (Ereg × Ereg)},
        (cond = true → taken = true) → Owes taken σ moves s → Owes taken σ moves s' := by
  induction n generalizing s fuel with
  | zero =>
    obtain ⟨fuel, rfl⟩ : ∃ n, fuel = n + 1 := ⟨fuel - 1, by omega⟩
    refine ⟨s, ?_, hcur, fun _ howes => howes⟩
    rw [flushMovs, if_pos hcur]
  | succ n ih =>
    obtain ⟨fuel, rfl⟩ : ∃ n, fuel = n + 1 := ⟨fuel - 1, by omega⟩
    obtain ⟨s₁, heq, hsteps⟩ := h.step cond counting (by omega)
    have hcur₁ := hsteps.cur
    obtain ⟨s', hs', hempty, howes⟩ := ih (s := s₁) hsteps.inv (by omega) (show n < fuel by omega)
    refine ⟨s', (heq fuel).trans hs', hempty, ?_⟩
    intro V taken σ moves htaken howed
    exact howes htaken (hsteps.owes htaken howed)

end Passes

/-- With enough fuel `flush_movs` returns, all its removals are in the list, and its code does the moves at
once. -/
def Resolves (cond counting : Bool) (ms : List Mov) : Prop :=
  ∀ (a : MovArr) (phiMoves : Nat), a.toList = ms → ∃ bound, ∀ fuel, bound ≤ fuel →
    ∃ s, flushMovs cond counting fuel ⟨a, [], phiMoves⟩ = .ok s ∧ s.movs.cur = 0 ∧
      ∀ {V : Type} (σ : Ereg → V) (taken : Bool), (cond = true → taken = true) →
        Parallel (ms.map Mov.pair) σ (runMoves taken s.code σ)

end Runs

section Overrun

variable {cond counting : Bool} {a movs : MovArr} {p : Nat}

theorem scan_selfs {size left k : Nat} (cycle : Bool)
    (hall : ∀ i, k ≤ i → i < k + left → (s.movs.values i).Self) (hcur : s.movs.cur < k + left)
    (hleft : 0 < left) : scanMovs cond counting size left k s cycle = .error .outside := by
  induction left generalizing k s cycle with
  | zero => omega
  | succ left ih =>
    have hself : (s.movs.values k).to_ = (s.movs.values k).from_ := hall k (Nat.le_refl k) (by omega)
    rw [scanMovs, if_pos hself]
    by_cases hk : k < s.movs.cur
    · obtain ⟨movs, heq, hremoved⟩ := removeRange_removed hk
      have hmovs := hremoved.cur
      rw [heq]
      refine ih (s := { s with movs := movs }) false (fun i hi hlt => ?_) ?_ (by omega)
      · show (movs.values i).Self
        by_cases hshift : i + 1 < s.movs.cur
        · rw [hremoved.shifted i (by omega) hshift]
          exact hall (i + 1) (by omega) (by omega)
        · rw [hremoved.stale i (by omega)]
          exact hall i (by omega) (by omega)
      · show movs.cur < k + 1 + left
        omega
    · rw [removeRange_outside (by omega)]

/-- A move of a register to itself comes before moves that the scan does not pass over. -/
structure Doomed (a : MovArr) (p : Nat) : Prop where
  lt : p + 1 < a.cur
  before : ∀ i < p, ¬(a.values i).Self
  self : (a.values p).Self
  after : (∀ i, p < i → i < a.cur → (a.values i).Self) ∨
    (p + 2 = a.cur ∧ ∀ i < a.cur, (a.values i).from_ ≠ (a.values (p + 1)).to_)

theorem Doomed.removed (h : Doomed a p) {j : Nat} (hremoved : Removed a movs j) (hj : j < p) :
    Doomed movs (p - 1) := by
  have hcur := hremoved.cur
  have hlt := h.lt
  have hshift : ∀ i, j ≤ i → i < movs.cur → movs.values i = a.values (i + 1) :=
    fun i hi hilt => hremoved.shifted i hi (by omega)
  have hfrom : ∀ i < movs.cur, ∃ i' < a.cur, movs.values i = a.values i' := by
    intro i hi
    by_cases hij : i < j
    · exact ⟨i, by omega, hremoved.before i hij⟩
    · exact ⟨i + 1, by omega, hshift i (by omega) hi⟩
  have hself : movs.values (p - 1) = a.values p := by
    rw [hshift (p - 1) (by omega) (by omega), show p - 1 + 1 = p by omega]
  refine ⟨by omega, ?_, hself ▸ h.self, ?_⟩
  · intro i hi
    by_cases hij : i < j
    · rw [hremoved.before i hij]
      exact h.before i (by omega)
    · rw [hshift i (by omega) (by omega)]
      exact h.before (i + 1) (by omega)
  · obtain hall | ⟨hend, hunread⟩ := h.after
    · refine .inl fun i hi hilt => ?_
      rw [hshift i (by omega) hilt]
      exact hall (i + 1) (by omega) (by omega)
    · refine .inr ⟨by omega, fun i hi => ?_⟩
      obtain ⟨i', hi', heq⟩ := hfrom i hi
      rw [heq, show p - 1 + 1 = p by omega, hshift p (by omega) (by omega)]
      exact hunread i' hi'

theorem Doomed.scan (h : Doomed s.movs p) (hremoved : Removed s.movs movs p) :
    scanMovs cond counting s.movs.cur (0 + s.movs.cur - (p + 1)) (p + 1) { s with movs := movs } false =
      .error .outside := by
  have hcur := hremoved.cur
  have hlt := h.lt
  obtain hall | ⟨hend, hunread⟩ := h.after
  · refine scan_selfs false (fun i hi hilt => ?_) (by dsimp only; omega) (by omega)
    show (movs.values i).Self
    by_cases hshift : i + 1 < s.movs.cur
    · rw [hremoved.shifted i (by omega) hshift]
      exact hall (i + 1) (by omega) hshift
    · rw [hremoved.stale i (by omega)]
      exact hall i (by omega) (by omega)
  · have hlast : movs.values (p + 1) = s.movs.values (p + 1) := hremoved.stale (p + 1) (by omega)
    have hself : ¬(movs.values (p + 1)).to_ = (movs.values (p + 1)).from_ := by
      rw [hlast]
      exact fun he => hunread (p + 1) (by omega) he.symm
    have hread : ¬movs.reads s.movs.cur (movs.values (p + 1)).to_ = true := by
      rw [hlast, MovArr.reads_iff]
      rintro ⟨i, hi, hfrom⟩
      by_cases hip : i < p
      · rw [hremoved.before i hip] at hfrom
        exact hunread i hi hfrom
      by_cases hshift : i + 1 < s.movs.cur
      · rw [hremoved.shifted i (by omega) hshift] at hfrom
        exact hunread (i + 1) hshift hfrom
      · rw [hremoved.stale i (by omega)] at hfrom
        exact hunread i hi hfrom
    rw [show 0 + s.movs.cur - (p + 1) = 0 + 1 by omega, scanMovs, if_neg hself, if_neg hread]
    dsimp only [FlushState.emit]
    rw [removeRange_outside (by omega)]

theorem Doomed.error (h : Doomed s.movs p) (fuel : Nat) :
    ∃ e, flushMovs cond counting fuel s = .error e := by
  induction fuel generalizing s p with
  | zero => exact ⟨_, rfl⟩
  | succ fuel ih =>
    have hlt := h.lt
    rw [flushMovs, if_neg (by omega)]
    cases scan_first cond counting s s.movs.cur s.movs.cur 0 (by omega) with
    | quiet hquiet heq => exact absurd h.self (hquiet p (by omega) (by omega)).1
    | self j movs hj hbefore hremoved hself heq =>
      have hjp : j = p := by
        obtain hlt | heq | hgt := Nat.lt_trichotomy j p
        · exact absurd hself (h.before j hlt)
        · exact heq
        · exact absurd h.self (hbefore p (by omega) hgt).1
      subst hjp
      rw [heq, h.scan hremoved]
      exact ⟨_, rfl⟩
    | free j movs hj hbefore hremoved hself hread heq =>
      have hjp : j < p := by
        obtain hlt | heq | hgt := Nat.lt_trichotomy j p
        · exact hlt
        · exact absurd (heq ▸ h.self) hself
        · exact absurd h.self (hbefore p (by omega) hgt).1
      rw [heq]
      exact ih (h.removed hremoved hjp)

end Overrun

end HashLink.Jit
