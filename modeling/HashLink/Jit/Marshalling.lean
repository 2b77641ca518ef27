import HashLink.Jit.CallingConvention

/-! The three copies of the calling convention agree on the place of every argument: the allocator's, that of the
calls from C and that of the calls to C. What they do not agree on is a single. A wrapper takes the register of one
for a double, and returns a double in its place. -/

namespace HashLink.Marshal

variable {abi : Abi} {regs : CallRegs} {rp fp sp s : Nat} {t : HlTypeKind} {ts : List HlTypeKind}

def numberStack : Nat → List (Option Place) → List Place
  | _, [] => []
  | s, some p :: rs => p :: numberStack s rs
  | s, none :: rs => .stack s :: numberStack (s + 1) rs

@[simp] theorem length_numberStack (s : Nat) (rs : List (Option Place)) : (numberStack s rs).length = rs.length := by
  induction rs generalizing s with
  | nil => rfl
  | cons r rs ih => cases r <;> rw [numberStack, List.length_cons, List.length_cons, ih]

/-- The counts of `jit.c` are those of the allocator. -/
def Agree (abi : Abi) (regs : CallRegs) (rp fp : Nat) : Prop :=
  rp = regs.ints ∧ fp = if abi.winCall then regs.ints else regs.floats

def Free (abi : Abi) (regs : CallRegs) (s : Nat) : Place → Prop
  | .reg i => regs.ints ≤ i ∧ i < abi.regArgs
  | .fpReg i => (if abi.winCall then regs.ints else regs.floats) ≤ i ∧ i < abi.fpArgs
  | .stack j => s ≤ j

def placeOf (t : HlTypeKind) (r : Nat) : Place := if isFloat t then .fpReg r else .reg r

theorem getCallReg_spec (h : Agree abi regs rp fp) :
    (getCallReg abi regs t).1 = (getNextReg abi t rp fp).1.map (placeOf t) ∧
      Agree abi (getCallReg abi regs t).2 (getNextReg abi t rp fp).2.1 (getNextReg abi t rp fp).2.2 := by
  obtain ⟨rfl, rfl⟩ := h
  unfold getCallReg getNextReg placeOf Agree
  cases hfloat : isFloat t <;> cases hwin : abi.winCall <;> simp only [if_true, if_false, Bool.false_eq_true] <;>
    split <;> simp_all

variable {p : Place} {args : List (HlTypeKind × Word)}

theorem getCallReg_some (h : (getCallReg abi regs t).1 = some p) :
    Free abi regs s p ∧ (∃ r, p = placeOf t r) ∧
      ∀ q, Free abi (getCallReg abi regs t).2 s q → Free abi regs s q ∧ q ≠ p := by
  unfold getCallReg at h ⊢
  unfold placeOf
  cases hfloat : isFloat t with
  | true =>
    simp only [hfloat, if_true] at h ⊢
    cases hwin : abi.winCall with
    | true =>
      simp only [hwin, if_true] at h ⊢
      split at h
      · next hlt =>
        cases h
        rw [if_pos hlt]
        refine ⟨?_, ⟨_, rfl⟩, fun q hq => ?_⟩
        · simp [Free, hwin, hlt]
        · cases q with
          | reg i => exact ⟨⟨Nat.le_of_succ_le hq.1, hq.2⟩, by simp⟩
          | fpReg i =>
            simp only [Free, hwin, if_true] at hq ⊢
            exact ⟨⟨by omega, hq.2⟩, by simp; omega⟩
          | stack j => exact ⟨hq, by simp⟩
      · cases h
    | false =>
      simp only [hwin, Bool.false_eq_true, if_false] at h ⊢
      split at h
      · next hlt =>
        cases h
        rw [if_pos hlt]
        refine ⟨?_, ⟨_, rfl⟩, fun q hq => ?_⟩
        · simp [Free, hwin, hlt]
        · cases q with
          | reg i => exact ⟨hq, by simp⟩
          | fpReg i =>
            simp only [Free, hwin, Bool.false_eq_true, if_false] at hq ⊢
            exact ⟨⟨by omega, hq.2⟩, by simp; omega⟩
          | stack j => exact ⟨hq, by simp⟩
      · cases h
  | false =>
    simp only [hfloat, Bool.false_eq_true, if_false] at h ⊢
    split at h
    · next hlt =>
      cases h
      rw [if_pos hlt]
      refine ⟨⟨Nat.le_refl _, hlt⟩, ⟨_, rfl⟩, fun q hq => ?_⟩
      cases q with
      | reg i => exact ⟨⟨Nat.le_of_succ_le hq.1, hq.2⟩, by simp; exact Nat.ne_of_gt hq.1⟩
      | fpReg i =>
        refine ⟨⟨?_, hq.2⟩, by simp⟩
        have hle := hq.1
        dsimp only at hle
        split at hle <;> split <;> first | omega | simp_all
      | stack j => exact ⟨hq, by simp⟩
    · cases h

theorem getCallReg_none (h : (getCallReg abi regs t).1 = none) :
    (getCallReg abi regs t).2 = regs ∧ 4 ≤ regs.ints + regs.floats := by
  have hregs : 4 ≤ abi.regArgs := by cases abi <;> decide
  have hfloats : 4 ≤ abi.fpArgs := by cases abi <;> decide
  unfold getCallReg at h ⊢
  split at h
  · next hfloat =>
    rw [if_pos hfloat]
    split at h
    · next hwin =>
      rw [if_pos hwin]
      split at h
      · cases h
      · next hlt => exact ⟨by rw [if_neg hlt], by omega⟩
    · next hwin =>
      rw [if_neg hwin]
      split at h
      · cases h
      · next hlt => exact ⟨by rw [if_neg hlt], by omega⟩
  · next hfloat =>
    rw [if_neg hfloat]
    split at h
    · cases h
    · next hlt => exact ⟨by rw [if_neg hlt], by omega⟩

theorem getCallReg_count (h : (getCallReg abi regs t).1 = some p) :
    (getCallReg abi regs t).2.ints + (getCallReg abi regs t).2.floats = regs.ints + regs.floats + 1 := by
  unfold getCallReg at h ⊢
  split at h
  · next hfloat =>
    rw [if_pos hfloat]
    split at h
    · next hwin =>
      rw [if_pos hwin]
      split at h
      · next hlt => rw [if_pos hlt]; dsimp only; omega
      · cases h
    · next hwin =>
      rw [if_neg hwin]
      split at h
      · next hlt => rw [if_pos hlt]; dsimp only; omega
      · cases h
  · next hfloat =>
    rw [if_neg hfloat]
    split at h
    · next hlt => rw [if_pos hlt]; dsimp only; omega
    · cases h

@[simp] theorem length_callRegs (regs : CallRegs) (ts : List HlTypeKind) :
    (callRegs abi regs ts).length = ts.length := by
  induction ts generalizing regs with
  | nil => rfl
  | cons t ts ih => rw [callRegs, List.length_cons, List.length_cons, ih]

theorem countP_callRegs (regs : CallRegs) (ts : List HlTypeKind) :
    (callRegs abi regs ts).countP Option.isNone = 0 ∨
      (callRegs abi regs ts).countP Option.isNone + 4 ≤ ts.length + (regs.ints + regs.floats) := by
  induction ts generalizing regs with
  | nil => exact Or.inl rfl
  | cons t ts ih =>
    rw [callRegs, List.length_cons]
    cases hreg : (getCallReg abi regs t).1 with
    | some p =>
      have hcount := getCallReg_count hreg
      rw [List.countP_cons_of_neg (by simp)]
      exact (ih _).imp id (by omega)
    | none =>
      obtain ⟨hsame, hfull⟩ := getCallReg_none hreg
      have hle : (callRegs abi regs ts).countP Option.isNone ≤ ts.length :=
        Nat.le_trans List.countP_le_length (Nat.le_of_eq (length_callRegs regs ts))
      rw [List.countP_cons_of_pos rfl, hsame]
      exact Or.inr (by omega)

theorem free_of_mem_callRegs (h : some p ∈ callRegs abi regs ts) : Free abi regs s p := by
  induction ts generalizing regs with
  | nil => cases h
  | cons t ts ih =>
    rw [callRegs, List.mem_cons] at h
    rcases h with h | h
    · exact (getCallReg_some h.symm).1
    · cases hreg : (getCallReg abi regs t).1 with
      | some r => exact ((getCallReg_some hreg).2.2 p (ih h)).1
      | none =>
        rw [(getCallReg_none hreg).1] at h
        exact ih h

theorem mem_numberStack (h : p ∈ numberStack s (callRegs abi regs ts)) :
    Free abi regs s p ∧ ∀ j, p = .stack j → j < s + (callRegs abi regs ts).countP Option.isNone := by
  induction ts generalizing regs s with
  | nil => cases h
  | cons t ts ih =>
    rw [callRegs] at h ⊢
    cases hreg : (getCallReg abi regs t).1 with
    | some r =>
      rw [hreg, numberStack, List.mem_cons] at h
      rw [List.countP_cons_of_neg (by simp)]
      obtain ⟨hfree, ⟨k, hk⟩, hrest⟩ := getCallReg_some (s := s) hreg
      rcases h with h | h
      · rw [h]
        refine ⟨hfree, fun j hj => ?_⟩
        unfold placeOf at hk
        split at hk <;> simp_all
      · exact ⟨(hrest p (ih h).1).1, (ih h).2⟩
    | none =>
      rw [hreg, numberStack, List.mem_cons, (getCallReg_none hreg).1] at h
      rw [List.countP_cons_of_pos rfl, (getCallReg_none hreg).1]
      rcases h with h | h
      · rw [h]
        refine ⟨Nat.le_refl s, fun j hj => ?_⟩
        cases hj
        omega
      · obtain ⟨hfree, hlt⟩ := ih h
        refine ⟨?_, fun j hj => by have := hlt j hj; omega⟩
        cases p with
        | reg i => exact hfree
        | fpReg i => exact hfree
        | stack j => exact Nat.le_of_succ_le hfree

def Place.above (n : Nat) : Place → Place
  | .stack j => .stack (n + j)
  | p => p

theorem above_register (h : (getCallReg abi regs t).1 = some p) (n : Nat) : p.above n = p := by
  obtain ⟨-, ⟨r, rfl⟩, -⟩ := getCallReg_some (s := 0) h
  unfold placeOf
  split <;> rfl

theorem map_above (n : Nat) (regs : CallRegs) (ts : List HlTypeKind) (s : Nat) :
    (numberStack s (callRegs abi regs ts)).map (Place.above n) = numberStack (n + s) (callRegs abi regs ts) := by
  induction ts generalizing regs s with
  | nil => rfl
  | cons t ts ih =>
    rw [callRegs]
    cases hreg : (getCallReg abi regs t).1 with
    | some p => rw [numberStack, numberStack, List.map_cons, ih, above_register hreg]
    | none => rw [numberStack, numberStack, List.map_cons, ih, Place.above, Nat.add_assoc]

theorem getCallReg_win64 (regs : CallRegs) (t : HlTypeKind) :
    getCallReg .win64 regs t =
      if regs.ints < 4 then (some (placeOf t regs.ints), { regs with ints := regs.ints + 1 }) else (none, regs) := by
  unfold getCallReg placeOf
  cases isFloat t <;> rfl

theorem assignArgs_win64 (hle : regs.ints ≤ 4) (hs : regs.ints < 4 → s = 0) :
    assignArgs .win64 regs (regs.ints + s) ts = numberStack (4 + s) (callRegs .win64 regs ts) := by
  induction ts generalizing regs s with
  | nil => rfl
  | cons t ts ih =>
    rw [assignArgs, callRegs, getCallReg_win64]
    by_cases hlt : regs.ints < 4
    · obtain rfl := hs hlt
      have hrest := @ih { regs with ints := regs.ints + 1 } 0 (by dsimp only; omega) fun _ => rfl
      rw [if_pos hlt]
      simp only [numberStack, Abi.winCall, if_true]
      rw [← hrest]
    · have hfull : regs.ints = 4 := by omega
      have hrest := @ih regs (s + 1) hle fun h => absurd h hlt
      rw [if_neg hlt]
      simp only [numberStack]
      rw [Nat.add_assoc, hrest, hfull]
      rfl

theorem assignArgs_of_not_winCall (hwin : abi.winCall = false) :
    assignArgs abi regs s ts = numberStack s (callRegs abi regs ts) := by
  induction ts generalizing regs s with
  | nil => rfl
  | cons t ts ih =>
    rw [assignArgs, callRegs]
    rcases hcall : getCallReg abi regs t with ⟨_ | r, regs'⟩
    · simp only [numberStack, ih]
    · simp only [numberStack, ih, hwin, Bool.false_eq_true, if_false]

theorem loadPlaces_eq (abi : Abi) (ts : List HlTypeKind) :
    loadPlaces abi ts = numberStack abi.shadow (callRegs abi ⟨0, 0⟩ ts) := by
  cases abi with
  | win64 => exact assignArgs_win64 (s := 0) (by decide) fun _ => rfl
  | sysv => exact assignArgs_of_not_winCall rfl
  | aarch64 => exact assignArgs_of_not_winCall rfl

def VArgs.read (abi : Abi) (v : VArgs) : Place → Word
  | .reg i => v.regs.getD i 0
  | .fpReg i => v.regs.getD (i + abi.regArgs) 0
  | .stack j => v.stack.getD j 0

structure VArgs.Full (v : VArgs) : Prop where
  regs : v.regs.length = maxArgs
  stack : v.stack.length = maxArgs

def Place.Valid (abi : Abi) : Place → Prop
  | .reg i => i < abi.regArgs
  | .fpReg i => i < abi.fpArgs
  | .stack _ => True

theorem Free.valid (h : Free abi regs s p) : p.Valid abi := by
  cases p with
  | reg i => exact h.2
  | fpReg i => exact h.2
  | stack j => trivial

theorem regArgs_add_fpArgs (abi : Abi) : abi.regArgs + abi.fpArgs ≤ maxArgs := by
  cases abi <;> decide

theorem read_set_regs {v : VArgs} {r : Nat} {w : Word} (hfull : v.Full) (hvalid : (placeOf t r).Valid abi) :
    VArgs.read abi { v with regs := v.regs.set (r + if isFloat t then abi.regArgs else 0) w } (placeOf t r) = w ∧
      ∀ q, q.Valid abi → q ≠ placeOf t r →
        VArgs.read abi { v with regs := v.regs.set (r + if isFloat t then abi.regArgs else 0) w } q = v.read abi q := by
  have hsize := regArgs_add_fpArgs abi
  have hlength := hfull.regs
  unfold placeOf at *
  cases hfloat : isFloat t with
  | true =>
    simp only [hfloat, if_true] at hvalid ⊢
    have hr : r < abi.fpArgs := hvalid
    refine ⟨?_, fun q hq hne => ?_⟩
    · simp only [VArgs.read, List.getD_eq_getElem?_getD]
      rw [List.getElem?_set_self (by omega)]
      rfl
    · cases q with
      | reg i =>
        have hi : i < abi.regArgs := hq
        simp only [VArgs.read, List.getD_eq_getElem?_getD]
        rw [List.getElem?_set_ne (by omega)]
      | fpReg i =>
        have hi : i ≠ r := fun h => hne (congrArg Place.fpReg h)
        simp only [VArgs.read, List.getD_eq_getElem?_getD]
        rw [List.getElem?_set_ne (by omega)]
      | stack j => rfl
  | false =>
    simp only [hfloat, Bool.false_eq_true, if_false, Nat.add_zero] at hvalid ⊢
    have hr : r < abi.regArgs := hvalid
    refine ⟨?_, fun q hq hne => ?_⟩
    · simp only [VArgs.read, List.getD_eq_getElem?_getD]
      rw [List.getElem?_set_self (by omega)]
      rfl
    · cases q with
      | reg i =>
        have hi : i ≠ r := fun h => hne (congrArg Place.reg h)
        simp only [VArgs.read, List.getD_eq_getElem?_getD]
        rw [List.getElem?_set_ne (by omega)]
      | fpReg i =>
        simp only [VArgs.read, List.getD_eq_getElem?_getD]
        rw [List.getElem?_set_ne (by omega)]
      | stack j => rfl

/-- What the packer guarantees for the arguments that are left: what is packed is kept, and each argument is at its
place. -/
structure Packed (abi : Abi) (regs : CallRegs) (sp : Nat) (v : VArgs) (args : List (HlTypeKind × Word))
    (r : VArgs × Nat) : Prop where
  full : r.1.Full
  count : r.2 = sp + (callRegs abi regs (args.map Prod.fst)).countP Option.isNone
  kept : ∀ q, q.Valid abi → ¬Free abi regs sp q → r.1.read abi q = v.read abi q
  placed : (numberStack sp (callRegs abi regs (args.map Prod.fst))).map (r.1.read abi) =
    args.map fun a => argWord a.1 a.2

theorem packArgs_packed {v : VArgs} (hagree : Agree abi regs rp fp) (hfull : v.Full)
    (hroom : sp + (callRegs abi regs (args.map Prod.fst)).countP Option.isNone ≤ maxArgs) :
    Packed abi regs sp v args (packArgs abi rp fp sp v args) := by
  induction args generalizing regs rp fp sp v with
  | nil => exact ⟨hfull, rfl, fun _ _ _ => rfl, rfl⟩
  | cons a args ih =>
    obtain ⟨t, w⟩ := a
    obtain ⟨hreg, hnext⟩ := getCallReg_spec (t := t) hagree
    rw [List.map_cons, callRegs] at hroom
    rcases hget : getNextReg abi t rp fp with ⟨_ | r, rp', fp'⟩
    · rw [hget] at hreg hnext
      rw [hreg] at hroom
      dsimp only [Option.map_none] at hreg hnext hroom
      rw [List.countP_cons_of_pos rfl] at hroom
      have hsame := (getCallReg_none hreg).1
      rw [hsame] at hnext hroom
      have hlt : sp < v.stack.length := by rw [hfull.stack]; omega
      have hrest := @ih regs rp' fp' (sp + 1) { v with stack := v.stack.set sp (argWord t w) } hnext
        ⟨hfull.regs, by rw [List.length_set, hfull.stack]⟩ (by omega)
      rw [packArgs, hget]
      refine ⟨hrest.full, ?_, fun q hq hfree => ?_, ?_⟩
      · rw [hrest.count, List.map_cons, callRegs, hreg, hsame, List.countP_cons_of_pos rfl]
        omega
      · rw [hrest.kept q hq fun h => hfree ?_]
        · cases q with
          | reg i => rfl
          | fpReg i => rfl
          | stack j =>
            have hj : sp ≠ j := fun h => hfree (Nat.le_of_eq h)
            simp only [VArgs.read, List.getD_eq_getElem?_getD]
            rw [List.getElem?_set_ne hj]
        · cases q with
          | reg i => exact h
          | fpReg i => exact h
          | stack j => exact Nat.le_of_succ_le h
      · rw [List.map_cons, callRegs, hreg, hsame, numberStack, List.map_cons, List.map_cons, hrest.placed]
        congr 1
        rw [hrest.kept (.stack sp) trivial fun h => Nat.not_succ_le_self sp h]
        simp only [VArgs.read, List.getD_eq_getElem?_getD]
        rw [List.getElem?_set_self hlt]
        rfl
    · rw [hget] at hreg hnext
      rw [hreg] at hroom
      dsimp only [Option.map_some] at hreg hnext hroom
      rw [List.countP_cons_of_neg (by simp)] at hroom
      obtain ⟨hfree, -, hafter⟩ := getCallReg_some (s := sp) hreg
      obtain ⟨hself, hother⟩ := read_set_regs (w := argWord t w) hfull hfree.valid
      have hrest := @ih (getCallReg abi regs t).2 rp' fp' sp
        { v with regs := v.regs.set (r + if isFloat t then abi.regArgs else 0) (argWord t w) } hnext
        ⟨by rw [List.length_set, hfull.regs], hfull.stack⟩ hroom
      rw [packArgs, hget]
      refine ⟨hrest.full, ?_, fun q hq hnot => ?_, ?_⟩
      · rw [hrest.count, List.map_cons, callRegs, hreg, List.countP_cons_of_neg (by simp)]
      · rw [hrest.kept q hq fun h => hnot (hafter q h).1]
        exact hother q hq fun h => hnot (h ▸ hfree)
      · rw [List.map_cons, callRegs, hreg, numberStack, List.map_cons, List.map_cons, hrest.placed]
        congr 1
        rw [hrest.kept _ hfree.valid fun h => (hafter _ h).2 rfl]
        exact hself

theorem c2hlStub_read {junk : Entry} {v : VArgs} {nargs : Nat} (hfull : v.Full) (hvalid : p.Valid abi)
    (hstack : ∀ j, p = .stack j → j < sp) (hsp : sp < maxArgs) (hargs : sp ≤ nargs) :
    (c2hlStub abi junk { v with stack := v.stack.set (maxArgs - 1) (BitVec.ofNat 64 sp) } nargs).read
      (p.above abi.shadow) = v.read abi p := by
  have hmax : maxArgs = 16 := rfl
  cases p with
  | reg i => exact if_pos hvalid
  | fpReg i => exact if_pos hvalid
  | stack j =>
    have hj := hstack j rfl
    have hcount : ((v.stack.set (maxArgs - 1) (BitVec.ofNat 64 sp)).getD (maxArgs - 1) 0).toNat = sp := by
      rw [List.getD_eq_getElem?_getD, List.getElem?_set_self (by rw [hfull.stack]; omega), Option.getD_some,
        BitVec.toNat_ofNat]
      omega
    have hread : (v.stack.set (maxArgs - 1) (BitVec.ofNat 64 sp)).getD j 0 = v.stack.getD j 0 := by
      simp only [List.getD_eq_getElem?_getD]
      rw [List.getElem?_set_ne (by omega)]
    refine (if_pos ⟨Nat.le_add_right _ _, ?_⟩).trans ?_
    · rw [Nat.add_sub_cancel_left]
      exact hread
    · dsimp only
      rw [hcount]
      split <;> omega

theorem callbackC2hl_read (junk : Entry) (hlen : args.length ≤ maxArgs) :
    ∃ e, callbackC2hl abi junk args = .ok e ∧
      (loadPlaces abi (args.map Prod.fst)).map e.read = args.map fun a => argWord a.1 a.2 := by
  have hcount : (callRegs abi ⟨0, 0⟩ (args.map Prod.fst)).countP Option.isNone = 0 ∨
      (callRegs abi ⟨0, 0⟩ (args.map Prod.fst)).countP Option.isNone + 4 ≤ (args.map Prod.fst).length + (0 + 0) :=
    countP_callRegs ⟨0, 0⟩ (args.map Prod.fst)
  rw [List.length_map] at hcount
  have hmax : maxArgs = 16 := rfl
  have hpacked : Packed abi ⟨0, 0⟩ 0 .empty args (packArgs abi 0 0 0 .empty args) :=
    packArgs_packed ⟨rfl, by simp⟩ ⟨List.length_replicate, List.length_replicate⟩ (by omega)
  have hsp : (packArgs abi 0 0 0 .empty args).2 < maxArgs := by rw [hpacked.count]; omega
  refine ⟨_, if_neg (by omega), ?_⟩
  rw [loadPlaces_eq, ← Nat.add_zero abi.shadow, ← map_above, List.map_map, ← hpacked.placed]
  refine List.map_congr_left fun p hp => ?_
  obtain ⟨hfree, hstack⟩ := mem_numberStack hp
  rw [← hpacked.count] at hstack
  exact c2hlStub_read hpacked.full hfree.valid hstack hsp (by split <;> omega)

def Spilled.read (abi : Abi) (s : Spilled) : Place → Word
  | .reg i => s.regs i
  | .fpReg i => s.regs (abi.regArgs + i)
  | .stack j => s.stackArgs j

theorem hl2cStub_read (e : Entry) (h : p.Valid abi) :
    (hl2cStub abi e).read abi p = e.read (p.above abi.shadow) := by
  cases p with
  | reg i => exact if_pos h
  | fpReg i =>
    show (if abi.regArgs + i < abi.regArgs then _ else e.floats (abi.regArgs + i - abi.regArgs)) = e.floats i
    rw [if_neg (by omega), Nat.add_sub_cancel_left]
  | stack j => rfl

def Place.isRegister : Place → Bool
  | .stack _ => false
  | _ => true

/-- What `callback_hl2c` makes of one argument: of each float in a register it makes a double. -/
def rebuildWord (t : HlTypeKind) (p : Place) (w : Word) : Dyn :=
  if isDynamic t then .object w else if isFloat t && p.isRegister then hlMakeDyn w .hF64 else hlMakeDyn w t

theorem rebuildArgs_eq (s : Spilled) (hagree : Agree abi regs rp fp) :
    rebuildArgs abi s rp fp sp ts =
      List.zipWith (fun t p => rebuildWord t p (s.read abi p)) ts (numberStack sp (callRegs abi regs ts)) := by
  induction ts generalizing regs rp fp sp with
  | nil => rfl
  | cons t ts ih =>
    obtain ⟨hreg, hnext⟩ := getCallReg_spec (t := t) hagree
    rw [rebuildArgs, callRegs]
    rcases hget : getNextReg abi t rp fp with ⟨_ | r, rp', fp'⟩
    · rw [hget] at hreg hnext
      rw [hreg]
      simp only [Option.map_none, numberStack, List.zipWith_cons_cons, ih hnext]
      simp [rebuildWord, Place.isRegister, Spilled.read]
    · rw [hget] at hreg hnext
      rw [hreg]
      simp only [Option.map_some, numberStack, List.zipWith_cons_cons, ih hnext]
      congr 1
      unfold rebuildWord placeOf
      cases hfloat : isFloat t with
      | true =>
        have hdyn : isDynamic t = false := by cases t <;> first | rfl | cases hfloat
        simp [hdyn, Place.isRegister, Spilled.read]
      | false => simp [Place.isRegister, Spilled.read]

theorem setRegs_read_of_notMem (e : Entry) (placed : List (Option Place × Word)) (hreg : p.isRegister)
    (h : some p ∉ placed.map Prod.fst) : (setRegs e placed).read p = e.read p := by
  induction placed generalizing e with
  | nil => rfl
  | cons a placed ih =>
    obtain ⟨r, w⟩ := a
    rw [List.map_cons, List.mem_cons, not_or] at h
    rw [setRegs, ih _ h.2]
    cases r with
    | none => rfl
    | some q =>
      have hne : p ≠ q := fun h' => h.1 (congrArg some h')
      cases q <;> cases p <;> simp_all [setReg, Entry.read, Place.isRegister]

theorem setReg_read (e : Entry) (hreg : p.isRegister) (w : Word) : (setReg e (some p) w).read p = w := by
  cases p <;> simp_all [setReg, Entry.read, Place.isRegister]

theorem length_pushArgs (rs : List (Option Place)) (ws : List Word) (hlen : rs.length = ws.length) :
    (pushArgs (rs.zip ws)).length = rs.countP Option.isNone := by
  induction rs generalizing ws with
  | nil => rfl
  | cons r rs ih =>
    obtain _ | ⟨w, ws⟩ := ws
    · cases hlen
    · have hrest := ih ws (Nat.succ.inj hlen)
      cases r with
      | none => rw [List.countP_cons_of_pos rfl, ← hrest]; rfl
      | some p => rw [List.countP_cons_of_neg (by simp), ← hrest]; rfl

/-- What a call gives for a place, when its first stack word is `n`. -/
def placedWord (e : Entry) (placed : List (Option Place × Word)) (n : Nat) : Place → Word
  | .stack j => (pushArgs placed).getD (j - n) 0
  | p => (setRegs e placed).read p

theorem placedWord_register {e : Entry} {placed : List (Option Place × Word)} {n : Nat} (h : p.isRegister) :
    placedWord e placed n p = (setRegs e placed).read p := by
  cases p <;> first | rfl | cases h

theorem isRegister_of_getCallReg (h : (getCallReg abi regs t).1 = some p) : p.isRegister := by
  obtain ⟨-, ⟨r, rfl⟩, -⟩ := getCallReg_some (s := 0) h
  unfold placeOf
  split <;> rfl

theorem map_placedWord (e : Entry) (n : Nat) (ws : List Word) (hlen : ws.length = ts.length) :
    (numberStack n (callRegs abi regs ts)).map (placedWord e ((callRegs abi regs ts).zip ws) n) = ws := by
  induction ts generalizing regs e n ws with
  | nil => rw [List.length_eq_zero_iff.1 hlen]; rfl
  | cons t ts ih =>
    obtain _ | ⟨w, ws⟩ := ws
    · cases hlen
    rw [callRegs, List.zip_cons_cons]
    cases hreg : (getCallReg abi regs t).1 with
    | some p =>
      have hp := isRegister_of_getCallReg hreg
      rw [numberStack, List.map_cons]
      congr 1
      · rw [placedWord_register hp, setRegs, setRegs_read_of_notMem _ _ hp, setReg_read e hp]
        intro hmem
        have hlater : some p ∈ callRegs abi (getCallReg abi regs t).2 ts := by
          obtain ⟨⟨r, w'⟩, hin, heq⟩ := List.mem_map.1 hmem
          rw [← heq]
          exact (List.of_mem_zip hin).1
        exact ((getCallReg_some (s := 0) hreg).2.2 p (free_of_mem_callRegs hlater)).2 rfl
      · refine Eq.trans (List.map_congr_left fun q _ => ?_) (ih (setReg e (some p) w) n ws (Nat.succ.inj hlen))
        cases q <;> rfl
    | none =>
      rw [numberStack, List.map_cons]
      congr 1
      · show (w :: _).getD (n - n) 0 = w
        rw [Nat.sub_self]
        rfl
      · refine Eq.trans (List.map_congr_left fun q hq => ?_) (ih e (n + 1) ws (Nat.succ.inj hlen))
        cases q with
        | reg i => rfl
        | fpReg i => rfl
        | stack j =>
          have hj : n + 1 ≤ j := (mem_numberStack hq).1
          obtain ⟨k, rfl⟩ := Nat.exists_eq_add_of_le hj
          show (w :: _).getD (n + 1 + k - n) 0 = List.getD _ (n + 1 + k - (n + 1)) 0
          rw [Nat.add_sub_cancel_left, show n + 1 + k - n = k + 1 by omega]
          rfl

theorem compiledCall_read (junk : Entry) (args : List (HlTypeKind × Word)) :
    (loadPlaces abi (args.map Prod.fst)).map (compiledCall abi junk args).read = args.map Prod.snd := by
  have hlen : (args.map Prod.snd).length = (args.map Prod.fst).length := by simp
  rw [loadPlaces_eq]
  have hplaced : (numberStack abi.shadow (callRegs abi ⟨0, 0⟩ (args.map Prod.fst))).map
      (placedWord junk ((callRegs abi ⟨0, 0⟩ (args.map Prod.fst)).zip (args.map Prod.snd)) abi.shadow) =
      args.map Prod.snd := map_placedWord junk abi.shadow (args.map Prod.snd) hlen
  refine Eq.trans (List.map_congr_left fun p hp => ?_) hplaced
  cases p with
  | reg i => rfl
  | fpReg i => rfl
  | stack j =>
    obtain ⟨hle, hlt⟩ := mem_numberStack hp
    have hle : abi.shadow ≤ j := hle
    have hlt := hlt j rfl
    have hsize := length_pushArgs (callRegs abi ⟨0, 0⟩ (args.map Prod.fst)) (args.map Prod.snd) (by simp)
    refine (if_neg (Nat.not_lt.2 hle)).trans ?_
    show List.getD _ _ _ = List.getD _ _ _
    simp only [List.getD_eq_getElem?_getD]
    rw [List.getElem?_eq_getElem (by rw [hsize]; omega)]
    rfl

theorem zipWith_read {α β γ δ : Type} (f : γ → β) (g : α → γ → β → δ) (args : List (α × β)) (ps : List γ)
    (h : ps.map f = args.map Prod.snd) :
    List.zipWith (fun t p => g t p (f p)) (args.map Prod.fst) ps =
      List.zipWith (fun a p => g a.1 p a.2) args ps := by
  induction args generalizing ps with
  | nil => rfl
  | cons a args ih =>
    cases ps with
    | nil => rfl
    | cons p ps =>
      obtain ⟨hp, hps⟩ := List.cons.inj h
      rw [List.map_cons, List.zipWith_cons_cons, List.zipWith_cons_cons, ih ps hps, hp]

def wrapperPlaces (abi : Abi) (args : List HlTypeKind) : List Place := numberStack 0 (callRegs abi ⟨1, 0⟩ args)

theorem callbackHl2c_compiledCall (junk : Entry) (closure : Word) (hlen : args.length ≤ maxArgs) :
    callbackHl2c abi (args.map Prod.fst) (compiledCall abi junk ((.hDyn, closure) :: args)) =
      .ok (List.zipWith (fun a p => rebuildWord a.1 p a.2) args (wrapperPlaces abi (args.map Prod.fst))) := by
  have hplaces : loadPlaces abi (((HlTypeKind.hDyn, closure) :: args).map Prod.fst) =
      .reg 0 :: (wrapperPlaces abi (args.map Prod.fst)).map (Place.above abi.shadow) := by
    rw [loadPlaces_eq, wrapperPlaces, map_above]
    cases abi <;> rfl
  have hread := @compiledCall_read abi junk ((.hDyn, closure) :: args)
  rw [hplaces, List.map_cons, List.map_cons, List.map_map] at hread
  refine (if_neg (by rw [List.length_map]; omega)).trans (congrArg Except.ok ?_)
  rw [@rebuildArgs_eq abi ⟨1, 0⟩ _ _ _ _ _ ⟨rfl, rfl⟩]
  refine zipWith_read _ (fun t p w => rebuildWord t p w) args _ (Eq.trans (List.map_congr_left fun p hp => ?_)
    (List.cons.inj hread).2)
  exact hl2cStub_read _ (mem_numberStack hp).1.valid

theorem and_eq_of_setWidth {v w m : Word} (h : v.setWidth 32 = w.setWidth 32) (hm : m.toNat < 2 ^ 32) :
    v &&& m = w &&& m := by
  refine BitVec.eq_of_getLsbD_eq fun i _ => ?_
  rw [BitVec.getLsbD_and, BitVec.getLsbD_and]
  by_cases hi : i < 32
  · have hbit := congrArg (fun x => x.getLsbD i) h
    simp only [BitVec.getLsbD_setWidth, hi, decide_true, Bool.true_and] at hbit
    rw [hbit]
  · have hzero : m.getLsbD i = false :=
      Nat.testBit_lt_two_pow (Nat.lt_of_lt_of_le hm (Nat.pow_le_pow_right (by decide) (Nat.le_of_not_lt hi)))
    rw [hzero, Bool.and_false, Bool.and_false]

theorem setWidth_signExtend (x : BitVec 32) : (x.signExtend 64).setWidth 32 = x := by
  refine BitVec.eq_of_getLsbD_eq fun i hi => ?_
  simp [BitVec.getLsbD_signExtend, hi]
  omega

theorem valueOf_argWord (t : HlTypeKind) (w : Word) : valueOf t (argWord t w) = valueOf t w := by
  have hlow : ((w.setWidth 32).signExtend 64).setWidth 32 = w.setWidth 32 := setWidth_signExtend _
  have hbyte := and_eq_of_setWidth (m := 0xFF) hlow (by decide)
  have hshort := and_eq_of_setWidth (m := 0xFFFF) hlow (by decide)
  cases t <;> first | rfl | simp only [valueOf, argWord, hlow, hbyte, hshort]

theorem value_hlMakeDyn (t : HlTypeKind) (w : Word) : (hlMakeDyn w t).value = valueOf t w := by
  have hbyte : w &&& 0xFF &&& 0xFF = w &&& 0xFF := by rw [BitVec.and_assoc, BitVec.and_self]
  have hshort : w &&& 0xFFFF &&& 0xFFFF = w &&& 0xFFFF := by rw [BitVec.and_assoc, BitVec.and_self]
  have hhalf : (w &&& 0xFFFFFFFF).setWidth 32 = w.setWidth 32 := by
    refine BitVec.eq_of_getLsbD_eq fun i hi => ?_
    rw [BitVec.getLsbD_setWidth, BitVec.getLsbD_setWidth, BitVec.getLsbD_and]
    have hmask : (0xFFFFFFFF : Word).getLsbD i = true := by
      rw [show (0xFFFFFFFF : Word) = (BitVec.allOnes 32).setWidth 64 from rfl, BitVec.getLsbD_setWidth,
        BitVec.getLsbD_allOnes]
      simp [hi]
      omega
    rw [hmask, Bool.and_true]
  cases t with
  | hUi8 => exact congrArg (fun x : Word => Value.int x.toNat) hbyte
  | hUi16 => exact congrArg (fun x : Word => Value.int x.toNat) hshort
  | hI32 => exact congrArg (fun x : BitVec 32 => Value.int x.toInt) hhalf
  | hF32 => exact congrArg (fun x : BitVec 32 => Value.float (widen x)) hhalf
  | hBool =>
    show Value.int (if (if w &&& 0xFF = 0 then (0 : Word) else 1) &&& 0xFF = 0 then 0 else 1) = _
    unfold valueOf
    split <;> rfl
  | hStruct | hBytes | hType | hRef | hAbstract =>
    by_cases hnull : w = 0
    · simp [hlMakeDyn, valueOf, Dyn.value, hnull]
    · simp only [hlMakeDyn, valueOf, Dyn.value, if_neg hnull]
  | _ => rfl

theorem valueOf_of_isDynamic {w : Word} (h : isDynamic t) : valueOf t w = .pointer w := by
  cases t <;> first | rfl | cases h

theorem value_rebuildWord (w : Word) (h : t = .hF32 → p.isRegister = false) :
    (rebuildWord t p w).value = valueOf t w := by
  unfold rebuildWord
  split
  · next hdyn => exact (valueOf_of_isDynamic hdyn).symm
  · split
    · next hreg =>
      rw [Bool.and_eq_true] at hreg
      have hdouble : t = .hF64 := by
        have hfloat := hreg.1
        have hsingle : t ≠ .hF32 := fun ht => absurd (h ht) (by rw [hreg.2]; decide)
        unfold isFloat at hfloat
        simpa [hsingle] using hfloat
      rw [hdouble]
      rfl
    · exact value_hlMakeDyn t w

def SingleInRegister (abi : Abi) (args : List HlTypeKind) (i : Nat) : Prop :=
  args[i]? = some .hF32 ∧
    if abi.winCall then i + 1 < abi.fpArgs else (args.take i).countP isFloat < abi.fpArgs

theorem getCallReg_float (hfloat : isFloat t) :
    (∃ r, (getCallReg abi regs t).1 = some r) ↔
      if abi.winCall then regs.ints < abi.fpArgs else regs.floats < abi.fpArgs := by
  unfold getCallReg
  rw [if_pos hfloat]
  cases abi.winCall
  · by_cases hlt : regs.floats < abi.fpArgs <;> simp [hlt]
  · by_cases hlt : regs.ints < abi.fpArgs <;> simp [hlt]

theorem getCallReg_left (n i : Nat) :
    (if abi.winCall then (getCallReg abi regs t).2.ints + i < abi.fpArgs
      else (getCallReg abi regs t).2.floats + n < abi.fpArgs) ↔
    if abi.winCall then regs.ints + (i + 1) < abi.fpArgs
      else regs.floats + (n + if isFloat t then 1 else 0) < abi.fpArgs := by
  cases hwin : abi.winCall with
  | true =>
    have habi : abi = .win64 := by cases abi <;> first | rfl | cases hwin
    subst habi
    have hargs : Abi.win64.fpArgs = 4 := rfl
    simp only [if_true, hargs, getCallReg_win64]
    split <;> dsimp only <;> omega
  | false =>
    simp only [Bool.false_eq_true, if_false]
    unfold getCallReg
    cases hfloat : isFloat t with
    | true =>
      simp only [if_true, hwin, Bool.false_eq_true, if_false]
      split <;> dsimp only <;> omega
    | false =>
      simp only [Bool.false_eq_true, if_false, Nat.add_zero]
      split <;> exact Iff.rfl

theorem float_place {i : Nat} (ht : ts[i]? = some t) (hfloat : isFloat t) :
    (∃ p, (numberStack s (callRegs abi regs ts))[i]? = some p ∧ p.isRegister) ↔
      if abi.winCall then regs.ints + i < abi.fpArgs else regs.floats + (ts.take i).countP isFloat < abi.fpArgs := by
  induction ts generalizing regs s i with
  | nil => cases ht
  | cons t₀ ts ih =>
    rw [callRegs]
    cases i with
    | zero =>
      cases ht
      refine Iff.trans ?_ (getCallReg_float hfloat)
      cases hreg : (getCallReg abi regs t).1 with
      | none => simp [numberStack, Place.isRegister]
      | some r => simp [numberStack, isRegister_of_getCallReg hreg]
    | succ i =>
      rw [List.take_succ_cons, List.countP_cons, ← getCallReg_left]
      cases (getCallReg abi regs t₀).1 with
      | none => exact ih (s := s + 1) ht
      | some r => exact ih (s := s) ht

theorem singleInRegister_iff {args : List HlTypeKind} {i : Nat} :
    SingleInRegister abi args i ↔
      args[i]? = some .hF32 ∧ ∃ p, (wrapperPlaces abi args)[i]? = some p ∧ p.isRegister := by
  refine and_congr_right fun ht => ?_
  rw [wrapperPlaces, float_place ht rfl, Nat.add_comm 1 i, Nat.zero_add]

theorem wrapperResult_holds (env : CastEnv) {ret : Dyn} {r : Word} (ht : t ≠ .hF32)
    (h : wrapperResult env ret t = some r) : HoldsResult env ret t r := by
  cases t with
  | hF32 => exact absurd rfl ht
  | hVoid => trivial
  | hUi8 | hUi16 | hI32 | hBool =>
    obtain ⟨x, hx, rfl⟩ := Option.map_eq_some_iff.1 h
    exact (congrArg some (setWidth_signExtend x)).trans hx.symm
  | hStruct => exact h
  | _ => exact h.symm

structure FunType where
  args : List HlTypeKind
  ret : HlTypeKind

/-- A type is marshalled: a call from C puts each argument where compiled code loads it, a compiled call of a wrapper
gives C the values of its arguments, and the result is represented as the type says. -/
structure Marshals (env : CastEnv) (abi : Abi) (ft : FunType) : Prop where
  placed : ∀ (junk : Entry) (args : List (HlTypeKind × Word)), args.map Prod.fst = ft.args →
    ∃ e, callbackC2hl abi junk args = .ok e ∧
      (loadPlaces abi ft.args).map e.read = args.map (fun a => argWord a.1 a.2) ∧
      List.zipWith valueOf ft.args ((loadPlaces abi ft.args).map e.read) = args.map fun a => valueOf a.1 a.2
  rebuilt : ∀ (junk : Entry) (closure : Word) (args : List (HlTypeKind × Word)), args.map Prod.fst = ft.args →
    ∃ ds, callbackHl2c abi ft.args (compiledCall abi junk ((.hDyn, closure) :: args)) = .ok ds ∧
      ds.map Dyn.value = args.map fun a => valueOf a.1 a.2
  result : ∀ ret r, wrapperResult env ret ft.ret = some r → HoldsResult env ret ft.ret r

def oneF : BitVec 32 := 0x3F800000

/-- A wrapper loses the singles that it gets in a register and those that it returns, and nothing else is lost on the
way. -/
theorem marshals_iff (env : CastEnv) (abi : Abi) (ft : FunType) (hlen : ft.args.length ≤ maxArgs) :
    Marshals env abi ft ↔ (∀ i, ¬SingleInRegister abi ft.args i) ∧ ft.ret ≠ .hF32 := by
  constructor
  · intro h
    refine ⟨fun i hi => ?_, fun hret => ?_⟩
    · -- every argument is the word of 1.0
      obtain ⟨ht, p, hp, hreg⟩ := singleInRegister_iff.1 hi
      let args := ft.args.map fun t => (t, oneF.setWidth 64)
      have hargs : args.map Prod.fst = ft.args := by
        rw [List.map_map]
        exact List.map_id _
      obtain ⟨ds, hds, hvalues⟩ := h.rebuilt ⟨fun _ => 0, fun _ => 0, fun _ => 0⟩ 0 args hargs
      rw [← hargs, callbackHl2c_compiledCall _ _ (by rw [← hargs] at hlen; simpa using hlen), hargs] at hds
      obtain rfl := Except.ok.inj hds
      have hat := congrArg (fun l : List Value => l[i]?) hvalues
      simp only [List.map_zipWith, List.getElem?_zipWith, List.getElem?_map, args, ht, hp, Option.map_some] at hat
      simp only [rebuildWord, hreg, isFloat, isDynamic] at hat
      exact absurd hat (by decide)
    · have hheld := h.result (.box .hF32 (oneF.setWidth 64)) (widen oneF) (by rw [hret]; rfl)
      rw [hret] at hheld
      have hlow : some ((widen oneF).setWidth 32) = some ((oneF.setWidth 64).setWidth 32) := hheld
      exact absurd hlow (by decide)
  · rintro ⟨hsingle, hret⟩
    refine ⟨fun junk args hargs => ?_, fun junk closure args hargs => ?_, fun ret r => wrapperResult_holds env hret⟩
    · rw [← hargs] at hlen ⊢
      rw [List.length_map] at hlen
      obtain ⟨e, he, hread⟩ := @callbackC2hl_read abi _ junk hlen
      refine ⟨e, he, hread, ?_⟩
      rw [hread, List.zipWith_map, List.zipWith_self]
      exact List.map_congr_left fun a _ => valueOf_argWord a.1 a.2
    · rw [← hargs] at hlen hsingle ⊢
      rw [List.length_map] at hlen
      refine ⟨_, callbackHl2c_compiledCall junk closure hlen, ?_⟩
      have hplaces : (wrapperPlaces abi (args.map Prod.fst)).length = args.length := by simp [wrapperPlaces]
      refine List.ext_getElem? fun i => ?_
      rw [List.map_zipWith, List.getElem?_zipWith, List.getElem?_map]
      cases ha : args[i]? with
      | none => rfl
      | some a =>
        obtain ⟨hi, -⟩ := List.getElem?_eq_some_iff.1 ha
        rw [List.getElem?_eq_getElem (by rw [hplaces]; exact hi)]
        refine congrArg some (value_rebuildWord a.2 fun ht => ?_)
        rw [← Bool.not_eq_true]
        refine fun hreg => hsingle i (singleInRegister_iff.2 ⟨?_, _, List.getElem?_eq_getElem _, hreg⟩)
        rw [List.getElem?_map, ha, Option.map_some, ht]

/-- Eight doubles and a single that goes to the stack. -/
theorem marshals_iff_spilled :
    Marshals ⟨fun _ _ => none, fun _ => none, fun _ _ => none, fun _ => none, fun _ => none, fun _ => 0, fun _ => 0,
        fun _ => 0, fun p _ => p⟩ .sysv ⟨List.replicate 8 .hF64 ++ [.hF32], .hVoid⟩ ↔
      (∀ i, ¬SingleInRegister .sysv (List.replicate 8 .hF64 ++ [.hF32]) i) ∧ HlTypeKind.hVoid ≠ .hF32 :=
  marshals_iff _ .sysv ⟨List.replicate 8 .hF64 ++ [.hF32], .hVoid⟩ (by decide)

/-- A wrapper of a function of one single that is called with 1.0: the double that is rebuilt is not 1.0. -/
theorem single_is_lost :
    ¬∃ ds, callbackHl2c .sysv [.hF32] (compiledCall .sysv ⟨fun _ => 0, fun _ => 0, fun _ => 0⟩
        [(.hDyn, 0), (.hF32, 0x3F800000)]) = .ok ds ∧ ds.map Dyn.value = [valueOf .hF32 0x3F800000] := by
  rintro ⟨ds, hds, hvalues⟩
  have hrebuilt : callbackHl2c .sysv [.hF32] (compiledCall .sysv ⟨fun _ => 0, fun _ => 0, fun _ => 0⟩
      [(.hDyn, 0), (.hF32, 0x3F800000)]) = .ok [.box .hF64 0x3F800000] := by rfl
  rw [hrebuilt] at hds
  obtain rfl := Except.ok.inj hds
  exact absurd hvalues (by decide)

end HashLink.Marshal
