import HashLink.Code.Read

/-!
Which bytes `hl_code_read` looks at. Before it takes a length from the file it adds it to the cursor
and compares the sum with the size; as long as the addition does not wrap, every access stays in the
buffer, also after an error. When it does wrap the sum is negative, the comparison lets it pass and
the access leaves the buffer.
-/

namespace HashLink.Code

open Sticky Transaction

def HlAccess.InBuffer (a : HlAccess) : Prop :=
  ∀ i, a.pos ≤ i → i < a.pos + a.len → 0 ≤ i ∧ i < a.size

def HlAccess.Fits (a : HlAccess) : Prop := a.pos + a.len < 2 ^ 31

/-- The cursor is in the buffer or at its end, and everything so far has gone well. -/
structure HlReader.Good (r : HlReader) : Prop where
  pos : 0 ≤ r.pos ∧ (r.pos ≤ r.size ∨ r.pos = 0)
  accesses : ∀ a ∈ r.accesses, a.InBuffer
  advances : ∀ a ∈ r.advances, a.Fits

/-- An addition has wrapped, and an access has left the buffer. -/
structure HlReader.Bad (r : HlReader) : Prop where
  accesses : ∃ a ∈ r.accesses, ¬a.InBuffer
  advances : ∃ a ∈ r.advances, ¬a.Fits

/-- Either nothing or both have happened. -/
structure HlReader.Coherent (r : HlReader) : Prop where
  size : r.size < 2 ^ 31
  log : r.Good ∨ r.Bad

theorem addInt_eq {a b : Int} (h : -2 ^ 31 ≤ a + b) (h' : a + b < 2 ^ 31) : addInt a b = a + b := by
  unfold addInt
  rw [Int.bmod_def]
  omega

theorem addInt_wraps {a b : Int} (h : 2 ^ 31 ≤ a + b) (h' : a + b < 2 ^ 32) : addInt a b < 0 := by
  unfold addInt
  rw [Int.bmod_def]
  omega

variable {r r' : HlReader}

def HlReader.note (r : HlReader) (message : String) : HlReader :=
  { r with error := some (r.error.getD message) }

theorem HlReader.Coherent.note (h : r.Coherent) (message : String) : (r.note message).Coherent where
  size := h.size
  log := h.log.imp (fun hg => ⟨hg.pos, hg.accesses, hg.advances⟩) fun hb => ⟨hb.accesses, hb.advances⟩

theorem HlReader.Bad.log (h : r.Bad) {r' : HlReader} (ha : r.accesses ⊆ r'.accesses)
    (hd : r.advances ⊆ r'.advances) : r'.Bad := by
  obtain ⟨⟨a, hmem, hout⟩, ⟨d, hmem', hwraps⟩⟩ := h
  exact ⟨⟨a, ha hmem, hout⟩, ⟨d, hd hmem', hwraps⟩⟩

/-- What a read of `len` bytes does to the reader. -/
def HlReader.take (r : HlReader) (len : Int) : HlReader :=
  if r.size < addInt r.pos len then (r.advance len).note "No more data"
  else (r.advance len).access len

variable {len size : Int} {α : Type}

theorem HlReader.Good.take_fits (h : r.Good) (hlen : 0 ≤ len) (hfits : r.pos + len < 2 ^ 31) :
    (r.take len).Good := by
  obtain ⟨⟨hpos, hend⟩, haccesses, hadvances⟩ := h
  have hsum : addInt r.pos len = r.pos + len := addInt_eq (by omega) hfits
  have hadvances' : ∀ a ∈ (r.advance len).advances, a.Fits :=
    List.forall_mem_cons.mpr ⟨hfits, hadvances⟩
  unfold HlReader.take
  rw [hsum]
  split
  · exact ⟨⟨hpos, hend⟩, haccesses, hadvances'⟩
  · refine ⟨?_, List.forall_mem_cons.mpr ⟨?_, haccesses⟩, hadvances'⟩
    · simp only [HlReader.access, HlReader.advance, hsum]
      omega
    · intro i hlow hhigh
      simp only [HlReader.advance] at hlow hhigh ⊢
      omega

theorem HlReader.Good.take_wraps (h : r.Good) (hsize : r.size < 2 ^ 31) (hlen : len < 2 ^ 31)
    (hwraps : ¬r.pos + len < 2 ^ 31) : (r.take len).Bad := by
  obtain ⟨⟨hpos, hend⟩, -, -⟩ := h
  have hin : r.pos ≤ r.size := by omega
  have hsum : addInt r.pos len < 0 := addInt_wraps (by omega) (by omega)
  unfold HlReader.take
  rw [if_neg (by omega)]
  refine ⟨⟨⟨r.pos, len, r.size⟩, List.mem_cons_self, fun hall => ?_⟩,
    ⟨⟨r.pos, len, r.size⟩, List.mem_cons_self, hwraps⟩⟩
  have hout := hall r.size hin (show r.size < r.pos + len by omega)
  exact absurd hout.2 (Int.lt_irrefl _)

theorem HlReader.Coherent.take (h : r.Coherent) (hlen : 0 ≤ len) (hlen' : len < 2 ^ 31) :
    (r.take len).Coherent := by
  obtain ⟨hsize, hgood | hbad⟩ := h
  · refine ⟨by unfold HlReader.take; split <;> exact hsize, ?_⟩
    by_cases hfits : r.pos + len < 2 ^ 31
    · exact .inl (hgood.take_fits hlen hfits)
    · exact .inr (hgood.take_wraps hsize hlen' hfits)
  · refine ⟨by unfold HlReader.take; split <;> exact hsize, .inr (hbad.log ?_ ?_)⟩
    all_goals
      unfold HlReader.take
      split
    · exact fun a ha => ha
    · exact List.subset_cons_self _ _
    · exact List.subset_cons_self _ _
    · exact List.subset_cons_self _ _

theorem keeps_hlError (message : String) : Keeps HlReader.Coherent (hlError message) :=
  fun _ hr => hr.note message

theorem keeps_failed (message : String) (a : α) :
    Keeps HlReader.Coherent (do hlError message; return a) :=
  keeps_bind (keeps_hlError message) fun _ => keeps_pure a

theorem keeps_chkError : Keeps HlReader.Coherent chkError := by
  refine keeps_bind keeps_get fun r => ?_
  cases r.error with
  | none => exact keeps_pure ()
  | some e => exact keeps_throw _

theorem keeps_hlExit (message : String) :
    Keeps HlReader.Coherent (hlExit message : ReadM α) :=
  keeps_bind keeps_get fun _ => keeps_throw _

theorem keeps_hlReadB : Keeps HlReader.Coherent hlReadB := by
  refine keeps_get_bind fun r hr => ?_
  split
  · exact keeps_failed _ _ r hr
  · rename_i hdata
    obtain ⟨hsize, hgood | hbad⟩ := hr
    · obtain ⟨⟨hpos, hend⟩, haccesses, hadvances⟩ := hgood
      have hsum : addInt r.pos 1 = r.pos + 1 := addInt_eq (by omega) (by omega)
      refine ⟨hsize, .inl ⟨?_, List.forall_mem_cons.mpr ⟨?_, haccesses⟩, hadvances⟩⟩
      · show 0 ≤ addInt r.pos 1 ∧ (addInt r.pos 1 ≤ r.size ∨ addInt r.pos 1 = 0)
        omega
      · intro i hlow hhigh
        simp only at hlow hhigh ⊢
        omega
    · exact ⟨hsize, .inr (hbad.log (List.subset_cons_self _ _) fun a ha => ha)⟩

theorem finalState_hlReadBytes (data : Bytes) (h : 0 ≤ size) :
    finalState (hlReadBytes data size) r = r.take size := by
  unfold hlReadBytes
  rw [if_neg (by omega)]
  show finalState (ite (r.size < addInt r.pos size) _ _) (r.advance size) = _
  unfold HlReader.take
  split <;> rfl

theorem keeps_hlReadBytes (data : Bytes) (h : size < 2 ^ 31) :
    Keeps HlReader.Coherent (hlReadBytes data size) := by
  intro r hr
  by_cases hneg : size < 0
  · unfold hlReadBytes
    rw [if_pos hneg]
    exact keeps_failed _ _ r hr
  · rw [finalState_hlReadBytes data (by omega)]
    exact hr.take (by omega) h

theorem keeps_hlReadDouble : Keeps HlReader.Coherent hlReadDouble :=
  keeps_bind (keeps_hlReadBytes _ (by decide)) fun _ => keeps_pure _

theorem finalState_hlReadI32 : finalState hlReadI32 r = r.take 4 := by
  show finalState (ite (r.size < addInt r.pos 4) _ _) (r.advance 4) = _
  unfold HlReader.take
  split <;> rfl

theorem keeps_hlReadI32 : Keeps HlReader.Coherent hlReadI32 := by
  intro r hr
  rw [finalState_hlReadI32]
  exact hr.take (by decide) (by decide)

theorem hlReadI32_lt : Yields (fun _ => True) hlReadI32 fun i => i < 2 ^ 31 := by
  intro r i r' hrun _
  refine ⟨trivial, ?_⟩
  obtain ⟨u, r₁, hadvance, hrest⟩ := bind_eq_ok.mp hrun
  cases hadvance
  obtain ⟨r₂, r₃, hget, hrest⟩ := bind_eq_ok.mp hrest
  cases hget
  split at hrest
  · obtain ⟨u, r₄, -, hreturn⟩ := bind_eq_ok.mp hrest
    obtain ⟨rfl, -⟩ := pure_eq_ok.mp hreturn
    decide
  · obtain ⟨u, r₄, -, hreturn⟩ := bind_eq_ok.mp hrest
    obtain ⟨rfl, -⟩ := pure_eq_ok.mp hreturn
    exact Int.bmod_lt (by decide)

theorem keeps_hlReadIndex : Keeps HlReader.Coherent hlReadIndex := by
  refine keeps_bind keeps_hlReadB fun b => keeps_ite (fun _ => keeps_pure _) fun _ =>
    keeps_ite (fun _ => ?_) fun _ => ?_
  · exact keeps_bind keeps_hlReadB fun _ => keeps_pure _
  · exact keeps_bind keeps_hlReadB fun _ => keeps_bind keeps_hlReadB fun _ =>
      keeps_bind keeps_hlReadB fun _ => keeps_pure _

theorem keeps_hlReadUindex : Keeps HlReader.Coherent hlReadUindex :=
  keeps_bind keeps_hlReadIndex fun _ => keeps_ite (fun _ => keeps_failed _ _) fun _ => keeps_pure _

theorem hlReadUindex_lt : Yields (fun _ => True) hlReadUindex fun i => (i : Int) < 2 ^ 31 := by
  refine yields_bind hlReadIndex_bounds fun i => yields_ite (fun _ => ?_) fun _ => ?_
  · exact yields_bind (fun _ _ _ _ _ => ⟨trivial, trivial⟩) fun _ => yields_pure fun _ _ => by decide
  · refine yields_pure fun hi => ?_
    omega

theorem hlReadB_advances {b : UInt8} (hrun : hlReadB r = .ok b r') (hsize : r.size < 2 ^ 31)
    (hpos : -2 ^ 31 ≤ r.pos) : r'.size = r.size ∧ r.pos ≤ r'.pos ∧
      (b.toNat ≠ 0 → (r.size - r'.pos).toNat < (r.size - r.pos).toNat) := by
  obtain ⟨s, t, hget, hrest⟩ := bind_eq_ok.mp hrun
  cases hget
  split at hrest
  · obtain ⟨u, s, hnote, hreturn⟩ := bind_eq_ok.mp hrest
    cases hnote
    obtain ⟨rfl, rfl⟩ := pure_eq_ok.mp hreturn
    exact ⟨rfl, Int.le_refl _, fun hne => absurd rfl hne⟩
  · obtain ⟨u, s, hset, hreturn⟩ := bind_eq_ok.mp hrest
    cases hset
    obtain ⟨-, rfl⟩ := pure_eq_ok.mp hreturn
    have hsum : addInt r.pos 1 = r.pos + 1 := addInt_eq (by omega) (by omega)
    refine ⟨rfl, ?_, fun _ => ?_⟩ <;> simp only [HlReader.access, hsum] <;> omega

theorem hlError_state {message : String} {u : Unit} (hrun : hlError message r = .ok u r') :
    r'.size = r.size ∧ r'.pos = r.pos := by
  cases hrun
  exact ⟨rfl, rfl⟩

theorem debugLoop_length {ndebugfiles fuel nops : Nat} {n curfile curline : Int}
    {debug result : List (Int × Int)} (hsize : r.size < 2 ^ 31) (hpos : -2 ^ 31 ≤ r.pos)
    (hfuel : n.toNat + (r.size - r.pos).toNat < fuel) (hdone : (nops : Int) ≤ debug.length + n)
    (hrun : debugLoop ndebugfiles fuel n curfile curline debug r = .ok result r') :
    nops ≤ result.length := by
  induction fuel generalizing n curfile curline debug r with
  | zero => omega
  | succ fuel ih =>
    unfold debugLoop at hrun
    split at hrun
    · obtain ⟨rfl, -⟩ := pure_eq_ok.mp hrun
      omega
    obtain ⟨c, r₁, hbyte, hrest⟩ := bind_eq_ok.mp hrun
    obtain ⟨hsize₁, hpos₁, hshorter⟩ := hlReadB_advances hbyte hsize hpos
    have hleft : (r₁.size - r₁.pos).toNat ≤ (r.size - r.pos).toNat := by omega
    simp only at hrest
    split at hrest
    · -- another file
      rename_i hbit
      have hc : c.toNat ≠ 0 := fun hzero => hbit (by simp [hzero])
      obtain ⟨file, r₂, hfile, hrest⟩ := bind_eq_ok.mp hrest
      obtain ⟨hsize₂, hpos₂, -⟩ := hlReadB_advances hfile (by omega) (by omega)
      have hless := hshorter hc
      split at hrest
      · obtain ⟨u, r₃, hnote, hrest⟩ := bind_eq_ok.mp hrest
        obtain ⟨hsize₃, hpos₃⟩ := hlError_state hnote
        exact ih (by omega) (by omega) (by omega) hdone hrest
      · exact ih (by omega) (by omega) (by omega) hdone hrest
    split at hrest
    · -- a run of opcodes, which may be empty
      rename_i hbit
      have hc : c.toNat ≠ 0 := fun hzero => hbit (by simp [hzero])
      have hless := hshorter hc
      split at hrest
      · obtain ⟨u, r₃, hnote, hrest⟩ := bind_eq_ok.mp hrest
        obtain ⟨hsize₃, hpos₃⟩ := hlError_state hnote
        refine ih (by omega) (by omega) (by omega) ?_ hrest
        simp only [List.length_append, List.length_replicate]
        omega
      · refine ih (by omega) (by omega) (by omega) ?_ hrest
        simp only [List.length_append, List.length_replicate]
        omega
    split at hrest
    · refine ih (by omega) (by omega) (by omega) ?_ hrest
      simp only [List.length_append, List.length_singleton]
      omega
    · obtain ⟨b2, r₂, hb2, hrest⟩ := bind_eq_ok.mp hrest
      obtain ⟨hsize₂, hpos₂, -⟩ := hlReadB_advances hb2 (by omega) (by omega)
      obtain ⟨b3, r₃, hb3, hrest⟩ := bind_eq_ok.mp hrest
      obtain ⟨hsize₃, hpos₃, -⟩ := hlReadB_advances hb3 (by omega) (by omega)
      refine ih (by omega) (by omega) (by omega) ?_ hrest
      simp only [List.length_append, List.length_singleton]
      omega

theorem hlReadDebugInfos_length {ndebugfiles nops : Nat} {debug : List (Int × Int)}
    (hsize : r.size < 2 ^ 31) (hpos : -2 ^ 31 ≤ r.pos)
    (hrun : hlReadDebugInfos ndebugfiles nops r = .ok debug r') : nops ≤ debug.length := by
  obtain ⟨s, t, hget, hrest⟩ := bind_eq_ok.mp hrun
  cases hget
  exact debugLoop_length hsize hpos (by omega) (by simp) hrest

variable {c : HlHeader}

theorem keeps_hlGetType : Keeps HlReader.Coherent (hlGetType c) :=
  keeps_bind keeps_hlReadIndex fun _ => keeps_ite (fun _ => keeps_failed _ _) fun _ => keeps_pure _

theorem keeps_hlReadString : Keeps HlReader.Coherent (hlReadString c) :=
  keeps_bind keeps_hlReadIndex fun _ => keeps_ite (fun _ => keeps_failed _ _) fun _ => keeps_pure _

theorem keeps_hlReadUstring : Keeps HlReader.Coherent (hlReadUstring c) := by
  refine keeps_bind ?_ fun _ => keeps_ite (fun _ => keeps_throw _) fun _ => keeps_pure _
  exact keeps_bind keeps_hlReadIndex fun _ =>
    keeps_ite (fun _ => keeps_failed _ _) fun _ => keeps_pure _

theorem keeps_hlReadField : Keeps HlReader.Coherent (hlReadField c) :=
  keeps_bind keeps_hlReadUstring fun _ => keeps_bind keeps_hlGetType fun _ => keeps_pure _

theorem keeps_hlReadProto : Keeps HlReader.Coherent (hlReadProto c) :=
  keeps_bind keeps_hlReadUstring fun _ => keeps_bind keeps_hlReadUindex fun _ =>
    keeps_bind keeps_hlReadIndex fun _ => keeps_pure _

theorem keeps_hlReadBinding : Keeps HlReader.Coherent hlReadBinding :=
  keeps_bind keeps_hlReadUindex fun _ => keeps_bind keeps_hlReadUindex fun _ => keeps_pure _

theorem keeps_hlReadConstruct : Keeps HlReader.Coherent (hlReadConstruct c) :=
  keeps_bind keeps_hlReadUstring fun _ => keeps_bind keeps_hlReadUindex fun n =>
    keeps_bind (keeps_collect keeps_hlGetType n) fun _ => keeps_pure _

theorem keeps_hlReadObj : Keeps HlReader.Coherent (hlReadObj c) := by
  refine keeps_bind keeps_hlReadUstring fun _ => keeps_bind keeps_hlReadIndex fun _ =>
    keeps_bind keeps_hlReadUindex fun _ => keeps_bind keeps_hlReadUindex fun nfields =>
    keeps_bind keeps_hlReadUindex fun nproto => keeps_bind keeps_hlReadUindex fun nbindings => ?_
  exact keeps_bind (keeps_collect keeps_hlReadField nfields) fun _ =>
    keeps_bind (keeps_collect keeps_hlReadProto nproto) fun _ =>
    keeps_bind (keeps_collect keeps_hlReadBinding nbindings) fun _ => keeps_pure _

theorem keeps_hlReadTypeData (kind : HlTypeKind) :
    Keeps HlReader.Coherent (hlReadTypeData c kind) := by
  have hfun : Keeps HlReader.Coherent (hlReadTypeData c .hFun) :=
    keeps_bind keeps_hlReadB fun nargs => keeps_bind (keeps_collect keeps_hlGetType _) fun _ =>
      keeps_bind keeps_hlGetType fun _ => keeps_pure _
  have hobj : Keeps HlReader.Coherent (hlReadTypeData c .hObj) :=
    keeps_bind keeps_hlReadObj fun _ => keeps_pure _
  have hparam : Keeps HlReader.Coherent (hlReadTypeData c .hRef) :=
    keeps_bind keeps_hlGetType fun _ => keeps_pure _
  cases kind with
  | hFun => exact hfun
  | hMethod => exact hfun
  | hObj => exact hobj
  | hStruct => exact hobj
  | hVirtual =>
    exact keeps_bind keeps_hlReadUindex fun n =>
      keeps_bind (keeps_collect keeps_hlReadField n) fun _ => keeps_pure _
  | hAbstract => exact keeps_bind keeps_hlReadUstring fun _ => keeps_pure _
  | hEnum =>
    exact keeps_bind keeps_hlReadUstring fun _ => keeps_bind keeps_hlReadUindex fun _ =>
      keeps_bind keeps_hlReadUindex fun n =>
        keeps_bind (keeps_collect keeps_hlReadConstruct n) fun _ => keeps_pure _
  | hRef => exact hparam
  | hNull => exact hparam
  | hPacked => exact hparam
  | _ => exact keeps_pure _

theorem keeps_hlReadType : Keeps HlReader.Coherent (hlReadType c) := by
  refine keeps_bind keeps_hlReadB fun b => ?_
  split
  · exact keeps_failed _ _
  · exact keeps_bind (keeps_hlReadTypeData _) fun _ => keeps_pure _

theorem keeps_hlReadOperands (op : HlOp) (n : Nat) :
    Keeps HlReader.Coherent (hlReadOperands op n) := by
  match n with
  | 0 => exact keeps_pure _
  | 1 => exact keeps_bind keeps_hlReadIndex fun _ => keeps_pure _
  | 2 => exact keeps_bind keeps_hlReadIndex fun _ => keeps_bind keeps_hlReadIndex fun _ => keeps_pure _
  | n + 3 =>
    exact keeps_bind keeps_hlReadIndex fun _ => keeps_bind keeps_hlReadIndex fun _ =>
      keeps_bind keeps_hlReadIndex fun _ =>
        keeps_bind (keeps_collect keeps_hlReadIndex n) fun _ => keeps_pure _

theorem keeps_hlReadSwitch : Keeps HlReader.Coherent hlReadSwitch :=
  keeps_bind keeps_hlReadUindex fun _ => keeps_bind keeps_hlReadUindex fun n =>
    keeps_bind (keeps_collect keeps_hlReadUindex n) fun _ =>
      keeps_bind keeps_hlReadUindex fun _ => keeps_pure _

theorem keeps_hlReadCallArgs (op : HlOp) : Keeps HlReader.Coherent (hlReadCallArgs op) :=
  keeps_bind keeps_hlReadIndex fun _ => keeps_bind keeps_hlReadIndex fun _ =>
    keeps_bind keeps_hlReadB fun n =>
      keeps_bind (keeps_collect keeps_hlReadIndex n.toNat) fun _ => keeps_pure _

theorem keeps_hlReadOpcode : Keeps HlReader.Coherent hlReadOpcode := by
  refine keeps_bind keeps_hlReadB fun b => ?_
  split
  · exact keeps_failed _ _
  · split
    · exact keeps_hlReadOperands _ _
    · exact keeps_ite (fun _ => keeps_hlReadSwitch) fun _ => keeps_hlReadCallArgs _

theorem keeps_hlReadFunction : Keeps HlReader.Coherent (hlReadFunction c) := by
  refine keeps_bind keeps_hlGetType fun _ => keeps_bind keeps_hlReadUindex fun _ =>
    keeps_bind keeps_hlReadUindex fun nregs => keeps_bind keeps_hlReadUindex fun nops =>
    keeps_bind (keeps_collect keeps_hlGetType nregs) fun _ => keeps_bind keeps_get fun _ => ?_
  refine keeps_ite (fun _ => keeps_pure _) fun _ => ?_
  exact keeps_bind (keeps_collect keeps_hlReadOpcode nops) fun _ => keeps_pure _

theorem keeps_debugLoop (ndebugfiles fuel : Nat) (n curfile curline : Int) (debug : List (Int × Int)) :
    Keeps HlReader.Coherent (debugLoop ndebugfiles fuel n curfile curline debug) := by
  induction fuel generalizing n curfile curline debug with
  | zero => exact keeps_pure _
  | succ fuel ih =>
    refine keeps_ite (fun _ => keeps_pure _) fun _ => keeps_bind keeps_hlReadB fun c => ?_
    refine keeps_ite (fun _ => ?_) fun _ => keeps_ite (fun _ => ?_) fun _ =>
      keeps_ite (fun _ => ih _ _ _ _) fun _ => ?_
    · refine keeps_bind keeps_hlReadB fun _ => keeps_ite (fun _ => ?_) fun _ => ih _ _ _ _
      exact keeps_bind (keeps_hlError _) fun _ => ih _ _ _ _
    · refine keeps_ite (fun _ => ?_) fun _ => ih _ _ _ _
      exact keeps_bind (keeps_hlError _) fun _ => ih _ _ _ _
    · exact keeps_bind keeps_hlReadB fun _ => keeps_bind keeps_hlReadB fun _ => ih _ _ _ _

theorem keeps_hlReadDebugInfos (ndebugfiles nops : Nat) :
    Keeps HlReader.Coherent (hlReadDebugInfos ndebugfiles nops) :=
  keeps_bind keeps_get fun _ => keeps_debugLoop _ _ _ _ _ _

theorem keeps_hlReadAssign : Keeps HlReader.Coherent (hlReadAssign c) := by
  refine keeps_bind keeps_hlReadUindex fun _ => keeps_bind keeps_hlReadIndex fun _ => ?_
  refine keeps_ite (fun _ => ?_) fun _ => keeps_pure _
  exact keeps_bind keeps_hlReadIndex fun _ => keeps_pure _

theorem keeps_stringLoop (base : Bytes) (size : Int) (n : Nat) (sdata : Int) :
    Keeps HlReader.Coherent (stringLoop base size n sdata) := by
  induction n generalizing sdata with
  | zero => exact keeps_pure _
  | succ n ih =>
    refine keeps_bind keeps_hlReadUindex fun _ => keeps_ite (fun _ => keeps_failed _ _) fun _ => ?_
    exact keeps_bind (ih _) fun _ => keeps_pure _

theorem keeps_hlReadStrings (n : Nat) : Keeps HlReader.Coherent (hlReadStrings n) := by
  refine keeps_yields_bind keeps_hlReadI32 hlReadI32_lt fun size hsize => ?_
  refine keeps_bind keeps_get fun _ => keeps_bind (keeps_hlReadBytes _ hsize) fun base => ?_
  exact keeps_bind (keeps_stringLoop base size n 0) fun _ => keeps_pure _

theorem keeps_hlSkipString : Keeps HlReader.Coherent hlSkipString := by
  refine keeps_bind keeps_hlReadUindex fun length => keeps_get_bind fun r hr => ?_
  split
  · exact hr
  · rename_i hdata
    refine ⟨hr.size, hr.log.imp (fun hgood => ?_) fun hbad => ⟨hbad.accesses, hbad.advances⟩⟩
    have hpos := hgood.pos
    refine ⟨?_, hgood.accesses, hgood.advances⟩
    show 0 ≤ r.pos + length ∧ (r.pos + length ≤ r.size ∨ r.pos + length = 0)
    omega

theorem keeps_hlReadFunctionIdentity (functions : List HlFunction) (ids : HlIdentities) :
    Keeps HlReader.Coherent (hlReadFunctionIdentity functions ids) := by
  refine keeps_bind keeps_hlReadUindex fun _ => keeps_bind keeps_hlReadUindex fun _ =>
    keeps_bind keeps_hlSkipString fun _ => keeps_ite (fun _ => keeps_pure _) fun _ =>
    keeps_bind keeps_hlSkipString fun _ => keeps_ite (fun _ => keeps_pure _) fun _ =>
    keeps_bind keeps_hlSkipString fun _ => keeps_ite (fun _ => keeps_pure _) fun _ => ?_
  refine keeps_bind keeps_hlReadIndex fun _ => keeps_bind keeps_hlReadIndex fun _ =>
    keeps_bind keeps_hlReadUindex fun _ => keeps_bind keeps_hlReadUindex fun _ =>
    keeps_ite (fun _ => keeps_pure _) fun _ => keeps_bind keeps_get fun _ => ?_
  split
  · exact keeps_pure _
  · exact keeps_ite (fun _ => keeps_pure _) fun _ => keeps_pure _

theorem keeps_identityLoop (functions : List HlFunction) (n : Nat) (ids : HlIdentities) :
    Keeps HlReader.Coherent (identityLoop functions n ids) := by
  induction n generalizing ids with
  | zero =>
    exact keeps_bind keeps_get fun _ => keeps_ite (fun _ => keeps_pure _) fun _ => keeps_pure _
  | succ n ih =>
    refine keeps_bind (keeps_hlReadFunctionIdentity functions ids) fun result => ?_
    cases result with
    | error e => exact keeps_pure _
    | ok ids => exact ih ids

theorem HlReader.Coherent.back {s : HlReader} (hr : r.Coherent) (hs : s.Coherent) :
    (r.back s).Coherent := by
  refine ⟨hr.size, ?_⟩
  obtain ⟨-, hgood | hbad⟩ := hs
  · refine hr.log.imp (fun hfile => ⟨hfile.pos, ?_, ?_⟩) fun hfile => hfile.log ?_ ?_
    · exact List.forall_mem_append.mpr ⟨hgood.accesses, hfile.accesses⟩
    · exact List.forall_mem_append.mpr ⟨hgood.advances, hfile.advances⟩
    · exact List.subset_append_right _ _
    · exact List.subset_append_right _ _
  · exact .inr (hbad.log (List.subset_append_left _ _) (List.subset_append_left _ _))

theorem start_coherent (data fresh : Bytes) (h : size < 2 ^ 31) :
    (HlReader.start data size fresh).Coherent :=
  ⟨h, .inl ⟨⟨Int.le_refl _, .inr rfl⟩, by simp [HlReader.start], by simp [HlReader.start]⟩⟩

theorem keeps_withSection (data : Bytes) {size : Nat} (hsize : (size : Int) < 2 ^ 31) {x : ReadM α}
    (hx : Keeps HlReader.Coherent x) :
    Keeps HlReader.Coherent (withSection data size x) := by
  intro r hr
  have hsection := hx _ (start_coherent data r.fresh hsize)
  unfold finalState at hsection ⊢
  unfold withSection
  cases hrun : x (.start data size r.fresh) with
  | ok a s =>
    rw [hrun] at hsection
    exact hr.back hsection
  | error e s =>
    rw [hrun] at hsection
    exact hr.back hsection

theorem keeps_hlReadFunctionIdentities (functions : List HlFunction) (ids : HlIdentities)
    (data : Bytes) {size : Nat} (hsize : (size : Int) < 2 ^ 31) :
    Keeps HlReader.Coherent (hlReadFunctionIdentities functions ids data size) := by
  refine keeps_bind (keeps_withSection data hsize ?_) fun result => ?_
  · exact keeps_bind keeps_hlReadUindex fun count => keeps_identityLoop functions count _
  · cases result with
    | error e => exact keeps_failed _ _
    | ok ids => exact keeps_pure _

theorem keeps_hlReadDebugSection (functions : List HlFunction) (ids : HlIdentities) :
    Keeps HlReader.Coherent (hlReadDebugSection functions ids) := by
  refine keeps_bind keeps_hlReadUindex fun kind => keeps_bind keeps_hlReadUindex fun version =>
    keeps_bind keeps_hlReadUindex fun _ =>
    keeps_yields_bind keeps_hlReadUindex hlReadUindex_lt fun size hsize =>
    keeps_bind keeps_chkError fun _ => keeps_ite (fun _ => keeps_hlExit _) fun _ =>
    keeps_bind keeps_get fun _ => keeps_bind (keeps_hlReadBytes _ hsize) fun data =>
    keeps_bind keeps_chkError fun _ => keeps_ite (fun _ => ?_) fun _ => keeps_pure _
  exact keeps_bind (keeps_hlReadFunctionIdentities functions ids data hsize) fun _ =>
    keeps_bind keeps_chkError fun _ => keeps_pure _

theorem keeps_hlReadDebugSections (functions : List HlFunction) (n : Nat) (ids : HlIdentities) :
    Keeps HlReader.Coherent (hlReadDebugSections functions n ids) := by
  induction n generalizing ids with
  | zero => exact keeps_pure _
  | succ n ih => exact keeps_bind (keeps_hlReadDebugSection functions ids) fun ids => ih ids

theorem keeps_hlReadIdentities (functions : List HlFunction) :
    Keeps HlReader.Coherent (hlReadIdentities c functions) := by
  refine keeps_ite (fun _ => ?_) fun _ => keeps_pure _
  exact keeps_bind keeps_hlReadUindex fun n => keeps_bind keeps_chkError fun _ =>
    keeps_hlReadDebugSections functions n _

theorem keeps_hlReadCountSince (first version : Nat) :
    Keeps HlReader.Coherent (hlReadCountSince first version) :=
  keeps_ite (fun _ => keeps_hlReadUindex) fun _ => keeps_pure _

theorem keeps_hlReadHeader : Keeps HlReader.Coherent hlReadHeader := by
  refine keeps_bind keeps_hlReadB fun _ => keeps_ite (fun _ => keeps_hlExit _) fun _ =>
    keeps_bind keeps_hlReadB fun _ => keeps_ite (fun _ => keeps_hlExit _) fun _ =>
    keeps_bind keeps_hlReadB fun _ => keeps_ite (fun _ => keeps_hlExit _) fun _ =>
    keeps_bind keeps_hlReadB fun version => keeps_ite (fun _ => keeps_hlExit _) fun _ => ?_
  refine keeps_bind keeps_hlReadUindex fun _ => keeps_bind keeps_hlReadUindex fun _ =>
    keeps_bind keeps_hlReadUindex fun _ => keeps_bind keeps_hlReadUindex fun _ =>
    keeps_bind (keeps_hlReadCountSince _ _) fun _ =>
    keeps_bind keeps_hlReadUindex fun _ => keeps_bind keeps_hlReadUindex fun _ =>
    keeps_bind keeps_hlReadUindex fun _ => keeps_bind keeps_hlReadUindex fun _ =>
    keeps_bind (keeps_hlReadCountSince _ _) fun _ => ?_
  exact keeps_bind keeps_hlReadUindex fun _ => keeps_bind keeps_chkError fun _ => keeps_pure _

theorem keeps_hlReadBytesTable : Keeps HlReader.Coherent (hlReadBytesTable c) := by
  refine keeps_ite (fun _ => ?_) fun _ => keeps_pure _
  refine keeps_yields_bind keeps_hlReadI32 hlReadI32_lt fun size hsize =>
    keeps_bind keeps_get fun _ => keeps_bind (keeps_hlReadBytes _ hsize) fun _ =>
    keeps_bind keeps_chkError fun _ => ?_
  exact keeps_bind (keeps_collect keeps_hlReadUindex _) fun _ =>
    keeps_bind keeps_chkError fun _ => keeps_pure _

theorem keeps_hlReadDebugFiles : Keeps HlReader.Coherent (hlReadDebugFiles c) := by
  refine keeps_ite (fun _ => ?_) fun _ => keeps_pure _
  exact keeps_bind keeps_hlReadUindex fun n => keeps_bind (keeps_hlReadStrings n) fun _ =>
    keeps_bind keeps_chkError fun _ => keeps_pure _

theorem keeps_hlReadTypeEntry : Keeps HlReader.Coherent (hlReadTypeEntry c) :=
  keeps_bind keeps_hlReadType fun _ => keeps_bind keeps_chkError fun _ => keeps_pure _

theorem keeps_hlReadNative : Keeps HlReader.Coherent (hlReadNative c) :=
  keeps_bind keeps_hlReadString fun _ => keeps_bind keeps_hlReadString fun _ =>
    keeps_bind keeps_hlGetType fun _ => keeps_bind keeps_hlReadUindex fun _ => keeps_pure _

theorem keeps_hlReadFunctionDebug (ndebugfiles : Nat) (f : HlFunction) :
    Keeps HlReader.Coherent (hlReadFunctionDebug c ndebugfiles f) := by
  refine keeps_ite (fun _ => ?_) fun _ => keeps_pure _
  refine keeps_bind (keeps_hlReadDebugInfos _ _) fun _ => keeps_ite (fun _ => ?_) fun _ => keeps_pure _
  exact keeps_bind keeps_hlReadUindex fun n =>
    keeps_bind (keeps_collect keeps_hlReadAssign n) fun _ => keeps_pure _

theorem keeps_hlReadFunctionEntry (ndebugfiles : Nat) :
    Keeps HlReader.Coherent (hlReadFunctionEntry c ndebugfiles) := by
  refine keeps_bind keeps_hlReadFunction fun f => keeps_bind keeps_chkError fun _ => ?_
  split
  · exact keeps_hlExit _
  · exact keeps_hlReadFunctionDebug ndebugfiles f

theorem keeps_hlReadConstant : Keeps HlReader.Coherent hlReadConstant :=
  keeps_bind keeps_hlReadUindex fun _ => keeps_bind keeps_hlReadUindex fun n =>
    keeps_bind (keeps_collect keeps_hlReadUindex n) fun _ =>
      keeps_bind keeps_chkError fun _ => keeps_pure _

theorem keeps_hlCodeReadM : Keeps HlReader.Coherent hlCodeReadM := by
  refine keeps_bind keeps_hlReadHeader fun c => ?_
  refine keeps_bind (keeps_collect keeps_hlReadI32 _) fun _ => keeps_bind keeps_chkError fun _ =>
    keeps_bind (keeps_collect keeps_hlReadDouble _) fun _ => keeps_bind keeps_chkError fun _ =>
    keeps_bind (keeps_hlReadStrings _) fun _ => keeps_bind keeps_chkError fun _ =>
    keeps_bind keeps_hlReadBytesTable fun _ => keeps_bind keeps_hlReadDebugFiles fun files => ?_
  refine keeps_bind (keeps_collect keeps_hlReadTypeEntry _) fun _ =>
    keeps_bind (keeps_collect keeps_hlGetType _) fun _ => keeps_bind keeps_chkError fun _ =>
    keeps_bind (keeps_collect keeps_hlReadNative _) fun _ => keeps_bind keeps_chkError fun _ =>
    keeps_bind (keeps_collect (keeps_hlReadFunctionEntry files.1) _) fun functions =>
    keeps_bind keeps_chkError fun _ => ?_
  exact keeps_bind (keeps_collect keeps_hlReadConstant _) fun _ =>
    keeps_bind (keeps_hlReadIdentities functions) fun _ => keeps_pure _

/-- For every buffer and every size: all that `hl_code_read` reads is in the buffer exactly when no
length it adds to its cursor carries the sum out of 32 bits. -/
theorem hlCodeRead_inBuffer_iff (data : Bytes) (size : BitVec 32) (fresh : Bytes) :
    (∀ a ∈ (finalReader data size fresh).accesses, a.InBuffer) ↔
      ∀ a ∈ (finalReader data size fresh).advances, a.Fits := by
  have hsize : size.toInt < 2 ^ 31 := by
    have := size.toInt_lt
    omega
  obtain ⟨-, hgood | hbad⟩ := keeps_hlCodeReadM _ (start_coherent data fresh hsize)
  · exact ⟨fun _ => hgood.advances, fun _ => hgood.accesses⟩
  · obtain ⟨⟨a, hmem, hout⟩, ⟨d, hmem', hwraps⟩⟩ := hbad
    exact ⟨fun hall => absurd (hall a hmem) hout, fun hall => absurd (hall d hmem') hwraps⟩

def bytesOf (bytes : List UInt8) : Bytes := fun i => bytes.getD i.toNat 0

def hugeStrings : List UInt8 :=
  [0x48, 0x4C, 0x42, 2, 0, 0, 0, 0, 0, 0, 0, 0, 0, 0xF8, 0xFF, 0xFF, 0x7F]

theorem hugeStrings_leaves_buffer :
    (⟨17, 0x7FFFFFF8, 17⟩ : HlAccess) ∈ (finalReader (bytesOf hugeStrings) 17 fun _ => 0).accesses ∧
      ¬∀ data size fresh, ∀ a ∈ (finalReader data size fresh).accesses, a.InBuffer := by
  have hmem : (⟨17, 0x7FFFFFF8, 17⟩ : HlAccess) ∈
      (finalReader (bytesOf hugeStrings) 17 fun _ => 0).accesses := by decide
  refine ⟨hmem, fun hall => ?_⟩
  have hin := hall _ _ _ _ hmem 17 (by decide) (by decide)
  exact absurd hin.2 (by decide)

end HashLink.Code
