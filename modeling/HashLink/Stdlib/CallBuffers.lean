import HashLink.Stdlib.DynCall

/-! Which dynamic calls stay within their arrays. -/

namespace HashLink.DynCall

variable {r : Runtime}
variable {i : Nat} {vargs : List Slot}

section
variable {α β : Type}

@[simp] theorem faultless_pure (a : α) : Run.Faultless (pure a) := nofun

@[simp] theorem faultless_ok (a : α) : Run.Faultless (.ok a) := nofun

@[simp] theorem faultless_raise (message : String) : (raise message : Run α).Faultless := nofun

@[simp] theorem not_faultless (f : Fault) : ¬(fault f : Run α).Faultless := fun h => h f rfl

@[simp] theorem faultless_liftCast (x : Except String α) : (liftCast x).Faultless := by cases x <;> nofun

theorem faultless_bind {x : Run α} {g : α → Run β} :
    (x >>= g).Faultless ↔ x.Faultless ∧ ∀ a, x = .ok a → (g a).Faultless := by
  cases x with
  | ok a =>
    constructor
    · exact fun h => ⟨nofun, fun b hb => Except.ok.inj hb ▸ h⟩
    · exact fun h => h.2 a rfl
  | error e =>
    constructor
    · exact fun h => ⟨fun f hf => h f (congrArg Except.error (Except.error.inj hf)), nofun⟩
    · exact fun h f hf => h.1 f (congrArg Except.error (Except.error.inj hf))

theorem bind_ok {x : Run α} {g : α → Run β} {b : β} (h : x >>= g = .ok b) : ∃ a, x = .ok a ∧ g a = .ok b := by
  cases x with
  | ok a => exact ⟨a, rfl, h⟩
  | error e => cases h

theorem faultless_put {size : Nat} {xs : List α} {x : α} : (put size xs x).Faultless ↔ xs.length < size := by
  rw [put]
  split
  · exact iff_of_true nofun ‹_›
  · exact iff_of_false (not_faultless _) ‹_›

theorem put_ok {size : Nat} {xs ys : List α} {x : α} (h : put size xs x = .ok ys) : ys = xs ++ [x] := by
  rw [put] at h
  split at h
  · exact (Except.ok.inj h).symm
  · cases h

theorem put_of_lt {size : Nat} {xs : List α} {x : α} (h : xs.length < size) : put size xs x = .ok (xs ++ [x]) :=
  if_pos h

theorem faultless_putTmp {bits : Word} : (putTmp i bits).Faultless ↔ i < hlMaxArgs := by
  rw [putTmp]
  split
  · exact iff_of_true nofun ‹_›
  · exact iff_of_false (not_faultless _) ‹_›

end

/-- The kinds of which a cast is kept in `tmp`. -/
def InTmp : HlTypeKind → Bool
  | .hUi8 | .hUi16 | .hI32 | .hBool | .hI64 | .hGuid | .hF32 | .hF64 => true
  | _ => false

def castValue (r : Runtime) (v : Slot) (t target : HlType) : Except String Word :=
  match target.kind with
  | .hUi8 | .hUi16 | .hI32 | .hBool => r.hlDynCasti v t target
  | .hI64 | .hGuid => r.hlDynCasti64 v t
  | .hF32 => r.hlDynCastf v t
  | .hF64 => r.hlDynCastd v t
  | _ => r.hlDynCastp v t target

theorem castArg_eq (i : Nat) (v : Slot) (t target : HlType) : castArg r i v t target =
    (liftCast (castValue r v t target) >>= fun x => if InTmp target.kind then putTmp i x else pure (.pointer x)) := by
  obtain ⟨kind, address⟩ := target
  cases kind <;> rfl

theorem faultless_castArg {v : Slot} {t target : HlType} : (castArg r i v t target).Faultless ↔
    ((castValue r v t target).isOk → InTmp target.kind → i < hlMaxArgs) := by
  rw [castArg_eq, faultless_bind]
  cases castValue r v t target with
  | error message => exact iff_of_true ⟨faultless_raise message, nofun⟩ nofun
  | ok x =>
    cases hkind : InTmp target.kind <;> simp [liftCast, Except.isOk, Except.toBool, faultless_putTmp]

theorem readArg_of_lt {α : Type} {args : List α} (hi : i < args.length) : readArg args i = pure args[i] := by
  rw [readArg, List.getElem?_eq_getElem hi]
  rfl

theorem packArgs_spec {args : List Word} (hsize : args.length ≤ hlMaxArgs) {ts : List HlType}
    {pargs : List Slot} (hi : pargs.length = i) (hts : i + ts.length ≤ args.length) :
    (packArgs r args ts i pargs).Faultless ∧
      ∀ qargs, packArgs r args ts i pargs = .ok qargs → qargs.length = i + ts.length := by
  induction ts generalizing i pargs with
  | nil => exact ⟨nofun, fun qargs h => (congrArg List.length (Except.ok.inj h)).symm.trans hi⟩
  | cons t ts ih =>
    rw [List.length_cons] at hts
    have hlt : i < hlMaxArgs := by omega
    have htmp : ∀ bits, putTmp i bits = pure (.number bits) := fun bits => if_pos hlt
    rw [packArgs, readArg_of_lt (by omega : i < args.length), pure_bind]
    have hput : ∀ p, put hlMaxArgs pargs p = .ok (pargs ++ [p]) := fun p => put_of_lt (by omega)
    have hrest : ∀ p, (packArgs r args ts (i + 1) (pargs ++ [p])).Faultless ∧ ∀ qargs,
        packArgs r args ts (i + 1) (pargs ++ [p]) = .ok qargs → qargs.length = i + (ts.length + 1) := by
      intro p
      obtain ⟨hfaultless, hlength⟩ :=
        ih (by rw [List.length_append, hi]; rfl : (pargs ++ [p]).length = i + 1) (by omega)
      exact ⟨hfaultless, fun qargs h => by rw [hlength qargs h]; omega⟩
    have hstep : (if args[i] = 0 then if t.kind.isPtr then pure (.pointer 0) else putTmp i 0
        else castArg r i (.pointer args[i]) r.hltDyn t : Run Slot).Faultless := by
      split
      · split
        · exact faultless_pure _
        · exact (faultless_putTmp).2 hlt
      · exact (faultless_castArg).2 fun _ _ => hlt
    constructor
    · refine (faultless_bind).2 ⟨hstep, fun p _ => ?_⟩
      rw [hput]
      exact (hrest p).1
    · intro qargs h
      obtain ⟨p, -, hp⟩ := bind_ok h
      rw [hput] at hp
      exact (hrest p).2 qargs hp

theorem faultless_staticCall {code : Word} {t : FunType} :
    (staticCall r code t vargs).Faultless ↔ t.args.length ≤ vargs.length := by
  rw [staticCall]
  split
  · exact iff_of_true (faultless_liftCast _) ‹_›
  · exact iff_of_false (not_faultless _) ‹_›

theorem faultless_unless {α : Type} {p : Prop} [Decidable p] {message : String} {k : Unit → Run α}
    (hk : ¬p → (k ()).Faultless) : (if p then raise message >>= k else k ()).Faultless := by
  split
  · exact faultless_raise message
  · exact hk ‹_›

theorem hlCallMethod_faultless (cl : Closure) (args : List Word) : (hlCallMethod r cl args).Faultless := by
  rw [hlCallMethod.eq_def]
  refine faultless_unless fun hsize => ?_
  dsimp only
  split
  · rename_i t code
    refine faultless_unless fun henough => ?_
    obtain ⟨hfaultless, hlength⟩ := packArgs_spec (r := r) (i := 0) (Nat.not_lt.1 hsize) (@List.length_nil Slot)
      (by rw [Nat.zero_add]; exact Nat.not_lt.1 henough : 0 + t.args.length ≤ args.length)
    refine (faultless_bind).2 ⟨hfaultless, fun pargs hpargs => ?_⟩
    refine (faultless_bind).2 ⟨(faultless_staticCall).2 ?_, fun ret _ => faultless_pure _⟩
    rw [hlength pargs hpargs, Nat.zero_add]
    exact Nat.le_refl t.args.length
  · split
    · exact faultless_liftCast _
    · exact faultless_raise _

theorem copyArgs_faultless {args tmp : List Word} (hsize : args.length + tmp.length ≤ hlMaxArgs + 1) :
    (copyArgs args tmp).Faultless := by
  induction args generalizing tmp with
  | nil => exact faultless_pure _
  | cons v args ih =>
    rw [List.length_cons] at hsize
    rw [copyArgs, put_of_lt (by omega)]
    exact ih (by rw [List.length_append, List.length_singleton]; omega)

theorem hlDynCall_faultless (c : Closure) (args : List Word) : (hlDynCall r c args).Faultless := by
  rw [hlDynCall.eq_def]
  refine faultless_unless fun hsize => ?_
  dsimp only
  have hroom : args.length + 1 ≤ hlMaxArgs + 1 := Nat.succ_le_succ (Nat.not_lt.1 hsize)
  split
  · refine (faultless_bind).2 ⟨(faultless_put).2 (Nat.succ_pos _), fun tmp htmp => ?_⟩
    cases put_ok htmp
    exact (faultless_bind).2 ⟨copyArgs_faultless hroom, fun _ _ => hlCallMethod_faultless _ _⟩
  · exact (faultless_bind).2 ⟨copyArgs_faultless (Nat.le_of_succ_le hroom), fun _ _ => hlCallMethod_faultless _ _⟩

/-! ### The arguments of a wrapped closure -/

section
variable (r) (t : Signature) (args : List Slot) (w : Closure)

/-- The closure that is called: the callback of `fun_var_args`, or the closure itself. -/
def callee : Closure → Closure
  | .varArgs _ callback => r.closure callback
  | w => w

/-- The argument `i` can be cast to what the closure wants. -/
def Casts (i : Nat) : Prop :=
  ∃ v ti target, args[i]? = some v ∧ t.args[i]? = some ti ∧ w.t.args[i]? = some target ∧
    (castValue r v ti target).isOk

/-- The arguments before `n` can be cast. -/
def CastsBelow (n : Nat) : Prop := ∀ i < n, Casts r t args w i

/-- What `hl_wrapper_call` needs, up to an argument that cannot be cast: that the caller has an argument for each one
of the closure, that ten words are enough for the value and the arguments, that no number comes after nine arguments,
and that the closure is not a wrapper itself. -/
structure Fits : Prop where
  declared : ∀ i < w.t.args.length, CastsBelow r t args w i → i < t.args.length
  room : ∀ i < w.t.args.length, CastsBelow r t args w (i + 1) → w.value.toList.length + i < hlMaxArgs + 1
  numbers : ∀ i target, w.t.args[i]? = some target → InTmp target.kind → CastsBelow r t args w (i + 1) → i < hlMaxArgs
  bare : CastsBelow r t args w w.t.args.length → (callee r w).value.isSome → (callee r w).t.parent.isSome

end

section
variable {t : Signature} {args : List Slot} {w : Closure}

/-- What the loop needs from the argument `i` on, with `n` entries written, and then `P`. -/
def FitsFrom (r : Runtime) (t : Signature) (args : List Slot) (P : Prop) : List HlType → Nat → Nat → Prop
  | [], _, _ => P
  | target :: targets, i, n =>
    i < t.args.length ∧ ∀ v ti, args[i]? = some v → t.args[i]? = some ti → (castValue r v ti target).isOk →
        (InTmp target.kind → i < hlMaxArgs) ∧ n < hlMaxArgs + 1 ∧ FitsFrom r t args P targets (i + 1) (n + 1)

theorem castArg_ok {v s : Slot} {ti target : HlType} (h : castArg r i v ti target = .ok s) :
    (castValue r v ti target).isOk := by
  rw [castArg_eq] at h
  cases hcast : castValue r v ti target with
  | ok x => rfl
  | error message =>
    rw [hcast] at h
    cases h

theorem castArg_of_ok {v : Slot} {ti target : HlType} (hcast : (castValue r v ti target).isOk)
    (hfaultless : (castArg r i v ti target).Faultless) : ∃ s, castArg r i v ti target = .ok s := by
  rw [castArg_eq] at hfaultless ⊢
  cases hx : castValue r v ti target with
  | error message =>
    rw [hx] at hcast
    cases hcast
  | ok x =>
    rw [hx] at hfaultless
    cases hkind : InTmp target.kind with
    | false => exact ⟨.pointer x, rfl⟩
    | true =>
      rw [hkind] at hfaultless
      exact ⟨.number x, if_pos (faultless_putTmp.1 hfaultless)⟩

theorem wrapArgs_faultless {P : Prop} {k : List Slot → Run Word} (hargs : args.length = t.args.length)
    {targets : List HlType}
    (hk : ∀ xs : List Slot, xs.length = vargs.length + targets.length → ((k xs).Faultless ↔ P)) :
    (wrapArgs r t args targets i vargs >>= k).Faultless ↔ FitsFrom r t args P targets i vargs.length := by
  induction targets generalizing i vargs with
  | nil => exact hk vargs rfl
  | cons target targets ih =>
    rw [FitsFrom]
    by_cases hi : i < t.args.length
    · have hread : readType t i = pure t.args[i] := by
        rw [readType, List.getElem?_eq_getElem hi]
        rfl
      have hcons : ∀ vs, vs.length = vargs.length + 1 → ((wrapArgs r t args targets (i + 1) vs >>= k).Faultless ↔
          FitsFrom r t args P targets (i + 1) (vargs.length + 1)) := by
        intro vs hvs
        rw [← hvs]
        exact ih fun xs hxs => hk xs (by rw [hxs, hvs, List.length_cons]; omega)
      rw [wrapArgs, hread, readArg_of_lt (hargs ▸ hi), List.getElem?_eq_getElem hi,
        List.getElem?_eq_getElem (hargs ▸ hi), pure_bind, pure_bind, bind_assoc, faultless_bind, faultless_castArg]
      constructor
      · rintro ⟨hnumbers, hrest⟩
        refine ⟨hi, ?_⟩
        rintro _ _ ⟨⟩ ⟨⟩ hcast
        obtain ⟨s, hs⟩ := castArg_of_ok hcast (faultless_castArg.2 hnumbers)
        have hput := hrest s hs
        rw [bind_assoc, faultless_bind, faultless_put] at hput
        exact ⟨hnumbers hcast, hput.1, (hcons _ List.length_append).1 (hput.2 _ (put_of_lt hput.1))⟩
      · rintro ⟨-, hfits⟩
        refine ⟨fun hcast => (hfits _ _ rfl rfl hcast).1, fun s hs => ?_⟩
        obtain ⟨-, hroom, hrest⟩ := hfits _ _ rfl rfl (castArg_ok hs)
        rw [bind_assoc, put_of_lt hroom]
        exact (hcons _ List.length_append).2 hrest
    · have hnone : readType t i = fault .signature := by
        rw [readType, List.getElem?_eq_none (Nat.not_lt.1 hi)]
        rfl
      rw [wrapArgs, hnone]
      exact iff_of_false (not_faultless _) fun h => hi h.1

theorem casts_iff {target : HlType} (htarget : w.t.args[i]? = some target) : Casts r t args w i ↔
    ∃ v ti, args[i]? = some v ∧ t.args[i]? = some ti ∧ (castValue r v ti target).isOk := by
  constructor
  · rintro ⟨v, ti, target', hv, hti, htarget', hcast⟩
    cases htarget.symm.trans htarget'
    exact ⟨v, ti, hv, hti, hcast⟩
  · rintro ⟨v, ti, hv, hti, hcast⟩
    exact ⟨v, ti, target, hv, hti, htarget, hcast⟩

theorem CastsBelow.succ (h : CastsBelow r t args w i) (hi : Casts r t args w i) :
    CastsBelow r t args w (i + 1) := by
  intro j hj
  obtain hlt | rfl := Nat.lt_succ_iff_lt_or_eq.1 hj
  · exact h j hlt
  · exact hi

theorem fitsFrom_iff {P : Prop} {n : Nat} {targets : List HlType} (hdrop : w.t.args.drop i = targets)
    (hi : i ≤ w.t.args.length) (hn : n = w.value.toList.length + i) (hbelow : CastsBelow r t args w i) :
    FitsFrom r t args P targets i n ↔
      (∀ j, i ≤ j → j < w.t.args.length → CastsBelow r t args w j → j < t.args.length) ∧
      (∀ j, i ≤ j → j < w.t.args.length → CastsBelow r t args w (j + 1) → w.value.toList.length + j < hlMaxArgs + 1) ∧
      (∀ j target, i ≤ j → w.t.args[j]? = some target → InTmp target.kind → CastsBelow r t args w (j + 1) →
        j < hlMaxArgs) ∧
      (CastsBelow r t args w w.t.args.length → P) := by
  induction targets generalizing i n with
  | nil =>
    have hend : i = w.t.args.length := Nat.le_antisymm hi (List.drop_eq_nil_iff.1 hdrop)
    subst hend
    constructor
    · intro hP
      refine ⟨fun j hj hlt => absurd hlt (Nat.not_lt.2 hj), fun j hj hlt => absurd hlt (Nat.not_lt.2 hj), ?_,
        fun _ => hP⟩
      intro j target hj hget
      rw [List.getElem?_eq_none hj] at hget
      cases hget
    · exact fun h => h.2.2.2 hbelow
  | cons target targets ih =>
    have hlt : i < w.t.args.length := by
      by_contra hge
      rw [List.drop_eq_nil_of_le (Nat.not_lt.1 hge)] at hdrop
      cases hdrop
    have hcons := List.drop_eq_getElem_cons hlt
    rw [hdrop] at hcons
    obtain ⟨htarget, hrest⟩ := List.cons.inj hcons
    have hget : w.t.args[i]? = some target := by rw [List.getElem?_eq_getElem hlt, htarget]
    have hstep : FitsFrom r t args P (target :: targets) i n ↔ i < t.args.length ∧ (Casts r t args w i →
        (InTmp target.kind → i < hlMaxArgs) ∧ n < hlMaxArgs + 1 ∧ FitsFrom r t args P targets (i + 1) (n + 1)) := by
      rw [FitsFrom, casts_iff hget]
      exact and_congr_right fun _ =>
        ⟨fun h ⟨v, ti, hv, hti, hcast⟩ => h v ti hv hti hcast, fun h v ti hv hti hcast => h ⟨v, ti, hv, hti, hcast⟩⟩
    have hnext := fun hcasts => ih (n := n + 1) hrest.symm hlt (by rw [hn]; rfl) (hbelow.succ hcasts)
    rw [hstep]
    constructor
    · rintro ⟨hdeclared, hfits⟩
      refine ⟨fun j hj hjlt hj' => ?_, fun j hj hjlt hj' => ?_,
        fun j target' hj hget' hnumber hj' => ?_, fun hall => ?_⟩
      · obtain rfl | hij := Nat.eq_or_lt_of_le hj
        · exact hdeclared
        · exact ((hnext (hj' i hij)).1 (hfits (hj' i hij)).2.2).1 j hij hjlt hj'
      · have hcasts := hj' i (Nat.lt_succ_of_le hj)
        obtain rfl | hij := Nat.eq_or_lt_of_le hj
        · exact hn ▸ (hfits hcasts).2.1
        · exact ((hnext hcasts).1 (hfits hcasts).2.2).2.1 j hij hjlt hj'
      · have hcasts := hj' i (Nat.lt_succ_of_le hj)
        obtain rfl | hij := Nat.eq_or_lt_of_le hj
        · cases hget.symm.trans hget'
          exact (hfits hcasts).1 hnumber
        · exact ((hnext hcasts).1 (hfits hcasts).2.2).2.2.1 j target' hij hget' hnumber hj'
      · exact ((hnext (hall i hlt)).1 (hfits (hall i hlt)).2.2).2.2.2 hall
    · rintro ⟨hdeclared, hroom, hnumbers, hend⟩
      refine ⟨hdeclared i (Nat.le_refl i) hlt hbelow, fun hcasts => ?_⟩
      have hsucc := hbelow.succ hcasts
      refine ⟨fun hnumber => hnumbers i target (Nat.le_refl i) hget hnumber hsucc,
        hn ▸ hroom i (Nat.le_refl i) hlt hsucc, (hnext hcasts).2 ⟨?_, ?_, ?_, hend⟩⟩
      · exact fun j hj => hdeclared j (Nat.le_of_succ_le hj)
      · exact fun j hj => hroom j (Nat.le_of_succ_le hj)
      · exact fun j target' hj => hnumbers j target' (Nat.le_of_succ_le hj)

theorem fitsFrom_zero (P : Prop) : FitsFrom r t args P w.t.args 0 w.value.toList.length ↔
    (∀ i < w.t.args.length, CastsBelow r t args w i → i < t.args.length) ∧
    (∀ i < w.t.args.length, CastsBelow r t args w (i + 1) → w.value.toList.length + i < hlMaxArgs + 1) ∧
    (∀ i target, w.t.args[i]? = some target → InTmp target.kind → CastsBelow r t args w (i + 1) → i < hlMaxArgs) ∧
    (CastsBelow r t args w w.t.args.length → P) := by
  refine (fitsFrom_iff List.drop_zero (Nat.zero_le _) rfl nofun).trans ?_
  simp only [Nat.zero_le, true_imp_iff]

theorem makeArgs_ok (hargs : args.length = t.args.length) {ts : List HlType} {a : List Word}
    (hts : i + ts.length = t.args.length) : ∃ b, makeArgs r t args ts i a = .ok b := by
  induction ts generalizing i a with
  | nil => exact ⟨a, rfl⟩
  | cons ty ts ih =>
    rw [List.length_cons] at hts
    have hi : i < t.args.length := by omega
    have hread : readType t i = pure t.args[i] := by
      rw [readType, List.getElem?_eq_getElem hi]
      rfl
    rw [makeArgs, hread, readArg_of_lt (hargs ▸ hi), pure_bind, pure_bind]
    exact ih (by omega)

theorem castResult_faultless (tret wret : HlType) (pret : Word) : (castResult r tret wret pret).Faultless := by
  obtain ⟨kind, address⟩ := tret
  have hcastp : ∀ (x : Except String Word) (f : Word → Word), (liftCast x >>= fun p => pure (f p)).Faultless :=
    fun x f => faultless_bind.2 ⟨faultless_liftCast x, fun p _ => faultless_pure _⟩
  cases kind <;> first | exact faultless_pure _ | exact faultless_liftCast _ | exact hcastp _ _

theorem putValue_eq : putValue w = .ok (w.value.toList.map .pointer) := by
  rw [putValue]
  cases w.value <;> rfl

theorem callWrapped_faultless (hw : 0 ≤ w.t.nargs)
    (hvargs : vargs.length = w.value.toList.length + w.t.args.length) :
    (callWrapped r t w vargs).Faultless ↔ (w.value.isSome → w.t.parent.isSome) := by
  have hcall : ∀ ft : FunType, ft.args.length ≤ vargs.length →
      (staticCall r w.code ft vargs >>= castResult r t.ret w.t.ret).Faultless := fun ft hft =>
    faultless_bind.2 ⟨faultless_staticCall.2 hft, fun _ _ => castResult_faultless _ _ _⟩
  cases w with
  | function s code => exact iff_of_true (hcall _ (by rw [hvargs]; exact Nat.le_add_left _ _)) nofun
  | bound receiver s code value =>
    exact iff_of_true (hcall _ (by rw [hvargs]; exact Nat.le_of_eq (Nat.add_comm _ _))) fun _ => rfl
  | varArgs code callback => exact absurd hw (show ¬(0 : Int) ≤ -1 by decide)
  | wrapper s code self wrappedFun => exact iff_of_false (not_faultless _) fun h => by cases h rfl

theorem callback_faultless {code callback : Word} (hargs : args.length = t.args.length)
    (hcallback : (r.closure callback).t.nargs = 1) : (hlWrapperCall r t (.varArgs code callback) args).Faultless ↔
      ((r.closure callback).value.isSome → (r.closure callback).t.parent.isSome) := by
  have hone : (r.closure callback).t.args.length = 1 := by
    cases ht : (r.closure callback).t with
    | varArgs =>
      rw [ht] at hcallback
      exact absurd hcallback (by decide)
    | _ =>
      rw [ht] at hcallback
      exact Int.ofNat.inj hcallback
  have hvalue : (r.closure callback).value.toList.length ≤ 1 := by
    cases (r.closure callback).value with
    | none => exact Nat.zero_le 1
    | some value => exact Nat.le_refl 1
  obtain ⟨a, ha⟩ := makeArgs_ok (r := r) (a := []) hargs (Nat.zero_add t.args.length)
  have hlt : ((r.closure callback).value.toList.map Slot.pointer).length < hlMaxArgs + 1 := by
    rw [List.length_map]
    exact Nat.lt_of_le_of_lt hvalue (by decide)
  rw [hlWrapperCall]
  rw [ha, putValue_eq]
  refine Iff.trans (iff_of_eq (congrArg Run.Faultless (congrArg (· >>= callWrapped r t _) (put_of_lt hlt)))) ?_
  refine callWrapped_faultless (by rw [hcallback]; decide) ?_
  rw [List.length_append, List.length_map, hone]
  rfl

theorem hlWrapperCall_eq (hw : ∀ code q, w ≠ .varArgs code q) : hlWrapperCall r t w args =
    (wrapArgs r t args w.t.args 0 (w.value.toList.map .pointer) >>= callWrapped r t w) := by
  cases w with
  | varArgs code q => exact absurd rfl (hw code q)
  | _ => rfl

theorem hlWrapperCall_faultless (hargs : args.length = t.args.length)
    (hw : ∀ code q, w = .varArgs code q → (r.closure q).t.nargs = 1) :
    (hlWrapperCall r t w args).Faultless ↔ Fits r t args w := by
  by_cases hvar : ∃ code q, w = .varArgs code q
  · obtain ⟨code, q, rfl⟩ := hvar
    rw [callback_faultless hargs (hw code q rfl)]
    constructor
    · exact fun h => ⟨nofun, nofun, nofun, fun _ => h⟩
    · exact fun h => h.bare nofun
  · have hne : ∀ code q, w ≠ .varArgs code q := fun code q heq => hvar ⟨code, q, heq⟩
    have hcallee : callee r w = w := by
      cases w with
      | varArgs code q => exact absurd rfl (hne code q)
      | _ => rfl
    have hnargs : 0 ≤ w.t.nargs := by
      cases w with
      | varArgs code q => exact absurd rfl (hne code q)
      | _ => exact Int.natCast_nonneg _
    rw [hlWrapperCall_eq hne]
    refine (wrapArgs_faultless hargs fun xs hxs => callWrapped_faultless hnargs (hxs.trans ?_)).trans ?_
    · rw [List.length_map]
    · rw [List.length_map, fitsFrom_zero]
      constructor
      · exact fun h => ⟨h.1, h.2.1, h.2.2.1, by rw [hcallee]; exact h.2.2.2⟩
      · intro h
        have hbare := h.bare
        rw [hcallee] at hbare
        exact ⟨h.declared, h.room, h.numbers, hbare⟩

end

/-- The lookup that is found first in a class and those above it. -/
def findField (lookups : List (List FieldLookup)) (hfield : Int) : Option FieldLookup :=
  lookups.findSome? fun lookup => hlLookupFind lookup hfield

def FieldFits (r : Runtime) (ft : Signature) (args : List Slot) (p : Word) : Prop :=
  p ≠ 0 → Fits r ft args (r.closure p)

/-- A dynamic object has the field, and the closure in a field or the method that is found can be called with the
arguments. -/
def ObjectFits (r : Runtime) (ft : Signature) (hfield : Int) (args : List Slot) : Object → Prop
  | .dynobj d => ∃ l, hlLookupFind d.lookup hfield = some l ∧
      ∀ s, l.t = .function s → FieldFits r ft args (d.values (valueIndex l))
  | .obj o => ∀ l s, findField o.lookups hfield = some l → l.t = .function s →
      if l.fieldIndex < 0 then
        ∀ receiver ts, s.args = receiver :: ts →
          Fits r ft args (.bound receiver ⟨ts, s.ret⟩ (o.methods (-l.fieldIndex - 1).toNat) o.self)
      else FieldFits r ft args (o.fields l.fieldIndex)
  | .other => True

/-- `hl_call_method` and `hl_dyn_call` need nothing. -/
def Call.Fits (r : Runtime) : Call → Prop
  | callMethod .. => True
  | dynCall .. => True
  | wrapperCall t wrappedFun args _ => DynCall.Fits r t args (r.closure wrappedFun)
  | dynCallObj o ft hfield args _ => ObjectFits r ft hfield args o

section
variable {ft : Signature} {args : List Slot} {hfield : Int}

theorem closure_faultless (hargs : args.length = ft.args.length) (p : Word) :
    (hlWrapperCall r ft (r.closure p) args).Faultless ↔ Fits r ft args (r.closure p) :=
  hlWrapperCall_faultless hargs fun code q hq => r.callback p code q hq

theorem functionOf_bind {l : FieldLookup} {k : Signature → Run Word} :
    (functionOf r hfield l >>= k).Faultless ↔ ∀ s, l.t = .function s → (k s).Faultless := by
  rw [functionOf]
  cases l.t with
  | function s =>
    constructor
    · rintro h _ ⟨⟩
      exact h
    · exact fun h => h s rfl
  | other t => exact iff_of_true (faultless_raise _) nofun

theorem closureIn_faultless (hargs : args.length = ft.args.length) {message : String} (p : Word) :
    (if p ≠ 0 then hlWrapperCall r ft (r.closure p) args else raise message).Faultless ↔ FieldFits r ft args p := by
  rw [FieldFits]
  split
  · rename_i hne
    exact (closure_faultless hargs p).trans ⟨fun h _ => h, fun h => h hne⟩
  · exact iff_of_true (faultless_raise _) fun hne => absurd hne ‹_›

theorem callDynobj_faultless (hargs : args.length = ft.args.length) (d : DynObj) :
    (callDynobj r d ft hfield args).Faultless ↔ ObjectFits r ft hfield args (.dynobj d) := by
  rw [callDynobj, ObjectFits]
  cases hlLookupFind d.lookup hfield with
  | none => exact iff_of_false (not_faultless _) fun ⟨_, h, _⟩ => by cases h
  | some l =>
    refine (functionOf_bind).trans ⟨fun h => ⟨l, rfl, fun s hs => (closureIn_faultless hargs _).1 (h s hs)⟩, ?_⟩
    rintro ⟨_, ⟨⟩, h⟩ s hs
    exact (closureIn_faultless hargs _).2 (h s hs)

theorem callField_faultless (hargs : args.length = ft.args.length) (o : Obj) (l : FieldLookup) (s : Signature) :
    (callField r o ft hfield args l s).Faultless ↔ if l.fieldIndex < 0 then
      ∀ receiver ts, s.args = receiver :: ts →
        Fits r ft args (.bound receiver ⟨ts, s.ret⟩ (o.methods (-l.fieldIndex - 1).toNat) o.self)
      else FieldFits r ft args (o.fields l.fieldIndex) := by
  rw [callField]
  split
  · rw [hlGetClosureType]
    cases s.args with
    | nil => exact iff_of_true (faultless_raise _) nofun
    | cons receiver ts =>
      have hbound := hlWrapperCall_faultless (r := r) (t := ft)
        (w := .bound receiver ⟨ts, s.ret⟩ (o.methods (-l.fieldIndex - 1).toNat) o.self) hargs (by nofun)
      constructor
      · rintro h _ _ ⟨⟩
        exact hbound.1 h
      · exact fun h => hbound.2 (h receiver ts rfl)
  · exact closureIn_faultless hargs _

theorem callObj_faultless (hargs : args.length = ft.args.length) (o : Obj) (lookups : List (List FieldLookup)) :
    (callObj r o ft hfield args lookups).Faultless ↔ ObjectFits r ft hfield args (.obj { o with lookups }) := by
  induction lookups with
  | nil => exact iff_of_true (faultless_raise _) nofun
  | cons lookup parents ih =>
    rw [callObj]
    cases hfind : hlLookupFind lookup hfield with
    | none =>
      have hparents : findField (lookup :: parents) hfield = findField parents hfield := by
        rw [findField, List.findSome?_cons, hfind]
        rfl
      rw [ObjectFits] at ih ⊢
      rwa [hparents]
    | some l =>
      have hfirst : findField (lookup :: parents) hfield = some l := by
        rw [findField, List.findSome?_cons, hfind]
      refine (functionOf_bind).trans ⟨?_, ?_⟩
      · rintro h _ s heq hs
        cases hfirst.symm.trans heq
        exact (callField_faultless hargs o l s).1 (h s hs)
      · exact fun h s hs => (callField_faultless hargs o l s).2 (h l s hfirst hs)

/-- A dynamic call stays within its arrays exactly when the arguments fit them. -/
theorem calls_iff (r : Runtime) (c : Call) : c.Safe r ↔ c.Fits r := by
  cases c with
  | callMethod c args => exact iff_of_true (hlCallMethod_faultless _ _) trivial
  | dynCall c args => exact iff_of_true (hlDynCall_faultless _ _) trivial
  | wrapperCall t wrappedFun args hargs => exact closure_faultless hargs wrappedFun
  | dynCallObj o ft hfield args hargs =>
    cases o with
    | dynobj d => exact callDynobj_faultless hargs d
    | obj o => exact callObj_faultless hargs o o.lookups
    | other => exact iff_of_true (faultless_raise _) trivial

end

def zeros : Runtime where
  closure _ := .function ⟨[], ⟨.hVoid, 0⟩⟩ 1
  callback _ _ _ h := by cases h
  hltDyn := ⟨.hDyn, 0⟩
  hlDynCasti _ _ _ := .ok 0
  hlDynCasti64 _ _ := .ok 0
  hlDynCastf _ _ := .ok 0
  hlDynCastd _ _ := .ok 0
  hlDynCastp _ _ _ := .ok 0
  hlMakeDyn _ _ := 0
  hlAllocDynbool _ := 0
  hlAllocDynamic _ _ := 0
  hlAllocArray _ := 0
  copyStruct _ _ := 0
  staticCall _ _ _ := .ok 0
  callArray _ _ _ := .ok 0
  hlFieldName _ := ""
  hlTypeStr _ := ""

def missingMethod : Call :=
  .dynCallObj (.dynobj ⟨⟨.hDynObj, 0⟩, [], fun _ => 0⟩) ⟨[], ⟨.hVoid, 0⟩⟩ 1 [] rfl

theorem missingMethod_not_safe : ¬∀ r : Runtime, ∀ c : Call, c.Safe r := fun h => h zeros missingMethod .lookup rfl

end HashLink.DynCall
