import HashLink.Lib.Fuel
import HashLink.Patch.Apply
import Mathlib.Data.List.Forall2
import Mathlib.Order.FixedPoints

/-!
The comparison of types that guards a hot reload, `check_same_type` of `module.c`, with the casts of
`std/types.c` it starts with, and `hl_module_patch_slots`, which runs it for every function it
replaces. Types are compared where they lie, one memory for both modules: records are told apart by
their address, and the comparison writes to the types while it runs. Types can be cyclic, so the
functions take fuel and give `none` when it runs out.

What it means that the comparison accepts two types. The relation is the greatest one that lets a
type be cast or asks for the same kind and for related components. Of two virtuals it asks for the
number of fields: while their fields are compared, the second type points to the record of the first.
-/

namespace HashLink.HotReload

open Fuel

/-- The kinds of types that consist of nothing but their kind. -/
def isPlain : HlTypeKind → Bool
  | .hVoid | .hUi8 | .hUi16 | .hI32 | .hI64 | .hF32 | .hF64 | .hBool | .hType | .hBytes | .hDyn
  | .hArray | .hDynObj | .hGuid => true
  | _ => false

/-- The kinds with a `tparam`. -/
inductive ParamKind where
  | ref | null | packed
  deriving DecidableEq, Repr

/-- `hl_type`, with the addresses of the records it points to. -/
inductive TypeEntry where
  | plain (kind : { kind : HlTypeKind // isPlain kind })
  | fun_ (method : Bool) (args : List Nat) (ret : Nat)
  | obj (struct : Bool) (obj : Nat)
  | virt (virt : Nat)
  | absName (name : Nat)
  | tenum (tenum : Nat)
  | tparam (kind : ParamKind) (t : Nat)
  deriving DecidableEq

def TypeEntry.kind : TypeEntry → HlTypeKind
  | .plain kind => kind.1
  | .fun_ method _ _ => if method then .hMethod else .hFun
  | .obj struct _ => if struct then .hStruct else .hObj
  | .virt _ => .hVirtual
  | .absName _ => .hAbstract
  | .tenum _ => .hEnum
  | .tparam .ref _ => .hRef
  | .tparam .null _ => .hNull
  | .tparam .packed _ => .hPacked

/-- What the comparison reads of `hl_type_obj`: the address of the name, the type of the super class
and the types of the fields. -/
structure ObjEntry where
  name : Nat
  super : Option Nat
  fields : List Nat
  deriving DecidableEq, Repr

/-- The memory the types of all modules lie in. A field of a virtual is its hashed name and its type;
`tenums` has the addresses of the names. -/
structure TypeMem where
  types : Nat → TypeEntry
  objs : Nat → ObjEntry
  virts : Nat → List (Int × Nat)
  tenums : Nat → Nat
  text : Nat → List UInt16
  hlStringType : Option Nat

namespace TypeMem

variable (m : TypeMem)

def kind (t : Nat) : HlTypeKind := (m.types t).kind

/-- `t->virt = virt`. -/
def setVirt (t virt : Nat) : TypeMem := { m with types := Function.update m.types t (.virt virt) }

/-- Field `i` of `t->virt`. -/
def virtField (t i : Nat) : Option (Int × Nat) :=
  match m.types t with
  | .virt v => (m.virts v)[i]?
  | _ => none

end TypeMem

/-- `T_IS_DYNAMIC`. -/
def hlIsDynamic : HlTypeKind → Bool
  | .hDyn | .hFun | .hObj | .hArray | .hVirtual | .hDynObj | .hEnum | .hNull => true
  | _ => false

def stringName : List UInt16 := [83, 116, 114, 105, 110, 103]

def hlIsStringType (m : TypeMem) (t : Nat) : Bool :=
  m.hlStringType = some t ||
    match m.types t with
    | .obj false o =>
      (m.objs o).super.isNone && (m.objs o).fields.map m.kind == [.hBytes, .hI32] &&
        m.text (m.objs o).name == stringName
    | _ => false

def allPairs {α : Type} (check : α → α → Option Bool) : List α → List α → Option Bool
  | a :: as, b :: bs =>
    match check a b with
    | some true => allPairs check as bs
    | r => r
  | _, _ => some true

def hlSameType : Nat → TypeMem → Nat → Nat → Option Bool
  | 0, _, _, _ => none
  | fuel + 1, m, a, b =>
    if a = b then some true else
    match m.types a, m.types b with
    | .plain kind, .plain kind' => some (kind = kind')
    | .tparam kind t, .tparam kind' t' =>
      if kind = kind' then hlSameType fuel m t t' else some false
    | .fun_ method args ret, .fun_ method' args' ret' =>
      if method = method' ∧ args.length = args'.length then
        match allPairs (hlSameType fuel m) args args' with
        | some true => hlSameType fuel m ret ret'
        | r => r
      else some false
    | .obj struct o, .obj struct' o' => some (struct = struct' ∧ o = o')
    | .virt v, .virt v' => some (v = v')
    | .absName name, .absName name' => some (name = name')
    | .tenum e, .tenum e' => some (e = e')
    | _, _ => some false

/-- The loop of `hl_safe_cast` over the super classes. -/
def derives : Nat → TypeMem → Nat → Nat → Option Bool
  | 0, _, _, _ => none
  | fuel + 1, m, o, oto =>
    if o = oto ∨ (m.objs o).name = (m.objs oto).name then some true else
    match (m.objs o).super with
    | none => some false
    | some t =>
      match m.types t with
      | .obj _ o => derives fuel m o oto
      | _ => none

def hlSafeCast : Nat → TypeMem → Nat → Nat → Option Bool
  | 0, _, _, _ => none
  | fuel + 1, m, t, tto =>
    if t = tto then some true
    else if m.kind tto = .hDyn then some (hlIsDynamic (m.kind t))
    else if m.kind t ≠ m.kind tto then some false
    else match m.types t, m.types tto with
    | .virt v, .virt v' =>
      if (m.virts v').length < (m.virts v).length then
        match allPairs (fun f1 f2 => if f1.1 ≠ f2.1 then some false else hlSameType fuel m f1.2 f2.2)
            (m.virts v) (m.virts v') with
        | some false => hlSameType fuel m t tto
        | r => r
      else hlSameType fuel m t tto
    | .obj _ o, .obj _ oto =>
      if hlIsStringType m t ∧ hlIsStringType m tto then some true else derives fuel m o oto
    | .fun_ _ args ret, .fun_ _ args' ret' =>
      if args.length = args'.length then
        match hlSafeCast fuel m ret ret' with
        | some true =>
          allPairs (fun t1 t2 =>
            match hlSafeCast fuel m t2 t1 with
            | some false => some (m.kind t1 = .hDyn ∧ hlIsDynamic (m.kind t2))
            | r => r) args args'
        | r => r
      else hlSameType fuel m t tto
    | .tparam .packed t, .tparam .packed _ => hlSafeCast fuel m t tto
    | _, _ => hlSameType fuel m t tto

/-- The loop over the arguments. The memory goes from one comparison to the next. -/
def checkArgs (check : TypeMem → Nat → Nat → Option (Bool × TypeMem)) :
    TypeMem → List Nat → List Nat → Option (Bool × TypeMem)
  | m, a :: as, b :: bs =>
    match check m a b with
    | some (true, m) => checkArgs check m as bs
    | r => r
  | m, _, _ => some (true, m)

/-- The loop over the fields of two virtuals, from field `i` on. The fields are read through the
types, as the comparison has left them. -/
def checkFields (check : TypeMem → Nat → Nat → Option (Bool × TypeMem)) (t1 t2 : Nat) :
    TypeMem → Nat → Nat → Option (Bool × TypeMem)
  | m, _, 0 => some (true, m)
  | m, i, left + 1 =>
    match m.virtField t1 i, m.virtField t2 i with
    | some f1, some f2 =>
      if f1.1 ≠ f2.1 then some (false, m) else
      match check m f1.2 f2.2 with
      | some (true, m) => checkFields check t1 t2 m (i + 1) left
      | r => r
    | _, _ => none

/-- `check_same_type`: the answer and the memory after the comparison. -/
def checkSameType : Nat → TypeMem → Nat → Nat → Option (Bool × TypeMem)
  | 0, _, _, _ => none
  | fuel + 1, m, t1, t2 =>
    match hlSafeCast fuel m t1 t2 with
    | none => none
    | some true => some (true, m)
    | some false =>
      if m.kind t1 ≠ m.kind t2 then some (false, m) else
      match m.types t1, m.types t2 with
      | .obj _ o1, .obj _ o2 => some (m.text (m.objs o1).name = m.text (m.objs o2).name, m)
      | .fun_ _ args1 ret1, .fun_ _ args2 ret2 =>
        if args1.length ≠ args2.length then some (false, m) else
        match checkArgs (checkSameType fuel) m args1 args2 with
        | some (true, m) => checkSameType fuel m ret1 ret2
        | r => r
      | .virt v1, .virt v2 =>
        if v1 = v2 then some (true, m)
        else if (m.virts v1).length ≠ (m.virts v2).length then some (false, m)
        else
          match checkFields (checkSameType fuel) t1 t2 (m.setVirt t2 v1) 0 (m.virts v1).length with
          | some (same, m) => some (same, m.setVirt t2 v2)
          | none => none
      | .absName n1, .absName n2 => some (m.text n1 = m.text n2, m)
      | .tenum e1, .tenum e2 => some (m.text (m.tenums e1) = m.text (m.tenums e2), m)
      | .tparam .packed t1, .tparam .packed t2 => checkSameType fuel m t1 t2
      | _, _ => some (false, m)

/-- `module_find_function`, among the functions the module was loaded with. -/
def moduleFindFunction (m : HlModule) (findex : Int) : Option HlFunction :=
  (m.functions.take (m.functions.length - m.npatchfunctions)).find? fun f => f.findex = findex

/-- `generation->functions_ptrs[index]`. -/
def functionPtr (m : HlModule) (index : Int) : Option Nat := m.functionsPtrs.getD index.toNat none

/-- The first pass of `hl_module_patch_slots`. The types of a module start at its base. -/
def checkSlots (fuel : Nat) (target generation : HlModule) (base base' : Nat) :
    TypeMem → List Int → Option (Bool × TypeMem)
  | m, [] => some (true, m)
  | m, index :: indices =>
    match moduleFindFunction target index, moduleFindFunction generation index,
        functionPtr generation index with
    | some oldf, some newf, some _ =>
      match checkSameType fuel m (base + oldf.type) (base' + newf.type) with
      | some (true, m) => checkSlots fuel target generation base base' m indices
      | r => r
    | _, _, _ => some (false, m)

/-- `hl_module_patch_slots`: the answer, the target and the memory of the types. -/
def hlModulePatchSlots (fuel : Nat) (m : TypeMem) (target generation : HlModule) (base base' : Nat)
    (indices : List Int) : Option (Bool × HlModule × TypeMem) :=
  if ¬ target.patchable ∨ indices = [] then some (false, target, m) else
  match checkSlots fuel target generation base base' m indices with
  | none => none
  | some (false, m) => some (false, target, m)
  | some (true, m) =>
    let redirect (target : HlModule) (index : Int) :=
      redirectSlot target index.toNat ((functionPtr generation index).getD 0)
    some (true, indices.foldl redirect target, m)

variable {m m' : TypeMem} {fuel : Nat}

/-! The questions that a comparison asks. -/

/-- What is asked of `hl_same_type`, of the loop over super classes, of `hl_safe_cast` and of `check_same_type`. -/
inductive Question where
  | same (a b : Nat)
  | derives (o oto : Nat)
  | cast (a b : Nat)
  | check (a b : Nat)

abbrev Comparison := Asking Question Bool

def both (first second : Comparison) : Comparison := first.andThen fun ok => if ok then second else .done false

def either (first second : Comparison) : Comparison := first.andThen fun ok => if ok then .done true else second

def askPairs {α : Type} (check : α → α → Comparison) : List α → List α → Comparison
  | a :: as, b :: bs => both (check a b) (askPairs check as bs)
  | _, _ => .done true

/-- A comparison of two types, with the questions in the order of the code. While two virtuals are compared both point
to the record of the first, so that its fields are compared with themselves. -/
def TypeMem.compare (m : TypeMem) : Question → Comparison
  | .same a b =>
    if a = b then .done true else
    match m.types a, m.types b with
    | .plain kind, .plain kind' => .done (kind = kind')
    | .tparam kind t, .tparam kind' t' => if kind = kind' then .call (.same t t') else .done false
    | .fun_ method args ret, .fun_ method' args' ret' =>
      if method = method' ∧ args.length = args'.length then
        both (askPairs (fun t t' => .call (.same t t')) args args') (.call (.same ret ret'))
      else .done false
    | .obj struct o, .obj struct' o' => .done (struct = struct' ∧ o = o')
    | .virt v, .virt v' => .done (v = v')
    | .absName name, .absName name' => .done (name = name')
    | .tenum e, .tenum e' => .done (e = e')
    | _, _ => .done false
  | .derives o oto =>
    if o = oto ∨ (m.objs o).name = (m.objs oto).name then .done true else
    match (m.objs o).super with
    | none => .done false
    | some t =>
      match m.types t with
      | .obj _ o => .call (.derives o oto)
      -- what is read is no class, and there is no answer
      | _ => .call (.derives o oto)
  | .cast t tto =>
    if t = tto then .done true
    else if m.kind tto = .hDyn then .done (hlIsDynamic (m.kind t))
    else if m.kind t ≠ m.kind tto then .done false
    else match m.types t, m.types tto with
    | .virt v, .virt v' =>
      if (m.virts v').length < (m.virts v).length then
        either (askPairs (fun f f' => if f.1 ≠ f'.1 then .done false else .call (.same f.2 f'.2))
          (m.virts v) (m.virts v')) (.call (.same t tto))
      else .call (.same t tto)
    | .obj _ o, .obj _ oto =>
      if hlIsStringType m t ∧ hlIsStringType m tto then .done true else .call (.derives o oto)
    | .fun_ _ args ret, .fun_ _ args' ret' =>
      if args.length = args'.length then
        both (.call (.cast ret ret')) (askPairs (fun t1 t2 =>
          either (.call (.cast t2 t1)) (.done (m.kind t1 = .hDyn ∧ hlIsDynamic (m.kind t2)))) args args')
      else .call (.same t tto)
    | .tparam .packed t, .tparam .packed _ => .call (.cast t tto)
    | _, _ => .call (.same t tto)
  | .check t1 t2 =>
    either (.call (.cast t1 t2)) <|
      if m.kind t1 ≠ m.kind t2 then .done false else
      match m.types t1, m.types t2 with
      | .obj _ o1, .obj _ o2 => .done (m.text (m.objs o1).name = m.text (m.objs o2).name)
      | .fun_ _ args1 ret1, .fun_ _ args2 ret2 =>
        if args1.length ≠ args2.length then .done false else
        both (askPairs (fun t1 t2 => .call (.check t1 t2)) args1 args2) (.call (.check ret1 ret2))
      | .virt v1, .virt v2 =>
        if v1 = v2 then .done true
        else if (m.virts v1).length ≠ (m.virts v2).length then .done false
        else askPairs (fun f _ => .call (.check f.2 f.2)) (m.virts v1) (m.virts v1)
      | .absName n1, .absName n2 => .done (m.text n1 = m.text n2)
      | .tenum e1, .tenum e2 => .done (m.text (m.tenums e1) = m.text (m.tenums e2))
      | .tparam .packed t1, .tparam .packed t2 => .call (.check t1 t2)
      | _, _ => .done false

@[simp] theorem eval_both (answer : Question → Option Bool) (t u : Comparison) : (both t u).eval answer =
    (t.eval answer).bind fun ok => if ok then u.eval answer else some false := by
  rw [both, Asking.eval_andThen]
  refine congrArg _ (funext fun ok => ?_)
  cases ok <;> rfl

@[simp] theorem eval_either (answer : Question → Option Bool) (t u : Comparison) : (either t u).eval answer =
    (t.eval answer).bind fun ok => if ok then some true else u.eval answer := by
  rw [either, Asking.eval_andThen]
  refine congrArg _ (funext fun ok => ?_)
  cases ok <;> rfl

theorem askPairs_eval {α : Type} (check : α → α → Comparison) (answer : Question → Option Bool) (as bs : List α) :
    (askPairs check as bs).eval answer = allPairs (fun a b => (check a b).eval answer) as bs := by
  induction as generalizing bs with
  | nil => rfl
  | cons a as ih =>
    cases bs with
    | nil => rfl
    | cons b bs =>
      rw [askPairs, allPairs, eval_both]
      rcases (check a b).eval answer with _ | _ | _
      · rfl
      · rfl
      · exact ih bs

theorem hlSameType_run (fuel a b : Nat) : hlSameType fuel m a b = run m.compare fuel (.same a b) := by
  induction fuel generalizing a b with
  | zero => rfl
  | succ fuel ih =>
    have hfun : hlSameType fuel m = fun a b => run m.compare fuel (.same a b) := funext₂ ih
    rw [hlSameType, run, TypeMem.compare, hfun]
    by_cases hab : a = b
    · rw [if_pos hab, if_pos hab, Asking.eval_done]
    rw [if_neg hab, if_neg hab]
    cases m.types a <;> cases m.types b <;> try rfl
    case fun_.fun_ =>
      dsimp only
      split
      · rw [eval_both, askPairs_eval]
        simp only [Asking.eval_call]
        rcases allPairs _ _ _ with _ | _ | _
        · rfl
        · rfl
        · simp
      · rfl
    case tparam.tparam =>
      dsimp only
      split
      · exact (Asking.eval_call _ _).symm
      · rfl

theorem derives_lost {o oto t : Nat} (hsame : ¬(o = oto ∨ (m.objs o).name = (m.objs oto).name))
    (hsuper : (m.objs o).super = some t) (ht : ∀ struct o', m.types t ≠ .obj struct o') (fuel : Nat) :
    derives fuel m o oto = none := by
  cases fuel with
  | zero => rfl
  | succ fuel =>
    rw [derives, if_neg hsame, hsuper]
    dsimp only
    split
    · next hobj => exact absurd hobj (ht _ _)
    · rfl

theorem derives_run (fuel o oto : Nat) : derives fuel m o oto = run m.compare fuel (.derives o oto) := by
  induction fuel generalizing o with
  | zero => rfl
  | succ fuel ih =>
    rw [run, TypeMem.compare]
    by_cases hsame : o = oto ∨ (m.objs o).name = (m.objs oto).name
    · rw [derives, if_pos hsame, if_pos hsame, Asking.eval_done]
    rw [if_neg hsame]
    cases hsuper : (m.objs o).super with
    | none => rw [derives, if_neg hsame, hsuper, Asking.eval_done]
    | some t =>
      dsimp only
      split
      · next hobj =>
        simp only [derives, if_neg hsame, hsuper, hobj, Asking.eval_call]
        exact ih _
      · next hlost =>
        rw [Asking.eval_call, ← ih, derives_lost hsame hsuper hlost, derives_lost hsame hsuper hlost]

theorem hlSafeCast_run (fuel a b : Nat) :
    hlSafeCast fuel m a b = run m.compare fuel (.cast a b) := by
  induction fuel generalizing a b with
  | zero => rfl
  | succ fuel ih =>
    have hcast : hlSafeCast fuel m = fun a b => run m.compare fuel (.cast a b) := funext₂ ih
    have hsame : hlSameType fuel m = fun a b => run m.compare fuel (.same a b) := funext₂ (hlSameType_run fuel)
    have hderives : derives fuel m = fun a b => run m.compare fuel (.derives a b) := funext₂ (derives_run fuel)
    rw [hlSafeCast, run, TypeMem.compare, hcast, hsame, hderives]
    by_cases hab : a = b
    · rw [if_pos hab, if_pos hab, Asking.eval_done]
    by_cases hdyn : m.kind b = .hDyn
    · rw [if_neg hab, if_neg hab, if_pos hdyn, if_pos hdyn, Asking.eval_done]
    by_cases hkind : m.kind a ≠ m.kind b
    · rw [if_neg hab, if_neg hab, if_neg hdyn, if_neg hdyn, if_pos hkind, if_pos hkind, Asking.eval_done]
    rw [if_neg hab, if_neg hab, if_neg hdyn, if_neg hdyn, if_neg hkind, if_neg hkind]
    cases m.types a <;> cases m.types b <;> try exact (Asking.eval_call _ _).symm
    case virt.virt v v' =>
      dsimp only
      split
      · rw [eval_either, askPairs_eval]
        have hfields : ∀ f f' : Int × Nat,
            (if f.1 ≠ f'.1 then .done false else .call (.same f.2 f'.2) : Comparison).eval (run m.compare fuel) =
              if f.1 ≠ f'.1 then some false else run m.compare fuel (.same f.2 f'.2) := by
          intro f f'
          split
          · rfl
          · exact Asking.eval_call _ _
        simp only [hfields]
        rcases allPairs _ _ _ with _ | _ | _
        · rfl
        · simp
        · rfl
      · exact (Asking.eval_call _ _).symm
    case obj.obj =>
      dsimp only
      split
      · rfl
      · exact (Asking.eval_call _ _).symm
    case fun_.fun_ args ret _ args' ret' =>
      dsimp only
      split
      · rw [eval_both, Asking.eval_call]
        rcases run m.compare fuel (.cast ret ret') with _ | _ | _
        · rfl
        · rfl
        · refine Eq.trans ?_ (askPairs_eval _ _ _ _).symm
          refine congrArg (fun check => allPairs check args args') (funext₂ fun t1 t2 => ?_)
          rw [eval_either, Asking.eval_call]
          rcases run m.compare fuel (.cast t2 t1) with _ | _ | _ <;> rfl
      · exact (Asking.eval_call _ _).symm
    case tparam.tparam kind _ kind' _ =>
      cases kind <;> cases kind' <;> exact (Asking.eval_call _ _).symm
    all_goals
      rename ParamKind => kind
      cases kind <;> exact (Asking.eval_call _ _).symm

theorem setVirt_setVirt (t v v' : Nat) (hv : m.types t = .virt v') :
    (m.setVirt t v).setVirt t v' = m := by
  unfold TypeMem.setVirt
  rw [Function.update_idem, ← hv, Function.update_eq_self]

theorem checkArgs_eq {check : TypeMem → Nat → Nat → Option (Bool × TypeMem)} {answer : Nat → Nat → Option Bool}
    (hcheck : ∀ a b, check m a b = (answer a b).map (·, m)) (as bs : List Nat) :
    checkArgs check m as bs = (allPairs answer as bs).map (·, m) := by
  induction as generalizing bs with
  | nil => rfl
  | cons a as ih =>
    cases bs with
    | nil => rfl
    | cons b bs =>
      rw [checkArgs, allPairs, hcheck]
      rcases answer a b with _ | _ | _
      · rfl
      · rfl
      · exact ih bs

theorem checkFields_eq {check : TypeMem → Nat → Nat → Option (Bool × TypeMem)} {answer : Nat → Option Bool}
    (hcheck : ∀ t, check m t t = (answer t).map (·, m)) {t1 t2 v : Nat} (h1 : m.types t1 = .virt v)
    (h2 : m.types t2 = .virt v) {i left : Nat} (hlen : i + left = (m.virts v).length) :
    checkFields check t1 t2 m i left =
      (allPairs (fun f _ => answer f.2) ((m.virts v).drop i) ((m.virts v).drop i)).map (·, m) := by
  induction left generalizing i with
  | zero =>
    rw [List.drop_eq_nil_of_le (by omega)]
    rfl
  | succ left ih =>
    have hlt : i < (m.virts v).length := by omega
    rw [checkFields, List.drop_eq_getElem_cons hlt, allPairs]
    simp only [TypeMem.virtField, h1, h2, List.getElem?_eq_getElem hlt, ne_eq, not_true_eq_false, if_false, hcheck]
    rcases answer ((m.virts v)[i]).2 with _ | _ | _
    · rfl
    · rfl
    · exact ih (by omega)

theorem checkSameType_self (fuel t : Nat) (m m' : TypeMem) :
    checkSameType fuel m t t = (run m'.compare fuel (.check t t)).map (·, m) := by
  rcases fuel with _ | _ | fuel
  · rfl
  · rfl
  · have hcast : run m'.compare (fuel + 1) (.cast t t) = some true := by
      rw [run, TypeMem.compare, if_pos rfl, Asking.eval_done]
    rw [checkSameType, hlSafeCast, if_pos rfl, run, TypeMem.compare, eval_either, Asking.eval_call, hcast]
    rfl

/-- The comparison leaves the memory as it was. -/
theorem checkSameType_run (fuel a b : Nat) (m : TypeMem) :
    checkSameType fuel m a b = (run m.compare fuel (.check a b)).map (·, m) := by
  induction fuel generalizing a b m with
  | zero => rfl
  | succ fuel ih =>
    rw [checkSameType, hlSafeCast_run, run, TypeMem.compare, eval_either, Asking.eval_call]
    rcases hcast : run m.compare fuel (.cast a b) with _ | _ | _
    · rfl
    case some.true => rfl
    dsimp only
    rw [Option.bind_some, if_neg Bool.false_ne_true]
    by_cases hkind : m.kind a ≠ m.kind b
    · rw [if_pos hkind, if_pos hkind]
      rfl
    rw [if_neg hkind, if_neg hkind]
    cases ha : m.types a <;> cases hb : m.types b
    case fun_.fun_ args ret _ args' ret' =>
      dsimp only
      split
      · rfl
      · rw [eval_both, askPairs_eval, checkArgs_eq (ih · · m)]
        simp only [Asking.eval_call]
        rcases allPairs _ args args' with _ | _ | _
        · rfl
        · rfl
        · exact ih ret ret' m
    case virt.virt v v' =>
      dsimp only
      split
      · rfl
      split
      · rfl
      have hne : a ≠ b := by
        rintro rfl
        cases fuel with
        | zero => cases hcast
        | succ fuel =>
          rw [run, TypeMem.compare, if_pos rfl] at hcast
          cases hcast
      have ha' : (m.setVirt b v).types a = .virt v := (Function.update_of_ne hne _ _).trans ha
      have hb' : (m.setVirt b v).types b = .virt v := Function.update_self ..
      have hfields : checkFields (checkSameType fuel) a b (m.setVirt b v) 0 (m.virts v).length =
          (allPairs (fun f _ => run m.compare fuel (.check f.2 f.2)) (m.virts v) (m.virts v)).map
            (·, m.setVirt b v) :=
        checkFields_eq (fun t => checkSameType_self fuel t _ m) ha' hb' (Nat.zero_add _)
      rw [askPairs_eval, hfields]
      simp only [Asking.eval_call]
      rcases allPairs _ (m.virts v) (m.virts v) with _ | ok
      · rfl
      · exact congrArg (fun m => some (ok, m)) (setVirt_setVirt _ _ _ hb)
    case tparam.tparam kind t kind' t' =>
      cases kind <;> cases kind' <;> first | rfl | exact (ih t t' m).trans (congrArg _ (Asking.eval_call _ _).symm)
    all_goals first
      | rfl
      | rename ParamKind => kind
        cases kind <;> rfl

/-- The comparisons that the first pass of `hl_module_patch_slots` makes. -/
def compareSlots (target generation : HlModule) (base base' : Nat) : List Int → Comparison
  | [] => .done true
  | index :: indices =>
    match moduleFindFunction target index, moduleFindFunction generation index,
        functionPtr generation index with
    | some oldf, some newf, some _ =>
      both (.call (.check (base + oldf.type) (base' + newf.type))) (compareSlots target generation base base' indices)
    | _, _, _ => .done false

theorem checkSlots_run (fuel : Nat) (target generation : HlModule) (base base' : Nat) (m : TypeMem)
    (indices : List Int) : checkSlots fuel target generation base base' m indices =
      ((compareSlots target generation base base' indices).eval (run m.compare fuel)).map (·, m) := by
  induction indices with
  | nil => rfl
  | cons index indices ih =>
    rw [checkSlots, compareSlots]
    split
    · rw [eval_both, Asking.eval_call, checkSameType_run]
      rcases run m.compare fuel _ with _ | _ | _
      · rfl
      · rfl
      · exact ih
    · rfl

/-! The relations. -/

/-- What `hl_same_type` accepts. -/
inductive SameType (m : TypeMem) : Nat → Nat → Prop where
  | refl (a : Nat) : SameType m a a
  | shared {a b : Nat} : m.types a = m.types b → SameType m a b
  | tparam {a b t t' : Nat} {kind : ParamKind} : m.types a = .tparam kind t →
      m.types b = .tparam kind t' → SameType m t t' → SameType m a b
  | fun_ {a b ret ret' : Nat} {method : Bool} {args args' : List Nat} :
      m.types a = .fun_ method args ret → m.types b = .fun_ method args' ret' →
      List.Forall₂ (SameType m) args args' → SameType m ret ret' → SameType m a b

/-- A class is another, or has its name, or one of its super classes is such. -/
inductive Derives (m : TypeMem) : Nat → Nat → Prop where
  | refl (o : Nat) : Derives m o o
  | name {o oto : Nat} : (m.objs o).name = (m.objs oto).name → Derives m o oto
  | super {o o' oto t : Nat} {struct : Bool} : (m.objs o).super = some t →
      m.types t = .obj struct o' → Derives m o' oto → Derives m o oto

/-- What `hl_safe_cast` accepts. The arguments of a function are cast the other way. -/
inductive SafeCast (m : TypeMem) : Nat → Nat → Prop where
  | same {a b : Nat} : SameType m a b → SafeCast m a b
  | dyn {a b : Nat} : m.kind b = .hDyn → hlIsDynamic (m.kind a) → SafeCast m a b
  | virt {a b v v' : Nat} : m.types a = .virt v → m.types b = .virt v' →
      List.Forall₂ (fun f f' => f.1 = f'.1 ∧ SameType m f.2 f'.2)
        ((m.virts v).take (m.virts v').length) (m.virts v') → SafeCast m a b
  | string {a b : Nat} : hlIsStringType m a → hlIsStringType m b → SafeCast m a b
  | obj {a b o o' : Nat} {struct struct' : Bool} : m.types a = .obj struct o →
      m.types b = .obj struct' o' → m.kind a = m.kind b → Derives m o o' → SafeCast m a b
  | fun_ {a b ret ret' : Nat} {method method' : Bool} {args args' : List Nat} :
      m.types a = .fun_ method args ret → m.types b = .fun_ method' args' ret' →
      m.kind a = m.kind b → SafeCast m ret ret' → List.Forall₂ (SafeCast m) args' args →
      SafeCast m a b
  | packed {a b t t' : Nat} : m.types a = .tparam .packed t → m.types b = .tparam .packed t' →
      SafeCast m t b → SafeCast m a b

def SameShape (m : TypeMem) (virts : Nat → Nat → Prop) (R : Nat → Nat → Prop) (a b : Nat) : Prop :=
  match m.types a, m.types b with
  | .plain kind, .plain kind' => kind = kind'
  | .fun_ method args ret, .fun_ method' args' ret' =>
    method = method' ∧ List.Forall₂ R args args' ∧ R ret ret'
  | .obj struct o, .obj struct' o' =>
    struct = struct' ∧ m.text (m.objs o).name = m.text (m.objs o').name
  | .virt v, .virt v' => virts v v'
  | .absName name, .absName name' => m.text name = m.text name'
  | .tenum e, .tenum e' => m.text (m.tenums e) = m.text (m.tenums e')
  | .tparam kind t, .tparam kind' t' => kind = kind' ∧ R t t'
  | _, _ => False

theorem SameShape.mono {virts virts' R R' : Nat → Nat → Prop} (hvirts : ∀ v v', virts v v' → virts' v v')
    (hR : ∀ a b, R a b → R' a b) {a b : Nat} (h : SameShape m virts R a b) :
    SameShape m virts' R' a b := by
  unfold SameShape at h ⊢
  split at h
  case h_2 => exact ⟨h.1, h.2.1.imp hR, hR _ _ h.2.2⟩
  case h_4 => exact hvirts _ _ h
  case h_7 => exact ⟨h.1, hR _ _ h.2⟩
  all_goals exact h

def SameFields (m : TypeMem) (R : Nat → Nat → Prop) (v v' : Nat) : Prop :=
  List.Forall₂ (fun f f' => f.1 = f'.1 ∧ R f.2 f'.2) (m.virts v) (m.virts v')

def sameStructure (m : TypeMem) : (Nat → Nat → Prop) →o (Nat → Nat → Prop) where
  toFun R := SameShape m (SameFields m R) R
  monotone' R R' hle a b h := by
    refine SameShape.mono (fun v v' hfields => ?_) hle h
    exact hfields.imp fun f f' hf => ⟨hf.1, hle _ _ hf.2⟩

def SameStructure (m : TypeMem) : Nat → Nat → Prop := (sameStructure m).gfp

def compatible (m : TypeMem) : (Nat → Nat → Prop) →o (Nat → Nat → Prop) where
  toFun R a b := SafeCast m a b ∨ SameShape m (fun v v' => (m.virts v).length = (m.virts v').length) R a b
  monotone' _ _ hle _ _ h := h.imp id (SameShape.mono (fun _ _ => id) hle)

def Compatible (m : TypeMem) : Nat → Nat → Prop := (compatible m).gfp

theorem Compatible.of_cast {a b : Nat} (h : SafeCast m a b) : Compatible m a b := by
  rw [Compatible, ← OrderHom.map_gfp]
  exact Or.inl h

theorem Compatible.of_shape {a b : Nat}
    (h : SameShape m (fun v v' => (m.virts v).length = (m.virts v').length) (Compatible m) a b) :
    Compatible m a b := by
  rw [Compatible, ← OrderHom.map_gfp]
  exact Or.inr h

/-! The casts. -/

theorem allPairs_forall₂ {α : Type} {check : α → α → Option Bool} {as bs : List α}
    (hlen : bs.length ≤ as.length) (h : allPairs check as bs = some true) :
    List.Forall₂ (fun a b => check a b = some true) (as.take bs.length) bs := by
  induction as generalizing bs with
  | nil =>
    obtain rfl := List.length_eq_zero_iff.1 (Nat.le_zero.1 hlen)
    exact .nil
  | cons a as ih =>
    cases bs with
    | nil => exact .nil
    | cons b bs =>
      rw [allPairs] at h
      cases hcheck : check a b with
      | none => simp [hcheck] at h
      | some ok =>
        cases ok with
        | false => simp [hcheck] at h
        | true =>
          rw [hcheck] at h
          exact .cons hcheck (ih (Nat.le_of_succ_le_succ hlen) h)

theorem allPairs_same_length {α : Type} {check : α → α → Option Bool} {as bs : List α}
    (hlen : as.length = bs.length) (h : allPairs check as bs = some true) :
    List.Forall₂ (fun a b => check a b = some true) as bs := by
  have hall := allPairs_forall₂ (Nat.le_of_eq hlen.symm) h
  rwa [← hlen, List.take_length] at hall

theorem sameType_of_hlSameType {a b : Nat} (h : hlSameType fuel m a b = some true) :
    SameType m a b := by
  induction fuel generalizing a b with
  | zero => cases h
  | succ fuel ih =>
    rw [hlSameType] at h
    split at h
    · next heq => exact heq ▸ SameType.refl a
    split at h
    case h_1 ha hb => exact .shared (by simp_all)
    case h_2 ha hb =>
      split at h
      · next hkind =>
        subst hkind
        exact .tparam ha hb (ih h)
      · cases h
    case h_3 ha hb =>
      split at h
      · next hsame =>
        obtain ⟨rfl, hlen⟩ := hsame
        split at h
        · next hargs => exact .fun_ ha hb ((allPairs_same_length hlen hargs).imp fun _ _ => ih) (ih h)
        · simp_all
      · cases h
    case h_8 => cases h
    all_goals exact .shared (by simp_all)

theorem derives_of_derives {o oto : Nat} (h : derives fuel m o oto = some true) : Derives m o oto := by
  induction fuel generalizing o with
  | zero => cases h
  | succ fuel ih =>
    rw [derives] at h
    split at h
    · next heq =>
      rcases heq with rfl | heq
      · exact .refl o
      · exact .name heq
    · split at h
      · cases h
      · next hsuper =>
        split at h
        · next hobj => exact .super hsuper hobj (ih h)
        · cases h

theorem safeCast_of_hlSafeCast {a b : Nat} (h : hlSafeCast fuel m a b = some true) :
    SafeCast m a b := by
  induction fuel generalizing a b with
  | zero => cases h
  | succ fuel ih =>
    rw [hlSafeCast] at h
    split at h
    · next heq => exact heq ▸ SafeCast.same (.refl a)
    split at h
    · next hdyn => exact .dyn hdyn (Option.some.inj h)
    split at h
    · cases h
    next hkind =>
    have hkind := Decidable.not_not.1 hkind
    split at h
    case h_1 ha hb =>
      split at h
      · next hlen =>
        split at h
        · exact .same (sameType_of_hlSameType h)
        · refine .virt ha hb ((allPairs_forall₂ (Nat.le_of_lt hlen) h).imp fun f f' hf => ?_)
          split at hf
          · cases hf
          · next hname => exact ⟨Decidable.not_not.1 hname, sameType_of_hlSameType hf⟩
      · exact .same (sameType_of_hlSameType h)
    case h_2 ha hb =>
      split at h
      · next hstring => exact .string hstring.1 hstring.2
      · exact .obj ha hb hkind (derives_of_derives h)
    case h_3 ha hb =>
      split at h
      · next hlen =>
        split at h
        · next hret =>
          refine .fun_ ha hb hkind (ih hret) (List.Forall₂.flip ?_)
          refine (allPairs_same_length hlen h).imp fun t1 t2 harg => ?_
          split at harg
          · have hdyn := of_decide_eq_true (Option.some.inj harg)
            exact .dyn hdyn.1 hdyn.2
          · exact ih harg
        · simp_all
      · exact .same (sameType_of_hlSameType h)
    case h_4 ha hb => exact .packed ha hb (ih h)
    case h_5 => exact .same (sameType_of_hlSameType h)

theorem struct_of_kind {struct struct' : Bool} {o o' : Nat}
    (h : (TypeEntry.obj struct o).kind = (TypeEntry.obj struct' o').kind) : struct = struct' := by
  revert h
  cases struct <;> cases struct' <;> simp [TypeEntry.kind]

theorem method_of_kind {method method' : Bool} {args args' : List Nat} {ret ret' : Nat}
    (h : (TypeEntry.fun_ method args ret).kind = (TypeEntry.fun_ method' args' ret').kind) :
    method = method' := by
  revert h
  cases method <;> cases method' <;> simp [TypeEntry.kind]

theorem compatible_of_run {t1 t2 : Nat} (h : run m.compare fuel (.check t1 t2) = some true) :
    Compatible m t1 t2 := by
  induction fuel generalizing t1 t2 with
  | zero => cases h
  | succ fuel ih =>
    rw [run, TypeMem.compare, eval_either, Asking.eval_call, ← hlSafeCast_run] at h
    obtain ⟨_ | _, hcast, h⟩ := Option.bind_eq_some_iff.1 h
    case true => exact .of_cast (safeCast_of_hlSafeCast hcast)
    rw [if_neg Bool.false_ne_true] at h
    split at h
    · cases h
    next hdiffer =>
    have hkind := Decidable.not_not.1 hdiffer
    refine .of_shape ?_
    unfold SameShape
    split at h
    case h_1 ha hb =>
      rw [ha, hb]
      simp only [TypeMem.kind, ha, hb] at hkind
      exact ⟨struct_of_kind hkind, of_decide_eq_true (Option.some.inj h)⟩
    case h_2 ha hb =>
      rw [ha, hb]
      simp only [TypeMem.kind, ha, hb] at hkind
      split at h
      · cases h
      next hdiffer' =>
      rw [eval_both, askPairs_eval] at h
      simp only [Asking.eval_call] at h
      obtain ⟨_ | _, hargs, h⟩ := Option.bind_eq_some_iff.1 h
      · cases h
      · have hforall := allPairs_same_length (Decidable.not_not.1 hdiffer') hargs
        exact ⟨method_of_kind hkind, hforall.imp fun _ _ => ih, ih h⟩
    case h_3 ha hb =>
      rw [ha, hb]
      split at h
      · next heq => rw [heq]
      split at h
      · cases h
      next hlen =>
      exact Decidable.not_not.1 hlen
    case h_4 ha hb =>
      rw [ha, hb]
      exact of_decide_eq_true (Option.some.inj h)
    case h_5 ha hb =>
      rw [ha, hb]
      exact of_decide_eq_true (Option.some.inj h)
    case h_6 ha hb =>
      rw [ha, hb]
      rw [Asking.eval_call] at h
      exact ⟨rfl, ih h⟩
    case h_7 => cases h

/-! The slots of a module. -/

/-- The replacement of a function by the one of the same index in another generation. -/
structure Replaceable (m : TypeMem) (target generation : HlModule) (base base' : Nat) (index : Int) :
    Prop where
  compiled : functionPtr generation index ≠ none
  signature : ∃ oldf newf, moduleFindFunction target index = some oldf ∧
    moduleFindFunction generation index = some newf ∧
    Compatible m (base + oldf.type) (base' + newf.type)

theorem replaceable_of_run {target generation : HlModule} {base base' : Nat} {indices : List Int}
    (h : (compareSlots target generation base base' indices).eval (run m.compare fuel) = some true) :
    ∀ index ∈ indices, Replaceable m target generation base base' index := by
  induction indices with
  | nil => exact fun index hindex => absurd hindex List.not_mem_nil
  | cons index indices ih =>
    rw [compareSlots] at h
    split at h
    case h_1 oldf newf ptr hold hnew hptr =>
      rw [eval_both, Asking.eval_call] at h
      obtain ⟨_ | _, hcheck, h⟩ := Option.bind_eq_some_iff.1 h
      · cases h
      · rw [List.forall_mem_cons]
        refine ⟨⟨?_, oldf, newf, hold, hnew, compatible_of_run hcheck⟩, ih h⟩
        rw [hptr]
        exact Option.some_ne_none ptr
    case h_2 => cases h

/-- Two types are found the same, or the slots of a module are patched, only with compatible types,
and the types are left as they were. -/
theorem check_same_type_sound (fuel : Nat) (m m' : TypeMem) :
    (∀ t1 t2, checkSameType fuel m t1 t2 = some (true, m') → Compatible m t1 t2 ∧ m' = m) ∧
      ∀ target generation target' base base' indices,
        hlModulePatchSlots fuel m target generation base base' indices = some (true, target', m') →
          (∀ index ∈ indices, Replaceable m target generation base base' index) ∧ m' = m := by
  constructor
  · intro t1 t2 h
    rw [checkSameType_run] at h
    obtain ⟨_, hrun, heq⟩ := Option.map_eq_some_iff.1 h
    cases heq
    exact ⟨compatible_of_run hrun, rfl⟩
  · intro target generation target' base base' indices h
    unfold hlModulePatchSlots at h
    split at h
    · cases h
    split at h
    · cases h
    · cases h
    · next hcheck =>
      cases h
      rw [checkSlots_run] at hcheck
      obtain ⟨_, hrun, heq⟩ := Option.map_eq_some_iff.1 hcheck
      cases heq
      exact ⟨replaceable_of_run hrun, rfl⟩

theorem isPlain_hDyn : isPlain .hDyn = true := rfl

/-- A memory with a class, the dynamic type, and a function that returns each. -/
def castMem : TypeMem where
  types
    | 0 => .obj false 0
    | 1 => .plain ⟨.hDyn, isPlain_hDyn⟩
    | 2 => .fun_ false [] 0
    | _ => .fun_ false [] 1
  objs _ := ⟨0, none, []⟩
  virts _ := []
  tenums _ := 0
  text _ := []
  hlStringType := none

def castModule (ptr : Option Nat) : HlModule where
  patchable := true
  revision := 0
  ints := []
  floats := []
  strings := []
  types := []
  ntypes := 0
  globals := []
  globalsIndexes := []
  nglobals := 0
  npatchglobals := 0
  globalsData := []
  globalsSize := 0
  natives := []
  functions := [⟨0, 0⟩]
  npatchfunctions := 0
  functionsCapacity := 1
  functionStableIds := []
  functionNames := []
  functionsIndexes := []
  functionsTypes := []
  functionsPtrs := [ptr]
  patchTargets := none
  patchOrigin := none
  patchOwners := []
  debugFiles := []
  patchFailureStage := 0

theorem check_same_type_sound_castMem :
    Compatible castMem 2 3 ∧ Replaceable castMem (castModule (some 64)) (castModule (some 128)) 2 3 0 := by
  have hcheck : checkSameType 3 castMem 2 3 = some (true, castMem) := rfl
  have hpatch : hlModulePatchSlots 3 castMem (castModule (some 64)) (castModule (some 128)) 2 3 [0] =
      some (true, castModule (some 128), castMem) := rfl
  exact ⟨((check_same_type_sound 3 castMem castMem).1 2 3 hcheck).1,
    ((check_same_type_sound 3 castMem castMem).2 _ _ _ 2 3 [0] hpatch).1 0 List.mem_cons_self⟩

/-- A function that returned a class may return anything after the reload. -/
theorem cast_is_not_same_structure :
    ¬ ∀ fuel m m' t1 t2, checkSameType fuel m t1 t2 = some (true, m') → SameStructure m t1 t2 := by
  intro hsound
  have hsame := hsound 3 castMem castMem 2 3 rfl
  rw [SameStructure, ← OrderHom.map_gfp] at hsame
  have hret : SameStructure castMem 0 1 := hsame.2.2
  rw [SameStructure, ← OrderHom.map_gfp] at hret
  exact hret

end HashLink.HotReload
