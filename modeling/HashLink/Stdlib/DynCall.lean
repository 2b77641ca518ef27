import HashLink.Jit.CallingConvention

/-! The dynamic calls of `fun.c`, where each access to an array of arguments is checked. -/

namespace HashLink.DynCall

abbrev Word := Nat

structure HlType where
  kind : HlTypeKind
  address : Word

structure Signature where
  args : List HlType
  ret : HlType

/-- `hl_type_fun`: that of a module, what `hl_get_closure_type` makes of one, and `hlt_var_args`. -/
inductive FunType where
  | declared (s : Signature)
  | closure (receiver : HlType) (s : Signature)
  | varArgs

namespace FunType

def args : FunType → List HlType
  | declared s => s.args
  | closure _ s => s.args
  | varArgs => []

def ret : FunType → HlType
  | declared s => s.ret
  | closure _ s => s.ret
  | varArgs => ⟨.hVoid, 0⟩

def nargs : FunType → Int
  | varArgs => -1
  | t => t.args.length

def parent : FunType → Option FunType
  | declared _ => none
  | closure receiver s => some (declared ⟨receiver :: s.args, s.ret⟩)
  | varArgs => some varArgs

end FunType

/-- `vclosure` with `hasValue` 0, with 1 (of a function and of `fun_var_args`), and `vclosure_wrapper`. What
`hl_no_closure` makes of a closure of `fun_var_args` is left out. -/
inductive Closure where
  | function (t : Signature) (code : Word)
  | bound (receiver : HlType) (t : Signature) (code value : Word)
  | varArgs (code callback : Word)
  | wrapper (t : Signature) (code self wrappedFun : Word)

namespace Closure

def t : Closure → FunType
  | function t _ => .declared t
  | bound receiver t _ _ => .closure receiver t
  | varArgs .. => .varArgs
  | wrapper t _ _ _ => .declared t

def code : Closure → Word
  | function _ code => code
  | bound _ _ code _ => code
  | varArgs code _ => code
  | wrapper _ code _ _ => code

def value : Closure → Option Word
  | function .. => none
  | bound _ _ _ value => some value
  | varArgs _ callback => some callback
  | wrapper _ _ self _ => some self

end Closure

/-- An entry of an array of arguments: a pointer, or the address of a number. -/
inductive Slot where
  | pointer (p : Word)
  | number (bits : Word)

def Slot.ofValue (t : HlType) (value : Word) : Slot := if t.kind.isPtr then .pointer value else .number value

inductive FieldType where
  | function (s : Signature)
  | other (t : HlType)

/-- `hl_field_lookup`. -/
structure FieldLookup where
  hashedName : Int
  t : FieldType
  fieldIndex : Int

def hlLookupFind (lookup : List FieldLookup) (hfield : Int) : Option FieldLookup :=
  SortedTable.find FieldLookup.hashedName lookup hfield

/-- `vdynobj`. A field that holds no closure is zero. -/
structure DynObj where
  t : HlType
  lookup : List FieldLookup
  values : Nat → Word

/-- An object: the lookups of its class and of those above it, its methods and its fields. -/
structure Obj where
  name : String
  self : Word
  lookups : List (List FieldLookup)
  methods : Nat → Word
  fields : Int → Word

inductive Object where
  | dynobj (d : DynObj)
  | obj (o : Obj)
  | other

/-- The rest of the runtime: the closures of the heap, the casts, which can raise an error, the allocations, and the
code that is called. The callback of `hl_make_var_args` has one argument. -/
structure Runtime where
  closure : Word → Closure
  callback : ∀ p code q, closure p = .varArgs code q → (closure q).t.nargs = 1
  hltDyn : HlType
  hlDynCasti : Slot → HlType → HlType → Except String Word
  hlDynCasti64 : Slot → HlType → Except String Word
  hlDynCastf : Slot → HlType → Except String Word
  hlDynCastd : Slot → HlType → Except String Word
  hlDynCastp : Slot → HlType → HlType → Except String Word
  hlMakeDyn : Slot → HlType → Word
  hlAllocDynbool : Word → Word
  hlAllocDynamic : HlType → Word → Word
  hlAllocArray : List Word → Word
  copyStruct : HlType → Word → Word
  staticCall : Word → FunType → List Slot → Except String Word
  callArray : Word → Option Word → List Word → Except String Word
  hlFieldName : Int → String
  hlTypeStr : HlType → String

inductive Fault where
  | overflow
  | argument
  | signature
  | lookup
  deriving DecidableEq

/-- What ends a call: an error that is raised, or an access that is not allowed. -/
inductive Stop where
  | error (message : String)
  | fault (f : Fault)

abbrev Run := Except Stop

def raise {α : Type} (message : String) : Run α := .error (.error message)

def fault {α : Type} (f : Fault) : Run α := .error (.fault f)

def liftCast {α : Type} : Except String α → Run α
  | .ok x => .ok x
  | .error message => raise message

def hlMaxArgs : Nat := 9

def put {α : Type} (size : Nat) (xs : List α) (x : α) : Run (List α) :=
  if xs.length < size then pure (xs ++ [x]) else fault .overflow

/-- Writes `tmp[i]`. -/
def putTmp (i : Nat) (bits : Word) : Run Slot := if i < hlMaxArgs then pure (.number bits) else fault .overflow

def readArg {α : Type} (args : List α) (i : Nat) : Run α := (args[i]?).elim (fault .argument) pure

def readType (t : Signature) (i : Nat) : Run HlType := (t.args[i]?).elim (fault .signature) pure

/-- `hl_setup.static_call`, which reads an argument for each one that the type has. -/
def staticCall (r : Runtime) (code : Word) (t : FunType) (vargs : List Slot) : Run Word :=
  if t.args.length ≤ vargs.length then liftCast (r.staticCall code t vargs) else fault .argument

section
variable (r : Runtime)

/-- The casts of the argument `i`. Numbers are kept in `tmp`. -/
def castArg (i : Nat) (v : Slot) (t target : HlType) : Run Slot :=
  match target.kind with
  | .hUi8 | .hUi16 | .hI32 | .hBool => do putTmp i (← liftCast (r.hlDynCasti v t target))
  | .hI64 | .hGuid => do putTmp i (← liftCast (r.hlDynCasti64 v t))
  | .hF32 => do putTmp i (← liftCast (r.hlDynCastf v t))
  | .hF64 => do putTmp i (← liftCast (r.hlDynCastd v t))
  | _ => do return .pointer (← liftCast (r.hlDynCastp v t target))

/-- The loop of `hl_call_method`. -/
def packArgs (args : List Word) : List HlType → Nat → List Slot → Run (List Slot)
  | [], _, pargs => pure pargs
  | t :: ts, i, pargs => do
      let v ← readArg args i
      let p ← (if v = 0 then if t.kind.isPtr then pure (.pointer 0) else putTmp i 0
        else castArg r i (.pointer v) r.hltDyn t : Run Slot)
      let pargs ← put hlMaxArgs pargs p
      packArgs args ts (i + 1) pargs

/-- What `hl_call_method` makes of the result. -/
def dynResult (tret : HlType) (ret : Word) : Word :=
  if !tret.kind.isPtr then
    match tret.kind with
    | .hVoid => 0
    | .hBool => r.hlAllocDynbool ret
    | _ => r.hlAllocDynamic tret ret
  else if ret = 0 || Marshal.isDynamic tret.kind then ret
  else r.hlAllocDynamic tret ret

def unwrapped : Closure → Closure
  | .wrapper _ _ _ wrappedFun => r.closure wrappedFun
  | c => c

def hlCallMethod (cl : Closure) (args : List Word) : Run Word := do
  if hlMaxArgs < args.length then raise "Too many arguments"
  match cl with
  | .function t code =>
    if args.length < t.args.length then
      raise s!"Missing arguments : {t.args.length} expected but {args.length} passed"
    let pargs ← packArgs r args t.args 0 []
    let ret ← staticCall r code (.declared t) pargs
    return dynResult r t.ret ret
  | cl =>
    match unwrapped r cl with
    | .varArgs _ callback =>
      let cl := r.closure callback
      liftCast (r.callArray cl.code cl.value args)
    | _ => raise "Can't call closure with value"

/-- The loops of `hl_dyn_call`. -/
def copyArgs : List Word → List Word → Run (List Word)
  | [], tmp => pure tmp
  | v :: args, tmp => do copyArgs args (← put (hlMaxArgs + 1) tmp v)

/-- The receiver of `hl_dyn_call`. -/
def dynReceiver (receiver : HlType) (value : Word) : Word :=
  if receiver.kind = .hStruct ∧ value ≠ 0 then r.hlAllocDynamic receiver value
  else r.hlMakeDyn (.ofValue receiver value) receiver

def hlDynCall (c : Closure) (args : List Word) : Run Word := do
  if hlMaxArgs < args.length then raise "Too many arguments"
  match c with
  | .bound receiver t code value =>
    let tmp ← put (hlMaxArgs + 1) [] (dynReceiver r receiver value)
    let tmp ← copyArgs args tmp
    hlCallMethod r (.function ⟨receiver :: t.args, t.ret⟩ code) tmp
  | c =>
    let tmp ← copyArgs args []
    hlCallMethod r c tmp

/-- The loop of `hl_wrapper_call` over the arguments of `fun_var_args`. -/
def makeArgs (t : Signature) (args : List Slot) : List HlType → Nat → List Word → Run (List Word)
  | [], _, a => pure a
  | _ :: ts, i, a => do
      let ti ← readType t i
      let v ← readArg args i
      makeArgs t args ts (i + 1) (a ++ [r.hlMakeDyn v ti])

/-- The loop of `hl_wrapper_call` over the arguments of the closure. -/
def wrapArgs (t : Signature) (args : List Slot) : List HlType → Nat → List Slot → Run (List Slot)
  | [], _, vargs => pure vargs
  | target :: targets, i, vargs => do
      let ti ← readType t i
      let v ← readArg args i
      let v ← castArg r i v ti target
      let vargs ← put (hlMaxArgs + 1) vargs v
      wrapArgs t args targets (i + 1) vargs

def putValue (w : Closure) : Run (List Slot) :=
  match w.value with
  | some value => put (hlMaxArgs + 1) [] (.pointer value)
  | none => pure []

/-- The type that `hl_wrapper_call` calls a closure with. -/
def calleeType (w : Closure) : Run FunType :=
  match w.value with
  | some _ => w.t.parent.elim (fault .signature) pure
  | none => pure w.t

/-- What `hl_wrapper_call` makes of the result. -/
def castResult (tret wret : HlType) (pret : Word) : Run Word :=
  let aret := Slot.ofValue wret pret
  match tret.kind with
  | .hVoid => pure 0
  | .hUi8 | .hUi16 | .hI32 | .hBool => liftCast (r.hlDynCasti aret wret tret)
  | .hI64 | .hGuid => liftCast (r.hlDynCasti64 aret wret)
  | .hF32 => liftCast (r.hlDynCastf aret wret)
  | .hF64 => liftCast (r.hlDynCastd aret wret)
  | _ => do
      let p ← liftCast (r.hlDynCastp aret wret tret)
      return if tret.kind = .hStruct ∧ p ≠ 0 then r.copyStruct tret p else p

/-- The call of `hl_wrapper_call`. -/
def callWrapped (t : Signature) (w : Closure) (vargs : List Slot) : Run Word := do
  let callee ← calleeType w
  let pret ← staticCall r w.code callee vargs
  castResult r t.ret w.t.ret pret

/-- `hl_wrapper_call` of a wrapper of type `t`. -/
def hlWrapperCall (t : Signature) (wrappedFun : Closure) (args : List Slot) : Run Word :=
  match wrappedFun with
  | .varArgs _ callback => do
      let w := r.closure callback
      let a ← makeArgs r t args t.args 0 []
      let vargs ← putValue w
      let vargs ← put (hlMaxArgs + 1) vargs (.pointer (r.hlAllocArray a))
      callWrapped r t w vargs
  | w => do
      let vargs ← putValue w
      let vargs ← wrapArgs r t args w.t.args 0 vargs
      callWrapped r t w vargs

def functionOf (hfield : Int) (l : FieldLookup) : Run Signature :=
  match l.t with
  | .function s => pure s
  | .other t => raise s!"Field {r.hlFieldName hfield} is of type {r.hlTypeStr t} and cannot be called"

/-- `hl_get_closure_type`, as the receiver and the other arguments. -/
def hlGetClosureType (t : Signature) : Run (HlType × Signature) :=
  match t.args with
  | [] => raise "assert"
  | receiver :: args => pure (receiver, ⟨args, t.ret⟩)

/-- `HL_DYNOBJ_INDEX_MASK`. -/
def valueIndex (l : FieldLookup) : Nat := (l.fieldIndex % (HashLink.DynObj.indexMask + 1 : Nat)).toNat

/-- The case of `hl_dyn_call_obj` for a dynamic object. -/
def callDynobj (d : DynObj) (ft : Signature) (hfield : Int) (args : List Slot) : Run Word := do
  let l := hlLookupFind d.lookup hfield
  if let some l := l then
    let _ ← functionOf r hfield l
  -- `l` is used as it is here
  let l ← l.elim (fault .lookup) pure
  let tmp := d.values (valueIndex l)
  if tmp ≠ 0 then hlWrapperCall r ft (r.closure tmp) args
  else raise s!"{r.hlTypeStr d.t} has no method {r.hlFieldName hfield}"

/-- The call of a method, or of the closure in a field, that `hl_dyn_call_obj` has found. -/
def callField (o : Obj) (ft : Signature) (hfield : Int) (args : List Slot) (l : FieldLookup) (t : Signature) :
    Run Word := do
  if l.fieldIndex < 0 then
    let (receiver, t) ← hlGetClosureType t
    hlWrapperCall r ft (.bound receiver t (o.methods (-l.fieldIndex - 1).toNat) o.self) args
  else
    let tmp := o.fields l.fieldIndex
    if tmp ≠ 0 then hlWrapperCall r ft (r.closure tmp) args
    else raise s!"{o.name} has no method {r.hlFieldName hfield}"

/-- The loop of `hl_dyn_call_obj` over a class and those above it. -/
def callObj (o : Obj) (ft : Signature) (hfield : Int) (args : List Slot) : List (List FieldLookup) → Run Word
  | [] => raise s!"{o.name} has no method {r.hlFieldName hfield}"
  | lookup :: parents =>
    match hlLookupFind lookup hfield with
    | some l => do callField r o ft hfield args l (← functionOf r hfield l)
    | none => callObj o ft hfield args parents

def hlDynCallObj (o : Object) (ft : Signature) (hfield : Int) (args : List Slot) : Run Word :=
  match o with
  | .dynobj d => callDynobj r d ft hfield args
  | .obj o => callObj r o ft hfield args o.lookups
  | .other => raise "Invalid field access"

/-- A call of one of the four functions, with an argument for each one that the type of the caller has. -/
inductive Call where
  | callMethod (c : Word) (args : List Word)
  | dynCall (c : Word) (args : List Word)
  | wrapperCall (t : Signature) (wrappedFun : Word) (args : List Slot) (supplied : args.length = t.args.length)
  | dynCallObj (o : Object) (ft : Signature) (hfield : Int) (args : List Slot) (supplied : args.length = ft.args.length)

def Call.run : Call → Run Word
  | callMethod c args => hlCallMethod r (r.closure c) args
  | dynCall c args => hlDynCall r (r.closure c) args
  | wrapperCall t wrappedFun args _ => hlWrapperCall r t (r.closure wrappedFun) args
  | dynCallObj o ft hfield args _ => hlDynCallObj r o ft hfield args

/-- No access is one that is not allowed. -/
def Run.Faultless {α : Type} (x : Run α) : Prop := ∀ f, x ≠ fault f

/-- The call raises an error, or stays within its arrays, the arguments, the types and the lookups. -/
def Call.Safe (c : Call) : Prop := (c.run r).Faultless

end

end HashLink.DynCall
