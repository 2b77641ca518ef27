import HashLink.Code.ReaderBounds
import HashLink.Patch.Read

/-!
What `hl_patch_read` reads and when it returns. Every read is checked against the end of the section
it is in, so it stays in the buffer whatever the buffer holds. The failure path returns as long as no
count is set for an array that is not there; which of the faults leave such a count behind can be
read off the fault.
-/

namespace HashLink.Hlp

open Transaction Sticky

def PatchFault.Owes : PatchFault → Prop
  | .count (some _) value => 0 < value
  | .tooMany _ n | .registers n | .memory (some _) n => 0 < n
  | _ => False

/-- Everything that was read is in the buffer. -/
def Inside (data : List UInt8) (r : PatchReader) : Prop :=
  ∀ access ∈ r.reads, access.1 + access.2 ≤ data.length

/-- The reader is in a section of the buffer that ends at `limit`, after the sections `sections`, and
owes the arrays `owed`. -/
structure Reading (data : List UInt8) (limit : Nat) (sections : List PatchSection)
    (owed : List PatchArray) (r : PatchReader) : Prop where
  buffer : r.data = data
  ends : r.limit = limit
  pos : r.pos ≤ limit
  room : limit ≤ data.length
  done : r.sections = sections
  owes : r.owed = owed
  inside : Inside data r

def Stopped (data : List UInt8) (stop : PatchStop) (r : PatchReader) : Prop :=
  Inside data r ∧
    match stop with
    | .failed _ fault => r.owed ≠ [] ↔ fault.Owes
    | .crashed => True

/-- A program that owes nothing before and after. -/
def Plain {α : Type} (x : PatchReadM α) : Prop :=
  ∀ data limit sections, Spec (Reading data limit sections []) x
    (fun _ => Reading data limit sections []) (Stopped data)

variable {α β : Type} {data : List UInt8} {limit : Nat} {sections : List PatchSection}
  {owed : List PatchArray} {r : PatchReader}

variable {fault : PatchFault} {x : PatchReadM α} {s : PatchReader} {array : PatchArray}

theorem Reading.stopped (h : Reading data limit sections owed r) {error : String}
    (hfault : owed ≠ [] ↔ fault.Owes) :
    Stopped data (.failed error fault) r :=
  ⟨h.inside, h.owes ▸ hfault⟩

theorem plain_pure (a : α) : Plain (pure a) := fun _ _ _ => spec_pure fun _ h => h

theorem plain_bind {f : α → PatchReadM β} (hx : Plain x) (hf : ∀ a, Plain (f a)) : Plain (x >>= f) :=
  fun data limit sections => spec_bind (hx data limit sections) fun a => hf a data limit sections

theorem plain_ite {c : Prop} [Decidable c] {y : PatchReadM α} (hx : c → Plain x) (hy : ¬c → Plain y) :
    Plain (if c then x else y) :=
  fun data limit sections =>
    spec_ite (fun hc => hx hc data limit sections) fun hc => hy hc data limit sections

theorem plain_throw {error : String} (h : ¬fault.Owes) :
    Plain (throw (.failed error fault) : PatchReadM α) :=
  fun _ _ _ => spec_throw fun _ hr => hr.stopped (by simp [h])

theorem plain_fail (error : String) : Plain (fail error : PatchReadM α) :=
  plain_throw (by simp [PatchFault.Owes])

theorem plain_demand (ok : Bool) (error : String) : Plain (demand ok error) :=
  plain_ite (fun _ => plain_pure ()) fun _ => plain_fail error

theorem spec_collect {P : PatchReader → Prop} {E : PatchStop → PatchReader → Prop}
    (hx : Spec P x (fun _ => P) E) (n : Nat) :
    Spec P (collect x n) (fun _ => P) E := by
  induction n with
  | zero => exact spec_pure fun _ h => h
  | succ n ih => exact spec_bind hx fun _ => spec_bind ih fun _ => spec_pure fun _ h => h

theorem plain_collect (hx : Plain x) (n : Nat) : Plain (collect x n) :=
  fun data limit sections => spec_collect (hx data limit sections) n

theorem spec_take (count : Nat) (hfault : owed ≠ [] ↔ fault.Owes) :
    Spec (Reading data limit sections owed) (take count fault)
      (fun _ => Reading data limit sections owed) (Stopped data) := by
  refine spec_get_bind fun r hr => spec_ite (fun _ => ?_) fun hroom => ?_
  · exact spec_throw fun _ hs => hs ▸ hr.stopped hfault
  · have hlimit := hr.ends
    have hbound : r.pos + count ≤ limit := by omega
    refine spec_bind (spec_set ?_) fun _ => spec_pure fun _ h => h
    refine ⟨hr.buffer, hr.ends, hbound, hr.room, hr.done, hr.owes, ?_⟩
    intro access haccess
    rcases List.mem_cons.mp haccess with rfl | hold
    · exact Nat.le_trans hbound hr.room
    · exact hr.inside access hold

theorem spec_readByte (hfault : owed ≠ [] ↔ fault.Owes) :
    Spec (Reading data limit sections owed) (readByte fault)
      (fun _ => Reading data limit sections owed) (Stopped data) :=
  spec_bind (spec_take 1 hfault) fun _ => spec_pure fun _ h => h

theorem spec_readIndex (hfault : owed ≠ [] ↔ fault.Owes) :
    Spec (Reading data limit sections owed) (readIndex fault)
      (fun _ => Reading data limit sections owed) (Stopped data) := by
  refine spec_bind (spec_readByte hfault) fun first => spec_ite (fun _ => spec_pure fun _ h => h)
    fun _ => spec_ite (fun _ => ?_) fun _ => ?_
  · exact spec_bind (spec_take 1 hfault) fun _ => spec_pure fun _ h => h
  · exact spec_bind (spec_take 3 hfault) fun _ => spec_pure fun _ h => h

theorem nil_owes_truncated : ([] : List PatchArray) ≠ [] ↔ PatchFault.truncated.Owes := by
  simp [PatchFault.Owes]

theorem plain_take (count : Nat) : Plain (take count) := fun _ _ _ => spec_take count nil_owes_truncated

theorem plain_readByte : Plain readByte := fun _ _ _ => spec_readByte nil_owes_truncated

theorem plain_readIndex : Plain readIndex := fun _ _ _ => spec_readIndex nil_owes_truncated

theorem plain_readCount : Plain readCount :=
  plain_bind plain_readIndex fun _ =>
    plain_ite (fun _ => plain_throw (by simp [PatchFault.Owes])) fun _ => plain_pure _

theorem plain_readHash : Plain readHash := plain_bind (plain_take 4) fun _ => plain_pure _

theorem plain_readDouble : Plain readDouble := plain_bind (plain_take 8) fun _ => plain_pure _

theorem plain_readText : Plain readText := plain_bind plain_readCount fun count => plain_take count

theorem plain_gets {f : PatchReader → α} : Plain (do let r ← get; return f r) :=
  fun _ _ _ => spec_get_bind fun _ hr => spec_pure fun _ hs => hs ▸ hr

theorem plain_remaining : Plain remaining := plain_gets

theorem plain_position : Plain position := plain_gets

theorem plain_store (ok : Bool) : Plain (store ok) :=
  plain_ite (fun _ => plain_pure ()) fun _ _ _ _ => spec_throw fun _ hr => ⟨hr.inside, trivial⟩

theorem spec_alloc : Spec (Reading data limit sections owed) alloc
    (fun _ => Reading data limit sections owed) (Stopped data) := by
  refine spec_get_bind fun r hr => spec_bind (spec_set ?_) fun _ => spec_pure fun _ h => h
  exact ⟨hr.buffer, hr.ends, hr.pos, hr.room, hr.done, hr.owes, hr.inside⟩

theorem plain_alloc : Plain alloc := fun _ _ _ => spec_alloc

theorem plain_allocOne (error : String) : Plain (allocOne error) :=
  plain_bind plain_alloc fun _ =>
    plain_ite (fun _ => plain_pure ()) fun _ => plain_throw (by simp [PatchFault.Owes])

theorem plain_collectInto (ok : Bool) (hx : Plain x) (count : Nat) :
    Plain (collectInto ok x count) :=
  plain_collect (plain_bind hx fun _ => plain_bind (plain_store ok) fun _ => plain_pure _) count

/-- What is owed once an array has got its count. -/
def owing (array : PatchArray) (count : Nat) : List PatchArray := if 0 < count then [array] else []

variable {count start : Nat} {b : UInt8}

theorem owing_ne_nil : owing array count ≠ [] ↔ 0 < count := by
  unfold owing
  split <;> simp [*]

theorem spec_readCountOf (array : PatchArray) :
    Spec (Reading data limit sections []) (readCountOf array)
      (fun count => Reading data limit sections (owing array count)) (Stopped data) := by
  refine spec_bind (plain_readIndex data limit sections) fun value => ?_
  let owed := if 0 < value then [array] else []
  refine spec_bind (Q := fun _ => Reading data limit sections owed) (spec_modify fun r hr => ?_)
    fun _ => spec_ite (fun hbad => spec_throw fun r hr => hr.stopped ?_) fun hgood => ?_
  · have howed : (r.owe array value).owed = owed := by
      simp [PatchReader.owe, owed, hr.owes]
    exact ⟨hr.buffer, hr.ends, hr.pos, hr.room, hr.done, howed, hr.inside⟩
  · simp only [owed, PatchFault.Owes]
    split <;> simp [*]
  · refine spec_pure fun r hr => ?_
    have hpos : 0 < value.toNat ↔ 0 < value := by omega
    have hcount : owing array value.toNat = owed := by simp only [owing, owed, hpos]
    rw [hcount]
    exact hr

theorem Reading.settle (h : Reading data limit sections (owing array count) r) :
    Reading data limit sections [] (r.settle array) := by
  have hnone : (owing array count).filter (· ≠ array) = [] := by
    unfold owing
    split <;> simp
  exact ⟨h.buffer, h.ends, h.pos, h.room, h.done, (congrArg _ h.owes).trans hnone, h.inside⟩

theorem spec_allocArray (array : PatchArray) (count : Nat) (error : String) :
    Spec (Reading data limit sections (owing array count)) (allocArray array count error)
      (fun _ => Reading data limit sections []) (Stopped data) := by
  refine spec_bind spec_alloc fun ok => spec_ite (fun _ => spec_modify fun _ hr => hr.settle)
    fun hnone => spec_throw fun _ hr => hr.stopped ?_
  rw [owing_ne_nil]
  rfl

theorem spec_allocUnchecked (array : PatchArray) (count : Nat) :
    Spec (Reading data limit sections (owing array count)) (allocUnchecked array count)
      (fun _ => Reading data limit sections []) (Stopped data) :=
  spec_bind spec_alloc fun _ => spec_ite (fun _ => spec_modify fun _ hr => hr.settle)
    fun _ => spec_throw fun _ hr => ⟨hr.inside, trivial⟩

theorem spec_boundedCount (array : PatchArray) {least : Nat} (count width : Nat) (error : String)
    (hleast : least ≤ 1) :
    Spec (Reading data limit sections (owing array count)) (boundedCount array least count width error)
      (fun _ => Reading data limit sections (owing array count)) (Stopped data) := by
  refine spec_bind (Q := fun _ => Reading data limit sections (owing array count))
    (spec_get_bind fun _ hr => spec_pure fun _ hs => hs ▸ hr) fun rest => ?_
  refine spec_ite (fun hfew => spec_throw fun _ hr => hr.stopped ?_) fun _ => spec_ite
    (fun _ => spec_throw fun _ hr => hr.stopped ?_) fun _ => spec_pure fun _ h => h
  · rw [owing_ne_nil]
    simp only [PatchFault.Owes, iff_false]
    omega
  · rw [owing_ne_nil]
    rfl

theorem plain_array {f : Nat → PatchReadM Unit} {g : Nat → PatchReadM α}
    (hf : ∀ count data limit sections, Spec (Reading data limit sections (owing array count))
      (f count) (fun _ => Reading data limit sections []) (Stopped data)) (hg : ∀ count, Plain (g count)) :
    Plain (do
      let count ← readCountOf array
      f count
      g count) :=
  fun data limit sections => spec_bind (spec_readCountOf array) fun count =>
    spec_bind (hf count data limit sections) fun _ => hg count data limit sections

theorem plain_allocPatchRecords (count width : Nat) : Plain (allocPatchRecords count width) :=
  plain_bind plain_remaining fun _ =>
    plain_ite (fun _ => plain_throw (by simp [PatchFault.Owes])) fun _ => plain_allocOne _

theorem plain_readPatchTypeFields (count : Nat) : Plain (readPatchTypeFields count) :=
  plain_bind (plain_allocPatchRecords count 2) fun _ => plain_collect
    (plain_bind plain_readIndex fun _ => plain_bind plain_readIndex fun _ => plain_pure _) count

theorem plain_readPatchTypeMethods (count : Nat) : Plain (readPatchTypeMethods count) :=
  plain_bind (plain_allocPatchRecords count 3) fun _ => plain_collect
    (plain_bind plain_readIndex fun _ => plain_bind plain_readIndex fun _ =>
      plain_bind plain_readIndex fun _ => plain_pure _) count

theorem plain_readPatchTypeBindings (count : Nat) : Plain (readPatchTypeBindings count) :=
  plain_bind (plain_allocPatchRecords count 2) fun _ => plain_collect
    (plain_bind plain_readIndex fun _ => plain_bind plain_readIndex fun _ => plain_pure _) count

theorem plain_readPatchVirtual : Plain readPatchVirtual :=
  plain_bind plain_readCount fun count => plain_bind (plain_readPatchTypeFields count) fun _ =>
    plain_pure _

theorem plain_readPatchClass : Plain readPatchClass :=
  plain_bind plain_readIndex fun _ => plain_bind plain_readIndex fun _ =>
    plain_bind plain_readCount fun _ => plain_bind plain_readCount fun fieldCount =>
    plain_bind plain_readCount fun protoCount => plain_bind plain_readCount fun bindingCount =>
    plain_bind (plain_readPatchTypeFields fieldCount) fun _ =>
    plain_bind (plain_readPatchTypeMethods protoCount) fun _ =>
    plain_bind (plain_readPatchTypeBindings bindingCount) fun _ => plain_pure _

theorem plain_readPatchFunctionType : Plain readPatchFunctionType :=
  plain_bind plain_readByte fun _ => plain_bind plain_alloc fun _ =>
    plain_bind (plain_demand _ _) fun _ => plain_bind (plain_collect plain_readIndex _) fun _ =>
    plain_bind plain_readIndex fun _ => plain_pure _

theorem plain_readPatchTypeData (version : Nat) (tag : HlTypeKind) :
    Plain (readPatchTypeData version tag) := by
  have hindex : ∀ f : Int → HlPatchType, Plain (do return f (← readIndex)) :=
    fun f => plain_bind plain_readIndex fun i => plain_pure (f i)
  have hclass : Plain (do return { tag, obj := ← readPatchClass } : PatchReadM HlPatchType) :=
    plain_bind plain_readPatchClass fun _ => plain_pure _
  have hvirtual : Plain (do return { tag, obj := ← readPatchVirtual } : PatchReadM HlPatchType) :=
    plain_bind plain_readPatchVirtual fun _ => plain_pure _
  unfold readPatchTypeData
  split
  · exact plain_readPatchFunctionType
  · exact hindex _
  · exact hindex _
  · exact hindex _
  · exact plain_ite (fun _ => hindex _) fun _ => plain_fail _
  · exact plain_ite (fun _ => hvirtual) fun _ => plain_fail _
  · exact plain_ite (fun _ => hclass) fun _ => plain_fail _
  · exact plain_ite (fun _ => hclass) fun _ => plain_pure _
  · exact plain_fail _
  · exact plain_pure _

theorem plain_readPatchType (version : Nat) : Plain (readPatchType version) := by
  refine plain_bind plain_readByte fun b => ?_
  cases Code.kindOf b with
  | none => exact plain_fail _
  | some tag => exact plain_readPatchTypeData version tag

theorem plain_makeInstruction (opcode : HlOp) (operands : List Int) :
    Plain (makeInstruction opcode operands) := by
  unfold makeInstruction
  split
  · exact plain_pure _
  · exact plain_fail _

theorem plain_readVariableOperands : Plain readVariableOperands :=
  plain_bind plain_alloc fun _ => plain_bind (plain_collectInto _ plain_readIndex 3) fun _ =>
    plain_bind (plain_demand _ _) fun _ => plain_bind (plain_allocOne _) fun _ =>
    plain_bind (plain_collect plain_readIndex _) fun _ => plain_pure _

theorem plain_readPatchInstruction : Plain readPatchInstruction := by
  refine plain_bind plain_readByte fun b => ?_
  cases Code.opOf b with
  | none => exact plain_fail _
  | some opcode =>
    simp only
    cases opcode.operands with
    | some n =>
      exact plain_bind plain_alloc fun _ => plain_bind (plain_collectInto _ plain_readIndex n)
        fun _ => plain_makeInstruction opcode _
    | none =>
      exact plain_ite (fun _ => plain_fail _) fun _ => plain_bind plain_readVariableOperands
        fun _ => plain_makeInstruction opcode _

theorem plain_readCountInto (ok : Bool) : Plain (readCountInto ok) :=
  plain_bind plain_readIndex fun _ => plain_bind (plain_store ok) fun _ =>
    plain_ite (fun _ => plain_throw (by simp [PatchFault.Owes])) fun _ => plain_pure _

theorem plain_readRelocations : Plain readRelocations :=
  plain_bind plain_readCount fun count => plain_bind plain_alloc fun _ =>
    plain_bind plain_alloc fun _ => plain_collect (plain_bind (plain_readCountInto _) fun _ =>
      plain_bind (plain_readCountInto _) fun _ => plain_pure _) count

theorem spec_readRegisters (count ninstructions : Nat) :
    Spec (Reading data limit sections (owing .instructions ninstructions)) (readRegisters count ninstructions)
      (fun _ => Reading data limit sections (owing .instructions ninstructions))
      (Stopped data) := by
  refine spec_bind spec_alloc fun ok => spec_collect ?_ count
  refine spec_bind (spec_readIndex owing_ne_nil) fun _ => ?_
  refine spec_bind (Q := fun _ => Reading data limit sections (owing .instructions ninstructions))
    (spec_ite (fun _ => spec_pure fun _ h => h) fun _ => spec_throw fun _ hr => ⟨hr.inside, trivial⟩)
    fun _ => spec_pure fun _ h => h

theorem plain_readPatchFunction : Plain readPatchFunction := by
  refine plain_bind plain_readCount fun length => plain_bind plain_position fun start =>
    plain_bind plain_remaining fun rest => plain_ite
    (fun _ => plain_throw (by simp [PatchFault.Owes])) fun _ => plain_bind plain_readCount fun _ =>
    plain_bind plain_readIndex fun _ => plain_bind plain_readCount fun _ =>
    plain_bind plain_readCount fun registerCount => ?_
  intro data limit sections
  refine spec_bind (spec_readCountOf .instructions) fun instructionCount =>
    spec_bind (spec_readRegisters registerCount instructionCount) fun registers =>
    spec_bind (spec_allocUnchecked .instructions instructionCount) fun _ => ?_
  exact (plain_bind (plain_collect plain_readPatchInstruction instructionCount) fun _ =>
    plain_bind plain_readRelocations fun _ => plain_bind plain_position fun _ =>
    plain_bind (plain_demand _ _) fun _ => plain_pure _) data limit sections

theorem plain_readGrowing {entry : List α → PatchReadM α} (h : ∀ seen, Plain (entry seen)) (n : Nat)
    (seen : List α) : Plain (readGrowing entry n seen) := by
  induction n generalizing seen with
  | zero => exact plain_pure _
  | succ n ih => exact plain_bind (h seen) fun _ => ih _

theorem plain_readSymbols (version : Nat) (p : HlPatch) : Plain (readSymbols version p) := by
  refine plain_bind plain_readHash fun _ => plain_bind plain_readCount fun _ =>
    plain_bind plain_readCount fun _ => plain_bind plain_alloc fun _ =>
    plain_bind (plain_collectInto _ plain_readHash _) fun _ => ?_
  refine plain_bind plain_readHash fun _ => plain_bind plain_readCount fun _ =>
    plain_bind plain_readCount fun _ => plain_bind plain_alloc fun _ =>
    plain_bind (plain_collectInto _ plain_readDouble _) fun _ => ?_
  refine plain_bind plain_readHash fun _ => plain_bind plain_readCount fun _ => ?_
  intro data limit sections
  refine spec_bind (spec_readCountOf .strings) fun stringCount => ?_
  have hstrings : Spec (Reading data limit sections (owing .strings stringCount))
      (readStrings stringCount) (fun _ => Reading data limit sections []) (Stopped data) :=
    spec_bind (spec_allocUnchecked .strings stringCount) fun _ =>
      (plain_bind plain_alloc fun _ => plain_collect (plain_bind plain_readText fun _ =>
        plain_bind (plain_store _) fun _ => plain_bind (plain_allocOne _) fun _ => plain_pure _)
        stringCount) data limit sections
  refine spec_bind hstrings fun _ => spec_bind (plain_readHash data limit sections) fun _ =>
    spec_bind (plain_readCount data limit sections) fun _ =>
    spec_bind (spec_readCountOf .types) fun typeCount =>
    spec_bind (spec_allocArray .types typeCount _) fun _ => ?_
  exact (plain_bind (plain_collect (plain_readPatchType version) typeCount) fun _ => plain_pure _)
    data limit sections

theorem plain_readFunctions : Plain readFunctions :=
  plain_array (fun count _ _ _ => spec_allocUnchecked .functions count)
    fun count => plain_collect plain_readPatchFunction count

theorem plain_readDebugFiles : Plain readDebugFiles :=
  plain_array (fun count _ _ _ => spec_allocArray .debugFiles count _) fun count =>
    plain_bind plain_alloc fun _ => plain_bind (plain_demand _ _) fun _ => plain_collect
      (plain_bind plain_readText fun _ => plain_bind (plain_allocOne _) fun _ => plain_pure _) count

theorem plain_readDebugSpan (nfiles : Nat) : Plain (readDebugSpan nfiles) :=
  plain_bind plain_readCount fun _ => plain_bind plain_readCount fun _ =>
    plain_bind plain_readCount fun _ => plain_bind plain_readCount fun _ =>
    plain_bind plain_readCount fun _ => plain_bind plain_readHash fun _ =>
    plain_bind plain_readIndex fun _ => plain_bind plain_readIndex fun _ =>
    plain_bind plain_readCount fun _ => plain_bind (plain_demand _ _) fun _ => plain_pure _

theorem plain_readFunctionDebug (nfiles : Nat) (functions : List HlPatchFunction) :
    Plain (readFunctionDebug nfiles functions) := by
  refine plain_bind plain_readCount fun stableId => plain_bind plain_readCount fun nops => ?_
  cases debugTarget functions stableId with
  | error e => exact plain_fail e
  | ok found =>
    simp only
    cases functions[found]? with
    | none => exact plain_fail _
    | some f =>
      exact plain_bind (plain_demand _ _) fun _ => plain_bind (plain_demand _ _) fun _ =>
        plain_bind plain_alloc fun _ => plain_bind (plain_demand _ _) fun _ =>
        plain_bind (plain_collect (plain_readDebugSpan nfiles) nops) fun _ => plain_pure _

theorem plain_debugLoop (nfiles count : Nat) (functions : List HlPatchFunction) :
    Plain (debugLoop nfiles count functions) := by
  induction count generalizing functions with
  | zero => exact plain_pure _
  | succ count ih => exact plain_bind (plain_readFunctionDebug nfiles functions) fun _ => ih _

theorem plain_readCountOr (error : String) : Plain (readCountOr error) := by
  intro data limit sections r hr
  have hcount := plain_readCount data limit sections r hr
  unfold readCountOr
  cases hrun : readCount r with
  | ok count s =>
    rw [hrun] at hcount
    exact hcount
  | error stop s =>
    rw [hrun] at hcount
    cases stop with
    | failed _ fault => exact hcount
    | crashed => exact hcount

theorem plain_readDebug (p : HlPatch) : Plain (readDebug p) :=
  plain_bind plain_readDebugFiles fun _ => plain_bind (plain_readCountOr _) fun count =>
    plain_bind (plain_demand _ _) fun _ => plain_bind (plain_debugLoop _ count _) fun _ =>
    plain_pure _

theorem plain_readSnapshot (seen : List (BitVec 32 × Nat)) : Plain (readSnapshot seen) :=
  plain_bind plain_readHash fun _ => plain_bind (plain_demand _ _) fun _ =>
    plain_bind plain_readText fun _ => plain_bind (plain_demand _ _) fun _ =>
    plain_bind (plain_demand _ _) fun _ => plain_bind plain_alloc fun _ =>
    plain_bind (plain_demand _ _) fun _ => plain_pure _

theorem plain_readSnapshots : Plain readSnapshots :=
  plain_array (fun count _ _ _ => spec_allocArray .sourceSnapshots count _)
    fun count => plain_readGrowing plain_readSnapshot count []

theorem plain_readAddedFunction (seen : List HlPatchAddedFunction) :
    Plain (readAddedFunction seen) :=
  plain_bind plain_readCount fun _ => plain_bind plain_readCount fun _ =>
    plain_bind plain_readIndex fun _ => plain_bind plain_readText fun _ =>
    plain_bind (plain_allocOne _) fun _ => plain_bind (plain_demand _ _) fun _ => plain_pure _

theorem plain_readAddedFunctions : Plain readAddedFunctions :=
  plain_array (fun count _ _ _ => spec_allocArray .addedFunctions count _)
    fun count => plain_readGrowing plain_readAddedFunction count []

theorem plain_readConstant : Plain readConstant :=
  plain_bind plain_readCount fun _ => plain_bind plain_readCount fun count =>
    plain_bind plain_remaining fun _ => plain_bind (plain_demand _ _) fun _ =>
    plain_bind (plain_allocOne _) fun _ =>
    plain_bind (plain_collect plain_readCount count) fun _ => plain_pure _

theorem plain_readPatchGlobal (version : Nat) : Plain (readPatchGlobal version) := by
  refine plain_ite (fun _ => plain_bind plain_readByte fun kind => ?_) fun _ => plain_readConstant
  exact plain_ite (fun _ => plain_bind plain_readCount fun _ => plain_pure _) fun _ =>
    plain_ite (fun _ => plain_readConstant) fun _ => plain_fail _

theorem plain_readGlobals (version : Nat) (p : HlPatch) : Plain (readGlobals version p) := by
  refine plain_bind plain_readHash fun _ => plain_bind plain_readCount fun _ => ?_
  intro data limit sections
  refine spec_bind (spec_readCountOf .globals) fun count =>
    spec_bind (spec_boundedCount .globals count 2 _ (Nat.le_refl 1)) fun _ =>
    spec_bind (spec_allocArray .globals count _) fun _ => ?_
  exact (plain_bind (plain_collect (plain_readPatchGlobal version) count) fun _ => plain_pure _)
    data limit sections

theorem plain_readObjectField (seen : List HlPatchObjectField) : Plain (readObjectField seen) :=
  plain_bind plain_readCount fun _ => plain_bind plain_readCount fun _ =>
    plain_bind plain_readCount fun _ => plain_bind plain_readCount fun _ =>
    plain_bind (plain_demand _ _) fun _ => plain_pure _

theorem plain_readObjectFields : Plain readObjectFields :=
  plain_bind plain_readCount fun count => plain_bind plain_remaining fun _ =>
    plain_bind (plain_demand _ _) fun _ => plain_bind (plain_allocOne _) fun _ =>
    plain_readGrowing plain_readObjectField count []

theorem plain_readMigration (seen : List HlPatchMigration) : Plain (readMigration seen) :=
  plain_bind plain_readCount fun _ => plain_bind plain_readCount fun _ =>
    plain_bind (plain_demand _ _) fun _ => plain_pure _

theorem plain_readMigrations : Plain readMigrations :=
  plain_bind plain_readCount fun count => plain_bind plain_remaining fun _ =>
    plain_bind (plain_demand _ _) fun _ => plain_bind (plain_allocOne _) fun _ =>
    plain_readGrowing plain_readMigration count []

theorem plain_readGuard : Plain readGuard :=
  plain_bind plain_readCount fun _ => plain_bind plain_readText fun _ =>
    plain_bind (plain_allocOne _) fun _ => plain_pure _

theorem plain_readGlobalName : Plain readGlobalName :=
  plain_bind plain_readCount fun _ => plain_bind plain_readText fun _ =>
    plain_bind (plain_allocOne _) fun _ => plain_pure _

theorem plain_readGlobalNames : Plain readGlobalNames := by
  intro data limit sections
  refine spec_bind (spec_readCountOf .globalNames) fun count =>
    spec_bind (spec_boundedCount .globalNames count 2 _ (Nat.zero_le 1)) fun _ =>
    spec_ite (fun hzero => spec_pure fun r hr => ?_) fun _ => ?_
  · rw [hzero] at hr
    exact hr
  · refine spec_bind (spec_allocArray .globalNames count _) fun _ => ?_
    exact (plain_bind (plain_allocOne _) fun _ => plain_collect plain_readGlobalName count) data limit sections

theorem plain_readGuards : Plain readGuards := by
  intro data limit sections
  refine spec_bind (spec_readCountOf .guards) fun count =>
    spec_bind (spec_boundedCount .guards count 2 _ (Nat.le_refl 1)) fun _ =>
    spec_bind (spec_allocArray .guards count _) fun _ => ?_
  exact (plain_bind (plain_collect plain_readGuard count) fun _ =>
    plain_bind plain_readGlobalNames fun _ => plain_pure _) data limit sections

theorem plain_readSectionBody (version tag : Nat) (build : PatchBuild) :
    Plain (readSectionBody version tag build) := by
  have hthen : ∀ {γ : Type} (error : String) (k : Nat) {x : PatchReadM γ} (f : γ → HlPatchFile),
      Plain x → Plain (do once build k error; let a ← x; return f a) :=
    fun error k x f hx => plain_bind (plain_demand _ error) fun _ => plain_bind hx fun a =>
      plain_pure (f a)
  unfold readSectionBody
  simp only
  split
  · exact hthen _ _ _ (plain_readSymbols version _)
  · exact hthen _ _ _ plain_readFunctions
  · exact plain_bind (plain_demand _ _) fun _ => plain_bind (plain_readDebug _) fun _ => plain_pure _
  · exact hthen _ _ _ plain_readSnapshots
  · exact hthen _ _ _ plain_readAddedFunctions
  · exact hthen _ _ _ (plain_readGlobals version _)
  · exact hthen _ _ _ plain_readObjectFields
  · exact hthen _ _ _ plain_readMigrations
  · exact hthen _ _ _ plain_readGuards
  · intro data limit sections
    refine spec_bind (spec_modify fun r hr => ?_) fun _ => spec_pure fun _ h => h
    exact ⟨hr.buffer, hr.ends, Nat.le_of_eq hr.ends, hr.room, hr.done, hr.owes, hr.inside⟩

theorem take_eq_ok {p : List UInt8} (h : take count fault r = .ok p s) :
    r.pos + count ≤ r.limit ∧ p = (r.data.drop r.pos).take count ∧
      s = { r with pos := r.pos + count, reads := (r.pos, count) :: r.reads } := by
  obtain ⟨_, _, hget, h⟩ := bind_eq_ok.mp h
  cases hget
  split at h
  · cases h
  · cases h
    exact ⟨by omega, rfl, rfl⟩

theorem readByte_eq_ok (h : readByte fault r = .ok b s) :
    r.pos < r.limit ∧ b = r.data.getD r.pos 0 ∧
      s = { r with pos := r.pos + 1, reads := (r.pos, 1) :: r.reads } := by
  obtain ⟨p, t, htake, h⟩ := bind_eq_ok.mp h
  obtain ⟨hroom, rfl, rfl⟩ := take_eq_ok htake
  cases h
  refine ⟨hroom, ?_, rfl⟩
  simp [List.getD_eq_getElem?_getD]

theorem readIndex_pos {v : Int} (h : readIndex fault r = .ok v s) : r.pos < s.pos := by
  obtain ⟨first, t, hbyte, h⟩ := bind_eq_ok.mp h
  obtain ⟨-, -, rfl⟩ := readByte_eq_ok hbyte
  split at h
  · cases h
    exact Nat.lt_succ_self _
  · split at h
    all_goals
      obtain ⟨p, t, htake, h⟩ := bind_eq_ok.mp h
      obtain ⟨-, -, rfl⟩ := take_eq_ok htake
      cases h
      simp only
      omega

theorem readCount_pos {n : Nat} (h : readCount r = .ok n s) : r.pos < s.pos := by
  obtain ⟨v, t, hindex, h⟩ := bind_eq_ok.mp h
  split at h
  · cases h
  · cases h
    exact readIndex_pos hindex

/-- The sections fill the buffer from `p` to `q`: each starts where the one before it ends, and
reading it has ended where it says. -/
def Consecutive : Nat → List PatchSection → Nat → Prop
  | p, [], q => p = q
  | p, s :: rest, q =>
    s.header = p ∧ s.header < s.start ∧ s.stop = s.start + s.length ∧ Consecutive s.stop rest q

theorem Consecutive.snoc {p q : Nat} {l : List PatchSection} {s : PatchSection}
    (h : Consecutive p l q) (hheader : s.header = q) (hstart : s.header < s.start)
    (hstop : s.stop = s.start + s.length) : Consecutive p (l ++ [s]) s.stop := by
  induction l generalizing p with
  | nil => exact ⟨hheader.trans (Eq.symm h), hstart, hstop, rfl⟩
  | cons first rest ih =>
    obtain ⟨hfirst, hlt, hlast, hrest⟩ := h
    exact ⟨hfirst, hlt, hlast, ih hrest⟩

def Sectioned (data : List UInt8) (start : Nat) (r : PatchReader) : Prop :=
  ∃ done, Reading data data.length done [] r ∧ Consecutive start done r.pos

theorem spec_inSection {tag header length : Nat} {done : List PatchSection} (hx : Plain x)
    (hdone : Consecutive start done header) :
    Spec (fun r => Reading data data.length done [] r ∧ header < r.pos ∧
        r.pos + length ≤ data.length) (inSection tag header length x)
      (fun _ => Sectioned data start) (Stopped data) := by
  refine spec_get_bind fun r ⟨hr, hheader, hroom⟩ => ?_
  refine spec_bind (Q := fun _ => Reading data (r.pos + length) done []) (spec_set ?_) fun _ =>
    spec_bind (hx data (r.pos + length) done) fun a => spec_get_bind fun s hs =>
    spec_ite (fun _ => ?_) fun hend => spec_bind (spec_set ?_) fun _ => spec_pure fun _ h => h
  · exact ⟨hr.buffer, rfl, Nat.le_add_right _ _, hroom, hr.done, hr.owes, hr.inside⟩
  · exact spec_throw fun _ h => h ▸ hs.stopped (by simp [PatchFault.Owes])
  · have hpos : s.pos = r.pos + length := (not_not.mp hend).trans hs.ends
    refine ⟨done ++ [⟨tag, header, r.pos, length, s.pos⟩], ?_, hdone.snoc rfl hheader hpos⟩
    exact ⟨hs.buffer, hr.ends, hpos ▸ hroom, Nat.le_refl _, by simp [hs.done], hs.owes, hs.inside⟩

/-- The reader has come past `header`. -/
def Past (data : List UInt8) (done : List PatchSection) (header : Nat) (r : PatchReader) : Prop :=
  Reading data data.length done [] r ∧ header < r.pos

theorem spec_sectionTag (done : List PatchSection) (header : Nat) :
    Spec (fun r => Reading data data.length done [] r ∧ r.pos = header) readByte
      (fun _ => Past data done header) (Stopped data) := by
  have hbyte : Spec (fun r => Reading data data.length done [] r ∧ r.pos = header) readByte
      (fun _ => Reading data data.length done []) (Stopped data) :=
    (plain_readByte data data.length done).pre fun _ h => h.1
  refine hbyte.returns fun r b s h hrun => ?_
  obtain ⟨-, -, rfl⟩ := readByte_eq_ok hrun
  rw [← h.2]
  exact Nat.lt_succ_self _

theorem spec_sectionLength (done : List PatchSection) (header : Nat) :
    Spec (Past data done header) readCount (fun _ => Past data done header) (Stopped data) := by
  have hcount : Spec (Past data done header) readCount
      (fun _ => Reading data data.length done []) (Stopped data) :=
    (plain_readCount data data.length done).pre fun _ h => h.1
  exact hcount.returns fun r n s h hrun => Nat.lt_trans h.2 (readCount_pos hrun)

theorem spec_readSection (version : Nat) (build : PatchBuild) :
    Spec (Sectioned data start) (readSection version build) (fun _ => Sectioned data start) (Stopped data) := by
  intro r ⟨done, hr, hdone⟩
  have hspec : Spec (fun t => t = r) (readSection version build) (fun _ => Sectioned data start)
      (Stopped data) := by
    refine spec_bind (Q := fun header t => header = r.pos ∧ t = r)
      (spec_get_bind fun t ht => spec_pure fun u hu => ⟨ht ▸ rfl, hu.trans ht⟩) fun header =>
      spec_given fun hheader => ?_
    subst hheader
    refine spec_bind ((spec_sectionTag done r.pos).pre fun t ht => ⟨ht ▸ hr, ht ▸ rfl⟩)
      fun tag => spec_bind (spec_sectionLength done r.pos) fun length => ?_
    refine spec_bind (Q := fun rest t => Past data done r.pos t ∧ rest = t.limit - t.pos)
      (spec_get_bind fun t ht => spec_pure fun u hu => ⟨hu ▸ ht, hu ▸ rfl⟩) fun rest =>
      spec_ite (fun _ => spec_throw fun t ht => ht.1.1.stopped nil_owes_truncated) fun hroom => ?_
    refine spec_bind ((spec_inSection (plain_readSectionBody version _ build) hdone).pre
      fun t ⟨⟨ht, hpast⟩, hrest⟩ => ⟨ht, hpast, ?_⟩) fun file => spec_pure fun _ h => h
    have hends := ht.ends
    have hpos := ht.pos
    omega
  exact hspec r rfl

theorem spec_readSections (version count : Nat) (build : PatchBuild) :
    Spec (Sectioned data start) (readSections version count build) (fun _ => Sectioned data start)
      (Stopped data) := by
  induction count generalizing build with
  | zero => exact spec_pure fun _ h => h
  | succ count ih => exact spec_bind (spec_readSection version build) fun build => ih build

theorem plain_readHeader : Plain readHeader :=
  plain_bind (plain_allocOne _) fun _ => plain_bind (plain_take 3) fun _ =>
    plain_bind (plain_demand _ _) fun _ => plain_bind plain_readByte fun _ =>
    plain_bind (plain_demand _ _) fun _ => plain_bind (plain_take 16) fun _ =>
    plain_bind plain_readCount fun _ => plain_bind plain_readCount fun _ =>
    plain_bind (plain_demand _ _) fun _ => plain_bind plain_readCount fun _ => plain_pure _

def ReadWhole (data : List UInt8) (r : PatchReader) : Prop :=
  Inside data r ∧ ∃ start, Consecutive start r.sections data.length

theorem spec_demand {P : PatchReader → Prop} (ok : Bool) (error : String)
    (h : ∀ r, P r → ∃ limit sections, Reading data limit sections [] r) :
    Spec P (demand ok error) (fun _ r => P r ∧ ok = true) (Stopped data) := by
  refine spec_ite (fun hok => spec_pure fun _ hr => ⟨hr, hok⟩) fun _ => spec_throw fun r hr => ?_
  obtain ⟨_, _, hreading⟩ := h r hr
  exact hreading.stopped (by simp [PatchFault.Owes])

theorem spec_readPatch (data : List UInt8) (memory : Nat → Bool) :
    Spec (fun r => r = .start data memory) readPatch (fun _ => ReadWhole data) (Stopped data) := by
  have hstart : Reading data data.length [] [] (.start data memory) :=
    ⟨rfl, rfl, Nat.zero_le _, Nat.le_refl _, rfl, rfl, by simp [Inside, PatchReader.start]⟩
  refine spec_bind ((plain_readHeader data data.length []).pre fun _ h => h ▸ hstart)
    fun ⟨version, file, sectionCount⟩ => ?_
  intro r hr
  have hspec : Spec (fun t => t = r) (do
      let build ← readSections version sectionCount { file, tags := [] }
      demand (1 ∈ build.tags && 2 ∈ build.tags) "Missing required HLP section"
      let r ← get
      demand (r.pos == r.limit) "Trailing HLP data"
      return build.file) (fun _ => ReadWhole data) (Stopped data) := by
    have hsections : Spec (fun t => t = r) (readSections version sectionCount { file, tags := [] })
        (fun _ => Sectioned data r.pos) (Stopped data) :=
      (spec_readSections version sectionCount _).pre fun t ht => ⟨[], ht ▸ hr, ht ▸ rfl⟩
    have hreading : ∀ t, Sectioned data r.pos t → ∃ limit sections,
        Reading data limit sections [] t := fun t ⟨done, ht, _⟩ => ⟨_, done, ht⟩
    refine spec_bind hsections fun build => spec_bind (spec_demand _ _ hreading) fun _ => ?_
    refine spec_get_bind fun s ⟨⟨done, hs, hdone⟩, _⟩ => ?_
    refine spec_bind (spec_demand _ _ fun t ht => ⟨_, done, ht ▸ hs⟩) fun _ => spec_pure ?_
    rintro t ⟨rfl, hend⟩
    have hpos : t.pos = data.length := (eq_of_beq hend).trans hs.ends
    exact ⟨hs.inside, r.pos, hs.done ▸ hpos ▸ hdone⟩
  exact hspec r rfl

structure SamePlace (r : PatchReader) (h : Code.HlReader) : Prop where
  bytes : h.b = Code.bytesOf r.data
  pos : h.pos = r.pos
  size : h.size = r.limit
  int : h.size < 2 ^ 31

theorem hlReadB_eq_ok {h h' : Code.HlReader} (hrun : Code.hlReadB h = .ok b h') (hclean : h'.Clean) :
    h.pos < h.size ∧ b = h.b h.pos ∧ h' = h.access 1 := by
  obtain ⟨_, _, hget, hrun⟩ := bind_eq_ok.mp hrun
  cases hget
  split at hrun
  · obtain ⟨_, _, hnote, hrun⟩ := bind_eq_ok.mp hrun
    cases hnote
    cases hrun
    exact absurd hclean (by simp [Code.HlReader.Clean])
  · cases hrun
    exact ⟨by omega, rfl, rfl⟩

theorem SamePlace.next {h h' : Code.HlReader} {k : Nat} (hsame : SamePlace r h) {g : Code.HlReader}
    (hb : g.b = h.b) (hsize : g.size = h.size) (hpos : g.pos = r.pos + k) (hrun : Code.hlReadB g = .ok b h')
    (hclean : h'.Clean) :
    b = r.data.getD (r.pos + k) 0 ∧ h'.b = h.b ∧ h'.size = h.size ∧ h'.pos = r.pos + ((k + 1 : Nat) : Int) := by
  obtain ⟨hlt, rfl, rfl⟩ := hlReadB_eq_ok hrun hclean
  have hint := hsame.int
  have hnext : Code.addInt g.pos 1 = g.pos + 1 := Code.addInt_eq (by omega) (by omega)
  refine ⟨?_, hb, hsize, ?_⟩
  · rw [hb, hsame.bytes, hpos]
    rfl
  · show Code.addInt g.pos 1 = _
    rw [hnext, hpos]
    omega

theorem take_getD {i : Nat} (h : i < count) (l : List UInt8) (p : Nat) :
    ((l.drop p).take count).getD i 0 = l.getD (p + i) 0 := by
  simp [List.getD_eq_getElem?_getD, List.getElem?_take_of_lt h]

theorem low_seven_bits (b : UInt8) (h : b.toNat &&& 0x80 = 0) : b.toNat &&& 0x7F = b.toNat := by
  have hall : ∀ n : Fin 256, n.val &&& 0x80 = 0 → n.val &&& 0x7F = n.val := by
    decide +kernel
  exact hall ⟨b.toNat, b.toNat_lt⟩ h

theorem readIndex_agrees {h h' : Code.HlReader} {v v' : Int} (hsame : SamePlace r h)
    (hrun : readIndex fault r = .ok v s) (hrun' : Code.hlReadIndex h = .ok v' h') (hclean : h'.Clean) :
    v = v' ∧ h'.pos = s.pos := by
  obtain ⟨first, t, hbyte, hrun⟩ := bind_eq_ok.mp hrun
  obtain ⟨-, hfirst, rfl⟩ := readByte_eq_ok hbyte
  obtain ⟨b, h₁, hb, hrest⟩ := bind_eq_ok.mp hrun'
  have hstart : h.pos = r.pos + ((0 : Nat) : Int) := by
    rw [hsame.pos]
    omega
  -- an error in the first byte would still be noted at the end
  have hyields : Yields Code.HlReader.Clean (do
      if b.toNat &&& 0x80 = 0 then return ((b.toNat &&& 0x7F : Nat) : Int)
      else if b.toNat &&& 0x40 = 0 then
        let c := (← Code.hlReadB).toNat
        return Code.indexSign b.toNat (c ||| (b.toNat &&& 31) <<< 8)
      else
        let c := (← Code.hlReadB).toNat
        let d := (← Code.hlReadB).toNat
        let e := (← Code.hlReadB).toNat
        return Code.indexSign b.toNat ((b.toNat &&& 31) <<< 24 ||| c <<< 16 ||| d <<< 8 ||| e))
      fun _ => True :=
    yields_ite (fun _ => yields_pure trivial) fun _ => yields_ite
      (fun _ => yields_bind Code.hlReadB_clean fun _ => yields_pure fun _ => trivial) fun _ =>
      yields_bind Code.hlReadB_clean fun _ => yields_bind Code.hlReadB_clean fun _ =>
        yields_bind Code.hlReadB_clean fun _ => yields_pure fun _ _ _ => trivial
  have hclean₁ := (hyields h₁ v' h' hrest hclean).1
  obtain ⟨hb', hbytes₁, hsize₁, hpos₁⟩ := hsame.next rfl rfl hstart hb hclean₁
  obtain rfl : b = first := hb'.trans hfirst.symm
  by_cases hone : b.toNat &&& 0x80 = 0
  · rw [if_pos hone] at hrun hrest
    cases hrun
    cases hrest
    exact ⟨congrArg Int.ofNat (low_seven_bits b hone).symm, hpos₁⟩
  rw [if_neg hone] at hrun hrest
  by_cases htwo : b.toNat &&& 0x40 = 0
  · rw [if_pos htwo] at hrun hrest
    obtain ⟨p, t, htake, hrun⟩ := bind_eq_ok.mp hrun
    obtain ⟨-, rfl, rfl⟩ := take_eq_ok htake
    obtain ⟨c, h₂, hc, hrest⟩ := bind_eq_ok.mp hrest
    cases hrest
    cases hrun
    obtain ⟨rfl, -, -, hpos₂⟩ := hsame.next hbytes₁ hsize₁ hpos₁ hc hclean
    refine ⟨?_, hpos₂⟩
    rw [take_getD (by omega)]
    rfl
  · rw [if_neg htwo] at hrun hrest
    obtain ⟨p, t, htake, hrun⟩ := bind_eq_ok.mp hrun
    obtain ⟨-, rfl, rfl⟩ := take_eq_ok htake
    obtain ⟨c, h₂, hc, hrest⟩ := bind_eq_ok.mp hrest
    obtain ⟨d, h₃, hd, hrest⟩ := bind_eq_ok.mp hrest
    obtain ⟨e, h₄, he, hrest⟩ := bind_eq_ok.mp hrest
    cases hrest
    cases hrun
    have hclean₃ := (Code.hlReadB_clean h₃ e h' he hclean).1
    have hclean₂ := (Code.hlReadB_clean h₂ d h₃ hd hclean₃).1
    obtain ⟨rfl, hbytes₂, hsize₂, hpos₂⟩ := hsame.next hbytes₁ hsize₁ hpos₁ hc hclean₂
    obtain ⟨rfl, hbytes₃, hsize₃, hpos₃⟩ := hsame.next hbytes₂ hsize₂ hpos₂ hd hclean₃
    obtain ⟨rfl, -, -, hpos₄⟩ := hsame.next hbytes₃ hsize₃ hpos₃ he hclean
    refine ⟨?_, hpos₄⟩
    rw [take_getD (by omega), take_getD (by omega), take_getD (by omega)]
    rfl

/-- The reader `hl_patch_read` ends with. -/
def patchReader (data : List UInt8) (memory : Nat → Bool) : PatchReader :=
  finalState readPatch (.start data memory)

/-- Reading the buffer does not stop at a fault that leaves a count behind, nor for want of memory
that is not asked about. -/
def StopsClean (data : List UInt8) (memory : Nat → Bool) : Prop :=
  match readPatch (.start data memory) with
  | .ok _ _ => True
  | .error (.failed _ fault) _ => ¬fault.Owes
  | .error .crashed _ => False

/-- `hl_patch_read` returns; it reads in the buffer only; a patch it returns was read to the end of
every section and of the buffer; and its indices are those of the bytecode. -/
structure ReadsExactly (data : List UInt8) (memory : Nat → Bool) : Prop where
  returns : hlPatchRead data memory ≠ .crashed
  inside : Inside data (patchReader data memory)
  whole : ∀ file, hlPatchRead data memory = .accepted file →
    ∃ start, Consecutive start (patchReader data memory).sections data.length
  index : ∀ (r s : PatchReader) (h h' : Code.HlReader) (v v' : Int), r.data = data →
    SamePlace r h → readIndex .truncated r = .ok v s → Code.hlReadIndex h = .ok v' h' → h'.Clean →
    v = v' ∧ h'.pos = s.pos

theorem patchReader_inside (data : List UInt8) (memory : Nat → Bool) :
    Inside data (patchReader data memory) := by
  have hspec := spec_readPatch data memory _ rfl
  unfold patchReader finalState
  cases hrun : readPatch (.start data memory) with
  | ok file r =>
    rw [hrun] at hspec
    exact hspec.1
  | error stop r =>
    rw [hrun] at hspec
    exact hspec.1

theorem accepted_whole {memory : Nat → Bool} {file : HlPatchFile}
    (h : hlPatchRead data memory = .accepted file) :
    ∃ start, Consecutive start (patchReader data memory).sections data.length := by
  have hspec := spec_readPatch data memory _ rfl
  unfold hlPatchRead at h
  unfold patchReader finalState
  cases hrun : readPatch (.start data memory) with
  | ok file r =>
    rw [hrun] at hspec
    exact hspec.2
  | error stop r =>
    rw [hrun] at h
    cases stop with
    | failed error fault =>
      simp only [hlPatchFree] at h
      split at h <;> cases h
    | crashed => cases h

theorem returns_iff (data : List UInt8) (memory : Nat → Bool) :
    hlPatchRead data memory ≠ .crashed ↔ StopsClean data memory := by
  have hspec := spec_readPatch data memory _ rfl
  unfold hlPatchRead StopsClean
  cases hrun : readPatch (.start data memory) with
  | ok file r => simp
  | error stop r =>
    rw [hrun] at hspec
    cases stop with
    | failed error fault =>
      have howes : r.owed ≠ [] ↔ fault.Owes := hspec.2
      simp only [hlPatchFree, ← howes, not_not]
      cases r.owed <;> simp
    | crashed => simp

/-- `hl_patch_read` is exact on a buffer if and only if reading it does not stop at the count of one
of the arrays `hl_patch_free` walks being too large or more than its section has room for, among
the registers of a function that has instructions, or for want of memory for such an array. -/
theorem hlPatchRead_exact_iff (data : List UInt8) (memory : Nat → Bool) :
    ReadsExactly data memory ↔ StopsClean data memory := by
  refine ⟨fun h => (returns_iff data memory).mp h.returns, fun h => ?_⟩
  refine ⟨(returns_iff data memory).mpr h, patchReader_inside data memory,
    fun file haccepted => accepted_whole haccepted, ?_⟩
  intro r s g g' v v' _ hsame hrun hrun' hclean
  exact readIndex_agrees hsame hrun hrun' hclean

def PatchOutcome.isCrashed : PatchOutcome → Bool
  | .crashed => true
  | _ => false

def truncatedRegisters : List UInt8 :=
  [0x48, 0x4C, 0x50, 10] ++ List.replicate 16 0 ++ [0, 1, 1, 2, 7, 1, 5, 0, 0, 0, 1, 1]

theorem truncatedRegisters_crashes :
    hlPatchRead truncatedRegisters (fun _ => true) = .crashed ∧ ¬∀ data memory, ReadsExactly data memory := by
  have hcheck : (hlPatchRead truncatedRegisters fun _ => true).isCrashed = true := by decide +kernel
  have hcrash : hlPatchRead truncatedRegisters (fun _ => true) = .crashed := by
    cases houtcome : hlPatchRead truncatedRegisters (fun _ => true) with
    | crashed => rfl
    | accepted file => simp [houtcome, PatchOutcome.isCrashed] at hcheck
    | refused error => simp [houtcome, PatchOutcome.isCrashed] at hcheck
  exact ⟨hcrash, fun hall => (hall _ _).returns hcrash⟩

end HashLink.Hlp
