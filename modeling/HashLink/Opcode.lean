/-!
The bytecode opcodes, in the order of `opcodes.h`, with the shape of their operands.
-/

namespace HashLink

/-- The opcodes of `opcodes.h`, without the `OLast` that ends the list. -/
inductive HlOp where
  | oMov | oInt | oFloat | oBool | oBytes | oString | oNull | oAdd | oSub | oMul | oSDiv | oUDiv
  | oSMod | oUMod | oShl | oSShr | oUShr | oAnd | oOr | oXor | oNeg | oNot | oIncr | oDecr
  | oCall0 | oCall1 | oCall2 | oCall3 | oCall4 | oCallN | oCallMethod | oCallThis | oCallClosure
  | oStaticClosure | oInstanceClosure | oVirtualClosure | oGetGlobal | oSetGlobal | oField
  | oSetField | oGetThis | oSetThis | oDynGet | oDynSet | oJTrue | oJFalse | oJNull | oJNotNull
  | oJSLt | oJSGte | oJSGt | oJSLte | oJULt | oJUGte | oJNotLt | oJNotGte | oJEq | oJNotEq
  | oJAlways | oToDyn | oToSFloat | oToUFloat | oToInt | oSafeCast | oUnsafeCast | oToVirtual
  | oLabel | oRet | oThrow | oRethrow | oSwitch | oNullCheck | oTrap | oEndTrap | oGetI8
  | oGetI16 | oGetMem | oGetArray | oSetI8 | oSetI16 | oSetMem | oSetArray | oNew | oArraySize
  | oType | oGetType | oGetTID | oRef | oUnref | oSetref | oMakeEnum | oEnumAlloc | oEnumIndex
  | oEnumField | oSetEnumField | oAssert | oRefData | oRefOffset | oNop | oPrefetch | oAsm
  | oCatch | oCleanupTrap | oEndCleanupTrap
  deriving DecidableEq, Repr, Inhabited

/-- What an operand column of `opcodes.h` stands for. -/
inductive OperandKind where
  | x
  | r
  | rNw
  | c
  | g
  | j
  | ar
  | varArgs
  | count (n : Nat)
  deriving DecidableEq, Repr

/-- The three operand columns of an opcode. -/
structure OperandShape where
  first : OperandKind
  second : OperandKind
  third : OperandKind
  deriving DecidableEq, Repr

def HlOp.shape : HlOp → OperandShape
  | .oMov | .oNeg | .oNot | .oToDyn | .oToSFloat | .oToUFloat | .oToInt | .oSafeCast
  | .oUnsafeCast | .oToVirtual | .oArraySize | .oGetType | .oGetTID | .oRef | .oUnref
  | .oEnumAlloc | .oEnumIndex | .oRefData => ⟨.r, .r, .x⟩
  | .oInt | .oFloat | .oBytes | .oString | .oStaticClosure | .oGetGlobal | .oGetThis
  | .oType => ⟨.r, .g, .x⟩
  | .oBool | .oCall0 => ⟨.r, .c, .x⟩
  | .oNull | .oIncr | .oDecr | .oEndTrap | .oNew | .oEndCleanupTrap => ⟨.r, .x, .x⟩
  | .oAdd | .oSub | .oMul | .oSDiv | .oUDiv | .oSMod | .oUMod | .oShl | .oSShr | .oUShr | .oAnd
  | .oOr | .oXor | .oGetI8 | .oGetI16 | .oGetMem | .oGetArray | .oSetI8 | .oSetI16 | .oSetMem
  | .oSetArray => ⟨.r, .r, .r⟩
  | .oCall1 | .oInstanceClosure => ⟨.r, .c, .r⟩
  | .oCall2 | .oEnumField => ⟨.r, .ar, .count 4⟩
  | .oCall3 => ⟨.r, .ar, .count 5⟩
  | .oCall4 => ⟨.r, .ar, .count 6⟩
  | .oCallN | .oCallMethod | .oCallThis | .oCallClosure | .oMakeEnum => ⟨.r, .ar, .varArgs⟩
  | .oVirtualClosure | .oField => ⟨.r, .r, .g⟩
  | .oSetGlobal | .oSetThis => ⟨.g, .r, .x⟩
  | .oSetField => ⟨.rNw, .g, .r⟩
  | .oDynGet | .oRefOffset => ⟨.r, .r, .c⟩
  | .oDynSet => ⟨.rNw, .c, .r⟩
  | .oJTrue | .oJFalse | .oJNull | .oJNotNull | .oTrap | .oCleanupTrap => ⟨.rNw, .j, .x⟩
  | .oJSLt | .oJSGte | .oJSGt | .oJSLte | .oJULt | .oJUGte | .oJNotLt | .oJNotGte | .oJEq
  | .oJNotEq => ⟨.rNw, .r, .j⟩
  | .oJAlways | .oCatch => ⟨.j, .x, .x⟩
  | .oLabel | .oAssert | .oNop => ⟨.x, .x, .x⟩
  | .oRet | .oThrow | .oRethrow | .oNullCheck => ⟨.rNw, .x, .x⟩
  | .oSwitch => ⟨.rNw, .ar, .varArgs⟩
  | .oSetref => ⟨.rNw, .r, .x⟩
  | .oSetEnumField => ⟨.rNw, .r, .c⟩
  | .oPrefetch => ⟨.rNw, .c, .c⟩
  | .oAsm => ⟨.c, .c, .c⟩

def OperandKind.width (kind : OperandKind) : Nat := if kind = .x then 0 else 1

/-- `opcode_operands`: how many operands an opcode has, `none` where the bytecode says how many. -/
def HlOp.operands (op : HlOp) : Option Nat :=
  match op.shape with
  | ⟨_, _, .varArgs⟩ => none
  | ⟨_, .ar, .count n⟩ => some n
  | shape => some (shape.first.width + shape.second.width + shape.third.width)

end HashLink
