import Mathlib.Data.Int.Notation
import Mathlib.Data.List.Basic
import Mathlib.Data.Nat.Notation
import Mathlib.Tactic

/-!
# LLVM values

The part of LLVM IR that the type search reads: the values of a module, who uses whom, the debug
records that tie source variables to values, and debug locations. Values are named by `ν` and
debug-info nodes by `ι`. A pointer of the source that may be null is an `Option`.
-/

set_option autoImplicit false

namespace Dimeta

variable {ι ν : Type*}

/-- LLVM types, as far as a GEP's source element type is inspected. -/
inductive LLType where
  | pointer
  | integer (bits : ℕ)
  | array (numElements : ℕ) (element : LLType)
  | struct (elements : List LLType)
  | other

namespace LLType

def isPointerTy : LLType → Bool
  | .pointer => true
  | _        => false

def isIntegerTy (bits : ℕ) : LLType → Bool
  | .integer n => n == bits
  | _          => false

def isArrayTy : LLType → Bool
  | .array _ _ => true
  | _          => false

end LLType

/-- A subprogram: the type array `[return, p₁, p₂, …]`, where null stands for `void` or for a
variadic tail. -/
structure DISubprogram (ι : Type*) where
  typeArray : List (Option ι)
  deriving DecidableEq

structure DILocalVariable (ι : Type*) where
  name : String
  type : Option ι
  deriving DecidableEq

structure LLFunction (ι : Type*) where
  name : String
  subprogram : Option (DISubprogram ι)
  deriving DecidableEq

/-- Intrinsic functions; the first four are the `MemIntrinsic`s. -/
inductive Intrinsic where
  | memcpy
  | memcpyInline
  | memmove
  | memset
  | other
  deriving DecidableEq

def Intrinsic.name : Intrinsic → String
  | .memcpy       => "llvm.memcpy"
  | .memcpyInline => "llvm.memcpy.inline"
  | .memmove      => "llvm.memmove"
  | .memset       => "llvm.memset"
  | .other        => "llvm.other"

/-- What a call base calls. -/
inductive Callee (ι ν : Type*) where
  | indirect (operand : ν)
  | intrinsic (id : Intrinsic)
  | function (f : LLFunction ι)
  deriving DecidableEq

/-- `getCalledFunction`. Intrinsics are functions without a subprogram. -/
def Callee.calledFunction : Callee ι ν → Option (LLFunction ι)
  | .indirect _   => none
  | .intrinsic id => some ⟨id.name, none⟩
  | .function f   => some f

inductive CallOpcode where
  | call
  | invoke
  | callBr
  deriving DecidableEq

/-- A `GEPOperator`, instruction or constant expression. An index that is no constant integer is
`none`. -/
structure GEPOperator (ν : Type*) where
  sourceElementType : LLType
  pointerOperand : ν
  indices : List (Option ℤ)
  dynamicOperands : List ν

/-- Values by what the search distinguishes. -/
inductive LLValue (ι ν : Type*) where
  | argument (parent : LLFunction ι) (argNo : ℕ) (structRet : Bool)
  | globalVariable (dbg : Option (Option ι)) (initializer : Option ν)
  | constantInt (value : ℤ)
  | constantGEP (gep : GEPOperator ν)
  | constantBitCast (operand : ν)
  | constantExpr (operands : List ν)
  | constant
  | alloca
  | store (valueOperand pointerOperand : ν)
  | load (pointerOperand : ν)
  | getElementPtr (gep : GEPOperator ν)
  | bitCast (operand : ν)
  | sext (operand : ν)
  | phi (incoming : List ν)
  | call (opcode : CallOpcode) (callee : Callee ι ν) (args : List ν) (heapallocsite : Option ι)
  | ret (parent : LLFunction ι) (returnValue : Option ν)
  | instruction (operands : List ν)

namespace LLValue

def operands : LLValue ι ν → List ν
  | .argument _ _ _ | .constantInt _ | .constant | .alloca => []
  | .globalVariable _ initializer => initializer.toList
  | .constantGEP gep | .getElementPtr gep => gep.pointerOperand :: gep.dynamicOperands
  | .constantBitCast v | .load v | .bitCast v | .sext v => [v]
  | .constantExpr vs | .phi vs | .instruction vs => vs
  | .store v p => [v, p]
  | .call _ (.indirect f) args _ => args ++ [f]
  | .call _ _ args _ => args
  | .ret _ v => v.toList

def isInstruction : LLValue ι ν → Bool
  | .alloca | .store _ _ | .load _ | .getElementPtr _ | .bitCast _ | .sext _ | .phi _
  | .call _ _ _ _ | .ret _ _ | .instruction _ => true
  | _ => false

def isCallBase : LLValue ι ν → Bool
  | .call _ _ _ _ => true
  | _             => false

def isAlloca : LLValue ι ν → Bool
  | .alloca => true
  | _       => false

def isArgument : LLValue ι ν → Bool
  | .argument _ _ _ => true
  | _               => false

def isGlobalVariable : LLValue ι ν → Bool
  | .globalVariable _ _ => true
  | _                   => false

def isLoad : LLValue ι ν → Bool
  | .load _ => true
  | _       => false

/-- `isa<IntrinsicInst>`: a plain call of an intrinsic. -/
def isIntrinsicInst : LLValue ι ν → Bool
  | .call .call (.intrinsic _) _ _ => true
  | _                              => false

/-- `MemCpyInst::classof` -/
def isMemCpy : LLValue ι ν → Bool
  | .call .call (.intrinsic .memcpy) _ _       => true
  | .call .call (.intrinsic .memcpyInline) _ _ => true
  | _                                          => false

/-- `isa<MemIntrinsic>` -/
def isMemIntrinsic : LLValue ι ν → Bool
  | .call .call (.intrinsic .other) _ _ => false
  | .call .call (.intrinsic _) _ _      => true
  | _                                   => false

/-- `isa<GEPOperator>`: a GEP instruction or a constant GEP. -/
def gepOperator : LLValue ι ν → Option (GEPOperator ν)
  | .getElementPtr gep | .constantGEP gep => some gep
  | _ => none

end LLValue

/-- The scope of a debug location. -/
inductive DIScope (ι : Type*) where
  | subprogram (s : DISubprogram ι)
  | lexicalBlock

structure DebugLoc (ι : Type*) where
  inlinedAt : Bool
  scope : DIScope ι

/-- A debug record (or intrinsic): the value it describes, see `get_alloca_for`, the variable,
and whether its expression is a fragment. -/
structure DbgRecord (ι ν : Type*) where
  location : Option ν
  diVariable : DILocalVariable ι
  isFragment : Bool

/-- A module. The use list of a value holds exactly the values that have it as an operand, in
any order and possibly repeated. -/
structure IRModule (ι ν : Type*) where
  value : ν → LLValue ι ν
  users : ν → List ν
  mem_users : ∀ v u, u ∈ users v ↔ v ∈ (value u).operands
  debugLoc : ν → Option (DebugLoc ι)
  dbgRecords : List (DbgRecord ι ν)

/-! ### Debug variables of values -/

namespace IRModule

variable [DecidableEq ν] (M : IRModule ι ν)

def findIntrinsic (inst : ν) : Option (DbgRecord ι ν) :=
  M.dbgRecords.find? fun r => r.location = some inst

/-- The variable of an instruction, or of the first bitcast or load among its users that has
one. -/
def findLocalVariable (inst : ν) : Option (DILocalVariable ι) :=
  let findDiVar v := (M.findIntrinsic v).map (·.diVariable)
  match findDiVar inst with
  | some v => some v
  | none   => (M.users inst).findSome? fun user =>
      match M.value user with
      | .bitCast _ | .load _ => findDiVar user
      | _                    => none

/-- The variable a call result is assigned to, and whether only a fragment of it is. -/
def getArrayAccessAssignment (call : ν) : Option (DILocalVariable ι × Bool) :=
  (M.findIntrinsic call).map fun r => (r.diVariable, r.isFragment)

end IRModule

end Dimeta
