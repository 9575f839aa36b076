/-
The intermediate representation: functions of labelled basic blocks over
typed values. Every intermediate result is a numbered temporary, defined
once; variables live in named slots that are loaded from and stored to. An
integer constant is kept as its decimal text. Consumed by the lowering of
programs and by the printer.
-/
import MiniC.Operator
import MiniC.Ty

namespace MiniC.IR

-- ================================================================ types

/-- The types of values: integers by their bits, two floating types,
addresses, and the type of no value. -/
inductive Ty where
  | i1
  | i8
  | i16
  | i32
  | i64
  | float
  | double
  | ptr
  | void
deriving DecidableEq, Repr

namespace Ty

/-- How a source type is represented; an aggregate is not. -/
def ofSource? : MiniC.Ty → Option Ty
  | .void => some .void
  | .bool => some .i1
  | .char => some .i8
  | .short => some .i16
  | .int => some .i32
  | .long => some .i64
  | .float => some .float
  | .double => some .double
  | .string => some .ptr
  | .named _ => none

/-- The size in bytes. -/
def size : Ty → Nat
  | .i1 => 1
  | .i8 => 1
  | .i16 => 2
  | .i32 => 4
  | .i64 => 8
  | .float => 4
  | .double => 8
  | .ptr => 8
  | .void => 0

/-- The size in bits; a truth value has one. -/
def bits : Ty → Nat
  | .i1 => 1
  | ty => ty.size * 8

/-- Whether the type is an integer type. -/
def isInteger : Ty → Bool
  | .i1 | .i8 | .i16 | .i32 | .i64 => true
  | _ => false

/-- Whether the type is a floating type. -/
def isFloating : Ty → Bool
  | .float | .double => true
  | _ => false

/-- The type as it is written. -/
def spelling : Ty → String
  | .i1 => "i1"
  | .i8 => "i8"
  | .i16 => "i16"
  | .i32 => "i32"
  | .i64 => "i64"
  | .float => "float"
  | .double => "double"
  | .ptr => "ptr"
  | .void => "void"

end Ty

-- =============================================================== values

/-- A value: a constant with its text, a numbered temporary, or a parameter
as it arrives. -/
inductive Value where
  | constant (ty : Ty) (text : String)
  | temp (ty : Ty) (index : Nat)
  | argument (ty : Ty) (name : String)
deriving DecidableEq, Repr

/-- The type of a value. -/
def Value.ty : Value → Ty
  | .constant ty _ => ty
  | .temp ty _ => ty
  | .argument ty _ => ty

/-- A named piece of storage that holds a value of type `ty`. -/
structure Slot where
  name : String
  isGlobal : Bool
  ty : Ty
deriving DecidableEq, Repr

/-- A slot is aligned to its size. -/
def Slot.align (s : Slot) : Nat := s.ty.size

/-- A change of integer width. -/
inductive Cast where
  | trunc
  | sext
  | zext
deriving DecidableEq, Repr

/-- How a temporary is computed. -/
inductive Definition where
  | load (slot : Slot)
  | arith (op : Arith) (ty : Ty) (lhs rhs : Value)
  | compare (op : Comparison) (lhs rhs : Value)
  | cast (op : Cast) (value : Value) (ty : Ty)
deriving DecidableEq, Repr

/-- The type of a temporary computed so. -/
def Definition.ty : Definition → Ty
  | .load slot => slot.ty
  | .arith _ ty _ _ => ty
  | .compare _ _ _ => .i1
  | .cast _ _ ty => ty

-- ========================================================== instructions

/-- An instruction; the last three end a block. -/
inductive Instr where
  | alloca (slot : Slot)
  | define (index : Nat) (definition : Definition)
  | store (value : Value) (slot : Slot)
  | ret (value : Option Value)
  | jump (label : String)
  | branch (condition : Value) (onTrue onFalse : String)
deriving DecidableEq, Repr

/-- Whether an instruction leaves the function. -/
def Instr.isReturn : Instr → Bool
  | .ret _ => true
  | _ => false

/-- Whether an instruction ends its block. -/
def Instr.isTerminator : Instr → Bool
  | .ret _ | .jump _ | .branch _ _ _ => true
  | _ => false

/-- A basic block. -/
structure Block where
  label : String
  body : List Instr
deriving DecidableEq, Repr

/-- Whether a block has come to its end. -/
def Block.terminated (b : Block) : Bool := b.body.getLast?.any Instr.isTerminator

/-- Whether a block ends by leaving the function. -/
def Block.returned (b : Block) : Bool := b.body.getLast?.any Instr.isReturn

/-- A function; control enters at the first block. -/
structure Function where
  name : String
  returnType : Ty
  params : List (String × Ty)
  blocks : List Block
deriving DecidableEq, Repr

/-- A global variable with its initial value, zero if none is given. -/
structure Global where
  slot : Slot
  init : Option Value
deriving DecidableEq, Repr

/-- A lowered program. -/
structure Module where
  globals : List Global
  functions : List Function
deriving DecidableEq, Repr

end MiniC.IR
