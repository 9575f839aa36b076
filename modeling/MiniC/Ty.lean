/-
The types of the source language: nine built-in ones and the aggregates a
program declares, which are referred to by name. Sizes are in bytes; an
aggregate has no size of its own here, its layout decides. Consumed by the
whole compiler.
-/

namespace MiniC

/-- A source type; `named` refers to a struct or class declaration. -/
inductive Ty where
  | void
  | bool
  | char
  | short
  | int
  | long
  | float
  | double
  | string
  | named (name : String)
deriving DecidableEq, Repr

namespace Ty

/-- The type as a program spells it. -/
def spelling : Ty → String
  | .void => "void"
  | .bool => "bool"
  | .char => "char"
  | .short => "short"
  | .int => "int"
  | .long => "long"
  | .float => "float"
  | .double => "double"
  | .string => "string"
  | .named name => name

/-- The size in bytes of a built-in type, zero for what has no value. -/
def size : Ty → Nat
  | .void => 0
  | .bool => 1
  | .char => 1
  | .short => 2
  | .int => 4
  | .long => 8
  | .float => 4
  | .double => 8
  | .string => 8
  | .named _ => 0

/-- Whether values of the type can be negative. -/
def isSigned : Ty → Bool
  | .char | .short | .int | .long => true
  | _ => false

/-- Whether values of the type are whole numbers or truth values. -/
def isInteger : Ty → Bool
  | .bool | .char | .short | .int | .long => true
  | _ => false

/-- Whether values of the type are floating point numbers. -/
def isFloating : Ty → Bool
  | .float | .double => true
  | _ => false

/-- The type in which two operands meet: the wider floating type if there
is one, else long if either is long, else int. -/
def promote (a b : Ty) : Ty :=
  if a = .double || b = .double then .double
  else if a = .float || b = .float then .float
  else if a = .long || b = .long then .long
  else .int

end Ty

end MiniC
