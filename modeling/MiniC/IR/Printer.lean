/-
The intermediate representation as text: one instruction a line, blocks
under their labels, functions behind the globals. Consumed by the command
line.
-/
import MiniC.IR.Basic

namespace MiniC.IR

/-- A truth value is written as a word, every other constant as its text. -/
def Value.render : Value → String
  | .constant .i1 text => if text = "0" then "false" else "true"
  | .constant _ text => text
  | .temp _ index => "%" ++ toString index
  | .argument _ name => "%" ++ name

/-- A slot by its name; the mark tells globals from locals. -/
def Slot.render (s : Slot) : String := (if s.isGlobal then "@" else "%") ++ s.name

/-- The instruction of an arithmetic operation. -/
def mnemonic : Arith → String
  | .add => "add nsw"
  | .sub => "sub nsw"
  | .mul => "mul nsw"
  | .div => "sdiv"

/-- The predicate of a comparison, signed where order matters. -/
def predicate : Comparison → String
  | .eq => "eq"
  | .ne => "ne"
  | .lt => "slt"
  | .gt => "sgt"
  | .le => "sle"
  | .ge => "sge"

/-- The instruction of a cast. -/
def Cast.spelling : Cast → String
  | .trunc => "trunc"
  | .sext => "sext"
  | .zext => "zext"

/-- The right side of a temporary's definition. -/
def Definition.render : Definition → String
  | .load slot => s!"load {slot.ty.spelling}, ptr {slot.render}, align {slot.align}"
  | .arith op ty lhs rhs => s!"{mnemonic op} {ty.spelling} {lhs.render}, {rhs.render}"
  | .compare op lhs rhs => s!"icmp {predicate op} {lhs.ty.spelling} {lhs.render}, {rhs.render}"
  | .cast op value ty => s!"{op.spelling} {value.ty.spelling} {value.render} to {ty.spelling}"

/-- An instruction. -/
def Instr.render : Instr → String
  | .alloca slot => s!"{slot.render} = alloca {slot.ty.spelling}, align {slot.align}"
  | .define index definition => s!"%{index} = {definition.render}"
  | .store value slot =>
    s!"store {value.ty.spelling} {value.render}, ptr {slot.render}, align {slot.align}"
  | .ret (some value) => s!"ret {value.ty.spelling} {value.render}"
  | .ret none => "ret void"
  | .jump label => s!"br label %{label}"
  | .branch condition onTrue onFalse =>
    s!"br i1 {condition.render}, label %{onTrue}, label %{onFalse}"

/-- A block: its label, then its instructions, indented. -/
def Block.render (b : Block) : String :=
  b.label ++ ":\n" ++ String.join (b.body.map fun instr => "  " ++ instr.render ++ "\n")

/-- A function, an empty line between its blocks. -/
def Function.render (f : Function) : String :=
  let param (p : String × Ty) : String := p.2.spelling ++ " %" ++ p.1
  let params := String.intercalate ", " (f.params.map param)
  s!"define {f.returnType.spelling} @{f.name}({params}) \x7b\n"
    ++ String.intercalate "\n" (f.blocks.map Block.render) ++ "\x7d\n"

/-- A global variable. -/
def Global.render (g : Global) : String :=
  let init :=
    match g.init with
    | some value => value.render
    | none => "zeroinitializer"
  s!"{g.slot.render} = global {g.slot.ty.spelling} {init}, align {g.slot.align}"

/-- A module: its globals, then its functions, an empty line between. -/
def Module.render (m : Module) : String :=
  let globals := String.join (m.globals.map fun g => g.render ++ "\n")
  let functions := String.intercalate "\n" (m.functions.map Function.render)
  let gap := if m.globals.isEmpty || m.functions.isEmpty then "" else "\n"
  globals ++ gap ++ functions

end MiniC.IR
