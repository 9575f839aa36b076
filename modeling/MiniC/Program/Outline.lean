/-
A program as nested data, one record for each node of the tree. Only the
choice of names and the order of fields are decided here; indentation is
the outline's own affair. Consumed by the command line, which prints it on
demand.
-/
import MiniC.Outline
import MiniC.Program
import MiniC.Text.Quoted

namespace MiniC

-- ================================================================ leaves

/-- A name or text, in quotes. -/
def Outline.text (s : String) : Outline := .word (Text.quote s)

/-- A count. -/
def Outline.count (n : Nat) : Outline := .word (toString n)

/-- A truth value. -/
def Outline.truth (b : Bool) : Outline := .word (if b then "true" else "false")

/-- A place. -/
def Position.outline (p : Position) : Outline :=
  .record "Position" [("line", .count p.line), ("column", .count p.column),
    ("offset", .count p.offset)]

/-- A type. -/
def Ty.outline : Ty → Outline
  | .void => .word "Void"
  | .bool => .word "Bool"
  | .char => .word "Char"
  | .short => .word "Short"
  | .int => .word "Int"
  | .long => .word "Long"
  | .float => .word "Float"
  | .double => .word "Double"
  | .string => .word "Str"
  | .named name => .wrapped "Named" (.text name)

/-- The name of an arithmetic operation. -/
def Arith.noun : Arith → String
  | .add => "Add"
  | .sub => "Sub"
  | .mul => "Mul"
  | .div => "Div"

/-- The name of a comparison. -/
def Comparison.noun : Comparison → String
  | .lt => "Lt"
  | .gt => "Gt"
  | .le => "Le"
  | .ge => "Ge"
  | .eq => "Eq"
  | .ne => "Ne"

/-- The name of a binary operator. -/
def BinaryOp.noun : BinaryOp → String
  | .assign => "Assign"
  | .compound op => op.noun ++ "Assign"
  | .arith op => op.noun
  | .compare op => op.noun

/-- The name of a unary operator. -/
def UnaryOp.noun : UnaryOp → String
  | .plus => "Plus"
  | .minus => "Minus"
  | .not => "Not"
  | .incr => "Incr"
  | .decr => "Decr"

/-- The name of an operator's side. -/
def Fixity.noun : Fixity → String
  | .before => "Prefix"
  | .after => "Postfix"

/-- The name of an accessor. -/
def Accessor.noun : Accessor → String
  | .dot => "Dot"
  | .arrow => "Arrow"
  | .scope => "Scope"

/-- The name of an access mode. -/
def Access.noun : Access → String
  | .global => "Global"
  | .block => "Scoped"
  | .publicMember => "Public"
  | .protectedMember => "Protected"
  | .privateMember => "Private"

/-- The name of a kind of aggregate. -/
def AggregateKind.noun : AggregateKind → String
  | .struct => "Struct"
  | .cls => "Class"

-- =========================================================== expressions

/-- An identifier. -/
def Ident.outline (i : Ident) : Outline :=
  .record "Identifier" [("name", .text i.name), ("assignable", .truth i.assignable),
    ("pos", i.pos.outline)]

/-- An expression. -/
def Expr.outline : Expr → Outline
  | .ident i => .wrapped "Ident" i.outline
  | .number lit =>
    .wrapped "Number" (.record "NumberLiteral" [("ty", lit.ty.outline), ("value", .text lit.text),
      ("pos", lit.pos.outline)])
  | .string lit =>
    .wrapped "Str" (.record "StringLiteral" [("value", .text lit.value),
      ("len", .count lit.length), ("pos", lit.pos.outline)])
  | .binary op lhs rhs constant operandsMatch pos =>
    .wrapped "Binary" (.record "BinaryExpression" [("lhs", lhs.outline), ("op", .word op.noun),
      ("rhs", rhs.outline), ("constant", .truth constant),
      ("operands_match", .truth operandsMatch), ("pos", pos.outline)])
  | .unary op fixity operand pos =>
    .wrapped "Unary" (.record "UnaryExpression" [("op", .word op.noun),
      ("fixity", .word fixity.noun), ("operand", operand.outline), ("pos", pos.outline)])
  | .member object accessor field pos =>
    .wrapped "Member" (.record "MemberExpression" [("object", object.outline),
      ("accessor", .word accessor.noun), ("member", field.outline), ("pos", pos.outline)])

-- ============================================================ statements

/-- A variable, parameter or member. -/
def VariableDecl.outline (d : VariableDecl) : Outline :=
  .record "VariableDeclaration" [("ty", d.ty.outline), ("name", .text d.name),
    ("init", .optional (d.init.map Expr.outline)), ("access", .word d.access.noun),
    ("pos", d.pos.outline)]

/-- A block of statements. -/
def Outline.block (body : List Outline) : Outline := .record "BlockStatement" [("body", .list body)]

mutual

/-- A statement. -/
def Stmt.outline : Stmt → Outline
  | .block body => .wrapped "Block" (.block (stmtOutlines body))
  | .branch arm => .wrapped "If" arm.outline
  | .loop condition body pos =>
    .wrapped "While" (.record "WhileStatement" [("condition", condition.outline),
      ("body", .block (stmtOutlines body)), ("pos", pos.outline)])
  | .ret value pos =>
    .wrapped "Return" (.record "ReturnStatement" [
      ("value", .optional (value.map Expr.outline)), ("pos", pos.outline)])
  | .variable decl => .wrapped "Variable" decl.outline
  | .function decl => .wrapped "Function" decl.outline
  | .aggregate decl => .wrapped "Struct" decl.outline
  | .expr e => .wrapped "Expr" e.outline

/-- Statements in order. -/
def stmtOutlines : List Stmt → List Outline
  | [] => []
  | s :: rest => s.outline :: stmtOutlines rest

/-- One arm of an if chain. -/
def Arm.outline : Arm → Outline
  | ⟨condition, consequent, alternate, pos⟩ =>
    .record "IfStatement" [("condition", condition.outline),
      ("consequent", .block (stmtOutlines consequent)), ("alternate", alternate.outline),
      ("pos", pos.outline)]

/-- What an arm leads to. -/
def Alternate.outline : Alternate → Outline
  | .none => .optional none
  | .block body => .optional (some (.wrapped "Block" (.block (stmtOutlines body))))
  | .elseIf arm => .optional (some (.wrapped "If" arm.outline))

/-- A function or method. -/
def FunctionDecl.outline : FunctionDecl → Outline
  | ⟨returnType, name, params, body, access, pos⟩ =>
    .record "FunctionDeclaration" [("return_type", returnType.outline), ("name", .text name),
      ("params", .list (params.map VariableDecl.outline)),
      ("body", .block (stmtOutlines body)), ("access", .word access.noun), ("pos", pos.outline)]

/-- Methods in order. -/
def functionOutlines : List FunctionDecl → List Outline
  | [] => []
  | f :: rest => f.outline :: functionOutlines rest

/-- A struct or class. -/
def AggregateDecl.outline : AggregateDecl → Outline
  | ⟨kind, name, members, methods, pos⟩ =>
    .record "StructDeclaration" [("kind", .word kind.noun), ("name", .text name),
      ("members", .list (members.map VariableDecl.outline)),
      ("methods", .list (functionOutlines methods)), ("pos", pos.outline)]

end

/-- A program as nested data. -/
def Program.outline (p : Program) : Outline :=
  .record "Program" [("body", .list (stmtOutlines p.body))]

end MiniC
