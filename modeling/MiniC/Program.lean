/-
Statements, declarations and whole programs. An if chain is a list of arms
linked by their alternates, so that `else if` is one construct and not an
if inside an else. Declarations may stand wherever a statement may; which
of those make sense is for the later stages to say. Consumed by the parser
and both back ends.
-/
import MiniC.Expr

namespace MiniC

/-- From where a declaration can be seen. -/
inductive Access where
  | global
  | block
  | publicMember
  | protectedMember
  | privateMember
deriving DecidableEq, Repr

/-- The two kinds of aggregate, which differ in their members' default
access. -/
inductive AggregateKind where
  | struct
  | cls
deriving DecidableEq, Repr

/-- A variable, parameter or member; a parameter's initializer is its
default. -/
structure VariableDecl where
  ty : Ty
  name : String
  init : Option Expr
  access : Access
  pos : Position
deriving DecidableEq, Repr

mutual

/-- A statement. -/
inductive Stmt where
  | block (body : List Stmt)
  | branch (arm : Arm)
  | loop (condition : Expr) (body : List Stmt) (pos : Position)
  | ret (value : Option Expr) (pos : Position)
  | variable (decl : VariableDecl)
  | function (decl : FunctionDecl)
  | aggregate (decl : AggregateDecl)
  | expr (e : Expr)

/-- One arm of an if chain: its condition, what runs if it holds, and what
comes otherwise. -/
structure Arm where
  condition : Expr
  consequent : List Stmt
  alternate : Alternate
  pos : Position

/-- What an arm leads to when its condition fails. -/
inductive Alternate where
  | none
  | block (body : List Stmt)
  | elseIf (arm : Arm)

/-- A function or method. -/
structure FunctionDecl where
  returnType : Ty
  name : String
  params : List VariableDecl
  body : List Stmt
  access : Access
  pos : Position

/-- A struct or class. -/
structure AggregateDecl where
  kind : AggregateKind
  name : String
  members : List VariableDecl
  methods : List FunctionDecl
  pos : Position

end

/-- The member of the given name, the first if there are several. -/
def AggregateDecl.member? (a : AggregateDecl) (name : String) : Option VariableDecl :=
  a.members.find? (·.name == name)

/-- A program: its top-level declarations in order. -/
structure Program where
  body : List Stmt

namespace Program

/-- The functions of a program in order. -/
def functions (p : Program) : List FunctionDecl :=
  p.body.filterMap fun
    | .function decl => some decl
    | _ => none

/-- The global variables of a program in order. -/
def globals (p : Program) : List VariableDecl :=
  p.body.filterMap fun
    | .variable decl => some decl
    | _ => none

/-- The aggregates of a program in order. -/
def aggregates (p : Program) : List AggregateDecl :=
  p.body.filterMap fun
    | .aggregate decl => some decl
    | _ => none

/-- The aggregate of the given name; a struct comes before a class. -/
def aggregate? (p : Program) (name : String) : Option AggregateDecl :=
  let named (kind : AggregateKind) :=
    p.aggregates.find? fun a => a.kind == kind && a.name == name
  (named .struct).orElse fun _ => named .cls

/-- The function of the given name, the first if there are several. -/
def function? (p : Program) (name : String) : Option FunctionDecl :=
  p.functions.find? (·.name == name)

end Program

end MiniC
