/-
The meaning of statements and functions over whole numbers.

# Stores

Variables stand in scopes, innermost first, each with its type and the value it has,
if it was given one; globals come behind all scopes. A name comes into sight
behind its initializer and goes with its scope. Writing to a name changes the
innermost scope that has it, and a global only if none has.

# Runs

A condition holds when its value is not zero. A function that ends without a return
has the value zero, unless it has no value. Execution is a function of the syntax; only
a loop can run on, so a run is given a number of rounds that each entry into a loop may
take, and a run that needs more is `unfinished`. What is no whole number has no
meaning: such a run is `stuck`, as is one that reads a variable without a value.

How a truth value is made of a number is left open here as it is for expressions, so
that one meaning serves both back ends. Consumed by the proofs that lowering and
generated code preserve meaning.
-/
import MiniC.Program
import MiniC.Proofs.Source.Eval

namespace MiniC.Source

-- ================================================================ stores

/-- The variables of a scope, the latest first. -/
abbrev Scope : Type := List (String × Ty × Option Int)

/-- The variables in sight, innermost scope first, and the values of the
globals. -/
structure Store where
  scopes : List Scope
  globals : String → Int

namespace Store

/-- The variable that a name stands for, if no global. -/
def find? (s : Store) (name : String) : Option (Ty × Option Int) :=
  s.scopes.findSome? fun scope => scope.lookup name

/-- A scope with another value of a name. -/
def setIn (name : String) (n : Int) : Scope → Scope
  | [] => []
  | (x, ty, old) :: rest =>
    if name = x then (x, ty, some n) :: rest else (x, ty, old) :: setIn name n rest

/-- Scopes with another value of a name, in the innermost that binds it. -/
def setScopes (name : String) (n : Int) : List Scope → List Scope
  | [] => []
  | scope :: outer =>
    if (scope.lookup name).isSome then setIn name n scope :: outer
    else scope :: setScopes name n outer

/-- The store with another value of a name. -/
def set (s : Store) (name : String) (n : Int) : Store :=
  if (s.find? name).isSome then { s with scopes := setScopes name n s.scopes }
  else { s with globals := fun x => if x = name then n else s.globals x }

/-- Brings a variable into sight in the innermost scope. -/
def bind (s : Store) (name : String) (ty : Ty) (value : Option Int) : Store :=
  match s.scopes with
  | [] => s
  | scope :: outer => { s with scopes := ((name, ty, value) :: scope) :: outer }

/-- A scope in which a name is set has its new value, and the old ones of all
others. -/
theorem lookup_setIn (name : String) (n : Int) (scope : Scope) (x : String) :
    (setIn name n scope).lookup x
      = if x = name then (scope.lookup name).map fun v => (v.1, some n)
        else scope.lookup x := by
  induction scope with
  | nil =>
      show none = _
      split <;> rfl
  | cons b rest ih =>
      obtain ⟨y, ty, old⟩ := b
      unfold setIn
      by_cases hname : name = y
      · subst hname
        rw [if_pos rfl]
        by_cases hx : x = name
        · subst hx
          rw [if_pos rfl, List.lookup_cons_self, List.lookup_cons_self]
          rfl
        · have hne : (x == name) = false := beq_false_of_ne hx
          rw [if_neg hx, List.lookup_cons, List.lookup_cons, hne]
      · rw [if_neg hname, List.lookup_cons, ih]
        by_cases hx : x = name
        · subst hx
          have hne : (x == y) = false := beq_false_of_ne hname
          rw [if_pos rfl, if_pos rfl, List.lookup_cons, hne]
        · rw [if_neg hx, if_neg hx, List.lookup_cons]

end Store

/-- The cells of a store: its variables, and globals of the given types so
far as they are whole numbers. -/
def cells (types : List (String × Ty)) : Cells Store where
  cell s r :=
    match r with
    | .named name =>
      (s.find? name).orElse fun _ =>
        (types.lookup name).bind fun ty =>
          if ty.isInteger then some (ty, some (s.globals name)) else none
    | .member _ _ => none
  write s r n :=
    match r with
    | .named name => s.set name n
    | .member _ _ => s

/-- The types of a program's globals; of two of one name the later
counts. -/
def globalTypes (p : Program) : List (String × Ty) :=
  (p.globals.map fun d => (d.name, d.ty)).reverse

-- ============================================================ statements

/-- How a statement ends: control goes on behind it, or leaves the
function. -/
inductive Outcome where
  | normal
  | returned (value : Option Int)
deriving DecidableEq, Repr

/-- Runs a step in a scope of its own. -/
def inScope (body : Run Store Outcome) : Run Store Outcome := do
  modify fun s => { s with scopes := [] :: s.scopes }
  let outcome ← body
  modify fun s => { s with scopes := s.scopes.drop 1 }
  return outcome

/-- Goes on with the next step unless the one before has left the
function. -/
def onward (outcome : Outcome) (next : Run Store Outcome) : Run Store Outcome :=
  match outcome with
  | .normal => next
  | .returned value => return .returned value

/-- Runs a body as long as a test holds, for at most so many rounds. -/
def iterate (test : Run Store Bool) (body : Run Store Outcome) : Nat → Run Store Outcome
  | 0 => throw .unfinished
  | rounds + 1 => do
    if ← test then
      let outcome ← body
      onward outcome (iterate test body rounds)
    else return .normal

section Exec

variable (fill : Bool) (types : List (String × Ty)) (returnType : Ty) (rounds : Nat)

/-- The value of an expression as a value of a type of whole numbers. -/
def evalAs (ty : Ty) (e : Expr) : Run Store Int := do
  let v ← eval (cells types) fill e
  if ty.isInteger then return convert fill v.1 ty v.2 else throw .stuck

/-- An expression whose value is wanted as a whole number has it converted. -/
theorem evalAs_whole {fill : Bool} {types : List (String × Ty)} {ty : Ty}
    (hty : ty.isInteger = true) (e : Expr) :
    evalAs fill types ty e
      = (fun v => convert fill v.1 ty v.2) <$> eval (cells types) fill e := by
  unfold evalAs
  rw [map_eq_pure_bind]
  simp only [hty, if_true]

/-- Whether a condition holds. -/
def test (e : Expr) : Run Store Bool := do
  let v ← eval (cells types) fill e
  return decide (v.2 ≠ 0)

/-- A local variable; its name comes into sight behind the initializer. -/
def declare (decl : VariableDecl) : Run Store Unit :=
  if decl.ty.isInteger then
    match decl.init with
    | some e => do
      let n ← evalAs fill types decl.ty e
      modify fun s => s.bind decl.name decl.ty (some n)
    | none => modify fun s => s.bind decl.name decl.ty none
  else throw .stuck

/-- What a return gives back. -/
def result (value : Option Expr) : Run Store (Option Int) :=
  match value with
  | some e => some <$> evalAs fill types returnType e
  | none => return none

mutual

/-- Runs a statement. -/
def stmt : Stmt → Run Store Outcome
  | .block body => inScope (stmts body)
  | .branch a => arm a
  | .loop e body _ => iterate (test fill types e) (inScope (stmts body)) rounds
  | .ret value _ => .returned <$> result fill types returnType value
  | .variable decl => do
    declare fill types decl
    return .normal
  | .expr e => do
    let _ ← eval (cells types) fill e
    return .normal
  | .function _ => throw .stuck
  | .aggregate _ => throw .stuck

/-- Runs statements in order. -/
def stmts : List Stmt → Run Store Outcome
  | [] => return .normal
  | s :: rest => do
    let outcome ← stmt s
    onward outcome (stmts rest)

/-- Runs an arm of an if chain. -/
def arm : Arm → Run Store Outcome
  | ⟨e, consequent, alternate, _⟩ => do
    if ← test fill types e then inScope (stmts consequent) else otherwise alternate

/-- Runs what an arm leads to when its condition fails. -/
def otherwise : Alternate → Run Store Outcome
  | .none => return .normal
  | .block body => inScope (stmts body)
  | .elseIf a => arm a

end

-- ============================================================= functions

/-- The scope of parameters that have their values, in front of those
bound already. -/
def bindParams : List VariableDecl → List Int → Scope → Except Stop Scope
  | [], [], scope => .ok scope
  | p :: params, n :: args, scope =>
    if p.ty.isInteger then bindParams params args ((p.name, p.ty, some n) :: scope)
    else .error .stuck
  | _, _, _ => .error .stuck

/-- What a function gives back that has ended so. -/
def ended (returnType : Ty) : Outcome → Except Stop (Option Int)
  | .returned value => .ok value
  | .normal =>
    if returnType = .void then .ok none
    else if returnType.isInteger then .ok (some 0)
    else .error .stuck

/-- What a function gives back for its arguments, and the globals behind
it. -/
def call (decl : FunctionDecl) (args : List Int) (globals : String → Int) :
    Except Stop (Option Int × (String → Int)) := do
  let scope ← bindParams decl.params args []
  let (outcome, s) ← stmts fill types decl.returnType rounds decl.body ⟨[scope], globals⟩
  let value ← ended decl.returnType outcome
  return (value, s.globals)

end Exec

-- ================================================================ steps

section Steps

open MiniC.Steps

theorem inScope_run (body : Run Store Outcome) (store : Store) :
    inScope body store
      = body { store with scopes := [] :: store.scopes } >>= fun r =>
        .ok (r.1, { r.2 with scopes := r.2.scopes.drop 1 }) :=
  rfl

variable (fill : Bool) (types : List (String × Ty))

/-- A declaration evaluates its initial value before its name comes into sight. -/
theorem declare_run {decl : VariableDecl} (hty : decl.ty.isInteger = true) :
    declare fill types decl = match decl.init with
      | some e => eval (cells types) fill e >>= fun v => modify fun store =>
          store.bind decl.name decl.ty (some (convert fill v.1 decl.ty v.2))
      | none => modify fun store => store.bind decl.name decl.ty none := by
  unfold declare
  rw [if_pos hty]
  cases decl.init with
  | none => rfl
  | some e =>
      dsimp only
      rw [evalAs_whole hty]
      simp only [map_eq_pure_bind, bind_assoc, pure_bind]

/-- A condition that folds holds unless it folds to zero. -/
theorem test_constant {e : Expr} (hconst : e.isConstant = true)
    (hfits : FoldFits e) {zero : Bool} (h : e.foldsToZero = .ok zero)
    (store : Store) : test fill types e store = .ok (!zero, store) := by
  unfold Expr.foldsToZero at h
  obtain ⟨lit, hlit, hzero⟩ := except_bind_ok.1 h
  obtain ⟨n, hn, hw, hfold⟩ := folded_fits (hfits lit hlit) hlit
  have hnumber : lit.isZero = .ok (n == 0) := by
    unfold NumberLiteral.isZero
    rw [number_of_toInt hw.isInteger hn]
    rfl
  rw [hnumber] at hzero
  cases hzero
  unfold test
  rw [eval_constant hconst, hfold]
  show Except.ok (decide (n ≠ 0), store) = Except.ok (!(n == 0), store)
  by_cases hz : n = 0
  · subst hz
    rfl
  · rw [decide_eq_true hz, beq_false_of_ne hz]
    rfl

/-- The values of parameters in the order of their scope. -/
theorem bindParams_scope : ∀ {params : List VariableDecl} {args : List Int} {acc scope : Scope},
    bindParams params args acc = .ok scope →
      scope.map (fun b => (b.1, b.2.1))
        = (params.map fun p => (p.name, p.ty)).reverse ++ acc.map fun b => (b.1, b.2.1)
  | [], [], acc, scope, h => by
      cases h
      rfl
  | p :: params, n :: args, acc, scope, h => by
      unfold bindParams at h
      split at h
      · rw [bindParams_scope h, List.map_cons, List.map_cons, List.reverse_cons,
          List.append_assoc]
        rfl
      · cases h
  | [], _ :: _, _, _, h => by cases h
  | _ :: _, [], _, _, h => by cases h

end Steps

end MiniC.Source
