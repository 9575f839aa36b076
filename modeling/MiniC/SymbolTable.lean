/-
The declarations in sight at a point of the source. Scopes form a tree that
only grows: opening a scope adds a node below the current one, closing it
returns to the parent, and what was declared in it stays recorded under its
own number, out of sight. Looking a name up walks from the current scope to
the root. Consumed by the parser.
-/
import MiniC.Position
import MiniC.Ty

namespace MiniC

/-- What a name stands for: its type and the place of its declaration. -/
structure Binding where
  ty : Ty
  pos : Position
deriving DecidableEq, Repr

/-- The scope tree. Scope `i` has the parent `parents[i]`, the root has
none; bindings are recorded by scope and name. -/
structure SymbolTable where
  parents : Array (Option Nat)
  bindings : List ((Nat × String) × Binding)
  current : Nat
deriving DecidableEq, Repr

namespace SymbolTable

/-- Only the global scope is open, and it is empty. -/
def empty : SymbolTable := ⟨#[none], [], 0⟩

/-- The parent of a scope. -/
def parent? (t : SymbolTable) (scope : Nat) : Option Nat := t.parents[scope]?.join

/-- A scope and those around it, innermost first, at most `fuel` of them. -/
def chain (t : SymbolTable) : Nat → Nat → List Nat
  | 0, _ => []
  | fuel + 1, scope =>
    scope ::
      match t.parent? scope with
      | some parent => t.chain fuel parent
      | none => []

/-- The open scopes, innermost first. A scope is older than those in it, so
there are no more of them than the current scope's number and one. -/
def openScopes (t : SymbolTable) : List Nat := t.chain (t.current + 1) t.current

/-- What a scope itself binds a name to. -/
def find? (t : SymbolTable) (scope : Nat) (name : String) : Option Binding :=
  (t.bindings.find? fun b => b.1 == (scope, name)).map (·.2)

/-- Opens a scope inside the current one. -/
def push (t : SymbolTable) : SymbolTable :=
  { t with parents := t.parents.push (some t.current), current := t.parents.size }

/-- Closes the current scope; the global scope cannot be closed. -/
def pop? (t : SymbolTable) : Option SymbolTable :=
  (t.parent? t.current).map fun parent => { t with current := parent }

/-- Binds a name in the current scope. If the scope binds it already, the
earlier binding is the answer and nothing changes. -/
def insert (t : SymbolTable) (name : String) (b : Binding) : Except Binding SymbolTable :=
  match t.find? t.current name with
  | some earlier => .error earlier
  | none => .ok { t with bindings := ((t.current, name), b) :: t.bindings }

/-- The binding of a name that is in sight: of the open scopes that bind
it, the innermost decides. -/
def lookup? (t : SymbolTable) (name : String) : Option Binding :=
  t.openScopes.findSome? fun scope => t.find? scope name

end SymbolTable

end MiniC
