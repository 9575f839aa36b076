/-
The types of expressions as far as both back ends have them: by the names in
sight, without members. Operands meet as `Ty.promote` has it, an assignment
has the type of its target, and what folds has the type folding gives it.

# Demands on types

Two demands are made on types. Operands of one operation are alike if they
are both whole numbers or both floating (`Unmixed`). Strings are kept if they
go only where strings go, and no other value does (`Kept`); what `!` is
applied to has to be a whole number then. Neither is made of what folds, whose
operands are literals.

# Demands on what is lowered

What is neither a string nor a member is `Simple`, and `Numeric` if its variables
are of whole numbers besides. Such an expression has whole numbers for values if
what is folded in it does not have a part behind the point
(`Expr.Numeric.integral`). Which variables have to be looked at is `references`
where the value is asked for and `effects` where it is not.

All of these can be decided, so that a program may be shown to meet them by
computation.
Consumed by the proofs about the types of lowered code.
-/
import MiniC.Proofs.Source.Sight

namespace MiniC

namespace Expr

variable (globals : List (String × Ty)) (sight : Sight)

/-- The type of an expression; members have none here. -/
def type? : Expr → Option Ty
  | .number lit => some lit.ty
  | .string _ => some .string
  | .ident i => sight.resolve? globals i.name
  | .member _ _ _ _ => none
  | .binary op lhs rhs constant operandsMatch pos =>
    if constant then
      (Expr.binary op lhs rhs constant operandsMatch pos).evaluate.toOption.map (·.ty)
    else
      match op with
      | .assign | .compound _ => lhs.type?
      | .compare _ => some .bool
      | .arith _ => do return Ty.promote (← lhs.type?) (← rhs.type?)
  | .unary op _ operand _ =>
    match op with
    | .not => some .bool
    | .plus | .minus => do return Ty.promote (← operand.type?) .int
    | .incr | .decr => operand.type?

/-- Whether neither of two operands is a string. -/
def Computable (lhs rhs : Expr) : Prop :=
  lhs.type? globals sight ≠ some .string ∧ rhs.type? globals sight ≠ some .string

/-- Whether two operands are whole numbers both or floating both. -/
def Alike (lhs rhs : Expr) : Prop :=
  Computable globals sight lhs rhs
    ∧ ((lhs.type? globals sight).any Ty.isFloating = (rhs.type? globals sight).any Ty.isFloating)

/-- Whether a value can go where one of the given type is kept: as a
constant, or as a string only where a string is. -/
def KeptAs (ty : Option Ty) (e : Expr) : Prop :=
  e.isConstant = true ∨ (ty = some .string ↔ e.type? globals sight = some .string)

/-- Whether the operands of every operation that does not fold are alike. -/
def Unmixed : Expr → Prop
  | .binary op lhs rhs constant _ _ =>
    constant = true ∨ (lhs.Unmixed ∧ rhs.Unmixed ∧ (op = .assign ∨ Alike globals sight lhs rhs))
  | .unary _ _ operand _ => operand.Unmixed
  | _ => True

/-- Whether strings are kept and `!` is applied to whole numbers. -/
def Kept : Expr → Prop
  | .binary op lhs rhs constant _ _ =>
    constant = true ∨ (lhs.Kept ∧ rhs.Kept
      ∧ if op = .assign then KeptAs globals sight (lhs.type? globals sight) rhs
        else Computable globals sight lhs rhs)
  | .unary op _ operand _ =>
    operand.Kept ∧ (op ≠ .not ∨ (operand.type? globals sight).all Ty.isInteger = true)
  | _ => True

/-- The literals of an expression that are not folded with others. -/
def loose : Expr → List NumberLiteral
  | .number lit => [lit]
  | .binary _ lhs rhs constant _ _ => if constant then [] else lhs.loose ++ rhs.loose
  | .unary _ _ operand _ => operand.loose
  | _ => []

/-- What the value of an expression is taken from, reference by reference in
the order in which they are met. Operands go from left to right; what folds is
taken from nothing; an assignment stores into its target and takes its value
from there, and so does a step, which in front of or behind its operand meets
it twice. -/
def references : Expr → List Expr
  | .ident i => [.ident i]
  | .member object accessor field pos => [.member object accessor field pos]
  | .number _ => []
  | .string _ => []
  | .binary op lhs rhs constant _ _ =>
    if constant then []
    else
      match op with
      | .assign => rhs.references ++ [lhs, lhs]
      | .compound _ => lhs.references ++ rhs.references ++ [lhs, lhs]
      | .arith _ | .compare _ => lhs.references ++ rhs.references
  | .unary op _ operand _ =>
    match op with
    | .incr | .decr => [operand, operand]
    | .plus | .minus | .not => operand.references

/-- What the effects of an expression are taken from and go to, if nobody asks
for its value: an assignment then meets its target only to store. -/
def effects : Expr → List Expr
  | .binary .assign lhs rhs _ _ _ => rhs.references ++ [lhs]
  | .binary (.compound _) lhs rhs _ _ _ => lhs.references ++ rhs.references ++ [lhs]
  | .unary .incr _ operand _ => [operand]
  | .unary .decr _ operand _ => [operand]
  | e => e.references

/-- Whether an expression is made of variables and of what folds, without any
string or member. -/
def Simple : Expr → Prop
  | .number _ => True
  | .ident _ => True
  | .string _ => False
  | .member _ _ _ _ => False
  | .binary _ lhs rhs constant _ _ => constant = true ∨ (lhs.Simple ∧ rhs.Simple)
  | .unary _ _ operand _ => operand.Simple

/-- Whether it is, and its variables are of types of whole numbers. -/
def Numeric : Expr → Prop
  | .number _ => True
  | .ident i => ∀ ty, sight.resolve? globals i.name = some ty → ty.isInteger = true
  | .string _ => False
  | .member _ _ _ _ => False
  | .binary _ lhs rhs constant _ _ => constant = true ∨ (lhs.Numeric ∧ rhs.Numeric)
  | .unary _ _ operand _ => operand.Numeric

/-- Whether nothing that is folded in an expression folds to a floating
number. -/
def FoldsWhole (e : Expr) : Prop :=
  ∀ c ∈ Source.constants e, ∀ lit, c.evaluate = .ok lit → lit.ty.isFloating = false

/-- An expression and all that it is made of. -/
def parts : Expr → List Expr
  | .binary op lhs rhs constant operandsMatch pos =>
    .binary op lhs rhs constant operandsMatch pos :: (lhs.parts ++ rhs.parts)
  | .unary op fixity operand pos => .unary op fixity operand pos :: operand.parts
  | e => [e]

end Expr

-- ============================================================== deciding

section Deciding

variable (globals : List (String × Ty)) (sight : Sight)

instance (lhs rhs : Expr) : Decidable (Expr.Computable globals sight lhs rhs) :=
  inferInstanceAs (Decidable (_ ∧ _))

instance (lhs rhs : Expr) : Decidable (Expr.Alike globals sight lhs rhs) :=
  inferInstanceAs (Decidable (_ ∧ _))

instance (ty : Option Ty) (e : Expr) : Decidable (Expr.KeptAs globals sight ty e) :=
  inferInstanceAs (Decidable (_ ∨ _))

instance decideUnmixed : ∀ e : Expr, Decidable (e.Unmixed globals sight)
  | .binary _ lhs rhs _ _ _ =>
    @instDecidableOr _ _ inferInstance
      (@instDecidableAnd _ _ (decideUnmixed lhs)
        (@instDecidableAnd _ _ (decideUnmixed rhs) inferInstance))
  | .unary _ _ operand _ => decideUnmixed operand
  | .number _ | .string _ | .ident _ | .member _ _ _ _ => .isTrue trivial

instance decideKept : ∀ e : Expr, Decidable (e.Kept globals sight)
  | .binary _ lhs rhs _ _ _ =>
    @instDecidableOr _ _ inferInstance
      (@instDecidableAnd _ _ (decideKept lhs)
        (@instDecidableAnd _ _ (decideKept rhs) inferInstance))
  | .unary _ _ operand _ => @instDecidableAnd _ _ (decideKept operand) inferInstance
  | .number _ | .string _ | .ident _ | .member _ _ _ _ => .isTrue trivial

end Deciding

-- =========================================================== expressions

section Types

variable {globals : List (String × Ty)} {sight : Sight}

/-- Operands that are the same identifier have the same type. -/
theorem Expr.type?_sameIdent {lhs rhs : Expr} (h : Expr.sameIdent lhs rhs = true) :
    rhs.type? globals sight = lhs.type? globals sight := by
  unfold Expr.sameIdent at h
  split at h
  · rw [Expr.type?, Expr.type?, eq_of_beq h]
  · cases h

/-- An expression is part of itself. -/
theorem Expr.mem_parts_self (e : Expr) : e ∈ e.parts := by
  cases e <;> exact List.mem_cons_self

/-- What folds is taken from nothing. -/
theorem Expr.references_constant {e : Expr} (h : e.isConstant = true) : e.references = [] := by
  cases e, h using Source.constant_cases with
  | number lit => rfl
  | folded op lhs rhs operandsMatch pos => rfl

/-- What does not fold as a whole folds to whole numbers where its operands
do. -/
theorem Expr.FoldsWhole.binary {op : BinaryOp} {lhs rhs : Expr} {operandsMatch : Bool}
    {pos : Position} (h : lhs.FoldsWhole ∧ rhs.FoldsWhole) :
    (Expr.binary op lhs rhs false operandsMatch pos).FoldsWhole :=
  List.forall_mem_append.2 h

/-- An expression over variables of whole numbers has whole numbers for values,
if what is folded in it fits its types. -/
theorem Expr.Numeric.integral {e : Expr} (h : e.Numeric globals sight)
    (hfits : ∀ c ∈ Source.constants e, Source.FoldFits c) : e.Integral globals sight := by
  induction e with
  | number lit => exact hfits _ List.mem_cons_self lit rfl
  | ident i => exact h
  | string _ => exact h
  | member _ _ _ _ => exact h.elim
  | binary op lhs rhs constant operandsMatch pos ihl ihr =>
      cases constant with
      | true => exact hfits _ List.mem_cons_self
      | false =>
          obtain ⟨hl, hr⟩ := h.resolve_left Bool.false_ne_true
          obtain ⟨hleft, hright⟩ := List.forall_mem_append.1 hfits
          exact ⟨ihl hl hleft, ihr hr hright⟩
  | unary op fixity operand pos ih => exact ih h hfits

/-- The parts of an expression whose operands are alike are such
expressions, or they are folded with others. -/
theorem Expr.Unmixed.parts_binary {op : BinaryOp} {lhs rhs : Expr} {operandsMatch : Bool}
    {pos : Position} (h : (Expr.binary op lhs rhs false operandsMatch pos).Unmixed globals sight) :
    lhs.Unmixed globals sight ∧ rhs.Unmixed globals sight
      ∧ (op = .assign ∨ Expr.Alike globals sight lhs rhs) :=
  h.resolve_left Bool.false_ne_true

/-- What is kept is kept in operands, and between them. -/
theorem Expr.Kept.parts_binary {op : BinaryOp} {lhs rhs : Expr} {operandsMatch : Bool}
    {pos : Position} (h : (Expr.binary op lhs rhs false operandsMatch pos).Kept globals sight) :
    lhs.Kept globals sight ∧ rhs.Kept globals sight
      ∧ if op = .assign then KeptAs globals sight (lhs.type? globals sight) rhs
        else Expr.Computable globals sight lhs rhs :=
  h.resolve_left Bool.false_ne_true

end Types

-- ================================================================ leaves

/-- Whether strings are kept in a leaf of a function with the given return
type: no condition is a string, and what is returned or stored goes where
strings go only if it is one. -/
def Leaf.Kept (globals : List (String × Ty)) (returnType : Ty) (sight : Sight) (leaf : Leaf) :
    Prop :=
  (∀ e ∈ leaf.exprs, e.Kept globals sight)
    ∧ match leaf with
      | .condition e => e.KeptAs globals sight (some .bool)
      | .result (some e) => e.KeptAs globals sight (some returnType)
      | .variable decl => ∀ e ∈ decl.init, e.KeptAs globals sight (some decl.ty)
      | _ => True

instance (globals : List (String × Ty)) (returnType : Ty) (sight : Sight) (leaf : Leaf) :
    Decidable (leaf.Kept globals returnType sight) :=
  @instDecidableAnd _ _ inferInstance <|
    match leaf with
    | .condition e => inferInstanceAs (Decidable (e.KeptAs globals sight (some .bool)))
    | .result (some e) => inferInstanceAs (Decidable (e.KeptAs globals sight (some returnType)))
    | .result none => .isTrue trivial
    | .variable decl =>
      inferInstanceAs (Decidable (∀ e ∈ decl.init, e.KeptAs globals sight (some decl.ty)))
    | .effect _ => .isTrue trivial
    | .nested => .isTrue trivial

end MiniC
