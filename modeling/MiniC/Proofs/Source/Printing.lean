/-
Expressions as text: the lexemes that spell an expression, with parentheses
only where the strength of the operators and the side their chains group from
ask for them.

# Parentheses

An operand is put in parentheses if the parser would otherwise give its operator to
someone else. On the left that is an operand whose operator is weaker, or as strong and
grouping to the right; on the right it is one that the parser would not extend the
operand by. Both are asked of `overtakes`, which says whether an operator that comes next
takes the operand away from the one before. Operands without an operator at their root
need none.

# Comparing

A text says nothing of places, and of the two flags of a binary node it says what the
operands do; so expressions are compared up to places (`Expr.unplaced`) and with their
flags as `Expr.combine` computes them (`Expr.recombined`). An expression that has been
read back `Matches` the one it was spelled from in that sense.

Consumed by the proof that a spelled expression is read back.
-/
import MiniC.Proofs.Source.Lawful
import MiniC.SymbolTable
import MiniC.Token

namespace MiniC

-- =============================================================== symbols

/-- The symbol of a binary operator. -/
def BinaryOp.symbol : BinaryOp → Symbol
  | .assign => .assign
  | .compound .add => .addAssign
  | .compound .sub => .subAssign
  | .compound .mul => .mulAssign
  | .compound .div => .divAssign
  | .arith .add => .add
  | .arith .sub => .sub
  | .arith .mul => .mul
  | .arith .div => .div
  | .compare .lt => .lt
  | .compare .gt => .gt
  | .compare .le => .le
  | .compare .ge => .ge
  | .compare .eq => .eq
  | .compare .ne => .ne

/-- The symbol of a unary operator. -/
def UnaryOp.symbol : UnaryOp → Symbol
  | .plus => .add
  | .minus => .sub
  | .not => .excl
  | .incr => .incr
  | .decr => .decr

/-- The symbol of an accessor. -/
def Accessor.symbol : Accessor → Symbol
  | .dot => .dot
  | .arrow => .arrow
  | .scope => .scope

/-- An operator is read from its symbol. -/
theorem BinaryOp.binaryOp?_symbol (op : BinaryOp) : op.symbol.binaryOp? = some op := by
  rcases op with _ | op | op | op
  · rfl
  all_goals cases op <;> rfl

theorem Accessor.accessor?_symbol (accessor : Accessor) :
    accessor.symbol.accessor? = some accessor := by
  cases accessor <;> rfl

/-- The kind of literal that a number of the given type is written as. -/
def Ty.literalKind : Ty → LiteralKind
  | .float => .float
  | .double => .double
  | .bool => .bool
  | .char => .char
  | _ => .int

theorem Ty.literalKind_ne_string (ty : Ty) : ty.literalKind ≠ .string := by
  cases ty <;> exact LiteralKind.noConfusion

-- ============================================================== grouping

namespace BinaryOp

/-- Whether an operator takes over the right operand of one in front of it: it
binds more tightly, or as tightly in a chain that groups from the right. -/
def overtakes (next op : BinaryOp) : Bool :=
  op.precedence < next.precedence || (next.isRightAssoc && next.precedence = op.precedence)

/-- Operators that bind as tightly group from the same side. -/
theorem isRightAssoc_congr {op next : BinaryOp} (h : op.precedence = next.precedence) :
    op.isRightAssoc = next.isRightAssoc := by
  have hassign (op : BinaryOp) : op.isRightAssoc = (op.precedence == 1) := by
    rcases op with _ | op | op | op
    · rfl
    all_goals cases op <;> rfl
  rw [hassign, hassign, h]

/-- An operator overtakes if it is stronger, or as strong and grouping to the right. -/
theorem overtakes_iff {next op : BinaryOp} :
    next.overtakes op = true ↔ op.precedence < next.precedence
      ∨ next.isRightAssoc = true ∧ next.precedence = op.precedence := by
  rw [overtakes, Bool.or_eq_true_iff, Bool.and_eq_true_iff, decide_eq_true_iff, decide_eq_true_iff]

/-- What does not overtake is no stronger. -/
theorem precedence_le {next op : BinaryOp} (h : next.overtakes op = false) :
    next.precedence ≤ op.precedence := by
  refine Nat.le_of_not_lt fun hlt => ?_
  rw [overtakes_iff.2 (Or.inl hlt)] at h
  cases h

/-- What binds at least as tightly as an operator takes over what that one
does. -/
theorem overtakes_mono {next inner op : BinaryOp} (hle : inner.precedence ≤ next.precedence)
    (h : inner.overtakes op = true) : next.overtakes op = true := by
  rw [overtakes_iff] at h ⊢
  rcases h with hlt | ⟨hright, heq⟩
  · exact Or.inl (Nat.lt_of_lt_of_le hlt hle)
  · rcases Nat.lt_or_eq_of_le hle with hlt | hsame
    · exact Or.inl (heq ▸ hlt)
    · exact Or.inr ⟨isRightAssoc_congr hsame ▸ hright, hsame ▸ heq⟩

/-- What does not take over from an operator does not take over from one that
does. -/
theorem overtakes_trans {next inner op : BinaryOp} (hinner : inner.overtakes op = true)
    (h : next.overtakes op = false) : next.overtakes inner = false := by
  refine Bool.eq_false_iff.2 fun hnext => ?_
  have hle : inner.precedence ≤ next.precedence := by
    rcases overtakes_iff.1 hnext with hlt | ⟨-, heq⟩
    · exact Nat.le_of_lt hlt
    · exact Nat.le_of_eq heq.symm
  rw [overtakes_mono hle hinner] at h
  cases h

end BinaryOp

-- ============================================================== spelling

namespace Expr

/-- The operator at the root of a binary node. -/
def root? : Expr → Option BinaryOp
  | .binary op _ _ _ _ _ => some op
  | _ => none

theorem IsPlace.root? {e : Expr} (h : e.IsPlace) : e.root? = none := by
  rcases h with ⟨i, rfl⟩ | ⟨object, accessor, field, pos, rfl⟩ <;> rfl

/-- Whether the left operand of an operator needs parentheses: the operator
would take over its right end. -/
def wrappedLeft (op : BinaryOp) (lhs : Expr) : Bool := lhs.root?.any fun inner => op.overtakes inner

/-- Whether the right operand of an operator needs parentheses: its own
operator would not take it over. -/
def wrappedRight (op : BinaryOp) (rhs : Expr) : Bool :=
  rhs.root?.any fun inner => !inner.overtakes op

end Expr

/-- Lexemes in parentheses, if they need them. -/
def enclosed (wrapped : Bool) (ls : List Lexeme) : List Lexeme :=
  if wrapped then .symbol .lparen :: (ls ++ [.symbol .rparen]) else ls

/-- The lexemes of an expression, with parentheses only where they are
needed. -/
def Expr.lexemes : Expr → List Lexeme
  | .ident i => [.ident i.name]
  | .number lit => [.literal lit.ty.literalKind lit.text]
  | .string lit => [.literal .string lit.value]
  | .member object accessor field _ =>
    [.ident object.name, .symbol accessor.symbol, .ident field.name]
  | .unary op .before operand _ =>
    .symbol op.symbol :: enclosed operand.root?.isSome operand.lexemes
  | .unary op .after operand _ =>
    enclosed operand.root?.isSome operand.lexemes ++ [.symbol op.symbol]
  | .binary op lhs rhs _ _ _ =>
    enclosed (lhs.wrappedLeft op) lhs.lexemes
      ++ .symbol op.symbol :: enclosed (rhs.wrappedRight op) rhs.lexemes

/-- Tokens that spell an expression, all at one place. -/
def Expr.tokens (e : Expr) : List Token := e.lexemes.map (⟨·, .start⟩)

/-- What a text can say: names in sight, members that exist, numbers of a type
that literals have, places under assignments and steps, and no minus in front
of a number, which would take the sign in. -/
def Expr.Spellable (t : SymbolTable) (p : Program) : Expr → Prop
  | .ident i => i.assignable = true ∧ (t.lookup? i.name).isSome = true
  | .number lit => lit.ty.literalKind.ty = lit.ty
  | .string lit => lit.length = lit.value.utf8ByteSize
  | .member object accessor field _ =>
    object.assignable = true ∧ field.assignable = false
      ∧ ∃ aggregate decl,
        ((t.lookup? object.name).map (·.ty) = some (.named aggregate)
          ∨ t.lookup? object.name = none ∧ accessor = .scope ∧ object.name = aggregate)
          ∧ p.aggregate? aggregate = some decl ∧ (decl.member? field.name).isSome = true
  | .unary op fixity operand _ =>
    (fixity = .after → op = .incr ∨ op = .decr)
      ∧ (op = .incr ∨ op = .decr → operand.IsPlace) ∧ (op = .minus → ∀ lit, operand ≠ .number lit)
      ∧ operand.Spellable t p
  | .binary op lhs rhs _ _ _ =>
    (op.isAssignment = true → lhs.IsPlace) ∧ lhs.Spellable t p ∧ rhs.Spellable t p

-- ============================================================= comparing

namespace Expr

/-- An expression without its places. -/
def unplaced : Expr → Expr
  | .ident i => .ident { i with pos := .start }
  | .number lit => .number { lit with pos := .start }
  | .string lit => .string { lit with pos := .start }
  | .binary op lhs rhs constant operandsMatch _ =>
    .binary op lhs.unplaced rhs.unplaced constant operandsMatch .start
  | .unary op fixity operand _ => .unary op fixity operand.unplaced .start
  | .member object accessor field _ =>
    .member { object with pos := .start } accessor { field with pos := .start } .start

/-- An expression with the flags that follow from its operands. -/
def recombined : Expr → Expr
  | .binary op lhs rhs _ _ pos => combine op lhs.recombined rhs.recombined pos
  | .unary op fixity operand pos => .unary op fixity operand.recombined pos
  | e => e

/-- The flags of a node do not depend on places. -/
theorem unplaced_combine (op : BinaryOp) (lhs rhs : Expr) (pos : Position) :
    (combine op lhs rhs pos).unplaced = combine op lhs.unplaced rhs.unplaced .start := by
  have hfoldable : foldable op lhs.unplaced rhs.unplaced = foldable op lhs rhs := by
    cases lhs <;> cases rhs <;> rfl
  have hsame : sameIdent lhs.unplaced rhs.unplaced = sameIdent lhs rhs := by
    cases lhs <;> cases rhs <;> rfl
  unfold combine
  rw [hfoldable, hsame]
  rfl

/-- Whether an expression says the same as another: they are equal but for
places and for the flags of the other. -/
def Matches (e' e : Expr) : Prop := e'.unplaced = e.recombined.unplaced

/-- Operations match if their operands do, whatever their flags were. -/
theorem Matches.binary {op : BinaryOp} {lhs lhs' rhs rhs' : Expr} (hl : lhs'.Matches lhs)
    (hr : rhs'.Matches rhs) (constant operandsMatch : Bool) (pos pos' : Position) :
    (combine op lhs' rhs' pos').Matches (.binary op lhs rhs constant operandsMatch pos) := by
  unfold Matches
  rw [unplaced_combine, hl, hr]
  exact (unplaced_combine op lhs.recombined rhs.recombined pos).symm

theorem Matches.unary {operand operand' : Expr} (h : operand'.Matches operand) (op : UnaryOp)
    (fixity : Fixity) (pos pos' : Position) :
    (Expr.unary op fixity operand' pos').Matches (.unary op fixity operand pos) :=
  congrArg (Expr.unary op fixity · .start) h

/-- A number is said by a number only. -/
theorem Matches.ne_number {e e' : Expr} (h : e'.Matches e) (hne : ∀ lit, e ≠ .number lit)
    (lit : NumberLiteral) : e' ≠ .number lit := by
  rintro rfl
  cases e with
  | number lit' => exact hne lit' rfl
  | _ => cases h

/-- What says the same as a place can be stored into. -/
theorem Matches.isAssignable {e e' : Expr} {t : SymbolTable} {p : Program} (h : e'.Matches e)
    (hplace : e.IsPlace) (hspell : e.Spellable t p) : e'.isAssignable = true := by
  rcases hplace with ⟨i, rfl⟩ | ⟨object, accessor, field, pos, rfl⟩
  · cases e' with
    | ident i' =>
        have hi : ({ i' with pos := .start } : Ident) = { i with pos := .start } :=
          Expr.ident.inj h
        exact (congrArg Ident.assignable hi).trans hspell.1
    | _ => cases h
  · cases e' with
    | member => rfl
    | _ => cases h

end Expr

end MiniC
