/-
The loops of the grammar, cut into rounds. A loop runs one round, which comes
to the loop's answer or to what the next round starts with; the rules that a
round calls are its parameters. Each loop is shown to be its round, followed by
the loop again with one step less.

# Why rounds

The loops of the grammar are recursive functions on the number of steps they are
given, and each has its body and its recursive call in one piece. What an account
has to say of them falls into two halves: what one round takes and answers, and
that rounds follow each other as long as tokens last. The second half is the same
for all six loops, and is said once of `Round.follow`; only the first one depends
on the loop.

# The loops

Operators behind a left operand (`climbRound`), operators that bind a right
operand tighter (`tightenRound`), statements up to a closing brace (`blockRound`),
parameters (`parametersRound`), members (`membersRound`) and declarations
(`programRound`). A `Loop` packs what a loop starts with, what it answers and
both forms of it, so that whatever holds of every loop can be stated of
`IsLoop` at once. Consumed by the traversal of the grammar and by the proof that
the grammar decides every list of tokens.
-/
import MiniC.Parser.Declaration

namespace MiniC.Parser

variable {ι α : Type}

-- ================================================================ rounds

/-- What a round of a loop comes to: the answer, or what the next round starts
with and what the answer of the rounds to come is made into. -/
inductive Round (ι α : Type) where
  | done (a : α)
  | again (next : ι) (finish : α → α)

/-- The rest of a loop behind a round. -/
def Round.follow (run : ι → Parser α) : Round ι α → Parser α
  | .done a => pure a
  | .again next finish => finish <$> run next

/-- A loop: what it does with so many steps left, and a round of it. -/
structure Loop where
  Start : Type
  Answer : Type
  run : Nat → Start → Parser Answer
  round : Nat → Start → Parser (Round Start Answer)

/-- Whether a loop is its round and the loop again. -/
def Loop.Unrolls (l : Loop) : Prop :=
  ∀ fuel start, l.run (fuel + 1) start = l.round fuel start >>= Round.follow (l.run fuel)

-- =========================================================== expressions

/-- Takes an operator above the floor and its right operand. -/
def climbRound (term : Parser Expr) (tighten : BinaryOp → Expr → Parser Expr) (floor : Nat)
    (lhs : Expr) : Parser (Round Expr Expr) := do
  match ← peekOperator with
  | none => return .done lhs
  | some op =>
    if op.precedence < floor then return .done lhs
    else
      let token ← take "expression"
      let rhs ← term
      let rhs ← tighten op rhs
      if op.isAssignment && !lhs.isAssignable then fail (.notAssignable lhs.pos)
      else return .again (.combine op lhs rhs token.pos) id

/-- Extends a right operand by an operator that comes before its own. -/
def tightenRound (climb : Nat → Expr → Parser Expr) (op : BinaryOp) (rhs : Expr) :
    Parser (Round Expr Expr) := do
  match ← peekOperator with
  | none => return .done rhs
  | some next =>
    if op.precedence < next.precedence then
      let rhs ← climb (op.precedence + 1) rhs
      return .again rhs id
    else if next.isRightAssoc && next.precedence = op.precedence then
      let rhs ← climb op.precedence rhs
      return .again rhs id
    else return .done rhs

/-- One more operator behind a left operand, or none. -/
theorem climb_unrolls (fuel floor : Nat) (lhs : Expr) :
    climb (fuel + 1) floor lhs =
      climbRound (termWith fuel) (tighten fuel) floor lhs >>= Round.follow (climb fuel floor) := by
  rw [climb, climbRound, bind_assoc]
  refine bind_congr fun next => ?_
  cases next with
  | none => rfl
  | some op =>
      dsimp only
      split
      · rfl
      simp only [bind_assoc]
      refine bind_congr fun token => bind_congr fun rhs => bind_congr fun rhs => ?_
      split
      · rfl
      · rw [pure_bind]
        exact (id_map _).symm

/-- One more operator that binds the right operand tighter, or none. -/
theorem tighten_unrolls (fuel : Nat) (op : BinaryOp) (rhs : Expr) :
    tighten (fuel + 1) op rhs =
      tightenRound (climb fuel) op rhs >>= Round.follow (tighten fuel op) := by
  have hagain (x : Parser Expr) : (x >>= fun rhs => tighten fuel op rhs) =
      (x >>= fun rhs => pure (Round.again rhs id)) >>= Round.follow (tighten fuel op) := by
    rw [bind_assoc]
    refine bind_congr fun rhs => ?_
    rw [pure_bind]
    exact (id_map _).symm
  rw [tighten, tightenRound, bind_assoc]
  refine bind_congr fun next => ?_
  cases next with
  | none => rfl
  | some next =>
      dsimp only
      split
      · exact hagain _
      split
      · exact hagain _
      · rfl

/-- The operators behind a left operand, above a floor. -/
def climbing (floor : Nat) : Loop where
  Start := Expr
  Answer := Expr
  run fuel lhs := climb fuel floor lhs
  round fuel lhs := climbRound (termWith fuel) (tighten fuel) floor lhs

/-- The operators behind a right operand. -/
def tightening (op : BinaryOp) : Loop where
  Start := Expr
  Answer := Expr
  run fuel rhs := tighten fuel op rhs
  round fuel rhs := tightenRound (climb fuel) op rhs

-- ============================================================ statements

/-- Takes a statement or the closing brace. -/
def blockRound (statement : Parser Stmt) : Parser (Round Unit (List Stmt)) := do
  if ← accept .rcurly then return .done []
  else
    match ← peek 0 with
    | none => fail (.unexpectedEof Symbol.rcurly.describe (← get).last)
    | some _ =>
      let first ← statement
      return .again () (first :: ·)

/-- One more statement, or the brace that closes the block. -/
theorem blockRest_unrolls (fuel : Nat) :
    blockRest (fuel + 1) =
      blockRound (statementWith fuel) >>= Round.follow fun _ => blockRest fuel := by
  rw [blockRest, blockRound, bind_assoc]
  refine bind_congr fun closed => ?_
  split
  · rfl
  rw [bind_assoc]
  refine bind_congr fun next => ?_
  cases next with
  | none => rfl
  | some _ =>
      dsimp only
      rw [bind_assoc]
      refine bind_congr fun first => ?_
      rw [pure_bind]
      exact bind_pure_comp _ _

/-- The statements of a block. -/
def block : Loop where
  Start := Unit
  Answer := List Stmt
  run fuel _ := blockRest fuel
  round fuel _ := blockRound (statementWith fuel)

-- ========================================================== declarations

/-- Takes a parameter or the closing parenthesis. -/
def parametersRound (earlier : List VariableDecl) :
    Parser (Round (List VariableDecl) (List VariableDecl)) := do
  if ← accept .rparen then return .done earlier
  else
    let decl ← parameter earlier
    if ← accept .comma then return .again (earlier ++ [decl]) id
    else
      want .rparen
      return .done (earlier ++ [decl])

/-- One more parameter, or the end of the list. -/
theorem parametersWith_unrolls (fuel : Nat) (earlier : List VariableDecl) :
    parametersWith (fuel + 1) earlier =
      parametersRound earlier >>= Round.follow (parametersWith fuel) := by
  rw [parametersWith, parametersRound, bind_assoc]
  refine bind_congr fun closed => ?_
  split
  · rfl
  simp only [bind_assoc]
  refine bind_congr fun decl => bind_congr fun comma => ?_
  split
  · rw [pure_bind]
    exact (id_map _).symm
  · rw [bind_assoc]
    rfl

/-- The parameters of a function. -/
def parameterList : Loop where
  Start := List VariableDecl
  Answer := List VariableDecl
  run := parametersWith
  round _ := parametersRound

/-- Takes an access label, a method, a member or the closing brace. -/
def membersRound (access : Access) (decl : AggregateDecl) :
    Parser (Round (Access × AggregateDecl) AggregateDecl) := do
  if ← accept .rcurly then return .done decl
  else
    match (← peek 0).bind accessOf? with
    | some access =>
      let _ ← take "access mode"
      want .colon
      return .again (access, decl) id
    | none =>
      let ty ← wantType
      let (name, pos) ← wantIdent
      if ← atSymbol .lparen then
        let method ← functionRest ty name pos access
        return .again (access, { decl with methods := decl.methods ++ [method] }) id
      else
        let member ← variableRest ty name pos access
        return .again (access, { decl with members := decl.members ++ [member] }) id

/-- One more member or access mode, or the brace that closes the aggregate. -/
theorem membersWith_unrolls (fuel : Nat) (access : Access) (decl : AggregateDecl) :
    membersWith (fuel + 1) access decl =
      membersRound access decl >>= Round.follow fun next => membersWith fuel next.1 next.2 := by
  rw [membersWith, membersRound, bind_assoc]
  refine bind_congr fun closed => ?_
  split
  · rfl
  rw [bind_assoc]
  refine bind_congr fun next => ?_
  cases next.bind accessOf? with
  | some access =>
      simp only [bind_assoc, pure_bind]
      exact bind_congr fun _ => bind_congr fun _ => (id_map _).symm
  | none =>
      simp only [bind_assoc]
      refine bind_congr fun ty => bind_congr fun named => bind_congr fun isMethod => ?_
      split
      all_goals
        simp only [bind_assoc, pure_bind]
        exact bind_congr fun _ => (id_map _).symm

/-- The members of an aggregate. -/
def memberList : Loop where
  Start := Access × AggregateDecl
  Answer := AggregateDecl
  run fuel next := membersWith fuel next.1 next.2
  round _ next := membersRound next.1 next.2

/-- Takes a declaration, unless the tokens are at their end. -/
def programRound : Parser (Round Unit Program) := do
  match ← peek 0 with
  | none => return .done (← get).program
  | some _ =>
    let decl ← topLevel
    modify fun s => { s with program := ⟨s.program.body ++ [decl]⟩ }
    return .again () id

/-- One more declaration, or the end of the tokens. -/
theorem programWith_unrolls (fuel : Nat) :
    programWith (fuel + 1) = programRound >>= Round.follow fun _ => programWith fuel := by
  rw [programWith, programRound, bind_assoc]
  refine bind_congr fun next => ?_
  cases next with
  | none => rfl
  | some _ =>
      simp only [bind_assoc, pure_bind]
      exact bind_congr fun decl => bind_congr fun _ => (id_map _).symm

/-- The declarations of a program. -/
def declarations : Loop where
  Start := Unit
  Answer := Program
  run fuel _ := programWith fuel
  round _ _ := programRound

-- ================================================================= loops

/-- The loops of the grammar. -/
inductive IsLoop : Loop → Prop where
  | climbing (floor : Nat) : IsLoop (climbing floor)
  | tightening (op : BinaryOp) : IsLoop (tightening op)
  | block : IsLoop block
  | parameterList : IsLoop parameterList
  | memberList : IsLoop memberList
  | declarations : IsLoop declarations

/-- Every loop of the grammar is its round, and then itself. -/
theorem IsLoop.unrolls {l : Loop} (h : IsLoop l) : l.Unrolls := by
  cases h with
  | climbing floor => exact fun fuel lhs => climb_unrolls fuel floor lhs
  | tightening op => exact fun fuel rhs => tighten_unrolls fuel op rhs
  | block => exact fun fuel _ => blockRest_unrolls fuel
  | parameterList => exact parametersWith_unrolls
  | memberList => exact fun fuel next => membersWith_unrolls fuel next.1 next.2
  | declarations => exact fun fuel _ => programWith_unrolls fuel

end MiniC.Parser
