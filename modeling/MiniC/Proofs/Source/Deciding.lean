/-
What is left of a function once its choices are decided.

# Visits

A back end goes through the statements of a function in order. Where a
condition is known beforehand it follows the one way that the condition leaves,
and where nothing is known it follows both. What it goes through so is a
`Visits`: from a body to its first statement and the rest, from a block to its
body, from an arm to the ways that are open. Whatever it finds at the leaves
that it comes by holds everywhere in the decided form, since that form has no
other leaves (`Visits.decided`). The induction over statements is made here, for
both back ends and for demands on a function alike (`Everywhere.visits`).

# Put plainly

Of the conditions that are known to hold only those of loops are left, and they
may be written in many ways. Put plainly, each of them is the number one
(`Expr.plainly`). Consumed by the comparison of the two back ends, which compare
what they make of a function decided and put plainly.
-/
import MiniC.Proofs.Source.Choices

namespace MiniC

-- =============================================================== visits

/-- The leaf that a statement is, if it is one. -/
def Stmt.leaf? : Stmt → Option Leaf
  | .ret value _ => some (.result value)
  | .variable decl => some (.variable decl)
  | .expr e => some (.effect e)
  | .function _ => some .nested
  | .aggregate _ => some .nested
  | .block _ | .branch _ | .loop _ _ _ => none

/-- Whether going through statements leads from each of them to what it
consists of, what a decided choice cuts off apart, and finds something at each
leaf. With each part go the names in sight of it. -/
structure Visits (P : Sight → Leaf → Prop) (body : Sight → List Stmt → Prop)
    (stmt : Sight → Stmt → Prop) (alternate : Sight → Alternate → Prop) : Prop where
  cons : ∀ {sight st rest}, body sight (st :: rest) →
    stmt sight st ∧ body (st.declare sight) rest
  leaf : ∀ {sight st leaf}, st.leaf? = some leaf → stmt sight st → P sight leaf
  block : ∀ {sight inner}, stmt sight (.block inner) → body ([] :: sight) inner
  branch : ∀ {sight arm}, stmt sight (.branch arm) → alternate sight (.elseIf arm)
  loop : ∀ {sight e inner pos}, stmt sight (.loop e inner pos) → e.verdict? ≠ some false →
    P sight (.condition e) ∧ body ([] :: sight) inner
  otherwise : ∀ {sight inner}, alternate sight (.block inner) → body ([] :: sight) inner
  holds : ∀ {sight e consequent other pos},
    alternate sight (.elseIf ⟨e, consequent, other, pos⟩) → e.verdict? = some true →
      body ([] :: sight) consequent
  fails : ∀ {sight e consequent other pos},
    alternate sight (.elseIf ⟨e, consequent, other, pos⟩) → e.verdict? = some false →
      alternate sight other
  undecided : ∀ {sight e consequent other pos},
    alternate sight (.elseIf ⟨e, consequent, other, pos⟩) → e.verdict? = none →
      P sight (.condition e) ∧ body ([] :: sight) consequent ∧ alternate sight other

section Visits

variable {P : Sight → Leaf → Prop} {body : Sight → List Stmt → Prop}
  {stmt : Sight → Stmt → Prop} {alternate : Sight → Alternate → Prop}

/-- An alternate as a statement holds the same leaves. -/
theorem Alternate.Everywhere.toStmt {sight : Sight} {other : Alternate}
    (h : other.Everywhere P sight) : other.toStmt.Everywhere P sight := by
  cases other with
  | none => trivial
  | block body => exact h
  | elseIf arm => exact h

theorem Alternate.Everywhere.filled {sight : Sight} {other : Alternate}
    (h : other.Everywhere P sight) : other.filled.Everywhere P sight := by
  cases other with
  | none => trivial
  | block body => exact h
  | elseIf arm => exact h

/-- A decided statement declares what it declared. -/
theorem Stmt.declare_decided (st : Stmt) (sight : Sight) :
    st.decided.declare sight = st.declare sight := by
  cases st with
  | branch arm =>
      rw [Stmt.decided]
      cases arm.decided <;> rfl
  | loop e inner pos =>
      rw [Stmt.decided]
      split <;> rfl
  | _ => rfl

mutual

/-- What is found at the leaves that are visited holds of the decided form. -/
theorem Visits.stmt_decided (h : Visits P body stmt alternate) :
    ∀ {st : Stmt} {sight : Sight}, stmt sight st → st.decided.Everywhere P sight
  | .block inner, sight, hst => h.body_decided (h.block hst)
  | .branch arm, sight, hst => (h.arm_decided (h.branch hst)).toStmt
  | .loop e inner pos, sight, hst => by
      rw [Stmt.decided]
      split
      · trivial
      · rename_i hgoes
        obtain ⟨hcondition, hinner⟩ := h.loop hst hgoes
        exact ⟨hcondition, h.body_decided hinner⟩
  | .ret _ _, _, hst => h.leaf rfl hst
  | .variable _, _, hst => h.leaf rfl hst
  | .expr _, _, hst => h.leaf rfl hst
  | .function _, _, hst => h.leaf rfl hst
  | .aggregate _, _, hst => h.leaf rfl hst

/-- What is found in a body holds everywhere in its decided form. -/
theorem Visits.body_decided (h : Visits P body stmt alternate) :
    ∀ {inner : List Stmt} {sight : Sight}, body sight inner →
      Stmt.EverywhereIn P sight (decidedAll inner)
  | [], _, _ => trivial
  | st :: rest, sight, hbody => by
      obtain ⟨hst, hrest⟩ := h.cons hbody
      refine ⟨h.stmt_decided hst, ?_⟩
      rw [st.declare_decided]
      exact h.body_decided hrest

theorem Visits.arm_decided (h : Visits P body stmt alternate) :
    ∀ {arm : Arm} {sight : Sight}, alternate sight (.elseIf arm) →
      arm.decided.Everywhere P sight
  | ⟨e, consequent, other, pos⟩, sight, harm => by
      rw [Arm.decided]
      cases hverdict : e.verdict? with
      | none =>
          obtain ⟨hcondition, hfirst, hsecond⟩ := h.undecided harm hverdict
          exact ⟨hcondition, h.body_decided hfirst, h.alternate_decided hsecond⟩
      | some holds =>
          cases holds with
          | true => exact h.body_decided (h.holds harm hverdict)
          | false => exact (h.alternate_decided (h.fails harm hverdict)).filled

theorem Visits.alternate_decided (h : Visits P body stmt alternate) :
    ∀ {other : Alternate} {sight : Sight}, alternate sight other →
      other.decided.Everywhere P sight
  | .none, _, _ => by
      rw [Alternate.decided]
      trivial
  | .block inner, _, hother => by
      rw [Alternate.decided]
      exact h.body_decided (h.otherwise hother)
  | .elseIf arm, _, hother => by
      rw [Alternate.decided]
      exact h.arm_decided hother

end

/-- So it does of a decided function. -/
theorem Visits.decided (h : Visits P body stmt alternate) {decl : FunctionDecl}
    (hbody : body decl.sight decl.body) : decl.decided.Everywhere P :=
  h.body_decided hbody

/-- What holds everywhere is found wherever one goes. -/
theorem Everywhere.visits (P : Sight → Leaf → Prop) :
    Visits P (Stmt.EverywhereIn P) (fun sight st => st.Everywhere P sight)
      (fun sight other => other.Everywhere P sight) where
  cons := id
  leaf := by
    intro sight st leaf hleaf h
    cases st <;> cases hleaf <;> exact h
  block := id
  branch := id
  loop h _ := h
  otherwise := id
  holds h _ := h.2.1
  fails h _ := h.2.2
  undecided h _ := h

/-- Deciding keeps what holds everywhere. -/
theorem FunctionDecl.Everywhere.decided {decl : FunctionDecl} (h : decl.Everywhere P) :
    decl.decided.Everywhere P :=
  (Everywhere.visits P).decided h

end Visits

-- ========================================================= put plainly

/-- A condition put plainly: one that is known to hold is the number one. -/
def Expr.plainly (e : Expr) : Expr :=
  if e.verdict? = some true then .number ⟨.int, "1", e.pos⟩ else e

/-- A leaf with its condition put plainly. -/
def Leaf.plainly : Leaf → Leaf
  | .condition e => .condition e.plainly
  | leaf => leaf

mutual

/-- A statement with its conditions put plainly. -/
def Stmt.plainly : Stmt → Stmt
  | .block body => .block (plainlyAll body)
  | .branch arm => .branch arm.plainly
  | .loop e body pos => .loop e.plainly (plainlyAll body) pos
  | st => st

/-- Statements with their conditions put plainly. -/
def plainlyAll : List Stmt → List Stmt
  | [] => []
  | st :: rest => st.plainly :: plainlyAll rest

/-- An arm with its conditions put plainly. -/
def Arm.plainly : Arm → Arm
  | ⟨e, consequent, alternate, pos⟩ =>
    ⟨e.plainly, plainlyAll consequent, alternate.plainly, pos⟩

/-- An alternate with its conditions put plainly. -/
def Alternate.plainly : Alternate → Alternate
  | .none => .none
  | .block body => .block (plainlyAll body)
  | .elseIf arm => .elseIf arm.plainly

end

/-- A function with its conditions put plainly. -/
def FunctionDecl.plainly (decl : FunctionDecl) : FunctionDecl :=
  { decl with body := plainlyAll decl.body }

/-- A condition of which nothing is known is plain. -/
theorem Expr.plainly_open {e : Expr} (h : e.isConstant = false) : e.plainly = e :=
  if_neg (by rw [Expr.verdict?_open h]; exact nofun)

theorem NumberLiteral.toInt_one (pos : Position) :
    NumberLiteral.toInt ⟨.int, "1", pos⟩ = .ok 1 := by
  have htext : Integer.ofText? "1" = some 1 := by decide
  exact Source.toInt_of_text rfl htext

/-- The number one holds. -/
theorem Expr.verdict?_one (pos : Position) :
    (Expr.number ⟨.int, "1", pos⟩).verdict? = some true := by
  refine Expr.verdict?_some.2 ⟨rfl, ?_⟩
  show NumberLiteral.isZero ⟨.int, "1", pos⟩ = .ok false
  unfold NumberLiteral.isZero
  rw [Source.number_of_toInt rfl (NumberLiteral.toInt_one pos)]
  rfl

/-- Put plainly a condition is constant or not as before, and folds to zero or
not as before. -/
theorem Expr.isConstant_plainly (e : Expr) : e.plainly.isConstant = e.isConstant := by
  unfold Expr.plainly
  split
  · rename_i h
    exact (Expr.verdict?_some.1 h).1.symm
  · rfl

/-- What is put plainly folds to zero where it did. -/
theorem Expr.foldsToZero_plainly (e : Expr) : e.plainly.foldsToZero = e.foldsToZero := by
  unfold Expr.plainly
  split
  · rename_i h
    exact (Expr.verdict?_some.1 (Expr.verdict?_one e.pos)).2.trans (Expr.verdict?_some.1 h).2.symm
  · rfl

theorem Alternate.plainly_none {alternate : Alternate} :
    alternate.plainly = .none ↔ alternate = .none := by
  cases alternate with
  | none => exact Iff.rfl
  | block body => constructor <;> intro h <;> cases h
  | elseIf arm => constructor <;> intro h <;> cases h

section Plainly

variable {P Q : Sight → Leaf → Prop}

/-- What is put plainly declares what it did. -/
theorem Stmt.declare_plainly (st : Stmt) (sight : Sight) :
    st.plainly.declare sight = st.declare sight := by
  cases st <;> rfl

mutual

/-- What holds of leaves put plainly holds everywhere in a statement put
plainly. -/
theorem Stmt.Everywhere.plainly (himp : ∀ sight leaf, P sight leaf → Q sight leaf.plainly) :
    ∀ {st : Stmt} {sight : Sight}, st.Everywhere P sight → st.plainly.Everywhere Q sight
  | .block _, _, h => Stmt.EverywhereIn.plainly himp h
  | .branch _, _, h => Arm.Everywhere.plainly himp h
  | .loop _ _ _, _, h => ⟨himp _ _ h.1, Stmt.EverywhereIn.plainly himp h.2⟩
  | .ret _ _, _, h => himp _ _ h
  | .variable _, _, h => himp _ _ h
  | .expr _, _, h => himp _ _ h
  | .function _, _, h => himp _ _ h
  | .aggregate _, _, h => himp _ _ h

/-- What holds of each leaf put plainly holds everywhere in a body put plainly. -/
theorem Stmt.EverywhereIn.plainly (himp : ∀ sight leaf, P sight leaf → Q sight leaf.plainly) :
    ∀ {body : List Stmt} {sight : Sight}, Stmt.EverywhereIn P sight body →
      Stmt.EverywhereIn Q sight (plainlyAll body)
  | [], _, _ => trivial
  | st :: _, sight, h => by
      refine ⟨Stmt.Everywhere.plainly himp h.1, ?_⟩
      rw [st.declare_plainly]
      exact Stmt.EverywhereIn.plainly himp h.2

theorem Arm.Everywhere.plainly (himp : ∀ sight leaf, P sight leaf → Q sight leaf.plainly) :
    ∀ {arm : Arm} {sight : Sight}, arm.Everywhere P sight → arm.plainly.Everywhere Q sight
  | ⟨_, _, _, _⟩, _, h =>
      ⟨himp _ _ h.1, Stmt.EverywhereIn.plainly himp h.2.1,
        Alternate.Everywhere.plainly himp h.2.2⟩

theorem Alternate.Everywhere.plainly
    (himp : ∀ sight leaf, P sight leaf → Q sight leaf.plainly) :
    ∀ {alternate : Alternate} {sight : Sight}, alternate.Everywhere P sight →
      alternate.plainly.Everywhere Q sight
  | .none, _, _ => trivial
  | .block _, _, h => Stmt.EverywhereIn.plainly himp h
  | .elseIf _, _, h => Arm.Everywhere.plainly himp h

end

end Plainly

end MiniC
