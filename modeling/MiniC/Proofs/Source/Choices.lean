/-
The choices of a function, which are the arms of its if chains and its loops.
Of a condition that is constant it is known beforehand whether it holds, and so
which way the choice goes (`Expr.verdict?`).

# Decided forms

In the decided form of a function these choices are made: an arm has become the
block it goes to, and a loop that is never entered an empty block. What decided
choices cut off is left out in it, and the choices that are not cut off are `kept`.
An arm whose condition is open stays an arm, with both its sides decided; a loop
whose condition always holds stays a loop, since deciding it says nothing about how
often it is run.

A condition can be marked constant and not fold, and then it has no verdict, as if
it were open. In an accepted program there is none of that kind, but nothing here
depends on it: the forms are computed from the source alone.

Consumed by the proofs that both back ends treat a function as its decided form.
-/
import MiniC.Proofs.Source.Lawful

namespace MiniC

-- =============================================================== choices

/-- Whether a condition holds, as far as that is known beforehand. -/
def Expr.verdict? (e : Expr) : Option Bool :=
  if e.isConstant then
    match e.foldsToZero with
    | .ok zero => some !zero
    | .error _ => none
  else none

/-- A verdict is what a constant condition folds to. -/
theorem Expr.verdict?_some {e : Expr} {holds : Bool} :
    e.verdict? = some holds ↔ e.isConstant = true ∧ e.foldsToZero = .ok !holds := by
  unfold verdict?
  cases e.isConstant with
  | false => simp
  | true =>
      cases e.foldsToZero with
      | error reason => simp
      | ok zero => cases zero <;> cases holds <;> simp

/-- A constant condition that folds has a verdict. -/
theorem Expr.verdict?_folds {e : Expr} {zero : Bool} (hconst : e.isConstant = true)
    (hzero : e.foldsToZero = .ok zero) : e.verdict? = some !zero :=
  Expr.verdict?_some.2 ⟨hconst, by rw [hzero, Bool.not_not]⟩

/-- An open condition has no verdict. -/
theorem Expr.verdict?_open {e : Expr} (h : e.isConstant = false) : e.verdict? = none :=
  if_neg (by rw [h]; exact Bool.false_ne_true)

/-- A place where a function goes one way or another. -/
inductive Choice where
  | arm (arm : Arm)
  | loop (condition : Expr) (body : List Stmt) (pos : Position)

namespace Choice

/-- What decides a choice. -/
def condition : Choice → Expr
  | .arm a => a.condition
  | .loop e _ _ => e

/-- What runs where the condition holds. -/
def body : Choice → List Stmt
  | .arm a => a.consequent
  | .loop _ body _ => body

/-- What runs where it does not. A loop has nothing for that. -/
def alternate : Choice → Alternate
  | .arm a => a.alternate
  | .loop _ _ _ => .none

end Choice

mutual

/-- The choices of a statement in order. -/
def Stmt.choices : Stmt → List Choice
  | .block body => choicesAll body
  | .branch arm => arm.choices
  | .loop e body pos => .loop e body pos :: choicesAll body
  | _ => []

/-- The choices of statements in order. -/
def choicesAll : List Stmt → List Choice
  | [] => []
  | st :: rest => st.choices ++ choicesAll rest

/-- The choices of an if chain from an arm on. -/
def Arm.choices : Arm → List Choice
  | ⟨e, consequent, alternate, pos⟩ =>
    .arm ⟨e, consequent, alternate, pos⟩ :: (choicesAll consequent ++ alternate.choices)

/-- The choices of an alternate. -/
def Alternate.choices : Alternate → List Choice
  | .none => []
  | .block body => choicesAll body
  | .elseIf arm => arm.choices

end

mutual

/-- The choices of a statement that no decided choice cuts off. -/
def Stmt.kept : Stmt → List Choice
  | .block body => keptAll body
  | .branch arm => arm.kept
  | .loop e body pos =>
    .loop e body pos :: if e.verdict? = some false then [] else keptAll body
  | _ => []

/-- The choices of statements that no decided choice cuts off. -/
def keptAll : List Stmt → List Choice
  | [] => []
  | st :: rest => st.kept ++ keptAll rest

/-- The choices of an if chain that no decided choice cuts off. -/
def Arm.kept : Arm → List Choice
  | ⟨e, consequent, alternate, pos⟩ =>
    .arm ⟨e, consequent, alternate, pos⟩ ::
      match e.verdict? with
      | some true => keptAll consequent
      | some false => alternate.kept
      | none => keptAll consequent ++ alternate.kept

/-- The choices of an alternate that no decided choice cuts off. -/
def Alternate.kept : Alternate → List Choice
  | .none => []
  | .block body => keptAll body
  | .elseIf arm => arm.kept

end

-- =============================================================== decided

/-- An alternate as a statement of its own. -/
def Alternate.toStmt : Alternate → Stmt
  | .none => .block []
  | .block body => .block body
  | .elseIf arm => .branch arm

/-- An alternate that is there, if only as an empty block. -/
def Alternate.filled : Alternate → Alternate
  | .none => .block []
  | other => other

mutual

/-- A statement with its decided choices made. -/
def Stmt.decided : Stmt → Stmt
  | .block body => .block (decidedAll body)
  | .branch arm => arm.decided.toStmt
  | .loop e body pos =>
    if e.verdict? = some false then .block [] else .loop e (decidedAll body) pos
  | st => st

/-- Statements with their decided choices made. -/
def decidedAll : List Stmt → List Stmt
  | [] => []
  | st :: rest => st.decided :: decidedAll rest

/-- What becomes of an if chain from an arm on. -/
def Arm.decided : Arm → Alternate
  | ⟨e, consequent, alternate, pos⟩ =>
    match e.verdict? with
    | some true => .block (decidedAll consequent)
    | some false => alternate.decided.filled
    | none => .elseIf ⟨e, decidedAll consequent, alternate.decided, pos⟩

/-- What becomes of an alternate. -/
def Alternate.decided : Alternate → Alternate
  | .none => .none
  | .block body => .block (decidedAll body)
  | .elseIf arm => arm.decided

end

theorem Alternate.filled_ne (alternate : Alternate) : alternate.filled ≠ .none := by
  intro h
  cases alternate <;> cases h

/-- An arm is still there when it is decided. -/
theorem Arm.decided_ne : ∀ arm : Arm, arm.decided ≠ .none := by
  rintro ⟨e, consequent, alternate, pos⟩ h
  unfold Arm.decided at h
  split at h
  · cases h
  · exact alternate.decided.filled_ne h
  · cases h

/-- Deciding leaves no side out and adds none. -/
theorem Alternate.decided_none {alternate : Alternate} :
    alternate.decided = .none ↔ alternate = .none := by
  cases alternate with
  | none => exact ⟨fun _ => rfl, fun _ => by rw [Alternate.decided]⟩
  | block body =>
      rw [Alternate.decided]
      constructor <;> intro h <;> cases h
  | elseIf arm =>
      rw [Alternate.decided]
      refine ⟨fun h => absurd h arm.decided_ne, fun h => ?_⟩
      cases h

namespace FunctionDecl

/-- The choices of a function in order. -/
def choices (decl : FunctionDecl) : List Choice := choicesAll decl.body

/-- The choices of a function that no decided choice cuts off. -/
def kept (decl : FunctionDecl) : List Choice := keptAll decl.body

/-- A function with its decided choices made. -/
def decided (decl : FunctionDecl) : FunctionDecl := { decl with body := decidedAll decl.body }

end FunctionDecl

-- ============================================================ conditions

mutual

/-- What decides a choice is a condition of the statement. -/
theorem Stmt.condition_leaf : ∀ {st : Stmt} {c : Choice}, c ∈ st.choices →
    .condition c.condition ∈ st.leaves
  | .block _, _, h => condition_leafAll h
  | .branch _, _, h => Arm.condition_leaf h
  | .loop _ _ _, _, h => by
      rcases List.mem_cons.1 h with rfl | h
      · exact List.mem_cons_self
      · exact List.mem_cons_of_mem _ (condition_leafAll h)

theorem condition_leafAll : ∀ {body : List Stmt} {c : Choice}, c ∈ choicesAll body →
    .condition c.condition ∈ leavesAll body
  | _ :: _, _, h => by
      rcases List.mem_append.1 h with h | h
      · exact List.mem_append_left _ (Stmt.condition_leaf h)
      · exact List.mem_append_right _ (condition_leafAll h)

theorem Arm.condition_leaf : ∀ {arm : Arm} {c : Choice}, c ∈ arm.choices →
    .condition c.condition ∈ arm.leaves
  | ⟨_, _, _, _⟩, _, h => by
      rcases List.mem_cons.1 h with rfl | h
      · exact List.mem_cons_self
      refine List.mem_cons_of_mem _ ?_
      rcases List.mem_append.1 h with h | h
      · exact List.mem_append_left _ (condition_leafAll h)
      · exact List.mem_append_right _ (Alternate.condition_leaf h)

theorem Alternate.condition_leaf : ∀ {alternate : Alternate} {c : Choice},
    c ∈ alternate.choices → .condition c.condition ∈ alternate.leaves
  | .block _, _, h => condition_leafAll h
  | .elseIf _, _, h => Arm.condition_leaf h

end

mutual

/-- What is kept was there. -/
theorem Stmt.kept_subset : ∀ st : Stmt, st.kept ⊆ st.choices
  | .block body => keptAll_subset body
  | .branch arm => arm.kept_subset
  | .loop e body pos => by
      refine List.cons_subset_cons _ ?_
      split
      · exact List.nil_subset _
      · exact keptAll_subset body
  | .ret _ _ => List.Subset.refl _
  | .variable _ => List.Subset.refl _
  | .expr _ => List.Subset.refl _
  | .function _ => List.Subset.refl _
  | .aggregate _ => List.Subset.refl _

theorem keptAll_subset : ∀ body : List Stmt, keptAll body ⊆ choicesAll body
  | [] => List.Subset.refl _
  | st :: rest => List.append_subset.2
      ⟨List.Subset.trans st.kept_subset (List.subset_append_left _ _),
        List.Subset.trans (keptAll_subset rest) (List.subset_append_right _ _)⟩

theorem Arm.kept_subset : ∀ arm : Arm, arm.kept ⊆ arm.choices
  | ⟨e, consequent, alternate, pos⟩ => by
      refine List.cons_subset_cons _ ?_
      split
      · exact List.Subset.trans (keptAll_subset consequent) (List.subset_append_left _ _)
      · exact List.Subset.trans alternate.kept_subset (List.subset_append_right _ _)
      · exact List.append_subset.2
          ⟨List.Subset.trans (keptAll_subset consequent) (List.subset_append_left _ _),
            List.Subset.trans alternate.kept_subset (List.subset_append_right _ _)⟩

theorem Alternate.kept_subset : ∀ alternate : Alternate, alternate.kept ⊆ alternate.choices
  | .none => List.Subset.refl _
  | .block body => keptAll_subset body
  | .elseIf arm => arm.kept_subset

end

end MiniC
