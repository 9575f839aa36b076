/-
What is so everywhere in an accepted program, in terms of what its syntax
tree holds: its expressions and their parts, its functions and methods with
their leaves and blocks, the types it mentions and the names it declares.
`Program.Lawful` lists it.

# What a tree holds

The lists of leaves, blocks, variables, expressions and types of a declaration are
computed from the tree, so that a law can be stated of each member of a list and no
scopes are left in it. Methods are listed with functions and members with variables
(`callables`, `fields`); what is said of the one is then said of the other.

# Where it comes from

Most of it is a consequence of every declaration making sense behind those before it
(`Program.WellFormed.lawful`): a leaf that makes sense somewhere has expressions that
make sense there, and from those the scopes are forgotten. Names of one block are
different because each was new in the innermost scope when it came into sight
(`declaredIn_nodup`). That what is marked constant folds comes from the grammar and is
taken as a premise here (`Stmt.Folds`).

Consumed by the proof that accepted programs are lawful.
-/
import Mathlib.Data.List.Nodup
import MiniC.Proofs.Source.Types
import MiniC.Proofs.Source.WellFormed

namespace MiniC

-- ================================================================ leaves

mutual

/-- The leaves of a statement in order. -/
def Stmt.leaves : Stmt → List Leaf
  | .block body => leavesAll body
  | .branch arm => arm.leaves
  | .loop e body _ => .condition e :: leavesAll body
  | .ret value _ => [.result value]
  | .variable decl => [.variable decl]
  | .expr e => [.effect e]
  | .function _ => [.nested]
  | .aggregate _ => [.nested]

/-- The leaves of statements in order. -/
def leavesAll : List Stmt → List Leaf
  | [] => []
  | st :: rest => st.leaves ++ leavesAll rest

/-- The leaves of an if chain from an arm on. -/
def Arm.leaves : Arm → List Leaf
  | ⟨e, consequent, alternate, _⟩ => .condition e :: (leavesAll consequent ++ alternate.leaves)

/-- The leaves of an alternate. -/
def Alternate.leaves : Alternate → List Leaf
  | .none => []
  | .block body => leavesAll body
  | .elseIf arm => arm.leaves

end

mutual

/-- The blocks in a statement, those inside others included. What a condition
governs is a block even if it is a single statement. -/
def Stmt.blocks : Stmt → List (List Stmt)
  | .block body => body :: blocksAll body
  | .branch arm => arm.blocks
  | .loop _ body _ => body :: blocksAll body
  | _ => []

/-- The blocks in statements. -/
def blocksAll : List Stmt → List (List Stmt)
  | [] => []
  | st :: rest => st.blocks ++ blocksAll rest

/-- The blocks of an if chain from an arm on. -/
def Arm.blocks : Arm → List (List Stmt)
  | ⟨_, consequent, alternate, _⟩ => consequent :: (blocksAll consequent ++ alternate.blocks)

/-- The blocks of an alternate. -/
def Alternate.blocks : Alternate → List (List Stmt)
  | .none => []
  | .block body => body :: blocksAll body
  | .elseIf arm => arm.blocks

end

section Everywhere

variable {P : Sight → Leaf → Prop}

theorem exists_of_singleton {sight : Sight} {only leaf : Leaf} (h : P sight only)
    (hleaf : leaf ∈ [only]) : ∃ sight', P sight' leaf := by
  cases List.mem_singleton.1 hleaf
  exact ⟨sight, h⟩

mutual

/-- What holds everywhere holds of every leaf, in some sight. -/
theorem Stmt.Everywhere.leaf : ∀ {st : Stmt} {sight : Sight}, st.Everywhere P sight →
    ∀ leaf ∈ st.leaves, ∃ sight', P sight' leaf
  | .block _, _, h, leaf, hleaf => Stmt.EverywhereIn.leaf h leaf hleaf
  | .branch _, _, h, leaf, hleaf => Arm.Everywhere.leaf h leaf hleaf
  | .loop _ _ _, _, h, leaf, hleaf => by
      rcases List.mem_cons.1 hleaf with rfl | hleaf
      · exact ⟨_, h.1⟩
      · exact Stmt.EverywhereIn.leaf h.2 leaf hleaf
  | .ret _ _, _, h, _, hleaf => exists_of_singleton h hleaf
  | .variable _, _, h, _, hleaf => exists_of_singleton h hleaf
  | .expr _, _, h, _, hleaf => exists_of_singleton h hleaf
  | .function _, _, h, _, hleaf => exists_of_singleton h hleaf
  | .aggregate _, _, h, _, hleaf => exists_of_singleton h hleaf

/-- What holds everywhere in a body holds of its leaves. -/
theorem Stmt.EverywhereIn.leaf : ∀ {body : List Stmt} {sight : Sight},
    Stmt.EverywhereIn P sight body → ∀ leaf ∈ leavesAll body, ∃ sight', P sight' leaf
  | [], _, _, _, hleaf => absurd hleaf List.not_mem_nil
  | _ :: _, _, h, leaf, hleaf =>
      (List.mem_append.1 hleaf).elim (Stmt.Everywhere.leaf h.1 leaf)
        (Stmt.EverywhereIn.leaf h.2 leaf)

theorem Arm.Everywhere.leaf : ∀ {arm : Arm} {sight : Sight}, arm.Everywhere P sight →
    ∀ leaf ∈ arm.leaves, ∃ sight', P sight' leaf
  | ⟨_, _, _, _⟩, _, h, leaf, hleaf => by
      rcases List.mem_cons.1 hleaf with rfl | hleaf
      · exact ⟨_, h.1⟩
      rcases List.mem_append.1 hleaf with hleaf | hleaf
      · exact Stmt.EverywhereIn.leaf h.2.1 leaf hleaf
      · exact Alternate.Everywhere.leaf h.2.2 leaf hleaf

theorem Alternate.Everywhere.leaf : ∀ {alternate : Alternate} {sight : Sight},
    alternate.Everywhere P sight → ∀ leaf ∈ alternate.leaves, ∃ sight', P sight' leaf
  | .none, _, _, _, hleaf => absurd hleaf List.not_mem_nil
  | .block _, _, h, leaf, hleaf => Stmt.EverywhereIn.leaf h leaf hleaf
  | .elseIf _, _, h, leaf, hleaf => Arm.Everywhere.leaf h leaf hleaf

end

mutual

/-- What holds everywhere holds in every block, which starts with a scope of
its own. -/
theorem Stmt.Everywhere.blocks : ∀ {st : Stmt} {sight : Sight}, st.Everywhere P sight →
    ∀ block ∈ st.blocks, ∃ outer, Stmt.EverywhereIn P ([] :: outer) block
  | .block _, _, h, block, hblock => by
      rcases List.mem_cons.1 hblock with rfl | hblock
      · exact ⟨_, h⟩
      · exact Stmt.EverywhereIn.blocks h block hblock
  | .branch _, _, h, block, hblock => Arm.Everywhere.blocks h block hblock
  | .loop _ _ _, _, h, block, hblock => by
      rcases List.mem_cons.1 hblock with rfl | hblock
      · exact ⟨_, h.2⟩
      · exact Stmt.EverywhereIn.blocks h.2 block hblock
  | .ret _ _, _, _, _, hblock => absurd hblock List.not_mem_nil
  | .variable _, _, _, _, hblock => absurd hblock List.not_mem_nil
  | .expr _, _, _, _, hblock => absurd hblock List.not_mem_nil
  | .function _, _, _, _, hblock => absurd hblock List.not_mem_nil
  | .aggregate _, _, _, _, hblock => absurd hblock List.not_mem_nil

theorem Stmt.EverywhereIn.blocks : ∀ {body : List Stmt} {sight : Sight},
    Stmt.EverywhereIn P sight body →
    ∀ block ∈ blocksAll body, ∃ outer, Stmt.EverywhereIn P ([] :: outer) block
  | [], _, _, _, hblock => absurd hblock List.not_mem_nil
  | _ :: _, _, h, block, hblock =>
      (List.mem_append.1 hblock).elim (Stmt.Everywhere.blocks h.1 block)
        (Stmt.EverywhereIn.blocks h.2 block)

theorem Arm.Everywhere.blocks : ∀ {arm : Arm} {sight : Sight}, arm.Everywhere P sight →
    ∀ block ∈ arm.blocks, ∃ outer, Stmt.EverywhereIn P ([] :: outer) block
  | ⟨_, _, _, _⟩, _, h, block, hblock => by
      rcases List.mem_cons.1 hblock with rfl | hblock
      · exact ⟨_, h.2.1⟩
      rcases List.mem_append.1 hblock with hblock | hblock
      · exact Stmt.EverywhereIn.blocks h.2.1 block hblock
      · exact Alternate.Everywhere.blocks h.2.2 block hblock

theorem Alternate.Everywhere.blocks : ∀ {alternate : Alternate} {sight : Sight},
    alternate.Everywhere P sight →
    ∀ block ∈ alternate.blocks, ∃ outer, Stmt.EverywhereIn P ([] :: outer) block
  | .none, _, _, _, hblock => absurd hblock List.not_mem_nil
  | .block _, _, h, block, hblock => by
      rcases List.mem_cons.1 hblock with rfl | hblock
      · exact ⟨_, h⟩
      · exact Stmt.EverywhereIn.blocks h block hblock
  | .elseIf _, _, h, block, hblock => Arm.Everywhere.blocks h block hblock

end

end Everywhere

-- ================================================================= names

/-- The name that a statement declares in the scope around it. -/
def Stmt.declared? : Stmt → Option String
  | .variable decl => some decl.name
  | _ => none

/-- The names that statements declare in the scope around them. -/
def declaredIn (body : List Stmt) : List String := body.filterMap Stmt.declared?

/-- Declarations of new names are all different, and different from the names
that were there before. -/
theorem declaredIn_nodup {P : Sight → Leaf → Prop}
    (hfresh : ∀ sight decl, P sight (.variable decl) → sight.Fresh decl.name) {body : List Stmt}
    {scope : List (String × Ty)} {outer : Sight}
    (h : Stmt.EverywhereIn P (scope :: outer) body) :
    (declaredIn body).Nodup ∧ ∀ name ∈ declaredIn body, name ∉ scope.map (·.1) := by
  induction body generalizing scope with
  | nil => exact ⟨List.nodup_nil, fun _ hname => absurd hname List.not_mem_nil⟩
  | cons st rest ih =>
      obtain ⟨hst, hrest⟩ := h
      have hnone (hdeclare : st.declare (scope :: outer) = scope :: outer)
          (hdeclared : st.declared? = none) : (declaredIn (st :: rest)).Nodup
            ∧ ∀ name ∈ declaredIn (st :: rest), name ∉ scope.map (·.1) := by
        rw [hdeclare] at hrest
        unfold declaredIn
        rw [List.filterMap_cons_none hdeclared]
        exact ih hrest
      cases st with
      | «variable» decl =>
          have hnew : scope.lookup decl.name = none := hfresh _ _ hst
          have hrest : Stmt.EverywhereIn P (((decl.name, decl.ty) :: scope) :: outer) rest := hrest
          obtain ⟨hnodup, hapart⟩ := ih hrest
          have hscope : decl.name ∉ scope.map (·.1) := by
            intro hmem
            obtain ⟨b, hb, heq⟩ := List.mem_map.1 hmem
            have hdiffers := List.lookup_eq_none_iff.1 hnew b hb
            rw [heq] at hdiffers
            simp at hdiffers
          refine ⟨List.nodup_cons.2 ⟨fun hmem => ?_, hnodup⟩, fun name hname => ?_⟩
          · exact hapart decl.name hmem List.mem_cons_self
          · rcases List.mem_cons.1 hname with rfl | hname
            · exact hscope
            · exact fun hmem => hapart name hname (List.mem_cons_of_mem _ hmem)
      | _ => exact hnone rfl rfl

/-- The names of the globals and functions of a program. -/
def Program.names (p : Program) : List String :=
  p.globals.map (·.name) ++ p.functions.map (·.name)

/-- Globals and functions have names of their own. -/
theorem Program.WellFormed.names_nodup {p : Program} (h : p.WellFormed) : p.names.Nodup := by
  have hperm : ∀ body : List Stmt,
      (Program.names ⟨body⟩).Perm ((body.filterMap Stmt.binding?).map (·.1)) := by
    intro body
    induction body with
    | nil => exact .nil
    | cons st rest ih =>
        have hrest : ∀ st : Stmt, st.binding? = none →
            Program.names ⟨st :: rest⟩ = Program.names ⟨rest⟩ →
            (Program.names ⟨st :: rest⟩).Perm
              (((st :: rest).filterMap Stmt.binding?).map (·.1)) := by
          intro st hnone hnames
          rw [hnames, List.filterMap_cons_none hnone]
          exact ih
        cases st with
        | function decl =>
            have hmove : (Program.names ⟨.function decl :: rest⟩).Perm
                (decl.name :: Program.names ⟨rest⟩) := List.perm_middle
            exact hmove.trans (ih.cons decl.name)
        | «variable» decl => exact ih.cons decl.name
        | _ => exact hrest _ rfl rfl
  have hscope := h.scope_nodup
  unfold Program.scope at hscope
  rw [List.map_reverse, List.nodup_reverse] at hscope
  exact (hperm p.body).nodup_iff.2 hscope

/-- An aggregate of a program is a declaration of it. -/
theorem Program.mem_body {p : Program} {a : AggregateDecl} (h : a ∈ p.aggregates) :
    .aggregate a ∈ p.body := by
  obtain ⟨st, hst, heq⟩ := List.mem_filterMap.1 h
  cases st <;> cases heq
  exact hst

/-- Aggregates have names of their own. -/
theorem Program.WellFormed.aggregates_nodup {p : Program} (h : p.WellFormed) :
    (p.aggregates.map (·.name)).Nodup := by
  obtain ⟨body⟩ := p
  induction body using List.reverseRecOn with
  | nil => exact List.nodup_nil
  | append_singleton front st ih =>
      have hst : st.WellFormedAfter ⟨front⟩ := h front st [] rfl
      have hfront := ih h.front
      have hnone (hst : (Program.mk [st]).aggregates = []) :
          ((Program.mk (front ++ [st])).aggregates.map (·.name)).Nodup := by
        have hsame : (Program.mk (front ++ [st])).aggregates = (Program.mk front).aggregates := by
          show List.filterMap _ (front ++ [st]) = _
          rw [List.filterMap_append]
          exact (congrArg (_ ++ ·) hst).trans (List.append_nil _)
        rw [hsame]
        exact hfront
      cases st with
      | aggregate decl =>
          have hlast : (Program.mk (front ++ [.aggregate decl])).aggregates
              = (Program.mk front).aggregates ++ [decl] := List.filterMap_append
          rw [hlast, List.map_append, List.nodup_append]
          refine ⟨hfront, List.pairwise_singleton _ _, ?_⟩
          rintro name hname other hother rfl
          obtain ⟨a, ha, hnamed⟩ := List.mem_map.1 hname
          have hfound := Program.aggregate?_isSome ha
          rw [hnamed, List.mem_singleton.1 hother, hst.1] at hfound
          cases hfound
      | _ => exact hnone rfl

-- ============================================================= contents

/-- The variable that a leaf declares. -/
def Leaf.variable? : Leaf → Option VariableDecl
  | .variable decl => some decl
  | _ => none

namespace FunctionDecl

/-- The leaves of a function. -/
def leaves (decl : FunctionDecl) : List Leaf := leavesAll decl.body

/-- The parameters and variables of a function. -/
def decls (decl : FunctionDecl) : List VariableDecl :=
  decl.params ++ decl.leaves.filterMap Leaf.variable?

end FunctionDecl

namespace Stmt

/-- The functions and methods of a declaration. -/
def callables : Stmt → List FunctionDecl
  | .function decl => [decl]
  | .aggregate decl => decl.methods
  | _ => []

/-- The variables that a declaration declares outside functions. -/
def fields : Stmt → List VariableDecl
  | .variable decl => [decl]
  | .aggregate decl => decl.members
  | _ => []

/-- All variables, members and parameters of a declaration. -/
def decls (st : Stmt) : List VariableDecl :=
  st.fields ++ st.callables.flatMap FunctionDecl.decls

/-- The expressions of a declaration. -/
def exprs (st : Stmt) : List Expr :=
  st.decls.filterMap (·.init) ++ st.callables.flatMap fun f => f.leaves.flatMap Leaf.exprs

/-- The types that a declaration mentions. -/
def types (st : Stmt) : List Ty :=
  st.decls.map (·.ty) ++ st.callables.map (·.returnType)

end Stmt

-- =============================================================== lawful

/-- Whether an expression is an identifier or a member. -/
def Expr.IsPlace (e : Expr) : Prop :=
  (∃ i, e = .ident i) ∨ ∃ object accessor field pos, e = .member object accessor field pos

/-- Whether a node of an expression is one that the grammar makes: flags are
those of its operands, what is stored into can be stored into, and a number
has taken in the sign in front of it. -/
def Expr.Proper : Expr → Prop
  | .binary op lhs rhs constant operandsMatch _ =>
    constant = foldable op lhs rhs ∧ operandsMatch = sameIdent lhs rhs
      ∧ (op.isAssignment = true → lhs.IsPlace)
  | .unary op _ operand _ =>
    (op = .incr ∨ op = .decr → operand.IsPlace) ∧ (op = .minus → ∀ lit, operand ≠ .number lit)
  | _ => True

/-- Whether a condition that is marked constant folds. -/
def Leaf.Folds : Leaf → Prop
  | .condition e => e.isConstant = true → ∃ zero, e.foldsToZero = .ok zero
  | _ => True

/-- Whether an initializer that is marked constant folds. Those of strings and
aggregates are not looked at. -/
def VariableDecl.Folds (decl : VariableDecl) : Prop :=
  (∀ name, decl.ty ≠ .named name) → decl.ty ≠ .string →
    ∀ e, decl.init = some e → e.isConstant = true → ∃ lit, e.evaluate = .ok lit

/-- What is so of a function or method of an accepted program. -/
structure FunctionDecl.Lawful (decl : FunctionDecl) : Prop where
  /-- No function and no aggregate is declared in it. -/
  flat : .nested ∉ decl.leaves
  /-- A return has a value exactly when the function does. -/
  returns : ∀ value, .result value ∈ decl.leaves →
    (value.isSome = true ↔ decl.returnType ≠ .void)
  /-- Behind a parameter with a default all have one. -/
  defaults : ∀ before param after, decl.params = before ++ param :: after →
    param.init.isSome = true → ∀ other ∈ after, other.init.isSome = true
  /-- Parameters and the variables of the body have names of their own. -/
  names : (decl.params.map (·.name) ++ declaredIn decl.body).Nodup
  /-- So have the variables of each block. -/
  blocks : ∀ block ∈ blocksAll decl.body, (declaredIn block).Nodup
  /-- Constant conditions fold. -/
  conditions : ∀ leaf ∈ decl.leaves, leaf.Folds

/-- What is so of an accepted program. -/
structure Program.Lawful (p : Program) : Prop where
  /-- Only functions, variables and aggregates are declared. -/
  declarations : ∀ st ∈ p.body, (∃ decl, st = .function decl) ∨ (∃ decl, st = .variable decl)
    ∨ ∃ decl, st = .aggregate decl
  /-- Every node of an expression is proper. -/
  nodes : ∀ st ∈ p.body, ∀ e ∈ st.exprs, ∀ part ∈ e.parts, part.Proper
  /-- Functions and methods are lawful. -/
  functions : ∀ st ∈ p.body, ∀ f ∈ st.callables, f.Lawful
  /-- Globals and functions have names of their own. -/
  names : p.names.Nodup
  /-- So have the members and methods of an aggregate. -/
  members : ∀ a ∈ p.aggregates, (a.members.map (·.name) ++ a.methods.map (·.name)).Nodup
  /-- So have aggregates. -/
  aggregates : (p.aggregates.map (·.name)).Nodup
  /-- A type that is named is that of an aggregate declared before. -/
  types : ∀ before st after, p.body = before ++ st :: after →
    ∀ name, .named name ∈ st.types → ∃ a, .aggregate a ∈ before ∧ a.name = name
  /-- Every name in use is in sight, and every member that is named exists. -/
  sight : p.WellFormed
  /-- Constant initializers fold. -/
  initializers : ∀ st ∈ p.body, ∀ decl ∈ st.decls, decl.Folds

-- =========================================================== deriving it

section Parts

variable {p : Program} {scopes : Sight}

/-- What can be assigned to is a name or a member. -/
theorem Expr.isPlace {e : Expr} (h : e.isAssignable = true) : e.IsPlace := by
  cases e with
  | ident i => exact Or.inl ⟨i, rfl⟩
  | member object accessor field pos => exact Or.inr ⟨object, accessor, field, pos, rfl⟩
  | _ => cases h

/-- What an expression that makes sense is made of makes sense. -/
theorem Expr.WellFormed.part {e : Expr} (h : e.WellFormed p scopes) :
    ∀ part ∈ e.parts, part.WellFormed p scopes := by
  induction e with
  | binary op lhs rhs constant operandsMatch pos ihl ihr =>
      intro part hpart
      rcases List.mem_cons.1 hpart with rfl | hpart
      · exact h
      rcases List.mem_append.1 hpart with hpart | hpart
      · exact ihl h.2.2.2.1 part hpart
      · exact ihr h.2.2.2.2 part hpart
  | unary op fixity operand pos ih =>
      intro part hpart
      rcases List.mem_cons.1 hpart with rfl | hpart
      · exact h
      · exact ih h.2 part hpart
  | _ =>
      intro part hpart
      cases List.mem_singleton.1 hpart
      exact h

/-- An expression that makes sense steps and stores into places only. -/
theorem Expr.WellFormed.proper {e : Expr} (h : e.WellFormed p scopes) : e.Proper := by
  cases e with
  | binary op lhs rhs constant operandsMatch pos =>
      exact ⟨h.1, h.2.1, fun hop => Expr.isPlace (h.2.2.1 hop)⟩
  | unary op fixity operand pos =>
      refine ⟨fun hop => ?_, fun hop => ?_⟩
      · rcases hop with rfl | rfl
        · exact Expr.isPlace h.1
        · exact Expr.isPlace h.1
      · subst hop
        exact h.1
  | _ => trivial

end Parts

section Functions

variable {p : Program} {outer : Sight} {f : FunctionDecl}

/-- The leaves of a function make sense somewhere in it. -/
theorem FunctionDecl.WellFormed.leaf (h : f.WellFormed p outer) {leaf : Leaf}
    (hleaf : leaf ∈ f.leaves) :
    ∃ sight, leaf.WellFormed p outer f.returnType sight :=
  Stmt.EverywhereIn.leaf h.body leaf hleaf

/-- The variables of a function make sense, each in its place. -/
theorem FunctionDecl.WellFormed.decl (h : f.WellFormed p outer) {d : VariableDecl}
    (hd : d ∈ f.decls) : ∃ scopes, d.WellFormed p scopes := by
  rcases List.mem_append.1 hd with hd | hd
  · obtain ⟨before, after, hparams⟩ := List.append_of_mem hd
    exact ⟨_, (h.params before d after hparams).1⟩
  · obtain ⟨leaf, hleaf, heq⟩ := List.mem_filterMap.1 hd
    cases leaf with
    | «variable» other =>
        cases heq
        obtain ⟨sight, -, hwf⟩ := h.leaf hleaf
        exact ⟨_, hwf⟩
    | _ => cases heq

/-- So do the expressions of its leaves. -/
theorem FunctionDecl.WellFormed.expr (h : f.WellFormed p outer) {e : Expr}
    (he : e ∈ f.leaves.flatMap Leaf.exprs) : ∃ scopes, e.WellFormed p scopes := by
  obtain ⟨leaf, hleaf, he⟩ := List.mem_flatMap.1 he
  obtain ⟨sight, hwf⟩ := h.leaf hleaf
  cases leaf with
  | condition e' =>
      cases List.mem_singleton.1 he
      exact ⟨_, hwf⟩
  | effect e' =>
      cases List.mem_singleton.1 he
      exact ⟨_, hwf⟩
  | result value =>
      cases value with
      | none => cases he
      | some e' =>
          cases List.mem_singleton.1 he
          exact ⟨_, hwf.2⟩
  | «variable» d => exact ⟨_, hwf.2.init e (Option.mem_toList.1 he)⟩
  | nested => cases he

/-- A function that makes sense, and whose constant conditions fold, is
lawful. -/
theorem FunctionDecl.WellFormed.lawful (h : f.WellFormed p outer)
    (hfolds : ∀ leaf ∈ f.leaves, leaf.Folds) : f.Lawful where
  flat hnested := by
    obtain ⟨_, hwf⟩ := h.leaf hnested
    exact hwf
  returns value hvalue := by
    obtain ⟨_, hwf⟩ := h.leaf hvalue
    cases value with
    | none =>
        have hvoid : f.returnType = .void := hwf
        exact ⟨nofun, fun hne => absurd hvoid hne⟩
    | some e => exact ⟨fun _ => hwf.1, fun _ => rfl⟩
  defaults before param after hparams hdefault other hother := by
    -- a parameter behind it without a default would ask for none before itself
    obtain ⟨between, behind, rfl⟩ := List.append_of_mem hother
    refine Option.isSome_iff_ne_none.2 fun hnone => ?_
    have hsplit : f.params = (before ++ param :: between) ++ other :: behind := by
      rw [hparams, List.append_assoc]
      rfl
    have hmem : param ∈ before ++ param :: between := List.mem_append_right _ List.mem_cons_self
    rw [(h.params _ other behind hsplit).2 hnone param hmem] at hdefault
    cases hdefault
  names := by
    have hbody : Stmt.EverywhereIn (Leaf.WellFormed p outer f.returnType)
        [(f.params.map fun d => (d.name, d.ty)).reverse] f.body := h.body
    obtain ⟨hnodup, hapart⟩ := declaredIn_nodup (fun _ _ hleaf => hleaf.1) hbody
    refine List.nodup_append.2 ⟨h.names, hnodup, ?_⟩
    rintro name hname other hother rfl
    refine hapart name hother ?_
    rw [List.map_reverse, List.mem_reverse, List.map_map]
    exact hname
  blocks block hblock := by
    obtain ⟨_, hwf⟩ := Stmt.EverywhereIn.blocks h.body block hblock
    exact (declaredIn_nodup (fun _ _ hleaf => hleaf.1) hwf).1
  conditions := hfolds

end Functions

section Declarations

variable {p : Program} {st : Stmt}

/-- Functions and methods make sense where they stand. -/
theorem Stmt.WellFormedAfter.callable (h : st.WellFormedAfter p) {f : FunctionDecl}
    (hf : f ∈ st.callables) : ∃ outer, f.WellFormed p outer := by
  cases st with
  | function decl =>
      cases List.mem_singleton.1 hf
      exact ⟨_, h.2⟩
  | aggregate decl =>
      obtain ⟨scope, hwf⟩ := h.2.methods f hf
      exact ⟨_, hwf⟩
  | _ => cases hf

/-- Variables and members make sense where they stand. -/
theorem Stmt.WellFormedAfter.decl (h : st.WellFormedAfter p) {d : VariableDecl}
    (hd : d ∈ st.decls) : ∃ scopes, d.WellFormed p scopes := by
  rcases List.mem_append.1 hd with hd | hd
  · cases st with
    | «variable» decl =>
        cases List.mem_singleton.1 hd
        exact ⟨_, h.2⟩
    | aggregate decl =>
        obtain ⟨scope, hwf⟩ := h.2.members d hd
        exact ⟨_, hwf⟩
    | _ => cases hd
  · obtain ⟨f, hf, hd⟩ := List.mem_flatMap.1 hd
    obtain ⟨outer, hwf⟩ := h.callable hf
    exact hwf.decl hd

/-- The expressions of a declaration make sense where they stand. -/
theorem Stmt.WellFormedAfter.expr (h : st.WellFormedAfter p) {e : Expr} (he : e ∈ st.exprs) :
    ∃ scopes, e.WellFormed p scopes := by
  rcases List.mem_append.1 he with he | he
  · obtain ⟨d, hd, hinit⟩ := List.mem_filterMap.1 he
    obtain ⟨scopes, hwf⟩ := h.decl hd
    exact ⟨scopes, hwf.init e hinit⟩
  · obtain ⟨f, hf, he⟩ := List.mem_flatMap.1 he
    obtain ⟨outer, hwf⟩ := h.callable hf
    exact hwf.expr he

/-- The types of a declaration are known where it stands. -/
theorem Stmt.WellFormedAfter.type (h : st.WellFormedAfter p) {ty : Ty} (hty : ty ∈ st.types) :
    ty.Known p := by
  rcases List.mem_append.1 hty with hty | hty
  · obtain ⟨d, hd, rfl⟩ := List.mem_map.1 hty
    obtain ⟨scopes, hwf⟩ := h.decl hd
    exact hwf.ty
  · obtain ⟨f, hf, rfl⟩ := List.mem_map.1 hty
    obtain ⟨outer, hwf⟩ := h.callable hf
    exact hwf.returnType

end Declarations

/-- Whether what is marked constant in a declaration folds. -/
structure Stmt.Folds (st : Stmt) : Prop where
  conditions : ∀ f ∈ st.callables, ∀ leaf ∈ f.leaves, leaf.Folds
  initializers : ∀ decl ∈ st.decls, decl.Folds

/-- A program in which every declaration makes sense behind those before it,
and in which everything folds that is marked constant, is lawful. -/
theorem Program.WellFormed.lawful {p : Program} (h : p.WellFormed)
    (hfolds : ∀ st ∈ p.body, st.Folds) : p.Lawful where
  declarations st hst := by
    obtain ⟨before, after, -, hafter⟩ := h.declaration hst
    cases st with
    | function decl => exact Or.inl ⟨decl, rfl⟩
    | «variable» decl => exact Or.inr (Or.inl ⟨decl, rfl⟩)
    | aggregate decl => exact Or.inr (Or.inr ⟨decl, rfl⟩)
    | _ => exact hafter.elim
  nodes st hst e he part hpart := by
    obtain ⟨before, after, -, hafter⟩ := h.declaration hst
    obtain ⟨scopes, hwf⟩ := hafter.expr he
    exact (hwf.part part hpart).proper
  functions st hst f hf := by
    obtain ⟨before, after, -, hafter⟩ := h.declaration hst
    obtain ⟨outer, hwf⟩ := hafter.callable hf
    exact hwf.lawful ((hfolds st hst).conditions f hf)
  names := h.names_nodup
  members a ha := by
    obtain ⟨before, after, -, hafter⟩ := h.declaration (Program.mem_body ha)
    exact hafter.2.names
  aggregates := h.aggregates_nodup
  types before st after hbody name hname := by
    have hknown : (Program.aggregate? ⟨before⟩ name).isSome = true :=
      (h before st after hbody).type hname
    obtain ⟨a, ha⟩ := Option.isSome_iff_exists.1 hknown
    obtain ⟨hmem, hnamed⟩ := Program.mem_aggregates ha
    exact ⟨a, Program.mem_body hmem, hnamed⟩
  sight := h
  initializers st hst := (hfolds st hst).initializers

end MiniC
