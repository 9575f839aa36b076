/-
The names in sight at each point of a function, and what is asked of a function
with respect to them.

# Sight

Scopes open and close with the blocks of the source, a declaration brings its
name into the innermost scope behind itself, and parameters share the scope of
the body. A name is that of the innermost scope that binds it.

# Leaves

What is asked of a function is asked of its leaves, the parts that hold no
further statement, each with the names in sight there: `Everywhere`. Every
demand on functions in this library is of that form, whether it comes from the
parser (`WellFormed`) or is a condition of a result, so what holds for two
reasons can be put together (`Stmt.Everywhere.and`), and a demand that can be
decided of leaves can be decided of functions.

# Whole numbers

`Whole` is such a demand: the function works on whole numbers only, and its
literals fit their types. What results use is the weaker `Integral`, that what
folds in the function folds to numbers that fit; that follows, since folding
chooses the wider type where it has to (`Expr.Whole.integral`).
Consumed by the proofs about both back ends and about the parser.
-/
import MiniC.Program
import MiniC.Proofs.Source.Value

namespace MiniC

-- ============================================================== bindings

/-- What is found is there. -/
theorem mem_of_lookup {α : Type} {xs : List (String × α)} {name : String} {a : α}
    (h : xs.lookup name = some a) : (name, a) ∈ xs := by
  induction xs with
  | nil => cases h
  | cons x rest ih =>
      rw [List.lookup_cons] at h
      split at h
      · rename_i heq
        cases h
        rw [eq_of_beq heq]
        exact List.mem_cons_self
      · exact List.mem_cons_of_mem _ (ih h)

/-- Under names that are all different a name is found wherever it stands. -/
theorem lookup_of_mem {α : Type} {xs : List (String × α)} {name : String} {a : α}
    (hnodup : (xs.map (·.1)).Nodup) (h : (name, a) ∈ xs) : xs.lookup name = some a := by
  induction xs with
  | nil => cases h
  | cons x rest ih =>
      rw [List.map_cons, List.nodup_cons] at hnodup
      rw [List.lookup_cons]
      rcases List.mem_cons.1 h with rfl | h
      · rw [beq_self_eq_true]
      · have hne : (name == x.1) = false := by
          refine beq_false_of_ne fun heq => hnodup.1 ?_
          rw [← heq]
          exact List.mem_map_of_mem h
        rw [hne]
        exact ih hnodup.2 h

/-- A name is found in a scope as in what a view of its bindings shows. -/
theorem lookup_view {α β : Type} (f : α → β) (scope : List (String × α)) (name : String) :
    (scope.map fun b => (b.1, f b.2)).lookup name = (scope.lookup name).map f := by
  induction scope with
  | nil => rfl
  | cons b rest ih =>
      rw [List.map_cons, List.lookup_cons, List.lookup_cons]
      split
      · rfl
      · exact ih

/-- A name is found in scopes as in views of them. -/
theorem findSome?_view {α β : Type} (f : α → β) (scopes : List (List (String × α)))
    (name : String) :
    ((scopes.map fun scope => scope.map fun b => (b.1, f b.2)).findSome?
        fun scope => scope.lookup name)
      = (scopes.findSome? fun scope => scope.lookup name).map f := by
  induction scopes with
  | nil => rfl
  | cons scope outer ih =>
      rw [List.map_cons, List.findSome?_cons, List.findSome?_cons, lookup_view]
      cases scope.lookup name with
      | none => exact ih
      | some a => rfl

/-- A name is found in scopes exactly if one of them binds it. -/
theorem findSome?_isSome {α : Type} {scopes : List (List (String × α))} {name : String} :
    (scopes.findSome? fun scope => scope.lookup name).isSome = true
      ↔ ∃ scope ∈ scopes, name ∈ scope.map (·.1) := by
  rw [List.findSome?_isSome_iff]
  refine exists_congr fun scope => and_congr_right fun _ => ?_
  constructor
  · intro h
    obtain ⟨a, ha⟩ := Option.isSome_iff_exists.1 h
    exact List.mem_map_of_mem (mem_of_lookup ha)
  · intro h
    obtain ⟨b, hb, rfl⟩ := List.mem_map.1 h
    rw [List.lookup_isSome_iff]
    exact ⟨b, hb, beq_self_eq_true _⟩

-- ================================================================ sight

/-- The types of the names in sight, innermost scope first. -/
abbrev Sight : Type := List (List (String × Ty))

namespace Sight

/-- The type of a name; the innermost scope that binds it decides. -/
def find? (sight : Sight) (name : String) : Option Ty :=
  sight.findSome? fun scope => scope.lookup name

/-- Brings a name into the innermost scope. -/
def bind (sight : Sight) (name : String) (ty : Ty) : Sight :=
  match sight with
  | [] => []
  | scope :: outer => ((name, ty) :: scope) :: outer

/-- The type of a name that may also stand for something global. -/
def resolve? (globals : List (String × Ty)) (sight : Sight) (name : String) : Option Ty :=
  (sight.find? name).orElse fun _ => globals.lookup name

end Sight

/-- What a statement brings into sight behind itself. -/
def Stmt.declare (sight : Sight) : Stmt → Sight
  | .variable decl => sight.bind decl.name decl.ty
  | _ => sight

/-- What statements bring into sight behind themselves. -/
def declareAll (sight : Sight) (body : List Stmt) : Sight :=
  body.foldl (fun sight st => st.declare sight) sight

/-- Declarations go to the innermost scope. -/
theorem declare_cons (scope : List (String × Ty)) (outer : Sight) (st : Stmt) :
    ∃ scope', st.declare (scope :: outer) = scope' :: outer := by
  unfold Stmt.declare
  split
  · exact ⟨_, rfl⟩
  · exact ⟨_, rfl⟩

/-- Statements declare into the innermost scope. -/
theorem declareAll_cons (scope : List (String × Ty)) (outer : Sight) (body : List Stmt) :
    ∃ scope', declareAll (scope :: outer) body = scope' :: outer := by
  induction body generalizing scope with
  | nil => exact ⟨scope, rfl⟩
  | cons st rest ih =>
      obtain ⟨scope', hscope'⟩ := declare_cons scope outer st
      obtain ⟨scope'', hscope''⟩ := ih scope'
      refine ⟨scope'', ?_⟩
      show declareAll (st.declare (scope :: outer)) rest = _
      rw [hscope', hscope'']

/-- What the body of a function has in sight: its parameters. -/
def FunctionDecl.sight (decl : FunctionDecl) : Sight :=
  [(decl.params.map fun p => (p.name, p.ty)).reverse]

-- =============================================================== leaves

/-- A part of a function that holds no further statement. -/
inductive Leaf where
  | condition (e : Expr)
  | effect (e : Expr)
  | result (value : Option Expr)
  | variable (decl : VariableDecl)
  | nested

/-- The expressions of a leaf. -/
def Leaf.exprs : Leaf → List Expr
  | .condition e => [e]
  | .effect e => [e]
  | .result value => value.toList
  | .variable decl => decl.init.toList
  | .nested => []

section Everywhere

variable (P : Sight → Leaf → Prop)

mutual

/-- Whether something holds of every leaf of a statement, given the names
in sight of it. -/
def Stmt.Everywhere : Sight → Stmt → Prop
  | sight, .block body => Stmt.EverywhereIn ([] :: sight) body
  | sight, .branch arm => Arm.Everywhere sight arm
  | sight, .loop e body _ => P sight (.condition e) ∧ Stmt.EverywhereIn ([] :: sight) body
  | sight, .ret value _ => P sight (.result value)
  | sight, .variable decl => P sight (.variable decl)
  | sight, .expr e => P sight (.effect e)
  | sight, .function _ => P sight .nested
  | sight, .aggregate _ => P sight .nested

/-- Whether it holds in statements that follow one another. -/
def Stmt.EverywhereIn : Sight → List Stmt → Prop
  | _, [] => True
  | sight, s :: rest => Stmt.Everywhere sight s ∧ Stmt.EverywhereIn (s.declare sight) rest

/-- Whether it holds in an arm of an if chain and those behind it. -/
def Arm.Everywhere : Sight → Arm → Prop
  | sight, ⟨e, consequent, alternate, _⟩ =>
    P sight (.condition e) ∧ Stmt.EverywhereIn ([] :: sight) consequent
      ∧ Alternate.Everywhere sight alternate

/-- Whether it holds in an alternate. -/
def Alternate.Everywhere : Sight → Alternate → Prop
  | _, .none => True
  | sight, .block body => Stmt.EverywhereIn ([] :: sight) body
  | sight, .elseIf arm => Arm.Everywhere sight arm

end

/-- Whether it holds in the body of a function. -/
def FunctionDecl.Everywhere (decl : FunctionDecl) : Prop :=
  Stmt.EverywhereIn P decl.sight decl.body

variable {P} [dec : ∀ sight leaf, Decidable (P sight leaf)]

mutual

/-- What can be decided of leaves can be decided of statements. -/
def Stmt.decideEverywhere : ∀ (sight : Sight) (s : Stmt), Decidable (s.Everywhere P sight)
  | sight, .block body => Stmt.decideEverywhereIn ([] :: sight) body
  | sight, .branch arm => Arm.decideEverywhere sight arm
  | sight, .loop e body _ =>
    @instDecidableAnd _ _ (dec sight (.condition e)) (Stmt.decideEverywhereIn ([] :: sight) body)
  | sight, .ret value _ => dec sight (.result value)
  | sight, .variable decl => dec sight (.variable decl)
  | sight, .expr e => dec sight (.effect e)
  | sight, .function _ => dec sight .nested
  | sight, .aggregate _ => dec sight .nested

def Stmt.decideEverywhereIn :
    ∀ (sight : Sight) (body : List Stmt), Decidable (Stmt.EverywhereIn P sight body)
  | _, [] => .isTrue trivial
  | sight, s :: rest =>
    @instDecidableAnd _ _ (Stmt.decideEverywhere sight s)
      (Stmt.decideEverywhereIn (s.declare sight) rest)

def Arm.decideEverywhere : ∀ (sight : Sight) (arm : Arm), Decidable (arm.Everywhere P sight)
  | sight, ⟨e, consequent, alternate, _⟩ =>
    @instDecidableAnd _ _ (dec sight (.condition e))
      (@instDecidableAnd _ _ (Stmt.decideEverywhereIn ([] :: sight) consequent)
        (Alternate.decideEverywhere sight alternate))

def Alternate.decideEverywhere :
    ∀ (sight : Sight) (alternate : Alternate), Decidable (alternate.Everywhere P sight)
  | _, .none => .isTrue trivial
  | sight, .block body => Stmt.decideEverywhereIn ([] :: sight) body
  | sight, .elseIf arm => Arm.decideEverywhere sight arm

end

instance (decl : FunctionDecl) : Decidable (decl.Everywhere P) :=
  Stmt.decideEverywhereIn decl.sight decl.body

end Everywhere

section Combining

variable {P Q R : Sight → Leaf → Prop}

mutual

/-- What holds everywhere for two reasons holds everywhere for both. -/
theorem Stmt.Everywhere.and (himp : ∀ sight leaf, P sight leaf → Q sight leaf → R sight leaf) :
    ∀ {sight : Sight} {s : Stmt},
    s.Everywhere P sight → s.Everywhere Q sight → s.Everywhere R sight
  | _, .block _, h, h' => Stmt.EverywhereIn.and himp h h'
  | _, .branch _, h, h' => Arm.Everywhere.and himp h h'
  | _, .loop _ _ _, h, h' => ⟨himp _ _ h.1 h'.1, Stmt.EverywhereIn.and himp h.2 h'.2⟩
  | _, .ret _ _, h, h' => himp _ _ h h'
  | _, .variable _, h, h' => himp _ _ h h'
  | _, .expr _, h, h' => himp _ _ h h'
  | _, .function _, h, h' => himp _ _ h h'
  | _, .aggregate _, h, h' => himp _ _ h h'

/-- So it does in statements that follow one another. -/
theorem Stmt.EverywhereIn.and
    (himp : ∀ sight leaf, P sight leaf → Q sight leaf → R sight leaf) :
    ∀ {sight : Sight} {body : List Stmt},
    Stmt.EverywhereIn P sight body → Stmt.EverywhereIn Q sight body →
      Stmt.EverywhereIn R sight body
  | _, [], _, _ => trivial
  | _, _ :: _, h, h' =>
      ⟨Stmt.Everywhere.and himp h.1 h'.1, Stmt.EverywhereIn.and himp h.2 h'.2⟩

/-- So it does in arms. -/
theorem Arm.Everywhere.and (himp : ∀ sight leaf, P sight leaf → Q sight leaf → R sight leaf) :
    ∀ {sight : Sight} {arm : Arm},
    arm.Everywhere P sight → arm.Everywhere Q sight → arm.Everywhere R sight
  | _, ⟨_, _, _, _⟩, h, h' =>
      ⟨himp _ _ h.1 h'.1, Stmt.EverywhereIn.and himp h.2.1 h'.2.1,
        Alternate.Everywhere.and himp h.2.2 h'.2.2⟩

/-- So it does in alternates. -/
theorem Alternate.Everywhere.and
    (himp : ∀ sight leaf, P sight leaf → Q sight leaf → R sight leaf) :
    ∀ {sight : Sight} {alternate : Alternate},
    alternate.Everywhere P sight → alternate.Everywhere Q sight → alternate.Everywhere R sight
  | _, .none, _, _ => trivial
  | _, .block _, h, h' => Stmt.EverywhereIn.and himp h h'
  | _, .elseIf _, h, h' => Arm.Everywhere.and himp h h'

end

end Combining

-- ======================================================== whole numbers

/-- Whether the nodes of an expression carry the facts about their operands
that `combine` computes. -/
def Expr.Combined : Expr → Prop
  | .binary op lhs rhs constant operandsMatch _ =>
    constant = foldable op lhs rhs ∧ operandsMatch = sameIdent lhs rhs
      ∧ lhs.Combined ∧ rhs.Combined
  | .unary _ _ operand _ => operand.Combined
  | _ => True

/-- What stores something does not fold. -/
theorem Expr.Combined.open {op : BinaryOp} {lhs rhs : Expr} {constant operandsMatch : Bool}
    {pos : Position} (h : (Expr.binary op lhs rhs constant operandsMatch pos).Combined)
    (hop : op.isAssignment = true) : constant = false := by
  rw [h.1]
  unfold foldable
  rw [hop]
  rfl

/-- Whether the variables of an expression are of whole-number types and its
literals fit such a type. -/
def Expr.Whole (globals : List (String × Ty)) (sight : Sight) : Expr → Prop
  | .ident i => ∀ ty, sight.resolve? globals i.name = some ty → ty.isInteger = true
  | .number lit => Source.Fits lit
  | .string _ => False
  | .binary _ lhs rhs _ _ _ => lhs.Whole globals sight ∧ rhs.Whole globals sight
  | .unary _ _ operand _ => operand.Whole globals sight
  | .member _ _ _ _ => True

instance decideWhole (globals : List (String × Ty)) (sight : Sight) :
    ∀ e : Expr, Decidable (e.Whole globals sight)
  | .ident i =>
    match h : sight.resolve? globals i.name with
    | none => .isTrue fun ty hty => by rw [h] at hty; cases hty
    | some ty => decidable_of_iff (ty.isInteger = true)
        ⟨fun hty _ heq => Option.some.inj (h.symm.trans heq) ▸ hty, fun hall => hall ty h⟩
  | .number lit => inferInstanceAs (Decidable (Source.Fits lit))
  | .string _ => .isFalse id
  | .binary _ lhs rhs _ _ _ =>
    @instDecidableAnd _ _ (decideWhole globals sight lhs) (decideWhole globals sight rhs)
  | .unary _ _ operand _ => decideWhole globals sight operand
  | .member _ _ _ _ => .isTrue trivial

/-- Whether a leaf is about whole numbers. -/
def Leaf.Whole (globals : List (String × Ty)) (sight : Sight) (leaf : Leaf) : Prop :=
  (∀ e ∈ leaf.exprs, e.Whole globals sight)
    ∧ ∀ decl, leaf = .variable decl → decl.ty.isInteger = true

instance (globals : List (String × Ty)) (sight : Sight) (leaf : Leaf) :
    Decidable (leaf.Whole globals sight) :=
  @instDecidableAnd _ _ inferInstance <|
    match leaf with
    | .variable decl => decidable_of_iff (decl.ty.isInteger = true)
        ⟨fun hty _ heq => by cases heq; exact hty, fun hall => hall decl rfl⟩
    | .condition _ => .isTrue nofun
    | .effect _ => .isTrue nofun
    | .result _ => .isTrue nofun
    | .nested => .isTrue nofun

/-- Whether a function works on whole numbers only: so are its parameters,
its variables, the globals it refers to, its literals and its result, if it
has one. -/
structure FunctionDecl.Whole (globals : List (String × Ty)) (decl : FunctionDecl) : Prop where
  params : ∀ p ∈ decl.params, p.ty.isInteger = true
  returnType : decl.returnType = .void ∨ decl.returnType.isInteger = true
  body : decl.Everywhere (Leaf.Whole globals)

instance (globals : List (String × Ty)) (decl : FunctionDecl) : Decidable (decl.Whole globals) :=
  decidable_of_iff ((∀ p ∈ decl.params, p.ty.isInteger = true)
      ∧ (decl.returnType = .void ∨ decl.returnType.isInteger = true)
      ∧ decl.Everywhere (Leaf.Whole globals))
    ⟨fun h => ⟨h.1, h.2.1, h.2.2⟩, fun h => ⟨h.params, h.returnType, h.body⟩⟩

/-- Whether the values in an expression are whole numbers: its variables are of
such types, and what folds in it folds to a number that fits such a type,
whatever it is folded from. -/
def Expr.Integral (globals : List (String × Ty)) (sight : Sight) : Expr → Prop
  | .ident i => ∀ ty, sight.resolve? globals i.name = some ty → ty.isInteger = true
  | .number lit => Source.Fits lit
  | .string _ => False
  | .binary op lhs rhs true operandsMatch pos =>
    Source.FoldFits (.binary op lhs rhs true operandsMatch pos)
  | .binary _ lhs rhs false _ _ => lhs.Integral globals sight ∧ rhs.Integral globals sight
  | .unary _ _ operand _ => operand.Integral globals sight
  | .member _ _ _ _ => True

/-- Whether the values in a leaf are whole numbers. -/
def Leaf.Integral (globals : List (String × Ty)) (sight : Sight) (leaf : Leaf) : Prop :=
  (∀ e ∈ leaf.exprs, e.Integral globals sight)
    ∧ ∀ decl, leaf = .variable decl → decl.ty.isInteger = true

/-- Whether the values in a function are whole numbers. -/
structure FunctionDecl.Integral (globals : List (String × Ty)) (decl : FunctionDecl) : Prop where
  params : ∀ p ∈ decl.params, p.ty.isInteger = true
  returnType : decl.returnType = .void ∨ decl.returnType.isInteger = true
  body : decl.Everywhere (Leaf.Integral globals)

/-- A constant whose value is a whole number folds to one that fits. -/
theorem Expr.Integral.folds {globals : List (String × Ty)} {sight : Sight} {e : Expr}
    (h : e.Integral globals sight) (hconst : e.isConstant = true) : Source.FoldFits e := by
  cases e, hconst using Source.constant_cases with
  | number lit =>
      rintro _ ⟨⟩
      exact h
  | folded op lhs rhs operandsMatch pos => exact h

/-- Every constant in such an expression folds to a number that fits. -/
theorem Expr.Integral.constants {globals : List (String × Ty)} {sight : Sight} {e : Expr}
    (h : e.Integral globals sight) : ∀ c ∈ Source.constants e, Source.FoldFits c := by
  induction e with
  | number lit =>
      rw [Source.constants_of_constant rfl]
      exact List.forall_mem_singleton.2 (h.folds rfl)
  | binary op lhs rhs constant operandsMatch pos ihl ihr =>
      cases constant with
      | true =>
          rw [Source.constants_of_constant rfl]
          exact List.forall_mem_singleton.2 h
      | false => exact List.forall_mem_append.2 ⟨ihl h.1, ihr h.2⟩
  | unary op fixity operand pos ih => exact ih h
  | _ => exact nofun

/-- The literals of an expression over whole numbers fit their types. -/
theorem Expr.Whole.literals {globals : List (String × Ty)} {sight : Sight} {e : Expr}
    (h : e.Whole globals sight) : ∀ lit ∈ Source.literals e, Source.Fits lit := by
  induction e with
  | ident i => exact nofun
  | number lit =>
      intro l hl
      rwa [List.mem_singleton.1 hl]
  | string lit => exact h.elim
  | binary op lhs rhs constant operandsMatch pos ihl ihr =>
      intro l hl
      rcases List.mem_append.1 hl with hl | hl
      · exact ihl h.1 l hl
      · exact ihr h.2 l hl
  | unary op fixity operand pos ih => exact ih h
  | member object accessor field pos => exact nofun

/-- Where the literals fit, so does what is folded from them. -/
theorem Expr.Whole.integral {globals : List (String × Ty)} {sight : Sight} {e : Expr}
    (h : e.Whole globals sight) : e.Integral globals sight := by
  induction e with
  | ident i => exact h
  | number lit => exact h
  | string lit => exact h.elim
  | binary op lhs rhs constant operandsMatch pos ihl ihr =>
      cases constant with
      | true => exact fun _ => Source.evaluate_fits h.literals
      | false => exact ⟨ihl h.1, ihr h.2⟩
  | unary op fixity operand pos ih => exact ih h
  | member object accessor field pos => trivial

/-- The values of a function over whole numbers are whole numbers. -/
theorem FunctionDecl.Whole.integral {globals : List (String × Ty)} {decl : FunctionDecl}
    (h : decl.Whole globals) : decl.Integral globals where
  params := h.params
  returnType := h.returnType
  body := h.body.and (fun _ _ hleaf _ => ⟨fun e he => (hleaf.1 e he).integral, hleaf.2⟩) h.body

end MiniC
