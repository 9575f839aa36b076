/-
Lowering an accepted program fails only as announced (`lower_fails`).

# Names

The scopes of the function under construction bind the names that are in sight at
that point of the source (`Named`), whatever their storage, so a name that is found
nowhere is that of a function. Only names matter here and not types, since lowering
looks up storage and takes the type from there.

# Mild steps

A step is `Mild` if it keeps the names that are in sight and fails only in ways that
are `Explained`. Everything that does not touch the scopes and cannot fail is mild for
that reason alone (`build_mild`). A conversion may fail by its types, a literal by its
text, a place by its form; for the last it matters that the parser lets only places be
stored into.

# Folding

A folded constant is a number or a truth value and so has a type of its own here
(`Expr.WellFormed.evaluate`). What else the parser has promised, that no declaration
of a function stands in a body and that values are returned where they are due, rules
out the rest. Consumed by the statement about accepted programs.
-/
import MiniC.Proofs.Lowering.Growth
import MiniC.Proofs.Source.WellFormed

namespace MiniC

-- =============================================================== folding

/-- Whether values of a type are numbers. -/
def Ty.Numeric (ty : Ty) : Prop := (ty.isInteger || ty.isFloating) = true

/-- Operands meet in a type of numbers. -/
theorem Ty.promote_numeric (a b : Ty) : (Ty.promote a b).Numeric := by
  unfold Ty.promote
  repeat' split
  all_goals rfl

theorem NumberLiteral.ofInt_numeric (n : Int) (ty : Ty) (pos : Position) :
    (NumberLiteral.ofInt n ty pos).ty.Numeric := by
  show (NumberLiteral.intType n ty).Numeric
  unfold NumberLiteral.intType
  split <;> rfl

/-- An operation folds into a number of the type in which its operands meet,
or into a truth value. -/
theorem NumberLiteral.fold_numeric {op : BinaryOp} {a b lit : NumberLiteral} {pos : Position}
    (h : NumberLiteral.fold op a b pos = .ok lit) : lit.ty.Numeric := by
  unfold NumberLiteral.fold at h
  obtain ⟨x, -, h⟩ := Steps.except_bind_ok.1 h
  obtain ⟨y, -, h⟩ := Steps.except_bind_ok.1 h
  cases op with
  | assign => split at h <;> cases h
  | compound op => split at h <;> cases h
  | compare op =>
      split at h <;> cases h
      · rfl
      · rfl
  | arith op =>
      split at h
      · obtain ⟨r, -, h⟩ := Steps.except_bind_ok.1 h
        cases h
        exact Ty.promote_numeric _ _
      · obtain ⟨r, -, h⟩ := Steps.except_bind_ok.1 h
        cases h
        exact NumberLiteral.ofInt_numeric _ _ _

/-- A constant folds into a literal of a type of numbers. -/
theorem Expr.WellFormed.evaluate {p : Program} {scopes : Sight} {e : Expr}
    (h : e.WellFormed p scopes) {lit : NumberLiteral} (heval : e.evaluate = .ok lit) :
    lit.ty.Numeric := by
  induction e generalizing lit with
  | number found =>
      cases heval
      exact h
  | binary op lhs rhs constant operandsMatch pos ihl ihr =>
      unfold Expr.evaluate at heval
      split at heval
      · obtain ⟨a, -, heval⟩ := Steps.except_bind_ok.1 heval
        obtain ⟨b, -, heval⟩ := Steps.except_bind_ok.1 heval
        exact NumberLiteral.fold_numeric heval
      · cases heval
  | unary op fixity operand pos ih =>
      cases op with
      | plus => exact ih h.2 heval
      | minus =>
          obtain ⟨found, hfound, hneg⟩ := Steps.except_bind_ok.1 heval
          unfold NumberLiteral.negate at hneg
          obtain ⟨number, -, hneg⟩ := Steps.except_bind_ok.1 hneg
          cases number with
          | int n =>
              obtain ⟨m, -, hneg⟩ := Steps.except_bind_ok.1 hneg
              cases hneg
              exact NumberLiteral.ofInt_numeric _ _ _
          | real x =>
              cases hneg
              have hsame : found.ty.Numeric := ih h.2 hfound
              exact hsame
      | not =>
          obtain ⟨found, -, hnot⟩ := Steps.except_bind_ok.1 heval
          obtain ⟨zero, -, rfl⟩ := Steps.except_map_ok.1 hnot
          rfl
      | incr => cases heval
      | decr => cases heval
  | ident i => cases heval
  | string lit => cases heval
  | member object accessor field pos => cases heval

/-- How lowering of an accepted program may fail: a function is used like a
variable, something is of type void, a constant has no value or there is no
lowering for a construct. -/
def LowerError.Explained (p : Program) : LowerError → Prop
  | .unknownIdentifier name => ∃ f ∈ p.functions, f.name = name
  | .notReachable what => what = .voidStorage ∨ ∃ text, what = .malformedConstant text
  | _ => True

namespace Lowering

open IR Steps

-- ================================================================= names

/-- Whether the scopes of a function under construction bind the names that
are in sight. -/
def Named (sight : Sight) (s : State) : Prop :=
  (s.scopes.map fun scope => scope.map (·.1)) = sight.map fun scope => scope.map (·.1)

/-- A step that leaves the names as they are. -/
abbrev Mild {α : Type} (p : Program) (sight : Sight) (step : Lower α) : Prop :=
  Triple (Named sight) (Named sight) (LowerError.Explained p) step

/-- A name that is in sight has storage. -/
theorem Named.isSome {sight : Sight} {s : State} (h : Named sight s) (name : String) :
    (s.scopes.findSome? fun scope => scope.lookup name).isSome = (sight.find? name).isSome := by
  have hnames : ∀ {α : Type} (scopes : List (List (String × α))),
      (∃ scope ∈ scopes, name ∈ scope.map (·.1))
        ↔ ∃ names ∈ scopes.map fun scope => scope.map (·.1), name ∈ names := by
    intro α scopes
    simp only [List.mem_map, exists_exists_and_eq_and]
  rw [Bool.eq_iff_iff, findSome?_isSome, hnames, h, ← hnames]
  exact findSome?_isSome.symm

section Steps

variable {p : Program} {sight : Sight}

/-- A step of the builder keeps the names in sight and does not fail. -/
theorem build_mild {α : Type} (f : Builder → α × Builder) : Mild p sight (build f) :=
  Triple.modifyGet fun _ hs => hs

theorem emit_mild (instr : Instr) : Mild p sight (emit instr) := build_mild _

theorem unique_mild (base : String) : Mild p sight (unique base) := build_mild _

theorem append_mild (label : String) : Mild p sight (append label) := build_mild _

theorem jumpTo_mild (label : String) : Mild p sight (jumpTo label) := build_mild _

theorem pure_mild {α : Type} (a : α) : Mild p sight (pure a : Lower α) :=
  Triple.pure (fun _ h => h) a

theorem define_mild (definition : Definition) : Mild p sight (define definition) :=
  (build_mild _).bind fun _ => (emit_mild _).bind fun _ => pure_mild _

theorem alloca_mild (base : String) (ty : IR.Ty) : Mild p sight (alloca base ty) :=
  (unique_mild _).bind fun _ => (emit_mild _).bind fun _ => pure_mild _

theorem liftEval_fails {α : Type} (x : Except EvalError α) :
    Only (LowerError.Explained p) (liftEval x) := by
  cases x with
  | ok a => exact Only.ok a
  | error e => exact Only.error trivial

/-- A type without storage is explained. -/
theorem slotType_fails (ty : MiniC.Ty) : Only (LowerError.Explained p) (slotType ty) := by
  cases ty with
  | void => exact Only.error (Or.inl rfl)
  | named _ => exact Only.error trivial
  | _ => exact Only.ok _

/-- A constant that is no number of its type is explained. -/
theorem retype_fails (text : String) (source target : IR.Ty) :
    Only (LowerError.Explained p) (retype text source target) := by
  refine Only.ite (fun _ => Only.ok _) fun _ => Only.ite (fun _ => ?_) fun _ => ?_
  · cases Floating.ofText? text with
    | some x => exact Only.ok _
    | none => exact Only.error (Or.inr ⟨text, rfl⟩)
  · cases constantInt? text source with
    | some n => exact Only.ok _
    | none => exact Only.error (Or.inr ⟨text, rfl⟩)

/-- A literal of a type of numbers is a constant. -/
theorem literal_fails {lit : NumberLiteral} (h : lit.ty.Numeric) :
    Only (LowerError.Explained p) (literal lit) := by
  unfold literal
  cases hty : lit.ty with
  | named name =>
      rw [hty] at h
      cases h
  | _ => exact Only.ok _

/-- A conversion fails by its types. -/
theorem recast_mild (value : Value) (target : IR.Ty) : Mild p sight (recast value target) := by
  refine Triple.ite (fun _ => Triple.throw trivial) fun _ => ?_
  exact Triple.ite (fun _ => define_mild _) fun _ => define_mild _

theorem convert_mild (value : Value) (target : IR.Ty) : Mild p sight (convert value target) := by
  rw [convert_eq]
  refine Triple.ite (fun _ => pure_mild _) fun _ => ?_
  cases value with
  | constant ty text => exact Triple.lift (retype_fails _ _ _)
  | _ => exact recast_mild _ _

theorem load_mild (slot : Slot) : Mild p sight (load slot) := define_mild _

theorem store_mild (value : Value) (slot : Slot) : Mild p sight (store value slot) :=
  (convert_mild _ _).bind fun _ => (emit_mild _).bind fun _ => pure_mild _

theorem meet_mild (lhs rhs : Value) : Mild p sight (meet lhs rhs) := by
  refine Triple.ite (fun _ => Triple.throw trivial) fun _ => ?_
  refine Triple.ite (fun _ => Triple.throw trivial) fun _ => ?_
  exact (convert_mild _ _).bind fun _ => (convert_mild _ _).bind fun _ => pure_mild _

theorem arith_mild (op : Arith) (lhs rhs : Value) : Mild p sight (arith op lhs rhs) :=
  (meet_mild _ _).bind fun _ => define_mild _

theorem compare_mild (op : Comparison) (lhs rhs : Value) : Mild p sight (compare op lhs rhs) :=
  (meet_mild _ _).bind fun _ => define_mild _

theorem step_mild (op : Arith) (fixity : Fixity) (slot : Slot) :
    Mild p sight (step op fixity slot) := by
  refine (load_mild _).bind fun old => (arith_mild _ _ _).bind fun new => ?_
  refine (store_mild _ _).bind fun new => ?_
  cases fixity with
  | before => exact pure_mild _
  | after => exact pure_mild _

end Steps

-- =========================================================== expressions

section Expressions

variable {p : Program} {globals : List (String × Slot)}
  (hglobals : ∀ d ∈ p.globals, (globals.lookup d.name).isSome = true) {sight : Sight}

include hglobals

/-- A name in sight has storage, unless it is a function. -/
theorem storage_mild {name : String}
    (hname : ((sight ++ [p.scope]).find? name).isSome = true) :
    Mild p sight (storage globals name) := by
  refine Triple.get fun s hs => ?_
  have hlocal := hs.isSome name
  rw [Sight.find?_append, Sight.find?_singleton, Option.isSome_or, ← hlocal] at hname
  dsimp only
  cases hfound : s.scopes.findSome? fun scope => scope.lookup name with
  | some slot =>
      refine Triple.pure ?_ slot
      rintro _ rfl
      exact hs
  | none =>
      rw [hfound] at hname
      obtain ⟨ty, hty⟩ := Option.isSome_iff_exists.1 hname
      cases hglobal : globals.lookup name with
      | some slot =>
          refine Triple.pure ?_ slot
          rintro _ rfl
          exact hs
      | none =>
          refine Triple.throw ?_
          rcases Program.mem_scope (mem_of_lookup hty) with hfunction | ⟨d, hd, rfl, -⟩
          · exact hfunction
          · have hsome := hglobals d hd
            rw [hglobal] at hsome
            cases hsome

/-- What can be stored into is a variable or a member. -/
theorem target_mild {e : MiniC.Expr} (hassign : e.isAssignable = true)
    (hwf : e.WellFormed p (sight ++ [p.scope])) : Mild p sight (target globals e) := by
  cases e with
  | ident i => exact storage_mild hglobals hwf.2
  | member object accessor field pos => exact Triple.throw trivial
  | _ => cases hassign

/-- What is stepped has storage, or is a function. -/
theorem stepTarget_mild {e : MiniC.Expr} (hwf : e.WellFormed p (sight ++ [p.scope])) :
    Mild p sight (stepTarget globals e) := by
  cases e with
  | ident i => exact storage_mild hglobals hwf.2
  | _ => exact Triple.throw trivial

/-- A well-formed expression fails to be lowered only for a reason. -/
theorem expr_mild {e : MiniC.Expr} (hwf : e.WellFormed p (sight ++ [p.scope])) :
    Mild p sight (expr globals e) := by
  induction e with
  | number lit => exact Triple.lift (literal_fails hwf)
  | string lit => exact Triple.throw trivial
  | member object accessor field pos => exact Triple.throw trivial
  | ident i => exact (storage_mild hglobals hwf.2).bind fun slot => load_mild slot
  | binary op lhs rhs constant operandsMatch pos ihl ihr =>
      have hwhole := hwf
      obtain ⟨-, -, hassign, hleft, hright⟩ := hwf
      unfold expr
      refine Triple.ite (fun _ => ?_) fun _ => ?_
      · refine Triple.lift_bind (liftEval_fails _) fun lit hlit => ?_
        exact Triple.lift (literal_fails (hwhole.evaluate (liftEval_ok.1 hlit)))
      · cases op with
        | assign =>
            refine (target_mild hglobals (hassign rfl) hleft).bind fun slot => ?_
            exact (ihr hright).bind fun value => store_mild value slot
        | compound op =>
            refine (target_mild hglobals (hassign rfl) hleft).bind fun slot => ?_
            refine (load_mild slot).bind fun current => ?_
            have hrest : ∀ operand, Mild p sight (do
                let result ← Lowering.arith op current operand
                store result slot) := fun operand =>
              (arith_mild op _ _).bind fun result => store_mild result slot
            exact Triple.ite (fun _ => (pure_mild _).bind hrest) fun _ => (ihr hright).bind hrest
        | arith op =>
            refine (ihl hleft).bind fun left => ?_
            have hrest : ∀ right, Mild p sight (Lowering.arith op left right) := fun _ =>
              arith_mild op _ _
            exact Triple.ite (fun _ => (pure_mild _).bind hrest) fun _ => (ihr hright).bind hrest
        | compare op =>
            refine (ihl hleft).bind fun left => ?_
            have hrest : ∀ right, Mild p sight (Lowering.compare op left right) := fun _ =>
              compare_mild op _ _
            exact Triple.ite (fun _ => (pure_mild _).bind hrest) fun _ => (ihr hright).bind hrest
  | unary op fixity operand pos ih =>
      have hrun := ih hwf.2
      unfold expr
      cases op with
      | plus => exact hrun.bind fun value => arith_mild _ _ _
      | minus => exact hrun.bind fun value => arith_mild _ _ _
      | not => exact hrun.bind fun value => define_mild _
      | incr => exact (stepTarget_mild hglobals hwf.2).bind fun slot => step_mild _ _ _
      | decr => exact (stepTarget_mild hglobals hwf.2).bind fun slot => step_mild _ _ _

/-- A condition fails only as explained. -/
theorem condition_mild {e : MiniC.Expr} (hwf : e.WellFormed p (sight ++ [p.scope])) :
    Mild p sight (condition globals e) :=
  (expr_mild hglobals hwf).bind fun _ => convert_mild _ _

end Expressions

-- ============================================================ statements

section Statements

variable {p : Program} {globals : List (String × Slot)} {sight sight' : Sight}

/-- A name comes into sight. -/
theorem bind_mild (name : String) (slot : Slot) (ty : MiniC.Ty) :
    Triple (Named sight) (Named (sight.bind name ty)) (LowerError.Explained p)
      (bind name slot) := by
  refine Triple.modifyGet fun s hs => ?_
  obtain ⟨builder, scopes⟩ := s
  cases scopes with
  | nil =>
      cases sight with
      | nil => rfl
      | cons scope outer => cases hs
  | cons bound rest =>
      cases sight with
      | nil => cases hs
      | cons scope outer =>
          obtain ⟨hbound, hrest⟩ := List.cons.inj hs
          exact congrArg₂ List.cons (congrArg (name :: ·) hbound) hrest

/-- The body of a block leaves the names outside it as they are. -/
theorem block_mild {body : List Stmt}
    (h : Triple (Named ([] :: sight)) (Named (declareAll ([] :: sight) body))
      (LowerError.Explained p) (stmts globals body)) :
    Mild p sight (inScope (stmts globals body)) := by
  have hopen : Triple (Named sight) (Named ([] :: sight)) (LowerError.Explained p)
      (modify fun s => { s with scopes := [] :: s.scopes } : Lower PUnit) :=
    Triple.modifyGet fun _ hs => congrArg ([] :: ·) hs
  obtain ⟨scope, hscope⟩ := declareAll_cons [] sight body
  have hclose : Triple (Named (scope :: sight)) (Named sight) (LowerError.Explained p)
      (modify fun s => { s with scopes := s.scopes.drop 1 } : Lower PUnit) := by
    refine Triple.modifyGet fun s hs => ?_
    unfold Named at hs ⊢
    show (s.scopes.drop 1).map _ = _
    rw [List.map_drop, hs]
    rfl
  rw [hscope] at h
  exact hopen.bind fun _ => h.bind fun _ => hclose.bind fun _ => pure_mild _

theorem leave_mild (result : Option Value) : Mild p sight (leave result) := by
  refine Triple.get fun s hs => Triple.weaken (I := Named sight) ?_ (by rintro _ rfl; exact hs)
    fun _ h => h
  refine Triple.ite (fun _ => ?_) fun _ => (pure_mild _).bind fun _ => emit_mild _
  exact (unique_mild _).bind fun _ => (append_mild _).bind fun _ => emit_mild _

variable (hglobals : ∀ d ∈ p.globals, (globals.lookup d.name).isSome = true)

include hglobals

theorem ret_mild {returnType : MiniC.Ty} {value : Option MiniC.Expr}
    (hwf : (Leaf.result value).WellFormed p [p.scope] returnType sight) :
    Mild p sight (ret globals value) := by
  cases value with
  | none => exact leave_mild none
  | some e =>
      rw [ret_some]
      refine (expr_mild hglobals hwf.2).bind fun result => Triple.get fun s hs => ?_
      refine Triple.weaken (I := Named sight) ?_ (by rintro _ rfl; exact hs) fun _ h => h
      exact (convert_mild _ _).bind fun _ => leave_mild _

/-- A variable comes into sight with its name. -/
theorem variableDecl_mild {decl : VariableDecl} (hwf : decl.WellFormed p (sight ++ [p.scope])) :
    Triple (Named sight) (Named (sight.bind decl.name decl.ty)) (LowerError.Explained p)
      (variableDecl globals decl) := by
  refine Triple.lift_bind (slotType_fails _) fun ty _ => (alloca_mild _ _).bind fun slot => ?_
  cases hinit : decl.init with
  | none => exact bind_mild _ _ _
  | some init =>
      refine (expr_mild hglobals (hwf.init init hinit)).bind fun value => ?_
      exact (store_mild value slot).bind fun _ => bind_mild _ _ _

/-- A loop fails where its condition or its body does. -/
theorem loopSteps_mild {e : MiniC.Expr} {body : List Stmt}
    (hwf : e.WellFormed p (sight ++ [p.scope]))
    (hbody : Mild p sight (inScope (stmts globals body))) :
    Mild p sight (loopSteps globals e body) := by
  refine (unique_mild _).bind fun test => (unique_mild _).bind fun enter => ?_
  refine (unique_mild _).bind fun done => (jumpTo_mild _).bind fun _ => ?_
  refine (append_mild _).bind fun _ => (condition_mild hglobals hwf).bind fun value => ?_
  refine (emit_mild _).bind fun _ => (append_mild _).bind fun _ => hbody.bind fun _ => ?_
  exact (jumpTo_mild _).bind fun _ => append_mild _

/-- The parts of an arm follow one another. -/
theorem ifArm_mild_of {e : MiniC.Expr} {consequent : List Stmt} {alternate : Alternate}
    {pos : Position} (hwf : e.WellFormed p (sight ++ [p.scope]))
    (hbody : Mild p sight (inScope (stmts globals consequent)))
    (hother : Mild p sight (otherwise globals alternate)) :
    Mild p sight (ifArm globals ⟨e, consequent, alternate, pos⟩) := by
  unfold ifArm
  refine Triple.ite (fun _ => ?_) fun _ => ?_
  · refine Triple.lift_bind (liftEval_fails _) fun zero _ => ?_
    exact Triple.ite (fun _ => hother) fun _ => hbody
  · refine (condition_mild hglobals hwf).bind fun value => (unique_mild _).bind fun onTrue => ?_
    have hlast : ∀ done : String, Mild p sight (do
        jumpTo done
        append done : Lower Unit) := fun done => (jumpTo_mild _).bind fun _ => append_mild _
    cases alternate with
    | none =>
        refine (unique_mild _).bind fun done => (emit_mild _).bind fun _ => ?_
        exact (append_mild _).bind fun _ => hbody.bind fun _ => hlast done
    | _ =>
        refine (unique_mild _).bind fun onFalse => (unique_mild _).bind fun done => ?_
        refine (emit_mild _).bind fun _ => (append_mild _).bind fun _ => hbody.bind fun _ => ?_
        refine (jumpTo_mild _).bind fun _ => (append_mild _).bind fun _ => ?_
        exact hother.bind fun _ => hlast done

omit hglobals

variable {returnType : MiniC.Ty}

mutual

/-- A well-formed statement brings into sight what it declares, or fails to
be lowered for a reason. -/
theorem stmt_mild (hglobals : ∀ d ∈ p.globals, (globals.lookup d.name).isSome = true) :
    ∀ (st : Stmt) {sight : Sight},
    st.Everywhere (Leaf.WellFormed p [p.scope] returnType) sight →
    Triple (Named sight) (Named (st.declare sight)) (LowerError.Explained p) (stmt globals st)
  | .block body, _, hwf => by
      unfold stmt
      exact block_mild (stmts_mild hglobals body hwf)
  | .branch arm, _, hwf => by
      unfold stmt
      exact ifArm_mild hglobals arm hwf
  | .loop e body pos, sight, hwf => by
      have hsteps := loopSteps_mild hglobals hwf.1 (block_mild (stmts_mild hglobals body hwf.2))
      have hrest : ∀ never : Bool, Mild p sight
          (if never then pure () else loopSteps globals e body) := fun never =>
        Triple.ite (fun _ => pure_mild _) fun _ => hsteps
      unfold stmt
      refine Triple.ite (fun _ => ?_) fun _ => ?_
      · exact Triple.lift_bind (liftEval_fails _) fun never _ => hrest never
      · exact (pure_mild false).bind hrest
  | .ret value pos, _, hwf => by
      unfold stmt
      exact ret_mild hglobals hwf
  | .variable decl, _, hwf => by
      unfold stmt
      exact variableDecl_mild hglobals hwf.2
  | .expr e, _, hwf => by
      unfold stmt
      exact (expr_mild hglobals hwf).bind fun _ => pure_mild _
  | .function _, _, hwf => hwf.elim
  | .aggregate _, _, hwf => hwf.elim

/-- A list of statements fails only as explained, and declares what it should. -/
theorem stmts_mild (hglobals : ∀ d ∈ p.globals, (globals.lookup d.name).isSome = true) :
    ∀ (body : List Stmt) {sight : Sight},
    Stmt.EverywhereIn (Leaf.WellFormed p [p.scope] returnType) sight body →
    Triple (Named sight) (Named (declareAll sight body)) (LowerError.Explained p)
      (stmts globals body)
  | [], _, _ => by
      unfold stmts
      exact pure_mild _
  | st :: rest, _, hwf => by
      unfold stmts
      exact (stmt_mild hglobals st hwf.1).bind fun _ => stmts_mild hglobals rest hwf.2

theorem ifArm_mild (hglobals : ∀ d ∈ p.globals, (globals.lookup d.name).isSome = true) :
    ∀ (arm : Arm) {sight : Sight},
    arm.Everywhere (Leaf.WellFormed p [p.scope] returnType) sight →
    Mild p sight (ifArm globals arm)
  | ⟨_, consequent, alternate, _⟩, _, hwf =>
      ifArm_mild_of hglobals hwf.1 (block_mild (stmts_mild hglobals consequent hwf.2.1))
        (otherwise_mild hglobals alternate hwf.2.2)

theorem otherwise_mild (hglobals : ∀ d ∈ p.globals, (globals.lookup d.name).isSome = true) :
    ∀ (alternate : Alternate) {sight : Sight},
    alternate.Everywhere (Leaf.WellFormed p [p.scope] returnType) sight →
    Mild p sight (otherwise globals alternate)
  | .none, _, _ => by
      unfold otherwise
      exact pure_mild _
  | .block body, _, hwf => by
      unfold otherwise
      exact block_mild (stmts_mild hglobals body hwf)
  | .elseIf arm, _, hwf => by
      unfold otherwise
      exact ifArm_mild hglobals arm hwf

end

include hglobals

-- ============================================================= functions

omit hglobals in
/-- Lists whose items agree in a view are the same in that view. -/
theorem map_eq_of_forall₂ {α β γ : Type} {f : α → γ} {g : β → γ} {xs : List α} {ys : List β}
    (h : List.Forall₂ (fun x y => g y = f x) xs ys) : ys.map g = xs.map f := by
  induction h with
  | nil => rfl
  | cons hxy _ ih => rw [List.map_cons, List.map_cons, hxy, ih]

omit hglobals in
/-- The names of the parameters come into sight, the latest first. -/
theorem spills_mild {params : List VariableDecl} {ir : List (String × IR.Ty)}
    (h : ir.map (·.1) = params.map (·.name)) {scope : List (String × MiniC.Ty)} :
    Triple (Named [scope]) (Named [scopeOf params ++ scope]) (LowerError.Explained p)
      (ir.forM spill) := by
  induction ir generalizing params scope with
  | nil =>
      obtain rfl : params = [] := List.map_eq_nil_iff.1 h.symm
      exact pure_mild _
  | cons q rest ih =>
      cases params with
      | nil => cases h
      | cons param params =>
          obtain ⟨hname, hrest⟩ := List.cons.inj h
          have hscope : scopeOf (param :: params) ++ scope
              = scopeOf params ++ (param.name, param.ty) :: scope := by
            unfold scopeOf
            simp
          have hspill : Triple (Named [scope]) (Named [(param.name, param.ty) :: scope])
              (LowerError.Explained p) (spill q) := by
            rw [← show q.1 = param.name from hname]
            exact (alloca_mild _ _).bind fun slot => (emit_mild _).bind fun _ => bind_mild _ _ _
          rw [hscope]
          exact hspill.bind fun _ => ih hrest

/-- A well-formed function fails to be lowered only for a reason. -/
theorem function_fails {decl : FunctionDecl} (hwf : decl.WellFormed p [p.scope]) :
    Only (LowerError.Explained p) (function globals decl) := by
  unfold function
  cases IR.Ty.ofSource? decl.returnType with
  | none => exact Only.error trivial
  | some returnType =>
      dsimp only
      rw [pure_bind]
      refine Only.bind (Only.mapM fun q _ => ?_) fun params hparams => ?_
      · exact Only.bind (slotType_fails _) fun _ _ => Only.ok _
      · have hnames : params.map (·.1) = decl.params.map (·.name) := by
          refine map_eq_of_forall₂ ((mapM_ok hparams).imp fun q ir hq => ?_)
          obtain ⟨ty, -, hpure⟩ := except_bind_ok.1 hq
          cases hpure
          rfl
        have hsteps : Triple (Named [[]]) (fun _ => True) (LowerError.Explained p)
            (functionSteps globals decl returnType params) := by
          refine (spills_mild hnames).bind fun _ => ?_
          rw [List.append_nil]
          refine (stmts_mild hglobals decl.body hwf.body).bind fun _ => Triple.get fun s _ => ?_
          refine Triple.ite (fun _ => Triple.pure (fun _ _ => trivial) _) fun _ => ?_
          exact Triple.modifyGet fun _ _ => trivial
        exact Only.bind (hsteps.fails _ rfl) fun _ _ => Only.ok _

end Statements

-- ============================================================== programs

/-- A global fails by its type or by its initial value. -/
theorem global_fails {p : Program} {scopes : Sight} {decl : VariableDecl}
    (hwf : decl.WellFormed p scopes) : Only (LowerError.Explained p) (global decl) := by
  refine Only.bind (slotType_fails _) fun ty _ => ?_
  have hrest : ∀ init : Option Value, Only (LowerError.Explained p)
      (pure ⟨⟨decl.name, true, ty⟩, init⟩ : Except LowerError Global) := fun _ => Only.ok _
  dsimp only
  split
  · rename_i e hinit
    refine Only.ite (fun _ => ?_) fun _ => Only.bind (Only.error trivial) fun init _ => hrest init
    refine Only.bind (liftEval_fails _) fun lit hlit => ?_
    have hnumeric := (hwf.init e hinit).evaluate (liftEval_ok.1 hlit)
    cases hty : lit.ty with
    | named name =>
        rw [hty] at hnumeric
        cases hnumeric
    | _ => exact Only.bind (Only.map (retype_fails _ _ _)) fun init _ => hrest init
  · exact Only.bind (Only.ok none) fun init _ => hrest init

/-- A global that is declared has storage. -/
theorem globalStorage_isSome {p : Program} {lowered : List Global}
    (h : p.globals.mapM global = .ok lowered) :
    ∀ d ∈ p.globals, ((globalStorage lowered).lookup d.name).isSome = true := by
  intro d hd
  have hnames : lowered.map (·.slot.name) = p.globals.map (·.name) :=
    map_eq_of_forall₂ ((mapM_ok h).imp fun _ _ hg => (global_slot hg).1)
  have hmem := List.mem_map_of_mem (f := (·.name)) hd
  rw [← hnames] at hmem
  obtain ⟨g, hg, hname⟩ := List.mem_map.1 hmem
  rw [List.lookup_isSome_iff]
  exact ⟨(g.slot.name, g.slot), List.mem_reverse.2 (List.mem_map_of_mem hg), beq_of_eq hname.symm⟩

/-- Lowering an accepted program fails only for a reason. -/
theorem lower_fails {p : Program} (hp : p.WellFormed) :
    Only (LowerError.Explained p) p.lower := by
  refine Only.bind (Only.mapM fun d hd => global_fails (hp.global hd)) fun lowered hlowered => ?_
  refine Only.bind (Only.mapM fun decl hdecl => ?_) fun _ _ => Only.ok _
  exact function_fails (globalStorage_isSome hlowered) (hp.function hdecl)

end Lowering

end MiniC
