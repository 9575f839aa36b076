/-
The two back ends give an expression one type (`lowering_typesAgree`).

# Through the source

Both follow `Expr.type?`: code generation finds exactly that type
(`typeOf_of_type?`), and lowering gives a value of the type that represents it
(`expr_keeps`), provided the operands of every operation are alike. That is asked
of all parts of an expression, so every operand that either back end comes to is
covered (`Expr.WellFormed.of_part`).

# Operands

An operation that is lowered is then one on whole numbers, as the operands of
the source are (`binary_whole`): lowering refuses to compute with anything else,
and if one operand is a whole number so is the other.

# Where they differ

Where operands are not alike there is one way through. The type in which
operands of eight bytes meet is that of the left one, so a double or a string
beside a long becomes a long without notice (`mixedWidths_disagree`).
Consumed by no other module.
-/
import MiniC.Proofs.Codegen.Failures
import MiniC.Proofs.Lowering.Graph
import MiniC.Proofs.Lowering.Keeping
import MiniC.Proofs.Lowering.Programs

namespace MiniC

open Steps

-- ================================================================= parts

section Parts

variable {p : Program} {scopes : Sight} {globals : List (String × Ty)} {sight : Sight}

/-- What folds has no operands of its own to be alike. -/
theorem Expr.unmixed_of_constant {e : Expr} (h : e.isConstant = true) :
    e.Unmixed globals sight := by
  cases e, h using Source.constant_cases with
  | number lit => trivial
  | folded op lhs rhs operandsMatch pos => exact Or.inl rfl

/-- The parts of a well-formed expression whose operands are alike are such
expressions. -/
theorem Expr.WellFormed.of_part {e : Expr} (hwf : e.WellFormed p scopes)
    (hunmixed : e.Unmixed globals sight) {part : Expr} (hpart : part ∈ e.parts) :
    part.WellFormed p scopes ∧ part.Unmixed globals sight := by
  induction e with
  | binary op lhs rhs constant operandsMatch pos ihl ihr =>
      obtain ⟨hconstant, -, -, hleft, hright⟩ := id hwf
      have hoperands : lhs.Unmixed globals sight ∧ rhs.Unmixed globals sight := by
        rcases hunmixed with hfolds | hunmixed
        · obtain ⟨-, hl, hr⟩ := Source.foldable_operands (hconstant.symm.trans hfolds)
          exact ⟨unmixed_of_constant hl, unmixed_of_constant hr⟩
        · exact ⟨hunmixed.1, hunmixed.2.1⟩
      rcases List.mem_cons.1 hpart with rfl | hinner
      · exact ⟨hwf, hunmixed⟩
      · rcases List.mem_append.1 hinner with hinner | hinner
        · exact ihl hleft hoperands.1 hinner
        · exact ihr hright hoperands.2 hinner
  | unary op fixity operand pos ih =>
      rcases List.mem_cons.1 hpart with rfl | hinner
      · exact ⟨hwf, hunmixed⟩
      · exact ih hwf.2 hunmixed hinner
  | _ =>
      rw [List.mem_singleton.1 hpart]
      exact ⟨hwf, hunmixed⟩

end Parts

-- ============================================================ generation

namespace Codegen

/-- Code generation finds the type that an expression has by the names in
sight. -/
theorem typeOf_of_type? {env : Env} {frame : Frame} {e : Expr} {ty : Ty}
    (h : e.type? env.globals frame.types = some ty) : env.typeOf frame e = .ok ty := by
  induction e generalizing ty with
  | number lit =>
      cases h
      rfl
  | string lit =>
      cases h
      rfl
  | member object accessor field pos => cases h
  | ident i =>
      have hname : (frame.types.find? i.name).orElse (fun _ => env.globals.lookup i.name)
          = some ty := h
      rw [Frame.find?_types] at hname
      unfold Env.typeOf Env.locate
      cases hlocal : frame.lookup? i.name with
      | some slot =>
          rw [hlocal] at hname
          cases hname
          rfl
      | none =>
          rw [hlocal] at hname
          have hglobal : env.globals.lookup i.name = some ty := hname
          rw [hglobal]
          rfl
  | binary op lhs rhs constant operandsMatch pos ihl ihr =>
      unfold Expr.type? at h
      unfold Env.typeOf
      cases constant with
      | true =>
          rw [if_pos rfl] at h ⊢
          obtain ⟨lit, hlit, rfl⟩ := Option.map_eq_some_iff.1 h
          rw [toOption_some.1 hlit]
          rfl
      | false =>
          rw [if_neg Bool.false_ne_true] at h ⊢
          cases op with
          | assign => exact ihl h
          | compound op => exact ihl h
          | compare op =>
              cases h
              rfl
          | arith op =>
              obtain ⟨left, hleft, h⟩ := Option.bind_eq_some_iff.1 h
              obtain ⟨right, hright, h⟩ := Option.bind_eq_some_iff.1 h
              cases h
              show (do
                let left ← env.typeOf frame lhs
                let right ← env.typeOf frame rhs
                return Ty.promote left right) = .ok (Ty.promote left right)
              rw [ihl hleft, ihr hright]
              rfl
  | unary op fixity operand pos ih =>
      have hsigned : ∀ {ty : Ty},
          (do return Ty.promote (← operand.type? env.globals frame.types) .int) = some ty →
          (do
            let ty ← env.typeOf frame operand
            return Ty.promote ty .int) = .ok ty := by
        intro ty h
        obtain ⟨inner, hinner, h⟩ := Option.bind_eq_some_iff.1 h
        cases h
        rw [ih hinner]
        rfl
      cases op with
      | not =>
          cases h
          rfl
      | plus => exact hsigned h
      | minus => exact hsigned h
      | incr => exact ih h
      | decr => exact ih h

end Codegen

-- ============================================================== lowering

namespace Lowering

open IR

/-- A discipline that asks nothing. -/
theorem free_discipline (returnType : IR.Ty) :
    Discipline (fun _ => True) (fun _ => True) returnType False where
  temp _ _ := trivial
  argument _ _ := trivial
  zero _ := trivial
  one _ := trivial
  real _ := trivial
  folded _ _ := trivial
  retype _ _ := trivial
  alloca _ := trivial
  load _ _ := trivial
  arith _ _ _ _ _ _ _ _ _ _ := trivial
  compare _ _ _ _ _ _ _ _ := trivial
  cast _ _ _ _ _ _ _ := trivial
  store _ _ := trivial
  jump _ := trivial
  branch _ _ _ _ := trivial
  retNone _ := trivial
  retSome _ _ _ := trivial

/-- Operands that are alike meet in a type of whole numbers only if they are
whole numbers. -/
theorem StandsFor.whole {left right : MiniC.Ty} {l r : IR.Ty} (hl : StandsFor True left l)
    (hr : StandsFor True right r) (hword : Word (arithType l r))
    (hstrings : left ≠ .string ∧ right ≠ .string)
    (halike : left.isFloating = right.isFloating) :
    left.isInteger = true ∧ right.isInteger = true := by
  have hleft : slotType left = .ok l := hl.resolve_right fun h => h.1 trivial
  have hright : slotType right = .ok r := hr.resolve_right fun h => h.1 trivial
  have hwhole := hword.isInteger
  cases left <;> cases hleft <;> cases right <;> cases hright <;>
    revert hwhole hstrings halike <;> decide

section Operations

variable {types : List (String × MiniC.Ty)} {globals : List (String × Slot)} {sight : Sight}
  {returnType : IR.Ty} {p : Program} {scopes : Sight} {lhs rhs : MiniC.Expr}

/-- Whether the operands of an operation are whole numbers. -/
def WholeOperands (types : List (String × MiniC.Ty)) (sight : Sight) (lhs rhs : MiniC.Expr) :
    Prop :=
  ∀ operand ∈ [lhs, rhs], ∃ ty, operand.type? types sight = some ty ∧ ty.isInteger = true

/-- What is known of the values of expressions whose operands are alike. -/
abbrev Exactly (types : List (String × MiniC.Ty)) (sight : Sight) (e : MiniC.Expr)
    (value : Value) : Prop :=
  Lowered (fun _ => True) True types sight e value

/-- A step to which nothing is asked but its result. -/
abbrev Gives {α : Type} (returnType : IR.Ty) (sight : Sight) (A : α → Prop) (step : Lower α) :
    Prop :=
  KeepsTo (fun _ => True) returnType sight A step

/-- Operands that meet are whole numbers. -/
theorem meet_whole {left right : Value} (hleft : Exactly types sight lhs left)
    (hright : Exactly types sight rhs right) (halike : MiniC.Expr.Alike types sight lhs rhs) :
    Gives returnType sight (fun _ => WholeOperands types sight lhs rhs) (meet left right) := by
  refine (meet_keeps (free_discipline returnType) hleft.asked hright.asked hleft.ne_void
    hright.ne_void False.elim).weaken fun r hmeet => ?_
  obtain ⟨⟨hty, hword⟩, -⟩ := hmeet
  rw [hty] at hword
  obtain ⟨l, hl, hlrepr⟩ := hleft.typed
  obtain ⟨r, hr, hrrepr⟩ := hright.typed
  obtain ⟨⟨hlstring, hrstring⟩, hsame⟩ := halike
  rw [hl] at hlstring hsame
  rw [hr] at hrstring hsame
  have hstrings : l ≠ .string ∧ r ≠ .string :=
    ⟨fun h => hlstring (congrArg some h), fun h => hrstring (congrArg some h)⟩
  obtain ⟨hlwhole, hrwhole⟩ := hlrepr.whole hrrepr hword hstrings hsame
  exact List.forall_mem_cons.2 ⟨⟨l, hl, hlwhole⟩, List.forall_mem_singleton.2 ⟨r, hr, hrwhole⟩⟩

/-- Operands that are computed with are whole numbers. -/
theorem arith_whole (op : Arith) {left right : Value} (hleft : Exactly types sight lhs left)
    (hright : Exactly types sight rhs right) (halike : MiniC.Expr.Alike types sight lhs rhs) :
    Gives returnType sight (fun _ => WholeOperands types sight lhs rhs) (arith op left right) :=
  (meet_whole hleft hright halike).bind fun _ hwhole =>
    (define_keeps fun _ => trivial).weaken fun _ _ => hwhole

/-- Operands that are compared are whole numbers. -/
theorem compare_whole (op : Comparison) {left right : Value}
    (hleft : Exactly types sight lhs left) (hright : Exactly types sight rhs right)
    (halike : MiniC.Expr.Alike types sight lhs rhs) :
    Gives returnType sight (fun _ => WholeOperands types sight lhs rhs) (compare op left right) :=
  (meet_whole hleft hright halike).bind fun _ hwhole =>
    (define_keeps fun _ => trivial).weaken fun _ _ => hwhole

variable (hglobals : GlobalsShown types globals)

include hglobals

/-- Expressions whose operands are alike are lowered to values of their
types. -/
theorem expr_exactly {e : MiniC.Expr} (hwf : e.WellFormed p scopes)
    (hunmixed : e.Unmixed types sight) :
    Gives returnType sight (Exactly types sight e) (expr globals e) :=
  expr_keeps (free_discipline returnType) hglobals hwf
    ⟨fun _ _ _ _ => trivial, False.elim, fun _ => hunmixed⟩

/-- An operation that is lowered, and not folded, is one on whole numbers. -/
theorem binary_whole {op : BinaryOp} {operandsMatch : Bool} {pos : Position}
    (hop : op ≠ .assign)
    (hwf : (MiniC.Expr.binary op lhs rhs false operandsMatch pos).WellFormed p scopes)
    (hunmixed : (MiniC.Expr.binary op lhs rhs false operandsMatch pos).Unmixed types sight) :
    Gives returnType sight (fun _ => WholeOperands types sight lhs rhs)
      (expr globals (.binary op lhs rhs false operandsMatch pos)) := by
  obtain ⟨-, hmatch, -, hleftwf, hrightwf⟩ := hwf
  obtain ⟨hl, hr, hoperands⟩ := hunmixed.parts_binary
  have halike := hoperands.resolve_left hop
  have hlhs : Gives returnType sight (Exactly types sight lhs) (expr globals lhs) :=
    expr_exactly hglobals hleftwf hl
  have hrhs : Gives returnType sight (Exactly types sight rhs) (expr globals rhs) :=
    expr_exactly hglobals hrightwf hr
  have hd := free_discipline returnType
  unfold expr
  rw [if_neg Bool.false_ne_true]
  cases op with
  | assign => exact absurd rfl hop
  | compound op =>
      refine (target_keeps hglobals lhs).bind fun slot hslot => ?_
      obtain ⟨hvariable, ty, hty, hrepr⟩ := hslot
      refine (load_keeps hd slot).bind fun current hcurrent => ?_
      have hleft : Exactly types sight lhs current :=
        Lowered.current hcurrent.1 hvariable hty (hcurrent.2 ▸ hrepr)
      refine operand_keeps hleft hmatch hrhs fun right hright => ?_
      refine (arith_whole op hleft hright halike).bind fun result hwhole => ?_
      exact (store_keeps hd trivial False.elim).weaken fun _ _ => hwhole
  | arith op =>
      exact hlhs.bind fun left hleft => operand_keeps hleft hmatch hrhs fun right hright =>
        arith_whole op hleft hright halike
  | compare op =>
      exact hlhs.bind fun left hleft => operand_keeps hleft hmatch hrhs fun right hright =>
        compare_whole op hleft hright halike

end Operations

end Lowering

-- ============================================================= agreement

/-- What both back ends make of an expression that is lowered to a value:
its type in code generation is the one that the type of the value
represents, and if it is an operation that is not folded, its operands are
whole numbers. -/
structure Codegen.Env.Agrees (env : Codegen.Env) (frame : Frame) (e : Expr) (value : IR.Value) :
    Prop where
  type : ∃ ty, env.typeOf frame e = .ok ty ∧ IR.Ty.ofSource? ty = some value.ty
  operands : ∀ op lhs rhs operandsMatch pos, e = .binary op lhs rhs false operandsMatch pos →
    op ≠ .assign → ∀ operand ∈ [lhs, rhs],
      ∃ ty, env.typeOf frame operand = .ok ty ∧ ty.isInteger = true

/-- Whether the back ends agree on an expression wherever they have the given
names in sight. -/
def Program.TypesAgree (p : Program) (returnType : Ty) (sight : Sight) (e : Expr) : Prop :=
  ∀ lowered, p.globals.mapM Lowering.global = .ok lowered →
    ∀ state frame, Lowering.Shows sight state → frame.types = sight →
    ∀ value state', Lowering.expr (Lowering.globalStorage lowered) e state = .ok (value, state') →
      Codegen.Env.Agrees ⟨p, Codegen.globalTypes p.globals, returnType⟩ frame e value

/-- The back ends agree on well-formed expressions whose operands are
alike. -/
theorem Expr.WellFormed.typesAgree {p : Program} {scopes sight : Sight} {returnType : Ty} {e : Expr}
    (hwf : e.WellFormed p scopes) (hunmixed : e.Unmixed (Source.globalTypes p) sight) :
    p.TypesAgree returnType sight e := by
  intro lowered hlowered state frame hshows hframe value state' h
  have hglobals := Lowering.globalsShown hlowered
  have hbuilt : Lowering.Built (fun _ => True) state.builder.function.returnType sight state :=
    ⟨fun _ _ _ _ => trivial, rfl, hshows⟩
  have hfound : ∀ {part ty}, part.type? (Source.globalTypes p) sight = some ty →
      (Codegen.Env.mk p (Codegen.globalTypes p.globals) returnType).typeOf frame part = .ok ty :=
    fun hty => Codegen.typeOf_of_type? (hframe ▸ hty)
  refine ⟨?_, ?_⟩
  · obtain ⟨ty, hty, hrepr⟩ :=
      (Lowering.expr_exactly hglobals hwf hunmixed hbuilt h).1.typed
    have hslot := hrepr.resolve_right fun hinexact => hinexact.1 trivial
    exact ⟨ty, hfound hty, (Lowering.slotType_ok.1 hslot).1⟩
  · intro op lhs rhs operandsMatch pos he hop operand hoperand
    subst he
    obtain ⟨ty, hty, hwhole⟩ := (Lowering.binary_whole hglobals hop hwf hunmixed hbuilt h).1
      operand hoperand
    exact ⟨ty, hfound hty, hwhole⟩

/-- The back ends agree on all expressions of a function of an accepted
program, if the operands of its operations are alike. -/
theorem lowering_typesAgree {source : String} {report report' : Report} {p : Program}
    (hfront : frontend source report = (.ok p, report')) {decl : FunctionDecl}
    (hdecl : decl ∈ p.functions)
    (hunmixed : decl.Everywhere fun sight leaf =>
      ∀ e ∈ leaf.exprs, e.Unmixed (Source.globalTypes p) sight) :
    decl.Everywhere fun sight leaf =>
      ∀ e ∈ leaf.exprs, ∀ part ∈ e.parts, p.TypesAgree decl.returnType sight part := by
  have hwf := ((frontend_wellFormed hfront).function hdecl).body
  refine Stmt.EverywhereIn.and (fun sight leaf hleaf hunmixed => ?_) hwf hunmixed
  intro e he part hpart
  obtain ⟨hpartwf, hpartunmixed⟩ := (Leaf.WellFormed.exprs hleaf e he).of_part (hunmixed e he) hpart
  exact hpartwf.typesAgree hpartunmixed

/-- A function whose operations mix the whole numbers of all widths, and that
has floating values and strings beside them. -/
def evenHanded : String :=
  "string name; double ratio; long total;
   bool f(char c, short s, int n) {
     bool b = c < s; double half = 0.5; ratio = half; string copy = name;
     total += c * n - (-s); total = b + (total / (n += 1)) - ++c;
     return total == s - 70000 * 70000; }"

/-- Both back ends take `evenHanded`, and agree on all expressions in it. -/
theorem evenHanded_typesAgree :
    ∃ p report' decl fn, frontend evenHanded (.empty false) = (.ok p, report')
      ∧ decl ∈ p.functions
      ∧ (decl.Everywhere fun sight leaf =>
        ∀ e ∈ leaf.exprs, e.Unmixed (Source.globalTypes p) sight)
      ∧ p.lowerFunction decl = .ok fn
      ∧ decl.Everywhere fun sight leaf =>
        ∀ e ∈ leaf.exprs, ∀ part ∈ e.parts, p.TypesAgree decl.returnType sight part := by
  have h : (firstLowered evenHanded).any (fun q =>
      decide (q.2.1.Everywhere fun sight leaf =>
        ∀ e ∈ leaf.exprs, e.Unmixed (Source.globalTypes q.1) sight)) = true := by
    set_option maxRecDepth 2000 in
    rw [firstLowered, frontend, tokenize_written (rfl : evenHanded = String.ofList _)]
    decide +kernel
  obtain ⟨⟨p, decl, fn⟩, hlowered, hunmixed⟩ := (Option.any_eq_true _ _).1 h
  obtain ⟨⟨report', hfront⟩, hdecl⟩ := firstLowered_accepted hlowered
  have hunmixed := of_decide_eq_true hunmixed
  exact ⟨p, report', decl, fn, hfront, hdecl, hunmixed, firstLowered_some hlowered,
    lowering_typesAgree hfront hdecl hunmixed⟩

/-- A double beside a long. -/
def mixedWidths : String := "int main() { long l = 1; l + 1.5; return 0; }"

/-- The variable and the expression that a function without parameters
begins with. -/
def opening (decl : FunctionDecl) : Option (VariableDecl × Expr) :=
  match decl.params, decl.body with
  | [], .variable d :: .expr e :: _ => some (d, e)
  | _, _ => none

/-- What a function without parameters begins with. -/
theorem opening_some {decl : FunctionDecl} {d : VariableDecl} {e : Expr}
    (h : opening decl = some (d, e)) :
    decl.params = [] ∧ ∃ rest, decl.body = .variable d :: .expr e :: rest := by
  unfold opening at h
  split at h
  · rename_i hparams hbody
    cases h
    exact ⟨hparams, _, hbody⟩
  · cases h

/-- Both back ends at the point where a long of the name `l` is the only
variable. -/
def besideLong : Lowering.State × Frame :=
  (⟨.start "main" .i32 [], [[("l", ⟨"l", false, .i64⟩)]]⟩, ⟨[[("l", ⟨8, .long⟩)]], 8, 0, false, 0⟩)

/-- The double is cut off and added as a long, where code generation has a
double. -/
theorem mixedWidths_disagree :
    ∃ p report' decl, frontend mixedWidths (.empty false) = (.ok p, report')
      ∧ decl ∈ p.functions
      ∧ ¬ decl.Everywhere fun sight leaf =>
        ∀ e ∈ leaf.exprs, ∀ part ∈ e.parts, p.TypesAgree decl.returnType sight part := by
  have h : ((frontend mixedWidths (.empty false)).1.toOption).any (fun p =>
      p.globals.isEmpty && p.functions.head?.any fun decl => (opening decl).any fun q =>
        q.1.name = "l" ∧ q.1.ty = .long
          ∧ (Lowering.expr [] q.2 besideLong.1).toOption.map (·.1.ty) = some .i64
          ∧ (Codegen.Env.typeOf ⟨p, [], decl.returnType⟩ besideLong.2 q.2).toOption
            = some .double) = true := by
    decide +kernel
  obtain ⟨p, hp, h⟩ := (Option.any_eq_true _ _).1 h
  obtain ⟨hnone, h⟩ := Bool.and_eq_true_iff.1 h
  have hglobals := List.isEmpty_iff.1 hnone
  obtain ⟨decl, hdecl, h⟩ := (Option.any_eq_true _ _).1 h
  obtain ⟨⟨l, e⟩, hopening, h⟩ := (Option.any_eq_true _ _).1 h
  obtain ⟨hname, hty, hlong, hdouble⟩ := of_decide_eq_true h
  obtain ⟨hparams, rest, hbody⟩ := opening_some hopening
  obtain ⟨report', hfront⟩ := frontend_of_toOption hp
  refine ⟨p, report', decl, hfront, List.mem_of_mem_head? hdecl, fun hall => ?_⟩
  have hsight : (Stmt.variable l).declare decl.sight = [[("l", .long)]] := by
    unfold FunctionDecl.sight
    rw [hparams, ← hname, ← hty]
    rfl
  unfold FunctionDecl.Everywhere at hall
  rw [hbody] at hall
  have hagree := hall.2.1 e (List.mem_singleton_self e) e e.mem_parts_self
  rw [hsight] at hagree
  obtain ⟨⟨value, state'⟩, hlowered, hvalue⟩ := Option.map_eq_some_iff.1 hlong
  have hagrees := hagree [] (by rw [hglobals]; rfl) besideLong.1 besideLong.2 rfl rfl value state'
    (toOption_some.1 hlowered)
  rw [hglobals] at hagrees
  obtain ⟨ty, hgenerated, hrepr⟩ := hagrees.type
  have hsame : Except.ok ty = Except.ok .double := hgenerated.symm.trans (toOption_some.1 hdouble)
  cases hsame
  have hvalue : value.ty = .i64 := hvalue
  rw [hvalue] at hrepr
  cases hrepr

end MiniC
