/-
The types of lowered code, in two results.

# Types agree

Wherever values meet their types agree: operands were converted to one type,
what is stored to the type of its slot, what is returned to the return type
(`lowerFunction_typed`). This holds of every function, since lowering has no way
to an instruction but through a conversion; as a discipline it asks nothing of
values (`typed_discipline`).

# Operations are legal

That operations are also applied only to the types they are defined for holds
where strings are kept and `!` is applied to whole numbers
(`lowerFunction_legal`). It is not true in general. `!` compares whatever it is
given with a zero, as integers, also where the other unary and binary operations
turn a floating operand away (`complementedFloat_illegal`); and a conversion
turns away floating values but not strings. The discipline behind this is a
strict one, and the two conditions are what strictness asks of expressions.
Consumed by no other module.
-/
import MiniC.Proofs.Lowering.Graph
import MiniC.Proofs.Lowering.Keeping
import MiniC.Proofs.Parser.Declarations

namespace MiniC

open IR Lowering

section Functions

variable {source : String} {report report' : Report} {p : Program}
  (hfront : frontend source report = (.ok p, report')) {decl : FunctionDecl}
  (hdecl : decl ∈ p.functions)

include hfront hdecl

/-- A function of an accepted program keeps to a discipline that asks
nothing of values, if strings are kept where the discipline is strict. -/
theorem lowerFunction_keeps {G : Instr → Prop} {strict : Prop} {fn : IR.Function}
    (hkept : strict → decl.Everywhere (Leaf.Kept (Source.globalTypes p) decl.returnType))
    (h : p.lowerFunction decl = .ok fn)
    (hd : Discipline G (fun _ => True) fn.returnType strict) : fn.Throughout G := by
  obtain ⟨lowered, hlowered, hfn⟩ := Steps.except_bind_ok.1 h
  have hwf := frontend_wellFormed hfront
  refine wellFormed_keeps hwf hdecl hlowered ?_ hkept hfn hd
  exact Stmt.EverywhereIn.and (fun _ _ _ _ _ _ _ _ _ _ => trivial) (hwf.function hdecl).body
    (hwf.function hdecl).body

end Functions

-- ========================================================== types agree

/-- Types agree for the reasons lowering has. -/
theorem typed_discipline (returnType : IR.Ty) :
    Discipline (Instr.Typed returnType) (fun _ => True) returnType False where
  temp _ _ := trivial
  argument _ _ := trivial
  zero _ := trivial
  one _ := trivial
  real _ := trivial
  folded _ _ := trivial
  retype _ _ := trivial
  alloca _ := trivial
  load _ _ := trivial
  arith _ _ _ _ _ hl hr _ _ _ := ⟨hl, hr⟩
  compare _ _ _ _ hty _ _ _ := hty
  cast _ _ _ _ _ _ _ := trivial
  store hty _ := hty
  jump _ := trivial
  branch _ _ hty _ := hty
  retNone hvoid := hvoid
  retSome hty hvoid _ := ⟨hty, hvoid⟩

/-- In a lowered function types agree at every instruction. -/
theorem lowerFunction_typed {source : String} {report report' : Report} {p : Program}
    (hfront : frontend source report = (.ok p, report')) {decl : FunctionDecl}
    (hdecl : decl ∈ p.functions) {fn : IR.Function} (h : p.lowerFunction decl = .ok fn) :
    IR.Ty.ofSource? decl.returnType = some fn.returnType
      ∧ fn.Throughout (Instr.Typed fn.returnType) := by
  refine ⟨?_, lowerFunction_keeps hfront hdecl False.elim h (typed_discipline _)⟩
  obtain ⟨lowered, -, hfn⟩ := Steps.except_bind_ok.1 h
  obtain ⟨repr, params, s, t, u, hstages, rfl⟩ := function_ok hfn
  rw [hstages.returnType]
  exact congrArg some
    ((hstages.spilled.grows.trans hstages.built.grows).trans hstages.ended.grows).returnType.symm

/-- A function that stores, compares and returns values of other types than
it computes, next to one that returns nothing. -/
def manyTypes : String :=
  "bool any; long total = 2.5;
   short f(char c, int n) {
     while (n) { total += c * 2; any = total - (n -= 1); if (!c) { return 1.5; } }
     string s; s = s;
     return total; }
   void g() { return; }"

theorem manyTypes_typed :
    ∃ p report' decl fn, frontend manyTypes (.empty false) = (.ok p, report')
      ∧ decl ∈ p.functions ∧ p.lowerFunction decl = .ok fn
      ∧ fn.Throughout (Instr.Typed fn.returnType) := by
  have h : (firstLowered manyTypes).isSome = true := by
    set_option maxRecDepth 2000 in
    rw [firstLowered, frontend, tokenize_written (rfl : manyTypes = String.ofList _)]
    decide +kernel
  obtain ⟨⟨p, decl, fn⟩, hlowered⟩ := Option.isSome_iff_exists.1 h
  obtain ⟨⟨report', hfront⟩, hdecl⟩ := firstLowered_accepted hlowered
  have hfn := firstLowered_some hlowered
  exact ⟨p, report', decl, fn, hfront, hdecl, hfn, (lowerFunction_typed hfront hdecl hfn).2⟩

-- ======================================================= legal operations

/-- A change of width between whole numbers is one that is defined. -/
theorem castOp_legal {value : IR.Value} {target : IR.Ty} (hne : value.ty ≠ target)
    (hvalue : value.ty.isInteger = true) (htarget : target.isInteger = true) :
    (Definition.cast (castOp value.ty target) value target).Legal := by
  refine ⟨hvalue, htarget, ?_⟩
  unfold castOp
  by_cases hnarrow : target.bits < value.ty.bits
  · rw [if_pos hnarrow, if_pos rfl]
    exact hnarrow
  · have hbits : value.ty.bits ≠ target.bits := by
      intro heq
      apply hne
      revert hvalue htarget heq
      cases value.ty <;> cases target <;> decide
    rw [if_neg hnarrow, if_neg (by split <;> exact nofun)]
    omega

/-- Operations are legal for the reasons lowering has, if those about
conversions are strict. -/
theorem legal_discipline (returnType : IR.Ty) :
    Discipline Instr.Legal (fun _ => True) returnType True where
  temp _ _ := trivial
  argument _ _ := trivial
  zero _ := trivial
  one _ := trivial
  real _ := trivial
  folded _ _ := trivial
  retype _ _ := trivial
  alloca _ := trivial
  load _ _ := trivial
  arith _ _ _ _ _ hl hr hty _ _ := ⟨hl ▸ hty, hr ▸ hty⟩
  compare _ _ _ _ hty hwhole _ _ := ⟨hwhole trivial, hty ▸ hwhole trivial⟩
  cast _ _ _ hne _ hwhole _ := castOp_legal hne (hwhole trivial).1 (hwhole trivial).2
  store _ _ := trivial
  jump _ := trivial
  branch _ _ _ _ := trivial
  retNone _ := trivial
  retSome _ _ _ := trivial

/-- Where strings are kept and `!` is applied to whole numbers, lowered code
applies operations only to the types they are defined for. -/
theorem lowerFunction_legal {source : String} {report report' : Report} {p : Program}
    (hfront : frontend source report = (.ok p, report')) {decl : FunctionDecl}
    (hdecl : decl ∈ p.functions)
    (hkept : decl.Everywhere (Leaf.Kept (Source.globalTypes p) decl.returnType))
    {fn : IR.Function} (h : p.lowerFunction decl = .ok fn) : fn.Throughout Instr.Legal :=
  lowerFunction_keeps hfront hdecl (fun _ => hkept) h (legal_discipline _)

/-- A function that changes widths in both directions, with strings and
floating values that only go where such values go. -/
def keptApart : String :=
  "string name; double ratio; long total;
   short f(char c, int n, string s) {
     name = s; double half = 0.5; ratio = half;
     while (n) { total += c; n = total; c = n - 1; if (!total) { return 1.5; } }
     return total; }"

theorem keptApart_legal :
    ∃ p report' decl fn, frontend keptApart (.empty false) = (.ok p, report')
      ∧ decl ∈ p.functions
      ∧ decl.Everywhere (Leaf.Kept (Source.globalTypes p) decl.returnType)
      ∧ p.lowerFunction decl = .ok fn ∧ fn.Throughout Instr.Legal := by
  have h : (firstLowered keptApart).any (fun q =>
      decide (q.2.1.Everywhere (Leaf.Kept (Source.globalTypes q.1) q.2.1.returnType))) = true := by
    set_option maxRecDepth 2000 in
    rw [firstLowered, frontend, tokenize_written (rfl : keptApart = String.ofList _)]
    decide +kernel
  obtain ⟨⟨p, decl, fn⟩, hlowered, hkept⟩ := (Option.any_eq_true _ _).1 h
  obtain ⟨⟨report', hfront⟩, hdecl⟩ := firstLowered_accepted hlowered
  have hfn := firstLowered_some hlowered
  have hkept := of_decide_eq_true hkept
  exact ⟨p, report', decl, fn, hfront, hdecl, hkept, hfn,
    lowerFunction_legal hfront hdecl hkept hfn⟩

/-- The complement of a floating value is a comparison of integers. -/
def complementedFloat : String := "int main() { float f = 1.5; return !f; }"

theorem complementedFloat_illegal :
    ∃ p report' decl fn, frontend complementedFloat (.empty false) = (.ok p, report')
      ∧ decl ∈ p.functions ∧ p.lowerFunction decl = .ok fn ∧ ¬ fn.Throughout Instr.Legal := by
  have h : (firstLowered complementedFloat).any
      (fun q => decide (¬ q.2.2.Throughout Instr.Legal)) = true := by decide +kernel
  obtain ⟨⟨p, decl, fn⟩, hlowered, hillegal⟩ := (Option.any_eq_true _ _).1 h
  obtain ⟨⟨report', hfront⟩, hdecl⟩ := firstLowered_accepted hlowered
  exact ⟨p, report', decl, fn, hfront, hdecl, firstLowered_some hlowered,
    of_decide_eq_true hillegal⟩

end MiniC
