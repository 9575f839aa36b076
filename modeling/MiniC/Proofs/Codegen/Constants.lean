/-
Constants in generated code (`constants_arrive`).

# Three ways

A constant of whole numbers comes to where it is used in one of three ways: a
declaration or an assignment stores it, a return or an operation evaluates it into rax
and converts it, or an operation takes it as its right operand. Whichever it is, the
folded number arrives wrapped to the type that it is used as. `Arrives` states the three
of the code that is emitted for the constant, run from any machine; that floating types
refuse it is stated of the same steps (`Refused`).

# Where numbers are wrapped

The three wrap at different points. Storing and right operands wrap the number
once, to the type that is asked for; evaluating wraps it to the literal's own
type first (`evaluates_constant`). That makes no difference since the literal's
type holds its number: folding gives it such a type, and so do the words of the
source, an integer past an int apart. Such an integer, used as it is written,
keeps the type int, and arrives as one number where it is stored and as another
where it is returned (`tooWide_parts`). So what is asked of a constant is only that, if it
is a bare literal, it fits in its type (`Expr.Narrow`).
-/
import MiniC.Proofs.Codegen.Operands
import MiniC.Proofs.Lowering.Constants
import MiniC.Proofs.Parser.Literals

namespace MiniC

/-- Whether an expression, if it is an integer as the source writes it, fits
an int. -/
def Expr.Narrow : Expr → Prop
  | .number lit => lit.ty = .int → lit.toInt.toOption.all Integer.fitsInt = true
  | _ => True

instance : ∀ e : Expr, Decidable e.Narrow
  | .number lit =>
    inferInstanceAs (Decidable (lit.ty = .int → lit.toInt.toOption.all Integer.fitsInt = true))
  | .ident _ | .string _ | .binary _ _ _ _ _ _ | .unary _ _ _ _ | .member _ _ _ _ => .isTrue trivial

namespace Codegen

open Asm Steps Machine Machine.Machine Source

variable {env : Env} {e : Expr} {lit : NumberLiteral} {n : Int} {ty : Ty}

-- ============================================================= arriving

section Arriving

variable (env : Env) (e : Expr) (ty : Ty) (k : Int)

/-- Whether a place that an expression is stored into, as a value of a type,
then holds a number. -/
def StoredAs : Prop :=
  ∀ (s : State) (place : Place) (m : Machine), ∃ code m',
    storeValue env place ty e (eval env e) s = .ok (code, s) ∧ exec code m = .ok m'
      ∧ Stored (wordOf ty) place k m m' ∧ m'.loadPlace (wordOf ty) place = k

/-- Whether evaluating an expression as a value of a type leaves a number in
rax, as for a return or a left operand. -/
def EvaluatedAs : Prop :=
  ∀ (s : State) (m : Machine), ∃ code m',
    evalTo env e (eval env e) ty s = .ok (code, s) ∧ exec code m = .ok m'
      ∧ Moved .rax m m' ∧ low (wordOf ty) (m'.regs .rax) = k

/-- Whether an operation on a type reads a number from its right operand. -/
def OperandAs : Prop :=
  ∀ (s : State) (m : Machine), ∃ code o m',
    rightOperand env e (eval env e) ty s = .ok ((code, o), s) ∧ exec code m = .ok m'
      ∧ Moved .rcx m m' ∧ RightForm (wordOf ty) o ∧ m'.read (wordOf ty) o = .ok k

/-- Whether a number arrives in all the ways in which an expression is used as
a value of a type. Operations are on ints and longs. -/
structure Arrives : Prop where
  stored : StoredAs env e ty k
  evaluated : EvaluatedAs env e ty k
  operand : ty = .int ∨ ty = .long → OperandAs env e ty k

/-- Whether no code is generated for any of them, for one reason. -/
def Refused (error : GenError) : Prop :=
  ∀ (s : State) (place : Place),
    storeValue env place ty e (eval env e) s = .error error
      ∧ evalTo env e (eval env e) ty s = .error error
      ∧ rightOperand env e (eval env e) ty s = .error error

end Arriving

-- ============================================================== numbers

/-- A number wrapped to a type is a value of it. -/
theorem inRange_wrapTo (hty : ty.isInteger = true) (hn : Integer.fitsLong n = true) :
    InRange ty (wrapTo ty n) := by
  cases ty <;> try cases hty
  case bool =>
    show InRange .bool (if n = 0 then 0 else 1)
    exact .ite (.inl rfl) (.inr rfl)
  case char => exact wrap_wrap 1 n
  case short => exact wrap_wrap 2 n
  case int => exact wrap_wrap 4 n
  case long =>
    have hw : Writable .long n := hn
    exact hw.inRange

/-- A whole number that is written fits in 64 bits. -/
theorem toInt_fitsLong (hwhole : lit.ty.isInteger = true) (hn : lit.toInt = .ok n) :
    Integer.fitsLong n = true :=
  Lowering.ofText?_fitsLong (text_of_toInt (not_floating hwhole) hn)

/-- What a constant folds to, wrapped to its own type, is a number that type is
written with; and nothing is lost by it if the constant is no wide integer. -/
theorem evaluate_writable (hspelled : e.Spelled) (hconst : e.isConstant = true)
    (heval : e.evaluate = .ok lit) (hwhole : lit.ty.isInteger = true)
    (hn : lit.toInt = .ok n) :
    Writable lit.ty (wrapTo lit.ty n) ∧ (e.Narrow → wrapTo lit.ty n = n) := by
  have hheld : Writable lit.ty n →
      Writable lit.ty (wrapTo lit.ty n) ∧ (e.Narrow → wrapTo lit.ty n = n) := by
    intro hw
    have hself := Lowering.wrapTo_inRange hwhole hw.inRange
    rw [hself]
    exact ⟨hw, fun _ => rfl⟩
  cases e, hconst using constant_cases with
  | number l =>
      cases heval
      rcases (hspelled lit List.mem_cons_self).writable hwhole hn with hint | hw
      · -- an integer as the source writes it
        rw [hint]
        constructor
        · have hrange : InRange .int (wrapTo .int n) := wrap_wrap 4 n
          exact fitsInt_of_inRange rfl (by decide) hrange
        · intro hnarrow
          have hall := hnarrow hint
          rw [hn] at hall
          have hw : Writable .int n := hall
          exact hw.inRange
      · exact hheld hw
  | folded op lhs rhs operandsMatch pos =>
      have hloose : ∀ l ∈ (Expr.binary op lhs rhs true operandsMatch pos).loose, l.InBounds := nofun
      obtain ⟨m, hm, hw⟩ := Expr.evaluate_inBounds rfl hloose heval hwhole
      cases hm.symm.trans hn
      exact hheld hw

-- =============================================================== storing

/-- A constant is stored as its literal. -/
theorem storeValue_constant (hconst : e.isConstant = true) (heval : e.evaluate = .ok lit)
    (run : Gen (Code × Ty)) (place : Place) (s : State) :
    storeValue env place ty e run s
      = (liftM (storeLiteral place lit ty) : Gen Code) s := by
  unfold storeValue
  rw [if_pos hconst, heval]
  rfl

/-- Storing a constant wraps its number to the type of the place. -/
theorem stores_constant (hconst : e.isConstant = true) (heval : e.evaluate = .ok lit)
    (hwhole : lit.ty.isInteger = true) (hty : ty.isInteger = true) (hn : lit.toInt = .ok n) :
    StoredAs env e ty (wrapTo ty n) := by
  intro s place m
  have hrange := inRange_wrapTo hty (toInt_fitsLong hwhole hn)
  obtain ⟨m', hexec, hstored⟩ := storing_exec hty hrange place m
  refine ⟨_, m', ?_, hexec, hstored, ?_⟩
  · rw [storeValue_constant hconst heval]
    exact lift_ok.2 ⟨storeLiteral_eq hty hwhole (Lowering.immediate_of_toInt hn ty), rfl⟩
  · have hload : m'.loadPlace (wordOf ty) place
        = (m.storePlace (wordOf ty) place (wrapTo ty n)).loadPlace (wordOf ty) place :=
      loadPlace_congr (m := m.storePlace _ place _) hstored.rbp hstored.memory _ _
    rw [hload, loadPlace_storePlace, bytes_wordOf hty, hrange.wrap hty]

-- ============================================================ evaluating

theorem eval_constant_eq (hconst : e.isConstant = true) : eval env e = evalConstant e := by
  cases e, hconst using constant_cases with
  | number _ => rfl
  | folded op lhs rhs operandsMatch pos =>
      unfold eval
      rw [if_pos rfl]

/-- A constant is evaluated and converted. -/
theorem evalTo_constant (hconst : e.isConstant = true) (s : State) :
    evalTo env e (eval env e) ty s
      = (do
          let (code, source) ← evalConstant e
          let conversion ← convert source ty
          return code ++ conversion : Gen Code) s := by
  unfold evalTo
  rw [if_pos hconst, eval_constant_eq hconst]
  rfl

/-- A constant is evaluated into the width of its own type. -/
theorem evalConstant_eq (heval : e.evaluate = .ok lit) (hwhole : lit.ty.isInteger = true)
    (s : State) :
    evalConstant e s
      = (do
          let k ← immediate lit lit.ty
          return ([.mov (reg (wordOf lit.ty) .rax) (.imm k)], lit.ty) : Gen (Code × Ty)) s := by
  unfold evalConstant
  rw [heval]
  show (if lit.ty.isFloating = true then fail (.notImplemented .floatingRegister)
    else liftM (immediate lit lit.ty) >>= fun k => _ : Gen (Code × Ty)) s = _
  rw [not_floating hwhole, if_neg Bool.false_ne_true, widthOf_whole hwhole]
  rfl

/-- Whole numbers of all types are converted into each other. -/
theorem convert_total {source target : Ty} (hs : source.isInteger = true)
    (ht : target.isInteger = true) : ∃ code, convert source target = .ok code := by
  cases source <;> try cases hs
  all_goals
    cases target <;> try cases ht
    all_goals exact ⟨_, rfl⟩

/-- Evaluating a constant wraps its number to the literal's type, and then to
the type that it is evaluated as. -/
theorem evaluates_constant (hspelled : e.Spelled) (hconst : e.isConstant = true)
    (heval : e.evaluate = .ok lit) (hwhole : lit.ty.isInteger = true) (hty : ty.isInteger = true)
    (hn : lit.toInt = .ok n) : EvaluatedAs env e ty (wrapTo ty (wrapTo lit.ty n)) := by
  intro s m
  have hw := (evaluate_writable hspelled hconst heval hwhole hn).1
  have hrange := hw.inRange
  have hevaluated : evalConstant e s
      = .ok (([.mov (reg (wordOf lit.ty) .rax) (.imm (wrapTo lit.ty n))], lit.ty), s) := by
    rw [evalConstant_eq heval hwhole, Lowering.immediate_of_toInt hn]
    rfl
  obtain ⟨conversion, hconversion⟩ := convert_total hwhole hty
  have hmoved := Moved.putReg m (wordOf lit.ty) .rax (wrapTo lit.ty n)
  have hlow : low (wordOf lit.ty) ((m.putReg (wordOf lit.ty) .rax (wrapTo lit.ty n)).regs .rax)
      = wrapTo lit.ty n := by
    rw [putReg_self, low_put (Nat.le_refl _), bytes_wordOf hwhole, hrange.wrap hwhole]
  obtain ⟨m', hexec, hconverted, hresult⟩ := convert_exec hconversion hwhole hty hrange hlow
  refine ⟨.mov (reg (wordOf lit.ty) .rax) (.imm (wrapTo lit.ty n)) :: conversion, m', ?_, ?_,
    hmoved.trans hconverted, ?_⟩
  · rw [evalTo_constant hconst]
    exact bind_ok.2 ⟨_, s, hevaluated, bind_ok.2 ⟨conversion, s, lift_ok.2 ⟨hconversion, rfl⟩, rfl⟩⟩
  · exact (exec_step (step_value m .rax hwhole hrange) conversion).trans hexec
  · rw [hresult, wrapTo_eq hw hty]

-- ======================================================== right operands

/-- A constant is an operand itself, if 32 bits hold it. -/
theorem rightOperand_constant (hconst : e.isConstant = true) (heval : e.evaluate = .ok lit)
    (hwhole : lit.ty.isInteger = true) (hty : ty.isInteger = true) (run : Gen (Code × Ty))
    (s : State) :
    rightOperand env e run ty s
      = (do
          let k ← immediate lit ty
          if Integer.fitsInt k then return ([], .imm k)
          else return ([.mov (reg .qword .rcx) (.imm k)], reg (wordOf ty) .rcx)
            : Gen (Code × Operand)) s := by
  unfold rightOperand
  rw [widthOf_whole hty]
  show (if e.isConstant = true then _ else _ : Gen (Code × Operand)) s = _
  rw [if_pos hconst, heval]
  show (if lit.ty.isFloating = true then fail (.notImplemented .floatingArithmetic)
    else liftM (immediate lit ty) >>= fun k => _ : Gen (Code × Operand)) s = _
  rw [not_floating hwhole, if_neg Bool.false_ne_true]

/-- A right operand that is constant is its number wrapped to the type of the
operation: an immediate, or in rcx if it needs more than 32 bits. -/
theorem operates_constant (hconst : e.isConstant = true) (heval : e.evaluate = .ok lit)
    (hwhole : lit.ty.isInteger = true) (hty : ty.isInteger = true) (hn : lit.toInt = .ok n) :
    OperandAs env e ty (wrapTo ty n) := by
  intro s m
  have hrange := inRange_wrapTo hty (toInt_fitsLong hwhole hn)
  have hwrap := hrange.wrap hty
  rw [← bytes_wordOf hty] at hwrap
  have hoperand : rightOperand env e (eval env e) ty s
      = (if Integer.fitsInt (wrapTo ty n) then pure ([], .imm (wrapTo ty n))
        else pure ([.mov (reg .qword .rcx) (.imm (wrapTo ty n))], reg (wordOf ty) .rcx)
          : Gen (Code × Operand)) s := by
    rw [rightOperand_constant hconst heval hwhole hty, Lowering.immediate_of_toInt hn]
    rfl
  rw [hoperand]
  split
  · rename_i hfits
    refine ⟨[], _, m, rfl, exec_nil m, Moved.refl .rcx m, .imm _, ?_⟩
    rw [m.read_imm _ hfits, hwrap]
  · rename_i hfits
    have hlong : wordOf ty = .qword := by
      by_cases hq : wordOf ty = .qword
      · exact hq
      · exact absurd (fitsInt_of_inRange hty hq hrange) hfits
    refine ⟨_, _, _, rfl, exec_step (m.step_long .rcx (hrange.fitsLong hty)) [],
      Moved.putReg m .qword .rcx _, .rcx, ?_⟩
    rw [hlong] at hwrap ⊢
    show Machine.Machine.read _ _ (.reg .qword .rcx) = _
    rw [read_reg, putReg_self, low_put (Nat.le_refl _), hwrap]

-- ============================================================== refusing

/-- A literal whose text is no number of 64 bits stops code generation wherever
it is used. -/
theorem refuses_constant {error : EvalError} (hconst : e.isConstant = true)
    (heval : e.evaluate = .ok lit) (hwhole : lit.ty.isInteger = true) (hty : ty.isInteger = true)
    (herror : lit.toInt = .error error) : Refused env e ty (.eval error) := by
  have himm (target : Ty) : immediate lit target = .error (.eval error) := by
    unfold immediate
    rw [herror]
    rfl
  intro s place
  refine ⟨?_, ?_, ?_⟩
  · rw [storeValue_constant hconst heval]
    have hstore : storeLiteral place lit ty = .error (.eval error) := by
      unfold storeLiteral
      cases ty <;> try cases hty
      all_goals
        simp only [not_floating hwhole, Bool.false_eq_true, if_false]
        rw [himm]
        rfl
    rw [hstore]
    rfl
  · rw [evalTo_constant hconst]
    have hevaluated : evalConstant e s = .error (.eval error) := by
      rw [evalConstant_eq heval hwhole, himm]
      rfl
    show StateT.bind (evalConstant e) _ s = _
    unfold StateT.bind
    rw [hevaluated]
    rfl
  · rw [rightOperand_constant hconst heval hwhole hty, himm]
    rfl

-- ============================================================= constants

/-- A constant of whole numbers that the parser has built arrives as its folded
number wrapped to the type that it is used as, in whatever way it is used, or is
refused in all of them: where it has no number that 64 bits hold. -/
theorem constants_arrive {s t : ParserState} {whole e : Expr} {lit : NumberLiteral}
    (htokens : ∀ token ∈ s.tokens, ∃ source, token ∈ (tokenize source).1)
    (hparse : Parser.expression s = .ok whole t) (hpart : e ∈ whole.parts)
    (hconst : e.isConstant = true) (heval : e.evaluate = .ok lit)
    (hwhole : lit.ty.isInteger = true) (hnarrow : e.Narrow) (env : Env) {ty : Ty}
    (hty : ty.isInteger = true) :
    (∃ n, lit.toInt = .ok n ∧ Arrives env e ty (wrapTo ty n))
      ∨ ∃ error, lit.toInt = .error error ∧ Refused env e ty (.eval error) := by
  have hspelled : e.Spelled := fun l hl =>
    Parser.expression_spelled htokens hparse l (literals_parts hpart hl)
  cases hn : lit.toInt with
  | error error => exact Or.inr ⟨error, rfl, refuses_constant hconst heval hwhole hty hn⟩
  | ok n =>
      have hevaluated : EvaluatedAs env e ty (wrapTo ty (wrapTo lit.ty n)) :=
        evaluates_constant hspelled hconst heval hwhole hty hn
      rw [(evaluate_writable hspelled hconst heval hwhole hn).2 hnarrow] at hevaluated
      exact Or.inl ⟨n, rfl, stores_constant hconst heval hwhole hty hn, hevaluated,
        fun _ => operates_constant hconst heval hwhole hty hn⟩

/-- The expression that a text is parsed as. -/
def built (text : String) : Option Expr :=
  match Parser.expression (Parser.initial (tokenize text).1 (.empty false)) with
  | .ok e _ => some e
  | .error _ _ => none

/-- What a text is built to is what the parser reads. -/
theorem built_some {text : String} {e : Expr} (h : built text = some e) :
    ∃ t, Parser.expression (Parser.initial (tokenize text).1 (.empty false)) = .ok e t := by
  unfold built at h
  cases hparse : Parser.expression (Parser.initial (tokenize text).1 (.empty false)) with
  | ok found t =>
      rw [hparse] at h
      cases h
      exact ⟨t, rfl⟩
  | error stop t =>
      rw [hparse] at h
      cases h

/-- What a constant expression that a text is parsed as folds to: the literal
and its number. -/
def folding (text : String) : Option (Expr × NumberLiteral × Int) := do
  let e ← built text
  let lit ← e.evaluate.toOption
  let n ← lit.toInt.toOption
  if e.isConstant && lit.ty.isInteger then some (e, lit, n) else none

/-- What a text folds to is what its expression folds to. -/
theorem folding_some {text : String} {e : Expr} {lit : NumberLiteral} {n : Int}
    (h : folding text = some (e, lit, n)) :
    built text = some e ∧ e.isConstant = true ∧ e.evaluate = .ok lit ∧ lit.ty.isInteger = true
      ∧ lit.toInt = .ok n := by
  unfold folding at h
  obtain ⟨e', he, h⟩ := Option.bind_eq_some_iff.1 h
  obtain ⟨lit', hlit, h⟩ := Option.bind_eq_some_iff.1 h
  obtain ⟨n', hn, h⟩ := Option.bind_eq_some_iff.1 h
  split at h
  · rename_i hboth
    rw [Bool.and_eq_true] at hboth
    cases h
    exact ⟨he, hboth.1, toOption_some.1 hlit, hboth.2, toOption_some.1 hn⟩
  · cases h

/-- A sum that no int holds, of an int and a character. -/
def overflown : String := "(2147483647 + 'A') * 3"

theorem overflown_arrives :
    ∃ e lit, built overflown = some e ∧ e.isConstant = true ∧ e.evaluate = .ok lit
      ∧ lit.toInt = .ok 6442451136 ∧ ∀ env, Arrives env e .long 6442451136
        ∧ Arrives env e .int (-2147483456) ∧ Arrives env e .short 192 ∧ Arrives env e .bool 1 := by
  have h : (folding overflown).any
      (fun q => decide q.1.Narrow && decide (q.2.2 = 6442451136)) = true := by
    decide +kernel
  obtain ⟨⟨e, lit, n⟩, hfolding, hcheck⟩ := (Option.any_eq_true _ _).1 h
  rw [Bool.and_eq_true] at hcheck
  obtain ⟨hbuilt, hconst, heval, hwhole, hn⟩ := folding_some hfolding
  obtain rfl : n = 6442451136 := of_decide_eq_true hcheck.2
  obtain ⟨t, hparse⟩ := built_some hbuilt
  have harrives (env : Env) (ty : Ty) (hty : ty.isInteger = true) :
      Arrives env e ty (wrapTo ty 6442451136) := by
    rcases constants_arrive (fun token htoken => ⟨overflown, htoken⟩) hparse e.mem_parts_self
      hconst heval hwhole (of_decide_eq_true hcheck.1) env hty with ⟨k, hk, h⟩ | ⟨error, herror, -⟩
    · cases hk.symm.trans hn
      exact h
    · cases herror.symm.trans hn
  exact ⟨e, lit, hbuilt, hconst, heval, hn, fun env => ⟨harrives env .long rfl,
    harrives env .int rfl, harrives env .short rfl, harrives env .bool rfl⟩⟩

/-- A constant is evaluated as one number. -/
theorem EvaluatedAs.unique {k k' : Int} (h : EvaluatedAs env e ty k)
    (h' : EvaluatedAs env e ty k') : k = k' := by
  obtain ⟨code, m, hcode, hexec, -, hlow⟩ := h ⟨.empty, .empty⟩ ⟨fun _ => 0, none, fun _ => 0⟩
  obtain ⟨code', m', hcode', hexec', -, hlow'⟩ := h' ⟨.empty, .empty⟩ ⟨fun _ => 0, none, fun _ => 0⟩
  cases hcode.symm.trans hcode'
  cases hexec.symm.trans hexec'
  rw [← hlow, ← hlow']

/-- An integer that no int holds, as the source writes it. -/
def tooWide : String := "3000000000"

/-- Stored as a long it is what is written, but returned as one it is the
number that its low 32 bits stand for. -/
theorem tooWide_parts :
    ∃ e lit, built tooWide = some e ∧ e.isConstant = true ∧ e.evaluate = .ok lit
      ∧ lit.ty.isInteger = true ∧ lit.toInt = .ok 3000000000
      ∧ ∀ env, StoredAs env e .long 3000000000 ∧ OperandAs env e .long 3000000000
        ∧ EvaluatedAs env e .long (-1294967296) ∧ ¬ Arrives env e .long 3000000000 := by
  have h : (folding tooWide).any
      (fun q => decide (q.2.1.ty = .int) && decide (q.2.2 = 3000000000)) = true := by
    decide +kernel
  obtain ⟨⟨e, lit, n⟩, hfolding, hcheck⟩ := (Option.any_eq_true _ _).1 h
  rw [Bool.and_eq_true] at hcheck
  obtain ⟨hbuilt, hconst, heval, hwhole, hn⟩ := folding_some hfolding
  have hint : lit.ty = .int := of_decide_eq_true hcheck.1
  obtain rfl : n = 3000000000 := of_decide_eq_true hcheck.2
  obtain ⟨t, hparse⟩ := built_some hbuilt
  have hspelled := Parser.expression_spelled (fun token htoken => ⟨tooWide, htoken⟩) hparse
  refine ⟨e, lit, hbuilt, hconst, heval, hwhole, hn, fun env => ?_⟩
  have hevaluated : EvaluatedAs env e .long (wrapTo .long (wrapTo lit.ty 3000000000)) :=
    evaluates_constant hspelled hconst heval hwhole rfl hn
  rw [hint] at hevaluated
  refine ⟨stores_constant hconst heval hwhole rfl hn, operates_constant hconst heval hwhole rfl hn,
    hevaluated, fun harrives => ?_⟩
  have hsame : (3000000000 : Int) = -1294967296 := harrives.evaluated.unique hevaluated
  exact absurd hsame (by decide)

end Codegen

end MiniC
