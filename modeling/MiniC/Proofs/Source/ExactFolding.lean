/-
Folding whole numbers is exact.

# Trees and operands

A constant tree is what the parser puts together from whole-number literals, node by
node; `settle` works it out over the unbounded integers, where an operand that was
computed is a number and no text. An operand that was written stays the literal it
is, since folding a tree without operations gives back the literal with its own type
and text; only when it is used is it read.

# Folding is settling

Folding prints every result and reads it again, and comes to the same: the same
literal, or the same error of the same operation (`evaluate_settles`). Each step
rests on two facts, that a text is read as the number its digits stand for if 64 bits
hold it (`ofText?_eq`), and that a printed result is read back
(`ConstantOperand.Whole.number`). The order of errors is part of it: operands are
settled from left to right, then read from left to right, and only then combined.

What the reference needs of types is that promoting two whole-number types and then
widening by size is the rule that `resultType` states (`intType_promote`).
-/
import Mathlib.Algebra.Group.Int.Defs
import Mathlib.Algebra.Group.Nat.Defs
import MiniC.Proofs.Source.Value

namespace MiniC.Source

open Steps

-- ============================================================== decimals

/-- Whether 64 signed bits hold a number. -/
def Held (n : Int) : Prop := -2 ^ 63 ≤ n ∧ n < 2 ^ 63

instance (n : Int) : Decidable (Held n) := inferInstanceAs (Decidable (_ ∧ _))

theorem fitsLong_iff {n : Int} : Integer.fitsLong n = true ↔ Held n := by
  unfold Integer.fitsLong
  rw [Bool.and_eq_true, decide_eq_true_eq, decide_eq_true_eq]
  exact Iff.rfl

/-- A number is kept if 64 bits hold it. -/
theorem checked_eq (n : Int) : Integer.checked n = if Held n then some n else none := by
  unfold Integer.checked
  exact ite_congr (propext fitsLong_iff) (fun _ => rfl) fun _ => rfl

/-- The number that digits stand for, each counted by its place. -/
def placeValue? : List Char → Option Nat
  | [] => some 0
  | c :: cs =>
    if c.isDigit then (placeValue? cs).map (10 ^ cs.length * (c.toNat - '0'.toNat) + ·) else none

/-- The number that a run of digits stands for; there must be one at least. -/
def digits? (cs : List Char) : Option Nat := if cs = [] then none else placeValue? cs

/-- The number that a decimal stands for: digits with a sign in front of them
or none. -/
def decimal? : List Char → Option Int
  | '+' :: cs => (digits? cs).map Int.ofNat
  | '-' :: cs => (digits? cs).map fun n => -Int.ofNat n
  | cs => (digits? cs).map Int.ofNat

theorem ofDigits_cons (c : Char) (cs : List Char) :
    Integer.ofDigits (c :: cs)
      = 10 ^ cs.length * (c.toNat - '0'.toNat) + Integer.ofDigits cs := by
  unfold Integer.ofDigits
  rw [ofDigits_eq, ofDigits_eq, Nat.ofDigitChars_cons, Nat.ofDigitChars_eq_ofDigitChars_zero,
    Nat.mul_zero, Nat.zero_add]

/-- Place by place or digit by digit, a run of digits stands for the same number. -/
theorem placeValue?_eq (cs : List Char) :
    placeValue? cs = if cs.all Char.isDigit then some (Integer.ofDigits cs) else none := by
  induction cs with
  | nil => rfl
  | cons c cs ih =>
      unfold placeValue?
      rw [List.all_cons, ih, ofDigits_cons]
      cases c.isDigit <;> cases cs.all Char.isDigit <;> rfl

/-- Digits are read as the number they stand for. -/
theorem natOfText?_eq (cs : List Char) : Integer.natOfText? cs = digits? cs := by
  unfold Integer.natOfText? digits?
  rw [placeValue?_eq]
  cases cs with
  | nil => rfl
  | cons c cs => cases (c :: cs).all Char.isDigit <;> rfl

/-- A text is read as the number it stands for, if 64 bits hold that. -/
theorem ofText?_eq (text : String) :
    Integer.ofText? text
      = (decimal? text.toList).bind fun n => if Held n then some n else none := by
  have hread (cs : List Char) (sign : Nat → Int) :
      ((Integer.natOfText? cs).bind fun n => Integer.checked (sign n))
        = ((digits? cs).map sign).bind fun n => if Held n then some n else none := by
    rw [natOfText?_eq, Option.bind_map]
    exact congrArg _ (funext fun n => checked_eq _)
  unfold Integer.ofText?
  fun_cases Integer.splitSign text.toList with
  | case1 cs => exact hread cs Int.ofNat
  | case2 cs => exact hread cs fun n => -Int.ofNat n
  | case3 _ hplus hminus =>
      rw [decimal?]
      · exact hread _ Int.ofNat
      · exact hplus
      · exact hminus

-- ================================================================= trees

/-- A binary expression over whole-number literals, as it is put together. -/
inductive ConstantTree where
  | literal (lit : NumberLiteral) (whole : lit.ty.isInteger = true)
  | operation (op : BinaryOp) (lhs rhs : ConstantTree) (pos : Position)

namespace ConstantTree

/-- The expression, each node made from its operands. -/
def expr : ConstantTree → Expr
  | .literal lit _ => .number lit
  | .operation op lhs rhs pos => .combine op lhs.expr rhs.expr pos

end ConstantTree

-- ============================================================== operands

/-- What an operand comes to: a literal that is still to be read, or a number
that was computed. -/
inductive ConstantOperand where
  | written (lit : NumberLiteral)
  | computed (ty : Ty) (n : Int) (pos : Position)

namespace ConstantOperand

/-- The type of an operand. -/
def ty : ConstantOperand → Ty
  | .written lit => lit.ty
  | .computed ty _ _ => ty

/-- The number of an operand; a literal may have none, or one that 64 bits do
not hold. -/
def read : ConstantOperand → Except EvalError Int
  | .written lit =>
    match decimal? lit.text.toList with
    | some n => if Held n then .ok n else .error (.malformed lit.text)
    | none => .error (.malformed lit.text)
  | .computed _ n _ => .ok n

/-- The literal of an operand; what was computed is written in decimal. -/
def literal : ConstantOperand → NumberLiteral
  | .written lit => lit
  | .computed ty n pos => ⟨ty, toString n, pos⟩

end ConstantOperand

/-- The result of an operation on unbounded integers; a quotient is cut off
toward zero. -/
def exactResult : Arith → Int → Int → Int
  | .add, a, b => a + b
  | .sub, a, b => a - b
  | .mul, a, b => a * b
  | .div, a, b => a.tdiv b

/-- Whether two numbers compare so. -/
def Compares : Comparison → Int → Int → Prop
  | .lt, a, b => a < b
  | .gt, a, b => b < a
  | .le, a, b => a ≤ b
  | .ge, a, b => b ≤ a
  | .eq, a, b => a = b
  | .ne, a, b => a ≠ b

instance (op : Comparison) (a b : Int) : Decidable (Compares op a b) := by
  cases op <;> unfold Compares <;> infer_instance

/-- The type of a result: long if an operand is, or if 32 signed bits do not
hold the result. -/
def resultType (a b : Ty) (n : Int) : Ty :=
  if a = .long ∨ b = .long ∨ ¬ (-2 ^ 31 ≤ n ∧ n < 2 ^ 31) then .long else .int

/-- What an operation on operands with the given numbers comes to: an error if
it divides by zero or 64 bits do not hold its result. -/
def combined (op : BinaryOp) (a b : ConstantOperand) (pos : Position) (m n : Int) :
    Except EvalError ConstantOperand :=
  match op with
  | .arith op =>
    if op = .div ∧ n = 0 then .error .divisionByZero
    else if Held (exactResult op m n) then
      .ok (.computed (resultType a.ty b.ty (exactResult op m n)) (exactResult op m n) pos)
    else .error .overflow
  | .compare op => .ok (.computed .bool (if Compares op m n then 1 else 0) pos)
  | .assign => .error .notConstant
  | .compound _ => .error .notConstant

/-- Works a tree out: operands first, left before right, then their numbers,
left before right, then the operation. -/
def ConstantTree.settle : ConstantTree → Except EvalError ConstantOperand
  | .literal lit _ => .ok (.written lit)
  | .operation op lhs rhs pos => do
    let a ← lhs.settle
    let b ← rhs.settle
    let m ← a.read
    let n ← b.read
    combined op a b pos m n

-- ============================================================== one step

/-- Folding an operation is exact where its result is held. -/
theorem foldInt_eq (op : Arith) (a b : Int) :
    op.foldInt a b
      = if op = .div ∧ b = 0 then .error .divisionByZero
        else if Held (exactResult op a b) then .ok (exactResult op a b) else .error .overflow := by
  have hchecked (n : Int) :
      checkedInt n = if Held n then .ok n else .error .overflow :=
    ite_congr (propext fitsLong_iff) (fun _ => rfl) fun _ => rfl
  cases op with
  | add => exact hchecked _
  | sub => exact hchecked _
  | mul => exact hchecked _
  | div =>
      show (if b = 0 then _ else checkedInt (a.tdiv b)) = _
      rw [hchecked]
      exact ite_congr (propext (and_iff_right rfl).symm) (fun _ => rfl) fun _ => rfl

theorem holdsInt_eq (op : Comparison) (a b : Int) : op.holdsInt a b = decide (Compares op a b) := by
  cases op with
  | lt => rfl
  | gt => rfl
  | le => rfl
  | ge => rfl
  | eq => rfl
  | ne => exact (decide_not).symm

/-- The type of a result is long if an operand's is, or if int does not hold it. -/
theorem intType_promote {a b : Ty} (ha : a.isInteger = true) (hb : b.isInteger = true) (n : Int) :
    NumberLiteral.intType n (Ty.promote a b) = resultType a b n := by
  have hpromote : Ty.promote a b = .long ↔ a = .long ∨ b = .long := by
    cases a <;> cases ha <;> cases b <;> cases hb <;> decide
  have hfits : Integer.fitsInt n = true ↔ -2 ^ 31 ≤ n ∧ n < 2 ^ 31 := by
    unfold Integer.fitsInt
    rw [Bool.and_eq_true, decide_eq_true_eq, decide_eq_true_eq]
    exact Iff.rfl
  unfold NumberLiteral.intType resultType
  refine ite_congr (propext ?_) (fun _ => rfl) fun _ => rfl
  rw [Bool.or_eq_true, decide_eq_true_eq, hpromote, Bool.not_eq_true', ← Bool.not_eq_true, hfits,
    or_assoc]

/-- Whether an operand is a whole number, and a computed one fits in 64 bits. -/
def ConstantOperand.Whole : ConstantOperand → Prop
  | .written lit => lit.ty.isInteger = true
  | .computed ty n _ => ty.isInteger = true ∧ Held n

theorem ConstantOperand.Whole.isInteger {o : ConstantOperand} (h : o.Whole) :
    o.ty.isInteger = true := by
  cases o with
  | written lit => exact h
  | computed ty n pos => exact h.1

/-- The literal of an operand denotes the operand's number. -/
theorem ConstantOperand.Whole.number {o : ConstantOperand} (h : o.Whole) :
    o.literal.number = o.read.map Number.int := by
  have hread {lit : NumberLiteral} (hty : lit.ty.isInteger = true) : lit.number
      = match Integer.ofText? lit.text with
        | some n => .ok (.int n)
        | none => .error (.malformed lit.text) := by
    have hfloat : lit.ty.isFloating = false := by
      cases hl : lit.ty <;> rw [hl] at hty <;> first | rfl | cases hty
    unfold NumberLiteral.number
    rw [hfloat]
    rfl
  cases o with
  | written lit =>
      show lit.number = _
      rw [hread h, ofText?_eq]
      show _ = Except.map Number.int (match decimal? lit.text.toList with | some n => _ | none => _)
      cases decimal? lit.text.toList with
      | none => rfl
      | some n =>
          rw [Option.bind_some]
          dsimp only
          by_cases hn : Held n
          · rw [if_pos hn, if_pos hn]
            rfl
          · rw [if_neg hn, if_neg hn]
            rfl
  | computed ty n pos =>
      rw [hread h.isInteger]
      show (match Integer.ofText? (toString n) with | some n => _ | none => _) = _
      rw [ofText?_toString (fitsLong_iff.2 h.2)]
      rfl

theorem toString_truth (b : Prop) [Decidable b] :
    (if decide b = true then "1" else "0") = toString (if b then (1 : Int) else 0) := by
  by_cases h : b
  · rw [if_pos (decide_eq_true h), if_pos h]
    rfl
  · rw [if_neg (by rwa [decide_eq_true_eq]), if_neg h]
    rfl

/-- An operation on what was written or computed is folded to what it comes
to. -/
theorem fold_literals {a b : ConstantOperand} (ha : a.Whole) (hb : b.Whole) (op : BinaryOp)
    (pos : Position) :
    NumberLiteral.fold op a.literal b.literal pos
      = (do
          let m ← a.read
          let n ← b.read
          combined op a b pos m n).map ConstantOperand.literal := by
  have hty (o : ConstantOperand) : o.literal.ty = o.ty := by cases o <;> rfl
  have hwhole : (Ty.promote a.ty b.ty).isFloating = false := by
    obtain h | h := promote_whole ha.isInteger hb.isInteger <;> rw [h] <;> rfl
  unfold NumberLiteral.fold
  rw [hty, hty, ha.number, hb.number]
  cases a.read with
  | error e => rfl
  | ok m =>
      cases b.read with
      | error e => rfl
      | ok n =>
          show (if (Ty.promote a.ty b.ty).isFloating then _ else _)
            = (combined op a b pos m n).map ConstantOperand.literal
          rw [hwhole, if_neg Bool.false_ne_true]
          cases op with
          | assign => rfl
          | compound op => rfl
          | compare op =>
              show Except.ok (NumberLiteral.boolean (op.holdsInt m n) pos) = _
              unfold NumberLiteral.boolean
              rw [holdsInt_eq, toString_truth]
              rfl
          | arith op =>
              show (op.foldInt m n >>= fun k =>
                pure (NumberLiteral.ofInt k (Ty.promote a.ty b.ty) pos)) = _
              unfold combined NumberLiteral.ofInt
              rw [foldInt_eq]
              dsimp only
              split
              · rfl
              split
              · rw [← intType_promote ha.isInteger hb.isInteger]
                rfl
              · rfl

-- ============================================================ whole trees

theorem combined_whole {op : BinaryOp} {a b o : ConstantOperand} {pos : Position} {m n : Int}
    (h : combined op a b pos m n = .ok o) : o.Whole := by
  have htype (a b : Ty) (n : Int) : (resultType a b n).isInteger = true := by
    unfold resultType
    split <;> rfl
  unfold combined at h
  split at h
  · split at h
    · cases h
    split at h
    · rename_i hheld
      cases h
      exact ⟨htype _ _ _, hheld⟩
    · cases h
  · cases h
    refine ⟨rfl, ?_⟩
    split <;> decide
  · cases h
  · cases h

/-- What a tree settles to is a whole number of a whole-number type. -/
theorem ConstantTree.settle_whole :
    ∀ {t : ConstantTree} {o : ConstantOperand}, t.settle = .ok o → o.Whole
  | .literal lit whole, o, h => by
      cases h
      exact whole
  | .operation op lhs rhs pos, o, h => by
      unfold settle at h
      obtain ⟨a, -, h⟩ := except_bind_ok.1 h
      obtain ⟨b, -, h⟩ := except_bind_ok.1 h
      obtain ⟨m, -, h⟩ := except_bind_ok.1 h
      obtain ⟨n, -, h⟩ := except_bind_ok.1 h
      exact combined_whole h

theorem ConstantOperand.read_folds (o : ConstantOperand) : o.read ≠ .error .notConstant := by
  cases o with
  | computed ty n pos =>
      unfold read
      exact nofun
  | written lit =>
      unfold read
      dsimp only
      split
      · split <;> exact nofun
      · exact nofun

/-- An operation on constants never denies that they are. -/
theorem combined_folds {op : BinaryOp} (h : op.isAssignment = false) (a b : ConstantOperand)
    (pos : Position) (m n : Int) : combined op a b pos m n ≠ .error .notConstant := by
  unfold combined
  cases op with
  | assign => cases h
  | compound op => cases h
  | compare op => exact nofun
  | arith op =>
      dsimp only
      split
      · exact nofun
      split <;> exact nofun

theorem bind_folds {α β : Type} {x : Except EvalError α} {f : α → Except EvalError β}
    (hx : x ≠ .error .notConstant) (hf : ∀ a, f a ≠ .error .notConstant) :
    x >>= f ≠ .error .notConstant := by
  cases x with
  | error e => exact fun h => hx (congrArg _ (Except.error.inj h))
  | ok a => exact hf a

/-- What is marked constant folds, or fails for a reason in its numbers. -/
theorem ConstantTree.settle_folds : ∀ {t : ConstantTree}, t.expr.isConstant = true →
    t.settle ≠ .error .notConstant
  | .literal _ _, _ => fun h => by cases h
  | .operation _ _ _ _, h => by
      obtain ⟨hop, hlhs, hrhs⟩ := foldable_operands h
      unfold settle
      exact bind_folds (settle_folds hlhs) fun a => bind_folds (settle_folds hrhs) fun b =>
        bind_folds a.read_folds fun m => bind_folds b.read_folds fun n =>
          combined_folds hop a b _ m n

/-- A tree is folded to what it settles to. -/
theorem ConstantTree.evaluate_eq : ∀ {t : ConstantTree}, t.expr.isConstant = true →
    t.expr.evaluate = t.settle.map ConstantOperand.literal
  | .literal _ _, _ => rfl
  | .operation op lhs rhs pos, h => by
      obtain ⟨-, hlhs, hrhs⟩ := foldable_operands h
      have hconstant : Expr.foldable op lhs.expr rhs.expr = true := h
      unfold expr Expr.combine Expr.evaluate
      rw [if_pos hconstant, evaluate_eq hlhs, evaluate_eq hrhs, settle]
      cases ha : lhs.settle with
      | error e => rfl
      | ok a =>
          cases hb : rhs.settle with
          | error e => rfl
          | ok b => exact fold_literals (settle_whole ha) (settle_whole hb) op pos

/-- Folding a constant tree comes to what the tree comes to over the unbounded
integers: the literal of the exact result, in decimal and of the type that holds
it, or the first error. That the tree is not constant is never one. -/
theorem evaluate_settles (t : ConstantTree) (h : t.expr.isConstant = true) :
    t.expr.evaluate = t.settle.map ConstantOperand.literal
      ∧ t.expr.evaluate ≠ .error .notConstant := by
  refine ⟨t.evaluate_eq h, ?_⟩
  rw [t.evaluate_eq h]
  cases ht : t.settle with
  | ok o => exact nofun
  | error e =>
      intro hnot
      refine t.settle_folds h ?_
      rw [ht, Except.error.inj hnot]

/-- The least number of 64 bits, which is written as a difference, over a
divisor. -/
def leastOver (divisor : String) : ConstantTree :=
  .operation (.arith .div)
    (.operation (.arith .sub) (.literal ⟨.long, "-9223372036854775807", .start⟩ rfl)
      (.literal ⟨.bool, "1", .start⟩ rfl) .start)
    (.literal ⟨.int, divisor, .start⟩ rfl) .start

/-- The least number of 64 bits has no quotient by minus one; over one it stays
what it is, and over what is no number it is not divided. -/
theorem leastOver_settles :
    (leastOver "-1").expr.isConstant = true
      ∧ (leastOver "-1").expr.evaluate = .error .overflow
      ∧ (leastOver "+01").expr.evaluate = .ok ⟨.long, "-9223372036854775808", .start⟩
      ∧ (leastOver "0x0").expr.evaluate = .error (.malformed "0x0") :=
  ⟨rfl, (evaluate_settles (leastOver "-1") rfl).1.trans rfl,
    (evaluate_settles (leastOver "+01") rfl).1.trans rfl,
    (evaluate_settles (leastOver "0x0") rfl).1.trans rfl⟩

end MiniC.Source
