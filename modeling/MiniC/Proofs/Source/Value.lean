/-
The values of the whole-number types: their ranges, the conversions between
the types, arithmetic that wraps around, and the values of literals.

# Numbers

A number is kept as the unbounded integer it stands for, within the range of its type
(`InRange`); a truth value is 0 or 1. Arithmetic is done in int or long and wraps around
there, and only a division by zero or one without a result has none. The two back ends
differ in one conversion, from char to short, where the assembly fills with zeros and
the intermediate representation with the sign: `fill` says which.

# Literals

A literal as a program writes it is in the range of its type, and so is what folding
makes of such literals (`evaluate_fits`): folding gives a number that does not fit in
an int the type long. A type is written with less than its range holds where the
language has no words for the rest: a char that is written down is not negative, and no
literal is of the type short (`Writable`).

# Texts

Folding passes numbers on as text. A number that is printed is read back as itself if 64
bits hold it (`ofText?_of_digits`), because the digits that printing makes are what
reading adds up.

Consumed by the evaluation of expressions.
-/
import MiniC.Expr
import MiniC.Proofs.Steps

namespace MiniC.Source

open Steps

-- =============================================================== ranges

theorem wrap_one (n : Int) :
    Integer.wrap 1 n = if n % 256 < 128 then n % 256 else n % 256 - 256 := rfl

theorem wrap_two (n : Int) :
    Integer.wrap 2 n = if n % 65536 < 32768 then n % 65536 else n % 65536 - 65536 := rfl

theorem wrap_four (n : Int) :
    Integer.wrap 4 n
      = if n % 4294967296 < 2147483648 then n % 4294967296 else n % 4294967296 - 4294967296 :=
  rfl

theorem wrap_eight (n : Int) :
    Integer.wrap 8 n
      = if n % 18446744073709551616 < 9223372036854775808 then n % 18446744073709551616
        else n % 18446744073709551616 - 18446744073709551616 :=
  rfl

/-- Whether a number is a value of a type. -/
def InRange : Ty → Int → Prop
  | .bool, n => n = 0 ∨ n = 1
  | ty, n => Integer.wrap ty.size n = n

instance (ty : Ty) (n : Int) : Decidable (InRange ty n) :=
  match ty with
  | .bool => inferInstanceAs (Decidable (n = 0 ∨ n = 1))
  | .void | .char | .short | .int | .long | .float | .double | .string | .named _ =>
    inferInstanceAs (Decidable (Integer.wrap _ n = n))

/-- Wrapping twice is wrapping once. -/
theorem wrap_wrap (bytes : Nat) (n : Int) :
    Integer.wrap bytes (Integer.wrap bytes n) = Integer.wrap bytes n :=
  Int.bmod_bmod

/-- Wrapping to fewer bytes afterwards is wrapping to these. -/
theorem wrap_narrower {bytes bytes' : Nat} (h : bytes' ≤ bytes) (n : Int) :
    Integer.wrap bytes' (Integer.wrap bytes n) = Integer.wrap bytes' n :=
  Int.bmod_bmod_of_dvd (Nat.pow_dvd_pow 2 (Nat.mul_le_mul_left 8 h))

/-- Of two values of a type, the one a condition chooses. -/
theorem InRange.ite {p : Prop} [Decidable p] {ty : Ty} {a b : Int} (ha : InRange ty a)
    (hb : InRange ty b) : InRange ty (if p then a else b) := by
  split
  · exact ha
  · exact hb

/-- A value of a type is a number of its bytes. -/
theorem InRange.wrap {ty : Ty} {n : Int} (h : InRange ty n) (hty : ty.isInteger = true) :
    Integer.wrap ty.size n = n := by
  cases ty <;> try cases hty
  case bool => rcases h with rfl | rfl <;> rfl
  all_goals exact h

-- ========================================================== conversions

/-- A value of one type as a value of another; from char to short it fills
with zeros if told so. -/
def convert (fill : Bool) (source target : Ty) (n : Int) : Int :=
  match target with
  | .bool => if n = 0 then 0 else 1
  | .short => if fill && source = .char then n % 256 else Integer.wrap 2 n
  | ty => Integer.wrap ty.size n

/-- A converted value is a value of the type it was converted to. -/
theorem convert_inRange (fill : Bool) (source target : Ty) (n : Int) :
    InRange target (convert fill source target n) := by
  cases target
  case bool =>
    show InRange .bool (if n = 0 then 0 else 1)
    exact .ite (.inl rfl) (.inr rfl)
  case short =>
    show Integer.wrap 2 (if fill && source = .char then n % 256 else Integer.wrap 2 n)
      = if fill && source = .char then n % 256 else Integer.wrap 2 n
    split
    · rw [wrap_two]
      split <;> omega
    · exact wrap_wrap 2 n
  all_goals exact wrap_wrap _ n

/-- A value is not changed by conversion to its own type. -/
theorem convert_self {fill : Bool} {ty : Ty} {n : Int} (h : InRange ty n) :
    convert fill ty ty n = n := by
  cases ty
  case bool =>
    unfold convert
    rcases h with rfl | rfl <;> rfl
  case short =>
    show (if fill && decide (Ty.short = Ty.char) then n % 256 else Integer.wrap 2 n) = n
    rw [if_neg (by cases fill <;> decide)]
    exact h
  all_goals exact h

-- =========================================================== arithmetic

/-- What keeps an execution from going on: a division without a result,
something that has no meaning here, or a loop that is not done after the
rounds it was given. -/
inductive Stop where
  | divide
  | stuck
  | unfinished
deriving DecidableEq, Repr

/-- An operation in a type: a result out of range wraps around, but not that
of a division, which goes toward zero. -/
def arith (op : Arith) (ty : Ty) (a b : Int) : Except Stop Int :=
  match op with
  | .add => .ok (Integer.wrap ty.size (a + b))
  | .sub => .ok (Integer.wrap ty.size (a - b))
  | .mul => .ok (Integer.wrap ty.size (a * b))
  | .div =>
    if b = 0 then .error .divide
    else if Integer.wrap ty.size (a.tdiv b) = a.tdiv b then .ok (a.tdiv b)
    else .error .divide

/-- A typed value. -/
abbrev Value : Type := Ty × Int

/-- An operation on typed values, in the type in which they meet. -/
def operate (fill : Bool) (op : Arith) (a b : Value) : Except Stop Value := do
  let ty := Ty.promote a.1 b.1
  let n ← arith op ty (convert fill a.1 ty a.2) (convert fill b.1 ty b.2)
  return (ty, n)

/-- An operation is done in the type in which its operands meet. -/
theorem operate_eq (fill : Bool) (op : Arith) (a b : Value) :
    operate fill op a b
      = (fun n => (Ty.promote a.1 b.1, n)) <$> arith op (Ty.promote a.1 b.1)
        (convert fill a.1 (Ty.promote a.1 b.1) a.2)
        (convert fill b.1 (Ty.promote a.1 b.1) b.2) :=
  rfl

/-- A truth value. -/
def truth (b : Bool) : Value := (.bool, if b then 1 else 0)

/-- A truth value is of its type. -/
theorem truth_inRange (b : Bool) : InRange .bool (truth b).2 :=
  InRange.ite (Or.inr rfl) (Or.inl rfl)

/-- A comparison of typed values, in the type in which they meet. -/
def compare (fill : Bool) (op : Comparison) (a b : Value) : Value :=
  let ty := Ty.promote a.1 b.1
  truth (op.holdsInt (convert fill a.1 ty a.2) (convert fill b.1 ty b.2))

/-- Whole numbers meet in int or long. -/
theorem promote_whole {a b : Ty} (ha : a.isInteger = true) (hb : b.isInteger = true) :
    Ty.promote a b = .int ∨ Ty.promote a b = .long := by
  cases a <;> cases b <;> simp_all [Ty.isInteger, Ty.promote]

/-- A value is not changed by promotion. -/
theorem convert_promote (fill : Bool) {a b : Ty} (ha : a.isInteger = true)
    (hb : b.isInteger = true) {n : Int} (hn : InRange a n) :
    convert fill a (Ty.promote a b) n = n := by
  have hwide : ∀ {bytes : Nat}, (a ≠ .long ∧ bytes = 4) ∨ bytes = 8 →
      Integer.wrap bytes n = n := by
    rintro bytes hbytes
    cases a <;> try cases ha
    case bool => rcases hn with rfl | rfl <;> rcases hbytes with ⟨-, rfl⟩ | rfl <;> rfl
    case char =>
      have hn : Integer.wrap 1 n = n := hn
      rw [wrap_one] at hn
      rcases hbytes with ⟨-, rfl⟩ | rfl
      · rw [wrap_four]
        omega
      · rw [wrap_eight]
        omega
    case short =>
      have hn : Integer.wrap 2 n = n := hn
      rw [wrap_two] at hn
      rcases hbytes with ⟨-, rfl⟩ | rfl
      · rw [wrap_four]
        omega
      · rw [wrap_eight]
        omega
    case int =>
      have hn : Integer.wrap 4 n = n := hn
      rcases hbytes with ⟨-, rfl⟩ | rfl
      · exact hn
      · rw [wrap_four] at hn
        rw [wrap_eight]
        omega
    case long =>
      rcases hbytes with ⟨hlong, -⟩ | rfl
      · exact absurd rfl hlong
      · exact hn
  rcases promote_whole ha hb with hty | hty
  · have hlong : a ≠ .long := by
      rintro rfl
      exact absurd hty (by cases b <;> first | decide | cases hb)
    rw [hty]
    exact hwide (Or.inl ⟨hlong, rfl⟩)
  · rw [hty]
    exact hwide (Or.inr rfl)

/-- Every value is a number of 64 bits. -/
theorem InRange.fitsLong {ty : Ty} {n : Int} (h : InRange ty n) (hty : ty.isInteger = true) :
    Integer.fitsLong n = true := by
  have hlong : Ty.promote ty .long = .long := by cases ty <;> first | rfl | cases hty
  have hwrap := convert_promote false hty (b := .long) rfl h
  rw [hlong] at hwrap
  have hwrap : Integer.wrap 8 n = n := hwrap
  rw [wrap_eight] at hwrap
  unfold Integer.fitsLong
  simp only [Bool.and_eq_true, decide_eq_true_eq]
  split at hwrap <;> omega

/-- Arithmetic stops at a division only. -/
theorem arith_stops {op : Arith} {ty : Ty} {a b : Int} {stop : Stop}
    (h : arith op ty a b = .error stop) : stop = .divide := by
  unfold arith at h
  cases op with
  | div =>
      dsimp only at h
      split at h
      · cases h
        rfl
      · split at h <;> cases h
        rfl
  | _ => cases h

/-- The result of an operation is in the range of its type. -/
theorem arith_inRange {op : Arith} {ty : Ty} (hty : ty = .int ∨ ty = .long) {a b n : Int}
    (h : arith op ty a b = .ok n) : InRange ty n := by
  have hrange : InRange ty n ↔ Integer.wrap ty.size n = n := by
    rcases hty with rfl | rfl <;> exact Iff.rfl
  rw [hrange]
  unfold arith at h
  split at h
  · cases h
    exact wrap_wrap _ _
  · cases h
    exact wrap_wrap _ _
  · cases h
    exact wrap_wrap _ _
  · split at h
    · cases h
    · split at h
      · rename_i hfits
        cases h
        exact hfits
      · cases h

-- ============================================================= literals

/-- The numbers that literals of a type are written with. -/
def Writable : Ty → Int → Prop
  | .bool, n => n = 0 ∨ n = 1
  | .char, n => 0 ≤ n ∧ n < 128
  | .int, n => Integer.fitsInt n = true
  | .long, n => Integer.fitsLong n = true
  | _, _ => False

/-- Whether a literal is a whole number that its type can be written with. -/
def Fits (lit : NumberLiteral) : Prop := ∃ n, lit.toInt = .ok n ∧ Writable lit.ty n

instance (ty : Ty) (n : Int) : Decidable (Writable ty n) :=
  match ty with
  | .bool => inferInstanceAs (Decidable (n = 0 ∨ n = 1))
  | .char => inferInstanceAs (Decidable (0 ≤ n ∧ n < 128))
  | .int => inferInstanceAs (Decidable (Integer.fitsInt n = true))
  | .long => inferInstanceAs (Decidable (Integer.fitsLong n = true))
  | .void | .short | .float | .double | .string | .named _ => .isFalse id

instance (lit : NumberLiteral) : Decidable (Fits lit) :=
  match h : lit.toInt with
  | .error _ => .isFalse fun ⟨_, hn, _⟩ => by rw [h] at hn; cases hn
  | .ok n => decidable_of_iff (Writable lit.ty n)
      ⟨fun hw => ⟨n, h, hw⟩, fun ⟨k, hk, hw⟩ => by rw [h] at hk; cases hk; exact hw⟩

/-- What is written in range is of a whole-number type. -/
theorem Writable.isInteger {ty : Ty} {n : Int} (h : Writable ty n) : ty.isInteger = true := by
  cases ty <;> first | rfl | exact h.elim

/-- A written number is a value of its type. -/
theorem Writable.inRange {ty : Ty} {n : Int} (h : Writable ty n) : InRange ty n := by
  cases ty
  case bool => exact h
  case char =>
    obtain ⟨hlo, hhi⟩ := h
    show Integer.wrap 1 n = n
    rw [wrap_one]
    split <;> omega
  case int =>
    have h : Integer.fitsInt n = true := h
    unfold Integer.fitsInt at h
    simp only [Bool.and_eq_true, decide_eq_true_eq] at h
    show Integer.wrap 4 n = n
    rw [wrap_four]
    split <;> omega
  case long =>
    have h : Integer.fitsLong n = true := h
    unfold Integer.fitsLong at h
    simp only [Bool.and_eq_true, decide_eq_true_eq] at h
    show Integer.wrap 8 n = n
    rw [wrap_eight]
    split <;> omega
  all_goals exact h.elim

-- ===================================================== numbers and texts

theorem ofDigits_eq (cs : List Char) (init : Nat) :
    cs.foldl (fun n c => 10 * n + (c.toNat - '0'.toNat)) init = Nat.ofDigitChars 10 cs init := by
  induction cs generalizing init with
  | nil => rw [Nat.ofDigitChars_nil]; rfl
  | cons c cs ih => rw [List.foldl_cons, ih, Nat.ofDigitChars_cons]

/-- Digits are read as the number they write. -/
theorem natOfText?_digits {cs : List Char} (hne : cs ≠ []) (hcs : ∀ c ∈ cs, c.isDigit = true) :
    Integer.natOfText? cs = some (Nat.ofDigitChars 10 cs 0) := by
  unfold Integer.natOfText?
  rw [List.isEmpty_eq_false_iff.2 hne, List.all_eq_true.2 hcs]
  show some (Integer.ofDigits cs) = _
  unfold Integer.ofDigits
  rw [ofDigits_eq]

/-- What starts with no sign is read without one. -/
theorem splitSign_unsigned {cs : List Char} (h : ∀ c ∈ cs.head?, c ≠ '+' ∧ c ≠ '-') :
    Integer.splitSign cs = (false, cs) := by
  unfold Integer.splitSign
  split
  · exact absurd rfl (h '+' rfl).1
  · exact absurd rfl (h '-' rfl).2
  · rfl

theorem isDigit_unsigned {c : Char} (h : c.isDigit = true) : c ≠ '+' ∧ c ≠ '-' := by
  constructor
  all_goals
    rintro rfl
    exact absurd h (by decide)

/-- The digits of a number are read as the number. -/
theorem natOfText?_toDigits (n : Nat) : Integer.natOfText? (Nat.toDigits 10 n) = some n := by
  rw [natOfText?_digits Nat.toDigits_ne_nil fun c hc =>
    Nat.isDigit_of_mem_toDigits (by decide) (by decide) hc, Nat.ofDigitChars_ten_toDigits]

theorem splitSign_toDigits (n : Nat) :
    Integer.splitSign (Nat.toDigits 10 n) = (false, Nat.toDigits 10 n) :=
  splitSign_unsigned fun _ hc => isDigit_unsigned
    (Nat.isDigit_of_mem_toDigits (by decide) (by decide) (List.mem_of_mem_head? hc))

theorem checked_of_fits {n : Int} (h : Integer.fitsLong n = true) :
    Integer.checked n = some n := by
  unfold Integer.checked
  rw [if_pos h]

/-- A number that is printed is read back, if 64 bits hold it. -/
theorem ofText?_of_digits {text : String} {negative : Bool} {m : Nat}
    (h : Integer.splitSign text.toList = (negative, Nat.toDigits 10 m)) :
    Integer.ofText? text = Integer.checked (if negative then -(m : Int) else m) := by
  unfold Integer.ofText?
  rw [h]
  show (Integer.natOfText? (Nat.toDigits 10 m)).bind _ = _
  rw [natOfText?_toDigits]
  rfl

/-- A number that fits in 64 bits is read back from its text. -/
theorem ofText?_toString {n : Int} (h : Integer.fitsLong n = true) :
    Integer.ofText? (toString n) = some n := by
  cases n with
  | ofNat m =>
      have htext : (toString (Int.ofNat m)).toList = Nat.toDigits 10 m := Nat.toList_repr
      have hsplit : Integer.splitSign (toString (Int.ofNat m)).toList
          = (false, Nat.toDigits 10 m) := by
        rw [htext]
        exact splitSign_toDigits m
      rw [ofText?_of_digits hsplit]
      exact checked_of_fits h
  | negSucc m =>
      have htext : (toString (Int.negSucc m)).toList = '-' :: Nat.toDigits 10 (m + 1) := by
        show ("-" ++ Nat.repr (m + 1)).toList = _
        rw [String.toList_append, Nat.toList_repr]
        rfl
      have hsplit : Integer.splitSign (toString (Int.negSucc m)).toList
          = (true, Nat.toDigits 10 (m + 1)) := by
        rw [htext]
        rfl
      rw [ofText?_of_digits hsplit]
      exact checked_of_fits h

-- ============================================================== folding

/-- A literal is worth the number that its text is. -/
theorem toInt_of_text {lit : NumberLiteral} {n : Int} (hty : lit.ty.isFloating = false)
    (h : Integer.ofText? lit.text = some n) : lit.toInt = .ok n := by
  unfold NumberLiteral.toInt NumberLiteral.number
  rw [hty, if_neg Bool.false_ne_true, h]
  rfl

theorem text_of_toInt {lit : NumberLiteral} {n : Int} (hty : lit.ty.isFloating = false)
    (h : lit.toInt = .ok n) : Integer.ofText? lit.text = some n := by
  unfold NumberLiteral.toInt NumberLiteral.number at h
  rw [hty, if_neg Bool.false_ne_true] at h
  cases htext : Integer.ofText? lit.text with
  | none =>
      rw [htext] at h
      cases h
  | some m =>
      rw [htext] at h
      cases h
      rfl

/-- A literal that is worth a number is a whole number to folding. -/
theorem number_of_toInt {lit : NumberLiteral} {n : Int} (hty : lit.ty.isInteger = true)
    (h : lit.toInt = .ok n) : lit.number = .ok (.int n) := by
  have hfloat : lit.ty.isFloating = false := by
    cases hl : lit.ty <;> rw [hl] at hty <;> first | rfl | cases hty
  unfold NumberLiteral.number
  rw [hfloat, if_neg Bool.false_ne_true, text_of_toInt hfloat h]

/-- A folded whole number fits the type it is given. -/
theorem ofInt_fits {n : Int} (h : Integer.fitsLong n = true) (ty : Ty) (pos : Position) :
    Fits (NumberLiteral.ofInt n ty pos) := by
  have hty : (NumberLiteral.intType n ty = .long)
      ∨ (NumberLiteral.intType n ty = .int ∧ Integer.fitsInt n = true) := by
    unfold NumberLiteral.intType
    split
    · exact Or.inl rfl
    · rename_i hno
      refine Or.inr ⟨rfl, ?_⟩
      cases hfit : Integer.fitsInt n with
      | true => rfl
      | false =>
          rw [hfit] at hno
          exact absurd (by rw [Bool.not_false, Bool.or_true]) hno
  refine ⟨n, toInt_of_text ?_ (ofText?_toString h), ?_⟩
  · show (NumberLiteral.intType n ty).isFloating = false
    rcases hty with hty | ⟨hty, -⟩ <;> rw [hty] <;> rfl
  · show Writable (NumberLiteral.intType n ty) n
    rcases hty with hty | ⟨hty, hfit⟩
    · rw [hty]
      exact h
    · rw [hty]
      exact hfit

theorem boolean_fits (b : Bool) (pos : Position) : Fits (NumberLiteral.boolean b pos) := by
  cases b with
  | false =>
      have htext : Integer.ofText? "0" = some 0 := by decide
      exact ⟨0, toInt_of_text rfl htext, Or.inl rfl⟩
  | true =>
      have htext : Integer.ofText? "1" = some 1 := by decide
      exact ⟨1, toInt_of_text rfl htext, Or.inr rfl⟩

theorem checkedInt_ok {n m : Int} (h : checkedInt n = .ok m) :
    m = n ∧ Integer.fitsLong n = true := by
  unfold checkedInt at h
  split at h
  · rename_i hfits
    cases h
    exact ⟨rfl, hfits⟩
  · cases h

theorem foldInt_fits {op : Arith} {a b n : Int} (h : op.foldInt a b = .ok n) :
    Integer.fitsLong n = true := by
  unfold Arith.foldInt at h
  split at h
  · obtain ⟨rfl, hfits⟩ := checkedInt_ok h
    exact hfits
  · obtain ⟨rfl, hfits⟩ := checkedInt_ok h
    exact hfits
  · obtain ⟨rfl, hfits⟩ := checkedInt_ok h
    exact hfits
  · split at h
    · cases h
    · obtain ⟨rfl, hfits⟩ := checkedInt_ok h
      exact hfits

/-- What is folded of literals in range is in range. -/
theorem fold_fits {op : BinaryOp} {a b lit : NumberLiteral} {pos : Position} (ha : Fits a)
    (hb : Fits b) (h : NumberLiteral.fold op a b pos = .ok lit) : Fits lit := by
  obtain ⟨m, hm, hwa⟩ := ha
  obtain ⟨n, hn, hwb⟩ := hb
  unfold NumberLiteral.fold at h
  rw [number_of_toInt hwa.isInteger hm, number_of_toInt hwb.isInteger hn] at h
  have hty : (Ty.promote a.ty b.ty).isFloating = false := by
    rcases promote_whole hwa.isInteger hwb.isInteger with hty | hty <;> rw [hty] <;> rfl
  simp only [except_bind_ok, Except.ok.injEq, exists_eq_left', hty, Bool.false_eq_true,
    if_false] at h
  split at h
  · obtain ⟨k, hk, h⟩ := except_bind_ok.1 h
    cases h
    exact ofInt_fits (foldInt_fits hk) _ _
  · cases h
    exact boolean_fits _ _
  · cases h

/-- The operands of what folds fold, and it stores nothing. -/
theorem foldable_operands {op : BinaryOp} {lhs rhs : Expr}
    (h : Expr.foldable op lhs rhs = true) :
    op.isAssignment = false ∧ lhs.isConstant = true ∧ rhs.isConstant = true := by
  unfold Expr.foldable at h
  rw [Bool.and_eq_true, Bool.not_eq_true'] at h
  obtain ⟨hop, hsides⟩ := h
  refine ⟨hop, ?_⟩
  split at hsides
  · exact ⟨rfl, rfl⟩
  · exact ⟨hsides, rfl⟩
  · exact ⟨rfl, hsides⟩
  · cases hsides

/-- The literals of an expression. -/
def literals : Expr → List NumberLiteral
  | .number lit => [lit]
  | .string _ => []
  | .ident _ => []
  | .member _ _ _ _ => []
  | .binary _ lhs rhs _ _ _ => literals lhs ++ literals rhs
  | .unary _ _ operand _ => literals operand

/-- The parts of an expression that are folded as a whole, from left to right. -/
def constants : Expr → List Expr
  | .number lit => [.number lit]
  | .binary op lhs rhs constant operandsMatch pos =>
    if constant then [.binary op lhs rhs constant operandsMatch pos]
    else constants lhs ++ constants rhs
  | .unary _ _ operand _ => constants operand
  | .string _ | .ident _ | .member _ _ _ _ => []

/-- A constant is a number or a node that folds. -/
@[elab_as_elim]
theorem constant_cases {motive : (e : Expr) → e.isConstant = true → Prop}
    (number : ∀ lit, motive (.number lit) rfl)
    (folded : ∀ op lhs rhs operandsMatch pos,
      motive (.binary op lhs rhs true operandsMatch pos) rfl)
    (e : Expr) (h : e.isConstant = true) : motive e h := by
  cases e with
  | number lit => exact number lit
  | binary op lhs rhs constant operandsMatch pos =>
      obtain rfl : constant = true := h
      exact folded op lhs rhs operandsMatch pos
  | _ => cases h

/-- A constant is folded as a whole. -/
theorem constants_of_constant {e : Expr} (h : e.isConstant = true) : constants e = [e] := by
  cases e, h using constant_cases with
  | number lit => rfl
  | folded op lhs rhs operandsMatch pos => exact if_pos rfl

/-- Whether an expression, if it folds, folds to a number that its type can be
written with. -/
def FoldFits (e : Expr) : Prop := ∀ lit, e.evaluate = .ok lit → Fits lit

/-- What folding makes of literals that fit their types fits its type. -/
theorem evaluate_fits : ∀ {e : Expr} {lit : NumberLiteral},
    (∀ l ∈ literals e, Fits l) → e.evaluate = .ok lit → Fits lit := by
  intro e
  induction e with
  | number l =>
      intro lit hfits h
      cases h
      exact hfits l List.mem_cons_self
  | string _ =>
      intro lit _ h
      cases h
  | ident _ =>
      intro lit _ h
      cases h
  | member _ _ _ _ =>
      intro lit _ h
      cases h
  | binary op lhs rhs constant operandsMatch pos ihl ihr =>
      intro lit hfits h
      unfold Expr.evaluate at h
      split at h
      · simp only [except_bind_ok] at h
        obtain ⟨a, ha, b, hb, h⟩ := h
        exact fold_fits (ihl (fun l hl => hfits l (List.mem_append_left _ hl)) ha)
          (ihr (fun l hl => hfits l (List.mem_append_right _ hl)) hb) h
      · cases h
  | unary op fixity operand pos ih =>
      intro lit hfits h
      cases op with
      | plus => exact ih hfits h
      | minus =>
          unfold Expr.evaluate at h
          obtain ⟨a, ha, h⟩ := except_bind_ok.1 h
          obtain ⟨m, hm, hw⟩ := ih hfits ha
          unfold NumberLiteral.negate at h
          rw [number_of_toInt hw.isInteger hm] at h
          obtain ⟨_, ⟨⟩, h⟩ := except_bind_ok.1 h
          obtain ⟨k, hk, h⟩ := except_bind_ok.1 h
          cases h
          obtain ⟨rfl, hfit⟩ := checkedInt_ok hk
          exact ofInt_fits hfit _ _
      | not =>
          unfold Expr.evaluate at h
          obtain ⟨a, ha, h⟩ := except_bind_ok.1 h
          unfold NumberLiteral.complement at h
          cases hz : a.isZero with
          | error e =>
              rw [hz] at h
              cases h
          | ok zero =>
              rw [hz] at h
              cases h
              exact boolean_fits _ _
      | incr => cases h
      | decr => cases h

end MiniC.Source
