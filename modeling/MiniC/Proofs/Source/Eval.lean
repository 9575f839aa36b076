/-
The meaning of expressions over whole numbers, from left to right.

# Cells

What an expression reads and writes are cells, each with a type and a value; what
holds the cells is left open (`Cells`), since one back end keeps variables in memory
and the other in named slots. A cell may have no value yet, and then reading it has no
meaning.

# Values

A constant subexpression has the value and type that folding gives it, operands meet
in int or long, and an assignment converts to the type of its target and has the value
it stored. How a truth value is made of a number is the one thing on which the back
ends differ: cut to its lowest bits, or compared with zero. The meaning takes this as
a parameter (`fill`), and where stored truth values are zero or one it plays no part.

# Equations and inversion

A target that can be written is known by its reference (`target_ref`), and with it
each kind of expression has an equation for running it and one for reading off what a
run has done. Consumed by the proofs about both back ends.
-/
import MiniC.Proofs.Source.Value

namespace MiniC.Source

open Steps

/-- What an expression can refer to: a variable or a member of one. -/
inductive Ref where
  | named (name : String)
  | member (object field : String)
deriving DecidableEq, Repr

/-- How cells are kept: the type of a cell with its value, if it has one
already, and the change of a cell's value. -/
structure Cells (σ : Type) where
  cell : σ → Ref → Option (Ty × Option Int)
  write : σ → Ref → Int → σ

/-- What an expression names, if it names something. -/
def ref? : Expr → Option Ref
  | .ident i => some (.named i.name)
  | .member object .dot field _ => some (.member object.name field.name)
  | _ => none

section Eval

variable {σ : Type} (cells : Cells σ) (fill : Bool)

/-- A step of an execution. -/
abbrev Run (σ α : Type) : Type := StateT σ (Except Stop) α

/-- What an expression names, which must be something. -/
def target (e : Expr) : Except Stop Ref :=
  match ref? e with
  | some r => .ok r
  | none => .error .stuck

/-- The value of a cell. -/
def fetch (r : Ref) : Run σ Value := do
  match cells.cell (← get) r with
  | some (ty, some n) => return (ty, n)
  | _ => throw .stuck

/-- Stores a value in a cell, as a value of the cell's type. -/
def assign (r : Ref) (v : Value) : Run σ Value := do
  match cells.cell (← get) r with
  | some (ty, _) =>
    let n := convert fill v.1 ty v.2
    modify fun s => cells.write s r n
    return (ty, n)
  | none => throw .stuck

/-- The value of an expression that folds, which must be a value of the
literal's type. -/
def folded (e : Expr) : Except Stop Value :=
  match e.evaluate with
  | .error _ => .error .stuck
  | .ok lit =>
    match lit.toInt with
    | .error _ => .error .stuck
    | .ok n =>
      if lit.ty.isInteger ∧ InRange lit.ty n then .ok (lit.ty, n) else .error .stuck

/-- A value with a sign in front. -/
def signed (negative : Bool) (v : Value) : Value :=
  let ty := Ty.promote v.1 .int
  let n := convert fill v.1 ty v.2
  (ty, if negative then Integer.wrap ty.size (-n) else n)

/-- An increment or decrement of what `old` is the value of. -/
def stepped (op : Arith) (fixity : Fixity) (operand : Expr) (old : Value) : Run σ Value := do
  let r ← target operand
  let next ← operate fill op old (.int, 1)
  let new ← assign cells fill r next
  match fixity with
  | .before => return new
  | .after => return old

/-- The value of an expression, with its effects. -/
def eval : Expr → Run σ Value
  | .number lit => folded (.number lit)
  | .string _ => throw .stuck
  | .ident i => do fetch cells (← target (.ident i))
  | .member object accessor field pos => do
    fetch cells (← target (.member object accessor field pos))
  | .binary op lhs rhs constant operandsMatch pos =>
    if constant then folded (.binary op lhs rhs constant operandsMatch pos)
    else
      match op with
      | .assign => do
        let r ← target lhs
        let v ← eval rhs
        assign cells fill r v
      | .compound op => do
        let r ← target lhs
        let a ← eval lhs
        let b ← eval rhs
        let v ← operate fill op a b
        assign cells fill r v
      | .arith op => do
        let a ← eval lhs
        let b ← eval rhs
        operate fill op a b
      | .compare op => do
        let a ← eval lhs
        let b ← eval rhs
        return compare fill op a b
  | .unary op fixity operand _ =>
    match op with
    | .plus => signed fill false <$> eval operand
    | .minus => signed fill true <$> eval operand
    | .not => (fun v => truth (v.2 = 0)) <$> eval operand
    | .incr => do stepped cells fill .add fixity operand (← eval operand)
    | .decr => do stepped cells fill .sub fixity operand (← eval operand)

-- =========================================================== cells

/-- A cell with a value is read. -/
theorem fetch_cell {cells : Cells σ} {s : σ} {r : Ref} {ty : Ty} {n : Int}
    (h : cells.cell s r = some (ty, some n)) : fetch cells r s = .ok ((ty, n), s) := by
  unfold fetch
  show (match cells.cell s r with
    | some (ty, some n) => pure (ty, n)
    | _ => throw Stop.stuck : Run σ Value) s = _
  rw [h]
  rfl

/-- A cell takes the value it is assigned, converted to its type. -/
theorem assign_cell {cells : Cells σ} {fill : Bool} {s : σ} {r : Ref} {ty : Ty}
    {old : Option Int} (h : cells.cell s r = some (ty, old)) (v : Value) :
    assign cells fill r v s
      = .ok ((ty, convert fill v.1 ty v.2), cells.write s r (convert fill v.1 ty v.2)) := by
  unfold assign
  show (match cells.cell s r with
    | some (ty, _) => do
      modify fun s => cells.write s r (convert fill v.1 ty v.2)
      pure (ty, convert fill v.1 ty v.2)
    | none => throw Stop.stuck : Run σ Value) s = _
  rw [h]
  rfl

/-- A cell without a value cannot be read. -/
theorem fetch_empty {cells : Cells σ} {s : σ} {r : Ref} {ty : Ty}
    (h : cells.cell s r = some (ty, none)) : fetch cells r s = .error .stuck := by
  unfold fetch
  show (match cells.cell s r with
    | some (ty, some n) => pure (ty, n)
    | _ => throw Stop.stuck : Run σ Value) s = _
  rw [h]
  rfl

-- ======================================================== equations

variable {cells : Cells σ} {fill : Bool} {e lhs rhs operand : Expr} {r : Ref}

/-- A reference is an identifier or a member behind a dot. -/
theorem ref?_some (h : ref? e = some r) :
    (∃ i, e = .ident i ∧ r = .named i.name)
      ∨ ∃ object field pos, e = .member object .dot field pos
        ∧ r = .member object.name field.name := by
  cases e with
  | ident i => exact Or.inl ⟨i, rfl, (Option.some.inj h).symm⟩
  | member object accessor field pos =>
      cases accessor <;> cases h
      exact Or.inr ⟨object, field, pos, rfl, rfl⟩
  | number _ => cases h
  | string _ => cases h
  | binary _ _ _ _ _ _ => cases h
  | unary _ _ _ _ => cases h

theorem target_ref (h : ref? e = some r) : target e = .ok r := by
  unfold target
  rw [h]

/-- What folds to a literal that fits its type has the literal's value. -/
theorem folded_fits {lit : NumberLiteral} (hfits : Fits lit) (h : e.evaluate = .ok lit) :
    ∃ n, lit.toInt = .ok n ∧ Writable lit.ty n ∧ folded e = .ok (lit.ty, n) := by
  obtain ⟨n, hn, hw⟩ := hfits
  refine ⟨n, hn, hw, ?_⟩
  unfold folded
  rw [h]
  show (match lit.toInt with
    | .error _ => Except.error Stop.stuck
    | .ok n =>
      if lit.ty.isInteger ∧ InRange lit.ty n then Except.ok (lit.ty, n)
      else .error .stuck) = _
  rw [hn]
  exact if_pos ⟨hw.isInteger, hw.inRange⟩

/-- What names a cell has the cell's value. -/
theorem eval_ref (h : ref? e = some r) : eval cells fill e = fetch cells r := by
  rcases ref?_some h with ⟨i, rfl, -⟩ | ⟨object, field, pos, rfl, -⟩ <;>
  · unfold eval
    rw [target_ref h]
    rfl

/-- A constant has the value that it folds to. -/
theorem eval_constant (h : e.isConstant = true) : eval cells fill e = liftM (folded e) := by
  cases e, h using constant_cases with
  | number lit => rfl
  | folded op lhs rhs operandsMatch pos =>
      unfold eval
      rw [if_pos rfl]

/-- An assignment evaluates its right side and stores it. -/
theorem eval_assign (h : ref? lhs = some r) (operandsMatch : Bool) (pos : Position) :
    eval cells fill (.binary .assign lhs rhs false operandsMatch pos)
      = eval cells fill rhs >>= assign cells fill r := by
  show (if false then _ else _) = _
  rw [if_neg Bool.false_ne_true, target_ref h]
  rfl

/-- A compound assignment reads its target before its right side. -/
theorem eval_compound (h : ref? lhs = some r) (op : Arith) (operandsMatch : Bool)
    (pos : Position) :
    eval cells fill (.binary (.compound op) lhs rhs false operandsMatch pos)
      = (do
        let a ← eval cells fill lhs
        let b ← eval cells fill rhs
        let v ← operate fill op a b
        assign cells fill r v) := by
  show (if false then _ else _) = _
  rw [if_neg Bool.false_ne_true, target_ref h]
  rfl

/-- What an increment or decrement does. -/
theorem stepped_ref (h : ref? operand = some r) (op : Arith) (fixity : Fixity) :
    (eval cells fill operand >>= fun old => stepped cells fill op fixity operand old)
      = fetch cells r >>= fun old => (fun new => if fixity = .before then new else old) <$>
        ((liftM (operate fill op old (.int, 1)) : Run σ Value) >>= assign cells fill r) := by
  rw [eval_ref h]
  unfold stepped
  rw [target_ref h]
  simp only [map_eq_pure_bind, bind_assoc]
  cases fixity with
  | before => rfl
  | after => rfl

-- ======================================================= inversion

-- What a node comes to is said of its operands, in the order in which they
-- are evaluated, so that no proof about whole expressions opens `eval`.

variable {s s' : σ} {v : Value} {operandsMatch : Bool} {pos : Position}

theorem target_ok : target e = .ok r ↔ ref? e = some r := by
  unfold target
  split
  · rename_i found hfound
    rw [hfound, Except.ok.injEq, Option.some.injEq]
  · rename_i hnone
    rw [hnone]
    exact ⟨nofun, nofun⟩

/-- An assignment that was evaluated has evaluated its right side and stored it. -/
theorem eval_assign_ok :
    eval cells fill (.binary .assign lhs rhs false operandsMatch pos) s = .ok (v, s')
      ↔ ∃ r a u, ref? lhs = some r ∧ eval cells fill rhs s = .ok (a, u)
        ∧ assign cells fill r a u = .ok (v, s') := by
  rw [eval, if_neg Bool.false_ne_true]
  simp only [bind_ok, lift_ok, target_ok]
  constructor
  · rintro ⟨r, _, ⟨hr, rfl⟩, a, u, ha, hassign⟩
    exact ⟨r, a, u, hr, ha, hassign⟩
  · rintro ⟨r, a, u, hr, ha, hassign⟩
    exact ⟨r, s, ⟨hr, rfl⟩, a, u, ha, hassign⟩

/-- A compound assignment that was evaluated has read both sides and stored the
result. -/
theorem eval_compound_ok {op : Arith} :
    eval cells fill (.binary (.compound op) lhs rhs false operandsMatch pos) s = .ok (v, s')
      ↔ ∃ r a u b u' x, ref? lhs = some r ∧ eval cells fill lhs s = .ok (a, u)
        ∧ eval cells fill rhs u = .ok (b, u') ∧ operate fill op a b = .ok x
        ∧ assign cells fill r x u' = .ok (v, s') := by
  rw [eval, if_neg Bool.false_ne_true]
  simp only [bind_ok, lift_ok, target_ok]
  constructor
  · rintro ⟨r, _, ⟨hr, rfl⟩, a, u, ha, b, u', hb, x, _, ⟨hx, rfl⟩, hassign⟩
    exact ⟨r, a, u, b, u', x, hr, ha, hb, hx, hassign⟩
  · rintro ⟨r, a, u, b, u', x, hr, ha, hb, hx, hassign⟩
    exact ⟨r, s, ⟨hr, rfl⟩, a, u, ha, b, u', hb, x, u', ⟨hx, rfl⟩, hassign⟩

/-- Arithmetic that was evaluated has evaluated both sides. -/
theorem eval_arith_ok {op : Arith} :
    eval cells fill (.binary (.arith op) lhs rhs false operandsMatch pos) s = .ok (v, s')
      ↔ ∃ a u b, eval cells fill lhs s = .ok (a, u) ∧ eval cells fill rhs u = .ok (b, s')
        ∧ operate fill op a b = .ok v := by
  rw [eval, if_neg Bool.false_ne_true]
  simp only [bind_ok, lift_ok]
  constructor
  · rintro ⟨a, u, ha, b, _, hb, hv, rfl⟩
    exact ⟨a, u, b, ha, hb, hv⟩
  · rintro ⟨a, u, b, ha, hb, hv⟩
    exact ⟨a, u, ha, b, s', hb, hv, rfl⟩

/-- A comparison that was evaluated has evaluated both sides. -/
theorem eval_compare_ok {op : Comparison} :
    eval cells fill (.binary (.compare op) lhs rhs false operandsMatch pos) s = .ok (v, s')
      ↔ ∃ a u b, eval cells fill lhs s = .ok (a, u) ∧ eval cells fill rhs u = .ok (b, s')
        ∧ compare fill op a b = v := by
  rw [eval, if_neg Bool.false_ne_true]
  simp only [bind_ok, pure_ok]
  constructor
  · rintro ⟨a, u, ha, b, _, hb, hv, rfl⟩
    exact ⟨a, u, b, ha, hb, hv⟩
  · rintro ⟨a, u, b, ha, hb, hv⟩
    exact ⟨a, u, ha, b, s', hb, hv, rfl⟩

/-- An increment or decrement has the new value or the old one. -/
theorem stepped_ok {op : Arith} {fixity : Fixity} :
    (eval cells fill operand >>= fun old => stepped cells fill op fixity operand old) s
        = .ok (v, s')
      ↔ ∃ r old u x new, ref? operand = some r ∧ eval cells fill operand s = .ok (old, u)
        ∧ operate fill op old (.int, 1) = .ok x ∧ assign cells fill r x u = .ok (new, s')
        ∧ (if fixity = .before then new else old) = v := by
  constructor
  · intro h
    obtain ⟨old, u, hold, hstepped⟩ := bind_ok.1 h
    unfold stepped at hstepped
    simp only [bind_ok, lift_ok, target_ok] at hstepped
    obtain ⟨r, _, ⟨hr, rfl⟩, x, _, ⟨hx, rfl⟩, new, u', hassign, hanswer⟩ := hstepped
    refine ⟨r, old, _, x, new, hr, hold, hx, ?_⟩
    cases fixity with
    | before =>
        obtain ⟨rfl, rfl⟩ := pure_ok.1 hanswer
        exact ⟨hassign, if_pos rfl⟩
    | after =>
        obtain ⟨rfl, rfl⟩ := pure_ok.1 hanswer
        exact ⟨hassign, if_neg (by decide)⟩
  · rintro ⟨r, old, u, x, new, hr, hold, hx, hassign, hv⟩
    rw [stepped_ref hr, ← eval_ref hr]
    simp only [bind_ok, map_ok, lift_ok]
    exact ⟨old, u, hold, new, ⟨x, u, ⟨hx, rfl⟩, hassign⟩, hv⟩

end Eval

end MiniC.Source
