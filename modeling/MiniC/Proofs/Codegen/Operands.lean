/-
The operands of generated expressions: what the code for constants, for places
and for both operands of an operation leaves where.

# What is assumed and shown

An expression over whole numbers is `Plain`: its names and members are of such
types, and what folds in it folds to a number that fits. `Evaluates` is what the
induction on expressions carries from operands to operations: the step generates
code that computes the expression, in rax and in its own type. An operand is
asked for in another type, and somewhere else than in rax (`Delivers`).

# Operands that wait

Two things carry the proofs. An operand that is computed while another waits is
computed between a push and a pop, so that what is in rax comes back whatever
the code between does (`computed_operand`). And an operand that is taken from
its place is read after everything to the left of it has happened, which is when
the source reads it, so it is its value then and not before
(`memory_operand`, `operands_simulates`).
Consumed by the proof that expressions compute their values.
-/
import MiniC.Proofs.Codegen.Operations

namespace MiniC.Codegen

open Asm Steps Machine Machine.Machine Source

-- ==================================================== whole expressions

/-- Whether a reference, if it refers to something, refers to a whole
number. -/
def Whole (env : Env) (f : Frame) (r : Ref) : Prop :=
  ∀ place ty, refPlace env f r = .ok (place, ty) → ty.isInteger = true

/-- Whether an expression is made of whole-number variables, members and
constants: what folds in it folds to a number that fits its type. -/
def Plain (env : Env) (f : Frame) : Expr → Prop
  | .number lit => Fits lit
  | .string _ => False
  | .ident i => Whole env f (.named i.name)
  | .member object _ field _ => Whole env f (.member object.name field.name)
  | .binary op lhs rhs true operandsMatch pos =>
    FoldFits (.binary op lhs rhs true operandsMatch pos)
  | .binary _ lhs rhs false _ _ => Plain env f lhs ∧ Plain env f rhs
  | .unary _ _ operand _ => Plain env f operand

/-- What an expression may assign to. -/
def assigned : Expr → List Ref
  | .binary op lhs rhs _ _ _ =>
    assigned lhs ++ assigned rhs ++ if op.isAssignment then (ref? lhs).toList else []
  | .unary .incr _ operand _ => (ref? operand).toList
  | .unary .decr _ operand _ => (ref? operand).toList
  | .unary _ _ operand _ => assigned operand
  | _ => []

variable {env : Env} {f : Frame}

/-- A constant that is plain folds to a number that fits. -/
theorem Plain.folds {e : Expr} (h : Plain env f e) (hconst : e.isConstant = true) :
    FoldFits e := by
  cases e, hconst using constant_cases with
  | number lit =>
      rintro _ ⟨⟩
      exact h
  | folded op lhs rhs operandsMatch pos => exact h

/-- What refers to something is plain if that is a whole number. -/
theorem plain_ref {e : Expr} {r : Ref} (hr : ref? e = some r) :
    Plain env f e ↔ Whole env f r := by
  rcases ref?_some hr with ⟨i, rfl, rfl⟩ | ⟨object, field, pos, rfl, rfl⟩
  · exact Iff.rfl
  · exact Iff.rfl

/-- Whether code computes an expression as a value of a type, in rax, once
the truth values that the expression reads are 0 or 1. -/
def Computes (env : Env) (f : Frame) (e : Expr) (code : Code) (ty : Ty) : Prop :=
  ∀ set m, Reads set e → Truthful set (view env f m) → Ready env f (pushes code) m →
    Simulates env f (assigned e) code m (Source.eval refCells true e) fun v m' =>
      v.1 = ty ∧ InRange ty v.2 ∧ low (wordOf ty) (m'.regs .rax) = v.2

/-- Whether a step generates code that computes an expression in its own
type, which is that of a whole number. -/
def Evaluates (env : Env) (f : Frame) (e : Expr) (run : Gen (Code × Ty)) : Prop :=
  ∀ s code ty t, s.frame.scopes = f.scopes → run s = .ok ((code, ty), t) →
    t.frame.scopes = f.scopes ∧ env.typeOf f e = .ok ty ∧ ty.isInteger = true
      ∧ Computes env f e code ty

-- ============================================================ constants

/-- What a constant expression folds to. -/
theorem folded_ok {e : Expr} {lit : NumberLiteral} (hplain : Plain env f e)
    (hconst : e.isConstant = true) (h : e.evaluate = .ok lit) :
    ∃ n, lit.toInt = .ok n ∧ Writable lit.ty n ∧ folded e = .ok (lit.ty, n) :=
  folded_fits (hplain.folds hconst lit h) h

/-- A constant is of the type that it folds to. -/
theorem typeOf_constant {e : Expr} {lit : NumberLiteral} (hconst : e.isConstant = true)
    (h : e.evaluate = .ok lit) : env.typeOf f e = .ok lit.ty := by
  cases e, hconst using constant_cases with
  | number l =>
      cases h
      rfl
  | folded op lhs rhs operandsMatch pos =>
      unfold Env.typeOf
      rw [if_pos rfl, h]
      rfl

/-- Code that works in registers computes a constant. -/
theorem simulates_constant {e : Expr} {lit : NumberLiteral} {n : Int} {refs : List Ref}
    {code : Code} {m m' : Machine} {Q : Value → Machine → Prop} (hconst : e.isConstant = true)
    (hfold : folded e = .ok (lit.ty, n)) (hexec : exec code m = .ok m') (hstill : Still m m')
    (hq : Q (lit.ty, n) m') :
    Simulates env f refs code m (Source.eval refCells true e) Q := by
  refine Simulates.pure hexec hstill ?_ hq
  rw [eval_constant hconst, hfold]
  rfl

/-- The code of a constant computes it. -/
theorem evalConstant_evaluates {e : Expr} (hplain : Plain env f e)
    (hconst : e.isConstant = true) : Evaluates env f e (evalConstant e) := by
  intro s code ty t hs h
  unfold evalConstant at h
  obtain ⟨lit, u, hlit, h⟩ := bind_ok.1 h
  obtain ⟨hlift, rfl⟩ := lift_ok.1 hlit
  have hlit := liftEval_ok.1 hlift
  obtain ⟨n, hn, hw, hfold⟩ := folded_ok hplain hconst hlit
  have hinteger := hw.isInteger
  rw [not_floating hinteger, if_neg Bool.false_ne_true, immediate_eq hn hw hinteger,
    convert_self hw.inRange, widthOf_whole hinteger] at h
  cases h
  refine ⟨hs, typeOf_constant hconst hlit, hinteger, fun set m _ _ _ => ?_⟩
  have hmoved := Moved.putReg m (wordOf lit.ty) .rax n
  refine simulates_constant hconst hfold (exec_step (step_value m .rax hinteger hw.inRange) [])
    (hmoved.still) ⟨rfl, hw.inRange, ?_⟩
  rw [putReg_self, low_put (Nat.le_refl _), bytes_wordOf hinteger, hw.inRange.wrap hinteger]

-- =============================================================== places

/-- The place of an expression that names one. -/
theorem placed {e : Expr} {s : State} {place : Place} {ty : Ty} (hplain : Plain env f e)
    (hs : s.frame.scopes = f.scopes) (h : env.place? s.frame e = .ok (some (place, ty))) :
    ∃ r, ref? e = some r ∧ refPlace env f r = .ok (place, ty) ∧ ty.isInteger = true
      ∧ env.typeOf f e = .ok ty := by
  rw [place?_congr hs] at h
  obtain ⟨r, hr, hplace⟩ := place?_some h
  refine ⟨r, hr, hplace, (plain_ref hr).1 hplain place ty hplace, ?_⟩
  rcases ref?_some hr with ⟨i, rfl, rfl⟩ | ⟨object, field, pos, rfl, rfl⟩
  · have hlocate : env.locate f i.name = .ok (place, ty) := hplace
    unfold Env.typeOf
    rw [hlocate]
    rfl
  · have hlocate : env.locateMember f object .dot field = .ok (place, ty) := hplace
    unfold Env.typeOf
    rw [hlocate]
    rfl

/-- What is assigned to is the place of a whole number. -/
theorem targeted {e : Expr} {s : State} {place : Place} {ty : Ty} (hplain : Plain env f e)
    (hs : s.frame.scopes = f.scopes) (h : env.target s.frame e = .ok (place, ty)) :
    ∃ r, ref? e = some r ∧ refPlace env f r = .ok (place, ty) ∧ ty.isInteger = true
      ∧ env.typeOf f e = .ok ty := by
  unfold Env.target at h
  obtain ⟨found, hfound, h⟩ := except_bind_ok.1 h
  cases found with
  | none => cases h
  | some found =>
      cases h
      exact placed hplain hs hfound

/-- Code that works in registers computes what is in a place. -/
theorem simulates_place {e : Expr} {r : Ref} {place : Place} {ty : Ty} {refs : List Ref}
    {code : Code} {m m' : Machine} {Q : Value → Machine → Prop} (hr : ref? e = some r)
    (hplace : refPlace env f r = .ok (place, ty)) (hty : ty.isInteger = true)
    (hexec : exec code m = .ok m') (hstill : Still m m')
    (hq : Q (ty, m.loadPlace (wordOf ty) place) m') :
    Simulates env f refs code m (Source.eval refCells true e) Q := by
  refine Simulates.pure hexec hstill ?_ hq
  rw [eval_ref hr]
  exact fetch_cell (cell_view hplace hty m)

/-- A variable that is read holds a value of its type. -/
theorem place_inRange {e : Expr} {r : Ref} {place : Place} {ty : Ty} {m : Machine}
    {set : Ref → Prop} (hr : ref? e = some r) (hplace : refPlace env f r = .ok (place, ty))
    (hty : ty.isInteger = true) (hreads : Reads set e) (hset : Truthful set (view env f m)) :
    InRange ty (m.loadPlace (wordOf ty) place) :=
  hset.inRange ((reads_ref hr).1 hreads) (view_eq hplace hty m)

/-- The code that reads a place computes what is in it. -/
theorem evalPlace_evaluates {e : Expr} (hplain : Plain env f e) :
    Evaluates env f e (evalPlace env e) := by
  intro s code ty t hs h
  unfold evalPlace at h
  obtain ⟨⟨place, source⟩, u, hfound, hrest⟩ := bind_ok.1 h
  obtain ⟨htarget, rfl⟩ := targetOf_ok.1 hfound
  obtain ⟨r, hr, hplace, hinteger, htype⟩ := targeted hplain hs htarget
  simp only [not_floating hinteger, Bool.false_eq_true, if_false, bind_ok, lift_ok] at hrest
  obtain ⟨load, _, ⟨hload, rfl⟩, hpure⟩ := hrest
  cases hpure
  refine ⟨hs, htype, hinteger, fun set m hreads hset _ => ?_⟩
  have hrange := place_inRange hr hplace hinteger hreads hset
  obtain ⟨m', hexec, hmoved, hlow⟩ := loadInto_exec (Or.inl rfl) hload hinteger hinteger hrange
  rw [convert_self hrange] at hlow
  exact simulates_place hr hplace hinteger hexec (hmoved.still) ⟨rfl, hrange, hlow⟩

-- ============================================================= operands

/-- Whether code computes an expression of a type and leaves its value
somewhere, converted to another type. -/
def Delivers (env : Env) (f : Frame) (e : Expr) (code : Code) (source target : Ty)
    (at_ : Machine → Machine → Int → Prop) : Prop :=
  ∀ set m, Reads set e → Truthful set (view env f m) → Ready env f (pushes code) m →
    Simulates env f (assigned e) code m (Source.eval refCells true e) fun v m' =>
      v.1 = source ∧ InRange source v.2 ∧ at_ m m' (Source.convert true source target v.2)

/-- A number in rax. -/
def InRax (target : Ty) (_ m' : Machine) (n : Int) : Prop :=
  low (wordOf target) (m'.regs .rax) = n

/-- A number in a right operand, with rax as before. -/
def InOperand (target : Ty) (o : Operand) (m m' : Machine) (n : Int) : Prop :=
  m'.read (wordOf target) o = .ok n ∧ m'.regs .rax = m.regs .rax

/-- An operand is computed in rax and converted there. -/
theorem evalTo_delivers {e : Expr} {run : Gen (Code × Ty)} {s t : State} {code : Code}
    {target : Ty} (hplain : Plain env f e) (hrun : Evaluates env f e run)
    (ht : target.isInteger = true) (hs : s.frame.scopes = f.scopes)
    (h : evalTo env e run target s = .ok (code, t)) :
    t.frame.scopes = f.scopes ∧ ∃ source, env.typeOf f e = .ok source
      ∧ source.isInteger = true ∧ Delivers env f e code source target (InRax target) := by
  rcases evalTo_ok h with ⟨place, source, hfound, hload, rfl⟩
    | ⟨first, source, conversion, hfirst, hconversion, rfl⟩
  · obtain ⟨r, hr, hplace, hsource, htype⟩ := placed hplain hs hfound
    refine ⟨hs, source, htype, hsource, fun set m hreads hset _ => ?_⟩
    have hrange := place_inRange hr hplace hsource hreads hset
    obtain ⟨m', hexec, hmoved, hlow⟩ := loadInto_exec (Or.inl rfl) hload hsource ht hrange
    exact simulates_place hr hplace hsource hexec (hmoved.still) ⟨rfl, hrange, hlow⟩
  · obtain ⟨hscopes, htype, hsource, hcomputes⟩ := hrun _ _ _ _ hs hfirst
    refine ⟨hscopes, source, htype, hsource, fun set m hreads hset hready => ?_⟩
    rw [pushes_append] at hready
    refine (hcomputes set m hreads hset (hready.mono (Nat.le_add_right _ _))).andThen ?_
    rintro ⟨ty, n⟩ m' ⟨rfl, hrange, hlow⟩
    obtain ⟨m'', hexec, hmoved, hlow'⟩ := convert_exec hconversion hsource ht hrange hlow
    exact ⟨m'', hexec, hmoved.still, rfl, hrange, hlow'⟩

/-- A constant right operand is an immediate, or goes through rcx if it
needs more than 32 bits. -/
theorem constant_operand {e : Expr} {lit : NumberLiteral} {n : Int} {target : Ty}
    {code : Code} {o : Operand} (hplain : Plain env f e) (hconst : e.isConstant = true)
    (hlit : e.evaluate = .ok lit) (ht : target = .int ∨ target = .long)
    (hn : immediate lit target = .ok n)
    (h : (if Integer.fitsInt n then ([], .imm n)
      else ([.mov (reg .qword .rcx) (.imm n)], reg (wordOf target) .rcx)) = (code, o)) :
    RightForm (wordOf target) o ∧ Delivers env f e code lit.ty target (InOperand target o) := by
  obtain ⟨k, hk, hw, hfold⟩ := folded_ok hplain hconst hlit
  have hinteger : target.isInteger = true := by rcases ht with rfl | rfl <;> rfl
  have hrange := convert_inRange true lit.ty target k
  rw [immediate_eq hk hw hinteger] at hn
  cases hn
  have hwrap := hrange.wrap hinteger
  rw [← bytes_wordOf hinteger] at hwrap
  split at h
  · rename_i hfits
    cases h
    refine ⟨.imm _, fun set m _ _ _ => ?_⟩
    refine simulates_constant hconst hfold (exec_nil m) (Still.refl m)
      ⟨rfl, hw.inRange, ?_, rfl⟩
    rw [m.read_imm _ hfits, hwrap]
  · rename_i hfits
    cases h
    have hlong : wordOf target = .qword := by
      by_cases hq : wordOf target = .qword
      · exact hq
      · exact absurd (fitsInt_of_inRange hinteger hq hrange) hfits
    refine ⟨.rcx, fun set m _ _ _ => ?_⟩
    have hmoved := Moved.putReg m .qword .rcx (Source.convert true lit.ty target k)
    refine simulates_constant hconst hfold
      (exec_step (m.step_long .rcx (hrange.fitsLong hinteger)) [])
      (hmoved.still) ⟨rfl, hw.inRange, ?_, hmoved.others .rax (by decide)⟩
    rw [hlong] at hwrap
    rw [hlong]
    show Machine.Machine.read _ _ (.reg .qword .rcx) = _
    rw [read_reg, putReg_self, low_put (Nat.le_refl _), hwrap]

/-- A right operand that is in a place of its width is taken from there. -/
theorem memory_operand {e : Expr} {r : Ref} {place : Place} {source target : Ty}
    (hr : ref? e = some r) (hplace : refPlace env f r = .ok (place, source))
    (hsource : source.isInteger = true) (ht : target = .int ∨ target = .long)
    (hword : wordOf source = wordOf target) :
    Delivers env f e [] source target (InOperand target (.mem (wordOf target) place)) := by
  obtain rfl : source = target := by
    cases source <;> try cases hsource
    all_goals rcases ht with rfl | rfl <;> first | rfl | cases hword
  intro set m hreads hset _
  have hrange := place_inRange hr hplace hsource hreads hset
  refine simulates_place hr hplace hsource (exec_nil m) (Still.refl m) ⟨rfl, hrange, ?_, rfl⟩
  rw [convert_self hrange, read_mem]

/-- A right operand that is computed is computed with rax saved. -/
theorem computed_operand {e : Expr} {source target : Ty} {first : Code}
    (h : Delivers env f e first source target (InRax target)) :
    Delivers env f e
      (.push .rax :: (first ++ [.mov (reg (wordOf target) .rcx) (reg (wordOf target) .rax)])
        ++ [.pop .rax]) source target (InOperand target (.reg (wordOf target) .rcx)) := by
  intro set m hreads hset hready
  rw [pushes_saved] at hready
  refine (Simulates.saved (P := fun v x => v.1 = source ∧ InRange source v.2
    ∧ low (wordOf target) x = Source.convert true source target v.2) hready ?_).mono
    (fun _ hr => hr) ?_
  · intro m hview hready
    rw [pushes_append] at hready
    rw [← hview] at hset
    refine (h set m hreads hset (hready.mono (Nat.le_add_right _ _))).andThen ?_
    rintro v m' ⟨hty, hrange, hlow⟩
    have hmoved := Moved.putReg m' (wordOf target) .rcx (low (wordOf target) (m'.regs .rax))
    refine ⟨_, exec_step (m'.step_copy _ .rcx .rax) [], hmoved.still, hty, hrange, ?_⟩
    rw [putReg_self, low_put (Nat.le_refl _), wrap_low (Nat.le_refl _)]
    exact hlow
  · rintro v m' ⟨⟨hty, hrange, hlow⟩, hrax⟩
    refine ⟨hty, hrange, ?_, hrax⟩
    rw [read_reg, hlow]

theorem promoted_whole {ty : Ty} (h : ty = .int ∨ ty = .long) : ty.isInteger = true := by
  rcases h with rfl | rfl <;> rfl

/-- A right operand is delivered, whether it is a constant, a place or a
computation. -/
theorem rightOperand_delivers {e : Expr} {run : Gen (Code × Ty)} {s t : State} {code : Code}
    {o : Operand} {target : Ty} (hplain : Plain env f e) (hrun : Evaluates env f e run)
    (ht : target = .int ∨ target = .long) (hs : s.frame.scopes = f.scopes)
    (h : rightOperand env e run target s = .ok ((code, o), t)) :
    t.frame.scopes = f.scopes ∧ RightForm (wordOf target) o
      ∧ ∃ source, env.typeOf f e = .ok source ∧ source.isInteger = true
        ∧ Delivers env f e code source target (InOperand target o) := by
  have hinteger := promoted_whole ht
  unfold rightOperand at h
  simp only [widthOf_whole hinteger, bind_ok, lift_ok, Except.ok.injEq] at h
  obtain ⟨_, _, ⟨rfl, rfl⟩, h⟩ := h
  cases hconst : e.isConstant with
  | true =>
      rw [hconst, if_pos rfl] at h
      simp only [bind_ok, lift_ok, liftEval_ok] at h
      obtain ⟨lit, _, ⟨hlit, rfl⟩, h⟩ := h
      obtain ⟨k, -, hw, -⟩ := folded_ok hplain hconst hlit
      rw [not_floating hw.isInteger, if_neg Bool.false_ne_true] at h
      simp only [bind_ok, lift_ok] at h
      obtain ⟨n, _, ⟨hn, rfl⟩, h⟩ := h
      have hpair : (if Integer.fitsInt n then ([], .imm n)
          else ([.mov (reg .qword .rcx) (.imm n)], reg (wordOf target) .rcx)) = (code, o)
          ∧ t = s := by
        split at h <;> cases h
        · rename_i hfits
          exact ⟨if_pos hfits, rfl⟩
        · rename_i hfits
          exact ⟨if_neg hfits, rfl⟩
      obtain ⟨hpair, rfl⟩ := hpair
      obtain ⟨hform, hdelivers⟩ := constant_operand hplain hconst hlit ht hn hpair
      exact ⟨hs, hform, lit.ty, typeOf_constant hconst hlit, hw.isInteger, hdelivers⟩
  | false =>
      rw [hconst, if_neg Bool.false_ne_true] at h
      simp only [bind_ok, placeOf_ok] at h
      obtain ⟨found, _, ⟨hfound, rfl⟩, h⟩ := h
      cases found with
      | some found =>
          obtain ⟨place, source⟩ := found
          obtain ⟨r, hr, hplace, hsource, htype⟩ := placed hplain hs hfound
          simp only [not_floating hsource, Bool.false_eq_true, if_false, widthOf_whole hsource,
            bind_ok, lift_ok, Except.ok.injEq] at h
          obtain ⟨_, _, ⟨rfl, rfl⟩, h⟩ := h
          split at h
          · rename_i hword
            cases h
            exact ⟨hs, .mem place, source, htype, hsource,
              memory_operand hr hplace hsource ht hword⟩
          · simp only [bind_ok, lift_ok] at h
            obtain ⟨load, _, ⟨hload, rfl⟩, hpure⟩ := h
            cases hpure
            refine ⟨hs, .rcx, source, htype, hsource, fun set m hreads hset _ => ?_⟩
            have hrange := place_inRange hr hplace hsource hreads hset
            obtain ⟨m', hexec, hmoved, hlow⟩ :=
              loadInto_exec (Or.inr rfl) hload hsource hinteger hrange
            refine simulates_place hr hplace hsource hexec (hmoved.still)
              ⟨rfl, hrange, ?_, hmoved.others .rax (by decide)⟩
            show m'.read _ (.reg _ .rcx) = _
            rw [read_reg, hlow]
      | none =>
          simp only [bind_ok, saved_ok] at h
          obtain ⟨saved, _, ⟨inner, u, frame, ⟨first, v, hfirst, hinner⟩, hpop, rfl, rfl⟩, hpure⟩
            := h
          cases hinner
          cases hpure
          obtain ⟨hscopes, source, htype, hsource, hdelivers⟩ :=
            evalTo_delivers hplain hrun hinteger (by exact hs) hfirst
          refine ⟨?_, .rcx, source, htype, hsource, computed_operand hdelivers⟩
          unfold Frame.pop? at hpop
          split at hpop
          · cases hpop
          · cases hpop
            exact hscopes

/-- The type of a whole expression is that of a whole number. -/
theorem typeOf_whole {e : Expr} {ty : Ty} (hplain : Plain env f e)
    (h : env.typeOf f e = .ok ty) : ty.isInteger = true := by
  induction e generalizing ty with
  | number lit =>
      cases h
      obtain ⟨n, -, hw⟩ := hplain
      exact hw.isInteger
  | string _ => exact hplain.elim
  | ident i =>
      obtain ⟨found, hfound, rfl⟩ := except_map_ok.1 h
      exact hplain found.1 found.2 hfound
  | member object accessor field pos =>
      obtain ⟨found, hfound, rfl⟩ := except_map_ok.1 h
      cases accessor with
      | arrow => cases hfound
      | scope => cases hfound
      | dot => exact hplain found.1 found.2 hfound
  | binary op lhs rhs constant operandsMatch pos ihl ihr =>
      unfold Env.typeOf at h
      cases constant with
      | true =>
          rw [if_pos rfl] at h
          obtain ⟨lit, hlit, rfl⟩ := except_map_ok.1 h
          obtain ⟨n, -, hw⟩ := hplain.folds rfl lit (liftEval_ok.1 hlit)
          exact hw.isInteger
      | false =>
          rw [if_neg Bool.false_ne_true] at h
          cases op with
          | assign => exact ihl hplain.1 h
          | compound op => exact ihl hplain.1 h
          | compare op =>
              cases h
              rfl
          | arith op =>
              obtain ⟨left, hleft, h⟩ := except_bind_ok.1 h
              obtain ⟨right, hright, h⟩ := except_bind_ok.1 h
              cases h
              exact promoted_whole (promote_whole (ihl hplain.1 hleft) (ihr hplain.2 hright))
  | unary op fixity operand pos ih =>
      unfold Env.typeOf at h
      cases op with
      | not =>
          cases h
          rfl
      | plus =>
          obtain ⟨inner, hinner, h⟩ := except_bind_ok.1 h
          cases h
          exact promoted_whole (promote_whole (ih hplain hinner) rfl)
      | minus =>
          obtain ⟨inner, hinner, h⟩ := except_bind_ok.1 h
          cases h
          exact promoted_whole (promote_whole (ih hplain hinner) rfl)
      | incr => exact ih hplain h
      | decr => exact ih hplain h

/-- What code for both operands of an operation leaves behind: their values,
the left one in rax and the right one in its operand. -/
structure Loaded (left right ty : Ty) (o : Operand) (a b : Value) (m : Machine) : Prop where
  first : a.1 = left ∧ InRange left a.2
  second : b.1 = right ∧ InRange right b.2
  rax : low (wordOf ty) (m.regs .rax) = Source.convert true left ty a.2
  operand : m.read (wordOf ty) o = .ok (Source.convert true right ty b.2)

/-- Both operands are computed, the left one first. -/
theorem operands_simulates {lhs rhs : Expr} {runLeft runRight : Gen (Code × Ty)} {s t : State}
    {ty : Ty} {width : Width} {code : Code} {o : Operand} (hleft : Plain env f lhs)
    (hright : Plain env f rhs) (hrunLeft : Evaluates env f lhs runLeft)
    (hrunRight : Evaluates env f rhs runRight) (hs : s.frame.scopes = f.scopes)
    (h : operands env lhs rhs runLeft runRight s = .ok ((ty, width, code, o), t)) :
    t.frame.scopes = f.scopes ∧ width = wordOf ty ∧ RightForm (wordOf ty) o
      ∧ ∃ left right, env.typeOf f lhs = .ok left ∧ env.typeOf f rhs = .ok right
        ∧ left.isInteger = true ∧ right.isInteger = true ∧ ty = Ty.promote left right
        ∧ ∀ {α : Type} {set : Ref → Prop} {m : Machine} {refs : List Ref} {rest : Code}
            {next : Value → Value → Run Valuation α} {Q : α → Machine → Prop},
          Reads set lhs → Reads (fun r => set r ∨ r ∈ stored lhs) rhs →
          Truthful set (view env f m) → Ready env f (pushes code) m →
          (∀ a b m', m'.regs .rsp = m.regs .rsp → m'.regs .rbp = m.regs .rbp →
            Loaded left right ty o a b m' → Simulates env f refs rest m' (next a b) Q) →
          Simulates env f (assigned lhs ++ assigned rhs ++ refs) (code ++ rest) m
            (do
              let a ← Source.eval refCells true lhs
              let b ← Source.eval refCells true rhs
              next a b) Q := by
  unfold operands at h
  simp only [bind_ok, typeOfExpr_ok] at h
  obtain ⟨left, _, ⟨hleftTy, rfl⟩, right, _, ⟨hrightTy, rfl⟩, h⟩ := h
  rw [typeOf_congr hs] at hleftTy hrightTy
  split at h
  · exact (fail_ok.1 h).elim
  · split at h
    · exact (fail_ok.1 h).elim
    · rename_i hfloat
      simp only [bind_ok, lift_ok, pure_ok] at h
      obtain ⟨w, _, ⟨hw, rfl⟩, first, u, hfirst, ⟨second, operand⟩, v, hsecond, hpair, rfl⟩ := h
      cases hpair
      have hleftWhole := typeOf_whole hleft hleftTy
      have hrightWhole := typeOf_whole hright hrightTy
      have hty := promote_whole hleftWhole hrightWhole
      rw [widthOf_whole (promoted_whole hty)] at hw
      cases hw
      obtain ⟨hu, left', hleftTy', -, hdelivers⟩ :=
        evalTo_delivers hleft hrunLeft (promoted_whole hty) hs hfirst
      obtain ⟨hv, hform, right', hrightTy', -, hdelivers'⟩ :=
        rightOperand_delivers hright hrunRight hty hu hsecond
      rw [hleftTy] at hleftTy'
      cases hleftTy'
      rw [hrightTy] at hrightTy'
      cases hrightTy'
      refine ⟨hv, rfl, hform, left, right, hleftTy, hrightTy, hleftWhole, hrightWhole, rfl, ?_⟩
      intro α set m refs rest next Q hreads hreads' hset hready hnext
      rw [pushes_append] at hready
      rw [List.append_assoc, List.append_assoc]
      refine (hdelivers set m hreads hset (hready.mono (Nat.le_add_right _ _))).bind ?_
      rintro a m₁ hkept₁ hsource₁ ⟨ha, hrangeA, hrax⟩
      have hready₁ := (hready.mono (Nat.le_add_left _ _)).congr hkept₁.rsp hkept₁.rbp
      have hset₁ := truthful_eval hset hsource₁
      refine (hdelivers' _ m₁ hreads' hset₁ hready₁).bind ?_
      rintro b m₂ hkept₂ - ⟨hb, hrangeB, hoperand, hsame⟩
      refine hnext a b m₂ (hkept₂.rsp.trans hkept₁.rsp) (hkept₂.rbp.trans hkept₁.rbp) ?_
      refine ⟨⟨ha, hrangeA⟩, ⟨hb, hrangeB⟩, ?_, hoperand⟩
      rw [hsame]
      exact hrax

end MiniC.Codegen
