/-
The steps of lowering taken apart, and what they leave alone.

# Inversion

A step that succeeds has done one thing: emitted an instruction, opened a block,
handed out a name or brought one into sight. For each there is a name for the
state behind it (`State.emitted`, `State.opened`, `State.jumped`, `State.bind`)
and a lemma that says so (`emit_ok` and its like), so that no proof about a
construct has to unfold a step.

# What expressions leave alone

An expression adds definitions and stores to the function under construction and
nothing else, so it keeps whatever these keep (`expr_across`): a relation between
two states that is reflexive and transitive, and that a definition and a store
respect, holds between the states in front of an expression and behind it. This is
the only induction on expressions that such facts need.

In particular an expression only adds: behind it the names in sight are those of
before, every block is still there, and no label is used twice
(`expr_additive`). This holds also of code that control never reaches, of which
nothing else is said. Consumed by the proofs about expressions and statements.
-/
import MiniC.Lowering.Program
import MiniC.Proofs.IR.Builder
import MiniC.Proofs.Steps

namespace MiniC.Lowering

open IR Steps

-- ============================================================ inversion

theorem fail_ok {α : Type} {e : LowerError} {s : State} {r : α × State} :
    (fail e : Lower α) s = .ok r ↔ False :=
  throw_ok

/-- What is folded on the way is folded as the source says. -/
theorem liftEval_ok {α : Type} {x : Except EvalError α} {a : α} :
    liftEval x = .ok a ↔ x = .ok a := by
  cases x with
  | error e =>
      constructor
      · intro h
        cases h
      · intro h
        cases h
  | ok b => exact Iff.of_eq (by rw [liftEval, Except.ok.injEq, Except.ok.injEq])

/-- A step of the builder leaves names and globals alone. -/
theorem build_ok {α : Type} {f : Builder → α × Builder} {s t : State} {a : α} :
    build f s = .ok (a, t) ↔ a = (f s.builder).1 ∧ t = { s with builder := (f s.builder).2 } := by
  unfold build
  rw [modifyGet_ok]
  constructor
  · intro h
    cases h
    exact ⟨rfl, rfl⟩
  · rintro ⟨rfl, rfl⟩
    rfl

/-- The state with an instruction added. -/
def State.emitted (s : State) (instr : Instr) : State :=
  { s with builder := s.builder.emit instr }

/-- The state with a block opened. -/
def State.opened (s : State) (label : String) : State :=
  { s with builder := s.builder.append label }

/-- The state with a jump added where it can be reached. -/
def State.jumped (s : State) (label : String) : State :=
  { s with builder := s.builder.jumpTo label }

/-- Emitting an instruction emits it, and nothing else. -/
theorem emit_ok {instr : Instr} {s t : State} {u : Unit} :
    emit instr s = .ok (u, t) ↔ t = s.emitted instr := by
  unfold emit
  rw [build_ok]
  exact and_iff_right rfl

/-- Appending a block opens it. -/
theorem append_ok {label : String} {s t : State} {u : Unit} :
    append label s = .ok (u, t) ↔ t = s.opened label := by
  unfold append
  rw [build_ok]
  exact and_iff_right rfl

/-- Jumping to a block leaves the one that is open and opens the other. -/
theorem jumpTo_ok {label : String} {s t : State} {u : Unit} :
    jumpTo label s = .ok (u, t) ↔ t = s.jumped label := by
  unfold jumpTo
  rw [build_ok]
  exact and_iff_right rfl

/-- A name that is handed out is the first that is free. -/
theorem unique_ok {base name : String} {s t : State} :
    unique base s = .ok (name, t) ↔
      name = (s.builder.unique base).1 ∧ t = { s with builder := (s.builder.unique base).2 } := by
  unfold unique
  rw [build_ok]

/-- A definition takes the next temporary. -/
theorem define_ok {definition : Definition} {s t : State} {value : Value} :
    define definition s = .ok (value, t) ↔
      value = .temp definition.ty s.builder.nextTemp
        ∧ t = { s with builder :=
                  s.builder.freshTemp.2.emit (.define s.builder.nextTemp definition) } := by
  unfold define
  simp only [bind_ok, build_ok, emit_ok, pure_ok]
  constructor
  · rintro ⟨_, _, ⟨rfl, rfl⟩, _, _, rfl, rfl, rfl⟩
    exact ⟨rfl, rfl⟩
  · rintro ⟨rfl, rfl⟩
    exact ⟨_, _, ⟨rfl, rfl⟩, (), _, rfl, rfl, rfl⟩

/-- A slot that is reserved has a name of its own and its type. -/
theorem alloca_ok {base : String} {ty : IR.Ty} {s t : State} {slot : Slot} :
    alloca base ty s = .ok (slot, t) ↔
      slot = ⟨(s.builder.unique base).1, false, ty⟩
        ∧ t = { s with builder := (s.builder.unique base).2.emit (.alloca slot) } := by
  unfold alloca
  simp only [bind_ok, unique_ok, emit_ok, pure_ok]
  constructor
  · rintro ⟨_, _, ⟨rfl, rfl⟩, _, _, rfl, rfl, rfl⟩
    exact ⟨rfl, rfl⟩
  · rintro ⟨rfl, rfl⟩
    exact ⟨_, _, ⟨rfl, rfl⟩, (), _, rfl, rfl, rfl⟩

/-- A name stands for the slot of the innermost scope that has it, or for a global. -/
theorem storage_ok {globals : List (String × Slot)} {name : String} {s t : State} {slot : Slot} :
    storage globals name s = .ok (slot, t) ↔
      ((s.scopes.findSome? fun scope => scope.lookup name).orElse fun _ => globals.lookup name)
          = some slot ∧ t = s := by
  unfold storage
  simp only [bind_ok, get_ok]
  constructor
  · rintro ⟨_, _, ⟨rfl, rfl⟩, h⟩
    cases hfound : (s.scopes.findSome? fun scope => scope.lookup name).orElse
        fun _ => globals.lookup name with
    | none =>
        rw [hfound] at h
        exact (fail_ok.1 h).elim
    | some found =>
        rw [hfound] at h
        obtain ⟨rfl, rfl⟩ := pure_ok.1 h
        exact ⟨rfl, rfl⟩
  · rintro ⟨h, rfl⟩
    refine ⟨t, t, ⟨rfl, rfl⟩, ?_⟩
    rw [h]
    rfl

/-- Brings a name into sight in the innermost scope. -/
def State.bind (s : State) (name : String) (slot : Slot) : State :=
  match s.scopes with
  | [] => s
  | scope :: outer => { s with scopes := ((name, slot) :: scope) :: outer }

/-- A slot comes into sight in the innermost scope. -/
theorem bind_ok_iff {name : String} {slot : Slot} {s t : State} {u : Unit} :
    bind name slot s = .ok (u, t) ↔ t = s.bind name slot := by
  unfold bind
  rw [modify_ok]
  exact eq_comm

/-- A scope is left as it was entered. -/
theorem inScope_ok {α : Type} {step : Lower α} {s t : State} {a : α} :
    inScope step s = .ok (a, t) ↔
      ∃ u, step { s with scopes := [] :: s.scopes } = .ok (a, u)
        ∧ t = { u with scopes := u.scopes.drop 1 } := by
  unfold inScope
  simp only [bind_ok, modify_ok, pure_ok]
  constructor
  · rintro ⟨_, _, rfl, _, u, hstep, _, _, rfl, rfl, rfl⟩
    exact ⟨u, hstep, rfl⟩
  · rintro ⟨u, hstep, rfl⟩
    exact ⟨⟨⟩, _, rfl, a, u, hstep, ⟨⟩, _, rfl, rfl, rfl⟩

-- ========================================================== expressions

/-- Whether a function has its first block. -/
def State.Started (s : State) : Prop := s.builder.function.blocks ≠ []

/-- How a state goes on from another that has the same names in sight. -/
structure Adds (s t : State) : Prop where
  grows : Grows s.builder t.builder
  tidy : ∀ pending, Tidy s.builder pending → Tidy t.builder pending
  scopes : t.scopes = s.scopes

theorem Adds.refl {s : State} (h : s.Started) : Adds s s :=
  ⟨.refl h, fun _ hs => hs, rfl⟩

/-- What is added twice is added together. -/
theorem Adds.trans {s t u : State} (h : Adds s t) (h' : Adds t u) : Adds s u :=
  ⟨h.grows.trans h'.grows, fun pending hs => h'.tidy pending (h.tidy pending hs),
    h'.scopes.trans h.scopes⟩

/-- Whether a step only adds to the function under construction. -/
def Additive {α : Type} (step : Lower α) : Prop := Keeps (fun s t => s.Started → Adds s t) step

namespace Additive

variable {α β : Type}

theorem bind {x : Lower α} {f : α → Lower β} (hx : Additive x) (hf : ∀ a, Additive (f a)) :
    Additive (x >>= f) :=
  Keeps.bind (fun _ _ _ h h' hs => (h hs).trans (h' (h hs).grows.started)) hx hf

theorem pure (a : α) : Additive (pure a : Lower α) := by
  intro s b t h hs
  obtain ⟨-, rfl⟩ := pure_ok.1 h
  exact .refl hs

theorem fail (e : LowerError) : Additive (fail e : Lower α) := by
  intro s b t h
  exact (fail_ok.1 h).elim

theorem ite {c : Prop} [Decidable c] {x y : Lower α} (hx : Additive x) (hy : Additive y) :
    Additive (if c then x else y) := by
  split
  · exact hx
  · exact hy

end Additive

/-- An instruction only adds. -/
theorem emit_additive (instr : Instr) : Additive (emit instr) := by
  intro s u t h hs
  obtain rfl := emit_ok.1 h
  exact ⟨grows_emit hs instr, fun _ ht => tidy_emit hs ht instr, rfl⟩

/-- A name that is handed out only adds. -/
theorem unique_additive (base : String) : Additive (unique base) := by
  intro s name t h hs
  obtain ⟨-, rfl⟩ := unique_ok.1 h
  exact ⟨grows_unique hs base, fun _ ht => (tidy_unique ht base).tail, rfl⟩

/-- A definition only adds. -/
theorem define_additive (definition : Definition) : Additive (define definition) := by
  unfold define
  refine Additive.bind ?_ fun index => (emit_additive _).bind fun _ => Additive.pure _
  intro s index t h hs
  obtain ⟨-, rfl⟩ := build_ok.1 h
  exact ⟨grows_freshTemp hs, fun _ ht => ⟨ht.nodup, ht.taken⟩, rfl⟩

/-- A slot that is reserved only adds. -/
theorem alloca_additive (base : String) (ty : IR.Ty) : Additive (alloca base ty) :=
  (unique_additive base).bind fun _ => (emit_additive _).bind fun _ => Additive.pure _

/-- The conversion of a value that has to be computed. -/
def recast (value : Value) (target : IR.Ty) : Lower Value :=
  if value.ty.isFloating || target.isFloating then
    fail (.notImplemented (.conversion value.ty target))
  else if target = .i1 then define (.compare .ne value (.constant value.ty "0"))
  else
    let op : IR.Cast :=
      if target.bits < value.ty.bits then .trunc
      else if value.ty = .i1 then .zext
      else .sext
    define (.cast op value target)

/-- A value that is converted has the type already, is a constant written anew, or
is recast by an instruction. -/
theorem convert_eq (value : Value) (target : IR.Ty) :
    convert value target
      = if value.ty = target then pure value
        else
          match value with
          | .constant _ text => liftM (retype text value.ty target)
          | value => recast value target := by
  cases value <;> rfl

/-- Whether a relation holds across all that an expression adds, which are
definitions and stores. -/
structure Across (R : State → State → Prop) : Prop where
  refl : ∀ s, R s s
  trans : ∀ s t u, R s t → R t u → R s u
  define : ∀ definition, Keeps R (define definition)
  store : ∀ value slot, Keeps R (emit (.store value slot))

namespace Across

variable {R : State → State → Prop} {α β : Type} (h : Across R)

include h

theorem bind {x : Lower α} {f : α → Lower β} (hx : Keeps R x) (hf : ∀ a, Keeps R (f a)) :
    Keeps R (x >>= f) :=
  Keeps.bind h.trans hx hf

theorem pure (a : α) : Keeps R (pure a : Lower α) := by
  intro s b t hstep
  obtain ⟨-, rfl⟩ := pure_ok.1 hstep
  exact h.refl s

omit h in
theorem fail (e : LowerError) : Keeps R (fail e : Lower α) :=
  fun _ _ _ hstep => (fail_ok.1 hstep).elim

theorem lift (x : Except LowerError α) : Keeps R (liftM x : Lower α) := by
  intro s a t hstep
  obtain ⟨-, rfl⟩ := lift_ok.1 hstep
  exact h.refl s

omit h in
theorem ite {c : Prop} [Decidable c] {x y : Lower α} (hx : Keeps R x) (hy : Keeps R y) :
    Keeps R (if c then x else y) := by
  split
  · exact hx
  · exact hy

end Across

section Across

variable {R : State → State → Prop} (h : Across R) (globals : List (String × Slot))

include h

/-- A conversion is at most a definition. -/
theorem convert_across (value : Value) (target : IR.Ty) : Keeps R (convert value target) := by
  have hrecast : ∀ value : Value, Keeps R (recast value target) := fun value =>
    Across.ite (Across.fail _) (Across.ite (h.define _) (h.define _))
  rw [convert_eq]
  refine Across.ite (h.pure _) ?_
  cases value with
  | constant ty text => exact h.lift _
  | temp ty index => exact hrecast _
  | argument ty name => exact hrecast _

/-- A store is a conversion and the instruction. -/
theorem store_across (value : Value) (slot : Slot) : Keeps R (store value slot) :=
  h.bind (convert_across h value slot.ty) fun _ => h.bind (h.store _ _) fun _ => h.pure _

theorem storage_across (name : String) : Keeps R (storage globals name) := by
  intro s slot t hstep
  obtain ⟨-, rfl⟩ := storage_ok.1 hstep
  exact h.refl t

/-- Bringing two operands to one type converts at most one. -/
theorem meet_across (lhs rhs : Value) : Keeps R (meet lhs rhs) := by
  unfold meet
  refine Across.ite (Across.fail _) (Across.ite (Across.fail _) ?_)
  exact h.bind (convert_across h _ _) fun _ => h.bind (convert_across h _ _) fun _ => h.pure _

/-- Arithmetic is its conversions and one definition. -/
theorem arith_across (op : Arith) (lhs rhs : Value) : Keeps R (arith op lhs rhs) :=
  h.bind (meet_across h lhs rhs) fun _ => h.define _

/-- A comparison is its conversions and one definition. -/
theorem compare_across (op : Comparison) (lhs rhs : Value) : Keeps R (compare op lhs rhs) :=
  h.bind (meet_across h lhs rhs) fun _ => h.define _

theorem target_across (e : MiniC.Expr) : Keeps R (target globals e) := by
  cases e with
  | ident i => exact storage_across h globals i.name
  | _ => exact Across.fail _

theorem stepTarget_across (e : MiniC.Expr) : Keeps R (stepTarget globals e) := by
  cases e with
  | ident i => exact storage_across h globals i.name
  | _ => exact Across.fail _

/-- A step reads, adds one and stores. -/
theorem step_across (op : Arith) (fixity : Fixity) (slot : Slot) :
    Keeps R (step op fixity slot) := by
  refine h.bind (h.define _) fun _ => h.bind (arith_across h _ _ _) fun _ =>
    h.bind (store_across h _ _) fun _ => ?_
  cases fixity <;> exact h.pure _

/-- What definitions and stores keep is kept by expressions. -/
theorem expr_across (e : MiniC.Expr) : Keeps R (expr globals e) := by
  induction e with
  | number lit => exact h.lift _
  | ident i => exact h.bind (storage_across h globals i.name) fun _ => h.define _
  | string _ => exact Across.fail _
  | member _ _ _ _ => exact Across.fail _
  | binary op lhs rhs constant operandsMatch pos ihl ihr =>
      unfold expr
      refine Across.ite (h.bind (h.lift _) fun _ => h.lift _) ?_
      have hright : ∀ {left : Value} {next : Value → Lower Value}, (∀ v, Keeps R (next v)) →
          Keeps R (do
            let right ← if operandsMatch then Pure.pure left else expr globals rhs
            next right) := by
        intro left next hnext
        exact Across.ite (h.bind (h.pure left) hnext) (h.bind ihr hnext)
      cases op with
      | assign =>
          exact h.bind (target_across h globals lhs) fun _ => h.bind ihr fun _ =>
            store_across h _ _
      | compound op =>
          refine h.bind (target_across h globals lhs) fun _ => h.bind (h.define _) fun _ => ?_
          exact hright fun _ => h.bind (arith_across h _ _ _) fun _ => store_across h _ _
      | arith op => exact h.bind ihl fun _ => hright fun _ => arith_across h _ _ _
      | compare op => exact h.bind ihl fun _ => hright fun _ => compare_across h _ _ _
  | unary op fixity operand pos ih =>
      cases op with
      | plus => exact h.bind ih fun _ => arith_across h _ _ _
      | minus => exact h.bind ih fun _ => arith_across h _ _ _
      | not => exact h.bind ih fun _ => h.define _
      | incr => exact h.bind (stepTarget_across h globals operand) fun _ => step_across h _ _ _
      | decr => exact h.bind (stepTarget_across h globals operand) fun _ => step_across h _ _ _

/-- What definitions and stores keep is kept by conditions. -/
theorem condition_across (e : MiniC.Expr) : Keeps R (condition globals e) :=
  h.bind (expr_across h globals e) fun _ => convert_across h _ _

end Across

-- ================================================== what expressions add

/-- Definitions and stores only add. -/
theorem across_adds : Across fun s t => s.Started → Adds s t where
  refl _ hs := .refl hs
  trans _ _ _ h h' hs := (h hs).trans (h' (h hs).grows.started)
  define := define_additive
  store _ _ := emit_additive _

theorem convert_additive (value : Value) (target : IR.Ty) :
    Additive (convert value target) :=
  convert_across across_adds value target

theorem store_additive (value : Value) (slot : Slot) : Additive (store value slot) :=
  store_across across_adds value slot

theorem arith_additive (op : Arith) (lhs rhs : Value) : Additive (arith op lhs rhs) :=
  arith_across across_adds op lhs rhs

theorem compare_additive (op : Comparison) (lhs rhs : Value) : Additive (compare op lhs rhs) :=
  compare_across across_adds op lhs rhs

/-- An expression only adds to the function. -/
theorem expr_additive (globals : List (String × Slot)) (e : MiniC.Expr) :
    Additive (expr globals e) :=
  expr_across across_adds globals e

/-- A condition only adds to the function. -/
theorem condition_additive (globals : List (String × Slot)) (e : MiniC.Expr) :
    Additive (condition globals e) :=
  condition_across across_adds globals e

end MiniC.Lowering
