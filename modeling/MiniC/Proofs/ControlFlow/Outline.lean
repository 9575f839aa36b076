/-
The code of statements in structured form. Code generation gives a list of
lines in which loops and choices have become labels and jumps; the outline
of a statement is the same code with the choices and loops still in it,
each with the labels it was given.

# Why outlines

Which lines belong to a loop cannot be seen from the lines. `Flow` keeps what the
generator knew: a fork has the labels of its other side and of its end, and says
whether the end is its own to close, which in a chain of ifs only the first arm does; a
cycle has the labels of its body and of its test. The instructions of expressions and
the epilogue of a return are taken as they are.

# Flattening

`Flow.flatten` turns an outline into lines, with the jump behind the first side left
out where that side ends in an epilogue. Generating a statement is generating its
outline and flattening it (`stmts_eq_outline`): both go through the same steps in the
same order, so they hand out the same labels and fail alike. What the labels and jumps
do is then a matter of outlines alone, and the generator need not be looked at again.

# Taken apart

An outline that was generated is divided at its stages by the lemmas that end in
`_ok`, one for each form that folding leaves. Consumed by the proofs about labels and
about control flow.
-/
import MiniC.Proofs.Codegen.Steps

namespace MiniC.Codegen

open Asm Steps

-- ============================================================= outlines

/-- A piece of structured code. A fork takes its first way when the test
right before it holds and its second way when not: `other` is the label of
the second way, if it has one, `done` the label behind both, which the fork
defines itself if it is `closed`. A cycle runs its body as long as its test
holds, without a test for ever. -/
inductive Flow where
  | insn (i : Instr)
  | leave
  | fork (other : Option Nat) (done : Nat) (closed : Bool) (first second : List Flow)
  | cycle (test : Option Code) (enter check : Nat) (body : List Flow)

/-- An outline: pieces of structured code in a row. -/
abbrev Outline : Type := List Flow

namespace Flow

/-- Instructions as an outline. -/
def ofCode (code : Code) : Outline := code.map .insn

/-- The jump over the second way of a fork, which lines that end in an
epilogue do not need. -/
def skip (done : Nat) (first : Lines) : Lines :=
  if endsInEpilogue first then [] else [.jump .jmp done]

/-- The lines at the bottom of a cycle. -/
def bottom (enter : Nat) : Option Code → Lines
  | none => [.jump .jmp enter]
  | some code => lines code ++ [.jump .jne enter]

/-- The definition of a label, if it is to be defined. -/
def ending (done : Nat) (closed : Bool) : Lines := if closed then [.label done] else []

mutual

/-- The lines of a piece. -/
def flat : Flow → Lines
  | .insn i => [.insn i]
  | .leave => [.epilogue]
  | .fork none done closed first _ => .jump .je done :: flatten first ++ ending done closed
  | .fork (some other) done closed first second =>
    .jump .je other :: flatten first ++ skip done (flatten first)
      ++ .label other :: flatten second ++ ending done closed
  | .cycle test enter check body =>
    .jump .jmp check :: .label enter :: flatten body ++ .label check :: bottom enter test

/-- The lines of an outline. -/
def flatten : Outline → Lines
  | [] => []
  | f :: rest => flat f ++ flatten rest

end

mutual

/-- Whether every way through a piece leaves the function. -/
def leaves : Flow → Bool
  | .insn _ => false
  | .leave => true
  | .fork _ _ _ first second => anyLeaves first && anyLeaves second
  | .cycle _ _ _ _ => false

/-- Whether one of the pieces leaves the function on every way. -/
def anyLeaves : Outline → Bool
  | [] => false
  | f :: rest => leaves f || anyLeaves rest

end

@[simp] theorem flatten_nil : flatten [] = [] := by
  rw [flatten]

@[simp] theorem flatten_cons (f : Flow) (rest : Outline) :
    flatten (f :: rest) = flat f ++ flatten rest := by
  rw [flatten]

@[simp] theorem flatten_append (a b : Outline) :
    flatten (a ++ b) = flatten a ++ flatten b := by
  induction a with
  | nil => rfl
  | cons f rest ih =>
      rw [List.cons_append, flatten_cons, flatten_cons, ih, List.append_assoc]

@[simp] theorem flatten_ofCode (code : Code) : flatten (ofCode code) = lines code := by
  induction code with
  | nil => rfl
  | cons i code ih =>
      show flatten (.insn i :: ofCode code) = _
      rw [flatten_cons, ih, flat]
      rfl

/-- A fork without another side jumps over its only one. -/
theorem flatten_fork_none (code : Code) (done : Nat) (closed : Bool) (first : Outline) :
    flatten (ofCode code ++ [.fork none done closed first []])
      = lines code ++ [.jump .je done] ++ flatten first ++ ending done closed := by
  rw [flatten_append, flatten_ofCode, flatten_cons, flatten_nil, flat]
  simp only [List.append_nil, List.cons_append, List.append_assoc, List.nil_append]

/-- A fork with another side jumps there, and over it behind the first. -/
theorem flatten_fork_some (code : Code) (other done : Nat) (closed : Bool)
    (first second : Outline) :
    flatten (ofCode code ++ [.fork (some other) done closed first second])
      = lines code ++ [.jump .je other] ++ flatten first ++ skip done (flatten first)
        ++ [.label other] ++ flatten second ++ ending done closed := by
  rw [flatten_append, flatten_ofCode, flatten_cons, flatten_nil, flat]
  simp only [List.append_nil, List.cons_append, List.append_assoc, List.nil_append]

/-- A cycle starts at its test. -/
theorem flatten_cycle (test : Option Code) (enter check : Nat) (body : Outline) :
    flatten [.cycle test enter check body]
      = [.jump .jmp check, .label enter] ++ flatten body ++ [.label check]
        ++ bottom enter test := by
  rw [flatten_cons, flatten_nil, flat]
  simp only [List.append_nil, List.cons_append, List.append_assoc, List.nil_append]

@[simp] theorem anyLeaves_nil : anyLeaves [] = false := by
  rw [anyLeaves]

@[simp] theorem anyLeaves_cons (f : Flow) (rest : Outline) :
    anyLeaves (f :: rest) = (leaves f || anyLeaves rest) := by
  rw [anyLeaves]

@[simp] theorem anyLeaves_append (a b : Outline) :
    anyLeaves (a ++ b) = (anyLeaves a || anyLeaves b) := by
  induction a with
  | nil => rfl
  | cons f rest ih =>
      rw [List.cons_append, anyLeaves_cons, anyLeaves_cons, ih, Bool.or_assoc]

@[simp] theorem anyLeaves_ofCode (code : Code) : anyLeaves (ofCode code) = false := by
  induction code with
  | nil => rfl
  | cons i code ih =>
      show anyLeaves (.insn i :: ofCode code) = _
      rw [anyLeaves_cons, ih, leaves]
      rfl

end Flow

-- ================================================ outlines of statements

/-- Runs a step in a scope of its own, whatever it answers. -/
def inside {α : Type} (step : Gen α) : Gen α := do
  framed fun f => ((), f.pushScope)
  let a ← step
  framed fun f => ((), f.popScope)
  return a

variable (env : Env)

/-- The outline of a return. -/
def outlineRet (value : Option Expr) : Gen Outline := do
  match value with
  | none => return [.leave]
  | some e =>
    let ty := env.returnType
    if ty = .void then fail (.notReachable .voidReturn)
    else if ty.isFloating then fail (.notImplemented .floatingReturn)
    else
      let code ← evalTo env e (eval env e) ty
      return Flow.ofCode code ++ [.leave]

/-- The outline of a local variable. -/
def outlineVariable (decl : VariableDecl) : Gen Outline := do
  let (size, align) ← env.program.sizeAlign decl.ty
  let offset ← framed? fun f => f.alloc? size align
  let code ←
    match decl.init with
    | none => pure []
    | some init =>
      match decl.ty with
      | .named _ => fail (.notImplemented .aggregateInitializer)
      | ty => storeValue env (.stack offset) ty init (eval env init)
  framed fun f => ((), f.bind decl.name ⟨offset, decl.ty⟩)
  return Flow.ofCode code

mutual

/-- The outline of a statement. -/
def outline : Stmt → Gen Outline
  | .block body => inside (outlines body)
  | .branch arm => outlineArm none arm
  | .loop e body _ => do
    let never ← if e.isConstant then GenError.liftEval e.foldsToZero else pure false
    if never then return []
    else
      let enter ← freshLabel
      let check ← freshLabel
      let inner ← inside (outlines body)
      let test ← if e.isConstant then pure none else some <$> test env e
      return [.cycle test enter check inner]
  | .ret value _ => outlineRet env value
  | .variable decl => outlineVariable env decl
  | .expr e => Flow.ofCode <$> effect env e
  | .function _ => fail (.notReachable .nestedDeclaration)
  | .aggregate _ => fail (.notReachable .nestedDeclaration)

/-- The outline of statements in order. -/
def outlines : List Stmt → Gen Outline
  | [] => return []
  | s :: rest => do
    let first ← outline s
    let others ← outlines rest
    return first ++ others

/-- The outline of an if chain from an arm on, given the label behind it if
there is an arm before. -/
def outlineArm : Option Nat → Arm → Gen Outline
  | shared, ⟨e, consequent, alternate, pos⟩ => do
    if e.isConstant then
      let zero ← GenError.liftEval e.foldsToZero
      if zero then outlineOther shared alternate else inside (outlines consequent)
    else
      let done ←
        match shared with
        | some done => pure done
        | none => freshLabel
      let closed := shared.isNone && !armReturns ⟨e, consequent, alternate, pos⟩
      match alternate with
      | .none =>
        let code ← test env e
        let first ← inside (outlines consequent)
        return Flow.ofCode code ++ [.fork none done closed first []]
      | alternate =>
        let other ← freshLabel
        let code ← test env e
        let first ← inside (outlines consequent)
        let second ← outlineOther (some done) alternate
        return Flow.ofCode code ++ [.fork (some other) done closed first second]

/-- The outline of what an arm leads to when its condition fails. -/
def outlineOther : Option Nat → Alternate → Gen Outline
  | _, .none => return []
  | _, .block body => inside (outlines body)
  | shared, .elseIf arm => outlineArm shared arm

end

-- ================================================ flattening an outline

variable {env}

/-- A scope is left after what was read in it, dressed up or not. -/
theorem inScope_map {α : Type} (f : α → Lines) (step : Gen α) :
    inScope (f <$> step) = f <$> inside step := by
  unfold inScope inside
  simp only [map_bind, bind_map_left, map_pure]

/-- A return is its outline, flattened. -/
theorem ret_eq_outline (value : Option Expr) :
    ret env value = Flow.flatten <$> outlineRet env value := by
  unfold ret outlineRet
  cases value with
  | none => rfl
  | some e =>
      simp only
      split
      · rfl
      · split
        · rfl
        · simp only [map_bind, map_pure, Flow.flatten_append, Flow.flatten_ofCode]
          rfl

/-- A variable is its outline, flattened. -/
theorem variableDecl_eq_outline (decl : VariableDecl) :
    variableDecl env decl = Flow.flatten <$> outlineVariable env decl := by
  unfold variableDecl outlineVariable
  simp only [map_bind]
  refine bind_congr fun size => bind_congr fun offset => ?_
  cases decl.init with
  | none => simp only [map_bind, map_pure, Flow.flatten_ofCode]
  | some init => cases decl.ty <;> simp only [map_bind, map_pure, Flow.flatten_ofCode]

mutual

/-- Generating a statement is generating its outline and flattening it. -/
theorem stmt_eq_outline : ∀ s : Stmt, stmt env s = Flow.flatten <$> outline env s
  | .block body => by
      unfold stmt outline
      rw [stmts_eq_outline body, inScope_map]
  | .branch arm => by
      unfold stmt outline
      exact ifArm_eq_outline none arm
  | .loop e body _ => by
      unfold stmt outline
      simp only [stmts_eq_outline body, inScope_map]
      cases e.isConstant with
      | true =>
          simp only [if_true, map_bind, bind_map_left, pure_bind]
          refine bind_congr fun never => ?_
          cases never with
          | true => rfl
          | false =>
              simp only [Bool.false_eq_true, if_false, map_bind, map_pure, Flow.flatten_cycle]
              rfl
      | false =>
          simp only [Bool.false_eq_true, if_false, map_bind, bind_map_left, pure_bind, map_pure,
            Flow.flatten_cycle]
          rfl
  | .ret value _ => by
      unfold stmt outline
      exact ret_eq_outline value
  | .variable decl => by
      unfold stmt outline
      exact variableDecl_eq_outline decl
  | .expr e => by
      unfold stmt outline
      simp only [Functor.map_map, Flow.flatten_ofCode]
  | .function _ => by
      unfold stmt outline
      rfl
  | .aggregate _ => by
      unfold stmt outline
      rfl

/-- Generating statements is generating their outline and flattening it. -/
theorem stmts_eq_outline :
    ∀ body : List Stmt, stmts env body = Flow.flatten <$> outlines env body
  | [] => by
      unfold stmts outlines
      rfl
  | s :: rest => by
      unfold stmts outlines
      rw [stmt_eq_outline s, stmts_eq_outline rest]
      simp only [map_bind, bind_map_left, map_pure, Flow.flatten_append]

theorem ifArm_eq_outline :
    ∀ (shared : Option Nat) (arm : Arm),
      ifArm env shared arm = Flow.flatten <$> outlineArm env shared arm
  | shared, ⟨e, consequent, alternate, pos⟩ => by
      have hfirst := stmts_eq_outline consequent
      have hother := fun shared => otherwise_eq_outline shared alternate
      unfold ifArm outlineArm
      simp only [hfirst, inScope_map, hother]
      cases e.isConstant with
      | true =>
          simp only [if_true, map_bind]
          refine bind_congr fun zero => ?_
          cases zero <;> rfl
      | false =>
          -- the end label is fresh or given; what follows is the same
          simp only [Bool.false_eq_true, if_false]
          cases shared <;> cases alternate <;>
            simp only [map_bind, bind_map_left, pure_bind, map_pure, hother,
              Flow.flatten_fork_none, Flow.flatten_fork_some] <;>
            rfl

theorem otherwise_eq_outline :
    ∀ (shared : Option Nat) (alternate : Alternate),
      otherwise env shared alternate = Flow.flatten <$> outlineOther env shared alternate
  | _, .none => by
      unfold otherwise outlineOther
      rfl
  | _, .block body => by
      unfold otherwise outlineOther
      rw [stmts_eq_outline body, inScope_map]
  | shared, .elseIf arm => by
      unfold otherwise outlineOther
      exact ifArm_eq_outline shared arm

end

-- ================================================ outlines taken apart

/-- A scope is popped that was pushed. -/
theorem inside_ok {α : Type} {step : Gen α} {s t : State} {a : α} :
    inside step s = .ok (a, t) ↔
      ∃ u, step { s with frame := s.frame.pushScope } = .ok (a, u)
        ∧ t = { u with frame := u.frame.popScope } := by
  unfold inside
  exact scoped_ok

/-- The outline of a return ends in leaving and has nothing but
instructions before. -/
theorem outlineRet_ok {value : Option Expr} {s t : State} {o : Outline}
    (h : outlineRet env value s = .ok (o, t)) :
    Calm s t ∧ ∃ code, o = Flow.ofCode code ++ [.leave] := by
  unfold outlineRet at h
  cases value with
  | none =>
      obtain ⟨rfl, rfl⟩ := pure_ok.1 h
      exact ⟨Calm.refl _, [], rfl⟩
  | some e =>
      simp only at h
      split at h
      · exact (fail_ok.1 h).elim
      · split at h
        · exact (fail_ok.1 h).elim
        · obtain ⟨code, u, hcode, hpure⟩ := bind_ok.1 h
          obtain ⟨rfl, rfl⟩ := pure_ok.1 hpure
          exact ⟨evalTo_quiet (eval_quiet env e) _ _ _ _ hcode, code, rfl⟩

/-- The outline of statements in sequence is that of the first and then those of
the others. -/
theorem outlines_cons_ok {st : Stmt} {rest : List Stmt} {s t : State} {o : Outline}
    (h : outlines env (st :: rest) s = .ok (o, t)) :
    ∃ first others u, outline env st s = .ok (first, u)
      ∧ outlines env rest u = .ok (others, t) ∧ o = first ++ others := by
  unfold outlines at h
  simp only [bind_ok, pure_ok] at h
  obtain ⟨first, u, hfirst, others, v, hothers, rfl, rfl⟩ := h
  exact ⟨first, others, u, hfirst, hothers, rfl⟩

/-- A function inside a function has no outline. -/
theorem outline_function {decl : FunctionDecl} {s t : State} {o : Outline} :
    outline env (.function decl) s ≠ .ok (o, t) := by
  intro h
  unfold outline at h
  exact (fail_ok.1 h).elim

/-- Nor has an aggregate. -/
theorem outline_aggregate {decl : AggregateDecl} {s t : State} {o : Outline} :
    outline env (.aggregate decl) s ≠ .ok (o, t) := by
  intro h
  unfold outline at h
  exact (fail_ok.1 h).elim

/-- What becomes of a loop: nothing, if its condition folds to zero, else a
cycle with two labels of its own. -/
theorem outline_loop_ok {e : Expr} {body : List Stmt} {pos : Position} {s t : State}
    {o : Outline} (h : outline env (.loop e body pos) s = .ok (o, t)) :
    (e.isConstant = true ∧ e.foldsToZero = .ok true ∧ o = [] ∧ t = s)
      ∨ ∃ enter check test inner u v w,
          (e.isConstant = true → e.foldsToZero = .ok false)
          ∧ freshLabel s = .ok (enter, u) ∧ freshLabel u = .ok (check, v)
          ∧ inside (outlines env body) v = .ok (inner, w)
          ∧ ((e.isConstant = true ∧ test = none ∧ t = w)
            ∨ (e.isConstant = false ∧ ∃ code, MiniC.Codegen.test env e w = .ok (code, t)
              ∧ test = some code))
          ∧ o = [.cycle test enter check inner] := by
  unfold outline at h
  cases hc : e.isConstant with
  | true =>
      simp only [hc, if_true, bind_ok, lift_ok, liftEval_ok] at h
      obtain ⟨never, _, ⟨hnever, rfl⟩, h⟩ := h
      cases never with
      | true =>
          obtain ⟨rfl, rfl⟩ := pure_ok.1 h
          exact Or.inl ⟨rfl, hnever, rfl, rfl⟩
      | false =>
          simp only [Bool.false_eq_true, if_false, bind_ok, pure_ok] at h
          obtain ⟨enter, u, henter, check, v, hcheck, inner, w, hinner, _, _, ⟨rfl, rfl⟩, rfl, rfl⟩
            := h
          exact Or.inr ⟨enter, check, none, inner, u, v, _, fun _ => hnever, henter, hcheck,
            hinner, Or.inl ⟨rfl, rfl, rfl⟩, rfl⟩
  | false =>
      simp only [hc, Bool.false_eq_true, if_false, bind_ok, pure_ok] at h
      obtain ⟨_, _, ⟨rfl, rfl⟩, h⟩ := h
      simp only [Bool.false_eq_true, if_false, bind_ok, pure_ok, map_ok] at h
      obtain ⟨enter, u, henter, check, v, hcheck, inner, w, hinner, _, _, ⟨code, hcode, rfl⟩,
        rfl, rfl⟩ := h
      exact Or.inr ⟨enter, check, some code, inner, u, v, w, fun hf => absurd hf (by simp),
        henter, hcheck, hinner, Or.inr ⟨rfl, code, hcode, rfl⟩, rfl⟩

/-- What becomes of an arm whose condition folds. -/
theorem outlineArm_constant_ok {shared : Option Nat} {e : Expr} {consequent : List Stmt}
    {alternate : Alternate} {pos : Position} {s t : State} {o : Outline}
    (hc : e.isConstant = true)
    (h : outlineArm env shared ⟨e, consequent, alternate, pos⟩ s = .ok (o, t)) :
    (e.foldsToZero = .ok true ∧ outlineOther env shared alternate s = .ok (o, t))
      ∨ (e.foldsToZero = .ok false ∧ inside (outlines env consequent) s = .ok (o, t)) := by
  unfold outlineArm at h
  simp only [hc, if_true, bind_ok, lift_ok, liftEval_ok] at h
  obtain ⟨zero, _, ⟨hzero, rfl⟩, h⟩ := h
  cases zero with
  | true => exact Or.inl ⟨hzero, h⟩
  | false => exact Or.inr ⟨hzero, h⟩

/-- The end label of an arm whose condition does not fold: given, or fresh. -/
def EndLabel (shared : Option Nat) (s : State) (done : Nat) (u : State) : Prop :=
  (shared = some done ∧ u = s) ∨ (shared = none ∧ freshLabel s = .ok (done, u))

/-- What becomes of an arm whose condition does not fold: a fork behind its
test, with or without a second way. -/
theorem outlineArm_open_ok {shared : Option Nat} {e : Expr} {consequent : List Stmt}
    {alternate : Alternate} {pos : Position} {s t : State} {o : Outline}
    (hc : e.isConstant = false)
    (h : outlineArm env shared ⟨e, consequent, alternate, pos⟩ s = .ok (o, t)) :
    ∃ done code first closed u,
      closed = (shared.isNone && !armReturns ⟨e, consequent, alternate, pos⟩)
      ∧ EndLabel shared s done u
      ∧ ((alternate = .none ∧ ∃ v, MiniC.Codegen.test env e u = .ok (code, v)
            ∧ inside (outlines env consequent) v = .ok (first, t)
            ∧ o = Flow.ofCode code ++ [.fork none done closed first []])
        ∨ (alternate ≠ .none ∧ ∃ other second v w x, freshLabel u = .ok (other, v)
            ∧ MiniC.Codegen.test env e v = .ok (code, w)
            ∧ inside (outlines env consequent) w = .ok (first, x)
            ∧ outlineOther env (some done) alternate x = .ok (second, t)
            ∧ o = Flow.ofCode code ++ [.fork (some other) done closed first second])) := by
  unfold outlineArm at h
  simp only [hc, Bool.false_eq_true, if_false] at h
  cases shared <;> cases alternate <;>
    simp only [bind_ok, pure_ok] at h
  case none.none =>
    obtain ⟨done, u, hdone, code, v, hcode, first, w, hfirst, rfl, rfl⟩ := h
    exact ⟨done, code, first, _, u, rfl, Or.inr ⟨rfl, hdone⟩,
      Or.inl ⟨rfl, v, hcode, hfirst, rfl⟩⟩
  case some.none given =>
    obtain ⟨done, u, ⟨rfl, rfl⟩, code, v, hcode, first, w, hfirst, rfl, rfl⟩ := h
    exact ⟨given, code, first, _, s, rfl, Or.inl ⟨rfl, rfl⟩,
      Or.inl ⟨rfl, v, hcode, hfirst, rfl⟩⟩
  case none.block body =>
    obtain ⟨done, u, hdone, other, v, hother, code, w, hcode, first, x, hfirst, second, y,
      hsecond, rfl, rfl⟩ := h
    exact ⟨done, code, first, _, u, rfl, Or.inr ⟨rfl, hdone⟩,
      Or.inr ⟨nofun, other, second, v, w, x, hother, hcode, hfirst, hsecond, rfl⟩⟩
  case none.elseIf arm =>
    obtain ⟨done, u, hdone, other, v, hother, code, w, hcode, first, x, hfirst, second, y,
      hsecond, rfl, rfl⟩ := h
    exact ⟨done, code, first, _, u, rfl, Or.inr ⟨rfl, hdone⟩,
      Or.inr ⟨nofun, other, second, v, w, x, hother, hcode, hfirst, hsecond, rfl⟩⟩
  case some.block given body =>
    obtain ⟨done, u, ⟨rfl, rfl⟩, other, v, hother, code, w, hcode, first, x, hfirst, second, y,
      hsecond, rfl, rfl⟩ := h
    exact ⟨given, code, first, _, s, rfl, Or.inl ⟨rfl, rfl⟩,
      Or.inr ⟨nofun, other, second, v, w, x, hother, hcode, hfirst, hsecond, rfl⟩⟩
  case some.elseIf given arm =>
    obtain ⟨done, u, ⟨rfl, rfl⟩, other, v, hother, code, w, hcode, first, x, hfirst, second, y,
      hsecond, rfl, rfl⟩ := h
    exact ⟨given, code, first, _, s, rfl, Or.inl ⟨rfl, rfl⟩,
      Or.inr ⟨nofun, other, second, v, w, x, hother, hcode, hfirst, hsecond, rfl⟩⟩

/-- What becomes of a function's body: the outline of its statements between
the spills and what a body ends with that may fall off its end. -/
theorem bodyLines_ok {decl : FunctionDecl} {s t : State} {ls : Lines}
    (h : bodyLines env decl s = .ok (ls, t)) :
    ∃ spills o u, spillAll decl.params s = .ok (spills, u)
      ∧ outlines env decl.body u = .ok (o, t)
      ∧ ls = lines spills ++ Flow.flatten o ++ fallOff decl.body := by
  unfold bodyLines at h
  rw [stmts_eq_outline] at h
  simp only [bind_ok, map_ok, get_ok] at h
  obtain ⟨spills, u, hspills, body, v, ⟨o, ho, rfl⟩, _, _, ⟨rfl, rfl⟩, h⟩ := h
  split at h
  · exact (fail_ok.1 h).elim
  · obtain ⟨rfl, rfl⟩ := pure_ok.1 h
    exact ⟨spills, o, u, hspills, ho, rfl⟩

/-- What becomes of a function: its body in a frame. -/
theorem function_ok {program : Program} {types : List (String × Ty)} {noRedZone : Bool}
    {strings strings' : StringPool} {decl : FunctionDecl} {ls : Lines}
    (h : function program types noRedZone strings decl = .ok (ls, strings')) :
    ∃ body t reserved,
      bodyLines ⟨program, types, decl.returnType⟩ decl ⟨.empty, strings⟩ = .ok (body, t)
      ∧ ls = withFrame reserved body := by
  unfold function at h
  obtain ⟨⟨body, t⟩, hbody, h⟩ := except_bind_ok.1 h
  obtain ⟨reserved, -, h⟩ := except_bind_ok.1 h
  cases h
  exact ⟨body, t, reserved, hbody, rfl⟩

end MiniC.Codegen
