/-
Generated statements follow the source. Where the source runs a statement to
its end, the outline of the statement, run from a machine that holds the
variables, comes to its end with the variables as the source leaves them, or
leaves the function with the value that the source returns
(`outlines_perform`). Nothing is said of runs that the source does not end.

# Outlines

An outline keeps forks and loops as what they are, with no labels, so a run of
one follows the structure of the source; that the lines with their jumps do the
same is proved once, in `ControlFlow`. `Performs` is stated for every outline
that may stand behind, which is how statements in sequence compose
(`Performs.onward`).

# Frames

Code is generated once for both ways of a fork and for all rounds of a
loop, so the frame that generation has come to may be ahead of the frame that
the machine has come to; since blocks close what they open, the two have the
same scopes, and what the machine holds depends on those alone (`Meets.move`).

# The induction

The induction is on the statement, and in a loop on the rounds that the source
takes (`rounds_perform`). Each leaf uses the simulation of its expression: the
machine that an expression leaves meets the store that the source leaves
(`Meets.exec`, `Meets.test`).
Consumed by the proof that generated functions follow the source.
-/
import MiniC.Proofs.Codegen.Marks
import MiniC.Proofs.Codegen.Variables
import MiniC.Proofs.ControlFlow.Execution

namespace MiniC.Codegen

open Asm Steps Machine Machine.Machine Source Flow

-- =============================================================== meeting

/-- Whether a machine holds a store in the frame that code generation has
come to, with the stack where another machine has it. -/
structure Meets (env : Env) (base : Machine) (s : State) (store : Store) (m : Machine) :
    Prop where
  frame : s.frame.Reached env.program
  holds : Holds env s.frame store m
  rsp : m.regs .rsp = base.regs .rsp
  rbp : m.regs .rbp = base.regs .rbp

/-- Whether an expression is built by `combine`, and what folds in it folds to
numbers that fit their types. -/
structure Regular (e : Expr) : Prop where
  combined : e.Combined
  constants : ∀ c ∈ constants e, FoldFits c

/-- What a regular expression folds to fits. -/
theorem Regular.folds {e : Expr} (h : Regular e) (hconst : e.isConstant = true) : FoldFits e :=
  h.constants e (by rw [constants_of_constant hconst]; exact List.mem_cons_self)

variable {env : Env} {base : Machine} {depth room : Nat} {s t u : State} {store store' : Store}
  {m m' : Machine}

/-- It does not matter how deep the frame is. -/
theorem Meets.move (h : Meets env base s store m) (hscopes : t.frame.scopes = s.frame.scopes)
    (hreached : t.frame.Reached env.program) : Meets env base t store m :=
  ⟨hreached, h.holds.frame hscopes, h.rsp, h.rbp⟩

/-- An expression that the source evaluates over whole numbers is made of them. -/
theorem Meets.plain (h : Meets env base s store m) {e : Expr} (hregular : Regular e) {v : Value}
    (heval : Source.eval (cells env.globals) true e store = .ok (v, store')) :
    Plain env s.frame e :=
  h.holds.plain hregular.constants heval

/-- Where the source evaluates an expression, code that does the same runs to
its end. -/
theorem Meets.exec (h : Meets env base s store m) (hroom : Spacious depth room base) {α : Type}
    {e : Expr} {code : Code} {v : Value} {g : Value → α} {Q : α → Machine → Prop}
    (heval : Source.eval (cells env.globals) true e store = .ok (v, store'))
    (hcalm : Calm s t) (hdepth : t.frame.depth ≤ depth) (hpushes : pushes code ≤ room)
    (hcode : ∀ set m, Reads set e → Truthful set (view env s.frame m) →
      Ready env s.frame (pushes code) m →
      Simulates env s.frame (assigned e) code m (g <$> Source.eval refCells true e) Q) :
    ∃ m', Machine.Machine.exec code m = .ok m' ∧ Meets env base t store' m' ∧ Q (g v) m' := by
  have hready : Ready env s.frame (pushes code) m := by
    refine (hroom.congr h.rsp h.rbp).ready h.frame.sound ?_ hpushes
    rw [← hcalm.depth]
    exact hdepth
  obtain ⟨m', hexec, hholds, hrsp, hrbp, hq⟩ := h.holds.exec h.frame.sound heval hready hcode
  refine ⟨m', hexec, ⟨?_, hholds.frame hcalm.scopes, ?_, ?_⟩, hq⟩
  · exact h.frame.same hcalm.scopes hcalm.depth
  · exact hrsp.trans h.rsp
  · exact hrbp.trans h.rbp

/-- Where code computes the value of the expression, it is the source's. -/
theorem Meets.eval (h : Meets env base s store m) (hroom : Spacious depth room base) {e : Expr}
    {code : Code} {v : Value} {Q : Value → Machine → Prop}
    (heval : Source.eval (cells env.globals) true e store = .ok (v, store'))
    (hcalm : Calm s t) (hdepth : t.frame.depth ≤ depth) (hpushes : pushes code ≤ room)
    (hcode : ∀ set m, Reads set e → Truthful set (view env s.frame m) →
      Ready env s.frame (pushes code) m →
      Simulates env s.frame (assigned e) code m (Source.eval refCells true e) Q) :
    ∃ m', Machine.Machine.exec code m = .ok m' ∧ Meets env base t store' m' ∧ Q v m' := by
  refine h.exec hroom (g := id) heval hcalm hdepth hpushes ?_
  simpa only [id_map] using hcode

/-- The code of a condition leaves a zero flag that tells whether the source
finds it to fail. -/
theorem Meets.test (h : Meets env base s store m) (hroom : Spacious depth room base) {e : Expr}
    (hregular : Regular e) {holds : Bool}
    (htest : Source.test true env.globals e store = .ok (holds, store')) {code : Code}
    (hcode : test env e s = .ok (code, t)) (hdepth : t.frame.depth ≤ depth)
    (hpushes : pushes code ≤ room) :
    ∃ m' flags, Machine.Machine.exec code m = .ok m' ∧ Meets env base t store' m'
      ∧ m'.flags = some flags ∧ flags.zero = !holds := by
  obtain ⟨v, _, heval, hpure⟩ := bind_ok.1 htest
  obtain ⟨rfl, rfl⟩ := pure_ok.1 hpure
  obtain ⟨-, hsim⟩ := test_simulates h.frame.sound (h.plain hregular heval) rfl hcode
  obtain ⟨m', hexec, hmeets, flags, hflags, hzero⟩ :=
    h.eval hroom heval (test_quiet env e _ _ _ hcode) hdepth hpushes hsim
  refine ⟨m', flags, hexec, hmeets, hflags, hzero.trans ?_⟩
  by_cases hv : v.2 = 0 <;> simp [hv]

-- ============================================================ performing

/-- Whether a machine that leaves a function of a type has its value in
rax. -/
def Gives (ty : Ty) (value : Option Int) (m : Machine) : Prop :=
  ∀ n, value = some n → low (wordOf ty) (m.regs .rax) = n

/-- Whether an outline, run from a machine, comes to where a run of statements
has come: behind the outline, or out of the function. -/
def Performs (env : Env) (base : Machine) (o : Outline) (m : Machine) (t : State) :
    Outcome × Store → Prop
  | (.normal, store) =>
    ∃ m₁, Meets env base t store m₁ ∧ ∀ k m', Runs k m₁ m' → Runs (o ++ k) m m'
  | (.returned value, _) =>
    ∃ m', Gives env.returnType value m' ∧ ∀ k, Runs (o ++ k) m m'

/-- Whether the outlines that a step generates perform what a run of
statements does, wherever it comes to its end. -/
def Performer (env : Env) (base : Machine) (depth room : Nat) (step : Gen Outline)
    (run : Run Store Outcome) : Prop :=
  ∀ ⦃s o t store m r⦄, Meets env base s store m → step s = .ok (o, t) →
    t.frame.depth ≤ depth → linePushes (flatten o) ≤ room → run store = .ok r →
    Performs env base o m t r

variable {o o' : Outline} {r : Outcome × Store}

/-- Nothing to do. -/
theorem Performs.nil (h : Meets env base t store m) :
    Performs env base [] m t (.normal, store) :=
  ⟨m, h, fun _ _ hk => hk⟩

/-- Code in front of what performs. -/
theorem Performs.code {code : Code} (hcode : Machine.Machine.exec code m = .ok m')
    (h : Performs env base o m' t r) : Performs env base (ofCode code ++ o) m t r := by
  obtain ⟨outcome, store⟩ := r
  cases outcome with
  | normal =>
      obtain ⟨m₁, hmeets, hruns⟩ := h
      refine ⟨m₁, hmeets, fun k m'' hk => ?_⟩
      rw [List.append_assoc]
      exact Runs.code hcode (hruns k m'' hk)
  | returned value =>
      obtain ⟨m₁, hgives, hruns⟩ := h
      refine ⟨m₁, hgives, fun k => ?_⟩
      rw [List.append_assoc]
      exact Runs.code hcode (hruns k)

/-- What performs a run may be entered by a longer way. -/
theorem Performs.enter (h : Performs env base o m' t r)
    (henter : ∀ k m₁, Runs (o ++ k) m' m₁ → Runs (o' ++ k) m m₁) :
    Performs env base o' m t r := by
  obtain ⟨outcome, store⟩ := r
  cases outcome with
  | normal =>
      obtain ⟨m₁, hmeets, hruns⟩ := h
      exact ⟨m₁, hmeets, fun k m'' hk => henter k m'' (hruns k m'' hk)⟩
  | returned value =>
      obtain ⟨m₁, hgives, hruns⟩ := h
      exact ⟨m₁, hgives, fun k => henter k m₁ (hruns k)⟩

/-- What is performed does not depend on how deep the frame is. -/
theorem Performs.move (h : Performs env base o m t r)
    (hscopes : u.frame.scopes = t.frame.scopes) (hreached : u.frame.Reached env.program) :
    Performs env base o m u r := by
  obtain ⟨outcome, store⟩ := r
  cases outcome with
  | normal =>
      obtain ⟨m₁, hmeets, hruns⟩ := h
      exact ⟨m₁, hmeets.move hscopes hreached, hruns⟩
  | returned value => exact h

/-- One outline behind another performs the two runs in order, unless the
first one returns. -/
theorem Performs.onward {next : Run Store Outcome} {outcome : Outcome} {rest : Outline}
    (h : Performs env base o m t (outcome, store))
    (hrun : onward outcome next store = .ok r)
    (hnext : ∀ m₁, Meets env base t store m₁ → next store = .ok r →
      Performs env base rest m₁ u r) :
    Performs env base (o ++ rest) m u r := by
  cases outcome with
  | normal =>
      obtain ⟨m₁, hmeets, hruns⟩ := h
      refine (hnext m₁ hmeets hrun).enter fun k m₂ hk => ?_
      rw [List.append_assoc]
      exact hruns _ m₂ hk
  | returned value =>
      obtain ⟨outcome', store'⟩ := r
      obtain ⟨rfl, rfl⟩ := pure_ok.1 hrun
      obtain ⟨m₁, hgives, hruns⟩ := h
      refine ⟨m₁, hgives, fun k => ?_⟩
      rw [List.append_assoc]
      exact hruns _

-- ========================================================= simple leaves

/-- An expression is evaluated for its assignments. -/
theorem effect_performs (hroom : Spacious depth room base) {e : Expr} (hregular : Regular e) :
    Performer env base depth room (ofCode <$> effect env e) (do
      let _ ← Source.eval (cells env.globals) true e
      return .normal) := by
  rintro s o t store m ⟨outcome, store'⟩ hmeets h hdepth hpushes hrun
  obtain ⟨code, hcode, rfl⟩ := map_ok.1 h
  rw [flatten_ofCode, linePushes_lines] at hpushes
  obtain ⟨v, _, heval, hpure⟩ := bind_ok.1 hrun
  obtain ⟨rfl, rfl⟩ := pure_ok.1 hpure
  obtain ⟨-, hsim⟩ := effect_simulates hmeets.frame.sound (hmeets.plain hregular heval)
    hregular.combined s code t rfl hcode
  obtain ⟨m', hexec, hmeets', -⟩ := hmeets.exec hroom (g := fun _ => ()) heval
    (effect_quiet env e _ _ _ hcode) hdepth hpushes hsim
  exact ⟨m', hmeets', fun k m'' hk => Runs.code hexec hk⟩

/-- What a return evaluates. -/
theorem result_ok {returnType : Ty} {e : Expr} {value : Option Int}
    (h : result true env.globals returnType (some e) store = .ok (value, store')) :
    returnType.isInteger = true ∧ ∃ v,
      Source.eval (cells env.globals) true e store = .ok (v, store')
        ∧ value = some (Source.convert true v.1 returnType v.2) := by
  obtain ⟨n, hn, rfl⟩ := map_ok.1 h
  obtain ⟨v, _, heval, hvalue⟩ := bind_ok.1 hn
  split at hvalue
  · rename_i hty
    obtain ⟨rfl, rfl⟩ := pure_ok.1 hvalue
    exact ⟨hty, v, heval, rfl⟩
  · exact (throw_ok.1 hvalue).elim

/-- A return leaves the function with its value. -/
theorem ret_performs (hroom : Spacious depth room base) {value : Option Expr}
    (hregular : ∀ e ∈ value, Regular e) :
    Performer env base depth room (outlineRet env value)
      (.returned <$> result true env.globals env.returnType value) := by
  rintro s o t store m ⟨outcome, store'⟩ hmeets h hdepth hpushes hrun
  obtain ⟨given, hgiven, rfl⟩ := map_ok.1 hrun
  unfold outlineRet at h
  cases value with
  | none =>
      obtain ⟨rfl, -⟩ := pure_ok.1 h
      obtain ⟨rfl, -⟩ := pure_ok.1 hgiven
      exact ⟨m, nofun, fun k => .leave⟩
  | some e =>
      obtain ⟨hty, v, heval, rfl⟩ := result_ok hgiven
      have hvoid : env.returnType ≠ .void := by
        rintro heq
        rw [heq] at hty
        cases hty
      simp only [if_neg hvoid, not_floating hty, Bool.false_eq_true, if_false] at h
      obtain ⟨code, u, hcode, hpure⟩ := bind_ok.1 h
      obtain ⟨rfl, rfl⟩ := pure_ok.1 hpure
      rw [flatten_append, flatten_ofCode, linePushes_append, linePushes_lines] at hpushes
      have hplain := hmeets.plain (hregular e rfl) heval
      obtain ⟨-, source, -, -, hdelivers⟩ := evalTo_delivers hplain
        (eval_evaluates hmeets.frame.sound hplain) hty rfl hcode
      have hsim : ∀ set m, Reads set e → Truthful set (view env s.frame m) →
          Ready env s.frame (pushes code) m →
          Simulates env s.frame (assigned e) code m (Source.eval refCells true e) fun v m' =>
            low (wordOf env.returnType) (m'.regs .rax)
              = Source.convert true v.1 env.returnType v.2 := by
        intro set m hreads hset hready
        refine (hdelivers set m hreads hset hready).mono (List.Subset.refl _) ?_
        rintro v m' ⟨rfl, -, hrax⟩
        exact hrax
      obtain ⟨m', hexec, -, hrax⟩ := hmeets.eval hroom heval
        (evalTo_quiet (eval_quiet env e) _ _ _ _ hcode) hdepth
        (Nat.le_trans (Nat.le_add_right _ _) hpushes) hsim
      refine Performs.code hexec ⟨m', ?_, fun k => .leave⟩
      rintro n ⟨⟩
      exact hrax

-- ============================================================= variables

/-- What becomes of a declared whole number: it gets a slot, code that stores
in the slot, and its name. -/
theorem outlineVariable_whole {decl : VariableDecl} (hty : decl.ty.isInteger = true)
    (h : outlineVariable env decl s = .ok (o, t)) :
    ∃ offset frame code u, s.frame.alloc? decl.ty.size decl.ty.size = some (offset, frame)
      ∧ (match decl.init with
        | none => code = [] ∧ u = { s with frame }
        | some e => storeValue env (.stack offset) decl.ty e (eval env e) { s with frame }
            = .ok (code, u))
      ∧ t = { u with frame := u.frame.bind decl.name ⟨offset, decl.ty⟩ } ∧ o = ofCode code := by
  unfold outlineVariable at h
  simp only [bind_ok, lift_ok, framed?_ok] at h
  obtain ⟨⟨size, align⟩, _, ⟨hsize, rfl⟩, offset, _, ⟨frame, halloc, rfl⟩, h⟩ := h
  have hmeasure : env.program.sizeAlign decl.ty = .ok (decl.ty.size, decl.ty.size) :=
    Layout.measure_whole hty
  rw [hmeasure] at hsize
  cases hsize
  have hrest : ∀ {step : Gen Code}, (do
      let code ← step
      framed fun f => ((), f.bind decl.name ⟨offset, decl.ty⟩)
      return ofCode code : Gen Outline) { s with frame } = .ok (o, t) →
      ∃ code u, step { s with frame } = .ok (code, u)
        ∧ t = { u with frame := u.frame.bind decl.name ⟨offset, decl.ty⟩ } ∧ o = ofCode code := by
    intro step hstep
    obtain ⟨code, u, hcode, hstep⟩ := bind_ok.1 hstep
    obtain ⟨_, _, hbind, hpure⟩ := bind_ok.1 hstep
    obtain ⟨_, hframe, rfl⟩ := framed_ok.1 hbind
    cases hframe
    obtain ⟨rfl, rfl⟩ := pure_ok.1 hpure
    exact ⟨code, u, hcode, rfl, rfl⟩
  cases hinit : decl.init with
  | none =>
      rw [hinit] at h
      obtain ⟨code, u, hcode, rfl, rfl⟩ := hrest h
      obtain ⟨rfl, rfl⟩ := pure_ok.1 hcode
      exact ⟨offset, frame, [], _, halloc, ⟨rfl, rfl⟩, rfl, rfl⟩
  | some e =>
      rw [hinit] at h
      have hstore : (do
          let code ← storeValue env (.stack offset) decl.ty e (eval env e)
          framed fun f => ((), f.bind decl.name ⟨offset, decl.ty⟩)
          return ofCode code : Gen Outline) { s with frame } = .ok (o, t) := by
        generalize decl.ty = ty at h hty ⊢
        cases ty <;> first | exact h | cases hty
      obtain ⟨code, u, hcode, rfl, rfl⟩ := hrest hstore
      exact ⟨offset, frame, code, u, halloc, hcode, rfl, rfl⟩

/-- A declared variable gets its slot and the value it is initialized with. -/
theorem variable_performs (hroom : Spacious depth room base) {decl : VariableDecl}
    (hregular : ∀ e ∈ decl.init, Regular e) :
    Performer env base depth room (outlineVariable env decl) (do
      declare true env.globals decl
      return .normal) := by
  rintro s o t store m ⟨outcome, store'⟩ hmeets h hdepth hpushes hrun
  obtain ⟨_, _, hdeclare, hpure⟩ := bind_ok.1 hrun
  obtain ⟨rfl, rfl⟩ := pure_ok.1 hpure
  have hty : decl.ty.isInteger = true := by
    by_contra hno
    unfold declare at hdeclare
    rw [if_neg hno] at hdeclare
    exact throw_ok.1 hdeclare
  obtain ⟨offset, frame, code, u, halloc, hinit, rfl, rfl⟩ := outlineVariable_whole hty h
  rw [flatten_ofCode, linePushes_lines] at hpushes
  rw [declare_run true env.globals hty] at hdeclare
  have hmeasure : env.program.sizeAlign decl.ty = .ok (decl.ty.size, decl.ty.size) :=
    Layout.measure_whole hty
  obtain ⟨hscopes, hdeep, hfits, -⟩ := Frame.alloc?_some halloc
  cases hdecl : decl.init with
  | none =>
      rw [hdecl] at hinit hdeclare
      obtain ⟨rfl, rfl⟩ := hinit
      obtain rfl := modify_ok.1 hdeclare
      refine ⟨m, ⟨hmeets.frame.bind hmeasure halloc rfl rfl, ?_, hmeets.rsp, hmeets.rbp⟩,
        fun k m' hk => hk⟩
      exact (hmeets.holds.frame hscopes).bind hty nofun
  | some e =>
      rw [hdecl] at hinit hdeclare
      obtain ⟨v, store₁, heval, hmodify⟩ := bind_ok.1 hdeclare
      obtain rfl := modify_ok.1 hmodify
      have hcalm := storeValue_quiet _ _ (eval_quiet env e) _ _ _ hinit
      have hdeep' : s.frame.depth ≤ depth := by
        have hbound : (u.frame.bind decl.name ⟨offset, decl.ty⟩).depth = u.frame.depth := by
          unfold Frame.bind
          split <;> rfl
        have hu : u.frame.depth = frame.depth := hcalm.depth
        have hdepth : (u.frame.bind decl.name ⟨offset, decl.ty⟩).depth ≤ depth := hdepth
        omega
      have hplain := hmeets.plain (hregular e hdecl) heval
      obtain ⟨-, first, last, rfl, hsim⟩ := storeValue_delivers hplain
        (eval_evaluates hmeets.frame.sound hplain) hty hscopes hinit
      rw [pushes_append] at hpushes
      obtain ⟨m₁, hfirst, hmeets₁, m₂, hlast, hstored⟩ := hmeets.eval hroom heval (Calm.refl s)
        hdeep' (Nat.le_trans (Nat.le_add_right _ _) hpushes) hsim
      have hexec : Machine.Machine.exec (first ++ last) m = .ok m₂ := by
        rw [exec_append, hfirst]
        exact hlast
      refine ⟨m₂, ⟨?_, ?_, ?_, ?_⟩, fun k m' hk => Runs.code hexec hk⟩
      · exact hmeets.frame.bind hmeasure halloc hcalm.scopes hcalm.depth
      · have hfresh : Holds env s.frame store₁ m₂ := by
          rw [← bytes_wordOf hty] at halloc
          exact hmeets₁.holds.fresh hmeets.frame.sound halloc hstored
        refine (hfresh.frame (hcalm.scopes.trans hscopes)).bind hty ?_
        rintro n ⟨⟩
        exact (hstored.inPlace hty).2
      · exact hstored.rsp.trans hmeets₁.rsp
      · exact hstored.rbp.trans hmeets₁.rbp

-- ======================================================== scopes in frames

/-- Whether the state behind an outline comes behind the one before it, no
less deep and marked for the pushes in the outline. -/
structure Progress (env : Env) (s : State) (o : Outline) (t : State) : Prop where
  marked : Marked s t (linePushes (flatten o))
  onward : Onward env.program s t

/-- What is known of the lines of an outline is known of the outline. -/
theorem progress_of_flat {step : Gen Outline} {flat : Gen Lines} (heq : flat = flatten <$> step)
    (hmarks : Marks linePushes flat) (hleads : Leads env.program flat)
    (h : step s = .ok (o, t)) : Progress env s o t := by
  have hflat : flat s = .ok (flatten o, t) := by
    rw [heq]
    exact map_ok.2 ⟨o, h, rfl⟩
  exact ⟨hmarks _ _ _ hflat, hleads _ _ _ hflat⟩

/-- Statements make progress. -/
theorem outlines_progress {body : List Stmt} (h : outlines env body s = .ok (o, t)) :
    Progress env s o t :=
  progress_of_flat (stmts_eq_outline body) (stmts_marks body) (stmts_leads body) h

/-- So does a block. -/
theorem inside_progress {body : List Stmt} (h : inside (outlines env body) s = .ok (o, t)) :
    Progress env s o t := by
  refine progress_of_flat ?_ (inScope_marks (stmts_marks body)) (inScope_leads (stmts_leads body)) h
  rw [stmts_eq_outline body, inScope_map]

/-- So does an alternate. -/
theorem outlineOther_progress {shared : Option Nat} {alternate : Alternate}
    (h : outlineOther env shared alternate s = .ok (o, t)) : Progress env s o t :=
  progress_of_flat (otherwise_eq_outline shared alternate) (otherwise_marks shared alternate)
    (otherwise_leads shared alternate) h

/-- A block closes the scope that it opens. -/
theorem inside_scopes {body : List Stmt} (h : inside (outlines env body) s = .ok (o, t)) :
    t.frame.scopes = s.frame.scopes := by
  obtain ⟨u, hbody, rfl⟩ := inside_ok.1 h
  have houter := (outlines_progress hbody).onward.outer
  show u.frame.scopes.drop 1 = _
  rw [List.drop_one]
  exact houter

/-- A label opens no scope. -/
theorem freshLabel_scopes {n : Nat} (h : freshLabel s = .ok (n, t)) :
    t.frame.scopes = s.frame.scopes := by
  obtain ⟨-, rfl⟩ := freshLabel_ok.1 h
  rfl

/-- Nor does the label behind a chain. -/
theorem EndLabel.scopes {shared : Option Nat} {done : Nat} (h : EndLabel shared s done t) :
    t.frame.scopes = s.frame.scopes := by
  rcases h with ⟨-, rfl⟩ | ⟨-, hfresh⟩
  · rfl
  · exact freshLabel_scopes hfresh

/-- A frame that is reached stays so. -/
theorem EndLabel.reached {shared : Option Nat} {done : Nat} (h : EndLabel shared s done t)
    (hs : s.frame.Reached env.program) : t.frame.Reached env.program := by
  rcases h with ⟨-, rfl⟩ | ⟨-, hfresh⟩
  · exact hs
  · exact (freshLabel_leads _ _ _ hfresh).reached hs

mutual

/-- So do the arms of a chain. -/
theorem outlineArm_scopes : ∀ {shared : Option Nat} {arm : Arm} {s t : State} {o : Outline},
    outlineArm env shared arm s = .ok (o, t) → t.frame.scopes = s.frame.scopes
  | shared, ⟨e, consequent, alternate, pos⟩, s, t, o, h => by
      cases hconst : e.isConstant with
      | true =>
          rcases outlineArm_constant_ok hconst h with ⟨-, hother⟩ | ⟨-, hbody⟩
          · exact outlineOther_scopes hother
          · exact inside_scopes hbody
      | false =>
          obtain ⟨done, code, first, closed, u, -, hdone, h⟩ := outlineArm_open_ok hconst h
          rcases h with ⟨-, v, htest, hbody, -⟩ | ⟨-, other, second, v, w, x, hfresh, htest,
            hbody, hother, -⟩
          · have htest := (test_quiet env e _ _ _ htest).scopes
            exact (inside_scopes hbody).trans (htest.trans hdone.scopes)
          · have htest := (test_quiet env e _ _ _ htest).scopes
            exact (outlineOther_scopes hother).trans ((inside_scopes hbody).trans
              (htest.trans ((freshLabel_scopes hfresh).trans hdone.scopes)))

/-- So do alternates. -/
theorem outlineOther_scopes :
    ∀ {shared : Option Nat} {alternate : Alternate} {s t : State} {o : Outline},
    outlineOther env shared alternate s = .ok (o, t) → t.frame.scopes = s.frame.scopes
  | _, .none, s, t, o, h => by
      unfold outlineOther at h
      obtain ⟨-, rfl⟩ := pure_ok.1 h
      rfl
  | _, .block body, s, t, o, h => by
      unfold outlineOther at h
      exact inside_scopes h
  | shared, .elseIf arm, s, t, o, h => by
      unfold outlineOther at h
      exact outlineArm_scopes h

end

-- ======================================================== blocks and forks

/-- A block performs its statements in a scope of their own. -/
theorem inside_performs {step : Gen Outline} {run : Run Store Outcome}
    (hstep : Performer env base depth room step run) :
    Performer env base depth room (inside step) (Source.inScope run) := by
  rintro s o t store m r hmeets h hdepth hpushes hrun
  obtain ⟨u, hinner, rfl⟩ := inside_ok.1 h
  rw [inScope_run] at hrun
  obtain ⟨⟨outcome, store'⟩, hbody, hpop⟩ := except_bind_ok.1 hrun
  obtain rfl := Except.ok.inj hpop
  have hpush : Meets env base { s with frame := s.frame.pushScope }
      { store with scopes := [] :: store.scopes } m :=
    ⟨hmeets.frame.pushScope, hmeets.holds.push, hmeets.rsp, hmeets.rbp⟩
  have hperforms := hstep hpush hinner hdepth hpushes hbody
  show Performs env base o m _ (outcome, { store' with scopes := store'.scopes.drop 1 })
  cases outcome with
  | normal =>
      obtain ⟨m₁, hmeets₁, hruns⟩ := hperforms
      exact ⟨m₁, ⟨hmeets₁.frame.popScope, hmeets₁.holds.pop, hmeets₁.rsp, hmeets₁.rbp⟩, hruns⟩
  | returned value => exact hperforms

/-- A fork goes the way that the source goes. -/
theorem fork_performs (hroom : Spacious depth room base) {e : Expr} (hregular : Regular e)
    (hmeets : Meets env base s store m) {code : Code} (hcode : test env e s = .ok (code, t))
    (hdepth : t.frame.depth ≤ depth) (hpushes : pushes code ≤ room)
    {other : Option Nat} {done : Nat} {closed : Bool} {first second : Outline}
    {run runElse : Run Store Outcome}
    (hfirst : ∀ {store' m'}, Meets env base t store' m' → run store' = .ok r →
      Performs env base first m' u r)
    (hsecond : ∀ {store' m'}, Meets env base t store' m' → runElse store' = .ok r →
      Performs env base second m' u r)
    (hrun : (do if ← Source.test true env.globals e then run else runElse) store = .ok r) :
    Performs env base (ofCode code ++ [.fork other done closed first second]) m u r := by
  obtain ⟨outcome, store'⟩ := r
  obtain ⟨holds, store₁, htest, hrest⟩ := bind_ok.1 hrun
  obtain ⟨m₁, flags, hexec, hmeets₁, hflags, hzero⟩ :=
    hmeets.test hroom hregular htest hcode hdepth hpushes
  refine Performs.code hexec ?_
  cases holds with
  | true =>
      refine (hfirst hmeets₁ hrest).enter fun k m' hk => .fork hflags ?_
      rw [hzero]
      exact hk
  | false =>
      refine (hsecond hmeets₁ hrest).enter fun k m' hk => .fork hflags ?_
      rw [hzero]
      exact hk

-- ================================================================= loops

/-- Rounds of a loop, as the source takes them, given what the loop does when
it looks at its condition. -/
theorem rounds_perform {loop : Flow} (inner : Outline) {x : Run Store Bool}
    {body : Run Store Outcome}
    (hasks : ∀ {store m holds store'}, Meets env base t store m → x store = .ok (holds, store') →
      ∃ m₁, Meets env base t store' m₁ ∧ ∀ k m',
        Runs (if holds then inner ++ loop :: k else k) m₁ m' → Runs (loop :: k) m m')
    (hbody : ∀ {store m r}, Meets env base t store m → body store = .ok r →
      Performs env base inner m t r) {rounds : Nat} {store : Store} {m : Machine}
    {r : Outcome × Store} (hmeets : Meets env base t store m)
    (hrun : iterate x body rounds store = .ok r) : Performs env base [loop] m t r := by
  obtain ⟨outcome, store'⟩ := r
  induction rounds generalizing store m with
  | zero => exact (throw_ok.1 hrun).elim
  | succ rounds ih =>
      obtain ⟨holds, store₁, hx, hrest⟩ := bind_ok.1 hrun
      obtain ⟨m₁, hmeets₁, henter⟩ := hasks hmeets hx
      cases holds with
      | false =>
          obtain ⟨rfl, rfl⟩ := pure_ok.1 hrest
          exact (Performs.nil hmeets₁).enter henter
      | true =>
          obtain ⟨outcome₁, store₂, hround, honward⟩ := bind_ok.1 hrest
          have hrounds : Performs env base (inner ++ [loop]) m₁ t (outcome, store') :=
            (hbody hmeets₁ hround).onward honward fun m₂ hmeets₂ => ih hmeets₂
          refine hrounds.enter fun k m' hk => henter k m' ?_
          rw [List.append_assoc] at hk
          exact hk

/-- A loop goes round as the source does. -/
theorem loop_performs (hroom : Spacious depth room base) {e : Expr} (hregular : Regular e)
    {body : List Stmt} {pos : Position} {run : Run Store Outcome} {rounds : Nat}
    (hbody : Performer env base depth room (inside (outlines env body)) run) :
    Performer env base depth room (outline env (.loop e body pos))
      (iterate (Source.test true env.globals e) run rounds) := by
  intro s o t store m r hmeets h hdepth hpushes hrun
  rcases outline_loop_ok h with ⟨hconst, hzero, rfl, rfl⟩ | ⟨enter, check, test, inner, u, v, w,
    hfold, henter, hcheck, hinner, htest, rfl⟩
  · -- the condition folds to zero, so the source takes no round
    have hnever := test_constant true env.globals hconst (hregular.folds hconst) hzero store
    cases rounds with
    | zero => exact (throw_ok.1 hrun).elim
    | succ rounds =>
        obtain ⟨outcome, store'⟩ := r
        obtain ⟨holds, store₁, hx, hrest⟩ := bind_ok.1 hrun
        rw [hnever] at hx
        cases hx
        obtain ⟨rfl, rfl⟩ := pure_ok.1 hrest
        exact Performs.nil hmeets
  · -- all along the loop the scopes are those in front of it
    have hscopes : v.frame.scopes = s.frame.scopes :=
      (freshLabel_scopes hcheck).trans (freshLabel_scopes henter)
    have hreached : v.frame.Reached env.program :=
      (freshLabel_leads _ _ _ hcheck).reached ((freshLabel_leads _ _ _ henter).reached hmeets.frame)
    have hprogress := inside_progress hinner
    have hclosed := inside_scopes hinner
    have hcalm : Calm w t := by
      rcases htest with ⟨-, -, rfl⟩ | ⟨-, code, hcode, -⟩
      · exact Calm.refl _
      · exact test_quiet env e _ _ _ hcode
    have hreachedW := hprogress.onward.reached hreached
    have hreachedT := hreachedW.same hcalm.scopes hcalm.depth
    have hdepthW : w.frame.depth ≤ depth := hcalm.depth ▸ hdepth
    rw [flatten_cycle, linePushes_append, linePushes_append, linePushes_append] at hpushes
    refine rounds_perform inner ?_ ?_
      (hmeets.move (hcalm.scopes.trans (hclosed.trans hscopes)) hreachedT) hrun
    · intro store m holds store' hmeets hx
      rcases htest with ⟨hconst, rfl, rfl⟩ | ⟨-, code, hcode, rfl⟩
      · have halways :=
          test_constant true env.globals hconst (hregular.folds hconst) (hfold hconst) store
        rw [halways] at hx
        cases hx
        exact ⟨m, hmeets, fun k m' hk => .forever hk⟩
      · have hcodePushes : pushes code ≤ room := by
          rw [bottom, linePushes_append, linePushes_lines] at hpushes
          omega
        obtain ⟨m₁, flags, hexec, hmeets₁, hflags, hzero⟩ :=
          (hmeets.move hcalm.scopes.symm hreachedW).test hroom hregular hx hcode hdepth hcodePushes
        refine ⟨m₁, hmeets₁, fun k m' hk => .round hexec hflags ?_⟩
        rw [hzero]
        cases holds <;> exact hk
    · intro store m r hmeets hrun
      have hinnerPushes : linePushes (flatten inner) ≤ room := by omega
      have hv := hmeets.move (hcalm.scopes.trans hclosed).symm hreached
      exact (hbody hv hinner hdepthW hinnerPushes hrun).move hcalm.scopes hreachedT

-- ============================================================ statements

/-- What is demanded of the leaves of a function. -/
def Leaf.Regular (_ : Sight) (leaf : Leaf) : Prop := ∀ e ∈ leaf.exprs, Codegen.Regular e

section Statements

variable {rounds : Nat}

mutual

/-- The outline of a statement performs what the source says. -/
theorem outline_performs (hroom : Spacious depth room base) :
    ∀ {sight : Sight} {st : Stmt}, st.Everywhere Leaf.Regular sight →
    Performer env base depth room (outline env st)
      (Source.stmt true env.globals env.returnType rounds st)
  | sight, .block body, h => by
      unfold outline Source.stmt
      exact inside_performs (outlines_perform hroom h)
  | sight, .branch arm, h => by
      unfold outline Source.stmt
      exact outlineArm_performs hroom none h
  | sight, .loop e body pos, h => by
      unfold Source.stmt
      exact loop_performs hroom (h.1 e List.mem_cons_self)
        (inside_performs (outlines_perform hroom h.2))
  | sight, .ret value pos, h => by
      unfold outline Source.stmt
      exact ret_performs hroom fun e he => h e (Option.mem_toList.2 he)
  | sight, .variable decl, h => by
      unfold outline Source.stmt
      exact variable_performs hroom fun e he => h e (Option.mem_toList.2 he)
  | sight, .expr e, h => by
      unfold outline Source.stmt
      exact effect_performs hroom (h e List.mem_cons_self)
  | sight, .function _, _ => by
      intro s o t store m r _ hstep
      unfold outline at hstep
      exact (fail_ok.1 hstep).elim
  | sight, .aggregate _, _ => by
      intro s o t store m r _ hstep
      unfold outline at hstep
      exact (fail_ok.1 hstep).elim

/-- Statements in sequence perform what the source says, by induction on their list. -/
theorem outlines_perform (hroom : Spacious depth room base) :
    ∀ {sight : Sight} {body : List Stmt},
    Stmt.EverywhereIn Leaf.Regular sight body →
    Performer env base depth room (outlines env body)
      (Source.stmts true env.globals env.returnType rounds body)
  | sight, [], _ => by
      rintro s o t store m ⟨outcome, store'⟩ hmeets hstep - - hrun
      unfold outlines at hstep
      unfold Source.stmts at hrun
      obtain ⟨rfl, rfl⟩ := pure_ok.1 hstep
      obtain ⟨rfl, rfl⟩ := pure_ok.1 hrun
      exact Performs.nil hmeets
  | sight, st :: rest, h => by
      rintro s o t store m ⟨outcome, store'⟩ hmeets hstep hdepth hpushes hrun
      obtain ⟨first, others, u, hfirst, hothers, rfl⟩ := outlines_cons_ok hstep
      unfold Source.stmts at hrun
      obtain ⟨outcome₁, store₁, hst, honward⟩ := bind_ok.1 hrun
      rw [flatten_append, linePushes_append] at hpushes
      have hdepthU := Nat.le_trans (outlines_progress hothers).marked.depth hdepth
      refine (outline_performs hroom h.1 hmeets hfirst hdepthU
        (Nat.le_trans (Nat.le_add_right _ _) hpushes) hst).onward honward ?_
      intro m₁ hmeets₁ hnext
      exact outlines_perform hroom h.2 hmeets₁ hothers hdepth
        (Nat.le_trans (Nat.le_add_left _ _) hpushes) hnext

/-- An arm performs what the source says, by the cases of its condition: decided or
not. -/
theorem outlineArm_performs (hroom : Spacious depth room base) :
    ∀ (shared : Option Nat) {sight : Sight} {arm : Arm},
    arm.Everywhere Leaf.Regular sight →
    Performer env base depth room (outlineArm env shared arm)
      (Source.arm true env.globals env.returnType rounds arm)
  | shared, sight, ⟨e, consequent, alternate, pos⟩, ⟨hleaf, hbody, helse⟩ => by
      intro s o t store m r hmeets h hdepth hpushes hrun
      have hregular := hleaf e List.mem_cons_self
      have hthen := inside_performs (outlines_perform hroom hbody)
      have hother := fun shared => outlineOther_performs hroom shared helse
      unfold Source.arm at hrun
      cases hconst : e.isConstant with
      | true =>
          have hway : ∀ {zero : Bool}, e.foldsToZero = .ok zero →
              (if !zero then Source.inScope
                (Source.stmts true env.globals env.returnType rounds consequent)
              else Source.otherwise true env.globals env.returnType rounds alternate) store
                = .ok r := by
            intro zero hzero
            obtain ⟨outcome, store'⟩ := r
            obtain ⟨holds, store₁, htest, hrest⟩ := bind_ok.1 hrun
            rw [test_constant true env.globals hconst (hregular.folds hconst) hzero store] at htest
            cases htest
            exact hrest
          rcases outlineArm_constant_ok hconst h with ⟨hzero, hstep⟩ | ⟨hzero, hstep⟩
          · exact hother shared hmeets hstep hdepth hpushes (hway hzero)
          · exact hthen hmeets hstep hdepth hpushes (hway hzero)
      | false =>
          obtain ⟨done, code, first, closed, u, -, hdone, h⟩ := outlineArm_open_ok hconst h
          have hmeetsU := hmeets.move hdone.scopes (hdone.reached hmeets.frame)
          rcases h with ⟨rfl, v, htest, hfirst, rfl⟩ | ⟨-, other, second, v, w, x, hfresh, htest,
            hfirst, hsecond, rfl⟩
          · have hprogress := inside_progress hfirst
            rw [flatten_fork_none] at hpushes
            simp only [linePushes_append, linePushes_lines] at hpushes
            have hdepthV := Nat.le_trans hprogress.marked.depth hdepth
            refine fork_performs hroom hregular hmeetsU htest hdepthV (by omega) ?_ ?_ hrun
            · intro store' m' hmeets' hrun'
              exact hthen hmeets' hfirst hdepth (by omega) hrun'
            · intro store' m' hmeets' hrun'
              unfold Source.otherwise at hrun'
              obtain ⟨outcome, store''⟩ := r
              obtain ⟨rfl, rfl⟩ := pure_ok.1 hrun'
              exact Performs.nil (hmeets'.move (inside_scopes hfirst)
                (hprogress.onward.reached hmeets'.frame))
          · have hprogress := inside_progress hfirst
            have hprogress' := outlineOther_progress hsecond
            rw [flatten_fork_some] at hpushes
            simp only [linePushes_append, linePushes_lines] at hpushes
            have hdepthX := Nat.le_trans hprogress'.marked.depth hdepth
            have hdepthW := Nat.le_trans hprogress.marked.depth hdepthX
            have hmeetsV := hmeetsU.move (freshLabel_scopes hfresh)
              ((freshLabel_leads _ _ _ hfresh).reached hmeetsU.frame)
            refine fork_performs hroom hregular hmeetsV htest hdepthW (by omega) ?_ ?_ hrun
            · intro store' m' hmeets' hrun'
              refine (hthen hmeets' hfirst hdepthX (by omega) hrun').move
                (outlineOther_scopes hsecond) ?_
              exact hprogress'.onward.reached (hprogress.onward.reached hmeets'.frame)
            · intro store' m' hmeets' hrun'
              have hmeetsX := hmeets'.move (inside_scopes hfirst)
                (hprogress.onward.reached hmeets'.frame)
              exact hother (some done) hmeetsX hsecond hdepth (by omega) hrun'

/-- An alternate performs what the source says, or nothing if there is none. -/
theorem outlineOther_performs (hroom : Spacious depth room base) :
    ∀ (shared : Option Nat) {sight : Sight} {alternate : Alternate},
    alternate.Everywhere Leaf.Regular sight →
    Performer env base depth room (outlineOther env shared alternate)
      (Source.otherwise true env.globals env.returnType rounds alternate)
  | shared, sight, .none, _ => by
      rintro s o t store m ⟨outcome, store'⟩ hmeets hstep - - hrun
      unfold outlineOther at hstep
      unfold Source.otherwise at hrun
      obtain ⟨rfl, rfl⟩ := pure_ok.1 hstep
      obtain ⟨rfl, rfl⟩ := pure_ok.1 hrun
      exact Performs.nil hmeets
  | shared, sight, .block body, h => by
      unfold outlineOther Source.otherwise
      exact inside_performs (outlines_perform hroom h)
  | shared, sight, .elseIf arm, h => by
      unfold outlineOther Source.otherwise
      exact outlineArm_performs hroom shared h

end

end Statements

end MiniC.Codegen
