/-
Lowering builds control-flow graphs: every block ends where it is left and
nowhere before, every jump finds its block (`lowerFunction_connected`), and
every operand is there where it is used (`lowerFunction_dominated`).

# The invariant of construction

While a function is built its last block is open, and jumps may have been emitted to
blocks that are not there yet. `Orderly` lists the labels that are pending, and for
each label that was promised the slots that are reserved wherever it is jumped to. So
when a block is opened under a promised label, what may be used in it is known,
whichever jump control came by; and when all is done, nothing is pending.

# Statements

Each kind of statement carries the invariant over (`Carries`). An if or a while
promises the labels of its blocks the storage in sight at its start, where all its
blocks begin and end: what is declared inside of it goes out of sight with its scope,
and no operand behind it names it. The three steps that such a statement is made of
are opening a block (`Orderly.opened`), jumping to the next one (`Orderly.joined`)
and branching to two (`Orderly.branched`).

# Functions

At the start there is one empty block and no promise; parameters are spilled into
slots, the body is carried over, and the end returns if nothing has
(`Stages.orderly`). What `Orderly` says of a finished function is what both results
state.
-/
import MiniC.Pipeline
import MiniC.Proofs.Lowering.Order

namespace MiniC

namespace Lowering

open IR Steps

variable {globals : List (String × Slot)} {promised promised' : List (String × List Slot)}
  {pending pending' : List String} {s t u : State}

-- =========================================================== statements

theorem Orderly.started (h : Orderly globals promised pending s) : s.Started := h.ordered.started

/-- Promises may be forgotten. -/
theorem Orderly.weaken (h : Orderly globals promised pending s) (hsub : promised' ⊆ promised) :
    Orderly globals promised' pending s :=
  ⟨h.ordered.weaken hsub, h.numbered⟩

/-- Labels are pending in no order. -/
theorem Orderly.perm (h : Orderly globals promised pending s) (hperm : pending.Perm pending') :
    Orderly globals promised pending' s :=
  ⟨h.ordered.perm hperm, h.numbered⟩

/-- A scope that is left takes slots out of sight and touches no block. -/
theorem Orderly.rescoped (h : Orderly globals promised pending s)
    (hbuilder : t.builder = s.builder) (hslots : t.slots ⊆ s.slots) :
    Orderly globals promised pending t := by
  refine ⟨h.ordered.rescoped hbuilder hslots, ?_⟩
  rw [hbuilder]
  exact h.numbered

/-- A slot comes into sight when it was reserved. -/
theorem Orderly.bind (h : Orderly globals promised pending s) (name : String) {slot : Slot}
    (hdrawn : Drawn s.builder (.alloca slot)) :
    Orderly globals promised pending (s.bind name slot) := by
  refine ⟨h.ordered.bind name hdrawn, ?_⟩
  rw [builder_bind]
  exact h.numbered

/-- A label that is handed out is promised the slots that are in sight, and pending. -/
theorem Orderly.unique (h : Orderly globals promised pending s) (slots : List Slot)
    {base name : String} (hstep : Lowering.unique base s = .ok (name, t)) :
    Orderly globals ((name, slots) :: promised) (name :: pending) t := by
  refine ⟨h.ordered.unique slots hstep, ?_⟩
  obtain ⟨-, rfl⟩ := unique_ok.1 hstep
  exact h.numbered

/-- A block that was promised is opened behind one that has ended. -/
theorem Orderly.opened {label : String} (h : Orderly globals promised (label :: pending) s)
    (hpromise : (label, s.slots) ∈ promised) (hend : s.builder.terminated = true) :
    Orderly globals promised pending (s.opened label) :=
  ⟨h.ordered.opened hpromise hend, (collected_append Instr.index? s.builder label).trans h.numbered⟩

/-- A block is left for one label, and the next one is opened. -/
theorem Orderly.joined {label next : String} (h : Orderly globals promised (next :: pending) s)
    (hpromise : (label, s.slots) ∈ promised) (hnext : (next, s.slots) ∈ promised) :
    Orderly globals promised pending ((s.jumped label).opened next) := by
  cases hend : s.builder.terminated with
  | true =>
      have hsame : s.jumped label = s := by
        unfold State.jumped Builder.jumpTo
        rw [hend, if_pos rfl]
      rw [hsame]
      exact h.opened hnext hend
  | false =>
      have hjump : s.jumped label = s.emitted (.jump label) := by
        unfold State.jumped State.emitted Builder.jumpTo
        rw [hend, if_neg Bool.false_ne_true]
      rw [hjump]
      have husable : Usable globals promised s (.jump label) := by
        refine ⟨?_, ?_, ?_⟩
        · intro value hvalue
          cases hvalue
        · intro slot hslot
          cases hslot
        · intro target htarget
          rw [List.mem_singleton.1 htarget]
          exact hpromise
      exact (h.emitted husable rfl).opened hnext (terminated_emit h.started _)

/-- A block is left by a condition, and the block is opened in which it
holds. -/
theorem Orderly.branched {onTrue onFalse : String} {value : Value}
    (h : Orderly globals promised (onTrue :: pending) s) (hvalue : Known s value)
    (htrue : (onTrue, s.slots) ∈ promised) (hfalse : (onFalse, s.slots) ∈ promised) :
    Orderly globals promised pending
      ((s.emitted (.branch value onTrue onFalse)).opened onTrue) := by
  have husable : Usable globals promised s (.branch value onTrue onFalse) := by
    refine ⟨List.forall_mem_singleton.2 hvalue, ?_, ?_⟩
    · intro slot hslot
      cases hslot
    · intro target htarget
      rcases List.mem_cons.1 htarget with rfl | htarget
      · exact htrue
      · rw [List.mem_singleton.1 htarget]
        exact hfalse
  exact (h.emitted husable rfl).opened htrue (terminated_emit h.started _)

variable (globals)

/-- Whether a step keeps the function under construction in order. -/
def Carries (step : Lower Unit) : Prop :=
  ∀ ⦃s x t⦄, step s = .ok (x, t) → Laid s →
    ∀ {promised pending}, Orderly globals promised pending s → Orderly globals promised pending t

/-- Storage that is laid out stays so while labels are pending. -/
theorem Tracks.laid {before behind : List String} (h : Tracks s before t behind) (hs : s.Started)
    (hlaid : Laid s) : Laid t := by
  obtain ⟨hgrows, hscopes, -⟩ := h hs
  exact hlaid.grown hgrows hscopes

theorem Tracks.slots {before behind : List String} (h : Tracks s before t behind)
    (hs : s.Started) : t.slots = s.slots := by
  obtain ⟨-, hscopes, -⟩ := h hs
  exact slots_congr hscopes

/-- What is declared in a scope of its own goes with it. -/
theorem inScope_carries {step : Lower Unit} (h : Carries globals step) :
    Carries globals (inScope step) := by
  intro s x t hstep hlaid promised pending ho
  obtain ⟨u, hinner, rfl⟩ := inScope_ok.1 hstep
  have hlaid' : Laid { s with scopes := [] :: s.scopes } :=
    ⟨hlaid.nodup, hlaid.taken, hlaid.isLocal⟩
  have hstart : Orderly globals promised pending { s with scopes := [] :: s.scopes } :=
    ho.rescoped rfl (List.Subset.refl _)
  refine (h hinner hlaid' hstart).rescoped rfl ?_
  unfold State.slots
  refine List.map_subset _ ?_
  intro slot hslot
  obtain ⟨scope, hscope, hmem⟩ := List.mem_flatten.1 hslot
  exact List.mem_flatten.2 ⟨scope, List.mem_of_mem_drop hscope, hmem⟩

/-- A variable reserves its slot and stores into it. -/
theorem variableDecl_carries (hglobals : ∀ b ∈ globals, b.2.isGlobal = true)
    (decl : VariableDecl) : Carries globals (variableDecl globals decl) := by
  intro s x t h hlaid promised pending ho
  obtain ⟨ty, slot, u, v, -, halloca, hinit, rfl⟩ := variableDecl_ok globals h
  obtain ⟨hrun, hdrawn, hlocal⟩ := alloca_runs globals ho.started halloca
  have hrest : Runs globals u v := by
    cases hdecl : decl.init with
    | none =>
        rw [hdecl] at hinit
        obtain rfl : v = u := hinit
        exact .refl hrun.started
    | some init =>
        rw [hdecl] at hinit
        obtain ⟨value, w, stored, hvalue, hstore⟩ := hinit
        obtain ⟨hrun₁, hknown⟩ := expr_delivers globals hglobals init hrun.started
          (hrun.adds.laid hlaid) hvalue
        have hslot : AtHand globals w slot := Or.inr ⟨hlocal, Or.inr (hrun₁.drawn hdrawn)⟩
        exact hrun₁.trans (store_runs globals hrun₁.started hknown hslot hstore).1
  exact (hrest.orderly (hrun.orderly ho)).bind decl.name (hrest.drawn hdrawn)

/-- Leaving a function ends its block, and what follows has a block of its own. -/
theorem leave_carries {result : Option Value} {x : Unit} (h : leave result s = .ok (x, t))
    (hvalue : ∀ value ∈ result.toList, Known s value)
    (ho : Orderly globals promised pending s) : Orderly globals promised pending t := by
  have husable : Usable globals promised s (.ret result) := by
    refine ⟨hvalue, fun slot hslot => ?_, fun target htarget => ?_⟩
    · cases hslot
    · cases htarget
  unfold leave at h
  simp only [bind_ok, get_ok] at h
  obtain ⟨_, _, ⟨rfl, rfl⟩, h⟩ := h
  split at h
  · rename_i hreturned
    have hend := returned_terminated hreturned
    simp only [bind_ok, append_ok, emit_ok] at h
    obtain ⟨label, v, hunique, _, _, rfl, rfl⟩ := h
    have hv : v.slots = s.slots ∧ v.builder.terminated = s.builder.terminated := by
      obtain ⟨-, rfl⟩ := unique_ok.1 hunique
      exact ⟨rfl, rfl⟩
    have hopened := (ho.unique s.slots hunique).opened (by rw [hv.1]; exact List.mem_cons_self)
      (hv.2.trans hend)
    exact (hopened.emitted (husable.opened hend hunique) rfl).weaken (List.subset_cons_self _ _)
  · obtain rfl := emit_ok.1 h
    exact ho.emitted husable rfl

theorem ret_carries (hglobals : ∀ b ∈ globals, b.2.isGlobal = true)
    (value : Option MiniC.Expr) : Carries globals (ret globals value) := by
  intro s x t h hlaid promised pending ho
  cases value with
  | none =>
      rw [ret_none] at h
      refine leave_carries globals h (fun value hvalue => ?_) ho
      cases hvalue
  | some e =>
      rw [ret_some] at h
      simp only [bind_ok, get_ok] at h
      obtain ⟨value, u, hvalue, _, _, ⟨rfl, rfl⟩, result, v, hconvert, hleave⟩ := h
      obtain ⟨hrun, hknown⟩ := expr_delivers globals hglobals e ho.started hlaid hvalue
      obtain ⟨hrun', hresult⟩ := convert_runs globals hrun.started hknown hconvert
      exact leave_carries globals hleave (List.forall_mem_singleton.2 hresult)
        (hrun'.orderly (hrun.orderly ho))

/-- A condition is tested, and where it holds statements are lowered in a
scope of their own. -/
theorem branched_carries {value : Value} {onTrue onFalse : String}
    (ho : Orderly globals promised (onTrue :: pending) u) (hlaid : Laid u)
    (hknown : Known u value) (htrue : (onTrue, u.slots) ∈ promised)
    (hfalse : (onFalse, u.slots) ∈ promised) {body : List Stmt}
    (hbody : Carries globals (stmts globals body)) {x : Unit}
    (h : inScope (stmts globals body) ((u.emitted (.branch value onTrue onFalse)).opened onTrue)
      = .ok (x, t)) :
    Orderly globals promised pending t ∧ t.slots = u.slots ∧ Laid t := by
  have hbranched := ho.branched hknown htrue hfalse
  have hbranch : Tracks u [onTrue] ((u.emitted (.branch value onTrue onFalse)).opened onTrue) [] :=
    (emitted_tracks u _).trans (opened_tracks _ onTrue)
  have hlaid' := hbranch.laid ho.started hlaid
  have hadds := inScope_additive (stmts_steady globals body) _ _ _ h hbranched.started
  exact ⟨inScope_carries globals hbody h hlaid' hbranched,
    (slots_congr hadds.scopes).trans (hbranch.slots ho.started), hadds.laid hlaid'⟩

/-- A loop promises three labels, and keeps each. -/
theorem loopSteps_carries (hglobals : ∀ b ∈ globals, b.2.isGlobal = true) {e : MiniC.Expr}
    {body : List Stmt} (hbody : Carries globals (stmts globals body)) :
    Carries globals (loopSteps globals e body) := by
  intro s x t h hlaid promised pending ho
  obtain ⟨test, s₁, enter, s₂, done, s₃, value, u, v, h₁, h₂, h₃, hvalue, hinner, rfl⟩ :=
    loopSteps_ok globals h
  have hnames : Tracks s [] s₃ [done, enter, test] :=
    ((unique_tracks h₁).trans (unique_tracks h₂)).trans (unique_tracks h₃)
  have hslots₃ := hnames.slots ho.started
  have ho₃ : Orderly globals
      ((done, s.slots) :: (enter, s.slots) :: (test, s.slots) :: promised)
      (test :: enter :: done :: pending) s₃ :=
    (((ho.unique s.slots h₁).unique s.slots h₂).unique s.slots h₃).perm
      ((List.reverse_perm [test, enter, done]).append_right pending)
  generalize hpromised : (done, s.slots) :: (enter, s.slots) :: (test, s.slots) :: promised
    = promised' at ho₃
  have hdone : (done, s.slots) ∈ promised' := by simp [← hpromised]
  have henter : (enter, s.slots) ∈ promised' := by simp [← hpromised]
  have htest : (test, s.slots) ∈ promised' := by simp [← hpromised]
  have hjoined := ho₃.joined (by rw [hslots₃]; exact htest) (by rw [hslots₃]; exact htest)
  have hopen : Tracks s₃ [test] ((s₃.jumped test).opened test) [] :=
    (jumped_tracks s₃ test).trans (opened_tracks _ test)
  have hlaid₃ := hopen.laid ho₃.started (hnames.laid ho.started hlaid)
  obtain ⟨hrun, hknown⟩ := condition_runs globals hglobals hjoined.started hlaid₃ hvalue
  have hslotsU : u.slots = s.slots :=
    (slots_congr hrun.adds.scopes).trans ((hopen.slots ho₃.started).trans hslots₃)
  obtain ⟨hv, hslotsV, -⟩ := branched_carries globals (hrun.orderly hjoined)
    (hrun.adds.laid hlaid₃) hknown (by rw [hslotsU]; exact henter) (by rw [hslotsU]; exact hdone)
    hbody hinner
  rw [hslotsU] at hslotsV
  refine (hv.joined (by rw [hslotsV]; exact htest) (by rw [hslotsV]; exact hdone)).weaken ?_
  rw [← hpromised]
  exact List.subset_append_right [(done, s.slots), (enter, s.slots), (test, s.slots)] promised

theorem arm_alone_carries (hglobals : ∀ b ∈ globals, b.2.isGlobal = true) {e : MiniC.Expr}
    {consequent : List Stmt} {pos : Position} (hconst : e.isConstant = false)
    (hbody : Carries globals (stmts globals consequent)) :
    Carries globals (ifArm globals ⟨e, consequent, .none, pos⟩) := by
  intro s x t h hlaid promised pending ho
  obtain ⟨value, u, onTrue, u₁, done, u₂, v, hvalue, h₁, h₂, hinner, rfl⟩ :=
    ifArm_alone globals hconst h
  obtain ⟨hrun, hknown⟩ := condition_runs globals hglobals ho.started hlaid hvalue
  have hnames : Tracks u [] u₂ [done, onTrue] := (unique_tracks h₁).trans (unique_tracks h₂)
  have hslots : u₂.slots = u.slots := hnames.slots hrun.started
  have hknown₂ : Known u₂ value := by
    obtain ⟨-, rfl⟩ := unique_ok.1 h₁
    obtain ⟨-, rfl⟩ := unique_ok.1 h₂
    cases value <;> exact hknown
  have ho₂ : Orderly globals ((done, u.slots) :: (onTrue, u.slots) :: promised)
      (onTrue :: done :: pending) u₂ :=
    (((hrun.orderly ho).unique u.slots h₁).unique u.slots h₂).perm (List.Perm.swap _ _ _)
  obtain ⟨hv, hslotsV, -⟩ := branched_carries globals ho₂
    (hnames.laid hrun.started (hrun.adds.laid hlaid)) hknown₂ (by simp [hslots])
    (by simp [hslots]) hbody hinner
  rw [hslots] at hslotsV
  refine (hv.joined (by simp [hslotsV]) (by simp [hslotsV])).weaken ?_
  exact List.subset_append_right [(done, u.slots), (onTrue, u.slots)] promised

theorem arm_both_carries (hglobals : ∀ b ∈ globals, b.2.isGlobal = true) {e : MiniC.Expr}
    {consequent : List Stmt} {alternate : Alternate} {pos : Position}
    (hconst : e.isConstant = false) (halternate : alternate ≠ .none)
    (hbody : Carries globals (stmts globals consequent))
    (hother : Carries globals (otherwise globals alternate)) :
    Carries globals (ifArm globals ⟨e, consequent, alternate, pos⟩) := by
  intro s x t h hlaid promised pending ho
  obtain ⟨value, u, onTrue, u₁, onFalse, u₂, done, u₃, v, w, hvalue, h₁, h₂, h₃, hinner, houter,
    rfl⟩ := ifArm_both globals hconst halternate h
  obtain ⟨hrun, hknown⟩ := condition_runs globals hglobals ho.started hlaid hvalue
  have hnames : Tracks u [] u₃ [done, onFalse, onTrue] :=
    ((unique_tracks h₁).trans (unique_tracks h₂)).trans (unique_tracks h₃)
  have hslots : u₃.slots = u.slots := hnames.slots hrun.started
  have hknown₃ : Known u₃ value := by
    obtain ⟨-, rfl⟩ := unique_ok.1 h₁
    obtain ⟨-, rfl⟩ := unique_ok.1 h₂
    obtain ⟨-, rfl⟩ := unique_ok.1 h₃
    cases value <;> exact hknown
  have ho₃ : Orderly globals
      ((done, u.slots) :: (onFalse, u.slots) :: (onTrue, u.slots) :: promised)
      (onTrue :: onFalse :: done :: pending) u₃ :=
    ((((hrun.orderly ho).unique u.slots h₁).unique u.slots h₂).unique u.slots h₃).perm
      ((List.reverse_perm [onTrue, onFalse, done]).append_right pending)
  obtain ⟨hv, hslotsV, hlaidV⟩ := branched_carries globals ho₃
    (hnames.laid hrun.started (hrun.adds.laid hlaid)) hknown₃ (by simp [hslots])
    (by simp [hslots]) hbody hinner
  rw [hslots] at hslotsV
  have hdone : (done, v.slots) ∈ (done, u.slots) :: (onFalse, u.slots) :: (onTrue, u.slots)
      :: promised := by simp [hslotsV]
  have hfalse := hv.joined hdone (by simp [hslotsV])
  have hjoin : Tracks v [onFalse] ((v.jumped done).opened onFalse) [] :=
    (jumped_tracks v done).trans (opened_tracks _ onFalse)
  have hw := hother houter (hjoin.laid hv.started hlaidV) hfalse
  have hslotsW : w.slots = u.slots :=
    (slots_congr (otherwise_additive globals alternate _ _ _ houter hfalse.started).scopes).trans
      ((hjoin.slots hv.started).trans hslotsV)
  refine (hw.joined (by simp [hslotsW]) (by simp [hslotsW])).weaken ?_
  exact List.subset_append_right [(done, u.slots), (onFalse, u.slots), (onTrue, u.slots)] promised

/-- An arm keeps its promises, whichever of its forms it has. -/
theorem ifArm_carries_of (hglobals : ∀ b ∈ globals, b.2.isGlobal = true) {e : MiniC.Expr}
    {consequent : List Stmt} {alternate : Alternate} {pos : Position}
    (hbody : Carries globals (stmts globals consequent))
    (hother : Carries globals (otherwise globals alternate)) :
    Carries globals (ifArm globals ⟨e, consequent, alternate, pos⟩) := by
  cases hconst : e.isConstant with
  | true =>
      intro s x t h
      obtain ⟨zero, -, h⟩ := ifArm_constant globals hconst h
      cases zero with
      | true => exact hother h
      | false => exact inScope_carries globals hbody h
  | false =>
      by_cases halternate : alternate = .none
      · rw [halternate]
        exact arm_alone_carries globals hglobals hconst hbody
      · exact arm_both_carries globals hglobals hconst halternate hbody hother

mutual

/-- Whatever is lowered, the function under construction stays in order. -/
theorem stmt_carries (hglobals : ∀ b ∈ globals, b.2.isGlobal = true) :
    ∀ st : Stmt, Carries globals (stmt globals st)
  | .block body => by
      unfold stmt
      exact inScope_carries globals (stmts_carries hglobals body)
  | .branch arm => by
      unfold stmt
      exact ifArm_carries hglobals arm
  | .loop e body pos => by
      intro s x t h
      rcases loop_ok globals h with ⟨-, -, rfl⟩ | h
      · exact fun _ => id
      · exact loopSteps_carries globals hglobals (stmts_carries hglobals body) h
  | .ret value pos => by
      unfold stmt
      exact ret_carries globals hglobals value
  | .variable decl => by
      unfold stmt
      exact variableDecl_carries globals hglobals decl
  | .expr e => by
      intro s x t h hlaid promised pending ho
      unfold stmt at h
      obtain ⟨value, u, hvalue, hpure⟩ := bind_ok.1 h
      obtain ⟨-, rfl⟩ := pure_ok.1 hpure
      exact (expr_delivers globals hglobals e ho.started hlaid hvalue).1.orderly ho
  | .function _ => by
      intro s x t h
      unfold stmt at h
      exact (fail_ok.1 h).elim
  | .aggregate _ => by
      intro s x t h
      unfold stmt at h
      exact (fail_ok.1 h).elim

theorem stmts_carries (hglobals : ∀ b ∈ globals, b.2.isGlobal = true) :
    ∀ body : List Stmt, Carries globals (stmts globals body)
  | [] => by
      intro s x t h hlaid promised pending ho
      unfold stmts at h
      obtain ⟨-, rfl⟩ := pure_ok.1 h
      exact ho
  | st :: rest => by
      intro s x t h hlaid promised pending ho
      unfold stmts at h
      obtain ⟨_, u, hfirst, hrest⟩ := bind_ok.1 h
      have hlaid' := (stmt_steady globals st _ _ _ hfirst ho.started).laid hlaid
      exact stmts_carries hglobals rest hrest hlaid' (stmt_carries hglobals st hfirst hlaid ho)

theorem ifArm_carries (hglobals : ∀ b ∈ globals, b.2.isGlobal = true) :
    ∀ arm : Arm, Carries globals (ifArm globals arm)
  | ⟨_, consequent, alternate, _⟩ =>
      ifArm_carries_of globals hglobals (stmts_carries hglobals consequent)
        (otherwise_carries hglobals alternate)

theorem otherwise_carries (hglobals : ∀ b ∈ globals, b.2.isGlobal = true) :
    ∀ alternate : Alternate, Carries globals (otherwise globals alternate)
  | .none => by
      intro s x t h hlaid promised pending ho
      unfold otherwise at h
      obtain ⟨-, rfl⟩ := pure_ok.1 h
      exact ho
  | .block body => by
      unfold otherwise
      exact inScope_carries globals (stmts_carries hglobals body)
  | .elseIf arm => by
      unfold otherwise
      exact ifArm_carries hglobals arm

end

-- ============================================================= functions

/-- A function starts with a block and nothing pending. -/
theorem start_orderly (decl : FunctionDecl) (repr : IR.Ty) (params : List (String × IR.Ty)) :
    Orderly globals [] [] (startState decl repr params) := by
  refine ⟨⟨fun _ => [], ⟨start_tidy decl repr params, ⟨_, [], rfl, rfl⟩, ?_, ?_⟩, ?_, ?_⟩, rfl⟩
  · intro block hblock
    cases hblock
  · intro block hblock before instr behind hbody
    rw [List.mem_singleton.1 hblock] at hbody
    exact absurd hbody.symm (List.append_ne_nil_of_right_ne_nil _ (List.cons_ne_nil _ _))
  · intro p hp
    cases hp
  · intro slot hslot
    cases hslot

/-- A parameter is stored into a slot of its own. -/
theorem spill_carries {param : String × IR.Ty} {x : Unit} (h : spill param s = .ok (x, t))
    (hparam : param ∈ s.builder.function.params) (ho : Orderly globals promised pending s) :
    Orderly globals promised pending t := by
  obtain ⟨slot, u, halloca, rfl⟩ := spill_ok h
  obtain ⟨hrun, hdrawn, hlocal⟩ := alloca_runs globals ho.started halloca
  have hknown : Known s (.argument param.2 param.1) := hparam
  have hstore := store_emitted_runs globals hrun.started (hknown.runs hrun)
    (Or.inr ⟨hlocal, Or.inr hdrawn⟩)
  exact (hstore.orderly (hrun.orderly ho)).bind param.1 (hstore.drawn hdrawn)

theorem spills_carry : ∀ {params : List (String × IR.Ty)} {s t : State} {x : Unit},
    params.forM spill s = .ok (x, t) → params ⊆ s.builder.function.params →
    Orderly globals promised pending s → Orderly globals promised pending t
  | [], s, t, x, h, _, ho => by
      obtain ⟨-, rfl⟩ := pure_ok.1 h
      exact ho
  | param :: rest, s, t, x, h, hparams, ho => by
      obtain ⟨_, u, hspill, hrest⟩ := bind_ok.1 h
      have hu := spill_carries globals hspill (hparams List.mem_cons_self) ho
      refine spills_carry hrest ?_ hu
      rw [(spill_steady param _ _ _ hspill ho.started).grows.params]
      exact fun p hp => hparams (List.mem_cons_of_mem _ hp)

variable {globals} in
/-- A lowered function has come to its end, in order. -/
theorem Stages.orderly (hglobals : ∀ b ∈ globals, b.2.isGlobal = true) {decl : FunctionDecl}
    {repr : IR.Ty} {params : List (String × IR.Ty)} (h : Stages globals decl repr params s t u) :
    Orderly globals [] [] u ∧ u.builder.terminated = true := by
  have hs : Orderly globals [] [] s :=
    spills_carry globals h.spills (List.Subset.refl _) (start_orderly globals decl repr params)
  have hlaid := h.spilled.laid (start_laid decl repr params)
  have ht := stmts_carries globals hglobals decl.body h.body hlaid hs
  rw [h.ending]
  cases hend : t.builder.terminated with
  | true =>
      rw [if_pos rfl]
      exact ⟨ht, hend⟩
  | false =>
      rw [if_neg Bool.false_ne_true]
      refine ⟨ht.emitted ⟨?_, ?_, ?_⟩ rfl, terminated_emit ht.started _⟩
      · intro value hvalue
        have hvalue : value ∈ (defaultReturn repr).toList := hvalue
        unfold defaultReturn at hvalue
        split at hvalue
        · cases hvalue
        · rw [List.mem_singleton.1 hvalue]
          trivial
      · intro slot hslot
        cases hslot
      · intro target htarget
        cases htarget

end Lowering

-- ============================================================== programs

open IR Steps Lowering

/-- The storage of globals is global, and of their names and types. -/
theorem globalStorage_slots {p : Program} {lowered : List IR.Global}
    (h : p.globals.mapM Lowering.global = .ok lowered) :
    ∀ b ∈ Lowering.globalStorage lowered, b.2.isGlobal = true
      ∧ (b.2.name, some b.2.ty) ∈ p.globals.map fun g => (g.name, IR.Ty.ofSource? g.ty) := by
  intro b hb
  obtain ⟨g, hg, rfl⟩ := List.mem_map.1 (List.mem_reverse.1 hb)
  have hall := mapM_ok h
  obtain ⟨decl, hdecl, hlowered⟩ : ∃ decl ∈ p.globals, Lowering.global decl = .ok g := by
    clear h hb
    generalize p.globals = decls at hall
    induction hall with
    | nil => cases hg
    | @cons decl other _ _ hother _ ih =>
        rcases List.mem_cons.1 hg with rfl | hg
        · exact ⟨decl, List.mem_cons_self, hother⟩
        · obtain ⟨decl', hdecl', hlowered⟩ := ih hg
          exact ⟨decl', List.mem_cons_of_mem _ hdecl', hlowered⟩
  obtain ⟨hname, hglobal, hty⟩ := global_slot hlowered
  refine ⟨hglobal, List.mem_map.2 ⟨decl, hdecl, ?_⟩⟩
  rw [hname, hty]

/-- Every lowered function is built in order. -/
theorem lowerFunction_orderly {p : Program} {decl : FunctionDecl} {fn : IR.Function}
    (h : p.lowerFunction decl = .ok fn) :
    ∃ slots entry b n, Formed slots entry [] b ∧ b.terminated = true ∧ fn = b.function
      ∧ definitions fn.blocks = List.range n
      ∧ ∀ slot ∈ slots,
        (slot.name, some slot.ty) ∈ p.globals.map fun g => (g.name, IR.Ty.ofSource? g.ty) := by
  unfold Program.lowerFunction at h
  obtain ⟨lowered, hlowered, hfunction⟩ := except_bind_ok.1 h
  have hslots := globalStorage_slots hlowered
  obtain ⟨repr, params, s, t, u, hstages, rfl⟩ := function_ok hfunction
  obtain ⟨ho, hend⟩ := hstages.orderly fun b hb => (hslots b hb).1
  obtain ⟨entry, hformed, -, -⟩ := ho.ordered
  refine ⟨_, entry, u.builder, _, hformed, hend, rfl, ho.numbered, ?_⟩
  intro slot hslot
  obtain ⟨b, hb, rfl⟩ := List.mem_map.1 hslot
  exact (hslots b hb).2

/-- The first function of a text, lowered. -/
def firstLowered (source : String) : Option (Program × FunctionDecl × IR.Function) := do
  let p ← (frontend source (.empty false)).1.toOption
  let decl ← p.functions.head?
  let fn ← (p.lowerFunction decl).toOption
  return (p, decl, fn)

/-- What a source's first function is lowered to is a lowered function. -/
theorem firstLowered_some {source : String} {p : Program} {decl : FunctionDecl}
    {fn : IR.Function} (h : firstLowered source = some (p, decl, fn)) :
    p.lowerFunction decl = .ok fn := by
  unfold firstLowered at h
  obtain ⟨p', -, h⟩ := Option.bind_eq_some_iff.1 h
  obtain ⟨decl', -, h⟩ := Option.bind_eq_some_iff.1 h
  obtain ⟨fn', hfn, h⟩ := Option.bind_eq_some_iff.1 h
  cases h
  exact toOption_some.1 hfn

/-- A text whose first function is lowered is accepted. -/
theorem firstLowered_accepted {source : String} {p : Program} {decl : FunctionDecl}
    {fn : IR.Function} (h : firstLowered source = some (p, decl, fn)) :
    (∃ report', frontend source (.empty false) = (.ok p, report')) ∧ decl ∈ p.functions := by
  unfold firstLowered at h
  obtain ⟨p', hp, h⟩ := Option.bind_eq_some_iff.1 h
  obtain ⟨decl', hdecl, h⟩ := Option.bind_eq_some_iff.1 h
  obtain ⟨fn', -, h⟩ := Option.bind_eq_some_iff.1 h
  cases h
  exact ⟨⟨_, Prod.ext (toOption_some.1 hp) rfl⟩, List.mem_of_mem_head? hdecl⟩

/-- A loop with a return in it, and behind the return a variable that hides
another one. -/
def hiddenBehindReturn : String :=
  "int last; int f(short n) {
    while (n > 0) { int x = n; if (x == 2) { return x; long x = n; last = x; } n -= 1; }
    return last; }"

/-- What that function is lowered to, and its global. -/
theorem hiddenBehindReturn_lowered : ∃ p decl fn,
    firstLowered hiddenBehindReturn = some (p, decl, fn)
      ∧ p.globals.map (fun g => (g.name, IR.Ty.ofSource? g.ty)) = [("last", some .i32)] := by
  have h : (firstLowered hiddenBehindReturn).any (fun q =>
      q.1.globals.map (fun g => (g.name, IR.Ty.ofSource? g.ty)) = [("last", some .i32)])
        = true := by
    set_option maxRecDepth 2000 in
    rw [firstLowered, frontend, tokenize_written (rfl : hiddenBehindReturn = String.ofList _)]
    decide +kernel
  obtain ⟨⟨p, decl, fn⟩, hlowered, hglobals⟩ := (Option.any_eq_true _ _).1 h
  exact ⟨p, decl, fn, hlowered, of_decide_eq_true hglobals⟩

/-- Lowered functions are well-formed control-flow graphs. -/
theorem lowerFunction_connected {p : Program} {decl : FunctionDecl} {fn : IR.Function}
    (h : p.lowerFunction decl = .ok fn) : fn.Connected := by
  obtain ⟨slots, entry, b, n, hformed, hend, rfl, -, -⟩ := lowerFunction_orderly h
  exact hformed.connected hend

theorem hiddenBehindReturn_connected :
    ∃ p decl fn, firstLowered hiddenBehindReturn = some (p, decl, fn) ∧ fn.Connected := by
  obtain ⟨p, decl, fn, hlowered, -⟩ := hiddenBehindReturn_lowered
  exact ⟨p, decl, fn, hlowered, lowerFunction_connected (firstLowered_some hlowered)⟩

/-- In lowered functions definitions dominate uses. -/
theorem lowerFunction_dominated {p : Program} {decl : FunctionDecl} {fn : IR.Function}
    (h : p.lowerFunction decl = .ok fn) :
    fn.Dominated (p.globals.map fun g => (g.name, IR.Ty.ofSource? g.ty)) := by
  obtain ⟨slots, entry, b, n, hformed, -, rfl, hnumbered, hglobals⟩ := lowerFunction_orderly h
  exact hformed.dominated hnumbered hglobals

theorem hiddenBehindReturn_dominated :
    ∃ p decl fn, firstLowered hiddenBehindReturn = some (p, decl, fn)
      ∧ fn.Dominated [("last", some .i32)] := by
  obtain ⟨p, decl, fn, hlowered, hglobals⟩ := hiddenBehindReturn_lowered
  refine ⟨p, decl, fn, hlowered, ?_⟩
  rw [← hglobals]
  exact lowerFunction_dominated (firstLowered_some hlowered)

end MiniC
