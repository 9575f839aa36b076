/-
The names that a lowered function gives. Names are handed out before they are
used: an if or a while gets the labels of its blocks before the first of them
is opened, a variable its slot's name before the slot is reserved.

# Names that are pending

`Spends` says of a step which names are pending before and behind it, where a name
that is used is no longer pending; so a name is used once. The invariant behind it
(`Naming`) is kept by the builder: names that were used and names that are pending
are all different, and all were handed out. Expressions hand out no name that is
pending behind them, and what is pending stays so (`expr_spends`), which holds of
them for the same reason as everything else that definitions and stores keep.

Names are spent in the order in which blocks are opened and not in that in which
they were handed out, so pending names are a list up to order (`inOrder`).

# Parameters and words

Parameters are pending from the start to the end, since nothing may use their
names. The names of temporaries are numbers, and all others start as a word
does: they are made from labels of lowering's own or from identifiers, which
the words of an accepted text spell. So no name is given twice
(`lowerFunction_names`).
-/
import MiniC.Proofs.IR.Names
import MiniC.Proofs.Lowering.Graph
import MiniC.Proofs.Parser.Drawing

namespace MiniC.Lowering

open IR Steps

-- ======================================================= names pending

/-- Whether a step uses and hands out names such that those pending before it
become those pending behind it. -/
def Spends {α : Type} (before : List String) (step : Lower α) (behind : α → List String) : Prop :=
  ∀ s a t, Naming s.builder before → step s = .ok (a, t) → Naming t.builder (behind a)

namespace Spends

variable {α β : Type} {before pending : List String} {behind : α → List String}
  {last : β → List String}

theorem bind {x : Lower α} {f : α → Lower β} (hx : Spends before x behind)
    (hf : ∀ a, Spends (behind a) (f a) last) : Spends before (x >>= f) last := by
  intro s b t hs h
  obtain ⟨a, u, hxs, hfu⟩ := bind_ok.1 h
  exact hf a u b t (hx s a u hs hxs) hfu

theorem pure (a : α) : Spends pending (pure a : Lower α) fun _ => pending := by
  intro s b t hs h
  obtain ⟨-, rfl⟩ := pure_ok.1 h
  exact hs

theorem fail (e : LowerError) : Spends before (fail e : Lower α) behind :=
  fun _ _ _ _ h => (fail_ok.1 h).elim

theorem lift (x : Except LowerError α) : Spends pending (liftM x : Lower α) fun _ => pending := by
  intro s a t hs h
  obtain ⟨-, rfl⟩ := lift_ok.1 h
  exact hs

theorem ite {c : Prop} [Decidable c] {x y : Lower α} (hx : Spends before x behind)
    (hy : Spends before y behind) : Spends before (if c then x else y) behind := by
  split
  · exact hx
  · exact hy

theorem get {f : State → Lower α} (hf : ∀ s, Spends before (f s) behind) :
    Spends before (get >>= f) behind := by
  intro s a t hs h
  obtain ⟨_, _, hget, hfs⟩ := bind_ok.1 h
  obtain ⟨rfl, rfl⟩ := get_ok.1 hget
  exact hf s s a t hs hfs

/-- Names are handed out in the order in which they are used. -/
theorem inOrder {step : Lower α} (names : List String)
    (h : Spends (names ++ pending) step behind) :
    Spends (names.reverse ++ pending) step behind :=
  fun s a t hs hstep =>
    h s a t (hs.perm ((List.reverse_perm names).append_right pending)) hstep

end Spends

section Pending

variable {pending : List String}

/-- A name that is handed out is pending. -/
theorem unique_spends {base : String} (hbase : Wordy base) :
    Spends pending (unique base) fun name => name :: pending := by
  intro s name t hs h
  obtain ⟨rfl, rfl⟩ := unique_ok.1 h
  exact hs.unique base hbase

/-- An instruction uses the names that it reserves. -/
theorem emit_spends (instr : Instr) :
    Spends (instr.reserves?.toList ++ pending) (emit instr) fun _ => pending := by
  intro s u t hs h
  obtain rfl := emit_ok.1 h
  exact hs.emit

/-- A block that is opened uses its label. -/
theorem append_spends (label : String) :
    Spends (label :: pending) (append label) fun _ => pending := by
  intro s u t hs h
  obtain rfl := append_ok.1 h
  exact hs.append

/-- A block that is jumped to and opened uses its label. -/
theorem jumpTo_spends (label : String) : Spends pending (jumpTo label) fun _ => pending := by
  intro s u t hs h
  obtain rfl := jumpTo_ok.1 h
  exact hs.jumpTo label

/-- The name of a slot is used as soon as it is handed out. -/
theorem alloca_spends {base : String} (hbase : Wordy base) (ty : IR.Ty) :
    Spends pending (alloca base ty) fun _ => pending :=
  (unique_spends hbase).bind fun name =>
    (emit_spends (.alloca ⟨name, false, ty⟩)).bind fun _ => .pure _

/-- A name that comes into sight was used when its slot was reserved. -/
theorem bind_spends (name : String) (slot : Slot) :
    Spends pending (bind name slot) fun _ => pending := by
  intro s u t hs h
  obtain rfl := bind_ok_iff.1 h
  rw [builder_bind]
  exact hs

/-- A scope spends what is spent in it. -/
theorem inScope_spends {α : Type} {step : Lower α} (h : Spends pending step fun _ => pending) :
    Spends pending (inScope step) fun _ => pending := by
  intro s a t hs hstep
  obtain ⟨u, hinner, rfl⟩ := inScope_ok.1 hstep
  exact h { s with scopes := [] :: s.scopes } a u hs hinner

end Pending

-- ========================================================== expressions

/-- Definitions and stores use no name that is pending. -/
theorem across_naming :
    Across fun s t => ∀ pending, Naming s.builder pending → Naming t.builder pending where
  refl _ _ hs := hs
  trans _ _ _ h h' pending hs := h' pending (h pending hs)
  define definition := by
    intro s value t h pending hs
    obtain ⟨-, rfl⟩ := define_ok.1 h
    exact hs.freshTemp.emit
  store value slot := fun s u t h pending hs => emit_spends (.store value slot) s u t hs h

section Expressions

variable (globals : List (String × Slot)) {pending : List String}

/-- Expressions leave what is pending so. -/
theorem expr_spends (e : MiniC.Expr) : Spends pending (expr globals e) fun _ => pending :=
  fun s value t hs h => expr_across across_naming globals e s value t h pending hs

/-- Conditions leave what is pending so. -/
theorem condition_spends (e : MiniC.Expr) :
    Spends pending (condition globals e) fun _ => pending :=
  fun s value t hs h => condition_across across_naming globals e s value t h pending hs

theorem convert_spends (value : Value) (ty : IR.Ty) :
    Spends pending (convert value ty) fun _ => pending :=
  fun s result t hs h => convert_across across_naming value ty s result t h pending hs

theorem store_spends (value : Value) (slot : Slot) :
    Spends pending (store value slot) fun _ => pending :=
  fun s result t hs h => store_across across_naming value slot s result t h pending hs

-- =========================================================== statements

/-- A variable uses the name that it gets. -/
theorem variableDecl_spends {decl : VariableDecl} (hname : Identifier decl.name) :
    Spends pending (variableDecl globals decl) fun _ => pending := by
  refine (Spends.lift _).bind fun ty => ?_
  refine (alloca_spends hname.starts ty).bind fun slot => ?_
  cases decl.init with
  | none => exact bind_spends decl.name slot
  | some init =>
      exact (expr_spends globals init).bind fun value => (store_spends value slot).bind fun _ =>
        bind_spends decl.name slot

/-- Leaving a function opens a block of its own behind. -/
theorem leave_spends (result : Option Value) : Spends pending (leave result) fun _ => pending := by
  refine Spends.get fun s => .ite ?_ (emit_spends (.ret result))
  exact (unique_spends (by decide)).bind fun label => (append_spends label).bind fun _ =>
    emit_spends (.ret result)

theorem ret_spends (value : Option MiniC.Expr) :
    Spends pending (ret globals value) fun _ => pending := by
  cases value with
  | none => exact leave_spends none
  | some e =>
      rw [ret_some]
      exact (expr_spends globals e).bind fun value => .get fun s =>
        (convert_spends value _).bind fun result => leave_spends (some result)

/-- A loop uses its three labels. -/
theorem loopSteps_spends (e : MiniC.Expr) {body : List Stmt}
    (hbody : ∀ {pending}, Spends pending (stmts globals body) fun _ => pending) :
    Spends pending (loopSteps globals e body) fun _ => pending := by
  refine (unique_spends (by decide)).bind fun test => (unique_spends (by decide)).bind fun enter =>
    (unique_spends (by decide)).bind fun done => Spends.inOrder [test, enter, done] ?_
  refine (jumpTo_spends test).bind fun _ => (append_spends test).bind fun _ => ?_
  refine (condition_spends globals e).bind fun value => ?_
  refine (emit_spends (.branch value enter done)).bind fun _ => ?_
  refine (append_spends enter).bind fun _ => ?_
  exact (inScope_spends hbody).bind fun _ => (jumpTo_spends test).bind fun _ => append_spends done

/-- An arm uses its labels, each once, whatever its other side is. -/
theorem ifArm_spends_of {e : MiniC.Expr} {consequent : List Stmt} {alternate : Alternate}
    {pos : Position}
    (hbody : ∀ {pending}, Spends pending (stmts globals consequent) fun _ => pending)
    (hother : ∀ {pending}, Spends pending (otherwise globals alternate) fun _ => pending) :
    Spends pending (ifArm globals ⟨e, consequent, alternate, pos⟩) fun _ => pending := by
  unfold ifArm
  refine Spends.ite ?_ ?_
  · exact (Spends.lift _).bind fun zero => .ite hother (inScope_spends hbody)
  refine (condition_spends globals e).bind fun value => (unique_spends (by decide)).bind
    fun onTrue => ?_
  have hboth : Spends (onTrue :: pending) (do
      let onFalse ← unique "if.else"
      let done ← unique "if.end"
      emit (.branch value onTrue onFalse)
      append onTrue
      inScope (stmts globals consequent)
      jumpTo done
      append onFalse
      otherwise globals alternate
      jumpTo done
      append done : Lower Unit) fun _ => pending := by
    refine (unique_spends (by decide)).bind fun onFalse => (unique_spends (by decide)).bind
      fun done => Spends.inOrder [onTrue, onFalse, done] ?_
    refine (emit_spends (.branch value onTrue onFalse)).bind fun _ => ?_
    refine (append_spends onTrue).bind fun _ => (inScope_spends hbody).bind fun _ => ?_
    refine (jumpTo_spends done).bind fun _ => (append_spends onFalse).bind fun _ => ?_
    exact hother.bind fun _ => (jumpTo_spends done).bind fun _ => append_spends done
  cases alternate with
  | none =>
      refine (unique_spends (by decide)).bind fun done => Spends.inOrder [onTrue, done] ?_
      refine (emit_spends (.branch value onTrue done)).bind fun _ => ?_
      refine (append_spends onTrue).bind fun _ => (inScope_spends hbody).bind fun _ => ?_
      exact (jumpTo_spends done).bind fun _ => append_spends done
  | block body => exact hboth
  | elseIf arm => exact hboth

end Expressions

mutual

/-- Statements put together from words of a source leave pending names
pending. -/
theorem stmt_spends (globals : List (String × Slot)) : ∀ (st : Stmt) {pending : List String},
    AllWorded st.leaves → Spends pending (stmt globals st) fun _ => pending
  | .block body, _, h => by
      unfold stmt
      exact inScope_spends (stmts_spends globals body h)
  | .branch arm, _, h => by
      unfold stmt
      exact ifArm_spends globals arm h
  | .loop e body pos, pending, h => by
      intro s x t hs hstep
      rcases loop_ok globals hstep with ⟨-, -, rfl⟩ | hstep
      · exact hs
      · have hbody : AllWorded (leavesAll body) := (List.forall_mem_cons.1 h).2
        exact loopSteps_spends globals e (stmts_spends globals body hbody) s x t hs hstep
  | .ret value pos, _, _ => by
      unfold stmt
      exact ret_spends globals value
  | .variable decl, _, h => by
      unfold stmt
      exact variableDecl_spends globals ((h _ List.mem_cons_self).named decl rfl)
  | .expr e, _, _ => by
      unfold stmt
      exact (expr_spends globals e).bind fun _ => .pure _
  | .function _, _, _ => by
      unfold stmt
      exact .fail _
  | .aggregate _, _, _ => by
      unfold stmt
      exact .fail _

theorem stmts_spends (globals : List (String × Slot)) :
    ∀ (body : List Stmt) {pending : List String}, AllWorded (leavesAll body) →
      Spends pending (stmts globals body) fun _ => pending
  | [], _, _ => by
      unfold stmts
      exact .pure _
  | st :: rest, _, h => by
      obtain ⟨hst, hrest⟩ := List.forall_mem_append.1 h
      unfold stmts
      exact (stmt_spends globals st hst).bind fun _ => stmts_spends globals rest hrest

theorem ifArm_spends (globals : List (String × Slot)) : ∀ (arm : Arm) {pending : List String},
    AllWorded arm.leaves → Spends pending (ifArm globals arm) fun _ => pending
  | ⟨_, consequent, alternate, _⟩, _, h => by
      obtain ⟨hthen, hother⟩ := List.forall_mem_append.1 (List.forall_mem_cons.1 h).2
      exact ifArm_spends_of globals (stmts_spends globals consequent hthen)
        (otherwise_spends globals alternate hother)

theorem otherwise_spends (globals : List (String × Slot)) :
    ∀ (alternate : Alternate) {pending : List String}, AllWorded alternate.leaves →
      Spends pending (otherwise globals alternate) fun _ => pending
  | .none, _, _ => by
      unfold otherwise
      exact .pure _
  | .block body, _, h => by
      unfold otherwise
      exact inScope_spends (stmts_spends globals body h)
  | .elseIf arm, _, h => by
      unfold otherwise
      exact ifArm_spends globals arm h

end

-- ============================================================= functions

/-- A parameter gets a slot with a name of its own. -/
theorem spill_spends {param : String × IR.Ty} {pending : List String} (hname : Wordy param.1) :
    Spends pending (spill param) fun _ => pending :=
  (alloca_spends (hname.append ".addr") param.2).bind fun slot =>
    (emit_spends (.store (.argument param.2 param.1) slot)).bind fun _ => bind_spends param.1 slot

theorem spills_spend {pending : List String} : ∀ {params : List (String × IR.Ty)},
    (∀ param ∈ params, Wordy param.1) → Spends pending (params.forM spill) fun _ => pending
  | [], _ => .pure _
  | param :: _, h =>
      (spill_spends (h param List.mem_cons_self)).bind fun _ =>
        spills_spend fun other hother => h other (List.mem_cons_of_mem param hother)

/-- The parameters of a lowered function are pending at its end still. -/
theorem Stages.naming {globals : List (String × Slot)} {decl : FunctionDecl} {repr : IR.Ty}
    {params : List (String × IR.Ty)} {s t u : State} (h : Stages globals decl repr params s t u)
    (hworded : decl.Worded) (hnodup : (decl.params.map (·.name)).Nodup) :
    Naming u.builder (u.builder.function.params.map (·.1)) := by
  have hparams : u.builder.function.params = params :=
    ((h.spilled.grows.trans h.built.grows).trans h.ended.grows).params
  have hnames : params.map (·.1) = decl.params.map (·.name) := hparams ▸ h.names
  have hwordy : ∀ name ∈ params.map (·.1), Wordy name := by
    rw [hnames]
    intro name hname
    obtain ⟨param, hparam, rfl⟩ := List.mem_map.1 hname
    exact (hworded.params param hparam).starts
  have hstart : Naming (startState decl repr params).builder (params.map (·.1)) :=
    .start decl.name repr (hnames ▸ hnodup) hwordy
  have hs := spills_spend (fun param hparam => hwordy _ (List.mem_map_of_mem hparam))
    _ _ _ hstart h.spills
  have ht := stmts_spends globals decl.body hworded.leaves _ _ _ hs h.body
  rw [hparams, h.ending]
  split
  · exact ht
  · exact ht.emit

end MiniC.Lowering

namespace MiniC

-- ============================================================== programs

open IR Lowering

/-- A lowered function gives no name twice, if its variables and parameters
have identifiers for names. -/
theorem lowerFunction_names {p : Program} {decl : FunctionDecl} {fn : IR.Function}
    (hworded : decl.Worded) (hnodup : (decl.params.map (·.name)).Nodup)
    (h : p.lowerFunction decl = .ok fn) : fn.names.Nodup := by
  obtain ⟨-, -, -, n, -, -, -, hnumbered, -⟩ := lowerFunction_orderly h
  unfold Program.lowerFunction at h
  obtain ⟨lowered, -, hfunction⟩ := Steps.except_bind_ok.1 h
  obtain ⟨repr, params, s, t, u, hstages, rfl⟩ := function_ok hfunction
  have hnaming := hstages.naming hworded hnodup
  have hwords : (labels u.builder ++ reserved u.builder.function.blocks
      ++ u.builder.function.params.map (·.1)).Nodup := by
    rw [List.append_assoc]
    exact hnaming.tidy.nodup
  have htemps : ((List.range n).map toString).Nodup :=
    List.nodup_range.map fun _ _ hsame => Names.repr_inj hsame
  unfold Function.names
  rw [hnumbered]
  refine List.nodup_append.2 ⟨hwords, htemps, fun word hword number hnumber heq => ?_⟩
  obtain ⟨k, -, rfl⟩ := List.mem_map.1 hnumber
  rw [List.append_assoc] at hword
  have htaken := hnaming.tidy.taken word hword
  exact not_wordy_toString k (heq ▸ hnaming.wordy word htaken)

/-- Names never clash. Whatever the parameters are, calls for names come to
their ends, each with the first free name of its base, so what they answer
differs; and no function lowered from an accepted text gives a name twice. -/
theorem names_distinct :
    (∀ (name : String) (returnType : IR.Ty) (params : List (String × IR.Ty))
        (bases : List String),
      let b := Builder.start name returnType params
      let names := labels b ++ (b.uniques bases).1
      (∃ m, Names.Calls (.reserving (params.map (·.1))) ("entry" :: bases) names m)
        ∧ Names.HandsOut (params.map (·.1)) ("entry" :: bases) names
        ∧ names.Nodup ∧ ∀ other ∈ names, other ∉ params.map (·.1))
      ∧ ∀ {source : String} {report report' : Report} {p : Program} {decl : FunctionDecl}
          {fn : IR.Function},
        frontend source report = (.ok p, report') → decl ∈ p.functions →
        p.lowerFunction decl = .ok fn → fn.names.Nodup := by
  constructor
  · intro name returnType params bases
    obtain ⟨hcalls, hhands⟩ := start_handsOut name returnType params bases
    exact ⟨hcalls, hhands, hhands.distinct⟩
  · intro source report report' p decl fn hfront hdecl hfn
    have hwellFormed := (frontend_wellFormed hfront).function hdecl
    exact lowerFunction_names (frontend_worded hfront decl hdecl) hwellFormed.names hfn

/-- A function whose parameters and variables are called like names of
lowering's own, and like each other with a number behind. -/
def lookalikes : String :=
  "int f(int entry, int unreachable) {
    int a = entry; { int a = 1; int a1 = a; unreachable = a1; }
    return a; long entry1 = 2; return unreachable; }"

/-- The names that `lookalikes` is lowered to. -/
def lookalikeNames : List String :=
  ["entry1", "unreachable1", "entry.addr", "unreachable.addr", "a", "a1", "a11", "entry11",
    "entry", "unreachable", "0", "1", "2", "3", "4"]

/-- What a function is lowered to whose names look like those of lowering. -/
theorem lookalikes_lowered : ∃ p decl fn, firstLowered lookalikes = some (p, decl, fn)
    ∧ fn.names = lookalikeNames := by
  have h : (firstLowered lookalikes).any (fun q => q.2.2.names = lookalikeNames) = true := by
    set_option maxRecDepth 2000 in
    rw [firstLowered, frontend, tokenize_written (rfl : lookalikes = String.ofList _)]
    decide +kernel
  obtain ⟨⟨p, decl, fn⟩, hlowered, hnames⟩ := (Option.any_eq_true _ _).1 h
  exact ⟨p, decl, fn, hlowered, of_decide_eq_true hnames⟩

/-- Calls skip what suffixes and parameters spell, and `lookalikes` is lowered
with names that all differ. -/
theorem lookalikes_distinct :
    ((Builder.start "f" .i32 [("x", .i32)]).uniques ["a", "a", "a1", "a", "x"]).1
        = ["a", "a1", "a11", "a2", "x1"]
      ∧ ∃ p decl fn, firstLowered lookalikes = some (p, decl, fn)
        ∧ fn.names = lookalikeNames ∧ fn.names.Nodup := by
  refine ⟨by decide +kernel, ?_⟩
  obtain ⟨p, decl, fn, hlowered, hnames⟩ := lookalikes_lowered
  obtain ⟨⟨report', hfront⟩, hdecl⟩ := firstLowered_accepted hlowered
  exact ⟨p, decl, fn, hlowered, hnames,
    names_distinct.2 hfront hdecl (firstLowered_some hlowered)⟩

end MiniC
