/-
All stages decide a constant condition alike (`frontend_decidesAlike`).

# Notes

The parser notes whether a constant condition holds, once for each choice and in
order (`frontend_notes`). The notes are found among everything that is remarked
on: what is said of variables are warnings, so what is left of the remarks of a
statement are the verdicts on its choices.

# The back ends

Code generation emits what runs then and no test for it, and lowering goes
there. Both treat a function as if its decided choices were made, so what they
cut off is in neither (`FunctionDecl.decided`), and everything else is in both.
Lowered code that control reaches at a choice goes on in its body, or in what
runs otherwise, as the note says (`FunctionDecl.DecidedAlike`).

# The exception

It is a loop whose constant is a number between zero and one, of either sign, or
none at all. The parser and code generation take it to hold, and so does the
lowering of loops where it asks whether the loop is any code; but the branch it
then emits goes by the whole part of the constant, which is zero
(`halfLoop_disagrees`). With a number that has a whole part, if it is not zero,
the stages agree.
Consumed by no other module.
-/
import MiniC.Proofs.Agreement
import MiniC.Proofs.Codegen.Choices
import MiniC.Proofs.Lowering.Choices
import MiniC.Proofs.Parser.Drawing
import MiniC.Proofs.Parser.Folding
import MiniC.Proofs.Reporting
import MiniC.Proofs.Strictness

namespace MiniC

open Steps

-- ================================================================== notes

/-- The notes among diagnostics. -/
def notesOf (ds : List Diagnostic) : List Diagnostic := ds.filter (·.severity = .note)

/-- The note that a condition is decided. -/
def Expr.verdictNote (e : Expr) (holds : Bool) : Diagnostic :=
  ⟨.note, if holds then "condition is always true" else "condition is always false", e.pos⟩

/-- What is noted of a choice. -/
def Choice.notes (c : Choice) : List Diagnostic :=
  (c.condition.verdict?.map c.condition.verdictNote).toList

/-- What is noted of the choices of a function. -/
def FunctionDecl.notes (decl : FunctionDecl) : List Diagnostic := decl.choices.flatMap Choice.notes

/-- Notes are found part by part. -/
@[simp] theorem notesOf_append (ds ds' : List Diagnostic) :
    notesOf (ds ++ ds') = notesOf ds ++ notesOf ds' :=
  List.filter_append ..

/-- A condition is noted by its verdict. -/
theorem Expr.notesOf_remarks (e : Expr) :
    notesOf e.conditionRemarks = (e.verdict?.map e.verdictNote).toList := by
  unfold conditionRemarks verdict?
  cases e.isConstant with
  | false => rfl
  | true =>
      cases e.foldsToZero with
      | error reason => rfl
      | ok zero => cases zero <;> rfl

/-- What is said of variables are warnings. -/
theorem VariableDecl.notesOf_remarks (decl : VariableDecl) : notesOf decl.remarks = [] := by
  have hnarrowing (init : Expr) : notesOf (narrowingRemarks decl.ty init) = [] := by
    unfold narrowingRemarks
    split
    · split
      · split <;> rfl
      · rfl
    · rfl
  unfold remarks initializerRemarks
  cases decl.init with
  | none => rfl
  | some init => rw [Option.toList_some, List.flatMap_singleton, hnarrowing]

mutual

/-- What is noted of a statement is noted of its choices. -/
theorem Stmt.notesOf_remarks : ∀ st : Stmt, notesOf st.remarks = st.choices.flatMap Choice.notes
  | .block body => by rw [Stmt.remarks, Stmt.choices, notesOf_bodyRemarks body]
  | .branch arm => by rw [Stmt.remarks, Stmt.choices, arm.notesOf_remarks]
  | .loop e body pos => by
      rw [Stmt.remarks, Stmt.choices, notesOf_append, e.notesOf_remarks, notesOf_bodyRemarks body]
      rfl
  | .variable decl => decl.notesOf_remarks
  | .ret _ _ => rfl
  | .expr _ => rfl
  | .function _ => rfl
  | .aggregate _ => rfl

/-- So is what is noted of statements in sequence. -/
theorem notesOf_bodyRemarks : ∀ body : List Stmt,
    notesOf (bodyRemarks body) = (choicesAll body).flatMap Choice.notes
  | [] => rfl
  | st :: rest => by
      rw [bodyRemarks, choicesAll, notesOf_append, List.flatMap_append, st.notesOf_remarks,
        notesOf_bodyRemarks rest]

/-- So is what is noted of an arm. -/
theorem Arm.notesOf_remarks : ∀ arm : Arm,
    notesOf arm.remarks = arm.choices.flatMap Choice.notes
  | ⟨e, consequent, alternate, pos⟩ => by
      rw [Arm.remarks, Arm.choices, notesOf_append, notesOf_append, e.notesOf_remarks,
        notesOf_bodyRemarks consequent, alternate.notesOf_remarks, List.flatMap_cons,
        List.flatMap_append, List.append_assoc]
      rfl

/-- So is what is noted of an alternate. -/
theorem Alternate.notesOf_remarks : ∀ alternate : Alternate,
    notesOf alternate.remarks = alternate.choices.flatMap Choice.notes
  | .none => rfl
  | .block body => by rw [Alternate.remarks, Alternate.choices, notesOf_bodyRemarks body]
  | .elseIf arm => by rw [Alternate.remarks, Alternate.choices, arm.notesOf_remarks]

end

/-- What is noted of a function is noted of its choices; of its parameters
nothing is. -/
theorem FunctionDecl.notesOf_remarks (decl : FunctionDecl) :
    notesOf decl.remarks = decl.notes := by
  have hparams (params : List VariableDecl) :
      notesOf (params.flatMap VariableDecl.remarks) = [] := by
    induction params with
    | nil => rfl
    | cons param rest ih =>
        rw [List.flatMap_cons, notesOf_append, ih, param.notesOf_remarks]
        rfl
  rw [remarks, notesOf_append, hparams, notesOf_bodyRemarks]
  rfl

/-- Of two lists that are interleaved the notes are those of the second, if the
first has none. -/
theorem Interleaved.notesOf {as bs cs : List (List Diagnostic)} (h : Interleaved as bs cs)
    (hnone : ∀ ds ∈ as, notesOf ds = []) : MiniC.notesOf cs.flatten = MiniC.notesOf bs.flatten := by
  induction h with
  | nil => rfl
  | left a _ ih =>
      obtain ⟨hrest, ha⟩ := List.forall_mem_append.1 hnone
      rw [List.flatten_append, notesOf_append, ih hrest, List.flatten_singleton,
        ha a List.mem_cons_self, List.append_nil]
  | right b _ ih =>
      rw [List.flatten_append, List.flatten_append, notesOf_append, notesOf_append, ih hnone]

/-- What is noted of a declaration is noted of the functions in it. -/
theorem Stmt.Says.notes {st : Stmt} {ds : List Diagnostic} (h : st.Says ds)
    (hst : (∃ decl, st = .function decl) ∨ (∃ decl, st = .variable decl)
      ∨ ∃ decl, st = .aggregate decl) :
    notesOf ds = st.callables.flatMap FunctionDecl.notes := by
  have hmap (fs : List FunctionDecl) :
      notesOf (fs.map FunctionDecl.remarks).flatten = fs.flatMap FunctionDecl.notes := by
    induction fs with
    | nil => rfl
    | cons f rest ih =>
        rw [List.map_cons, List.flatten_cons, notesOf_append, ih, f.notesOf_remarks,
          List.flatMap_cons]
  rcases hst with ⟨decl, rfl⟩ | ⟨decl, rfl⟩ | ⟨decl, rfl⟩
  · obtain rfl : ds = decl.remarks := h
    rw [decl.notesOf_remarks, Stmt.callables, List.flatMap_singleton]
  · obtain rfl : ds = decl.remarks := h
    exact decl.notesOf_remarks
  · obtain ⟨parts, hparts, rfl⟩ := h
    refine (hparts.notesOf ?_).trans (hmap decl.methods)
    intro ds hds
    obtain ⟨member, -, rfl⟩ := List.mem_map.1 hds
    exact member.notesOf_remarks

/-- What is noted of a program is noted of its functions and methods. -/
theorem Program.Says.notes {p : Program} {ds : List Diagnostic} (h : p.Says ds)
    (hp : ∀ st ∈ p.body, (∃ decl, st = .function decl) ∨ (∃ decl, st = .variable decl)
      ∨ ∃ decl, st = .aggregate decl) :
    notesOf ds = (p.body.flatMap Stmt.callables).flatMap FunctionDecl.notes := by
  obtain ⟨parts, hparts, rfl⟩ := h
  generalize p.body = body at hparts hp ⊢
  induction hparts with
  | nil => rfl
  | cons htold _ ih =>
      obtain ⟨hst, hrest⟩ := List.forall_mem_cons.1 hp
      rw [List.flatten_cons, notesOf_append, htold.notes hst, ih hrest, List.flatMap_cons,
        List.flatMap_append]

/-- A report keeps notes as they are. -/
theorem Report.notes_append (r : Report) (ds : List Diagnostic) :
    notesOf (r.append ds).entries = notesOf r.entries ++ notesOf ds := by
  rw [Report.entries_append, notesOf_append]
  congr 1
  induction ds with
  | nil => rfl
  | cons d rest ih =>
      unfold notesOf at ih ⊢
      rw [List.map_cons, List.filter_cons, List.filter_cons, ih]
      unfold Report.admitted
      obtain ⟨severity, message, pos⟩ := d
      cases r.strict <;> cases severity <;> rfl

/-- The notes on an accepted text are those of its choices, in order. -/
theorem frontend_notes {source : String} {report report' : Report} {p : Program}
    (h : frontend source report = (.ok p, report')) :
    notesOf report'.entries
      = notesOf report.entries ++ (p.body.flatMap Stmt.callables).flatMap FunctionDecl.notes := by
  have hparsed := parse_of_frontend h
  have hlawful := (parse_wellFormed hparsed).lawful (parse_folds hparsed)
  obtain ⟨result, ds, hparse, htold⟩ := Parser.parse_eq (tokenize source).1
  rw [hparse] at hparsed
  cases hparsed
  have hfaults : notesOf (tokenize source).2 = [] := by
    refine List.filter_eq_nil_iff.2 fun d hd => ?_
    rw [(faults_exact hd).1]
    decide
  rw [Report.notes_append, Report.notes_append, hfaults, List.append_nil,
    (htold p rfl).notes hlawful.declarations]

-- ================================================================= stages

/-- Whether the two back ends treat the choices of a function as the notes on
their conditions say. Control is known to enter the body of a choice in lowered
code if that is `sure`. -/
structure FunctionDecl.DecidedAlike (p : Program) (sure : Choice → Prop) (decl : FunctionDecl) :
    Prop where
  /-- A constant condition is known to hold or to fail, and noted to. -/
  noted : ∀ c ∈ decl.choices, c.condition.isConstant = true →
    ∃ holds, c.condition.verdict? = some holds ∧ c.notes = [c.condition.verdictNote holds]
  /-- What a decided choice cuts off is in neither back end. -/
  cutOff : (∀ types noRedZone strings,
      Codegen.function p types noRedZone strings decl.decided
        = Codegen.function p types noRedZone strings decl)
    ∧ p.lowerFunction decl.decided = p.lowerFunction decl
  /-- Every other choice has its code in that of the function. -/
  emitted : ∀ env s ls t, Codegen.bodyLines env decl s = .ok (ls, t) →
    ∀ c ∈ decl.kept, Codegen.Emitted env c ls
  /-- The code of a choice that holds is that of its body. -/
  emitsBody : ∀ c ∈ decl.choices, c.condition.verdict? = some true →
    ∀ env shared s code t, Codegen.ofChoice env shared c s = .ok (code, t) →
      ∃ u inner v, Codegen.inScope (Codegen.stmts env c.body) u = .ok (inner, v)
        ∧ Codegen.ComesTo code inner
  /-- The code of one that fails is that of what runs otherwise. -/
  emitsOther : ∀ c ∈ decl.choices, c.condition.verdict? = some false →
    ∀ env shared, Codegen.ofChoice env shared c = Codegen.otherwise env shared c.alternate
  /-- Every choice that is not cut off is lowered at some stage of the function. -/
  lowered : ∀ globals fn, Lowering.function globals decl = .ok fn →
    ∀ c ∈ decl.kept, ∃ s t, Lowering.LoweredAt globals fn c s t
  /-- Control that reaches a choice that holds enters its body. -/
  entersBody : ∀ globals fn, Lowering.function globals decl = .ok fn →
    ∀ c ∈ decl.choices, c.condition.verdict? = some true → sure c →
      ∀ s t, Lowering.LoweredAt globals fn c s t → Lowering.Enters globals fn s c.body
  /-- Where one that fails is lowered is only what runs otherwise. -/
  entersOther : ∀ c ∈ decl.choices, c.condition.verdict? = some false →
    ∀ globals, Lowering.ofChoice globals c = Lowering.otherwise globals c.alternate

/-- Whether all stages decide the conditions of a program alike, whose parse has
turned a report into another. -/
structure Program.DecidesAlike (p : Program) (sure : Choice → Prop) (report report' : Report) :
    Prop where
  /-- The parser notes each choice of each function by its verdict. -/
  notes : notesOf report'.entries
    = notesOf report.entries ++ (p.body.flatMap Stmt.callables).flatMap FunctionDecl.notes
  /-- The back ends do as it says. -/
  functions : ∀ decl ∈ p.functions, decl.DecidedAlike p sure

/-- A function of a program is declared in its body. -/
theorem Program.mem_callables {p : Program} {decl : FunctionDecl} (h : decl ∈ p.functions) :
    ∃ st ∈ p.body, decl ∈ st.callables := by
  obtain ⟨st, hst, heq⟩ := List.mem_filterMap.1 h
  cases st with
  | function decl' =>
      cases heq
      exact ⟨_, hst, List.mem_cons_self⟩
  | _ => cases heq

/-- All stages decide the conditions of an accepted text alike, if a number that
decides a loop does so by its whole part. -/
theorem frontend_decidesAlike {source : String} {report report' : Report} {p : Program}
    (h : frontend source report = (.ok p, report')) :
    p.DecidesAlike Choice.Decisive report report' := by
  refine ⟨frontend_notes h, fun decl hdecl => ?_⟩
  obtain ⟨st, hst, hcallable⟩ := Program.mem_callables hdecl
  have hparsed := parse_of_frontend h
  have hprogram := (parse_wellFormed hparsed).lawful (parse_folds hparsed)
  have hlawful := hprogram.functions st hst decl hcallable
  have hspelled := frontend_spelled h decl hdecl
  exact {
    noted := by
      intro c hc hconst
      obtain ⟨zero, hzero⟩ := hlawful.conditions _ (condition_leafAll hc) hconst
      have hverdict : c.condition.verdict? = some !zero := Expr.verdict?_folds hconst hzero
      refine ⟨!zero, hverdict, ?_⟩
      unfold Choice.notes
      rw [hverdict]
      rfl
    cutOff := by
      refine ⟨fun types noRedZone strings => ?_, ?_⟩
      · exact Codegen.function_decided p types noRedZone strings decl
      · unfold Program.lowerFunction
        simp only [Lowering.function_decided]
    emitted := fun env s ls t hlines => Codegen.bodyLines_emits hlines
    emitsBody := fun c _ hverdict env shared s code t hcode =>
      Codegen.ofChoice_holds hverdict hcode
    emitsOther := fun c _ hverdict env shared => Codegen.ofChoice_fails hverdict shared
    lowered := fun globals fn hfn => (Lowering.function_lowers hfn).2
    entersBody := by
      intro globals fn hfn c hc hverdict hsure s t hlowered
      have hcondition := hspelled _ (condition_leafAll hc) c.condition List.mem_cons_self
      refine Lowering.ofChoice_enters (Lowering.function_lowers hfn).1 hverdict hsure ?_ hlowered
      exact fun lit => hcondition.bool_inBounds (Expr.verdict?_some.1 hverdict).1
    entersOther := fun c _ hverdict globals => Lowering.ofChoice_fails hverdict }

/-- A text with choices of every kind: decided by numbers with a part behind the
point, by truth values and by what is folded, left open, and cut off. -/
def manyChoices : String :=
  "int f(int n) { if (n) { n = 1; } while (1.5) { return n; } return 2; }
   int main() { if (0.5) { while (2 < 1) { } } else if (1) { } while (false) { if (1) { } }
     if (7 - 6) { } return 0; }"

/-- The text is accepted, all of its stages decide alike, and control is known to
enter every body. -/
theorem manyChoices_decidesAlike :
    ∃ p report', frontend manyChoices (.empty false) = (.ok p, report')
      ∧ p.DecidesAlike Choice.Decisive (.empty false) report'
      ∧ (∀ decl ∈ p.functions, ∀ c ∈ decl.choices, c.Decisive)
      ∧ p.functions.map (fun decl => (decl.choices.length, decl.kept.length)) = [(2, 2), (6, 4)]
      ∧ (∀ decl ∈ p.functions, ∃ fn, p.lowerFunction decl = .ok fn)
      ∧ (∃ asm, p.generate false = .ok asm)
      ∧ (notesOf report'.entries).map (·.message)
        = ["condition is always true", "condition is always true", "condition is always false",
          "condition is always true", "condition is always false", "condition is always true",
          "condition is always true"] := by
  have h : ((frontend manyChoices (.empty false)).1.toOption).any (fun p =>
      (∀ decl ∈ p.functions, ∀ c ∈ decl.choices, c.Decisive)
        ∧ p.functions.map (fun decl => (decl.choices.length, decl.kept.length)) = [(2, 2), (6, 4)]
        ∧ (∀ decl ∈ p.functions, (p.lowerFunction decl).toOption.isSome = true)
        ∧ (p.generate false).toOption.isSome = true
        ∧ ((p.body.flatMap Stmt.callables).flatMap FunctionDecl.notes).map (·.message)
          = ["condition is always true", "condition is always true", "condition is always false",
            "condition is always true", "condition is always false", "condition is always true",
            "condition is always true"]) = true := by
    set_option maxRecDepth 2000 in
    rw [frontend, tokenize_written (rfl : manyChoices = String.ofList _)]
    decide +kernel
  obtain ⟨p, hp, hchoices⟩ := (Option.any_eq_true _ _).1 h
  obtain ⟨hsure, hcount, hlower, hgen, hnotes⟩ := of_decide_eq_true hchoices
  obtain ⟨report', hfront⟩ := frontend_of_toOption hp
  have halike := frontend_decidesAlike hfront
  refine ⟨p, report', hfront, halike, hsure, hcount, fun decl hdecl => ?_, ?_, ?_⟩
  · obtain ⟨fn, hfn⟩ := Option.isSome_iff_exists.1 (hlower decl hdecl)
    exact ⟨fn, toOption_some.1 hfn⟩
  · obtain ⟨asm, hasm⟩ := Option.isSome_iff_exists.1 hgen
    exact ⟨asm, toOption_some.1 hasm⟩
  · rw [halike.notes]
    exact hnotes

-- ============================================================== exception

namespace Lowering

open IR

variable {globals : List (String × Slot)} {fn : Function} {s : State}

/-- Control that enters the return of a literal, in a function of its type,
returns it. -/
theorem Enters.returns {lit : NumberLiteral} {pos : Position} {n : Int}
    (h : Enters globals fn s [.ret (some (.number lit)) pos]) (hs : Live s.builder)
    (hty : IR.Ty.ofSource? lit.ty = some s.builder.function.returnType)
    (hwhole : s.builder.function.returnType.isInteger = true)
    (hn : Integer.ofText? lit.text = some n) (m : Memory) {rest : List Instr}
    (hrest : Ahead s.builder.function.blocks fn.blocks rest) :
    Returns fn rest m (some (s.builder.function.returnType.wrap n)) m.globals := by
  obtain ⟨u, v, hinner, hgrows, hfnu, hfnv, hreach⟩ := h
  obtain ⟨inside, hinside⟩ := hfnu
  have hlive : Live u.builder := (hreach hs m).live
  refine ((hreach hs m).leads rest inside hrest hinside).returns ?_
  obtain ⟨w, hstep, rfl⟩ := inScope_ok.1 hinner
  unfold stmts stmt at hstep
  obtain ⟨_, x, hret, hnil⟩ := bind_ok.1 hstep
  unfold stmts at hnil
  obtain ⟨-, rfl⟩ := pure_ok.1 hnil
  rw [ret_some] at hret
  simp only [bind_ok, get_ok] at hret
  obtain ⟨first, y, hfirst, _, _, ⟨rfl, rfl⟩, value, z, hvalue, hleave⟩ := hret
  unfold expr literal at hfirst
  rw [hty] at hfirst
  obtain ⟨hfirst, rfl⟩ := lift_ok.1 hfirst
  cases hfirst
  have hreturn : u.builder.function.returnType = s.builder.function.returnType := hgrows.returnType
  rw [convert_eq] at hvalue
  split at hvalue
  case isFalse hother => exact absurd hreturn.symm hother
  obtain ⟨rfl, rfl⟩ := pure_ok.1 hvalue
  have hread : m.read (.constant s.builder.function.returnType lit.text)
      = .ok (s.builder.function.returnType.wrap n) :=
    Memory.read_constant hwhole hn
  have hfnx : Within fn x := hfnv
  have hpushed : Live (State.mk u.builder ([] :: u.scopes)).builder := hlive
  refine leave_returns hpushed hfnx hleave ?_ hinside
  exact hread

/-- A function without parameters whose body begins with a loop has the loop
lowered where control enters it. -/
theorem function_opens {decl : FunctionDecl} {e : MiniC.Expr} {body rest : List Stmt}
    {pos : Position} (h : function globals decl = .ok fn) (hparams : decl.params = [])
    (hbody : decl.body = .loop e body pos :: rest) :
    ∃ s t instrs, LoweredAt globals fn (.loop e body pos) s t ∧ Live s.builder
      ∧ IR.Ty.ofSource? decl.returnType = some s.builder.function.returnType
      ∧ Ahead s.builder.function.blocks fn.blocks instrs
      ∧ ∀ fuel values, fn.call fuel [] values = fn.run fuel instrs (fn.enter [] values) := by
  obtain ⟨repr, params, s, t, u, hstages, rfl⟩ := function_ok h
  have hdeclared := hstages.declared
  rw [hparams] at hdeclared
  cases hdeclared
  obtain ⟨-, rfl⟩ := pure_ok.1 hstages.spills
  have hlive := start_live decl repr []
  have hlowered := hstages.body
  rw [hbody] at hlowered
  unfold stmts at hlowered
  obtain ⟨_, w, hloop, hrest⟩ := bind_ok.1 hlowered
  have hw := (stmt_steady globals _ _ _ _ hloop hlive.started).grows
  have hfnu : Within u.builder.function u := ⟨[], .refl hstages.ended.grows.started⟩
  have hfnw := (hfnu.of_grows hstages.ended.grows).of_grows
    (stmts_steady globals rest _ _ _ hrest hw.started).grows
  obtain ⟨instrs, hinstrs⟩ := hfnw.of_grows hw
  exact ⟨_, w, instrs, ⟨hlive.started, hloop, hfnw⟩, hlive, hstages.returnType, hinstrs,
    fun fuel values => call_eq hinstrs fuel [] values⟩

end Lowering

/-- Whether the first function of a program has nothing but a loop that its constant
enters, which returns one, and is lowered to a function that returns two. -/
def overrunsLoop (p : Program) : Bool :=
  match p.functions with
  | [] => false
  | decl :: _ =>
    match decl.params, decl.body with
    | [], .loop e [.ret (some (.number lit)) _] _ :: _ =>
      e.verdict? = some true ∧ decl.returnType = .int ∧ lit.ty = .int
        ∧ Integer.ofText? lit.text = some 1
        ∧ ((p.lowerFunction decl).toOption.bind fun fn =>
            ((fn.call 10 [] fun _ => 0).toOption.map (·.1))) = some (some 2)
    | _, _ => false

/-- A loop whose constant has no whole part and is not zero does not decide
alike: it is noted to be always true, but where it is lowered control goes past
it. -/
theorem halfLoop_disagrees :
    ∃ p report' decl fn c, frontend halfLoop (.empty false) = (.ok p, report')
      ∧ decl ∈ p.functions ∧ c ∈ decl.kept ∧ c.condition.isConstant = true
      ∧ c.condition.verdictNote true ∈ notesOf report'.entries
      ∧ p.lowerFunction decl = .ok fn
      ∧ (∃ globals, fn.call 10 [] (fun _ => 0) = .ok (some 2, globals))
      ∧ ¬ p.DecidesAlike (fun _ => True) (.empty false) report' := by
  have h : ((frontend halfLoop (.empty false)).1.toOption).any overrunsLoop = true := by
    decide +kernel
  obtain ⟨p, hp, h⟩ := (Option.any_eq_true _ _).1 h
  obtain ⟨report', hfront⟩ := frontend_of_toOption hp
  unfold overrunsLoop at h
  split at h
  · cases h
  rename_i decl others hfunctions
  split at h
  case h_2 => cases h
  rename_i e lit pos pos' rest hparams hbody
  obtain ⟨hverdict, hint, hlit, htext, hcalls⟩ := of_decide_eq_true h
  obtain ⟨fn, hfn, hcall⟩ := Option.bind_eq_some_iff.1 hcalls
  obtain ⟨⟨value, globals⟩, hcall, hvalue⟩ := Option.map_eq_some_iff.1 hcall
  obtain rfl : value = some 2 := hvalue
  have hcall := toOption_some.1 hcall
  have hlower := toOption_some.1 hfn
  have hdecl : decl ∈ p.functions := hfunctions ▸ List.mem_cons_self
  let c : Choice := .loop e [.ret (some (.number lit)) pos] pos'
  have hkept : c ∈ decl.kept := by
    unfold FunctionDecl.kept
    rw [hbody]
    exact List.mem_append_left _ List.mem_cons_self
  have hchoice : c ∈ decl.choices := keptAll_subset decl.body hkept
  refine ⟨p, report', decl, fn, c, hfront, hdecl, hkept, (Expr.verdict?_some.1 hverdict).1, ?_,
    hlower, ⟨globals, hcall⟩, fun halike => ?_⟩
  · obtain ⟨st, hst, hcallable⟩ := Program.mem_callables hdecl
    rw [frontend_notes hfront]
    refine List.mem_append_right _ (List.mem_flatMap.2 ⟨decl, List.mem_flatMap.2
      ⟨st, hst, hcallable⟩, List.mem_flatMap.2 ⟨c, hchoice, ?_⟩⟩)
    unfold Choice.notes
    show e.verdictNote true ∈ (e.verdict?.map e.verdictNote).toList
    rw [hverdict]
    exact List.mem_cons_self
  · -- entered, the loop would return one, but the call returns two
    obtain ⟨lowered, -, hfunction⟩ := except_bind_ok.1 hlower
    obtain ⟨s, t, instrs, hlowered, hlive, hreturns, hahead, hcalls⟩ :=
      Lowering.function_opens hfunction hparams hbody
    have henters := (halike.functions decl hdecl).entersBody _ fn hfunction c hchoice hverdict
      trivial s t hlowered
    have hrepr : s.builder.function.returnType = .i32 := by
      rw [hint] at hreturns
      exact (Option.some.inj hreturns).symm
    have hone := henters.returns hlive (by rw [hlit, hrepr]; rfl) (by rw [hrepr]; rfl) htext
      (fn.enter [] fun _ => 0) hahead
    rw [hcalls] at hcall
    obtain ⟨hsame, -⟩ := IR.Returns.unique hone ⟨10, hcall⟩
    rw [hrepr] at hsame
    exact absurd hsame (by decide)

end MiniC
