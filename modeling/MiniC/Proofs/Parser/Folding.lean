/-
What an accepted program marks as constant folds: a condition is folded when
it is read, to be noted as always true or always false, and an initializer to
be checked for narrowing. A parse in which one of them does not fold ends in a
fault, so in a program that was read they all do.

# The account

No names matter for that, and no tokens, so the index of this account carries
nothing, and only the three constructs have an opinion that fold something:
initial values (`InitFolds`), conditions and the variables among the statements.
All others collect what their parts have said (`AllSettled`). A member or a
parameter is settled like a variable, an aggregate by its members and methods
(`folds_of_parts`), and the program by its declarations, one by one
(`ProgramFolds`).

With the names that are in sight of it this makes an accepted program lawful
(`parse_lawful`). Consumed by the proof that all stages decide alike.
-/
import MiniC.Proofs.Parser.Declarations
import MiniC.Proofs.Parser.Traversal
import MiniC.Proofs.Source.Lawful

namespace MiniC.Parser

/-- A variable folds if its initial value does, where it has one. -/
theorem folds_of_init {decl : VariableDecl} (h : ∀ e, decl.init = some e → InitFolds decl.ty e) :
    decl.Folds :=
  fun hnamed hstring e he hconstant => h e he hnamed hstring hconstant

-- ============================================================ statements

/-- Whether a leaf folds as far as it is marked constant. -/
def Settled (leaf : Leaf) : Prop := leaf.Folds ∧ ∀ decl, leaf.variable? = some decl → decl.Folds

/-- Whether all leaves of a list are. -/
def AllSettled (leaves : List Leaf) : Prop := ∀ leaf ∈ leaves, Settled leaf

/-- Statements that follow each other are settled together. -/
theorem AllSettled.append {a b : List Leaf} (ha : AllSettled a) (hb : AllSettled b) :
    AllSettled (a ++ b) :=
  fun leaf hleaf => (List.mem_append.1 hleaf).elim (ha leaf) (hb leaf)

theorem AllSettled.cons {leaf : Leaf} {rest : List Leaf} (h : Settled leaf)
    (hrest : AllSettled rest) : AllSettled (leaf :: rest) :=
  List.forall_mem_cons.2 ⟨h, hrest⟩

theorem AllSettled.nil : AllSettled [] := fun _ hleaf => absurd hleaf List.not_mem_nil

theorem AllSettled.one {leaf : Leaf} (h : Settled leaf) : AllSettled [leaf] := .cons h .nil

-- ========================================================== declarations

/-- Whether a function folds as far as it is marked constant. -/
structure FunctionFolds (decl : FunctionDecl) : Prop where
  params : ∀ param ∈ decl.params, param.Folds
  leaves : AllSettled decl.leaves

/-- Whether an aggregate folds as far as it is marked constant. -/
structure AggregateFolds (decl : AggregateDecl) : Prop where
  members : ∀ member ∈ decl.members, member.Folds
  methods : ∀ method ∈ decl.methods, FunctionFolds method

-- =============================================================== programs

/-- The parameters and the variables of a function fold. -/
theorem FunctionFolds.decls {decl : FunctionDecl} (h : FunctionFolds decl) :
    ∀ d ∈ decl.decls, d.Folds := by
  intro d hd
  rcases List.mem_append.1 hd with hd | hd
  · exact h.params d hd
  · obtain ⟨leaf, hleaf, heq⟩ := List.mem_filterMap.1 hd
    exact (h.leaves leaf hleaf).2 d heq

/-- A declaration folds with the functions and the variables in it. -/
theorem folds_of_parts {st : Stmt} (hcallables : ∀ f ∈ st.callables, FunctionFolds f)
    (hfields : ∀ d ∈ st.fields, d.Folds) : st.Folds where
  conditions f hf leaf hleaf := ((hcallables f hf).leaves leaf hleaf).1
  initializers d hd := by
    rcases List.mem_append.1 hd with hd | hd
    · exact hfields d hd
    · obtain ⟨f, hf, hd⟩ := List.mem_flatMap.1 hd
      exact (hcallables f hf).decls d hd

/-- Whether all of the program that was read so far folds. -/
def ProgramFolds (s : ParserState) : Prop := ∀ st ∈ s.program.body, st.Folds

/-- Of a step only its answer matters. -/
def answering : Judgement where
  Index := Unit
  Sees _ := ProgramFolds
  Holds := Leads (fun _ => ProgramFolds) fun _ _ => True
  answer := .answer
  chain := .chain
  look hx _ hf := .look hx hf
  stop _ := Leads.stop fun _ _ => trivial
  take _ _ := .take (fun _ _ _ hs _ => ⟨(), hs, trivial⟩) fun _ _ _ => trivial

/-- What is marked constant folds. -/
def folding : Account where
  toJudgement := answering
  stall _ := Leads.stop fun _ _ => trivial
  declare _ := Leads.declare (fun _ _ hs _ => ⟨(), hs, trivial⟩) fun _ _ _ _ => trivial
  enter _ i := i
  Leaves _ _ _ := True
  within h := Leads.within h (fun _ hs => hs) (fun _ _ _ _ _ _ hs _ _ => hs)
    (fun _ _ _ _ _ _ _ => trivial) fun _ _ _ _ _ => trivial
  name _ _ := answering.identifier_holds trivial trivial fun _ _ _ _ _ _ _ _ => trivial
  init _ ty init _ := ∀ e, init = some e → InitFolds ty e
  bare := nofun
  initial _ _ := answering.checkNarrowing_holds trivial
    (fun _ h e he => by cases he; exact h)
    fun warning _ _ h => Leads.modify fun s hs => ⟨(), hs, fun e he => by cases he; exact h⟩
  decl _ v _ := v.Folds
  variableDecl _ _ h _ _ := folds_of_init h
  cond _ e _ := Settled (.condition e)
  condition _ _ _ := answering.noteCondition_holds trivial
    (fun _ h => ⟨fun hconst => absurd (h.symm.trans hconst) Bool.false_ne_true, nofun⟩)
    fun note zero _ _ h => Leads.modify fun s hs => ⟨(), hs, fun _ => ⟨zero, h⟩, nofun⟩
  stmt _ st _ := AllSettled st.leaves
  block _ body _ := AllSettled (leavesAll body)
  inner _ body _ := AllSettled (leavesAll body)
  arm _ a _ := AllSettled a.leaves
  introduces h := .one ⟨trivial, fun d hd => by cases hd; exact h⟩
  returnsNone _ _ _ _ := .one ⟨trivial, nofun⟩
  returnsSome _ _ _ _ _ := .one ⟨trivial, nofun⟩
  effect _ _ := .one ⟨trivial, nofun⟩
  nested _ h := h
  branch _ h := h
  loop _ he hbody := .cons he hbody
  nil := .nil
  cons hfirst hrest := hfirst.append hrest
  brace _ h := h
  scope _ h := ⟨(), trivial, h⟩
  oneArmed he hbody := .cons he (hbody.append .nil)
  twoArmed he hbody _ hother := .cons he (hbody.append hother)
  chained he hbody _ _ hnext := .cons he (hbody.append hnext)
  params _ ps _ := ∀ p ∈ ps, p.Folds
  noParams := nofun
  param hps _ _ hinit _ _ := List.forall_mem_append.2
    ⟨hps, List.forall_mem_singleton.2 (folds_of_init hinit)⟩
  params_pass h _ := h
  func _ f _ := FunctionFolds f
  function _ _ _ _ hparams _ hbody := ⟨(), trivial, hparams, hbody⟩
  members _ a _ := AggregateFolds a
  noMembers := ⟨nofun, nofun⟩
  member h hv :=
    ⟨List.forall_mem_append.2 ⟨h.members, List.forall_mem_singleton.2 hv⟩, h.methods⟩
  method h hf :=
    ⟨h.members, List.forall_mem_append.2 ⟨h.methods, List.forall_mem_singleton.2 hf⟩⟩
  members_pass h _ := h
  item _ st _ := st.Folds
  globalVariable h := folds_of_parts nofun (List.forall_mem_singleton.2 h)
  globalFunction h := folds_of_parts (List.forall_mem_singleton.2 h) nofun
  aggregate _ _ _ _ _ _ h := ⟨(), trivial, folds_of_parts h.methods h.members⟩
  item_pass h _ := h
  grow _ h := Leads.modify fun s hs =>
    ⟨(), List.forall_mem_append.2 ⟨hs, List.forall_mem_singleton.2 h⟩, trivial, .inl trivial⟩

end MiniC.Parser

namespace MiniC

/-- What is marked constant in a program that is read folds. -/
theorem parse_folds {tokens : List Token} {report report' : Report} {p : Program}
    (h : parse tokens report = (.ok p, report')) : ∀ st ∈ p.body, st.Folds := by
  obtain ⟨s, hprogram, -⟩ := Parser.program_of_parse h
  have hstart : Parser.ProgramFolds (Parser.initial tokens report) :=
    fun _ hst => absurd hst List.not_mem_nil
  have hread : Parser.folding.Holds () Parser.program _ := Parser.program_holds trivial
  obtain ⟨_, -, t, -, ht, rfl⟩ := Parser.Leads.ok hread hstart hprogram
  exact ht

/-- A program that is read is lawful. -/
theorem parse_lawful {tokens : List Token} {report report' : Report} {p : Program}
    (h : parse tokens report = (.ok p, report')) : p.Lawful :=
  (parse_wellFormed h).lawful (parse_folds h)

/-- A class with a method, a function with a default, a block that declares a
name again, and constants in a condition and in an initializer. -/
def household : String :=
  "class Pot { int size; public: int grow(int by) { return size + by; } }
   void fill(int n = 4) { if (1 < 2) { int n = 2 * 3; n -= 1; } }"

/-- The program of a text, if its tokens are read as one. -/
def readProgram (source : String) : Option Program :=
  (parse (tokenize source).1 (.empty false)).1.toOption

/-- What a source is read as is what it is parsed to. -/
theorem readProgram_some {source : String} {p : Program} (h : readProgram source = some p) :
    ∃ report', parse (tokenize source).1 (.empty false) = (.ok p, report') :=
  ⟨_, Prod.ext (Steps.toOption_some.1 h) rfl⟩

/-- Its tokens are read as a program of two declarations, and
`parse_lawful` says that it is lawful. -/
theorem household_lawful :
    ∃ p report', parse (tokenize household).1 (.empty false) = (.ok p, report')
      ∧ p.body.length = 2 ∧ p.Lawful := by
  have h : (readProgram household).any (·.body.length == 2) = true := by
    set_option maxRecDepth 2000 in
    rw [readProgram, tokenize_written (rfl : household = String.ofList _)]
    decide +kernel
  obtain ⟨p, hp, hlength⟩ := (Option.any_eq_true _ _).1 h
  obtain ⟨report', hparse⟩ := readProgram_some hp
  exact ⟨p, report', hparse, eq_of_beq hlength, parse_lawful hparse⟩

end MiniC
