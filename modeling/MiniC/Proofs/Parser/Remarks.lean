/-
What a parse adds to the report. A rule of the grammar never looks at the
report, so it does the same whatever was reported before and adds the same to
it: `Tells` says so of a step, and says which entries stand behind an answer.

# What constructs say

Expressions are silent. A condition that folds is noted once
(`Expr.conditionRemarks`), an initializer that folds to a larger type is warned
about once (`narrowingRemarks`), and what a program says is what its parts say in
the order in which they were read (`Program.Says`). For most constructs that order
is the order of the tree, so what they say is computed from them (`Stmt.remarks`).
An aggregate keeps its members apart from its methods, and the tree does not tell
in which order they stood: what it says is the one and the other list interleaved.

# The account

A step is judged for all reports at once, which no judgement about single states
can do; so this account is not of the common kind. Its index is the program read
so far and what was said (`Speech`), and a step speaks (`Speaks`) if from every
state with that program it tells what it adds. The program stands in the index
because the rule for programs hands it out at the end, and a list of declarations
is what all this is said of. Consumed by the accounts of reports that differ in
strictness and of notes on conditions.
-/
import MiniC.Proofs.Parser.Declaring
import MiniC.Proofs.Parser.Traversal

namespace MiniC

-- ================================================================ remarks

/-- What an initializer is warned about, if there is one. -/
def initializerRemarks (ty : Ty) (init : Option Expr) : List Diagnostic :=
  init.toList.flatMap (narrowingRemarks ty)

/-- What a variable, a parameter or a member is warned about. -/
def VariableDecl.remarks (decl : VariableDecl) : List Diagnostic :=
  initializerRemarks decl.ty decl.init

mutual

/-- What is said of a statement. Declarations of functions and aggregates are
no statements of a body. -/
def Stmt.remarks : Stmt → List Diagnostic
  | .block body => bodyRemarks body
  | .branch arm => arm.remarks
  | .loop e body _ => e.conditionRemarks ++ bodyRemarks body
  | .variable decl => decl.remarks
  | .ret _ _ => []
  | .expr _ => []
  | .function _ => []
  | .aggregate _ => []

/-- What is said of statements in order. -/
def bodyRemarks : List Stmt → List Diagnostic
  | [] => []
  | s :: rest => s.remarks ++ bodyRemarks rest

/-- What is said of an if chain from an arm on. -/
def Arm.remarks : Arm → List Diagnostic
  | ⟨e, consequent, alternate, _⟩ =>
    e.conditionRemarks ++ bodyRemarks consequent ++ alternate.remarks

/-- What is said of what an arm leads to when its condition fails. -/
def Alternate.remarks : Alternate → List Diagnostic
  | .none => []
  | .block body => bodyRemarks body
  | .elseIf arm => arm.remarks

end

/-- What is said of a function: of its parameters, then of its body. -/
def FunctionDecl.remarks (decl : FunctionDecl) : List Diagnostic :=
  decl.params.flatMap VariableDecl.remarks ++ bodyRemarks decl.body

/-- Whether a list holds two others, each in its order. -/
inductive Interleaved {α : Type} : List α → List α → List α → Prop where
  | nil : Interleaved [] [] []
  | left {as bs cs : List α} (a : α) :
    Interleaved as bs cs → Interleaved (as ++ [a]) bs (cs ++ [a])
  | right {as bs cs : List α} (b : α) :
    Interleaved as bs cs → Interleaved as (bs ++ [b]) (cs ++ [b])

/-- Whether so much is said of the parts of an aggregate, in some order of
members among methods. -/
def AggregateDecl.Says (decl : AggregateDecl) (parts : List (List Diagnostic)) : Prop :=
  Interleaved (decl.members.map VariableDecl.remarks) (decl.methods.map FunctionDecl.remarks) parts

/-- Whether this is what is said of a declaration. -/
def Stmt.Says : Stmt → List Diagnostic → Prop
  | .aggregate decl, ds => ∃ parts, decl.Says parts ∧ ds = parts.flatten
  | .function decl, ds => ds = decl.remarks
  | s, ds => ds = s.remarks

/-- Whether this is what is said of a program: of its declarations in order. -/
def Program.Says (p : Program) (ds : List Diagnostic) : Prop :=
  ∃ parts, List.Forall₂ Stmt.Says p.body parts ∧ ds = parts.flatten

/-- One more declaration says what it has to say behind the others. -/
theorem Program.Says.concat {p : Program} {st : Stmt} {said ds : List Diagnostic}
    (h : p.Says said) (hst : st.Says ds) : Program.Says ⟨p.body ++ [st]⟩ (said ++ ds) := by
  obtain ⟨parts, hparts, rfl⟩ := h
  refine ⟨parts ++ [ds], List.rel_append hparts (.cons hst .nil), ?_⟩
  rw [List.flatten_append, List.flatten_singleton]

namespace Parser

variable {α β : Type} {s : ParserState} {x : Parser α}

-- ============================================================== reporting

/-- Whether a step that is taken in a state does the same whatever the report
is, and adds the same to it: behind an answer as it should be, or in front of a
failure. -/
inductive Tells (s : ParserState) (x : Parser α) (Q : α → ParserState → List Diagnostic → Prop) :
    Prop where
  | answers (a : α) (t : ParserState) (ds : List Diagnostic) (hQ : Q a t ds)
    (h : ∀ r, x (s.reporting r) = .ok a (t.reporting (r.append ds))) : Tells s x Q
  | stops (e : Stop) (t : ParserState) (ds : List Diagnostic)
    (h : ∀ r, x (s.reporting r) = .error e (t.reporting (r.append ds))) : Tells s x Q

/-- What is added twice is added together. -/
theorem append_append (r : Report) (ds ds' : List Diagnostic) :
    (r.append ds).append ds' = r.append (ds ++ ds') :=
  (List.foldl_append).symm

/-- A sequence adds what its parts do. -/
theorem Tells.bind {Q : α → ParserState → List Diagnostic → Prop}
    {R : β → ParserState → List Diagnostic → Prop} {f : α → Parser β} (hx : Tells s x Q)
    (hf : ∀ a t ds, Q a t ds → Tells t (f a) fun b u ds' => R b u (ds ++ ds')) :
    Tells s (x >>= f) R := by
  have hbind (r : Report) : (x >>= f) (s.reporting r) = EStateM.bind x f (s.reporting r) := rfl
  unfold EStateM.bind at hbind
  cases hx with
  | answers a t ds hQ hx =>
      simp only [hx] at hbind
      cases hf a t ds hQ with
      | answers b u ds' hR hf =>
          exact .answers b u (ds ++ ds') hR fun r => by rw [hbind, hf, append_append]
      | stops e u ds' hf => exact .stops e u (ds ++ ds') fun r => by rw [hbind, hf, append_append]
  | stops e t ds hx =>
      simp only [hx] at hbind
      exact .stops e t ds hbind

/-- Steps that do the same tell the same. -/
theorem Tells.congr {y : Parser α} {Q : α → ParserState → List Diagnostic → Prop}
    (h : ∀ r, x (s.reporting r) = y (s.reporting r)) (hy : Tells s y Q) : Tells s x Q := by
  cases hy with
  | answers a t ds hQ hy => exact .answers a t ds hQ fun r => (h r).trans (hy r)
  | stops e t ds hy => exact .stops e t ds fun r => (h r).trans (hy r)

/-- What is told of an answer may be told in other words. -/
theorem Tells.weaken {Q R : α → ParserState → List Diagnostic → Prop} (hx : Tells s x Q)
    (h : ∀ a t ds, Q a t ds → R a t ds) : Tells s x R := by
  cases hx with
  | answers a t ds hQ hx => exact .answers a t ds (h a t ds hQ) hx
  | stops e t ds hx => exact .stops e t ds hx

/-- A step that looks at the state goes on with it. -/
theorem Tells.look {g : ParserState → α} {f : α → Parser β}
    {R : β → ParserState → List Diagnostic → Prop} (hx : ∀ s, x s = .ok (g s) s)
    (hblind : ∀ s r, f (g (s.reporting r)) = f (g s)) (hf : Tells s (f (g s)) R) :
    Tells s (x >>= f) R := by
  refine .congr (fun r => ?_) hf
  rw [bind_eq (hx _), hblind]

/-- Taking a token is silent. -/
theorem take_tells (expected : String) :
    Tells s (take expected) fun _ t ds => t.program = s.program ∧ ds = [] := by
  cases htokens : s.tokens with
  | nil =>
      exact .stops (.fault (.unexpectedEof expected s.last)) s [] fun r =>
        take_stops (s := s.reporting r) expected htokens
  | cons token rest =>
      exact .answers token (s.past [token]) [] ⟨rfl, rfl⟩ fun r =>
        take_eq (s := s.reporting r) htokens expected

/-- Bringing a name into sight is silent. -/
theorem declare_tells (name : String) (ty : Ty) (pos : Position) :
    Tells s (declare name ty pos) fun _ t ds => t.program = s.program ∧ ds = [] := by
  cases hinsert : s.table.insert name ⟨ty, pos⟩ with
  | ok table =>
      exact .answers () { s with table } [] ⟨rfl, rfl⟩ fun r =>
        declare_eq (s := s.reporting r) hinsert
  | error earlier =>
      exact .stops _ s [] fun r => declare_stops (s := s.reporting r) hinsert

/-- What is said inside a scope is said. -/
theorem within_tells {f : Option (String × Ty)} {Q : α → Program → List Diagnostic → Prop}
    (h : Tells { s with table := s.table.push, function := f } x fun a t ds => Q a t.program ds) :
    Tells s (within f x) fun a t ds => Q a t.program ds := by
  cases h with
  | answers a t ds hQ hx =>
      have hwithin (r : Report) := within_answers (s := s.reporting r) (hx r)
      change ∀ r, _ = t.table.pop?.elim _ _ at hwithin
      cases hpop : t.table.pop? with
      | none =>
          rw [hpop] at hwithin
          exact .stops .stuck t ds hwithin
      | some table =>
          rw [hpop] at hwithin
          exact .answers a { t with table, function := s.function } ds hQ hwithin
  | stops e t ds hx =>
      have hwithin (r : Report) := within_stops (s := s.reporting r) (hx r)
      change ∀ r, _ = t.table.pop?.elim _ _ at hwithin
      cases hpop : t.table.pop? with
      | none =>
          rw [hpop] at hwithin
          exact .stops .stuck t ds hwithin
      | some table =>
          rw [hpop] at hwithin
          exact .stops e { t with table, function := s.function } ds hwithin

-- ============================================================ the account

/-- The program that was read so far, and what was said on the way. -/
structure Speech where
  program : Program
  said : List Diagnostic

/-- What was said, and this behind it. -/
def Speech.saying (i : Speech) (ds : List Diagnostic) : Speech := { i with said := i.said ++ ds }

theorem Speech.saying_nil (i : Speech) : i.saying [] = i := by
  unfold Speech.saying
  rw [List.append_nil]

/-- What is said twice is said together. -/
theorem Speech.saying_saying (i : Speech) (ds ds' : List Diagnostic) :
    (i.saying ds).saying ds' = i.saying (ds ++ ds') := by
  unfold Speech.saying
  rw [List.append_assoc]

/-- Whether a step adds to the report what is said behind an index, and nothing it does
depends on what was said before. -/
structure Speaks (i : Speech) (x : Parser α) (P : α → Speech → Prop) : Prop where
  tells : ∀ s : ParserState, s.program = i.program →
    Tells s x fun a t ds => P a ⟨t.program, i.said ++ ds⟩

/-- Judged by what is added to the report. -/
@[reducible]
def speaking : Judgement where
  Index := Speech
  Sees i s := s.program = i.program
  Holds := Speaks
  token i _ j := j = i
  answer {_ i a P} h := ⟨fun s hs => .answers a s [] (by rw [List.append_nil, hs]; exact h)
    fun _ => rfl⟩
  chain hx hf := ⟨fun s hs => (hx.tells s hs).bind fun a t ds ha =>
    ((hf a _ ha).tells t rfl).weaken fun b u ds' hb => by rwa [List.append_assoc] at hb⟩
  look hx hblind hf := ⟨fun s hs => .look hx hblind ((hf s hs).tells s hs)⟩
  stop _ := ⟨fun s _ => .stops _ s [] fun _ => rfl⟩
  take expected i := ⟨fun s hs => (take_tells expected).weaken fun _ t ds h => by
    rw [h.1, h.2, hs, List.append_nil]⟩

/-- A note says itself. -/
theorem note_speaks {i : Speech} {d : Diagnostic} {P : Unit → Speech → Prop}
    (h : P () (i.saying [d])) : speaking.Holds i (note d) P :=
  ⟨fun s hs => .answers () s [d] (by rw [hs]; exact h) fun _ => rfl⟩

/-- What is said is said of what is read, in the order in which it is read. -/
def telling : Account where
  toJudgement := speaking
  stall _ := ⟨fun s _ => .stops .stuck s [] fun _ => rfl⟩
  binds i _ _ j := j = i
  declare {i _ _ _} _ := ⟨fun s hs => (declare_tells _ _ _).weaken fun _ t ds h => by
    rw [h.1, h.2, hs, List.append_nil]⟩
  enter _ i := i
  Leaves _ k j := j = k
  within {_ f i _ P} h := ⟨fun s hs => within_tells (Q := fun a p ds => P a ⟨p, i.said ++ ds⟩) <|
    (h.tells { s with table := s.table.push, function := f } hs).weaken fun a t ds ha => by
      obtain ⟨_, rfl, ha⟩ := ha
      exact ha⟩
  expr i _ j := j = i
  string htok _ := htok
  number htok _ _ := htok
  name htok _ := speaking.identifier_holds trivial htok
    fun _ _ _ _ _ _ hdot ⟨_, hfield, _⟩ => hfield.trans (hdot.trans htok)
  enclosed h he h' := h'.trans (he.trans h)
  negated h he _ := he.trans h
  prefixed h he _ := he.trans h
  suffixed he h _ := h.trans he
  combined hl h hr _ := hr.trans (h.trans hl)
  init i ty init j := j = i.saying (initializerRemarks ty init)
  bare := (Speech.saying_nil _).symm
  initial := by
    rintro i _ _ e _ ty rfl rfl
    have hremarks : initializerRemarks ty (some e) = narrowingRemarks ty e := List.append_nil _
    refine speaking.checkNarrowing_holds trivial (fun hnone _ => ?_) fun warning hone _ _ => ?_
    · rw [hremarks, hnone, Speech.saying_nil]
    · exact note_speaks (by rw [hremarks, hone])
  decl i v j := j = i.saying v.remarks
  variableDecl := by
    rintro _ _ _ _ _ _ _ _ _ _ _ _ ⟨_, rfl, _⟩ ⟨_, rfl, _⟩ rfl rfl rfl
    rfl
  cond i e j := j = i.saying e.conditionRemarks
  condition := by
    rintro i _ _ e _ _ _ rfl rfl rfl
    refine speaking.noteCondition_holds trivial (fun hnone _ => ?_) fun note _ hone _ _ => ?_
    · rw [hnone, Speech.saying_nil]
    · exact note_speaks (by rw [hone])
  stmt i st j := j = i.saying st.remarks
  block i body j := j = i.saying (bodyRemarks body)
  inner i body j := j = i.saying (bodyRemarks body)
  arm i a j := j = i.saying a.remarks
  introduces h := h
  returnsNone h h' _ _ := (h'.trans h).trans (Speech.saying_nil _).symm
  returnsSome h he h' _ _ := (h'.trans (he.trans h)).trans (Speech.saying_nil _).symm
  effect he h := (h.trans he).trans (Speech.saying_nil _).symm
  nested := by
    rintro _ _ _ _ _ rfl rfl
    rfl
  branch := by
    rintro _ _ _ _ _ rfl rfl
    rfl
  loop := by
    rintro _ _ _ _ _ _ _ rfl rfl rfl
    exact Speech.saying_saying _ _ _
  nil := (Speech.saying_nil _).symm
  cons := by
    rintro _ _ _ _ _ rfl rfl
    exact Speech.saying_saying _ _ _
  brace := by
    rintro _ _ _ _ _ rfl rfl
    rfl
  scope _ h := ⟨_, rfl, h⟩
  oneArmed := by
    rintro i e _ body _ _ rfl rfl
    rw [Speech.saying_saying]
    exact congrArg i.saying (List.append_nil _).symm
  twoArmed := by
    rintro _ _ _ _ _ _ _ _ _ _ rfl rfl rfl rfl
    rw [Speech.saying_saying, Speech.saying_saying, ← List.append_assoc]
    rfl
  chained := by
    rintro _ _ _ _ _ _ _ _ _ _ _ _ rfl rfl rfl rfl rfl
    rw [Speech.saying_saying, Speech.saying_saying, ← List.append_assoc]
    rfl
  params i ps j := j = i.saying (ps.flatMap VariableDecl.remarks)
  noParams := (Speech.saying_nil _).symm
  param := by
    rintro _ _ _ _ _ _ _ _ _ _ _ rfl ⟨_, rfl, _⟩ ⟨_, rfl, _⟩ rfl _ rfl
    rw [Speech.saying_saying, List.flatMap_append, List.flatMap_singleton]
    rfl
  params_pass := by
    rintro _ _ _ _ _ rfl rfl
    rfl
  func i f j := j = i.saying f.remarks
  function := by
    rintro _ _ _ _ _ _ _ _ _ _ _ _ _ _ _ _ ⟨_, rfl, _⟩ ⟨_, rfl, _⟩ rfl rfl rfl rfl rfl
    exact ⟨_, rfl, Speech.saying_saying _ _ _⟩
  members i decl j := ∃ parts, decl.Says parts ∧ j = i.saying parts.flatten
  noMembers := ⟨[], .nil, (Speech.saying_nil _).symm⟩
  member := by
    rintro i decl' _ v _ ⟨parts, hparts, rfl⟩ rfl
    refine ⟨parts ++ [v.remarks], ?_, ?_⟩
    · unfold AggregateDecl.Says
      rw [List.map_append]
      exact .left _ hparts
    · rw [Speech.saying_saying, List.flatten_append, List.flatten_singleton]
  method := by
    rintro i decl' _ f _ ⟨parts, hparts, rfl⟩ rfl
    refine ⟨parts ++ [f.remarks], ?_, ?_⟩
    · unfold AggregateDecl.Says
      rw [List.map_append]
      exact .right _ hparts
    · rw [Speech.saying_saying, List.flatten_append, List.flatten_singleton]
  members_pass := by
    rintro _ _ _ _ _ hdecl rfl
    exact hdecl
  item i st j := ∃ ds, st.Says ds ∧ j = i.saying ds
  globalVariable h := ⟨_, rfl, h⟩
  globalFunction h := ⟨_, rfl, h⟩
  aggregate := by
    rintro _ _ _ _ _ _ _ _ _ _ rfl ⟨_, rfl, _⟩ _ _ rfl _ ⟨parts, hparts, rfl⟩
    exact ⟨_, rfl, parts.flatten, ⟨parts, hparts, rfl⟩, rfl⟩
  item_pass := by
    rintro _ _ _ _ _ hst rfl
    exact hst
  whole i := i.program.Says i.said
  grow := by
    rintro i st _ hwhole ⟨ds, hst, rfl⟩
    refine ⟨fun s hs => .answers () { s with program := ⟨s.program.body ++ [st]⟩ } []
      ⟨?_, .inl trivial⟩ fun _ => rfl⟩
    rw [List.append_nil, hs]
    exact hwhole.concat hst

/-- What a parse does is the same whatever the report is, and adds to it what is
said of the program. -/
theorem program_tells (tokens : List Token) (report : Report) :
    Tells (initial tokens report) program fun p _ ds => p.Says ds := by
  have hread : telling.Holds (⟨⟨[]⟩, []⟩ : Speech) program _ := program_holds ⟨[], .nil, rfl⟩
  refine (hread.tells (initial tokens report) rfl).weaken fun p t ds h => ?_
  obtain ⟨s, hspoken, hs, rfl⟩ := h
  rw [hs]
  exact hspoken

end Parser

end MiniC
