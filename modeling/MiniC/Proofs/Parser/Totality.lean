/-
The parser always answers. Whatever tokens stand ahead, a parse ends with a
program or with a fault of the tokens: it never looks past its window, never
leaves the global scope, and four steps for every token are enough for it.
`parse_total` puts these together.

# What is read off the account of progress

A term, a statement and a declaration take at least one token (`Consumes`), each
round of a loop takes one before the next (`Loop.Progresses`), and a rule that
opens a scope leaves the scope current that it found, however it ends
(`Balanced`). These are statements about single rules, and they are read off the
account by choosing a state to start from: a rule that takes a left operand needs
a state in front of that operand, and one can always be made up
(`exists_before`).

# Why steps last

`Counted` lists the rules with a supply of steps, and `Counted.not_stuck` says that
four for each token and four more are never short. The rule for programs is
started with just so many, and so are the rules that set up a supply of their own
in the middle of a parse.

The window is that of a reader that parks tokens in a ring of as many cells, so
the ring is never full when a token is parked.
-/
import MiniC.Proofs.Parser.Progress
import MiniC.Proofs.Windows

namespace MiniC.Parser

variable {α : Type} {s t : ParserState}

-- =============================================================== deciding

/-- Whether a parse ends with a program or a fault of the tokens, and answers
with it and what was reported on the way. -/
def Decides (tokens : List Token) (report : Report) : Prop :=
  (∃ p s, program (initial tokens report) = .ok p s ∧ parse tokens report = (.ok p, s.report))
    ∨ ∃ e s, program (initial tokens report) = .error (.fault e) s
      ∧ parse tokens report = (.error e, s.report)

/-- A parse is a run of the rule for programs, which ends with a program or a fault. -/
theorem program_decides (tokens : List Token) (report : Report) : Decides tokens report := by
  have hends : Ends False (initial tokens report) program _ :=
    program_holds (d := progress False) trivial
  unfold Decides parse outcome
  cases h : program (initial tokens report) with
  | ok p s => exact Or.inl ⟨p, s, rfl, rfl⟩
  | error e s =>
      cases e with
      | fault e => exact Or.inr ⟨e, s, rfl, rfl⟩
      | stuck => exact absurd h hends.not_stuck

-- =========================================================== enough steps

/-- The rules of the grammar that count their steps. -/
inductive Counted : {α : Type} → (Nat → Parser α) → Prop where
  | expression : Counted expressionWith
  | climb (floor : Nat) (lhs : Expr) : Counted fun fuel => climb fuel floor lhs
  | tighten (op : BinaryOp) (rhs : Expr) : Counted fun fuel => tighten fuel op rhs
  | term : Counted termWith
  | primary : Counted primary
  | statement : Counted statementWith
  | block : Counted blockRest
  | body : Counted body
  | arm (pos : Position) : Counted fun fuel => arm fuel pos
  | parameters (earlier : List VariableDecl) :
    Counted fun fuel => parametersWith fuel earlier
  | members (access : Access) (decl : AggregateDecl) :
    Counted fun fuel => membersWith fuel access decl
  | program : Counted programWith

/-- There is a state in front of every other one, with a token more. -/
theorem exists_before (short : Prop) (s : ParserState) :
    ∃ o tok, (progress short).token o tok s :=
  ⟨{ s with tokens := ⟨.symbol .semicolon, .start⟩ :: s.tokens }, ⟨.symbol .semicolon, .start⟩,
    ⟨[⟨.symbol .semicolon, .start⟩], rfl, Nat.le_refl 1⟩, .refl _⟩

/-- Four steps for each token, and four more, are enough for every rule. -/
theorem Counted.not_stuck {rule : Nat → Parser α} (h : Counted rule) {fuel : Nat}
    (hfuel : steps s.tokens.length ≤ fuel) : rule fuel s ≠ .error .stuck t := by
  have henough (own : Nat) (hown : own ≤ 4) : (progress False).Enough fuel own s := by
    intro hfew
    change fuel < 4 * s.tokens.length + own at hfew
    unfold steps at hfuel
    omega
  obtain ⟨o, tok, ho⟩ := exists_before False s
  have hends : ∃ P, Ends False s (rule fuel) P := by
    cases h with
    | expression => exact ⟨_, expressionWith_holds fuel (henough 3 (by decide))⟩
    | climb floor lhs =>
        exact ⟨_, climb_holds (d := progress False) fuel floor ho (henough 1 (by decide))⟩
    | tighten op rhs =>
        exact ⟨_, tighten_holds (d := progress False) fuel op ho (henough 2 (by decide))⟩
    | term => exact ⟨_, termWith_holds fuel (henough 2 (by decide))⟩
    | primary => exact ⟨_, primary_holds fuel (henough 1 (by decide))⟩
    | statement => exact ⟨_, statementWith_holds fuel (henough 1 (by decide))⟩
    | block => exact ⟨_, blockRest_holds fuel (henough 2 (by decide))⟩
    | body => exact ⟨_, body_holds fuel (henough 3 (by decide))⟩
    | arm pos => exact ⟨_, arm_holds fuel pos (henough 2 (by decide))⟩
    | parameters earlier =>
        exact ⟨_, parametersWith_holds (d := progress False) fuel (.refl s) (henough 1 (by decide))⟩
    | members access decl =>
        exact ⟨_, membersWith_holds (d := progress False) fuel access (.refl s)
          (henough 1 (by decide))⟩
    | program =>
        exact ⟨_, programWith_holds (d := progress False) fuel trivial (henough 1 (by decide))⟩
  obtain ⟨_, hends⟩ := hends
  exact hends.not_stuck

-- ================================================================ progress

/-- Whether a rule that answers has taken a token. -/
def Consumes (rule : Parser α) : Prop :=
  ∀ s a t, rule s = .ok a t → ∃ taken, s.tokens = taken ++ t.tokens ∧ taken ≠ []

/-- Whether a loop takes a token in each round that another follows. -/
def Loop.Progresses (l : Loop) : Prop :=
  ∀ fuel start s next finish t, l.round fuel start s = .ok (.again next finish) t →
    ∃ taken, s.tokens = taken ++ t.tokens ∧ taken ≠ []

/-- Who took at least one token took some. -/
theorem Advances.taken {k : Nat} (h : Advances k s t) (hk : 1 ≤ k) :
    ∃ taken, s.tokens = taken ++ t.tokens ∧ taken ≠ [] := by
  obtain ⟨taken, htaken, hlength⟩ := h.tokens
  exact ⟨taken, htaken, List.ne_nil_of_length_pos (Nat.lt_of_lt_of_le hk hlength)⟩

/-- A rule that takes a token wherever it answers consumes one. -/
theorem Consumes.of_ends {rule : Parser α}
    (h : ∀ s, Ends True s rule fun _ t => Advances 1 s t) : Consumes rule :=
  fun s _ _ hrule => ((h s).ok hrule).2.taken (Nat.le_refl 1)

/-- Tokens that were paid for were taken from the front. -/
theorem Advances.taken_of_paid (h : Advances 0 s t) (hpaid : Paid False 1 s.tokens t.tokens) :
    ∃ taken, s.tokens = taken ++ t.tokens ∧ taken ≠ [] := by
  obtain ⟨taken, htaken, -⟩ := h.tokens
  refine ⟨taken, htaken, ?_⟩
  rintro rfl
  have hlength := hpaid.resolve_left id
  rw [htaken, List.nil_append] at hlength
  exact Nat.not_succ_le_self _ hlength

/-- A round that is followed by another has taken a token. -/
theorem IsLoop.progresses {l : Loop} (h : IsLoop l) : l.Progresses := by
  have hround {ι α : Type} {R : ParserState → α → ParserState → Prop} {N : ι → ParserState → Prop}
      {round : Parser (Round ι α)} {s t : ParserState} {next : ι} {finish : α → α}
      (hends : Ends True s round ((progress True).Met R N s))
      (hagain : round s = .ok (.again next finish) t) :
      ∃ taken, s.tokens = taken ++ t.tokens ∧ taken ≠ [] :=
    (hends.ok hagain).1.taken_of_paid (hends.ok hagain).2.2.1
  have henough (fuel own : Nat) (s : ParserState) : (progress True).Enough fuel own s :=
    fun _ => trivial
  intro fuel start s next finish t hagain
  obtain ⟨o, tok, ho⟩ := exists_before True s
  cases h with
  | climbing floor =>
      exact hround (climbRound_holds (d := progress True) ho
        (fun j _ => termWith_holds fuel (henough _ _ j))
        fun op rhs j k hrhs _ => tighten_holds fuel op hrhs (henough _ _ k)) hagain
  | tightening op =>
      exact hround (tightenRound_holds (d := progress True) ho fun floor =>
        climb_holds fuel floor ho (henough _ _ s)) hagain
  | block =>
      exact hround (blockRound_holds (statementWith_holds fuel (henough _ _ s))) hagain
  | parameterList => exact hround (parametersRound_holds (d := progress True) (.refl s)) hagain
  | memberList => exact hround (membersRound_holds (d := progress True) (.refl s)) hagain
  | declarations => exact hround (programRound_holds (d := progress True) trivial) hagain

-- ================================================================= scopes

/-- The rules that open a scope. -/
inductive OpensScope : {α : Type} → Parser α → Prop where
  | statement (fuel : Nat) : OpensScope (statementWith fuel)
  | body (fuel : Nat) : OpensScope (body fuel)
  | function (returnType : Ty) (name : String) (pos : Position) (access : Access) :
    OpensScope (functionRest returnType name pos access)
  | aggregate (kind : AggregateKind) : OpensScope (aggregate kind)

/-- Whether the scope that a rule finds is current again behind it, whether it
answers or fails. -/
def Balanced (rule : Parser α) : Prop :=
  ∀ s t, (∀ a, rule s = .ok a t → t.table.current = s.table.current)
    ∧ ∀ e, rule s = .error e t → t.table.current = s.table.current

/-- A rule that ends on its level is balanced. -/
theorem Balanced.of_ends {rule : Parser α} (h : ∀ s, ∃ P, Ends True s rule P) :
    Balanced rule := by
  intro s t
  obtain ⟨P, hends⟩ := h s
  exact ⟨fun a ha => (hends.level.1 a ha).current, fun e he => (hends.level.2 e he).current⟩

/-- Every rule that opens a scope closes it, in front of a failure too. -/
theorem OpensScope.balanced {rule : Parser α} (h : OpensScope rule) : Balanced rule := by
  have henough (fuel own : Nat) (s : ParserState) : (progress True).Enough fuel own s :=
    fun _ => trivial
  cases h with
  | statement fuel => exact .of_ends fun s => ⟨_, statementWith_holds fuel (henough _ _ s)⟩
  | body fuel => exact .of_ends fun s => ⟨_, body_holds fuel (henough _ _ s)⟩
  | function returnType name pos access =>
      refine .of_ends fun s => ⟨_, functionRest_joins (d := progress True)
        (P := fun _ _ => True) trivial fun _ hlparen hparams hlcurly hbody => ?_⟩
      obtain ⟨u, hu, -⟩ := (((hlparen.after hparams).after hlcurly).after hbody).leaves
      exact ⟨u, hu, trivial⟩
  | aggregate kind =>
      refine .of_ends fun s => ?_
      obtain ⟨o, tok, ho⟩ := exists_before True s
      exact ⟨_, aggregate_holds ho kind⟩

-- ============================================================== the parser

/-- The parser always answers, and this is why: enough steps for every rule, a
token for every term, statement, declaration and round of a loop, a window that
the ring has room for, and scopes that are closed behind what opened them. -/
theorem parse_total :
    (∀ tokens report, Decides tokens report)
    ∧ (∀ {α : Type} {rule : Nat → Parser α}, Counted rule →
        ∀ s fuel, steps s.tokens.length ≤ fuel → ∀ t, rule fuel s ≠ .error .stuck t)
    ∧ (∀ fuel, Consumes (termWith fuel) ∧ Consumes (statementWith fuel)) ∧ Consumes topLevel
    ∧ (∀ {l : Loop}, IsLoop l → l.Unrolls ∧ l.Progresses)
    ∧ (∀ (tokens : List Token) (accesses : List Lookahead.Access),
        (∀ a ∈ accesses, a.Within window) →
        (serve Lookahead.access (.ofList tokens : Lookahead Token window) accesses).1
            = (serve (Lookahead.Access.onList window) tokens accesses).1
          ∧ (serve Lookahead.access (.ofList tokens : Lookahead Token window) accesses).2.isSome
            = true)
    ∧ ∀ {α : Type} {rule : Parser α}, OpensScope rule → Balanced rule := by
  refine ⟨program_decides, fun h s fuel hfuel t => h.not_stuck hfuel, fun fuel => ⟨?_, ?_⟩, ?_,
    fun h => ⟨h.unrolls, h.progresses⟩, fun tokens accesses h => ?_, fun h => h.balanced⟩
  · exact .of_ends fun s => termWith_holds (d := progress True) fuel fun _ => trivial
  · exact .of_ends fun s => statementWith_holds (d := progress True) fuel fun _ => trivial
  · exact .of_ends fun s => topLevel_holds (d := progress True)
  · exact serve_within (by decide) h tokens

/-- The parser in front of an aggregate that is never closed. -/
theorem parse_total_unclosed :
    let tokens : List Token :=
      [⟨.keyword .structWord, .start⟩, ⟨.ident "a", .start⟩, ⟨.symbol .lcurly, .start⟩]
    Decides tokens (.empty false)
      ∧ (steps tokens.length = 16
        ∧ ∀ t, programWith 16 (initial tokens (.empty false)) ≠ .error .stuck t)
      ∧ (climbing 0).Progresses
      ∧ (serve Lookahead.access (.ofList tokens : Lookahead Token window)
          [.peek 1, .next, .peek 1]).1 = [tokens[1]?, tokens[0]?, tokens[2]?]
      ∧ Balanced (aggregate .struct) := by
  intro tokens
  refine ⟨parse_total.1 _ _, ⟨rfl, parse_total.2.1 .program _ 16 (Nat.le_refl 16)⟩,
    (parse_total.2.2.2.2.1 (.climbing 0)).2, ?_, parse_total.2.2.2.2.2.2 (.aggregate .struct)⟩
  refine (parse_total.2.2.2.2.2.1 tokens [.peek 1, .next, .peek 1] ?_).1.trans rfl
  simp only [List.forall_mem_cons]
  exact ⟨Nat.one_lt_two, trivial, Nat.one_lt_two, nofun⟩

end MiniC.Parser
