/-
Where a parse takes its positions from. What is cited in a note, a warning or a
fault is the place of a token that was ahead when the parse started.

# What a state may cite

A state `Cites` only such places when its tokens, its declarations, its aggregates
and what was added to its report have them. The declarations matter because a name
that is declared twice is reported with the place of the first, and the aggregates
for the same reason. The end of the tokens has no place of its own: it is cited as
the place of the last token taken, which is one as soon as there was one, so that
`last` is asked of a state only where the tokens are at an end.

# The account

Every rule of the grammar leaves such a state, answering with an expression or a
name at such a place (`placing`, where `Placed` is what may be cited); a fault
cites places that are its own or those of an earlier declaration (`CitedBy`). The
steps that report are the only ones with something to show: a note or a warning
stands at the place of an expression, and a name that is brought into sight takes
its place into the table. What is true at the start and kept by every rule is true
of the outcome (`parse_cites`). Consumed by the account of the positions that are
reported.
-/
import MiniC.Proofs.Parser.Totality
import MiniC.Proofs.Parser.Traversal

namespace MiniC.Parser

-- ================================================================= states

/-- What a parse may cite: places, and the report that it was given. -/
structure Ground where
  cited : Position → Prop
  given : List Diagnostic

/-- Whether the places in a state may be cited. -/
structure Cites (g : Ground) (s : ParserState) : Prop where
  tokens : ∀ token ∈ s.tokens, g.cited token.pos
  last : s.tokens = [] → g.cited s.last
  bindings : ∀ b ∈ s.table.bindings, g.cited b.2.pos
  aggregates : ∀ decl ∈ s.program.aggregates, g.cited decl.pos
  report : ∃ added, s.report.entries = g.given ++ added ∧ ∀ d ∈ added, g.cited d.pos

/-- Whether a failure cites what it may, and so does the state it is met in. -/
def CitedBy (g : Ground) : Stop → ParserState → Prop
  | .fault e, s => Cites g s ∧ ∀ p ∈ e.positions, g.cited p
  | .stuck, s => Cites g s

/-- A failure leaves a state that cites as it should, whatever failed. -/
theorem CitedBy.cites {g : Ground} {e : Stop} {s : ParserState} (h : CitedBy g e s) :
    Cites g s := by
  cases e with
  | fault e => exact h.1
  | stuck => exact h

-- ================================================================== steps

/-- Judged by the places of the tokens that are taken. -/
def placing (g : Ground) : Judgement where
  Index := Unit
  Sees _ := Cites g
  Holds := Leads (fun _ => Cites g) (CitedBy g)
  Placed := g.cited
  token _ tok _ := g.cited tok.pos
  answer := .answer
  chain := .chain
  look hx _ hf := .look hx hf
  stop hplaces := Leads.stop fun _ hs => ⟨hs, hplaces⟩
  take _ _ := by
    refine .take (fun s tok rest hs htokens => ?_) fun s hs hnil => ?_
    · have hcited := hs.tokens
      rw [htokens] at hcited
      obtain ⟨htok, hrest⟩ := List.forall_mem_cons.1 hcited
      exact ⟨(), ⟨hrest, fun _ => htok, hs.bindings, hs.aggregates, hs.report⟩, htok⟩
    · exact ⟨hs, List.forall_mem_singleton.2 (hs.last hnil)⟩
  token_placed h := h

/-- Whether a warning is raised to an error changes nothing about its place. -/
theorem admitted_pos (strict : Bool) (d : Diagnostic) : (Report.admitted strict d).pos = d.pos := by
  unfold Report.admitted
  split <;> rfl

/-- What is noted at a place that may be cited may be cited. -/
theorem note_places {g : Ground} {d : Diagnostic} {Q : Unit → Unit → Prop} (h : g.cited d.pos)
    (hQ : Q () ()) : (placing g).Holds () (note d) Q := by
  refine Leads.modify fun s hs => ?_
  obtain ⟨added, hentries, hadded⟩ := hs.report
  refine ⟨(), ⟨hs.tokens, hs.last, hs.bindings, hs.aggregates,
    added ++ [Report.admitted s.report.strict d], ?_, List.forall_mem_append.2 ⟨hadded, ?_⟩⟩, hQ⟩
  · show s.report.entries ++ _ = _
    rw [hentries, List.append_assoc]
  · rw [List.forall_mem_singleton, admitted_pos]
    exact h

/-- A name that is declared takes its place along, and one that was there already is
reported at both. -/
theorem declare_places {g : Ground} {name : String} {ty : Ty} {pos : Position}
    (h : g.cited pos) : (placing g).Holds () (declare name ty pos) fun _ _ => True := by
  refine Leads.declare (fun s table hs hinsert => ?_) fun s earlier hs hinsert => ?_
  all_goals
    unfold SymbolTable.insert at hinsert
    split at hinsert
    all_goals cases hinsert
  · exact ⟨(), ⟨hs.tokens, hs.last, List.forall_mem_cons.2 ⟨h, hs.bindings⟩, hs.aggregates,
      hs.report⟩, trivial⟩
  · rename_i hfind
    obtain ⟨b, hb, rfl⟩ := Option.map_eq_some_iff.1 hfind
    have hearlier := hs.bindings b (List.mem_of_find?_eq_some hb)
    exact ⟨hs, List.forall_mem_cons.2 ⟨h, List.forall_mem_singleton.2 hearlier⟩⟩

/-- Opening a scope and leaving it declares nothing. -/
theorem within_places {g : Ground} {α : Type} {f : Option (String × Ty)} {x : Parser α}
    {P : α → Unit → Prop} (h : (placing g).Holds () x fun a _ => ∃ j, True ∧ P a j) :
    (placing g).Holds () (within f x) P := by
  have hleave {s t : ParserState} {table : SymbolTable} (ht : Cites g t)
      (hpop : t.table.pop? = some table) :
      Cites g { t with table, function := s.function } := by
    obtain ⟨parent, -, rfl⟩ := Option.map_eq_some_iff.1 hpop
    exact ⟨ht.tokens, ht.last, ht.bindings, ht.aggregates, ht.report⟩
  refine Leads.within h (fun s hs => ⟨hs.tokens, hs.last, hs.bindings, hs.aggregates, hs.report⟩)
    (fun _ _ _ _ _ _ ht _ hpop => hleave ht hpop) (fun s e t table _ ht hpop => ?_)
    fun s t _ ht _ => ?_
  · cases e with
    | fault e => exact ⟨hleave ht.1 hpop, ht.2⟩
    | stuck => exact hleave ht hpop
  · obtain ⟨-, ht⟩ | ⟨e, ht⟩ := ht
    · exact ht
    · exact ht.cites

/-- Whether an aggregate that is declared stands at a place that may be cited. -/
def SitedDeclaration (g : Ground) : Stmt → Prop
  | .aggregate decl => g.cited decl.pos
  | _ => True

/-- What is added to the program may be cited when its name is declared again. -/
theorem Cites.grow {g : Ground} {s : ParserState} {st : Stmt} (hs : Cites g s)
    (h : SitedDeclaration g st) :
    Cites g { s with program := ⟨s.program.body ++ [st]⟩ } := by
  refine ⟨hs.tokens, hs.last, hs.bindings, fun found hfound => ?_, hs.report⟩
  obtain ⟨stmt, hstmt, heq⟩ := List.mem_filterMap.1 hfound
  obtain hstmt | hstmt := List.mem_append.1 hstmt
  · exact hs.aggregates found (List.mem_filterMap.2 ⟨stmt, hstmt, heq⟩)
  · rw [List.mem_singleton.1 hstmt] at heq
    cases st <;> cases heq
    exact h

/-- Expressions and aggregates stand at places that may be cited. -/
def citing (g : Ground) : Account where
  toJudgement := placing g
  stall _ := Leads.stop fun _ hs => hs
  last_placed hs hnil := hs.last hnil
  aggregate_placed hs hfound := hs.aggregates _ (Program.mem_aggregates hfound).1
  declare := declare_places
  enter _ i := i
  Leaves _ _ _ := True
  within := within_places
  expr _ e _ := g.cited e.pos
  expr_placed h := h
  string htok _ := htok
  number htok _ _ := htok
  name htok _ := (placing g).identifier_holds htok htok fun _ _ _ _ _ _ _ _ => htok
  enclosed _ h _ := h
  negated htok _ _ := htok
  prefixed htok _ _ := htok
  suffixed _ htok _ := htok
  combined _ htok _ _ := htok
  initial _ h := (placing g).checkNarrowing_holds h (fun _ _ => trivial)
    fun _ _ hpos _ => note_places (hpos ▸ h) trivial
  condition _ h _ := (placing g).noteCondition_holds h (fun _ _ => trivial)
    fun _ _ _ hpos _ => note_places (hpos ▸ h) trivial
  scope _ _ := ⟨(), trivial, trivial⟩
  function _ _ _ _ _ _ _ := ⟨(), trivial, trivial⟩
  item _ st _ := SitedDeclaration g st
  aggregate _ hname _ _ _ _ _ := by
    obtain ⟨tok, htok, -, hpos⟩ := hname
    refine ⟨(), trivial, ?_⟩
    show g.cited _
    rw [← hpos]
    exact htok
  item_pass h _ := h
  grow _ h := Leads.modify fun s hs => ⟨(), hs.grow h, trivial, .inl trivial⟩

-- ================================================================= parses

/-- At the start the places that may be cited are those of the tokens. -/
theorem initial_cites {tokens : List Token} (hne : tokens ≠ []) (report : Report) :
    Cites ⟨fun p => ∃ token ∈ tokens, p = token.pos, report.entries⟩ (initial tokens report) where
  tokens := fun token htoken => ⟨token, htoken, rfl⟩
  last := fun hnil => absurd hnil hne
  bindings := nofun
  aggregates := nofun
  report := ⟨[], (List.append_nil _).symm, nofun⟩

/-- What a parse reports and fails with is at the places of its tokens. -/
theorem parse_cites (tokens : List Token) (report : Report) :
    (∃ added, (parse tokens report).2.entries = report.entries ++ added
        ∧ ∀ d ∈ added, ∃ token ∈ tokens, d.pos = token.pos)
      ∧ ∀ e, (parse tokens report).1 = .error e →
        ∀ p ∈ e.positions, ∃ token ∈ tokens, p = token.pos := by
  cases tokens with
  | nil => exact ⟨⟨[], (List.append_nil _).symm, nofun⟩, nofun⟩
  | cons token rest =>
      have hstart := initial_cites (List.cons_ne_nil token rest) report
      have hread : (citing ⟨fun p => ∃ t ∈ token :: rest, p = t.pos, report.entries⟩).Holds ()
          program _ := program_holds trivial
      obtain ⟨p, s, hprogram, hparse⟩ | ⟨e, s, hprogram, hparse⟩ :=
        program_decides (token :: rest) report
      · obtain ⟨_, hs, -⟩ := Leads.ok hread hstart hprogram
        rw [hparse]
        exact ⟨hs.report, nofun⟩
      · obtain ⟨hs, hplaces⟩ := Leads.error hread hstart hprogram
        rw [hparse]
        refine ⟨hs.report, fun e' he => ?_⟩
        cases he
        exact hplaces

end MiniC.Parser
