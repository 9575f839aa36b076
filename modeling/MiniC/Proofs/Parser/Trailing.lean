/-
Where the remarks of a parse stand among its tokens. What a step adds to the
report is at places of tokens that it takes, in their order.

# What is owed

A remark on an expression is made behind it, and its place is that of a token in
it. Until it is made, that place is owed: in a state that `Trails`, the places of
what was reported, those that are owed and those of the tokens ahead are, in this
order, among the places of the tokens the parse started with. Taking a token owes
its place, and a remark pays with the place it stands at, forgiving all others.
That is why remarks come in the order of the tokens: nothing is ever owed in front
of something that was paid.

# The account

The index is what is owed, and a construct is judged by the place it owes for its
own (`Owes`). An expression stands at a token that it is read from; a condition and an
initializer are remarked on behind theirs; and everything else is a sequence of
these and of silent steps, on which this account has no opinion. Consumed by the
account of what a parse says.
-/
import MiniC.Proofs.Parser.Remarks

namespace MiniC

/-- The places of diagnostics. -/
def placesOf (ds : List Diagnostic) : List Position := ds.map (·.pos)

@[simp] theorem placesOf_append (ds ds' : List Diagnostic) :
    placesOf (ds ++ ds') = placesOf ds ++ placesOf ds' :=
  List.map_append

namespace Parser

-- =============================================================== trailing

/-- A report and the places of all tokens in front of which a parse was given it. -/
structure Trail where
  given : Report
  tokens : List Position

/-- Whether a parse has added diagnostics to its report whose places, followed by those
that are owed and those of the tokens ahead, are some of the trail in their order. -/
def Trails (w : Trail) (owed : List Position) (s : ParserState) : Prop :=
  ∃ ds, s.report = w.given.append ds
    ∧ (placesOf ds ++ owed ++ s.tokens.map (·.pos)).Sublist w.tokens

/-- Whether a place is owed behind those that were owed before. -/
def Owes (owed : List Position) (pos : Position) (owed' : List Position) : Prop :=
  (owed ++ [pos]).Sublist owed'

section Owes

variable {i j k : List Position} {p q : Position}

/-- A place that is owed may be paid with. -/
theorem Owes.mem (h : Owes i p j) : p ∈ j := h.subset List.mem_concat_self

/-- Of two places either may be kept. -/
theorem Owes.first (h : Owes i p j) (h' : Owes j q k) : Owes i p k :=
  h.trans ((List.sublist_append_left _ _).trans h')

/-- What comes second owes on behind what came first. -/
theorem Owes.second (h : Owes i p j) (h' : Owes j q k) : Owes i q k :=
  (((List.sublist_append_left _ _).trans h).append_right _).trans h'

end Owes

/-- Judged by the places that are owed behind a step. -/
def trailing (w : Trail) : Judgement where
  Index := List Position
  Sees := Trails w
  Holds := Leads (Trails w) fun _ _ => True
  token i tok j := Owes i tok.pos j
  answer := .answer
  chain := .chain
  look hx _ hf := .look hx hf
  stop _ := Leads.stop fun _ _ => trivial
  take _ i := by
    refine .take (fun s tok rest hs htokens => ?_) fun _ _ _ => trivial
    obtain ⟨ds, hreport, htrail⟩ := hs
    refine ⟨i ++ [tok.pos], ⟨ds, hreport, ?_⟩, List.Sublist.refl _⟩
    rw [htokens, List.map_cons] at htrail
    show (placesOf ds ++ (i ++ [tok.pos]) ++ rest.map (·.pos)).Sublist w.tokens
    rwa [← List.append_assoc, List.append_assoc, List.singleton_append]

/-- A remark stands at the place that is owed for it. -/
theorem note_trails {w : Trail} {d : Diagnostic} {owed : List Position} (h : d.pos ∈ owed) :
    (trailing w).Holds owed (note d) fun _ _ => True := by
  refine Leads.modify fun s ⟨ds, hreport, htrail⟩ => ⟨[], ⟨ds ++ [d], ?_, ?_⟩, trivial⟩
  · show s.report.push d = _
    rw [hreport, ← append_append]
    rfl
  · rw [placesOf_append, List.append_nil]
    have hone : (placesOf [d]).Sublist owed := List.singleton_sublist.2 h
    exact ((hone.append_left _).append_right _).trans htrail

/-- An expression stands at a token that it is read from, and a remark on it is made
behind it. -/
def trail (w : Trail) : Account where
  toJudgement := trailing w
  stall _ := Leads.stop fun _ _ => trivial
  declare _ := Leads.declare (fun _ _ hs _ => ⟨_, hs, trivial⟩) fun _ _ _ _ => trivial
  enter _ i := i
  Leaves _ k j := j = k
  within h := Leads.within h (fun _ hs => hs) (fun _ _ _ _ _ _ ht hleaves _ => hleaves ▸ ht)
    (fun _ _ _ _ _ _ _ => trivial) fun _ _ _ _ _ => trivial
  expr i e j := Owes i e.pos j
  string htok _ := htok
  number htok _ _ := htok
  name htok _ := (trailing w).identifier_holds trivial htok
    fun _ _ _ _ _ _ hdot ⟨_, hfield, _⟩ => (Owes.first htok hdot).first hfield
  enclosed h he h' := (Owes.second h he).first h'
  negated h he _ := Owes.first h he
  prefixed h he _ := Owes.first h he
  suffixed he h _ := Owes.second he h
  combined hl h hr _ := (Owes.second hl h).first hr
  initial _ he := (trailing w).checkNarrowing_holds trivial (fun _ _ => trivial)
    fun _ _ hpos _ => note_trails (hpos ▸ Owes.mem he)
  condition _ he h := (trailing w).noteCondition_holds trivial (fun _ _ => trivial)
    fun _ _ _ hpos _ => note_trails (hpos ▸ Owes.mem (Owes.first he h))
  scope _ _ := ⟨_, rfl, trivial⟩
  function _ _ _ _ _ _ _ := ⟨_, rfl, trivial⟩
  aggregate _ _ _ _ _ _ _ := ⟨_, rfl, trivial⟩
  grow _ _ := Leads.modify fun _ hs => ⟨_, hs, trivial, .inl trivial⟩

/-- What a parse that succeeds adds to its report stands at tokens, in their order. -/
theorem program_trails {tokens : List Token} {report : Report} {p : Program} {s : ParserState}
    (h : program (initial tokens report) = .ok p s) :
    ∃ ds, s.report = report.append ds ∧ (placesOf ds).Sublist (tokens.map (·.pos)) := by
  have hstart : Trails ⟨report, tokens.map (·.pos)⟩ [] (initial tokens report) :=
    ⟨[], rfl, List.Sublist.refl _⟩
  have hread : (trail ⟨report, tokens.map (·.pos)⟩).Holds ([] : List Position) program _ :=
    program_holds trivial
  obtain ⟨owed, ⟨ds, hreport, htrail⟩, -⟩ := Leads.ok hread hstart h
  rw [List.append_assoc] at htrail
  exact ⟨ds, hreport, (List.sublist_append_left _ _).trans htrail⟩

end Parser

end MiniC
