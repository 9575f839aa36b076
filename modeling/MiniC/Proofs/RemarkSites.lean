/-
Every remark of the parser and its reason (`parse_judged`).

# Sites

The parts of a program that can be remarked on are its conditions and its
variables, members and parameters (`Program.Sites`). The tree keeps the members
of an aggregate apart from its methods, so it does not tell in which order they
were written; the sites of an aggregate may be in any order that keeps these two
in theirs.

# Reasons

Each site is remarked on exactly as it deserves (`Leaf.Judged`), and nothing else
is. A condition deserves a note if it is constant, by whether it folds to zero,
and a variable a warning if what its initializer folds to is of a type of more
bytes than its own. The remarks themselves are computed by the parser's own
functions, so what is shown is that these say what is deserved wherever constants
fold, which they do in a program that was accepted (`Program.Lawful.judgeable`).

# Order

The remarks of an accepted token list stand in the order of the tokens, which
also tells where the methods of an aggregate stood among its members
(`Parser.parse_trails`).
Consumed by no other module.
-/
import MiniC.Proofs.Parser.Folding
import MiniC.Proofs.Parser.Trailing
import MiniC.Proofs.Strictness

namespace MiniC

-- ================================================================== sites

/-- What a function has that can be remarked on: its parameters, then the leaves
of its body. -/
def FunctionDecl.sites (decl : FunctionDecl) : List Leaf :=
  decl.params.map .variable ++ decl.leaves

/-- Whether these are the parts of a declaration that can be remarked on. Those of
the members of an aggregate stand anywhere among those of its methods. -/
def Stmt.Sites : Stmt → List Leaf → Prop
  | .function decl, sites => sites = decl.sites
  | .variable decl, sites => sites = [.variable decl]
  | .aggregate decl, sites => ∃ parts,
    Interleaved (decl.members.map fun member => [.variable member])
      (decl.methods.map FunctionDecl.sites) parts ∧ sites = parts.flatten
  | _, _ => False

/-- Whether these are the parts of a program that can be remarked on. -/
def Program.Sites (p : Program) (sites : List Leaf) : Prop :=
  ∃ parts, List.Forall₂ Stmt.Sites p.body parts ∧ sites = parts.flatten

/-- Whether a part of a program deserves these remarks. -/
inductive Leaf.Judged : Leaf → List Diagnostic → Prop
  | undecided {e : Expr} : e.isConstant = false → Judged (.condition e) []
  | fails {e : Expr} : e.isConstant = true → e.foldsToZero = .ok true →
    Judged (.condition e) [⟨.note, "condition is always false", e.pos⟩]
  | holds {e : Expr} : e.isConstant = true → e.foldsToZero = .ok false →
    Judged (.condition e) [⟨.note, "condition is always true", e.pos⟩]
  | bare {decl : VariableDecl} : decl.init = none → Judged (.variable decl) []
  | unmeasured {decl : VariableDecl} : decl.ty.isMeasured = false → Judged (.variable decl) []
  | computed {decl : VariableDecl} {e : Expr} : decl.init = some e → e.isConstant = false →
    Judged (.variable decl) []
  | fits {decl : VariableDecl} {e : Expr} {lit : NumberLiteral} : decl.init = some e →
    decl.ty.isMeasured = true → e.isConstant = true → e.evaluate = .ok lit →
    lit.ty.size ≤ decl.ty.size → Judged (.variable decl) []
  | narrowed {decl : VariableDecl} {e : Expr} {lit : NumberLiteral} : decl.init = some e →
    decl.ty.isMeasured = true → e.isConstant = true → e.evaluate = .ok lit →
    decl.ty.size < lit.ty.size →
    Judged (.variable decl) [narrowingWarning lit.ty decl.ty e.pos]
  | result (value : Option Expr) : Judged (.result value) []
  | effect (e : Expr) : Judged (.effect e) []

-- ================================================================ remarks

/-- What is said of a leaf. -/
def Leaf.remarks : Leaf → List Diagnostic
  | .condition e => e.conditionRemarks
  | .variable decl => decl.remarks
  | _ => []

mutual

/-- What is said of a statement is said of its leaves. -/
theorem Stmt.remarks_leaves : ∀ st : Stmt, st.remarks = st.leaves.flatMap Leaf.remarks
  | .block body => by rw [Stmt.remarks, Stmt.leaves, bodyRemarks_leaves body]
  | .branch arm => by rw [Stmt.remarks, Stmt.leaves, arm.remarks_leaves]
  | .loop e body _ => by
      rw [Stmt.remarks, Stmt.leaves, List.flatMap_cons, bodyRemarks_leaves body]
      rfl
  | .variable decl => (List.append_nil _).symm
  | .ret _ _ => rfl
  | .expr _ => rfl
  | .function _ => rfl
  | .aggregate _ => rfl

/-- So is what is said of statements in sequence. -/
theorem bodyRemarks_leaves : ∀ body : List Stmt,
    bodyRemarks body = (leavesAll body).flatMap Leaf.remarks
  | [] => rfl
  | st :: rest => by
      rw [bodyRemarks, leavesAll, List.flatMap_append, st.remarks_leaves, bodyRemarks_leaves rest]

/-- So is what is said of an arm. -/
theorem Arm.remarks_leaves : ∀ arm : Arm, arm.remarks = arm.leaves.flatMap Leaf.remarks
  | ⟨e, consequent, alternate, _⟩ => by
      rw [Arm.remarks, Arm.leaves, List.flatMap_cons, List.flatMap_append,
        bodyRemarks_leaves consequent, alternate.remarks_leaves, List.append_assoc]
      rfl

/-- So is what is said of an alternate. -/
theorem Alternate.remarks_leaves : ∀ alternate : Alternate,
    alternate.remarks = alternate.leaves.flatMap Leaf.remarks
  | .none => rfl
  | .block body => by rw [Alternate.remarks, Alternate.leaves, bodyRemarks_leaves body]
  | .elseIf arm => by rw [Alternate.remarks, Alternate.leaves, arm.remarks_leaves]

end

/-- What is said of a function is said of its sites. -/
theorem FunctionDecl.remarks_sites (decl : FunctionDecl) :
    decl.remarks = decl.sites.flatMap Leaf.remarks := by
  unfold remarks sites
  rw [List.flatMap_append, List.flatMap_map, bodyRemarks_leaves]
  rfl

/-- Lists that are interleaved as images are interleaved themselves. -/
theorem Interleaved.of_map {α β : Type} {f : α → β} {as bs : List α} {cs : List β}
    (h : Interleaved (as.map f) (bs.map f) cs) : ∃ ds, Interleaved as bs ds ∧ cs = ds.map f := by
  generalize hleft : as.map f = left at h
  generalize hright : bs.map f = right at h
  induction h generalizing as bs with
  | nil =>
      obtain rfl := List.map_eq_nil_iff.1 hleft
      obtain rfl := List.map_eq_nil_iff.1 hright
      exact ⟨[], .nil, rfl⟩
  | left b _ ih =>
      obtain ⟨front, last, rfl, hfront, hlast⟩ := List.map_eq_append_iff.1 hleft
      obtain ⟨a, rfl, rfl⟩ := List.map_eq_singleton_iff.1 hlast
      obtain ⟨ds, hds, rfl⟩ := ih hfront hright
      refine ⟨ds ++ [a], .left a hds, ?_⟩
      rw [List.map_append, List.map_singleton]
  | right b _ ih =>
      obtain ⟨front, last, rfl, hfront, hlast⟩ := List.map_eq_append_iff.1 hright
      obtain ⟨a, rfl, rfl⟩ := List.map_eq_singleton_iff.1 hlast
      obtain ⟨ds, hds, rfl⟩ := ih hleft hfront
      refine ⟨ds ++ [a], .right a hds, ?_⟩
      rw [List.map_append, List.map_singleton]

/-- What is in a list comes from one of the two. -/
theorem Interleaved.mem {α : Type} {as bs cs : List α} (h : Interleaved as bs cs) {c : α}
    (hc : c ∈ cs) : c ∈ as ∨ c ∈ bs := by
  induction h with
  | nil => cases hc
  | left a _ ih =>
      rcases List.mem_append.1 hc with hc | hc
      · exact (ih hc).imp_left (List.mem_append_left _)
      · exact Or.inl (List.mem_append_right _ hc)
  | right b _ ih =>
      rcases List.mem_append.1 hc with hc | hc
      · exact (ih hc).imp_right (List.mem_append_left _)
      · exact Or.inr (List.mem_append_right _ hc)

/-- Several parts are gone through as one list. -/
theorem flatten_flatMap {α β : Type} (f : α → List β) (parts : List (List α)) :
    (parts.map fun part => part.flatMap f).flatten = parts.flatten.flatMap f := by
  rw [List.flatMap_def, List.map_flatten, List.flatten_flatten, List.map_map]
  rfl

/-- What is said of a declaration is said of its sites. -/
theorem Stmt.Says.sites {st : Stmt} {ds : List Diagnostic} (h : st.Says ds)
    (hst : (∃ decl, st = .function decl) ∨ (∃ decl, st = .variable decl)
      ∨ ∃ decl, st = .aggregate decl) :
    ∃ sites, st.Sites sites ∧ ds = sites.flatMap Leaf.remarks := by
  rcases hst with ⟨decl, rfl⟩ | ⟨decl, rfl⟩ | ⟨decl, rfl⟩
  · exact ⟨decl.sites, rfl, Eq.trans h decl.remarks_sites⟩
  · exact ⟨[.variable decl], rfl, Eq.trans h (List.append_nil _).symm⟩
  · obtain ⟨parts, hparts, rfl⟩ := h
    have hmembers : decl.members.map VariableDecl.remarks
        = (decl.members.map fun member => [Leaf.variable member]).map
          (fun part => part.flatMap Leaf.remarks) := by
      rw [List.map_map]
      exact List.map_congr_left fun member _ => (List.append_nil _).symm
    have hmethods : decl.methods.map FunctionDecl.remarks
        = (decl.methods.map FunctionDecl.sites).map (fun part => part.flatMap Leaf.remarks) := by
      rw [List.map_map]
      exact List.map_congr_left fun method _ => method.remarks_sites
    unfold AggregateDecl.Says at hparts
    rw [hmembers, hmethods] at hparts
    obtain ⟨sites, hsites, rfl⟩ := hparts.of_map
    exact ⟨sites.flatten, ⟨sites, hsites, rfl⟩, flatten_flatMap _ _⟩

/-- What is said of a program is said of its sites. -/
theorem Program.Says.sites {p : Program} {ds : List Diagnostic} (h : p.Says ds)
    (hp : ∀ st ∈ p.body, (∃ decl, st = .function decl) ∨ (∃ decl, st = .variable decl)
      ∨ ∃ decl, st = .aggregate decl) :
    ∃ sites, p.Sites sites ∧ ds = sites.flatMap Leaf.remarks := by
  obtain ⟨parts, hparts, rfl⟩ := h
  suffices hsites : ∃ sites, List.Forall₂ Stmt.Sites p.body sites
      ∧ parts = sites.map fun part => part.flatMap Leaf.remarks by
    obtain ⟨sites, hsites, rfl⟩ := hsites
    exact ⟨sites.flatten, ⟨sites, hsites, rfl⟩, flatten_flatMap _ _⟩
  generalize p.body = body at hparts hp ⊢
  induction hparts with
  | nil => exact ⟨[], .nil, rfl⟩
  | cons hspoken _ ih =>
      obtain ⟨hst, hrest⟩ := List.forall_mem_cons.1 hp
      obtain ⟨first, hfirst, rfl⟩ := hspoken.sites hst
      obtain ⟨sites, hsites, rfl⟩ := ih hrest
      exact ⟨first :: sites, .cons hfirst hsites, rfl⟩

-- ============================================================== judgement

/-- Whether a leaf can be judged: it declares no function and no aggregate, and
what is constant in it folds. -/
def Leaf.Judgeable (leaf : Leaf) : Prop :=
  leaf ≠ .nested ∧ leaf.Folds ∧ ∀ decl, leaf.variable? = some decl → decl.Folds

/-- A condition is remarked on as it deserves. -/
theorem Expr.conditionRemarks_judged {e : Expr} (h : (Leaf.condition e).Folds) :
    (Leaf.condition e).Judged e.conditionRemarks := by
  unfold conditionRemarks
  cases hconst : e.isConstant with
  | false => exact .undecided hconst
  | true =>
      obtain ⟨zero, hzero⟩ := h hconst
      rw [if_pos rfl, hzero]
      cases zero with
      | true => exact .fails hconst hzero
      | false => exact .holds hconst hzero

/-- A measured type is neither that of an aggregate nor that of a string. -/
theorem Ty.builtin_of_isMeasured {ty : Ty} (h : ty.isMeasured = true) :
    (∀ name, ty ≠ .named name) ∧ ty ≠ .string := by
  refine ⟨fun name hname => ?_, fun hstring => ?_⟩
  · rw [hname] at h
    cases h
  · rw [hstring] at h
    cases h

/-- A variable is remarked on as it deserves. -/
theorem VariableDecl.remarks_judged {decl : VariableDecl} (h : decl.Folds) :
    (Leaf.variable decl).Judged decl.remarks := by
  unfold remarks initializerRemarks
  cases hinit : decl.init with
  | none => exact .bare hinit
  | some e =>
      rw [Option.toList_some, List.flatMap_singleton]
      unfold narrowingRemarks
      cases hconst : e.isConstant with
      | false => exact .computed hinit hconst
      | true =>
          cases hmeasured : decl.ty.isMeasured with
          | false => exact .unmeasured hmeasured
          | true =>
              obtain ⟨hnamed, hstring⟩ := Ty.builtin_of_isMeasured hmeasured
              obtain ⟨lit, hlit⟩ := h hnamed hstring e hinit hconst
              rw [Bool.and_self, if_pos rfl, hlit]
              dsimp only
              split
              · exact .narrowed hinit hmeasured hconst hlit ‹_›
              · exact .fits hinit hmeasured hconst hlit (Nat.le_of_not_lt ‹_›)

/-- So is a leaf that can be judged. -/
theorem Leaf.Judgeable.judged {leaf : Leaf} (h : leaf.Judgeable) : leaf.Judged leaf.remarks := by
  obtain ⟨hflat, hfolds, hdecl⟩ := h
  cases leaf with
  | condition e => exact Expr.conditionRemarks_judged hfolds
  | effect e => exact .effect e
  | result value => exact .result value
  | «variable» decl => exact VariableDecl.remarks_judged (hdecl decl rfl)
  | nested => exact absurd rfl hflat

/-- The sites of a declaration are leaves of its functions and methods, and what it
declares. -/
theorem Stmt.Sites.mem {st : Stmt} {sites : List Leaf} (h : st.Sites sites) {leaf : Leaf}
    (hleaf : leaf ∈ sites) :
    (∃ f ∈ st.callables, leaf ∈ f.leaves) ∨ ∃ decl ∈ st.decls, leaf = .variable decl := by
  have hfunction {f : FunctionDecl} (hf : f ∈ st.callables) (hleaf : leaf ∈ f.sites) :
      (∃ f ∈ st.callables, leaf ∈ f.leaves) ∨ ∃ decl ∈ st.decls, leaf = .variable decl := by
    rcases List.mem_append.1 hleaf with hleaf | hleaf
    · obtain ⟨param, hparam, rfl⟩ := List.mem_map.1 hleaf
      refine Or.inr ⟨param, List.mem_append_right _ (List.mem_flatMap.2 ⟨f, hf, ?_⟩), rfl⟩
      exact List.mem_append_left _ hparam
    · exact Or.inl ⟨f, hf, hleaf⟩
  cases st with
  | function decl =>
      rw [show sites = decl.sites from h] at hleaf
      exact hfunction List.mem_cons_self hleaf
  | «variable» decl =>
      rw [show sites = [.variable decl] from h] at hleaf
      exact Or.inr ⟨decl, List.mem_append_left _ List.mem_cons_self, List.mem_singleton.1 hleaf⟩
  | aggregate decl =>
      obtain ⟨parts, hparts, rfl⟩ := h
      obtain ⟨part, hpart, hleaf⟩ := List.mem_flatten.1 hleaf
      rcases hparts.mem hpart with hpart | hpart
      · obtain ⟨member, hmember, rfl⟩ := List.mem_map.1 hpart
        exact Or.inr ⟨member, List.mem_append_left _ hmember, List.mem_singleton.1 hleaf⟩
      · obtain ⟨method, hmethod, rfl⟩ := List.mem_map.1 hpart
        exact hfunction hmethod hleaf
  | _ => cases h

/-- Everything in a lawful program can be judged. -/
theorem Program.Lawful.judgeable {p : Program} (hp : p.Lawful) {sites : List Leaf}
    (h : p.Sites sites) : ∀ leaf ∈ sites, leaf.Judgeable := by
  obtain ⟨parts, hparts, rfl⟩ := h
  intro leaf hleaf
  obtain ⟨part, hpart, hleaf⟩ := List.mem_flatten.1 hleaf
  obtain ⟨st, hst, hsites⟩ : ∃ st ∈ p.body, st.Sites part := by
    obtain ⟨i, hi, rfl⟩ := List.mem_iff_getElem.1 hpart
    have hlength : i < p.body.length := by rwa [hparts.length_eq]
    exact ⟨_, List.getElem_mem hlength, List.forall₂_iff_get.1 hparts |>.2 i hlength hi⟩
  rcases hsites.mem hleaf with ⟨f, hf, hin⟩ | ⟨decl, hdecl, rfl⟩
  · have hlawful := hp.functions st hst f hf
    refine ⟨fun hnested => hlawful.flat (hnested ▸ hin), hlawful.conditions leaf hin,
      fun decl hdecl => hp.initializers st hst decl ?_⟩
    refine List.mem_append_right _ (List.mem_flatMap.2 ⟨f, hf, ?_⟩)
    exact List.mem_append_right _ (List.mem_filterMap.2 ⟨leaf, hin, hdecl⟩)
  · refine ⟨nofun, trivial, fun other hother => ?_⟩
    cases hother
    exact hp.initializers st hst decl hdecl

-- ================================================================= parses

/-- What is added to an empty report can be told from it. -/
theorem Report.append_inj {ds ds' : List Diagnostic}
    (h : (empty false).append ds = (empty false).append ds') : ds = ds' := by
  have hentries := congrArg Report.entries h
  rw [entries_append, entries_append] at hentries
  have hkept (ds : List Diagnostic) : ds.map (admitted (empty false).strict) = ds := List.map_id _
  rwa [hkept, hkept, List.append_cancel_left_eq] at hentries

/-- What a parse that succeeds adds to a report stands at tokens, in their
order. -/
theorem Parser.parse_trails {tokens : List Token} {report report' : Report} {p : Program}
    (h : parse tokens report = (.ok p, report')) :
    ∃ ds, report' = report.append ds ∧ p.Says ds
      ∧ (placesOf ds).Sublist (tokens.map (·.pos)) := by
  obtain ⟨result, ds, hparse, hspoken⟩ := parse_eq tokens
  rw [hparse] at h
  obtain ⟨rfl, rfl⟩ := Prod.mk.inj h
  refine ⟨ds, rfl, hspoken p rfl, ?_⟩
  -- an empty report shows that both accounts of the parse add the same
  obtain ⟨q, t, hprogram, hrun⟩ | ⟨e, t, -, hrun⟩ := program_decides tokens (.empty false)
  · obtain ⟨ds', hreport, hsub⟩ := program_trails hprogram
    have hsame : (Report.empty false).append ds = (Report.empty false).append ds' := by
      rw [← hreport]
      exact (Prod.mk.inj ((hparse _).symm.trans hrun)).2
    rw [Report.append_inj hsame]
    exact hsub
  · have hresult := (Prod.mk.inj ((hparse (.empty false)).symm.trans hrun)).1
    cases hresult

/-- What a parse that succeeds adds to its report is what the parts of the program
deserve, one after the other, and stands in the order of the tokens. -/
theorem parse_judged {tokens : List Token} {report report' : Report} {p : Program}
    (h : parse tokens report = (.ok p, report')) :
    ∃ sites parts, p.Sites sites ∧ List.Forall₂ Leaf.Judged sites parts
      ∧ report' = report.append parts.flatten
      ∧ (parts.flatten.map (·.pos)).Sublist (tokens.map (·.pos)) := by
  have hlawful := (parse_wellFormed h).lawful (parse_folds h)
  obtain ⟨ds, hreport, hspoken, hsub⟩ := Parser.parse_trails h
  obtain ⟨sites, hsites, rfl⟩ := hspoken.sites hlawful.declarations
  refine ⟨sites, sites.map Leaf.remarks, hsites, ?_, hreport, hsub⟩
  refine List.forall₂_map_right_iff.2 (List.forall₂_same.2 fun leaf hleaf => ?_)
  exact (hlawful.judgeable hsites leaf hleaf).judged

/-- A method in front of a member, a default, else-if arms and nested loops, with
conditions and initializers of all kinds. -/
def remarked : String :=
  "class Pot { int lid(char c = 1000) { if (1) { while (0) { } } else if (2 < 1) { }
     else if (c) { } return 1; } char size = 70000; int width = 3; }
   short s = 1.5; string t = \"x\"; int main() { int n = s; while (n) { char d = n; } return 0; }"

/-- Its remarks are those, in order. -/
theorem remarked_judged :
    ∃ p report', parse (tokenize remarked).1 (.empty false) = (.ok p, report')
      ∧ (∃ sites parts, p.Sites sites ∧ List.Forall₂ Leaf.Judged sites parts
        ∧ report' = (Report.empty false).append parts.flatten
        ∧ (parts.flatten.map (·.pos)).Sublist ((tokenize remarked).1.map (·.pos)))
      ∧ report'.entries.map (fun d => (d.message, d.pos.line, d.pos.column)) = [
        ("narrowing conversion from 'int' to 'char'", 1, 30),
        ("condition is always true", 1, 42), ("condition is always false", 1, 54),
        ("condition is always false", 1, 74),
        ("narrowing conversion from 'int' to 'char'", 2, 46),
        ("narrowing conversion from 'double' to 'short'", 3, 14)] := by
  have h : (readProgram remarked).isSome = true
      ∧ (parse (tokenize remarked).1 (.empty false)).2.entries.map
        (fun d => (d.message, d.pos.line, d.pos.column)) = [
        ("narrowing conversion from 'int' to 'char'", 1, 30),
        ("condition is always true", 1, 42), ("condition is always false", 1, 54),
        ("condition is always false", 1, 74),
        ("narrowing conversion from 'int' to 'char'", 2, 46),
        ("narrowing conversion from 'double' to 'short'", 3, 14)] := by
    set_option maxRecDepth 2000 in
    rw [readProgram, tokenize_written (rfl : remarked = String.ofList _)]
    decide +kernel
  obtain ⟨p, hp⟩ := Option.isSome_iff_exists.1 h.1
  obtain ⟨report', hparse⟩ := readProgram_some hp
  refine ⟨p, report', hparse, parse_judged hparse, ?_⟩
  have hentries := h.2
  rwa [hparse] at hentries

end MiniC
