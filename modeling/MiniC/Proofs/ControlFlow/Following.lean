/-
Generated lines follow the structured program (`function_tells`).

# Labels behind a chain

The labels that decide whether that works are those behind an if chain: such a label is
defined by the chain itself, or by the chain it is the last arm of, unless every way
through the chain leaves the function, and then it is never wanted (`Linked`). A jump
over the second way of a fork is missing only where the first way ends in an epilogue,
and such a way leaves the function (`leaves_of_endsInEpilogue`), so nothing falls into
the second way.

# Following

The walk over lines and the course through the outline are kept together by `Follows`,
which says of the lines ahead of the walk that they do what the course has left to do.
Silent lines may come first; then an outline stands ahead, with what is left to do
behind it, by falling through or by the label that its exit leads to. A walk at the
bottom of a cycle is a case of its own, since it has the body behind it and ahead of it.

# Keeping up

One step of the course is made up for by some steps of the walk, and the two are
together again (`KeepsUp`). Where the course asks a question, so does the last of these
steps, and none before it: then the instructions told so far are the same when the
question is met (`Paces`). Each kind of piece that may stand ahead is looked at once, in
`paces_ahead`.
-/
import MiniC.Pipeline
import MiniC.Proofs.ControlFlow.Resolution
import MiniC.Proofs.ControlFlow.Walk

namespace MiniC.Codegen

open Asm Steps Line

-- =============================================================== links

namespace Flow

mutual

/-- Whether the end label of every fork in a piece is where it is wanted,
given the label that stands behind the piece, if one does. -/
def linked (exit : Option Nat) : Flow → Prop
  | .insn _ => True
  | .leave => True
  | .fork other done closed first second =>
    (closed = true ∨ leaves (.fork other done closed first second) = true ∨ exit = some done)
      ∧ (other = none → second = [])
      ∧ Linked none first ∧ Linked (some done) second
  | .cycle _ _ _ body => Linked none body

/-- The same for an outline: only its last piece stands before the label
behind it. -/
def Linked (exit : Option Nat) : Outline → Prop
  | [] => True
  | [f] => linked exit f
  | f :: g :: rest => linked none f ∧ Linked exit (g :: rest)

end

/-- A piece without an exit may have any. -/
theorem linked_weaken {f : Flow} (h : linked none f) (exit : Option Nat) : linked exit f := by
  cases f with
  | insn i => exact h
  | leave => exact h
  | fork other done closed first second =>
      unfold linked at h ⊢
      obtain ⟨hend, hrest⟩ := h
      refine ⟨?_, hrest⟩
      rcases hend with hclosed | hleaves | hexit
      · exact Or.inl hclosed
      · exact Or.inr (Or.inl hleaves)
      · cases hexit
  | cycle test enter check body => exact h

theorem Linked.nil (exit : Option Nat) : Linked exit [] := by
  unfold Linked
  trivial

theorem Linked.cons {exit : Option Nat} {f : Flow} {rest : Outline} (hf : linked none f)
    (hrest : Linked exit rest) : Linked exit (f :: rest) := by
  cases rest with
  | nil =>
      unfold Linked
      exact linked_weaken hf exit
  | cons g rest =>
      unfold Linked
      exact ⟨hf, hrest⟩

/-- Outlines are linked one behind the other, and the last has the exit. -/
theorem Linked.append {exit : Option Nat} {a b : Outline} (ha : Linked none a)
    (hb : Linked exit b) : Linked exit (a ++ b) := by
  induction a with
  | nil => exact hb
  | cons f rest ih =>
      cases rest with
      | nil =>
          unfold Linked at ha
          exact Linked.cons ha hb
      | cons g rest =>
          unfold Linked at ha
          exact Linked.cons ha.1 (ih ha.2)

/-- An outline without an exit may have any. -/
theorem Linked.weaken {o : Outline} (h : Linked none o) (exit : Option Nat) : Linked exit o := by
  have happ := Linked.append h (Linked.nil exit)
  rw [List.append_nil] at happ
  exact happ

theorem Linked.ofCode (exit : Option Nat) (code : Code) : Linked exit (ofCode code) := by
  induction code with
  | nil => exact Linked.nil exit
  | cons i code ih =>
      refine Linked.cons ?_ ih
      unfold linked
      trivial

/-- The head of a linked outline: it is linked itself, to the exit only if
nothing comes behind it. -/
theorem Linked.head {exit : Option Nat} {f : Flow} {rest : Outline}
    (h : Linked exit (f :: rest)) :
    (linked none f ∨ (rest = [] ∧ linked exit f)) ∧ Linked exit rest := by
  cases rest with
  | nil =>
      unfold Linked at h
      exact ⟨Or.inr ⟨rfl, h⟩, Linked.nil exit⟩
  | cons g rest =>
      unfold Linked at h
      exact ⟨Or.inl h.1, h.2⟩

end Flow

open Flow

variable {env : Env}

mutual

theorem outline_linked : ∀ (st : Stmt) {s t : State} {o : Outline},
    outline env st s = .ok (o, t) → Linked none o
  | .block body, s, t, o, h => by
      unfold outline at h
      obtain ⟨u, hbody, -⟩ := inside_ok.1 h
      exact outlines_linked body hbody
  | .branch arm, s, t, o, h => by
      unfold outline at h
      exact outlineArm_linked none arm h
  | .loop e body pos, s, t, o, h => by
      rcases outline_loop_ok h with ⟨-, -, rfl, -⟩
        | ⟨enter, check, test, inner, _, _, _, -, -, -, hinner, -, rfl⟩
      · exact Linked.nil none
      · obtain ⟨x, hbody, -⟩ := inside_ok.1 hinner
        refine Linked.cons ?_ (Linked.nil none)
        unfold linked
        exact outlines_linked body hbody
  | .ret value pos, s, t, o, h => by
      unfold outline at h
      obtain ⟨-, code, rfl⟩ := outlineRet_ok h
      refine Linked.append (Linked.ofCode none code) (Linked.cons ?_ (Linked.nil none))
      unfold linked
      trivial
  | .variable decl, s, t, o, h => by
      unfold outline at h
      obtain ⟨-, code, rfl, -⟩ := outlineVariable_ok h
      exact Linked.ofCode none code
  | .expr e, s, t, o, h => by
      unfold outline at h
      obtain ⟨code, -, rfl⟩ := map_ok.1 h
      exact Linked.ofCode none code
  | .function _, s, t, o, h => (outline_function h).elim
  | .aggregate _, s, t, o, h => (outline_aggregate h).elim

/-- The end labels of generated code are where they are wanted. -/
theorem outlines_linked : ∀ (body : List Stmt) {s t : State} {o : Outline},
    outlines env body s = .ok (o, t) → Linked none o
  | [], s, t, o, h => by
      unfold outlines at h
      obtain ⟨rfl, -⟩ := pure_ok.1 h
      exact Linked.nil none
  | st :: rest, s, t, o, h => by
      obtain ⟨first, others, u, hfirst, hothers, rfl⟩ := outlines_cons_ok h
      exact Linked.append (outline_linked st hfirst) (outlines_linked rest hothers)

/-- An arm leads to the end that it shares. -/
theorem outlineArm_linked : ∀ (shared : Option Nat) (arm : Arm) {s t : State} {o : Outline},
    outlineArm env shared arm s = .ok (o, t) → Linked shared o
  | shared, ⟨e, consequent, alternate, pos⟩, s, t, o, h => by
      have hother := fun (sh : Option Nat) {s t : State} {o : Outline} =>
        outlineOther_linked sh alternate (s := s) (t := t) (o := o)
      have hleaves := outlineArm_leaves shared _ h
      cases hc : e.isConstant with
      | true =>
          rcases outlineArm_constant_ok hc h with ⟨-, hother'⟩ | ⟨-, hfirst⟩
          · exact hother shared hother'
          · obtain ⟨u, hbody, -⟩ := inside_ok.1 hfirst
            exact (outlines_linked consequent hbody).weaken shared
      | false =>
          obtain ⟨done, code, first, closed, u, hclosed, hend, hkind⟩ := outlineArm_open_ok hc h
          have hlinked : ∀ (f : Flow), o = Flow.ofCode code ++ [f] → linked shared f →
              Linked shared o := by
            intro f ho hf
            rw [ho]
            refine Linked.append (Linked.ofCode none code) ?_
            unfold Linked
            exact hf
          -- who owns the end label defines it, unless the whole chain leaves
          have hdone : ∀ (f : Flow), o = Flow.ofCode code ++ [f] →
              closed = true ∨ leaves f = true ∨ shared = some done := by
            intro f ho
            rw [ho, anyLeaves_append, anyLeaves_ofCode, anyLeaves_cons, anyLeaves_nil,
              Bool.false_or, Bool.or_false] at hleaves
            rcases hend with ⟨hsh, -⟩ | ⟨rfl, -⟩
            · exact Or.inr (Or.inr hsh)
            · rw [hleaves, hclosed]
              cases armReturns ⟨e, consequent, alternate, pos⟩ with
              | false => exact Or.inl rfl
              | true => exact Or.inr (Or.inl rfl)
          rcases hkind with ⟨-, v, -, hfirst, ho⟩
            | ⟨-, other, second, v, w, x, -, -, hfirst, hsecond, ho⟩
          · obtain ⟨y, hbody, -⟩ := inside_ok.1 hfirst
            refine hlinked _ ho ?_
            unfold linked
            exact ⟨hdone _ ho, fun _ => rfl, outlines_linked consequent hbody, Linked.nil _⟩
          · obtain ⟨y, hbody, -⟩ := inside_ok.1 hfirst
            refine hlinked _ ho ?_
            unfold linked
            exact ⟨hdone _ ho, nofun, outlines_linked consequent hbody, hother _ hsecond⟩

theorem outlineOther_linked : ∀ (shared : Option Nat) (alternate : Alternate) {s t : State}
    {o : Outline}, outlineOther env shared alternate s = .ok (o, t) → Linked shared o
  | shared, .none, s, t, o, h => by
      unfold outlineOther at h
      obtain ⟨rfl, -⟩ := pure_ok.1 h
      exact Linked.nil shared
  | shared, .block body, s, t, o, h => by
      unfold outlineOther at h
      obtain ⟨u, hbody, -⟩ := inside_ok.1 h
      exact (outlines_linked body hbody).weaken shared
  | shared, .elseIf arm, s, t, o, h => by
      unfold outlineOther at h
      exact outlineArm_linked shared arm h

end

-- ==================================================== ends and leaving

theorem leaves_of_lastTail {f : Flow} (hf : linked none f)
    (h : lastTail (flat f) = some true) : leaves f = true := by
  cases f with
  | insn i =>
      unfold flat at h
      cases h
  | leave =>
      unfold leaves
      rfl
  | fork other done closed first second =>
      unfold linked at hf
      rcases hf.1 with rfl | hleaves | hexit
      · -- the last line is the end label
        exfalso
        cases other with
        | none =>
            unfold flat ending at h
            rw [if_pos rfl, lastTail_concat] at h
            cases h
        | some other =>
            unfold flat ending at h
            rw [if_pos rfl, lastTail_concat] at h
            cases h
      · exact hleaves
      · cases hexit
  | cycle test enter check body =>
      exfalso
      unfold flat at h
      rw [List.append_cons, lastTail_append] at h
      cases test with
      | none => cases h
      | some code =>
          unfold bottom at h
          rw [lastTail_concat] at h
          cases h

/-- Lines that end in an epilogue, with no label wanted behind them, leave
the function on every way. -/
theorem leaves_of_endsInEpilogue {o : Outline} (ho : Linked none o)
    (h : endsInEpilogue (flatten o) = true) : anyLeaves o = true := by
  rw [endsInEpilogue_eq] at h
  induction o with
  | nil => cases h
  | cons f rest ih =>
      obtain ⟨hf, hrest⟩ := ho.head
      have hf : linked none f := hf.elim id fun hf => hf.2
      rw [flatten_cons, lastTail_append] at h
      rw [anyLeaves_cons]
      cases htail : lastTail (flatten rest) with
      | some ends =>
          rw [htail] at h
          have hends : ends = true := h
          rw [ih hrest (by rw [htail]; exact hends), Bool.or_true]
      | none =>
          rw [htail, Option.none_or] at h
          have hlast : lastTail (flat f) = some true := by
            cases hl : lastTail (flat f) with
            | none =>
                rw [hl] at h
                cases h
            | some ends =>
                rw [hl] at h
                exact congrArg some h
          rw [leaves_of_lastTail hf hlast, Bool.true_or]

-- ===================================================== following a course

theorem suffix_of_cons {line : Line Instr} {rest ls : Lines} (h : line :: rest <:+ ls) :
    rest <:+ ls :=
  (List.suffix_cons line rest).trans h

theorem suffix_of_append {a b ls : Lines} (h : a ++ b <:+ ls) : b <:+ ls :=
  (List.suffix_append a b).trans h

/-- With distinct labels, a jump to a label arrives behind the place where
the label stands. -/
theorem behind_of_suffix {ls a b : Lines} {n : Nat} (nodup : (labels ls).Nodup)
    (h : a ++ .label n :: b <:+ ls) : Walk.behind n ls = some b := by
  obtain ⟨pre, rfl⟩ := h
  rw [← List.append_assoc] at nodup ⊢
  generalize pre ++ a = front at nodup
  induction front with
  | nil =>
      rw [List.nil_append, Walk.behind, if_pos rfl]
  | cons line front ih =>
      have hrest : (labels (front ++ .label n :: b)).Nodup := by
        cases line with
        | label m => exact (List.nodup_cons.1 nodup).2
        | jump kind m => exact nodup
        | insn i => exact nodup
        | epilogue => exact nodup
      have hne : line ≠ .label n := by
        rintro rfl
        refine (List.nodup_cons.1 nodup).1 ?_
        show n ∈ labels (front ++ .label n :: b)
        rw [labels_append]
        exact List.mem_append_right _ List.mem_cons_self
      rw [List.cons_append, Walk.behind, if_neg hne]
      exact ih hrest

/-- Whether lines ahead do what is left to do. Silent lines may come first;
an outline may stand ahead whose last way out leads to the rest, by falling
through or by the label behind it, unless the outline leaves on every way;
and a walk may stand at the bottom of a cycle that it has been through. -/
inductive Follows (ls : Lines) : Lines → Outline → Prop
  | label {n : Nat} {rest : Lines} {k : Outline} :
      Follows ls rest k → Follows ls (.label n :: rest) k
  | jump {n : Nat} {rest dest : Lines} {k : Outline} :
      Walk.behind n ls = some dest → Follows ls dest k → Follows ls (.jump .jmp n :: rest) k
  | leaving {exit : Option Nat} {body k : Outline} {rest : Lines} :
      flatten body ++ rest <:+ ls → Linked exit body → anyLeaves body = true →
      Follows ls (flatten body ++ rest) (body ++ k)
  | running {exit : Option Nat} {body k : Outline} {rest dest : Lines} :
      flatten body ++ rest <:+ ls → Linked exit body → Follows ls rest k →
      (∀ d, exit = some d → Walk.behind d ls = some dest) → Follows ls dest k →
      Follows ls (flatten body ++ rest) (body ++ k)
  | again {test : Option Code} {enter check : Nat} {body k : Outline} {rest : Lines} :
      flat (.cycle test enter check body) ++ rest <:+ ls → Linked none body →
      Follows ls rest k →
      Follows ls (.label check :: bottom enter test ++ rest) (.cycle test enter check body :: k)

/-- What is known where a piece stands ahead: what comes behind it does the
rest, and so does what its exit leads to, unless it leaves on every way. -/
structure Ahead (ls : Lines) (f : Flow) (code : Lines) (k : Outline) : Prop where
  placed : flat f ++ code <:+ ls
  behind : leaves f = true ∨ Follows ls code k
  linked : ∃ exit, linked exit f ∧ ∀ d, exit = some d →
    leaves f = true ∨ ∃ dest, Walk.behind d ls = some dest ∧ Follows ls dest k

/-- Where an outline leaves, nothing behind it is reached. -/
theorem Ahead.of_leaving {ls : Lines} {exit : Option Nat} {f : Flow} {body k : Outline}
    {rest : Lines} (hplaced : flatten (f :: body) ++ rest <:+ ls)
    (hlinked : Linked exit (f :: body)) (hleaves : anyLeaves (f :: body) = true) :
    Ahead ls f (flatten body ++ rest) (body ++ k) := by
  rw [flatten_cons, List.append_assoc] at hplaced
  obtain ⟨hf, hbody⟩ := hlinked.head
  cases hfl : leaves f with
  | true =>
      refine ⟨hplaced, Or.inl hfl, exit, ?_, fun _ _ => Or.inl hfl⟩
      exact hf.elim (fun hf => linked_weaken hf exit) fun hf => hf.2
  | false =>
      rw [anyLeaves_cons, hfl, Bool.false_or] at hleaves
      have hf : Flow.linked none f := by
        rcases hf with hf | ⟨rfl, -⟩
        · exact hf
        · rw [anyLeaves_nil] at hleaves
          cases hleaves
      refine ⟨hplaced, Or.inr ?_, none, hf, fun _ h => by cases h⟩
      exact .leaving (suffix_of_append hplaced) hbody hleaves

/-- Where an outline runs through, what comes behind it does the rest. -/
theorem Ahead.of_running {ls : Lines} {exit : Option Nat} {f : Flow} {body k : Outline}
    {rest dest : Lines} (hplaced : flatten (f :: body) ++ rest <:+ ls)
    (hlinked : Linked exit (f :: body)) (hrest : Follows ls rest k)
    (hexit : ∀ d, exit = some d → Walk.behind d ls = some dest) (hdest : Follows ls dest k) :
    Ahead ls f (flatten body ++ rest) (body ++ k) := by
  rw [flatten_cons, List.append_assoc] at hplaced
  obtain ⟨hf, hbody⟩ := hlinked.head
  refine ⟨hplaced, Or.inr ?_, ?_⟩
  · exact .running (suffix_of_append hplaced) hbody hrest hexit hdest
  · rcases hf with hf | ⟨rfl, hf⟩
    · exact ⟨none, hf, fun _ h => by cases h⟩
    · exact ⟨exit, hf, fun d hd => Or.inr ⟨dest, hexit d hd, hdest⟩⟩

/-- A walk and a course that have met the same and where the walk follows
the course. -/
inductive Together (ls : Lines) : Walk → Course → Prop
  | ended {asked : Nat} {trace : Code} : Together ls ⟨.ended, asked, trace⟩ ⟨none, asked, trace⟩
  | before {code : Lines} {k : Outline} {asked : Nat} {trace : Code} :
      Follows ls code k → Together ls ⟨.before code, asked, trace⟩ ⟨some k, asked, trace⟩

/-- What stands together has told the same. -/
theorem Together.abreast {ls : Lines} {w : Walk} {c : Course} (h : Together ls w c) :
    Abreast w c := by
  cases h with
  | ended => exact ⟨rfl, rfl, ⟨fun _ => rfl, fun _ => rfl⟩, nofun⟩
  | before _ => exact ⟨rfl, rfl, ⟨nofun, nofun⟩, nofun⟩

section Step

variable {ls : Lines} {answers : Nat → Bool} {asked : Nat} {trace : Code}

/-- Whether one step of the course from what is left to do is made up for by
the walk from the lines ahead. -/
def KeepsUp (ls : Lines) (answers : Nat → Bool) (asked : Nat) (trace : Code) (code : Lines)
    (k : Outline) : Prop :=
  ∃ m, Together ls (Walk.run ls answers (m + 1) ⟨.before code, asked, trace⟩)
    (Course.step answers ⟨some k, asked, trace⟩)

/-- Whether it is made up for by steps that meet no test and one step more,
so that a test is met with the instructions of the course in front of it. -/
def Paces (ls : Lines) (answers : Nat → Bool) (asked : Nat) (trace : Code) (code : Lines)
    (k : Outline) : Prop :=
  ∃ m code' trace',
    Walk.run ls answers m ⟨.before code, asked, trace⟩ = ⟨.before code', asked, trace'⟩
      ∧ Together ls (Walk.step ls answers ⟨.before code', asked, trace'⟩)
        (Course.step answers ⟨some k, asked, trace⟩)

/-- Steps that meet no test, and one more, are steps. -/
theorem Paces.keepsUp {code : Lines} {k : Outline} (h : Paces ls answers asked trace code k) :
    KeepsUp ls answers asked trace code k := by
  obtain ⟨m, code', trace', hrun, hstep⟩ := h
  refine ⟨m, ?_⟩
  rw [Walk.run_add, hrun]
  exact hstep

/-- A step that leads to where the walk keeps up. -/
theorem Paces.of_step {code code' : Lines} {k : Outline}
    (hstep : Walk.step ls answers ⟨.before code, asked, trace⟩ = ⟨.before code', asked, trace⟩)
    (h : Paces ls answers asked trace code' k) : Paces ls answers asked trace code k := by
  obtain ⟨m, last, trace', hrun, hm⟩ := h
  refine ⟨m + 1, last, trace', ?_, hm⟩
  rw [Walk.run, hstep]
  exact hrun

/-- A jump that is taken arrives behind its label. -/
theorem step_jump {kind : Jump} {n : Nat} {rest dest : Lines}
    (h : Walk.behind n ls = some dest) :
    Walk.step ls answers ⟨.before (.jump kind n :: rest), asked, trace⟩
      = ⟨.before (if Walk.taken kind (answers asked) then dest else rest),
          asked + Walk.uses kind, trace⟩ := by
  unfold Walk.step
  simp only [h]

/-- Instructions are told in order. -/
theorem run_lines (code : Code) (rest : Lines) :
    Walk.run ls answers code.length ⟨.before (lines code ++ rest), asked, trace⟩
      = ⟨.before rest, asked, trace ++ code⟩ := by
  induction code generalizing trace with
  | nil =>
      rw [List.append_nil]
      rfl
  | cons i code ih =>
      have hstep : Walk.step ls answers ⟨.before (lines (i :: code) ++ rest), asked, trace⟩
          = ⟨.before (lines code ++ rest), asked, trace ++ [i]⟩ := rfl
      rw [List.length_cons, Walk.run, hstep, ih, List.append_assoc]
      rfl

-- ================================================================ forks

/-- Behind a fork that does not leave on every way, its end label is found
and leads to the rest. -/
theorem Ahead.done {other : Option Nat} {done : Nat} {closed : Bool} {first second : Outline}
    {code : Lines} {k : Outline} (nodup : (labels ls).Nodup)
    (h : Ahead ls (.fork other done closed first second) code k)
    (hstays : leaves (.fork other done closed first second) = false) :
    Follows ls (ending done closed ++ code) k
      ∧ ∃ dest, Walk.behind done ls = some dest ∧ Follows ls dest k := by
  have hcode : Follows ls code k := by
    rcases h.behind with hleaves | hcode
    · rw [hstays] at hleaves
      cases hleaves
    · exact hcode
  cases closed with
  | true =>
      refine ⟨.label hcode, code, ?_, hcode⟩
      have hplaced := h.placed
      cases other with
      | none =>
          unfold flat ending at hplaced
          rw [if_pos rfl, List.append_assoc] at hplaced
          exact behind_of_suffix nodup hplaced
      | some other =>
          unfold flat ending at hplaced
          rw [if_pos rfl, List.append_assoc] at hplaced
          exact behind_of_suffix nodup hplaced
  | false =>
      obtain ⟨exit, hlinked, hexit⟩ := h.linked
      unfold Flow.linked at hlinked
      have hdone : exit = some done := by
        rcases hlinked.1 with hclosed | hleaves | hdone
        · cases hclosed
        · rw [hstays] at hleaves
          cases hleaves
        · exact hdone
      refine ⟨hcode, ?_⟩
      rcases hexit done hdone with hleaves | hdest
      · rw [hstays] at hleaves
        cases hleaves
      · exact hdest

/-- The first way of a fork, with the lines behind it that lead to the end
of the fork. -/
theorem follows_first {first k : Outline} {rest : Lines}
    (hplaced : flatten first ++ rest <:+ ls) (hlinked : Linked none first)
    (hrest : anyLeaves first = false → Follows ls rest k) :
    Follows ls (flatten first ++ rest) (first ++ k) := by
  cases hleaves : anyLeaves first with
  | true => exact .leaving hplaced hlinked hleaves
  | false =>
      refine .running hplaced hlinked (hrest hleaves) ?_ (hrest hleaves)
      intro d hd
      cases hd

/-- At a fork the walk and the course go the same way. -/
theorem paces_fork {other : Option Nat} {done : Nat} {closed : Bool}
    {first second : Outline} {code : Lines} {k : Outline} (nodup : (labels ls).Nodup)
    (h : Ahead ls (.fork other done closed first second) code k) :
    Paces ls answers asked trace (flat (.fork other done closed first second) ++ code)
      (.fork other done closed first second :: k) := by
  have hplaced := h.placed
  obtain ⟨exit, hlinked, -⟩ := h.linked
  unfold Flow.linked at hlinked
  obtain ⟨-, hsecond, hfirst, hother⟩ := hlinked
  have hleaves : leaves (.fork other done closed first second)
      = (anyLeaves first && anyLeaves second) := by
    rw [leaves]
  refine ⟨0, _, _, rfl, ?_⟩
  show Together ls (Walk.step ls answers _)
    ⟨some ((if answers asked then first else second) ++ k), asked + 1, trace⟩
  cases other with
  | none =>
      -- without a second way the test leads on or to the end
      have hnil := hsecond rfl
      subst hnil
      have hstays : leaves (.fork none done closed first []) = false := by
        rw [hleaves, anyLeaves_nil, Bool.and_false]
      obtain ⟨hend, dest, hdest, hk⟩ := h.done nodup hstays
      unfold flat at hplaced ⊢
      rw [List.append_assoc, List.cons_append] at hplaced ⊢
      rw [step_jump hdest]
      refine .before ?_
      cases answers asked with
      | true =>
          exact follows_first (suffix_of_cons hplaced) hfirst fun _ => hend
      | false => exact hk
  | some other =>
      unfold flat at hplaced ⊢
      simp only [List.append_assoc, List.cons_append] at hplaced ⊢
      have htarget : Walk.behind other ls =
          some (flatten second ++ (ending done closed ++ code)) := by
        refine behind_of_suffix (a := .jump .je other :: flatten first
          ++ skip done (flatten first)) nodup ?_
        rw [List.append_assoc, List.cons_append]
        exact hplaced
      have hbehind : flatten second ++ (ending done closed ++ code) <:+ ls :=
        suffix_of_cons (suffix_of_append (suffix_of_append (suffix_of_cons hplaced)))
      rw [step_jump htarget]
      refine .before ?_
      cases answers asked with
      | true =>
          refine follows_first (suffix_of_cons hplaced) hfirst ?_
          -- a first way that goes on does not end in an epilogue, so the jump is there
          intro hgoes
          have hstays : leaves (.fork (some other) done closed first second) = false := by
            rw [hleaves, hgoes, Bool.false_and]
          obtain ⟨-, dest, hdest, hk⟩ := h.done nodup hstays
          have hskip : skip done (flatten first) = [.jump .jmp done] := by
            unfold skip
            refine if_neg fun hends => ?_
            rw [leaves_of_endsInEpilogue hfirst hends] at hgoes
            cases hgoes
          rw [hskip]
          exact .jump hdest hk
      | false =>
          cases hstays : leaves (.fork (some other) done closed first second) with
          | true =>
              rw [hleaves, Bool.and_eq_true] at hstays
              exact .leaving hbehind hother hstays.2
          | false =>
              obtain ⟨hend, dest, hdest, hk⟩ := h.done nodup hstays
              refine .running hbehind hother hend ?_ hk
              rintro d ⟨⟩
              exact hdest

-- =============================================================== cycles

/-- At the bottom of a cycle the test, if there is one, decides between the
body and what comes behind. -/
theorem paces_bottom {test : Option Code} {enter check : Nat} {body : Outline} {code : Lines}
    {k : Outline} (nodup : (labels ls).Nodup)
    (hplaced : flat (.cycle test enter check body) ++ code <:+ ls) (hbody : Linked none body)
    (hcode : Follows ls code k) :
    Paces ls answers asked trace (bottom enter test ++ code)
      (.cycle test enter check body :: k) := by
  have hagain : Follows ls (.label check :: bottom enter test ++ code)
      (.cycle test enter check body :: k) := .again hplaced hbody hcode
  unfold flat at hplaced
  simp only [List.cons_append, List.append_assoc] at hplaced
  have henter : Walk.behind enter ls
      = some (flatten body ++ (.label check :: bottom enter test ++ code)) :=
    behind_of_suffix (a := [.jump .jmp check]) nodup hplaced
  have hinto : Follows ls (flatten body ++ (.label check :: bottom enter test ++ code))
      (body ++ .cycle test enter check body :: k) :=
    follows_first (suffix_of_cons (suffix_of_cons hplaced)) hbody fun _ => hagain
  cases test with
  | none =>
      refine ⟨0, _, _, rfl, ?_⟩
      show Together ls (Walk.step ls answers ⟨.before (.jump .jmp enter :: code), asked, trace⟩) _
      rw [step_jump henter]
      exact .before hinto
  | some test =>
      refine ⟨test.length, .jump .jne enter :: code, trace ++ test, ?_, ?_⟩
      · have hbottom : bottom enter (some test) ++ code
            = lines test ++ (.jump .jne enter :: code) := by
          rw [bottom, List.append_assoc]
          rfl
        rw [hbottom, run_lines]
      · have hcourse : Course.step answers ⟨some (.cycle (some test) enter check body :: k),
            asked, trace⟩
            = ⟨some (if answers asked then body ++ .cycle (some test) enter check body :: k
              else k), asked + 1, trace ++ test⟩ := rfl
        rw [hcourse, step_jump henter]
        refine .before ?_
        cases answers asked with
        | true => exact hinto
        | false => exact hcode

/-- At a cycle the walk and the course ask the same question. -/
theorem paces_cycle {test : Option Code} {enter check : Nat} {body : Outline} {code : Lines}
    {k : Outline} (nodup : (labels ls).Nodup)
    (h : Ahead ls (.cycle test enter check body) code k) :
    Paces ls answers asked trace (flat (.cycle test enter check body) ++ code)
      (.cycle test enter check body :: k) := by
  have hcode : Follows ls code k := by
    rcases h.behind with hleaves | hcode
    · rw [leaves] at hleaves
      cases hleaves
    · exact hcode
  have hbody : Linked none body := by
    obtain ⟨exit, hlinked, -⟩ := h.linked
    unfold Flow.linked at hlinked
    exact hlinked
  have hcheck : Walk.behind check ls = some (bottom enter test ++ code) := by
    have hplaced := h.placed
    unfold flat at hplaced
    rw [List.append_assoc] at hplaced
    exact behind_of_suffix nodup hplaced
  refine Paces.of_step ?_ (paces_bottom nodup h.placed hbody hcode)
  unfold flat
  exact step_jump hcheck

-- ============================================================ every step

/-- Where a piece stands ahead, the walk keeps up with the course. -/
theorem paces_ahead {f : Flow} {code : Lines} {k : Outline} (nodup : (labels ls).Nodup)
    (h : Ahead ls f code k) : Paces ls answers asked trace (flat f ++ code) (f :: k) := by
  cases f with
  | insn i =>
      refine ⟨0, _, _, rfl, .before ?_⟩
      rcases h.behind with hleaves | hcode
      · rw [leaves] at hleaves
        cases hleaves
      · exact hcode
  | leave => exact ⟨0, _, _, rfl, .ended⟩
  | fork other done closed first second => exact paces_fork nodup h
  | cycle test enter check body => exact paces_cycle nodup h

/-- Where the lines ahead follow what is left to do, the walk keeps up with
the course. -/
theorem paces_of_follows {code : Lines} {k : Outline} (nodup : (labels ls).Nodup)
    (h : Follows ls code k) : Paces ls answers asked trace code k := by
  induction h with
  | label _ ih => exact Paces.of_step rfl ih
  | jump hdest _ ih => exact Paces.of_step (step_jump hdest) ih
  | @leaving exit body k rest hplaced hlinked hleaves =>
      cases body with
      | nil =>
          rw [anyLeaves_nil] at hleaves
          cases hleaves
      | cons f body =>
          have h : Paces ls answers asked trace _ _ := paces_ahead nodup
            (Ahead.of_leaving (k := k) hplaced hlinked hleaves)
          rw [← List.append_assoc, ← flatten_cons] at h
          exact h
  | @running exit body k rest dest hplaced hlinked hrest hexit hdest ih _ =>
      cases body with
      | nil => exact ih
      | cons f body =>
          have h : Paces ls answers asked trace _ _ := paces_ahead nodup
            (Ahead.of_running hplaced hlinked hrest hexit hdest)
          rw [← List.append_assoc, ← flatten_cons] at h
          exact h
  | again hplaced hbody hrest _ =>
      exact Paces.of_step rfl (paces_bottom nodup hplaced hbody hrest)

end Step

/-- Lines with distinct labels that follow an outline tell its story. -/
theorem tells_of_follows {ls : Lines} {o : Outline} (nodup : (labels ls).Nodup)
    (h : Follows ls ls o) : Tells ls o := by
  refine tells_of_steps (R := Together ls) (.before h) (fun _ _ => Together.abreast) ?_
  intro answers w c hwc
  cases hwc with
  | ended =>
      refine ⟨0, ?_⟩
      rw [Walk.run_halted (Or.inl rfl)]
      exact .ended
  | before hfollows => exact (paces_of_follows nodup hfollows).keepsUp

-- ============================================================ functions

/-- The structured program of a function: the spills of its parameters, its
body, and a return of zero for a body that falls off its end. -/
def structured (spills : Code) (body : Outline) : Outline :=
  Flow.ofCode spills ++ body ++ [.insn (.alu .xor (reg .dword .rax) (reg .dword .rax)), .leave]

/-- The lines of a function do what its outline has to do. -/
theorem bodyLines_follows {decl : FunctionDecl} {spills : Code} {o : Outline} {s t : State}
    (ho : outlines env decl.body s = .ok (o, t)) :
    Follows (lines spills ++ flatten o ++ fallOff decl.body)
      (lines spills ++ flatten o ++ fallOff decl.body) (structured spills o) := by
  have hlinked : Linked none (Flow.ofCode spills ++ o) :=
    Linked.append (Linked.ofCode none spills) (outlines_linked decl.body ho)
  have hleaves : anyLeaves (Flow.ofCode spills ++ o) = anyReturns decl.body := by
    rw [anyLeaves_append, anyLeaves_ofCode, outlines_leaves decl.body ho, Bool.false_or]
  have hlines : lines spills ++ flatten o = flatten (Flow.ofCode spills ++ o) := by
    rw [flatten_append, flatten_ofCode]
  rw [hlines]
  cases hreturns : anyReturns decl.body with
  | true =>
      rw [hreturns] at hleaves
      exact .leaving (List.suffix_refl _) hlinked hleaves
  | false =>
      -- the implicit return is itself an outline that leaves
      have hfall : fallOff decl.body = flatten
          [.insn (.alu .xor (reg .dword .rax) (reg .dword .rax)), .leave] ++ [] := by
        unfold fallOff
        rw [hreturns]
        rfl
      have hend : Linked none
          [.insn (.alu .xor (reg .dword .rax) (reg .dword .rax)), .leave] := by
        refine Linked.cons ?_ (Linked.cons ?_ (Linked.nil none)) <;> unfold linked <;> trivial
      have hrest : Follows (flatten (Flow.ofCode spills ++ o) ++ fallOff decl.body)
          (fallOff decl.body)
          ([.insn (.alu .xor (reg .dword .rax) (reg .dword .rax)), .leave] ++ []) := by
        have hsuffix := List.suffix_append (flatten (Flow.ofCode spills ++ o)) (fallOff decl.body)
        rw [hfall] at hsuffix ⊢
        exact .leaving hsuffix hend rfl
      refine .running (List.suffix_refl _) hlinked hrest ?_ hrest
      intro d hd
      cases hd

/-- The lines of a function follow its structured program: whatever the
tests are answered, walking over them executes the spills, statements and
conditions that the structured program executes, in its order, ends at an
epilogue where the structured program ends, and never gets lost. -/
theorem function_tells {program : Program} {types : List (String × Ty)} {noRedZone : Bool}
    {strings strings' : StringPool} {decl : FunctionDecl} {ls : Lines}
    (h : function program types noRedZone strings decl = .ok (ls, strings')) :
    ∃ body reserved spills o s t,
      bodyLines ⟨program, types, decl.returnType⟩ decl ⟨.empty, strings⟩ = .ok (body, t)
      ∧ ls = withFrame reserved body
      ∧ spillAll decl.params ⟨.empty, strings⟩ = .ok (spills, s)
      ∧ outlines ⟨program, types, decl.returnType⟩ decl.body s = .ok (o, t)
      ∧ Tells body (structured spills o) := by
  obtain ⟨body, t, reserved, hbody, hls⟩ := function_ok h
  obtain ⟨spills, o, s, hspills, ho, hlines⟩ := bodyLines_ok hbody
  refine ⟨body, reserved, spills, o, s, t, hbody, hls, hspills, ho, ?_⟩
  have nodup : (labels body).Nodup := by
    have hfall : labels (fallOff decl.body) = [] := by
      unfold fallOff
      split <;> rfl
    rw [hlines, labels_append, labels_append, lines, labels_map_insn, hfall, List.append_nil]
    exact (outlines_within decl.body ho).nodup
  refine tells_of_follows nodup ?_
  rw [hlines]
  exact bodyLines_follows ho

/-- A loop around a chain whose arms return, go on, and have dead code. -/
def loopedChain : String :=
  "int main() \x7b int a = 3; while (a) \x7b if (a == 1) \x7b return 1; a = 2; \x7d
    else if (a == 2) \x7b a--; \x7d else \x7b return a; \x7d \x7d \x7d"

/-- The looped chain is generated, and its lines follow its structured
program. -/
theorem loopedChain_tells :
    ∃ (program : Program) (decl : FunctionDecl) (ls : Lines) (strings : StringPool),
      (frontend loopedChain (.empty false)).1 = .ok program
      ∧ program.functions.head? = some decl
      ∧ function program (globalTypes program.globals) false .empty decl = .ok (ls, strings)
      ∧ ∃ body reserved spills o s t,
        bodyLines ⟨program, globalTypes program.globals, decl.returnType⟩ decl
          ⟨.empty, .empty⟩ = .ok (body, t)
        ∧ ls = withFrame reserved body
        ∧ spillAll decl.params ⟨.empty, .empty⟩ = .ok (spills, s)
        ∧ outlines ⟨program, globalTypes program.globals, decl.returnType⟩ decl.body s
          = .ok (o, t)
        ∧ Tells body (structured spills o) := by
  have h : ((frontend loopedChain (.empty false)).1.toOption.bind fun p =>
      p.functions.head?.bind fun d =>
        (function p (globalTypes p.globals) false .empty d).toOption.map fun _ => ())
          = some () := by
    set_option maxRecDepth 2000 in
    rw [frontend, tokenize_written (rfl : loopedChain = String.ofList _)]
    decide +kernel
  obtain ⟨program, hfront, h⟩ := Option.bind_eq_some_iff.1 h
  obtain ⟨decl, hdecl, h⟩ := Option.bind_eq_some_iff.1 h
  obtain ⟨⟨ls, strings⟩, hfunction, -⟩ := Option.map_eq_some_iff.1 h
  have hfunction := toOption_some.1 hfunction
  exact ⟨program, decl, ls, strings, toOption_some.1 hfront, hdecl, hfunction,
    function_tells hfunction⟩

end MiniC.Codegen
