/-
What the lines of a function do to the stack.

# The runs

Of the machine only the stack pointer, the base pointer and the stack are
looked at. Addresses are whole numbers, so the stack is as large as it needs to
be, and a stack tells the eight bytes from every address on. Whatever else a
processor knows is left open: a value from another register or from memory may
be any, a store changes the words that meet its bytes, and a jump that looks at
the flags goes either way. Every run of the processor is one of the runs here.

# What a step keeps

Between the entry and the epilogue the base pointer stays, the stack pointer is
below the room that was reserved by eight bytes for each open push, and the
words from the base pointer on are those that the entry left (`Inside`). An
instruction
that works on values meets memory below the base pointer only, so it changes
nothing of that (`works_steady`); pushes and pops are nested, so their number is
told by the place in the lines.

# Runs

Where a run may stand and what is known there is `Stands`, which a step over
the lines keeps (`step_stands`) and so does every run (`runs_stands`). A run
that comes to the return has the pointers of its caller (`Stands.ret`), and a
push meets nothing above the room that was reserved (`Stands.push`).
Consumed by the proof that stack frames are safe.
-/
import Mathlib.Logic.Relation
import MiniC.Proofs.Codegen.Sites
import MiniC.Proofs.ControlFlow.Walk

namespace MiniC.Machine

open Asm Codegen

-- =============================================================== stacks

/-- The pointers, and the eight bytes from each address on. -/
structure Stack where
  rsp : Int
  rbp : Int
  word : Int → Int

namespace Stack

/-- Whether no word has changed but those that meet so many bytes from an
address on. -/
def Keeps (s t : Stack) (base : Int) (size : Nat) : Prop :=
  ∀ a, a + 8 ≤ base ∨ base + size ≤ a → t.word a = s.word a

/-- The value of an operand, as far as it is known. -/
def value? (s : Stack) : Operand → Option Int
  | .reg .qword .rsp => some s.rsp
  | .reg .qword .rbp => some s.rbp
  | .imm n => some n
  | _ => none

/-- The difference of two operands, as far as it is known. -/
def difference? (s : Stack) (dst src : Operand) : Option Int :=
  (s.value? dst).bind fun a => (s.value? src).map fun b => a - b

/-- Whether a stack may come of another when a value is written to an operand,
which may be unknown. -/
def Writes (s t : Stack) (value : Option Int) : Operand → Prop
  | .reg w .rsp => t.rbp = s.rbp ∧ t.word = s.word ∧ (w = .qword → ∀ v ∈ value, t.rsp = v)
  | .reg w .rbp => t.rsp = s.rsp ∧ t.word = s.word ∧ (w = .qword → ∀ v ∈ value, t.rbp = v)
  | .mem w (.stack k) => t.rsp = s.rsp ∧ t.rbp = s.rbp ∧ s.Keeps t (s.rbp - k) w.bytes
  | _ => t = s

/-- Whether a stack may come of another by an instruction. A return leaves the
function. -/
def Does (s t : Stack) : Instr → Prop
  | .mov dst src => s.Writes t (s.value? src) dst
  | .alu .cmp _ _ => t = s
  | .alu .sub dst src => s.Writes t (s.difference? dst src) dst
  | .alu _ dst _ => s.Writes t none dst
  | .widen _ dst _ => s.Writes t none dst
  | .set _ r => s.Writes t none (.reg .byte r)
  | .neg w r => s.Writes t none (.reg w r)
  | .idiv _ => t = s
  | .cdqe => t = s
  | .cdq => t = s
  | .cqo => t = s
  | .push r =>
    t.rsp = s.rsp - 8 ∧ t.rbp = s.rbp ∧ s.Keeps t (s.rsp - 8) 8
      ∧ ∀ v ∈ s.value? (.reg .qword r), t.word (s.rsp - 8) = v
  | .pop .rsp => t.rsp = s.word s.rsp ∧ t.rbp = s.rbp ∧ t.word = s.word
  | .pop .rbp => t.rsp = s.rsp + 8 ∧ t.rbp = s.word s.rsp ∧ t.word = s.word
  | .pop _ => t.rsp = s.rsp + 8 ∧ t.rbp = s.rbp ∧ t.word = s.word
  | .lea r _ => s.Writes t none (.reg .qword r)
  | .leave => t.rsp = s.rbp + 8 ∧ t.rbp = s.word s.rbp ∧ t.word = s.word
  | .ret => False

end Stack

/-- One step over the lines of a function, from the lines still before the
machine and a stack. -/
inductive Step (ls : Lines) : Lines × Stack → Lines × Stack → Prop
  | label {n : Nat} {rest : Lines} {s : Stack} : Step ls (.label n :: rest, s) (rest, s)
  | insn {i : Instr} {rest : Lines} {s t : Stack} : s.Does t i →
      Step ls (.insn i :: rest, s) (rest, t)
  | fall {kind : Jump} {n : Nat} {rest : Lines} {s : Stack} : kind ≠ .jmp →
      Step ls (.jump kind n :: rest, s) (rest, s)
  | jump {kind : Jump} {n : Nat} {rest dest : Lines} {s : Stack} : Walk.behind n ls = some dest →
      Step ls (.jump kind n :: rest, s) (dest, s)

/-- Runs over the lines of a function. -/
abbrev Runs (ls : Lines) : Lines × Stack → Lines × Stack → Prop := Relation.ReflTransGen (Step ls)

-- ========================================================= instructions

section Works

variable {label : String → Prop} {s t : Stack}

/-- Whether bytes that are met on the stack lie below the base pointer. -/
def Below (o : Width × Place) : Prop := ∀ k, o.2 = .stack k → o.1.bytes ≤ k

/-- Whether all that lines meet on the stack lies below the base pointer. -/
abbrev Low (ls : Lines) : Prop := ∀ o ∈ (Line.code ls).flatMap Instr.met, Below o

/-- What an instruction of the lines meets lies below the base pointer. -/
theorem Low.insn {ls : Lines} (h : Low ls) {i : Instr} (hi : .insn i ∈ ls) :
    ∀ o ∈ i.met, Below o := fun o ho =>
  h o (List.mem_flatMap.2 ⟨i, Line.mem_code.2 hi, ho⟩)

/-- Whether pointers and words from the base pointer on are as before. -/
structure Stack.Steady (s t : Stack) : Prop where
  rsp : t.rsp = s.rsp
  rbp : t.rbp = s.rbp
  above : ∀ a, s.rbp ≤ a → t.word a = s.word a

theorem Stack.Steady.refl (s : Stack) : s.Steady s := ⟨rfl, rfl, fun _ _ => rfl⟩

/-- Writing to an operand that works on values leaves pointers and the words above. -/
theorem writes_steady {o : Operand} (ho : o.Works) (hlow : ∀ met ∈ o.memory?, Below met)
    {value : Option Int} (h : s.Writes t value o) : s.Steady t := by
  have hsame : t = s → s.Steady t := fun h => h ▸ .refl s
  cases o with
  | reg w r =>
      cases r
      case rsp => exact absurd rfl ho.1
      case rbp => exact absurd rfl ho.2
      all_goals exact hsame h
  | mem w place =>
      cases place with
      | stack k =>
          obtain ⟨hrsp, hrbp, hkeeps⟩ := h
          have hle : w.bytes ≤ k := hlow (w, .stack k) rfl k rfl
          exact ⟨hrsp, hrbp, fun a ha => hkeeps a (Or.inr (by omega))⟩
      | static name offset => exact hsame h
  | _ => exact hsame h

/-- An instruction that works on values leaves the pointers, and the words
above the base pointer, as they are. -/
theorem works_steady {i : Instr} (hi : i.Works label) (hlow : ∀ o ∈ i.met, Below o)
    (h : s.Does t i) : s.Steady t := by
  have hsame : t = s → s.Steady t := fun h => h ▸ .refl s
  have hfirst {dst src : Operand} (hops : i.operands = [dst, src]) :
      ∀ met ∈ dst.memory?, Below met := fun met hmet =>
    hlow met (List.mem_filterMap.2 ⟨dst, hops ▸ List.mem_cons_self, hmet⟩)
  have hreg {w : Width} {r : Reg} {value : Option Int} (hr : r ≠ .rsp ∧ r ≠ .rbp)
      (h : s.Writes t value (.reg w r)) : s.Steady t := by
    refine writes_steady (o := .reg w r) hr ?_ h
    exact nofun
  cases i with
  | mov dst src => exact writes_steady hi.1 (hfirst rfl) h
  | alu op dst src =>
      cases op
      case cmp => exact hsame h
      all_goals exact writes_steady hi.1 (hfirst rfl) h
  | widen op dst src => exact writes_steady hi.1 (hfirst rfl) h
  | set op r => exact hreg hi h
  | neg w r => exact hreg hi h
  | lea r name => exact hreg hi.1 h
  | push r => exact hi.elim
  | pop r => exact hi.elim
  | leave => exact hi.elim
  | ret => exact hi.elim
  | _ => exact hsame h

end Works

-- ================================================================ frames

/-- What is known inside a function that was entered with a stack and has
reserved room, with so many pushes open. -/
structure Inside (entered : Stack) (room pushes : Nat) (s : Stack) : Prop where
  rbp : s.rbp = entered.rsp - 8
  rsp : s.rsp = s.rbp - room - 8 * pushes
  saved : s.word s.rbp = entered.rbp
  above : ∀ a, entered.rsp ≤ a → s.word a = entered.word a

/-- What is known before the return: the pointers are those of the entry, and
so is the stack of the caller, the return address with it. -/
structure Unwound (entered s : Stack) : Prop where
  rsp : s.rsp = entered.rsp
  rbp : s.rbp = entered.rbp
  above : ∀ a, entered.rsp ≤ a → s.word a = entered.word a

section Frames

variable {label : String → Prop} {entered s t : Stack}
  {room pushes : Nat}

/-- What leaves pointers and the words above stays inside. -/
theorem Inside.steady (h : Inside entered room pushes s) (hst : s.Steady t) :
    Inside entered room pushes t where
  rbp := hst.rbp.trans h.rbp
  rsp := by rw [hst.rsp, hst.rbp, h.rsp]
  saved := by rw [hst.rbp, hst.above s.rbp (Int.le_refl _), h.saved]
  above a ha := by
    have hrbp := h.rbp
    rw [hst.above a (by omega), h.above a ha]

/-- A push is one more open. -/
theorem Inside.push (h : Inside entered room pushes s) (hpush : s.Does t (.push .rax)) :
    Inside entered room (pushes + 1) t := by
  obtain ⟨hrsp, hrbp, hkeeps, -⟩ := hpush
  have hbase := h.rbp
  have htop := h.rsp
  -- the new word lies below the base pointer
  have habove : ∀ a, s.rbp ≤ a → t.word a = s.word a := fun a ha => hkeeps a (Or.inr (by omega))
  refine ⟨hrbp.trans hbase, by omega, ?_, fun a ha => ?_⟩
  · rw [hrbp, habove s.rbp (Int.le_refl _), h.saved]
  · rw [habove a (by omega), h.above a ha]

/-- A pop is one less. -/
theorem Inside.pop (h : Inside entered room (pushes + 1) s) (hpop : s.Does t (.pop .rax)) :
    Inside entered room pushes t := by
  obtain ⟨hrsp, hrbp, hword⟩ := hpop
  have htop := h.rsp
  refine ⟨hrbp.trans h.rbp, by omega, ?_, fun a ha => ?_⟩
  · rw [hrbp, hword, h.saved]
  · rw [hword, h.above a ha]

/-- An instruction of a body leads on inside the function. -/
theorem Inside.insn (h : Inside entered room pushes s) {i : Instr}
    (hi : i.Works label ∨ i = .push .rax ∨ i = .pop .rax) (hlow : ∀ o ∈ i.met, Below o)
    (hdoes : s.Does t i) {pushes' : Nat} (hnest : Line.nest pushes (.insn i) = some pushes') :
    Inside entered room pushes' t := by
  rcases hi with hi | rfl | rfl
  · cases (nest_works hi pushes).symm.trans hnest
    exact h.steady (works_steady hi hlow hdoes)
  · cases hnest
    exact h.push hdoes
  · have hnest : (if pushes = 0 then none else some (pushes - 1)) = some pushes' := hnest
    cases pushes with
    | zero => cases hnest
    | succ n =>
        cases hnest
        exact h.pop hdoes

/-- With no push open the epilogue takes the frame down. -/
theorem Inside.restoring {reserved : Option Nat} (h : Inside entered (reserved.getD 0) 0 s)
    (hdoes : s.Does t (restoring reserved)) : Unwound entered t := by
  have hbase := h.rbp
  have htop := h.rsp
  cases reserved with
  | none =>
      obtain ⟨hrsp, hrbp, hword⟩ := hdoes
      have htop : s.rsp = s.rbp := by
        rw [htop]
        show s.rbp - ((0 : Nat) : Int) - 8 * ((0 : Nat) : Int) = s.rbp
        omega
      exact ⟨by omega, by rw [hrbp, htop, h.saved], fun a ha => by rw [hword, h.above a ha]⟩
  | some n =>
      obtain ⟨hrsp, hrbp, hword⟩ := hdoes
      exact ⟨by omega, by rw [hrbp, h.saved], fun a ha => by rw [hword, h.above a ha]⟩

end Frames

-- ============================================================= positions

section Positions

variable {bound : Nat} {ms : List Meeting} {reserved : Option Nat} {body : Lines}
  {entered s t : Stack}

/-- The line that reserves room, if any does. -/
def reservingLines (reserved : Option Nat) : Lines := lines (reserved.map reserving).toList

/-- The lines of a body with its epilogues resolved. -/
def settledLines (reserved : Option Nat) (body : Lines) : Lines :=
  restored (restoring reserved) (Line.mergeLabels body)

/-- A function saves the base pointer and moves it before anything else. -/
theorem withFrame_cons (reserved : Option Nat) (body : Lines) :
    withFrame reserved body
      = .insn (.push .rbp) :: .insn (.mov (reg .qword .rbp) (reg .qword .rsp))
        :: (reservingLines reserved ++ settledLines reserved body) := by
  cases reserved <;> rfl

/-- A label of a function is one of its body. -/
theorem behind_withFrame {n : Nat} {dest : Lines}
    (h : Walk.behind n (withFrame reserved body) = some dest) :
    ∃ rest, .label n :: rest <:+ Line.mergeLabels body
      ∧ dest = restored (restoring reserved) rest := by
  have hbody : Walk.behind n (settledLines reserved body) = some dest := by
    rw [withFrame_cons] at h
    cases reserved <;> exact h
  clear h
  unfold settledLines at hbody
  generalize Line.mergeLabels body = ls at hbody
  induction ls with
  | nil => cases hbody
  | cons line rest ih =>
      have hnext (hrest : Walk.behind n (restored (restoring reserved) rest) = some dest) :
          ∃ rest', .label n :: rest' <:+ line :: rest
            ∧ dest = restored (restoring reserved) rest' := by
        obtain ⟨rest', hsuffix, hdest⟩ := ih hrest
        exact ⟨rest', hsuffix.trans (List.suffix_cons _ _), hdest⟩
      cases line with
      | label m =>
          have hfound : (if Line.label m = .label n
              then some (restored (restoring reserved) rest)
              else Walk.behind n (restored (restoring reserved) rest)) = some dest := hbody
          by_cases heq : m = n
          · rw [if_pos (congrArg Line.label heq)] at hfound
            cases hfound
            rw [heq]
            exact ⟨rest, List.suffix_refl _, rfl⟩
          · rw [if_neg fun h => heq (Line.label.inj h)] at hfound
            exact hnext hfound
      | _ => exact hnext hbody

/-- Where a run of a function may stand that was entered with a stack, and
what is known of the stack there. -/
inductive Stands (entered : Stack) (reserved : Option Nat) (body : Lines) : Lines → Stack → Prop
  | start : Stands entered reserved body (withFrame reserved body) entered
  | saved {s : Stack} : s.rsp = entered.rsp - 8 → s.word s.rsp = entered.rbp →
      (∀ a, entered.rsp ≤ a → s.word a = entered.word a) →
      Stands entered reserved body
        (.insn (.mov (reg .qword .rbp) (reg .qword .rsp))
          :: (reservingLines reserved ++ settledLines reserved body)) s
  | linked {n : Nat} {s : Stack} : reserved = some n → Inside entered 0 0 s →
      Stands entered reserved body (.insn (reserving n) :: settledLines reserved body) s
  | inside {rest : Lines} {pushes : Nat} {s : Stack} : rest <:+ Line.mergeLabels body →
      Line.nesting pushes rest = some 0 → Inside entered (reserved.getD 0) pushes s →
      Stands entered reserved body (restored (restoring reserved) rest) s
  | unwound {rest : Lines} {s : Stack} : Unwound entered s →
      Stands entered reserved body (.insn .ret :: rest) s

/-- A step over the lines of the body. -/
theorem step_inside (hlow : Low body) (hbody : Kempt bound ms body) {rest there : Lines}
    {pushes : Nat} (hsuffix : rest <:+ Line.mergeLabels body)
    (hnest : Line.nesting pushes rest = some 0)
    (hinside : Inside entered (reserved.getD 0) pushes s)
    (hstep : Step (withFrame reserved body) (restored (restoring reserved) rest, s) (there, t)) :
    Stands entered reserved body there t := by
  have hnested : Line.nesting 0 (Line.mergeLabels body) = some 0 :=
    Line.nesting_mergeLabels hbody.nested
  cases rest with
  | nil => cases hstep
  | cons line rest =>
      have hrest : rest <:+ Line.mergeLabels body := (List.suffix_cons line rest).trans hsuffix
      cases line with
      | insn i =>
          cases hstep with
          | insn hdoes =>
              obtain ⟨pushes', hline, hnest⟩ := Line.nesting_cons.1 hnest
              have hmem := Line.insn_mem_mergeLabels (hsuffix.subset List.mem_cons_self)
              exact .inside hrest hnest
                (hinside.insn (hbody.works i hmem) (Low.insn hlow hmem) hdoes hline)
      | label n =>
          obtain ⟨rfl, hnest⟩ := Line.nesting_label hnest
          cases hstep with
          | label => exact .inside hrest hnest hinside
      | jump kind n =>
          obtain ⟨rfl, hnest⟩ := Line.nesting_jump hnest
          cases hstep with
          | fall hkind => exact .inside hrest hnest hinside
          | jump hdest =>
              obtain ⟨dest, hlabel, rfl⟩ := behind_withFrame hdest
              refine .inside ((List.suffix_cons _ dest).trans hlabel) ?_ hinside
              obtain ⟨front, hfront⟩ := hlabel
              rw [← hfront] at hnested
              obtain ⟨j, -, hlabel⟩ := Line.nesting_append.1 hnested
              exact (Line.nesting_label hlabel).2
      | epilogue =>
          obtain ⟨j, hline, -⟩ := Line.nesting_cons.1 hnest
          have hzero : pushes = 0 := by
            refine Classical.byContradiction fun hne => ?_
            have hline : (if pushes = 0 then some 0 else none) = some j := hline
            rw [if_neg hne] at hline
            cases hline
          subst hzero
          cases hstep with
          | insn hdoes => exact .unwound (hinside.restoring hdoes)

/-- A step over the lines of a function in which pushes are nested. -/
theorem step_stands (hlow : Low body) (hbody : Kempt bound ms body) {here there : Lines}
    (h : Stands entered reserved body here s)
    (hstep : Step (withFrame reserved body) (here, s) (there, t)) :
    Stands entered reserved body there t := by
  have hnested : Line.nesting 0 (Line.mergeLabels body) = some 0 :=
    Line.nesting_mergeLabels hbody.nested
  cases h with
  | start =>
      rw [withFrame_cons] at hstep
      cases hstep with
      | insn hdoes =>
          obtain ⟨hrsp, -, hkeeps, hvalue⟩ := hdoes
          refine .saved hrsp ?_ fun a ha => hkeeps a (Or.inr (by omega))
          rw [hrsp]
          exact hvalue entered.rbp rfl
  | saved hrsp hsaved habove =>
      cases hstep with
      | insn hdoes =>
          obtain ⟨hsame, hword, hvalue⟩ := hdoes
          have hbase : t.rbp = s.rsp := hvalue rfl s.rsp rfl
          have hinside : Inside entered 0 0 t := by
            refine ⟨hbase.trans hrsp, ?_, ?_, fun a ha => ?_⟩
            · rw [hsame, hbase]
              omega
            · rw [hbase, hword, hsaved]
            · rw [hword, habove a ha]
          cases reserved with
          | none => exact .inside (List.suffix_refl _) hnested hinside
          | some n => exact .linked rfl hinside
  | @linked n s hreserved hinside =>
      cases hstep with
      | insn hdoes =>
          obtain ⟨hsame, hword, hvalue⟩ := hdoes
          have htop : t.rsp = s.rsp - n := hvalue rfl (s.rsp - n) rfl
          subst hreserved
          have hold := hinside.rsp
          refine .inside (List.suffix_refl _) hnested ⟨?_, ?_, ?_, fun a ha => ?_⟩
          · rw [hsame, hinside.rbp]
          · show t.rsp = t.rbp - n - 8 * ((0 : Nat) : Int)
            omega
          · rw [hsame, hword, hinside.saved]
          · rw [hword, hinside.above a ha]
  | unwound hunwound =>
      cases hstep with
      | insn hdoes => exact hdoes.elim
  | inside hsuffix hnest hinside => exact step_inside hlow hbody hsuffix hnest hinside hstep

/-- Where every run of a function stands. -/
theorem runs_stands (hlow : Low body) (hbody : Kempt bound ms body) {there : Lines × Stack}
    (h : Runs (withFrame reserved body) (withFrame reserved body, entered) there) :
    Stands entered reserved body there.1 there.2 := by
  induction h with
  | refl => exact .start
  | tail _ hstep ih => exact step_stands hlow hbody ih hstep

/-- A push of rax is one of the body's, and the stack pointer is below the room
that is reserved. -/
theorem Stands.push {rest : Lines}
    (h : Stands entered reserved body (.insn (.push .rax) :: rest) s) :
    .insn (.push .rax) ∈ body ∧ s.rsp + (reserved.getD 0 : Nat) ≤ s.rbp := by
  generalize hhere : Line.insn (.push .rax) :: rest = here at h
  cases h with
  | start =>
      rw [withFrame_cons] at hhere
      cases hhere
  | saved _ _ _ => cases hhere
  | linked _ _ => cases hhere
  | unwound _ => cases hhere
  | @inside inner _ _ hsuffix _ hinside =>
      have htop := hinside.rsp
      refine ⟨?_, by omega⟩
      cases inner with
      | nil => cases hhere
      | cons line inner =>
          cases line with
          | insn i =>
              cases hhere
              exact Line.insn_mem_mergeLabels (hsuffix.subset List.mem_cons_self)
          | epilogue => cases reserved <;> cases hhere
          | label n => cases hhere
          | jump kind n => cases hhere

/-- Before the return the frame is gone. -/
theorem Stands.ret (hbody : Kempt bound ms body) {rest : Lines}
    (h : Stands entered reserved body (.insn .ret :: rest) s) : Unwound entered s := by
  generalize hhere : Line.insn .ret :: rest = here at h
  cases h with
  | start =>
      rw [withFrame_cons] at hhere
      cases hhere
  | saved _ _ _ => cases hhere
  | linked _ _ => cases hhere
  | unwound hunwound => exact hunwound
  | @inside inner _ _ hsuffix _ _ =>
      -- no body returns, and an epilogue restores the base pointer first
      cases inner with
      | nil => cases hhere
      | cons line inner =>
          cases line with
          | insn i =>
              cases hhere
              have hmem := Line.insn_mem_mergeLabels (hsuffix.subset List.mem_cons_self)
              rcases hbody.works .ret hmem with hworks | heq | heq
              · exact hworks.elim
              · cases heq
              · cases heq
          | epilogue => cases reserved <;> cases hhere
          | label n => cases hhere
          | jump kind n => cases hhere

end Positions

end MiniC.Machine
