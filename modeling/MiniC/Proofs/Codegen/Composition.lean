/-
What the code of an expression is made of, and what it meets in memory.

# Instructions

Each instruction works on the registers for values, and leaves the stack
pointer and the base pointer alone (`Instr.Works`); a label is one that the
pool has handed out (`Pooled`). Pushes and pops come in pairs around code that
is made the same way (`Composed`).

# Meetings

The operands in memory are read off the code in the order in which they stand
in it (`Instr.met`), and are held against a list of demands of the same length
(`Heeds`). For the code of an expression the demands are written down from the
source alone: one for each of its references, in the order of
`Expr.references`, and the demand of a reference is that the place is its own
and the operand no wider than its type (`Names`). So it is known of each operand
by which name it came into the code, and not only that some name would allow
it.

The argument goes along the recursion of the code. A conversion meets nothing
and a load or a store its place once, whatever widths it goes between
(`loadInto_made`, `storeRax_made`, `storeLiteral_made`). An operand on the right
is met either by the code in front of the operation or by the operation itself
(`Supplies`), after everything that the left one is taken from. From these it
follows for values (`eval_emits`), for effects (`effect_emits`) and for
conditions (`test_emits`).

Consumed by the proofs about stack frames and about symbols.
-/
import Mathlib.Data.List.Forall2
import MiniC.Proofs.Codegen.Places
import MiniC.Proofs.Source.Types

namespace MiniC

namespace Asm

-- ========================================================= instructions

/-- Whether an operand is a value, a place in memory or a register for
values. -/
def Operand.Works : Operand → Prop
  | .reg _ r => r ≠ .rsp ∧ r ≠ .rbp
  | .mem _ _ => True
  | .imm _ => True
  | .mask _ => True
  | .real _ _ => True

/-- Whether an instruction works on values alone: it leaves the stack pointer
and the base pointer as they are. -/
def Instr.Works (label : String → Prop) : Instr → Prop
  | .mov dst src => dst.Works ∧ src.Works
  | .alu _ dst src => dst.Works ∧ src.Works
  | .widen _ dst src => dst.Works ∧ src.Works
  | .set _ r => r ≠ .rsp ∧ r ≠ .rbp
  | .neg _ r => r ≠ .rsp ∧ r ≠ .rbp
  | .idiv divisor => divisor.Works
  | .cdqe => True
  | .cdq => True
  | .cqo => True
  | .lea r name => (r ≠ .rsp ∧ r ≠ .rbp) ∧ label name
  | .push _ => False
  | .pop _ => False
  | .leave => False
  | .ret => False

/-- The operands of an instruction, beside registers that it names itself. -/
def Instr.operands : Instr → List Operand
  | .mov dst src => [dst, src]
  | .alu _ dst src => [dst, src]
  | .widen _ dst src => [dst, src]
  | .idiv divisor => [divisor]
  | _ => []

/-- What an operand meets in memory: so many bytes at a place. -/
def Operand.memory? : Operand → Option (Width × Place)
  | .mem width place => some (width, place)
  | _ => none

/-- What an instruction meets in memory. -/
def Instr.met (i : Instr) : List (Width × Place) := i.operands.filterMap Operand.memory?

theorem Instr.mem_met {i : Instr} {w : Width} {place : Place} :
    (w, place) ∈ i.met ↔ .mem w place ∈ i.operands := by
  refine List.mem_filterMap.trans ⟨?_, fun h => ⟨_, h, rfl⟩⟩
  rintro ⟨o, ho, heq⟩
  cases o <;> cases heq
  exact ho

end Asm

namespace Codegen

open Asm Steps

-- ================================================================= code

/-- Code in which every instruction is of one kind, but for pushes of rax
that are each popped behind code of the same make. -/
inductive Composed (kind : Instr → Prop) : Code → Prop
  | nil : Composed kind []
  | cons {i : Instr} {rest : Code} : kind i → Composed kind rest → Composed kind (i :: rest)
  | saved {inner rest : Code} : Composed kind inner → Composed kind rest →
      Composed kind (.push .rax :: (inner ++ .pop .rax :: rest))

namespace Composed

variable {kind : Instr → Prop}

theorem one {i : Instr} (h : kind i) : Composed kind [i] := .cons h .nil

theorem two {i j : Instr} (hi : kind i) (hj : kind j) : Composed kind [i, j] := .cons hi (.one hj)

/-- Code behind code, by induction on the first: a pair of pushes and pops
stays one. -/
theorem append {a b : Code} (ha : Composed kind a) (hb : Composed kind b) :
    Composed kind (a ++ b) := by
  induction ha with
  | nil => exact hb
  | cons hi _ ih =>
      exact .cons hi ih
  | @saved inner rest hinner _ _ ih =>
      have hmove : .push .rax :: (inner ++ .pop .rax :: rest) ++ b
          = .push .rax :: (inner ++ .pop .rax :: (rest ++ b)) := by
        simp only [List.cons_append, List.append_assoc]
      rw [hmove]
      exact .saved hinner ih

/-- An instruction is of the kind, or one of the pushes and pops. -/
theorem mem {code : Code} (h : Composed kind code) :
    ∀ i ∈ code, kind i ∨ i = .push .rax ∨ i = .pop .rax := by
  induction h with
  | nil =>
      intro j hj
      cases hj
  | cons hi _ ih =>
      intro j hj
      rcases List.mem_cons.1 hj with rfl | hj
      · exact Or.inl hi
      · exact ih j hj
  | saved _ _ ihi ihr =>
      intro j hj
      rcases List.mem_cons.1 hj with rfl | hj
      · exact Or.inr (Or.inl rfl)
      rcases List.mem_append.1 hj with hj | hj
      · exact ihi j hj
      rcases List.mem_cons.1 hj with rfl | hj
      · exact Or.inr (Or.inr rfl)
      · exact ihr j hj

end Composed

-- ============================================================= meetings

/-- A demand on what an operand in memory is: its width and its place. -/
abbrev Meeting : Type := Width → Place → Prop

/-- Whether operands in memory are as demanded, one for each demand and in
their order. -/
abbrev Heeds (demands : List Meeting) (met : List (Width × Place)) : Prop :=
  List.Forall₂ (fun demand o => demand o.1 o.2) demands met

/-- Whatever is on the right of lists that are related has something on the
left that it is related to. -/
theorem exists_left {α β : Type} {r : α → β → Prop} {as : List α} {bs : List β}
    (h : List.Forall₂ r as bs) {b : β} (hb : b ∈ bs) : ∃ a ∈ as, r a b := by
  induction h with
  | nil => cases hb
  | cons hfirst _ ih =>
      rcases List.mem_cons.1 hb with rfl | hb
      · exact ⟨_, List.mem_cons_self, hfirst⟩
      · obtain ⟨a, ha, hr⟩ := ih hb
        exact ⟨a, List.mem_cons_of_mem _ ha, hr⟩

/-- Whether a demand lets a place be met with every width that its type
allows. -/
def Open (demand : Meeting) (place : Place) (ty : Ty) : Prop :=
  ∀ w : Width, w.bytes ≤ ty.size → demand w place

/-- The demand that a place is met with no wider an operand than its type. -/
def At (place : Place) (ty : Ty) : Meeting := fun w q => q = place ∧ w.bytes ≤ ty.size

/-- The demand of a reference: that its own place is met, with no wider an
operand than its type. -/
def Names (env : Env) (f : Frame) (e : Expr) : Meeting := fun w place =>
  ∃ ty, env.place? f e = .ok (some (place, ty)) ∧ w.bytes ≤ ty.size

/-- The demands of references, one for each. -/
abbrev demands (env : Env) (f : Frame) (es : List Expr) : List Meeting := es.map (Names env f)

/-- Whether a label is one of the first so many of the pool. -/
def Pooled (bound : Nat) (name : String) : Prop := ∃ n < bound, name = StringPool.label n

/-- Code that works on values and on labels of the pool, and meets memory as
demanded. -/
structure Made (bound : Nat) (ms : List Meeting) (code : Code) : Prop where
  composed : Composed (Instr.Works (Pooled bound)) code
  meets : Heeds ms (code.flatMap Instr.met)

variable {env : Env} {f : Frame} {bound : Nat} {m : Meeting} {ms ms' : List Meeting}

theorem At.opens (place : Place) (ty : Ty) : Open (At place ty) place ty := fun _ hw => ⟨rfl, hw⟩

theorem Names.opens {e : Expr} {place : Place} {ty : Ty}
    (h : env.place? f e = .ok (some (place, ty))) : Open (Names env f e) place ty :=
  fun _ hw => ⟨ty, h, hw⟩

/-- What is assigned to is a place that its expression names. -/
theorem place?_of_target {e : Expr} {found : Place × Ty} (h : env.target f e = .ok found) :
    env.place? f e = .ok (some found) := by
  unfold Env.target at h
  obtain ⟨place, hplace, hpure⟩ := except_bind_ok.1 h
  cases place with
  | none => cases hpure
  | some found =>
      cases hpure
      exact hplace

/-- What names a place refers to that place and no other. -/
theorem references_of_place {e : Expr} {found : Place × Ty}
    (h : env.place? f e = .ok (some found)) : e.references = [e] := by
  cases e <;> first | rfl | cases h

namespace Made

theorem nil : Made bound [] [] := ⟨.nil, .nil⟩

/-- Code behind code meets memory as that does, and then as this does. -/
theorem append {a b : Code} (ha : Made bound ms a) (hb : Made bound ms' b) :
    Made bound (ms ++ ms') (a ++ b) where
  composed := ha.composed.append hb.composed
  meets := by
    rw [List.flatMap_append]
    exact List.rel_append ha.meets hb.meets

/-- Code behind code may meet no memory. -/
theorem extend {a b : Code} (ha : Made bound ms a) (hb : Made bound [] b) :
    Made bound ms (a ++ b) :=
  List.append_nil ms ▸ ha.append hb

/-- A push and its pop meet nothing that a reference names. -/
theorem saved {code : Code} (h : Made bound ms code) :
    Made bound ms (.push .rax :: code ++ [.pop .rax]) where
  composed := .saved h.composed .nil
  meets := by
    have hmet : (Instr.push .rax :: code ++ [Instr.pop .rax]).flatMap Instr.met
        = code.flatMap Instr.met := by
      rw [List.flatMap_append, List.flatMap_cons]
      exact List.append_nil _
    rw [hmet]
    exact h.meets

end Made

/-- A width is that of a type's values. -/
theorem bytes_of_widthOf {ty : Ty} {w : Width} (h : widthOf ty = .ok w) : w.bytes = ty.size := by
  cases ty <;> cases h <;> rfl

/-- A place may be met with the width of its type's values. -/
theorem Open.whole {place : Place} {ty : Ty} (h : Open m place ty) {w : Width}
    (hw : widthOf ty = .ok w) : m w place :=
  h w (Nat.le_of_eq (bytes_of_widthOf hw))

-- ================================================================ moving

section Moving

/-- Registers for values. -/
theorem works_reg {w : Width} {r : Reg} (h : r = .rax ∨ r = .rcx) : (reg w r).Works := by
  rcases h with rfl | rfl <;> exact ⟨nofun, nofun⟩

theorem works_rax (w : Width) : (reg w .rax).Works := works_reg (Or.inl rfl)

/-- A load meets its place once, with the narrower of the two widths. -/
theorem loadInto_made {r : Reg} (hr : r = .rax ∨ r = .rcx) {place : Place} {source target : Ty}
    {code : Code} (hplace : Open m place source)
    (h : loadInto r place source target = .ok code) : Made bound [m] code := by
  unfold loadInto at h
  simp only [except_bind_ok] at h
  obtain ⟨src, hsrc, dst, hdst, h⟩ := h
  have hreg : r ≠ .rsp ∧ r ≠ .rbp := by rcases hr with rfl | rfl <;> exact ⟨nofun, nofun⟩
  have hsource : m src place := hplace.whole hsrc
  have hnarrow : dst.bytes ≤ src.bytes → m dst place := fun hle =>
    hplace dst (by rw [← bytes_of_widthOf hsrc]; exact hle)
  split at h
  · split at h
    · rename_i heq
      cases h
      rw [heq] at hsrc
      cases hsrc.symm.trans hdst
      exact ⟨.one ⟨hreg, trivial⟩, .cons hsource .nil⟩
    · cases h
  · split at h
    · cases h
      exact ⟨.two ⟨trivial, trivial⟩ hreg, .cons hsource .nil⟩
    · split at h
      · rename_i hle
        cases h
        exact ⟨.one ⟨hreg, trivial⟩, .cons (hnarrow hle) .nil⟩
      · repeat' split at h
        all_goals cases h
        · exact ⟨.two ⟨hreg, hreg⟩ ⟨hreg, trivial⟩, .cons hsource .nil⟩
        · exact ⟨.two ⟨works_rax .dword, trivial⟩ trivial, .cons hsource .nil⟩
        · exact ⟨.one ⟨hreg, trivial⟩, .cons hsource .nil⟩
        all_goals exact ⟨.one ⟨hreg, trivial⟩, .cons hsource .nil⟩

/-- A conversion stays in rax. -/
theorem convert_made {source target : Ty} {code : Code} (h : convert source target = .ok code) :
    Made bound [] code := by
  have hrax : Reg.rax ≠ .rsp ∧ Reg.rax ≠ .rbp := ⟨nofun, nofun⟩
  unfold convert at h
  split at h
  · cases h
    exact .nil
  · split at h
    · cases h
    · simp only [except_bind_ok] at h
      obtain ⟨src, -, dst, -, h⟩ := h
      repeat' split at h
      all_goals cases h
      · exact ⟨.two ⟨works_rax src, trivial⟩ hrax, .nil⟩
      · exact .nil
      · exact ⟨.one ⟨works_rax .dword, trivial⟩, .nil⟩
      · exact ⟨.one trivial, .nil⟩
      all_goals exact ⟨.one ⟨works_rax dst, works_rax src⟩, .nil⟩

/-- A store of rax meets its place once. -/
theorem storeRax_made {place : Place} {source target : Ty} {code : Code}
    (hplace : Open m place target) (h : storeRax place source target = .ok code) :
    Made bound [m] code := by
  unfold storeRax at h
  simp only [except_bind_ok] at h
  obtain ⟨conversion, hconversion, dst, hdst, h⟩ := h
  cases h
  have hstore : Made bound [m] [.mov (.mem dst place) (reg dst .rax)] :=
    ⟨.one ⟨trivial, works_rax dst⟩, .cons (hplace.whole hdst) .nil⟩
  exact (convert_made hconversion).append hstore

/-- So does a store of a literal, which may go through rax. -/
theorem storeLiteral_made {place : Place} {lit : NumberLiteral} {target : Ty} {code : Code}
    (hplace : Open m place target) (h : storeLiteral place lit target = .ok code) :
    Made bound [m] code := by
  unfold storeLiteral at h
  split at h
  · obtain ⟨real, -, h⟩ := except_bind_ok.1 h
    cases h
    exact ⟨.one ⟨trivial, trivial⟩, .cons (hplace .dword (Nat.le_refl 4)) .nil⟩
  · obtain ⟨real, -, h⟩ := except_bind_ok.1 h
    cases h
    exact ⟨.two ⟨works_rax .qword, trivial⟩ ⟨trivial, works_rax .qword⟩,
      .cons (hplace .qword (Nat.le_refl 8)) .nil⟩
  · cases h
  · cases h
  · cases h
  · split at h
    · cases h
    · simp only [except_bind_ok] at h
      obtain ⟨dst, hdst, n, -, h⟩ := h
      have htarget : m dst place := hplace.whole hdst
      split at h
      · cases h
        exact ⟨.two ⟨works_rax .qword, trivial⟩ ⟨trivial, works_rax .qword⟩, .cons htarget .nil⟩
      · cases h
        exact ⟨.one ⟨trivial, trivial⟩, .cons htarget .nil⟩

/-- An increment or decrement is done in memory. -/
theorem stepPlace_made {op : Arith} {place : Place} {ty : Ty} {update : Instr}
    (hplace : Open m place ty) (h : stepPlace op place ty = .ok update) :
    Made bound [m] [update] := by
  unfold stepPlace at h
  split at h
  · cases h
  · simp only [except_bind_ok] at h
    obtain ⟨width, hwidth, h⟩ := h
    have hmet : m width place := hplace.whole hwidth
    split at h <;> cases h <;> exact ⟨.one ⟨trivial, trivial⟩, .cons hmet .nil⟩

/-- An operation meets what its right operand does. -/
theorem arithCode_made (op : Arith) (width : Width) {operand : Operand} (h : operand.Works)
    (hmeets : Heeds ms operand.memory?.toList) : Made bound ms (arithCode op width operand) := by
  have hacc : (reg width .rax).Works := works_rax width
  have hrcx : (reg width .rcx).Works := works_reg (Or.inr rfl)
  have hextend : (if width = .qword then Instr.cqo else .cdq).Works (Pooled bound)
      ∧ (if width = .qword then Instr.cqo else .cdq).met = [] := by
    split <;> exact ⟨trivial, rfl⟩
  have hdivide : Made bound ms [if width = .qword then Instr.cqo else .cdq, .idiv operand] := by
    refine ⟨.two hextend.1 h, ?_⟩
    rw [List.flatMap_cons, hextend.2]
    cases operand <;> exact hmeets
  cases op with
  | div =>
      cases operand with
      | imm n =>
          have hmove : Made bound [] [.mov (reg width .rcx) (.imm n)] :=
            ⟨.one ⟨hrcx, trivial⟩, .nil⟩
          have hrest : Made bound ms
              [if width = .qword then Instr.cqo else .cdq, .idiv (reg width .rcx)] := by
            refine ⟨.two hextend.1 hrcx, ?_⟩
            rw [List.flatMap_cons, hextend.2]
            exact hmeets
          exact hmove.append hrest
      | _ => exact hdivide
  | _ => cases operand <;> exact ⟨.one ⟨hacc, h⟩, hmeets⟩

end Moving

-- ============================================================ emission

/-- Whether a step that starts with the scopes of a frame leaves them, takes
no string out of the pool, and answers with something of the kind if the pool
behind it is within the bound. -/
def Emits {α : Type} (f : Frame) (bound : Nat) (kind : α → Prop) (step : Gen α) : Prop :=
  ∀ s a t, s.frame.scopes = f.scopes → step s = .ok (a, t) →
    t.frame.scopes = f.scopes ∧ s.strings.values.length ≤ t.strings.values.length
      ∧ (t.strings.values.length ≤ bound → kind a)

namespace Emits

variable {α β : Type} {kind : α → Prop}

/-- What the first step answers with is known where the second is asked of. -/
theorem bind {x : Gen α} {g : α → Gen β} {kind' : β → Prop} (hx : Emits f bound kind x)
    (hg : ∀ a, Emits f bound (fun b => kind a → kind' b) (g a)) :
    Emits f bound kind' (x >>= g) := by
  intro s b t hs h
  obtain ⟨a, u, hfirst, hrest⟩ := bind_ok.1 h
  obtain ⟨hu, hsu, ha⟩ := hx s a u hs hfirst
  obtain ⟨ht, hut, hb⟩ := hg a u b t hu hrest
  exact ⟨ht, Nat.le_trans hsu hut, fun hle => hb hle (ha (Nat.le_trans hut hle))⟩

/-- What leaves the state. -/
theorem still {step : Gen α} (h : ∀ s a t, s.frame.scopes = f.scopes → step s = .ok (a, t) →
    t = s ∧ kind a) : Emits f bound kind step := by
  intro s a t hs hstep
  obtain ⟨rfl, ha⟩ := h s a t hs hstep
  exact ⟨hs, Nat.le_refl _, fun _ => ha⟩

theorem pure {a : α} (h : kind a) : Emits f bound kind (pure a : Gen α) := by
  refine still fun s b t _ hpure => ?_
  obtain ⟨rfl, rfl⟩ := pure_ok.1 hpure
  exact ⟨rfl, h⟩

theorem fail (e : GenError) : Emits f bound kind (Codegen.fail e : Gen α) :=
  fun _ _ _ _ h => (fail_ok.1 h).elim

theorem lift {x : Except GenError α} (h : ∀ a, x = .ok a → kind a) :
    Emits f bound kind (liftM x : Gen α) := by
  refine still fun s a t _ hlift => ?_
  obtain ⟨ha, rfl⟩ := lift_ok.1 hlift
  exact ⟨rfl, h a ha⟩

theorem ite {c : Prop} [Decidable c] {x y : Gen α} (hx : c → Emits f bound kind x)
    (hy : ¬ c → Emits f bound kind y) : Emits f bound kind (if c then x else y) := by
  split
  · exact hx ‹_›
  · exact hy ‹_›

theorem map {g : α → β} {kind' : β → Prop} {step : Gen α}
    (h : Emits f bound (fun a => kind' (g a)) step) : Emits f bound kind' (g <$> step) := by
  intro s b t hs hstep
  obtain ⟨a, ha, rfl⟩ := map_ok.1 hstep
  exact h s a t hs ha

end Emits

/-- The place of an expression is the same in all frames with these scopes. -/
theorem placeOf_emits (env : Env) (e : Expr) :
    Emits f bound (fun found => env.place? f e = .ok found) (placeOf env e) := by
  refine .still fun s found t hs h => ?_
  obtain ⟨hfound, rfl⟩ := placeOf_ok.1 h
  exact ⟨rfl, (place?_congr hs e).symm.trans hfound⟩

theorem targetOf_emits (env : Env) (e : Expr) :
    Emits f bound (fun found => env.place? f e = .ok (some found)) (targetOf env e) := by
  refine .still fun s found t hs h => ?_
  obtain ⟨hfound, rfl⟩ := targetOf_ok.1 h
  exact ⟨rfl, place?_of_target ((target_congr hs e).symm.trans hfound)⟩

theorem typeOfExpr_emits (env : Env) (e : Expr) :
    Emits f bound (fun _ => True) (typeOfExpr env e) := by
  refine .still fun s found t hs h => ?_
  obtain ⟨-, rfl⟩ := typeOfExpr_ok.1 h
  exact ⟨rfl, trivial⟩

/-- A string gets the next label of the pool. -/
theorem intern_emits (value : String) : Emits f bound (Pooled bound) (intern value) := by
  intro s name t hs h
  unfold intern at h
  cases modifyGet_ok.1 h
  have hlength : (s.strings.values ++ [value]).length = s.strings.values.length + 1 :=
    List.length_append
  refine ⟨hs, ?_, fun hle => ⟨s.strings.values.length, ?_, rfl⟩⟩
  · show s.strings.values.length ≤ (s.strings.values ++ [value]).length
    omega
  · have hle : (s.strings.values ++ [value]).length ≤ bound := hle
    omega

/-- What is computed between a push and a pop. -/
theorem saved_emits {step : Gen Code} (hstep : Emits f bound (Made bound ms) step) :
    Emits f bound (Made bound ms) (saved step) := by
  intro s code t hs h
  obtain ⟨inner, u, frame, hrun, hpop, rfl, rfl⟩ := saved_ok.1 h
  obtain ⟨hu, hle, hinner⟩ := hstep { s with frame := s.frame.push } inner u hs hrun
  unfold Frame.pop? at hpop
  split at hpop
  · cases hpop
  · cases hpop
    exact ⟨hu, hle, fun hbound => (hinner hbound).saved⟩

-- ============================================================== operands

/-- Whether code and the operand behind it meet memory as demanded together:
the code first, and then an operation on the operand. -/
structure Supplies (bound : Nat) (ms : List Meeting) (code : Code) (operand : Operand) : Prop where
  works : operand.Works
  meets : ∃ first last, ms = first ++ last ∧ Made bound first code
    ∧ Heeds last operand.memory?.toList

namespace Supplies

variable {code : Code} {operand : Operand}

/-- What is a value or a register is met by the code alone. -/
theorem value (hcode : Made bound ms code) (hworks : operand.Works)
    (hnone : operand.memory? = none) : Supplies bound ms code operand := by
  refine ⟨hworks, ms, [], (List.append_nil ms).symm, hcode, ?_⟩
  rw [hnone]
  exact .nil

/-- What is a place is met by the operation. -/
theorem place {w : Width} {place : Place} (h : m w place) :
    Supplies bound [m] [] (.mem w place) :=
  ⟨trivial, [], [m], rfl, .nil, .cons h .nil⟩

theorem behind {first : Code} (hfirst : Made bound ms first)
    (h : Supplies bound ms' code operand) : Supplies bound (ms ++ ms') (first ++ code) operand := by
  obtain ⟨hworks, front, last, rfl, hcode, hlast⟩ := h
  exact ⟨hworks, ms ++ front, last, (List.append_assoc ms front last).symm, hfirst.append hcode,
    hlast⟩

theorem arith (h : Supplies bound ms code operand) (op : Arith) (w : Width) :
    Made bound ms (code ++ arithCode op w operand) := by
  obtain ⟨hworks, first, last, rfl, hcode, hlast⟩ := h
  exact hcode.append (arithCode_made op w hworks hlast)

theorem compare (h : Supplies bound ms code operand) (op : Comparison) (w : Width) :
    Made bound ms (code ++ [.alu .cmp (reg w .rax) operand, .set op .rax]) := by
  obtain ⟨hworks, first, last, rfl, hcode, hlast⟩ := h
  have hcompare : Made bound last [.alu .cmp (reg w .rax) operand, .set op .rax] :=
    ⟨.two ⟨works_rax w, hworks⟩ ⟨nofun, nofun⟩, by cases operand <;> exact hlast⟩
  exact hcode.append hcompare

end Supplies

-- ========================================================== expressions

section Expressions

variable {e lhs rhs : Expr} {run runLeft runRight : Gen (Code × Ty)}

/-- Whether a step answers with code of the make, beside something else. -/
abbrev EmitsCode {β : Type} (f : Frame) (bound : Nat) (ms : List Meeting)
    (step : Gen (Code × β)) : Prop :=
  Emits f bound (fun r => Made bound ms r.1) step

/-- A value that is converted meets what its expression refers to: a place is
loaded in its new type, everything else is converted in rax. -/
theorem evalTo_emits (hrun : EmitsCode f bound (demands env f e.references) run) (ty : Ty) :
    Emits f bound (Made bound (demands env f e.references)) (evalTo env e run ty) := by
  intro s code t hs h
  rcases evalTo_ok h with ⟨place, source, hplace, hload, rfl⟩
    | ⟨first, source, conversion, hfirst, hconversion, rfl⟩
  · rw [place?_congr hs] at hplace
    rw [references_of_place hplace]
    exact ⟨hs, Nat.le_refl _, fun _ => loadInto_made (Or.inl rfl) (Names.opens hplace) hload⟩
  · obtain ⟨ht, hle, hmade⟩ := hrun s _ t hs hfirst
    exact ⟨ht, hle, fun hbound => (hmade hbound).extend (convert_made hconversion)⟩

/-- The right operand of an operation. -/
theorem rightOperand_emits (hrun : EmitsCode f bound (demands env f e.references) run) (ty : Ty) :
    Emits f bound (fun r => Supplies bound (demands env f e.references) r.1 r.2)
      (rightOperand env e run ty) := by
  have hrcx : ∀ w, (reg w .rcx).Works := fun w => works_reg (Or.inr rfl)
  unfold rightOperand
  refine (Emits.lift fun w hw => hw).bind fun width => .ite (fun hconst => ?_) fun _ => ?_
  · rw [Expr.references_constant hconst]
    refine Emits.bind (.lift fun lit hlit => hlit) fun lit => .ite (fun _ => .fail _) fun _ => ?_
    refine Emits.bind (.lift fun n hn => hn) fun n => .ite (fun _ => ?_) fun _ => ?_
    · exact .pure fun _ _ _ => .value .nil trivial rfl
    · exact .pure fun _ _ _ => .value ⟨.one ⟨hrcx .qword, trivial⟩, .nil⟩ (hrcx width) rfl
  · refine (placeOf_emits env e).bind fun found => ?_
    cases found with
    | none =>
        have hmoved : Emits f bound (Made bound (demands env f e.references)) (do
            let code ← evalTo env e run ty
            return code ++ [.mov (reg width .rcx) (reg width .rax)]) := by
          exact (evalTo_emits hrun ty).bind fun code => .pure fun hcode =>
            hcode.extend ⟨.one ⟨hrcx width, works_rax width⟩, .nil⟩
        exact (saved_emits hmoved).bind fun code => .pure fun hcode _ _ =>
          .value hcode (hrcx width) rfl
    | some found =>
        obtain ⟨place, source⟩ := found
        refine .ite (fun _ => .fail _) fun _ => ?_
        refine Emits.bind (.lift fun src hsrc => hsrc) fun src => .ite (fun hsame => ?_) fun _ => ?_
        · refine .pure fun hsrc hfound _ => ?_
          rw [hsame] at hsrc
          rw [references_of_place hfound]
          exact .place ((Names.opens hfound).whole hsrc)
        · refine Emits.bind (.lift fun code hcode => hcode) fun code => .pure ?_
          intro hcode _ hfound _
          rw [references_of_place hfound]
          exact .value (loadInto_made (Or.inr rfl) (Names.opens hfound) hcode) (hrcx width) rfl

/-- Both operands of an operation, the left one first. -/
theorem operands_emits (hleft : EmitsCode f bound (demands env f lhs.references) runLeft)
    (hright : EmitsCode f bound (demands env f rhs.references) runRight) :
    Emits f bound
      (fun r => Supplies bound (demands env f (lhs.references ++ rhs.references)) r.2.2.1 r.2.2.2)
      (operands env lhs rhs runLeft runRight) := by
  unfold operands
  refine (typeOfExpr_emits env lhs).bind fun left => ?_
  refine (typeOfExpr_emits env rhs).bind fun right => .ite (fun _ => .fail _) fun _ => ?_
  refine .ite (fun _ => .fail _) fun _ => Emits.bind (.lift fun w hw => hw) fun width => ?_
  refine (evalTo_emits hleft _).bind fun first => ?_
  refine (rightOperand_emits hright _).bind fun second => .pure ?_
  intro hsecond hfirst _ _ _
  rw [demands, List.map_append]
  exact hsecond.behind hfirst

theorem evalArith_emits (op : Arith)
    (hleft : EmitsCode f bound (demands env f lhs.references) runLeft)
    (hright : EmitsCode f bound (demands env f rhs.references) runRight) :
    EmitsCode f bound (demands env f (lhs.references ++ rhs.references))
      (evalArith env op lhs rhs runLeft runRight) :=
  (operands_emits hleft hright).bind fun r => .pure fun hr => hr.arith op r.2.1

theorem evalCompare_emits (op : Comparison)
    (hleft : EmitsCode f bound (demands env f lhs.references) runLeft)
    (hright : EmitsCode f bound (demands env f rhs.references) runRight) :
    EmitsCode f bound (demands env f (lhs.references ++ rhs.references))
      (evalCompare env op lhs rhs runLeft runRight) :=
  (operands_emits hleft hright).bind fun r => .pure fun hr => hr.compare op r.2.1

/-- What is stored is computed first, and then the place is met once. -/
theorem storeValue_emits {place : Place} {target : Ty} (hplace : Open m place target)
    (hrun : EmitsCode f bound (demands env f e.references) run) :
    Emits f bound (Made bound (demands env f e.references ++ [m]))
      (storeValue env place target e run) := by
  unfold storeValue
  refine .ite (fun hconst => ?_) fun _ => (placeOf_emits env e).bind fun found => ?_
  · rw [Expr.references_constant hconst]
    refine Emits.bind (.lift fun lit hlit => hlit) fun lit => .lift fun code hcode _ => ?_
    exact storeLiteral_made hplace hcode
  · cases found with
    | some found =>
        refine Emits.bind (.lift fun code hcode => hcode) fun code => ?_
        refine Emits.bind (.lift fun dst hdst => hdst) fun dst => .pure ?_
        intro hdst hcode hfound
        have hstore : Made bound [m] [.mov (.mem dst place) (reg dst .rax)] :=
          ⟨.one ⟨trivial, works_rax dst⟩, .cons (hplace.whole hdst) .nil⟩
        rw [references_of_place hfound]
        exact (loadInto_made (Or.inl rfl) (Names.opens hfound) hcode).append hstore
    | none =>
        refine hrun.bind fun r => Emits.bind (.lift fun code hcode => hcode) fun store => .pure ?_
        intro hstore hcode _
        exact hcode.append (storeRax_made hplace hstore)

/-- An assignment meets its target last, to store into it. -/
theorem assignPlain_emits (hright : EmitsCode f bound (demands env f rhs.references) runRight) :
    Emits f bound (Made bound (demands env f (rhs.references ++ [lhs])))
      (assignPlain env lhs rhs runRight) := by
  intro s code t hs h
  obtain ⟨⟨place, ty⟩, u, htarget, hstore⟩ := bind_ok.1 h
  obtain ⟨htarget, rfl⟩ := targetOf_ok.1 htarget
  rw [target_congr hs] at htarget
  rw [demands, List.map_append]
  exact storeValue_emits (Names.opens (place?_of_target htarget)) hright u code t hs hstore

theorem assignCompound_emits (op : Arith)
    (hleft : EmitsCode f bound (demands env f lhs.references) runLeft)
    (hright : EmitsCode f bound (demands env f rhs.references) runRight) :
    Emits f bound (Made bound (demands env f (lhs.references ++ rhs.references ++ [lhs])))
      (assignCompound env op lhs rhs runLeft runRight) := by
  refine (targetOf_emits env lhs).bind fun found => ?_
  refine (evalArith_emits op hleft hright).bind fun r => ?_
  refine Emits.bind (.lift fun code hcode => hcode) fun store => .pure ?_
  intro hstore hcode hfound
  rw [demands, List.map_append]
  exact hcode.append (storeRax_made (Names.opens hfound) hstore)

/-- The value of an assignment is loaded from its target. -/
theorem reloaded_emits {assign : Gen Code} {es : List Expr}
    (hassign : Emits f bound (Made bound (demands env f (es ++ [lhs]))) assign) :
    EmitsCode f bound (demands env f (es ++ [lhs, lhs])) (reloaded env lhs assign) := by
  refine (targetOf_emits env lhs).bind fun found => hassign.bind fun code => ?_
  refine Emits.bind (.lift fun load hload => hload) fun load => .pure ?_
  intro hload hcode hfound
  have hsplit : demands env f (es ++ [lhs, lhs]) =
      demands env f (es ++ [lhs]) ++ [Names env f lhs] := by
    simp only [demands, List.map_append, List.map_cons, List.map_nil, List.append_assoc,
      List.cons_append, List.nil_append]
  rw [hsplit]
  exact hcode.append (loadInto_made (Or.inl rfl) (Names.opens hfound) hload)

/-- A step as a value meets its operand twice, in either order. -/
theorem evalStep_emits (op : Arith) (fixity : Fixity) :
    EmitsCode f bound (demands env f [e, e]) (evalStep env op fixity e) := by
  unfold evalStep
  refine (targetOf_emits env e).bind fun found => ?_
  refine Emits.bind (.lift fun w hw => hw) fun width => ?_
  refine Emits.bind (.lift fun update hupdate => hupdate) fun update => ?_
  have hload : widthOf found.2 = .ok width → env.place? f e = .ok (some found) →
      Made bound [Names env f e] [.mov (reg width .rax) (.mem width found.1)] :=
    fun hwidth hfound =>
      ⟨.one ⟨works_rax width, trivial⟩, .cons ((Names.opens hfound).whole hwidth) .nil⟩
  cases fixity with
  | before =>
      exact .pure fun hupdate hwidth hfound =>
        (stepPlace_made (Names.opens hfound) hupdate).append (hload hwidth hfound)
  | after =>
      exact .pure fun hupdate hwidth hfound =>
        (hload hwidth hfound).append (stepPlace_made (Names.opens hfound) hupdate)

theorem evalSign_emits (negative : Bool)
    (hrun : EmitsCode f bound (demands env f e.references) run) :
    EmitsCode f bound (demands env f e.references) (evalSign env negative e run) := by
  unfold evalSign
  refine (typeOfExpr_emits env e).bind fun ty => .ite (fun _ => .fail _) fun _ => ?_
  refine (evalTo_emits hrun _).bind fun code => .ite (fun _ => ?_) fun _ => ?_
  · exact Emits.bind (.lift fun w hw => hw) fun width => .pure fun _ hcode _ =>
      hcode.extend ⟨.one ⟨nofun, nofun⟩, .nil⟩
  · exact .pure fun hcode _ => hcode

theorem evalConstant_emits : EmitsCode f bound [] (evalConstant e) := by
  unfold evalConstant
  refine Emits.bind (.lift fun lit hlit => hlit) fun lit => .ite (fun _ => .fail _) fun _ => ?_
  refine Emits.bind (.lift fun n hn => hn) fun n => ?_
  refine Emits.bind (.lift fun w hw => hw) fun width => .pure fun _ _ _ => ?_
  exact ⟨.one ⟨works_rax width, trivial⟩, .nil⟩

theorem evalPlace_emits : EmitsCode f bound (demands env f [e]) (evalPlace env e) := by
  unfold evalPlace
  refine (targetOf_emits env e).bind fun found => .ite (fun _ => .fail _) fun _ => ?_
  refine Emits.bind (.lift fun code hcode => hcode) fun code => .pure fun hcode hfound => ?_
  exact loadInto_made (Or.inl rfl) (Names.opens hfound) hcode

/-- The code of a value meets the references of its expression, in their
order. The induction is on the expression; what folds is one immediate. -/
theorem eval_emits (e : Expr) : EmitsCode f bound (demands env f e.references) (eval env e) := by
  induction e with
  | number lit => exact evalConstant_emits
  | string lit =>
      exact (intern_emits lit.value).bind fun label => .pure fun hlabel =>
        ⟨.one ⟨⟨nofun, nofun⟩, hlabel⟩, .nil⟩
  | ident i => exact evalPlace_emits
  | member object accessor field pos => exact evalPlace_emits
  | binary op lhs rhs constant operandsMatch pos ihl ihr =>
      cases constant with
      | true => exact evalConstant_emits
      | false =>
          cases op with
          | assign => exact reloaded_emits (assignPlain_emits ihr)
          | compound op => exact reloaded_emits (assignCompound_emits op ihl ihr)
          | arith op => exact evalArith_emits op ihl ihr
          | compare op => exact evalCompare_emits op ihl ihr
  | unary op fixity operand pos ih =>
      cases op with
      | plus => exact evalSign_emits false ih
      | minus => exact evalSign_emits true ih
      | not =>
          refine ih.bind fun r => Emits.bind (.lift fun w hw => hw) fun width => ?_
          exact .pure fun _ hcode =>
            hcode.extend ⟨.two ⟨works_rax width, trivial⟩ ⟨nofun, nofun⟩, .nil⟩
      | incr => exact evalStep_emits .add fixity
      | decr => exact evalStep_emits .sub fixity

theorem stepEffect_emits (op : Arith) :
    Emits f bound (Made bound (demands env f [e])) (stepEffect env op e) := by
  refine (targetOf_emits env e).bind fun found => ?_
  refine Emits.bind (.lift fun update hupdate => hupdate) fun update => .pure ?_
  exact fun hupdate hfound => stepPlace_made (Names.opens hfound) hupdate

/-- So does the code of an expression whose value nobody asks for. -/
theorem effect_emits (e : Expr) :
    Emits f bound (Made bound (demands env f e.effects)) (effect env e) := by
  cases e with
  | binary op lhs rhs constant operandsMatch pos =>
      cases op with
      | assign => exact assignPlain_emits (eval_emits rhs)
      | compound op => exact assignCompound_emits op (eval_emits lhs) (eval_emits rhs)
      | _ => exact (eval_emits _).map
  | unary op fixity operand pos =>
      cases op with
      | incr => exact stepEffect_emits .add
      | decr => exact stepEffect_emits .sub
      | _ => exact (eval_emits _).map
  | _ => exact (eval_emits _).map

/-- So does the code of a condition, which compares a place where it is. -/
theorem test_emits (e : Expr) :
    Emits f bound (Made bound (demands env f e.references)) (test env e) := by
  unfold test
  refine (placeOf_emits env e).bind fun found => ?_
  cases found with
  | some found =>
      refine .ite (fun _ => .fail _) fun _ => Emits.bind (.lift fun w hw => hw) fun width => ?_
      refine .pure fun hwidth hfound => ?_
      rw [references_of_place hfound]
      exact ⟨.one ⟨trivial, trivial⟩, .cons ((Names.opens hfound).whole hwidth) .nil⟩
  | none =>
      refine (eval_emits e).bind fun r => Emits.bind (.lift fun w hw => hw) fun width => ?_
      exact .pure fun _ hcode _ => hcode.extend ⟨.one ⟨works_rax width, trivial⟩, .nil⟩

end Expressions

end Codegen

end MiniC
