/-
What may be asked of the instructions of a function: that types agree where
values meet (`Instr.Typed`), that operations are applied to the types they
are defined for (`Instr.Legal`), and that constants are numbers of their
types (`Value.Fits`).

All three are questions about single instructions, given the type that the function
returns, so they hold of a function if they hold of every instruction it has
(`Function.Throughout`). A builder adds an instruction to its last block or opens an
empty one, and so keeps up whatever holds of every instruction it adds
(`throughout_emit`). Which question it is plays no part in that, and the return type
is fixed from the start. The last two are decidable, so that a function that breaks
them can be exhibited.

Consumed by the proofs about lowering.
-/
import Mathlib.Algebra.Group.Int.Defs
import MiniC.Integer
import MiniC.Proofs.IR.Graph

namespace MiniC.IR

-- ========================================================= instructions

/-- Whether types agree in a definition. -/
def Definition.Typed : Definition → Prop
  | .load _ => True
  | .arith _ ty lhs rhs => lhs.ty = ty ∧ rhs.ty = ty
  | .compare _ lhs rhs => lhs.ty = rhs.ty
  | .cast _ _ _ => True

/-- Whether types agree in an instruction of a function with the given
return type. -/
def Instr.Typed (returnType : Ty) : Instr → Prop
  | .alloca _ => True
  | .define _ definition => definition.Typed
  | .store value slot => value.ty = slot.ty
  | .ret (some value) => value.ty = returnType ∧ returnType ≠ .void
  | .ret none => returnType = .void
  | .jump _ => True
  | .branch condition _ _ => condition.ty = .i1

/-- Whether a definition is an operation on the types it is defined for: a
change of width goes to a type that is strictly narrower or wider. -/
def Definition.Legal : Definition → Prop
  | .load _ => True
  | .arith _ _ lhs rhs => lhs.ty.isInteger = true ∧ rhs.ty.isInteger = true
  | .compare _ lhs rhs => lhs.ty.isInteger = true ∧ rhs.ty.isInteger = true
  | .cast op value ty =>
    value.ty.isInteger = true ∧ ty.isInteger = true
      ∧ if op = .trunc then ty.bits < value.ty.bits else value.ty.bits < ty.bits

/-- Whether an instruction is an operation on the types it is defined
for. -/
def Instr.Legal : Instr → Prop
  | .define _ definition => definition.Legal
  | _ => True

instance : DecidablePred Definition.Legal
  | .load _ => .isTrue trivial
  | .arith _ _ _ _ => inferInstanceAs (Decidable (_ ∧ _))
  | .compare _ _ _ => inferInstanceAs (Decidable (_ ∧ _))
  | .cast _ _ _ => inferInstanceAs (Decidable (_ ∧ _ ∧ _))

instance : DecidablePred Instr.Legal
  | .define _ definition => inferInstanceAs (Decidable definition.Legal)
  | .alloca _ | .store _ _ | .ret _ | .jump _ | .branch _ _ _ => .isTrue trivial

/-- Whether a number is one of an integer type: a bit, or a number in two's
complement. -/
def Ty.Contains (ty : Ty) (n : Int) : Prop :=
  if ty = .i1 then 0 ≤ n ∧ n ≤ 1 else -2 ^ (ty.bits - 1) ≤ n ∧ n < 2 ^ (ty.bits - 1)

instance (ty : Ty) (n : Int) : Decidable (ty.Contains n) :=
  inferInstanceAs (Decidable (ite _ _ _))

/-- Whether a value is no constant of an integer type, or the text of the
constant is a number of the type. -/
def Value.Fits : Value → Prop
  | .constant ty text => ty.isInteger = true → ∃ n ∈ Integer.ofText? text, ty.Contains n
  | _ => True

instance : DecidablePred Value.Fits
  | .constant _ _ => inferInstanceAs (Decidable (_ → _))
  | .temp _ _ | .argument _ _ => .isTrue trivial

-- ============================================================= functions

/-- Whether something holds of every instruction of a function. -/
def Function.Throughout (fn : Function) (G : Instr → Prop) : Prop :=
  ∀ block ∈ fn.blocks, ∀ instr ∈ block.body, G instr

instance (fn : Function) (G : Instr → Prop) [DecidablePred G] : Decidable (fn.Throughout G) :=
  inferInstanceAs (Decidable (∀ block ∈ fn.blocks, ∀ instr ∈ block.body, G instr))

section Throughout

variable {G : Instr → Prop} {b : Builder}

/-- An instruction of the function was there before or is the one that was added. -/
theorem mem_addToLast {instr other : Instr} {blocks : List Block} {block : Block}
    (hblock : block ∈ Builder.addToLast instr blocks) (hother : other ∈ block.body) :
    other = instr ∨ ∃ old ∈ blocks, other ∈ old.body := by
  induction blocks with
  | nil => cases hblock
  | cons first rest ih =>
      cases rest with
      | nil =>
          rw [List.mem_singleton.1 hblock] at hother
          rcases List.mem_append.1 hother with hold | hnew
          · exact Or.inr ⟨first, List.mem_cons_self, hold⟩
          · exact Or.inl (List.mem_singleton.1 hnew)
      | cons second rest =>
          rcases List.mem_cons.1 hblock with hfirst | hlater
          · rw [hfirst] at hother
            exact Or.inr ⟨first, List.mem_cons_self, hother⟩
          · obtain heq | ⟨old, hold, hmem⟩ := ih hlater
            · exact Or.inl heq
            · exact Or.inr ⟨old, List.mem_cons_of_mem first hold, hmem⟩

/-- An empty block changes nothing. -/
theorem throughout_append (h : b.function.Throughout G) (label : String) :
    (b.append label).function.Throughout G := by
  intro block hblock instr hinstr
  rcases List.mem_append.1 hblock with hold | hnew
  · exact h block hold instr hinstr
  · rw [List.mem_singleton.1 hnew] at hinstr
    cases hinstr

/-- What holds of every instruction holds with one more of which it holds. -/
theorem throughout_push (h : b.function.Throughout G) {instr : Instr} (hinstr : G instr) :
    (b.push instr).function.Throughout G := by
  have hopen : ∀ {b' : Builder}, b'.function.Throughout G → ∀ block ∈
      Builder.addToLast instr b'.function.blocks, ∀ other ∈ block.body, G other := by
    intro b' h' block hblock other hother
    obtain rfl | ⟨old, hold, hmem⟩ := mem_addToLast hblock hother
    · exact hinstr
    · exact h' old hold other hmem
  unfold Builder.push
  by_cases hempty : b.function.blocks.isEmpty = true
  · rw [if_pos hempty]
    exact hopen (throughout_append (b := (b.unique "entry").2) h _)
  · rw [if_neg hempty]
    exact hopen h

/-- Behind an instruction of which it holds it holds throughout. -/
theorem throughout_emit (h : b.function.Throughout G) {instr : Instr} (hinstr : G instr) :
    (b.emit instr).function.Throughout G := by
  unfold Builder.emit
  by_cases hend : b.terminated = true
  · rw [if_pos hend]
    exact throughout_push (throughout_append (b := (b.unique "unreachable").2) h _) hinstr
  · rw [if_neg hend]
    exact throughout_push h hinstr

/-- A jump to a block that is opened adds the jump. -/
theorem throughout_jumpTo (h : b.function.Throughout G) {label : String}
    (hjump : G (.jump label)) : (b.jumpTo label).function.Throughout G := by
  unfold Builder.jumpTo
  by_cases hend : b.terminated = true
  · rw [if_pos hend]
    exact h
  · rw [if_neg hend]
    exact throughout_emit h hjump

theorem returnType_push (b : Builder) (instr : Instr) :
    (b.push instr).function.returnType = b.function.returnType := by
  unfold Builder.push
  by_cases hempty : b.function.blocks.isEmpty = true
  · rw [if_pos hempty]
    rfl
  · rw [if_neg hempty]

theorem returnType_emit (b : Builder) (instr : Instr) :
    (b.emit instr).function.returnType = b.function.returnType := by
  unfold Builder.emit
  by_cases hend : b.terminated = true
  · rw [if_pos hend]
    exact returnType_push _ _
  · rw [if_neg hend]
    exact returnType_push b instr

theorem returnType_jumpTo (b : Builder) (label : String) :
    (b.jumpTo label).function.returnType = b.function.returnType := by
  unfold Builder.jumpTo
  by_cases hend : b.terminated = true
  · rw [if_pos hend]
  · rw [if_neg hend]
    exact returnType_emit b _

end Throughout

end MiniC.IR
