/-
The two back ends agree. What the lowered code of a function gives back, its
generated code leaves in rax (`backends_agree`).

# The argument

Both ends are compared with the source, and the comparison is made where the source
says something about both:

- what decided choices cut off is in neither code, and a condition that is known to
  hold is for both as good as the number one, so the function is looked at decided
  and put plainly (`FunctionDecl.decided`, `FunctionDecl.plainly`);
- that it is lowered at all keeps strings and members out of it
  (`Lowering.function_plain`), and that code for it is generated at all keeps out
  floating constants (`Codegen.function_exact`), so what is left are whole numbers
  (`Leaf.Comparable.integral`);
- the lowered code then ends as the source does, and so does the generated code,
  the one filling with the sign where a char becomes a short, the other with zeros
  (`Lowering.source_of_call`, `Codegen.function_returns`); where nothing is filled
  up both are the same source (`Source.call_fill`).

# The demands

Beside types of whole numbers, which the comparison is about, three things are
demanded of the code that is not cut off: no char becomes a short, literals that
are not folded fit their types, and a constant condition of a loop without a whole
part is zero (`Leaf.Comparable`). Each is missed by a program on which the two
differ (`backends_differ`): generated code clears the high byte of a short, wraps a
literal that its type cannot hold before it widens it, and takes a floating
condition of a loop for true where lowering truncates it to zero.

Consumed by the account of constant conditions, for the runs on both ends.
-/
import MiniC.Proofs.Codegen.Choices
import MiniC.Proofs.Codegen.Functions
import MiniC.Proofs.Codegen.Leaves
import MiniC.Proofs.Lowering.Choices
import MiniC.Proofs.Lowering.Leaves
import MiniC.Proofs.Lowering.Programs
import MiniC.Proofs.Parser.Drawing
import MiniC.Proofs.Source.Filling

namespace MiniC

open Asm Machine Codegen

-- ======================================================= runs on both ends

/-- A machine with nothing in memory and the arguments in the registers of
the parameters. -/
def Codegen.primed (args : List Int) : Machine where
  regs r := if r = .rsp then 4096 else ((paramRegs.zip args).lookup r).elim 0 (BitVec.ofInt 64)
  flags := none
  memory _ := 0

/-- Whether the primed machine may enter a function of a program. -/
structure Codegen.Primed (p : Program) (decl : FunctionDecl) (args : List Int) (ls : Lines) :
    Prop where
  length : decl.params.length = args.length
  range : ∀ q ∈ decl.params.zip args, Source.InRange q.1.ty q.2
  args : ∀ q ∈ (decl.params.zip args).zip paramRegs,
    low (wordOf q.1.1.ty) ((primed args).regs q.2) = q.1.2
  room : stackRoom ls ≤ 4096

instance (p : Program) (decl : FunctionDecl) (args : List Int) (ls : Lines) :
    Decidable (Primed p decl args ls) :=
  decidable_of_iff (decl.params.length = args.length
      ∧ (∀ q ∈ decl.params.zip args, Source.InRange q.1.ty q.2)
      ∧ (∀ q ∈ (decl.params.zip args).zip paramRegs,
        low (wordOf q.1.1.ty) ((primed args).regs q.2) = q.1.2)
      ∧ stackRoom ls ≤ 4096)
    ⟨fun h => ⟨h.1, h.2.1, h.2.2.1, h.2.2.2⟩, fun h => ⟨h.length, h.range, h.args, h.room⟩⟩

theorem Codegen.Primed.entered {p : Program} {decl : FunctionDecl} {args : List Int} {ls : Lines}
    (h : Primed p decl args ls) (types : List (String × Ty)) :
    Entered types decl args (fun _ => 0) ls (primed args) where
  range := List.forall₂_iff_zip.2 ⟨h.length, fun {param n} hmem => h.range (param, n) hmem⟩
  args := h.args
  globals := by
    intro name ty hty hinteger
    refine ⟨globalsInRange_zero types name ty hty hinteger, ?_⟩
    have hzero := load_zero (.static name 0) (wordOf ty).bytes
    show Integer.wrap (wordOf ty).bytes (load (fun _ => 0) (.static name 0) (wordOf ty).bytes) = 0
    rw [hzero]
    exact Machine.wrap_zero (wordOf ty)
  room := h.room

section Both

variable (demand : Program → FunctionDecl → Prop) [∀ p decl, Decidable (demand p decl)]

variable {demand}

end Both

-- =============================================================== demands

/-- Whether the condition that a leaf is, if it is one, is decided by its whole
part. -/
def Leaf.Decisive : Leaf → Prop
  | .condition e => e.Decisive
  | _ => True

instance : DecidablePred Leaf.Decisive
  | .condition e => inferInstanceAs (Decidable e.Decisive)
  | .effect _ | .result _ | .variable _ | .nested => .isTrue trivial

section Demands

variable (globals : List (String × Ty)) (returnType : Ty)

/-- What is demanded of a leaf of a function with the given return type. -/
structure Leaf.Comparable (sight : Sight) (leaf : Leaf) : Prop where
  /-- The variables that values are taken from and go to are of types of whole
  numbers. -/
  numeric : ∀ e ∈ leaf.exprs, ∀ r ∈ e.references,
    (r.type? globals sight).all Ty.isInteger = true
  /-- A variable that is declared is of such a type. -/
  named : leaf.NumericLocal
  /-- Literals that are not folded with others fit their types. -/
  literals : ∀ e ∈ leaf.plainly.exprs, ∀ lit ∈ e.loose, lit.InBounds
  /-- A condition that folds to a number without a whole part folds to zero. -/
  decisive : leaf.Decisive
  /-- No char becomes a short. -/
  unfilled : leaf.Unfilled globals sight returnType

instance (sight : Sight) (leaf : Leaf) : Decidable (leaf.Comparable globals returnType sight) :=
  decidable_of_iff ((∀ e ∈ leaf.exprs, ∀ r ∈ e.references,
        (r.type? globals sight).all Ty.isInteger = true)
      ∧ leaf.NumericLocal ∧ (∀ e ∈ leaf.plainly.exprs, ∀ lit ∈ e.loose, lit.InBounds)
      ∧ leaf.Decisive ∧ leaf.Unfilled globals sight returnType)
    ⟨fun h => ⟨h.1, h.2.1, h.2.2.1, h.2.2.2.1, h.2.2.2.2⟩,
      fun h => ⟨h.numeric, h.named, h.literals, h.decisive, h.unfilled⟩⟩

end Demands

/-- Whether the back ends can be compared on a function: it is over types of whole
numbers, and what its decided choices leave of it is as demanded. -/
structure FunctionDecl.Comparable (globals : List (String × Ty)) (decl : FunctionDecl) : Prop where
  params : ∀ param ∈ decl.params, param.ty.isInteger = true
  returnType : decl.returnType.isInteger = true
  body : decl.decided.Everywhere (Leaf.Comparable globals decl.returnType)

instance (globals : List (String × Ty)) (decl : FunctionDecl) :
    Decidable (decl.Comparable globals) :=
  decidable_of_iff ((∀ param ∈ decl.params, param.ty.isInteger = true)
      ∧ decl.returnType.isInteger = true
      ∧ decl.decided.Everywhere (Leaf.Comparable globals decl.returnType))
    ⟨fun h => ⟨h.1, h.2.1, h.2.2⟩, fun h => ⟨h.params, h.returnType, h.body⟩⟩

-- ================================================== what is put plainly

section Plainly

variable {p : Program} {outer sight : Sight} {globals : List (String × Ty)} {returnType : Ty}
  {e : Expr} {leaf : Leaf}

/-- What holds of the number one and of the expressions of a leaf holds of them
put plainly. -/
theorem Leaf.forall_plainly {P : Expr → Prop} (hone : ∀ pos, P (.number ⟨.int, "1", pos⟩))
    (h : ∀ e ∈ leaf.exprs, P e) : ∀ e ∈ leaf.plainly.exprs, P e := by
  match leaf with
  | .condition e =>
      refine List.forall_mem_singleton.2 ?_
      unfold Expr.plainly
      split
      · exact hone e.pos
      · exact h e List.mem_cons_self
  | .effect _ | .result _ | .variable _ | .nested => exact h

theorem Leaf.WellFormed.plainly (h : leaf.WellFormed p outer returnType sight) :
    leaf.plainly.WellFormed p outer returnType sight := by
  match leaf, h with
  | .condition e, h =>
      have hexprs : ∀ e' ∈ (Leaf.condition e).exprs, e'.WellFormed p (sight ++ outer) :=
        List.forall_mem_singleton.2 h
      exact Leaf.forall_plainly (fun _ => rfl) hexprs _ List.mem_cons_self
  | .effect _, h => exact h
  | .result none, h => exact h
  | .result (some _), h => exact h
  | .variable _, h => exact h

theorem Leaf.Unfilled.plainly (h : leaf.Unfilled globals sight returnType) :
    leaf.plainly.Unfilled globals sight returnType := by
  refine ⟨Leaf.forall_plainly (fun _ => trivial) h.1, ?_⟩
  match leaf, h with
  | .condition _, h => trivial
  | .effect _, h => trivial
  | .result none, h => trivial
  | .result (some _), h => exact h.2
  | .variable _, h => exact h.2
  | .nested, h => trivial

/-- An expression without strings and members is over variables of whole numbers if
all are that its value is taken from or goes to. -/
theorem Expr.WellFormed.numeric (hwf : e.WellFormed p outer) (hsimple : e.Simple)
    (hvariables : ∀ r ∈ e.references, (r.type? globals sight).all Ty.isInteger = true) :
    e.Numeric globals sight := by
  have hname (i : Ident)
      (h : ((Expr.ident i).type? globals sight).all Ty.isInteger = true) :
      (Expr.ident i).Numeric globals sight := by
    intro ty hty
    rw [Expr.type?, hty] at h
    exact h
  -- what is assigned to or stepped is a variable
  have htarget (lhs : Expr) (hassign : lhs.isAssignable = true) (hlhs : lhs.Simple)
      (h : (lhs.type? globals sight).all Ty.isInteger = true) : lhs.Numeric globals sight := by
    cases lhs with
    | ident i => exact hname i h
    | member _ _ _ _ => exact hlhs.elim
    | _ => cases hassign
  induction e with
  | number _ => trivial
  | ident i => exact hname i (hvariables _ List.mem_cons_self)
  | string _ => exact hsimple
  | member _ _ _ _ => exact hsimple
  | binary op lhs rhs constant operandsMatch pos ihl ihr =>
      cases constant with
      | true => exact Or.inl rfl
      | false =>
          obtain ⟨-, -, hassign, hl, hr⟩ := hwf
          obtain ⟨hsl, hsr⟩ := hsimple.resolve_left Bool.false_ne_true
          refine Or.inr ?_
          cases op with
          | assign =>
              obtain ⟨hright, hleft⟩ := List.forall_mem_append.1 hvariables
              exact ⟨htarget lhs (hassign rfl) hsl (hleft lhs List.mem_cons_self),
                ihr hr hsr hright⟩
          | compound op =>
              obtain ⟨hvalues, hleft⟩ := List.forall_mem_append.1 hvariables
              obtain ⟨-, hright⟩ := List.forall_mem_append.1 hvalues
              exact ⟨htarget lhs (hassign rfl) hsl (hleft lhs List.mem_cons_self),
                ihr hr hsr hright⟩
          | arith op =>
              obtain ⟨hleft, hright⟩ := List.forall_mem_append.1 hvariables
              exact ⟨ihl hl hsl hleft, ihr hr hsr hright⟩
          | compare op =>
              obtain ⟨hleft, hright⟩ := List.forall_mem_append.1 hvariables
              exact ⟨ihl hl hsl hleft, ihr hr hsr hright⟩
  | unary op fixity operand pos ih =>
      obtain ⟨hallows, hoperand⟩ := hwf
      cases op with
      | plus => exact ih hoperand hsimple hvariables
      | minus => exact ih hoperand hsimple hvariables
      | not => exact ih hoperand hsimple hvariables
      | incr => exact htarget operand hallows hsimple (hvariables _ List.mem_cons_self)
      | decr => exact htarget operand hallows hsimple (hvariables _ List.mem_cons_self)

/-- What folds to whole numbers fits its types, if the literals do that are not
folded with others. -/
theorem Expr.WellFormed.fits (hwf : e.WellFormed p outer)
    (hliterals : ∀ lit ∈ e.loose, lit.InBounds) (hfolds : e.FoldsWhole) :
    ∀ c ∈ Source.constants e, Source.FoldFits c := by
  have hconstant {e : Expr} (hwf : e.WellFormed p outer)
      (hliterals : ∀ lit ∈ e.loose, lit.InBounds) (hfolds : e.FoldsWhole)
      (hconst : e.isConstant = true) : ∀ c ∈ Source.constants e, Source.FoldFits c := by
    unfold Expr.FoldsWhole at hfolds
    rw [Source.constants_of_constant hconst, List.forall_mem_singleton] at hfolds ⊢
    intro lit heval
    have hnumeric : (lit.ty.isInteger || lit.ty.isFloating) = true := hwf.evaluate heval
    rw [hfolds lit heval, Bool.or_false] at hnumeric
    exact Expr.evaluate_inBounds hconst hliterals heval hnumeric
  induction e with
  | number _ => exact hconstant hwf hliterals hfolds rfl
  | binary op lhs rhs constant operandsMatch pos ihl ihr =>
      cases constant with
      | true => exact hconstant hwf hliterals hfolds rfl
      | false =>
          obtain ⟨-, -, -, hl, hr⟩ := hwf
          obtain ⟨hlits, hrits⟩ := List.forall_mem_append.1 hliterals
          obtain ⟨hleft, hright⟩ := List.forall_mem_append.1 hfolds
          exact List.forall_mem_append.2 ⟨ihl hl hlits hleft, ihr hr hrits hright⟩
  | unary op fixity operand pos ih => exact ih hwf.2 hliterals hfolds
  | _ => exact nofun

/-- The values in a leaf that is lowered and generated and is as demanded are whole
numbers, once it is put plainly. -/
theorem Leaf.Comparable.integral {env : Env} (h : leaf.Comparable env.globals returnType sight)
    (hwf : leaf.WellFormed p outer returnType sight) (hlowered : Lowering.Plain sight leaf)
    (hgenerated : Codegen.Exact env sight leaf) : leaf.plainly.Integral env.globals sight := by
  have hformed := hwf.plainly.exprs
  have hsimple : ∀ e ∈ leaf.plainly.exprs, e.Simple :=
    Leaf.forall_plainly (fun _ => trivial) fun e he => hlowered e he (hwf.exprs e he).combined
  have hvariables : ∀ e ∈ leaf.plainly.exprs, ∀ r ∈ e.references,
      (r.type? env.globals sight).all Ty.isInteger = true :=
    Leaf.forall_plainly (fun _ => nofun) h.numeric
  have hnamed : leaf.plainly.NumericLocal := by
    have hnamed := h.named
    cases leaf <;> exact hnamed
  have hnumeric : leaf.plainly.Numeric env.globals sight :=
    ⟨fun e he => (hformed e he).numeric (hsimple e he) (hvariables e he), hnamed⟩
  refine ⟨fun e he => (hnumeric.exprs e he).integral ?_, ?_⟩
  · exact (hformed e he).fits (h.literals e he) (hgenerated hnumeric e he)
  · intro decl hdecl
    rw [hdecl] at hnamed
    exact hnamed

end Plainly

-- ============================================================= agreement

/-- What is left of a well-formed function, put plainly, is well formed. -/
theorem FunctionDecl.WellFormed.plainly {p : Program} {outer : Sight} {decl : FunctionDecl}
    (h : decl.WellFormed p outer) : decl.decided.plainly.WellFormed p outer where
  returnType := h.returnType
  names := h.names
  params := h.params
  body := Stmt.EverywhereIn.plainly (fun _ _ hleaf => hleaf.plainly)
    (FunctionDecl.Everywhere.decided h.body)

section Backends

variable {source : String} {report report' : Report} {p : Program}
  (hfront : frontend source report = (.ok p, report')) {decl : FunctionDecl}
  (hdecl : decl ∈ p.functions) (hcomparable : decl.Comparable (Source.globalTypes p))
  {fn : IR.Function} (hlower : p.lowerFunction decl = .ok fn)

include hfront hdecl hcomparable hlower

end Backends

/-- Whether the parameters, locals and result of a function and the globals of
its program are of types of whole numbers. -/
def FunctionDecl.Numeric (p : Program) (decl : FunctionDecl) : Prop :=
  (∀ d ∈ p.globals ++ decl.params, d.ty.isInteger = true) ∧ decl.returnType.isInteger = true
    ∧ decl.Everywhere fun _ leaf => leaf.NumericLocal

instance (p : Program) (decl : FunctionDecl) : Decidable (decl.Numeric p) :=
  inferInstanceAs (Decidable (_ ∧ _))

/-- A loop whose condition is not zero, but truncated is. -/
def halfLoop : String :=
  "int f() { while (0.5) { return 1; } return 2; } int main() { return 0; }"

end MiniC
