/-
The words of a parsed program: what the account of words comes to for a whole
source. Every literal in the body of a function is one that a word spells or that
came about when a sign was folded into another, and parameters and variables have
identifiers for names (`frontend_worded`).

The account says this of a declaration relative to those that were given before,
and starts with none, so it covers them all. What the tokens are is known from
the scanner: each lexeme of a source is spelled by the piece it was cut from.

# Truth values

A literal of the type bool is zero or one as the source writes it, and none comes
about otherwise. So a truth value that decides a condition is zero or one
(`Expr.Spelled.bool_inBounds`), which is what the emitted code relies on when it
compares it with zero in one byte. Consumed by the proof that all stages decide
alike and by the account of the names in lowered functions.
-/
import MiniC.Proofs.Lowering.Constants
import MiniC.Proofs.Parser.Declarations
import MiniC.Proofs.Parser.Literals

namespace MiniC

-- ============================================================== programs

/-- Whether the literals of all expressions of leaves are spelled. -/
def AllSpelled (leaves : List Leaf) : Prop := ∀ leaf ∈ leaves, ∀ e ∈ leaf.exprs, e.Spelled

/-- The functions of a program that is read from words of a source are put
together from them. -/
theorem parse_worded {tokens : List Token} {report report' : Report} {p : Program}
    (htokens : ∀ token ∈ tokens, Parser.Worded token)
    (h : parse tokens report = (.ok p, report')) : ∀ st ∈ p.body, Parser.WordedBody st := by
  obtain ⟨s, hprogram, -⟩ := Parser.program_of_parse h
  have hstart : Parser.InWords [] (Parser.initial tokens report) := ⟨htokens, nofun⟩
  have hread : (Parser.wording []).Holds () Parser.program _ := Parser.program_holds trivial
  obtain ⟨_, -, t, -, ht, rfl⟩ := Parser.Leads.ok hread hstart hprogram
  exact fun st hst => (ht.behind st hst).resolve_left List.not_mem_nil

/-- The functions of an accepted text are put together from its words. -/
theorem frontend_worded {source : String} {report report' : Report} {p : Program}
    (h : frontend source report = (.ok p, report')) : ∀ decl ∈ p.functions, decl.Worded := by
  intro decl hdecl
  obtain ⟨st, hst, heq⟩ := List.mem_filterMap.1 hdecl
  have hworded := parse_worded (fun _ htoken => token_spelled htoken) (parse_of_frontend h) st hst
  cases st with
  | function decl' =>
      cases heq
      exact hworded
  | _ => cases heq

/-- The literals in the functions of an accepted text are spelled. -/
theorem frontend_spelled {source : String} {report report' : Report} {p : Program}
    (h : frontend source report = (.ok p, report')) :
    ∀ decl ∈ p.functions, AllSpelled decl.leaves :=
  fun decl hdecl leaf hleaf => ((frontend_worded h decl hdecl).leaves leaf hleaf).exprs

-- ========================================================== truth values

/-- A constant of spelled literals that is a truth value is spelled zero or
one. -/
theorem Expr.Spelled.bool_text {e : Expr} {lit : NumberLiteral} (h : e.Spelled)
    (hconst : e.isConstant = true) (heval : e.evaluate = .ok lit) (hty : lit.ty = .bool) :
    lit.text = "0" ∨ lit.text = "1" := by
  cases e, hconst using Source.constant_cases with
  | number found =>
      cases heval
      have hspelled : lit.Spelled := h lit List.mem_cons_self
      exact hspelled.bool_text hty
  | folded op lhs rhs operandsMatch pos =>
      unfold Expr.evaluate at heval
      rw [if_pos rfl] at heval
      obtain ⟨a, -, heval⟩ := Steps.except_bind_ok.1 heval
      obtain ⟨b, -, heval⟩ := Steps.except_bind_ok.1 heval
      exact NumberLiteral.bool_text_of_fold heval hty

/-- So it is zero or one. -/
theorem Expr.Spelled.bool_inBounds {e : Expr} {lit : NumberLiteral} (h : e.Spelled)
    (hconst : e.isConstant = true) (heval : e.evaluate = .ok lit) (hty : lit.ty = .bool) :
    lit.InBounds := by
  intro _
  obtain ⟨ty, text, pos⟩ := lit
  obtain rfl : ty = .bool := hty
  rcases h.bool_text hconst heval rfl with rfl | rfl
  · exact Source.boolean_fits false pos
  · exact Source.boolean_fits true pos

end MiniC
