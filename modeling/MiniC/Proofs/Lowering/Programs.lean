/-
Lowering preserves the meaning of accepted programs: what the source ends, the
lowered function ends too, with the same value and the same globals, however
many more instructions it is given (`lowerFunction_call`).

# What the front end has made sure of

The code relies on more than it checks. Expressions are built by `combine`, so
what folds does; a return has a value exactly when its function does, so the
value is never missing; and parameters have names of their own, so a call binds
each to its argument. All of that is read off the fact that the program is well
formed (`FunctionDecl.WellFormed.followable`).

# What is demanded

What is left is demanded of the function, that it works on whole numbers only.
Arguments and globals may be anything in the ranges of their types, and zero is,
so a program may be started (`globalsInRange_zero`).
Consumed by the comparison of the two back ends.
-/
import MiniC.Proofs.Lowering.Functions
import MiniC.Proofs.Parser.Declarations

namespace MiniC

open Lowering

/-- A well-formed function over whole numbers can be followed. -/
theorem FunctionDecl.WellFormed.followable {p : Program} {outer : Sight}
    {types : List (String × Ty)} {decl : FunctionDecl} (h : decl.WellFormed p outer)
    (hwhole : decl.Integral types) : Followable types decl where
  params := hwhole.params
  names := h.names
  returnType := hwhole.returnType
  body := by
    refine Stmt.EverywhereIn.and (fun sight leaf hleaf hnumbers => ?_) h.body hwhole.body
    refine ⟨hnumbers, fun e he => (hleaf.exprs e he).combined, ?_⟩
    rintro e rfl
    exact hwhole.returnType.resolve_left hleaf.1

section Calls

variable {source : String} {report report' : Report} {p : Program}
  (hfront : frontend source report = (.ok p, report')) {decl : FunctionDecl}
  (hdecl : decl ∈ p.functions) (hwhole : decl.Whole (Source.globalTypes p)) {fn : IR.Function}
  (hlower : p.lowerFunction decl = .ok fn) {args : List Int} {globals : String → Int}
  (hargs : List.Forall₂ (fun param n => Source.InRange param.ty n) decl.params args)
  (hglobals : GlobalsInRange (Source.globalTypes p) globals)

include hfront hdecl hwhole hlower hargs hglobals

/-- What the source ends the lowered function ends too, with the same value
and the same globals, however many more instructions it is given. -/
theorem lowerFunction_call {rounds : Nat} {value : Option Int} {globals' : String → Int}
    (hcall : Source.call false (Source.globalTypes p) rounds decl args globals
      = .ok (value, globals')) :
    ∃ fuel, ∀ more, fn.call (fuel + more) args globals = .ok (value, globals') := by
  obtain ⟨lowered, hlowered, hfn⟩ := Steps.except_bind_ok.1 hlower
  exact call_of_source (globalSlots hlowered)
    (((frontend_wellFormed hfront).function hdecl).followable hwhole.integral) hfn hargs hglobals
    hcall

end Calls

/-- Zero is a value of every type of whole numbers. -/
theorem globalsInRange_zero (types : List (String × Ty)) : GlobalsInRange types fun _ => 0 := by
  intro name ty _ hty
  cases ty <;> first | exact Or.inl rfl | rfl | cases hty

/-- Whether the first function of a text is accepted, is about whole numbers
and is lowered, and what it then gives back by the source, from globals that
are zero. -/
def firstRun (source : String) (rounds : Nat) (args : List Int) : Option (Option Int) := do
  let p ← (frontend source (.empty false)).1.toOption
  let decl ← p.functions.head?
  if decl.Whole (Source.globalTypes p) ∧ decl.params.length = args.length
      ∧ (∀ q ∈ decl.params.zip args, Source.InRange q.1.ty q.2)
      ∧ (p.lowerFunction decl).toOption.isSome then
    let r ← (Source.call false (Source.globalTypes p) rounds decl args fun _ => 0).toOption
    return r.1
  else none

/-- What a first run gives back, its function gives back when called. -/
theorem firstRun_some {source : String} {rounds : Nat} {args : List Int} {value : Option Int}
    (h : firstRun source rounds args = some value) :
    ∃ p report' decl fn globals', frontend source (.empty false) = (.ok p, report')
      ∧ decl ∈ p.functions ∧ decl.Whole (Source.globalTypes p)
      ∧ List.Forall₂ (fun param n => Source.InRange param.ty n) decl.params args
      ∧ p.lowerFunction decl = .ok fn
      ∧ Source.call false (Source.globalTypes p) rounds decl args (fun _ => 0)
        = .ok (value, globals') := by
  unfold firstRun at h
  obtain ⟨p, hp, h⟩ := Option.bind_eq_some_iff.1 h
  obtain ⟨decl, hdecl, h⟩ := Option.bind_eq_some_iff.1 h
  split at h
  · rename_i hchecks
    obtain ⟨hwhole, hlength, hargs, hlower⟩ := hchecks
    obtain ⟨fn, hfn⟩ := Option.isSome_iff_exists.1 hlower
    obtain ⟨⟨value', globals'⟩, hcall, hvalue⟩ := Option.bind_eq_some_iff.1 h
    cases hvalue
    refine ⟨p, _, decl, fn, globals', Prod.ext (Steps.toOption_some.1 hp) rfl,
      List.mem_of_mem_head? hdecl, hwhole, ?_, Steps.toOption_some.1 hfn,
      Steps.toOption_some.1 hcall⟩
    exact List.forall₂_iff_zip.2 ⟨hlength, fun {param n} hmem => hargs (param, n) hmem⟩
  · cases h

/-- A function that counts down into a global. -/
def countdown : String :=
  "long sum; int f(short n) { while (n > 0) { sum += n; n -= 1; } return sum; }"

/-- The loop runs three times, and the lowered function ends with what it
gives back. -/
theorem countdown_call :
    ∃ p report' decl fn globals' fuel, frontend countdown (.empty false) = (.ok p, report')
      ∧ decl ∈ p.functions ∧ p.lowerFunction decl = .ok fn
      ∧ Source.call false (Source.globalTypes p) 4 decl [3] (fun _ => 0) = .ok (some 6, globals')
      ∧ ∀ more, fn.call (fuel + more) [3] (fun _ => 0) = .ok (some 6, globals') := by
  have h : firstRun countdown 4 [3] = some (some 6) := by decide +kernel
  obtain ⟨p, report', decl, fn, globals', hfront, hdecl, hwhole, hargs, hlower, hcall⟩ :=
    firstRun_some h
  obtain ⟨fuel, hfuel⟩ := lowerFunction_call hfront hdecl hwhole hlower hargs
    (globalsInRange_zero _) hcall
  exact ⟨p, report', decl, fn, globals', fuel, hfront, hdecl, hlower, hcall, hfuel⟩

end MiniC
