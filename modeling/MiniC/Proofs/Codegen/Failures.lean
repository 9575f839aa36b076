/-
Code generation of an accepted program fails only as announced. Each construct is
taken step by step as a triple between states, and the triples pass through
sequences; the ways to fail are `Explained`.

# What the parser has promised

What generation asks of the frame the parser has promised: while code is generated
the frame's scopes show the names and types in sight at that point of the source
(`Looks`). So a name that is found nowhere is that of a function, a member that is
named has a place, and a slot reaches at least as far as the members in it. What
is taken from the program as a whole is `Accepted`: that it is well formed, and
that the globals in the environment are its own.

# Sizes and pushes

A frame is as deep as the exact extent of the variables met so far, so running out
of 64 bits means that the exact size does; this is why a state carries that extent.
Pushes are counted along: a pop finds what its push has left. A step is `Careful`
if it keeps all this, whatever is pushed when it starts, and fails only in ways
that are explained.

# Expressions

Every rule for an expression takes the runs of its operands as parameters, and is
careful if they are and if its places make sense where it stands. The induction on
the expression then only has to bring the two together (`eval_careful`). Consumed
by the proof about statements and by the statement about accepted programs.
-/
import MiniC.Proofs.Codegen.Extents

namespace MiniC

open Steps

-- ================================================================= names

/-- The types of the names that a frame binds. -/
def Frame.types (f : Frame) : Sight := f.scopes.map fun scope => scope.map fun b => (b.1, b.2.ty)

/-- The type of a name is that of its slot. -/
theorem Frame.find?_types (f : Frame) (name : String) :
    f.types.find? name = (f.lookup? name).map (·.ty) :=
  findSome?_view StackSlot.ty f.scopes name

/-- A slot that comes into sight shows its type. -/
theorem Frame.types_bind (f : Frame) (name : String) (slot : StackSlot) :
    (f.bind name slot).types = f.types.bind name slot.ty := by
  unfold Frame.bind Frame.types
  cases hscopes : f.scopes with
  | nil =>
      show f.scopes.map _ = _
      rw [hscopes]
      rfl
  | cons scope outer => rfl

theorem Frame.depth_bind (f : Frame) (name : String) (slot : StackSlot) :
    (f.bind name slot).depth = f.depth := by
  unfold Frame.bind
  split <;> rfl

theorem Frame.pushed_bind (f : Frame) (name : String) (slot : StackSlot) :
    (f.bind name slot).pushed = f.pushed := by
  unfold Frame.bind
  split <;> rfl

namespace Codegen

open Asm

/-- The globals in the environment are the global variables of the program. -/
theorem mem_globalTypes {decls : List VariableDecl} {name : String} {ty : Ty} :
    (name, ty) ∈ globalTypes decls ↔ ∃ d ∈ decls, d.name = name ∧ d.ty = ty := by
  unfold globalTypes
  simp only [List.mem_reverse, List.mem_map, Prod.mk.injEq]

/-- A global that is found is of the type it has in the global scope. -/
theorem scope_of_globalTypes {p : Program} (hp : p.WellFormed) {name : String} {ty : Ty}
    (h : (globalTypes p.globals).lookup name = some ty) : p.scope.lookup name = some ty := by
  obtain ⟨d, hd, rfl, rfl⟩ := mem_globalTypes.1 (mem_of_lookup h)
  exact lookup_of_mem hp.scope_nodup (Program.scope_of_global hd)

/-- What is in the global scope but is no variable is a function. -/
theorem function_of_scope {p : Program} {name : String} {ty : Ty}
    (h : p.scope.lookup name = some ty) (hnone : (globalTypes p.globals).lookup name = none) :
    ∃ f ∈ p.functions, f.name = name := by
  rcases Program.mem_scope (mem_of_lookup h) with hfunction | hglobal
  · exact hfunction
  · have hmem := mem_globalTypes.2 hglobal
    have hne := List.lookup_eq_none_iff.1 hnone _ hmem
    simp at hne

-- ================================================================ states

/-- Whether the frame of a state shows the given names and types, is as deep
as the given extent and has so many bytes pushed. -/
structure Shows (sight : Sight) (whole : Extent) (pushed : Nat) (s : State) : Prop where
  types : s.frame.types = sight
  depth : s.frame.depth = whole.size
  pushed : s.frame.pushed = pushed

/-- Whether a state is met in the code of a function of a program, at a point
with the given names in sight. -/
structure Looks (p : Program) (sight : Sight) (whole : Extent) (pushed : Nat) (s : State) :
    Prop extends Shows sight whole pushed s where
  reached : s.frame.Reached p

/-- A step that leaves what is known of the frame, however much is pushed. -/
def Careful {α : Type} (p : Program) (room : Prop) (sight : Sight) (whole : Extent)
    (step : Gen α) : Prop :=
  ∀ pushed, Triple (Looks p sight whole pushed) (Looks p sight whole pushed)
    (GenError.Explained p room) step

namespace Careful

variable {α β : Type} {p : Program} {room : Prop} {sight : Sight} {whole : Extent}

theorem bind {x : Gen α} {f : α → Gen β} (hx : Careful p room sight whole x)
    (hf : ∀ a, Careful p room sight whole (f a)) : Careful p room sight whole (x >>= f) :=
  fun pushed => (hx pushed).bind fun a => hf a pushed

theorem pure (a : α) : Careful p room sight whole (pure a : Gen α) :=
  fun _ => Triple.pure (fun _ h => h) a

theorem map {x : Gen α} {f : α → β} (hx : Careful p room sight whole x) :
    Careful p room sight whole (f <$> x) :=
  fun pushed => (hx pushed).map

theorem fail {e : GenError} (h : e.Explained p room) :
    Careful p room sight whole (fail e : Gen α) :=
  fun _ => Triple.throw h

theorem lift {x : Except GenError α} (h : Only (GenError.Explained p room) x) :
    Careful p room sight whole (liftM x : Gen α) :=
  fun _ => Triple.lift h

theorem ite {c : Prop} [Decidable c] {x y : Gen α} (hx : c → Careful p room sight whole x)
    (hy : ¬ c → Careful p room sight whole y) :
    Careful p room sight whole (if c then x else y) :=
  fun pushed => Triple.ite (fun h => hx h pushed) fun h => hy h pushed

/-- A question about the frame. -/
theorem ask {f : Frame → Except GenError α}
    (h : ∀ s pushed, Looks p sight whole pushed s → Only (GenError.Explained p room) (f s.frame)) :
    Careful p room sight whole (do f (← get).frame : Gen α) := by
  intro pushed
  refine Triple.get fun s hs => (Triple.lift (h s pushed hs)).weaken (fun _ h => h) ?_
  rintro _ rfl
  exact hs

end Careful

section Steps

variable {p : Program} {room : Prop} {sight : Sight} {whole : Extent}

/-- A string that is interned leaves the frame alone. -/
theorem intern_careful (value : String) : Careful p room sight whole (intern value) :=
  fun _ => Triple.modifyGet fun _ hs => ⟨⟨hs.types, hs.depth, hs.pushed⟩, hs.reached⟩

/-- A change of the frame fails for want of room only. -/
theorem framed?_triple {α : Type} {I J : State → Prop} {f : Frame → Option (α × Frame)}
    (hends : ∀ s a frame, I s → f s.frame = some (a, frame) → J { s with frame })
    (hfails : ∀ s, I s → room → (f s.frame).isSome = true) :
    Triple I J (GenError.Explained p room) (framed? f) where
  ends s a t hs hstep := by
    obtain ⟨frame, hframe, rfl⟩ := framed?_ok.1 hstep
    exact hends s a frame hs hframe
  fails s hs := by
    unfold framed?
    rw [get_bind]
    cases hf : f s.frame with
    | none =>
        refine Only.error fun hroom => ?_
        have hsome := hfails s hs hroom
        rw [hf] at hsome
        cases hsome
    | some found => exact Only.ok _

/-- What is pushed for a step can be popped behind it. -/
theorem saved_careful {step : Gen Code} (h : Careful p room sight whole step) :
    Careful p room sight whole (saved step) := by
  intro pushed
  unfold saved
  have hpush : Triple (Looks p sight whole pushed) (Looks p sight whole (pushed + 8))
      (GenError.Explained p room) (framed fun f => ((), f.push)) :=
    Triple.modifyGet fun s hs =>
      ⟨⟨hs.types, hs.depth, congrArg (· + 8) hs.pushed⟩, hs.reached.same rfl rfl⟩
  refine hpush.bind fun _ => (h (pushed + 8)).bind fun code => ?_
  refine Triple.bind (J := Looks p sight whole pushed) ?_ fun _ => Triple.pure (fun _ h => h) _
  have hpop : ∀ s, Looks p sight whole (pushed + 8) s →
      s.frame.pop? = some { s.frame with pushed := pushed } := by
    intro s hs
    have hpushed := hs.pushed
    unfold Frame.pop?
    rw [if_neg (by omega), hpushed, Nat.add_sub_cancel]
  refine framed?_triple (fun s a frame hs hframe => ?_) fun s hs _ => ?_
  · rw [hpop s hs] at hframe
    cases hframe
    exact ⟨⟨hs.types, hs.depth, rfl⟩, hs.reached.same rfl rfl⟩
  · rw [hpop s hs]
    rfl

-- ============================================================= operands

/-- A literal that does not fold is explained. -/
theorem liftEval_fails {α : Type} (x : Except EvalError α) :
    Only (GenError.Explained p room) (GenError.liftEval x) := by
  cases x with
  | ok a => exact Only.ok a
  | error e => exact Only.error trivial

/-- A literal that is no number of its type is explained. -/
theorem immediate_fails (lit : NumberLiteral) (ty : Ty) :
    Only (GenError.Explained p room) (immediate lit ty) :=
  Only.bind (liftEval_fails _) fun _ _ => Only.ok _

theorem realText_fails (lit : NumberLiteral) :
    Only (GenError.Explained p room) (realText lit) := by
  unfold realText
  cases lit.number with
  | ok number => exact Only.ok _
  | error _ => exact Only.error (Or.inr ⟨lit.text, rfl⟩)

/-- A type without a register is explained. -/
theorem widthOf_fails (ty : Ty) : Only (GenError.Explained p room) (widthOf ty) := by
  unfold widthOf
  cases Width.ofBytes? ty.size with
  | some width => exact Only.ok width
  | none => exact Only.error trivial

/-- A load fails by its types. -/
theorem loadInto_fails (r : Reg) (place : Place) (source target : Ty) :
    Only (GenError.Explained p room) (loadInto r place source target) := by
  refine Only.bind (widthOf_fails source) fun src _ => ?_
  refine Only.bind (widthOf_fails target) fun dst _ => Only.ite (fun _ => ?_) fun _ => ?_
  · exact Only.ite (fun _ => Only.ok _) fun _ => Only.error trivial
  · refine Only.ite (fun _ => Only.ok _) fun _ => Only.ite (fun _ => Only.ok _) fun _ => ?_
    refine Only.ite (fun _ => Only.ok _) fun _ => Only.ite (fun _ => Only.ok _) fun _ => ?_
    exact Only.ite (fun _ => Only.ok _) fun _ => Only.ok _

/-- A conversion fails by its types. -/
theorem convert_fails (source target : Ty) :
    Only (GenError.Explained p room) (convert source target) := by
  refine Only.ite (fun _ => Only.ok _) fun _ => Only.ite (fun _ => Only.error trivial) fun _ => ?_
  refine Only.bind (widthOf_fails source) fun src _ => ?_
  refine Only.bind (widthOf_fails target) fun dst _ => Only.ite (fun _ => Only.ok _) fun _ => ?_
  refine Only.ite (fun _ => Only.ok _) fun _ => Only.ite (fun _ => Only.ok _) fun _ => ?_
  exact Only.ite (fun _ => Only.ok _) fun _ => Only.ok _

/-- A store fails by its types. -/
theorem storeRax_fails (place : Place) (source target : Ty) :
    Only (GenError.Explained p room) (storeRax place source target) :=
  Only.bind (convert_fails source target) fun _ _ =>
    Only.bind (widthOf_fails target) fun _ _ => Only.ok _

/-- A literal that is stored fails by its type or its text. -/
theorem storeLiteral_fails (place : Place) (lit : NumberLiteral) (target : Ty) :
    Only (GenError.Explained p room) (storeLiteral place lit target) := by
  have hwhole : ∀ ty : Ty, Only (GenError.Explained p room) (do
      if lit.ty.isFloating then throw (.notImplemented (.conversion lit.ty ty))
      else
        let dst ← widthOf ty
        let n ← immediate lit ty
        if dst = .qword && !Integer.fitsInt n then
          return [.mov (reg .qword .rax) (.imm n), .mov (.mem dst place) (reg .qword .rax)]
        else return [.mov (.mem dst place) (.imm n)] : Except GenError Code) := by
    intro ty
    refine Only.ite (fun _ => Only.error trivial) fun _ => ?_
    refine Only.bind (widthOf_fails ty) fun dst _ => ?_
    refine Only.bind (immediate_fails lit ty) fun n _ => ?_
    exact Only.ite (fun _ => Only.ok _) fun _ => Only.ok _
  unfold storeLiteral
  cases target with
  | float => exact Only.bind (realText_fails lit) fun _ _ => Only.ok _
  | double => exact Only.bind (realText_fails lit) fun _ _ => Only.ok _
  | string => exact Only.error trivial
  | named _ => exact Only.error trivial
  | void => exact Only.error trivial
  | _ => exact hwhole _

/-- A step in place fails by its type. -/
theorem stepPlace_fails (op : Arith) (place : Place) (ty : Ty) :
    Only (GenError.Explained p room) (stepPlace op place ty) := by
  refine Only.ite (fun _ => Only.error trivial) fun _ => ?_
  refine Only.bind (widthOf_fails ty) fun width _ => ?_
  dsimp only
  split <;> exact Only.ok _

end Steps

-- ================================================================ places

/-- Whether the surroundings of a function are those of an accepted program,
in which sizes fit if there is room. -/
structure Accepted (env : Env) (room : Prop) : Prop where
  wellFormed : env.program.WellFormed
  globals : env.globals = globalTypes env.program.globals
  room : room → env.program.Roundable

section Places

variable {env : Env} {room : Prop} (henv : Accepted env room) {f : Frame}

include henv

/-- A name in sight has a place, unless it is a function. -/
theorem locate_fails {name : String}
    (hname : ((f.types ++ [env.program.scope]).find? name).isSome = true) :
    Only (GenError.Explained env.program room) (env.locate f name) := by
  unfold Env.locate
  rw [Sight.find?_append, Frame.find?_types, Sight.find?_singleton] at hname
  cases hlocal : f.lookup? name with
  | some slot => exact Only.ok _
  | none =>
      rw [hlocal] at hname
      obtain ⟨ty, hty⟩ := Option.isSome_iff_exists.1 hname
      rw [henv.globals]
      cases hglobal : (globalTypes env.program.globals).lookup name with
      | some ty => exact Only.ok _
      | none => exact Only.error (function_of_scope hty hglobal)

/-- A place that is found is of the type in sight, and on the stack it is the
slot of its name. -/
theorem locate_type {name : String} {place : Place} {ty ty' : Ty}
    (h : env.locate f name = .ok (place, ty))
    (hty : (f.types ++ [env.program.scope]).find? name = some ty') :
    ty = ty' ∧ ∀ offset, place = .stack offset → f.lookup? name = some ⟨offset, ty⟩ := by
  unfold Env.locate at h
  rw [Sight.find?_append, Frame.find?_types, Sight.find?_singleton] at hty
  cases hlocal : f.lookup? name with
  | some slot =>
      rw [hlocal] at h hty
      cases h
      cases hty
      refine ⟨rfl, fun offset hplace => ?_⟩
      cases hplace
      rfl
  | none =>
      rw [hlocal] at h hty
      rw [henv.globals] at h
      cases hglobal : (globalTypes env.program.globals).lookup name with
      | none =>
          rw [hglobal] at h
          cases h
      | some found =>
          rw [hglobal] at h
          cases h
          refine ⟨?_, fun offset hplace => by cases hplace⟩
          exact Option.some.inj ((scope_of_globalTypes henv.wellFormed hglobal).symm.trans hty)

/-- A member that is named exists, and lies within the slot of its object. -/
theorem locateMember_fails (hf : f.Reached env.program) {object field : Ident}
    {accessor : Accessor} {pos : Position}
    (hwf : (Expr.member object accessor field pos).WellFormed env.program
      (f.types ++ [env.program.scope])) :
    Only (GenError.Explained env.program room) (env.locateMember f object accessor field) := by
  obtain ⟨aggregate, decl, hobject, hdecl, hfield⟩ := hwf
  unfold Env.locateMember
  cases accessor with
  | arrow => exact Only.error trivial
  | scope => exact Only.error trivial
  | dot =>
      have hty : (f.types ++ [env.program.scope]).find? object.name = some (.named aggregate) :=
        hobject.resolve_right fun h => by cases h.1
      refine Only.bind (locate_fails henv (hty ▸ rfl)) fun found hfound => ?_
      obtain ⟨place, ty⟩ := found
      obtain ⟨rfl, hslot⟩ := locate_type henv hfound hty
      have hlayout : Layout.Faithful env.program room env.program.layout env.program.extent
          aggregate := henv.wellFormed.layout_faithful henv.room (hdecl ▸ rfl)
      refine Only.bind hlayout.fails fun layout hl => ?_
      obtain ⟨m, hm⟩ := Option.isSome_iff_exists.1
        (Program.layout_member? hl hdecl hfield)
      rw [hm]
      refine Only.bind ?_ fun _ _ => Only.ok _
      cases place with
      | static name base => exact Only.ok _
      | stack offset =>
          have hsound := hf.sound
          obtain ⟨size, align, hsize, hle, -⟩ :=
            hsound.sized _ (Frame.lookup?_mem (hslot offset rfl))
          have hinside : m.offset ≤ layout.size := by
            obtain ⟨layoutOf, hspaced⟩ := Program.layout_spaced hl
            obtain ⟨k, _, -, hk⟩ := hspaced.inside m (List.mem_of_find?_eq_some hm)
            omega
          have hlayoutSize : size = layout.size := by
            obtain ⟨l', hl', hpair⟩ := except_map_ok.1 hsize
            cases hl.symm.trans hl'
            cases hpair
            rfl
          have hfits : m.offset ≤ offset := by
            have hle' : size ≤ offset := hle
            omega
          exact Only.ite (fun _ => Only.ok _) fun h => (h hfits).elim

/-- The type of a well-formed expression fails to be found as its names do. -/
theorem typeOf_fails (hf : f.Reached env.program) {e : Expr}
    (hwf : e.WellFormed env.program (f.types ++ [env.program.scope])) :
    Only (GenError.Explained env.program room) (env.typeOf f e) := by
  induction e with
  | number lit => exact Only.ok _
  | string lit => exact Only.ok _
  | ident i => exact Only.map (locate_fails henv hwf.2)
  | member object accessor field pos => exact Only.map (locateMember_fails henv hf hwf)
  | binary op lhs rhs constant operandsMatch pos ihl ihr =>
      obtain ⟨-, -, -, hleft, hright⟩ := hwf
      unfold Env.typeOf
      refine Only.ite (fun _ => Only.map (liftEval_fails _)) fun _ => ?_
      cases op with
      | assign => exact ihl hleft
      | compound op => exact ihl hleft
      | compare op => exact Only.ok _
      | arith op =>
          exact Only.bind (ihl hleft) fun _ _ => Only.bind (ihr hright) fun _ _ => Only.ok _
  | unary op fixity operand pos ih =>
      unfold Env.typeOf
      cases op with
      | not => exact Only.ok _
      | plus => exact Only.bind (ih hwf.2) fun _ _ => Only.ok _
      | minus => exact Only.bind (ih hwf.2) fun _ _ => Only.ok _
      | incr => exact ih hwf.2
      | decr => exact ih hwf.2

/-- A place is looked for where one has to be found. -/
theorem place?_fails (hf : f.Reached env.program) {e : Expr}
    (hwf : e.WellFormed env.program (f.types ++ [env.program.scope])) :
    Only (GenError.Explained env.program room) (env.place? f e) := by
  cases e with
  | ident i => exact Only.map (locate_fails henv hwf.2)
  | member object accessor field pos => exact Only.map (locateMember_fails henv hf hwf)
  | _ => exact Only.ok _

/-- What can be stored into has a place. -/
theorem target_fails (hf : f.Reached env.program) {e : Expr} (hassign : e.isAssignable = true)
    (hwf : e.WellFormed env.program (f.types ++ [env.program.scope])) :
    Only (GenError.Explained env.program room) (env.target f e) := by
  refine Only.bind (place?_fails henv hf hwf) fun found hfound => ?_
  cases found with
  | some found => exact Only.ok _
  | none =>
      cases e with
      | ident i =>
          obtain ⟨_, -, hnone⟩ := except_map_ok.1 hfound
          cases hnone
      | member object accessor field pos =>
          obtain ⟨_, -, hnone⟩ := except_map_ok.1 hfound
          cases hnone
      | _ => cases hassign

end Places

-- =========================================================== expressions

section Expressions

variable {env : Env} {room : Prop} (henv : Accepted env room) {sight : Sight} {whole : Extent}
  {e lhs rhs : Expr} {run runLeft runRight : Gen (Code × Ty)}

include henv

/-- The place of an expression is found in the frame as it is. -/
theorem placeOf_careful (hwf : e.WellFormed env.program (sight ++ [env.program.scope])) :
    Careful env.program room sight whole (placeOf env e) :=
  Careful.ask (f := fun frame => env.place? frame e) fun _ _ hs =>
    place?_fails henv hs.reached (hs.types ▸ hwf)

/-- What can be assigned to has a place, unless it is a function. -/
theorem targetOf_careful (hassign : e.isAssignable = true)
    (hwf : e.WellFormed env.program (sight ++ [env.program.scope])) :
    Careful env.program room sight whole (targetOf env e) :=
  Careful.ask (f := fun frame => env.target frame e) fun _ _ hs =>
    target_fails henv hs.reached hassign (hs.types ▸ hwf)

/-- An expression that makes sense has a type, or an explanation why not. -/
theorem typeOfExpr_careful (hwf : e.WellFormed env.program (sight ++ [env.program.scope])) :
    Careful env.program room sight whole (typeOfExpr env e) :=
  Careful.ask (f := fun frame => env.typeOf frame e) fun _ _ hs =>
    typeOf_fails henv hs.reached (hs.types ▸ hwf)

theorem evalTo_careful (hwf : e.WellFormed env.program (sight ++ [env.program.scope]))
    (hrun : Careful env.program room sight whole run) (ty : Ty) :
    Careful env.program room sight whole (evalTo env e run ty) := by
  unfold evalTo
  refine Careful.ite (fun _ => (Careful.pure none).bind fun place => ?_)
    fun _ => (placeOf_careful henv hwf).bind fun place => ?_
  all_goals
    cases place with
    | some found => exact Careful.lift (loadInto_fails _ _ _ _)
    | none =>
        exact hrun.bind fun _ => (Careful.lift (convert_fails _ _)).bind fun _ => Careful.pure _

/-- A right operand that is saved is restored. -/
theorem rightOperand_careful (hwf : e.WellFormed env.program (sight ++ [env.program.scope]))
    (hrun : Careful env.program room sight whole run) (ty : Ty) :
    Careful env.program room sight whole (rightOperand env e run ty) := by
  unfold rightOperand
  refine (Careful.lift (widthOf_fails ty)).bind fun width => Careful.ite (fun _ => ?_) fun _ => ?_
  · refine (Careful.lift (liftEval_fails _)).bind fun lit => ?_
    refine Careful.ite (fun _ => Careful.fail trivial) fun _ => ?_
    refine (Careful.lift (immediate_fails lit ty)).bind fun n => ?_
    exact Careful.ite (fun _ => Careful.pure _) fun _ => Careful.pure _
  · refine (placeOf_careful henv hwf).bind fun place => ?_
    cases place with
    | some found =>
        refine Careful.ite (fun _ => Careful.fail trivial) fun _ => ?_
        refine (Careful.lift (widthOf_fails _)).bind fun src => ?_
        refine Careful.ite (fun _ => Careful.pure _) fun _ => ?_
        exact (Careful.lift (loadInto_fails _ _ _ _)).bind fun _ => Careful.pure _
    | none =>
        refine (saved_careful ?_).bind fun _ => Careful.pure _
        exact (evalTo_careful henv hwf hrun ty).bind fun _ => Careful.pure _

section Binary

variable (hleft : lhs.WellFormed env.program (sight ++ [env.program.scope]))
  (hright : rhs.WellFormed env.program (sight ++ [env.program.scope]))
  (hrunLeft : Careful env.program room sight whole runLeft)
  (hrunRight : Careful env.program room sight whole runRight)

include hleft hright hrunLeft hrunRight

/-- Two operands leave as many pushes as they found. -/
theorem operands_careful :
    Careful env.program room sight whole (operands env lhs rhs runLeft runRight) := by
  unfold operands
  refine (typeOfExpr_careful henv hleft).bind fun left => ?_
  refine (typeOfExpr_careful henv hright).bind fun right => ?_
  refine Careful.ite (fun _ => Careful.fail trivial) fun _ => ?_
  refine Careful.ite (fun _ => Careful.fail trivial) fun _ => ?_
  refine (Careful.lift (widthOf_fails _)).bind fun width => ?_
  refine (evalTo_careful henv hleft hrunLeft _).bind fun first => ?_
  exact (rightOperand_careful henv hright hrunRight _).bind fun _ => Careful.pure _

theorem evalArith_careful (op : Arith) :
    Careful env.program room sight whole (evalArith env op lhs rhs runLeft runRight) :=
  (operands_careful henv hleft hright hrunLeft hrunRight).bind fun _ => Careful.pure _

theorem evalCompare_careful (op : Comparison) :
    Careful env.program room sight whole (evalCompare env op lhs rhs runLeft runRight) :=
  (operands_careful henv hleft hright hrunLeft hrunRight).bind fun _ => Careful.pure _

theorem assignCompound_careful (op : Arith) (hassign : lhs.isAssignable = true) :
    Careful env.program room sight whole (assignCompound env op lhs rhs runLeft runRight) :=
  (targetOf_careful henv hassign hleft).bind fun _ =>
    (evalArith_careful henv hleft hright hrunLeft hrunRight op).bind fun _ =>
      (Careful.lift (storeRax_fails _ _ _)).bind fun _ => Careful.pure _

end Binary

theorem storeValue_careful (hwf : e.WellFormed env.program (sight ++ [env.program.scope]))
    (hrun : Careful env.program room sight whole run) (place : Place) (target : Ty) :
    Careful env.program room sight whole (storeValue env place target e run) := by
  unfold storeValue
  refine Careful.ite (fun _ => ?_) fun _ => ?_
  · refine (Careful.lift (liftEval_fails _)).bind fun lit => ?_
    exact Careful.lift (storeLiteral_fails place lit target)
  · refine (placeOf_careful henv hwf).bind fun found => ?_
    cases found with
    | some found =>
        refine (Careful.lift (loadInto_fails _ _ _ _)).bind fun _ => ?_
        exact (Careful.lift (widthOf_fails _)).bind fun _ => Careful.pure _
    | none =>
        exact hrun.bind fun _ => (Careful.lift (storeRax_fails _ _ _)).bind fun _ => Careful.pure _

/-- An assignment fails by its target or by its value. -/
theorem assignPlain_careful (hassign : lhs.isAssignable = true)
    (hleft : lhs.WellFormed env.program (sight ++ [env.program.scope]))
    (hright : rhs.WellFormed env.program (sight ++ [env.program.scope]))
    (hrun : Careful env.program room sight whole runRight) :
    Careful env.program room sight whole (assignPlain env lhs rhs runRight) :=
  (targetOf_careful henv hassign hleft).bind fun _ =>
    storeValue_careful henv hright hrun _ _

theorem reloaded_careful (hassign : lhs.isAssignable = true)
    (hleft : lhs.WellFormed env.program (sight ++ [env.program.scope])) {assign : Gen Code}
    (h : Careful env.program room sight whole assign) :
    Careful env.program room sight whole (reloaded env lhs assign) :=
  (targetOf_careful henv hassign hleft).bind fun _ => h.bind fun _ =>
    (Careful.lift (loadInto_fails _ _ _ _)).bind fun _ => Careful.pure _

/-- A step fails by its target. -/
theorem evalStep_careful (hassign : e.isAssignable = true)
    (hwf : e.WellFormed env.program (sight ++ [env.program.scope])) (op : Arith)
    (fixity : Fixity) : Careful env.program room sight whole (evalStep env op fixity e) := by
  refine (targetOf_careful henv hassign hwf).bind fun found => ?_
  refine (Careful.lift (widthOf_fails _)).bind fun width => ?_
  refine (Careful.lift (stepPlace_fails op _ _)).bind fun update => ?_
  cases fixity with
  | before => exact Careful.pure _
  | after => exact Careful.pure _

theorem evalSign_careful (negative : Bool)
    (hwf : e.WellFormed env.program (sight ++ [env.program.scope]))
    (hrun : Careful env.program room sight whole run) :
    Careful env.program room sight whole (evalSign env negative e run) := by
  refine (typeOfExpr_careful henv hwf).bind fun ty => ?_
  refine Careful.ite (fun _ => Careful.fail trivial) fun _ => ?_
  refine (evalTo_careful henv hwf hrun _).bind fun code => ?_
  refine Careful.ite (fun _ => ?_) fun _ => Careful.pure _
  exact (Careful.lift (widthOf_fails _)).bind fun _ => Careful.pure _

omit henv in
theorem evalConstant_careful {p : Program} :
    Careful p room sight whole (evalConstant e) := by
  refine (Careful.lift (liftEval_fails _)).bind fun lit => ?_
  refine Careful.ite (fun _ => Careful.fail trivial) fun _ => ?_
  refine (Careful.lift (immediate_fails lit _)).bind fun n => ?_
  exact (Careful.lift (widthOf_fails _)).bind fun _ => Careful.pure _

/-- A place fails by its type. -/
theorem evalPlace_careful (hassign : e.isAssignable = true)
    (hwf : e.WellFormed env.program (sight ++ [env.program.scope])) :
    Careful env.program room sight whole (evalPlace env e) := by
  refine (targetOf_careful henv hassign hwf).bind fun found => ?_
  refine Careful.ite (fun _ => Careful.fail trivial) fun _ => ?_
  exact (Careful.lift (loadInto_fails _ _ _ _)).bind fun _ => Careful.pure _

/-- The code of a well-formed expression fails to be found only for a
reason. -/
theorem eval_careful (hwf : e.WellFormed env.program (sight ++ [env.program.scope])) :
    Careful env.program room sight whole (eval env e) := by
  induction e with
  | number lit => exact evalConstant_careful
  | string lit => exact (intern_careful _).bind fun _ => Careful.pure _
  | ident i => exact evalPlace_careful henv hwf.1 hwf
  | member object accessor field pos => exact evalPlace_careful henv rfl hwf
  | binary op lhs rhs constant operandsMatch pos ihl ihr =>
      obtain ⟨-, -, hassign, hleft, hright⟩ := hwf
      unfold eval
      refine Careful.ite (fun _ => evalConstant_careful) fun _ => ?_
      cases op with
      | assign =>
          exact reloaded_careful henv (hassign rfl) hleft
            (assignPlain_careful henv (hassign rfl) hleft hright (ihr hright))
      | compound op =>
          exact reloaded_careful henv (hassign rfl) hleft
            (assignCompound_careful henv hleft hright (ihl hleft) (ihr hright) op
              (hassign rfl))
      | arith op => exact evalArith_careful henv hleft hright (ihl hleft) (ihr hright) op
      | compare op =>
          exact evalCompare_careful henv hleft hright (ihl hleft) (ihr hright) op
  | unary op fixity operand pos ih =>
      have hrun := ih hwf.2
      cases op with
      | plus => exact evalSign_careful henv false hwf.2 hrun
      | minus => exact evalSign_careful henv true hwf.2 hrun
      | not =>
          exact hrun.bind fun _ => (Careful.lift (widthOf_fails _)).bind fun _ => Careful.pure _
      | incr => exact evalStep_careful henv hwf.1 hwf.2 .add fixity
      | decr => exact evalStep_careful henv hwf.1 hwf.2 .sub fixity

theorem stepEffect_careful (hassign : e.isAssignable = true)
    (hwf : e.WellFormed env.program (sight ++ [env.program.scope])) (op : Arith) :
    Careful env.program room sight whole (stepEffect env op e) :=
  (targetOf_careful henv hassign hwf).bind fun _ =>
    (Careful.lift (stepPlace_fails op _ _)).bind fun _ => Careful.pure _

/-- An expression for its effect fails only as explained. -/
theorem effect_careful (hwf : e.WellFormed env.program (sight ++ [env.program.scope])) :
    Careful env.program room sight whole (effect env e) := by
  unfold effect
  split
  · obtain ⟨-, -, hassign, hleft, hright⟩ := hwf
    exact assignPlain_careful henv (hassign rfl) hleft hright
      (eval_careful henv hright)
  · obtain ⟨-, -, hassign, hleft, hright⟩ := hwf
    exact assignCompound_careful henv hleft hright
      (eval_careful henv hleft) (eval_careful henv hright) _ (hassign rfl)
  · exact stepEffect_careful henv hwf.1 hwf.2 .add
  · exact stepEffect_careful henv hwf.1 hwf.2 .sub
  · exact Careful.map (eval_careful henv hwf)

/-- A test fails only as explained. -/
theorem test_careful (hwf : e.WellFormed env.program (sight ++ [env.program.scope])) :
    Careful env.program room sight whole (test env e) := by
  refine (placeOf_careful henv hwf).bind fun place => ?_
  cases place with
  | some found =>
      refine Careful.ite (fun _ => Careful.fail trivial) fun _ => ?_
      exact (Careful.lift (widthOf_fails _)).bind fun _ => Careful.pure _
  | none =>
      refine (eval_careful henv hwf).bind fun _ => ?_
      exact (Careful.lift (widthOf_fails _)).bind fun _ => Careful.pure _

end Expressions

end Codegen

end MiniC
