/-
Statements, functions and programs fail to be generated only as announced
(`generate_fails`).

# Statements

A statement takes the frame from the names in sight before it to those
behind it, and from an extent to that extent with the statement's variables
behind it (`Turns`). Sizes are accounted for in advance: if the program is to have room,
the extent of all variables of a body has to fit in 64 bits, and then so do the extents
on the way. A block takes its names with it and leaves its extent, since slots are not
used again.

# Functions

A function starts from the empty frame, its parameters come first, and its frame is
rounded up at the end (`reservation?_fails`); here the announced size of a frame is the
one that is rounded.

# Programs

A program is its globals and then its functions, so what holds of each holds of all.
Consumed by the statement about accepted programs.
-/
import MiniC.Proofs.Codegen.Failures

namespace MiniC.Codegen

open Asm Steps

-- ============================================================ statements

/-- A step that leads from one point of a function to another, with nothing
pushed at either. -/
abbrev Turns {α : Type} (p : Program) (room : Prop) (sight : Sight) (whole : Extent)
    (sight' : Sight) (whole' : Extent) (step : Gen α) : Prop :=
  Triple (Looks p sight whole 0) (Looks p sight' whole' 0) (GenError.Explained p room) step

section Statements

variable {p : Program} {room : Prop} {sight sight' : Sight} {whole whole' : Extent}

/-- What is known of the names, the depth and the pushes is enough, since
every frame of a function is reached. -/
theorem Turns.of_leads {α : Type} {step : Gen α}
    (h : Triple (Looks p sight whole 0) (Shows sight' whole' 0) (GenError.Explained p room) step)
    (hleads : Leads p step) : Turns p room sight whole sight' whole' step where
  ends s a t hs hstep := ⟨h.ends s a t hs hstep, (hleads s a t hstep).reached hs.reached⟩
  fails := h.fails

/-- A label touches neither names nor extents. -/
theorem freshLabel_turns : Turns p room sight whole sight whole freshLabel :=
  Triple.modifyGet fun _ hs => ⟨⟨hs.types, hs.depth, hs.pushed⟩, hs.reached.same rfl rfl⟩

/-- A scope takes its names with it and leaves its extent. -/
theorem inScope_turns {scope : List (String × Ty)} {step : Gen Lines}
    (h : Turns p room ([] :: sight) whole (scope :: sight) whole' step) :
    Turns p room sight whole sight whole' (inScope step) := by
  have hopen : Turns p room sight whole ([] :: sight) whole
      (framed fun f => ((), f.pushScope)) :=
    Triple.modifyGet fun s hs =>
      ⟨⟨congrArg ([] :: ·) hs.types, hs.depth, hs.pushed⟩, hs.reached.pushScope⟩
  have hclose : Turns p room (scope :: sight) whole' sight whole'
      (framed fun f => ((), f.popScope)) := by
    refine Triple.modifyGet fun s hs => ⟨⟨?_, hs.depth, hs.pushed⟩, hs.reached.popScope⟩
    have htypes := hs.types
    unfold Frame.types at htypes ⊢
    show (s.frame.scopes.drop 1).map _ = _
    rw [List.map_drop, htypes]
    rfl
  exact hopen.bind fun _ => h.bind fun _ => hclose.bind fun _ => Triple.pure (fun _ h => h) _

variable {env : Env}

/-- A slot is handed out behind the variables met so far. -/
theorem alloc_turns {part : Extent} (hsane : part.Sane)
    (hfits : room → (whole.add part).size < 2 ^ 64) :
    Turns p room sight whole sight (whole.add part)
      (framed? fun f => f.alloc? part.size part.align) := by
  refine framed?_triple (fun s offset frame hs halloc => ?_) fun s hs hr => ?_
  · have hreached := hs.reached.alloc halloc
    cases Frame.alloc?_exact halloc
    refine ⟨⟨hs.types, ?_, hs.pushed⟩, hreached⟩
    show roundUp s.frame.depth part.align + part.size = _
    rw [hs.depth]
    rfl
  · refine Frame.alloc?_fits hsane ?_
    rw [hs.depth]
    exact hfits hr

/-- A name comes into sight. -/
theorem bind_shows (name : String) (slot : StackSlot) :
    Triple (Looks p sight whole 0) (Shows (sight.bind name slot.ty) whole 0)
      (GenError.Explained p room) (framed fun f => ((), f.bind name slot)) := by
  refine Triple.modifyGet fun s hs => ⟨?_, ?_, ?_⟩
  · exact (Frame.types_bind _ _ _).trans (congrArg (Sight.bind · _ _) hs.types)
  · exact (Frame.depth_bind _ _ _).trans hs.depth
  · exact (Frame.pushed_bind _ _ _).trans hs.pushed

/-- A variable comes into sight and adds to the extent. -/
theorem variableDecl_turns (henv : Accepted env room) {decl : VariableDecl}
    (hwf : decl.WellFormed env.program (sight ++ [env.program.scope]))
    (hfits : room → (whole.add (Extent.ofTy env.program.extent decl.ty)).size < 2 ^ 64) :
    Turns env.program room sight whole (sight.bind decl.name decl.ty)
      (whole.add (Extent.ofTy env.program.extent decl.ty)) (variableDecl env decl) := by
  refine Turns.of_leads ?_ (variableDecl_leads decl)
  refine Triple.lift_bind (henv.wellFormed.sizeAlign_fails henv.room hwf.ty) fun found hfound => ?_
  obtain ⟨size, align⟩ := found
  have hsane := env.program.extent_sane decl.ty
  have hextent := henv.wellFormed.sizeAlign_exact henv.room hwf.ty hfound
  have halloc : Turns env.program room sight whole sight (whole.add ⟨size, align⟩)
      (framed? fun f => f.alloc? size align) :=
    alloc_turns (hextent ▸ hsane) fun hr => hextent ▸ hfits hr
  rw [hextent]
  refine halloc.bind fun offset => ?_
  have hname : ∀ code : Code, Triple (Looks env.program sight (whole.add ⟨size, align⟩) 0)
      (Shows (sight.bind decl.name decl.ty) (whole.add ⟨size, align⟩) 0)
      (GenError.Explained env.program room) (do
        framed fun f => ((), f.bind decl.name ⟨offset, decl.ty⟩)
        return lines code : Gen Lines) := fun code =>
    (bind_shows decl.name ⟨offset, decl.ty⟩).bind fun _ => Triple.pure (fun _ h => h) _
  cases hinit : decl.init with
  | none => exact (Triple.pure (fun _ h => h) _).bind hname
  | some init =>
      have hstore : ∀ ty, Turns env.program room sight (whole.add ⟨size, align⟩) sight
          (whole.add ⟨size, align⟩)
          (storeValue env (.stack offset) ty init (eval env init)) := fun ty =>
        storeValue_careful henv (hwf.init init hinit) (eval_careful henv (hwf.init init hinit))
          _ ty 0
      dsimp only
      split
      · exact Triple.bind (Triple.throw trivial) hname
      · exact (hstore _).bind hname

/-- A return fails only as explained. -/
theorem ret_turns (henv : Accepted env room) {value : Option Expr}
    (hwf : (Leaf.result value).WellFormed env.program [env.program.scope] env.returnType sight) :
    Turns env.program room sight whole sight whole (ret env value) := by
  cases value with
  | none => exact Triple.pure (fun _ h => h) _
  | some e =>
      refine Triple.ite (fun hvoid => (hwf.1 hvoid).elim) fun _ => ?_
      refine Triple.ite (fun _ => Triple.throw trivial) fun _ => ?_
      refine Triple.bind ?_ fun _ => Triple.pure (fun _ h => h) _
      exact evalTo_careful henv hwf.2 (eval_careful henv hwf.2) _ 0

/-- The body of a block leaves the names outside it as they are. -/
theorem block_turns {body : List Stmt}
    (h : Turns p room ([] :: sight) whole (declareAll ([] :: sight) body) whole' (stmts env body)) :
    Turns p room sight whole sight whole' (inScope (stmts env body)) := by
  obtain ⟨scope, hscope⟩ := declareAll_cons [] sight body
  rw [hscope] at h
  exact inScope_turns h

/-- A loop fails where its condition or its body does. -/
theorem loopSteps_turns (henv : Accepted env room) {e : Expr} {body : List Stmt}
    (hwf : e.WellFormed env.program (sight ++ [env.program.scope]))
    (hbody : Turns env.program room sight whole sight whole' (inScope (stmts env body))) :
    Turns env.program room sight whole sight whole' (loopSteps env e body) := by
  refine freshLabel_turns.bind fun enter => freshLabel_turns.bind fun check => ?_
  refine hbody.bind fun inner => Triple.ite (fun _ => ?_) fun _ => ?_
  · exact (Triple.pure (fun _ h => h) _).bind fun _ => Triple.pure (fun _ h => h) _
  · refine (test_careful henv hwf 0).bind fun _ => ?_
    exact (Triple.pure (fun _ h => h) _).bind fun _ => Triple.pure (fun _ h => h) _

/-- The parts of an arm follow one another. -/
theorem armSteps_turns {e : Expr} {consequent : List Stmt} {alternate : Alternate}
    {whole'' : Extent} (htest : Turns p room sight whole sight whole (test env e))
    (hbody : Turns p room sight whole sight whole' (inScope (stmts env consequent)))
    {done : Nat}
    (hother : Turns p room sight whole' sight whole'' (otherwise env (some done) alternate))
    (ending : Lines) :
    Turns p room sight whole sight whole''
      (armSteps env e consequent alternate done ending) := by
  cases alternate with
  | none =>
      have hend : ∀ s, Looks p sight whole' 0 s → Looks p sight whole'' 0 s := by
        intro s hs
        refine hother.ends s [] s hs ?_
        unfold otherwise
        rfl
      exact htest.bind fun _ => hbody.bind fun _ => Triple.pure hend _
  | _ =>
      exact freshLabel_turns.bind fun _ => htest.bind fun _ => hbody.bind fun _ =>
        hother.bind fun _ => Triple.pure (fun _ h => h) _

mutual

/-- A well-formed statement leads on as it declares, or fails for a reason. -/
theorem stmt_turns (henv : Accepted env room) : ∀ (st : Stmt) {sight : Sight} {whole : Extent},
    st.Everywhere (Leaf.WellFormed env.program [env.program.scope] env.returnType) sight →
    (room → (whole.addAll env.program.extent st.laid).size < 2 ^ 64) →
    Turns env.program room sight whole (st.declare sight)
      (whole.addAll env.program.extent st.laid) (stmt env st)
  | .block body, sight, whole, hwf, hfits => by
      unfold stmt
      exact block_turns (stmts_turns henv body hwf hfits)
  | .branch arm, sight, whole, hwf, hfits => by
      unfold stmt
      exact ifArm_turns henv none arm hwf hfits
  | .loop e body pos, sight, whole, hwf, hfits => by
      rw [stmt_loop]
      unfold Stmt.laid at hfits ⊢
      refine Triple.ite (fun hc => ?_) fun hc => ?_
      · refine Triple.lift_bind (liftEval_fails _) fun never hnever => ?_
        rw [hc, liftEval_ok.1 hnever] at hfits ⊢
        cases never with
        | true => exact Triple.pure (fun _ h => h) _
        | false =>
            exact loopSteps_turns henv hwf.1 (block_turns (stmts_turns henv body hwf.2 hfits))
      · have hnever : (e.isConstant && e.foldsToZero.toOption == some true) = false := by
          rw [Bool.not_eq_true] at hc
          rw [hc, Bool.false_and]
        rw [hnever] at hfits ⊢
        rw [pure_bind]
        exact loopSteps_turns henv hwf.1 (block_turns (stmts_turns henv body hwf.2 hfits))
  | .ret value pos, sight, whole, hwf, hfits => by
      unfold stmt
      exact ret_turns henv hwf
  | .variable decl, sight, whole, hwf, hfits => by
      unfold stmt
      exact variableDecl_turns henv hwf.2 hfits
  | .expr e, sight, whole, hwf, hfits => by
      unfold stmt
      exact Triple.map (effect_careful henv hwf 0)
  | .function _, sight, whole, hwf, hfits => hwf.elim
  | .aggregate _, sight, whole, hwf, hfits => hwf.elim

/-- A list of statements fails only as explained, and declares what it should. -/
theorem stmts_turns (henv : Accepted env room) : ∀ (body : List Stmt) {sight : Sight}
    {whole : Extent},
    Stmt.EverywhereIn (Leaf.WellFormed env.program [env.program.scope] env.returnType) sight body →
    (room → (whole.addAll env.program.extent (laidAll body)).size < 2 ^ 64) →
    Turns env.program room sight whole (declareAll sight body)
      (whole.addAll env.program.extent (laidAll body)) (stmts env body)
  | [], sight, whole, hwf, hfits => by
      unfold stmts
      exact Triple.pure (fun _ h => h) _
  | st :: rest, sight, whole, hwf, hfits => by
      unfold laidAll at hfits ⊢
      rw [Extent.addAll_append] at hfits ⊢
      unfold stmts
      refine (stmt_turns henv st hwf.1 fun hr => ?_).bind fun _ => ?_
      · exact Nat.lt_of_le_of_lt (Extent.size_le_addAll _ _ _) (hfits hr)
      · exact (stmts_turns henv rest hwf.2 hfits).bind fun _ => Triple.pure (fun _ h => h) _

theorem ifArm_turns (henv : Accepted env room) : ∀ (shared : Option Nat) (arm : Arm)
    {sight : Sight} {whole : Extent},
    arm.Everywhere (Leaf.WellFormed env.program [env.program.scope] env.returnType) sight →
    (room → (whole.addAll env.program.extent arm.laid).size < 2 ^ 64) →
    Turns env.program room sight whole sight (whole.addAll env.program.extent arm.laid)
      (ifArm env shared arm)
  | shared, ⟨e, consequent, alternate, pos⟩, sight, whole, hwf, hfits => by
      unfold Arm.laid at hfits ⊢
      by_cases hc : e.isConstant = true
      · rw [ifArm_folded hc]
        refine Triple.lift_bind (liftEval_fails _) fun zero hzero => ?_
        rw [if_pos hc, liftEval_ok.1 hzero] at hfits ⊢
        cases zero with
        | true => exact otherwise_turns henv shared alternate hwf.2.2 hfits
        | false => exact block_turns (stmts_turns henv consequent hwf.2.1 hfits)
      · rw [if_neg hc, Extent.addAll_append] at hfits ⊢
        have htest : Turns env.program room sight whole sight whole (test env e) :=
          test_careful henv hwf.1 0
        have hbody := block_turns (stmts_turns henv consequent hwf.2.1 fun hr =>
          Nat.lt_of_le_of_lt (Extent.size_le_addAll _ _ _) (hfits hr))
        have hother := fun shared => otherwise_turns henv shared alternate hwf.2.2 hfits
        have hsteps := fun done ending =>
          armSteps_turns htest hbody (hother (some done)) ending
        cases shared with
        | some done =>
            rw [ifArm_shared hc]
            exact hsteps done []
        | none =>
            rw [ifArm_first hc]
            exact freshLabel_turns.bind fun done => hsteps done _

theorem otherwise_turns (henv : Accepted env room) : ∀ (shared : Option Nat)
    (alternate : Alternate) {sight : Sight} {whole : Extent},
    alternate.Everywhere (Leaf.WellFormed env.program [env.program.scope] env.returnType) sight →
    (room → (whole.addAll env.program.extent alternate.laid).size < 2 ^ 64) →
    Turns env.program room sight whole sight (whole.addAll env.program.extent alternate.laid)
      (otherwise env shared alternate)
  | shared, .none, sight, whole, hwf, hfits => by
      unfold otherwise
      exact Triple.pure (fun _ h => h) _
  | shared, .block body, sight, whole, hwf, hfits => by
      unfold otherwise
      exact block_turns (stmts_turns henv body hwf hfits)
  | shared, .elseIf arm, sight, whole, hwf, hfits => by
      unfold otherwise
      exact ifArm_turns henv shared arm hwf hfits

end

end Statements

-- ============================================================= functions

section Functions

variable {p : Program} {room : Prop} {sight : Sight} {whole : Extent}

/-- A parameter gets a slot of its type's size. -/
theorem spill_turns {param : VariableDecl}
    (hfits : room → (whole.add (Extent.ofTy p.extent param.ty)).size < 2 ^ 64) (r : Reg) :
    Turns p room sight whole (sight.bind param.name param.ty)
      (whole.add (Extent.ofTy p.extent param.ty)) (spill param r) := by
  refine Turns.of_leads ?_ (spill_leads param r)
  have hslot : ∀ ty : Ty, (∀ w, widthOf ty = .ok w → Extent.ofTy p.extent ty = ⟨w.bytes, w.bytes⟩) →
      (room → (whole.add (Extent.ofTy p.extent ty)).size < 2 ^ 64) →
      Triple (Looks p sight whole 0)
        (Shows (sight.bind param.name ty) (whole.add (Extent.ofTy p.extent ty)) 0)
        (GenError.Explained p room) (do
          let width ← widthOf ty
          let offset ← framed? fun f => f.alloc? width.bytes width.bytes
          framed fun f => ((), f.bind param.name ⟨offset, ty⟩)
          return .mov (.mem width (.stack offset)) (reg width r) : Gen Instr) := by
    intro ty hwidth hfits
    refine Triple.lift_bind (widthOf_fails _) fun w hw => ?_
    have hsane := p.extent_sane ty
    rw [hwidth w hw] at hsane hfits ⊢
    refine (alloc_turns hsane hfits).bind fun offset => ?_
    exact (bind_shows param.name ⟨offset, ty⟩).bind fun _ => Triple.pure (fun _ h => h) _
  unfold spill
  cases hty : param.ty with
  | float => exact Triple.throw trivial
  | double => exact Triple.throw trivial
  | named _ => exact Triple.throw trivial
  | void => exact hslot _ (fun w hw => by cases hw) (hty ▸ hfits)
  | _ => exact hslot _ (fun w hw => by cases hw; rfl) (hty ▸ hfits)

/-- The parameters come into sight one after the other. -/
theorem spills_turns (pairs : List (VariableDecl × Reg)) {scope : List (String × Ty)}
    (hfits : room → (whole.addAll p.extent (pairs.map Prod.fst)).size < 2 ^ 64) :
    Turns p room [scope] whole [scopeOf (pairs.map Prod.fst) ++ scope]
      (whole.addAll p.extent (pairs.map Prod.fst)) (pairs.mapM fun q => spill q.1 q.2) := by
  induction pairs generalizing scope whole with
  | nil => exact Triple.pure (fun _ h => h) _
  | cons q rest ih =>
      rw [List.mapM_cons]
      have hscope : scopeOf ((q :: rest).map Prod.fst) ++ scope
          = scopeOf (rest.map Prod.fst) ++ (q.1.name, q.1.ty) :: scope := by
        unfold scopeOf
        simp
      rw [hscope]
      refine (spill_turns (fun hr => ?_) q.2).bind fun _ => ?_
      · exact Nat.lt_of_le_of_lt (Extent.size_le_addAll _ _ _) (hfits hr)
      · exact (ih hfits).bind fun _ => Triple.pure (fun _ h => h) _

theorem spillAll_turns {params : List VariableDecl}
    (hfits : room → (Extent.ofDecls p.extent params).size < 2 ^ 64) :
    Turns p room [[]] .empty [scopeOf params] (Extent.ofDecls p.extent params)
      (spillAll params) := by
  refine Triple.ite (fun _ => Triple.throw trivial) fun hle => ?_
  have hfst : (params.zip paramRegs).map Prod.fst = params :=
    List.map_fst_zip (Nat.le_of_not_lt hle)
  have hturns : Turns p room [[]] .empty [scopeOf ((params.zip paramRegs).map Prod.fst) ++ []]
      (Extent.empty.addAll p.extent ((params.zip paramRegs).map Prod.fst))
      ((params.zip paramRegs).mapM fun q => spill q.1 q.2) :=
    spills_turns _ fun hr => by
      rw [hfst]
      exact hfits hr
  rw [hfst, List.append_nil] at hturns
  exact hturns

variable {env : Env}

theorem bodyLines_turns (henv : Accepted env room) {decl : FunctionDecl}
    (hdecl : decl.WellFormed env.program [env.program.scope])
    (hreturn : env.returnType = decl.returnType)
    (hfits : room → env.program.frameDepth decl < 2 ^ 64) :
    Turns env.program room [[]] .empty (declareAll decl.sight decl.body)
      (Extent.ofDecls env.program.extent (decl.params ++ laidAll decl.body))
      (bodyLines env decl) := by
  unfold Program.frameDepth at hfits
  unfold Extent.ofDecls at hfits ⊢
  rw [Extent.addAll_append] at hfits ⊢
  have hbody := hdecl.body
  rw [← hreturn] at hbody
  refine (spillAll_turns fun hr => ?_).bind fun _ => ?_
  · exact Nat.lt_of_le_of_lt (Extent.size_le_addAll _ _ _) (hfits hr)
  · refine (stmts_turns henv decl.body hbody hfits).bind fun _ => Triple.get fun s hs => ?_
    rw [if_neg (not_not_intro hs.pushed)]
    refine Triple.pure ?_ _
    rintro _ rfl
    exact hs

/-- The room that a frame reserves can be rounded up. -/
theorem reservation?_fails {frame : Frame} (h : room → Roundable frame.depth 16)
    (noRedZone : Bool) :
    Only (GenError.Explained p room) (reservation? frame noRedZone) := by
  refine Only.ite (fun _ => Only.ok _) fun _ => ?_
  cases hsize : frame.size? with
  | some size => exact Only.ok _
  | none =>
      refine Only.error fun hr => ?_
      have hround := (h hr).alignUp? (by decide)
      cases hsize.symm.trans hround

/-- A function of an accepted program fails to be generated only for a
reason. -/
theorem function_fails (hp : p.WellFormed) (hroom : room → p.Representable)
    {decl : FunctionDecl} (hdecl : decl ∈ p.functions) (noRedZone : Bool) (strings : StringPool) :
    Only (GenError.Explained p room)
      (function p (globalTypes p.globals) noRedZone strings decl) := by
  have henv : Accepted ⟨p, globalTypes p.globals, decl.returnType⟩ room :=
    ⟨hp, rfl, fun hr => (hroom hr).aggregates⟩
  have hframe := fun hr => (hroom hr).frames decl hdecl
  have hturns := bodyLines_turns henv (hp.function hdecl) rfl fun hr =>
    Nat.lt_of_le_of_lt (le_roundUp _ _) (hframe hr).fits
  have hstart : Looks p [[]] .empty 0 ⟨.empty, strings⟩ := ⟨⟨rfl, rfl, rfl⟩, .empty⟩
  refine Only.bind (hturns.fails _ hstart) fun r hr => ?_
  obtain ⟨body, s⟩ := r
  have hend := hturns.ends _ body s hstart hr
  refine Only.bind (reservation?_fails (fun h => ?_) noRedZone) fun _ _ => Only.ok _
  rw [hend.depth]
  exact hframe h

end Functions

-- ============================================================== programs

section Programs

variable {p : Program} {room : Prop} (hp : p.WellFormed) (hroom : room → p.Representable)

include hp hroom

/-- A global fails by its type or by its initial value. -/
theorem global_fails {decl : VariableDecl} (hdecl : decl ∈ p.globals) (asm : Assembly)
    (strings : StringPool) :
    Only (GenError.Explained p room) (global p decl asm strings) := by
  have hty := (hp.global hdecl).ty
  refine Only.bind (hp.sizeAlign_fails (fun hr => (hroom hr).aggregates) hty) fun found _ => ?_
  dsimp only
  split
  · exact Only.ite (fun _ => Only.error trivial) fun _ => Only.ok _
  · exact Only.ite (fun _ => Only.error trivial) fun _ => Only.ok _
  · split
    · exact Only.ok _
    · split
      · exact Only.ok _
      · refine Only.ite (fun _ => ?_) fun _ => Only.error trivial
        refine Only.bind (liftEval_fails _) fun lit _ => Only.ite (fun _ => ?_) fun _ => ?_
        · exact Only.bind (realText_fails lit) fun _ _ => Only.ok _
        · exact Only.bind (immediate_fails lit _) fun _ _ => Only.ok _

theorem globals_fails {decls : List VariableDecl} (hdecls : ∀ d ∈ decls, d ∈ p.globals)
    (asm : Assembly) (strings : StringPool) :
    Only (GenError.Explained p room) (globals p decls asm strings) := by
  induction decls generalizing asm strings with
  | nil => exact Only.ok _
  | cons d rest ih =>
      refine Only.bind (global_fails hp hroom (hdecls d List.mem_cons_self) asm strings)
        fun r _ => ?_
      exact ih (fun d' hd' => hdecls d' (List.mem_cons_of_mem d hd')) r.1 r.2

theorem functions_fails {decls : List FunctionDecl} (hdecls : ∀ f ∈ decls, f ∈ p.functions)
    (noRedZone : Bool) (asm : Assembly) (strings : StringPool) :
    Only (GenError.Explained p room) (functions p noRedZone decls asm strings) := by
  induction decls generalizing asm strings with
  | nil => exact Only.ok _
  | cons f rest ih =>
      refine Only.bind
        (function_fails hp hroom (hdecls f List.mem_cons_self) noRedZone strings) fun r _ => ?_
      exact ih (fun f' hf' => hdecls f' (List.mem_cons_of_mem f hf')) _ r.2

/-- Code generation of an accepted program fails only for a reason. -/
theorem generate_fails (noRedZone : Bool) :
    Only (GenError.Explained p room) (p.generate noRedZone) := by
  refine Only.ite (fun _ => Only.ok _) fun _ => Only.ite (fun _ => Only.error trivial) fun _ => ?_
  refine Only.bind (globals_fails hp hroom (fun _ h => h) _ _) fun r _ => ?_
  exact Only.bind (functions_fails hp hroom (fun _ h => h) noRedZone _ _) fun _ _ => Only.ok _

end Programs

end MiniC.Codegen
