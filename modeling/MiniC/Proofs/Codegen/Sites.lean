/-
Code generation goes along the sites of a function.

# What a site demands

A reference demands that its own place is met, with no wider an operand than
its type, and a local that gets its first value that its slot is
(`meeting`). The sites of a statement thus become a list of demands, and
the operands in memory of its lines are held against it one by one
(`Kempt.meets`).

# How it is proved

A rule carries four things along a step (`Walks`): the names in sight, the
depth of the frame, the growth of the pool of strings, and what is known of the
answer. From names that stand for certain slots, at the depth of certain
locals, the lines of a statement lead to the names and the depth that the
source says are behind it (`stmt_walks`). The induction is on the statement;
the code of its expressions is known from `eval_emits`, `effect_emits` and
`test_emits`, so each case only puts lists behind one another, the same way on
both sides. What is left out of the code by folding is left out of the sites by
the same test.

Between statements no push is open, since pushes and pops are paired in the
code of one expression and labels and jumps stand between expressions only. The
parameters are stored first, each into its own slot (`bodyLines_walks`).

Consumed by the proofs about stack frames and about symbols.
-/
import MiniC.Proofs.Asm.Nesting
import MiniC.Proofs.Codegen.Composition
import MiniC.Proofs.Codegen.Locals
import MiniC.Proofs.Codegen.Marks

namespace MiniC.Codegen

open Asm Steps Line

-- ================================================================= lines

/-- Lines whose instructions work on values and on labels of the pool, with
pushes and pops nested, and that meet memory as demanded. -/
structure Kempt (bound : Nat) (ms : List Meeting) (ls : Lines) : Prop where
  nested : nesting 0 ls = some 0
  works : ∀ i, .insn i ∈ ls → i.Works (Pooled bound) ∨ i = .push .rax ∨ i = .pop .rax
  meets : Heeds ms ((code ls).flatMap Instr.met)

section Kempt

variable {bound : Nat} {ms ms' : List Meeting}

theorem nest_works {label : String → Prop} {i : Instr} (h : i.Works label) (n : Nat) :
    nest n (.insn i) = some n := by
  cases i with
  | push r => exact h.elim
  | pop r => exact h.elim
  | leave => exact h.elim
  | ret => exact h.elim
  | _ => rfl

theorem nesting_composed {kind : Instr → Prop}
    (hkind : ∀ i, kind i → ∀ n, nest n (.insn i) = some n)
    {code : Code} (h : Composed kind code) (n : Nat) : nesting n (lines code) = some n := by
  induction h generalizing n with
  | nil => rfl
  | cons hi _ ih => exact nesting_cons.2 ⟨n, hkind _ hi n, ih n⟩
  | @saved inner rest _ _ ihinner ihrest =>
      have hlines : lines (.push .rax :: (inner ++ .pop .rax :: rest))
          = .insn (.push .rax) :: (lines inner ++ .insn (.pop .rax) :: lines rest) := by
        unfold lines
        rw [List.map_cons, List.map_append, List.map_cons]
      rw [hlines]
      refine nesting_cons.2 ⟨n + 1, rfl, nesting_append.2 ⟨n + 1, ihinner (n + 1), ?_⟩⟩
      exact nesting_cons.2 ⟨n, rfl, ihrest n⟩

theorem code_lines (is : Code) : code (lines is) = is := by
  unfold code lines
  rw [List.filterMap_map]
  exact List.filterMap_some

/-- The code of an expression is kept as its demands are. -/
theorem Made.kempt {is : Code} (h : Made bound ms is) : Kempt bound ms (lines is) where
  nested := nesting_composed (fun _ => nest_works) h.composed 0
  works i hi := by
    obtain ⟨j, hj, heq⟩ := List.mem_map.1 hi
    cases heq
    exact h.composed.mem i hj
  meets := by
    rw [code_lines]
    exact h.meets

/-- Lines behind lines meet memory as those do, and then as these do. -/
theorem Kempt.append {a b : Lines} (ha : Kempt bound ms a) (hb : Kempt bound ms' b) :
    Kempt bound (ms ++ ms') (a ++ b) where
  nested := nested_append ha.nested hb.nested
  works i hi := (List.mem_append.1 hi).elim (ha.works i) (hb.works i)
  meets := by
    rw [code_append, List.flatMap_append]
    exact List.rel_append ha.meets hb.meets

/-- Lines that meet nothing may stand behind any. -/
theorem Kempt.extend {a b : Lines} (ha : Kempt bound ms a) (hb : Kempt bound [] b) :
    Kempt bound ms (a ++ b) :=
  List.append_nil ms ▸ ha.append hb

/-- Labels, jumps and epilogues. -/
theorem Kempt.control {ls : Lines} (h : ∀ line ∈ ls, ∀ i, line ≠ .insn i) : Kempt bound [] ls where
  nested := by
    induction ls with
    | nil => rfl
    | cons line rest ih =>
        have hrest := ih fun l hl => h l (List.mem_cons_of_mem line hl)
        cases line with
        | insn i => exact absurd rfl (h _ List.mem_cons_self i)
        | _ => exact nesting_cons.2 ⟨0, rfl, hrest⟩
  works i hi := absurd rfl (h _ hi i)
  meets := by
    have hnone : code ls = [] := List.filterMap_eq_nil_iff.2 fun line hline => by
      cases line with
      | insn i => exact absurd rfl (h _ hline i)
      | _ => rfl
    rw [hnone]
    exact .nil

theorem Kempt.nil : Kempt bound [] [] := .control fun _ hline => absurd hline List.not_mem_nil

theorem Kempt.label (n : Nat) : Kempt bound [] [.label n] :=
  .control fun line hline i heq => by cases List.mem_singleton.1 hline; cases heq

theorem Kempt.jump (kind : Jump) (n : Nat) : Kempt bound [] [.jump kind n] :=
  .control fun line hline i heq => by cases List.mem_singleton.1 hline; cases heq

theorem Kempt.epilogue : Kempt bound [] [.epilogue] :=
  .control fun line hline i heq => by cases List.mem_singleton.1 hline; cases heq

theorem Kempt.ite {c : Prop} [Decidable c] {a b : Lines} (ha : Kempt bound ms a)
    (hb : Kempt bound ms b) : Kempt bound ms (if c then a else b) := by
  split
  · exact ha
  · exact hb

end Kempt

-- ================================================================= walks

/-- Whether a step leads from names and a depth to names and a depth, takes no
string out of the pool, and answers with something of the kind if the pool
behind it is within the bound. -/
def Walks {α : Type} (bound : Nat) (scopes : Scopes) (whole : Extent) (scopes' : Scopes)
    (whole' : Extent) (kind : α → Prop) (step : Gen α) : Prop :=
  ∀ s a t, s.frame.scopes = scopes → s.frame.depth = whole.size → step s = .ok (a, t) →
    t.frame.scopes = scopes' ∧ t.frame.depth = whole'.size
      ∧ s.strings.values.length ≤ t.strings.values.length
      ∧ (t.strings.values.length ≤ bound → kind a)

section Rules

variable {α β : Type} {bound : Nat} {scopes scopes' scopes'' : Scopes}
  {whole whole' whole'' : Extent} {kind : α → Prop} {kind' : β → Prop}

/-- Steps walk one behind the other. -/
theorem Walks.bind {x : Gen α} {g : α → Gen β}
    (hx : Walks bound scopes whole scopes' whole' kind x)
    (hg : ∀ a, Walks bound scopes' whole' scopes'' whole'' (fun b => kind a → kind' b) (g a)) :
    Walks bound scopes whole scopes'' whole'' kind' (x >>= g) := by
  intro s b t hs hdepth h
  obtain ⟨a, u, hfirst, hrest⟩ := bind_ok.1 h
  obtain ⟨hu, hudepth, hsu, ha⟩ := hx s a u hs hdepth hfirst
  obtain ⟨ht, htdepth, hut, hb⟩ := hg a u b t hu hudepth hrest
  exact ⟨ht, htdepth, Nat.le_trans hsu hut, fun hle => hb hle (ha (Nat.le_trans hut hle))⟩

theorem Walks.pure {a : α} (h : kind a) :
    Walks bound scopes whole scopes whole kind (pure a : Gen α) := by
  intro s b t hs hdepth hpure
  obtain ⟨rfl, rfl⟩ := pure_ok.1 hpure
  exact ⟨hs, hdepth, Nat.le_refl _, fun _ => h⟩

/-- An answer leads as far as any other. -/
theorem Walks.like {a : α} {b : β}
    (hb : Walks bound scopes whole scopes' whole' kind' (Pure.pure b : Gen β))
    (h : kind' b → kind a) :
    Walks bound scopes whole scopes' whole' kind (Pure.pure a : Gen α) := by
  intro s c t hs hdepth hpure
  obtain ⟨rfl, rfl⟩ := pure_ok.1 hpure
  obtain ⟨hs', hdepth', hle, hkind⟩ := hb s b s hs hdepth rfl
  exact ⟨hs', hdepth', hle, fun hbound => h (hkind hbound)⟩

theorem Walks.fail (e : GenError) :
    Walks bound scopes whole scopes' whole' kind (Codegen.fail e : Gen α) :=
  fun _ _ _ _ _ h => (fail_ok.1 h).elim

/-- A question that no frame is needed for, and what its answer leads to. -/
theorem Walks.lift_bind {x : Except GenError α} {g : α → Gen β}
    (hg : ∀ a, x = .ok a → Walks bound scopes whole scopes' whole' kind' (g a)) :
    Walks bound scopes whole scopes' whole' kind' (liftM x >>= g) := by
  intro s b t hs hdepth h
  obtain ⟨a, _, hlift, hrest⟩ := bind_ok.1 h
  obtain ⟨ha, rfl⟩ := lift_ok.1 hlift
  exact hg a ha s b t hs hdepth hrest

/-- A step that looks at the state first. -/
theorem Walks.get_bind {g : State → Gen β}
    (hg : ∀ s, Walks bound scopes whole scopes' whole' kind' (g s)) :
    Walks bound scopes whole scopes' whole' kind' (get >>= g) :=
  fun s b t hs hdepth h => hg s s b t hs hdepth h

theorem Walks.ite {c : Prop} [Decidable c] {x y : Gen α}
    (hx : c → Walks bound scopes whole scopes' whole' kind x)
    (hy : ¬ c → Walks bound scopes whole scopes' whole' kind y) :
    Walks bound scopes whole scopes' whole' kind (if c then x else y) := by
  split
  · exact hx ‹_›
  · exact hy ‹_›

/-- What is known of the answer may be less. -/
theorem Walks.weaken {kind' : α → Prop} {step : Gen α}
    (h : Walks bound scopes whole scopes' whole' kind step) (himp : ∀ a, kind a → kind' a) :
    Walks bound scopes whole scopes' whole' kind' step := by
  intro s a t hs hdepth hstep
  obtain ⟨ht, htdepth, hle, ha⟩ := h s a t hs hdepth hstep
  exact ⟨ht, htdepth, hle, fun hbound => himp a (ha hbound)⟩

theorem Walks.map {g : α → β} {step : Gen α}
    (h : Walks bound scopes whole scopes' whole' (fun a => kind' (g a)) step) :
    Walks bound scopes whole scopes' whole' kind' (g <$> step) := by
  intro s b t hs hdepth hstep
  obtain ⟨a, ha, rfl⟩ := map_ok.1 hstep
  exact h s a t hs hdepth ha

/-- The frame of names. -/
def frameOf (scopes : Scopes) : Frame := { Frame.empty with scopes }

/-- The code of an expression stays where it is. -/
theorem Emits.walks {step : Gen α} (h : Emits (frameOf scopes) bound kind step)
    (hquiet : Quiet step) : Walks bound scopes whole scopes whole kind step := by
  intro s a t hs hdepth hstep
  obtain ⟨ht, hle, ha⟩ := h s a t hs hstep
  exact ⟨ht, ((hquiet s a t hstep).depth).trans hdepth, hle, ha⟩

end Rules

-- ================================================================= sites

/-- What a site demands of the operand that it is met with. -/
def meeting (env : Env) : Site → Meeting
  | .ref scopes e => Names env (frameOf scopes) e
  | .first v => At (.stack v.offset) v.decl.ty

/-- The demands of sites, one for each. -/
abbrev meetings (env : Env) (sites : List Site) : List Meeting := sites.map (meeting env)

section Statements

variable {env : Env} {bound : Nat} {ms ms' : List Meeting} {scopes scopes' : Scopes}
  {whole whole' : Extent}

/-- Sites that follow each other demand one behind the other. -/
theorem meetings_append (env : Env) (a b : List Site) :
    meetings env (a ++ b) = meetings env a ++ meetings env b :=
  List.map_append

/-- The references of expressions demand their places. -/
theorem meetings_refs (env : Env) (scopes : Scopes) (es : List Expr) :
    meetings env (es.map (Site.ref scopes)) = demands env (frameOf scopes) es :=
  List.map_map

/-- A label moves no name and no slot. -/
theorem freshLabel_walks : Walks bound scopes whole scopes whole (fun _ => True) freshLabel := by
  intro s n t hs hdepth h
  obtain ⟨-, rfl⟩ := freshLabel_ok.1 h
  exact ⟨hs, hdepth, Nat.le_refl _, fun _ => trivial⟩

/-- A scope takes its names away. -/
theorem inScope_walks {scope : List (String × StackSlot)} {step : Gen Lines}
    {kind : Lines → Prop}
    (h : Walks bound ([] :: scopes) whole (scope :: scopes) whole' kind step) :
    Walks bound scopes whole scopes whole' kind (inScope step) := by
  intro s ls t hs hdepth hstep
  obtain ⟨u, hinner, rfl⟩ := inScope_ok.1 hstep
  have hpush : s.frame.pushScope.scopes = [] :: scopes := congrArg ([] :: ·) hs
  obtain ⟨hu, hudepth, hle, hls⟩ :=
    h { s with frame := s.frame.pushScope } ls u hpush hdepth hinner
  refine ⟨?_, hudepth, hle, hls⟩
  show u.frame.scopes.drop 1 = scopes
  rw [hu]
  rfl

theorem scopes_bind (f : Frame) (v : Local) :
    (f.bind v.decl.name ⟨v.offset, v.decl.ty⟩).scopes = Scopes.bring f.scopes v := by
  unfold Frame.bind Scopes.bring
  split
  · rename_i hscopes
    rw [hscopes]
  · rename_i scope outer hscopes
    rw [hscopes]

/-- A local gets the next slot. -/
theorem alloc_walks {p : Program} {decl : VariableDecl} {size align : Nat}
    (hextent : Extent.ofTy p.extent decl.ty = ⟨size, align⟩) :
    Walks bound scopes whole scopes (p.behind whole decl)
      (fun offset => offset = (p.next whole decl).offset)
      (framed? fun f => f.alloc? size align) := by
  intro s offset t hs hdepth h
  obtain ⟨frame, halloc, rfl⟩ := framed?_ok.1 h
  obtain ⟨-, hoffset, -, -⟩ := Frame.alloc?_some halloc
  cases Frame.alloc?_exact halloc
  have hbehind : roundUp s.frame.depth align + size = (p.behind whole decl).size := by
    unfold Program.behind
    rw [hextent, hdepth]
    rfl
  exact ⟨hs, hbehind, Nat.le_refl _, fun _ => hoffset.symm.trans hbehind⟩

/-- A local comes into sight. -/
theorem bring_walks (v : Local) :
    Walks bound scopes whole (scopes.bring v) whole (fun _ => True)
      (framed fun f => ((), f.bind v.decl.name ⟨v.offset, v.decl.ty⟩)) := by
  intro s x t hs hdepth h
  obtain ⟨frame, hframe, rfl⟩ := framed_ok.1 h
  cases hframe
  refine ⟨?_, (Frame.depth_bind _ _ _).trans hdepth, Nat.le_refl _, fun _ => trivial⟩
  show (s.frame.bind v.decl.name ⟨v.offset, v.decl.ty⟩).scopes = _
  rw [scopes_bind, hs]

/-- A variable gets its slot, and its name comes into sight there. -/
theorem variableDecl_walks (hp : env.program.WellFormed) {decl : VariableDecl}
    (hty : decl.ty.Known env.program) :
    Walks bound scopes whole (scopes.bring (env.program.next whole decl))
      (env.program.behind whole decl)
      (Kempt bound (meetings env ((Stmt.variable decl).sites env.program scopes whole)))
      (variableDecl env decl) := by
  intro s ls t hs hdepth h
  unfold variableDecl at h
  simp only [bind_ok, lift_ok] at h
  obtain ⟨⟨size, align⟩, _, ⟨hsize, rfl⟩, offset, u, halloc, h⟩ := h
  have hextent := hp.sizeAlign_exact False.elim hty hsize
  obtain ⟨hu, hudepth, hle, hoffset⟩ := alloc_walks hextent s offset u hs hdepth halloc
  obtain rfl := hoffset (Nat.le_refl _)
  -- the code of the initializer, if any, and the name behind it
  have hinit : ∀ (ms : List Meeting) (code : Gen Code),
      Emits (frameOf scopes) bound (Made bound ms) code → Quiet code → (do
        let code ← code
        framed fun f => ((), f.bind decl.name ⟨(env.program.next whole decl).offset, decl.ty⟩)
        return lines code : Gen Lines) u = .ok (ls, t) →
      t.frame.scopes = scopes.bring (env.program.next whole decl)
        ∧ t.frame.depth = (env.program.behind whole decl).size
        ∧ s.strings.values.length ≤ t.strings.values.length
        ∧ (t.strings.values.length ≤ bound → Kempt bound ms ls) := by
    intro ms code hcode hquiet hrest
    have hwalk : Walks bound scopes (env.program.behind whole decl)
        (scopes.bring (env.program.next whole decl)) (env.program.behind whole decl)
        (Kempt bound ms) (do
          let code ← code
          framed fun f => ((), f.bind decl.name ⟨(env.program.next whole decl).offset, decl.ty⟩)
          return lines code : Gen Lines) :=
      (hcode.walks hquiet).bind fun _ => (bring_walks (env.program.next whole decl)).bind fun _ =>
        .pure fun _ hmade => hmade.kempt
    obtain ⟨ht, htdepth, hut, hkempt⟩ := hwalk u ls t hu hudepth hrest
    exact ⟨ht, htdepth, Nat.le_trans hle hut, hkempt⟩
  unfold Stmt.sites
  cases hvalue : decl.init with
  | none =>
      rw [hvalue] at h
      exact hinit [] _ (.pure .nil) (.pure _) h
  | some init =>
      have hstore : Emits (frameOf scopes) bound
          (Made bound (meetings env (init.references.map (.ref scopes)
            ++ [.first (env.program.next whole decl)])))
          (storeValue env (.stack (env.program.next whole decl).offset) decl.ty init
            (eval env init)) := by
        rw [meetings_append, meetings_refs]
        exact storeValue_emits (At.opens _ _) (eval_emits init)
      rw [hvalue] at h
      cases hname : decl.ty with
      | named _ =>
          rw [hname] at h hinit
          exact hinit _ _ (.fail _) (.fail _) h
      | _ =>
          rw [hname] at h hstore hinit
          exact hinit _ _ hstore (storeValue_quiet _ _ (eval_quiet env init)) h

/-- A return meets what its value refers to. -/
theorem ret_walks {value : Option Expr} {pos : Position} :
    Walks bound scopes whole scopes whole
      (Kempt bound (meetings env ((Stmt.ret value pos).sites env.program scopes whole)))
      (ret env value) := by
  cases value with
  | none =>
      unfold Stmt.sites
      exact .pure .epilogue
  | some e =>
      unfold Stmt.sites
      rw [meetings_refs]
      refine .ite (fun _ => .fail _) fun _ => .ite (fun _ => .fail _) fun _ => ?_
      refine Walks.bind (Emits.walks (evalTo_emits (eval_emits e) _)
        (evalTo_quiet (eval_quiet env e) _)) fun code => ?_
      exact .pure fun hcode => hcode.kempt.extend .epilogue

/-- A test meets what its condition refers to. -/
theorem test_walks (env : Env) (e : Expr) :
    Walks bound scopes whole scopes whole (Made bound (demands env (frameOf scopes) e.references))
      (test env e) :=
  Emits.walks (test_emits e) (test_quiet env e)

/-- The body of a block leaves the names outside it as they are. -/
theorem block_walks {body : List Stmt}
    (h : Walks bound ([] :: scopes) whole (bringAll env.program body ([] :: scopes) whole) whole'
      (Kempt bound ms) (stmts env body)) :
    Walks bound scopes whole scopes whole' (Kempt bound ms) (inScope (stmts env body)) := by
  obtain ⟨scope, hscope⟩ := bringAll_cons env.program [] scopes whole body
  rw [hscope] at h
  exact inScope_walks h

/-- A loop meets what its body does, and then what its condition does. -/
theorem loopSteps_walks {e : Expr} {body : List Stmt}
    (hbody : Walks bound scopes whole scopes whole' (Kempt bound ms) (inScope (stmts env body))) :
    Walks bound scopes whole scopes whole'
      (Kempt bound (ms ++ demands env (frameOf scopes) e.references)) (loopSteps env e body) := by
  refine freshLabel_walks.bind fun enter => freshLabel_walks.bind fun check => ?_
  refine hbody.bind fun inner => ?_
  have hloop : ∀ {ms' : List Meeting} {bottom : Lines}, Kempt bound ms inner →
      Kempt bound ms' bottom →
      Kempt bound (ms ++ ms')
        ([.jump .jmp check, .label enter] ++ inner ++ [.label check] ++ bottom) :=
    fun hinner hbottom =>
      ((((Kempt.jump .jmp check).append (.label enter)).append hinner).extend (.label check)).append
        hbottom
  refine Walks.ite (fun hconst => ?_) fun _ => (test_walks env e).bind fun code => ?_
  · rw [pure_bind, Expr.references_constant hconst]
    exact .pure fun hinner _ _ => hloop hinner (.jump .jmp enter)
  · rw [pure_bind]
    exact .pure fun hcode hinner _ _ => hloop hinner (hcode.kempt.extend (.jump .jne enter))

/-- The parts of an arm follow one another. -/
theorem armSteps_walks {whole'' : Extent} {e : Expr} {consequent : List Stmt}
    {alternate : Alternate} (hbody : Walks bound scopes whole scopes whole' (Kempt bound ms)
      (inScope (stmts env consequent))) {done : Nat}
    (hother : Walks bound scopes whole' scopes whole'' (Kempt bound ms')
      (otherwise env (some done) alternate)) {ending : Lines} (hending : Kempt bound [] ending) :
    Walks bound scopes whole scopes whole''
      (Kempt bound (demands env (frameOf scopes) e.references ++ (ms ++ ms')))
      (armSteps env e consequent alternate done ending) := by
  have htest : Walks bound scopes whole scopes whole
      (Made bound (demands env (frameOf scopes) e.references)) (test env e) := test_walks env e
  cases alternate with
  | none =>
      unfold otherwise at hother
      refine htest.bind fun code => hbody.bind fun inner => Walks.like hother ?_
      intro hnone hinner hcode
      have hinner := hinner.append hnone
      rw [List.append_nil inner] at hinner
      exact ((hcode.kempt.extend (.jump .je done)).append hinner).extend hending
  | _ =>
      refine freshLabel_walks.bind fun other => htest.bind fun code => hbody.bind fun inner => ?_
      refine hother.bind fun outer => .pure fun houter hinner hcode _ => ?_
      have hskip : Kempt bound [] (if endsInEpilogue inner then [] else [.jump .jmp done]) :=
        .ite .nil (.jump .jmp done)
      rw [← List.append_assoc]
      exact (((((hcode.kempt.extend (.jump .je other)).append hinner).extend hskip).extend
        (.label other)).append houter).extend hending

mutual

/-- A statement leads to what the source says is behind it, along its
sites. -/
theorem stmt_walks (hp : env.program.WellFormed) {outer : Sight} {returnType : Ty} :
    ∀ (st : Stmt) {sight : Sight} {scopes : Scopes} {whole : Extent},
    st.Everywhere (Leaf.WellFormed env.program outer returnType) sight →
    Walks bound scopes whole (st.bring env.program scopes whole)
      (whole.addAll env.program.extent st.laid)
      (Kempt bound (meetings env (st.sites env.program scopes whole))) (stmt env st)
  | .block body, sight, scopes, whole, hwf => by
      unfold Stmt.sites stmt
      exact block_walks (stmts_walks hp body hwf)
  | .branch arm, sight, scopes, whole, hwf => by
      unfold Stmt.sites stmt
      exact ifArm_walks hp none arm hwf
  | .loop e body pos, sight, scopes, whole, hwf => by
      unfold Stmt.sites
      rw [stmt_loop]
      unfold Stmt.laid
      have hbody : Walks bound scopes whole scopes (whole.addAll env.program.extent (laidAll body))
          (Kempt bound _) (inScope (stmts env body)) := block_walks (stmts_walks hp body hwf.2)
      have hloop := loopSteps_walks (e := e) hbody
      rw [← meetings_refs, ← meetings_append] at hloop
      by_cases hc : e.isConstant = true
      · rw [if_pos hc]
        refine Walks.lift_bind fun never hnever => ?_
        rw [liftEval_ok.1 hnever, hc]
        cases never with
        | true => exact .pure .nil
        | false => exact hloop
      · rw [Bool.not_eq_true] at hc
        rw [hc, if_neg Bool.false_ne_true, pure_bind]
        exact hloop
  | .ret value pos, sight, scopes, whole, hwf => by
      unfold stmt
      exact ret_walks
  | .variable decl, sight, scopes, whole, hwf => by
      unfold stmt
      exact variableDecl_walks hp hwf.2.ty
  | .expr e, sight, scopes, whole, hwf => by
      unfold Stmt.sites stmt
      rw [meetings_refs]
      have heffect : Walks bound scopes whole scopes whole
          (Made bound (demands env (frameOf scopes) e.effects)) (effect env e) :=
        Emits.walks (effect_emits e) (effect_quiet env e)
      exact Walks.map (heffect.weaken fun _ h => h.kempt)
  | .function _, sight, scopes, whole, hwf => hwf.elim
  | .aggregate _, sight, scopes, whole, hwf => hwf.elim

theorem stmts_walks (hp : env.program.WellFormed) {outer : Sight} {returnType : Ty} :
    ∀ (body : List Stmt) {sight : Sight} {scopes : Scopes} {whole : Extent},
    Stmt.EverywhereIn (Leaf.WellFormed env.program outer returnType) sight body →
    Walks bound scopes whole (bringAll env.program body scopes whole)
      (whole.addAll env.program.extent (laidAll body))
      (Kempt bound (meetings env (sitesAll env.program body scopes whole))) (stmts env body)
  | [], sight, scopes, whole, hwf => by
      unfold stmts sitesAll
      exact .pure .nil
  | st :: rest, sight, scopes, whole, hwf => by
      unfold sitesAll laidAll
      rw [Extent.addAll_append, meetings_append]
      unfold stmts bringAll
      refine (stmt_walks hp st hwf.1).bind fun first => ?_
      refine (stmts_walks hp rest hwf.2).bind fun others => ?_
      exact .pure fun hothers hfirst => hfirst.append hothers

theorem ifArm_walks (hp : env.program.WellFormed) {outer : Sight} {returnType : Ty} :
    ∀ (shared : Option Nat) (arm : Arm) {sight : Sight} {scopes : Scopes} {whole : Extent},
    arm.Everywhere (Leaf.WellFormed env.program outer returnType) sight →
    Walks bound scopes whole scopes (whole.addAll env.program.extent arm.laid)
      (Kempt bound (meetings env (arm.sites env.program scopes whole))) (ifArm env shared arm)
  | shared, ⟨e, consequent, alternate, pos⟩, sight, scopes, whole, hwf => by
      unfold Arm.sites Arm.laid
      by_cases hc : e.isConstant = true
      · rw [ifArm_folded hc, if_pos hc, if_pos hc]
        refine Walks.lift_bind fun zero hzero => ?_
        rw [liftEval_ok.1 hzero]
        cases zero with
        | true => exact otherwise_walks hp shared alternate hwf.2.2
        | false => exact block_walks (stmts_walks hp consequent hwf.2.1)
      · rw [if_neg hc, if_neg hc, Extent.addAll_append, meetings_append, meetings_append,
          meetings_refs]
        have hbody : Walks bound scopes whole scopes _ (Kempt bound _)
            (inScope (stmts env consequent)) := block_walks (stmts_walks hp consequent hwf.2.1)
        have harm : ∀ (done : Nat) {ending : Lines}, Kempt bound [] ending →
            Walks bound scopes whole scopes _ (Kempt bound _)
              (armSteps env e consequent alternate done ending) := fun done ending hending =>
          armSteps_walks hbody (otherwise_walks hp (some done) alternate hwf.2.2) hending
        cases shared with
        | some done =>
            rw [ifArm_shared hc]
            exact harm done .nil
        | none =>
            rw [ifArm_first hc]
            refine freshLabel_walks.bind fun done => ?_
            exact (harm done (.ite (.label done) .nil)).weaken fun _ h _ => h

theorem otherwise_walks (hp : env.program.WellFormed) {outer : Sight} {returnType : Ty} :
    ∀ (shared : Option Nat) (alternate : Alternate) {sight : Sight} {scopes : Scopes}
      {whole : Extent},
    alternate.Everywhere (Leaf.WellFormed env.program outer returnType) sight →
    Walks bound scopes whole scopes (whole.addAll env.program.extent alternate.laid)
      (Kempt bound (meetings env (alternate.sites env.program scopes whole)))
      (otherwise env shared alternate)
  | shared, .none, sight, scopes, whole, hwf => by
      unfold otherwise Alternate.sites
      exact .pure .nil
  | shared, .block body, sight, scopes, whole, hwf => by
      unfold Alternate.sites otherwise
      exact block_walks (stmts_walks hp body hwf)
  | shared, .elseIf arm, sight, scopes, whole, hwf => by
      unfold Alternate.sites otherwise
      exact ifArm_walks hp shared arm hwf

end

end Statements

-- ============================================================ functions

section Functions

variable {p : Program} {bound : Nat}

/-- The demands of locals that get their first values, one for each. -/
abbrev homes (vs : List Local) : List Meeting := vs.map fun v => At (.stack v.offset) v.decl.ty

/-- A parameter is stored into the next slot. -/
theorem spill_walks {scopes : Scopes} {whole : Extent} {param : VariableDecl} {r : Reg}
    (hr : r ≠ .rsp ∧ r ≠ .rbp) :
    Walks bound scopes whole (scopes.bring (p.next whole param)) (p.behind whole param)
      (fun i => Made bound (homes [p.next whole param]) [i]) (spill param r) := by
  have hslot : ∀ ty, param.ty = ty →
      (∀ w, widthOf ty = .ok w → Extent.ofTy p.extent ty = ⟨w.bytes, w.bytes⟩) →
      Walks bound scopes whole (scopes.bring (p.next whole param)) (p.behind whole param)
        (fun i => Made bound (homes [p.next whole param]) [i]) (do
          let width ← widthOf ty
          let offset ← framed? fun f => f.alloc? width.bytes width.bytes
          framed fun f => ((), f.bind param.name ⟨offset, ty⟩)
          return .mov (.mem width (.stack offset)) (reg width r) : Gen Instr) := by
    rintro _ rfl hwidth
    refine Walks.lift_bind fun w hw => ?_
    intro s i t hs hdepth h
    obtain ⟨offset, u, halloc, h⟩ := bind_ok.1 h
    obtain ⟨hu, hudepth, hle, hoffset⟩ := alloc_walks (hwidth w hw) s offset u hs hdepth halloc
    obtain rfl := hoffset (Nat.le_refl _)
    have hstore : Made bound (homes [p.next whole param])
        [.mov (.mem w (.stack (p.next whole param).offset)) (reg w r)] :=
      ⟨.one ⟨trivial, hr⟩, .cons ((At.opens _ _).whole hw) .nil⟩
    have hbring : Walks bound scopes (p.behind whole param) (scopes.bring (p.next whole param))
        (p.behind whole param) (fun i => Made bound (homes [p.next whole param]) [i]) (do
          framed fun f => ((), f.bind param.name ⟨(p.next whole param).offset, param.ty⟩)
          return .mov (.mem w (.stack (p.next whole param).offset)) (reg w r) : Gen Instr) :=
      (bring_walks (p.next whole param)).bind fun _ => .pure fun _ => hstore
    obtain ⟨ht, htdepth, hut, hmade⟩ := hbring u i t hu hudepth h
    exact ⟨ht, htdepth, Nat.le_trans hle hut, hmade⟩
  unfold spill
  cases hty : param.ty with
  | float => exact .fail _
  | double => exact .fail _
  | named _ => exact .fail _
  | void => exact hslot _ hty fun w hw => by cases hw
  | _ => exact hslot _ hty fun w hw => by cases hw; rfl

/-- The parameters get their slots, one after the other. -/
theorem spills_walks (pairs : List (VariableDecl × Reg)) {scopes : Scopes} {whole : Extent}
    (hregs : ∀ q ∈ pairs, q.2 ≠ .rsp ∧ q.2 ≠ .rbp) :
    Walks bound scopes whole ((p.locals whole (pairs.map Prod.fst)).foldl Scopes.bring scopes)
      (whole.addAll p.extent (pairs.map Prod.fst))
      (Made bound (homes (p.locals whole (pairs.map Prod.fst))))
      (pairs.mapM fun q => spill q.1 q.2) := by
  induction pairs generalizing scopes whole with
  | nil => exact .pure .nil
  | cons q rest ih =>
      rw [List.mapM_cons]
      refine (spill_walks (p := p) (hregs q List.mem_cons_self)).bind fun i => ?_
      refine (ih fun q' hq' => hregs q' (List.mem_cons_of_mem q hq')).bind fun is => ?_
      exact .pure fun his hi => hi.append his

/-- The parameters of a function get the first slots of its frame. -/
theorem spillAll_walks (params : List VariableDecl) :
    Walks bound [[]] .empty ((p.locals .empty params).foldl Scopes.bring [[]])
      (Extent.ofDecls p.extent params) (Made bound (homes (p.locals .empty params)))
      (spillAll params) := by
  refine .ite (fun _ => .fail _) fun hle => ?_
  have hfst : (params.zip paramRegs).map Prod.fst = params :=
    List.map_fst_zip (Nat.le_of_not_lt hle)
  have hregs : ∀ q ∈ params.zip paramRegs, q.2 ≠ .rsp ∧ q.2 ≠ .rbp := by
    intro q hq
    have hreg : ∀ r ∈ paramRegs, r ≠ .rsp ∧ r ≠ .rbp := by decide
    exact hreg q.2 (List.of_mem_zip hq).2
  have hwalks : Walks bound [[]] .empty _ _ (Made bound _)
      ((params.zip paramRegs).mapM fun q => spill q.1 q.2) :=
    spills_walks (p := p) _ hregs
  rw [hfst] at hwalks
  exact hwalks

theorem fallOff_kempt (body : List Stmt) : Kempt bound [] (fallOff body) := by
  have hzero : Made bound [] [.alu .xor (reg .dword .rax) (reg .dword .rax)] :=
    ⟨.one ⟨works_rax .dword, works_rax .dword⟩, .nil⟩
  exact .ite .nil (hzero.kempt.append .epilogue)

variable {env : Env}

/-- The lines of a function meet its sites in order. -/
theorem bodyLines_walks (hp : env.program.WellFormed) {decl : FunctionDecl} {outer : Sight}
    (hdecl : decl.WellFormed env.program outer) :
    Walks bound [[]] .empty
      (bringAll env.program decl.body (env.program.paramScopes decl)
        (Extent.ofDecls env.program.extent decl.params))
      (Extent.ofDecls env.program.extent (decl.params ++ laidAll decl.body))
      (Kempt bound (meetings env (env.program.sites decl))) (bodyLines env decl) := by
  have hwhole : Extent.ofDecls env.program.extent (decl.params ++ laidAll decl.body)
      = (Extent.ofDecls env.program.extent decl.params).addAll env.program.extent
        (laidAll decl.body) := Extent.addAll_append _ _ _ _
  have hspills : Walks bound [[]] .empty (env.program.paramScopes decl)
      (Extent.ofDecls env.program.extent decl.params)
      (Made bound (homes (env.program.paramLocals decl))) (spillAll decl.params) :=
    spillAll_walks decl.params
  unfold Program.sites
  rw [hwhole, meetings_append, meetings, List.map_map]
  refine hspills.bind fun spills => ?_
  refine (stmts_walks hp decl.body hdecl.body).bind fun body => ?_
  refine Walks.get_bind fun s => .ite (fun _ => .fail _) fun _ => .pure fun hbody hspills => ?_
  exact (hspills.kempt.append hbody).extend (fallOff_kempt decl.body)

-- ================================================================ pushes

theorem spill_marks (param : VariableDecl) (r : Reg) :
    Marks (fun i => pushes [i]) (spill param r) := by
  have hslot : ∀ ty, Marks (fun i => pushes [i]) (do
      let width ← widthOf ty
      let offset ← framed? fun f => f.alloc? width.bytes width.bytes
      framed fun f => ((), f.bind param.name ⟨offset, ty⟩)
      return .mov (.mem width (.stack offset)) (reg width r) : Gen Instr) := fun ty =>
    Marks.after (.ask _) fun _ => Marks.after (alloc_marks _ _) fun _ =>
      Marks.after (bind_marks _ _) fun _ => .pure rfl
  unfold spill
  cases param.ty with
  | float => exact .fail _
  | double => exact .fail _
  | named _ => exact .fail _
  | _ => exact hslot _

theorem spills_marks (pairs : List (VariableDecl × Reg)) :
    Marks pushes (pairs.mapM fun q => spill q.1 q.2) := by
  induction pairs with
  | nil => exact .pure rfl
  | cons q rest ih =>
      rw [List.mapM_cons]
      refine Marks.bind (spill_marks q.1 q.2) fun i => Marks.bind ih fun is => .pure ?_
      show pushes ([i] ++ is) - pushes [i] - pushes is = 0
      rw [pushes_append]
      omega

theorem linePushes_fallOff (body : List Stmt) : linePushes (fallOff body) = 0 := by
  unfold fallOff
  split <;> rfl

/-- The body of a function leaves a mark if it pushes. -/
theorem bodyLines_marks (decl : FunctionDecl) : Marks linePushes (bodyLines env decl) := by
  have hspills : Marks pushes (spillAll decl.params) := .ite (.fail _) (spills_marks _)
  refine Marks.bind hspills fun spills => Marks.bind (stmts_marks decl.body) fun body => ?_
  have hend : ∀ s : State, Marks (fun ls => linePushes ls - pushes spills - linePushes body)
      (if s.frame.pushed ≠ 0 then fail .unrepresentable
        else return lines spills ++ body ++ fallOff decl.body : Gen Lines) := by
    refine fun s => .ite (.fail _) (.pure ?_)
    rw [linePushes_append, linePushes_append, linePushes_lines, linePushes_fallOff]
    omega
  exact fun s ls t h => hend s s ls t h

-- ============================================================== functions

variable {frame : Frame} {noRedZone : Bool}

/-- A frame that reserves no room is empty, or lies below the stack pointer of
a function that pushes nothing. -/
theorem reservation_none (h : reservation? frame noRedZone = .ok none) :
    frame.depth = 0 ∨ frame.everPushed = false ∧ frame.depth < Frame.redZone := by
  unfold reservation? at h
  split at h
  · rename_i hred
    unfold Frame.usesRedZone at hred
    simp only [Bool.and_eq_true, Bool.not_eq_true', decide_eq_true_eq] at hred
    exact Or.inr ⟨hred.1.2, hred.2⟩
  · split at h
    · rename_i size hsize
      split at h
      · cases h
      · have hle := le_of_alignUp? hsize
        exact Or.inl (by omega)
    · cases h

theorem reservation_some {n : Nat} (h : reservation? frame noRedZone = .ok (some n)) :
    16 ∣ n ∧ frame.depth ≤ n := by
  unfold reservation? at h
  split at h
  · cases h
  · split at h
    · rename_i size hsize
      split at h
      · cases h
        refine ⟨?_, le_of_alignUp? hsize⟩
        rw [alignUp?_exact hsize]
        exact dvd_roundUp _ (by decide)
      · cases h
    · cases h

variable {types : List (String × Ty)} {strings strings' : StringPool} {decl : FunctionDecl}
  {ls : Lines}

/-- The lines of a function are its body in a frame, and where no push has
left a mark there is none. -/
theorem function_framed (h : function p types noRedZone strings decl = .ok (ls, strings')) :
    ∃ body s reserved,
      bodyLines ⟨p, types, decl.returnType⟩ decl ⟨.empty, strings⟩ = .ok (body, s)
        ∧ ls = withFrame reserved body ∧ strings' = s.strings
        ∧ reservation? s.frame noRedZone = .ok reserved
        ∧ (s.frame.everPushed = false → linePushes body = 0) := by
  unfold function at h
  obtain ⟨⟨body, t⟩, hbody, h⟩ := except_bind_ok.1 h
  obtain ⟨reserved, hreserved, h⟩ := except_bind_ok.1 h
  cases h
  have hmarked := bodyLines_marks decl _ body t hbody
  refine ⟨body, t, reserved, hbody, rfl, rfl, hreserved, fun hever => ?_⟩
  refine Classical.byContradiction fun hpushes => ?_
  rw [hmarked.ever (Or.inr hpushes)] at hever
  cases hever

/-- A function meets in memory what its body meets: the instructions that set
its frame up and take it down work on registers. -/
theorem met_withFrame (reserved : Option Nat) (body : Lines) :
    (code (withFrame reserved body)).flatMap Instr.met = (code body).flatMap Instr.met := by
  have hrestored (ls : Lines) :
      (code (restored (restoring reserved) ls)).flatMap Instr.met =
        (code ls).flatMap Instr.met := by
    induction ls with
    | nil => rfl
    | cons line rest ih =>
        have hline : (code (restored (restoring reserved) [line])).flatMap Instr.met
            = (code [line]).flatMap Instr.met := by
          cases line with
          | epilogue => cases reserved <;> rfl
          | _ => rfl
        rw [restored_cons, code_append, List.flatMap_append, ih, hline, ← List.flatMap_append,
          ← code_append, List.singleton_append]
  rw [withFrame_eq, code_append, code_lines, List.flatMap_append, hrestored, code_mergeLabels]
  cases reserved <;> rfl

/-- What is known of the lines of a function: they are its body in a frame,
which is as deep as the source says, and the body goes along the sites. -/
theorem function_made (hp : p.WellFormed) {outer : Sight} (hdecl : decl.WellFormed p outer)
    (h : function p types noRedZone strings decl = .ok (ls, strings')) :
    ∃ body s reserved,
      bodyLines ⟨p, types, decl.returnType⟩ decl ⟨.empty, strings⟩ = .ok (body, s)
        ∧ ls = withFrame reserved body ∧ strings' = s.strings
        ∧ reservation? s.frame noRedZone = .ok reserved
        ∧ s.frame.depth = p.frameDepth decl
        ∧ (s.frame.everPushed = false → linePushes body = 0)
        ∧ strings.values.length ≤ s.strings.values.length
        ∧ Kempt s.strings.values.length
          (meetings ⟨p, types, decl.returnType⟩ (p.sites decl)) body := by
  obtain ⟨body, t, reserved, hbody, hls, hstrings, hreserved, hquiet⟩ := function_framed h
  have hwalks : Walks t.strings.values.length [[]] .empty _ _ (Kempt _ _)
      (bodyLines ⟨p, types, decl.returnType⟩ decl) := bodyLines_walks hp hdecl
  obtain ⟨-, hdepth, hle, hkempt⟩ := hwalks ⟨.empty, strings⟩ body t rfl rfl hbody
  exact ⟨body, t, reserved, hbody, hls, hstrings, hreserved, hdepth, hquiet, hle,
    hkempt (Nat.le_refl _)⟩

end Functions

end MiniC.Codegen
