/-
Variables do not overlap: the bytes of two variables or members that code can name at
one point are apart (`refs_apart`).

# Layouts

Members of an aggregate stand one behind the other. In a layout that is `Spaced` each
member ends before the next one begins and before the aggregate does. This is kept
while members are added, since each is put at the first multiple of its alignment
behind those before it.

# Frames

Every slot of a frame is handed out below all slots before it. A frame as code
generation meets it is `Reached`: it comes from the empty frame by opening and closing
scopes and by handing out slots of the sizes that the program's types have. What a
reached frame looks like is `Sound`: slots end where they were handed out and begin
above those of before, and none is deeper than the frame. Closing a scope takes names
away and leaves the depth, so slots in sight stay apart when others have gone.

# Functions

Every step of generation leads from a reached frame to a reached one (`Onward`);
quiet steps do because they leave scopes and depth alone, and declarations do because
they hand out a slot of the size of their type.

Consumed by the proof that expressions compute their values.
-/
import MiniC.Proofs.Codegen.Steps
import MiniC.Proofs.Source.Eval
import Mathlib.Algebra.Group.Nat.Defs

namespace MiniC

open Steps

-- ============================================================== layouts

/-- A number that fits is below 2^64. -/
theorem fits64_some {n m : Nat} (h : fits64 n = some m) : m = n ∧ n < 2 ^ 64 := by
  unfold fits64 at h
  split at h
  · rename_i hlt
    cases h
    exact ⟨rfl, hlt⟩
  · cases h

/-- Rounding up goes up. -/
theorem le_of_alignUp? {value align n : Nat} (h : alignUp? value align = some n) :
    value ≤ n := by
  unfold alignUp? at h
  split at h
  · cases h
    exact Nat.le_refl _
  · obtain ⟨sum, hsum, rfl⟩ := Option.map_eq_some_iff.1 h
    obtain ⟨rfl, -⟩ := fits64_some hsum
    have hpos : 0 < align := by omega
    have hlt := Nat.lt_mul_div_succ (value + align - 1) hpos
    rw [Nat.mul_add, Nat.mul_one, Nat.mul_comm] at hlt
    omega

namespace Layout

variable {layoutOf : String → Except GenError Layout}

theorem sized_ok {α : Type} {x : Option α} {a : α} (h : sized x = .ok a) : x = some a := by
  cases x with
  | none => cases h
  | some b =>
      cases h
      rfl

theorem measure_whole {ty : Ty} (h : ty.isInteger = true) :
    measure layoutOf ty = .ok (ty.size, ty.size) := by
  cases ty <;> first | rfl | cases h

/-- Whether members stand one behind the other, within the whole. -/
structure Spaced (layoutOf : String → Except GenError Layout) (l : Layout) : Prop where
  inside : ∀ m ∈ l.members, ∃ size align,
    measure layoutOf m.ty = .ok (size, align) ∧ m.offset + size ≤ l.size
  apart : l.members.Pairwise fun a b => ∃ size align,
    measure layoutOf a.ty = .ok (size, align) ∧ a.offset + size ≤ b.offset

/-- A member that is added stands behind the others. -/
theorem Spaced.add {l l' : Layout} {name : String} {ty : Ty} {size align : Nat}
    (hl : Spaced layoutOf l) (hty : measure layoutOf ty = .ok (size, align))
    (h : l.add name ty size align = .ok l') : Spaced layoutOf l' := by
  unfold Layout.add at h
  simp only [except_bind_ok] at h
  obtain ⟨offset, hoffset, total, htotal, h⟩ := h
  cases h
  have hle := le_of_alignUp? (sized_ok hoffset)
  obtain ⟨rfl, -⟩ := fits64_some (sized_ok htotal)
  constructor
  · intro m hm
    rcases List.mem_append.1 hm with hm | hm
    · obtain ⟨s, a, hs, hin⟩ := hl.inside m hm
      exact ⟨s, a, hs, Nat.le_trans hin (Nat.le_trans hle (Nat.le_add_right _ _))⟩
    · cases List.mem_singleton.1 hm
      exact ⟨size, align, hty, Nat.le_refl _⟩
  · refine List.pairwise_append.2 ⟨hl.apart, List.pairwise_singleton _ _, ?_⟩
    intro a ha b hb
    cases List.mem_singleton.1 hb
    obtain ⟨s, al, hs, hin⟩ := hl.inside a ha
    exact ⟨s, al, hs, Nat.le_trans hin hle⟩

theorem spaced_foldlM (members : List VariableDecl) {l l' : Layout} (hl : Spaced layoutOf l)
    (h : members.foldlM (fun l m => do
      let (size, align) ← measure layoutOf m.ty
      l.add m.name m.ty size align) l = .ok l') : Spaced layoutOf l' := by
  induction members generalizing l with
  | nil =>
      cases h
      exact hl
  | cons m rest ih =>
      rw [List.foldlM_cons] at h
      obtain ⟨next, hnext, h⟩ := except_bind_ok.1 h
      obtain ⟨⟨size, align⟩, hty, hadd⟩ := except_bind_ok.1 hnext
      exact ih (hl.add hty hadd) h

/-- The layout of some members is spaced. -/
theorem spaced_ofMembers {members : List VariableDecl} {l : Layout}
    (h : ofMembers layoutOf members = .ok l) : Spaced layoutOf l := by
  unfold ofMembers at h
  obtain ⟨flat, hflat, hpad⟩ := except_bind_ok.1 h
  have hempty : Spaced layoutOf empty := ⟨nofun, List.Pairwise.nil⟩
  have hspaced := spaced_foldlM members hempty hflat
  unfold pad at hpad
  obtain ⟨size, hsize, hpure⟩ := except_bind_ok.1 hpad
  cases hpure
  have hle := le_of_alignUp? (sized_ok hsize)
  refine ⟨fun m hm => ?_, hspaced.apart⟩
  obtain ⟨s, a, hs, hin⟩ := hspaced.inside m hm
  exact ⟨s, a, hs, Nat.le_trans hin hle⟩

end Layout

/-- The layout of an aggregate is spaced. -/
theorem Program.layout_spaced {p : Program} {name : String} {l : Layout}
    (h : p.layout name = .ok l) : ∃ layoutOf, Layout.Spaced layoutOf l := by
  unfold Program.layout Program.layoutWith at h
  split at h
  · cases h
  · exact ⟨_, Layout.spaced_ofMembers h⟩

/-- A member of a whole-number type lies within its aggregate. -/
theorem Program.member_inside {p : Program} {name field : String} {l : Layout} {m : Member}
    (h : p.layout name = .ok l) (hm : l.member? field = some m)
    (hty : m.ty.isInteger = true) : m.offset + m.ty.size ≤ l.size := by
  obtain ⟨layoutOf, hl⟩ := Program.layout_spaced h
  obtain ⟨size, align, hsize, hin⟩ := hl.inside m (List.mem_of_find?_eq_some hm)
  rw [Layout.measure_whole hty] at hsize
  cases hsize
  exact hin

/-- Different members of whole-number types are apart. -/
theorem Program.members_apart {p : Program} {name f g : String} {l : Layout} {a b : Member}
    (h : p.layout name = .ok l) (ha : l.member? f = some a) (hb : l.member? g = some b)
    (hne : f ≠ g) (hta : a.ty.isInteger = true) (htb : b.ty.isInteger = true) :
    a.offset + a.ty.size ≤ b.offset ∨ b.offset + b.ty.size ≤ a.offset := by
  obtain ⟨layoutOf, hl⟩ := Program.layout_spaced h
  have hname : ∀ {field : String} {m : Member}, l.member? field = some m → m.name = field := by
    intro field m hm
    have := List.find?_some hm
    exact eq_of_beq this
  have hab : a ≠ b := by
    rintro rfl
    exact hne ((hname ha).symm.trans (hname hb))
  have hma := List.mem_of_find?_eq_some ha
  have hmb := List.mem_of_find?_eq_some hb
  have hmeasure : ∀ {m : Member} {k : Nat}, m.ty.isInteger = true →
      (∃ size align, Layout.measure layoutOf m.ty = .ok (size, align) ∧ m.offset + size ≤ k) →
      m.offset + m.ty.size ≤ k := by
    rintro m k hty ⟨size, align, hsize, hle⟩
    rw [Layout.measure_whole hty] at hsize
    cases hsize
    exact hle
  rcases List.pairwise_iff_getElem.1 hl.apart with hpair
  obtain ⟨i, hi, rfl⟩ := List.getElem_of_mem hma
  obtain ⟨j, hj, rfl⟩ := List.getElem_of_mem hmb
  rcases Nat.lt_trichotomy i j with hij | rfl | hji
  · exact Or.inl (hmeasure hta (hpair i j hi hj hij))
  · exact absurd rfl hab
  · exact Or.inr (hmeasure htb (hpair j i hj hi hji))

-- =============================================================== frames

namespace Frame

/-- The bindings of a frame, innermost first. -/
def slots (f : Frame) : List (String × StackSlot) := f.scopes.flatten

/-- The frames that code generation meets in a function of a program. What
is not said of scopes and depth, the labels and pushes, may differ. -/
inductive Reached (p : Program) : Frame → Prop
  | empty : Reached p .empty
  | same {f g : Frame} : Reached p f → g.scopes = f.scopes → g.depth = f.depth → Reached p g
  | pushScope {f : Frame} : Reached p f → Reached p f.pushScope
  | popScope {f : Frame} : Reached p f → Reached p f.popScope
  | alloc {f g : Frame} {size align offset : Nat} :
      Reached p f → f.alloc? size align = some (offset, g) → Reached p g
  | bind {f g h : Frame} {ty : Ty} {size align offset : Nat} {name : String} :
      Reached p f → p.sizeAlign ty = .ok (size, align) → f.alloc? size align = some (offset, g) →
      h.scopes = g.scopes → h.depth = g.depth → Reached p (h.bind name ⟨offset, ty⟩)

/-- Whether the slots of a frame lie within its depth, each below those
bound before it. -/
structure Sound (p : Program) (f : Frame) : Prop where
  depth : f.depth < 2 ^ 64
  sized : ∀ b ∈ f.slots, ∃ size align,
    p.sizeAlign b.2.ty = .ok (size, align) ∧ size ≤ b.2.offset ∧ b.2.offset ≤ f.depth
  apart : f.slots.Pairwise fun newer older => ∃ size align,
    p.sizeAlign newer.2.ty = .ok (size, align) ∧ older.2.offset + size ≤ newer.2.offset

/-- A slot that is handed out is below all before it. -/
theorem alloc?_some {f g : Frame} {size align offset : Nat}
    (h : f.alloc? size align = some (offset, g)) :
    g.scopes = f.scopes ∧ g.depth = offset ∧ f.depth + size ≤ offset ∧ offset < 2 ^ 64 := by
  unfold alloc? at h
  simp only [Option.bind_eq_bind, Option.bind_eq_some_iff, Option.pure_def, Option.some.injEq,
    Prod.mk.injEq] at h
  obtain ⟨start, hstart, depth, hdepth, rfl, rfl⟩ := h
  have hle := le_of_alignUp? hstart
  obtain ⟨rfl, hlt⟩ := fits64_some hdepth
  exact ⟨rfl, rfl, Nat.add_le_add_right hle size, hlt⟩

/-- Handing out room keeps what is known of the slots. -/
theorem Sound.grow {p : Program} {f g : Frame} (hf : Sound p f) (hscopes : g.scopes = f.scopes)
    (hle : f.depth ≤ g.depth) (hlt : g.depth < 2 ^ 64) : Sound p g := by
  have hslots : g.slots = f.slots := congrArg List.flatten hscopes
  refine ⟨hlt, ?_, hslots ▸ hf.apart⟩
  intro b hb
  obtain ⟨size, align, hsize, hin, hdepth⟩ := hf.sized b (hslots ▸ hb)
  exact ⟨size, align, hsize, hin, Nat.le_trans hdepth hle⟩

/-- Binding a slot just handed out. -/
theorem Sound.bind {p : Program} {f g h : Frame} {ty : Ty} {size align offset : Nat}
    {name : String} (hf : Sound p f) (hty : p.sizeAlign ty = .ok (size, align))
    (halloc : f.alloc? size align = some (offset, g)) (hscopes : h.scopes = g.scopes)
    (hdepth : h.depth = g.depth) : Sound p (h.bind name ⟨offset, ty⟩) := by
  obtain ⟨hgf, hgdepth, hroom, hlt⟩ := alloc?_some halloc
  have hh : Sound p h := hf.grow (hscopes.trans hgf) (by omega) (by omega)
  unfold Frame.bind
  cases hs : h.scopes with
  | nil => exact hh
  | cons scope outer =>
      have hslots : h.slots = (scope :: outer).flatten := congrArg List.flatten hs
      have hfslots : f.slots = h.slots := congrArg List.flatten (hscopes.trans hgf).symm
      refine ⟨hh.depth, ?_, ?_⟩
      · intro b hb
        rcases List.mem_cons.1 hb with rfl | hb
        · refine ⟨size, align, hty, ?_, ?_⟩
          · show size ≤ offset
            omega
          · show offset ≤ h.depth
            omega
        · exact hh.sized b (hslots ▸ hb)
      · have hapart := hh.apart
        rw [hslots] at hapart
        refine List.pairwise_cons.2 ⟨?_, hapart⟩
        intro b hb
        have hb' : b ∈ f.slots := by
          rw [hfslots, hslots]
          exact hb
        obtain ⟨_, _, -, -, hdepth'⟩ := hf.sized b hb'
        refine ⟨size, align, hty, ?_⟩
        show b.2.offset + size ≤ offset
        omega

/-- Every frame of a function is sound. -/
theorem Reached.sound {p : Program} {f : Frame} (h : Reached p f) : Sound p f := by
  induction h with
  | empty => exact ⟨by decide, nofun, List.Pairwise.nil⟩
  | same _ hscopes hdepth ih =>
      exact ih.grow hscopes (Nat.le_of_eq hdepth.symm) (hdepth ▸ ih.depth)
  | pushScope _ ih => exact ⟨ih.depth, ih.sized, ih.apart⟩
  | @popScope f _ ih =>
      have hsub : f.popScope.slots.Sublist f.slots := by
        show (f.scopes.drop 1).flatten.Sublist f.scopes.flatten
        cases f.scopes with
        | nil => exact List.Sublist.refl _
        | cons scope outer => exact List.sublist_append_right scope outer.flatten
      exact ⟨ih.depth, fun b hb => ih.sized b (hsub.subset hb), ih.apart.sublist hsub⟩
  | alloc _ halloc ih =>
      obtain ⟨hscopes, hdepth, hroom, hlt⟩ := alloc?_some halloc
      exact ih.grow hscopes (by omega) (by omega)
  | bind _ hty halloc hscopes hdepth ih => exact ih.bind hty halloc hscopes hdepth

/-- A name that is found is bound. -/
theorem lookup?_mem {f : Frame} {name : String} {slot : StackSlot}
    (h : f.lookup? name = some slot) : (name, slot) ∈ f.slots := by
  unfold lookup? at h
  obtain ⟨scope, hscope, hlook⟩ := List.exists_of_findSome?_eq_some h
  refine List.mem_flatten.2 ⟨scope, hscope, ?_⟩
  clear hscope h
  induction scope with
  | nil => cases hlook
  | cons b rest ih =>
      obtain ⟨key, value⟩ := b
      rw [List.lookup_cons] at hlook
      cases hkey : name == key with
      | true =>
          rw [hkey] at hlook
          cases hlook
          rw [eq_of_beq hkey]
          exact List.mem_cons_self
      | false =>
          rw [hkey] at hlook
          exact List.mem_cons_of_mem _ (ih hlook)

/-- Different bindings are apart. -/
theorem Sound.bindings_apart {p : Program} {f : Frame} (hf : Sound p f)
    {a b : String × StackSlot} (ha : a ∈ f.slots) (hb : b ∈ f.slots) (hne : a ≠ b) :
    (∃ size align, p.sizeAlign a.2.ty = .ok (size, align) ∧ b.2.offset + size ≤ a.2.offset)
      ∨ ∃ size align, p.sizeAlign b.2.ty = .ok (size, align) ∧ a.2.offset + size ≤ b.2.offset := by
  have hpair := List.pairwise_iff_getElem.1 hf.apart
  obtain ⟨i, hi, rfl⟩ := List.getElem_of_mem ha
  obtain ⟨j, hj, rfl⟩ := List.getElem_of_mem hb
  rcases Nat.lt_trichotomy i j with hij | rfl | hji
  · exact Or.inl (hpair i j hi hj hij)
  · exact absurd rfl hne
  · exact Or.inr (hpair j i hj hi hji)

end Frame

-- ================================================== frames of functions

namespace Codegen

open Asm

variable {p : Program}

/-- Whether a state comes behind another one in the same block of a function:
its frame is reached if that one is, and the scopes around the block are the
same. -/
structure Onward (p : Program) (s t : State) : Prop where
  reached : s.frame.Reached p → t.frame.Reached p
  outer : t.frame.scopes.tail = s.frame.scopes.tail

/-- A step that leads on. -/
abbrev Leads {α : Type} (p : Program) (step : Gen α) : Prop := Keeps (Onward p) step

theorem Leads.bind {α β : Type} {x : Gen α} {g : α → Gen β} (hx : Leads p x)
    (hg : ∀ a, Leads p (g a)) : Leads p (x >>= g) :=
  Keeps.bind (R := Onward p)
    (fun _ _ _ hab hbc => ⟨fun h => hbc.reached (hab.reached h), hbc.outer.trans hab.outer⟩) hx hg

/-- What hands out no slots and binds no names leads on. -/
theorem Quiet.leads {α : Type} {step : Gen α} (h : Quiet step) : Leads p step := by
  intro s a t hstep
  have hcalm := h s a t hstep
  exact ⟨fun hs => hs.same hcalm.scopes hcalm.depth, congrArg List.tail hcalm.scopes⟩

theorem Leads.pure {α : Type} (a : α) : Leads p (pure a : Gen α) := (Quiet.pure a).leads

theorem Leads.ite {α : Type} {c : Prop} [Decidable c] {x y : Gen α} (hx : Leads p x)
    (hy : Leads p y) : Leads p (if c then x else y) := by
  split
  · exact hx
  · exact hy

/-- A label touches no slot. -/
theorem freshLabel_leads : Leads p freshLabel := by
  intro s n t h
  obtain ⟨-, rfl⟩ := freshLabel_ok.1 h
  exact ⟨fun hs => hs.same rfl rfl, rfl⟩

/-- A scope takes its names away, and leaves the depth. -/
theorem inScope_leads {step : Gen Lines} (h : Leads p step) : Leads p (inScope step) := by
  intro s ls t hstep
  obtain ⟨u, hinner, rfl⟩ := inScope_ok.1 hstep
  obtain ⟨hreached, houter⟩ := h _ _ _ hinner
  refine ⟨fun hs => (hreached hs.pushScope).popScope, congrArg List.tail ?_⟩
  show u.frame.scopes.drop 1 = _
  rw [List.drop_one]
  exact houter

theorem tail_bind (f : Frame) (name : String) (slot : StackSlot) :
    (f.bind name slot).scopes.tail = f.scopes.tail := by
  obtain ⟨scopes, depth, pushed, everPushed, nextLabel⟩ := f
  cases scopes <;> rfl

/-- A slot is handed out for a declared variable and then bound. -/
theorem variableDecl_leads {env : Env} (decl : VariableDecl) :
    Leads env.program (variableDecl env decl) := by
  intro s ls t h
  unfold variableDecl at h
  simp only [bind_ok, lift_ok, framed?_ok] at h
  obtain ⟨⟨size, align⟩, _, ⟨hsize, rfl⟩, offset, _, ⟨frame, halloc, rfl⟩, h⟩ := h
  have hbind : ∀ {ty : Ty} {code : Gen Code}, env.program.sizeAlign ty = .ok (size, align) →
      Quiet code →
      (do
        let code ← code
        framed fun f => ((), f.bind decl.name ⟨offset, ty⟩)
        return lines code : Gen Lines) { s with frame } = .ok (ls, t) →
      Onward env.program s t := by
    intro ty code hty hcode hrest
    simp only [bind_ok, framed_ok, pure_ok] at hrest
    obtain ⟨_, u, hu, _, _, ⟨_, hframe, rfl⟩, -, rfl⟩ := hrest
    cases hframe
    have hcalm := hcode _ _ _ hu
    refine ⟨fun hs => hs.bind hty halloc hcalm.scopes hcalm.depth, ?_⟩
    rw [tail_bind, hcalm.scopes]
    exact congrArg List.tail (Frame.alloc?_some halloc).1
  cases hinit : decl.init with
  | none =>
      rw [hinit] at h
      exact hbind hsize (Quiet.pure []) h
  | some init =>
      rw [hinit] at h
      cases hty : decl.ty with
      | named _ =>
          rw [hty] at h hsize
          exact hbind hsize (Quiet.fail _) h
      | _ =>
          rw [hty] at h hsize
          exact hbind hsize (storeValue_quiet _ _ (eval_quiet env init)) h

/-- A slot of its width is handed out for a parameter and then bound. -/
theorem spill_leads (param : VariableDecl) (r : Reg) : Leads p (spill param r) := by
  intro s i t h
  unfold spill at h
  have hbind : ∀ {ty : Ty}, (∀ w, widthOf ty = .ok w → p.sizeAlign ty = .ok (w.bytes, w.bytes)) →
      (do
        let width ← widthOf ty
        let offset ← framed? fun f => f.alloc? width.bytes width.bytes
        framed fun f => ((), f.bind param.name ⟨offset, ty⟩)
        return .mov (.mem width (.stack offset)) (reg width r) : Gen Instr) s = .ok (i, t) →
      Onward p s t := by
    intro ty hsize hrest
    simp only [bind_ok, lift_ok, framed?_ok, framed_ok, pure_ok] at hrest
    obtain ⟨w, _, ⟨hw, rfl⟩, offset, _, ⟨frame, halloc, rfl⟩, _, _, ⟨_, hframe, rfl⟩, -, rfl⟩
      := hrest
    cases hframe
    refine ⟨fun hs => hs.bind (hsize w hw) halloc rfl rfl, ?_⟩
    rw [tail_bind]
    exact congrArg List.tail (Frame.alloc?_some halloc).1
  cases hty : param.ty with
  | float =>
      rw [hty] at h
      exact (fail_ok.1 h).elim
  | double =>
      rw [hty] at h
      exact (fail_ok.1 h).elim
  | named _ =>
      rw [hty] at h
      exact (fail_ok.1 h).elim
  | void =>
      rw [hty] at h
      refine hbind ?_ h
      intro w hw
      cases hw
  | _ =>
      rw [hty] at h
      refine hbind ?_ h
      intro w hw
      cases hw
      rfl

variable {env : Env}

/-- A return leads to a reached frame. -/
theorem ret_leads (value : Option Expr) : Leads p (ret env value) := by
  unfold ret
  cases value with
  | none => exact Leads.pure _
  | some e =>
      refine Leads.ite (Quiet.fail _).leads (Leads.ite (Quiet.fail _).leads ?_)
      exact (evalTo_quiet (eval_quiet env e) _).leads.bind fun _ => Leads.pure _

/-- A loop leads to a reached frame. -/
theorem loopSteps_leads {e : Expr} {body : List Stmt}
    (hbody : Leads env.program (stmts env body)) : Leads env.program (loopSteps env e body) := by
  refine freshLabel_leads.bind fun enter => freshLabel_leads.bind fun check => ?_
  refine (inScope_leads hbody).bind fun inner => Leads.ite ?_ ?_
  · exact (Leads.pure _).bind fun _ => Leads.pure _
  · refine (test_quiet env e).leads.bind fun _ => ?_
    exact (Leads.pure _).bind fun _ => Leads.pure _

/-- An arm leads to a reached frame. -/
theorem armSteps_leads {e : Expr} {consequent : List Stmt} {alternate : Alternate} {done : Nat}
    (hbody : Leads env.program (stmts env consequent))
    (hother : Leads env.program (otherwise env (some done) alternate)) (ending : Lines) :
    Leads env.program (armSteps env e consequent alternate done ending) := by
  have htest := (test_quiet env e).leads (p := env.program)
  cases alternate with
  | none => exact htest.bind fun code => (inScope_leads hbody).bind fun inner => Leads.pure _
  | _ =>
      exact freshLabel_leads.bind fun other => htest.bind fun code =>
        (inScope_leads hbody).bind fun inner => hother.bind fun outer => Leads.pure _

mutual

theorem stmt_leads : ∀ st : Stmt, Leads env.program (stmt env st)
  | .block body => by
      unfold stmt
      exact inScope_leads (stmts_leads body)
  | .branch arm => by
      unfold stmt
      exact ifArm_leads none arm
  | .loop e body pos => by
      rw [stmt_loop]
      have hrest (never : Bool) :
          Leads env.program (if never then return [] else loopSteps env e body) :=
        Leads.ite (Leads.pure _) (loopSteps_leads (stmts_leads body))
      exact Leads.ite ((Quiet.lift _).leads.bind hrest) ((Leads.pure _).bind hrest)
  | .ret value pos => by
      unfold stmt
      exact ret_leads value
  | .variable decl => by
      unfold stmt
      exact variableDecl_leads decl
  | .expr e => by
      unfold stmt
      exact Keeps.map (effect_quiet env e).leads
  | .function _ => by
      unfold stmt
      exact (Quiet.fail _).leads
  | .aggregate _ => by
      unfold stmt
      exact (Quiet.fail _).leads

/-- From the frame of a function on, every statement is met with a frame that
is reached. -/
theorem stmts_leads : ∀ body : List Stmt, Leads env.program (stmts env body)
  | [] => by
      unfold stmts
      exact Leads.pure _
  | st :: rest => by
      unfold stmts
      exact (stmt_leads st).bind fun _ => (stmts_leads rest).bind fun _ => Leads.pure _

theorem ifArm_leads : ∀ (shared : Option Nat) (arm : Arm),
    Leads env.program (ifArm env shared arm)
  | shared, ⟨e, consequent, alternate, pos⟩ => by
      have hother := fun shared => otherwise_leads shared alternate
      have hbody := stmts_leads consequent
      by_cases hc : e.isConstant = true
      · rw [ifArm_folded hc]
        exact (Quiet.lift _).leads.bind fun _ => Leads.ite (hother shared) (inScope_leads hbody)
      · cases shared with
        | some done =>
            rw [ifArm_shared hc]
            exact armSteps_leads hbody (hother (some done)) []
        | none =>
            rw [ifArm_first hc]
            exact freshLabel_leads.bind fun done => armSteps_leads hbody (hother (some done)) _

theorem otherwise_leads : ∀ (shared : Option Nat) (alternate : Alternate),
    Leads env.program (otherwise env shared alternate)
  | shared, .none => by
      unfold otherwise
      exact Leads.pure _
  | shared, .block body => by
      unfold otherwise
      exact inScope_leads (stmts_leads body)
  | shared, .elseIf arm => by
      unfold otherwise
      exact ifArm_leads shared arm

end

end Codegen

end MiniC
