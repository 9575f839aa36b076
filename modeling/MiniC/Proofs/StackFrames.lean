/-
Stack frames are safe (`function_frameSafe`).

# Locals

The locals of a function have bytes of their own between the base pointer and
the depth of the frame, each at a multiple of its alignment. Slots are never
handed out twice, so scopes play no part in that.

# Operands

The operands in memory of a function, read off its lines from the first to the
last, are as many as the sites of its source, and each belongs to the site at
its position: a reference is met with bytes of the variable that its name
stands for where it is written, or of the member that it selects there, and a
parameter or initialized variable is given its first value in bytes of its own
(`Site.Covers`). So no operand is allowed for by a name that did not emit it.
That lines and sites go along is known from code generation
(`function_made`); what is left to show here is that a place which code
generation takes for a name lies in the range that the source says
(`place?_covers`). For a member this rests on the layout of its aggregate,
whose members lie within the whole (`member_within`).

# The stack

Pushes and pops are nested. A frame that reserves no room is empty, or its
function pushes nothing and it is small; reserved room holds all locals. All
operands lie below the base pointer, since the sites know of no slots but those
of the locals (`covers_inside`), so a run keeps what the entry has saved
(`runs_stands`). Then no push meets a variable, and every return finds the
pointers and the stack of the caller.

Consumed by no other module.
-/
import MiniC.Proofs.Codegen.Extents
import MiniC.Proofs.Machine.Stack
import MiniC.Proofs.Parser.Declarations

namespace MiniC

open Asm Codegen Steps Machine

-- ============================================================== layouts

/-- What the layout of an aggregate takes for a member is what the member's
type takes. -/
theorem measure_sizeOf {p : Program} (hp : p.WellFormed) {ty : Ty} {size align : Nat}
    (h : Layout.measure (p.layoutWith p.aggregates.length) ty = .ok (size, align)) :
    p.sizeOf ty = size := by
  have hfaithful : ∀ name, ty = .named name →
      Layout.Faithful p False (p.layoutWith p.aggregates.length) p.extent name := by
    rintro name rfl
    obtain ⟨l, hl, -⟩ := except_map_ok.1 h
    have hname : (p.aggregate? name).isSome = true := by
      cases hlength : p.aggregates.length with
      | zero =>
          rw [hlength] at hl
          cases hl
      | succ n =>
          rw [hlength] at hl
          unfold Program.layoutWith at hl
          cases hdecl : p.aggregate? name with
          | none =>
              rw [hdecl] at hl
              cases hl
          | some decl => rfl
    exact hp.layoutWith_faithful False.elim (Nat.le_refl _) (hp.nested hname)
  exact congrArg Extent.size (Layout.measure_exact hfaithful h)

/-- A member lies within the variables of its aggregate. -/
theorem member_within {p : Program} (hp : p.WellFormed) {aggregate field : String} {l : Layout}
    {m : Member} (hl : p.layout aggregate = .ok l) (hm : l.member? field = some m) :
    m.offset + p.sizeOf m.ty ≤ p.sizeOf (.named aggregate) := by
  have hdecl : (p.aggregate? aggregate).isSome = true := by
    unfold Program.layout Program.layoutWith at hl
    cases hdecl : p.aggregate? aggregate with
    | none =>
        rw [hdecl] at hl
        cases hl
    | some decl => rfl
  have hfaithful : Layout.Faithful p False p.layout p.extent aggregate :=
    hp.layout_faithful False.elim hdecl
  have hwhole := hfaithful.exact l hl
  have hspaced : Layout.Spaced (p.layoutWith p.aggregates.length) l := by
    unfold Program.layout Program.layoutWith at hl
    split at hl
    · cases hl
    · exact Layout.spaced_ofMembers hl
  obtain ⟨size, align, hsize, hle⟩ := hspaced.inside m (List.mem_of_find?_eq_some hm)
  rw [measure_sizeOf hp hsize]
  show _ ≤ (p.extent aggregate).size
  rw [← hwhole]
  exact hle

-- ============================================================== covering

/-- Whether an operand lies on the stack, and all its bytes are among so many
that start so far below the base pointer. -/
def Within (offset size : Nat) (w : Width) (place : Place) : Prop :=
  ∃ k, place = .stack k ∧ ∀ a, Spans k w.bytes a → Spans offset size a

/-- Whether a place is where a name stands: in its slot, as is demanded there,
or in the global of that name if no scope binds it. -/
def Scopes.Holds (scopes : Scopes) (name : String) (place : Place) (demand : StackSlot → Prop) :
    Prop :=
  (∃ slot, scopes.lookup? name = some slot ∧ demand slot)
    ∨ scopes.lookup? name = none ∧ ∃ k, place = .static name k

/-- Whether an operand lies in the variable that a reference names, with all
its bytes, or in the member that it selects, which lies in the variable. -/
def Expr.Covers (p : Program) (scopes : Scopes) (w : Width) (place : Place) : Expr → Prop
  | .ident i => scopes.Holds i.name place fun slot => Within slot.offset (p.sizeOf slot.ty) w place
  | .member object .dot field _ => scopes.Holds object.name place fun slot =>
    ∃ aggregate l m, slot.ty = .named aggregate
      ∧ p.layout aggregate = .ok l ∧ l.member? field.name = some m
      ∧ Within (slot.offset - m.offset) (p.sizeOf m.ty) w place
      ∧ ∀ a, Spans (slot.offset - m.offset) (p.sizeOf m.ty) a →
        Spans slot.offset (p.sizeOf slot.ty) a
  | _ => False

/-- Whether an operand is what the code of a site has to meet. -/
def Site.Covers (p : Program) (w : Width) (place : Place) : Site → Prop
  | .ref scopes e => e.Covers p scopes w place
  | .first v => Within v.offset (p.sizeOf v.decl.ty) w place

section Covering

variable {p : Program} {types : List (String × Ty)} {ret : Ty} {f : Frame} {k : Nat} {ty : Ty}
  {w : Width}

theorem size_le_sizeOf (p : Program) (ty : Ty) : ty.size ≤ p.sizeOf ty := by
  cases ty <;> first | exact Nat.le_refl _ | exact Nat.zero_le _

/-- The bytes of a type's values at the start of a variable. -/
theorem spans_first {offset : Nat} (h : w.bytes ≤ ty.size) {a : Int} (ha : Spans offset w.bytes a) :
    Spans offset (p.sizeOf ty) a :=
  ha.within (Nat.le_refl _) (by have := size_le_sizeOf p ty; omega)

/-- A place of a type's values at the start of a variable. -/
theorem within_first {offset : Nat} (h : w.bytes ≤ ty.size) :
    Within offset (p.sizeOf ty) w (.stack offset) :=
  ⟨offset, rfl, fun _ => spans_first h⟩

theorem shift_stack {place : Place} {base offset : Nat}
    (h : Env.shift (.stack base) offset = .ok place) : place = .stack (base - offset) := by
  have h : (if offset ≤ base then Except.ok (Place.stack (base - offset))
      else .error GenError.unrepresentable) = .ok place := h
  split at h <;> cases h
  rfl

/-- A name stands for its slot, or else for a global. -/
theorem locate_cases {name : String} {place : Place}
    (h : Env.locate ⟨p, types, ret⟩ f name = .ok (place, ty)) :
    (∃ offset, f.lookup? name = some ⟨offset, ty⟩ ∧ place = .stack offset)
      ∨ f.lookup? name = none ∧ place = .static name 0 := by
  unfold Env.locate at h
  split at h
  · rename_i slot hslot
    cases h
    exact Or.inl ⟨slot.offset, hslot, rfl⟩
  · rename_i hnone
    split at h <;> cases h
    exact Or.inr ⟨hnone, rfl⟩

/-- A reference covers what its own place is met with. -/
theorem place?_covers (hp : p.WellFormed) {e : Expr} {place : Place}
    (h : Env.place? ⟨p, types, ret⟩ f e = .ok (some (place, ty))) (hw : w.bytes ≤ ty.size) :
    e.Covers p f.scopes w place := by
  cases e with
  | ident i =>
      obtain ⟨found, hfound, heq⟩ := except_map_ok.1 h
      cases heq
      rcases locate_cases hfound with ⟨offset, hslot, rfl⟩ | ⟨hnone, rfl⟩
      · exact Or.inl ⟨_, hslot, within_first hw⟩
      · exact Or.inr ⟨hnone, 0, rfl⟩
  | member object accessor field pos =>
      obtain ⟨found, hfound, heq⟩ := except_map_ok.1 h
      cases heq
      unfold Env.locateMember at hfound
      cases accessor with
      | arrow => cases hfound
      | scope => cases hfound
      | dot =>
          obtain ⟨⟨base, baseTy⟩, hbase, hfound⟩ := except_bind_ok.1 hfound
          dsimp only at hfound
          split at hfound
          · rename_i aggregate
            obtain ⟨l, hl, hfound⟩ := except_bind_ok.1 hfound
            split at hfound
            · rename_i m hm
              obtain ⟨shifted, hshift, hfound⟩ := except_bind_ok.1 hfound
              cases hfound
              rcases locate_cases hbase with ⟨offset, hslot, rfl⟩ | ⟨hnone, rfl⟩
              · obtain rfl := shift_stack hshift
                have hwithin := member_within hp hl hm
                refine Or.inl ⟨_, hslot, aggregate, l, m, rfl, hl, hm, within_first hw, ?_⟩
                refine fun a ha => ha.within (Nat.sub_le _ _) ?_
                show _ ≤ _ + p.sizeOf (.named aggregate)
                omega
              · cases hshift
                exact Or.inr ⟨hnone, _, rfl⟩
            · cases hfound
          · cases hfound
  | _ => cases h

/-- What a site demands of its operand is that the operand lies where the
source says. -/
theorem meeting_covers (hp : p.WellFormed) {site : Site} {place : Place}
    (h : meeting ⟨p, types, ret⟩ site w place) : site.Covers p w place := by
  cases site with
  | ref scopes e =>
      obtain ⟨ty, hplace, hw⟩ := h
      exact place?_covers hp hplace hw
  | first v =>
      obtain ⟨rfl, hw⟩ := h
      exact within_first hw

/-- What a site of a function covers on the stack lies in one of its locals. -/
theorem covers_inside {decl : FunctionDecl} {site : Site}
    (hsettled : site.Settled (p.frameLocals decl)) (hcovers : site.Covers p w (.stack k)) :
    ∃ v ∈ p.frameLocals decl, Within v.offset (p.sizeOf v.decl.ty) w (.stack k) := by
  have hslot {scopes : Scopes} {name : String} {slot : StackSlot}
      (hscopes : scopes.Settled (p.frameLocals decl)) (hlook : scopes.lookup? name = some slot)
      (hwithin : Within slot.offset (p.sizeOf slot.ty) w (.stack k)) :
      ∃ v ∈ p.frameLocals decl, Within v.offset (p.sizeOf v.decl.ty) w (.stack k) := by
    obtain ⟨v, hv, -, hty, hoffset⟩ := hscopes.lookup hlook
    exact ⟨v, hv, by rw [hty, hoffset]; exact hwithin⟩
  cases site with
  | first v => exact ⟨v, hsettled, hcovers⟩
  | ref scopes e =>
      have hcovers : e.Covers p scopes w (.stack k) := hcovers
      unfold Expr.Covers at hcovers
      split at hcovers
      · rcases hcovers with ⟨slot, hlook, hwithin⟩ | ⟨-, n, heq⟩
        · exact hslot hsettled hlook hwithin
        · cases heq
      · rcases hcovers with ⟨slot, hlook, aggregate, l, m, -, -, -, hmember, hspans⟩ | ⟨-, n, heq⟩
        · obtain ⟨n, hn, hmember⟩ := hmember
          exact hslot hsettled hlook ⟨n, hn, fun a ha => hspans a (hmember a ha)⟩
        · cases heq
      · exact hcovers.elim

end Covering

-- ================================================================ frames

/-- What is safe about the frame of a function and its lines. -/
structure FrameSafe (p : Program) (decl : FunctionDecl) (depth : Nat) (ls : Lines) : Prop where
  /-- No two locals have a byte in common. -/
  apart : (p.frameLocals decl).Pairwise fun v w => ∀ a,
    ¬ (Spans v.offset (p.sizeOf v.decl.ty) a ∧ Spans w.offset (p.sizeOf w.decl.ty) a)
  /-- Every local lies between the depth of the frame and the base pointer. -/
  inside : ∀ v ∈ p.frameLocals decl, ∀ a, Spans v.offset (p.sizeOf v.decl.ty) a →
    -(depth : Int) ≤ a ∧ a < 0
  /-- Every local is aligned. -/
  aligned : ∀ v ∈ p.frameLocals decl, p.alignOf v.decl.ty ∣ v.offset
  /-- The slots that names stand for are those of locals with these names. -/
  settled : ∀ site ∈ p.sites decl, site.Settled (p.frameLocals decl)
  /-- The operands in memory belong to the sites of the source, one to each and
  in their order: the operand of a reference lies in the variable that is named
  there or in the member that is selected, that of a first value in the local
  that gets it. -/
  covered : List.Forall₂ (fun site o => site.Covers p o.1 o.2) (p.sites decl)
    ((Line.code ls).flatMap Instr.met)
  /-- Pushes and pops are nested, and none is open where control meets. -/
  nested : Line.nesting 0 ls = some 0
  /-- A frame without room reserved is empty, or it pushes nothing and is
  small. -/
  unreserved : (∀ src, .insn (.alu .sub (reg .qword .rsp) src) ∉ ls) →
    depth = 0 ∨ .insn (.push .rax) ∉ ls ∧ depth < Frame.redZone
  /-- Reserved room is aligned and holds the locals. -/
  reserved : ∀ src, .insn (.alu .sub (reg .qword .rsp) src) ∈ ls →
    ∃ n : Nat, src = .imm n ∧ 16 ∣ n ∧ depth ≤ n
  /-- A push meets no local. -/
  pushes : ∀ entered rest s, Runs ls (ls, entered) (.insn (.push .rax) :: rest, s) →
    ∀ v ∈ p.frameLocals decl, ∀ a, Spans v.offset (p.sizeOf v.decl.ty) (a - s.rbp) →
      ¬ (s.rsp - 8 ≤ a ∧ a < s.rsp)
  /-- A return finds the pointers and the stack of the caller. -/
  returns : ∀ entered rest s, Runs ls (ls, entered) (.insn .ret :: rest, s) →
    s.rsp = entered.rsp ∧ s.rbp = entered.rbp ∧ ∀ a, entered.rsp ≤ a → s.word a = entered.word a

section Safe

variable {p : Program} {decl : FunctionDecl} {noRedZone : Bool} {reserved : Option Nat}
  {body : Lines} {ms : List Meeting} {bound : Nat}

/-- A body does not touch the stack pointer, so what is taken from it is the
room reserved. -/
theorem reserving_iff (hbody : Kempt bound ms body) {src : Operand} :
    .insn (.alu .sub (reg .qword .rsp) src) ∈ withFrame reserved body
      ↔ ∃ n : Nat, reserved = some n ∧ src = .imm n := by
  constructor
  · intro h
    rcases insn_mem_withFrame h with h | h | h | h
    · rcases mem_entry h with h | h | ⟨n, hn, h⟩
      · cases h
      · cases h
      · cases h
        exact ⟨n, hn, rfl⟩
    · rcases hbody.works _ h with h | h | h
      · exact absurd rfl h.1.1
      · cases h
      · cases h
    · cases reserved <;> cases h
    · cases h
  · rintro ⟨n, rfl, rfl⟩
    rw [withFrame_cons]
    exact List.mem_cons_of_mem _ (List.mem_cons_of_mem _ List.mem_cons_self)

/-- Pushes of rax are those of the body. -/
theorem push_not_mem (hbody : .insn (.push .rax) ∉ body) :
    .insn (.push .rax) ∉ withFrame reserved body := by
  intro h
  rcases insn_mem_withFrame h with h | h | h | h
  · rcases mem_entry h with h | h | ⟨n, -, h⟩ <;> cases h
  · exact hbody h
  · cases reserved <;> cases h
  · cases h

/-- The frame of every function of an accepted program is safe. -/
theorem function_frameSafe {source : String} {report report' : Report}
    (hfront : frontend source report = (.ok p, report')) (hdecl : decl ∈ p.functions)
    {types : List (String × Ty)} {strings strings' : StringPool} {ls : Lines}
    (h : Codegen.function p types noRedZone strings decl = .ok (ls, strings')) :
    ∃ body s, bodyLines ⟨p, types, decl.returnType⟩ decl ⟨.empty, strings⟩ = .ok (body, s)
      ∧ FrameSafe p decl s.frame.depth ls := by
  have hp := frontend_wellFormed hfront
  obtain ⟨body, s, reserved, hbody, rfl, -, hreserved, hdepth, hpushed, -, hkempt⟩ :=
    function_made hp (hp.function hdecl) h
  have hinside : ∀ v ∈ p.frameLocals decl, ∀ a, Spans v.offset (p.sizeOf v.decl.ty) a →
      -(s.frame.depth : Int) ≤ a ∧ a < 0 := by
    intro v hv a ha
    obtain ⟨hlow, hhigh⟩ := locals_inside hv ha
    rw [hdepth]
    exact ⟨hlow, by omega⟩
  have hcovered : List.Forall₂ (fun site (o : Width × Place) => site.Covers p o.1 o.2)
      (p.sites decl) ((Line.code body).flatMap Instr.met) :=
    (List.forall₂_map_left_iff.1 hkempt.meets).imp fun _ _ => meeting_covers hp
  have hlow : Low body := by
    rintro ⟨w, place⟩ ho k rfl
    obtain ⟨site, hsite, hcovers⟩ := exists_left hcovered ho
    have hpos : 0 < w.bytes := by cases w <;> decide
    show w.bytes ≤ k
    have hcovers : site.Covers p w (.stack k) := hcovers
    -- the last byte of the operand lies below the base pointer
    obtain ⟨v, hv, k, heq, hspans⟩ := covers_inside (sites_settled p decl site hsite) hcovers
    cases heq
    have hlast := (hinside v hv _ (hspans (-(k : Int) + w.bytes - 1) ⟨by omega, by omega⟩)).2
    omega
  have hquiet (hever : s.frame.everPushed = false) : .insn (.push .rax) ∉ body := fun hmem =>
    List.countP_eq_zero.1 (hpushed hever) _ hmem rfl
  have hroom : s.frame.depth ≤ reserved.getD 0 ∨ .insn (.push .rax) ∉ body := by
    cases reserved with
    | none => exact (reservation_none hreserved).imp Nat.le_of_eq fun h => hquiet h.1
    | some n => exact Or.inl (reservation_some hreserved).2
  refine ⟨body, s, hbody, {
    apart := locals_apart p decl
    inside := hinside
    aligned := fun v hv => locals_aligned hv
    settled := sites_settled p decl
    covered := (met_withFrame reserved body).symm ▸ hcovered
    nested := nesting_withFrame reserved hkempt.nested
    unreserved := fun hnone => ?_
    reserved := fun src hsrc => ?_
    pushes := fun entered rest t hrun v hv a ha hmeets => ?_
    returns := fun entered rest t hrun => ?_ }⟩
  · cases reserved with
    | none => exact (reservation_none hreserved).imp_right fun h => ⟨push_not_mem (hquiet h.1), h.2⟩
    | some n => exact absurd ((reserving_iff hkempt).2 ⟨n, rfl, rfl⟩) (hnone _)
  · obtain ⟨n, rfl, rfl⟩ := (reserving_iff hkempt).1 hsrc
    exact ⟨n, rfl, reservation_some hreserved⟩
  · obtain ⟨hmem, htop⟩ := (runs_stands hlow hkempt hrun).push
    have hlow := (hinside v hv _ ha).1
    rcases hroom with hroom | hnone
    · have htop : t.rsp + (reserved.getD 0 : Nat) ≤ t.rbp := htop
      omega
    · exact hnone hmem
  · obtain ⟨hrsp, hrbp, habove⟩ := (runs_stands hlow hkempt hrun).ret hkempt
    exact ⟨hrsp, hrbp, habove⟩

end Safe

/-- The locals of the first function of a text with their offsets, and its
lines, if the text is accepted and they are generated. -/
def firstFrame (source : String) : Option (List (String × Nat) × Lines) := do
  let p ← (frontend source (.empty false)).1.toOption
  let decl ← p.functions.head?
  let made ← (Codegen.function p (globalTypes p.globals) false .empty decl).toOption
  return ((p.frameLocals decl).map fun v => (v.decl.name, v.offset), made.1)

theorem firstFrame_some {source : String} {found : List (String × Nat) × Lines}
    (h : firstFrame source = some found) :
    ∃ p report decl strings, frontend source (.empty false) = (.ok p, report)
      ∧ decl ∈ p.functions
      ∧ Codegen.function p (globalTypes p.globals) false .empty decl = .ok (found.2, strings)
      ∧ (p.frameLocals decl).map (fun v => (v.decl.name, v.offset)) = found.1 := by
  unfold firstFrame at h
  obtain ⟨p, hfront, h⟩ := Option.bind_eq_some_iff.1 h
  obtain ⟨decl, hdecl, h⟩ := Option.bind_eq_some_iff.1 h
  obtain ⟨⟨ls, strings⟩, hmade, h⟩ := Option.bind_eq_some_iff.1 h
  cases h
  exact ⟨p, _, decl, strings, Prod.ext (toOption_some.1 hfront) rfl, List.mem_of_head? hdecl,
    toOption_some.1 hmade, rfl⟩

/-- A function with parameters, an aggregate, variables in both arms of an if,
and an operand that is pushed. -/
def crowded : String :=
  "struct Pair { char tag; long value; }
   int sum(int a, char b) {
     Pair p; p.value = a;
     if (a) { short s = 2; p.value = a * (a + b); } else { char c = b; p.tag = c; }
     return a; }"

/-- Its frame holds five locals and reserves room for them, its code pushes
rax, and `function_frameSafe` says that the frame is safe. -/
theorem crowded_frameSafe :
    ∃ p decl ls, (∃ report, frontend crowded (.empty false) = (.ok p, report))
      ∧ decl ∈ p.functions
      ∧ (∃ strings,
        Codegen.function p (globalTypes p.globals) false .empty decl = .ok (ls, strings))
      ∧ (p.frameLocals decl).map (fun v => (v.decl.name, v.offset))
        = [("a", 4), ("b", 5), ("p", 24), ("s", 26), ("c", 27)]
      ∧ .insn (.alu .sub (reg .qword .rsp) (.imm 32)) ∈ ls ∧ .insn (.push .rax) ∈ ls
      ∧ ∃ body s, bodyLines ⟨p, globalTypes p.globals, decl.returnType⟩ decl ⟨.empty, .empty⟩
          = .ok (body, s)
        ∧ FrameSafe p decl s.frame.depth ls := by
  have h : (firstFrame crowded).any (fun found =>
      found.1 = [("a", 4), ("b", 5), ("p", 24), ("s", 26), ("c", 27)]
        ∧ .insn (.alu .sub (reg .qword .rsp) (.imm 32)) ∈ found.2
        ∧ .insn (.push .rax) ∈ found.2) = true := by
    set_option maxRecDepth 2000 in
    rw [firstFrame, frontend, tokenize_written (rfl : crowded = String.ofList _)]
    decide +kernel
  obtain ⟨found, hfound, hfacts⟩ := (Option.any_eq_true _ _).1 h
  obtain ⟨p, report, decl, strings, hfront, hdecl, hmade, hlocals⟩ := firstFrame_some hfound
  obtain ⟨hoffsets, hroom, hpush⟩ := of_decide_eq_true hfacts
  exact ⟨p, decl, found.2, ⟨report, hfront⟩, hdecl, ⟨strings, hmade⟩, hlocals.trans hoffsets,
    hroom, hpush, function_frameSafe hfront hdecl hmade⟩

end MiniC
