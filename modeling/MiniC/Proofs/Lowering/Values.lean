/-
Values of the intermediate representation that stand for values of the
source. The instructions that convert a value, bring two operands together and
operate on them compute what the source language says (`convert_passes`,
`arith_passes`, `compare_passes`).

# Types

Every type of whole numbers of the source has one of the representation, by its
width (`Represents`). A value is in range of its type on both sides, so that either
language wraps a number alike (`wrapTo_eq`), widens and cuts off alike
(`apply_eq`) and computes alike (`arith_eq`), with the same divisions that have
no result.

# Denoting

A value denotes a source value when it has the type that represents the source
type and its number is the source number: a constant says so in its text, a
temporary holds it (`Denotes`). A conversion of a constant is another constant
and no instruction; one of a temporary is a comparison with zero or a change of
width.

# Passing

A stretch of lowering that control passes through is `Passes`: the code that
was added leads from one memory to the other, whatever comes behind it, and the
temporaries of before keep their numbers. Stretches compose, and a value that
was denoted before is denoted after, so operands may be computed one after the
other.
Consumed by the proof that expressions are lowered with their values.
-/
import MiniC.Proofs.Lowering.Steps
import MiniC.Proofs.Source.Eval

namespace MiniC.Lowering

open IR Source Steps

-- ================================================================= types

/-- The types of whole numbers and what represents them. -/
inductive Represents : MiniC.Ty → IR.Ty → Prop where
  | bool : Represents .bool .i1
  | char : Represents .char .i8
  | short : Represents .short .i16
  | int : Represents .int .i32
  | long : Represents .long .i64

namespace Represents

variable {ty other : MiniC.Ty} {repr repr' : IR.Ty} {n : Int}

/-- A type of whole numbers has a representation. -/
theorem of_ofSource? (hty : ty.isInteger = true) (h : IR.Ty.ofSource? ty = some repr) :
    Represents ty repr := by
  cases ty <;> first | cases hty; done | cases h <;> constructor

/-- What is represented is a type of whole numbers. -/
theorem whole (h : Represents ty repr) : ty.isInteger = true := by
  cases h <;> rfl

/-- What represents is one. -/
theorem isInteger (h : Represents ty repr) : repr.isInteger = true := by
  cases h <;> rfl

/-- No type of whole numbers is represented as a floating one. -/
theorem isFloating (h : Represents ty repr) : repr.isFloating = false := by
  cases h <;> rfl

/-- A type is represented in one way. -/
theorem unique (h : Represents ty repr) (h' : Represents other repr) : ty = other := by
  cases h <;> cases h' <;> rfl

/-- A value of a type has the bits it is represented with. -/
theorem wrap_eq (h : Represents ty repr) (hn : InRange ty n) : repr.wrap n = n := by
  cases h
  case bool => rcases hn with rfl | rfl <;> rfl
  all_goals exact hn

/-- Zero is of every type. -/
theorem zero (h : Represents ty repr) : InRange ty 0 := by
  cases h
  case bool => exact Or.inl rfl
  all_goals rfl

/-- One is of every type. -/
theorem one (h : Represents ty repr) : InRange ty 1 := by
  cases h
  case bool => exact Or.inr rfl
  all_goals rfl

/-- The two languages agree on the type in which operands meet. -/
theorem promote (h : Represents ty repr) (h' : Represents other repr') :
    Represents (Ty.promote ty other) (arithType repr repr') := by
  cases h <;> cases h' <;> constructor

end Represents

/-- A constant wraps as a value is converted. -/
theorem wrapTo_eq {source target : MiniC.Ty} {repr : IR.Ty} {n : Int}
    (h : Represents target repr) (hsource : source.isInteger = true) (hn : InRange source n) :
    wrapTo repr n = Source.convert false source target n := by
  cases h
  case bool => rfl
  case char => rfl
  case short => rfl
  case int => rfl
  case long =>
    have hlong : Ty.promote source .long = .long := by
      cases source <;> first | rfl | cases hsource
    have hwide := convert_promote false hsource (b := .long) rfl hn
    rw [hlong] at hwide
    exact hwide.symm

/-- A change of width converts between types that are no truth values. -/
theorem apply_eq {source target : MiniC.Ty} {repr repr' : IR.Ty} {n : Int}
    (h : Represents source repr) (h' : Represents target repr') (hbool : repr' ≠ .i1)
    (hn : InRange source n) :
    (if repr'.bits < repr.bits then IR.Cast.trunc
      else if repr = .i1 then .zext else .sext).apply repr repr' n
      = Source.convert false source target n := by
  cases h' <;> first | exact absurd rfl hbool | skip
  all_goals
    cases h
    case bool => rcases hn with rfl | rfl <;> rfl
    all_goals rfl

/-- Both languages compute alike, and stop at the same divisions. -/
theorem arith_eq {op : Arith} {ty : MiniC.Ty} {repr : IR.Ty} (h : Represents ty repr)
    (hty : ty = .int ∨ ty = .long) (a b : Int) :
    IR.arith op repr a b = (Source.arith op ty a b).mapError fun _ => .divide := by
  have hwrap : ∀ k, repr.wrap k = Integer.wrap ty.size k := by
    intro k
    rcases hty with rfl | rfl <;> cases h <;> rfl
  unfold Source.arith IR.arith
  cases op with
  | add => exact congrArg Except.ok (hwrap _)
  | sub => exact congrArg Except.ok (hwrap _)
  | mul => exact congrArg Except.ok (hwrap _)
  | div =>
      dsimp only
      rw [hwrap]
      split
      · rfl
      · split <;> rfl

-- ================================================================ passes

/-- Whether the lowering from `s` to `t` is code that leads from the memory
`m` to `m'`, in a function that goes on from it, and changes no temporary
of before. -/
structure Passes (fn : Function) (s : State) (m : Memory) (t : State) (m' : Memory) : Prop where
  adds : Adds s t
  live : Live t.builder
  leads : ∀ rest rest', Ahead s.builder.function.blocks fn.blocks rest →
    Ahead t.builder.function.blocks fn.blocks rest' → Leads fn rest m rest' m'
  temps : ∀ i < s.builder.nextTemp, m'.temps i = m.temps i

variable {fn : Function} {s t u : State} {m m' m'' : Memory}

/-- No code leaves everything as it is. -/
theorem Passes.refl (fn : Function) (m : Memory) (h : Live s.builder) : Passes fn s m s m := by
  refine ⟨.refl h.started, h, ?_, fun _ _ => rfl⟩
  intro rest rest' hrest hrest'
  rw [hrest.functional hrest']
  exact .refl fn rest' m

/-- Stretches of code follow upon one another. -/
theorem Passes.trans (h : Passes fn s m t m') (h' : Passes fn t m' u m'') :
    Passes fn s m u m'' := by
  refine ⟨h.adds.trans h'.adds, h'.live, ?_, ?_⟩
  · intro rest rest'' hrest hrest''
    obtain ⟨rest', hrest'⟩ := h'.adds.grows.to_function hrest''
    exact (h.leads rest rest' hrest hrest').trans (h'.leads rest' rest'' hrest' hrest'')
  · intro i hi
    rw [h'.temps i (Nat.lt_of_lt_of_le hi h.adds.grows.temps), h.temps i hi]

/-- An instruction that is no terminator and is executed. -/
theorem emit_passes (hs : Live s.builder) {instr : Instr} (hinstr : instr.isTerminator = false)
    (hexec : m.exec instr = .ok m') (htemps : ∀ i < s.builder.nextTemp, m'.temps i = m.temps i)
    {x : Unit} (h : emit instr s = .ok (x, t)) : Passes fn s m t m' := by
  have hadds := emit_additive instr s x t h hs.started
  obtain rfl := emit_ok.1 h
  refine ⟨hadds, ⟨hadds.grows.started, ?_⟩, ?_, htemps⟩
  · exact (terminated_emit hs.started instr).trans hinstr
  · intro rest rest' hrest hrest'
    have hadded : (s.emitted instr).builder = added s.builder instr := emit_live hs instr
    rw [hadded] at hrest'
    rw [hrest.functional (hrest'.of_addToLast hs.started)]
    exact leads_exec hexec

/-- Whether two memories agree on all variables. -/
structure SameVariables (m m' : Memory) : Prop where
  locals : m'.locals = m.locals
  globals : m'.globals = m.globals

theorem SameVariables.refl (m : Memory) : SameVariables m m := ⟨rfl, rfl⟩

/-- What two stretches leave they leave together. -/
theorem SameVariables.trans (h : SameVariables m m') (h' : SameVariables m' m'') :
    SameVariables m m'' :=
  ⟨h'.locals.trans h.locals, h'.globals.trans h.globals⟩

-- ============================================================== denoting

/-- Whether a value stands for a number: a constant by its text, a temporary
by what it holds. -/
def Stands (s : State) (m : Memory) : IR.Value → Int → Prop
  | .constant _ text, n => Integer.ofText? text = some n
  | .temp _ index, n => index < s.builder.nextTemp ∧ m.temps index = some n
  | .argument _ _, _ => False

/-- Whether a value denotes a value of the source. -/
structure Denotes (s : State) (m : Memory) (value : IR.Value) (v : Source.Value) : Prop where
  represents : Represents v.1 value.ty
  inRange : InRange v.1 v.2
  stands : Stands s m value v.2

/-- What a value denotes it denotes further on. -/
theorem Denotes.pass {value : IR.Value} {v : Source.Value} (h : Denotes s m value v)
    (hpass : Passes fn s m t m') : Denotes t m' value v := by
  refine ⟨h.represents, h.inRange, ?_⟩
  have hstands := h.stands
  cases value with
  | constant ty text => exact hstands
  | temp ty index =>
      obtain ⟨hindex, hnumber⟩ := hstands
      exact ⟨Nat.lt_of_lt_of_le hindex hpass.adds.grows.temps,
        (hpass.temps index hindex).trans hnumber⟩
  | argument ty name => exact hstands

/-- A value that denotes is read as its number. -/
theorem Denotes.read {value : IR.Value} {v : Source.Value} (h : Denotes s m value v) :
    m.read value = .ok v.2 := by
  have hstands := h.stands
  have hinteger := h.represents.isInteger
  have hwrap := h.represents.wrap_eq h.inRange
  cases value with
  | constant ty text =>
      exact (Memory.read_constant hinteger hstands).trans (congrArg Except.ok hwrap)
  | temp ty index => exact Memory.read_temp hstands.2
  | argument ty name => exact hstands.elim

/-- A small number of any type. -/
theorem denotes_constant {ty : MiniC.Ty} {repr : IR.Ty} {text : String} {n : Int}
    (h : Represents ty repr) (htext : Integer.ofText? text = some n) (hn : InRange ty n) :
    Denotes s m (.constant repr text) (ty, n) :=
  ⟨h, hn, htext⟩

/-- Zero of the type of a value. -/
theorem Denotes.zero {value : IR.Value} {v : Source.Value} (h : Denotes s m value v) :
    Denotes s m (.constant value.ty "0") (v.1, 0) :=
  denotes_constant h.represents (by decide +kernel) h.represents.zero

/-- Only zero is zero once it has a sign. -/
theorem signed_eq_zero (repr : IR.Ty) (n : Int) : repr.signed n = repr.signed 0 ↔ n = 0 := by
  cases repr <;> first | exact Iff.rfl | exact Int.neg_inj

variable (fn) in
/-- A definition that computes a value of the source. -/
theorem define_passes (hs : Live s.builder) {definition : Definition} {value : IR.Value}
    {v : Source.Value} (h : define definition s = .ok (value, t))
    (hcompute : m.compute definition = .ok v.2) (hty : Represents v.1 definition.ty)
    (hv : InRange v.1 v.2) :
    ∃ m', Passes fn s m t m' ∧ SameVariables m m' ∧ Denotes t m' value v := by
  obtain ⟨rfl, rfl⟩ := define_ok.1 h
  have hfresh : Adds s { s with builder := s.builder.freshTemp.2 } :=
    ⟨grows_freshTemp hs.started, fun _ ht => ⟨ht.nodup, ht.taken⟩, rfl⟩
  have hexec := Memory.exec_define s.builder.nextTemp hty.isInteger hcompute
  have hlive : Live s.builder.freshTemp.2 := ⟨hs.started, hs.running⟩
  have htemps : ∀ i < s.builder.nextTemp, (m.setTemp s.builder.nextTemp v.2).temps i
      = m.temps i := by
    intro i hi
    exact if_neg (Nat.ne_of_lt hi)
  have hadds := emit_additive (.define s.builder.nextTemp definition)
    { s with builder := s.builder.freshTemp.2 } () _ rfl hlive.started
  refine ⟨_, ⟨hfresh.trans hadds, ⟨hadds.grows.started, ?_⟩, ?_, htemps⟩, ⟨rfl, rfl⟩, hty, hv, ?_⟩
  · exact terminated_emit hlive.started _
  · intro rest rest' hrest hrest'
    rw [emit_live hlive] at hrest'
    rw [hrest.functional (hrest'.of_addToLast hs.started)]
    exact leads_exec hexec
  · exact ⟨hadds.grows.temps, if_pos rfl⟩

-- =========================================================== conversions

/-- A constant is converted on the spot. -/
theorem retype_denotes {text : String} {source target : MiniC.Ty} {repr repr' : IR.Ty} {n : Int}
    {value : IR.Value} (hvalue : Denotes s m (.constant repr text) (source, n))
    (htarget : Represents target repr') (hne : repr ≠ repr')
    (h : retype text repr repr' = .ok value) :
    Denotes s m value (target, Source.convert false source target n) := by
  have hsource : Represents source repr := hvalue.represents
  have htext : Integer.ofText? text = some n := hvalue.stands
  have hrange := convert_inRange false source target n
  unfold retype constantInt? at h
  rw [if_neg hne, htarget.isFloating, hsource.isFloating, if_neg Bool.false_ne_true,
    if_neg Bool.false_ne_true, htext] at h
  cases h
  rw [wrapTo_eq htarget hsource.whole hvalue.inRange]
  exact denotes_constant htarget (ofText?_toString (hrange.fitsLong htarget.whole)) hrange

/-- A comparison with zero, or a change of width. -/
theorem recast_passes (hs : Live s.builder) {value result : IR.Value} {v : Source.Value}
    (hv : Denotes s m value v) {target : MiniC.Ty} {repr : IR.Ty}
    (htarget : Represents target repr) (h : recast value repr s = .ok (result, t)) :
    ∃ m', Passes fn s m t m' ∧ SameVariables m m'
      ∧ Denotes t m' result (target, Source.convert false v.1 target v.2) := by
  have hrange := convert_inRange false v.1 target v.2
  unfold recast at h
  rw [hv.represents.isFloating, htarget.isFloating, Bool.or_self,
    if_neg Bool.false_ne_true] at h
  by_cases hbool : repr = .i1
  · subst hbool
    cases htarget
    rw [if_pos rfl] at h
    refine define_passes fn hs h ?_ Represents.bool hrange
    have hsigned := signed_eq_zero value.ty v.2
    rw [Memory.compute_compare hv.read hv.zero.read]
    refine congrArg Except.ok ?_
    show (if (value.ty.signed v.2 != value.ty.signed 0) then 1 else 0)
      = if v.2 = 0 then (0 : Int) else 1
    by_cases hn : v.2 = 0
    · rw [if_pos hn, if_neg (by rw [bne_iff_ne, ne_eq, hsigned]; exact not_not_intro hn)]
    · rw [if_neg hn, if_pos (by rw [bne_iff_ne, ne_eq, hsigned]; exact hn)]
  · rw [if_neg hbool] at h
    refine define_passes fn hs h ?_ htarget hrange
    rw [Memory.compute_cast hv.read]
    exact congrArg Except.ok (apply_eq hv.represents htarget hbool hv.inRange)

variable (fn) in
/-- Converting a value of the representation converts the source's. -/
theorem convert_passes (hs : Live s.builder) {value result : IR.Value} {v : Source.Value}
    (hv : Denotes s m value v) {target : MiniC.Ty} {repr : IR.Ty}
    (htarget : Represents target repr) (h : convert value repr s = .ok (result, t)) :
    ∃ m', Passes fn s m t m' ∧ SameVariables m m'
      ∧ Denotes t m' result (target, Source.convert false v.1 target v.2) := by
  rw [convert_eq] at h
  by_cases heq : value.ty = repr
  · rw [if_pos heq] at h
    obtain ⟨rfl, rfl⟩ := pure_ok.1 h
    obtain rfl : v.1 = target := hv.represents.unique (heq ▸ htarget)
    rw [convert_self hv.inRange]
    exact ⟨m, .refl fn m hs, .refl m, hv⟩
  · rw [if_neg heq] at h
    cases value with
    | constant ty text =>
        obtain ⟨hretype, rfl⟩ := lift_ok.1 h
        exact ⟨m, .refl fn m hs, .refl m, retype_denotes hv htarget heq hretype⟩
    | temp ty index => exact recast_passes hs hv htarget h
    | argument ty name => exact hv.stands.elim

-- ============================================================ operations

variable (fn) in
/-- Two operands in the type in which they meet. -/
theorem meet_passes (hs : Live s.builder) {lhs rhs l r : IR.Value} {a b : Source.Value}
    {repr : IR.Ty} (ha : Denotes s m lhs a) (hb : Denotes s m rhs b)
    (h : meet lhs rhs s = .ok ((repr, l, r), t)) :
    ∃ m', Passes fn s m t m' ∧ SameVariables m m'
      ∧ Represents (Ty.promote a.1 b.1) repr
      ∧ Denotes t m' l (Ty.promote a.1 b.1, Source.convert false a.1 (Ty.promote a.1 b.1) a.2)
      ∧ Denotes t m' r (Ty.promote a.1 b.1, Source.convert false b.1 (Ty.promote a.1 b.1) b.2) := by
  have hty := ha.represents.promote hb.represents
  have hptr : arithType lhs.ty rhs.ty ≠ .ptr := by
    intro heq
    have hinteger := hty.isInteger
    rw [heq] at hinteger
    cases hinteger
  unfold meet at h
  rw [hty.isFloating, if_neg Bool.false_ne_true, if_neg hptr] at h
  simp only [bind_ok, pure_ok] at h
  obtain ⟨l', u, hl, r', u', hr, hanswer, rfl⟩ := h
  cases hanswer
  obtain ⟨m₁, hpass, hsame, hleft⟩ := convert_passes fn hs ha hty hl
  obtain ⟨m₂, hpass', hsame', hright⟩ :=
    convert_passes fn hpass.live (hb.pass hpass) hty hr
  exact ⟨m₂, hpass.trans hpass', hsame.trans hsame', hty, hleft.pass hpass', hright⟩

variable (fn) in
/-- An operation computes what the source says, if that has a result. -/
theorem arith_passes (hs : Live s.builder) {op : Arith} {lhs rhs value : IR.Value}
    {a b v : Source.Value} (ha : Denotes s m lhs a) (hb : Denotes s m rhs b)
    (hv : operate false op a b = .ok v) (h : arith op lhs rhs s = .ok (value, t)) :
    ∃ m', Passes fn s m t m' ∧ SameVariables m m' ∧ Denotes t m' value v := by
  unfold arith at h
  obtain ⟨⟨repr, l, r⟩, u, hmeet, hdefine⟩ := bind_ok.1 h
  obtain ⟨m₁, hpass, hsame, hty, hleft, hright⟩ := meet_passes fn hs ha hb hmeet
  rw [operate_eq] at hv
  obtain ⟨n, hn, rfl⟩ := except_map_ok.1 hv
  have hwide := promote_whole ha.represents.whole hb.represents.whole
  have hcompute : m₁.compute (.arith op repr l r) = .ok n := by
    rw [Memory.compute_arith hleft.read hright.read, arith_eq hty hwide, hn]
    rfl
  obtain ⟨m₂, hpass', hsame', hvalue⟩ :=
    define_passes fn (v := (Ty.promote a.1 b.1, n)) hpass.live hdefine hcompute hty
      (arith_inRange hwide hn)
  exact ⟨m₂, hpass.trans hpass', hsame.trans hsame', hvalue⟩

/-- Where values meet, numbers have their signs. -/
theorem signed_eq {ty : MiniC.Ty} {repr : IR.Ty} (h : Represents ty repr)
    (hty : ty = .int ∨ ty = .long) (n : Int) : repr.signed n = n := by
  rcases hty with rfl | rfl <;> cases h <;> rfl

variable (fn) in
/-- A comparison computes what the source says. -/
theorem compare_passes (hs : Live s.builder) {op : Comparison} {lhs rhs value : IR.Value}
    {a b : Source.Value} (ha : Denotes s m lhs a) (hb : Denotes s m rhs b)
    (h : compare op lhs rhs s = .ok (value, t)) :
    ∃ m', Passes fn s m t m' ∧ SameVariables m m'
      ∧ Denotes t m' value (Source.compare false op a b) := by
  unfold compare at h
  obtain ⟨⟨repr, l, r⟩, u, hmeet, hdefine⟩ := bind_ok.1 h
  obtain ⟨m₁, hpass, hsame, hty, hleft, hright⟩ := meet_passes fn hs ha hb hmeet
  have hwide := promote_whole ha.represents.whole hb.represents.whole
  have hcompute : m₁.compute (.compare op l r) = .ok (Source.compare false op a b).2 := by
    rw [Memory.compute_compare hleft.read hright.read, signed_eq hleft.represents hwide,
      signed_eq hright.represents hwide]
    rfl
  have hrange : InRange .bool (Source.compare false op a b).2 := truth_inRange _
  obtain ⟨m₂, hpass', hsame', hvalue⟩ :=
    define_passes fn (v := Source.compare false op a b) hpass.live hdefine hcompute
      Represents.bool hrange
  exact ⟨m₂, hpass.trans hpass', hsame.trans hsame', hvalue⟩

end MiniC.Lowering
