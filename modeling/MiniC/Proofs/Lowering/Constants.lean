/-
The constants of lowered code. A constant of an integer type is the text of
a number of that type, whatever was folded, negated or converted to get it
(`lower_constantsFit`). What initializes a global is the number that code
generation puts into the data of the program.

# Where constants come from

There are three sources. Folding gives a number that does not fit in an int the
type long, and one that fits in neither is an error of its own
(`Expr.evaluate_inBounds`). A conversion wraps to the width of its target
(`wrapped_fits`), of a floating number the whole part, which is one of 64 bits.
And lowering itself writes zeros and ones. As a discipline that every
instruction keeps to, this is `fits_discipline`.

# The one exception

A literal that is used as it is written comes about without any of this. One
that does not fit in an int keeps its text and the type int, also where it is
stored as an int (`wideLiteral_unfit`), so literals that are not folded have to
fit (`Program.LiteralsFit`).

# Data

A global is lowered to the literal it is initialized with, made over into its
type; the data of the generated program holds the number that this literal is
taken for there. Both start from the same folded literal, and the two wrap
numbers alike (`wrapTo_agree`), so that the constant is the number in the data
(`global_integer`). Data only grows while further globals and functions are
generated (`generate_integer`).
Consumed by the account of conditions that are constant.
-/
import MiniC.Pipeline
import MiniC.Proofs.Lowering.Keeping
import MiniC.Proofs.Parser.Declarations

namespace MiniC

open IR Steps

-- ============================================================== literals

/-- Whether a literal, if it is one of whole numbers, fits its type. -/
def NumberLiteral.InBounds (lit : NumberLiteral) : Prop :=
  lit.ty.isInteger = true → Source.Fits lit

instance (lit : NumberLiteral) : Decidable lit.InBounds :=
  inferInstanceAs (Decidable (_ → _))

/-- What folding gives fits its type, whatever it is made of. -/
theorem NumberLiteral.fold_inBounds {op : BinaryOp} {a b lit : NumberLiteral} {pos : Position}
    (h : NumberLiteral.fold op a b pos = .ok lit) : lit.InBounds := by
  intro hty
  unfold NumberLiteral.fold at h
  simp only [except_bind_ok] at h
  obtain ⟨x, -, y, -, h⟩ := h
  split at h
  · rename_i hfloat
    split at h
    · obtain ⟨z, -, h⟩ := except_bind_ok.1 h
      cases h
      have hnot : (Ty.promote a.ty b.ty).isInteger = false := by
        cases hp : Ty.promote a.ty b.ty <;> rw [hp] at hfloat <;> first | rfl | cases hfloat
      rw [hnot] at hty
      cases hty
    · cases h
      exact Source.boolean_fits _ _
    · cases h
  · split at h
    · obtain ⟨n, hn, h⟩ := except_bind_ok.1 h
      cases h
      exact Source.ofInt_fits (Source.foldInt_fits hn) _ _
    · cases h
      exact Source.boolean_fits _ _
    · cases h

/-- A constant expression folds to a literal that fits, if its own does. -/
theorem Expr.evaluate_inBounds {e : Expr} {lit : NumberLiteral} (hconst : e.isConstant = true)
    (hloose : ∀ l ∈ e.loose, l.InBounds) (h : e.evaluate = .ok lit) : lit.InBounds := by
  cases e, hconst using Source.constant_cases with
  | number l =>
      cases h
      exact hloose lit List.mem_cons_self
  | folded op lhs rhs operandsMatch pos =>
      unfold Expr.evaluate at h
      rw [if_pos rfl] at h
      obtain ⟨a, -, h⟩ := except_bind_ok.1 h
      obtain ⟨b, -, h⟩ := except_bind_ok.1 h
      exact NumberLiteral.fold_inBounds h

-- ============================================================= constants

namespace IR

/-- A value of a source type is a number of the type it is kept as. -/
theorem Ty.contains_of_inRange {ty : MiniC.Ty} {repr : IR.Ty} {n : Int}
    (hrepr : Ty.ofSource? ty = some repr) (hty : ty.isInteger = true)
    (h : Source.InRange ty n) : repr.Contains n := by
  have hwrap := h.wrap hty
  cases ty <;> try cases hty
  all_goals cases hrepr
  case bool => rcases h with rfl | rfl <;> decide
  case char =>
    have hwrap : Integer.wrap 1 n = n := hwrap
    rw [Source.wrap_one] at hwrap
    show (-128 : Int) ≤ n ∧ n < 128
    omega
  case short =>
    have hwrap : Integer.wrap 2 n = n := hwrap
    rw [Source.wrap_two] at hwrap
    show (-32768 : Int) ≤ n ∧ n < 32768
    omega
  case int =>
    have hwrap : Integer.wrap 4 n = n := hwrap
    rw [Source.wrap_four] at hwrap
    show (-2147483648 : Int) ≤ n ∧ n < 2147483648
    omega
  case long =>
    have hwrap : Integer.wrap 8 n = n := hwrap
    rw [Source.wrap_eight] at hwrap
    show (-9223372036854775808 : Int) ≤ n ∧ n < 9223372036854775808
    omega

end IR

namespace Lowering

/-- The numbers of 64 bits, with bounds. -/
theorem fitsLong_iff {n : Int} :
    Integer.fitsLong n = true ↔ -9223372036854775808 ≤ n ∧ n < 9223372036854775808 := by
  unfold Integer.fitsLong
  simp only [Bool.and_eq_true, decide_eq_true_eq]

/-- A wrapped number of 64 bits is one of the type it is wrapped to, and of
64 bits still. -/
theorem wrapTo_contains {ty : IR.Ty} {n : Int} (hty : ty.isInteger = true)
    (hn : Integer.fitsLong n = true) :
    ty.Contains (wrapTo ty n) ∧ Integer.fitsLong (wrapTo ty n) = true := by
  have hsource : ∀ (source : MiniC.Ty) {m : Int}, IR.Ty.ofSource? source = some ty →
      source.isInteger = true → Source.InRange source m →
      ty.Contains m ∧ Integer.fitsLong m = true := fun _ _ hrepr hwhole hm =>
    ⟨Ty.contains_of_inRange hrepr hwhole hm, hm.fitsLong hwhole⟩
  cases ty <;> try cases hty
  case i1 =>
    refine hsource .bool rfl rfl ?_
    show (if n = 0 then 0 else 1) = (0 : Int) ∨ (if n = 0 then 0 else 1) = (1 : Int)
    split <;> decide
  case i8 => exact hsource .char rfl rfl (Source.wrap_wrap 1 n)
  case i16 => exact hsource .short rfl rfl (Source.wrap_wrap 2 n)
  case i32 => exact hsource .int rfl rfl (Source.wrap_wrap 4 n)
  case i64 => exact ⟨fitsLong_iff.1 hn, hn⟩

/-- The whole part of a floating number is one of 64 bits. -/
theorem toLong_fitsLong (x : Float) : Integer.fitsLong (Floating.toLong x) = true := by
  rw [fitsLong_iff]
  unfold Floating.toLong
  split
  · decide
  · split <;> decide
  · dsimp only
    omega

/-- A checked result is a number of 64 bits. -/
theorem checked_fitsLong {m n : Int} (h : Integer.checked m = some n) :
    Integer.fitsLong n = true := by
  unfold Integer.checked at h
  split at h
  · cases h
    assumption
  · cases h

/-- A number that is read is one of 64 bits. -/
theorem ofText?_fitsLong {text : String} {n : Int} (h : Integer.ofText? text = some n) :
    Integer.fitsLong n = true := by
  obtain ⟨m, -, h⟩ := Option.bind_eq_some_iff.1 h
  exact checked_fitsLong h

/-- The number of a constant is one of 64 bits. -/
theorem constantInt?_fitsLong {text : String} {source : IR.Ty} {n : Int}
    (h : constantInt? text source = some n) : Integer.fitsLong n = true := by
  unfold constantInt? at h
  split at h
  · obtain ⟨x, -, rfl⟩ := Option.map_eq_some_iff.1 h
    exact toLong_fitsLong x
  · exact ofText?_fitsLong h

/-- The constant of a wrapped number fits. -/
theorem wrapped_fits {ty : IR.Ty} {n : Int} (hn : Integer.fitsLong n = true) :
    (Value.constant ty (toString (wrapTo ty n))).Fits := by
  intro hty
  obtain ⟨hcontains, hlong⟩ := wrapTo_contains hty hn
  exact ⟨_, Source.ofText?_toString hlong, hcontains⟩

/-- No type is both whole and floating. -/
theorem not_isInteger {ty : IR.Ty} (h : ty.isFloating = true) : ty.isInteger = false := by
  cases ty <;> first | rfl | cases h

/-- What is represented by a whole type is one. -/
theorem isInteger_of_ofSource? {ty : MiniC.Ty} {repr : IR.Ty}
    (hrepr : IR.Ty.ofSource? ty = some repr) (hwhole : repr.isInteger = true) :
    ty.isInteger = true := by
  cases ty <;> cases hrepr <;> first | rfl | cases hwhole

/-- A constant that fits its type fits the type it is made over into. -/
theorem retype_fits {text : String} {source target : IR.Ty} {value : Value}
    (hv : (Value.constant source text).Fits) (h : retype text source target = .ok value) :
    value.Fits := by
  unfold retype at h
  dsimp only at h
  split at h
  · rename_i hsame
    cases h
    rw [← hsame]
    exact hv
  · split at h
    · rename_i hfloat
      split at h
      · cases h
        intro hty
        rw [not_isInteger hfloat] at hty
        cases hty
      · cases h
    · split at h
      · rename_i n hn
        cases h
        exact wrapped_fits (constantInt?_fitsLong hn)
      · cases h

/-- A literal that fits its type is a constant that does. -/
theorem literal_fits {lit : NumberLiteral} {value : Value} (hlit : lit.InBounds)
    (h : literal lit = .ok value) : value.Fits := by
  unfold literal at h
  split at h
  · rename_i repr hrepr
    cases h
    intro hty
    have hwhole : lit.ty.isInteger = true := isInteger_of_ofSource? hrepr hty
    obtain ⟨n, hn, hwritable⟩ := hlit hwhole
    have hfloat : lit.ty.isFloating = false := by
      cases hl : lit.ty <;> rw [hl] at hwhole <;> first | rfl | cases hwhole
    exact ⟨n, Source.text_of_toInt hfloat hn,
      Ty.contains_of_inRange hrepr hwhole hwritable.inRange⟩
  · cases h

/-- Zero and one fit every type. -/
theorem digit_fits (ty : IR.Ty) {n : Int} (hn : n = 0 ∨ n = 1) {text : String}
    (htext : Integer.ofText? text = some n) : (Value.constant ty text).Fits := by
  intro hty
  refine ⟨n, htext, ?_⟩
  rcases hn with rfl | rfl <;> cases ty <;> first | decide | cases hty

/-- Constants fit for the reasons lowering has. -/
theorem fits_discipline (returnType : IR.Ty) :
    Discipline (fun instr => ∀ value ∈ instr.values, value.Fits) Value.Fits returnType False where
  temp _ _ := trivial
  argument _ _ := trivial
  zero ty := digit_fits ty (Or.inl rfl) (by decide)
  one ty := digit_fits ty (Or.inr rfl) (by decide)
  real hfloat hty := by
    rw [not_isInteger hfloat] at hty
    cases hty
  folded hfold h := literal_fits (NumberLiteral.fold_inBounds hfold) h
  retype hv h := retype_fits hv h
  alloca _ := nofun
  load _ _ := nofun
  arith _ _ _ _ _ _ _ _ hl hr := List.forall_mem_cons.2 ⟨hl, List.forall_mem_singleton.2 hr⟩
  compare _ _ _ _ _ _ hl hr := List.forall_mem_cons.2 ⟨hl, List.forall_mem_singleton.2 hr⟩
  cast _ _ _ _ _ _ hv := List.forall_mem_singleton.2 hv
  store _ hv := List.forall_mem_singleton.2 hv
  jump _ := nofun
  branch _ _ _ hv := List.forall_mem_singleton.2 hv
  retNone _ := nofun
  retSome _ _ hv := List.forall_mem_singleton.2 hv

-- =============================================================== globals

/-- What a list of results was computed from. -/
theorem exists_of_mapM {α β ε : Type} {f : α → Except ε β} {xs : List α} {ys : List β}
    (h : xs.mapM f = .ok ys) {y : β} (hy : y ∈ ys) : ∃ x ∈ xs, f x = .ok y := by
  have hall := mapM_ok h
  clear h
  induction hall with
  | nil => cases hy
  | @cons x _ xs _ hx _ ih =>
      rcases List.mem_cons.1 hy with rfl | hlater
      · exact ⟨x, List.mem_cons_self, hx⟩
      · obtain ⟨x', hmem, hx'⟩ := ih hlater
        exact ⟨x', List.mem_cons_of_mem _ hmem, hx'⟩

/-- Both back ends wrap a number alike. -/
theorem wrapTo_agree {ty : MiniC.Ty} {repr : IR.Ty} (hrepr : IR.Ty.ofSource? ty = some repr)
    (hty : ty.isInteger = true) (n : Int) : wrapTo repr n = Codegen.wrapTo ty n := by
  cases ty <;> try cases hty
  all_goals cases hrepr; rfl

/-- A value of a type wraps to itself. -/
theorem wrapTo_inRange {ty : MiniC.Ty} (hty : ty.isInteger = true) {n : Int}
    (h : Source.InRange ty n) : Codegen.wrapTo ty n = n := by
  cases ty <;> try cases hty
  case bool => rcases h with rfl | rfl <;> rfl
  case char => exact h
  case short => exact h
  case int => exact h
  case long => rfl

/-- The number of a literal is that of its constant. -/
theorem constantInt?_iff {lit : NumberLiteral} {repr : IR.Ty} {n : Int}
    (hrepr : IR.Ty.ofSource? lit.ty = some repr) :
    constantInt? lit.text repr = some n ↔ lit.toInt = .ok n := by
  have hfloat : repr.isFloating = lit.ty.isFloating := by
    cases hl : lit.ty <;> rw [hl] at hrepr <;> cases hrepr <;> rfl
  unfold constantInt? NumberLiteral.toInt NumberLiteral.number
  rw [hfloat]
  split
  · cases Floating.ofText? lit.text <;> simp [Except.map, Number.toInt]
  · cases Integer.ofText? lit.text <;> simp [Except.map, Number.toInt]

/-- A whole literal is taken for its number, wrapped. -/
theorem immediate_of_toInt {lit : NumberLiteral} {n : Int} (h : lit.toInt = .ok n)
    (ty : MiniC.Ty) : Codegen.immediate lit ty = .ok (Codegen.wrapTo ty n) := by
  unfold Codegen.immediate
  rw [h]
  rfl

/-- A literal made over into an integer type is the number that code
generation takes it for. One of that very type is taken as it is, and has to
fit. -/
theorem retype_immediate {lit : NumberLiteral} {ty : MiniC.Ty} {source target : IR.Ty}
    {value : Value} (hsource : IR.Ty.ofSource? lit.ty = some source)
    (htarget : IR.Ty.ofSource? ty = some target) (hty : ty.isInteger = true)
    (hlit : lit.ty = ty → lit.InBounds) (h : retype lit.text source target = .ok value) :
    ∃ text n, value = .constant target text ∧ Integer.ofText? text = some n
      ∧ target.Contains n ∧ Codegen.immediate lit ty = .ok n := by
  have hwhole : target.isInteger = true := by
    cases ty <;> cases htarget <;> first | rfl | cases hty
  unfold retype at h
  dsimp only at h
  split at h
  · rename_i hsame
    have hlitty : lit.ty = ty := by
      rw [hsame] at hsource
      cases hl : lit.ty <;> cases ty <;> rw [hl] at hsource <;> cases hsource <;>
        first | rfl | cases htarget
    obtain ⟨n, hn, hwritable⟩ := hlit hlitty (hlitty ▸ hty)
    have hrange : Source.InRange ty n := hlitty ▸ hwritable.inRange
    have hfloat : lit.ty.isFloating = false := by
      rw [hlitty]
      cases ty <;> first | rfl | cases hty
    cases h
    refine ⟨lit.text, n, rfl, Source.text_of_toInt hfloat hn, ?_, ?_⟩
    · exact Ty.contains_of_inRange htarget hty hrange
    · rw [immediate_of_toInt hn, wrapTo_inRange hty hrange]
  · split at h
    · rename_i hfloat
      rw [not_isInteger hfloat] at hwhole
      cases hwhole
    · split at h
      · rename_i n hn
        cases h
        obtain ⟨hcontains, hlong⟩ := wrapTo_contains hwhole (constantInt?_fitsLong hn)
        refine ⟨_, wrapTo target n, rfl, Source.ofText?_toString hlong, hcontains, ?_⟩
        rw [immediate_of_toInt ((constantInt?_iff hsource).1 hn), wrapTo_agree htarget hty]
      · cases h

/-- How a global with an initializer is lowered. -/
theorem global_init {decl : VariableDecl} {g : Global} {value : Value} (h : global decl = .ok g)
    (hinit : g.init = some value) :
    ∃ e lit source, decl.init = some e ∧ e.isConstant = true ∧ e.evaluate = .ok lit
      ∧ IR.Ty.ofSource? lit.ty = some source ∧ retype lit.text source g.slot.ty = .ok value := by
  unfold global at h
  obtain ⟨ty, -, h⟩ := except_bind_ok.1 h
  dsimp only at h
  split at h
  · rename_i e he
    split at h
    · rename_i hconst
      obtain ⟨lit, hlit, h⟩ := except_bind_ok.1 h
      split at h
      · rename_i source hsource
        obtain ⟨init, hretyped, h⟩ := except_bind_ok.1 h
        obtain ⟨value', hretype, rfl⟩ := except_map_ok.1 hretyped
        cases h
        cases hinit
        exact ⟨e, lit, source, he, hconst, liftEval_ok.1 hlit, hsource, hretype⟩
      · cases h
    · cases h
  · cases h
    cases hinit

end Lowering

namespace Codegen

open Asm

variable {program : Program}

/-- The data of a program only grows. -/
theorem global_data {decl : VariableDecl} {asm asm' : Assembly} {strings strings' : StringPool}
    (h : global program decl asm strings = .ok (asm', strings')) : asm.data ⊆ asm'.data := by
  unfold global at h
  obtain ⟨⟨size, align⟩, -, h⟩ := except_bind_ok.1 h
  dsimp only at h
  repeat' split at h
  all_goals try cases h
  all_goals try exact List.subset_append_left _ _
  all_goals try exact List.Subset.refl _
  all_goals
    simp only [except_bind_ok] at h
    obtain ⟨lit, -, n, -, h⟩ := h
    cases h
    exact List.subset_append_left _ _

/-- A global of an integer type is laid out as its number. -/
theorem global_integer {decl : VariableDecl} {asm asm' : Assembly}
    {strings strings' : StringPool} {e : Expr} {lit : NumberLiteral} {n : Int}
    (h : global program decl asm strings = .ok (asm', strings'))
    (hty : decl.ty.isInteger = true) (hinit : decl.init = some e) (hconst : e.isConstant = true)
    (heval : e.evaluate = .ok lit) (hn : immediate lit decl.ty = .ok n) :
    ∃ width, .integer decl.name width n ∈ asm'.data := by
  unfold global at h
  obtain ⟨⟨size, align⟩, hsize, h⟩ := except_bind_ok.1 h
  have hwidth : Width.ofBytes? size ≠ none := by
    cases hd : decl.ty <;> rw [hd] at hty hsize <;> cases hty <;> cases hsize <;> exact nofun
  dsimp only at h
  split at h
  · rename_i hname
    rw [hname] at hty
    cases hty
  · rename_i hnone _
    exact absurd hnone hwidth
  · rename_i width _ _
    rw [hinit] at h
    dsimp only at h
    split at h
    · cases hconst
    · have hfloat : ¬ decl.ty.isFloating = true := by
        cases hd : decl.ty <;> rw [hd] at hty <;> first | decide | cases hty
      rw [if_pos hconst, heval] at h
      obtain ⟨_, hlit, h⟩ := except_bind_ok.1 h
      cases hlit
      rw [if_neg hfloat, hn] at h
      obtain ⟨_, hnumber, h⟩ := except_bind_ok.1 h
      cases hnumber
      cases h
      exact ⟨width, List.mem_append_right _ (List.mem_singleton_self _)⟩

/-- Globals only add to the data. -/
theorem globals_data : ∀ (decls : List VariableDecl) {asm asm' : Assembly}
    {strings strings' : StringPool},
    globals program decls asm strings = .ok (asm', strings') → asm.data ⊆ asm'.data
  | [], _, _, _, _, h => by
      cases h
      exact List.Subset.refl _
  | decl :: rest, asm, asm', strings, strings', h => by
      unfold globals at h
      obtain ⟨⟨asm'', strings''⟩, hdecl, h⟩ := except_bind_ok.1 h
      exact List.Subset.trans (global_data hdecl) (globals_data rest h)

/-- Each of several globals of an integer type is laid out as its number. -/
theorem globals_integer : ∀ (decls : List VariableDecl) {asm asm' : Assembly}
    {strings strings' : StringPool},
    globals program decls asm strings = .ok (asm', strings') →
    ∀ decl ∈ decls, decl.ty.isInteger = true → ∀ e lit n, decl.init = some e →
    e.isConstant = true → e.evaluate = .ok lit → immediate lit decl.ty = .ok n →
    ∃ width, .integer decl.name width n ∈ asm'.data
  | first :: rest, asm, asm', strings, strings', h, decl, hdecl, hty, e, lit, n, hinit, hconst,
      heval, hn => by
      unfold globals at h
      obtain ⟨⟨asm'', strings''⟩, hfirst, hrest⟩ := except_bind_ok.1 h
      rcases List.mem_cons.1 hdecl with rfl | hlater
      · obtain ⟨width, hmem⟩ := global_integer hfirst hty hinit hconst heval hn
        exact ⟨width, globals_data rest hrest hmem⟩
      · exact globals_integer rest hrest decl hlater hty e lit n hinit hconst heval hn

/-- Functions leave the data as it is. -/
theorem functions_data {noRedZone : Bool} : ∀ (decls : List FunctionDecl) (asm : Assembly)
    {asm' : Assembly} (strings : StringPool) {strings' : StringPool},
    functions program noRedZone decls asm strings = .ok (asm', strings') →
    asm'.data = asm.data
  | [], _, _, _, _, h => by
      cases h
      rfl
  | decl :: rest, asm, asm', strings, strings', h => by
      unfold functions at h
      obtain ⟨⟨body, strings''⟩, -, h⟩ := except_bind_ok.1 h
      exact functions_data rest { asm with functions := asm.functions ++ [(decl.name, body)] }
        strings'' h

/-- The data of a program has each of its globals of an integer type as its
number. -/
theorem generate_integer {noRedZone : Bool} {asm : Assembly}
    (h : program.generate noRedZone = .ok asm) {decl : VariableDecl}
    (hdecl : decl ∈ program.globals) (hty : decl.ty.isInteger = true) {e : Expr}
    {lit : NumberLiteral} {n : Int} (hinit : decl.init = some e) (hconst : e.isConstant = true)
    (heval : e.evaluate = .ok lit) (hn : immediate lit decl.ty = .ok n) :
    ∃ width, .integer decl.name width n ∈ asm.data := by
  unfold Program.generate at h
  split at h
  · rename_i hempty
    have hnone : program.globals = [] := by
      unfold Program.globals
      rw [List.isEmpty_iff.1 hempty]
      rfl
    rw [hnone] at hdecl
    cases hdecl
  · split at h
    · cases h
    obtain ⟨⟨withData, strings⟩, hglobals, h⟩ := except_bind_ok.1 h
    obtain ⟨⟨whole, strings'⟩, hfunctions, h⟩ := except_bind_ok.1 h
    cases h
    obtain ⟨width, hmem⟩ := globals_integer program.globals hglobals decl hdecl hty e lit n hinit
      hconst heval hn
    refine ⟨width, List.mem_append_left _ ?_⟩
    rw [functions_data program.functions withData strings hfunctions]
    exact hmem

end Codegen

-- ============================================================== programs

/-- Whether the literals of a program fit their types, those apart that are
folded with others. -/
structure Program.LiteralsFit (p : Program) : Prop where
  functions : ∀ decl ∈ p.functions, decl.Everywhere fun _ leaf =>
    ∀ e ∈ leaf.exprs, ∀ lit ∈ e.loose, lit.InBounds
  globals : ∀ decl ∈ p.globals, ∀ e ∈ decl.init, ∀ lit ∈ e.loose, lit.InBounds

instance (p : Program) : Decidable p.LiteralsFit :=
  decidable_of_iff
    ((∀ decl ∈ p.functions, decl.Everywhere fun _ leaf =>
        ∀ e ∈ leaf.exprs, ∀ lit ∈ e.loose, lit.InBounds)
      ∧ ∀ decl ∈ p.globals, ∀ e ∈ decl.init, ∀ lit ∈ e.loose, lit.InBounds)
    ⟨fun h => ⟨h.1, h.2⟩, fun h => ⟨h.functions, h.globals⟩⟩

/-- Whether the integer constants of a lowered program are numbers of their
types, and those that initialize globals are the numbers in the data that
code is generated with. -/
structure Program.ConstantsFit (p : Program) (m : IR.Module) : Prop where
  instructions : ∀ fn ∈ m.functions, fn.Throughout fun instr =>
    ∀ value ∈ instr.values, value.Fits
  globals : ∀ g ∈ m.globals, ∀ value ∈ g.init, value.Fits
  data : ∀ g ∈ m.globals, g.slot.ty.isInteger = true → ∀ value ∈ g.init,
    ∃ decl ∈ p.globals, decl.name = g.slot.name ∧ ∃ e lit text n, decl.init = some e
      ∧ e.evaluate = .ok lit ∧ value = .constant g.slot.ty text ∧ Integer.ofText? text = some n
      ∧ Codegen.immediate lit decl.ty = .ok n
      ∧ ∀ noRedZone asm, p.generate noRedZone = .ok asm →
        ∃ width, .integer decl.name width n ∈ asm.data

/-- The constants of a lowered program fit, if the literals of the program
do. -/
theorem lower_constantsFit {source : String} {report report' : Report} {p : Program}
    (hfront : frontend source report = (.ok p, report')) (hlits : p.LiteralsFit)
    {m : IR.Module} (h : p.lower = .ok m) : p.ConstantsFit m := by
  obtain ⟨lowered, hlowered, h⟩ := except_bind_ok.1 h
  obtain ⟨fns, hfns, h⟩ := except_bind_ok.1 h
  cases h
  have hwf := frontend_wellFormed hfront
  have hinit : ∀ decl ∈ p.globals, ∀ {e lit}, decl.init = some e → e.isConstant = true →
      e.evaluate = .ok lit → lit.InBounds := fun decl hdecl e lit he hconst heval =>
    Expr.evaluate_inBounds hconst (hlits.globals decl hdecl e he) heval
  refine ⟨?_, ?_, ?_⟩
  · intro fn hfn
    obtain ⟨decl, hdecl, hlower⟩ := Lowering.exists_of_mapM hfns hfn
    refine Lowering.wellFormed_keeps hwf hdecl hlowered ?_ False.elim hlower
      (Lowering.fits_discipline _)
    exact Stmt.EverywhereIn.and
      (fun _ _ hleaf _ e he lit hlit _ hvalue =>
        Lowering.literal_fits (hleaf e he lit hlit) hvalue)
      (hlits.functions decl hdecl) (hlits.functions decl hdecl)
  · intro g hg value hvalue
    obtain ⟨decl, hdecl, hglobal⟩ := Lowering.exists_of_mapM hlowered hg
    obtain ⟨e, lit, source, he, hconst, heval, hsource, hretype⟩ :=
      Lowering.global_init hglobal hvalue
    refine Lowering.retype_fits (Lowering.literal_fits (hinit decl hdecl he hconst heval) ?_)
      hretype
    unfold Lowering.literal
    rw [hsource]
  · intro g hg hty value hvalue
    obtain ⟨decl, hdecl, hglobal⟩ := Lowering.exists_of_mapM hlowered hg
    obtain ⟨e, lit, source, he, hconst, heval, hsource, hretype⟩ :=
      Lowering.global_init hglobal hvalue
    obtain ⟨hname, -, hrepr⟩ := Lowering.global_slot hglobal
    have hwhole : decl.ty.isInteger = true := Lowering.isInteger_of_ofSource? hrepr hty
    obtain ⟨text, n, htext, hn, -, himmediate⟩ := Lowering.retype_immediate hsource hrepr hwhole
      (fun _ => hinit decl hdecl he hconst heval) hretype
    refine ⟨decl, hdecl, hname.symm, e, lit, text, n, he, heval, htext, hn, himmediate, ?_⟩
    intro noRedZone asm hasm
    exact Codegen.generate_integer hasm hdecl hwhole he hconst heval himmediate

/-- An accepted text and what it is lowered to. -/
def loweredModule (source : String) : Option (Program × IR.Module) := do
  let p ← (frontend source (.empty false)).1.toOption
  let m ← p.lower.toOption
  return (p, m)

/-- A text that is lowered was accepted. -/
theorem loweredModule_some {source : String} {p : Program} {m : IR.Module}
    (h : loweredModule source = some (p, m)) :
    (∃ report', frontend source (.empty false) = (.ok p, report')) ∧ p.lower = .ok m := by
  unfold loweredModule at h
  obtain ⟨p', hp, h⟩ := Option.bind_eq_some_iff.1 h
  obtain ⟨m', hm, h⟩ := Option.bind_eq_some_iff.1 h
  cases h
  exact ⟨frontend_of_toOption hp, toOption_some.1 hm⟩

/-- Globals and statements whose constants are folded past an int, cut off,
negated and wrapped. -/
def wrappedConstants : String :=
  "char c = 300; bool b = 0.5; long l = 2147483647 + 1; short s;
   int main() { c = 200; s = 70000 - 1.5; l += 99999 * 99999; return -c; }"

/-- What is folded, negated or converted fits, in a program that has all of it. -/
theorem wrappedConstants_fit :
    ∃ p report' m, frontend wrappedConstants (.empty false) = (.ok p, report')
      ∧ p.LiteralsFit ∧ p.lower = .ok m ∧ p.ConstantsFit m := by
  have h : (loweredModule wrappedConstants).any (fun q => decide q.1.LiteralsFit) = true := by
    set_option maxRecDepth 2000 in
    rw [loweredModule, frontend, tokenize_written (rfl : wrappedConstants = String.ofList _)]
    decide +kernel
  obtain ⟨⟨p, m⟩, hlowered, hfit⟩ := (Option.any_eq_true _ _).1 h
  obtain ⟨⟨report', hfront⟩, hm⟩ := loweredModule_some hlowered
  have hfit := of_decide_eq_true hfit
  exact ⟨p, report', m, hfront, hfit, hm, lower_constantsFit hfront hfit hm⟩

/-- A literal past an int, as which it is stored. -/
def wideLiteral : String := "int g = 3000000000; int main() { return 0; }"

/-- A literal past an int does not fit where it is stored as it is. -/
theorem wideLiteral_unfit :
    ∃ p report' m, frontend wideLiteral (.empty false) = (.ok p, report')
      ∧ p.lower = .ok m ∧ ¬ p.ConstantsFit m := by
  have h : (loweredModule wideLiteral).any (fun q =>
      decide (∃ g ∈ q.2.globals, ∃ value ∈ g.init, ¬ value.Fits)) = true := by decide +kernel
  obtain ⟨⟨p, m⟩, hlowered, hunfit⟩ := (Option.any_eq_true _ _).1 h
  obtain ⟨⟨report', hfront⟩, hm⟩ := loweredModule_some hlowered
  obtain ⟨g, hg, value, hvalue, hnot⟩ := of_decide_eq_true hunfit
  exact ⟨p, report', m, hfront, hm, fun hfit => hnot (hfit.globals g hg value hvalue)⟩

end MiniC
