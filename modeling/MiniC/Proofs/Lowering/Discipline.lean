/-
What is asked of every instruction, kept up by lowering.

# Disciplines

A `Discipline` says what is asked of instructions and of values, and gives the
reasons for which lowering may add an instruction: operands were converted to
one type before they meet, what is stored has the type of its slot, and so on.
From these reasons alone it follows what each primitive of lowering keeps to
(`KeepsTo`), from which whole functions are put together elsewhere. So a
question about all instructions of lowered code is answered by giving the
reasons once, and no proof goes through lowering for it again.

# Types of values

Along with it goes the type of each value. A value is of the type its
expression has in the source (`StandsFor`), with one exception: where a
floating constant meets a whole number, the operation is one on whole
numbers. With operands that are alike there is no exception.

# Strictness

A discipline may be strict about the types that are compared and converted:
then only whole numbers change their width, and strings have to be kept
(`Convertible`).
Consumed by the induction over expressions and statements.
-/
import MiniC.Proofs.IR.Typing
import MiniC.Proofs.Lowering.Failures
import MiniC.Proofs.Source.Types

namespace MiniC.Lowering

open IR Steps

-- ================================================================= types

/-- A type has storage if it has a representation that is not void. -/
theorem slotType_ok {ty : MiniC.Ty} {repr : IR.Ty} :
    slotType ty = .ok repr ↔ IR.Ty.ofSource? ty = some repr ∧ repr ≠ .void := by
  constructor
  · intro h
    cases ty <;> cases h <;> exact ⟨rfl, nofun⟩
  · rintro ⟨h, hvoid⟩
    cases ty <;> cases h <;> first | rfl | exact absurd rfl hvoid

/-- Whether a type is one in which whole numbers meet. -/
def Word (ty : IR.Ty) : Prop := ty = .i32 ∨ ty = .i64

/-- A word is a whole number. -/
theorem Word.isInteger {ty : IR.Ty} (h : Word ty) : ty.isInteger = true := by
  rcases h with rfl | rfl <;> rfl

theorem Word.ne_ptr {ty : IR.Ty} (h : Word ty) : ty ≠ .ptr := by
  rcases h with rfl | rfl <;> exact nofun

theorem Word.ne_void {ty : IR.Ty} (h : Word ty) : ty ≠ .void := by
  rcases h with rfl | rfl <;> exact nofun

/-- Operands that are no addresses and not floating meet as whole
numbers. -/
theorem arithType_word {l r : IR.Ty} (hl : l ≠ .void) (hr : r ≠ .void)
    (hfloat : (arithType l r).isFloating = false) (hptr : arithType l r ≠ .ptr) :
    Word (arithType l r) := by
  unfold Word
  cases l <;> cases r <;> revert hl hr hfloat hptr <;> decide

/-- A floating type is met only if an operand has one. -/
theorem promote_isFloating (a b : MiniC.Ty) :
    (Ty.promote a b).isFloating = (a.isFloating || b.isFloating) := by
  cases a <;> cases b <;> rfl

/-- Whether a value of the given type is what an expression of a source type
is lowered to. Unless types are to be exact, an operation on a floating
constant may be one on whole numbers. -/
def StandsFor (exact : Prop) (ty : MiniC.Ty) (repr : IR.Ty) : Prop :=
  slotType ty = .ok repr ∨ (¬ exact ∧ ty.isFloating = true ∧ Word repr)

section StandsFor

variable {exact : Prop} {ty left right : MiniC.Ty} {repr l r : IR.Ty}

/-- No value stands for nothing. -/
theorem StandsFor.ne_void (h : StandsFor exact ty repr) : repr ≠ .void := by
  rcases h with h | ⟨-, -, h⟩
  · exact (slotType_ok.1 h).2
  · exact h.ne_void

/-- Strings are addresses, and nothing else is. -/
theorem StandsFor.ptr_iff (h : StandsFor exact ty repr) : repr = .ptr ↔ ty = .string := by
  rcases h with h | ⟨-, hfloat, h⟩
  · cases ty <;> cases h <;> simp
  · refine iff_of_false h.ne_ptr ?_
    rintro rfl
    cases hfloat

/-- What stands for a whole number is one. -/
theorem StandsFor.isInteger (h : StandsFor exact ty repr) (hty : ty.isInteger = true) :
    repr.isInteger = true := by
  rcases h with h | ⟨-, -, h⟩
  · cases ty <;> first | (cases h; rfl) | cases hty
  · exact h.isInteger

/-- In the type in which operands meet their representations meet. -/
theorem StandsFor.promote (hl : StandsFor exact left l) (hr : StandsFor exact right r)
    (hword : Word (arithType l r))
    (halike : exact → left ≠ .string ∧ right ≠ .string ∧ left.isFloating = right.isFloating) :
    StandsFor exact (Ty.promote left right) (arithType l r) := by
  by_cases hpromote : (Ty.promote left right).isFloating = true
  · refine Or.inr ⟨fun hexact => ?_, hpromote, hword⟩
    have hleft : slotType left = .ok l := hl.resolve_right fun h => h.1 hexact
    have hright : slotType right = .ok r := hr.resolve_right fun h => h.1 hexact
    have hsame := (halike hexact).2.2
    rw [promote_isFloating, ← hsame, Bool.or_self] at hpromote
    rw [hpromote] at hsame
    have hwhole := hword.isInteger
    cases left <;> cases hpromote <;> cases right <;> cases hsame <;> cases hleft <;>
      cases hright <;> cases hwhole
  · rw [promote_isFloating, Bool.or_eq_true, not_or] at hpromote
    have hleft : slotType left = .ok l := hl.resolve_right fun h => hpromote.1 h.2.1
    have hright : slotType right = .ok r := hr.resolve_right fun h => hpromote.2 h.2.1
    have hptr := hword.ne_ptr
    refine Or.inl ?_
    cases left <;> cases hleft <;> cases right <;> cases hright <;>
      first
      | rfl
      | exact absurd rfl hptr
      | exact absurd rfl hpromote.1
      | exact absurd rfl hpromote.2

/-- A value and a zero of its type meet as a value with a sign does. -/
theorem StandsFor.signed (h : StandsFor exact ty repr) (hword : Word (arithType repr repr)) :
    StandsFor exact (Ty.promote ty .int) (arithType repr repr) := by
  rcases h with h | ⟨hexact, hfloat, -⟩
  · have hptr := hword.ne_ptr
    refine Or.inl ?_
    cases ty <;> cases h <;> first | rfl | exact absurd rfl hptr
  · refine Or.inr ⟨hexact, ?_, hword⟩
    rw [promote_isFloating, hfloat]
    rfl

end StandsFor

-- ============================================================ disciplines

/-- Whether a value is a constant. -/
def isConstant : Value → Bool
  | .constant _ _ => true
  | _ => false

/-- The change of width that leads from one type to another. -/
def castOp (source target : IR.Ty) : IR.Cast :=
  if target.bits < source.bits then .trunc else if source = .i1 then .zext else .sext

/-- What is asked of the instructions and the values of a function, and that
it holds for the reasons that lowering has. If the discipline is strict,
only whole numbers may be compared and change their width. -/
structure Discipline (G : Instr → Prop) (V : Value → Prop) (returnType : IR.Ty) (strict : Prop) :
    Prop where
  temp : ∀ ty index, V (.temp ty index)
  argument : ∀ ty name, V (.argument ty name)
  zero : ∀ ty, V (.constant ty "0")
  one : ∀ ty, V (.constant ty "1")
  real : ∀ {ty}, ty.isFloating = true → V (.constant ty "0.0")
  folded : ∀ {op a b pos lit value}, NumberLiteral.fold op a b pos = .ok lit →
    literal lit = .ok value → V value
  retype : ∀ {text source target value}, V (.constant source text) →
    retype text source target = .ok value → V value
  alloca : ∀ slot, G (.alloca slot)
  load : ∀ index slot, G (.define index (.load slot))
  arith : ∀ index op {ty lhs rhs}, lhs.ty = ty → rhs.ty = ty → ty.isInteger = true →
    V lhs → V rhs → G (.define index (.arith op ty lhs rhs))
  compare : ∀ index op {lhs rhs}, lhs.ty = rhs.ty → (strict → lhs.ty.isInteger = true) →
    V lhs → V rhs → G (.define index (.compare op lhs rhs))
  cast : ∀ index {value target}, value.ty ≠ target → target ≠ .i1 →
    (strict → value.ty.isInteger = true ∧ target.isInteger = true) →
    V value → G (.define index (.cast (castOp value.ty target) value target))
  store : ∀ {value slot}, value.ty = slot.ty → V value → G (.store value slot)
  jump : ∀ label, G (.jump label)
  branch : ∀ {value} onTrue onFalse, value.ty = .i1 → V value → G (.branch value onTrue onFalse)
  retNone : returnType = .void → G (.ret none)
  retSome : ∀ {value}, value.ty = returnType → returnType ≠ .void → V value → G (.ret (some value))

/-- Whether the scopes of a function under construction bind the names in
sight, each to a slot of its type. -/
def Shows (sight : Sight) (s : State) : Prop :=
  (s.scopes.map fun scope => scope.map fun b => (b.1, some b.2.ty))
    = sight.map fun scope => scope.map fun b => (b.1, (slotType b.2).toOption)

/-- Whether globals have slots of their types. -/
def GlobalsShown (types : List (String × MiniC.Ty)) (globals : List (String × Slot)) : Prop :=
  ∀ name slot, globals.lookup name = some slot →
    ∃ ty, types.lookup name = some ty ∧ slotType ty = .ok slot.ty

/-- Whether a function under construction keeps to a discipline, with the
given names in sight. -/
structure Built (G : Instr → Prop) (returnType : IR.Ty) (sight : Sight) (s : State) : Prop where
  code : s.builder.function.Throughout G
  returnType : s.builder.function.returnType = returnType
  shows : Shows sight s

/-- A step that keeps to a discipline and leaves the names as they are. -/
abbrev KeepsTo {α : Type} (G : Instr → Prop) (returnType : IR.Ty) (sight : Sight) (A : α → Prop)
    (step : Lower α) : Prop :=
  Yields (Built G returnType sight) A (Built G returnType sight) step

section Steps

variable {G : Instr → Prop} {V : Value → Prop} {returnType : IR.Ty} {strict : Prop}
  {sight : Sight}

/-- An instruction that may be added keeps to the discipline. -/
theorem emit_keeps {instr : Instr} (h : G instr) :
    KeepsTo G returnType sight (fun _ => True) (emit instr) := by
  refine Yields.modifyGet fun s hs => ⟨trivial, throughout_emit hs.code h, ?_, hs.shows⟩
  exact (returnType_emit _ _).trans hs.returnType

theorem unique_keeps (base : String) :
    KeepsTo G returnType sight (fun _ => True) (unique base) :=
  Yields.modifyGet fun _ hs => ⟨trivial, hs.code, hs.returnType, hs.shows⟩

theorem append_keeps (label : String) :
    KeepsTo G returnType sight (fun _ => True) (append label) :=
  Yields.modifyGet fun _ hs =>
    ⟨trivial, throughout_append hs.code label, hs.returnType, hs.shows⟩

/-- A jump that may be added keeps to the discipline. -/
theorem jumpTo_keeps {label : String} (h : G (.jump label)) :
    KeepsTo G returnType sight (fun _ => True) (jumpTo label) := by
  refine Yields.modifyGet fun s hs => ⟨trivial, throughout_jumpTo hs.code h, ?_, hs.shows⟩
  exact (returnType_jumpTo _ _).trans hs.returnType

/-- A definition that may be added gives a temporary of its type. -/
theorem define_keeps {definition : Definition} (h : ∀ index, G (.define index definition)) :
    KeepsTo G returnType sight (fun value => ∃ index, value = .temp definition.ty index)
      (define definition) := by
  have hfresh : KeepsTo G returnType sight (fun _ => True) (build Builder.freshTemp) :=
    Yields.modifyGet fun _ hs => ⟨trivial, hs.code, hs.returnType, hs.shows⟩
  exact hfresh.bind fun index _ => (emit_keeps (h index)).bind fun _ _ => Yields.pure ⟨index, rfl⟩

variable (hd : Discipline G V returnType strict)

include hd

/-- A slot is reserved with the type that was asked for. -/
theorem alloca_keeps (base : String) (ty : IR.Ty) :
    KeepsTo G returnType sight (fun slot => slot.ty = ty) (alloca base ty) :=
  (unique_keeps base).bind fun _ _ => (emit_keeps (hd.alloca _)).bind fun _ _ => Yields.pure rfl

/-- A slot is loaded with its type. -/
theorem load_keeps (slot : Slot) :
    KeepsTo G returnType sight (fun value => V value ∧ value.ty = slot.ty) (load slot) := by
  refine (define_keeps fun index => hd.load index slot).weaken ?_
  rintro _ ⟨index, rfl⟩
  exact ⟨hd.temp _ _, rfl⟩

/-- Whether a strict discipline lets a value become one of another type: it
is a constant or has the type already, or both are types of numbers. -/
def Convertible (value : Value) (target : IR.Ty) : Prop :=
  isConstant value = true ∨ value.ty = target
    ∨ ((value.ty ≠ .ptr ∧ value.ty ≠ .void) ∧ (target ≠ .ptr ∧ target ≠ .void))

omit hd in
theorem isInteger_of_ne {ty : IR.Ty} (hfloat : ty.isFloating = false) (hptr : ty ≠ .ptr)
    (hvoid : ty ≠ .void) : ty.isInteger = true := by
  cases ty <;> simp_all [IR.Ty.isInteger, IR.Ty.isFloating]

omit hd in
/-- A constant made over has the type it was made over to. -/
theorem retype_ty {text : String} {source target : IR.Ty} {value : Value}
    (h : retype text source target = .ok value) : value.ty = target := by
  unfold retype at h
  dsimp only at h
  split at h
  · cases h
    rfl
  · split at h <;> split at h <;> cases h <;> rfl

/-- A value is recast to the type that was asked for, by an instruction that may be
added. -/
theorem recast_keeps {value : Value} {target : IR.Ty} (hv : V value) (hne : value.ty ≠ target)
    (hnumbers : strict →
      (value.ty ≠ .ptr ∧ value.ty ≠ .void) ∧ (target ≠ .ptr ∧ target ≠ .void)) :
    KeepsTo G returnType sight (fun result => V result ∧ result.ty = target)
      (recast value target) := by
  unfold recast
  refine Yields.ite (fun _ => Yields.throw _) fun hfloat => ?_
  rw [Bool.or_eq_true, not_or, Bool.not_eq_true, Bool.not_eq_true] at hfloat
  have hwhole : strict → value.ty.isInteger = true := fun h =>
    isInteger_of_ne hfloat.1 (hnumbers h).1.1 (hnumbers h).1.2
  refine Yields.ite (fun htruth => ?_) fun hwide => ?_
  · refine (define_keeps fun index => ?_).weaken ?_
    · exact hd.compare index .ne rfl hwhole hv (hd.zero _)
    · rintro _ ⟨index, rfl⟩
      exact ⟨hd.temp _ _, htruth.symm⟩
  · refine (define_keeps fun index => ?_).weaken ?_
    · refine hd.cast index hne hwide (fun h => ⟨hwhole h, ?_⟩) hv
      exact isInteger_of_ne hfloat.2 (hnumbers h).2.1 (hnumbers h).2.2
    · rintro _ ⟨index, rfl⟩
      exact ⟨hd.temp _ _, rfl⟩

theorem convert_keeps {value : Value} {target : IR.Ty} (hv : V value)
    (hconvert : strict → Convertible value target) :
    KeepsTo G returnType sight (fun result => V result ∧ result.ty = target)
      (convert value target) := by
  rw [convert_eq]
  refine Yields.ite (fun hsame => Yields.pure ⟨hv, hsame⟩) fun hne => ?_
  have hnumbers : isConstant value = false → strict →
      (value.ty ≠ .ptr ∧ value.ty ≠ .void) ∧ (target ≠ .ptr ∧ target ≠ .void) := by
    intro hconst h
    have hleft := (hconvert h).resolve_left fun htrue => by rw [hconst] at htrue; cases htrue
    exact hleft.resolve_left hne
  cases value with
  | constant source text =>
      exact Yields.lift fun result hresult => ⟨hd.retype hv hresult, retype_ty hresult⟩
  | temp source index => exact recast_keeps hd hv hne (hnumbers rfl)
  | argument source name => exact recast_keeps hd hv hne (hnumbers rfl)

theorem store_keeps {value : Value} {slot : Slot} (hv : V value)
    (hconvert : strict → Convertible value slot.ty) :
    KeepsTo G returnType sight (fun result => V result ∧ result.ty = slot.ty)
      (store value slot) := by
  refine (convert_keeps hd hv hconvert).bind fun result hresult => ?_
  exact (emit_keeps (hd.store hresult.2 hresult.1)).bind fun _ _ => Yields.pure hresult

/-- Operands meet in one type, which is int or long. -/
theorem meet_keeps {lhs rhs : Value} (hl : V lhs) (hr : V rhs) (hlvoid : lhs.ty ≠ .void)
    (hrvoid : rhs.ty ≠ .void) (hstrict : strict → lhs.ty ≠ .ptr ∧ rhs.ty ≠ .ptr) :
    KeepsTo G returnType sight
      (fun r => (r.1 = arithType lhs.ty rhs.ty ∧ Word r.1)
        ∧ (V r.2.1 ∧ r.2.1.ty = r.1) ∧ (V r.2.2 ∧ r.2.2.ty = r.1))
      (meet lhs rhs) := by
  unfold meet
  refine Yields.ite (fun _ => Yields.throw _) fun hfloat => ?_
  refine Yields.ite (fun _ => Yields.throw _) fun hptr => ?_
  have hword := arithType_word hlvoid hrvoid (Bool.not_eq_true _ ▸ hfloat) hptr
  refine (convert_keeps hd hl fun h => ?_).bind fun l hl' => ?_
  · exact Or.inr (Or.inr ⟨⟨(hstrict h).1, hlvoid⟩, hptr, hword.ne_void⟩)
  refine (convert_keeps hd hr fun h => ?_).bind fun r hr' => ?_
  · exact Or.inr (Or.inr ⟨⟨(hstrict h).2, hrvoid⟩, hptr, hword.ne_void⟩)
  exact Yields.pure ⟨⟨rfl, hword⟩, hl', hr'⟩

theorem arith_keeps (op : Arith) {lhs rhs : Value} (hl : V lhs) (hr : V rhs)
    (hlvoid : lhs.ty ≠ .void) (hrvoid : rhs.ty ≠ .void)
    (hstrict : strict → lhs.ty ≠ .ptr ∧ rhs.ty ≠ .ptr) :
    KeepsTo G returnType sight
      (fun value => V value ∧ value.ty = arithType lhs.ty rhs.ty ∧ Word value.ty)
      (arith op lhs rhs) := by
  refine (meet_keeps hd hl hr hlvoid hrvoid hstrict).bind fun r hmeet => ?_
  obtain ⟨⟨hty, hword⟩, ⟨hl', hlty⟩, hr', hrty⟩ := hmeet
  refine (define_keeps fun index => hd.arith index op hlty hrty hword.isInteger hl' hr').weaken ?_
  rintro _ ⟨index, rfl⟩
  exact ⟨hd.temp _ _, hty, hword⟩

theorem compare_keeps (op : Comparison) {lhs rhs : Value} (hl : V lhs) (hr : V rhs)
    (hlvoid : lhs.ty ≠ .void) (hrvoid : rhs.ty ≠ .void)
    (hstrict : strict → lhs.ty ≠ .ptr ∧ rhs.ty ≠ .ptr) :
    KeepsTo G returnType sight (fun value => V value ∧ value.ty = .i1) (compare op lhs rhs) := by
  refine (meet_keeps hd hl hr hlvoid hrvoid hstrict).bind fun r hmeet => ?_
  obtain ⟨⟨-, hword⟩, ⟨hl', hlty⟩, hr', hrty⟩ := hmeet
  have hwhole : r.2.1.ty.isInteger = true := by
    rw [hlty]
    exact hword.isInteger
  refine (define_keeps fun index =>
    hd.compare index op (hlty.trans hrty.symm) (fun _ => hwhole) hl' hr').weaken ?_
  rintro _ ⟨index, rfl⟩
  exact ⟨hd.temp _ _, rfl⟩

omit hd in
/-- Nothing is added to an address. -/
theorem arith_ptr {op : Arith} {lhs rhs result : Value} {s t : State} (hptr : lhs.ty = .ptr)
    (h : arith op lhs rhs s = .ok (result, t)) : False := by
  obtain ⟨_, _, hmeet, -⟩ := bind_ok.1 h
  have hty : arithType lhs.ty rhs.ty = .ptr := by
    rw [hptr]
    cases rhs.ty <;> rfl
  unfold meet at hmeet
  rw [hty] at hmeet
  exact fail_ok.1 hmeet

/-- What is computed from a variable can be stored in it again. -/
theorem update_keeps (op : Arith) {slot : Slot} {old operand : Value} (hold : V old)
    (holdty : old.ty = slot.ty) (hoperand : V operand) (hslot : slot.ty ≠ .void)
    (hvoid : operand.ty ≠ .void) (hstrict : strict → old.ty ≠ .ptr → operand.ty ≠ .ptr) :
    KeepsTo G returnType sight (fun value => V value ∧ value.ty = slot.ty) (do
      let result ← arith op old operand
      store result slot) := by
  by_cases hptr : slot.ty = .ptr
  · intro s value t _ h
    obtain ⟨_, _, harith, -⟩ := bind_ok.1 h
    exact (arith_ptr (holdty.trans hptr) harith).elim
  · rw [← holdty] at hslot hptr
    refine (arith_keeps hd op hold hoperand hslot hvoid fun h => ⟨hptr, hstrict h hptr⟩).bind
      fun result hresult => store_keeps hd hresult.1 fun _ => Or.inr (Or.inr ?_)
    rw [holdty] at hslot hptr
    exact ⟨⟨hresult.2.2.ne_ptr, hresult.2.2.ne_void⟩, hptr, hslot⟩

/-- A step keeps to the type of its slot. -/
theorem step_keeps (op : Arith) (fixity : Fixity) {slot : Slot} (hslot : slot.ty ≠ .void) :
    KeepsTo G returnType sight (fun value => V value ∧ value.ty = slot.ty)
      (step op fixity slot) := by
  refine (load_keeps hd slot).bind fun old hold => ?_
  have hone : (Value.constant old.ty "1").ty ≠ .void := by
    rw [← hold.2] at hslot
    exact hslot
  rw [← bind_assoc]
  refine (update_keeps hd op hold.1 hold.2 (hd.one old.ty) hslot hone fun _ h => h).bind
    fun stored hstored => ?_
  cases fixity with
  | before => exact Yields.pure hstored
  | after => exact Yields.pure hold

end Steps

end MiniC.Lowering
