/-
Where filling makes no difference. From char to short one back end fills with
zeros and the other with the sign, and `convert` is told which of them it
follows.

# Expressions

An expression that brings no char to a short has the same value either way
(`eval_fill`); constants may go anywhere, since a char that is written down is not
negative. Operands never meet in a short, so arithmetic and comparisons do not depend
on filling at all (`convert_promote_fill`): the only conversions that do are those of
an assignment, an initial value and a return. The type that a value has when it is
converted is the type of its expression, which is why the names in sight and their
types go through the induction with the store.

# Functions

What is asked of a function is asked of its leaves, as ever (`Leaf.Unfilled`). A run of
statements is `Unmoved` if it does the same either way and leaves the names in sight
that it should. Only runs that succeed are compared. Consumed by the comparison of the
two back ends.
-/
import MiniC.Proofs.Source.Scopes
import MiniC.Proofs.Source.Traces
import MiniC.Proofs.Source.Types

namespace MiniC

-- ================================================================ demands

section Demands

variable (globals : List (String × Ty)) (sight : Sight)

/-- Whether a value goes where one of the given type is kept without being
filled up: it is a constant, or not a char that becomes a short. -/
def Expr.GoesTo (ty : Option Ty) (e : Expr) : Prop :=
  e.isConstant = true ∨ ¬ (ty = some .short ∧ e.type? globals sight = some .char)

/-- Whether no assignment in an expression fills a value up. -/
def Expr.Unfilled : Expr → Prop
  | .binary op lhs rhs constant _ _ =>
    constant = true ∨ (lhs.Unfilled ∧ rhs.Unfilled
      ∧ (op = .assign → Expr.GoesTo globals sight (lhs.type? globals sight) rhs))
  | .unary _ _ operand _ => operand.Unfilled
  | _ => True

instance (ty : Option Ty) (e : Expr) : Decidable (e.GoesTo globals sight ty) :=
  inferInstanceAs (Decidable (_ ∨ _))

instance decideUnfilled : ∀ e : Expr, Decidable (e.Unfilled globals sight)
  | .binary _ lhs rhs _ _ _ =>
    @instDecidableOr _ _ inferInstance
      (@instDecidableAnd _ _ (decideUnfilled lhs)
        (@instDecidableAnd _ _ (decideUnfilled rhs) inferInstance))
  | .unary _ _ operand _ => decideUnfilled operand
  | .number _ | .string _ | .ident _ | .member _ _ _ _ => .isTrue trivial

/-- Whether a leaf of a function with the given return type fills no value
up: where it assigns, initializes or returns, no char becomes a short. -/
def Leaf.Unfilled (returnType : Ty) (leaf : Leaf) : Prop :=
  (∀ e ∈ leaf.exprs, e.Unfilled globals sight)
    ∧ match leaf with
      | .result (some e) => e.GoesTo globals sight (some returnType)
      | .variable decl => ∀ e ∈ decl.init, e.GoesTo globals sight (some decl.ty)
      | _ => True

instance (returnType : Ty) (leaf : Leaf) : Decidable (leaf.Unfilled globals sight returnType) :=
  @instDecidableAnd _ _ inferInstance <|
    match leaf with
    | .result (some e) => inferInstanceAs (Decidable (e.GoesTo globals sight (some returnType)))
    | .result none => .isTrue trivial
    | .variable decl =>
      inferInstanceAs (Decidable (∀ e ∈ decl.init, e.GoesTo globals sight (some decl.ty)))
    | .condition _ => .isTrue trivial
    | .effect _ => .isTrue trivial
    | .nested => .isTrue trivial

end Demands

namespace Source

open Steps

-- ============================================================ conversions

/-- Filling makes a difference from char to short alone. -/
theorem convert_fill {source target : Ty} (h : ¬ (target = .short ∧ source = .char)) (n : Int) :
    convert true source target n = convert false source target n := by
  cases target with
  | short =>
      have hchar : source ≠ .char := fun heq => h ⟨rfl, heq⟩
      show (if true && decide (source = .char) then n % 256 else Integer.wrap 2 n) = _
      rw [decide_eq_false hchar]
      rfl
  | _ => rfl

/-- A char that is written down is not negative. -/
theorem Writable.convert_fill {source : Ty} {n : Int} (h : Writable source n) (target : Ty) :
    convert true source target n = convert false source target n := by
  by_cases hfill : target = .short ∧ source = .char
  · obtain ⟨rfl, rfl⟩ := hfill
    obtain ⟨hlow, hhigh⟩ : 0 ≤ n ∧ n < 128 := h
    show n % 256 = Integer.wrap 2 n
    rw [wrap_two]
    split <;> omega
  · exact Source.convert_fill hfill n

/-- Operands do not meet in a short. -/
theorem promote_ne_short (a b : Ty) : Ty.promote a b ≠ .short := by
  unfold Ty.promote
  repeat' split
  all_goals exact nofun

/-- What is converted for an operation is filled either way alike. -/
theorem convert_promote_fill (source a b : Ty) (n : Int) :
    convert true source (Ty.promote a b) n = convert false source (Ty.promote a b) n :=
  convert_fill (fun h => promote_ne_short a b h.1) n

/-- An operation does not depend on filling. -/
theorem operate_fill (op : Arith) (a b : Value) : operate true op a b = operate false op a b := by
  rw [operate_eq, operate_eq, convert_promote_fill, convert_promote_fill]

theorem compare_fill (op : Comparison) (a b : Value) :
    compare true op a b = compare false op a b := by
  unfold compare
  dsimp only
  rw [convert_promote_fill, convert_promote_fill]

theorem signed_fill (negative : Bool) (v : Value) :
    signed true negative v = signed false negative v := by
  unfold signed
  dsimp only
  rw [convert_promote_fill]

/-- What an operation gives may go anywhere. -/
theorem operate_converted {op : Arith} {a b x : Value} (h : operate false op a b = .ok x)
    (target : Ty) : convert true x.1 target x.2 = convert false x.1 target x.2 := by
  rw [operate_eq] at h
  obtain ⟨n, -, rfl⟩ := except_map_ok.1 h
  refine convert_fill (fun hfill => ?_) n
  have hchar : Ty.promote a.1 b.1 ≠ .char := by
    unfold Ty.promote
    repeat' split
    all_goals exact nofun
  exact hchar hfill.2

/-- An assignment that converts either way alike stores alike. -/
theorem assign_fill {σ : Type} {cells : Cells σ} {s s' : σ} {r : Ref} {v w : Value}
    (h : assign cells false r v s = .ok (w, s'))
    (hsame : convert true v.1 w.1 v.2 = convert false v.1 w.1 v.2) :
    assign cells true r v s = .ok (w, s') := by
  obtain ⟨old, hcell, hw, rfl⟩ := assign_ok h
  rw [assign_cell hcell, hsame, ← hw]

-- ============================================================ expressions

section Expressions

variable {types : List (String × Ty)} {sight : Sight} {store store' : Store} {e : Expr}
  {v : Value}

/-- What a name stands for in a store it stands for in the sight of it. -/
theorem cell_sight (h : sightOf store = sight) {r : Ref} {ty : Ty} {old : Option Int}
    (hr : ref? e = some r) (hcell : (cells types).cell store r = some (ty, old)) :
    e.type? types sight = some ty := by
  rcases ref?_some hr with ⟨i, rfl, rfl⟩ | ⟨object, field, pos, rfl, rfl⟩
  · have hcell : ((store.find? i.name).orElse fun _ => (types.lookup i.name).bind fun ty =>
        if ty.isInteger then some (ty, some (store.globals i.name)) else none)
          = some (ty, old) := hcell
    have hfind := find?_sightOf store i.name
    rw [h] at hfind
    show ((sight.find? i.name).orElse fun _ => types.lookup i.name) = some ty
    rw [hfind]
    cases hvariable : store.find? i.name with
    | some found =>
        rw [hvariable] at hcell
        cases hcell
        rfl
    | none =>
        rw [hvariable] at hcell
        obtain ⟨ty', hty', hcell⟩ := Option.bind_eq_some_iff.1 hcell
        split at hcell
        · cases hcell
          exact hty'
        · cases hcell
  · cases hcell

/-- Writing a value leaves the names in sight. -/
theorem sightOf_write (types : List (String × Ty)) (store : Store) (r : Ref) (n : Int) :
    sightOf ((cells types).write store r n) = sightOf store := by
  cases r with
  | named name => exact sightOf_set store name n
  | member object field => rfl

/-- What is known of an evaluation that fills nothing up. -/
structure Unfilling (types : List (String × Ty)) (sight : Sight) (e : Expr) (store : Store)
    (v : Value) (store' : Store) : Prop where
  fills : eval (cells types) true e store = .ok (v, store')
  type : e.type? types sight = some v.1
  sight : sightOf store' = sight
  constant : e.isConstant = true → Writable v.1 v.2

/-- A value that goes somewhere without being filled up. -/
theorem Unfilling.goes (h : Unfilling types sight e store v store') {ty : Ty}
    (hgoes : e.GoesTo types sight (some ty)) :
    convert true v.1 ty v.2 = convert false v.1 ty v.2 := by
  rcases hgoes with hconstant | hno
  · exact (h.constant hconstant).convert_fill ty
  · refine convert_fill (fun hfill => hno ⟨?_, ?_⟩) _
    · rw [hfill.1]
    · rw [h.type, hfill.2]

/-- A constant is the same either way. -/
theorem unfilling_constant (hsight : sightOf store = sight) (hconstant : e.isConstant = true)
    (hfits : FoldFits e)
    (h : eval (cells types) false e store = .ok (v, store')) :
    Unfilling types sight e store v store' := by
  rw [eval_constant hconstant] at h
  obtain ⟨hfolded, rfl⟩ := lift_ok.1 h
  have hevaluate : ∃ lit, e.evaluate = .ok lit := by
    unfold folded at hfolded
    split at hfolded
    · cases hfolded
    · rename_i lit hlit
      exact ⟨lit, hlit⟩
  obtain ⟨lit, hlit⟩ := hevaluate
  obtain ⟨n, -, hwritable, hvalue⟩ := folded_fits (hfits lit hlit) hlit
  rw [hvalue] at hfolded
  cases hfolded
  refine ⟨?_, ?_, hsight, fun _ => hwritable⟩
  · rw [eval_constant hconstant]
    exact lift_ok.2 ⟨hvalue, rfl⟩
  · cases e, hconstant using constant_cases with
    | number lit' =>
        cases hlit
        rfl
    | folded op lhs rhs operandsMatch pos =>
        show (Expr.evaluate _).toOption.map NumberLiteral.ty = _
        rw [hlit]
        rfl

/-- A reference is the same either way. -/
theorem unfilling_ref {r : Ref} (hsight : sightOf store = sight) (hr : ref? e = some r)
    (h : eval (cells types) false e store = .ok (v, store')) :
    Unfilling types sight e store v store' := by
  rw [eval_ref hr] at h
  obtain ⟨rfl, hcell⟩ := fetch_ok h
  refine ⟨?_, cell_sight hsight hr hcell, hsight, fun hconstant => ?_⟩
  · rw [eval_ref hr]
    exact h
  · cases e <;> first | cases hr; done | cases hconstant

/-- An assignment of a value that an evaluation has left. -/
theorem Unfilling.assign {lhs rhs : Expr} {r : Ref} {a x w : Value} {u : Store}
    (h : Unfilling types sight rhs store a u) (hr : ref? lhs = some r)
    (hassign : assign (cells types) false r x u = .ok (w, store'))
    (hsame : lhs.type? types sight = some w.1 →
      convert true x.1 w.1 x.2 = convert false x.1 w.1 x.2) :
    assign (cells types) true r x u = .ok (w, store') ∧ sightOf store' = sight
      ∧ lhs.type? types sight = some w.1 := by
  obtain ⟨old, hcell, -, hstore⟩ := assign_ok hassign
  have htype := cell_sight h.sight hr hcell
  refine ⟨assign_fill hassign (hsame htype), ?_, htype⟩
  rw [hstore, sightOf_write]
  exact h.sight

/-- An increment or decrement meets its operand in int. -/
theorem unfilling_step {op : Arith} {fixity : Fixity} {operand : Expr}
    (hsight : sightOf store = sight)
    (heval : ∀ fill, eval (cells types) fill e = eval (cells types) fill operand
      >>= fun old => stepped (cells types) fill op fixity operand old)
    (htype : e.type? types sight = operand.type? types sight) (hconstant : e.isConstant = false)
    (h : eval (cells types) false e store = .ok (v, store')) :
    Unfilling types sight e store v store' := by
  rw [heval] at h
  obtain ⟨r, old, u, x, new, hr, hold, hx, hassign, hv⟩ := stepped_ok.1 h
  have hread := unfilling_ref hsight hr hold
  obtain ⟨hdone, hsight', htarget⟩ := hread.assign hr hassign fun _ => operate_converted hx _
  refine ⟨?_, ?_, hsight', fun h => by rw [hconstant] at h; cases h⟩
  · rw [heval]
    exact stepped_ok.2 ⟨r, old, u, x, new, hr, hread.fills, (operate_fill op _ _).trans hx,
      hdone, hv⟩
  · rw [htype]
    split at hv
    · rw [← hv]
      exact htarget
    · rw [← hv]
      exact hread.type

/-- An expression that fills nothing up has its value and effects whether or
not it is told to fill. -/
theorem eval_fill (hwhole : e.Integral types sight) (hunfilled : e.Unfilled types sight)
    (hsight : sightOf store = sight) (h : eval (cells types) false e store = .ok (v, store')) :
    Unfilling types sight e store v store' := by
  induction e generalizing store store' v with
  | number lit => exact unfilling_constant hsight rfl (hwhole.folds rfl) h
  | string lit => exact hwhole.elim
  | ident i => exact unfilling_ref hsight rfl h
  | member object accessor field pos =>
      cases accessor with
      | dot => exact unfilling_ref hsight rfl h
      | arrow => cases h
      | scope => cases h
  | binary op lhs rhs constant operandsMatch pos ihl ihr =>
      cases constant with
      | true => exact unfilling_constant hsight rfl (hwhole.folds rfl) h
      | false =>
          obtain ⟨hleft, hright, hgoes⟩ := hunfilled.resolve_left Bool.false_ne_true
          have hopen {P : Prop} (hconstant : false = true) : P :=
            absurd hconstant Bool.false_ne_true
          cases op with
          | assign =>
              obtain ⟨r, a, u, hr, ha, hassign⟩ := eval_assign_ok.1 h
              have hvalue := ihr hwhole.2 hright hsight ha
              obtain ⟨hdone, hsight', htype⟩ := hvalue.assign hr hassign fun htype =>
                hvalue.goes (htype ▸ hgoes rfl)
              exact ⟨eval_assign_ok.2 ⟨r, a, u, hr, hvalue.fills, hdone⟩, htype, hsight', hopen⟩
          | compound op =>
              obtain ⟨r, a, u, b, u', x, hr, ha, hb, hx, hassign⟩ := eval_compound_ok.1 h
              have hread := ihl hwhole.1 hleft hsight ha
              have hvalue := ihr hwhole.2 hright hread.sight hb
              obtain ⟨hdone, hsight', htype⟩ := hvalue.assign hr hassign fun _ =>
                operate_converted hx _
              refine ⟨eval_compound_ok.2 ⟨r, a, u, b, u', x, hr, hread.fills, hvalue.fills, ?_,
                hdone⟩, htype, hsight', hopen⟩
              rw [operate_fill]
              exact hx
          | arith op =>
              obtain ⟨a, u, b, ha, hb, hx⟩ := eval_arith_ok.1 h
              have hfirst := ihl hwhole.1 hleft hsight ha
              have hsecond := ihr hwhole.2 hright hfirst.sight hb
              refine ⟨eval_arith_ok.2 ⟨a, u, b, hfirst.fills, hsecond.fills, ?_⟩, ?_,
                hsecond.sight, hopen⟩
              · rw [operate_fill]
                exact hx
              · rw [operate_eq] at hx
                obtain ⟨n, -, rfl⟩ := except_map_ok.1 hx
                show (do return Ty.promote (← lhs.type? types sight) (← rhs.type? types sight)) = _
                rw [hfirst.type, hsecond.type]
                rfl
          | compare op =>
              obtain ⟨a, u, b, ha, hb, rfl⟩ := eval_compare_ok.1 h
              have hfirst := ihl hwhole.1 hleft hsight ha
              have hsecond := ihr hwhole.2 hright hfirst.sight hb
              exact ⟨eval_compare_ok.2 ⟨a, u, b, hfirst.fills, hsecond.fills,
                compare_fill op a b⟩, rfl, hsecond.sight, hopen⟩
  | unary op fixity operand pos ih =>
      have hsigned : ∀ negative, (∀ fill, eval (cells types) fill (.unary op fixity operand pos)
            = signed fill negative <$> eval (cells types) fill operand) →
          Expr.type? types sight (.unary op fixity operand pos)
            = (do return Ty.promote (← operand.type? types sight) .int) →
          Unfilling types sight (.unary op fixity operand pos) store v store' := by
        intro negative heval htype
        rw [heval] at h
        obtain ⟨a, ha, rfl⟩ := map_ok.1 h
        have hvalue := ih hwhole hunfilled hsight ha
        refine ⟨?_, ?_, hvalue.sight,
          fun hconstant => absurd hconstant Bool.false_ne_true⟩
        · rw [heval]
          exact map_ok.2 ⟨a, hvalue.fills, (signed_fill negative a)⟩
        · rw [htype, hvalue.type]
          rfl
      cases op with
      | plus => exact hsigned false (fun _ => rfl) rfl
      | minus => exact hsigned true (fun _ => rfl) rfl
      | not =>
          have h : ((fun v : Value => truth (v.2 = 0)) <$> eval (cells types) false operand) store
            = .ok (v, store') := h
          obtain ⟨a, ha, rfl⟩ := map_ok.1 h
          have hvalue := ih hwhole hunfilled hsight ha
          exact ⟨map_ok.2 ⟨a, hvalue.fills, rfl⟩, rfl, hvalue.sight,
            fun hconstant => absurd hconstant Bool.false_ne_true⟩
      | incr => exact unfilling_step hsight (fun _ => rfl) rfl rfl h
      | decr => exact unfilling_step hsight (fun _ => rfl) rfl rfl h

end Expressions

-- ============================================================ statements

section Statements

variable {types : List (String × Ty)} {returnType : Ty} {rounds : Nat} {sight sight' : Sight}
  {store store' : Store}

/-- Whether runs from stores with some names in sight are the same whether or
not they are told to fill. Those that go on leave other names in sight. -/
def Unmoved (sight sight' : Sight) (run : Bool → Run Store Outcome) : Prop :=
  ∀ ⦃store outcome store'⦄, sightOf store = sight → run false store = .ok (outcome, store') →
    run true store = .ok (outcome, store') ∧ (outcome = .normal → sightOf store' = sight')

/-- Statements behind each other. -/
theorem Unmoved.andThen {between : Sight} {first next : Bool → Run Store Outcome}
    (hfirst : Unmoved sight between first) (hnext : Unmoved between sight' next) :
    Unmoved sight sight' fun fill =>
      first fill >>= fun outcome => onward outcome (next fill) := by
  intro store outcome store' hsight h
  obtain ⟨outcome₁, store₁, hrun, hrest⟩ := bind_ok.1 h
  obtain ⟨hrun', hbetween⟩ := hfirst hsight hrun
  cases outcome₁ with
  | returned value =>
      obtain ⟨rfl, rfl⟩ := pure_ok.1 hrest
      exact ⟨bind_ok.2 ⟨_, _, hrun', pure_ok.2 ⟨rfl, rfl⟩⟩, nofun⟩
  | normal =>
      obtain ⟨hrest', hsight'⟩ := hnext (hbetween rfl) hrest
      exact ⟨bind_ok.2 ⟨_, _, hrun', hrest'⟩, hsight'⟩

/-- What does the same either way does so in a scope. -/
theorem Unmoved.inScope {inner : Sight} {run : Bool → Run Store Outcome}
    (h : Unmoved ([] :: sight) inner run) (hinner : inner.drop 1 = sight) :
    Unmoved sight sight fun fill => Source.inScope (run fill) := by
  intro store outcome store' hsight hrun
  show Source.inScope (run true) store = .ok (outcome, store') ∧ _
  have hrun : Source.inScope (run false) store = .ok (outcome, store') := hrun
  rw [inScope_run] at hrun ⊢
  obtain ⟨⟨outcome₁, store₁⟩, hbody, hout⟩ := except_bind_ok.1 hrun
  cases hout
  have hopen : sightOf { store with scopes := [] :: store.scopes } = [] :: sight := by
    rw [← hsight]
    rfl
  obtain ⟨hbody', hclose⟩ := h hopen hbody
  refine ⟨except_bind_ok.2 ⟨_, hbody', rfl⟩, fun hnormal => ?_⟩
  have hstore₁ := hclose hnormal
  unfold sightOf at hstore₁ ⊢
  rw [List.map_drop, hstore₁, hinner]

section Leaves

variable {e : Expr} (hwhole : e.Integral types sight) (hunfilled : e.Unfilled types sight)
  (hsight : sightOf store = sight)

include hwhole hunfilled hsight

theorem test_fill {holds : Bool} (h : test false types e store = .ok (holds, store')) :
    test true types e store = .ok (holds, store') ∧ sightOf store' = sight := by
  obtain ⟨v, _, hv, hholds⟩ := bind_ok.1 h
  obtain ⟨rfl, rfl⟩ := pure_ok.1 hholds
  have hvalue := eval_fill hwhole hunfilled hsight hv
  exact ⟨bind_ok.2 ⟨v, _, hvalue.fills, rfl⟩, hvalue.sight⟩

/-- A value is converted to its target either way alike, where it may go there. -/
theorem evalAs_fill {ty : Ty} (hgoes : e.GoesTo types sight (some ty)) {n : Int}
    (h : evalAs false types ty e store = .ok (n, store')) :
    evalAs true types ty e store = .ok (n, store') ∧ sightOf store' = sight := by
  obtain ⟨v, u, hv, hn⟩ := bind_ok.1 h
  have hvalue := eval_fill hwhole hunfilled hsight hv
  split at hn
  · rename_i hty
    obtain ⟨rfl, rfl⟩ := pure_ok.1 hn
    rw [evalAs_whole hty]
    exact ⟨map_ok.2 ⟨v, hvalue.fills, hvalue.goes hgoes⟩, hvalue.sight⟩
  · exact (throw_ok.1 hn).elim

end Leaves

theorem iterate_unmoved {e : Expr} {body : Bool → Run Store Outcome}
    (hwhole : e.Integral types sight) (hunfilled : e.Unfilled types sight)
    (hbody : Unmoved sight sight body) (rounds : Nat) :
    Unmoved sight sight fun fill => iterate (test fill types e) (body fill) rounds := by
  induction rounds with
  | zero => exact fun _ _ _ _ h => (throw_ok.1 h).elim
  | succ rounds ih =>
      intro store outcome store' hsight h
      obtain ⟨holds, store₁, htest, hrest⟩ := bind_ok.1 h
      obtain ⟨htest', hsight₁⟩ := test_fill hwhole hunfilled hsight htest
      cases holds with
      | false =>
          obtain ⟨rfl, rfl⟩ := pure_ok.1 hrest
          exact ⟨bind_ok.2 ⟨false, _, htest', pure_ok.2 ⟨rfl, rfl⟩⟩, fun _ => hsight₁⟩
      | true =>
          obtain ⟨hrest', hsight'⟩ := hbody.andThen ih hsight₁ hrest
          exact ⟨bind_ok.2 ⟨true, _, htest', hrest'⟩, hsight'⟩

/-- A variable has the same initial value either way. -/
theorem declare_unmoved {decl : VariableDecl} (hwhole : Leaf.Integral types sight (.variable decl))
    (hunfilled : Leaf.Unfilled types sight returnType (.variable decl)) :
    Unmoved sight (sight.bind decl.name decl.ty) fun fill => do
      declare fill types decl
      return .normal := by
  intro store outcome store' hsight h
  have hty := hwhole.2 decl rfl
  obtain ⟨_, store₁, hdeclare, hout⟩ := bind_ok.1 h
  obtain ⟨rfl, rfl⟩ := pure_ok.1 hout
  rw [declare_run false types hty] at hdeclare
  suffices hboth : declare true types decl store = .ok ((), store₁)
      ∧ sightOf store₁ = sight.bind decl.name decl.ty from
    ⟨bind_ok.2 ⟨(), _, hboth.1, rfl⟩, fun _ => hboth.2⟩
  rw [declare_run true types hty]
  cases hinit : decl.init with
  | none =>
      rw [hinit] at hdeclare
      obtain rfl := modify_ok.1 hdeclare
      exact ⟨hdeclare, by rw [sightOf_bind, hsight]⟩
  | some e =>
      rw [hinit] at hdeclare
      obtain ⟨v, u, hv, hbind⟩ := bind_ok.1 hdeclare
      obtain rfl := modify_ok.1 hbind
      have hmem : e ∈ (Leaf.variable decl).exprs := by
        show e ∈ decl.init.toList
        rw [hinit]
        exact List.mem_cons_self
      have hvalue := eval_fill (hwhole.1 e hmem) (hunfilled.1 e hmem) hsight hv
      refine ⟨bind_ok.2 ⟨v, u, hvalue.fills, ?_⟩, ?_⟩
      · rw [hvalue.goes (hunfilled.2 e hinit)]
        exact hbind
      · rw [sightOf_bind, hvalue.sight]

/-- Whether a leaf is about whole numbers and fills none of them up. -/
def Unpadded (types : List (String × Ty)) (returnType : Ty) (sight : Sight) (leaf : Leaf) : Prop :=
  leaf.Integral types sight ∧ leaf.Unfilled types sight returnType

/-- A return gives the same value either way. -/
theorem result_unmoved {value : Option Expr}
    (h : Unpadded types returnType sight (.result value)) :
    Unmoved sight sight fun fill => .returned <$> result fill types returnType value := by
  intro store outcome store' hsight hrun
  obtain ⟨n, hn, rfl⟩ := map_ok.1 hrun
  refine ⟨map_ok.2 ⟨n, ?_, rfl⟩, nofun⟩
  cases value with
  | none => exact hn
  | some e =>
      obtain ⟨k, hk, rfl⟩ := map_ok.1 hn
      have hmem : e ∈ (Leaf.result (some e)).exprs := List.mem_cons_self
      exact map_ok.2 ⟨k, (evalAs_fill (h.1.1 e hmem) (h.2.1 e hmem) hsight h.2.2 hk).1, rfl⟩

mutual

/-- A statement that fills nothing up does the same whether or not it is told
to fill. -/
theorem stmt_unmoved : ∀ {sight : Sight} {st : Stmt},
    st.Everywhere (Unpadded types returnType) sight →
    Unmoved sight (st.declare sight) fun fill => stmt fill types returnType rounds st
  | _, .block _, h => by
      unfold stmt
      exact block_unmoved h
  | _, .branch _, h => by
      unfold stmt
      exact arm_unmoved h
  | _, .loop e body pos, h => by
      unfold stmt
      have hmem : e ∈ (Leaf.condition e).exprs := List.mem_cons_self
      exact iterate_unmoved (h.1.1.1 e hmem) (h.1.2.1 e hmem) (block_unmoved h.2) rounds
  | _, .ret _ _, h => by
      unfold stmt
      exact result_unmoved h
  | _, .variable _, h => by
      unfold stmt
      exact declare_unmoved h.1 h.2
  | _, .expr e, h => by
      intro store outcome store' hsight hrun
      unfold stmt at hrun ⊢
      obtain ⟨v, _, hv, hout⟩ := bind_ok.1 hrun
      obtain ⟨rfl, rfl⟩ := pure_ok.1 hout
      have hmem : e ∈ (Leaf.effect e).exprs := List.mem_cons_self
      have hvalue := eval_fill (h.1.1 e hmem) (h.2.1 e hmem) hsight hv
      exact ⟨bind_ok.2 ⟨v, _, hvalue.fills, rfl⟩, fun _ => hvalue.sight⟩
  | _, .function _, _ => by
      unfold stmt
      exact fun _ _ _ _ hrun => (throw_ok.1 hrun).elim
  | _, .aggregate _, _ => by
      unfold stmt
      exact fun _ _ _ _ hrun => (throw_ok.1 hrun).elim

theorem block_unmoved {sight : Sight} {body : List Stmt}
    (h : Stmt.EverywhereIn (Unpadded types returnType) ([] :: sight) body) :
    Unmoved sight sight fun fill => Source.inScope (stmts fill types returnType rounds body) :=
  (stmts_unmoved h).inScope (by
    obtain ⟨scope, hscope⟩ := declareAll_cons [] sight body
    rw [hscope]
    rfl)

/-- So do statements in order. -/
theorem stmts_unmoved : ∀ {sight : Sight} {body : List Stmt},
    Stmt.EverywhereIn (Unpadded types returnType) sight body →
    Unmoved sight (declareAll sight body) fun fill => stmts fill types returnType rounds body
  | _, [], _ => by
      intro store outcome store' hsight hrun
      unfold stmts at hrun ⊢
      obtain ⟨rfl, rfl⟩ := pure_ok.1 hrun
      exact ⟨hrun, fun _ => hsight⟩
  | _, _ :: _, h => by
      unfold stmts
      exact (stmt_unmoved h.1).andThen (stmts_unmoved h.2)

theorem arm_unmoved : ∀ {sight : Sight} {arm : Arm},
    arm.Everywhere (Unpadded types returnType) sight →
    Unmoved sight sight fun fill => Source.arm fill types returnType rounds arm
  | _, ⟨e, consequent, alternate, pos⟩, h => by
      intro store outcome store' hsight hrun
      unfold Source.arm at hrun ⊢
      obtain ⟨holds, store₁, htest, hrest⟩ := bind_ok.1 hrun
      have hmem : e ∈ (Leaf.condition e).exprs := List.mem_cons_self
      obtain ⟨htest', hsight₁⟩ := test_fill (h.1.1.1 e hmem) (h.1.2.1 e hmem) hsight htest
      cases holds with
      | true =>
          obtain ⟨hrest', hsight'⟩ := block_unmoved h.2.1 hsight₁ hrest
          exact ⟨bind_ok.2 ⟨true, _, htest', hrest'⟩, hsight'⟩
      | false =>
          obtain ⟨hrest', hsight'⟩ := otherwise_unmoved h.2.2 hsight₁ hrest
          exact ⟨bind_ok.2 ⟨false, _, htest', hrest'⟩, hsight'⟩

theorem otherwise_unmoved : ∀ {sight : Sight} {alternate : Alternate},
    alternate.Everywhere (Unpadded types returnType) sight →
    Unmoved sight sight fun fill => otherwise fill types returnType rounds alternate
  | _, .none, _ => by
      intro store outcome store' hsight hrun
      unfold otherwise at hrun ⊢
      obtain ⟨rfl, rfl⟩ := pure_ok.1 hrun
      exact ⟨hrun, fun _ => hsight⟩
  | _, .block _, h => by
      unfold otherwise
      exact block_unmoved h
  | _, .elseIf _, h => by
      unfold otherwise
      exact arm_unmoved h

end

end Statements

end Source

end MiniC
