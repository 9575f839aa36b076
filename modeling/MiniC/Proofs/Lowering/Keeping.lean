/-
Lowering keeps to a discipline, construct by construct. An expression is
lowered to a value of which what is asked holds and whose type represents
that of the expression (`expr_keeps`). What is asked of the leaves of a
function is enough for all of its code (`function_keeps`).

# What is asked

A discipline says which instructions are good and which values; a strict one
lets only whole numbers be compared and widened. That lowering can keep to it
depends on the expression: literals that are not folded have to be good values,
and where the discipline is strict, strings are kept and `!` is applied to whole
numbers. `Asks` collects this, with the further wish that both operands of an
operation are whole or neither is (`exact`), and is inherited by operands.

# Values

The value of an expression is of the type that represents its own, unless
operands are mixed: an operation on a floating constant may then be one on
whole numbers (`Lowered`). The lemmas of
`Lowering.Discipline` about loading, storing, converting and computing are
applied operator by operator, and the induction `expr_keeps` puts them
together.

# Statements

Conditions are converted to truth values, results to the type of the function,
initializers to the type of their variable. `Built` follows the names in sight
along statements, as the parser does; blocks, arms and loops are pieces of code
whose terminators are good whatever they lead to.
Consumed by the proofs about the types and the constants of lowered code.
-/
import MiniC.Proofs.Lowering.Discipline
import MiniC.Proofs.Lowering.Functions

namespace MiniC.Lowering

open IR Steps

-- =========================================================== expressions

/-- What has to hold of an expression for its code to keep to a
discipline. -/
structure Asks (V : Value → Prop) (strict exact : Prop) (types : List (String × MiniC.Ty))
    (sight : Sight) (e : MiniC.Expr) : Prop where
  loose : ∀ lit ∈ e.loose, ∀ value, literal lit = .ok value → V value
  kept : strict → e.Kept types sight
  unmixed : exact → e.Unmixed types sight

/-- What is known of the value that an expression is lowered to. -/
structure Lowered (V : Value → Prop) (exact : Prop) (types : List (String × MiniC.Ty))
    (sight : Sight) (e : MiniC.Expr) (value : Value) : Prop where
  asked : V value
  typed : ∃ ty, e.type? types sight = some ty ∧ StandsFor exact ty value.ty
  constant : e.isConstant = true → isConstant value = true

section Expressions

variable {G : Instr → Prop} {V : Value → Prop} {returnType : IR.Ty} {strict exact : Prop}
  {types : List (String × MiniC.Ty)} {globals : List (String × Slot)} {sight : Sight}
  {p : Program} {scopes : Sight} {lhs rhs operand : MiniC.Expr} {operandsMatch : Bool}
  {pos : Position} {value : Value} {lit : NumberLiteral}

/-- An expression has a value. -/
theorem Lowered.ne_void (h : Lowered V exact types sight lhs value) : value.ty ≠ .void := by
  obtain ⟨ty, -, hty⟩ := h.typed
  exact hty.ne_void

/-- A value is an address exactly if its expression is a string. -/
theorem Lowered.ptr_iff (h : Lowered V exact types sight lhs value) :
    value.ty = .ptr ↔ lhs.type? types sight = some .string := by
  obtain ⟨ty, htype, hty⟩ := h.typed
  rw [hty.ptr_iff, htype, Option.some.injEq]

/-- What is kept can become a value of the type it is kept as. -/
theorem Lowered.convertible (h : Lowered V exact types sight lhs value) {ty : MiniC.Ty}
    {repr : IR.Ty} (hty : slotType ty = .ok repr) (hkept : lhs.KeptAs types sight (some ty)) :
    Convertible value repr := by
  rcases hkept with hconst | hstring
  · exact Or.inl (h.constant hconst)
  · have hstands : StandsFor True ty repr := Or.inl hty
    have hrepr : repr = .ptr ↔ ty = .string := hstands.ptr_iff
    rw [Option.some.injEq, ← h.ptr_iff, ← hrepr] at hstring
    by_cases hptr : repr = .ptr
    · exact Or.inr (Or.inl ((hstring.1 hptr).trans hptr.symm))
    · have hvalue : value.ty ≠ .ptr := fun heq => hptr (hstring.2 heq)
      exact Or.inr (Or.inr ⟨⟨hvalue, h.ne_void⟩, hptr, (slotType_ok.1 hty).2⟩)

/-- What is loaded from a variable stands for it. -/
theorem Lowered.current (hv : V value) (hvariable : lhs.isConstant = false) {ty : MiniC.Ty}
    (hty : lhs.type? types sight = some ty) (hrepr : slotType ty = .ok value.ty) :
    Lowered V exact types sight lhs value := by
  refine ⟨hv, ⟨ty, hty, Or.inl hrepr⟩, fun hconst => ?_⟩
  rw [hvariable] at hconst
  cases hconst

/-- A literal is a constant of its own type. -/
theorem literal_ok (h : literal lit = .ok value) :
    isConstant value = true ∧ IR.Ty.ofSource? lit.ty = some value.ty := by
  unfold literal at h
  split at h
  · rename_i hty
    cases h
    exact ⟨rfl, hty⟩
  · cases h

/-- A literal of a type of numbers is a constant of that type. -/
theorem literal_standsFor (h : literal lit = .ok value) (hnumeric : lit.ty.Numeric) :
    StandsFor exact lit.ty value.ty := by
  obtain ⟨-, hty⟩ := literal_ok h
  refine Or.inl (slotType_ok.2 ⟨hty, ?_⟩)
  intro hvoid
  rw [hvoid] at hty
  cases hlit : lit.ty with
  | void =>
      rw [hlit] at hnumeric
      cases hnumeric
  | _ =>
      rw [hlit] at hty
      cases hty

section Names

variable (hglobals : GlobalsShown types globals)

include hglobals

/-- A name has storage of its type. -/
theorem storage_keeps (name : String) :
    KeepsTo G returnType sight
      (fun slot => ∃ ty, sight.resolve? types name = some ty ∧ slotType ty = .ok slot.ty)
      (storage globals name) := by
  intro s slot t hs h
  obtain ⟨hfound, rfl⟩ := storage_ok.1 h
  refine ⟨?_, hs⟩
  have hview := findSome?_view (fun slot : Slot => some slot.ty) t.scopes name
  have hsight := findSome?_view (fun ty : MiniC.Ty => (slotType ty).toOption) sight name
  rw [show t.scopes.map _ = sight.map _ from hs.shows, hsight] at hview
  unfold Sight.resolve? Sight.find?
  cases hscopes : t.scopes.findSome? fun scope => scope.lookup name with
  | some found =>
      rw [hscopes] at hfound hview
      cases hfound
      obtain ⟨ty, hty, hrepr⟩ := Option.map_eq_some_iff.1 hview
      rw [hty]
      exact ⟨ty, rfl, toOption_some.1 hrepr⟩
  | none =>
      rw [hscopes] at hfound hview
      rw [Option.map_eq_none_iff.1 hview]
      exact hglobals name slot hfound

/-- What is assigned to is storage of its type. -/
theorem target_keeps (e : MiniC.Expr) :
    KeepsTo G returnType sight
      (fun slot => e.isConstant = false
        ∧ ∃ ty, e.type? types sight = some ty ∧ slotType ty = .ok slot.ty)
      (target globals e) := by
  cases e with
  | ident i => exact (storage_keeps hglobals i.name).weaken fun _ hslot => ⟨rfl, hslot⟩
  | _ => exact Yields.throw _

/-- What is stepped is storage of its type. -/
theorem stepTarget_keeps (e : MiniC.Expr) :
    KeepsTo G returnType sight
      (fun slot => ∃ ty, e.type? types sight = some ty ∧ slotType ty = .ok slot.ty)
      (stepTarget globals e) := by
  cases e with
  | ident i => exact storage_keeps hglobals i.name
  | _ => exact Yields.throw _

end Names

/-- The right operand is lowered, or it is the left one. -/
theorem operand_keeps {left : Value} {next : Value → Lower Value} {A : Value → Prop}
    (hleft : Lowered V exact types sight lhs left)
    (hmatch : operandsMatch = MiniC.Expr.sameIdent lhs rhs)
    (hrhs : KeepsTo G returnType sight (Lowered V exact types sight rhs) (expr globals rhs))
    (hnext : ∀ right, Lowered V exact types sight rhs right →
      KeepsTo G returnType sight A (next right)) :
    KeepsTo G returnType sight A
      (if operandsMatch then pure left >>= next else expr globals rhs >>= next) := by
  refine Yields.ite (fun hsame => ?_) fun _ => hrhs.bind hnext
  rw [hmatch] at hsame
  refine (Yields.pure (a := left) ?_).bind hnext
  obtain ⟨ty, hty, hrepr⟩ := hleft.typed
  refine ⟨hleft.asked, ⟨ty, (MiniC.Expr.type?_sameIdent hsame).trans hty, hrepr⟩, fun hconst => ?_⟩
  unfold MiniC.Expr.sameIdent at hsame
  split at hsame
  · cases hconst
  · cases hsame

section Operations

variable (hd : Discipline G V returnType strict)

include hd

/-- A value is converted to the type of the variable it is assigned to. -/
theorem assign_keeps {slot : Slot} {ty : MiniC.Ty}
    (hty : lhs.type? types sight = some ty ∧ slotType ty = .ok slot.ty)
    (hkept : strict → rhs.KeptAs types sight (lhs.type? types sight))
    (hvalue : Lowered V exact types sight rhs value) :
    KeepsTo G returnType sight (fun result => V result ∧ result.ty = slot.ty)
      (store value slot) := by
  refine store_keeps hd hvalue.asked fun h => hvalue.convertible hty.2 ?_
  rw [← hty.1]
  exact hkept h

/-- Operands are brought to one type and computed with. -/
theorem arithmetic_keeps (op : Arith) {left right : Value}
    (hcomputable : strict → MiniC.Expr.Computable types sight lhs rhs)
    (halike : exact → MiniC.Expr.Alike types sight lhs rhs)
    (hleft : Lowered V exact types sight lhs left)
    (hright : Lowered V exact types sight rhs right) :
    KeepsTo G returnType sight
      (fun result => V result ∧ ∃ l r, lhs.type? types sight = some l
        ∧ rhs.type? types sight = some r ∧ StandsFor exact (Ty.promote l r) result.ty)
      (arith op left right) := by
  have hstrings : strict → left.ty ≠ .ptr ∧ right.ty ≠ .ptr := fun h =>
    ⟨fun heq => (hcomputable h).1 (hleft.ptr_iff.1 heq),
      fun heq => (hcomputable h).2 (hright.ptr_iff.1 heq)⟩
  refine (arith_keeps hd op hleft.asked hright.asked hleft.ne_void hright.ne_void hstrings).weaken
    fun result hresult => ⟨hresult.1, ?_⟩
  obtain ⟨l, hl, hlrepr⟩ := hleft.typed
  obtain ⟨r, hr, hrrepr⟩ := hright.typed
  refine ⟨l, r, hl, hr, ?_⟩
  have hword := hresult.2.2
  rw [hresult.2.1] at hword ⊢
  refine hlrepr.promote hrrepr hword fun hexact => ?_
  obtain ⟨⟨hlstring, hrstring⟩, hsame⟩ := halike hexact
  rw [hl] at hlstring hsame
  rw [hr] at hrstring hsame
  exact ⟨fun h => hlstring (congrArg some h), fun h => hrstring (congrArg some h), hsame⟩

/-- A sign in front of a value is an operation with a zero of its type. -/
theorem sign_keeps (op : Arith) (hvalue : Lowered V exact types sight operand value) :
    KeepsTo G returnType sight
      (fun result => V result ∧ ∃ ty, operand.type? types sight = some ty
        ∧ StandsFor exact (Ty.promote ty .int) result.ty)
      (arith op (.constant value.ty "0") value) := by
  by_cases hptr : value.ty = .ptr
  · intro s result t _ h
    have hzero : (Value.constant value.ty "0").ty = .ptr := hptr
    exact (arith_ptr hzero h).elim
  refine (arith_keeps hd op (hd.zero value.ty) hvalue.asked hvalue.ne_void hvalue.ne_void
    fun _ => ⟨hptr, hptr⟩).weaken fun result hresult => ⟨hresult.1, ?_⟩
  obtain ⟨ty, htype, hrepr⟩ := hvalue.typed
  have hresultty : result.ty = arithType value.ty value.ty := hresult.2.1
  have hword := hresult.2.2
  rw [hresultty] at hword ⊢
  exact ⟨ty, htype, hrepr.signed hword⟩

variable (hglobals : GlobalsShown types globals)

include hglobals

/-- A binary operation, by its operator. -/
theorem binary_keeps {op : BinaryOp}
    (hwf : (MiniC.Expr.binary op lhs rhs false operandsMatch pos).WellFormed p scopes)
    (hasks : Asks V strict exact types sight (.binary op lhs rhs false operandsMatch pos))
    (hlhs : KeepsTo G returnType sight (Lowered V exact types sight lhs) (expr globals lhs))
    (hrhs : KeepsTo G returnType sight (Lowered V exact types sight rhs) (expr globals rhs)) :
    KeepsTo G returnType sight
      (Lowered V exact types sight (.binary op lhs rhs false operandsMatch pos))
      (expr globals (.binary op lhs rhs false operandsMatch pos)) := by
  obtain ⟨-, hmatch, -⟩ := hwf
  have hkept := fun h => (hasks.kept h).parts_binary.2.2
  have hunmixed := fun h => (hasks.unmixed h).parts_binary.2.2
  have hvalue : ∀ (ty : MiniC.Ty) {value : Value}, V value →
      (MiniC.Expr.binary op lhs rhs false operandsMatch pos).type? types sight = some ty →
      StandsFor exact ty value.ty →
      Lowered V exact types sight (.binary op lhs rhs false operandsMatch pos) value :=
    fun _ _ hv hty hrepr => ⟨hv, ⟨_, hty, hrepr⟩, fun hconst => by cases hconst⟩
  unfold expr
  rw [if_neg Bool.false_ne_true]
  cases op with
  | assign =>
      refine (target_keeps hglobals lhs).bind fun slot hslot => hrhs.bind fun value hv => ?_
      obtain ⟨-, ty, hty, hrepr⟩ := hslot
      refine (assign_keeps hd ⟨hty, hrepr⟩ hkept hv).weaken fun result hresult => ?_
      refine hvalue ty hresult.1 hty (Or.inl ?_)
      rw [hresult.2]
      exact hrepr
  | compound op =>
      refine (target_keeps hglobals lhs).bind fun slot hslot => ?_
      obtain ⟨hvariable, ty, hty, hrepr⟩ := hslot
      refine (load_keeps hd slot).bind fun current hcurrent => ?_
      have hleft : Lowered V exact types sight lhs current :=
        Lowered.current hcurrent.1 hvariable hty (hcurrent.2 ▸ hrepr)
      refine operand_keeps hleft hmatch hrhs fun right hright => ?_
      refine (update_keeps hd op hcurrent.1 hcurrent.2 hright.asked (slotType_ok.1 hrepr).2
        hright.ne_void fun h _ heq => (hkept h).2 (hright.ptr_iff.1 heq)).weaken
        fun result hresult => hvalue ty hresult.1 hty (Or.inl ?_)
      rw [hresult.2]
      exact hrepr
  | arith op =>
      refine hlhs.bind fun left hleft => operand_keeps hleft hmatch hrhs fun right hright => ?_
      have halike : exact → MiniC.Expr.Alike types sight lhs rhs := fun h =>
        (hunmixed h).resolve_left fun heq => by cases heq
      refine (arithmetic_keeps hd op hkept halike hleft hright).weaken fun result hresult => ?_
      obtain ⟨hv, l, r, hl, hr, hrepr⟩ := hresult
      refine hvalue _ hv ?_ hrepr
      rw [MiniC.Expr.type?, if_neg Bool.false_ne_true, hl, hr]
      rfl
  | compare op =>
      refine hlhs.bind fun left hleft => operand_keeps hleft hmatch hrhs fun right hright => ?_
      refine (compare_keeps hd op hleft.asked hright.asked hleft.ne_void hright.ne_void
        fun h => ?_).weaken fun result hresult => hvalue .bool hresult.1 rfl (Or.inl ?_)
      · exact ⟨fun heq => (hkept h).1 (hleft.ptr_iff.1 heq),
          fun heq => (hkept h).2 (hright.ptr_iff.1 heq)⟩
      · rw [hresult.2]
        rfl

/-- A unary operation, by its operator. -/
theorem unary_keeps {op : UnaryOp} {fixity : Fixity}
    (hasks : Asks V strict exact types sight (.unary op fixity operand pos))
    (hoperand : KeepsTo G returnType sight (Lowered V exact types sight operand)
      (expr globals operand)) :
    KeepsTo G returnType sight (Lowered V exact types sight (.unary op fixity operand pos))
      (expr globals (.unary op fixity operand pos)) := by
  have hvalue : ∀ (ty : MiniC.Ty) {value : Value}, V value →
      (MiniC.Expr.unary op fixity operand pos).type? types sight = some ty →
      StandsFor exact ty value.ty →
      Lowered V exact types sight (.unary op fixity operand pos) value :=
    fun _ _ hv hty hrepr => ⟨hv, ⟨_, hty, hrepr⟩, nofun⟩
  have hsigned : (op = .plus ∨ op = .minus) → ∀ sign : Arith,
      KeepsTo G returnType sight (Lowered V exact types sight (.unary op fixity operand pos)) (do
        let value ← expr globals operand
        arith sign (.constant value.ty "0") value) := by
    intro hop sign
    refine hoperand.bind fun value hv => (sign_keeps hd sign hv).weaken fun result hresult => ?_
    obtain ⟨hv, ty, hty, hrepr⟩ := hresult
    refine hvalue _ hv ?_ hrepr
    rcases hop with rfl | rfl <;> rw [MiniC.Expr.type?, hty] <;> rfl
  have hstepped : (op = .incr ∨ op = .decr) → ∀ step' : Arith,
      KeepsTo G returnType sight (Lowered V exact types sight (.unary op fixity operand pos)) (do
        let slot ← stepTarget globals operand
        step step' fixity slot) := by
    intro hop step'
    refine (stepTarget_keeps hglobals operand).bind fun slot hslot => ?_
    obtain ⟨ty, hty, hrepr⟩ := hslot
    refine (step_keeps hd step' fixity (slotType_ok.1 hrepr).2).weaken fun result hresult => ?_
    refine hvalue ty hresult.1 ?_ (Or.inl ?_)
    · rcases hop with rfl | rfl <;> exact hty
    · rw [hresult.2]
      exact hrepr
  cases op with
  | plus => exact hsigned (Or.inl rfl) .add
  | minus => exact hsigned (Or.inr rfl) .sub
  | not =>
      refine hoperand.bind fun value hv => (define_keeps fun index => ?_).weaken ?_
      · refine hd.compare index .eq rfl (fun h => ?_) hv.asked (hd.zero _)
        obtain ⟨ty, hty, hrepr⟩ := hv.typed
        have hwhole := (hasks.kept h).2.resolve_left fun hne => hne rfl
        rw [hty] at hwhole
        exact hrepr.isInteger hwhole
      · rintro _ ⟨index, rfl⟩
        exact hvalue .bool (hd.temp _ _) rfl (Or.inl rfl)
  | incr => exact hstepped (Or.inl rfl) .add
  | decr => exact hstepped (Or.inr rfl) .sub

/-- What is asked of an expression is asked of its parts. -/
theorem expr_keeps {e : MiniC.Expr} (hwf : e.WellFormed p scopes)
    (hasks : Asks V strict exact types sight e) :
    KeepsTo G returnType sight (Lowered V exact types sight e) (expr globals e) := by
  induction e with
  | number lit =>
      refine Yields.lift fun value hvalue => ?_
      refine ⟨hasks.loose lit List.mem_cons_self value hvalue, ⟨lit.ty, rfl, ?_⟩,
        fun _ => (literal_ok hvalue).1⟩
      exact literal_standsFor hvalue hwf
  | string _ => exact Yields.throw _
  | member _ _ _ _ => exact Yields.throw _
  | ident i =>
      refine (storage_keeps hglobals i.name).bind fun slot hslot => ?_
      obtain ⟨ty, hty, hrepr⟩ := hslot
      refine (load_keeps hd slot).weaken fun value hvalue => ?_
      refine ⟨hvalue.1, ⟨ty, hty, Or.inl ?_⟩, nofun⟩
      rw [hvalue.2]
      exact hrepr
  | binary op lhs rhs constant operandsMatch pos ihl ihr =>
      cases constant with
      | true =>
          unfold expr
          rw [if_pos rfl]
          intro s value t hs h
          obtain ⟨lit, _, hlit, hliteral⟩ := bind_ok.1 h
          obtain ⟨hfolded, rfl⟩ := lift_ok.1 hlit
          obtain ⟨hvalue, rfl⟩ := lift_ok.1 hliteral
          have heval := liftEval_ok.1 hfolded
          refine ⟨⟨?_, ⟨lit.ty, ?_, literal_standsFor hvalue (hwf.evaluate heval)⟩,
            fun _ => (literal_ok hvalue).1⟩, hs⟩
          · unfold MiniC.Expr.evaluate at heval
            rw [if_pos rfl] at heval
            obtain ⟨a, -, heval⟩ := except_bind_ok.1 heval
            obtain ⟨b, -, heval⟩ := except_bind_ok.1 heval
            exact hd.folded heval hvalue
          · unfold MiniC.Expr.type?
            rw [if_pos rfl, heval]
            rfl
      | false =>
          have hleft : Asks V strict exact types sight lhs :=
            ⟨fun lit hlit => hasks.loose lit (List.mem_append_left _ hlit),
              fun h => (hasks.kept h).parts_binary.1, fun h => (hasks.unmixed h).parts_binary.1⟩
          have hright : Asks V strict exact types sight rhs :=
            ⟨fun lit hlit => hasks.loose lit (List.mem_append_right _ hlit),
              fun h => (hasks.kept h).parts_binary.2.1,
              fun h => (hasks.unmixed h).parts_binary.2.1⟩
          have hparts := hwf.2.2.2
          exact binary_keeps hd hglobals hwf hasks (ihl hparts.1 hleft) (ihr hparts.2 hright)
  | unary op fixity operand pos ih =>
      have hinner : Asks V strict exact types sight operand :=
        ⟨hasks.loose, fun h => (hasks.kept h).1, hasks.unmixed⟩
      exact unary_keeps hd hglobals hasks (ih hwf.2 hinner)

end Operations

end Expressions

-- ============================================================ statements

/-- What has to hold of a leaf of a function for its code to keep to a
discipline. -/
structure LeafAsks (V : Value → Prop) (strict : Prop) (types : List (String × MiniC.Ty))
    (p : Program) (returnType : MiniC.Ty) (sight : Sight) (leaf : Leaf) : Prop where
  wellFormed : leaf.WellFormed p [p.scope] returnType sight
  loose : ∀ e ∈ leaf.exprs, ∀ lit ∈ e.loose, ∀ value, literal lit = .ok value → V value
  kept : strict → leaf.Kept types returnType sight

section Statements

variable {G : Instr → Prop} {V : Value → Prop} {repr : IR.Ty} {strict : Prop}
  {types : List (String × MiniC.Ty)} {globals : List (String × Slot)} {sight : Sight}
  {p : Program} {returnType : MiniC.Ty}

/-- What is asked of a leaf is asked of its expressions. -/
theorem LeafAsks.expr {leaf : Leaf} (h : LeafAsks V strict types p returnType sight leaf)
    {e : MiniC.Expr} (he : e ∈ leaf.exprs) : Asks V strict False types sight e :=
  ⟨h.loose e he, fun hs => (h.kept hs).1 e he, False.elim⟩

/-- A name comes into sight, with a slot of its type. -/
theorem bind_keeps (name : String) {slot : Slot} {ty : MiniC.Ty} (hty : slotType ty = .ok slot.ty) :
    Yields (Built G repr sight) (fun _ => True) (Built G repr (sight.bind name ty))
      (bind name slot) := by
  refine Yields.modifyGet fun s hs => ⟨trivial, ?_⟩
  have hshows := hs.shows
  obtain ⟨builder, scopes⟩ := s
  cases scopes with
  | nil =>
      cases sight with
      | nil => exact hs
      | cons scope outer => cases hshows
  | cons bound rest =>
      cases sight with
      | nil => cases hshows
      | cons scope outer =>
          obtain ⟨hbound, hrest⟩ := List.cons.inj hshows
          refine ⟨hs.code, hs.returnType, congrArg₂ List.cons ?_ hrest⟩
          refine congrArg₂ List.cons ?_ hbound
          show (name, some slot.ty) = (name, (slotType ty).toOption)
          rw [hty]
          rfl

/-- The body of a block leaves the names outside it as they are. -/
theorem block_keeps {body : List Stmt}
    (h : Yields (Built G repr ([] :: sight)) (fun _ => True)
      (Built G repr (declareAll ([] :: sight) body)) (stmts globals body)) :
    KeepsTo G repr sight (fun _ => True) (inScope (stmts globals body)) := by
  have hopen : Yields (Built G repr sight) (fun _ => True) (Built G repr ([] :: sight))
      (modify fun s => { s with scopes := [] :: s.scopes } : Lower PUnit) :=
    Yields.modifyGet fun _ hs =>
      ⟨trivial, hs.code, hs.returnType, congrArg ([] :: ·) hs.shows⟩
  obtain ⟨scope, hscope⟩ := declareAll_cons [] sight body
  have hclose : Yields (Built G repr (scope :: sight)) (fun _ => True) (Built G repr sight)
      (modify fun s => { s with scopes := s.scopes.drop 1 } : Lower PUnit) := by
    refine Yields.modifyGet fun s hs => ⟨trivial, hs.code, hs.returnType, ?_⟩
    have hshows := hs.shows
    unfold Shows at hshows ⊢
    show (s.scopes.drop 1).map _ = _
    rw [List.map_drop, hshows]
    rfl
  rw [hscope] at h
  exact hopen.bind fun _ _ => h.bind fun _ _ => hclose.bind fun _ _ => Yields.pure trivial

/-- A return ends the block, and the code behind it goes elsewhere. -/
theorem leave_keeps {result : Option Value} (h : G (.ret result)) :
    KeepsTo G repr sight (fun _ => True) (leave result) := by
  refine Yields.get fun s _ => Yields.ite (fun _ => ?_) fun _ => ?_
  · exact (unique_keeps _).bind fun _ _ => (append_keeps _).bind fun _ _ => emit_keeps h
  · exact emit_keeps h

variable (hd : Discipline G V repr strict) (hglobals : GlobalsShown types globals)

include hd hglobals

/-- A condition is a truth value. -/
theorem condition_keeps {e : MiniC.Expr}
    (h : LeafAsks V strict types p returnType sight (.condition e)) :
    KeepsTo G repr sight (fun value => V value ∧ value.ty = .i1) (condition globals e) := by
  have hasks := h.expr List.mem_cons_self
  refine (expr_keeps hd hglobals h.wellFormed hasks).bind fun value hvalue => ?_
  have hbool : slotType .bool = .ok .i1 := rfl
  exact convert_keeps hd hvalue.asked fun hs => hvalue.convertible hbool (h.kept hs).2

/-- A result is converted to the type of the function. -/
theorem ret_keeps {value : Option MiniC.Expr} (hrepr : IR.Ty.ofSource? returnType = some repr)
    (h : LeafAsks V strict types p returnType sight (.result value)) :
    KeepsTo G repr sight (fun _ => True) (ret globals value) := by
  cases value with
  | none =>
      refine leave_keeps (hd.retNone ?_)
      rw [show returnType = .void from h.wellFormed] at hrepr
      cases hrepr
      rfl
  | some e =>
      have hvoid : repr ≠ .void := by
        rintro rfl
        have hne := h.wellFormed.1
        cases returnType <;> first | exact hne rfl | cases hrepr
      have hslot : slotType returnType = .ok repr := slotType_ok.2 ⟨hrepr, hvoid⟩
      rw [ret_some]
      have hasks := h.expr (e := e) List.mem_cons_self
      refine (expr_keeps hd hglobals h.wellFormed.2 hasks).bind fun value hvalue => ?_
      refine Yields.get fun s hs => ?_
      rw [hs.returnType]
      refine (convert_keeps hd hvalue.asked fun hstrict => ?_).bind fun result hresult => ?_
      · exact hvalue.convertible hslot (h.kept hstrict).2
      · exact leave_keeps (hd.retSome hresult.2 hvoid hresult.1)

/-- A declared variable comes into sight with a slot of its type. -/
theorem variableDecl_keeps {decl : VariableDecl}
    (h : LeafAsks V strict types p returnType sight (.variable decl)) :
    Yields (Built G repr sight) (fun _ => True) (Built G repr (sight.bind decl.name decl.ty))
      (variableDecl globals decl) := by
  refine (Yields.lift fun ty hty => hty).bind fun ty hty => ?_
  refine (alloca_keeps hd decl.name ty).bind fun slot hslot => ?_
  rw [← hslot] at hty
  cases hinit : decl.init with
  | none => exact bind_keeps decl.name hty
  | some init =>
      have hmem : init ∈ (Leaf.variable decl).exprs := Option.mem_toList.2 hinit
      have hasks := h.expr hmem
      refine (expr_keeps hd hglobals (h.wellFormed.2.init init hinit) hasks).bind
        fun value hvalue => (store_keeps hd hvalue.asked fun hstrict => ?_).bind
          fun _ _ => bind_keeps decl.name hty
      exact hvalue.convertible hty ((h.kept hstrict).2 init hinit)

/-- A loop is built if its condition and its statements are. -/
theorem loopSteps_keeps {e : MiniC.Expr} {body : List Stmt}
    (h : LeafAsks V strict types p returnType sight (.condition e))
    (hbody : KeepsTo G repr sight (fun _ => True) (inScope (stmts globals body))) :
    KeepsTo G repr sight (fun _ => True) (loopSteps globals e body) := by
  refine (unique_keeps _).bind fun test _ => (unique_keeps _).bind fun enter _ => ?_
  refine (unique_keeps _).bind fun done _ => (jumpTo_keeps (hd.jump test)).bind fun _ _ => ?_
  refine (append_keeps test).bind fun _ _ => ?_
  refine (condition_keeps hd hglobals h).bind fun value hvalue => ?_
  refine (emit_keeps (hd.branch enter done hvalue.2 hvalue.1)).bind fun _ _ => ?_
  refine (append_keeps enter).bind fun _ _ => hbody.bind fun _ _ => ?_
  exact (jumpTo_keeps (hd.jump test)).bind fun _ _ => append_keeps done

/-- An arm is built if its condition, its statements and its alternate are. -/
theorem ifArm_keeps_of {e : MiniC.Expr} {consequent : List Stmt} {alternate : Alternate}
    {pos : Position} (h : LeafAsks V strict types p returnType sight (.condition e))
    (hbody : KeepsTo G repr sight (fun _ => True) (inScope (stmts globals consequent)))
    (hother : KeepsTo G repr sight (fun _ => True) (otherwise globals alternate)) :
    KeepsTo G repr sight (fun _ => True) (ifArm globals ⟨e, consequent, alternate, pos⟩) := by
  unfold ifArm
  refine Yields.ite (fun _ => ?_) fun _ => ?_
  · refine (Yields.lift (A := fun _ => True) fun _ _ => trivial).bind fun zero _ => ?_
    exact Yields.ite (fun _ => hother) fun _ => hbody
  · refine (condition_keeps hd hglobals h).bind fun value hvalue => ?_
    refine (unique_keeps _).bind fun onTrue _ => ?_
    have hlast : ∀ done : String, KeepsTo G repr sight (fun _ => True) (do
        jumpTo done
        append done : Lower Unit) := fun done =>
      (jumpTo_keeps (hd.jump done)).bind fun _ _ => append_keeps done
    have hbranch : ∀ onFalse : String, KeepsTo G repr sight (fun _ => True)
        (emit (.branch value onTrue onFalse)) := fun onFalse =>
      emit_keeps (hd.branch onTrue onFalse hvalue.2 hvalue.1)
    cases alternate with
    | none =>
        refine (unique_keeps _).bind fun done _ => (hbranch done).bind fun _ _ => ?_
        exact (append_keeps onTrue).bind fun _ _ => hbody.bind fun _ _ => hlast done
    | _ =>
        refine (unique_keeps _).bind fun onFalse _ => (unique_keeps _).bind fun done _ => ?_
        refine (hbranch onFalse).bind fun _ _ => (append_keeps onTrue).bind fun _ _ => ?_
        refine hbody.bind fun _ _ => (jumpTo_keeps (hd.jump done)).bind fun _ _ => ?_
        exact (append_keeps onFalse).bind fun _ _ => hother.bind fun _ _ => hlast done

omit hd hglobals

mutual

/-- What is asked of the leaves of a statement is enough for the code of
all of it. -/
theorem stmt_keeps (hd : Discipline G V repr strict) (hglobals : GlobalsShown types globals)
    (hrepr : IR.Ty.ofSource? returnType = some repr) : ∀ (st : Stmt) {sight : Sight},
    st.Everywhere (LeafAsks V strict types p returnType) sight →
    Yields (Built G repr sight) (fun _ => True) (Built G repr (st.declare sight))
      (stmt globals st)
  | .block body, _, h => by
      unfold stmt
      exact block_keeps (stmts_keeps hd hglobals hrepr body h)
  | .branch arm, _, h => by
      unfold stmt
      exact ifArm_keeps hd hglobals hrepr arm h
  | .loop e body pos, sight, h => by
      intro s x t hs hstep
      rcases loop_ok globals hstep with ⟨-, -, rfl⟩ | hstep
      · exact ⟨trivial, hs⟩
      · have hbody := block_keeps (stmts_keeps hd hglobals hrepr body h.2)
        exact loopSteps_keeps hd hglobals h.1 hbody hs hstep
  | .ret value pos, _, h => by
      unfold stmt
      exact ret_keeps hd hglobals hrepr h
  | .variable decl, _, h => by
      unfold stmt
      exact variableDecl_keeps hd hglobals h
  | .expr e, _, h => by
      unfold stmt
      have hasks : Asks V strict False types _ e := LeafAsks.expr h List.mem_cons_self
      exact (expr_keeps hd hglobals h.wellFormed hasks).bind fun _ _ => Yields.pure trivial
  | .function _, _, h => h.wellFormed.elim
  | .aggregate _, _, h => h.wellFormed.elim

/-- What is asked of leaves is enough, along the statements and the names they
declare. -/
theorem stmts_keeps (hd : Discipline G V repr strict) (hglobals : GlobalsShown types globals)
    (hrepr : IR.Ty.ofSource? returnType = some repr) : ∀ (body : List Stmt) {sight : Sight},
    Stmt.EverywhereIn (LeafAsks V strict types p returnType) sight body →
    Yields (Built G repr sight) (fun _ => True) (Built G repr (declareAll sight body))
      (stmts globals body)
  | [], _, _ => by
      unfold stmts
      exact Yields.pure trivial
  | st :: rest, _, h => by
      unfold stmts
      exact (stmt_keeps hd hglobals hrepr st h.1).bind fun _ _ =>
        stmts_keeps hd hglobals hrepr rest h.2

/-- Of an arm whose condition is decided only the part that runs is built. -/
theorem ifArm_keeps (hd : Discipline G V repr strict) (hglobals : GlobalsShown types globals)
    (hrepr : IR.Ty.ofSource? returnType = some repr) : ∀ (arm : Arm) {sight : Sight},
    arm.Everywhere (LeafAsks V strict types p returnType) sight →
    KeepsTo G repr sight (fun _ => True) (ifArm globals arm)
  | ⟨_, consequent, alternate, _⟩, _, h =>
      ifArm_keeps_of hd hglobals h.1 (block_keeps (stmts_keeps hd hglobals hrepr consequent h.2.1))
        (otherwise_keeps hd hglobals hrepr alternate h.2.2)

/-- An alternate is built if there is one. -/
theorem otherwise_keeps (hd : Discipline G V repr strict) (hglobals : GlobalsShown types globals)
    (hrepr : IR.Ty.ofSource? returnType = some repr) :
    ∀ (alternate : Alternate) {sight : Sight},
    alternate.Everywhere (LeafAsks V strict types p returnType) sight →
    KeepsTo G repr sight (fun _ => True) (otherwise globals alternate)
  | .none, _, _ => by
      unfold otherwise
      exact Yields.pure trivial
  | .block body, _, h => by
      unfold otherwise
      exact block_keeps (stmts_keeps hd hglobals hrepr body h)
  | .elseIf arm, _, h => by
      unfold otherwise
      exact ifArm_keeps hd hglobals hrepr arm h

end

end Statements

-- ============================================================= functions

section Functions

variable {G : Instr → Prop} {V : Value → Prop} {strict : Prop}
  {types : List (String × MiniC.Ty)} {globals : List (String × Slot)} {p : Program}
  {decl : FunctionDecl} {fn : Function}

/-- The parameters come into sight, the latest first, with slots of their
types. -/
theorem spills_keeps {repr : IR.Ty} (hd : Discipline G V repr strict) {params : List VariableDecl}
    {ir : List (String × IR.Ty)}
    (h : List.Forall₂ (fun p ir => ir.1 = p.name ∧ slotType p.ty = .ok ir.2) params ir)
    {scope : List (String × MiniC.Ty)} :
    Yields (Built G repr [scope]) (fun _ => True) (Built G repr [scopeOf params ++ scope])
      (ir.forM spill) := by
  induction h generalizing scope with
  | nil => exact Yields.pure trivial
  | @cons param q params rest hparam _ ih =>
      have hscope : scopeOf (param :: params) ++ scope
          = scopeOf params ++ (param.name, param.ty) :: scope := by
        unfold scopeOf
        simp
      have hspill : Yields (Built G repr [scope]) (fun _ => True)
          (Built G repr [(param.name, param.ty) :: scope]) (spill q) := by
        refine (alloca_keeps hd _ _).bind fun slot hslot => ?_
        have hstore : G (.store (.argument q.2 q.1) slot) :=
          hd.store hslot.symm (hd.argument _ _)
        refine (emit_keeps hstore).bind fun _ _ => ?_
        rw [← hparam.1]
        have hbind : Yields (Built G repr [scope]) (fun _ => True)
            (Built G repr (Sight.bind [scope] q.1 param.ty)) (bind q.1 slot) :=
          bind_keeps q.1 (hslot ▸ hparam.2)
        exact hbind
      rw [hscope]
      exact hspill.bind fun _ _ => ih

/-- Whatever a function is lowered to keeps to a discipline, if the leaves
of the function allow it. -/
theorem function_keeps (hglobals : GlobalsShown types globals)
    (hbody : decl.Everywhere (LeafAsks V strict types p decl.returnType))
    (h : function globals decl = .ok fn) (hd : Discipline G V fn.returnType strict) :
    fn.Throughout G := by
  obtain ⟨repr, params, s, t, u, hstages, rfl⟩ := function_ok h
  have hreturn : u.builder.function.returnType = repr :=
    ((hstages.spilled.grows.trans hstages.built.grows).trans hstages.ended.grows).returnType
  rw [hreturn] at hd
  have hstart : Built G repr [[]] (startState decl repr params) := by
    refine ⟨?_, rfl, rfl⟩
    exact throughout_append (b := Prod.snd (Builder.unique _ _)) nofun _
  have hs : Built G repr decl.sight s := by
    have hspilled := (spills_keeps hd hstages.declared hstart hstages.spills).2
    rwa [List.append_nil] at hspilled
  have ht := (stmts_keeps hd hglobals hstages.returnType decl.body hbody hs hstages.body).2
  rw [hstages.ending]
  split
  · exact ht.code
  · refine throughout_emit ht.code ?_
    unfold defaultReturn
    split
    · exact hd.retNone ‹_›
    · rename_i hvoid
      refine hd.retSome rfl hvoid ?_
      split
      · exact hd.real ‹_›
      · exact hd.zero repr

/-- The globals of a program have slots of their types. -/
theorem globalsShown {lowered : List Global} (h : p.globals.mapM global = .ok lowered) :
    GlobalsShown (Source.globalTypes p) (globalStorage lowered) := by
  have hvoid : ∀ g ∈ lowered, g.slot.ty ≠ .void := by
    have hall := mapM_ok h
    clear h
    generalize p.globals = decls at hall
    induction hall with
    | nil => exact List.forall_mem_nil _
    | cons hg _ ih =>
        refine List.forall_mem_cons.2 ⟨?_, ih⟩
        obtain ⟨ty, hty, -⟩ := except_bind_ok.1 hg
        obtain ⟨hrepr, hne⟩ := slotType_ok.1 hty
        rw [(global_slot hg).2.2] at hrepr
        cases hrepr
        exact hne
  intro name slot hslot
  obtain ⟨-, -, ty, hty, hrepr⟩ := globalSlots h name slot hslot
  obtain ⟨g, hg, hpair⟩ := List.mem_map.1 (List.mem_reverse.1 (mem_of_lookup hslot))
  cases hpair
  exact ⟨ty, hty, slotType_ok.2 ⟨hrepr, hvoid g hg⟩⟩

/-- Whether what is asked of values holds of the literals of a leaf that are
not folded. -/
def LiteralsAsk (V : Value → Prop) (leaf : Leaf) : Prop :=
  ∀ e ∈ leaf.exprs, ∀ lit ∈ e.loose, ∀ value, literal lit = .ok value → V value

/-- A function of a well-formed program keeps to a discipline, if its
literals do and strings are kept where the discipline is strict. -/
theorem wellFormed_keeps (hp : p.WellFormed) (hdecl : decl ∈ p.functions) {lowered : List Global}
    (hlowered : p.globals.mapM global = .ok lowered)
    (hloose : decl.Everywhere fun _ leaf => LiteralsAsk V leaf)
    (hkept : strict → decl.Everywhere (Leaf.Kept (Source.globalTypes p) decl.returnType))
    (h : function (globalStorage lowered) decl = .ok fn)
    (hd : Discipline G V fn.returnType strict) : fn.Throughout G := by
  refine function_keeps (p := p) (globalsShown hlowered) ?_ h hd
  have hwf := (hp.function hdecl).body
  by_cases hstrict : strict
  · have hboth : decl.Everywhere fun sight leaf =>
        leaf.WellFormed p [p.scope] decl.returnType sight ∧ LiteralsAsk V leaf :=
      Stmt.EverywhereIn.and (fun _ _ hleaf hlits => ⟨hleaf, hlits⟩) hwf hloose
    exact Stmt.EverywhereIn.and (fun _ _ hleaf hkept => ⟨hleaf.1, hleaf.2, fun _ => hkept⟩) hboth
      (hkept hstrict)
  · exact Stmt.EverywhereIn.and
      (fun _ _ hleaf hlits => ⟨hleaf, hlits, fun hs => absurd hs hstrict⟩) hwf hloose

end Functions

end MiniC.Lowering
