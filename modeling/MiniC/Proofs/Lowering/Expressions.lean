/-
Expressions are lowered with their values. The code of an expression leads
to a memory in which the variables are as the source leaves them and the
resulting value denotes the source's; where the source stops, at a division
or at a variable without a value, so does the code (`expr_simulates`).

# What is compared

`Simulates` compares a stretch of lowering with a run of the source: a result of
the source is where the code leads, a stop of the source is one of the code.
Sequences are compared part by part (`Simulates.bind`), so that the proof about
an operator follows the source's equation for it.

# Going on

An instruction is run in a finished function, not in the part of it that is
built so far. That the function goes on from a state of its lowering is
`Within`; it is handed down from behind, since each stretch only adds to the
function (`Within.of_grows`).

# Variables

`Held` relates what the source keeps per name with what the slots hold: names in
sight resolve to slots of their types, different variables to different slots,
and a slot holds exactly the value of its variable, or none. Reading and
assigning are then loading and storing (`fetch_simulates`, `assign_simulates`).

# The same variable twice

Where both operands are the same identifier, its slot is loaded once and the
value used for both. That is right because a variable that was read would be
read again with the same value, with nothing in between (`operands_simulates`).
Consumed by the proof about statements.
-/
import MiniC.Proofs.Lowering.Variables
import MiniC.Proofs.Source.Sight

namespace MiniC.Lowering

open IR Source Steps

-- ============================================================ comparison

/-- How a run of the source that stops shows in the function's run: a loop
that is not done after its rounds takes more instructions than those. -/
def Fails (fn : Function) (rounds : Nat) (rest : List Instr) (m : Memory) : Source.Stop → Prop
  | .divide => Stops fn rest m .divide
  | .stuck => Stops fn rest m .stuck
  | .unfinished => Lasts fn rest m rounds

/-- Whether a function goes on from a state of its lowering. -/
def Within (fn : Function) (s : State) : Prop :=
  ∃ rest, Ahead s.builder.function.blocks fn.blocks rest

variable {fn : Function} {rounds : Nat} {s t u : State} {m m' : Memory}

/-- A stop further on is a stop. -/
theorem Fails.leads {rest rest' : List Instr} {stop : Source.Stop} (h : Leads fn rest m rest' m')
    (h' : Fails fn rounds rest' m' stop) : Fails fn rounds rest m stop := by
  cases stop with
  | divide => exact h.stops h'
  | stuck => exact h.stops h'
  | unfinished => exact h.lasts h'

/-- What a function goes on from, it goes on from before. -/
theorem Within.of_grows (hfn : Within fn t) (h : Grows s.builder t.builder) : Within fn s := by
  obtain ⟨rest, hrest⟩ := hfn
  exact h.to_function hrest

/-- A stretch that adds to the function starts within it. -/
theorem Additive.within {α : Type} {step : Lower α} (hstep : Additive step) (hs : s.Started)
    {a : α} (h : step s = .ok (a, t)) (hfn : Within fn t) : Within fn s :=
  hfn.of_grows (hstep s a t h hs).grows

/-- A stretch leaves a function that is begun. -/
theorem Additive.started {α : Type} {step : Lower α} (hstep : Additive step) (hs : s.Started)
    {a : α} (h : step s = .ok (a, t)) : t.Started :=
  (hstep s a t h hs).grows.started

/-- Whether the lowering from `s` to `t` is code that does, from the memory
`m`, what a run of the source does. -/
def Simulates {α : Type} (fn : Function) (rounds : Nat) (s : State) (m : Memory) (t : State)
    (run : Except Source.Stop (α × Store)) (post : α → Store → Memory → Prop) : Prop :=
  match run with
  | .ok (a, store) => ∃ m', Passes fn s m t m' ∧ post a store m'
  | .error stop =>
    ∀ rest, Ahead s.builder.function.blocks fn.blocks rest → Fails fn rounds rest m stop

section Simulates

variable {α β : Type} {store : Store} {P : α → Store → Memory → Prop}
  {Q : β → Store → Memory → Prop}

/-- Runs in sequence are simulated by code in sequence. -/
theorem Simulates.bind {x : Run Store α} {f : α → Run Store β}
    (hx : Simulates fn rounds s m t (x store) P) (hfn : Within fn t)
    (hf : ∀ a store' m', Passes fn s m t m' → P a store' m' →
      Simulates fn rounds t m' u (f a store') Q) :
    Simulates fn rounds s m u ((x >>= f) store) Q := by
  show Simulates fn rounds s m u (StateT.bind x f store) Q
  unfold StateT.bind
  cases hrun : x store with
  | error stop =>
      rw [hrun] at hx
      exact hx
  | ok r =>
      obtain ⟨a, store'⟩ := r
      rw [hrun] at hx
      obtain ⟨m', hpass, hpost⟩ := hx
      have hnext := hf a store' m' hpass hpost
      show Simulates fn rounds s m u (f a store') Q
      unfold Simulates at hnext ⊢
      split at hnext
      · obtain ⟨m'', hpass', hpost'⟩ := hnext
        exact ⟨m'', hpass.trans hpass', hpost'⟩
      · intro rest hrest
        obtain ⟨rest', hrest'⟩ := hfn
        exact (hnext rest' hrest').leads (hpass.leads rest rest' hrest hrest')

/-- A step of the source that only answers is no code. -/
theorem Simulates.pure (hs : Live s.builder) {a : α} (h : P a store m) :
    Simulates fn rounds s m s ((pure a : Run Store α) store) P :=
  ⟨m, .refl fn m hs, h⟩

/-- A result may be read as another. -/
theorem Simulates.map {x : Run Store α} {g : α → β} (hfn : Within fn t)
    (hx : Simulates fn rounds s m t (x store) P)
    (hlive : ∀ a store' m', Passes fn s m t m' → P a store' m' → Q (g a) store' m') :
    Simulates fn rounds s m t ((g <$> x) store) Q := by
  rw [map_eq_pure_bind]
  refine hx.bind hfn fun a store' m' hpass hpost => ?_
  exact Simulates.pure hpass.live (hlive a store' m' hpass hpost)

end Simulates

-- ============================================================= variables

/-- Whether the variables of the source are held by the memory of a run, and
the names in sight are the given ones. -/
structure Held (types : List (String × MiniC.Ty)) (sight : Sight) (s : State) (store : Store)
    (m : Memory) : Prop where
  laid : Laid s
  agrees : Agrees types s.scopes store m
  sight : sightOf store = sight

variable {types : List (String × MiniC.Ty)} {globals : List (String × Slot)} {sight : Sight}
  {store : Store}

/-- Variables that are left as they are stay held. -/
theorem Held.same (h : Held types sight s store m) (hpass : Passes fn s m t m')
    (hsame : SameVariables m m') : Held types sight t store m' := by
  refine ⟨hpass.adds.laid h.laid, ?_, h.sight⟩
  rw [hpass.adds.scopes]
  exact h.agrees.same hsame

/-- Variables stay held where only code is added. -/
theorem Held.grown (h : Held types sight s store m) (hgrows : Grows s.builder t.builder)
    (hscopes : t.scopes = s.scopes) : Held types sight t store m :=
  ⟨h.laid.grown hgrows hscopes, by rw [hscopes]; exact h.agrees, h.sight⟩

/-- A name that lowering finds storage for is in sight. -/
theorem Held.resolves (h : Held types sight s store m) (hglobals : GlobalSlots types globals)
    {i : Ident} (hwhole : (MiniC.Expr.ident i).Integral types sight) {slot : Slot}
    (hslot : ((s.scopes.findSome? fun scope => scope.lookup i.name).orElse
      fun _ => globals.lookup i.name) = some slot) :
    ∃ ty, sight.resolve? types i.name = some ty ∧ ty.isInteger = true := by
  have hfound : ∃ ty, sight.resolve? types i.name = some ty := by
    have hrel : Option.Rel (Bound m) (store.find? i.name) _ :=
      ScopesAgree.find h.agrees.scopes i.name
    have hfind := find?_sightOf store i.name
    rw [h.sight] at hfind
    unfold Sight.resolve?
    rw [hfind]
    generalize store.find? i.name = found at hrel
    generalize (s.scopes.findSome? fun scope => scope.lookup i.name) = slot? at hrel hslot
    cases hrel with
    | some _ => exact ⟨_, rfl⟩
    | none =>
        obtain ⟨-, -, ty, hty, -⟩ := hglobals i.name slot hslot
        exact ⟨ty, hty⟩
  obtain ⟨ty, hty⟩ := hfound
  exact ⟨ty, hty, hwhole ty hty⟩

/-- A name of a whole-number variable stands for a cell. -/
theorem Held.cell (h : Held types sight s store m) {name : String} {ty : MiniC.Ty}
    (hty : sight.resolve? types name = some ty) (hwhole : ty.isInteger = true) :
    ∃ value, (cells types).cell store (.named name) = some (ty, value) := by
  have hfind := find?_sightOf store name
  rw [h.sight] at hfind
  unfold Sight.resolve? at hty
  rw [hfind] at hty
  show ∃ value, ((store.find? name).orElse fun _ => (types.lookup name).bind fun ty =>
    if ty.isInteger then some (ty, some (store.globals name)) else none) = some (ty, value)
  cases hfound : store.find? name with
  | some v =>
      obtain ⟨ty', value⟩ := v
      rw [hfound] at hty
      cases hty
      exact ⟨value, rfl⟩
  | none =>
      rw [hfound] at hty
      have hty : types.lookup name = some ty := hty
      refine ⟨some (store.globals name), ?_⟩
      show (types.lookup name).bind _ = _
      rw [hty]
      exact if_pos hwhole

-- ============================================================== accesses

/-- A definition without a result stops the run. -/
theorem define_stops (hs : Live s.builder) (hfn : Within fn t) {definition : Definition}
    {value : IR.Value} (h : define definition s = .ok (value, t))
    (hty : definition.ty.isInteger = true) {fault : Fault}
    (hcompute : m.compute definition = .error fault) {rest : List Instr}
    (hrest : Ahead s.builder.function.blocks fn.blocks rest) : Stops fn rest m fault := by
  obtain ⟨rfl, rfl⟩ := define_ok.1 h
  have hlive : Live s.builder.freshTemp.2 := ⟨hs.started, hs.running⟩
  obtain ⟨rest', hrest'⟩ := hfn
  rw [emit_live hlive] at hrest'
  rw [hrest.functional (hrest'.of_addToLast hs.started)]
  refine stops_exec rfl ?_
  show (if definition.ty.isInteger then _ <$> m.compute definition else .error .stuck) = _
  rw [if_pos hty, hcompute]
  rfl

variable (rounds) in
/-- Loading a variable's slot reads the variable. -/
theorem fetch_simulates (hglobals : GlobalSlots types globals) (hs : Live s.builder)
    (hheld : Held types sight s store m) (hfn : Within fn t) {name : String} {slot : Slot}
    {ty : MiniC.Ty} {old : Option Int} (hslot : ((s.scopes.findSome? fun scope =>
      scope.lookup name).orElse fun _ => globals.lookup name) = some slot)
    (hcell : (cells types).cell store (.named name) = some (ty, old)) {value : IR.Value}
    (h : load slot s = .ok (value, t)) :
    Simulates fn rounds s m t (fetch (cells types) (.named name) store) fun v store' m' =>
      Held types sight t store' m' ∧ Denotes t m' value v
        ∧ fetch (cells types) (.named name) store' = .ok (v, store') := by
  obtain ⟨hrepr, hrange, hload⟩ := load_variable hheld.laid hheld.agrees hglobals hslot hcell
  cases old with
  | none =>
      rw [fetch_empty hcell]
      intro rest hrest
      exact define_stops hs hfn h hrepr.isInteger hload hrest
  | some n =>
      rw [fetch_cell hcell]
      obtain ⟨m', hpass, hsame, hvalue⟩ :=
        define_passes fn (v := (ty, n)) hs h hload hrepr (hrange n rfl)
      exact ⟨m', hpass, hheld.same hpass hsame, hvalue, fetch_cell hcell⟩

variable (fn rounds) in
/-- Storing a value into a variable's slot assigns it. -/
theorem assign_simulates (hglobals : GlobalSlots types globals) (hs : Live s.builder)
    (hheld : Held types sight s store m) {name : String} {slot : Slot}
    {ty : MiniC.Ty} {old : Option Int} (hslot : ((s.scopes.findSome? fun scope =>
      scope.lookup name).orElse fun _ => globals.lookup name) = some slot)
    (hcell : (cells types).cell store (.named name) = some (ty, old)) {value result : IR.Value}
    {v : Source.Value} (hv : Denotes s m value v)
    (h : Lowering.store value slot s = .ok (result, t)) :
    Simulates fn rounds s m t (Source.assign (cells types) false (.named name) v store)
      fun w store' m' => Held types sight t store' m' ∧ Denotes t m' result w := by
  obtain ⟨hrepr, hput⟩ := put_variable hheld.laid hheld.agrees hglobals hslot hcell
  unfold Lowering.store at h
  simp only [bind_ok, pure_ok] at h
  obtain ⟨converted, u, hconvert, _, w, hemit, rfl, rfl⟩ := h
  obtain ⟨m₁, hpass, hsame, hconverted⟩ := convert_passes fn hs hv hrepr hconvert
  have hrange := hconverted.inRange
  have hpass' : Passes fn u m₁ w (m₁.put slot (Source.convert false v.1 ty v.2)) := by
    refine emit_passes hpass.live rfl (Memory.exec_store hrepr.isInteger hconverted.read) ?_ hemit
    intro i _
    unfold Memory.put
    split <;> rfl
  have hheld₁ := hheld.same hpass hsame
  rw [assign_cell hcell]
  refine ⟨_, hpass.trans hpass', ⟨hpass'.adds.laid hheld₁.laid, ?_, ?_⟩, hconverted.pass hpass'⟩
  · have hslot₁ : ((u.scopes.findSome? fun scope => scope.lookup name).orElse
        fun _ => globals.lookup name) = some slot := by
      rw [hpass.adds.scopes]
      exact hslot
    obtain ⟨-, hput₁⟩ := put_variable hheld₁.laid hheld₁.agrees hglobals hslot₁ hcell
    rw [hpass'.adds.scopes]
    exact hput₁ _ hrange
  · rw [← hheld.sight]
    exact sightOf_set store name _

-- ============================================================ operations

variable (rounds) in
/-- An operation does what the source says. -/
theorem operate_simulates (hs : Live s.builder) (hheld : Held types sight s store m)
    (hfn : Within fn t) {op : Arith} {lhs rhs value : IR.Value} {a b : Source.Value}
    (ha : Denotes s m lhs a) (hb : Denotes s m rhs b)
    (h : arith op lhs rhs s = .ok (value, t)) :
    Simulates fn rounds s m t ((liftM (operate false op a b) : Run Store Source.Value) store)
      fun v store' m' => Held types sight t store' m' ∧ Denotes t m' value v := by
  cases hrun : operate false op a b with
  | ok v =>
      obtain ⟨m', hpass, hsame, hvalue⟩ := arith_passes fn hs ha hb hrun h
      exact ⟨m', hpass, hheld.same hpass hsame, hvalue⟩
  | error stop =>
      unfold arith at h
      obtain ⟨⟨repr, l, r⟩, u, hmeet, hdefine⟩ := bind_ok.1 h
      obtain ⟨m₁, hpass, -, hty, hleft, hright⟩ := meet_passes fn hs ha hb hmeet
      have hwide := promote_whole ha.represents.whole hb.represents.whole
      rw [operate_eq] at hrun
      cases harith : Source.arith op (Ty.promote a.1 b.1)
          (Source.convert false a.1 (Ty.promote a.1 b.1) a.2)
          (Source.convert false b.1 (Ty.promote a.1 b.1) b.2) with
      | ok n =>
          rw [harith] at hrun
          cases hrun
      | error stop' =>
          rw [harith] at hrun
          cases hrun
          obtain rfl := arith_stops harith
          have hcompute : m₁.compute (.arith op repr l r) = .error .divide := by
            rw [Memory.compute_arith hleft.read hright.read, arith_eq hty hwide, harith]
            rfl
          intro rest hrest
          obtain ⟨rest', hrest'⟩ := (define_additive _).within hpass.live.started hdefine hfn
          have hstops := define_stops hpass.live hfn hdefine hty.isInteger hcompute hrest'
          exact (hpass.leads rest rest' hrest hrest').stops hstops

/-- A comparison does what the source says. -/
theorem compare_simulates (hs : Live s.builder) (hheld : Held types sight s store m)
    {op : Comparison} {lhs rhs value : IR.Value} {a b : Source.Value}
    (ha : Denotes s m lhs a) (hb : Denotes s m rhs b)
    (h : compare op lhs rhs s = .ok (value, t)) :
    Simulates fn rounds s m t ((pure (Source.compare false op a b) : Run Store Source.Value) store)
      fun v store' m' => Held types sight t store' m' ∧ Denotes t m' value v := by
  obtain ⟨m', hpass, hsame, hvalue⟩ := compare_passes fn hs ha hb h
  exact ⟨m', hpass, hheld.same hpass hsame, hvalue⟩

/-- Operands meet an operand of their own type as they meet an int. -/
theorem promote_self (ty : MiniC.Ty) : Ty.promote ty ty = Ty.promote ty .int := by
  cases ty <;> rfl

/-- A sign in front is an operation on zero. -/
theorem signed_operate {v : Source.Value} (hty : v.1.isInteger = true) (hv : InRange v.1 v.2)
    (negative : Bool) :
    operate false (if negative then .sub else .add) (v.1, 0) v
      = .ok (Source.signed false negative v) := by
  have hzero : Source.convert false v.1 (Ty.promote v.1 .int) 0 = 0 := by
    rcases promote_whole hty (b := .int) rfl with h | h <;> rw [h] <;> rfl
  have hkeep := convert_promote false hty (b := .int) rfl hv
  have hwrap := (convert_inRange false v.1 (Ty.promote v.1 .int) v.2).wrap
    (by rcases promote_whole hty (b := .int) rfl with h | h <;> rw [h] <;> rfl)
  rw [operate_eq, promote_self v.1, hzero]
  unfold Source.signed Source.arith
  cases negative with
  | false =>
      show Except.ok (_, Integer.wrap _ (0 + _)) = Except.ok (_, _)
      rw [Int.zero_add, hwrap]
      rfl
  | true =>
      show Except.ok (_, Integer.wrap _ (0 - _)) = Except.ok (_, _)
      rw [Int.zero_sub]
      rfl

/-- A step by one is an operation on one of the same type. -/
theorem operate_one {op : Arith} {v : Source.Value} (hty : v.1.isInteger = true) :
    operate false op v (v.1, 1) = operate false op v (.int, 1) := by
  have hone : ∀ ty : MiniC.Ty, ty.isInteger = true →
      Source.convert false ty (Ty.promote v.1 .int) 1 = 1 := by
    intro ty _
    rcases promote_whole hty (b := .int) rfl with h | h <;> rw [h] <;> rfl
  rw [operate_eq, operate_eq, promote_self v.1, hone v.1 hty, hone .int rfl]

/-- Whether a value is zero, as the source says. -/
theorem complement_simulates (hs : Live s.builder) (hheld : Held types sight s store m)
    {value result : IR.Value} {v : Source.Value} (hv : Denotes s m value v)
    (h : define (.compare .eq value (.constant value.ty "0")) s = .ok (result, t)) :
    Simulates fn rounds s m t ((pure (truth (v.2 = 0)) : Run Store Source.Value) store)
      fun w store' m' => Held types sight t store' m' ∧ Denotes t m' result w := by
  have hsigned := signed_eq_zero value.ty v.2
  have hcompute : m.compute (.compare .eq value (.constant value.ty "0"))
      = .ok (truth (v.2 = 0)).2 := by
    rw [Memory.compute_compare hv.read hv.zero.read]
    refine congrArg Except.ok ?_
    show (if (value.ty.signed v.2 == value.ty.signed 0) then (1 : Int) else 0)
      = if decide (v.2 = 0) then 1 else 0
    by_cases hn : v.2 = 0
    · rw [if_pos (by rw [beq_iff_eq]; exact hsigned.2 hn), if_pos (decide_eq_true hn)]
    · rw [if_neg (by rw [beq_iff_eq]; exact fun h => hn (hsigned.1 h)),
        if_neg (by simpa using hn)]
  obtain ⟨m', hpass, hsame, hresult⟩ :=
    define_passes fn (v := truth (v.2 = 0)) hs h hcompute Represents.bool (truth_inRange _)
  exact ⟨m', hpass, hheld.same hpass hsame, hresult⟩

-- =========================================================== expressions

/-- Whether the code of an expression does what the source says. -/
def Lowers (fn : Function) (rounds : Nat) (globals : List (String × Slot))
    (types : List (String × MiniC.Ty)) (sight : Sight) (e : MiniC.Expr) : Prop :=
  ∀ ⦃s m store value t⦄, Live s.builder → Held types sight s store m → Within fn t →
    expr globals e s = .ok (value, t) →
    Simulates fn rounds s m t (eval (cells types) false e store) fun v store' m' =>
      Held types sight t store' m' ∧ Denotes t m' value v

/-- A literal is its own value. -/
theorem literal_simulates (hs : Live s.builder) (hheld : Held types sight s store m)
    {e : MiniC.Expr} {lit : NumberLiteral} {value : IR.Value} (hfits : Fits lit)
    (hlit : e.evaluate = .ok lit) (h : literal lit = .ok value) :
    Simulates fn rounds s m s ((liftM (folded e) : Run Store Source.Value) store)
      fun v store' m' => Held types sight s store' m' ∧ Denotes s m' value v := by
  obtain ⟨n, hn, hw, hfold⟩ := folded_fits hfits hlit
  have hfloat : lit.ty.isFloating = false := by
    have hwhole := hw.isInteger
    cases hl : lit.ty <;> rw [hl] at hwhole <;> first | rfl | cases hwhole
  unfold literal at h
  split at h
  · rename_i repr hrepr
    cases h
    rw [hfold]
    exact ⟨m, .refl fn m hs, hheld, denotes_constant (.of_ofSource? hw.isInteger hrepr)
      (text_of_toInt hfloat hn) hw.inRange⟩
  · cases h

/-- What an assignment writes to is a name's storage. -/
theorem target_ok {e : MiniC.Expr} {slot : Slot} (h : target globals e s = .ok (slot, t)) :
    ∃ i, e = .ident i ∧ t = s ∧ ((s.scopes.findSome? fun scope => scope.lookup i.name).orElse
      fun _ => globals.lookup i.name) = some slot := by
  cases e with
  | ident i =>
      obtain ⟨hslot, rfl⟩ := storage_ok.1 h
      exact ⟨i, rfl, rfl, hslot⟩
  | _ => exact (fail_ok.1 h).elim

/-- What is stepped is the slot that a name stands for. -/
theorem stepTarget_ok {e : MiniC.Expr} {slot : Slot} (h : stepTarget globals e s = .ok (slot, t)) :
    ∃ i, e = .ident i ∧ t = s ∧ ((s.scopes.findSome? fun scope => scope.lookup i.name).orElse
      fun _ => globals.lookup i.name) = some slot := by
  cases e with
  | ident i =>
      obtain ⟨hslot, rfl⟩ := storage_ok.1 h
      exact ⟨i, rfl, rfl, hslot⟩
  | _ => exact (fail_ok.1 h).elim

/-- An identifier is loaded from the slot it stands for. -/
theorem ident_ok {i : Ident} {value : IR.Value} (h : expr globals (.ident i) s = .ok (value, t)) :
    ∃ slot, ((s.scopes.findSome? fun scope => scope.lookup i.name).orElse
      fun _ => globals.lookup i.name) = some slot ∧ load slot s = .ok (value, t) := by
  unfold expr at h
  obtain ⟨slot, u, hstorage, hload⟩ := bind_ok.1 h
  obtain ⟨hslot, rfl⟩ := storage_ok.1 hstorage
  exact ⟨slot, hslot, hload⟩

/-- Loading from the slot that it stands for is lowering the identifier. -/
theorem ident_of_load {i : Ident} {slot : Slot} {value : IR.Value}
    (hslot : ((s.scopes.findSome? fun scope => scope.lookup i.name).orElse
      fun _ => globals.lookup i.name) = some slot) (h : load slot s = .ok (value, t)) :
    expr globals (.ident i) s = .ok (value, t) := by
  unfold expr
  exact bind_ok.2 ⟨slot, s, storage_ok.2 ⟨hslot, rfl⟩, h⟩

variable (rounds) in
/-- A variable is read, and would be read again with the same value. -/
theorem ident_simulates (hglobals : GlobalSlots types globals) {i : Ident}
    (hwhole : (MiniC.Expr.ident i).Integral types sight) (hs : Live s.builder)
    (hheld : Held types sight s store m) (hfn : Within fn t) {value : IR.Value}
    (h : expr globals (.ident i) s = .ok (value, t)) :
    Simulates fn rounds s m t (eval (cells types) false (.ident i) store) fun v store' m' =>
      (Held types sight t store' m' ∧ Denotes t m' value v)
        ∧ eval (cells types) false (.ident i) store' = .ok (v, store') := by
  obtain ⟨slot, hslot, hload⟩ := ident_ok h
  obtain ⟨ty, hty, hinteger⟩ := hheld.resolves hglobals hwhole hslot
  obtain ⟨old, hcell⟩ := hheld.cell hty hinteger
  rw [eval_ref (r := .named i.name) rfl]
  have hfetch := fetch_simulates rounds hglobals hs hheld hfn hslot hcell hload
  unfold Simulates at hfetch ⊢
  split at hfetch
  · obtain ⟨m', hpass, hheld', hvalue, hagain⟩ := hfetch
    exact ⟨m', hpass, ⟨hheld', hvalue⟩, hagain⟩
  · exact hfetch

/-- Two expressions are the same identifier if they are spelled so. -/
theorem sameIdent_ok {lhs rhs : MiniC.Expr} (h : Expr.sameIdent lhs rhs = true) :
    ∃ i j : Ident, lhs = .ident i ∧ rhs = .ident j ∧ j.name = i.name := by
  unfold Expr.sameIdent at h
  split at h
  · exact ⟨_, _, rfl, rfl, (eq_of_beq h).symm⟩
  · cases h

/-- The right operand is lowered before the operation, wherever it comes
from. -/
theorem right_ok {operandsMatch : Bool} {left : IR.Value} {rhs : MiniC.Expr}
    {next : IR.Value → Lower IR.Value} {r : IR.Value × State}
    (h : (do
      let right ← if operandsMatch then pure left else expr globals rhs
      next right : Lower IR.Value) s = .ok r) :
    ∃ right u, (if operandsMatch then pure left else expr globals rhs : Lower IR.Value) s
        = .ok (right, u) ∧ next right u = .ok r := by
  cases operandsMatch with
  | true => exact ⟨left, s, rfl, h⟩
  | false => exact bind_ok.1 h

/-- Both operands, of which the same variable is loaded once. -/
theorem operands_simulates (hglobals : GlobalSlots types globals) {lhs rhs : MiniC.Expr}
    {operandsMatch : Bool} (hmatch : operandsMatch = Expr.sameIdent lhs rhs)
    (hwhole : lhs.Integral types sight) (ihl : Lowers fn rounds globals types sight lhs)
    (ihr : Lowers fn rounds globals types sight rhs) (hs : Live s.builder)
    (hheld : Held types sight s store m) (hfn : Within fn u) {left right : IR.Value}
    (hl : expr globals lhs s = .ok (left, t))
    (hr : (if operandsMatch then pure left else expr globals rhs : Lower IR.Value) t
      = .ok (right, u)) :
    Simulates fn rounds s m u ((do
        let a ← eval (cells types) false lhs
        let b ← eval (cells types) false rhs
        return (a, b) : Run Store (Source.Value × Source.Value)) store) fun ab store' m' =>
      Held types sight u store' m' ∧ Denotes u m' left ab.1 ∧ Denotes u m' right ab.2 := by
  cases hom : operandsMatch with
  | true =>
      rw [hom, if_pos rfl] at hr
      obtain ⟨rfl, rfl⟩ := pure_ok.1 hr
      obtain ⟨i, j, rfl, rfl, hname⟩ := sameIdent_ok (hmatch.symm.trans hom)
      refine (ident_simulates rounds hglobals hwhole hs hheld hfn hl).bind hfn ?_
      rintro a store' m' hpass ⟨⟨hheld', hleft⟩, hagain⟩
      have hsame : eval (cells types) false (.ident j) store' = .ok (a, store') := by
        rw [← hagain, eval_ref (r := .named j.name) rfl, eval_ref (r := .named i.name) rfl, hname]
      have hright : Simulates fn rounds t m' t (eval (cells types) false (.ident j) store')
          fun b store'' m'' => b = a ∧ store'' = store' ∧ m'' = m' := by
        rw [hsame]
        exact ⟨m', .refl fn m' hpass.live, rfl, rfl, rfl⟩
      refine hright.bind hfn ?_
      rintro b _ _ hpass' ⟨rfl, rfl, rfl⟩
      exact Simulates.pure hpass'.live ⟨hheld', hleft, hleft⟩
  | false =>
      rw [hom, if_neg Bool.false_ne_true] at hr
      have ht := (expr_additive globals lhs).started hs.started hl
      have hfn' := (expr_additive globals rhs).within ht hr hfn
      refine (ihl hs hheld hfn' hl).bind hfn' ?_
      rintro a store' m' hpass ⟨hheld', hleft⟩
      refine (ihr hpass.live hheld' hfn hr).bind hfn ?_
      rintro b store'' m'' hpass' ⟨hheld'', hright⟩
      exact Simulates.pure hpass'.live ⟨hheld'', hleft.pass hpass', hright⟩

/-- An assignment computes the value and stores it. -/
theorem assignment_lowers (hglobals : GlobalSlots types globals) {lhs rhs : MiniC.Expr}
    (hwhole : lhs.Integral types sight) (ihr : Lowers fn rounds globals types sight rhs)
    (operandsMatch : Bool) (pos : Position) :
    Lowers fn rounds globals types sight (.binary .assign lhs rhs false operandsMatch pos) := by
  intro s m store result t hs hheld hfn h
  unfold expr at h
  rw [if_neg Bool.false_ne_true] at h
  simp only [bind_ok] at h
  obtain ⟨slot, _, htarget, value, u, hvalue, hstore⟩ := h
  obtain ⟨i, rfl, rfl, hslot⟩ := target_ok htarget
  obtain ⟨ty, hty, hinteger⟩ := hheld.resolves hglobals hwhole hslot
  have hu := (expr_additive globals rhs).started hs.started hvalue
  have hfn' := (store_additive _ _).within hu hstore hfn
  rw [eval_assign (r := .named i.name) rfl]
  refine (ihr hs hheld hfn' hvalue).bind hfn' ?_
  rintro v store' m' hpass ⟨hheld', hdenotes⟩
  obtain ⟨old, hcell⟩ := hheld'.cell hty hinteger
  rw [← hpass.adds.scopes] at hslot
  exact assign_simulates fn rounds hglobals hpass.live hheld' hslot hcell hdenotes hstore

/-- A compound assignment computes with the old value and stores the new one. -/
theorem compound_lowers (hglobals : GlobalSlots types globals) {op : Arith}
    {lhs rhs : MiniC.Expr} {operandsMatch : Bool}
    (hmatch : operandsMatch = Expr.sameIdent lhs rhs) (hwhole : lhs.Integral types sight)
    (ihl : Lowers fn rounds globals types sight lhs)
    (ihr : Lowers fn rounds globals types sight rhs) (pos : Position) :
    Lowers fn rounds globals types sight
      (.binary (.compound op) lhs rhs false operandsMatch pos) := by
  intro s m store result t hs hheld hfn h
  unfold expr at h
  rw [if_neg Bool.false_ne_true] at h
  obtain ⟨slot, _, htarget, h⟩ := bind_ok.1 h
  obtain ⟨current, u, hload, h⟩ := bind_ok.1 h
  obtain ⟨operand, w, hoperand, h⟩ := right_ok h
  obtain ⟨value, x, harith, hstore⟩ := bind_ok.1 h
  obtain ⟨i, rfl, rfl, hslot⟩ := target_ok htarget
  obtain ⟨ty, hty, hinteger⟩ := hheld.resolves hglobals hwhole hslot
  have hl := ident_of_load hslot hload
  have hu := (expr_additive globals (.ident i)).started hs.started hl
  have hw : w.Started := Additive.started
    (Additive.ite (Additive.pure current) (expr_additive globals rhs)) hu hoperand
  have hx := (arith_additive op current operand).started hw harith
  have hfnx := (store_additive _ _).within hx hstore hfn
  have hfnw := (arith_additive op current operand).within hw harith hfnx
  have heval : eval (cells types) false
      (.binary (.compound op) (.ident i) rhs false operandsMatch pos) = (do
        let ab ← (do
          let a ← eval (cells types) false (.ident i)
          let b ← eval (cells types) false rhs
          return (a, b) : Run Store (Source.Value × Source.Value))
        let v ← operate false op ab.1 ab.2
        assign (cells types) false (.named i.name) v) := by
    rw [eval_compound (r := .named i.name) rfl]
    simp only [bind_assoc, pure_bind]
  rw [heval]
  refine (operands_simulates hglobals hmatch hwhole ihl ihr hs hheld hfnw hl hoperand).bind
    hfnw ?_
  rintro ⟨a, b⟩ store' m' hpass ⟨hheld', hleft, hright⟩
  refine (operate_simulates rounds hpass.live hheld' hfnx hleft hright harith).bind hfnx ?_
  rintro v store'' m'' hpass' ⟨hheld'', hvalue⟩
  obtain ⟨old, hcell⟩ := hheld''.cell hty hinteger
  rw [← (hpass.trans hpass').adds.scopes] at hslot
  exact assign_simulates fn rounds hglobals hpass'.live hheld'' hslot hcell hvalue hstore

/-- What an operation on two operands does once they are lowered. -/
theorem binary_lowers (hglobals : GlobalSlots types globals) {lhs rhs e : MiniC.Expr}
    {operandsMatch : Bool} (hmatch : operandsMatch = Expr.sameIdent lhs rhs)
    (hwhole : lhs.Integral types sight) (ihl : Lowers fn rounds globals types sight lhs)
    (ihr : Lowers fn rounds globals types sight rhs)
    {op : IR.Value → IR.Value → Lower IR.Value} (hadditive : ∀ l r, Additive (op l r))
    (meaning : Source.Value → Source.Value → Run Store Source.Value)
    (hop : ∀ ⦃s m store left right a b value t⦄, Live s.builder → Held types sight s store m →
      Within fn t → Denotes s m left a → Denotes s m right b →
      op left right s = .ok (value, t) →
      Simulates fn rounds s m t (meaning a b store) fun v store' m' =>
        Held types sight t store' m' ∧ Denotes t m' value v)
    (hexpr : expr globals e = do
      let left ← expr globals lhs
      let right ← if operandsMatch then pure left else expr globals rhs
      op left right)
    (heval : eval (cells types) false e = do
      let a ← eval (cells types) false lhs
      let b ← eval (cells types) false rhs
      meaning a b) :
    Lowers fn rounds globals types sight e := by
  intro s m store result t hs hheld hfn h
  rw [hexpr] at h
  obtain ⟨left, u, hl, h⟩ := bind_ok.1 h
  obtain ⟨right, w, hr, hresult⟩ := right_ok h
  have hu := (expr_additive globals lhs).started hs.started hl
  have hw : w.Started := Additive.started
    (Additive.ite (Additive.pure left) (expr_additive globals rhs)) hu hr
  have hfnw := (hadditive left right).within hw hresult hfn
  have hpair : eval (cells types) false e = (do
      let ab ← (do
        let a ← eval (cells types) false lhs
        let b ← eval (cells types) false rhs
        return (a, b) : Run Store (Source.Value × Source.Value))
      meaning ab.1 ab.2) := by
    rw [heval]
    simp only [bind_assoc, pure_bind]
  rw [hpair]
  refine (operands_simulates hglobals hmatch hwhole ihl ihr hs hheld hfnw hl hr).bind hfnw ?_
  rintro ⟨a, b⟩ store' m' hpass ⟨hheld', hleft, hright⟩
  exact hop hpass.live hheld' hfn hleft hright hresult

/-- A sign is an operation on zero and the value. -/
theorem sign_lowers {operand e : MiniC.Expr} (negative : Bool)
    (ih : Lowers fn rounds globals types sight operand)
    (hexpr : expr globals e = do
      let value ← expr globals operand
      arith (if negative then .sub else .add) (.constant value.ty "0") value)
    (heval : eval (cells types) false e
      = Source.signed false negative <$> eval (cells types) false operand) :
    Lowers fn rounds globals types sight e := by
  intro s m store result t hs hheld hfn h
  rw [hexpr] at h
  obtain ⟨value, u, hvalue, harith⟩ := bind_ok.1 h
  have hu := (expr_additive globals operand).started hs.started hvalue
  have hfn' := (arith_additive _ _ _).within hu harith hfn
  rw [heval, map_eq_pure_bind]
  refine (ih hs hheld hfn' hvalue).bind hfn' ?_
  rintro v store' m' hpass ⟨hheld', hdenotes⟩
  have hsim := operate_simulates rounds hpass.live hheld' hfn hdenotes.zero hdenotes harith
  rw [signed_operate hdenotes.represents.whole hdenotes.inRange] at hsim
  exact hsim

/-- A negation asks whether the value is zero. -/
theorem not_lowers {operand : MiniC.Expr} (ih : Lowers fn rounds globals types sight operand)
    (fixity : Fixity) (pos : Position) :
    Lowers fn rounds globals types sight (.unary .not fixity operand pos) := by
  intro s m store result t hs hheld hfn h
  obtain ⟨value, u, hvalue, hdefine⟩ := bind_ok.1 h
  have hu := (expr_additive globals operand).started hs.started hvalue
  have hfn' := (define_additive _).within hu hdefine hfn
  show Simulates fn rounds s m t
    (((fun v : Source.Value => truth (v.2 = 0)) <$> eval (cells types) false operand) store) _
  rw [map_eq_pure_bind]
  refine (ih hs hheld hfn' hvalue).bind hfn' ?_
  rintro v store' m' hpass ⟨hheld', hdenotes⟩
  exact complement_simulates hpass.live hheld' hdenotes hdefine

/-- A step loads the variable, adds or subtracts one and stores; it yields the old
value or the new one. -/
theorem step_lowers (hglobals : GlobalSlots types globals) {op : Arith} {fixity : Fixity}
    (operand : MiniC.Expr) {e : MiniC.Expr} (hwhole : operand.Integral types sight)
    (hexpr : expr globals e = do
      let slot ← stepTarget globals operand
      step op fixity slot)
    (heval : eval (cells types) false e = eval (cells types) false operand
      >>= fun old => stepped (cells types) false op fixity operand old) :
    Lowers fn rounds globals types sight e := by
  intro s m store result t hs hheld hfn h
  rw [hexpr] at h
  obtain ⟨slot, _, htarget, hstep⟩ := bind_ok.1 h
  obtain ⟨i, rfl, rfl, hslot⟩ := stepTarget_ok htarget
  obtain ⟨ty, hty, hinteger⟩ := hheld.resolves hglobals hwhole hslot
  obtain ⟨before, hcell⟩ := hheld.cell hty hinteger
  unfold step at hstep
  simp only [bind_ok] at hstep
  obtain ⟨old, u, hload, next, w, harith, new, x, hstore, hresult⟩ := hstep
  obtain ⟨rfl, hanswer⟩ : x = t ∧ result = if fixity = .before then new else old := by
    cases fixity with
    | before =>
        obtain ⟨rfl, rfl⟩ := pure_ok.1 hresult
        exact ⟨rfl, rfl⟩
    | after =>
        obtain ⟨rfl, rfl⟩ := pure_ok.1 hresult
        exact ⟨rfl, rfl⟩
  have hu := (define_additive _).started hs.started hload
  have hw := (arith_additive _ _ _).started hu harith
  have hfnw := (store_additive _ _).within hw hstore hfn
  have hfnu := (arith_additive _ _ _).within hu harith hfnw
  rw [heval, stepped_ref (r := .named i.name) rfl]
  refine (fetch_simulates rounds hglobals hs hheld hfnu hslot hcell hload).bind hfnu ?_
  rintro v store' m' hpass ⟨hheld', hold, -⟩
  have hone : Denotes u m' (.constant old.ty "1") (v.1, 1) :=
    denotes_constant hold.represents (by decide +kernel) hold.represents.one
  have hoperate := operate_simulates rounds hpass.live hheld' hfnw hold hone harith
  rw [operate_one hold.represents.whole] at hoperate
  have hassign : Simulates fn rounds u m' x
      (((liftM (operate false op v (.int, 1)) : Run Store Source.Value)
        >>= assign (cells types) false (.named i.name)) store') fun w store'' m'' =>
          Held types sight x store'' m'' ∧ Denotes x m'' new w ∧ Denotes x m'' old v := by
    refine hoperate.bind hfnw ?_
    rintro k store'' m'' hpass' ⟨hheld'', hnext⟩
    obtain ⟨before', hcell'⟩ := hheld''.cell hty hinteger
    rw [← (hpass.trans hpass').adds.scopes] at hslot
    have hsim := assign_simulates fn rounds hglobals hpass'.live hheld'' hslot
      hcell' hnext hstore
    unfold Simulates at hsim ⊢
    split at hsim
    · obtain ⟨m₃, hpass'', hheld₃, hnew⟩ := hsim
      exact ⟨m₃, hpass'', hheld₃, hnew, hold.pass (hpass'.trans hpass'')⟩
    · exact hsim
  refine hassign.map hfn ?_
  rintro w store'' m'' - ⟨hheld'', hnew, hold'⟩
  refine ⟨hheld'', ?_⟩
  rw [hanswer]
  split
  · exact hnew
  · exact hold'

/-- The code of an expression over whole numbers does what the source
says. -/
theorem expr_simulates (hglobals : GlobalSlots types globals) {e : MiniC.Expr}
    (hcombined : e.Combined) (hwhole : e.Integral types sight) :
    Lowers fn rounds globals types sight e := by
  induction e with
  | ident i =>
      intro s m store value t hs hheld hfn h
      have hsim := ident_simulates rounds hglobals hwhole hs hheld hfn h
      unfold Simulates at hsim ⊢
      split at hsim
      · obtain ⟨m', hpass, hpost, -⟩ := hsim
        exact ⟨m', hpass, hpost⟩
      · exact hsim
  | number lit =>
      intro s m store value t hs hheld hfn h
      obtain ⟨hliteral, rfl⟩ := lift_ok.1 h
      exact literal_simulates hs hheld hwhole rfl hliteral
  | string lit => exact hwhole.elim
  | member object accessor field pos =>
      intro s m store value t hs hheld hfn h
      exact (fail_ok.1 h).elim
  | binary op lhs rhs constant operandsMatch pos ihl ihr =>
      obtain ⟨-, hmatch, hleft, hright⟩ := hcombined
      cases constant with
      | true =>
          intro s m store value t hs hheld hfn h
          unfold expr at h
          rw [if_pos rfl] at h
          simp only [bind_ok, lift_ok] at h
          obtain ⟨lit, _, ⟨hlit, rfl⟩, hliteral, rfl⟩ := h
          have hlit := liftEval_ok.1 hlit
          rw [eval_constant rfl]
          exact literal_simulates hs hheld (hwhole lit hlit) hlit hliteral
      | false =>
          obtain ⟨hwholeLeft, hwholeRight⟩ := hwhole
          replace ihl := ihl hleft hwholeLeft
          replace ihr := ihr hright hwholeRight
          cases op with
          | assign => exact assignment_lowers hglobals hwholeLeft ihr operandsMatch pos
          | compound op => exact compound_lowers hglobals hmatch hwholeLeft ihl ihr pos
          | arith op =>
              refine binary_lowers hglobals hmatch hwholeLeft ihl ihr (arith_additive op)
                (fun a b => liftM (operate false op a b)) ?_ rfl rfl
              intro s m store left right a b value t hs hheld hfn ha hb h
              exact operate_simulates rounds hs hheld hfn ha hb h
          | compare op =>
              refine binary_lowers hglobals hmatch hwholeLeft ihl ihr (compare_additive op)
                (fun a b => pure (Source.compare false op a b)) ?_ rfl rfl
              intro s m store left right a b value t hs hheld hfn ha hb h
              exact compare_simulates hs hheld ha hb h
  | unary op fixity operand pos ih =>
      replace ih := ih hcombined hwhole
      have hwhole : operand.Integral types sight := hwhole
      cases op with
      | plus => exact sign_lowers false ih rfl rfl
      | minus => exact sign_lowers true ih rfl rfl
      | not => exact not_lowers ih fixity pos
      | incr => exact step_lowers hglobals operand hwhole rfl rfl
      | decr => exact step_lowers hglobals operand hwhole rfl rfl

end MiniC.Lowering
