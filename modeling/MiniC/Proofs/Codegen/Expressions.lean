/-
Generated expressions compute their values. For an expression over whole
numbers, the code that `eval` emits, run from a machine whose truth values
are 0 or 1 and whose pushes have room, leaves the expression's value in the
low bytes of rax and its assignments in the variables, and changes nothing
else (`eval_exec`).

# The induction

The induction is on the expression (`eval_evaluates`); what it assumes of operands is
`Evaluates`, and every helper of `eval` has one lemma that says what its code simulates.
Since a helper takes the runs of its operands as parameters, its lemma does not mention
the recursion, and the induction only chooses between helpers. The conclusion of a
helper's lemma is a simulation of the source's equation for that operator, so the steps
of the proof are the steps of the source: left operand, right operand, conversion,
operation.

# Assignments

An assignment leaves its value in the place of its target and nothing in rax
(`Assigns`); where the value of the assignment is wanted it is loaded again. That gives
the value that was stored, already converted, which is what the source says an
assignment is worth.

# What is not touched

That nothing else changes is stated of bytes: a byte of the stack that belongs to no
variable is below the stack pointer or unchanged (`VariableByte`). The example is an
expression that assigns to a char and adds it to a long, with one push.
-/
import MiniC.Proofs.Codegen.Operands

namespace MiniC.Codegen

open Asm Steps Machine Machine.Machine Source

variable {env : Env} {f : Frame}

-- =========================================================== operations

/-- Arithmetic on loaded operands. -/
theorem Loaded.arith {left right : Ty} {o : Operand} {a b : Value} {m : Machine} (op : Arith)
    (hleft : left.isInteger = true) (hright : right.isInteger = true)
    (hform : RightForm (wordOf (Ty.promote left right)) o)
    (h : Loaded left right (Ty.promote left right) o a b m) :
    Simulates env f [] (arithCode op (wordOf (Ty.promote left right)) o) m
      (liftM (Source.operate true op a b) : Run Valuation Value) fun v m' =>
        v.1 = Ty.promote left right ∧ InRange (Ty.promote left right) v.2
          ∧ low (wordOf (Ty.promote left right)) (m'.regs .rax) = v.2 := by
  obtain ⟨⟨rfl, hrangeA⟩, ⟨rfl, hrangeB⟩, hrax, hoperand⟩ := h
  have hty := promote_whole hleft hright
  rcases arithCode_exec op hty hform hrax hoperand with
    ⟨n, m', harith, hexec, hstill, hlow⟩ | ⟨harith, hexec⟩
  · refine Simulates.pure (a := (Ty.promote a.1 b.1, n)) hexec hstill ?_
      ⟨rfl, arith_inRange hty harith, hlow⟩
    rw [operate_eq, harith]
    rfl
  · refine Simulates.divide hexec ?_
    rw [operate_eq, harith]
    rfl

/-- An operation evaluates its operands and operates on their values. -/
theorem evalArith_simulates {op : Arith} {lhs rhs : Expr} {runLeft runRight : Gen (Code × Ty)}
    {s t : State} {ty : Ty} {code : Code} (hleft : Plain env f lhs)
    (hright : Plain env f rhs) (hrunLeft : Evaluates env f lhs runLeft)
    (hrunRight : Evaluates env f rhs runRight) (hs : s.frame.scopes = f.scopes)
    (h : evalArith env op lhs rhs runLeft runRight s = .ok ((code, ty), t)) :
    t.frame.scopes = f.scopes
      ∧ (∃ left right, env.typeOf f lhs = .ok left ∧ env.typeOf f rhs = .ok right
        ∧ ty = Ty.promote left right)
      ∧ ty.isInteger = true
      ∧ ∀ set m, Reads set lhs → Reads (fun r => set r ∨ r ∈ stored lhs) rhs →
        Truthful set (view env f m) → Ready env f (pushes code) m →
        Simulates env f (assigned lhs ++ assigned rhs) code m
          (do
            let a ← Source.eval refCells true lhs
            let b ← Source.eval refCells true rhs
            Source.operate true op a b)
          fun v m' => v.1 = ty ∧ InRange ty v.2 ∧ low (wordOf ty) (m'.regs .rax) = v.2 := by
  unfold evalArith at h
  simp only [bind_ok, pure_ok] at h
  obtain ⟨⟨ty', width, first, o⟩, _, hoperands, hpair, rfl⟩ := h
  cases hpair
  obtain ⟨ht, rfl, hform, left, right, hleftTy, hrightTy, hleftWhole, hrightWhole, rfl, hsim⟩ :=
    operands_simulates hleft hright hrunLeft hrunRight hs hoperands
  refine ⟨ht, ⟨left, right, hleftTy, hrightTy, rfl⟩,
    promoted_whole (promote_whole hleftWhole hrightWhole),
    fun set m hreads hreads' hset hready => ?_⟩
  rw [pushes_append] at hready
  rw [← List.append_nil (assigned lhs ++ assigned rhs)]
  refine hsim hreads hreads' hset (hready.mono (Nat.le_add_right _ _)) ?_
  intro a b m' _ _ hloaded
  exact hloaded.arith op hleftWhole hrightWhole hform

/-- A comparison evaluates its operands and compares their values. -/
theorem evalCompare_simulates {op : Comparison} {lhs rhs : Expr}
    {runLeft runRight : Gen (Code × Ty)} {s t : State} {ty : Ty} {code : Code}
    (hleft : Plain env f lhs) (hright : Plain env f rhs)
    (hrunLeft : Evaluates env f lhs runLeft) (hrunRight : Evaluates env f rhs runRight)
    (hs : s.frame.scopes = f.scopes)
    (h : evalCompare env op lhs rhs runLeft runRight s = .ok ((code, ty), t)) :
    t.frame.scopes = f.scopes ∧ ty = .bool
      ∧ ∀ set m, Reads set lhs → Reads (fun r => set r ∨ r ∈ stored lhs) rhs →
        Truthful set (view env f m) → Ready env f (pushes code) m →
        Simulates env f (assigned lhs ++ assigned rhs) code m
          (do
            let a ← Source.eval refCells true lhs
            let b ← Source.eval refCells true rhs
            return Source.compare true op a b)
          fun v m' => v.1 = .bool ∧ InRange .bool v.2 ∧ low .byte (m'.regs .rax) = v.2 := by
  unfold evalCompare at h
  simp only [bind_ok, pure_ok] at h
  obtain ⟨⟨ty', width, first, o⟩, _, hoperands, hpair, rfl⟩ := h
  cases hpair
  obtain ⟨ht, rfl, hform, left, right, -, -, hleftWhole, hrightWhole, rfl, hsim⟩ :=
    operands_simulates hleft hright hrunLeft hrunRight hs hoperands
  refine ⟨ht, rfl, fun set m hreads hreads' hset hready => ?_⟩
  rw [pushes_append] at hready
  rw [← List.append_nil (assigned lhs ++ assigned rhs)]
  refine hsim hreads hreads' hset (hready.mono (Nat.le_add_right _ _)) ?_
  rintro a b m' - - ⟨⟨rfl, hrangeA⟩, ⟨rfl, hrangeB⟩, hrax, hoperand⟩
  have hread := m'.read_reg (wordOf (Ty.promote a.1 b.1)) .rax
  have hwrap := wrap_low (Nat.le_refl (wordOf (Ty.promote a.1 b.1)).bytes) (m'.regs .rax)
  obtain ⟨flags, hexec⟩ := m'.exec_compareSet op .rax rfl rfl hread hoperand hwrap
    (read_wrap hform hoperand)
  have hmoved := (Moved.putReg m' .byte .rax (if op.holdsInt
    (low (wordOf (Ty.promote a.1 b.1)) (m'.regs .rax))
    (Source.convert true b.1 (Ty.promote a.1 b.1) b.2) then 1 else 0)).flags flags
  refine Simulates.pure hexec (hmoved.still) rfl ⟨rfl, ?_, ?_⟩
  · show InRange .bool (if _ then 1 else 0)
    exact .ite (.inr rfl) (.inl rfl)
  · show low .byte ((m'.putReg .byte .rax _).regs .rax) = if _ then 1 else 0
    rw [putReg_self, low_put (Nat.le_refl _), hrax]
    split <;> rfl

-- ========================================================== assignments

/-- What an assignment leaves behind: its value in the place. -/
def InPlace (place : Place) (ty : Ty) (v : Value) (m : Machine) : Prop :=
  v.1 = ty ∧ InRange ty v.2 ∧ m.loadPlace (wordOf ty) place = v.2

/-- A value that is stored is in its place, converted. -/
theorem Stored.inPlace {place : Place} {ty : Ty} {v : Value} {m m' : Machine}
    (h : Stored (wordOf ty) place (Source.convert true v.1 ty v.2) m m')
    (hty : ty.isInteger = true) :
    InPlace place ty (ty, Source.convert true v.1 ty v.2) m' := by
  have hrange := convert_inRange true v.1 ty v.2
  have hload := loadPlace_congr (m := m.storePlace (wordOf ty) place _) h.rbp h.memory
    (wordOf ty) place
  refine ⟨rfl, hrange, ?_⟩
  rw [hload, loadPlace_storePlace, bytes_wordOf hty, hrange.wrap hty]

/-- Code that has stored a converted value has assigned it. -/
theorem Stored.simulates (hf : f.Sound env.program) {r : Ref} {place : Place} {ty : Ty}
    {v : Value} {code : Code} {m m' : Machine} (hr : refPlace env f r = .ok (place, ty))
    (hty : ty.isInteger = true) (hexec : exec code m = .ok m')
    (hstored : Stored (wordOf ty) place (Source.convert true v.1 ty v.2) m m') :
    Simulates env f [r] code m (Source.assign refCells true r v) (InPlace place ty) :=
  Simulates.assign hf hr hty hexec hstored.rsp hstored.rbp hstored.memory (hstored.inPlace hty)

/-- Storing what rax holds. -/
theorem exec_storeRax (place : Place) {ty : Ty} {n : Int} {m : Machine}
    (h : low (wordOf ty) (m.regs .rax) = n) :
    ∃ m', exec [.mov (.mem (wordOf ty) place) (reg (wordOf ty) .rax)] m = .ok m'
      ∧ Stored (wordOf ty) place n m m' := by
  refine ⟨_, exec_step (m.step_store _ .rax place) [], ?_⟩
  rw [h]
  exact Stored.storePlace _ _ _ _

/-- Storing what rax holds as a value of another type. -/
theorem storeRax_exec {place : Place} {source target : Ty} {n : Int} {code : Code} {m : Machine}
    (h : storeRax place source target = .ok code) (hs : source.isInteger = true)
    (ht : target.isInteger = true) (hrange : InRange source n)
    (hlow : low (wordOf source) (m.regs .rax) = n) :
    ∃ m', exec code m = .ok m'
      ∧ Stored (wordOf target) place (Source.convert true source target n) m m' := by
  unfold storeRax at h
  simp only [except_bind_ok, widthOf_whole ht, Except.ok.injEq, exists_eq_left'] at h
  obtain ⟨conversion, hconversion, hcode⟩ := h
  cases hcode
  obtain ⟨m₁, hexec, hmoved, hlow₁⟩ := convert_exec hconversion hs ht hrange hlow
  obtain ⟨m₂, hexec₂, hstored⟩ := exec_storeRax place hlow₁
  refine ⟨m₂, ?_, hstored.behind (hmoved.still)⟩
  rw [exec_append, hexec]
  exact hexec₂

/-- What is in rax is stored as the source assigns it. -/
theorem storeRax_simulates (hf : f.Sound env.program) {r : Ref} {place : Place}
    {source target : Ty} {n : Int} {code : Code} {m : Machine}
    (h : storeRax place source target = .ok code)
    (hr : refPlace env f r = .ok (place, target)) (hs : source.isInteger = true)
    (ht : target.isInteger = true) (hrange : InRange source n)
    (hlow : low (wordOf source) (m.regs .rax) = n) :
    Simulates env f [r] code m (Source.assign refCells true r (source, n))
      (InPlace place target) := by
  obtain ⟨m', hexec, hstored⟩ := storeRax_exec h hs ht hrange hlow
  exact Stored.simulates (v := (source, n)) hf hr ht hexec hstored

/-- The code that stores the value of an expression computes the value first
and then changes nothing but the place. -/
theorem storeValue_delivers {e : Expr} {run : Gen (Code × Ty)} {s t : State} {place : Place}
    {target : Ty} {code : Code} (hplain : Plain env f e) (hrun : Evaluates env f e run)
    (ht : target.isInteger = true) (hs : s.frame.scopes = f.scopes)
    (h : storeValue env place target e run s = .ok (code, t)) :
    t.frame.scopes = f.scopes ∧ ∃ first store, code = first ++ store
      ∧ ∀ set m, Reads set e → Truthful set (view env f m) → Ready env f (pushes first) m →
        Simulates env f (assigned e) first m (Source.eval refCells true e) fun v m₁ =>
          ∃ m₂, exec store m₁ = .ok m₂
            ∧ Stored (wordOf target) place (Source.convert true v.1 target v.2) m₁ m₂ := by
  -- what works in registers alone computes the value on the way to the store
  have hdirect : ∀ {m m' : Machine} {v : Value},
      Source.eval refCells true e (view env f m) = .ok (v, view env f m) →
      exec code m = .ok m' →
      Stored (wordOf target) place (Source.convert true v.1 target v.2) m m' →
      Simulates env f (assigned e) [] m (Source.eval refCells true e) fun v m₁ =>
        ∃ m₂, exec code m₁ = .ok m₂
          ∧ Stored (wordOf target) place (Source.convert true v.1 target v.2) m₁ m₂ :=
    fun hv hexec hstored => Simulates.pure (exec_nil _) (Still.refl _) hv ⟨_, hexec, hstored⟩
  unfold storeValue at h
  cases hconst : e.isConstant with
  | true =>
      rw [hconst, if_pos rfl] at h
      simp only [bind_ok, lift_ok, liftEval_ok] at h
      obtain ⟨lit, _, ⟨hlit, rfl⟩, hstore, rfl⟩ := h
      obtain ⟨n, hn, hw, hfold⟩ := folded_ok hplain hconst hlit
      refine ⟨hs, [], code, rfl, fun set m _ _ _ => ?_⟩
      obtain ⟨m', hexec, hstored⟩ := storeLiteral_exec hstore ht hn hw m
      refine hdirect (v := (lit.ty, n)) ?_ hexec hstored
      rw [eval_constant hconst, hfold]
      rfl
  | false =>
      rw [hconst, if_neg Bool.false_ne_true] at h
      simp only [bind_ok, placeOf_ok] at h
      obtain ⟨found, _, ⟨hfound, rfl⟩, h⟩ := h
      cases found with
      | some found =>
          obtain ⟨src, source⟩ := found
          obtain ⟨q, hq, hplace, hsource, -⟩ := placed hplain hs hfound
          simp only [bind_ok, lift_ok, widthOf_whole ht, Except.ok.injEq] at h
          obtain ⟨load, _, ⟨hload, rfl⟩, _, _, ⟨rfl, rfl⟩, hpure⟩ := h
          cases hpure
          refine ⟨hs, [], _, rfl, fun set m hreads hset _ => ?_⟩
          have hrange := place_inRange hq hplace hsource hreads hset
          obtain ⟨m₁, hexec₁, hmoved, hlow⟩ :=
            loadInto_exec (Or.inl rfl) hload hsource ht hrange
          obtain ⟨m₂, hexec₂, hstored⟩ := exec_storeRax place hlow
          refine hdirect (v := (source, m.loadPlace (wordOf source) src)) ?_ ?_
            (hstored.behind (hmoved.still))
          · rw [eval_ref hq]
            exact fetch_cell (cell_view hplace hsource m)
          · rw [exec_append, hexec₁]
            exact hexec₂
      | none =>
          simp only [bind_ok, lift_ok] at h
          obtain ⟨⟨first, source⟩, u, hfirst, store, _, ⟨hstore, rfl⟩, hpure⟩ := h
          cases hpure
          obtain ⟨hu, -, hsource, hcomputes⟩ := hrun _ _ _ _ hs hfirst
          refine ⟨hu, first, store, rfl, fun set m hreads hset hready => ?_⟩
          refine (hcomputes set m hreads hset hready).mono (List.Subset.refl _) ?_
          rintro ⟨ty, n⟩ m' ⟨rfl, hrange, hlow⟩
          exact storeRax_exec hstore hsource ht hrange hlow

/-- Storing the value of an expression in a variable assigns it. -/
theorem storeValue_simulates (hf : f.Sound env.program) {e : Expr} {run : Gen (Code × Ty)}
    {s t : State} {r : Ref} {place : Place} {target : Ty} {code : Code}
    (hplain : Plain env f e) (hrun : Evaluates env f e run)
    (hr : refPlace env f r = .ok (place, target)) (ht : target.isInteger = true)
    (hs : s.frame.scopes = f.scopes)
    (h : storeValue env place target e run s = .ok (code, t)) :
    t.frame.scopes = f.scopes ∧ ∀ set m, Reads set e → Truthful set (view env f m) →
      Ready env f (pushes code) m →
      Simulates env f (assigned e ++ [r]) code m
        (Source.eval refCells true e >>= Source.assign refCells true r)
        (InPlace place target) := by
  obtain ⟨hscopes, first, store, rfl, hsim⟩ := storeValue_delivers hplain hrun ht hs h
  refine ⟨hscopes, fun set m hreads hset hready => ?_⟩
  rw [pushes_append] at hready
  refine (hsim set m hreads hset (hready.mono (Nat.le_add_right _ _))).bind ?_
  rintro v m₁ - - ⟨m₂, hexec, hstored⟩
  exact hstored.simulates hf hr ht hexec

/-- Reloading the target of an assignment leaves its value in rax. -/
theorem InPlace.load {place : Place} {ty : Ty} (hty : ty.isInteger = true) {load : Code}
    (hload : loadInto .rax place ty ty = .ok load) {v : Value} {m : Machine}
    (h : InPlace place ty v m) :
    ∃ m', exec load m = .ok m' ∧ Still m m'
      ∧ v.1 = ty ∧ InRange ty v.2 ∧ low (wordOf ty) (m'.regs .rax) = v.2 := by
  obtain ⟨hv, hrange, hplace⟩ := h
  rw [← hplace] at hrange ⊢
  obtain ⟨m', hexec, hmoved, hlow⟩ := loadInto_exec (Or.inl rfl) hload hty hty hrange
  rw [convert_self hrange] at hlow
  exact ⟨m', hexec, hmoved.still, hv, hrange, hlow⟩

/-- Whether a step generates code that performs an assignment to what `lhs`
names. -/
def Assigns (env : Env) (f : Frame) (lhs e : Expr) (run : Gen Code) : Prop :=
  ∀ s code t, s.frame.scopes = f.scopes → run s = .ok (code, t) →
    t.frame.scopes = f.scopes ∧ ∃ r place ty, ref? lhs = some r
      ∧ env.target s.frame lhs = .ok (place, ty) ∧ refPlace env f r = .ok (place, ty)
      ∧ ty.isInteger = true ∧ env.typeOf f lhs = .ok ty
      ∧ ∀ set m, Reads set e → Truthful set (view env f m) → Ready env f (pushes code) m →
        Simulates env f (assigned e) code m (Source.eval refCells true e) (InPlace place ty)

/-- An assignment stores the value of its right side. -/
theorem assignPlain_assigns (hf : f.Sound env.program) {lhs rhs : Expr}
    {runRight : Gen (Code × Ty)} (hleft : Plain env f lhs) (hright : Plain env f rhs)
    (hrunRight : Evaluates env f rhs runRight) (operandsMatch : Bool) (pos : Position) :
    Assigns env f lhs (.binary .assign lhs rhs false operandsMatch pos)
      (assignPlain env lhs rhs runRight) := by
  intro s code t hs h
  unfold assignPlain at h
  simp only [bind_ok, targetOf_ok] at h
  obtain ⟨⟨place, ty⟩, _, ⟨htarget, rfl⟩, hstore⟩ := h
  obtain ⟨r, hr, hplace, hty, htype⟩ := targeted hleft hs htarget
  obtain ⟨ht, hsim⟩ := storeValue_simulates hf hright hrunRight hplace hty hs hstore
  refine ⟨ht, r, place, ty, hr, htarget, hplace, hty, htype, fun set m hreads hset hready => ?_⟩
  have hreads : Reads set rhs := hreads.resolve_left Bool.false_ne_true
  rw [eval_assign hr]
  refine (hsim set m hreads hset hready).mono ?_ fun _ _ h => h
  show assigned rhs ++ [r] ⊆ assigned lhs ++ assigned rhs ++ (ref? lhs).toList
  rw [hr, List.append_assoc]
  exact List.subset_append_right _ _

/-- A compound assignment stores the result of its operation. -/
theorem assignCompound_assigns (hf : f.Sound env.program) {op : Arith} {lhs rhs : Expr}
    {runLeft runRight : Gen (Code × Ty)} (hleft : Plain env f lhs) (hright : Plain env f rhs)
    (hrunLeft : Evaluates env f lhs runLeft) (hrunRight : Evaluates env f rhs runRight)
    (operandsMatch : Bool) (pos : Position) :
    Assigns env f lhs (.binary (.compound op) lhs rhs false operandsMatch pos)
      (assignCompound env op lhs rhs runLeft runRight) := by
  intro s code t hs h
  unfold assignCompound at h
  simp only [bind_ok, targetOf_ok, lift_ok, pure_ok] at h
  obtain ⟨⟨place, ty⟩, _, ⟨htarget, rfl⟩, ⟨first, result⟩, u, hfirst, store, _, ⟨hstore, rfl⟩,
    rfl, rfl⟩ := h
  obtain ⟨r, hr, hplace, hty, htype⟩ := targeted hleft hs htarget
  obtain ⟨hu, -, hresult, hsim⟩ :=
    evalArith_simulates hleft hright hrunLeft hrunRight hs hfirst
  refine ⟨hu, r, place, ty, hr, htarget, hplace, hty, htype, fun set m hreads hset hready => ?_⟩
  obtain ⟨hreadsLeft, hreadsRight⟩ : Reads set lhs ∧ Reads set rhs :=
    hreads.resolve_left Bool.false_ne_true
  rw [pushes_append] at hready
  rw [eval_compound hr]
  have hrefs : assigned (.binary (.compound op) lhs rhs false operandsMatch pos)
      = assigned lhs ++ assigned rhs ++ [r] := by
    show assigned lhs ++ assigned rhs ++ (ref? lhs).toList = _
    rw [hr]
    rfl
  have hstored : ∀ (v : Source.Value) (m' : Machine),
      (v.1 = result ∧ InRange result v.2 ∧ low (wordOf result) (m'.regs .rax) = v.2) →
      Simulates env f [r] store m' (Source.assign refCells true r v) (InPlace place ty) := by
    rintro ⟨_, n⟩ m' ⟨rfl, hrange, hlow⟩
    exact storeRax_simulates hf hstore hplace hresult hty hrange hlow
  have hbind := (hsim set m hreadsLeft (hreadsRight.mono fun _ => Or.inl) hset
    (hready.mono (Nat.le_add_right _ _))).bind fun v m' _ _ hv => hstored v m' hv
  rw [hrefs]
  simp only [bind_assoc] at hbind
  exact hbind

/-- An assignment whose target is loaded again has the value it stored. -/
theorem reloaded_evaluates {lhs e : Expr} {assign : Gen Code}
    (htype : env.typeOf f e = env.typeOf f lhs) (hassign : Assigns env f lhs e assign) :
    Evaluates env f e (reloaded env lhs assign) := by
  intro s code ty t hs h
  unfold reloaded at h
  simp only [bind_ok, targetOf_ok, lift_ok] at h
  obtain ⟨⟨place, ty'⟩, _, ⟨htarget, rfl⟩, first, u, hfirst, load, _, ⟨hload, rfl⟩, hpure⟩ := h
  cases hpure
  obtain ⟨hu, r, place', ty', -, htarget', -, hty, htypeLeft, hsim⟩ := hassign _ _ _ hs hfirst
  rw [htarget] at htarget'
  cases htarget'
  refine ⟨hu, htype.trans htypeLeft, hty, fun set m hreads hset hready => ?_⟩
  rw [pushes_append] at hready
  refine (hsim set m hreads hset (hready.mono (Nat.le_add_right _ _))).andThen ?_
  intro v m' hin
  exact hin.load hty hload

-- ============================================================ operators

theorem evalArith_evaluates {op : Arith} {lhs rhs : Expr} {runLeft runRight : Gen (Code × Ty)}
    (hleft : Plain env f lhs) (hright : Plain env f rhs)
    (hrunLeft : Evaluates env f lhs runLeft) (hrunRight : Evaluates env f rhs runRight)
    (operandsMatch : Bool) (pos : Position) :
    Evaluates env f (.binary (.arith op) lhs rhs false operandsMatch pos)
      (evalArith env op lhs rhs runLeft runRight) := by
  intro s code ty t hs h
  obtain ⟨ht, ⟨left, right, hleftTy, hrightTy, rfl⟩, hty, hsim⟩ :=
    evalArith_simulates hleft hright hrunLeft hrunRight hs h
  refine ⟨ht, ?_, hty, fun set m hreads hset hready => ?_⟩
  · unfold Env.typeOf
    rw [hleftTy, hrightTy]
    rfl
  · obtain ⟨hreadsLeft, hreadsRight⟩ := hreads.resolve_left Bool.false_ne_true
    exact (hsim set m hreadsLeft hreadsRight hset hready).mono (List.subset_append_left _ _)
      fun _ _ h => h

theorem evalCompare_evaluates {op : Comparison} {lhs rhs : Expr}
    {runLeft runRight : Gen (Code × Ty)} (hleft : Plain env f lhs) (hright : Plain env f rhs)
    (hrunLeft : Evaluates env f lhs runLeft) (hrunRight : Evaluates env f rhs runRight)
    (operandsMatch : Bool) (pos : Position) :
    Evaluates env f (.binary (.compare op) lhs rhs false operandsMatch pos)
      (evalCompare env op lhs rhs runLeft runRight) := by
  intro s code ty t hs h
  obtain ⟨ht, rfl, hsim⟩ := evalCompare_simulates hleft hright hrunLeft hrunRight hs h
  refine ⟨ht, rfl, rfl, fun set m hreads hset hready => ?_⟩
  obtain ⟨hreadsLeft, hreadsRight⟩ := hreads.resolve_left Bool.false_ne_true
  exact (hsim set m hreadsLeft hreadsRight hset hready).mono (List.subset_append_left _ _)
    fun _ _ h => h

/-- A sign makes its operand an int at least, and negates it or not. -/
theorem sign_evaluates {negative : Bool} {operand e : Expr} {run : Gen (Code × Ty)}
    (hplain : Plain env f operand) (hrun : Evaluates env f operand run)
    (htype : env.typeOf f e = do
      let ty ← env.typeOf f operand
      return Ty.promote ty .int)
    (hassigned : assigned e = assigned operand)
    (hreads : ∀ set, Reads set e → Reads set operand)
    (heval : Source.eval refCells true e
      = Source.signed true negative <$> Source.eval refCells true operand) :
    Evaluates env f e (evalSign env negative operand run) := by
  intro s code ty t hs h
  unfold evalSign at h
  simp only [bind_ok, typeOfExpr_ok] at h
  obtain ⟨inner, _, ⟨hinner, rfl⟩, h⟩ := h
  rw [typeOf_congr hs] at hinner
  have hwhole := typeOf_whole hplain hinner
  have hty := promote_whole hwhole (b := .int) rfl
  have hinteger := promoted_whole hty
  rw [not_floating hinteger, if_neg Bool.false_ne_true] at h
  obtain ⟨first, u, hfirst, h⟩ := bind_ok.1 h
  obtain ⟨hu, source, hsource, -, hdelivers⟩ := evalTo_delivers hplain hrun hinteger hs hfirst
  rw [hinner] at hsource
  cases hsource
  rw [hinner] at htype
  -- with the sign's own instruction, if there is one
  have hsigned : ∀ {rest : Code}, (∀ {m' : Machine} {n : Int},
      low (wordOf (Ty.promote inner .int)) (m'.regs .rax) = n →
      ∃ m'', exec rest m' = .ok m'' ∧ Still m' m''
        ∧ low (wordOf (Ty.promote inner .int)) (m''.regs .rax)
          = if negative then Integer.wrap (Ty.promote inner .int).size (-n) else n) →
      Computes env f e (first ++ rest) (Ty.promote inner .int) := by
    intro rest hrest set m hset htruth hready
    rw [pushes_append] at hready
    rw [heval, hassigned]
    refine (hdelivers set m (hreads set hset) htruth
      (hready.mono (Nat.le_add_right _ _))).map ?_
    rintro ⟨ty, k⟩ m' ⟨hv, hrange, hlow⟩
    obtain rfl : inner = ty := hv.symm
    have hconvert := convert_inRange true inner (Ty.promote inner .int) k
    obtain ⟨m'', hexec, hstill, hlow'⟩ := hrest hlow
    refine ⟨m'', hexec, hstill, rfl, ?_, hlow'⟩
    show InRange (Ty.promote inner .int) (if negative then _ else _)
    split
    · rcases hty with hty | hty <;> rw [hty] <;> exact wrap_wrap _ _
    · exact hconvert
  cases negative with
  | false =>
      cases h
      refine ⟨hu, htype, hinteger, ?_⟩
      rw [← List.append_nil code]
      exact hsigned fun {m'} _ hlow => ⟨m', rfl, Still.refl m', hlow⟩
  | true =>
      rw [if_pos rfl, widthOf_whole hinteger] at h
      cases h
      exact ⟨hu, htype, hinteger, hsigned fun hlow => exec_negate hty hlow⟩

/-- A negation compares its operand with zero. -/
theorem not_evaluates {operand : Expr} {run : Gen (Code × Ty)}
    (hrun : Evaluates env f operand run) (fixity : Fixity) (pos : Position) :
    Evaluates env f (.unary .not fixity operand pos) (do
      let (code, ty) ← run
      let width ← widthOf ty
      return (code ++ [.alu .cmp (reg width .rax) (.imm 0), .set .eq .rax], .bool)) := by
  intro s code ty t hs h
  simp only [bind_ok, lift_ok, pure_ok] at h
  obtain ⟨⟨first, inner⟩, u, hfirst, w, _, ⟨hw, rfl⟩, hpair, rfl⟩ := h
  cases hpair
  obtain ⟨hu, -, hinner, hcomputes⟩ := hrun _ _ _ _ hs hfirst
  rw [widthOf_whole hinner] at hw
  cases hw
  refine ⟨hu, rfl, rfl, fun set m hreads hset hready => ?_⟩
  rw [pushes_append] at hready
  refine (hcomputes set m hreads hset (hready.mono (Nat.le_add_right _ _))).map ?_
  rintro ⟨ty, n⟩ m' ⟨hv, hrange, hlow⟩
  obtain rfl : inner = ty := hv.symm
  have hread : m'.read (wordOf inner) (reg (wordOf inner) .rax) = .ok n := by
    show m'.read (wordOf inner) (.reg (wordOf inner) .rax) = _
    rw [read_reg, hlow]
  have hwrap : Integer.wrap (wordOf inner).bytes n = n := by
    rw [bytes_wordOf hinner]
    exact hrange.wrap hinner
  obtain ⟨flags, hexec⟩ := m'.exec_compareSet .eq .rax rfl rfl hread (m'.read_zero _)
    hwrap (wrap_zero _)
  have hmoved := (Moved.putReg m' .byte .rax (if Comparison.eq.holdsInt n 0 then 1 else 0)).flags
    flags
  refine ⟨_, hexec, hmoved.still, rfl, ?_, ?_⟩
  · show InRange .bool (if _ then 1 else 0)
    exact .ite (.inr rfl) (.inl rfl)
  · show low .byte ((m'.putReg .byte .rax _).regs .rax) = if _ then 1 else 0
    rw [putReg_self, low_put (Nat.le_refl _)]
    by_cases hzero : n = 0
    · subst hzero
      rfl
    · have hne : Comparison.eq.holdsInt n 0 = false := beq_eq_false_iff_ne.2 hzero
      rw [hne, if_neg Bool.false_ne_true, if_neg (by simpa using hzero)]
      rfl

/-- The update of an increment or decrement; it leaves rax alone. -/
theorem update_simulates (hf : f.Sound env.program) {op : Arith} (hop : op = .add ∨ op = .sub)
    {r : Ref} {place : Place} {ty : Ty} {update : Instr} {m : Machine}
    (hplace : refPlace env f r = .ok (place, ty)) (hty : ty.isInteger = true)
    (hupdate : stepPlace op place ty = .ok update)
    (hrange : InRange ty (m.loadPlace (wordOf ty) place)) :
    Simulates env f [r] [update] m
      ((liftM (Source.operate true op (ty, m.loadPlace (wordOf ty) place) (.int, 1)) :
        Run Valuation Value) >>= Source.assign refCells true r)
      fun new m' => InPlace place ty new m' ∧ m'.regs .rax = m.regs .rax := by
  obtain ⟨v, m', hoperate, hstep, hregs, hmemory⟩ := stepPlace_exec hop hupdate hty hrange
  have hstored : Stored (wordOf ty) place (Source.convert true v.1 ty v.2) m m' :=
    ⟨congrFun hregs .rsp, congrFun hregs .rbp, hmemory⟩
  have hassign := Simulates.assign hf (Q := fun new m' => InPlace place ty new m'
    ∧ m'.regs .rax = m.regs .rax) hplace hty (exec_step hstep []) hstored.rsp hstored.rbp
    hstored.memory ⟨hstored.inPlace hty, congrFun hregs .rax⟩
  refine hassign.congr ?_
  rw [hoperate]
  rfl

/-- An increment or decrement as a value: the new one in front of its
operand, the old one behind. -/
theorem step_evaluates (hf : f.Sound env.program) {op : Arith} (hop : op = .add ∨ op = .sub)
    {fixity : Fixity} {operand e : Expr} (hplain : Plain env f operand)
    (htype : env.typeOf f e = env.typeOf f operand)
    (hassigned : assigned e = (ref? operand).toList)
    (hreads : ∀ set, Reads set e → Reads set operand)
    (heval : Source.eval refCells true e
      = Source.eval refCells true operand
        >>= fun old => Source.stepped refCells true op fixity operand old) :
    Evaluates env f e (evalStep env op fixity operand) := by
  intro s code ty t hs h
  unfold evalStep at h
  simp only [bind_ok, targetOf_ok, lift_ok] at h
  obtain ⟨⟨place, target⟩, u, ⟨htarget, rfl⟩, w, _, ⟨hw, rfl⟩, update, _, ⟨hupdate, rfl⟩, h⟩ := h
  obtain ⟨r, hr, hplace, hty, htypeOperand⟩ := targeted hplain hs htarget
  rw [widthOf_whole hty] at hw
  cases hw
  have hload : ∀ m : Machine, ∃ m', exec [.mov (reg (wordOf target) .rax)
      (.mem (wordOf target) place)] m = .ok m' ∧ Moved .rax m m'
      ∧ low (wordOf target) (m'.regs .rax) = m.loadPlace (wordOf target) place := by
    intro m
    obtain ⟨m', hexec, hmoved, hlow⟩ := exec_loadLow m .rax place (Nat.le_refl _)
    exact ⟨m', hexec, hmoved, hlow.trans (m.wrap_loadPlace_self _ place)⟩
  have hfetch : ∀ m : Machine, Source.fetch refCells r (view env f m)
      = .ok ((target, m.loadPlace (wordOf target) place), view env f m) :=
    fun m => fetch_cell (cell_view hplace hty m)
  have hresult : Computes env f e code target ∧ ty = target ∧ t = u := by
    unfold Computes
    rw [heval, stepped_ref hr, hassigned, hr]
    cases fixity with
    | before =>
        cases h
        refine ⟨fun set m hset htruth _ => ?_, rfl, rfl⟩
        have hrange := place_inRange hr hplace hty (hreads set hset) htruth
        have hold : Simulates env f [] [] m (Source.fetch refCells r) fun old m' =>
            m' = m ∧ old = (target, m.loadPlace (wordOf target) place) :=
          Simulates.pure (exec_nil m) (Still.refl m) (hfetch m) ⟨rfl, rfl⟩
        refine Simulates.bind hold ?_
        rintro _ _ - - ⟨rfl, rfl⟩
        refine (update_simulates hf hop hplace hty hupdate hrange).map ?_
        rintro new m₁ ⟨⟨hnew, hnewRange, hstored⟩, -⟩
        obtain ⟨m₂, hexec, hmoved, hlow⟩ := hload m₁
        exact ⟨m₂, hexec, hmoved.still, hnew, hnewRange, hlow.trans hstored⟩
    | after =>
        cases h
        refine ⟨fun set m hset htruth _ => ?_, rfl, rfl⟩
        obtain ⟨m₁, hexec, hmoved, hlow⟩ := hload m
        have hrange := place_inRange hr hplace hty (hreads set hset) htruth
        have hsame := Moved.loadPlace (r := .rax) (by decide) hmoved (wordOf target) place
        have hold : Simulates env f [] [_] m (Source.fetch refCells r) fun old m' =>
            m' = m₁ ∧ old = (target, m.loadPlace (wordOf target) place) :=
          Simulates.pure hexec (hmoved.still) (hfetch m) ⟨rfl, rfl⟩
        refine Simulates.bind hold ?_
        rintro _ _ - - ⟨rfl, rfl⟩
        have hupdated := update_simulates hf hop hplace hty hupdate (hsame.symm ▸ hrange)
        rw [hsame] at hupdated
        refine hupdated.map ?_
        rintro new m₂ ⟨-, hrax⟩
        refine ⟨m₂, rfl, Still.refl m₂, rfl, hrange, ?_⟩
        rw [hrax]
        exact hlow
  obtain ⟨hcomputes, rfl, rfl⟩ := hresult
  exact ⟨hs, htype.trans htypeOperand, hty, hcomputes⟩

-- ================================================== every expression

/-- Whatever code is generated for a whole expression computes it. -/
theorem eval_evaluates (hf : f.Sound env.program) {e : Expr} (hplain : Plain env f e) :
    Evaluates env f e (eval env e) := by
  induction e with
  | number lit => exact evalConstant_evaluates hplain rfl
  | string lit => exact hplain.elim
  | ident i => exact evalPlace_evaluates hplain
  | member object accessor field pos => exact evalPlace_evaluates hplain
  | binary op lhs rhs constant operandsMatch pos ihl ihr =>
      unfold eval
      cases constant with
      | true =>
          rw [if_pos rfl]
          exact evalConstant_evaluates hplain rfl
      | false =>
          obtain ⟨hleft, hright⟩ := hplain
          rw [if_neg Bool.false_ne_true]
          cases op with
          | assign =>
              exact reloaded_evaluates rfl
                (assignPlain_assigns hf hleft hright (ihr hright) operandsMatch pos)
          | compound op =>
              exact reloaded_evaluates rfl (assignCompound_assigns hf hleft hright (ihl hleft)
                (ihr hright) operandsMatch pos)
          | arith op =>
              exact evalArith_evaluates hleft hright (ihl hleft) (ihr hright) operandsMatch pos
          | compare op =>
              exact evalCompare_evaluates hleft hright (ihl hleft) (ihr hright) operandsMatch pos
  | unary op fixity operand pos ih =>
      have hplain : Plain env f operand := hplain
      cases op with
      | plus => exact sign_evaluates hplain (ih hplain) rfl rfl (fun _ => id) rfl
      | minus => exact sign_evaluates hplain (ih hplain) rfl rfl (fun _ => id) rfl
      | not => exact not_evaluates (ih hplain) fixity pos
      | incr => exact step_evaluates hf (Or.inl rfl) hplain rfl rfl (fun _ => id) rfl
      | decr => exact step_evaluates hf (Or.inr rfl) hplain rfl rfl (fun _ => id) rfl

/-- Whether an address holds a byte of a variable: of a slot, or of a
global. -/
def VariableByte (env : Env) (f : Frame) (m : Machine) (c : Address) : Prop :=
  (∃ b ∈ f.slots, ∃ size align i, env.program.sizeAlign b.2.ty = .ok (size, align) ∧ i < size
      ∧ c = .stack (m.regs .rbp - BitVec.ofNat 64 b.2.offset + BitVec.ofNat 64 i))
    ∨ ∃ name offset, c = .static name offset

/-- The bytes of variables are not below the stack pointer. -/
theorem VariableByte.not_below {m : Machine} {c : Address} (h : VariableByte env f m c)
    (hroom : Room env f m) : ¬ Below m c := by
  rintro ⟨a, rfl, hlt⟩
  rcases h with ⟨b, hb, size, align, i, hsize, hi, heq⟩ | ⟨name, offset, heq⟩
  · have hle := hroom b hb size align hsize i hi
    cases heq
    exact absurd hle (Nat.not_le.2 hlt)
  · cases heq

/-- The code of an expression over whole numbers leaves the expression's
value in rax and its assignments in the variables, with everything else as
before; where it stops, at a division, the expression has no value. -/
theorem eval_exec {s t : State} (hframe : s.frame.Reached env.program) {e : Expr}
    (hplain : Plain env s.frame e) {code : Code} {ty : Ty}
    (h : eval env e s = .ok ((code, ty), t)) {m : Machine} (hbools : Bools env s.frame m)
    (hready : Ready env s.frame (pushes code) m) :
    match exec code m with
    | .ok m' =>
      ∃ n, Source.eval refCells true e (view env s.frame m)
            = .ok ((ty, n), view env s.frame m')
          ∧ low (wordOf ty) (m'.regs .rax) = n ∧ (wordOf ty).bytes = ty.size
          ∧ Bools env s.frame m'
          ∧ m'.regs .rsp = m.regs .rsp ∧ m'.regs .rbp = m.regs .rbp
          ∧ ∀ c, VariableByte env s.frame m c →
            (∀ r ∈ assigned e, ¬ ByteOf env s.frame m r c) → m'.memory c = m.memory c
    | .error fault =>
      fault = .divide
        ∧ Source.eval refCells true e (view env s.frame m) = .error .divide := by
  obtain ⟨-, -, hty, hcomputes⟩ := eval_evaluates hframe.sound hplain s code ty t rfl h
  have hset := truthful_all.2 hbools
  have hsim := hcomputes _ m (reads_all (fun _ => trivial) e) hset hready
  unfold Simulates at hsim
  cases hexec : exec code m with
  | ok m' =>
      rw [hexec] at hsim
      obtain ⟨⟨ty', n⟩, hsource, hkept, htype, -, hlow⟩ := hsim
      obtain rfl : ty' = ty := htype
      have hbools' := truthful_all.1 ((truthful_eval hset hsource).mono fun _ => Or.inl)
      refine ⟨n, hsource, hlow, bytes_wordOf hty, hbools', hkept.rsp, hkept.rbp, ?_⟩
      intro c hvar hbytes
      exact hkept.memory c (fun hpush => hvar.not_below (hready hpush).1) hbytes
  | error fault =>
      rw [hexec] at hsim
      exact hsim

/-- A function with a char and a long in its frame. -/
def tallyFrame : Frame := ⟨[[("total", ⟨16, .long⟩), ("letter", ⟨1, .char⟩)]], 16, 0, false, 0⟩

/-- It stands in a program with nothing else in it. -/
def tallyEnv : Env := ⟨⟨[]⟩, [], .int⟩

/-- The expression `letter + (total -= 2)`. -/
def tally : Expr :=
  .binary (.arith .add) (.ident ⟨"letter", true, .start⟩)
    (.binary (.compound .sub) (.ident ⟨"total", true, .start⟩) (.number ⟨.int, "2", .start⟩)
      false false .start) false false .start

/-- Its code: the letter waits on the stack. -/
def tallyCode : Code :=
  [.widen .movsx (reg .qword .rax) (.mem .byte (.stack 1)), .push .rax,
    .mov (reg .qword .rax) (.mem .qword (.stack 16)), .alu .sub (reg .qword .rax) (.imm 2),
    .mov (.mem .qword (.stack 16)) (reg .qword .rax),
    .mov (reg .qword .rax) (.mem .qword (.stack 16)),
    .mov (reg .qword .rcx) (reg .qword .rax), .pop .rax,
    .alu .add (reg .qword .rax) (reg .qword .rcx)]

/-- A machine with blank memory, whose stack ends below the frame. -/
def tallyMachine : Machine where
  regs
    | .rsp => 1000
    | .rbp => 1016
    | _ => 0
  flags := none
  memory _ := 0

theorem tallyFrame_reached : tallyFrame.Reached tallyEnv.program := by
  have hchar : tallyEnv.program.sizeAlign .char = .ok (1, 1) := rfl
  have hlong : tallyEnv.program.sizeAlign .long = .ok (8, 8) := rfl
  have hletter : (Frame.mk [[("letter", ⟨1, .char⟩)]] 1 0 false 0).Reached tallyEnv.program :=
    .bind .empty hchar (rfl : Frame.empty.alloc? 1 1 = _) rfl rfl
  exact hletter.bind hlong rfl rfl rfl

theorem tallyMachine_bools : Bools tallyEnv tallyFrame tallyMachine := by
  intro r n h
  obtain ⟨place, -, -, hn⟩ := view_some h
  refine Or.inl (hn.trans ?_)
  unfold loadPlace
  show Integer.wrap 1 (load (fun _ => 0) _ _ : Nat) = 0
  rw [load_zero]
  exact wrap_zero .byte

theorem tally_plain : Plain tallyEnv tallyFrame tally := by
  refine ⟨?_, ?_, 2, toInt_of_text rfl (by decide), by rfl⟩
  · intro place ty h
    cases h
    rfl
  · intro place ty h
    cases h
    rfl

theorem tallyMachine_ready :
    Ready tallyEnv tallyFrame (pushes tallyCode) tallyMachine := by
  refine fun _ => ⟨?_, by decide⟩
  intro b hb size align hsize i hi
  have hb : b = ("total", ⟨16, .long⟩) ∨ b = ("letter", ⟨1, .char⟩) := by
    simpa [Frame.slots, tallyFrame] using hb
  rcases hb with rfl | rfl <;> cases hsize
  · have hbytes : ∀ i < 8,
        1000 ≤ ((1016 : BitVec 64) - BitVec.ofNat 64 16 + BitVec.ofNat 64 i).toNat := by
      decide
    exact hbytes i hi
  · have hbytes : ∀ i < 1,
        1000 ≤ ((1016 : BitVec 64) - BitVec.ofNat 64 1 + BitVec.ofNat 64 i).toNat := by
      decide
    exact hbytes i hi

/-- It comes to -2 and leaves the stack as it was. -/
theorem tally_exec :
    ∃ t m', eval tallyEnv tally ⟨tallyFrame, .empty⟩ = .ok ((tallyCode, .long), t)
      ∧ exec tallyCode tallyMachine = .ok m' ∧ low .qword (m'.regs .rax) = -2
      ∧ Source.eval refCells true tally (view tallyEnv tallyFrame tallyMachine)
        = .ok ((.long, -2), view tallyEnv tallyFrame m')
      ∧ m'.regs .rsp = 1000 ∧ m'.regs .rbp = 1016 := by
  have hcode : (eval tallyEnv tally ⟨tallyFrame, .empty⟩).toOption.map Prod.fst
      = some (tallyCode, .long) := by
    decide +kernel
  have hrun : (exec tallyCode tallyMachine).toOption.map (fun m => low .qword (m.regs .rax))
      = some (-2) := by
    decide +kernel
  obtain ⟨⟨_, t⟩, hgen, hpair⟩ := Option.map_eq_some_iff.1 hcode
  cases hpair
  obtain ⟨m', hexec, hlow⟩ := Option.map_eq_some_iff.1 hrun
  have hexec := toOption_some.1 hexec
  have h := eval_exec tallyFrame_reached tally_plain (toOption_some.1 hgen) tallyMachine_bools
    tallyMachine_ready
  rw [hexec] at h
  obtain ⟨n, hsource, hrax, -, -, hrsp, hrbp, -⟩ := h
  have hn : n = -2 := hrax.symm.trans hlow
  subst hn
  exact ⟨t, m', toOption_some.1 hgen, hexec, hlow, hsource, hrsp, hrbp⟩

end MiniC.Codegen
