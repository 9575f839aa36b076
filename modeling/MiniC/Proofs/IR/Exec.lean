/-
The meaning of functions in the intermediate representation, over whole
numbers. What has no whole-number meaning is `stuck`.

# Values

A value of type `i1` is 0 or 1, a value of a wider type is the number that its bits
are in two's complement. Temporaries and the slots of variables are kept apart; a
reserved slot has no value until one is stored. Names are looked up among the slots
of the function or among the globals, as the slot says that holds them.

# Runs

Control enters at the first block and moves from block to block by label. A run is
given a number of instructions it may take and is `unfinished` when they are spent, so
more of them change nothing about a run that came to an end (`run_add`).

`Leads` says that a run passes through a point, however many instructions
are left to it; `Returns` says that it ends, `Stops` that it fails, and
`Lasts` that so many instructions do not suffice for either. The first is what
sequences are made of: it is transitive, and whatever the point that a run leads to
comes to, the run comes to. Consumed by the proof that lowering preserves meaning.
-/
import MiniC.IR.Basic
import MiniC.Integer
import MiniC.Literal
import Mathlib.Algebra.Group.Nat.Defs

namespace MiniC.IR

/-- What keeps a run from going on: a division without a result, something
that has no meaning here, or the end of the instructions it was given. -/
inductive Fault where
  | divide
  | stuck
  | unfinished
deriving DecidableEq, Repr

-- =============================================================== numbers

namespace Ty

/-- The value of an integer type that agrees with a number on its bits. -/
def wrap : Ty → Int → Int
  | .i1, n => n % 2
  | ty, n => Integer.wrap ty.size n

/-- A value with its highest bit read as a sign. -/
def signed : Ty → Int → Int
  | .i1, n => -n
  | _, n => n

/-- A value with its highest bit read as any other. -/
def unsigned (ty : Ty) (n : Int) : Int := n % (2 ^ ty.bits : Nat)

end Ty

/-- A change of width. -/
def Cast.apply (op : Cast) (source target : Ty) (n : Int) : Int :=
  match op with
  | .trunc => target.wrap n
  | .sext => target.wrap (source.signed n)
  | .zext => target.wrap (source.unsigned n)

/-- An operation in a type: a result out of range wraps around, but not that
of a division, which goes toward zero. -/
def arith (op : Arith) (ty : Ty) (a b : Int) : Except Fault Int :=
  match op with
  | .add => .ok (ty.wrap (a + b))
  | .sub => .ok (ty.wrap (a - b))
  | .mul => .ok (ty.wrap (a * b))
  | .div =>
    if b = 0 then .error .divide
    else if ty.wrap (a.tdiv b) = a.tdiv b then .ok (a.tdiv b)
    else .error .divide

-- ================================================================ memory

/-- What a run works on: temporaries, local slots, global slots, and the
arguments by the names of the parameters. -/
structure Memory where
  temps : Nat → Option Int
  locals : String → Option Int
  globals : String → Int
  args : String → Option Int

namespace Memory

/-- The number that should be there. -/
def found : Option Int → Except Fault Int
  | some n => .ok n
  | none => .error .stuck

/-- The number of a value. -/
def read (m : Memory) : Value → Except Fault Int
  | .constant ty text =>
    if ty.isInteger then ty.wrap <$> found (Integer.ofText? text) else .error .stuck
  | .temp _ index => found (m.temps index)
  | .argument ty name => if ty.isInteger then ty.wrap <$> found (m.args name) else .error .stuck

/-- The number in a slot. -/
def load (m : Memory) (slot : Slot) : Except Fault Int :=
  if slot.isGlobal then .ok (m.globals slot.name) else found (m.locals slot.name)

/-- Puts a number into a slot. -/
def put (m : Memory) (slot : Slot) (n : Int) : Memory :=
  if slot.isGlobal then
    { m with globals := fun name => if name = slot.name then n else m.globals name }
  else { m with locals := fun name => if name = slot.name then some n else m.locals name }

/-- Leaves a local slot without a value. -/
def reserve (m : Memory) (slot : Slot) : Memory :=
  { m with locals := fun name => if name = slot.name then none else m.locals name }

/-- Gives a temporary its number. -/
def setTemp (m : Memory) (index : Nat) (n : Int) : Memory :=
  { m with temps := fun i => if i = index then some n else m.temps i }

/-- The number a definition computes. -/
def compute (m : Memory) : Definition → Except Fault Int
  | .load slot => m.load slot
  | .arith op ty lhs rhs => do
    let a ← m.read lhs
    let b ← m.read rhs
    IR.arith op ty a b
  | .compare op lhs rhs => do
    let a ← m.read lhs
    let b ← m.read rhs
    return if op.holdsInt (lhs.ty.signed a) (rhs.ty.signed b) then 1 else 0
  | .cast op value ty => do
    let n ← m.read value
    return op.apply value.ty ty n

/-- An instruction that is no terminator. -/
def exec (m : Memory) : Instr → Except Fault Memory
  | .alloca slot => .ok (m.reserve slot)
  | .define index definition =>
    if definition.ty.isInteger then m.setTemp index <$> m.compute definition
    else .error .stuck
  | .store value slot => if slot.ty.isInteger then m.put slot <$> m.read value else .error .stuck
  | .ret _ | .jump _ | .branch _ _ _ => .error .stuck

section Reading

variable {m : Memory} {ty : Ty} {n : Int}

/-- A constant is the number that is written, cut to its type. -/
theorem read_constant {text : String} (hty : ty.isInteger = true)
    (h : Integer.ofText? text = some n) : m.read (.constant ty text) = .ok (ty.wrap n) := by
  show (if ty.isInteger then ty.wrap <$> found (Integer.ofText? text) else .error .stuck) = _
  rw [if_pos hty, h]
  rfl

theorem read_temp {index : Nat} (h : m.temps index = some n) :
    m.read (.temp ty index) = .ok n := by
  show found (m.temps index) = _
  rw [h]
  rfl

theorem read_argument {name : String} (hty : ty.isInteger = true) (h : m.args name = some n) :
    m.read (.argument ty name) = .ok (ty.wrap n) := by
  show (if ty.isInteger then ty.wrap <$> found (m.args name) else .error .stuck) = _
  rw [if_pos hty, h]
  rfl

/-- Arithmetic is done on the values of its operands. -/
theorem compute_arith {op : Arith} {lhs rhs : Value} {a b : Int} (ha : m.read lhs = .ok a)
    (hb : m.read rhs = .ok b) : m.compute (.arith op ty lhs rhs) = IR.arith op ty a b := by
  show (m.read lhs >>= fun a => m.read rhs >>= fun b => IR.arith op ty a b) = _
  rw [ha, hb]
  rfl

/-- A comparison is of the numbers that the operands stand for, signed by their
type. -/
theorem compute_compare {op : Comparison} {lhs rhs : Value} {a b : Int}
    (ha : m.read lhs = .ok a) (hb : m.read rhs = .ok b) :
    m.compute (.compare op lhs rhs)
      = .ok (if op.holdsInt (lhs.ty.signed a) (rhs.ty.signed b) then 1 else 0) := by
  show (m.read lhs >>= fun a => m.read rhs >>= fun b =>
    pure (if op.holdsInt (lhs.ty.signed a) (rhs.ty.signed b) then 1 else 0)) = _
  rw [ha, hb]
  rfl

theorem compute_cast {op : Cast} {value : Value} (h : m.read value = .ok n) :
    m.compute (.cast op value ty) = .ok (op.apply value.ty ty n) := by
  show (m.read value >>= fun n => pure (op.apply value.ty ty n)) = _
  rw [h]
  rfl

/-- A definition gives its temporary the value that is computed. -/
theorem exec_define {definition : Definition} (index : Nat)
    (hty : definition.ty.isInteger = true) (h : m.compute definition = .ok n) :
    m.exec (.define index definition) = .ok (m.setTemp index n) := by
  show (if definition.ty.isInteger then m.setTemp index <$> m.compute definition
    else .error .stuck) = _
  rw [if_pos hty, h]
  rfl

/-- A store gives its slot the value that is read. -/
theorem exec_store {value : Value} {slot : Slot} (hty : slot.ty.isInteger = true)
    (h : m.read value = .ok n) : m.exec (.store value slot) = .ok (m.put slot n) := by
  show (if slot.ty.isInteger then m.put slot <$> m.read value else .error .stuck) = _
  rw [if_pos hty, h]
  rfl

end Reading

end Memory

-- =============================================================== control

/-- The instructions behind a label. -/
def Function.goto (fn : Function) (label : String) : Except Fault (List Instr) :=
  match fn.blocks.find? (·.label == label) with
  | some block => .ok block.body
  | none => .error .stuck

/-- Runs instructions to the function's return: what it gives back, and the
globals behind it. -/
def Function.run (fn : Function) :
    Nat → List Instr → Memory → Except Fault (Option Int × (String → Int))
  | 0, _, _ => .error .unfinished
  | _ + 1, [], _ => .error .stuck
  | fuel + 1, instr :: rest, m =>
    match instr with
    | .ret none => .ok (none, m.globals)
    | .ret (some value) => (fun n => (some n, m.globals)) <$> m.read value
    | .jump label => do
      let body ← fn.goto label
      fn.run fuel body m
    | .branch condition onTrue onFalse => do
      let n ← m.read condition
      let body ← fn.goto (if n = 0 then onFalse else onTrue)
      fn.run fuel body m
    | instr => do
      let m ← m.exec instr
      fn.run fuel rest m

/-- The memory in which a function starts; of two parameters of one name the
later counts. -/
def Function.enter (fn : Function) (args : List Int) (globals : String → Int) : Memory where
  temps _ := none
  locals _ := none
  globals
  args name := ((fn.params.map (·.1)).zip args).reverse.lookup name

/-- What a function gives back for its arguments, and the globals behind
it. -/
def Function.call (fn : Function) (fuel : Nat) (args : List Int) (globals : String → Int) :
    Except Fault (Option Int × (String → Int)) :=
  match fn.blocks with
  | [] => .error .stuck
  | entry :: _ => fn.run fuel entry.body (fn.enter args globals)

-- ================================================================== runs

section Runs

variable {fn : Function} {rest rest' rest'' : List Instr} {m m' m'' : Memory}

/-- Whether a run from one point passes through another. -/
def Leads (fn : Function) (rest : List Instr) (m : Memory) (rest' : List Instr) (m' : Memory) :
    Prop :=
  ∃ k, ∀ fuel, fn.run (fuel + k) rest m = fn.run fuel rest' m'

/-- Whether a run from a point ends, with the given value and globals. -/
def Returns (fn : Function) (rest : List Instr) (m : Memory) (value : Option Int)
    (globals : String → Int) : Prop :=
  ∃ fuel, fn.run fuel rest m = .ok (value, globals)

theorem Leads.refl (fn : Function) (rest : List Instr) (m : Memory) :
    Leads fn rest m rest m :=
  ⟨0, fun _ => rfl⟩

/-- A run that passes through a point passes through what follows it. -/
theorem Leads.trans (h : Leads fn rest m rest' m') (h' : Leads fn rest' m' rest'' m'') :
    Leads fn rest m rest'' m'' := by
  obtain ⟨k, hk⟩ := h
  obtain ⟨l, hl⟩ := h'
  refine ⟨l + k, fun fuel => ?_⟩
  rw [← Nat.add_assoc, hk, hl]

/-- A run returns what it leads to. -/
theorem Leads.returns {value : Option Int} {globals : String → Int}
    (h : Leads fn rest m rest' m') (h' : Returns fn rest' m' value globals) :
    Returns fn rest m value globals := by
  obtain ⟨k, hk⟩ := h
  obtain ⟨fuel, hfuel⟩ := h'
  exact ⟨fuel + k, by rw [hk, hfuel]⟩

/-- An instruction that is no terminator is executed, and the run goes on
behind it. -/
theorem run_exec {instr : Instr} (h : instr.isTerminator = false) (fuel : Nat) :
    fn.run (fuel + 1) (instr :: rest) m = m.exec instr >>= fun m => fn.run fuel rest m := by
  cases instr <;> first | rfl | cases h

/-- An instruction that is no terminator leads to the next. -/
theorem leads_exec {instr : Instr} (h : m.exec instr = .ok m') :
    Leads fn (instr :: rest) m rest m' := by
  have hinstr : instr.isTerminator = false := by
    cases instr <;> first | rfl | cases h
  refine ⟨1, fun fuel => ?_⟩
  rw [run_exec hinstr, h]
  rfl

/-- A jump leads to the block it names. -/
theorem leads_jump {label : String} (h : fn.goto label = .ok rest') :
    Leads fn (.jump label :: rest) m rest' m := by
  refine ⟨1, fun fuel => ?_⟩
  show (fn.goto label >>= fun body => fn.run fuel body m) = _
  rw [h]
  rfl

/-- A branch goes on at the label its condition chooses. -/
theorem run_branch {condition : Value} {onTrue onFalse : String} {n : Int}
    (hread : m.read condition = .ok n)
    (h : fn.goto (if n = 0 then onFalse else onTrue) = .ok rest') (fuel : Nat) :
    fn.run (fuel + 1) (.branch condition onTrue onFalse :: rest) m = fn.run fuel rest' m := by
  show (m.read condition >>= fun n =>
    fn.goto (if n = 0 then onFalse else onTrue) >>= fun body => fn.run fuel body m) = _
  rw [hread]
  show (fn.goto (if n = 0 then onFalse else onTrue) >>= fun body => fn.run fuel body m) = _
  rw [h]
  rfl

/-- A branch leads to the block that its condition picks. -/
theorem leads_branch {condition : Value} {onTrue onFalse : String} {n : Int}
    (hread : m.read condition = .ok n)
    (h : fn.goto (if n = 0 then onFalse else onTrue) = .ok rest') :
    Leads fn (.branch condition onTrue onFalse :: rest) m rest' m :=
  ⟨1, run_branch hread h⟩

theorem returns_none : Returns fn (.ret none :: rest) m none m.globals :=
  ⟨1, rfl⟩

theorem returns_some {value : Value} {n : Int} (h : m.read value = .ok n) :
    Returns fn (.ret (some value) :: rest) m (some n) m.globals := by
  refine ⟨1, ?_⟩
  show (fun n => (some n, m.globals)) <$> m.read value = _
  rw [h]
  rfl

-- ============================================================== failing

/-- Whether a run from a point fails, whatever it is given. -/
def Stops (fn : Function) (rest : List Instr) (m : Memory) (fault : Fault) : Prop :=
  ∃ k, ∀ fuel, fn.run (fuel + k) rest m = .error fault

/-- Whether a run from a point takes more than `n` instructions. -/
def Lasts (fn : Function) (rest : List Instr) (m : Memory) (n : Nat) : Prop :=
  ∀ fuel ≤ n, fn.run fuel rest m = .error .unfinished

/-- A run that has ended ends so with more instructions. -/
theorem run_succ {fuel : Nat} (h : fn.run fuel rest m ≠ .error .unfinished) :
    fn.run (fuel + 1) rest m = fn.run fuel rest m := by
  induction fuel generalizing rest m with
  | zero => exact absurd rfl h
  | succ fuel ih =>
      have hgo : ∀ {label : String},
          (fn.goto label >>= fun body => fn.run fuel body m) ≠ .error .unfinished →
          (fn.goto label >>= fun body => fn.run (fuel + 1) body m)
            = fn.goto label >>= fun body => fn.run fuel body m := by
        intro label h
        cases hgoto : fn.goto label with
        | error fault => rfl
        | ok body =>
            rw [hgoto] at h
            exact ih h
      have hexec : ∀ {instr : Instr} {rest : List Instr},
          (m.exec instr >>= fun m => fn.run fuel rest m) ≠ .error .unfinished →
          (m.exec instr >>= fun m => fn.run (fuel + 1) rest m)
            = m.exec instr >>= fun m => fn.run fuel rest m := by
        intro instr rest h
        cases hm : m.exec instr with
        | error fault => rfl
        | ok m' =>
            rw [hm] at h
            exact ih h
      cases rest with
      | nil => rfl
      | cons instr rest =>
          cases instr with
          | ret value => cases value <;> rfl
          | jump label => exact hgo h
          | branch condition onTrue onFalse =>
              have h : (m.read condition >>= fun n =>
                fn.goto (if n = 0 then onFalse else onTrue) >>= fun body => fn.run fuel body m)
                  ≠ .error .unfinished := h
              show (m.read condition >>= fun n => fn.goto (if n = 0 then onFalse else onTrue)
                >>= fun body => fn.run (fuel + 1) body m) = (m.read condition >>= fun n =>
                fn.goto (if n = 0 then onFalse else onTrue) >>= fun body => fn.run fuel body m)
              cases hread : m.read condition with
              | error fault => rfl
              | ok n =>
                  rw [hread] at h
                  exact hgo h
          | alloca slot => exact hexec h
          | define index definition => exact hexec h
          | store value slot => exact hexec h

/-- A run that has ended ends the same way with more instructions to take. -/
theorem run_add (fuel : Nat) (h : fn.run fuel rest m ≠ .error .unfinished) (k : Nat) :
    fn.run (fuel + k) rest m = fn.run fuel rest m := by
  induction k with
  | zero => rfl
  | succ k ih =>
      rw [← Nat.add_assoc, run_succ, ih]
      rwa [ih]

/-- A run fails where it leads to a failure. -/
theorem Leads.stops {fault : Fault} (h : Leads fn rest m rest' m')
    (h' : Stops fn rest' m' fault) : Stops fn rest m fault := by
  obtain ⟨k, hk⟩ := h
  obtain ⟨l, hl⟩ := h'
  refine ⟨l + k, fun fuel => ?_⟩
  rw [← Nat.add_assoc, hk, hl]

/-- A run lasts as long as what it leads to. -/
theorem Leads.lasts {n : Nat} (h : Leads fn rest m rest' m') (h' : Lasts fn rest' m' n) :
    Lasts fn rest m n := by
  obtain ⟨k, hk⟩ := h
  intro fuel hfuel
  refine Classical.byContradiction fun hne => hne ?_
  rw [← run_add _ hne k, hk, h' fuel hfuel]

theorem Lasts.mono {n n' : Nat} (h : Lasts fn rest m n) (hle : n' ≤ n) : Lasts fn rest m n' :=
  fun fuel hfuel => h fuel (Nat.le_trans hfuel hle)

/-- An instruction that is no terminator and fails stops the run. -/
theorem stops_exec {instr : Instr} (hinstr : instr.isTerminator = false)
    (h : m.exec instr = .error fault) : Stops fn (instr :: rest) m fault := by
  refine ⟨1, fun fuel => ?_⟩
  rw [run_exec hinstr, h]
  rfl

/-- A branch is one instruction of a run that lasts. -/
theorem lasts_branch {condition : Value} {onTrue onFalse : String} {n : Int} {count : Nat}
    (hread : m.read condition = .ok n)
    (h : fn.goto (if n = 0 then onFalse else onTrue) = .ok rest')
    (hlasts : Lasts fn rest' m count) :
    Lasts fn (.branch condition onTrue onFalse :: rest) m (count + 1) := by
  intro fuel hfuel
  cases fuel with
  | zero => rfl
  | succ fuel =>
      rw [run_branch hread h]
      exact hlasts fuel (Nat.le_of_succ_le_succ hfuel)

/-- A run returns one thing. -/
theorem Returns.unique {value value' : Option Int} {globals globals' : String → Int}
    (h : Returns fn rest m value globals) (h' : Returns fn rest m value' globals') :
    value = value' ∧ globals = globals' := by
  obtain ⟨fuel, hrun⟩ := h
  obtain ⟨fuel', hrun'⟩ := h'
  have hmore := run_add fuel (by rw [hrun]; exact nofun) fuel'
  have hmore' := run_add fuel' (by rw [hrun']; exact nofun) fuel
  rw [Nat.add_comm, hmore', hrun, hrun'] at hmore
  cases hmore
  exact ⟨rfl, rfl⟩

end Runs

end MiniC.IR
