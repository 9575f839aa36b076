/-
The machine that generated expressions run on: registers of 64 bits, flags, and memory.

# Registers and numbers

A write to the low 32 bits of a register clears the high ones, a narrower write leaves
them. Numbers are read as signed ones: what a register or a place holds at some width is
the number that its low bits are, and writing a number puts its bits there.

# Flags

Flags are kept as far as signed conditions look at them, and are unknown where the
processor leaves them undefined, so that no condition can be proved of them there. That
the condition codes decide what they are named for is `holds_flagsOf`.

# Faults

A run faults when a division has no result, when a push finds no room, or when an
instruction has no encoding or no meaning here: calls and returns, floating point
numbers and the addresses of strings are left out. Consumed by the proofs about
generated code.
-/
import MiniC.Asm.Instr
import MiniC.Proofs.Machine.Memory
import MiniC.Proofs.Source.Value

namespace MiniC.Machine

open Asm

/-- The flags of the last operation that signed conditions depend on. -/
structure Flags where
  zero : Bool
  sign : Bool
  overflow : Bool
deriving DecidableEq

/-- A machine; flags may be unknown. -/
structure Machine where
  regs : Reg → BitVec 64
  flags : Option Flags
  memory : Memory

/-- Why a run stops early. -/
inductive Fault where
  | divide
  | stack
  | illegal
deriving DecidableEq, Repr

-- ============================================================ registers

/-- The low part of a register, as a signed number. -/
def low (w : Width) (x : BitVec 64) : Int := Integer.wrap w.bytes x.toNat

/-- A register after a number was written to its low part. -/
def put (w : Width) (old : BitVec 64) (n : Int) : BitVec 64 :=
  match w with
  | .byte => BitVec.ofInt 64 (old.toNat / 256 * 256 + n % 256)
  | .word => BitVec.ofInt 64 (old.toNat / 65536 * 65536 + n % 65536)
  | .dword => BitVec.ofInt 64 (n % 4294967296)
  | .qword => BitVec.ofInt 64 n

namespace Machine

/-- The machine with a register changed. -/
def setReg (m : Machine) (r : Reg) (x : BitVec 64) : Machine :=
  { m with regs := fun q => if q = r then x else m.regs q }

/-- The machine with the low part of a register changed. -/
def putReg (m : Machine) (w : Width) (r : Reg) (n : Int) : Machine :=
  m.setReg r (put w (m.regs r) n)

/-- The address of a place. -/
def addressOf (m : Machine) : Place → Address
  | .stack offset => .stack (m.regs .rbp - BitVec.ofNat 64 offset)
  | .static name offset => .static name offset

/-- The number in a place. -/
def loadPlace (m : Machine) (w : Width) (p : Place) : Int :=
  Integer.wrap w.bytes (load m.memory (m.addressOf p) w.bytes)

/-- The machine with a number stored in a place. -/
def storePlace (m : Machine) (w : Width) (p : Place) (n : Int) : Machine :=
  { m with memory :=
      store m.memory (m.addressOf p) w.bytes (n % (256 ^ w.bytes : Nat)).toNat }

-- ============================================================= operands

/-- The number an operand stands for in an instruction of a width. An
immediate has 32 bits, and is extended by its sign. -/
def read (m : Machine) (w : Width) : Operand → Except Fault Int
  | .reg w' r => if w' = w then .ok (low w (m.regs r)) else .error .illegal
  | .mem w' p => if w' = w then .ok (m.loadPlace w p) else .error .illegal
  | .imm n => if Integer.fitsInt n then .ok (Integer.wrap w.bytes n) else .error .illegal
  | .mask n => if Integer.fitsInt n then .ok (Integer.wrap w.bytes n) else .error .illegal
  | .real _ _ => .error .illegal

/-- The width of an operand that can be written to. -/
def width : Operand → Except Fault Width
  | .reg w _ => .ok w
  | .mem w _ => .ok w
  | _ => .error .illegal

/-- The machine with a number written to an operand. -/
def write (m : Machine) (n : Int) : Operand → Except Fault Machine
  | .reg w r => .ok (m.putReg w r n)
  | .mem w p => .ok (m.storePlace w p n)
  | _ => .error .illegal

/-- No instruction takes two operands from memory. -/
def twoPlaces : Operand → Operand → Bool
  | .mem _ _, .mem _ _ => true
  | _, _ => false

end Machine

-- ========================================================= instructions

/-- The flags of a result that was to be `exact` and became `n`. -/
def flagsOf (exact n : Int) : Flags := ⟨n = 0, n < 0, n ≠ exact⟩

/-- Whether a signed condition holds. -/
def holds : Comparison → Flags → Bool
  | .lt, f => f.sign != f.overflow
  | .gt, f => !f.zero && f.sign == f.overflow
  | .le, f => f.zero || f.sign != f.overflow
  | .ge, f => f.sign == f.overflow
  | .eq, f => f.zero
  | .ne, f => !f.zero

/-- The result of an operation on numbers of a width, and its flags; those
of a product are partly undefined. -/
def compute (op : Alu) (w : Width) (a b : Int) : Int × Option Flags :=
  let wrapped (exact : Int) : Int × Option Flags :=
    let n := Integer.wrap w.bytes exact
    (n, some (flagsOf exact n))
  let bits (f : BitVec 64 → BitVec 64 → BitVec 64) : Int × Option Flags :=
    let n := Integer.wrap w.bytes (f (BitVec.ofInt 64 a) (BitVec.ofInt 64 b)).toNat
    (n, some (flagsOf n n))
  match op with
  | .add => wrapped (a + b)
  | .sub => wrapped (a - b)
  | .cmp => wrapped (a - b)
  | .imul => (Integer.wrap w.bytes (a * b), none)
  | .xor => bits (· ^^^ ·)
  | .and => bits (· &&& ·)

namespace Machine

/-- A move. Only a move to a whole register takes an immediate of 64 bits. -/
def move (m : Machine) (dst src : Operand) : Except Fault Machine := do
  let w ← width dst
  match dst, src with
  | .reg .qword r, .imm n =>
    if Integer.fitsLong n then .ok (m.putReg .qword r n) else .error .illegal
  | dst, src =>
    if twoPlaces dst src then .error .illegal
    else
      let n ← m.read w src
      m.write n dst

/-- An operation with a destination. A comparison writes flags alone, and a
product goes to a register. -/
def operation (m : Machine) (op : Alu) (dst src : Operand) : Except Fault Machine := do
  if twoPlaces dst src then .error .illegal
  else
    let w ← width dst
    let a ← m.read w dst
    let b ← m.read w src
    let (n, flags) := compute op w a b
    match op, dst with
    | .cmp, _ => .ok { m with flags }
    | .imul, .mem _ _ => .error .illegal
    | _, dst => (fun m => { m with flags }) <$> m.write n dst

/-- A move that widens a number into a register. -/
def widening (m : Machine) (op : Widen) (dst src : Operand) : Except Fault Machine := do
  match dst with
  | .reg w r =>
    let from_ ← width src
    let n ← m.read from_ src
    match op, from_ with
    | .movsxd, .dword => if w = .qword then .ok (m.putReg w r n) else .error .illegal
    | .movsx, .byte | .movsx, .word =>
      if from_.bytes < w.bytes then .ok (m.putReg w r n) else .error .illegal
    | .movzx, .byte | .movzx, .word =>
      if from_.bytes < w.bytes then .ok (m.putReg w r (n % (256 ^ from_.bytes : Nat)))
      else .error .illegal
    | _, _ => .error .illegal
  | _ => .error .illegal

/-- A signed division of rdx and rax together. -/
def division (m : Machine) (divisor : Operand) : Except Fault Machine := do
  let w ← width divisor
  if w = .byte || w = .word then .error .illegal
  else
    let d ← m.read w divisor
    let n := low w (m.regs .rdx) * (256 ^ w.bytes : Nat)
      + low w (m.regs .rax) % (256 ^ w.bytes : Nat)
    if d = 0 then .error .divide
    else if Integer.wrap w.bytes (n.tdiv d) ≠ n.tdiv d then .error .divide
    else .ok { (m.putReg w .rax (n.tdiv d)).putReg w .rdx (n.tmod d) with flags := none }

/-- A push; below the first eight bytes there is no room. -/
def push (m : Machine) (r : Reg) : Except Fault Machine :=
  if (m.regs .rsp).toNat < 8 then .error .stack
  else
    let top := m.regs .rsp - 8
    .ok { m.setReg .rsp top with memory := store m.memory (.stack top) 8 (m.regs r).toNat }

/-- A pop. -/
def pop (m : Machine) (r : Reg) : Machine :=
  let top := m.regs .rsp
  (m.setReg .rsp (top + 8)).setReg r (BitVec.ofNat 64 (load m.memory (.stack top) 8))

/-- One instruction. -/
def step (m : Machine) : Instr → Except Fault Machine
  | .mov dst src => m.move dst src
  | .alu op dst src => m.operation op dst src
  | .widen op dst src => m.widening op dst src
  | .set condition r =>
    match m.flags with
    | some flags => .ok (m.putReg .byte r (if holds condition flags then 1 else 0))
    | none => .error .illegal
  | .neg w r =>
    let a := low w (m.regs r)
    let n := Integer.wrap w.bytes (-a)
    .ok { m.putReg w r n with flags := some (flagsOf (-a) n) }
  | .idiv divisor => m.division divisor
  | .cdqe => .ok (m.putReg .qword .rax (low .dword (m.regs .rax)))
  | .cdq => .ok (m.putReg .dword .rdx (if low .dword (m.regs .rax) < 0 then -1 else 0))
  | .cqo => .ok (m.putReg .qword .rdx (if low .qword (m.regs .rax) < 0 then -1 else 0))
  | .push r => m.push r
  | .pop r => .ok (m.pop r)
  | .lea _ _ => .error .illegal
  | .leave => .error .illegal
  | .ret => .error .illegal

/-- Instructions in order. -/
def exec (code : List Instr) (m : Machine) : Except Fault Machine := code.foldlM step m

@[simp] theorem exec_nil (m : Machine) : exec [] m = .ok m := rfl

@[simp] theorem exec_cons (i : Instr) (code : List Instr) (m : Machine) :
    exec (i :: code) m = m.step i >>= exec code := rfl

/-- An instruction is taken, and then the rest. -/
theorem exec_step {i : Instr} {m m' : Machine} (h : m.step i = .ok m') (code : List Instr) :
    exec (i :: code) m = exec code m' := by
  rw [exec_cons, h]
  rfl

/-- Code that follows other code runs behind it. -/
theorem exec_append (a b : List Instr) (m : Machine) :
    exec (a ++ b) m = exec a m >>= exec b :=
  List.foldlM_append

end Machine

-- ======================================================== what is read

theorem toNat_ofInt64 (n : Int) :
    ((BitVec.ofInt 64 n).toNat : Int) = n % 18446744073709551616 := by
  rw [BitVec.toNat_ofInt]
  omega

/-- The bytes above those that are kept do not matter. -/
theorem wrap_emod (bytes : Nat) (n : Int) :
    Integer.wrap bytes (n % (256 ^ bytes : Nat)) = Integer.wrap bytes n := by
  have hpow : 256 ^ bytes = Nat.pow 2 (8 * bytes) := (Nat.pow_mul 2 8 bytes).symm
  rw [hpow]
  exact Int.emod_bmod _ _

/-- A part of a part. -/
theorem wrap_low {w w' : Width} (h : w'.bytes ≤ w.bytes) (x : BitVec 64) :
    Integer.wrap w'.bytes (low w x) = low w' x :=
  Source.wrap_narrower h _

/-- What was written to the low part of a register is read from it, and from
its narrower parts. -/
theorem low_put {w w' : Width} (h : w'.bytes ≤ w.bytes) (old : BitVec 64) (n : Int) :
    low w' (put w old n) = Integer.wrap w'.bytes n := by
  have hsame : low w (put w old n) = Integer.wrap w.bytes n := by
    have hold := old.isLt
    unfold low put
    cases w <;>
      simp only [Width.bytes, toNat_ofInt64, Source.wrap_one, Source.wrap_two, Source.wrap_four,
        Source.wrap_eight] <;>
      split <;> split <;> omega
  rw [← wrap_low h, hsame, Source.wrap_narrower h]

/-- A byte written into a cleared register is read as a word without its
sign. -/
theorem low_put_cleared (old : BitVec 64) (n : Int) :
    low .word (put .byte (put .dword old 0) n) = n % 256 := by
  unfold low put
  have hzero : (BitVec.ofInt 64 ((0 : Int) % 4294967296)).toNat = 0 := by decide
  simp only [Width.bytes, hzero, toNat_ofInt64, Source.wrap_two]
  split <;> omega

namespace Machine

@[simp] theorem setReg_regs (m : Machine) (r q : Reg) (x : BitVec 64) :
    (m.setReg r x).regs q = if q = r then x else m.regs q := rfl

@[simp] theorem setReg_memory (m : Machine) (r : Reg) (x : BitVec 64) :
    (m.setReg r x).memory = m.memory := rfl

@[simp] theorem putReg_regs (m : Machine) (w : Width) (r q : Reg) (n : Int) :
    (m.putReg w r n).regs q = if q = r then put w (m.regs r) n else m.regs q := rfl

@[simp] theorem putReg_memory (m : Machine) (w : Width) (r : Reg) (n : Int) :
    (m.putReg w r n).memory = m.memory := rfl

@[simp] theorem putReg_flags (m : Machine) (w : Width) (r : Reg) (n : Int) :
    (m.putReg w r n).flags = m.flags := rfl

@[simp] theorem storePlace_regs (m : Machine) (w : Width) (p : Place) (n : Int) :
    (m.storePlace w p n).regs = m.regs := rfl

/-- Where a place is depends on the base pointer. -/
theorem addressOf_congr {m m' : Machine} (h : m'.regs .rbp = m.regs .rbp) (p : Place) :
    m'.addressOf p = m.addressOf p := by
  cases p with
  | stack offset =>
      unfold addressOf
      rw [h]
  | static name offset => rfl

/-- What a place holds depends on the base pointer and on memory. -/
theorem loadPlace_congr {m m' : Machine} (hrbp : m'.regs .rbp = m.regs .rbp)
    (hmem : m'.memory = m.memory) (w : Width) (p : Place) :
    m'.loadPlace w p = m.loadPlace w p := by
  unfold loadPlace
  rw [addressOf_congr hrbp, hmem]

/-- What is in a place depends on its bytes alone. -/
theorem loadPlace_bytes {m m' : Machine} {w : Width} {p : Place}
    (hrbp : m'.regs .rbp = m.regs .rbp)
    (hmem : ∀ c, Within (m.addressOf p) w.bytes c → m'.memory c = m.memory c) :
    m'.loadPlace w p = m.loadPlace w p := by
  unfold loadPlace
  rw [addressOf_congr hrbp]
  exact congrArg (fun k : Nat => Integer.wrap w.bytes k) (load_congr hmem)

/-- The narrower part of a place holds the number's low part. -/
theorem wrap_loadPlace {w w' : Width} (h : w'.bytes ≤ w.bytes) (m : Machine) (p : Place) :
    Integer.wrap w'.bytes (m.loadPlace w p) = m.loadPlace w' p := by
  obtain ⟨k, hk⟩ := Nat.exists_eq_add_of_le h
  have hlow := load_low m.memory (m.addressOf p) w'.bytes k
  unfold loadPlace
  rw [Source.wrap_narrower h, ← hlow, ← hk, Int.natCast_emod, wrap_emod]

/-- A place holds a number of its width. -/
theorem wrap_loadPlace_self (m : Machine) (w : Width) (p : Place) :
    Integer.wrap w.bytes (m.loadPlace w p) = m.loadPlace w p :=
  Source.wrap_wrap _ _

/-- A number stored in a place is there. -/
theorem loadPlace_storePlace (m : Machine) (w : Width) (p : Place) (n : Int) :
    (m.storePlace w p n).loadPlace w p = Integer.wrap w.bytes n := by
  have haddr : (m.storePlace w p n).addressOf p = m.addressOf p := addressOf_congr rfl p
  unfold loadPlace
  rw [haddr]
  show Integer.wrap w.bytes (load (store m.memory (m.addressOf p) w.bytes _)
    (m.addressOf p) w.bytes) = _
  rw [load_store (by cases w <;> decide)]
  cases w <;>
    simp only [Width.bytes, Source.wrap_one, Source.wrap_two, Source.wrap_four,
      Source.wrap_eight, Nat.reducePow] <;>
    split <;> split <;> omega

/-- What lies apart from a place is not changed by a store to it. -/
theorem loadPlace_storePlace_apart {m : Machine} {w w' : Width} {p q : Place} {n : Int}
    (h : ∀ a, Within (m.addressOf q) w'.bytes a → ¬ Within (m.addressOf p) w.bytes a) :
    (m.storePlace w p n).loadPlace w' q = m.loadPlace w' q := by
  have haddr : (m.storePlace w p n).addressOf q = m.addressOf q := addressOf_congr rfl q
  unfold loadPlace
  rw [haddr]
  exact congrArg (fun k : Nat => Integer.wrap w'.bytes k) (load_store_apart h)

end Machine

-- =========================================================== conditions

/-- Comparing numbers of a width sets the flags that their comparison asks
for. -/
theorem holds_flagsOf (op : Comparison) {w : Width} {a b : Int}
    (ha : Integer.wrap w.bytes a = a) (hb : Integer.wrap w.bytes b = b) :
    holds op (flagsOf (a - b) (Integer.wrap w.bytes (a - b))) = op.holdsInt a b := by
  have hzero : Integer.wrap w.bytes (a - b) = 0 ↔ a = b := by
    cases w <;>
      simp only [Width.bytes, Source.wrap_one, Source.wrap_two, Source.wrap_four,
        Source.wrap_eight] at ha hb ⊢ <;>
      omega
  have hless : ((Integer.wrap w.bytes (a - b) < 0) ↔
      ¬ (Integer.wrap w.bytes (a - b) ≠ a - b)) ↔ a < b := by
    cases w <;>
      simp only [Width.bytes, Source.wrap_one, Source.wrap_two, Source.wrap_four,
        Source.wrap_eight] at ha hb ⊢ <;>
      omega
  unfold holds flagsOf Comparison.holdsInt
  generalize Integer.wrap w.bytes (a - b) = n at hzero hless
  cases op <;> grind

end MiniC.Machine
