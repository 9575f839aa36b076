/-
What the instructions of generated expressions do, one lemma for each form
they are generated in. The proofs about generated code chain these and do
not look into the machine again.

Each lemma names the machine behind the instruction by the register or the place it
puts a number into, under what the instruction asks for: operands of one width, an
immediate that fits, flags that were set by a comparison. Reading a register at some
width gives the number that its low bits are (`low`), so a value that was put there is
read back cut to that width (`put_wrap`). Division is described for a dividend that
was spread over two registers, as the generated code does it in front of every
division; then it is the division of numbers, unless the quotient does not fit or the
divisor is zero.
-/
import MiniC.Proofs.Machine.Exec

namespace MiniC.Machine

open Asm

/-- Of a number that is written to a part of a register, the low bytes
matter. -/
theorem put_wrap (w : Width) (old : BitVec 64) (n : Int) :
    put w old (Integer.wrap w.bytes n) = put w old n := by
  unfold put
  cases w with
  | byte =>
      have h : Integer.wrap 1 n % 256 = n % 256 := Int.bmod_emod
      show BitVec.ofInt 64 (_ + Integer.wrap 1 n % 256) = _
      rw [h]
  | word =>
      have h : Integer.wrap 2 n % 65536 = n % 65536 := Int.bmod_emod
      show BitVec.ofInt 64 (_ + Integer.wrap 2 n % 65536) = _
      rw [h]
  | dword =>
      have h : Integer.wrap 4 n % 4294967296 = n % 4294967296 := Int.bmod_emod
      show BitVec.ofInt 64 (Integer.wrap 4 n % 4294967296) = _
      rw [h]
  | qword =>
      apply BitVec.eq_of_toInt_eq
      show (BitVec.ofInt 64 (Integer.wrap 8 n)).toInt = (BitVec.ofInt 64 n).toInt
      rw [BitVec.toInt_ofInt, BitVec.toInt_ofInt]
      exact Int.bmod_bmod

namespace Machine

variable (m : Machine)

-- ============================================================= operands

@[simp] theorem read_reg (w : Width) (r : Reg) : m.read w (.reg w r) = .ok (low w (m.regs r)) :=
  if_pos rfl

@[simp] theorem read_mem (w : Width) (p : Place) : m.read w (.mem w p) = .ok (m.loadPlace w p) :=
  if_pos rfl

/-- An immediate is read cut to the width it is read at. -/
theorem read_imm (w : Width) {n : Int} (h : Integer.fitsInt n = true) :
    m.read w (.imm n) = .ok (Integer.wrap w.bytes n) :=
  if_pos h

theorem wrap_zero (w : Width) : Integer.wrap w.bytes 0 = 0 := by
  cases w <;> rfl

theorem read_zero (w : Width) : m.read w (.imm 0) = .ok 0 := by
  rw [read_imm m w (by decide), wrap_zero]

-- ================================================================ moves

/-- A load puts what a place holds into a register. -/
theorem step_load (w : Width) (r : Reg) (p : Place) :
    m.step (.mov (.reg w r) (.mem w p)) = .ok (m.putReg w r (m.loadPlace w p)) := by
  unfold step move
  cases w <;> rfl

/-- A copy puts the low bits of a register into another. -/
theorem step_copy (w : Width) (r q : Reg) :
    m.step (.mov (.reg w r) (.reg w q)) = .ok (m.putReg w r (low w (m.regs q))) := by
  unfold step move
  cases w <;> rfl

/-- A store puts the low bits of a register into a place. -/
theorem step_store (w : Width) (r : Reg) (p : Place) :
    m.step (.mov (.mem w p) (.reg w r)) = .ok (m.storePlace w p (low w (m.regs r))) := by
  unfold step move
  cases w <;> rfl

theorem fitsLong_of_fitsInt {n : Int} (h : Integer.fitsInt n = true) :
    Integer.fitsLong n = true := by
  unfold Integer.fitsInt at h
  unfold Integer.fitsLong
  simp only [Bool.and_eq_true, decide_eq_true_eq] at h ⊢
  omega

/-- An immediate of 32 bits is put into a register of any width. -/
theorem step_immediate (w : Width) (r : Reg) {n : Int} (h : Integer.fitsInt n = true) :
    m.step (.mov (.reg w r) (.imm n)) = .ok (m.putReg w r n) := by
  have hread := m.read_imm w h
  have hput : m.putReg w r (Integer.wrap w.bytes n) = m.putReg w r n := by
    unfold putReg
    rw [put_wrap]
  cases w with
  | qword => exact if_pos (fitsLong_of_fitsInt h)
  | byte =>
      show (m.read .byte (.imm n) >>= fun k => m.write k (.reg .byte r)) = _
      rw [hread, ← hput]
      rfl
  | word =>
      show (m.read .word (.imm n) >>= fun k => m.write k (.reg .word r)) = _
      rw [hread, ← hput]
      rfl
  | dword =>
      show (m.read .dword (.imm n) >>= fun k => m.write k (.reg .dword r)) = _
      rw [hread, ← hput]
      rfl

/-- An immediate of 64 bits is put into a whole register. -/
theorem step_long (r : Reg) {n : Int} (h : Integer.fitsLong n = true) :
    m.step (.mov (.reg .qword r) (.imm n)) = .ok (m.putReg .qword r n) :=
  if_pos h

/-- An immediate is stored cut to the width of the place. -/
theorem step_storeImmediate (w : Width) (p : Place) {n : Int} (h : Integer.fitsInt n = true) :
    m.step (.mov (.mem w p) (.imm n)) = .ok (m.storePlace w p (Integer.wrap w.bytes n)) := by
  have hread := m.read_imm w h
  show (m.read w (.imm n) >>= fun k => m.write k (.mem w p)) = _
  rw [hread]
  rfl

-- ============================================================ operations

/-- An operation on a register that writes its result there. -/
theorem step_operate (op : Alu) {w : Width} (r : Reg) {src : Operand} {b : Int}
    (hop : op ≠ .cmp) (hsrc : m.read w src = .ok b) :
    m.step (.alu op (.reg w r) src)
      = .ok { m.putReg w r (compute op w (low w (m.regs r)) b).1
          with flags := (compute op w (low w (m.regs r)) b).2 } := by
  have hread := m.read_reg w r
  have htwo : twoPlaces (.reg w r) src = false := rfl
  show m.operation op (.reg w r) src = _
  unfold operation
  rw [htwo]
  simp only [Bool.false_eq_true, if_false, width]
  show (m.read w (.reg w r) >>= fun a => m.read w src >>= fun b => _) = _
  rw [hread, hsrc]
  cases op <;> first | rfl | exact absurd rfl hop

/-- A comparison with an operand. -/
theorem step_compare {w : Width} {dst src : Operand} {a b : Int}
    (hwidth : width dst = .ok w) (htwo : twoPlaces dst src = false)
    (hdst : m.read w dst = .ok a) (hsrc : m.read w src = .ok b) :
    m.step (.alu .cmp dst src)
      = .ok { m with flags := some (flagsOf (a - b) (Integer.wrap w.bytes (a - b))) } := by
  show m.operation .cmp dst src = _
  unfold operation
  rw [htwo]
  simp only [Bool.false_eq_true, if_false, hwidth]
  show (m.read w dst >>= fun a => m.read w src >>= fun b => _) = _
  rw [hdst, hsrc]
  rfl

/-- An operation on a place with an immediate. -/
theorem step_update (op : Alu) {w : Width} {p : Place} {n : Int}
    (hop : op = .add ∨ op = .sub ∨ op = .xor) (h : Integer.fitsInt n = true) :
    m.step (.alu op (.mem w p) (.imm n))
      = .ok { m.storePlace w p
          (compute op w (m.loadPlace w p) (Integer.wrap w.bytes n)).1
          with flags := (compute op w (m.loadPlace w p) (Integer.wrap w.bytes n)).2 } := by
  have hread := m.read_mem w p
  have himm := m.read_imm w h
  have htwo : twoPlaces (.mem w p) (.imm n) = false := rfl
  show m.operation op (.mem w p) (.imm n) = _
  unfold operation
  rw [htwo]
  simp only [Bool.false_eq_true, if_false, width]
  show (m.read w (.mem w p) >>= fun a => m.read w (.imm n) >>= fun b => _) = _
  rw [hread, himm]
  rcases hop with rfl | rfl | rfl <;> rfl

/-- A comparison's outcome is put into a byte as one or zero. -/
theorem step_set {flags : Flags} (h : m.flags = some flags) (op : Comparison) (r : Reg) :
    m.step (.set op r) = .ok (m.putReg .byte r (if holds op flags then 1 else 0)) := by
  unfold step
  rw [h]

/-- Comparing numbers of a width and setting a register by the outcome. -/
theorem exec_compareSet (op : Comparison) {w : Width} {dst src : Operand} {a b : Int}
    (r : Reg) (hwidth : width dst = .ok w) (htwo : twoPlaces dst src = false)
    (hdst : m.read w dst = .ok a) (hsrc : m.read w src = .ok b)
    (ha : Integer.wrap w.bytes a = a) (hb : Integer.wrap w.bytes b = b) :
    ∃ flags, exec [.alu .cmp dst src, .set op r] m
      = .ok { m.putReg .byte r (if op.holdsInt a b then 1 else 0) with flags } := by
  refine ⟨some (flagsOf (a - b) (Integer.wrap w.bytes (a - b))), ?_⟩
  rw [exec_step (step_compare m hwidth htwo hdst hsrc), exec_step (step_set _ rfl op r),
    holds_flagsOf op ha hb]
  rfl

-- ============================================================== widening

theorem step_cdqe :
    m.step .cdqe = .ok (m.putReg .qword .rax (low .dword (m.regs .rax))) := rfl

/-- A number of 32 bits is put into a whole register with its sign. -/
theorem step_movsxd (r : Reg) {src : Operand} {n : Int} (hwidth : width src = .ok .dword)
    (hsrc : m.read .dword src = .ok n) :
    m.step (.widen .movsxd (.reg .qword r) src) = .ok (m.putReg .qword r n) := by
  show (width src >>= fun f => m.read f src >>= fun n => _) = _
  rw [hwidth]
  show (m.read .dword src >>= fun n => _) = _
  rw [hsrc]
  rfl

/-- A smaller number is put into a wider register with its sign. -/
theorem step_movsx {w w' : Width} (r : Reg) {src : Operand} {n : Int}
    (hwidth : width src = .ok w') (hsrc : m.read w' src = .ok n) (h : w' = .byte ∨ w' = .word)
    (hlt : w'.bytes < w.bytes) :
    m.step (.widen .movsx (.reg w r) src) = .ok (m.putReg w r n) := by
  show (width src >>= fun f => m.read f src >>= fun n => _) = _
  rw [hwidth]
  show (m.read w' src >>= fun n => _) = _
  rw [hsrc]
  rcases h with rfl | rfl <;> exact if_pos hlt

/-- A smaller number is put into a wider register without its sign. -/
theorem step_movzx {w w' : Width} (r : Reg) {src : Operand} {n : Int}
    (hwidth : width src = .ok w') (hsrc : m.read w' src = .ok n) (h : w' = .byte ∨ w' = .word)
    (hlt : w'.bytes < w.bytes) :
    m.step (.widen .movzx (.reg w r) src)
      = .ok (m.putReg w r (n % (256 ^ w'.bytes : Nat))) := by
  show (width src >>= fun f => m.read f src >>= fun n => _) = _
  rw [hwidth]
  show (m.read w' src >>= fun n => _) = _
  rw [hsrc]
  rcases h with rfl | rfl <;> exact if_pos hlt

-- ============================================================== division

/-- The sign of rax spread over rdx makes one number of both. -/
theorem spread_sign {w : Width} {x : Int} (hx : Integer.wrap w.bytes x = x) :
    (if x < 0 then -1 else 0) * ((256 ^ w.bytes : Nat) : Int) + x % (256 ^ w.bytes : Nat) = x := by
  cases w <;>
    simp only [Width.bytes, Source.wrap_one, Source.wrap_two, Source.wrap_four,
      Source.wrap_eight, Nat.reducePow] at hx ⊢ <;>
    split <;> omega

/-- A division of a number whose sign is spread over rdx. -/
theorem step_idiv {w : Width} {o : Operand} {x y : Int} (hw : w = .dword ∨ w = .qword)
    (hwidth : width o = .ok w) (hread : m.read w o = .ok y)
    (hrax : low w (m.regs .rax) = x) (hrdx : low w (m.regs .rdx) = if x < 0 then -1 else 0) :
    m.step (.idiv o)
      = if y = 0 then .error .divide
        else if Integer.wrap w.bytes (x.tdiv y) ≠ x.tdiv y then .error .divide
        else .ok { (m.putReg w .rax (x.tdiv y)).putReg w .rdx (x.tmod y) with flags := none } := by
  have hx : Integer.wrap w.bytes x = x := by
    rw [← hrax]
    exact wrap_low (Nat.le_refl _) _
  have hwide : (w = .byte || w = .word : Bool) = false := by
    rcases hw with rfl | rfl <;> rfl
  show m.division o = _
  unfold division
  rw [hwidth]
  show (if (w = .byte || w = .word : Bool) then .error Fault.illegal
    else m.read w o >>= fun d => _) = _
  rw [hwide, hread, hrax, hrdx]
  simp only [Bool.false_eq_true, if_false, spread_sign hx]
  rfl

end Machine

end MiniC.Machine
