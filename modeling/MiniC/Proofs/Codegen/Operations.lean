/-
The instructions that generated expressions end in: arithmetic on rax and a
right operand, signs, increments in place, and the storing of literals. Each
does what the source language's operation does with the same numbers.

# Arithmetic

Operands meet in an int or a long, so there are two widths. Adding, subtracting
and multiplying wrap around in that width on both sides (`exec_wrapping`). A
division stops where the source language has no quotient, and nowhere else: by
zero, and where the quotient is one past the range (`exec_spreadDivide`). The
machine divides a number of twice the width, which the spread sign makes the
same number.

# Right operands

A right operand is an immediate, the register rcx or a place in memory; in none
of these forms does it depend on rax and rdx (`RightForm.read_congr`), so
spreading the sign first does no harm.

# Storing

A literal is stored as an immediate where it fits 32 bits and through rax where
it does not (`storing`). An increment in place reads, computes and stores in the
width of the place, which gives the same low bytes as computing in the type in
which the number meets an int (`convert_next`). A truth value is set to one or
turned over, and stays 0 or 1 (`stepPlace_bool`).
Consumed by the proof that expressions compute their values.
-/
import MiniC.Proofs.Codegen.Simulation

namespace MiniC.Codegen

open Asm Steps Machine Machine.Machine Source

-- ============================================================ right operands

/-- The forms in which a right operand is given. -/
inductive RightForm (w : Width) : Operand → Prop
  | imm (n : Int) : RightForm w (.imm n)
  | mem (place : Place) : RightForm w (.mem w place)
  | rcx : RightForm w (.reg w .rcx)

/-- A right operand does not depend on rax and rdx. -/
theorem RightForm.read_congr {w : Width} {o : Operand} (h : RightForm w o) {m m' : Machine}
    (hrcx : m'.regs .rcx = m.regs .rcx) (hrbp : m'.regs .rbp = m.regs .rbp)
    (hmemory : m'.memory = m.memory) : m'.read w o = m.read w o := by
  cases h with
  | imm n => rfl
  | mem place => rw [read_mem, read_mem, loadPlace_congr hrbp hmemory]
  | rcx => rw [read_reg, read_reg, hrcx]

/-- What is read in a width is a number of that width. -/
theorem read_wrap {m : Machine} {w : Width} {o : Operand} {y : Int} (hform : RightForm w o)
    (h : m.read w o = .ok y) : Integer.wrap w.bytes y = y := by
  cases hform with
  | imm n =>
      have h : (if Integer.fitsInt n then .ok (Integer.wrap w.bytes n)
        else .error Fault.illegal) = Except.ok y := h
      split at h
      · cases h
        exact wrap_wrap _ _
      · cases h
  | mem place =>
      rw [read_mem] at h
      cases h
      exact m.wrap_loadPlace_self w place
  | rcx =>
      rw [read_reg] at h
      cases h
      exact wrap_low (Nat.le_refl _) _

-- =========================================================== arithmetic

/-- Operands meet in four bytes or in eight. -/
theorem wordOf_promoted {ty : Ty} (h : ty = .int ∨ ty = .long) :
    (wordOf ty = .dword ∨ wordOf ty = .qword) ∧ (wordOf ty).bytes = ty.size := by
  rcases h with rfl | rfl
  · exact ⟨Or.inl rfl, rfl⟩
  · exact ⟨Or.inr rfl, rfl⟩

/-- An operation that wraps around. -/
theorem exec_wrapping {op : Alu} {w : Width} {o : Operand} {m : Machine} {x y n : Int}
    (hop : op ≠ .cmp) (hx : low w (m.regs .rax) = x) (hy : m.read w o = .ok y)
    (hn : (compute op w x y).1 = Integer.wrap w.bytes n) :
    ∃ m', exec [.alu op (.reg w .rax) o] m = .ok m' ∧ Still m m'
      ∧ low w (m'.regs .rax) = Integer.wrap w.bytes n := by
  have hmoved := Moved.putReg m w .rax (compute op w (low w (m.regs .rax)) y).1
  refine ⟨_, exec_step (m.step_operate _ _ hop hy) [],
    (hmoved.flags _).still, ?_⟩
  show low w ((m.putReg w .rax _).regs .rax) = _
  rw [putReg_self, low_put (Nat.le_refl _), hx, hn, wrap_wrap]

/-- The instruction that spreads the sign of rax over rdx. -/
def spread (w : Width) : Instr := if w = .qword then .cqo else .cdq

/-- Spreading fills rdx with the sign of rax. -/
theorem step_spread {w : Width} (hw : w = .dword ∨ w = .qword) (m : Machine) :
    m.step (spread w)
      = .ok (m.putReg w .rdx (if low w (m.regs .rax) < 0 then -1 else 0)) := by
  rcases hw with rfl | rfl <;> rfl

/-- What a division answers, the source language's and the machine's. -/
theorem exec_spreadDivide {ty : Ty} (hty : ty = .int ∨ ty = .long) {o : Operand} {m : Machine}
    {x y : Int} (hform : RightForm (wordOf ty) o) (hwidth : width o = .ok (wordOf ty))
    (hx : low (wordOf ty) (m.regs .rax) = x) (hy : m.read (wordOf ty) o = .ok y) :
    (∃ n m', Source.arith .div ty x y = .ok n
        ∧ exec [spread (wordOf ty), .idiv o] m = .ok m' ∧ Still m m'
        ∧ low (wordOf ty) (m'.regs .rax) = n)
      ∨ Source.arith .div ty x y = .error .divide
        ∧ exec [spread (wordOf ty), .idiv o] m = .error .divide := by
  obtain ⟨hw, hbytes⟩ := wordOf_promoted hty
  have hsign : Integer.wrap (wordOf ty).bytes (if x < 0 then -1 else 0)
      = if x < 0 then -1 else 0 := by
    split
    · rcases hw with hw | hw <;> rw [hw] <;> rfl
    · exact wrap_zero _
  generalize hm₁ : m.putReg (wordOf ty) .rdx (if x < 0 then -1 else 0) = m₁
  have hmoved : Moved .rdx m m₁ := hm₁ ▸ Moved.putReg m _ .rdx _
  have hspread : m.step (spread (wordOf ty)) = .ok m₁ := by
    rw [step_spread hw, hx, hm₁]
  have hrdx : low (wordOf ty) (m₁.regs .rdx) = if x < 0 then -1 else 0 := by
    rw [← hm₁, putReg_self, low_put (Nat.le_refl _), hsign]
  have hrax : low (wordOf ty) (m₁.regs .rax) = x := by
    rw [hmoved.others .rax (by decide), hx]
  have hread : m₁.read (wordOf ty) o = .ok y := by
    rw [hform.read_congr (hmoved.others .rcx (by decide)) (hmoved.others .rbp (by decide))
      hmoved.memory, hy]
  have hdivide := m₁.step_idiv hw hwidth hread hrax hrdx
  have hexec : exec [spread (wordOf ty), .idiv o] m = m₁.step (.idiv o) >>= exec [] := by
    rw [exec_step hspread, exec_cons]
  rw [hbytes] at hdivide
  rw [hexec, hdivide]
  unfold Source.arith
  by_cases hzero : y = 0
  · refine Or.inr ⟨if_pos hzero, ?_⟩
    rw [if_pos hzero]
    rfl
  · by_cases hfits : Integer.wrap ty.size (x.tdiv y) = x.tdiv y
    · have hquotient : Moved .rax m₁ (m₁.putReg (wordOf ty) .rax (x.tdiv y)) :=
        Moved.putReg m₁ _ .rax _
      have hremainder := Moved.putReg (m₁.putReg (wordOf ty) .rax (x.tdiv y)) (wordOf ty) .rdx
        (x.tmod y)
      refine Or.inl ⟨x.tdiv y, { (m₁.putReg (wordOf ty) .rax (x.tdiv y)).putReg (wordOf ty) .rdx
        (x.tmod y) with flags := none }, ?_, ?_, ?_, ?_⟩
      · exact (if_neg hzero).trans (if_pos hfits)
      · rw [if_neg hzero, if_neg fun h => h hfits]
        rfl
      · exact (hmoved.still).trans ((hquotient.still).trans
          ((hremainder.flags none).still))
      · show low (wordOf ty) (((m₁.putReg (wordOf ty) .rax (x.tdiv y)).putReg (wordOf ty) .rdx
          (x.tmod y)).regs .rax) = _
        rw [hremainder.others .rax (by decide), putReg_self, low_put (Nat.le_refl _), hbytes, hfits]
    · refine Or.inr ⟨?_, ?_⟩
      · exact (if_neg hzero).trans (if_neg hfits)
      · rw [if_neg hzero, if_pos hfits]
        rfl

/-- An immediate divisor goes through rcx. -/
theorem exec_divide {ty : Ty} (hty : ty = .int ∨ ty = .long) {o : Operand} {m : Machine}
    {x y : Int} (hform : RightForm (wordOf ty) o) (hx : low (wordOf ty) (m.regs .rax) = x)
    (hy : m.read (wordOf ty) o = .ok y) :
    (∃ n m', Source.arith .div ty x y = .ok n
        ∧ exec (arithCode .div (wordOf ty) o) m = .ok m' ∧ Still m m'
        ∧ low (wordOf ty) (m'.regs .rax) = n)
      ∨ Source.arith .div ty x y = .error .divide
        ∧ exec (arithCode .div (wordOf ty) o) m = .error .divide := by
  cases hform with
  | mem place => exact exec_spreadDivide hty (.mem place) rfl hx hy
  | rcx => exact exec_spreadDivide hty .rcx rfl hx hy
  | imm n =>
      have hy' : (if Integer.fitsInt n then .ok (Integer.wrap (wordOf ty).bytes n)
        else .error Fault.illegal) = Except.ok y := hy
      split at hy'
      · rename_i hfits
        have hy' := Except.ok.inj hy'
        have hmoved := Moved.putReg m (wordOf ty) .rcx n
        have hcode : exec (arithCode .div (wordOf ty) (.imm n)) m
            = exec [spread (wordOf ty), .idiv (.reg (wordOf ty) .rcx)]
              (m.putReg (wordOf ty) .rcx n) :=
          exec_step (m.step_immediate (wordOf ty) .rcx hfits) _
        have hread : (m.putReg (wordOf ty) .rcx n).read (wordOf ty) (.reg (wordOf ty) .rcx)
            = .ok y := by
          rw [read_reg, putReg_self, low_put (Nat.le_refl _), hy']
        have hrax : low (wordOf ty) ((m.putReg (wordOf ty) .rcx n).regs .rax) = x := by
          rw [hmoved.others .rax (by decide), hx]
        rw [hcode]
        rcases exec_spreadDivide hty .rcx rfl hrax hread with
          ⟨k, m', harith, hexec, hstill, hlow⟩ | hfault
        · exact Or.inl ⟨k, m', harith, hexec, (hmoved.still).trans hstill, hlow⟩
        · exact Or.inr hfault
      · cases hy'

/-- Arithmetic on rax is the source language's arithmetic. -/
theorem arithCode_exec (op : Arith) {ty : Ty} (hty : ty = .int ∨ ty = .long) {o : Operand}
    {m : Machine} {x y : Int} (hform : RightForm (wordOf ty) o)
    (hx : low (wordOf ty) (m.regs .rax) = x) (hy : m.read (wordOf ty) o = .ok y) :
    (∃ n m', Source.arith op ty x y = .ok n
        ∧ exec (arithCode op (wordOf ty) o) m = .ok m' ∧ Still m m'
        ∧ low (wordOf ty) (m'.regs .rax) = n)
      ∨ Source.arith op ty x y = .error .divide
        ∧ exec (arithCode op (wordOf ty) o) m = .error .divide := by
  obtain ⟨-, hbytes⟩ := wordOf_promoted hty
  have hwrapping : ∀ (alu : Alu) (n : Int), alu ≠ .cmp →
      (compute alu (wordOf ty) x y).1 = Integer.wrap (wordOf ty).bytes n →
      ∃ m', exec [.alu alu (.reg (wordOf ty) .rax) o] m = .ok m' ∧ Still m m'
        ∧ low (wordOf ty) (m'.regs .rax) = Integer.wrap ty.size n := by
    intro alu n hop hn
    rw [← hbytes]
    exact exec_wrapping hop hx hy hn
  cases op with
  | add =>
      obtain ⟨m', hexec, hstill, hlow⟩ := hwrapping .add (x + y) (by decide) rfl
      exact Or.inl ⟨_, m', rfl, hexec, hstill, hlow⟩
  | sub =>
      obtain ⟨m', hexec, hstill, hlow⟩ := hwrapping .sub (x - y) (by decide) rfl
      exact Or.inl ⟨_, m', rfl, hexec, hstill, hlow⟩
  | mul =>
      obtain ⟨m', hexec, hstill, hlow⟩ := hwrapping .imul (x * y) (by decide) rfl
      exact Or.inl ⟨_, m', rfl, hexec, hstill, hlow⟩
  | div => exact exec_divide hty hform hx hy

-- ============================================================= literals

/-- A written number wrapped to a type is converted to it. -/
theorem wrapTo_eq {source target : Ty} {n : Int} (hw : Writable source n)
    (ht : target.isInteger = true) : wrapTo target n = Source.convert true source target n := by
  cases target <;> try cases ht
  case bool => rfl
  case char => rfl
  case int => rfl
  case short =>
    show Integer.wrap 2 n = if true && source = .char then n % 256 else Integer.wrap 2 n
    split
    · rename_i hchar
      obtain rfl : source = .char := by simpa using hchar
      obtain ⟨hlo, hhi⟩ := hw
      rw [wrap_two]
      split <;> omega
    · rfl
  case long =>
    show n = Integer.wrap 8 n
    have hfits : Integer.fitsLong n = true := by
      cases source
      case bool => rcases hw with rfl | rfl <;> decide
      case char =>
        obtain ⟨hlo, hhi⟩ := hw
        unfold Integer.fitsLong
        simp only [Bool.and_eq_true, decide_eq_true_eq]
        omega
      case int => exact fitsLong_of_fitsInt hw
      case long => exact hw
      all_goals exact hw.elim
    exact (show InRange .long n from Writable.inRange hfits).symm

/-- A literal as an immediate is its number, converted. -/
theorem immediate_eq {lit : NumberLiteral} {target : Ty} {n : Int} (hlit : lit.toInt = .ok n)
    (hw : Writable lit.ty n) (ht : target.isInteger = true) :
    immediate lit target = .ok (Source.convert true lit.ty target n) := by
  unfold immediate
  rw [hlit, ← wrapTo_eq hw ht]
  rfl

/-- Values of all types but long fit in 32 bits. -/
theorem fitsInt_of_inRange {ty : Ty} (hty : ty.isInteger = true) (hlong : wordOf ty ≠ .qword)
    {n : Int} (h : InRange ty n) : Integer.fitsInt n = true := by
  have hfour : Integer.wrap 4 n = n := by
    have hwrap := h.wrap hty
    rw [← bytes_wordOf hty] at hwrap
    refine wrap_wide (w := .dword) ?_ hwrap
    cases hword : wordOf ty <;> first | decide | exact absurd hword hlong
  rw [wrap_four] at hfour
  unfold Integer.fitsInt
  simp only [Bool.and_eq_true, decide_eq_true_eq]
  split at hfour <;> omega

/-- A value of a type goes to a register as an immediate. -/
theorem step_value (m : Machine) (r : Reg) {ty : Ty} (hty : ty.isInteger = true) {n : Int}
    (h : InRange ty n) :
    m.step (.mov (.reg (wordOf ty) r) (.imm n)) = .ok (m.putReg (wordOf ty) r n) := by
  by_cases hlong : wordOf ty = .qword
  · rw [hlong]
    exact m.step_long r (h.fitsLong hty)
  · exact m.step_immediate _ r (fitsInt_of_inRange hty hlong h)

/-- Whether a run has stored a number in a place and changed nothing else
but working registers. -/
structure Stored (w : Width) (place : Place) (n : Int) (m m' : Machine) : Prop where
  rsp : m'.regs .rsp = m.regs .rsp
  rbp : m'.regs .rbp = m.regs .rbp
  memory : m'.memory = (m.storePlace w place n).memory

/-- A store changes its place and nothing else. -/
theorem Stored.storePlace (w : Width) (place : Place) (n : Int) (m : Machine) :
    Stored w place n m (m.storePlace w place n) :=
  ⟨rfl, rfl, rfl⟩

/-- Storing behind a run that only worked in registers. -/
theorem Stored.behind {w : Width} {place : Place} {n : Int} {a b c : Machine} (hab : Still a b)
    (hbc : Stored w place n b c) : Stored w place n a c := by
  refine ⟨hbc.rsp.trans hab.rsp, hbc.rbp.trans hab.rbp, hbc.memory.trans ?_⟩
  show store b.memory (b.addressOf place) _ _ = store a.memory (a.addressOf place) _ _
  rw [hab.memory, addressOf_congr hab.rbp]

/-- The code that stores a number in a place: one that does not fit in 32
bits goes through rax. -/
def storing (w : Width) (place : Place) (k : Int) : Code :=
  if w = .qword && !Integer.fitsInt k then
    [.mov (reg .qword .rax) (.imm k), .mov (.mem w place) (reg .qword .rax)]
  else [.mov (.mem w place) (.imm k)]

/-- A literal of a whole number is stored as its immediate. -/
theorem storeLiteral_eq {place : Place} {lit : NumberLiteral} {target : Ty}
    (ht : target.isInteger = true) (hlit : lit.ty.isInteger = true) {k : Int}
    (himm : immediate lit target = .ok k) :
    storeLiteral place lit target = .ok (storing (wordOf target) place k) := by
  have hword := widthOf_whole ht
  have hreal := not_floating hlit
  have hstoring : (if wordOf target = .qword && !Integer.fitsInt k then
      Except.ok [.mov (reg .qword .rax) (.imm k), .mov (.mem (wordOf target) place)
        (reg .qword .rax)]
      else .ok [.mov (.mem (wordOf target) place) (.imm k)])
        = (.ok (storing (wordOf target) place k) : Except GenError Code) := by
    unfold storing
    split <;> rfl
  rw [← hstoring]
  unfold storeLiteral
  cases target <;> try cases ht
  all_goals
    simp only [hreal, Bool.false_eq_true, if_false]
    rw [hword, himm]
    rfl

/-- Storing a value of a type leaves it in the place. -/
theorem storing_exec {target : Ty} (ht : target.isInteger = true) {k : Int}
    (hrange : InRange target k) (place : Place) (m : Machine) :
    ∃ m', exec (storing (wordOf target) place k) m = .ok m'
      ∧ Stored (wordOf target) place k m m' := by
  have hwrap := hrange.wrap ht
  rw [← bytes_wordOf ht] at hwrap
  unfold storing
  split
  · rename_i hlong
    simp only [Bool.and_eq_true, decide_eq_true_eq] at hlong
    have hload := m.step_long .rax (hrange.fitsLong ht)
    have hmoved := Moved.putReg m .qword .rax k
    rw [hlong.1] at hwrap ⊢
    have hlow : low .qword ((m.putReg .qword .rax k).regs .rax) = k := by
      rw [putReg_self, low_put (Nat.le_refl _), hwrap]
    refine ⟨_, (exec_step hload _).trans (exec_step (step_store _ .qword .rax place) []), ?_⟩
    rw [hlow]
    exact (Stored.storePlace _ _ _ _).behind (hmoved.still)
  · rename_i hshort
    have hfits : Integer.fitsInt k = true := by
      by_cases hlong : wordOf target = .qword
      · simpa [hlong] using hshort
      · exact fitsInt_of_inRange ht hlong hrange
    refine ⟨_, exec_step (m.step_storeImmediate _ place hfits) [], ?_⟩
    rw [hwrap]
    exact Stored.storePlace _ _ _ _

/-- Storing a literal stores its converted number. -/
theorem storeLiteral_exec {place : Place} {lit : NumberLiteral} {target : Ty} {code : Code}
    (h : storeLiteral place lit target = .ok code) (ht : target.isInteger = true) {n : Int}
    (hlit : lit.toInt = .ok n) (hw : Writable lit.ty n) (m : Machine) :
    ∃ m', exec code m = .ok m'
      ∧ Stored (wordOf target) place (Source.convert true lit.ty target n) m m' := by
  rw [storeLiteral_eq ht hw.isInteger (immediate_eq hlit hw ht)] at h
  cases h
  exact storing_exec ht (convert_inRange true lit.ty target n) place m

-- ================================================= increments and signs

/-- The number behind an increment or decrement. -/
def nextOf (op : Arith) (n : Int) : Int := if op = .add then n + 1 else n - 1

/-- One more or less, in the type in which a number meets an int. -/
theorem operate_one {op : Arith} (hop : op = .add ∨ op = .sub) {ty : Ty}
    (hty : ty.isInteger = true) {n : Int} (hn : InRange ty n) :
    Source.operate true op (ty, n) (.int, 1)
      = .ok (Ty.promote ty .int, Integer.wrap (Ty.promote ty .int).size (nextOf op n)) := by
  have hone : Source.convert true .int (Ty.promote ty .int) 1 = 1 := by
    rcases promote_whole hty (b := .int) rfl with h | h <;> rw [h] <;> rfl
  unfold Source.operate
  simp only [convert_promote true hty (b := .int) rfl hn, hone]
  rcases hop with rfl | rfl <;> rfl

/-- What is stored of it. -/
theorem convert_next {ty : Ty} (hty : ty.isInteger = true) (hbool : ty ≠ .bool) (k : Int) :
    Source.convert true (Ty.promote ty .int) ty (Integer.wrap (Ty.promote ty .int).size k)
      = Integer.wrap ty.size k := by
  cases ty <;> try cases hty
  case bool => exact absurd rfl hbool
  case char =>
    show Integer.wrap 1 (Integer.wrap 4 k) = Integer.wrap 1 k
    rw [wrap_one, wrap_one, wrap_four]
    omega
  case short =>
    show Integer.wrap 2 (Integer.wrap 4 k) = Integer.wrap 2 k
    rw [wrap_two, wrap_two, wrap_four]
    omega
  case int => exact wrap_wrap 4 k
  case long => exact wrap_wrap 8 k

/-- Whole numbers are stepped by an addition or subtraction of one. -/
theorem stepPlace_whole {op : Arith} {place : Place} {ty : Ty} (hty : ty.isInteger = true)
    (hbool : ty ≠ .bool) :
    stepPlace op place ty
      = .ok (.alu (if op = .add then .add else .sub) (.mem (wordOf ty) place) (.imm 1)) := by
  cases ty <;> try cases hty
  all_goals first | exact absurd rfl hbool | (cases op <;> rfl)

/-- A truth value is stepped to what a truth value makes of the next number. -/
theorem stepPlace_bool {op : Arith} (hop : op = .add ∨ op = .sub) {place : Place}
    {update : Instr} (h : stepPlace op place .bool = .ok update) {m : Machine}
    (hn : m.loadPlace .byte place = 0 ∨ m.loadPlace .byte place = 1) :
    ∃ m', m.step update = .ok m' ∧ m'.regs = m.regs
      ∧ m'.memory = (m.storePlace .byte place (Source.convert true .int .bool
        (Integer.wrap 4 (nextOf op (m.loadPlace .byte place))))).memory := by
  rcases hop with rfl | rfl
  · cases h
    have hone : Integer.wrap Width.byte.bytes 1 = 1 := rfl
    refine ⟨_, m.step_storeImmediate .byte place (by decide), rfl, ?_⟩
    rw [hone]
    rcases hn with hn | hn <;> rw [hn] <;> rfl
  · cases h
    refine ⟨_, m.step_update .xor (Or.inr (Or.inr rfl)) (by decide), rfl, ?_⟩
    have hxor : (compute .xor .byte (m.loadPlace .byte place)
        (Integer.wrap Width.byte.bytes 1)).1
        = Source.convert true .int .bool
          (Integer.wrap 4 (nextOf .sub (m.loadPlace .byte place))) := by
      rcases hn with hn | hn <;> rw [hn] <;> decide
    show (m.storePlace .byte place _).memory = _
    rw [hxor]

/-- Incrementing or decrementing a place stores the next number. -/
theorem stepPlace_exec {op : Arith} (hop : op = .add ∨ op = .sub) {place : Place} {ty : Ty}
    {update : Instr} (h : stepPlace op place ty = .ok update) (hty : ty.isInteger = true)
    {m : Machine} (hn : InRange ty (m.loadPlace (wordOf ty) place)) :
    ∃ v m', Source.operate true op (ty, m.loadPlace (wordOf ty) place) (.int, 1) = .ok v
      ∧ m.step update = .ok m' ∧ m'.regs = m.regs
      ∧ m'.memory
        = (m.storePlace (wordOf ty) place (Source.convert true v.1 ty v.2)).memory := by
  refine ⟨(Ty.promote ty .int, Integer.wrap (Ty.promote ty .int).size
    (nextOf op (m.loadPlace (wordOf ty) place))), ?_⟩
  by_cases hbool : ty = .bool
  · subst hbool
    obtain ⟨m', hstep, hregs, hmemory⟩ := stepPlace_bool hop h hn
    exact ⟨m', operate_one hop hty hn, hstep, hregs, hmemory⟩
  · have hone : Integer.wrap (wordOf ty).bytes 1 = 1 := by cases wordOf ty <;> rfl
    have hbytes := bytes_wordOf hty
    generalize hk : m.loadPlace (wordOf ty) place = n at hn
    have hupdate : ∀ alu : Alu, alu = .add ∨ alu = .sub ∨ alu = .xor →
        (compute alu (wordOf ty) n 1).1 = Integer.wrap (wordOf ty).bytes (nextOf op n) →
        ∃ m', m.step (.alu alu (.mem (wordOf ty) place) (.imm 1)) = .ok m' ∧ m'.regs = m.regs
          ∧ m'.memory = (m.storePlace (wordOf ty) place (Source.convert true (Ty.promote ty .int)
            ty (Integer.wrap (Ty.promote ty .int).size (nextOf op n)))).memory := by
      intro alu halu hcompute
      refine ⟨_, m.step_update _ halu (by decide), rfl, ?_⟩
      show (m.storePlace (wordOf ty) place _).memory = _
      rw [hone, hk, hcompute, convert_next hty hbool, hbytes]
    rw [stepPlace_whole hty hbool] at h
    cases h
    rcases hop with rfl | rfl
    · obtain ⟨m', hstep, hregs, hmemory⟩ := hupdate .add (Or.inl rfl) rfl
      exact ⟨m', operate_one (Or.inl rfl) hty hn, hstep, hregs, hmemory⟩
    · obtain ⟨m', hstep, hregs, hmemory⟩ := hupdate .sub (Or.inr (Or.inl rfl)) rfl
      exact ⟨m', operate_one (Or.inr rfl) hty hn, hstep, hregs, hmemory⟩

/-- The opposite number. -/
theorem exec_negate {ty : Ty} (hty : ty = .int ∨ ty = .long) {m : Machine} {n : Int}
    (hn : low (wordOf ty) (m.regs .rax) = n) :
    ∃ m', exec [.neg (wordOf ty) .rax] m = .ok m' ∧ Still m m'
      ∧ low (wordOf ty) (m'.regs .rax) = Integer.wrap ty.size (-n) := by
  obtain ⟨-, hbytes⟩ := wordOf_promoted hty
  have hmoved := Moved.putReg m (wordOf ty) .rax (Integer.wrap (wordOf ty).bytes
    (-low (wordOf ty) (m.regs .rax)))
  refine ⟨_, exec_step rfl [], (hmoved.flags _).still, ?_⟩
  show low (wordOf ty) ((m.putReg (wordOf ty) .rax _).regs .rax) = _
  rw [putReg_self, low_put (Nat.le_refl _), hn, wrap_wrap, hbytes]

end MiniC.Codegen
