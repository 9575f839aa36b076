/-
Loading, converting and storing whole numbers. Whatever widths and signs
meet, a value that is loaded into a register for a type, or converted in
rax, is the source language's conversion of what was there (`loadInto_exec`,
`convert_exec`).

# Cases

A conversion to a truth value asks whether the number differs from zero. One to
a type that is not wider takes the low bytes. A wider one fills with the sign or
with zeros, as the source type has a sign or not, with one exception that the
widths decide: from one byte to two the value is filled with zeros, also from
char to short, and the source language as it is compiled here converts the same
way (`convert_byte`). A double word is widened by instructions of its own.

# Frames of a run

Nothing but one register and the flags is changed (`Moved`), so that what other
registers and the memory hold is carried along without being named.
Consumed by the proof that expressions compute their values.
-/
import MiniC.Proofs.Codegen.Places
import MiniC.Proofs.Machine.Instructions

namespace MiniC.Codegen

open Asm Steps Machine Machine.Machine Source

/-- Whether a run has changed nothing but a register and the flags. -/
structure Moved (r : Reg) (m m' : Machine) : Prop where
  others : ∀ q, q ≠ r → m'.regs q = m.regs q
  memory : m'.memory = m.memory

/-- A register is written to. -/
theorem Moved.putReg (m : Machine) (w : Width) (r : Reg) (n : Int) :
    Moved r m (m.putReg w r n) := by
  refine ⟨fun q hq => ?_, rfl⟩
  rw [putReg_regs, if_neg hq]

/-- Flags do not count. -/
theorem Moved.flags {r : Reg} {m m' : Machine} (h : Moved r m m') (flags : Option Flags) :
    Moved r m { m' with flags } :=
  ⟨h.others, h.memory⟩

/-- Two such runs are one. -/
theorem Moved.trans {r : Reg} {a b c : Machine} (hab : Moved r a b) (hbc : Moved r b c) :
    Moved r a c :=
  ⟨fun q hq => (hbc.others q hq).trans (hab.others q hq), hbc.memory.trans hab.memory⟩

/-- Places are read the same before and behind. -/
theorem Moved.loadPlace {r : Reg} (hr : r ≠ .rbp) {m m' : Machine} (h : Moved r m m')
    (w : Width) (p : Place) : m'.loadPlace w p = m.loadPlace w p :=
  loadPlace_congr (h.others .rbp hr.symm) h.memory w p

/-- What was written to a register is in it. -/
theorem putReg_self (m : Machine) (w : Width) (r : Reg) (n : Int) :
    (m.putReg w r n).regs r = put w (m.regs r) n :=
  if_pos rfl

/-- Setting a register to whether a number differs from zero. -/
theorem exec_truth (m : Machine) (r : Reg) {w : Width} {o : Operand} {n : Int}
    (hwidth : width o = .ok w) (hread : m.read w o = .ok n) (hn : Integer.wrap w.bytes n = n) :
    ∃ m', exec [.alu .cmp o (.imm 0), .set .ne r] m = .ok m' ∧ Moved r m m'
      ∧ low .byte (m'.regs r) = if n = 0 then 0 else 1 := by
  have htwo : twoPlaces o (.imm 0) = false := by cases o <;> rfl
  obtain ⟨flags, hexec⟩ := m.exec_compareSet .ne r hwidth htwo hread (m.read_zero w) hn
    (wrap_zero w)
  refine ⟨_, hexec, (Moved.putReg m .byte r _).flags flags, ?_⟩
  show low .byte ((m.putReg .byte r _).regs r) = _
  rw [putReg_self, low_put (Nat.le_refl _)]
  by_cases hzero : n = 0
  · rw [if_pos hzero, hzero]
    rfl
  · have hne : Comparison.ne.holdsInt n 0 = true := bne_iff_ne.2 hzero
    rw [if_neg hzero, hne]
    rfl

/-- A number of a width is one of every greater width. -/
theorem wrap_wide {w w' : Width} (h : w'.bytes ≤ w.bytes) {n : Int}
    (hn : Integer.wrap w'.bytes n = n) : Integer.wrap w.bytes n = n := by
  cases w <;> cases w' <;> simp only [Width.bytes, Nat.reduceLeDiff] at h <;>
    simp only [Width.bytes, wrap_one, wrap_two, wrap_four, wrap_eight] at hn ⊢ <;>
    omega

theorem not_floating {ty : Ty} (h : ty.isInteger = true) : ty.isFloating = false := by
  cases ty <;> first | rfl | cases h

-- ============================================================== loading

/-- A narrower or equal load takes the low bytes. -/
theorem exec_loadLow (m : Machine) (r : Reg) (place : Place) {w w' : Width}
    (h : w'.bytes ≤ w.bytes) :
    ∃ m', exec [.mov (.reg w' r) (.mem w' place)] m = .ok m' ∧ Moved r m m'
      ∧ low w' (m'.regs r) = Integer.wrap w'.bytes (m.loadPlace w place) := by
  refine ⟨_, exec_step (m.step_load w' r place) [], Moved.putReg m w' r _, ?_⟩
  rw [putReg_self, low_put (Nat.le_refl _), wrap_loadPlace_self, wrap_loadPlace h]

/-- A number differs from itself in no bit. -/
theorem compute_xor_self (a : Int) : (compute .xor .dword a a).1 = 0 := by
  simp only [compute, BitVec.xor_self, BitVec.toNat_zero, Int.natCast_zero]
  exact wrap_zero .dword

/-- A byte loaded into a cleared register fills a word with zeros. -/
theorem exec_loadCleared (m : Machine) {r : Reg} (hr : r ≠ .rbp) (place : Place) :
    ∃ m', exec [.alu .xor (.reg .dword r) (.reg .dword r),
        .mov (.reg .byte r) (.mem .byte place)] m = .ok m' ∧ Moved r m m'
      ∧ low .word (m'.regs r) = m.loadPlace .byte place % 256 := by
  have hxor := m.step_operate .xor r (by decide) (m.read_reg .dword r)
  rw [compute_xor_self] at hxor
  have hcleared := (Moved.putReg m .dword r 0).flags
    (compute .xor .dword (low .dword (m.regs r)) (low .dword (m.regs r))).2
  refine ⟨_, (exec_step hxor _).trans (exec_step (step_load _ .byte r place) []), ?_, ?_⟩
  · exact hcleared.trans (Moved.putReg _ .byte r _)
  · rw [putReg_self, hcleared.loadPlace hr]
    show low .word (put .byte ((m.putReg .dword r 0).regs r) _) = _
    rw [putReg_self, low_put_cleared]

/-- A double word loaded into rax is widened there. -/
theorem exec_loadExtended (m : Machine) (place : Place) :
    ∃ m', exec [.mov (.reg .dword .rax) (.mem .dword place), .cdqe] m = .ok m'
      ∧ Moved .rax m m' ∧ low .qword (m'.regs .rax) = m.loadPlace .dword place := by
  have hload := Moved.putReg m .dword .rax (m.loadPlace .dword place)
  refine ⟨_, (exec_step (m.step_load .dword .rax place) _).trans (exec_step (step_cdqe _) []),
    ?_, ?_⟩
  · exact hload.trans (Moved.putReg _ .qword .rax _)
  · have hlow : low .dword ((m.putReg .dword .rax (m.loadPlace .dword place)).regs .rax)
        = m.loadPlace .dword place := by
      rw [putReg_self, low_put (Nat.le_refl _), wrap_loadPlace_self]
    rw [putReg_self, hlow, low_put (Nat.le_refl _)]
    exact wrap_wide (w := .qword) (by decide) (m.wrap_loadPlace_self .dword place)

/-- A load that widens by the sign. -/
theorem exec_loadSigned (m : Machine) (r : Reg) (place : Place) {w w' : Width}
    (hw : w' = .byte ∨ w' = .word) (h : w'.bytes < w.bytes) :
    ∃ m', exec [.widen .movsx (.reg w r) (.mem w' place)] m = .ok m' ∧ Moved r m m'
      ∧ low w (m'.regs r) = m.loadPlace w' place := by
  refine ⟨_, exec_step (m.step_movsx r rfl (m.read_mem w' place) hw h) [],
    Moved.putReg m w r _, ?_⟩
  rw [putReg_self, low_put (Nat.le_refl _)]
  exact wrap_wide (Nat.le_of_lt h) (m.wrap_loadPlace_self w' place)

/-- A load that widens by zeros. -/
theorem exec_loadZeros (m : Machine) (r : Reg) (place : Place) {w w' : Width}
    (hw : w' = .byte ∨ w' = .word) (h : w'.bytes < w.bytes) :
    ∃ m', exec [.widen .movzx (.reg w r) (.mem w' place)] m = .ok m' ∧ Moved r m m'
      ∧ low w (m'.regs r)
        = Integer.wrap w.bytes (m.loadPlace w' place % (256 ^ w'.bytes : Nat)) := by
  refine ⟨_, exec_step (m.step_movzx r rfl (m.read_mem w' place) hw h) [],
    Moved.putReg m w r _, ?_⟩
  rw [putReg_self, low_put (Nat.le_refl _)]

/-- A double word loaded into another register. -/
theorem exec_loadDouble (m : Machine) (r : Reg) (place : Place) :
    ∃ m', exec [.widen .movsxd (.reg .qword r) (.mem .dword place)] m = .ok m' ∧ Moved r m m'
      ∧ low .qword (m'.regs r) = m.loadPlace .dword place := by
  refine ⟨_, exec_step (m.step_movsxd r rfl (m.read_mem .dword place)) [],
    Moved.putReg m .qword r _, ?_⟩
  rw [putReg_self, low_put (Nat.le_refl _)]
  exact wrap_wide (by decide) (m.wrap_loadPlace_self .dword place)

/-- Taking the low bytes converts to a type that is not wider. -/
theorem convert_low {source target : Ty} (hs : source.isInteger = true)
    (ht : target.isInteger = true) (hbool : target = .bool → source = .bool)
    (h : (wordOf target).bytes ≤ (wordOf source).bytes) {n : Int} (hn : InRange source n) :
    Source.convert true source target n = Integer.wrap (wordOf target).bytes n := by
  cases target
  case bool =>
    obtain rfl := hbool rfl
    rcases hn with rfl | rfl <;> rfl
  case short =>
    have hchar : source ≠ .char := by
      rintro rfl
      exact absurd h (by decide)
    show (if true && source = .char then n % 256 else Integer.wrap 2 n) = Integer.wrap 2 n
    rw [if_neg (by simpa using hchar)]
  case char => rfl
  case int => rfl
  case long => rfl
  all_goals cases ht

/-- From one byte to two the value fills with zeros. -/
theorem convert_byte {source : Ty} (hs : source.isInteger = true)
    (h : (wordOf source).bytes = 1) {n : Int} (hn : InRange source n) :
    Source.convert true source .short n = n % 256 := by
  cases source
  case bool => rcases hn with rfl | rfl <;> rfl
  case char => rfl
  all_goals first | exact absurd h (by decide) | cases hs

/-- A wider type that is not reached by one byte keeps the value. -/
theorem convert_wide {source target : Ty} (hs : source.isInteger = true)
    (ht : target.isInteger = true) (hlt : (wordOf source).bytes + 1 < (wordOf target).bytes)
    {n : Int} (hn : InRange source n) : Source.convert true source target n = n := by
  have hwide : Integer.wrap (wordOf source).bytes n = n := by
    rw [bytes_wordOf hs]
    exact hn.wrap hs
  have hwrap := wrap_wide (Nat.le_of_lt (Nat.lt_of_succ_lt hlt)) hwide
  have hpos : 1 ≤ (wordOf source).bytes := by cases wordOf source <;> decide
  cases target
  case int => exact hwrap
  case long => exact hwrap
  case bool =>
    have hlt : (wordOf source).bytes + 1 < 1 := hlt
    omega
  case char =>
    have hlt : (wordOf source).bytes + 1 < 1 := hlt
    omega
  case short =>
    have hlt : (wordOf source).bytes + 1 < 2 := hlt
    omega
  all_goals cases ht

/-- One byte is widened by one only to a word. -/
theorem byte_to_word {source target : Ty} (hs : source.isInteger = true)
    (ht : target.isInteger = true) (h : (wordOf target).bytes = (wordOf source).bytes + 1) :
    wordOf source = .byte ∧ target = .short := by
  cases source <;> try cases hs
  all_goals cases target <;> try cases ht
  all_goals first | exact ⟨rfl, rfl⟩ | exact absurd h (by decide)

theorem qword_of_wider {w : Width} (h : ¬ w.bytes ≤ Width.dword.bytes) : w = .qword := by
  cases w <;> first | rfl | exact absurd (by decide) h

theorem bytes_le_eight (w : Width) : w.bytes ≤ 8 := by
  cases w <;> decide

/-- What is neither a signed double word nor as wide as can be. -/
theorem small_source {source : Ty} {w : Width} (hs : source.isInteger = true)
    (hdword : wordOf source = .dword → source.isSigned = false)
    (h : ¬ w.bytes ≤ (wordOf source).bytes) : wordOf source = .byte ∨ wordOf source = .word := by
  cases source <;> try cases hs
  case bool => exact Or.inl rfl
  case char => exact Or.inl rfl
  case short => exact Or.inr rfl
  case int => cases hdword rfl
  case long => exact absurd (bytes_le_eight w) h

/-- Only truth values have no sign. -/
theorem bool_of_unsigned {ty : Ty} (h : ty.isInteger = true) (hsigned : ty.isSigned = false) :
    ty = .bool := by
  cases ty <;> try cases h
  all_goals first | rfl | cases hsigned

/-- Loading into a register for a type leaves the converted value there. -/
theorem loadInto_exec {r : Reg} (hr : r = .rax ∨ r = .rcx) {place : Place} {source target : Ty}
    {code : Code} (h : loadInto r place source target = .ok code)
    (hs : source.isInteger = true) (ht : target.isInteger = true) {m : Machine}
    (hn : InRange source (m.loadPlace (wordOf source) place)) :
    ∃ m', exec code m = .ok m' ∧ Moved r m m'
      ∧ low (wordOf target) (m'.regs r)
        = Source.convert true source target (m.loadPlace (wordOf source) place) := by
  have hrbp : r ≠ .rbp := by rcases hr with rfl | rfl <;> decide
  unfold loadInto at h
  rw [widthOf_whole hs, widthOf_whole ht] at h
  simp only [except_bind_ok, Except.ok.injEq, exists_eq_left', not_floating hs, not_floating ht,
    Bool.or_self, Bool.false_eq_true, if_false] at h
  split at h
  · -- a truth value is tested for
    rename_i hbool
    simp only [Bool.and_eq_true, decide_eq_true_eq] at hbool
    obtain ⟨rfl, -⟩ := hbool
    cases h
    exact exec_truth m r rfl (m.read_mem _ place) (m.wrap_loadPlace_self _ place)
  · rename_i hbool
    have hbool : target = .bool → source = .bool := by
      rintro rfl
      by_cases hsb : source = .bool
      · exact hsb
      · exact absurd (by simp [hsb]) hbool
    split at h
    · rename_i hle
      cases h
      rw [convert_low hs ht hbool hle hn]
      exact exec_loadLow m r place hle
    · rename_i hgt
      split at h
      · -- from one byte to two
        rename_i hone
        cases h
        obtain ⟨hbyte, rfl⟩ := byte_to_word hs ht hone
        rw [convert_byte hs (congrArg Width.bytes hbyte) hn, hbyte]
        exact exec_loadCleared m hrbp place
      · rename_i hmore
        rw [convert_wide hs ht (by omega) hn]
        split at h
        · rename_i hdword
          simp only [Bool.and_eq_true, decide_eq_true_eq] at hdword
          obtain ⟨⟨hdword, rfl⟩, -⟩ := hdword
          cases h
          rw [hdword] at hgt ⊢
          rw [qword_of_wider hgt]
          exact exec_loadExtended m place
        · split at h
          · rename_i hdword
            simp only [Bool.and_eq_true, decide_eq_true_eq] at hdword
            cases h
            rw [hdword.1] at hgt ⊢
            rw [qword_of_wider hgt]
            exact exec_loadDouble m r place
          · rename_i hdword
            cases h
            have hsmall := small_source hs (by simpa using hdword) hgt
            cases hsigned : source.isSigned with
            | true => exact exec_loadSigned m r place hsmall (by omega)
            | false =>
                obtain rfl := bool_of_unsigned hs hsigned
                obtain ⟨m', hexec, hmoved, hlow⟩ :=
                  exec_loadZeros m r place (w := wordOf target) hsmall (by omega)
                refine ⟨m', hexec, hmoved, hlow.trans ?_⟩
                have hbit : m.loadPlace .byte place = 0 ∨ m.loadPlace .byte place = 1 := hn
                show Integer.wrap (wordOf target).bytes (m.loadPlace .byte place % 256)
                  = m.loadPlace .byte place
                rcases hbit with hbit | hbit <;> rw [hbit] <;> cases wordOf target <;> rfl

-- =========================================================== converting

theorem Moved.refl (r : Reg) (m : Machine) : Moved r m m := ⟨fun _ _ => rfl, rfl⟩

/-- The mask of a byte leaves its bits. -/
theorem toNat_and_mask (a : Int) :
    ((BitVec.ofInt 64 a &&& BitVec.ofInt 64 255).toNat : Int) = a % 256 := by
  have hmask : (BitVec.ofInt 64 255).toNat = 2 ^ 8 - 1 := by decide
  have ha := toNat_ofInt64 a
  rw [BitVec.toNat_and, hmask, Nat.and_two_pow_sub_one_eq_mod]
  omega

/-- Masking rax fills a word with zeros behind its low byte. -/
theorem exec_mask (m : Machine) :
    ∃ m', exec [.alu .and (.reg .dword .rax) (.mask 0xff)] m = .ok m' ∧ Moved .rax m m'
      ∧ low .word (m'.regs .rax) = low .byte (m.regs .rax) % 256 := by
  have hread : m.read .dword (.mask 0xff) = .ok 255 := by
    show (if Integer.fitsInt 0xff then Except.ok (Integer.wrap 4 0xff)
      else .error Fault.illegal) = _
    rw [if_pos (by decide), wrap_four]
    rfl
  have hstep := m.step_operate .and .rax (by decide) hread
  refine ⟨_, exec_step hstep [], (Moved.putReg m .dword .rax _).flags _, ?_⟩
  show low .word ((m.putReg .dword .rax _).regs .rax) = _
  have hle : Width.byte.bytes ≤ Width.dword.bytes := by decide
  have hbyte := wrap_low hle (m.regs .rax)
  rw [putReg_self, low_put (by decide), ← hbyte]
  simp only [compute, toNat_and_mask, Width.bytes, wrap_one, wrap_two, wrap_four]
  split <;> split <;> split <;> omega

/-- Converting leaves the converted value in rax. -/
theorem convert_exec {source target : Ty} {code : Code} (h : convert source target = .ok code)
    (hs : source.isInteger = true) (ht : target.isInteger = true) {m : Machine} {n : Int}
    (hn : InRange source n) (hlow : low (wordOf source) (m.regs .rax) = n) :
    ∃ m', exec code m = .ok m' ∧ Moved .rax m m'
      ∧ low (wordOf target) (m'.regs .rax) = Source.convert true source target n := by
  unfold convert at h
  split at h
  · rename_i heq
    cases h
    subst heq
    exact ⟨m, rfl, Moved.refl _ m, hlow.trans (convert_self hn).symm⟩
  · rw [widthOf_whole hs, widthOf_whole ht] at h
    simp only [except_bind_ok, Except.ok.injEq, exists_eq_left', not_floating hs, not_floating ht,
      Bool.or_self, Bool.false_eq_true, if_false] at h
    have hread : m.read (wordOf source) (.reg (wordOf source) .rax) = .ok n := by
      rw [read_reg, hlow]
    have hwrap : Integer.wrap (wordOf source).bytes n = n := by
      rw [← hlow]
      exact wrap_low (Nat.le_refl _) _
    split at h
    · rename_i hbool
      cases h
      subst hbool
      exact exec_truth m .rax rfl hread hwrap
    · rename_i hbool
      split at h
      · rename_i hle
        cases h
        refine ⟨m, rfl, Moved.refl _ m, ?_⟩
        rw [convert_low hs ht (fun hb => absurd hb hbool) hle hn, ← hlow, wrap_low hle]
      · rename_i hgt
        split at h
        · -- from one byte to two
          rename_i hone
          cases h
          obtain ⟨hbyte, rfl⟩ := byte_to_word hs ht hone
          rw [convert_byte hs (congrArg Width.bytes hbyte) hn, ← hlow, hbyte]
          exact exec_mask m
        · rename_i hmore
          rw [convert_wide hs ht (by omega) hn]
          split at h
          · rename_i hdword
            simp only [Bool.and_eq_true, decide_eq_true_eq] at hdword
            obtain ⟨⟨hdword, hqword⟩, -⟩ := hdword
            cases h
            rw [hdword] at hlow hwrap
            refine ⟨_, exec_step m.step_cdqe [], Moved.putReg m .qword .rax _, ?_⟩
            rw [hqword, putReg_self, hlow, low_put (Nat.le_refl _)]
            exact wrap_wide (by decide) hwrap
          · rename_i hdword
            cases h
            have hqword : wordOf source = .dword → source.isSigned = false := by
              intro hd
              rw [hd] at hgt
              rw [hd, qword_of_wider hgt] at hdword
              simpa using hdword
            have hsmall := small_source hs hqword hgt
            have hlt : (wordOf source).bytes < (wordOf target).bytes := by omega
            cases hsigned : source.isSigned with
            | true =>
                refine ⟨_, exec_step (m.step_movsx .rax rfl hread hsmall hlt) [],
                  Moved.putReg m _ .rax _, ?_⟩
                rw [putReg_self, low_put (Nat.le_refl _)]
                exact wrap_wide (Nat.le_of_lt hlt) hwrap
            | false =>
                obtain rfl := bool_of_unsigned hs hsigned
                refine ⟨_, exec_step (m.step_movzx .rax rfl hread hsmall hlt) [],
                  Moved.putReg m _ .rax _, ?_⟩
                rw [putReg_self, low_put (Nat.le_refl _)]
                show Integer.wrap (wordOf target).bytes (n % 256) = n
                rcases hn with rfl | rfl <;> cases wordOf target <;> rfl

end MiniC.Codegen
