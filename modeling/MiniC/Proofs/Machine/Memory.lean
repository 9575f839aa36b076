/-
Memory of bytes, as the machine that runs generated code has it.

# Addresses

An address is a 64-bit number, for what lives on the stack, or lies so many
bytes behind the start of a named global; globals and the stack do not overlap,
and neither do two globals. Where the assembler puts the data is not described.

# Numbers

Numbers are stored with their low bytes first. A load depends on the bytes it
reads alone (`load_congr`) and a store changes the bytes it writes alone
(`store_outside`); what was stored is loaded again as far as the bytes hold it
(`load_store`), and the first bytes of a wider number are its low part
(`load_low`), which is how narrow loads convert.
Consumed by the machine and by the proofs about generated code.
-/
import Mathlib.Algebra.Group.Nat.Defs

namespace MiniC.Machine

/-- Where a byte lives. -/
inductive Address where
  | stack (a : BitVec 64)
  | static (name : String) (offset : Nat)
deriving DecidableEq

/-- The address so many bytes further on. -/
def Address.add : Address → Nat → Address
  | .stack a, i => .stack (a + BitVec.ofNat 64 i)
  | .static name offset, i => .static name (offset + i)

/-- Memory: a byte at every address. -/
abbrev Memory : Type := Address → BitVec 8

/-- The number in so many bytes from an address on. -/
def load (mem : Memory) : Address → Nat → Nat
  | _, 0 => 0
  | a, n + 1 => (mem a).toNat + 256 * load mem (a.add 1) n

/-- Stores the low bytes of a number from an address on. -/
def store (mem : Memory) : Address → Nat → Nat → Memory
  | _, 0, _ => mem
  | a, n + 1, v =>
    store (fun b => if b = a then BitVec.ofNat 8 v else mem b) (a.add 1) n (v / 256)

/-- Whether an address lies among so many bytes from another on. -/
def Within (a : Address) (n : Nat) (b : Address) : Prop := ∃ i, i < n ∧ b = a.add i

-- ============================================================ addresses

theorem Address.add_zero (a : Address) : a.add 0 = a := by
  cases a with
  | stack a => exact congrArg Address.stack (BitVec.add_zero a)
  | static name offset => rfl

/-- Distances add up. -/
theorem Address.add_add (a : Address) (i j : Nat) : (a.add i).add j = a.add (i + j) := by
  cases a with
  | stack a =>
      show Address.stack (a + BitVec.ofNat 64 i + BitVec.ofNat 64 j)
        = Address.stack (a + BitVec.ofNat 64 (i + j))
      rw [BitVec.ofNat_add, BitVec.add_assoc]
  | static name offset => exact congrArg (Address.static name) (Nat.add_assoc offset i j)

/-- Within 64 bits, different distances lead to different addresses. -/
theorem Address.add_inj {a : Address} {i j : Nat} (hi : i < 2 ^ 64) (hj : j < 2 ^ 64)
    (h : a.add i = a.add j) : i = j := by
  cases a with
  | stack a =>
      have heq : a + BitVec.ofNat 64 i = a + BitVec.ofNat 64 j := Address.stack.inj h
      have hnat := congrArg BitVec.toNat heq
      rw [BitVec.toNat_add, BitVec.toNat_add, BitVec.toNat_ofNat, BitVec.toNat_ofNat] at hnat
      have ha := a.isLt
      omega
  | static name offset =>
      have heq := (Address.static.inj h).2
      omega

/-- What lies among the bytes behind the first lies among all of them. -/
theorem within_tail {a b : Address} {n : Nat} (h : Within (a.add 1) n b) : Within a (n + 1) b := by
  obtain ⟨i, hi, rfl⟩ := h
  exact ⟨1 + i, by omega, Address.add_add a 1 i⟩

/-- The first byte is one of them. -/
theorem within_self (a : Address) (n : Nat) : Within a (n + 1) a :=
  ⟨0, Nat.succ_pos n, (Address.add_zero a).symm⟩

/-- The first of less than 2^64 bytes is not met again. -/
theorem not_within_tail {a : Address} {n : Nat} (hn : n < 2 ^ 64) : ¬ Within (a.add 1) n a := by
  rintro ⟨i, hi, h⟩
  rw [Address.add_add] at h
  have h0 : a.add 0 = a.add (1 + i) := (Address.add_zero a).trans h
  have := Address.add_inj (by omega) (by omega) h0
  omega

-- ==================================================== loads and stores

/-- The low bytes of a number are its lowest and the low bytes of the rest. -/
theorem mod_pow_succ (v n : Nat) : v % 256 ^ (n + 1) = v % 256 + 256 * (v / 256 % 256 ^ n) := by
  rw [Nat.pow_succ, Nat.mul_comm (256 ^ n), Nat.mod_mul]

/-- Where all bytes are zero, so are numbers. -/
theorem load_zero (a : Address) (n : Nat) : load (fun _ => 0) a n = 0 := by
  induction n generalizing a with
  | zero => rfl
  | succ n ih =>
      rw [load, ih]
      rfl

/-- A load depends on the bytes it reads alone. -/
theorem load_congr {mem mem' : Memory} {a : Address} {n : Nat}
    (h : ∀ b, Within a n b → mem b = mem' b) : load mem a n = load mem' a n := by
  induction n generalizing a with
  | zero => rfl
  | succ n ih =>
      rw [load, load, h a (within_self a n), ih fun b hb => h b (within_tail hb)]

/-- The first bytes hold the number's low part. -/
theorem load_low (mem : Memory) (a : Address) (k n : Nat) :
    load mem a (k + n) % 256 ^ k = load mem a k := by
  induction k generalizing a with
  | zero => rw [Nat.pow_zero, Nat.mod_one, load]
  | succ k ih =>
      have hbyte := (mem a).isLt
      have hrest := ih (a.add 1)
      rw [Nat.succ_add, load, load, mod_pow_succ, ← hrest]
      have hlow : ((mem a).toNat + 256 * load mem (a.add 1) (k + n)) % 256 = (mem a).toNat := by
        omega
      have hhigh : ((mem a).toNat + 256 * load mem (a.add 1) (k + n)) / 256
          = load mem (a.add 1) (k + n) := by
        omega
      rw [hlow, hhigh]

/-- A store changes the bytes it writes alone. -/
theorem store_outside {mem : Memory} {a b : Address} {n v : Nat} (h : ¬ Within a n b) :
    store mem a n v b = mem b := by
  induction n generalizing a v mem with
  | zero => rfl
  | succ n ih =>
      have hb : b ≠ a := fun hba => h (hba ▸ within_self a n)
      rw [store, ih fun hb => h (within_tail hb), if_neg hb]

/-- What was stored is loaded again, as far as the bytes hold it. -/
theorem load_store {mem : Memory} {a : Address} {n v : Nat} (hn : n < 2 ^ 64) :
    load (store mem a n v) a n = v % 256 ^ n := by
  induction n generalizing a v mem with
  | zero => rw [Nat.pow_zero, Nat.mod_one, load]
  | succ n ih =>
      rw [store, load, ih (by omega), store_outside (not_within_tail (by omega)), if_pos rfl,
        BitVec.toNat_ofNat, mod_pow_succ]

/-- A store leaves alone what other bytes hold. -/
theorem load_store_apart {mem : Memory} {a b : Address} {n k v : Nat}
    (h : ∀ c, Within b k c → ¬ Within a n c) :
    load (store mem a n v) b k = load mem b k :=
  load_congr fun c hc => store_outside (h c hc)

end MiniC.Machine
