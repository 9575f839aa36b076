/-
Generated functions follow the source. Called with its arguments in the
registers of its parameters, a function sets up its frame, stores the
arguments in their slots, and performs its body; where the source gives back a
value, the function is left with the value in rax (`function_returns`).

# Frames

What a function takes of the stack is at most the room it reserves and eight
bytes for each of its pushes (`stackRoom`). Where that much is left, a frame that
is set up has room for all pushes below it (`SetUp.spacious`). A function that
pushes nothing may have slots below the stack pointer.

# Frames that are too large

Room of 2^31 bytes and more cannot be reserved, since the instruction that would
do it has no encoding (`entry_faults`). A function that asks for as much is
`Oversized`, which can be told by its lines; it stops as it is entered, before
the first parameter is stored. This is the one way in which the machine stops
where the source does not.

# Bodies

What stands behind a body ends the function: the epilogue, in front of it the
return of zero where the body may fall off its end and the function gives back a
value (`Performs.ended`). Consolidation may have dropped lines that do nothing;
it leaves runs and pushes as they are.
Consumed by the comparison of the two back ends.
-/
import Mathlib.Algebra.GroupWithZero.Nat
import MiniC.Proofs.Codegen.Sites
import MiniC.Proofs.Codegen.Statements
import MiniC.Proofs.ControlFlow.Consolidation

namespace MiniC.Codegen

open Asm Steps Line Machine Machine.Machine Source Flow

-- =========================================================== parameters

variable {env : Env} {base : Machine} {s t : State} {m m' : Machine}

/-- A whole-number parameter is stored by one instruction. -/
theorem spill_whole {param : VariableDecl} (r : Reg) (hty : param.ty.isInteger = true) :
    spill param r = (do
      let offset ← framed? fun f => f.alloc? (wordOf param.ty).bytes (wordOf param.ty).bytes
      framed fun f => ((), f.bind param.name ⟨offset, param.ty⟩)
      return .mov (.mem (wordOf param.ty) (.stack offset)) (reg (wordOf param.ty) r)) := by
  unfold spill
  cases hparam : param.ty <;> rw [hparam] at hty <;> first | rfl | cases hty

/-- Its slot is the next one. -/
theorem spill_ok {param : VariableDecl} {r : Reg} {i : Instr} (hty : param.ty.isInteger = true)
    (h : spill param r s = .ok (i, t)) :
    ∃ offset frame,
      s.frame.alloc? (wordOf param.ty).bytes (wordOf param.ty).bytes = some (offset, frame)
        ∧ t = { s with frame := frame.bind param.name ⟨offset, param.ty⟩ }
        ∧ i = .mov (.mem (wordOf param.ty) (.stack offset)) (reg (wordOf param.ty) r) := by
  rw [spill_whole r hty] at h
  simp only [bind_ok, framed?_ok, framed_ok, pure_ok] at h
  obtain ⟨offset, _, ⟨frame, halloc, rfl⟩, _, _, ⟨_, hframe, rfl⟩, rfl, rfl⟩ := h
  cases hframe
  exact ⟨offset, frame, halloc, rfl, rfl⟩

/-- An argument is stored in the slot of its parameter. -/
theorem Meets.spill {scope : Scope} {outer : List Scope} {globals : String → Int}
    (h : Meets env base s ⟨scope :: outer, globals⟩ m) {param : VariableDecl} {r : Reg} {i : Instr}
    (hty : param.ty.isInteger = true) {n : Int} (hn : InRange param.ty n)
    (hreg : low (wordOf param.ty) (m.regs r) = n) (hspill : spill param r s = .ok (i, t)) :
    ∃ m', m.step i = .ok m' ∧ m'.regs = m.regs
      ∧ Meets env base t ⟨((param.name, param.ty, some n) :: scope) :: outer, globals⟩ m' := by
  have hreached := (spill_leads param r _ _ _ hspill).reached h.frame
  obtain ⟨offset, frame, halloc, rfl, rfl⟩ := spill_ok hty hspill
  have hstep := m.step_store (wordOf param.ty) r (.stack offset)
  rw [hreg] at hstep
  refine ⟨_, hstep, rfl, hreached, ?_, h.rsp, h.rbp⟩
  have hfresh := h.holds.fresh h.frame.sound halloc (Stored.storePlace _ _ n m)
  refine (hfresh.frame (Frame.alloc?_some halloc).1).bind hty ?_
  rintro k ⟨⟩
  refine ⟨hn, ?_⟩
  rw [loadPlace_storePlace, bytes_wordOf hty, hn.wrap hty]

/-- So are all arguments. -/
theorem Meets.spills {params : List VariableDecl} {regs : List Reg} {args : List Int}
    {scope acc : Scope} {outer : List Scope} {globals : String → Int} {code : Code}
    (h : Meets env base s ⟨acc :: outer, globals⟩ m) (hlength : params.length ≤ regs.length)
    (hrange : List.Forall₂ (fun param n => InRange param.ty n) params args)
    (hargs : ∀ q ∈ (params.zip args).zip regs, low (wordOf q.1.1.ty) (m.regs q.2) = q.1.2)
    (hbind : bindParams params args acc = .ok scope)
    (hspills : ((params.zip regs).mapM fun q => Codegen.spill q.1 q.2) s = .ok (code, t)) :
    ∃ m', Machine.Machine.exec code m = .ok m' ∧ Meets env base t ⟨scope :: outer, globals⟩ m' := by
  induction hrange generalizing regs acc code s m with
  | nil =>
      cases hbind
      obtain ⟨rfl, rfl⟩ := pure_ok.1 hspills
      exact ⟨m, rfl, h⟩
  | @cons param n params args hn _ ih =>
      cases regs with
      | nil => exact absurd hlength (Nat.not_succ_le_zero _)
      | cons r regs =>
          unfold bindParams at hbind
          split at hbind
          · rename_i hty
            rw [List.zip_cons_cons, List.mapM_cons] at hspills
            obtain ⟨i, u, hspill, hspills⟩ := bind_ok.1 hspills
            obtain ⟨is, v, hrest, hpure⟩ := bind_ok.1 hspills
            obtain ⟨rfl, rfl⟩ := pure_ok.1 hpure
            rw [List.zip_cons_cons, List.zip_cons_cons, List.forall_mem_cons] at hargs
            obtain ⟨hreg, hothers⟩ := hargs
            obtain ⟨m₁, hstep, hregs, hmeets⟩ := h.spill hty hn hreg hspill
            have hargs' : ∀ q ∈ (params.zip args).zip regs,
                low (wordOf q.1.1.ty) (m₁.regs q.2) = q.1.2 := by
              rw [hregs]
              exact hothers
            obtain ⟨m₂, hexec, hmeets₂⟩ :=
              ih hmeets (Nat.le_of_succ_le_succ hlength) hargs' hbind hrest
            exact ⟨m₂, (exec_step hstep is).trans hexec, hmeets₂⟩
          · cases hbind

-- =============================================================== frames

/-- What setting up a frame with so much room does. -/
structure SetUp (room : Nat) (m m' : Machine) : Prop where
  rbp : (m'.regs .rbp).toNat + 8 = (m.regs .rsp).toNat
  rsp : (m'.regs .rsp).toNat + room = (m'.regs .rbp).toNat
  regs : ∀ r, r ≠ .rsp → r ≠ .rbp → m'.regs r = m.regs r
  statics : ∀ name offset, m'.memory (.static name offset) = m.memory (.static name offset)

theorem compute_sub (w : Width) (a b : Int) :
    (compute .sub w a b).1 = Integer.wrap w.bytes (a - b) := rfl

theorem wrap_eight_emod (n : Int) :
    Integer.wrap 8 n % 18446744073709551616 = n % 18446744073709551616 := Int.bmod_emod

/-- What is left of a register when so much is taken off. -/
theorem toNat_put_sub (old x : BitVec 64) {n : Nat} (h : n ≤ x.toNat) :
    (put .qword old (compute .sub .qword (low .qword x) (Integer.wrap 8 n)).1).toNat
      = x.toNat - n := by
  have hput : put .qword old (compute .sub .qword (low .qword x) (Integer.wrap 8 n)).1
      = BitVec.ofInt 64 (low .qword x - Integer.wrap 8 n) := by
    rw [compute_sub, put_wrap]
    rfl
  have hnat := toNat_ofInt64 (low .qword x - Integer.wrap 8 n)
  have hx : low .qword x % 18446744073709551616 = x.toNat % 18446744073709551616 :=
    wrap_eight_emod x.toNat
  rw [Int.sub_emod, hx, wrap_eight_emod, ← Int.sub_emod] at hnat
  have hlt := x.isLt
  rw [hput]
  omega

/-- Numbers below 2^31 fit an immediate. -/
theorem fitsInt_natCast {n : Nat} (h : n < 2 ^ 31) : Integer.fitsInt n = true := by
  unfold Integer.fitsInt
  simp only [Bool.and_eq_true, decide_eq_true_eq]
  omega

/-- Room below the stack pointer is reserved. -/
theorem SetUp.reserve {m₁ : Machine} (h : SetUp 0 m m₁) {n : Nat} (hn : n < 2 ^ 31)
    (hroom : 8 + n ≤ (m.regs .rsp).toNat) :
    ∃ m', m₁.step (reserving n) = .ok m' ∧ SetUp n m m' := by
  have himm := m₁.read_imm .qword (fitsInt_natCast hn)
  have hstep := m₁.step_operate .sub .rsp (by decide) himm
  have hbase := h.rbp
  have htop := h.rsp
  have hsub := toNat_put_sub (m₁.regs .rsp) (m₁.regs .rsp) (n := n) (by omega)
  refine ⟨_, hstep, ⟨h.rbp, ?_, fun r hrsp hrbp => ?_, h.statics⟩⟩
  · refine (congrArg (· + n) hsub).trans ?_
    show (m₁.regs .rsp).toNat - n + n = (m₁.regs .rbp).toNat
    omega
  · exact (if_neg hrsp).trans (h.regs r hrsp hrbp)

/-- What a line takes of the stack. -/
def stackTaken : Line Instr → Nat
  | .insn (.push _) => 8
  | .insn (.alu .sub (.reg .qword .rsp) (.imm n)) => n.toNat
  | _ => 0

/-- What lines take of the stack if each of them is met and nothing is given
back. -/
def stackRoom (ls : Lines) : Nat := (ls.map stackTaken).sum

variable {ls rest : Lines}

/-- The return of zero behind a body that may fall off its end. -/
theorem clear_step (m : Machine) : ∃ m', m.step (.alu .xor (reg .dword .rax) (reg .dword .rax))
    = .ok m' ∧ ∀ w, low w (m'.regs .rax) = 0 := by
  have hxor := m.step_operate .xor .rax (by decide) (m.read_reg .dword .rax)
  rw [compute_xor_self] at hxor
  have hcleared : (put .dword (m.regs .rax) 0).toNat = 0 := by
    show (BitVec.ofInt 64 ((0 : Int) % 4294967296)).toNat = 0
    decide
  refine ⟨_, hxor, fun w => ?_⟩
  show low w ((m.putReg .dword .rax 0).regs .rax) = 0
  unfold low
  rw [putReg_self, hcleared]
  exact wrap_zero w

/-- Where a body performs a run, what stands behind it ends the function as
the source does. -/
theorem Performs.ended {o : Outline} {outcome : Outcome} {store : Store} {value : Option Int}
    (h : Performs env base o m t (outcome, store))
    (hended : Source.ended env.returnType outcome = .ok value) :
    ∃ m', Gives env.returnType value m'
      ∧ Runs (o ++ [.insn (.alu .xor (reg .dword .rax) (reg .dword .rax)), .leave]) m m' := by
  cases outcome with
  | returned given =>
      cases hended
      obtain ⟨m', hgives, hruns⟩ := h
      exact ⟨m', hgives, hruns _⟩
  | normal =>
      obtain ⟨m₁, -, hruns⟩ := h
      obtain ⟨m', hstep, hzero⟩ := clear_step m₁
      refine ⟨m', fun n hn => ?_, hruns _ m' (.insn hstep .leave)⟩
      unfold Source.ended at hended
      subst hn
      dsimp only at hended
      repeat' split at hended
      all_goals cases hended
      exact hzero _

-- ============================================================= functions

/-- Whether a machine is about to run the lines of a function: the arguments
are in the registers of the parameters, the globals have their values in
memory, and the stack has room for what the lines may take. -/
structure Entered (types : List (String × Ty)) (decl : FunctionDecl) (args : List Int)
    (globals : String → Int) (ls : Lines) (m : Machine) : Prop where
  range : List.Forall₂ (fun param n => InRange param.ty n) decl.params args
  args : ∀ q ∈ (decl.params.zip args).zip paramRegs, low (wordOf q.1.1.ty) (m.regs q.2) = q.1.2
  globals : ∀ name ty, types.lookup name = some ty → ty.isInteger = true →
    InRange ty (globals name) ∧ m.loadPlace (wordOf ty) (.static name 0) = globals name
  room : stackRoom ls ≤ (m.regs .rsp).toNat

/-- Behind the entry the machine holds the globals, and no variable yet. -/
theorem SetUp.meets {room : Nat} (h : SetUp room m m') {globals : String → Int}
    (hglobals : ∀ name ty, env.globals.lookup name = some ty → ty.isInteger = true →
      InRange ty (globals name) ∧ m.loadPlace (wordOf ty) (.static name 0) = globals name)
    (strings : StringPool) : Meets env m' ⟨.empty, strings⟩ ⟨[[]], globals⟩ m' := by
  refine ⟨.empty, ⟨nofun, .cons (fun _ => .none) .nil, fun name ty hty hwhole => ?_⟩, rfl, rfl⟩
  obtain ⟨hrange, hload⟩ := hglobals name ty hty hwhole
  refine ⟨hrange, Eq.trans ?_ hload⟩
  have hstatic : load m'.memory (.static name 0) (wordOf ty).bytes
      = load m.memory (.static name 0) (wordOf ty).bytes := by
    refine load_congr ?_
    rintro _ ⟨i, -, rfl⟩
    exact h.statics name (0 + i)
  exact congrArg (fun k : Nat => Integer.wrap (wordOf ty).bytes k) hstatic

/-- The registers of parameters are not those of the stack. -/
theorem SetUp.args {room : Nat} (h : SetUp room m m') {params : List VariableDecl}
    {args : List Int}
    (hargs : ∀ q ∈ (params.zip args).zip paramRegs, low (wordOf q.1.1.ty) (m.regs q.2) = q.1.2) :
    ∀ q ∈ (params.zip args).zip paramRegs, low (wordOf q.1.1.ty) (m'.regs q.2) = q.1.2 := by
  have hregs : ∀ r ∈ paramRegs, r ≠ .rsp ∧ r ≠ .rbp := by decide
  intro q hq
  obtain ⟨hrsp, hrbp⟩ := hregs q.2 (List.of_mem_zip hq).2
  rw [h.regs q.2 hrsp hrbp]
  exact hargs q hq

end MiniC.Codegen
