/-
What it means that code follows the source language. From a machine, code
runs to its end and leaves in memory what the source computation leaves in
the variables, or it stops at a division that has no result in the source
language either (`Simulates`).

# What is kept

Beside the variables that the source may assign to and the stack below the stack
pointer nothing changes (`Kept`). The references that may be assigned to are listed, so
what is kept adds up along a sequence (`Kept.trans`), and code that only moves numbers
between registers keeps everything (`Still`). Below the stack pointer a push may have
left something: how deep is bounded by the number of pushes in the code, and code that
pushes asks that there be room for so many (`Ready`).

# Sequences

Code that follows two computations follows their sequence (`Simulates.bind`), which is
all that the proofs about generated expressions use of this file's definitions. An
operand that is saved across the other is the one case that is no sequence: the push
stands before the code of the right operand, and the pop after it
(`Simulates.saved`).

# Truth values

A variable that was given no value may hold any byte, so of truth values it is only
known which ones are 0 or 1 (`Truthful`): an evaluation that reads those alone adds the
ones that it writes to (`truthful_eval`). Consumed by the proof that expressions compute
their values.
-/
import MiniC.Proofs.Codegen.Moves
import MiniC.Proofs.Source.Traces

namespace MiniC.Codegen

open Asm Steps Machine Machine.Machine Source

variable {env : Env} {f : Frame}

-- =============================================================== pushes

/-- Whether an instruction is a push. -/
def isPush : Instr → Bool
  | .push _ => true
  | _ => false

/-- How many pushes there are in code. -/
def pushes (code : Code) : Nat := code.countP isPush

theorem pushes_append (a b : Code) : pushes (a ++ b) = pushes a + pushes b :=
  List.countP_append

/-- Code between a push and its pop pushes once more. -/
theorem pushes_saved (code : Code) :
    pushes (.push .rax :: code ++ [.pop .rax]) = pushes code + 1 := by
  rw [pushes_append]
  exact List.countP_cons_of_pos (p := isPush) (a := .push .rax) rfl

/-- Whether so many pushes have room: the stack pointer lies at or below
every slot, and the stack does not end before them. -/
def Ready (env : Env) (f : Frame) (k : Nat) (m : Machine) : Prop :=
  k ≠ 0 → Room env f m ∧ 8 * k ≤ (m.regs .rsp).toNat

/-- Room for more pushes is room for fewer. -/
theorem Ready.mono {j k : Nat} {m : Machine} (h : Ready env f k m) (hle : j ≤ k) :
    Ready env f j m := by
  intro hj
  obtain ⟨hroom, hdeep⟩ := h (by omega)
  exact ⟨hroom, by omega⟩

theorem Ready.congr {k : Nat} {m m' : Machine} (h : Ready env f k m)
    (hrsp : m'.regs .rsp = m.regs .rsp) (hrbp : m'.regs .rbp = m.regs .rbp) :
    Ready env f k m' := by
  intro hk
  obtain ⟨hroom, hdeep⟩ := h hk
  unfold Room
  rw [hrsp, hrbp]
  exact ⟨hroom, hdeep⟩

-- ========================================================= what is kept

/-- Whether an address holds a byte of what a reference names. -/
def ByteOf (env : Env) (f : Frame) (m : Machine) (r : Ref) (c : Address) : Prop :=
  ∃ place ty, refPlace env f r = .ok (place, ty) ∧ ty.isInteger = true
    ∧ Machine.Within (m.addressOf place) ty.size c

theorem ByteOf.congr {m m' : Machine} {r : Ref} {c : Address} (h : ByteOf env f m r c)
    (hrbp : m'.regs .rbp = m.regs .rbp) : ByteOf env f m' r c := by
  obtain ⟨place, ty, hplace, hty, hin⟩ := h
  rw [← addressOf_congr hrbp] at hin
  exact ⟨place, ty, hplace, hty, hin⟩

/-- Whether a run that may push has changed nothing but working registers,
the bytes of some references, and the stack below the stack pointer. -/
structure Kept (env : Env) (f : Frame) (k : Nat) (refs : List Ref) (m m' : Machine) : Prop where
  rsp : m'.regs .rsp = m.regs .rsp
  rbp : m'.regs .rbp = m.regs .rbp
  memory : ∀ c, (k ≠ 0 → ¬ Below m c) → (∀ r ∈ refs, ¬ ByteOf env f m r c) →
    m'.memory c = m.memory c

/-- What keeps more keeps less. -/
theorem Kept.mono {j k : Nat} {refs refs' : List Ref} {m m' : Machine}
    (h : Kept env f j refs m m') (hle : j ≤ k) (hsub : refs ⊆ refs') :
    Kept env f k refs' m m' := by
  refine ⟨h.rsp, h.rbp, fun c hbelow hbytes => ?_⟩
  exact h.memory c (fun hj => hbelow (by omega)) fun r hr => hbytes r (hsub hr)

/-- What is kept twice is kept. -/
theorem Kept.trans {j k : Nat} {refs refs' : List Ref} {a b c : Machine}
    (hab : Kept env f j refs a b) (hbc : Kept env f k refs' b c) :
    Kept env f (j + k) (refs ++ refs') a c := by
  refine ⟨hbc.rsp.trans hab.rsp, hbc.rbp.trans hab.rbp, fun x hbelow hbytes => ?_⟩
  have hfirst := hab.memory x (fun hj => hbelow (by omega))
    fun r hr => hbytes r (List.mem_append_left _ hr)
  have hbelow' : k ≠ 0 → ¬ Below b x := by
    intro hk
    unfold Below
    rw [hab.rsp]
    exact hbelow (by omega)
  have hbytes' : ∀ r ∈ refs', ¬ ByteOf env f b r x := by
    intro r hr hbyte
    exact hbytes r (List.mem_append_right _ hr) (hbyte.congr hab.rbp.symm)
  exact (hbc.memory x hbelow' hbytes').trans hfirst

/-- Whether a run has changed nothing but working registers. -/
structure Still (m m' : Machine) : Prop where
  rsp : m'.regs .rsp = m.regs .rsp
  rbp : m'.regs .rbp = m.regs .rbp
  memory : m'.memory = m.memory

theorem Still.refl (m : Machine) : Still m m := ⟨rfl, rfl, rfl⟩

theorem Still.trans {a b c : Machine} (hab : Still a b) (hbc : Still b c) : Still a c :=
  ⟨hbc.rsp.trans hab.rsp, hbc.rbp.trans hab.rbp, hbc.memory.trans hab.memory⟩

/-- A number that is put into a register leaves memory and stack alone. -/
theorem Moved.still {r : Reg} {m m' : Machine} (h : Moved r m m')
    (hrsp : r ≠ .rsp := by decide) (hrbp : r ≠ .rbp := by decide) : Still m m' :=
  ⟨h.others _ hrsp.symm, h.others _ hrbp.symm, h.memory⟩

/-- What leaves memory alone keeps everything. -/
theorem Still.kept {m m' : Machine} (h : Still m m') : Kept env f 0 [] m m' :=
  ⟨h.rsp, h.rbp, fun c _ _ => congrFun h.memory c⟩

/-- What leaves memory alone leaves the variables as they are seen. -/
theorem Still.view {m m' : Machine} (h : Still m m') : view env f m' = view env f m :=
  view_congr h.rbp fun _ _ _ c _ _ _ => congrFun h.memory c

-- ======================================================== truth values

/-- Whether the truth values among some variables are 0 or 1. -/
def Truthful (set : Ref → Prop) (σ : Valuation) : Prop :=
  ∀ r, set r → ∀ n, σ r = some (.bool, n) → n = 0 ∨ n = 1

theorem Truthful.mono {set set' : Ref → Prop} {σ : Valuation} (h : Truthful set σ)
    (hset : ∀ r, set' r → set r) : Truthful set' σ :=
  fun r hr => h r (hset r hr)

/-- Then those variables hold values of their types. -/
theorem Truthful.inRange {set : Ref → Prop} {m : Machine} (h : Truthful set (view env f m))
    {r : Ref} (hr : set r) {v : Value} (hv : view env f m r = some v) : InRange v.1 v.2 := by
  obtain ⟨ty, n⟩ := v
  obtain ⟨place, -, hty, hn⟩ := view_some hv
  have hn : n = m.loadPlace (wordOf ty) place := hn
  have hwrap := m.wrap_loadPlace_self (wordOf ty) place
  rw [← hn] at hwrap
  cases ty <;> try cases hty
  case bool => exact h r hr n hv
  all_goals exact hwrap

/-- Writing a value of its type makes a variable one of them. -/
theorem Truthful.write {set : Ref → Prop} {σ : Valuation} (h : Truthful set σ) {r : Ref}
    {ty : Ty} {n k : Int} (hr : σ r = some (ty, k)) (hn : InRange ty n) :
    Truthful (fun q => set q ∨ q = r) (refCells.write σ r n) := by
  intro q hq i hi
  rw [variables_write] at hi
  split at hi
  · rw [hr] at hi
    cases hi
    exact hn
  · rename_i hne
    exact h q (hq.resolve_right hne) i hi

/-- A reference that is written has the new value, and all others the old. -/
theorem refCells_lawful : refCells.Lawful := by
  intro σ r n q
  show Option.map _ (refCells.write σ r n q) = _
  rw [variables_write]
  split
  · show Option.map _ (Option.map _ (σ r)) = Option.map _ (Option.map _ (σ r))
    rw [Option.map_map, Option.map_map]
    rfl
  · rfl

/-- Truth values that are written are zero or one. -/
theorem Truthful.writes {set : Ref → Prop} {σ : Valuation} (h : Truthful set σ) {ws : Writes}
    (hranges : ∀ w ∈ ws, ∃ ty old, refCells.cell σ w.1 = some (ty, old) ∧ InRange ty w.2) :
    Truthful (fun r => set r ∨ r ∈ ws.map Prod.fst) (refCells.writes σ ws) := by
  induction ws generalizing set σ with
  | nil => exact h.mono fun r hr => hr.resolve_right List.not_mem_nil
  | cons w ws ih =>
      obtain ⟨ty, old, hcell, hrange⟩ := hranges w List.mem_cons_self
      obtain ⟨⟨ty', k⟩, hk, heq⟩ := Option.map_eq_some_iff.1 hcell
      cases heq
      refine (ih (h.write hk hrange) fun w' hw' => ?_).mono ?_
      · obtain ⟨ty', old', hcell', hrange'⟩ := hranges w' (List.mem_cons_of_mem _ hw')
        have htype := refCells_lawful.type_writes [w] σ w'.1
        rw [hcell'] at htype
        obtain ⟨⟨_, old''⟩, hold, heq⟩ := Option.map_eq_some_iff.1 htype
        cases heq
        exact ⟨_, old'', hold, hrange'⟩
      · rintro r (hr | hr)
        · exact Or.inl (Or.inl hr)
        · rcases List.mem_cons.1 hr with rfl | hr
          · exact Or.inl (Or.inr rfl)
          · exact Or.inr hr

/-- What an evaluation writes to is truthful behind it. -/
theorem truthful_eval {set : Ref → Prop} {fill : Bool} {e : Expr} {σ σ' : Valuation} {v : Value}
    (h : Truthful set σ) (heval : Source.eval refCells fill e σ = .ok (v, σ')) :
    Truthful (fun r => set r ∨ r ∈ stored e) σ' := by
  have hsees : Sees refCells refCells σ σ := by
    intro r ty old hcell
    obtain ⟨⟨ty', k⟩, hk, heq⟩ := Option.map_eq_some_iff.1 hcell
    cases heq
    exact ⟨k, hcell, fun n hn => Option.some.inj hn⟩
  obtain ⟨ws, htraced⟩ := eval_traced refCells_lawful refCells_lawful e hsees heval
  rw [htraced.state, ← htraced.targets]
  exact h.writes htraced.ranges

/-- Whether every truth value in a variable is 0 or 1. -/
def Bools (env : Env) (f : Frame) (m : Machine) : Prop :=
  ∀ r n, view env f m r = some (.bool, n) → n = 0 ∨ n = 1

/-- All truth values are zero or one if none is excepted. -/
theorem truthful_all {m : Machine} :
    Truthful (fun _ => True) (view env f m) ↔ Bools env f m :=
  ⟨fun h r n hr => h r trivial n hr, fun h r _ n hr => h r n hr⟩

-- =========================================================== simulating

/-- Whether code, run from a machine, does what a source computation does
with the variables that the machine holds. -/
def Simulates {α : Type} (env : Env) (f : Frame) (refs : List Ref) (code : Code) (m : Machine)
    (source : Run Valuation α) (Q : α → Machine → Prop) : Prop :=
  match exec code m with
  | .ok m' =>
    ∃ a, source (view env f m) = .ok (a, view env f m')
      ∧ Kept env f (pushes code) refs m m' ∧ Q a m'
  | .error fault => fault = .divide ∧ source (view env f m) = .error .divide

variable {α β : Type} {refs refs' : List Ref} {code rest : Code} {m m' : Machine}
  {source : Run Valuation α} {Q : α → Machine → Prop}

/-- Code that ends as the source does simulates it. -/
theorem Simulates.ok {a : α} (hexec : exec code m = .ok m')
    (hsource : source (view env f m) = .ok (a, view env f m'))
    (hkept : Kept env f (pushes code) refs m m') (hq : Q a m') :
    Simulates env f refs code m source Q := by
  unfold Simulates
  rw [hexec]
  exact ⟨a, hsource, hkept, hq⟩

/-- Code that stops at a division where the source does simulates it. -/
theorem Simulates.divide (hexec : exec code m = .error .divide)
    (hsource : source (view env f m) = .error .divide) :
    Simulates env f refs code m source Q := by
  unfold Simulates
  rw [hexec]
  exact ⟨rfl, hsource⟩

/-- More may be assigned to, and less may be claimed of the answer. -/
theorem Simulates.mono {Q' : α → Machine → Prop} (h : Simulates env f refs code m source Q)
    (hsub : refs ⊆ refs') (hq : ∀ a m', Q a m' → Q' a m') :
    Simulates env f refs' code m source Q' := by
  unfold Simulates at h ⊢
  split at h
  · obtain ⟨a, hsource, hkept, ha⟩ := h
    exact ⟨a, hsource, hkept.mono (Nat.le_refl _) hsub, hq a _ ha⟩
  · exact h

/-- Only what the source does with the machine's variables counts. -/
theorem Simulates.congr {source' : Run Valuation α} (h : Simulates env f refs code m source Q)
    (heq : source' (view env f m) = source (view env f m)) :
    Simulates env f refs code m source' Q := by
  unfold Simulates at h ⊢
  rw [heq]
  exact h

/-- Code that only works in registers follows what leaves variables alone. -/
theorem Simulates.pure {a : α} (hexec : exec code m = .ok m') (hstill : Still m m')
    (hsource : source (view env f m) = .ok (a, view env f m)) (hq : Q a m') :
    Simulates env f refs code m source Q := by
  refine Simulates.ok hexec ?_ (hstill.kept.mono (Nat.zero_le _) nofun) hq
  rw [hstill.view]
  exact hsource

/-- Code for one computation and code for the next one follow both. -/
theorem Simulates.bind {next : α → Run Valuation β} {Q' : β → Machine → Prop}
    (h : Simulates env f refs code m source Q)
    (hnext : ∀ a m', Kept env f (pushes code) refs m m' →
      source (view env f m) = .ok (a, view env f m') → Q a m' →
      Simulates env f refs' rest m' (next a) Q') :
    Simulates env f (refs ++ refs') (code ++ rest) m (source >>= next) Q' := by
  unfold Simulates at h
  split at h
  · rename_i m' hexec
    obtain ⟨a, hsource, hkept, hq⟩ := h
    have hrest := hnext a m' hkept hsource hq
    have hexec' : exec (code ++ rest) m = exec rest m' := by
      rw [exec_append, hexec]
      rfl
    have hsource' : (source >>= next) (view env f m) = next a (view env f m') := by
      show (source (view env f m) >>= fun p => next p.1 p.2) = _
      rw [hsource]
      rfl
    unfold Simulates at hrest ⊢
    rw [hexec', hsource']
    split at hrest
    · obtain ⟨b, hb, hkept', hq'⟩ := hrest
      refine ⟨b, hb, ?_, hq'⟩
      rw [pushes_append]
      exact hkept.trans hkept'
    · exact hrest
  · rename_i hexec
    obtain ⟨rfl, hsource⟩ := h
    refine Simulates.divide ?_ ?_
    · rw [exec_append, hexec]
      rfl
    · show (source (view env f m) >>= fun p => next p.1 p.2) = _
      rw [hsource]
      rfl

/-- Code that ends in registers behind code that simulates. -/
theorem Simulates.map {g : α → β} {Q' : β → Machine → Prop}
    (h : Simulates env f refs code m source Q)
    (hnext : ∀ a m', Q a m' →
      ∃ m'', exec rest m' = .ok m'' ∧ Still m' m'' ∧ Q' (g a) m'') :
    Simulates env f refs (code ++ rest) m (g <$> source) Q' := by
  rw [← bind_pure_comp, ← List.append_nil refs]
  refine h.bind fun a m' _ _ hq => ?_
  obtain ⟨m'', hexec, hstill, hq'⟩ := hnext a m' hq
  exact Simulates.pure hexec hstill rfl hq'

/-- Code behind it may go on with the answer and change nothing else. -/
theorem Simulates.andThen {Q' : α → Machine → Prop}
    (h : Simulates env f refs code m source Q)
    (hnext : ∀ a m', Q a m' →
      ∃ m'', exec rest m' = .ok m'' ∧ Still m' m'' ∧ Q' a m'') :
    Simulates env f refs (code ++ rest) m source Q' := by
  rw [← id_map source]
  exact h.map hnext

/-- A variable's cell holds what is in its place. -/
theorem cell_view {r : Ref} {place : Place} {ty : Ty} (hr : refPlace env f r = .ok (place, ty))
    (hty : ty.isInteger = true) (m : Machine) :
    refCells.cell (view env f m) r = some (ty, some (m.loadPlace (wordOf ty) place)) := by
  show (view env f m r).map _ = _
  rw [view_eq hr hty]
  rfl

/-- Storing the converted value follows an assignment. -/
theorem Simulates.assign (hf : f.Sound env.program) {r : Ref} {place : Place} {ty : Ty}
    {v : Value} {Q : Value → Machine → Prop} (hr : refPlace env f r = .ok (place, ty))
    (hty : ty.isInteger = true) (hexec : exec code m = .ok m')
    (hrsp : m'.regs .rsp = m.regs .rsp) (hrbp : m'.regs .rbp = m.regs .rbp)
    (hmemory : m'.memory
      = (m.storePlace (wordOf ty) place (Source.convert true v.1 ty v.2)).memory)
    (hq : Q (ty, Source.convert true v.1 ty v.2) m') :
    Simulates env f [r] code m (Source.assign refCells true r v) Q := by
  have hrange := convert_inRange true v.1 ty v.2
  have hstore : view env f m'
      = view env f (m.storePlace (wordOf ty) place (Source.convert true v.1 ty v.2)) :=
    view_congr hrbp fun _ _ _ c _ _ _ => congrFun hmemory c
  have hview := hstore.trans (view_storePlace hf hr hty (hrange.wrap hty))
  refine Simulates.ok hexec (a := (ty, Source.convert true v.1 ty v.2)) ?_ ?_ hq
  · rw [hview]
    exact assign_cell (cell_view hr hty m) v
  · refine ⟨hrsp, hrbp, fun c _ hbytes => ?_⟩
    rw [hmemory]
    refine store_outside fun hin => hbytes r List.mem_cons_self ⟨place, ty, hr, hty, ?_⟩
    rw [← bytes_wordOf hty]
    exact hin

-- ==================================================== pushing and popping

/-- The machine behind a push. -/
def pushed (m : Machine) (r : Reg) : Machine :=
  { m.setReg .rsp (m.regs .rsp - 8) with
    memory := store m.memory (.stack (m.regs .rsp - 8)) 8 (m.regs r).toNat }

/-- A register is pushed where there is room. -/
theorem step_push {m : Machine} (h : 8 ≤ (m.regs .rsp).toNat) (r : Reg) :
    m.step (.push r) = .ok (pushed m r) :=
  if_neg (Nat.not_lt.2 h)

theorem toNat_top {m : Machine} (h : 8 ≤ (m.regs .rsp).toNat) :
    (m.regs .rsp - 8).toNat = (m.regs .rsp).toNat - 8 := by
  have hlt := (m.regs .rsp).isLt
  rw [BitVec.toNat_sub]
  show (2 ^ 64 - 8 + (m.regs .rsp).toNat) % 2 ^ 64 = _
  omega

/-- What a push writes lies below the stack pointer, and not below the new
one. -/
theorem within_top {m : Machine} (h : 8 ≤ (m.regs .rsp).toNat) {c : Address}
    (hc : Machine.Within (.stack (m.regs .rsp - 8)) 8 c) (r : Reg) :
    Below m c ∧ ¬ Below (pushed m r) c := by
  obtain ⟨i, hi, rfl⟩ := hc
  have htop := toNat_top h
  have hlt := (m.regs .rsp).isLt
  have hat : (m.regs .rsp - 8 + BitVec.ofNat 64 i).toNat = (m.regs .rsp).toNat - 8 + i := by
    rw [BitVec.toNat_add, htop, BitVec.toNat_ofNat]
    omega
  refine ⟨⟨_, rfl, by omega⟩, ?_⟩
  rintro ⟨a, ha, hlow⟩
  cases ha
  have hlow : (m.regs .rsp - 8 + BitVec.ofNat 64 i).toNat < (m.regs .rsp - 8).toNat := hlow
  omega

/-- What is below the stack pointer after a push was so before. -/
theorem below_pushed {m : Machine} (h : 8 ≤ (m.regs .rsp).toNat) {c : Address} {r : Reg}
    (hc : Below (pushed m r) c) : Below m c := by
  obtain ⟨a, rfl, hlow⟩ := hc
  have hlow : a.toNat < (m.regs .rsp - 8).toNat := hlow
  have htop := toNat_top h
  exact ⟨a, rfl, by omega⟩

/-- No variable is touched by a push. -/
theorem view_pushed {m : Machine} (hroom : Room env f m) (h : 8 ≤ (m.regs .rsp).toNat)
    (r : Reg) : view env f (pushed m r) = view env f m := by
  refine view_congr rfl fun q place ty c hplace hty hc => ?_
  refine store_outside fun hin => ?_
  exact hroom.not_below hplace hty hc (within_top h hin r).1

/-- A push uses up the room for one. -/
theorem Ready.pushed {k : Nat} {m : Machine} (h : Ready env f (k + 1) m) (r : Reg) :
    Ready env f k (pushed m r) := by
  obtain ⟨hroom, hdeep⟩ := h (Nat.succ_ne_zero k)
  have htop := toNat_top (m := m) (by omega)
  have hrsp : ((Codegen.pushed m r).regs .rsp).toNat = (m.regs .rsp).toNat - 8 := htop
  intro _
  refine ⟨fun b hb size align hsize i hi => ?_, by omega⟩
  have hle := hroom b hb size align hsize i hi
  show ((Codegen.pushed m r).regs .rsp).toNat ≤ _
  rw [hrsp]
  exact Nat.le_trans (Nat.sub_le _ _) hle

/-- Between a push and a pop of rax, code keeps rax and leaves what it leaves
in rcx. -/
theorem Simulates.saved {P : α → BitVec 64 → Prop} (hready : Ready env f (pushes code + 1) m)
    (h : ∀ m', view env f m' = view env f m → Ready env f (pushes code) m' →
      Simulates env f refs code m' source fun a m'' => P a (m''.regs .rcx)) :
    Simulates env f refs (.push .rax :: code ++ [.pop .rax]) m source
      fun a m' => P a (m'.regs .rcx) ∧ m'.regs .rax = m.regs .rax := by
  obtain ⟨hroom, hdeep⟩ := hready (Nat.succ_ne_zero _)
  have height : 8 ≤ (m.regs .rsp).toNat := by omega
  have hview := view_pushed hroom height .rax
  have hinner := h (pushed m .rax) hview (hready.pushed .rax)
  have hpush : exec (.push .rax :: code ++ [.pop .rax]) m
      = exec code (pushed m .rax) >>= exec [.pop .rax] := by
    rw [List.cons_append, exec_step (step_push height .rax), exec_append]
  unfold Simulates at hinner
  rw [hview] at hinner
  split at hinner
  · rename_i m' hexec
    obtain ⟨a, hsource, hkept, hp⟩ := hinner
    have hexec' : exec (.push .rax :: code ++ [.pop .rax]) m = .ok (m'.pop .rax) := by
      rw [hpush, hexec]
      rfl
    have hrsp : m'.regs .rsp = m.regs .rsp - 8 := hkept.rsp
    have hrbp : m'.regs .rbp = m.regs .rbp := hkept.rbp
    -- what was pushed is still there, since code writes elsewhere
    have hload : load m'.memory (.stack (m'.regs .rsp)) 8 = (m.regs .rax).toNat := by
      have hsame : load m'.memory (.stack (m.regs .rsp - 8)) 8
          = load (pushed m .rax).memory (.stack (m.regs .rsp - 8)) 8 := by
        refine load_congr fun c hc => hkept.memory c ?_ ?_
        · exact fun _ => (within_top height hc .rax).2
        · rintro r - ⟨place, ty, hplace, hty, hin⟩
          have hin : Machine.Within (m.addressOf place) ty.size c := hin
          exact hroom.not_below hplace hty hin (within_top height hc .rax).1
      rw [hrsp, hsame]
      show load (store m.memory _ 8 _) _ 8 = _
      rw [load_store (by decide)]
      exact Nat.mod_eq_of_lt (m.regs .rax).isLt
    have hviewPop : view env f (m'.pop .rax) = view env f m' :=
      view_congr rfl fun _ _ _ _ _ _ _ => rfl
    refine Simulates.ok hexec' (a := a) ?_ ⟨?_, hrbp, fun c hbelow hbytes => ?_⟩ ⟨hp, ?_⟩
    · rw [hviewPop]
      exact hsource
    · show m'.regs .rsp + 8 = _
      rw [hrsp, BitVec.sub_add_cancel]
    · rw [pushes_saved] at hbelow
      have hout := hbelow (Nat.succ_ne_zero _)
      have hcode := hkept.memory c (fun _ hlow => hout (below_pushed height hlow))
        fun r hr hbyte => hbytes r hr (hbyte.congr rfl)
      refine hcode.trans (store_outside fun hin => ?_)
      exact hout (within_top height hin .rax).1
    · show BitVec.ofNat 64 (load m'.memory (.stack (m'.regs .rsp)) 8) = _
      rw [hload, BitVec.ofNat_toNat, BitVec.setWidth_eq]
  · rename_i hexec
    obtain ⟨rfl, hsource⟩ := hinner
    refine Simulates.divide ?_ hsource
    rw [hpush, hexec]
    rfl

end MiniC.Codegen
