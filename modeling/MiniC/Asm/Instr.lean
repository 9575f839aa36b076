/-
The machine instructions that are generated: registers and memory operands
of four widths, and the few instructions of the x86-64 that the compiler
needs. A place is a stack slot below the base pointer or a byte of a named
global. Instructions stay structured until they are printed. Consumed by
code generation.
-/
import MiniC.Operator
import MiniC.Text.Hex

namespace MiniC.Asm

-- =============================================================== widths

/-- The widths of an operation. -/
inductive Width where
  | byte
  | word
  | dword
  | qword
deriving DecidableEq, Repr

namespace Width

/-- The width in bytes. -/
def bytes : Width → Nat
  | .byte => 1
  | .word => 2
  | .dword => 4
  | .qword => 8

/-- The width of so many bytes. -/
def ofBytes? : Nat → Option Width
  | 1 => some .byte
  | 2 => some .word
  | 4 => some .dword
  | 8 => some .qword
  | _ => none

/-- The size word of a memory operand. -/
def sizeWord : Width → String
  | .byte => "BYTE"
  | .word => "WORD"
  | .dword => "DWORD"
  | .qword => "QWORD"

/-- The directive that lays down a value. -/
def dataWord : Width → String
  | .byte => "db"
  | .word => "dw"
  | .dword => "dd"
  | .qword => "dq"

/-- The directive that reserves room. -/
def reserveWord : Width → String
  | .byte => "resb"
  | .word => "resw"
  | .dword => "resd"
  | .qword => "resq"

end Width

-- ============================================================ registers

/-- The registers in use. -/
inductive Reg where
  | rax
  | rcx
  | rdx
  | rsi
  | rdi
  | r8
  | r9
  | rsp
  | rbp
deriving DecidableEq, Repr

/-- The name of the low part of a register. -/
def Reg.name : Reg → Width → String
  | .rax, .byte => "al"
  | .rax, .word => "ax"
  | .rax, .dword => "eax"
  | .rax, .qword => "rax"
  | .rcx, .byte => "cl"
  | .rcx, .word => "cx"
  | .rcx, .dword => "ecx"
  | .rcx, .qword => "rcx"
  | .rdx, .byte => "dl"
  | .rdx, .word => "dx"
  | .rdx, .dword => "edx"
  | .rdx, .qword => "rdx"
  | .rsi, .byte => "sil"
  | .rsi, .word => "si"
  | .rsi, .dword => "esi"
  | .rsi, .qword => "rsi"
  | .rdi, .byte => "dil"
  | .rdi, .word => "di"
  | .rdi, .dword => "edi"
  | .rdi, .qword => "rdi"
  | .r8, .byte => "r8b"
  | .r8, .word => "r8w"
  | .r8, .dword => "r8d"
  | .r8, .qword => "r8"
  | .r9, .byte => "r9b"
  | .r9, .word => "r9w"
  | .r9, .dword => "r9d"
  | .r9, .qword => "r9"
  | .rsp, .byte => "spl"
  | .rsp, .word => "sp"
  | .rsp, .dword => "esp"
  | .rsp, .qword => "rsp"
  | .rbp, .byte => "bpl"
  | .rbp, .word => "bp"
  | .rbp, .dword => "ebp"
  | .rbp, .qword => "rbp"

/-- The registers that arguments arrive in, in order. -/
def paramRegs : List Reg := [.rdi, .rsi, .rdx, .rcx, .r8, .r9]

-- ============================================================= operands

/-- A place in memory: so many bytes below the base pointer, or so many
behind the start of a global. -/
inductive Place where
  | stack (offset : Nat)
  | static (name : String) (offset : Nat)
deriving DecidableEq, Repr

/-- The address of a place. -/
def Place.address : Place → String
  | .stack offset => "[rbp-" ++ toString offset ++ "]"
  | .static name offset =>
    if offset = 0 then "[rel " ++ name ++ "]" else "[rel " ++ name ++ "+" ++ toString offset ++ "]"

/-- An operand. A mask is a number written in hexadecimal; a real is the
bit pattern of a floating point number, written by its value. -/
inductive Operand where
  | reg (width : Width) (r : Reg)
  | mem (width : Width) (place : Place)
  | imm (n : Int)
  | mask (n : Nat)
  | real (width : Width) (text : String)
deriving DecidableEq, Repr

/-- An operand as it is written. -/
def Operand.render : Operand → String
  | .reg width r => r.name width
  | .mem width place => width.sizeWord ++ " " ++ place.address
  | .imm n => toString n
  | .mask n => "0x" ++ Text.hex 1 n
  | .real width text => "__float" ++ toString (8 * width.bytes) ++ "__(" ++ text ++ ")"

-- ========================================================= instructions

/-- Operations with a destination and a source. -/
inductive Alu where
  | add
  | sub
  | imul
  | xor
  | and
  | cmp
deriving DecidableEq, Repr

/-- Moves that widen: by sign from a double word, by sign, or by zeros. -/
inductive Widen where
  | movsxd
  | movsx
  | movzx
deriving DecidableEq, Repr

/-- An instruction. -/
inductive Instr where
  | mov (dst src : Operand)
  | alu (op : Alu) (dst src : Operand)
  | widen (op : Widen) (dst src : Operand)
  | set (condition : Comparison) (r : Reg)
  | neg (width : Width) (r : Reg)
  | idiv (divisor : Operand)
  | cdqe
  | cdq
  | cqo
  | push (r : Reg)
  | pop (r : Reg)
  | lea (r : Reg) (label : String)
  | leave
  | ret
deriving DecidableEq, Repr

/-- The operation as it is written. -/
def Alu.mnemonic : Alu → String
  | .add => "add"
  | .sub => "sub"
  | .imul => "imul"
  | .xor => "xor"
  | .and => "and"
  | .cmp => "cmp"

/-- The move as it is written. -/
def Widen.mnemonic : Widen → String
  | .movsxd => "movsxd"
  | .movsx => "movsx"
  | .movzx => "movzx"

/-- The instruction that turns a signed comparison into a byte. -/
def setMnemonic : Comparison → String
  | .lt => "setl"
  | .gt => "setg"
  | .le => "setle"
  | .ge => "setge"
  | .eq => "sete"
  | .ne => "setne"

/-- An instruction as it is written. -/
def Instr.render : Instr → String
  | .mov dst src => "mov " ++ dst.render ++ ", " ++ src.render
  | .alu op dst src => op.mnemonic ++ " " ++ dst.render ++ ", " ++ src.render
  | .widen op dst src => op.mnemonic ++ " " ++ dst.render ++ ", " ++ src.render
  | .set condition r => setMnemonic condition ++ " " ++ r.name .byte
  | .neg width r => "neg " ++ r.name width
  | .idiv divisor => "idiv " ++ divisor.render
  | .cdqe => "cdqe"
  | .cdq => "cdq"
  | .cqo => "cqo"
  | .push r => "push " ++ r.name .qword
  | .pop r => "pop " ++ r.name .qword
  | .lea r label => "lea " ++ r.name .qword ++ ", [rel " ++ label ++ "]"
  | .leave => "leave"
  | .ret => "ret"

end MiniC.Asm
