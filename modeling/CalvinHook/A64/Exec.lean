import CalvinHook.A64.Cpu
import CalvinHook.A64.Decode

/-!
# Executing A64 instructions

An instruction is executed in two parts: where control goes (`branchTarget`, or the next word) and
what else changes (`Isa.effect`).  Words without a pattern in the decoder have the effect an `Isa`
gives them; such a word always continues with the next one, since all branches of the instruction
set that this development meets are in the decoder.

`Isa.Access` is the set of data addresses an instruction reads or writes.
-/

namespace CalvinHook
namespace A64

/-- The part of the instruction set outside the decoder: what a word does to everything but the
program counter, and which data addresses it reads or writes. -/
structure Isa where
  /-- The effect of a word, its program counter ignored. -/
  other : Word → Cpu → Cpu
  /-- The data addresses a word reads or writes. -/
  otherAccess : Word → Cpu → Addr → Prop

/-- The instruction set in which the words outside the decoder do nothing. -/
def Isa.bare : Isa := ⟨fun _ s => s, fun _ _ _ => False⟩

/-! ## Conditions -/

/-- The condition a 4-bit field names, read from the flags. -/
def condHolds (cond nzcv : BitVec 4) : Bool :=
  let n := nzcv.getLsbD 3
  let z := nzcv.getLsbD 2
  let c := nzcv.getLsbD 1
  let v := nzcv.getLsbD 0
  let base : Bool :=
    match cond.extractLsb' 1 3 with
    | 0 => z
    | 1 => c
    | 2 => n
    | 3 => v
    | 4 => c && !z
    | 5 => n == v
    | 6 => n == v && !z
    | _ => true
  -- the lowest bit inverts the condition, except for the two encodings of "always"
  if cond.getLsbD 0 && cond ≠ 15 then !base else base

/-! ## Control -/

/-- The address an instruction branches to, if it branches in this state. -/
def branchTarget (i : Insn) (s : Cpu) : Option Addr :=
  match i with
  | .b off => some (s.pc + off)
  | .bl off => some (s.pc + off)
  | .bCond cond off => if condHolds cond s.nzcv then some (s.pc + off) else none
  | .cb nonzero wide rt off =>
      let val := if wide then s.readX rt else ((s.readX rt).setWidth 32).setWidth 64
      if (val = 0) ≠ (nonzero = true) then some (s.pc + off) else none
  | .tb nonzero bit rt off =>
      if (s.readX rt).getLsbD bit = nonzero then some (s.pc + off) else none
  | .br rn => some (s.readX rn)
  | .blr rn => some (s.readX rn)
  | .ret rn => some (s.readX rn)
  | _ => none

/-- The instruction may branch. -/
def Insn.isBranch : Insn → Bool
  | .b _ | .bl _ | .bCond _ _ | .cb _ _ _ _ | .tb _ _ _ _ | .br _ | .blr _ | .ret _ => true
  | _ => false

theorem branchTarget_of_not_isBranch {i : Insn} (h : i.isBranch = false) (s : Cpu) :
    branchTarget i s = none := by
  cases i <;> first | rfl | exact absurd h (by simp [Insn.isBranch])

/-! ## Effects -/

namespace LitKind

/-- The number of bytes a literal load reads. -/
def bytes : LitKind → ℕ
  | .w | .sw | .s => 4
  | .x | .d => 8
  | .q => 16
  | .prfm => 0

end LitKind

/-- Loading a literal from an address. -/
def loadLit (kind : LitKind) (rt : ℕ) (a : Addr) (s : Cpu) : Cpu :=
  match kind with
  | .w => s.setX rt ((s.mem.read a 4 : BitVec 32).setWidth 64)
  | .x => s.setX rt (s.mem.read a 8)
  | .sw => s.setX rt ((s.mem.read a 4 : BitVec 32).signExtend 64)
  | .prfm => s
  | .s => s.setV rt ((s.mem.read a 4).setWidth 128)
  | .d => s.setV rt ((s.mem.read a 8).setWidth 128)
  | .q => s.setV rt (s.mem.read a 16)

/-- What an instruction changes besides the program counter. -/
def Isa.effect (isa : Isa) (i : Insn) (s : Cpu) : Cpu :=
  match i with
  | .bl _ | .blr _ => s.setX 30 (s.pc + 4)
  | .adr rd off => s.setX rd (s.pc + off)
  | .adrp rd off => s.setX rd ((s.pc &&& ~~~0xFFF#64) + off)
  | .ldrLit kind rt off => loadLit kind rt (s.pc + off) s
  | .movz rd imm shift => s.setX rd (imm.setWidth 64 <<< shift)
  | .movk rd imm shift =>
      s.setX rd ((s.readX rd &&& ~~~(0xFFFF#64 <<< shift)) ||| (imm.setWidth 64 <<< shift))
  | .addImm rd rn imm => s.setXSP rd (s.readXSP rn + imm)
  | .subImm rd rn imm => s.setXSP rd (s.readXSP rn - imm)
  | .orr rd rn rm => s.setX rd (s.readX rn ||| s.readX rm)
  | .ldrX rt rn off => s.setX rt (s.mem.read (s.readXSP rn + off) 8)
  | .ldrW rt rn off => s.setX rt ((s.mem.read (s.readXSP rn + off) 4 : BitVec 32).setWidth 64)
  | .strX rt rn off => s.setMem (s.mem.write (s.readXSP rn + off) 8 (s.readX rt))
  | .ldrV bytes rt rn off => s.setV rt ((s.mem.read (s.readXSP rn + off) bytes).setWidth 128)
  | .strV bytes rt rn off =>
      s.setMem (s.mem.write (s.readXSP rn + off) bytes ((s.readV rt).setWidth (8 * bytes)))
  | .stpPre rt rt2 rn off =>
      let a := s.readXSP rn + off
      (s.setMem ((s.mem.write a 8 (s.readX rt)).write (a + 8) 8 (s.readX rt2))).setXSP rn a
  | .ldpPost rt rt2 rn off =>
      let a := s.readXSP rn
      ((s.setX rt (s.mem.read a 8)).setX rt2 (s.mem.read (a + 8) 8)).setXSP rn (a + off)
  | .other w => isa.other w s
  | .b _ | .bCond _ _ | .cb _ _ _ _ | .tb _ _ _ _ | .br _ | .ret _ | .nop => s

/-- Execute one instruction. -/
def Isa.exec (isa : Isa) (i : Insn) (s : Cpu) : Cpu :=
  (isa.effect i s).setPc ((branchTarget i s).getD (s.pc + 4))

/-- The data addresses an instruction reads or writes. -/
def Isa.Access (isa : Isa) (i : Insn) (s : Cpu) (a : Addr) : Prop :=
  match i with
  | .ldrLit kind _ off => InRange (s.pc + off) kind.bytes a
  | .ldrX _ rn off | .strX _ rn off => InRange (s.readXSP rn + off) 8 a
  | .ldrW _ rn off => InRange (s.readXSP rn + off) 4 a
  | .ldrV bytes _ rn off | .strV bytes _ rn off => InRange (s.readXSP rn + off) bytes a
  | .stpPre _ _ rn off => InRange (s.readXSP rn + off) 16 a
  | .ldpPost _ _ rn _ => InRange (s.readXSP rn) 16 a
  | .other w => isa.otherAccess w s a
  | _ => False

variable (isa : Isa)

@[simp] theorem pc_exec (i : Insn) (s : Cpu) :
    (isa.exec i s).pc = (branchTarget i s).getD (s.pc + 4) := rfl

theorem exec_of_not_isBranch {i : Insn} (h : i.isBranch = false) (s : Cpu) :
    isa.exec i s = (isa.effect i s).setPc (s.pc + 4) := by
  rw [Isa.exec, branchTarget_of_not_isBranch h]
  rfl

theorem exec_blr (n : ℕ) (s : Cpu) :
    isa.exec (.blr n) s = (s.setX 30 (s.pc + 4)).setPc (s.readX n) := rfl

theorem exec_ret (n : ℕ) (s : Cpu) : isa.exec (.ret n) s = s.setPc (s.readX n) := rfl

/-- `MOV Xd, Xm` is `ORR Xd, XZR, Xm`. -/
theorem exec_mov (d m : ℕ) (s : Cpu) :
    isa.exec (.orr d 31 m) s = (s.setX d (s.readX m)).setPc (s.pc + 4) := by
  rw [exec_of_not_isBranch isa rfl, Isa.effect, Cpu.readX_zero_register, BitVec.ofNat_eq_ofNat,
    BitVec.zero_or]

end A64
end CalvinHook
