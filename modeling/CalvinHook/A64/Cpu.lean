import CalvinHook.A64.Memory

/-!
# The state of an A64 processor

The registers a user-mode program sees, the condition flags, the program counter and the memory.
Register number 31 is the zero register or the stack pointer, depending on the instruction, so
register access comes in two forms: `readX`/`setX` (31 reads as zero and ignores writes) and
`readXSP`/`setXSP` (31 is the stack pointer).
-/

namespace CalvinHook
namespace A64

/-- The state of the processor together with the memory. -/
@[ext] structure Cpu where
  /-- The general registers `X0` to `X30`. -/
  x : Fin 31 → BitVec 64
  /-- The stack pointer. -/
  sp : Addr
  /-- The vector registers `V0` to `V31`. -/
  v : Fin 32 → BitVec 128
  /-- The condition flags `N`, `Z`, `C`, `V`, from the most significant bit down. -/
  nzcv : BitVec 4
  /-- The program counter. -/
  pc : Addr
  /-- The memory. -/
  mem : Mem

namespace Cpu

/-- The state at `pc` with all registers zero. -/
def zero (pc : Addr) (mem : Mem) : Cpu := ⟨fun _ => 0, 0, fun _ => 0, 0, pc, mem⟩

/-- Register `n`, with 31 the zero register. -/
def readX (s : Cpu) (n : ℕ) : BitVec 64 :=
  if h : n < 31 then s.x ⟨n, h⟩ else 0

/-- Write register `n`; a write to the zero register is lost. -/
def setX (s : Cpu) (n : ℕ) (val : BitVec 64) : Cpu :=
  { s with x := fun r => if r.val = n then val else s.x r }

/-- Register `n`, with 31 the stack pointer. -/
def readXSP (s : Cpu) (n : ℕ) : BitVec 64 :=
  if n = 31 then s.sp else s.readX n

/-- Write register `n`, with 31 the stack pointer. -/
def setXSP (s : Cpu) (n : ℕ) (val : BitVec 64) : Cpu :=
  if n = 31 then { s with sp := val } else s.setX n val

/-- Vector register `n`. -/
def readV (s : Cpu) (n : ℕ) : BitVec 128 :=
  if h : n < 32 then s.v ⟨n, h⟩ else 0

/-- Write vector register `n`. -/
def setV (s : Cpu) (n : ℕ) (val : BitVec 128) : Cpu :=
  { s with v := fun r => if r.val = n then val else s.v r }

/-- Replace the memory. -/
def setMem (s : Cpu) (m : Mem) : Cpu := { s with mem := m }

/-- Replace the program counter. -/
def setPc (s : Cpu) (a : Addr) : Cpu := { s with pc := a }

/-- Replace the stack pointer. -/
def setSp (s : Cpu) (a : Addr) : Cpu := { s with sp := a }

variable (s : Cpu) (n k : ℕ) (val : BitVec 64) (q : BitVec 128) (m : Mem) (a : Addr)

/-! ## Reading through updates -/

theorem readX_setX : (s.setX n val).readX k = if k = n ∧ k < 31 then val else s.readX k := by
  unfold readX setX
  by_cases hk : k < 31
  · simp [hk]
  · simp [hk]

@[simp] theorem readX_setX_same (h : n < 31) : (s.setX n val).readX n = val := by
  rw [readX_setX, if_pos ⟨rfl, h⟩]

@[simp] theorem readX_setX_of_ne {n k : ℕ} (h : k ≠ n) : (s.setX n val).readX k = s.readX k := by
  rw [readX_setX, if_neg fun hh => h hh.1]

/-- A register just written reads the same whatever the state was. -/
theorem readX_setX_congr (s' : Cpu) : (s.setX n val).readX n = (s'.setX n val).readX n := by
  unfold readX setX
  by_cases hn : n < 31
  · simp [hn]
  · simp [hn]

@[simp] theorem readX_zero_register : s.readX 31 = 0 := rfl

@[simp] theorem readX_setV : (s.setV n q).readX k = s.readX k := rfl
@[simp] theorem readX_setMem : (s.setMem m).readX k = s.readX k := rfl
@[simp] theorem readX_setPc : (s.setPc a).readX k = s.readX k := rfl
@[simp] theorem readX_setSp : (s.setSp a).readX k = s.readX k := rfl

theorem readV_setV : (s.setV n q).readV k = if k = n ∧ k < 32 then q else s.readV k := by
  unfold readV setV
  by_cases hk : k < 32
  · simp [hk]
  · simp [hk]

@[simp] theorem readV_setX : (s.setX n val).readV k = s.readV k := rfl
@[simp] theorem readV_setMem : (s.setMem m).readV k = s.readV k := rfl
@[simp] theorem readV_setPc : (s.setPc a).readV k = s.readV k := rfl
@[simp] theorem readV_setSp : (s.setSp a).readV k = s.readV k := rfl

@[simp] theorem sp_setX : (s.setX n val).sp = s.sp := rfl
@[simp] theorem sp_setV : (s.setV n q).sp = s.sp := rfl
@[simp] theorem sp_setMem : (s.setMem m).sp = s.sp := rfl
@[simp] theorem sp_setPc : (s.setPc a).sp = s.sp := rfl
@[simp] theorem sp_setSp : (s.setSp a).sp = a := rfl

@[simp] theorem pc_setX : (s.setX n val).pc = s.pc := rfl
@[simp] theorem pc_setV : (s.setV n q).pc = s.pc := rfl
@[simp] theorem pc_setMem : (s.setMem m).pc = s.pc := rfl
@[simp] theorem pc_setPc : (s.setPc a).pc = a := rfl
@[simp] theorem pc_setSp : (s.setSp a).pc = s.pc := rfl

@[simp] theorem mem_setX : (s.setX n val).mem = s.mem := rfl
@[simp] theorem mem_setV : (s.setV n q).mem = s.mem := rfl
@[simp] theorem mem_setMem : (s.setMem m).mem = m := rfl
@[simp] theorem mem_setPc : (s.setPc a).mem = s.mem := rfl
@[simp] theorem mem_setSp : (s.setSp a).mem = s.mem := rfl

@[simp] theorem nzcv_setX : (s.setX n val).nzcv = s.nzcv := rfl
@[simp] theorem nzcv_setV : (s.setV n q).nzcv = s.nzcv := rfl
@[simp] theorem nzcv_setMem : (s.setMem m).nzcv = s.nzcv := rfl
@[simp] theorem nzcv_setPc : (s.setPc a).nzcv = s.nzcv := rfl
@[simp] theorem nzcv_setSp : (s.setSp a).nzcv = s.nzcv := rfl

/-! The program counter is set last. -/

theorem setX_setPc : (s.setPc a).setX n val = (s.setX n val).setPc a := rfl
theorem setMem_setPc : (s.setPc a).setMem m = (s.setMem m).setPc a := rfl
theorem setPc_setPc (b : Addr) : (s.setPc a).setPc b = s.setPc b := rfl

/-- The last write to a register counts. -/
theorem setX_setX (val' : BitVec 64) : (s.setX n val).setX n val' = s.setX n val' := by
  refine Cpu.ext ?_ rfl rfl rfl rfl rfl
  funext r
  by_cases h : r.val = n
  · simp [setX, h]
  · simp [setX, h]

/-- Writes to different registers commute. -/
theorem setX_comm {n k : ℕ} (h : n ≠ k) (val val' : BitVec 64) :
    (s.setX n val).setX k val' = (s.setX k val').setX n val := by
  refine Cpu.ext ?_ rfl rfl rfl rfl rfl
  funext r
  simp only [setX]
  split_ifs with h1 h2
  · exact absurd (h2.symm.trans h1) h
  · rfl
  · rfl
  · rfl

/-- Writing back what a register holds changes nothing. -/
theorem setX_readX (h : n < 31) : s.setX n (s.readX n) = s := by
  refine Cpu.ext ?_ rfl rfl rfl rfl rfl
  funext r
  by_cases hr : r.val = n
  · obtain rfl := hr
    simp [setX, readX]
  · simp [setX, hr]

/-- A write to the zero register is lost. -/
theorem setX_zero_register : s.setX 31 val = s := by
  refine Cpu.ext ?_ rfl rfl rfl rfl rfl
  funext r
  exact if_neg (by omega)

@[simp] theorem readXSP_sp : s.readXSP 31 = s.sp := rfl

@[simp] theorem setXSP_sp : s.setXSP 31 val = s.setSp val := rfl

theorem readXSP_of_ne {n : ℕ} (h : n ≠ 31) : s.readXSP n = s.readX n := if_neg h

theorem setXSP_of_ne {n : ℕ} (h : n ≠ 31) : s.setXSP n val = s.setX n val := if_neg h

theorem mem_setXSP (n : ℕ) : (s.setXSP n val).mem = s.mem := by
  unfold setXSP
  split_ifs <;> rfl

end Cpu

end A64
end CalvinHook
