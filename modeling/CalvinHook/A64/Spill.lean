import CalvinHook.A64.Program

/-!
# Saving and restoring registers

Code that saves registers stores them in consecutive slots from a base address, and code that
restores them loads them back.  `Mem.writeSlots` is the memory after such stores in closed form, and
`Cpu.loadX`, `Cpu.loadV` the state after such loads; `execWords_storesX`, `execWords_storesV`,
`execWords_loadsX` and `execWords_loadsV` say that a list of words that decode to these instructions
does exactly this.  `Cpu.pushPair` and `Cpu.popPair` are the same for two registers at the stack
pointer.
-/

namespace CalvinHook
namespace A64

/-! ## Slots -/

namespace Mem

/-- `n` consecutive slots of `k` bytes from `a` on, slot `i` holding `val i`. -/
def writeSlots (m : Mem) (a : Addr) (k n : ℕ) (val : ℕ → BitVec (8 * k)) : Mem := fun x =>
  if InRange a (k * n) x then
    (val ((x - a).toNat / k)).extractLsb' (8 * ((x - a).toNat % k)) 8
  else m x

variable {m : Mem} {a x : Addr} {k n : ℕ} {val : ℕ → BitVec (8 * k)}

theorem writeSlots_of_not_inRange (h : ¬ InRange a (k * n) x) : m.writeSlots a k n val x = m x :=
  if_neg h

theorem writeSlots_of_inRange (h : InRange a (k * n) x) : m.writeSlots a k n val x =
    (val ((x - a).toNat / k)).extractLsb' (8 * ((x - a).toNat % k)) 8 := if_pos h

@[simp] theorem writeSlots_zero : m.writeSlots a k 0 val = m := by
  funext x
  exact writeSlots_of_not_inRange (by simp [InRange])

/-- An address of the range of slot `n`, as an offset from the first slot. -/
theorem inRange_slot (hk : k * (n + 1) ≤ 2 ^ 64) :
    InRange (a + BitVec.ofNat 64 (k * n)) k x ↔
      k * n ≤ (x - a).toNat ∧ (x - a).toNat < k * (n + 1) := by
  rw [Nat.mul_succ] at hk ⊢
  exact inRange_add_iff hk

/-- Writing the next slot. -/
theorem writeSlots_succ (hk : k * (n + 1) ≤ 2 ^ 64) :
    (m.writeSlots a k n val).write (a + BitVec.ofNat 64 (k * n)) k (val n) =
      m.writeSlots a k (n + 1) val := by
  funext x
  by_cases hin : InRange (a + BitVec.ofNat 64 (k * n)) k x
  · have hslot := (inRange_slot hk).mp hin
    have hall : InRange a (k * (n + 1)) x := hslot.2
    have hpos : 0 < k := by
      rcases Nat.eq_zero_or_pos k with rfl | hpos
      · exact absurd hin (by simp [InRange])
      · exact hpos
    have hdiv : (x - a).toNat / k = n :=
      (Nat.div_eq_iff hpos).mpr ⟨by rw [Nat.mul_comm]; exact hslot.1, by
        rw [Nat.mul_succ] at hslot
        rw [Nat.mul_comm n k]
        omega⟩
    have hmod : (x - (a + BitVec.ofNat 64 (k * n))).toNat = (x - a).toNat % k := by
      have hmul : k * ((x - a).toNat / k) + (x - a).toNat % k = (x - a).toNat := Nat.div_add_mod _ _
      rw [hdiv] at hmul
      rw [toNat_sub_add_of_le hslot.1]
      omega
    rw [write_of_inRange hin, writeSlots_of_inRange hall, hdiv, hmod]
  · rw [write_of_not_inRange hin]
    by_cases hall : InRange a (k * (n + 1)) x
    · have hold : InRange a (k * n) x := by
        by_contra hn
        exact hin ((inRange_slot hk).mpr ⟨Nat.not_lt.mp hn, hall⟩)
      rw [writeSlots_of_inRange hold, writeSlots_of_inRange hall]
    · have hold : ¬ InRange a (k * n) x := fun h => hall (h.mono (Nat.mul_le_mul_left k (by omega)))
      rw [writeSlots_of_not_inRange hold, writeSlots_of_not_inRange hall]

/-- A slot, read back. -/
theorem read_writeSlots (hk : k * n ≤ 2 ^ 64) {i : ℕ} (hi : i < n) :
    (m.writeSlots a k n val).read (a + BitVec.ofNat 64 (k * i)) k = val i := by
  have hin : k * (i + 1) ≤ k * n := Nat.mul_le_mul_left k hi
  induction n with
  | zero => omega
  | succ n ih =>
    have hkn : k * n ≤ k * (n + 1) := Nat.mul_le_mul_left k (by omega)
    rw [← writeSlots_succ hk]
    rcases Nat.lt_succ_iff_lt_or_eq.mp hi with hlt | rfl
    · have hle : k * (i + 1) ≤ k * n := Nat.mul_le_mul_left k hlt
      have hk' : k ≤ k * (n + 1) := Nat.le_mul_of_pos_right k (by omega)
      rw [read_write_of_apart (by omega)]
      · exact ih (by omega) hlt hle
      · intro y hy hy'
        have h1 := (inRange_slot (by omega)).mp hy
        have h2 := (inRange_slot hk).mp hy'
        omega
    · have hk' : k ≤ k * (i + 1) := Nat.le_mul_of_pos_right k (by omega)
      exact read_write_same _ _ (by omega) _

end Mem

/-! ## Stores -/

section Stores

variable {isa : Isa} {f : ℕ → Word} {c n : ℕ} (s : Cpu)

theorem ofNat_offset (a : Addr) (c d : ℕ) :
    a + BitVec.ofNat 64 (c + d) = a + BitVec.ofNat 64 c + BitVec.ofNat 64 d := by
  rw [BitVec.ofNat_add, BitVec.add_assoc]

theorem pc_next (a : Addr) (n : ℕ) :
    a + BitVec.ofNat 64 (4 * n) + 4 = a + BitVec.ofNat 64 (4 * (n + 1)) := by
  rw [Nat.mul_succ, BitVec.ofNat_add, BitVec.add_assoc]
  rfl

/-- Storing `X0` to `X(n-1)` in slots from `SP + c` on. -/
theorem execWords_storesX (hc : 8 * n ≤ 2 ^ 64)
    (hf : ∀ i < n, decode (f i) = .strX i 31 (BitVec.ofNat 64 (c + 8 * i))) :
    execWords isa ((List.range n).map f) s =
      (s.setMem (s.mem.writeSlots (s.sp + BitVec.ofNat 64 c) 8 n s.readX)).setPc
        (s.pc + BitVec.ofNat 64 (4 * n)) := by
  induction n with
  | zero => simp [Cpu.setMem, Cpu.setPc]
  | succ n ih =>
    rw [List.range_succ, List.map_append, execWords_append,
      ih (by omega) fun i hi => hf i (by omega), List.map_singleton, execWords_cons, execWords_nil,
      hf n (by omega), ← Mem.writeSlots_succ hc, ← pc_next, ← ofNat_offset]
    rfl

/-- Storing the low `k` bytes of `V0` to `V(n-1)` in slots from `SP + c` on. -/
theorem execWords_storesV {k : ℕ} (hc : k * n ≤ 2 ^ 64)
    (hf : ∀ i < n, decode (f i) = .strV k i 31 (BitVec.ofNat 64 (c + k * i))) :
    execWords isa ((List.range n).map f) s =
      (s.setMem (s.mem.writeSlots (s.sp + BitVec.ofNat 64 c) k n
        fun i => (s.readV i).setWidth (8 * k))).setPc (s.pc + BitVec.ofNat 64 (4 * n)) := by
  induction n with
  | zero => simp [Cpu.setMem, Cpu.setPc]
  | succ n ih =>
    have hle : k * n ≤ k * (n + 1) := Nat.mul_le_mul_left k (by omega)
    rw [List.range_succ, List.map_append, execWords_append,
      ih (by omega) fun i hi => hf i (by omega), List.map_singleton, execWords_cons, execWords_nil,
      hf n (by omega), ← Mem.writeSlots_succ hc, ← pc_next, ← ofNat_offset]
    rfl

end Stores

/-! ## Loads -/

/-- `X0` to `X(n-1)` loaded from slots of eight bytes from `a` on. -/
def Cpu.loadX (s : Cpu) (a : Addr) (n : ℕ) : Cpu :=
  { s with
    x := fun r => if r.val < n then s.mem.read (a + BitVec.ofNat 64 (8 * r.val)) 8 else s.x r }

/-- `V0` to `V(n-1)` loaded from slots of `k` bytes from `a` on, the rest of each register
cleared. -/
def Cpu.loadV (s : Cpu) (a : Addr) (k n : ℕ) : Cpu :=
  { s with v := fun r =>
      if r.val < n then (s.mem.read (a + BitVec.ofNat 64 (k * r.val)) k).setWidth 128 else s.v r }

namespace Cpu

variable (s : Cpu) (a : Addr) (k n i : ℕ)

theorem readX_loadX : (s.loadX a n).readX i =
    if i < n ∧ i < 31 then s.mem.read (a + BitVec.ofNat 64 (8 * i)) 8 else s.readX i := by
  unfold readX loadX
  by_cases hi : i < 31
  · simp [hi]
  · simp [hi]

theorem readV_loadV : (s.loadV a k n).readV i =
    if i < n ∧ i < 32 then (s.mem.read (a + BitVec.ofNat 64 (k * i)) k).setWidth 128
    else s.readV i := by
  unfold readV loadV
  by_cases hi : i < 32
  · simp [hi]
  · simp [hi]

@[simp] theorem readV_loadX : (s.loadX a n).readV i = s.readV i := rfl
@[simp] theorem readX_loadV : (s.loadV a k n).readX i = s.readX i := rfl
@[simp] theorem sp_loadX : (s.loadX a n).sp = s.sp := rfl
@[simp] theorem sp_loadV : (s.loadV a k n).sp = s.sp := rfl
@[simp] theorem pc_loadX : (s.loadX a n).pc = s.pc := rfl
@[simp] theorem pc_loadV : (s.loadV a k n).pc = s.pc := rfl
@[simp] theorem mem_loadX : (s.loadX a n).mem = s.mem := rfl
@[simp] theorem mem_loadV : (s.loadV a k n).mem = s.mem := rfl

theorem loadX_succ : (s.loadX a n).setX n (s.mem.read (a + BitVec.ofNat 64 (8 * n)) 8) =
    s.loadX a (n + 1) := by
  ext1 <;> try rfl
  funext r
  simp only [setX, loadX]
  by_cases h1 : r.val = n
  · simp [h1]
  · by_cases h2 : r.val < n
    · simp [h1, h2, Nat.lt_succ_of_lt h2]
    · have h3 : ¬ r.val < n + 1 := by omega
      simp [h1, h2, h3]

theorem loadV_succ :
    (s.loadV a k n).setV n ((s.mem.read (a + BitVec.ofNat 64 (k * n)) k).setWidth 128) =
      s.loadV a k (n + 1) := by
  ext1 <;> try rfl
  funext r
  simp only [setV, loadV]
  by_cases h1 : r.val = n
  · simp [h1]
  · by_cases h2 : r.val < n
    · simp [h1, h2, Nat.lt_succ_of_lt h2]
    · have h3 : ¬ r.val < n + 1 := by omega
      simp [h1, h2, h3]

@[simp] theorem loadX_zero : s.loadX a 0 = s := by
  simp [loadX]

@[simp] theorem loadV_zero : s.loadV a k 0 = s := by
  simp [loadV]

end Cpu

section Loads

variable {isa : Isa} {f : ℕ → Word} {rn c n : ℕ} (s : Cpu)

/-- The base register of the loads is not among the registers loaded. -/
theorem readXSP_loadX {a : Addr} (hrn : n ≤ rn) : (s.loadX a n).readXSP rn = s.readXSP rn := by
  unfold Cpu.readXSP
  split_ifs
  · rfl
  · rw [Cpu.readX_loadX, if_neg (by omega)]

/-- Loading `X0` to `X(n-1)` from slots at `c` bytes from a base register. -/
theorem execWords_loadsX (hrn : n ≤ rn)
    (hf : ∀ i < n, decode (f i) = .ldrX i rn (BitVec.ofNat 64 (c + 8 * i))) :
    execWords isa ((List.range n).map f) s =
      (s.loadX (s.readXSP rn + BitVec.ofNat 64 c) n).setPc (s.pc + BitVec.ofNat 64 (4 * n)) := by
  induction n with
  | zero => simp [Cpu.setPc]
  | succ n ih =>
    rw [List.range_succ, List.map_append, execWords_append,
      ih (by omega) fun i hi => hf i (by omega), List.map_singleton, execWords_cons, execWords_nil,
      hf n (by omega), ← Cpu.loadX_succ, ← pc_next, ← ofNat_offset]
    have hbase : ((s.loadX (s.readXSP rn + BitVec.ofNat 64 c) n).setPc
        (s.pc + BitVec.ofNat 64 (4 * n))).readXSP rn = s.readXSP rn :=
      readXSP_loadX s (by omega)
    rw [Isa.exec, Isa.effect, hbase]
    rfl

/-- Loading `V0` to `V(n-1)` from slots at `c` bytes from a base register. -/
theorem execWords_loadsV {k : ℕ}
    (hf : ∀ i < n, decode (f i) = .ldrV k i rn (BitVec.ofNat 64 (c + k * i))) :
    execWords isa ((List.range n).map f) s =
      (s.loadV (s.readXSP rn + BitVec.ofNat 64 c) k n).setPc (s.pc + BitVec.ofNat 64 (4 * n)) := by
  induction n with
  | zero => simp [Cpu.setPc]
  | succ n ih =>
    rw [List.range_succ, List.map_append, execWords_append,
      ih fun i hi => hf i (by omega), List.map_singleton, execWords_cons, execWords_nil,
      hf n (by omega), ← Cpu.loadV_succ, ← pc_next, ← ofNat_offset]
    rfl

end Loads

/-! ## Pairs -/

/-- The state after `STP Xi, Xj, [SP, #-16]!`. -/
def Cpu.pushPair (s : Cpu) (i j : ℕ) : Cpu :=
  ((s.setMem ((s.mem.write (s.sp - 16) 8 (s.readX i)).write (s.sp - 16 + 8) 8 (s.readX j))).setSp
    (s.sp - 16)).setPc (s.pc + 4)

/-- The state after `LDP Xi, Xj, [SP], #16`. -/
def Cpu.popPair (s : Cpu) (i j : ℕ) : Cpu :=
  (((s.setX i (s.mem.read s.sp 8)).setX j (s.mem.read (s.sp + 8) 8)).setSp (s.sp + 16)).setPc
    (s.pc + 4)

section Pairs

variable (isa : Isa) (s : Cpu) (i j n : ℕ)

theorem exec_stp : isa.exec (.stpPre i j 31 (-16)) s = s.pushPair i j := by
  rw [exec_of_not_isBranch isa rfl, Isa.effect, Cpu.readXSP_sp, Cpu.setXSP_sp, ← sub_eq_add_neg]
  rfl

theorem exec_ldp : isa.exec (.ldpPost i j 31 16) s = s.popPair i j := rfl

namespace Cpu

@[simp] theorem pc_pushPair : (s.pushPair i j).pc = s.pc + 4 := rfl
@[simp] theorem sp_pushPair : (s.pushPair i j).sp = s.sp - 16 := rfl
@[simp] theorem readX_pushPair : (s.pushPair i j).readX n = s.readX n := rfl
@[simp] theorem readV_pushPair : (s.pushPair i j).readV n = s.readV n := rfl

theorem mem_pushPair : (s.pushPair i j).mem =
    (s.mem.write (s.sp - 16) 8 (s.readX i)).write (s.sp - 16 + 8) 8 (s.readX j) := rfl

@[simp] theorem pc_popPair : (s.popPair i j).pc = s.pc + 4 := rfl
@[simp] theorem sp_popPair : (s.popPair i j).sp = s.sp + 16 := rfl
@[simp] theorem mem_popPair : (s.popPair i j).mem = s.mem := rfl
@[simp] theorem readV_popPair : (s.popPair i j).readV n = s.readV n := rfl

theorem readX_popPair_of_ne {s : Cpu} {i j n : ℕ} (hi : n ≠ i) (hj : n ≠ j) :
    (s.popPair i j).readX n = s.readX n := by
  simp [popPair, hi, hj]

theorem readX_popPair_fst {i j : ℕ} (hi : i < 31) (hij : i ≠ j) :
    (s.popPair i j).readX i = s.mem.read s.sp 8 := by
  simp [popPair, hi, hij]

theorem readX_popPair_snd (i : ℕ) {j : ℕ} (hj : j < 31) :
    (s.popPair i j).readX j = s.mem.read (s.sp + 8) 8 := by
  simp [popPair, hj]

/-- What a push writes. -/
theorem read_pushPair : (s.pushPair i j).mem.read (s.sp - 16) 8 = s.readX i ∧
    (s.pushPair i j).mem.read (s.sp - 16 + 8) 8 = s.readX j := by
  constructor
  · have h : (s.mem.write (s.sp - 16) 8 (s.readX i)).read (s.sp - 16) 8 = s.readX i :=
      Mem.read_write_same _ _ (by omega) _
    refine (Mem.read_eq_of_forall_inRange (by omega) fun x hx => ?_).trans h
    rw [mem_pushPair, Mem.write_of_not_inRange]
    show ¬ InRange (s.sp - 16 + BitVec.ofNat 64 8) 8 x
    rw [inRange_add_iff (by omega)]
    rw [InRange] at hx
    omega
  · rw [mem_pushPair, Mem.read_write_same _ _ (by omega)]

/-- What a push leaves alone. -/
theorem mem_pushPair_of_not_inRange {x : Addr} (h : ¬ InRange (s.sp - 16) 16 x) :
    (s.pushPair i j).mem x = s.mem x := by
  rw [InRange] at h
  rw [mem_pushPair, Mem.write_of_not_inRange, Mem.write_of_not_inRange]
  · rw [InRange]
    omega
  · show ¬ InRange (s.sp - 16 + BitVec.ofNat 64 8) 8 x
    rw [inRange_add_iff (by omega)]
    omega

/-- Popping a pair and pushing it again leaves the memory and the stack pointer as they are. -/
theorem pushPair_popPair {i j : ℕ} (hi : i < 31) (hj : j < 31) (hij : i ≠ j) :
    ((s.popPair i j).pushPair i j).mem = s.mem ∧ ((s.popPair i j).pushPair i j).sp = s.sp := by
  have hsp : (s.popPair i j).sp - 16 = s.sp := add_sub_cancel_right s.sp 16
  refine ⟨?_, hsp⟩
  rw [mem_pushPair, hsp, readX_popPair_fst s hi hij, readX_popPair_snd s i hj, mem_popPair,
    Mem.write_read_same, Mem.write_read_same]

end Cpu

end Pairs

end A64
end CalvinHook
