import CalvinHook.HookSdk.Assembler
import CalvinHook.A64.Program

/-!
# Running what the assembler emits

`EmitMovImm64` loads a 64-bit constant with four instructions; `execWords_movImm64` executes them.
-/

namespace CalvinHook
namespace Arm64

open A64

/-- The four words of `EmitMovImm64`. -/
def movImm64 (rd : Word) (val : BitVec 64) : List Word :=
  [Assembler.movZ rd ((val &&& 0xFFFF).setWidth 16) 0,
    Assembler.movK rd (((val >>> 16) &&& 0xFFFF).setWidth 16) 16,
    Assembler.movK rd (((val >>> 32) &&& 0xFFFF).setWidth 16) 32,
    Assembler.movK rd (((val >>> 48) &&& 0xFFFF).setWidth 16) 48]

theorem emitMovImm64_eq_add (a : Assembler) (rd : Word) (val : BitVec 64) :
    a.emitMovImm64 rd val = a.add ⟨movImm64 rd val, []⟩ := by
  simp [Assembler.emitMovImm64, Assembler.emitMovZ, Assembler.emitMovK, Assembler.emitU32, movImm64,
    Assembler.add]

theorem emitInst_eq_add (a : Assembler) (w : Word) : a.emitInst w = a.add ⟨[w], []⟩ :=
  Assembler.emitU32_eq_add a w

theorem emitBLR_eq_add (a : Assembler) (rn : Word) :
    a.emitBLR rn = a.add ⟨[kOpBLR ||| (rn <<< 5)], []⟩ :=
  Assembler.emitU32_eq_add a _

/-- A loop that emits one word for each `i < n`. -/
def emitLoop (a : Assembler) (n : ℕ) (f : ℕ → Word) : Assembler :=
  (List.range n).foldl (fun a i => a.emitInst (f i)) a

theorem emitLoop_eq_add (a : Assembler) (n : ℕ) (f : ℕ → Word) :
    emitLoop a n f = a.add ⟨(List.range n).map f, []⟩ := by
  induction n with
  | zero => simp [emitLoop, Assembler.add]
  | succ n ih =>
    rw [emitLoop] at ih ⊢
    rw [List.range_succ, List.foldl_append, ih, List.map_append, ← Assembler.add_words]
    exact emitInst_eq_add _ _

@[simp] theorem length_movImm64 (rd : Word) (val : BitVec 64) : (movImm64 rd val).length = 4 := rfl

/-! ## Decoding -/

section Decode

variable {rd : ℕ} (hrd : rd < 32) (imm : BitVec 16)
include hrd

/-- A register number as the field at the bottom of a word. -/
theorem ofNat_eq_field : (BitVec.ofNat 32 rd) = (BitVec.ofNat 5 rd).setWidth 32 <<< 0 := by
  apply BitVec.eq_of_toNat_eq
  simp
  omega

/-- The fields of a word made of a constant, a 16-bit immediate and a register. -/
theorem fields_movWide (c : Word) (hc : c.extractLsb' 0 21 = 0) :
    regAt (c ||| (imm.setWidth 32 <<< 5) ||| BitVec.ofNat 32 rd) 0 = rd ∧
    imm16 (c ||| (imm.setWidth 32 <<< 5) ||| BitVec.ofNat 32 rd) = imm ∧
    hwShift (c ||| (imm.setWidth 32 <<< 5) ||| BitVec.ofNat 32 rd) = hwShift c ∧
    (c ||| (imm.setWidth 32 <<< 5) ||| BitVec.ofNat 32 rd) &&& 0xFF800000 = c &&& 0xFF800000 := by
  rw [ofNat_eq_field hrd]
  refine ⟨?_, ?_, ?_, ?_⟩
  · rw [regAt, extractLsb_or_same _ _ (by omega), extractLsb_or_of_apart _ _ (by omega),
      extractLsb_eq_zero hc (by omega), BitVec.ofNat_eq_ofNat, BitVec.zero_or, BitVec.toNat_ofNat,
      Nat.mod_eq_of_lt (by omega)]
  · rw [imm16, extractLsb_or_of_apart _ _ (by omega), extractLsb_or_same _ _ (by omega),
      extractLsb_eq_zero hc (by omega), BitVec.ofNat_eq_ofNat, BitVec.zero_or]
  · rw [hwShift, extractLsb_or_of_apart _ _ (by omega), extractLsb_or_of_apart _ _ (by omega),
      hwShift]
  · rw [or_and_of_extractLsb_eq_zero _ _ (by decide), or_and_of_extractLsb_eq_zero _ _ (by decide)]

/-- A wide move: an opcode, the number of the half word, the immediate and the register. -/
theorem decode_movWide {p : Pattern} (hp : p ∈ patterns) (hmask : p.mask = 0xFF800000)
    (hlow : p.value.extractLsb' 0 23 = 0) (hvalue : p.value &&& 0xFF800000 = p.value) {k : ℕ}
    (hk : k < 4) {w : Word}
    (hw : w = p.value ||| ((BitVec.ofNat 32 (16 * k / 16) &&& 0x3) <<< 21) |||
      (imm.setWidth 32 <<< 5) ||| BitVec.ofNat 32 rd) :
    decode w = p.build w ∧ regAt w 0 = rd ∧ imm16 w = imm ∧ hwShift w = 16 * k := by
  have hhw : ∀ k < 4, BitVec.ofNat 32 (16 * k / 16) &&& 0x3 = (BitVec.ofNat 2 k).setWidth 32 := by
    decide
  rw [hhw k hk] at hw
  have h21 : (p.value ||| ((BitVec.ofNat 2 k).setWidth 32 <<< 21)).extractLsb' 0 21 = 0 := by
    rw [extractLsb_or_of_apart _ _ (by omega)]
    exact extractLsb_eq_zero hlow (by omega)
  have hshift : hwShift (p.value ||| ((BitVec.ofNat 2 k).setWidth 32 <<< 21)) = 16 * k := by
    rw [hwShift, extractLsb_or_same _ _ (by omega), extractLsb_eq_zero hlow (by omega),
      BitVec.ofNat_eq_ofNat, BitVec.zero_or, BitVec.toNat_ofNat, Nat.mod_eq_of_lt (by omega)]
  obtain ⟨hreg, himm, hhw, hand⟩ := fields_movWide hrd imm _ h21
  rw [← hw] at hreg himm hhw hand
  refine ⟨decode_of_mem hp ?_, hreg, himm, hhw.trans hshift⟩
  rw [Pattern.Matches, hmask, hand, or_and_of_extractLsb_eq_zero _ _ (by decide), hvalue]

theorem decode_movZ {k : ℕ} (hk : k < 4) :
    decode (Assembler.movZ (BitVec.ofNat 32 rd) imm (16 * k)) = .movz rd imm (16 * k) := by
  obtain ⟨hdec, hreg, himm, hhw⟩ :=
    decode_movWide hrd imm (p := Pattern.movz) (by simp [patterns]) rfl
      rfl rfl hk rfl
  refine Eq.trans hdec ?_
  show Insn.movz _ _ _ = _
  rw [hreg, himm, hhw]

theorem decode_movK {k : ℕ} (hk : k < 4) :
    decode (Assembler.movK (BitVec.ofNat 32 rd) imm (16 * k)) = .movk rd imm (16 * k) := by
  obtain ⟨hdec, hreg, himm, hhw⟩ :=
    decode_movWide hrd imm (p := Pattern.movk) (by simp [patterns]) rfl
      rfl rfl hk rfl
  refine Eq.trans hdec ?_
  show Insn.movk _ _ _ = _
  rw [hreg, himm, hhw]

end Decode

/-- None of the four words branches. -/
theorem straight_movImm64 (rd : ℕ) (hrd : rd < 32) (val : BitVec 64) :
    Straight (movImm64 (BitVec.ofNat 32 rd) val) := by
  have hz : ∀ imm, (decode (Assembler.movZ (BitVec.ofNat 32 rd) imm 0)).isBranch = false :=
    fun imm => by rw [decode_movZ hrd imm (k := 0) (by omega)]; rfl
  have hk : ∀ imm k, k < 4 →
      (decode (Assembler.movK (BitVec.ofNat 32 rd) imm (16 * k))).isBranch = false :=
    fun imm k hk => by rw [decode_movK hrd imm hk]; rfl
  rw [movImm64, straight_cons, straight_cons, straight_cons, straight_cons]
  exact ⟨hz _, hk _ 1 (by omega), hk _ 2 (by omega), hk _ 3 (by omega), by simp [Straight]⟩

/-! ## The constant, sixteen bits at a time -/

theorem setWidth_and_ffff (v : BitVec 64) (k : ℕ) :
    ((v >>> k) &&& 0xFFFF).setWidth 16 = v.extractLsb' k 16 := by
  have hmask : ∀ i < 16, (0xFFFF#64).getLsbD i = true := by decide
  refine BitVec.eq_of_getLsbD_eq fun i hi => ?_
  have h64 : i < 64 := by omega
  simp only [BitVec.getLsbD_setWidth, BitVec.getLsbD_and, BitVec.getLsbD_ushiftRight,
    BitVec.getLsbD_extractLsb', hi, decide_true, Bool.true_and]
  rw [show (0xFFFF : BitVec 64) = 0xFFFF#64 from rfl, hmask i hi, Bool.and_true]

/-- Inserting the next sixteen bits. -/
theorem insert_sixteen (v : BitVec 64) {k : ℕ} (hk : 16 * k + 16 ≤ 64) :
    ((v.extractLsb' 0 (16 * k)).setWidth 64 &&& ~~~(0xFFFF#64 <<< (16 * k))) |||
      ((v.extractLsb' (16 * k) 16).setWidth 64 <<< (16 * k)) =
      (v.extractLsb' 0 (16 * (k + 1))).setWidth 64 := by
  have hmask : ∀ i < 64, (0xFFFF#64).getLsbD i = decide (i < 16) := by decide
  refine BitVec.eq_of_getLsbD_eq fun i hi => ?_
  simp only [BitVec.getLsbD_or, BitVec.getLsbD_and, BitVec.getLsbD_not, BitVec.getLsbD_setWidth,
    BitVec.getLsbD_shiftLeft, BitVec.getLsbD_extractLsb', Nat.zero_add, hi, decide_true,
    Bool.true_and]
  by_cases h1 : i < 16 * k
  · have h2 : i < 16 * (k + 1) := by omega
    simp [h1, h2]
  · have h3 : 16 * k + (i - 16 * k) = i := by omega
    have h5 : i - 16 * k < 64 := by omega
    rw [hmask (i - 16 * k) h5]
    by_cases h4 : i < 16 * (k + 1)
    · have h6 : i - 16 * k < 16 := by omega
      simp [h1, h3, h4, h5, h6]
    · have h6 : ¬ i - 16 * k < 16 := by omega
      simp [h1, h4, h6]

/-- **`EmitMovImm64` loads the constant.** -/
theorem execWords_movImm64 (isa : Isa) (rd : ℕ) (hrd : rd < 31) (val : BitVec 64) (s : Cpu) :
    execWords isa (movImm64 (BitVec.ofNat 32 rd) val) s = (s.setX rd val).setPc (s.pc + 16) := by
  have h32 : rd < 32 := by omega
  have hz : decode (Assembler.movZ (BitVec.ofNat 32 rd) ((val &&& 0xFFFF).setWidth 16) 0) =
      .movz rd (val.extractLsb' 0 16) 0 := by
    have hw : (val &&& 0xFFFF).setWidth 16 = val.extractLsb' 0 16 := by
      rw [← setWidth_and_ffff, BitVec.ushiftRight_zero]
    rw [hw]
    exact decode_movZ h32 _ (k := 0) (by omega)
  have hk : ∀ k, k < 4 → decode (Assembler.movK (BitVec.ofNat 32 rd)
      (((val >>> (16 * k)) &&& 0xFFFF).setWidth 16) (16 * k)) =
      .movk rd (val.extractLsb' (16 * k) 16) (16 * k) := by
    intro k hk
    rw [setWidth_and_ffff]
    exact decode_movK h32 _ hk
  -- the low `16 * (k + 1)` bits of the constant are in the register after instruction `k`
  have hstep : ∀ (k : ℕ) (a : Addr), 16 * k + 16 ≤ 64 →
      isa.exec (.movk rd (val.extractLsb' (16 * k) 16) (16 * k))
        ((s.setX rd ((val.extractLsb' 0 (16 * k)).setWidth 64)).setPc a) =
      (s.setX rd ((val.extractLsb' 0 (16 * (k + 1))).setWidth 64)).setPc (a + 4) := by
    intro k a hk
    have hread : ((s.setX rd ((val.extractLsb' 0 (16 * k)).setWidth 64)).setPc a).readX rd =
        (val.extractLsb' 0 (16 * k)).setWidth 64 := by
      simp [hrd]
    rw [Isa.exec, Isa.effect, hread, insert_sixteen val hk]
    ext1 <;> try rfl
    funext r
    simp only [Cpu.setX, Cpu.setPc]
    split_ifs <;> rfl
  have h0 : isa.exec (.movz rd (val.extractLsb' 0 16) 0) s =
      (s.setX rd ((val.extractLsb' 0 (16 * 1)).setWidth 64)).setPc (s.pc + 4) := by
    rw [Isa.exec, Isa.effect, BitVec.shiftLeft_zero]
    rfl
  rw [movImm64, execWords_cons, hz, h0, execWords_cons, hk 1 (by omega), hstep 1 _ (by omega),
    execWords_cons, hk 2 (by omega), hstep 2 _ (by omega), execWords_cons, hk 3 (by omega),
    hstep 3 _ (by omega), execWords_nil]
  have hall : (val.extractLsb' 0 (16 * (3 + 1))).setWidth 64 = val := by
    refine BitVec.eq_of_getLsbD_eq fun i hi => ?_
    simp [hi]
  rw [hall, BitVec.add_assoc, BitVec.add_assoc, BitVec.add_assoc]
  rfl

end Arm64
end CalvinHook
