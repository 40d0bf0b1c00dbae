import CalvinHook.A64.Immediate

/-!
# `arm64_constants.h`: fields, opcodes and classification of instruction words

The helpers of the header on 32-bit words, with `int64_t` values as 64-bit vectors.  The header
reads the fields of a word by shifts and masks; `bits_eq`, `signExtend_eq` and the lemmas after them
say that these are the fields and offsets of the architecture's own encodings.
-/

namespace CalvinHook
namespace Arm64

open A64

/-! ## Bit manipulation helpers -/

/-- `Bits`: the field of `val` from bit `hi` down to bit `lo`. -/
def bits (val : Word) (hi lo : ℕ) : Word :=
  (val >>> lo) &&& ((1#32 <<< (hi - lo + 1)) - 1)

/-- `SignExtend`: the low `n` bits of `val` as a signed 64-bit value. -/
def signExtend (val : BitVec 64) (n : ℕ) : BitVec 64 :=
  let signBit := 1#64 <<< (n - 1)
  let mask := (1#64 <<< n) - 1
  let val := val &&& mask
  if val &&& signBit ≠ 0 then val ||| ~~~mask else val

/-! ## Opcodes, registers and ranges -/

def kOpB : Word := 0x14000000
def kMaskOpB : Word := 0xFC000000
def kOpBL : Word := 0x94000000
def kOpBCond : Word := 0x54000000
def kMaskOpBCond : Word := 0xFF000010
def kOpCBZ : Word := 0x34000000
def kOpCBNZ : Word := 0x35000000
def kOpTBZ : Word := 0x36000000
def kOpTBNZ : Word := 0x37000000
def kOpADRP : Word := 0x90000000
def kOpNOP : Word := 0xD503201F
def kOpBR : Word := 0xD61F0000
def kOpBLR : Word := 0xD63F0000
def kOpMovZ : Word := 0xD2800000
def kOpMovK : Word := 0xF2800000

def kRegX17 : Word := 17
def kRegLR : Word := 30

/-- The reach of `B`: 128 MB either way. -/
def kMaxBRange : BitVec 64 := 1 <<< 27

/-! ## Immediates -/

def decodeImm26 (inst : Word) : BitVec 64 :=
  signExtend ((inst &&& 0x03FFFFFF).setWidth 64) 26 * 4

def encodeImm26 (offset : BitVec 64) : Word :=
  (offset.sdiv 4 &&& 0x03FFFFFF).setWidth 32

def decodeImm19 (inst : Word) : BitVec 64 :=
  signExtend ((bits inst 23 5).setWidth 64) 19 * 4

def encodeImm19 (offset : BitVec 64) : Word :=
  (offset.sdiv 4 &&& 0x7FFFF).setWidth 32 <<< 5

def decodeCompImm19 (inst : Word) : BitVec 64 :=
  signExtend ((bits inst 23 5).setWidth 64) 19 * 4

def encodeCompImm19 (offset : BitVec 64) : Word :=
  (offset.sdiv 4 &&& 0x7FFFF).setWidth 32 <<< 5

def decodeImm14 (inst : Word) : BitVec 64 :=
  signExtend ((bits inst 18 5).setWidth 64) 14 * 4

def encodeImm14 (offset : BitVec 64) : Word :=
  (offset.sdiv 4 &&& 0x3FFF).setWidth 32 <<< 5

def decodeLdrLitImm19 (inst : Word) : BitVec 64 :=
  signExtend ((bits inst 23 5).setWidth 64) 19 * 4

def encodeLdrLitImm19 (offset : BitVec 64) : Word :=
  (offset.sdiv 4 &&& 0x7FFFF).setWidth 32 <<< 5

def decodeAdrImm (inst : Word) : BitVec 64 :=
  signExtend (((bits inst 23 5 <<< 2) ||| bits inst 30 29).setWidth 64) 21

def encodeAdrImm (offset : BitVec 64) : Word :=
  let imm := offset &&& 0x1FFFFF
  let immlo := (imm &&& 0x3).setWidth 32
  let immhi := ((imm >>> 2) &&& 0x7FFFF).setWidth 32
  (immlo <<< 29) ||| (immhi <<< 5)

def decodeAdrpImm (inst : Word) : BitVec 64 :=
  signExtend (((bits inst 23 5 <<< 2) ||| bits inst 30 29).setWidth 64) 21 * 4096

def encodeAdrpImm (offset : BitVec 64) : Word :=
  let imm := offset.sdiv 4096 &&& 0x1FFFFF
  let immlo := (imm &&& 0x3).setWidth 32
  let immhi := ((imm >>> 2) &&& 0x7FFFF).setWidth 32
  (immlo <<< 29) ||| (immhi <<< 5)

/-! ## Classification -/

def isB (inst : Word) : Bool := (inst &&& kMaskOpB) == kOpB
def isBL (inst : Word) : Bool := (inst &&& kMaskOpB) == kOpBL
def isBCond (inst : Word) : Bool := (inst &&& kMaskOpBCond) == kOpBCond
def isCBZ (inst : Word) : Bool := (inst &&& 0x7F000000) == kOpCBZ
def isCBNZ (inst : Word) : Bool := (inst &&& 0x7F000000) == kOpCBNZ
def isTBZ (inst : Word) : Bool := (inst &&& 0x7F000000) == kOpTBZ
def isTBNZ (inst : Word) : Bool := (inst &&& 0x7F000000) == kOpTBNZ
def isLdrLiteral (inst : Word) : Bool := (inst &&& 0x3B000000) == 0x18000000
def isADR (inst : Word) : Bool := (inst &&& 0x9F000000) == 0x10000000
def isADRP (inst : Word) : Bool := (inst &&& 0x9F000000) == 0x90000000

def condFromBCond (inst : Word) : Word := inst &&& 0xF
def invertCond (cond : Word) : Word := cond ^^^ 1
def getRt (inst : Word) : Word := bits inst 4 0
def getRd (inst : Word) : Word := bits inst 4 0

/-! ## Masks are fields -/

theorem one_shiftLeft_sub_one {w k : ℕ} (hk : k < w) :
    (1#w <<< k) - 1 = BitVec.ofNat w (2 ^ k - 1) := by
  have hw : 1 < 2 ^ w := Nat.one_lt_two_pow (by omega)
  have hkw : 2 ^ k < 2 ^ w := Nat.pow_lt_pow_right (by omega) hk
  have hk0 : 0 < 2 ^ k := Nat.two_pow_pos k
  apply BitVec.eq_of_toNat_eq
  rw [BitVec.toNat_sub, BitVec.toNat_shiftLeft, BitVec.toNat_ofNat, BitVec.toNat_ofNat,
    Nat.mod_eq_of_lt hw, Nat.one_shiftLeft, Nat.mod_eq_of_lt hkw]
  have h1 : (1 : BitVec w).toNat = 1 := by
    rw [BitVec.ofNat_eq_ofNat, BitVec.toNat_ofNat, Nat.mod_eq_of_lt hw]
  rw [h1, show 2 ^ w - 1 + 2 ^ k = 2 ^ k - 1 + 2 ^ w by omega, Nat.add_mod_right]

/-- Masking with `2 ^ k - 1` keeps the low `k` bits. -/
theorem and_two_pow_sub_one {w k : ℕ} (x : BitVec w) :
    x &&& BitVec.ofNat w (2 ^ k - 1) = (x.extractLsb' 0 k).setWidth w := by
  refine BitVec.eq_of_getLsbD_eq fun i hi => ?_
  rw [BitVec.getLsbD_and, BitVec.getLsbD_setWidth, BitVec.getLsbD_extractLsb', BitVec.getLsbD_ofNat,
    Nat.testBit_two_pow_sub_one, Nat.zero_add, Bool.and_comm, Bool.and_assoc]

theorem bits_eq (val : Word) {hi lo : ℕ} (h : hi - lo + 1 < 32) :
    bits val hi lo = (val.extractLsb' lo (hi - lo + 1)).setWidth 32 := by
  rw [bits, one_shiftLeft_sub_one h, and_two_pow_sub_one]
  rfl

/-- Sign extension of a field is the architecture's. -/
theorem signExtend_eq {n : ℕ} (x : BitVec n) (h0 : 0 < n) (hn : n < 64) :
    signExtend (x.setWidth 64) n = x.signExtend 64 := by
  have hand : (x.setWidth 64) &&& ((1#64 <<< n) - 1) = x.setWidth 64 := by
    rw [one_shiftLeft_sub_one hn, and_two_pow_sub_one]
    refine BitVec.eq_of_getLsbD_eq fun i hi => ?_
    simp only [BitVec.getLsbD_setWidth, BitVec.getLsbD_extractLsb', Nat.zero_add, hi, decide_true,
      Bool.true_and]
    by_cases hin : i < n
    · simp [hin]
    · simp [BitVec.getLsbD_of_ge x i (by omega)]
  have hsign : (x.setWidth 64) &&& (1#64 <<< (n - 1)) ≠ 0 ↔ x.msb = true := by
    rw [BitVec.msb_eq_getLsbD_last]
    constructor
    · intro hne
      by_contra hmsb
      refine hne (BitVec.eq_of_getLsbD_eq fun i hi => ?_)
      have hi1 : (1#64).getLsbD (i - (n - 1)) = decide (i - (n - 1) = 0) := by
        rw [BitVec.getLsbD_one]
        simp
      rw [BitVec.getLsbD_and, BitVec.getLsbD_setWidth, BitVec.getLsbD_shiftLeft, hi1]
      by_cases hin : i = n - 1
      · rw [hin]
        simp [hmsb]
      · by_cases hlt : i < n - 1
        · simp [hlt]
        · have : ¬ i - (n - 1) = 0 := by omega
          simp [this]
    · intro hmsb hzero
      have hbit := congrArg (fun v => v.getLsbD (n - 1)) hzero
      have hlt : n - 1 < 64 := by omega
      simp [hlt, hmsb] at hbit
  have hmask : ~~~((1#64 <<< n) - 1) = ~~~BitVec.ofNat 64 (2 ^ n - 1) := by
    rw [one_shiftLeft_sub_one hn]
  unfold signExtend
  simp only [hand, hmask]
  refine BitVec.eq_of_getLsbD_eq fun i hi => ?_
  rw [BitVec.getLsbD_signExtend]
  by_cases hmsb : x.msb = true
  · rw [if_pos (hsign.mpr hmsb), BitVec.getLsbD_or, BitVec.getLsbD_not, BitVec.getLsbD_ofNat,
      Nat.testBit_two_pow_sub_one]
    by_cases hin : i < n
    · simp [hi, hin]
    · simp [hi, hin, hmsb]
  · rw [if_neg (fun h => hmsb (hsign.mp h))]
    by_cases hin : i < n
    · simp [hi, hin]
    · simp [hi, hin, hmsb, BitVec.getLsbD_of_ge x i (by omega)]

/-! ## The offsets are the architecture's -/

theorem decodeImm26_eq (inst : Word) : decodeImm26 inst = imm26 inst := by
  have h : inst &&& 0x03FFFFFF = (inst.extractLsb' 0 26).setWidth 32 :=
    and_two_pow_sub_one (k := 26) inst
  rw [decodeImm26, h, BitVec.setWidth_setWidth (by omega),
    signExtend_eq _ (by omega) (by omega)]
  rfl

theorem setWidth_bits (val : Word) {hi lo : ℕ} (h : hi - lo + 1 < 32) :
    (bits val hi lo).setWidth 64 = (val.extractLsb' lo (hi - lo + 1)).setWidth 64 := by
  rw [bits_eq val h, BitVec.setWidth_setWidth (by omega)]

theorem decodeImm19_eq (inst : Word) : decodeImm19 inst = imm19 inst := by
  rw [decodeImm19, setWidth_bits inst (by omega), signExtend_eq _ (by omega) (by omega)]
  rfl

theorem decodeCompImm19_eq (inst : Word) : decodeCompImm19 inst = imm19 inst := decodeImm19_eq inst

theorem decodeLdrLitImm19_eq (inst : Word) : decodeLdrLitImm19 inst = imm19 inst :=
  decodeImm19_eq inst

theorem decodeImm14_eq (inst : Word) : decodeImm14 inst = imm14 inst := by
  rw [decodeImm14, setWidth_bits inst (by omega), signExtend_eq _ (by omega) (by omega)]
  rfl

/-- The two parts of the offset of `ADR` and `ADRP`, put together. -/
theorem setWidth_adr_field (inst : Word) :
    ((bits inst 23 5 <<< 2) ||| bits inst 30 29).setWidth 64 =
      (inst.extractLsb' 5 19 ++ inst.extractLsb' 29 2).setWidth 64 := by
  rw [bits_eq inst (by omega), bits_eq inst (by omega)]
  refine BitVec.eq_of_getLsbD_eq fun i hi => ?_
  simp only [BitVec.getLsbD_setWidth, BitVec.getLsbD_or, BitVec.getLsbD_shiftLeft,
    BitVec.getLsbD_append, BitVec.getLsbD_extractLsb', hi, decide_true, Bool.true_and]
  by_cases h2 : i < 2
  · have h32 : i < 32 := by omega
    simp [h2, h32]
  · by_cases h21 : i - 2 < 19
    · have h32 : i < 32 := by omega
      have h30 : i - 2 < 32 := by omega
      simp [h2, h21, h32, h30]
    · simp [h2, h21]

theorem decodeAdrImm_eq (inst : Word) : decodeAdrImm inst = imm21 inst := by
  rw [decodeAdrImm, setWidth_adr_field, signExtend_eq _ (by omega) (by omega)]
  rfl

theorem decodeAdrpImm_eq (inst : Word) : decodeAdrpImm inst = imm21 inst * 4096 := by
  rw [decodeAdrpImm, setWidth_adr_field, signExtend_eq _ (by omega) (by omega)]
  rfl

end Arm64
end CalvinHook
