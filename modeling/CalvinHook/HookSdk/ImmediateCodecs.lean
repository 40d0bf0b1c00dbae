import CalvinHook.HookSdk.Arm64Constants

/-!
# The immediate codecs of `arm64_constants.h`

The header has seven pairs of a decoder and an encoder, each for the offset of one kind of
instruction.  Every pair reads and writes a field of the word in its unit, so that the two are
inverse to each other: an offset in the range of the field is read back from any word that has a
zero in the field, and the encoder gives exactly the bits of the field from which the offset was
read.

* `Codec`: the seven pairs, with the unit, the width and the bits of the field.
* `Codec.decode_eq_read`, `Codec.encode_eq_write`: the field of each pair.
* `Codec.decode_encode_inverse`: the two round trips.
-/

namespace CalvinHook
namespace Arm64

open A64

/-! ## The pairs -/

/-- The seven pairs of the header, by the suffix of their names. -/
inductive Codec where
  | imm26 | imm19 | compImm19 | imm14 | ldrLitImm19 | adrImm | adrpImm
  deriving DecidableEq, Repr

namespace Codec

def decode : Codec → Word → BitVec 64
  | imm26 => decodeImm26
  | imm19 => decodeImm19
  | compImm19 => decodeCompImm19
  | imm14 => decodeImm14
  | ldrLitImm19 => decodeLdrLitImm19
  | adrImm => decodeAdrImm
  | adrpImm => decodeAdrpImm

def encode : Codec → BitVec 64 → Word
  | imm26 => encodeImm26
  | imm19 => encodeImm19
  | compImm19 => encodeCompImm19
  | imm14 => encodeImm14
  | ldrLitImm19 => encodeLdrLitImm19
  | adrImm => encodeAdrImm
  | adrpImm => encodeAdrpImm

/-- The unit of the offset. -/
def unit : Codec → BitVec 64
  | adrImm => 1
  | adrpImm => 4096
  | _ => 4

/-- The number of bits of the immediate. -/
def width : Codec → ℕ
  | imm26 => 26
  | imm14 => 14
  | adrImm | adrpImm => 21
  | _ => 19

/-- The bits of the immediate in the word. -/
def fieldMask : Codec → Word
  | imm26 => 0x03FFFFFF
  | imm14 => 0x0007FFE0
  | adrImm | adrpImm => 0x60FFFFE0
  | _ => 0x00FFFFE0

theorem imm26_fits : 0 + 26 ≤ 32 := by decide

theorem imm19_fits : 5 + 19 ≤ 32 := by decide

theorem imm14_fits : 5 + 14 ≤ 32 := by decide

/-- The field of the pair. -/
def field : (c : Codec) → ImmField c.width
  | imm26 => .contiguous 0 26 imm26_fits
  | imm19 => .contiguous 5 19 imm19_fits
  | compImm19 => .contiguous 5 19 imm19_fits
  | imm14 => .contiguous 5 14 imm14_fits
  | ldrLitImm19 => .contiguous 5 19 imm19_fits
  | adrImm => .split
  | adrpImm => .split

theorem mask_field (c : Codec) : c.field.mask = c.fieldMask := by
  cases c <;> decide

end Codec

/-! ## The field of each pair -/

/-- An offset in words, masked and shifted into place. -/
theorem setWidth_and_shiftLeft (q : BitVec 64) (n lo : ℕ) (h : lo + n ≤ 32) :
    (q &&& BitVec.ofNat 64 (2 ^ n - 1)).setWidth 32 <<< lo =
      (ImmField.contiguous lo n h).put (q.extractLsb' 0 n) := by
  rw [and_two_pow_sub_one, BitVec.setWidth_setWidth (by omega)]
  rfl

/-- An offset of `ADR` or `ADRP`, cut in two. -/
theorem setWidth_adr_parts (q : BitVec 64) :
    ((((q &&& 0x1FFFFF) &&& 0x3).setWidth 32 <<< 29) |||
      ((((q &&& 0x1FFFFF) >>> 2) &&& 0x7FFFF).setWidth 32 <<< 5) : Word) =
      ImmField.split.put (q.extractLsb' 0 21) := by
  have hand : q &&& 0x1FFFFF = (q.extractLsb' 0 21).setWidth 64 := and_two_pow_sub_one (k := 21) _
  have hlo : ∀ x : BitVec 64, x &&& 0x3 = (x.extractLsb' 0 2).setWidth 64 := fun x =>
    and_two_pow_sub_one (k := 2) x
  have hhi : ∀ x : BitVec 64, x &&& 0x7FFFF = (x.extractLsb' 0 19).setWidth 64 := fun x =>
    and_two_pow_sub_one (k := 19) x
  have h1 : ((q.extractLsb' 0 21).setWidth 64).extractLsb' 0 2 =
      (q.extractLsb' 0 21).extractLsb' 0 2 := by
    refine BitVec.eq_of_getLsbD_eq fun i hi => ?_
    have h21 : i < 21 := by omega
    have h64 : i < 64 := by omega
    simp [h21, h64]
  have h2 : (((q.extractLsb' 0 21).setWidth 64) >>> 2).extractLsb' 0 19 =
      (q.extractLsb' 0 21).extractLsb' 2 19 := by
    refine BitVec.eq_of_getLsbD_eq fun i hi => ?_
    have h21 : 2 + i < 21 := by omega
    have h64 : 2 + i < 64 := by omega
    simp [h21, h64]
  rw [hand, hlo, hhi, h1, h2, BitVec.setWidth_setWidth (by omega),
    BitVec.setWidth_setWidth (by omega)]
  rfl

namespace Codec

theorem decode_eq_read (c : Codec) (inst : Word) : c.decode inst = c.field.read c.unit inst := by
  cases c with
  | imm26 => exact decodeImm26_eq inst
  | imm19 => exact decodeImm19_eq inst
  | compImm19 => exact decodeCompImm19_eq inst
  | imm14 => exact decodeImm14_eq inst
  | ldrLitImm19 => exact decodeLdrLitImm19_eq inst
  | adrImm => exact (decodeAdrImm_eq inst).trans (BitVec.mul_one _).symm
  | adrpImm => exact decodeAdrpImm_eq inst

theorem encode_eq_write (c : Codec) (offset : BitVec 64) :
    c.encode offset = c.field.write c.unit offset := by
  have hone : offset.sdiv 1 = offset := BitVec.sdiv_one
  cases c with
  | imm26 =>
    rw [← BitVec.shiftLeft_zero (imm26.encode offset)]
    exact setWidth_and_shiftLeft _ 26 0 (by omega)
  | imm19 => exact setWidth_and_shiftLeft _ 19 5 (by omega)
  | compImm19 => exact setWidth_and_shiftLeft _ 19 5 (by omega)
  | imm14 => exact setWidth_and_shiftLeft _ 14 5 (by omega)
  | ldrLitImm19 => exact setWidth_and_shiftLeft _ 19 5 (by omega)
  | adrImm =>
    show encodeAdrImm offset = ImmField.split.put ((offset.sdiv 1).extractLsb' 0 21)
    rw [hone]
    exact setWidth_adr_parts offset
  | adrpImm => exact setWidth_adr_parts (offset.sdiv 4096)

theorem width_pos (c : Codec) : 0 < c.width := by cases c <;> decide

theorem width_le (c : Codec) : c.width ≤ 64 := by cases c <;> decide

theorem unit_pos (c : Codec) : 0 < c.unit.toInt := by cases c <;> decide

/-- No offset of a pair overflows an `int64_t`. -/
theorem unit_mul_lt (c : Codec) : c.unit.toInt * 2 ^ (c.width - 1) < 2 ^ 63 := by
  cases c <;> decide

/-- An offset is read back from a word with a zero in the field. -/
theorem decode_or_encode (c : Codec) {op : Word} {offset : BitVec 64} (hop : op &&& c.fieldMask = 0)
    (hdvd : c.unit.toInt ∣ offset.toInt) (hlo : -(c.unit.toInt * 2 ^ (c.width - 1)) ≤ offset.toInt)
    (hhi : offset.toInt < c.unit.toInt * 2 ^ (c.width - 1)) :
    c.decode (op ||| c.encode offset) = offset := by
  rw [decode_eq_read, encode_eq_write]
  rw [← mask_field] at hop
  exact ImmField.read_or_write c.width_pos c.width_le c.unit_pos hop hdvd hlo hhi

/-- **The codecs are inverse.**  An offset that is a multiple of the unit and in the signed range of
the field is read back from every word with a zero in the field, and encoding what was decoded gives
the bits of the field. -/
theorem decode_encode_inverse (c : Codec) :
    (∀ (op : Word) (offset : BitVec 64), op &&& c.fieldMask = 0 → c.unit.toInt ∣ offset.toInt →
      -(c.unit.toInt * 2 ^ (c.width - 1)) ≤ offset.toInt →
      offset.toInt < c.unit.toInt * 2 ^ (c.width - 1) →
      c.decode (op ||| c.encode offset) = offset) ∧
    ∀ inst : Word, c.encode (c.decode inst) = inst &&& c.fieldMask := by
  refine ⟨fun op offset hop hdvd hlo hhi => c.decode_or_encode hop hdvd hlo hhi, fun inst => ?_⟩
  rw [decode_eq_read, encode_eq_write, ← mask_field]
  exact ImmField.write_read c.width_pos c.width_le c.unit_pos c.unit_mul_lt inst

/-- The offset at the negative end of the range of `ADRP`, in `ADRP X17`, and the bits of
`B` to the instruction before. -/
theorem decode_encode_inverse_ends :
    adrpImm.decode (0x90000011 ||| adrpImm.encode (BitVec.ofInt 64 (-2 ^ 32))) =
      BitVec.ofInt 64 (-2 ^ 32) ∧
      imm26.encode (imm26.decode 0x17FFFFFF) = 0x17FFFFFF &&& imm26.fieldMask :=
  ⟨(decode_encode_inverse adrpImm).1 _ _ (by decide) (by decide) (by decide) (by decide),
    (decode_encode_inverse imm26).2 _⟩

end Codec

end Arm64
end CalvinHook
