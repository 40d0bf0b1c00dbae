import CalvinHook.A64.Decode

/-!
# Signed immediates in instruction words

An instruction keeps a signed offset in some of its bits, divided by a unit.  `ImmField` is such a
place for `n` bits, with what makes it a field: what is put in is got back, and putting back what
was got gives the bits of the field.  Reading and writing a scaled offset are then inverse to each
other over the whole signed range of the field.

* `signExtend_extractLsb`: a value in the range of a signed field survives the field.
* `sdiv_mul_cancel`, `mul_sdiv_cancel`: dividing by the unit, exactly.
* `ImmField.contiguous`, `ImmField.split`: `n` bits in a row, and the two parts of `ADR` and `ADRP`.
* `ImmField.read_or_write`, `ImmField.write_read`: the two round trips.
-/

namespace CalvinHook
namespace A64

/-! ## Sign extension and exact division -/

/-- A value in the range of a signed field of `k` bits is what the field is read as. -/
theorem signExtend_extractLsb {k : ℕ} (hk : 0 < k) (hk64 : k ≤ 64) {x : BitVec 64}
    (hlo : -(2 ^ (k - 1) : ℤ) ≤ x.toInt) (hhi : x.toInt < 2 ^ (k - 1)) :
    (x.extractLsb' 0 k).signExtend 64 = x := by
  obtain ⟨j, rfl⟩ : ∃ j, k = j + 1 := ⟨k - 1, by omega⟩
  rw [Nat.add_sub_cancel] at hlo hhi
  have hpow : ((2 ^ (j + 1) : ℕ) : ℤ) = 2 * 2 ^ j := by
    rw [pow_succ]
    push_cast
    exact mul_comm _ _
  have hbmod : (x.toNat : ℤ).bmod (2 ^ (j + 1)) = x.toInt.bmod (2 ^ (j + 1)) := by
    rw [BitVec.toInt_eq_toNat_bmod, Int.bmod_bmod_of_dvd (Nat.pow_dvd_pow 2 hk64)]
  apply BitVec.eq_of_toInt_eq
  rw [BitVec.toInt_signExtend_of_le hk64, BitVec.toInt_extractLsb', Nat.shiftRight_zero, hbmod]
  exact Int.bmod_eq_of_le (by omega) (by omega)

/-- The low bits of a sign extension. -/
theorem extractLsb_signExtend {k : ℕ} (hk : k ≤ 64) (x : BitVec k) :
    (x.signExtend 64).extractLsb' 0 k = x := by
  refine BitVec.eq_of_getLsbD_eq fun i hi => ?_
  have h64 : i < 64 := by omega
  rw [BitVec.getLsbD_extractLsb', BitVec.getLsbD_signExtend, Nat.zero_add]
  simp [hi, h64]

/-- The quotient by a positive number that divides. -/
theorem toInt_sdiv {x c : BitVec 64} (hc : 0 < c.toInt) (hdvd : c.toInt ∣ x.toInt) :
    (x.sdiv c).toInt = x.toInt / c.toInt := by
  have hne : c ≠ -1#64 := by
    rintro rfl
    exact absurd hc (by decide)
  rw [BitVec.toInt_sdiv_of_ne_or_ne _ _ (.inr hne), Int.tdiv_eq_ediv_of_dvd hdvd]

/-- Dividing by a number that divides and multiplying again. -/
theorem sdiv_mul_cancel {x c : BitVec 64} (hc : 0 < c.toInt) (hdvd : c.toInt ∣ x.toInt) :
    x.sdiv c * c = x := by
  apply BitVec.eq_of_toInt_eq
  rw [BitVec.toInt_mul, toInt_sdiv hc hdvd, Int.ediv_mul_cancel hdvd, BitVec.toInt_bmod_cancel]

/-- Multiplying without overflow and dividing again. -/
theorem mul_sdiv_cancel {x c : BitVec 64} (hc : 0 < c.toInt) (hlo : -2 ^ 63 ≤ x.toInt * c.toInt)
    (hhi : x.toInt * c.toInt < 2 ^ 63) : (x * c).sdiv c = x := by
  have hmul : (x * c).toInt = x.toInt * c.toInt := by
    rw [BitVec.toInt_mul]
    exact Int.bmod_eq_of_le (by omega) (by omega)
  apply BitVec.eq_of_toInt_eq
  rw [toInt_sdiv hc (by rw [hmul]; exact dvd_mul_left _ _), hmul, Int.mul_ediv_cancel _ (by omega)]

/-! ## Fields -/

/-- A place for `n` bits in an instruction word. -/
structure ImmField (n : ℕ) where
  /-- The bits of the field. -/
  mask : Word
  /-- The field of a word. -/
  get : Word → BitVec n
  /-- The word with only the field. -/
  put : BitVec n → Word
  get_or_put : ∀ w x, w &&& mask = 0 → get (w ||| put x) = x
  put_get : ∀ w, put (get w) = w &&& mask

/-- A word masked by the bits of a field, bit by bit. -/
theorem and_setWidth_shiftLeft_allOnes (w : Word) {lo n : ℕ} :
    w &&& ((BitVec.allOnes n).setWidth 32 <<< lo) = (w.extractLsb' lo n).setWidth 32 <<< lo := by
  refine BitVec.eq_of_getLsbD_eq fun i hi => ?_
  rw [BitVec.getLsbD_and, BitVec.getLsbD_shiftLeft, BitVec.getLsbD_shiftLeft,
    BitVec.getLsbD_setWidth, BitVec.getLsbD_setWidth, BitVec.getLsbD_extractLsb',
    BitVec.getLsbD_allOnes]
  by_cases hlo : i < lo
  · simp [hlo]
  · have hidx : lo + (i - lo) = i := by omega
    have h32 : i - lo < 32 := by omega
    rw [hidx]
    simp [hi, hlo, h32, Bool.and_comm]

/-- A word with no bit under the mask of a field has a zero there. -/
theorem extractLsb_of_and_eq_zero {w : Word} {lo n : ℕ} {m : Word}
    (hm : m.extractLsb' lo n = BitVec.allOnes n) (hw : w &&& m = 0) : w.extractLsb' lo n = 0 := by
  have hand : w.extractLsb' lo n &&& BitVec.allOnes n = (0 : Word).extractLsb' lo n := by
    rw [← hm, ← hw, BitVec.extractLsb'_and]
  rw [BitVec.and_allOnes] at hand
  rw [hand]
  refine BitVec.eq_of_getLsbD_eq fun i hi => ?_
  simp

namespace ImmField

/-- `n` bits in a row. -/
def contiguous (lo n : ℕ) (h : lo + n ≤ 32) : ImmField n where
  mask := (BitVec.allOnes n).setWidth 32 <<< lo
  get w := w.extractLsb' lo n
  put x := x.setWidth 32 <<< lo
  get_or_put w x hw := by
    have hmask : ((BitVec.allOnes n).setWidth 32 <<< lo).extractLsb' lo n = BitVec.allOnes n := by
      have hor := extractLsb_or_same 0#32 (BitVec.allOnes n) h
      have hzero : (0#32).extractLsb' lo n = 0#n := extractLsb_eq_zero (n := 32) (by decide) h
      rwa [BitVec.zero_or, hzero, BitVec.zero_or] at hor
    rw [extractLsb_or_same w x h, extractLsb_of_and_eq_zero hmask hw, BitVec.ofNat_eq_ofNat,
      BitVec.zero_or]
  put_get w := (and_setWidth_shiftLeft_allOnes w).symm

/-- The two low bits at bit 29 and the nineteen others at bit 5. -/
def split : ImmField 21 where
  mask := 0x60FFFFE0
  get w := w.extractLsb' 5 19 ++ w.extractLsb' 29 2
  put x := ((x.extractLsb' 0 2).setWidth 32 <<< 29) ||| ((x.extractLsb' 2 19).setWidth 32 <<< 5)
  get_or_put w x hw := by
    have hhi : w.extractLsb' 5 19 = 0 := extractLsb_of_and_eq_zero (by decide) hw
    have hlo : w.extractLsb' 29 2 = 0 := extractLsb_of_and_eq_zero (by decide) hw
    rw [← BitVec.or_assoc, extractLsb_or_same _ _ (by omega),
      extractLsb_or_of_apart _ _ (by omega), hhi, extractLsb_or_of_apart _ _ (by omega),
      extractLsb_or_same _ _ (by omega), hlo, BitVec.ofNat_eq_ofNat, BitVec.ofNat_eq_ofNat,
      BitVec.zero_or, BitVec.zero_or]
    refine BitVec.eq_of_getLsbD_eq fun i hi => ?_
    rw [BitVec.getLsbD_append]
    by_cases h2 : i < 2
    · simp [h2]
    · have h3 : 2 + (i - 2) = i := by omega
      have h4 : i - 2 < 19 := by omega
      simp [h2, h3, h4]
  put_get w := by
    have hmask : (0x60FFFFE0 : Word) = ((BitVec.allOnes 2).setWidth 32 <<< 29) |||
        ((BitVec.allOnes 19).setWidth 32 <<< 5) := by decide
    have hlow : (w.extractLsb' 5 19 ++ w.extractLsb' 29 2).extractLsb' 0 2 =
        w.extractLsb' 29 2 := by
      refine BitVec.eq_of_getLsbD_eq fun i hi => ?_
      rw [BitVec.getLsbD_extractLsb', BitVec.getLsbD_append, Nat.zero_add, if_pos hi,
        decide_eq_true hi, Bool.true_and]
    have hhigh : (w.extractLsb' 5 19 ++ w.extractLsb' 29 2).extractLsb' 2 19 =
        w.extractLsb' 5 19 := by
      refine BitVec.eq_of_getLsbD_eq fun i hi => ?_
      have h2 : ¬2 + i < 2 := by omega
      rw [BitVec.getLsbD_extractLsb', BitVec.getLsbD_append, if_neg h2, Nat.add_sub_cancel_left,
        decide_eq_true hi, Bool.true_and]
    rw [hmask, hlow, hhigh, BitVec.and_or_distrib_left, and_setWidth_shiftLeft_allOnes,
      and_setWidth_shiftLeft_allOnes]

variable {n : ℕ} (F : ImmField n) (unit : BitVec 64)

/-- The offset a word holds, in units. -/
def read (w : Word) : BitVec 64 := (F.get w).signExtend 64 * unit

/-- The bits for an offset. -/
def write (offset : BitVec 64) : Word := F.put ((offset.sdiv unit).extractLsb' 0 n)

variable {F unit} (hn : 0 < n) (hn64 : n ≤ 64) (hunit : 0 < unit.toInt)
include hn hn64 hunit

/-- **An offset is read back.** -/
theorem read_or_write {op : Word} {offset : BitVec 64} (hop : op &&& F.mask = 0)
    (hdvd : unit.toInt ∣ offset.toInt) (hlo : -(unit.toInt * 2 ^ (n - 1)) ≤ offset.toInt)
    (hhi : offset.toInt < unit.toInt * 2 ^ (n - 1)) :
    F.read unit (op ||| F.write unit offset) = offset := by
  obtain ⟨q, hq⟩ := hdvd
  have hquot : (offset.sdiv unit).toInt = q := by
    rw [toInt_sdiv hunit ⟨q, hq⟩, hq, Int.mul_ediv_cancel_left _ (by omega)]
  rw [hq] at hlo hhi
  have hqlo : -2 ^ (n - 1) ≤ q := by
    rw [← mul_neg] at hlo
    exact le_of_mul_le_mul_left hlo hunit
  have hqhi : q < 2 ^ (n - 1) := lt_of_mul_lt_mul_left hhi hunit.le
  rw [read, write, F.get_or_put op _ hop,
    signExtend_extractLsb hn hn64 (by rw [hquot]; exact hqlo) (by rw [hquot]; exact hqhi)]
  exact sdiv_mul_cancel hunit ⟨q, hq⟩

/-- **The bits of a field are written back.** -/
theorem write_read (hfit : unit.toInt * 2 ^ (n - 1) < 2 ^ 63) (w : Word) :
    F.write unit (F.read unit w) = w &&& F.mask := by
  have hlo := (F.get w).le_two_mul_toInt
  have hhi := (F.get w).two_mul_toInt_lt
  obtain ⟨j, rfl⟩ : ∃ j, n = j + 1 := ⟨n - 1, by omega⟩
  rw [Nat.add_sub_cancel] at hfit
  have hpow : (2 ^ (j + 1) : ℤ) = 2 * 2 ^ j := pow_succ' _ _
  rw [hpow] at hlo hhi
  have hext : ((F.get w).signExtend 64).toInt = (F.get w).toInt :=
    BitVec.toInt_signExtend_of_le hn64
  have hdiv : ((F.get w).signExtend 64 * unit).sdiv unit = (F.get w).signExtend 64 := by
    refine mul_sdiv_cancel hunit ?_ ?_ <;> rw [hext]
    · have hle : -2 ^ j * unit.toInt ≤ (F.get w).toInt * unit.toInt :=
        mul_le_mul_of_nonneg_right (by omega) hunit.le
      rw [neg_mul, mul_comm (2 ^ j)] at hle
      omega
    · have hle : (F.get w).toInt * unit.toInt ≤ 2 ^ j * unit.toInt :=
        mul_le_mul_of_nonneg_right (by omega) hunit.le
      rw [mul_comm (2 ^ j)] at hle
      omega
  rw [write, read, hdiv, extractLsb_signExtend hn64, F.put_get]

end ImmField

end A64
end CalvinHook
