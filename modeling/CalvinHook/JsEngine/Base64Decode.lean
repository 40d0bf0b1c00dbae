import Mathlib.Tactic.IntervalCases
import CalvinHook.Text.Base64

/-!
# The Base64 decoder of the socket server

`b64_decode` shifts six bits at a time into an `int` that is never masked and counts in `valb` how
many bits are waiting: it starts at -8, and a byte is written whenever the count is not negative.
After four symbols the count is -8 again, so the bits shifted out at the top are never looked at.
The padding is in the table as a symbol of value 0, so a padded group yields three bytes as well.

* `b64Loop_group`: four symbols yield three bytes and leave the count where it was.
* `b64Decode_encode`: a decoded encoding is the text followed by one zero byte for each padding.
* `b64Decode_encode_iff`: when the transport is lossless.
-/

namespace CalvinHook
namespace Socket

open Text Base64

/-- `kB64Table`. -/
def kB64Table : List Byte :=
  ascii "ABCDEFGHIJKLMNOPQRSTUVWXYZabcdefghijklmnopqrstuvwxyz0123456789+/"

/-- The table `T` of `b64_decode`: -1 outside the alphabet, and 0 for `=`. -/
def b64Value (c : Byte) : ℤ :=
  if c = 0x3D then 0 else if c ∈ kB64Table then kB64Table.idxOf c else -1

/-- `val = (val << 6) | T[c]` on a 32-bit `int`. -/
def b64Shift (val : BitVec 32) (t : ℤ) : BitVec 32 := val <<< 6 ||| BitVec.ofInt 32 t

/-- The loop of `b64_decode` with its accumulator and its bit count: the bytes still to be
pushed. -/
def b64Loop (val : BitVec 32) (valb : ℤ) : List Byte → List Byte
  | [] => []
  | c :: cs =>
    if b64Value c = -1 then []
    else if 0 ≤ valb + 6 then
      ((b64Shift val (b64Value c)).sshiftRight (valb + 6).toNat &&& 0xFF).setWidth 8 ::
        b64Loop (b64Shift val (b64Value c)) (valb + 6 - 8) cs
    else b64Loop (b64Shift val (b64Value c)) (valb + 6) cs

/-- `b64_decode`. -/
def b64Decode (input : List Byte) : List Byte := b64Loop 0 (-8) input

/-! ## The table -/

theorem b64Value_symbol (x : BitVec 6) : b64Value (symbol x) = x.toNat := by
  have hpad : symbol x ≠ 0x3D := symbol_ne_pad x
  rw [b64Value, if_neg hpad]
  exact (if_pos (symbol_mem_alphabet x)).trans (congrArg _ (idxOf_symbol x))

theorem b64Value_pad : b64Value pad = 0 := rfl

/-- The value of a sextet is not the mark for the bytes outside the table. -/
theorem sextet_ne {c : Byte} {x : BitVec 6} (h : b64Value c = x.toNat) : b64Value c ≠ -1 := by omega

/-! ## Four symbols -/

/-- Shifting a sextet in appends it at the low end. -/
theorem b64Shift_sextet (val : BitVec 32) (x : BitVec 6) :
    b64Shift val x.toNat = val.setWidth 26 ++ x := by
  apply BitVec.eq_of_getLsbD_eq
  intro i hi
  simp only [b64Shift, BitVec.ofInt_natCast, BitVec.ofNat_toNat, BitVec.getLsbD_or,
    BitVec.getLsbD_shiftLeft, BitVec.getLsbD_setWidth, BitVec.getLsbD_append]
  by_cases h6 : i < 6
  · simp [h6, hi]
  · simp [h6, hi, show i - 6 < 26 by omega, BitVec.getLsbD_of_ge x i (by omega)]

/-- A symbol that leaves the count negative is only shifted in. -/
theorem b64Loop_wait {val : BitVec 32} {valb : ℤ} {c : Byte} {x : BitVec 6} (cs : List Byte)
    (h : b64Value c = x.toNat) (hb : valb + 6 < 0) :
    b64Loop val valb (c :: cs) = b64Loop (val.setWidth 26 ++ x) (valb + 6) cs := by
  rw [b64Loop, if_neg (sextet_ne h), if_neg (by omega), h, b64Shift_sextet]

/-- A symbol that completes a byte pushes it. -/
theorem b64Loop_push {val : BitVec 32} {valb : ℤ} {k : ℕ} {c : Byte} {x : BitVec 6} (cs : List Byte)
    (h : b64Value c = x.toNat) (hb : valb + 6 = k) :
    b64Loop val valb (c :: cs) =
      (((val.setWidth 26 ++ x : BitVec 32).sshiftRight k) &&& 0xFF).setWidth 8 ::
        b64Loop (val.setWidth 26 ++ x) (k - 8) cs := by
  rw [b64Loop, if_neg (sextet_ne h), if_pos (by omega), h, b64Shift_sextet, hb, Int.toNat_natCast]

/-- The bits of a pushed byte come from the last two sextets. -/
theorem getLsbD_pushed (val : BitVec 32) (x y : BitVec 6) {k i : ℕ} (hk : k ≤ 4) (hi : i < 8) :
    ((((val.setWidth 26 ++ x : BitVec 32).setWidth 26 ++ y : BitVec 32).sshiftRight k &&&
        0xFF).setWidth 8).getLsbD i =
      if k + i < 6 then y.getLsbD (k + i) else x.getLsbD (k + i - 6) := by
  have hmask : (0xFF : BitVec 32).getLsbD i = true := by interval_cases i <;> rfl
  rw [BitVec.getLsbD_setWidth, BitVec.getLsbD_and, hmask, BitVec.getLsbD_sshiftRight,
    if_pos (by omega), BitVec.getLsbD_append, BitVec.getLsbD_setWidth, BitVec.getLsbD_append,
    if_pos (show k + i - 6 < 6 by omega)]
  simp [hi, show ¬ 32 ≤ i by omega, show k + i - 6 < 26 by omega]

/-- **A group.**  Four symbols whose values are the sextets of three bytes yield these bytes,
whatever has been shifted in before, and leave the count as it was. -/
theorem b64Loop_group (val : BitVec 32) {c0 c1 c2 c3 : Byte} (a b c : Byte) (cs : List Byte)
    (h0 : b64Value c0 = (sextet0 a).toNat) (h1 : b64Value c1 = (sextet1 a b).toNat)
    (h2 : b64Value c2 = (sextet2 b c).toNat) (h3 : b64Value c3 = (sextet3 c).toNat) :
    ∃ val', b64Loop val (-8) (c0 :: c1 :: c2 :: c3 :: cs) =
      a :: b :: c :: b64Loop val' (-8) cs := by
  rw [b64Loop_wait _ h0 (by omega), b64Loop_push (k := 4) _ h1 (by omega),
    b64Loop_push (k := 2) _ h2 (by omega), b64Loop_push (k := 0) _ h3 (by omega)]
  refine ⟨_, congrArg₂ _ ?_ (congrArg₂ _ ?_ (congrArg₂ _ ?_ rfl))⟩
  · apply BitVec.eq_of_getLsbD_eq
    intro i hi
    rw [getLsbD_pushed _ _ _ (by omega) hi]
    split_ifs with h
    · rw [getLsbD_sextet1 a b h, if_neg (by omega), Nat.add_sub_cancel_left]
    · rw [getLsbD_sextet0 a (by omega), show 2 + (4 + i - 6) = i by omega]
  · apply BitVec.eq_of_getLsbD_eq
    intro i hi
    rw [getLsbD_pushed _ _ _ (by omega) hi]
    split_ifs with h
    · rw [getLsbD_sextet2 b c h, if_neg (by omega), Nat.add_sub_cancel_left]
    · rw [getLsbD_sextet1 a b (by omega), if_pos (by omega), show 4 + (2 + i - 6) = i by omega]
  · apply BitVec.eq_of_getLsbD_eq
    intro i hi
    rw [getLsbD_pushed _ _ _ (by omega) hi, Nat.zero_add]
    split_ifs with h
    · rw [getLsbD_sextet3 c h]
    · rw [getLsbD_sextet2 b c (by omega), if_pos (by omega), show 6 + (i - 6) = i by omega]

/-! ## Whole texts -/

/-- The number of padding symbols in the encoding of `s`. -/
def padding (s : List Byte) : ℕ := (3 - s.length % 3) % 3

theorem padding_eq_zero_iff {s : List Byte} : padding s = 0 ↔ s.length % 3 = 0 := by
  unfold padding
  omega

theorem padding_cons_cons_cons (a b c : Byte) (s : List Byte) :
    padding (a :: b :: c :: s) = padding s := by
  simp only [padding, List.length_cons]
  omega

theorem b64Loop_encode (val : BitVec 32) (s : List Byte) :
    b64Loop val (-8) (encode s) = s ++ List.replicate (padding s) 0 := by
  induction s using encode.induct generalizing val with
  | case1 => rfl
  | case2 a =>
    -- the two paddings stand for the sextets of two zero bytes
    obtain ⟨val', h⟩ := b64Loop_group val a 0 0 [] (b64Value_symbol _) (b64Value_symbol _)
      b64Value_pad b64Value_pad
    exact h
  | case3 a b =>
    obtain ⟨val', h⟩ := b64Loop_group val a b 0 [] (b64Value_symbol _) (b64Value_symbol _)
      (b64Value_symbol _) b64Value_pad
    exact h
  | case4 a b c s ih =>
    obtain ⟨val', h⟩ := b64Loop_group val a b c (encode s) (b64Value_symbol _)
      (b64Value_symbol _) (b64Value_symbol _) (b64Value_symbol _)
    rw [encode, h, ih, padding_cons_cons_cons]
    rfl

/-- **What arrives.**  The decoder returns the text and one zero byte for each padding symbol. -/
theorem b64Decode_encode (s : List Byte) :
    b64Decode (encode s) = s ++ List.replicate (padding s) 0 :=
  b64Loop_encode 0 s

/-- **When the transport is lossless**: exactly for the texts whose encoding has no padding. -/
theorem b64Decode_encode_iff (s : List Byte) :
    b64Decode (encode s) = s ↔ s.length % 3 = 0 := by
  rw [b64Decode_encode, List.append_right_eq_self, List.replicate_eq_nil_iff, padding_eq_zero_iff]

/-- The text `a` arrives with two zero bytes behind it. -/
theorem b64Decode_encode_a : b64Decode (encode (ascii "a")) ≠ ascii "a" := by decide

/-! ## Texts that are not encodings -/

/-- A decoded text is empty unless the first two bytes are in the table. -/
theorem b64Decode_eq_nil_iff (input : List Byte) :
    b64Decode input = [] ↔
      ¬ ∃ c0 c1 cs, input = c0 :: c1 :: cs ∧ b64Value c0 ≠ -1 ∧ b64Value c1 ≠ -1 := by
  rcases input with - | ⟨c0, - | ⟨c1, cs⟩⟩
  · simp [b64Decode, b64Loop]
  · by_cases h0 : b64Value c0 = -1 <;> simp [b64Decode, b64Loop, h0]
  · by_cases h0 : b64Value c0 = -1
    · simp [b64Decode, b64Loop, h0]
    · by_cases h1 : b64Value c1 = -1 <;> simp [b64Decode, b64Loop, h0, h1]

/-- The loop pushes at most one byte for each symbol. -/
theorem length_b64Loop_le (val : BitVec 32) (valb : ℤ) (input : List Byte) :
    (b64Loop val valb input).length ≤ input.length := by
  induction input generalizing val valb with
  | nil => exact le_rfl
  | cons c cs ih =>
    rw [b64Loop]
    split_ifs
    · exact Nat.zero_le _
    · exact Nat.succ_le_succ (ih _ _)
    · exact (ih _ _).trans (Nat.le_succ _)

end Socket
end CalvinHook
