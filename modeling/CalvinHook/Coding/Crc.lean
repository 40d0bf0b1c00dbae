import Mathlib.Data.BitVec
import Mathlib.Logic.Function.Iterate

/-!
# Cyclic redundancy checks with a shift register

The register of a reflected CRC of `w` bits.  A step shifts it to the right and adds the polynomial
if a one falls out; a byte is added to the low end and eight steps are made.

* `step_xor`, `step_injective`: a step is linear, and for a polynomial of the full width it loses
  nothing.
* `update_eq_table`: eight steps at once, by a table of 256 entries.
* `register_eq_word`: the bytes that fit into the register can be added before all of the steps.
* `register_ne`: a change within as many bytes as the register holds always changes it.

No polynomial is named here: the last result needs its highest bit only.
-/

namespace CalvinHook
namespace Crc

variable {w : ℕ}

/-- One step of the register. -/
def step (poly r : BitVec w) : BitVec w := (r >>> 1) ^^^ (if r.getLsbD 0 then poly else 0#w)

theorem getLsbD_step (poly r : BitVec w) (i : ℕ) :
    (step poly r).getLsbD i = (r.getLsbD (i + 1) ^^ (r.getLsbD 0 && poly.getLsbD i)) := by
  unfold step
  rw [BitVec.getLsbD_xor, BitVec.getLsbD_ushiftRight, Nat.add_comm 1 i]
  split_ifs with h
  · rw [h, Bool.true_and]
  · rw [Bool.eq_false_iff.mpr h, BitVec.getLsbD_zero, Bool.false_and]

/-- Steps are linear. -/
theorem step_xor (poly a b : BitVec w) : step poly (a ^^^ b) = step poly a ^^^ step poly b := by
  ext i hi
  simp only [← BitVec.getLsbD_eq_getElem, BitVec.getLsbD_xor, getLsbD_step]
  generalize a.getLsbD (i + 1) = a1, b.getLsbD (i + 1) = b1, a.getLsbD 0 = a0, b.getLsbD 0 = b0,
    poly.getLsbD i = p
  revert a1 b1 a0 b0 p
  decide

theorem iterate_step_xor (poly a b : BitVec w) (n : ℕ) :
    (step poly)^[n] (a ^^^ b) = (step poly)^[n] a ^^^ (step poly)^[n] b := by
  induction n generalizing a b with
  | zero => rfl
  | succ n ih => rw [Function.iterate_succ_apply, step_xor, ih, ← Function.iterate_succ_apply,
      ← Function.iterate_succ_apply]

/-- Zeros that fall out add nothing. -/
theorem iterate_step_shiftLeft (poly a : BitVec w) {n : ℕ}
    (h : ∀ i, w ≤ i + n → a.getLsbD i = false) :
    (step poly)^[n] (a <<< n) = a := by
  induction n generalizing a with
  | zero => rw [BitVec.shiftLeft_zero]; rfl
  | succ n ih =>
    have hstep : step poly (a <<< (n + 1)) = a <<< n := by
      ext i hi
      rw [← BitVec.getLsbD_eq_getElem, ← BitVec.getLsbD_eq_getElem, getLsbD_step,
        BitVec.getLsbD_shiftLeft, BitVec.getLsbD_shiftLeft, BitVec.getLsbD_shiftLeft]
      by_cases hin : i + 1 < w
      · simp [hin, hi]
      · by_cases hn : i < n
        · simp [hin, hn]
        · have hzero := h (i - n) (by omega)
          simp [hin, hi, hzero]
    rw [Function.iterate_succ_apply, hstep]
    exact ih a fun i hi => h i (by omega)

/-- A step can be undone: the highest bit tells whether the polynomial was added. -/
theorem step_injective {poly : BitVec w} (hpoly : poly.getLsbD (w - 1) = true) :
    Function.Injective (step poly) := by
  intro a b hab
  have hbit : ∀ i, (a.getLsbD (i + 1) ^^ (a.getLsbD 0 && poly.getLsbD i)) =
      (b.getLsbD (i + 1) ^^ (b.getLsbD 0 && poly.getLsbD i)) := by
    intro i
    rw [← getLsbD_step, ← getLsbD_step, hab]
  have hzero : a.getLsbD 0 = b.getLsbD 0 := by
    have htop := hbit (w - 1)
    rw [BitVec.getLsbD_of_ge a _ (by omega), BitVec.getLsbD_of_ge b _ (by omega), hpoly,
      Bool.and_true, Bool.and_true, Bool.false_xor, Bool.false_xor] at htop
    exact htop
  ext i hi
  rw [← BitVec.getLsbD_eq_getElem, ← BitVec.getLsbD_eq_getElem]
  cases i with
  | zero => exact hzero
  | succ i =>
    have hnext := hbit i
    rw [hzero] at hnext
    exact Bool.xor_left_inj.mp hnext

/-! ## Bytes -/

/-- The register after one byte. -/
def update (poly crc : BitVec w) (byte : BitVec 8) : BitVec w :=
  (step poly)^[8] (crc ^^^ byte.setWidth w)

/-- An entry of the table: eight steps from a byte. -/
def entry (poly : BitVec w) (byte : BitVec 8) : BitVec w := (step poly)^[8] (byte.setWidth w)

theorem split_low (x : BitVec w) : x = (x.setWidth 8).setWidth w ^^^ (x >>> 8) <<< 8 := by
  ext i hi
  rw [← BitVec.getLsbD_eq_getElem, ← BitVec.getLsbD_eq_getElem, BitVec.getLsbD_xor,
    BitVec.getLsbD_setWidth, BitVec.getLsbD_setWidth, BitVec.getLsbD_shiftLeft,
    BitVec.getLsbD_ushiftRight]
  by_cases hlow : i < 8
  · simp [hi, hlow]
  · have hadd : 8 + (i - 8) = i := by omega
    simp [hi, hlow, hadd]

/-- **The table.** -/
theorem update_eq_table (poly crc : BitVec w) (byte : BitVec 8) :
    update poly crc byte = entry poly (byte ^^^ crc.setWidth 8) ^^^ (crc >>> 8) := by
  have hsplit : crc ^^^ byte.setWidth w =
      (byte ^^^ crc.setWidth 8).setWidth w ^^^ (crc >>> 8) <<< 8 := by
    conv_lhs => rw [split_low crc]
    rw [BitVec.setWidth_xor, BitVec.xor_comm (byte.setWidth w), BitVec.xor_assoc, BitVec.xor_assoc,
      BitVec.xor_comm ((crc >>> 8) <<< 8)]
  have hhigh : ∀ i, w ≤ i + 8 → (crc >>> 8).getLsbD i = false := by
    intro i hi
    rw [BitVec.getLsbD_ushiftRight]
    exact BitVec.getLsbD_of_ge _ _ (by omega)
  rw [update, hsplit, iterate_step_xor, iterate_step_shiftLeft poly _ hhigh]
  rfl

/-- The register after some bytes. -/
def register (poly crc : BitVec w) (bytes : List (BitVec 8)) : BitVec w :=
  bytes.foldl (update poly) crc

theorem register_append (poly crc : BitVec w) (bytes bytes' : List (BitVec 8)) :
    register poly crc (bytes ++ bytes') = register poly (register poly crc bytes) bytes' :=
  List.foldl_append

/-- Some bytes as one word, the first byte the lowest. -/
def word (w : ℕ) : List (BitVec 8) → BitVec w
  | [] => 0
  | byte :: bytes => byte.setWidth w ^^^ (word w bytes <<< 8)

/-- A word of `n` bytes has nothing above them. -/
theorem getLsbD_word {bytes : List (BitVec 8)} {i : ℕ} (h : 8 * bytes.length ≤ i) :
    (word w bytes).getLsbD i = false := by
  induction bytes generalizing i with
  | nil => exact BitVec.getLsbD_zero
  | cons byte bytes ih =>
    rw [List.length_cons] at h
    rw [word, BitVec.getLsbD_xor, BitVec.getLsbD_setWidth, BitVec.getLsbD_shiftLeft, ih (by omega),
      BitVec.getLsbD_of_ge byte _ (by omega), Bool.and_false, Bool.and_false]
    rfl

/-- The bytes that fit into the register, added before all of the steps. -/
theorem register_eq_word (poly crc : BitVec w) {bytes : List (BitVec 8)}
    (h : 8 * bytes.length ≤ w) :
    register poly crc bytes = (step poly)^[8 * bytes.length] (crc ^^^ word w bytes) := by
  induction bytes generalizing crc with
  | nil => exact BitVec.xor_zero.symm
  | cons byte bytes ih =>
    rw [List.length_cons] at h
    have hhigh : ∀ i, w ≤ i + 8 → (word w bytes).getLsbD i = false :=
      fun i hi => getLsbD_word (by omega)
    have hfirst : (step poly)^[8] (crc ^^^ word w (byte :: bytes)) =
        update poly crc byte ^^^ word w bytes := by
      rw [word, ← BitVec.xor_assoc, iterate_step_xor, iterate_step_shiftLeft poly _ hhigh]
      rfl
    have hcount : 8 * (byte :: bytes).length = 8 * bytes.length + 8 := rfl
    rw [hcount, Function.iterate_add_apply, hfirst, ← ih _ (by omega)]
    rfl

theorem word_injective {bytes bytes' : List (BitVec 8)} (hlength : bytes.length = bytes'.length)
    (hw : 8 * bytes.length ≤ w) (h : word w bytes = word w bytes') : bytes = bytes' := by
  induction bytes generalizing bytes' with
  | nil => exact (List.length_eq_zero_iff.mp hlength.symm).symm
  | cons byte bytes ih =>
    obtain _ | ⟨byte', bytes'⟩ := bytes'
    · cases hlength
    rw [List.length_cons] at hw
    have hbits : ∀ i, (byte.setWidth w ^^^ (word w bytes <<< 8)).getLsbD i =
        (byte'.setWidth w ^^^ (word w bytes' <<< 8)).getLsbD i :=
      fun i => congrArg (BitVec.getLsbD · i) h
    have hbyte : byte = byte' := by
      ext i hi
      have hi' : i < w := by omega
      have hbit := hbits i
      simp only [BitVec.getLsbD_xor, BitVec.getLsbD_setWidth, BitVec.getLsbD_shiftLeft, hi, hi',
        decide_true, Bool.not_true, Bool.true_and, Bool.false_and, Bool.xor_false] at hbit
      rwa [BitVec.getLsbD_eq_getElem, BitVec.getLsbD_eq_getElem] at hbit
    have hword : word w bytes = word w bytes' := by
      ext i hi
      rw [← BitVec.getLsbD_eq_getElem, ← BitVec.getLsbD_eq_getElem]
      by_cases hin : i + 8 < w
      · have hbit := hbits (i + 8)
        have hge : ¬i + 8 < 8 := by omega
        rw [hbyte, BitVec.getLsbD_xor, BitVec.getLsbD_xor, BitVec.getLsbD_shiftLeft,
          BitVec.getLsbD_shiftLeft, Nat.add_sub_cancel, decide_eq_true hin, decide_eq_false hge]
          at hbit
        simpa using hbit
      · rw [getLsbD_word (by omega), getLsbD_word (by have := Nat.succ.inj hlength; omega)]
    rw [hbyte, ih (Nat.succ.inj hlength) (by omega) hword]

theorem update_injective {poly : BitVec w} (hpoly : poly.getLsbD (w - 1) = true) (byte : BitVec 8) :
    Function.Injective fun crc => update poly crc byte := by
  intro a b hab
  exact (BitVec.xor_left_inj _).mp ((step_injective hpoly).iterate 8 hab)

theorem register_injective {poly : BitVec w} (hpoly : poly.getLsbD (w - 1) = true)
    (bytes : List (BitVec 8)) :
    Function.Injective fun crc => register poly crc bytes := by
  induction bytes with
  | nil => exact Function.injective_id
  | cons byte bytes ih => exact fun a b hab => update_injective hpoly byte (ih hab)

/-- **Changes are seen.**  Two messages that differ only within as many bytes as the register holds
leave different registers, whatever comes before and after. -/
theorem register_ne {poly : BitVec w} (hpoly : poly.getLsbD (w - 1) = true) (crc : BitVec w)
    (before after : List (BitVec 8)) {window window' : List (BitVec 8)}
    (hlength : window.length = window'.length) (hw : 8 * window.length ≤ w)
    (hne : window ≠ window') :
    register poly crc (before ++ window ++ after) ≠
      register poly crc (before ++ window' ++ after) := by
  intro heq
  rw [register_append, register_append, register_append poly crc, register_append poly crc] at heq
  have hwindow : register poly (register poly crc before) window =
      register poly (register poly crc before) window' := register_injective hpoly after heq
  have hw' : 8 * window'.length ≤ w := hlength ▸ hw
  rw [register_eq_word poly (register poly crc before) hw,
    register_eq_word poly (register poly crc before) hw', hlength] at hwindow
  have hword := (step_injective hpoly).iterate _ hwindow
  exact hne (word_injective hlength hw ((BitVec.xor_right_inj _).mp hword))

end Crc
end CalvinHook
