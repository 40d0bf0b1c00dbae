import Mathlib.Data.Nat.Digits.Lemmas
import Mathlib.Tactic.IntervalCases
import Mathlib.Tactic.Ring
import CalvinHook.Text.Base64

/-!
# Numerals

Numbers written with digits in a base up to 16, the highest digit first, filled up with zeros to a
minimal width.  A reader takes the digits at the start of a text and computes their value.

* `value_numeral`: a numeral has the value it was written for.
* `takeWhile_numeral`, `dropWhile_numeral`: a reader takes exactly the numeral if no digit follows
  it.
-/

namespace CalvinHook
namespace Text

/-- The digit with a value below 16. -/
def digit (d : ℕ) : Byte := if d < 10 then BitVec.ofNat 8 (0x30 + d) else BitVec.ofNat 8 (0x57 + d)

/-- The value of a digit. -/
def digitVal (c : Byte) : Option ℕ :=
  if 0x30 ≤ c.toNat ∧ c.toNat ≤ 0x39 then some (c.toNat - 0x30)
  else if 0x61 ≤ c.toNat ∧ c.toNat ≤ 0x66 then some (c.toNat - 0x57)
  else if 0x41 ≤ c.toNat ∧ c.toNat ≤ 0x46 then some (c.toNat - 0x37)
  else none

/-- A digit in base `b`. -/
def isDigit (b : ℕ) (c : Byte) : Bool := (digitVal c).any (· < b)

/-- The value of a text of digits. -/
def value (b : ℕ) (ds : List Byte) : ℕ := ds.foldl (fun n c => n * b + (digitVal c).getD 0) 0

/-- The numeral of `n` with at least `w` digits. -/
def numeral (b w n : ℕ) : List Byte := (Nat.digitsAppend b w n).reverse.map digit

theorem digitVal_digit {d : ℕ} (h : d < 16) : digitVal (digit d) = some d := by
  interval_cases d <;> decide

section Numeral

variable {b w n : ℕ}

theorem mem_numeral (hb : 2 ≤ b) {c : Byte} (hc : c ∈ numeral b w n) : ∃ d < b, c = digit d := by
  obtain ⟨d, hd, rfl⟩ := List.mem_map.mp hc
  exact ⟨d, Nat.lt_of_mem_digitsAppend (by omega) _ _ (List.mem_reverse.mp hd), rfl⟩

theorem isDigit_of_mem_numeral (hb : 2 ≤ b) (hb' : b ≤ 16) {c : Byte} (hc : c ∈ numeral b w n) :
    isDigit b c := by
  obtain ⟨d, hd, rfl⟩ := mem_numeral hb hc
  rw [isDigit, digitVal_digit (by omega)]
  exact decide_eq_true hd

theorem numeral_ne_nil (hw : 0 < w) : numeral b w n ≠ [] := by
  intro h
  have hlen := congrArg List.length h
  simp only [numeral, Nat.digitsAppend, List.length_map, List.length_reverse, List.length_append,
    List.length_replicate, List.length_nil] at hlen
  omega

theorem value_append_digit (ds : List Byte) {d : ℕ} (hd : d < 16) :
    value b (ds ++ [digit d]) = value b ds * b + d := by
  rw [value, value, List.foldl_append, List.foldl_cons, List.foldl_nil, digitVal_digit hd,
    Option.getD_some]

/-- The digits of a number, the lowest first, as a text. -/
theorem value_reverse_map_digit {ds : List ℕ} (h : ∀ d ∈ ds, d < 16) :
    value b (ds.reverse.map digit) = Nat.ofDigits b ds := by
  induction ds with
  | nil => rfl
  | cons d ds ih =>
    rw [List.reverse_cons, List.map_append, List.map_singleton,
      value_append_digit _ (h d (by simp)), ih fun d' hd' => h d' (by simp [hd']),
      Nat.ofDigits_cons]
    ring

/-- **A numeral has the value it was written for.** -/
theorem value_numeral (hb : 2 ≤ b) (hb' : b ≤ 16) : value b (numeral b w n) = n := by
  have hlt : ∀ d ∈ Nat.digitsAppend b w n, d < 16 := fun d hd =>
    (Nat.lt_of_mem_digitsAppend (by omega) _ _ hd).trans_le hb'
  rw [numeral, value_reverse_map_digit hlt, Nat.digitsAppend, Nat.ofDigits_append_replicate_zero,
    Nat.ofDigits_digits]

variable {rest : List Byte}

theorem takeWhile_numeral (hb : 2 ≤ b) (hb' : b ≤ 16)
    (hrest : ∀ c ∈ rest.head?, isDigit b c = false) :
    (numeral b w n ++ rest).takeWhile (isDigit b) = numeral b w n := by
  rw [List.takeWhile_append_of_pos fun c hc => isDigit_of_mem_numeral hb hb' hc]
  have hstop : rest.takeWhile (isDigit b) = [] := by
    cases rest with
    | nil => rfl
    | cons c rest => simp [hrest c rfl]
  rw [hstop, List.append_nil]

theorem dropWhile_numeral (hb : 2 ≤ b) (hb' : b ≤ 16)
    (hrest : ∀ c ∈ rest.head?, isDigit b c = false) :
    (numeral b w n ++ rest).dropWhile (isDigit b) = rest := by
  rw [List.dropWhile_append_of_pos fun c hc => isDigit_of_mem_numeral hb hb' hc]
  cases rest with
  | nil => rfl
  | cons c rest => simp [hrest c rfl]

end Numeral

end Text
end CalvinHook
