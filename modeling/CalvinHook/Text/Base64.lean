import Mathlib.Data.BitVec
import Mathlib.Data.List.Nodup

/-!
# Bytes of a text and their Base64 encoding

A text is a list of bytes.  `Base64.encode` is the padded encoding with the standard alphabet: three
bytes are cut into four sextets, and a last group of one or two bytes is filled up with `=`.

* `Base64.symbol_ne_pad`, `Base64.idxOf_symbol`: a symbol is not the padding and gives its sextet
  back.
* `Base64.sextet0` to `Base64.sextet3`: how a group is cut, with their bits.
* `Base64.mem_encode`: an encoding consists of symbols and padding.
-/

namespace CalvinHook
namespace Text

/-- A byte of a text. -/
abbrev Byte := BitVec 8

/-- A name for what the test `c ∈ s` on texts rests on. -/
instance instLawfulBEqByte : LawfulBEq Byte := inferInstance

/-- The bytes of a string of characters below 256. -/
def ascii (s : String) : List Byte := s.toList.map fun c => BitVec.ofNat 8 c.toNat

namespace Base64

/-- The sixty-four symbols in the order of their sextets. -/
def alphabet : List Byte :=
  ascii "ABCDEFGHIJKLMNOPQRSTUVWXYZabcdefghijklmnopqrstuvwxyz0123456789+/"

/-- The padding, `=`. -/
def pad : Byte := 0x3D

theorem length_alphabet : alphabet.length = 64 := rfl

theorem alphabet_nodup : alphabet.Nodup := by decide +kernel

theorem pad_not_mem_alphabet : pad ∉ alphabet := by decide +kernel

/-- The symbol of a sextet. -/
def symbol (x : BitVec 6) : Byte :=
  alphabet.get ⟨x.toNat, by rw [length_alphabet]; exact x.isLt⟩

theorem symbol_mem_alphabet (x : BitVec 6) : symbol x ∈ alphabet := List.get_mem alphabet _

theorem symbol_ne_pad (x : BitVec 6) : symbol x ≠ pad := by
  intro h
  exact pad_not_mem_alphabet (h ▸ symbol_mem_alphabet x)

theorem idxOf_symbol (x : BitVec 6) : alphabet.idxOf (symbol x) = x.toNat :=
  alphabet_nodup.idxOf_getElem x.toNat _

/-- The first sextet of a group. -/
def sextet0 (a : Byte) : BitVec 6 := a.extractLsb' 2 6

/-- The second sextet: the low bits of one byte and the high bits of the next. -/
def sextet1 (a b : Byte) : BitVec 6 := a.extractLsb' 0 2 ++ b.extractLsb' 4 4

/-- The third sextet. -/
def sextet2 (b c : Byte) : BitVec 6 := b.extractLsb' 0 4 ++ c.extractLsb' 6 2

/-- The fourth sextet. -/
def sextet3 (c : Byte) : BitVec 6 := c.extractLsb' 0 6

theorem getLsbD_sextet0 (a : Byte) {i : ℕ} (hi : i < 6) :
    (sextet0 a).getLsbD i = a.getLsbD (2 + i) := by
  simp [sextet0, hi]

theorem getLsbD_sextet1 (a b : Byte) {i : ℕ} (hi : i < 6) :
    (sextet1 a b).getLsbD i = if i < 4 then b.getLsbD (4 + i) else a.getLsbD (i - 4) := by
  refine BitVec.getLsbD_append.trans ?_
  split_ifs with h4
  · simp [h4]
  · simp [show i - 4 < 2 by omega]

theorem getLsbD_sextet2 (b c : Byte) {i : ℕ} (hi : i < 6) :
    (sextet2 b c).getLsbD i = if i < 2 then c.getLsbD (6 + i) else b.getLsbD (i - 2) := by
  refine BitVec.getLsbD_append.trans ?_
  split_ifs with h2
  · simp [h2]
  · simp [show i - 2 < 4 by omega]

theorem getLsbD_sextet3 (c : Byte) {i : ℕ} (hi : i < 6) : (sextet3 c).getLsbD i = c.getLsbD i := by
  simp [sextet3, hi]

/-- The padded encoding, three bytes at a time; missing bytes count as zero. -/
def encode : List Byte → List Byte
  | [] => []
  | [a] => [symbol (sextet0 a), symbol (sextet1 a 0), pad, pad]
  | [a, b] => [symbol (sextet0 a), symbol (sextet1 a b), symbol (sextet2 b 0), pad]
  | a :: b :: c :: s =>
      symbol (sextet0 a) :: symbol (sextet1 a b) :: symbol (sextet2 b c) :: symbol (sextet3 c) ::
        encode s

/-- An encoding consists of symbols and padding. -/
theorem mem_encode {s : List Byte} {c : Byte} (h : c ∈ encode s) : c ∈ alphabet ∨ c = pad := by
  induction s using encode.induct with
  | case1 => cases h
  | case2 a =>
    simp only [encode, List.mem_cons, List.not_mem_nil, or_false] at h
    rcases h with rfl | rfl | h | h
    · exact .inl (symbol_mem_alphabet _)
    · exact .inl (symbol_mem_alphabet _)
    · exact .inr h
    · exact .inr h
  | case3 a b =>
    simp only [encode, List.mem_cons, List.not_mem_nil, or_false] at h
    rcases h with rfl | rfl | rfl | h
    · exact .inl (symbol_mem_alphabet _)
    · exact .inl (symbol_mem_alphabet _)
    · exact .inl (symbol_mem_alphabet _)
    · exact .inr h
  | case4 a b c s ih =>
    simp only [encode, List.mem_cons] at h
    rcases h with rfl | rfl | rfl | rfl | h
    · exact .inl (symbol_mem_alphabet _)
    · exact .inl (symbol_mem_alphabet _)
    · exact .inl (symbol_mem_alphabet _)
    · exact .inl (symbol_mem_alphabet _)
    · exact ih h

end Base64
end Text
end CalvinHook
