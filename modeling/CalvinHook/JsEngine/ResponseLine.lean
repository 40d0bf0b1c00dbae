import CalvinHook.JsEngine.HandleClient

/-!
# Reading a response

A response is one line with a JSON object, in which `json_escape` has written the result of the
script as a string.  The bytes are read here as the characters with their numbers, so a byte that
the reader copies is copied whatever it is, and the string is read as the bytes of the result.

* `escapeByte_cases`: what `json_escape` writes for a byte.
* `scanString_escapeByte`, `scanString_escapeBytes`: the escapes are read back.
* `response_line`: a response is one line, and its string is the result.
-/

namespace CalvinHook
namespace Socket

open Text

/-- A byte is escaped by a letter, by its number, or not at all. -/
theorem escapeByte_cases (b : Byte) :
    (∃ e : Byte, e.toNat < 128 ∧ b.toNat < 128 ∧ escapeByte b = [0x5C, e] ∧
      Json.simpleEscape (byteChar e) = some b.toNat) ∨
    (b.toNat < 0x20 ∧ escapeByte b =
      [0x5C, 0x75, hexDigit 0, hexDigit 0, hexDigit (b.toNat / 16), hexDigit (b.toNat % 16)]) ∨
    (0x20 ≤ b.toNat ∧ b ≠ 0x22 ∧ b ≠ 0x5C ∧ escapeByte b = [b]) := by
  unfold escapeByte
  split_ifs with h1 h2 h3 h4 h5 h6
  · subst h1
    exact .inl ⟨0x22, by decide, by decide, rfl, rfl⟩
  · subst h2
    exact .inl ⟨0x5C, by decide, by decide, rfl, rfl⟩
  · subst h3
    exact .inl ⟨0x6E, by decide, by decide, rfl, rfl⟩
  · subst h4
    exact .inl ⟨0x72, by decide, by decide, rfl, rfl⟩
  · subst h5
    exact .inl ⟨0x74, by decide, by decide, rfl, rfl⟩
  · exact .inr (.inl ⟨h6, rfl⟩)
  · exact .inr (.inr ⟨Nat.not_lt.mp h6, h1, h2, rfl⟩)

theorem hex4_hexDigit {n : ℕ} (h : n < 0x20) :
    Json.hex4 (byteChar (hexDigit 0)) (byteChar (hexDigit 0)) (byteChar (hexDigit (n / 16)))
      (byteChar (hexDigit (n % 16))) = some n := by
  interval_cases n <;> rfl

/-- What is written for a byte is read as the byte. -/
theorem scanString_escapeByte (b : Byte) (s : List Char) :
    Json.scanString ((escapeByte b).map byteChar ++ s) =
      (Json.scanString s).map (Json.push b.toNat) := by
  rcases escapeByte_cases b with ⟨e, -, -, heq, hesc⟩ | ⟨hctl, heq⟩ | ⟨hlo, hquote, hbackslash, heq⟩
  · rw [heq]
    exact Json.scanString_escape s hesc
  · rw [heq]
    exact Json.scanString_unicode s (hex4_hexDigit hctl)
  · obtain ⟨hq, hb, hc⟩ := isPlain_byteChar hlo hquote hbackslash
    have hread := Json.scanString_plain s hq hb hc
    rw [toNat_byteChar] at hread
    rw [heq]
    exact hread

/-- The bytes of a text are read back, up to the quotation mark behind them. -/
theorem scanString_escapeBytes (s : List Byte) (r : List Char) :
    Json.scanString ((s.flatMap escapeByte).map byteChar ++ '"' :: r) =
      some (s.map BitVec.toNat, r) := by
  induction s with
  | nil => exact Json.scanString_quote r
  | cons b s ih =>
    rw [List.flatMap_cons, List.map_append, List.append_assoc, scanString_escapeByte, ih]
    rfl

/-- **The string is read as the bytes it was made from.** -/
theorem loads_jsonEscape (s : List Byte) :
    Json.loads ((jsonEscape s).map byteChar) = some (.str (s.map BitVec.toNat)) := by
  have hchars : (jsonEscape s).map byteChar =
      '"' :: ((s.flatMap escapeByte).map byteChar ++ ['"']) := by
    rw [jsonEscape, List.map_append, List.map_cons]
    rfl
  have hcodes : Json.joinSurrogates (s.map BitVec.toNat) = s.map BitVec.toNat := by
    refine Json.joinSurrogates_eq_self fun n hn => ?_
    obtain ⟨b, -, rfl⟩ := List.mem_map.mp hn
    exact .inl (Nat.lt_trans b.isLt (by omega))
  have hparse := Json.parseValue_string (n := ((jsonEscape s).map byteChar).length)
    (scanString_escapeBytes s [])
  rw [hcodes] at hparse
  rw [hchars] at hparse ⊢
  exact Json.loads_of_parseValue (by simp) hparse

/-- **A response is one line that can be read.**  It has one newline, which is its last byte, and
the string in it is read as the bytes of the result. -/
theorem response_line (result : List Byte) :
    (response result).count newline = 1 ∧ (response result).getLast? = some newline ∧
      Json.loads ((jsonEscape result).map byteChar) = some (.str (result.map BitVec.toNat)) := by
  refine ⟨?_, List.getLast?_concat, loads_jsonEscape result⟩
  rw [response, List.count_append,
    List.count_eq_zero_of_not_mem (newline_not_mem_responseBody result), List.count_singleton_self]

end Socket
end CalvinHook
