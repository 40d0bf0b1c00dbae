import CalvinHook.Text.Base64

/-!
# UTF-8 texts

`utf8Encode` and `utf8Decode` are the encoder and the strict decoder of the standard library on
lists of bytes.

* `utf8Decode_eq_some_iff`: decoding is the inverse of encoding.
* `utf8Encode_ascii`, `utf8Encode_high`: a character below 128 is one byte, every other one consists
  of bytes from 128 on.
* `utf8Encode_map_byteChar`: texts of bytes below 128.
-/

namespace CalvinHook
namespace Text

/-- The bytes of a text of characters. -/
def utf8Encode (cs : List Char) : List Byte :=
  cs.flatMap fun c => (String.utf8EncodeChar c).map UInt8.toBitVec

/-- The text of a list of bytes, if it is the encoding of one. -/
def utf8Decode (bs : List Byte) : Option (List Char) :=
  (bs.map UInt8.ofBitVec).toByteArray.utf8Decode?.map Array.toList

theorem toByteArray_utf8Encode (cs : List Char) :
    ((utf8Encode cs).map UInt8.ofBitVec).toByteArray = cs.utf8Encode := by
  have hbytes : (utf8Encode cs).map UInt8.ofBitVec = cs.flatMap String.utf8EncodeChar := by
    rw [utf8Encode, List.map_flatMap]
    congr 1
    funext c
    rw [List.map_map]
    exact List.map_id _
  rw [hbytes]
  rfl

/-- **Decoding is the inverse of encoding.** -/
theorem utf8Decode_eq_some_iff {bs : List Byte} {cs : List Char} :
    utf8Decode bs = some cs ↔ bs = utf8Encode cs := by
  constructor
  · intro h
    obtain ⟨a, ha, rfl⟩ := Option.map_eq_some_iff.mp h
    have hsome := Option.isSome_of_eq_some ha
    have hback := ByteArray.utf8Encode_get_utf8Decode? (h := hsome)
    rw [Option.get_of_eq_some hsome ha, ← toByteArray_utf8Encode, List.toByteArray_inj] at hback
    exact (List.map_injective_iff.mpr fun _ _ => UInt8.ofBitVec.inj) hback.symm
  · rintro rfl
    rw [utf8Decode, toByteArray_utf8Encode, List.utf8Decode?_utf8Encode]
    rfl

theorem utf8Decode_utf8Encode (cs : List Char) : utf8Decode (utf8Encode cs) = some cs :=
  utf8Decode_eq_some_iff.mpr rfl

theorem utf8Encode_append (a b : List Char) : utf8Encode (a ++ b) = utf8Encode a ++ utf8Encode b :=
  List.flatMap_append

theorem utf8Encode_cons (c : Char) (cs : List Char) :
    utf8Encode (c :: cs) = utf8Encode [c] ++ utf8Encode cs :=
  utf8Encode_append [c] cs

theorem utf8Decode_utf8Encode_singleton_append (c : Char) (bs : List Byte) :
    utf8Decode (utf8Encode [c] ++ bs) = (utf8Decode bs).map (c :: ·) := by
  rw [utf8Decode, List.map_append, List.toByteArray_append, toByteArray_utf8Encode,
    ByteArray.utf8Decode?_utf8Encode_singleton_append, utf8Decode, Option.map_map, Option.map_map]
  congr 1
  funext a
  simp

/-- Decoding behind a text that has been encoded. -/
theorem utf8Decode_utf8Encode_append (cs : List Char) (bs : List Byte) :
    utf8Decode (utf8Encode cs ++ bs) = (utf8Decode bs).map (cs ++ ·) := by
  induction cs with
  | nil => exact (Option.map_id' (x := utf8Decode bs)).symm
  | cons c cs ih =>
    rw [utf8Encode_cons, List.append_assoc, utf8Decode_utf8Encode_singleton_append, ih,
      Option.map_map]
    rfl

/-- A character below 128 is one byte. -/
theorem utf8Encode_ascii {c : Char} (h : c.toNat < 128) :
    utf8Encode [c] = [BitVec.ofNat 8 c.toNat] := by
  have h1 : c.val.toNat ≤ 0x7F := Nat.le_of_lt_succ h
  rw [utf8Encode, List.flatMap_singleton, String.utf8EncodeChar, if_pos h1]
  rfl

/-- Every other character consists of bytes from 128 on. -/
theorem utf8Encode_high {c : Char} (h : 128 ≤ c.toNat) {x : Byte} (hx : x ∈ utf8Encode [c]) :
    128 ≤ x.toNat := by
  have h1 : ¬ c.val.toNat ≤ 0x7F := by
    change ¬ c.toNat ≤ 0x7F
    omega
  rw [utf8Encode, List.flatMap_singleton, String.utf8EncodeChar, if_neg h1, List.mem_map] at hx
  obtain ⟨b, hb, rfl⟩ := hx
  have hbyte : ∀ n, 128 ≤ n → n < 256 → 128 ≤ (UInt8.ofNat n).toBitVec.toNat := by
    intro n hlo hhi
    change 128 ≤ n % 256
    rwa [Nat.mod_eq_of_lt hhi]
  split_ifs at hb <;> simp only [List.mem_cons, List.not_mem_nil, or_false] at hb
  · rcases hb with rfl | rfl <;> exact hbyte _ (by omega) (by omega)
  · rcases hb with rfl | rfl | rfl <;> exact hbyte _ (by omega) (by omega)
  · rcases hb with rfl | rfl | rfl | rfl <;> exact hbyte _ (by omega) (by omega)

/-- The character that has the number of a byte. -/
def byteChar (b : Byte) : Char := Char.ofNat b.toNat

theorem toNat_byteChar (b : Byte) : (byteChar b).toNat = b.toNat := by
  have hvalid : b.toNat.isValidChar := .inl (Nat.lt_trans b.isLt (by omega))
  rw [byteChar, Char.ofNat, dif_pos hvalid]
  rfl

theorem byteChar_injective : Function.Injective byteChar := by
  intro b c h
  have hnat := congrArg Char.toNat h
  rw [toNat_byteChar, toNat_byteChar] at hnat
  exact BitVec.eq_of_toNat_eq hnat

/-- A text of bytes below 128 is encoded as it is. -/
theorem utf8Encode_map_byteChar {bs : List Byte} (h : ∀ b ∈ bs, b.toNat < 128) :
    utf8Encode (bs.map byteChar) = bs := by
  induction bs with
  | nil => rfl
  | cons b bs ih =>
    rw [List.forall_mem_cons] at h
    have hb : (byteChar b).toNat < 128 := by rw [toNat_byteChar]; exact h.1
    rw [List.map_cons, utf8Encode_cons, utf8Encode_ascii hb, ih h.2, toNat_byteChar,
      BitVec.ofNat_toNat, BitVec.setWidth_eq]
    rfl

end Text
end CalvinHook
