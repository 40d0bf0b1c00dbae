import CalvinHook.Xz.Lzma2
import Mathlib.Tactic.Ring

/-!
# Variable-length integers of the stream decoder

`dec_vli` of `xz_dec_stream.c` reads a number of up to 63 bits, seven bits in a byte with the lowest
ones first.  It keeps its position in `s->pos` and can go on with the next input buffer.

* `decVli_append`: a call on two pieces of input is a call on each of them.
* `decVliLoop_encodeVli`, `encodeVli_of_decVliLoop`: what is accepted is the one shortest form of a
  number.
* `feedVli_streamEnd_iff`: both together, for any cut of the input.
-/

namespace CalvinHook
namespace Xz

/-- The fields `pos` and `vli` of `struct xz_dec`. -/
structure VliDec where
  pos : ℕ
  vli : ℕ
  deriving DecidableEq, Repr

/-- The loop of `dec_vli` on the bytes that are left of the input.  The mask `0x7F` is a remainder,
and the flag `0x80` a comparison. -/
def decVliLoop : List Byte → VliDec → XzRet × VliDec × List Byte
  | [], s => (.ok, s, [])
  | byte :: input, s =>
    let vli := s.vli ||| (byte.toNat % 0x80) <<< s.pos
    if byte.toNat < 0x80 then
      if byte = 0 ∧ s.pos ≠ 0 then (.dataError, ⟨s.pos, vli⟩, input)
      else (.streamEnd, ⟨0, vli⟩, input)
    else if s.pos + 7 = 7 * 9 then (.dataError, ⟨s.pos + 7, vli⟩, input)
    else decVliLoop input ⟨s.pos + 7, vli⟩

/-- `dec_vli`. -/
def decVli (input : List Byte) (s : VliDec) : XzRet × VliDec × List Byte :=
  decVliLoop input (if s.pos = 0 then { s with vli := 0 } else s)

/-! ## Input in pieces -/

/-- The decoder goes on with the next piece of input. -/
theorem decVliLoop_append (input more : List Byte) (s : VliDec) :
    decVliLoop (input ++ more) s =
      match decVliLoop input s with
      | (.ok, s', _) => decVliLoop more s'
      | (ret, s', rest) => (ret, s', rest ++ more) := by
  induction input generalizing s with
  | nil => rfl
  | cons byte input ih =>
    rw [List.cons_append, decVliLoop, decVliLoop]
    split_ifs
    · rfl
    · rfl
    · rfl
    · exact ih _

/-- A number that is not complete has a position other than zero. -/
theorem pos_decVliLoop_ok {input rest : List Byte} {s s' : VliDec}
    (h : decVliLoop input s = (.ok, s', rest)) :
    s'.pos = s.pos + 7 * input.length := by
  induction input generalizing s with
  | nil =>
    cases h
    rfl
  | cons byte input ih =>
    rw [decVliLoop] at h
    split_ifs at h
    · cases h
    · cases h
    · cases h
    · have hpos := ih h
      dsimp only at hpos
      rw [hpos, List.length_cons]
      omega

theorem decVli_append (input more : List Byte) (s : VliDec) :
    decVli (input ++ more) s =
      match decVli input s with
      | (.ok, s', _) => decVli more s'
      | (ret, s', rest) => (ret, s', rest ++ more) := by
  unfold decVli
  rw [decVliLoop_append]
  rcases hresult : decVliLoop input (if s.pos = 0 then { s with vli := 0 } else s) with
    ⟨ret, s', rest⟩
  cases ret with
  | ok =>
    -- the value is set to zero again only if nothing has been read
    dsimp only
    by_cases hzero : s'.pos = 0
    · have hpos := pos_decVliLoop_ok hresult
      obtain rfl : input = [] := List.length_eq_zero_iff.mp (by omega)
      obtain ⟨-, hs, -⟩ := Prod.mk.inj hresult |>.imp_right Prod.mk.inj
      have hs0 : s.pos = 0 := by
        rw [List.length_nil] at hpos
        split_ifs at hpos with h
        · exact h
        · omega
      rw [if_pos hs0] at hs
      rw [if_pos hzero, ← hs]
    · rw [if_neg hzero]
  | streamEnd => rfl
  | unsupportedCheck => rfl
  | memError => rfl
  | memlimitError => rfl
  | formatError => rfl
  | optionsError => rfl
  | dataError => rfl
  | bufError => rfl

/-- Calls of `dec_vli` with one piece of input after another, as long as they return `XZ_OK`; the
bytes of the pieces that are not read are left. -/
def feedVli : List (List Byte) → VliDec → XzRet × VliDec × List Byte
  | [], s => decVli [] s
  | piece :: pieces, s =>
    match decVli piece s with
    | (.ok, s', _) => feedVli pieces s'
    | (ret, s', rest) => (ret, s', rest ++ pieces.flatten)

theorem feedVli_eq (pieces : List (List Byte)) (s : VliDec) :
    feedVli pieces s = decVli pieces.flatten s := by
  induction pieces generalizing s with
  | nil => rfl
  | cons piece pieces ih =>
    rw [feedVli, List.flatten_cons, decVli_append]
    rcases decVli piece s with ⟨ret, s', rest⟩
    cases ret with
    | ok => exact ih s'
    | _ => rfl

/-! ## The shortest form -/

/-- The shortest form of a number. -/
def encodeVli (n : ℕ) : List Byte :=
  if n < 0x80 then [BitVec.ofNat 8 n] else BitVec.ofNat 8 (n % 0x80 + 0x80) :: encodeVli (n / 0x80)
termination_by n
decreasing_by omega

/-- Seven bits more above the ones that are there. -/
theorem or_shiftLeft {v pos : ℕ} (h : v < 2 ^ pos) (x : ℕ) : v ||| x <<< pos = v + x * 2 ^ pos := by
  rw [Nat.or_comm, ← Nat.shiftLeft_add_eq_or_of_lt h, Nat.shiftLeft_eq, Nat.add_comm]

/-- The next seven bits, and the ones above them. -/
theorem add_next (x m pos : ℕ) : x * 2 ^ pos + m * 2 ^ (pos + 7) = (0x80 * m + x) * 2 ^ pos := by
  rw [pow_add]
  ring

theorem add_seven_lt {v x pos : ℕ} (hv : v < 2 ^ pos) (hx : x < 0x80) :
    v + x * 2 ^ pos < 2 ^ (pos + 7) := by
  have hle : x * 2 ^ pos ≤ 0x7F * 2 ^ pos := Nat.mul_le_mul_right _ (by omega)
  have hpow : 2 ^ (pos + 7) = 2 ^ pos * 0x80 := pow_add 2 pos 7
  omega

/-- The limit of 63 bits is a multiple of the weight of every byte. -/
theorem next_lt {m x pos : ℕ} (hpos : pos ≤ 56) (hx : x < 0x80) (hm : m * 2 ^ (pos + 7) < 2 ^ 63) :
    (0x80 * m + x) * 2 ^ pos < 2 ^ 63 := by
  have hsplit : 2 ^ 63 = 2 ^ (56 - pos) * 2 ^ (pos + 7) := by
    rw [← pow_add]
    congr 1
    omega
  have hlt : m < 2 ^ (56 - pos) := Nat.lt_of_mul_lt_mul_right (hsplit ▸ hm)
  calc (0x80 * m + x) * 2 ^ pos < (0x80 * (m + 1)) * 2 ^ pos :=
        Nat.mul_lt_mul_of_pos_right (by omega) (Nat.two_pow_pos pos)
    _ = (m + 1) * 2 ^ (pos + 7) := by
        rw [pow_add]
        ring
    _ ≤ 2 ^ 63 := hsplit ▸ Nat.mul_le_mul_right _ hlt

/-- A byte with the flag is the first of a number that goes on. -/
theorem encodeVli_next {byte : Byte} {m : ℕ} (hbyte : 0x80 ≤ byte.toNat) (hm : m ≠ 0) :
    encodeVli (0x80 * m + (byte.toNat - 0x80)) = byte :: encodeVli m := by
  have hlt := byte.isLt
  have hdiv : (0x80 * m + (byte.toNat - 0x80)) / 0x80 = m := by omega
  have hlowest : (0x80 * m + (byte.toNat - 0x80)) % 0x80 + 0x80 = byte.toNat := by omega
  rw [encodeVli, if_neg (by omega), hdiv, hlowest, BitVec.ofNat_toNat, BitVec.setWidth_eq]

/-- The shortest form is read back, by induction on the number. -/
theorem decVliLoop_encodeVli (rest : List Byte) (n : ℕ) {pos v : ℕ} (hv : v < 2 ^ pos)
    (hn : n * 2 ^ pos < 2 ^ 63) (hzero : n = 0 → pos = 0) :
    decVliLoop (encodeVli n ++ rest) ⟨pos, v⟩ = (.streamEnd, ⟨0, v + n * 2 ^ pos⟩, rest) := by
  induction n using Nat.strong_induction_on generalizing pos v with
  | _ n ih =>
    rw [encodeVli]
    split_ifs with hsmall
    · have hbyte : (BitVec.ofNat 8 n).toNat = n := by
        rw [BitVec.toNat_ofNat]
        omega
      have hne : ¬(BitVec.ofNat 8 n = 0 ∧ pos ≠ 0) := fun h =>
        h.2 (hzero (hbyte.symm.trans (congrArg BitVec.toNat h.1)))
      rw [List.singleton_append, decVliLoop]
      dsimp only
      rw [hbyte, if_pos hsmall, if_neg hne, Nat.mod_eq_of_lt hsmall, or_shiftLeft hv]
    · have hbyte : (BitVec.ofNat 8 (n % 0x80 + 0x80)).toNat = n % 0x80 + 0x80 := by
        rw [BitVec.toNat_ofNat]
        omega
      have hvalue : n % 0x80 * 2 ^ pos + n / 0x80 * 2 ^ (pos + 7) = n * 2 ^ pos := by
        rw [add_next, Nat.div_add_mod]
      have hlast : ¬pos + 7 = 7 * 9 := by
        intro hpos
        have hmul : 0x80 * 2 ^ pos ≤ n * 2 ^ pos := Nat.mul_le_mul_right _ (Nat.not_lt.mp hsmall)
        obtain rfl : pos = 56 := by omega
        omega
      have hlow : v + n % 0x80 * 2 ^ pos < 2 ^ (pos + 7) :=
        add_seven_lt hv (Nat.mod_lt _ (by decide))
      rw [List.cons_append, decVliLoop]
      dsimp only
      rw [hbyte, if_neg (by omega), if_neg hlast, Nat.add_mod_right, Nat.mod_mod, or_shiftLeft hv,
        ih (n / 0x80) (by omega) hlow (by omega) (by omega), Nat.add_assoc, hvalue]

/-- What is accepted is a shortest form, by induction on the input. -/
theorem encodeVli_of_decVliLoop {input rest : List Byte} {pos v : ℕ} {s' : VliDec}
    (hv : v < 2 ^ pos) (hpos : pos ≤ 56) (hseven : 7 ∣ pos)
    (h : decVliLoop input ⟨pos, v⟩ = (.streamEnd, s', rest)) :
    ∃ n, n * 2 ^ pos < 2 ^ 63 ∧ (n = 0 → pos = 0) ∧ s' = ⟨0, v + n * 2 ^ pos⟩ ∧
      input = encodeVli n ++ rest := by
  induction input generalizing pos v with
  | nil => cases h
  | cons byte input ih =>
    have hbyte := byte.isLt
    rw [decVliLoop] at h
    dsimp only at h
    split_ifs at h with hsmall hzero hlast
    · cases h
    · obtain ⟨rfl, rfl⟩ := Prod.mk.inj (Prod.mk.inj h).2
      have hpow : 2 ^ pos ≤ 2 ^ 56 := Nat.pow_le_pow_right (Nat.succ_pos 1) hpos
      refine ⟨byte.toNat, ?_, fun hn => ?_, ?_, ?_⟩
      · calc byte.toNat * 2 ^ pos ≤ 0x7F * 2 ^ 56 := Nat.mul_le_mul (by omega) hpow
          _ < 2 ^ 63 := by norm_num
      · by_contra hne
        exact hzero ⟨BitVec.eq_of_toNat_eq hn, hne⟩
      · rw [Nat.mod_eq_of_lt hsmall, or_shiftLeft hv]
      · rw [encodeVli, if_pos hsmall, BitVec.ofNat_toNat, BitVec.setWidth_eq]
        rfl
    · cases h
    · have hmod : byte.toNat % 0x80 = byte.toNat - 0x80 := by omega
      have hrest : byte.toNat - 0x80 < 0x80 := by omega
      rw [or_shiftLeft hv, hmod] at h
      obtain ⟨m, hm, hnext, rfl, rfl⟩ := ih (add_seven_lt hv hrest) (by omega) (by omega) h
      have hm0 : m ≠ 0 := fun hzero => by
        have := hnext hzero
        omega
      -- the number has this byte as its lowest seven bits
      refine ⟨0x80 * m + (byte.toNat - 0x80), next_lt hpos hrest hm,
        fun hn => absurd hn (by omega), ?_, ?_⟩
      · rw [Nat.add_assoc, add_next]
      · rw [encodeVli_next (Nat.not_lt.mp hsmall) hm0]
        rfl

/-- **Numbers in any cut of the input.**  From its first byte on, `dec_vli` accepts exactly the
shortest form of a number below `2 ^ 63`, whatever pieces the input comes in, and leaves what comes
after it. -/
theorem feedVli_streamEnd_iff (pieces : List (List Byte)) {s : VliDec} (hs : s.pos = 0) (n : ℕ)
    (rest : List Byte) :
    feedVli pieces s = (.streamEnd, ⟨0, n⟩, rest) ↔ n < 2 ^ 63 ∧
      pieces.flatten = encodeVli n ++ rest := by
  rw [feedVli_eq, decVli, if_pos hs]
  have hstart : { s with vli := 0 } = (⟨0, 0⟩ : VliDec) := by rw [hs]
  rw [hstart]
  constructor
  · intro h
    obtain ⟨m, hm, -, hvalue, hinput⟩ :=
      encodeVli_of_decVliLoop (Nat.two_pow_pos 0) (Nat.zero_le _) (Nat.dvd_zero 7) h
    obtain rfl : n = m := by
      have := congrArg VliDec.vli hvalue
      dsimp only at this
      omega
    exact ⟨by omega, hinput⟩
  · rintro ⟨hn, hinput⟩
    have hdecode := decVliLoop_encodeVli rest n (Nat.two_pow_pos 0) (by omega) fun _ => rfl
    rw [hinput, hdecode, Nat.zero_add, pow_zero, Nat.mul_one]

/-- Two bytes in two pieces, with a third one that is left. -/
theorem feedVli_twoPieces :
    feedVli [[0xAC], [0x02, 0x07]] ⟨0, 5⟩ = (.streamEnd, ⟨0, 300⟩, [0x07]) := by
  refine (feedVli_streamEnd_iff [[0xAC], [0x02, 0x07]] rfl 300 [0x07]).mpr ⟨by norm_num, ?_⟩
  rw [encodeVli, encodeVli]
  rfl

end Xz
end CalvinHook
