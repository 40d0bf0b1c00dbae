import CalvinHook.Xz.Lzma2Calls

/-!
# A round trip through the LZMA2 decoder

The repository has no encoder.  Here is one for the format: it is given the kinds of the chunks, and
for every compressed chunk the bits that its symbols are made of, so that it can write whatever an
LZMA2 encoder may choose to write.

* `encode`: the bytes of the chunks with the end marker, and the data they stand for.
* `lzma2_encode`: the format reads the data back.
* `calls_encode`: so does `xz_dec_lzma2_run`, however its output is dealt out.
-/

namespace CalvinHook
namespace Xz

open RangeCoder (Coded Reader Decoder Source Fair Writer bytesBE)

/-! ## Bytes at a position -/

/-- Some bytes stand in an array from a position on. -/
def At (F : Source) (pos : ℕ) (bytes : List Byte) : Prop := slice F pos bytes.length = bytes

section at_

variable {F : Source} {pos : ℕ} {a : Byte} {bytes bytes' : List Byte}

theorem At.append (h : At F pos (bytes ++ bytes')) :
    At F pos bytes ∧ At F (pos + bytes.length) bytes' := by
  unfold At at h
  rw [List.length_append, slice_add] at h
  exact List.append_inj h (length_slice _ _ _)

theorem At.cons (h : At F pos (a :: bytes)) : F pos = a ∧ At F (pos + 1) bytes := by
  have hsplit : At F pos ([a] ++ bytes) := h
  obtain ⟨hfirst, hrest⟩ := hsplit.append
  exact ⟨List.head_eq_of_cons_eq hfirst, hrest⟩

theorem At.getElem? (h : At F pos bytes) {i : ℕ} (hi : i < bytes.length) :
    bytes[i]? = some (F (pos + i)) := by
  conv_lhs => rw [← h]
  rw [slice, List.getElem?_map, List.getElem?_range hi]
  rfl

end at_

/-! ## The encoder -/

/-- The low byte of a number. -/
def byteOf (n : ℕ) : Byte := BitVec.ofNat 8 n

theorem byteAt_of {F : Source} {pos n : ℕ} (h : F pos = byteOf n) : byteAt F pos = n % 256 := by
  rw [byteAt, h, byteOf, BitVec.toNat_ofNat]

/-- A chunk to be written.  The `kind` of a compressed chunk is its control byte without the bits of
the size; `props` is written with new properties only. -/
inductive Piece
  | stored (reset : Bool) (bytes : List Byte)
  | coded (kind props n : ℕ) (bits : List Bool)

/-- The bytes of a chunk that is copied. -/
def storedBytes (reset : Bool) (bytes : List Byte) : List Byte :=
  byteOf (if reset then 1 else 2) :: byteOf ((bytes.length - 1) / 2 ^ 8) ::
    byteOf (bytes.length - 1) :: bytes

/-- The bytes of a compressed chunk: after the sizes and the properties comes what the range encoder
has written, with a zero before it. -/
def codedBytes (control props n : ℕ) (w : Writer Prob) : List Byte :=
  [byteOf control, byteOf ((n - 1) / 2 ^ 8), byteOf (n - 1), byteOf ((4 + w.shifts) / 2 ^ 8),
    byteOf (4 + w.shifts)] ++
    (if 0xC0 ≤ control then [byteOf props] else []) ++ 0 :: bytesBE (4 + w.shifts) w.low

/-- The sizes that fit into the header of a compressed chunk. -/
def CodedFits (kind props n shifts : ℕ) : Prop :=
  (kind = 0x80 ∨ kind = 0xA0 ∨ kind = 0xC0 ∨ kind = 0xE0) ∧ props < 256 ∧ 1 ≤ n ∧ n ≤ 2 ^ 21 ∧
    shifts + 5 ≤ 2 ^ 16

instance (kind props n shifts : ℕ) : Decidable (CodedFits kind props n shifts) :=
  inferInstanceAs (Decidable ((kind = 0x80 ∨ kind = 0xA0 ∨ kind = 0xC0 ∨ kind = 0xE0) ∧
    props < 256 ∧ 1 ≤ n ∧
    n ≤ 2 ^ 21 ∧ shifts + 5 ≤ 2 ^ 16))

/-- One chunk: its bytes, the data it stands for and the state after it. -/
def encodePiece (D : ℕ) (st : ChunkState) : Piece → Option (List Byte × List Byte × ChunkState)
  | .stored reset bytes =>
    (st.startDict (if reset then 1 else 2)).bind fun st =>
      if 1 ≤ bytes.length ∧ bytes.length ≤ 2 ^ 16 then
        some (storedBytes reset bytes, bytes,
          { st with core := { st.core with hist := bytes.reverse ++ st.core.hist } })
      else none
  | .coded kind props n bits =>
    (st.startDict (kind + (n - 1) / 2 ^ 16)).bind fun st =>
      (st.startLzma (kind + (n - 1) / 2 ^ 16) props).bind fun st =>
        let q := st.core.produce D n
        let w := q.written bits st.probs
        (q.follow bits).1.bind fun c =>
          if c.lzma.len = 0 ∧ CodedFits kind props n w.shifts then
            some (codedBytes (kind + (n - 1) / 2 ^ 16) props n w, c.made n,
              { st with core := c, probs := w.probs })
          else none

/-- The chunks one after another, and the end marker. -/
def encode (D : ℕ) : ChunkState → List Piece → Option (List Byte × List Byte)
  | _, [] => some ([0], [])
  | st, piece :: pieces =>
    (encodePiece D st piece).bind fun (bytes, out, st) =>
      (encode D st pieces).map fun (bytes', out') => (bytes ++ bytes', out ++ out')

/-! ## Reading it back -/

section read

variable {D size pos : ℕ} {F : Source} {st st' : ChunkState} {bytes out : List Byte} {piece : Piece}

/-- A chunk of the range encoder is read back, and nothing is left of its compressed data. -/
theorem chunk_written {n base : ℕ} {c c' : Core} {bits : List Bool} {probs : Prob → ℕ}
    (hfair : ∀ p, Fair (probs p)) (hfollow : ((c.produce D n).follow bits).1 = some c')
    (hlen : c'.lzma.len = 0)
    (hat : At F base (bytesBE (4 + ((c.produce D n).written bits probs).shifts)
      ((c.produce D n).written bits probs).low)) :
    chunk D F (base + (4 + ((c.produce D n).written bits probs).shifts)) n c
      (Reader.start F base probs) =
      some (c', ((c.produce D n).written bits probs).probs) := by
  have hbytes : ∀ i < 4 + ((c.produce D n).written bits probs).shifts,
      (bytesBE (4 + ((c.produce D n).written bits probs).shifts)
        ((c.produce D n).written bits probs).low)[i]? =
        some (F (base + i)) := fun i hi => hat.getElem? (by rwa [RangeCoder.length_bytesBE])
  obtain ⟨hresult, hpos, hcode, hprobs⟩ := Coded.run_written (c.produce D n) hfair hbytes
  have hfinish : (c.produce D n).finish F (Reader.start F base probs) =
      (some c', ((c.produce D n).run F (Reader.start F base probs)).2.normalize F) :=
    Prod.ext (hresult.trans hfollow) rfl
  rw [chunk, hfinish]
  dsimp only
  rw [if_pos ⟨hpos, hlen, hcode⟩]
  exact congrArg (fun probs => some (c', probs)) hprobs

theorem fair_of_startDict {control : ℕ} (h : st.startDict control = some st')
    (hfair : ∀ p, Fair (st.probs p)) :
    ∀ p, Fair (st'.probs p) := by
  unfold ChunkState.startDict at h
  split_ifs at h
  · cases h
    exact hfair
  · cases h
    exact hfair

theorem fair_of_startLzma {control props : ℕ} (h : st.startLzma control props = some st')
    (hfair : ∀ p, Fair (st.probs p)) : ∀ p, Fair (st'.probs p) := by
  unfold ChunkState.startLzma at h
  split_ifs at h
  · obtain ⟨lz, -, rfl⟩ := Option.map_eq_some_iff.mp h
    exact fun _ => RangeCoder.fair_half
  · cases h
    exact fun _ => RangeCoder.fair_half
  · cases h
    exact hfair

/-- The bytes of a chunk are read as the data `out`, and the encoder and the decoder agree on the
state after it. -/
structure ReadBack (D : ℕ) (F : Source) (size : ℕ) (st : ChunkState) (pos : ℕ)
    (bytes out : List Byte) (st' : ChunkState) : Prop where
  control : byteAt F pos ≠ 0
  chunk : anyChunk D F size st (byteAt F pos) pos = some (out, st', pos + bytes.length)
  fair : ∀ p, Fair (st'.probs p)

/-- A chunk that was copied is read back. -/
theorem anyChunk_stored {reset : Bool} {data : List Byte}
    (h : encodePiece D st (.stored reset data) = some (bytes, out, st'))
    (hfair : ∀ p, Fair (st.probs p)) (hat : At F pos bytes) (hsize : pos + bytes.length ≤ size) :
    ReadBack D F size st pos bytes out st' := by
  obtain ⟨st1, hstart, hdata⟩ := Option.bind_eq_some_iff.mp h
  split_ifs at hdata with hlength
  obtain ⟨rfl, hrest⟩ := Prod.mk.inj (Option.some.inj hdata)
  obtain ⟨rfl, rfl⟩ := Prod.mk.inj hrest
  obtain ⟨hcontrol, hat⟩ := hat.cons
  obtain ⟨hhigh, hat⟩ := hat.cons
  obtain ⟨hlow, hat⟩ := hat.cons
  have hcontrol' : byteAt F pos = if reset then 1 else 2 := by
    rw [byteAt_of hcontrol]
    cases reset <;> rfl
  have hne : byteAt F pos ≠ 0 ∧ ¬0x80 ≤ byteAt F pos ∧ ¬2 < byteAt F pos := by
    rw [hcontrol']
    cases reset <;> decide
  have hcount : byteAt F (pos + 1) * 2 ^ 8 + byteAt F (pos + 2) + 1 = data.length := by
    rw [byteAt_of hhigh, byteAt_of hlow]
    omega
  have hbytes : (storedBytes reset data).length = 3 + data.length := by
    rw [storedBytes, List.length_cons, List.length_cons, List.length_cons]
    omega
  have hslice : slice F (pos + 3) data.length = data := hat
  have hfair1 := fair_of_startDict hstart hfair
  refine ⟨hne.1, ?_, hfair1⟩
  rw [hcontrol'] at hne ⊢
  rw [anyChunk, hstart, Option.bind_some, if_neg hne.2.1, if_neg hne.2.2, copyChunk]
  dsimp only
  rw [hcount, if_pos (by omega), hbytes, ChunkState.copied, hslice, Nat.add_assoc]

/-- The properties byte is read only where it is written. -/
theorem startLzma_of_lt {control : ℕ} (h : control < 0xC0) (props props' : ℕ) :
    st.startLzma control props = st.startLzma control props' := by
  unfold ChunkState.startLzma
  rw [if_neg (Nat.not_le.mpr h), if_neg (Nat.not_le.mpr h)]

/-- The header of a compressed chunk is read back. -/
theorem header_codedBytes {control kind props n : ℕ} {w : Writer Prob}
    (hcontrol : control = kind + (n - 1) / 2 ^ 16) (hfits : CodedFits kind props n w.shifts)
    (hat : At F pos (codedBytes control props n w)) :
    byteAt F pos = control ∧ 0x80 ≤ control ∧ chunkSize F control pos = n ∧
    dataSize F pos = 5 + w.shifts ∧
      (∀ st : ChunkState, st.startLzma control (byteAt F (pos + 5)) = st.startLzma control props) ∧
      At F (dataPos control pos + 1) (bytesBE (4 + w.shifts) w.low) ∧
      pos + (codedBytes control props n w).length = dataPos control pos + (5 + w.shifts) := by
  obtain ⟨hkind, hprops, hn, hn', hshifts⟩ := hfits
  have hcontrol_lt : 0x80 ≤ control ∧ control < 256 ∧ control % 0x20 = (n - 1) / 2 ^ 16 := by
    have hquot : (n - 1) / 2 ^ 16 < 0x20 := by omega
    omega
  unfold codedBytes at hat ⊢
  obtain ⟨hhead, hdata⟩ := hat.append
  obtain ⟨hhead, hprop⟩ := hhead.append
  obtain ⟨h0, hhead⟩ := hhead.cons
  obtain ⟨h1, hhead⟩ := hhead.cons
  obtain ⟨h2, hhead⟩ := hhead.cons
  obtain ⟨h3, hhead⟩ := hhead.cons
  obtain ⟨h4, -⟩ := hhead.cons
  have hbyte : byteAt F pos = control := by
    rw [byteAt_of h0, Nat.mod_eq_of_lt hcontrol_lt.2.1]
  refine ⟨hbyte, hcontrol_lt.1, ?_, ?_, ?_, ?_, ?_⟩
  · rw [chunkSize, hcontrol_lt.2.2, byteAt_of h1, byteAt_of h2]
    omega
  · rw [dataSize, byteAt_of h3, byteAt_of h4]
    omega
  · intro st
    by_cases hnew : 0xC0 ≤ control
    · rw [if_pos hnew] at hprop
      have h5 : F (pos + 5) = byteOf props := hprop.cons.1
      rw [byteAt_of h5, Nat.mod_eq_of_lt hprops]
    · exact startLzma_of_lt (Nat.not_le.mp hnew) _ _
  · have hstart := hdata.cons.2
    unfold dataPos
    split_ifs at hstart ⊢ with hnew
    · exact hstart
    · exact hstart
  · have hcode : (0 :: bytesBE (4 + w.shifts) w.low).length = 4 + w.shifts + 1 := by
      rw [List.length_cons, RangeCoder.length_bytesBE]
    rw [List.length_append, List.length_append, hcode]
    unfold dataPos
    split_ifs
    · show pos + (5 + 1 + (4 + w.shifts + 1)) = _
      omega
    · show pos + (5 + 0 + (4 + w.shifts + 1)) = _
      omega

/-- A compressed chunk is read back. -/
theorem anyChunk_coded {kind props n : ℕ} {bits : List Bool}
    (h : encodePiece D st (.coded kind props n bits) = some (bytes, out, st'))
    (hfair : ∀ p, Fair (st.probs p)) (hat : At F pos bytes) (hsize : pos + bytes.length ≤ size) :
    ReadBack D F size st pos bytes out st' := by
  obtain ⟨st1, hstart, hdata⟩ := Option.bind_eq_some_iff.mp h
  obtain ⟨st2, hlzma, hdata⟩ := Option.bind_eq_some_iff.mp hdata
  obtain ⟨c, hfollow, hdata⟩ := Option.bind_eq_some_iff.mp hdata
  split_ifs at hdata with hfits
  obtain ⟨rfl, hrest⟩ := Prod.mk.inj (Option.some.inj hdata)
  obtain ⟨rfl, rfl⟩ := Prod.mk.inj hrest
  have hfair2 := fair_of_startLzma hlzma (fair_of_startDict hstart hfair)
  obtain ⟨hcontrol, hge, hcount, hcompressed, hprops, hcode, hlength⟩ :=
    header_codedBytes rfl hfits.2 hat
  have hchunk := chunk_written hfair2 hfollow hfits.1 hcode
  rw [hlength] at hsize
  have hstop : dataPos (kind + (n - 1) / 2 ^ 16) pos + 1 +
      (4 + ((st2.core.produce D n).written bits st2.probs).shifts) =
      dataPos (kind + (n - 1) / 2 ^ 16) pos +
        (5 + ((st2.core.produce D n).written bits st2.probs).shifts) := by
    omega
  rw [hstop] at hchunk
  refine ⟨by omega, ?_, ?_⟩
  · rw [hcontrol, anyChunk, hstart, Option.bind_some, if_pos hge, lzmaChunk, hprops, hlzma, hcount,
      hcompressed]
    dsimp only [Option.bind_some]
    rw [if_pos ⟨Nat.le_add_right _ _, hsize⟩, hchunk, hlength]
    rfl
  · exact (st2.core.produce D n).fair_written bits hfair2

/-- **The round trip of the format.**  By induction on the chunks: each is read back where it was
written. -/
theorem lzma2_encode {pieces : List Piece} (h : encode D st pieces = some (bytes, out))
    (hfair : ∀ p, Fair (st.probs p)) (hat : At F pos bytes) (hsize : pos + bytes.length ≤ size) :
    lzma2 D F size st pos = some (out, pos + bytes.length) := by
  induction pieces generalizing st bytes out pos with
  | nil =>
    obtain ⟨rfl, rfl⟩ := Prod.mk.inj (Option.some.inj h)
    have hzero : byteAt F pos = 0 := congrArg BitVec.toNat hat.cons.1
    rw [List.length_singleton] at hsize ⊢
    rw [lzma2_eq, if_neg (by omega), if_pos hzero]
  | cons piece pieces ih =>
    obtain ⟨⟨bytes1, out1, st1⟩, hpiece, hpieces⟩ := Option.bind_eq_some_iff.mp h
    obtain ⟨⟨bytes2, out2⟩, hencode, heq⟩ := Option.map_eq_some_iff.mp hpieces
    obtain ⟨rfl, rfl⟩ := Prod.mk.inj heq
    obtain ⟨hat1, hat2⟩ := hat.append
    rw [List.length_append] at hsize
    have hread : ReadBack D F size st pos bytes1 out1 st1 := by
      cases piece with
      | stored reset data => exact anyChunk_stored hpiece hfair hat1 (by omega)
      | coded kind props n bits => exact anyChunk_coded hpiece hfair hat1 (by omega)
    have hrest := ih hencode hread.fair hat2 (by omega)
    have hlt := (lt_of_anyChunk hread.chunk).1
    rw [lzma2_eq, if_neg (by omega), if_neg hread.control, hread.chunk, Option.bind_some]
    dsimp only
    rw [hrest, List.length_append, ← Nat.add_assoc]
    rfl

end read

/-- **The round trip of the decoder.**  Whatever chunks an encoder writes, calls of
`xz_dec_lzma2_run` with enough room give the data back and stop behind the end marker. -/
theorem calls_encode {vmalloc : ℕ → Option (ℕ → Byte)} {s0 s : Lzma2Dec} {props size : ℕ}
    {pieces : List Piece} {bytes out : List Byte} {F : Source} {rooms : List ℕ}
    (hreset : xzDecLzma2Reset vmalloc s0 props = (.ok, s))
    (hencode : encode (dictSize props) .fresh pieces = some (bytes, out)) (hat : At F 0 bytes)
    (hsize : bytes.length ≤ size) (hrooms : rooms ≠ []) (hroom : out.length ≤ rooms.sum)
    (buf : ℕ → Byte) :
    ∃ s' b', calls rooms s ⟨F, 0, size, buf, 0, 0⟩ = (.streamEnd, out, s', b') ∧
      b'.inPos = bytes.length := by
  have hvalid : lzma2 (dictSize props) F size .fresh 0 = some (out, 0 + bytes.length) :=
    lzma2_encode hencode (fun _ => RangeCoder.fair_half) hat (by omega)
  rw [Nat.zero_add] at hvalid
  exact calls_of_lzma2 hreset hvalid hrooms hroom buf

/-- The letter A, three times more by a match at the distance before, and a chunk with the letter
B. -/
def fewLetters : List Piece :=
  [.coded 0xE0 93 4 [false, false, true, false, false, false, false, false, true,
    true, true, false, true, false, false, false, true], .stored false [0x42]]

theorem encode_fewLetters :
    encode (dictSize 0) .fresh fewLetters = some (fewBytes, [0x41, 0x41, 0x41, 0x41, 0x42]) := by
  decide +kernel

theorem calls_fewLetters :
    ∃ s' b', calls [2, 2, 2] smallDec ⟨(fewBytes.getD · 0), 0, 18, fun _ => 0, 0, 0⟩ =
    (.streamEnd, [0x41, 0x41, 0x41, 0x41, 0x42], s', b') ∧ b'.inPos = 18 :=
  calls_encode reset_smallDec encode_fewLetters (show slice _ 0 18 = fewBytes from rfl) le_rfl
    (List.cons_ne_nil 2 [2, 2])
    (Nat.le_succ 5) fun _ => 0

end Xz
end CalvinHook
