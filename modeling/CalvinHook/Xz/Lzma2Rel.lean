import CalvinHook.Xz.Lzma2Spec

/-!
# States of the LZMA2 decoder and what is left to come

`xz_dec_lzma2_run` may be called again and again with more room for output.  `Lzma2Rel` says, for
every state in which a pass of its loop may start, what is left of the output according to the
format.

The input is complete from the first call on, as `xz_decompress` gives it; a call that comes to
its end inside of a chunk has nothing valid left.  An error of the decoder stands for the same, so
that `Outcome` can tell for every return code what is left.
-/

namespace CalvinHook
namespace Xz

open RangeCoder (Coded Reader Decoder Source Fair)

/-! ## The output buffer -/

/-- Some bytes are written from a position on. -/
def writeList (out : ℕ → Byte) (pos : ℕ) (bytes : List Byte) : ℕ → Byte :=
  Ring.store out pos (fun i => (bytes[i]?).getD 0) bytes.length

theorem writeList_nil (out : ℕ → Byte) (pos : ℕ) : writeList out pos [] = out :=
  Ring.store_zero _ _ _

theorem writeList_append (out : ℕ → Byte) (pos : ℕ) (bytes bytes' : List Byte) :
    writeList (writeList out pos bytes) (pos + bytes.length) bytes' =
      writeList out pos (bytes ++ bytes') := by
  unfold writeList
  rw [Ring.store_store, List.length_append]
  congr 1
  funext i
  split_ifs with hi
  · rw [List.getElem?_append_left hi]
  · rw [List.getElem?_append_right (Nat.not_lt.mp hi)]

/-- The first bytes of a source, written. -/
theorem store_eq_writeList {out source : ℕ → Byte} {pos n : ℕ} {bytes : List Byte}
    (hlength : bytes.length = n) (h : ∀ i < n, bytes[i]? = some (source i)) :
    Ring.store out pos source n = writeList out pos bytes := by
  unfold writeList
  rw [hlength]
  funext i
  unfold Ring.store
  split_ifs with hi
  · show source (i - pos) = (bytes[i - pos]?).getD 0
    rw [h _ (by omega), Option.getD_some]
  · rfl

/-- A call has taken input and written the bytes `out`. -/
structure Written (b b' : XzBuf) (out : List Byte) : Prop where
  input : b'.input = b.input
  inSize : b'.inSize = b.inSize
  outSize : b'.outSize = b.outSize
  inPos_le : b.inPos ≤ b'.inPos
  inPos_le_size : b'.inPos ≤ b.inSize
  outPos : b'.outPos = b.outPos + out.length
  outPos_le : b'.outPos ≤ b.outSize
  out : b'.out = writeList b.out b.outPos out

theorem Written.trans {b b' b'' : XzBuf} {out out' : List Byte} (h : Written b b' out)
    (h' : Written b' b'' out') :
    Written b b'' (out ++ out') where
  input := h'.input.trans h.input
  inSize := h'.inSize.trans h.inSize
  outSize := h'.outSize.trans h.outSize
  inPos_le := h.inPos_le.trans h'.inPos_le
  inPos_le_size := h'.inPos_le_size.trans_eq h.inSize
  outPos := by rw [h'.outPos, h.outPos, List.length_append, Nat.add_assoc]
  outPos_le := h'.outPos_le.trans_eq h.outSize
  out := by rw [h'.out, h.out, h.outPos, writeList_append]

/-- Input is taken up to `pos`, and nothing written. -/
theorem Written.skip {b : XzBuf} {pos : ℕ} (hle : b.inPos ≤ pos) (hin : pos ≤ b.inSize)
    (hout : b.outPos ≤ b.outSize) : Written b { b with inPos := pos } [] where
  input := rfl
  inSize := rfl
  outSize := rfl
  inPos_le := hle
  inPos_le_size := hin
  outPos := rfl
  outPos_le := hout
  out := (writeList_nil _ _).symm

/-! ## States between two chunks -/

/-- The decoder for a compressed chunk without a reset. -/
structure LzmaReady (s : Lzma2Dec) (st : ChunkState) : Prop where
  lzma : s.lzma = st.core.lzma
  valid : st.core.lzma.Valid
  len : st.core.lzma.len = 0
  rep0 : st.core.lzma.state.isLiteral = false → st.core.lzma.rep0 < s.dict.full
  probs : s.reader.probs = st.probs
  fair : ∀ p, Fair (st.probs p)
  range : s.reader.dec.range = 2 ^ 32 - 1
  code : s.reader.dec.code = 0
  initBytesLeft : s.initBytesLeft = 5

/-- The dictionary with all output flushed. -/
structure DictReady (d : Dictionary) (hist : List Byte) : Prop where
  holds : d.Holds hist
  start : d.start = d.pos
  pos_lt : d.pos < d.bufEnd

/-- The size of the dictionary. -/
structure DictSize (d : Dictionary) : Prop where
  size_eq : d.size = d.bufEnd
  aligned : 16 ∣ d.bufEnd
  pos : 0 < d.bufEnd
  bufEnd_lt : d.bufEnd < 2 ^ 32

theorem DictSize.reset {d : Dictionary} (h : DictSize d) : DictReady d.reset [] where
  holds := ⟨.empty d.buf h.pos, h.size_eq, h.aligned, h.bufEnd_lt⟩
  start := rfl
  pos_lt := h.pos

theorem DictReady.dictSize {d : Dictionary} {hist : List Byte} (h : DictReady d hist) :
    DictSize d :=
  ⟨h.holds.size_eq, h.holds.aligned, h.holds.ring.cap_pos, h.holds.bufEnd_lt⟩

/-- The decoder between two chunks. -/
structure Ready (s : Lzma2Dec) (st : ChunkState) : Prop where
  dictSize : DictSize s.dict
  needDictReset : s.needDictReset = st.needDictReset
  dict : st.needDictReset = false → DictReady s.dict st.core.hist
  needProps : st.needDictReset = false → s.needProps = st.needProps
  lzma : st.needDictReset = false → st.needProps = false → LzmaReady s st
  tempSize : s.tempSize = 0

/-- The input of a call: all of `F`. -/
structure Whole (F : Source) (size : ℕ) (b : XzBuf) : Prop where
  input : b.input = F
  inSize : b.inSize = size
  inPos_le : b.inPos ≤ size
  outPos_le : b.outPos ≤ b.outSize

theorem Written.whole {F : Source} {size : ℕ} {b b' : XzBuf} {out : List Byte}
    (h : Written b b' out) (hb : Whole F size b) : Whole F size b' :=
  ⟨h.input.trans hb.input, h.inSize.trans hb.inSize, h.inPos_le_size.trans_eq hb.inSize,
    h.outPos_le.trans_eq h.outSize.symm⟩

theorem Whole.byte {F : Source} {size : ℕ} {b : XzBuf} (hb : Whole F size b) :
    b.byte = byteAt F b.inPos := by
  rw [XzBuf.byte, hb.input, byteAt]

theorem Whole.written_skip {F : Source} {size : ℕ} {b : XzBuf} (hb : Whole F size b)
    (hin : b.inPos < size) :
    Written b b.skip [] :=
  .skip (Nat.le_succ _) (hb.inSize ▸ hin) hb.outPos_le

/-- What a call does not change in the dictionary: its size, and the memory behind it. -/
structure SameDict (d d' : Dictionary) : Prop where
  size : d'.size = d.size
  bufEnd : d'.bufEnd = d.bufEnd
  sizeMax : d'.sizeMax = d.sizeMax
  allocated : d'.allocated = d.allocated
  frame : ∀ i, d.bufEnd ≤ i → d'.buf i = d.buf i

theorem SameDict.refl (d : Dictionary) : SameDict d d := ⟨rfl, rfl, rfl, rfl, fun _ _ => rfl⟩

theorem SameDict.trans {d d' d'' : Dictionary} (h : SameDict d d') (h' : SameDict d' d'') :
    SameDict d d'' :=
  ⟨h'.size.trans h.size, h'.bufEnd.trans h.bufEnd, h'.sizeMax.trans h.sizeMax,
    h'.allocated.trans h.allocated, fun i hi => (h'.frame i (h.bufEnd ▸ hi)).trans (h.frame i hi)⟩

/-- How much output there may still be at most: every byte of input stands for less than `2 ^ 22`
bytes. -/
def budget (s : Lzma2Dec) (b : XzBuf) : ℕ := 2 ^ 22 * (b.inSize - b.inPos) + s.uncompressed

/-- A part of a call: the bytes `out` are written and paid for out of the budget. -/
structure Moved (s : Lzma2Dec) (b : XzBuf) (s' : Lzma2Dec) (b' : XzBuf) (out : List Byte) :
    Prop where
  written : Written b b' out
  dict : SameDict s.dict s'.dict
  spent : out.length + (b'.inPos - b.inPos) + budget s' b' ≤ budget s b

theorem Moved.trans {s s' s'' : Lzma2Dec} {b b' b'' : XzBuf} {out out' : List Byte}
    (h : Moved s b s' b' out) (h' : Moved s' b' s'' b'' out') :
    Moved s b s'' b'' (out ++ out') where
  written := h.written.trans h'.written
  dict := h.dict.trans h'.dict
  spent := by
    have hspent := h.spent
    have hspent' := h'.spent
    have hin := h.written.inPos_le
    have hin' := h'.written.inPos_le
    rw [List.length_append]
    omega

/-- Input is taken; some of it may pay for a chunk. -/
theorem Moved.skip {F : Source} {size pos : ℕ} {s s' : Lzma2Dec} {b : XzBuf} (hb : Whole F size b)
    (hle : b.inPos ≤ pos) (hsize : pos ≤ size) (hd : SameDict s.dict s'.dict)
    (hspent : s'.uncompressed = s.uncompressed ∨ b.inPos < pos ∧
      s'.uncompressed < s.uncompressed + 2 ^ 21) :
    Moved s b s' { b with inPos := pos } [] where
  written := .skip hle (hsize.trans_eq hb.inSize.symm) hb.outPos_le
  dict := hd
  spent := by
    have hinSize := hb.inSize
    unfold budget
    rw [List.length_nil]
    dsimp only
    omega

theorem Moved.refl {F : Source} {size : ℕ} (s : Lzma2Dec) {b : XzBuf} (hb : Whole F size b) :
    Moved s b s b [] :=
  .skip hb le_rfl hb.inPos_le (.refl _) (.inl rfl)

/-! ## The header of a chunk -/

/-- The decoder while the sizes of the chunk at `pos` are read; `st` is the state with its
dictionary reset done. -/
structure InHeader (s : Lzma2Dec) (st : ChunkState) (control : ℕ) : Prop where
  dict : DictReady s.dict st.core.hist
  needDictReset : s.needDictReset = false ∧ st.needDictReset = false
  tempSize : s.tempSize = 0
  new : 0xC0 ≤ control → s.needProps = false ∧ s.nextSequence = .properties
  old : 0x80 ≤ control → control < 0xC0 → s.needProps = false ∧ st.needProps = false ∧
    s.nextSequence = .lzmaPrepare ∧ LzmaReady s (if 0xA0 ≤ control then st.reset else st)
  copy : control < 0x80 → control ≤ 2 ∧ s.nextSequence = .copy ∧ s.needProps = st.needProps ∧
    (st.needProps = false → LzmaReady s st)

/-- The sizes that have been read. -/
def HeaderFields (F : Source) (s : Lzma2Dec) (b : XzBuf) (control pos : ℕ) : Prop :=
  match s.sequence with
  | .uncompressed1 => 0x80 ≤ control ∧ b.inPos = pos + 1 ∧ s.uncompressed = control % 0x20 * 2 ^ 16
  | .uncompressed2 => 0x80 ≤ control ∧ b.inPos = pos + 2 ∧
      s.uncompressed = control % 0x20 * 2 ^ 16 + byteAt F (pos + 1) * 2 ^ 8
  | .compressed0 =>
    (0x80 ≤ control ∧ b.inPos = pos + 3 ∧ s.uncompressed = chunkSize F control pos) ∨
      (control < 0x80 ∧ b.inPos = pos + 1)
  | .compressed1 =>
      (0x80 ≤ control ∧ b.inPos = pos + 4 ∧ s.uncompressed = chunkSize F control pos ∧
        s.compressed = byteAt F (pos + 3) * 2 ^ 8) ∨
      (control < 0x80 ∧ b.inPos = pos + 2 ∧ s.compressed = byteAt F (pos + 1) * 2 ^ 8)
  | .properties => 0xC0 ≤ control ∧ b.inPos = pos + 5 ∧ s.uncompressed = chunkSize F control pos ∧
      s.compressed = dataSize F pos
  | .lzmaPrepare => 0x80 ≤ control ∧ control < 0xC0 ∧ b.inPos = pos + 5 ∧
      s.uncompressed = chunkSize F control pos ∧ s.compressed = dataSize F pos
  | _ => False

/-! ## Inside of a chunk -/

/-- What is left of a compressed chunk and behind it. -/
def restOfChunk (D : ℕ) (F : Source) (size stop n : ℕ) (c : Core) (r : Reader Prob) : Rest :=
  if stop ≤ size then
    (chunk D F stop n c r).bind fun (c', probs) =>
      prepend (c'.made n) (lzma2 D F size ⟨c', probs, false, false⟩ stop)
  else none

/-- What is left of a chunk that is copied and behind it. -/
def restOfCopy (D : ℕ) (F : Source) (size n : ℕ) (st : ChunkState) (pos : ℕ) : Rest :=
  if pos + n ≤ size then
    prepend (slice F pos n) (lzma2 D F size (st.copied F pos n) (pos + n))
  else none

/-- The states between two passes of the loop of `xz_dec_lzma2_run`, with what is left to come. -/
inductive Lzma2Rel (F : Source) (size : ℕ) (s : Lzma2Dec) (b : XzBuf) : Rest → Prop
  | control (st : ChunkState) (hseq : s.sequence = .control) (hready : Ready s st) :
      Lzma2Rel F size s b (lzma2 s.dict.size F size st b.inPos)
  | header (st0 st : ChunkState) (pos : ℕ) (hlt : pos < size) (hne : byteAt F pos ≠ 0)
      (hstart : st0.startDict (byteAt F pos) = some st) (hheader : InHeader s st (byteAt F pos))
      (hfields : HeaderFields F s b (byteAt F pos) pos) :
      Lzma2Rel F size s b (lzma2 s.dict.size F size st0 pos)
  | lzma (stop : ℕ) (c : Core) (r : Reader Prob) (hseq : s.sequence = .lzmaRun)
      (hchunk : InChunk F stop s b c r) (hstart : s.dict.start = s.dict.pos)
      (hlt : s.dict.pos < s.dict.bufEnd) (hneedDict : s.needDictReset = false)
      (hneedProps : s.needProps = false) (hpos : 0 < s.uncompressed) :
      Lzma2Rel F size s b (restOfChunk s.dict.size F size stop s.uncompressed c r)
  | copy (st : ChunkState) (hseq : s.sequence = .copy) (hneed : st.needDictReset = false)
      (hready : Ready s st) (hpos : 0 < s.compressed) :
      Lzma2Rel F size s b (restOfCopy s.dict.size F size s.compressed st b.inPos)
  | ended (hseq : s.sequence ≠ .lzmaRun) (hend : b.inPos = size) : Lzma2Rel F size s b none

/-- What a pass, or a whole call, has to do when `rest` is what is left to come. -/
def Outcome (F : Source) (size : ℕ) (s : Lzma2Dec) (b : XzBuf) (rest : Rest) :
    XzRet × Lzma2Dec × XzBuf → Prop
  | (.ok, s', b') => ∃ out rest', Lzma2Rel F size s' b' rest' ∧ rest = prepend out rest' ∧
      Moved s b s' b' out ∧ ∀ more stop, rest' = some (more, stop) → more ≠ [] ∧
      b'.outPos = b'.outSize
  | (.streamEnd, s', b') => ∃ out, rest = some (out, b'.inPos) ∧ Moved s b s' b' out ∧
      DictSize s'.dict
  | (.dataError, _, _) => rest = none
  | _ => False

/-- What a pass has to do that is not the last one. -/
def Goes (F : Source) (size : ℕ) (s : Lzma2Dec) (b : XzBuf) (rest : Rest) (s' : Lzma2Dec)
    (b' : XzBuf) : Prop :=
  ∃ out rest', Lzma2Rel F size s' b' rest' ∧ rest = prepend out rest' ∧ Moved s b s' b' out ∧
    (b.inPos < b'.inPos ∨ b.outPos < b'.outPos)

/-- The outcome of a pass. -/
def PassOk (F : Source) (size : ℕ) (s : Lzma2Dec) (b : XzBuf) (rest : Rest) : RunStep → Prop
  | .inl (s', b') => Goes F size s b rest s' b'
  | .inr result => Outcome F size s b rest result

section passes

variable {F : Source} {size : ℕ} {s s1 : Lzma2Dec} {b b1 : XzBuf} {rest rest1 : Rest}
  {out : List Byte}

/-- What has been done before counts. -/
theorem Outcome.after {result : XzRet × Lzma2Dec × XzBuf} (h : Outcome F size s1 b1 rest1 result)
    (hm : Moved s b s1 b1 out) (hrest : rest = prepend out rest1) :
    Outcome F size s b rest result := by
  obtain ⟨ret, s', b'⟩ := result
  cases ret with
  | ok =>
    obtain ⟨out', rest', hrel, hrest', hm', hmore⟩ := h
    exact ⟨out ++ out', rest', hrel, by rw [hrest, hrest', prepend_prepend], hm.trans hm', hmore⟩
  | streamEnd =>
    obtain ⟨out', hrest', hm', hsize⟩ := h
    refine ⟨out ++ out', ?_, hm.trans hm', hsize⟩
    rw [hrest, hrest']
    rfl
  | dataError =>
    obtain rfl : rest1 = none := h
    exact hrest
  | unsupportedCheck => exact h
  | memError => exact h
  | memlimitError => exact h
  | formatError => exact h
  | optionsError => exact h
  | bufError => exact h

theorem PassOk.after {step : RunStep} (h : PassOk F size s1 b1 rest1 step)
    (hm : Moved s b s1 b1 out) (hrest : rest = prepend out rest1) :
    PassOk F size s b rest step := by
  cases step with
  | inl next =>
    obtain ⟨out', rest', hrel, hrest', hm', hprogress⟩ := h
    refine ⟨out ++ out', rest', hrel, by rw [hrest, hrest', prepend_prepend], hm.trans hm', ?_⟩
    have hin := hm.written.inPos_le
    have hout := hm.written.outPos
    omega
  | inr result => exact Outcome.after h hm hrest

end passes

end Xz
end CalvinHook
