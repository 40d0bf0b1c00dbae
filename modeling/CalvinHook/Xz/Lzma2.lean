import CalvinHook.Xz.Lzma

/-!
# The LZMA2 decoder

`struct xz_dec_lzma2` and the rest of `xz_dec_lzma2.c`: `lzma_main`, which decodes symbols into the
dictionary, `lzma2_lzma`, which feeds it from the caller's input or from a small buffer of its own,
and the state machine `xz_dec_lzma2_run` of the chunks.

Where the source returns an error the state it leaves behind is not kept: the stream decoder passes
the error on and is not called again.
-/

namespace CalvinHook
namespace Xz

open RangeCoder (Coded Reader Decoder Source)

/-- `enum xz_ret`. -/
inductive XzRet
  | ok | streamEnd | unsupportedCheck | memError | memlimitError | formatError | optionsError
  | dataError
  | bufError
  deriving DecidableEq, Repr

/-- `enum lzma2_seq`. -/
inductive Lzma2Seq
  | control | uncompressed1 | uncompressed2 | compressed0 | compressed1 | properties | lzmaPrepare
  | lzmaRun
  | copy
  deriving DecidableEq, Repr

/-- `struct xz_dec_lzma2`.  The `reader` is `rc.range`, `rc.code` and `rc.in_pos` with the
probabilities of `lzma`. -/
structure Lzma2Dec where
  reader : Reader Prob
  initBytesLeft : ℕ
  inLimit : ℕ
  dict : Dictionary
  sequence : Lzma2Seq
  nextSequence : Lzma2Seq
  uncompressed : ℕ
  compressed : ℕ
  needDictReset : Bool
  needProps : Bool
  lzma : Lzma
  tempSize : ℕ
  tempBuf : ℕ → Byte

/-- `LZMA_IN_REQUIRED`. -/
def lzmaInRequired : ℕ := 21

/-! ## `lzma_main` -/

/-- The body of the loop of `lzma_main`; none where it returns false. -/
def lzmaIteration (input : Source) (s : Lzma2Dec) : Option Lzma2Dec :=
  match (lzmaSymbol s.lzma s.dict.pos s.dict.get).run input s.reader with
  | (.literal byte lz, reader) =>
    some { s with reader := reader, lzma := lz, dict := s.dict.put byte }
  | (.copy lz, reader) =>
    (s.dict.repeatMatch lz.len lz.rep0).map fun (len, dict) =>
      { s with reader := reader, lzma := { lz with len := len }, dict := dict }

/-- One pass of the loop of `lzma_main`. -/
def lzmaMainStep (input : Source) (s : Lzma2Dec) : Lzma2Dec ⊕ Option Lzma2Dec :=
  if s.dict.hasSpace ∧ s.reader.dec.pos ≤ s.inLimit then
    match lzmaIteration input s with
    | some s' => .inl s'
    | none => .inr none
  else .inr (some s)

/-- What `lzma_main` does before its loop: the rest of a match that did not fit. -/
def pendingRepeat (s : Lzma2Dec) : Lzma2Dec :=
  if s.dict.hasSpace ∧ 0 < s.lzma.len then
    match s.dict.repeatMatch s.lzma.len s.lzma.rep0 with
    | some (len, dict) => { s with lzma := { s.lzma with len := len }, dict := dict }
    | none => s
  else s

/-- `lzma_main` with `rc.in` as its input: every pass writes a byte at least, which bounds their
number. -/
def lzmaMain (input : Source) (s : Lzma2Dec) : Option Lzma2Dec :=
  let s := pendingRepeat s
  ((Repeat.loop (lzmaMainStep input) (s.dict.limit - s.dict.pos + 1) s).getD none).map fun s =>
    { s with reader := s.reader.normalize input }

/-! ## Resets -/

/-- `rc_reset`. -/
def rcReset (s : Lzma2Dec) : Lzma2Dec :=
  { s with
    reader := { s.reader with dec := { s.reader.dec with range := 2 ^ 32 - 1, code := 0 } }
    initBytesLeft := 5 }

/-- `lzma_reset`. -/
def lzmaReset (s : Lzma2Dec) : Lzma2Dec :=
  rcReset { s with
    lzma := { s.lzma with state := .litLit, rep0 := 0, rep1 := 0, rep2 := 0, rep3 := 0, len := 0 }
    reader := { s.reader with probs := fun _ => 2 ^ 11 / 2 } }

/-- `lzma_props`: the loops of the source count off `pb` and `lp`. -/
def lzmaProps (s : Lzma2Dec) (props : ℕ) : Option Lzma2Dec :=
  if (4 * 5 + 4) * 9 + 8 < props then none
  else
    let pb := props / (9 * 5)
    let lp := props % (9 * 5) / 9
    let lc := props % (9 * 5) % 9
    if 4 < lc + lp then none
    else some (lzmaReset { s with
      lzma := { s.lzma with posMask := 2 ^ pb - 1, lc := lc, literalPosMask := 2 ^ lp - 1 } })

/-- The loop of `rc_read_init` for the number of bytes that are left: whether all were read, how
many are left, the code and the position in the input. -/
def readInitLoop (b : XzBuf) : ℕ → ℕ → ℕ → Bool × ℕ × ℕ × ℕ
  | 0, code, pos => (true, 0, code, pos)
  | left + 1, code, pos =>
    if pos = b.inSize then (false, left + 1, code, pos)
    else readInitLoop b left ((code * 2 ^ 8 + (b.input pos).toNat) % 2 ^ 32) (pos + 1)

/-- `rc_read_init`. -/
def rcReadInit (s : Lzma2Dec) (b : XzBuf) : Bool × Lzma2Dec × XzBuf :=
  let (all, left, code, pos) := readInitLoop b s.initBytesLeft s.reader.dec.code b.inPos
  (all,
    { s with
      initBytesLeft := left
      reader := { s.reader with dec := { s.reader.dec with code := code } } },
    { b with inPos := pos })

/-! ## `lzma2_lzma` -/

/-- Decoding from `temp.buf` with `tmp` bytes more of the input in it: the middle of the first part
of `lzma2_lzma`.  The flag tells whether the function returns here. -/
def lzma2FromTemp (s : Lzma2Dec) (b : XzBuf) (tmp : ℕ) : Option (Bool × Lzma2Dec × XzBuf) :=
  match lzmaMain s.tempBuf { s with reader := s.reader.moveTo 0 } with
  | none => none
  | some s' =>
    let inPos := s'.reader.dec.pos
    if s.tempSize + tmp < inPos then none
    else
      let s' := { s' with compressed := s'.compressed - inPos }
      if inPos < s'.tempSize then
        some (true, { s' with
          tempSize := s'.tempSize - inPos
          tempBuf :=
            Ring.store s'.tempBuf 0 (fun i => s'.tempBuf (inPos + i)) (s'.tempSize - inPos) }, b)
      else some (false, { s' with tempSize := 0 },
        { b with inPos := b.inPos + (inPos - s'.tempSize) })

/-- How much of the input the first part of `lzma2_lzma` adds to `temp.buf`. -/
def lzma2Tmp (s : Lzma2Dec) (b : XzBuf) : ℕ :=
  min (min (2 * lzmaInRequired - s.tempSize) (s.compressed - s.tempSize)) (b.inSize - b.inPos)

/-- The first part of `lzma2_lzma`: decode what is left in `temp.buf`. -/
def lzma2Temp (s : Lzma2Dec) (b : XzBuf) : Option (Bool × Lzma2Dec × XzBuf) :=
  if 0 < s.tempSize ∨ s.compressed = 0 then
    let tmp := lzma2Tmp s b
    let buf := Ring.store s.tempBuf s.tempSize (fun i => b.input (b.inPos + i)) tmp
    if s.tempSize + tmp = s.compressed then
      let buf := Ring.store buf (s.tempSize + tmp) (fun _ => 0)
        (3 * lzmaInRequired - s.tempSize - tmp)
      lzma2FromTemp { s with tempBuf := buf, inLimit := s.tempSize + tmp } b tmp
    else if s.tempSize + tmp < lzmaInRequired then
      some (true, { s with tempBuf := buf, tempSize := s.tempSize + tmp },
        { b with inPos := b.inPos + tmp })
    else lzma2FromTemp { s with tempBuf := buf, inLimit := s.tempSize + tmp - lzmaInRequired } b tmp
  else some (false, s, b)

/-- The second part of `lzma2_lzma`: decode from the caller's input. -/
def lzma2Direct (s : Lzma2Dec) (b : XzBuf) : Option (Lzma2Dec × XzBuf) :=
  let inAvail := b.inSize - b.inPos
  if lzmaInRequired ≤ inAvail then
    let inLimit :=
      if s.compressed + lzmaInRequired ≤ inAvail then b.inPos + s.compressed
      else b.inSize - lzmaInRequired
    match lzmaMain b.input
      { s with reader := s.reader.moveTo b.inPos, inLimit := inLimit } with
    | none => none
    | some s' =>
      let inAvail := s'.reader.dec.pos - b.inPos
      if s'.compressed < inAvail then none
      else some ({ s' with compressed := s'.compressed - inAvail },
        { b with inPos := s'.reader.dec.pos })
  else some (s, b)

/-- The third part of `lzma2_lzma`: keep the last bytes of the input in `temp.buf`. -/
def lzma2Refill (s : Lzma2Dec) (b : XzBuf) : Lzma2Dec × XzBuf :=
  if b.inSize - b.inPos < lzmaInRequired then
    let inAvail := min (b.inSize - b.inPos) s.compressed
    ({ s with
        tempBuf := Ring.store s.tempBuf 0 (fun i => b.input (b.inPos + i)) inAvail
        tempSize := inAvail },
      { b with inPos := b.inPos + inAvail })
  else (s, b)

/-- `lzma2_lzma`; none where it returns false. -/
def lzma2Lzma (s : Lzma2Dec) (b : XzBuf) : Option (Lzma2Dec × XzBuf) :=
  match lzma2Temp s b with
  | none => none
  | some (true, s, b) => some (s, b)
  | some (false, s, b) => (lzma2Direct s b).map fun (s, b) => lzma2Refill s b

/-! ## `xz_dec_lzma2_run` -/

/-- The outcome of one pass of the loop of `xz_dec_lzma2_run`. -/
abbrev RunStep := (Lzma2Dec × XzBuf) ⊕ (XzRet × Lzma2Dec × XzBuf)

/-- The next byte of the input. -/
def XzBuf.byte (b : XzBuf) : ℕ := (b.input b.inPos).toNat

/-- The input without its next byte. -/
def XzBuf.skip (b : XzBuf) : XzBuf := { b with inPos := b.inPos + 1 }

/-- The second half of `SEQ_CONTROL`: what kind of chunk it is. -/
def stepChunkKind (tmp : ℕ) (s : Lzma2Dec) (b : XzBuf) : RunStep :=
  if 0x80 ≤ tmp then
    let s := { s with uncompressed := tmp % 0x20 * 2 ^ 16, sequence := .uncompressed1 }
    if 0xC0 ≤ tmp then .inl ({ s with needProps := false, nextSequence := .properties }, b)
    else if s.needProps then .inr (.dataError, s, b)
    else
      let s := { s with nextSequence := .lzmaPrepare }
      .inl (if 0xA0 ≤ tmp then lzmaReset s else s, b)
  else if 2 < tmp then .inr (.dataError, s, b)
  else .inl ({ s with sequence := .compressed0, nextSequence := .copy }, b)

/-- `SEQ_CONTROL`. -/
def stepControl (s : Lzma2Dec) (b : XzBuf) : RunStep :=
  let tmp := b.byte
  let b := b.skip
  if tmp = 0 then .inr (.streamEnd, s, b)
  else if 0xE0 ≤ tmp ∨ tmp = 1 then
    stepChunkKind tmp { s with needProps := true, needDictReset := false, dict := s.dict.reset } b
  else if s.needDictReset then .inr (.dataError, s, b)
  else stepChunkKind tmp s b

/-- `SEQ_LZMA_RUN`. -/
def stepLzmaRun (s : Lzma2Dec) (b : XzBuf) : RunStep :=
  let s := { s with dict := s.dict.setLimit (min (b.outSize - b.outPos) s.uncompressed) }
  match lzma2Lzma s b with
  | none => .inr (.dataError, s, b)
  | some (s, b) =>
    let (flushed, dict, b) := s.dict.flush b
    let s := { s with dict := dict, uncompressed := s.uncompressed - flushed }
    if s.uncompressed = 0 then
      if 0 < s.compressed ∨ 0 < s.lzma.len ∨ s.reader.dec.code ≠ 0 then .inr (.dataError, s, b)
      else .inl ({ rcReset s with sequence := .control }, b)
    else if b.outPos = b.outSize ∨ (b.inPos = b.inSize ∧ s.tempSize < s.compressed) then
      .inr (.ok, s, b)
    else .inl (s, b)

/-- `SEQ_LZMA_PREPARE`, which goes on to `SEQ_LZMA_RUN`. -/
def stepLzmaPrepare (s : Lzma2Dec) (b : XzBuf) : RunStep :=
  if s.compressed < 5 then .inr (.dataError, s, b)
  else
    match rcReadInit s b with
    | (false, s, b) => .inr (.ok, s, b)
    | (true, s, b) => stepLzmaRun { s with compressed := s.compressed - 5, sequence := .lzmaRun } b

/-- `SEQ_PROPERTIES`, which goes on to `SEQ_LZMA_PREPARE`. -/
def stepProperties (s : Lzma2Dec) (b : XzBuf) : RunStep :=
  match lzmaProps s b.byte with
  | none => .inr (.dataError, s, b.skip)
  | some s => stepLzmaPrepare { s with sequence := .lzmaPrepare } b.skip

/-- `SEQ_COPY`. -/
def stepCopy (s : Lzma2Dec) (b : XzBuf) : RunStep :=
  let (dict, b, left) := s.dict.uncompressed b s.compressed
  let s := { s with dict := dict, compressed := left }
  if 0 < left then .inr (.ok, s, b) else .inl ({ s with sequence := .control }, b)

/-- One pass of the loop of `xz_dec_lzma2_run`. -/
def lzma2RunStep (sb : Lzma2Dec × XzBuf) : RunStep :=
  let (s, b) := sb
  if b.inPos < b.inSize ∨ s.sequence = .lzmaRun then
    match s.sequence with
    | .control => stepControl s b
    | .uncompressed1 =>
      .inl ({ s with uncompressed := s.uncompressed + b.byte * 2 ^ 8, sequence := .uncompressed2 },
        b.skip)
    | .uncompressed2 =>
      .inl ({ s with uncompressed := s.uncompressed + b.byte + 1, sequence := .compressed0 },
        b.skip)
    | .compressed0 =>
      .inl ({ s with compressed := b.byte * 2 ^ 8, sequence := .compressed1 }, b.skip)
    | .compressed1 =>
      .inl ({ s with compressed := s.compressed + b.byte + 1, sequence := s.nextSequence }, b.skip)
    | .properties => stepProperties s b
    | .lzmaPrepare => stepLzmaPrepare s b
    | .lzmaRun => stepLzmaRun s b
    | .copy => stepCopy s b
  else .inr (.ok, s, b)

/-- `xz_dec_lzma2_run`: every pass takes input or makes output, which bounds their number. -/
def xzDecLzma2Run (s : Lzma2Dec) (b : XzBuf) : XzRet × Lzma2Dec × XzBuf :=
  (Repeat.loop lzma2RunStep (b.inSize - b.inPos + (b.outSize - b.outPos) + 1) (s, b)).getD (.ok, s,
    b)

/-- `xz_dec_lzma2_create` with `XZ_DYNALLOC`: everything is zero, and there is no dictionary yet. -/
def xzDecLzma2Create (dictMax : ℕ) : Lzma2Dec where
  reader := ⟨fun _ => 0, 0, 0, 0⟩
  initBytesLeft := 0
  inLimit := 0
  dict := ⟨fun _ => 0, 0, 0, 0, 0, 0, 0, dictMax, 0⟩
  sequence := .control
  nextSequence := .control
  uncompressed := 0
  compressed := 0
  needDictReset := false
  needProps := false
  lzma := ⟨0, 0, 0, 0, .litLit, 0, 0, 0, 0⟩
  tempSize := 0
  tempBuf := fun _ => 0

/-- `xz_dec_lzma2_reset` with `XZ_DYNALLOC`; `vmalloc` tells which allocations succeed, and what a
new block holds. -/
def xzDecLzma2Reset (vmalloc : ℕ → Option (ℕ → Byte)) (s : Lzma2Dec) (props : ℕ) :
    XzRet × Lzma2Dec :=
  if 39 < props then (.optionsError, s)
  else
    let size := (2 + props % 2) * 2 ^ (props / 2 + 11)
    if s.dict.sizeMax < size then (.memlimitError, { s with dict := { s.dict with size := size } })
    else
      let dict := { s.dict with size := size, bufEnd := size }
      let ready := fun dict => ({ s with
        dict := dict, sequence := .control, needDictReset := true, tempSize := 0 } : Lzma2Dec)
      if dict.allocated < size then
        match vmalloc size with
        | some buf => (.ok, ready { dict with buf := buf, allocated := size })
        | none => (.memError, { s with dict := { dict with allocated := 0 } })
      else (.ok, ready dict)

end Xz
end CalvinHook
