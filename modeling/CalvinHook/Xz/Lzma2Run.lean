import CalvinHook.Xz.Lzma2Chunk

/-!
# The LZMA2 decoder and its format

`xzDecLzma2Run_cases` is the correctness of `xz_dec_lzma2_run`: a call writes the next part of the
output, however much room it has got, and a return code other than `XZ_OK` is right about the input.

The passes over a header and over a chunk that is copied come first; every pass takes input or makes
output, which bounds the loop.
-/

namespace CalvinHook
namespace Xz

open RangeCoder (Coded Reader Decoder Source Fair)

/-! ## The header of a chunk -/

section header

variable {F : Source} {size pos control : ℕ} {s : Lzma2Dec} {b : XzBuf} {st0 st : ChunkState}

theorem InHeader.setSizes (h : InHeader s st control) (n m : ℕ) (seq : Lzma2Seq) :
    InHeader { s with uncompressed := n, compressed := m, sequence := seq } st control where
  dict := h.dict
  needDictReset := h.needDictReset
  tempSize := h.tempSize
  new := h.new
  old := fun hlzma hold =>
    let ⟨hneedProps, hneed, hnext, hready⟩ := h.old hlzma hold
    ⟨hneedProps, hneed, hnext, hready.setSizes n m seq⟩
  copy := fun hcopy =>
    let ⟨hle, hnext, hneed, hready⟩ := h.copy hcopy
    ⟨hle, hnext, hneed, fun hprops => (hready hprops).setSizes n m seq⟩

/-- A copied chunk, once its size has been read. -/
theorem lzma2_of_copy (hlt : pos < size) (hne : byteAt F pos ≠ 0) (hcopy : byteAt F pos ≤ 2)
    (hstart : st0.startDict (byteAt F pos) = some st) (D : ℕ) :
    lzma2 D F size st0 pos =
      restOfCopy D F size (byteAt F (pos + 1) * 2 ^ 8 + byteAt F (pos + 2) + 1) st (pos + 3) := by
  rw [lzma2_eq, if_neg (by omega), if_neg hne, anyChunk, hstart, Option.bind_some,
    if_neg (by omega), if_neg (by omega), copyChunk, restOfCopy]
  dsimp only
  split_ifs <;> rfl

/-- The header of a chunk that the input ends in. -/
theorem lzma2_eq_none_of_header (hlt : pos < size) (hne : byteAt F pos ≠ 0)
    (hstart : st0.startDict (byteAt F pos) = some st)
    (hfields : HeaderFields F s b (byteAt F pos) pos)
    (hcopy : byteAt F pos < 0x80 → byteAt F pos ≤ 2) (hend : b.inPos = size) (D : ℕ) :
    lzma2 D F size st0 pos = none := by
  have hle : b.inPos ≤ pos + 5 ∧ (byteAt F pos < 0x80 → b.inPos ≤ pos + 2) := by
    unfold HeaderFields at hfields
    split at hfields
    case h_7 => exact hfields.elim
    all_goals omega
  by_cases hlzma : 0x80 ≤ byteAt F pos
  · rw [lzma2_of_lzma hlt hlzma hstart]
    cases st.startLzma (byteAt F pos) (byteAt F (pos + 5)) with
    | none => rfl
    | some st' =>
      have hdata : pos + 5 ≤ dataPos (byteAt F pos) pos := by
        unfold dataPos
        split_ifs <;> omega
      exact if_neg fun h => by omega
  · rw [lzma2_of_copy hlt hne (hcopy (Nat.not_le.mp hlzma)) hstart]
    exact if_neg (by omega)

/-- A pass that reads one byte of the sizes. -/
theorem goes_header {s' : Lzma2Dec} (hb : Whole F size b) (hin : b.inPos < size) (hlt : pos < size)
    (hne : byteAt F pos ≠ 0) (hstart : st0.startDict (byteAt F pos) = some st)
    (hheader : InHeader s' st (byteAt F pos))
    (hfields : HeaderFields F s' b.skip (byteAt F pos) pos) (hd : SameDict s.dict s'.dict)
    (hspent : s'.uncompressed < s.uncompressed + 2 ^ 21) :
    PassOk F size s b (lzma2 s.dict.size F size st0 pos) (.inl (s', b.skip)) := by
  refine ⟨[], _, .header st0 st pos hlt hne hstart hheader hfields, ?_,
    .skip hb (Nat.le_succ _) hin hd (.inr ⟨Nat.lt_succ_self _, hspent⟩), .inl (Nat.lt_succ_self _)⟩
  rw [prepend_nil, hd.size]

/-- **The header.**  One pass in a state in which a size or the properties are read. -/
theorem header_ok (hb : Whole F size b) (hin : b.inPos < size) (hlt : pos < size)
    (hne : byteAt F pos ≠ 0) (hstart : st0.startDict (byteAt F pos) = some st)
    (hheader : InHeader s st (byteAt F pos)) (hfields : HeaderFields F s b (byteAt F pos) pos) :
    PassOk F size s b (lzma2 s.dict.size F size st0 pos) (lzma2RunStep (s, b)) := by
  have hrun : b.inPos < b.inSize ∨ s.sequence = .lzmaRun := .inl (hb.inSize ▸ hin)
  have hnext : b.skip.inPos = b.inPos + 1 := rfl
  have hbyte := byteAt_lt F b.inPos
  unfold lzma2RunStep
  dsimp only
  rw [if_pos hrun, hb.byte]
  unfold HeaderFields at hfields
  cases hseq : s.sequence <;> rw [hseq] at hfields <;> dsimp only at hfields ⊢
  case uncompressed1 =>
    obtain ⟨hlzma, hpos, huncompressed⟩ := hfields
    refine goes_header hb hin hlt hne hstart (hheader.setSizes _ s.compressed .uncompressed2) ?_
      (.refl _) (by dsimp only; omega)
    refine ⟨hlzma, by omega, ?_⟩
    show s.uncompressed + byteAt F b.inPos * 2 ^ 8 = _
    rw [huncompressed, hpos]
  case uncompressed2 =>
    obtain ⟨hlzma, hpos, huncompressed⟩ := hfields
    refine goes_header hb hin hlt hne hstart (hheader.setSizes _ s.compressed .compressed0) ?_
      (.refl _) (by dsimp only; omega)
    refine .inl ⟨hlzma, by omega, ?_⟩
    show s.uncompressed + byteAt F b.inPos + 1 = chunkSize F (byteAt F pos) pos
    rw [huncompressed, hpos, chunkSize]
  case compressed0 =>
    refine goes_header hb hin hlt hne hstart (hheader.setSizes s.uncompressed _ .compressed1)
      ?_ (.refl _)
      (Nat.lt_add_of_pos_right (Nat.two_pow_pos 21))
    rcases hfields with ⟨hlzma, hpos, huncompressed⟩ | ⟨hcopy, hpos⟩
    · refine .inl ⟨hlzma, by omega, huncompressed, ?_⟩
      rw [hpos]
    · refine .inr ⟨hcopy, by omega, ?_⟩
      rw [hpos]
  case compressed1 =>
    rcases hfields with ⟨hlzma, hpos, huncompressed, hcompressed⟩ | ⟨hcopy, hpos, hcompressed⟩
    · have hdata : s.compressed + byteAt F b.inPos + 1 = dataSize F pos := by
        rw [hcompressed, hpos, dataSize]
      rw [hdata]
      refine goes_header hb hin hlt hne hstart (hheader.setSizes s.uncompressed _ s.nextSequence)
        ?_ (.refl _)
        (Nat.lt_add_of_pos_right (Nat.two_pow_pos 21))
      unfold HeaderFields
      dsimp only
      by_cases hnew : 0xC0 ≤ byteAt F pos
      · rw [(hheader.new hnew).2]
        exact ⟨hnew, by omega, huncompressed, rfl⟩
      · rw [(hheader.old hlzma (Nat.not_le.mp hnew)).2.2.1]
        exact ⟨hlzma, Nat.not_le.mp hnew, by omega, huncompressed, rfl⟩
    · obtain ⟨hle, hnextSeq, hneed, hready⟩ := hheader.copy hcopy
      have hcount : s.compressed + byteAt F b.inPos + 1 =
          byteAt F (pos + 1) * 2 ^ 8 + byteAt F (pos + 2) + 1 := by
        rw [hcompressed, hpos]
      have hpos' : b.skip.inPos = pos + 3 := by omega
      rw [hcount, lzma2_of_copy hlt hne hle hstart, ← hpos']
      refine ⟨[], _, .copy st hnextSeq hheader.needDictReset.2 ?_ (Nat.succ_pos _),
        (prepend_nil _).symm, .skip hb (Nat.le_succ _) hin (.refl _) (.inl rfl),
        .inl (Nat.lt_succ_self _)⟩
      exact ⟨hheader.dict.dictSize, hheader.needDictReset.1.trans hheader.needDictReset.2.symm,
        fun _ => hheader.dict, fun _ => hneed,
        fun _ hprops => (hready hprops).setSizes s.uncompressed _ _, hheader.tempSize⟩
  case properties =>
    obtain ⟨hnew, hpos, huncompressed, hcompressed⟩ := hfields
    have hdata : dataPos (byteAt F pos) pos = b.inPos + 1 := by
      rw [dataPos, if_pos hnew, hpos]
    rw [lzma2_of_lzma hlt (by omega) hstart, hdata, ← hpos, ← huncompressed, ← hcompressed]
    exact stepProperties_ok hheader.dict hheader.tempSize hb hin hheader.needDictReset.1
      (hheader.new hnew).1
      (by rw [huncompressed]; exact Nat.succ_pos _) hnew
  case lzmaPrepare =>
    obtain ⟨hlzma, hold, hpos, huncompressed, hcompressed⟩ := hfields
    obtain ⟨hneedProps, hneed, -, hready⟩ := hheader.old hlzma hold
    have hdata : dataPos (byteAt F pos) pos = b.inPos := by
      rw [dataPos, if_neg (by omega), hpos]
    have hstate : st.startLzma (byteAt F pos) (byteAt F (pos + 5)) =
        some (if 0xA0 ≤ byteAt F pos then st.reset else st) := by
      rw [ChunkState.startLzma, if_neg (by omega), if_neg (by rw [hneed]; exact Bool.false_ne_true)]
      split_ifs <;> rfl
    have hdict : DictReady s.dict (if 0xA0 ≤ byteAt F pos then st.reset else st).core.hist := by
      split_ifs <;> exact hheader.dict
    rw [lzma2_of_lzma hlt hlzma hstart, hstate, hdata, ← huncompressed, ← hcompressed]
    exact stepLzmaPrepare_ok hready hdict hheader.tempSize hb hheader.needDictReset.1 hneedProps
      (fun h => by rw [hseq] at h; cases h) (by rw [huncompressed]; exact Nat.succ_pos _)

/-! ## `SEQ_CONTROL` -/

/-- The second half of `SEQ_CONTROL`, with the dictionary reset done. -/
theorem stepChunkKind_ok {s0 : Lzma2Dec} (hb : Whole F size b) (hin : b.inPos < size)
    (hne : byteAt F b.inPos ≠ 0) (hstart : st0.startDict (byteAt F b.inPos) = some st)
    (hready : Ready s st) (hd : SameDict s0.dict s.dict)
    (hspent : s.uncompressed = s0.uncompressed) :
    PassOk F size s0 b (lzma2 s0.dict.size F size st0 b.inPos)
      (stepChunkKind (byteAt F b.inPos) s b.skip) := by
  have hneedDict := needDictReset_of_startDict hstart
  have hneedDict' : s.needDictReset = false := hready.needDictReset.trans hneedDict
  have hneedProps := hready.needProps hneedDict
  have hdict := hready.dict hneedDict
  have hsize : byteAt F b.inPos % 0x20 * 2 ^ 16 < s0.uncompressed + 2 ^ 21 := by omega
  unfold stepChunkKind
  dsimp only
  by_cases hlzma : 0x80 ≤ byteAt F b.inPos
  · rw [if_pos hlzma]
    by_cases hnew : 0xC0 ≤ byteAt F b.inPos
    · rw [if_pos hnew]
      refine goes_header hb hin hin hne hstart ⟨hdict, ⟨hneedDict', hneedDict⟩, hready.tempSize,
        fun _ => ⟨rfl, rfl⟩, fun _ h => absurd hnew (Nat.not_le.mpr h),
        fun h => absurd hlzma (Nat.not_le.mpr h)⟩ ⟨hlzma, rfl, rfl⟩ hd hsize
    · rw [if_neg hnew]
      cases hneed : st.needProps with
      | true =>
        rw [if_pos (hneedProps.trans hneed)]
        show lzma2 s0.dict.size F size st0 b.inPos = none
        rw [lzma2_of_lzma hin hlzma hstart, ChunkState.startLzma, if_neg hnew, if_pos hneed]
        rfl
      | false =>
        have hneedProps' : s.needProps = false := hneedProps.trans hneed
        have hlz := hready.lzma hneedDict hneed
        rw [if_neg (by rw [hneedProps']; exact Bool.false_ne_true)]
        split_ifs with hreset
        · refine goes_header hb hin hin hne hstart ⟨hdict, ⟨hneedDict', hneedDict⟩, hready.tempSize,
            fun h => absurd h hnew, fun _ _ => ⟨hneedProps', hneed, rfl, ?_⟩,
            fun h => absurd hlzma (Nat.not_le.mpr h)⟩ ⟨hlzma, rfl, rfl⟩ hd hsize
          rw [if_pos hreset]
          exact .reset (congrArg Lzma.reset hlz.lzma) hlz.valid
        · refine goes_header hb hin hin hne hstart ⟨hdict, ⟨hneedDict', hneedDict⟩, hready.tempSize,
            fun h => absurd h hnew, fun _ _ => ⟨hneedProps', hneed, rfl, ?_⟩,
            fun h => absurd hlzma (Nat.not_le.mpr h)⟩ ⟨hlzma, rfl, rfl⟩ hd hsize
          rw [if_neg hreset]
          exact ⟨hlz.lzma, hlz.valid, hlz.len, hlz.rep0, hlz.probs, hlz.fair, hlz.range, hlz.code,
            hlz.initBytesLeft⟩
  · rw [if_neg hlzma]
    by_cases hbad : 2 < byteAt F b.inPos
    · rw [if_pos hbad]
      show lzma2 s0.dict.size F size st0 b.inPos = none
      rw [lzma2_eq, if_neg (by omega), if_neg hne, anyChunk, hstart, Option.bind_some, if_neg hlzma,
        if_pos hbad]
      rfl
    · rw [if_neg hbad]
      refine goes_header hb hin hin hne hstart ⟨hdict, ⟨hneedDict', hneedDict⟩, hready.tempSize,
        fun h => by omega, fun h => absurd h hlzma,
        fun _ => ⟨Nat.not_lt.mp hbad, rfl, hneedProps, fun hprops => ?_⟩⟩ ?_ hd
        (hspent.trans_lt (Nat.lt_add_of_pos_right (Nat.two_pow_pos 21)))
      · have h := hready.lzma hneedDict hprops
        exact ⟨h.lzma, h.valid, h.len, h.rep0, h.probs, h.fair, h.range, h.code, h.initBytesLeft⟩
      · exact .inr ⟨Nat.not_le.mp hlzma, rfl⟩

/-- **`SEQ_CONTROL`.** -/
theorem stepControl_ok (hb : Whole F size b) (hin : b.inPos < size) (hready : Ready s st) :
    PassOk F size s b (lzma2 s.dict.size F size st b.inPos) (stepControl s b) := by
  unfold stepControl
  dsimp only
  rw [hb.byte]
  by_cases hzero : byteAt F b.inPos = 0
  · rw [if_pos hzero]
    refine ⟨[], ?_, .skip hb (Nat.le_succ _) hin (.refl _) (.inl rfl), hready.dictSize⟩
    rw [lzma2_eq, if_neg (by omega), if_pos hzero]
    rfl
  · rw [if_neg hzero]
    by_cases hreset : 0xE0 ≤ byteAt F b.inPos ∨ byteAt F b.inPos = 1
    · rw [if_pos hreset]
      have hstart : st.startDict (byteAt F b.inPos) =
          some { st with
            core := { st.core with hist := [] }, needDictReset := false, needProps := true } :=
        if_pos hreset
      refine stepChunkKind_ok hb hin hzero hstart ?_ ⟨rfl, rfl, rfl, rfl, fun _ _ => rfl⟩ rfl
      exact ⟨hready.dictSize.reset.dictSize, rfl, fun _ => hready.dictSize.reset, fun _ => rfl,
        fun _ h => Bool.noConfusion h, hready.tempSize⟩
    · rw [if_neg hreset]
      cases hneed : st.needDictReset with
      | true =>
        have hneed' := hready.needDictReset.trans hneed
        rw [if_pos hneed']
        show lzma2 s.dict.size F size st b.inPos = none
        rw [lzma2_eq, if_neg (by omega), if_neg hzero, anyChunk, ChunkState.startDict]
        have hreset' : ¬ChunkState.resetsDict (byteAt F b.inPos) := hreset
        rw [if_neg hreset', if_pos hneed]
        rfl
      | false =>
        have hneed' := hready.needDictReset.trans hneed
        have hneed'' : ¬st.needDictReset = true := by rw [hneed]; exact Bool.false_ne_true
        rw [if_neg (by rw [hneed']; exact Bool.false_ne_true)]
        have hstart : st.startDict (byteAt F b.inPos) = some st :=
          (if_neg hreset).trans (if_neg hneed'')
        exact stepChunkKind_ok hb hin hzero hstart hready (.refl _) rfl

end header

/-! ## A chunk that is copied -/

section copy

variable {F : Source} {size n m pos : ℕ} {s : Lzma2Dec} {b b' : XzBuf} {st : ChunkState}
  {d d' : Dictionary}

/-- A part of the chunk is copied, and the rest of it is left. -/
theorem restOfCopy_part (D : ℕ) (F : Source) (size n m : ℕ) (st : ChunkState) (pos : ℕ) :
    restOfCopy D F size (n + m) st pos =
      prepend (slice F pos n) (restOfCopy D F size m (st.copied F pos n) (pos + n)) := by
  unfold restOfCopy
  rw [← Nat.add_assoc]
  split_ifs with hfits
  · rw [prepend_prepend, slice_add, copied_copied]
  · rfl

/-- What `dict_uncompressed` has done when `left` bytes are left of `n`. -/
structure Copied (F : Source) (size : ℕ) (d : Dictionary) (b : XzBuf) (hist : List Byte) (n : ℕ)
    (d' : Dictionary) (b' : XzBuf) (left : ℕ) : Prop where
  le : left ≤ n
  inPos : b'.inPos = b.inPos + (n - left)
  dict : DictReady d' ((slice F b.inPos (n - left)).reverse ++ hist)
  same : SameDict d d'
  full : d.full ≤ d'.full
  written : Written b b' (slice F b.inPos (n - left))

/-- One pass of `dict_uncompressed`. -/
theorem Copied.step {hist : List Byte} {left : ℕ} (hb : Whole F size b)
    (h : Copied F size d b hist n d' b' left) (hleft : 0 < left) (hin : b'.inPos < b'.inSize)
    (hout : b'.outPos < b'.outSize) :
    ∃ d1 b1 left1, Dictionary.uncompressedStep (d', b', left) = .inl (d1, b1, left1) ∧
      left1 < left ∧
      Copied F size d b hist n d1 b1 left1 := by
  have hlt := h.dict.pos_lt
  have hle := h.le
  have hinPos := h.inPos
  have hcount : 0 < d'.copySize b' left ∧ d'.copySize b' left ≤ left ∧
      b'.inPos + d'.copySize b' left ≤ b'.inSize ∧ b'.outPos + d'.copySize b' left ≤ b'.outSize ∧
      d'.pos + d'.copySize b' left ≤ d'.bufEnd := by
    unfold Dictionary.copySize
    omega
  unfold Dictionary.uncompressedStep
  dsimp only
  rw [if_pos ⟨hleft, hin, hout⟩]
  generalize d'.copySize b' left = k at hcount
  obtain ⟨hk, hkleft, hkin, hkout, hkend⟩ := hcount
  have hinput : b'.input = F := h.written.input.trans hb.input
  have hslice : slice F b.inPos (n - (left - k)) =
      slice F b.inPos (n - left) ++ slice F b'.inPos k := by
    rw [hinPos, ← slice_add]
    congr 1
    omega
  have hring := h.dict.holds.ring.store hkend fun i => b'.input (b'.inPos + i)
  have hnewest : Ring.newest (fun i => b'.input (b'.inPos + i)) k ++
      ((slice F b.inPos (n - left)).reverse ++ hist) =
      (slice F b.inPos (n - (left - k))).reverse ++ hist := by
    rw [hslice, List.reverse_append, List.append_assoc, hinput]
    rfl
  rw [hnewest] at hring
  have hfull : (if d'.full < d'.pos + k then d'.pos + k else d'.full) =
      max d'.full (d'.pos + k) := by
    split_ifs <;> omega
  refine ⟨_, _, _, rfl, by omega, ⟨by omega, ?_, ⟨⟨?_, h.dict.holds.size_eq, h.dict.holds.aligned,
    h.dict.holds.bufEnd_lt⟩, rfl, ?_⟩, ?_, ?_, ?_⟩⟩
  · show b'.inPos + k = _
    omega
  · show Ring.Holds _ (if d'.pos + k = d'.bufEnd then 0 else d'.pos + k)
      (if d'.full < d'.pos + k then d'.pos + k else d'.full) d'.bufEnd _
    rw [hfull]
    split_ifs with hend
    · rw [hend] at hring ⊢
      exact hring.wrap
    · exact hring
  · show (if d'.pos + k = d'.bufEnd then 0 else d'.pos + k) < d'.bufEnd
    split_ifs <;> omega
  · refine h.same.trans ⟨rfl, rfl, rfl, rfl, fun i hi => if_neg (by omega)⟩
  · refine h.full.trans ?_
    show d'.full ≤ if d'.full < d'.pos + k then d'.pos + k else d'.full
    split_ifs <;> omega
  · rw [hslice]
    refine h.written.trans ⟨rfl, rfl, rfl, Nat.le_add_right _ _, hkin, ?_, hkout, ?_⟩
    · show b'.outPos + k = b'.outPos + (slice F b'.inPos k).length
      rw [length_slice]
    · show Ring.store b'.out b'.outPos (fun i => b'.input (b'.inPos + i)) k = _
      refine store_eq_writeList (length_slice F _ k) fun i hi => ?_
      rw [slice, List.getElem?_map, List.getElem?_range hi, hinput]
      rfl

/-- **`dict_uncompressed`** stops when all is copied, or the input or the room for output has
ended. -/
theorem uncompressed_cases {hist : List Byte} (hb : Whole F size b) (hd : DictReady d hist)
    (n : ℕ) :
    ∃ d' b' left, d.uncompressed b n = (d', b', left) ∧ Copied F size d b hist n d' b' left ∧
      (left = 0 ∨ b'.inPos = size ∨ b'.outPos = b'.outSize) := by
  have hstart : Copied F size d b hist n d b n := by
    refine ⟨le_rfl, by omega, ?_, .refl d, le_rfl, ?_⟩
    · rw [Nat.sub_self]
      exact hd
    · rw [Nat.sub_self]
      exact ⟨rfl, rfl, rfl, le_rfl, hb.inPos_le.trans_eq hb.inSize.symm, rfl, hb.outPos_le,
        (writeList_nil _ _).symm⟩
  have hloop : ∃ x, Repeat.loop Dictionary.uncompressedStep (n + 1) (d, b, n) = some x ∧
      Copied F size d b hist n x.1 x.2.1 x.2.2 ∧
        (x.2.2 = 0 ∨ x.2.1.inPos = size ∨ x.2.1.outPos = x.2.1.outSize) := by
    refine Repeat.loop_total (I := fun x => Copied F size d b hist n x.1 x.2.1 x.2.2)
      (fun x => x.2.2) ?_ ?_ hstart
      (Nat.lt_succ_self n)
    · rintro ⟨d', b', left⟩ x h heq
      by_cases hgo : 0 < left ∧ b'.inPos < b'.inSize ∧ b'.outPos < b'.outSize
      · obtain ⟨d1, b1, left1, heq1, hlt, h1⟩ := h.step hb hgo.1 hgo.2.1 hgo.2.2
        obtain rfl := Sum.inl.inj (heq.symm.trans heq1)
        exact ⟨h1, hlt⟩
      · rw [Dictionary.uncompressedStep, if_neg hgo] at heq
        cases heq
    · rintro ⟨d', b', left⟩ x h heq
      by_cases hgo : 0 < left ∧ b'.inPos < b'.inSize ∧ b'.outPos < b'.outSize
      · obtain ⟨d1, b1, left1, heq1, -⟩ := h.step hb hgo.1 hgo.2.1 hgo.2.2
        cases heq.symm.trans heq1
      · rw [Dictionary.uncompressedStep, if_neg hgo] at heq
        obtain rfl := Sum.inr.inj heq
        have hw : Whole F size b' := h.written.whole hb
        have hin := hw.inPos_le
        have hsize := hw.inSize
        have hout := hw.outPos_le
        exact ⟨h, by dsimp only; omega⟩
  obtain ⟨⟨d', b', left⟩, heq, hcopied, hend⟩ := hloop
  refine ⟨d', b', left, ?_, hcopied, hend⟩
  rw [Dictionary.uncompressed, heq]
  rfl

theorem Ready.copied {left : ℕ} {seq : Lzma2Seq} (h : Ready s st)
    (hneed : st.needDictReset = false)
    (hcopied : Copied F size s.dict b st.core.hist n d' b' left) :
    Ready { s with dict := d', compressed := left, sequence := seq }
      (st.copied F b.inPos (n - left)) where
  dictSize := hcopied.dict.dictSize
  needDictReset := h.needDictReset
  dict := fun _ => hcopied.dict
  needProps := fun _ => h.needProps hneed
  lzma := fun _ hprops =>
    let hlz := h.lzma hneed hprops
    ⟨hlz.lzma, hlz.valid, hlz.len, fun hstate => (hlz.rep0 hstate).trans_le hcopied.full,
      hlz.probs, hlz.fair, hlz.range, hlz.code, hlz.initBytesLeft⟩
  tempSize := h.tempSize

/-- There is output left as long as something has to be copied. -/
theorem restOfCopy_eq_some {D stop : ℕ} {more : List Byte} (hn : 0 < n)
    (h : restOfCopy D F size n st pos = some (more, stop)) : more ≠ [] ∧ pos + n ≤ size := by
  unfold restOfCopy at h
  split_ifs at h with hfits
  refine ⟨?_, hfits⟩
  obtain ⟨⟨tail, stop1⟩, -, heq⟩ := Option.map_eq_some_iff.mp h
  obtain ⟨rfl, -⟩ := Prod.mk.inj heq
  intro hnil
  have hzero := congrArg List.length hnil
  rw [List.length_append, length_slice, List.length_nil] at hzero
  omega

theorem restOfCopy_zero {D : ℕ} (hle : pos ≤ size) :
    restOfCopy D F size 0 st pos = lzma2 D F size st pos := by
  rw [restOfCopy, Nat.add_zero, if_pos hle]
  exact prepend_nil _

/-- What is copied is paid for by the input. -/
theorem Copied.moved {left : ℕ} {seq : Lzma2Seq} {hist : List Byte} (hb : Whole F size b)
    (h : Copied F size s.dict b hist n d' b' left) :
    Moved s b { s with dict := d', compressed := left, sequence := seq } b'
      (slice F b.inPos (n - left)) where
  written := h.written
  dict := h.same
  spent := by
    have hinPos := h.inPos
    have hinSize := h.written.inSize
    have hle := h.written.inPos_le_size
    have hsize := hb.inSize
    unfold budget
    rw [length_slice]
    dsimp only
    omega

/-- **`SEQ_COPY`.** -/
theorem stepCopy_ok (hb : Whole F size b) (hseq : s.sequence = .copy)
    (hneed : st.needDictReset = false) (hready : Ready s st) (hpos : 0 < s.compressed) :
    PassOk F size s b (restOfCopy s.dict.size F size s.compressed st b.inPos) (stepCopy s b) := by
  obtain ⟨d', b', left, heq, hcopied, hend⟩ :=
    uncompressed_cases hb (hready.dict hneed) s.compressed
  have hle := hcopied.le
  have hinPos := hcopied.inPos
  have hrest : restOfCopy s.dict.size F size s.compressed st b.inPos =
      prepend (slice F b.inPos (s.compressed - left))
        (restOfCopy d'.size F size left (st.copied F b.inPos (s.compressed - left)) b'.inPos) := by
    rw [hcopied.same.size, hinPos, ← restOfCopy_part, Nat.sub_add_cancel hle]
  unfold stepCopy
  rw [heq]
  dsimp only
  split_ifs with hleft
  · refine ⟨_, _, .copy (st.copied F b.inPos (s.compressed - left)) hseq hneed
      (hready.copied hneed hcopied) hleft, hrest, hcopied.moved hb, fun more stop hmore => ?_⟩
    obtain ⟨hne, hfits⟩ := restOfCopy_eq_some hleft hmore
    replace hfits : b'.inPos + left ≤ size := hfits
    exact ⟨hne, by omega⟩
  · obtain rfl : left = 0 := by omega
    rw [restOfCopy_zero (hcopied.written.whole hb).inPos_le] at hrest
    exact ⟨_, _, .control _ rfl (hready.copied hneed hcopied), hrest, hcopied.moved hb,
      .inl (by omega)⟩

end copy

/-! ## Whole calls -/

section run

variable {F : Source} {size : ℕ} {s : Lzma2Dec} {b : XzBuf} {rest : Rest}

/-- The loop ends with the input; then there is nothing left that is valid. -/
theorem exit_ok (hrel : Lzma2Rel F size s b rest) (hb : Whole F size b) (hnone : rest = none) :
    Outcome F size s b rest (.ok, s, b) := by
  refine ⟨[], rest, hrel, (prepend_nil _).symm, .refl s hb, fun more stop hmore => ?_⟩
  rw [hnone] at hmore
  cases hmore

/-- **One pass.** -/
theorem lzma2RunStep_ok (hrel : Lzma2Rel F size s b rest) (hb : Whole F size b) :
    PassOk F size s b rest (lzma2RunStep (s, b)) := by
  have hsize := hb.inSize
  have hle := hb.inPos_le
  have hexit : s.sequence ≠ .lzmaRun → ¬b.inPos < size → rest = none →
      PassOk F size s b rest (lzma2RunStep (s, b)) := by
    intro hseq hend hnone
    have hstop : ¬(b.inPos < b.inSize ∨ s.sequence = .lzmaRun) := not_or_intro (hsize ▸ hend) hseq
    rw [lzma2RunStep, if_neg hstop]
    exact exit_ok hrel hb hnone
  have hgo : b.inPos < size → b.inPos < b.inSize ∨ s.sequence = .lzmaRun :=
    fun h => .inl (hsize ▸ h)
  cases hrel with
  | control st hseq hready =>
    by_cases hin : b.inPos < size
    · unfold lzma2RunStep
      dsimp only
      rw [if_pos (hgo hin), hseq]
      exact stepControl_ok hb hin hready
    · refine hexit (by rw [hseq]; exact Lzma2Seq.noConfusion) hin ?_
      rw [lzma2_eq, if_pos (by omega)]
  | header st0 st pos hlt hne hstart hheader hfields =>
    by_cases hin : b.inPos < size
    · exact header_ok hb hin hlt hne hstart hheader hfields
    · refine hexit (fun hseq => ?_) hin
        (lzma2_eq_none_of_header hlt hne hstart hfields (fun h => (hheader.copy h).1) (by omega) _)
      unfold HeaderFields at hfields
      rw [hseq] at hfields
      exact hfields
  | lzma stop c r hseq hchunk hstart hlt hneedDict hneedProps hpos =>
    unfold lzma2RunStep
    dsimp only
    rw [if_pos (Or.inr hseq), hseq]
    exact stepLzmaRun_ok hb hchunk hseq hstart hlt hneedDict hneedProps hpos
  | copy st hseq hneed hready hpos =>
    by_cases hin : b.inPos < size
    · unfold lzma2RunStep
      dsimp only
      rw [if_pos (hgo hin), hseq]
      exact stepCopy_ok hb hseq hneed hready hpos
    · refine hexit (by rw [hseq]; exact Lzma2Seq.noConfusion) hin ?_
      exact if_neg (by omega)
  | ended hseq hend => exact hexit hseq (by omega) rfl

/-- **`xz_dec_lzma2_run`.**  A call writes the next part of the output.  It returns `XZ_OK` only
when there is no room for more or the input has ended too early, `XZ_STREAM_END` behind the end
marker with all of the output, and `XZ_DATA_ERROR` only for an input that is not valid. -/
theorem xzDecLzma2Run_cases (hrel : Lzma2Rel F size s b rest) (hb : Whole F size b) :
    Outcome F size s b rest (xzDecLzma2Run s b) := by
  have hloop : ∃ result,
      Repeat.loop lzma2RunStep (b.inSize - b.inPos + (b.outSize - b.outPos) + 1) (s, b) =
      some result ∧ Outcome F size s b rest result := by
    refine Repeat.loop_total
      (I := fun x => ∃ out rest', Lzma2Rel F size x.1 x.2 rest' ∧ rest = prepend out rest' ∧
        Moved s b x.1 x.2 out)
      (fun x => x.2.inSize - x.2.inPos + (x.2.outSize - x.2.outPos)) ?_ ?_ ?_ (Nat.lt_succ_self _)
    · rintro ⟨s1, b1⟩ ⟨s2, b2⟩ ⟨out, rest1, hrel1, hrest1, hm⟩ heq
      have hpass : PassOk F size s1 b1 rest1 (lzma2RunStep (s1, b1)) :=
        lzma2RunStep_ok hrel1 (hm.written.whole hb)
      rw [heq] at hpass
      obtain ⟨out', rest2, hrel2, hrest2, hm', hprogress⟩ := hpass
      refine ⟨⟨out ++ out', rest2, hrel2, ?_, hm.trans hm'⟩, ?_⟩
      · rw [hrest1, hrest2, prepend_prepend]
      · have h1 := hm'.written.inSize
        have h2 := hm'.written.outSize
        have h3 := hm'.written.inPos_le
        have h4 := hm'.written.inPos_le_size
        have h5 := hm'.written.outPos
        have h6 := hm'.written.outPos_le
        dsimp only
        omega
    · rintro ⟨s1, b1⟩ result ⟨out, rest1, hrel1, hrest1, hm⟩ heq
      have hpass := lzma2RunStep_ok hrel1 (hm.written.whole hb)
      rw [heq] at hpass
      exact hpass.after hm hrest1
    · exact ⟨[], rest, hrel, (prepend_nil _).symm, .refl s hb⟩
  obtain ⟨result, heq, hresult⟩ := hloop
  rw [xzDecLzma2Run, heq]
  exact hresult

end run

end Xz
end CalvinHook
