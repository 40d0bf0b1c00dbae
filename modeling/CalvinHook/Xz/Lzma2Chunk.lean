import CalvinHook.Xz.Lzma2Rel

/-!
# Compressed chunks in the LZMA2 decoder

The passes of `xz_dec_lzma2_run` from the properties of a compressed chunk to its end.

* `stepLzmaRun_ok`: a part of the chunk goes to the output, or the chunk is over.
* `stepLzmaPrepare_ok`, `stepProperties_ok`: the range coder starts, with new properties or without.
-/

namespace CalvinHook
namespace Xz

open RangeCoder (Coded Reader Decoder Source Fair)

/-! ## `SEQ_LZMA_RUN` -/

section lzmaRun

variable {F : Source} {size stop n k : ℕ} {s s' : Lzma2Dec} {b b' : XzBuf} {c c' : Core}
  {r r' : Reader Prob}

theorem setLimit_bounds {d : Dictionary} {m : ℕ} (h : d.pos < d.bufEnd) :
    (d.setLimit m).limit ≤ d.bufEnd ∧ (d.setLimit m).limit - d.pos ≤ m ∧
      (0 < m → (d.setLimit m).hasSpace) := by
  unfold Dictionary.hasSpace Dictionary.setLimit
  dsimp only
  split_ifs <;> omega

theorem InChunk.setLimit (h : InChunk F stop s b c r) (m : ℕ) :
    InChunk F stop { s with dict := s.dict.setLimit m } b c r :=
  { h with sim := ⟨⟨h.sim.dict.ring, h.sim.dict.size_eq, h.sim.dict.aligned, h.sim.dict.bufEnd_lt⟩,
    h.sim.lzma,
      h.sim.valid, h.sim.rep0⟩ }

/-- The dictionary after `dict_flush`. -/
theorem DictReady.flush {d : Dictionary} {hist : List Byte} (h : d.Holds hist) (b : XzBuf) :
    DictReady (d.flush b).2.1 hist where
  holds := by
    refine ⟨?_, h.size_eq, h.aligned, h.bufEnd_lt⟩
    show Ring.Holds d.buf (if d.pos = d.bufEnd then 0 else d.pos) d.full d.bufEnd hist
    split_ifs with hend
    · have hring := h.ring
      rw [hend] at hring
      exact hring.wrap
    · exact h.ring
  start := rfl
  pos_lt := by
    have hpos := h.ring.pos_le
    have hcap := h.ring.cap_pos
    show (if d.pos = d.bufEnd then 0 else d.pos) < d.bufEnd
    split_ifs <;> omega

/-- What `dict_flush` writes is what was made. -/
theorem written_flush {d d' : Dictionary} (h : d'.Holds c.hist) (hgrown : d.Grown d' k)
    (hstart : d.start = d.pos) (hin : b.inPos ≤ b.inSize) (hout : b.outPos + k ≤ b.outSize) :
    (d'.flush b).1 = k ∧ Written b (d'.flush b).2.2 (c.made k) := by
  have hsize : d'.pos - d'.start = k := by
    rw [hgrown.start, hgrown.pos, hstart, Nat.add_sub_cancel_left]
  have hring := h.ring
  rw [hgrown.pos] at hring
  have hlength : (c.made k).length = k := by
    have hpos := hring.pos_le_full
    have hfull := hring.full_eq
    rw [Core.made, List.length_reverse, List.length_take]
    omega
  refine ⟨hsize, ⟨rfl, rfl, rfl, le_rfl, hin, ?_, ?_, ?_⟩⟩
  · show b.outPos + (d'.pos - d'.start) = b.outPos + (c.made k).length
    rw [hsize, hlength]
  · show b.outPos + (d'.pos - d'.start) ≤ b.outSize
    rwa [hsize]
  · show Ring.store b.out b.outPos (fun i => d'.buf (d'.start + i)) (d'.pos - d'.start) = _
    rw [hsize, hgrown.start, hstart]
    exact store_eq_writeList hlength fun i hi => hring.get_newest hi

/-- A part of the chunk is made, and the rest of it is left. -/
theorem restOfChunk_part {D m : ℕ} (hr : r.Sound) (h : (c.produce D k).finish F r = (some c', r')) :
    restOfChunk D F size stop (k + m) c r =
      prepend (c'.made k) (restOfChunk D F size stop m c' r') := by
  unfold restOfChunk
  split_ifs with hstop
  · rw [chunk_add hr h]
    cases hchunk : chunk D F stop m c' r' with
    | none => rfl
    | some result =>
      obtain ⟨c'', probs⟩ := result
      have hmade : c''.made (k + m) = c'.made k ++ c''.made m := Core.made_add (run_of_chunk hchunk)
      show prepend (c''.made (k + m)) _ = prepend (c'.made k) (prepend (c''.made m) _)
      rw [prepend_prepend, hmade]
  · rfl

/-- There is output left as long as the chunk is not done. -/
theorem ne_nil_of_restOfChunk {D stop' : ℕ} {more : List Byte} (hn : 0 < n)
    (h : restOfChunk D F size stop n c r = some (more, stop')) : more ≠ [] := by
  unfold restOfChunk at h
  split_ifs at h with hstop
  obtain ⟨⟨c1, probs⟩, hchunk, h⟩ := Option.bind_eq_some_iff.mp h
  obtain ⟨⟨tail, stop1⟩, -, heq⟩ := Option.map_eq_some_iff.mp h
  have hlength := Core.length_made (run_of_chunk hchunk)
  obtain ⟨rfl, -⟩ := Prod.mk.inj heq
  intro hnil
  have hzero := congrArg List.length hnil
  rw [List.length_append, hlength, List.length_nil] at hzero
  omega

/-- The end of a chunk. -/
theorem restOfChunk_zero {D : ℕ} (hrange : 2 ^ 24 ≤ r.dec.range) :
    restOfChunk D F size stop 0 c r =
      if stop ≤ size ∧ r.dec.pos = stop ∧ c.lzma.len = 0 ∧ r.dec.code = 0 then
        lzma2 D F size ⟨c, r.probs, false, false⟩ stop
      else none := by
  unfold restOfChunk chunk
  rw [Core.produce, Coded.finish_done, Reader.normalize_of_le F hrange]
  by_cases hstop : stop ≤ size
  · rw [if_pos hstop]
    by_cases hend : r.dec.pos = stop ∧ c.lzma.len = 0 ∧ r.dec.code = 0
    · dsimp only
      rw [if_pos hend, if_pos ⟨hstop, hend⟩]
      exact prepend_nil _
    · dsimp only
      rw [if_neg hend, if_neg fun h => hend h.2]
      rfl
  · rw [if_neg hstop, if_neg fun h => hstop h.1]

theorem InChunk.flush (h : InChunk F stop s b c r) (n : ℕ) :
    InChunk F stop { s with dict := (s.dict.flush b).2.1, uncompressed := n }
      (s.dict.flush b).2.2 c r :=
  { h with sim := ⟨(DictReady.flush h.sim.dict b).holds, h.sim.lzma, h.sim.valid, h.sim.rep0⟩ }

/-- The next chunk after a compressed one. -/
theorem InChunk.ready (h : InChunk F stop s b c r) (hdict : DictReady s.dict c.hist)
    (hneedDict : s.needDictReset = false) (hneedProps : s.needProps = false)
    (hcompressed : s.compressed = 0) (hlen : s.lzma.len = 0) (seq : Lzma2Seq) :
    Ready { rcReset s with sequence := seq } ⟨c, r.probs, false, false⟩ where
  dictSize := hdict.dictSize
  needDictReset := hneedDict
  dict := fun _ => hdict
  needProps := fun _ => hneedProps
  lzma := fun _ _ =>
    { lzma := h.sim.lzma
      valid := h.sim.valid
      len := h.sim.lzma ▸ hlen
      rep0 := fun hstate => h.sim.rep0 (.inr hstate)
      probs := by
        show s.reader.probs = r.probs
        rw [h.reader]
        rfl
      fair := h.sound.fair
      range := rfl
      code := rfl
      initBytesLeft := rfl }
  tempSize := Nat.le_zero.mp (hcompressed ▸ h.temp_le)

theorem SameDict.flush {d d' : Dictionary} (h : d.Grown d' k) (hend : d.pos + k ≤ d.bufEnd)
    (b : XzBuf) :
    SameDict d (d'.flush b).2.1 :=
  ⟨h.size, h.bufEnd, h.sizeMax, h.allocated, fun i hi => h.frame i (.inr (hend.trans hi))⟩

/-- What `SEQ_LZMA_RUN` does after a part of the chunk has been flushed. -/
theorem InChunk.afterFlush_ok {rest : Rest} {out : List Byte} (h : InChunk F stop s' b' c r)
    (hdict : DictReady s'.dict c.hist) (hseq : s'.sequence = .lzmaRun)
    (hneedDict : s'.needDictReset = false) (hneedProps : s'.needProps = false)
    (hb : Whole F size b') (hm : Moved s b s' b' out)
    (hrest : rest = prepend out (restOfChunk s'.dict.size F size stop s'.uncompressed c r))
    (hdone : s'.uncompressed = 0 → b.outPos < b'.outPos)
    (hprogress : b'.outPos ≠ b'.outSize → ¬(b'.inPos = b'.inSize ∧ s'.tempSize < s'.compressed) →
      b.inPos < b'.inPos ∨ b.outPos < b'.outPos) :
    PassOk F size s b rest
      (if s'.uncompressed = 0 then
        if 0 < s'.compressed ∨ 0 < s'.lzma.len ∨ s'.reader.dec.code ≠ 0 then
          .inr (.dataError, s', b')
        else .inl ({ rcReset s' with sequence := .control }, b')
      else if b'.outPos = b'.outSize ∨ (b'.inPos = b'.inSize ∧ s'.tempSize < s'.compressed) then
        .inr (.ok, s', b')
      else .inl (s', b')) := by
  have hstop := h.stop
  have hpos := h.pos
  have hsize := hb.inSize
  have hinPos := hb.inPos_le
  have hcode : s'.reader.dec.code = r.dec.code := by
    rw [h.reader]
    rfl
  by_cases hzero : s'.uncompressed = 0
  · rw [if_pos hzero]
    rw [hzero, restOfChunk_zero h.range_ge] at hrest
    split_ifs with hbad
    · have hnot : ¬(stop ≤ size ∧ r.dec.pos = stop ∧ c.lzma.len = 0 ∧ r.dec.code = 0) := by
        rw [h.sim.lzma, hcode] at hbad
        omega
      rw [if_neg hnot] at hrest
      exact hrest
    · have htemp := h.temp_le
      have hgood : stop ≤ size ∧ r.dec.pos = stop ∧ c.lzma.len = 0 ∧ r.dec.code = 0 := by
        rw [h.sim.lzma, hcode] at hbad
        omega
      have hready := h.ready hdict hneedDict hneedProps (by omega) (by omega) .control
      have hend : stop = b'.inPos := by omega
      rw [if_pos hgood, hend] at hrest
      exact ⟨out, _, .control _ rfl hready, hrest, ⟨hm.written, hm.dict, hm.spent⟩,
        .inr (hdone hzero)⟩
  · have hrel : Lzma2Rel F size s' b' (restOfChunk s'.dict.size F size stop s'.uncompressed c r) :=
      .lzma stop c r hseq h hdict.start hdict.pos_lt hneedDict hneedProps (Nat.pos_of_ne_zero hzero)
    rw [if_neg hzero]
    split_ifs with hstuck
    · refine ⟨out, _, hrel, hrest, hm, fun more stop' hmore => ?_⟩
      refine ⟨ne_nil_of_restOfChunk (Nat.pos_of_ne_zero hzero) hmore,
        hstuck.resolve_right fun hend => ?_⟩
      -- the input has ended before the compressed data
      unfold restOfChunk at hmore
      rw [if_neg (by omega)] at hmore
      cases hmore
    · exact ⟨out, _, hrel, hrest, hm, hprogress (fun h => hstuck (.inl h)) fun h => hstuck (.inr h)⟩

/-- `lzma2_lzma` writes to the dictionary only. -/
theorem Part.written (h : Part F stop s b c r k s' b' c' r') (hout : b.outPos ≤ b.outSize) :
    Written b b' [] := by
  have hinPos := h.inChunk.inPos_le
  rw [h.buf] at hinPos
  refine ⟨?_, ?_, ?_, h.inPos_le, hinPos, ?_, ?_, ?_⟩
  all_goals rw [h.buf]
  · rfl
  · exact hout
  · exact (writeList_nil _ _).symm

/-- **`SEQ_LZMA_RUN`.** -/
theorem stepLzmaRun_ok (hb : Whole F size b) (hchunk : InChunk F stop s b c r)
    (hseq : s.sequence = .lzmaRun) (hstart : s.dict.start = s.dict.pos)
    (hlt : s.dict.pos < s.dict.bufEnd) (hneedDict : s.needDictReset = false)
    (hneedProps : s.needProps = false) (hpos : 0 < s.uncompressed) :
    PassOk F size s b (restOfChunk s.dict.size F size stop s.uncompressed c r)
      (stepLzmaRun s b) := by
  obtain ⟨hlimit, hroom, hspace⟩ :=
    setLimit_bounds (m := min (b.outSize - b.outPos) s.uncompressed) hlt
  have houtPos := hb.outPos_le
  unfold stepLzmaRun
  dsimp only
  rcases (hchunk.setLimit (min (b.outSize - b.outPos) s.uncompressed)).lzma2Lzma_cases hlimit with
    ⟨k, s', b', c', r', heq, hpart, hprogress⟩ | ⟨heq, hinvalid⟩
  · rw [heq]
    have hk : k ≤ min (b.outSize - b.outPos) s.uncompressed := hpart.le.trans hroom
    have hb' := hpart.written houtPos
    have huncompressed : s'.uncompressed = s.uncompressed := by rw [hpart.rest]
    have houtPos' := hb'.outPos
    have houtSize' := hb'.outSize
    have hinSize' := hb'.inSize
    obtain ⟨hflushed, hwritten⟩ := written_flush hpart.inChunk.sim.dict hpart.dict hstart
      hpart.inChunk.inPos_le (by rw [houtPos', houtSize', List.length_nil]; omega)
    have hw := hb'.trans hwritten
    have hrest : restOfChunk s.dict.size F size stop s.uncompressed c r =
        prepend (c'.made k) (restOfChunk s.dict.size F size stop (s.uncompressed - k) c' r') := by
      have hfinish : (c.produce s.dict.size k).finish F r = (some c', r') := hpart.finish
      obtain ⟨m, hm⟩ : ∃ m, s.uncompressed = k + m := ⟨s.uncompressed - k, by omega⟩
      rw [hm, restOfChunk_part hchunk.sound hfinish, Nat.add_sub_cancel_left]
    have hd : SameDict s.dict (s'.dict.flush b').2.1 := by
      have hroom' : k ≤ (s.dict.setLimit
          (min (b.outSize - b.outPos) s.uncompressed)).limit - s.dict.pos := hpart.le
      have hsame := SameDict.flush hpart.dict (show s.dict.pos + k ≤ s.dict.bufEnd by omega) b'
      exact ⟨hsame.size, hsame.bufEnd, hsame.sizeMax, hsame.allocated, hsame.frame⟩
    have hsize : (s'.dict.flush b').2.1.size = s.dict.size := hd.size
    have hlength := hwritten.outPos
    have hmade : (c'.made k).length = k := Core.length_made (congrArg Prod.fst hpart.finish)
    refine (hpart.inChunk.flush _).afterFlush_ok (DictReady.flush hpart.inChunk.sim.dict b')
      ?_ ?_ ?_ (hw.whole hb) ⟨hw, hd, ?_⟩ ?_ ?_ ?_
    · show s'.sequence = .lzmaRun
      rw [hpart.rest]
      exact hseq
    · show s'.needDictReset = false
      rw [hpart.rest]
      exact hneedDict
    · show s'.needProps = false
      rw [hpart.rest]
      exact hneedProps
    · have hin := hb'.inPos_le
      have hin' := hwritten.inPos_le
      have hinSize'' := hwritten.inSize
      show ([] ++ c'.made k).length + ((s'.dict.flush b').2.2.inPos - b.inPos) +
        (2 ^ 22 * ((s'.dict.flush b').2.2.inSize - (s'.dict.flush b').2.2.inPos) +
          (s'.uncompressed - (s'.dict.flush b').1)) ≤ 2 ^ 22 * (b.inSize - b.inPos) + s.uncompressed
      rw [List.nil_append]
      have hle := hw.inPos_le_size
      omega
    · rw [hrest, hflushed, huncompressed]
      show _ = prepend ([] ++ c'.made k)
        (restOfChunk (s'.dict.flush b').2.1.size F size stop _ c' r')
      rw [hsize, List.nil_append]
    · intro hzero
      replace hzero : s'.uncompressed - (s'.dict.flush b').1 = 0 := hzero
      omega
    · intro hout hin
      have houtSize := hwritten.outSize
      have hle := hwritten.outPos_le
      have hmore : 0 < min (b.outSize - b.outPos) s.uncompressed := by
        by_contra hfull
        exact hout (by omega)
      rcases hprogress (hspace hmore) with hk' | hin' | hstuck
      · exact .inr (by omega)
      · exact .inl hin'
      · rw [← hinSize'] at hstuck
        exact absurd hstuck hin
  · rw [heq]
    have hnone : chunk s.dict.size F stop s.uncompressed c r = none :=
      hinvalid s.uncompressed (hroom.trans (Nat.min_le_right _ _))
    show restOfChunk s.dict.size F size stop s.uncompressed c r = none
    unfold restOfChunk
    rw [hnone]
    exact ite_self none

end lzmaRun

/-! ## The start of a compressed chunk -/

section prepare

variable {F : Source} {size pos control : ℕ} {s : Lzma2Dec} {b : XzBuf} {st0 st st' : ChunkState}

theorem readInitLoop_all {left code pos : ℕ} (hcode : code < 2 ^ 32) (h : pos + left ≤ b.inSize) :
    readInitLoop b left code pos =
      (true, 0, (code * 2 ^ (8 * left) + RangeCoder.value b.input pos left) % 2 ^ 32,
        pos + left) := by
  induction left generalizing code pos with
  | zero =>
    rw [readInitLoop, Nat.mul_zero, pow_zero, Nat.mul_one, RangeCoder.value, Nat.add_zero,
      Nat.mod_eq_of_lt hcode, Nat.add_zero]
  | succ left ih =>
    have hne : pos ≠ b.inSize := by omega
    rw [readInitLoop, if_neg hne, ih (Nat.mod_lt _ (by norm_num)) (by omega), RangeCoder.value_cons,
      Nat.mul_succ, pow_add, Nat.add_right_comm pos 1 left, ← Nat.add_assoc pos left 1]
    congr 3
    conv_lhs => rw [Nat.add_mod, Nat.mul_mod, Nat.mod_mod, ← Nat.mul_mod, ← Nat.add_mod]
    congr 1
    ring

theorem readInitLoop_some {left code pos : ℕ} (hpos : pos ≤ b.inSize) (h : b.inSize < pos + left) :
    ∃ left' code', readInitLoop b left code pos = (false, left', code', b.inSize) := by
  induction left generalizing code pos with
  | zero => omega
  | succ left ih =>
    rw [readInitLoop]
    split_ifs with hend
    · exact ⟨left + 1, code, by rw [hend]⟩
    · exact ih (by omega) (by omega)

/-- `rc_read_init` reads five bytes; the first of them is lost. -/
theorem rcReadInit_all (hcode : s.reader.dec.code = 0) (hleft : s.initBytesLeft = 5)
    (h : b.inPos + 5 ≤ b.inSize) :
    rcReadInit s b =
      (true, { s with
        initBytesLeft := 0
        reader := { s.reader with
          dec := { s.reader.dec with code := RangeCoder.value b.input (b.inPos + 1) 4 } } },
        { b with inPos := b.inPos + 5 }) := by
  have hvalue : (0 * 2 ^ (8 * 5) + RangeCoder.value b.input b.inPos 5) % 2 ^ 32 =
      RangeCoder.value b.input (b.inPos + 1) 4 := by
    have hlt : RangeCoder.value b.input (b.inPos + 1) 4 < 2 ^ 32 := by
      have h0 := (b.input (b.inPos + 1 + 0)).isLt
      have h1 := (b.input (b.inPos + 1 + 1)).isLt
      have h2 := (b.input (b.inPos + 1 + 2)).isLt
      have h3 := (b.input (b.inPos + 1 + 3)).isLt
      simp only [RangeCoder.value]
      omega
    rw [RangeCoder.value_cons]
    omega
  unfold rcReadInit
  rw [hcode, hleft, readInitLoop_all (by norm_num) h, hvalue]

theorem needDictReset_of_startDict (h : st0.startDict control = some st) :
    st.needDictReset = false := by
  unfold ChunkState.startDict at h
  split_ifs at h with hreset hneed
  · cases h
    rfl
  · cases h
    exact Bool.eq_false_iff.mpr hneed

theorem needs_of_startLzma {props : ℕ} (h : st.startLzma control props = some st') :
    st'.needDictReset = st.needDictReset ∧ st'.needProps = false := by
  unfold ChunkState.startLzma at h
  split_ifs at h with hnew hneed hreset
  · obtain ⟨lz, -, rfl⟩ := Option.map_eq_some_iff.mp h
    exact ⟨rfl, rfl⟩
  · cases h
    exact ⟨rfl, Bool.eq_false_iff.mpr hneed⟩
  · cases h
    exact ⟨rfl, Bool.eq_false_iff.mpr hneed⟩

/-- What is left to come before the compressed data of a chunk. -/
def restOfLzma (D : ℕ) (F : Source) (size n compressed : ℕ) (st : ChunkState) (start : ℕ) : Rest :=
  if 5 ≤ compressed ∧ start + compressed ≤ size then
    restOfChunk D F size (start + compressed) n st.core (Reader.start F (start + 1) st.probs)
  else none

theorem lzma2_of_lzma (hlt : pos < size) (hlzma : 0x80 ≤ byteAt F pos)
    (hstart : st0.startDict (byteAt F pos) = some st) (D : ℕ) :
    lzma2 D F size st0 pos = (st.startLzma (byteAt F pos) (byteAt F (pos + 5))).bind fun st' =>
      restOfLzma D F size (chunkSize F (byteAt F pos) pos) (dataSize F pos) st'
        (dataPos (byteAt F pos) pos) := by
  rw [lzma2_eq, if_neg (by omega), if_neg (by omega), anyChunk, hstart, Option.bind_some,
    if_pos hlzma, lzmaChunk]
  cases hlz : st.startLzma (byteAt F pos) (byteAt F (pos + 5)) with
  | none => rfl
  | some st' =>
    obtain ⟨hneedDict, hneedProps⟩ := needs_of_startLzma hlz
    rw [needDictReset_of_startDict hstart] at hneedDict
    dsimp only [Option.bind_some]
    unfold restOfLzma restOfChunk
    split_ifs with hfits hstop
    · cases chunk D F (dataPos (byteAt F pos) pos + dataSize F pos)
        (chunkSize F (byteAt F pos) pos) st'.core
        (Reader.start F (dataPos (byteAt F pos) pos + 1) st'.probs) with
      | none => rfl
      | some result =>
        show prepend _ (lzma2 D F size { st' with core := result.1, probs := result.2 } _) = _
        rw [hneedDict, hneedProps]
        rfl
    · exact absurd hfits.2 hstop
    · rfl

/-- The decoder at the first byte of the range coder. -/
theorem LzmaReady.inChunk (h : LzmaReady s st) (hdict : DictReady s.dict st.core.hist)
    (htemp : s.tempSize = 0) (hb : Whole F size b) (hfits : b.inPos + 5 ≤ size)
    (hcompressed : 5 ≤ s.compressed) (seq : Lzma2Seq) :
    InChunk F (b.inPos + s.compressed)
      { s with
        initBytesLeft := 0
        reader := { s.reader with
          dec := { s.reader.dec with code := RangeCoder.value b.input (b.inPos + 1) 4 } }
        compressed := s.compressed - 5
        sequence := seq }
      { b with inPos := b.inPos + 5 } st.core (Reader.start F (b.inPos + 1) st.probs) where
  sim := ⟨hdict.holds, h.lzma, h.valid,
    fun hor => h.rep0 (hor.resolve_left (by rw [h.len]; exact Nat.lt_irrefl 0))⟩
  sound := Reader.start_sound F _ h.fair
  range_ge := by
    show 2 ^ 24 ≤ 2 ^ 32 - 1
    norm_num
  reader := by
    rcases hreader : s.reader with ⟨probs, range, code, pos⟩
    have hprobs := h.probs
    have hrange := h.range
    rw [hreader] at hprobs hrange
    obtain rfl : probs = st.probs := hprobs
    obtain rfl : range = 2 ^ 32 - 1 := hrange
    rw [← hb.input]
    rfl
  input := hb.input
  pos := by
    show b.inPos + 1 + 4 + s.tempSize = b.inPos + 5
    omega
  inPos_le := hfits.trans_eq hb.inSize.symm
  temp := fun i hi => absurd hi (by rw [htemp]; exact Nat.not_lt_zero i)
  temp_lt := by
    show s.tempSize < lzmaInRequired
    rw [htemp]
    exact Nat.succ_pos _
  stop := by
    show b.inPos + 1 + 4 + (s.compressed - 5) = b.inPos + s.compressed
    omega
  temp_le := by
    show s.tempSize ≤ s.compressed - 5
    omega

/-- **`SEQ_LZMA_PREPARE`.** -/
theorem stepLzmaPrepare_ok (h : LzmaReady s st) (hdict : DictReady s.dict st.core.hist)
    (htemp : s.tempSize = 0) (hb : Whole F size b) (hneedDict : s.needDictReset = false)
    (hneedProps : s.needProps = false) (hseq : s.sequence ≠ .lzmaRun) (hpos : 0 < s.uncompressed) :
    PassOk F size s b (restOfLzma s.dict.size F size s.uncompressed s.compressed st b.inPos)
      (stepLzmaPrepare s b) := by
  unfold stepLzmaPrepare
  split_ifs with hshort
  · show restOfLzma s.dict.size F size s.uncompressed s.compressed st b.inPos = none
    exact if_neg (by omega)
  · have hsize := hb.inSize
    by_cases hfits : b.inPos + 5 ≤ size
    · rw [rcReadInit_all h.code h.initBytesLeft (hfits.trans_eq hsize.symm)]
      dsimp only
      have hw : Written b { b with inPos := b.inPos + 5 } [] :=
        .skip (Nat.le_add_right _ _) (hfits.trans_eq hsize.symm) hb.outPos_le
      have hchunk := h.inChunk hdict htemp hb hfits (Nat.not_lt.mp hshort) .lzmaRun
      have hpass := stepLzmaRun_ok (hw.whole hb) hchunk rfl hdict.start hdict.pos_lt hneedDict
        hneedProps hpos
      refine hpass.after (.skip hb (Nat.le_add_right _ _) hfits (.refl _) (.inl rfl)) ?_
      rw [prepend_nil]
      unfold restOfLzma restOfChunk
      by_cases hstop : b.inPos + s.compressed ≤ size
      · rw [if_pos ⟨Nat.not_lt.mp hshort, hstop⟩]
      · rw [if_neg fun h => hstop h.2]
        exact (if_neg hstop).symm
    · obtain ⟨left, code, hread⟩ : ∃ left code,
          readInitLoop b s.initBytesLeft s.reader.dec.code b.inPos =
          (false, left, code, b.inSize) :=
        readInitLoop_some (hb.inPos_le.trans_eq hsize.symm) (by rw [h.initBytesLeft]; omega)
      unfold rcReadInit
      rw [hread]
      refine ⟨[], none, .ended hseq hsize, ?_,
        .skip hb (hb.inPos_le.trans_eq hsize.symm) hsize.le (.refl _) (.inl rfl),
        fun _ _ hnone => by cases hnone⟩
      exact if_neg (by omega)

theorem LzmaReady.reset (hlzma : s.lzma.reset = st.core.lzma.reset) (hvalid : st.core.lzma.Valid) :
    LzmaReady (lzmaReset s) st.reset where
  lzma := hlzma
  valid := ⟨hvalid.posMask, hvalid.literal⟩
  len := rfl
  rep0 := fun hstate => by cases hstate
  probs := rfl
  fair := fun _ => RangeCoder.fair_half
  range := rfl
  code := rfl
  initBytesLeft := rfl

/-- The sizes do not matter to the rest of the decoder. -/
theorem LzmaReady.setSizes (h : LzmaReady s st) (n m : ℕ) (seq : Lzma2Seq) :
    LzmaReady { s with uncompressed := n, compressed := m, sequence := seq } st :=
  ⟨h.lzma, h.valid, h.len, h.rep0, h.probs, h.fair, h.range, h.code, h.initBytesLeft⟩

/-- `lzma_props` and the masks of the format. -/
theorem lzmaProps_cases (s : Lzma2Dec) (lz : Lzma) (props : ℕ) :
    (∃ lz', lz.ofProps props = some lz' ∧ lz'.Valid ∧
      lzmaProps s props = some (lzmaReset { s with lzma := lz' })) ∨
      (lz.ofProps props = none ∧ lzmaProps s props = none) := by
  unfold lzmaProps Lzma.ofProps
  dsimp only
  by_cases hbig : (4 * 5 + 4) * 9 + 8 < props
  · rw [if_pos (Or.inl hbig), if_pos hbig]
    exact .inr ⟨rfl, rfl⟩
  · by_cases hsum : 4 < props % (9 * 5) % 9 + props % (9 * 5) / 9
    · rw [if_pos (Or.inr hsum), if_neg hbig, if_pos hsum]
      exact .inr ⟨rfl, rfl⟩
    · rw [if_neg (not_or_intro hbig hsum), if_neg hbig, if_neg hsum]
      refine .inl ⟨_, rfl, ⟨?_, props % (9 * 5) / 9, Nat.not_lt.mp hsum, rfl⟩, rfl⟩
      have hpb : props / (9 * 5) ≤ 4 := by omega
      have hpow : 2 ^ (props / (9 * 5)) ≤ 2 ^ 4 := Nat.pow_le_pow_right (Nat.succ_pos 1) hpb
      show 2 ^ (props / (9 * 5)) - 1 < 16
      omega

/-- **The bounds of a symbol.**  With properties that `lzma_props` has accepted, whatever the state,
the dictionary and the input are, a symbol is decoded with indices inside of the arrays of
probabilities only, a match has a length from 1 to 273, and no more than `LZMA_IN_REQUIRED` bytes
are read, the normalization after the symbol included. -/
theorem lzmaProps_symbol_bounds {s s' : Lzma2Dec} {props : ℕ} (h : lzmaProps s props = some s')
    {lz : Lzma} (hlz : s'.lzma.SameProps lz) (pos : ℕ) (get : ℕ → Byte) :
    (lzmaSymbol lz pos get).Paths Prob.Valid (fun symbol _ _ => symbol.Ok lz) 0 0 ∧
      ∀ (input : Source) (r : Reader Prob), r.Sound →
        (((lzmaSymbol lz pos get).run input r).2.normalize input).dec.pos ≤
          r.dec.pos + lzmaInRequired := by
  have hvalid : lz.Valid := by
    rcases lzmaProps_cases s s.lzma props with ⟨lz0, -, hvalid, hs⟩ | ⟨-, hs⟩
    · obtain rfl := Option.some.inj (hs.symm.trans h)
      exact hvalid.of_same hlz
    · cases hs.symm.trans h
  refine ⟨(lzmaSymbol_paths hvalid pos get).mono fun symbol k j hsymbol => hsymbol.1,
    fun input r hr => ?_⟩
  exact lzmaSymbol_bytes hvalid pos get input hr

/-- The properties that most encoders write, at the first symbol of a chunk. -/
theorem lzmaProps_symbol_bounds_default :
    ∃ s', lzmaProps (xzDecLzma2Create (2 ^ 26)) 93 = some s' ∧
      (lzmaSymbol s'.lzma 0 fun _ => 0).Paths Prob.Valid (fun symbol _ _ => symbol.Ok s'.lzma) 0 0 ∧
      ∀ input : Source, (((lzmaSymbol s'.lzma 0 fun _ => 0).run input
        (Reader.start input 7 fun _ => 2 ^ 11 / 2)).2.normalize input).dec.pos ≤ 11 + 21 := by
  obtain ⟨s', hs⟩ : ∃ s', lzmaProps (xzDecLzma2Create (2 ^ 26)) 93 = some s' := ⟨_, rfl⟩
  have hbounds := lzmaProps_symbol_bounds hs ⟨rfl, rfl, rfl⟩ 0 fun _ => 0
  refine ⟨s', hs, hbounds.1, fun input => ?_⟩
  exact hbounds.2 input _ (Reader.start_sound input 7 fun _ => RangeCoder.fair_half)

/-- **`SEQ_PROPERTIES`.** -/
theorem stepProperties_ok (hdict : DictReady s.dict st.core.hist) (htemp : s.tempSize = 0)
    (hb : Whole F size b) (hin : b.inPos < size) (hneedDict : s.needDictReset = false)
    (hneedProps : s.needProps = false) (hpos : 0 < s.uncompressed) (hnew : 0xC0 ≤ control) :
    PassOk F size s b
      ((st.startLzma control (byteAt F b.inPos)).bind fun st' =>
        restOfLzma s.dict.size F size s.uncompressed s.compressed st' (b.inPos + 1))
      (stepProperties s b) := by
  unfold stepProperties ChunkState.startLzma
  rw [if_pos hnew, hb.byte]
  rcases lzmaProps_cases s st.core.lzma (byteAt F b.inPos) with
    ⟨lz, hprops, hvalid, hs⟩ | ⟨hprops, hs⟩
  · rw [hprops, hs]
    have hw := hb.written_skip hin
    have hreset : LzmaReady (lzmaReset { s with lzma := lz })
        (ChunkState.reset { st with core := { st.core with lzma := lz }, needProps := false }) :=
      .reset rfl hvalid
    have hready := hreset.setSizes s.uncompressed s.compressed .lzmaPrepare
    have hpass := stepLzmaPrepare_ok hready hdict htemp (hw.whole hb) hneedDict hneedProps
      (fun h => by cases h) hpos
    exact hpass.after (.skip hb (Nat.le_succ _) hin (.refl _) (.inl rfl)) (prepend_nil _).symm
  · rw [hprops, hs]
    rfl

end prepare

end Xz
end CalvinHook
