import CalvinHook.Xz.History

/-!
# A compressed chunk

`lzma2_lzma` decodes from the caller's input as long as 21 bytes are there, and otherwise from a
buffer of its own in which it has put the last bytes of the input together.  Seen from the whole
input `F` it reads every byte of the chunk once, at its position: `InChunk` says at which position
the abstract decoder stands.

* `chunk`: the abstract decoder on the rest of a chunk.
* `lzma2Lzma_cases`: `lzma2_lzma` makes a part of the chunk, or fails if the chunk is not valid.
-/

namespace CalvinHook
namespace Xz

open RangeCoder (Coded Reader Decoder Source)

/-! ## The abstract decoder on a chunk -/

/-- The rest of a chunk, `n` bytes: its compressed data ends at `stop`, no match goes on behind it,
and the code is zero. -/
def chunk (dictSize : ℕ) (F : Source) (stop n : ℕ) (c : Core) (r : Reader Prob) :
    Option (Core × (Prob → ℕ)) :=
  match (c.produce dictSize n).finish F r with
  | (some c', r') =>
    if r'.dec.pos = stop ∧ c'.lzma.len = 0 ∧ r'.dec.code = 0 then some (c', r'.probs) else none
  | (none, _) => none

section chunk

variable {D stop k m : ℕ} {F : Source} {c c' : Core} {r r' : Reader Prob}

theorem finish_add (hr : r.Sound) : (c.produce D (k + m)).finish F r =
    (Core.andThen (Core.produce D m) ((c.produce D k).finish F r).1).finish F
      ((c.produce D k).finish F r).2 := by
  rw [Core.produce_add, Coded.finish_bind hr]

/-- After a part of the chunk comes the rest. -/
theorem chunk_add (hr : r.Sound) (h : (c.produce D k).finish F r = (some c', r')) :
    chunk D F stop (k + m) c r = chunk D F stop m c' r' := by
  rw [chunk, finish_add hr, h]
  rfl

/-- A failure is one of the chunk. -/
theorem chunk_eq_none_of_fails (hr : r.Sound) (h : ((c.produce D k).finish F r).1 = none) :
    chunk D F stop (k + m) c r = none := by
  rw [chunk, finish_add hr, h, Core.andThen, Coded.finish_done]

/-- What has been read behind the end of the compressed data is not given back. -/
theorem chunk_eq_none_of_lt (hr : r.Sound) (h : stop < ((c.produce D k).finish F r).2.dec.pos) :
    chunk D F stop (k + m) c r = none := by
  have hmono := Coded.pos_le_finish F
    (Core.andThen (Core.produce D m) ((c.produce D k).finish F r).1)
    ((c.produce D k).finish F r).2
  rw [chunk, finish_add hr]
  generalize (Core.andThen (Core.produce D m) ((c.produce D k).finish F r).1).finish F
    ((c.produce D k).finish F r).2 = result at hmono
  obtain ⟨o, r''⟩ := result
  cases o with
  | none => rfl
  | some c'' => exact if_neg (by dsimp only at hmono; omega)

theorem run_of_chunk {probs : Prob → ℕ} (h : chunk D F stop m c r = some (c', probs)) :
    ((c.produce D m).run F r).1 = some c' := by
  unfold chunk at h
  cases hfinish : (c.produce D m).finish F r with
  | mk o r'' =>
    rw [hfinish] at h
    cases o with
    | none => cases h
    | some c1 =>
      dsimp only at h
      split_ifs at h
      obtain ⟨rfl, -⟩ := Prod.mk.inj (Option.some.inj h)
      exact congrArg Prod.fst hfinish

end chunk

/-! ## The decoder inside of a chunk -/

/-- The decoder stands inside of a chunk where the abstract one stands with the core `c` and the
reader `r`.  The bytes between the reader and `in_pos` are in `temp.buf`. -/
structure InChunk (F : Source) (stop : ℕ) (s : Lzma2Dec) (b : XzBuf) (c : Core) (r : Reader Prob) :
    Prop where
  sim : Sim s c
  sound : r.Sound
  range_ge : 2 ^ 24 ≤ r.dec.range
  reader : s.reader = r.moveTo s.reader.dec.pos
  input : b.input = F
  pos : r.dec.pos + s.tempSize = b.inPos
  inPos_le : b.inPos ≤ b.inSize
  temp : ∀ i < s.tempSize, s.tempBuf i = F (r.dec.pos + i)
  temp_lt : s.tempSize < lzmaInRequired
  stop : r.dec.pos + s.compressed = stop
  temp_le : s.tempSize ≤ s.compressed

/-- A part of a chunk has been decoded: `k` bytes. -/
structure Part (F : Source) (stop : ℕ) (s : Lzma2Dec) (b : XzBuf) (c : Core) (r : Reader Prob)
    (k : ℕ) (s' : Lzma2Dec) (b' : XzBuf) (c' : Core) (r' : Reader Prob) : Prop where
  le : k ≤ s.dict.limit - s.dict.pos
  finish : (c.produce s.dict.size k).finish F r = (some c', r')
  inChunk : InChunk F stop s' b' c' r'
  dict : s.dict.Grown s'.dict k
  rest : s' = { s with
    reader := s'.reader, inLimit := s'.inLimit, dict := s'.dict, compressed := s'.compressed,
    lzma := s'.lzma,
    tempSize := s'.tempSize, tempBuf := s'.tempBuf }
  buf : b' = { b with inPos := b'.inPos }
  inPos_le : b.inPos ≤ b'.inPos

/-- The chunk is not valid, whatever comes after the output that is asked for now. -/
def Invalid (F : Source) (stop : ℕ) (s : Lzma2Dec) (c : Core) (r : Reader Prob) : Prop :=
  ∀ n, s.dict.limit - s.dict.pos ≤ n → chunk s.dict.size F stop n c r = none

section parts

variable {F : Source} {stop : ℕ} {s s' s'' : Lzma2Dec} {b b' b'' : XzBuf} {c c' c'' : Core}
  {r r' r'' : Reader Prob} {k k' : ℕ}

theorem InChunk.part (h : InChunk F stop s b c r) : Part F stop s b c r 0 s b c r where
  le := Nat.zero_le _
  finish := by rw [Core.produce, Coded.finish_done, Reader.normalize_of_le F h.range_ge]
  inChunk := h
  dict := .refl _
  rest := rfl
  buf := rfl
  inPos_le := le_rfl

theorem Part.trans (hr : r.Sound) (h : Part F stop s b c r k s' b' c' r')
    (h' : Part F stop s' b' c' r' k' s'' b'' c'' r'') :
    Part F stop s b c r (k + k') s'' b'' c'' r'' where
  le := by
    have hle := h'.le
    rw [h.dict.limit, h.dict.pos] at hle
    have := h.le
    omega
  finish := by
    rw [finish_add hr, h.finish, ← h.dict.size]
    exact h'.finish
  inChunk := h'.inChunk
  dict := h.dict.trans h'.dict
  rest := by rw [h'.rest, h.rest]
  buf := by rw [h'.buf, h.buf]
  inPos_le := h.inPos_le.trans h'.inPos_le

theorem Part.invalid (hr : r.Sound) (h : Part F stop s b c r k s' b' c' r')
    (h' : Invalid F stop s' c' r') :
    Invalid F stop s c r := by
  intro n hn
  have hle := h.le
  obtain ⟨m, rfl⟩ := Nat.exists_eq_add_of_le (hle.trans hn)
  rw [chunk_add hr h.finish, ← h.dict.size]
  refine h' m ?_
  rw [h.dict.limit, h.dict.pos]
  omega

/-! ## From `temp.buf` -/

theorem InChunk.reader_moveTo (h : InChunk F stop s b c r) (pos : ℕ) :
    s.reader.moveTo pos = r.moveTo pos := by
  rw [h.reader]
  rfl

/-- Decoding from `temp.buf`, which holds the bytes of the input from the reader on: all of the
compressed data that is left, or 21 bytes more than the limit. -/
theorem InChunk.fromTemp_cases {tmp : ℕ} (h : InChunk F stop s b c r)
    (htmp : b.inPos + tmp ≤ b.inSize)
    (hbuf : ∀ i < s.tempSize + tmp, s.tempBuf i = F (r.dec.pos + i))
    (hle : s.tempSize + tmp ≤ s.compressed)
    (hin : s.inLimit = s.tempSize + tmp ∧ s.tempSize + tmp = s.compressed ∨
      s.inLimit + 21 = s.tempSize + tmp) (hlimit : s.dict.limit ≤ s.dict.bufEnd) :
    (∃ ret k s' b' c' r', lzma2FromTemp s b tmp = some (ret, s', b') ∧
      Part F stop s b c r k s' b' c' r' ∧
      (s.dict.hasSpace → 0 < k) ∧ (ret = false → s'.tempSize = 0)) ∨
    (lzma2FromTemp s b tmp = none ∧ Invalid F stop s c r) := by
  have hsim : Sim { s with reader := r.moveTo 0 } c :=
    ⟨h.sim.dict, h.sim.lzma, h.sim.valid, h.sim.rep0⟩
  have hstop := h.stop
  have hnorm : (r.moveTo 0).normalize s.tempBuf = r.moveTo 0 := Reader.normalize_of_le _ h.range_ge
  unfold lzma2FromTemp
  rw [h.reader_moveTo]
  rcases hsim.lzmaMain_cases s.tempBuf (h.sound.moveTo 0) hlimit with
    ⟨k, c', s', hmain, hk, hfinish, hsim', hadv, hprogress, hbytes⟩ | ⟨hmain, k, hk, hfail, hbytes⟩
  · have htempSize : s'.tempSize = s.tempSize := by rw [hadv.rest]
    have htempBuf : s'.tempBuf = s.tempBuf := by rw [hadv.rest]
    have hcompressed : s'.compressed = s.compressed := by rw [hadv.rest]
    have hwindow := Coded.finish_window hbuf (c.produce s.dict.size k) (r.moveTo 0)
    dsimp only at hfinish hbytes hk
    rw [Reader.shift_moveTo, hfinish] at hwindow
    rw [hnorm, show (r.moveTo 0).dec.pos = 0 from rfl] at hbytes
    rw [hmain]
    dsimp only
    by_cases hover : s.tempSize + tmp < s'.reader.dec.pos
    · -- more than the compressed data was read, from the bytes behind it or from zeros in their
      -- place
      right
      rw [if_pos hover]
      refine ⟨rfl, fun n hn => ?_⟩
      obtain ⟨m, rfl⟩ := Nat.exists_eq_add_of_le (hk.trans hn)
      refine chunk_eq_none_of_lt h.sound ?_
      rcases hwindow with hsame | ⟨-, hover'⟩
      · rw [hsame]
        show stop < r.dec.pos + s'.reader.dec.pos
        omega
      · omega
    · left
      have hsame := hwindow.resolve_right fun hboth => hover hboth.1
      have hpos := h.pos
      have hinPos := h.inPos_le
      have hsound : (s'.reader.shift r.dec.pos).Sound := by
        have := Coded.finish_sound F h.sound (c.produce s.dict.size k)
        rwa [hsame] at this
      have hrange : 2 ^ 24 ≤ (s'.reader.shift r.dec.pos).dec.range := by
        have := Coded.range_finish_ge F h.sound (c.produce s.dict.size k)
        rwa [hsame] at this
      rw [if_neg hover, htempSize, hcompressed, htempBuf]
      by_cases hinside : s'.reader.dec.pos < s.tempSize
      · rw [if_pos hinside]
        refine ⟨true, k, _, _, c', s'.reader.shift r.dec.pos, rfl,
          { le := hk, finish := hsame, dict := hadv.dict, rest := by rw [hadv.rest], buf := rfl,
            inPos_le := le_rfl,
            inChunk := ?_ }, fun hspace => hprogress hspace (.inr (Nat.zero_le _)),
            fun hret => by cases hret⟩
        exact {
          sim := ⟨hsim'.dict, hsim'.lzma, hsim'.valid, hsim'.rep0⟩
          sound := hsound
          range_ge := hrange
          reader := rfl
          input := h.input
          pos := by
            show r.dec.pos + s'.reader.dec.pos + (s.tempSize - s'.reader.dec.pos) = b.inPos
            omega
          inPos_le := hinPos
          temp := fun i hi => by
            have hi' : i < s.tempSize - s'.reader.dec.pos := hi
            show Ring.store s.tempBuf 0 (fun i => s.tempBuf (s'.reader.dec.pos + i))
              (s.tempSize - s'.reader.dec.pos) i = F (r.dec.pos + s'.reader.dec.pos + i)
            rw [Ring.store, if_pos (by omega), Nat.sub_zero, hbuf _ (by omega), Nat.add_assoc]
          temp_lt := (Nat.sub_le _ _).trans_lt h.temp_lt
          stop := by
            show r.dec.pos + s'.reader.dec.pos + (s.compressed - s'.reader.dec.pos) = stop
            omega
          temp_le := Nat.sub_le_sub_right h.temp_le _ }
      · rw [if_neg hinside]
        refine ⟨false, k, _, _, c', s'.reader.shift r.dec.pos, rfl,
          { le := hk, finish := hsame, dict := hadv.dict, rest := by rw [hadv.rest], buf := rfl,
            inPos_le := Nat.le_add_right _ _, inChunk := ?_ },
          fun hspace => hprogress hspace (.inr (Nat.zero_le _)), fun _ => rfl⟩
        exact {
          sim := ⟨hsim'.dict, hsim'.lzma, hsim'.valid, hsim'.rep0⟩
          sound := hsound
          range_ge := hrange
          reader := rfl
          input := h.input
          pos := by
            show r.dec.pos + s'.reader.dec.pos + 0 = b.inPos + (s'.reader.dec.pos - s.tempSize)
            omega
          inPos_le := by
            show b.inPos + (s'.reader.dec.pos - s.tempSize) ≤ b.inSize
            omega
          temp := fun i hi => absurd hi (Nat.not_lt_zero i)
          temp_lt := Nat.succ_pos 20
          stop := by
            show r.dec.pos + s'.reader.dec.pos + (s.compressed - s'.reader.dec.pos) = stop
            omega
          temp_le := Nat.zero_le _ }
  · rw [hmain]
    refine .inr ⟨rfl, fun n hn => ?_⟩
    obtain ⟨m, rfl⟩ : ∃ m, n = k + 1 + m :=
      Nat.exists_eq_add_of_le (Nat.succ_le_of_lt (hk.trans_le hn))
    have hwindow := Coded.finish_window hbuf (c.produce s.dict.size (k + 1)) (r.moveTo 0)
    rw [Reader.shift_moveTo] at hwindow
    dsimp only at hfail hbytes
    rcases hwindow with hsame | ⟨hover, hover'⟩
    · refine chunk_eq_none_of_fails h.sound ?_
      rw [hsame]
      exact hfail
    · exact chunk_eq_none_of_lt h.sound (by omega)

/-- Bytes behind those of the chunk in `temp.buf`, and another limit. -/
theorem InChunk.setTemp {buf : ℕ → Byte} (h : InChunk F stop s b c r)
    (hbuf : ∀ i < s.tempSize, buf i = F (r.dec.pos + i)) (inLimit : ℕ) :
    InChunk F stop { s with tempBuf := buf, inLimit := inLimit } b c r :=
  { h with sim := ⟨h.sim.dict, h.sim.lzma, h.sim.valid, h.sim.rep0⟩, temp := hbuf }

theorem Part.of_setTemp {buf : ℕ → Byte} {inLimit : ℕ}
    (h : Part F stop { s with tempBuf := buf, inLimit := inLimit } b c r k s' b' c' r') :
    Part F stop s b c r k s' b' c' r' :=
  { h with rest := h.rest.trans rfl }

/-- The first part of `lzma2_lzma`. -/
theorem InChunk.temp_cases (h : InChunk F stop s b c r) (hlimit : s.dict.limit ≤ s.dict.bufEnd) :
    (∃ ret k s' b' c' r', lzma2Temp s b = some (ret, s', b') ∧ Part F stop s b c r k s' b' c' r' ∧
      (ret = false → s'.tempSize = 0) ∧
      (s.dict.hasSpace → 0 < k ∨ (ret = true ∧ b'.inPos = b.inSize ∧ s'.tempSize < s'.compressed) ∨
        (k = 0 ∧ ret = false ∧ b' = b ∧ 0 < s'.compressed))) ∨
    (lzma2Temp s b = none ∧ Invalid F stop s c r) := by
  have hpos := h.pos
  have hinPos := h.inPos_le
  have hle := h.temp_le
  have hlt := h.temp_lt
  have hstop := h.stop
  unfold lzmaInRequired at hlt
  unfold lzma2Temp
  by_cases htemp : 0 < s.tempSize ∨ s.compressed = 0
  · rw [if_pos htemp]
    dsimp only
    have htmp : lzma2Tmp s b =
        min (min (2 * 21 - s.tempSize) (s.compressed - s.tempSize)) (b.inSize - b.inPos) := rfl
    generalize lzma2Tmp s b = tmp at htmp
    have hbuf : ∀ i < s.tempSize + tmp,
        Ring.store s.tempBuf s.tempSize (fun i => b.input (b.inPos + i)) tmp i =
        F (r.dec.pos + i) := by
      intro i hi
      unfold Ring.store
      split_ifs with hnew
      · show b.input (b.inPos + (i - s.tempSize)) = F (r.dec.pos + i)
        rw [h.input, show b.inPos + (i - s.tempSize) = r.dec.pos + i by omega]
      · exact h.temp i (by omega)
    generalize Ring.store s.tempBuf s.tempSize (fun i => b.input (b.inPos + i)) tmp = buf at hbuf
    by_cases hall : s.tempSize + tmp = s.compressed
    · rw [if_pos hall]
      have hbuf' : ∀ i < s.tempSize + tmp,
          Ring.store buf (s.tempSize + tmp) (fun _ => 0) (3 * lzmaInRequired - s.tempSize - tmp) i =
            F (r.dec.pos + i) := by
        intro i hi
        rw [Ring.store, if_neg (by omega)]
        exact hbuf i hi
      have hset := h.setTemp (fun i hi => hbuf' i (by omega)) (s.tempSize + tmp)
      rcases hset.fromTemp_cases (by omega) hbuf' hall.le (.inl ⟨rfl, hall⟩) hlimit with
        ⟨ret, k, s', b', c', r', heq, hpart, hprogress, hret⟩ | ⟨heq, hinvalid⟩
      · exact .inl ⟨ret, k, s', b', c', r', heq, hpart.of_setTemp, hret,
          fun hspace => .inl (hprogress hspace)⟩
      · exact .inr ⟨heq, hinvalid⟩
    · rw [if_neg hall]
      by_cases hfew : s.tempSize + tmp < lzmaInRequired
      · -- the input has ended inside of the chunk
        rw [if_pos hfew]
        unfold lzmaInRequired at hfew
        have hend : b.inPos + tmp = b.inSize := by omega
        have hmore : s.tempSize + tmp < s.compressed := by omega
        refine .inl ⟨true, 0, _, _, c, r, rfl, { h.part with
            rest := rfl
            buf := rfl
            inPos_le := Nat.le_add_right _ _
            inChunk := ?_ }, fun hret => (by cases hret), fun _ => .inr (.inl ⟨rfl, hend, hmore⟩)⟩
        exact { h with
          sim := ⟨h.sim.dict, h.sim.lzma, h.sim.valid, h.sim.rep0⟩
          pos := by
            show r.dec.pos + (s.tempSize + tmp) = b.inPos + tmp
            omega
          inPos_le := hend.le
          temp := hbuf
          temp_lt := hfew
          temp_le := hmore.le }
      · rw [if_neg hfew]
        unfold lzmaInRequired at hfew
        have hset := h.setTemp (fun i hi => hbuf i (by omega)) (s.tempSize + tmp - lzmaInRequired)
        have hmore : s.tempSize + tmp ≤ s.compressed := by omega
        have hin : s.tempSize + tmp - lzmaInRequired + 21 = s.tempSize + tmp := by
          unfold lzmaInRequired
          omega
        rcases hset.fromTemp_cases (by omega) hbuf hmore (.inr hin) hlimit with
          ⟨ret, k, s', b', c', r', heq, hpart, hprogress, hret⟩ | ⟨heq, hinvalid⟩
        · exact .inl ⟨ret, k, s', b', c', r', heq, hpart.of_setTemp, hret,
            fun hspace => .inl (hprogress hspace)⟩
        · exact .inr ⟨heq, hinvalid⟩
  · rw [if_neg htemp]
    refine .inl ⟨false, 0, s, b, c, r, rfl, h.part, fun _ => by omega,
      fun _ => .inr (.inr ⟨rfl, rfl, rfl, by omega⟩)⟩

/-! ## From the caller's input -/

/-- The second part of `lzma2_lzma`; the limit keeps it inside of the input. -/
theorem InChunk.direct_cases (h : InChunk F stop s b c r) (htemp : s.tempSize = 0)
    (hlimit : s.dict.limit ≤ s.dict.bufEnd) :
    (∃ k s' b' c' r', lzma2Direct s b = some (s', b') ∧ Part F stop s b c r k s' b' c' r' ∧
      s'.tempSize = 0 ∧
      (s.dict.hasSpace → 0 < k ∨ (k = 0 ∧ s' = s ∧ b' = b ∧ b.inSize - b.inPos < lzmaInRequired))) ∨
    (lzma2Direct s b = none ∧ Invalid F stop s c r) := by
  have hpos := h.pos
  have hinPos := h.inPos_le
  have hstop := h.stop
  unfold lzma2Direct
  dsimp only
  by_cases havail : lzmaInRequired ≤ b.inSize - b.inPos
  · rw [if_pos havail]
    generalize hin : (if s.compressed + lzmaInRequired ≤ b.inSize - b.inPos then
      b.inPos + s.compressed
      else b.inSize - lzmaInRequired) = inLimit
    have hinLimit : b.inPos ≤ inLimit ∧ inLimit + 21 ≤ b.inSize := by
      unfold lzmaInRequired at havail hin
      split_ifs at hin <;> omega
    have hr : s.reader.moveTo b.inPos = r := by
      rw [h.reader_moveTo, ← hpos, htemp]
      rfl
    have hsim : Sim { s with reader := r, inLimit := inLimit } c :=
      ⟨h.sim.dict, h.sim.lzma, h.sim.valid, h.sim.rep0⟩
    rw [hr, h.input]
    rcases hsim.lzmaMain_cases F h.sound hlimit with
      ⟨k, c', s', hmain, hk, hfinish, hsim', hadv, hprogress, hbytes⟩ | ⟨hmain, k, hk, hfail, -⟩
    · have htempSize : s'.tempSize = s.tempSize := by rw [hadv.rest]
      have hcompressed : s'.compressed = s.compressed := by rw [hadv.rest]
      have hmono := Coded.pos_le_finish F (c.produce s.dict.size k) r
      have hsound := Coded.finish_sound F h.sound (c.produce s.dict.size k)
      have hrange := Coded.range_finish_ge F h.sound (c.produce s.dict.size k)
      dsimp only at hfinish hbytes hk hprogress
      rw [hfinish] at hmono hsound hrange
      rw [Reader.normalize_of_le F h.range_ge] at hbytes
      dsimp only at hmono
      rw [hmain]
      dsimp only
      rw [hcompressed]
      by_cases hover : s.compressed < s'.reader.dec.pos - b.inPos
      · right
        rw [if_pos hover]
        refine ⟨rfl, fun n hn => ?_⟩
        obtain ⟨m, rfl⟩ := Nat.exists_eq_add_of_le (hk.trans hn)
        refine chunk_eq_none_of_lt h.sound ?_
        rw [hfinish]
        show stop < s'.reader.dec.pos
        omega
      · left
        rw [if_neg hover]
        refine ⟨k, _, _, c', s'.reader, rfl, {
          le := hk
          finish := hfinish
          dict := hadv.dict
          rest := by rw [hadv.rest]
          buf := by rw [h.input]
          inPos_le := by show b.inPos ≤ s'.reader.dec.pos; omega
          inChunk := ?_ }, htempSize.trans htemp, fun hspace => .inl (hprogress hspace (.inr ?_))⟩
        · exact {
            sim := ⟨hsim'.dict, hsim'.lzma, hsim'.valid, hsim'.rep0⟩
            sound := hsound
            range_ge := hrange
            reader := rfl
            input := rfl
            pos := by
              show s'.reader.dec.pos + s'.tempSize = s'.reader.dec.pos
              omega
            inPos_le := by
              show s'.reader.dec.pos ≤ b.inSize
              omega
            temp := fun i hi => by
              have hi' : i < s'.tempSize := hi
              omega
            temp_lt := by
              show s'.tempSize < 21
              omega
            stop := by
              show s'.reader.dec.pos + (s.compressed - (s'.reader.dec.pos - b.inPos)) = stop
              omega
            temp_le := by
              show s'.tempSize ≤ _
              omega }
        · omega
    · right
      rw [hmain]
      refine ⟨rfl, fun n hn => ?_⟩
      obtain ⟨m, rfl⟩ : ∃ m, n = k + 1 + m :=
        Nat.exists_eq_add_of_le (Nat.succ_le_of_lt (hk.trans_le hn))
      exact chunk_eq_none_of_fails h.sound hfail
  · rw [if_neg havail]
    exact .inl ⟨0, s, b, c, r, rfl, h.part, htemp,
      fun _ => .inr ⟨rfl, rfl, rfl, Nat.not_le.mp havail⟩⟩

/-- The third part of `lzma2_lzma`. -/
theorem InChunk.refill_part (h : InChunk F stop s b c r) (htemp : s.tempSize = 0) :
    Part F stop s b c r 0 (lzma2Refill s b).1 (lzma2Refill s b).2 c r := by
  have hpos := h.pos
  have hinPos := h.inPos_le
  unfold lzma2Refill
  by_cases hfew : b.inSize - b.inPos < lzmaInRequired
  · rw [if_pos hfew]
    refine { h.part with rest := rfl, buf := rfl, inPos_le := Nat.le_add_right _ _, inChunk := ?_ }
    exact { h with
      sim := ⟨h.sim.dict, h.sim.lzma, h.sim.valid, h.sim.rep0⟩
      pos := by
        show r.dec.pos + min (b.inSize - b.inPos) s.compressed =
          b.inPos + min (b.inSize - b.inPos) s.compressed
        omega
      inPos_le := by
        show b.inPos + min (b.inSize - b.inPos) s.compressed ≤ b.inSize
        omega
      temp := fun i hi => by
        have hi' : i < min (b.inSize - b.inPos) s.compressed := hi
        show Ring.store s.tempBuf 0 (fun i => b.input (b.inPos + i))
          (min (b.inSize - b.inPos) s.compressed) i = _
        rw [Ring.store, if_pos (by omega), Nat.sub_zero, h.input, ← hpos, htemp, Nat.add_zero]
      temp_lt := (Nat.min_le_left _ _).trans_lt hfew
      temp_le := Nat.min_le_right _ _ }
  · rw [if_neg hfew]
    exact h.part

theorem refill_progress (hinPos : b.inPos ≤ b.inSize) (hmore : 0 < s.compressed)
    (hfew : b.inSize - b.inPos < lzmaInRequired) :
    b.inPos < (lzma2Refill s b).2.inPos ∨
      ((lzma2Refill s b).2.inPos = b.inSize ∧
        (lzma2Refill s b).1.tempSize < (lzma2Refill s b).1.compressed) := by
  unfold lzma2Refill
  rw [if_pos hfew]
  dsimp only
  omega

/-- **`lzma2_lzma`.**  It decodes a part of the chunk, or fails if the chunk is not valid.  If
output is asked for it makes some, or takes input, or the input has ended inside of the chunk. -/
theorem InChunk.lzma2Lzma_cases (h : InChunk F stop s b c r)
    (hlimit : s.dict.limit ≤ s.dict.bufEnd) :
    (∃ k s' b' c' r', lzma2Lzma s b = some (s', b') ∧ Part F stop s b c r k s' b' c' r' ∧
      (s.dict.hasSpace → 0 < k ∨ b.inPos < b'.inPos ∨
        (b'.inPos = b.inSize ∧ s'.tempSize < s'.compressed))) ∨
    (lzma2Lzma s b = none ∧ Invalid F stop s c r) := by
  unfold lzma2Lzma
  rcases h.temp_cases hlimit with ⟨ret, k, s1, b1, c1, r1, htemp, hpart, hret, hprogress⟩
    | ⟨htemp, hinvalid⟩
  · rw [htemp]
    cases ret with
    | true =>
      refine .inl ⟨k, s1, b1, c1, r1, rfl, hpart, fun hspace => ?_⟩
      rcases hprogress hspace with hk | ⟨-, hstuck⟩ | ⟨-, hret', -⟩
      · exact .inl hk
      · exact .inr (.inr hstuck)
      · cases hret'
    | false =>
      have hlimit1 : s1.dict.limit ≤ s1.dict.bufEnd := by
        rw [hpart.dict.limit, hpart.dict.bufEnd]
        exact hlimit
      rcases hpart.inChunk.direct_cases (hret rfl) hlimit1 with
        ⟨k2, s2, b2, c2, r2, hdirect, hpart2, htemp2, hprogress2⟩ | ⟨hdirect, hinvalid⟩
      · have hpart3 := hpart2.inChunk.refill_part htemp2
        dsimp only
        rw [hdirect]
        refine .inl ⟨k + k2 + 0, (lzma2Refill s2 b2).1, (lzma2Refill s2 b2).2, c2, r2, rfl,
          (hpart.trans h.sound hpart2).trans h.sound hpart3, fun hspace => ?_⟩
        rcases hprogress hspace with hk | ⟨hret', -⟩ | ⟨rfl, -, rfl, hmore⟩
        · exact .inl (by omega)
        · cases hret'
        · have hspace1 : s1.dict.hasSpace := by
            show s1.dict.pos < s1.dict.limit
            rw [hpart.dict.pos, hpart.dict.limit]
            exact hspace
          rcases hprogress2 hspace1 with hk2 | ⟨-, rfl, rfl, hfew⟩
          · exact .inl (by omega)
          · exact .inr (refill_progress h.inPos_le hmore hfew)
      · dsimp only
        rw [hdirect]
        exact .inr ⟨rfl, hpart.invalid h.sound hinvalid⟩
  · rw [htemp]
    exact .inr ⟨rfl, hinvalid⟩

end parts

end Xz
end CalvinHook
