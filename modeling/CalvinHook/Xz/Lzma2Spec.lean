import CalvinHook.Xz.ChunkRun

/-!
# The LZMA2 format

The abstract decoder of a sequence of chunks: a function of the whole input, in which every field of
a chunk stands at its position.

* `ChunkState`: what goes on from one chunk to the next.
* `lzma2`: the output from a position on, with the position behind the end marker.
-/

namespace CalvinHook
namespace Xz

open RangeCoder (Coded Reader Decoder Source Fair)

/-! ## The history that is made -/

namespace Core

variable {D n : ℕ} {c c' : Core} {input : Source} {r : Reader Prob}

theorem copyByte_hist (h : c.copyByte D = some c') : ∃ a, c'.hist = a :: c.hist := by
  unfold copyByte at h
  split_ifs at h with hdist
  obtain rfl := Option.some.inj h
  have hlt : c.lzma.rep0 < c.hist.length := hdist.trans_le (Nat.min_le_left _ _)
  refine ⟨c.hist[c.lzma.rep0], ?_⟩
  show Ring.again c.lzma.rep0 c.hist = _
  rw [Ring.again, List.getElem?_eq_getElem hlt]

theorem emit_hist (h : ((c.emit D).run input r).1 = some c') : ∃ a, c'.hist = a :: c.hist := by
  unfold emit at h
  split_ifs at h with hlen
  · rw [Coded.run_done] at h
    exact copyByte_hist h
  · rw [Coded.run_bind] at h
    generalize ((lzmaSymbol c.lzma c.hist.length c.get).run input r) = result at h
    obtain ⟨symbol, r'⟩ := result
    cases symbol with
    | literal byte lz =>
      dsimp only at h
      rw [Coded.run_done] at h
      obtain rfl := Option.some.inj h
      exact ⟨byte, rfl⟩
    | copy lz =>
      dsimp only at h
      rw [Coded.run_done] at h
      exact copyByte_hist (c := ⟨c.hist, lz⟩) h

/-- `n` bytes come in front of the history. -/
theorem produce_hist (h : ((c.produce D n).run input r).1 = some c') :
    c'.hist.drop n = c.hist ∧ c'.hist.length = c.hist.length + n := by
  induction n generalizing c r with
  | zero =>
    rw [produce, Coded.run_done] at h
    obtain rfl := Option.some.inj h
    exact ⟨rfl, rfl⟩
  | succ n ih =>
    rw [produce, Coded.run_bind] at h
    cases hemit : ((c.emit D).run input r).1 with
    | none =>
      rw [hemit, andThen, Coded.run_done] at h
      cases h
    | some c1 =>
      obtain ⟨a, ha⟩ := emit_hist hemit
      rw [hemit, andThen] at h
      obtain ⟨hdrop, hlength⟩ := ih h
      refine ⟨?_, by rw [hlength, ha, List.length_cons]; omega⟩
      rw [← List.drop_drop, hdrop, ha]
      rfl

/-- The bytes that were made, oldest first. -/
def made (c : Core) (n : ℕ) : List Byte := (c.hist.take n).reverse

theorem length_made (h : ((c.produce D n).run input r).1 = some c') : (c'.made n).length = n := by
  have hlength := (produce_hist h).2
  rw [made, List.length_reverse, List.length_take]
  omega

/-- What is made in two parts. -/
theorem made_add {m : ℕ} {c1 : Core} {r1 : Reader Prob}
    (h : ((c1.produce D m).run input r1).1 = some c') :
    c'.made (n + m) = c1.made n ++ c'.made m := by
  have hdrop := (produce_hist h).1
  rw [made, made, made, ← List.reverse_append, Nat.add_comm n m, List.take_add, hdrop]

end Core

/-! ## Chunks -/

/-- What goes on from chunk to chunk. -/
structure ChunkState where
  core : Core
  probs : Prob → ℕ
  needDictReset : Bool
  needProps : Bool

/-- The state of the decoder that a reset sets. -/
def Lzma.reset (lz : Lzma) : Lzma :=
  { lz with state := .litLit, rep0 := 0, rep1 := 0, rep2 := 0, rep3 := 0, len := 0 }

/-- The masks of a properties byte. -/
def Lzma.ofProps (lz : Lzma) (props : ℕ) : Option Lzma :=
  if (4 * 5 + 4) * 9 + 8 < props ∨ 4 < props % (9 * 5) % 9 + props % (9 * 5) / 9 then none
  else some { lz with
    posMask := 2 ^ (props / (9 * 5)) - 1
    lc := props % (9 * 5) % 9
    literalPosMask := 2 ^ (props % (9 * 5) / 9) - 1 }

namespace ChunkState

/-- A reset of the decoder and its probabilities. -/
def reset (st : ChunkState) : ChunkState :=
  { st with core := { st.core with lzma := st.core.lzma.reset }, probs := fun _ => 2 ^ 11 / 2 }

/-- A chunk that empties the history. -/
def resetsDict (control : ℕ) : Prop := 0xE0 ≤ control ∨ control = 1

instance (control : ℕ) : Decidable (resetsDict control) :=
  inferInstanceAs (Decidable (0xE0 ≤ control ∨ control = 1))

/-- The history that a chunk starts with. -/
def startDict (st : ChunkState) (control : ℕ) : Option ChunkState :=
  if resetsDict control then
    some { st with core := { st.core with hist := [] }, needDictReset := false, needProps := true }
  else if st.needDictReset then none
  else some st

/-- The decoder that a compressed chunk starts with; `props` is the byte of the new properties. -/
def startLzma (st : ChunkState) (control props : ℕ) : Option ChunkState :=
  if 0xC0 ≤ control then
    (st.core.lzma.ofProps props).map fun lz =>
      reset { st with core := { st.core with lzma := lz }, needProps := false }
  else if st.needProps then none
  else if 0xA0 ≤ control then some st.reset
  else some st

end ChunkState

/-- The byte at a position, as a number. -/
def byteAt (F : Source) (pos : ℕ) : ℕ := (F pos).toNat

theorem byteAt_lt (F : Source) (pos : ℕ) : byteAt F pos < 256 := (F pos).isLt

/-- The position of the compressed data of a chunk at `pos`. -/
def dataPos (control pos : ℕ) : ℕ := if 0xC0 ≤ control then pos + 6 else pos + 5

/-- The uncompressed size of a compressed chunk at `pos`. -/
def chunkSize (F : Source) (control pos : ℕ) : ℕ :=
  control % 0x20 * 2 ^ 16 + byteAt F (pos + 1) * 2 ^ 8 + byteAt F (pos + 2) + 1

/-- The size of the compressed data. -/
def dataSize (F : Source) (pos : ℕ) : ℕ := byteAt F (pos + 3) * 2 ^ 8 + byteAt F (pos + 4) + 1

/-- A compressed chunk at `pos` of an input of `size` bytes: its output, the next state and the next
position. -/
def lzmaChunk (dictSize : ℕ) (F : Source) (size : ℕ) (st : ChunkState) (control pos : ℕ) :
    Option (List Byte × ChunkState × ℕ) :=
  let start := dataPos control pos
  let stop := start + dataSize F pos
  (st.startLzma control (byteAt F (pos + 5))).bind fun st =>
    if 5 ≤ dataSize F pos ∧ stop ≤ size then
      (chunk dictSize F stop (chunkSize F control pos) st.core
        (Reader.start F (start + 1) st.probs)).map
        fun (c, probs) => (c.made (chunkSize F control pos),
          { st with core := c, probs := probs }, stop)
    else none

/-- The history with `n` bytes of the input. -/
def ChunkState.copied (F : Source) (pos n : ℕ) (st : ChunkState) : ChunkState :=
  { st with core := { st.core with hist := (slice F pos n).reverse ++ st.core.hist } }

theorem copied_copied (F : Source) (pos n m : ℕ) (st : ChunkState) :
    (st.copied F pos n).copied F (pos + n) m = st.copied F pos (n + m) := by
  unfold ChunkState.copied
  rw [slice_add, List.reverse_append, List.append_assoc]

/-- A chunk that is copied. -/
def copyChunk (F : Source) (size : ℕ) (st : ChunkState) (pos : ℕ) :
    Option (List Byte × ChunkState × ℕ) :=
  let n := byteAt F (pos + 1) * 2 ^ 8 + byteAt F (pos + 2) + 1
  if pos + 3 + n ≤ size then
    some (slice F (pos + 3) n, st.copied F (pos + 3) n, pos + 3 + n)
  else none

/-- One chunk, which is not the end marker. -/
def anyChunk (dictSize : ℕ) (F : Source) (size : ℕ) (st : ChunkState) (control pos : ℕ) :
    Option (List Byte × ChunkState × ℕ) :=
  (st.startDict control).bind fun st =>
    if 0x80 ≤ control then lzmaChunk dictSize F size st control pos
    else if 2 < control then none
    else copyChunk F size st pos

/-- What is left to come: the output and the position behind it, or none if there is an error. -/
abbrev Rest := Option (List Byte × ℕ)

/-- Output that comes before the rest. -/
def prepend (out : List Byte) (rest : Rest) : Rest :=
  rest.map fun (more, stop) => (out ++ more, stop)

@[simp] theorem prepend_none (out : List Byte) : prepend out none = none := rfl

@[simp] theorem prepend_nil (rest : Rest) : prepend [] rest = rest := by
  cases rest <;> rfl

theorem prepend_prepend (out out' : List Byte) (rest : Rest) :
    prepend out (prepend out' rest) = prepend (out ++ out') rest := by
  cases rest with
  | none => rfl
  | some x => exact congrArg some (Prod.ext (List.append_assoc _ _ _).symm rfl)

/-- Chunks up to the end marker; `fuel` bounds their number. -/
def chunks (dictSize : ℕ) (F : Source) (size : ℕ) : ℕ → ChunkState → ℕ → Rest
  | 0, _, _ => none
  | fuel + 1, st, pos =>
    if size ≤ pos then none
    else if byteAt F pos = 0 then some ([], pos + 1)
    else (anyChunk dictSize F size st (byteAt F pos) pos).bind fun (out, st, pos) =>
      prepend out (chunks dictSize F size fuel st pos)

/-- **The format.**  The output of the chunks from `pos` on, and the position behind the end
marker. -/
def lzma2 (dictSize : ℕ) (F : Source) (size : ℕ) (st : ChunkState) (pos : ℕ) : Rest :=
  chunks dictSize F size (size + 1 - pos) st pos

section lzma2

variable {D size pos pos' control : ℕ} {F : Source} {st st' : ChunkState} {out : List Byte}

theorem lt_dataPos (control pos : ℕ) : pos < dataPos control pos := by
  unfold dataPos
  split_ifs <;> omega

/-- A chunk is not empty and ends inside of the input. -/
theorem lt_of_anyChunk (h : anyChunk D F size st control pos = some (out, st', pos')) :
    pos < pos' ∧ pos' ≤ size := by
  have hdata := lt_dataPos control pos
  unfold anyChunk at h
  obtain ⟨st1, -, h⟩ := Option.bind_eq_some_iff.mp h
  split_ifs at h with hlzma hcontrol
  · unfold lzmaChunk at h
    obtain ⟨st2, -, h⟩ := Option.bind_eq_some_iff.mp h
    split_ifs at h with hfits
    obtain ⟨⟨c, probs⟩, -, heq⟩ := Option.map_eq_some_iff.mp h
    cases heq
    omega
  · unfold copyChunk at h
    dsimp only at h
    split_ifs at h with hfits
    cases h
    omega

/-- More fuel than there are bytes makes no difference. -/
theorem chunks_eq {fuel fuel' : ℕ} (h : size < pos + fuel) (h' : size < pos + fuel') :
    chunks D F size fuel st pos = chunks D F size fuel' st pos := by
  induction fuel generalizing fuel' st pos with
  | zero =>
    cases fuel' with
    | zero => rfl
    | succ fuel' => rw [chunks, chunks, if_pos (by omega)]
  | succ fuel ih =>
    cases fuel' with
    | zero => rw [chunks, chunks, if_pos (by omega)]
    | succ fuel' =>
      rw [chunks, chunks]
      cases hchunk : anyChunk D F size st (byteAt F pos) pos with
      | none => rfl
      | some result =>
        obtain ⟨out, st', pos'⟩ := result
        have hlt := (lt_of_anyChunk hchunk).1
        simp only [Option.bind_some]
        rw [ih (by omega) (show size < pos' + fuel' by omega)]

/-- The chunks one by one. -/
theorem lzma2_eq : lzma2 D F size st pos =
    if size ≤ pos then none
    else if byteAt F pos = 0 then some ([], pos + 1)
    else (anyChunk D F size st (byteAt F pos) pos).bind fun (out, st, pos) =>
      prepend out (lzma2 D F size st pos) := by
  unfold lzma2
  by_cases hend : size ≤ pos
  · rw [if_pos hend]
    cases hfuel : size + 1 - pos with
    | zero => rfl
    | succ fuel => rw [chunks, if_pos hend]
  · obtain ⟨fuel, hfuel⟩ : ∃ fuel, size + 1 - pos = fuel + 1 := ⟨size - pos, by omega⟩
    rw [hfuel, chunks, if_neg hend, if_neg hend]
    cases hchunk : anyChunk D F size st (byteAt F pos) pos with
    | none => rfl
    | some result =>
      obtain ⟨out, st', pos'⟩ := result
      have hlt := (lt_of_anyChunk hchunk).1
      simp only [Option.bind_some]
      rw [chunks_eq (by omega) (show size < pos' + (size + 1 - pos') by omega)]

end lzma2

end Xz
end CalvinHook
