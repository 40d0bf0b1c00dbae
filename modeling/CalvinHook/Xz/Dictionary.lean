import CalvinHook.Coding.Ring
import CalvinHook.Repeat
import Mathlib.Data.BitVec

/-!
# The dictionary of the LZMA2 decoder

`struct dictionary` of `xz_dec_lzma2.c` in multi-call mode, the only one that the project builds: a
ring buffer from which earlier output is repeated, and out of which new output is flushed to the
caller's buffer.

The buffer `struct xz_buf` of a call comes with it.  The arrays are functions of the index; that
nothing is read or written outside of them is a theorem about the decoder, not part of the model.
-/

namespace CalvinHook
namespace Xz

/-- One byte. -/
abbrev Byte := BitVec 8

/-- Some bytes of an array, from a position on. -/
def slice (buf : ℕ → Byte) (pos n : ℕ) : List Byte := (List.range n).map fun i => buf (pos + i)

theorem slice_add (buf : ℕ → Byte) (pos n m : ℕ) :
    slice buf pos (n + m) = slice buf pos n ++ slice buf (pos + n) m := by
  unfold slice
  rw [List.range_add, List.map_append, List.map_map]
  congr 2
  funext i
  exact congrArg buf (Nat.add_assoc pos n i).symm

theorem length_slice (buf : ℕ → Byte) (pos n : ℕ) : (slice buf pos n).length = n := by
  rw [slice, List.length_map, List.length_range]

/-- `struct xz_buf`: the caller's input and output. -/
structure XzBuf where
  input : ℕ → Byte
  inPos : ℕ
  inSize : ℕ
  out : ℕ → Byte
  outPos : ℕ
  outSize : ℕ

/-- `struct dictionary` of the multi-call mode; `bufEnd` is its `end`. -/
structure Dictionary where
  buf : ℕ → Byte
  start : ℕ
  pos : ℕ
  full : ℕ
  limit : ℕ
  bufEnd : ℕ
  size : ℕ
  sizeMax : ℕ
  allocated : ℕ

namespace Dictionary

variable (d : Dictionary)

/-- `dict_reset`. -/
def reset : Dictionary := { d with start := 0, pos := 0, limit := 0, full := 0 }

/-- `dict_limit`. -/
def setLimit (outMax : ℕ) : Dictionary :=
  { d with limit := if d.bufEnd - d.pos ≤ outMax then d.bufEnd else d.pos + outMax }

/-- `dict_has_space`. -/
def hasSpace : Prop := d.pos < d.limit

instance : Decidable d.hasSpace := inferInstanceAs (Decidable (d.pos < d.limit))

/-- The index of the byte at a distance, a difference of numbers of 64 bits. -/
def back (dist : ℕ) : ℕ :=
  (2 ^ 64 + d.pos - (dist + 1) + if d.pos ≤ dist then d.bufEnd else 0) % 2 ^ 64

/-- `dict_get`. -/
def get (dist : ℕ) : Byte := if 0 < d.full then d.buf (d.back dist) else 0

/-- `dict_put`. -/
def put (byte : Byte) : Dictionary :=
  { d with
    buf := Function.update d.buf d.pos byte
    pos := d.pos + 1
    full := if d.full < d.pos + 1 then d.pos + 1 else d.full }

/-- How often the body of a `do` loop with the condition `--left > 0` runs for a counter of 32
bits. -/
def doWhileCount (left : ℕ) : ℕ := if left = 0 then 2 ^ 32 else left

/-- `dict_repeat`: the length that is left to be repeated, none for an invalid distance. -/
def repeatMatch (len dist : ℕ) : Option (ℕ × Dictionary) :=
  if d.full ≤ dist ∨ d.size ≤ dist then none
  else
    let left := min (d.limit - d.pos) len
    let copied := (Ring.copyStep d.bufEnd)^[doWhileCount left] (d.buf, d.pos, d.back dist)
    some (len - left,
      { d with
        buf := copied.1
        pos := copied.2.1
        full := if d.full < copied.2.1 then copied.2.1 else d.full })

/-- How much `dict_uncompressed` copies at once. -/
def copySize (b : XzBuf) (left : ℕ) : ℕ :=
  min (min (min (b.inSize - b.inPos) (b.outSize - b.outPos)) (d.bufEnd - d.pos)) left

/-- One pass of the loop of `dict_uncompressed`. -/
def uncompressedStep (s : Dictionary × XzBuf × ℕ) :
    (Dictionary × XzBuf × ℕ) ⊕ (Dictionary × XzBuf × ℕ) :=
  let (d, b, left) := s
  if 0 < left ∧ b.inPos < b.inSize ∧ b.outPos < b.outSize then
    let n := d.copySize b left
    let source := fun i => b.input (b.inPos + i)
    let pos := if d.pos + n = d.bufEnd then 0 else d.pos + n
    .inl ({ d with
        buf := Ring.store d.buf d.pos source n
        full := if d.full < d.pos + n then d.pos + n else d.full
        pos := pos
        start := pos },
      { b with
        out := Ring.store b.out b.outPos source n
        outPos := b.outPos + n
        inPos := b.inPos + n }, left - n)
  else .inr s

/-- `dict_uncompressed`: every pass copies a byte at least, so that `left + 1` passes are enough. -/
def uncompressed (b : XzBuf) (left : ℕ) : Dictionary × XzBuf × ℕ :=
  (Repeat.loop uncompressedStep (left + 1) (d, b, left)).getD (d, b, left)

/-- `dict_flush`: the number of bytes that went to the output. -/
def flush (b : XzBuf) : ℕ × Dictionary × XzBuf :=
  let copySize := d.pos - d.start
  let pos := if d.pos = d.bufEnd then 0 else d.pos
  (copySize, { d with pos := pos, start := pos },
    { b with
      out := Ring.store b.out b.outPos (fun i => d.buf (d.start + i)) copySize
      outPos := b.outPos + copySize })

end Dictionary

end Xz
end CalvinHook
