import CalvinHook.Elf.Image

/-!
# GNU hash tables

The section that `DT_GNU_HASH` points to, for an ELF64 file.  It consists of 32-bit words: four of
header, a Bloom filter of 64-bit words, the buckets and the chains.  Only the symbols from
`symoffset` on are hashed; they are sorted by bucket.  A bucket holds the index of its first symbol,
and the chain word of a symbol is its hash, with the lowest bit set at the last symbol of a bucket.

* `gnuHash`: the hash of a name.
* `GnuHash`: what a table is made from, and `GnuHash.words`: the words of the section.
* `GnuHash.length_words`, `GnuHash.getElem?_header`: the size of the section and its header.
-/

namespace CalvinHook
namespace Elf

/-- The hash of a name. -/
def gnuHash (name : List (BitVec 8)) : BitVec 32 :=
  name.foldl (fun h c => h * 33 + c.setWidth 32) 5381

/-- The hashed symbols of a table and the sizes of its parts. -/
structure GnuHash where
  nbuckets : ℕ
  /-- The index of the first hashed symbol. -/
  symoffset : ℕ
  /-- The number of 64-bit words of the Bloom filter. -/
  bloomSize : ℕ
  bloomShift : ℕ
  /-- The hashes of the symbols from `symoffset` on. -/
  hashes : List (BitVec 32)
  nbuckets_pos : 0 < nbuckets
  nbuckets_lt : nbuckets < 2 ^ 32
  symoffset_pos : 0 < symoffset
  bloomSize_pos : 0 < bloomSize
  bloomSize_lt : bloomSize < 2 ^ 32
  bloomShift_lt : bloomShift < 32
  count_lt : symoffset + hashes.length < 2 ^ 32
  sorted : hashes.Pairwise fun h h' => h.toNat % nbuckets ≤ h'.toNat % nbuckets

namespace GnuHash

variable (t : GnuHash)

/-- The number of symbols of the symbol table. -/
def count : ℕ := t.symoffset + t.hashes.length

theorem toNat_ofNat_count : (BitVec.ofNat 32 t.count).toNat = t.count := by
  rw [BitVec.toNat_ofNat]
  exact Nat.mod_eq_of_lt t.count_lt

theorem ofNat_count_ne_zero : BitVec.ofNat 32 t.count ≠ 0 := by
  intro h
  have hpos := t.symoffset_pos
  have hzero : t.symoffset + t.hashes.length = 0 := by
    rw [← count, ← toNat_ofNat_count, h]
    rfl
  omega

/-- The two bits of the Bloom filter that a hash sets, in a word of their own. -/
def bloomBits (h : BitVec 32) : BitVec 64 :=
  1#64 <<< (h.toNat % 64) ||| 1#64 <<< ((h.toNat / 2 ^ t.bloomShift) % 64)

/-- A word of the Bloom filter. -/
def bloomWord (w : ℕ) : BitVec 64 :=
  (t.hashes.filter fun h => h.toNat / 64 % t.bloomSize = w).foldl
    (fun acc h => acc ||| t.bloomBits h) 0

/-- The index of the first symbol of a bucket, `0` if it is empty. -/
def bucket (b : ℕ) : BitVec 32 :=
  match t.hashes.findIdx? fun h => h.toNat % t.nbuckets = b with
  | some i => BitVec.ofNat 32 (t.symoffset + i)
  | none => 0

/-- The chain words of the hashes that remain: the lowest bit marks the last one of a bucket. -/
def chainWords (nbuckets : ℕ) : List (BitVec 32) → List (BitVec 32)
  | [] => []
  | [h] => [h ||| 1]
  | h :: h' :: hs =>
    (if h.toNat % nbuckets = h'.toNat % nbuckets then h &&& ~~~1#32 else h ||| 1) ::
      chainWords nbuckets (h' :: hs)

/-- The header. -/
def header : List (BitVec 32) :=
  [BitVec.ofNat 32 t.nbuckets, BitVec.ofNat 32 t.symoffset, BitVec.ofNat 32 t.bloomSize,
    BitVec.ofNat 32 t.bloomShift]

/-- The Bloom filter as 32-bit words. -/
def bloom : List (BitVec 32) :=
  (List.range t.bloomSize).flatMap fun w =>
    [(t.bloomWord w).setWidth 32, (t.bloomWord w >>> 32).setWidth 32]

/-- **The words of the section.** -/
def words : List (BitVec 32) :=
  t.header ++ t.bloom ++ (List.range t.nbuckets).map t.bucket ++ chainWords t.nbuckets t.hashes

theorem length_chainWords (nbuckets : ℕ) (hs : List (BitVec 32)) :
    (chainWords nbuckets hs).length = hs.length := by
  induction hs with
  | nil => rfl
  | cons h hs ih =>
    cases hs with
    | nil => rfl
    | cons h' hs =>
      rw [chainWords, List.length_cons, ih]
      rfl

theorem length_bloom : t.bloom.length = 2 * t.bloomSize := by
  rw [bloom, List.length_flatMap]
  simp [Nat.mul_comm]

theorem length_words : t.words.length = 4 + 2 * t.bloomSize + t.nbuckets + t.hashes.length := by
  simp only [words, List.length_append, length_bloom, List.length_map, List.length_range,
    length_chainWords]
  rfl

/-- The header stands at the front. -/
theorem getElem?_header {i : ℕ} (hi : i < 4) : t.words[i]? = t.header[i]? := by
  rw [words, List.append_assoc, List.append_assoc, List.getElem?_append_left]
  exact hi

end GnuHash

end Elf
end CalvinHook
