import Mathlib.Data.BitVec
import Mathlib.Data.List.GetD
import Mathlib.Data.Nat.Basic
import Mathlib.Tactic.IntervalCases

/-!
# Byte memory with little-endian reads and writes

A memory is a total map from 64-bit addresses to bytes; address arithmetic wraps.  A range of
addresses is described by its start and its length, and membership is a comparison of the offset
from the start, so a range may wrap around the end of the address space as well.

* `InRange a n x`: the address `x` is one of the `n` addresses from `a` on.
* `Mem.read`, `Mem.write`: little-endian access of `n` bytes, with `read_write_same`,
  `read_write_of_apart` and `read_congr`.
* `Mem.writeBytes`, `Mem.bytesAt`: copying a list of bytes in and out.
* `wordBytes`: the bytes of a list of 32-bit words, and `Holds.read_word`, `Holds.read_double`,
  which read one word or two adjacent words back.
-/

namespace CalvinHook
namespace A64

/-- Addresses are 64-bit. -/
abbrev Addr := BitVec 64

/-- A byte of memory. -/
abbrev Byte := BitVec 8

/-- An instruction word. -/
abbrev Word := BitVec 32

/-- A memory: one byte at every address. -/
abbrev Mem := Addr → Byte

/-! ## Ranges of addresses -/

/-- The address `x` is one of the `n` addresses from `a` on. -/
def InRange (a : Addr) (n : ℕ) (x : Addr) : Prop := (x - a).toNat < n

instance (a : Addr) (n : ℕ) (x : Addr) : Decidable (InRange a n x) :=
  inferInstanceAs (Decidable (_ < _))

/-- Two ranges share no address. -/
def Apart (a : Addr) (n : ℕ) (b : Addr) (k : ℕ) : Prop :=
  ∀ x, InRange a n x → ¬ InRange b k x

theorem Apart.symm {a b : Addr} {n k : ℕ} (h : Apart a n b k) : Apart b k a n :=
  fun x hb ha => h x ha hb

theorem InRange.mono {a x : Addr} {n k : ℕ} (h : InRange a n x) (hnk : n ≤ k) : InRange a k x :=
  lt_of_lt_of_le h hnk

/-- The offset of `a + i` from `a`. -/
theorem toNat_add_ofNat_sub (a : Addr) {i : ℕ} (hi : i < 2 ^ 64) :
    (a + BitVec.ofNat 64 i - a).toNat = i := by
  have h : a + BitVec.ofNat 64 i - a = BitVec.ofNat 64 i := by
    rw [BitVec.add_comm, BitVec.add_sub_cancel]
  rw [h, BitVec.toNat_ofNat, Nat.mod_eq_of_lt hi]

/-- The offset from `a` is the offset from `a + d`, moved by `d`. -/
theorem sub_eq_add_sub_add (a x d : Addr) : x - a = d + (x - (a + d)) := by
  rw [← sub_sub, add_sub_cancel]

/-- The distance from a later base. -/
theorem toNat_sub_add_of_le {a x : Addr} {d : ℕ} (h : d ≤ (x - a).toNat) :
    (x - (a + BitVec.ofNat 64 d)).toNat = (x - a).toNat - d := by
  have hlt := (x - a).isLt
  rw [← sub_sub, BitVec.toNat_sub, BitVec.toNat_ofNat, Nat.mod_eq_of_lt (a := d) (by omega)]
  have hsum : 2 ^ 64 - d + (x - a).toNat = 2 ^ 64 + ((x - a).toNat - d) := by omega
  rw [hsum, Nat.add_mod_left, Nat.mod_eq_of_lt (by omega)]

theorem toNat_sub_add_of_lt {a x : Addr} {d : ℕ} (hd : d < 2 ^ 64) (h : (x - a).toNat < d) :
    (x - (a + BitVec.ofNat 64 d)).toNat = 2 ^ 64 - d + (x - a).toNat := by
  rw [← sub_sub, BitVec.toNat_sub, BitVec.toNat_ofNat, Nat.mod_eq_of_lt hd,
    Nat.mod_eq_of_lt (by omega)]

/-- A range at an offset. -/
theorem inRange_add_iff {a x : Addr} {d n : ℕ} (h : d + n ≤ 2 ^ 64) :
    InRange (a + BitVec.ofNat 64 d) n x ↔ d ≤ (x - a).toNat ∧ (x - a).toNat < d + n := by
  have hlt := (x - a).isLt
  rw [InRange]
  by_cases hle : d ≤ (x - a).toNat
  · rw [toNat_sub_add_of_le hle]
    omega
  · rcases Nat.eq_zero_or_pos n with rfl | hn
    · omega
    · rw [toNat_sub_add_of_lt (by omega) (by omega)]
      omega

theorem inRange_add {a : Addr} {n i : ℕ} (hi : i < n) (hn : i < 2 ^ 64) :
    InRange a n (a + BitVec.ofNat 64 i) := by
  rw [InRange, toNat_add_ofNat_sub a hn]
  exact hi

/-- A range inside a range, by offsets. -/
theorem inRange_of_inRange_add {a x : Addr} {n k d : ℕ} (h : InRange (a + BitVec.ofNat 64 d) k x)
    (hdn : d + k ≤ n) : InRange a n x := by
  unfold InRange at h ⊢
  rw [sub_eq_add_sub_add a x (BitVec.ofNat 64 d), BitVec.toNat_add, BitVec.toNat_ofNat]
  have hd : d % 2 ^ 64 + (x - (a + BitVec.ofNat 64 d)).toNat < n := by
    have := Nat.mod_le d (2 ^ 64)
    omega
  exact lt_of_le_of_lt (Nat.mod_le _ _) hd

/-- Two pieces of one range that do not overlap by their offsets share no address. -/
theorem apart_add {a : Addr} {d n e k : ℕ} (h : d + n ≤ e) (hk : e + k ≤ 2 ^ 64) :
    Apart (a + BitVec.ofNat 64 d) n (a + BitVec.ofNat 64 e) k := by
  intro x hd he
  unfold InRange at hd he
  have h1 := congrArg BitVec.toNat ((sub_eq_add_sub_add a x (BitVec.ofNat 64 d)).symm.trans
    (sub_eq_add_sub_add a x (BitVec.ofNat 64 e)))
  rw [BitVec.toNat_add, BitVec.toNat_add, BitVec.toNat_ofNat, BitVec.toNat_ofNat] at h1
  omega

/-! ## Alignment -/

/-- Clearing the low `k` bits of an address rounds it down. -/
theorem toNat_and_not_mask (x : Addr) (k : ℕ) :
    (x &&& ~~~BitVec.ofNat 64 (2 ^ k - 1)).toNat = x.toNat / 2 ^ k * 2 ^ k := by
  have hshift : x &&& ~~~BitVec.ofNat 64 (2 ^ k - 1) = (x >>> k) <<< k := by
    refine BitVec.eq_of_getLsbD_eq fun i hi => ?_
    rw [BitVec.getLsbD_and, BitVec.getLsbD_not, BitVec.getLsbD_ofNat, Nat.testBit_two_pow_sub_one,
      BitVec.getLsbD_shiftLeft, BitVec.getLsbD_ushiftRight]
    by_cases hik : i < k
    · simp [hi, hik]
    · have h : k + (i - k) = i := by omega
      simp [hi, hik, h]
  have hle := Nat.div_mul_le_self x.toNat (2 ^ k)
  have hlt := x.isLt
  rw [hshift, BitVec.toNat_shiftLeft, BitVec.toNat_ushiftRight, Nat.shiftLeft_eq,
    Nat.shiftRight_eq_div_pow, Nat.mod_eq_of_lt (by omega)]

/-- The low `k` bits of an address. -/
theorem toNat_and_mask (x : Addr) {k : ℕ} (hk : k ≤ 64) :
    (x &&& BitVec.ofNat 64 (2 ^ k - 1)).toNat = x.toNat % 2 ^ k := by
  have hlt : 2 ^ k - 1 < 2 ^ 64 := by
    have h1 := Nat.pow_le_pow_right (n := 2) (by omega) hk
    have h2 := Nat.two_pow_pos k
    omega
  rw [BitVec.toNat_and, BitVec.toNat_ofNat, Nat.mod_eq_of_lt hlt, Nat.and_two_pow_sub_one_eq_mod]

/-! ## Reading and writing -/

namespace Mem

/-- The `n` bytes from `a` on, the first one least significant. -/
def read (m : Mem) (a : Addr) : (n : ℕ) → BitVec (8 * n)
  | 0 => 0#0
  | n + 1 => read m (a + 1) n ++ m a

/-- Store the `n` bytes of `v` from `a` on, the least significant one first. -/
def write (m : Mem) (a : Addr) (n : ℕ) (v : BitVec (8 * n)) : Mem := fun x =>
  if InRange a n x then v.extractLsb' (8 * (x - a).toNat) 8 else m x

theorem write_of_not_inRange {m : Mem} {a x : Addr} {n : ℕ} {v : BitVec (8 * n)}
    (h : ¬ InRange a n x) : m.write a n v x = m x := if_neg h

theorem write_of_inRange {m : Mem} {a x : Addr} {n : ℕ} {v : BitVec (8 * n)}
    (h : InRange a n x) : m.write a n v x = v.extractLsb' (8 * (x - a).toNat) 8 := if_pos h

/-- The bits of what was read, byte by byte. -/
theorem getLsbD_read (m : Mem) (a : Addr) (n i : ℕ) :
    (m.read a n).getLsbD i =
      (decide (i < 8 * n) && (m (a + BitVec.ofNat 64 (i / 8))).getLsbD (i % 8)) := by
  induction n generalizing a i with
  | zero => simp [read]
  | succ n ih =>
    rw [read, BitVec.getLsbD_append]
    by_cases h : i < 8
    · have h1 : i / 8 = 0 := by omega
      have h2 : i % 8 = i := by omega
      simp [h, h1, h2]
      omega
    · have h1 : (i - 8) / 8 + 1 = i / 8 := by omega
      have h2 : (i - 8) % 8 = i % 8 := by omega
      have h3 : a + 1 + BitVec.ofNat 64 ((i - 8) / 8) = a + BitVec.ofNat 64 (i / 8) := by
        rw [← h1, BitVec.ofNat_add, BitVec.add_assoc, BitVec.add_comm 1]
        rfl
      have h4 : decide (i - 8 < 8 * n) = decide (i < 8 * (n + 1)) := by
        rw [decide_eq_decide]
        omega
      rw [ih, h2, h3, h4]
      simp [h]

/-- A read depends on the bytes of its range only. -/
theorem read_congr {m m' : Mem} {a : Addr} {n : ℕ}
    (h : ∀ i < n, m (a + BitVec.ofNat 64 i) = m' (a + BitVec.ofNat 64 i)) :
    m.read a n = m'.read a n := by
  refine BitVec.eq_of_getLsbD_eq fun i hi => ?_
  rw [getLsbD_read, getLsbD_read, h (i / 8) (by omega)]

/-- One byte of what was read. -/
theorem extractLsb_read (m : Mem) (a : Addr) {n i : ℕ} (hi : i < n) :
    (m.read a n).extractLsb' (8 * i) 8 = m (a + BitVec.ofNat 64 i) := by
  refine BitVec.eq_of_getLsbD_eq fun j hj => ?_
  have h1 : (8 * i + j) / 8 = i := by omega
  have h2 : (8 * i + j) % 8 = j := by omega
  have h3 : 8 * i + j < 8 * n := by omega
  rw [BitVec.getLsbD_extractLsb', getLsbD_read, h1, h2]
  simp [hj, h3]

/-- What was written is read back. -/
theorem read_write_same (m : Mem) (a : Addr) {n : ℕ} (hn : n ≤ 2 ^ 64) (v : BitVec (8 * n)) :
    (m.write a n v).read a n = v := by
  refine BitVec.eq_of_getLsbD_eq fun i hi => ?_
  have hlt : i / 8 < 2 ^ 64 := by omega
  have hin : InRange a n (a + BitVec.ofNat 64 (i / 8)) := inRange_add (by omega) hlt
  have h1 : 8 * (i / 8) + i % 8 = i := by omega
  have h2 : i % 8 < 8 := by omega
  rw [getLsbD_read, write_of_inRange hin, toNat_add_ofNat_sub a hlt, BitVec.getLsbD_extractLsb', h1]
  simp [hi, h2]

/-- A read is unchanged by a write to a range that shares no address with it. -/
theorem read_write_of_apart {m : Mem} {a b : Addr} {n k : ℕ} (hn : n ≤ 2 ^ 64)
    (h : Apart a n b k) (v : BitVec (8 * k)) : (m.write b k v).read a n = m.read a n := by
  refine read_congr fun i hi => write_of_not_inRange (h _ (inRange_add hi ?_))
  omega

/-- Reads of one range from two memories that agree on it. -/
theorem read_eq_of_forall_inRange {m m' : Mem} {a : Addr} {n : ℕ} (hn : n ≤ 2 ^ 64)
    (h : ∀ x, InRange a n x → m x = m' x) : m.read a n = m'.read a n :=
  read_congr fun _ hi => h _ (inRange_add hi (by omega))

/-- Writing back what is there changes nothing. -/
theorem write_read_same (m : Mem) (a : Addr) (n : ℕ) : m.write a n (m.read a n) = m := by
  funext x
  by_cases hin : InRange a n x
  · rw [write_of_inRange hin, extractLsb_read m a hin, BitVec.ofNat_toNat, BitVec.setWidth_eq,
      add_sub_cancel]
  · exact write_of_not_inRange hin

/-! ## Lists of bytes -/

/-- Copy a list of bytes to `a`. -/
def writeBytes (m : Mem) (a : Addr) (bs : List Byte) : Mem := fun x =>
  if InRange a bs.length x then bs.getD (x - a).toNat 0 else m x

/-- The `n` bytes from `a` on, as a list. -/
def bytesAt (m : Mem) (a : Addr) (n : ℕ) : List Byte :=
  (List.range n).map fun i => m (a + BitVec.ofNat 64 i)

@[simp] theorem length_bytesAt (m : Mem) (a : Addr) (n : ℕ) : (m.bytesAt a n).length = n := by
  simp [bytesAt]

theorem getD_bytesAt (m : Mem) (a : Addr) {n i : ℕ} (hi : i < n) :
    (m.bytesAt a n).getD i 0 = m (a + BitVec.ofNat 64 i) := by
  simp [bytesAt, List.getD_eq_getElem?_getD, hi]

theorem writeBytes_of_not_inRange {m : Mem} {a x : Addr} {bs : List Byte}
    (h : ¬ InRange a bs.length x) : m.writeBytes a bs x = m x := if_neg h

theorem writeBytes_of_inRange {m : Mem} {a x : Addr} {bs : List Byte}
    (h : InRange a bs.length x) : m.writeBytes a bs x = bs.getD (x - a).toNat 0 := if_pos h

theorem writeBytes_add {m : Mem} {a : Addr} {bs : List Byte} {i : ℕ} (hi : i < bs.length)
    (h64 : i < 2 ^ 64) : m.writeBytes a bs (a + BitVec.ofNat 64 i) = bs.getD i 0 := by
  rw [writeBytes_of_inRange (inRange_add hi h64), toNat_add_ofNat_sub a h64]

/-- Two memories with the same bytes on a range give the same list. -/
theorem bytesAt_congr {m m' : Mem} {a : Addr} {n : ℕ}
    (h : ∀ x, InRange a n x → m x = m' x) (hn : n ≤ 2 ^ 64) : m.bytesAt a n = m'.bytesAt a n := by
  refine List.map_congr_left fun i hi => h _ ?_
  have hi' : i < n := List.mem_range.mp hi
  exact inRange_add hi' (by omega)

/-- Bytes that are copied are read back. -/
theorem bytesAt_writeBytes (m : Mem) (a : Addr) {bs : List Byte} (h : bs.length ≤ 2 ^ 64) :
    (m.writeBytes a bs).bytesAt a bs.length = bs := by
  refine List.ext_getElem (length_bytesAt _ _ _) fun i h1 h2 => ?_
  have hget := getD_bytesAt (m.writeBytes a bs) a h2
  rw [writeBytes_add h2 (by omega)] at hget
  simpa [List.getD_eq_getElem?_getD, h1, h2] using hget

/-- Two lists copied one after the other. -/
theorem writeBytes_append (m : Mem) (a : Addr) {bs cs : List Byte}
    (h : bs.length + cs.length ≤ 2 ^ 64) :
    m.writeBytes a (bs ++ cs) =
      (m.writeBytes a bs).writeBytes (a + BitVec.ofNat 64 bs.length) cs := by
  funext x
  have hiff := inRange_add_iff (a := a) (x := x) h
  by_cases hc : InRange (a + BitVec.ofNat 64 bs.length) cs.length x
  · obtain ⟨hle, hlt⟩ := hiff.mp hc
    rw [writeBytes_of_inRange hc,
      writeBytes_of_inRange (by rw [InRange, List.length_append]; exact hlt),
      List.getD_append_right _ _ _ _ hle, toNat_sub_add_of_le hle]
  · rw [writeBytes_of_not_inRange hc]
    by_cases hb : InRange a bs.length x
    · rw [writeBytes_of_inRange hb, writeBytes_of_inRange
        (hb.mono (by rw [List.length_append]; omega)), List.getD_append _ _ _ _ hb]
    · rw [writeBytes_of_not_inRange hb, writeBytes_of_not_inRange]
      intro hin
      rw [InRange, List.length_append] at hin
      exact hc (hiff.mpr ⟨not_lt.mp hb, hin⟩)

/-! ## Patches -/

/-- The memory with each patch copied over it, in the order of the list. -/
def overlay (m : Mem) (patches : List (Addr × List Byte)) : Mem :=
  patches.foldl (fun m p => m.writeBytes p.1 p.2) m

/-- Outside all patches the memory shows. -/
theorem overlay_of_forall_not_inRange {m : Mem} {patches : List (Addr × List Byte)} {x : Addr}
    (h : ∀ p ∈ patches, ¬ InRange p.1 p.2.length x) : m.overlay patches x = m x := by
  induction patches generalizing m with
  | nil => rfl
  | cons p patches ih =>
    have hrec := ih (m := m.writeBytes p.1 p.2) fun q hq => h q (List.mem_cons_of_mem p hq)
    rw [writeBytes_of_not_inRange (h p List.mem_cons_self)] at hrec
    exact hrec

/-- Inside a patch that shares no address with a later one, the patch shows. -/
theorem overlay_of_inRange {m : Mem} {patches : List (Addr × List Byte)} {x : Addr}
    (hapart : patches.Pairwise fun p q => Apart p.1 p.2.length q.1 q.2.length)
    {p : Addr × List Byte} (hp : p ∈ patches) (hx : InRange p.1 p.2.length x) :
    m.overlay patches x = p.2.getD (x - p.1).toNat 0 := by
  induction patches generalizing m with
  | nil => exact absurd hp List.not_mem_nil
  | cons q patches ih =>
    rw [List.pairwise_cons] at hapart
    rcases List.mem_cons.mp hp with rfl | hp
    · have hrec := overlay_of_forall_not_inRange (m := m.writeBytes p.1 p.2) (x := x)
        fun q hq => hapart.1 q hq x hx
      rw [writeBytes_of_inRange hx] at hrec
      exact hrec
    · exact ih hapart.2 hp

end Mem

/-! ## Lists of words -/

/-- The bytes of a list of words, each word least significant byte first. -/
def wordBytes : List Word → List Byte
  | [] => []
  | w :: ws => w.extractLsb' 0 8 :: w.extractLsb' 8 8 :: w.extractLsb' 16 8 :: w.extractLsb' 24 8 ::
      wordBytes ws

@[simp] theorem length_wordBytes (ws : List Word) : (wordBytes ws).length = 4 * ws.length := by
  induction ws with
  | nil => rfl
  | cons w ws ih =>
    simp only [wordBytes, List.length_cons, ih]
    omega

/-- Byte `j` of word `i`. -/
theorem getD_wordBytes (ws : List Word) (i j : ℕ) (hj : j < 4) :
    (wordBytes ws).getD (4 * i + j) 0 = (ws.getD i 0).extractLsb' (8 * j) 8 := by
  induction ws generalizing i with
  | nil => simp [wordBytes]
  | cons w ws ih =>
    cases i with
    | zero => interval_cases j <;> rfl
    | succ i =>
      have h : 4 * (i + 1) + j = 4 * i + j + 1 + 1 + 1 + 1 := by omega
      rw [h, wordBytes]
      simp only [List.getD_cons_succ]
      exact ih i

/-- The memory holds the words `ws` from `a` on. -/
def Holds (m : Mem) (a : Addr) (ws : List Word) : Prop :=
  ∀ i < 4 * ws.length, m (a + BitVec.ofNat 64 i) = (wordBytes ws).getD i 0

/-- Copying the bytes of `ws` makes the memory hold them. -/
theorem holds_writeBytes (m : Mem) (a : Addr) {ws : List Word} (h : 4 * ws.length ≤ 2 ^ 64) :
    Holds (m.writeBytes a (wordBytes ws)) a ws := by
  intro i hi
  refine Mem.writeBytes_add ?_ (by omega)
  rw [length_wordBytes]
  exact hi

/-- Bit `b` of word `i` is in byte `4 * i + b / 8`. -/
theorem Holds.getLsbD {m : Mem} {a : Addr} {ws : List Word} (h : Holds m a ws) {i b : ℕ}
    (hi : i < ws.length) (hb : b < 32) :
    (m (a + BitVec.ofNat 64 (4 * i + b / 8))).getLsbD (b % 8) = (ws.getD i 0).getLsbD b := by
  have h1 : 8 * (b / 8) + b % 8 = b := by omega
  have h2 : b % 8 < 8 := by omega
  rw [h _ (by omega), getD_wordBytes ws i (b / 8) (by omega), BitVec.getLsbD_extractLsb', h1]
  simp [h2]

/-- One word, read back. -/
theorem Holds.read_word {m : Mem} {a : Addr} {ws : List Word} (h : Holds m a ws) {i : ℕ}
    (hi : i < ws.length) :
    (m.read (a + BitVec.ofNat 64 (4 * i)) 4 : BitVec 32) = ws.getD i 0 := by
  refine BitVec.eq_of_getLsbD_eq fun b hb => ?_
  have hadd : a + BitVec.ofNat 64 (4 * i) + BitVec.ofNat 64 (b / 8) =
      a + BitVec.ofNat 64 (4 * i + b / 8) := by
    rw [BitVec.add_assoc, ← BitVec.ofNat_add]
  rw [Mem.getLsbD_read, hadd, h.getLsbD hi hb]
  simp [hb]

/-- Two adjacent words, read back as one 64-bit value with the first word least significant. -/
theorem Holds.read_double {m : Mem} {a : Addr} {ws : List Word} (h : Holds m a ws) {i : ℕ}
    (hi : i + 1 < ws.length) {v : BitVec 64} (hlo : ws.getD i 0 = v.extractLsb' 0 32)
    (hhi : ws.getD (i + 1) 0 = v.extractLsb' 32 32) :
    (m.read (a + BitVec.ofNat 64 (4 * i)) 8 : BitVec 64) = v := by
  refine BitVec.eq_of_getLsbD_eq fun b hb => ?_
  have hadd : a + BitVec.ofNat 64 (4 * i) + BitVec.ofNat 64 (b / 8) =
      a + BitVec.ofNat 64 (4 * i + b / 8) := by
    rw [BitVec.add_assoc, ← BitVec.ofNat_add]
  rw [Mem.getLsbD_read, hadd]
  -- the two words are the two halves of the value
  by_cases hlt : b < 32
  · rw [h.getLsbD (by omega) hlt, hlo, BitVec.getLsbD_extractLsb']
    simp [hb, hlt]
  · have h1 : 4 * i + b / 8 = 4 * (i + 1) + (b - 32) / 8 := by omega
    have h2 : b % 8 = (b - 32) % 8 := by omega
    have h3 : 32 + (b - 32) = b := by omega
    rw [h1, h2, h.getLsbD hi (by omega), hhi, BitVec.getLsbD_extractLsb', h3]
    have h4 : b - 32 < 32 := by omega
    simp [hb, h4]

theorem wordBytes_append (us ws : List Word) :
    wordBytes (us ++ ws) = wordBytes us ++ wordBytes ws := by
  induction us with
  | nil => rfl
  | cons u us ih => simp only [List.cons_append, wordBytes, ih]

theorem holds_append {m : Mem} {a : Addr} {us ws : List Word} :
    Holds m a (us ++ ws) ↔ Holds m a us ∧ Holds m (a + BitVec.ofNat 64 (4 * us.length)) ws := by
  have hlen := length_wordBytes us
  constructor
  · intro h
    refine ⟨fun i hi => ?_, fun i hi => ?_⟩
    · rw [h i (by rw [List.length_append]; omega), wordBytes_append,
        List.getD_append _ _ _ _ (by omega)]
    · rw [BitVec.add_assoc, ← BitVec.ofNat_add, h _ (by rw [List.length_append]; omega),
        wordBytes_append, List.getD_append_right _ _ _ _ (by omega), hlen, Nat.add_sub_cancel_left]
  · rintro ⟨h1, h2⟩ i hi
    rw [List.length_append] at hi
    rw [wordBytes_append]
    by_cases hlt : i < 4 * us.length
    · rw [h1 i hlt, List.getD_append _ _ _ _ (by omega)]
    · have h3 := h2 (i - 4 * us.length) (by omega)
      rw [BitVec.add_assoc, ← BitVec.ofNat_add, Nat.add_sub_cancel' (by omega)] at h3
      rw [h3, List.getD_append_right _ _ _ _ (by omega), hlen]

/-- The words are still there in a memory that agrees on their range. -/
theorem Holds.congr {m m' : Mem} {a : Addr} {ws : List Word} (h : Holds m a ws)
    (hlen : 4 * ws.length ≤ 2 ^ 64) (heq : ∀ x, InRange a (4 * ws.length) x → m' x = m x) :
    Holds m' a ws := by
  intro i hi
  rw [heq _ (inRange_add hi (by omega)), h i hi]

/-- Words written over others of the same number. -/
theorem Holds.overwrite {m : Mem} {a : Addr} {us vs vs' ws : List Word}
    (h : Holds m a (us ++ vs ++ ws)) (hvs : vs'.length = vs.length)
    (hlen : 4 * (us ++ vs ++ ws).length ≤ 2 ^ 64) :
    Holds (m.writeBytes (a + BitVec.ofNat 64 (4 * us.length)) (wordBytes vs')) a
      (us ++ vs' ++ ws) := by
  simp only [List.length_append] at hlen
  rw [holds_append, holds_append] at h ⊢
  obtain ⟨⟨hu, -⟩, hw⟩ := h
  have hout : ∀ d n,
      d + n ≤ 4 * us.length ∨ (4 * us.length + 4 * vs.length ≤ d ∧ d + n ≤ 2 ^ 64) →
        ∀ x, InRange (a + BitVec.ofNat 64 d) n x →
          m.writeBytes (a + BitVec.ofNat 64 (4 * us.length)) (wordBytes vs') x = m x := by
    intro d n hd x hx
    refine Mem.writeBytes_of_not_inRange fun hin => ?_
    rw [length_wordBytes, hvs] at hin
    rcases hd with hd | ⟨hd, hn⟩
    · exact apart_add hd (by omega) x hx hin
    · exact apart_add hd hn x hin hx
  refine ⟨⟨hu.congr (by omega) fun x hx => ?_, holds_writeBytes m _ (by omega)⟩, ?_⟩
  · exact hout 0 (4 * us.length) (by omega) x (by simpa using hx)
  · rw [List.length_append, hvs, ← List.length_append]
    refine hw.congr (by omega) fun x hx => ?_
    exact hout _ _
      (.inr ⟨by rw [List.length_append]; omega, by rw [List.length_append]; omega⟩) x hx

end A64
end CalvinHook
