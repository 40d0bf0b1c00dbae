import CalvinHook.A64.Memory
import CalvinHook.Transition

/-!
# `assembler.cpp`: the growth of a code buffer

A `CodeBuffer` doubles its capacity until what is to be written fits.  The constructor starts the
capacity at 256, so that doubling reaches every size up to `2 ^ 31`; a buffer that has been moved
from has the capacity 0, and doubling does not change that.  `EnsureCapacity` on such a buffer
returns only if nothing is to be written.

* `CodeBuffer.grow`: the loop, pass by pass; `grow_fuel` says how many passes decide whether it
  ends.
* `CodeBuffer.Allocated`: what is true of a buffer that has its memory; `Allocated.emitBytes` writes
  into one, and `Allocated.ensureCapacity_eq_none` says where the 32-bit capacity ends.
* `Op`, `exec`: programs with several buffers, and `Owners`, the buffers that have been moved from.
* `ensureCapacity_grows_iff`: in every state that can be reached.
-/

namespace CalvinHook
namespace Arm64

open A64

/-! ## The source -/

/-- `CodeBuffer`: the bytes written so far, from `data` on, with the size and the capacity. -/
@[ext] structure CodeBuffer where
  bytes : List Byte
  size : BitVec 32
  capacity : BitVec 32
  deriving DecidableEq

namespace CodeBuffer

/-- `CodeBuffer()`. -/
def new : CodeBuffer := ⟨[], 0, 256⟩

/-- What a move leaves behind. -/
def movedFrom : CodeBuffer := ⟨[], 0, 0⟩

/-- The loop of `EnsureCapacity`, for at most `n` passes; none if it has not ended by then. -/
def grow (want : BitVec 32) : ℕ → BitVec 32 → Option (BitVec 32)
  | 0, _ => none
  | n + 1, capacity => if want ≤ capacity then some capacity else grow want n (capacity * 2)

/-- `EnsureCapacity`; none if the loop does not end (`ensureCapacity_eq_none_iff`). -/
def ensureCapacity (b : CodeBuffer) (needed : BitVec 32) : Option CodeBuffer :=
  if b.size + needed ≤ b.capacity then some b
  else (grow (b.size + needed) 33 b.capacity).map fun capacity => { b with capacity := capacity }

/-- `EmitBytes`. -/
def emitBytes (b : CodeBuffer) (src : List Byte) : Option CodeBuffer := do
  let b ← b.ensureCapacity (BitVec.ofNat 32 src.length)
  return { b with bytes := b.bytes ++ src, size := b.size + BitVec.ofNat 32 src.length }

/-- `EmitU32`. -/
def emitU32 (b : CodeBuffer) (val : Word) : Option CodeBuffer := b.emitBytes (wordBytes [val])

/-- `EmitU64`. -/
def emitU64 (b : CodeBuffer) (val : BitVec 64) : Option CodeBuffer :=
  b.emitBytes (wordBytes [val.extractLsb' 0 32, val.extractLsb' 32 32])

/-- `Assembler::Reset`, on the buffer. -/
def reset (b : CodeBuffer) : CodeBuffer := { b with bytes := [], size := 0 }

/-! ## The loop -/

section Grow

variable {want : BitVec 32} {n : ℕ} {capacity c : BitVec 32}

theorem grow_succ : grow want (n + 1) capacity =
    if want ≤ capacity then some capacity else grow want n (capacity * 2) := rfl

/-- Doubling nothing. -/
theorem grow_zero (hwant : want ≠ 0) (n : ℕ) : grow want n 0 = none := by
  induction n with
  | zero => rfl
  | succ n ih =>
    have hle : ¬want ≤ 0 := fun h => hwant (BitVec.le_zero_iff.mp h)
    have hmul : (0 : BitVec 32) * 2 = 0 := by decide
    rw [grow_succ, if_neg hle, hmul, ih]

/-- Once the capacity has been doubled to zero, the loop ends at once or never. -/
theorem grow_fuel_of_mul_eq_zero {k : ℕ} (hk : capacity.toNat * 2 ^ k % 2 ^ 32 = 0)
    (h : grow want n capacity = some c) : grow want (k + 1) capacity = some c := by
  induction k generalizing capacity n with
  | zero =>
    have hzero : capacity = 0 := by
      have hlt := capacity.isLt
      apply BitVec.eq_of_toNat_eq
      rw [BitVec.ofNat_eq_ofNat, BitVec.toNat_zero]
      omega
    subst hzero
    by_cases hwant : want = 0
    · cases n with
      | zero => cases h
      | succ n =>
        have hle : want ≤ 0 := BitVec.le_zero_iff.mpr hwant
        rw [grow_succ, if_pos hle] at h ⊢
        exact h
    · rw [grow_zero hwant] at h
      cases h
  | succ k ih =>
    cases n with
    | zero => cases h
    | succ n =>
      rw [grow_succ] at h ⊢
      split_ifs at h ⊢ with hle
      · exact h
      · refine ih ?_ h
        rw [Nat.pow_succ, Nat.mul_comm (2 ^ k), ← Nat.mul_assoc] at hk
        rw [BitVec.toNat_mul, Nat.mod_mul_mod]
        exact hk

/-- Thirty-three passes decide whether the loop ends. -/
theorem grow_fuel (h : grow want n capacity = some c) : grow want 33 capacity = some c :=
  grow_fuel_of_mul_eq_zero (k := 32) (Nat.mul_mod_left _ _) h

/-- Twice a power of two. -/
theorem toNat_mul_two {k : ℕ} (hcap : capacity.toNat = 2 ^ k) (hk : k < 31) :
    (capacity * 2).toNat = 2 ^ (k + 1) := by
  have hlt : 2 ^ (k + 1) < 2 ^ 32 := Nat.pow_lt_pow_right (by omega) (by omega)
  rw [BitVec.toNat_mul, hcap, Nat.pow_succ]
  exact Nat.mod_eq_of_lt (by rwa [Nat.pow_succ] at hlt)

/-- Doubling a power of two reaches every size up to `2 ^ 31`. -/
theorem grow_of_le (hwant : want.toNat ≤ 2 ^ 31) {k : ℕ} (hcap : capacity.toNat = 2 ^ k)
    (hk : k ≤ 31) (hn : 31 - k < n) :
    ∃ j c, k ≤ j ∧ j ≤ 31 ∧ c.toNat = 2 ^ j ∧ want ≤ c ∧ grow want n capacity = some c := by
  induction n generalizing k capacity with
  | zero => omega
  | succ n ih =>
    by_cases hle : want ≤ capacity
    · exact ⟨k, capacity, le_rfl, hk, hcap, hle, by rw [grow_succ, if_pos hle]⟩
    · have hk31 : k < 31 := by
        by_contra hge
        have h31 : k = 31 := by omega
        rw [h31] at hcap
        exact hle (BitVec.le_def.mpr (by omega))
      obtain ⟨j, c, hj, hj31, hc, hwc, hg⟩ := ih (toNat_mul_two hcap hk31) hk31 (by omega)
      exact ⟨j, c, by omega, hj31, hc, hwc, by rw [grow_succ, if_neg hle, hg]⟩

/-- It reaches no larger size: the capacity becomes zero. -/
theorem grow_of_gt (hwant : 2 ^ 31 < want.toNat) {k : ℕ} (hcap : capacity.toNat = 2 ^ k)
    (hk : k ≤ 31) (n : ℕ) : grow want n capacity = none := by
  induction n generalizing k capacity with
  | zero => rfl
  | succ n ih =>
    have hpow : 2 ^ k ≤ 2 ^ 31 := Nat.pow_le_pow_right (by omega) hk
    have hle : ¬want ≤ capacity := by
      rw [BitVec.le_def]
      omega
    rw [grow_succ, if_neg hle]
    by_cases hk31 : k = 31
    · have hzero : capacity * 2 = 0 := by
        apply BitVec.eq_of_toNat_eq
        rw [BitVec.toNat_mul, hcap, hk31]
        rfl
      rw [hzero]
      refine grow_zero ?_ n
      rintro rfl
      exact absurd hwant (by decide)
    · exact ih (toNat_mul_two hcap (by omega)) (by omega)

end Grow

/-- `EnsureCapacity` has no result exactly if no number of passes ends its loop. -/
theorem ensureCapacity_eq_none_iff {b : CodeBuffer} {needed : BitVec 32} :
    b.ensureCapacity needed = none ↔ ∀ n, grow (b.size + needed) n b.capacity = none := by
  rw [ensureCapacity]
  split_ifs with hle
  · refine ⟨fun h => absurd h (by simp), fun h => ?_⟩
    have h1 := h 1
    rw [grow_succ, if_pos hle] at h1
    cases h1
  · rw [Option.map_eq_none_iff]
    refine ⟨fun h n => ?_, fun h => h 33⟩
    by_contra hne
    obtain ⟨c, hc⟩ := Option.ne_none_iff_exists'.mp hne
    rw [grow_fuel hc] at h
    cases h

/-! ## Buffers with memory -/

/-- The buffer has its memory: the capacity is a power of two that the constructor or doubling
gave. -/
structure Allocated (b : CodeBuffer) : Prop where
  capacity : ∃ k, 8 ≤ k ∧ k ≤ 31 ∧ b.capacity.toNat = 2 ^ k
  size_le : b.size ≤ b.capacity
  length : b.bytes.length = b.size.toNat

theorem allocated_new : new.Allocated :=
  ⟨⟨8, by decide, by decide, by decide⟩, by decide, by decide⟩

theorem Allocated.reset {b : CodeBuffer} (h : b.Allocated) : b.reset.Allocated where
  capacity := h.capacity
  size_le := BitVec.le_def.mpr (Nat.zero_le _)
  length := rfl

section Ensure

variable {b : CodeBuffer} {needed : BitVec 32}

/-- What is needed, as a number. -/
theorem toNat_want (hlt : b.size.toNat + needed.toNat < 2 ^ 32) :
    (b.size + needed).toNat = b.size.toNat + needed.toNat :=
  BitVec.toNat_add_of_lt hlt

variable (h : b.Allocated)
include h

/-- Up to `2 ^ 31` bytes the buffer grows until there is room. -/
theorem Allocated.ensureCapacity (hfit : b.size.toNat + needed.toNat ≤ 2 ^ 31) :
    ∃ c, b.ensureCapacity needed = some { b with capacity := c } ∧
      (∃ k, 8 ≤ k ∧ k ≤ 31 ∧ c.toNat = 2 ^ k) ∧ b.size.toNat + needed.toNat ≤ c.toNat := by
  obtain ⟨k, hk8, hk31, hcap⟩ := h.capacity
  have hwant : (b.size + needed).toNat = _ := toNat_want (by omega)
  by_cases hle : b.size + needed ≤ b.capacity
  · refine ⟨b.capacity, if_pos hle, ⟨k, hk8, hk31, hcap⟩, ?_⟩
    rw [← hwant]
    exact BitVec.le_def.mp hle
  · have hwle : (b.size + needed).toNat ≤ 2 ^ 31 := by omega
    obtain ⟨j, c, hj, hj31, hc, hwc, hg⟩ := grow_of_le hwle hcap hk31 (n := 33) (by omega)
    refine ⟨c, ?_, ⟨j, by omega, hj31, hc⟩, ?_⟩
    · rw [CodeBuffer.ensureCapacity, if_neg hle, hg]
      rfl
    · rw [← hwant]
      exact BitVec.le_def.mp hwc

/-- Past `2 ^ 31` bytes the loop does not end. -/
theorem Allocated.ensureCapacity_eq_none (hgt : 2 ^ 31 < b.size.toNat + needed.toNat)
    (hlt : b.size.toNat + needed.toNat < 2 ^ 32) : b.ensureCapacity needed = none := by
  obtain ⟨k, -, hk31, hcap⟩ := h.capacity
  have hwant := toNat_want hlt
  exact ensureCapacity_eq_none_iff.mpr (grow_of_gt (by omega) hcap hk31)

end Ensure

/-- Writing into a buffer with memory. -/
theorem Allocated.emitBytes {b : CodeBuffer} (h : b.Allocated) {src : List Byte}
    (hfit : b.size.toNat + src.length ≤ 2 ^ 31) :
    ∃ b', b.emitBytes src = some b' ∧ b'.Allocated ∧ b'.bytes = b.bytes ++ src ∧
      b'.size.toNat = b.size.toNat + src.length := by
  have hlen : (BitVec.ofNat 32 src.length).toNat = src.length := by
    rw [BitVec.toNat_ofNat, Nat.mod_eq_of_lt (by omega)]
  have hfit' : b.size.toNat + (BitVec.ofNat 32 src.length).toNat ≤ 2 ^ 31 := by omega
  obtain ⟨c, hensure, hpow, hroom⟩ := h.ensureCapacity hfit'
  have hsize : (b.size + BitVec.ofNat 32 src.length).toNat = b.size.toNat + src.length := by
    rw [toNat_want (by omega), hlen]
  rw [hlen] at hroom
  refine ⟨⟨b.bytes ++ src, b.size + BitVec.ofNat 32 src.length, c⟩, ?_, ⟨hpow, ?_, ?_⟩, rfl, hsize⟩
  · rw [CodeBuffer.emitBytes, hensure]
    rfl
  · rw [BitVec.le_def, hsize]
    exact hroom
  · rw [List.length_append, h.length, hsize]

/-- Past `2 ^ 31` bytes nothing is written. -/
theorem Allocated.emitBytes_eq_none {b : CodeBuffer} (h : b.Allocated) {src : List Byte}
    (hgt : 2 ^ 31 < b.size.toNat + src.length) (hlt : b.size.toNat + src.length < 2 ^ 32) :
    b.emitBytes src = none := by
  have hlen : (BitVec.ofNat 32 src.length).toNat = src.length := by
    rw [BitVec.toNat_ofNat, Nat.mod_eq_of_lt (by omega)]
  rw [CodeBuffer.emitBytes, h.ensureCapacity_eq_none (by omega) (by omega)]
  rfl

/-! ## A buffer that has been moved from -/

/-- Only a request for nothing returns. -/
theorem ensureCapacity_movedFrom (needed : BitVec 32) :
    movedFrom.ensureCapacity needed = if needed = 0 then some movedFrom else none := by
  have hsize : movedFrom.size + needed = needed := BitVec.zero_add needed
  split_ifs with hz
  · subst hz
    rfl
  · rw [ensureCapacity_eq_none_iff, hsize]
    exact grow_zero hz

end CodeBuffer

/-! ## Programs with several buffers -/

/-- The buffers of a program, by name; each has been constructed. -/
abbrev Buffers := ℕ → CodeBuffer

/-- The state with a fresh buffer under each name. -/
def Buffers.init : Buffers := fun _ => .new

/-- What a program does with its buffers. -/
inductive Op where
  /-- `CodeBuffer i;`. -/
  | construct (i : ℕ)
  | emitU32 (i : ℕ) (val : Word)
  | emitU64 (i : ℕ) (val : BitVec 64)
  | emitBytes (i : ℕ) (src : List Byte)
  /-- `CodeBuffer i(std::move(j));`. -/
  | moveConstruct (i j : ℕ)
  /-- `i = std::move(j);`. -/
  | moveAssign (i j : ℕ)
  /-- `Reset` of the assembler that holds the buffer. -/
  | reset (i : ℕ)
  deriving DecidableEq

namespace Buffers

/-- The contents of `j` under the name `i`, and nothing under the name `j`. -/
def move (s : Buffers) (i j : ℕ) : Buffers :=
  Function.update (Function.update s j .movedFrom) i (s j)

/-- One operation; none if an `EnsureCapacity` does not return. -/
def exec (s : Buffers) : Op → Option Buffers
  | .construct i => some (Function.update s i .new)
  | .emitU32 i val => ((s i).emitU32 val).map (Function.update s i)
  | .emitU64 i val => ((s i).emitU64 val).map (Function.update s i)
  | .emitBytes i src => ((s i).emitBytes src).map (Function.update s i)
  | .moveConstruct i j => some (s.move i j)
  | .moveAssign i j => if i = j then some s else some (s.move i j)
  | .reset i => some (Function.update s i (s i).reset)

/-- The operation on a program that may have been caught in a loop before. -/
def step (s : Option Buffers) (op : Op) : Option Buffers := s.bind (exec · op)

end Buffers

/-- The bytes an operation writes, and where. -/
def Op.emission : Op → Option (ℕ × List Byte)
  | .emitU32 i val => some (i, wordBytes [val])
  | .emitU64 i val => some (i, wordBytes [val.extractLsb' 0 32, val.extractLsb' 32 32])
  | .emitBytes i src => some (i, src)
  | _ => none

/-- What is written stays below `2 ^ 31` bytes. -/
def Op.Small (s : Option Buffers) (op : Op) : Prop :=
  ∀ t ∈ s, ∀ e ∈ op.emission, (t e.1).size.toNat + e.2.length < 2 ^ 31

/-! ## The buffers that have been moved from -/

/-- Which buffers have been moved from, and not been given memory since. -/
abbrev Owners := ℕ → Bool

namespace Owners

/-- The name `i` takes over what `j` has. -/
def move (g : Owners) (i j : ℕ) : Owners := Function.update (Function.update g j true) i (g j)

def step (g : Owners) : Op → Owners
  | .construct i => Function.update g i false
  | .moveConstruct i j => g.move i j
  | .moveAssign i j => g.move i j
  | _ => g

/-- Which buffers have been moved from in a program. -/
def movedFrom (ops : List Op) : Owners := Transition.run step (fun _ => false) ops

end Owners

/-- A buffer that has been moved from is empty, and each other one has its memory. -/
def Buffers.Tracks (s : Buffers) (g : Owners) : Prop :=
  ∀ i, if g i then s i = .movedFrom else (s i).Allocated

namespace Buffers

open Transition

variable {s : Buffers} {g : Owners}

theorem Tracks.update (h : s.Tracks g) (i : ℕ) {b : CodeBuffer} {moved : Bool}
    (hb : if moved then b = .movedFrom else b.Allocated) :
    Tracks (Function.update s i b) (Function.update g i moved) := by
  intro k
  by_cases hk : k = i
  · subst hk
    rwa [Function.update_self, Function.update_self]
  · rw [Function.update_of_ne hk, Function.update_of_ne hk]
    exact h k

theorem Tracks.move (h : s.Tracks g) (i j : ℕ) : Tracks (s.move i j) (g.move i j) := by
  have hj : Tracks (Function.update s j .movedFrom) (Function.update g j true) :=
    h.update j (by simp)
  exact hj.update i (h j)

theorem move_self (s : Buffers) (i : ℕ) : s.move i i = s := by
  rw [Buffers.move, Function.update_idem, Function.update_eq_self]

theorem exec_moveAssign (s : Buffers) (i j : ℕ) : s.exec (.moveAssign i j) = some (s.move i j) := by
  rw [exec]
  split_ifs with h
  · rw [h, move_self]
  · rfl

/-- The owner of a buffer that is written stays. -/
theorem Tracks.emitBytes (h : s.Tracks g) {i : ℕ} {src : List Byte}
    (hsmall : (s i).size.toNat + src.length < 2 ^ 31) {b : CodeBuffer}
    (hb : (s i).emitBytes src = some b) :
    Tracks (Function.update s i b) g := by
  have hown : if g i then b = .movedFrom else b.Allocated := by
    have hi := h i
    by_cases hg : g i
    · rw [if_pos hg] at hi ⊢
      rw [hi, CodeBuffer.emitBytes, CodeBuffer.ensureCapacity_movedFrom] at hb
      rw [hi] at hsmall
      split_ifs at hb with hz
      · have hlen : src.length = 0 := by
          have hnat := congrArg BitVec.toNat hz
          rw [BitVec.toNat_ofNat, Nat.mod_eq_of_lt (by omega)] at hnat
          exact hnat
        rw [List.length_eq_zero_iff] at hlen
        subst hlen
        exact (Option.some.inj hb).symm
      · cases hb
    · rw [if_neg hg] at hi ⊢
      obtain ⟨b', hb', halloc, -⟩ := hi.emitBytes hsmall.le
      rw [hb] at hb'
      cases hb'
      exact halloc
  have hupdate := h.update i hown
  rwa [Function.update_eq_self] at hupdate

/-- One operation. -/
theorem Tracks.exec (h : s.Tracks g) {op : Op} (hsmall : op.Small (some s)) {s' : Buffers}
    (hexec : s.exec op = some s') : s'.Tracks (g.step op) := by
  cases op with
  | construct i =>
    cases hexec
    exact h.update i CodeBuffer.allocated_new
  | emitU32 i val =>
    obtain ⟨b, hb, rfl⟩ := Option.map_eq_some_iff.mp hexec
    exact h.emitBytes (hsmall s rfl _ rfl) hb
  | emitU64 i val =>
    obtain ⟨b, hb, rfl⟩ := Option.map_eq_some_iff.mp hexec
    exact h.emitBytes (hsmall s rfl _ rfl) hb
  | emitBytes i src =>
    obtain ⟨b, hb, rfl⟩ := Option.map_eq_some_iff.mp hexec
    exact h.emitBytes (hsmall s rfl _ rfl) hb
  | moveConstruct i j =>
    cases hexec
    exact h.move i j
  | moveAssign i j =>
    rw [exec_moveAssign] at hexec
    cases hexec
    exact h.move i j
  | reset i =>
    cases hexec
    have hown : if g i then (s i).reset = .movedFrom else (s i).reset.Allocated := by
      have hi := h i
      split_ifs at hi ⊢ with hg
      · rw [hi]
        rfl
      · exact hi.reset
    have hupdate := h.update i hown
    rwa [Function.update_eq_self] at hupdate

/-- A program that has run tracks its owners. -/
theorem Tracks.run {ops : List Op} {s' : Buffers} (h : s.Tracks g)
    (hsmall : AllSteps step Op.Small (some s) ops) (hrun : run step (some s) ops = some s') :
    s'.Tracks (run Owners.step g ops) := by
  induction ops generalizing s g with
  | nil =>
    cases hrun
    exact h
  | cons op ops ih =>
    rw [run_cons] at hrun ⊢
    obtain ⟨hop, hops⟩ := hsmall
    cases hexec : s.exec op with
    | none =>
      -- a program caught in a loop stays there
      have hstuck : ∀ ops, Transition.run step none ops = none := fun ops => by
        induction ops with
        | nil => rfl
        | cons op ops ih => exact ih
      rw [show step (some s) op = s.exec op from rfl, hexec, hstuck] at hrun
      cases hrun
    | some t =>
      rw [show step (some s) op = s.exec op from rfl, hexec] at hrun hops
      exact ih (h.exec hop hexec) hops hrun

/-- **Growing.**  In every state that a program can reach with less than `2 ^ 31` bytes in each
buffer, the size of a buffer is within its capacity, and `EnsureCapacity` returns with the room it
was asked for exactly if the buffer has not been moved from or nothing was asked for. -/
theorem ensureCapacity_grows_iff {ops : List Op} (hsmall : AllSteps step Op.Small (some init) ops)
    (hrun : Transition.run step (some init) ops = some s) (i : ℕ) (needed : BitVec 32)
    (hneeded : (s i).size.toNat + needed.toNat < 2 ^ 31) :
    (s i).size ≤ (s i).capacity ∧
      ((∃ b, (s i).ensureCapacity needed = some b ∧ b.size = (s i).size ∧ b.bytes = (s i).bytes ∧
        b.size.toNat + needed.toNat ≤ b.capacity.toNat) ↔
        (Owners.movedFrom ops i = true → needed = 0)) := by
  have htracks : s.Tracks (Owners.movedFrom ops) :=
    Tracks.run (fun _ => CodeBuffer.allocated_new) hsmall hrun
  have hi := htracks i
  by_cases hg : Owners.movedFrom ops i = true
  · rw [if_pos hg] at hi
    rw [hi] at hneeded ⊢
    refine ⟨by decide, fun h => ?_, fun h => ?_⟩
    · obtain ⟨b, hb, -⟩ := h
      intro _
      by_contra hne
      rw [CodeBuffer.ensureCapacity_movedFrom, if_neg hne] at hb
      cases hb
    · have hz : needed = 0 := h hg
      subst hz
      exact ⟨.movedFrom, rfl, rfl, rfl, by decide⟩
  · rw [if_neg hg] at hi
    obtain ⟨c, hensure, -, hroom⟩ := hi.ensureCapacity hneeded.le
    exact ⟨hi.size_le, fun _ hmoved => absurd hmoved hg, fun _ => ⟨_, hensure, rfl, rfl, hroom⟩⟩

/-- A buffer after its memory has been moved out and the assembler reset for another use: a first
instruction finds no end of the loop, whatever the number of passes. -/
theorem ensureCapacity_after_reset :
    ∃ s, Transition.run step (some init) [.emitU32 0 0, .moveConstruct 1 0, .reset 0] = some s ∧
      (s 0).size.toNat + 4 < 2 ^ 31 ∧
      ¬∃ n capacity, CodeBuffer.grow ((s 0).size + 4) n (s 0).capacity = some capacity := by
  refine ⟨_, rfl, by decide, ?_⟩
  rintro ⟨n, capacity, h⟩
  have hnone : CodeBuffer.grow 4 n 0 = none := CodeBuffer.grow_zero (by decide) n
  exact absurd (hnone.symm.trans h) (by simp)

/-- A buffer that is used further after its memory was assigned back. -/
theorem ensureCapacity_grows_iff_assigned :
    ∃ s, Transition.run step (some init) [.moveConstruct 1 0, .moveAssign 0 1] = some s ∧
      ∃ b, (s 0).ensureCapacity 300 = some b ∧ b.size.toNat + 300 ≤ b.capacity.toNat := by
  refine ⟨_, rfl, ?_⟩
  have hsmall : AllSteps step Op.Small (some init) [.moveConstruct 1 0, .moveAssign 0 1] :=
    ⟨fun _ _ _ he => (by cases he), fun _ _ _ he => (by cases he), trivial⟩
  have hgrows := ensureCapacity_grows_iff hsmall rfl 0 300 (by decide)
  obtain ⟨b, hb, -, -, hroom⟩ := hgrows.2.mpr (by decide)
  exact ⟨b, hb, hroom⟩

end Buffers

end Arm64
end CalvinHook
