import CalvinHook.Coding.RangeCoder

/-!
# The encoder of a binary range coder

An encoder narrows an interval along the bits of a computation.  The interval is kept exactly, as a
lower end of any size and a width, so that nothing has to be carried into bytes that are already
written; the code of the bits is a number of the last interval, written as bytes.

* `Coded.follow`, `Coded.encode`: a computation on given bits, and the interval they lead to.
* `Coded.run_encode`: a decoder on a number of the last interval reads the bits that led to it.
* `Coded.run_written`: the same for the bytes of the lower end, which leave the code zero.
-/

namespace CalvinHook
namespace RangeCoder

variable {P α : Type}

/-! ## Computations on given bits -/

/-- The next of the given bits; zeros follow the last one. -/
def takeBit (bits : List Bool) : Bool × List Bool := (bits.headD false, bits.tail)

namespace Coded

/-- Answer the questions by given bits. -/
def follow (q : Coded P α) (bits : List Bool) : α × List Bool :=
  q.exec (fun _ => takeBit) takeBit bits

end Coded

/-! ## The interval -/

/-- An encoder: the probabilities, and an interval of the numbers with `4 + shifts` bytes. -/
structure Writer (P : Type) where
  probs : P → ℕ
  low : ℕ
  range : ℕ
  shifts : ℕ

namespace Writer

variable (w : Writer P)

/-- Go on to one more byte if the range has become small. -/
def normalize : Writer P :=
  if w.range < 2 ^ 24 then
    { w with low := w.low * 2 ^ 8, range := w.range * 2 ^ 8, shifts := w.shifts + 1 }
  else w

/-- The part of the interval below `bound`, or the part above it. -/
def split (bound : ℕ) (b : Bool) : Writer P :=
  if b then { w with low := w.low + bound, range := w.range - bound } else { w with range := bound }

/-- Write a bit with the probability `p`. -/
def bit [DecidableEq P] (p : P) (b : Bool) : Writer P :=
  { w.normalize.split (w.normalize.range / 2 ^ 11 * w.probs p) b with
    probs := Function.update w.probs p (adapt (w.probs p) b) }

/-- Write a direct bit. -/
def direct (b : Bool) : Writer P :=
  { w.normalize with
    low := if b then w.normalize.low + w.normalize.range / 2 else w.normalize.low
    range := w.normalize.range / 2 }

theorem probs_direct (b : Bool) : (w.direct b).probs = w.probs := by
  unfold direct normalize
  split_ifs <;> rfl

/-- A writer as it is between two bits. -/
structure Sound : Prop where
  fair : ∀ p, Fair (w.probs p)
  range_ge : minRange ≤ w.range
  range_lt : w.range < 2 ^ 32

namespace Sound

variable {w}

theorem normalize_range (h : w.Sound) :
    2 ^ 24 ≤ w.normalize.range ∧ w.normalize.range < 2 ^ 32 := by
  have hge := h.range_ge
  have hlt := h.range_lt
  unfold minRange at hge
  unfold Writer.normalize
  split_ifs with hsmall
  · show 2 ^ 24 ≤ w.range * 2 ^ 8 ∧ w.range * 2 ^ 8 < 2 ^ 32
    omega
  · exact ⟨Nat.not_lt.mp hsmall, hlt⟩

theorem bit [DecidableEq P] (h : w.Sound) (p : P) (b : Bool) : (w.bit p b).Sound := by
  obtain ⟨hge, hlt⟩ := h.normalize_range
  have hparts := (h.fair p).le_parts w.normalize.range
  have hbound := (h.fair p).bound_le w.normalize.range
  have hmin : minRange ≤ w.normalize.range / 2 ^ 11 * 31 := by
    unfold minRange
    omega
  refine ⟨fun q => ?_, ?_, ?_⟩
  · show Fair (Function.update w.probs p _ q)
    by_cases hq : q = p
    · subst hq
      rw [Function.update_self]
      exact (h.fair q).adapt b
    · rw [Function.update_of_ne hq]
      exact h.fair q
  · cases b with
    | false => exact hmin.trans hparts.1
    | true => exact hmin.trans hparts.2
  · cases b with
    | false => exact hbound.trans_lt hlt
    | true => exact (Nat.sub_le _ _).trans_lt hlt

theorem direct (h : w.Sound) (b : Bool) : (w.direct b).Sound := by
  obtain ⟨hge, hlt⟩ := h.normalize_range
  refine ⟨?_, ?_, ?_⟩
  · rw [probs_direct]
    exact h.fair
  · show minRange ≤ w.normalize.range / 2
    unfold minRange
    omega
  · show w.normalize.range / 2 < 2 ^ 32
    omega

end Sound

end Writer

/-- Answer the questions by given bits, and write them. -/
def Coded.encode [DecidableEq P] (q : Coded P α) (s : List Bool × Writer P) :
    α × List Bool × Writer P :=
  q.exec (fun p s => (s.1.headD false, s.1.tail, s.2.bit p (s.1.headD false)))
    (fun s => (s.1.headD false, s.1.tail, s.2.direct (s.1.headD false))) s

namespace Coded

variable [DecidableEq P]

theorem encode_sound (q : Coded P α) {s : List Bool × Writer P} (h : s.2.Sound) :
    (q.encode s).2.2.Sound :=
  q.exec_invariant (I := fun s : List Bool × Writer P => s.2.Sound)
    (fun p s h => h.bit p (s.1.headD false))
    (fun s h => h.direct (s.1.headD false)) h

end Coded

/-! ## Numbers inside the interval -/

/-- The number of the `n` bytes from `base`, the first one the highest. -/
def value (input : Source) (base : ℕ) : ℕ → ℕ
  | 0 => 0
  | n + 1 => value input base n * 2 ^ 8 + (input (base + n)).toNat

/-- The first byte is the highest one. -/
theorem value_cons (input : Source) (base n : ℕ) :
    value input base (n + 1) = (input base).toNat * 2 ^ (8 * n) + value input (base + 1) n := by
  induction n with
  | zero => simp [value]
  | succ n ih =>
    have hindex : base + (n + 1) = base + 1 + n := by omega
    rw [value, ih, value, hindex]
    ring

/-- The bytes from `base` are a number of the interval. -/
def Within (input : Source) (base : ℕ) (w : Writer P) : Prop :=
  w.low ≤ value input base (4 + w.shifts) ∧ value input base (4 + w.shifts) < w.low + w.range

namespace Within

variable {input : Source} {base : ℕ} {w : Writer P}

theorem of_normalize (h : Within input base w.normalize) : Within input base w := by
  unfold Writer.normalize at h
  split_ifs at h with hlt
  · obtain ⟨h1, h2⟩ := h
    have hbyte : (input (base + (4 + w.shifts))).toNat < 2 ^ 8 := BitVec.isLt _
    have hvalue : value input base (4 + (w.shifts + 1)) =
        value input base (4 + w.shifts) * 2 ^ 8 + (input (base + (4 + w.shifts))).toNat := rfl
    rw [hvalue] at h1 h2
    dsimp only at h1 h2
    constructor <;> omega
  · exact h

theorem of_split {bound : ℕ} (hbound : bound ≤ w.range) {b : Bool}
    (h : Within input base (w.split bound b)) :
    Within input base w := by
  unfold Writer.split at h
  split_ifs at h
  · exact ⟨(Nat.le_add_right _ _).trans h.1, h.2.trans_eq (by dsimp only; omega)⟩
  · exact ⟨h.1, h.2.trans_le (Nat.add_le_add_left hbound _)⟩

theorem of_bit [DecidableEq P] {p : P} {b : Bool} (hp : Fair (w.probs p))
    (h : Within input base (w.bit p b)) :
    Within input base w.normalize := of_split (hp.bound_le _) h

theorem of_direct {b : Bool} (h : Within input base (w.direct b)) :
    Within input base w.normalize := by
  obtain ⟨h1, h2⟩ := h
  unfold Writer.direct at h1 h2
  dsimp only at h1 h2
  split_ifs at h1 h2 <;> exact ⟨by omega, by omega⟩

/-- A number of the last interval is one of every interval before. -/
theorem of_encode [DecidableEq P] (q : Coded P α) {bits : List Bool} (hs : w.Sound)
    (h : Within input base (q.encode (bits, w)).2.2) : Within input base w := by
  induction q generalizing bits w with
  | done a => exact h
  | bit p next ih => exact (of_bit (hs.fair p) (ih _ (hs.bit p _) h)).of_normalize
  | direct next ih => exact (of_direct (ih _ (hs.direct _) h)).of_normalize

end Within

/-! ## Decoding -/

/-- A reader stands where the writer stood: what is above the lower end of the interval is its
code. -/
structure Sync (input : Source) (base : ℕ) (r : Reader P) (w : Writer P) : Prop where
  probs : r.probs = w.probs
  range : r.dec.range = w.range
  pos : r.dec.pos = base + (4 + w.shifts)
  code : w.low + r.dec.code = value input base (4 + w.shifts)

namespace Sync

variable {input : Source} {base : ℕ} {r : Reader P} {w : Writer P}

theorem normalize (h : Sync input base r w) (hw : Within input base w) (h32 : w.range < 2 ^ 32) :
    Sync input base (r.normalize input) w.normalize := by
  obtain ⟨hprobs, hrange, hpos, hcode⟩ := h
  obtain ⟨hlow, hhigh⟩ := hw
  by_cases hlt : w.range < 2 ^ 24
  · have hbyte : (input (base + (4 + w.shifts))).toNat < 2 ^ 8 := BitVec.isLt _
    have hvalue : value input base (4 + (w.shifts + 1)) =
        value input base (4 + w.shifts) * 2 ^ 8 + (input (base + (4 + w.shifts))).toNat := rfl
    have hw' : w.normalize =
        { w with low := w.low * 2 ^ 8, range := w.range * 2 ^ 8, shifts := w.shifts + 1 } :=
      if_pos hlt
    have hdec := Decoder.normalize_of_lt input (hrange.trans_lt hlt)
    -- the code stays below the range, so that nothing is cut off
    have hsmall : (r.dec.code * 2 ^ 8 + (input r.dec.pos).toNat) % 2 ^ 32 =
        r.dec.code * 2 ^ 8 + (input r.dec.pos).toNat := by
      rw [hpos]
      exact Nat.mod_eq_of_lt (by omega)
    refine ⟨?_, ?_, ?_, ?_⟩
    · rw [hw']
      exact hprobs
    · rw [hw', Reader.dec_normalize, hdec, hrange]
    · rw [hw', Reader.dec_normalize, hdec, hpos]
      rfl
    · rw [hw', Reader.dec_normalize, hdec, hsmall, hvalue, hpos]
      dsimp only
      omega
  · have hw' : w.normalize = w := if_neg hlt
    have hdec := Decoder.normalize_of_le input (d := r.dec) (by omega)
    rw [hw']
    refine ⟨hprobs, ?_, ?_, ?_⟩
    · rw [Reader.dec_normalize, hdec, hrange]
    · rw [Reader.dec_normalize, hdec, hpos]
    · rw [Reader.dec_normalize, hdec, hcode]

/-- The side of the bound on which the code is. -/
theorem split {bound : ℕ} {b : Bool} (h : Sync input base r w)
    (hw : Within input base (w.split bound b)) :
    (r.dec.split bound).1 = b ∧
      Sync input base { r with dec := (r.dec.split bound).2 } (w.split bound b) := by
  obtain ⟨hprobs, hrange, hpos, hcode⟩ := h
  obtain ⟨hlow, hhigh⟩ := hw
  cases b with
  | false =>
    have hlt : r.dec.code < bound := by
      have hlow' : value input base (4 + w.shifts) < w.low + bound := hhigh
      omega
    rw [Decoder.split, if_pos hlt]
    exact ⟨rfl, hprobs, rfl, hpos, hcode⟩
  | true =>
    have hge : bound ≤ r.dec.code := by
      have hlow' : w.low + bound ≤ value input base (4 + w.shifts) := hlow
      omega
    rw [Decoder.split, if_neg (Nat.not_lt.mpr hge)]
    refine ⟨rfl, hprobs, ?_, hpos, ?_⟩
    · show r.dec.range - bound = w.range - bound
      rw [hrange]
    · show w.low + bound + (r.dec.code - bound) = value input base (4 + w.shifts)
      omega

/-- The half of the range in which the code is. -/
theorem halve {b : Bool} (h : Sync input base r w) (h32 : w.range < 2 ^ 32)
    (hw : Within input base
      { w with low := if b then w.low + w.range / 2 else w.low, range := w.range / 2 }) :
    r.dec.halve.1 = b ∧ Sync input base { r with dec := r.dec.halve.2 }
      { w with low := if b then w.low + w.range / 2 else w.low, range := w.range / 2 } := by
  obtain ⟨hprobs, hrange, hpos, hcode⟩ := h
  obtain ⟨hlow, hhigh⟩ := hw
  dsimp only at hlow hhigh
  have hdef : r.dec.codeLessHalf = (2 ^ 32 + r.dec.code - w.range / 2) % 2 ^ 32 := by
    rw [Decoder.codeLessHalf, hrange]
  cases b with
  | false =>
    rw [if_neg Bool.false_ne_true] at hlow hhigh
    have hless : r.dec.codeLessHalf = 2 ^ 32 + r.dec.code - w.range / 2 := by
      rw [hdef]
      exact Nat.mod_eq_of_lt (by omega)
    rw [Decoder.halve, if_pos (by omega), if_neg Bool.false_ne_true]
    refine ⟨rfl, hprobs, ?_, hpos, ?_⟩
    · show r.dec.range / 2 = w.range / 2
      rw [hrange]
    · show w.low + (r.dec.codeLessHalf + r.dec.range / 2) % 2 ^ 32 = value input base (4 + w.shifts)
      rw [hless, hrange]
      omega
  | true =>
    rw [if_pos rfl] at hlow hhigh
    have hless : r.dec.codeLessHalf = r.dec.code - w.range / 2 := by
      rw [hdef]
      omega
    rw [Decoder.halve, if_neg (by omega), if_pos rfl]
    refine ⟨rfl, hprobs, ?_, hpos, ?_⟩
    · show r.dec.range / 2 = w.range / 2
      rw [hrange]
    · show w.low + w.range / 2 + r.dec.codeLessHalf = value input base (4 + w.shifts)
      rw [hless]
      omega

theorem bit [DecidableEq P] {p : P} {b : Bool} (h : Sync input base r w) (hr : r.Sound)
    (hw : Within input base (w.bit p b)) :
    (r.bit input p).1 = b ∧ Sync input base (r.bit input p).2 (w.bit p b) := by
  have hfair : Fair (w.probs p) := by
    rw [← h.probs]
    exact hr.fair p
  have h32 : w.range < 2 ^ 32 := h.range ▸ hr.range_lt
  have hnorm := h.normalize (Within.of_bit hfair hw).of_normalize h32
  have hbit : r.dec.bit input (r.probs p) =
      (r.normalize input).dec.split (w.normalize.range / 2 ^ 11 * w.probs p) := by
    rw [Decoder.bit, h.probs, ← hnorm.range, Reader.dec_normalize]
  obtain ⟨hb, hprobs, hrange, hpos, hcode⟩ := hnorm.split hw
  rw [Reader.bit, hbit, hb]
  refine ⟨rfl, ?_, hrange, hpos, hcode⟩
  show Function.update r.probs p _ = Function.update w.probs p _
  rw [h.probs]

theorem direct {b : Bool} (h : Sync input base r w) (hr : r.Sound)
    (hw : Within input base (w.direct b)) :
    (r.direct input).1 = b ∧ Sync input base (r.direct input).2 (w.direct b) := by
  have h32 : w.range < 2 ^ 32 := h.range ▸ hr.range_lt
  have hnorm := h.normalize (Within.of_direct hw).of_normalize h32
  have h32' : w.normalize.range < 2 ^ 32 := hnorm.range ▸ (hr.normalize input).range_lt
  obtain ⟨hb, hprobs, hrange, hpos, hcode⟩ := hnorm.halve h32' hw
  rw [Reader.direct, Decoder.direct]
  exact ⟨hb, hprobs, hrange, hpos, hcode⟩

end Sync

/-- **Decoding what was encoded.**  If the bytes are a number of the interval to which the bits led,
then a computation finds these bits in them, and the reader ends where the writer ended. -/
theorem Coded.run_encode [DecidableEq P] {input : Source} {base : ℕ} (q : Coded P α)
    {bits : List Bool} {r : Reader P} {w : Writer P} (h : Sync input base r w) (hr : r.Sound)
    (hs : w.Sound) (hw : Within input base (q.encode (bits, w)).2.2) :
    (q.run input r).1 = (q.follow bits).1 ∧
      Sync input base (q.run input r).2 (q.encode (bits, w)).2.2 := by
  induction q generalizing bits r w with
  | done a =>
    rw [run_done]
    exact ⟨rfl, h⟩
  | bit p next ih =>
    obtain ⟨hb, hsync⟩ := h.bit hr (Within.of_encode (next (bits.headD false)) (hs.bit p _) hw)
    rw [run_bit, hb]
    exact ih _ hsync (hr.bit input p) (hs.bit p _) hw
  | direct next ih =>
    obtain ⟨hb, hsync⟩ := h.direct hr (Within.of_encode (next (bits.headD false)) (hs.direct _) hw)
    rw [run_direct, hb]
    exact ih _ hsync (hr.direct input) (hs.direct _) hw

/-! ## Bytes -/

/-- The `n` bytes of a number, the highest first. -/
def bytesBE : ℕ → ℕ → List (BitVec 8)
  | 0, _ => []
  | n + 1, v => bytesBE n (v / 2 ^ 8) ++ [BitVec.ofNat 8 v]

@[simp] theorem length_bytesBE (n v : ℕ) : (bytesBE n v).length = n := by
  induction n generalizing v with
  | zero => rfl
  | succ n ih => rw [bytesBE, List.length_append, ih, List.length_singleton]

/-- The bytes of a number, read back. -/
theorem value_bytesBE {input : Source} {base n v : ℕ} (hv : v < 256 ^ n)
    (h : ∀ i < n, (bytesBE n v)[i]? = some (input (base + i))) : value input base n = v := by
  induction n generalizing v with
  | zero =>
    rw [pow_zero] at hv
    rw [value]
    omega
  | succ n ih =>
    have hinit : ∀ i < n, (bytesBE n (v / 2 ^ 8))[i]? = some (input (base + i)) := by
      intro i hi
      rw [← h i (by omega), bytesBE, List.getElem?_append_left (by rwa [length_bytesBE])]
    have hlast : input (base + n) = BitVec.ofNat 8 v := by
      have := h n (by omega)
      rw [bytesBE, List.getElem?_append_right (by rw [length_bytesBE]), length_bytesBE,
        Nat.sub_self] at this
      exact (Option.some.inj this).symm
    have hdiv : v / 2 ^ 8 < 256 ^ n := by
      rw [pow_succ] at hv
      exact Nat.div_lt_of_lt_mul (by rw [Nat.mul_comm]; exact hv)
    rw [value, ih hdiv hinit, hlast, BitVec.toNat_ofNat]
    exact Nat.div_add_mod' v (2 ^ 8)

/-! ## From the start -/

/-- The interval of all numbers with four bytes but the last one. -/
def Writer.start (probs : P → ℕ) : Writer P := ⟨probs, 0, 2 ^ 32 - 1, 0⟩

/-- A reader that has taken four bytes. -/
def Reader.start (input : Source) (base : ℕ) (probs : P → ℕ) : Reader P :=
  ⟨probs, 2 ^ 32 - 1, value input base 4, base + 4⟩

theorem Writer.start_sound {probs : P → ℕ} (hfair : ∀ p, Fair (probs p)) :
    (Writer.start probs).Sound := by
  refine ⟨hfair, ?_, ?_⟩
  · show 31 * 2 ^ 13 ≤ 2 ^ 32 - 1
    norm_num
  · show 2 ^ 32 - 1 < 2 ^ 32
    norm_num

theorem Reader.start_sound (input : Source) (base : ℕ) {probs : P → ℕ}
    (hfair : ∀ p, Fair (probs p)) :
    (Reader.start input base probs).Sound := by
  refine ⟨hfair, ?_, ?_⟩
  · show 31 * 2 ^ 13 ≤ 2 ^ 32 - 1
    norm_num
  · show 2 ^ 32 - 1 < 2 ^ 32
    norm_num

/-- The upper end of an interval has no more bytes than its numbers. -/
def Writer.Bounded (w : Writer P) : Prop := w.low + w.range < 256 ^ (4 + w.shifts)

namespace Writer.Bounded

variable {w : Writer P}

theorem start (probs : P → ℕ) : (Writer.start probs).Bounded := by
  show 0 + (2 ^ 32 - 1) < 256 ^ (4 + 0)
  norm_num

theorem normalize (h : w.Bounded) : w.normalize.Bounded := by
  unfold Writer.Bounded at h ⊢
  unfold Writer.normalize
  split_ifs
  · show w.low * 2 ^ 8 + w.range * 2 ^ 8 < 256 ^ (4 + w.shifts + 1)
    rw [pow_succ]
    omega
  · exact h

theorem bit [DecidableEq P] (h : w.Bounded) (hs : w.Sound) (p : P) (b : Bool) :
    (w.bit p b).Bounded := by
  have hbound := (hs.fair p).bound_le w.normalize.range
  have hnorm := h.normalize
  unfold Writer.Bounded at hnorm
  cases b with
  | false => exact (Nat.add_le_add_left hbound _).trans_lt hnorm
  | true =>
    show w.normalize.low + _ + (w.normalize.range - _) < 256 ^ (4 + w.normalize.shifts)
    omega

theorem direct (h : w.Bounded) (b : Bool) : (w.direct b).Bounded := by
  have hnorm := h.normalize
  unfold Writer.Bounded at hnorm
  show (if b then w.normalize.low + w.normalize.range / 2 else w.normalize.low) +
    w.normalize.range / 2 < 256 ^ (4 + w.normalize.shifts)
  split_ifs <;> omega

theorem encode [DecidableEq P] (q : Coded P α) {s : List Bool × Writer P} (h : s.2.Bounded)
    (hs : s.2.Sound) :
    (q.encode s).2.2.Bounded := by
  refine (q.exec_invariant (I := fun s : List Bool × Writer P => s.2.Bounded ∧ s.2.Sound)
    (fun p s h => ?_) (fun s h => ?_) ⟨h, hs⟩).1
  · exact ⟨h.1.bit h.2 p _, h.2.bit p _⟩
  · exact ⟨h.1.direct _, h.2.direct _⟩

end Writer.Bounded

/-- What is written for the bits of a computation: the lower end of the last interval. -/
def Coded.written [DecidableEq P] (q : Coded P α) (bits : List Bool) (probs : P → ℕ) : Writer P :=
  (q.encode (bits, Writer.start probs)).2.2.normalize

/-- The probabilities stay fair. -/
theorem Coded.fair_written [DecidableEq P] (q : Coded P α) (bits : List Bool) {probs : P → ℕ}
    (hfair : ∀ p, Fair (probs p)) (p : P) : Fair ((q.written bits probs).probs p) := by
  have hsound := q.encode_sound (s := (bits, Writer.start probs)) (Writer.start_sound hfair)
  unfold Coded.written Writer.normalize
  split_ifs
  · exact hsound.fair p
  · exact hsound.fair p

/-- **Decoding the bytes that were written.**  The computation finds its bits, takes all the bytes
and leaves the code zero. -/
theorem Coded.run_written [DecidableEq P] {input : Source} {base : ℕ} (q : Coded P α)
    {bits : List Bool} {probs : P → ℕ} (hfair : ∀ p, Fair (probs p))
    (hbytes : ∀ i < 4 + (q.written bits probs).shifts,
      (bytesBE (4 + (q.written bits probs).shifts) (q.written bits probs).low)[i]? =
        some (input (base + i))) :
    (q.run input (Reader.start input base probs)).1 = (q.follow bits).1 ∧
      ((q.run input (Reader.start input base probs)).2.normalize input).dec.pos =
        base + (4 + (q.written bits probs).shifts) ∧
      ((q.run input (Reader.start input base probs)).2.normalize input).dec.code = 0 ∧
      (q.run input (Reader.start input base probs)).2.probs = (q.written bits probs).probs := by
  have hstart := Writer.start_sound hfair
  have hs := q.encode_sound (s := (bits, Writer.start probs)) hstart
  have hlow : (q.written bits probs).low < 256 ^ (4 + (q.written bits probs).shifts) :=
    (Nat.le_add_right _ _).trans_lt
      (Writer.Bounded.encode q (s := (bits, Writer.start probs)) (.start probs) hstart).normalize
  have hvalue := value_bytesBE hlow hbytes
  have hwithin : Within input base (q.written bits probs) := by
    refine ⟨hvalue.ge, ?_⟩
    have hrange : 2 ^ 24 ≤ (q.written bits probs).range := hs.normalize_range.1
    rw [hvalue]
    omega
  have hsync : Sync input base (Reader.start input base probs) (Writer.start probs) :=
    ⟨rfl, rfl, rfl, Nat.zero_add _⟩
  obtain ⟨hresult, hend⟩ :=
    q.run_encode hsync (Reader.start_sound input base hfair) hstart hwithin.of_normalize
  have hfinal := hend.normalize hwithin.of_normalize hs.range_lt
  refine ⟨hresult, hfinal.pos, ?_, hfinal.probs⟩
  have hcode := hfinal.code
  have hvalue' : value input base (4 + (q.encode (bits, Writer.start probs)).2.2.normalize.shifts) =
      (q.encode (bits, Writer.start probs)).2.2.normalize.low := hvalue
  omega

end RangeCoder
end CalvinHook
