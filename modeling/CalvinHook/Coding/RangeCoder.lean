import Mathlib.Data.BitVec
import Mathlib.Logic.Function.Basic
import Mathlib.Tactic.NormNum
import Mathlib.Tactic.Ring

/-!
# A binary range coder with adaptive probabilities

The decoder holds a `range` and a `code` inside it, both below `2 ^ 32`, and takes a byte from its
source whenever the range has fallen below `2 ^ 24`.  A bit is read with a probability of eleven
bits, which then moves towards the bit that was read, or directly, as one half of the range.

What is coded is a computation that asks for bits (`Coded`): the next bit, and the probability it is
read with, may depend on all bits before.  `Coded.exec` answers the questions by the steps of a
state, and `Coded.run` by those of a decoder.

* `Reader.Sound`, `Coded.finish_bind`: the ranges and probabilities between two bits, and
  computations one after the other.
* `Coded.run_window`: two sources that agree on a window give the same answers, or both readers
  leave it.
* `Coded.Paths`, `Coded.pos_run_normalize_lt`: what holds on every path, and how many bytes its bits
  can take.
-/

namespace CalvinHook
namespace RangeCoder

/-- The bytes of a source by their positions. -/
abbrev Source := ℕ → BitVec 8

/-! ## The decoder -/

/-- A decoder: the range, the code in it and the position of the next byte. -/
@[ext] structure Decoder where
  range : ℕ
  code : ℕ
  pos : ℕ
  deriving DecidableEq, Repr

namespace Decoder

variable (input : Source) (d : Decoder)

/-- Take a byte if the range has become small. -/
def normalize : Decoder :=
  if d.range < 2 ^ 24 then
    ⟨d.range * 2 ^ 8, (d.code * 2 ^ 8 + (input d.pos).toNat) % 2 ^ 32, d.pos + 1⟩
  else d

/-- Split the range at `bound`. -/
def split (bound : ℕ) : Bool × Decoder :=
  if d.code < bound then (false, { d with range := bound })
  else (true, { d with range := d.range - bound, code := d.code - bound })

/-- Read a bit that is zero with probability `p / 2 ^ 11`. -/
def bit (p : ℕ) : Bool × Decoder :=
  (d.normalize input).split ((d.normalize input).range / 2 ^ 11 * p)

/-- The code less half the range, as a number of 32 bits. -/
def codeLessHalf : ℕ := (2 ^ 32 + d.code - d.range / 2) % 2 ^ 32

/-- Split the range in two halves; the sign of the difference tells on which side the code is. -/
def halve : Bool × Decoder :=
  if 2 ^ 31 ≤ d.codeLessHalf then
    (false, ⟨d.range / 2, (d.codeLessHalf + d.range / 2) % 2 ^ 32, d.pos⟩)
  else (true, ⟨d.range / 2, d.codeLessHalf, d.pos⟩)

/-- Read a bit without a probability. -/
def direct : Bool × Decoder := (d.normalize input).halve

@[simp] theorem pos_split (bound : ℕ) : (d.split bound).2.pos = d.pos := by
  unfold split
  split_ifs <;> rfl

@[simp] theorem pos_halve : d.halve.2.pos = d.pos := by
  unfold halve
  split_ifs <;> rfl

theorem pos_le_normalize : d.pos ≤ (d.normalize input).pos := by
  unfold normalize
  split_ifs
  · exact Nat.le_succ _
  · exact le_rfl

theorem pos_le_bit (p : ℕ) : d.pos ≤ (d.bit input p).2.pos := by
  rw [bit, pos_split]
  exact d.pos_le_normalize input

theorem pos_le_direct : d.pos ≤ (d.direct input).2.pos := by
  rw [direct, pos_halve]
  exact d.pos_le_normalize input

variable {d}

theorem normalize_of_le (h : 2 ^ 24 ≤ d.range) : d.normalize input = d := if_neg (Nat.not_lt.mpr h)

theorem normalize_of_lt (h : d.range < 2 ^ 24) : d.normalize input =
    ⟨d.range * 2 ^ 8, (d.code * 2 ^ 8 + (input d.pos).toNat) % 2 ^ 32, d.pos + 1⟩ := if_pos h

/-- A range that one byte makes large again. -/
theorem le_range_normalize (h : 2 ^ 16 ≤ d.range) : 2 ^ 24 ≤ (d.normalize input).range := by
  by_cases hlt : d.range < 2 ^ 24
  · rw [normalize_of_lt input hlt]
    show 2 ^ 24 ≤ d.range * 2 ^ 8
    omega
  · rw [normalize_of_le input (Nat.not_lt.mp hlt)]
    exact Nat.not_lt.mp hlt

theorem range_normalize_lt (h : d.range < 2 ^ 32) : (d.normalize input).range < 2 ^ 32 := by
  by_cases hlt : d.range < 2 ^ 24
  · rw [normalize_of_lt input hlt]
    show d.range * 2 ^ 8 < 2 ^ 32
    omega
  · rwa [normalize_of_le input (Nat.not_lt.mp hlt)]

variable {input}

/-- A second time nothing is taken. -/
theorem normalize_normalize (h : 2 ^ 16 ≤ d.range) :
    (d.normalize input).normalize input = d.normalize input :=
  normalize_of_le input (le_range_normalize input h)

theorem bit_normalize (h : 2 ^ 16 ≤ d.range) (p : ℕ) :
    (d.normalize input).bit input p = d.bit input p := by
  rw [bit, normalize_normalize h, bit]

theorem direct_normalize (h : 2 ^ 16 ≤ d.range) :
    (d.normalize input).direct input = d.direct input := by
  rw [direct, normalize_normalize h, direct]

end Decoder

/-! ## Probabilities -/

/-- The probability after a bit has been read with it. -/
def adapt (p : ℕ) (b : Bool) : ℕ := if b then p - p / 2 ^ 5 else p + (2 ^ 11 - p) / 2 ^ 5

/-- The probabilities that adaptation does not leave. -/
def Fair (p : ℕ) : Prop := 31 ≤ p ∧ p ≤ 2017

theorem fair_half : Fair (2 ^ 11 / 2) := ⟨by norm_num, by norm_num⟩

theorem Fair.adapt {p : ℕ} (h : Fair p) (b : Bool) : Fair (adapt p b) := by
  obtain ⟨h1, h2⟩ := h
  unfold RangeCoder.adapt Fair
  split_ifs <;> omega

theorem Fair.bound_le {p : ℕ} (h : Fair p) (range : ℕ) : range / 2 ^ 11 * p ≤ range := by
  calc range / 2 ^ 11 * p
      ≤ range / 2 ^ 11 * 2 ^ 11 := Nat.mul_le_mul_left _ (h.2.trans (by norm_num))
    _ ≤ range := Nat.div_mul_le_self range (2 ^ 11)

/-- Neither part of a range that is split at a fair bound is too small. -/
theorem Fair.le_parts {p : ℕ} (h : Fair p) (range : ℕ) :
    range / 2 ^ 11 * 31 ≤ range / 2 ^ 11 * p ∧
      range / 2 ^ 11 * 31 ≤ range - range / 2 ^ 11 * p := by
  have hmod := Nat.div_add_mod range (2 ^ 11)
  have hle : range / 2 ^ 11 * p ≤ range / 2 ^ 11 * 2017 := Nat.mul_le_mul_left _ h.2
  exact ⟨Nat.mul_le_mul_left _ h.1, by omega⟩

namespace Decoder

variable (input : Source) {d : Decoder} {p : ℕ}

/-- The range after a bit was read with a fair probability: not too large, not too small. -/
theorem range_bit (hp : Fair p) (h32 : d.range < 2 ^ 32) :
    (d.normalize input).range / 2 ^ 11 * 31 ≤ (d.bit input p).2.range ∧
      (d.bit input p).2.range < 2 ^ 32 := by
  have hparts := hp.le_parts (d.normalize input).range
  have hbound := hp.bound_le (d.normalize input).range
  have hhigh := range_normalize_lt input h32
  unfold bit split
  split_ifs
  · exact ⟨hparts.1, hbound.trans_lt hhigh⟩
  · exact ⟨hparts.2, (Nat.sub_le _ _).trans_lt hhigh⟩

theorem range_halve : d.halve.2.range = d.range / 2 := by
  unfold halve
  split_ifs <;> rfl

theorem range_direct : (d.direct input).2.range = (d.normalize input).range / 2 := range_halve

end Decoder

/-! ## Computations on coded bits -/

/-- A computation that asks for bits: for one with an adaptive probability, by the name of the
probability, or for a direct one. -/
inductive Coded (P α : Type) where
  | done (a : α)
  | bit (p : P) (next : Bool → Coded P α)
  | direct (next : Bool → Coded P α)

namespace Coded

variable {P α β : Type}

/-- Go on with the result of a computation. -/
protected def bind : Coded P α → (α → Coded P β) → Coded P β
  | done a, f => f a
  | bit p next, f => bit p fun b => (next b).bind f
  | direct next, f => direct fun b => (next b).bind f

instance : Monad (Coded P) where
  pure := done
  bind := Coded.bind

/-- Ask for one bit with the probability `p`. -/
def ask (p : P) : Coded P Bool := bit p done

/-- Ask for one direct bit. -/
def askDirect : Coded P Bool := direct done

@[simp] theorem pure_eq (a : α) : (pure a : Coded P α) = done a := rfl

@[simp] theorem done_bind (a : α) (f : α → Coded P β) : done a >>= f = f a := rfl

@[simp] theorem bit_bind (p : P) (next : Bool → Coded P α) (f : α → Coded P β) :
    bit p next >>= f = bit p fun b => next b >>= f := rfl

@[simp] theorem direct_bind (next : Bool → Coded P α) (f : α → Coded P β) :
    direct next >>= f = direct fun b => next b >>= f := rfl

theorem bind_assoc {γ : Type} (q : Coded P α) (f : α → Coded P β) (g : β → Coded P γ) :
    q >>= f >>= g = q >>= fun a => f a >>= g := by
  induction q with
  | done a => rfl
  | bit p next ih =>
    rw [bit_bind, bit_bind, bit_bind]
    congr 1
    funext b
    exact ih b
  | direct next ih =>
    rw [direct_bind, direct_bind, direct_bind]
    congr 1
    funext b
    exact ih b

@[simp] theorem ask_bind (p : P) (f : Bool → Coded P β) : ask p >>= f = bit p f := rfl

@[simp] theorem askDirect_bind (f : Bool → Coded P β) : askDirect >>= f = direct f := rfl

end Coded

/-- A decoder with its probabilities. -/
structure Reader (P : Type) where
  probs : P → ℕ
  dec : Decoder

namespace Reader

variable {P : Type} (input : Source) (r : Reader P)

/-- Read a bit with the probability `p` and adapt it. -/
def bit [DecidableEq P] (p : P) : Bool × Reader P :=
  ((r.dec.bit input (r.probs p)).1,
    ⟨Function.update r.probs p (adapt (r.probs p) (r.dec.bit input (r.probs p)).1),
      (r.dec.bit input (r.probs p)).2⟩)

/-- Read a direct bit. -/
def direct : Bool × Reader P := ((r.dec.direct input).1, { r with dec := (r.dec.direct input).2 })

/-- Take a byte if the range has become small. -/
def normalize : Reader P := { r with dec := r.dec.normalize input }

theorem probs_bit [DecidableEq P] (p : P) : (r.bit input p).2.probs =
    Function.update r.probs p (adapt (r.probs p) (r.dec.bit input (r.probs p)).1) := rfl

theorem dec_bit [DecidableEq P] (p : P) : (r.bit input p).2.dec = (r.dec.bit input (r.probs p)).2 :=
  rfl

theorem dec_direct : (r.direct input).2.dec = (r.dec.direct input).2 := rfl

theorem dec_normalize : (r.normalize input).dec = r.dec.normalize input := rfl

theorem pos_le_bit [DecidableEq P] (p : P) : r.dec.pos ≤ (r.bit input p).2.dec.pos := by
  rw [dec_bit]
  exact r.dec.pos_le_bit input (r.probs p)

theorem pos_le_direct : r.dec.pos ≤ (r.direct input).2.dec.pos := by
  rw [dec_direct]
  exact r.dec.pos_le_direct input

end Reader

namespace Coded

variable {P α β σ : Type}

/-- Answer the questions by steps of a state. -/
def exec (bitStep : P → σ → Bool × σ) (directStep : σ → Bool × σ) : Coded P α → σ → α × σ
  | done a, s => (a, s)
  | bit p next, s => exec bitStep directStep (next (bitStep p s).1) (bitStep p s).2
  | direct next, s => exec bitStep directStep (next (directStep s).1) (directStep s).2

section exec

variable {bitStep : P → σ → Bool × σ} {directStep : σ → Bool × σ}

theorem exec_bind (q : Coded P α) (f : α → Coded P β) (s : σ) :
    (q >>= f).exec bitStep directStep s =
      (f (q.exec bitStep directStep s).1).exec bitStep directStep
        (q.exec bitStep directStep s).2 := by
  induction q generalizing s with
  | done a => rfl
  | bit p next ih => exact ih _ _
  | direct next ih => exact ih _ _

/-- What every step keeps is kept. -/
theorem exec_invariant {I : σ → Prop} (hbit : ∀ p s, I s → I (bitStep p s).2)
    (hdirect : ∀ s, I s → I (directStep s).2) (q : Coded P α) {s : σ} (h : I s) :
    I (q.exec bitStep directStep s).2 := by
  induction q generalizing s with
  | done a => exact h
  | bit p next ih => exact ih _ (hbit p s h)
  | direct next ih => exact ih _ (hdirect s h)

end exec

variable [DecidableEq P] (input : Source)

/-- Answer the questions from a decoder. -/
def run (q : Coded P α) (r : Reader P) : α × Reader P :=
  q.exec (fun p r => r.bit input p) (fun r => r.direct input) r

theorem run_done (a : α) (r : Reader P) : (done a).run input r = (a, r) := by
  rw [run, exec]

theorem run_bit (p : P) (next : Bool → Coded P α) (r : Reader P) :
    (bit p next).run input r = (next (r.bit input p).1).run input (r.bit input p).2 := by
  rw [run, exec, run]

theorem run_direct (next : Bool → Coded P α) (r : Reader P) :
    (direct next).run input r = (next (r.direct input).1).run input (r.direct input).2 := by
  rw [run, exec, run]

theorem run_bind (q : Coded P α) (f : α → Coded P β) (r : Reader P) :
    (q >>= f).run input r = (f (q.run input r).1).run input (q.run input r).2 := by
  rw [run, exec_bind, run, run]

theorem pos_le_run (q : Coded P α) (r : Reader P) : r.dec.pos ≤ (q.run input r).2.dec.pos := by
  refine q.exec_invariant (I := fun s : Reader P => r.dec.pos ≤ s.dec.pos) (fun p s h => ?_)
    (fun s h => ?_) le_rfl
  · exact h.trans (s.pos_le_bit input p)
  · exact h.trans (s.pos_le_direct input)

end Coded

/-! ## What a decoder keeps -/

/-- The smallest range after a bit. -/
def minRange : ℕ := 31 * 2 ^ 13

/-- A decoder as it is between two bits. -/
structure Reader.Sound {P : Type} (r : Reader P) : Prop where
  fair : ∀ p, Fair (r.probs p)
  range_ge : minRange ≤ r.dec.range
  range_lt : r.dec.range < 2 ^ 32

namespace Reader.Sound

variable {P : Type} (input : Source) {r : Reader P}

theorem two_pow_le (h : r.Sound) : 2 ^ 16 ≤ r.dec.range := by
  have := h.range_ge
  unfold minRange at this
  omega

theorem bit [DecidableEq P] (h : r.Sound) (p : P) : (r.bit input p).2.Sound := by
  have hrange := Decoder.range_bit input (h.fair p) h.range_lt
  have hlow := Decoder.le_range_normalize input h.two_pow_le
  refine ⟨fun q => ?_, ?_, ?_⟩
  · rw [Reader.probs_bit]
    by_cases hq : q = p
    · subst hq
      rw [Function.update_self]
      exact (h.fair q).adapt _
    · rw [Function.update_of_ne hq]
      exact h.fair q
  · rw [Reader.dec_bit]
    refine le_trans ?_ hrange.1
    unfold minRange
    omega
  · rw [Reader.dec_bit]
    exact hrange.2

theorem direct (h : r.Sound) : (r.direct input).2.Sound := by
  have hlow := Decoder.le_range_normalize input h.two_pow_le
  have hhigh := Decoder.range_normalize_lt input h.range_lt
  refine ⟨h.fair, ?_, ?_⟩
  · rw [Reader.dec_direct, Decoder.range_direct]
    unfold minRange
    omega
  · rw [Reader.dec_direct, Decoder.range_direct]
    omega

theorem normalize (h : r.Sound) : (r.normalize input).Sound := by
  have hlow := Decoder.le_range_normalize input h.two_pow_le
  refine ⟨h.fair, ?_, ?_⟩
  · rw [Reader.dec_normalize]
    unfold minRange
    omega
  · rw [Reader.dec_normalize]
    exact Decoder.range_normalize_lt input h.range_lt

theorem run [DecidableEq P] {α : Type} (h : r.Sound) (q : Coded P α) : (q.run input r).2.Sound :=
  q.exec_invariant (fun p _ h => h.bit input p) (fun _ h => h.direct input) h

end Reader.Sound

theorem Reader.normalize_of_le {P : Type} (input : Source) {r : Reader P}
    (h : 2 ^ 24 ≤ r.dec.range) :
    r.normalize input = r := by
  unfold Reader.normalize
  rw [Decoder.normalize_of_le input h]

theorem Reader.normalize_normalize {P : Type} {input : Source} {r : Reader P} (h : r.Sound) :
    (r.normalize input).normalize input = r.normalize input := by
  unfold Reader.normalize
  rw [Decoder.normalize_normalize h.two_pow_le]

/-! ## Computations that end with a normalization -/

/-- Answer the questions from a decoder, and take a byte at the end if the range is small. -/
def Coded.finish {P α : Type} [DecidableEq P] (input : Source) (q : Coded P α) (r : Reader P) :
    α × Reader P :=
  ((q.run input r).1, (q.run input r).2.normalize input)

namespace Coded

variable {P α β : Type} [DecidableEq P] {input : Source} {r : Reader P}

theorem finish_done (a : α) : (done a).finish input r = (a, r.normalize input) := by
  rw [finish, run_done]

/-- A first normalization changes nothing: the first bit would take the same byte. -/
theorem finish_normalize (h : r.Sound) (q : Coded P α) :
    q.finish input (r.normalize input) = q.finish input r := by
  cases q with
  | done a => rw [finish_done, finish_done, Reader.normalize_normalize h]
  | bit p next =>
    have hbit : (r.normalize input).bit input p = r.bit input p := by
      unfold Reader.bit Reader.normalize
      rw [Decoder.bit_normalize h.two_pow_le]
    rw [finish, finish, run_bit, run_bit, hbit]
  | direct next =>
    have hdirect : (r.normalize input).direct input = r.direct input := by
      unfold Reader.direct Reader.normalize
      rw [Decoder.direct_normalize h.two_pow_le]
    rw [finish, finish, run_direct, run_direct, hdirect]

theorem finish_bind (h : r.Sound) (q : Coded P α) (f : α → Coded P β) :
    (q >>= f).finish input r = (f (q.finish input r).1).finish input (q.finish input r).2 := by
  rw [finish, finish, run_bind]
  exact (finish_normalize (h.run input q) (f (q.run input r).1)).symm

theorem finish_sound (input : Source) (h : r.Sound) (q : Coded P α) : (q.finish input r).2.Sound :=
  (h.run input q).normalize input

theorem range_finish_ge (input : Source) (h : r.Sound) (q : Coded P α) :
    2 ^ 24 ≤ (q.finish input r).2.dec.range :=
  Decoder.le_range_normalize input (h.run input q).two_pow_le

theorem pos_le_finish (input : Source) (q : Coded P α) (r : Reader P) :
    r.dec.pos ≤ (q.finish input r).2.dec.pos :=
  (q.pos_le_run input r).trans (Decoder.pos_le_normalize input _)

end Coded

/-- The paths of a computation, from one that has asked for `k` adaptive and `j` direct bits: the
probabilities are among those of `V`, and `Q` holds of the result together with the numbers of bits
at the end. -/
def Coded.Paths {P α : Type} (V : P → Prop) (Q : α → ℕ → ℕ → Prop) : ℕ → ℕ → Coded P α → Prop
  | k, j, done a => Q a k j
  | k, j, bit p next => V p ∧ ∀ b, (next b).Paths V Q (k + 1) j
  | k, j, direct next => ∀ b, (next b).Paths V Q k (j + 1)

namespace Coded.Paths

variable {P α β : Type} {V : P → Prop} {Q : α → ℕ → ℕ → Prop} {k j : ℕ} {q : Coded P α}

theorem mono {Q' : α → ℕ → ℕ → Prop} (h : q.Paths V Q k j) (hQ : ∀ a k j, Q a k j → Q' a k j) :
    q.Paths V Q' k j := by
  induction q generalizing k j with
  | done a => exact hQ a k j h
  | bit p next ih => exact ⟨h.1, fun b => ih b (h.2 b)⟩
  | direct next ih => exact fun b => ih b (h b)

/-- The paths of two computations one after the other. -/
theorem bind {Q' : β → ℕ → ℕ → Prop} {f : α → Coded P β}
    (h : q.Paths V (fun a k j => (f a).Paths V Q' k j) k j) : (q >>= f).Paths V Q' k j := by
  induction q generalizing k j with
  | done a => exact h
  | bit p next ih => exact ⟨h.1, fun b => ih b (h.2 b)⟩
  | direct next ih => exact fun b => ih b (h b)

/-- What holds at the end of every path holds of the result. -/
theorem exec {σ : Type} {bitStep : P → σ → Bool × σ} {directStep : σ → Bool × σ}
    (h : q.Paths V Q k j) (s : σ) :
    ∃ k' j', Q (q.exec bitStep directStep s).1 k' j' := by
  induction q generalizing k j s with
  | done a => exact ⟨k, j, h⟩
  | bit p next ih => exact ih _ (h.2 _) _
  | direct next ih => exact ih _ (h _) _

end Coded.Paths

/-! ## Two sources

A reader on another source, whose positions are shifted, answers alike as long as the bytes it takes
are the same. -/

namespace Decoder

/-- The same decoder with its positions counted from `base` bytes earlier. -/
def shift (base : ℕ) (d : Decoder) : Decoder := { d with pos := base + d.pos }

variable {small large : Source} {base stop : ℕ} (hagree : ∀ i < stop, small i = large (base + i))
  (d : Decoder)
include hagree

theorem normalize_shift : (d.shift base).normalize large = (d.normalize small).shift base ∨
    (stop < (d.normalize small).pos ∧ base + stop < ((d.shift base).normalize large).pos) := by
  by_cases hlt : d.range < 2 ^ 24
  · have hlt' : (d.shift base).range < 2 ^ 24 := hlt
    rw [normalize_of_lt small hlt, normalize_of_lt large hlt']
    by_cases hpos : d.pos < stop
    · left
      rw [shift, shift, hagree d.pos hpos, Nat.add_assoc]
    · right
      constructor
      · show stop < d.pos + 1
        omega
      · show base + stop < base + d.pos + 1
        omega
  · have hlt' : ¬(d.shift base).range < 2 ^ 24 := hlt
    left
    rw [normalize_of_le small (Nat.not_lt.mp hlt), normalize_of_le large (Nat.not_lt.mp hlt')]

omit hagree in
theorem split_shift (bound : ℕ) :
    (d.shift base).split bound = ((d.split bound).1, (d.split bound).2.shift base) := by
  unfold split shift
  split_ifs <;> rfl

omit hagree in
theorem halve_shift : (d.shift base).halve = (d.halve.1, d.halve.2.shift base) := by
  unfold halve codeLessHalf shift
  split_ifs <;> rfl

theorem bit_shift (p : ℕ) :
    (d.shift base).bit large p = ((d.bit small p).1, (d.bit small p).2.shift base) ∨
      (stop < (d.bit small p).2.pos ∧ base + stop < ((d.shift base).bit large p).2.pos) := by
  rcases normalize_shift hagree d with h | h
  · left
    rw [bit, h, bit, ← split_shift]
    rfl
  · right
    rw [bit, bit, pos_split, pos_split]
    exact h

theorem direct_shift :
    (d.shift base).direct large = ((d.direct small).1, (d.direct small).2.shift base) ∨
      (stop < (d.direct small).2.pos ∧ base + stop < ((d.shift base).direct large).2.pos) := by
  rcases normalize_shift hagree d with h | h
  · left
    rw [direct, h, direct, ← halve_shift]
  · right
    rw [direct, direct, pos_halve, pos_halve]
    exact h

end Decoder

/-- The same reader at another position. -/
def Reader.moveTo {P : Type} (r : Reader P) (pos : ℕ) : Reader P :=
  { r with dec := { r.dec with pos := pos } }

/-- The same reader with its positions counted from `base` bytes earlier. -/
def Reader.shift {P : Type} (base : ℕ) (r : Reader P) : Reader P :=
  { r with dec := r.dec.shift base }

theorem Reader.shift_moveTo {P : Type} (r : Reader P) : (r.moveTo 0).shift r.dec.pos = r := rfl

theorem Reader.Sound.moveTo {P : Type} {r : Reader P} (h : r.Sound) (pos : ℕ) :
    (r.moveTo pos).Sound :=
  ⟨h.fair, h.range_ge, h.range_lt⟩

section window

variable {P α : Type} {small large : Source} {base stop : ℕ}
  (hagree : ∀ i < stop, small i = large (base + i))
include hagree

theorem Reader.bit_shift [DecidableEq P] (r : Reader P) (p : P) :
    (r.shift base).bit large p = ((r.bit small p).1, (r.bit small p).2.shift base) ∨
      (stop < (r.bit small p).2.dec.pos ∧
        base + stop < ((r.shift base).bit large p).2.dec.pos) := by
  rcases Decoder.bit_shift hagree r.dec (r.probs p) with h | h
  · left
    rw [Reader.bit, Reader.shift, h, Reader.bit, Reader.shift]
  · right
    rw [Reader.dec_bit, Reader.dec_bit]
    exact h

theorem Reader.direct_shift (r : Reader P) :
    (r.shift base).direct large = ((r.direct small).1, (r.direct small).2.shift base) ∨
      (stop < (r.direct small).2.dec.pos ∧
        base + stop < ((r.shift base).direct large).2.dec.pos) := by
  rcases Decoder.direct_shift hagree r.dec with h | h
  · left
    rw [Reader.direct, Reader.shift, h, Reader.direct, Reader.shift]
  · right
    rw [Reader.dec_direct, Reader.dec_direct]
    exact h

theorem Reader.normalize_shift (r : Reader P) :
    (r.shift base).normalize large = (r.normalize small).shift base ∨
      (stop < (r.normalize small).dec.pos ∧
        base + stop < ((r.shift base).normalize large).dec.pos) := by
  rcases Decoder.normalize_shift hagree r.dec with h | h
  · left
    rw [Reader.normalize, Reader.shift, h, Reader.normalize, Reader.shift]
  · right
    rw [Reader.dec_normalize, Reader.dec_normalize]
    exact h

/-- **A window.**  Where two sources agree, a computation has the same answers on both, or it leaves
the window on both. -/
theorem Coded.run_window [DecidableEq P] (q : Coded P α) (r : Reader P) :
    q.run large (r.shift base) = ((q.run small r).1, (q.run small r).2.shift base) ∨
      (stop < (q.run small r).2.dec.pos ∧
        base + stop < (q.run large (r.shift base)).2.dec.pos) := by
  induction q generalizing r with
  | done a =>
    left
    rw [run_done, run_done]
  | bit p next ih =>
    rw [run_bit, run_bit]
    rcases r.bit_shift hagree p with h | ⟨h1, h2⟩
    · rw [h]
      exact ih _ _
    · exact .inr ⟨h1.trans_le (pos_le_run _ _ _), h2.trans_le (pos_le_run _ _ _)⟩
  | direct next ih =>
    rw [run_direct, run_direct]
    rcases r.direct_shift hagree with h | ⟨h1, h2⟩
    · rw [h]
      exact ih _ _
    · exact .inr ⟨h1.trans_le (pos_le_run _ _ _), h2.trans_le (pos_le_run _ _ _)⟩

/-- The same with a normalization at the end. -/
theorem Coded.finish_window [DecidableEq P] (q : Coded P α) (r : Reader P) :
    q.finish large (r.shift base) = ((q.finish small r).1, (q.finish small r).2.shift base) ∨
      (stop < (q.finish small r).2.dec.pos ∧
        base + stop < (q.finish large (r.shift base)).2.dec.pos) := by
  rcases run_window hagree q r with h | ⟨h1, h2⟩
  · rw [finish, h]
    rcases (q.run small r).2.normalize_shift hagree with hnorm | hnorm
    · left
      rw [hnorm, finish]
    · exact .inr hnorm
  · exact .inr ⟨h1.trans_le (Decoder.pos_le_normalize small _),
      h2.trans_le (Decoder.pos_le_normalize large _)⟩

end window

/-! ## How many bytes are taken

A byte makes the range `2 ^ 8` times larger, an adaptive bit keeps at least the part
`253921 / 2 ^ 24` of it and a direct bit the part `(2 ^ 24 - 1) / 2 ^ 25`. -/

namespace Decoder

variable (input : Source) {d : Decoder}

theorem range_normalize : (d.normalize input).pos = d.pos ∧ (d.normalize input).range = d.range ∨
    (d.normalize input).pos = d.pos + 1 ∧ (d.normalize input).range = d.range * 256 := by
  unfold normalize
  split_ifs
  · exact .inr ⟨rfl, rfl⟩
  · exact .inl ⟨rfl, rfl⟩

theorem range_normalize_eq : ∃ n, (d.normalize input).pos = d.pos + n ∧
    (d.normalize input).range = d.range * 256 ^ n := by
  rcases range_normalize input with ⟨hpos, hrange⟩ | ⟨hpos, hrange⟩
  · exact ⟨0, hpos, by rw [hrange, pow_zero, mul_one]⟩
  · exact ⟨1, hpos, by rw [hrange, pow_one]⟩

theorem range_bit_ge {p : ℕ} (hp : Fair p) (h16 : 2 ^ 16 ≤ d.range) (h32 : d.range < 2 ^ 32) :
    ∃ n, (d.bit input p).2.pos = d.pos + n ∧
      d.range * 256 ^ n * 253921 ≤ (d.bit input p).2.range * 2 ^ 24 := by
  obtain ⟨n, hpos, hrange⟩ := range_normalize_eq (d := d) input
  refine ⟨n, by rw [bit, pos_split, hpos], ?_⟩
  have hlow := le_range_normalize input h16
  have hbit := (range_bit input hp h32).1
  rw [← hrange]
  omega

theorem range_direct_ge (h16 : 2 ^ 16 ≤ d.range) : ∃ n, (d.direct input).2.pos = d.pos + n ∧
    d.range * 256 ^ n * (2 ^ 24 - 1) ≤ (d.direct input).2.range * 2 ^ 25 := by
  obtain ⟨n, hpos, hrange⟩ := range_normalize_eq (d := d) input
  refine ⟨n, by rw [direct, pos_halve, hpos], ?_⟩
  have hlow := le_range_normalize input h16
  rw [range_direct, ← hrange]
  omega

end Decoder

section bytes

theorem mul_le_mul_trans {a b c x y z w : ℕ} (h1 : a * x ≤ b * y) (h2 : b * z ≤ c * w) :
    a * (x * z) ≤ c * (y * w) := by
  calc a * (x * z) = a * x * z := (Nat.mul_assoc a x z).symm
    _ ≤ b * y * z := Nat.mul_le_mul_right z h1
    _ = b * z * y := Nat.mul_right_comm b y z
    _ ≤ c * w * y := Nat.mul_le_mul_right y h2
    _ = c * (y * w) := by rw [Nat.mul_assoc, Nat.mul_comm w y]

variable {P α : Type} {V : P → Prop} {Q : α → ℕ → ℕ → Prop} {k j : ℕ} {q : Coded P α}
  [DecidableEq P] (input : Source) {r : Reader P}

/-- The range after the bits of a path, against the number of bytes that were taken. -/
theorem Coded.range_run_ge (hr : r.Sound) (h : q.Paths V Q k j) :
    ∃ k' j' n, Q (q.run input r).1 (k + k') (j + j') ∧ (q.run input r).2.dec.pos = r.dec.pos + n ∧
      r.dec.range * 256 ^ n * (253921 ^ k' * (2 ^ 24 - 1) ^ j') ≤
        (q.run input r).2.dec.range * ((2 ^ 24) ^ k' * (2 ^ 25) ^ j') := by
  induction q generalizing k j r with
  | done a =>
    rw [run_done]
    refine ⟨0, 0, 0, h, rfl, ?_⟩
    simp only [pow_zero, mul_one, le_refl]
  | bit p next ih =>
    obtain ⟨m, hm, hfirst⟩ := Decoder.range_bit_ge input (hr.fair p) hr.two_pow_le hr.range_lt
    obtain ⟨k', j', n, hQ, hn, hrest⟩ := ih _ (hr.bit input p) (h.2 (r.bit input p).1)
    rw [run_bit]
    rw [Reader.dec_bit] at hn hrest
    refine ⟨k' + 1, j', m + n, by rwa [Nat.add_comm k' 1, ← Nat.add_assoc],
      by rw [hn, hm, Nat.add_assoc], ?_⟩
    rw [Nat.mul_assoc] at hfirst hrest
    convert mul_le_mul_trans hfirst hrest using 1
    · rw [pow_add, pow_add]
      ring
    · rw [pow_add]
      ring
  | direct next ih =>
    obtain ⟨m, hm, hfirst⟩ := Decoder.range_direct_ge input hr.two_pow_le
    obtain ⟨k', j', n, hQ, hn, hrest⟩ := ih _ (hr.direct input) (h (r.direct input).1)
    rw [run_direct]
    rw [Reader.dec_direct] at hn hrest
    refine ⟨k', j' + 1, m + n, by rwa [Nat.add_comm j' 1, ← Nat.add_assoc],
      by rw [hn, hm, Nat.add_assoc], ?_⟩
    rw [Nat.mul_assoc] at hfirst hrest
    convert mul_le_mul_trans hfirst hrest using 1
    · rw [pow_add, pow_add]
      ring
    · rw [pow_add]
      ring

/-- `n` bytes are more than `k` adaptive and `j` direct bits use up. -/
def Excess (n k j : ℕ) : Prop :=
  2 ^ 32 * ((2 ^ 24) ^ k * (2 ^ 25) ^ j) ≤ minRange * 256 ^ n * (253921 ^ k * (2 ^ 24 - 1) ^ j)

instance (n k j : ℕ) : Decidable (Excess n k j) :=
  inferInstanceAs (Decidable (2 ^ 32 * ((2 ^ 24) ^ k * (2 ^ 25) ^ j) ≤ _))

theorem Excess.mono {n k k' j j' : ℕ} (h : Excess n k j) (hk : k' ≤ k) (hj : j' ≤ j) :
    Excess n k' j' := by
  obtain ⟨i, rfl⟩ := Nat.exists_eq_add_of_le hk
  obtain ⟨l, rfl⟩ := Nat.exists_eq_add_of_le hj
  have hbit : 253921 ^ i ≤ (2 ^ 24) ^ i := Nat.pow_le_pow_left (by norm_num) i
  have hdirect : (2 ^ 24 - 1) ^ l ≤ (2 ^ 25) ^ l := Nat.pow_le_pow_left (by norm_num) l
  unfold Excess at h ⊢
  refine Nat.le_of_mul_le_mul_right (c := (2 ^ 24) ^ i * (2 ^ 25) ^ l) ?_ (by positivity)
  calc 2 ^ 32 * ((2 ^ 24) ^ k' * (2 ^ 25) ^ j') * ((2 ^ 24) ^ i * (2 ^ 25) ^ l)
      = 2 ^ 32 * ((2 ^ 24) ^ (k' + i) * (2 ^ 25) ^ (j' + l)) := by rw [pow_add, pow_add]; ring
    _ ≤ minRange * 256 ^ n * (253921 ^ (k' + i) * (2 ^ 24 - 1) ^ (j' + l)) := h
    _ = minRange * 256 ^ n * (253921 ^ k' * (2 ^ 24 - 1) ^ j') *
      (253921 ^ i * (2 ^ 24 - 1) ^ l) := by
        rw [pow_add, pow_add]; ring
    _ ≤ minRange * 256 ^ n * (253921 ^ k' * (2 ^ 24 - 1) ^ j') * ((2 ^ 24) ^ i * (2 ^ 25) ^ l) :=
        Nat.mul_le_mul_left _ (Nat.mul_le_mul hbit hdirect)

/-- **The bytes of a computation.**  If `n` bytes are more than the bits of any path use up, then
fewer are taken, the last normalization included. -/
theorem Coded.pos_run_normalize_lt {n : ℕ} (hr : r.Sound) (h : q.Paths V Q 0 0)
    (hn : ∀ a k j, Q a k j → Excess n k j) :
    ((q.run input r).2.normalize input).dec.pos < r.dec.pos + n := by
  obtain ⟨k, j, m, hQ, hm, hrun⟩ := range_run_ge input hr h
  obtain ⟨i, hi, hlast⟩ := Decoder.range_normalize_eq (d := (q.run input r).2.dec) input
  rw [Nat.zero_add, Nat.zero_add] at hQ
  have hexcess := hn _ k j hQ
  unfold Excess at hexcess
  rw [Reader.dec_normalize, hi, hm]
  by_contra hge
  have hle : n ≤ m + i := by omega
  have hlt := ((hr.run input q).normalize input).range_lt
  rw [Reader.dec_normalize, hlast] at hlt
  set R := (q.run input r).2.dec.range
  set S := (2 ^ 24) ^ k * (2 ^ 25) ^ j
  set T := 253921 ^ k * (2 ^ 24 - 1) ^ j
  have hS : 0 < S := by positivity
  have hbytes : minRange * 256 ^ n ≤ r.dec.range * 256 ^ (m + i) :=
    Nat.mul_le_mul hr.range_ge (Nat.pow_le_pow_right (by norm_num) hle)
  have hchain : 2 ^ 32 * S ≤ R * 256 ^ i * S := by
    calc 2 ^ 32 * S ≤ minRange * 256 ^ n * T := hexcess
      _ ≤ r.dec.range * 256 ^ (m + i) * T := Nat.mul_le_mul_right T hbytes
      _ = r.dec.range * 256 ^ m * T * 256 ^ i := by rw [pow_add]; ring
      _ ≤ R * S * 256 ^ i := Nat.mul_le_mul_right _ hrun
      _ = R * 256 ^ i * S := Nat.mul_right_comm R S (256 ^ i)
  exact absurd (Nat.le_of_mul_le_mul_right hchain hS) (Nat.not_le.mpr hlt)

end bytes

end RangeCoder
end CalvinHook
