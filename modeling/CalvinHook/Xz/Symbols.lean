import CalvinHook.Xz.Lzma
import CalvinHook.Coding.RangeEncoder
import Mathlib.Data.Nat.Bitwise
import Mathlib.Tactic.IntervalCases

/-!
# The bits of one LZMA symbol

What the computations of a symbol ask for and what they end with, on every path.

* `lzmaSymbol_paths`: the probabilities are inside the arrays, a match is not empty, and how many
  bits there are.
-/

namespace CalvinHook
namespace Xz

open RangeCoder (Coded Reader Decoder Source)
open RangeCoder.Coded (ask askDirect)

/-! ## The arrays of probabilities -/

/-- The indices are inside the arrays of a `struct lzma_len_dec`. -/
def LenProb.Valid : LenProb → Prop
  | choice => True
  | choice2 => True
  | low posState i => posState < 16 ∧ i < 8
  | mid posState i => posState < 16 ∧ i < 8
  | high i => i < 256

/-- The indices are inside the arrays of `struct lzma_dec`. -/
def Prob.Valid : Prob → Prop
  | isMatch _ posState => posState < 16
  | isRep _ => True
  | isRep0 _ => True
  | isRep1 _ => True
  | isRep2 _ => True
  | isRep0Long _ posState => posState < 16
  | distSlot distState i => distState < 4 ∧ i < 64
  | distSpecial i => i < 128 - 14
  | distAlign i => i < 16
  | len _ p => p.Valid
  | literal coder i => coder < 16 ∧ i < 0x300

/-- The properties of a decoder: `lp` and `pb` as masks, and `lc + lp` at most four. -/
structure Lzma.Valid (lz : Lzma) : Prop where
  posMask : lz.posMask < 16
  literal : ∃ lp, lz.lc + lp ≤ 4 ∧ lz.literalPosMask = 2 ^ lp - 1

/-! ## The questions one by one -/

theorem lzmaLen_eq (l : LenDec) (posState : ℕ) : lzmaLen l posState = .bit (.len l .choice) fun b =>
    bif b then .bit (.len l .choice2) fun b =>
      bif b then rcBittree (fun i => .len l (.high i)) (2 ^ (7 + 1)) >>= fun s => .done
        (2 + 8 + 8 + (s - 256))
      else rcBittree (fun i => .len l (.mid posState i)) (2 ^ (2 + 1)) >>= fun s => .done
        (2 + 8 + (s - 8))
    else rcBittree (fun i => .len l (.low posState i)) (2 ^ (2 + 1)) >>= fun s => .done
      (2 + (s - 8)) := by
  show Coded.bit _ _ = _
  congr 1
  funext b
  cases b with
  | false => rfl
  | true =>
    show Coded.bit _ _ = Coded.bit _ _
    congr 1
    funext b
    cases b <;> rfl

theorem lzmaRepMatch_eq (lz : Lzma) (posState : ℕ) :
    lzmaRepMatch lz posState = .bit (.isRep0 lz.state) fun b =>
    bif b then .bit (.isRep1 lz.state) fun b =>
      bif b then .bit (.isRep2 lz.state) fun b =>
        bif b then
          lzmaLongRep
            { lz with rep3 := lz.rep2, rep2 := lz.rep1, rep1 := lz.rep0, rep0 := lz.rep3 } posState
        else lzmaLongRep { lz with rep2 := lz.rep1, rep1 := lz.rep0, rep0 := lz.rep2 } posState
      else lzmaLongRep { lz with rep1 := lz.rep0, rep0 := lz.rep1 } posState
    else .bit (.isRep0Long lz.state posState) fun b =>
      bif b then lzmaLongRep lz posState
      else .done { lz with state := lz.state.shortRep, len := 1 } := by
  show Coded.bit _ _ = _
  congr 1
  funext b
  cases b with
  | false =>
    show Coded.bit _ _ = Coded.bit _ _
    congr 1
    funext b
    cases b <;> rfl
  | true =>
    show Coded.bit _ _ = Coded.bit _ _
    congr 1
    funext b
    cases b with
    | false => rfl
    | true =>
      show Coded.bit _ _ = Coded.bit _ _
      congr 1
      funext b
      cases b <;> rfl

theorem lzmaSymbol_eq (lz : Lzma) (pos : ℕ) (get : ℕ → Byte) : lzmaSymbol lz pos get =
    .bit (.isMatch lz.state (pos &&& lz.posMask)) fun b =>
      bif b then .bit (.isRep lz.state) fun b =>
        bif b then lzmaRepMatch lz (pos &&& lz.posMask) >>= fun lz => .done (.copy lz)
        else lzmaMatch lz (pos &&& lz.posMask) >>= fun lz => .done (.copy lz)
      else lzmaLiteral lz pos get >>= fun s =>
        .done (.literal (BitVec.ofNat 8 s) { lz with state := lz.state.literal }) := by
  show Coded.bit _ _ = _
  congr 1
  funext b
  cases b with
  | false => rfl
  | true =>
    show Coded.bit _ _ = Coded.bit _ _
    congr 1
    funext b
    cases b <;> rfl

/-! ## Bit trees -/

/-- `n` bits of a bit tree, the highest one first. -/
def tree (probs : ℕ → Prob) : ℕ → ℕ → Coded Prob ℕ
  | 0, symbol => pure symbol
  | n + 1, symbol => do
    let bit ← ask (probs symbol)
    tree probs n (2 * symbol + bit.toNat)

theorem bits_step {i symbol : ℕ} (hlow : 2 ^ i ≤ symbol) (hhigh : symbol < 2 ^ (i + 1)) (b : Bool) :
    2 ^ (i + 1) ≤ 2 * symbol + b.toNat ∧ 2 * symbol + b.toNat < 2 ^ (i + 1 + 1) := by
  have hb := b.toNat_lt
  have h1 : 2 ^ (i + 1) = 2 * 2 ^ i := Nat.pow_succ'
  have h2 : 2 ^ (i + 1 + 1) = 2 * 2 ^ (i + 1) := Nat.pow_succ'
  omega

/-- The loop of `rc_bittree` makes as many passes as the limit has bits. -/
theorem bittreeLoop_eq_tree (probs : ℕ → Prob) {i k fuel symbol : ℕ} (hfuel : k + 1 ≤ fuel)
    (hlow : 2 ^ i ≤ symbol) (hhigh : symbol < 2 ^ (i + 1)) :
    bittreeLoop probs (2 ^ (i + k + 1)) fuel symbol = tree probs (k + 1) symbol := by
  induction k generalizing i fuel symbol with
  | zero =>
    obtain ⟨fuel, rfl⟩ := Nat.exists_eq_add_of_le' hfuel
    rw [bittreeLoop, tree]
    congr 1
    funext b
    have hstep := bits_step hlow hhigh b
    exact if_neg (Nat.not_lt.mpr hstep.1)
  | succ k ih =>
    obtain ⟨fuel, rfl⟩ := Nat.exists_eq_add_of_le' (Nat.one_le_of_lt hfuel)
    rw [bittreeLoop, tree]
    congr 1
    funext b
    have hstep := bits_step hlow hhigh b
    have hlt : 2 * symbol + b.toNat < 2 ^ (i + (k + 1) + 1) :=
      hstep.2.trans_le (Nat.pow_le_pow_right two_pos (by omega))
    rw [if_pos hlt, show i + (k + 1) + 1 = i + 1 + k + 1 by omega]
    exact ih (by omega) hstep.1 hstep.2

theorem rcBittree_eq_tree (probs : ℕ → Prob) (k : ℕ) :
    rcBittree probs (2 ^ (k + 1)) = tree probs (k + 1) 1 := by
  have h : bittreeLoop probs (2 ^ (0 + k + 1)) (2 ^ (k + 1)) 1 = tree probs (k + 1) 1 :=
    bittreeLoop_eq_tree probs (Nat.lt_two_pow_self).le le_rfl (by decide)
  rwa [Nat.zero_add] at h

variable {V : Prob → Prop} {Q : ℕ → ℕ → ℕ → Prop} {k j : ℕ}

theorem tree_paths {probs : ℕ → Prob} {i n symbol : ℕ} (hlow : 2 ^ i ≤ symbol)
    (hhigh : symbol < 2 ^ (i + 1)) (hV : ∀ m < 2 ^ (i + n), V (probs m))
    (hQ : ∀ s, 2 ^ (i + n) ≤ s → s < 2 ^ (i + n + 1) → Q s (k + n) j) :
    (tree probs n symbol).Paths V Q k j := by
  induction n generalizing i k symbol with
  | zero => exact hQ symbol hlow hhigh
  | succ n ih =>
    refine ⟨hV symbol (hhigh.trans_le (Nat.pow_le_pow_right two_pos (by omega))), fun b => ?_⟩
    have hstep := bits_step hlow hhigh b
    have hexp : i + 1 + n = i + (n + 1) := by omega
    refine ih hstep.1 hstep.2 ?_ ?_
    · rwa [hexp]
    · rwa [hexp, show k + 1 + n = k + (n + 1) by omega]

theorem rcBittree_paths {probs : ℕ → Prob} (n : ℕ) (hV : ∀ m < 2 ^ (n + 1), V (probs m))
    (hQ : ∀ s, 2 ^ (n + 1) ≤ s → s < 2 ^ (n + 1 + 1) → Q s (k + (n + 1)) j) :
    (rcBittree probs (2 ^ (n + 1))).Paths V Q k j := by
  rw [rcBittree_eq_tree]
  refine tree_paths (i := 0) le_rfl (by decide) ?_ ?_
  · rwa [Nat.zero_add]
  · rwa [Nat.zero_add]

/-- The loop of `rc_bittree_reverse` stays inside a tree of `left` bits. -/
theorem bittreeReverseLoop_paths {probs : ℕ → Prob} {i left m symbol dest : ℕ}
    (hlow : 2 ^ i ≤ symbol) (hhigh : symbol < 2 ^ (i + 1))
    (hV : ∀ m, 0 < m → m < 2 ^ (i + left) → V (probs m))
    (hQ : ∀ s, s + 2 ^ m ≤ dest + 2 ^ (m + left) → Q s (k + left) j) :
    (bittreeReverseLoop probs left m symbol dest).Paths V Q k j := by
  induction left generalizing i k m symbol dest with
  | zero => exact hQ dest le_rfl
  | succ left ih =>
    have hpos : 0 < symbol := (Nat.two_pow_pos i).trans_le hlow
    refine ⟨hV symbol hpos (hhigh.trans_le (Nat.pow_le_pow_right two_pos (by omega))), fun b => ?_⟩
    have hstep := bits_step hlow hhigh b
    refine ih hstep.1 hstep.2 ?_ fun s hs => ?_
    · rwa [show i + 1 + left = i + (left + 1) by omega]
    · have hpow : 2 ^ (m + 1) = 2 * 2 ^ m := Nat.pow_succ'
      have hbit : (if b then 2 ^ m else 0) ≤ 2 ^ m := by split_ifs <;> omega
      rw [show k + 1 + left = k + (left + 1) by omega]
      refine hQ s ?_
      rw [show m + (left + 1) = m + 1 + left by omega]
      omega

theorem rcBittreeReverse_paths {probs : ℕ → Prob} {dest limit : ℕ} (hlimit : 0 < limit)
    (hV : ∀ m, 0 < m → m < 2 ^ limit → V (probs m))
    (hQ : ∀ s, s < dest + 2 ^ limit → Q s (k + limit) j) :
    (rcBittreeReverse probs dest limit).Paths V Q k j := by
  rw [rcBittreeReverse, Nat.max_eq_right hlimit]
  refine bittreeReverseLoop_paths (i := 0) le_rfl (by decide) ?_ fun s hs => ?_
  · rwa [Nat.zero_add]
  · rw [Nat.zero_add, pow_zero] at hs
    exact hQ s hs

theorem rcDirect_paths {dest limit : ℕ} (hQ : ∀ s, s < (dest + 1) * 2 ^ limit → Q s k (j + limit)) :
    (rcDirect dest limit).Paths V Q k j := by
  induction limit generalizing dest j with
  | zero => exact hQ dest (by rw [pow_zero, mul_one]; exact Nat.lt_succ_self dest)
  | succ limit ih =>
    intro b
    refine ih fun s hs => ?_
    rw [show j + 1 + limit = j + (limit + 1) by omega]
    refine hQ s (hs.trans_le ?_)
    have hb := b.toNat_lt
    calc (2 * dest + b.toNat + 1) * 2 ^ limit ≤ (2 * (dest + 1)) * 2 ^ limit :=
          Nat.mul_le_mul_right _ (by omega)
      _ = (dest + 1) * 2 ^ (limit + 1) := by rw [Nat.pow_succ']; ring

/-! ## Literals -/

theorem lzmaLiteralProbs_lt {lz : Lzma} (h : lz.Valid) (pos : ℕ) (prevByte : Byte) :
    lzmaLiteralProbs lz pos prevByte < 16 := by
  obtain ⟨lp, hsum, hmask⟩ := h.literal
  have hlow : prevByte.toNat / 2 ^ (8 - lz.lc) < 2 ^ lz.lc := by
    refine Nat.div_lt_of_lt_mul ?_
    rw [← pow_add, Nat.sub_add_cancel (by omega)]
    exact prevByte.isLt
  have hhigh : pos &&& lz.literalPosMask < 2 ^ lp := by
    rw [hmask]
    exact Nat.and_lt_two_pow _ (Nat.sub_lt (Nat.two_pow_pos lp) one_pos)
  calc lzmaLiteralProbs lz pos prevByte < 2 ^ lz.lc + (pos &&& lz.literalPosMask) * 2 ^ lz.lc :=
        Nat.add_lt_add_right hlow _
    _ = ((pos &&& lz.literalPosMask) + 1) * 2 ^ lz.lc := by ring
    _ ≤ 2 ^ lp * 2 ^ lz.lc := Nat.mul_le_mul_right _ hhigh
    _ = 2 ^ (lp + lz.lc) := (pow_add 2 lp lz.lc).symm
    _ ≤ 2 ^ 4 := Nat.pow_le_pow_right two_pos (by omega)

theorem and_0x100 (matchByte : ℕ) : matchByte &&& 0x100 = 0 ∨ matchByte &&& 0x100 = 0x100 := by
  have h : matchByte &&& 2 ^ 8 = (matchByte.testBit 8).toNat * 2 ^ 8 := Nat.and_two_pow matchByte 8
  rw [show (0x100 : ℕ) = 2 ^ 8 from rfl, h]
  cases matchByte.testBit 8
  · exact .inl rfl
  · exact .inr rfl

/-- The offset of `lzma_literal` is `0x100` as long as the bits are those of the matched byte, then
zero. -/
theorem offset_step {offset : ℕ} (h : offset = 0 ∨ offset = 0x100) (matchByte : ℕ) (bit : Bool) :
    offset + (matchByte &&& offset) ≤ 0x200 ∧
      (nextOffset offset (matchByte &&& offset) bit = 0 ∨
        nextOffset offset (matchByte &&& offset) bit = 0x100) := by
  rcases h with rfl | rfl
  · rw [nextOffset, Nat.and_zero, Nat.zero_and, Nat.zero_and, ite_self]
    exact ⟨by decide, .inl rfl⟩
  · rcases and_0x100 matchByte with hbit | hbit <;> rw [hbit] <;> cases bit <;> decide

theorem matchedLiteralLoop_succ (coder fuel symbol matchByte offset : ℕ) :
    matchedLiteralLoop coder (fuel + 1) symbol matchByte offset =
      .bit (.literal coder (offset + (matchByte &&& offset) + symbol)) fun b =>
        if 2 * symbol + b.toNat < 0x100 then
          matchedLiteralLoop coder fuel (2 * symbol + b.toNat) (2 * matchByte)
            (nextOffset offset (matchByte &&& offset) b)
        else .done (2 * symbol + b.toNat) := rfl

theorem matchedLiteralLoop_paths {coder i fuel symbol matchByte offset : ℕ} (hcoder : coder < 16)
    (hi : i < 8) (hfuel : 8 ≤ i + fuel) (hlow : 2 ^ i ≤ symbol) (hhigh : symbol < 2 ^ (i + 1))
    (hoffset : offset = 0 ∨ offset = 0x100)
    (hQ : ∀ s, 0x100 ≤ s → s < 0x200 → Q s (k + (8 - i)) j) :
    (matchedLiteralLoop coder fuel symbol matchByte offset).Paths Prob.Valid Q k j := by
  induction fuel generalizing i k symbol matchByte offset with
  | zero => omega
  | succ fuel ih =>
    have hsymbol : symbol < 0x100 :=
      hhigh.trans_le (Nat.pow_le_pow_right two_pos hi : 2 ^ (i + 1) ≤ 2 ^ 8)
    have hindex := (offset_step hoffset matchByte false).1
    rw [matchedLiteralLoop_succ]
    refine ⟨⟨hcoder, by omega⟩, fun b => ?_⟩
    have hstep := bits_step hlow hhigh b
    have hnext := (offset_step hoffset matchByte b).2
    dsimp only
    by_cases hlt : 2 * symbol + b.toNat < 0x100
    · have hi' : i + 1 < 8 := by
        by_contra hge
        have h8 : 2 ^ 8 ≤ 2 ^ (i + 1) := Nat.pow_le_pow_right two_pos (by omega)
        omega
      rw [if_pos hlt]
      refine ih hi' (by omega) hstep.1 hstep.2 hnext ?_
      rwa [show k + 1 + (8 - (i + 1)) = k + (8 - i) by omega]
    · have hi' : i = 7 := by
        by_contra hne
        have h8 : 2 ^ (i + 1 + 1) ≤ 2 ^ 8 := Nat.pow_le_pow_right two_pos (by omega)
        omega
      subst hi'
      rw [if_neg hlt]
      exact hQ _ (by omega) (by omega)

theorem lzmaLiteral_paths {lz : Lzma} (h : lz.Valid) (pos : ℕ) (get : ℕ → Byte)
    (hQ : ∀ s, 0x100 ≤ s → s < 0x200 → Q s (k + 8) j) :
    (lzmaLiteral lz pos get).Paths Prob.Valid Q k j := by
  have hcoder := lzmaLiteralProbs_lt h pos (get 0)
  unfold lzmaLiteral
  dsimp only
  split_ifs
  · exact rcBittree_paths 7 (fun m hm => ⟨hcoder, hm.trans (by decide)⟩) hQ
  · exact matchedLiteralLoop_paths (i := 0) hcoder (by decide) (by decide) le_rfl (by decide)
      (.inr rfl) hQ

/-! ## Matches -/

/-- A length takes at most ten bits. -/
theorem lzmaLen_paths (l : LenDec) {posState : ℕ} (h : posState < 16)
    (hQ : ∀ len k', 2 ≤ len → len ≤ 273 → k' ≤ k + 10 → Q len k' j) :
    (lzmaLen l posState).Paths Prob.Valid Q k j := by
  rw [lzmaLen_eq]
  refine ⟨trivial, fun b => ?_⟩
  cases b with
  | false =>
    refine Coded.Paths.bind (rcBittree_paths 2 (fun m hm => ⟨h, hm⟩) fun s hlow hhigh => ?_)
    exact hQ (2 + (s - 8)) _ (by omega) (by omega) (by omega)
  | true =>
    refine ⟨trivial, fun b => ?_⟩
    cases b with
    | false =>
      refine Coded.Paths.bind (rcBittree_paths 2 (fun m hm => ⟨h, hm⟩) fun s hlow hhigh => ?_)
      exact hQ (2 + 8 + (s - 8)) _ (by omega) (by omega) (by omega)
    | true =>
      refine Coded.Paths.bind (rcBittree_paths 7 (fun m hm => hm) fun s hlow hhigh => ?_)
      exact hQ (2 + 8 + 8 + (s - 256)) _ (by omega) (by omega) (by omega)

theorem lzmaGetDistState_lt (len : ℕ) : lzmaGetDistState len < 4 := by
  unfold lzmaGetDistState
  split_ifs <;> omega

/-- A distance takes at most eleven bits with probabilities, or ten and 26 direct ones. -/
theorem lzmaDistance_paths (len : ℕ)
    (hQ : ∀ dist k' j', dist < 2 ^ 32 → (k' ≤ k + 11 ∧ j' = j) ∨ (k' ≤ k + 10 ∧ j' ≤ j + 26) →
      Q dist k' j') :
    (lzmaDistance len).Paths Prob.Valid Q k j := by
  refine (rcBittree_paths 5 (fun m hm => ⟨lzmaGetDistState_lt len, hm⟩)
    fun symbol hlow hhigh => ?_).bind
  have hslot : symbol - 64 < 64 := by omega
  generalize symbol - 64 = slot at hslot
  dsimp only
  split_ifs with h4 h14
  · exact hQ slot _ _ (by omega) (.inl ⟨by omega, rfl⟩)
  · refine rcBittreeReverse_paths (by omega) (fun m hpos hm => ?_) fun s hs => hQ s _ _ ?_
      (.inl ⟨by omega, rfl⟩)
    · show (2 + slot % 2) * 2 ^ (slot / 2 - 1) + m - (slot + 1) < 114
      interval_cases slot <;> simp at hm ⊢ <;> omega
    · interval_cases slot <;> simp at hs <;> omega
  · refine (rcDirect_paths fun a ha => ?_).bind
    refine rcBittreeReverse_paths (by decide) (fun m _ hm => hm) fun s hs => hQ s _ _ ?_
      (.inr ⟨by omega, by omega⟩)
    have hlimit : 2 ^ (slot / 2 - 1 - 4) ≤ 2 ^ 26 := Nat.pow_le_pow_right two_pos (by omega)
    have hdest : (2 + slot % 2 + 1) * 2 ^ (slot / 2 - 1 - 4) ≤ 4 * 2 ^ 26 :=
      Nat.mul_le_mul (by omega) hlimit
    omega

/-! ## Symbols -/

/-- The properties do not change from symbol to symbol. -/
def Lzma.SameProps (lz lz' : Lzma) : Prop :=
  lz'.lc = lz.lc ∧ lz'.literalPosMask = lz.literalPosMask ∧ lz'.posMask = lz.posMask

/-- What a symbol leaves behind: a match is not empty, and after it the state is not one of a
literal. -/
def Symbol.Ok (lz : Lzma) : Symbol → Prop
  | literal _ lz' => lz' = { lz with state := lz.state.literal }
  | copy lz' => lz.SameProps lz' ∧ 1 ≤ lz'.len ∧ lz'.len ≤ 273

/-- The numbers of bits of a symbol. -/
def Symbol.Bits (k j : ℕ) : Prop := (k ≤ 23 ∧ j = 0) ∨ (k ≤ 22 ∧ j ≤ 26)

/-- The end of a path that has found a match. -/
def CopyEnd (lz : Lzma) (lz' : Lzma) (k j : ℕ) : Prop := (Symbol.copy lz').Ok lz ∧ Symbol.Bits k j

theorem lzmaMatch_paths (lz : Lzma) {posState : ℕ} (h : posState < 16) :
    (lzmaMatch lz posState).Paths Prob.Valid (CopyEnd lz) 2 0 := by
  refine (lzmaLen_paths _ h fun len k' hlow hhigh hk' => ?_).bind
  refine (lzmaDistance_paths len fun dist k'' j'' _ hbits => ?_).bind
  refine ⟨⟨⟨rfl, rfl, rfl⟩, Nat.one_le_of_lt hlow, hhigh⟩, ?_⟩
  rcases hbits with ⟨hk, hj⟩ | ⟨hk, hj⟩
  · exact .inl ⟨by omega, hj⟩
  · exact .inr ⟨by omega, by omega⟩

theorem lzmaLongRep_paths {lz : Lzma} (lz' : Lzma) (hlz : lz.SameProps lz') {posState : ℕ}
    (h : posState < 16) (hk : k ≤ 5) :
    (lzmaLongRep lz' posState).Paths Prob.Valid (CopyEnd lz) k 0 := by
  refine (lzmaLen_paths _ h fun len k' hlow hhigh hk' => ?_).bind
  exact ⟨⟨hlz, Nat.one_le_of_lt hlow, hhigh⟩, .inl ⟨by omega, rfl⟩⟩

theorem lzmaRepMatch_paths (lz : Lzma) {posState : ℕ} (h : posState < 16) :
    (lzmaRepMatch lz posState).Paths Prob.Valid (CopyEnd lz) 2 0 := by
  have hsame : lz.SameProps lz := ⟨rfl, rfl, rfl⟩
  rw [lzmaRepMatch_eq]
  refine ⟨trivial, fun b => ?_⟩
  cases b with
  | false =>
    refine ⟨h, fun b => ?_⟩
    cases b with
    | false => exact ⟨⟨⟨rfl, rfl, rfl⟩, le_rfl, show 1 ≤ 273 by decide⟩, .inl ⟨by decide, rfl⟩⟩
    | true => exact lzmaLongRep_paths lz hsame h (by decide)
  | true =>
    refine ⟨trivial, fun b => ?_⟩
    cases b with
    | false =>
      exact lzmaLongRep_paths { lz with rep1 := lz.rep0, rep0 := lz.rep1 } hsame h (by decide)
    | true =>
      refine ⟨trivial, fun b => ?_⟩
      cases b with
      | false =>
        exact lzmaLongRep_paths { lz with rep2 := lz.rep1, rep1 := lz.rep0, rep0 := lz.rep2 }
          hsame h (by decide)
      | true =>
        exact lzmaLongRep_paths
          { lz with rep3 := lz.rep2, rep2 := lz.rep1, rep1 := lz.rep0, rep0 := lz.rep3 }
          hsame h (by decide)

/-- **The bits of a symbol.**  The probabilities are inside the arrays, and there are at most 23
bits with probabilities, or 22 and 26 direct ones. -/
theorem lzmaSymbol_paths {lz : Lzma} (h : lz.Valid) (pos : ℕ) (get : ℕ → Byte) :
    (lzmaSymbol lz pos get).Paths Prob.Valid (fun symbol k j => symbol.Ok lz ∧
      Symbol.Bits k j) 0 0 := by
  have hpos : pos &&& lz.posMask < 16 := Nat.and_le_right.trans_lt h.posMask
  rw [lzmaSymbol_eq]
  refine ⟨hpos, fun b => ?_⟩
  cases b with
  | false =>
    exact Coded.Paths.bind (lzmaLiteral_paths h pos get fun s _ _ => ⟨rfl, .inl ⟨by decide, rfl⟩⟩)
  | true =>
    refine ⟨trivial, fun b => ?_⟩
    cases b with
    | false => exact Coded.Paths.bind (lzmaMatch_paths lz hpos)
    | true => exact Coded.Paths.bind (lzmaRepMatch_paths lz hpos)

theorem excess_bits {k j : ℕ} (h : Symbol.Bits k j) : RangeCoder.Excess 22 k j := by
  rcases h with ⟨hk, rfl⟩ | ⟨hk, hj⟩
  · exact RangeCoder.Excess.mono (k := 23) (j := 0) (by decide +kernel) hk le_rfl
  · exact RangeCoder.Excess.mono (k := 22) (j := 26) (by decide +kernel) hk hj

/-- A symbol takes at most 21 bytes, the normalization after it included. -/
theorem lzmaSymbol_bytes {lz : Lzma} (h : lz.Valid) (pos : ℕ) (get : ℕ → Byte) (input : Source)
    {r : Reader Prob} (hr : r.Sound) :
    (((lzmaSymbol lz pos get).run input r).2.normalize input).dec.pos ≤ r.dec.pos + 21 :=
  Nat.lt_succ_iff.mp (Coded.pos_run_normalize_lt input hr (lzmaSymbol_paths h pos get)
    fun _ _ _ hQ => excess_bits hQ.2)

theorem lzmaSymbol_ok {lz : Lzma} (h : lz.Valid) (pos : ℕ) (get : ℕ → Byte) (input : Source)
    (r : Reader Prob) :
    ((lzmaSymbol lz pos get).run input r).1.Ok lz := by
  obtain ⟨_, _, hok, -⟩ := (lzmaSymbol_paths h pos get).exec r
  exact hok

end Xz
end CalvinHook
