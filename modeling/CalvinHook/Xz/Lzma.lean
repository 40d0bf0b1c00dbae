import CalvinHook.Xz.Dictionary
import CalvinHook.Coding.RangeCoder

/-!
# The LZMA decoder

The part of `xz_dec_lzma2.c` between the range decoder and `lzma_main`.  A function of the source
that calls `rc_bit` or `rc_direct` is a computation that asks for bits; `Coded.run` answers them as
`rc_normalize`, `rc_bit` and `rc_direct` do, from `rc.in` at `rc.in_pos` and with the probabilities
of `struct lzma_dec`.

The probabilities are addressed by names (`Prob`), an array of the structure with its indices,
instead of pointers.
-/

namespace CalvinHook
namespace Xz

open RangeCoder (Coded Reader Decoder Source)
open RangeCoder.Coded (ask askDirect)

/-! ## States -/

/-- `enum lzma_state`. -/
inductive LzmaState
  | litLit | matchLitLit | repLitLit | shortrepLitLit | matchLit | repLit | shortrepLit
  | litMatch | litLongrep | litShortrep | nonlitMatch | nonlitRep
  deriving DecidableEq, Repr

namespace LzmaState

/-- The number of a state. -/
def toNat : LzmaState → ℕ
  | litLit => 0 | matchLitLit => 1 | repLitLit => 2 | shortrepLitLit => 3
  | matchLit => 4 | repLit => 5 | shortrepLit => 6
  | litMatch => 7 | litLongrep => 8 | litShortrep => 9 | nonlitMatch => 10 | nonlitRep => 11

/-- `lzma_state_is_literal`. -/
def isLiteral (s : LzmaState) : Bool := s.toNat < 7

/-- `lzma_state_literal`: from the states after `STATE_SHORTREP_LIT_LIT` three is taken off, from
the last two six. -/
def literal : LzmaState → LzmaState
  | litLit | matchLitLit | repLitLit | shortrepLitLit => litLit
  | matchLit => matchLitLit
  | repLit => repLitLit
  | shortrepLit => shortrepLitLit
  | litMatch => matchLit
  | litLongrep => repLit
  | litShortrep => shortrepLit
  | nonlitMatch => matchLit
  | nonlitRep => repLit

/-- `lzma_state_match`. -/
def afterMatch (s : LzmaState) : LzmaState := if s.isLiteral then litMatch else nonlitMatch

/-- `lzma_state_long_rep`. -/
def longRep (s : LzmaState) : LzmaState := if s.isLiteral then litLongrep else nonlitRep

/-- `lzma_state_short_rep`. -/
def shortRep (s : LzmaState) : LzmaState := if s.isLiteral then litShortrep else nonlitRep

end LzmaState

/-! ## Probabilities -/

/-- The probabilities of a `struct lzma_len_dec`. -/
inductive LenProb
  | choice
  | choice2
  | low (posState i : ℕ)
  | mid (posState i : ℕ)
  | high (i : ℕ)
  deriving DecidableEq, Repr

/-- The two length decoders. -/
inductive LenDec
  | matchLenDec
  | repLenDec
  deriving DecidableEq, Repr

/-- The probabilities of `struct lzma_dec`. -/
inductive Prob
  | isMatch (state : LzmaState) (posState : ℕ)
  | isRep (state : LzmaState)
  | isRep0 (state : LzmaState)
  | isRep1 (state : LzmaState)
  | isRep2 (state : LzmaState)
  | isRep0Long (state : LzmaState) (posState : ℕ)
  | distSlot (distState i : ℕ)
  | distSpecial (i : ℕ)
  | distAlign (i : ℕ)
  | len (l : LenDec) (p : LenProb)
  | literal (coder i : ℕ)
  deriving DecidableEq, Repr

/-! ## Bit trees -/

/-- The loop of `rc_bittree`: `fuel` bounds its passes, each of which doubles the symbol. -/
def bittreeLoop (probs : ℕ → Prob) (limit : ℕ) : ℕ → ℕ → Coded Prob ℕ
  | 0, symbol => pure symbol
  | fuel + 1, symbol => do
    let bit ← ask (probs symbol)
    let symbol := 2 * symbol + bit.toNat
    if symbol < limit then bittreeLoop probs limit fuel symbol else pure symbol

/-- `rc_bittree`. -/
def rcBittree (probs : ℕ → Prob) (limit : ℕ) : Coded Prob ℕ := bittreeLoop probs limit limit 1

/-- The loop of `rc_bittree_reverse`, with the number of its passes that are left. -/
def bittreeReverseLoop (probs : ℕ → Prob) : ℕ → ℕ → ℕ → ℕ → Coded Prob ℕ
  | 0, _, _, dest => pure dest
  | left + 1, i, symbol, dest => do
    let bit ← ask (probs symbol)
    bittreeReverseLoop probs left (i + 1) (2 * symbol + bit.toNat) (dest + if bit then 2 ^ i else 0)

/-- `rc_bittree_reverse`: what it adds to `dest` is added. -/
def rcBittreeReverse (probs : ℕ → Prob) (dest limit : ℕ) : Coded Prob ℕ :=
  bittreeReverseLoop probs (max 1 limit) 0 1 dest

/-- `rc_direct`, for a `limit` that is not zero. -/
def rcDirect : ℕ → ℕ → Coded Prob ℕ
  | dest, 0 => pure dest
  | dest, limit + 1 => do
    let bit ← askDirect
    rcDirect (2 * dest + bit.toNat) limit

/-! ## Symbols -/

/-- `struct lzma_dec` without the probabilities. -/
structure Lzma where
  rep0 : ℕ
  rep1 : ℕ
  rep2 : ℕ
  rep3 : ℕ
  state : LzmaState
  len : ℕ
  lc : ℕ
  literalPosMask : ℕ
  posMask : ℕ
  deriving DecidableEq, Repr

/-- `lzma_literal_probs`: the number of the literal coder. -/
def lzmaLiteralProbs (lz : Lzma) (pos : ℕ) (prevByte : Byte) : ℕ :=
  prevByte.toNat / 2 ^ (8 - lz.lc) + (pos &&& lz.literalPosMask) * 2 ^ lz.lc

/-- The next offset of `lzma_literal`, after a bit where the matched byte has `matchBit`. -/
def nextOffset (offset matchBit : ℕ) (bit : Bool) : ℕ :=
  if bit then offset &&& matchBit else offset &&& ((2 ^ 32 - 1) ^^^ matchBit)

/-- The loop of `lzma_literal` after a match; `fuel` bounds its passes. -/
def matchedLiteralLoop (coder : ℕ) : ℕ → ℕ → ℕ → ℕ → Coded Prob ℕ
  | 0, symbol, _, _ => pure symbol
  | fuel + 1, symbol, matchByte, offset => do
    let matchBit := matchByte &&& offset
    let bit ← ask (.literal coder (offset + matchBit + symbol))
    let symbol := 2 * symbol + bit.toNat
    if symbol < 0x100 then
      matchedLiteralLoop coder fuel symbol (2 * matchByte) (nextOffset offset matchBit bit)
    else pure symbol

/-- `lzma_literal` up to `dict_put`: `get` is `dict_get` and `pos` the position in the
dictionary. -/
def lzmaLiteral (lz : Lzma) (pos : ℕ) (get : ℕ → Byte) : Coded Prob ℕ :=
  let coder := lzmaLiteralProbs lz pos (get 0)
  if lz.state.isLiteral then rcBittree (.literal coder) 0x100
  else matchedLiteralLoop coder 0x100 1 (2 * (get lz.rep0).toNat) 0x100

/-- `lzma_len`: the length of a match. -/
def lzmaLen (l : LenDec) (posState : ℕ) : Coded Prob ℕ := do
  if !(← ask (.len l .choice)) then
    let symbol ← rcBittree (fun i => .len l (.low posState i)) 8
    pure (2 + (symbol - 8))
  else if !(← ask (.len l .choice2)) then
    let symbol ← rcBittree (fun i => .len l (.mid posState i)) 8
    pure (2 + 8 + (symbol - 8))
  else
    let symbol ← rcBittree (fun i => .len l (.high i)) 256
    pure (2 + 8 + 8 + (symbol - 256))

/-- `lzma_get_dist_state`. -/
def lzmaGetDistState (len : ℕ) : ℕ := if len < 4 + 2 then len - 2 else 4 - 1

/-- The distance of `lzma_match`. -/
def lzmaDistance (len : ℕ) : Coded Prob ℕ := do
  let symbol ← rcBittree (.distSlot (lzmaGetDistState len)) 64
  let distSlot := symbol - 64
  if distSlot < 4 then pure distSlot
  else
    let limit := distSlot / 2 - 1
    let rep0 := 2 + distSlot % 2
    if distSlot < 14 then
      let rep0 := rep0 * 2 ^ limit
      rcBittreeReverse (fun i => .distSpecial (rep0 + i - (distSlot + 1))) rep0 limit
    else
      let rep0 ← rcDirect rep0 (limit - 4)
      rcBittreeReverse .distAlign (rep0 * 2 ^ 4) 4

/-- `lzma_match`. -/
def lzmaMatch (lz : Lzma) (posState : ℕ) : Coded Prob Lzma := do
  let len ← lzmaLen .matchLenDec posState
  let rep0 ← lzmaDistance len
  pure { lz with
    state := lz.state.afterMatch, rep3 := lz.rep2, rep2 := lz.rep1, rep1 := lz.rep0, rep0 := rep0,
    len := len }

/-- The end of `lzma_rep_match` for a repeated match that is longer than one byte. -/
def lzmaLongRep (lz : Lzma) (posState : ℕ) : Coded Prob Lzma := do
  let len ← lzmaLen .repLenDec posState
  pure { lz with state := lz.state.longRep, len := len }

/-- `lzma_rep_match`. -/
def lzmaRepMatch (lz : Lzma) (posState : ℕ) : Coded Prob Lzma := do
  if !(← ask (.isRep0 lz.state)) then
    if !(← ask (.isRep0Long lz.state posState)) then
      pure { lz with state := lz.state.shortRep, len := 1 }
    else lzmaLongRep lz posState
  else if !(← ask (.isRep1 lz.state)) then
    lzmaLongRep { lz with rep1 := lz.rep0, rep0 := lz.rep1 } posState
  else if !(← ask (.isRep2 lz.state)) then
    lzmaLongRep { lz with rep2 := lz.rep1, rep1 := lz.rep0, rep0 := lz.rep2 } posState
  else
    lzmaLongRep
      { lz with rep3 := lz.rep2, rep2 := lz.rep1, rep1 := lz.rep0, rep0 := lz.rep3 } posState

/-- What one pass of the loop of `lzma_main` has decoded: a byte for the dictionary, or a match. -/
inductive Symbol
  | literal (byte : Byte) (lz : Lzma)
  | copy (lz : Lzma)

/-- The bits of one pass of the loop of `lzma_main`. -/
def lzmaSymbol (lz : Lzma) (pos : ℕ) (get : ℕ → Byte) : Coded Prob Symbol := do
  let posState := pos &&& lz.posMask
  if !(← ask (.isMatch lz.state posState)) then
    let symbol ← lzmaLiteral lz pos get
    pure (.literal (BitVec.ofNat 8 symbol) { lz with state := lz.state.literal })
  else if ← ask (.isRep lz.state) then
    let lz ← lzmaRepMatch lz posState
    pure (.copy lz)
  else
    let lz ← lzmaMatch lz posState
    pure (.copy lz)

end Xz
end CalvinHook
