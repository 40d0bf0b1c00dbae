import CalvinHook.Xz.Lzma2
import CalvinHook.Xz.Symbols

/-!
# LZMA as a function of the history

The abstract decoder has the whole history instead of a ring buffer and makes one byte at a time:
the rest of a match, or the first byte of a new symbol.  `produce n` makes `n` bytes.  It reads bits
like the decoder of the source, but it has no limits, neither of the output nor of the input.

* `Sim`: the dictionary holds the history.
* `lzmaIteration_cases`: one pass of the loop of `lzma_main` makes some bytes, or fails where the
  abstract decoder fails.
* `lzmaMain_cases`: the same for `lzma_main`, with how far it reads.
-/

namespace CalvinHook
namespace Xz

open RangeCoder (Coded Reader Decoder Source)

/-! ## The abstract decoder -/

/-- The history, newest byte first, and the state of the decoder. -/
structure Core where
  hist : List Byte
  lzma : Lzma

namespace Core

/-- The byte at a distance. -/
def get (c : Core) (dist : ℕ) : Byte := (c.hist[dist]?).getD 0

/-- One byte of a match; its distance has to be inside the history and the dictionary. -/
def copyByte (dictSize : ℕ) (c : Core) : Option Core :=
  if c.lzma.rep0 < min c.hist.length dictSize then
    some ⟨Ring.again c.lzma.rep0 c.hist, { c.lzma with len := c.lzma.len - 1 }⟩
  else none

/-- The next byte. -/
def emit (dictSize : ℕ) (c : Core) : Coded Prob (Option Core) :=
  if 0 < c.lzma.len then .done (c.copyByte dictSize)
  else lzmaSymbol c.lzma c.hist.length c.get >>= fun
    | .literal byte lz => .done (some ⟨byte :: c.hist, lz⟩)
    | .copy lz => .done (copyByte dictSize ⟨c.hist, lz⟩)

/-- Go on unless there was an error. -/
def andThen (f : Core → Coded Prob (Option Core)) : Option Core → Coded Prob (Option Core)
  | some c => f c
  | none => .done none

/-- The next `n` bytes. -/
def produce (dictSize : ℕ) : ℕ → Core → Coded Prob (Option Core)
  | 0, c => .done (some c)
  | n + 1, c => emit dictSize c >>= andThen (produce dictSize n)

variable {dictSize : ℕ}

theorem produce_add (m n : ℕ) (c : Core) :
    produce dictSize (m + n) c = produce dictSize m c >>= andThen (produce dictSize n) := by
  induction m generalizing c with
  | zero => rw [Nat.zero_add, produce, Coded.done_bind, andThen]
  | succ m ih =>
    rw [Nat.succ_add, produce, produce, Coded.bind_assoc]
    congr 1
    funext o
    cases o with
    | none => rfl
    | some c => exact ih c

/-- A match makes its bytes without bits. -/
theorem produce_copies {c : Core} {m : ℕ} (hm : m ≤ c.lzma.len)
    (hdist : c.lzma.rep0 < min c.hist.length dictSize) :
    produce dictSize m c =
      .done (some ⟨(Ring.again c.lzma.rep0)^[m] c.hist,
        { c.lzma with len := c.lzma.len - m }⟩) := by
  induction m generalizing c with
  | zero => rfl
  | succ m ih =>
    have hlen : 0 < c.lzma.len := by omega
    have hlength := Ring.length_again (hdist.trans_le (Nat.min_le_left _ _))
    rw [produce, emit, if_pos hlen, copyByte, if_pos hdist, Coded.done_bind, andThen, ih]
    · rw [Function.iterate_succ_apply, Nat.sub_sub, Nat.add_comm 1 m]
    · show m ≤ c.lzma.len - 1
      omega
    · show c.lzma.rep0 < min (Ring.again c.lzma.rep0 c.hist).length dictSize
      omega

/-- The first byte after a literal was read. -/
theorem produce_run_literal {c : Core} {input : Source} {r r' : Reader Prob} {byte : Byte}
    {lz : Lzma} (n : ℕ) (hlen : c.lzma.len = 0)
    (hrun : (lzmaSymbol c.lzma c.hist.length c.get).run input r = (.literal byte lz, r')) :
    (c.produce dictSize (n + 1)).run input r =
      (produce dictSize n ⟨byte :: c.hist, lz⟩).run input r' := by
  rw [produce, emit, if_neg (by omega), Coded.bind_assoc, Coded.run_bind, hrun]
  rfl

/-- The first byte after a match was read. -/
theorem produce_run_copy {c : Core} {input : Source} {r r' : Reader Prob} {lz : Lzma} (n : ℕ)
    (hlen : c.lzma.len = 0) (hlz : 0 < lz.len)
    (hrun : (lzmaSymbol c.lzma c.hist.length c.get).run input r = (.copy lz, r')) :
    (c.produce dictSize (n + 1)).run input r =
      (produce dictSize (n + 1) ⟨c.hist, lz⟩).run input r' := by
  rw [produce, emit, if_neg (by omega), Coded.bind_assoc, Coded.run_bind, hrun, produce,
    emit, if_pos hlz]

end Core

/-! ## The dictionary -/

namespace Dictionary

variable {d : Dictionary} {hist : List Byte}

/-- The dictionary holds the history. -/
structure Holds (d : Dictionary) (hist : List Byte) : Prop where
  ring : Ring.Holds d.buf d.pos d.full d.bufEnd hist
  size_eq : d.size = d.bufEnd
  aligned : 16 ∣ d.bufEnd
  bufEnd_lt : d.bufEnd < 2 ^ 32

theorem back_eq (h : d.Holds hist) {dist : ℕ} (hdist : dist < d.full) :
    d.back dist = Ring.place d.pos d.bufEnd dist := by
  have hpos := h.ring.pos_le
  have hfull := h.ring.full_le
  have hend := h.bufEnd_lt
  unfold back Ring.place
  split_ifs <;> omega

theorem get_eq (h : d.Holds hist) {dist : ℕ} (hdist : dist < d.full ∨ d.full = 0) :
    d.get dist = (hist[dist]?).getD 0 := by
  unfold get
  by_cases hfull : 0 < d.full
  · have hdist' : dist < d.full := by omega
    rw [if_pos hfull, back_eq h hdist', h.ring.get dist hdist', Option.getD_some]
  · have hlength : hist.length = 0 := by
      have := h.ring.full_eq
      have := h.ring.cap_pos
      omega
    rw [if_neg hfull, List.length_eq_zero_iff.mp hlength, List.getElem?_nil, Option.getD_none]

theorem full_eq_min (h : d.Holds hist) : d.full = min hist.length d.size :=
  h.size_eq ▸ h.ring.full_eq

/-- The position in the dictionary and in the history, seen through a mask of the properties. -/
theorem pos_and (h : d.Holds hist) {mask : ℕ} (hmask : mask < 16) :
    d.pos &&& mask = hist.length &&& mask := by
  have hmod : d.pos % 16 = hist.length % 16 := by
    rw [← Nat.mod_mod_of_dvd d.pos h.aligned, h.ring.pos_mod, Nat.mod_mod_of_dvd _ h.aligned]
  have hand : ∀ x : ℕ, x &&& mask = x % 16 &&& mask := fun x => by
    have hlt : x &&& mask < 2 ^ 4 := Nat.and_le_right.trans_lt hmask
    have hsplit : (x &&& mask) % 2 ^ 4 = (x % 2 ^ 4) &&& (mask % 2 ^ 4) := Nat.and_mod_two_pow
    rw [Nat.mod_eq_of_lt hlt, Nat.mod_eq_of_lt (show mask < 2 ^ 4 from hmask)] at hsplit
    exact hsplit
  rw [hand d.pos, hand hist.length, hmod]

/-- What decoding changes: `m` bytes more from `pos` on. -/
structure Grown (d d' : Dictionary) (m : ℕ) : Prop where
  start : d'.start = d.start
  pos : d'.pos = d.pos + m
  full : d.full ≤ d'.full
  limit : d'.limit = d.limit
  bufEnd : d'.bufEnd = d.bufEnd
  size : d'.size = d.size
  sizeMax : d'.sizeMax = d.sizeMax
  allocated : d'.allocated = d.allocated
  frame : ∀ i, i < d.pos ∨ d.pos + m ≤ i → d'.buf i = d.buf i

theorem Grown.refl (d : Dictionary) : d.Grown d 0 :=
  ⟨rfl, rfl, le_rfl, rfl, rfl, rfl, rfl, rfl, fun _ _ => rfl⟩

theorem Grown.trans {d d' d'' : Dictionary} {m n : ℕ} (h : d.Grown d' m) (h' : d'.Grown d'' n) :
    d.Grown d'' (m + n) where
  start := h'.start.trans h.start
  pos := by rw [h'.pos, h.pos, Nat.add_assoc]
  full := h.full.trans h'.full
  limit := h'.limit.trans h.limit
  bufEnd := h'.bufEnd.trans h.bufEnd
  size := h'.size.trans h.size
  sizeMax := h'.sizeMax.trans h.sizeMax
  allocated := h'.allocated.trans h.allocated
  frame := fun i hi => by
    have hpos := h.pos
    rw [h'.frame i (by omega), h.frame i (by omega)]

theorem holds_put (h : d.Holds hist) (hpos : d.pos < d.bufEnd) (byte : Byte) :
    (d.put byte).Holds (byte :: hist) ∧ d.Grown (d.put byte) 1 := by
  have hring := h.ring.put hpos byte
  have hfull : (if d.full < d.pos + 1 then d.pos + 1 else d.full) = max d.full (d.pos + 1) := by
    split_ifs <;> omega
  refine ⟨⟨?_, h.size_eq, h.aligned, h.bufEnd_lt⟩, rfl, rfl, ?_, rfl, rfl, rfl, rfl, rfl,
    fun i hi => ?_⟩
  · unfold put
    dsimp only
    rw [hfull]
    exact hring
  · exact (Nat.le_max_left _ _).trans hfull.ge
  · exact Function.update_of_ne (by omega) _ _

theorem repeatMatch_eq_none_iff (len dist : ℕ) :
    d.repeatMatch len dist = none ↔ d.full ≤ dist ∨ d.size ≤ dist := by
  unfold repeatMatch
  split_ifs with h
  · exact ⟨fun _ => h, fun _ => rfl⟩
  · exact ⟨fun hn => hn.elim, fun h' => absurd h' h⟩

theorem repeatMatch_eq (h : d.Holds hist) {len dist : ℕ} (hdist : dist < d.full) (hlen : 0 < len)
    (hspace : d.pos < d.limit) (hlimit : d.limit ≤ d.bufEnd) :
    ∃ d', d.repeatMatch len dist = some (len - min (d.limit - d.pos) len, d') ∧
      d'.Holds ((Ring.again dist)^[min (d.limit - d.pos) len] hist) ∧
      d.Grown d' (min (d.limit - d.pos) len) := by
  set m := min (d.limit - d.pos) len
  have hfull := h.ring.full_le
  have hcount : doWhileCount m = m := if_neg (by omega)
  obtain ⟨buf', full', hrun, hfull', hholds, -, hframe⟩ :=
    h.ring.copyFrom (n := m) hdist (by omega)
  have hmax : (if d.full < d.pos + m then d.pos + m else d.full) = full' := by
    rw [hfull']
    split_ifs <;> omega
  have hok : ¬(d.full ≤ dist ∨ d.size ≤ dist) := by
    rw [h.size_eq]
    omega
  refine ⟨{ d with buf := buf', pos := d.pos + m, full := full' }, ?_,
    ⟨hholds, h.size_eq, h.aligned, h.bufEnd_lt⟩, rfl, rfl, hfull' ▸ Nat.le_max_left _ _, rfl, rfl,
    rfl, rfl, rfl, hframe⟩
  rw [repeatMatch, if_neg hok]
  dsimp only
  rw [back_eq h hdist, hcount, hrun, hmax]

end Dictionary

/-! ## One symbol -/

/-- The decoder of the source stands where the abstract one stands. -/
structure Sim (s : Lzma2Dec) (c : Core) : Prop where
  dict : s.dict.Holds c.hist
  lzma : s.lzma = c.lzma
  valid : c.lzma.Valid
  rep0 : 0 < c.lzma.len ∨ c.lzma.state.isLiteral = false → c.lzma.rep0 < s.dict.full

/-- What decoding changes in the decoder: `m` bytes more in the dictionary. -/
structure Advance (s s' : Lzma2Dec) (m : ℕ) : Prop where
  dict : s.dict.Grown s'.dict m
  rest : s' = { s with reader := s'.reader, lzma := s'.lzma, dict := s'.dict }

theorem Advance.trans {s s' s'' : Lzma2Dec} {m n : ℕ} (h : Advance s s' m) (h' : Advance s' s'' n) :
    Advance s s'' (m + n) where
  dict := h.dict.trans h'.dict
  rest := by
    rw [h'.rest, h.rest]

theorem lzmaSymbol_congr {lz : Lzma} {pos pos' : ℕ} {get get' : ℕ → Byte}
    (hpos : pos &&& lz.posMask = pos' &&& lz.posMask)
    (hlit : pos &&& lz.literalPosMask = pos' &&& lz.literalPosMask) (h0 : get 0 = get' 0)
    (hrep : lz.state.isLiteral = false → get lz.rep0 = get' lz.rep0) :
    lzmaSymbol lz pos get = lzmaSymbol lz pos' get' := by
  have hliteral : lzmaLiteral lz pos get = lzmaLiteral lz pos' get' := by
    unfold lzmaLiteral lzmaLiteralProbs
    dsimp only
    rw [hlit, h0]
    by_cases hstate : lz.state.isLiteral = true
    · rw [if_pos hstate, if_pos hstate]
    · rw [if_neg hstate, if_neg hstate, hrep (Bool.not_eq_true _ ▸ hstate)]
  unfold lzmaSymbol
  rw [hpos, hliteral]

theorem LzmaState.isLiteral_literal (s : LzmaState) :
    s.literal.isLiteral = true := by cases s <;> rfl

theorem Lzma.Valid.of_same {lz lz' : Lzma} (h : lz.Valid) (hsame : lz.SameProps lz') :
    lz'.Valid := by
  obtain ⟨hlc, hlit, hpos⟩ := hsame
  exact ⟨hpos ▸ h.posMask, by rw [hlc, hlit]; exact h.literal⟩

theorem Lzma.Valid.literalPosMask_lt {lz : Lzma} (h : lz.Valid) : lz.literalPosMask < 16 := by
  obtain ⟨lp, hsum, hmask⟩ := h.literal
  have hpow : 2 ^ lp ≤ 2 ^ 4 := Nat.pow_le_pow_right two_pos (by omega)
  have := Nat.two_pow_pos lp
  omega

namespace Sim

variable {s : Lzma2Dec} {c : Core} {input : Source}

/-- Both decoders ask for the same bits. -/
theorem symbol_eq (h : Sim s c) :
    lzmaSymbol s.lzma s.dict.pos s.dict.get = lzmaSymbol c.lzma c.hist.length c.get := by
  rw [h.lzma]
  refine lzmaSymbol_congr (Dictionary.pos_and h.dict h.valid.posMask)
    (Dictionary.pos_and h.dict h.valid.literalPosMask_lt) ?_ ?_
  · exact Dictionary.get_eq h.dict (by omega)
  · exact fun hstate => Dictionary.get_eq h.dict (.inl (h.rep0 (.inr hstate)))

/-- **One pass.**  A pass of the loop of `lzma_main` makes at least one byte as the abstract decoder
does, or both fail; it takes at most 21 bytes of the input. -/
theorem lzmaIteration_cases (input : Source) (h : Sim s c) (hlen : c.lzma.len = 0)
    (hspace : s.dict.hasSpace) (hlimit : s.dict.limit ≤ s.dict.bufEnd) (hr : s.reader.Sound) :
    (∃ m c' s', 0 < m ∧ m ≤ s.dict.limit - s.dict.pos ∧ lzmaIteration input s = some s' ∧
      (c.produce s.dict.size m).run input s.reader = (some c', s'.reader) ∧ Sim s' c' ∧
      Advance s s' m ∧
      (0 < c'.lzma.len → m = s.dict.limit - s.dict.pos) ∧
      (s'.reader.normalize input).dec.pos ≤ s.reader.dec.pos + 21) ∨
    (lzmaIteration input s = none ∧ ((c.produce s.dict.size 1).run input s.reader).1 = none ∧
      (((c.produce s.dict.size 1).run input s.reader).2.normalize input).dec.pos ≤
        s.reader.dec.pos + 21) := by
  have hbytes := lzmaSymbol_bytes h.valid c.hist.length c.get input hr
  have hok := lzmaSymbol_ok h.valid c.hist.length c.get input s.reader
  have hspace' : s.dict.pos < s.dict.limit := hspace
  unfold lzmaIteration
  rw [h.symbol_eq]
  generalize hrun : (lzmaSymbol c.lzma c.hist.length c.get).run input s.reader = result
    at hbytes hok
  obtain ⟨symbol, reader⟩ := result
  cases symbol with
  | literal byte lz =>
    left
    obtain ⟨hholds, hgrown⟩ := Dictionary.holds_put h.dict (by omega) byte
    have hlz : lz = { c.lzma with state := c.lzma.state.literal } := hok
    refine ⟨1, ⟨byte :: c.hist, lz⟩, _, one_pos, by omega, rfl, ?_, ⟨hholds, rfl, ?_, ?_⟩,
      ⟨hgrown, rfl⟩, ?_, hbytes⟩
    · rw [Core.produce_run_literal 0 hlen hrun, Core.produce, Coded.run_done]
    · rw [hlz]
      exact h.valid.of_same ⟨rfl, rfl, rfl⟩
    · rw [hlz]
      rintro (hpos | hstate)
      · exact absurd hpos (by dsimp only; omega)
      · rw [LzmaState.isLiteral_literal] at hstate
        cases hstate
    · rw [hlz]
      dsimp only
      omega
  | copy lz =>
    obtain ⟨hsame, hlz1, -⟩ := hok
    have hlz : 0 < lz.len := hlz1
    have hfull := Dictionary.full_eq_min h.dict
    by_cases hdist : lz.rep0 < s.dict.full
    · left
      obtain ⟨dict', hrepeat, hholds, hgrown⟩ :=
        Dictionary.repeatMatch_eq h.dict hdist hlz hspace' hlimit
      set m := min (s.dict.limit - s.dict.pos) lz.len
      have hcopies : Core.produce s.dict.size m ⟨c.hist, lz⟩ = _ :=
        Core.produce_copies (Nat.min_le_right _ _) (hfull ▸ hdist)
      refine ⟨m, ⟨(Ring.again lz.rep0)^[m] c.hist, { lz with len := lz.len - m }⟩,
        { s with reader := reader, lzma := { lz with len := lz.len - m }, dict := dict' },
        by omega, by omega, by dsimp only; rw [hrepeat]; rfl, ?_, ⟨hholds, rfl, ?_, ?_⟩,
        ⟨hgrown, rfl⟩, ?_, hbytes⟩
      · obtain ⟨i, hi⟩ := Nat.exists_eq_succ_of_ne_zero (show m ≠ 0 by omega)
        rw [hi, Core.produce_run_copy i hlen hlz hrun, ← Nat.succ_eq_add_one, ← hi, hcopies,
          Coded.run_done]
      · exact (h.valid.of_same hsame).of_same ⟨rfl, rfl, rfl⟩
      · exact fun _ => hdist.trans_le hgrown.full
      · dsimp only
        omega
    · right
      have hnone : s.dict.repeatMatch lz.len lz.rep0 = none :=
        (Dictionary.repeatMatch_eq_none_iff _ _).mpr (.inl (Nat.not_lt.mp hdist))
      have hcopy : Core.produce s.dict.size 1 ⟨c.hist, lz⟩ = .done none := by
        rw [Core.produce, Core.emit, if_pos hlz, Core.copyByte, if_neg (hfull ▸ hdist)]
        rfl
      rw [Core.produce_run_copy 0 hlen hlz hrun, hcopy, Coded.run_done]
      exact ⟨by dsimp only; rw [hnone]; rfl, rfl, hbytes⟩

/-- The rest of a match before the loop. -/
theorem pendingRepeat_cases (h : Sim s c) (hlimit : s.dict.limit ≤ s.dict.bufEnd) :
    ∃ m c', m ≤ s.dict.limit - s.dict.pos ∧ c.produce s.dict.size m = .done (some c') ∧
      Sim (pendingRepeat s) c' ∧ Advance s (pendingRepeat s) m ∧
      (pendingRepeat s).reader = s.reader ∧
      (0 < c'.lzma.len → ¬(pendingRepeat s).dict.hasSpace) ∧
      (s.dict.hasSpace → 0 < c.lzma.len → 0 < m) := by
  unfold pendingRepeat
  by_cases hpending : s.dict.hasSpace ∧ 0 < s.lzma.len
  · obtain ⟨hspace, hlen⟩ := hpending
    have hspace' : s.dict.pos < s.dict.limit := hspace
    have hlen' : 0 < c.lzma.len := h.lzma ▸ hlen
    have hdist := h.rep0 (.inl hlen')
    have hfull := Dictionary.full_eq_min h.dict
    rw [if_pos ⟨hspace, hlen⟩, h.lzma]
    obtain ⟨dict', hrepeat, hholds, hgrown⟩ :=
      Dictionary.repeatMatch_eq h.dict hdist hlen' hspace' hlimit
    rw [hrepeat]
    refine ⟨_, _, Nat.min_le_left _ _, Core.produce_copies (Nat.min_le_right _ _) (hfull ▸ hdist),
      ⟨hholds, rfl, h.valid.of_same ⟨rfl, rfl, rfl⟩, fun _ => hdist.trans_le hgrown.full⟩,
      ⟨hgrown, rfl⟩, rfl, ?_, ?_⟩
    · intro hleft hspace''
      have hlt : dict'.pos < dict'.limit := hspace''
      rw [hgrown.pos, hgrown.limit] at hlt
      dsimp only at hleft
      omega
    · intro _ _
      omega
  · rw [if_neg hpending]
    refine ⟨0, c, Nat.zero_le _, rfl, h, ⟨.refl _, rfl⟩, rfl, ?_, ?_⟩
    · intro hlen hspace
      exact hpending ⟨hspace, h.lzma ▸ hlen⟩
    · intro hspace hlen
      exact absurd ⟨hspace, h.lzma ▸ hlen⟩ hpending

/-- The loop of `lzma_main` has made `k` bytes. -/
structure Progress (input : Source) (s : Lzma2Dec) (c : Core) (s' : Lzma2Dec) (k : ℕ) (c' : Core) :
    Prop where
  le : k ≤ s.dict.limit - s.dict.pos
  run : (c.produce s.dict.size k).run input s.reader = (some c', s'.reader)
  sim : Sim s' c'
  advance : Advance s s' k
  pending : 0 < c'.lzma.len → ¬s'.dict.hasSpace
  sound : s'.reader.Sound
  bytes : (s'.reader.normalize input).dec.pos ≤
    max (s.reader.normalize input).dec.pos (s.inLimit + 21)

/-- One more pass. -/
theorem Progress.step {s' : Lzma2Dec} {k : ℕ} {c' : Core} (h : Progress input s c s' k c')
    (hlimit : s.dict.limit ≤ s.dict.bufEnd) (hspace : s'.dict.hasSpace)
    (hpos : s'.reader.dec.pos ≤ s.inLimit) :
    (∃ m c'' s'', 0 < m ∧ lzmaIteration input s' = some s'' ∧ Progress input s c s'' (k + m) c'') ∨
    (lzmaIteration input s' = none ∧ k < s.dict.limit - s.dict.pos ∧
      ((c.produce s.dict.size (k + 1)).finish input s.reader).1 = none ∧
      ((c.produce s.dict.size (k + 1)).finish input s.reader).2.dec.pos ≤ s.inLimit + 21) := by
  obtain ⟨hle, hrun, hsim, hadv, hpending, hsound, hbytes⟩ := h
  have hspace' : s'.dict.pos < s'.dict.limit := hspace
  have hdict := hadv.dict
  have hlen : c'.lzma.len = 0 := by
    by_contra hne
    exact hpending (Nat.pos_of_ne_zero hne) hspace
  have hsplit : ∀ m, (c.produce s.dict.size (k + m)).run input s.reader =
      (c'.produce s'.dict.size m).run input s'.reader := fun m => by
    rw [Core.produce_add, Coded.run_bind, hrun, hdict.size]
    rfl
  have hlimit' : s'.dict.limit ≤ s'.dict.bufEnd := by rw [hdict.limit, hdict.bufEnd]; exact hlimit
  rcases hsim.lzmaIteration_cases input hlen hspace hlimit' hsound with
    ⟨m, c'', s'', hm, hmle, hiter, hmrun, hmsim, hmadv, hmpending, hmbytes⟩
      | ⟨hiter, hfail, hfbytes⟩
  · left
    rw [hdict.limit, hdict.pos] at hmle
    refine ⟨m, c'', s'', hm, hiter,
      ⟨by omega, by rw [hsplit, hmrun], hmsim, hadv.trans hmadv, ?_, ?_, by omega⟩⟩
    · intro hleft hmore
      have heq := hmpending hleft
      have hlt : s''.dict.pos < s''.dict.limit := hmore
      rw [hmadv.dict.pos, hmadv.dict.limit] at hlt
      omega
    · have hs := hsound.run input (c'.produce s'.dict.size m)
      rwa [hmrun] at hs
  · right
    rw [hdict.limit, hdict.pos] at hspace'
    refine ⟨hiter, by omega, ?_, ?_⟩
    · rw [Coded.finish, hsplit]
      exact hfail
    · rw [Coded.finish, hsplit]
      exact hfbytes.trans (by omega)

/-- A state of the loop of `lzma_main`: it has made a byte, or is still the first one. -/
def InLoop (input : Source) (s : Lzma2Dec) (c : Core) (t : Lzma2Dec) : Prop :=
  ∃ k c', Progress input s c t k c' ∧ (0 < k ∨ t = pendingRepeat s)

/-- The abstract decoder fails before the limit, and not far in the input. -/
def Fails (input : Source) (s : Lzma2Dec) (c : Core) : Prop :=
  ∃ k < s.dict.limit - s.dict.pos,
    ((c.produce s.dict.size (k + 1)).finish input s.reader).1 = none ∧
    ((c.produce s.dict.size (k + 1)).finish input s.reader).2.dec.pos ≤ s.inLimit + 21

/-- The loop of `lzma_main` is left with success, or with a failure. -/
def LoopEnd (input : Source) (s : Lzma2Dec) (c : Core) : Option Lzma2Dec → Prop
  | some t => InLoop input s c t ∧ ¬(t.dict.hasSpace ∧ t.reader.dec.pos ≤ s.inLimit)
  | none => Fails input s c

theorem InLoop.step {t t' : Lzma2Dec} (hlimit : s.dict.limit ≤ s.dict.bufEnd)
    (h : InLoop input s c t) (hstep : lzmaMainStep input t = .inl t') :
    InLoop input s c t' ∧ t'.dict.limit - t'.dict.pos < t.dict.limit - t.dict.pos := by
  obtain ⟨k, c', hprog, -⟩ := h
  have hlim : t.inLimit = s.inLimit := by rw [hprog.advance.rest]
  unfold lzmaMainStep at hstep
  split_ifs at hstep with hcond
  rcases hprog.step hlimit hcond.1 (hlim ▸ hcond.2) with
    ⟨n, c'', t'', hn, hiter, hnext⟩ | ⟨hiter, -⟩
  · rw [hiter] at hstep
    obtain rfl := Sum.inl.inj hstep
    refine ⟨⟨k + n, c'', hnext, .inl (by omega)⟩, ?_⟩
    have h1 := hprog.advance.dict
    have h2 := hnext.advance.dict
    have h3 := hnext.le
    rw [h1.limit, h1.pos, h2.limit, h2.pos]
    omega
  · rw [hiter] at hstep
    cases hstep

theorem InLoop.exit {t : Lzma2Dec} {result : Option Lzma2Dec}
    (hlimit : s.dict.limit ≤ s.dict.bufEnd) (h : InLoop input s c t)
    (hstep : lzmaMainStep input t = .inr result) : LoopEnd input s c result := by
  obtain ⟨k, c', hprog, hk⟩ := h
  have hlim : t.inLimit = s.inLimit := by rw [hprog.advance.rest]
  unfold lzmaMainStep at hstep
  split_ifs at hstep with hcond
  · rcases hprog.step hlimit hcond.1 (hlim ▸ hcond.2) with
      ⟨n, c'', t'', hn, hiter, hnext⟩ | ⟨hiter, hfail⟩
    · rw [hiter] at hstep
      cases hstep
    · rw [hiter] at hstep
      obtain rfl := Sum.inr.inj hstep
      exact ⟨k, hfail⟩
  · obtain rfl := Sum.inr.inj hstep
    exact ⟨⟨k, c', hprog, hk⟩, hlim ▸ hcond⟩

/-- **`lzma_main`.**  It makes some bytes as the abstract decoder does, at least one if it may, or
fails where the abstract decoder fails; it does not read further than 21 bytes after its limit. -/
theorem lzmaMain_cases (input : Source) (h : Sim s c) (hr : s.reader.Sound)
    (hlimit : s.dict.limit ≤ s.dict.bufEnd) :
    (∃ k c' s', lzmaMain input s = some s' ∧ k ≤ s.dict.limit - s.dict.pos ∧
      (c.produce s.dict.size k).finish input s.reader = (some c', s'.reader) ∧ Sim s' c' ∧
      Advance s s' k ∧
      (s.dict.hasSpace → 0 < c.lzma.len ∨ s.reader.dec.pos ≤ s.inLimit → 0 < k) ∧
      s'.reader.dec.pos ≤ max (s.reader.normalize input).dec.pos (s.inLimit + 21)) ∨
    (lzmaMain input s = none ∧ Fails input s c) := by
  obtain ⟨m, c0, hm, hprod, hsim, hadv, hreader, hpending, hfirst⟩ := h.pendingRepeat_cases hlimit
  have hinit : InLoop input s c (pendingRepeat s) :=
    ⟨m, c0, ⟨hm, by rw [hprod, Coded.run_done, hreader], hsim, hadv, hpending, hreader ▸ hr,
      by rw [hreader]; exact Nat.le_max_left _ _⟩, .inr rfl⟩
  obtain ⟨result, hloop, hresult⟩ :=
    Repeat.loop_total (fun t : Lzma2Dec => t.dict.limit - t.dict.pos)
      (fun _ _ ht hstep => InLoop.step hlimit ht hstep)
      (fun _ _ ht hstep => InLoop.exit hlimit ht hstep) hinit (Nat.lt_succ_self _)
  unfold lzmaMain
  dsimp only
  rw [hloop, Option.getD_some]
  cases result with
  | none => exact .inr ⟨rfl, hresult⟩
  | some t =>
    left
    obtain ⟨⟨k, c', hprog, hk⟩, hend⟩ := hresult
    refine ⟨k, c', { t with reader := t.reader.normalize input }, rfl, hprog.le, ?_, ?_, ?_, ?_,
      hprog.bytes⟩
    · rw [Coded.finish, hprog.run]
    · exact ⟨hprog.sim.dict, hprog.sim.lzma, hprog.sim.valid, hprog.sim.rep0⟩
    · exact ⟨hprog.advance.dict, by rw [hprog.advance.rest]⟩
    · -- if not even one byte was made, the loop was not entered although it should be
      intro hspace hread
      rcases hk with hk | rfl
      · exact hk
      · by_contra hzero
        have hm' : m = k := by
          have h1 := hadv.dict.pos
          have h2 := hprog.advance.dict.pos
          omega
        rcases hread with hlen | hpos
        · exact hzero (hm' ▸ hfirst hspace hlen)
        · refine hend ⟨?_, hreader ▸ hpos⟩
          show (pendingRepeat s).dict.pos < (pendingRepeat s).dict.limit
          rw [hprog.advance.dict.pos, hprog.advance.dict.limit]
          have : s.dict.pos < s.dict.limit := hspace
          omega

end Sim

end Xz
end CalvinHook
