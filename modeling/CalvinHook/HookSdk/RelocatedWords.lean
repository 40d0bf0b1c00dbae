import CalvinHook.HookSdk.Relocator
import CalvinHook.A64.Agree

/-!
# The words of a relocated block

`Relocatable` lists the words a block may consist of, by the classes the relocator tells apart, and
the lemmas `relocFragment_*` give the fragment of each class.  The rest of the module decodes the
words these fragments are made of: the register moves and loads through `X17`, and the inverted
compare and test branches (`decode_compare`, `decode_test`), which differ from the original word in
the condition bit and the offset only.
-/

namespace CalvinHook
namespace Arm64

open A64

/-! ## Which words are relocated how -/

/-- A word under one pattern fails a mask test that conflicts with it. -/
theorem beq_and_eq_false {p : Pattern} {w : Word} (hp : p.Matches w) {m v : Word}
    (hc : p.Conflict ⟨m, v, Insn.other⟩) : ((w &&& m) == v) = false := by
  have h : ¬ (⟨m, v, Insn.other⟩ : Pattern).Matches w := hc.not_matches hp
  simpa [Pattern.Matches] using h

/-- The word is in one of the classes `RelocateInstructions` rewrites. -/
def isPcRelative (w : Word) : Bool :=
  isB w || isBL w || isBCond w || isCBZ w || isCBNZ w || isTBZ w || isTBNZ w || isLdrLiteral w ||
    isADR w || isADRP w

/-- The register number is that of `X17`. -/
def isX17 (n : ℕ) : Prop := n = 17

/-- The words a block may consist of: `B`, `BL`, `CBZ`, `CBNZ`, `TBZ`, `TBNZ`, `ADR`, `ADRP`, the
integer literal loads, and the words that are independent of the program counter, none of them
naming `X17`. -/
inductive Relocatable (isa : Isa) (w : Word) : Prop where
  | b (h : isB w = true)
  | bl (h : isBL w = true)
  | compare (h : isCBZ w = true ∨ isCBNZ w = true) (hr : regAt w 0 ≠ 17)
  | test (h : isTBZ w = true ∨ isTBNZ w = true) (hr : regAt w 0 ≠ 17)
  | adr (h : isADR w = true) (hr : regAt w 0 ≠ 17)
  | adrp (h : isADRP w = true) (hr : regAt w 0 ≠ 17)
  | ldrW (h : w &&& 0xFF000000 = 0x18000000) (hr : regAt w 0 ≠ 17)
  | ldrX (h : w &&& 0xFF000000 = 0x58000000) (hr : regAt w 0 ≠ 17)
  | other (h : isPcRelative w = false) (hp : PcIndependent isa isX17 w)

/-! ## Decoding what the relocator emits -/

theorem decode_brX17 : decode brX17 = .br 17 := rfl

theorem decode_blrLR : decode (kOpBLR ||| (kRegLR <<< 5)) = .blr 30 := rfl

theorem decode_movLR : decode (movFromX17 kRegLR) = .orr 30 31 17 := rfl

theorem getRt_eq (inst : Word) : getRt inst = (inst.extractLsb' 0 5).setWidth 32 <<< 0 := by
  rw [getRt, bits_eq inst (by omega), BitVec.shiftLeft_zero]

/-- The register added at the bottom of a word. -/
theorem regAt_or_getRt {c : Word} (inst : Word) (hc : c.extractLsb' 0 5 = 0) :
    regAt (c ||| getRt inst) 0 = regAt inst 0 := by
  rw [getRt_eq, regAt, extractLsb_or_same _ _ (by omega), hc, BitVec.ofNat_eq_ofNat,
    BitVec.zero_or]
  rfl

/-- The fields above the register. -/
theorem extractLsb_or_getRt (c inst : Word) {lo k : ℕ} (hlo : 5 ≤ lo) :
    (c ||| getRt inst).extractLsb' lo k = c.extractLsb' lo k := by
  rw [getRt_eq, extractLsb_or_of_apart _ _ (by omega)]

theorem or_getRt_and (c inst : Word) {m : Word} (hm : m.extractLsb' 0 5 = 0) :
    (c ||| getRt inst) &&& m = c &&& m := by
  rw [getRt_eq, or_and_of_extractLsb_eq_zero _ _ hm]

/-- A word put together from a register and the rest is decoded by the pattern of the rest. -/
theorem decode_or_getRt {p : Pattern} (hp : p ∈ patterns) {c : Word} (hc : p.Matches c)
    (hm : p.mask.extractLsb' 0 5 = 0) (inst : Word) :
    decode (c ||| getRt inst) = p.build (c ||| getRt inst) := by
  refine decode_of_mem hp ?_
  rw [Pattern.Matches, or_getRt_and _ _ hm]
  exact hc

theorem decode_movFromX17 (inst : Word) :
    decode (movFromX17 (getRd inst)) = .orr (regAt inst 0) 31 17 := by
  show decode (0xAA0003E0 ||| (kRegX17 <<< 16) ||| getRt inst) = _
  rw [decode_or_getRt (p := Pattern.orr) (by simp [patterns]) (by decide) rfl]
  show Insn.orr (regAt _ 0) (BitVec.extractLsb' 5 5 _).toNat (BitVec.extractLsb' 16 5 _).toNat = _
  rw [regAt_or_getRt _ rfl, extractLsb_or_getRt _ _ (by omega), extractLsb_or_getRt _ _ (by omega)]
  rfl

theorem decode_ldrReg (inst : Word) :
    decode (0xF9400200 ||| (kRegX17 <<< 5) ||| getRt inst) = .ldrX (regAt inst 0) 17 0 := by
  rw [decode_or_getRt (p := Pattern.ldrX) (by simp [patterns]) (by decide) rfl]
  show Insn.ldrX (regAt _ 0) (BitVec.extractLsb' 5 5 _).toNat
    ((BitVec.extractLsb' 10 12 _).setWidth 64 * 8) = _
  rw [regAt_or_getRt _ rfl, extractLsb_or_getRt _ _ (by omega), extractLsb_or_getRt _ _ (by omega)]
  rfl

theorem decode_ldrRegW (inst : Word) :
    decode (0xB9400200 ||| (kRegX17 <<< 5) ||| getRt inst) = .ldrW (regAt inst 0) 17 0 := by
  rw [decode_or_getRt (p := Pattern.ldrW) (by simp [patterns]) (by decide) rfl]
  show Insn.ldrW (regAt _ 0) (BitVec.extractLsb' 5 5 _).toNat
    ((BitVec.extractLsb' 10 12 _).setWidth 64 * 4) = _
  rw [regAt_or_getRt _ rfl, extractLsb_or_getRt _ _ (by omega), extractLsb_or_getRt _ _ (by omega)]
  rfl

/-! ### The inverted branches -/

/-- A word with some bits flipped, some cleared and some set. -/
def rewriteBits (x flip keep set : Word) : Word := ((x ^^^ flip) &&& keep) ||| set

/-- Rewriting takes a word of one pattern to a word of another with the same mask. -/
theorem matches_rewriteBits {p q : Pattern} {x flip keep set : Word} (hp : p.Matches x)
    (hmask : q.mask = p.mask)
    (hvalue : ((p.value ^^^ (flip &&& p.mask)) &&& keep) ||| (set &&& p.mask) = q.value) :
    q.Matches (rewriteBits x flip keep set) := by
  have hand : rewriteBits x flip keep set &&& p.mask =
      (((x &&& p.mask) ^^^ (flip &&& p.mask)) &&& keep) ||| (set &&& p.mask) := by
    refine BitVec.eq_of_getLsbD_eq fun i _ => ?_
    simp only [rewriteBits, BitVec.getLsbD_and, BitVec.getLsbD_or, BitVec.getLsbD_xor]
    cases x.getLsbD i <;> cases flip.getLsbD i <;> cases keep.getLsbD i <;> cases set.getLsbD i <;>
      cases p.mask.getLsbD i <;> rfl
  rw [Pattern.Matches] at hp ⊢
  rw [hmask, hand, hp, hvalue]

/-- A field of the rewritten word. -/
theorem extractLsb_rewriteBits_eq (x flip keep set : Word) (lo k : ℕ) :
    (rewriteBits x flip keep set).extractLsb' lo k =
      ((x.extractLsb' lo k ^^^ flip.extractLsb' lo k) &&& keep.extractLsb' lo k) |||
        set.extractLsb' lo k := by
  refine BitVec.eq_of_getLsbD_eq fun i hi => ?_
  simp [rewriteBits, hi]

/-- A field that is neither flipped nor cleared nor set. -/
theorem extractLsb_rewriteBits {x flip keep set : Word} {lo k : ℕ}
    (hflip : flip.extractLsb' lo k = 0) (hkeep : keep.extractLsb' lo k = BitVec.allOnes k)
    (hset : set.extractLsb' lo k = 0) :
    (rewriteBits x flip keep set).extractLsb' lo k = x.extractLsb' lo k := by
  rw [extractLsb_rewriteBits_eq, hflip, hkeep, hset]
  simp

/-- A field that is cleared and then set. -/
theorem extractLsb_rewriteBits_set {x flip keep set : Word} {lo k : ℕ}
    (hkeep : keep.extractLsb' lo k = 0) :
    (rewriteBits x flip keep set).extractLsb' lo k = set.extractLsb' lo k := by
  rw [extractLsb_rewriteBits_eq, hkeep]
  simp

/-- The inverted compare branch over the long branch. -/
def invCompare (inst : Word) : Word := rewriteBits inst (1 <<< 24) (~~~0x00FFFFE0#32) (3 <<< 5)

/-- The inverted test branch over the long branch. -/
def invTest (inst : Word) : Word := rewriteBits inst (1 <<< 24) (~~~0x0007FFE0#32) (3 <<< 5)

theorem decode_compare {inst : Word} (h : isCBZ inst = true ∨ isCBNZ inst = true) :
    ∃ nz, decode inst = .cb nz (inst.getLsbD 31) (regAt inst 0) (imm19 inst) ∧
      decode (invCompare inst) = .cb (!nz) (inst.getLsbD 31) (regAt inst 0) 12 := by
  have hsf : (invCompare inst).getLsbD 31 = inst.getLsbD 31 := by simp [invCompare, rewriteBits]
  have hreg : regAt (invCompare inst) 0 = regAt inst 0 := by
    rw [regAt, invCompare, extractLsb_rewriteBits rfl rfl rfl, regAt]
  have himm : imm19 (invCompare inst) = 12 := by
    rw [imm19, invCompare, extractLsb_rewriteBits_set rfl]
    rfl
  rcases h with h | h
  · have hp : Pattern.cbz.Matches inst := eq_of_beq h
    have hq : Pattern.cbnz.Matches (invCompare inst) := matches_rewriteBits hp rfl rfl
    refine ⟨false, decode_of_mem (by simp [patterns]) hp, ?_⟩
    rw [decode_of_mem (by simp [patterns]) hq]
    show Insn.cb true _ _ _ = _
    rw [hsf, hreg, himm]
    rfl
  · have hp : Pattern.cbnz.Matches inst := eq_of_beq h
    have hq : Pattern.cbz.Matches (invCompare inst) := matches_rewriteBits hp rfl rfl
    refine ⟨true, decode_of_mem (by simp [patterns]) hp, ?_⟩
    rw [decode_of_mem (by simp [patterns]) hq]
    show Insn.cb false _ _ _ = _
    rw [hsf, hreg, himm]
    rfl

theorem decode_test {inst : Word} (h : isTBZ inst = true ∨ isTBNZ inst = true) :
    ∃ nz, decode inst = .tb nz (testBit inst) (regAt inst 0) (imm14 inst) ∧
      decode (invTest inst) = .tb (!nz) (testBit inst) (regAt inst 0) 12 := by
  have hbit : testBit (invTest inst) = testBit inst := by
    rw [testBit, invTest, extractLsb_rewriteBits rfl rfl rfl,
      extractLsb_rewriteBits rfl rfl rfl, testBit]
  have hreg : regAt (invTest inst) 0 = regAt inst 0 := by
    rw [regAt, invTest, extractLsb_rewriteBits rfl rfl rfl, regAt]
  have himm : imm14 (invTest inst) = 12 := by
    rw [imm14, invTest, extractLsb_rewriteBits_set rfl]
    rfl
  rcases h with h | h
  · have hp : Pattern.tbz.Matches inst := eq_of_beq h
    have hq : Pattern.tbnz.Matches (invTest inst) := matches_rewriteBits hp rfl rfl
    refine ⟨false, decode_of_mem (by simp [patterns]) hp, ?_⟩
    rw [decode_of_mem (by simp [patterns]) hq]
    show Insn.tb true _ _ _ = _
    rw [hbit, hreg, himm]
    rfl
  · have hp : Pattern.tbnz.Matches inst := eq_of_beq h
    have hq : Pattern.tbz.Matches (invTest inst) := matches_rewriteBits hp rfl rfl
    refine ⟨true, decode_of_mem (by simp [patterns]) hp, ?_⟩
    rw [decode_of_mem (by simp [patterns]) hq]
    show Insn.tb false _ _ _ = _
    rw [hbit, hreg, himm]
    rfl

/-- The inverted conditional branch over the long branch. -/
def invBCond (inst : Word) : Word := kOpBCond ||| (3 <<< 5) ||| invertCond (condFromBCond inst)

/-- Flipping the lowest bit of the condition field. -/
theorem invertCond_eq (inst : Word) :
    invertCond (condFromBCond inst) = ((inst.extractLsb' 0 4) ^^^ 1).setWidth 32 <<< 0 := by
  have hmask : (0xF : Word) = BitVec.ofNat 32 (2 ^ 4 - 1) := rfl
  rw [invertCond, condFromBCond, hmask, and_two_pow_sub_one, BitVec.shiftLeft_zero]
  refine BitVec.eq_of_getLsbD_eq fun i hi => ?_
  by_cases h4 : i < 4
  · interval_cases i <;> simp
  · have h0 : ¬ i = 0 := by omega
    simp [h4, h0]

theorem decode_bCond {inst : Word} (h : isBCond inst = true) :
    decode inst = .bCond (inst.extractLsb' 0 4) (imm19 inst) ∧
      decode (invBCond inst) = .bCond (inst.extractLsb' 0 4 ^^^ 1) 12 := by
  have hp : Pattern.bCond.Matches inst := eq_of_beq h
  have hq : Pattern.bCond.Matches (invBCond inst) := by
    rw [invBCond, invertCond_eq, Pattern.Matches, or_and_of_extractLsb_eq_zero _ _ (by decide)]
    rfl
  refine ⟨decode_of_mem (by simp [patterns]) hp, ?_⟩
  rw [decode_of_mem (by simp [patterns]) hq]
  have hcond : (invBCond inst).extractLsb' 0 4 = inst.extractLsb' 0 4 ^^^ 1 := by
    have hz : (kOpBCond ||| (3 <<< 5)).extractLsb' 0 4 = 0 := by decide
    rw [invBCond, invertCond_eq, extractLsb_or_same _ _ (by omega), hz, BitVec.ofNat_eq_ofNat,
      BitVec.zero_or]
  have himm : imm19 (invBCond inst) = 12 := by
    rw [imm19, invBCond, invertCond_eq, extractLsb_or_of_apart _ _ (by omega)]
    rfl
  show Insn.bCond (BitVec.extractLsb' 0 4 _) (imm19 _) = _
  rw [hcond, himm]

/-- The two encodings of "always". -/
def isAlways (cond : BitVec 4) : Prop := cond = 14 ∨ cond = 15

instance (cond : BitVec 4) : Decidable (isAlways cond) := inferInstanceAs (Decidable (_ ∨ _))

theorem condHolds_of_isAlways {cond : BitVec 4} (h : isAlways cond) (nzcv : BitVec 4) :
    condHolds cond nzcv = true ∧ condHolds (cond ^^^ 1) nzcv = true := by
  rcases h with rfl | rfl
  · exact ⟨rfl, rfl⟩
  · exact ⟨rfl, rfl⟩

/-- Flipping the lowest bit inverts every other condition. -/
theorem condHolds_xor_one {cond : BitVec 4} (h : ¬ isAlways cond) (nzcv : BitVec 4) :
    condHolds (cond ^^^ 1) nzcv = !condHolds cond nzcv := by
  revert cond nzcv
  decide

/-! ### When the inverted branch is taken

Exactly one of the two branches is taken, in states that agree on the register they test. -/

section Inverted

variable {w : Word} {s t : Cpu}

theorem compare_inverted (h : isCBZ w = true ∨ isCBNZ w = true)
    (hreg : s.readX (regAt w 0) = t.readX (regAt w 0)) :
    branchTarget (decode w) s = none ∧ branchTarget (decode (invCompare w)) t = some (t.pc + 12) ∨
      branchTarget (decode w) s = some (s.pc + imm19 w) ∧
      branchTarget (decode (invCompare w)) t = none := by
  obtain ⟨nz, hd, hinv⟩ := decode_compare h
  rw [hd, hinv]
  simp only [branchTarget, hreg]
  generalize (if w.getLsbD 31 = true then t.readX (regAt w 0) else
    ((t.readX (regAt w 0)).setWidth 32).setWidth 64) = val
  by_cases hv : val = 0#64
  · cases nz <;> simp [hv]
  · cases nz <;> simp [hv]

theorem test_inverted (h : isTBZ w = true ∨ isTBNZ w = true)
    (hreg : s.readX (regAt w 0) = t.readX (regAt w 0)) :
    branchTarget (decode w) s = none ∧ branchTarget (decode (invTest w)) t = some (t.pc + 12) ∨
      branchTarget (decode w) s = some (s.pc + imm14 w) ∧
      branchTarget (decode (invTest w)) t = none := by
  obtain ⟨nz, hd, hinv⟩ := decode_test h
  rw [hd, hinv]
  simp only [branchTarget, hreg]
  cases (t.readX (regAt w 0)).getLsbD (testBit w) <;> cases nz <;> simp

end Inverted

/-! ## The fragment of each class -/

section Fragments

variable {w : Word} (pc : Addr)

theorem relocFragment_b (h : isB w = true) :
    relocFragment pc w = ⟨[kLdrX17, brX17], [(0, pc + imm26 w)]⟩ := by
  simp [relocFragment, h, decodeImm26_eq]

theorem relocFragment_bl (h : isBL w = true) :
    relocFragment pc w = ⟨[kLdrX17, movFromX17 kRegLR, kOpBLR ||| (kRegLR <<< 5)],
      [(0, pc + imm26 w)]⟩ := by
  have hp : Pattern.bl.Matches w := eq_of_beq h
  have hB : isB w = false := beq_and_eq_false hp (by decide)
  simp [relocFragment, h, hB, decodeImm26_eq]

/-- A word under a pattern that conflicts with the three immediate branches is none of them. -/
theorem not_immediate_branch {p : Pattern} (hp : p.Matches w) (hb : p.Conflict Pattern.b)
    (hbl : p.Conflict Pattern.bl) (hc : p.Conflict Pattern.bCond) :
    isB w = false ∧ isBL w = false ∧ isBCond w = false :=
  ⟨beq_and_eq_false hp hb, beq_and_eq_false hp hbl, beq_and_eq_false hp hc⟩

theorem relocFragment_bCond (h : isBCond w = true) :
    relocFragment pc w = ⟨[invBCond w, kLdrX17, brX17], [(1, pc + imm19 w)]⟩ := by
  have hp : Pattern.bCond.Matches w := eq_of_beq h
  have hB : isB w = false := beq_and_eq_false hp (by decide)
  have hBL : isBL w = false := beq_and_eq_false hp (by decide)
  simp only [relocFragment, h, hB, hBL, decodeImm19_eq, Bool.false_eq_true, if_true, if_false]
  rfl

theorem relocFragment_compare (h : isCBZ w = true ∨ isCBNZ w = true) :
    relocFragment pc w = ⟨[invCompare w, kLdrX17, brX17], [(1, pc + imm19 w)]⟩ := by
  have hC : (isCBZ w || isCBNZ w) = true := by simpa using h
  have hN : isB w = false ∧ isBL w = false ∧ isBCond w = false := by
    rcases h with h | h
    · exact not_immediate_branch (p := Pattern.cbz) (eq_of_beq h) (by decide) (by decide)
        (by decide)
    · exact not_immediate_branch (p := Pattern.cbnz) (eq_of_beq h) (by decide) (by decide)
        (by decide)
  simp only [relocFragment, hC, hN, decodeCompImm19_eq, Bool.false_eq_true, if_true, if_false]
  rfl

theorem relocFragment_test (h : isTBZ w = true ∨ isTBNZ w = true) :
    relocFragment pc w = ⟨[invTest w, kLdrX17, brX17], [(1, pc + imm14 w)]⟩ := by
  have hT : (isTBZ w || isTBNZ w) = true := by simpa using h
  have hN : (isB w = false ∧ isBL w = false ∧ isBCond w = false) ∧
      isCBZ w = false ∧ isCBNZ w = false := by
    rcases h with h | h
    · have hp : Pattern.tbz.Matches w := eq_of_beq h
      exact ⟨not_immediate_branch hp (by decide) (by decide) (by decide),
        beq_and_eq_false hp (by decide), beq_and_eq_false hp (by decide)⟩
    · have hp : Pattern.tbnz.Matches w := eq_of_beq h
      exact ⟨not_immediate_branch hp (by decide) (by decide) (by decide),
        beq_and_eq_false hp (by decide), beq_and_eq_false hp (by decide)⟩
  simp only [relocFragment, hT, hN, decodeImm14_eq, Bool.false_eq_true, Bool.or_self, if_true,
    if_false]
  rfl

/-- A word under a pattern that conflicts with every branch is in none of the branch classes. -/
theorem not_branch_class {p : Pattern} (hp : p.Matches w)
    (hb : p.Conflict Pattern.b ∧ p.Conflict Pattern.bl ∧ p.Conflict Pattern.bCond)
    (hc : p.Conflict Pattern.cbz ∧ p.Conflict Pattern.cbnz)
    (ht : p.Conflict Pattern.tbz ∧ p.Conflict Pattern.tbnz) :
    (isB w = false ∧ isBL w = false ∧ isBCond w = false) ∧
      (isCBZ w = false ∧ isCBNZ w = false) ∧ isTBZ w = false ∧ isTBNZ w = false :=
  ⟨not_immediate_branch hp hb.1 hb.2.1 hb.2.2,
    ⟨beq_and_eq_false hp hc.1, beq_and_eq_false hp hc.2⟩,
    beq_and_eq_false hp ht.1, beq_and_eq_false hp ht.2⟩

/-- A literal load: the size field alone decides what becomes of it. -/
theorem relocFragment_ldrLit (h : isLdrLiteral w = true) :
    relocFragment pc w =
      if w.extractLsb' 30 2 = 1 then
        ⟨[kLdrX17, 0xF9400200 ||| (kRegX17 <<< 5) ||| getRt w], [(0, pc + imm19 w)]⟩
      else if w.extractLsb' 30 2 = 0 then
        ⟨[kLdrX17, 0xB9400200 ||| (kRegX17 <<< 5) ||| getRt w], [(0, pc + imm19 w)]⟩
      else ⟨[w], []⟩ := by
  have hp : (⟨0x3B000000, 0x18000000, Insn.other⟩ : Pattern).Matches w := eq_of_beq h
  have hN := not_branch_class hp (by decide) (by decide) (by decide)
  have hopc : ∀ c : BitVec 2, bits w 31 30 = c.setWidth 32 ↔ w.extractLsb' 30 2 = c := by
    intro c
    rw [bits_eq w (by omega)]
    constructor
    · intro heq
      have hset := congrArg (BitVec.setWidth 2) heq
      rwa [BitVec.setWidth_setWidth (by omega), BitVec.setWidth_setWidth (by omega),
        BitVec.setWidth_eq, BitVec.setWidth_eq] at hset
    · rintro rfl
      rfl
  have h1 : bits w 31 30 = 1 ↔ w.extractLsb' 30 2 = 1 := hopc 1
  have h0 : bits w 31 30 = 0 ↔ w.extractLsb' 30 2 = 0 := hopc 0
  simp only [relocFragment, hN, h, h1, h0, decodeLdrLitImm19_eq, Bool.false_eq_true,
    Bool.or_self, if_true, if_false]

/-- The class test and the size field of a literal load, read from its top byte. -/
theorem top_byte {v : Word} (h : w &&& 0xFF000000 = v) :
    w &&& 0x3B000000 = v &&& 0x3B000000 ∧ w.extractLsb' 30 2 = v.extractLsb' 30 2 := by
  have hm : (0xFF000000 &&& 0x3B000000 : Word) = 0x3B000000 := by decide
  refine ⟨?_, ?_⟩
  · rw [← h, BitVec.and_assoc, hm]
  · rw [← h]
    refine BitVec.eq_of_getLsbD_eq fun i hi => ?_
    interval_cases i <;> simp

theorem relocFragment_ldrX (h : w &&& 0xFF000000 = 0x58000000) :
    relocFragment pc w = ⟨[kLdrX17, 0xF9400200 ||| (kRegX17 <<< 5) ||| getRt w],
      [(0, pc + imm19 w)]⟩ := by
  have hl : isLdrLiteral w = true := by
    rw [isLdrLiteral, (top_byte h).1]
    rfl
  rw [relocFragment_ldrLit pc hl, (top_byte h).2]
  rfl

theorem relocFragment_ldrW (h : w &&& 0xFF000000 = 0x18000000) :
    relocFragment pc w = ⟨[kLdrX17, 0xB9400200 ||| (kRegX17 <<< 5) ||| getRt w],
      [(0, pc + imm19 w)]⟩ := by
  have hl : isLdrLiteral w = true := by
    rw [isLdrLiteral, (top_byte h).1]
    rfl
  rw [relocFragment_ldrLit pc hl, (top_byte h).2]
  rfl

theorem relocFragment_adr (h : isADR w = true) :
    relocFragment pc w = ⟨[kLdrX17, movFromX17 (getRd w)], [(0, pc + imm21 w)]⟩ := by
  have hp : Pattern.adr.Matches w := eq_of_beq h
  have hN := not_branch_class hp (by decide) (by decide) (by decide)
  have hl : isLdrLiteral w = false := beq_and_eq_false hp (by decide)
  simp [relocFragment, hN, hl, h, decodeAdrImm_eq]

theorem relocFragment_adrp (h : isADRP w = true) :
    relocFragment pc w = ⟨[kLdrX17, movFromX17 (getRd w)],
      [(0, (pc &&& ~~~0xFFF#64) + imm21 w * 4096)]⟩ := by
  have hp : Pattern.adrp.Matches w := eq_of_beq h
  have hN := not_branch_class hp (by decide) (by decide) (by decide)
  have hl : isLdrLiteral w = false := beq_and_eq_false hp (by decide)
  have ha : isADR w = false := beq_and_eq_false hp (by decide)
  simp only [relocFragment, hN, hl, ha, h, decodeAdrpImm_eq, Bool.false_eq_true, Bool.or_self,
    if_true, if_false]

theorem relocFragment_other (h : isPcRelative w = false) : relocFragment pc w = ⟨[w], []⟩ := by
  simp only [isPcRelative, Bool.or_eq_false_iff] at h
  simp [relocFragment, h]

end Fragments

end Arm64
end CalvinHook
