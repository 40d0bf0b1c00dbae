import CalvinHook.A64.Memory
import Mathlib.Data.List.Pairwise

/-!
# Decoding A64 instruction words

`decode` reads a word as one of the instructions this development executes; every other word is
kept as `Insn.other`.  The decoder is a table of patterns, each a mask, the value of the word under
the mask and the way the fields are read.  No two patterns match one word (`pairwise_patterns`), so
a word is decoded by *the* pattern that matches it (`decode_of_mem`) and the order of the table does
not matter.
-/

namespace CalvinHook
namespace A64

/-- What a literal load loads: the width, the register file and the extension. -/
inductive LitKind where
  | w | x | sw | prfm | s | d | q
  deriving DecidableEq, Repr

/-- The instructions with a semantics of their own.  Offsets are in bytes, already scaled and
extended; registers are numbers, with 31 read as the instruction reads it. -/
inductive Insn where
  /-- `B`: branch. -/
  | b (off : BitVec 64)
  /-- `BL`: branch with link. -/
  | bl (off : BitVec 64)
  /-- `B.cond`: branch on the condition flags. -/
  | bCond (cond : BitVec 4) (off : BitVec 64)
  /-- `CBZ` and `CBNZ`, on the 32-bit or the 64-bit register. -/
  | cb (nonzero wide : Bool) (rt : ℕ) (off : BitVec 64)
  /-- `TBZ` and `TBNZ`. -/
  | tb (nonzero : Bool) (bit rt : ℕ) (off : BitVec 64)
  /-- `BR`: branch to register. -/
  | br (rn : ℕ)
  /-- `BLR`: branch with link to register. -/
  | blr (rn : ℕ)
  /-- `RET`: return to the address in a register. -/
  | ret (rn : ℕ)
  /-- `ADR`. -/
  | adr (rd : ℕ) (off : BitVec 64)
  /-- `ADRP`. -/
  | adrp (rd : ℕ) (off : BitVec 64)
  /-- Loads of a literal. -/
  | ldrLit (kind : LitKind) (rt : ℕ) (off : BitVec 64)
  /-- `NOP`. -/
  | nop
  /-- `MOVZ Xd, #imm, LSL #shift`. -/
  | movz (rd : ℕ) (imm : BitVec 16) (shift : ℕ)
  /-- `MOVK Xd, #imm, LSL #shift`. -/
  | movk (rd : ℕ) (imm : BitVec 16) (shift : ℕ)
  /-- `ADD Xd, Xn, #imm`, both registers possibly the stack pointer. -/
  | addImm (rd rn : ℕ) (imm : BitVec 64)
  /-- `SUB Xd, Xn, #imm`, both registers possibly the stack pointer. -/
  | subImm (rd rn : ℕ) (imm : BitVec 64)
  /-- `ORR Xd, Xn, Xm`. -/
  | orr (rd rn rm : ℕ)
  /-- `LDR Xt, [Xn, #off]`. -/
  | ldrX (rt rn : ℕ) (off : BitVec 64)
  /-- `LDR Wt, [Xn, #off]`. -/
  | ldrW (rt rn : ℕ) (off : BitVec 64)
  /-- `STR Xt, [Xn, #off]`. -/
  | strX (rt rn : ℕ) (off : BitVec 64)
  /-- `LDR Bt/Dt/Qt, [Xn, #off]`, loading `bytes` bytes and clearing the rest of the register. -/
  | ldrV (bytes rt rn : ℕ) (off : BitVec 64)
  /-- `STR Dt/Qt, [Xn, #off]`, storing `bytes` bytes. -/
  | strV (bytes rt rn : ℕ) (off : BitVec 64)
  /-- `STP Xt, Xt2, [Xn, #off]!`. -/
  | stpPre (rt rt2 rn : ℕ) (off : BitVec 64)
  /-- `LDP Xt, Xt2, [Xn], #off`. -/
  | ldpPost (rt rt2 rn : ℕ) (off : BitVec 64)
  /-- Any other word. -/
  | other (w : Word)
  deriving DecidableEq, Repr

/-! ## Fields -/

/-- The register number whose lowest bit is bit `lo`. -/
def regAt (w : Word) (lo : ℕ) : ℕ := (w.extractLsb' lo 5).toNat

/-- The 26-bit branch offset. -/
def imm26 (w : Word) : BitVec 64 := (w.extractLsb' 0 26).signExtend 64 * 4

/-- The 19-bit branch or literal offset. -/
def imm19 (w : Word) : BitVec 64 := (w.extractLsb' 5 19).signExtend 64 * 4

/-- The 14-bit branch offset. -/
def imm14 (w : Word) : BitVec 64 := (w.extractLsb' 5 14).signExtend 64 * 4

/-- The 21-bit offset of `ADR` and `ADRP`, before scaling. -/
def imm21 (w : Word) : BitVec 64 := (w.extractLsb' 5 19 ++ w.extractLsb' 29 2).signExtend 64

/-- The unsigned 12-bit immediate, scaled. -/
def imm12 (w : Word) (scale : BitVec 64) : BitVec 64 := (w.extractLsb' 10 12).setWidth 64 * scale

/-- The 7-bit offset of a pair access of 64-bit registers. -/
def imm7 (w : Word) : BitVec 64 := (w.extractLsb' 15 7).signExtend 64 * 8

/-- The 16-bit immediate of a wide move. -/
def imm16 (w : Word) : BitVec 16 := w.extractLsb' 5 16

/-- The shift of a wide move. -/
def hwShift (w : Word) : ℕ := 16 * (w.extractLsb' 21 2).toNat

/-- The bit number of a test-bit branch. -/
def testBit (w : Word) : ℕ := (w.extractLsb' 31 1 ++ w.extractLsb' 19 5).toNat

/-! ## The table -/

/-- A pattern: the word under `mask` is `value`, and `build` reads the fields. -/
structure Pattern where
  mask : Word
  value : Word
  build : Word → Insn

/-- The pattern matches the word. -/
def Pattern.Matches (p : Pattern) (w : Word) : Prop := w &&& p.mask = p.value

instance (p : Pattern) (w : Word) : Decidable (p.Matches w) := inferInstanceAs (Decidable (_ = _))

namespace Pattern

def b : Pattern := ⟨0xFC000000, 0x14000000, fun w => .b (imm26 w)⟩
def bl : Pattern := ⟨0xFC000000, 0x94000000, fun w => .bl (imm26 w)⟩
def bCond : Pattern := ⟨0xFF000010, 0x54000000, fun w => .bCond (w.extractLsb' 0 4) (imm19 w)⟩
def cbz : Pattern :=
  ⟨0x7F000000, 0x34000000, fun w => .cb false (w.getLsbD 31) (regAt w 0) (imm19 w)⟩
def cbnz : Pattern :=
  ⟨0x7F000000, 0x35000000, fun w => .cb true (w.getLsbD 31) (regAt w 0) (imm19 w)⟩
def tbz : Pattern := ⟨0x7F000000, 0x36000000, fun w => .tb false (testBit w) (regAt w 0) (imm14 w)⟩
def tbnz : Pattern := ⟨0x7F000000, 0x37000000, fun w => .tb true (testBit w) (regAt w 0) (imm14 w)⟩
def br : Pattern := ⟨0xFFFFFC1F, 0xD61F0000, fun w => .br (regAt w 5)⟩
def blr : Pattern := ⟨0xFFFFFC1F, 0xD63F0000, fun w => .blr (regAt w 5)⟩
def ret : Pattern := ⟨0xFFFFFC1F, 0xD65F0000, fun w => .ret (regAt w 5)⟩
def adr : Pattern := ⟨0x9F000000, 0x10000000, fun w => .adr (regAt w 0) (imm21 w)⟩
def adrp : Pattern := ⟨0x9F000000, 0x90000000, fun w => .adrp (regAt w 0) (imm21 w * 4096)⟩

/-- A literal load, by its top byte. -/
def ldrLit (top : Word) (kind : LitKind) : Pattern :=
  ⟨0xFF000000, top, fun w => .ldrLit kind (regAt w 0) (imm19 w)⟩

def nop : Pattern := ⟨0xFFFFFFFF, 0xD503201F, fun _ => .nop⟩
def movz : Pattern := ⟨0xFF800000, 0xD2800000, fun w => .movz (regAt w 0) (imm16 w) (hwShift w)⟩
def movk : Pattern := ⟨0xFF800000, 0xF2800000, fun w => .movk (regAt w 0) (imm16 w) (hwShift w)⟩
def addImm : Pattern :=
  ⟨0xFFC00000, 0x91000000, fun w => .addImm (regAt w 0) (regAt w 5) (imm12 w 1)⟩
def subImm : Pattern :=
  ⟨0xFFC00000, 0xD1000000, fun w => .subImm (regAt w 0) (regAt w 5) (imm12 w 1)⟩
def orr : Pattern := ⟨0xFFE0FC00, 0xAA000000, fun w => .orr (regAt w 0) (regAt w 5) (regAt w 16)⟩
def ldrX : Pattern := ⟨0xFFC00000, 0xF9400000, fun w => .ldrX (regAt w 0) (regAt w 5) (imm12 w 8)⟩
def ldrW : Pattern := ⟨0xFFC00000, 0xB9400000, fun w => .ldrW (regAt w 0) (regAt w 5) (imm12 w 4)⟩
def strX : Pattern := ⟨0xFFC00000, 0xF9000000, fun w => .strX (regAt w 0) (regAt w 5) (imm12 w 8)⟩
def ldrB : Pattern := ⟨0xFFC00000, 0x3D400000, fun w => .ldrV 1 (regAt w 0) (regAt w 5) (imm12 w 1)⟩
def ldrD : Pattern := ⟨0xFFC00000, 0xFD400000, fun w => .ldrV 8 (regAt w 0) (regAt w 5) (imm12 w 8)⟩
def ldrQ : Pattern :=
  ⟨0xFFC00000, 0x3DC00000, fun w => .ldrV 16 (regAt w 0) (regAt w 5) (imm12 w 16)⟩
def strD : Pattern := ⟨0xFFC00000, 0xFD000000, fun w => .strV 8 (regAt w 0) (regAt w 5) (imm12 w 8)⟩
def strQ : Pattern :=
  ⟨0xFFC00000, 0x3D800000, fun w => .strV 16 (regAt w 0) (regAt w 5) (imm12 w 16)⟩

def stpPre : Pattern :=
  ⟨0xFFC00000, 0xA9800000, fun w => .stpPre (regAt w 0) (regAt w 10) (regAt w 5) (imm7 w)⟩

def ldpPost : Pattern :=
  ⟨0xFFC00000, 0xA8C00000, fun w => .ldpPost (regAt w 0) (regAt w 10) (regAt w 5) (imm7 w)⟩

end Pattern

open Pattern in
/-- The decoding table. -/
def patterns : List Pattern :=
  [b, bl, bCond, cbz, cbnz, tbz, tbnz, br, blr, ret, adr, adrp,
    ldrLit 0x18000000 .w, ldrLit 0x58000000 .x, ldrLit 0x98000000 .sw, ldrLit 0xD8000000 .prfm,
    ldrLit 0x1C000000 .s, ldrLit 0x5C000000 .d, ldrLit 0x9C000000 .q,
    nop, movz, movk, addImm, subImm, orr, ldrX, ldrW, strX, ldrB, ldrD, ldrQ, strD, strQ,
    stpPre, ldpPost]

/-- The instruction a word encodes. -/
def decode (w : Word) : Insn :=
  match patterns.find? fun p => p.Matches w with
  | some p => p.build w
  | none => .other w

/-! ## The pattern that matches decodes the word -/

/-- Two patterns disagree on a bit they both fix. -/
def Pattern.Conflict (p q : Pattern) : Prop := p.value &&& q.mask ≠ q.value &&& p.mask

instance (p q : Pattern) : Decidable (p.Conflict q) := inferInstanceAs (Decidable (¬ _))

instance : Std.Symm Pattern.Conflict := ⟨fun _ _ h heq => h heq.symm⟩

/-- Patterns in conflict do not match one word. -/
theorem Pattern.Conflict.not_matches {p q : Pattern} (h : p.Conflict q) {w : Word}
    (hp : p.Matches w) : ¬ q.Matches w := by
  intro hq
  refine h ?_
  rw [← hp, ← hq, BitVec.and_assoc, BitVec.and_assoc, BitVec.and_comm q.mask]

theorem pairwise_patterns : patterns.Pairwise Pattern.Conflict := by decide

/-- **The decoder.**  A word is decoded by the pattern that matches it. -/
theorem decode_of_mem {p : Pattern} (hp : p ∈ patterns) {w : Word} (h : p.Matches w) :
    decode w = p.build w := by
  have hfind : (patterns.find? fun p => p.Matches w).isSome := by
    rw [List.find?_isSome]
    exact ⟨p, hp, by simpa using h⟩
  obtain ⟨q, hq⟩ := Option.isSome_iff_exists.mp hfind
  have hqm : q.Matches w := by simpa using List.find?_some hq
  have hpq : p = q := by
    by_contra hne
    have hc := pairwise_patterns.forall hp (List.mem_of_find?_eq_some hq) hne
    exact hc.not_matches h hqm
  rw [decode, hq, hpq]

/-- A word that matches no pattern is kept. -/
theorem decode_cases (w : Word) :
    (∃ p ∈ patterns, p.Matches w ∧ decode w = p.build w) ∨
      (∀ p ∈ patterns, ¬ p.Matches w) ∧ decode w = .other w := by
  by_cases h : ∃ p ∈ patterns, p.Matches w
  · obtain ⟨p, hp, hm⟩ := h
    exact .inl ⟨p, hp, hm, decode_of_mem hp hm⟩
  · have hnone : ∀ p ∈ patterns, ¬ p.Matches w := fun p hp hm => h ⟨p, hp, hm⟩
    refine .inr ⟨hnone, ?_⟩
    have hfind : (patterns.find? fun p => p.Matches w) = none := by
      rw [List.find?_eq_none]
      intro p hp
      simpa using hnone p hp
    rw [decode, hfind]

/-! ## Fields of words put together from parts -/

section Fields

variable {k : ℕ} (c : Word) (x : BitVec k)

theorem getLsbD_or_shiftLeft (lo i : ℕ) :
    (c ||| (x.setWidth 32 <<< lo)).getLsbD i =
      (c.getLsbD i || (decide (i < 32) && !decide (i < lo) && x.getLsbD (i - lo))) := by
  rw [BitVec.getLsbD_or, BitVec.getLsbD_shiftLeft, BitVec.getLsbD_setWidth]
  by_cases hi : i < 32
  · have h : i - lo < 32 := by omega
    simp [hi, h]
  · simp [hi]

/-- A field that does not meet the part just added. -/
theorem extractLsb_or_of_apart {lo lo' k' : ℕ} (h : lo' + k' ≤ lo ∨ lo + k ≤ lo') :
    (c ||| (x.setWidth 32 <<< lo)).extractLsb' lo' k' = c.extractLsb' lo' k' := by
  refine BitVec.eq_of_getLsbD_eq fun i hi => ?_
  rw [BitVec.getLsbD_extractLsb', BitVec.getLsbD_extractLsb', getLsbD_or_shiftLeft]
  rcases h with h | h
  · have h1 : lo' + i < lo := by omega
    simp [h1]
  · have h1 : k ≤ lo' + i - lo := by omega
    simp [BitVec.getLsbD_of_ge x _ h1]

/-- The field just added. -/
theorem extractLsb_or_same {lo : ℕ} (h : lo + k ≤ 32) :
    (c ||| (x.setWidth 32 <<< lo)).extractLsb' lo k = c.extractLsb' lo k ||| x := by
  refine BitVec.eq_of_getLsbD_eq fun i hi => ?_
  rw [BitVec.getLsbD_extractLsb', getLsbD_or_shiftLeft, BitVec.getLsbD_or,
    BitVec.getLsbD_extractLsb']
  have h1 : lo + i < 32 := by omega
  have h2 : ¬ lo + i < lo := by omega
  simp [hi, h1, h2]

/-- A field inside a part of the word that is zero. -/
theorem extractLsb_eq_zero {c : Word} {n lo len : ℕ} (hc : c.extractLsb' 0 n = 0)
    (hk : lo + len ≤ n) :
    c.extractLsb' lo len = 0 := by
  refine BitVec.eq_of_getLsbD_eq fun i hi => ?_
  have hbit := congrArg (fun b => b.getLsbD (lo + i)) hc
  have h1 : lo + i < n := by omega
  simp only [BitVec.getLsbD_extractLsb', h1, decide_true, Bool.true_and] at hbit
  simpa [hi] using hbit

/-- A part outside a mask does not show under the mask. -/
theorem or_and_of_extractLsb_eq_zero {lo : ℕ} {m : Word} (hm : m.extractLsb' lo k = 0) :
    (c ||| (x.setWidth 32 <<< lo)) &&& m = c &&& m := by
  refine BitVec.eq_of_getLsbD_eq fun i hi => ?_
  rw [BitVec.getLsbD_and, BitVec.getLsbD_and, getLsbD_or_shiftLeft]
  by_cases hlo : i < lo
  · simp [hlo]
  · by_cases hk : i - lo < k
    · have hbit := congrArg (fun v => v.getLsbD (i - lo)) hm
      have hidx : lo + (i - lo) = i := by omega
      simp only [BitVec.getLsbD_extractLsb', hk, decide_true, Bool.true_and, hidx]
        at hbit
      simp [hbit]
    · simp [BitVec.getLsbD_of_ge x _ (Nat.not_lt.mp hk)]

end Fields

end A64
end CalvinHook
