import CalvinHook.HookSdk.CopyRun
import CalvinHook.HookSdk.ImmediateCodecs

/-!
# Running the jump patch

The words of `BuildJumpPatch` decode to the instructions they stand for, with the distances the
encoders were given, so the patch leads from `src` to `dest`.

* `decode_emitB`, `decode_emitAdrp`, `decode_emitAddImm`: the words of the three emitters, inside
  the ranges `BuildJumpPatch` tests.
* `execWords_branchPatch`, `execWords_pagePatch`, `execWords_literalPatch`: the run of each patch.
* `branchReaches_iff`, `pageReaches_iff`: the two range tests over the integers.
* `jumpPatch_lands`: the patch leads to `dest`, and is the smallest that can.
-/

namespace CalvinHook
namespace Arm64

open A64

/-! ## The words of the patch -/

section Words

variable {d : BitVec 64}

/-- The fields of a word may be put in in any order. -/
theorem or_field_last (c a b : Word) : c ||| a ||| b = c ||| b ||| a := by
  rw [BitVec.or_assoc, BitVec.or_comm a, BitVec.or_assoc]

theorem toInt_kMaxBRange : kMaxBRange.toInt = 2 ^ 27 := by decide

/-- The word of `EmitB`. -/
theorem decode_emitB (h : branchReaches d) : decode (kOpB ||| encodeImm26 d) = .b d := by
  obtain ⟨hlo, hhi, hmod⟩ := h
  rw [toInt_kMaxBRange] at hlo hhi
  have hdvd : (4 : BitVec 64).toInt ∣ d.toInt := Int.dvd_iff_tmod_eq_zero.mpr hmod
  have hfield : encodeImm26 d = ((d.sdiv 4).extractLsb' 0 26).setWidth 32 <<< 0 :=
    Codec.imm26.encode_eq_write d
  have hmatch : Pattern.b.Matches (kOpB ||| encodeImm26 d) := by
    rw [hfield, Pattern.Matches, or_and_of_extractLsb_eq_zero _ _ (by decide)]
    rfl
  have himm : imm26 (kOpB ||| encodeImm26 d) = d := by
    rw [← decodeImm26_eq]
    exact Codec.imm26.decode_or_encode (by decide) hdvd hlo hhi
  rw [decode_of_mem (by simp [patterns]) hmatch]
  show Insn.b (imm26 _) = _
  rw [himm]

/-- The word of `EmitAdrp`. -/
theorem decode_emitAdrp (h : pageReaches d) (hdvd : (4096 : ℤ) ∣ d.toInt) :
    decode (kOpADRP ||| encodeAdrpImm d ||| kRegX17) = .adrp 17 d := by
  obtain ⟨hlo, hhi⟩ := h
  have hword : kOpADRP ||| encodeAdrpImm d ||| kRegX17 =
      (kOpADRP ||| kRegX17) ||| encodeAdrpImm d :=
    or_field_last _ _ _
  have hparts : encodeAdrpImm d =
      ((((d.sdiv 4096).extractLsb' 0 21).extractLsb' 0 2).setWidth 32 <<< 29) |||
        ((((d.sdiv 4096).extractLsb' 0 21).extractLsb' 2 19).setWidth 32 <<< 5) :=
    Codec.adrpImm.encode_eq_write d
  have hmatch : Pattern.adrp.Matches ((kOpADRP ||| kRegX17) ||| encodeAdrpImm d) := by
    rw [hparts, ← BitVec.or_assoc, Pattern.Matches, or_and_of_extractLsb_eq_zero _ _ (by decide),
      or_and_of_extractLsb_eq_zero _ _ (by decide)]
    rfl
  have hreg : regAt ((kOpADRP ||| kRegX17) ||| encodeAdrpImm d) 0 = 17 := by
    rw [hparts, ← BitVec.or_assoc, regAt, extractLsb_or_of_apart _ _ (by omega),
      extractLsb_or_of_apart _ _ (by omega)]
    rfl
  have himm : imm21 ((kOpADRP ||| kRegX17) ||| encodeAdrpImm d) * 4096 = d := by
    have hrange : Codec.adrpImm.unit.toInt * 2 ^ (Codec.adrpImm.width - 1) = 2 ^ 32 := by decide
    rw [← decodeAdrpImm_eq]
    exact Codec.adrpImm.decode_or_encode (by decide) hdvd (by rw [hrange]; omega)
      (by rw [hrange]; omega)
  rw [hword, decode_of_mem (by simp [patterns]) hmatch]
  show Insn.adrp (regAt _ 0) (imm21 _ * 4096) = _
  rw [hreg, himm]

/-- The word of `EmitAddImm` with the low bits of an address. -/
theorem decode_emitAddImm (dest : Addr) :
    decode (0x91000000 ||| ((dest &&& 0xFFF).setWidth 32 <<< 10) ||| (kRegX17 <<< 5) ||| kRegX17) =
      .addImm 17 17 (dest &&& 0xFFF) := by
  have hand : dest &&& 0xFFF = (dest.extractLsb' 0 12).setWidth 64 :=
    and_two_pow_sub_one (k := 12) _
  have hword : (0x91000000 : Word) ||| ((dest &&& 0xFFF).setWidth 32 <<< 10) ||| (kRegX17 <<< 5) |||
      kRegX17 = ((0x91000000 : Word) ||| (kRegX17 <<< 5) ||| kRegX17) |||
        ((dest.extractLsb' 0 12).setWidth 32 <<< 10) := by
    rw [hand, BitVec.setWidth_setWidth (by omega), or_field_last _ _ (kRegX17 <<< 5),
      or_field_last _ _ kRegX17]
  show decode ((0x91000000 : Word) ||| ((dest &&& 0xFFF).setWidth 32 <<< 10) ||| (kRegX17 <<< 5) |||
      kRegX17) = _
  rw [hword, hand]
  generalize dest.extractLsb' 0 12 = f
  have hmatch : Pattern.addImm.Matches (((0x91000000 : Word) ||| (kRegX17 <<< 5) ||| kRegX17) |||
      (f.setWidth 32 <<< 10)) := by
    rw [Pattern.Matches, or_and_of_extractLsb_eq_zero _ _ (by decide)]
    rfl
  have hz : ((0x91000000 : Word) ||| (kRegX17 <<< 5) ||| kRegX17).extractLsb' 10 12 = 0#12 := by
    decide
  have hone : ∀ x : BitVec 64, x * 1 = x := fun x => BitVec.mul_one x
  rw [decode_of_mem (by simp [patterns]) hmatch]
  show Insn.addImm (BitVec.extractLsb' 0 5 _).toNat (BitVec.extractLsb' 5 5 _).toNat
    ((BitVec.extractLsb' 10 12 _).setWidth 64 * 1) = _
  rw [extractLsb_or_of_apart _ _ (by omega), extractLsb_or_of_apart _ _ (by omega),
    extractLsb_or_same _ _ (by omega), hz, BitVec.zero_or, hone]
  rfl

end Words

/-! ## Pages -/

section Pages

/-- The page of an address and the offset in it. -/
theorem page_add_offset (a : Addr) : (a &&& ~~~0xFFF#64) + (a &&& 0xFFF) = a := by
  have hpage : (a &&& ~~~0xFFF#64).toNat = a.toNat / 4096 * 4096 := toNat_and_not_mask a 12
  have hoff : (a &&& 0xFFF).toNat = a.toNat % 4096 := toNat_and_mask a (k := 12) (by omega)
  have hlt := a.isLt
  apply BitVec.eq_of_toNat_eq
  rw [BitVec.toNat_add, hpage, hoff]
  omega

/-- The distance between two addresses of the lower half, over the integers. -/
theorem toInt_sub_of_lt {a b : Addr} (ha : a.toNat < 2 ^ 63) (hb : b.toNat < 2 ^ 63) :
    (a - b).toInt = (a.toNat : ℤ) - b.toNat := by
  rw [BitVec.toInt_sub, BitVec.toInt_eq_toNat_of_lt (by omega),
    BitVec.toInt_eq_toNat_of_lt (by omega)]
  exact Int.bmod_eq_of_le (by omega) (by omega)

/-- The distance between two pages is a number of pages. -/
theorem dvd_pageDist (a b : Addr) :
    (4096 : ℤ) ∣ ((a &&& ~~~0xFFF#64) - (b &&& ~~~0xFFF#64)).toInt := by
  have ha : (a &&& ~~~0xFFF#64).toNat = a.toNat / 4096 * 4096 := toNat_and_not_mask a 12
  have hb : (b &&& ~~~0xFFF#64).toNat = b.toNat / 4096 * 4096 := toNat_and_not_mask b 12
  have hnat : ((a &&& ~~~0xFFF#64) - (b &&& ~~~0xFFF#64)).toNat % 4096 = 0 := by
    rw [BitVec.toNat_sub, ha, hb]
    omega
  rw [BitVec.toInt_eq_toNat_cond]
  split
  · omega
  · omega

end Pages

/-! ## The three patches -/

section Runs

variable (isa : Isa) {src dest : Addr} {s : Cpu}

theorem execWords_branchPatch (hpc : s.pc = src) (h : branchReaches (dest - src)) :
    execWords isa ([] ++ [kOpB ||| encodeImm26 (dest - src)]) s = s.setPc dest := by
  rw [List.nil_append, execWords_cons, execWords_nil, decode_emitB h]
  show s.setPc (s.pc + (dest - src)) = _
  rw [hpc, add_sub_cancel]

/-- The two words that compute an address relative to a page. -/
def pageWords (src dest : Addr) : List Word :=
  [kOpADRP ||| encodeAdrpImm ((dest &&& ~~~0xFFF#64) - (src &&& ~~~0xFFF#64)) ||| kRegX17,
    0x91000000 ||| ((dest &&& 0xFFF).setWidth 32 <<< 10) ||| (kRegX17 <<< 5) ||| kRegX17]

theorem straight_pageWords (h : pageReaches ((dest &&& ~~~0xFFF#64) - (src &&& ~~~0xFFF#64))) :
    Straight (pageWords src dest) := by
  rw [pageWords, straight_cons, straight_singleton, decode_emitAdrp h (dvd_pageDist _ _),
    decode_emitAddImm]
  exact ⟨rfl, rfl⟩

theorem execWords_pagePatch (hpc : s.pc = src)
    (h : pageReaches ((dest &&& ~~~0xFFF#64) - (src &&& ~~~0xFFF#64))) :
    execWords isa (pageWords src dest ++ [brX17]) s = (s.setX 17 dest).setPc dest := by
  have hpage : (src &&& ~~~0xFFF#64) + ((dest &&& ~~~0xFFF#64) - (src &&& ~~~0xFFF#64)) =
      dest &&& ~~~0xFFF#64 := add_sub_cancel _ _
  have hadrp : isa.exec (.adrp 17 ((dest &&& ~~~0xFFF#64) - (src &&& ~~~0xFFF#64))) s =
      (s.setX 17 (dest &&& ~~~0xFFF#64)).setPc (s.pc + 4) := by
    rw [exec_of_not_isBranch isa rfl, Isa.effect, hpc, hpage]
  have hadd : isa.exec (.addImm 17 17 (dest &&& 0xFFF))
      ((s.setX 17 (dest &&& ~~~0xFFF#64)).setPc (s.pc + 4)) =
      (s.setX 17 dest).setPc (s.pc + 4 + 4) := by
    rw [exec_of_not_isBranch isa rfl, Isa.effect, Cpu.readXSP_of_ne _ (by omega), Cpu.readX_setPc,
      Cpu.readX_setX_same _ _ _ (by omega), page_add_offset, Cpu.setXSP_of_ne _ _ (by omega),
      Cpu.setX_setPc, Cpu.setX_setX, Cpu.setPc_setPc, Cpu.pc_setPc]
  rw [pageWords, List.cons_append, List.cons_append, List.nil_append, execWords_cons,
    decode_emitAdrp h (dvd_pageDist _ _), hadrp, execWords_cons, decode_emitAddImm, hadd,
    execWords_cons, execWords_nil, decode_brX17]
  show ((s.setX 17 dest).setPc _).setPc (((s.setX 17 dest).setPc _).readX 17) = _
  rw [Cpu.readX_setPc, Cpu.readX_setX_same _ _ _ (by omega), Cpu.setPc_setPc]

theorem decode_patchLdr_eight : decode (Assembler.patchLdr 8 kLdrX17) = .ldrLit .x 17 8 :=
  decode_patchLdr (d := 2) (by omega)

theorem execWords_literalPatch (hpc : s.pc = src)
    (hmem : Holds s.mem src [Assembler.patchLdr 8 kLdrX17, brX17, dest.extractLsb' 0 32,
      dest.extractLsb' 32 32]) :
    execWords isa ([Assembler.patchLdr 8 kLdrX17] ++ [brX17]) s = (s.setX 17 dest).setPc dest := by
  have hload : (s.mem.read (s.pc + 8) 8 : BitVec 64) = dest := by
    rw [hpc]
    exact hmem.read_double (i := 2) (by simp) rfl rfl
  have hldr : isa.exec (.ldrLit .x 17 8) s = (s.setX 17 dest).setPc (s.pc + 4) := by
    rw [exec_of_not_isBranch isa rfl, Isa.effect, loadLit, hload]
  rw [List.cons_append, List.nil_append, execWords_cons, decode_patchLdr_eight, hldr,
    execWords_cons, execWords_nil, decode_brX17]
  show ((s.setX 17 dest).setPc _).setPc (((s.setX 17 dest).setPc _).readX 17) = _
  rw [Cpu.readX_setPc, Cpu.readX_setX_same _ _ _ (by omega), Cpu.setPc_setPc]

end Runs

/-! ## The ranges -/

section Ranges

variable (src dest : Addr)

/-- The distance over the integers. -/
def distance : ℤ := dest.toNat - src.toNat

/-- The distance between the pages over the integers. -/
def pageDistance : ℤ := (dest.toNat / 4096 * 4096 : ℕ) - (src.toNat / 4096 * 4096 : ℕ)

/-- A multiple of four within 128 MB. -/
def InBranchRange : Prop :=
  4 ∣ distance src dest ∧ -2 ^ 27 ≤ distance src dest ∧ distance src dest < 2 ^ 27

/-- Pages within 4 GB. -/
def InPageRange : Prop := -2 ^ 32 ≤ pageDistance src dest ∧ pageDistance src dest < 2 ^ 32

instance : Decidable (InBranchRange src dest) := inferInstanceAs (Decidable (_ ∧ _))
instance : Decidable (InPageRange src dest) := inferInstanceAs (Decidable (_ ∧ _))

variable {src dest} (hsrc : src.toNat < 2 ^ 63) (hdest : dest.toNat < 2 ^ 63)
include hsrc hdest

theorem branchReaches_iff : branchReaches (dest - src) ↔ InBranchRange src dest := by
  rw [branchReaches, InBranchRange, distance, toInt_kMaxBRange, toInt_sub_of_lt hdest hsrc,
    Int.dvd_iff_tmod_eq_zero]
  constructor
  · rintro ⟨hlo, hhi, hmod⟩
    exact ⟨hmod, hlo, hhi⟩
  · rintro ⟨hmod, hlo, hhi⟩
    exact ⟨hlo, hhi, hmod⟩

theorem pageReaches_iff :
    pageReaches ((dest &&& ~~~0xFFF#64) - (src &&& ~~~0xFFF#64)) ↔ InPageRange src dest := by
  have ha : (dest &&& ~~~0xFFF#64).toNat = dest.toNat / 4096 * 4096 := toNat_and_not_mask dest 12
  have hb : (src &&& ~~~0xFFF#64).toNat = src.toNat / 4096 * 4096 := toNat_and_not_mask src 12
  rw [pageReaches, toInt_sub_of_lt (by omega) (by omega), ha, hb]
  rfl

end Ranges

/-! ## The patch -/

/-- The words of the patch: its first `patchSize` bytes. -/
def patchWords (src dest : Addr) : List Word :=
  (buildJumpPatch src dest).code.take ((buildJumpPatch src dest).patchSize / 4)

/-- A prefix of the patch that ends with a branch, run from `src`. -/
theorem stepN_patch (isa : Isa) {src dest : Addr} {s : Cpu} {ws rest : List Word} {w : Word}
    (hpc : s.pc = src) (hwords : patchWords src dest = (ws ++ [w]) ++ rest)
    (hlen : 4 * (patchWords src dest).length ≤ 2 ^ 64) (hstraight : Straight ws) :
    (Program.block src (patchWords src dest)).stepN isa (ws.length + 1) s =
      some (execWords isa (ws ++ [w]) s) := by
  have hhas : (Program.block src (patchWords src dest)).Has src (patchWords src dest) :=
    Program.block_has src hlen
  refine stepN_words_last isa ?_ hstraight
  rw [hpc]
  generalize Program.block src (patchWords src dest) = P at hhas
  rw [hwords, Program.has_append] at hhas
  exact hhas.1

/-- **The jump patch lands on its target.**  Run from `src`, it leads to `dest` and changes nothing
but `X17`; it never exceeds the code it is cut from; and it is a branch if the distance allows it,
else page-relative if the distance of the pages allows that, else a literal. -/
theorem jumpPatch_lands (isa : Isa) (src dest : Addr) (hsrc : src.toNat < 2 ^ 63)
    (hdest : dest.toNat < 2 ^ 63) (s : Cpu) (hpc : s.pc = src)
    (hmem : Holds s.mem src (patchWords src dest)) :
    (∃ k t, (Program.block src (patchWords src dest)).stepN isa (k + 1) s = some t ∧ t.pc = dest ∧
      Agree isX17 (fun _ => False) s t) ∧
    (buildJumpPatch src dest).patchSize ≤ 4 * (buildJumpPatch src dest).code.length ∧
    (buildJumpPatch src dest).patchSize =
      if InBranchRange src dest then 4 else if InPageRange src dest then 12 else 16 := by
  have h17 : Agree isX17 (fun _ => False) s ((s.setX 17 dest).setPc dest) :=
    ((Agree.refl isX17 _ s).setX_right rfl dest).setPc s.pc dest
  refine ⟨?_, patchSize_le_code src dest, ?_⟩
  · rcases buildJumpPatch_cases src dest with ⟨hb, hpatch⟩ | ⟨-, hp, hpatch⟩ | ⟨-, -, hpatch⟩
    · have hwords : patchWords src dest = ([] ++ [kOpB ||| encodeImm26 (dest - src)]) ++ [] := by
        simp [patchWords, hpatch]
      refine ⟨0, s.setPc dest, ?_, rfl, (Agree.refl _ _ s).setPc s.pc dest⟩
      rw [← execWords_branchPatch isa hpc hb]
      exact stepN_patch isa hpc hwords (by rw [hwords]; simp) (by simp [Straight])
    · have hwords : patchWords src dest = (pageWords src dest ++ [brX17]) ++ [] := by
        simp [patchWords, hpatch, pageWords, brX17]
      refine ⟨2, (s.setX 17 dest).setPc dest, ?_, rfl, h17⟩
      rw [← execWords_pagePatch isa hpc hp]
      exact stepN_patch isa hpc hwords (by rw [hwords]; simp [pageWords]) (straight_pageWords hp)
    · have hwords : patchWords src dest = ([Assembler.patchLdr 8 kLdrX17] ++ [brX17]) ++
          [dest.extractLsb' 0 32, dest.extractLsb' 32 32] := by
        simp [patchWords, hpatch, brX17]
      refine ⟨1, (s.setX 17 dest).setPc dest, ?_, rfl, h17⟩
      rw [hwords] at hmem
      rw [← execWords_literalPatch isa hpc hmem]
      refine stepN_patch isa hpc hwords (by rw [hwords]; simp) ?_
      rw [straight_singleton, decode_patchLdr_eight]
      rfl
  · have hbr := branchReaches_iff hsrc hdest
    have hpg := pageReaches_iff hsrc hdest
    rcases buildJumpPatch_cases src dest with ⟨hb, hpatch⟩ | ⟨hb, hp, hpatch⟩ | ⟨hb, hp, hpatch⟩
    · rw [hpatch, if_pos (hbr.mp hb)]
    · rw [hpatch, if_neg (fun h => hb (hbr.mpr h)), if_pos (hpg.mp hp)]
    · rw [hpatch, if_neg (fun h => hb (hbr.mpr h)), if_neg (fun h => hp (hpg.mpr h))]

/-- A branch backwards over the page boundary. -/
theorem jumpPatch_lands_back :
    ∃ k t, (Program.block 0x10000000 (patchWords 0x10000000 0xFFFFFFC)).stepN Isa.bare (k + 1)
      (Cpu.zero 0x10000000 (codeMem 0x10000000 (patchWords 0x10000000 0xFFFFFFC))) = some t ∧
        t.pc = 0xFFFFFFC ∧ Agree isX17 (fun _ => False)
          (Cpu.zero 0x10000000 (codeMem 0x10000000 (patchWords 0x10000000 0xFFFFFFC))) t :=
  (jumpPatch_lands Isa.bare 0x10000000 0xFFFFFFC (by decide) (by decide) _ rfl
    (holds_writeBytes _ _ (by decide))).1

end Arm64
end CalvinHook
