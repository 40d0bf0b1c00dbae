import CalvinHook.A64.Memory
import CalvinHook.HookSdk.Assembler

/-!
# `trampoline.cpp`: the jump patch

`BuildJumpPatch` picks the smallest of three encodings by the distance between the two addresses.
`buildJumpPatch_patchSize` lists the three sizes, and `patchSize_le_code` says that the code of the
patch is never shorter than the patch.
-/

namespace CalvinHook
namespace Arm64

open A64

/-- `JumpPatch`. -/
structure JumpPatch where
  code : List Word
  patchSize : ℕ
  deriving DecidableEq, Repr

/-- `distance` can be reached by a `B`. -/
def branchReaches (distance : BitVec 64) : Prop :=
  -kMaxBRange.toInt ≤ distance.toInt ∧ distance.toInt < kMaxBRange.toInt ∧
    distance.toInt.tmod 4 = 0

/-- `pageDist` can be reached by an `ADRP`. -/
def pageReaches (pageDist : BitVec 64) : Prop :=
  -(2 ^ 32 : ℤ) ≤ pageDist.toInt ∧ pageDist.toInt < 2 ^ 32

instance (d : BitVec 64) : Decidable (branchReaches d) := inferInstanceAs (Decidable (_ ∧ _))
instance (d : BitVec 64) : Decidable (pageReaches d) := inferInstanceAs (Decidable (_ ∧ _))

/-- `BuildJumpPatch`. -/
def buildJumpPatch (src dest : Addr) : JumpPatch :=
  let distance := dest - src
  if branchReaches distance then
    ⟨(({} : Assembler).emitB distance).finalize.buf, 4⟩
  else
    let pageDist := (dest &&& ~~~0xFFF#64) - (src &&& ~~~0xFFF#64)
    if pageReaches pageDist then
      let pageOff := (dest &&& 0xFFF).setWidth 32
      ⟨(((({} : Assembler).emitAdrp kRegX17 pageDist).emitAddImm kRegX17 kRegX17 pageOff).emitBR
        kRegX17).finalize.buf, 12⟩
    else
      ⟨(({} : Assembler).emitLdrX17Branch dest).finalize.buf, 16⟩

/-- **The three encodings**, word by word, with the condition under which each is chosen. -/
theorem buildJumpPatch_cases (src dest : Addr) :
    (branchReaches (dest - src) ∧
      buildJumpPatch src dest = ⟨[kOpB ||| encodeImm26 (dest - src), kOpNOP], 4⟩) ∨
    (¬ branchReaches (dest - src) ∧
      pageReaches ((dest &&& ~~~0xFFF#64) - (src &&& ~~~0xFFF#64)) ∧
      buildJumpPatch src dest =
        ⟨[kOpADRP ||| encodeAdrpImm ((dest &&& ~~~0xFFF#64) - (src &&& ~~~0xFFF#64)) ||| kRegX17,
          0x91000000 ||| ((dest &&& 0xFFF).setWidth 32 <<< 10) ||| (kRegX17 <<< 5) ||| kRegX17,
          kOpBR ||| (kRegX17 <<< 5), kOpNOP], 12⟩) ∨
    (¬ branchReaches (dest - src) ∧
      ¬ pageReaches ((dest &&& ~~~0xFFF#64) - (src &&& ~~~0xFFF#64)) ∧
      buildJumpPatch src dest =
        ⟨[Assembler.patchLdr 8 kLdrX17, kOpBR ||| (kRegX17 <<< 5), dest.extractLsb' 0 32,
          dest.extractLsb' 32 32], 16⟩) := by
  by_cases hb : branchReaches (dest - src)
  · refine Or.inl ⟨hb, ?_⟩
    simp [buildJumpPatch, if_pos hb, Assembler.emitB, Assembler.emitU32, Assembler.finalize,
      Assembler.currentOffset]
  · by_cases hp : pageReaches ((dest &&& ~~~0xFFF#64) - (src &&& ~~~0xFFF#64))
    · refine Or.inr (Or.inl ⟨hb, hp, ?_⟩)
      simp only [buildJumpPatch, if_neg hb, if_pos hp]
      simp [Assembler.emitAdrp, Assembler.emitAddImm,
        Assembler.emitBR, Assembler.emitU32, Assembler.finalize, Assembler.currentOffset]
    · refine Or.inr (Or.inr ⟨hb, hp, ?_⟩)
      simp only [buildJumpPatch, if_neg hb, if_neg hp]
      simp [Assembler.emitLdrX17Branch_eq_add, Assembler.add,
        Assembler.finalize, Assembler.currentOffset, Assembler.finalizeLabel, Assembler.emitU64]

/-- The three sizes. -/
theorem buildJumpPatch_patchSize (src dest : Addr) :
    (buildJumpPatch src dest).patchSize = 4 ∨ (buildJumpPatch src dest).patchSize = 12 ∨
      (buildJumpPatch src dest).patchSize = 16 := by
  rcases buildJumpPatch_cases src dest with ⟨-, h⟩ | ⟨-, -, h⟩ | ⟨-, -, h⟩
  · exact Or.inl (by rw [h])
  · exact Or.inr (Or.inl (by rw [h]))
  · exact Or.inr (Or.inr (by rw [h]))

theorem patchSize_bounds (src dest : Addr) :
    4 ≤ (buildJumpPatch src dest).patchSize ∧ (buildJumpPatch src dest).patchSize ≤ 16 := by
  rcases buildJumpPatch_patchSize src dest with h | h | h <;> omega

/-- The patch is a prefix of its code. -/
theorem patchSize_le_code (src dest : Addr) :
    (buildJumpPatch src dest).patchSize ≤ 4 * (buildJumpPatch src dest).code.length := by
  rcases buildJumpPatch_cases src dest with ⟨-, h⟩ | ⟨-, -, h⟩ | ⟨-, -, h⟩
  · rw [h]
    simp
  · rw [h]
    simp
  · rw [h]
    simp

/-- The bytes of the patch. -/
def patchBytes (src dest : Addr) : List Byte :=
  (wordBytes (buildJumpPatch src dest).code).take (buildJumpPatch src dest).patchSize

theorem length_patchBytes (src dest : Addr) :
    (patchBytes src dest).length = (buildJumpPatch src dest).patchSize := by
  rw [patchBytes, List.length_take, length_wordBytes, min_eq_left (patchSize_le_code src dest)]

/-- A patch is one, three or four whole words. -/
theorem patchSize_eq_four_mul (src dest : Addr) :
    (buildJumpPatch src dest).patchSize = 4 * ((buildJumpPatch src dest).patchSize / 4) := by
  rcases buildJumpPatch_patchSize src dest with h | h | h <;> rw [h]

end Arm64
end CalvinHook
