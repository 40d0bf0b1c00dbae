import CalvinHook.HookSdk.Assembler
import CalvinHook.A64.Memory

/-!
# `relocator.cpp`: rewriting the instructions a hook overwrites

`relocateOne` is the body of the loop of `RelocateInstructions`: it classifies one instruction and
emits what replaces it at another address.  `relocateOne_eq_add` reads it as one fragment for each
class (`relocFragment`), so that the buffer of a whole block is the finished buffer of the fragments
of its words followed by the branch back (`buffer_relocateInstructions`).  The size of the buffer is
bounded in `length_blockFragment_final_le`.
-/

namespace CalvinHook
namespace Arm64

open A64

/-! ## The source -/

/-- The loop body of `RelocateInstructions`: emit the replacement of the instruction `inst` at
`pc`. -/
def relocateOne (pc : Addr) (inst : Word) (a : Assembler) : Assembler :=
  if isB inst then
    a.emitLdrX17Branch (pc + decodeImm26 inst)
  else if isBL inst then
    a.emitLdrLRBranch (pc + decodeImm26 inst)
  else if isBCond inst then
    -- the inverted condition skips the three words of the long branch
    let invCond := invertCond (condFromBCond inst)
    (a.emitU32 (kOpBCond ||| (3 <<< 5) ||| invCond)).emitLdrX17Branch (pc + decodeImm19 inst)
  else if isCBZ inst || isCBNZ inst then
    let inverted := inst ^^^ (1 <<< 24)
    (a.emitU32 ((inverted &&& ~~~0x00FFFFE0#32) ||| (3 <<< 5))).emitLdrX17Branch
      (pc + decodeCompImm19 inst)
  else if isTBZ inst || isTBNZ inst then
    let inverted := inst ^^^ (1 <<< 24)
    (a.emitU32 ((inverted &&& ~~~0x0007FFE0#32) ||| (3 <<< 5))).emitLdrX17Branch
      (pc + decodeImm14 inst)
  else if isLdrLiteral inst then
    let target := pc + decodeLdrLitImm19 inst
    let rt := getRt inst
    let opc := bits inst 31 30
    if opc = 1 then
      let (a, ldrOff) := a.emitLdrX17Placeholder
      (a.placeDataLabel target ldrOff).emitLdrReg rt kRegX17
    else if opc = 0 then
      let (a, ldrOff) := a.emitLdrX17Placeholder
      (a.placeDataLabel target ldrOff).emitU32 (0xB9400200 ||| (kRegX17 <<< 5) ||| rt)
    else
      a.emitU32 inst
  else if isADR inst then
    let (a, ldrOff) := a.emitLdrX17Placeholder
    (a.placeDataLabel (pc + decodeAdrImm inst) ldrOff).emitU32
      (0xAA0003E0 ||| (kRegX17 <<< 16) ||| getRd inst)
  else if isADRP inst then
    let (a, ldrOff) := a.emitLdrX17Placeholder
    (a.placeDataLabel ((pc &&& ~~~0xFFF#64) + decodeAdrpImm inst) ldrOff).emitU32
      (0xAA0003E0 ||| (kRegX17 <<< 16) ||| getRd inst)
  else
    a.emitU32 inst

/-- The loop of `RelocateInstructions` over the instructions still to be read, the first one at
`pc`. -/
def relocateLoop (pc : Addr) : List Word → Assembler → Assembler
  | [], a => a
  | inst :: insts, a => relocateLoop (pc + 4) insts (relocateOne pc inst a)

/-- `RelocateResult`. -/
structure RelocateResult where
  buffer : List Word := []
  bytesConsumed : ℕ := 0
  valid : Bool := false
  deriving DecidableEq, Repr

/-- The first `n` instruction words at `a`. -/
def wordsAt (m : Mem) (a : Addr) (n : ℕ) : List Word :=
  (List.range n).map fun i => m.read (a + BitVec.ofNat 64 (4 * i)) 4

/-- `RelocateInstructions`, reading the instructions at `srcAddr` from memory.  Its third parameter,
the address of the copy, is never read. -/
def relocateInstructions (m : Mem) (srcAddr : Addr) (minBytes : ℕ) : RelocateResult :=
  if minBytes = 0 ∨ minBytes % 4 ≠ 0 then {}
  else
    let targetCount := minBytes / 4
    let a := relocateLoop srcAddr (wordsAt m srcAddr targetCount) {}
    let offset := 4 * targetCount
    let a := a.emitLdrX17Branch (srcAddr + BitVec.ofNat 64 offset)
    { buffer := a.finalize.buf, bytesConsumed := offset, valid := true }

/-- `BuildRelocatedCode`. -/
def buildRelocatedCode (m : Mem) (originalAddr : Addr) (bytesToOverwrite : ℕ) : List Word :=
  let result := relocateInstructions m originalAddr bytesToOverwrite
  if result.valid then result.buffer else []

@[simp] theorem length_wordsAt (m : Mem) (a : Addr) (n : ℕ) : (wordsAt m a n).length = n := by
  simp [wordsAt]

/-! ## One fragment for each class -/

/-- `MOV Xd, X17`. -/
def movFromX17 (rd : Word) : Word := 0xAA0003E0 ||| (kRegX17 <<< 16) ||| rd

/-- `BR X17`. -/
def brX17 : Word := kOpBR ||| (kRegX17 <<< 5)

/-- The fragment that replaces the instruction `inst` at `pc`. -/
def relocFragment (pc : Addr) (inst : Word) : Fragment :=
  if isB inst then ⟨[kLdrX17, brX17], [(0, pc + decodeImm26 inst)]⟩
  else if isBL inst then
    ⟨[kLdrX17, movFromX17 kRegLR, kOpBLR ||| (kRegLR <<< 5)], [(0, pc + decodeImm26 inst)]⟩
  else if isBCond inst then
    ⟨[kOpBCond ||| (3 <<< 5) ||| invertCond (condFromBCond inst), kLdrX17, brX17],
      [(1, pc + decodeImm19 inst)]⟩
  else if isCBZ inst || isCBNZ inst then
    ⟨[((inst ^^^ (1 <<< 24)) &&& ~~~0x00FFFFE0#32) ||| (3 <<< 5), kLdrX17, brX17],
      [(1, pc + decodeCompImm19 inst)]⟩
  else if isTBZ inst || isTBNZ inst then
    ⟨[((inst ^^^ (1 <<< 24)) &&& ~~~0x0007FFE0#32) ||| (3 <<< 5), kLdrX17, brX17],
      [(1, pc + decodeImm14 inst)]⟩
  else if isLdrLiteral inst then
    if bits inst 31 30 = 1 then
      ⟨[kLdrX17, 0xF9400200 ||| (kRegX17 <<< 5) ||| getRt inst], [(0, pc + decodeLdrLitImm19 inst)]⟩
    else if bits inst 31 30 = 0 then
      ⟨[kLdrX17, 0xB9400200 ||| (kRegX17 <<< 5) ||| getRt inst], [(0, pc + decodeLdrLitImm19 inst)]⟩
    else ⟨[inst], []⟩
  else if isADR inst then ⟨[kLdrX17, movFromX17 (getRd inst)], [(0, pc + decodeAdrImm inst)]⟩
  else if isADRP inst then
    ⟨[kLdrX17, movFromX17 (getRd inst)], [(0, (pc &&& ~~~0xFFF#64) + decodeAdrpImm inst)]⟩
  else ⟨[inst], []⟩

/-- A placeholder, its label, and one word that uses the loaded value. -/
theorem emitU32_placeDataLabel (a : Assembler) (value : BitVec 64) (w : Word) :
    (a.emitLdrX17Placeholder.1.placeDataLabel value a.emitLdrX17Placeholder.2).emitU32 w =
      a.add ⟨[kLdrX17, w], [(0, value)]⟩ := by
  simp [Assembler.emitLdrX17Placeholder, Assembler.placeDataLabel, Assembler.emitU32,
    Assembler.add, Assembler.currentOffset]

/-- One word, then a long branch. -/
theorem emitU32_emitLdrX17Branch (a : Assembler) (w : Word) (t : Addr) :
    (a.emitU32 w).emitLdrX17Branch t = a.add ⟨[w, kLdrX17, brX17], [(1, t)]⟩ := by
  rw [Assembler.emitU32_eq_add, Assembler.emitLdrX17Branch_eq_add, Assembler.add_add]
  rfl

/-- Two branches that each add a fragment. -/
theorem ite_eq_add {c : Prop} [Decidable c] {a x y : Assembler} {f g : Fragment} (hx : x = a.add f)
    (hy : y = a.add g) : (if c then x else y) = a.add (if c then f else g) := by
  rw [hx, hy, ← apply_ite]

theorem relocateOne_eq_add (pc : Addr) (inst : Word) (a : Assembler) :
    relocateOne pc inst a = a.add (relocFragment pc inst) := by
  unfold relocateOne relocFragment
  dsimp only
  refine ite_eq_add (Assembler.emitLdrX17Branch_eq_add a _) ?_
  refine ite_eq_add (Assembler.emitLdrLRBranch_eq_add a _) ?_
  refine ite_eq_add (emitU32_emitLdrX17Branch a _ _) ?_
  refine ite_eq_add (emitU32_emitLdrX17Branch a _ _) ?_
  refine ite_eq_add (emitU32_emitLdrX17Branch a _ _) ?_
  refine ite_eq_add (ite_eq_add (emitU32_placeDataLabel a _ _)
    (ite_eq_add (emitU32_placeDataLabel a _ _) (Assembler.emitU32_eq_add a _))) ?_
  refine ite_eq_add (emitU32_placeDataLabel a _ _) ?_
  exact ite_eq_add (emitU32_placeDataLabel a _ _) (Assembler.emitU32_eq_add a _)

/-- The fragments of a block: one for each word, then the branch to the address after the block. -/
def blockFragment (pc : Addr) : List Word → Fragment
  | [] => ⟨[kLdrX17, brX17], [(0, pc)]⟩
  | inst :: insts => (relocFragment pc inst).append (blockFragment (pc + 4) insts)

theorem relocateLoop_emitLdrX17Branch (pc : Addr) (ws : List Word) (a : Assembler) :
    (relocateLoop pc ws a).emitLdrX17Branch (pc + BitVec.ofNat 64 (4 * ws.length)) =
      a.add (blockFragment pc ws) := by
  induction ws generalizing pc a with
  | nil =>
    rw [List.length_nil, BitVec.add_zero]
    exact Assembler.emitLdrX17Branch_eq_add a pc
  | cons inst ws ih =>
    have haddr : pc + BitVec.ofNat 64 (4 * (inst :: ws).length) =
        pc + 4 + BitVec.ofNat 64 (4 * ws.length) := by
      rw [List.length_cons, Nat.mul_succ, Nat.add_comm, BitVec.ofNat_add, BitVec.add_assoc]
      rfl
    rw [relocateLoop, haddr, ih, relocateOne_eq_add, Assembler.add_add, blockFragment]

/-- **The relocated buffer.**  For a whole number of instructions the buffer is the finished buffer
of the block's fragments. -/
theorem buffer_relocateInstructions (m : Mem) (src : Addr) {n : ℕ} (hn : 0 < n) :
    relocateInstructions m src (4 * n) =
      { buffer := (blockFragment src (wordsAt m src n)).final, bytesConsumed := 4 * n,
        valid := true } := by
  have h1 : ¬ (4 * n = 0 ∨ 4 * n % 4 ≠ 0) := by omega
  have h2 : 4 * n / 4 = n := by omega
  have hloop := relocateLoop_emitLdrX17Branch src (wordsAt m src n) {}
  rw [length_wordsAt] at hloop
  simp only [relocateInstructions, if_neg h1, h2, hloop]
  rfl

theorem buildRelocatedCode_eq (m : Mem) (src : Addr) {n : ℕ} (hn : 0 < n) :
    buildRelocatedCode m src (4 * n) = (blockFragment src (wordsAt m src n)).final := by
  rw [buildRelocatedCode, buffer_relocateInstructions m src hn]
  rfl

/-! ## Well-formedness and size -/

/-- The shapes of the fragments: a load into `X17` and one or two words, the same behind a word that
skips it, or the instruction itself. -/
inductive RelocShape : Fragment → Prop where
  | load (w : Word) (v : BitVec 64) : RelocShape ⟨[kLdrX17, w], [(0, v)]⟩
  | call (w w' : Word) (v : BitVec 64) : RelocShape ⟨[kLdrX17, w, w'], [(0, v)]⟩
  | guarded (w w' : Word) (v : BitVec 64) : RelocShape ⟨[w, kLdrX17, w'], [(1, v)]⟩
  | keep (w : Word) : RelocShape ⟨[w], []⟩

theorem RelocShape.ite {c : Prop} [Decidable c] {f g : Fragment} (hf : RelocShape f)
    (hg : RelocShape g) : RelocShape (if c then f else g) := by
  split
  · exact hf
  · exact hg

theorem relocShape_relocFragment (pc : Addr) (inst : Word) :
    RelocShape (relocFragment pc inst) := by
  unfold relocFragment
  refine .ite (.load _ _) (.ite (.call _ _ _) ?_)
  refine .ite (.guarded _ _ _) (.ite (.guarded _ _ _) (.ite (.guarded _ _ _) ?_))
  refine .ite (.ite (.load _ _) (.ite (.load _ _) (.keep _))) ?_
  exact .ite (.load _ _) (.ite (.load _ _) (.keep _))

theorem RelocShape.wf {f : Fragment} (h : RelocShape f) : f.WF := by
  cases h with
  | load w v => exact ⟨by simp, by simp⟩
  | call w w' v => exact ⟨by simp, by simp⟩
  | guarded w w' v => exact ⟨by simp, by simp⟩
  | keep w => exact ⟨by simp, by simp⟩

/-- Each instruction becomes at most three words and one literal. -/
theorem RelocShape.length_le {f : Fragment} (h : RelocShape f) :
    f.words.length ≤ 3 ∧ f.lits.length ≤ 1 := by
  cases h with
  | load w v => simp
  | call w w' v => simp
  | guarded w w' v => simp
  | keep w => simp

theorem wf_blockFragment (pc : Addr) (ws : List Word) : (blockFragment pc ws).WF := by
  induction ws generalizing pc with
  | nil => exact (RelocShape.load _ _).wf
  | cons w ws ih => exact (relocShape_relocFragment pc w).wf.append (ih (pc + 4))

theorem length_blockFragment_le (pc : Addr) (ws : List Word) :
    (blockFragment pc ws).words.length ≤ 3 * ws.length + 2 ∧
      (blockFragment pc ws).lits.length ≤ ws.length + 1 := by
  induction ws generalizing pc with
  | nil => simp [blockFragment]
  | cons w ws ih =>
    have h1 := (relocShape_relocFragment pc w).length_le
    have h2 := ih (pc + 4)
    simp only [blockFragment, Fragment.append, List.length_append, List.length_map,
      List.length_cons]
    omega

/-- The branch back to the source is always there. -/
theorem length_blockFragment_final_pos (pc : Addr) (ws : List Word) :
    0 < (blockFragment pc ws).final.length := by
  have hpos : 0 < (blockFragment pc ws).words.length := by
    induction ws generalizing pc with
    | nil => simp [blockFragment]
    | cons w ws ih =>
      have h := ih (pc + 4)
      rw [blockFragment, Fragment.append, List.length_append]
      omega
  rw [Fragment.length_final, Assembler.paddedLength]
  omega

/-- The finished buffer of `n` instructions has at most `20 n + 20` bytes. -/
theorem length_blockFragment_final_le (pc : Addr) (ws : List Word) :
    (blockFragment pc ws).final.length ≤ 5 * ws.length + 5 := by
  have h := length_blockFragment_le pc ws
  rw [Fragment.length_final, Assembler.paddedLength]
  omega

end Arm64
end CalvinHook
