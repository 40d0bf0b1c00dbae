import CalvinHook.HookSdk.Arm64Constants
import Mathlib.Data.List.Basic

/-!
# `assembler.cpp`: the instruction emitter and its literal pool

The code buffer is the list of the 32-bit words emitted so far (every emitter writes whole words,
and a 64-bit value is written as its two halves, low half first); offsets are byte offsets.

`finalize` pads the code to eight bytes, appends the values of the data labels and patches the
`LDR X17` each label names.  `Fragment.getElem?_final_of_ne` gives the words of the code that no
label names, `Fragment.WF.getElem?_final` the pool and the words that load from it.

Emitting is appending: every emitter adds a `Fragment`, its words together with the positions and
values of its literals, so a sequence of emitters adds the concatenation of the fragments.
-/

namespace CalvinHook
namespace Arm64

open A64

/-- `DataLabel`: an 8-byte value placed after the code, and the offset of the `LDR` that loads
it. -/
structure DataLabel where
  codeOffset : ℕ
  value : BitVec 64
  deriving DecidableEq, Repr

/-- `Assembler`: the words emitted so far and the labels placed so far. -/
structure Assembler where
  buf : List Word := []
  labels : List DataLabel := []
  deriving DecidableEq, Repr

/-- `LDR X17, [PC, #0]`, the placeholder of a literal load. -/
def kLdrX17 : Word := 0x58000011

namespace Assembler

/-- `CodeBuffer::EmitU32`. -/
def emitU32 (a : Assembler) (w : Word) : Assembler := { a with buf := a.buf ++ [w] }

/-- `CodeBuffer::EmitU64`: the low half first. -/
def emitU64 (a : Assembler) (val : BitVec 64) : Assembler :=
  { a with buf := a.buf ++ [val.extractLsb' 0 32, val.extractLsb' 32 32] }

/-- `CodeBuffer::CurrentOffset`. -/
def currentOffset (a : Assembler) : ℕ := 4 * a.buf.length

def emitB (a : Assembler) (offset : BitVec 64) : Assembler :=
  a.emitU32 (kOpB ||| encodeImm26 offset)

def emitBR (a : Assembler) (rn : Word) : Assembler := a.emitU32 (kOpBR ||| (rn <<< 5))

def emitBLR (a : Assembler) (rn : Word) : Assembler := a.emitU32 (kOpBLR ||| (rn <<< 5))

/-- Emits the placeholder and returns its offset. -/
def emitLdrX17Placeholder (a : Assembler) : Assembler × ℕ := (a.emitU32 kLdrX17, a.currentOffset)

def emitLdrReg (a : Assembler) (rt rn : Word) : Assembler :=
  a.emitU32 (0xF9400200 ||| (rn <<< 5) ||| rt)

def emitNop (a : Assembler) : Assembler := a.emitU32 kOpNOP

def emitInst (a : Assembler) (inst : Word) : Assembler := a.emitU32 inst

/-- The word of `EmitMovZ`. -/
def movZ (rd : Word) (imm : BitVec 16) (shift : ℕ) : Word :=
  kOpMovZ ||| ((BitVec.ofNat 32 (shift / 16) &&& 0x3) <<< 21) ||| (imm.setWidth 32 <<< 5) ||| rd

/-- The word of `EmitMovK`. -/
def movK (rd : Word) (imm : BitVec 16) (shift : ℕ) : Word :=
  kOpMovK ||| ((BitVec.ofNat 32 (shift / 16) &&& 0x3) <<< 21) ||| (imm.setWidth 32 <<< 5) ||| rd

def emitMovZ (a : Assembler) (rd : Word) (imm : BitVec 16) (shift : ℕ) : Assembler :=
  a.emitU32 (movZ rd imm shift)

def emitMovK (a : Assembler) (rd : Word) (imm : BitVec 16) (shift : ℕ) : Assembler :=
  a.emitU32 (movK rd imm shift)

def emitMovImm64 (a : Assembler) (rd : Word) (val : BitVec 64) : Assembler :=
  (((a.emitMovZ rd ((val &&& 0xFFFF).setWidth 16) 0).emitMovK rd
    (((val >>> 16) &&& 0xFFFF).setWidth 16) 16).emitMovK rd
    (((val >>> 32) &&& 0xFFFF).setWidth 16) 32).emitMovK rd
    (((val >>> 48) &&& 0xFFFF).setWidth 16) 48

def emitAdrp (a : Assembler) (rd : Word) (offset : BitVec 64) : Assembler :=
  a.emitU32 (kOpADRP ||| encodeAdrpImm offset ||| rd)

def emitAddImm (a : Assembler) (rd rn imm : Word) : Assembler :=
  a.emitU32 (0x91000000 ||| (imm <<< 10) ||| (rn <<< 5) ||| rd)

def placeDataLabel (a : Assembler) (value : BitVec 64) (ldrCodeOffset : ℕ) : Assembler :=
  { a with labels := a.labels ++ [⟨ldrCodeOffset, value⟩] }

/-- The word of an `LDR` whose literal is placed `disp` bytes after it. -/
def patchLdr (disp : ℤ) (inst : Word) : Word :=
  (inst &&& ~~~0x00FFFFE0#32) ||| ((BitVec.ofInt 32 (disp.tdiv 4) &&& 0x7FFFF) <<< 5)

/-- The body of the loop of `Finalize`: place one label and patch its `LDR`. -/
def finalizeLabel (a : Assembler) (label : DataLabel) : Assembler :=
  let dataOffset := a.currentOffset
  let a := a.emitU64 label.value
  let disp : ℤ := (dataOffset : ℤ) - label.codeOffset
  { a with buf := a.buf.modify (label.codeOffset / 4) (patchLdr disp) }

/-- `Finalize`: pad to eight bytes with `NOP`s, place every label, forget the labels. -/
def finalize (a : Assembler) : Assembler :=
  let codeSize := a.currentOffset
  let alignedSize := (codeSize + 7) / 8 * 8
  let padded := { a with buf := a.buf ++ List.replicate ((alignedSize - codeSize) / 4) kOpNOP }
  { a.labels.foldl finalizeLabel padded with labels := [] }

def emitLdrX17Branch (a : Assembler) (targetAddr : Addr) : Assembler :=
  let (a, ldrOffset) := a.emitLdrX17Placeholder
  (a.emitBR kRegX17).placeDataLabel targetAddr ldrOffset

def emitLdrLRBranch (a : Assembler) (targetAddr : Addr) : Assembler :=
  let (a, ldrOffset) := a.emitLdrX17Placeholder
  -- MOV LR, X17, then BLR LR
  let a := a.emitU32 (0xAA0003E0 ||| (kRegX17 <<< 16) ||| kRegLR)
  (a.emitBLR kRegLR).placeDataLabel targetAddr ldrOffset

end Assembler

/-! ## Fragments -/

/-- Words to emit, with the positions and values of the literals among them. -/
structure Fragment where
  words : List Word := []
  lits : List (ℕ × BitVec 64) := []
  deriving DecidableEq, Repr

namespace Fragment

/-- The fragment `g` after the fragment `f`. -/
def append (f g : Fragment) : Fragment :=
  ⟨f.words ++ g.words, f.lits ++ g.lits.map fun l => (f.words.length + l.1, l.2)⟩

/-- Every literal is loaded by a placeholder of the fragment, and no two by one placeholder. -/
structure WF (f : Fragment) : Prop where
  placeholder : ∀ l ∈ f.lits, f.words[l.1]? = some kLdrX17
  nodup : (f.lits.map Prod.fst).Nodup

theorem WF.lt {f : Fragment} (h : f.WF) {l : ℕ × BitVec 64} (hl : l ∈ f.lits) :
    l.1 < f.words.length := (List.getElem?_eq_some_iff.mp (h.placeholder l hl)).1

theorem WF.append {f g : Fragment} (hf : f.WF) (hg : g.WF) : (f.append g).WF where
  placeholder := by
    intro l hl
    rw [Fragment.append, List.mem_append, List.mem_map] at hl
    rcases hl with hl | ⟨k, hk, rfl⟩
    · rw [Fragment.append, List.getElem?_append_left (hf.lt hl)]
      exact hf.placeholder l hl
    · rw [Fragment.append, List.getElem?_append_right (Nat.le_add_right _ _),
        Nat.add_sub_cancel_left]
      exact hg.placeholder k hk
  nodup := by
    have hmap : ((f.append g).lits.map Prod.fst) =
        f.lits.map Prod.fst ++ (g.lits.map Prod.fst).map (f.words.length + ·) := by
      simp [Fragment.append, List.map_map, Function.comp_def]
    rw [hmap, List.nodup_append]
    refine ⟨hf.nodup, hg.nodup.map fun i j h => Nat.add_left_cancel h, ?_⟩
    intro i hi j hj hij
    rw [List.mem_map] at hi hj
    obtain ⟨l, hl, rfl⟩ := hi
    obtain ⟨k, -, rfl⟩ := hj
    have := hf.lt hl
    omega

end Fragment

namespace Assembler

/-- The assembler after the emission of a fragment. -/
def add (a : Assembler) (f : Fragment) : Assembler :=
  ⟨a.buf ++ f.words, a.labels ++ f.lits.map fun l => ⟨4 * (a.buf.length + l.1), l.2⟩⟩

theorem add_add (a : Assembler) (f g : Fragment) : (a.add f).add g = a.add (f.append g) := by
  simp [add, Fragment.append, List.append_assoc, Nat.add_assoc, Function.comp_def]

theorem emitU32_eq_add (a : Assembler) (w : Word) : a.emitU32 w = a.add ⟨[w], []⟩ := by
  simp [emitU32, add]

/-- Words without literals, one after another. -/
theorem add_words (a : Assembler) (us ws : List Word) :
    (a.add ⟨us, []⟩).add ⟨ws, []⟩ = a.add ⟨us ++ ws, []⟩ := by
  rw [add_add]
  simp [Fragment.append]

theorem emitLdrX17Branch_eq_add (a : Assembler) (t : Addr) :
    a.emitLdrX17Branch t = a.add ⟨[kLdrX17, kOpBR ||| (kRegX17 <<< 5)], [(0, t)]⟩ := by
  simp [emitLdrX17Branch, emitLdrX17Placeholder, emitBR, emitU32, placeDataLabel, add,
    currentOffset]

theorem emitLdrLRBranch_eq_add (a : Assembler) (t : Addr) :
    a.emitLdrLRBranch t = a.add ⟨[kLdrX17, 0xAA0003E0 ||| (kRegX17 <<< 16) ||| kRegLR,
      kOpBLR ||| (kRegLR <<< 5)], [(0, t)]⟩ := by
  simp [emitLdrLRBranch, emitLdrX17Placeholder, emitBLR, emitU32, placeDataLabel, add,
    currentOffset]

/-! ## What `Finalize` leaves -/

/-- The words of the code after padding. -/
def paddedLength (n : ℕ) : ℕ := n + n % 2

theorem length_padding (n : ℕ) : n + ((4 * n + 7) / 8 * 8 - 4 * n) / 4 = paddedLength n := by
  unfold paddedLength
  omega

theorem buf_finalizeLabel (a : Assembler) (l : DataLabel) :
    (a.finalizeLabel l).buf =
      (a.buf ++ [l.value.extractLsb' 0 32, l.value.extractLsb' 32 32]).modify (l.codeOffset / 4)
        (patchLdr ((4 * a.buf.length : ℕ) - l.codeOffset)) := rfl

theorem length_foldl_finalizeLabel (ls : List DataLabel) (a : Assembler) :
    (ls.foldl finalizeLabel a).buf.length = a.buf.length + 2 * ls.length := by
  induction ls generalizing a with
  | nil => rfl
  | cons l ls ih =>
    rw [List.foldl_cons, ih, buf_finalizeLabel, List.length_modify, List.length_append,
      List.length_cons]
    simp only [List.length_cons, List.length_nil]
    omega

/-- Placing labels changes no word that no label names. -/
theorem getElem?_foldl_of_ne (ls : List DataLabel) (a : Assembler) {i : ℕ} (hi : i < a.buf.length)
    (hne : ∀ l ∈ ls, l.codeOffset / 4 ≠ i) :
    (ls.foldl finalizeLabel a).buf[i]? = a.buf[i]? := by
  induction ls generalizing a with
  | nil => rfl
  | cons l ls ih =>
    have hlen : i < (a.finalizeLabel l).buf.length := by
      rw [buf_finalizeLabel, List.length_modify, List.length_append]
      omega
    rw [List.foldl_cons, ih (a.finalizeLabel l) hlen fun k hk => hne k (List.mem_cons_of_mem _ hk),
      buf_finalizeLabel, List.getElem?_modify_ne _ _ (hne l List.mem_cons_self),
      List.getElem?_append_left hi]

theorem length_finalizeLabel (a : Assembler) (l : DataLabel) :
    (a.finalizeLabel l).buf.length = a.buf.length + 2 := by
  rw [buf_finalizeLabel, List.length_modify, List.length_append]
  rfl

/-- The values of the labels stand after the code, in the order of the labels. -/
theorem getElem?_foldl_pool (ls : List DataLabel) (a : Assembler)
    (hcode : ∀ l ∈ ls, l.codeOffset / 4 < a.buf.length) {j : ℕ} {l : DataLabel}
    (hj : ls[j]? = some l) :
    (ls.foldl finalizeLabel a).buf[a.buf.length + 2 * j]? = some (l.value.extractLsb' 0 32) ∧
    (ls.foldl finalizeLabel a).buf[a.buf.length + 2 * j + 1]? =
      some (l.value.extractLsb' 32 32) := by
  induction ls generalizing a j with
  | nil => exact absurd hj (by simp)
  | cons k ls ih =>
    have hk : k.codeOffset / 4 < a.buf.length := hcode k List.mem_cons_self
    have hlen := length_finalizeLabel a k
    have hcode' : ∀ l ∈ ls, l.codeOffset / 4 < a.buf.length := fun l hl =>
      hcode l (List.mem_cons_of_mem _ hl)
    rw [List.foldl_cons]
    cases j with
    | zero =>
      have hkl : k = l := by simpa using hj
      subst hkl
      -- later labels name words of the code, not the value just placed
      have hpool : ∀ d, d < 2 →
          (ls.foldl finalizeLabel (a.finalizeLabel k)).buf[a.buf.length + d]? =
          [k.value.extractLsb' 0 32, k.value.extractLsb' 32 32][d]? := by
        intro d hd
        rw [getElem?_foldl_of_ne ls (a.finalizeLabel k) (by omega)
          fun l hl => by have := hcode' l hl; omega, buf_finalizeLabel,
          List.getElem?_modify_ne _ _ (by omega), List.getElem?_append_right (by omega),
          Nat.add_sub_cancel_left]
      exact ⟨hpool 0 (by omega), hpool 1 (by omega)⟩
    | succ j =>
      obtain ⟨h1, h2⟩ := ih (a.finalizeLabel k) (fun l hl => by have := hcode' l hl; omega)
        (by simpa using hj)
      have hidx : a.buf.length + 2 + 2 * j = a.buf.length + 2 * (j + 1) := by omega
      rw [hlen, hidx] at h1 h2
      exact ⟨h1, h2⟩

/-- A patch changes the immediate only. -/
theorem patchLdr_and (disp : ℤ) (inst : Word) :
    patchLdr disp inst &&& ~~~0x00FFFFE0#32 = inst &&& ~~~0x00FFFFE0#32 := by
  have hfield : BitVec.ofInt 32 (disp.tdiv 4) &&& 0x7FFFF =
      ((BitVec.ofInt 32 (disp.tdiv 4)).extractLsb' 0 19).setWidth 32 :=
    and_two_pow_sub_one (k := 19) _
  rw [patchLdr, hfield, or_and_of_extractLsb_eq_zero _ _ (by decide), BitVec.and_assoc,
    BitVec.and_self]

/-- A patch does not depend on the immediate that was there. -/
theorem patchLdr_congr {inst inst' : Word}
    (h : inst &&& ~~~0x00FFFFE0#32 = inst' &&& ~~~0x00FFFFE0#32) (disp : ℤ) :
    patchLdr disp inst = patchLdr disp inst' := by
  rw [patchLdr, patchLdr, h]

/-- Placing one label changes the words of the code in their immediates only. -/
theorem getElem?_finalizeLabel_and (a : Assembler) (l : DataLabel) {i : ℕ} (hi : i < a.buf.length) :
    (a.finalizeLabel l).buf[i]?.map (· &&& ~~~0x00FFFFE0#32) =
      a.buf[i]?.map (· &&& ~~~0x00FFFFE0#32) := by
  rw [buf_finalizeLabel]
  by_cases hl : l.codeOffset / 4 = i
  · rw [hl, List.getElem?_modify_eq, List.getElem?_append_left hi, Option.map_eq_map,
      Option.map_map]
    congr 1
    funext inst
    exact patchLdr_and _ inst
  · rw [List.getElem?_modify_ne _ _ hl, List.getElem?_append_left hi]

/-- Placing labels changes the words of the code in their immediates only. -/
theorem getElem?_foldl_and (ls : List DataLabel) (a : Assembler) {i : ℕ} (hi : i < a.buf.length) :
    (ls.foldl finalizeLabel a).buf[i]?.map (· &&& ~~~0x00FFFFE0#32) =
      a.buf[i]?.map (· &&& ~~~0x00FFFFE0#32) := by
  induction ls generalizing a with
  | nil => rfl
  | cons l ls ih =>
    have hlen := length_finalizeLabel a l
    rw [List.foldl_cons, ih (a.finalizeLabel l) (by omega), getElem?_finalizeLabel_and a l hi]

/-- The word a label names is patched with the distance to its value, if no later label names it. -/
theorem getElem?_foldl_last (ls : List DataLabel) (a : Assembler)
    (hcode : ∀ l ∈ ls, l.codeOffset / 4 < a.buf.length) {j : ℕ} {l : DataLabel}
    (hj : ls[j]? = some l)
    (hlast : ∀ i k, j < i → ls[i]? = some k → k.codeOffset / 4 ≠ l.codeOffset / 4) :
    (ls.foldl finalizeLabel a).buf[l.codeOffset / 4]? =
      a.buf[l.codeOffset / 4]?.map
        (patchLdr ((4 * (a.buf.length + 2 * j) : ℕ) - l.codeOffset)) := by
  have hl : l.codeOffset / 4 < a.buf.length := hcode l (List.mem_of_getElem? hj)
  induction ls generalizing a j with
  | nil => exact absurd hj (by simp)
  | cons k ls ih =>
    have hlen := length_finalizeLabel a k
    rw [List.foldl_cons]
    cases j with
    | zero =>
      have hkl : k = l := by simpa using hj
      subst hkl
      have hfresh : ∀ l ∈ ls, l.codeOffset / 4 ≠ k.codeOffset / 4 := by
        intro l hl
        obtain ⟨i, hi⟩ := List.mem_iff_getElem?.mp hl
        exact hlast (i + 1) l (by omega) (by simpa using hi)
      rw [getElem?_foldl_of_ne ls (a.finalizeLabel k) (by omega) hfresh, buf_finalizeLabel,
        List.getElem?_modify_eq, List.getElem?_append_left hl]
      rfl
    | succ j =>
      have hrec := ih (a.finalizeLabel k)
        (fun l hl => by have := hcode l (List.mem_cons_of_mem _ hl); omega) (by simpa using hj)
        (fun i k hi hk => hlast (i + 1) k (by omega) (by simpa using hk)) (by omega)
      have hidx : a.buf.length + 2 + 2 * j = a.buf.length + 2 * (j + 1) := by omega
      rw [hrec, hlen, hidx]
      -- what `k` did to the word is overwritten
      have hand := getElem?_finalizeLabel_and a k hl
      have hl' : l.codeOffset / 4 < (a.finalizeLabel k).buf.length := by omega
      rw [List.getElem?_eq_getElem hl, List.getElem?_eq_getElem hl'] at hand ⊢
      exact congrArg some (patchLdr_congr (Option.some.inj hand) _)

end Assembler

/-! ## The finished buffer of a fragment -/

namespace Fragment

/-- The buffer after emitting the fragment into an empty assembler and finalizing. -/
def final (f : Fragment) : List Word := (({} : Assembler).add f).finalize.buf

/-- The assembler of the fragment with its code padded to eight bytes. -/
def padded (f : Fragment) : Assembler :=
  { ({} : Assembler).add f with
    buf := f.words ++
      List.replicate (((4 * f.words.length + 7) / 8 * 8 - 4 * f.words.length) / 4) kOpNOP }

theorem final_eq (f : Fragment) :
    f.final = ((f.lits.map fun l => (⟨4 * l.1, l.2⟩ : DataLabel)).foldl
      Assembler.finalizeLabel f.padded).buf := by
  simp [final, padded, Assembler.finalize, Assembler.add, Assembler.currentOffset]

theorem length_padded (f : Fragment) :
    f.padded.buf.length = Assembler.paddedLength f.words.length := by
  rw [padded, List.length_append, List.length_replicate, Assembler.length_padding]

theorem length_final (f : Fragment) :
    f.final.length = Assembler.paddedLength f.words.length + 2 * f.lits.length := by
  rw [final_eq, Assembler.length_foldl_finalizeLabel, length_padded, List.length_map]

/-- A code word that no literal names stays as it was emitted. -/
theorem getElem?_final_of_ne {f : Fragment} {i : ℕ} (hi : i < f.words.length)
    (hne : ∀ l ∈ f.lits, l.1 ≠ i) : f.final[i]? = f.words[i]? := by
  have hlt : i < f.padded.buf.length := by
    rw [length_padded, Assembler.paddedLength]
    omega
  rw [final_eq, Assembler.getElem?_foldl_of_ne _ _ hlt, padded, List.getElem?_append_left hi]
  intro l hl
  rw [List.mem_map] at hl
  obtain ⟨k, hk, rfl⟩ := hl
  have h4 : 4 * k.1 / 4 = k.1 := by omega
  rw [h4]
  exact hne k hk

/-- Code without literals is finished by padding it. -/
theorem final_of_words (ws : List Word) : (⟨ws, []⟩ : Fragment).final =
    ws ++ List.replicate (((4 * ws.length + 7) / 8 * 8 - 4 * ws.length) / 4) kOpNOP := by
  rw [final_eq, List.map_nil, List.foldl_nil, padded]

/-- An even number of words needs no padding. -/
theorem final_of_even {ws : List Word} (h : ws.length % 2 = 0) :
    (⟨ws, []⟩ : Fragment).final = ws := by
  have hpad : ((4 * ws.length + 7) / 8 * 8 - 4 * ws.length) / 4 = 0 := by omega
  rw [final_of_words, hpad, List.replicate_zero, List.append_nil]

/-- **The literal pool.**  Literal `j` stands after the code in slot `j`, and the placeholder that
names it is patched with the distance to its slot. -/
theorem WF.getElem?_final {f : Fragment} (hf : f.WF) {j : ℕ} {l : ℕ × BitVec 64}
    (hj : f.lits[j]? = some l) :
    f.final[Assembler.paddedLength f.words.length + 2 * j]? = some (l.2.extractLsb' 0 32) ∧
    f.final[Assembler.paddedLength f.words.length + 2 * j + 1]? = some (l.2.extractLsb' 32 32) ∧
    f.final[l.1]? = some (Assembler.patchLdr
      ((4 * (Assembler.paddedLength f.words.length + 2 * j) : ℕ) - (4 * l.1 : ℕ)) kLdrX17) := by
  have hmem : l ∈ f.lits := List.mem_of_getElem? hj
  have h4 : ∀ n : ℕ, 4 * n / 4 = n := fun n => by omega
  have hcode : ∀ k ∈ f.lits.map fun l => (⟨4 * l.1, l.2⟩ : DataLabel),
      k.codeOffset / 4 < f.padded.buf.length := by
    intro k hk
    rw [List.mem_map] at hk
    obtain ⟨k, hk, rfl⟩ := hk
    rw [h4, length_padded, Assembler.paddedLength]
    have := hf.lt hk
    omega
  have hlabel : (f.lits.map fun l => (⟨4 * l.1, l.2⟩ : DataLabel))[j]? = some ⟨4 * l.1, l.2⟩ := by
    simp [hj]
  have hlast : ∀ i k, j < i → (f.lits.map fun l => (⟨4 * l.1, l.2⟩ : DataLabel))[i]? = some k →
      k.codeOffset / 4 ≠ 4 * l.1 / 4 := by
    intro i k hi hk heq
    rw [List.getElem?_map, Option.map_eq_some_iff] at hk
    obtain ⟨k, hk, rfl⟩ := hk
    rw [h4, h4] at heq
    refine hi.ne ((List.getElem?_inj ?_ hf.nodup).mp ?_)
    · rw [List.length_map]
      exact (List.getElem?_eq_some_iff.mp hj).1
    · rw [List.getElem?_map, List.getElem?_map, hj, hk, Option.map_some, Option.map_some, heq]
  have hpool := Assembler.getElem?_foldl_pool _ f.padded hcode hlabel
  have hword := Assembler.getElem?_foldl_last _ f.padded hcode hlabel hlast
  rw [length_padded, ← final_eq] at hpool hword
  rw [h4] at hword
  refine ⟨hpool.1, hpool.2, ?_⟩
  rw [hword, padded, List.getElem?_append_left (hf.lt hmem), hf.placeholder l hmem]
  rfl

end Fragment

/-! ## Decoding what the assembler emits -/

/-- A patched placeholder, by its field. -/
theorem patchLdr_kLdrX17 (d : ℕ) : Assembler.patchLdr ((4 * d : ℕ) : ℤ) kLdrX17 =
    0x58000011#32 ||| ((BitVec.ofNat 19 d).setWidth 32 <<< 5) := by
  have h1 : ((4 * d : ℕ) : ℤ).tdiv 4 = (d : ℤ) := by
    rw [Int.tdiv_eq_ediv_of_nonneg (by omega)]
    omega
  have h2 : BitVec.ofNat 32 d &&& 0x7FFFF = (BitVec.ofNat 19 d).setWidth 32 := by
    have := and_two_pow_sub_one (k := 19) (BitVec.ofNat 32 d)
    rw [show (0x7FFFF : BitVec 32) = BitVec.ofNat 32 (2 ^ 19 - 1) from rfl, this]
    congr 1
    apply BitVec.eq_of_toNat_eq
    simp
  rw [Assembler.patchLdr, h1, BitVec.ofInt_natCast, h2]
  rfl

/-- The offset of a patched placeholder. -/
theorem imm19_patchLdr {d : ℕ} (hd : d < 2 ^ 18) :
    imm19 (Assembler.patchLdr ((4 * d : ℕ) : ℤ) kLdrX17) = BitVec.ofNat 64 (4 * d) := by
  have hz : (0x58000011#32).extractLsb' 5 19 = 0 := by decide
  have hmsb : (BitVec.ofNat 19 d).msb = false := by
    rw [BitVec.msb_eq_decide]
    simp
    omega
  rw [patchLdr_kLdrX17, imm19, extractLsb_or_same _ _ (by omega), hz, BitVec.ofNat_eq_ofNat,
    BitVec.zero_or, BitVec.signExtend_eq_setWidth_of_msb_false hmsb]
  apply BitVec.eq_of_toNat_eq
  simp
  omega

/-- A patched placeholder loads `X17` from the slot it was patched for. -/
theorem decode_patchLdr {d : ℕ} (hd : d < 2 ^ 18) :
    decode (Assembler.patchLdr ((4 * d : ℕ) : ℤ) kLdrX17) =
      .ldrLit .x 17 (BitVec.ofNat 64 (4 * d)) := by
  have hmatch : (Pattern.ldrLit 0x58000000 .x).Matches
      (Assembler.patchLdr ((4 * d : ℕ) : ℤ) kLdrX17) := by
    rw [patchLdr_kLdrX17, Pattern.Matches, or_and_of_extractLsb_eq_zero _ _ (by decide)]
    rfl
  have hreg : regAt (Assembler.patchLdr ((4 * d : ℕ) : ℤ) kLdrX17) 0 = 17 := by
    rw [patchLdr_kLdrX17, regAt, extractLsb_or_of_apart _ _ (by omega)]
    rfl
  rw [decode_of_mem (by simp [patterns]) hmatch]
  show Insn.ldrLit .x (regAt _ 0) (imm19 _) = _
  rw [hreg, imm19_patchLdr hd]

end Arm64
end CalvinHook
