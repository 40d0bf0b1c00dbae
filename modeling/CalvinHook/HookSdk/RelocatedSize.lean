import CalvinHook.HookSdk.CodeBuffer
import CalvinHook.HookSdk.HookApi

/-!
# The size of relocated code

`HookInstall` allocates memory for the relocated code before it knows the instructions.  The bound
it uses covers every block: `n` instructions become at most `20 n + 20` bytes, a multiple of eight.

The code is emitted into a `CodeBuffer`, whose size and capacity are 32-bit numbers.  The assembler
of `Assembler.lean` keeps the words in a list; here its operations are those of the buffer, and
`Refines` says that the buffer holds the words of the list as long as they take no more than
`2 ^ 31` bytes, and that the emission which goes beyond does not return.

* `Buffered.finalize`, `Buffered.relocateInstructions`: the functions on the buffer.
* `Refines.emitBytes`, `Refines.finalizeLabel`, `Refines.finalize`: the steps.
* `relocateInstructions_fits`: what `RelocateInstructions` returns, and when.
-/

namespace CalvinHook
namespace Arm64
namespace Buffered

open A64

/-! ## The source -/

/-- The word at an offset of the buffer. -/
def wordAt (bytes : List Byte) (off : ℕ) : Word :=
  bytes.getD (off + 3) 0 ++ bytes.getD (off + 2) 0 ++ bytes.getD (off + 1) 0 ++ bytes.getD off 0

/-- A word of the buffer, replaced in place. -/
def patchWord (b : CodeBuffer) (off : ℕ) (f : Word → Word) : CodeBuffer :=
  { b with bytes := b.bytes.take off ++ wordBytes [f (wordAt b.bytes off)] ++
    b.bytes.drop (off + 4) }

/-- The body of the loop of `Finalize`. -/
def finalizeLabel (b : CodeBuffer) (label : DataLabel) : Option CodeBuffer := do
  let dataOffset := b.size
  let b ← b.emitU64 label.value
  let disp : ℤ := (dataOffset.toNat : ℤ) - label.codeOffset
  return patchWord b label.codeOffset (Assembler.patchLdr disp)

/-- `Finalize`. -/
def finalize (b : CodeBuffer) (labels : List DataLabel) : Option CodeBuffer := do
  let codeSize := b.size.toNat
  let alignedSize := (codeSize + 7) / 8 * 8
  let b ← (List.replicate ((alignedSize - codeSize) / 4) kOpNOP).foldlM CodeBuffer.emitU32 b
  labels.foldlM finalizeLabel b

/-- `RelocateResult`. -/
structure RelocateResult where
  buffer : CodeBuffer
  bytesConsumed : BitVec 32
  valid : Bool

/-- `RelocateInstructions`; none if an `EnsureCapacity` does not return. -/
def relocateInstructions (m : Mem) (srcAddr : Addr) (minBytes : BitVec 32) :
    Option RelocateResult :=
  if minBytes = 0 ∨ minBytes.toNat % 4 ≠ 0 then some ⟨.new, 0, false⟩
  else
    let targetCount := minBytes.toNat / 4
    let a := relocateLoop srcAddr (wordsAt m srcAddr targetCount) {}
    let offset := 4 * targetCount
    let a := a.emitLdrX17Branch (srcAddr + BitVec.ofNat 64 offset)
    do
      -- every emitter of the code writes one word
      let b ← a.buf.foldlM CodeBuffer.emitU32 .new
      let b ← finalize b a.labels
      return ⟨b, BitVec.ofNat 32 offset, true⟩

/-! ## Words in the buffer -/

theorem wordAt_wordBytes {ws : List Word} {i : ℕ} :
    wordAt (wordBytes ws) (4 * i) = ws.getD i 0 := by
  have hbyte : ∀ j < 4, (wordBytes ws).getD (4 * i + j) 0 = (ws.getD i 0).extractLsb' (8 * j) 8 :=
    fun j hj => getD_wordBytes ws i j hj
  rw [wordAt, hbyte 3 (by omega), hbyte 2 (by omega), hbyte 1 (by omega), ← Nat.add_zero (4 * i),
    hbyte 0 (by omega)]
  generalize ws.getD i 0 = w
  refine BitVec.eq_of_getLsbD_eq fun k hk => ?_
  simp only [BitVec.getLsbD_append, BitVec.getLsbD_extractLsb']
  by_cases h1 : k < 8
  · simp [h1]
  · by_cases h2 : k - 8 < 8
    · have h3 : 8 + (k - 8) = k := by omega
      simp [h1, h2, h3]
    · by_cases h4 : k - 8 - 8 < 8
      · have h5 : 16 + (k - 8 - 8) = k := by omega
        simp [h1, h2, h4, h5]
      · have h6 : 24 + (k - 8 - 8 - 8) = k := by omega
        have h7 : k - 8 - 8 - 8 < 8 := by omega
        simp [h1, h2, h4, h6, h7]

/-- Replacing the bytes of a word replaces the word. -/
theorem patch_wordBytes {ws : List Word} {i : ℕ} (hi : i < ws.length) (f : Word → Word) :
    (wordBytes ws).take (4 * i) ++ wordBytes [f (wordAt (wordBytes ws) (4 * i))] ++
      (wordBytes ws).drop (4 * i + 4) = wordBytes (ws.modify i f) := by
  obtain ⟨us, w, vs, rfl, rfl⟩ : ∃ us w vs, ws = us ++ w :: vs ∧ us.length = i :=
    ⟨ws.take i, ws.get ⟨i, hi⟩, ws.drop (i + 1), by simp, List.length_take_of_le hi.le⟩
  have hget : (us ++ w :: vs).getD us.length 0 = w := by simp
  have hmodify : (us ++ w :: vs).modify us.length f = us ++ f w :: vs := by
    rw [List.modify_eq_take_cons_drop (by simp)]
    simp
  have hcons : ∀ x, wordBytes (x :: vs) = wordBytes [x] ++ wordBytes vs :=
    fun x => wordBytes_append [x] vs
  have htake : (wordBytes us ++ (wordBytes [w] ++ wordBytes vs)).take (4 * us.length) =
      wordBytes us :=
    List.take_left' (length_wordBytes us)
  have hdrop : (wordBytes us ++ (wordBytes [w] ++ wordBytes vs)).drop (4 * us.length + 4) =
      wordBytes vs := by
    rw [← List.append_assoc]
    exact List.drop_left' (by rw [List.length_append, length_wordBytes, length_wordBytes]; rfl)
  rw [wordAt_wordBytes, hget, hmodify, wordBytes_append, wordBytes_append, hcons, hcons,
    htake, hdrop, List.append_assoc]

/-! ## The buffer holds the words of the list -/

/-- The buffer holds the words, or they do not fit and there is no buffer. -/
def Refines (r : Option CodeBuffer) (ws : List Word) : Prop :=
  if 4 * ws.length ≤ 2 ^ 31 then ∃ b, r = some b ∧ b.Allocated ∧ b.bytes = wordBytes ws
  else r = none

theorem size_of_bytes {b : CodeBuffer} (h : b.Allocated) {ws : List Word}
    (hws : b.bytes = wordBytes ws) :
    b.size.toNat = 4 * ws.length := by
  rw [← h.length, hws, length_wordBytes]

theorem refines_new : Refines (some .new) [] := by
  rw [Refines, if_pos (by decide)]
  exact ⟨.new, rfl, CodeBuffer.allocated_new, rfl⟩

variable {r : Option CodeBuffer} {ws : List Word}

/-- Extending a refinement by one step that fits or does not return. -/
theorem Refines.bind (h : Refines r ws) {f : CodeBuffer → Option CodeBuffer} {ws' : List Word}
    (hlen : ws.length ≤ ws'.length)
    (hfit : ∀ b, b.Allocated → b.bytes = wordBytes ws → 4 * ws'.length ≤ 2 ^ 31 →
      ∃ b', f b = some b' ∧ b'.Allocated ∧ b'.bytes = wordBytes ws')
    (hfull : ∀ b, b.Allocated → b.bytes = wordBytes ws → 2 ^ 31 < 4 * ws'.length → f b = none) :
    Refines (r.bind f) ws' := by
  rw [Refines] at h ⊢
  by_cases hws : 4 * ws.length ≤ 2 ^ 31
  · rw [if_pos hws] at h
    obtain ⟨b, rfl, hb, hbytes⟩ := h
    rw [Option.bind_some]
    split_ifs with hws'
    · exact hfit b hb hbytes hws'
    · exact hfull b hb hbytes (by omega)
  · rw [if_neg hws] at h
    rw [if_neg (by omega), h, Option.bind_none]

/-- Emitting one or two words. -/
theorem Refines.emitBytes (h : Refines r ws) (vs : List Word) (hvs : vs.length ≤ 2) :
    Refines (r.bind (·.emitBytes (wordBytes vs))) (ws ++ vs) := by
  have hlen : (ws ++ vs).length = ws.length + vs.length := List.length_append
  have hvlen := length_wordBytes vs
  refine h.bind (by omega) (fun b hb hbytes hfit => ?_) fun b hb hbytes hfull => ?_
  · have hsize := size_of_bytes hb hbytes
    have hroom : b.size.toNat + (wordBytes vs).length ≤ 2 ^ 31 := by omega
    obtain ⟨b', hemit, hb', hbytes', -⟩ := hb.emitBytes hroom
    exact ⟨b', hemit, hb', by rw [hbytes', hbytes, wordBytes_append]⟩
  · have hsize := size_of_bytes hb hbytes
    have hle : b.size.toNat ≤ 2 ^ 31 := by
      obtain ⟨k, -, hk, hcap⟩ := hb.capacity
      have hpow : 2 ^ k ≤ 2 ^ 31 := Nat.pow_le_pow_right (by omega) hk
      have hsc := BitVec.le_def.mp hb.size_le
      omega
    exact hb.emitBytes_eq_none (by omega) (by omega)

theorem Refines.emitU32s (h : Refines r ws) (vs : List Word) :
    Refines (r.bind (vs.foldlM CodeBuffer.emitU32)) (ws ++ vs) := by
  induction vs generalizing r ws with
  | nil =>
    rw [List.append_nil]
    cases r <;> exact h
  | cons v vs ih =>
    have hrec := ih (h.emitBytes [v] (by simp))
    rw [List.append_assoc, Option.bind_assoc] at hrec
    exact hrec

/-- Placing one label. -/
theorem Refines.finalizeLabel {a : Assembler} (h : Refines r a.buf) {label : DataLabel} {i : ℕ}
    (hoff : label.codeOffset = 4 * i) (hi : i < a.buf.length) :
    Refines (r.bind (Buffered.finalizeLabel · label)) (a.finalizeLabel label).buf := by
  have hdiv : label.codeOffset / 4 = i := by omega
  have hlen := Assembler.length_finalizeLabel a label
  have hemit := h.emitBytes [label.value.extractLsb' 0 32, label.value.extractLsb' 32 32] (by simp)
  have hpool : (a.buf ++ [label.value.extractLsb' 0 32, label.value.extractLsb' 32 32]).length =
      a.buf.length + 2 := List.length_append
  rw [Refines] at h hemit ⊢
  rw [hpool] at hemit
  rw [hlen]
  by_cases hws : 4 * a.buf.length ≤ 2 ^ 31
  · rw [if_pos hws] at h
    obtain ⟨b, rfl, hb, hbytes⟩ := h
    rw [Option.bind_some] at hemit ⊢
    have hsize := size_of_bytes hb hbytes
    split_ifs at hemit ⊢ with hfit
    · obtain ⟨b', hb'emit, hb', hbytes'⟩ := hemit
      refine ⟨patchWord b' label.codeOffset
        (Assembler.patchLdr ((b.size.toNat : ℤ) - label.codeOffset)), ?_, ?_⟩
      · rw [Buffered.finalizeLabel, CodeBuffer.emitU64, hb'emit]
        rfl
      · have hpatched : (patchWord b' label.codeOffset
            (Assembler.patchLdr ((b.size.toNat : ℤ) - label.codeOffset))).bytes =
            wordBytes (a.finalizeLabel label).buf := by
          rw [patchWord, hbytes', hoff, patch_wordBytes (by omega),
            Assembler.buf_finalizeLabel, hdiv, hsize, hoff]
        refine ⟨⟨hb'.capacity, hb'.size_le, ?_⟩, hpatched⟩
        rw [hpatched, length_wordBytes, hlen, ← hpool, ← length_wordBytes, ← hbytes']
        exact hb'.length
    · rw [Buffered.finalizeLabel, CodeBuffer.emitU64, hemit]
      rfl
  · rw [if_neg hws] at h
    rw [if_neg (by omega), h, Option.bind_none]

/-- Placing all labels. -/
theorem Refines.finalizeLabels {a : Assembler} (h : Refines r a.buf) (labels : List DataLabel)
    (hlabels : ∀ l ∈ labels, ∃ i, l.codeOffset = 4 * i ∧ i < a.buf.length) :
    Refines (r.bind (labels.foldlM Buffered.finalizeLabel))
      (labels.foldl Assembler.finalizeLabel a).buf := by
  induction labels generalizing r a with
  | nil => cases r <;> exact h
  | cons label labels ih =>
    obtain ⟨i, hoff, hi⟩ := hlabels label List.mem_cons_self
    have hlen := Assembler.length_finalizeLabel a label
    have hrec := ih (h.finalizeLabel hoff hi) fun l hl => by
      obtain ⟨j, hj, hjlt⟩ := hlabels l (List.mem_cons_of_mem _ hl)
      exact ⟨j, hj, by omega⟩
    rw [Option.bind_assoc] at hrec
    exact hrec

/-- `Finalize`. -/
theorem Refines.finalize {f : Fragment} (h : Refines r f.words) (hf : f.WF) :
    Refines (r.bind (Buffered.finalize · (f.lits.map fun l => ⟨4 * l.1, l.2⟩))) f.final := by
  have hpad : Refines (r.bind fun b => (List.replicate (((4 * f.words.length + 7) / 8 * 8 -
      4 * f.words.length) / 4) kOpNOP).foldlM CodeBuffer.emitU32 b) f.padded.buf := h.emitU32s _
  have hlabels := hpad.finalizeLabels (f.lits.map fun l => ⟨4 * l.1, l.2⟩) fun l hl => by
    rw [List.mem_map] at hl
    obtain ⟨k, hk, rfl⟩ := hl
    have hlt := hf.lt hk
    refine ⟨k.1, rfl, ?_⟩
    rw [Fragment.length_padded, Assembler.paddedLength]
    omega
  rw [← Fragment.final_eq, Option.bind_assoc] at hlabels
  -- the padding is computed from the size of the buffer, which is that of the words
  cases r with
  | none => exact hlabels
  | some b =>
    have hsize : b.size.toNat = 4 * f.words.length := by
      rw [Refines] at h
      split_ifs at h
      · obtain ⟨b', hb', halloc, hbytes⟩ := h
        cases hb'
        exact size_of_bytes halloc hbytes
    rw [Option.bind_some] at hlabels ⊢
    rw [Buffered.finalize, hsize]
    exact hlabels

/-! ## `RelocateInstructions` -/

theorem relocShape_words_ne_nil {f : Fragment} (h : RelocShape f) : f.words ≠ [] := by
  cases h <;> simp

/-- Every instruction becomes at least one word. -/
theorem le_length_blockFragment (pc : Addr) (ws : List Word) :
    ws.length + 2 ≤ (blockFragment pc ws).words.length := by
  induction ws generalizing pc with
  | nil => simp [blockFragment]
  | cons w ws ih =>
    have hpos := List.length_pos_iff.mpr (relocShape_words_ne_nil (relocShape_relocFragment pc w))
    have hrec := ih (pc + 4)
    rw [blockFragment, Fragment.append, List.length_append, List.length_cons]
    omega

/-- The buffer of `n` instructions. -/
theorem relocateInstructions_eq (m : Mem) (src : Addr) {n : ℕ} (hn : 1 ≤ n)
    (hn32 : 4 * n < 2 ^ 32) :
    relocateInstructions m src (BitVec.ofNat 32 (4 * n)) =
      (((blockFragment src (wordsAt m src n)).words.foldlM CodeBuffer.emitU32 .new).bind
        (Buffered.finalize · ((blockFragment src (wordsAt m src n)).lits.map
          fun l => ⟨4 * l.1, l.2⟩))).map
        fun b => ⟨b, BitVec.ofNat 32 (4 * n), true⟩ := by
  have hnat : (BitVec.ofNat 32 (4 * n)).toNat = 4 * n := by
    rw [BitVec.toNat_ofNat, Nat.mod_eq_of_lt hn32]
  have hvalid : ¬(BitVec.ofNat 32 (4 * n) = 0 ∨ (BitVec.ofNat 32 (4 * n)).toNat % 4 ≠ 0) := by
    rintro (hzero | hmod)
    · have hz := congrArg BitVec.toNat hzero
      rw [hnat] at hz
      simp at hz
      omega
    · omega
  have hdiv : 4 * n / 4 = n := by omega
  have hloop := relocateLoop_emitLdrX17Branch src (wordsAt m src n) {}
  rw [length_wordsAt] at hloop
  rw [relocateInstructions, if_neg hvalid]
  simp only [hnat, hdiv, hloop]
  have hbuf : (({} : Assembler).add (blockFragment src (wordsAt m src n))).buf =
      (blockFragment src (wordsAt m src n)).words := rfl
  have hlabels : (({} : Assembler).add (blockFragment src (wordsAt m src n))).labels =
      (blockFragment src (wordsAt m src n)).lits.map fun l => ⟨4 * l.1, l.2⟩ := by
    simp [Assembler.add]
  rw [hbuf, hlabels]
  cases (blockFragment src (wordsAt m src n)).words.foldlM CodeBuffer.emitU32 .new with
  | none => rfl
  | some b =>
    simp only [Option.bind_eq_bind, Option.bind_some]
    cases Buffered.finalize b _ <;> rfl

/-- The buffer of `n` instructions holds the words of the list, if they fit. -/
theorem refines_relocateInstructions (m : Mem) (src : Addr) {n : ℕ} (hn : 1 ≤ n)
    (hn32 : 4 * n < 2 ^ 32) :
    Refines ((relocateInstructions m src (BitVec.ofNat 32 (4 * n))).map RelocateResult.buffer)
      (Arm64.relocateInstructions m src (4 * n)).buffer := by
  have hwords := refines_new.emitU32s (blockFragment src (wordsAt m src n)).words
  rw [List.nil_append, Option.bind_some] at hwords
  have hfinal := hwords.finalize (wf_blockFragment src (wordsAt m src n))
  rw [relocateInstructions_eq m src hn hn32, buffer_relocateInstructions m src hn, Option.map_map]
  convert hfinal using 1
  exact Option.map_id'

/-- What is returned for instructions whose words fit into a buffer. -/
theorem exists_relocateInstructions (m : Mem) (src : Addr) {n : ℕ} (hn : 1 ≤ n)
    (hn32 : 4 * n < 2 ^ 32)
    (hfit : 4 * (Arm64.relocateInstructions m src (4 * n)).buffer.length ≤ 2 ^ 31) :
    ∃ r, relocateInstructions m src (BitVec.ofNat 32 (4 * n)) = some r ∧ r.valid = true ∧
      r.bytesConsumed.toNat = 4 * n ∧
      r.buffer.size.toNat = 4 * (Arm64.relocateInstructions m src (4 * n)).buffer.length ∧
      r.buffer.bytes = wordBytes (Arm64.relocateInstructions m src (4 * n)).buffer := by
  have href := refines_relocateInstructions m src hn hn32
  rw [Refines, if_pos hfit] at href
  obtain ⟨b, hb, halloc, hbytes⟩ := href
  obtain ⟨r, hr, rfl⟩ := Option.map_eq_some_iff.mp hb
  have hr' := hr
  rw [relocateInstructions_eq m src hn hn32] at hr'
  obtain ⟨b, -, rfl⟩ := Option.map_eq_some_iff.mp hr'
  refine ⟨_, hr, rfl, ?_, size_of_bytes halloc hbytes, hbytes⟩
  rw [BitVec.toNat_ofNat, Nat.mod_eq_of_lt hn32]

/-- Instructions whose words do not fit: an `EnsureCapacity` does not return. -/
theorem relocateInstructions_eq_none (m : Mem) (src : Addr) {n : ℕ} (hn : 1 ≤ n)
    (hn32 : 4 * n < 2 ^ 32)
    (hfull : 2 ^ 31 < 4 * (Arm64.relocateInstructions m src (4 * n)).buffer.length) :
    relocateInstructions m src (BitVec.ofNat 32 (4 * n)) = none := by
  have href := refines_relocateInstructions m src hn hn32
  rw [Refines, if_neg (by omega)] at href
  exact Option.map_eq_none_iff.mp href

/-- The bytes of the words for `n` instructions. -/
theorem size_relocateInstructions (m : Mem) (src : Addr) {n : ℕ} (hn : 1 ≤ n) :
    4 * (Arm64.relocateInstructions m src (4 * n)).buffer.length % 8 = 0 ∧
      4 * (Arm64.relocateInstructions m src (4 * n)).buffer.length ≤ 20 * n + 20 := by
  have hle := length_blockFragment_final_le src (wordsAt m src n)
  rw [length_wordsAt] at hle
  rw [buffer_relocateInstructions m src hn]
  refine ⟨?_, by dsimp only; omega⟩
  rw [Fragment.length_final, Assembler.paddedLength]
  omega

/-- **Relocated code fits.**  The words for `n` instructions take a multiple of eight bytes and at
most `20 n + 20`.  If they take no more than `2 ^ 31` bytes, `RelocateInstructions` returns a valid
buffer that holds just these words; if they take more, it does not return.  For every patch of
`HookInstall` it returns, and the words fit into what was allocated for them. -/
theorem relocateInstructions_fits (m : Mem) (src : Addr) {n : ℕ} (hn : 1 ≤ n)
    (hn32 : 4 * n < 2 ^ 32) :
    let words := (Arm64.relocateInstructions m src (4 * n)).buffer
    let size := 4 * words.length
    size % 8 = 0 ∧ size ≤ 20 * n + 20 ∧
    (size ≤ 2 ^ 31 →
      ∃ r, relocateInstructions m src (BitVec.ofNat 32 (4 * n)) = some r ∧ r.valid = true ∧
        r.bytesConsumed.toNat = 4 * n ∧ r.buffer.size.toNat = size ∧
        r.buffer.bytes = wordBytes words) ∧
    (2 ^ 31 < size → relocateInstructions m src (BitVec.ofNat 32 (4 * n)) = none) ∧
    ∀ target replace, let patchSize := (buildJumpPatch target replace).patchSize
      ∃ r, relocateInstructions m target (BitVec.ofNat 32 patchSize) = some r ∧ r.valid = true ∧
        r.bytesConsumed.toNat = patchSize ∧ r.buffer.size.toNat ≤ maxRelocSize patchSize ∧
        r.buffer.bytes = wordBytes (buildRelocatedCode m target patchSize) := by
  intro words size
  obtain ⟨h8, hle⟩ := size_relocateInstructions m src hn
  refine ⟨h8, hle, exists_relocateInstructions m src hn hn32,
    relocateInstructions_eq_none m src hn hn32, ?_⟩
  intro target replace patchSize
  obtain ⟨k, hk, hk1, hk4⟩ : ∃ k, patchSize = 4 * k ∧ 1 ≤ k ∧ k ≤ 4 := by
    have hbounds : 4 ≤ patchSize ∧ patchSize ≤ 16 := patchSize_bounds target replace
    exact ⟨patchSize / 4, patchSize_eq_four_mul target replace, by omega, by omega⟩
  obtain ⟨-, hkle⟩ := size_relocateInstructions m target hk1
  obtain ⟨r, hr, hvalid, hconsumed, hrsize, hbytes⟩ :=
    exists_relocateInstructions m target hk1 (by omega) (by omega)
  rw [hk]
  refine ⟨r, hr, hvalid, hconsumed, ?_, ?_⟩
  · rw [hrsize, maxRelocSize]
    omega
  · rw [hbytes, buildRelocatedCode_eq m target hk1, buffer_relocateInstructions m target hk1]

/-- Words that are relocated in different ways: `ADR`, `ADRP`, a literal load, `BL`, `CBZ`, `TBNZ`,
`B.EQ` and an `ADD`, which is copied. -/
def mixedWords : List Word :=
  [0x10000041, 0x90000002, 0x58000083, 0x94000008, 0xB4000040, 0x37000041, 0x54000040, 0x8B010000]

/-- Memory in which these words stand again and again. -/
def mixedCode : Mem := fun a =>
  (mixedWords.getD (a.toNat / 4 % 8) 0).extractLsb' (8 * (a.toNat % 4)) 8

theorem relocateInstructions_fits_mixedCode :
    ∃ r, relocateInstructions mixedCode 0x10000000 (BitVec.ofNat 32 (4 * 8)) = some r ∧
      r.valid = true ∧ r.bytesConsumed.toNat = 4 * 8 ∧ r.buffer.size.toNat = 4 * 38 ∧
      r.buffer.bytes =
        wordBytes (Arm64.relocateInstructions mixedCode 0x10000000 (4 * 8)).buffer := by
  have hsize : (Arm64.relocateInstructions mixedCode 0x10000000 (4 * 8)).buffer.length = 38 := by
    decide +kernel
  obtain ⟨-, -, hfit, -⟩ :=
    relocateInstructions_fits mixedCode 0x10000000 (n := 8) (by decide) (by decide)
  rw [← hsize]
  exact hfit (by rw [hsize]; decide)

/-- From `2 ^ 29` instructions on, of any kind, the words do not fit. -/
theorem relocateInstructions_eq_none_of_le (m : Mem) (src : Addr) {n : ℕ} (hn : 2 ^ 29 ≤ n)
    (hn32 : 4 * n < 2 ^ 32) : relocateInstructions m src (BitVec.ofNat 32 (4 * n)) = none := by
  refine relocateInstructions_eq_none m src (by omega) hn32 ?_
  have hlen := le_length_blockFragment src (wordsAt m src n)
  rw [length_wordsAt] at hlen
  rw [buffer_relocateInstructions m src (by omega), Fragment.length_final, Assembler.paddedLength]
  omega

/-- Two gibibytes of code. -/
theorem relocateInstructions_two_gibibytes :
    ¬∃ r, relocateInstructions mixedCode 0x10000000 (BitVec.ofNat 32 (4 * 2 ^ 29)) = some r := by
  rintro ⟨r, hr⟩
  rw [relocateInstructions_eq_none_of_le mixedCode 0x10000000 le_rfl (by omega)] at hr
  cases hr

end Buffered
end Arm64
end CalvinHook
