import CalvinHook.HookSdk.Assembler
import CalvinHook.Transition

/-!
# The layout that `Finalize` leaves

A client of the assembler emits words and placeholders and places labels, each on a placeholder it
has emitted.  `Finalize` then leaves three regions: the code, in which only immediates of
placeholders have changed, `NOP`s up to a multiple of eight bytes, and the values of the labels.

`Finalize` patches one placeholder once for every label that names it.  The last patch stays, so two
labels on one placeholder share the slot of the later one.

* `Call`, `assemble`: sequences of calls.
* `mem_placeholders`: the offsets that `EmitLdrX17Placeholder` returns.
* `finalize_layout`: the three regions, and when every label has its own slot.
-/

namespace CalvinHook
namespace Arm64

open A64

/-- A call of a client. -/
inductive Call where
  | emitInst (inst : Word)
  | emitLdrX17Placeholder
  | placeDataLabel (value : BitVec 64) (ldrCodeOffset : ℕ)
  deriving DecidableEq, Repr

namespace Call

def exec (a : Assembler) : Call → Assembler
  | emitInst inst => a.emitInst inst
  | emitLdrX17Placeholder => a.emitLdrX17Placeholder.1
  | placeDataLabel value ldrCodeOffset => a.placeDataLabel value ldrCodeOffset

/-- What a call returns: the offset of the placeholder. -/
def ret (a : Assembler) : Call → List ℕ
  | emitLdrX17Placeholder => [a.emitLdrX17Placeholder.2]
  | _ => []

end Call

/-- The assembler after a sequence of calls. -/
def assemble (cs : List Call) : Assembler := Transition.run Call.exec {} cs

/-- The offsets of the placeholders that the calls emit from a state on. -/
def placeholdersFrom (a : Assembler) : List Call → List ℕ
  | [] => []
  | c :: cs => c.ret a ++ placeholdersFrom (c.exec a) cs

/-- The offsets of the placeholders. -/
def placeholders (cs : List Call) : List ℕ := placeholdersFrom {} cs

/-! ## Placeholders -/

/-- Calls only append to the buffer. -/
theorem exists_buf_run_eq_append (a : Assembler) (cs : List Call) :
    ∃ rest, (Transition.run Call.exec a cs).buf = a.buf ++ rest := by
  induction cs generalizing a with
  | nil => exact ⟨[], (List.append_nil _).symm⟩
  | cons c cs ih =>
    obtain ⟨rest, hrest⟩ := ih (c.exec a)
    rw [Transition.run_cons, hrest]
    cases c with
    | emitInst inst => exact ⟨_, List.append_assoc _ _ _⟩
    | emitLdrX17Placeholder => exact ⟨_, List.append_assoc _ _ _⟩
    | placeDataLabel value ldrCodeOffset => exact ⟨rest, rfl⟩

/-- A placeholder stands at each offset that was returned. -/
theorem getElem?_of_mem_placeholdersFrom {a : Assembler} {cs : List Call} {off : ℕ}
    (h : off ∈ placeholdersFrom a cs) :
    ∃ i, off = 4 * i ∧ (Transition.run Call.exec a cs).buf[i]? = some kLdrX17 := by
  induction cs generalizing a with
  | nil => exact absurd h List.not_mem_nil
  | cons c cs ih =>
    rw [placeholdersFrom, List.mem_append] at h
    rcases h with h | h
    · cases c with
      | emitInst inst => exact absurd h List.not_mem_nil
      | placeDataLabel value ldrCodeOffset => exact absurd h List.not_mem_nil
      | emitLdrX17Placeholder =>
        have hoff : off = 4 * a.buf.length := List.mem_singleton.mp h
        obtain ⟨rest, hrest⟩ := exists_buf_run_eq_append (Call.emitLdrX17Placeholder.exec a) cs
        refine ⟨a.buf.length, hoff, ?_⟩
        rw [Transition.run_cons, hrest]
        show ((a.buf ++ [kLdrX17]) ++ rest)[a.buf.length]? = some kLdrX17
        rw [List.append_assoc, List.getElem?_append_right le_rfl, Nat.sub_self]
        rfl
    · exact ih h

theorem mem_placeholders {cs : List Call} {off : ℕ} (h : off ∈ placeholders cs) :
    ∃ i, off = 4 * i ∧ (assemble cs).buf[i]? = some kLdrX17 :=
  getElem?_of_mem_placeholdersFrom h

/-! ## The three regions -/

section Layout

variable (a : Assembler)

/-- The code with its padding. -/
def padded : Assembler :=
  { a with buf := a.buf ++
    List.replicate (((4 * a.buf.length + 7) / 8 * 8 - 4 * a.buf.length) / 4) kOpNOP }

theorem buf_finalize : a.finalize.buf = (a.labels.foldl Assembler.finalizeLabel (padded a)).buf :=
  rfl

theorem length_padded : (padded a).buf.length = Assembler.paddedLength a.buf.length := by
  rw [padded, List.length_append, List.length_replicate, Assembler.length_padding]

theorem length_finalize :
    a.finalize.buf.length = Assembler.paddedLength a.buf.length + 2 * a.labels.length := by
  rw [buf_finalize, Assembler.length_foldl_finalizeLabel, length_padded]

variable {a}

theorem getElem?_padded {i : ℕ} (hi : i < a.buf.length) : (padded a).buf[i]? = a.buf[i]? :=
  List.getElem?_append_left hi

theorem lt_length_padded {i : ℕ} (hi : i < a.buf.length) : i < (padded a).buf.length := by
  rw [length_padded, Assembler.paddedLength]
  omega

/-- The words of the code are as they were but for their immediates. -/
theorem getElem?_finalize_and {i : ℕ} (hi : i < a.buf.length) :
    a.finalize.buf[i]?.map (· &&& ~~~0x00FFFFE0#32) = a.buf[i]?.map (· &&& ~~~0x00FFFFE0#32) := by
  rw [buf_finalize, Assembler.getElem?_foldl_and _ _ (lt_length_padded hi), getElem?_padded hi]

/-- The words that no label names are as they were. -/
theorem getElem?_finalize_of_ne {i : ℕ} (hi : i < a.buf.length)
    (hne : ∀ l ∈ a.labels, l.codeOffset / 4 ≠ i) :
    a.finalize.buf[i]? = a.buf[i]? := by
  rw [buf_finalize, Assembler.getElem?_foldl_of_ne _ _ (lt_length_padded hi) hne,
    getElem?_padded hi]

variable (hplace : ∀ l ∈ a.labels, ∃ i, l.codeOffset = 4 * i ∧ a.buf[i]? = some kLdrX17)
include hplace

theorem codeOffset_lt {l : DataLabel} (hl : l ∈ a.labels) : l.codeOffset / 4 < a.buf.length := by
  obtain ⟨i, hi, hget⟩ := hplace l hl
  have hlt := (List.getElem?_eq_some_iff.mp hget).1
  omega

/-- The words of the padding. -/
theorem getElem?_finalize_padding {i : ℕ} (hi : a.buf.length ≤ i)
    (hlt : i < Assembler.paddedLength a.buf.length) : a.finalize.buf[i]? = some kOpNOP := by
  have hne : ∀ l ∈ a.labels, l.codeOffset / 4 ≠ i := by
    intro l hl
    have := codeOffset_lt hplace hl
    omega
  rw [buf_finalize, Assembler.getElem?_foldl_of_ne _ _ (by rwa [length_padded]) hne, padded,
    List.getElem?_append_right hi, List.getElem?_replicate, if_pos]
  rw [Assembler.paddedLength] at hlt
  omega

/-- The bytes of the slot of a label. -/
theorem getD_finalize_pool {j : ℕ} {l : DataLabel} (hj : a.labels[j]? = some l) {b : ℕ}
    (hb : b < 8) :
    (wordBytes a.finalize.buf).getD (4 * (Assembler.paddedLength a.buf.length + 2 * j) + b) 0 =
      l.value.extractLsb' (8 * b) 8 := by
  obtain ⟨hlo, hhi⟩ := Assembler.getElem?_foldl_pool a.labels (padded a)
    (fun l hl => lt_length_padded (codeOffset_lt hplace hl)) hj
  rw [← buf_finalize, length_padded] at hlo hhi
  have hhalf : ∀ (v : BitVec 64) (h r : ℕ), r < 4 →
      (v.extractLsb' (32 * h) 32).extractLsb' (8 * r) 8 =
      v.extractLsb' (8 * (4 * h + r)) 8 := by
    intro v h r hr
    refine BitVec.eq_of_getLsbD_eq fun k hk => ?_
    have h32 : 8 * r + k < 32 := by omega
    have hidx : 32 * h + (8 * r + k) = 8 * (4 * h + r) + k := by omega
    simp only [BitVec.getLsbD_extractLsb', hk, h32, decide_true, Bool.true_and, hidx]
  by_cases hb4 : b < 4
  · rw [getD_wordBytes _ _ _ hb4, List.getD_eq_getElem?_getD, hlo, Option.getD_some]
    exact (hhalf l.value 0 b hb4).trans (by rw [Nat.mul_zero, Nat.zero_add])
  · have hidx : 4 * (Assembler.paddedLength a.buf.length + 2 * j) + b =
        4 * (Assembler.paddedLength a.buf.length + 2 * j + 1) + (b - 4) := by omega
    have hb' : 4 * 1 + (b - 4) = b := by omega
    rw [hidx, getD_wordBytes _ _ _ (by omega), List.getD_eq_getElem?_getD, hhi, Option.getD_some]
    exact (hhalf l.value 1 (b - 4) (by omega)).trans (by rw [hb'])

/-- The load of a label that no later label names. -/
theorem getElem?_finalize_last {j : ℕ} {l : DataLabel} (hj : a.labels[j]? = some l)
    (hlast : ∀ i k, j < i → a.labels[i]? = some k → k.codeOffset ≠ l.codeOffset) :
    a.finalize.buf[l.codeOffset / 4]? = some (Assembler.patchLdr
      ((4 * (Assembler.paddedLength a.buf.length + 2 * j - l.codeOffset / 4) : ℕ)) kLdrX17) := by
  have hl : l ∈ a.labels := List.mem_of_getElem? hj
  obtain ⟨i, hi, hget⟩ := hplace l hl
  have hlt := codeOffset_lt hplace hl
  have hdiv : l.codeOffset / 4 = i := by omega
  have hword := Assembler.getElem?_foldl_last a.labels (padded a)
    (fun l hl => lt_length_padded (codeOffset_lt hplace hl)) hj fun i' k hi' hk heq => by
      obtain ⟨i'', hi'', -⟩ := hplace k (List.mem_of_getElem? hk)
      exact hlast i' k hi' hk (by omega)
  have hdisp : ((4 * (Assembler.paddedLength a.buf.length + 2 * j) : ℕ) : ℤ) - l.codeOffset =
      ((4 * (Assembler.paddedLength a.buf.length + 2 * j - i) : ℕ) : ℤ) := by
    have hle : i ≤ Assembler.paddedLength a.buf.length + 2 * j := by
      rw [Assembler.paddedLength]
      omega
    rw [hi]
    omega
  rw [buf_finalize, hword, getElem?_padded hlt, hdiv, hget, length_padded, hdisp]
  rfl

/-- The load of a label that no later label names addresses the slot of the label. -/
theorem addresses_of_last (hsize : 4 * a.finalize.buf.length < 2 ^ 20) {j : ℕ} {l : DataLabel}
    (hj : a.labels[j]? = some l)
    (hlast : ∀ i k, j < i → a.labels[i]? = some k → k.codeOffset ≠ l.codeOffset) :
    ∃ inst, a.finalize.buf[l.codeOffset / 4]? = some inst ∧ inst &&& ~~~0x00FFFFE0#32 = kLdrX17 ∧
      (l.codeOffset : ℤ) + (decodeLdrLitImm19 inst).toInt =
        (4 * (Assembler.paddedLength a.buf.length + 2 * j) : ℕ) := by
  have hjlt := (List.getElem?_eq_some_iff.mp hj).1
  have hl : l ∈ a.labels := List.mem_of_getElem? hj
  obtain ⟨i, hi, -⟩ := hplace l hl
  have hlt := codeOffset_lt hplace hl
  have hpad : a.buf.length ≤ Assembler.paddedLength a.buf.length := Nat.le_add_right _ _
  rw [length_finalize] at hsize
  have hd : Assembler.paddedLength a.buf.length + 2 * j - l.codeOffset / 4 < 2 ^ 18 := by omega
  have hnat : (BitVec.ofNat 64
      (4 * (Assembler.paddedLength a.buf.length + 2 * j - l.codeOffset / 4))).toNat =
      4 * (Assembler.paddedLength a.buf.length + 2 * j - l.codeOffset / 4) := by
    rw [BitVec.toNat_ofNat, Nat.mod_eq_of_lt (by omega)]
  refine ⟨_, getElem?_finalize_last hplace hj hlast, Assembler.patchLdr_and _ _, ?_⟩
  rw [decodeLdrLitImm19_eq, imm19_patchLdr hd, BitVec.toInt_eq_toNat_of_lt (by omega), hnat]
  omega

/-- Every label has a load of its own exactly if no two labels name one load. -/
theorem addresses_iff_nodup (hsize : 4 * a.finalize.buf.length < 2 ^ 20) :
    (∀ j l, a.labels[j]? = some l → ∃ inst, a.finalize.buf[l.codeOffset / 4]? = some inst ∧
      inst &&& ~~~0x00FFFFE0#32 = kLdrX17 ∧ (l.codeOffset : ℤ) + (decodeLdrLitImm19 inst).toInt =
        (4 * (Assembler.paddedLength a.buf.length + 2 * j) : ℕ)) ↔
      (a.labels.map DataLabel.codeOffset).Nodup := by
  rw [List.nodup_iff_getElem?_ne_getElem?]
  constructor
  · -- the load that two labels share addresses one slot
    intro h i j hij hj heq
    rw [List.length_map] at hj
    have hgj : a.labels[j]? = some a.labels[j] := List.getElem?_eq_getElem hj
    have hgi : a.labels[i]? = some a.labels[i] := List.getElem?_eq_getElem (hij.trans hj)
    rw [List.getElem?_map, List.getElem?_map, hgi, hgj] at heq
    have hoff : a.labels[i].codeOffset = a.labels[j].codeOffset := Option.some.inj heq
    obtain ⟨inst, hinst, -, haddr⟩ := h i _ hgi
    obtain ⟨inst', hinst', -, haddr'⟩ := h j _ hgj
    rw [← hoff, hinst] at hinst'
    cases hinst'
    omega
  · intro hnodup j l hj
    refine addresses_of_last hplace hsize hj fun i k hi hk heq => ?_
    have hilt := (List.getElem?_eq_some_iff.mp hk).1
    refine hnodup j i hi (by rwa [List.length_map]) ?_
    rw [List.getElem?_map, List.getElem?_map, hj, hk, Option.map_some, Option.map_some, heq]

end Layout

/-- **The literal pool.**  After calls whose labels name placeholders, with less than `2 ^ 20` bytes
in all: the code is as it was but for the immediates of placeholders; `NOP`s follow up to a multiple
of eight bytes; then come the values of the labels, eight bytes each and in the order of the labels,
and nothing else.  Every label is addressed by the load it names exactly if no two labels name the
same load. -/
theorem finalize_layout {cs : List Call}
    (hlabels : ∀ l ∈ (assemble cs).labels, l.codeOffset ∈ placeholders cs)
    (hsize : 4 * (assemble cs).finalize.buf.length < 2 ^ 20) :
    let code := (assemble cs).buf
    let labels := (assemble cs).labels
    let final := (assemble cs).finalize.buf
    let pool := 4 * Assembler.paddedLength code.length
    (∀ i < code.length, final[i]?.map (· &&& ~~~0x00FFFFE0#32) =
      code[i]?.map (· &&& ~~~0x00FFFFE0#32) ∧
      (4 * i ∉ placeholders cs → final[i]? = code[i]?)) ∧
    (pool % 8 = 0 ∧ 4 * code.length ≤ pool ∧ pool < 4 * code.length + 8 ∧
      ∀ i, code.length ≤ i → 4 * i < pool → final[i]? = some kOpNOP) ∧
    (∀ j l, labels[j]? = some l → ∀ b < 8,
      (wordBytes final).getD (pool + 8 * j + b) 0 = l.value.extractLsb' (8 * b) 8) ∧
    (wordBytes final).length = pool + 8 * labels.length ∧
    ((∀ j l, labels[j]? = some l → ∃ inst, final[l.codeOffset / 4]? = some inst ∧
      inst &&& ~~~0x00FFFFE0#32 = kLdrX17 ∧
      (l.codeOffset : ℤ) + (decodeLdrLitImm19 inst).toInt = (pool + 8 * j : ℕ)) ↔
      (labels.map DataLabel.codeOffset).Nodup) := by
  intro code labels final pool
  have hplace : ∀ l ∈ (assemble cs).labels, ∃ i, l.codeOffset = 4 * i ∧
      (assemble cs).buf[i]? = some kLdrX17 :=
    fun l hl => mem_placeholders (hlabels l hl)
  have hpool : pool = 4 * (code.length + code.length % 2) := rfl
  have hslot : ∀ j, 4 * (Assembler.paddedLength (assemble cs).buf.length + 2 * j) = pool + 8 * j :=
    fun j => by
    rw [Nat.mul_add, ← Nat.mul_assoc]
  refine ⟨fun i hi => ⟨getElem?_finalize_and hi, fun hne => getElem?_finalize_of_ne hi ?_⟩,
    ⟨by omega, by omega, by omega, fun i hi hlt => getElem?_finalize_padding hplace hi ?_⟩,
    fun j l hj b hb => ?_, ?_, ?_⟩
  · rintro l hl rfl
    obtain ⟨k, hk, -⟩ := hplace l hl
    have hoff : 4 * (l.codeOffset / 4) = l.codeOffset := by omega
    rw [hoff] at hne
    exact hne (hlabels l hl)
  · show i < code.length + code.length % 2
    omega
  · have hbyte := getD_finalize_pool hplace hj hb
    rwa [hslot] at hbyte
  · rw [length_wordBytes, length_finalize, hslot]
  · have hiff := addresses_iff_nodup hplace hsize
    simp only [hslot] at hiff
    exact hiff

/-- A long branch: the load addresses the slot behind the branch. -/
theorem finalize_layout_branch :
    ∃ inst, (assemble [.emitLdrX17Placeholder, .emitInst 0xD61F0220,
      .placeDataLabel 0x1234 0]).finalize.buf[0]? =
      some inst ∧ (decodeLdrLitImm19 inst).toInt = 8 := by
  have hlayout := @finalize_layout [.emitLdrX17Placeholder, .emitInst 0xD61F0220,
    .placeDataLabel 0x1234 0]
    (by decide) (by decide)
  obtain ⟨inst, hinst, -, haddr⟩ := hlayout.2.2.2.2.mpr (by decide) 0 ⟨0, 0x1234⟩ rfl
  exact ⟨inst, hinst, (zero_add _).symm.trans haddr⟩

/-- Two labels on one placeholder: the load addresses the slot of the second, and not that of the
first. -/
theorem finalize_shared_placeholder :
    ∃ cs, (∀ l ∈ (assemble cs).labels, l.codeOffset ∈ placeholders cs) ∧
      4 * (assemble cs).finalize.buf.length < 2 ^ 20 ∧ (assemble cs).labels[0]? = some ⟨0, 1⟩ ∧
      ∃ inst, (assemble cs).finalize.buf[0]? = some inst ∧
        (0 : ℤ) + (decodeLdrLitImm19 inst).toInt = (4 * Assembler.paddedLength 1 + 8 * 1 : ℕ) ∧
        (0 : ℤ) + (decodeLdrLitImm19 inst).toInt ≠ (4 * Assembler.paddedLength 1 + 8 * 0 : ℕ) :=
  ⟨[.emitLdrX17Placeholder, .placeDataLabel 1 0, .placeDataLabel 2 0], by decide,
    by decide, by decide, 0x58000091, by decide, by decide, by decide⟩

end Arm64
end CalvinHook
