import CalvinHook.HookSdk.CopyRun

/-!
# The copies of literal loads

`IsLdrLiteral` accepts all literal loads with one mask: two register files and four sizes, one of
the eight combinations not allocated.  `RelocateInstructions` looks at the size field alone.  The
sizes of `LDR Wt` and `LDR Xt` become a load through `X17`, also when the destination is a vector
register; the other two sizes are copied as they are, and the copy reads relative to its own place.

* `decode_ldrLit`: the load a word accepted by `IsLdrLiteral` is, from the two fields.
* `blockExit_ldrLit`: the state after the copy of a load, for each form.
* `relocate_ldrLit_iff`: in which states the copy does what the original does.
-/

namespace CalvinHook
namespace Arm64

open A64

/-! ## Which load a word is -/

section Kind

variable {w : Word} {kind : LitKind}

/-- The load by the bit of the register file and the size field; one combination is not
allocated. -/
def litKindOf : BitVec 1 → BitVec 2 → Option LitKind
  | 0, 0 => some .w
  | 0, 1 => some .x
  | 0, 2 => some .sw
  | 0, 3 => some .prfm
  | 1, 0 => some .s
  | 1, 1 => some .d
  | 1, 2 => some .q
  | _, _ => none

/-- The load a word accepted by `IsLdrLiteral` is. -/
def litKind (w : Word) : Option LitKind := litKindOf (w.extractLsb' 26 1) (w.extractLsb' 30 2)

/-- The top byte put together from the two fields. -/
def litTop (file : BitVec 1) (size : BitVec 2) : Word :=
  (0x18000000 : Word) ||| (size.setWidth 32 <<< 30) ||| (file.setWidth 32 <<< 26)

theorem and_top_byte (h : isLdrLiteral w = true) :
    w &&& 0xFF000000 = litTop (w.extractLsb' 26 1) (w.extractLsb' 30 2) := by
  have hclass : w &&& 0x3B000000 = 0x18000000 := eq_of_beq h
  have hmask : (0xFF000000 : Word) = 0x3B000000 ||| 0xC4000000 := by decide
  have hfields : w &&& (0xC4000000 : Word) =
      ((w.extractLsb' 30 2).setWidth 32 <<< 30) ||| ((w.extractLsb' 26 1).setWidth 32 <<< 26) := by
    refine BitVec.eq_of_getLsbD_eq fun i hi => ?_
    interval_cases i <;> simp
  rw [hmask, BitVec.and_or_distrib_left, hclass, hfields, litTop, BitVec.or_assoc]

theorem mem_patterns_of_litKindOf {file : BitVec 1} {size : BitVec 2}
    (h : litKindOf file size = some kind) :
    Pattern.ldrLit (litTop file size) kind ∈ patterns := by
  have hfile : ∀ f : BitVec 1, f = 0 ∨ f = 1 := by decide
  have hsize : ∀ c : BitVec 2, c = 0 ∨ c = 1 ∨ c = 2 ∨ c = 3 := by decide
  rcases hfile file with rfl | rfl
  · rcases hsize size with rfl | rfl | rfl | rfl
    all_goals obtain rfl := Option.some.inj h
    · exact List.mem_of_getElem? (i := 12) rfl
    · exact List.mem_of_getElem? (i := 13) rfl
    · exact List.mem_of_getElem? (i := 14) rfl
    · exact List.mem_of_getElem? (i := 15) rfl
  · rcases hsize size with rfl | rfl | rfl | rfl
    · obtain rfl := Option.some.inj h
      exact List.mem_of_getElem? (i := 16) rfl
    · obtain rfl := Option.some.inj h
      exact List.mem_of_getElem? (i := 17) rfl
    · obtain rfl := Option.some.inj h
      exact List.mem_of_getElem? (i := 18) rfl
    · exact absurd h (by simp [litKindOf])

theorem decode_ldrLit (h : isLdrLiteral w = true) (hk : litKind w = some kind) :
    decode w = .ldrLit kind (regAt w 0) (imm19 w) :=
  decode_of_mem (mem_patterns_of_litKindOf hk) (and_top_byte h)

/-- The size field of each form. -/
def litSize : LitKind → BitVec 2
  | .w | .s => 0
  | .x | .d => 1
  | .sw | .q => 2
  | .prfm => 3

theorem size_of_litKind (hk : litKind w = some kind) : w.extractLsb' 30 2 = litSize kind := by
  have h : ∀ file size, litKindOf file size = some kind → size = litSize kind := by
    cases kind <;> decide
  exact h _ _ hk

/-- The word that is not allocated is copied as it is. -/
theorem relocFragment_unallocated (pc : Addr) (h : isLdrLiteral w = true) (hk : litKind w = none) :
    relocFragment pc w = ⟨[w], []⟩ := by
  have hfields : ∀ file size, litKindOf file size = none → size ≠ 1 ∧ size ≠ 0 := by decide
  obtain ⟨h1, h0⟩ := hfields _ _ hk
  rw [relocFragment_ldrLit pc h, if_neg h1, if_neg h0]

end Kind

/-! ## What the copy does -/

/-- The state after the copy of a load, the program counter apart: the original reads at `a`, and
read from the place of the copy the address is `b`. -/
def copyOfLoad (kind : LitKind) (rt : ℕ) (a b : Addr) (t : Cpu) : Cpu :=
  match kind with
  | .x | .d => (t.setX 17 a).setX rt (t.mem.read a 8)
  | .w | .s => (t.setX 17 a).setX rt ((t.mem.read a 4 : BitVec 32).setWidth 64)
  | .sw => loadLit .sw rt b t
  | .prfm => loadLit .prfm rt b t
  | .q => loadLit .q rt b t

section Copy

variable {m : Mem} {src dst : Addr} {n i : ℕ} {t : Cpu} {w : Word}

/-- An address loaded into `X17`, and one word that uses it without branching. -/
theorem blockExit_through (isa : Isa) {u x : Word} {a : Addr} {ins : Insn} (hu : LoadsX17 t a u)
    (hx : decode x = ins) (hi : ins.isBranch = false) :
    blockExit isa [u, x] t =
      (isa.effect ins ((t.setX 17 a).setPc (t.pc + 4))).setPc (t.pc + 8) := by
  have hpc : t.pc + 4 + 4 = t.pc + 8 := by
    rw [BitVec.add_assoc]
    rfl
  rw [blockExit_load isa hu, blockExit_singleton, hx, exec_of_not_isBranch isa hi,
    Cpu.pc_setPc, hpc]

/-- The copy of a load whose size is that of `LDR Xt`. -/
theorem blockExit_size_one (isa : Isa) (h : AtCopy m src n dst i t)
    (hw : (wordsAt m src n)[i]? = some w) (hl : isLdrLiteral w = true)
    (hsize : w.extractLsb' 30 2 = 1) :
    blockExit isa (copyWords m src n i) t =
      ((t.setX 17 (wordAddr src i + imm19 w)).setX (regAt w 0)
        (t.mem.read (wordAddr src i + imm19 w) 8)).setPc
          (wordAddr dst (emittedBefore m src n (i + 1))) := by
  have hfrag := relocFragment_ldrLit (wordAddr src i) hl
  rw [if_pos hsize] at hfrag
  obtain ⟨u, hcopy, hu⟩ := copyWords_load h hw hfrag
  rw [hcopy, h.next hw, hfrag, blockExit_through isa hu (decode_ldrReg w) rfl]
  simp [Isa.effect, Cpu.readXSP_of_ne, Cpu.setX_setPc, Cpu.setPc_setPc]

/-- The copy of a load whose size is that of `LDR Wt`. -/
theorem blockExit_size_zero (isa : Isa) (h : AtCopy m src n dst i t)
    (hw : (wordsAt m src n)[i]? = some w) (hl : isLdrLiteral w = true)
    (hsize : w.extractLsb' 30 2 = 0) :
    blockExit isa (copyWords m src n i) t =
      ((t.setX 17 (wordAddr src i + imm19 w)).setX (regAt w 0)
        ((t.mem.read (wordAddr src i + imm19 w) 4 : BitVec 32).setWidth 64)).setPc
          (wordAddr dst (emittedBefore m src n (i + 1))) := by
  have hfrag := relocFragment_ldrLit (wordAddr src i) hl
  rw [hsize, if_neg (by decide), if_pos rfl] at hfrag
  obtain ⟨u, hcopy, hu⟩ := copyWords_load h hw hfrag
  rw [hcopy, h.next hw, hfrag, blockExit_through isa hu (decode_ldrRegW w) rfl]
  simp [Isa.effect, Cpu.readXSP_of_ne, Cpu.setX_setPc, Cpu.setPc_setPc]

/-- The copy of a load of another size is the word itself. -/
theorem blockExit_size_other (isa : Isa) (h : AtCopy m src n dst i t)
    (hw : (wordsAt m src n)[i]? = some w) (hl : isLdrLiteral w = true) {kind : LitKind}
    (hk : litKind w = some kind) (h1 : w.extractLsb' 30 2 ≠ 1) (h0 : w.extractLsb' 30 2 ≠ 0) :
    blockExit isa (copyWords m src n i) t =
      (loadLit kind (regAt w 0) (t.pc + imm19 w) t).setPc
        (wordAddr dst (emittedBefore m src n (i + 1))) := by
  have hfrag := relocFragment_ldrLit (wordAddr src i) hl
  rw [if_neg h1, if_neg h0] at hfrag
  rw [copyWords_keep h hw hfrag, h.next hw, hfrag, blockExit_singleton, decode_ldrLit hl hk,
    exec_of_not_isBranch isa rfl]
  rfl

/-- **The copy of a literal load**, for each of the seven forms. -/
theorem blockExit_ldrLit (isa : Isa) (h : AtCopy m src n dst i t)
    (hw : (wordsAt m src n)[i]? = some w) (hl : isLdrLiteral w = true) {kind : LitKind}
    (hk : litKind w = some kind) :
    blockExit isa (copyWords m src n i) t =
      (copyOfLoad kind (regAt w 0) (wordAddr src i + imm19 w) (t.pc + imm19 w) t).setPc
        (wordAddr dst (emittedBefore m src n (i + 1))) := by
  have hsize := size_of_litKind hk
  cases kind with
  | w => exact blockExit_size_zero isa h hw hl hsize
  | s => exact blockExit_size_zero isa h hw hl hsize
  | x => exact blockExit_size_one isa h hw hl hsize
  | d => exact blockExit_size_one isa h hw hl hsize
  | sw => exact blockExit_size_other isa h hw hl hk (by rw [hsize]; decide) (by rw [hsize]; decide)
  | q => exact blockExit_size_other isa h hw hl hk (by rw [hsize]; decide) (by rw [hsize]; decide)
  | prfm =>
    exact blockExit_size_other isa h hw hl hk (by rw [hsize]; decide) (by rw [hsize]; decide)

end Copy

/-! ## When that is what the original does -/

/-- The load writes a general register. -/
def isGeneral : LitKind → Bool
  | .w | .x | .sw => true
  | .prfm | .s | .d | .q => false

/-- What the copy of a load from the address `a` must do: lead from `t` to `t'` at the words of the
next instruction, with the destination as the original leaves it and nothing but `X17` changed
beside it.  A vector destination is among what `rest` compares. -/
structure LoadFaithful (kind : LitKind) (rt : ℕ) (a next : Addr) (t t' : Cpu) : Prop where
  pc : t'.pc = next
  dest : isGeneral kind = true → t'.readX rt = (loadLit kind rt a t).readX rt
  rest : Agree isX17 (fun _ => False) (loadLit kind rt a t) t'

/-- The states in which the copy of a load is faithful: `a` is the address the original reads, and
`b` the address at the same distance from the copy. -/
def LoadKept (kind : LitKind) (rt : ℕ) (a b : Addr) (t : Cpu) : Prop :=
  match kind with
  | .w | .x | .prfm => True
  | .sw => rt = 31 ∨ t.mem.read b 4 = t.mem.read a 4
  | .q => t.mem.read b 16 = t.mem.read a 16
  | .s => t.readV rt = (t.mem.read a 4).setWidth 128 ∧
      (rt = 17 ∨ rt = 31 ∨ t.readX rt = (t.mem.read a 4 : BitVec 32).setWidth 64)
  | .d => t.readV rt = (t.mem.read a 8).setWidth 128 ∧
      (rt = 17 ∨ rt = 31 ∨ t.readX rt = t.mem.read a 8)

section Kept

variable {kind : LitKind} {rt : ℕ} {a next : Addr} {t : Cpu}

/-- A general register loaded through `X17`. -/
theorem faithful_general {v : BitVec 64} (horig : loadLit kind rt a t = t.setX rt v) :
    LoadFaithful kind rt a next t (((t.setX 17 a).setX rt v).setPc next) := by
  refine ⟨rfl, fun _ => ?_, ?_⟩
  · rw [horig, Cpu.readX_setPc]
    exact Cpu.readX_setX_congr _ _ _ _
  · rw [horig]
    have h17 : Agree isX17 (fun _ => False) t (t.setX 17 a) :=
      (Agree.refl isX17 _ t).setX_right rfl a
    exact (h17.setX rt v).setPc t.pc next

/-- A vector register, when the value goes to a general one. -/
theorem faithful_vector_iff {q : BitVec 128} {v : BitVec 64} (hrt : rt < 32)
    (hk : isGeneral kind = false) (horig : loadLit kind rt a t = t.setV rt q) :
    LoadFaithful kind rt a next t (((t.setX 17 a).setX rt v).setPc next) ↔
      t.readV rt = q ∧ (rt = 17 ∨ rt = 31 ∨ t.readX rt = v) := by
  constructor
  · rintro ⟨-, -, hrest⟩
    rw [horig] at hrest
    refine ⟨?_, ?_⟩
    · have hv := hrest.v rt
      rw [Cpu.readV_setV, if_pos ⟨rfl, hrt⟩] at hv
      exact hv.symm
    · by_cases h17 : rt = 17
      · exact .inl h17
      by_cases h31 : rt = 31
      · exact .inr (.inl h31)
      have hx := hrest.x rt h17
      rw [Cpu.readX_setV, Cpu.readX_setPc, Cpu.readX_setX_same _ _ _ (by omega)] at hx
      exact .inr (.inr hx)
  · rintro ⟨hv, hx⟩
    refine ⟨rfl, fun h => absurd h (by simp [hk]), ?_⟩
    rw [horig]
    refine ⟨fun k hk17 => ?_, rfl, fun k => ?_, rfl, fun _ _ => rfl⟩
    · have hk17' : k ≠ 17 := hk17
      rw [Cpu.readX_setV, Cpu.readX_setPc, Cpu.readX_setX, Cpu.readX_setX_of_ne _ _ hk17']
      split
      · rename_i hkrt
        obtain ⟨rfl, hlt⟩ := hkrt
        rcases hx with h17 | h31 | hval
        · exact absurd h17 hk17'
        · omega
        · exact hval
      · rfl
    · rw [Cpu.readV_setV]
      split
      · rename_i hkrt
        rw [hkrt.1]
        exact hv.symm
      · rfl

/-- A general register loaded with another value. -/
theorem faithful_setX_iff {v v' : BitVec 64} (hrt : rt < 32) (hk : isGeneral kind = true)
    (horig : loadLit kind rt a t = t.setX rt v) :
    LoadFaithful kind rt a next t ((t.setX rt v').setPc next) ↔ rt = 31 ∨ v' = v := by
  constructor
  · rintro ⟨-, hdest, -⟩
    by_cases h31 : rt = 31
    · exact .inl h31
    have hval := hdest hk
    rw [horig, Cpu.readX_setPc, Cpu.readX_setX_same _ _ _ (by omega),
      Cpu.readX_setX_same _ _ _ (by omega)] at hval
    exact .inr hval
  · rintro (rfl | rfl)
    · rw [Cpu.setX_zero_register] at horig ⊢
      refine ⟨rfl, fun _ => ?_, ?_⟩
      · rw [horig]
        rfl
      · rw [horig]
        exact (Agree.refl _ _ t).setPc t.pc next
    · refine ⟨rfl, fun _ => ?_, ?_⟩
      · rw [horig]
        rfl
      · rw [horig]
        exact (Agree.refl _ _ (t.setX rt v')).setPc t.pc next

/-- A vector register loaded with another value. -/
theorem faithful_setV_iff {q q' : BitVec 128} (hrt : rt < 32) (hk : isGeneral kind = false)
    (horig : loadLit kind rt a t = t.setV rt q) :
    LoadFaithful kind rt a next t ((t.setV rt q').setPc next) ↔ q' = q := by
  constructor
  · rintro ⟨-, -, hrest⟩
    have hv := hrest.v rt
    rw [horig, Cpu.readV_setPc, Cpu.readV_setV, Cpu.readV_setV, if_pos ⟨rfl, hrt⟩,
      if_pos ⟨rfl, hrt⟩] at hv
    exact hv.symm
  · rintro rfl
    refine ⟨rfl, fun h => absurd h (by simp [hk]), ?_⟩
    rw [horig]
    exact (Agree.refl _ _ (t.setV rt q')).setPc t.pc next

theorem signExtend_inj {x y : BitVec 32} (h : x.signExtend 64 = y.signExtend 64) : x = y := by
  have hint := congrArg BitVec.toInt h
  rw [BitVec.toInt_signExtend_of_le (by omega), BitVec.toInt_signExtend_of_le (by omega)] at hint
  exact BitVec.eq_of_toInt_eq hint

theorem copyOfLoad_faithful_iff (kind : LitKind) (hrt : rt < 32) (b : Addr) :
    LoadFaithful kind rt a next t ((copyOfLoad kind rt a b t).setPc next) ↔
      LoadKept kind rt a b t := by
  cases kind with
  | w => exact iff_of_true (faithful_general rfl) trivial
  | x => exact iff_of_true (faithful_general rfl) trivial
  | prfm =>
    exact iff_of_true ⟨rfl, fun h => absurd h (by decide),
      (Agree.refl _ _ t).setPc t.pc next⟩ trivial
  | sw =>
    refine (faithful_setX_iff hrt rfl rfl).trans (or_congr Iff.rfl ⟨signExtend_inj, fun h => ?_⟩)
    rw [h]
  | q => exact faithful_setV_iff hrt rfl rfl
  | s => exact faithful_vector_iff hrt rfl rfl
  | d => exact faithful_vector_iff hrt rfl rfl

end Kept

section Faithful

variable (isa : Isa) (m : Mem) (src dst : Addr) (n i : ℕ) (t : Cpu) (w : Word) (kind : LitKind)

/-- **Which copies of literal loads are faithful.**  `LDR Wt`, `LDR Xt` and `PRFM` always; `LDRSW`
and `LDR Qt`, which are copied as they are, in the states in which the two addresses hold the same
bytes; `LDR St` and `LDR Dt`, which are turned into loads of a general register, when both registers
held the value before. -/
theorem relocate_ldrLit_iff (h : AtCopy m src n dst i t) (hw : (wordsAt m src n)[i]? = some w)
    (hl : isLdrLiteral w = true) (hk : litKind w = some kind) :
    LoadFaithful kind (regAt w 0) (wordAddr src i + imm19 w)
        (wordAddr dst (emittedBefore m src n (i + 1))) t (blockExit isa (copyWords m src n i) t) ↔
      LoadKept kind (regAt w 0) (wordAddr src i + imm19 w) (t.pc + imm19 w) t := by
  have hrt : regAt w 0 < 32 := (w.extractLsb' 0 5).isLt
  rw [blockExit_ldrLit isa h hw hl hk]
  exact copyOfLoad_faithful_iff kind hrt _

end Faithful

/-- `LDR D0, .+8` is copied into a load of `X0`. -/
theorem not_faithful_ldrD :
    isLdrLiteral 0x5C000040 = true ∧ litKind 0x5C000040 = some .d ∧
      (wordsAt (codeMem 0x10000000 [0x5C000040, 0, 7]) 0x10000000 1)[0]? = some 0x5C000040 ∧
      AtCopy (codeMem 0x10000000 [0x5C000040, 0, 7]) 0x10000000 1 0x30000000 0
        (copyEntry (codeMem 0x10000000 [0x5C000040, 0, 7]) 0x10000000 1 0x30000000) ∧
      ¬ LoadFaithful .d 0 (wordAddr 0x10000000 0 + imm19 0x5C000040)
        (wordAddr 0x30000000
          (emittedBefore (codeMem 0x10000000 [0x5C000040, 0, 7]) 0x10000000 1 (0 + 1)))
        (copyEntry (codeMem 0x10000000 [0x5C000040, 0, 7]) 0x10000000 1 0x30000000)
        (blockExit Isa.bare (copyWords (codeMem 0x10000000 [0x5C000040, 0, 7]) 0x10000000 1 0)
          (copyEntry (codeMem 0x10000000 [0x5C000040, 0, 7]) 0x10000000 1 0x30000000)) := by
  refine ⟨by decide, by decide, by decide, atCopy_copyEntry _ _ _ (by omega) (by omega),
    fun hf => ?_⟩
  have hkind : litKind 0x5C000040 = some .d := by decide
  rw [blockExit_ldrLit (w := 0x5C000040) Isa.bare
    (atCopy_copyEntry _ _ _ (by omega) (by omega)) (by decide)
    (by decide) hkind] at hf
  have hkept := (copyOfLoad_faithful_iff .d (by decide) _).mp hf
  exact absurd hkept.1 (by decide +kernel)

/-- `LDR X0, .+8` is copied faithfully. -/
theorem relocate_ldrLit_iff_ldrX :
    LoadFaithful .x (regAt 0x58000040 0) (wordAddr 0x10000000 0 + imm19 0x58000040)
      (wordAddr 0x30000000
        (emittedBefore (codeMem 0x10000000 [0x58000040, 0, 7]) 0x10000000 1 (0 + 1)))
      (copyEntry (codeMem 0x10000000 [0x58000040, 0, 7]) 0x10000000 1 0x30000000)
      (blockExit Isa.bare (copyWords (codeMem 0x10000000 [0x58000040, 0, 7]) 0x10000000 1 0)
        (copyEntry (codeMem 0x10000000 [0x58000040, 0, 7]) 0x10000000 1 0x30000000)) :=
  (relocate_ldrLit_iff Isa.bare (codeMem 0x10000000 [0x58000040, 0, 7]) 0x10000000 0x30000000 1 0 _
    0x58000040 .x (atCopy_copyEntry _ _ _ (by omega) (by omega)) (by decide) (by decide)
    (by decide)).mpr trivial

end Arm64
end CalvinHook
