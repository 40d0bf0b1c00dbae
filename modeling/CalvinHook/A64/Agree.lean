import CalvinHook.A64.Program

/-!
# States that agree, and code that can be moved

Two states *agree* up to a set of registers and a region of memory when everything else in them is
the same; the program counter is left out.  An instruction can be moved to another address and run
with the ignored registers changed when it keeps agreement (`PcIndependent`); the instructions of
the decoder that use neither the program counter nor an ignored register do
(`pcIndependent_of_avoids`).

`blockExit` runs the words of a block one after another up to the first branch that is taken, and
`exitWord` is the word that branched.
-/

namespace CalvinHook
namespace A64

/-- The states are the same but for the program counter, the registers in `ign` and the memory in
`R`. -/
structure Agree (ign : ℕ → Prop) (R : Addr → Prop) (s t : Cpu) : Prop where
  x : ∀ n, ¬ ign n → s.readX n = t.readX n
  sp : s.sp = t.sp
  v : ∀ n, s.readV n = t.readV n
  nzcv : s.nzcv = t.nzcv
  mem : ∀ a, ¬ R a → s.mem a = t.mem a

namespace Agree

variable {ign : ℕ → Prop} {R : Addr → Prop} {s t : Cpu}

theorem refl (ign : ℕ → Prop) (R : Addr → Prop) (s : Cpu) : Agree ign R s s :=
  ⟨fun _ _ => rfl, rfl, fun _ => rfl, rfl, fun _ _ => rfl⟩

theorem mono {ign' : ℕ → Prop} (h : Agree ign R s t) (hi : ∀ n, ign n → ign' n) :
    Agree ign' R s t :=
  ⟨fun n hn => h.x n fun hh => hn (hi n hh), h.sp, h.v, h.nzcv, h.mem⟩

theorem setPc (h : Agree ign R s t) (a b : Addr) : Agree ign R (s.setPc a) (t.setPc b) :=
  ⟨h.x, h.sp, h.v, h.nzcv, h.mem⟩

theorem setX (h : Agree ign R s t) (n : ℕ) (val : BitVec 64) :
    Agree ign R (s.setX n val) (t.setX n val) := by
  refine ⟨fun k hk => ?_, h.sp, h.v, h.nzcv, h.mem⟩
  rw [Cpu.readX_setX, Cpu.readX_setX, h.x k hk]

theorem setX_right (h : Agree ign R s t) {n : ℕ} (hn : ign n) (val : BitVec 64) :
    Agree ign R s (t.setX n val) := by
  refine ⟨fun k hk => ?_, h.sp, h.v, h.nzcv, h.mem⟩
  have hkn : k ≠ n := fun hh => hk (hh ▸ hn)
  rw [Cpu.readX_setX_of_ne t val hkn]
  exact h.x k hk

theorem setX_left (h : Agree ign R s t) {n : ℕ} (hn : ign n) (val : BitVec 64) :
    Agree ign R (s.setX n val) t := by
  refine ⟨fun k hk => ?_, h.sp, h.v, h.nzcv, h.mem⟩
  have hkn : k ≠ n := fun hh => hk (hh ▸ hn)
  rw [Cpu.readX_setX_of_ne s val hkn]
  exact h.x k hk

theorem setV (h : Agree ign R s t) (n : ℕ) (val : BitVec 128) :
    Agree ign R (s.setV n val) (t.setV n val) := by
  refine ⟨h.x, h.sp, fun k => ?_, h.nzcv, h.mem⟩
  rw [Cpu.readV_setV, Cpu.readV_setV, h.v k]

theorem setSp (h : Agree ign R s t) (a : Addr) : Agree ign R (s.setSp a) (t.setSp a) :=
  ⟨h.x, rfl, h.v, h.nzcv, h.mem⟩

theorem setXSP (h : Agree ign R s t) (n : ℕ) (val : BitVec 64) :
    Agree ign R (s.setXSP n val) (t.setXSP n val) := by
  by_cases hn : n = 31
  · subst hn
    exact h.setSp val
  · rw [Cpu.setXSP_of_ne s val hn, Cpu.setXSP_of_ne t val hn]
    exact h.setX n val

theorem readXSP (h : Agree ign R s t) {n : ℕ} (hn : ¬ ign n) : s.readXSP n = t.readXSP n := by
  by_cases h31 : n = 31
  · subst h31
    exact h.sp
  · rw [Cpu.readXSP_of_ne s h31, Cpu.readXSP_of_ne t h31]
    exact h.x n hn

/-- A read outside the region gives the same value. -/
theorem read (h : Agree ign R s t) {a : Addr} {n : ℕ} (hn : n ≤ 2 ^ 64)
    (hR : ∀ x, InRange a n x → ¬ R x) : s.mem.read a n = t.mem.read a n :=
  Mem.read_congr fun i hi => h.mem _ (hR _ (inRange_add hi (by omega)))

/-- The same write in both states. -/
theorem write (h : Agree ign R s t) (a : Addr) (n : ℕ) (val : BitVec (8 * n)) :
    Agree ign R (s.setMem (s.mem.write a n val)) (t.setMem (t.mem.write a n val)) := by
  refine ⟨h.x, h.sp, h.v, h.nzcv, fun x hx => ?_⟩
  show s.mem.write a n val x = t.mem.write a n val x
  by_cases hin : InRange a n x
  · rw [Mem.write_of_inRange hin, Mem.write_of_inRange hin]
  · rw [Mem.write_of_not_inRange hin, Mem.write_of_not_inRange hin, h.mem x hx]

end Agree

/-! ## Instructions that can be moved -/

/-- The word can be moved: from states that agree it goes on to states that agree, with the same
branch, and it changes nothing in a region it does not access. -/
def PcIndependent (isa : Isa) (ign : ℕ → Prop) (w : Word) : Prop :=
  ∀ (R : Addr → Prop) (s t : Cpu), Agree ign R s t → (∀ a, isa.Access (decode w) s a → ¬ R a) →
    Agree ign R (isa.effect (decode w) s) (isa.effect (decode w) t) ∧
    (∀ a, R a → (isa.effect (decode w) t).mem a = t.mem a) ∧
    branchTarget (decode w) s = branchTarget (decode w) t

/-- The instruction reads no program counter, and none of the registers it names satisfies
`ign`. -/
def Insn.Avoids (ign : ℕ → Prop) : Insn → Prop
  | .br rn | .ret rn => ¬ ign rn
  | .nop => True
  | .movz rd _ _ | .movk rd _ _ => ¬ ign rd
  | .addImm rd rn _ | .subImm rd rn _ => ¬ ign rd ∧ ¬ ign rn
  | .orr rd rn rm => ¬ ign rd ∧ ¬ ign rn ∧ ¬ ign rm
  | .ldrX rt rn _ | .ldrW rt rn _ | .strX rt rn _ => ¬ ign rt ∧ ¬ ign rn
  | .ldrV bytes _ rn _ | .strV bytes _ rn _ => ¬ ign rn ∧ bytes ≤ 16
  | .stpPre rt rt2 rn _ | .ldpPost rt rt2 rn _ => ¬ ign rt ∧ ¬ ign rt2 ∧ ¬ ign rn
  | _ => False

/-- The two halves of a pair access lie in its sixteen bytes. -/
theorem inRange_pair {a x : Addr} (h : InRange a 8 x ∨ InRange (a + 8) 8 x) : InRange a 16 x := by
  rcases h with h | h
  · exact h.mono (by omega)
  · exact inRange_of_inRange_add (d := 8) h (by omega)

/-- **Instructions of the decoder that can be moved.** -/
theorem pcIndependent_of_avoids (isa : Isa) {ign : ℕ → Prop} {w : Word}
    (h : (decode w).Avoids ign) : PcIndependent isa ign w := by
  intro R s t hst hacc
  generalize decode w = i at h hacc ⊢
  cases i with
  | br rn => exact ⟨hst, fun _ _ => rfl, congrArg some (hst.x rn h)⟩
  | ret rn => exact ⟨hst, fun _ _ => rfl, congrArg some (hst.x rn h)⟩
  | nop => exact ⟨hst, fun _ _ => rfl, rfl⟩
  | movz rd imm shift => exact ⟨hst.setX rd _, fun _ _ => rfl, rfl⟩
  | movk rd imm shift =>
    refine ⟨?_, fun _ _ => rfl, rfl⟩
    simp only [Isa.effect, hst.x rd h]
    exact hst.setX rd _
  | addImm rd rn imm =>
    refine ⟨?_, fun a _ => congrFun (Cpu.mem_setXSP t _ rd) a, rfl⟩
    simp only [Isa.effect, hst.readXSP h.2]
    exact hst.setXSP rd _
  | subImm rd rn imm =>
    refine ⟨?_, fun a _ => congrFun (Cpu.mem_setXSP t _ rd) a, rfl⟩
    simp only [Isa.effect, hst.readXSP h.2]
    exact hst.setXSP rd _
  | orr rd rn rm =>
    refine ⟨?_, fun _ _ => rfl, rfl⟩
    simp only [Isa.effect, hst.x rn h.2.1, hst.x rm h.2.2]
    exact hst.setX rd _
  | ldrX rt rn off =>
    refine ⟨?_, fun _ _ => rfl, rfl⟩
    simp only [Isa.Access, hst.readXSP h.2] at hacc
    simp only [Isa.effect, hst.readXSP h.2, hst.read (by omega) hacc]
    exact hst.setX rt _
  | ldrW rt rn off =>
    refine ⟨?_, fun _ _ => rfl, rfl⟩
    simp only [Isa.Access, hst.readXSP h.2] at hacc
    simp only [Isa.effect, hst.readXSP h.2, hst.read (by omega) hacc]
    exact hst.setX rt _
  | strX rt rn off =>
    simp only [Isa.Access, hst.readXSP h.2] at hacc
    refine ⟨?_, fun a ha => ?_, rfl⟩
    · simp only [Isa.effect, hst.readXSP h.2, hst.x rt h.1]
      exact hst.write _ 8 _
    · exact Mem.write_of_not_inRange fun hin => hacc a hin ha
  | ldrV bytes rt rn off =>
    refine ⟨?_, fun _ _ => rfl, rfl⟩
    simp only [Isa.Access, hst.readXSP h.1] at hacc
    have hb := h.2
    simp only [Isa.effect, hst.readXSP h.1, hst.read (by omega) hacc]
    exact hst.setV rt _
  | strV bytes rt rn off =>
    simp only [Isa.Access, hst.readXSP h.1] at hacc
    refine ⟨?_, fun a ha => ?_, rfl⟩
    · simp only [Isa.effect, hst.readXSP h.1, hst.v rt]
      exact hst.write _ bytes _
    · exact Mem.write_of_not_inRange fun hin => hacc a hin ha
  | stpPre rt rt2 rn off =>
    simp only [Isa.Access, hst.readXSP h.2.2] at hacc
    refine ⟨?_, fun a ha => ?_, rfl⟩
    · simp only [Isa.effect, hst.readXSP h.2.2, hst.x rt h.1, hst.x rt2 h.2.1]
      exact ((hst.write _ 8 _).write _ 8 _).setXSP rn _
    · have hlo : ¬ InRange (t.readXSP rn + off) 8 a :=
        fun hin => hacc a (inRange_pair (.inl hin)) ha
      have hhi : ¬ InRange (t.readXSP rn + off + 8) 8 a := fun hin =>
        hacc a (inRange_pair (.inr hin)) ha
      have hmem : (isa.effect (.stpPre rt rt2 rn off) t).mem =
          (t.mem.write (t.readXSP rn + off) 8 (t.readX rt)).write (t.readXSP rn + off + 8) 8
            (t.readX rt2) := Cpu.mem_setXSP (t.setMem _) _ rn
      rw [hmem, Mem.write_of_not_inRange hhi, Mem.write_of_not_inRange hlo]
  | ldpPost rt rt2 rn off =>
    simp only [Isa.Access, hst.readXSP h.2.2] at hacc
    have hlo : s.mem.read (t.readXSP rn) 8 = t.mem.read (t.readXSP rn) 8 :=
      hst.read (by omega) fun x hx => hacc x (inRange_pair (.inl hx))
    have hhi : s.mem.read (t.readXSP rn + 8) 8 = t.mem.read (t.readXSP rn + 8) 8 :=
      hst.read (by omega) fun x hx => hacc x (inRange_pair (.inr hx))
    refine ⟨?_, fun a _ => congrFun (Cpu.mem_setXSP ((t.setX rt _).setX rt2 _) _ rn) a, rfl⟩
    simp only [Isa.effect, hst.readXSP h.2.2, hlo, hhi]
    exact ((hst.setX rt _).setX rt2 _).setXSP rn _
  | _ => exact absurd h (by simp [Insn.Avoids])

/-! ## What an instruction takes from the program counter and from a register -/

/-- The effect of the instruction depends on the program counter. -/
def Insn.usesPc : Insn → Bool
  | .bl _ | .blr _ | .adr _ _ | .adrp _ _ => true
  | .ldrLit kind _ _ => kind ≠ .prfm
  | _ => false

open Pattern in
/-- The patterns of the instructions whose effect depends on the program counter. -/
def pcPatterns : List Pattern :=
  [bl, blr, adr, adrp, ldrLit 0x18000000 .w, ldrLit 0x58000000 .x, ldrLit 0x98000000 .sw,
    ldrLit 0x1C000000 .s, ldrLit 0x5C000000 .d, ldrLit 0x9C000000 .q]

theorem exists_pcPattern {w : Word} (h : (decode w).usesPc = true) :
    ∃ p ∈ pcPatterns, p.Matches w := by
  have hpatterns : ∀ p ∈ patterns, p ∈ pcPatterns ∨ (p.build w).usesPc = false := by
    unfold patterns
    repeat' (rw [List.forall_mem_cons]; constructor)
    all_goals first
      | exact .inr rfl
      | exact .inl (by simp [pcPatterns])
      | exact fun p hp => absurd hp (by simp)
  rcases decode_cases w with ⟨p, hp, hm, hd⟩ | ⟨-, hd⟩
  · rw [hd] at h
    rcases hpatterns p hp with hpc | hnot
    · exact ⟨p, hpc, hm⟩
    · exact absurd h (by simp [hnot])
  · rw [hd] at h
    exact absurd h (by simp [Insn.usesPc])

/-- The instructions left to a parameter do not depend on the program counter: those that do are all
decoded. -/
def Isa.PcBlind (isa : Isa) : Prop := ∀ w s a, isa.other w (s.setPc a) = (isa.other w s).setPc a

section Reads

variable {isa : Isa} {i : Insn} {s : Cpu} {r : ℕ}

theorem Cpu.setXSP_setPc (s : Cpu) (n : ℕ) (val : BitVec 64) (a : Addr) :
    (s.setPc a).setXSP n val = (s.setXSP n val).setPc a := by
  unfold Cpu.setXSP
  split_ifs <;> rfl

theorem Cpu.readXSP_setPc (s : Cpu) (n : ℕ) (a : Addr) : (s.setPc a).readXSP n = s.readXSP n := rfl

/-- An instruction that does not use the program counter has the same effect at every address. -/
theorem effect_setPc (hisa : isa.PcBlind) (h : i.usesPc = false) (s : Cpu) (a : Addr) :
    isa.effect i (s.setPc a) = (isa.effect i s).setPc a := by
  cases i with
  | bl | blr | adr | adrp => exact absurd h (by simp [Insn.usesPc])
  | ldrLit kind rt off =>
    obtain rfl : kind = .prfm := by simpa [Insn.usesPc] using h
    rfl
  | other w => exact hisa w s a
  | addImm | subImm => simp only [Isa.effect, Cpu.readXSP_setPc, ← Cpu.setXSP_setPc]
  | stpPre rt rt2 rn off => exact Cpu.setXSP_setPc (s.setMem _) rn _ a
  | ldpPost rt rt2 rn off =>
    have hload : ∀ u : Cpu, isa.effect (.ldpPost rt rt2 rn off) u =
        ((u.setX rt (u.mem.read (u.readXSP rn) 8)).setX rt2
          (u.mem.read (u.readXSP rn + 8) 8)).setXSP rn
          (u.readXSP rn + off) := fun _ => rfl
    rw [hload, hload, ← Cpu.setXSP_setPc, Cpu.readXSP_setPc, Cpu.mem_setPc, Cpu.setX_setPc,
      Cpu.setX_setPc]
  | _ => rfl

/-- The effect of the instruction depends on the register: changing the register beforehand neither
leaves the result as it was, nor changes the register alone. -/
def Isa.Reads (isa : Isa) (r : ℕ) (i : Insn) (s : Cpu) : Prop :=
  ¬ ((∀ v, isa.effect i (s.setX r v) = isa.effect i s) ∨
    ∀ v, isa.effect i (s.setX r v) = (isa.effect i s).setX r v)

/-- The register of an instruction that does not read it may be changed beforehand. -/
theorem effect_setX_of_not_reads (hr : r < 31) (h : ¬ isa.Reads r i s) (v : BitVec 64) :
    isa.effect i (s.setX r v) = (isa.effect i s).setX r ((isa.effect i (s.setX r v)).readX r) := by
  rcases not_not.mp h with hlost | hkept
  · rw [hlost v, Cpu.setX_readX _ _ hr]
  · rw [hkept v, Cpu.readX_setX_same _ _ _ hr]

end Reads

/-! ## Running a block to its first branch -/

section BlockExit

variable (isa : Isa)

/-- The state after the first branch that is taken, or after the last word. -/
def blockExit : List Word → Cpu → Cpu
  | [], s => s
  | w :: ws, s =>
    match branchTarget (decode w) s with
    | some _ => isa.exec (decode w) s
    | none => blockExit ws (isa.exec (decode w) s)

/-- The word whose branch is taken, if one is. -/
def exitWord : List Word → Cpu → Option Word
  | [], _ => none
  | w :: ws, s =>
    match branchTarget (decode w) s with
    | some _ => some w
    | none => exitWord ws (isa.exec (decode w) s)

/-- No word that is executed before the exit accesses the region. -/
def Clear (R : Addr → Prop) : List Word → Cpu → Prop
  | [], _ => True
  | w :: ws, s =>
    (∀ a, isa.Access (decode w) s a → ¬ R a) ∧
      (branchTarget (decode w) s = none → Clear R ws (isa.exec (decode w) s))

variable {isa} {P : Program} {w : Word} {ws : List Word} {s : Cpu}

theorem blockExit_cons_some {a : Addr} (h : branchTarget (decode w) s = some a) :
    blockExit isa (w :: ws) s = isa.exec (decode w) s := by
  rw [blockExit, h]

theorem blockExit_cons_none (h : branchTarget (decode w) s = none) :
    blockExit isa (w :: ws) s = blockExit isa ws (isa.exec (decode w) s) := by
  rw [blockExit, h]

theorem exitWord_cons_some {a : Addr} (h : branchTarget (decode w) s = some a) :
    exitWord isa (w :: ws) s = some w := by
  rw [exitWord, h]

theorem exitWord_cons_none (h : branchTarget (decode w) s = none) :
    exitWord isa (w :: ws) s = exitWord isa ws (isa.exec (decode w) s) := by
  rw [exitWord, h]

/-- The words of a block run to its exit. -/
theorem reaches_blockExit (isa : Isa) (hP : P.Has s.pc ws) :
    Reaches P isa s (blockExit isa ws s) := by
  induction ws generalizing s with
  | nil => exact Reaches.refl P isa s
  | cons w ws ih =>
    refine Reaches.head hP.1 ?_
    cases h : branchTarget (decode w) s with
    | some a =>
      rw [blockExit_cons_some h]
      exact Reaches.refl P isa _
    | none =>
      rw [blockExit_cons_none h]
      refine ih ?_
      rw [pc_exec, h]
      exact hP.2

end BlockExit

end A64
end CalvinHook
