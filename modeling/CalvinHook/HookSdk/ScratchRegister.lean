import CalvinHook.HookSdk.LiteralLoads

/-!
# What the copy does to `X17`

Every rewritten instruction and the branch back go through `X17`, so the copy of a block arrives at
the code after it with the address of that code in `X17`, whatever the block left there; and a word
that is copied as it is may find in `X17` what an earlier word of the copy put there.

The copy of a block without branches runs through the states `copyState`, the original through
`origState`.  They differ in `X17` at most (`copyState_succ_eq`), and `x17After` follows its value
in the copy.  `X17Kept` walks along the block and compares it with the original's wherever a word
reads it, and at the end.

* `copy_step`: one instruction of the copy, as the effect of the original with `X17` changed before
  it.
* `copyArrival_eq`: the branch back.
* `keepsRegisters_iff`: in which states the copy is transparent.
-/

namespace CalvinHook
namespace Arm64

open A64

/-! ## The words of a block without branches -/

section Straight

variable {w : Word}

/-- A word that does not branch computes an address, loads a literal or is copied as it is. -/
theorem straight_cases (h : (decode w).isBranch = false) :
    isADR w = true ∨ isADRP w = true ∨ isLdrLiteral w = true ∨ isPcRelative w = false := by
  have hnot : ∀ p ∈ patterns, (p.build w).isBranch = true →
      ((w &&& p.mask) == p.value) = false := by
    intro p hp hb
    rw [beq_eq_false_iff_ne]
    intro hm
    rw [decode_of_mem hp hm, hb] at h
    exact absurd h (by simp)
  have hB : isB w = false := hnot Pattern.b (by simp [patterns]) rfl
  have hBL : isBL w = false := hnot Pattern.bl (by simp [patterns]) rfl
  have hC : isBCond w = false := hnot Pattern.bCond (by simp [patterns]) rfl
  have hZ : isCBZ w = false := hnot Pattern.cbz (by simp [patterns]) rfl
  have hNZ : isCBNZ w = false := hnot Pattern.cbnz (by simp [patterns]) rfl
  have hT : isTBZ w = false := hnot Pattern.tbz (by simp [patterns]) rfl
  have hNT : isTBNZ w = false := hnot Pattern.tbnz (by simp [patterns]) rfl
  simp only [isPcRelative, hB, hBL, hC, hZ, hNZ, hT, hNT, Bool.false_or, Bool.or_eq_false_iff]
  cases isADR w <;> cases isADRP w <;> cases isLdrLiteral w <;> simp

/-- A literal load of the decoder is accepted by `IsLdrLiteral`. -/
theorem litKind_of_matches {top : Word} {kind : LitKind} (h : (Pattern.ldrLit top kind).Matches w)
    (htop : top &&& 0x3B000000 = 0x18000000)
    (hkind : litKindOf (top.extractLsb' 26 1) (top.extractLsb' 30 2) = some kind) :
    isLdrLiteral w = true ∧ litKind w = some kind := by
  have h' : w &&& 0xFF000000 = top := h
  refine ⟨beq_iff_eq.mpr (((top_byte h').1).trans htop), ?_⟩
  have hfile : w.extractLsb' 26 1 = top.extractLsb' 26 1 := by
    rw [← h']
    refine BitVec.eq_of_getLsbD_eq fun i hi => ?_
    interval_cases i
    simp
  rw [litKind, hfile, (top_byte h').2, hkind]

/-- A word that does not branch, computes no address and loads no literal does not use the program
counter. -/
theorem usesPc_eq_false (hs : (decode w).isBranch = false) (hadr : isADR w = false)
    (hadrp : isADRP w = false) (hlit : ¬ (isLdrLiteral w = true ∧ ∃ kind, litKind w = some kind)) :
    (decode w).usesPc = false := by
  by_contra huses
  obtain ⟨p, hp, hm⟩ := exists_pcPattern (Bool.not_eq_false _ ▸ huses)
  have hload : ∀ {top kind}, (Pattern.ldrLit top kind).Matches w → top &&& 0x3B000000 = 0x18000000 →
      litKindOf (top.extractLsb' 26 1) (top.extractLsb' 30 2) = some kind → False := by
    intro top kind hm htop hkind
    obtain ⟨h1, h2⟩ := litKind_of_matches hm htop hkind
    exact hlit ⟨h1, kind, h2⟩
  simp only [pcPatterns, List.mem_cons, List.not_mem_nil, or_false] at hp
  rcases hp with rfl | rfl | rfl | rfl | rfl | rfl | rfl | rfl | rfl | rfl
  · rw [decode_of_mem (p := Pattern.bl) (by simp [patterns]) hm] at hs
    exact absurd hs (by simp [Pattern.bl, Insn.isBranch])
  · rw [decode_of_mem (p := Pattern.blr) (by simp [patterns]) hm] at hs
    exact absurd hs (by simp [Pattern.blr, Insn.isBranch])
  · have h : isADR w = true := beq_iff_eq.mpr hm
    exact absurd h (by simp [hadr])
  · have h : isADRP w = true := beq_iff_eq.mpr hm
    exact absurd h (by simp [hadrp])
  all_goals exact hload hm (by decide) (by decide)

end Straight

/-! ## One instruction -/

/-- The address that the copy of an instruction puts into `X17` first. -/
def addressOf (i : Insn) (pc : Addr) : Option Addr :=
  match i with
  | .adr _ off => some (pc + off)
  | .adrp _ off => some ((pc &&& ~~~0xFFF#64) + off)
  | .ldrLit .w _ off | .ldrLit .x _ off => some (pc + off)
  | _ => none

/-- The literal loads of the word, if it is one, are among those whose copies are always
faithful. -/
def PlainLoad (w : Word) : Prop :=
  ∀ kind rt off, decode w = .ldrLit kind rt off → kind = .w ∨ kind = .x ∨ kind = .prfm

section Step

variable {isa : Isa} {m : Mem} {src dst : Addr} {n i : ℕ} {s : Cpu} {w : Word} {x : BitVec 64}
  {q : Addr}

/-- The state of the original with another value in `X17`, at the place of the copy. -/
def shifted (s : Cpu) (x : BitVec 64) (q : Addr) : Cpu := (s.setX 17 x).setPc q

theorem setX_shifted (v : BitVec 64) : (shifted s x q).setX 17 v = shifted s v q := by
  rw [shifted, Cpu.setX_setPc, Cpu.setX_setX, shifted]

/-- The copy of a word that is copied as it is. -/
theorem copy_step_keep (hisa : isa.PcBlind) (h : AtCopy m src n dst i (shifted s x q))
    (hw : (wordsAt m src n)[i]? = some w) (hs : (decode w).isBranch = false)
    (hfrag : relocFragment (wordAddr src i) w = ⟨[w], []⟩) (huses : (decode w).usesPc = false) :
    blockExit isa (copyWords m src n i) (shifted s x q) =
      (isa.effect (decode w) (s.setX 17 x)).setPc
        (wordAddr dst (emittedBefore m src n (i + 1))) := by
  rw [copyWords_keep h hw hfrag, h.next hw, hfrag, blockExit_singleton, exec_of_not_isBranch isa hs]
  nth_rewrite 1 [shifted]
  rw [effect_setPc hisa huses, Cpu.setPc_setPc]
  rfl

/-- The copy of an instruction that computes an address. -/
theorem copy_step_address {v : BitVec 64} (h : AtCopy m src n dst i (shifted s x q))
    (hw : (wordsAt m src n)[i]? = some w)
    (hfrag : relocFragment (wordAddr src i) w = ⟨[kLdrX17, movFromX17 (getRd w)], [(0, v)]⟩)
    (heff : isa.effect (decode w) (s.setX 17 v) = (s.setX 17 v).setX (regAt w 0) v) :
    blockExit isa (copyWords m src n i) (shifted s x q) =
      (isa.effect (decode w) (s.setX 17 v)).setPc
        (wordAddr dst (emittedBefore m src n (i + 1))) := by
  obtain ⟨u, hcopy, hu⟩ := copyWords_load h hw hfrag
  rw [hcopy, blockExit_address isa hu, h.next hw, hfrag, setX_shifted, heff]
  rfl

/-- A literal load through `X17`. -/
theorem copy_step_load (h : AtCopy m src n dst i (shifted s x q))
    (hw : (wordsAt m src n)[i]? = some w) (hpc : s.pc = wordAddr src i) (hload : PlainLoad w)
    (hlit : isLdrLiteral w = true) {kind : LitKind} (hk : litKind w = some kind) :
    blockExit isa (copyWords m src n i) (shifted s x q) =
      (isa.effect (decode w) (s.setX 17 ((addressOf (decode w) s.pc).getD x))).setPc
        (wordAddr dst (emittedBefore m src n (i + 1))) := by
  have hd := decode_ldrLit hlit hk
  rw [blockExit_ldrLit isa h hw hlit hk]
  rcases hload kind _ _ hd with rfl | rfl | rfl
  · rw [copyOfLoad, setX_shifted, hd, addressOf, hpc, Option.getD_some, Isa.effect, loadLit,
      Cpu.pc_setX, hpc]
    rfl
  · rw [copyOfLoad, setX_shifted, hd, addressOf, hpc, Option.getD_some, Isa.effect, loadLit,
      Cpu.pc_setX, hpc]
    rfl
  · have hnone : addressOf (decode w) s.pc = none := by
      rw [hd]
      rfl
    rw [hnone, hd]
    rfl

theorem addressOf_eq_none {ins : Insn} (h : ins.usesPc = false) (pc : Addr) :
    addressOf ins pc = none := by
  cases ins with
  | adr | adrp => exact absurd h (by simp [Insn.usesPc])
  | ldrLit kind rt off =>
    obtain rfl : kind = .prfm := by simpa [Insn.usesPc] using h
    rfl
  | _ => rfl

/-- **One instruction of the copy** does what the original does after the address has been put into
`X17`. -/
theorem copy_step (hisa : isa.PcBlind) (h : AtCopy m src n dst i (shifted s x q))
    (hw : (wordsAt m src n)[i]? = some w) (hpc : s.pc = wordAddr src i)
    (hs : (decode w).isBranch = false) (hload : PlainLoad w) :
    blockExit isa (copyWords m src n i) (shifted s x q) =
      (isa.effect (decode w) (s.setX 17 ((addressOf (decode w) s.pc).getD x))).setPc
        (wordAddr dst (emittedBefore m src n (i + 1))) := by
  by_cases hadr : isADR w = true
  · have hd : decode w = .adr (regAt w 0) (imm21 w) :=
      decode_of_mem (p := Pattern.adr) (by simp [patterns]) (eq_of_beq hadr)
    rw [copy_step_address h hw (relocFragment_adr _ hadr)
      (by rw [hd, Isa.effect, Cpu.pc_setX, hpc]), hd, addressOf, hpc]
    rfl
  by_cases hadrp : isADRP w = true
  · have hd : decode w = .adrp (regAt w 0) (imm21 w * 4096) :=
      decode_of_mem (p := Pattern.adrp) (by simp [patterns]) (eq_of_beq hadrp)
    rw [copy_step_address h hw (relocFragment_adrp _ hadrp)
      (by rw [hd, Isa.effect, Cpu.pc_setX, hpc]), hd, addressOf, hpc]
    rfl
  rw [Bool.not_eq_true] at hadr hadrp
  by_cases hl : isLdrLiteral w = true ∧ ∃ kind, litKind w = some kind
  · obtain ⟨hlit, kind, hk⟩ := hl
    exact copy_step_load h hw hpc hload hlit hk
  · have huses := usesPc_eq_false hs hadr hadrp hl
    have hfrag : relocFragment (wordAddr src i) w = ⟨[w], []⟩ := by
      rcases straight_cases hs with h' | h' | hlit | hrel
      · exact absurd h' (by simp [hadr])
      · exact absurd h' (by simp [hadrp])
      · have hk : litKind w = none :=
          Option.eq_none_iff_forall_ne_some.mpr fun kind hk => hl ⟨hlit, kind, hk⟩
        exact relocFragment_unallocated _ hlit hk
      · exact relocFragment_other _ hrel
    rw [addressOf_eq_none huses, Option.getD_none]
    exact copy_step_keep hisa h hw hs hfrag huses

end Step

/-! ## The two runs -/

section Run

variable (isa : Isa) (m : Mem) (src : Addr) (n : ℕ) (t : Cpu)

/-- The state of the copy when it comes to instruction `i`. -/
def copyState : ℕ → Cpu
  | 0 => t
  | i + 1 => blockExit isa (copyWords m src n i) (copyState i)

/-- The state of the original when it comes to instruction `i`. -/
def origState (i : ℕ) : Cpu := execWords isa ((wordsAt m src n).take i) (t.setPc src)

/-- The words of the branch back. -/
def backWords : List Word := ((copyBuffer m src n).drop (emittedBefore m src n n)).take 2

/-- The state in which the copy arrives at the code after the block. -/
def copyArrival : Cpu := blockExit isa (backWords m src n) (copyState isa m src n t n)

/-- The run of the copy leaves the buffer alone. -/
def Intact (dst : Addr) : Prop :=
  ∀ i ≤ n, Holds (copyState isa m src n t i).mem dst (copyBuffer m src n)

variable {isa m src n t} {dst : Addr} {i : ℕ} {w : Word}

/-- The copy of a word that does not branch runs on into the next one, and changes the memory only
if the word does. -/
theorem blockExit_copyWords (isa : Isa) (h : AtCopy m src n dst i t)
    (hw : (wordsAt m src n)[i]? = some w) (hs : (decode w).isBranch = false) :
    (blockExit isa (copyWords m src n i) t).pc = wordAddr dst (emittedBefore m src n (i + 1)) ∧
      ((∀ s, (isa.effect (decode w) s).mem = s.mem) →
        (blockExit isa (copyWords m src n i) t).mem = t.mem) := by
  have hkeep : relocFragment (wordAddr src i) w = ⟨[w], []⟩ →
      (blockExit isa (copyWords m src n i) t).pc = wordAddr dst (emittedBefore m src n (i + 1)) ∧
        ((∀ s, (isa.effect (decode w) s).mem = s.mem) →
          (blockExit isa (copyWords m src n i) t).mem = t.mem) := by
    intro hfrag
    rw [copyWords_keep h hw hfrag, h.next hw, hfrag, blockExit_singleton,
      exec_of_not_isBranch isa hs]
    exact ⟨rfl, fun hmem => hmem t⟩
  have haddress : ∀ v,
      relocFragment (wordAddr src i) w = ⟨[kLdrX17, movFromX17 (getRd w)], [(0, v)]⟩ →
      (blockExit isa (copyWords m src n i) t).pc = wordAddr dst (emittedBefore m src n (i + 1)) ∧
        (blockExit isa (copyWords m src n i) t).mem = t.mem := by
    intro v hfrag
    obtain ⟨u, hcopy, hu⟩ := copyWords_load h hw hfrag
    rw [hcopy, blockExit_address isa hu, h.next hw, hfrag]
    exact ⟨rfl, rfl⟩
  rcases straight_cases hs with hadr | hadrp | hlit | hrel
  · obtain ⟨hpc, hmem⟩ := haddress _ (relocFragment_adr _ hadr)
    exact ⟨hpc, fun _ => hmem⟩
  · obtain ⟨hpc, hmem⟩ := haddress _ (relocFragment_adrp _ hadrp)
    exact ⟨hpc, fun _ => hmem⟩
  · cases hk : litKind w with
    | none => exact hkeep (relocFragment_unallocated _ hlit hk)
    | some kind =>
      rw [blockExit_ldrLit isa h hw hlit hk]
      refine ⟨rfl, fun _ => ?_⟩
      cases kind <;> rfl
  · exact hkeep (relocFragment_other _ hrel)

/-- The copy runs through its instructions in order. -/
theorem atCopy_copyState (h : AtCopy m src n dst 0 t) (hs : Straight (wordsAt m src n))
    (hin : Intact isa m src n t dst) (hi : i ≤ n) :
    AtCopy m src n dst i (copyState isa m src n t i) := by
  induction i with
  | zero => exact h
  | succ i ih =>
    have hat := ih (by omega)
    have hlt : i < (wordsAt m src n).length := by
      rw [length_wordsAt]
      omega
    have hw := List.getElem?_eq_getElem hlt
    exact ⟨h.pos, h.reach, hin (i + 1) hi,
      (blockExit_copyWords isa hat hw (hs _ (List.getElem_mem hlt))).1⟩

/-- The copy of a block that writes no memory leaves the buffer alone. -/
theorem intact_of_mem (h : AtCopy m src n dst 0 t) (hs : Straight (wordsAt m src n))
    (hmem : ∀ w ∈ wordsAt m src n, ∀ s, (isa.effect (decode w) s).mem = s.mem) :
    Intact isa m src n t dst := by
  have hrun : ∀ i ≤ n, AtCopy m src n dst i (copyState isa m src n t i) ∧
      (copyState isa m src n t i).mem = t.mem := by
    intro i hi
    induction i with
    | zero => exact ⟨h, rfl⟩
    | succ i ih =>
      obtain ⟨hat, hsame⟩ := ih (by omega)
      have hlt : i < (wordsAt m src n).length := by
        rw [length_wordsAt]
        omega
      have hel := List.getElem_mem hlt
      obtain ⟨hpc, hstep⟩ := blockExit_copyWords isa hat (List.getElem?_eq_getElem hlt) (hs _ hel)
      have hsame' : (copyState isa m src n t (i + 1)).mem = t.mem :=
        (hstep (hmem _ hel)).trans hsame
      refine ⟨⟨h.pos, h.reach, ?_, hpc⟩, hsame'⟩
      rw [hsame']
      exact h.holds
  intro i hi
  exact (hrun i hi).1.holds

/-- The words of the branch back. -/
theorem backWords_eq (h : AtCopy m src n dst n t) :
    ∃ u, backWords m src n = [u, brX17] ∧ LoadsX17 t (wordAddr src n) u := by
  have hsplit : blockFragment src (wordsAt m src n) =
      (codeFragment src ((wordsAt m src n).take n)).append (backFragment (wordAddr src n)) := by
    have hall : (wordsAt m src n).take n = wordsAt m src n :=
      List.take_of_length_le (by rw [length_wordsAt])
    rw [hall, blockFragment_eq_append, length_wordsAt]
  have hp := h.placed_block
  rw [hsplit] at hp
  have hback := hp.right (wf_codeFragment _ _)
  have hpc : t.pc = dst + BitVec.ofNat 64 (4 * emittedBefore m src n n) := h.pc
  rw [← emittedBefore_eq, ← hpc] at hback
  have hle : emittedBefore m src n n + 2 ≤ (copyBuffer m src n).length := by
    rw [copyBuffer_eq h.pos, Fragment.length_final, Assembler.paddedLength, hsplit,
      emittedBefore_eq]
    simp only [Fragment.append, backFragment, List.length_append, List.length_cons, List.length_nil]
    omega
  refine eq_load_of_placed hback (h.has_take 2) ?_
  rw [backWords, List.length_take, List.length_drop]
  omega

/-- **The branch back** leaves its target in `X17`. -/
theorem copyArrival_eq (h : AtCopy m src n dst n (copyState isa m src n t n)) :
    copyArrival isa m src n t =
      ((copyState isa m src n t n).setX 17 (wordAddr src n)).setPc (wordAddr src n) := by
  obtain ⟨u, hback, hu⟩ := backWords_eq h
  rw [copyArrival, hback, blockExit_longBranch isa hu]

/-- The copy, run from its first word, does arrive there. -/
theorem reaches_copyArrival (h : AtCopy m src n dst 0 t) (hs : Straight (wordsAt m src n))
    (hin : Intact isa m src n t dst) :
    Reaches (copyProgram m src n dst) isa t (copyArrival isa m src n t) := by
  have hrun : ∀ i ≤ n, Reaches (copyProgram m src n dst) isa t (copyState isa m src n t i) := by
    intro i hi
    induction i with
    | zero => exact Reaches.refl _ _ _
    | succ i ih =>
      have hat := atCopy_copyState h hs hin (i := i) (by omega)
      exact (ih (by omega)).trans (reaches_blockExit isa hat.has)
  have hat := atCopy_copyState h hs hin le_rfl
  exact (hrun n le_rfl).trans (reaches_blockExit isa (hat.has_take 2))

theorem origState_zero : origState isa m src n t 0 = t.setPc src := rfl

theorem origState_succ (hw : (wordsAt m src n)[i]? = some w) :
    origState isa m src n t (i + 1) = isa.exec (decode w) (origState isa m src n t i) := by
  rw [origState, List.take_add_one, hw, Option.toList_some, execWords_append]
  rfl

theorem pc_origState (isa : Isa) (t : Cpu) (hs : Straight (wordsAt m src n)) (hi : i ≤ n) :
    (origState isa m src n t i).pc = wordAddr src i := by
  have htake : Straight ((wordsAt m src n).take i) := fun w hw => hs w (List.mem_of_mem_take hw)
  rw [origState, pc_execWords htake, length_take_wordsAt hi]
  rfl

end Run

/-! ## Following `X17` -/

/-- What the copy of an instruction leaves in `X17`, if `x` is there before. -/
def x17After (isa : Isa) (i : Insn) (s : Cpu) (x : BitVec 64) : BitVec 64 :=
  (isa.effect i (s.setX 17 ((addressOf i s.pc).getD x))).readX 17

/-- Along the run of the original from `s`, with `x` in the `X17` of the copy: an instruction that
reads `X17` finds in the copy what the original has there, and at the end the original has there the
address it has come to. -/
def X17Kept (isa : Isa) : List Word → Cpu → BitVec 64 → Prop
  | [], s, _ => s.readX 17 = s.pc
  | w :: ws, s, x =>
    (isa.Reads 17 (decode w) s → x = s.readX 17) ∧
      X17Kept isa ws (isa.exec (decode w) s) (x17After isa (decode w) s x)

/-- The copy is transparent: on arrival after the block all registers are as the original leaves
them, and every word that is copied as it is and reads `X17` reads what the original does. -/
structure KeepsRegisters (isa : Isa) (m : Mem) (src : Addr) (n : ℕ) (t : Cpu) : Prop where
  arrival : Agree (fun _ => False) (fun _ => True) (origState isa m src n t n)
    (copyArrival isa m src n t)
  reads : ∀ i w, (wordsAt m src n)[i]? = some w → relocFragment (wordAddr src i) w = ⟨[w], []⟩ →
    isa.Reads 17 (decode w) (origState isa m src n t i) →
      (copyState isa m src n t i).readX 17 = (origState isa m src n t i).readX 17

section Follow

variable {isa : Isa} {m : Mem} {src dst : Addr} {n i : ℕ} {t s : Cpu} {w : Word} {x : BitVec 64}

/-- An instruction that sets a register to a value that does not depend on `X17` does not read
it. -/
theorem not_reads_setX {i : Insn} {r : ℕ} {f : Cpu → BitVec 64}
    (heff : ∀ u, isa.effect i u = u.setX r (f u)) (hf : ∀ v, f (s.setX 17 v) = f s) :
    ¬ isa.Reads 17 i s := by
  rw [Isa.Reads, not_not]
  by_cases hr : r = 17
  · subst hr
    refine .inl fun v => ?_
    rw [heff, heff, hf, Cpu.setX_setX]
  · refine .inr fun v => ?_
    rw [heff, heff, hf, Cpu.setX_comm _ hr]

/-- The instructions whose copy puts an address into `X17` do not read it. -/
theorem not_reads_of_addressOf {i : Insn} {a : Addr} (h : addressOf i s.pc = some a) :
    ¬ isa.Reads 17 i s := by
  cases i with
  | adr rd off => exact not_reads_setX (f := fun u => u.pc + off) (fun _ => rfl) fun _ => rfl
  | adrp rd off =>
    exact not_reads_setX (f := fun u => (u.pc &&& ~~~0xFFF#64) + off) (fun _ => rfl) fun _ => rfl
  | ldrLit kind rt off =>
    cases kind with
    | w =>
      exact not_reads_setX (f := fun u => (u.mem.read (u.pc + off) 4 : BitVec 32).setWidth 64)
        (fun _ => rfl) fun _ => rfl
    | x =>
      exact not_reads_setX (f := fun u => u.mem.read (u.pc + off) 8) (fun _ => rfl) fun _ => rfl
    | _ => exact absurd h (by simp [addressOf])
  | _ => exact absurd h (by simp [addressOf])

/-- The effect in the copy is the effect of the original, with `X17` changed. -/
theorem effect_setX_address {i : Insn} (hread : isa.Reads 17 i s → x = s.readX 17) :
    isa.effect i (s.setX 17 ((addressOf i s.pc).getD x)) =
      (isa.effect i s).setX 17 (x17After isa i s x) := by
  by_cases hr : isa.Reads 17 i s
  · have hnone : addressOf i s.pc = none := by
      cases ha : addressOf i s.pc with
      | none => rfl
      | some a => exact absurd hr (not_reads_of_addressOf ha)
    rw [x17After, hnone, Option.getD_none, hread hr, Cpu.setX_readX _ _ (by omega),
      Cpu.setX_readX _ _ (by omega)]
  · exact effect_setX_of_not_reads (by omega) hr _

/-- One step of the two runs. -/
theorem copyState_succ_eq {q : Addr} (hisa : isa.PcBlind)
    (hat : AtCopy m src n dst i (copyState isa m src n t i))
    (hw : (wordsAt m src n)[i]? = some w) (hpc : (origState isa m src n t i).pc = wordAddr src i)
    (hs : (decode w).isBranch = false) (hload : PlainLoad w)
    (hst : copyState isa m src n t i = shifted (origState isa m src n t i) x q)
    (hread : isa.Reads 17 (decode w) (origState isa m src n t i) →
      x = (origState isa m src n t i).readX 17) :
    copyState isa m src n t (i + 1) = shifted (origState isa m src n t (i + 1))
      (x17After isa (decode w) (origState isa m src n t i) x)
        (wordAddr dst (emittedBefore m src n (i + 1))) := by
  rw [copyState, hst]
  rw [hst] at hat
  rw [copy_step hisa hat hw hpc hs hload, effect_setX_address hread, origState_succ hw,
    exec_of_not_isBranch isa hs, shifted, Cpu.setX_setPc, Cpu.setPc_setPc]

/-- What `KeepsRegisters` says from instruction `i` on. -/
def KeepsFrom (isa : Isa) (m : Mem) (src : Addr) (n : ℕ) (t : Cpu) (i : ℕ) : Prop :=
  (∀ j w, i ≤ j → (wordsAt m src n)[j]? = some w → relocFragment (wordAddr src j) w = ⟨[w], []⟩ →
    isa.Reads 17 (decode w) (origState isa m src n t j) →
      (copyState isa m src n t j).readX 17 = (origState isa m src n t j).readX 17) ∧
  Agree (fun _ => False) (fun _ => True) (origState isa m src n t n) (copyArrival isa m src n t)

theorem keepsRegisters_iff_keepsFrom :
    KeepsRegisters isa m src n t ↔ KeepsFrom isa m src n t 0 :=
  ⟨fun h => ⟨fun j w _ => h.reads j w, h.arrival⟩,
    fun h => ⟨h.2, fun i w => h.1 i w (Nat.zero_le i)⟩⟩

/-- A word that reads `X17` is copied as it is. -/
theorem verbatim_of_reads (hs : (decode w).isBranch = false) (hload : PlainLoad w) (p : Addr)
    (hr : isa.Reads 17 (decode w) s) : relocFragment p w = ⟨[w], []⟩ := by
  have hnone : ∀ a, addressOf (decode w) s.pc ≠ some a := fun a ha => not_reads_of_addressOf ha hr
  rcases straight_cases hs with hadr | hadrp | hlit | hrel
  · rw [decode_of_mem (p := Pattern.adr) (by simp [patterns]) (eq_of_beq hadr)] at hnone
    exact absurd rfl (hnone _)
  · rw [decode_of_mem (p := Pattern.adrp) (by simp [patterns]) (eq_of_beq hadrp)] at hnone
    exact absurd rfl (hnone _)
  · cases hk : litKind w with
    | none => exact relocFragment_unallocated p hlit hk
    | some kind =>
      rw [decode_ldrLit hlit hk] at hnone
      rcases hload kind _ _ (decode_ldrLit hlit hk) with rfl | rfl | rfl
      · exact absurd rfl (hnone _)
      · exact absurd rfl (hnone _)
      · rw [relocFragment_ldrLit p hlit, size_of_litKind hk, if_neg (by decide), if_neg (by decide)]
  · exact relocFragment_other p hrel

theorem keepsFrom_step (hw : (wordsAt m src n)[i]? = some w) (hs : (decode w).isBranch = false)
    (hload : PlainLoad w) :
    KeepsFrom isa m src n t i ↔
      (isa.Reads 17 (decode w) (origState isa m src n t i) →
        (copyState isa m src n t i).readX 17 = (origState isa m src n t i).readX 17) ∧
      KeepsFrom isa m src n t (i + 1) := by
  constructor
  · rintro ⟨hreads, harr⟩
    exact ⟨fun hr => hreads i w le_rfl hw (verbatim_of_reads hs hload _ hr) hr,
      fun j w' hj => hreads j w' (by omega), harr⟩
  · rintro ⟨hhead, hreads, harr⟩
    refine ⟨fun j w' hj hw' hfrag hr => ?_, harr⟩
    rcases Nat.eq_or_lt_of_le hj with rfl | hlt
    · obtain rfl : w = w' := Option.some.inj (hw.symm.trans hw')
      exact hhead hr
    · exact hreads j w' hlt hw' hfrag hr

/-- On arrival, when the states differ in `X17` at most. -/
theorem keepsFrom_end {q : Addr} (hs : Straight (wordsAt m src n))
    (hat : AtCopy m src n dst n (copyState isa m src n t n))
    (hst : copyState isa m src n t n = shifted (origState isa m src n t n) x q) :
    KeepsFrom isa m src n t n ↔
      (origState isa m src n t n).readX 17 = (origState isa m src n t n).pc := by
  rw [pc_origState isa t hs le_rfl, KeepsFrom, copyArrival_eq hat, hst, setX_shifted, shifted,
    Cpu.setPc_setPc]
  constructor
  · rintro ⟨-, harr⟩
    have h17 := harr.x 17 id
    rwa [Cpu.readX_setPc, Cpu.readX_setX_same _ _ _ (by omega)] at h17
  · intro h17
    refine ⟨fun j w hj hw => ?_, ?_⟩
    · have hlt := lt_of_wordsAt hw
      omega
    · rw [← h17, Cpu.setX_readX _ _ (by omega)]
      exact ⟨fun _ _ => rfl, rfl, fun _ => rfl, rfl, fun _ h => absurd trivial h⟩

/-- **Following `X17` through the block**, by induction on the instructions that are left. -/
theorem keepsFrom_iff {k : ℕ} {q : Addr} (hisa : isa.PcBlind) (h : AtCopy m src n dst 0 t)
    (hs : Straight (wordsAt m src n)) (hin : Intact isa m src n t dst)
    (hload : ∀ w ∈ wordsAt m src n, PlainLoad w) (hk : i + k = n)
    (hst : copyState isa m src n t i = shifted (origState isa m src n t i) x q) :
    KeepsFrom isa m src n t i ↔
      X17Kept isa ((wordsAt m src n).drop i) (origState isa m src n t i) x := by
  induction k generalizing i x q with
  | zero =>
    obtain rfl : i = n := by omega
    rw [List.drop_of_length_le (by rw [length_wordsAt]), X17Kept]
    exact keepsFrom_end hs (atCopy_copyState h hs hin le_rfl) hst
  | succ k ih =>
    have hlt : i < (wordsAt m src n).length := by
      rw [length_wordsAt]
      omega
    have hmem := List.getElem_mem hlt
    have hw := List.getElem?_eq_getElem hlt
    have hat := atCopy_copyState h hs hin (i := i) (by omega)
    have hpc := pc_origState isa t hs (i := i) (by omega)
    rw [List.drop_eq_getElem_cons hlt, X17Kept, keepsFrom_step hw (hs _ hmem) (hload _ hmem),
      hst, shifted, Cpu.readX_setPc, Cpu.readX_setX_same _ _ _ (by omega), ← origState_succ hw]
    refine and_congr_right fun hread =>
      ih (q := wordAddr dst (emittedBefore m src n (i + 1))) (by omega) ?_
    exact copyState_succ_eq hisa hat hw hpc (hs _ hmem) (hload _ hmem) hst hread

end Follow

section Transparent

variable (isa : Isa) (m : Mem) (src dst : Addr) (n : ℕ) (t : Cpu)

/-- The copy always arrives with the address of the code after the block in `X17`. -/
theorem x17_of_keepsRegisters {isa : Isa} {m : Mem} {src dst : Addr} {n : ℕ} {t : Cpu}
    (h : AtCopy m src n dst 0 t) (hs : Straight (wordsAt m src n)) (hin : Intact isa m src n t dst)
    (hk : KeepsRegisters isa m src n t) :
    (origState isa m src n t n).readX 17 = wordAddr src n := by
  have h17 := hk.arrival.x 17 id
  rwa [copyArrival_eq (atCopy_copyState h hs hin le_rfl), Cpu.readX_setPc,
    Cpu.readX_setX_same _ _ _ (by omega)] at h17

/-- **When the copy is transparent for `X17`.**  For every block without branches, the copy can only
be transparent if the original leaves the address of the code after the block in `X17`.  For blocks
whose literal loads are of the faithful kinds it is transparent exactly if moreover every
instruction that reads `X17` finds there what the original has. -/
theorem keepsRegisters_iff (hisa : isa.PcBlind) (h : AtCopy m src n dst 0 t)
    (hs : Straight (wordsAt m src n)) (hin : Intact isa m src n t dst) :
    (KeepsRegisters isa m src n t → (origState isa m src n t n).readX 17 = wordAddr src n) ∧
      ((∀ w ∈ wordsAt m src n, PlainLoad w) →
        (KeepsRegisters isa m src n t ↔
          X17Kept isa (wordsAt m src n) (t.setPc src) (t.readX 17))) := by
  refine ⟨x17_of_keepsRegisters h hs hin, fun hload => ?_⟩
  rw [keepsRegisters_iff_keepsFrom]
  refine keepsFrom_iff (q := t.pc) hisa h hs hin hload (Nat.zero_add n) ?_
  rw [copyState, origState_zero, shifted, Cpu.setX_setPc, Cpu.setX_readX _ _ (by omega)]
  rfl

end Transparent

/-! ### A stub that loads `X17` -/

/-- `ADRP X16, .+4096; LDR X17, [X16]; ADD X16, X16, #0`, the part of a linkage stub that a patch of
twelve bytes overwrites. -/
def linkageStub : Mem := codeMem 0x10000000 [0xB0000010, 0xF9400211, 0x91000210]

theorem straight_linkageStub : Straight (wordsAt linkageStub 0x10000000 3) := by
  have hwords : wordsAt linkageStub 0x10000000 3 = [0xB0000010, 0xF9400211, 0x91000210] := by decide
  rw [hwords, straight_cons, straight_cons, straight_singleton]
  decide

theorem intact_linkageStub : Intact Isa.bare linkageStub 0x10000000 3
    (copyEntry linkageStub 0x10000000 3 0x30000000) 0x30000000 := by
  refine intact_of_mem (atCopy_copyEntry _ _ _ (by omega) (by omega)) straight_linkageStub ?_
  have hwords : wordsAt linkageStub 0x10000000 3 = [0xB0000010, 0xF9400211, 0x91000210] := by decide
  rw [hwords]
  intro w hw s
  simp only [List.mem_cons, List.not_mem_nil, or_false] at hw
  rcases hw with rfl | rfl | rfl
  · rfl
  · rfl
  · rfl

/-- The copy of the stub arrives with its own return address in `X17`, not with the pointer the stub
loads. -/
theorem linkageStub_not_kept :
    AtCopy linkageStub 0x10000000 3 0x30000000 0 (copyEntry linkageStub 0x10000000 3 0x30000000) ∧
      Straight (wordsAt linkageStub 0x10000000 3) ∧
      Intact Isa.bare linkageStub 0x10000000 3 (copyEntry linkageStub 0x10000000 3 0x30000000)
        0x30000000 ∧
      ¬ KeepsRegisters Isa.bare linkageStub 0x10000000 3
        (copyEntry linkageStub 0x10000000 3 0x30000000) := by
  have hat := atCopy_copyEntry linkageStub 0x10000000 0x30000000 (n := 3) (by omega) (by omega)
  refine ⟨hat, straight_linkageStub, intact_linkageStub, fun hk => ?_⟩
  have h17 := x17_of_keepsRegisters hat straight_linkageStub intact_linkageStub hk
  exact absurd h17 (by decide +kernel)

/-- `ADR X17, .+8; ADD X16, X17, #16`. -/
def adrAdd : Mem := codeMem 0x10000000 [0x10000051, 0x91004230]

/-- The `ADD` reads the address that the `ADR` leaves in `X17`, and it is the one that the branch
back puts there. -/
theorem keepsRegisters_adrAdd :
    Isa.bare.Reads 17 (decode 0x91004230) (origState Isa.bare adrAdd 0x10000000 2
      (copyEntry adrAdd 0x10000000 2 0x30000000) 1) ∧
    KeepsRegisters Isa.bare adrAdd 0x10000000 2 (copyEntry adrAdd 0x10000000 2 0x30000000) := by
  have hat := atCopy_copyEntry adrAdd 0x10000000 0x30000000 (n := 2) (by omega) (by omega)
  have hwords : wordsAt adrAdd 0x10000000 2 = [0x10000051, 0x91004230] := by decide
  have hadr : decode 0x10000051 = .adr 17 8 := rfl
  have hadd : decode 0x91004230 = .addImm 16 17 16 := rfl
  have hs : Straight (wordsAt adrAdd 0x10000000 2) := by
    rw [hwords, straight_cons, straight_singleton]
    decide
  have hin : Intact Isa.bare _ _ _ _ _ := intact_of_mem hat hs (by
    rw [hwords]
    intro w hw s
    simp only [List.mem_cons, List.not_mem_nil, or_false] at hw
    rcases hw with rfl | rfl
    · rfl
    · rfl)
  refine ⟨?_, ((keepsRegisters_iff Isa.bare _ _ _ _ _ (fun _ _ _ => rfl) hat hs hin).2 ?_).mpr ?_⟩
  · -- `X16` follows `X17`
    rintro (h | h)
    · exact absurd (congrArg (Cpu.readX · 16) (h 0)) (by decide +kernel)
    · exact absurd (congrArg (Cpu.readX · 16) (h 0)) (by decide +kernel)
  · rw [hwords]
    intro w hw kind rt off hd
    simp only [List.mem_cons, List.not_mem_nil, or_false] at hw
    rcases hw with rfl | rfl
    · rw [hadr] at hd
      exact absurd hd (by simp)
    · rw [hadd] at hd
      exact absurd hd (by simp)
  · rw [hwords]
    refine ⟨fun hr => absurd hr (not_reads_of_addressOf rfl), fun _ => ?_, ?_⟩
    · decide +kernel
    · rw [X17Kept]
      decide +kernel

end Arm64
end CalvinHook
