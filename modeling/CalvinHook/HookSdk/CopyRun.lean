import CalvinHook.HookSdk.TrampolineRun

/-!
# The words emitted for one instruction

`RelocateInstructions` emits a few words for each instruction and `Finalize` places their literals
behind the code of the whole block.  `copyWords` are the finished words of one instruction, a piece
of the buffer, and `AtCopy` says that a state is about to run them.  Running them to the first
branch that is taken, or to their end, is `blockExit`.

* `copyWords_load`, `copyWords_call`, `copyWords_guarded`, `copyWords_keep`: the shapes of the
  piece, with the placeholder replaced by a load of the literal.
* `relocate_faithful`: the branches other than `B.cond`, and `ADR` and `ADRP`.
* `relocate_bCond_iff`: `B.cond`, where inverting the condition fails for "always".
-/

namespace CalvinHook
namespace Arm64

open A64

/-! ## The piece of the buffer -/

/-- The address of word `i` from `a` on. -/
abbrev wordAddr (a : Addr) (i : ℕ) : Addr := a + BitVec.ofNat 64 (4 * i)

/-- The fragments of the instructions, without the branch back. -/
def codeFragment (pc : Addr) : List Word → Fragment
  | [] => ⟨[], []⟩
  | inst :: insts => (relocFragment pc inst).append (codeFragment (pc + 4) insts)

theorem relocateLoop_eq_add (pc : Addr) (ws : List Word) (a : Assembler) :
    relocateLoop pc ws a = a.add (codeFragment pc ws) := by
  induction ws generalizing pc a with
  | nil => simp [relocateLoop, codeFragment, Assembler.add]
  | cons w ws ih => rw [relocateLoop, ih, relocateOne_eq_add, Assembler.add_add, codeFragment]

theorem wf_codeFragment (pc : Addr) (ws : List Word) : (codeFragment pc ws).WF := by
  induction ws generalizing pc with
  | nil => exact ⟨by simp [codeFragment], by simp [codeFragment]⟩
  | cons w ws ih => exact (relocShape_relocFragment pc w).wf.append (ih (pc + 4))

theorem Fragment.append_assoc (f g h : Fragment) :
    (f.append g).append h = f.append (g.append h) := by
  simp [Fragment.append, List.append_assoc, Nat.add_assoc, Function.comp_def]

theorem Fragment.nil_append (f : Fragment) : (⟨[], []⟩ : Fragment).append f = f := by
  simp [Fragment.append]

theorem add_four_mul_succ (a : Addr) (i : ℕ) :
    a + 4 + BitVec.ofNat 64 (4 * i) = a + BitVec.ofNat 64 (4 * (i + 1)) := by
  rw [Nat.mul_succ, Nat.add_comm, BitVec.ofNat_add, BitVec.add_assoc]
  rfl

theorem codeFragment_append (pc : Addr) (us ws : List Word) :
    codeFragment pc (us ++ ws) =
      (codeFragment pc us).append (codeFragment (pc + BitVec.ofNat 64 (4 * us.length)) ws) := by
  induction us generalizing pc with
  | nil => simp [codeFragment, Fragment.nil_append]
  | cons u us ih =>
    rw [List.cons_append, codeFragment, ih, codeFragment, Fragment.append_assoc, add_four_mul_succ]
    rfl

/-- The branch back, as a fragment. -/
def backFragment (target : Addr) : Fragment := ⟨[kLdrX17, brX17], [(0, target)]⟩

theorem blockFragment_eq_append (pc : Addr) (ws : List Word) :
    blockFragment pc ws =
      (codeFragment pc ws).append (backFragment (pc + BitVec.ofNat 64 (4 * ws.length))) := by
  induction ws generalizing pc with
  | nil => simp [codeFragment, Fragment.nil_append, blockFragment, backFragment]
  | cons w ws ih =>
    rw [blockFragment, ih, codeFragment, Fragment.append_assoc, add_four_mul_succ]
    rfl

section Piece

variable (m : Mem) (src : Addr) (n : ℕ)

/-- The buffer for the `n` instructions at `src`. -/
def copyBuffer : List Word := (relocateInstructions m src (4 * n)).buffer

/-- How many words the loop has emitted when it comes to instruction `i`. -/
def emittedBefore (i : ℕ) : ℕ := (relocateLoop src ((wordsAt m src n).take i) {}).buf.length

/-- The finished words of instruction `i`. -/
def copyWords (i : ℕ) : List Word :=
  ((copyBuffer m src n).drop (emittedBefore m src n i)).take
    (emittedBefore m src n (i + 1) - emittedBefore m src n i)

variable {m src n} {i : ℕ} {w : Word}

theorem emittedBefore_eq : emittedBefore m src n i =
    (codeFragment src ((wordsAt m src n).take i)).words.length := by
  rw [emittedBefore, relocateLoop_eq_add]
  simp [Assembler.add]

theorem copyBuffer_eq (hn : 0 < n) :
    copyBuffer m src n = (blockFragment src (wordsAt m src n)).final := by
  rw [copyBuffer, buffer_relocateInstructions m src hn]

theorem emittedBefore_zero : emittedBefore m src n 0 = 0 := rfl

theorem lt_of_wordsAt (hw : (wordsAt m src n)[i]? = some w) : i < n := by
  have hi := (List.getElem?_eq_some_iff.mp hw).1
  rwa [length_wordsAt] at hi

theorem length_take_wordsAt (h : i ≤ n) : ((wordsAt m src n).take i).length = i := by
  rw [List.length_take, length_wordsAt, min_eq_left h]

theorem codeFragment_succ (hw : (wordsAt m src n)[i]? = some w) :
    codeFragment src ((wordsAt m src n).take (i + 1)) =
      (codeFragment src ((wordsAt m src n).take i)).append
        (relocFragment (wordAddr src i) w) := by
  rw [List.take_add_one, hw, Option.toList_some, codeFragment_append,
    length_take_wordsAt (lt_of_wordsAt hw).le, codeFragment, codeFragment]
  simp [Fragment.append]

theorem emittedBefore_succ (hw : (wordsAt m src n)[i]? = some w) :
    emittedBefore m src n (i + 1) =
      emittedBefore m src n i + (relocFragment (wordAddr src i) w).words.length := by
  rw [emittedBefore_eq, codeFragment_succ hw, emittedBefore_eq, Fragment.append, List.length_append]

/-- The fragment of instruction `i` stands after the words emitted before it. -/
theorem blockFragment_split (hw : (wordsAt m src n)[i]? = some w) :
    ∃ g, blockFragment src (wordsAt m src n) =
      (codeFragment src ((wordsAt m src n).take i)).append
        ((relocFragment (wordAddr src i) w).append g) := by
  have hsplit : wordsAt m src n =
      (wordsAt m src n).take (i + 1) ++ (wordsAt m src n).drop (i + 1) :=
    (List.take_append_drop _ _).symm
  rw [blockFragment_eq_append]
  generalize backFragment _ = back
  rw [hsplit, codeFragment_append, ← hsplit, codeFragment_succ hw, Fragment.append_assoc,
    Fragment.append_assoc]
  exact ⟨_, rfl⟩

end Piece

/-! ## About to run the words of an instruction -/

/-- The state is about to run the words of instruction `i`: the memory holds the buffer for the `n`
instructions at `src`, with the literals in reach of a literal load when there are several, and the
program counter is at these words. -/
structure AtCopy (m : Mem) (src : Addr) (n : ℕ) (dst : Addr) (i : ℕ) (t : Cpu) : Prop where
  pos : 0 < n
  reach : n = 1 ∨ 4 * (copyBuffer m src n).length < 2 ^ 20
  holds : Holds t.mem dst (copyBuffer m src n)
  pc : t.pc = wordAddr dst (emittedBefore m src n i)

section AtCopy

variable {m : Mem} {src dst : Addr} {n i : ℕ} {t : Cpu} {w : Word}

/-- The buffer as a program. -/
def copyProgram (m : Mem) (src : Addr) (n : ℕ) (dst : Addr) : Program :=
  Program.block dst (copyBuffer m src n)

theorem length_copyBuffer_le (m : Mem) (src : Addr) (hn : 0 < n) :
    (copyBuffer m src n).length ≤ 5 * n + 5 := by
  have h := length_blockFragment_le src (wordsAt m src n)
  rw [length_wordsAt] at h
  rw [copyBuffer_eq hn, Fragment.length_final, Assembler.paddedLength]
  omega

/-- The literals of one instruction are always in reach. -/
theorem AtCopy.length_lt (h : AtCopy m src n dst i t) :
    4 * (copyBuffer m src n).length < 2 ^ 20 := by
  rcases h.reach with rfl | hreach
  · have hle := length_copyBuffer_le m src h.pos
    omega
  · exact hreach

theorem AtCopy.placed_block (h : AtCopy m src n dst i t) :
    Placed (copyProgram m src n dst) (InRange dst (4 * (copyBuffer m src n).length)) t.mem dst
      (blockFragment src (wordsAt m src n)) := by
  have hreach := h.length_lt
  have hholds := h.holds
  rw [copyProgram]
  rw [copyBuffer_eq h.pos] at hreach hholds ⊢
  refine placed_final (wf_blockFragment _ _) (by omega) ?_ hholds
  intro j x hj
  have hlt := (List.getElem?_eq_some_iff.mp hj).1
  rw [Program.block_add dst _ (by omega), hj]

/-- The fragment of the instruction is placed where the program counter is. -/
theorem AtCopy.placed (h : AtCopy m src n dst i t) (hw : (wordsAt m src n)[i]? = some w) :
    Placed (copyProgram m src n dst) (InRange dst (4 * (copyBuffer m src n).length)) t.mem t.pc
      (relocFragment (wordAddr src i) w) := by
  obtain ⟨g, hg⟩ := blockFragment_split hw
  have hp := h.placed_block
  rw [hg] at hp
  rw [h.pc, emittedBefore_eq]
  exact (hp.right (wf_codeFragment _ _)).left

theorem length_copyWords (h : AtCopy m src n dst i t) (hw : (wordsAt m src n)[i]? = some w) :
    (copyWords m src n i).length = (relocFragment (wordAddr src i) w).words.length := by
  obtain ⟨g, hg⟩ := blockFragment_split hw
  have hle : emittedBefore m src n (i + 1) ≤ (copyBuffer m src n).length := by
    rw [copyBuffer_eq h.pos, Fragment.length_final, Assembler.paddedLength, hg, emittedBefore_eq,
      codeFragment_succ hw]
    simp only [Fragment.append, List.length_append]
    omega
  have hsucc := emittedBefore_succ hw
  rw [copyWords, List.length_take, List.length_drop]
  omega

/-- The words of the buffer from the program counter on. -/
theorem AtCopy.has_take (h : AtCopy m src n dst i t) (k : ℕ) : (copyProgram m src n dst).Has t.pc
    (((copyBuffer m src n).drop (emittedBefore m src n i)).take k) := by
  have hhas : (copyProgram m src n dst).Has dst (copyBuffer m src n) := by
    refine Program.block_has dst ?_
    have hlt := h.length_lt
    omega
  have hpc : t.pc = dst + BitVec.ofNat 64 (4 * emittedBefore m src n i) := h.pc
  by_cases hle : emittedBefore m src n i ≤ (copyBuffer m src n).length
  · have hlen : ((copyBuffer m src n).take (emittedBefore m src n i)).length =
        emittedBefore m src n i := by
      rw [List.length_take, min_eq_left hle]
    rw [← List.take_append_drop (emittedBefore m src n i) (copyBuffer m src n), Program.has_append,
      hlen, ← hpc] at hhas
    have hrest := hhas.2
    rw [← List.take_append_drop k ((copyBuffer m src n).drop (emittedBefore m src n i)),
      Program.has_append] at hrest
    exact hrest.1
  · rw [List.drop_eq_nil_of_le (by omega), List.take_nil]
    trivial

/-- The words of the instruction stand where the program counter is. -/
theorem AtCopy.has (h : AtCopy m src n dst i t) :
    (copyProgram m src n dst).Has t.pc (copyWords m src n i) := h.has_take _

/-! ## The shapes of the piece -/

/-- A word that loads `v` into `X17` in the state `t`. -/
def LoadsX17 (t : Cpu) (v : BitVec 64) (u : Word) : Prop :=
  ∃ off, decode u = .ldrLit .x 17 off ∧ t.mem.read (t.pc + off) 8 = v

theorem LoadsLit.loadsX17 {Q : Program} {T : Addr → Prop} {v : BitVec 64} {u : Word}
    (h : LoadsLit Q T t.mem t.pc v) (hu : Q t.pc = some u) : LoadsX17 t v u := by
  obtain ⟨x, off, hx, hd, hv, -⟩ := h
  obtain rfl : u = x := Option.some.inj (hu.symm.trans hx)
  exact ⟨off, hd, hv⟩

theorem exec_of_loadsX17 (isa : Isa) {v : BitVec 64} {u : Word} (h : LoadsX17 t v u) :
    isa.exec (decode u) t = (t.setX 17 v).setPc (t.pc + 4) := by
  obtain ⟨off, hd, hv⟩ := h
  rw [hd, ← hv]
  rfl

theorem branchTarget_of_loadsX17 {v : BitVec 64} {u : Word} (h : LoadsX17 t v u) (s : Cpu) :
    branchTarget (decode u) s = none := by
  obtain ⟨off, hd, -⟩ := h
  rw [hd]
  rfl

section Shapes

variable {x y : Word} {v : BitVec 64}

theorem copyWords_keep (h : AtCopy m src n dst i t) (hw : (wordsAt m src n)[i]? = some w)
    (hfrag : relocFragment (wordAddr src i) w = ⟨[x], []⟩) : copyWords m src n i = [x] := by
  have hp := h.placed hw
  have hhas := h.has
  have hlen := length_copyWords h hw
  rw [hfrag] at hp hlen
  obtain ⟨u, hu⟩ := List.length_eq_one_iff.mp hlen
  rw [hu, Program.has_cons] at hhas
  have hx := hp.word_zero (by simp)
  rw [hu, Option.some.inj (hhas.1.symm.trans hx)]

/-- Two words at a place where a literal is loaded and a word follows. -/
theorem eq_load_of_placed {Q : Program} {T : Addr → Prop} {us : List Word}
    (hp : Placed Q T t.mem t.pc ⟨[kLdrX17, x], [(0, v)]⟩) (hhas : Q.Has t.pc us)
    (hlen : us.length = 2) :
    ∃ u, us = [u, x] ∧ LoadsX17 t v u := by
  obtain ⟨u, x', rfl⟩ := List.length_eq_two.mp hlen
  rw [Program.has_cons, Program.has_cons] at hhas
  have hx := hp.word_one (by simp)
  refine ⟨u, ?_, hp.lit_zero.loadsX17 hhas.1⟩
  rw [Option.some.inj (hhas.2.1.symm.trans hx)]

theorem copyWords_load (h : AtCopy m src n dst i t) (hw : (wordsAt m src n)[i]? = some w)
    (hfrag : relocFragment (wordAddr src i) w = ⟨[kLdrX17, x], [(0, v)]⟩) :
    ∃ u, copyWords m src n i = [u, x] ∧ LoadsX17 t v u := by
  have hp := h.placed hw
  have hlen := length_copyWords h hw
  rw [hfrag] at hp hlen
  exact eq_load_of_placed hp h.has hlen

theorem copyWords_call (h : AtCopy m src n dst i t) (hw : (wordsAt m src n)[i]? = some w)
    (hfrag : relocFragment (wordAddr src i) w = ⟨[kLdrX17, x, y], [(0, v)]⟩) :
    ∃ u, copyWords m src n i = [u, x, y] ∧ LoadsX17 t v u := by
  have hp := h.placed hw
  have hhas := h.has
  have hlen := length_copyWords h hw
  rw [hfrag] at hp hlen
  obtain ⟨u, x', y', hu⟩ := List.length_eq_three.mp hlen
  rw [hu, Program.has_cons, Program.has_cons, Program.has_cons, BitVec.add_assoc] at hhas
  have hx := hp.word_one (by simp)
  have hy := hp.word_two (by simp)
  refine ⟨u, ?_, hp.lit_zero.loadsX17 hhas.1⟩
  rw [hu, Option.some.inj (hhas.2.1.symm.trans hx), Option.some.inj (hhas.2.2.1.symm.trans hy)]

theorem copyWords_guarded (h : AtCopy m src n dst i t) (hw : (wordsAt m src n)[i]? = some w)
    (hfrag : relocFragment (wordAddr src i) w = ⟨[x, kLdrX17, y], [(1, v)]⟩) :
    ∃ u, copyWords m src n i = [x, u, y] ∧ LoadsX17 (t.setPc (t.pc + 4)) v u := by
  have hp := h.placed hw
  have hhas := h.has
  have hlen := length_copyWords h hw
  rw [hfrag] at hp hlen
  obtain ⟨x', u, y', hu⟩ := List.length_eq_three.mp hlen
  rw [hu, Program.has_cons, Program.has_cons, Program.has_cons, BitVec.add_assoc] at hhas
  have hx := hp.word_zero (by simp)
  have hy := hp.word_two (by simp)
  refine ⟨u, ?_, LoadsLit.loadsX17 (t := t.setPc (t.pc + 4)) hp.lit_one hhas.2.1⟩
  rw [hu, Option.some.inj (hhas.1.symm.trans hx), Option.some.inj (hhas.2.2.1.symm.trans hy)]

/-- The address after the words of the instruction. -/
theorem AtCopy.next (h : AtCopy m src n dst i t) (hw : (wordsAt m src n)[i]? = some w) :
    wordAddr dst (emittedBefore m src n (i + 1)) =
      t.pc + BitVec.ofNat 64 (4 * (relocFragment (wordAddr src i) w).words.length) := by
  rw [h.pc, emittedBefore_succ hw, wordAddr, wordAddr, Nat.mul_add, BitVec.ofNat_add,
    BitVec.add_assoc]

end Shapes

end AtCopy

/-! ## Running the words -/

section RunWords

variable {isa : Isa} {t : Cpu} {u x y : Word} {v : BitVec 64}

theorem blockExit_singleton (isa : Isa) (x : Word) (s : Cpu) :
    blockExit isa [x] s = isa.exec (decode x) s := by
  rw [blockExit]
  split
  · rfl
  · rfl

/-- A literal loaded into `X17` and one word. -/
theorem blockExit_load (isa : Isa) (hu : LoadsX17 t v u) (ws : List Word) :
    blockExit isa (u :: ws) t = blockExit isa ws ((t.setX 17 v).setPc (t.pc + 4)) := by
  rw [blockExit_cons_none (branchTarget_of_loadsX17 hu t), exec_of_loadsX17 isa hu]

/-- The long branch. -/
theorem blockExit_longBranch (isa : Isa) (hu : LoadsX17 t v u) :
    blockExit isa [u, brX17] t = (t.setX 17 v).setPc v := by
  have hx : ((t.setX 17 v).setPc (t.pc + 4)).readX 17 = v := by simp
  rw [blockExit_load isa hu, blockExit_singleton, decode_brX17, Isa.exec, branchTarget, hx]
  rfl

/-- The long call. -/
theorem blockExit_longCall (isa : Isa) (hu : LoadsX17 t v u) :
    blockExit isa [u, movFromX17 kRegLR, kOpBLR ||| (kRegLR <<< 5)] t =
      ((t.setX 17 v).setX 30 (t.pc + 12)).setPc v := by
  have hmov : branchTarget (decode (movFromX17 kRegLR)) ((t.setX 17 v).setPc (t.pc + 4)) =
      none := by
    rw [decode_movLR]
    rfl
  have hpc : t.pc + 4 + 4 + 4 = t.pc + 12 := by
    rw [BitVec.add_assoc, BitVec.add_assoc]
    rfl
  have h17 : ((t.setX 17 v).setPc (t.pc + 4)).readX 17 = v := by simp
  rw [blockExit_load isa hu, blockExit_cons_none hmov, blockExit_singleton, decode_movLR,
    decode_blrLR, exec_mov, exec_blr, h17]
  simp only [Cpu.pc_setPc, Cpu.readX_setPc, Cpu.setX_setPc, Cpu.setPc_setPc, Cpu.setX_setX, hpc]
  rw [Cpu.readX_setX_same _ _ _ (by omega)]

/-- An inverted branch that is taken skips the long branch. -/
theorem blockExit_guarded_skip {a : Addr} (ws : List Word) (heff : isa.effect (decode x) t = t)
    (hx : branchTarget (decode x) t = some a) : blockExit isa (x :: ws) t = t.setPc a := by
  rw [blockExit_cons_some hx, Isa.exec, heff, hx]
  rfl

/-- An inverted branch that is not taken falls into the long branch. -/
theorem blockExit_guarded_branch (heff : isa.effect (decode x) t = t)
    (hx : branchTarget (decode x) t = none) (hu : LoadsX17 (t.setPc (t.pc + 4)) v u) :
    blockExit isa [x, u, brX17] t = (t.setX 17 v).setPc v := by
  have hexec : isa.exec (decode x) t = t.setPc (t.pc + 4) := by
    rw [Isa.exec, heff, hx]
    rfl
  rw [blockExit_cons_none hx, hexec, blockExit_longBranch isa hu, Cpu.setX_setPc, Cpu.setPc_setPc]

/-- An address loaded and moved. -/
theorem blockExit_address (isa : Isa) (hu : LoadsX17 t v u) (inst : Word) :
    blockExit isa [u, movFromX17 (getRd inst)] t =
      ((t.setX 17 v).setX (regAt inst 0) v).setPc (t.pc + 8) := by
  have hpc : t.pc + 4 + 4 = t.pc + 8 := by
    rw [BitVec.add_assoc]
    rfl
  have h17 : ((t.setX 17 v).setPc (t.pc + 4)).readX 17 = v := by simp
  rw [blockExit_load isa hu, blockExit_singleton, decode_movFromX17, exec_mov, h17, Cpu.setX_setPc,
    Cpu.setPc_setPc, Cpu.pc_setPc, hpc]

end RunWords

/-! ## Branches and addresses -/

/-- The words that branch by an offset, `B.cond` apart, and those that compute an address from
one. -/
def branchesAndAddresses : List Pattern :=
  [.b, .bl, .cbz, .cbnz, .tbz, .tbnz, .adr, .adrp]

/-- The word computes an address. -/
def computesAddress (w : Word) : Prop := isADR w = true ∨ isADRP w = true

/-- The registers the copy of a word may change: `X17`, the link register for a call, and the
register an address is computed into. -/
def mayChange (w : Word) (k : ℕ) : Prop :=
  k = 17 ∨ k = 30 ∧ isBL w = true ∨ k = regAt w 0 ∧ computesAddress w

/-- What the copy of the word `w` from `p` must do: lead from `t` to `t'`, when the words of the
next instruction begin at `next`. -/
structure CopyFaithful (isa : Isa) (w : Word) (p next : Addr) (t t' : Cpu) : Prop where
  /-- Control goes to where the original branches, in the states in which it does. -/
  pc : t'.pc = (branchTarget (decode w) (t.setPc p)).getD next
  /-- An address is the one of the original place. -/
  address : computesAddress w →
    t'.readX (regAt w 0) = (isa.exec (decode w) (t.setPc p)).readX (regAt w 0)
  /-- The rest is unchanged. -/
  frame : Agree (mayChange w) (fun _ => False) t t'

section Faithful

variable {isa : Isa} {m : Mem} {src dst : Addr} {n i : ℕ} {t : Cpu} {w : Word}

theorem not_computesAddress {p : Pattern} (hp : p.Matches w) (h1 : p.Conflict Pattern.adr)
    (h2 : p.Conflict Pattern.adrp) : ¬ computesAddress w := by
  have hadr : isADR w = false := beq_and_eq_false hp h1
  have hadrp : isADRP w = false := beq_and_eq_false hp h2
  simp [computesAddress, hadr, hadrp]

/-- A branch that was taken. -/
theorem faithful_of_taken {p next target : Addr} (hw : ¬ computesAddress w)
    (hb : branchTarget (decode w) (t.setPc p) = some target) (v : BitVec 64) :
    CopyFaithful isa w p next t ((t.setX 17 v).setPc target) := by
  refine ⟨?_, fun h => absurd h hw, ?_⟩
  · rw [hb]
    rfl
  · exact ((Agree.refl _ _ t).setX_right (.inl rfl) v).setPc t.pc target

/-- A branch that was not taken. -/
theorem faithful_of_not_taken {p next : Addr} (hw : ¬ computesAddress w)
    (hb : branchTarget (decode w) (t.setPc p) = none) :
    CopyFaithful isa w p next t (t.setPc next) := by
  refine ⟨?_, fun h => absurd h hw, ?_⟩
  · rw [hb]
    rfl
  · exact (Agree.refl _ _ t).setPc t.pc next

/-- The copy of a branch behind its inverse. -/
theorem faithful_of_guarded {inv : Word} {off : BitVec 64} (h : AtCopy m src n dst i t)
    (hw : (wordsAt m src n)[i]? = some w) (hna : ¬ computesAddress w)
    (hfrag : relocFragment (wordAddr src i) w =
      ⟨[inv, kLdrX17, brX17], [(1, wordAddr src i + off)]⟩)
    (heff : isa.effect (decode inv) t = t)
    (htaken : branchTarget (decode w) (t.setPc (wordAddr src i)) = none ∧
        branchTarget (decode inv) t = some (t.pc + 12) ∨
      branchTarget (decode w) (t.setPc (wordAddr src i)) =
          some (wordAddr src i + off) ∧ branchTarget (decode inv) t = none) :
    CopyFaithful isa w (wordAddr src i)
      (wordAddr dst (emittedBefore m src n (i + 1))) t
      (blockExit isa (copyWords m src n i) t) := by
  obtain ⟨u, hcopy, hu⟩ := copyWords_guarded h hw hfrag
  rw [hcopy]
  rcases htaken with ⟨hs, ht⟩ | ⟨hs, ht⟩
  · rw [blockExit_guarded_skip _ heff ht, h.next hw, hfrag]
    exact faithful_of_not_taken hna hs
  · rw [blockExit_guarded_branch heff ht hu]
    exact faithful_of_taken hna hs _

theorem faithful_of_compare (h : AtCopy m src n dst i t) (hw : (wordsAt m src n)[i]? = some w)
    (hna : ¬ computesAddress w) (hc : isCBZ w = true ∨ isCBNZ w = true) :
    CopyFaithful isa w (wordAddr src i) (wordAddr dst (emittedBefore m src n (i + 1))) t
      (blockExit isa (copyWords m src n i) t) := by
  obtain ⟨nz, -, hinv⟩ := decode_compare hc
  refine faithful_of_guarded h hw hna (relocFragment_compare _ hc) ?_ (compare_inverted hc rfl)
  rw [hinv]
  rfl

theorem faithful_of_test (h : AtCopy m src n dst i t) (hw : (wordsAt m src n)[i]? = some w)
    (hna : ¬ computesAddress w) (hc : isTBZ w = true ∨ isTBNZ w = true) :
    CopyFaithful isa w (wordAddr src i) (wordAddr dst (emittedBefore m src n (i + 1))) t
      (blockExit isa (copyWords m src n i) t) := by
  obtain ⟨nz, -, hinv⟩ := decode_test hc
  refine faithful_of_guarded h hw hna (relocFragment_test _ hc) ?_ (test_inverted hc rfl)
  rw [hinv]
  rfl

/-- The copy of `ADR` and `ADRP`. -/
theorem faithful_of_address {v : BitVec 64} (h : AtCopy m src n dst i t)
    (hw : (wordsAt m src n)[i]? = some w) (ha : computesAddress w)
    (hfrag : relocFragment (wordAddr src i) w =
      ⟨[kLdrX17, movFromX17 (getRd w)], [(0, v)]⟩)
    (hbranch : branchTarget (decode w) (t.setPc (wordAddr src i)) = none)
    (heff : isa.effect (decode w) (t.setPc (wordAddr src i)) =
      (t.setPc (wordAddr src i)).setX (regAt w 0) v) :
    CopyFaithful isa w (wordAddr src i)
      (wordAddr dst (emittedBefore m src n (i + 1))) t
      (blockExit isa (copyWords m src n i) t) := by
  obtain ⟨u, hcopy, hu⟩ := copyWords_load h hw hfrag
  rw [hcopy, blockExit_address isa hu, h.next hw, hfrag]
  refine ⟨?_, fun _ => ?_, ?_⟩
  · rw [hbranch]
    rfl
  · rw [Isa.exec, heff, Cpu.readX_setPc, Cpu.readX_setPc]
    exact Cpu.readX_setX_congr _ _ _ _
  · exact (((Agree.refl _ _ t).setX_right (.inl rfl) v).setX_right (.inr (.inr ⟨rfl, ha⟩)) v).setPc
      t.pc _

/-- **The copies of branches and addresses are faithful.**  For every word that is a `B`, `BL`,
`CBZ`, `CBNZ`, `TBZ`, `TBNZ`, `ADR` or `ADRP`, running the words emitted for it leads to where the
original branches in the states in which it does, and otherwise to the words of the next
instruction; an address is the one of the original place; and only `X17`, the register of the
address and, for `BL`, `X30` change. -/
theorem relocate_faithful (isa : Isa) (m : Mem) (src dst : Addr) (n i : ℕ) (t : Cpu) (w : Word)
    (h : AtCopy m src n dst i t) (hw : (wordsAt m src n)[i]? = some w)
    (hclass : ∃ p ∈ branchesAndAddresses, p.Matches w) :
    CopyFaithful isa w (wordAddr src i)
      (wordAddr dst (emittedBefore m src n (i + 1))) t
      (blockExit isa (copyWords m src n i) t) := by
  obtain ⟨p, hp, hmatch⟩ := hclass
  simp only [branchesAndAddresses, List.mem_cons, List.not_mem_nil, or_false] at hp
  rcases hp with rfl | rfl | rfl | rfl | rfl | rfl | rfl | rfl
  · -- B
    have hB : isB w = true := beq_iff_eq.mpr hmatch
    have hd : decode w = .b (imm26 w) := decode_of_mem (by simp [patterns]) hmatch
    obtain ⟨u, hcopy, hu⟩ := copyWords_load h hw (relocFragment_b _ hB)
    rw [hcopy, blockExit_longBranch isa hu]
    exact faithful_of_taken (not_computesAddress hmatch (by decide) (by decide)) (by rw [hd]; rfl) _
  · -- BL
    have hBL : isBL w = true := beq_iff_eq.mpr hmatch
    have hd : decode w = .bl (imm26 w) := decode_of_mem (by simp [patterns]) hmatch
    obtain ⟨u, hcopy, hu⟩ := copyWords_call h hw (relocFragment_bl _ hBL)
    rw [hcopy, blockExit_longCall isa hu]
    refine ⟨?_, fun ha => absurd ha (not_computesAddress hmatch (by decide) (by decide)), ?_⟩
    · rw [hd]
      rfl
    · exact (((Agree.refl _ _ t).setX_right (.inl rfl) _).setX_right
        (.inr (.inl ⟨rfl, hBL⟩)) _).setPc
        t.pc _
  · exact faithful_of_compare h hw (not_computesAddress hmatch (by decide) (by decide))
      (.inl (beq_iff_eq.mpr hmatch))
  · exact faithful_of_compare h hw (not_computesAddress hmatch (by decide) (by decide))
      (.inr (beq_iff_eq.mpr hmatch))
  · exact faithful_of_test h hw (not_computesAddress hmatch (by decide) (by decide))
      (.inl (beq_iff_eq.mpr hmatch))
  · exact faithful_of_test h hw (not_computesAddress hmatch (by decide) (by decide))
      (.inr (beq_iff_eq.mpr hmatch))
  · -- ADR
    have hd : decode w = .adr (regAt w 0) (imm21 w) := decode_of_mem (by simp [patterns]) hmatch
    have hA : isADR w = true := beq_iff_eq.mpr hmatch
    exact faithful_of_address h hw (.inl hA) (relocFragment_adr _ hA) (by rw [hd]; rfl)
      (by rw [hd]; rfl)
  · -- ADRP
    have hd : decode w = .adrp (regAt w 0) (imm21 w * 4096) :=
      decode_of_mem (by simp [patterns]) hmatch
    have hA : isADRP w = true := beq_iff_eq.mpr hmatch
    exact faithful_of_address h hw (.inr hA) (relocFragment_adrp _ hA) (by rw [hd]; rfl)
      (by rw [hd]; rfl)

/-- The state that enters the copy at `dst`, with all registers zero. -/
def copyEntry (m : Mem) (src : Addr) (n : ℕ) (dst : Addr) : Cpu :=
  Cpu.zero dst (m.writeBytes dst (wordBytes (copyBuffer m src n)))

theorem atCopy_copyEntry (m : Mem) (src dst : Addr) {n : ℕ} (hpos : 0 < n) (hn : n ≤ 1000) :
    AtCopy m src n dst 0 (copyEntry m src n dst) := by
  have hle := length_copyBuffer_le m src hpos
  refine ⟨hpos, .inr (by omega), holds_writeBytes _ _ (by omega), ?_⟩
  rw [wordAddr, emittedBefore_zero, Nat.mul_zero, BitVec.add_zero]
  rfl

/-- The copy of a `CBZ X17` that branches backwards. -/
theorem relocate_faithful_cbz :
    CopyFaithful Isa.bare 0xB4FFFFF1 (wordAddr 0x10000000 0)
      (wordAddr 0x30000000 (emittedBefore (codeMem 0x10000000 [0xB4FFFFF1]) 0x10000000 1 (0 + 1)))
      (copyEntry (codeMem 0x10000000 [0xB4FFFFF1]) 0x10000000 1 0x30000000)
      (blockExit Isa.bare (copyWords (codeMem 0x10000000 [0xB4FFFFF1]) 0x10000000 1 0)
        (copyEntry (codeMem 0x10000000 [0xB4FFFFF1]) 0x10000000 1 0x30000000)) :=
  relocate_faithful Isa.bare (codeMem 0x10000000 [0xB4FFFFF1]) 0x10000000 0x30000000 1 0 _
    0xB4FFFFF1 (atCopy_copyEntry _ _ _ (by omega) (by omega)) (by decide)
    ⟨Pattern.cbz, by simp [branchesAndAddresses], by decide⟩

/-! ## Conditional branches -/

/-- The copy of a branch on "always" falls through: the inverse is a branch on "always" as well. -/
theorem blockExit_always (isa : Isa) (h : AtCopy m src n dst i t)
    (hw : (wordsAt m src n)[i]? = some w) (hc : isBCond w = true)
    (ha : isAlways (w.extractLsb' 0 4)) :
    blockExit isa (copyWords m src n i) t =
      t.setPc (wordAddr dst (emittedBefore m src n (i + 1))) := by
  have hfrag := relocFragment_bCond (wordAddr src i) hc
  obtain ⟨u, hcopy, -⟩ := copyWords_guarded h hw hfrag
  have hinv := (decode_bCond hc).2
  have htaken : branchTarget (decode (invBCond w)) t = some (t.pc + 12) := by
    rw [hinv, branchTarget, if_pos (condHolds_of_isAlways ha _).2]
  have heff : isa.effect (decode (invBCond w)) t = t := by
    rw [hinv]
    rfl
  rw [hcopy, blockExit_guarded_skip _ heff htaken, h.next hw, hfrag]
  rfl

/-- **The copy of `B.cond` is faithful unless the condition is "always".**  Flipping the lowest bit
of the condition negates it for the fourteen conditions that test a flag; the two encodings of
"always" are each other's inverse, so their copy never branches, which is right only if the branch
leads to the next instruction anyway. -/
theorem relocate_bCond_iff (isa : Isa) (m : Mem) (src dst : Addr) (n i : ℕ) (t : Cpu) (w : Word)
    (h : AtCopy m src n dst i t) (hw : (wordsAt m src n)[i]? = some w) (hc : isBCond w = true) :
    CopyFaithful isa w (wordAddr src i) (wordAddr dst (emittedBefore m src n (i + 1))) t
        (blockExit isa (copyWords m src n i) t) ↔
      (isAlways (w.extractLsb' 0 4) →
        wordAddr src i + imm19 w = wordAddr dst (emittedBefore m src n (i + 1))) := by
  obtain ⟨hd, hinv⟩ := decode_bCond hc
  have hna : ¬ computesAddress w :=
    not_computesAddress (p := Pattern.bCond) (eq_of_beq hc) (by decide) (by decide)
  by_cases ha : isAlways (w.extractLsb' 0 4)
  · have htaken : branchTarget (decode w) (t.setPc (wordAddr src i)) =
        some (wordAddr src i + imm19 w) := by
      rw [hd, branchTarget, if_pos (condHolds_of_isAlways ha _).1]
      rfl
    rw [blockExit_always isa h hw hc ha]
    constructor
    · intro hf _
      have hpc := hf.pc
      rw [htaken] at hpc
      exact hpc.symm
    · intro heq
      refine ⟨?_, fun hk => absurd hk hna, (Agree.refl _ _ t).setPc t.pc _⟩
      rw [htaken, ← heq ha]
      rfl
  · refine ⟨fun _ hk => absurd hk ha, fun _ => ?_⟩
    refine faithful_of_guarded h hw hna (relocFragment_bCond _ hc) (by rw [hinv]; rfl) ?_
    have hflip := condHolds_xor_one ha t.nzcv
    rw [hd, hinv]
    simp only [branchTarget, Cpu.nzcv_setPc, hflip]
    by_cases hcond : condHolds (w.extractLsb' 0 4) t.nzcv = true
    · exact .inr ⟨by simp [hcond], by simp [hcond]⟩
    · exact .inl ⟨by simp [hcond], by simp [hcond]⟩

/-- `B.AL` eight bytes on is copied into a branch that is never taken. -/
theorem not_faithful_always :
    isBCond 0x5400004E = true ∧
      (wordsAt (codeMem 0x10000000 [0x5400004E]) 0x10000000 1)[0]? = some 0x5400004E ∧
      AtCopy (codeMem 0x10000000 [0x5400004E]) 0x10000000 1 0x30000000 0
        (copyEntry (codeMem 0x10000000 [0x5400004E]) 0x10000000 1 0x30000000) ∧
      ¬ CopyFaithful Isa.bare 0x5400004E (wordAddr 0x10000000 0)
        (wordAddr 0x30000000 (emittedBefore (codeMem 0x10000000 [0x5400004E]) 0x10000000 1 (0 + 1)))
        (copyEntry (codeMem 0x10000000 [0x5400004E]) 0x10000000 1 0x30000000)
        (blockExit Isa.bare (copyWords (codeMem 0x10000000 [0x5400004E]) 0x10000000 1 0)
          (copyEntry (codeMem 0x10000000 [0x5400004E]) 0x10000000 1 0x30000000)) := by
  refine ⟨by decide, by decide, atCopy_copyEntry _ _ _ (by omega) (by omega), fun hf => ?_⟩
  have hpc := hf.pc
  rw [blockExit_always (w := 0x5400004E) Isa.bare (atCopy_copyEntry _ _ _ (by omega) (by omega))
    (by decide) (by decide) (by decide)] at hpc
  exact absurd hpc (by decide)

/-- `B.EQ` is copied faithfully. -/
theorem relocate_bCond_iff_eq :
    CopyFaithful Isa.bare 0x54000040 (wordAddr 0x10000000 0)
      (wordAddr 0x30000000 (emittedBefore (codeMem 0x10000000 [0x54000040]) 0x10000000 1 (0 + 1)))
      (copyEntry (codeMem 0x10000000 [0x54000040]) 0x10000000 1 0x30000000)
      (blockExit Isa.bare (copyWords (codeMem 0x10000000 [0x54000040]) 0x10000000 1 0)
        (copyEntry (codeMem 0x10000000 [0x54000040]) 0x10000000 1 0x30000000)) :=
  (relocate_bCond_iff Isa.bare (codeMem 0x10000000 [0x54000040]) 0x10000000 0x30000000 1 0 _
    0x54000040 (atCopy_copyEntry _ _ _ (by omega) (by omega)) (by decide) (by decide)).mpr
      fun ha => absurd ha (by decide)

end Faithful

end Arm64
end CalvinHook
