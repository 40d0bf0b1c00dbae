import CalvinHook.HookSdk.HookApi
import CalvinHook.HookSdk.RelocatedWords

/-!
# Running the relocated code

The relocated copy of a block simulates the block word by word: from states that agree up to `X17`
it goes on to states that agree, to the same address when the word branches and to the copy of the
next word when it does not (`sim_word`), and so, over the whole block, to the state in which the
block is left (`sim_block`).

`trampoline_refines` puts this in the memory a hook leaves behind.  There the block itself is
overwritten by the jump patch, so the copy does what the block did only as long as control does not
come back into the overwritten bytes: `RelocateInstructions` turns a branch inside the block into a
branch to the old address, which by then holds the patch.
-/

namespace CalvinHook
namespace Arm64

open A64

/-! ## Placed fragments -/

section Placed

variable {Q : Program} {T : Addr → Prop} {m : Mem} {a : Addr} {f g : Fragment}

/-- The word at `a` loads `v` into `X17`, from a literal inside `T`. -/
def LoadsLit (Q : Program) (T : Addr → Prop) (m : Mem) (a : Addr) (v : BitVec 64) : Prop :=
  ∃ w off, Q a = some w ∧ decode w = .ldrLit .x 17 off ∧ m.read (a + off) 8 = v ∧
    ∀ x, InRange (a + off) 8 x → T x

/-- The fragment stands at `a`: its words are there, each placeholder replaced by a load of its
literal. -/
structure Placed (Q : Program) (T : Addr → Prop) (m : Mem) (a : Addr) (f : Fragment) : Prop where
  word : ∀ j w, f.words[j]? = some w → (∀ l ∈ f.lits, l.1 ≠ j) →
    Q (a + BitVec.ofNat 64 (4 * j)) = some w
  lit : ∀ l ∈ f.lits, LoadsLit Q T m (a + BitVec.ofNat 64 (4 * l.1)) l.2

theorem LoadsLit.congr {m' : Mem} {v : BitVec 64} (h : LoadsLit Q T m a v)
    (hm : ∀ x, T x → m' x = m x) : LoadsLit Q T m' a v := by
  obtain ⟨w, off, hQ, hd, hv, hT⟩ := h
  refine ⟨w, off, hQ, hd, ?_, hT⟩
  rw [← hv]
  exact Mem.read_congr fun i hi => hm _ (hT _ (inRange_add hi (by omega)))

theorem Placed.congr {m' : Mem} (h : Placed Q T m a f) (hm : ∀ x, T x → m' x = m x) :
    Placed Q T m' a f :=
  ⟨h.word, fun l hl => (h.lit l hl).congr hm⟩

theorem Placed.left (h : Placed Q T m a (f.append g)) : Placed Q T m a f := by
  refine ⟨fun j w hj hne => h.word j w ?_ ?_, fun l hl => h.lit l ?_⟩
  · have hlt : j < f.words.length := (List.getElem?_eq_some_iff.mp hj).1
    rw [Fragment.append, List.getElem?_append_left hlt]
    exact hj
  · intro l hl
    have hlt : j < f.words.length := (List.getElem?_eq_some_iff.mp hj).1
    rw [Fragment.append, List.mem_append, List.mem_map] at hl
    rcases hl with hl | ⟨k, -, rfl⟩
    · exact hne l hl
    · show f.words.length + k.1 ≠ j
      omega
  · rw [Fragment.append]
    exact List.mem_append_left _ hl

theorem Placed.right (h : Placed Q T m a (f.append g)) (hf : f.WF) :
    Placed Q T m (a + BitVec.ofNat 64 (4 * f.words.length)) g := by
  have haddr : ∀ j, a + BitVec.ofNat 64 (4 * f.words.length) + BitVec.ofNat 64 (4 * j) =
      a + BitVec.ofNat 64 (4 * (f.words.length + j)) := fun j => by
    rw [Nat.mul_add, BitVec.ofNat_add, BitVec.add_assoc]
  refine ⟨fun j w hj hne => ?_, fun l hl => ?_⟩
  · rw [haddr]
    refine h.word _ w ?_ ?_
    · rw [Fragment.append, List.getElem?_append_right (Nat.le_add_right _ _),
        Nat.add_sub_cancel_left]
      exact hj
    · intro l hl
      rw [Fragment.append, List.mem_append, List.mem_map] at hl
      rcases hl with hl | ⟨k, hk, rfl⟩
      · have := hf.lt hl
        omega
      · have := hne k hk
        show f.words.length + k.1 ≠ f.words.length + j
        omega
  · rw [haddr]
    refine h.lit (f.words.length + l.1, l.2) ?_
    rw [Fragment.append, List.mem_append]
    exact Or.inr (List.mem_map_of_mem hl)

end Placed

/-! ## One word -/

section SimWord

variable {Q : Program} {isa : Isa} {T R : Addr → Prop} {s t : Cpu} {w : Word} {v : BitVec 64}

theorem reaches_one {i : Insn} (h : Q t.pc = some w) (hd : decode w = i) :
    Reaches Q isa t (isa.exec i t) := by
  rw [← hd]
  exact Reaches.head h (Reaches.refl Q isa _)

theorem reaches_loadsLit (h : LoadsLit Q T t.mem t.pc v) :
    Reaches Q isa t ((t.setX 17 v).setPc (t.pc + 4)) := by
  obtain ⟨w, off, hQ, hd, hv, -⟩ := h
  rw [← hv]
  exact reaches_one hQ hd

/-- The long branch. -/
theorem reaches_longBranch (hl : LoadsLit Q T t.mem t.pc v) (hb : Q (t.pc + 4) = some brX17) :
    Reaches Q isa t ((t.setX 17 v).setPc v) := by
  refine (reaches_loadsLit hl).trans ?_
  have h : Reaches Q isa ((t.setX 17 v).setPc (t.pc + 4)) _ := reaches_one hb decode_brX17
  have hx : ((t.setX 17 v).setPc (t.pc + 4)).readX 17 = v := by simp
  rw [Isa.exec, branchTarget, hx] at h
  exact h

/-- The registers that may differ after a word: `X17`, and after a `BL` also `X30`. -/
def ignoredAfter (w : Option Word) (n : ℕ) : Prop :=
  isX17 n ∨ n = 30 ∧ ∃ b, w = some b ∧ isBL b = true

/-- What the copy of a word does from a state that agrees with the one before the word. -/
def Simulates (Q : Program) (isa : Isa) (R : Addr → Prop) (w : Word) (s t : Cpu) : Prop :=
  ∃ t', Reaches Q isa t t' ∧ (∀ a, R a → t'.mem a = t.mem a) ∧
    Agree (ignoredAfter (some w)) R (isa.exec (decode w) s) t' ∧
    t'.pc = (branchTarget (decode w) s).getD
      (t.pc + BitVec.ofNat 64 (4 * (relocFragment s.pc w).words.length))

theorem ignoredAfter_of_isX17 (o : Option Word) (n : ℕ) (h : isX17 n) : ignoredAfter o n := Or.inl h

/-- The first word of a fragment, and the word after it. -/
theorem Placed.word_zero {x : Word} {ws : List Word} {ls : List (ℕ × BitVec 64)} {m : Mem}
    {a : Addr} (h : Placed Q T m a ⟨x :: ws, ls⟩) (hne : ∀ l ∈ ls, l.1 ≠ 0) : Q a = some x := by
  simpa using h.word 0 x rfl hne

theorem Placed.word_one {x y : Word} {ws : List Word} {ls : List (ℕ × BitVec 64)} {m : Mem}
    {a : Addr} (h : Placed Q T m a ⟨x :: y :: ws, ls⟩) (hne : ∀ l ∈ ls, l.1 ≠ 1) :
    Q (a + 4) = some y :=
  h.word 1 y rfl hne

theorem Placed.word_two {x y z : Word} {ws : List Word} {ls : List (ℕ × BitVec 64)} {m : Mem}
    {a : Addr} (h : Placed Q T m a ⟨x :: y :: z :: ws, ls⟩) (hne : ∀ l ∈ ls, l.1 ≠ 2) :
    Q (a + 8) = some z :=
  h.word 2 z rfl hne

theorem Placed.lit_zero {ws : List Word} {m : Mem} {a : Addr}
    (h : Placed Q T m a ⟨ws, [(0, v)]⟩) : LoadsLit Q T m a v := by
  simpa using h.lit (0, v) (by simp)

theorem Placed.lit_one {ws : List Word} {m : Mem} {a : Addr}
    (h : Placed Q T m a ⟨ws, [(1, v)]⟩) : LoadsLit Q T m (a + 4) v :=
  h.lit (1, v) (by simp)

theorem sim_b (hst : Agree isX17 R s t) (h : isB w = true)
    (hp : Placed Q T t.mem t.pc (relocFragment s.pc w)) : Simulates Q isa R w s t := by
  have hd : decode w = .b (imm26 w) :=
    decode_of_mem (p := Pattern.b) (by simp [patterns]) (eq_of_beq h)
  rw [relocFragment_b s.pc h] at hp
  refine ⟨_, reaches_longBranch hp.lit_zero (hp.word_one (by simp)), fun _ _ => rfl, ?_, ?_⟩
  · rw [hd]
    exact ((hst.setX_right rfl _).mono (ignoredAfter_of_isX17 _)).setPc _ _
  · rw [hd]
    rfl

theorem sim_bl (hst : Agree isX17 R s t) (h : isBL w = true)
    (hp : Placed Q T t.mem t.pc (relocFragment s.pc w)) : Simulates Q isa R w s t := by
  have hd : decode w = .bl (imm26 w) :=
    decode_of_mem (p := Pattern.bl) (by simp [patterns]) (eq_of_beq h)
  rw [relocFragment_bl s.pc h] at hp
  -- LDR X17, MOV X30, X17, BLR X30
  let t1 := (t.setX 17 (s.pc + imm26 w)).setPc (t.pc + 4)
  let t2 := isa.exec (.orr 30 31 17) t1
  let t3 := isa.exec (.blr 30) t2
  have h1 : Reaches Q isa t t1 := reaches_loadsLit hp.lit_zero
  have h2 : Reaches Q isa t1 t2 := reaches_one (hp.word_one (by simp)) decode_movLR
  have hpc : t2.pc = t.pc + 8 := by
    show t.pc + 4 + 4 = t.pc + 8
    rw [BitVec.add_assoc]
    rfl
  have h3 : Reaches Q isa t2 t3 := by
    refine reaches_one (w := kOpBLR ||| (kRegLR <<< 5)) ?_ decode_blrLR
    rw [hpc]
    exact hp.word_two (by simp)
  have hx : t2.readX 30 = s.pc + imm26 w := by
    simp [t2, t1, Isa.exec, Isa.effect]
  have h30 : ignoredAfter (some w) 30 := Or.inr ⟨rfl, w, rfl, h⟩
  refine ⟨t3, (h1.trans h2).trans h3, fun _ _ => rfl, ?_, ?_⟩
  · rw [hd]
    have hX17 := (hst.setX_right (n := 17) rfl (s.pc + imm26 w)).mono
      (ignoredAfter_of_isX17 (some w))
    exact (((hX17.setX_left h30 _).setX_right h30 _).setX_right h30 _).setPc _ _
  · rw [hd]
    exact hx

/-- An inverted branch over the long branch: when the original branch is taken it falls into the
long branch, otherwise it skips it. -/
theorem sim_guarded {i : Insn} {inv : Word} {off : BitVec 64} (hst : Agree isX17 R s t)
    (heff : isa.effect (decode w) s = s) (hinv : decode inv = i) (heff' : isa.effect i t = t)
    (htaken : branchTarget (decode w) s = none ∧ branchTarget i t = some (t.pc + 12) ∨
      branchTarget (decode w) s = some (s.pc + off) ∧ branchTarget i t = none)
    (hfrag : relocFragment s.pc w = ⟨[inv, kLdrX17, brX17], [(1, s.pc + off)]⟩)
    (hp : Placed Q T t.mem t.pc (relocFragment s.pc w)) : Simulates Q isa R w s t := by
  rw [hfrag] at hp
  have h1 : Reaches Q isa t (isa.exec i t) := reaches_one (hp.word_zero (by simp)) hinv
  have hexec : isa.exec (decode w) s = s.setPc ((branchTarget (decode w) s).getD (s.pc + 4)) := by
    rw [Isa.exec, heff]
  rcases htaken with ⟨hs, ht⟩ | ⟨hs, ht⟩
  · refine ⟨_, h1, fun a _ => ?_, ?_, ?_⟩
    · rw [Isa.exec, heff']
      rfl
    · rw [hexec, Isa.exec, heff']
      exact (hst.mono (ignoredAfter_of_isX17 _)).setPc _ _
    · rw [pc_exec, hs, ht, hfrag]
      rfl
  · have he : isa.exec i t = t.setPc (t.pc + 4) := by
      rw [Isa.exec, heff', ht]
      rfl
    have hb : Q (t.pc + 4 + 4) = some brX17 := by
      rw [BitVec.add_assoc]
      exact hp.word_two (by simp)
    have h2 : Reaches Q isa (t.setPc (t.pc + 4)) _ :=
      reaches_longBranch (t := t.setPc (t.pc + 4)) hp.lit_one hb
    rw [he] at h1
    refine ⟨_, h1.trans h2, fun _ _ => rfl, ?_, ?_⟩
    · rw [hexec]
      exact (((hst.setPc s.pc (t.pc + 4)).setX_right rfl _).mono (ignoredAfter_of_isX17 _)).setPc
        _ _
    · rw [hs]
      rfl

theorem sim_compare (hst : Agree isX17 R s t) (h : isCBZ w = true ∨ isCBNZ w = true)
    (hr : regAt w 0 ≠ 17) (hp : Placed Q T t.mem t.pc (relocFragment s.pc w)) :
    Simulates Q isa R w s t := by
  obtain ⟨nz, hd, hinv⟩ := decode_compare h
  refine sim_guarded hst ?_ hinv rfl ?_ (relocFragment_compare s.pc h) hp
  · rw [hd]
    rfl
  · rw [← hinv]
    exact compare_inverted h (hst.x _ hr)

theorem sim_test (hst : Agree isX17 R s t) (h : isTBZ w = true ∨ isTBNZ w = true)
    (hr : regAt w 0 ≠ 17) (hp : Placed Q T t.mem t.pc (relocFragment s.pc w)) :
    Simulates Q isa R w s t := by
  obtain ⟨nz, hd, hinv⟩ := decode_test h
  refine sim_guarded hst ?_ hinv rfl ?_ (relocFragment_test s.pc h) hp
  · rw [hd]
    rfl
  · rw [← hinv]
    exact test_inverted h (hst.x _ hr)

/-- A literal loaded into `X17` and one word that uses it without branching. -/
theorem sim_load {i : Insn} {u : Word} (hfrag : relocFragment s.pc w = ⟨[kLdrX17, u], [(0, v)]⟩)
    (hp : Placed Q T t.mem t.pc (relocFragment s.pc w)) (hu : decode u = i)
    (hbranch : (decode w).isBranch = false) (hbranch' : i.isBranch = false)
    (hmem : (isa.effect i ((t.setX 17 v).setPc (t.pc + 4))).mem = t.mem)
    (hagree : Agree isX17 R (isa.effect (decode w) s)
      (isa.effect i ((t.setX 17 v).setPc (t.pc + 4)))) : Simulates Q isa R w s t := by
  rw [hfrag] at hp
  have h1 : Reaches Q isa t _ := reaches_loadsLit hp.lit_zero
  have h2 : Reaches Q isa ((t.setX 17 v).setPc (t.pc + 4)) _ :=
    reaches_one (hp.word_one (by simp)) hu
  refine ⟨_, h1.trans h2, fun a _ => congrFun hmem a, ?_, ?_⟩
  · exact (hagree.mono (ignoredAfter_of_isX17 _)).setPc _ _
  · rw [pc_exec, branchTarget_of_not_isBranch hbranch, branchTarget_of_not_isBranch hbranch', hfrag]
    show t.pc + 4 + 4 = t.pc + 8
    rw [BitVec.add_assoc]
    rfl

/-- `ADR` and `ADRP`: the address, computed for the original place, is loaded and moved. -/
theorem sim_address (hst : Agree isX17 R s t)
    (hfrag : relocFragment s.pc w = ⟨[kLdrX17, movFromX17 (getRd w)], [(0, v)]⟩)
    (hp : Placed Q T t.mem t.pc (relocFragment s.pc w)) (hbranch : (decode w).isBranch = false)
    (heff : isa.effect (decode w) s = s.setX (regAt w 0) v) : Simulates Q isa R w s t := by
  refine sim_load hfrag hp (decode_movFromX17 w) hbranch rfl rfl ?_
  have hx : isa.effect (.orr (regAt w 0) 31 17) ((t.setX 17 v).setPc (t.pc + 4)) =
      (((t.setX 17 v).setPc (t.pc + 4)).setX (regAt w 0) v) := by
    simp [Isa.effect]
  rw [heff, hx]
  exact ((hst.setX_right rfl v).setPc s.pc _).setX _ v

/-- The integer literal loads. -/
theorem sim_ldrX (hst : Agree isX17 R s t) (h : w &&& 0xFF000000 = 0x58000000)
    (hacc : ∀ a, isa.Access (decode w) s a → ¬ R a)
    (hp : Placed Q T t.mem t.pc (relocFragment s.pc w)) : Simulates Q isa R w s t := by
  have hd : decode w = .ldrLit .x (regAt w 0) (imm19 w) :=
    decode_of_mem (p := Pattern.ldrLit 0x58000000 .x) (by simp [patterns]) h
  rw [hd] at hacc
  refine sim_load (relocFragment_ldrX s.pc h) hp (decode_ldrReg w) (by rw [hd]; rfl) rfl rfl ?_
  have hread : s.mem.read (s.pc + imm19 w) 8 = t.mem.read (s.pc + imm19 w) 8 :=
    hst.read (by omega) hacc
  have hx : isa.effect (.ldrX (regAt w 0) 17 0) ((t.setX 17 (s.pc + imm19 w)).setPc (t.pc + 4)) =
      (((t.setX 17 (s.pc + imm19 w)).setPc (t.pc + 4)).setX (regAt w 0)
        (t.mem.read (s.pc + imm19 w) 8)) := by
    simp [Isa.effect, Cpu.readXSP_of_ne]
  rw [hd, hx, ← hread]
  exact ((hst.setX_right rfl _).setPc s.pc _).setX _ _

theorem sim_ldrW (hst : Agree isX17 R s t) (h : w &&& 0xFF000000 = 0x18000000)
    (hacc : ∀ a, isa.Access (decode w) s a → ¬ R a)
    (hp : Placed Q T t.mem t.pc (relocFragment s.pc w)) : Simulates Q isa R w s t := by
  have hd : decode w = .ldrLit .w (regAt w 0) (imm19 w) :=
    decode_of_mem (p := Pattern.ldrLit 0x18000000 .w) (by simp [patterns]) h
  rw [hd] at hacc
  refine sim_load (relocFragment_ldrW s.pc h) hp (decode_ldrRegW w) (by rw [hd]; rfl) rfl rfl ?_
  have hread : s.mem.read (s.pc + imm19 w) 4 = t.mem.read (s.pc + imm19 w) 4 :=
    hst.read (by omega) hacc
  have hx : isa.effect (.ldrW (regAt w 0) 17 0) ((t.setX 17 (s.pc + imm19 w)).setPc (t.pc + 4)) =
      (((t.setX 17 (s.pc + imm19 w)).setPc (t.pc + 4)).setX (regAt w 0)
        ((t.mem.read (s.pc + imm19 w) 4 : BitVec 32).setWidth 64)) := by
    simp [Isa.effect, Cpu.readXSP_of_ne]
  rw [hd, hx, ← hread]
  exact ((hst.setX_right rfl _).setPc s.pc _).setX _ _

theorem sim_other (hst : Agree isX17 R s t) (h : isPcRelative w = false)
    (hw : PcIndependent isa isX17 w) (hacc : ∀ a, isa.Access (decode w) s a → ¬ R a)
    (hp : Placed Q T t.mem t.pc (relocFragment s.pc w)) : Simulates Q isa R w s t := by
  obtain ⟨hagree, hmem, htarget⟩ := hw R s t hst hacc
  rw [relocFragment_other s.pc h] at hp
  refine ⟨_, reaches_one (hp.word_zero (by simp)) rfl, hmem, ?_, ?_⟩
  · exact (hagree.mono (ignoredAfter_of_isX17 _)).setPc _ _
  · rw [pc_exec, htarget, relocFragment_other s.pc h]
    rfl

/-- **The copy of a word simulates the word.** -/
theorem sim_word (hst : Agree isX17 R s t) (hw : Relocatable isa w)
    (hacc : ∀ a, isa.Access (decode w) s a → ¬ R a)
    (hp : Placed Q T t.mem t.pc (relocFragment s.pc w)) : Simulates Q isa R w s t := by
  cases hw with
  | b h => exact sim_b hst h hp
  | bl h => exact sim_bl hst h hp
  | compare h hr => exact sim_compare hst h hr hp
  | test h hr => exact sim_test hst h hr hp
  | adr h hr =>
    have hd : decode w = .adr (regAt w 0) (imm21 w) :=
      decode_of_mem (p := Pattern.adr) (by simp [patterns]) (eq_of_beq h)
    exact sim_address hst (relocFragment_adr s.pc h) hp (by rw [hd]; rfl) (by rw [hd]; rfl)
  | adrp h hr =>
    have hd : decode w = .adrp (regAt w 0) (imm21 w * 4096) :=
      decode_of_mem (p := Pattern.adrp) (by simp [patterns]) (eq_of_beq h)
    exact sim_address hst (relocFragment_adrp s.pc h) hp (by rw [hd]; rfl) (by rw [hd]; rfl)
  | ldrW h hr => exact sim_ldrW hst h hacc hp
  | ldrX h hr => exact sim_ldrX hst h hacc hp
  | other h hi => exact sim_other hst h hi hacc hp

end SimWord

/-! ## The whole block -/

section SimBlock

variable {Q : Program} {isa : Isa} {T R : Addr → Prop} {s t : Cpu}

/-- A word that does not branch is no `BL`. -/
theorem isX17_of_ignoredAfter {w : Word} (h : branchTarget (decode w) s = none) (n : ℕ)
    (hn : ignoredAfter (some w) n) : isX17 n := by
  rcases hn with hn | ⟨-, b, hb, hbl⟩
  · exact hn
  · obtain rfl : w = b := Option.some.inj hb
    have hd : decode w = .bl (imm26 w) :=
      decode_of_mem (p := Pattern.bl) (by simp [patterns]) (eq_of_beq hbl)
    rw [hd] at h
    exact absurd h (by simp [branchTarget])

/-- **The copy of a block simulates the block**, up to the first branch that is taken or to the
branch back. -/
theorem sim_block {ws : List Word} (hT : ∀ a, T a → R a) (hws : ∀ w ∈ ws, Relocatable isa w)
    (hst : Agree isX17 R s t) (hclear : Clear isa R ws s)
    (hp : Placed Q T t.mem t.pc (blockFragment s.pc ws)) :
    ∃ t', Reaches Q isa t t' ∧ t'.pc = (blockExit isa ws s).pc ∧
      Agree (ignoredAfter (exitWord isa ws s)) R (blockExit isa ws s) t' := by
  induction ws generalizing s t with
  | nil =>
    refine ⟨_, reaches_longBranch hp.lit_zero (hp.word_one (by simp)), rfl, ?_⟩
    exact ((hst.setX_right rfl _).mono (ignoredAfter_of_isX17 _)).setPc s.pc _
  | cons w ws ih =>
    rw [blockFragment] at hp
    obtain ⟨t1, hreach, hmem, hagree, hpc⟩ :=
      sim_word hst (hws w List.mem_cons_self) hclear.1 hp.left
    cases hb : branchTarget (decode w) s with
    | some a =>
      rw [blockExit_cons_some hb, exitWord_cons_some hb]
      refine ⟨t1, hreach, ?_, hagree⟩
      rw [hpc, pc_exec, hb]
      rfl
    | none =>
      rw [blockExit_cons_none hb, exitWord_cons_none hb]
      have hs : (isa.exec (decode w) s).pc = s.pc + 4 := by
        rw [pc_exec, hb]
        rfl
      have ht : t1.pc = t.pc + BitVec.ofNat 64 (4 * (relocFragment s.pc w).words.length) := by
        rw [hpc, hb]
        rfl
      -- the pool is still there, so the rest of the copy stands where control now is
      have hrest : Placed Q T t1.mem t1.pc (blockFragment (isa.exec (decode w) s).pc ws) := by
        rw [hs, ht]
        exact (hp.right (relocShape_relocFragment s.pc w).wf).congr fun x hx => hmem x (hT x hx)
      obtain ⟨t2, h2, hpc2, hagree2⟩ := ih (fun u hu => hws u (List.mem_cons_of_mem w hu))
        (hagree.mono (isX17_of_ignoredAfter hb)) (hclear.2 hb) hrest
      exact ⟨t2, hreach.trans h2, hpc2, hagree2⟩

/-- A finished buffer in memory and in the program places its fragment. -/
theorem placed_final {f : Fragment} {m : Mem} {a : Addr} (hf : f.WF)
    (hlen : f.final.length < 2 ^ 18)
    (hQ : ∀ i w, f.final[i]? = some w → Q (a + BitVec.ofNat 64 (4 * i)) = some w)
    (hm : Holds m a f.final) : Placed Q (InRange a (4 * f.final.length)) m a f := by
  refine ⟨fun j w hj hne => hQ j w ?_, fun l hl => ?_⟩
  · rw [Fragment.getElem?_final_of_ne (List.getElem?_eq_some_iff.mp hj).1 hne]
    exact hj
  · obtain ⟨j, hj⟩ := List.mem_iff_getElem?.mp hl
    obtain ⟨hlo, hhi, hcode⟩ := hf.getElem?_final hj
    generalize hslot : Assembler.paddedLength f.words.length + 2 * j = slot at hlo hhi hcode
    have hlt : l.1 < f.words.length := hf.lt hl
    have hle : f.words.length ≤ slot := by
      rw [← hslot, Assembler.paddedLength]
      omega
    have hslot' : slot + 1 < f.final.length := (List.getElem?_eq_some_iff.mp hhi).1
    have hdisp : ((4 * slot : ℕ) : ℤ) - (4 * l.1 : ℕ) = ((4 * (slot - l.1) : ℕ) : ℤ) := by omega
    have haddr : a + BitVec.ofNat 64 (4 * l.1) + BitVec.ofNat 64 (4 * (slot - l.1)) =
        a + BitVec.ofNat 64 (4 * slot) := by
      rw [BitVec.add_assoc, ← BitVec.ofNat_add]
      congr 2
      omega
    rw [hdisp] at hcode
    refine ⟨_, _, hQ _ _ hcode, decode_patchLdr (by omega), ?_, ?_⟩
    · rw [haddr]
      refine hm.read_double hslot' ?_ ?_
      · rw [List.getD_eq_getElem?_getD, hlo]
        rfl
      · rw [List.getD_eq_getElem?_getD, hhi]
        rfl
    · intro x hx
      rw [haddr] at hx
      exact inRange_of_inRange_add hx (by omega)

end SimBlock

/-! ## A hooked function -/

section Hooked

/-- The memory `HookInstall` leaves: the relocated code at `dst`, then the jump patch at `src`. -/
def hookedMem (m : Mem) (src replace dst : Addr) : Mem :=
  (m.writeBytes dst
    (wordBytes (buildRelocatedCode m src (buildJumpPatch src replace).patchSize))).writeBytes src
    (patchBytes src replace)

/-- A successful install leaves this memory, with the relocated code where `*orig_func` then
points. -/
theorem mem_hookInstall {ps : PageSize} {k : Kernel} {writable : Bool} {s : HookState}
    {target replace : Addr} {orig : Option Addr}
    (h : (hookInstall ps k writable s target replace orig).ret = 0) :
    ∃ dst, (hookInstall ps k writable s target replace orig).origFunc = some dst ∧
      (hookInstall ps k writable s target replace orig).state.mem =
        hookedMem s.mem target replace dst := by
  rcases hookInstall_cases ps k writable s target replace orig with
    ⟨c, pages, hc, -, heq⟩ | ⟨-, heq⟩ | ⟨-, -, -, -, -, heq⟩
  · rw [heq] at h
    exact absurd h hc.ne
  · rw [heq] at h
    exact absurd h (by simp)
  · rw [heq]
    exact ⟨_, rfl, rfl⟩

/-- The bytes the jump patch overwrites. -/
def Window (src replace : Addr) (x : Addr) : Prop :=
  InRange src (buildJumpPatch src replace).patchSize x

/-- The bytes of the relocated code. -/
def Copy (m : Mem) (src replace dst : Addr) (x : Addr) : Prop :=
  InRange dst (4 * (buildRelocatedCode m src (buildJumpPatch src replace).patchSize).length) x

/-- The instruction words the patch overwrites. -/
def prologue (m : Mem) (src replace : Addr) : List Word :=
  wordsAt m src ((buildJumpPatch src replace).patchSize / 4)

/-- The overwritten words as a program. -/
def originalProgram (m : Mem) (src replace : Addr) : Program :=
  Program.block src (prologue m src replace)

/-- The patched window and the relocated code as a program. -/
def hookedProgram (m : Mem) (src replace dst : Addr) : Program := fun x =>
  let m' := hookedMem m src replace dst
  (Program.block src (prologue m' src replace) x).or
    (Program.block dst
      (wordsAt m' dst (buildRelocatedCode m src (buildJumpPatch src replace).patchSize).length) x)

/-- The state in which the relocated code is entered. -/
def hookedEntry (s : Cpu) (src replace dst : Addr) : Cpu :=
  (s.setMem (hookedMem s.mem src replace dst)).setPc dst

/-- From the state `s` the relocated code does what the overwritten words did: when these are left,
it is left for the same address, with the same registers but those in `ign` and the same memory
outside the patch and the copy. -/
def TrampolineRefines (isa : Isa) (ign : ℕ → Prop) (src replace dst : Addr) (s : Cpu) : Prop :=
  ∀ t, LeavesTo (originalProgram s.mem src replace) isa s t →
    ∃ t', LeavesTo (hookedProgram s.mem src replace dst) isa (hookedEntry s src replace dst) t' ∧
      t'.pc = t.pc ∧
      Agree ign (fun x => Window src replace x ∨ Copy s.mem src replace dst x) t t'

variable {m : Mem} {src replace dst : Addr}

theorem pc_hookedEntry (s : Cpu) : (hookedEntry s src replace dst).pc = dst := rfl

theorem mem_hookedEntry (s : Cpu) :
    (hookedEntry s src replace dst).mem = hookedMem s.mem src replace dst := rfl

theorem buildRelocatedCode_eq_prologue (m : Mem) (src replace : Addr) :
    buildRelocatedCode m src (buildJumpPatch src replace).patchSize =
      (blockFragment src (prologue m src replace)).final :=
  buildRelocatedCode_eq_final m src replace

theorem copy_eq (m : Mem) (src replace dst : Addr) : Copy m src replace dst =
    InRange dst (4 * (blockFragment src (prologue m src replace)).final.length) := by
  rw [← buildRelocatedCode_eq_prologue]
  rfl

theorem length_prologue (m : Mem) (src replace : Addr) :
    4 * (prologue m src replace).length = (buildJumpPatch src replace).patchSize := by
  rw [prologue, length_wordsAt, ← patchSize_eq_four_mul]

/-- The copy of at most four words has at most a hundred bytes. -/
theorem length_buildRelocatedCode_le (m : Mem) (src replace : Addr) :
    (buildRelocatedCode m src (buildJumpPatch src replace).patchSize).length ≤ 25 := by
  have h1 := length_blockFragment_final_le src (prologue m src replace)
  have h2 := length_prologue m src replace
  have h3 := patchSize_bounds src replace
  rw [buildRelocatedCode_eq_prologue]
  omega

/-- Outside the patch and the copy the memory is as before. -/
theorem hookedMem_of_not_mem {x : Addr} (hw : ¬ Window src replace x)
    (hc : ¬ Copy m src replace dst x) : hookedMem m src replace dst x = m x := by
  rw [hookedMem, Mem.writeBytes_of_not_inRange, Mem.writeBytes_of_not_inRange]
  · rw [length_wordBytes]
    exact hc
  · rw [length_patchBytes]
    exact hw

/-- The copy stands in the hooked memory. -/
theorem holds_hookedMem (hapart : ∀ x, Window src replace x → ¬ Copy m src replace dst x) :
    Holds (hookedMem m src replace dst) dst
      (buildRelocatedCode m src (buildJumpPatch src replace).patchSize) := by
  have hlen := length_buildRelocatedCode_le m src replace
  intro i hi
  rw [hookedMem, Mem.writeBytes_of_not_inRange, holds_writeBytes m dst (by omega) i hi]
  rw [length_patchBytes]
  exact fun hw => hapart _ hw (inRange_add hi (by omega))

theorem wordsAt_of_holds {a : Addr} {ws : List Word} (h : Holds m a ws) :
    wordsAt m a ws.length = ws := by
  refine List.ext_getElem (length_wordsAt _ _ _) fun i h1 h2 => ?_
  simp only [wordsAt, List.getElem_map, List.getElem_range]
  rw [h.read_word h2, List.getD_eq_getElem?_getD, List.getElem?_eq_getElem h2]
  rfl

/-- The words of the copy are words of the hooked program. -/
theorem hookedProgram_copy (hapart : ∀ x, Window src replace x → ¬ Copy m src replace dst x)
    {i : ℕ} {w : Word}
    (hi : (buildRelocatedCode m src (buildJumpPatch src replace).patchSize)[i]? = some w) :
    hookedProgram m src replace dst (dst + BitVec.ofNat 64 (4 * i)) = some w := by
  have hlt := (List.getElem?_eq_some_iff.mp hi).1
  have hlen := length_buildRelocatedCode_le m src replace
  have hout : ¬ Window src replace (dst + BitVec.ofNat 64 (4 * i)) := fun hw =>
    hapart _ hw (inRange_add (by omega) (by omega))
  rw [Window, ← length_prologue (hookedMem m src replace dst)] at hout
  rw [hookedProgram, Program.block_eq_none hout, Option.none_or,
    wordsAt_of_holds (holds_hookedMem hapart), Program.block_add dst _ (by omega), hi]

/-- An address outside the patch and the copy is outside both programs. -/
theorem programs_eq_none {x : Addr} (hw : ¬ Window src replace x)
    (hc : ¬ Copy m src replace dst x) :
    originalProgram m src replace x = none ∧ hookedProgram m src replace dst x = none := by
  have hw' : ∀ m', ¬ InRange src (4 * (prologue m' src replace).length) x := fun m' => by
    rw [length_prologue]
    exact hw
  refine ⟨Program.block_eq_none (hw' m), ?_⟩
  rw [hookedProgram, Program.block_eq_none (hw' _), Option.none_or]
  refine Program.block_eq_none ?_
  rw [length_wordsAt]
  exact hc

/-- Installing the hook changes the bytes of the patch and of the copy. -/
theorem agree_hookedEntry (s : Cpu) :
    Agree isX17 (fun x => Window src replace x ∨ Copy s.mem src replace dst x) s
      (hookedEntry s src replace dst) := by
  rw [hookedEntry]
  refine ⟨fun n _ => ?_, ?_, fun n => ?_, ?_, fun a ha => ?_⟩
  · rw [Cpu.readX_setPc, Cpu.readX_setMem]
  · rw [Cpu.sp_setPc, Cpu.sp_setMem]
  · rw [Cpu.readV_setPc, Cpu.readV_setMem]
  · rw [Cpu.nzcv_setPc, Cpu.nzcv_setMem]
  · rw [not_or] at ha
    exact (hookedMem_of_not_mem ha.1 ha.2).symm

/-- The relocated code runs to where the overwritten words are first left by a branch or by their
end. -/
theorem reaches_exit (isa : Isa) {s : Cpu} (hpc : s.pc = src)
    (hapart : ∀ x, Window src replace x → ¬ Copy s.mem src replace dst x)
    (hws : ∀ w ∈ prologue s.mem src replace, Relocatable isa w)
    (hclear : Clear isa (fun x => Window src replace x ∨ Copy s.mem src replace dst x)
      (prologue s.mem src replace) s) :
    ∃ t', Reaches (hookedProgram s.mem src replace dst) isa (hookedEntry s src replace dst) t' ∧
      t'.pc = (blockExit isa (prologue s.mem src replace) s).pc ∧
      Agree (ignoredAfter (exitWord isa (prologue s.mem src replace) s))
        (fun x => Window src replace x ∨ Copy s.mem src replace dst x)
        (blockExit isa (prologue s.mem src replace) s) t' := by
  subst hpc
  have hlen := length_buildRelocatedCode_le s.mem s.pc replace
  have hfinal := buildRelocatedCode_eq_prologue s.mem s.pc replace
  have hplaced : Placed (hookedProgram s.mem s.pc replace dst) (Copy s.mem s.pc replace dst)
      (hookedEntry s s.pc replace dst).mem (hookedEntry s s.pc replace dst).pc
      (blockFragment s.pc (prologue s.mem s.pc replace)) := by
    rw [mem_hookedEntry, pc_hookedEntry, copy_eq]
    refine placed_final (wf_blockFragment _ _) ?_ ?_ ?_
    · rw [← hfinal]
      omega
    · intro i w hi
      rw [← hfinal] at hi
      exact hookedProgram_copy hapart hi
    · rw [← hfinal]
      exact holds_hookedMem hapart
  exact sim_block (fun _ ha => Or.inr ha) hws (agree_hookedEntry s) hclear hplaced

/-- **The trampoline runs the overwritten words**, as far as these are left for an address outside
the patch.  Let the overwritten words be relocatable, and let the words executed up to the first
taken branch access neither the overwritten bytes nor the copy.

If that branch (or the end of the words) leads out of the patch and the copy, the relocated code
leaves for the same address in an agreeing state.  If it leads back into the overwritten bytes, the
relocated code branches into the jump patch. -/
theorem trampoline_refines (isa : Isa) (src replace dst : Addr) (s : Cpu) (hpc : s.pc = src)
    (hapart : ∀ x, Window src replace x → ¬ Copy s.mem src replace dst x)
    (hws : ∀ w ∈ prologue s.mem src replace, Relocatable isa w)
    (hclear : Clear isa (fun x => Window src replace x ∨ Copy s.mem src replace dst x)
      (prologue s.mem src replace) s) :
    ((¬ Window src replace (blockExit isa (prologue s.mem src replace) s).pc ∧
        ¬ Copy s.mem src replace dst (blockExit isa (prologue s.mem src replace) s).pc) →
      (∃ t, LeavesTo (originalProgram s.mem src replace) isa s t) ∧
      TrampolineRefines isa (ignoredAfter (exitWord isa (prologue s.mem src replace) s)) src replace
        dst s) ∧
    (Window src replace (blockExit isa (prologue s.mem src replace) s).pc →
      ∃ t, Reaches (originalProgram s.mem src replace) isa s t ∧
        ∃ t', Reaches (hookedProgram s.mem src replace dst) isa (hookedEntry s src replace dst) t' ∧
          t'.pc = t.pc ∧ Window src replace t'.pc) := by
  have hhas : (originalProgram s.mem src replace).Has s.pc (prologue s.mem src replace) := by
    rw [hpc]
    refine Program.block_has src ?_
    have hlength := length_prologue s.mem src replace
    have hsize := patchSize_bounds src replace
    omega
  have horig := reaches_blockExit isa hhas
  obtain ⟨t', hreach, hpc', hagree⟩ := reaches_exit isa hpc hapart hws hclear
  constructor
  · rintro ⟨hw, hc⟩
    obtain ⟨hout, hout'⟩ := programs_eq_none hw hc
    have hleave := horig.leavesTo hout
    refine ⟨⟨_, hleave⟩, fun t ht => ?_⟩
    obtain rfl := ht.unique hleave
    refine ⟨t', hreach.leavesTo ?_, hpc', hagree⟩
    rw [hpc']
    exact hout'
  · intro hw
    refine ⟨_, horig, t', hreach, hpc', ?_⟩
    rw [hpc']
    exact hw

/-! ### A branch out of the block, and a branch inside it -/

/-- The words `ws` at `a` in an empty memory. -/
def codeMem (a : Addr) (ws : List Word) : Mem := Mem.writeBytes (fun _ => 0) a (wordBytes ws)

theorem relocatable_nop (isa : Isa) : Relocatable isa kOpNOP := by
  refine .other (by decide) (pcIndependent_of_avoids isa ?_)
  rw [show decode kOpNOP = .nop from rfl]
  trivial

/-- A branch and two `NOP`s are relocatable. -/
theorem relocatable_branch_nop_nop (isa : Isa) {b : Word} (hb : isB b = true) :
    ∀ w ∈ [b, kOpNOP, kOpNOP], Relocatable isa w := by
  intro w hw
  simp only [List.mem_cons, List.not_mem_nil, or_false] at hw
  rcases hw with rfl | rfl | rfl
  · exact .b hb
  · exact relocatable_nop isa
  · exact relocatable_nop isa

/-- A block that begins with a branch accesses no data. -/
theorem clear_branch {isa : Isa} {R : Addr → Prop} {b : Word} {off : BitVec 64}
    (hb : decode b = .b off) (ws : List Word) (s : Cpu) : Clear isa R (b :: ws) s := by
  rw [Clear, hb]
  exact ⟨fun a h => h.elim, fun h => absurd h (by simp [branchTarget])⟩

theorem apart_window_copy (m : Mem) (x : Addr) (hx : Window 0x10000000 0x20000000 x) :
    ¬ Copy m 0x10000000 0x20000000 0x30000000 x := by
  intro hc
  have h1 : (buildJumpPatch 0x10000000 0x20000000).patchSize = 12 := rfl
  have h2 := length_buildRelocatedCode_le m 0x10000000 0x20000000
  rw [Window, h1, InRange] at hx
  rw [Copy, InRange] at hc
  have h3 : (x - 0x30000000).toNat < 100 := by omega
  bv_omega

/-- `B +4096; NOP; NOP`, hooked with a patch of twelve bytes. -/
def outerBranch : Mem := codeMem 0x10000000 [0x14000400, kOpNOP, kOpNOP]

theorem prologue_outerBranch :
    prologue outerBranch 0x10000000 0x20000000 = [0x14000400, kOpNOP, kOpNOP] := by
  decide

theorem outerBranch_refines :
    TrampolineRefines Isa.bare (ignoredAfter (exitWord Isa.bare
        (prologue outerBranch 0x10000000 0x20000000) (Cpu.zero 0x10000000 outerBranch)))
      0x10000000 0x20000000 0x30000000 (Cpu.zero 0x10000000 outerBranch) := by
  have hb : decode 0x14000400 = .b 4096 := rfl
  have hmain := trampoline_refines Isa.bare 0x10000000 0x20000000 0x30000000
    (Cpu.zero 0x10000000 outerBranch) rfl (apart_window_copy outerBranch)
    (by
      show ∀ w ∈ prologue outerBranch 0x10000000 0x20000000, _
      rw [prologue_outerBranch]
      exact relocatable_branch_nop_nop Isa.bare (by decide))
    (by
      show Clear _ _ (prologue outerBranch 0x10000000 0x20000000) _
      rw [prologue_outerBranch]
      exact clear_branch hb _ _)
  have hexit : (blockExit Isa.bare (prologue outerBranch 0x10000000 0x20000000)
      (Cpu.zero 0x10000000 outerBranch)).pc = 0x10001000 := by
    rw [prologue_outerBranch, blockExit, hb]
    rfl
  refine (hmain.1 ?_).2
  show ¬ Window 0x10000000 0x20000000
    (blockExit Isa.bare (prologue outerBranch 0x10000000 0x20000000)
      (Cpu.zero 0x10000000 outerBranch)).pc ∧ ¬ Copy outerBranch 0x10000000 0x20000000 0x30000000
      (blockExit Isa.bare (prologue outerBranch 0x10000000 0x20000000)
      (Cpu.zero 0x10000000 outerBranch)).pc
  rw [hexit, Window, Copy, InRange, InRange]
  decide

/-- `B +8; NOP; NOP`, hooked with a patch of twelve bytes. -/
def innerBranch : Mem := codeMem 0x10000000 [0x14000002, kOpNOP, kOpNOP]

theorem prologue_innerBranch :
    prologue innerBranch 0x10000000 0x20000000 = [0x14000002, kOpNOP, kOpNOP] := by
  decide

theorem hookedProgram_innerBranch :
    hookedProgram innerBranch 0x10000000 0x20000000 0x30000000 0x30000000 =
      some (Assembler.patchLdr 24 kLdrX17) ∧
    hookedProgram innerBranch 0x10000000 0x20000000 0x30000000 0x30000004 = some brX17 ∧
    hookedProgram innerBranch 0x10000000 0x20000000 0x30000000 0x10000008 = some brX17 ∧
    (hookedMem innerBranch 0x10000000 0x20000000 0x30000000).read 0x30000018 8 = 0x10000008#64 := by
  decide

/-- The relocated code branches to the last word of the patch and stays there. -/
theorem innerBranch_never_leaves (isa : Isa) (t : Cpu) :
    ¬ LeavesTo (hookedProgram innerBranch 0x10000000 0x20000000 0x30000000) isa
      (hookedEntry (Cpu.zero 0x10000000 innerBranch) 0x10000000 0x20000000 0x30000000) t := by
  obtain ⟨h1, h2, h3, h4⟩ := hookedProgram_innerBranch
  have hdec : decode (Assembler.patchLdr 24 kLdrX17) = .ldrLit .x 17 24 := rfl
  rintro ⟨n, hn, hout⟩
  let I : Cpu → Prop := fun c =>
    c.mem = hookedMem innerBranch 0x10000000 0x20000000 0x30000000 ∧
      (c.pc = 0x30000000 ∨ c.readX 17 = 0x10000008 ∧ (c.pc = 0x30000004 ∨ c.pc = 0x10000008))
  have hI : I t := by
    refine Reaches.induction ⟨n, hn⟩ ⟨rfl, Or.inl rfl⟩ ?_
    rintro c w ⟨hm, hc | ⟨hx, hc | hc⟩⟩ hw
    · rw [hc, h1] at hw
      obtain rfl := Option.some.inj hw
      rw [hdec]
      refine ⟨hm, Or.inr ⟨?_, Or.inl ?_⟩⟩
      · show (c.setX 17 (c.mem.read (c.pc + 24) 8)).readX 17 = _
        rw [Cpu.readX_setX_same _ _ _ (by omega), hm, hc]
        exact h4
      · show c.pc + 4 = _
        rw [hc]
        rfl
    · rw [hc, h2] at hw
      obtain rfl := Option.some.inj hw
      rw [decode_brX17]
      exact ⟨hm, Or.inr ⟨hx, Or.inr hx⟩⟩
    · rw [hc, h3] at hw
      obtain rfl := Option.some.inj hw
      rw [decode_brX17]
      exact ⟨hm, Or.inr ⟨hx, Or.inr hx⟩⟩
  rcases hI with ⟨-, hc | ⟨-, hc | hc⟩⟩
  · rw [hc, h1] at hout
    exact absurd hout (by simp)
  · rw [hc, h2] at hout
    exact absurd hout (by simp)
  · rw [hc, h3] at hout
    exact absurd hout (by simp)

/-- The overwritten words themselves are left after two steps. -/
theorem innerBranch_leaves (isa : Isa) :
    ∃ t, LeavesTo (originalProgram innerBranch 0x10000000 0x20000000) isa
      (Cpu.zero 0x10000000 innerBranch) t := by
  have h1 : originalProgram innerBranch 0x10000000 0x20000000 0x10000000 = some 0x14000002 := by
    decide
  have h2 : originalProgram innerBranch 0x10000000 0x20000000 0x10000008 = some kOpNOP := by
    decide
  have h3 : originalProgram innerBranch 0x10000000 0x20000000 0x1000000C = none := by
    decide
  have hb : decode 0x14000002 = .b 8 := rfl
  have hnop : decode kOpNOP = .nop := rfl
  have r1 : Reaches _ isa (Cpu.zero 0x10000000 innerBranch) _ := reaches_one h1 hb
  have r2 : Reaches _ isa (isa.exec (.b 8) (Cpu.zero 0x10000000 innerBranch)) _ :=
    reaches_one h2 hnop
  exact ⟨_, (r1.trans r2).leavesTo h3⟩

/-- A branch inside the overwritten words: the words are left, the relocated code never is. -/
theorem innerBranch_not_refines :
    (∀ x, Window 0x10000000 0x20000000 x → ¬ Copy innerBranch 0x10000000 0x20000000 0x30000000 x) ∧
    (∀ w ∈ prologue innerBranch 0x10000000 0x20000000, Relocatable Isa.bare w) ∧
    Clear Isa.bare (fun x => Window 0x10000000 0x20000000 x ∨
        Copy innerBranch 0x10000000 0x20000000 0x30000000 x)
      (prologue innerBranch 0x10000000 0x20000000) (Cpu.zero 0x10000000 innerBranch) ∧
    ∀ ign, ¬ TrampolineRefines Isa.bare ign 0x10000000 0x20000000 0x30000000
      (Cpu.zero 0x10000000 innerBranch) := by
  have hb : decode 0x14000002 = .b 8 := rfl
  refine ⟨apart_window_copy innerBranch, ?_, ?_, ?_⟩
  · rw [prologue_innerBranch]
    exact relocatable_branch_nop_nop Isa.bare (by decide)
  · rw [prologue_innerBranch]
    exact clear_branch hb _ _
  · intro ign h
    obtain ⟨t, ht⟩ := innerBranch_leaves Isa.bare
    obtain ⟨t', ht', -⟩ := h t ht
    exact innerBranch_never_leaves Isa.bare t' ht'

end Hooked

end Arm64
end CalvinHook
