import CalvinHook.A64.Exec

/-!
# Programs and their runs

A `Program` says which word stands at which address; it is a partial map, so a run *leaves* the
program when the program counter reaches an address without a word.

* `Program.stepN`, `Reaches`, `LeavesTo`: `n` steps inside the program, some number of steps, and
  the first state outside it, which is unique (`LeavesTo.unique`).
* `Program.Has P a ws`: the words `ws` stand at `a`; `block a ws` is the program of these words.
* `execWords`: words executed one after another, and `stepN_words`, `stepN_words_last`: a run
  over words that do not branch (but possibly the last one) executes them one after another.
* `stepN_isSome_of_loop`: a run that comes back to where it was never leaves the program.
-/

namespace CalvinHook
namespace A64

/-- The words of a program, by address. -/
abbrev Program := Addr → Option Word

namespace Program

/-- Execute the word at the program counter. -/
def step (P : Program) (isa : Isa) (s : Cpu) : Option Cpu :=
  (P s.pc).map fun w => isa.exec (decode w) s

/-- Execute `n` words of the program. -/
def stepN (P : Program) (isa : Isa) : ℕ → Cpu → Option Cpu
  | 0, s => some s
  | n + 1, s => (P.step isa s).bind (P.stepN isa n)

/-- The words `ws` stand in the program from `a` on. -/
def Has (P : Program) (a : Addr) : List Word → Prop
  | [] => True
  | w :: ws => P a = some w ∧ Has P (a + 4) ws

end Program

variable {P : Program} {isa : Isa} {s t u : Cpu} {a : Addr}

/-! ## Runs -/

/-- A run inside the program leads from `s` to `t`. -/
def Reaches (P : Program) (isa : Isa) (s t : Cpu) : Prop := ∃ n, P.stepN isa n s = some t

/-- The run from `s` leaves the program, and `t` is the first state outside it. -/
def LeavesTo (P : Program) (isa : Isa) (s t : Cpu) : Prop :=
  ∃ n, P.stepN isa n s = some t ∧ P t.pc = none

theorem step_eq_some {w : Word} (h : P s.pc = some w) :
    P.step isa s = some (isa.exec (decode w) s) := by
  rw [Program.step, h]
  rfl

theorem stepN_succ_of_step {n : ℕ} (h : P.step isa s = some t) :
    P.stepN isa (n + 1) s = P.stepN isa n t := by
  rw [Program.stepN, h]
  rfl

theorem stepN_add (P : Program) (isa : Isa) (n k : ℕ) (s : Cpu) :
    P.stepN isa (n + k) s = (P.stepN isa n s).bind (P.stepN isa k) := by
  induction n generalizing s with
  | zero =>
    rw [Nat.zero_add]
    rfl
  | succ n ih =>
    rw [Nat.succ_add, Program.stepN, Program.stepN]
    cases P.step isa s with
    | none => rfl
    | some t => exact ih t

/-- A state outside the program makes no step. -/
theorem stepN_eq_none {n : ℕ} (h : P s.pc = none) : P.stepN isa (n + 1) s = none := by
  rw [Program.stepN, Program.step, h]
  rfl

theorem Reaches.refl (P : Program) (isa : Isa) (s : Cpu) : Reaches P isa s s := ⟨0, rfl⟩

theorem Reaches.trans (h : Reaches P isa s t) (k : Reaches P isa t u) : Reaches P isa s u := by
  obtain ⟨n, hn⟩ := h
  obtain ⟨m, hm⟩ := k
  refine ⟨n + m, ?_⟩
  rw [stepN_add, hn]
  exact hm

theorem Reaches.head {w : Word} (h : P s.pc = some w)
    (k : Reaches P isa (isa.exec (decode w) s) t) :
    Reaches P isa s t := by
  obtain ⟨n, hn⟩ := k
  refine ⟨n + 1, ?_⟩
  rw [stepN_succ_of_step (step_eq_some h)]
  exact hn

theorem Reaches.leavesTo (h : Reaches P isa s t) (hout : P t.pc = none) : LeavesTo P isa s t := by
  obtain ⟨n, hn⟩ := h
  exact ⟨n, hn, hout⟩

/-- **The first state outside the program is unique.** -/
theorem LeavesTo.unique (h : LeavesTo P isa s t) (k : LeavesTo P isa s u) : t = u := by
  obtain ⟨n, hn, ht⟩ := h
  obtain ⟨m, hm, hu⟩ := k
  -- the longer run would have to make a step from outside the program
  rcases Nat.lt_trichotomy n m with hlt | heq | hgt
  · obtain ⟨d, rfl⟩ := Nat.exists_eq_add_of_lt hlt
    rw [Nat.add_assoc, stepN_add, hn] at hm
    exact absurd hm (by simp [stepN_eq_none ht])
  · rw [heq, hm] at hn
    exact (Option.some.inj hn).symm
  · obtain ⟨d, rfl⟩ := Nat.exists_eq_add_of_lt hgt
    rw [Nat.add_assoc, stepN_add, hm] at hn
    exact absurd hn (by simp [stepN_eq_none hu])

/-- **Invariants of a run.**  What holds at the start and is kept by every step inside the program
holds in every state the run reaches. -/
theorem Reaches.induction {I : Cpu → Prop} (h : Reaches P isa s t) (h0 : I s)
    (hstep : ∀ c w, I c → P c.pc = some w → I (isa.exec (decode w) c)) : I t := by
  obtain ⟨n, hn⟩ := h
  induction n generalizing s with
  | zero =>
    rw [← Option.some.inj hn]
    exact h0
  | succ n ih =>
    cases hw : P s.pc with
    | none => rw [stepN_eq_none hw] at hn; exact absurd hn (by simp)
    | some w =>
      rw [stepN_succ_of_step (step_eq_some hw)] at hn
      exact ih (hstep s w h0 hw) hn

/-- **Loops.**  A state from which `k` steps lead back to such a state never leaves the program. -/
theorem stepN_isSome_of_loop {I : Cpu → Prop} {k : ℕ} (hk : 0 < k)
    (hloop : ∀ c, I c → ∃ c', P.stepN isa k c = some c' ∧ I c') {c : Cpu} (hc : I c) (n : ℕ) :
    (P.stepN isa n c).isSome := by
  induction n using Nat.strong_induction_on generalizing c with
  | h n ih =>
    obtain ⟨c', hc', hI⟩ := hloop c hc
    rcases Nat.lt_or_ge n k with hn | hn
    · -- a part of one round
      obtain ⟨d, rfl⟩ := Nat.exists_eq_add_of_lt hn
      rw [Nat.add_assoc, stepN_add] at hc'
      cases hd : P.stepN isa n c with
      | none =>
        rw [hd] at hc'
        exact absurd hc' (by simp)
      | some t => rfl
    · obtain ⟨d, rfl⟩ := Nat.exists_eq_add_of_le hn
      rw [stepN_add, hc']
      exact ih d (by omega) hI

/-! ## Words in a program -/

namespace Program

@[simp] theorem has_nil : P.Has a [] := trivial

theorem has_cons {w : Word} {ws : List Word} :
    P.Has a (w :: ws) ↔ P a = some w ∧ P.Has (a + 4) ws := Iff.rfl

theorem has_append {us ws : List Word} :
    P.Has a (us ++ ws) ↔ P.Has a us ∧ P.Has (a + BitVec.ofNat 64 (4 * us.length)) ws := by
  induction us generalizing a with
  | nil => simp
  | cons u us ih =>
    have haddr : a + 4 + BitVec.ofNat 64 (4 * us.length) =
        a + BitVec.ofNat 64 (4 * (u :: us).length) := by
      rw [List.length_cons, Nat.mul_succ, Nat.add_comm, BitVec.ofNat_add, BitVec.add_assoc]
      rfl
    rw [List.cons_append, has_cons, has_cons, ih, haddr, and_assoc]

/-- The program of the words `ws` at `a`. -/
def block (a : Addr) (ws : List Word) : Program := fun x =>
  if (x - a).toNat % 4 = 0 then ws[(x - a).toNat / 4]? else none

theorem block_add (a : Addr) (ws : List Word) {i : ℕ} (hi : 4 * i < 2 ^ 64) :
    block a ws (a + BitVec.ofNat 64 (4 * i)) = ws[i]? := by
  have h1 : 4 * i % 4 = 0 := by omega
  have h2 : 4 * i / 4 = i := by omega
  rw [block, toNat_add_ofNat_sub a hi, if_pos h1, h2]

/-- Outside its words a block has none. -/
theorem block_eq_none {ws : List Word} {x : Addr} (h : ¬ InRange a (4 * ws.length) x) :
    block a ws x = none := by
  rw [InRange] at h
  rw [block]
  split_ifs with h4
  · rw [List.getElem?_eq_none_iff]
    omega
  · rfl

/-- Words listed by their position. -/
theorem has_of_getElem? {ws : List Word} {k : ℕ}
    (h : ∀ i, i < ws.length → P (a + BitVec.ofNat 64 (4 * (k + i))) = ws[i]?) :
    P.Has (a + BitVec.ofNat 64 (4 * k)) ws := by
  induction ws generalizing k with
  | nil => trivial
  | cons w ws ih =>
    have haddr : a + BitVec.ofNat 64 (4 * k) + 4 = a + BitVec.ofNat 64 (4 * (k + 1)) := by
      rw [Nat.mul_succ, BitVec.ofNat_add, BitVec.add_assoc]
      rfl
    refine ⟨by simpa using h 0 (by simp), ?_⟩
    rw [haddr]
    refine ih fun i hi => ?_
    have hk : k + 1 + i = k + (i + 1) := by omega
    rw [hk, h (i + 1) (by simpa using hi), List.getElem?_cons_succ]

theorem block_has (a : Addr) {ws : List Word} (h : 4 * ws.length ≤ 2 ^ 64) :
    (block a ws).Has a ws := by
  have h0 : (block a ws).Has (a + BitVec.ofNat 64 (4 * 0)) ws := by
    refine has_of_getElem? fun i hi => ?_
    rw [Nat.zero_add, block_add a ws (by omega)]
  simpa using h0

end Program

/-! ## Straight-line execution -/

/-- Execute words one after another. -/
def execWords (isa : Isa) (ws : List Word) (s : Cpu) : Cpu :=
  ws.foldl (fun s w => isa.exec (decode w) s) s

@[simp] theorem execWords_nil : execWords isa [] s = s := rfl

@[simp] theorem execWords_cons {w : Word} {ws : List Word} :
    execWords isa (w :: ws) s = execWords isa ws (isa.exec (decode w) s) := rfl

theorem execWords_append {us ws : List Word} :
    execWords isa (us ++ ws) s = execWords isa ws (execWords isa us s) := by
  rw [execWords, List.foldl_append]
  rfl

/-- None of the words branches. -/
def Straight (ws : List Word) : Prop := ∀ w ∈ ws, (decode w).isBranch = false

instance (ws : List Word) : Decidable (Straight ws) :=
  inferInstanceAs (Decidable (∀ w ∈ ws, _))

theorem straight_cons {w : Word} {ws : List Word} :
    Straight (w :: ws) ↔ (decode w).isBranch = false ∧ Straight ws := by
  simp [Straight]

theorem straight_append {us ws : List Word} :
    Straight (us ++ ws) ↔ Straight us ∧ Straight ws := by
  simp [Straight, or_imp, forall_and]

/-- A loop of words that do not branch. -/
theorem straight_range {f : ℕ → Word} {n : ℕ} (h : ∀ i < n, (decode (f i)).isBranch = false) :
    Straight ((List.range n).map f) := by
  intro w hw
  rw [List.mem_map] at hw
  obtain ⟨i, hi, rfl⟩ := hw
  exact h i (List.mem_range.mp hi)

theorem straight_singleton {w : Word} : Straight [w] ↔ (decode w).isBranch = false := by
  simp [Straight]

theorem pc_exec_of_straight {w : Word} (h : (decode w).isBranch = false) :
    (isa.exec (decode w) s).pc = s.pc + 4 := by
  rw [pc_exec, branchTarget_of_not_isBranch h]
  rfl

theorem pc_execWords {ws : List Word} (h : Straight ws) :
    (execWords isa ws s).pc = s.pc + BitVec.ofNat 64 (4 * ws.length) := by
  induction ws generalizing s with
  | nil => simp
  | cons w ws ih =>
    rw [straight_cons] at h
    rw [execWords_cons, ih h.2, pc_exec_of_straight h.1, List.length_cons, Nat.mul_succ,
      Nat.add_comm, BitVec.ofNat_add, BitVec.add_assoc]
    rfl

/-- A run over words that do not branch executes them one after another. -/
theorem stepN_words {ws : List Word} (hP : P.Has s.pc ws) (h : Straight ws) :
    P.stepN isa ws.length s = some (execWords isa ws s) := by
  induction ws generalizing s with
  | nil => rfl
  | cons w ws ih =>
    rw [straight_cons] at h
    rw [List.length_cons, stepN_succ_of_step (step_eq_some hP.1), execWords_cons]
    refine ih ?_ h.2
    rw [pc_exec_of_straight h.1]
    exact hP.2

/-- The same when the last word may branch. -/
theorem stepN_words_last (isa : Isa) {ws : List Word} {w : Word} (hP : P.Has s.pc (ws ++ [w]))
    (h : Straight ws) : P.stepN isa (ws.length + 1) s = some (execWords isa (ws ++ [w]) s) := by
  rw [Program.has_append] at hP
  rw [stepN_add, stepN_words hP.1 h, execWords_append]
  show P.stepN isa 1 (execWords isa ws s) = _
  rw [stepN_succ_of_step (step_eq_some (w := w) ?_)]
  · rfl
  · rw [pc_execWords h]
    exact hP.2.1

end A64
end CalvinHook
