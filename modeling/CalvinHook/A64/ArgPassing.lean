import CalvinHook.A64.Program

/-!
# Passing arguments

Where the procedure call standard puts arguments of eight bytes: the first eight general ones in
`X0` to `X7`, the first eight vector ones in `V0` to `V7`, and all others, in order, in slots of
eight bytes from the stack pointer on.

* `argLocs` walks the classes of the arguments with the three counters of the standard.
* `Delivered c l`: in state `c` every argument of `l` is where it belongs.
* `delivered_iff` separates the registers from the stack, and `stackArgs_eq_nil_iff` says when no
  argument goes to the stack.
-/

namespace CalvinHook
namespace A64

/-- The register file an argument is passed in. -/
inductive ArgClass where
  | general
  | vector
  deriving DecidableEq

/-- The place of an argument. -/
inductive ArgLoc where
  | x (k : ℕ)
  | v (k : ℕ)
  | stack (j : ℕ)
  deriving DecidableEq

/-- The word of eight bytes at slot `j` above the stack pointer. -/
def Cpu.stackWord (c : Cpu) (j : ℕ) : BitVec 64 := c.mem.read (c.sp + BitVec.ofNat 64 (8 * j)) 8

/-- What is at a place. -/
def ArgLoc.read (c : Cpu) : ArgLoc → BitVec 64
  | .x k => c.readX k
  | .v k => (c.readV k).setWidth 64
  | .stack j => c.stackWord j

/-- The places of arguments when `g` general and `v` vector registers and `k` slots are taken. -/
def argLocs : List ArgClass → ℕ → ℕ → ℕ → List ArgLoc
  | [], _, _, _ => []
  | .general :: cs, g, v, k =>
      if g < 8 then .x g :: argLocs cs (g + 1) v k else .stack k :: argLocs cs g v (k + 1)
  | .vector :: cs, g, v, k =>
      if v < 8 then .v v :: argLocs cs g (v + 1) k else .stack k :: argLocs cs g v (k + 1)

/-- Every argument is where the standard puts it. -/
def Delivered (c : Cpu) (l : List (ArgClass × BitVec 64)) : Prop :=
  (argLocs (l.map Prod.fst) 0 0 0).map (ArgLoc.read c) = l.map Prod.snd

instance (c : Cpu) (l : List (ArgClass × BitVec 64)) : Decidable (Delivered c l) :=
  inferInstanceAs (Decidable (_ = _))

@[simp] theorem length_argLocs (cs : List ArgClass) (g v k : ℕ) :
    (argLocs cs g v k).length = cs.length := by
  induction cs generalizing g v k with
  | nil => rfl
  | cons cls cs ih =>
    cases cls with
    | general =>
      rw [argLocs]
      split_ifs
      · rw [List.length_cons, ih, List.length_cons]
      · rw [List.length_cons, ih, List.length_cons]
    | vector =>
      rw [argLocs]
      split_ifs
      · rw [List.length_cons, ih, List.length_cons]
      · rw [List.length_cons, ih, List.length_cons]

/-- Up to eight general arguments are in `X0`, `X1`, ... by their position. -/
theorem argLocs_of_general {cs : List ArgClass} {g : ℕ} (v k : ℕ) (hcs : ∀ cls ∈ cs, cls = .general)
    (hlen : g + cs.length ≤ 8) : argLocs cs g v k = (List.range' g cs.length).map .x := by
  induction cs generalizing g with
  | nil => rfl
  | cons cls cs ih =>
    rw [List.length_cons] at hlen
    rw [hcs cls List.mem_cons_self, argLocs, if_pos (by omega),
      ih (fun cls hcls => hcs cls (List.mem_cons_of_mem _ hcls)) (by omega), List.length_cons,
      List.range'_succ, List.map_cons]

/-- Among up to eight arguments a vector one is in a vector register. -/
theorem exists_mem_argLocs_of_vector {cs : List ArgClass} {g v : ℕ} (k : ℕ) (hmem : .vector ∈ cs)
    (hg : g + cs.length ≤ 8) (hv : v + cs.length ≤ 8) : ∃ j < 8, .v j ∈ argLocs cs g v k := by
  induction cs generalizing g v with
  | nil => exact absurd hmem (by simp)
  | cons cls cs ih =>
    rw [List.length_cons] at hg hv
    cases cls with
    | general =>
      obtain ⟨j, hj, hin⟩ := ih (g := g + 1) (v := v) (by simpa using hmem) (by omega) (by omega)
      refine ⟨j, hj, ?_⟩
      rw [argLocs, if_pos (by omega)]
      exact List.mem_cons_of_mem _ hin
    | vector =>
      refine ⟨v, by omega, ?_⟩
      rw [argLocs, if_pos (by omega)]
      exact List.mem_cons_self

/-! ## Registers and stack -/

/-- The arguments that go to the stack. -/
def stackArgs : List (ArgClass × BitVec 64) → ℕ → ℕ → List (BitVec 64)
  | [], _, _ => []
  | (.general, val) :: l, g, v =>
      if g < 8 then stackArgs l (g + 1) v else val :: stackArgs l g v
  | (.vector, val) :: l, g, v =>
      if v < 8 then stackArgs l g (v + 1) else val :: stackArgs l g v

/-- The arguments that go to registers are there. -/
def RegsHold (c : Cpu) : List (ArgClass × BitVec 64) → ℕ → ℕ → Prop
  | [], _, _ => True
  | (.general, val) :: l, g, v =>
      if g < 8 then c.readX g = val ∧ RegsHold c l (g + 1) v else RegsHold c l g v
  | (.vector, val) :: l, g, v =>
      if v < 8 then (c.readV v).setWidth 64 = val ∧ RegsHold c l g (v + 1) else RegsHold c l g v

variable {c : Cpu}

theorem map_read_argLocs_iff (l : List (ArgClass × BitVec 64)) (g v k : ℕ) :
    (argLocs (l.map Prod.fst) g v k).map (ArgLoc.read c) = l.map Prod.snd ↔
      RegsHold c l g v ∧
        stackArgs l g v = (List.range' k (stackArgs l g v).length).map c.stackWord := by
  induction l generalizing g v k with
  | nil => simp [argLocs, RegsHold, stackArgs]
  | cons p l ih =>
    -- the first argument takes a register, or the next slot of the stack
    obtain ⟨cls, val⟩ := p
    cases cls with
    | general =>
      rw [List.map_cons, argLocs, RegsHold, stackArgs]
      split_ifs with hg
      · rw [List.map_cons, List.map_cons, List.cons_eq_cons, ih, and_assoc]
        rfl
      · rw [List.map_cons, List.map_cons, List.cons_eq_cons, ih, List.length_cons, List.range'_succ,
          List.map_cons, List.cons_eq_cons, @eq_comm _ val, and_left_comm]
        rfl
    | vector =>
      rw [List.map_cons, argLocs, RegsHold, stackArgs]
      split_ifs with hv
      · rw [List.map_cons, List.map_cons, List.cons_eq_cons, ih, and_assoc]
        rfl
      · rw [List.map_cons, List.map_cons, List.cons_eq_cons, ih, List.length_cons, List.range'_succ,
          List.map_cons, List.cons_eq_cons, @eq_comm _ val, and_left_comm]
        rfl

/-- **Delivery**: the register arguments are in their registers, and the others are the words at the
stack pointer. -/
theorem delivered_iff (l : List (ArgClass × BitVec 64)) :
    Delivered c l ↔ RegsHold c l 0 0 ∧
      stackArgs l 0 0 = (List.range (stackArgs l 0 0).length).map c.stackWord := by
  rw [Delivered, map_read_argLocs_iff, List.range_eq_range']

theorem length_stackArgs_le (l : List (ArgClass × BitVec 64)) (g v : ℕ) :
    (stackArgs l g v).length ≤ l.length := by
  induction l generalizing g v with
  | nil => exact Nat.le_refl 0
  | cons p l ih =>
    obtain ⟨cls, val⟩ := p
    cases cls with
    | general =>
      rw [stackArgs]
      split_ifs
      · exact (ih _ _).trans (Nat.le_succ _)
      · exact Nat.succ_le_succ (ih _ _)
    | vector =>
      rw [stackArgs]
      split_ifs
      · exact (ih _ _).trans (Nat.le_succ _)
      · exact Nat.succ_le_succ (ih _ _)

/-- The number of arguments of a class. -/
def countClass (cls : ArgClass) (l : List (ArgClass × BitVec 64)) : ℕ :=
  (l.map Prod.fst).count cls

theorem stackArgs_eq_nil_iff_of_le (l : List (ArgClass × BitVec 64)) {g v : ℕ} (hg : g ≤ 8)
    (hv : v ≤ 8) :
    stackArgs l g v = [] ↔ g + countClass .general l ≤ 8 ∧ v + countClass .vector l ≤ 8 := by
  induction l generalizing g v with
  | nil => simp [stackArgs, countClass, hg, hv]
  | cons p l ih =>
    obtain ⟨cls, val⟩ := p
    cases cls with
    | general =>
      have hcount : countClass .general ((ArgClass.general, val) :: l) = countClass .general l + 1 ∧
          countClass .vector ((ArgClass.general, val) :: l) = countClass .vector l := by
        simp [countClass]
      rw [stackArgs, hcount.1, hcount.2]
      split_ifs with h8
      · rw [ih (by omega) hv]
        omega
      · constructor
        · intro h
          exact absurd h (by simp)
        · intro h
          omega
    | vector =>
      have hcount : countClass .general ((ArgClass.vector, val) :: l) = countClass .general l ∧
          countClass .vector ((ArgClass.vector, val) :: l) = countClass .vector l + 1 := by
        simp [countClass]
      rw [stackArgs, hcount.1, hcount.2]
      split_ifs with h8
      · rw [ih hg (by omega)]
        omega
      · constructor
        · intro h
          exact absurd h (by simp)
        · intro h
          omega

/-- **No argument goes to the stack** exactly when at most eight of each class are passed. -/
theorem stackArgs_eq_nil_iff (l : List (ArgClass × BitVec 64)) :
    stackArgs l 0 0 = [] ↔ countClass .general l ≤ 8 ∧ countClass .vector l ≤ 8 := by
  rw [stackArgs_eq_nil_iff_of_le l (by omega) (by omega), Nat.zero_add, Nat.zero_add]

end A64
end CalvinHook
