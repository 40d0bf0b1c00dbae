import CalvinHook.A64.Program

/-!
# The procedure call standard

A callee is the function from the state in which it is entered to the state in which it returns.
`Aapcs64 may f` is what a caller can rely on: the callee returns to the address in `X30`, restores
the stack pointer and `X19` to `X29`, and leaves the memory at and above its stack pointer alone,
except for the addresses it was allowed to write.  `mayWrite` is the permission a caller with a
frame of its own gives.
-/

namespace CalvinHook
namespace A64

/-- The address is at or above the stack pointer. -/
def AboveSp (c : Cpu) (a : Addr) : Prop := (a - c.sp).toNat < 2 ^ 63

/-- The callee `f` obeys the procedure call standard; of the memory at and above its stack pointer
it writes only what `may` allows. -/
structure Aapcs64 (may : Cpu → Addr → Prop) (f : Cpu → Cpu) : Prop where
  pc : ∀ c, (f c).pc = c.readX 30
  sp : ∀ c, (f c).sp = c.sp
  x : ∀ c n, 19 ≤ n → n ≤ 29 → (f c).readX n = c.readX n
  mem : ∀ c a, AboveSp c a → ¬ may c a → (f c).mem a = c.mem a

/-- A function that is called: where its code starts and what a call of it does. -/
structure Callee where
  addr : Addr
  run : Cpu → Cpu

/-- Everything outside the `frame` bytes at the stack pointer, and of these the `n` bytes from
offset `d` on. -/
def mayWrite (frame d n : ℕ) (c : Cpu) (a : Addr) : Prop :=
  ¬ InRange c.sp frame a ∨ InRange (c.sp + BitVec.ofNat 64 d) n a

/-- The callee that returns at once. -/
def returnAtOnce (c : Cpu) : Cpu := c.setPc (c.readX 30)

theorem aapcs64_returnAtOnce (may : Cpu → Addr → Prop) : Aapcs64 may returnAtOnce :=
  ⟨fun _ => rfl, fun _ => rfl, fun _ _ _ _ => rfl, fun _ _ _ _ => rfl⟩

variable {may : Cpu → Addr → Prop} {f : Cpu → Cpu} {c : Cpu}

/-- An offset from the stack pointer is above it. -/
theorem aboveSp_add {c : Cpu} {d : ℕ} (hd : d < 2 ^ 63) : AboveSp c (c.sp + BitVec.ofNat 64 d) := by
  rw [AboveSp, toNat_add_ofNat_sub c.sp (by omega)]
  exact hd

/-- A range above the stack pointer that the callee may not write keeps its contents. -/
theorem Aapcs64.read (h : Aapcs64 may f) {d n : ℕ} (hdn : d + n ≤ 2 ^ 63)
    (hmay : ∀ i < n, ¬ may c (c.sp + BitVec.ofNat 64 (d + i))) :
    (f c).mem.read (c.sp + BitVec.ofNat 64 d) n = c.mem.read (c.sp + BitVec.ofNat 64 d) n := by
  refine Mem.read_congr fun i hi => ?_
  have haddr : c.sp + BitVec.ofNat 64 d + BitVec.ofNat 64 i = c.sp + BitVec.ofNat 64 (d + i) := by
    rw [BitVec.add_assoc, ← BitVec.ofNat_add]
  rw [haddr]
  exact h.mem c _ (aboveSp_add (by omega)) (hmay i hi)

section Frame

variable {frame d n : ℕ}

/-- An address of the frame outside the writable part. -/
theorem not_mayWrite (hframe : frame ≤ 2 ^ 63) (hdn : d + n ≤ frame) {e : ℕ} (he : e < frame)
    (hdis : e < d ∨ d + n ≤ e) : ¬ mayWrite frame d n c (c.sp + BitVec.ofNat 64 e) := by
  have hoff : (c.sp + BitVec.ofNat 64 e - c.sp).toNat = e := toNat_add_ofNat_sub c.sp (by omega)
  rintro (hout | hin)
  · exact hout (by rw [InRange, hoff]; exact he)
  · rw [inRange_add_iff (by omega), hoff] at hin
    omega

/-- The part of the frame a callee may not write keeps its contents. -/
theorem Aapcs64.read_frame (h : Aapcs64 (mayWrite frame d n) f) (hframe : frame ≤ 2 ^ 63)
    (hdn : d + n ≤ frame) {e k : ℕ} (he : e + k ≤ frame) (hdis : e + k ≤ d ∨ d + n ≤ e) :
    (f c).mem.read (c.sp + BitVec.ofNat 64 e) k = c.mem.read (c.sp + BitVec.ofNat 64 e) k :=
  h.read (by omega) fun i hi => not_mayWrite hframe hdn (by omega) (by omega)

end Frame

end A64
end CalvinHook
