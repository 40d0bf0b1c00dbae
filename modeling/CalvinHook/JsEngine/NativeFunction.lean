import CalvinHook.A64.Aapcs64
import CalvinHook.A64.Spill
import CalvinHook.HookSdk.AssemblerRun
import CalvinHook.JsEngine.NativeTypes

/-!
# `js_native.cpp`: the stub of a `NativeFunction` call

`marshal` sorts the argument values into the two arrays of `marshal_and_call`, and `emitStub` emits
the stub that loads them, calls the function and stores the result.  `stubWords_eq` cuts the stub at
its call; `calledFn` and `fnReturned` execute the two parts.

* `nativeCall_delivers_iff`: which calls hand the function its arguments.  Nothing is put on the
  stack, so a ninth argument of a class arrives only if the stack happens to hold its value.
* `nativeCall_returns_iff`: which calls come back with their result.  The stub does not save `X30`
  around the call.
-/

namespace CalvinHook
namespace Native

open A64 Arm64

/-! ## Marshalling -/

/-- The local variables of the loop of `marshal_and_call`. -/
structure ArgRegs where
  intIdx : ℕ := 0
  floatIdx : ℕ := 0
  intRegs : ℕ → BitVec 64 := fun _ => 0
  floatRegs : ℕ → BitVec 64 := fun _ => 0

/-- The body of the loop. -/
def marshalStep (r : ArgRegs) (arg : ArgType × BitVec 64) : ArgRegs :=
  if isFloatType arg.1 then
    if r.floatIdx < 8 then
      { r with
        floatIdx := r.floatIdx + 1
        floatRegs := Function.update r.floatRegs r.floatIdx arg.2 }
    else r
  else
    if r.intIdx < 8 then
      { r with
        intIdx := r.intIdx + 1
        intRegs := Function.update r.intRegs r.intIdx arg.2 }
    else r

/-- The loop, which stops after 24 arguments. -/
def marshal (types : List ArgType) (values : List (BitVec 64)) : ArgRegs :=
  ((types.zip values).take 24).foldl marshalStep {}

/-! ## The stub -/

def stpWord (rt rt2 : Word) : Word := 0xA9BF0000 ||| (rt2 <<< 10) ||| ((31 : Word) <<< 5) ||| rt
def ldpWord (rt rt2 : Word) : Word := 0xA8C10000 ||| (rt2 <<< 10) ||| ((31 : Word) <<< 5) ||| rt

/-- `LDR Xi, [X21, #i*8]`. -/
def ldrIntAt (i : ℕ) : Word :=
  0xF9400000 ||| (BitVec.ofNat 32 i <<< 10) ||| ((21 : Word) <<< 5) ||| BitVec.ofNat 32 i

/-- `LDR Di, [X22, #i*8]`. -/
def ldrFloatAt (i : ℕ) : Word :=
  0xFD400000 ||| (BitVec.ofNat 32 i <<< 10) ||| ((22 : Word) <<< 5) ||| BitVec.ofNat 32 i

/-- `STR X0, [X19]` and `STR D0, [X19]`. -/
def strX0 : Word := 0xF9000000 ||| ((0 : Word) <<< 10) ||| ((19 : Word) <<< 5) ||| 0
def strD0 : Word := 0xFD000000 ||| ((0 : Word) <<< 10) ||| ((19 : Word) <<< 5) ||| 0

/-- The stub of `marshal_and_call`, for arrays at `intRegs` and `floatRegs`. -/
def emitStub (r : ArgRegs) (intRegs floatRegs fn retValue : Addr) : Assembler :=
  let a := (({} : Assembler).emitInst (stpWord 19 20)).emitInst (stpWord 21 22)
  let a := emitLoop (a.emitMovImm64 21 intRegs) r.intIdx ldrIntAt
  let a := emitLoop (a.emitMovImm64 22 floatRegs) r.floatIdx ldrFloatAt
  let a := (a.emitMovImm64 19 fn).emitBLR 19
  let a := ((a.emitMovImm64 19 retValue).emitInst strX0).emitInst strD0
  let a := (a.emitInst (ldpWord 21 22)).emitInst (ldpWord 19 20)
  (a.emitInst 0xD65F03C0).finalize

/-- The finished stub; irreducible, so that no unifier assembles it. -/
@[irreducible] def stubWords (r : ArgRegs) (intRegs floatRegs fn retValue : Addr) : List Word :=
  (emitStub r intRegs floatRegs fn retValue).buf

/-- `BLR X19`. -/
def blrX19 : Word := kOpBLR ||| ((19 : Word) <<< 5)

/-- From the entry to the call, without the call. -/
def toFn (r : ArgRegs) (intRegs floatRegs fn : Addr) : List Word :=
  [stpWord 19 20, stpWord 21 22] ++ (movImm64 21 intRegs ++ ((List.range r.intIdx).map ldrIntAt ++
    (movImm64 22 floatRegs ++ ((List.range r.floatIdx).map ldrFloatAt ++ movImm64 19 fn))))

/-- From there to the return. -/
def fromFn (retValue : Addr) : List Word :=
  movImm64 19 retValue ++ [strX0, strD0, ldpWord 21 22, ldpWord 19 20]

@[simp] theorem length_toFn (r : ArgRegs) (intRegs floatRegs fn : Addr) :
    (toFn r intRegs floatRegs fn).length = 14 + r.intIdx + r.floatIdx := by
  simp only [toFn, List.length_append, List.length_map, List.length_range, length_movImm64,
    List.length_cons, List.length_nil]
  omega

@[simp] theorem length_fromFn (retValue : Addr) : (fromFn retValue).length = 8 := rfl

/-- **The stub**, cut at its call; what follows the return is padding. -/
theorem stubWords_eq (r : ArgRegs) (intRegs floatRegs fn retValue : Addr) :
    ∃ pad, pad.length ≤ 1 ∧ stubWords r intRegs floatRegs fn retValue =
      (toFn r intRegs floatRegs fn ++ [blrX19]) ++ (fromFn retValue ++ [0xD65F03C0]) ++ pad := by
  have hadd : emitStub r intRegs floatRegs fn retValue = (({} : Assembler).add
      ⟨(toFn r intRegs floatRegs fn ++ [blrX19]) ++ (fromFn retValue ++ [0xD65F03C0]),
        []⟩).finalize := by
    simp only [emitStub, emitInst_eq_add, emitBLR_eq_add, emitMovImm64_eq_add, emitLoop_eq_add,
      Assembler.add_words]
    simp [toFn, fromFn, blrX19]
  rw [stubWords, hadd]
  refine ⟨_, ?_, Fragment.final_of_words _⟩
  rw [List.length_replicate]
  omega

/-! ## Decoding -/

theorem decode_ldrIntAt :
    ∀ i < 8, decode (ldrIntAt i) = .ldrX i 21 (BitVec.ofNat 64 (0 + 8 * i)) := by
  decide

theorem decode_ldrFloatAt : ∀ i < 8,
    decode (ldrFloatAt i) = .ldrV 8 i 22 (BitVec.ofNat 64 (0 + 8 * i)) := by
  decide

theorem decode_stp : decode (stpWord 19 20) = .stpPre 19 20 31 (-16) ∧
    decode (stpWord 21 22) = .stpPre 21 22 31 (-16) :=
  ⟨rfl, rfl⟩

theorem decode_ldp : decode (ldpWord 21 22) = .ldpPost 21 22 31 16 ∧
    decode (ldpWord 19 20) = .ldpPost 19 20 31 16 :=
  ⟨rfl, rfl⟩

theorem decode_stubFixed : decode strX0 = .strX 0 19 0 ∧ decode strD0 = .strV 8 0 19 0 ∧
    decode blrX19 = .blr 19 ∧ decode 0xD65F03C0 = .ret 30 :=
  ⟨rfl, rfl, rfl, rfl⟩

/-! ## What the loop computes -/

section Marshal

variable {c : Cpu}

/-- The counters stay within the arrays. -/
theorem marshalStep_le {r : ArgRegs} (h : r.intIdx ≤ 8 ∧ r.floatIdx ≤ 8)
    (arg : ArgType × BitVec 64) :
    (marshalStep r arg).intIdx ≤ 8 ∧ (marshalStep r arg).floatIdx ≤ 8 := by
  rw [marshalStep]
  split_ifs with hf h8 h8
  · exact ⟨h.1, h8⟩
  · exact h
  · exact ⟨h8, h.2⟩
  · exact h

theorem foldl_marshalStep_le {r : ArgRegs} (h : r.intIdx ≤ 8 ∧ r.floatIdx ≤ 8)
    (l : List (ArgType × BitVec 64)) :
    (l.foldl marshalStep r).intIdx ≤ 8 ∧ (l.foldl marshalStep r).floatIdx ≤ 8 := by
  induction l generalizing r with
  | nil => exact h
  | cons arg l ih => exact ih (marshalStep_le h arg)

theorem marshal_le (types : List ArgType) (values : List (BitVec 64)) :
    (marshal types values).intIdx ≤ 8 ∧ (marshal types values).floatIdx ≤ 8 :=
  foldl_marshalStep_le ⟨Nat.zero_le 8, Nat.zero_le 8⟩ _

/-- `r'` extends `r`: the filled entries stay. -/
structure ArgRegs.Extends (r r' : ArgRegs) : Prop where
  intIdx : r.intIdx ≤ r'.intIdx
  floatIdx : r.floatIdx ≤ r'.floatIdx
  intRegs : ∀ k < r.intIdx, r'.intRegs k = r.intRegs k
  floatRegs : ∀ k < r.floatIdx, r'.floatRegs k = r.floatRegs k

theorem ArgRegs.Extends.trans {r r' r'' : ArgRegs} (h : r.Extends r') (h' : r'.Extends r'') :
    r.Extends r'' where
  intIdx := h.intIdx.trans h'.intIdx
  floatIdx := h.floatIdx.trans h'.floatIdx
  intRegs k hk := (h'.intRegs k (hk.trans_le h.intIdx)).trans (h.intRegs k hk)
  floatRegs k hk := (h'.floatRegs k (hk.trans_le h.floatIdx)).trans (h.floatRegs k hk)

theorem extends_marshalStep (r : ArgRegs) (arg : ArgType × BitVec 64) :
    r.Extends (marshalStep r arg) := by
  have hrefl : r.Extends r := ⟨le_rfl, le_rfl, fun _ _ => rfl, fun _ _ => rfl⟩
  rw [marshalStep]
  split_ifs with hf h8 h8
  · refine ⟨le_rfl, Nat.le_succ _, fun _ _ => rfl, fun k hk => ?_⟩
    exact Function.update_of_ne (by omega) _ _
  · exact hrefl
  · refine ⟨Nat.le_succ _, le_rfl, fun k hk => ?_, fun _ _ => rfl⟩
    exact Function.update_of_ne (by omega) _ _
  · exact hrefl

theorem extends_foldl (r : ArgRegs) (l : List (ArgType × BitVec 64)) :
    r.Extends (l.foldl marshalStep r) := by
  induction l generalizing r with
  | nil => exact ⟨le_rfl, le_rfl, fun _ _ => rfl, fun _ _ => rfl⟩
  | cons arg l ih => exact (extends_marshalStep r arg).trans (ih _)

/-- The registers hold the arrays, up to the counters. -/
structure LoadsArgs (c : Cpu) (r : ArgRegs) : Prop where
  x : ∀ k < r.intIdx, c.readX k = r.intRegs k
  v : ∀ k < r.floatIdx, (c.readV k).setWidth 64 = r.floatRegs k

/-- The classes of the arguments with their values. -/
def argClasses (l : List (ArgType × BitVec 64)) : List (ArgClass × BitVec 64) :=
  l.map fun arg => (arg.1.argClass, arg.2)

/-- **The loop fills the registers as the standard does.** -/
theorem regsHold_foldl (l : List (ArgType × BitVec 64)) (r : ArgRegs)
    (hc : LoadsArgs c (l.foldl marshalStep r)) :
    RegsHold c (argClasses l) r.intIdx r.floatIdx := by
  induction l generalizing r with
  | nil => trivial
  | cons arg l ih =>
    have hrest := ih (marshalStep r arg) hc
    have hext := extends_foldl (marshalStep r arg) l
    rw [List.foldl_cons] at hc
    generalize l.foldl marshalStep (marshalStep r arg) = last at hc hext
    rw [argClasses, List.map_cons, ArgType.argClass]
    -- the entry the first argument gets is never written again
    rw [marshalStep] at hrest hext
    by_cases hf : isFloatType arg.1 = true
    · rw [if_pos hf] at hrest hext ⊢
      rw [RegsHold]
      split_ifs at hrest hext ⊢ with h8
      · have hk : r.floatIdx < last.floatIdx := hext.floatIdx
        refine ⟨?_, hrest⟩
        rw [hc.v _ hk, hext.floatRegs r.floatIdx (Nat.lt_succ_self _)]
        exact Function.update_self _ _ _
      · exact hrest
    · rw [if_neg hf] at hrest hext ⊢
      rw [RegsHold]
      split_ifs at hrest hext ⊢ with h8
      · have hk : r.intIdx < last.intIdx := hext.intIdx
        refine ⟨?_, hrest⟩
        rw [hc.x _ hk, hext.intRegs r.intIdx (Nat.lt_succ_self _)]
        exact Function.update_self _ _ _
      · exact hrest

/-- With at most 24 arguments the loop takes them all. -/
theorem regsHold_marshal {types : List ArgType} {values : List (BitVec 64)}
    (hlen : types.length ≤ 24) (hc : LoadsArgs c (marshal types values)) :
    RegsHold c (argClasses (types.zip values)) 0 0 := by
  have htake : (types.zip values).take 24 = types.zip values :=
    List.take_of_length_le (by rw [List.length_zip]; omega)
  rw [marshal, htake] at hc
  exact regsHold_foldl _ {} hc

end Marshal

/-! ## Running the stub -/

section Run

variable (isa : Isa) (s : Cpu)

theorem straight_toFn (r : ArgRegs) (hr : r.intIdx ≤ 8 ∧ r.floatIdx ≤ 8)
    (intRegs floatRegs fn : Addr) : Straight (toFn r intRegs floatRegs fn) := by
  rw [toFn, straight_append, straight_cons, straight_singleton, decode_stp.1, decode_stp.2,
    straight_append, straight_append, straight_append, straight_append]
  refine ⟨⟨rfl, rfl⟩, straight_movImm64 21 (by omega) _, straight_range fun i hi => ?_,
    straight_movImm64 22 (by omega) _, straight_range fun i hi => ?_,
    straight_movImm64 19 (by omega) _⟩
  · rw [decode_ldrIntAt i (by omega)]
    rfl
  · rw [decode_ldrFloatAt i (by omega)]
    rfl

theorem straight_fromFn (retValue : Addr) : Straight (fromFn retValue) := by
  rw [fromFn, straight_append, straight_cons, straight_cons, straight_cons, straight_singleton,
    decode_stubFixed.1, decode_stubFixed.2.1, decode_ldp.1, decode_ldp.2]
  exact ⟨straight_movImm64 19 (by omega) _, rfl, rfl, rfl, rfl⟩

/-- The state in which the stub enters the function, but for the program counter and `X30`. -/
def argsLoaded (s : Cpu) (r : ArgRegs) (intRegs floatRegs fn : Addr) : Cpu :=
  ((((s.setX 21 intRegs).loadX intRegs r.intIdx).setX 22 floatRegs).loadV floatRegs 8
    r.floatIdx).setX 19 fn

/-- Loading the arguments and calling the function. -/
theorem execWords_callFn (r : ArgRegs) (hr : r.intIdx ≤ 8 ∧ r.floatIdx ≤ 8)
    (intRegs floatRegs fn : Addr) :
    execWords isa ((movImm64 21 intRegs ++ ((List.range r.intIdx).map ldrIntAt ++
      (movImm64 22 floatRegs ++ ((List.range r.floatIdx).map ldrFloatAt ++ movImm64 19 fn)))) ++
        [blrX19]) s =
      ((argsLoaded s r intRegs floatRegs fn).setX 30
        (s.pc + BitVec.ofNat 64 (4 * (13 + r.intIdx + r.floatIdx)))).setPc fn := by
  have hpc : s.pc + 16 + BitVec.ofNat 64 (4 * r.intIdx) + 16 + BitVec.ofNat 64
      (4 * r.floatIdx) + 16 +
      4 = s.pc + BitVec.ofNat 64 (4 * (13 + r.intIdx + r.floatIdx)) := by
    have hsum : 4 * (13 + r.intIdx + r.floatIdx) =
        16 + 4 * r.intIdx + 16 + 4 * r.floatIdx + 16 + 4 := by omega
    rw [hsum]
    simp only [BitVec.ofNat_add, ← BitVec.add_assoc]
    rfl
  have h21 : ∀ t : Cpu,
      execWords isa (movImm64 21 intRegs) t = (t.setX 21 intRegs).setPc (t.pc + 16) :=
    fun t => execWords_movImm64 isa 21 (by omega) intRegs t
  have h22 : ∀ t : Cpu,
      execWords isa (movImm64 22 floatRegs) t = (t.setX 22 floatRegs).setPc (t.pc + 16) :=
    fun t => execWords_movImm64 isa 22 (by omega) floatRegs t
  have h19 : ∀ t : Cpu, execWords isa (movImm64 19 fn) t = (t.setX 19 fn).setPc (t.pc + 16) :=
    fun t => execWords_movImm64 isa 19 (by omega) fn t
  have hx : ∀ t : Cpu, t.readXSP 21 = intRegs →
      execWords isa ((List.range r.intIdx).map ldrIntAt) t =
      (t.loadX intRegs r.intIdx).setPc (t.pc + BitVec.ofNat 64 (4 * r.intIdx)) := by
    intro t ht
    have h : execWords isa ((List.range r.intIdx).map ldrIntAt) t = _ :=
      execWords_loadsX t (by omega) fun i hi => decode_ldrIntAt i (by omega)
    rw [ht, BitVec.add_zero] at h
    exact h
  have hv : ∀ t : Cpu, t.readXSP 22 = floatRegs →
      execWords isa ((List.range r.floatIdx).map ldrFloatAt) t =
        (t.loadV floatRegs 8 r.floatIdx).setPc (t.pc + BitVec.ofNat 64 (4 * r.floatIdx)) := by
    intro t ht
    have h : execWords isa ((List.range r.floatIdx).map ldrFloatAt) t = _ :=
      execWords_loadsV t fun i hi => decode_ldrFloatAt i (by omega)
    rw [ht, BitVec.add_zero] at h
    exact h
  rw [execWords_append, execWords_append, execWords_append, execWords_append, execWords_append, h21,
    hx _ (by rfl), h22, hv _ (by rfl), h19, execWords_cons, decode_stubFixed.2.2.1, execWords_nil,
    exec_blr, Cpu.readX_setPc, Cpu.readX_setX_same _ _ _ (by omega)]
  simp only [Cpu.pc_setPc]
  rw [hpc]
  rfl

/-- From the entry of the stub to the function. -/
structure CalledFn (s : Cpu) (r : ArgRegs) (intRegs floatRegs fn : Addr) (t : Cpu) : Prop where
  pc : t.pc = fn
  sp : t.sp = s.sp - 32
  link : t.readX 30 = s.pc + BitVec.ofNat 64 (4 * (15 + r.intIdx + r.floatIdx))
  x : ∀ n, 23 ≤ n → n ≤ 29 → t.readX n = s.readX n
  args : ∀ k < r.intIdx, t.readX k = t.mem.read (intRegs + BitVec.ofNat 64 (8 * k)) 8
  floats : ∀ k < r.floatIdx,
    t.readV k = (t.mem.read (floatRegs + BitVec.ofNat 64 (8 * k)) 8 : BitVec 64).setWidth 128
  saved : t.stackWord 0 = s.readX 21 ∧ t.stackWord 1 = s.readX 22 ∧ t.stackWord 2 = s.readX 19 ∧
    t.stackWord 3 = s.readX 20
  mem : ∀ a, ¬ InRange t.sp 32 a → t.mem a = s.mem a

/-- The four registers the stub saves, and the rest of the memory. -/
theorem pushPair_pushPair {t : Cpu} (ht : t = (s.pushPair 19 20).pushPair 21 22) :
    t.sp = s.sp - 32 ∧ (t.stackWord 0 = s.readX 21 ∧ t.stackWord 1 = s.readX 22 ∧
      t.stackWord 2 = s.readX 19 ∧ t.stackWord 3 = s.readX 20) ∧
      ∀ a, ¬ InRange t.sp 32 a → t.mem a = s.mem a := by
  have hsp : t.sp = s.sp - 32 := by
    rw [ht, Cpu.sp_pushPair, Cpu.sp_pushPair, sub_sub]
    rfl
  have h16 : s.sp - 16 = t.sp + BitVec.ofNat 64 16 := by
    rw [hsp, sub_add]
    rfl
  have h24 : s.sp - 16 + 8 = t.sp + BitVec.ofNat 64 24 := by
    rw [h16, BitVec.add_assoc]
    rfl
  have h0 : (s.pushPair 19 20).sp - 16 = t.sp := by rw [ht, Cpu.sp_pushPair _ 21 22]
  obtain ⟨h21, h22⟩ := (s.pushPair 19 20).read_pushPair 21 22
  obtain ⟨h19, h20⟩ := s.read_pushPair 19 20
  rw [← ht, h0, Cpu.readX_pushPair] at h21 h22
  -- the second push lies below the first one
  have hkeep : ∀ a, ¬ InRange t.sp 16 a → t.mem a = (s.pushPair 19 20).mem a := by
    intro a ha
    rw [← h0] at ha
    rw [ht, (s.pushPair 19 20).mem_pushPair_of_not_inRange 21 22 ha]
  refine ⟨hsp, ⟨?_, h22, ?_, ?_⟩, ?_⟩
  · rw [Cpu.stackWord, BitVec.add_zero, h21]
  · rw [← h19, h16]
    refine Mem.read_eq_of_forall_inRange (by omega) fun a ha => hkeep a ?_
    rw [inRange_add_iff (by omega)] at ha
    rw [InRange]
    omega
  · rw [← h20, h24]
    refine Mem.read_eq_of_forall_inRange (by omega) fun a ha => hkeep a ?_
    rw [inRange_add_iff (by omega)] at ha
    rw [InRange]
    omega
  · intro a ha
    rw [InRange] at ha
    rw [hkeep a (by rw [InRange]; omega), s.mem_pushPair_of_not_inRange 19 20]
    rw [h16, inRange_add_iff (by omega)]
    omega

theorem calledFn (r : ArgRegs) (hr : r.intIdx ≤ 8 ∧ r.floatIdx ≤ 8) (intRegs floatRegs fn : Addr) :
    CalledFn s r intRegs floatRegs fn
      (execWords isa (toFn r intRegs floatRegs fn ++ [blrX19]) s) := by
  have hwords : execWords isa (toFn r intRegs floatRegs fn ++ [blrX19]) s =
      ((argsLoaded ((s.pushPair 19 20).pushPair 21 22) r intRegs floatRegs fn).setX 30
        (s.pc + BitVec.ofNat 64 (4 * (15 + r.intIdx + r.floatIdx)))).setPc fn := by
    have hpc : ((s.pushPair 19 20).pushPair 21 22).pc = s.pc + 8 := by
      rw [Cpu.pc_pushPair, Cpu.pc_pushPair, BitVec.add_assoc]
      rfl
    have hlink : s.pc + 8 + BitVec.ofNat 64 (4 * (13 + r.intIdx + r.floatIdx)) =
        s.pc + BitVec.ofNat 64 (4 * (15 + r.intIdx + r.floatIdx)) := by
      have hsum : 4 * (15 + r.intIdx + r.floatIdx) = 8 + 4 * (13 + r.intIdx + r.floatIdx) := by
        omega
      rw [hsum, ofNat_offset]
      rfl
    rw [toFn, List.append_assoc, execWords_append, execWords_cons, decode_stp.1, exec_stp,
      execWords_cons, decode_stp.2, exec_stp, execWords_nil,
      execWords_callFn isa _ r hr, hpc, hlink]
  obtain ⟨hsp, hsaved, hmem⟩ := pushPair_pushPair s rfl
  have hx : ∀ n, ((s.pushPair 19 20).pushPair 21 22).readX n = s.readX n := fun _ => rfl
  rw [hwords]
  generalize (s.pushPair 19 20).pushPair 21 22 = c at hsp hsaved hmem hx
  refine ⟨rfl, hsp, ?_, ?_, ?_, ?_, hsaved, hmem⟩
  · rw [Cpu.readX_setPc, Cpu.readX_setX_same _ _ _ (by omega)]
  · intro n h1 h2
    rw [Cpu.readX_setPc, Cpu.readX_setX_of_ne _ _ (by omega), argsLoaded,
      Cpu.readX_setX_of_ne _ _ (by omega), Cpu.readX_loadV, Cpu.readX_setX_of_ne _ _ (by omega),
      Cpu.readX_loadX, if_neg (by omega), Cpu.readX_setX_of_ne _ _ (by omega), hx]
  · intro k hk
    rw [Cpu.readX_setPc, Cpu.readX_setX_of_ne _ _ (by omega), argsLoaded,
      Cpu.readX_setX_of_ne _ _ (by omega), Cpu.readX_loadV, Cpu.readX_setX_of_ne _ _ (by omega),
      Cpu.readX_loadX, if_pos ⟨hk, by omega⟩]
    rfl
  · intro k hk
    rw [Cpu.readV_setPc, Cpu.readV_setX, argsLoaded, Cpu.readV_setX, Cpu.readV_loadV,
      if_pos ⟨hk, by omega⟩]
    rfl

/-- The memory after the two stores of the result. -/
def resultStored (c : Cpu) (retValue : Addr) : Mem :=
  (c.mem.write retValue 8 (c.readX 0)).write retValue 8 ((c.readV 0).setWidth 64)

/-- From the return of the function to the end of the stub. -/
structure FnReturned (c : Cpu) (retValue : Addr) (t : Cpu) : Prop where
  pc : t.pc = c.readX 30
  sp : t.sp = c.sp + 32
  link : t.readX 30 = c.readX 30
  x : ∀ n, 23 ≤ n → n ≤ 29 → t.readX n = c.readX n
  x21 : t.readX 21 = (resultStored c retValue).read c.sp 8
  x22 : t.readX 22 = (resultStored c retValue).read (c.sp + BitVec.ofNat 64 8) 8
  x19 : t.readX 19 = (resultStored c retValue).read (c.sp + BitVec.ofNat 64 16) 8
  x20 : t.readX 20 = (resultStored c retValue).read (c.sp + BitVec.ofNat 64 24) 8
  mem : t.mem = resultStored c retValue

/-- Storing the result twice to the same place. -/
theorem execWords_result (retValue : Addr) :
    execWords isa (movImm64 19 retValue ++ [strX0, strD0]) s =
      ((s.setX 19 retValue).setMem (resultStored s retValue)).setPc (s.pc + 24) := by
  have h19 : execWords isa (movImm64 19 retValue) s = (s.setX 19 retValue).setPc (s.pc + 16) :=
    execWords_movImm64 isa 19 (by omega) retValue s
  have hX : ∀ t : Cpu, t.readX 19 = retValue → isa.exec (.strX 0 19 0) t =
      (t.setMem (t.mem.write retValue 8 (t.readX 0))).setPc (t.pc + 4) := by
    intro t ht
    have hbase : t.readXSP 19 + 0 = retValue := (add_zero (t.readX 19)).trans ht
    rw [exec_of_not_isBranch isa rfl, Isa.effect, hbase]
  have hD : ∀ t : Cpu, t.readX 19 = retValue → isa.exec (.strV 8 0 19 0) t =
      (t.setMem (t.mem.write retValue 8 ((t.readV 0).setWidth 64))).setPc (t.pc + 4) := by
    intro t ht
    have hbase : t.readXSP 19 + 0 = retValue := (add_zero (t.readX 19)).trans ht
    rw [exec_of_not_isBranch isa rfl, Isa.effect, hbase]
  have hread : (s.setX 19 retValue).readX 19 = retValue := Cpu.readX_setX_same _ _ _ (by omega)
  rw [execWords_append, h19, execWords_cons, decode_stubFixed.1, hX, execWords_cons,
    decode_stubFixed.2.1, hD, execWords_nil]
  · simp only [Cpu.pc_setPc]
    rw [BitVec.add_assoc, BitVec.add_assoc]
    rfl
  · exact hread
  · exact hread

theorem fnReturned (c : Cpu) (retValue : Addr) :
    FnReturned c retValue (execWords isa (fromFn retValue ++ [0xD65F03C0]) c) := by
  have hwords : execWords isa (fromFn retValue ++ [0xD65F03C0]) c = isa.exec (.ret 30)
      (((((c.setX 19 retValue).setMem (resultStored c retValue)).setPc (c.pc + 24)).popPair 21
        22).popPair 19 20) := by
    have hsplit : fromFn retValue ++ [0xD65F03C0] =
        (movImm64 19 retValue ++ [strX0, strD0]) ++ [ldpWord 21 22, ldpWord 19 20, 0xD65F03C0] :=
      rfl
    rw [hsplit, execWords_append, execWords_result, execWords_cons, decode_ldp.1, exec_ldp,
      execWords_cons, decode_ldp.2, exec_ldp, execWords_cons, decode_stubFixed.2.2.2, execWords_nil]
  have hsp : (((c.setX 19 retValue).setMem (resultStored c retValue)).setPc (c.pc + 24)).sp =
      c.sp := rfl
  have hmem : (((c.setX 19 retValue).setMem (resultStored c retValue)).setPc (c.pc + 24)).mem =
      resultStored c retValue := rfl
  have hx : ∀ n, n ≠ 19 → (((c.setX 19 retValue).setMem (resultStored c retValue)).setPc
      (c.pc + 24)).readX n = c.readX n := fun n hn => Cpu.readX_setX_of_ne _ _ hn
  rw [hwords, exec_ret]
  generalize ((c.setX 19 retValue).setMem (resultStored c retValue)).setPc (c.pc + 24) = d
    at hsp hmem hx
  have h30 : ((d.popPair 21 22).popPair 19 20).readX 30 = c.readX 30 := by
    rw [Cpu.readX_popPair_of_ne (by omega) (by omega),
      Cpu.readX_popPair_of_ne (by omega) (by omega), hx 30 (by omega)]
  have h16 : c.sp + 16 + 8 = c.sp + BitVec.ofNat 64 24 := by
    rw [BitVec.add_assoc]
    rfl
  refine ⟨h30, ?_, ?_, ?_, ?_, ?_, ?_, ?_, ?_⟩
  · rw [Cpu.sp_setPc, Cpu.sp_popPair, Cpu.sp_popPair, hsp, BitVec.add_assoc]
    rfl
  · rw [Cpu.readX_setPc, h30]
  · intro n h1 h2
    rw [Cpu.readX_setPc, Cpu.readX_popPair_of_ne (by omega) (by omega),
      Cpu.readX_popPair_of_ne (by omega) (by omega), hx n (by omega)]
  · rw [Cpu.readX_setPc, Cpu.readX_popPair_of_ne (by omega) (by omega),
      d.readX_popPair_fst (by omega) (by omega), hmem, hsp]
  · rw [Cpu.readX_setPc, Cpu.readX_popPair_of_ne (by omega) (by omega),
      d.readX_popPair_snd 21 (by omega), hmem, hsp]
    rfl
  · rw [Cpu.readX_setPc, (d.popPair 21 22).readX_popPair_fst (by omega) (by omega), Cpu.mem_popPair,
      Cpu.sp_popPair, hmem, hsp]
    rfl
  · rw [Cpu.readX_setPc, (d.popPair 21 22).readX_popPair_snd 19 (by omega), Cpu.mem_popPair,
      Cpu.sp_popPair, hmem, hsp, h16]
  · rw [Cpu.mem_setPc, Cpu.mem_popPair, Cpu.mem_popPair, hmem]

end Run

/-! ## One call -/

/-- A call of a `NativeFunction`: its data, the values of its arguments, and where the local
variables of `marshal_and_call` and its caller stand. -/
structure StubCall where
  nf : NativeFuncData
  values : List (BitVec 64)
  length_values : values.length = nf.argTypes.length
  intRegs : Addr
  floatRegs : Addr
  retValue : Addr

namespace StubCall

def regs (call : StubCall) : ArgRegs := marshal call.nf.argTypes call.values

def words (call : StubCall) : List Word :=
  stubWords call.regs call.intRegs call.floatRegs call.nf.address call.retValue

/-- The arguments with their classes. -/
def args (call : StubCall) : List (ArgClass × BitVec 64) :=
  argClasses (call.nf.argTypes.zip call.values)

/-- The stub is entered in state `s`: its words are in place, the two arrays are filled, and the
local variables lie outside the 32 bytes below the stack pointer. -/
structure Entered (call : StubCall) (P : Program) (s : Cpu) : Prop where
  has : P.Has s.pc call.words
  ints : ∀ k < 8, s.mem.read (call.intRegs + BitVec.ofNat 64 (8 * k)) 8 = call.regs.intRegs k
  floats : ∀ k < 8, s.mem.read (call.floatRegs + BitVec.ofNat 64 (8 * k)) 8 = call.regs.floatRegs k
  intsApart : ∀ a, InRange call.intRegs 64 a → ¬ InRange (s.sp - 32) 32 a
  floatsApart : ∀ a, InRange call.floatRegs 64 a → ¬ InRange (s.sp - 32) 32 a
  retApart : ∀ a, InRange call.retValue 8 a → ¬ InRange (s.sp - 32) 32 a

/-- The stub enters the function in state `s1`. -/
structure CallsFn (call : StubCall) (P : Program) (isa : Isa) (s s1 : Cpu) : Prop where
  toFn : P.stepN isa (15 + call.regs.intIdx + call.regs.floatIdx) s = some s1
  atFn : s1.pc = call.nf.address

end StubCall

section Calls

variable {call : StubCall} {P : Program} {s : Cpu}

/-- The two parts of the stub stand one after the other. -/
theorem StubCall.Entered.has_parts (h : call.Entered P s) :
    P.Has s.pc (toFn call.regs call.intRegs call.floatRegs call.nf.address ++ [blrX19]) ∧
      P.Has (s.pc + BitVec.ofNat 64 (4 * (15 + call.regs.intIdx + call.regs.floatIdx)))
        (fromFn call.retValue ++ [0xD65F03C0]) := by
  obtain ⟨pad, -, hwords⟩ := stubWords_eq call.regs call.intRegs call.floatRegs call.nf.address
    call.retValue
  have hP := h.has
  have hlen : (toFn call.regs call.intRegs call.floatRegs call.nf.address ++ [blrX19]).length =
      15 + call.regs.intIdx + call.regs.floatIdx := by
    rw [List.length_append, length_toFn, List.length_singleton]
    omega
  rw [StubCall.words, hwords, Program.has_append, Program.has_append, hlen] at hP
  exact hP.1

theorem exists_callsFn (isa : Isa) (h : call.Entered P s) :
    ∃ s1, call.CallsFn P isa s s1 ∧
      CalledFn s call.regs call.intRegs call.floatRegs call.nf.address s1 := by
  have hr := marshal_le call.nf.argTypes call.values
  have hto := stepN_words_last isa h.has_parts.1 (straight_toFn call.regs hr call.intRegs
    call.floatRegs call.nf.address)
  have hcalled := calledFn isa s call.regs hr call.intRegs call.floatRegs call.nf.address
  have hlen : (toFn call.regs call.intRegs call.floatRegs call.nf.address).length + 1 =
      15 + call.regs.intIdx + call.regs.floatIdx := by
    rw [length_toFn]
    omega
  rw [hlen] at hto
  exact ⟨_, ⟨hto, hcalled.pc⟩, hcalled⟩

/-- Memory of the caller outside the 32 bytes the stub uses. -/
theorem CalledFn.read_eq {r : ArgRegs} {intRegs floatRegs fn : Addr} {s1 : Cpu}
    (h1 : CalledFn s r intRegs floatRegs fn s1) {a : Addr} {n k : ℕ} (hn : n ≤ 2 ^ 64)
    (hk : k + 8 ≤ n) (hapart : ∀ x, InRange a n x → ¬ InRange (s.sp - 32) 32 x) :
    s1.mem.read (a + BitVec.ofNat 64 k) 8 = s.mem.read (a + BitVec.ofNat 64 k) 8 := by
  refine Mem.read_eq_of_forall_inRange (by omega) fun x hx => h1.mem x ?_
  rw [inRange_add_iff (by omega)] at hx
  rw [h1.sp]
  exact hapart x (by rw [InRange]; omega)

/-- The function is entered with the arrays in its registers. -/
theorem loadsArgs {s1 : Cpu} (h : call.Entered P s)
    (h1 : CalledFn s call.regs call.intRegs call.floatRegs call.nf.address s1) :
    LoadsArgs s1 call.regs := by
  have hr : call.regs.intIdx ≤ 8 ∧ call.regs.floatIdx ≤ 8 := marshal_le _ _
  constructor
  · intro k hk
    rw [h1.args k hk, h1.read_eq (n := 64) (by omega) (by omega) h.intsApart, h.ints k (by omega)]
  · intro k hk
    rw [h1.floats k hk, h1.read_eq (n := 64) (by omega) (by omega) h.floatsApart,
      h.floats k (by omega), BitVec.setWidth_setWidth_of_le _ (by omega), BitVec.setWidth_eq]

/-- The words the function finds at its stack pointer: the registers the stub saved, then the stack
of the caller. -/
def leftover (s : Cpu) : ℕ → BitVec 64
  | 0 => s.readX 21
  | 1 => s.readX 22
  | 2 => s.readX 19
  | 3 => s.readX 20
  | j + 4 => s.stackWord j

theorem stackWord_atFn {r : ArgRegs} {intRegs floatRegs fn : Addr} {s1 : Cpu}
    (h1 : CalledFn s r intRegs floatRegs fn s1) {j : ℕ} (hj : j < 24) :
    s1.stackWord j = leftover s j := by
  obtain ⟨h0, h1', h2, h3⟩ := h1.saved
  match j, hj with
  | 0, _ => exact h0
  | 1, _ => exact h1'
  | 2, _ => exact h2
  | 3, _ => exact h3
  | j + 4, hj =>
    have haddr : s1.sp + BitVec.ofNat 64 (8 * (j + 4)) = s.sp + BitVec.ofNat 64 (8 * j) := by
      have h32 : s1.sp + BitVec.ofNat 64 32 = s.sp := by
        rw [h1.sp]
        exact sub_add_cancel s.sp 32
      rw [Nat.mul_add, Nat.add_comm, ofNat_offset, h32]
    show s1.mem.read _ 8 = s.mem.read _ 8
    rw [← haddr]
    refine Mem.read_eq_of_forall_inRange (by omega) fun x hx => h1.mem x ?_
    rw [inRange_add_iff (by omega)] at hx
    rw [InRange]
    omega

theorem length_args_le (call : StubCall) : call.args.length ≤ 24 := by
  rw [StubCall.args, argClasses, List.length_map, List.length_zip]
  exact (Nat.min_le_left _ _).trans call.nf.nargs_le

/-- What the function finds. -/
theorem delivered_atFn {s1 : Cpu} (h : call.Entered P s)
    (h1 : CalledFn s call.regs call.intRegs call.floatRegs call.nf.address s1) :
    Delivered s1 call.args ↔ stackArgs call.args 0 0 =
      (List.range (stackArgs call.args 0 0).length).map (leftover s) := by
  have hregs : RegsHold s1 call.args 0 0 := regsHold_marshal call.nf.nargs_le (loadsArgs h h1)
  have hstack : (List.range (stackArgs call.args 0 0).length).map s1.stackWord =
      (List.range (stackArgs call.args 0 0).length).map (leftover s) := by
    refine List.map_congr_left fun j hj => stackWord_atFn h1 ?_
    have hlen := length_stackArgs_le call.args 0 0
    have h24 := length_args_le call
    rw [List.mem_range] at hj
    omega
  rw [delivered_iff, hstack]
  exact and_iff_right hregs

/-! ### Two calls -/

/-- A call whose local variables stand above the stack pointer of `plainCaller`. -/
def plainCall (nf : NativeFuncData) (values : List (BitVec 64))
    (h : values.length = nf.argTypes.length) : StubCall :=
  ⟨nf, values, h, 0x90000000, 0x90000100, 0x90000200⟩

def plainProgram (call : StubCall) : Program := Program.block 0x10000000 call.words

/-- A caller with the arrays of the call in its memory and zeros elsewhere. -/
def plainCaller (call : StubCall) : Cpu :=
  { Cpu.zero 0x10000000 ((Mem.writeSlots (fun _ => 0) 0x90000000 8 8 call.regs.intRegs).writeSlots
      0x90000100 8 8 call.regs.floatRegs) with sp := 0x80000000 }

theorem length_words_le (call : StubCall) : 4 * call.words.length ≤ 2 ^ 64 := by
  have hr : call.regs.intIdx ≤ 8 ∧ call.regs.floatIdx ≤ 8 := marshal_le _ _
  obtain ⟨pad, hpad, hwords⟩ := stubWords_eq call.regs call.intRegs call.floatRegs call.nf.address
    call.retValue
  rw [StubCall.words, hwords]
  simp only [List.length_append, length_toFn, length_fromFn, List.length_singleton]
  omega

theorem entered_plainCall (nf : NativeFuncData) (values : List (BitVec 64))
    (h : values.length = nf.argTypes.length) :
    (plainCall nf values h).Entered (plainProgram (plainCall nf values h))
      (plainCaller (plainCall nf values h)) := by
  have hbase : ∀ d n (x : Addr), d + n ≤ 2 ^ 64 → 32 ≤ d →
      InRange ((0x80000000 : Addr) - 32 + BitVec.ofNat 64 d) n x →
      ¬ InRange ((0x80000000 : Addr) - 32) 32 x := by
    intro d n x hdn h32 hx
    rw [inRange_add_iff hdn] at hx
    rw [InRange]
    omega
  refine ⟨Program.block_has _ (length_words_le _), ?_, ?_, ?_, ?_, ?_⟩
  · intro k hk
    have hslot : (Mem.writeSlots (fun _ => 0) 0x90000000 8 8
        (plainCall nf values h).regs.intRegs).read
        (0x90000000 + BitVec.ofNat 64 (8 * k)) 8 = (plainCall nf values h).regs.intRegs k :=
      Mem.read_writeSlots (by omega) hk
    refine (Mem.read_eq_of_forall_inRange (by omega) fun x hx => ?_).trans hslot
    refine Mem.writeSlots_of_not_inRange fun hin => ?_
    -- the second array starts 256 bytes after the first
    have hin' : InRange ((0x90000000 : Addr) + BitVec.ofNat 64 256) (8 * 8) x := hin
    rw [inRange_add_iff (by omega)] at hin'
    have hx' : InRange ((0x90000000 : Addr) + BitVec.ofNat 64 (8 * k)) 8 x := hx
    rw [inRange_add_iff (by omega)] at hx'
    omega
  · intro k hk
    exact Mem.read_writeSlots (by omega) hk
  · exact fun x hx => hbase 0x10000020 64 x (by omega) (by omega) hx
  · exact fun x hx => hbase 0x10000120 64 x (by omega) (by omega) hx
  · exact fun x hx => hbase 0x10000220 8 x (by omega) (by omega) hx

/-- `double f(int, double)`. -/
def mixedCall : StubCall :=
  plainCall ⟨0x20000000, .double, [.int, .double], by decide⟩ [7, 9] rfl

/-- `int f(int, ..., int)` with nine arguments. -/
def nineInts : StubCall :=
  plainCall ⟨0x20000000, .int, List.replicate 9 .int, by decide⟩ [1, 2, 3, 4, 5, 6, 7, 8, 9] rfl

/-- **When a `NativeFunction` delivers its arguments.**  The registers are always right.  The
arguments that belong on the stack are right only if the words that happen to stand there are their
values; there are none of them exactly when at most eight integer or pointer arguments and at most
eight floating-point arguments are passed. -/
theorem nativeCall_delivers_iff (isa : Isa) (call : StubCall) (h : call.Entered P s) :
    ∃ s1, call.CallsFn P isa s s1 ∧
      (Delivered s1 call.args ↔ stackArgs call.args 0 0 =
        (List.range (stackArgs call.args 0 0).length).map (leftover s)) ∧
      (stackArgs call.args 0 0 = [] ↔
        countClass .general call.args ≤ 8 ∧ countClass .vector call.args ≤ 8) := by
  obtain ⟨s1, hcalls, h1⟩ := exists_callsFn isa h
  exact ⟨s1, hcalls, delivered_atFn h h1, stackArgs_eq_nil_iff _⟩

/-- The condition for the call with two arguments, which need no stack. -/
theorem mixedCall_delivers_iff :
    ∃ s1, mixedCall.CallsFn (plainProgram mixedCall) Isa.bare (plainCaller mixedCall) s1 ∧
      (Delivered s1 mixedCall.args ↔ stackArgs mixedCall.args 0 0 =
        (List.range (stackArgs mixedCall.args 0 0).length).map (leftover (plainCaller mixedCall))) ∧
      (stackArgs mixedCall.args 0 0 = [] ↔
        countClass .general mixedCall.args ≤ 8 ∧ countClass .vector mixedCall.args ≤ 8) :=
  nativeCall_delivers_iff Isa.bare mixedCall (entered_plainCall _ _ _)

/-- The ninth integer is not delivered: the function finds the `X21` of the caller in its place. -/
theorem nineInts_not_delivered :
    ∃ s1, nineInts.CallsFn (plainProgram nineInts) Isa.bare (plainCaller nineInts) s1 ∧
      ¬ Delivered s1 nineInts.args := by
  have hentered : nineInts.Entered (plainProgram nineInts) (plainCaller nineInts) :=
    entered_plainCall _ _ _
  obtain ⟨s1, hcalls, h1⟩ := exists_callsFn Isa.bare hentered
  refine ⟨s1, hcalls, ?_⟩
  have hstack : stackArgs nineInts.args 0 0 = [9] := by decide
  have hleft : leftover (plainCaller nineInts) 0 = 0 := rfl
  rw [delivered_atFn hentered h1, hstack, List.length_singleton, List.range_one, List.map_singleton,
    hleft]
  decide

/-! ## Returning -/

/-- A whole call: the function is entered in `s1`, and `s2` is the state after the `RET` of the
stub. -/
structure StubCall.StubRun (call : StubCall) (P : Program) (isa : Isa) (fn : Cpu → Cpu)
    (s s1 s2 : Cpu) : Prop extends call.CallsFn P isa s s1 where
  toReturn : P.stepN isa 9 (fn s1) = some s2

def isIntegerType (t : ArgType) : Bool := !isFloatType t && !isVoidType t

/-- The stub was entered in `s`, the function returned in `c`, and `s2` is the state the caller
gets: back at its return address with its registers, and the result in `*ret_value`. -/
structure ReturnsResult (retType : ArgType) (retValue : Addr) (s c s2 : Cpu) : Prop where
  pc : s2.pc = s.readX 30
  sp : s2.sp = s.sp
  x : ∀ n, 19 ≤ n → n ≤ 29 → s2.readX n = s.readX n
  int : isIntegerType retType → s2.mem.read retValue 8 = c.readX 0
  float : isFloatType retType → s2.mem.read retValue 8 = (c.readV 0).setWidth 64

/-- One round of the code after the call, from any state at its start. -/
theorem exists_fnReturned (isa : Isa) (h : call.Entered P s) {c : Cpu}
    (hpc : c.pc = s.pc + BitVec.ofNat 64 (4 * (15 + call.regs.intIdx + call.regs.floatIdx))) :
    ∃ t, P.stepN isa 9 c = some t ∧ FnReturned c call.retValue t := by
  have hP := h.has_parts.2
  rw [← hpc] at hP
  have hto := stepN_words_last isa hP (straight_fromFn call.retValue)
  rw [length_fromFn] at hto
  exact ⟨_, hto, fnReturned isa c call.retValue⟩

/-- The saved registers survive the function and the stores of the result. -/
theorem read_saved {s1 : Cpu} {fn : Cpu → Cpu} (hfn : Aapcs64 (mayWrite 32 0 0) fn)
    (h : call.Entered P s)
    (h1 : CalledFn s call.regs call.intRegs call.floatRegs call.nf.address s1) {j : ℕ}
    (hj : j < 4) :
    (resultStored (fn s1) call.retValue).read ((fn s1).sp + BitVec.ofNat 64 (8 * j)) 8 =
      s1.stackWord j := by
  rw [hfn.sp, Cpu.stackWord, ← hfn.read_frame (by omega) (by omega) (by omega) (by omega)]
  refine Mem.read_eq_of_forall_inRange (by omega) fun x hx => ?_
  rw [inRange_add_iff (by omega)] at hx
  have hout : ¬ InRange call.retValue 8 x := fun hin => by
    refine h.retApart x hin ?_
    rw [← h1.sp, InRange]
    omega
  rw [resultStored, Mem.write_of_not_inRange hout, Mem.write_of_not_inRange hout]

/-- The registers and the result after the `RET` of the stub. -/
theorem registers_atReturn {s1 s2 : Cpu} {fn : Cpu → Cpu} (hfn : Aapcs64 (mayWrite 32 0 0) fn)
    (h : call.Entered P s)
    (h1 : CalledFn s call.regs call.intRegs call.floatRegs call.nf.address s1)
    (h2 : FnReturned (fn s1) call.retValue s2) :
    s2.sp = s.sp ∧ (∀ n, 19 ≤ n → n ≤ 29 → s2.readX n = s.readX n) ∧
      s2.mem.read call.retValue 8 = ((fn s1).readV 0).setWidth 64 := by
  obtain ⟨hs21, hs22, hs19, hs20⟩ := h1.saved
  have hsaved := fun j hj => read_saved (j := j) hfn h h1 hj
  refine ⟨?_, ?_, ?_⟩
  · rw [h2.sp, hfn.sp, h1.sp, sub_add_cancel]
  · intro n hn1 hn2
    rcases Nat.lt_or_ge n 23 with hn | hn
    · -- the four saved registers
      obtain rfl | rfl | rfl | rfl : n = 19 ∨ n = 20 ∨ n = 21 ∨ n = 22 := by omega
      · rw [h2.x19, hsaved 2 (by omega), hs19]
      · rw [h2.x20, hsaved 3 (by omega), hs20]
      · have h0 := hsaved 0 (by omega)
        rw [BitVec.add_zero] at h0
        rw [h2.x21, h0, hs21]
      · rw [h2.x22, hsaved 1 (by omega), hs22]
    · rw [h2.x n hn hn2, hfn.x s1 n hn1 hn2, h1.x n hn hn2]
  · rw [h2.mem, resultStored, Mem.read_write_same _ _ (by omega)]

theorem returnsResult_iff {s1 s2 : Cpu} {fn : Cpu → Cpu} (hfn : Aapcs64 (mayWrite 32 0 0) fn)
    (h : call.Entered P s)
    (h1 : CalledFn s call.regs call.intRegs call.floatRegs call.nf.address s1)
    (h2 : FnReturned (fn s1) call.retValue s2) :
    ReturnsResult call.nf.retType call.retValue s (fn s1) s2 ↔ (fn s1).readX 30 = s.readX 30 ∧
      (isIntegerType call.nf.retType → (fn s1).readX 0 = ((fn s1).readV 0).setWidth 64) := by
  obtain ⟨hsp, hx, hresult⟩ := registers_atReturn hfn h h1 h2
  constructor
  · intro hret
    refine ⟨by rw [← h2.pc, hret.pc], fun hint => ?_⟩
    rw [← hret.int hint, hresult]
  · rintro ⟨hlink, hint⟩
    refine ⟨by rw [h2.pc, hlink], hsp, hx, fun ht => ?_, fun _ => hresult⟩
    rw [hresult, hint ht]

/-- A function that comes back with the `X30` it was called with returns into the stub, which then
never ends. -/
theorem stub_never_ends (isa : Isa) {s1 : Cpu} {fn : Cpu → Cpu} {may : Cpu → Addr → Prop}
    (hfn : Aapcs64 may fn) (h : call.Entered P s)
    (h1 : CalledFn s call.regs call.intRegs call.floatRegs call.nf.address s1)
    (hlink : (fn s1).readX 30 = s1.readX 30) (n : ℕ) : (P.stepN isa n (fn s1)).isSome := by
  -- every round leaves `X30` alone and ends with a branch to it
  refine stepN_isSome_of_loop (k := 9) (I := fun c => c.pc = s1.readX 30 ∧ c.readX 30 = s1.readX 30)
    (by omega) ?_ ⟨hfn.pc s1, hlink⟩ n
  rintro c ⟨hc, hc30⟩
  obtain ⟨t, ht, hret⟩ := exists_fnReturned isa h (by rw [hc, h1.link] : c.pc = _)
  exact ⟨t, ht, by rw [hret.pc, hc30], by rw [hret.link, hc30]⟩

theorem exists_stubRun (isa : Isa) {fn : Cpu → Cpu} {may : Cpu → Addr → Prop} (hfn : Aapcs64 may fn)
    (h : call.Entered P s) :
    ∃ s1 s2, call.StubRun P isa fn s s1 s2 ∧
      CalledFn s call.regs call.intRegs call.floatRegs call.nf.address s1 ∧
      FnReturned (fn s1) call.retValue s2 := by
  obtain ⟨s1, hcalls, h1⟩ := exists_callsFn isa h
  have hpc : (fn s1).pc =
      s.pc + BitVec.ofNat 64 (4 * (15 + call.regs.intIdx + call.regs.floatIdx)) := by
    rw [hfn.pc, h1.link]
  obtain ⟨s2, hto, h2⟩ := exists_fnReturned isa h hpc
  exact ⟨s1, s2, ⟨hcalls, hto⟩, h1, h2⟩

/-- **When a `NativeFunction` returns its result.**  The stub returns to its caller exactly when the
function itself comes back with the `X30` of that caller, and `*ret_value` always holds `D0`.  A
function that comes back with the `X30` it was called with makes the stub run for ever. -/
theorem nativeCall_returns_iff (isa : Isa) (call : StubCall) (fn : Cpu → Cpu)
    (hfn : Aapcs64 (mayWrite 32 0 0) fn) (h : call.Entered P s) :
    ∃ s1 s2, call.StubRun P isa fn s s1 s2 ∧
      (ReturnsResult call.nf.retType call.retValue s (fn s1) s2 ↔ (fn s1).readX 30 = s.readX 30 ∧
        (isIntegerType call.nf.retType → (fn s1).readX 0 = ((fn s1).readV 0).setWidth 64)) ∧
      ((fn s1).readX 30 = s1.readX 30 → ∀ n, (P.stepN isa n (fn s1)).isSome) := by
  obtain ⟨s1, s2, hrun, h1, h2⟩ := exists_stubRun isa hfn h
  exact ⟨s1, s2, hrun, returnsResult_iff hfn h h1 h2,
    fun hlink => stub_never_ends isa hfn h h1 hlink⟩

/-- The condition for the call with two arguments of a function that returns at once. -/
theorem mixedCall_returns_iff :
    ∃ s1 s2, mixedCall.StubRun (plainProgram mixedCall) Isa.bare returnAtOnce
      (plainCaller mixedCall)
        s1 s2 ∧
      (ReturnsResult mixedCall.nf.retType mixedCall.retValue (plainCaller mixedCall)
        (returnAtOnce s1)
          s2 ↔ (returnAtOnce s1).readX 30 = (plainCaller mixedCall).readX 30 ∧
        (isIntegerType mixedCall.nf.retType →
          (returnAtOnce s1).readX 0 = ((returnAtOnce s1).readV 0).setWidth 64)) ∧
      ((returnAtOnce s1).readX 30 = s1.readX 30 →
        ∀ n, ((plainProgram mixedCall).stepN Isa.bare n (returnAtOnce s1)).isSome) :=
  nativeCall_returns_iff Isa.bare mixedCall returnAtOnce (aapcs64_returnAtOnce _)
    (entered_plainCall _ _ _)

/-- A function that returns at once is called, and the stub never gets back to its caller. -/
theorem mixedCall_never_returns :
    ∃ s1 s2, mixedCall.StubRun (plainProgram mixedCall) Isa.bare returnAtOnce
      (plainCaller mixedCall)
        s1 s2 ∧
      ¬ ReturnsResult mixedCall.nf.retType mixedCall.retValue (plainCaller mixedCall)
        (returnAtOnce s1) s2 ∧
      ∀ n, ((plainProgram mixedCall).stepN Isa.bare n (returnAtOnce s1)).isSome := by
  have hentered : mixedCall.Entered (plainProgram mixedCall) (plainCaller mixedCall) :=
    entered_plainCall _ _ _
  have hfn : Aapcs64 (mayWrite 32 0 0) returnAtOnce := aapcs64_returnAtOnce _
  obtain ⟨s1, s2, hrun, h1, h2⟩ := exists_stubRun Isa.bare hfn hentered
  refine ⟨s1, s2, hrun, ?_, stub_never_ends Isa.bare hfn hentered h1 rfl⟩
  rw [returnsResult_iff hfn hentered h1 h2]
  rintro ⟨hlink, -⟩
  -- the `X30` of the caller is zero, and the function got the address after the call
  have hzero : (plainCaller mixedCall).readX 30 = 0 := rfl
  have hidx : mixedCall.regs.intIdx = 1 ∧ mixedCall.regs.floatIdx = 1 := by decide
  rw [returnAtOnce, Cpu.readX_setPc, h1.link, hzero, hidx.1, hidx.2] at hlink
  exact absurd hlink (by decide)

end Calls

end Native
end CalvinHook
