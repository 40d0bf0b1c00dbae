import CalvinHook.A64.Aapcs64
import CalvinHook.JsEngine.NativeCallback

/-!
# `js_native.cpp`: how a `NativeCallback` returns

The dispatcher leaves the converted result of the script's function in the last eight bytes of the
frame.  The stub loads them into `X0` and `D0`, removes the frame and executes `0xD65F0000`, which
is `RET X0`: control goes to the result.

`callback_returns_iff`: a call comes back to its caller exactly if the word the dispatcher leaves is
the return address of the caller.
-/

namespace CalvinHook
namespace Native

open A64 Arm64

/-! ## The result of the script's function -/

/-- What `js_to_native` uses of the engine; `none` is a conversion that throws, and floating-point
numbers are their bits. -/
structure JsConversions (V : Type*) where
  ptrUnwrap : V → Addr
  isNull : V → Bool
  toInt32 : V → Option (BitVec 32)
  toUint32 : V → Option (BitVec 32)
  toBigInt64 : V → Option (BitVec 64)
  toFloat64 : V → Option (BitVec 64)
  /-- `static_cast<float>` of a `double`. -/
  doubleToFloat : BitVec 64 → BitVec 32
  /-- `static_cast<int64_t>` of a `double`. -/
  doubleToInt64 : BitVec 64 → BitVec 64

variable {V : Type*} (js : JsConversions V)

/-- `js_to_native`: the word it writes, if it returns `true`. -/
def jsToNative (val : V) : ArgType → Option (BitVec 64)
  | .pointer =>
      let p := js.ptrUnwrap val
      if p = 0 ∧ js.isNull val = false then none else some p
  | .int | .int32 => (js.toInt32 val).map fun v => v.signExtend 64
  | .uint8 => (js.toInt32 val).map fun v => (v.setWidth 8).setWidth 64
  | .int8 => (js.toInt32 val).map fun v => (v.setWidth 8).signExtend 64
  | .uint16 => (js.toInt32 val).map fun v => (v.setWidth 16).setWidth 64
  | .int16 => (js.toInt32 val).map fun v => (v.setWidth 16).signExtend 64
  | .uint32 => (js.toUint32 val).map fun v => v.setWidth 64
  | .uint64 | .int64 | .sizeT =>
      (js.toBigInt64 val).or ((js.toFloat64 val).map js.doubleToInt64)
  | .float => (js.toFloat64 val).map fun d => (js.doubleToFloat d).setWidth 64
  | .double => js.toFloat64 val
  | .void => none

/-- The word `native_callback_dispatch` leaves in `*ret_val`, which held `slot`, when the script's
function returns `result` (`none` for an exception). -/
def dispatchRet (data : NativeCbData) (result : Option V) (slot : BitVec 64) : BitVec 64 :=
  match result with
  | none => slot
  | some val => if isVoidType data.retType then slot else (jsToNative js val data.retType).getD slot

/-- The result of the function as `js_to_native` accepts it. -/
def marshalled (data : NativeCbData) (result : Option V) : Option (BitVec 64) :=
  result.bind fun val => jsToNative js val data.retType

theorem dispatchRet_eq (data : NativeCbData) (result : Option V) (slot : BitVec 64) :
    dispatchRet js data result slot = (marshalled js data result).getD slot := by
  cases result with
  | none => rfl
  | some val =>
    rw [dispatchRet, marshalled, Option.bind_some]
    split_ifs with hvoid
    · have hret : data.retType = .void := by simpa [isVoidType] using hvoid
      rw [hret]
      rfl
    · rfl

/-! ## The dispatcher -/

/-- What the dispatcher may write: everything outside the frame of the stub, and `*ret_val`. -/
def mayWriteRet (c : Cpu) (a : Addr) : Prop :=
  ¬ InRange c.sp kCbSaveSize a ∨ InRange (c.readX 2) 8 a

/-- The callee `f` is `native_callback_dispatch`, for a callback whose function `func` returns
`func c` when it is called in state `c`. -/
structure Dispatches (data : NativeCbData) (cb : Addr) (func : Cpu → Option V) (f : Cpu → Cpu) :
    Prop where
  aapcs : Aapcs64 mayWriteRet f
  ret : ∀ c, c.readX 0 = cb →
    (f c).mem.read (c.readX 2) 8 = dispatchRet js data (func c) (c.mem.read (c.readX 2) 8)

/-! ## Running the stub -/

theorem decode_fromDispatch : decode ldrRetX = .ldrX 0 31 136 ∧ decode ldrRetD = .ldrV 8 0 31 136 ∧
    decode addCbSave = .addImm 31 31 144 ∧ decode 0xD65F0000 = .ret 0 :=
  ⟨rfl, rfl, rfl, rfl⟩

/-- The end of the stub: the word in the last slot of the frame goes to `X0`, to `D0` and to the
program counter. -/
theorem execWords_fromDispatch (isa : Isa) (c : Cpu) :
    execWords isa fromDispatch c =
      (((c.setX 0 (c.mem.read (c.sp + 136) 8)).setV 0
        ((c.mem.read (c.sp + 136) 8 : BitVec 64).setWidth 128)).setSp (c.sp + 144)).setPc
          (c.mem.read (c.sp + 136) 8) := by
  have hX : isa.exec (.ldrX 0 31 136) c =
      (c.setX 0 (c.mem.read (c.sp + 136) 8)).setPc (c.pc + 4) := rfl
  have hD : ∀ t : Cpu, isa.exec (.ldrV 8 0 31 136) t =
      (t.setV 0 ((t.mem.read (t.sp + 136) 8 : BitVec 64).setWidth 128)).setPc (t.pc + 4) :=
    fun _ => rfl
  have hadd : ∀ t : Cpu, isa.exec (.addImm 31 31 144) t = (t.setSp (t.sp + 144)).setPc (t.pc + 4) :=
    fun _ => rfl
  obtain ⟨dX, dD, dadd, dret⟩ := decode_fromDispatch
  rw [fromDispatch, execWords_cons, dX, hX, execWords_cons, dD, hD, execWords_cons, dadd, hadd,
    execWords_cons, dret, exec_ret, execWords_nil]
  have h0 : ((((c.setX 0 (c.mem.read (c.sp + 136) 8)).setPc (c.pc + 4)).setV 0
      ((c.mem.read (c.sp + 136) 8 : BitVec 64).setWidth 128)).setSp (c.sp + 144)).readX 0 =
        c.mem.read (c.sp + 136) 8 := by
    rw [Cpu.readX_setSp, Cpu.readX_setV, Cpu.readX_setPc, Cpu.readX_setX_same _ _ _ (by omega)]
  exact congrArg _ h0

theorem straight_fromDispatch : Straight [ldrRetX, ldrRetD, addCbSave] := by
  obtain ⟨dX, dD, dadd, -⟩ := decode_fromDispatch
  rw [straight_cons, straight_cons, straight_singleton, dX, dD, dadd]
  exact ⟨rfl, rfl, rfl⟩

/-- The registers the stub leaves alone. -/
theorem readX_toDispatch (isa : Isa) (s : Cpu) (cb dispatch : Addr) {n : ℕ} (h1 : 19 ≤ n)
    (h2 : n ≤ 29) :
    (execWords isa (toDispatch cb dispatch ++ [blrX8]) s).readX n = s.readX n := by
  have hargs : (argsStored s cb).readX n = s.readX n := by
    rw [argsStored, Cpu.readX_setMem, Cpu.readX_setX_of_ne _ _ (by omega), Cpu.readX_setSp]
  rw [execWords_toDispatch, Cpu.readX_setPc, Cpu.readX_setX_of_ne _ _ (by omega),
    Cpu.readX_setX_of_ne _ _ (by omega), Cpu.readX_setX_of_ne _ _ (by omega),
    Cpu.readX_setX_of_ne _ _ (by omega), Cpu.readX_setX_of_ne _ _ (by omega), hargs]

/-- The last slot of the frame is not written before the call. -/
theorem read_retSlot (isa : Isa) (s : Cpu) (cb dispatch : Addr) :
    (execWords isa (toDispatch cb dispatch ++ [blrX8]) s).mem.read (s.sp - 144 + 136) 8 =
      s.mem.read (s.sp - 8) 8 := by
  have haddr : s.sp - 144 + 136 = s.sp - 8 := by
    rw [sub_add]
    rfl
  rw [← haddr]
  refine Mem.read_eq_of_forall_inRange (by omega) fun x hx => ?_
  have hx' : InRange (s.sp - 144 + BitVec.ofNat 64 136) 8 x := hx
  rw [inRange_add_iff (by omega)] at hx'
  rw [execWords_toDispatch]
  show (argsStored s cb).mem x = s.mem x
  rw [argsStored, Cpu.mem_setMem, Mem.writeSlots_of_not_inRange, Mem.writeSlots_of_not_inRange,
    Mem.write_of_not_inRange]
  · rw [InRange]
    omega
  · rw [inRange_add_iff (by omega)]
    omega
  · rw [inRange_add_iff (by omega)]
    omega

/-! ## One call -/

/-- A call of the stub: it enters the dispatcher in state `s1`, and after the dispatcher's return
its last word leaves the state `t`. -/
structure CallbackRun (P : Program) (isa : Isa) (dispatch : Callee) (s s1 t : Cpu) : Prop where
  toDispatch : P.stepN isa 33 s = some s1
  atDispatch : s1.pc = dispatch.addr
  fromDispatch : P.stepN isa 4 (dispatch.run s1) = some t

/-- The call is over: control is back at the caller, with its stack pointer and its registers, and
the result, if there is one, in the register of its type. -/
structure CallbackReturns (data : NativeCbData) (result : Option (BitVec 64)) (s t : Cpu) :
    Prop where
  pc : t.pc = s.readX 30
  sp : t.sp = s.sp
  x : ∀ n, 19 ≤ n → n ≤ 29 → t.readX n = s.readX n
  result : ∀ r, result = some r →
    if isFloatType data.retType then (t.readV 0).setWidth 64 = r else t.readX 0 = r

section Call

variable {js} {P : Program} {data : NativeCbData} {cb : Addr} {dispatch : Callee}
  {func : Cpu → Option V} {s : Cpu}

/-- From the dispatcher's return: everything but the program counter is as the caller expects it. -/
theorem fromDispatch_spec (isa : Isa) (h : Dispatches js data cb func dispatch.run) {s1 : Cpu}
    (hs1 : s1 = execWords isa (toDispatch cb dispatch.addr ++ [blrX8]) s) {t : Cpu}
    (ht : t = execWords isa fromDispatch (dispatch.run s1)) :
    t.pc = (marshalled js data (func s1)).getD (s.mem.read (s.sp - 8) 8) ∧ t.sp = s.sp ∧
      (∀ n, 19 ≤ n → n ≤ 29 → t.readX n = s.readX n) ∧
      t.readX 0 = t.pc ∧ (t.readV 0).setWidth 64 = t.pc := by
  have hat : AtDispatch s cb dispatch.addr s1 := hs1 ▸ atDispatch isa s cb dispatch.addr
  have hsp : (dispatch.run s1).sp = s.sp - 144 := (h.aapcs.sp s1).trans hat.sp
  have hslot : (dispatch.run s1).mem.read (s.sp - 144 + 136) 8 =
      (marshalled js data (func s1)).getD (s.mem.read (s.sp - 8) 8) := by
    have hx2 : s1.readX 2 = s.sp - 144 + 136 := by
      rw [hat.x2, hat.sp]
      rfl
    have hret := h.ret s1 hat.x0
    rw [hx2, dispatchRet_eq] at hret
    rw [hret, hs1, read_retSlot]
  have hwords := execWords_fromDispatch isa (dispatch.run s1)
  rw [hsp, hslot] at hwords
  rw [ht, hwords]
  refine ⟨rfl, ?_, ?_, ?_, ?_⟩
  · exact sub_add_cancel s.sp 144
  · intro n h1 h2
    rw [Cpu.readX_setPc, Cpu.readX_setSp, Cpu.readX_setV, Cpu.readX_setX_of_ne _ _ (by omega),
      h.aapcs.x s1 n h1 h2, hs1, readX_toDispatch isa s cb dispatch.addr h1 h2]
  · rw [Cpu.readX_setPc, Cpu.readX_setSp, Cpu.readX_setV, Cpu.readX_setX_same _ _ _ (by omega)]
    rfl
  · rw [Cpu.readV_setPc, Cpu.readV_setSp, Cpu.readV_setV, if_pos ⟨rfl, by omega⟩,
      BitVec.setWidth_setWidth_of_le _ (by omega), BitVec.setWidth_eq]
    rfl

/-- The stub runs through. -/
theorem exists_callbackRun (isa : Isa) (h : Dispatches js data cb func dispatch.run)
    (hP : P.Has s.pc (callbackWords cb dispatch.addr)) :
    ∃ s1 t, CallbackRun P isa dispatch s s1 t ∧
      s1 = execWords isa (toDispatch cb dispatch.addr ++ [blrX8]) s ∧
      t = execWords isa fromDispatch (dispatch.run s1) := by
  obtain ⟨pad, -, hwords⟩ := callbackWords_parts cb dispatch.addr
  have hlen : (toDispatch cb dispatch.addr ++ [blrX8]).length = 33 := by
    rw [List.length_append, length_toDispatch, List.length_singleton]
  rw [hwords, Program.has_append, Program.has_append, hlen] at hP
  obtain ⟨⟨hfirst, hsecond⟩, -⟩ := hP
  have hto := stepN_words_last isa hfirst (straight_toDispatch cb dispatch.addr)
  rw [length_toDispatch] at hto
  have hat := atDispatch isa s cb dispatch.addr
  generalize hs1 : execWords isa (toDispatch cb dispatch.addr ++ [blrX8]) s = s1 at hto hat
  -- the dispatcher returns to the word after the call
  have hback : (dispatch.run s1).pc = s.pc + BitVec.ofNat 64 (4 * 33) := by
    rw [h.aapcs.pc, hat.link]
    rfl
  rw [← hback] at hsecond
  have hfrom := stepN_words_last isa hsecond straight_fromDispatch
  exact ⟨s1, _, ⟨hto, hat.pc, hfrom⟩, rfl, rfl⟩

/-- **When a `NativeCallback` returns to its caller.**  The stack pointer, the registers and the
result are always right, but control goes to the word in the result slot: the converted result of
the script's function or, when there is none, the word the caller has just below its stack
pointer. -/
theorem callback_returns_iff (isa : Isa) (h : Dispatches js data cb func dispatch.run)
    (hP : P.Has s.pc (callbackWords cb dispatch.addr)) :
    ∃ s1 t, CallbackRun P isa dispatch s s1 t ∧
      (CallbackReturns data (marshalled js data (func s1)) s t ↔
        (marshalled js data (func s1)).getD (s.mem.read (s.sp - 8) 8) = s.readX 30) := by
  obtain ⟨s1, t, hrun, hs1, ht⟩ := exists_callbackRun isa h hP
  obtain ⟨hpc, hsp, hx, hx0, hv0⟩ := fromDispatch_spec isa h hs1 ht
  refine ⟨s1, t, hrun, ?_⟩
  constructor
  · intro hret
    rw [← hpc, hret.pc]
  · intro hlink
    refine ⟨hpc.trans hlink, hsp, hx, ?_⟩
    intro r hr
    rw [hr, Option.getD_some] at hpc
    split_ifs
    · rw [hv0, hpc]
    · rw [hx0, hpc]

end Call

/-! ### A callback that returns seven -/

/-- An engine whose values are 32-bit integers. -/
def int32Js : JsConversions (BitVec 32) where
  ptrUnwrap v := v.setWidth 64
  isNull _ := false
  toInt32 v := some v
  toUint32 v := some v
  toBigInt64 v := some (v.signExtend 64)
  toFloat64 _ := none
  doubleToFloat _ := 0
  doubleToInt64 _ := 0

/-- `int f()`. -/
def intCallback : NativeCbData := ⟨.int, [], by decide⟩

/-- The dispatcher of a function that returns seven. -/
def sevenDispatch : Callee :=
  ⟨0x20000000, fun c => (c.setMem (c.mem.write (c.readX 2) 8 7)).setPc (c.readX 30)⟩

theorem dispatches_seven :
    Dispatches int32Js intCallback 0x40000000 (fun _ => some 7) sevenDispatch.run := by
  refine ⟨⟨fun _ => rfl, fun _ => rfl, fun _ _ _ _ => rfl, ?_⟩, ?_⟩
  · intro c a _ hmay
    rw [mayWriteRet, not_or] at hmay
    exact Mem.write_of_not_inRange hmay.2
  · intro c _
    exact Mem.read_write_same _ _ (by omega) _

/-- A caller of the stub that is to be returned to at `0x50000000`. -/
def linkCaller : Cpu := ((Cpu.zero 0x10000000 (fun _ => 0)).setSp 0x80000000).setX 30 0x50000000

def sevenProgram : Program := Program.block 0x10000000 (callbackWords 0x40000000 0x20000000)

theorem sevenProgram_has :
    sevenProgram.Has linkCaller.pc (callbackWords 0x40000000 sevenDispatch.addr) :=
  Program.block_has _ (length_callbackWords_le _ _)

theorem sevenCallback_returns_iff :
    ∃ s1 t, CallbackRun sevenProgram Isa.bare sevenDispatch linkCaller s1 t ∧
      (CallbackReturns intCallback (some 7) linkCaller t ↔ (7 : BitVec 64) = linkCaller.readX 30) :=
  callback_returns_iff Isa.bare dispatches_seven sevenProgram_has

/-- The call ends at the address seven, not at the caller. -/
theorem sevenCallback_not_returned :
    Dispatches int32Js intCallback 0x40000000 (fun _ => some 7) sevenDispatch.run ∧
      ∃ s1 t, CallbackRun sevenProgram Isa.bare sevenDispatch linkCaller s1 t ∧ t.pc = 7 ∧
        ¬ CallbackReturns intCallback (marshalled int32Js intCallback (some 7)) linkCaller t := by
  refine ⟨dispatches_seven, ?_⟩
  obtain ⟨s1, t, hrun, hs1, ht⟩ := exists_callbackRun Isa.bare dispatches_seven sevenProgram_has
  obtain ⟨hpc, -⟩ := fromDispatch_spec Isa.bare dispatches_seven hs1 ht
  have hseven : t.pc = 7 := hpc
  refine ⟨s1, t, hrun, hseven, ?_⟩
  intro hret
  have hlink : (7 : BitVec 64) = 0x50000000 := hseven.symm.trans hret.pc
  exact absurd hlink (by decide)

end Native
end CalvinHook
