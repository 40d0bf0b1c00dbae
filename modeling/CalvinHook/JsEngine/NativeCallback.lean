import CalvinHook.A64.Spill
import CalvinHook.HookSdk.AssemblerRun
import CalvinHook.JsEngine.NativeTypes

/-!
# `js_native.cpp`: the stub of a `NativeCallback`

`emitCallbackStub` emits the stub of `generate_callback_stub`, and `atDispatch` executes it up to
the call of `native_callback_dispatch`: `X0` to `X7` and `D0` to `D7` are stored in two arrays, of
which the dispatcher is given the first.

`callback_receives_iff`: the values it converts are the arguments of the caller exactly for the
signatures without floating-point types.
-/

namespace CalvinHook
namespace Native

open A64 Arm64

/-! ## The stub -/

def kCbOffArgs : ℕ := 8
def kCbOffFloats : ℕ := 8 + 8 * 8
def kCbOffRet : ℕ := 8 + 8 * 8 + 8 * 8
def kCbSaveSize : ℕ := 144

def subCbSave : Word :=
  0xD1000000 ||| (BitVec.ofNat 32 kCbSaveSize <<< 10) ||| ((31 : Word) <<< 5) ||| 31
def addCbSave : Word :=
  0x91000000 ||| (BitVec.ofNat 32 kCbSaveSize <<< 10) ||| ((31 : Word) <<< 5) ||| 31

/-- `STR X9, [SP]`. -/
def strCbData : Word := 0xF9000000 ||| ((0 : Word) <<< 10) ||| ((31 : Word) <<< 5) ||| 9

/-- Word `i` of the loops over `X0` to `X7` and over `D0` to `D7`. -/
def strArgAt (i : ℕ) : Word :=
  0xF9000000 ||| (BitVec.ofNat 32 (kCbOffArgs / 8 + i) <<< 10) ||| ((31 : Word) <<< 5) |||
    BitVec.ofNat 32 i
def strFloatAt (i : ℕ) : Word :=
  0xFD000000 ||| (BitVec.ofNat 32 ((kCbOffFloats + i * 8) / 8) <<< 10) ||| ((31 : Word) <<< 5) |||
    BitVec.ofNat 32 i

/-- `ADD X1, SP, #kCbOffArgs` and `ADD X2, SP, #kCbOffRet`. -/
def addArgs : Word :=
  0x91000000 ||| (BitVec.ofNat 32 kCbOffArgs <<< 10) ||| ((31 : Word) <<< 5) ||| 1
def addRet : Word := 0x91000000 ||| (BitVec.ofNat 32 kCbOffRet <<< 10) ||| ((31 : Word) <<< 5) ||| 2

/-- `LDR X0, [SP, #kCbOffRet]` and `LDR D0, [SP, #kCbOffRet]`. -/
def ldrRetX : Word :=
  0xF9400000 ||| (BitVec.ofNat 32 (kCbOffRet / 8) <<< 10) ||| ((31 : Word) <<< 5) ||| 0
def ldrRetD : Word :=
  0xFD400000 ||| (BitVec.ofNat 32 (kCbOffRet / 8) <<< 10) ||| ((31 : Word) <<< 5) ||| 0

/-- The stub of `generate_callback_stub` for the `NativeCbData*` `cb`. -/
def emitCallbackStub (cb dispatch : Addr) : Assembler :=
  let a := (({} : Assembler).emitInst subCbSave)
  let a := (a.emitMovImm64 9 cb).emitInst strCbData
  let a := emitLoop (emitLoop a 8 strArgAt) 8 strFloatAt
  let a := ((a.emitMovImm64 0 cb).emitInst addArgs).emitInst addRet
  let a := (a.emitMovImm64 8 dispatch).emitBLR 8
  let a := ((a.emitInst ldrRetX).emitInst ldrRetD).emitInst addCbSave
  (a.emitInst 0xD65F0000).finalize

/-- The finished stub; irreducible, so that no unifier assembles it. -/
@[irreducible] def callbackWords (cb dispatch : Addr) : List Word :=
  (emitCallbackStub cb dispatch).buf

/-- `BLR X8`. -/
def blrX8 : Word := kOpBLR ||| ((8 : Word) <<< 5)

/-- From the entry to the call of the dispatcher, without the call. -/
def toDispatch (cb dispatch : Addr) : List Word :=
  subCbSave :: (movImm64 9 cb ++ strCbData :: ((List.range 8).map strArgAt ++
    ((List.range 8).map strFloatAt ++ (movImm64 0 cb ++ addArgs :: addRet :: movImm64 8 dispatch))))

@[simp] theorem length_toDispatch (cb dispatch : Addr) : (toDispatch cb dispatch).length = 32 := by
  simp [toDispatch]

/-- From the return of the dispatcher to the end of the stub. -/
def fromDispatch : List Word := [ldrRetX, ldrRetD, addCbSave, 0xD65F0000]

/-- **The stub**: the part up to the call of the dispatcher, the part after it, and padding. -/
theorem callbackWords_parts (cb dispatch : Addr) :
    ∃ pad, pad.length ≤ 1 ∧
      callbackWords cb dispatch = ((toDispatch cb dispatch ++ [blrX8]) ++ fromDispatch) ++ pad := by
  have hadd : emitCallbackStub cb dispatch = (({} : Assembler).add
      ⟨(toDispatch cb dispatch ++ [blrX8]) ++ fromDispatch, []⟩).finalize := by
    simp only [emitCallbackStub, emitInst_eq_add, emitBLR_eq_add, emitMovImm64_eq_add,
      emitLoop_eq_add, Assembler.add_words]
    simp [toDispatch, blrX8, fromDispatch]
  rw [callbackWords, hadd]
  refine ⟨_, ?_, Fragment.final_of_words _⟩
  rw [List.length_replicate]
  omega

/-- The stub, cut at its call. -/
theorem callbackWords_eq (cb dispatch : Addr) :
    ∃ rest, rest.length ≤ 5 ∧
      callbackWords cb dispatch = (toDispatch cb dispatch ++ [blrX8]) ++ rest := by
  obtain ⟨pad, hpad, hwords⟩ := callbackWords_parts cb dispatch
  refine ⟨fromDispatch ++ pad, ?_, ?_⟩
  · rw [List.length_append, fromDispatch]
    simp only [List.length_cons, List.length_nil]
    omega
  · rw [hwords, List.append_assoc]

/-! ## Decoding -/

theorem decode_strArgAt :
    ∀ i < 8, decode (strArgAt i) = .strX i 31 (BitVec.ofNat 64 (8 + 8 * i)) := by
  decide

theorem decode_strFloatAt : ∀ i < 8,
    decode (strFloatAt i) = .strV 8 i 31 (BitVec.ofNat 64 (72 + 8 * i)) := by
  decide

theorem decode_callback : decode subCbSave = .subImm 31 31 144 ∧
    decode strCbData = .strX 9 31 0 ∧ decode addArgs = .addImm 1 31 8 ∧
    decode addRet = .addImm 2 31 136 ∧ decode blrX8 = .blr 8 :=
  ⟨rfl, rfl, rfl, rfl, rfl⟩

theorem straight_toDispatch (cb dispatch : Addr) : Straight (toDispatch cb dispatch) := by
  obtain ⟨hsub, hstr, hargs, hret, -⟩ := decode_callback
  rw [toDispatch, straight_cons, straight_append, straight_cons, straight_append, straight_append,
    straight_append, straight_cons, straight_cons, hsub, hstr, hargs, hret]
  refine ⟨rfl, straight_movImm64 9 (by omega) _, rfl, straight_range fun i hi => ?_,
    straight_range fun i hi => ?_, straight_movImm64 0 (by omega) _, rfl, rfl,
    straight_movImm64 8 (by omega) _⟩
  · rw [decode_strArgAt i hi]
    rfl
  · rw [decode_strFloatAt i hi]
    rfl

/-! ## Running the stub -/

section Run

variable (isa : Isa) (s : Cpu)

/-- The state with the arguments stored, but for the program counter. -/
def argsStored (s : Cpu) (cb : Addr) : Cpu :=
  ((s.setSp (s.sp - 144)).setX 9 cb).setMem
    (((s.mem.write (s.sp - 144) 8 cb).writeSlots (s.sp - 144 + BitVec.ofNat 64 8) 8 8
      (s.setX 9 cb).readX).writeSlots (s.sp - 144 + BitVec.ofNat 64 72) 8 8
        fun i => (s.readV i).setWidth 64)

theorem execWords_storeArgs (cb : Addr) :
    execWords isa (subCbSave :: (movImm64 9 cb ++ strCbData :: ((List.range 8).map strArgAt ++
      (List.range 8).map strFloatAt))) s = (argsStored s cb).setPc (s.pc + 88) := by
  have h9 : ∀ t : Cpu, execWords isa (movImm64 9 cb) t = (t.setX 9 cb).setPc (t.pc + 16) :=
    fun t => execWords_movImm64 isa 9 (by omega) cb t
  have hsub : isa.exec (.subImm 31 31 144) s = (s.setSp (s.sp - 144)).setPc (s.pc + 4) := rfl
  have hstr : ∀ t : Cpu, t.readX 9 = cb →
      isa.exec (.strX 9 31 0) t = (t.setMem (t.mem.write t.sp 8 cb)).setPc (t.pc + 4) := by
    intro t ht
    have hbase : t.readXSP 31 + 0 = t.sp := add_zero t.sp
    rw [exec_of_not_isBranch isa rfl, Isa.effect, hbase, ht]
  obtain ⟨dsub, dstr, -, -, -⟩ := decode_callback
  rw [execWords_cons, dsub, hsub, execWords_append, h9, execWords_cons, dstr, hstr,
    execWords_append, execWords_storesX _ (by omega) decode_strArgAt,
    execWords_storesV _ (by omega) decode_strFloatAt]
  · have hpc : s.pc + 4 + 16 + 4 + BitVec.ofNat 64 (4 * 8) + BitVec.ofNat 64 (4 * 8) =
        s.pc + 88 := by
      simp only [BitVec.add_assoc]
      rfl
    simp only [Cpu.setX_setPc, Cpu.setMem_setPc, Cpu.setPc_setPc, Cpu.pc_setPc]
    rw [← hpc]
    rfl
  · rw [Cpu.readX_setPc, Cpu.readX_setX_same _ _ _ (by omega)]

/-- Passing the three arguments of the dispatcher and calling it. -/
theorem execWords_callDispatch (cb dispatch : Addr) :
    execWords isa (movImm64 0 cb ++ addArgs :: addRet :: (movImm64 8 dispatch ++ [blrX8])) s =
      (((((s.setX 0 cb).setX 1 (s.sp + 8)).setX 2 (s.sp + 136)).setX 8 dispatch).setX 30
        (s.pc + 44)).setPc dispatch := by
  have h0 : ∀ t : Cpu, execWords isa (movImm64 0 cb) t = (t.setX 0 cb).setPc (t.pc + 16) :=
    fun t => execWords_movImm64 isa 0 (by omega) cb t
  have h8 : ∀ t : Cpu,
      execWords isa (movImm64 8 dispatch) t = (t.setX 8 dispatch).setPc (t.pc + 16) :=
    fun t => execWords_movImm64 isa 8 (by omega) dispatch t
  have hadd : ∀ (t : Cpu) (n : ℕ) (imm : BitVec 64), n ≠ 31 →
      isa.exec (.addImm n 31 imm) t = (t.setX n (t.sp + imm)).setPc (t.pc + 4) := by
    intro t n imm hn
    rw [exec_of_not_isBranch isa rfl, Isa.effect, Cpu.setXSP_of_ne _ _ hn]
    rfl
  obtain ⟨-, -, dargs, dret, dblr⟩ := decode_callback
  rw [execWords_append, h0, execWords_cons, dargs, hadd _ 1 _ (by omega), execWords_cons, dret,
    hadd _ 2 _ (by omega), execWords_append, h8, execWords_cons, dblr, execWords_nil, exec_blr,
    Cpu.readX_setPc, Cpu.readX_setX_same _ _ _ (by omega)]
  have hpc : s.pc + 16 + 4 + 4 + 16 + 4 = s.pc + 44 := by
    simp only [BitVec.add_assoc]
    rfl
  simp only [Cpu.setX_setPc, Cpu.setPc_setPc, Cpu.pc_setPc, Cpu.sp_setPc, Cpu.sp_setX]
  rw [hpc]

/-- The state in which the dispatcher is entered. -/
structure AtDispatch (s : Cpu) (cb dispatch : Addr) (t : Cpu) : Prop where
  pc : t.pc = dispatch
  sp : t.sp = s.sp - 144
  x0 : t.readX 0 = cb
  x1 : t.readX 1 = t.sp + BitVec.ofNat 64 8
  x2 : t.readX 2 = t.sp + BitVec.ofNat 64 136
  link : t.readX 30 = s.pc + 132
  args : ∀ i < 8, t.mem.read (t.sp + BitVec.ofNat 64 (8 + 8 * i)) 8 = s.readX i
  floats : ∀ i < 8, t.mem.read (t.sp + BitVec.ofNat 64 (72 + 8 * i)) 8 = (s.readV i).setWidth 64

theorem execWords_toDispatch (cb dispatch : Addr) :
    execWords isa (toDispatch cb dispatch ++ [blrX8]) s =
      ((((((argsStored s cb).setX 0 cb).setX 1 (s.sp - 144 + 8)).setX 2 (s.sp - 144 + 136)).setX 8
        dispatch).setX 30 (s.pc + 132)).setPc dispatch := by
  have hsplit : toDispatch cb dispatch ++ [blrX8] =
      (subCbSave :: (movImm64 9 cb ++ strCbData :: ((List.range 8).map strArgAt ++
        (List.range 8).map strFloatAt))) ++
          (movImm64 0 cb ++ addArgs :: addRet :: (movImm64 8 dispatch ++ [blrX8])) := by
    simp [toDispatch]
  have hpc : s.pc + 88 + 44 = s.pc + 132 := by
    rw [BitVec.add_assoc]
    rfl
  have hsp : (argsStored s cb).sp = s.sp - 144 := rfl
  rw [hsplit, execWords_append, execWords_storeArgs, execWords_callDispatch]
  simp only [Cpu.setX_setPc, Cpu.setPc_setPc, Cpu.pc_setPc, Cpu.sp_setPc]
  rw [hpc, hsp]

theorem atDispatch (cb dispatch : Addr) :
    AtDispatch s cb dispatch (execWords isa (toDispatch cb dispatch ++ [blrX8]) s) := by
  rw [execWords_toDispatch]
  have hsp : (argsStored s cb).sp = s.sp - 144 := rfl
  have hmem : (argsStored s cb).mem =
      ((s.mem.write (s.sp - 144) 8 cb).writeSlots (s.sp - 144 + BitVec.ofNat 64 8) 8 8
        (s.setX 9 cb).readX).writeSlots (s.sp - 144 + BitVec.ofNat 64 72) 8 8
          fun i => (s.readV i).setWidth 64 := rfl
  rw [← hsp]
  generalize argsStored s cb = c at hsp hmem
  rw [← hsp] at hmem
  refine ⟨rfl, hsp, ?_, ?_, ?_, ?_, ?_, ?_⟩
  · simp
  · simp
  · simp
  · rw [Cpu.readX_setPc, Cpu.readX_setX_same _ _ _ (by omega)]
  · intro i hi
    have hslot : ((s.mem.write c.sp 8 cb).writeSlots (c.sp + BitVec.ofNat 64 8) 8 8
        (s.setX 9 cb).readX).read (c.sp + BitVec.ofNat 64 8 + BitVec.ofNat 64 (8 * i)) 8 =
          (s.setX 9 cb).readX i := Mem.read_writeSlots (by omega) hi
    rw [Cpu.readX_setX_of_ne _ _ (by omega), ← ofNat_offset] at hslot
    refine (Mem.read_eq_of_forall_inRange (by omega) fun x hx => ?_).trans hslot
    -- the second array lies above the first
    have hx' : InRange (c.sp + BitVec.ofNat 64 (8 + 8 * i)) 8 x := hx
    rw [inRange_add_iff (by omega)] at hx'
    show c.mem x = _
    rw [hmem, Mem.writeSlots_of_not_inRange]
    rw [inRange_add_iff (by omega)]
    omega
  · intro i hi
    show c.mem.read _ 8 = _
    rw [hmem, ofNat_offset]
    exact Mem.read_writeSlots (by omega) hi

end Run

/-! ## What the dispatcher converts -/

/-- The values `native_callback_dispatch` hands to `native_to_js`: the array it is given, by
position. -/
def dispatchValues (data : NativeCbData) (c : Cpu) : List (BitVec 64) :=
  (List.range data.argTypes.length).map fun i => c.mem.read (c.readX 1 + BitVec.ofNat 64 (8 * i)) 8

/-- The classes of the arguments with their values. -/
def NativeCbData.args (data : NativeCbData) (values : List (BitVec 64)) :
    List (ArgClass × BitVec 64) :=
  (data.argTypes.map ArgType.argClass).zip values

/-- A call of the stub in state `s` reaches the dispatcher, which converts `values`. -/
def Receives (P : Program) (isa : Isa) (data : NativeCbData) (dispatch : Addr) (s : Cpu)
    (values : List (BitVec 64)) : Prop :=
  ∃ s1, P.stepN isa 33 s = some s1 ∧ s1.pc = dispatch ∧ dispatchValues data s1 = values

section Receives

variable {P : Program} {isa : Isa} {data : NativeCbData} {cb dispatch : Addr} {s : Cpu}
  {values : List (BitVec 64)}

/-- The dispatcher converts `X0`, `X1`, ... by position. -/
theorem receives_iff (hP : P.Has s.pc (callbackWords cb dispatch)) :
    Receives P isa data dispatch s values ↔
      (List.range data.argTypes.length).map s.readX = values := by
  obtain ⟨rest, -, hwords⟩ := callbackWords_eq cb dispatch
  rw [hwords, Program.has_append] at hP
  have hto := stepN_words_last isa hP.1 (straight_toDispatch cb dispatch)
  have hat := atDispatch isa s cb dispatch
  rw [length_toDispatch] at hto
  generalize execWords isa (toDispatch cb dispatch ++ [blrX8]) s = s1 at hto hat
  have hvalues : dispatchValues data s1 = (List.range data.argTypes.length).map s.readX := by
    refine List.map_congr_left fun i hi => ?_
    rw [List.mem_range] at hi
    rw [hat.x1, ← ofNat_offset, hat.args i (hi.trans_le data.nargs_le)]
  constructor
  · rintro ⟨t, ht, -, hv⟩
    obtain rfl : s1 = t := Option.some.inj (hto.symm.trans ht)
    rw [← hvalues, hv]
  · intro h
    exact ⟨s1, hto, hat.pc, hvalues.trans h⟩

theorem map_fst_args (h : values.length = data.argTypes.length) :
    (data.args values).map Prod.fst = data.argTypes.map ArgType.argClass :=
  List.map_fst_zip (by rw [List.length_map, h])

theorem map_snd_args (h : values.length = data.argTypes.length) :
    (data.args values).map Prod.snd = values :=
  List.map_snd_zip (by rw [List.length_map, h])

/-- Without floating-point types every argument is in the register of its position. -/
theorem eq_map_readX_of_delivered (hvals : values.length = data.argTypes.length)
    (hfloat : ∀ t ∈ data.argTypes, isFloatType t = false)
    (hplaced : Delivered s (data.args values)) :
    (List.range data.argTypes.length).map s.readX = values := by
  have hclass : ∀ cls ∈ data.argTypes.map ArgType.argClass, cls = .general := by
    intro cls hcls
    rw [List.mem_map] at hcls
    obtain ⟨t, ht, rfl⟩ := hcls
    rw [ArgType.argClass, hfloat t ht]
    rfl
  have hlen : 0 + (data.argTypes.map ArgType.argClass).length ≤ 8 := by
    rw [List.length_map, Nat.zero_add]
    exact data.nargs_le
  rw [Delivered, map_fst_args hvals, map_snd_args hvals, argLocs_of_general 0 0 hclass hlen,
    List.map_map, List.length_map, ← List.range_eq_range'] at hplaced
  exact hplaced

/-- With a floating-point type some argument is in a vector register. -/
theorem exists_vector_argLoc {t : ArgType} (ht : t ∈ data.argTypes)
    (hfloat : isFloatType t = true) :
    ∃ j < 8, .v j ∈ argLocs (data.argTypes.map ArgType.argClass) 0 0 0 := by
  have hmem : ArgClass.vector ∈ data.argTypes.map ArgType.argClass := by
    rw [List.mem_map]
    refine ⟨t, ht, ?_⟩
    rw [ArgType.argClass, hfloat]
    rfl
  have hlen : 0 + (data.argTypes.map ArgType.argClass).length ≤ 8 := by
    rw [List.length_map, Nat.zero_add]
    exact data.nargs_le
  exact exists_mem_argLocs_of_vector 0 hmem hlen hlen

end Receives

/-- A caller at the stub whose general registers hold zero and whose vector registers hold one. -/
def onesCaller : Cpu := { Cpu.zero 0x10000000 (fun _ => 0) with v := fun _ => 1 }

theorem readX_onesCaller (n : ℕ) : onesCaller.readX n = 0 := by
  rw [Cpu.readX]
  split
  · rfl
  · rfl

theorem readV_onesCaller {n : ℕ} (hn : n < 32) : (onesCaller.readV n).setWidth 64 = 1 := by
  rw [Cpu.readV, dif_pos hn]
  rfl

theorem length_callbackWords_le (cb dispatch : Addr) :
    4 * (callbackWords cb dispatch).length ≤ 2 ^ 64 := by
  obtain ⟨rest, hrest, hwords⟩ := callbackWords_eq cb dispatch
  rw [hwords, List.length_append, List.length_append, length_toDispatch, List.length_singleton]
  omega

/-- The arguments `onesCaller` passes. -/
def onesValues (data : NativeCbData) : List (BitVec 64) :=
  (argLocs (data.argTypes.map ArgType.argClass) 0 0 0).map (ArgLoc.read onesCaller)

theorem length_onesValues (data : NativeCbData) :
    (onesValues data).length = data.argTypes.length := by
  rw [onesValues, List.length_map, length_argLocs, List.length_map]

theorem delivered_onesValues (data : NativeCbData) :
    Delivered onesCaller (data.args (onesValues data)) := by
  rw [Delivered, map_fst_args (length_onesValues data), map_snd_args (length_onesValues data)]
  rfl

/-- **When a `NativeCallback` receives the arguments of its caller**: for every register file in
which they are placed as the standard says, exactly when no type of the signature is a
floating-point type. -/
theorem callback_receives_iff (isa : Isa) (data : NativeCbData) (cb dispatch : Addr) :
    (∀ (P : Program) (s : Cpu) (values : List (BitVec 64)), P.Has s.pc (callbackWords cb dispatch) →
      values.length = data.argTypes.length → Delivered s (data.args values) →
        Receives P isa data dispatch s values) ↔
        ∀ t ∈ data.argTypes, isFloatType t = false := by
  constructor
  · intro h t ht
    by_contra hfloat
    rw [Bool.not_eq_false] at hfloat
    -- the general registers are zero, but the floating-point argument is one
    have hP : (Program.block 0x10000000 (callbackWords cb dispatch)).Has onesCaller.pc
        (callbackWords cb dispatch) := Program.block_has _ (length_callbackWords_le cb dispatch)
    have hreceives := h _ _ _ hP (length_onesValues data) (delivered_onesValues data)
    rw [receives_iff hP] at hreceives
    obtain ⟨j, hj, hloc⟩ := exists_vector_argLoc ht hfloat
    have hone : (1 : BitVec 64) ∈ onesValues data := by
      rw [← readV_onesCaller (hj.trans (by omega))]
      exact List.mem_map_of_mem hloc
    rw [← hreceives, List.mem_map] at hone
    obtain ⟨i, -, hi⟩ := hone
    rw [readX_onesCaller] at hi
    exact absurd hi (by decide)
  · intro hfloat P s values hP hvals hplaced
    rw [receives_iff hP]
    exact eq_map_readX_of_delivered hvals hfloat hplaced

/-- `void f(double)`. -/
def oneDouble : NativeCbData := ⟨.void, [.double], by decide⟩

/-- The caller passes one in `D0`, and the dispatcher converts the zero in `X0`. -/
theorem oneDouble_not_received :
    Delivered onesCaller (oneDouble.args [1]) ∧
      ¬ Receives (Program.block 0x10000000 (callbackWords 0x40000000 0x20000000)) Isa.bare oneDouble
        0x20000000 onesCaller [1] := by
  have hP : (Program.block 0x10000000 (callbackWords 0x40000000 0x20000000)).Has onesCaller.pc
      (callbackWords 0x40000000 0x20000000) := Program.block_has _ (length_callbackWords_le _ _)
  refine ⟨delivered_onesValues oneDouble, ?_⟩
  rw [receives_iff hP]
  decide

end Native
end CalvinHook
