import CalvinHook.A64.Aapcs64
import CalvinHook.A64.Spill
import CalvinHook.HookSdk.AssemblerRun

/-!
# `js_interceptor.cpp`: the code block of `Interceptor.attach`

`emitTrampoline` emits the block as `generate_trampolines` does, and `patchOrigFunc` puts in the
address of the original function.  `trampolineWords_eq` cuts the result at its three calls and its
return; the rest of the module executes the pieces.

* `execWords_save`: registers are saved below the stack pointer.
* `execWords_restore`: registers are loaded again.  The word for a vector register is that of
  `LDR Bt`, one byte at an offset in bytes, and not that of `LDR Qt`.
-/

namespace CalvinHook
namespace Interceptor

open A64 Arm64

/-! ## The source -/

def kOffEntry : ℕ := 0
def kOffX0 : ℕ := 8
def kOffV0 : ℕ := 8 + 19 * 8
def kSaveSize : ℕ := 8 + 19 * 8 + 8 * 16

def subSp (imm : Word) : Word := 0xD1000000 ||| (imm <<< 10) ||| ((31 : Word) <<< 5) ||| 31
def addSp (imm : Word) : Word := 0x91000000 ||| (imm <<< 10) ||| ((31 : Word) <<< 5) ||| 31
def strX (rt rn imm8 : Word) : Word := 0xF9000000 ||| (imm8 <<< 10) ||| (rn <<< 5) ||| rt
def ldrX (rt rn imm8 : Word) : Word := 0xF9400000 ||| (imm8 <<< 10) ||| (rn <<< 5) ||| rt
def strQ (rt rn imm16 : Word) : Word := 0x3D800000 ||| (imm16 <<< 10) ||| (rn <<< 5) ||| rt
def ldrQ (rt rn imm16 : Word) : Word := 0x3D400000 ||| (imm16 <<< 10) ||| (rn <<< 5) ||| rt

/-- Word `i` of the loops over the general registers. -/
def strXAt (i : ℕ) : Word :=
  strX (BitVec.ofNat 32 i) 31 (BitVec.ofNat 32 ((kOffX0 + i * 8) / 8))

def ldrXAt (i : ℕ) : Word :=
  ldrX (BitVec.ofNat 32 i) 31 (BitVec.ofNat 32 ((kOffX0 + i * 8) / 8))

/-- Word `i` of the loops over the vector registers. -/
def strQAt (i : ℕ) : Word :=
  strQ (BitVec.ofNat 32 i) 31 (BitVec.ofNat 32 ((kOffV0 + i * 16) / 16))

def ldrQAt (i : ℕ) : Word :=
  ldrQ (BitVec.ofNat 32 i) 31 (BitVec.ofNat 32 ((kOffV0 + i * 16) / 16))

/-- Allocate the save area, save `X0` to `X18` and `Q0` to `Q7`. -/
def emitSave (a : Assembler) : Assembler :=
  emitLoop (emitLoop (a.emitInst (subSp (BitVec.ofNat 32 kSaveSize))) 19 strXAt) 8 strQAt

/-- Store the `AttachEntry*` and call a dispatcher with the stack pointer. -/
def emitDispatch (a : Assembler) (entry dispatch : Addr) : Assembler :=
  let a := (a.emitMovImm64 16 entry).emitInst (strX 16 31 0)
  let a := (a.emitMovImm64 16 dispatch).emitInst 0x910003E0
  a.emitBLR 16

/-- Restore the registers and free the save area. -/
def emitRestore (a : Assembler) : Assembler :=
  (emitLoop (emitLoop a 19 ldrXAt) 8 ldrQAt).emitInst (addSp (BitVec.ofNat 32 kSaveSize))

/-- The code block of `generate_trampolines` and the offset of the placeholder for the original
function. -/
def emitTrampoline (entry onEnter onLeave : Addr) : Assembler × ℕ :=
  -- STP X19, X30, [SP, #-16]!
  let a := ({} : Assembler).emitInst 0xA9BF7BF3
  let a := emitRestore (emitDispatch (emitSave a) entry onEnter)
  -- LDP X19, X30, [SP], #16; STP X19, X30, [SP, #-16]!; MOV X19, X30
  let a := ((a.emitInst 0xA8C17BF3).emitInst 0xA9BF7BF3).emitInst 0xAA1E03F3
  let patchOff := a.currentOffset
  let a := (a.emitMovImm64 16 0).emitBLR 16
  -- MOV X30, X19
  let a := a.emitInst 0xAA1303FE
  let a := emitRestore (emitDispatch (emitSave a) entry onLeave)
  -- LDP X19, X30, [SP], #16; RET
  let a := (a.emitInst 0xA8C17BF3).emitInst 0xD65F03C0
  (a.finalize, patchOff)

/-- The four words written over the placeholder. -/
def origFuncWords (val : Addr) : List Word :=
  [kOpMovZ ||| ((0 : Word) <<< 21) ||| ((val &&& 0xFFFF).setWidth 32 <<< 5) ||| 16,
    kOpMovK ||| ((1 : Word) <<< 21) ||| (((val >>> 16) &&& 0xFFFF).setWidth 32 <<< 5) ||| 16,
    kOpMovK ||| ((2 : Word) <<< 21) ||| (((val >>> 32) &&& 0xFFFF).setWidth 32 <<< 5) ||| 16,
    kOpMovK ||| ((3 : Word) <<< 21) ||| (((val >>> 48) &&& 0xFFFF).setWidth 32 <<< 5) ||| 16]

/-- Write the address of the original function into the code at `off`. -/
def patchOrigFunc (code : List Word) (off : ℕ) (origFunc : Addr) : List Word :=
  code.take (off / 4) ++ origFuncWords origFunc ++ code.drop (off / 4 + 4)

/-- The code block once the hook is installed; irreducible, so that no unifier assembles it. -/
@[irreducible] def trampolineWords (entry onEnter onLeave origFunc : Addr) : List Word :=
  patchOrigFunc (emitTrampoline entry onEnter onLeave).1.buf
    (emitTrampoline entry onEnter onLeave).2 origFunc

/-! ## The pieces -/

def saveWords : List Word :=
  subSp (BitVec.ofNat 32 kSaveSize) :: ((List.range 19).map strXAt ++ (List.range 8).map strQAt)

def dispatchWords (entry dispatch : Addr) : List Word :=
  movImm64 16 entry ++ [strX 16 31 0] ++ movImm64 16 dispatch ++ [0x910003E0]

def restoreWords : List Word :=
  (List.range 19).map ldrXAt ++ (List.range 8).map ldrQAt ++ [addSp (BitVec.ofNat 32 kSaveSize)]

/-- `BLR X16`. -/
def blrX16 : Word := kOpBLR ||| ((16 : Word) <<< 5)

/-- From the entry to the call of `dispatch_on_enter`, without the call. -/
def toEnter (entry onEnter : Addr) : List Word :=
  0xA9BF7BF3 :: (saveWords ++ dispatchWords entry onEnter)

/-- From there to the call of the original function. -/
def toOrig (origFunc : Addr) : List Word :=
  restoreWords ++ [0xA8C17BF3, 0xA9BF7BF3, 0xAA1E03F3] ++ movImm64 16 origFunc

/-- From there to the call of `dispatch_on_leave`. -/
def toLeave (entry onLeave : Addr) : List Word :=
  0xAA1303FE :: (saveWords ++ dispatchWords entry onLeave)

/-- From there to the return. -/
def toReturn : List Word := restoreWords ++ [0xA8C17BF3]

@[simp] theorem length_saveWords : saveWords.length = 28 := by simp [saveWords]

@[simp] theorem length_dispatchWords (entry dispatch : Addr) :
    (dispatchWords entry dispatch).length = 10 := by simp [dispatchWords]

@[simp] theorem length_restoreWords : restoreWords.length = 28 := by simp [restoreWords]

@[simp] theorem length_toEnter (entry onEnter : Addr) : (toEnter entry onEnter).length = 39 := by
  simp [toEnter]

@[simp] theorem length_toOrig (origFunc : Addr) : (toOrig origFunc).length = 35 := by simp [toOrig]

@[simp] theorem length_toLeave (entry onLeave : Addr) : (toLeave entry onLeave).length = 39 := by
  simp [toLeave]

@[simp] theorem length_toReturn : toReturn.length = 29 := by simp [toReturn]

theorem emitSave_eq_add (a : Assembler) : emitSave a = a.add ⟨saveWords, []⟩ := by
  rw [emitSave, emitLoop_eq_add, emitLoop_eq_add, emitInst_eq_add, Assembler.add_words,
    Assembler.add_words]
  rfl

theorem emitDispatch_eq_add (a : Assembler) (entry dispatch : Addr) :
    emitDispatch a entry dispatch = a.add ⟨dispatchWords entry dispatch ++ [blrX16], []⟩ := by
  simp only [emitDispatch, emitBLR_eq_add, emitInst_eq_add, emitMovImm64_eq_add,
    Assembler.add_words, dispatchWords, blrX16, List.append_assoc]

theorem emitRestore_eq_add (a : Assembler) : emitRestore a = a.add ⟨restoreWords, []⟩ := by
  rw [emitRestore, emitInst_eq_add, emitLoop_eq_add, emitLoop_eq_add, Assembler.add_words,
    Assembler.add_words]
  rfl

/-- The words before and after the placeholder. -/
def beforePlaceholder (entry onEnter : Addr) : List Word :=
  toEnter entry onEnter ++ [blrX16] ++ restoreWords ++ [0xA8C17BF3, 0xA9BF7BF3, 0xAA1E03F3]

def afterPlaceholder (entry onLeave : Addr) : List Word :=
  [blrX16] ++ toLeave entry onLeave ++ [blrX16] ++ toReturn ++ [0xD65F03C0]

theorem emitTrampoline_eq (entry onEnter onLeave : Addr) :
    (emitTrampoline entry onEnter onLeave).1.buf =
      beforePlaceholder entry onEnter ++ movImm64 16 0 ++ afterPlaceholder entry onLeave ∧
    (emitTrampoline entry onEnter onLeave).2 = 4 * (beforePlaceholder entry onEnter).length := by
  have hbefore :
      ((((emitRestore (emitDispatch (emitSave (({} : Assembler).emitInst 0xA9BF7BF3)) entry
      onEnter)).emitInst 0xA8C17BF3).emitInst 0xA9BF7BF3).emitInst 0xAA1E03F3) =
      ({} : Assembler).add ⟨beforePlaceholder entry onEnter, []⟩ := by
    simp only [emitRestore_eq_add, emitDispatch_eq_add, emitSave_eq_add, emitInst_eq_add,
      Assembler.add_words]
    simp [beforePlaceholder, toEnter]
  have hafter : ∀ a : Assembler,
      ((emitRestore (emitDispatch (emitSave (((a.emitMovImm64 16 0).emitBLR
      16).emitInst 0xAA1303FE)) entry onLeave)).emitInst 0xA8C17BF3).emitInst 0xD65F03C0 =
      a.add ⟨movImm64 16 0 ++ afterPlaceholder entry onLeave, []⟩ := by
    intro a
    simp only [emitRestore_eq_add, emitDispatch_eq_add, emitSave_eq_add, emitInst_eq_add,
      emitBLR_eq_add, emitMovImm64_eq_add, Assembler.add_words]
    simp [afterPlaceholder, toLeave, toReturn, blrX16]
  have hall : (emitTrampoline entry onEnter onLeave).1 =
      (({} : Assembler).add ⟨beforePlaceholder entry onEnter ++
        (movImm64 16 0 ++ afterPlaceholder entry onLeave), []⟩).finalize := by
    rw [← Assembler.add_words, ← hbefore, ← hafter]
    rfl
  refine ⟨?_, ?_⟩
  · rw [hall, List.append_assoc]
    exact Fragment.final_of_even (by simp [beforePlaceholder, afterPlaceholder])
  · show Assembler.currentOffset _ = _
    rw [hbefore]
    rfl

/-- The words written over the placeholder are those of `EmitMovImm64`. -/
theorem origFuncWords_eq (val : Addr) : origFuncWords val = movImm64 16 val := by
  have hw : ∀ x : BitVec 64,
      (x &&& 0xFFFF).setWidth 32 = ((x &&& 0xFFFF).setWidth 16).setWidth 32 := by
    have hmask : ∀ i < 64, (0xFFFF#64).getLsbD i = decide (i < 16) := by decide
    intro x
    refine BitVec.eq_of_getLsbD_eq fun i hi => ?_
    have h64 : i < 64 := by omega
    simp only [BitVec.getLsbD_setWidth, BitVec.getLsbD_and]
    rw [show (0xFFFF : BitVec 64) = 0xFFFF#64 from rfl, hmask i h64]
    by_cases h16 : i < 16 <;> simp [h16]
  rw [origFuncWords, hw, hw, hw, hw]
  rfl

/-- **The code block**, cut at its calls. -/
theorem trampolineWords_eq (entry onEnter onLeave origFunc : Addr) :
    trampolineWords entry onEnter onLeave origFunc =
      (toEnter entry onEnter ++ [blrX16]) ++ (toOrig origFunc ++ [blrX16]) ++
        (toLeave entry onLeave ++ [blrX16]) ++ (toReturn ++ [0xD65F03C0]) := by
  obtain ⟨hbuf, hoff⟩ := emitTrampoline_eq entry onEnter onLeave
  have hdiv : (emitTrampoline entry onEnter onLeave).2 / 4 =
      (beforePlaceholder entry onEnter).length := by
    rw [hoff]
    omega
  have htake : (beforePlaceholder entry onEnter ++ movImm64 16 0 ++
      afterPlaceholder entry onLeave).take
      (beforePlaceholder entry onEnter).length = beforePlaceholder entry onEnter := by
    rw [List.append_assoc]
    exact List.take_left' rfl
  have hdrop : (beforePlaceholder entry onEnter ++ movImm64 16 0 ++
      afterPlaceholder entry onLeave).drop
      ((beforePlaceholder entry onEnter).length + 4) = afterPlaceholder entry onLeave :=
    List.drop_left' (by rw [List.length_append, length_movImm64])
  rw [trampolineWords, patchOrigFunc, hdiv, hbuf, htake, hdrop, origFuncWords_eq]
  simp only [beforePlaceholder, afterPlaceholder, toOrig, List.append_assoc]

/-- The words of `EmitMovImm64` in a fresh assembler. -/
theorem buf_emitMovImm64 (rd : Word) (val : BitVec 64) :
    (({} : Assembler).emitMovImm64 rd val).buf = movImm64 rd val := by
  rw [emitMovImm64_eq_add]
  rfl

/-- **Loading a 64-bit immediate.**  The four words of `EmitMovImm64` leave the value in the
register and everything else but the program counter as it was.  The words written by hand at the
offset of the placeholder are those `EmitMovImm64` would have emitted there. -/
theorem movImm64_loads (isa : Isa) (a : Assembler) {rd : ℕ} (hrd : rd ≤ 30) (val : BitVec 64)
    (s : Cpu) (entry onEnter onLeave origFunc : Addr) :
    (∃ ws, (a.emitMovImm64 (BitVec.ofNat 32 rd) val).buf = a.buf ++ ws ∧ ws.length = 4 ∧
      let t := execWords isa ws s
      t.readX rd = val ∧ (∀ r, r ≠ rd → t.readX r = s.readX r) ∧ (∀ r, t.readV r = s.readV r) ∧
        t.sp = s.sp ∧ t.nzcv = s.nzcv ∧ t.mem = s.mem ∧ t.pc = s.pc + 16) ∧
    let code := (emitTrampoline entry onEnter onLeave).1.buf
    let off := (emitTrampoline entry onEnter onLeave).2
    off % 4 = 0 ∧ (code.drop (off / 4)).take 4 = (({} : Assembler).emitMovImm64 16 0).buf ∧
      patchOrigFunc code off origFunc = code.take (off / 4) ++
        (({} : Assembler).emitMovImm64 16 origFunc).buf ++ code.drop (off / 4 + 4) := by
  refine ⟨⟨movImm64 (BitVec.ofNat 32 rd) val, ?_, length_movImm64 _ _, ?_⟩, ?_⟩
  · rw [emitMovImm64_eq_add]
    rfl
  · rw [execWords_movImm64 isa rd (by omega)]
    exact ⟨Cpu.readX_setX_same _ _ _ (by omega), fun r hr => Cpu.readX_setX_of_ne _ _ hr,
      fun _ => rfl, rfl, rfl, rfl, rfl⟩
  · intro code off
    have hbuf : code = _ := (emitTrampoline_eq entry onEnter onLeave).1
    have hoff : off = _ := (emitTrampoline_eq entry onEnter onLeave).2
    have hdiv : off / 4 = (beforePlaceholder entry onEnter).length := by omega
    refine ⟨by omega, ?_, ?_⟩
    · rw [hdiv, hbuf, buf_emitMovImm64, List.append_assoc, List.drop_left]
      exact List.take_left' (length_movImm64 _ _)
    · rw [patchOrigFunc, origFuncWords_eq, buf_emitMovImm64]

/-- A pointer with a tag in its top byte, loaded into `X16` from a state with all registers zero. -/
theorem movImm64_loads_tagged :
    ∃ ws, (({} : Assembler).emitMovImm64 16 0xB400007FC0DEBEEF).buf = ws ∧
      (execWords Isa.bare ws (Cpu.zero 0 fun _ => 0)).readX 16 = 0xB400007FC0DEBEEF := by
  obtain ⟨⟨ws, hws, -, hx, -⟩, -⟩ := movImm64_loads Isa.bare {} (show 16 ≤ 30 by decide)
    0xB400007FC0DEBEEF (Cpu.zero 0 fun _ => 0) 0 0 0 0
  exact ⟨ws, hws, hx⟩

/-! ## Decoding the pieces -/

theorem decode_strXAt : ∀ i < 19, decode (strXAt i) = .strX i 31 (BitVec.ofNat 64 (8 + 8 * i)) := by
  decide

theorem decode_strQAt : ∀ i < 8,
    decode (strQAt i) = .strV 16 i 31 (BitVec.ofNat 64 (160 + 16 * i)) := by
  decide

theorem decode_ldrXAt : ∀ i < 19, decode (ldrXAt i) = .ldrX i 31 (BitVec.ofNat 64 (8 + 8 * i)) := by
  decide

/-- The words meant to load a vector register load one byte, at a byte offset. -/
theorem decode_ldrQAt :
    ∀ i < 8, decode (ldrQAt i) = .ldrV 1 i 31 (BitVec.ofNat 64 (10 + 1 * i)) := by
  decide

theorem decode_fixed :
    decode (subSp (BitVec.ofNat 32 kSaveSize)) = .subImm 31 31 288 ∧
    decode (addSp (BitVec.ofNat 32 kSaveSize)) = .addImm 31 31 288 ∧
    decode (strX 16 31 0) = .strX 16 31 0 ∧
    decode 0x910003E0 = .addImm 0 31 0 ∧
    decode blrX16 = .blr 16 :=
  ⟨rfl, rfl, rfl, rfl, rfl⟩

theorem decode_pairs :
    decode 0xA9BF7BF3 = .stpPre 19 30 31 (-16) ∧ decode 0xA8C17BF3 = .ldpPost 19 30 31 16 ∧
    decode 0xAA1E03F3 = .orr 19 31 30 ∧ decode 0xAA1303FE = .orr 30 31 19 ∧
    decode 0xD65F03C0 = .ret 30 :=
  ⟨rfl, rfl, rfl, rfl, rfl⟩

theorem straight_saveWords : Straight saveWords := by
  rw [saveWords, straight_cons, straight_append]
  refine ⟨?_, straight_range fun i hi => ?_, straight_range fun i hi => ?_⟩
  · rw [decode_fixed.1]
    rfl
  · rw [decode_strXAt i hi]
    rfl
  · rw [decode_strQAt i hi]
    rfl

theorem straight_restoreWords : Straight restoreWords := by
  rw [restoreWords, straight_append, straight_append, straight_singleton]
  refine ⟨⟨straight_range fun i hi => ?_, straight_range fun i hi => ?_⟩, ?_⟩
  · rw [decode_ldrXAt i hi]
    rfl
  · rw [decode_ldrQAt i hi]
    rfl
  · rw [decode_fixed.2.1]
    rfl

theorem straight_dispatchWords (entry dispatch : Addr) :
    Straight (dispatchWords entry dispatch) := by
  rw [dispatchWords, straight_append, straight_append, straight_append, straight_singleton,
    straight_singleton, decode_fixed.2.2.1, decode_fixed.2.2.2.1]
  exact ⟨⟨⟨straight_movImm64 16 (by omega) entry, rfl⟩,
    straight_movImm64 16 (by omega) dispatch⟩, rfl⟩

/-! ## Executing the pieces -/

section Exec

variable (isa : Isa) (s : Cpu)

/-- The state with `X0` to `X18` and `Q0` to `Q7` saved below the stack pointer. -/
def saved (s : Cpu) : Cpu :=
  (s.setSp (s.sp - 288)).setMem
    ((s.mem.writeSlots (s.sp - 288 + 8) 8 19 s.readX).writeSlots (s.sp - 288 + 160) 16 8 s.readV)

theorem execWords_save :
    execWords isa saveWords s = (saved s).setPc (s.pc + 112) := by
  have hsub : isa.exec (.subImm 31 31 288) s = (s.setSp (s.sp - 288)).setPc (s.pc + 4) := rfl
  have hV : ∀ t : Cpu, (fun i => (t.readV i).setWidth (8 * 16)) = t.readV := fun t => by
    funext i
    exact BitVec.setWidth_eq _
  rw [saveWords, execWords_cons, decode_fixed.1, hsub, execWords_append,
    execWords_storesX _ (by omega) decode_strXAt, execWords_storesV _ (by omega) decode_strQAt, hV]
  show (Cpu.setMem _ _).setPc (s.pc + 4 + BitVec.ofNat 64 (4 * 19) + BitVec.ofNat 64 (4 * 8)) = _
  rw [BitVec.add_assoc, BitVec.add_assoc]
  rfl

/-- The state with `X0` to `X18` loaded from the save area, and one byte of it loaded into each of
`V0` to `V7`. -/
def restored (s : Cpu) : Cpu :=
  ((s.loadX (s.sp + 8) 19).loadV (s.sp + 10) 1 8).setSp (s.sp + 288)

theorem execWords_restore :
    execWords isa restoreWords s = (restored s).setPc (s.pc + 112) := by
  rw [restoreWords, execWords_append, execWords_append,
    execWords_loadsX s (by omega) decode_ldrXAt, execWords_loadsV _ decode_ldrQAt, execWords_cons,
    execWords_nil, decode_fixed.2.1]
  show (Cpu.setSp _ _).setPc (s.pc + BitVec.ofNat 64 (4 * 19) + BitVec.ofNat 64 (4 * 8) + 4) = _
  rw [BitVec.add_assoc, BitVec.add_assoc]
  rfl

theorem execWords_movX16 (val : BitVec 64) :
    execWords isa (movImm64 16 val) s = (s.setX 16 val).setPc (s.pc + 16) :=
  execWords_movImm64 isa 16 (by omega) val s

/-- Calling a dispatcher: it is entered with the stack pointer in `X0`, above the `AttachEntry*`. -/
theorem dispatch_spec (entry dispatch : Addr) :
    let t := execWords isa (dispatchWords entry dispatch ++ [blrX16]) s
    t.pc = dispatch ∧ t.sp = s.sp ∧ t.mem = s.mem.write s.sp 8 entry ∧
      t.readX 30 = s.pc + 44 ∧ (∀ n, n ≠ 0 → n ≠ 16 → n ≠ 30 → t.readX n = s.readX n) := by
  intro t
  have ht : t = isa.exec (.blr 16) (isa.exec (.addImm 0 31 0)
      (((isa.exec (.strX 16 31 0) ((s.setX 16 entry).setPc (s.pc + 16))).setX 16 dispatch).setPc
        (s.pc + 16 + 4 + 16))) := by
    show execWords isa (dispatchWords entry dispatch ++ [blrX16]) s = _
    obtain ⟨-, -, hstr, hmov, hblr⟩ := decode_fixed
    simp only [dispatchWords, execWords_append, execWords_movX16, execWords_cons,
      execWords_nil, hstr, hmov, hblr]
    rfl
  rw [ht]
  refine ⟨?_, rfl, ?_, ?_, ?_⟩
  · simp [Isa.exec, Isa.effect, branchTarget, Cpu.setXSP_of_ne]
  · simp [Isa.exec, Isa.effect, Cpu.setXSP_of_ne]
  · show s.pc + 16 + 4 + 16 + 4 + 4 = s.pc + 44
    rw [BitVec.add_assoc, BitVec.add_assoc, BitVec.add_assoc, BitVec.add_assoc]
    rfl
  · intro n h0 h16 h30
    simp [Isa.exec, Isa.effect, Cpu.setXSP_of_ne, h0, h16, h30]

end Exec

end Interceptor
end CalvinHook
