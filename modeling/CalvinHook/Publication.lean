import CalvinHook.CodeBlocks
import CalvinHook.HookSdk.TrampolineRun

/-!
# The order in which a hook is published

`HookInstall` and `generate_trampolines` write in an order: the trampoline, the relocated code, the
jump patch, `*orig_func`, and the four words that load the original function into `X16`.  A thread
that calls the target between two of these writes runs the jump patch as soon as it is there, so its
way back should be there before it.

* `installWrites`, `attachWrites`: the writes, with `run_installWrites` and `holds_trampolineWords`
  to say that they leave the memory of `HookInstall` and the code block of `attach`.
* `WayBack`: if the target is patched, its way back is complete.
* `wayBack_run_iff`: this holds between all writes of a run only if no call patches its target, or
  it is a `HookInstall` whose `*orig_func` is right beforehand.  The words of `attach` load zero
  into `X16` while the target is already patched.
* `blocksApart_of_freshPages`: the blocks of a call and the patched bytes share no address.
-/

namespace CalvinHook

open A64 Arm64 NearCodeAllocator Transition Interceptor

/-! ## Writes -/

/-- What an install shows to another thread. -/
structure View where
  mem : Mem
  /-- `*orig_func`, if the pointer is not null. -/
  origFunc : Option Addr

/-- One write of an install. -/
inductive HookWrite where
  /-- Bytes are copied to an address. -/
  | code (a : Addr) (bytes : List Byte)
  /-- `*orig_func` is set. -/
  | origFunc (f : Addr)

/-- The view after a write. -/
def View.write (v : View) : HookWrite → View
  | .code a bytes => { v with mem := v.mem.writeBytes a bytes }
  | .origFunc f => { v with origFunc := some f }

/-- The property holds between any two consecutive writes. -/
def Between (P : View → Prop) (v : View) (ws : List HookWrite) : Prop :=
  ∀ i, 0 < i → i < ws.length → P (run View.write v (ws.take i))

theorem between_of_length_le_one {P : View → Prop} {v : View} {ws : List HookWrite}
    (h : ws.length ≤ 1) : Between P v ws := by
  intro i h0 hi
  omega

/-! ## The writes of `HookInstall` -/

section Install

variable (ps : PageSize) (k : Kernel) (writable : Bool) (s : HookState) (target replace : Addr)
  (origFunc : Option Addr)

/-- The writes of `HookInstall`, in its order. -/
def installWrites : List HookWrite :=
  if target = 0 ∨ replace = 0 ∨ origFunc = none then []
  else if (HookRegistry.find s.entries target).isSome then []
  else
    let patch := buildJumpPatch target replace
    if patch.code.length = 0 then []
    else
      let relocatedMem :=
        (allocNearCode ps k (BitVec.ofNat 64 (maxRelocSize patch.patchSize)) target
          kMaxBRange s.pages).2
      if relocatedMem = 0 then []
      else
        let relocated := buildRelocatedCode s.mem target patch.patchSize
        if relocated.length = 0 then []
        else
          let copied := s.mem.writeBytes relocatedMem (wordBytes relocated)
          .code relocatedMem (wordBytes relocated) ::
            if (patchCode writable copied target (patchBytes target replace)).1 ≠ 0 then []
            else [.code target (patchBytes target replace), .origFunc relocatedMem]

/-- The copy of the overwritten instructions. -/
def copyWrite : HookWrite :=
  .code (relocatedBlock ps k s target replace).2
    (wordBytes (buildRelocatedCode s.mem target (buildJumpPatch target replace).patchSize))

/-- The target is patched before `*orig_func` is set. -/
def patchThenOrig : List HookWrite :=
  [.code target (patchBytes target replace), .origFunc (relocatedBlock ps k s target replace).2]

variable {ps k writable s target replace origFunc}

theorem installWrites_of_not_installs (h : ¬ Installs ps k s target replace origFunc) :
    installWrites ps k writable s target replace origFunc = [] := by
  unfold installWrites
  dsimp only
  split_ifs with h1 h2 h3 h4 h5
  · rfl
  · rfl
  · rfl
  · rfl
  · rfl
  · rw [not_or, not_or] at h1
    exact absurd ⟨h1.1, h1.2.1, h1.2.2, by simpa using h2, h4⟩ h

theorem installWrites_of_installs (h : Installs ps k s target replace origFunc) :
    installWrites ps k writable s target replace origFunc =
      copyWrite ps k s target replace ::
        if writable then patchThenOrig ps k s target replace else [] := by
  obtain ⟨hargs, hcode, hlen, hpatch⟩ := h.checks
  have hblock : (allocNearCode ps k (BitVec.ofNat 64 (maxRelocSize (buildJumpPatch target
    replace).patchSize)) target kMaxBRange s.pages).2 ≠ 0 := h.block_ne
  rw [installWrites, if_neg hargs, h.unhooked]
  simp only [Option.isSome_none, Bool.false_eq_true, if_false, if_neg hcode, if_neg hblock,
    if_neg hlen, hpatch]
  cases writable <;> rfl

/-- **The writes are those of `HookInstall`**: they leave its memory and its `*orig_func`. -/
theorem run_installWrites (ps : PageSize) (k : Kernel) (writable : Bool) (s : HookState)
    (target replace : Addr) (origFunc : Option Addr) :
    run View.write ⟨s.mem, origFunc⟩ (installWrites ps k writable s target replace origFunc) =
      ⟨(hookInstall ps k writable s target replace origFunc).state.mem,
        (hookInstall ps k writable s target replace origFunc).origFunc⟩ := by
  unfold installWrites hookInstall
  dsimp only
  split_ifs with h1 h2 h3 h4 h5 h6
  · rfl
  · rfl
  · rfl
  · rfl
  · rfl
  · rfl
  · rw [not_not] at h6
    rw [patchCode_eq h6]
    rfl

end Install

/-! ## The writes of `generate_trampolines` -/

/-- One write for each word, as the four words of the placeholder are written. -/
def wordWrites : Addr → List Word → List HookWrite
  | _, [] => []
  | a, w :: ws => .code a (wordBytes [w]) :: wordWrites (a + 4) ws

theorem run_wordWrites (v : View) (a : Addr) (ws : List Word) (h : 4 * ws.length ≤ 2 ^ 64) :
    run View.write v (wordWrites a ws) = { v with mem := v.mem.writeBytes a (wordBytes ws) } := by
  induction ws generalizing v a with
  | nil =>
    have hnil : v.mem.writeBytes a [] = v.mem := by
      funext x
      exact Mem.writeBytes_of_not_inRange (Nat.not_lt_zero _)
    rw [wordBytes, hnil]
    rfl
  | cons w ws ih =>
    rw [List.length_cons] at h
    have hsplit : wordBytes (w :: ws) = wordBytes [w] ++ wordBytes ws := rfl
    have hbound : (wordBytes [w]).length + (wordBytes ws).length ≤ 2 ^ 64 := by
      rw [length_wordBytes, length_wordBytes, List.length_singleton]
      omega
    rw [wordWrites, run_cons, ih _ _ (by omega), hsplit, Mem.writeBytes_append _ _ hbound]
    rfl

/-- The code block as it is first written, with zero for the original function; irreducible, so that
no unifier assembles it. -/
@[irreducible] def blockWords (entry onEnter onLeave : Addr) : List Word :=
  (emitTrampoline entry onEnter onLeave).1.buf

/-- `patch_off`, the offset of the placeholder. -/
@[irreducible] def patchOff (entry onEnter onLeave : Addr) : ℕ :=
  (emitTrampoline entry onEnter onLeave).2

theorem blockWords_eq (entry onEnter onLeave : Addr) : blockWords entry onEnter onLeave =
    beforePlaceholder entry onEnter ++ movImm64 16 0 ++ afterPlaceholder entry onLeave := by
  delta blockWords
  exact (emitTrampoline_eq entry onEnter onLeave).1

theorem patchOff_eq (entry onEnter onLeave : Addr) :
    patchOff entry onEnter onLeave = 4 * (beforePlaceholder entry onEnter).length := by
  delta patchOff
  exact (emitTrampoline_eq entry onEnter onLeave).2

theorem length_blockWords (entry onEnter onLeave : Addr) :
    (blockWords entry onEnter onLeave).length = 146 := by
  delta blockWords
  exact length_emitTrampoline entry onEnter onLeave

section Attach

variable (ps : PageSize) (k k' : Kernel) (writable : Bool) (s : HookState)
  (target entry onEnter onLeave : Addr)

/-- The pages after `generate_trampolines` has asked for memory, and the block it got. -/
def trampolineBlock : List LinearPage × Addr :=
  allocNearCode ps k (BitVec.ofNat 64 1024) target kMaxBRange s.pages

/-- The state in which `generate_trampolines` calls `HookInstall`. -/
def withTrampoline : HookState :=
  { s with
    mem := s.mem.writeBytes (trampolineBlock ps k s target).2
      (wordBytes (blockWords entry onEnter onLeave))
    pages := (trampolineBlock ps k s target).1 }

/-- The writes of `generate_trampolines`, in its order. -/
def attachWrites : List HookWrite :=
  let codeMem := (trampolineBlock ps k s target).2
  if codeMem = 0 then []
  else
    let t := withTrampoline ps k s target entry onEnter onLeave
    let hooked := hookInstall ps k' writable t target codeMem (some 0)
    .code codeMem (wordBytes (blockWords entry onEnter onLeave)) ::
      (installWrites ps k' writable t target codeMem (some 0) ++
        if hooked.ret ≠ 0 then []
        else wordWrites (codeMem + BitVec.ofNat 64 (patchOff entry onEnter onLeave))
          (origFuncWords (hooked.origFunc.getD 0)))

/-- `HookInstall` is reached and writes. -/
def Attaches : Prop :=
  (trampolineBlock ps k s target).2 ≠ 0 ∧
    Installs ps k' (withTrampoline ps k s target entry onEnter onLeave) target
      (trampolineBlock ps k s target).2 (some 0)

/-- Where `HookInstall` puts the relocated code. -/
def attachCopy : Addr :=
  (relocatedBlock ps k' (withTrampoline ps k s target entry onEnter onLeave) target
    (trampolineBlock ps k s target).2).2

variable {ps k k' writable s target entry onEnter onLeave}

theorem attachWrites_of_not_attaches (h : ¬ Attaches ps k k' s target entry onEnter onLeave) :
    (attachWrites ps k k' writable s target entry onEnter onLeave).length ≤ 1 := by
  rw [attachWrites]
  dsimp only
  split_ifs with h0 hret
  · exact Nat.zero_le _
  · rw [installWrites_of_not_installs fun hi => h ⟨h0, hi⟩]
    exact le_refl _
  · exact absurd (not_not.mp hret) (hookInstall_of_not_installs fun hi => h ⟨h0, hi⟩)

theorem attachWrites_of_attaches (h : Attaches ps k k' s target entry onEnter onLeave) :
    attachWrites ps k k' writable s target entry onEnter onLeave =
      .code (trampolineBlock ps k s target).2 (wordBytes (blockWords entry onEnter onLeave)) ::
        copyWrite ps k' (withTrampoline ps k s target entry onEnter onLeave) target
          (trampolineBlock ps k s target).2 ::
        if writable then
          patchThenOrig ps k' (withTrampoline ps k s target entry onEnter onLeave) target
            (trampolineBlock ps k s target).2 ++
          wordWrites ((trampolineBlock ps k s target).2 +
              BitVec.ofNat 64 (patchOff entry onEnter onLeave))
            (origFuncWords (attachCopy ps k k' s target entry onEnter onLeave))
        else [] := by
  obtain ⟨h0, hi⟩ := h
  obtain ⟨hret, horig⟩ := hookInstall_of_installs hi writable
  rw [attachWrites]
  dsimp only
  rw [if_neg h0, hret, installWrites_of_installs hi]
  cases writable with
  | true =>
    rw [horig rfl]
    rfl
  | false => rfl

/-- The words of the block at the placeholder, after a change elsewhere. -/
theorem holds_placeholder {m : Mem} {a : Addr}
    (h : Holds m a (blockWords entry onEnter onLeave)) :
    Holds m (a + BitVec.ofNat 64 (patchOff entry onEnter onLeave)) (movImm64 16 0) := by
  rw [blockWords_eq, holds_append, holds_append] at h
  rw [patchOff_eq]
  exact h.1.2

end Attach

/-! ## The way back -/

/-- The target is patched. -/
def Live (target replace : Addr) (m : Mem) : Prop :=
  m.bytesAt target (buildJumpPatch target replace).patchSize = patchBytes target replace

/-- The four words at `a` load `val` into `X16`. -/
def LoadsX16 (m : Mem) (a val : Addr) : Prop :=
  ∀ (isa : Isa) (s : Cpu), (execWords isa (wordsAt m a 4) s).readX 16 = val

/-- A call that publishes a hook, with the answers of the kernel to it. -/
inductive PublishCall where
  | hookInstall (k : Kernel) (writable : Bool) (target replace : Addr) (origFunc : Option Addr)
  | attach (k k' : Kernel) (writable : Bool) (target entry onEnter onLeave : Addr)

namespace PublishCall

variable (ps : PageSize) (s : HookState)

/-- The view before the call; `generate_trampolines` starts with a null `orig_func`. -/
def start : PublishCall → View
  | hookInstall _ _ _ _ origFunc => ⟨s.mem, origFunc⟩
  | attach _ _ _ _ _ _ _ => ⟨s.mem, some 0⟩

/-- The writes of the call. -/
def writes : PublishCall → List HookWrite
  | hookInstall k writable target replace origFunc =>
      installWrites ps k writable s target replace origFunc
  | attach k k' writable target entry onEnter onLeave =>
      attachWrites ps k k' writable s target entry onEnter onLeave

/-- The state after the call. -/
def after (s : HookState) : PublishCall → HookState
  | hookInstall k writable target replace origFunc =>
      (CalvinHook.hookInstall ps k writable s target replace origFunc).state
  | attach k k' writable target entry onEnter onLeave =>
      let codeMem := (trampolineBlock ps k s target).2
      if codeMem = 0 then { s with pages := (trampolineBlock ps k s target).1 }
      else
        { (CalvinHook.hookInstall ps k' writable
          (withTrampoline ps k s target entry onEnter onLeave) target
            codeMem (some 0)).state with
          mem := (run View.write ⟨s.mem, some 0⟩
            (attachWrites ps k k' writable s target entry onEnter onLeave)).mem }

/-- If the target is patched, then `*orig_func`, or for `attach` the value loaded into `X16` for the
call of the original function, is the address of the complete relocated code. -/
def WayBack : PublishCall → View → Prop
  | hookInstall k _ target replace _, v =>
      Live target replace v.mem →
        v.origFunc = some (relocatedBlock ps k s target replace).2 ∧
        Holds v.mem (relocatedBlock ps k s target replace).2
          (buildRelocatedCode s.mem target (buildJumpPatch target replace).patchSize)
  | attach k k' _ target entry onEnter onLeave, v =>
      let codeMem := (trampolineBlock ps k s target).2
      let relocatedMem := attachCopy ps k k' s target entry onEnter onLeave
      Live target codeMem v.mem →
        LoadsX16 v.mem (codeMem + BitVec.ofNat 64 (patchOff entry onEnter onLeave))
          relocatedMem ∧
        Holds v.mem relocatedMem (buildRelocatedCode
          (withTrampoline ps k s target entry onEnter onLeave).mem target
          (buildJumpPatch target codeMem).patchSize)

/-- The blocks handed out for the call and the bytes the patch overwrites share no address. -/
def BlocksApart : PublishCall → Prop
  | hookInstall k _ target replace origFunc =>
      Installs ps k s target replace origFunc →
        ∀ x, Window target replace x →
          ¬ Copy s.mem target replace (relocatedBlock ps k s target replace).2 x
  | attach k k' _ target entry onEnter onLeave =>
      let codeMem := (trampolineBlock ps k s target).2
      let t := withTrampoline ps k s target entry onEnter onLeave
      let relocatedMem := attachCopy ps k k' s target entry onEnter onLeave
      Attaches ps k k' s target entry onEnter onLeave → ∀ x,
        (Window target codeMem x → ¬ Copy t.mem target codeMem relocatedMem x) ∧
        (InRange codeMem (4 * (blockWords entry onEnter onLeave).length) x →
          ¬ Window target codeMem x ∧ ¬ Copy t.mem target codeMem relocatedMem x)

/-- The call does not patch the target, or `*orig_func` is right before it starts. -/
def WayBackBefore : PublishCall → Prop
  | hookInstall k writable target replace origFunc =>
      Installs ps k s target replace origFunc → writable →
        origFunc = some (relocatedBlock ps k s target replace).2
  | attach k k' writable target entry onEnter onLeave =>
      Attaches ps k k' s target entry onEnter onLeave →
        writable = false ∧ ¬ Live target (trampolineBlock ps k s target).2 s.mem

end PublishCall

section WayBack

variable {ps : PageSize} {k k' : Kernel} {writable : Bool} {s : HookState}
  {target replace entry onEnter onLeave : Addr} {origFunc : Option Addr}

theorem live_writeBytes (m : Mem) (target replace : Addr) :
    Live target replace (m.writeBytes target (patchBytes target replace)) := by
  have hlen := length_patchBytes target replace
  have hle : (patchBytes target replace).length ≤ 2 ^ 64 := by
    rw [hlen]
    exact (patchSize_bounds target replace).2.trans (by omega)
  rw [Live, ← hlen]
  exact Mem.bytesAt_writeBytes m target hle

theorem live_hookedMem (m : Mem) (target replace dst : Addr) :
    Live target replace (hookedMem m target replace dst) := by
  rw [hookedMem]
  exact live_writeBytes _ target replace

theorem live_congr {m m' : Mem} (h : ∀ x, Window target replace x → m x = m' x) :
    Live target replace m ↔ Live target replace m' := by
  have hle : (buildJumpPatch target replace).patchSize ≤ 2 ^ 64 :=
    (patchSize_bounds target replace).2.trans (by omega)
  rw [Live, Live, Mem.bytesAt_congr h hle]

/-- Where the placeholder stands, zero is loaded. -/
theorem loadsX16_placeholder {m : Mem} {a val : Addr} (h : Holds m a (movImm64 16 0))
    (hval : LoadsX16 m a val) : val = 0 := by
  have hwords : wordsAt m a 4 = movImm64 16 0 := wordsAt_of_holds h
  have hzero := hval Isa.bare ⟨fun _ => 0, 0, fun _ => 0, 0, a, m⟩
  rw [hwords, execWords_movX16] at hzero
  simpa using hzero.symm

/-- The view of `HookInstall` once the target is patched. -/
theorem run_install_patched : run View.write ⟨s.mem, origFunc⟩
      [copyWrite ps k s target replace, .code target (patchBytes target replace)] =
    ⟨hookedMem s.mem target replace (relocatedBlock ps k s target replace).2, origFunc⟩ := by
  simp only [run_cons, run_nil, View.write, copyWrite, hookedMem]

/-- `HookInstall`: between the patch and `*orig_func` the target is live. -/
theorem between_installWrites_iff
    (hapart : (PublishCall.hookInstall k writable target replace origFunc).BlocksApart ps s) :
    Between ((PublishCall.hookInstall k writable target replace origFunc).WayBack ps s)
        ⟨s.mem, origFunc⟩ (installWrites ps k writable s target replace origFunc) ↔
      (PublishCall.hookInstall k writable target replace origFunc).WayBackBefore ps s := by
  by_cases hi : Installs ps k s target replace origFunc
  swap
  · rw [installWrites_of_not_installs hi]
    exact ⟨fun _ h => absurd h hi, fun _ => between_of_length_le_one (Nat.zero_le 1)⟩
  rw [installWrites_of_installs hi]
  have hlen := length_buildRelocatedCode_le s.mem target replace
  cases writable with
  | false => exact ⟨fun _ _ => nofun, fun _ => between_of_length_le_one (le_refl 1)⟩
  | true =>
    simp only [if_true, patchThenOrig]
    constructor
    · intro h _ _
      have hpatched := h 2 (by omega) (Nat.lt_succ_self 2)
      simp only [List.take_succ_cons, List.take_zero, run_install_patched] at hpatched
      exact (hpatched (live_hookedMem _ _ _ _)).1
    · intro horig i h0 hi3 _
      have h3 : i < 3 := hi3
      interval_cases i
      · simp only [List.take_succ_cons, List.take_zero, run_cons, run_nil, View.write, copyWrite]
        exact ⟨horig hi rfl, holds_writeBytes s.mem _ (by omega)⟩
      · simp only [List.take_succ_cons, List.take_zero, run_install_patched]
        exact ⟨horig hi rfl, holds_hookedMem (hapart hi)⟩

theorem withTrampoline_mem : (withTrampoline ps k s target entry onEnter onLeave).mem =
    s.mem.writeBytes (trampolineBlock ps k s target).2
      (wordBytes (blockWords entry onEnter onLeave)) := rfl

/-- The block as it is written, in any memory that agrees with it on the range of the block. -/
theorem holds_trampoline {m : Mem}
    (h : ∀ x, InRange (trampolineBlock ps k s target).2
      (4 * (blockWords entry onEnter onLeave).length) x →
        m x = (withTrampoline ps k s target entry onEnter onLeave).mem x) :
    Holds m (trampolineBlock ps k s target).2 (blockWords entry onEnter onLeave) := by
  have hlen := length_blockWords entry onEnter onLeave
  rw [withTrampoline_mem] at h
  exact (holds_writeBytes s.mem _ (by omega)).congr (by omega) h

/-- The view of `attach` once the target is patched. -/
theorem run_attach_patched : run View.write ⟨s.mem, some 0⟩
      [.code (trampolineBlock ps k s target).2 (wordBytes (blockWords entry onEnter onLeave)),
        copyWrite ps k' (withTrampoline ps k s target entry onEnter onLeave) target
          (trampolineBlock ps k s target).2,
        .code target (patchBytes target (trampolineBlock ps k s target).2)] =
    ⟨hookedMem (withTrampoline ps k s target entry onEnter onLeave).mem target
      (trampolineBlock ps k s target).2 (attachCopy ps k k' s target entry onEnter onLeave),
        some 0⟩ := by
  simp only [run_cons, run_nil, View.write, copyWrite, hookedMem, attachCopy, withTrampoline_mem]

/-- **The writes of `attach` leave its code block**, with the original function in place. -/
theorem holds_trampolineWords (ha : Attaches ps k k' s target entry onEnter onLeave)
    (hapart : (PublishCall.attach k k' true target entry onEnter onLeave).BlocksApart ps s) :
    Holds (run View.write ⟨s.mem, some 0⟩
      (attachWrites ps k k' true s target entry onEnter onLeave)).mem
      (trampolineBlock ps k s target).2
      (trampolineWords entry onEnter onLeave
        (attachCopy ps k k' s target entry onEnter onLeave)) := by
  have hlen := length_blockWords entry onEnter onLeave
  have hblock := holds_trampoline fun x hx =>
    hookedMem_of_not_mem ((hapart ha x).2 hx).1 ((hapart ha x).2 hx).2
  rw [blockWords_eq] at hblock hlen
  have hwords : trampolineWords entry onEnter onLeave
      (attachCopy ps k k' s target entry onEnter onLeave) =
      beforePlaceholder entry onEnter ++
        movImm64 16 (attachCopy ps k k' s target entry onEnter onLeave) ++
        afterPlaceholder entry onLeave := by
    rw [trampolineWords_eq]
    simp only [beforePlaceholder, afterPlaceholder, toOrig, List.append_assoc]
  have hmem : (run View.write ⟨s.mem, some 0⟩
      (attachWrites ps k k' true s target entry onEnter onLeave)).mem =
      (hookedMem (withTrampoline ps k s target entry onEnter onLeave).mem target
        (trampolineBlock ps k s target).2
        (attachCopy ps k k' s target entry onEnter onLeave)).writeBytes
        ((trampolineBlock ps k s target).2 + BitVec.ofNat 64 (patchOff entry onEnter onLeave))
        (wordBytes (origFuncWords (attachCopy ps k k' s target entry onEnter onLeave))) := by
    rw [attachWrites_of_attaches ha, if_pos rfl, patchThenOrig]
    show (run View.write _ ([_, _, _] ++ (.origFunc _ :: wordWrites _ _))).mem = _
    rw [run_append, run_attach_patched, run_cons,
      run_wordWrites _ _ _ (by rw [origFuncWords_eq]; simp)]
    simp only [View.write]
  rw [hmem, hwords, patchOff_eq, origFuncWords_eq]
  exact hblock.overwrite (by rw [length_movImm64, length_movImm64]) (by omega)

/-- `attach`: between the patch and the words of the placeholder the target is live. -/
theorem between_attachWrites_iff
    (hapart : (PublishCall.attach k k' writable target entry onEnter onLeave).BlocksApart ps s) :
    Between ((PublishCall.attach k k' writable target entry onEnter onLeave).WayBack ps s)
        ⟨s.mem, some 0⟩ (attachWrites ps k k' writable s target entry onEnter onLeave) ↔
      (PublishCall.attach k k' writable target entry onEnter onLeave).WayBackBefore ps s := by
  by_cases ha : Attaches ps k k' s target entry onEnter onLeave
  swap
  · exact ⟨fun _ h => absurd h ha,
      fun _ => between_of_length_le_one (attachWrites_of_not_attaches ha)⟩
  have hne : attachCopy ps k k' s target entry onEnter onLeave ≠ 0 := ha.2.block_ne
  -- as long as the placeholder stands, a patched target has no way back
  have hno : ∀ v : View, Live target (trampolineBlock ps k s target).2 v.mem →
      (∀ x, InRange (trampolineBlock ps k s target).2
        (4 * (blockWords entry onEnter onLeave).length) x →
          v.mem x = (withTrampoline ps k s target entry onEnter onLeave).mem x) →
      ¬ (PublishCall.attach k k' writable target entry onEnter onLeave).WayBack ps s v := by
    intro v hlive hv hway
    exact hne (loadsX16_placeholder (holds_placeholder (holds_trampoline hv)) (hway hlive).1)
  have hwindow : Live target (trampolineBlock ps k s target).2 s.mem ↔
      Live target (trampolineBlock ps k s target).2
        (withTrampoline ps k s target entry onEnter onLeave).mem := by
    rw [withTrampoline_mem]
    refine live_congr fun x hx => (Mem.writeBytes_of_not_inRange fun hin => ?_).symm
    rw [length_wordBytes] at hin
    exact ((hapart ha x).2 hin).1 hx
  rw [attachWrites_of_attaches ha]
  constructor
  · intro h _
    cases writable with
    | true =>
      have hpatched := h 3 (by omega) (by simp [patchThenOrig])
      simp only [patchThenOrig, if_true, List.cons_append, List.take_succ_cons, List.take_zero,
        run_attach_patched] at hpatched
      refine (hno _ ?_ (fun x hx => ?_) hpatched).elim
      · dsimp only
        exact live_hookedMem _ _ _ _
      · dsimp only
        exact hookedMem_of_not_mem ((hapart ha x).2 hx).1 ((hapart ha x).2 hx).2
    | false =>
      refine ⟨rfl, fun hlive => ?_⟩
      have hfirst := h 1 (by omega) (by simp)
      refine hno _ ?_ (fun x _ => ?_) hfirst
      · exact hwindow.mp hlive
      · rfl
  · intro h i h0 hi hlive
    obtain ⟨rfl, hnot⟩ := h ha
    have h1 : i = 1 := by
      have h2 : i < 2 := hi
      omega
    subst h1
    exact absurd (hwindow.mpr hlive) hnot

end WayBack

/-! ## Blocks from the allocator are apart -/

namespace PublishCall

variable (ps : PageSize) (s : HookState)

/-- The requests of the call for executable memory. -/
def codeOps : PublishCall → List CodeOp
  | hookInstall k _ target replace _ => [.hookInstall k s.mem target replace]
  | attach k k' _ target entry onEnter onLeave =>
      [.attach k target entry onEnter onLeave,
        .hookInstall k' (withTrampoline ps k s target entry onEnter onLeave).mem target
          (trampolineBlock ps k s target).2]

/-- The bytes the patch overwrites. -/
def PatchWindow : PublishCall → Addr → Prop
  | hookInstall _ _ target replace _ => Window target replace
  | attach k _ _ target _ _ _ => Window target (trampolineBlock ps k s target).2

end PublishCall

section Blocks

variable {ps : PageSize} {s : HookState}

/-- A live block lies in the pages. -/
theorem CodeInv.inPages {t : CodeState} (h : CodeInv ps t) {b : CodeBlock} (hb : b ∈ t.blocks)
    {x : Addr} (hx : InRange b.start b.size x) : InPages t.pages x := by
  obtain ⟨p, hp, hwithin⟩ := h.within hb
  refine ⟨p, hp, ?_⟩
  rw [h.capacity p hp, BitVec.toNat_ofNat, Nat.mod_eq_of_lt ps.bytes_lt]
  exact hwithin x hx

/-- The step of `HookInstall`, for the block it gets. -/
theorem step_hookInstall {k : Kernel} {target replace : Addr} (blocks : List CodeBlock)
    (h : (relocatedBlock ps k s target replace).2 ≠ 0) :
    CodeState.step ps ⟨s.pages, blocks⟩ (.hookInstall k s.mem target replace) =
      ⟨(relocatedBlock ps k s target replace).1, blocks ++ [⟨.relocated,
        (relocatedBlock ps k s target replace).2,
        4 * (buildRelocatedCode s.mem target (buildJumpPatch target replace).patchSize).length⟩]⟩ :=
  if_neg h

/-- The step of `generate_trampolines`, for the block it gets. -/
theorem step_attach {k : Kernel} {target entry onEnter onLeave : Addr} (blocks : List CodeBlock)
    (h : (trampolineBlock ps k s target).2 ≠ 0) :
    CodeState.step ps ⟨s.pages, blocks⟩ (.attach k target entry onEnter onLeave) =
      ⟨(withTrampoline ps k s target entry onEnter onLeave).pages, blocks ++ [⟨.attach,
        (trampolineBlock ps k s target).2, 4 * (blockWords entry onEnter onLeave).length⟩]⟩ := by
  rw [CodeState.step, length_emitTrampoline, length_blockWords]
  exact if_neg h

/-- **The blocks of a call are apart** when `mmap` answers with fresh pages and the target is not in
a page of the allocator. -/
theorem blocksApart_of_freshPages (c : PublishCall) (hinv : CodeInv ps ⟨s.pages, []⟩)
    (hfresh : AllSteps (CodeState.step ps) (FreshPages ps) ⟨s.pages, []⟩ (c.codeOps ps s))
    (hout : ∀ x, c.PatchWindow ps s x →
      ¬ InPages (run (CodeState.step ps) ⟨s.pages, []⟩ (c.codeOps ps s)).pages x) :
    c.BlocksApart ps s := by
  cases c with
  | hookInstall k writable target replace origFunc =>
    intro hi x hw hc
    have hinv1 := codeInv_step hinv _ hfresh.1 fun _ _ b hb => absurd hb List.not_mem_nil
    refine hout x hw ?_
    rw [PublishCall.codeOps, run_cons, run_nil]
    rw [step_hookInstall [] hi.block_ne] at hinv1 ⊢
    exact hinv1.inPages (List.mem_singleton_self _) hc
  | attach k k' writable target entry onEnter onLeave =>
    intro ha x
    obtain ⟨hfresh1, hfresh2, -⟩ := hfresh
    have hinv1 := codeInv_step hinv _ hfresh1 fun _ _ b hb => absurd hb List.not_mem_nil
    rw [step_attach [] ha.1] at hinv1 hfresh2
    have hinv2 := codeInv_step hinv1 _ hfresh2 fun _ _ b hb hu => by
      rw [List.mem_singleton.mp hb] at hu
      cases hu
    rw [PublishCall.codeOps, run_cons, run_cons, run_nil, step_attach [] ha.1,
      step_hookInstall _ ha.2.block_ne] at hout
    rw [step_hookInstall _ ha.2.block_ne] at hinv2
    refine ⟨fun hw hc => ?_, fun hb => ⟨fun hw => ?_, fun hc => ?_⟩⟩
    · exact hout x hw (hinv2.inPages (List.mem_cons_of_mem _ (List.mem_singleton_self _)) hc)
    · exact hout x hw (hinv2.inPages List.mem_cons_self hb)
    · exact (List.pairwise_cons.mp hinv2.disjoint).1 _ (List.mem_singleton_self _) x hb hc

end Blocks

/-! ## Runs -/

/-- Between any two writes of the call, a patched target has its way back. -/
def WayBackBetween (ps : PageSize) (s : HookState) (c : PublishCall) : Prop :=
  Between (c.WayBack ps s) (c.start s) (c.writes ps s)

theorem wayBackBetween_iff {ps : PageSize} {s : HookState} (c : PublishCall)
    (hapart : c.BlocksApart ps s) :
    WayBackBetween ps s c ↔ c.WayBackBefore ps s := by
  cases c with
  | hookInstall k writable target replace origFunc => exact between_installWrites_iff hapart
  | attach k k' writable target entry onEnter onLeave => exact between_attachWrites_iff hapart

/-- **When the way back is there before the target is live.**  In a run of `HookInstall` and
`generate_trampolines`, a patched target has its way back between any two writes of every call
exactly if no call gets to patch its target, other than a `HookInstall` whose `*orig_func` is right
beforehand. -/
theorem wayBack_run_iff (ps : PageSize) (s : HookState) (cs : List PublishCall)
    (hapart : AllSteps (PublishCall.after ps) (PublishCall.BlocksApart ps) s cs) :
    AllSteps (PublishCall.after ps) (WayBackBetween ps) s cs ↔
      AllSteps (PublishCall.after ps) (PublishCall.WayBackBefore ps) s cs :=
  hapart.congr fun _ c hc => wayBackBetween_iff c hc

/-- An install whose `*orig_func` is the page that `mmap` is about to answer. -/
def rightOrig : PublishCall :=
  .hookInstall (.answering 0x30000000) true 0x10000000 0x20000000 (some 0x30000000)

/-- An attach to a function near the page that `mmap` answers. -/
def attachNear : PublishCall :=
  .attach (.answering 0x30000000) (.answering 0x40000000) true 0x30100000 0x50000000
    0x60000000 0x61000000

/-- A call on the blank state that leaves one page, away from its target. -/
theorem blocksApart_blank {c : PublishCall} {p : LinearPage}
    (hfresh : AllSteps (CodeState.step .small) (FreshPages .small) ⟨[], []⟩
      (c.codeOps .small blankState))
    (hpages : (run (CodeState.step .small) ⟨[], []⟩ (c.codeOps .small blankState)).pages = [p])
    (hout : ∀ x, c.PatchWindow .small blankState x → ¬ InRange p.base p.capacity.toNat x) :
    c.BlocksApart .small blankState := by
  refine blocksApart_of_freshPages c (codeInv_init .small) hfresh fun x hw => ?_
  show ¬ InPages (run (CodeState.step .small) ⟨[], []⟩ (c.codeOps .small blankState)).pages x
  rw [hpages]
  rintro ⟨q, hq, hx⟩
  rw [List.mem_singleton.mp hq] at hx
  exact hout x hw hx

theorem rightOrig_blocksApart : rightOrig.BlocksApart .small blankState := by
  have hpages : (run (CodeState.step .small) ⟨[], []⟩ (rightOrig.codeOps .small blankState)).pages =
      [⟨0x30000000, 128, 4096⟩] := by
    decide
  refine blocksApart_blank ⟨?_, trivial⟩ hpages fun x hw hx => ?_
  · show MappedOnce .small
      (run (CodeState.step .small) ⟨[], []⟩ (rightOrig.codeOps .small blankState)).pages
    rw [hpages]
    exact ⟨by decide, by decide⟩
  · have h1 : (x - 0x10000000).toNat < 12 := hw
    have h2 : (x - 0x30000000).toNat < 4096 := hx
    bv_omega

/-- Between its writes the install has its way back. -/
theorem rightOrig_wayBack :
    AllSteps (PublishCall.after .small) (WayBackBetween .small) blankState [rightOrig] :=
  (wayBack_run_iff .small blankState [rightOrig] ⟨rightOrig_blocksApart, trivial⟩).mpr
    ⟨fun _ _ => by decide, trivial⟩

theorem attachNear_blocksApart : attachNear.BlocksApart .small blankState := by
  have hone :
      (run (CodeState.step .small) ⟨[], []⟩ ((attachNear.codeOps .small blankState).take 1)).pages =
      [⟨0x30000000, 1024, 4096⟩] := by
    decide
  have htwo : (run (CodeState.step .small) ⟨[], []⟩ (attachNear.codeOps .small blankState)).pages =
      [⟨0x30000000, 1112, 4096⟩] := by
    decide
  refine blocksApart_blank ⟨?_, ?_, trivial⟩ htwo fun x hw hx => ?_
  · show MappedOnce .small
      (run (CodeState.step .small) ⟨[], []⟩ ((attachNear.codeOps .small blankState).take 1)).pages
    rw [hone]
    exact ⟨by decide, by decide⟩
  · show MappedOnce .small
      (run (CodeState.step .small) ⟨[], []⟩ (attachNear.codeOps .small blankState)).pages
    rw [htwo]
    exact ⟨by decide, by decide⟩
  · have h1 : (x - 0x30100000).toNat < 4 := hw
    have h2 : (x - 0x30000000).toNat < 4096 := hx
    bv_omega

/-- Between the writes of the attach the target is live without a way back. -/
theorem attachNear_no_wayBack :
    ¬ AllSteps (PublishCall.after .small) (WayBackBetween .small) blankState [attachNear] := by
  rintro ⟨h, -⟩
  have hattaches : Attaches .small (.answering 0x30000000) (.answering 0x40000000)
      blankState 0x30100000
      0x50000000 0x60000000 0x61000000 :=
    ⟨by decide, by decide, by decide, by decide, by decide, by decide⟩
  have hbefore := (wayBackBetween_iff attachNear attachNear_blocksApart).mp h
  exact absurd (hbefore hattaches).1 (by decide)

end CalvinHook
