import CalvinHook.JsEngine.Interceptor

/-!
# A call through an attached function

The code block of `Interceptor.attach` calls `dispatch_on_enter`, the original function and
`dispatch_on_leave`.  `AttachRun` is one such call: four stretches of the block, each starting in
the state the callee before it returned.

* `attach_returns`: with callees that obey the procedure call standard the block returns to its
  caller with the stack pointer and `X19` to `X30` as they were.
* `attach_sp_at_orig`: the original function is entered sixteen bytes below the stack pointer the
  caller had, on top of the saved `X19` and `X30`.
* `attach_transparent_iff`: the general registers pass through both ways; the vector registers come
  back as single bytes of the save area.

The code of the block is a `Program` and apart from the data memory, so no store changes it.
-/

namespace CalvinHook
namespace Interceptor

open A64 Arm64

/-! ## The four stretches -/

section Stretches

variable (isa : Isa) (s : Cpu)

/-- What saving the registers and calling a dispatcher leaves. -/
structure Dispatched (s : Cpu) (dispatch ret : Addr) (t : Cpu) : Prop where
  pc : t.pc = dispatch
  sp : t.sp = s.sp - 288
  link : t.readX 30 = ret
  x : ∀ n, n ≠ 0 → n ≠ 16 → n ≠ 30 → t.readX n = s.readX n
  slots : ∀ i < 19, t.mem.read (t.sp + BitVec.ofNat 64 (8 + 8 * i)) 8 = s.readX i
  mem : ∀ a, ¬ InRange t.sp 288 a → t.mem a = s.mem a

theorem dispatched (entry dispatch : Addr) :
    Dispatched s dispatch (s.pc + 156)
      (execWords isa (saveWords ++ (dispatchWords entry dispatch ++ [blrX16])) s) := by
  rw [execWords_append, execWords_save]
  obtain ⟨hpc, hsp, hmem, hlink, hx⟩ :=
    dispatch_spec isa ((saved s).setPc (s.pc + 112)) entry dispatch
  generalize execWords isa (dispatchWords entry dispatch ++ [blrX16])
    ((saved s).setPc (s.pc + 112)) = t at hpc hsp hmem hlink hx ⊢
  have hsp' : t.sp = s.sp - 288 := hsp
  have hmem' : t.mem = ((s.mem.writeSlots (t.sp + BitVec.ofNat 64 8) 8 19 s.readX).writeSlots
      (t.sp + BitVec.ofNat 64 160) 16 8 s.readV).write t.sp 8 entry := by
    rw [hmem, hsp']
    rfl
  refine ⟨hpc, hsp', ?_, hx, ?_, ?_⟩
  · rw [hlink]
    show s.pc + 112 + 44 = s.pc + 156
    rw [BitVec.add_assoc]
    rfl
  · intro i hi
    have hslot : (s.mem.writeSlots (t.sp + BitVec.ofNat 64 8) 8 19 s.readX).read
        (t.sp + BitVec.ofNat 64 8 + BitVec.ofNat 64 (8 * i)) 8 = s.readX i :=
      Mem.read_writeSlots (by omega) hi
    rw [← hslot, ← ofNat_offset]
    refine Mem.read_eq_of_forall_inRange (by omega) fun x hx => ?_
    rw [inRange_add_iff (by omega)] at hx
    rw [hmem', Mem.write_of_not_inRange, Mem.writeSlots_of_not_inRange]
    · rw [inRange_add_iff (by omega)]
      omega
    · rw [InRange]
      omega
  · intro a ha
    rw [InRange] at ha
    rw [hmem', Mem.write_of_not_inRange, Mem.writeSlots_of_not_inRange,
      Mem.writeSlots_of_not_inRange]
    · rw [inRange_add_iff (by omega)]
      omega
    · rw [inRange_add_iff (by omega)]
      omega
    · rw [InRange]
      omega

/-- From the entry to `dispatch_on_enter`. -/
structure Entered (s : Cpu) (onEnter : Addr) (t : Cpu) : Prop where
  pc : t.pc = onEnter
  sp : t.sp = s.sp - 304
  link : t.readX 30 = s.pc + 160
  x : ∀ n, 19 ≤ n → n ≤ 29 → t.readX n = s.readX n
  slots : ∀ i < 19, t.mem.read (t.sp + BitVec.ofNat 64 (8 + 8 * i)) 8 = s.readX i
  x19 : t.mem.read (t.sp + BitVec.ofNat 64 288) 8 = s.readX 19
  x30 : t.mem.read (t.sp + BitVec.ofNat 64 296) 8 = s.readX 30
  mem : ∀ a, ¬ InRange t.sp 304 a → t.mem a = s.mem a

theorem entered (entry onEnter : Addr) :
    Entered s onEnter (execWords isa (toEnter entry onEnter ++ [blrX16]) s) := by
  have hwords : execWords isa (toEnter entry onEnter ++ [blrX16]) s =
      execWords isa (saveWords ++ (dispatchWords entry onEnter ++ [blrX16]))
      (s.pushPair 19 30) := by
    rw [toEnter, List.cons_append, execWords_cons, decode_pairs.1, exec_stp, List.append_assoc]
  have h := dispatched isa (s.pushPair 19 30) entry onEnter
  rw [hwords]
  generalize execWords isa (saveWords ++ (dispatchWords entry onEnter ++ [blrX16]))
    (s.pushPair 19 30) = t
    at h ⊢
  have hsp : t.sp = s.sp - 304 := by
    rw [h.sp]
    show s.sp - 16 - 288 = s.sp - 304
    rw [sub_sub]
    rfl
  have h16 : s.sp - 16 = t.sp + BitVec.ofNat 64 288 := by
    rw [hsp, sub_add]
    rfl
  have h8 : s.sp - 16 + 8 = t.sp + BitVec.ofNat 64 296 := by
    rw [h16, BitVec.add_assoc]
    rfl
  have hmem : (s.pushPair 19 30).mem =
      (s.mem.write (t.sp + BitVec.ofNat 64 288) 8 (s.readX 19)).write
      (t.sp + BitVec.ofNat 64 296) 8 (s.readX 30) := by
    rw [← h16, ← h8]
    rfl
  -- the pair lies just above the save area
  have habove : ∀ x, 288 ≤ (x - t.sp).toNat → t.mem x = (s.pushPair 19 30).mem x := fun x hx =>
    h.mem x (by rw [InRange]; omega)
  refine ⟨h.pc, hsp, ?_, ?_, ?_, ?_, ?_, ?_⟩
  · rw [h.link]
    show s.pc + 4 + 156 = s.pc + 160
    rw [BitVec.add_assoc]
    rfl
  · intro n h1 h2
    exact h.x n (by omega) (by omega) (by omega)
  · exact h.slots
  · rw [← Mem.read_write_same s.mem (t.sp + BitVec.ofNat 64 288) (n := 8) (by omega) (s.readX 19)]
    refine Mem.read_eq_of_forall_inRange (by omega) fun x hx => ?_
    rw [inRange_add_iff (by omega)] at hx
    rw [habove x hx.1, hmem, Mem.write_of_not_inRange]
    rw [inRange_add_iff (by omega)]
    omega
  · rw [← Mem.read_write_same (s.mem.write (t.sp + BitVec.ofNat 64 288) 8 (s.readX 19))
      (t.sp + BitVec.ofNat 64 296) (n := 8) (by omega) (s.readX 30)]
    refine Mem.read_eq_of_forall_inRange (by omega) fun x hx => ?_
    rw [inRange_add_iff (by omega)] at hx
    rw [habove x (by omega), hmem]
  · intro a ha
    rw [InRange] at ha
    rw [habove a (by omega), hmem, Mem.write_of_not_inRange, Mem.write_of_not_inRange]
    · rw [inRange_add_iff (by omega)]
      omega
    · rw [inRange_add_iff (by omega)]
      omega

/-- The registers after the save area is loaded again. -/
theorem readX_restored {i : ℕ} (hi : i < 19) :
    (restored s).readX i = s.mem.read (s.sp + BitVec.ofNat 64 (8 + 8 * i)) 8 := by
  have h : (restored s).readX i = (s.loadX (s.sp + 8) 19).readX i := rfl
  rw [h, Cpu.readX_loadX, if_pos ⟨hi, by omega⟩, ofNat_offset s.sp 8 (8 * i)]
  rfl

theorem readX_restored_of_le {n : ℕ} (hn : 19 ≤ n) : (restored s).readX n = s.readX n := by
  have h : (restored s).readX n = (s.loadX (s.sp + 8) 19).readX n := rfl
  rw [h, Cpu.readX_loadX, if_neg (by omega)]

theorem readV_restored {i : ℕ} (hi : i < 8) :
    (restored s).readV i = (s.mem (s.sp + BitVec.ofNat 64 (10 + i))).setWidth 128 := by
  have h : (restored s).readV i = ((s.loadX (s.sp + 8) 19).loadV (s.sp + 10) 1 8).readV i := rfl
  have hread : ∀ a, (s.mem.read a 1 : BitVec 8) = s.mem a := fun a => by
    have := Mem.extractLsb_read s.mem a (n := 1) (i := 0) (by omega)
    rw [BitVec.add_zero] at this
    rw [← this, BitVec.extractLsb'_eq_self]
  rw [h, Cpu.readV_loadV, if_pos ⟨hi, by omega⟩, ofNat_offset s.sp 10 i, Nat.one_mul]
  exact congrArg (BitVec.setWidth 128) (hread _)

/-- From the return of `dispatch_on_enter` to the original function. -/
structure CalledOrig (s : Cpu) (origFunc : Addr) (t : Cpu) : Prop where
  pc : t.pc = origFunc
  sp : t.sp = s.sp + 288
  link : t.readX 30 = s.pc + 144
  x19 : t.readX 19 = s.mem.read (s.sp + BitVec.ofNat 64 296) 8
  x : ∀ n, 20 ≤ n → n ≤ 29 → t.readX n = s.readX n
  loaded : ∀ i < 19, i ≠ 16 → t.readX i = s.mem.read (s.sp + BitVec.ofNat 64 (8 + 8 * i)) 8
  q : ∀ i < 8, t.readV i = (s.mem (s.sp + BitVec.ofNat 64 (10 + i))).setWidth 128
  mem : t.mem = s.mem

/-- The state after `MOV X19, X30; MOV X16, f; BLR X16`. -/
def linked (s : Cpu) (f : Addr) : Cpu :=
  (((s.setX 19 (s.readX 30)).setX 16 f).setX 30 (s.pc + 24)).setPc f

/-- The pair is popped and pushed again, `X30` goes to `X19`, and the original function is
called. -/
theorem execWords_callOrig (origFunc : Addr) :
    execWords isa ([0xA8C17BF3, 0xA9BF7BF3, 0xAA1E03F3] ++ (movImm64 16 origFunc ++ [blrX16])) s =
      linked ((s.popPair 19 30).pushPair 19 30) origFunc := by
  obtain ⟨hstp, hldp, hmov, -, -⟩ := decode_pairs
  obtain ⟨-, -, -, -, hblr⟩ := decode_fixed
  rw [execWords_append, execWords_cons, hldp, exec_ldp, execWords_cons, hstp, exec_stp,
    execWords_cons, hmov, execWords_nil, execWords_append, execWords_movX16, execWords_cons, hblr,
    execWords_nil]
  generalize (s.popPair 19 30).pushPair 19 30 = c
  rw [exec_blr, exec_mov, Cpu.pc_setPc, Cpu.pc_setPc, Cpu.readX_setPc,
    Cpu.readX_setX_same _ _ _ (by omega), BitVec.add_assoc, BitVec.add_assoc]
  rfl

theorem readX_linked (f : Addr) {n : ℕ} (h16 : n ≠ 16) (h19 : n ≠ 19) (h30 : n ≠ 30) :
    (linked s f).readX n = s.readX n := by
  simp [linked, h16, h19, h30]

theorem readX_linked_link (f : Addr) :
    (linked s f).readX 30 = s.pc + 24 ∧ (linked s f).readX 19 = s.readX 30 := by
  constructor
  · simp [linked]
  · simp [linked]

theorem calledOrig (origFunc : Addr) :
    CalledOrig s origFunc (execWords isa (toOrig origFunc ++ [blrX16]) s) := by
  have hwords : execWords isa (toOrig origFunc ++ [blrX16]) s =
      linked ((((restored s).setPc (s.pc + 112)).popPair 19 30).pushPair 19 30) origFunc := by
    rw [toOrig, List.append_assoc, List.append_assoc, execWords_append, execWords_restore,
      execWords_callOrig]
  have hpc : ((restored s).setPc (s.pc + 112)).pc = s.pc + 112 := rfl
  have hsp : ((restored s).setPc (s.pc + 112)).sp = s.sp + 288 := rfl
  have hmem : ((restored s).setPc (s.pc + 112)).mem = s.mem := rfl
  have hx : ∀ i, i < 19 → ((restored s).setPc (s.pc + 112)).readX i = _ := fun i hi =>
    readX_restored s hi
  have hx' : ∀ n, 19 ≤ n → ((restored s).setPc (s.pc + 112)).readX n = _ := fun n hn =>
    readX_restored_of_le s hn
  have hv : ∀ i, i < 8 → ((restored s).setPc (s.pc + 112)).readV i = _ := fun i hi =>
    readV_restored s hi
  rw [hwords]
  generalize (restored s).setPc (s.pc + 112) = r at hpc hsp hmem hx hx' hv
  obtain ⟨hmem', hsp'⟩ := r.pushPair_popPair (i := 19) (j := 30) (by omega) (by omega) (by omega)
  obtain ⟨h30, h19⟩ := readX_linked_link ((r.popPair 19 30).pushPair 19 30) origFunc
  refine ⟨rfl, hsp'.trans hsp, ?_, ?_, ?_, ?_, ?_, hmem'.trans hmem⟩
  · rw [h30, Cpu.pc_pushPair, Cpu.pc_popPair, hpc]
    simp only [BitVec.add_assoc]
    rfl
  · rw [h19, Cpu.readX_pushPair, r.readX_popPair_snd 19 (by omega), hmem, hsp, BitVec.add_assoc]
    rfl
  · intro n h1 h2
    rw [readX_linked _ _ (by omega) (by omega) (by omega), Cpu.readX_pushPair,
      Cpu.readX_popPair_of_ne (by omega) (by omega), hx' n (by omega)]
  · intro i hi h16
    rw [readX_linked _ _ h16 (by omega) (by omega), Cpu.readX_pushPair,
      Cpu.readX_popPair_of_ne (by omega) (by omega), hx i hi]
  · intro i hi
    exact hv i hi

/-- From the return of the original function to `dispatch_on_leave`. -/
theorem left (entry onLeave : Addr) :
    Dispatched (s.setX 30 (s.readX 19)) onLeave (s.pc + 160)
      (execWords isa (toLeave entry onLeave ++ [blrX16]) s) := by
  have hwords : execWords isa (toLeave entry onLeave ++ [blrX16]) s =
      execWords isa (saveWords ++ (dispatchWords entry onLeave ++ [blrX16]))
        ((s.setX 30 (s.readX 19)).setPc (s.pc + 4)) := by
    rw [toLeave, List.cons_append, execWords_cons, decode_pairs.2.2.2.1, exec_mov,
      List.append_assoc]
  have h := dispatched isa ((s.setX 30 (s.readX 19)).setPc (s.pc + 4)) entry onLeave
  rw [hwords]
  refine ⟨h.pc, h.sp, ?_, h.x, h.slots, h.mem⟩
  rw [h.link]
  show s.pc + 4 + 156 = s.pc + 160
  rw [BitVec.add_assoc]
  rfl

/-- From the return of `dispatch_on_leave` to the caller. -/
structure Returned (s t : Cpu) : Prop where
  pc : t.pc = s.mem.read (s.sp + BitVec.ofNat 64 296) 8
  sp : t.sp = s.sp + 304
  x30 : t.readX 30 = s.mem.read (s.sp + BitVec.ofNat 64 296) 8
  x19 : t.readX 19 = s.mem.read (s.sp + BitVec.ofNat 64 288) 8
  x : ∀ n, 20 ≤ n → n ≤ 29 → t.readX n = s.readX n
  loaded : ∀ i < 19, t.readX i = s.mem.read (s.sp + BitVec.ofNat 64 (8 + 8 * i)) 8
  q : ∀ i < 8, t.readV i = (s.mem (s.sp + BitVec.ofNat 64 (10 + i))).setWidth 128

/-- The pair is popped and control returns. -/
theorem execWords_return :
    execWords isa [0xA8C17BF3, 0xD65F03C0] s =
      (s.popPair 19 30).setPc ((s.popPair 19 30).readX 30) := by
  obtain ⟨-, hldp, -, -, hret⟩ := decode_pairs
  rw [execWords_cons, hldp, exec_ldp, execWords_cons, hret, execWords_nil, exec_ret]

theorem returned : Returned s (execWords isa (toReturn ++ [0xD65F03C0]) s) := by
  have hwords : execWords isa (toReturn ++ [0xD65F03C0]) s =
      execWords isa [0xA8C17BF3, 0xD65F03C0] ((restored s).setPc (s.pc + 112)) := by
    rw [toReturn, List.append_assoc, execWords_append, execWords_restore]
    rfl
  have hsp : ((restored s).setPc (s.pc + 112)).sp = s.sp + 288 := rfl
  have hmem : ((restored s).setPc (s.pc + 112)).mem = s.mem := rfl
  have hx : ∀ i, i < 19 → ((restored s).setPc (s.pc + 112)).readX i = _ := fun i hi =>
    readX_restored s hi
  have hx' : ∀ n, 19 ≤ n → ((restored s).setPc (s.pc + 112)).readX n = _ := fun n hn =>
    readX_restored_of_le s hn
  have hv : ∀ i, i < 8 → ((restored s).setPc (s.pc + 112)).readV i = _ := fun i hi =>
    readV_restored s hi
  rw [hwords, execWords_return]
  generalize (restored s).setPc (s.pc + 112) = r at hsp hmem hx hx' hv
  have h19 : (r.popPair 19 30).readX 19 = r.mem.read r.sp 8 :=
    r.readX_popPair_fst (by omega) (by omega)
  have h30 : (r.popPair 19 30).readX 30 = r.mem.read (r.sp + 8) 8 :=
    r.readX_popPair_snd 19 (by omega)
  have haddr : r.mem.read (r.sp + 8) 8 = s.mem.read (s.sp + BitVec.ofNat 64 296) 8 := by
    rw [hmem, hsp, BitVec.add_assoc]
    rfl
  refine ⟨h30.trans haddr, ?_, ?_, ?_, ?_, ?_, ?_⟩
  · rw [Cpu.sp_setPc, Cpu.sp_popPair, hsp, BitVec.add_assoc]
    rfl
  · rw [Cpu.readX_setPc, h30, haddr]
  · rw [Cpu.readX_setPc, h19, hmem, hsp]
    rfl
  · intro n h1 h2
    rw [Cpu.readX_setPc, Cpu.readX_popPair_of_ne (by omega) (by omega), hx' n (by omega)]
  · intro i hi
    rw [Cpu.readX_setPc, Cpu.readX_popPair_of_ne (by omega) (by omega), hx i hi]
  · intro i hi
    exact hv i hi

end Stretches

/-! ## One call -/

/-- The first half of a call of the block in state `s`: `dispatch_on_enter` is entered in `s1`, the
original function in `s2`. -/
structure CallsOrig (P : Program) (isa : Isa) (enter orig : Callee) (s s1 s2 : Cpu) : Prop where
  toEnter : P.stepN isa 40 s = some s1
  atEnter : s1.pc = enter.addr
  toOrig : P.stepN isa 36 (enter.run s1) = some s2
  atOrig : s2.pc = orig.addr

/-- The second half: `dispatch_on_leave` is entered in `s3`, and `s4` is the state after the final
`RET`. -/
structure ReturnsFromOrig (P : Program) (isa : Isa) (orig leave : Callee) (s2 s3 s4 : Cpu) :
    Prop where
  toLeave : P.stepN isa 40 (orig.run s2) = some s3
  atLeave : s3.pc = leave.addr
  toReturn : P.stepN isa 30 (leave.run s3) = some s4

/-- One call of the block. -/
structure AttachRun (P : Program) (isa : Isa) (enter orig leave : Callee) (s s1 s2 s3 s4 : Cpu) :
    Prop where
  calls : CallsOrig P isa enter orig s s1 s2
  returns : ReturnsFromOrig P isa orig leave s2 s3 s4

section Calls

variable {P : Program} {isa : Isa} {enter orig leave : Callee} {entry : Addr} {s : Cpu}
  {may may' : Cpu → Addr → Prop}

/-- The four pieces of the block stand one after another. -/
theorem has_pieces {a : Addr}
    (hP : P.Has a (trampolineWords entry enter.addr leave.addr orig.addr)) :
    P.Has a (toEnter entry enter.addr ++ [blrX16]) ∧
      P.Has (a + 160) (toOrig orig.addr ++ [blrX16]) ∧
      P.Has (a + 304) (toLeave entry leave.addr ++ [blrX16]) ∧
      P.Has (a + 464) (toReturn ++ [0xD65F03C0]) := by
  rw [trampolineWords_eq, Program.has_append, Program.has_append, Program.has_append] at hP
  obtain ⟨⟨⟨h1, h2⟩, h3⟩, h4⟩ := hP
  refine ⟨h1, ?_, ?_, ?_⟩
  · simpa using h2
  · simpa using h3
  · simpa using h4

theorem straight_toEnter (dispatch : Addr) : Straight (toEnter entry dispatch) := by
  rw [toEnter, straight_cons, decode_pairs.1, straight_append]
  exact ⟨rfl, straight_saveWords, straight_dispatchWords entry dispatch⟩

theorem straight_toLeave (dispatch : Addr) : Straight (toLeave entry dispatch) := by
  rw [toLeave, straight_cons, decode_pairs.2.2.2.1, straight_append]
  exact ⟨rfl, straight_saveWords, straight_dispatchWords entry dispatch⟩

theorem straight_toReturn : Straight toReturn := by
  rw [toReturn, straight_append, straight_singleton, decode_pairs.2.1]
  exact ⟨straight_restoreWords, rfl⟩

theorem straight_toOrig (origFunc : Addr) : Straight (toOrig origFunc) := by
  rw [toOrig, straight_append, straight_append, straight_cons, straight_cons, straight_singleton,
    decode_pairs.1, decode_pairs.2.1, decode_pairs.2.2.1]
  exact ⟨⟨straight_restoreWords, rfl, rfl, rfl⟩, straight_movImm64 16 (by omega) origFunc⟩

/-- **The first half of a call exists**, and what it does. -/
theorem exists_callsOrig (isa : Isa)
    (hP : P.Has s.pc (trampolineWords entry enter.addr leave.addr orig.addr))
    (henter : Aapcs64 may enter.run) :
    ∃ s1 s2, CallsOrig P isa enter orig s s1 s2 ∧ Entered s enter.addr s1 ∧
      CalledOrig (enter.run s1) orig.addr s2 ∧ s2.readX 30 = s.pc + 304 := by
  obtain ⟨h1, h2, -, -⟩ := has_pieces hP
  have hentered := entered isa s entry enter.addr
  have hto := stepN_words_last isa h1 (straight_toEnter enter.addr)
  generalize execWords isa (toEnter entry enter.addr ++ [blrX16]) s = s1 at hentered hto
  have hpc : (enter.run s1).pc = s.pc + 160 := by rw [henter.pc, hentered.link]
  have hcalled := calledOrig isa (enter.run s1) orig.addr
  rw [← hpc] at h2
  have hto' := stepN_words_last isa h2 (straight_toOrig orig.addr)
  generalize execWords isa (toOrig orig.addr ++ [blrX16]) (enter.run s1) = s2 at hcalled hto'
  rw [length_toEnter] at hto
  rw [length_toOrig] at hto'
  refine ⟨s1, s2, ⟨hto, hentered.pc, hto', hcalled.pc⟩, hentered, hcalled, ?_⟩
  rw [hcalled.link, hpc, BitVec.add_assoc]
  rfl

/-- **The second half of a call exists**, and what it does. -/
theorem exists_returnsFromOrig (isa : Isa) {s2 : Cpu}
    (hP : P.Has s.pc (trampolineWords entry enter.addr leave.addr orig.addr))
    (horig : Aapcs64 may orig.run) (hleave : Aapcs64 may' leave.run)
    (hlink : s2.readX 30 = s.pc + 304) :
    ∃ s3 s4, ReturnsFromOrig P isa orig leave s2 s3 s4 ∧
      Dispatched ((orig.run s2).setX 30 ((orig.run s2).readX 19)) leave.addr (s.pc + 464) s3 ∧
      Returned (leave.run s3) s4 := by
  obtain ⟨-, -, h3, h4⟩ := has_pieces hP
  have hpc : (orig.run s2).pc = s.pc + 304 := by rw [horig.pc, hlink]
  have hleft := left isa (orig.run s2) entry leave.addr
  rw [← hpc] at h3
  have hto := stepN_words_last isa h3 (straight_toLeave leave.addr)
  have hret : (orig.run s2).pc + 160 = s.pc + 464 := by
    rw [hpc, BitVec.add_assoc]
    rfl
  rw [hret] at hleft
  generalize execWords isa (toLeave entry leave.addr ++ [blrX16]) (orig.run s2) = s3 at hleft hto
  have hpc' : (leave.run s3).pc = s.pc + 464 := by rw [hleave.pc, hleft.link]
  rw [← hpc'] at h4
  have hto' := stepN_words_last isa h4 straight_toReturn
  have hreturned := returned isa (leave.run s3)
  generalize execWords isa (toReturn ++ [0xD65F03C0]) (leave.run s3) = s4 at hreturned hto'
  rw [length_toLeave] at hto
  rw [length_toReturn] at hto'
  exact ⟨s3, s4, ⟨hto, hleft.pc, hto'⟩, hleft, hreturned⟩

/-! ## The saved pair -/

/-- `X19` and `X30` of the caller stand just below the stack pointer the caller had. -/
structure PairSaved (s c : Cpu) : Prop where
  x19 : c.mem.read (s.sp - 16) 8 = s.readX 19
  x30 : c.mem.read (s.sp - 8) 8 = s.readX 30

/-- A callee that leaves the last sixteen bytes of the frame alone keeps the pair. -/
theorem PairSaved.run {frame d n : ℕ} {c : Cpu} {f : Cpu → Cpu} (hpair : PairSaved s c)
    (hf : Aapcs64 (mayWrite frame d n) f) (hframe : frame ≤ 2 ^ 63) {e : ℕ} (he : e + 16 ≤ frame)
    (hdn : d + n ≤ e) (hsp : c.sp + BitVec.ofNat 64 e = s.sp - 16) : PairSaved s (f c) := by
  have hsp' : c.sp + BitVec.ofNat 64 (e + 8) = s.sp - 8 := by
    rw [BitVec.ofNat_add, ← BitVec.add_assoc, hsp, sub_add]
    rfl
  constructor
  · rw [← hsp, hf.read_frame hframe (by omega) (by omega) (by omega), hsp, hpair.x19]
  · rw [← hsp', hf.read_frame hframe (by omega) (by omega) (by omega), hsp', hpair.x30]

theorem Entered.pairSaved {onEnter : Addr} {s1 : Cpu} (h : Entered s onEnter s1) :
    PairSaved s s1 := by
  have h16 : s.sp - 16 = s1.sp + BitVec.ofNat 64 288 := by
    rw [h.sp, sub_add]
    rfl
  have h8 : s.sp - 8 = s1.sp + BitVec.ofNat 64 296 := by
    rw [h.sp, sub_add]
    rfl
  constructor
  · rw [h16, h.x19]
  · rw [h8, h.x30]

theorem Dispatched.pairSaved {c s3 : Cpu} {dispatch ret : Addr} (h : Dispatched c dispatch ret s3)
    (hsp : c.sp = s.sp - 16) (hpair : PairSaved s c) : PairSaved s s3 := by
  have hkeep : ∀ e, e + 8 ≤ 16 → s3.mem.read (c.sp + BitVec.ofNat 64 e) 8 =
      c.mem.read (c.sp + BitVec.ofNat 64 e) 8 := by
    intro e he
    refine Mem.read_eq_of_forall_inRange (by omega) fun x hx => h.mem x ?_
    have hbase : c.sp + BitVec.ofNat 64 e = s3.sp + BitVec.ofNat 64 (288 + e) := by
      rw [h.sp, BitVec.ofNat_add, ← BitVec.add_assoc]
      show _ = c.sp - 288 + 288 + _
      rw [sub_add_cancel]
    rw [hbase, inRange_add_iff (by omega)] at hx
    rw [InRange]
    omega
  have h8 : s.sp - 8 = c.sp + BitVec.ofNat 64 8 := by
    rw [hsp, sub_add]
    rfl
  constructor
  · have h0 := hkeep 0 (by omega)
    rw [BitVec.add_zero, hsp] at h0
    rw [h0, hpair.x19]
  · rw [h8, hkeep 8 (by omega), ← h8, hpair.x30]

/-! ## Callees that return at once -/

/-- Dispatchers and an original function that do nothing, and the block that calls them. -/
def idleEnter : Callee := ⟨0x20000000, returnAtOnce⟩
def idleLeave : Callee := ⟨0x20001000, returnAtOnce⟩
def idleOrig : Callee := ⟨0x30000000, returnAtOnce⟩

def idleProgram : Program :=
  Program.block 0x10000000 (trampolineWords 0x40000000 idleEnter.addr idleLeave.addr idleOrig.addr)

/-- A caller whose vector registers hold one and whose other registers hold zero. -/
def idleCaller : Cpu := { Cpu.zero 0x10000000 (fun _ => 0) with v := fun _ => 1 }

theorem idleProgram_has : idleProgram.Has idleCaller.pc
    (trampolineWords 0x40000000 idleEnter.addr idleLeave.addr idleOrig.addr) := by
  refine Program.block_has _ ?_
  rw [trampolineWords_eq]
  simp

/-! ## Returning -/

theorem sp_atOrig {s1 s2 : Cpu} {onEnter origFunc : Addr} (henter : Aapcs64 may enter.run)
    (h1 : Entered s onEnter s1) (h2 : CalledOrig (enter.run s1) origFunc s2) :
    s2.sp = s.sp - 16 := by
  rw [h2.sp, henter.sp, h1.sp, sub_add]
  rfl

/-- The original function is entered with the pair in place and the caller's `X30` in `X19`. -/
theorem pairSaved_atOrig {s1 s2 : Cpu} {frame n : ℕ} {onEnter origFunc : Addr}
    (henter : Aapcs64 (mayWrite frame 0 n) enter.run) (hframe : frame ≤ 2 ^ 63) (hle : 304 ≤ frame)
    (hn : n ≤ 288) (h1 : Entered s onEnter s1) (h2 : CalledOrig (enter.run s1) origFunc s2) :
    PairSaved s s2 ∧ s2.readX 19 = s.readX 30 := by
  have hsp : s1.sp + BitVec.ofNat 64 288 = s.sp - 16 := by
    rw [h1.sp, sub_add]
    rfl
  have hpair : PairSaved s (enter.run s1) :=
    h1.pairSaved.run henter hframe (e := 288) (by omega) (by omega) hsp
  have h8 : (enter.run s1).sp + BitVec.ofNat 64 296 = s.sp - 8 := by
    rw [henter.sp, h1.sp, sub_add]
    rfl
  refine ⟨⟨?_, ?_⟩, ?_⟩
  · rw [h2.mem, hpair.x19]
  · rw [h2.mem, hpair.x30]
  · rw [h2.x19, h8, hpair.x30]

/-- **The block returns to its caller.**  Whatever the dispatchers write to the save area, and
whatever else the three callees write outside the frame of the block, the final `RET` goes to the
`X30` of the entry with the stack pointer and `X19` to `X30` as they were. -/
theorem attach_returns (isa : Isa) (entry : Addr)
    (hP : P.Has s.pc (trampolineWords entry enter.addr leave.addr orig.addr))
    (henter : Aapcs64 (mayWrite 304 0 288) enter.run) (horig : Aapcs64 (mayWrite 16 0 0) orig.run)
    (hleave : Aapcs64 (mayWrite 304 0 288) leave.run) :
    ∃ s1 s2 s3 s4, AttachRun P isa enter orig leave s s1 s2 s3 s4 ∧
      s4.pc = s.readX 30 ∧ s4.sp = s.sp ∧ ∀ n, 19 ≤ n → n ≤ 30 → s4.readX n = s.readX n := by
  obtain ⟨s1, s2, hcalls, h1, h2, hlink⟩ := exists_callsOrig isa hP henter
  obtain ⟨s3, s4, hreturns, h3, h4⟩ := exists_returnsFromOrig isa hP horig hleave hlink
  obtain ⟨hpair2, hx19⟩ := pairSaved_atOrig henter (by omega) le_rfl le_rfl h1 h2
  have hsp2 := sp_atOrig henter h1 h2
  have hpair2' : PairSaved s (orig.run s2) :=
    hpair2.run horig (by omega) (e := 0) le_rfl le_rfl (by rw [hsp2, BitVec.add_zero])
  have hpair3 : PairSaved s s3 :=
    h3.pairSaved (by rw [Cpu.sp_setX, horig.sp, hsp2]) ⟨hpair2'.x19, hpair2'.x30⟩
  have hsp3 : s3.sp = s.sp - 304 := by
    rw [h3.sp, Cpu.sp_setX, horig.sp, hsp2, sub_sub]
    rfl
  have hpair4 : PairSaved s (leave.run s3) :=
    hpair3.run hleave (by omega) (e := 288) (by omega) (by omega) (by rw [hsp3, sub_add]; rfl)
  have h288 : (leave.run s3).sp + BitVec.ofNat 64 288 = s.sp - 16 := by
    rw [hleave.sp, hsp3, sub_add]
    rfl
  have h296 : (leave.run s3).sp + BitVec.ofNat 64 296 = s.sp - 8 := by
    rw [hleave.sp, hsp3, sub_add]
    rfl
  have hx30 : s4.readX 30 = s.readX 30 := by rw [h4.x30, h296, hpair4.x30]
  refine ⟨s1, s2, s3, s4, ⟨hcalls, hreturns⟩, ?_, ?_, ?_⟩
  · rw [h4.pc, h296, hpair4.x30]
  · rw [h4.sp, hleave.sp, hsp3, sub_add_cancel]
  · intro n hn1 hn2
    rcases Nat.lt_or_ge n 20 with hn | hn
    · obtain rfl : n = 19 := by omega
      rw [h4.x19, h288, hpair4.x19]
    · rcases Nat.lt_or_ge n 30 with hn' | hn'
      · -- `X20` to `X29` are never touched by the block
        rw [h4.x n hn (by omega), hleave.x s3 n hn1 (by omega),
          h3.x n (by omega) (by omega) (by omega), Cpu.readX_setX_of_ne _ _ (by omega),
          horig.x s2 n hn1 (by omega), h2.x n hn (by omega), henter.x s1 n hn1 (by omega),
          h1.x n hn1 (by omega)]
      · obtain rfl : n = 30 := by omega
        exact hx30

/-- The idle caller gets control back. -/
theorem idle_returns :
    ∃ s1 s2 s3 s4, AttachRun idleProgram Isa.bare idleEnter idleOrig idleLeave idleCaller
      s1 s2 s3 s4 ∧
      s4.pc = idleCaller.readX 30 ∧ s4.sp = idleCaller.sp ∧
      ∀ n, 19 ≤ n → n ≤ 30 → s4.readX n = idleCaller.readX n := by
  have henter : Aapcs64 (mayWrite 304 0 288) idleEnter.run := aapcs64_returnAtOnce _
  have horig : Aapcs64 (mayWrite 16 0 0) idleOrig.run := aapcs64_returnAtOnce _
  have hleave : Aapcs64 (mayWrite 304 0 288) idleLeave.run := aapcs64_returnAtOnce _
  exact attach_returns Isa.bare 0x40000000 idleProgram_has henter horig hleave

/-! ## The stack at the original function -/

/-- What the block wrote and the callee left alone above the caller's stack pointer. -/
theorem mem_atOrig {s1 s2 : Cpu} {n : ℕ} {onEnter origFunc : Addr}
    (henter : Aapcs64 (mayWrite (304 + n) 0 288) enter.run) (hn : 304 + n ≤ 2 ^ 63)
    (h1 : Entered s onEnter s1) (h2 : CalledOrig (enter.run s1) origFunc s2) {k : ℕ} (hk : k < n) :
    s2.mem (s.sp + BitVec.ofNat 64 k) = s.mem (s.sp + BitVec.ofNat 64 k) := by
  have haddr : s.sp + BitVec.ofNat 64 k = s1.sp + BitVec.ofNat 64 (304 + k) := by
    rw [h1.sp, BitVec.ofNat_add, ← BitVec.add_assoc]
    show _ = s.sp - 304 + 304 + _
    rw [sub_add_cancel]
  have hin : ¬ InRange s1.sp 304 (s1.sp + BitVec.ofNat 64 (304 + k)) := by
    rw [InRange, toNat_add_ofNat_sub _ (by omega)]
    omega
  rw [haddr, h2.mem, henter.mem s1 _ (aboveSp_add (by omega))
    (not_mayWrite (by omega) (by omega) (by omega) (by omega)), h1.mem _ hin]

/-- **The original function does not get the caller's stack pointer.**  It is entered sixteen bytes
lower: its first two stack words are the caller's `X19` and `X30`, and the `n` bytes the caller
passed on the stack start at its `[SP, #16]`. -/
theorem attach_sp_at_orig (isa : Isa) (entry : Addr) (n : ℕ) (hn : 304 + n ≤ 2 ^ 63)
    (hP : P.Has s.pc (trampolineWords entry enter.addr leave.addr orig.addr))
    (henter : Aapcs64 (mayWrite (304 + n) 0 288) enter.run) :
    ∃ s1 s2, CallsOrig P isa enter orig s s1 s2 ∧ s2.sp = s.sp - 16 ∧ s2.sp ≠ s.sp ∧
      s2.mem.read s2.sp 8 = s.readX 19 ∧ s2.mem.read (s2.sp + 8) 8 = s.readX 30 ∧
      ∀ k < n, s2.mem (s2.sp + BitVec.ofNat 64 (16 + k)) = s.mem (s.sp + BitVec.ofNat 64 k) := by
  obtain ⟨s1, s2, hcalls, h1, h2, -⟩ := exists_callsOrig isa hP henter
  obtain ⟨hpair, -⟩ := pairSaved_atOrig henter hn (by omega) le_rfl h1 h2
  have hsp := sp_atOrig henter h1 h2
  refine ⟨s1, s2, hcalls, hsp, ?_, ?_, ?_, ?_⟩
  · rw [hsp, Ne, sub_eq_self]
    decide
  · rw [hsp, hpair.x19]
  · rw [← hpair.x30, hsp, sub_add]
    rfl
  · intro k hk
    rw [← mem_atOrig henter hn h1 h2 hk, hsp, BitVec.ofNat_add, ← BitVec.add_assoc]
    show s2.mem (s.sp - 16 + 16 + _) = _
    rw [sub_add_cancel]

/-- Eight bytes on the stack of the idle caller. -/
theorem idle_sp_at_orig :
    ∃ s1 s2, CallsOrig idleProgram Isa.bare idleEnter idleOrig idleCaller s1 s2 ∧
      s2.sp = idleCaller.sp - 16 ∧ s2.sp ≠ idleCaller.sp ∧
      s2.mem.read s2.sp 8 = idleCaller.readX 19 ∧ s2.mem.read (s2.sp + 8) 8 = idleCaller.readX 30 ∧
      ∀ k < 8, s2.mem (s2.sp + BitVec.ofNat 64 (16 + k)) =
        idleCaller.mem (idleCaller.sp + BitVec.ofNat 64 k) := by
  refine attach_sp_at_orig Isa.bare 0x40000000 8 (by omega) idleProgram_has ?_
  exact aapcs64_returnAtOnce (mayWrite (304 + 8) 0 288)

/-- The original function of the idle caller is entered with another stack pointer. -/
theorem idle_sp_differs :
    ∃ s1 s2, CallsOrig idleProgram Isa.bare idleEnter idleOrig idleCaller s1 s2 ∧
      s2.sp ≠ idleCaller.sp := by
  have henter : Aapcs64 (mayWrite 304 0 288) idleEnter.run := aapcs64_returnAtOnce _
  obtain ⟨s1, s2, hcalls, h1, h2, -⟩ := exists_callsOrig Isa.bare idleProgram_has henter
  refine ⟨s1, s2, hcalls, ?_⟩
  rw [sp_atOrig henter h1 h2, Ne, sub_eq_self]
  decide

/-! ## The registers -/

/-- The slot of `Xi` in a save area at the stack pointer. -/
def slotX (c : Cpu) (i : ℕ) : BitVec 64 := c.mem.read (c.sp + BitVec.ofNat 64 (kOffX0 + 8 * i)) 8

/-- The general registers pass through a call: `dispatch_on_enter` is entered in `s1` and returns in
`c1`, the original function is entered in `s2` and returns in `c2`, `dispatch_on_leave` is entered
in `s3` and returns in `c3`, and `s4` is the state after the final `RET`. -/
structure GeneralTransparent (s s1 c1 s2 c2 s3 c3 s4 : Cpu) : Prop where
  shown : ∀ i < 19, slotX s1 i = s.readX i
  xIn : ∀ i < 19, i ≠ 16 → s2.readX i = if i < 8 then slotX c1 i else s.readX i
  shownResult : ∀ i < 19, slotX s3 i = c2.readX i
  xOut : ∀ i < 19, s4.readX i = if i = 0 then slotX c3 0 else c2.readX i

/-- All registers pass through a call. -/
structure RegisterTransparent (s s1 c1 s2 c2 s3 c3 s4 : Cpu) : Prop
    extends GeneralTransparent s s1 c1 s2 c2 s3 c3 s4 where
  qIn : ∀ i < 8, s2.readV i = s.readV i
  qOut : ∀ i < 8, s4.readV i = c2.readV i

/-- What a restored vector register holds: byte `i + 2` of the slots of `X0` and `X1`. -/
def slotByte (x0 x1 : BitVec 64) (i : ℕ) : BitVec 128 :=
  (if i < 6 then x0.extractLsb' (8 * (i + 2)) 8 else x1.extractLsb' (8 * (i - 6)) 8).setWidth 128

/-- The byte `LDR Bt, [SP, #10 + i]` reads. -/
theorem slotByte_eq (c : Cpu) {i : ℕ} (hi : i < 8) :
    (c.mem (c.sp + BitVec.ofNat 64 (10 + i))).setWidth 128 =
      slotByte (slotX c 0) (slotX c 1) i := by
  have hbyte : ∀ d e, e < 8 → ((c.mem.read (c.sp + BitVec.ofNat 64 d) 8 : BitVec 64).extractLsb'
      (8 * e) 8) = c.mem (c.sp + BitVec.ofNat 64 (d + e)) := by
    intro d e he
    rw [ofNat_offset c.sp d e]
    exact Mem.extractLsb_read c.mem _ he
  rw [slotByte]
  split_ifs with h6
  · have h : 10 + i = 8 + (i + 2) := by omega
    rw [h, ← hbyte 8 (i + 2) (by omega)]
    rfl
  · have h : 10 + i = 16 + (i - 6) := by omega
    rw [h, ← hbyte 16 (i - 6) (by omega)]
    rfl

/-- The slots a callee may not write keep their contents. -/
theorem slotX_run {c : Cpu} {n : ℕ} {f : Cpu → Cpu} (hf : Aapcs64 (mayWrite 304 8 n) f)
    (hn : 8 + n ≤ 304) {i : ℕ} (hi : i < 19) (hni : n ≤ 8 * i) : slotX (f c) i = slotX c i := by
  rw [slotX, slotX, hf.sp]
  exact hf.read_frame (by omega) hn (by rw [kOffX0]; omega) (by rw [kOffX0]; omega)

/-- **What a call does to the registers**: the general ones pass through, the vector ones come back
as bytes of the slots of `X0` and `X1`. -/
theorem exists_generalTransparent (isa : Isa) (entry : Addr)
    (hP : P.Has s.pc (trampolineWords entry enter.addr leave.addr orig.addr))
    (henter : Aapcs64 (mayWrite 304 8 64) enter.run) (horig : Aapcs64 (mayWrite 16 0 0) orig.run)
    (hleave : Aapcs64 (mayWrite 304 8 8) leave.run) :
    ∃ s1 s2 s3 s4, AttachRun P isa enter orig leave s s1 s2 s3 s4 ∧
      GeneralTransparent s s1 (enter.run s1) s2 (orig.run s2) s3 (leave.run s3) s4 ∧
      (∀ i < 8, s2.readV i = slotByte (slotX (enter.run s1) 0) (slotX (enter.run s1) 1) i) ∧
      ∀ i < 8, s4.readV i = slotByte (slotX (leave.run s3) 0) ((orig.run s2).readX 1) i := by
  obtain ⟨s1, s2, hcalls, h1, h2, hlink⟩ := exists_callsOrig isa hP henter
  obtain ⟨s3, s4, hreturns, h3, h4⟩ := exists_returnsFromOrig isa hP horig hleave hlink
  have hshown : ∀ i < 19, slotX s1 i = s.readX i := h1.slots
  have hresult : ∀ i < 19, slotX s3 i = (orig.run s2).readX i := by
    intro i hi
    rw [← Cpu.readX_setX_of_ne (orig.run s2) ((orig.run s2).readX 19) (n := 30) (by omega)]
    exact h3.slots i hi
  have hin : ∀ i < 19, i ≠ 16 → s2.readX i = slotX (enter.run s1) i := h2.loaded
  have hout : ∀ i < 19, s4.readX i = slotX (leave.run s3) i := h4.loaded
  refine ⟨s1, s2, s3, s4, ⟨hcalls, hreturns⟩, ⟨hshown, ?_, hresult, ?_⟩, ?_, ?_⟩
  · intro i hi h16
    rw [hin i hi h16]
    split_ifs with h8
    · rfl
    · rw [slotX_run henter (by omega) hi (by omega), hshown i hi]
  · intro i hi
    rw [hout i hi]
    split_ifs with h0
    · rw [h0]
    · rw [slotX_run hleave (by omega) hi (by omega), hresult i hi]
  · intro i hi
    rw [h2.q i hi, slotByte_eq _ hi]
  · intro i hi
    have h1 : slotX (leave.run s3) 1 = slotX s3 1 :=
      slotX_run hleave (by omega) (by omega) (by omega)
    rw [h4.q i hi, slotByte_eq _ hi, h1, hresult 1 (by omega)]

/-- **When `Interceptor.attach` is register-transparent.**  The general registers always pass
through; a vector register passes through exactly when it holds the single byte that is loaded into
it: at the entry, of `X0` and `X1` as `dispatch_on_enter` leaves them in the save area; at the
return of the original function, of `X0` as `dispatch_on_leave` leaves it and of the `X1` of that
function. -/
theorem attach_transparent_iff (isa : Isa) (entry : Addr)
    (hP : P.Has s.pc (trampolineWords entry enter.addr leave.addr orig.addr))
    (henter : Aapcs64 (mayWrite 304 8 64) enter.run) (horig : Aapcs64 (mayWrite 16 0 0) orig.run)
    (hleave : Aapcs64 (mayWrite 304 8 8) leave.run) :
    ∃ s1 s2 s3 s4, AttachRun P isa enter orig leave s s1 s2 s3 s4 ∧
      (RegisterTransparent s s1 (enter.run s1) s2 (orig.run s2) s3 (leave.run s3) s4 ↔
        ∀ i < 8, s.readV i = slotByte (slotX (enter.run s1) 0) (slotX (enter.run s1) 1) i ∧
          (orig.run s2).readV i = slotByte (slotX (leave.run s3) 0) ((orig.run s2).readX 1) i) := by
  obtain ⟨s1, s2, s3, s4, hrun, hgeneral, hin, hout⟩ :=
    exists_generalTransparent isa entry hP henter horig hleave
  refine ⟨s1, s2, s3, s4, hrun, ?_⟩
  constructor
  · intro h i hi
    exact ⟨by rw [← h.qIn i hi, hin i hi], by rw [← h.qOut i hi, hout i hi]⟩
  · intro h
    refine ⟨hgeneral, ?_, ?_⟩
    · intro i hi
      rw [hin i hi, (h i hi).1]
    · intro i hi
      rw [hout i hi, (h i hi).2]

/-- The condition for the idle caller. -/
theorem idle_transparent_iff :
    ∃ s1 s2 s3 s4, AttachRun idleProgram Isa.bare idleEnter idleOrig idleLeave idleCaller
      s1 s2 s3 s4 ∧
      (RegisterTransparent idleCaller s1 (idleEnter.run s1) s2 (idleOrig.run s2) s3
        (idleLeave.run s3)
          s4 ↔
        ∀ i < 8, idleCaller.readV i =
            slotByte (slotX (idleEnter.run s1) 0) (slotX (idleEnter.run s1) 1) i ∧
          (idleOrig.run s2).readV i =
            slotByte (slotX (idleLeave.run s3) 0) ((idleOrig.run s2).readX 1) i) := by
  have henter : Aapcs64 (mayWrite 304 8 64) idleEnter.run := aapcs64_returnAtOnce _
  have horig : Aapcs64 (mayWrite 16 0 0) idleOrig.run := aapcs64_returnAtOnce _
  have hleave : Aapcs64 (mayWrite 304 8 8) idleLeave.run := aapcs64_returnAtOnce _
  exact attach_transparent_iff Isa.bare 0x40000000 idleProgram_has henter horig hleave

/-- `Q0` of the idle caller holds one, and the original function gets zero. -/
theorem idle_not_transparent :
    ∃ s1 s2 s3 s4, AttachRun idleProgram Isa.bare idleEnter idleOrig idleLeave idleCaller
      s1 s2 s3 s4 ∧
      idleCaller.readV 0 = 1 ∧ s2.readV 0 = 0 ∧
      ¬ RegisterTransparent idleCaller s1 (idleEnter.run s1) s2 (idleOrig.run s2) s3
        (idleLeave.run s3) s4 := by
  have henter : Aapcs64 (mayWrite 304 8 64) idleEnter.run := aapcs64_returnAtOnce _
  have horig : Aapcs64 (mayWrite 16 0 0) idleOrig.run := aapcs64_returnAtOnce _
  have hleave : Aapcs64 (mayWrite 304 8 8) idleLeave.run := aapcs64_returnAtOnce _
  obtain ⟨s1, s2, s3, s4, hrun, hgeneral, hin, -⟩ :=
    exists_generalTransparent Isa.bare 0x40000000 idleProgram_has henter horig hleave
  -- the dispatcher leaves the slots alone, so they hold the zeros of the caller
  have hzero : ∀ i, i < 8 → slotX (idleEnter.run s1) i = 0 := by
    intro i hi
    exact (hgeneral.shown i (by omega)).trans (by rw [Cpu.readX]; split <;> rfl)
  have hq : s2.readV 0 = 0 := by
    rw [hin 0 (by omega), hzero 0 (by omega), hzero 1 (by omega)]
    decide
  have hone : idleCaller.readV 0 = 1 := rfl
  refine ⟨s1, s2, s3, s4, hrun, hone, hq, ?_⟩
  intro h
  have heq := h.qIn 0 (by omega)
  rw [hq, hone] at heq
  exact absurd heq (by decide)

end Calls

end Interceptor
end CalvinHook
