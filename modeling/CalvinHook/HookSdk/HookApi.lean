import CalvinHook.HookSdk.MemoryAllocator
import CalvinHook.HookSdk.Relocator
import CalvinHook.HookSdk.Trampoline

/-!
# `hook_api.cpp`, `hook_registry.cpp`, `code_patch.cpp`: installing and removing hooks

The state is the memory of the process, the registry and the pages of the allocator.  A call also
depends on the kernel: what `mmap` answers (`Kernel`), and whether the `mprotect` of `PatchCode`
that makes the target writable succeeds.  The results of the other `mprotect` calls are ignored by
the code, and the code page they are for is taken to be writable while it is written.

`hookInstall_cases` and `hookUninstall_cases` list what a call can do; everything about runs is
derived from them.
-/

namespace CalvinHook

open A64 Arm64

/-- `HookEntry`; `savedBytes` are the 32 bytes of the array. -/
structure HookEntry where
  targetAddr : Addr
  replaceAddr : Addr
  origFunc : Addr
  savedBytes : List Byte
  savedSize : ℕ
  relocatedMem : Addr
  relocatedSize : ℕ
  active : Bool
  deriving DecidableEq, Repr

/-! ## `HookRegistry` -/

namespace HookRegistry

/-- `Add`. -/
def add (entries : List HookEntry) (entry : HookEntry) : List HookEntry := entries ++ [entry]

/-- `Find`. -/
def find (entries : List HookEntry) (target : Addr) : Option HookEntry :=
  entries.find? fun e => e.targetAddr == target

/-- `Remove`: the entry, if there is one, and the registry without it. -/
def remove (entries : List HookEntry) (target : Addr) : Option HookEntry × List HookEntry :=
  (find entries target, entries.eraseP fun e => e.targetAddr == target)

theorem find_eq_none {entries : List HookEntry} {target : Addr} :
    find entries target = none ↔ target ∉ entries.map HookEntry.targetAddr := by
  rw [find, List.find?_eq_none, List.mem_map, not_exists]
  constructor
  · rintro h e ⟨he, heq⟩
    exact h e he (by simpa using heq)
  · intro h e he heq
    exact h e ⟨he, by simpa using heq⟩

/-- A target that is not found is added once. -/
theorem nodup_add {entries : List HookEntry} {e : HookEntry}
    (h : (entries.map HookEntry.targetAddr).Nodup) (hfind : find entries e.targetAddr = none) :
    ((add entries e).map HookEntry.targetAddr).Nodup := by
  rw [add, List.map_append, List.map_singleton]
  exact List.nodup_append_comm.mp (List.nodup_cons.mpr ⟨find_eq_none.mp hfind, h⟩)

theorem find_eq_some {entries : List HookEntry} {target : Addr} {e : HookEntry}
    (h : find entries target = some e) :
    e.targetAddr = target ∧ ∃ pre post, entries = pre ++ e :: post ∧
      target ∉ pre.map HookEntry.targetAddr ∧
      remove entries target = (some e, pre ++ post) := by
  have hmem := List.mem_of_find?_eq_some h
  have heq : e.targetAddr = target := by simpa using List.find?_some h
  obtain ⟨-, pre, post, hsplit, hpre⟩ := List.find?_eq_some_iff_append.mp h
  refine ⟨heq, pre, post, hsplit, ?_, ?_⟩
  · intro hin
    rw [List.mem_map] at hin
    obtain ⟨e', he', rfl⟩ := hin
    simpa using hpre e' he'
  · rw [remove, h, hsplit, List.eraseP_append_right]
    · rw [List.eraseP_cons_of_pos (by simpa using heq)]
    · intro e' he'
      simpa using hpre e' he'

end HookRegistry

/-! ## `PatchCode` -/

/-- `PatchCode`: the return code and the memory afterwards.  `writable` is the outcome of the
`mprotect` that makes the target writable. -/
def patchCode (writable : Bool) (m : Mem) (target : Addr) (patch : List Byte) : ℤ × Mem :=
  if target = 0 ∨ patch.length = 0 then (-1, m)
  else if writable then (0, m.writeBytes target patch) else (-1, m)

/-! ## `HookInstall` and `HookUninstall` -/

/-- The memory, the registry and the pages of the allocator. -/
structure HookState where
  mem : Mem
  entries : List HookEntry
  pages : List LinearPage

/-- The state after a call, its return code, and `*orig_func`. -/
structure HookResult where
  state : HookState
  ret : ℤ
  origFunc : Option Addr

/-- The size `HookInstall` asks the allocator for. -/
def maxRelocSize (patchSize : ℕ) : ℕ := patchSize / 4 * 20 + 64

/-- `saved_bytes` after the backup: the bytes at the target, then zeros up to 32. -/
def backup (m : Mem) (target : Addr) (size : ℕ) : List Byte :=
  m.bytesAt target size ++ List.replicate (32 - size) 0

theorem take_backup (m : Mem) (target : Addr) (size : ℕ) :
    (backup m target size).take size = m.bytesAt target size :=
  List.take_left' (Mem.length_bytesAt _ _ _)

/-- `HookInstall`.  `origFunc` is `none` for a null pointer, otherwise the value it points to. -/
def hookInstall (ps : PageSize) (k : Kernel) (writable : Bool) (s : HookState)
    (target replace : Addr) (origFunc : Option Addr) : HookResult :=
  if target = 0 ∨ replace = 0 ∨ origFunc = none then ⟨s, -1, origFunc⟩
  else if (HookRegistry.find s.entries target).isSome then ⟨s, -2, origFunc⟩
  else
    let patch := buildJumpPatch target replace
    if patch.code.length = 0 then ⟨s, -3, origFunc⟩
    else
      let alloc := NearCodeAllocator.allocNearCode ps k
        (BitVec.ofNat 64 (maxRelocSize patch.patchSize)) target kMaxBRange s.pages
      let relocatedMem := alloc.2
      let s := { s with pages := alloc.1 }
      if relocatedMem = 0 then ⟨s, -4, origFunc⟩
      else
        let relocated := buildRelocatedCode s.mem target patch.patchSize
        if relocated.length = 0 then ⟨s, -5, origFunc⟩
        else
          let s := { s with mem := s.mem.writeBytes relocatedMem (wordBytes relocated) }
          let entry : HookEntry :=
            { targetAddr := target
              replaceAddr := replace
              origFunc := relocatedMem
              savedBytes := backup s.mem target patch.patchSize
              savedSize := patch.patchSize
              relocatedMem := relocatedMem
              relocatedSize := 4 * relocated.length
              active := true }
          let patched := patchCode writable s.mem target (patchBytes target replace)
          if patched.1 ≠ 0 then ⟨s, -6, origFunc⟩
          else
            ⟨{ s with mem := patched.2, entries := HookRegistry.add s.entries entry }, 0,
              some entry.origFunc⟩

/-- `HookUninstall`. -/
def hookUninstall (writable : Bool) (s : HookState) (target : Addr) : HookState × ℤ :=
  if target = 0 then (s, -1)
  else
    match HookRegistry.remove s.entries target with
    | (none, _) => (s, -2)
    | (some entry, entries) =>
      let patched := patchCode writable s.mem target (entry.savedBytes.take entry.savedSize)
      if patched.1 ≠ 0 then
        ({ s with entries := HookRegistry.add entries { entry with active := false } }, -3)
      else ({ s with mem := patched.2, entries := entries }, 0)

/-! ## The size of the relocated code -/

section RelocatedSize

variable (m : Mem) (target replace : Addr)

theorem buildRelocatedCode_eq_final :
    buildRelocatedCode m target (buildJumpPatch target replace).patchSize =
      (blockFragment target
        (wordsAt m target ((buildJumpPatch target replace).patchSize / 4))).final := by
  have h4 := patchSize_eq_four_mul target replace
  have hsize := patchSize_bounds target replace
  have hpos : 0 < (buildJumpPatch target replace).patchSize / 4 := by omega
  rw [← buildRelocatedCode_eq m target hpos, ← h4]

theorem length_buildRelocatedCode_pos :
    0 < (buildRelocatedCode m target (buildJumpPatch target replace).patchSize).length := by
  rw [buildRelocatedCode_eq_final]
  exact length_blockFragment_final_pos _ _

/-- The relocated code is no longer than what is asked for. -/
theorem length_buildRelocatedCode_le_maxRelocSize :
    4 * (buildRelocatedCode m target (buildJumpPatch target replace).patchSize).length ≤
      maxRelocSize (buildJumpPatch target replace).patchSize := by
  have hle := length_blockFragment_final_le target
    (wordsAt m target ((buildJumpPatch target replace).patchSize / 4))
  rw [length_wordsAt] at hle
  rw [buildRelocatedCode_eq_final, maxRelocSize]
  omega

theorem maxRelocSize_le : maxRelocSize (buildJumpPatch target replace).patchSize ≤ 4096 := by
  have hsize := patchSize_bounds target replace
  rw [maxRelocSize]
  omega

end RelocatedSize

/-! ## What a call can do -/

theorem patchCode_eq {writable : Bool} {m : Mem} {target : Addr} {patch : List Byte}
    (h : (patchCode writable m target patch).1 = 0) :
    (patchCode writable m target patch).2 = m.writeBytes target patch := by
  unfold patchCode at h ⊢
  split_ifs at h ⊢ with h0 hw
  · exact absurd h (by simp)
  · rfl
  · exact absurd h (by simp)

theorem patchCode_ret {writable : Bool} {m : Mem} {target : Addr} {patch : List Byte}
    (h0 : target ≠ 0) (hlen : patch.length ≠ 0) :
    (patchCode writable m target patch).1 = if writable then 0 else -1 := by
  rw [patchCode, if_neg (not_or.mpr ⟨h0, hlen⟩)]
  split_ifs <;> rfl

/-- The pages after `HookInstall` has asked for memory, and the block it got. -/
def relocatedBlock (ps : PageSize) (k : Kernel) (s : HookState) (target replace : Addr) :
    List LinearPage × Addr :=
  NearCodeAllocator.allocNearCode ps k
    (BitVec.ofNat 64 (maxRelocSize (buildJumpPatch target replace).patchSize)) target kMaxBRange
    s.pages

/-- The memory after the relocated code is written. -/
def memWithCopy (ps : PageSize) (k : Kernel) (s : HookState) (target replace : Addr) : Mem :=
  s.mem.writeBytes (relocatedBlock ps k s target replace).2
    (wordBytes (buildRelocatedCode s.mem target (buildJumpPatch target replace).patchSize))

/-- The entry a successful install registers. -/
def newEntry (ps : PageSize) (k : Kernel) (s : HookState) (target replace : Addr) : HookEntry :=
  { targetAddr := target
    replaceAddr := replace
    origFunc := (relocatedBlock ps k s target replace).2
    savedBytes := backup (memWithCopy ps k s target replace) target
      (buildJumpPatch target replace).patchSize
    savedSize := (buildJumpPatch target replace).patchSize
    relocatedMem := (relocatedBlock ps k s target replace).2
    relocatedSize :=
      4 * (buildRelocatedCode s.mem target (buildJumpPatch target replace).patchSize).length
    active := true }

/-- The bytes a new entry gives back are those at its target. -/
theorem take_savedBytes_newEntry (ps : PageSize) (k : Kernel) (s : HookState)
    (target replace : Addr) :
    (newEntry ps k s target replace).savedBytes.take (newEntry ps k s target replace).savedSize =
      (memWithCopy ps k s target replace).bytesAt target
        (buildJumpPatch target replace).patchSize :=
  take_backup _ _ _

/-- **What `HookInstall` can do**: fail before it writes, fail when the patch cannot be written, or
succeed. -/
theorem hookInstall_cases (ps : PageSize) (k : Kernel) (writable : Bool) (s : HookState)
    (target replace : Addr) (origFunc : Option Addr) :
    (∃ c pages, c < 0 ∧ (pages = s.pages ∨ pages = (relocatedBlock ps k s target replace).1) ∧
      hookInstall ps k writable s target replace origFunc =
        ⟨{ s with pages := pages }, c, origFunc⟩) ∨
    ((relocatedBlock ps k s target replace).2 ≠ 0 ∧
      hookInstall ps k writable s target replace origFunc =
        ⟨⟨memWithCopy ps k s target replace, s.entries, (relocatedBlock ps k s target replace).1⟩,
          -6, origFunc⟩) ∨
    (target ≠ 0 ∧ replace ≠ 0 ∧ origFunc ≠ none ∧ HookRegistry.find s.entries target = none ∧
      (relocatedBlock ps k s target replace).2 ≠ 0 ∧
      hookInstall ps k writable s target replace origFunc =
        ⟨⟨(memWithCopy ps k s target replace).writeBytes target (patchBytes target replace),
            HookRegistry.add s.entries (newEntry ps k s target replace),
            (relocatedBlock ps k s target replace).1⟩, 0,
          some (relocatedBlock ps k s target replace).2⟩) := by
  unfold hookInstall
  dsimp only
  split_ifs with h1 h2 h3 h4 h5 h6
  · exact Or.inl ⟨-1, s.pages, by omega, Or.inl rfl, rfl⟩
  · exact Or.inl ⟨-2, s.pages, by omega, Or.inl rfl, rfl⟩
  · exact Or.inl ⟨-3, s.pages, by omega, Or.inl rfl, rfl⟩
  · exact Or.inl ⟨-4, _, by omega, Or.inr rfl, rfl⟩
  · exact Or.inl ⟨-5, _, by omega, Or.inr rfl, rfl⟩
  · exact Or.inr (Or.inl ⟨h4, rfl⟩)
  · rw [not_or, not_or] at h1
    rw [not_not] at h6
    have hfind : HookRegistry.find s.entries target = none := by
      simpa using h2
    refine Or.inr (Or.inr ⟨h1.1, h1.2.1, h1.2.2, hfind, h4, ?_⟩)
    rw [patchCode_eq h6]
    rfl

/-- **What `HookUninstall` can do**: find nothing, fail to write and register the entry again, or
restore the saved bytes. -/
theorem hookUninstall_cases (writable : Bool) (s : HookState) (target : Addr) :
    (∃ c, c < 0 ∧ hookUninstall writable s target = (s, c)) ∨
    ∃ e pre post, s.entries = pre ++ e :: post ∧ e.targetAddr = target ∧
      (hookUninstall writable s target =
          ({ s with entries := pre ++ post ++ [{ e with active := false }] }, -3) ∨
        hookUninstall writable s target =
          (⟨s.mem.writeBytes target (e.savedBytes.take e.savedSize), pre ++ post, s.pages⟩,
            0)) := by
  unfold hookUninstall
  split_ifs with h0
  · exact Or.inl ⟨-1, by omega, rfl⟩
  · cases hfind : HookRegistry.find s.entries target with
    | none =>
      refine Or.inl ⟨-2, by omega, ?_⟩
      simp only [HookRegistry.remove, hfind]
    | some e =>
      obtain ⟨htarget, pre, post, hsplit, -, hremove⟩ := HookRegistry.find_eq_some hfind
      refine Or.inr ⟨e, pre, post, hsplit, htarget, ?_⟩
      rw [hremove]
      dsimp only
      split_ifs with hp
      · exact Or.inl rfl
      · rw [not_not] at hp
        rw [patchCode_eq hp]
        exact Or.inr rfl

/-! ## The calls that install -/

section Installs

variable (ps : PageSize) (k : Kernel) (s : HookState) (target replace : Addr)
  (origFunc : Option Addr)

/-- The call is let through to the point where it writes. -/
structure Installs : Prop where
  target_ne : target ≠ 0
  replace_ne : replace ≠ 0
  origFunc_ne : origFunc ≠ none
  unhooked : HookRegistry.find s.entries target = none
  block_ne : (relocatedBlock ps k s target replace).2 ≠ 0

variable {ps k s target replace origFunc} {writable : Bool}

/-- The checks such a call passes, and what the last one comes to. -/
theorem Installs.checks (h : Installs ps k s target replace origFunc) :
    ¬ (target = 0 ∨ replace = 0 ∨ origFunc = none) ∧
      (buildJumpPatch target replace).code.length ≠ 0 ∧
      (buildRelocatedCode s.mem target (buildJumpPatch target replace).patchSize).length ≠ 0 ∧
      ∀ writable m, (patchCode writable m target (patchBytes target replace)).1 =
        if writable then 0 else -1 := by
  have hsize := patchSize_bounds target replace
  refine ⟨?_, ?_, (length_buildRelocatedCode_pos s.mem target replace).ne', fun writable m => ?_⟩
  · rintro (h1 | h1 | h1)
    · exact h.target_ne h1
    · exact h.replace_ne h1
    · exact h.origFunc_ne h1
  · have hle := patchSize_le_code target replace
    omega
  · have hlen : (patchBytes target replace).length ≠ 0 := by
      rw [length_patchBytes]
      omega
    exact patchCode_ret h.target_ne hlen

/-- What such a call returns. -/
theorem hookInstall_of_installs (h : Installs ps k s target replace origFunc) (writable : Bool) :
    (hookInstall ps k writable s target replace origFunc).ret = (if writable then 0 else -6) ∧
      (writable → (hookInstall ps k writable s target replace origFunc).origFunc =
        some (relocatedBlock ps k s target replace).2) := by
  obtain ⟨hargs, hcode, hlen, hpatch⟩ := h.checks
  have hblock :
      (NearCodeAllocator.allocNearCode ps k (BitVec.ofNat 64 (maxRelocSize (buildJumpPatch target
    replace).patchSize)) target kMaxBRange s.pages).2 ≠ 0 := h.block_ne
  rw [hookInstall, if_neg hargs, h.unhooked]
  simp only [Option.isSome_none, Bool.false_eq_true, if_false, if_neg hcode, if_neg hblock,
    if_neg hlen, hpatch]
  cases writable with
  | true => exact ⟨rfl, fun _ => rfl⟩
  | false => exact ⟨rfl, nofun⟩

/-- Other calls fail. -/
theorem hookInstall_of_not_installs (h : ¬ Installs ps k s target replace origFunc) :
    (hookInstall ps k writable s target replace origFunc).ret ≠ 0 := by
  rcases hookInstall_cases ps k writable s target replace origFunc with
    ⟨c, pages, hc, -, heq⟩ | ⟨-, heq⟩ | ⟨h1, h2, h3, h4, h5, -⟩
  · rw [heq]
    exact hc.ne
  · rw [heq]
    exact (by omega : (-6 : ℤ) ≠ 0)
  · exact absurd ⟨h1, h2, h3, h4, h5⟩ h

/-- **When `HookInstall` succeeds**, by what it finds before the call. -/
theorem hookInstall_ret_eq_zero_iff :
    (hookInstall ps k writable s target replace origFunc).ret = 0 ↔
      Installs ps k s target replace origFunc ∧ writable := by
  by_cases h : Installs ps k s target replace origFunc
  · rw [(hookInstall_of_installs h writable).1]
    cases writable <;> simp [h]
  · exact iff_of_false (hookInstall_of_not_installs h) fun hw => h hw.1

end Installs

/-! ## Calls and runs -/

/-- A call of the interface together with the answers of the kernel to it. -/
inductive HookCall where
  | install (k : Kernel) (writable : Bool) (target replace : Addr) (origFunc : Option Addr)
  | uninstall (writable : Bool) (target : Addr)

namespace HookCall

/-- The result of a call; `HookUninstall` has no `orig_func`. -/
def exec (ps : PageSize) (s : HookState) : HookCall → HookResult
  | install k writable target replace origFunc =>
      hookInstall ps k writable s target replace origFunc
  | uninstall writable target =>
      ⟨(hookUninstall writable s target).1, (hookUninstall writable s target).2, none⟩

/-- `*orig_func` before the call. -/
def origFunc : HookCall → Option Addr
  | install _ _ _ _ orig => orig
  | uninstall _ _ => none

end HookCall

/-- The state after a call. -/
def HookState.step (ps : PageSize) (s : HookState) (c : HookCall) : HookState := (c.exec ps s).state

section Calls

variable (ps : PageSize) (s : HookState) (k : Kernel) (writable : Bool) (target replace : Addr)
  (origFunc : Option Addr)

theorem HookCall.exec_install : HookCall.exec ps s (.install k writable target replace origFunc) =
    hookInstall ps k writable s target replace origFunc := rfl

theorem HookCall.exec_uninstall : HookCall.exec ps s (.uninstall writable target) =
    ⟨(hookUninstall writable s target).1, (hookUninstall writable s target).2, none⟩ := rfl

theorem HookState.step_install : s.step ps (.install k writable target replace origFunc) =
    (hookInstall ps k writable s target replace origFunc).state := rfl

theorem HookState.step_uninstall : s.step ps (.uninstall writable target) =
    (hookUninstall writable s target).1 := rfl

end Calls

end CalvinHook
