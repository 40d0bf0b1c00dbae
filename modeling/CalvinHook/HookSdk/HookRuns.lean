import CalvinHook.HookSdk.HookApi
import CalvinHook.Transition

/-!
# Runs of `HookInstall` and `HookUninstall`

A run is any list of calls, each with its own answers of the kernel.  As long as the patched windows
of the registered hooks overlap neither each other nor the pages of the allocator, the code memory
(everything outside these pages) is the initial one with the jump patches of the registered hooks
copied over it, and each entry holds the bytes its patch covers (`HookInv`, `hookInv_step`).

* `hook_runs_reversible` collects what follows for every prefix of a run.
* `windows_disjoint_iff` says when the windows stay disjoint: `HookInstall` compares targets only,
  so this is up to the caller.
-/

namespace CalvinHook

open A64 Arm64 NearCodeAllocator Transition

/-! ## Windows -/

/-- The bytes the entry's patch covers. -/
def HookEntry.Window (e : HookEntry) (x : Addr) : Prop := InRange e.targetAddr e.savedSize x

/-- The jump patch of the entry and where it stands. -/
def HookEntry.patch (e : HookEntry) : Addr × List Byte :=
  (e.targetAddr, patchBytes e.targetAddr e.replaceAddr)

/-- The windows of two entries share no address. -/
def HookEntry.Apart (e e' : HookEntry) : Prop :=
  A64.Apart e.targetAddr e.savedSize e'.targetAddr e'.savedSize

/-- The windows of any two registered entries are disjoint. -/
def HookState.WindowsDisjoint (s : HookState) : Prop := s.entries.Pairwise HookEntry.Apart

/-- The windows of the registered entries overlap neither each other nor the pages. -/
structure HookState.WindowsSeparate (s : HookState) : Prop where
  disjoint : s.WindowsDisjoint
  pages : ∀ e ∈ s.entries, ∀ x, e.Window x → ¬ InPages s.pages x

theorem HookEntry.Apart.symm {e e' : HookEntry} (h : e.Apart e') : e'.Apart e := A64.Apart.symm h

/-! ## The relocated code lies in the pages -/

section Block

variable {ps : PageSize} {k : Kernel} {s : HookState} {target replace x : Addr}

theorem watermarked_relocatedBlock (h : Watermarked s.pages) :
    Watermarked (relocatedBlock ps k s target replace).1 :=
  watermarked_allocNearCode (maxRelocSize_le target replace) h

theorem inPages_relocatedBlock (h : InPages s.pages x) :
    InPages (relocatedBlock ps k s target replace).1 x :=
  inPages_allocNearCode h

/-- Writing the relocated code changes nothing outside the pages. -/
theorem memWithCopy_of_not_inPages (h : Watermarked s.pages)
    (hr : (relocatedBlock ps k s target replace).2 ≠ 0)
    (hx : ¬ InPages (relocatedBlock ps k s target replace).1 x) :
    memWithCopy ps k s target replace x = s.mem x := by
  refine Mem.writeBytes_of_not_inRange fun hin => hx ?_
  rw [length_wordBytes] at hin
  exact inPages_of_inRange_block (maxRelocSize_le target replace)
    (length_buildRelocatedCode_le_maxRelocSize s.mem target replace) h hr hin

end Block

/-! ## The invariant -/

/-- The code memory is `m₀` with the registered patches over it, and each entry holds the bytes of
`m₀` that its patch covers. -/
structure HookInv (m₀ : Mem) (s : HookState) : Prop where
  targets : (s.entries.map HookEntry.targetAddr).Nodup
  size : ∀ e ∈ s.entries, e.savedSize = (buildJumpPatch e.targetAddr e.replaceAddr).patchSize
  saved : ∀ e ∈ s.entries, e.savedBytes.take e.savedSize = m₀.bytesAt e.targetAddr e.savedSize
  patched : ∀ e ∈ s.entries, ∀ x, e.Window x →
    s.mem x = (patchBytes e.targetAddr e.replaceAddr).getD (x - e.targetAddr).toNat 0
  clean : ∀ x, ¬ InPages s.pages x → (∀ e ∈ s.entries, ¬ e.Window x) → s.mem x = m₀ x
  watermarked : Watermarked s.pages

section Inv

variable {ps : PageSize} {k : Kernel} {m₀ : Mem} {s : HookState} {writable : Bool}
  {target replace : Addr} {origFunc : Option Addr}

/-- A change of memory inside the pages, and more pages. -/
theorem HookInv.of_pages {s' : HookState} (h : HookInv m₀ s) (hentries : s'.entries = s.entries)
    (hpages : ∀ x, InPages s.pages x → InPages s'.pages x)
    (hmem : ∀ x, ¬ InPages s'.pages x → s'.mem x = s.mem x) (hw : Watermarked s'.pages)
    (hsep : s'.WindowsSeparate) : HookInv m₀ s' where
  targets := by
    rw [hentries]
    exact h.targets
  size := by
    rw [hentries]
    exact h.size
  saved := by
    rw [hentries]
    exact h.saved
  patched := by
    intro e he x hx
    rw [hmem x (hsep.pages e he x hx)]
    rw [hentries] at he
    exact h.patched e he x hx
  clean := by
    intro x hx hout
    rw [hmem x hx]
    rw [hentries] at hout
    exact h.clean x (fun hin => hx (hpages x hin)) hout
  watermarked := hw

/-- The bytes at the target before a successful install are those of `m₀`. -/
theorem HookInv.mem_target (h : HookInv m₀ s) {e : HookEntry} {pages : List LinearPage}
    (hpages : ∀ x, InPages s.pages x → InPages pages x)
    (hapart : ∀ e' ∈ s.entries, e'.Apart e) (hout : ∀ x, e.Window x → ¬ InPages pages x) {x : Addr}
    (hx : e.Window x) : s.mem x = m₀ x := by
  refine h.clean x (fun hin => hout x hx (hpages x hin)) ?_
  intro e' he' hx'
  exact hapart e' he' x hx' hx

/-- A successful install keeps the invariant. -/
theorem HookInv.install (h : HookInv m₀ s) (hr : (relocatedBlock ps k s target replace).2 ≠ 0)
    (hfind : HookRegistry.find s.entries target = none) {s' : HookState}
    (hs' : s' = ⟨(memWithCopy ps k s target replace).writeBytes target (patchBytes target replace),
      HookRegistry.add s.entries (newEntry ps k s target replace),
      (relocatedBlock ps k s target replace).1⟩)
    (hsep : s'.WindowsSeparate) : HookInv m₀ s' := by
  subst hs'
  have hnew : newEntry ps k s target replace ∈
      HookRegistry.add s.entries (newEntry ps k s target replace) := by
    simp [HookRegistry.add]
  have hold : ∀ e ∈ s.entries, e ∈ HookRegistry.add s.entries (newEntry ps k s target replace) :=
    fun e he => List.mem_append_left _ he
  have hapart : ∀ e ∈ s.entries, e.Apart (newEntry ps k s target replace) := by
    have hd : (s.entries ++ [newEntry ps k s target replace]).Pairwise HookEntry.Apart :=
      hsep.disjoint
    rw [List.pairwise_append] at hd
    exact fun e he => hd.2.2 e he _ (List.mem_singleton_self _)
  have hlen : (patchBytes target replace).length = (newEntry ps k s target replace).savedSize :=
    length_patchBytes target replace
  -- outside the pages only the window of the new entry changes
  have hmem : ∀ x, ¬ InPages (relocatedBlock ps k s target replace).1 x →
      ¬ (newEntry ps k s target replace).Window x →
      (memWithCopy ps k s target replace).writeBytes target (patchBytes target replace) x =
        s.mem x := by
    intro x hx hw
    rw [Mem.writeBytes_of_not_inRange, memWithCopy_of_not_inPages h.watermarked hr hx]
    rw [hlen]
    exact hw
  refine ⟨?_, ?_, ?_, ?_, ?_, watermarked_relocatedBlock h.watermarked⟩
  · exact HookRegistry.nodup_add h.targets hfind
  · intro e he
    rcases List.mem_append.mp he with he | he
    · exact h.size e he
    · rw [List.mem_singleton] at he
      rw [he]
      rfl
  · intro e he
    rcases List.mem_append.mp he with he | he
    · exact h.saved e he
    · rw [List.mem_singleton] at he
      subst he
      have hle : (buildJumpPatch target replace).patchSize ≤ 2 ^ 64 :=
        (patchSize_bounds target replace).2.trans (by omega)
      rw [take_savedBytes_newEntry]
      refine Mem.bytesAt_congr (fun x hx => ?_) hle
      have hout := hsep.pages _ hnew
      rw [memWithCopy_of_not_inPages h.watermarked hr (hout x hx)]
      exact h.mem_target (fun _ => inPages_relocatedBlock) hapart hout hx
  · intro e he x hx
    rcases List.mem_append.mp he with he' | he'
    · refine (hmem x (hsep.pages e he x hx) fun hw => hapart e he' x hx hw).trans ?_
      exact h.patched e he' x hx
    · rw [List.mem_singleton] at he'
      subst he'
      refine Mem.writeBytes_of_inRange ?_
      rw [hlen]
      exact hx
  · intro x hx hout
    refine (hmem x hx (hout _ hnew)).trans ?_
    exact h.clean x (fun hin => hx (inPages_relocatedBlock hin)) fun e he => hout e (hold e he)

/-- A successful uninstall keeps the invariant. -/
theorem HookInv.uninstall (h : HookInv m₀ s) (hdisjoint : s.WindowsDisjoint) {e : HookEntry}
    {pre post : List HookEntry} (hsplit : s.entries = pre ++ e :: post) :
    HookInv m₀ ⟨s.mem.writeBytes e.targetAddr (e.savedBytes.take e.savedSize), pre ++ post,
      s.pages⟩ := by
  have he : e ∈ s.entries := by
    rw [hsplit]
    simp
  have hsub : ∀ e' ∈ pre ++ post, e' ∈ s.entries := by
    intro e' he'
    rw [hsplit]
    rcases List.mem_append.mp he' with h | h
    · exact List.mem_append_left _ h
    · exact List.mem_append_right _ (List.mem_cons_of_mem e h)
  have hapart : ∀ e' ∈ pre ++ post, e'.Apart e := by
    rw [HookState.WindowsDisjoint, hsplit, List.pairwise_append, List.pairwise_cons] at hdisjoint
    intro e' he'
    rcases List.mem_append.mp he' with h | h
    · exact hdisjoint.2.2 e' h e List.mem_cons_self
    · exact (hdisjoint.2.1.1 e' h).symm
  have hlen : (e.savedBytes.take e.savedSize).length = e.savedSize := by
    rw [h.saved e he, Mem.length_bytesAt]
  refine ⟨?_, fun e' he' => h.size e' (hsub e' he'), fun e' he' => h.saved e' (hsub e' he'), ?_, ?_,
    h.watermarked⟩
  · have hn := h.targets
    rw [hsplit] at hn
    exact (hn.sublist (((List.sublist_cons_self e post).append_left pre).map _))
  · intro e' he' x hx
    refine Eq.trans (Mem.writeBytes_of_not_inRange ?_) (h.patched e' (hsub e' he') x hx)
    rw [hlen]
    exact hapart e' he' x hx
  · intro x hx hout
    by_cases hw : e.Window x
    · -- the saved bytes come back
      have hin : InRange e.targetAddr (e.savedBytes.take e.savedSize).length x := by
        rw [hlen]
        exact hw
      refine (Mem.writeBytes_of_inRange hin).trans ?_
      rw [h.saved e he, Mem.getD_bytesAt _ _ hw, BitVec.ofNat_toNat, BitVec.setWidth_eq,
        add_sub_cancel]
    · refine Eq.trans (Mem.writeBytes_of_not_inRange ?_) (h.clean x hx ?_)
      · rw [hlen]
        exact hw
      · intro e' he'
        rw [hsplit, List.mem_append, List.mem_cons] at he'
        rcases he' with h' | rfl | h'
        · exact hout e' (List.mem_append_left _ h')
        · exact hw
        · exact hout e' (List.mem_append_right _ h')

/-- The invariant does not depend on the order of the registry or on the `active` flags. -/
theorem HookInv.readd (h : HookInv m₀ s) {e : HookEntry} {pre post : List HookEntry}
    (hsplit : s.entries = pre ++ e :: post) (b : Bool) :
    HookInv m₀ { s with entries := pre ++ post ++ [{ e with active := b }] } := by
  -- every entry of the new registry is one of the old ones, up to the flag
  have hback : ∀ e' ∈ pre ++ post ++ [{ e with active := b }],
      ∃ e₀ ∈ s.entries, ∃ b', e' = { e₀ with active := b' } := by
    intro e' he'
    rw [hsplit]
    rw [List.mem_append, List.mem_append, List.mem_singleton] at he'
    rcases he' with (h' | h') | rfl
    · exact ⟨e', by simp [h'], e'.active, rfl⟩
    · exact ⟨e', by simp [h'], e'.active, rfl⟩
    · exact ⟨e, by simp, b, rfl⟩
  refine ⟨?_, ?_, ?_, ?_, ?_, h.watermarked⟩
  · have hperm : ((pre ++ post ++ [{ e with active := b }]).map HookEntry.targetAddr).Perm
        (s.entries.map HookEntry.targetAddr) := by
      rw [hsplit, List.map_append, List.map_append, List.map_append, List.map_cons]
      exact (List.perm_append_singleton _ _).trans List.perm_middle.symm
    exact hperm.nodup_iff.mpr h.targets
  · intro e' he'
    obtain ⟨e₀, he₀, b', rfl⟩ := hback e' he'
    exact h.size e₀ he₀
  · intro e' he'
    obtain ⟨e₀, he₀, b', rfl⟩ := hback e' he'
    exact h.saved e₀ he₀
  · intro e' he' x hx
    obtain ⟨e₀, he₀, b', rfl⟩ := hback e' he'
    exact h.patched e₀ he₀ x hx
  · intro x hx hout
    refine h.clean x hx fun e' he' hw => ?_
    rw [hsplit, List.mem_append, List.mem_cons] at he'
    rcases he' with h' | rfl | h'
    · exact hout e' (by simp [h']) hw
    · exact hout { e' with active := b } (by simp) hw
    · exact hout e' (by simp [h']) hw

/-- **One call keeps the invariant.** -/
theorem hookInv_step (ps : PageSize) (h : HookInv m₀ s) (c : HookCall) (hsep : s.WindowsSeparate)
    (hsep' : (s.step ps c).WindowsSeparate) : HookInv m₀ (s.step ps c) := by
  cases c with
  | install k writable target replace origFunc =>
    rw [HookState.step_install] at hsep' ⊢
    rcases hookInstall_cases ps k writable s target replace origFunc with
      ⟨c, pages, -, hpages, heq⟩ | ⟨hr, heq⟩ | ⟨-, -, -, hfind, hr, heq⟩
    · rw [heq] at hsep' ⊢
      rcases hpages with rfl | rfl
      · exact h
      · exact h.of_pages rfl (fun _ => inPages_relocatedBlock) (fun _ _ => rfl)
          (watermarked_relocatedBlock h.watermarked) hsep'
    · rw [heq] at hsep' ⊢
      exact h.of_pages rfl (fun _ => inPages_relocatedBlock)
        (fun _ => memWithCopy_of_not_inPages h.watermarked hr)
        (watermarked_relocatedBlock h.watermarked) hsep'
    · rw [heq] at hsep' ⊢
      exact h.install hr hfind rfl hsep'
  | uninstall writable target =>
    rw [HookState.step_uninstall]
    rcases hookUninstall_cases writable s target with
      ⟨c, -, heq⟩ | ⟨e, pre, post, hsplit, rfl, heq | heq⟩
    · rw [heq]
      exact h
    · rw [heq]
      exact h.readd hsplit false
    · rw [heq]
      exact h.uninstall hsep.disjoint hsplit

/-- The code memory is the initial one overlaid with the registered patches. -/
theorem HookInv.mem_eq_overlay (h : HookInv m₀ s) (hdisjoint : s.WindowsDisjoint) {x : Addr}
    (hx : ¬ InPages s.pages x) : s.mem x = m₀.overlay (s.entries.map HookEntry.patch) x := by
  have hlen : ∀ e ∈ s.entries, e.patch.2.length = e.savedSize := fun e he => by
    rw [h.size e he]
    exact length_patchBytes _ _
  by_cases hw : ∃ e ∈ s.entries, e.Window x
  · obtain ⟨e, he, hex⟩ := hw
    rw [h.patched e he x hex]
    refine (Mem.overlay_of_inRange (p := e.patch) ?_ (List.mem_map_of_mem he) ?_).symm
    · rw [List.pairwise_map]
      refine hdisjoint.imp_of_mem fun {a b} ha hb hab => ?_
      rw [hlen a ha, hlen b hb]
      exact hab
    · rw [hlen e he]
      exact hex
  · rw [h.clean x hx fun e he hex => hw ⟨e, he, hex⟩]
    refine (Mem.overlay_of_forall_not_inRange fun p hp => ?_).symm
    rw [List.mem_map] at hp
    obtain ⟨e, he, rfl⟩ := hp
    rw [hlen e he]
    exact fun hex => hw ⟨e, he, hex⟩

/-- **A call that fails changes nothing that matters**: not the code memory, not the set of
registered targets, not `*orig_func`. -/
theorem exec_of_ret_neg (ps : PageSize) (hw : Watermarked s.pages) (c : HookCall)
    (hret : (c.exec ps s).ret < 0) :
    (∀ x, ¬ InPages (c.exec ps s).state.pages x → (c.exec ps s).state.mem x = s.mem x) ∧
    (∀ t, t ∈ (c.exec ps s).state.entries.map HookEntry.targetAddr ↔
      t ∈ s.entries.map HookEntry.targetAddr) ∧
    (c.exec ps s).origFunc = c.origFunc := by
  cases c with
  | install k writable target replace origFunc =>
    rw [HookCall.exec_install] at hret ⊢
    rcases hookInstall_cases ps k writable s target replace origFunc with
      ⟨c, pages, -, -, heq⟩ | ⟨hr, heq⟩ | ⟨-, -, -, -, -, heq⟩
    · rw [heq]
      exact ⟨fun _ _ => rfl, fun _ => Iff.rfl, rfl⟩
    · rw [heq]
      exact ⟨fun _ => memWithCopy_of_not_inPages hw hr, fun _ => Iff.rfl, rfl⟩
    · rw [heq] at hret
      exact absurd hret (lt_irrefl 0)
  | uninstall writable target =>
    rw [HookCall.exec_uninstall] at hret ⊢
    rcases hookUninstall_cases writable s target with
      ⟨c, -, heq⟩ | ⟨e, pre, post, hsplit, -, heq | heq⟩
    · rw [heq]
      exact ⟨fun _ _ => rfl, fun _ => Iff.rfl, rfl⟩
    · rw [heq]
      refine ⟨fun _ _ => rfl, fun t => ?_, rfl⟩
      show t ∈ (pre ++ post ++ [{ e with active := false }]).map HookEntry.targetAddr ↔ _
      rw [hsplit]
      simp only [List.map_append, List.map_cons, List.map_nil, List.mem_append, List.mem_cons,
        List.not_mem_nil, or_false]
      tauto
    · rw [heq] at hret
      exact absurd hret (lt_irrefl 0)

end Inv

/-! ## Where an entry comes from -/

section History

variable {ps : PageSize} {s₀ s : HookState} {cs : List HookCall}

/-- An entry after a call was there before, or the call installed it. -/
theorem mem_entries_step {c : HookCall} {e : HookEntry} (he : e ∈ (s.step ps c).entries) :
    (∃ e₀ ∈ s.entries, ∃ b, e = { e₀ with active := b }) ∨
    ∃ k writable orig, c = .install k writable e.targetAddr e.replaceAddr orig ∧
      (c.exec ps s).ret = 0 ∧ e = newEntry ps k s e.targetAddr e.replaceAddr ∧
      (relocatedBlock ps k s e.targetAddr e.replaceAddr).2 ≠ 0 ∧
      (s.step ps c).pages = (relocatedBlock ps k s e.targetAddr e.replaceAddr).1 := by
  cases c with
  | install k writable target replace origFunc =>
    rw [HookState.step_install] at he ⊢
    rw [HookCall.exec_install]
    rcases hookInstall_cases ps k writable s target replace origFunc with
      ⟨c, pages, -, -, heq⟩ | ⟨-, heq⟩ | ⟨-, -, -, -, hr, heq⟩
    · rw [heq] at he
      exact Or.inl ⟨e, he, e.active, rfl⟩
    · rw [heq] at he
      exact Or.inl ⟨e, he, e.active, rfl⟩
    · rw [heq] at he ⊢
      rcases List.mem_append.mp he with he | he
      · exact Or.inl ⟨e, he, e.active, rfl⟩
      · rw [List.mem_singleton] at he
        subst he
        exact Or.inr ⟨k, writable, origFunc, rfl, rfl, rfl, hr, rfl⟩
  | uninstall writable target =>
    rw [HookState.step_uninstall] at he
    rcases hookUninstall_cases writable s target with
      ⟨c, -, heq⟩ | ⟨e', pre, post, hsplit, -, heq | heq⟩
    · rw [heq] at he
      exact Or.inl ⟨e, he, e.active, rfl⟩
    · rw [heq] at he
      rcases List.mem_append.mp he with he | he
      · refine Or.inl ⟨e, ?_, e.active, rfl⟩
        rw [hsplit]
        rcases List.mem_append.mp he with h | h <;> simp [h]
      · rw [List.mem_singleton] at he
        refine Or.inl ⟨e', ?_, false, he⟩
        rw [hsplit]
        simp
    · rw [heq] at he
      refine Or.inl ⟨e, ?_, e.active, rfl⟩
      rw [hsplit]
      rcases List.mem_append.mp he with h | h <;> simp [h]

/-- Call `j` of the run installed the entry, its target is registered ever since up to call `i`, and
the entry holds the bytes that stood at the target before that call. -/
structure InstalledAt (ps : PageSize) (s₀ : HookState) (cs : List HookCall) (e : HookEntry)
    (j i : ℕ) : Prop where
  lt : j < i
  call : ∃ k writable orig,
    cs[j]? = some (.install k writable e.targetAddr e.replaceAddr orig) ∧
    (HookCall.exec ps (run (HookState.step ps) s₀ (cs.take j))
      (.install k writable e.targetAddr e.replaceAddr orig)).ret = 0
  since : ∀ l, j < l → l ≤ i →
    e.targetAddr ∈ (run (HookState.step ps) s₀ (cs.take l)).entries.map HookEntry.targetAddr
  saved : e.savedBytes.take e.savedSize =
    (run (HookState.step ps) s₀ (cs.take j)).mem.bytesAt e.targetAddr e.savedSize

/-- Every registered entry was installed by a call of the run. -/
theorem exists_installedAt (h0 : s₀.entries = [])
    (hinv : ∀ i, HookInv s₀.mem (run (HookState.step ps) s₀ (cs.take i)))
    (hsep : ∀ i, (run (HookState.step ps) s₀ (cs.take i)).WindowsSeparate) (i : ℕ)
    (hi : i ≤ cs.length) :
    ∀ e ∈ (run (HookState.step ps) s₀ (cs.take i)).entries, ∃ j, InstalledAt ps s₀ cs e j i := by
  induction i with
  | zero =>
    intro e he
    rw [List.take_zero, run_nil, h0] at he
    exact absurd he List.not_mem_nil
  | succ i ih =>
    intro e he
    obtain ⟨c, hc⟩ : ∃ c, cs[i]? = some c := ⟨_, List.getElem?_eq_getElem hi⟩
    have hmem := List.mem_map_of_mem (f := HookEntry.targetAddr) he
    have hrun : run (HookState.step ps) s₀ (cs.take (i + 1)) =
        (run (HookState.step ps) s₀ (cs.take i)).step ps c := run_take_succ hc
    have hsep' := hsep (i + 1)
    rw [hrun] at he hsep'
    rcases mem_entries_step he with ⟨e₀, he₀, b, rfl⟩ | ⟨k, writable, orig, rfl, hret, hnew, hr, hp⟩
    · obtain ⟨j, hj⟩ := ih (by omega) e₀ he₀
      refine ⟨j, Nat.lt_succ_of_lt hj.lt, hj.call, fun l hjl hli => ?_, hj.saved⟩
      rcases Nat.lt_or_ge i l with h | h
      · obtain rfl : l = i + 1 := by omega
        exact hmem
      · exact hj.since l hjl h
    · refine ⟨i, Nat.lt_succ_self i, ⟨k, writable, orig, hc, hret⟩, fun l hil hli => ?_, ?_⟩
      · obtain rfl : l = i + 1 := by omega
        exact hmem
      · have hsize : e.savedSize = (buildJumpPatch e.targetAddr e.replaceAddr).patchSize := by
          rw [hnew]
          rfl
        have hle : e.savedSize ≤ 2 ^ 64 := by
          rw [hsize]
          exact (patchSize_bounds e.targetAddr e.replaceAddr).2.trans (by omega)
        have hsaved : e.savedBytes = backup (memWithCopy ps k
            (run (HookState.step ps) s₀ (cs.take i)) e.targetAddr e.replaceAddr) e.targetAddr
            e.savedSize := by
          rw [hsize]
          exact congrArg HookEntry.savedBytes hnew
        rw [hsaved, take_backup]
        refine Mem.bytesAt_congr (fun x hx => ?_) hle
        refine memWithCopy_of_not_inPages (hinv i).watermarked hr ?_
        rw [← hp]
        exact hsep'.pages e he x hx

end History

/-! ## Runs -/

/-- **Hook runs are reversible.**  Along every run in which the windows of the registered hooks
overlap neither each other nor the allocator's pages, in every state: each target is registered at
most once; each entry holds the bytes that stood at its target before the call that installed it;
the code memory is the initial one overlaid with the jump patches of exactly the registered entries,
so that it is the initial one when no hook is registered; and a call that returns a negative code
leaves the code memory, the set of registered targets and `*orig_func` as they were. -/
theorem hook_runs_reversible (ps : PageSize) (s₀ : HookState) (cs : List HookCall)
    (h0 : s₀.entries = []) (hw : Watermarked s₀.pages)
    (hsep : AllStates (HookState.step ps) HookState.WindowsSeparate s₀ cs) (i : ℕ)
    (hi : i ≤ cs.length) :
    ((run (HookState.step ps) s₀ (cs.take i)).entries.map HookEntry.targetAddr).Nodup ∧
    (∀ e ∈ (run (HookState.step ps) s₀ (cs.take i)).entries, ∃ j, InstalledAt ps s₀ cs e j i) ∧
    (∀ x, ¬ InPages (run (HookState.step ps) s₀ (cs.take i)).pages x →
      (run (HookState.step ps) s₀ (cs.take i)).mem x =
        s₀.mem.overlay ((run (HookState.step ps) s₀ (cs.take i)).entries.map HookEntry.patch) x) ∧
    (∀ c, (HookCall.exec ps (run (HookState.step ps) s₀ (cs.take i)) c).ret < 0 →
      (∀ x, ¬ InPages (HookCall.exec ps (run (HookState.step ps) s₀ (cs.take i)) c).state.pages x →
        (HookCall.exec ps (run (HookState.step ps) s₀ (cs.take i)) c).state.mem x =
          (run (HookState.step ps) s₀ (cs.take i)).mem x) ∧
      (∀ t, t ∈ (HookCall.exec ps (run (HookState.step ps) s₀ (cs.take i)) c).state.entries.map
          HookEntry.targetAddr ↔
        t ∈ (run (HookState.step ps) s₀ (cs.take i)).entries.map HookEntry.targetAddr) ∧
      (HookCall.exec ps (run (HookState.step ps) s₀ (cs.take i)) c).origFunc = c.origFunc) ∧
    ((run (HookState.step ps) s₀ (cs.take i)).entries = [] →
      ∀ x, ¬ InPages (run (HookState.step ps) s₀ (cs.take i)).pages x →
        (run (HookState.step ps) s₀ (cs.take i)).mem x = s₀.mem x) := by
  have hinit : HookInv s₀.mem s₀ := by
    refine ⟨?_, ?_, ?_, ?_, fun _ _ _ => rfl, hw⟩ <;> rw [h0] <;> simp
  have hinv : ∀ i, HookInv s₀.mem (run (HookState.step ps) s₀ (cs.take i)) :=
    (hsep.invariant hinit fun s c h hs hs' => hookInv_step ps h c hs hs').run_take
  have hoverlay := fun x => (hinv i).mem_eq_overlay (hsep.run_take i).disjoint (x := x)
  refine ⟨(hinv i).targets, exists_installedAt h0 hinv hsep.run_take i hi, hoverlay, ?_, ?_⟩
  · intro c hret
    exact exec_of_ret_neg ps (hinv i).watermarked c hret
  · intro hnil x hx
    rw [hoverlay x hx, hnil]
    rfl

/-! ### Two calls -/

/-- A kernel without mappings whose `mmap` answers the page at `a`. -/
def Kernel.answering (a : Addr) : Kernel := ⟨[], fun _ => none, fun _ => none, some a⟩

/-- The state before any call, with zeros everywhere. -/
def blankState : HookState := ⟨fun _ => 0, [], []⟩

/-- Install a hook, then remove it. -/
def installUninstall : List HookCall :=
  [.install (.answering 0x30000000) true 0x10000000 0x20000000 (some 0), .uninstall true 0x10000000]

theorem windowsSeparate_of_entries_eq_nil {s : HookState} (h : s.entries = []) :
    s.WindowsSeparate := by
  refine ⟨?_, ?_⟩
  · rw [HookState.WindowsDisjoint, h]
    exact List.Pairwise.nil
  · rw [h]
    simp

/-- The state after the first of these calls. -/
def oneHook : HookState :=
  blankState.step PageSize.small
    (.install (.answering 0x30000000) true 0x10000000 0x20000000 (some 0))

theorem window_of_mem_oneHook :
    ∀ e ∈ oneHook.entries, e.targetAddr = 0x10000000 ∧ e.savedSize = 12 := by
  decide

theorem windowsSeparate_installUninstall :
    AllStates (HookState.step PageSize.small) HookState.WindowsSeparate blankState
      installUninstall := by
  refine ⟨windowsSeparate_of_entries_eq_nil rfl, ⟨?_, ?_⟩, windowsSeparate_of_entries_eq_nil ?_⟩
  · show oneHook.entries.Pairwise HookEntry.Apart
    have h : (oneHook.entries.map fun e => e.targetAddr) = [0x10000000] := by decide
    obtain ⟨e, he, -⟩ := List.map_eq_singleton_iff.mp h
    rw [he]
    exact List.pairwise_singleton _ _
  · have hpage : ∀ p ∈ oneHook.pages, p.base = 0x30000000 ∧ p.capacity = 4096 := by
      decide
    rintro e he x hx ⟨p, hp, hin⟩
    obtain ⟨h1, h2⟩ := window_of_mem_oneHook e he
    obtain ⟨h3, h4⟩ := hpage p hp
    rw [HookEntry.Window, h1, h2, InRange] at hx
    rw [h3, h4, InRange] at hin
    have h5 : (4096 : BitVec 32).toNat = 4096 := rfl
    rw [h5] at hin
    bv_omega
  · decide

theorem installUninstall_restores :
    (run (HookState.step PageSize.small) blankState installUninstall).entries = [] ∧
      (run (HookState.step PageSize.small) blankState installUninstall).mem 0x10000000 =
        blankState.mem 0x10000000 := by
  have hnil : (run (HookState.step PageSize.small) blankState installUninstall).entries = [] := by
    decide
  have hout : ¬ InPages (run (HookState.step PageSize.small) blankState installUninstall).pages
      0x10000000 := by
    rw [InPages]
    decide
  exact ⟨hnil, (hook_runs_reversible PageSize.small blankState installUninstall rfl
    (by simp [Watermarked, blankState]) windowsSeparate_installUninstall 2 (le_refl 2)).2.2.2.2 hnil
    0x10000000 hout⟩

/-! ## Disjoint windows -/

/-- An install that is let through, and whose target can be made writable, has a window that
overlaps no registered one.  Whether it is let through is what the call finds before it writes
anything. -/
def InstallsApart (ps : PageSize) (s : HookState) : HookCall → Prop
  | .install k writable target replace origFunc =>
      Installs ps k s target replace origFunc → writable → ∀ e ∈ s.entries,
        A64.Apart e.targetAddr e.savedSize target (buildJumpPatch target replace).patchSize
  | .uninstall _ _ => True

section Disjoint

variable {ps : PageSize} {s : HookState} {c : HookCall}

/-- A new window is behind those of before. -/
theorem windowsDisjoint_add {entries : List HookEntry} (h : entries.Pairwise HookEntry.Apart)
    (e : HookEntry) : (HookRegistry.add entries e).Pairwise HookEntry.Apart ↔
      ∀ e' ∈ entries, e'.Apart e := by
  rw [HookRegistry.add, List.pairwise_append]
  constructor
  · intro hd e' he'
    exact hd.2.2 e' he' e (List.mem_singleton_self e)
  · intro hap
    refine ⟨h, List.pairwise_singleton _ _, fun e' he' e'' he'' => ?_⟩
    rw [List.mem_singleton] at he''
    rw [he'']
    exact hap e' he'

/-- **One call keeps the windows disjoint exactly if** it does not install over a registered one. -/
theorem windowsDisjoint_step (h : s.WindowsDisjoint) :
    (s.step ps c).WindowsDisjoint ↔ InstallsApart ps s c := by
  cases c with
  | install k writable target replace origFunc =>
    have hret : (hookInstall ps k writable s target replace origFunc).ret = 0 ↔ _ :=
      hookInstall_ret_eq_zero_iff
    rw [InstallsApart, HookState.step_install]
    rcases hookInstall_cases ps k writable s target replace origFunc with
      ⟨c, pages, hc, -, heq⟩ | ⟨-, heq⟩ | ⟨-, -, -, -, -, heq⟩
    · -- an install that fails registers nothing
      rw [heq] at hret ⊢
      exact ⟨fun _ hi hw => absurd (hret.mpr ⟨hi, hw⟩) hc.ne, fun _ => h⟩
    · rw [heq] at hret ⊢
      exact ⟨fun _ hi hw => absurd (hret.mpr ⟨hi, hw⟩) (by simp), fun _ => h⟩
    · rw [heq] at hret ⊢
      obtain ⟨hi, hw⟩ := hret.mp rfl
      rw [HookState.WindowsDisjoint, windowsDisjoint_add h]
      exact ⟨fun hap _ _ => hap, fun hap => hap hi hw⟩
  | uninstall writable target =>
    rw [HookState.step_uninstall]
    refine ⟨fun _ => trivial, fun _ => ?_⟩
    rcases hookUninstall_cases writable s target with
      ⟨c, -, heq⟩ | ⟨e, pre, post, hsplit, -, heq | heq⟩
    · rw [heq]
      exact h
    · rw [heq]
      rw [HookState.WindowsDisjoint, hsplit] at h
      have hperm : (pre ++ e :: post).Perm (pre ++ post ++ [e]) :=
        List.perm_middle.trans (List.perm_append_singleton _ _).symm
      have hd := (hperm.pairwise_iff fun h => HookEntry.Apart.symm h).mp h
      rw [List.pairwise_append] at hd
      show (HookRegistry.add (pre ++ post) { e with active := false }).Pairwise HookEntry.Apart
      rw [windowsDisjoint_add hd.1]
      exact fun e' he' => hd.2.2 e' he' e (List.mem_singleton_self e)
    · rw [heq]
      rw [HookState.WindowsDisjoint, hsplit] at h
      exact h.sublist ((List.sublist_cons_self e post).append_left pre)

end Disjoint

/-- **When the windows stay disjoint.**  `HookInstall` looks a target up by its address only, so in
a run of any calls the windows of the registered hooks are disjoint in every state exactly if every
install that gets through its checks, of a target that can be written, has a window apart from those
registered at that time. -/
theorem windows_disjoint_iff (ps : PageSize) (s₀ : HookState) (cs : List HookCall)
    (h0 : s₀.entries = []) :
    AllStates (HookState.step ps) HookState.WindowsDisjoint s₀ cs ↔
      AllSteps (HookState.step ps) (InstallsApart ps) s₀ cs := by
  have hinit : s₀.WindowsDisjoint := by
    rw [HookState.WindowsDisjoint, h0]
    exact List.Pairwise.nil
  refine allStates_iff_allSteps (A := fun _ _ => True) (I := HookState.WindowsDisjoint) hinit
    (allSteps_of_forall (fun _ _ => trivial) _ _) (fun _ h => h) ?_ ?_
  · intro s c h _ hP
    exact (windowsDisjoint_step h).mpr hP
  · intro s c h _ hP hJ
    exact hP ((windowsDisjoint_step h).mp hJ)

/-- Two hooks that are 256 bytes apart, of which the first is removed again. -/
def twoTargets : List HookCall :=
  [.install (.answering 0x30000000) true 0x10000000 0x20000000 (some 0),
    .install (.answering 0x30001000) true 0x10000100 0x20000000 (some 0),
    .uninstall true 0x10000000]

theorem twoTargets_disjoint :
    AllStates (HookState.step PageSize.small) HookState.WindowsDisjoint blankState twoTargets := by
  refine (windows_disjoint_iff PageSize.small blankState twoTargets rfl).mpr
    ⟨fun _ _ => nofun, fun _ _ e he x hx hx' => ?_, trivial, trivial⟩
  obtain ⟨htarget, hsaved⟩ := window_of_mem_oneHook e he
  have hsize : (buildJumpPatch 0x10000100 0x20000000).patchSize = 12 := by decide
  rw [htarget, hsaved, A64.InRange] at hx
  rw [hsize, A64.InRange] at hx'
  bv_omega

/-- Two hooks whose targets are four bytes apart: both installs succeed, and the second window lies
in the first. -/
theorem adjacent_targets_overlap :
    let first := HookCall.install (.answering 0x30000000) true 0x10000000 0x20000000 (some 0)
    let second := HookCall.install (.answering 0x30001000) true 0x10000004 0x20000000 (some 0)
    (first.exec PageSize.small blankState).ret = 0 ∧
      (second.exec PageSize.small (blankState.step PageSize.small first)).ret = 0 ∧
      ¬ (run (HookState.step PageSize.small) blankState [first, second]).WindowsDisjoint := by
  intro first second
  refine ⟨by decide, by decide, fun h => ?_⟩
  have hwin : (run (HookState.step PageSize.small) blankState [first, second]).entries.map
      (fun e => (e.targetAddr, e.savedSize)) = [(0x10000000, 12), (0x10000004, 12)] := by
    decide
  have hd : ((run (HookState.step PageSize.small) blankState [first, second]).entries.map
      (fun e => (e.targetAddr, e.savedSize))).Pairwise fun p q => A64.Apart p.1 p.2 q.1 q.2 :=
    List.pairwise_map.mpr h
  rw [hwin, List.pairwise_cons] at hd
  exact hd.1 _ List.mem_cons_self 0x10000004 (by decide) (by decide)

end CalvinHook
