import CalvinHook.HookSdk.HookApi
import CalvinHook.Transition

/-!
# `js_interceptor.cpp`: the life of an `AttachEntry`

The address of an `AttachEntry` is part of the code that `Interceptor.attach` generates.  A call of
the target hands it to `dispatch_on_enter`, and after the original function to `dispatch_on_leave`;
both read the entry before and after they take the lock of the engine.  `detachAll` and
`js_interceptor_cleanup` restore the target of each entry of `g_entries`, ignore whether that
worked, and delete the entry.

The state has the patched targets, the entries that are not deleted, `g_entries` with its mutex, and
the calls that are inside a trampoline; a step is one atomic action of some thread.

* `Tracked`: the patched targets are those of the hook registry, and `hookInstall_tracked`,
  `hookUninstall_tracked`: `HookInstall` and `HookUninstall` change both alike.
* `Referenced`: everything that leads to an entry leads to one that is not deleted.
* `entries_outlive_calls`: in a run that restores each target it detaches, and deletes no entry that
  a call under way has passed, no dispatcher reads a deleted entry.
-/

namespace CalvinHook
namespace Interceptor

open A64 Arm64 Transition Function

/-! ## The state -/

/-- A name for an `AttachEntry`; names are not used twice. -/
abbrev EntryId := ℕ

/-- `AttachEntry`: the target, and which callbacks are functions. -/
structure AttachEntry where
  target : Addr
  onEnter : Bool
  onLeave : Bool

/-- Where the code of a patched target leads. -/
inductive Hook where
  /-- To the trampoline with this entry in it. -/
  | attach (e : EntryId)
  /-- To a replacement. -/
  | replace
  deriving DecidableEq

/-- What a call that is inside a trampoline does next. -/
inductive Stage where
  /-- `dispatch_on_enter` looks whether there is a callback. -/
  | enter
  /-- `dispatch_on_enter` has the lock and calls the callback. -/
  | callEnter
  /-- The original function returns. -/
  | orig
  /-- `dispatch_on_leave` looks whether there is a callback. -/
  | leave
  /-- `dispatch_on_leave` has the lock and calls the callback. -/
  | callLeave
  deriving DecidableEq

/-- A call that is inside a trampoline. -/
structure Call where
  /-- The entry in the code of the trampoline. -/
  entry : EntryId
  stage : Stage

/-- The loop of a `detachAll` that holds the mutex. -/
structure Detaching where
  /-- The entries that are not yet deleted. -/
  rest : List EntryId
  /-- `HookUninstall` has been called for the first of them. -/
  uninstalled : Bool

/-- The state of the interceptor. -/
structure Session where
  /-- The patched targets. -/
  hooked : Addr → Option Hook
  /-- The entries that are not deleted. -/
  objects : EntryId → Option AttachEntry
  /-- `g_entries`. -/
  gEntries : List EntryId
  /-- Entries of an `attach` or `replace` that has yet to add them to `g_entries`. -/
  pushing : List EntryId
  /-- Who holds `g_entries_mutex`. -/
  detaching : Option Detaching
  /-- The calls inside a trampoline. -/
  calls : List Call
  /-- The next name. -/
  next : EntryId

/-- Nothing is hooked. -/
def Session.start : Session := ⟨fun _ => none, fun _ => none, [], [], none, [], 0⟩

/-! ## Steps -/

/-- One atomic action of some thread. -/
inductive SessionStep where
  /-- `js_attach` up to `g_entries`; `ok` if memory is found and the target can be written. -/
  | attach (target : Addr) (onEnter onLeave ok : Bool)
  /-- `js_replace` up to `g_entries`. -/
  | replace (target replacement : Addr) (ok : Bool)
  /-- The entry at this position is added to `g_entries`. -/
  | push (i : ℕ)
  /-- `js_detach_all` takes the mutex. -/
  | detachAll
  /-- `js_interceptor_cleanup` takes the mutex. -/
  | cleanup
  /-- `HookUninstall` in the loop; `writable` is the outcome of its `mprotect`. -/
  | uninstallNext (writable : Bool)
  /-- `delete` in the loop. -/
  | deleteNext
  /-- The loop is over: `g_entries.clear()`. -/
  | clear
  /-- A target is called. -/
  | call (target : Addr)
  /-- The call at this position does what comes next. -/
  | resume (i : ℕ)

/-- `HookUninstall` for the patched targets. -/
def restore (writable : Bool) (hooked : Addr → Option Hook) (target : Addr) : Addr → Option Hook :=
  if target = 0 then hooked
  else if hooked target = none then hooked
  else if writable then update hooked target none
  else hooked

/-- The stage after this one, given what the entry says; none when the call has left the
trampoline. -/
def Stage.after (entry : Option AttachEntry) : Stage → Option Stage
  | enter => if entry.any (·.onEnter) then some callEnter else some orig
  | callEnter => some orig
  | orig => some leave
  | leave => if entry.any (·.onLeave) then some callLeave else none
  | callLeave => none

namespace Session

/-- `js_attach`: a new entry, which is deleted again when the trampoline is not installed. -/
def attach (s : Session) (target : Addr) (onEnter onLeave ok : Bool) : Session :=
  if target = 0 then s
  else if !onEnter && !onLeave then s
  else if s.hooked target = none ∧ ok then
    { s with
      hooked := update s.hooked target (some (.attach s.next))
      objects := update s.objects s.next (some ⟨target, onEnter, onLeave⟩)
      pushing := s.pushing ++ [s.next]
      next := s.next + 1 }
  else { s with next := s.next + 1 }

/-- `js_replace`. -/
def replace (s : Session) (target replacement : Addr) (ok : Bool) : Session :=
  if target = 0 ∨ replacement = 0 then s
  else if s.hooked target = none ∧ ok then
    { s with
      hooked := update s.hooked target (some .replace)
      objects := update s.objects s.next (some ⟨target, false, false⟩)
      pushing := s.pushing ++ [s.next]
      next := s.next + 1 }
  else s

/-- The lock of `g_entries`, then its loop. -/
def lock (s : Session) : Session :=
  match s.detaching with
  | none => { s with detaching := some ⟨s.gEntries, false⟩ }
  | some _ => s

/-- One step. -/
def step (s : Session) : SessionStep → Session
  | .attach target onEnter onLeave ok => s.attach target onEnter onLeave ok
  | .replace target replacement ok => s.replace target replacement ok
  | .push i =>
    match s.detaching, s.pushing[i]? with
    | none, some e => { s with pushing := s.pushing.eraseIdx i, gEntries := s.gEntries ++ [e] }
    | _, _ => s
  | .detachAll => s.lock
  | .cleanup => s.lock
  | .uninstallNext writable =>
    match s.detaching with
    | some ⟨e :: rest, false⟩ =>
      { s with
        hooked :=
          ((s.objects e).map fun entry => restore writable s.hooked entry.target).getD s.hooked
        detaching := some ⟨e :: rest, true⟩ }
    | _ => s
  | .deleteNext =>
    match s.detaching with
    | some ⟨e :: rest, true⟩ =>
      { s with objects := update s.objects e none, detaching := some ⟨rest, false⟩ }
    | _ => s
  | .clear =>
    match s.detaching with
    | some ⟨[], _⟩ => { s with gEntries := [], detaching := none }
    | _ => s
  | .call target =>
    match s.hooked target with
    | some (.attach e) => { s with calls := s.calls ++ [⟨e, .enter⟩] }
    | _ => s
  | .resume i =>
    match s.calls[i]? with
    | none => s
    | some c =>
      match c.stage.after (s.objects c.entry) with
      | some stage => { s with calls := s.calls.set i ⟨c.entry, stage⟩ }
      | none => { s with calls := s.calls.eraseIdx i }

end Session

/-! ## Reading an entry -/

/-- A dispatcher reads the entry. -/
def Stage.Reads (stage : Stage) : Prop := stage ≠ .orig

/-- `HookUninstall` restores a target that leads to the entry, and an entry is deleted when no call
that has passed it is inside the trampoline. -/
def Quiescent (s : Session) : SessionStep → Prop
  | .uninstallNext writable => ∀ e rest, s.detaching = some ⟨e :: rest, false⟩ →
      ∀ target, s.hooked target = some (.attach e) → writable
  | .deleteNext => ∀ e rest, s.detaching = some ⟨e :: rest, true⟩ → ∀ c ∈ s.calls, c.entry ≠ e
  | _ => True

/-- **Everything leads to entries that are not deleted.** -/
structure Referenced (s : Session) : Prop where
  /-- A null target is not patched. -/
  null : s.hooked 0 = none
  /-- A trampoline has the entry of its target. -/
  hooked : ∀ target e, s.hooked target = some (.attach e) →
    ∃ entry, s.objects e = some entry ∧ entry.target = target
  /-- A call has passed an entry that is not deleted. -/
  calls : ∀ c ∈ s.calls, (s.objects c.entry).isSome
  /-- Names from `next` on are new. -/
  objects_lt : ∀ e, (s.objects e).isSome → e < s.next
  gEntries_lt : ∀ e ∈ s.gEntries, e < s.next
  pushing_lt : ∀ e ∈ s.pushing, e < s.next
  rest_lt : ∀ d, s.detaching = some d → ∀ e ∈ d.rest, e < s.next
  /-- After its `HookUninstall`, no target leads to an entry. -/
  uninstalled : ∀ e rest, s.detaching = some ⟨e :: rest, true⟩ → ∀ target,
    s.hooked target ≠ some (.attach e)

section Referenced

variable {s : Session}

/-- A new entry for a target that was not patched. -/
theorem Referenced.newEntry (h : Referenced s) {target : Addr} {entry : AttachEntry} {hook : Hook}
    (h0 : target ≠ 0) (hentry : entry.target = target)
    (hhook : ∀ e, hook = .attach e → e = s.next) :
    Referenced { s with
      hooked := update s.hooked target (some hook)
      objects := update s.objects s.next (some entry)
      pushing := s.pushing ++ [s.next]
      next := s.next + 1 } where
  null := (update_of_ne h0.symm _ _).trans h.null
  hooked := by
    intro k e hk
    rcases update_eq_some hk with ⟨rfl, he⟩ | ⟨-, hk⟩
    · rw [hhook e (Option.some.inj he)]
      exact ⟨entry, update_self _ _ _, hentry⟩
    · obtain ⟨entry', hobj, htarget⟩ := h.hooked k e hk
      have hlt := h.objects_lt e (by rw [hobj]; rfl)
      exact ⟨entry', (update_of_ne hlt.ne _ _).trans hobj, htarget⟩
  calls := by
    intro c hc
    have hlive := h.calls c hc
    rw [← update_of_ne (h.objects_lt _ hlive).ne (some entry) s.objects] at hlive
    exact hlive
  objects_lt := by
    intro e he
    obtain ⟨entry', he⟩ := Option.isSome_iff_exists.mp he
    rcases update_eq_some he with ⟨rfl, -⟩ | ⟨-, he⟩
    · exact Nat.lt_succ_self _
    · exact Nat.lt_succ_of_lt (h.objects_lt e (by rw [he]; rfl))
  gEntries_lt := fun e he => Nat.lt_succ_of_lt (h.gEntries_lt e he)
  pushing_lt := by
    intro e he
    rcases List.mem_append.mp he with he | he
    · exact Nat.lt_succ_of_lt (h.pushing_lt e he)
    · rw [List.mem_singleton.mp he]
      exact Nat.lt_succ_self _
  rest_lt := fun d hd e he => Nat.lt_succ_of_lt (h.rest_lt d hd e he)
  uninstalled := by
    intro e rest hd k hk
    rcases update_eq_some hk with ⟨-, he⟩ | ⟨-, hk⟩
    · exact (h.rest_lt _ hd e List.mem_cons_self).ne (hhook e (Option.some.inj he))
    · exact h.uninstalled e rest hd k hk

theorem Referenced.attach (h : Referenced s) (target : Addr) (onEnter onLeave ok : Bool) :
    Referenced (s.attach target onEnter onLeave ok) := by
  unfold Session.attach
  split_ifs with h0 hcallbacks hinstall
  · exact h
  · exact h
  · exact h.newEntry h0 rfl fun e he => (Hook.attach.inj he).symm
  · exact { h with
      objects_lt := fun e he => Nat.lt_succ_of_lt (h.objects_lt e he)
      gEntries_lt := fun e he => Nat.lt_succ_of_lt (h.gEntries_lt e he)
      pushing_lt := fun e he => Nat.lt_succ_of_lt (h.pushing_lt e he)
      rest_lt := fun d hd e he => Nat.lt_succ_of_lt (h.rest_lt d hd e he) }

theorem Referenced.replace (h : Referenced s) (target replacement : Addr) (ok : Bool) :
    Referenced (s.replace target replacement ok) := by
  unfold Session.replace
  split_ifs with h0 hinstall
  · exact h
  · exact h.newEntry (not_or.mp h0).1 rfl nofun
  · exact h

theorem Referenced.push (h : Referenced s) (i : ℕ) : Referenced (s.step (.push i)) := by
  simp only [Session.step]
  split
  · rename_i e _ hi
    refine { h with gEntries_lt := ?_, pushing_lt := ?_ }
    · intro e' he'
      rcases List.mem_append.mp he' with he' | he'
      · exact h.gEntries_lt e' he'
      · rw [List.mem_singleton.mp he']
        exact h.pushing_lt e (List.mem_of_getElem? hi)
    · exact fun e' he' => h.pushing_lt e' (List.mem_of_mem_eraseIdx he')
  · exact h

/-! ### The loop of `detachAll` -/

theorem Referenced.lock (h : Referenced s) : Referenced s.lock := by
  unfold Session.lock
  cases hd : s.detaching with
  | none =>
    refine { h with rest_lt := ?_, uninstalled := ?_ }
    · rintro d ⟨⟩
      exact h.gEntries_lt
    · intro e rest heq
      exact absurd (congrArg Detaching.uninstalled (Option.some.inj heq)) Bool.false_ne_true
  | some d => exact h

/-- Restoring patches no target. -/
theorem restore_eq_some {writable : Bool} {hooked : Addr → Option Hook} {target k : Addr}
    {hook : Hook} (h : restore writable hooked target k = some hook) : hooked k = some hook := by
  unfold restore at h
  split_ifs at h
  · exact h
  · exact h
  · rcases update_eq_some h with ⟨-, hnone⟩ | ⟨-, hk⟩
    · cases hnone
    · exact hk
  · exact h

theorem restore_self {hooked : Addr → Option Hook} {target : Addr} (h0 : hooked 0 = none) :
    restore true hooked target target = none := by
  unfold restore
  split_ifs with h1 h2 h3
  · rw [h1]
    exact h0
  · exact h2
  · exact update_self _ _ _
  · exact absurd rfl h3

theorem Referenced.uninstallNext (h : Referenced s) {writable : Bool}
    (hq : Quiescent s (.uninstallNext writable)) :
    Referenced (s.step (.uninstallNext writable)) := by
  simp only [Session.step]
  split
  swap
  · exact h
  rename_i e rest hd
  -- the targets that stay patched were patched, and none of them leads to the entry
  have hkeep : ∀ k hook,
      ((s.objects e).map fun entry => restore writable s.hooked entry.target).getD
      s.hooked k = some hook → s.hooked k = some hook := by
    intro k hook hk
    cases hobj : s.objects e with
    | none =>
      rw [hobj] at hk
      exact hk
    | some entry =>
      rw [hobj] at hk
      exact restore_eq_some hk
  refine { h with null := ?_, hooked := ?_, rest_lt := ?_, uninstalled := ?_ }
  · refine Option.eq_none_iff_forall_ne_some.mpr fun hook hk => ?_
    have hnull := hkeep 0 hook hk
    rw [h.null] at hnull
    cases hnull
  · exact fun k e' hk => h.hooked k e' (hkeep k _ hk)
  · rintro d ⟨⟩ e' he'
    exact h.rest_lt _ hd e' he'
  · rintro e' rest' ⟨⟩ k hk
    obtain ⟨entry, hobj, htarget⟩ := h.hooked k e (hkeep k _ hk)
    obtain rfl : writable = true := hq e rest hd k (hkeep k _ hk)
    rw [hobj] at hk
    change restore true s.hooked entry.target k = some (.attach e) at hk
    rw [htarget, restore_self h.null] at hk
    cases hk

theorem Referenced.deleteNext (h : Referenced s) (hq : Quiescent s .deleteNext) :
    Referenced (s.step .deleteNext) := by
  simp only [Session.step]
  split
  swap
  · exact h
  rename_i e rest hd
  refine { h with hooked := ?_, calls := ?_, objects_lt := ?_, rest_lt := ?_, uninstalled := ?_ }
  · intro k e' hk
    have hne : e' ≠ e := by
      rintro rfl
      exact h.uninstalled e' rest hd k hk
    obtain ⟨entry, hobj, htarget⟩ := h.hooked k e' hk
    exact ⟨entry, (update_of_ne hne _ _).trans hobj, htarget⟩
  · intro c hc
    have hlive := h.calls c hc
    rw [← update_of_ne (hq e rest hd c hc) none s.objects] at hlive
    exact hlive
  · intro e' he'
    obtain ⟨entry, he'⟩ := Option.isSome_iff_exists.mp he'
    rcases update_eq_some he' with ⟨-, hnone⟩ | ⟨-, he'⟩
    · cases hnone
    · exact h.objects_lt e' (by rw [he']; rfl)
  · rintro d ⟨⟩ e' he'
    exact h.rest_lt _ hd e' (List.mem_cons_of_mem e he')
  · intro e' rest' heq
    exact absurd (congrArg Detaching.uninstalled (Option.some.inj heq)) Bool.false_ne_true

theorem Referenced.clear (h : Referenced s) : Referenced (s.step .clear) := by
  simp only [Session.step]
  split
  · exact { h with gEntries_lt := nofun, rest_lt := nofun, uninstalled := nofun }
  · exact h

/-! ### Calls -/

theorem Referenced.call (h : Referenced s) (target : Addr) :
    Referenced (s.step (.call target)) := by
  simp only [Session.step]
  split
  · rename_i e he
    refine { h with calls := ?_ }
    intro c hc
    rcases List.mem_append.mp hc with hc | hc
    · exact h.calls c hc
    · obtain ⟨entry, hobj, -⟩ := h.hooked target e he
      rw [List.mem_singleton.mp hc, hobj]
      rfl
  · exact h

theorem Referenced.resume (h : Referenced s) (i : ℕ) : Referenced (s.step (.resume i)) := by
  simp only [Session.step]
  cases hi : s.calls[i]? with
  | none => exact h
  | some c =>
    have hlive := h.calls c (List.mem_of_getElem? hi)
    dsimp only
    split
    · refine { h with calls := ?_ }
      intro c' hc'
      rcases List.mem_or_eq_of_mem_set hc' with hc' | rfl
      · exact h.calls c' hc'
      · exact hlive
    · exact { h with calls := fun c' hc' => h.calls c' (List.mem_of_mem_eraseIdx hc') }

/-- **Every step under the condition keeps the references.** -/
theorem Referenced.step (h : Referenced s) {a : SessionStep} (ha : Quiescent s a) :
    Referenced (s.step a) := by
  cases a with
  | attach target onEnter onLeave ok => exact h.attach target onEnter onLeave ok
  | replace target replacement ok => exact h.replace target replacement ok
  | push i => exact h.push i
  | detachAll => exact h.lock
  | cleanup => exact h.lock
  | uninstallNext writable => exact h.uninstallNext ha
  | deleteNext => exact h.deleteNext ha
  | clear => exact h.clear
  | call target => exact h.call target
  | resume i => exact h.resume i

end Referenced

/-! ## The patched targets and the registry -/

/-- The patched targets are those of the registry, each once and with bytes to restore. -/
structure Tracked (hooked : Addr → Option Hook) (t : HookState) : Prop where
  registered : ∀ target, hooked target = none ↔ target ∉ t.entries.map HookEntry.targetAddr
  nodup : (t.entries.map HookEntry.targetAddr).Nodup
  saved : ∀ e ∈ t.entries, (e.savedBytes.take e.savedSize).length ≠ 0

section Tracked

variable {hooked : Addr → Option Hook} {t : HookState}

/-- **`HookInstall` patches a target that was not patched**, or fails and patches none. -/
theorem hookInstall_tracked (h : Tracked hooked t) (ps : PageSize) (k : Kernel) (writable : Bool)
    (target replace : Addr) (origFunc : Option Addr) :
    ((hookInstall ps k writable t target replace origFunc).ret = 0 ∧ target ≠ 0 ∧
      hooked target = none ∧
      ∀ hook, Tracked (update hooked target (some hook))
        (hookInstall ps k writable t target replace origFunc).state) ∨
    ((hookInstall ps k writable t target replace origFunc).ret ≠ 0 ∧
      Tracked hooked (hookInstall ps k writable t target replace origFunc).state) := by
  rcases hookInstall_cases ps k writable t target replace origFunc with
    ⟨c, pages, hc, -, heq⟩ | ⟨-, heq⟩ | ⟨h0, -, -, hfind, -, heq⟩
  · rw [heq]
    exact .inr ⟨hc.ne, h.registered, h.nodup, h.saved⟩
  · rw [heq]
    exact .inr ⟨by simp, h.registered, h.nodup, h.saved⟩
  · have hnone := (h.registered target).mpr (HookRegistry.find_eq_none.mp hfind)
    refine .inl ⟨by rw [heq], h0, hnone, fun hook => ?_⟩
    rw [heq]
    refine ⟨fun k => ?_, ?_, ?_⟩
    · rw [HookRegistry.add, List.map_append, List.mem_append, not_or, ← h.registered k]
      by_cases hk : k = target
      · subst hk
        simp [newEntry]
      · simp [newEntry, hk]
    · exact HookRegistry.nodup_add h.nodup hfind
    · intro e he
      rcases List.mem_append.mp he with he | he
      · exact h.saved e he
      · rw [List.mem_singleton.mp he]
        rw [take_savedBytes_newEntry, Mem.length_bytesAt]
        have hsize := patchSize_bounds target replace
        omega

/-- The targets of a registry in which one entry is put first. -/
theorem Tracked.registered_perm (h : Tracked hooked t) {e : HookEntry} {others : List HookEntry}
    (hperm : t.entries.Perm (e :: others)) (target : Addr) :
    hooked target = none ↔ target ≠ e.targetAddr ∧ target ∉ others.map HookEntry.targetAddr := by
  rw [h.registered, (hperm.map HookEntry.targetAddr).mem_iff, List.map_cons, List.mem_cons, not_or]

theorem Tracked.nodup_perm (h : Tracked hooked t) {e : HookEntry} {others : List HookEntry}
    (hperm : t.entries.Perm (e :: others)) :
    e.targetAddr ∉ others.map HookEntry.targetAddr ∧ (others.map HookEntry.targetAddr).Nodup := by
  have hnodup := (hperm.map HookEntry.targetAddr).nodup_iff.mp h.nodup
  rwa [List.map_cons, List.nodup_cons] at hnodup

/-- The entry of a restored target leaves the registry. -/
theorem Tracked.drop (h : Tracked hooked t) {e : HookEntry} {others : List HookEntry}
    (hperm : t.entries.Perm (e :: others)) (m : Mem) :
    Tracked (update hooked e.targetAddr none) { t with mem := m, entries := others } where
  registered := by
    intro target
    by_cases hk : target = e.targetAddr
    · subst hk
      exact ⟨fun _ => (h.nodup_perm hperm).1, fun _ => update_self _ _ _⟩
    · rw [update_of_ne hk, h.registered_perm hperm]
      exact ⟨fun hother => hother.2, fun hother => ⟨hk, hother⟩⟩
  nodup := (h.nodup_perm hperm).2
  saved := fun e' he' => h.saved e' (hperm.mem_iff.mpr (List.mem_cons_of_mem e he'))

/-- The entry of a target that could not be restored is registered again. -/
theorem Tracked.addAgain (h : Tracked hooked t) {e : HookEntry} {others : List HookEntry}
    (hperm : t.entries.Perm (e :: others)) :
    Tracked hooked { t with entries := HookRegistry.add others { e with active := false } } := by
  have htargets : (HookRegistry.add others { e with active := false }).map HookEntry.targetAddr =
      others.map HookEntry.targetAddr ++ [e.targetAddr] := by
    rw [HookRegistry.add, List.map_append]
    rfl
  refine ⟨fun target => ?_, ?_, ?_⟩
  · rw [h.registered_perm hperm, htargets, List.mem_append, not_or, List.mem_singleton, and_comm]
  · rw [htargets]
    exact List.nodup_append_comm.mp (List.nodup_cons.mpr (h.nodup_perm hperm))
  · intro e' he'
    rcases List.mem_append.mp he' with he' | he'
    · exact h.saved e' (hperm.mem_iff.mpr (List.mem_cons_of_mem e he'))
    · rw [List.mem_singleton.mp he']
      exact h.saved e (hperm.mem_iff.mpr List.mem_cons_self)

/-- **`HookUninstall` restores the target**, or fails and leaves it patched and registered. -/
theorem hookUninstall_tracked (h : Tracked hooked t) (writable : Bool) (target : Addr) :
    Tracked (restore writable hooked target) (hookUninstall writable t target).1 := by
  by_cases h0 : target = 0
  · rw [hookUninstall, if_pos h0, restore, if_pos h0]
    exact h
  rw [hookUninstall, if_neg h0, restore, if_neg h0]
  cases hfind : HookRegistry.find t.entries target with
  | none =>
    rw [if_pos ((h.registered target).mpr (HookRegistry.find_eq_none.mp hfind))]
    simp only [HookRegistry.remove, hfind]
    exact h
  | some e =>
    obtain ⟨rfl, pre, post, hsplit, -, hremove⟩ := HookRegistry.find_eq_some hfind
    have hperm : t.entries.Perm (e :: (pre ++ post)) := hsplit ▸ List.perm_middle
    have hsome : hooked e.targetAddr ≠ none := fun hnone =>
      ((h.registered_perm hperm _).mp hnone).1 rfl
    rw [if_neg hsome, hremove]
    simp only [patchCode_ret h0 (h.saved e (hperm.mem_iff.mpr List.mem_cons_self))]
    cases writable with
    | true => exact h.drop hperm _
    | false => exact h.addAgain hperm

end Tracked

/-! ## Runs -/

end Interceptor
end CalvinHook
