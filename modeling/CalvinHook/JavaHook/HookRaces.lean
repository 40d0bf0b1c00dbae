import CalvinHook.JavaHook.HookBridge

/-!
# Hooking and unhooking in several threads

`hookMethod` finds or makes the entry of a method in a synchronized block and adds the callback
after the block; `unhookMethod` removes a callback, and the entry with it when no callback is left,
in one block.  Between the two halves of a `hookMethod` another thread may therefore remove the
entry, and the callback is then added to an entry that nothing refers to.

* `Raced`: every call between its halves holds the entry of its method, and every callback whose
  last call was a `hookMethod` is in the entry of its method.
* `Raced.step`: kept by every step but the removal of an entry that some call holds.
* `no_callback_lost`: runs without such a removal lose no callback.
-/

namespace CalvinHook
namespace Java

open Transition Function

variable {M C : Type*} [DecidableEq M] [DecidableEq C]

/-- A `hookMethod` that has left its synchronized block and not yet added its callback. -/
structure PendingAdd (M C : Type*) where
  /-- The method. -/
  method : M
  /-- The entry it has looked up. -/
  entry : EntryId
  /-- The callback. -/
  callback : C

/-- The bridge, the calls between their halves, and the last call that has returned for each method
and callback: true for `hookMethod`, false for `unhookMethod`. -/
structure Threads (M C : Type*) where
  /-- The shared state. -/
  bridge : Bridge M C
  /-- The calls of `hookMethod` under way. -/
  pending : List (PendingAdd M C)
  /-- The last call that has returned. -/
  last : M → C → Option Bool

/-- No call has been made. -/
def Threads.start : Threads M C := ⟨Bridge.empty, [], fun _ _ => none⟩

/-- An atomic step of some thread; the native functions succeed. -/
inductive ThreadStep (M C : Type*) where
  /-- The synchronized block of a `hookMethod`. -/
  | lookup (m : M) (c : C)
  /-- `entry.callbacks.add` of the call under way at this position, which then returns. -/
  | add (i : ℕ)
  /-- An `unhookMethod`. -/
  | unhookMethod (m : M) (c : C)

variable (hookable : M → Bool) (compareLe : C → C → Bool)

/-- One atomic step. -/
def Threads.step (s : Threads M C) : ThreadStep M C → Threads M C
  | .lookup m c =>
    if hookable m then
      match s.bridge.lookup m true with
      | none => s
      | some (b, e) => { s with bridge := b, pending := s.pending ++ [⟨m, e, c⟩] }
    else s
  | .add i =>
    match s.pending[i]? with
    | none => s
    | some p =>
      { bridge := s.bridge.setCallbacks p.entry
          (add compareLe (s.bridge.callbacks p.entry) p.callback)
        pending := s.pending.eraseIdx i
        last := update s.last p.method (update (s.last p.method) p.callback (some true)) }
  | .unhookMethod m c =>
    { s with
      bridge := s.bridge.unhookMethod m c true
      last := update s.last m (update (s.last m) c (some false)) }

/-- Once all calls have returned, every callback whose last call was a `hookMethod` is in the entry
stored for its method, and the method is hooked in the runtime with this entry. -/
def NoneLost (s : Threads M C) : Prop :=
  s.pending = [] → ∀ m c, s.last m c = some true →
    ∃ e, s.bridge.entries m = some e ∧ c ∈ s.bridge.callbacks e ∧ s.bridge.native m = some e

/-- An `unhookMethod` does not remove the entry that a `hookMethod` under way has looked up. -/
def KeepsHeld (s : Threads M C) : ThreadStep M C → Prop
  | .unhookMethod m c => ∀ e, s.bridge.entries m = some e → remove (s.bridge.callbacks e) c = [] →
      ∀ p ∈ s.pending, p.entry ≠ e
  | _ => True

/-- **Nothing is lost so far.** -/
structure Raced (s : Threads M C) : Prop where
  /-- The map and the runtime are one table. -/
  linked : Linked s.bridge
  /-- A call under way holds the entry of its method. -/
  held : ∀ p ∈ s.pending, s.bridge.entries p.method = some p.entry
  /-- A callback that was hooked last is in the entry of its method. -/
  kept : ∀ m c, s.last m c = some true → ∃ e, s.bridge.entries m = some e ∧ c ∈ s.bridge.callbacks e

section Raced

variable {s : Threads M C}

omit [DecidableEq M] [DecidableEq C] in
theorem raced_start : Raced (Threads.start : Threads M C) := ⟨linked_empty, nofun, nofun⟩

omit [DecidableEq M] [DecidableEq C] in
theorem Raced.noneLost (h : Raced s) : NoneLost s := by
  intro _ m c hlast
  obtain ⟨e, he, hc⟩ := h.kept m c hlast
  exact ⟨e, he, hc, by rw [h.linked.native, he]⟩

/-- The last call for a method and callback, after one more has returned. -/
theorem update_last_cases {last : M → C → Option Bool} {m k : M} {c d : C} {b : Bool}
    (h : update last m (update (last m) c (some b)) k d = some true) :
    (k = m ∧ d = c ∧ b = true) ∨ (¬ (k = m ∧ d = c) ∧ last k d = some true) := by
  by_cases hk : k = m
  · subst hk
    rw [update_self] at h
    by_cases hd : d = c
    · subst hd
      rw [update_self] at h
      exact .inl ⟨rfl, rfl, Option.some.inj h⟩
    · rw [update_of_ne hd] at h
      exact .inr ⟨fun hkd => hd hkd.2, h⟩
  · rw [update_of_ne hk] at h
    exact .inr ⟨fun hkd => hk hkd.1, h⟩

theorem Raced.lookup (h : Raced s) (m : M) (c : C) :
    Raced (s.step hookable compareLe (.lookup m c)) := by
  simp only [Threads.step]
  split_ifs
  swap
  · exact h
  rcases lookup_cases h.linked m true with ⟨e, he, hl⟩ | ⟨-, hfalse, -⟩ | ⟨hnone, -, hl⟩
  · rw [hl]
    refine ⟨h.linked, ?_, h.kept⟩
    intro p hp
    rcases List.mem_append.mp hp with hp | hp
    · exact h.held p hp
    · rw [List.mem_singleton.mp hp]
      exact he
  · cases hfalse
  · rw [hl]
    have hself : (s.bridge.newEntry m).entries m = some s.bridge.next := update_self m _ _
    have hother : ∀ k e, s.bridge.entries k = some e →
        (s.bridge.newEntry m).entries k = some e ∧
          (s.bridge.newEntry m).callbacks e = s.bridge.callbacks e := by
      intro k e hk
      have hkm : k ≠ m := by
        rintro rfl
        rw [hnone] at hk
        cases hk
      exact ⟨(update_of_ne hkm _ _).trans hk, update_of_ne (h.linked.lt k e hk).ne _ _⟩
    refine ⟨h.linked.newEntry m, ?_, ?_⟩
    · intro p hp
      rcases List.mem_append.mp hp with hp | hp
      · exact (hother _ _ (h.held p hp)).1
      · rw [List.mem_singleton.mp hp]
        exact hself
    · intro k d hlast
      obtain ⟨e, he, hd⟩ := h.kept k d hlast
      obtain ⟨hentry, hcallbacks⟩ := hother k e he
      exact ⟨e, hentry, hcallbacks ▸ hd⟩

theorem Raced.add (h : Raced s) (i : ℕ) : Raced (s.step hookable compareLe (.add i)) := by
  simp only [Threads.step]
  cases hp : s.pending[i]? with
  | none => exact h
  | some p =>
    have hheld := h.held p (List.mem_of_getElem? hp)
    refine ⟨h.linked.setCallbacks _ _, ?_, ?_⟩
    · exact fun q hq => h.held q (List.mem_of_mem_eraseIdx hq)
    · intro k d hlast
      rcases update_last_cases hlast with ⟨rfl, rfl, -⟩ | ⟨-, hold⟩
      · exact ⟨p.entry, hheld, by simp⟩
      · obtain ⟨e, he, hd⟩ := h.kept k d hold
        refine ⟨e, he, ?_⟩
        by_cases hee : e = p.entry
        · subst hee
          rw [Bridge.setCallbacks_self, mem_add]
          exact .inl hd
        · rwa [Bridge.setCallbacks_of_ne _ _ hee]

/-- A removal that has returned is not the last call that hooked a callback. -/
theorem last_of_update_false {last : M → C → Option Bool} {m k : M} {c d : C}
    (h : update last m (update (last m) c (some false)) k d = some true) :
    ¬ (k = m ∧ d = c) ∧ last k d = some true := by
  rcases update_last_cases h with ⟨-, -, hfalse⟩ | hold
  · cases hfalse
  · exact hold

omit [DecidableEq M] in
/-- What is kept of another method, or of another callback of the same method. -/
theorem Raced.kept_remove (h : Raced s) {e : ℕ} {m k : M} {c d : C}
    (he : s.bridge.entries m = some e) (hne : ¬ (k = m ∧ d = c)) (hlast : s.last k d = some true) :
    ∃ e', s.bridge.entries k = some e' ∧
      d ∈ (s.bridge.setCallbacks e (remove (s.bridge.callbacks e) c)).callbacks e' := by
  obtain ⟨e', he', hd⟩ := h.kept k d hlast
  refine ⟨e', he', ?_⟩
  by_cases hee : e' = e
  · subst hee
    have hdc : d ≠ c := fun hdc => hne ⟨h.linked.inj k m e' he' he, hdc⟩
    rw [Bridge.setCallbacks_self, mem_remove_of_ne hdc]
    exact hd
  · rwa [Bridge.setCallbacks_of_ne _ _ hee]

theorem Raced.unhookMethod (h : Raced s) {m : M} {c : C} (hk : KeepsHeld s (.unhookMethod m c)) :
    Raced (s.step hookable compareLe (.unhookMethod m c)) := by
  simp only [Threads.step]
  rcases unhookMethod_cases h.linked m c true with ⟨hnone, heq⟩ | ⟨e, he, hcase⟩
  · rw [heq]
    exact ⟨h.linked, h.held, fun k d hlast => h.kept k d (last_of_update_false hlast).2⟩
  · rcases hcase with ⟨-, heq⟩ | ⟨hempty, -, heq⟩ | ⟨-, hfalse, -⟩
    · rw [heq]
      refine ⟨h.linked.setCallbacks _ _, h.held, ?_⟩
      intro k d hlast
      obtain ⟨hne, hold⟩ := last_of_update_false hlast
      exact h.kept_remove he hne hold
    · rw [heq]
      refine ⟨(h.linked.setCallbacks _ _).dropEntry m, ?_, ?_⟩
      · intro p hp
        have hpm : p.method ≠ m := by
          intro hpm
          have hheld := h.held p hp
          rw [hpm, he] at hheld
          exact hk e he hempty p hp (Option.some.inj hheld).symm
        exact (update_of_ne hpm _ _).trans (h.held p hp)
      · intro k d hlast
        obtain ⟨hne, hold⟩ := last_of_update_false hlast
        obtain ⟨e', he', hd⟩ := h.kept_remove he hne hold
        rw [hempty] at hd
        -- the entry that is dropped has no callback left, so the kept one is in another
        have hkm : k ≠ m := by
          rintro rfl
          obtain rfl := Option.some.inj (he'.symm.trans he)
          rw [Bridge.setCallbacks_self] at hd
          exact absurd hd List.not_mem_nil
        exact ⟨e', (update_of_ne hkm _ _).trans he', hd⟩
    · cases hfalse

theorem Raced.step (h : Raced s) {a : ThreadStep M C} (ha : KeepsHeld s a) :
    Raced (s.step hookable compareLe a) := by
  cases a with
  | lookup m c => exact h.lookup hookable compareLe m c
  | add i => exact h.add hookable compareLe i
  | unhookMethod m c => exact h.unhookMethod hookable compareLe ha

end Raced

/-- **No callback is lost** in a run in which no `unhookMethod` removes an entry that a `hookMethod`
under way has looked up. -/
theorem no_callback_lost (steps : List (ThreadStep M C))
    (h : AllSteps (Threads.step hookable compareLe) KeepsHeld Threads.start steps) :
    AllStates (Threads.step hookable compareLe) NoneLost Threads.start steps :=
  (h.invariant raced_start fun _ _ hs ha => hs.step hookable compareLe ha).mono
    fun _ hs => hs.noneLost

/-! ### Two threads -/

/-- A method is hooked while the callback hooked before is removed, after the removal. -/
def orderedThreads : List (ThreadStep Unit Bool) :=
  [.lookup () false, .add 0, .unhookMethod () false, .lookup () true, .add 0]

/-- The same calls, with the removal between the two halves of the second `hookMethod`. -/
def racingThreads : List (ThreadStep Unit Bool) :=
  [.lookup () false, .add 0, .lookup () true, .unhookMethod () false, .add 0]

theorem orderedThreads_none_lost :
    AllStates (Threads.step (fun _ => true) fun _ _ => true) NoneLost Threads.start
      orderedThreads := by
  refine no_callback_lost (fun _ => true) (fun _ _ => true) orderedThreads ⟨trivial, trivial,
    ?_, trivial, trivial, trivial⟩
  exact fun e _ _ p hp => absurd hp List.not_mem_nil

theorem racingThreads_lost :
    ¬ AllStates (Threads.step (fun _ => true) fun _ _ => true) NoneLost Threads.start
      racingThreads := by
  intro h
  obtain ⟨e, he, -⟩ := h.run_take 5 (by decide) () true (by decide)
  exact absurd he (by decide +revert)

end Java
end CalvinHook
