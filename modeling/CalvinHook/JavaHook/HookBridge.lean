import Mathlib.Data.List.Sort
import Mathlib.Logic.Function.Basic
import CalvinHook.Transition

/-!
# The bookkeeping of Java hooks

`HookBridge` keeps a map from methods to entries, and each entry a set of callbacks; the runtime
keeps its own table of hooked methods.  `hookMethod` hooks a method natively before it stores the
entry, so a failure leaves both tables as they were.  `unhookMethod` takes the entry off the map
before it unhooks the method natively, and does not look at the result: after a failure the method
is hooked in the runtime but not in the map, and since the runtime refuses to hook a method twice it
can never be hooked again.

* `Linked`, `Booked`: the two tables are equal, and no entry is without callbacks.
* `lookup_cases`, `unhookMethod_cases`: what the synchronized blocks do.
* `Booked.hookMethod`, `Booked.unhookMethod`: what the calls keep.
* `bookkeeping_iff`: the runs in which the two tables agree in every state.
-/

namespace CalvinHook
namespace Java

open Transition Function

/-- The identity of a `HookEntry`. -/
abbrev EntryId := ℕ

/-! ## Callbacks -/

section CopyOnWriteSortedSet

variable {C : Type*} [DecidableEq C]

/-- `CopyOnWriteSortedSet.add`; `compareLe` is the order of `compareTo`. -/
def add (compareLe : C → C → Bool) (elements : List C) (e : C) : List C :=
  if e ∈ elements then elements else (elements ++ [e]).insertionSort fun a b => compareLe a b

/-- `CopyOnWriteSortedSet.remove`. -/
def remove (elements : List C) (e : C) : List C := elements.erase e

@[simp] theorem mem_add {compareLe : C → C → Bool} {elements : List C} {e x : C} :
    x ∈ add compareLe elements e ↔ x ∈ elements ∨ x = e := by
  unfold add
  split_ifs with h
  · constructor
    · exact .inl
    · rintro (hx | rfl)
      · exact hx
      · exact h
  · rw [(List.perm_insertionSort ..).mem_iff, List.mem_append, List.mem_singleton]

theorem add_ne_nil (compareLe : C → C → Bool) (elements : List C) (e : C) :
    add compareLe elements e ≠ [] :=
  List.ne_nil_of_mem (mem_add.mpr (.inr rfl))

/-- Another element stays. -/
theorem mem_remove_of_ne {elements : List C} {e x : C} (hne : x ≠ e) :
    x ∈ remove elements e ↔ x ∈ elements :=
  List.mem_erase_of_ne hne

end CopyOnWriteSortedSet

/-! ## The two tables -/

/-- The state of `HookBridge` and of the runtime, for methods `M` and callbacks `C`. -/
structure Bridge (M C : Type*) where
  /-- `entries`. -/
  entries : M → Option EntryId
  /-- The callbacks of each entry. -/
  callbacks : EntryId → List C
  /-- The methods hooked in the runtime, with the entry given as the hooker object. -/
  native : M → Option EntryId
  /-- The next new entry. -/
  next : EntryId

variable {M C : Type*} [DecidableEq M] [DecidableEq C]

namespace Bridge

/-- Nothing is hooked. -/
def empty : Bridge M C := ⟨fun _ => none, fun _ => [], fun _ => none, 0⟩

/-- `nHook`: null if the hook fails, and for a method that is hooked already. -/
def nHook (s : Bridge M C) (m : M) (e : EntryId) (ok : Bool) : Option (Bridge M C) :=
  if ok ∧ s.native m = none then some { s with native := update s.native m (some e) } else none

/-- `nUnhook`: a failure changes nothing. -/
def nUnhook (s : Bridge M C) (m : M) (ok : Bool) : Bridge M C × Bool :=
  if ok ∧ s.native m ≠ none then ({ s with native := update s.native m none }, true) else (s, false)

/-- Change the callbacks of an entry. -/
def setCallbacks (s : Bridge M C) (e : EntryId) (elements : List C) : Bridge M C :=
  { s with callbacks := update s.callbacks e elements }

omit [DecidableEq M] [DecidableEq C] in
@[simp] theorem setCallbacks_self (s : Bridge M C) (e : EntryId) (elements : List C) :
    (s.setCallbacks e elements).callbacks e = elements := update_self e _ _

omit [DecidableEq M] [DecidableEq C] in
theorem setCallbacks_of_ne (s : Bridge M C) {e e' : EntryId} (elements : List C) (h : e' ≠ e) :
    (s.setCallbacks e elements).callbacks e' = s.callbacks e' := update_of_ne h _ _

/-- The synchronized block of `hookMethod`: the entry of the method, a new one if there is none.
None when the exception for a failed hook is thrown. -/
def lookup (s : Bridge M C) (m : M) (ok : Bool) : Option (Bridge M C × EntryId) :=
  match s.entries m with
  | some e => some (s, e)
  | none =>
    (nHook { s.setCallbacks s.next [] with next := s.next + 1 } m s.next ok).map fun t =>
      ({ t with entries := update t.entries m (some s.next) }, s.next)

/-- `hookMethod`; none when it throws.  `hookable` is what `checkMethod` accepts. -/
def hookMethod (hookable : M → Bool) (compareLe : C → C → Bool) (s : Bridge M C) (m : M) (c : C)
    (ok : Bool) : Option (Bridge M C) :=
  if hookable m then
    (s.lookup m ok).map fun p => p.1.setCallbacks p.2 (add compareLe (p.1.callbacks p.2) c)
  else none

/-- `unhookMethod`, all of it in a synchronized block. -/
def unhookMethod (s : Bridge M C) (m : M) (c : C) (ok : Bool) : Bridge M C :=
  match s.entries m with
  | none => s
  | some e =>
    let t := s.setCallbacks e (remove (s.callbacks e) c)
    if t.callbacks e = [] then (nUnhook { t with entries := update t.entries m none } m ok).1 else t

end Bridge

/-! ## Calls -/

/-- A call, with what the native function it may reach answers. -/
inductive BridgeCall (M C : Type*) where
  | hookMethod (m : M) (c : C) (nHookOk : Bool)
  | unhookMethod (m : M) (c : C) (nUnhookOk : Bool)
  /-- `MethodHook.Unhook.unhook` of the handle for this method and callback. -/
  | unhook (m : M) (c : C) (nUnhookOk : Bool)

variable (hookable : M → Bool) (compareLe : C → C → Bool)

/-- One call; a call that throws leaves the state as it was. -/
def Bridge.step (s : Bridge M C) : BridgeCall M C → Bridge M C
  | .hookMethod m c ok => (s.hookMethod hookable compareLe m c ok).getD s
  | .unhookMethod m c ok => s.unhookMethod m c ok
  | .unhook m c ok => s.unhookMethod m c ok

/-- The map and the runtime agree. -/
structure Agree (s : Bridge M C) : Prop where
  /-- A method is a key of `entries` exactly if it is hooked in the runtime. -/
  hooked : ∀ m, (s.entries m).isSome ↔ (s.native m).isSome
  /-- An entry has a callback. -/
  callbacks : ∀ m e, s.entries m = some e → s.callbacks e ≠ []
  /-- A method without callbacks can be hooked, if the runtime does its part. -/
  again : ∀ m c, hookable m → s.entries m = none →
    ∃ t, s.hookMethod hookable compareLe m c true = some t ∧ (t.entries m).isSome

/-- The unhooking of a method succeeds in the runtime if it is reached. -/
def UnhookSucceeds (s : Bridge M C) : BridgeCall M C → Prop
  | .hookMethod _ _ _ => True
  | .unhookMethod m c ok => ∀ e, s.entries m = some e → remove (s.callbacks e) c = [] → ok = true
  | .unhook m c ok => ∀ e, s.entries m = some e → remove (s.callbacks e) c = [] → ok = true

/-! ## What the blocks do -/

/-- The map and the runtime are one table, in which no two methods share an entry. -/
structure Linked (s : Bridge M C) : Prop where
  /-- The two tables are equal. -/
  native : s.native = s.entries
  /-- Entries are older than the next one. -/
  lt : ∀ m e, s.entries m = some e → e < s.next
  /-- An entry belongs to one method. -/
  inj : ∀ m m' e, s.entries m = some e → s.entries m' = some e → m = m'

namespace Bridge

/-- A new entry for a method, hooked in the runtime. -/
def newEntry (s : Bridge M C) (m : M) : Bridge M C :=
  ⟨update s.entries m (some s.next), update s.callbacks s.next [], update s.native m (some s.next),
    s.next + 1⟩

/-- The method is neither in the map nor hooked in the runtime any more. -/
def dropEntry (s : Bridge M C) (m : M) : Bridge M C :=
  { s with entries := update s.entries m none, native := update s.native m none }

end Bridge

section Blocks

omit [DecidableEq C]

variable {s : Bridge M C}

omit [DecidableEq M] in
theorem linked_empty : Linked (Bridge.empty : Bridge M C) := ⟨rfl, nofun, nofun⟩

omit [DecidableEq M] in
theorem Linked.setCallbacks (h : Linked s) (e : EntryId) (elements : List C) :
    Linked (s.setCallbacks e elements) := ⟨h.native, h.lt, h.inj⟩

theorem Linked.newEntry (h : Linked s) (m : M) : Linked (s.newEntry m) := by
  refine ⟨?_, ?_, ?_⟩
  · change update s.native m _ = update s.entries m _
    rw [h.native]
  · intro k e hk
    rcases update_eq_some hk with ⟨-, he⟩ | ⟨-, hk⟩
    · exact Option.some.inj he ▸ Nat.lt_succ_self s.next
    · exact Nat.lt_succ_of_lt (h.lt k e hk)
  · -- the new entry is older than no other, so no other method has it
    have hnew : ∀ k, s.entries k ≠ some s.next := fun k hk => (h.lt k _ hk).ne rfl
    intro k k' e hk hk'
    rcases update_eq_some hk with ⟨rfl, he⟩ | ⟨-, hk⟩
    · rcases update_eq_some hk' with ⟨rfl, -⟩ | ⟨-, hk'⟩
      · rfl
      · rw [← he] at hk'
        exact absurd hk' (hnew k')
    · rcases update_eq_some hk' with ⟨-, he⟩ | ⟨-, hk'⟩
      · rw [← he] at hk
        exact absurd hk (hnew k)
      · exact h.inj k k' e hk hk'

/-- What is left of a table without one method. -/
theorem Bridge.dropEntry_entries {m k : M} {e : EntryId} (hk : (s.dropEntry m).entries k = some e) :
    k ≠ m ∧ s.entries k = some e := by
  rcases update_eq_some hk with ⟨-, hnone⟩ | hold
  · cases hnone
  · exact hold

theorem Linked.dropEntry (h : Linked s) (m : M) : Linked (s.dropEntry m) := by
  refine ⟨?_, ?_, ?_⟩
  · change update s.native m none = update s.entries m none
    rw [h.native]
  · intro k e hk
    exact h.lt k e (Bridge.dropEntry_entries hk).2
  · intro k k' e hk hk'
    exact h.inj k k' e (Bridge.dropEntry_entries hk).2 (Bridge.dropEntry_entries hk').2

/-- **The block of `hookMethod`** finds the entry, makes one, or throws. -/
theorem lookup_cases (h : Linked s) (m : M) (ok : Bool) :
    (∃ e, s.entries m = some e ∧ s.lookup m ok = some (s, e)) ∨
    (s.entries m = none ∧ ok = false ∧ s.lookup m ok = none) ∨
    (s.entries m = none ∧ ok = true ∧ s.lookup m ok = some (s.newEntry m, s.next)) := by
  unfold Bridge.lookup
  cases he : s.entries m with
  | some e => exact .inl ⟨e, rfl, rfl⟩
  | none =>
    have hn : s.native m = none := by rw [h.native, he]
    cases ok with
    | false => exact .inr (.inl ⟨rfl, rfl, rfl⟩)
    | true =>
      refine .inr (.inr ⟨rfl, rfl, ?_⟩)
      simp only [Bridge.nHook, Bridge.setCallbacks, Bridge.newEntry, hn, and_self, if_true,
        Option.map_some]

end Blocks

section Unhook

variable {s : Bridge M C}

/-- **The block of `unhookMethod`** finds no entry, keeps it, drops it, or leaves it in the
runtime. -/
theorem unhookMethod_cases (h : Linked s) (m : M) (c : C) (ok : Bool) :
    (s.entries m = none ∧ s.unhookMethod m c ok = s) ∨
    ∃ e, s.entries m = some e ∧
      ((remove (s.callbacks e) c ≠ [] ∧
          s.unhookMethod m c ok = s.setCallbacks e (remove (s.callbacks e) c)) ∨
        (remove (s.callbacks e) c = [] ∧ ok = true ∧
          s.unhookMethod m c ok = (s.setCallbacks e []).dropEntry m) ∨
        (remove (s.callbacks e) c = [] ∧ ok = false ∧
          (s.unhookMethod m c ok).entries m = none ∧
          (s.unhookMethod m c ok).native m = some e)) := by
  unfold Bridge.unhookMethod
  cases he : s.entries m with
  | none => exact .inl ⟨rfl, rfl⟩
  | some e =>
    refine .inr ⟨e, rfl, ?_⟩
    have hn : (s.setCallbacks e []).native m = some e := by
      change s.native m = some e
      rw [h.native, he]
    by_cases hempty : remove (s.callbacks e) c = []
    · simp only [hempty, Bridge.setCallbacks_self, if_true]
      cases ok with
      | true =>
        refine .inr (.inl ⟨trivial, rfl, ?_⟩)
        simp only [Bridge.nUnhook, hn, ne_eq, reduceCtorEq, not_false_iff, and_self, if_true]
        rfl
      | false => exact .inr (.inr ⟨trivial, rfl, update_self m _ _, hn⟩)
    · refine .inl ⟨hempty, ?_⟩
      simp only [Bridge.setCallbacks_self, hempty, if_false]

end Unhook

/-! ## The books -/

/-- **The books are kept**: one table, and no entry without callbacks. -/
structure Booked (s : Bridge M C) : Prop extends Linked s where
  /-- An entry has a callback. -/
  callbacks : ∀ m e, s.entries m = some e → s.callbacks e ≠ []

section Booked

variable {s : Bridge M C}

omit [DecidableEq M] [DecidableEq C] in
theorem booked_empty : Booked (Bridge.empty : Bridge M C) := ⟨linked_empty, nofun⟩

omit [DecidableEq M] in
/-- A callback is added to an entry. -/
theorem Linked.booked_add (h : Linked s) {e : EntryId}
    (hcb : ∀ k e', s.entries k = some e' → e' ≠ e → s.callbacks e' ≠ []) (c : C) :
    Booked (s.setCallbacks e (add compareLe (s.callbacks e) c)) := by
  refine ⟨h.setCallbacks e _, ?_⟩
  intro k e' hk
  by_cases hee : e' = e
  · rw [hee, Bridge.setCallbacks_self]
    exact add_ne_nil _ _ _
  · rw [Bridge.setCallbacks_of_ne _ _ hee]
    exact hcb k e' hk hee

theorem Booked.hookMethod (h : Booked s) {m : M} {c : C} {ok : Bool} {t : Bridge M C}
    (ht : s.hookMethod hookable compareLe m c ok = some t) : Booked t ∧ (t.entries m).isSome := by
  unfold Bridge.hookMethod at ht
  split_ifs at ht
  rcases lookup_cases h.toLinked m ok with ⟨e, he, hl⟩ | ⟨-, -, hl⟩ | ⟨hnone, -, hl⟩
  · rw [hl, Option.map_some] at ht
    obtain rfl := Option.some.inj ht
    refine ⟨h.toLinked.booked_add compareLe (fun k e' hk _ => h.callbacks k e' hk) c, ?_⟩
    exact Option.isSome_of_eq_some he
  · rw [hl] at ht
    cases ht
  · rw [hl, Option.map_some] at ht
    obtain rfl := Option.some.inj ht
    have he : (s.newEntry m).entries m = some s.next := update_self m _ _
    refine ⟨(h.toLinked.newEntry m).booked_add compareLe ?_ c, Option.isSome_of_eq_some he⟩
    intro k e' hk hne
    have hkm : k ≠ m := by
      rintro rfl
      exact hne (Option.some.inj (hk.symm.trans he))
    have hold : s.entries k = some e' := (update_of_ne hkm _ _).symm.trans hk
    have hcb : (s.newEntry m).callbacks e' = s.callbacks e' := update_of_ne hne _ _
    rw [hcb]
    exact h.callbacks k e' hold

theorem Booked.unhookMethod (h : Booked s) {m : M} {c : C} {ok : Bool}
    (hok : ∀ e, s.entries m = some e → remove (s.callbacks e) c = [] → ok = true) :
    Booked (s.unhookMethod m c ok) := by
  -- the callbacks of an entry that belongs to another method do not change
  have hother : ∀ e elements k e', s.entries m = some e → k ≠ m → s.entries k = some e' →
      (s.setCallbacks e elements).callbacks e' ≠ [] := by
    intro e elements k e' he hkm hk
    have hne : e' ≠ e := by
      rintro rfl
      exact hkm (h.inj k m e' hk he)
    rw [Bridge.setCallbacks_of_ne _ _ hne]
    exact h.callbacks k e' hk
  rcases unhookMethod_cases h.toLinked m c ok with ⟨-, heq⟩ | ⟨e, he, hcase⟩
  · rwa [heq]
  · rcases hcase with ⟨hne, heq⟩ | ⟨-, -, heq⟩ | ⟨hempty, hfalse, -⟩
    · rw [heq]
      refine ⟨h.toLinked.setCallbacks e _, ?_⟩
      intro k e' hk
      by_cases hkm : k = m
      · subst hkm
        obtain rfl := Option.some.inj (hk.symm.trans he)
        rwa [Bridge.setCallbacks_self]
      · exact hother e _ k e' he hkm hk
    · rw [heq]
      refine ⟨(h.toLinked.setCallbacks e []).dropEntry m, ?_⟩
      intro k e' hk
      obtain ⟨hkm, hold⟩ := Bridge.dropEntry_entries hk
      exact hother e [] k e' he hkm hold
    · rw [hok e he hempty] at hfalse
      cases hfalse

theorem Booked.agree (h : Booked s) : Agree hookable compareLe s := by
  refine ⟨fun m => by rw [h.native], h.callbacks, ?_⟩
  intro m c hm hnone
  rcases lookup_cases h.toLinked m true with ⟨e, he, -⟩ | ⟨-, hfalse, -⟩ | ⟨-, -, hl⟩
  · rw [hnone] at he
    cases he
  · cases hfalse
  · obtain ⟨t, ht⟩ : ∃ t, s.hookMethod hookable compareLe m c true = some t := by
      rw [Bridge.hookMethod, if_pos hm, hl, Option.map_some]
      exact ⟨_, rfl⟩
    exact ⟨t, ht, (h.hookMethod hookable compareLe ht).2⟩

/-- An unhooking that fails in the runtime leaves the method hooked there alone. -/
theorem not_agree_unhookMethod (h : Booked s) {m : M} {c : C} {ok : Bool}
    (hok : ¬ ∀ e, s.entries m = some e → remove (s.callbacks e) c = [] → ok = true) :
    ¬ Agree hookable compareLe (s.unhookMethod m c ok) := by
  intro hagree
  push Not at hok
  obtain ⟨e, he, hempty, hfalse⟩ := hok
  rcases unhookMethod_cases h.toLinked m c ok with ⟨hnone, -⟩ | ⟨e', he', hcase⟩
  · rw [hnone] at he
    cases he
  · obtain rfl := Option.some.inj (he'.symm.trans he)
    rcases hcase with ⟨hne, -⟩ | ⟨-, htrue, -⟩ | ⟨-, -, hentries, hnative⟩
    · exact hne hempty
    · exact hfalse htrue
    · have hiff := hagree.hooked m
      rw [hentries, hnative] at hiff
      exact absurd (hiff.mpr rfl) (by decide)

end Booked

/-- **When the map and the runtime agree.**  They agree in every state of a run exactly if every
native unhooking that the run reaches succeeds. -/
theorem bookkeeping_iff (calls : List (BridgeCall M C)) :
    AllStates (Bridge.step hookable compareLe) (Agree hookable compareLe) Bridge.empty calls ↔
      AllSteps (Bridge.step hookable compareLe) UnhookSucceeds Bridge.empty calls := by
  refine allStates_iff_allSteps booked_empty
    (allSteps_of_forall (P := fun _ _ => True) (fun _ _ => trivial) _ _)
    (fun s hs => hs.agree hookable compareLe) ?_ ?_
  · intro s a hs _ ha
    cases a with
    | hookMethod m c ok =>
      cases ht : s.hookMethod hookable compareLe m c ok with
      | none =>
        rw [Bridge.step, ht]
        exact hs
      | some t =>
        rw [Bridge.step, ht]
        exact (hs.hookMethod hookable compareLe ht).1
    | unhookMethod m c ok => exact hs.unhookMethod ha
    | unhook m c ok => exact hs.unhookMethod ha
  · intro s a hs _ ha
    cases a with
    | hookMethod m c ok => exact absurd trivial ha
    | unhookMethod m c ok => exact not_agree_unhookMethod hookable compareLe hs ha
    | unhook m c ok => exact not_agree_unhookMethod hookable compareLe hs ha

/-- A method is hooked and unhooked, and the runtime fails to unhook it. -/
def failedUnhook : List (BridgeCall Unit Unit) :=
  [.hookMethod () () true, .unhookMethod () () false]

theorem failedUnhook_not_agree :
    ¬ AllStates (Bridge.step (fun _ => true) fun _ _ => true)
      (Agree (fun _ => true) fun _ _ => true)
      Bridge.empty failedUnhook := by
  intro h
  have hlast := (h.run_take 2).hooked ()
  revert hlast
  decide

end Java
end CalvinHook
