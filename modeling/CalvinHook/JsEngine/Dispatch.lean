import CalvinHook.JsEngine.Interceptor
import CalvinHook.JsEngine.NativePointer

/-!
# `js_interceptor.cpp`: the dispatchers

`dispatch_on_enter` shows the saved `X0` to `X7` to the callback as `NativePointer` objects and
stores what the object that it returns has in their places; `dispatch_on_leave` does the same with
the saved `X0` and the value that the callback returns.

Both store only what `js_ptr_unwrap` does not give as null.  That null stands for "no pointer", but
a `NativePointer` can be null as well, and then it is ignored like a value that is none.

* `overrides_eq`: the loop over the eight slots in closed form.
* `enterTakesEffect_iff`, `leaveTakesEffect_iff`: when the slots hold what the callback returned.
-/

namespace CalvinHook
namespace Interceptor

open A64 Native

/-! ## The source -/

/-- What the dispatchers use of the engine besides values. -/
structure CallbackJs (V : Type*) extends ScriptJs V where
  /-- `JS_NewObject` with properties set by `JS_SetPropertyStr`. -/
  newObject : List (List Text.Byte × V) → V
  getPropertyStr : V → List Text.Byte → V
  /-- `JS_Call` with `undefined` for `this`: the value that is returned, and the memory that the
  script leaves. -/
  call : V → List V → Mem → V × Mem

/-- The callbacks of an `AttachEntry`. -/
structure Callbacks (V : Type*) where
  onEnter : V
  onLeave : V

section Source

variable {V : Type*} (js : CallbackJs V)

/-- `snprintf(name, sizeof(name), "x%d", i)`. -/
def regName (i : ℕ) : List Text.Byte := 0x78 :: Text.numeral 10 1 i

/-- `base + kOffX0 + i * 8`. -/
def slotAddr (base : Addr) (i : ℕ) : Addr := base + BitVec.ofNat 64 (kOffX0 + 8 * i)

/-- The saved `Xi`. -/
def slot (m : Mem) (base : Addr) (i : ℕ) : BitVec 64 := m.read (slotAddr base i) 8

/-- `if (p) *slot = p`. -/
def override (base : Addr) (m : Mem) (i : ℕ) (p : Addr) : Mem :=
  if p = 0 then m else m.write (slotAddr base i) 8 p

/-- The body of the loop over the properties of the object that the callback returned. -/
def overrideFrom (base : Addr) (ret : V) (m : Mem) (i : ℕ) : Mem :=
  let prop := js.getPropertyStr ret (regName i)
  if js.tag prop = .undefined then m else override base m i (js.jsPtrUnwrap prop)

/-- The `AttachEntry*` of a saved context. -/
def entryOf (m : Mem) (base : Addr) : Addr := m.read (base + BitVec.ofNat 64 kOffEntry) 8

/-- The argument of `onEnter`. -/
def enterArg (base : Addr) (m : Mem) : V :=
  js.newObject ((List.range 8).map fun i => (regName i, js.jsPtrNew (slot m base i)))

/-- The argument of `onLeave`, an object with the property `retval`. -/
def leaveArg (base : Addr) (m : Mem) : V :=
  js.newObject [([0x72, 0x65, 0x74, 0x76, 0x61, 0x6C], js.jsPtrNew (slot m base 0))]

/-- `dispatch_on_enter`. -/
def dispatchOnEnter (entries : Addr → Callbacks V) (base : Addr) (m : Mem) : Mem :=
  let entry := entryOf m base
  if entry = 0 ∨ js.tag (entries entry).onEnter = .undefined then m
  else
    let (ret, m) := js.call (entries entry).onEnter [enterArg js base m] m
    if js.tag ret ≠ .exception ∧ js.tag ret = .object then
      (List.range 8).foldl (overrideFrom js base ret) m
    else m

/-- `dispatch_on_leave`. -/
def dispatchOnLeave (entries : Addr → Callbacks V) (base : Addr) (m : Mem) : Mem :=
  let entry := entryOf m base
  if entry = 0 ∨ js.tag (entries entry).onLeave = .undefined then m
  else
    let (ret, m) := js.call (entries entry).onLeave [leaveArg js base m] m
    if js.tag ret ≠ .exception then override base m 0 (js.jsPtrUnwrap ret) else m

end Source

/-! ## One slot -/

section Slot

variable (base : Addr) (m : Mem)

/-- What a slot holds after an override. -/
def overridden (i : ℕ) (p : Addr) : BitVec 64 := if p = 0 then slot m base i else p

/-- An override stores a value in any case; for a null pointer, the value that is there. -/
theorem override_eq (i : ℕ) (p : Addr) :
    override base m i p = m.write (slotAddr base i) 8 (overridden base m i p) := by
  rw [override, overridden]
  split_ifs with hp
  · exact (Mem.write_read_same m (slotAddr base i) 8).symm
  · rfl

theorem slotAddr_eq (i : ℕ) : slotAddr base i = slotAddr base 0 + BitVec.ofNat 64 (8 * i) :=
  ofNat_offset base kOffX0 (8 * i)

theorem overridden_eq_iff {i : ℕ} {p : Addr} :
    overridden base m i p = p ↔ (p = 0 → slot m base i = 0) := by
  rw [overridden]
  split_ifs with hp
  · exact ⟨fun h _ => h.trans hp, fun h => (h hp).trans hp.symm⟩
  · exact iff_of_true rfl fun h => absurd h hp

end Slot

section Overrides

variable {V : Type*} (js : CallbackJs V) (base : Addr) (ret : V) (m : Mem)

/-- The pointer that a property stands for. -/
def propPtr (i : ℕ) : Addr := js.jsPtrUnwrap (js.getPropertyStr ret (regName i))

theorem jsPtrUnwrap_of_tag_undefined {val : V} (h : js.tag val = .undefined) :
    js.jsPtrUnwrap val = 0 := by
  rw [js.jsPtrUnwrap_of_ne (by simp [h]) (by simp [h]), js.getOpaque_of_tag (by simp [h])]
  rfl

theorem jsPtrUnwrap_of_getOpaque {val : V} {p : Addr} (h : js.getOpaque val = some p) :
    js.jsPtrUnwrap val = p := by
  rw [QuickJs.jsPtrUnwrap, h]

/-- The test for `undefined` makes no difference. -/
theorem overrideFrom_eq (i : ℕ) :
    overrideFrom js base ret m i = override base m i (propPtr js ret i) := by
  rw [overrideFrom, propPtr]
  split_ifs with h
  · rw [jsPtrUnwrap_of_tag_undefined js h]
    exact (if_pos rfl).symm
  · rfl

/-- **The loop over the slots.**  The slots are apart, so each one is decided by what it held
before. -/
theorem overrides_eq {n : ℕ} (hn : 8 * n ≤ 2 ^ 64) :
    (List.range n).foldl (overrideFrom js base ret) m =
      m.writeSlots (slotAddr base 0) 8 n fun i => overridden base m i (propPtr js ret i) := by
  induction n with
  | zero => simp
  | succ n ih =>
    -- the slots before do not reach slot `n`
    have hslot : slot (m.writeSlots (slotAddr base 0) 8 n fun i => overridden base m i
        (propPtr js ret i)) base n =
        slot m base n := by
      refine Mem.read_eq_of_forall_inRange (by omega) fun x hx => Mem.writeSlots_of_not_inRange ?_
      rw [slotAddr_eq] at hx
      have hrange := (Mem.inRange_slot hn).mp hx
      rw [InRange]
      omega
    rw [List.range_succ, List.foldl_append, ih (by omega), List.foldl_cons, List.foldl_nil,
      overrideFrom_eq, override_eq, slotAddr_eq base n, overridden, hslot]
    exact Mem.writeSlots_succ hn

theorem slot_overrides {i : ℕ} (hi : i < 8) :
    slot ((List.range 8).foldl (overrideFrom js base ret) m) base i =
      overridden base m i (propPtr js ret i) := by
  rw [overrides_eq js base ret m (by omega), slot, slotAddr_eq base i]
  exact Mem.read_writeSlots (by decide) hi

theorem overrides_of_not_inRange {x : Addr} (hx : ¬InRange (slotAddr base 0) 64 x) :
    (List.range 8).foldl (overrideFrom js base ret) m x = m x := by
  rw [overrides_eq js base ret m (by omega)]
  exact Mem.writeSlots_of_not_inRange hx

end Overrides

/-! ## The dispatchers -/

section Dispatch

variable {V : Type*} (js : CallbackJs V) (base : Addr) (ret : V) (before after : Mem)

/-- What `onEnter` returned is in the slots: a property that is a `NativePointer` is, the slot of
one that is undefined is unchanged, and so is everything else. -/
def EnterTakesEffect : Prop :=
  (∀ i < 8, (∀ p, js.getOpaque (js.getPropertyStr ret (regName i)) = some p →
    slot after base i = p) ∧
    (js.tag (js.getPropertyStr ret (regName i)) = .undefined →
      slot after base i = slot before base i)) ∧
  ∀ x, ¬InRange (slotAddr base 0) 64 x → after x = before x

/-- What `onLeave` returned is in the slot of `X0`, and everything else is unchanged. -/
def LeaveTakesEffect : Prop :=
  (∀ p, js.getOpaque ret = some p → slot after base 0 = p) ∧
  (js.tag ret = .undefined → slot after base 0 = slot before base 0) ∧
  ∀ x, ¬InRange (slotAddr base 0) 8 x → after x = before x

theorem enterTakesEffect_iff :
    EnterTakesEffect js base ret before ((List.range 8).foldl (overrideFrom js base ret) before) ↔
      ∀ i < 8, js.getOpaque (js.getPropertyStr ret (regName i)) = some 0 →
        slot before base i = 0 := by
  constructor
  · intro h i hi hnull
    have hzero := (h.1 i hi).1 0 hnull
    rw [slot_overrides js base ret before hi, propPtr, jsPtrUnwrap_of_getOpaque js hnull,
      overridden_eq_iff] at hzero
    exact hzero rfl
  · refine fun h => ⟨fun i hi => ⟨fun p hp => ?_, fun hundef => ?_⟩, fun x hx => ?_⟩
    · rw [slot_overrides js base ret before hi, propPtr, jsPtrUnwrap_of_getOpaque js hp,
        overridden_eq_iff]
      rintro rfl
      exact h i hi hp
    · rw [slot_overrides js base ret before hi, propPtr, jsPtrUnwrap_of_tag_undefined js hundef]
      exact if_pos rfl
    · exact overrides_of_not_inRange js base ret before hx

theorem slot_override (i : ℕ) (p : Addr) :
    slot (override base before i p) base i = overridden base before i p := by
  rw [override_eq]
  exact Mem.read_write_same _ _ (by omega) _

theorem leaveTakesEffect_iff :
    LeaveTakesEffect js base ret before (override base before 0 (js.jsPtrUnwrap ret)) ↔
      (js.getOpaque ret = some 0 → slot before base 0 = 0) := by
  constructor
  · intro h hnull
    have hzero := h.1 0 hnull
    rw [slot_override, jsPtrUnwrap_of_getOpaque js hnull, overridden_eq_iff] at hzero
    exact hzero rfl
  · refine fun h => ⟨fun p hp => ?_, fun hundef => ?_, fun x hx => ?_⟩
    · rw [slot_override, jsPtrUnwrap_of_getOpaque js hp, overridden_eq_iff]
      rintro rfl
      exact h hp
    · rw [slot_override, jsPtrUnwrap_of_tag_undefined js hundef]
      exact if_pos rfl
    · rw [override_eq]
      exact Mem.write_of_not_inRange hx

/-- **When a callback's values take effect.**  After `dispatch_on_enter`, the slots hold what the
object has exactly if no property is a null `NativePointer` in the place of a register that is not
zero; after `dispatch_on_leave`, the slot of `X0` holds what was returned under the same
condition. -/
theorem dispatch_takesEffect_iff (entries : Addr → Callbacks V) (m : Mem)
    (hentry : entryOf m base ≠ 0) :
    (js.tag (entries (entryOf m base)).onEnter ≠ .undefined →
      js.call (entries (entryOf m base)).onEnter [enterArg js base m] m = (ret, before) →
        js.tag ret = .object →
      (EnterTakesEffect js base ret before (dispatchOnEnter js entries base m) ↔
        ∀ i < 8, js.getOpaque (js.getPropertyStr ret (regName i)) = some 0 →
          slot before base i = 0)) ∧
    (js.tag (entries (entryOf m base)).onLeave ≠ .undefined →
      js.call (entries (entryOf m base)).onLeave [leaveArg js base m] m = (ret, before) →
        js.tag ret ≠ .exception →
      (LeaveTakesEffect js base ret before (dispatchOnLeave js entries base m) ↔
        (js.getOpaque ret = some 0 → slot before base 0 = 0))) := by
  constructor
  · intro hfun hcall hret
    have hdispatch : dispatchOnEnter js entries base m =
        (List.range 8).foldl (overrideFrom js base ret) before := by
      rw [dispatchOnEnter, if_neg (not_or.mpr ⟨hentry, hfun⟩), hcall]
      exact if_pos ⟨by simp [hret], hret⟩
    rw [hdispatch, enterTakesEffect_iff]
  · intro hfun hcall hret
    have hdispatch : dispatchOnLeave js entries base m =
        override base before 0 (js.jsPtrUnwrap ret) := by
      rw [dispatchOnLeave, if_neg (not_or.mpr ⟨hentry, hfun⟩), hcall]
      exact if_pos hret
    rw [hdispatch, leaveTakesEffect_iff]

end Dispatch

/-! ### Callbacks that answer with a pointer -/

/-- An engine whose function 0 returns an object with a `NativePointer` as `x0`, and whose other
functions return the `NativePointer` itself. -/
def answering (p : Addr) : CallbackJs ScriptValue where
  toScriptJs := scriptJs
  newObject _ := .object 1
  getPropertyStr v name := if v = .object 0 ∧ name = regName 0 then .nativePointer p else .undefined
  call f _ m := (if f = .function 0 then .object 0 else .nativePointer p, m)

def answeringEntries : Addr → Callbacks ScriptValue := fun _ => ⟨.function 0, .function 1⟩

/-- A pointer that is not null takes effect, in a context of ones. -/
theorem dispatch_takesEffect_one :
    EnterTakesEffect (answering 1) 0x8000 (.object 0) (fun _ => 1)
        (dispatchOnEnter (answering 1) answeringEntries 0x8000 fun _ => 1) ∧
      LeaveTakesEffect (answering 1) 0x8000 (.nativePointer 1) (fun _ => 1)
        (dispatchOnLeave (answering 1) answeringEntries 0x8000 fun _ => 1) := by
  have hentry : entryOf (fun _ => 1) 0x8000 ≠ 0 := by decide +kernel
  refine ⟨((dispatch_takesEffect_iff (answering 1) 0x8000 (.object 0) (fun _ => 1) answeringEntries
    (fun _ => 1)
    hentry).1 (by decide) rfl rfl).mpr ?_,
    ((dispatch_takesEffect_iff (answering 1) 0x8000 (.nativePointer 1)
    (fun _ => 1) answeringEntries (fun _ => 1) hentry).2 (by decide) rfl (by decide)).mpr
    (by decide)⟩
  decide +kernel

/-- A null pointer does not. -/
theorem null_not_takesEffect :
    let js := answering 0
    let m : Mem := fun _ => 1
    js.getOpaque (js.getPropertyStr (.object 0) (regName 0)) = some 0 ∧
      slot (dispatchOnEnter js answeringEntries 0x8000 m) 0x8000 0 = 0x0101010101010101 ∧
      slot (dispatchOnLeave js answeringEntries 0x8000 m) 0x8000 0 = 0x0101010101010101 := by
  decide +kernel

end Interceptor
end CalvinHook
