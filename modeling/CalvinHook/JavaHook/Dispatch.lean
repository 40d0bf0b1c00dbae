import Mathlib.Data.List.Basic

/-!
# Dispatch of a hooked call

`HookEntry.dispatch` runs the `before` callbacks in order until one of them decides the outcome,
calls the original method if none did, and runs the `after` callbacks of those that were reached in
reverse order.  A callback changes the `HookParam` through its setters only, which keep `result`,
`throwable` and `returnEarly` in step; the fields `undecided` and `exclusive` say how.  Because of
them both `catch` blocks put back exactly what the callback found.

* `Callback`: what a callback does to the world and to the parameter, and what it throws.
* `beforeLoop`, `afterLoop`, `HookEntry.dispatch`: the source, with a trace of the calls.
* `beforeLoop_eq`: where the first loop stops.
* `HookEntry.dispatch_trace`: the calls that are made.
* `HookEntry.dispatch_quiet`: a callback that throws makes no difference.
* `HookEntry.original_not_mem_of_replacement`: a `MethodReplacement` keeps the original from being
  called.
-/

namespace CalvinHook
namespace Java

variable {W M O T : Type*}

/-! ## The parameter -/

/-- `HookParam`, for members `M`, objects `O` and exceptions `T`; a null reference is none. -/
@[ext]
structure HookParam (M O T : Type*) where
  method : Option M
  thisObject : Option O
  args : Option (List (Option O))
  result : Option O
  throwable : Option T
  returnEarly : Bool
  /-- As long as nothing is decided there is no result and no exception. -/
  undecided : returnEarly = false → result = none ∧ throwable = none
  /-- There is no result beside an exception. -/
  exclusive : throwable = none ∨ result = none

/-- What a callback can do to the parameter: assign a public field, or call a setter.  A change to
an element of the array of arguments is an assignment of `args`. -/
inductive ParamOp (M O T : Type*) where
  | setMethod (m : Option M)
  | setThisObject (o : Option O)
  | setArgs (as : Option (List (Option O)))
  | setResult (r : Option O)
  | setThrowable (t : Option T)

/-- The operation is `setResult` or `setThrowable`. -/
def ParamOp.decides : ParamOp M O T → Bool
  | .setMethod _ | .setThisObject _ | .setArgs _ => false
  | .setResult _ | .setThrowable _ => true

namespace HookParam

/-- `setResult`. -/
def setResult (p : HookParam M O T) (r : Option O) : HookParam M O T where
  method := p.method
  thisObject := p.thisObject
  args := p.args
  result := r
  throwable := none
  returnEarly := true
  undecided := nofun
  exclusive := .inl rfl

/-- `setThrowable`. -/
def setThrowable (p : HookParam M O T) (t : Option T) : HookParam M O T where
  method := p.method
  thisObject := p.thisObject
  args := p.args
  result := none
  throwable := t
  returnEarly := true
  undecided := nofun
  exclusive := .inr rfl

/-- `setResult(null)` and `returnEarly = false`, as after a `before` callback that throws. -/
def reset (p : HookParam M O T) : HookParam M O T :=
  { p.setResult none with
    returnEarly := false
    undecided := fun _ => ⟨rfl, rfl⟩ }

/-- `setResult` or `setThrowable` of what was there, as after an `after` callback that throws. -/
def restore (p q : HookParam M O T) : HookParam M O T :=
  match q.throwable with
  | none => p.setResult q.result
  | some t => p.setThrowable (some t)

/-- One operation. -/
def apply (p : HookParam M O T) : ParamOp M O T → HookParam M O T
  | .setMethod m => { p with method := m }
  | .setThisObject o => { p with thisObject := o }
  | .setArgs as => { p with args := as }
  | .setResult r => p.setResult r
  | .setThrowable t => p.setThrowable t

/-- The public fields of one parameter with the outcome of another one. -/
def withOutcome (p q : HookParam M O T) : HookParam M O T :=
  { q with
    method := p.method
    thisObject := p.thisObject
    args := p.args }

variable {p q : HookParam M O T}

/-- A parameter that is decided stays so. -/
theorem returnEarly_foldl_apply (ops : List (ParamOp M O T)) (h : p.returnEarly = true) :
    (ops.foldl apply p).returnEarly = true := by
  induction ops generalizing p with
  | nil => exact h
  | cons op ops ih =>
    refine ih ?_
    cases op with
    | setMethod | setThisObject | setArgs => exact h
    | setResult | setThrowable => rfl

/-- **Without the setters of the outcome**, the operations leave the outcome and change the rest as
before. -/
theorem foldl_apply_filter (ops : List (ParamOp M O T)) (hpq : p = q.withOutcome p) :
    (ops.filter fun op => !op.decides).foldl apply p = (ops.foldl apply q).withOutcome p := by
  induction ops generalizing p q with
  | nil => exact hpq
  | cons op ops ih =>
    cases op with
    | setMethod | setThisObject | setArgs =>
      refine ih ?_
      rw [hpq]
      rfl
    | setResult | setThrowable => exact ih hpq

/-- The reset parameter has the outcome of one in which nothing was decided. -/
theorem reset_eq (hq : q.returnEarly = false) : p.reset = p.withOutcome q := by
  obtain ⟨hresult, hthrowable⟩ := q.undecided hq
  ext1 <;> simp [reset, setResult, withOutcome, hresult, hthrowable, hq]

/-- The restored parameter has the outcome of one that was decided. -/
theorem restore_eq (hq : q.returnEarly = true) : p.restore q = p.withOutcome q := by
  unfold restore
  cases hthrowable : q.throwable with
  | none => ext1 <;> simp [setResult, withOutcome, hthrowable, hq]
  | some t =>
    have hresult : q.result = none := q.exclusive.resolve_left (by simp [hthrowable])
    ext1 <;> simp [setThrowable, withOutcome, hthrowable, hresult, hq]

end HookParam

/-! ## Callbacks -/

/-- A callback method: what it makes of the world, its operations on the parameter, and what it
throws. -/
abbrev Callback (W M O T : Type*) := W → HookParam M O T → W × List (ParamOp M O T) × Option T

/-- `MethodHook`. -/
structure MethodHook (W M O T : Type*) where
  before : Callback W M O T := fun w _ => (w, [], none)
  after : Callback W M O T := fun w _ => (w, [], none)

/-- `MethodReplacement`, with what `replace` returns or throws. -/
def methodReplacement
    (replace : W → HookParam M O T → W × List (ParamOp M O T) × Except T (Option O)) :
    MethodHook W M O T where
  before w p :=
    match replace w p with
    | (w, ops, .ok result) => (w, ops ++ [.setResult result], none)
    | (w, ops, .error t) => (w, ops ++ [.setThrowable (some t)], none)

/-- `MethodReplacement.returnConstant`. -/
def returnConstant (value : Option O) : MethodHook W M O T :=
  methodReplacement fun w _ => (w, [], .ok value)

/-- A call that dispatch makes. -/
inductive Event where
  | before (i : ℕ)
  | original
  | after (i : ℕ)
  deriving DecidableEq

/-- The state of dispatch: the world, the parameter and the calls made so far. -/
structure Frame (W M O T : Type*) where
  world : W
  param : HookParam M O T
  trace : List Event

/-- Call a callback; the second component tells whether it throws. -/
def Frame.invoke (s : Frame W M O T) (ev : Event) (cb : Callback W M O T) : Frame W M O T × Bool :=
  let r := cb s.world s.param
  (⟨r.1, r.2.1.foldl HookParam.apply s.param, s.trace ++ [ev]⟩, r.2.2.isSome)

section Loops

variable (hooks : List (MethodHook W M O T))

/-- `hooks[i].before(param)` or `hooks[i].after(param)`; an index out of bounds throws as well. -/
def callAt (method : MethodHook W M O T → Callback W M O T) (ev : ℕ → Event) (i : ℕ)
    (s : Frame W M O T) :
    Frame W M O T × Bool :=
  match hooks[i]? with
  | none => (s, true)
  | some h => s.invoke (ev i) (method h)

/-- The body of the first loop; the second component tells whether it breaks. -/
def beforeBody (i : ℕ) (s : Frame W M O T) : Frame W M O T × Bool :=
  match callAt hooks MethodHook.before .before i s with
  -- `continue` skips the test of `returnEarly`
  | (s, true) => ({ s with param := s.param.reset }, false)
  | (s, false) => (s, s.param.returnEarly)

/-- The first loop, from `beforeIdx = i`; with the value of `beforeIdx` after it. -/
def beforeLoop (i : ℕ) (s : Frame W M O T) : Frame W M O T × ℕ :=
  match beforeBody hooks i s with
  | (s, true) => (s, i + 1)
  | (s, false) => if i + 1 < hooks.length then beforeLoop (i + 1) s else (s, i + 1)
termination_by hooks.length - i

/-- The body of the second loop. -/
def afterBody (i : ℕ) (s : Frame W M O T) : Frame W M O T :=
  match callAt hooks MethodHook.after .after i s with
  | (s', false) => s'
  | (s', true) => { s' with param := s'.param.restore s.param }

/-- The second loop, from `afterIdx` on. -/
def afterLoop : ℕ → Frame W M O T → Frame W M O T
  | 0, s => afterBody hooks 0 s
  | i + 1, s => afterLoop i (afterBody hooks (i + 1) s)

end Loops

/-! ## Dispatch -/

/-- What `invokeMember` does: it returns, throws an `InvocationTargetException`, or throws another
exception. -/
inductive Invoked (O T : Type*) where
  | returned (v : Option O)
  | target (cause : T)
  | failed (e : T)

/-- How dispatch ends. -/
inductive Outcome (O T : Type*) where
  | returned (v : Option O)
  | threw (t : T)
  | classCastException
  | arrayIndexOutOfBoundsException
  deriving DecidableEq

/-- What is left of a run of dispatch. -/
structure Run (W O T : Type*) where
  world : W
  trace : List Event
  outcome : Outcome O T
  deriving DecidableEq

/-- `HookEntry`, with the snapshot of its callbacks.  `backup` is `invokeMember` of the backup, and
`returnType` tells the instances of the type, if there is one to cast to. -/
structure HookEntry (W M O T : Type*) where
  backup : W → Option O → Option (List (Option O)) → W × Invoked O T
  method : M
  hooks : List (MethodHook W M O T)
  isStatic : Bool
  returnType : Option (O → Bool)

namespace HookEntry

variable (E : HookEntry W M O T)

/-- A new parameter. -/
def newParam (thisObject : Option O) (args : List (Option O)) : HookParam M O T where
  method := some E.method
  thisObject := thisObject
  args := some args
  result := none
  throwable := none
  returnEarly := false
  undecided := fun _ => ⟨rfl, rfl⟩
  exclusive := .inl rfl

/-- The state in which the loops start; none when there is no `args[0]`. -/
def start (w : W) (args : List (Option O)) : Option (Frame W M O T) :=
  if E.isStatic then some ⟨w, E.newParam none args, []⟩
  else
    match args with
    | [] => none
    | thisObject :: args => some ⟨w, E.newParam thisObject args, []⟩

/-- The call of the original between the loops, if nothing is decided; with an exception that leaves
dispatch. -/
def callOriginal (s : Frame W M O T) : Frame W M O T × Option T :=
  if s.param.returnEarly then (s, none)
  else
    match E.backup s.world s.param.thisObject s.param.args with
    | (w, .returned v) => (⟨w, s.param.setResult v, s.trace ++ [.original]⟩, none)
    | (w, .target cause) => (⟨w, s.param.setThrowable (some cause), s.trace ++ [.original]⟩, none)
    | (w, .failed e) => (⟨w, s.param, s.trace ++ [.original]⟩, some e)

/-- `getResultOrThrowable` and the cast. -/
def result (p : HookParam M O T) : Outcome O T :=
  match p.throwable with
  | some t => .threw t
  | none =>
    match E.returnType, p.result with
    | some isInstance, some v => if isInstance v then .returned (some v) else .classCastException
    | _, v => .returned v

/-- The original alone, for a method without callbacks. -/
def dispatchOriginal (s : Frame W M O T) : Run W O T :=
  match E.backup s.world s.param.thisObject s.param.args with
  | (w, .returned v) => ⟨w, s.trace ++ [.original], .returned v⟩
  | (w, .target cause) => ⟨w, s.trace ++ [.original], .threw cause⟩
  | (w, .failed e) => ⟨w, s.trace ++ [.original], .threw e⟩

/-- Dispatch after the first loop. -/
def dispatchAfter (s : Frame W M O T) (beforeIdx : ℕ) : Run W O T :=
  match E.callOriginal s with
  | (s, some e) => ⟨s.world, s.trace, .threw e⟩
  | (s, none) =>
    let s := afterLoop E.hooks (beforeIdx - 1) s
    ⟨s.world, s.trace, E.result s.param⟩

/-- `dispatch`. -/
def dispatch (w : W) (args : List (Option O)) : Run W O T :=
  match E.start w args with
  | none => ⟨w, [], .arrayIndexOutOfBoundsException⟩
  | some s =>
    if E.hooks.length = 0 then E.dispatchOriginal s
    else E.dispatchAfter (beforeLoop E.hooks 0 s).1 (beforeLoop E.hooks 0 s).2

end HookEntry

/-! ## The first loop -/

section BeforeLoop

variable (hooks : List (MethodHook W M O T)) (s : Frame W M O T)

/-- The state in which the `before` of a callback is called, if those in front of it decide
nothing. -/
def entry : ℕ → Frame W M O T
  | 0 => s
  | i + 1 => (beforeBody hooks i (entry i)).1

/-- The `before` of a callback completes normally with `returnEarly` set. -/
def Intercepts (i : ℕ) : Prop :=
  (callAt hooks MethodHook.before .before i (entry hooks s i)).2 = false ∧
    (callAt hooks MethodHook.before .before i (entry hooks s i)).1.param.returnEarly = true

/-- The loop breaks exactly if `returnEarly` is set. -/
theorem beforeBody_snd (i : ℕ) :
    (beforeBody hooks i s).2 = (beforeBody hooks i s).1.param.returnEarly := by
  unfold beforeBody
  split
  · rfl
  · rfl

variable {hooks s} {i : ℕ}

theorem intercepts_iff :
    Intercepts hooks s i ↔ (entry hooks s (i + 1)).param.returnEarly = true := by
  rw [entry, beforeBody, Intercepts]
  rcases callAt hooks MethodHook.before .before i (entry hooks s i) with ⟨s', _ | _⟩
  · exact and_iff_right rfl
  · exact iff_of_false (fun h => nomatch h.1) nofun

/-- One round of the first loop. -/
theorem beforeLoop_entry (i : ℕ) : beforeLoop hooks i (entry hooks s i) =
    if (entry hooks s (i + 1)).param.returnEarly then (entry hooks s (i + 1), i + 1)
    else if i + 1 < hooks.length then beforeLoop hooks (i + 1) (entry hooks s (i + 1))
    else (entry hooks s (i + 1), i + 1) := by
  have hbreak := beforeBody_snd hooks (entry hooks s i) i
  rw [beforeLoop, entry, ← hbreak]
  rcases beforeBody hooks i (entry hooks s i) with ⟨s', _ | _⟩
  · rfl
  · rfl

/-- **Where the first loop stops**: at the first callback that intercepts the call, or at the last
one. -/
theorem beforeLoop_eq (hi : i < hooks.length) : ∃ k, i ≤ k ∧ k < hooks.length ∧
    (∀ j, i ≤ j → j < k → ¬Intercepts hooks s j) ∧ (Intercepts hooks s k ∨ k + 1 = hooks.length) ∧
      beforeLoop hooks i (entry hooks s i) = (entry hooks s (k + 1), k + 1) := by
  -- on the number of callbacks that are left
  induction hn : hooks.length - i generalizing i with
  | zero => omega
  | succ n ih =>
    rw [beforeLoop_entry]
    by_cases hstop : Intercepts hooks s i
    · rw [if_pos (intercepts_iff.mp hstop)]
      exact ⟨i, Nat.le_refl i, hi, fun j hj hji => absurd hji (by omega), .inl hstop, rfl⟩
    · rw [if_neg fun h => hstop (intercepts_iff.mpr h)]
      by_cases hlast : i + 1 < hooks.length
      · rw [if_pos hlast]
        obtain ⟨k, hik, hk, hfirst, hend, heq⟩ := ih hlast (by omega)
        refine ⟨k, by omega, hk, fun j hj hjk => ?_, hend, heq⟩
        rcases Nat.eq_or_lt_of_le hj with rfl | hj
        · exact hstop
        · exact hfirst j hj hjk
      · rw [if_neg hlast]
        exact ⟨i, Nat.le_refl i, hi, fun j hj hji => absurd hji (by omega), .inr (by omega), rfl⟩

end BeforeLoop

/-! ## The calls -/

section Trace

variable {hooks : List (MethodHook W M O T)} {s : Frame W M O T} {i k : ℕ}

theorem callAt_trace (method : MethodHook W M O T → Callback W M O T) (ev : ℕ → Event)
    (hi : i < hooks.length) :
    (callAt hooks method ev i s).1.trace = s.trace ++ [ev i] := by
  rw [callAt, List.getElem?_eq_getElem hi]
  rfl

theorem beforeBody_trace (hi : i < hooks.length) :
    (beforeBody hooks i s).1.trace = s.trace ++ [.before i] := by
  rw [← callAt_trace MethodHook.before Event.before hi, beforeBody]
  rcases callAt hooks MethodHook.before .before i s with ⟨s', _ | _⟩
  · rfl
  · rfl

theorem afterBody_trace (hi : i < hooks.length) :
    (afterBody hooks i s).trace = s.trace ++ [.after i] := by
  rw [← callAt_trace MethodHook.after Event.after hi, afterBody]
  rcases callAt hooks MethodHook.after .after i s with ⟨s', _ | _⟩
  · rfl
  · rfl

/-- The calls of the first loop. -/
theorem entry_trace (hi : i ≤ hooks.length) :
    (entry hooks s i).trace = s.trace ++ (List.range i).map Event.before := by
  induction i with
  | zero => exact (List.append_nil _).symm
  | succ i ih =>
    rw [entry, beforeBody_trace hi, ih (by omega), List.range_succ, List.map_append,
      List.append_assoc]
    rfl

/-- The calls of the second loop. -/
theorem afterLoop_trace (hi : i < hooks.length) :
    (afterLoop hooks i s).trace = s.trace ++ (List.range (i + 1)).reverse.map Event.after := by
  induction i generalizing s with
  | zero => exact afterBody_trace hi
  | succ i ih =>
    rw [afterLoop, ih (by omega), afterBody_trace hi, List.range_succ (n := i + 1),
      List.reverse_append, List.append_assoc]
    rfl

end Trace

/-- The calls around `mid`, when `k` is the last callback that is reached. -/
def bracket (k : ℕ) (mid : List Event) : List Event :=
  (List.range (k + 1)).map .before ++ mid ++ (List.range (k + 1)).reverse.map .after

namespace HookEntry

variable {E : HookEntry W M O T} {w : W} {args : List (Option O)} {s : Frame W M O T}

/-- The state in which the loops start has a new parameter. -/
theorem start_cases (hstart : E.start w args = some s) :
    ∃ thisObject args', s = ⟨w, E.newParam thisObject args', []⟩ := by
  unfold start at hstart
  split_ifs at hstart
  · exact ⟨none, args, (Option.some.inj hstart).symm⟩
  · cases args with
    | nil => cases hstart
    | cons thisObject args => exact ⟨thisObject, args, (Option.some.inj hstart).symm⟩

theorem start_trace (hstart : E.start w args = some s) : s.trace = [] := by
  obtain ⟨_, _, rfl⟩ := start_cases hstart
  rfl

theorem start_returnEarly (hstart : E.start w args = some s) : s.param.returnEarly = false := by
  obtain ⟨_, _, rfl⟩ := start_cases hstart
  rfl

/-- **Dispatch with callbacks** goes on behind the first loop in the state in which that stops. -/
theorem dispatch_eq (hne : E.hooks ≠ []) (hstart : E.start w args = some s) :
    ∃ k < E.hooks.length, (∀ i < k, ¬Intercepts E.hooks s i) ∧
      (Intercepts E.hooks s k ∨ k + 1 = E.hooks.length) ∧
        E.dispatch w args = E.dispatchAfter (entry E.hooks s (k + 1)) (k + 1) := by
  obtain ⟨k, -, hk, hfirst, hend, heq⟩ := beforeLoop_eq (s := s) (List.length_pos_iff.mpr hne)
  rw [entry] at heq
  refine ⟨k, hk, fun i hi => hfirst i (Nat.zero_le i) hi, hend, ?_⟩
  rw [dispatch, hstart]
  simp only [heq]
  exact if_neg fun h => hne (List.length_eq_zero_iff.mp h)

theorem entry_start_trace (hstart : E.start w args = some s) {k : ℕ} (hk : k < E.hooks.length) :
    (entry E.hooks s (k + 1)).trace = (List.range (k + 1)).map .before := by
  rw [entry_trace hk, start_trace hstart, List.nil_append]

/-- The calls after the first loop, if the call is intercepted. -/
theorem dispatchAfter_trace_of_returnEarly {k : ℕ} (hk : k < E.hooks.length)
    (h : s.param.returnEarly = true) :
    (E.dispatchAfter s (k + 1)).trace = s.trace ++ (List.range (k + 1)).reverse.map .after := by
  rw [dispatchAfter, callOriginal, if_pos h]
  exact afterLoop_trace hk

/-- The calls after the first loop, if the call is not intercepted. -/
theorem dispatchAfter_trace {k : ℕ} (hk : k < E.hooks.length) (h : s.param.returnEarly = false)
    (hbackup : ∀ w thisObject args e, (E.backup w thisObject args).2 ≠ .failed e) :
    (E.dispatchAfter s (k + 1)).trace =
      s.trace ++ [.original] ++ (List.range (k + 1)).reverse.map .after := by
  have hnot := hbackup s.world s.param.thisObject s.param.args
  rw [dispatchAfter, callOriginal, if_neg (by simp [h])]
  rcases hcall : E.backup s.world s.param.thisObject s.param.args with ⟨w', v | cause | e⟩
  · exact afterLoop_trace hk
  · exact afterLoop_trace hk
  · rw [hcall] at hnot
    exact absurd rfl (hnot e)

/-- **The calls that dispatch makes.**  The callback `k` is the first one that intercepts the call,
or the last one. -/
theorem dispatch_trace (E : HookEntry W M O T) (hne : E.hooks ≠ [])
    (hstart : E.start w args = some s)
    (hbackup : ∀ w thisObject args e, (E.backup w thisObject args).2 ≠ .failed e) :
    ∃ k < E.hooks.length, (∀ i < k, ¬Intercepts E.hooks s i) ∧
      (Intercepts E.hooks s k ∧ (E.dispatch w args).trace = bracket k [] ∨
        ¬Intercepts E.hooks s k ∧ k + 1 = E.hooks.length ∧
          (E.dispatch w args).trace = bracket k [.original]) := by
  obtain ⟨k, hk, hfirst, hend, heq⟩ := dispatch_eq hne hstart
  refine ⟨k, hk, hfirst, ?_⟩
  rw [heq]
  by_cases hstop : Intercepts E.hooks s k
  · refine .inl ⟨hstop, ?_⟩
    rw [dispatchAfter_trace_of_returnEarly hk (intercepts_iff.mp hstop),
      entry_start_trace hstart hk, bracket, List.append_nil]
  · have hearly := Bool.eq_false_iff.mpr fun h => hstop (intercepts_iff.mpr h)
    refine .inr ⟨hstop, hend.resolve_left hstop, ?_⟩
    rw [dispatchAfter_trace hk hearly hbackup, entry_start_trace hstart hk, bracket]

/-- A callback that sets a result and throws, and a replacement behind it. -/
def throwsThenReplaces : HookEntry Unit Unit ℕ Unit where
  backup _ _ _ := ((), .returned (some 1))
  method := ()
  hooks := [{ before := fun w _ => (w, [.setResult (some 5)], some ()) }, returnConstant (some 7)]
  isStatic := true
  returnType := none

theorem throwsThenReplaces_trace : ∃ s, throwsThenReplaces.start () [] = some s ∧
    ∃ k < throwsThenReplaces.hooks.length, (∀ i < k, ¬Intercepts throwsThenReplaces.hooks s i) ∧
      (Intercepts throwsThenReplaces.hooks s k ∧
        (throwsThenReplaces.dispatch () []).trace = bracket k [] ∨
        ¬Intercepts throwsThenReplaces.hooks s k ∧ k + 1 = throwsThenReplaces.hooks.length ∧
          (throwsThenReplaces.dispatch () []).trace = bracket k [.original]) :=
  ⟨_, rfl, throwsThenReplaces.dispatch_trace (List.cons_ne_nil _ _) rfl fun _ _ _ _ => nofun⟩

example : throwsThenReplaces.dispatch () [] =
    ⟨(), [.before 0, .before 1, .after 1, .after 0], .returned (some 7)⟩ := by decide +kernel

end HookEntry

/-! ## Replacements -/

theorem intercepts_of_replacement {hooks : List (MethodHook W M O T)} {s : Frame W M O T} {i : ℕ}
    {replace : W → HookParam M O T → W × List (ParamOp M O T) × Except T (Option O)}
    (h : hooks[i]? = some (methodReplacement replace)) : Intercepts hooks s i := by
  simp only [Intercepts, callAt, h, Frame.invoke, methodReplacement]
  rcases replace (entry hooks s i).world (entry hooks s i).param with ⟨w, ops, t | r⟩
  · simp [List.foldl_append, HookParam.apply, HookParam.setThrowable]
  · simp [List.foldl_append, HookParam.apply, HookParam.setResult]

/-- **A `MethodReplacement` among the callbacks** keeps the original from being called. -/
theorem HookEntry.original_not_mem_of_replacement (E : HookEntry W M O T) (w : W)
    (args : List (Option O)) {i : ℕ}
    {replace : W → HookParam M O T → W × List (ParamOp M O T) × Except T (Option O)}
    (h : E.hooks[i]? = some (methodReplacement replace)) :
    Event.original ∉ (E.dispatch w args).trace := by
  obtain ⟨hi, -⟩ := List.getElem?_eq_some_iff.mp h
  cases hstart : E.start w args with
  | none => simp [dispatch, hstart]
  | some s =>
    have hne : E.hooks ≠ [] := List.ne_nil_of_length_pos (Nat.zero_lt_of_lt hi)
    obtain ⟨k, hk, hfirst, hend, heq⟩ := dispatch_eq hne hstart
    have hstop : Intercepts E.hooks s k := by
      rcases hend with hstop | hlast
      · exact hstop
      · -- the loop came to its end, so it has passed the replacement
        rcases Nat.lt_or_ge i k with hik | hik
        · exact absurd (intercepts_of_replacement h) (hfirst i hik)
        · obtain rfl : i = k := by omega
          exact intercepts_of_replacement h
    rw [heq, dispatchAfter_trace_of_returnEarly hk (intercepts_iff.mp hstop),
      entry_start_trace hstart hk]
    simp

/-! ## Callbacks that throw -/

/-- The callback that does not throw, and where the given one throws, does not change the outcome
either. -/
def Callback.quiet (cb : Callback W M O T) : Callback W M O T := fun w p =>
  match cb w p with
  | (w, ops, none) => (w, ops, none)
  | (w, ops, some _) => (w, ops.filter fun op => !op.decides, none)

/-- Both methods of the callback. -/
def MethodHook.quiet (h : MethodHook W M O T) : MethodHook W M O T :=
  ⟨h.before.quiet, h.after.quiet⟩

section Quiet

variable {hooks : List (MethodHook W M O T)} {s : Frame W M O T} {i : ℕ}

theorem Frame.invoke_quiet (s : Frame W M O T) (ev : Event) (cb : Callback W M O T) :
    s.invoke ev cb.quiet =
      match s.invoke ev cb with
      | (s', false) => (s', false)
      | (s', true) => ({ s' with param := s'.param.withOutcome s.param }, false) := by
  simp only [Frame.invoke, Callback.quiet]
  rcases cb s.world s.param with ⟨w, ops, _ | t⟩
  · rfl
  · exact Prod.ext (congrArg (Frame.mk w · _) (HookParam.foldl_apply_filter ops rfl)) rfl

theorem callAt_quiet {method : MethodHook W M O T → Callback W M O T} (ev : ℕ → Event)
    (hmethod : ∀ h, method h.quiet = (method h).quiet) (hi : i < hooks.length) :
    callAt (hooks.map MethodHook.quiet) method ev i s =
      match callAt hooks method ev i s with
      | (s', false) => (s', false)
      | (s', true) => ({ s' with param := s'.param.withOutcome s.param }, false) := by
  rw [callAt, callAt, List.getElem?_map, List.getElem?_eq_getElem hi]
  simp only [Option.map_some, hmethod]
  exact s.invoke_quiet _ _

/-- In the first loop, where nothing is decided yet. -/
theorem beforeBody_quiet (hi : i < hooks.length) (hs : s.param.returnEarly = false) :
    beforeBody (hooks.map MethodHook.quiet) i s = beforeBody hooks i s := by
  rw [beforeBody, beforeBody, callAt_quiet Event.before (fun _ => rfl) hi]
  rcases callAt hooks MethodHook.before .before i s with ⟨s', _ | _⟩
  · rfl
  · simp only [HookParam.reset_eq hs]
    exact Prod.ext rfl hs

theorem beforeLoop_quiet (hi : i < hooks.length) (hs : s.param.returnEarly = false) :
    beforeLoop (hooks.map MethodHook.quiet) i s = beforeLoop hooks i s := by
  induction hn : hooks.length - i generalizing i s with
  | zero => omega
  | succ n ih =>
    have hbreak := beforeBody_snd hooks s i
    rw [beforeLoop, beforeLoop, beforeBody_quiet hi hs, List.length_map]
    rcases hbody : beforeBody hooks i s with ⟨s', _ | _⟩
    · rw [hbody] at hbreak
      simp only
      split_ifs with hlast
      · exact ih hlast hbreak.symm (by omega)
      · rfl
    · rfl

/-- In the second loop, where the outcome is decided. -/
theorem afterBody_quiet (hi : i < hooks.length) (hs : s.param.returnEarly = true) :
    afterBody (hooks.map MethodHook.quiet) i s = afterBody hooks i s := by
  rw [afterBody, afterBody, callAt_quiet Event.after (fun _ => rfl) hi]
  rcases callAt hooks MethodHook.after .after i s with ⟨s', _ | _⟩
  · rfl
  · exact congrArg (Frame.mk s'.world · s'.trace) (HookParam.restore_eq hs).symm

theorem callAt_returnEarly (hooks : List (MethodHook W M O T)) (i : ℕ)
    (method : MethodHook W M O T → Callback W M O T) (ev : ℕ → Event)
    (hs : s.param.returnEarly = true) :
    (callAt hooks method ev i s).1.param.returnEarly = true := by
  rw [callAt]
  cases hooks[i]? with
  | none => exact hs
  | some h => exact HookParam.returnEarly_foldl_apply _ hs

theorem afterBody_returnEarly (hs : s.param.returnEarly = true) :
    (afterBody hooks i s).param.returnEarly = true := by
  have hcall := callAt_returnEarly hooks i MethodHook.after Event.after hs
  rw [afterBody]
  rcases h : callAt hooks MethodHook.after .after i s with ⟨s', _ | _⟩
  · rw [h] at hcall
    exact hcall
  · simp only [HookParam.restore_eq hs]
    exact hs

theorem afterLoop_quiet (hi : i < hooks.length) (hs : s.param.returnEarly = true) :
    afterLoop (hooks.map MethodHook.quiet) i s = afterLoop hooks i s := by
  induction i generalizing s with
  | zero => exact afterBody_quiet hi hs
  | succ i ih =>
    rw [afterLoop, afterLoop, afterBody_quiet hi hs]
    exact ih (by omega) (afterBody_returnEarly hs)

end Quiet

namespace HookEntry

variable (E : HookEntry W M O T)

/-- The entry in which no callback throws. -/
def quiet : HookEntry W M O T := { E with hooks := E.hooks.map MethodHook.quiet }

theorem callOriginal_returnEarly {s s' : Frame W M O T} (h : E.callOriginal s = (s', none)) :
    s'.param.returnEarly = true := by
  unfold callOriginal at h
  split_ifs at h with hs
  · obtain rfl := congrArg Prod.fst h
    exact hs
  · split at h
    · obtain rfl := congrArg Prod.fst h
      rfl
    · obtain rfl := congrArg Prod.fst h
      rfl
    · cases congrArg Prod.snd h

theorem dispatchAfter_quiet (s : Frame W M O T) {k : ℕ} (hk : k < E.hooks.length) :
    E.quiet.dispatchAfter s (k + 1) = E.dispatchAfter s (k + 1) := by
  have hsame : E.quiet.callOriginal s = E.callOriginal s := rfl
  rw [dispatchAfter, dispatchAfter, hsame]
  rcases h : E.callOriginal s with ⟨s', _ | e⟩
  · have hloop : afterLoop E.quiet.hooks k s' = afterLoop E.hooks k s' :=
      afterLoop_quiet hk (E.callOriginal_returnEarly h)
    simp only [Nat.add_sub_cancel, hloop]
    rfl
  · rfl

/-- **A callback that throws makes no difference.**  Dispatch makes the same calls and ends in the
same way when each callback that throws is replaced by one that makes the same changes to the
arguments and the receiver, but leaves the outcome as it was. -/
theorem dispatch_quiet (w : W) (args : List (Option O)) :
    E.quiet.dispatch w args = E.dispatch w args := by
  have hsame : E.quiet.start w args = E.start w args := rfl
  have hlength : E.quiet.hooks.length = E.hooks.length := List.length_map _
  rw [dispatch, dispatch, hsame, hlength]
  cases hstart : E.start w args with
  | none => rfl
  | some s =>
    simp only
    split_ifs with hempty
    · rfl
    · have hpos := Nat.pos_of_ne_zero hempty
      have hloop : beforeLoop E.quiet.hooks 0 s = beforeLoop E.hooks 0 s :=
        beforeLoop_quiet hpos (start_returnEarly hstart)
      obtain ⟨k, -, hk, -, -, heq⟩ := beforeLoop_eq (s := s) hpos
      rw [entry] at heq
      rw [hloop, heq]
      exact E.dispatchAfter_quiet _ hk

end HookEntry

end Java
end CalvinHook
