import Mathlib.Data.List.Basic
import Mathlib.Logic.Function.Basic

/-!
# Runs of a deterministic transition system

`step : σ → α → σ` makes one step under an input.  A run is a list of inputs; `AllStates` says that
a property holds in every state of a run, the first one included, and `AllSteps` that a condition
holds of every state together with the input that comes next.

* `AllSteps.invariant`: the invariant rule, for an invariant that steps under a condition keep;
  `AllSteps.of_invariant`: what it says about the steps.
* `AllStates.invariant`: the same for an invariant kept between states of a known property.
* `allStates_iff_allSteps`: when a condition on a step decides whether the property survives it, a
  run keeps the property exactly if all its steps meet the condition.
* `allStates_comp`: the same run in another system.
* `AllStates.run_take`: the property at each prefix.
* `update_eq_some`: a table in which a step sets one value.
-/

namespace CalvinHook
namespace Transition

variable {σ α : Type*} (step : σ → α → σ)

/-- The state after a list of inputs. -/
def run (s : σ) (as : List α) : σ := as.foldl step s

/-- Every step of the run meets the condition `P`. -/
def AllSteps (P : σ → α → Prop) : σ → List α → Prop
  | _, [] => True
  | s, a :: as => P s a ∧ AllSteps P (step s a) as

/-- Every state of the run has the property `I`. -/
def AllStates (I : σ → Prop) : σ → List α → Prop
  | s, [] => I s
  | s, a :: as => I s ∧ AllStates I (step s a) as

variable {step} {P : σ → α → Prop} {I J : σ → Prop} {s : σ} {as : List α}

@[simp] theorem run_nil : run step s [] = s := rfl

@[simp] theorem run_cons {a : α} : run step s (a :: as) = run step (step s a) as := rfl

theorem run_append {bs : List α} : run step s (as ++ bs) = run step (run step s as) bs :=
  List.foldl_append

theorem run_take_succ {i : ℕ} {a : α} (h : as[i]? = some a) :
    run step s (as.take (i + 1)) = step (run step s (as.take i)) a := by
  rw [List.take_add_one, h, Option.toList_some, run, List.foldl_append]
  rfl

theorem allSteps_of_forall (h : ∀ s a, P s a) (s : σ) (as : List α) : AllSteps step P s as := by
  induction as generalizing s with
  | nil => trivial
  | cons a as ih => exact ⟨h s a, ih (step s a)⟩

/-- Conditions that agree where the assumption on the steps holds. -/
theorem AllSteps.congr {A Q : σ → α → Prop} (h : AllSteps step A s as)
    (hiff : ∀ s a, A s a → (P s a ↔ Q s a)) : AllSteps step P s as ↔ AllSteps step Q s as := by
  induction as generalizing s with
  | nil => exact Iff.rfl
  | cons a as ih => exact and_congr (hiff s a h.1) (ih h.2)

theorem AllStates.head (h : AllStates step I s as) : I s := by
  cases as with
  | nil => exact h
  | cons a as => exact h.1

/-- The property holds at each prefix of the run. -/
theorem AllStates.run_take (h : AllStates step I s as) (i : ℕ) : I (run step s (as.take i)) := by
  induction as generalizing s i with
  | nil =>
    rw [List.take_nil]
    exact h
  | cons a as ih =>
    cases i with
    | zero => exact h.1
    | succ i => exact ih h.2 i

/-- An invariant that is kept between states of a known property. -/
theorem AllStates.invariant (h : AllStates step J s as) (h0 : I s)
    (hstep : ∀ s a, I s → J s → J (step s a) → I (step s a)) : AllStates step I s as := by
  induction as generalizing s with
  | nil => exact h0
  | cons a as ih => exact ⟨h0, ih h.2 (hstep s a h0 h.1 h.2.head)⟩

theorem AllStates.mono (h : AllStates step I s as) (hIJ : ∀ s, I s → J s) :
    AllStates step J s as := by
  induction as generalizing s with
  | nil => exact hIJ s h
  | cons a as ih => exact ⟨hIJ s h.1, ih h.2⟩

/-- A run that is seen through a map which carries one system to another. -/
theorem allStates_comp {τ : Type*} {step' : τ → α → τ} {f : σ → τ} {K : τ → Prop}
    (hf : ∀ s a, f (step s a) = step' (f s) a) :
    AllStates step (fun s => K (f s)) s as ↔ AllStates step' K (f s) as := by
  induction as generalizing s with
  | nil => exact Iff.rfl
  | cons a as ih =>
    rw [AllStates, AllStates, ih, hf]

/-- An invariant that every step under the condition keeps. -/
theorem AllSteps.invariant (h : AllSteps step P s as) (h0 : I s)
    (hstep : ∀ s a, I s → P s a → I (step s a)) : AllStates step I s as := by
  induction as generalizing s with
  | nil => exact h0
  | cons a as ih => exact ⟨h0, ih h.2 (hstep s a h0 h.1)⟩

/-- **A property decided step by step.**  Under assumptions `A` on the steps and an invariant `I`,
let the condition `P` keep the invariant, and let a step against `P` lose the property `J`.  Then a
run has `J` everywhere exactly if all its steps meet `P`. -/
theorem allStates_iff_allSteps {A : σ → α → Prop} (h0 : I s) (hA : AllSteps step A s as)
    (hIJ : ∀ s, I s → J s) (hkeep : ∀ s a, I s → A s a → P s a → I (step s a))
    (hlose : ∀ s a, I s → A s a → ¬ P s a → ¬ J (step s a)) :
    AllStates step J s as ↔ AllSteps step P s as := by
  induction as generalizing s with
  | nil => exact ⟨fun _ => trivial, fun _ => hIJ s h0⟩
  | cons a as ih =>
    by_cases hP : P s a
    · have hrec := ih (hkeep s a h0 hA.1 hP) hA.2
      constructor
      · rintro ⟨-, h⟩
        exact ⟨hP, hrec.mp h⟩
      · rintro ⟨-, h⟩
        exact ⟨hIJ s h0, hrec.mpr h⟩
    · constructor
      · rintro ⟨-, h⟩
        exact absurd h.head (hlose s a h0 hA.1 hP)
      · rintro ⟨h, -⟩
        exact absurd h hP

/-! ## Tables -/

/-- The values of a table of the state after a step has set one of them. -/
theorem update_eq_some {κ β : Type*} [DecidableEq κ] {f : κ → Option β} {a k : κ} {v : Option β}
    {x : β} (h : Function.update f a v k = some x) :
    (k = a ∧ v = some x) ∨ (k ≠ a ∧ f k = some x) := by
  by_cases hk : k = a
  · subst hk
    rw [Function.update_self] at h
    exact .inl ⟨rfl, h⟩
  · rw [Function.update_of_ne hk] at h
    exact .inr ⟨hk, h⟩

end Transition
end CalvinHook
