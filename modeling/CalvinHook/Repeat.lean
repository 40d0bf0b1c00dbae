import Mathlib.Data.Nat.Basic
import Mathlib.Order.Basic

/-!
# Loops that are left with a result

`body : σ → σ ⊕ ρ` is one pass of a loop: another state to go on with, or the result with which the
loop is left.  `loop body n` makes up to `n` passes.

* `loop_total`: a loop in which something decreases is left, and with what an invariant says about
  its results.
-/

namespace CalvinHook
namespace Repeat

variable {σ ρ : Type*} {body : σ → σ ⊕ ρ}

/-- Up to `n` passes of a loop. -/
def loop (body : σ → σ ⊕ ρ) : ℕ → σ → Option ρ
  | 0, _ => none
  | n + 1, s =>
    match body s with
    | .inl s' => loop body n s'
    | .inr r => some r

theorem loop_of_inl {s s' : σ} (h : body s = .inl s') (n : ℕ) :
    loop body (n + 1) s = loop body n s' := by
  rw [loop, h]

theorem loop_of_inr {s : σ} {r : ρ} (h : body s = .inr r) (n : ℕ) :
    loop body (n + 1) s = some r := by
  rw [loop, h]

/-- **Total correctness of a loop.**  A pass from a state of the invariant `I` keeps it and makes
the measure smaller, or leaves the loop with a result of `Q`. -/
theorem loop_total {I : σ → Prop} {Q : ρ → Prop} (measure : σ → ℕ)
    (hstep : ∀ s s', I s → body s = .inl s' → I s' ∧ measure s' < measure s)
    (hexit : ∀ s r, I s → body s = .inr r → Q r) {s : σ} (h : I s) {n : ℕ} (hn : measure s < n) :
    ∃ r, loop body n s = some r ∧ Q r := by
  induction n generalizing s with
  | zero => exact absurd hn (Nat.not_lt_zero _)
  | succ n ih =>
    cases hbody : body s with
    | inl s' =>
      obtain ⟨hI, hlt⟩ := hstep s s' h hbody
      obtain ⟨r, hr, hQ⟩ := ih hI (by omega)
      exact ⟨r, by rw [loop_of_inl hbody, hr], hQ⟩
    | inr r => exact ⟨r, loop_of_inr hbody n, hexit s r h hbody⟩

end Repeat
end CalvinHook
