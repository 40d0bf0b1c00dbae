import Mathlib.Tactic.Common

/-!
# Loops over a state

`next : σ → Option σ` is the body of a loop: the state after one more pass, or none when the loop is
left.

* `walk`: the state after a number of passes.
* `exists_walk_eq_none`: the rule for the end of a loop, with an invariant and a variant.
* `walk_ne_none`: the rule for a loop that does not end, with a set of states it cannot leave.
-/

namespace CalvinHook
namespace Loop

variable {σ : Type*} {next : σ → Option σ} {s : σ} {I : σ → Prop}

/-- The state after `k` passes of a loop, none if it has ended before. -/
def walk (next : σ → Option σ) (s : σ) : ℕ → Option σ
  | 0 => some s
  | k + 1 => (next s).bind fun t => walk next t k

/-- **A loop ends** if every pass keeps the invariant and makes the variant smaller. -/
theorem exists_walk_eq_none (variant : σ → ℕ)
    (hstep : ∀ s t, I s → next s = some t → I t ∧ variant t < variant s) (hs : I s) :
    ∃ k, walk next s k = none := by
  induction hv : variant s using Nat.strongRecOn generalizing s with
  | ind v ih =>
    cases hnext : next s with
    | none => exact ⟨1, by rw [walk, hnext, Option.bind_none]⟩
    | some t =>
      obtain ⟨ht, hlt⟩ := hstep s t hs hnext
      obtain ⟨k, hk⟩ := ih (variant t) (hv ▸ hlt) ht rfl
      exact ⟨k + 1, by rw [walk, hnext, Option.bind_some, hk]⟩

/-- **A loop does not end** if every state of a set leads to another one of it. -/
theorem walk_ne_none (hstep : ∀ s, I s → ∃ t, next s = some t ∧ I t) (hs : I s) (k : ℕ) :
    walk next s k ≠ none := by
  induction k generalizing s with
  | zero => nofun
  | succ k ih =>
    obtain ⟨t, hnext, ht⟩ := hstep s hs
    rw [walk, hnext, Option.bind_some]
    exact ih ht

end Loop
end CalvinHook
