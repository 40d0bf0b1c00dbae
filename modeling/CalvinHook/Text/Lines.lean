import Mathlib.Data.List.Infix
import Mathlib.Data.List.TakeWhile

/-!
# Searching a text and cutting it at a separator

`find needle s pos` is the position of the first occurrence of `needle` in `s` at or after `pos`.
`lines sep s` cuts `s` behind each separator: the segments that a separator ends, without it, and
what is left behind the last one.

* `findFrom_eq_some`, `findFrom_eq_none`, `findFrom_first`, `findFrom_singleton`: what the search
  returns.
* `lines_append`: a text read in two parts is cut in the same places when the rest of the first part
  is put before the second.
-/

namespace CalvinHook
namespace Text

variable {α : Type*} [DecidableEq α]

/-! ## Search -/

/-- The first occurrence of `needle` in a text whose first position is `i`. -/
def findFrom (needle : List α) (i : ℕ) : List α → Option ℕ
  | [] => if needle <+: [] then some i else none
  | c :: cs => if needle <+: c :: cs then some i else findFrom needle (i + 1) cs

/-- The first occurrence of `needle` at or after the position `pos`. -/
def find (needle s : List α) (pos : ℕ) : Option ℕ := findFrom needle pos (s.drop pos)

theorem findFrom_at_start {needle s : List α} (i : ℕ) (h : needle <+: s) :
    findFrom needle i s = some i := by
  cases s with
  | nil => exact if_pos h
  | cons c cs => exact if_pos h

theorem findFrom_cons {needle cs : List α} {c : α} (i : ℕ) (h : ¬ needle <+: c :: cs) :
    findFrom needle i (c :: cs) = findFrom needle (i + 1) cs := if_neg h

theorem findFrom_eq_none {needle : List α} {i : ℕ} {s : List α} :
    findFrom needle i s = none ↔ ¬ needle <:+: s := by
  induction s generalizing i with
  | nil =>
    rw [List.infix_nil, findFrom]
    simp
  | cons c cs ih =>
    rw [List.infix_cons_iff, not_or]
    by_cases h : needle <+: c :: cs
    · simp [findFrom_at_start i h, h]
    · rw [findFrom_cons i h, ih]
      simp [h]

/-- Where the search succeeds there is an occurrence, and none before it. -/
theorem findFrom_eq_some {needle s : List α} {i j : ℕ} (h : findFrom needle i s = some j) :
    ∃ a b, s = a ++ needle ++ b ∧ j = i + a.length ∧
      ∀ a' b', s = a' ++ needle ++ b' → a.length ≤ a'.length := by
  induction s generalizing i with
  | nil =>
    rw [findFrom] at h
    split_ifs at h with hp
    obtain rfl := Option.some.inj h
    obtain rfl := List.prefix_nil.mp hp
    exact ⟨[], [], rfl, rfl, fun a' b' _ => Nat.zero_le _⟩
  | cons c cs ih =>
    by_cases hp : needle <+: c :: cs
    · obtain rfl := Option.some.inj ((findFrom_at_start i hp).symm.trans h)
      obtain ⟨b, hb⟩ := hp
      exact ⟨[], b, hb.symm, rfl, fun a' b' _ => Nat.zero_le _⟩
    · rw [findFrom_cons i hp] at h
      obtain ⟨a, b, rfl, rfl, hmin⟩ := ih h
      refine ⟨c :: a, b, rfl, by simp only [List.length_cons]; omega, ?_⟩
      intro a' b' hab
      cases a' with
      | nil => exact absurd ⟨b', hab.symm⟩ hp
      | cons d a' =>
        have htail : a ++ needle ++ b = a' ++ needle ++ b' := (List.cons.inj hab).2
        exact Nat.succ_le_succ (hmin a' b' htail)

/-- An occurrence with none before it is the one found. -/
theorem findFrom_first {needle a b : List α} (i : ℕ)
    (h : ∀ a' b', a ++ needle ++ b = a' ++ needle ++ b' → a.length ≤ a'.length) :
    findFrom needle i (a ++ needle ++ b) = some (i + a.length) := by
  rcases hj : findFrom needle i (a ++ needle ++ b) with - | j
  · exact absurd ⟨a, b, rfl⟩ (findFrom_eq_none.mp hj)
  · obtain ⟨a', b', hab, rfl, hmin⟩ := findFrom_eq_some hj
    rw [Nat.le_antisymm (h a' b' hab) (hmin a b rfl)]

theorem find_isSome_iff {needle s : List α} : (find needle s 0).isSome ↔ needle <:+: s := by
  rw [find, List.drop_zero, Option.isSome_iff_ne_none, ne_eq, findFrom_eq_none, not_not]

/-- Searching behind a first part. -/
theorem find_append_length (needle a b : List α) :
    find needle (a ++ b) a.length = findFrom needle a.length b := by
  rw [find, List.drop_left]

/-- A single symbol is found behind the symbols that differ from it. -/
theorem findFrom_singleton {c : α} {a : List α} (i : ℕ) (b : List α) (h : c ∉ a) :
    findFrom [c] i (a ++ c :: b) = some (i + a.length) := by
  induction a generalizing i with
  | nil => exact findFrom_at_start i ⟨b, rfl⟩
  | cons d a ih =>
    rw [List.mem_cons, not_or] at h
    have hp : ¬ [c] <+: d :: (a ++ c :: b) := fun hp => h.1 (List.cons_prefix_cons.mp hp).1
    rw [List.cons_append, findFrom_cons i hp, ih (i + 1) h.2, List.length_cons]
    congr 1
    omega

/-- The text around the first occurrence of a single symbol. -/
theorem exists_of_findFrom_singleton {c : α} {s : List α} {i j : ℕ}
    (h : findFrom [c] i s = some j) :
    ∃ a b, s = a ++ c :: b ∧ c ∉ a ∧ j = i + a.length := by
  obtain ⟨a, b, rfl, rfl, hmin⟩ := findFrom_eq_some h
  refine ⟨a, b, by simp, ?_, rfl⟩
  intro hc
  obtain ⟨a1, a2, rfl⟩ := List.append_of_mem hc
  have hle := hmin a1 (a2 ++ c :: b) (by simp)
  rw [List.length_append, List.length_cons] at hle
  omega

/-! ## Segments -/

/-- The segments ended by the separator, and the rest behind the last one. -/
def lines (sep : α) : List α → List (List α) × List α
  | [] => ([], [])
  | c :: cs =>
    if c = sep then ([] :: (lines sep cs).1, (lines sep cs).2)
    else
      match (lines sep cs).1 with
      | [] => ([], c :: (lines sep cs).2)
      | l :: ls => ((c :: l) :: ls, (lines sep cs).2)

variable {sep : α}

theorem lines_of_not_mem {s : List α} (h : sep ∉ s) : lines sep s = ([], s) := by
  induction s with
  | nil => rfl
  | cons c cs ih =>
    rw [List.mem_cons, not_or] at h
    rw [lines, if_neg (Ne.symm h.1), ih h.2]

theorem lines_append_sep {a : List α} (b : List α) (h : sep ∉ a) :
    lines sep (a ++ sep :: b) = (a :: (lines sep b).1, (lines sep b).2) := by
  induction a with
  | nil => exact if_pos rfl
  | cons c a ih =>
    rw [List.mem_cons, not_or] at h
    rw [List.cons_append, lines, if_neg (Ne.symm h.1), ih h.2]

/-- A text is free of separators or starts with a segment that one ends. -/
theorem not_mem_or_exists_append_sep (sep : α) (s : List α) :
    sep ∉ s ∨ ∃ a b, s = a ++ sep :: b ∧ sep ∉ a := by
  by_cases h : sep ∈ s
  · exact .inr (List.eq_append_cons_of_mem h)
  · exact .inl h

/-- Induction over the segments of a text. -/
theorem lines_induction {motive : List α → Prop} (sep : α) (rest : ∀ s, sep ∉ s → motive s)
    (segment : ∀ a b, sep ∉ a → motive b → motive (a ++ sep :: b)) (s : List α) : motive s := by
  rcases not_mem_or_exists_append_sep sep s with h | ⟨a, b, rfl, ha⟩
  · exact rest s h
  · exact segment a b ha (lines_induction sep rest segment b)
termination_by s.length
decreasing_by
  subst_vars
  simp only [List.length_append, List.length_cons]
  omega

/-- **Reading in parts.**  The rest of the first part is put before the second. -/
theorem lines_append (s t : List α) :
    lines sep (s ++ t) =
      ((lines sep s).1 ++ (lines sep ((lines sep s).2 ++ t)).1,
        (lines sep ((lines sep s).2 ++ t)).2) := by
  induction s using lines_induction sep with
  | rest s h => rw [lines_of_not_mem h, List.nil_append]
  | segment a b ha ih =>
    rw [List.append_assoc, List.cons_append, lines_append_sep _ ha, ih, lines_append_sep _ ha]
    rfl

/-- The segments and the rest make up the text. -/
theorem flatMap_lines (s : List α) :
    (lines sep s).1.flatMap (· ++ [sep]) ++ (lines sep s).2 = s := by
  induction s using lines_induction sep with
  | rest s h => rw [lines_of_not_mem h]; rfl
  | segment a b ha ih =>
    rw [lines_append_sep _ ha, List.flatMap_cons, List.append_assoc, ih]
    simp

theorem sep_not_mem_rest (s : List α) : sep ∉ (lines sep s).2 := by
  induction s using lines_induction sep with
  | rest s h => rwa [lines_of_not_mem h]
  | segment a b ha ih => rwa [lines_append_sep _ ha]

/-- Symbols behind the last separator change no segment. -/
theorem lines_append_of_not_mem (s : List α) {t : List α} (h : sep ∉ t) :
    lines sep (s ++ t) = ((lines sep s).1, (lines sep s).2 ++ t) := by
  have hrest : sep ∉ (lines sep s).2 ++ t := by
    rw [List.mem_append, not_or]
    exact ⟨sep_not_mem_rest s, h⟩
  rw [lines_append, lines_of_not_mem hrest, List.append_nil]

/-- The symbols of a segment come from the text. -/
theorem mem_of_mem_lines {s l : List α} {x : α} (hl : l ∈ (lines sep s).1) (hx : x ∈ l) :
    x ∈ s := by
  have htext : (lines sep s).1.flatMap (· ++ [sep]) ++ (lines sep s).2 = s := flatMap_lines s
  rw [← htext, List.mem_append, List.mem_flatMap]
  exact .inl ⟨l, hl, List.mem_append_left _ hx⟩

/-- A symbol that is in no segment stands behind the last separator. -/
theorem sep_not_mem_of_not_mem_lines {s t : List α} {x : α} (hx : x ≠ sep)
    (h : ∀ l ∈ (lines sep (s ++ x :: t)).1, x ∉ l) : sep ∉ t := by
  intro ht
  obtain ⟨a, b, rfl, ha⟩ := List.eq_append_cons_of_mem ht
  have hseg : sep ∉ (lines sep s).2 ++ x :: a := by
    rw [List.mem_append, List.mem_cons]
    rintro (hs | hs | hs)
    · exact sep_not_mem_rest s hs
    · exact hx hs.symm
    · exact ha hs
  have hcut : (lines sep s).2 ++ x :: (a ++ sep :: b) = (lines sep s).2 ++ x :: a ++ sep :: b := by
    rw [List.append_assoc, List.cons_append]
  refine h ((lines sep s).2 ++ x :: a) ?_ (List.mem_append_right _ (List.mem_cons_self ..))
  rw [lines_append, hcut, lines_append_sep _ hseg]
  exact List.mem_append_right _ (List.mem_cons_self ..)

end Text
end CalvinHook
