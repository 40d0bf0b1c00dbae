import Mathlib.Data.List.Basic
import Mathlib.Logic.Function.Basic
import Mathlib.Logic.Function.Iterate

/-!
# A history in a ring buffer

A buffer of `cap` places is written from place to place and again from the start.
`Holds buf pos full cap hist` says that it holds the newest part of the history `hist`, a list with
the newest element first: `pos` is the place to be written next and `full` the number of places that
hold something.

* `Holds.get`: the element at a distance.
* `Holds.put`, `Holds.wrap`: one more element, and the start after the end.
* `Holds.store`: a piece that is copied in.
* `Holds.copyFrom`: elements repeated from a distance, which may overlap what is written.
-/

namespace CalvinHook
namespace Ring

variable {α : Type*}

/-- The place of the element at distance `d`, zero for the newest one. -/
def place (pos cap d : ℕ) : ℕ := if d < pos then pos - (d + 1) else pos + cap - (d + 1)

/-- The buffer holds the newest elements of the history. -/
structure Holds (buf : ℕ → α) (pos full cap : ℕ) (hist : List α) : Prop where
  cap_pos : 0 < cap
  pos_le : pos ≤ cap
  full_eq : full = min hist.length cap
  pos_mod : pos % cap = hist.length % cap
  pos_eq : hist.length < cap → pos = hist.length
  get : ∀ d < full, hist[d]? = some (buf (place pos cap d))

namespace Holds

variable {buf : ℕ → α} {pos full cap : ℕ} {hist : List α}

theorem empty (buf : ℕ → α) (h : 0 < cap) : Holds buf 0 0 cap [] where
  cap_pos := h
  pos_le := Nat.zero_le cap
  full_eq := (Nat.zero_min cap).symm
  pos_mod := rfl
  pos_eq := fun _ => rfl
  get := fun d hd => absurd hd (Nat.not_lt_zero d)

theorem pos_le_full (h : Holds buf pos full cap hist) : pos ≤ full := by
  have hfull := h.full_eq
  have hpos := h.pos_le
  by_cases hlt : hist.length < cap
  · have := h.pos_eq hlt
    omega
  · omega

theorem full_le (h : Holds buf pos full cap hist) : full ≤ cap := h.full_eq ▸ Nat.min_le_right _ _

/-- One more element at the next place. -/
theorem put (h : Holds buf pos full cap hist) (hpos : pos < cap) (a : α) :
    Holds (Function.update buf pos a) (pos + 1) (max full (pos + 1)) cap (a :: hist) := by
  have hfull := h.full_eq
  have hmod := h.pos_mod
  have hlen : (a :: hist).length = hist.length + 1 := rfl
  refine ⟨h.cap_pos, hpos, ?_, ?_, ?_, ?_⟩
  · rw [hlen]
    by_cases hlt : hist.length < cap
    · have := h.pos_eq hlt
      omega
    · omega
  · rw [hlen, Nat.add_mod, hmod, ← Nat.add_mod]
  · intro hlt
    rw [hlen] at hlt ⊢
    rw [h.pos_eq (by omega)]
  · intro d hd
    cases d with
    | zero =>
      have hplace : place (pos + 1) cap 0 = pos := by
        unfold place
        rw [if_pos (by omega)]
        omega
      rw [hplace, Function.update_self]
      rfl
    | succ d =>
      have hd' : d < full := by
        by_cases hlt : hist.length < cap
        · have := h.pos_eq hlt
          omega
        · omega
      have hplace : place (pos + 1) cap (d + 1) = place pos cap d := by
        unfold place
        split_ifs <;> omega
      have hne : place pos cap d ≠ pos := by
        unfold place
        split_ifs <;> omega
      rw [hplace, Function.update_of_ne hne]
      exact h.get d hd'

/-- After the last place comes the first one. -/
theorem wrap (h : Holds buf cap full cap hist) : Holds buf 0 full cap hist := by
  have hcap := h.cap_pos
  have hmod := h.pos_mod
  rw [Nat.mod_self] at hmod
  refine ⟨hcap, Nat.zero_le _, h.full_eq, by rw [Nat.zero_mod, hmod], ?_, ?_⟩
  · intro hlt
    have := h.pos_eq hlt
    omega
  · intro d hd
    have hfull := h.full_le
    have hplace : place 0 cap d = place cap cap d := by
      unfold place
      split_ifs <;> omega
    rw [hplace]
    exact h.get d hd

end Holds

/-! ## A piece that is copied in -/

/-- `n` elements of a source, written from place `start` on. -/
def store (buf : ℕ → α) (start : ℕ) (source : ℕ → α) (n : ℕ) : ℕ → α := fun i =>
  if start ≤ i ∧ i < start + n then source (i - start) else buf i

theorem store_zero (buf : ℕ → α) (start : ℕ) (source : ℕ → α) : store buf start source 0 = buf := by
  funext i
  exact if_neg (by omega)

theorem store_succ (buf : ℕ → α) (start : ℕ) (source : ℕ → α) (n : ℕ) :
    store buf start source (n + 1) =
      Function.update (store buf start source n) (start + n) (source n) := by
  funext i
  by_cases hi : i = start + n
  · subst hi
    rw [Function.update_self, store, if_pos (by omega), Nat.add_sub_cancel_left]
  · rw [Function.update_of_ne hi, store, store]
    by_cases hin : start ≤ i ∧ i < start + n
    · rw [if_pos hin, if_pos (by omega)]
    · rw [if_neg hin, if_neg (by omega)]

/-- Two pieces one behind the other. -/
theorem store_store (buf : ℕ → α) (start : ℕ) (source source' : ℕ → α) (n m : ℕ) :
    store (store buf start source n) (start + n) source' m =
      store buf start (fun i => if i < n then source i else source' (i - n)) (n + m) := by
  funext i
  unfold store
  by_cases h1 : start ≤ i ∧ i < start + n
  · rw [if_neg (by omega), if_pos h1, if_pos (by omega)]
    exact (if_pos (by omega)).symm
  · by_cases h2 : start + n ≤ i ∧ i < start + n + m
    · rw [if_pos h2, if_pos (by omega), Nat.sub_add_eq]
      exact (if_neg (by omega)).symm
    · rw [if_neg h2, if_neg h1, if_neg (by omega)]

/-- The first `n` elements of a source, the newest first. -/
def newest (source : ℕ → α) (n : ℕ) : List α := ((List.range n).map source).reverse

theorem newest_succ (source : ℕ → α) (n : ℕ) :
    newest source (n + 1) = source n :: newest source n := by
  rw [newest, List.range_succ, List.map_append, List.reverse_append]
  rfl

theorem Holds.store {buf : ℕ → α} {pos full cap n : ℕ} {hist : List α}
    (h : Holds buf pos full cap hist) (hn : pos + n ≤ cap) (source : ℕ → α) :
    Holds (store buf pos source n) (pos + n) (max full (pos + n)) cap
      (newest source n ++ hist) := by
  induction n with
  | zero =>
    rw [store_zero, Nat.add_zero, Nat.max_eq_left h.pos_le_full]
    exact h
  | succ n ih =>
    have hput := (ih (by omega)).put (by omega) (source n)
    rw [Nat.max_assoc, Nat.max_eq_right (Nat.le_succ (pos + n))] at hput
    rw [store_succ, newest_succ]
    exact hput

/-- The newest elements, oldest first, stand in order before the next place. -/
theorem Holds.get_newest {buf : ℕ → α} {pos full cap n i : ℕ} {hist : List α}
    (h : Holds buf (pos + n) full cap hist) (hi : i < n) :
    ((hist.take n).reverse)[i]? = some (buf (pos + i)) := by
  have hpos := h.pos_le_full
  have hfull := h.full_eq
  have hlength : (hist.take n).length = n := by
    rw [List.length_take]
    omega
  have hplace : place (pos + n) cap (n - 1 - i) = pos + i := by
    unfold place
    rw [if_pos (by omega)]
    omega
  rw [List.getElem?_reverse (by omega), hlength, List.getElem?_take_of_lt (by omega),
    h.get _ (by omega), hplace]

/-! ## Elements from a distance -/

/-- The history after the element at distance `d` has been repeated. -/
def again (d : ℕ) (hist : List α) : List α :=
  match hist[d]? with
  | some a => a :: hist
  | none => hist

/-- One element is copied within the buffer: the buffer, the place written next and the place read
next. -/
def copyStep (cap : ℕ) (s : (ℕ → α) × ℕ × ℕ) : (ℕ → α) × ℕ × ℕ :=
  (Function.update s.1 s.2.1 (s.1 s.2.2), s.2.1 + 1, if s.2.2 + 1 = cap then 0 else s.2.2 + 1)

/-- The next place to be read after one element. -/
theorem place_succ {pos cap d : ℕ} (hcap : d < cap) (hpos : pos < cap) :
    (if place pos cap d + 1 = cap then 0 else place pos cap d + 1) = place (pos + 1) cap d := by
  unfold place
  split_ifs <;> omega

theorem length_again {d : ℕ} {hist : List α} (h : d < hist.length) :
    (again d hist).length = hist.length + 1 := by
  unfold again
  rw [List.getElem?_eq_getElem h]
  rfl

/-- **Copying from a distance.**  `n` elements are copied one by one, so that the first of them may
be read again. -/
theorem Holds.copyFrom {buf : ℕ → α} {pos full cap d n : ℕ} {hist : List α}
    (h : Holds buf pos full cap hist) (hd : d < full) (hn : pos + n ≤ cap) :
    ∃ buf' full', (copyStep cap)^[n] (buf, pos, place pos cap d) =
      (buf', pos + n, place (pos + n) cap d) ∧
      full' = max full (pos + n) ∧ Holds buf' (pos + n) full' cap ((again d)^[n] hist) ∧
      ((again d)^[n] hist).length = hist.length + n ∧ ∀ i, i < pos ∨ pos + n ≤ i →
      buf' i = buf i := by
  induction n with
  | zero =>
    refine ⟨buf, full, rfl, ?_, h, rfl, fun i _ => rfl⟩
    exact (Nat.max_eq_left h.pos_le_full).symm
  | succ n ih =>
    obtain ⟨buf', full', hrun, hfull', hholds, hlength, hframe⟩ := ih (by omega)
    have hd' : d < full' := by omega
    have hplace : (if place (pos + n) cap d + 1 = cap then 0 else place (pos + n) cap d + 1) =
        place (pos + n + 1) cap d := place_succ (Nat.lt_of_lt_of_le hd h.full_le) (by omega)
    have hget := hholds.get d hd'
    have hagain : again d ((again d)^[n] hist) =
        buf' (place (pos + n) cap d) :: (again d)^[n] hist := by
      rw [again, hget]
    refine ⟨Function.update buf' (pos + n) (buf' (place (pos + n) cap d)),
      max full' (pos + n + 1), ?_, ?_, ?_, ?_, ?_⟩
    · rw [Function.iterate_succ_apply', hrun, copyStep]
      dsimp only
      rw [hplace, Nat.add_assoc]
    · omega
    · rw [Function.iterate_succ_apply', hagain]
      exact hholds.put (by omega) _
    · rw [Function.iterate_succ_apply', hagain, List.length_cons, hlength, Nat.add_assoc]
    · intro i hi
      rw [Function.update_of_ne (by omega)]
      exact hframe i (by omega)

end Ring
end CalvinHook
