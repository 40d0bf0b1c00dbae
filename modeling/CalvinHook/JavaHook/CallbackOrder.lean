import Mathlib.Algebra.Group.Int.Defs
import Mathlib.Data.List.Pairwise
import Mathlib.Data.Set.Insert
import CalvinHook.JavaHook.HookBridge

/-!
# The order of the callbacks

`CopyOnWriteSortedSet` sorts its elements each time one is added, by `MethodHook.compareTo`, which
subtracts priorities.  The difference of two `int`s that are far apart wraps, so `compareTo` is an
order only among callbacks whose priorities are less than `2 ^ 31` apart.  Nothing is known of
`Arrays.sort` for a comparison that is not an order; where it is one, the callbacks that are far
apart come out in the wrong order.

* `ArraySort`: what is known of `Arrays.sort`.
* `isTotalPreorder_compareTo`: when `compareTo` is an order.
* `InOrder.add`, `InOrder.remove`: what the calls keep.
* `not_sorted_of_far`, `worstSort`: what happens when two priorities are too far apart.
* `inOrder_run_iff`: the runs in which the callbacks stay in order.
-/

namespace CalvinHook
namespace Java

open Transition

variable {C : Type*}

/-! ## Sorting -/

/-- The comparison is a total preorder on the elements of an array. -/
structure IsTotalPreorder (cmp : C → C → ℤ) (l : List C) : Prop where
  sign : ∀ a ∈ l, ∀ b ∈ l, (cmp a b).sign = -(cmp b a).sign
  trans : ∀ a ∈ l, ∀ b ∈ l, ∀ c ∈ l, cmp a b ≤ 0 → cmp b c ≤ 0 → cmp a c ≤ 0

/-- `Arrays.sort`: it sorts by any comparison that is a total preorder. -/
structure ArraySort (C : Type*) where
  sort : (C → C → ℤ) → List C → List C
  sorts : ∀ cmp l, IsTotalPreorder cmp l → (sort cmp l).Perm l ∧
    (sort cmp l).Pairwise fun a b => cmp a b ≤ 0

theorem IsTotalPreorder.total {cmp : C → C → ℤ} {l : List C} (h : IsTotalPreorder cmp l) {a b : C}
    (ha : a ∈ l) (hb : b ∈ l) : cmp a b ≤ 0 ∨ cmp b a ≤ 0 := by
  have hsign := h.sign a ha b hb
  by_contra hnot
  push Not at hnot
  rw [Int.sign_eq_one_of_pos hnot.1, Int.sign_eq_one_of_pos hnot.2] at hsign
  omega

/-- An array can be sorted by a total preorder. -/
theorem IsTotalPreorder.exists_sorted {cmp : C → C → ℤ} {l : List C} (h : IsTotalPreorder cmp l) :
    ∃ l' : List C, l'.Perm l ∧ l'.Pairwise fun a b => cmp a b ≤ 0 := by
  classical
  let r : {a // a ∈ l} → {a // a ∈ l} → Prop := fun a b => cmp a b ≤ 0
  have : Std.Total r := ⟨fun a b => h.total a.2 b.2⟩
  have : IsTrans _ r := ⟨fun a b c => h.trans a a.2 b b.2 c c.2⟩
  refine ⟨(l.attach.insertionSort r).map Subtype.val, ?_, ?_⟩
  · have hperm := (List.perm_insertionSort r l.attach).map Subtype.val
    rwa [List.attach_map_subtype_val] at hperm
  · exact List.pairwise_map.mpr (List.pairwise_insertionSort r l.attach)

/-- Two elements of a list are related in one order or the other. -/
theorem rel_or_rel_of_pairwise {R : C → C → Prop} {l : List C} (h : l.Pairwise R) {a b : C}
    (ha : a ∈ l) (hb : b ∈ l) (hne : a ≠ b) : R a b ∨ R b a := by
  have : Std.Symm fun x y => R x y ∨ R y x := ⟨fun _ _ => Or.symm⟩
  exact (h.imp Or.inl : l.Pairwise fun x y => R x y ∨ R y x).forall ha hb hne

/-! ## `MethodHook.compareTo` -/

section CompareTo

variable [DecidableEq C] (priority hash : C → BitVec 32)

/-- `Integer.compare`. -/
def integerCompare (x y : BitVec 32) : ℤ := if x.slt y then -1 else if x = y then 0 else 1

/-- `compareTo`; `hash` is `System.identityHashCode`. -/
def compareTo (a b : C) : ℤ :=
  if a = b then 0
  else if priority b ≠ priority a then (priority b - priority a).toInt
  else integerCompare (hash a) (hash b)

/-- The priorities are less than `2 ^ 31` apart. -/
def Close (s : Set C) : Prop := ∀ a ∈ s, ∀ b ∈ s, (priority a).toInt - (priority b).toInt < 2 ^ 31

variable {priority hash} {l : List C} {a b : C}

/-- A difference that does not wrap. -/
theorem toInt_sub_eq {x y : BitVec 32} (h : x.toInt - y.toInt < 2 ^ 31)
    (h' : y.toInt - x.toInt < 2 ^ 31) :
    (y - x).toInt = y.toInt - x.toInt := by
  rw [BitVec.toInt_sub]
  exact Int.bmod_eq_of_le (by omega) (by omega)

/-- A difference that wraps is not negative, unless it is the smallest one. -/
theorem toInt_sub_of_far {x y : BitVec 32} (h : 2 ^ 31 ≤ x.toInt - y.toInt) :
    0 < (y - x).toInt ∨ (y - x).toInt < 0 ∧ (x - y).toInt < 0 := by
  have hx := x.toInt_lt
  have hy := y.le_toInt
  rw [BitVec.toInt_sub, BitVec.toInt_sub, Int.bmod_def, Int.bmod_def]
  omega

theorem integerCompare_le_zero_iff {x y : BitVec 32} :
    integerCompare x y ≤ 0 ↔ x.toInt ≤ y.toInt := by
  rw [integerCompare, BitVec.slt_eq_decide]
  simp only [decide_eq_true_eq]
  split_ifs with hlt heq
  · omega
  · simp [heq]
  · have hne : x.toInt ≠ y.toInt := fun h => heq (BitVec.eq_of_toInt_eq h)
    omega

theorem integerCompare_swap (x y : BitVec 32) : integerCompare x y = -integerCompare y x := by
  simp only [integerCompare, BitVec.slt_eq_decide, decide_eq_true_eq]
  rcases lt_trichotomy x.toInt y.toInt with h | h | h
  · have hne : y ≠ x := fun heq => h.ne (by rw [heq])
    rw [if_pos h, if_neg (by omega), if_neg hne]
  · obtain rfl := BitVec.eq_of_toInt_eq h
    simp
  · have hne : x ≠ y := fun heq => h.ne (by rw [heq])
    rw [if_neg (by omega), if_neg hne, if_pos h]
    rfl

/-- The test for identity makes no difference. -/
theorem compareTo_eq (a b : C) : compareTo priority hash a b =
    if priority b ≠ priority a then (priority b - priority a).toInt
    else integerCompare (hash a) (hash b) := by
  by_cases hab : a = b
  · subst hab
    simp [compareTo, integerCompare, BitVec.slt_eq_decide]
  · rw [compareTo, if_neg hab]

section Close

variable (hab : (priority a).toInt - (priority b).toInt < 2 ^ 31)
  (hba : (priority b).toInt - (priority a).toInt < 2 ^ 31)
include hab hba

/-- Among priorities that are close, a higher priority comes first. -/
theorem compareTo_le_zero_iff : compareTo priority hash a b ≤ 0 ↔
    (priority b).toInt < (priority a).toInt ∨
      priority a = priority b ∧ (hash a).toInt ≤ (hash b).toInt := by
  rw [compareTo_eq]
  split_ifs with hne
  · have hne' : (priority b).toInt ≠ (priority a).toInt := fun h => hne (BitVec.eq_of_toInt_eq h)
    rw [toInt_sub_eq hab hba, or_iff_left fun h => hne h.1.symm]
    omega
  · rw [not_not] at hne
    rw [integerCompare_le_zero_iff, hne, or_iff_right (lt_irrefl _), and_iff_right rfl]

theorem compareTo_swap : compareTo priority hash a b = -compareTo priority hash b a := by
  rw [compareTo_eq, compareTo_eq]
  by_cases hne : priority b = priority a
  · rw [if_neg (not_not.mpr hne), if_neg (not_not.mpr hne.symm), integerCompare_swap]
  · rw [if_pos hne, if_pos (Ne.symm hne), toInt_sub_eq hab hba, toInt_sub_eq hba hab]
    omega

end Close

variable (hash) in
/-- **`compareTo` is an order** among callbacks whose priorities are close. -/
theorem isTotalPreorder_compareTo (h : Close priority {a | a ∈ l}) :
    IsTotalPreorder (compareTo priority hash) l := by
  constructor
  · intro a ha b hb
    rw [compareTo_swap (h a ha b hb) (h b hb a ha), Int.sign_neg]
  · intro a ha b hb c hc hab hbc
    rw [compareTo_le_zero_iff (h a ha b hb) (h b hb a ha)] at hab
    rw [compareTo_le_zero_iff (h b hb c hc) (h c hc b hb)] at hbc
    rw [compareTo_le_zero_iff (h a ha c hc) (h c hc a ha)]
    rcases hab with hab | ⟨hab, hash_ab⟩
    · rcases hbc with hbc | ⟨hbc, -⟩
      · exact .inl (hbc.trans hab)
      · exact .inl (hbc ▸ hab)
    · rcases hbc with hbc | ⟨hbc, hash_bc⟩
      · exact .inl (hab ▸ hbc)
      · exact .inr ⟨hab.trans hbc, hash_ab.trans hash_bc⟩

/-- A list sorted by `compareTo` is sorted by priority, if the priorities are close. -/
theorem pairwise_priority_of_close (h : Close priority {a | a ∈ l})
    (hl : l.Pairwise fun a b => compareTo priority hash a b ≤ 0) :
    l.Pairwise fun a b => (priority b).toInt ≤ (priority a).toInt := by
  refine hl.imp_of_mem fun ha hb hab => ?_
  rcases (compareTo_le_zero_iff (h _ ha _ hb) (h _ hb _ ha)).mp hab with hlt | ⟨heq, -⟩
  · exact hlt.le
  · rw [heq]

/-- **Two priorities that are too far apart come out in the wrong order**, if `compareTo` is an
order on the list at all. -/
theorem not_sorted_of_far (hsign : ∀ a ∈ l, ∀ b ∈ l,
      (compareTo priority hash a b).sign = -(compareTo priority hash b a).sign)
    (hl : l.Pairwise fun a b => compareTo priority hash a b ≤ 0) (ha : a ∈ l) (hb : b ∈ l)
    (hfar : 2 ^ 31 ≤ (priority a).toInt - (priority b).toInt) :
    ¬l.Pairwise fun a b => (priority b).toInt ≤ (priority a).toInt := by
  intro hpriority
  have hne : priority b ≠ priority a := by
    intro h
    rw [h] at hfar
    omega
  have hcmp : compareTo priority hash a b = (priority b - priority a).toInt := by
    rw [compareTo_eq, if_pos hne]
  have hcmp' : compareTo priority hash b a = (priority a - priority b).toInt := by
    rw [compareTo_eq, if_pos hne.symm]
  have hab : a ≠ b := fun h => hne (by rw [h])
  rcases rel_or_rel_of_pairwise (hl.and hpriority) ha hb hab with ⟨hle, -⟩ | ⟨-, hle⟩
  · rcases toInt_sub_of_far hfar with hpos | ⟨hneg, hneg'⟩
    · rw [hcmp] at hle
      omega
    · -- both comparisons are negative
      have h := hsign a ha b hb
      rw [hcmp, hcmp', Int.sign_eq_neg_one_of_neg hneg, Int.sign_eq_neg_one_of_neg hneg'] at h
      omega
  · omega

end CompareTo

/-! ## The calls -/

/-- A call on the set. -/
inductive SetCall (C : Type*) where
  | add (e : C)
  | remove (e : C)

/-- The objects that have been added and not removed since. -/
def presentStep (s : Set C) : SetCall C → Set C
  | .add e => insert e s
  | .remove e => s \ {e}

section Calls

variable [DecidableEq C] (priority hash : C → BitVec 32) (S : ArraySort C)

/-- `CopyOnWriteSortedSet.add`, for any way to sort the new array. -/
def addWith (sort : List C → List C) (elements : List C) (e : C) : List C :=
  if e ∈ elements then elements else sort (elements ++ [e])

/-- The set in the model of `HookBridge` is sorted by insertion. -/
theorem add_eq_addWith (compareLe : C → C → Bool) (elements : List C) (e : C) :
    add compareLe elements e = addWith (List.insertionSort fun a b => compareLe a b) elements e :=
  rfl

/-- A call, on the array and on the objects that are present. -/
def callStep (s : List C × Set C) (c : SetCall C) : List C × Set C :=
  (match c with
    | .add e => addWith (S.sort (compareTo priority hash)) s.1 e
    | .remove e => remove s.1 e,
    presentStep s.2 c)

/-- The array has the objects that are present, each of them once, the highest priority first. -/
structure InOrder (s : List C × Set C) : Prop where
  nodup : s.1.Nodup
  mem_iff : ∀ a, a ∈ s.1 ↔ a ∈ s.2
  sorted : s.1.Pairwise fun a b => (priority b).toInt ≤ (priority a).toInt

variable {priority hash S} {s : List C × Set C} {e : C}

omit [DecidableEq C] in
theorem Close.mono {s t : Set C} (h : Close priority t) (hst : s ⊆ t) : Close priority s :=
  fun a ha b hb => h a (hst ha) b (hst hb)

omit [DecidableEq C] in
/-- The objects of the new array. -/
theorem InOrder.present_append (h : InOrder priority s) (e : C) :
    {a | a ∈ s.1 ++ [e]} = insert e s.2 := by
  ext a
  simp [h.mem_iff, or_comm]

/-- Adding an object that is present. -/
theorem InOrder.add_of_mem (h : InOrder priority s) (he : e ∈ s.1) :
    callStep priority hash S s (.add e) = s := by
  have hpresent : presentStep s.2 (.add e) = s.2 := Set.insert_eq_of_mem ((h.mem_iff e).mp he)
  rw [callStep, hpresent]
  exact Prod.ext (if_pos he) rfl

/-- Adding an object whose priority is close to the others. -/
theorem InOrder.add (h : InOrder priority s) (he : e ∉ s.1)
    (hclose : Close priority (insert e s.2)) :
    InOrder priority (callStep priority hash S s (.add e)) := by
  rw [← h.present_append] at hclose
  obtain ⟨hperm, hsorted⟩ := S.sorts _ _ (isTotalPreorder_compareTo hash hclose)
  have hnew : (callStep priority hash S s (.add e)).1 =
      S.sort (compareTo priority hash) (s.1 ++ [e]) := if_neg he
  refine ⟨?_, ?_, ?_⟩
  · rw [hnew, hperm.nodup_iff, List.nodup_append]
    simp only [h.nodup, List.nodup_singleton, true_and]
    intro a ha b hb
    obtain rfl := List.mem_singleton.mp hb
    exact fun hab => he (hab ▸ ha)
  · intro a
    rw [hnew, hperm.mem_iff]
    exact Set.ext_iff.mp (h.present_append e) a
  · rw [hnew]
    refine pairwise_priority_of_close (hclose.mono fun a ha => ?_) hsorted
    exact hperm.mem_iff.mp ha

/-- Removing an object. -/
theorem InOrder.remove (h : InOrder priority s) (e : C) :
    InOrder priority (callStep priority hash S s (.remove e)) := by
  refine ⟨h.nodup.erase e, ?_, h.sorted.sublist List.erase_sublist⟩
  intro a
  refine (h.nodup.mem_erase_iff).trans ?_
  rw [h.mem_iff, and_comm]
  rfl

/-! ## Runs -/

variable (priority) in
/-- A way to sort that is as bad as it may be: by rising priority, where the comparison is not an
order. -/
noncomputable def worstSort : ArraySort C where
  sort cmp l := by
    classical
    exact if h : IsTotalPreorder cmp l then h.exists_sorted.choose
      else l.insertionSort fun a b => (priority a).toInt ≤ (priority b).toInt
  sorts cmp l h := by
    classical
    simp only [dif_pos h]
    exact h.exists_sorted.choose_spec

/-- The worst sort puts priorities that are far apart in the wrong order. -/
theorem worstSort_not_sorted {l : List C} {a b : C} (ha : a ∈ l) (hb : b ∈ l)
    (hfar : 2 ^ 31 ≤ (priority a).toInt - (priority b).toInt) :
    ¬((worstSort priority).sort (compareTo priority hash) l).Pairwise
      fun a b => (priority b).toInt ≤ (priority a).toInt := by
  by_cases horder : IsTotalPreorder (compareTo priority hash) l
  · obtain ⟨hperm, hcmp⟩ := (worstSort priority).sorts _ _ horder
    refine not_sorted_of_far (fun a ha b hb => ?_) hcmp (hperm.mem_iff.mpr ha)
      (hperm.mem_iff.mpr hb) hfar
    exact horder.sign a (hperm.mem_iff.mp ha) b (hperm.mem_iff.mp hb)
  · -- an array that is sorted both ways has one priority only
    let rising : C → C → Prop := fun a b => (priority a).toInt ≤ (priority b).toInt
    have hworst : (worstSort priority).sort (compareTo priority hash) l = l.insertionSort rising :=
      dif_neg horder
    rw [hworst]
    intro hsorted
    have : Std.Total rising := ⟨fun a b => le_total _ _⟩
    have : IsTrans C rising := ⟨fun a b c => le_trans⟩
    have hab : a ≠ b := by
      rintro rfl
      omega
    have hperm := List.perm_insertionSort rising l
    rcases rel_or_rel_of_pairwise ((List.pairwise_insertionSort rising l).and hsorted)
      (hperm.mem_iff.mpr ha)
      (hperm.mem_iff.mpr hb) hab with ⟨hle, hle'⟩ | ⟨hle, hle'⟩
    · have hle : (priority a).toInt ≤ (priority b).toInt := hle
      omega
    · omega

/-- **An object whose priority is too far from another one** is put in the wrong place by the worst
sort. -/
theorem InOrder.not_add (h : InOrder priority s) (he : e ∉ s.1)
    (hclose : ¬Close priority (insert e s.2)) :
    ¬InOrder priority (callStep priority hash (worstSort priority) s (.add e)) := by
  rw [← h.present_append, Close] at hclose
  push Not at hclose
  obtain ⟨a, ha, b, hb, hfar⟩ := hclose
  have hnew : (callStep priority hash (worstSort priority) s (.add e)).1 =
      (worstSort priority).sort (compareTo priority hash) (s.1 ++ [e]) := if_neg he
  intro hgood
  have hsorted := hgood.sorted
  rw [hnew] at hsorted
  exact worstSort_not_sorted ha hb hfar hsorted

variable (priority hash) in
/-- **When the callbacks stay in order.**  They do so for every way to sort by an order, exactly if
at no time two callbacks are present whose priorities are `2 ^ 31` or more apart. -/
theorem inOrder_run_iff (calls : List (SetCall C)) :
    (∀ S : ArraySort C, AllStates (callStep priority hash S) (InOrder priority) ([], ∅) calls) ↔
      AllStates presentStep (Close priority) ∅ calls := by
  have hpresent (S : ArraySort C) :
      AllStates (callStep priority hash S) (fun s => Close priority s.2) ([], ∅) calls ↔
        AllStates presentStep (Close priority) ∅ calls := allStates_comp fun _ _ => rfl
  constructor
  · intro h
    refine (hpresent (worstSort priority)).mp
      ((h (worstSort priority)).invariant (by simp [Close]) ?_)
    intro s c hclose horder hnext
    cases c with
    | add e =>
      by_cases he : e ∈ s.1
      · rwa [horder.add_of_mem he]
      · by_contra hfar
        exact horder.not_add he hfar hnext
    | remove e => exact hclose.mono Set.sdiff_subset
  · intro h S
    refine ((hpresent S).mpr h).invariant ⟨List.nodup_nil, by simp, List.Pairwise.nil⟩ ?_
    intro s c horder _ hnext
    cases c with
    | add e =>
      by_cases he : e ∈ s.1
      · rwa [horder.add_of_mem he]
      · exact horder.add he hnext
    | remove e => exact horder.remove e

end Calls

/-! ### Two callbacks that are far apart -/

/-- A callback of the highest priority and one just below zero. -/
def farPriority (high : Bool) : BitVec 32 := if high then 0x7FFFFFFF else -2

theorem isTotalPreorder_farPriority (l : List Bool) :
    IsTotalPreorder (compareTo farPriority fun _ => 0) l := by
  have hsign : ∀ a b : Bool, (compareTo farPriority (fun _ => 0) a b).sign =
      -(compareTo farPriority (fun _ => 0) b a).sign := by decide
  have htrans : ∀ a b c : Bool, compareTo farPriority (fun _ => 0) a b ≤ 0 →
      compareTo farPriority (fun _ => 0) b c ≤ 0 → compareTo farPriority (fun _ => 0) a c ≤ 0 := by
    decide
  exact ⟨fun a _ b _ => hsign a b, fun a _ b _ c _ => htrans a b c⟩

/-- Whatever way the array is sorted, the lower priority comes first. -/
theorem farPriority_not_inOrder : ¬∃ S :
    ArraySort Bool, AllStates (callStep farPriority (fun _ => 0) S)
    (InOrder farPriority) ([], ∅) [.add true, .add false] := by
  rintro ⟨S, -, h, h'⟩
  have hfalse : false ∉ (callStep farPriority (fun _ => 0) S ([], ∅) (.add true)).1 := by
    rw [h.mem_iff]
    simp [callStep, presentStep]
  have htrue := (h.mem_iff true).mpr (Set.mem_insert true ∅)
  have hsorted := h'.sorted
  rw [callStep, addWith, if_neg hfalse] at hsorted
  obtain ⟨hperm, hcmp⟩ := S.sorts _ _ (isTotalPreorder_farPriority
    ((callStep farPriority (fun _ => 0) S ([], ∅) (.add true)).1 ++ [false]))
  exact not_sorted_of_far (fun a ha b hb => (isTotalPreorder_farPriority _).sign a ha b hb) hcmp
    (hperm.mem_iff.mpr (List.mem_append_left _ htrue))
    (hperm.mem_iff.mpr (List.mem_append_right _ (List.mem_singleton_self false)))
      (by decide) hsorted

end Java
end CalvinHook
