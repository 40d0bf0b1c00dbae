import CalvinHook.HookSdk.MethodName
import CalvinHook.Loop
import Mathlib.Logic.Relation

/-!
# The scanning loop of `ExtractMethodName` on any bytes

The loop reads a length into an `int` and moves its cursor by it, as a `size_t`.  On the lengths of
mangled names this is the loop of `MethodName.lean`.  A length from `2 ^ 31` on is negative when it
is read; added as a `size_t` it moves the cursor back, and the test for the end of the text does not
stop it, unless the sum is below zero and wraps.  The loop then goes on at an earlier position.  If
that is one at which it has read a length before, it never ends.

* `pass`, `scan`, `extract`: the loop, with every access to the text checked.
* `lengthAt`, `targetAt`: the number at a position and the position it leads to, as integers;
  `Component`: the positions that are reached over lengths that are not negative.
* `pass_eq`: what one pass does, on positions as numbers.
* `extract_ends`: what is true on all bytes, when the loop ends, and when it does not.
* `extract_of_extractMethodName`: the loop of `MethodName.lean`.

A negative length may also lead to a position between two lengths, into a name or into digits.  What
the loop does from there on depends on the bytes it finds, and it may end: on `_ZN4294967295abcdeE`
the length -1 leads to its own last digit, which is read as 5.
-/

namespace CalvinHook
namespace ElfSymbolResolver
namespace Scan

open Text

/-! ## The source -/

/-- An index or a substring past the end of the text. -/
inductive Fault where
  | outOfRange
  deriving DecidableEq, Repr

/-- `s[i]`. -/
def get (s : List Byte) (i : ℕ) : Except Fault Byte :=
  match s[i]? with
  | some c => .ok c
  | none => .error .outOfRange

/-- `substr`: at most `n` bytes from `pos` on. -/
def substr (s : List Byte) (pos n : BitVec 64) : Except Fault (List Byte) :=
  if pos.toNat ≤ s.length then .ok ((s.drop pos.toNat).take n.toNat) else .error .outOfRange

/-- The loop over the digits from `pos` on, with `n` bytes up to the end. -/
def skipDigits (q : List Byte) : ℕ → ℕ → Except Fault ℕ
  | 0, pos => .ok pos
  | n + 1, pos =>
    if pos < q.length then do
      let c ← get q pos
      if isDigit 10 c then skipDigits q n (pos + 1) else pure pos
    else pure pos

/-- The digit `c`, read into an `int`. -/
def pushDigit (len : BitVec 32) (c : Byte) : BitVec 32 := len * 10 + (c.setWidth 32 - 0x30)

/-- The loop that reads the `n` digits from `i` on. -/
def readInt (q : List Byte) : ℕ → ℕ → BitVec 32 → Except Fault (BitVec 32)
  | 0, _, len => .ok len
  | n + 1, i, len => do
    let c ← get q i
    readInt q n (i + 1) (pushDigit len c)

/-- One pass of the loop: the cursor and `last_name` after it, none if the loop is left. -/
def pass (q : List Byte) (pos : BitVec 64) : Except Fault (Option (BitVec 64 × List Byte)) :=
  if pos.toNat < q.length then do
    let c ← get q pos.toNat
    if isDigit 10 c then do
      let e ← skipDigits q (q.length - pos.toNat) pos.toNat
      if e = pos.toNat then pure none
      else do
        let len ← readInt q (e - pos.toNat) pos.toNat 0
        let pos := BitVec.ofNat 64 e
        if BitVec.ofNat 64 q.length < pos + len.signExtend 64 then pure none
        else do
          let name ← substr q pos (len.signExtend 64)
          pure (some (pos + len.signExtend 64, name))
    else pure none
  else pure none

/-- The loop, for at most `n` passes; none if it has not been left by then. -/
def scan (q : List Byte) : ℕ → BitVec 64 → List Byte → Except Fault (Option (List Byte))
  | 0, _, _ => .ok none
  | n + 1, pos, last => do
    match ← pass q pos with
    | none => pure (some last)
    | some (pos, name) => scan q n pos name

/-- The qualified part, none for a text that is refused. -/
def qualified (mangled : List Byte) : Except Fault (Option (List Byte)) :=
  if mangled.length < 4 ∨ mangled[0]? ≠ some 0x5F ∨ mangled[1]? ≠ some 0x5A then .ok none
  else
    match find [letterE] mangled 0 with
    | none => .ok none
    | some ePos => do
      let q ← substr mangled 3 (BitVec.ofNat 64 ePos - 3)
      pure (some q)

/-- `ExtractMethodName`, for at most `n` passes of its loop. -/
def extract (n : ℕ) (mangled : List Byte) : Except Fault (Option (List Byte)) := do
  match ← qualified mangled with
  | none => pure (some [])
  | some q => scan q n 0 []

/-! ## Where digits lead -/

/-- The digits from a position on. -/
def digitsAt (q : List Byte) (pos : ℕ) : List Byte := (q.drop pos).takeWhile (isDigit 10)

/-- Their number, as an `int` of 32 bits. -/
def lengthAt (q : List Byte) (pos : ℕ) : ℤ := (BitVec.ofNat 32 (value 10 (digitsAt q pos))).toInt

/-- The position behind the digits and as many bytes as they say. -/
def targetAt (q : List Byte) (pos : ℕ) : ℤ := pos + (digitsAt q pos).length + lengthAt q pos

/-- The position to which the loop goes from `pos`.  There is none without digits, past the end, or
before the start, where the `size_t` wraps. -/
def follows (q : List Byte) (pos : ℕ) : Option ℕ :=
  if digitsAt q pos = [] ∨ targetAt q pos < 0 ∨ q.length < targetAt q pos then none
  else some (targetAt q pos).toNat

/-- The name behind the digits at `pos`. -/
def nameAt (q : List Byte) (pos : ℕ) : List Byte :=
  (q.drop (pos + (digitsAt q pos).length)).take (BitVec.ofInt 64 (lengthAt q pos)).toNat

/-- The length at `pos` is not negative, and its name ends at `p`. -/
structure Leads (q : List Byte) (pos p : ℕ) : Prop where
  ne_nil : digitsAt q pos ≠ []
  nonneg : 0 ≤ lengthAt q pos
  target : targetAt q pos = p
  le : p ≤ q.length

/-- The positions that are reached from the start over lengths that are not negative. -/
def Component (q : List Byte) : ℕ → Prop := Relation.ReflTransGen (Leads q) 0

section Lists

variable {q : List Byte} {pos : ℕ}

theorem get_eq (h : pos < q.length) : get q pos = .ok q[pos] := by
  rw [get, List.getElem?_eq_getElem h]

theorem digitsAt_of_lt (h : pos < q.length) :
    digitsAt q pos = if isDigit 10 q[pos] then q[pos] :: digitsAt q (pos + 1) else [] := by
  rw [digitsAt, List.drop_eq_getElem_cons h, List.takeWhile_cons]
  rfl

theorem digitsAt_of_ge (h : q.length ≤ pos) : digitsAt q pos = [] := by
  rw [digitsAt, List.drop_eq_nil_of_le h, List.takeWhile_nil]

theorem length_digitsAt_le (h : pos ≤ q.length) : pos + (digitsAt q pos).length ≤ q.length := by
  have hle := (List.takeWhile_prefix (p := isDigit 10) (l := q.drop pos)).length_le
  rw [List.length_drop] at hle
  rw [digitsAt]
  omega

theorem skipDigits_eq (h : pos ≤ q.length) :
    skipDigits q (q.length - pos) pos = .ok (pos + (digitsAt q pos).length) := by
  obtain ⟨n, hn⟩ : ∃ n, q.length - pos = n := ⟨_, rfl⟩
  rw [hn]
  induction n generalizing pos with
  | zero =>
    rw [digitsAt_of_ge (by omega)]
    rfl
  | succ n ih =>
    have hlt : pos < q.length := by omega
    rw [skipDigits, if_pos hlt, get_eq hlt, digitsAt_of_lt hlt]
    show (if isDigit 10 q[pos] then skipDigits q n (pos + 1) else .ok pos) = _
    split_ifs with hd
    · rw [ih (by omega) (by omega), List.length_cons]
      congr 1
      omega
    · rfl

theorem readInt_eq {n : ℕ} (h : pos + n ≤ q.length) (len : BitVec 32) :
    readInt q n pos len = .ok (((q.drop pos).take n).foldl pushDigit len) := by
  induction n generalizing pos len with
  | zero => rfl
  | succ n ih =>
    have hlt : pos < q.length := by omega
    rw [readInt, get_eq hlt, List.drop_eq_getElem_cons hlt, List.take_succ_cons, List.foldl_cons]
    exact ih (by omega) _

end Lists

theorem le_toNat_of_isDigit {c : Byte} (h : isDigit 10 c) : 0x30 ≤ c.toNat := by
  rw [isDigit, digitVal] at h
  split_ifs at h with h1 h2 h3
  · exact h1.1
  · omega
  · omega
  · exact absurd h (by simp)

/-- One more digit. -/
theorem pushDigit_ofNat {c : Byte} (hc : isDigit 10 c) (k : ℕ) :
    pushDigit (BitVec.ofNat 32 k) c = BitVec.ofNat 32 (k * 10 + (c.toNat - 0x30)) := by
  have hge := le_toNat_of_isDigit hc
  have hc8 := c.isLt
  have h10 : (10 : BitVec 32).toNat = 10 := rfl
  have h48 : (0x30 : BitVec 32).toNat = 0x30 := rfl
  apply BitVec.eq_of_toNat_eq
  rw [pushDigit, BitVec.toNat_add, BitVec.toNat_mul, BitVec.toNat_sub, BitVec.toNat_ofNat,
    BitVec.toNat_ofNat, BitVec.toNat_setWidth, h10, h48]
  omega

/-- Digits, read into an `int`, give their number modulo `2 ^ 32`. -/
theorem foldl_pushDigit {ds : List Byte} (hds : ∀ c ∈ ds, isDigit 10 c) :
    ds.foldl pushDigit 0 = BitVec.ofNat 32 (value 10 ds) := by
  induction ds using List.reverseRecOn with
  | nil => rfl
  | append_singleton ds c ih =>
    have hc : isDigit 10 c := hds c (by simp)
    rw [List.foldl_append, ih fun c' hc' => hds c' (by simp [hc']), List.foldl_cons, List.foldl_nil,
      pushDigit_ofNat hc, value_concat, digitVal_of_isDigit hc, Option.getD_some]

/-- The length as a `size_t`. -/
theorem signExtend_digitsAt (q : List Byte) (pos : ℕ) :
    ((digitsAt q pos).foldl pushDigit 0).signExtend 64 = BitVec.ofInt 64 (lengthAt q pos) := by
  have hds : ∀ c ∈ digitsAt q pos, isDigit 10 c := fun c hc => List.mem_takeWhile_imp hc
  rw [foldl_pushDigit hds, BitVec.signExtend, lengthAt]

theorem lengthAt_bounds (q : List Byte) (pos : ℕ) :
    -2 ^ 31 ≤ lengthAt q pos ∧ lengthAt q pos < 2 ^ 31 :=
  ⟨BitVec.le_toInt _, BitVec.toInt_lt⟩

theorem lengthAt_of_value_lt {q : List Byte} {pos : ℕ} (h : value 10 (digitsAt q pos) < 2 ^ 31) :
    lengthAt q pos = value 10 (digitsAt q pos) := by
  rw [lengthAt, BitVec.toInt_eq_toNat_of_lt] <;> rw [BitVec.toNat_ofNat] <;> omega

/-- The test for the end, on `size_t` values. -/
theorem length_lt_ofInt_iff {n : ℕ} (hn : n < 2 ^ 63) {t : ℤ} (hlow : -2 ^ 31 ≤ t)
    (hhigh : t < 2 ^ 64) : BitVec.ofNat 64 n < BitVec.ofInt 64 t ↔ t < 0 ∨ n < t := by
  rw [BitVec.lt_def, BitVec.toNat_ofNat, Nat.mod_eq_of_lt (by omega), BitVec.toNat_ofInt]
  omega

section Pass

variable {q : List Byte} {pos : ℕ}

theorem ofNat_add_lengthAt : BitVec.ofNat 64 (pos + (digitsAt q pos).length) +
    BitVec.ofInt 64 (lengthAt q pos) = BitVec.ofInt 64 (targetAt q pos) := by
  rw [← BitVec.ofInt_natCast, ← BitVec.ofInt_add, targetAt, Nat.cast_add]

/-- The test of the loop, by the integer that the digits lead to. -/
theorem length_lt_targetAt_iff (hq : q.length < 2 ^ 63) (hpos : pos ≤ q.length) :
    BitVec.ofNat 64 q.length < BitVec.ofInt 64 (targetAt q pos) ↔
      targetAt q pos < 0 ∨ q.length < targetAt q pos := by
  have hle := length_digitsAt_le hpos
  have hbounds := lengthAt_bounds q pos
  refine length_lt_ofInt_iff hq ?_ ?_ <;> rw [targetAt] <;> omega

/-- A pass at a digit. -/
theorem pass_of_isDigit (hq : q.length < 2 ^ 63) (hlt : pos < q.length) (hd : isDigit 10 q[pos]) :
    pass q (BitVec.ofNat 64 pos) =
      .ok ((follows q pos).map fun p => (BitVec.ofNat 64 p, nameAt q pos)) := by
  have hnat : (BitVec.ofNat 64 pos).toNat = pos := by
    rw [BitVec.toNat_ofNat, Nat.mod_eq_of_lt (by omega)]
  have hne : digitsAt q pos ≠ [] := by
    rw [digitsAt_of_lt hlt, if_pos hd]
    exact List.cons_ne_nil _ _
  have hlen := List.length_pos_of_ne_nil hne
  have hle := length_digitsAt_le hlt.le
  have htake : (q.drop pos).take (digitsAt q pos).length = digitsAt q pos :=
    List.prefix_iff_eq_take.mp (List.takeWhile_prefix _) |>.symm
  rw [pass, hnat, if_pos hlt, get_eq hlt]
  show (if isDigit 10 q[pos] then _ else Except.ok none) = _
  rw [if_pos hd, skipDigits_eq hlt.le]
  show (if pos + (digitsAt q pos).length = pos then Except.ok none else _) = _
  rw [if_neg (by omega), Nat.add_sub_cancel_left, readInt_eq (by omega), htake]
  show (if BitVec.ofNat 64 q.length < BitVec.ofNat 64 (pos + (digitsAt q pos).length) +
    ((digitsAt q pos).foldl pushDigit 0).signExtend 64 then Except.ok none else _) = _
  simp only [signExtend_digitsAt, ofNat_add_lengthAt, length_lt_targetAt_iff hq hlt.le]
  rw [follows]
  split_ifs with hstop h h
  · rfl
  · exact absurd (.inr hstop) h
  · exact absurd h (not_or.mpr ⟨hne, hstop⟩)
  · rw [not_or, not_lt] at hstop
    have hnat' : (BitVec.ofNat 64 (pos + (digitsAt q pos).length)).toNat =
        pos + (digitsAt q pos).length := by
      rw [BitVec.toNat_ofNat, Nat.mod_eq_of_lt (by omega)]
    rw [substr, hnat', if_pos hle, Option.map_some, ← BitVec.ofInt_natCast,
      Int.toNat_of_nonneg hstop.1]
    rfl

/-- **One pass** goes where the digits lead, and never past the end of the text. -/
theorem pass_eq (hq : q.length < 2 ^ 63) (hpos : pos ≤ q.length) :
    pass q (BitVec.ofNat 64 pos) =
      .ok ((follows q pos).map fun p => (BitVec.ofNat 64 p, nameAt q pos)) := by
  have hnat : (BitVec.ofNat 64 pos).toNat = pos := by
    rw [BitVec.toNat_ofNat, Nat.mod_eq_of_lt (by omega)]
  by_cases hlt : pos < q.length
  · by_cases hd : isDigit 10 q[pos]
    · exact pass_of_isDigit hq hlt hd
    · have hnil : digitsAt q pos = [] := by rw [digitsAt_of_lt hlt, if_neg hd]
      rw [pass, hnat, if_pos hlt, get_eq hlt, follows, if_pos (.inl hnil)]
      exact if_neg hd
  · rw [pass, hnat, if_neg hlt, follows, if_pos (.inl (digitsAt_of_ge (by omega)))]
    rfl

end Pass

theorem le_of_follows {q : List Byte} {pos p : ℕ} (h : follows q pos = some p) : p ≤ q.length := by
  rw [follows] at h
  split_ifs at h with hcond
  obtain rfl := Option.some.inj h
  omega

/-! ## The loop -/

section Loop

variable {q : List Byte} (hq : q.length < 2 ^ 63)
include hq

theorem scan_succ (n : ℕ) {pos : ℕ} (hpos : pos ≤ q.length) (last : List Byte) :
    scan q (n + 1) (BitVec.ofNat 64 pos) last = match follows q pos with
      | none => .ok (some last)
      | some p => scan q n (BitVec.ofNat 64 p) (nameAt q pos) := by
  rw [scan, pass_eq hq hpos]
  cases follows q pos <;> rfl

theorem exists_scan_eq_ok (n : ℕ) {pos : ℕ} (hpos : pos ≤ q.length) (last : List Byte) :
    ∃ r, scan q n (BitVec.ofNat 64 pos) last = .ok r := by
  induction n generalizing pos last with
  | zero => exact ⟨none, rfl⟩
  | succ n ih =>
    rw [scan_succ hq n hpos]
    cases hf : follows q pos with
    | none => exact ⟨some last, rfl⟩
    | some p => exact ih (le_of_follows hf) _

/-- What is returned is a part of the text. -/
theorem infix_of_scan {n pos : ℕ} (hpos : pos ≤ q.length) {last r : List Byte} (hlast : last <:+: q)
    (h : scan q n (BitVec.ofNat 64 pos) last = .ok (some r)) : r <:+: q := by
  induction n generalizing pos last with
  | zero => cases h
  | succ n ih =>
    rw [scan_succ hq n hpos] at h
    cases hf : follows q pos with
    | none =>
      rw [hf] at h
      cases h
      exact hlast
    | some p =>
      rw [hf] at h
      refine ih (le_of_follows hf) ?_ h
      exact (List.take_prefix _ _).isInfix.trans (List.drop_suffix _ _).isInfix

/-- The loop is a walk over positions. -/
theorem exists_scan_iff_walk (n : ℕ) {pos : ℕ} (hpos : pos ≤ q.length) (last : List Byte) :
    (∃ r, scan q n (BitVec.ofNat 64 pos) last = .ok (some r)) ↔
      Loop.walk (follows q) pos n = none := by
  induction n generalizing pos last with
  | zero =>
    refine iff_of_false ?_ (by simp [Loop.walk])
    rintro ⟨r, hr⟩
    cases hr
  | succ n ih =>
    rw [scan_succ hq n hpos, Loop.walk]
    cases hf : follows q pos with
    | none => exact iff_of_true ⟨last, rfl⟩ rfl
    | some p => exact ih (le_of_follows hf) _

end Loop

/-- The qualified part of a text that is not refused. -/
theorem qualified_of_find {mangled : List Byte}
    (hstart : ¬(mangled.length < 4 ∨ mangled[0]? ≠ some 0x5F ∨ mangled[1]? ≠ some 0x5A)) {ePos : ℕ}
    (hfind : find [letterE] mangled 0 = some ePos) :
    qualified mangled = .ok (some ((mangled.drop 3).take (BitVec.ofNat 64 ePos - 3).toNat)) := by
  have h3 : (3 : BitVec 64).toNat ≤ mangled.length := by
    show 3 ≤ mangled.length
    omega
  have hsub : substr mangled 3 (BitVec.ofNat 64 ePos - 3) =
      .ok ((mangled.drop 3).take (BitVec.ofNat 64 ePos - 3).toNat) := if_pos h3
  rw [qualified, if_neg hstart, hfind]
  show (do let q ← substr mangled 3 (BitVec.ofNat 64 ePos - 3); pure (some q)) = _
  rw [hsub]
  rfl

/-- The qualified part is a part of the text. -/
theorem qualified_eq_ok {mangled : List Byte} (hlen : mangled.length < 2 ^ 63) :
    ∃ r, qualified mangled = .ok r ∧ ∀ q ∈ r, q <:+: mangled ∧ q.length < 2 ^ 63 := by
  by_cases hstart : mangled.length < 4 ∨ mangled[0]? ≠ some 0x5F ∨ mangled[1]? ≠ some 0x5A
  · exact ⟨none, if_pos hstart, by simp⟩
  · cases hfind : find [letterE] mangled 0 with
    | none =>
      refine ⟨none, ?_, by simp⟩
      rw [qualified, if_neg hstart, hfind]
    | some ePos =>
      refine ⟨_, qualified_of_find hstart hfind, fun q hmem => ?_⟩
      cases hmem
      have hpartOf : (mangled.drop 3).take (BitVec.ofNat 64 ePos - 3).toNat <:+: mangled :=
        (List.take_prefix _ _).isInfix.trans (List.drop_suffix _ _).isInfix
      exact ⟨hpartOf, lt_of_le_of_lt hpartOf.length_le hlen⟩

/-- `ExtractMethodName` on a text that is not refused. -/
theorem extract_eq_scan {mangled q : List Byte} (hqual : qualified mangled = .ok (some q)) (n : ℕ) :
    extract n mangled = scan q n 0 [] := by
  rw [extract, hqual]
  rfl

theorem exists_extract_iff_walk {mangled q : List Byte} (hqual : qualified mangled = .ok (some q))
    (hq : q.length < 2 ^ 63) :
    (∃ n r, extract n mangled = .ok (some r)) ↔ ∃ n, Loop.walk (follows q) 0 n = none := by
  refine exists_congr fun n => ?_
  rw [extract_eq_scan hqual]
  exact exists_scan_iff_walk hq n (Nat.zero_le _) []

/-! ## When the loop ends -/

section Ends

variable {q : List Byte}

theorem Leads.lt {pos p : ℕ} (h : Leads q pos p) : pos < p := by
  have hlen := List.length_pos_of_ne_nil h.ne_nil
  have hnonneg := h.nonneg
  have htarget := h.target
  rw [targetAt] at htarget
  omega

theorem follows_eq_some_iff {pos p : ℕ} : follows q pos = some p ↔
    digitsAt q pos ≠ [] ∧ targetAt q pos = p ∧ p ≤ q.length := by
  rw [follows]
  split_ifs with hcond
  · refine iff_of_false nofun ?_
    rintro ⟨hne, ht, hle⟩
    rcases hcond with h | h | h
    · exact hne h
    · omega
    · omega
  · rw [not_or, not_or] at hcond
    constructor
    · intro h
      obtain rfl := Option.some.inj h
      exact ⟨hcond.1, by omega, by omega⟩
    · rintro ⟨-, ht, -⟩
      rw [ht, Int.toNat_natCast]

/-- Where no length is negative, or a negative one goes before the start of the text, the loop
advances from length to length. -/
theorem exists_walk_of_nonneg
    (h : ∀ p, Component q p → 0 ≤ lengthAt q p ∨ targetAt q p < 0) :
    ∃ n, Loop.walk (follows q) 0 n = none := by
  refine Loop.exists_walk_eq_none (I := Component q) (fun p => q.length - p) ?_ .refl
  intro pos p hpos hf
  obtain ⟨hne, htarget, hle⟩ := follows_eq_some_iff.mp hf
  have hleads : Leads q pos p := ⟨hne, (h pos hpos).resolve_right (by omega), htarget, hle⟩
  have hlt := hleads.lt
  exact ⟨hpos.tail hleads, by omega⟩

theorem follows_of_leads {pos p : ℕ} (h : Leads q pos p) : follows q pos = some p :=
  follows_eq_some_iff.mpr ⟨h.ne_nil, h.target, h.le⟩

theorem leads_rightUnique : Relator.RightUnique (Leads q) := fun _ _ _ h h' =>
  Option.some.inj ((follows_of_leads h).symm.trans (follows_of_leads h'))

/-- A negative length that leads back to a position where a length was read before: the loop goes
over the lengths in between again and again. -/
theorem walk_ne_none_of_back {pos p : ℕ} (hpos : Component q pos) (hp : Component q p)
    (hneg : lengthAt q pos < 0) (htarget : targetAt q pos = p) (n : ℕ) :
    Loop.walk (follows q) 0 n ≠ none := by
  have hne : digitsAt q pos ≠ [] := by
    intro hnil
    rw [lengthAt, hnil] at hneg
    exact absurd hneg (by decide)
  have hle : p ≤ q.length := by
    have hlen : pos + (digitsAt q pos).length ≤ q.length := by
      refine length_digitsAt_le (Nat.le_of_not_lt fun hlt => hne (digitsAt_of_ge hlt.le))
    rw [targetAt] at htarget
    omega
  have hback : follows q pos = some p := follows_eq_some_iff.mpr ⟨hne, htarget, hle⟩
  -- the lengths are read one after the other, and the one at `pos` is the last
  have hreach : Relation.ReflTransGen (Leads q) p pos := by
    rcases hp.total_of_right_unique leads_rightUnique hpos with h | h
    · exact h
    · rcases h.cases_head with rfl | ⟨t, ht, -⟩
      · exact .refl
      · exact absurd ht.nonneg (not_le.mpr hneg)
  refine Loop.walk_ne_none (I := fun a => Relation.ReflTransGen (Leads q) a pos) ?_ hpos n
  intro a ha
  rcases ha.cases_head with rfl | ⟨b, hab, hb⟩
  · exact ⟨p, hback, hreach⟩
  · exact ⟨b, follows_of_leads hab, hb⟩

end Ends

/-- **The scan of a name.**  On every text no access is past the end, and what is returned is a part
of the text.  The loop ends if, from the start of the qualified part on, every length that is
reached is read as an `int` that is not negative, or leads before the start.  It does not end if one
of them is negative and leads back to a length that was reached before. -/
theorem extract_ends {mangled : List Byte} (hlen : mangled.length < 2 ^ 63) :
    (∀ n, ∃ r, extract n mangled = .ok r) ∧
    (∀ n r, extract n mangled = .ok (some r) → r <:+: mangled) ∧
    ((∀ q, qualified mangled = .ok (some q) → ∀ p, Component q p →
        0 ≤ lengthAt q p ∨ targetAt q p < 0) →
      ∃ n r, extract n mangled = .ok (some r)) ∧
    ((∃ q, qualified mangled = .ok (some q) ∧ ∃ p p' : ℕ, Component q p ∧ Component q p' ∧
        lengthAt q p < 0 ∧ targetAt q p = p') →
      ¬∃ n r, extract n mangled = .ok (some r)) := by
  obtain ⟨part, hpart, hmem⟩ := qualified_eq_ok hlen
  cases part with
  | none =>
    have hextract : ∀ n, extract n mangled = .ok (some []) := fun n => by
      rw [extract, hpart]
      rfl
    refine ⟨fun n => ⟨_, hextract n⟩, fun n r hr => ?_, fun _ => ⟨0, [], hextract 0⟩, ?_⟩
    · rw [hextract] at hr
      cases hr
      exact List.nil_infix
    · rintro ⟨q, hqual, -⟩
      rw [hpart] at hqual
      cases hqual
  | some q =>
    obtain ⟨hpartOf, hq⟩ := hmem q rfl
    have hextract := extract_eq_scan hpart
    have hends := exists_extract_iff_walk hpart hq
    refine ⟨fun n => ?_, fun n r hr => ?_, fun h => ?_, ?_⟩
    · rw [hextract]
      exact exists_scan_eq_ok hq n (Nat.zero_le _) []
    · rw [hextract] at hr
      exact (infix_of_scan hq (Nat.zero_le _) List.nil_infix hr).trans hpartOf
    · exact hends.mpr (exists_walk_of_nonneg (h q hpart))
    · rintro ⟨q', hqual, p, p', hp, hp', hneg, htarget⟩
      rw [hpart] at hqual
      cases hqual
      rw [hends]
      rintro ⟨n, hn⟩
      exact walk_ne_none_of_back hp hp' hneg htarget n hn

/-- The digits inside of a name, which would be read as -10, are not read. -/
theorem extract_ends_digits_in_name :
    ∃ n r, extract n (ascii "_ZN14a4294967286bcdE") = .ok (some r) := by
  refine (extract_ends (by decide)).2.2.1 fun q hq p hp => .inl ?_
  have hqual : qualified (ascii "_ZN14a4294967286bcdE") =
      .ok (some (ascii "14a4294967286bcd")) := by
    decide +kernel
  rw [hqual] at hq
  cases hq
  -- the name of 14 bytes goes to the end of the text
  have hplace : p = 0 ∨ p = 16 := by
    induction hp with
    | refl => exact .inl rfl
    | tail _ h ih =>
      rcases ih with rfl | rfl
      · have htarget : targetAt (ascii "14a4294967286bcd") 0 = 16 := by decide +kernel
        have := h.target
        omega
      · exact absurd h.ne_nil (by decide +kernel)
  rcases hplace with rfl | rfl <;> decide +kernel

/-- A negative length that leads into its own digits, from where the loop ends. -/
example : extract 3 (ascii "_ZN4294967295abcdeE") = .ok (some (ascii "abcde")) := by decide +kernel

/-- The length 4294967286 is read as -10, which leads back to its first digit. -/
theorem extract_negative_length : ¬∃ n r, extract n (ascii "_ZN4294967286E") = .ok (some r) := by
  have hqual : qualified (ascii "_ZN4294967286E") = .ok (some (ascii "4294967286")) := by
    decide +kernel
  rw [exists_extract_iff_walk hqual (by decide)]
  rintro ⟨n, hn⟩
  exact walk_ne_none_of_back .refl .refl (by decide +kernel) (by decide +kernel) n hn

/-! ## The loop on lengths that fit into an `int` -/

/-- Where digits lead that are a length. -/
theorem follows_of_readLen {q : List Byte} {pos : ℕ} (hne : digitsAt q pos ≠ []) {len : ℕ}
    (hlen : readLen (digitsAt q pos) = some len) :
    pos + (digitsAt q pos).length ≤ q.length ∧
    nameAt q pos = (q.drop (pos + (digitsAt q pos).length)).take len ∧
    follows q pos =
      if q.length < pos + (digitsAt q pos).length + len then none
      else some (pos + (digitsAt q pos).length + len) := by
  have hle : pos + (digitsAt q pos).length ≤ q.length :=
    length_digitsAt_le (Nat.le_of_not_lt fun hlt => hne (digitsAt_of_ge hlt.le))
  have hds : ∀ c ∈ digitsAt q pos, isDigit 10 c := fun c hc => List.mem_takeWhile_imp hc
  obtain ⟨hvalue, hlt⟩ := (readLen_eq_some_iff hds).mp hlen
  have hlength : lengthAt q pos = len := by
    rw [lengthAt_of_value_lt (by omega), hvalue]
  have htarget : targetAt q pos = ((pos + (digitsAt q pos).length + len : ℕ) : ℤ) := by
    rw [targetAt, hlength]
    omega
  refine ⟨hle, ?_, ?_⟩
  · rw [nameAt, hlength, BitVec.ofInt_natCast, BitVec.toNat_ofNat, Nat.mod_eq_of_lt (by omega)]
  · rw [follows, htarget, Int.toNat_natCast]
    simp only [hne, false_or, Nat.cast_lt, Int.natCast_nonneg, not_lt.mpr]

/-- The loop of `lastName` is the loop on positions, from the position of its text on. -/
theorem exists_scan_of_lastName {q : List Byte} (hq : q.length < 2 ^ 63) {n pos : ℕ}
    (hpos : pos ≤ q.length) (hn : (q.drop pos).length ≤ n) {last r : List Byte}
    (h : lastName n (q.drop pos) last = some r) :
    ∃ k, scan q k (BitVec.ofNat 64 pos) last = .ok (some r) := by
  induction n generalizing pos last with
  | zero =>
    cases h
    rw [List.length_drop] at hn
    refine ⟨1, ?_⟩
    rw [scan_succ hq 0 hpos, follows, if_pos (.inl (digitsAt_of_ge (by omega)))]
  | succ n ih =>
    rw [lastName] at h
    by_cases hnil : digitsAt q pos = []
    · rw [if_pos (show (q.drop pos).takeWhile (isDigit 10) = [] from hnil)] at h
      cases h
      refine ⟨1, ?_⟩
      rw [scan_succ hq 0 hpos, follows, if_pos (.inl hnil)]
    · rw [if_neg (show (q.drop pos).takeWhile (isDigit 10) ≠ [] from hnil)] at h
      obtain ⟨len, hlen, hrest⟩ := Option.bind_eq_some_iff.mp h
      obtain ⟨hle, hname, hfollows⟩ := follows_of_readLen hnil hlen
      have hlenpos := List.length_pos_of_ne_nil hnil
      -- the text behind the digits
      have hdrop : (q.drop pos).dropWhile (isDigit 10) =
          q.drop (pos + (digitsAt q pos).length) := by
        have hsplit := List.takeWhile_append_dropWhile (p := isDigit 10) (l := q.drop pos)
        rw [← List.drop_drop]
        nth_rewrite 2 [← hsplit]
        exact List.drop_left.symm
      dsimp only at hrest
      rw [hdrop, List.length_drop] at hrest
      by_cases hend : q.length < pos + (digitsAt q pos).length + len
      · rw [if_pos (by omega)] at hrest
        cases hrest
        refine ⟨1, ?_⟩
        rw [scan_succ hq 0 hpos, hfollows, if_pos hend]
      · rw [if_neg (by omega), List.drop_drop, ← hname] at hrest
        rw [List.length_drop] at hn
        obtain ⟨k, hk⟩ := ih (by omega) (by rw [List.length_drop]; omega) hrest
        refine ⟨k + 1, ?_⟩
        rw [scan_succ hq k hpos, hfollows, if_neg hend]
        exact hk

/-- An `E` in the place of the `N` makes the count of `substr` wrap, and the substring goes to the
end. -/
theorem take_ofNat_sub_three {mangled : List Byte} (hlen : mangled.length < 2 ^ 63) {ePos : ℕ}
    (hpos : ePos ≤ mangled.length) : (mangled.drop 3).take (BitVec.ofNat 64 ePos - 3).toNat =
      if ePos < 3 then mangled.drop 3 else (mangled.drop 3).take (ePos - 3) := by
  have hsub : (BitVec.ofNat 64 ePos - 3).toNat = (2 ^ 64 - 3 + ePos) % 2 ^ 64 := by
    have h3 : (3 : BitVec 64).toNat = 3 := rfl
    rw [BitVec.toNat_sub, BitVec.toNat_ofNat, h3]
    omega
  rw [hsub]
  split_ifs with h3
  · refine List.take_of_length_le ?_
    rw [List.length_drop]
    omega
  · rw [show (2 ^ 64 - 3 + ePos) % 2 ^ 64 = ePos - 3 by omega]

/-- Where the model of `MethodName.lean` has a result, it is that of the loop on positions. -/
theorem extract_of_extractMethodName {mangled r : List Byte} (hlen : mangled.length < 2 ^ 63)
    (h : extractMethodName mangled = some r) : ∃ n, extract n mangled = .ok (some r) := by
  rw [extractMethodName] at h
  split_ifs at h with hstart
  · cases h
    refine ⟨0, ?_⟩
    rw [extract, qualified, if_pos hstart]
    rfl
  · cases hfind : find [letterE] mangled 0 with
    | none =>
      rw [hfind] at h
      cases h
      refine ⟨0, ?_⟩
      rw [extract, qualified, if_neg hstart, hfind]
      rfl
    | some ePos =>
      rw [hfind] at h
      have hpos : ePos ≤ mangled.length := by
        obtain ⟨a, b, hab, rfl, -⟩ := findFrom_eq_some hfind
        have hlength := congrArg List.length hab
        rw [List.drop_zero, List.length_append, List.length_append] at hlength
        omega
      have hpart := take_ofNat_sub_three hlen hpos
      obtain ⟨part, hqual, hmem⟩ := qualified_eq_ok hlen
      rw [qualified_of_find hstart hfind, hpart] at hqual
      cases hqual
      obtain ⟨k, hk⟩ : ∃ k,
          scan (if ePos < 3 then mangled.drop 3 else (mangled.drop 3).take (ePos - 3)) k 0 [] =
          .ok (some r) := exists_scan_of_lastName (hmem _ rfl).2 (Nat.zero_le _) le_rfl h
      refine ⟨k, ?_⟩
      rw [extract_eq_scan (by rw [qualified_of_find hstart hfind, hpart]), hk]

end Scan
end ElfSymbolResolver
end CalvinHook
