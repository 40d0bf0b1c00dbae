import CalvinHook.Text.Lines
import CalvinHook.Text.NestedName

/-!
# `elf_symbol_resolver.cpp`: the method name of a mangled symbol

`ExtractMethodName` cuts the symbol at its first `E` and reads the identifiers before it, each
behind its length.  The first `E` is the end of the nested name only if no identifier contains one:
an identifier with an `E` is cut short, and the loop stops in front of it.

* `extractMethodName`, `lastName`: the model.
* `MethodName`: the method name of any symbol, by its text; `extractMethodName_eq_some_iff`: it is
  what is returned.
* `lastName_sourceNames`: the loop on a text that has been cut.
* `extractMethodName_mangled`: what is returned for a nested name.
* `extractMethodName_eq_last_iff`: when that is the last identifier.
-/

namespace CalvinHook
namespace ElfSymbolResolver

open Text

/-! ## The model -/

/-- The digits of a length, read into an `int`; none when it overflows. -/
def readLen (digits : List Byte) : Option ℕ :=
  digits.foldlM (fun len c =>
    if len * 10 + (c.toNat - 0x30) < 2 ^ 31 then some (len * 10 + (c.toNat - 0x30)) else none) 0

/-- The loop over the identifiers.  Each pass reads a digit, so as many passes as there are bytes
are enough. -/
def lastName : ℕ → List Byte → List Byte → Option (List Byte)
  | 0, _, last => some last
  | n + 1, s, last =>
    if s.takeWhile (isDigit 10) = [] then some last
    else do
      let len ← readLen (s.takeWhile (isDigit 10))
      let r := s.dropWhile (isDigit 10)
      if len > r.length then return last else lastName n (r.drop len) (r.take len)

/-- `ExtractMethodName`; none when the length of an identifier overflows. -/
def extractMethodName (mangled : List Byte) : Option (List Byte) :=
  if mangled.length < 4 ∨ mangled[0]? ≠ some 0x5F ∨ mangled[1]? ≠ some 0x5A then some []
  else
    match find [letterE] mangled 0 with
    | none => some []
    | some ePos =>
      -- the length `e_pos - 3` wraps if the `E` stands in the place of the `N`
      let qualified := if ePos < 3 then mangled.drop 3 else (mangled.drop 3).take (ePos - 3)
      lastName qualified.length qualified []

/-! ## Lengths -/

theorem digitVal_of_isDigit {c : Byte} (h : isDigit 10 c) :
    digitVal c = some (c.toNat - 0x30) := by
  rw [isDigit, digitVal] at h
  rw [digitVal]
  split_ifs at h ⊢ with h1 h2 h3
  · rfl
  · simp at h
    omega
  · simp at h
    omega
  · exact absurd h (by simp)

theorem value_concat (ds : List Byte) (c : Byte) :
    value 10 (ds ++ [c]) = value 10 ds * 10 + (digitVal c).getD 0 := by
  rw [value, value, List.foldl_append, List.foldl_cons, List.foldl_nil]

/-- A length below `2 ^ 31` is read as it is. -/
theorem readLen_eq {ds : List Byte} (hds : ∀ c ∈ ds, isDigit 10 c) (h : value 10 ds < 2 ^ 31) :
    readLen ds = some (value 10 ds) := by
  induction ds using List.reverseRecOn with
  | nil => rfl
  | append_singleton ds c ih =>
    have hc : digitVal c = some (c.toNat - 0x30) := digitVal_of_isDigit (hds c (by simp))
    rw [value_concat, hc, Option.getD_some] at h ⊢
    have hrec := ih (fun c' hc' => hds c' (by simp [hc'])) (by omega)
    rw [readLen] at hrec ⊢
    rw [List.foldlM_append, hrec, Option.bind_eq_bind, Option.bind_some, List.foldlM_cons, if_pos h]
    rfl

/-- The number is read exactly if it is below `2 ^ 31`. -/
theorem readLen_eq_some_iff {ds : List Byte} (hds : ∀ c ∈ ds, isDigit 10 c) {len : ℕ} :
    readLen ds = some len ↔ value 10 ds = len ∧ len < 2 ^ 31 := by
  constructor
  · induction ds using List.reverseRecOn generalizing len with
    | nil =>
      intro h
      cases h
      exact ⟨rfl, by decide⟩
    | append_singleton ds c ih =>
      intro h
      rw [readLen, List.foldlM_append] at h
      obtain ⟨k, hk, hc⟩ := Option.bind_eq_some_iff.mp h
      obtain ⟨rfl, -⟩ := ih (fun c' hc' => hds c' (by simp [hc'])) hk
      rw [List.foldlM_cons] at hc
      split_ifs at hc with hlt
      · cases hc
        rw [value_concat, digitVal_of_isDigit (hds c (by simp)), Option.getD_some]
        exact ⟨rfl, hlt⟩
      · cases hc
  · rintro ⟨rfl, h⟩
    exact readLen_eq hds h

theorem readLen_numeral {k : ℕ} (h : k < 2 ^ 31) : readLen (numeral 10 1 k) = some k := by
  have hvalue : value 10 (numeral 10 1 k) = k := value_numeral (by omega) (by omega)
  rw [readLen_eq (fun c hc => isDigit_of_mem_numeral (by omega) (by omega) hc) (by rwa [hvalue]),
    hvalue]

/-! ## Any text -/

/-- The bytes `ds` are the digits in front of `s`. -/
structure Digits (ds s : List Byte) : Prop where
  ne_nil : ds ≠ []
  digits : ∀ c ∈ ds, isDigit 10 c
  head : ∀ c ∈ s.head?, isDigit 10 c = false

/-- Names, each behind its length, up to a place where there is no length, or one that is too long
for what is left. -/
inductive Names : List Byte → List (List Byte) → Prop
  | done {s : List Byte} (head : ∀ c ∈ s.head?, isDigit 10 c = false) : Names s []
  | tooLong {ds s : List Byte} (hds : Digits ds s) (hlt : s.length < value 10 ds)
      (h31 : value 10 ds < 2 ^ 31) : Names (ds ++ s) []
  | name {ds name s : List Byte} {names : List (List Byte)} (hds : Digits ds (name ++ s))
      (hlen : value 10 ds = name.length) (h31 : name.length < 2 ^ 31) (hs : Names s names) :
      Names (ds ++ (name ++ s)) (name :: names)

/-- The name of the method: the last of the names in front of the first `E`, or of all that follows
an `E` in the place of the `N`. -/
def MethodName (mangled methodName : List Byte) : Prop :=
  ∃ q names, Names q names ∧ names.getLast? = some methodName ∧
    ((∃ c suffix, mangled = ascii "_Z" ++ c :: (q ++ letterE :: suffix) ∧ letterE ∉ c :: q) ∨
      mangled = ascii "_Z" ++ letterE :: q)

theorem takeWhile_eq_nil_iff {s : List Byte} :
    s.takeWhile (isDigit 10) = [] ↔ ∀ c ∈ s.head?, isDigit 10 c = false := by
  cases s with
  | nil => simp
  | cons c s => cases h : isDigit 10 c <;> simp [h]

theorem Digits.takeWhile {ds s : List Byte} (h : Digits ds s) :
    (ds ++ s).takeWhile (isDigit 10) = ds := by
  rw [List.takeWhile_append_of_pos h.digits, takeWhile_eq_nil_iff.mpr h.head, List.append_nil]

theorem Digits.dropWhile {ds s : List Byte} (h : Digits ds s) :
    (ds ++ s).dropWhile (isDigit 10) = s := by
  have hsplit := List.takeWhile_append_dropWhile (p := isDigit 10) (l := ds ++ s)
  rw [h.takeWhile] at hsplit
  exact List.append_cancel_left hsplit

theorem exists_digits {s : List Byte} (h : s.takeWhile (isDigit 10) ≠ []) :
    ∃ ds r, s = ds ++ r ∧ Digits ds r := by
  refine ⟨_, _, (List.takeWhile_append_dropWhile (p := isDigit 10)).symm, h,
    fun c hc => List.mem_takeWhile_imp hc, fun c hc => ?_⟩
  have hhead := List.head?_dropWhile_not (isDigit 10) s
  rw [Option.mem_def.mp hc] at hhead
  exact hhead

/-- The loop on digits. -/
theorem lastName_digits {ds s : List Byte} (hds : Digits ds s) (fuel : ℕ) (last : List Byte) :
    lastName (fuel + 1) (ds ++ s) last = (readLen ds).bind fun len =>
      if len > s.length then some last else lastName fuel (s.drop len) (s.take len) := by
  rw [lastName, hds.takeWhile, hds.dropWhile, if_neg hds.ne_nil]
  rfl

/-- The loop returns the last of the names. -/
theorem lastName_of_names {s : List Byte} {names : List (List Byte)} (h : Names s names) {fuel : ℕ}
    (hfuel : s.length ≤ fuel) (last : List Byte) :
    lastName fuel s last = some (names.getLastD last) := by
  induction h generalizing fuel last with
  | done head =>
    cases fuel with
    | zero => rfl
    | succ fuel =>
      rw [lastName, if_pos (takeWhile_eq_nil_iff.mpr head)]
      rfl
  | tooLong hds hlt h31 =>
    have hpos := List.length_pos_of_ne_nil hds.ne_nil
    rw [List.length_append] at hfuel
    obtain ⟨fuel, rfl⟩ : ∃ k, fuel = k + 1 := Nat.exists_eq_add_of_le' (by omega)
    rw [lastName_digits hds, readLen_eq hds.digits h31, Option.bind_some, if_pos hlt]
    rfl
  | @name ds name s names hds hlen h31 hs ih =>
    have hpos := List.length_pos_of_ne_nil hds.ne_nil
    rw [List.length_append, List.length_append] at hfuel
    obtain ⟨fuel, rfl⟩ : ∃ k, fuel = k + 1 := Nat.exists_eq_add_of_le' (by omega)
    have hle : ¬name.length > (name ++ s).length := by
      rw [List.length_append]
      omega
    rw [lastName_digits hds, readLen_eq hds.digits (hlen ▸ h31), Option.bind_some, hlen, if_neg hle,
      List.drop_left, List.take_left, ih (by omega), List.getLastD_cons]

/-- What the loop returns is the last of some names. -/
theorem exists_names_of_lastName {fuel : ℕ} {s last r : List Byte} (hfuel : s.length ≤ fuel)
    (h : lastName fuel s last = some r) : ∃ names, Names s names ∧ names.getLastD last = r := by
  induction fuel generalizing s last with
  | zero =>
    obtain rfl := List.length_eq_zero_iff.mp (Nat.le_zero.mp hfuel)
    cases h
    exact ⟨[], .done (by simp), rfl⟩
  | succ fuel ih =>
    by_cases hnil : s.takeWhile (isDigit 10) = []
    · rw [lastName, if_pos hnil] at h
      cases h
      exact ⟨[], .done (takeWhile_eq_nil_iff.mp hnil), rfl⟩
    · obtain ⟨ds, s, rfl, hds⟩ := exists_digits hnil
      have hpos := List.length_pos_of_ne_nil hds.ne_nil
      rw [List.length_append] at hfuel
      rw [lastName_digits hds] at h
      obtain ⟨len, hlen, h⟩ := Option.bind_eq_some_iff.mp h
      obtain ⟨rfl, h31⟩ := (readLen_eq_some_iff hds.digits).mp hlen
      split_ifs at h with hgt
      · cases h
        exact ⟨[], .tooLong hds hgt h31, rfl⟩
      · obtain ⟨names, hnames, hlast⟩ := ih (by rw [List.length_drop]; omega) h
        have htake : (s.take (value 10 ds)).length = value 10 ds := by
          rw [List.length_take]
          omega
        have hsplit := List.take_append_drop (value 10 ds) s
        have hname : Names (ds ++ (s.take (value 10 ds) ++ s.drop (value 10 ds)))
            (s.take (value 10 ds) :: names) :=
          .name (by rwa [hsplit]) htake.symm (by rwa [htake]) hnames
        rw [hsplit] at hname
        exact ⟨_, hname, by rw [List.getLastD_cons, hlast]⟩

/-- `ExtractMethodName` on a symbol with an `E`. -/
theorem extractMethodName_of_cut {c : Byte} {q : List Byte} (h : letterE ∉ c :: q)
    (suffix : List Byte) :
    extractMethodName (ascii "_Z" ++ c :: (q ++ letterE :: suffix)) = lastName q.length q [] := by
  have hfind : find [letterE] (ascii "_Z" ++ c :: (q ++ letterE :: suffix)) 0 =
      some (3 + q.length) := by
    have hnot : letterE ∉ ascii "_Z" ++ c :: q := by
      rw [List.mem_append, not_or]
      exact ⟨by decide, h⟩
    have hfirst := findFrom_singleton 0 suffix hnot
    rw [List.append_assoc, List.length_append, List.length_cons, List.cons_append] at hfirst
    rw [find, List.drop_zero, hfirst]
    have htwo : (ascii "_Z").length = 2 := rfl
    congr 1
    omega
  have hlen : (ascii "_Z" ++ c :: (q ++ letterE :: suffix)).length =
      3 + (q.length + (suffix.length + 1)) := by
    have htwo : (ascii "_Z").length = 2 := rfl
    simp only [List.length_append, List.length_cons, htwo]
    omega
  have hstart : ¬((ascii "_Z" ++ c :: (q ++ letterE :: suffix)).length < 4 ∨
      (ascii "_Z" ++ c :: (q ++ letterE :: suffix))[0]? ≠ some 0x5F ∨
        (ascii "_Z" ++ c :: (q ++ letterE :: suffix))[1]? ≠ some 0x5A) := by
    rw [not_or, not_or, not_not, not_not, hlen]
    exact ⟨by omega, rfl, rfl⟩
  have hdrop : (ascii "_Z" ++ c :: (q ++ letterE :: suffix)).drop 3 = q ++ letterE :: suffix := rfl
  rw [extractMethodName, if_neg hstart, hfind]
  simp only [Nat.not_lt.mpr (Nat.le_add_right 3 q.length), if_false, hdrop, Nat.add_sub_cancel_left,
    List.take_left]

/-- With an `E` in the place of the `N`, all that follows is searched. -/
theorem extractMethodName_of_letterE (q : List Byte) :
    extractMethodName (ascii "_Z" ++ letterE :: q) = lastName q.length q [] := by
  have hfind : find [letterE] (ascii "_Z" ++ letterE :: q) 0 = some 2 := by
    rw [find, List.drop_zero, findFrom_singleton 0 q (by decide)]
    rfl
  cases q with
  | nil => rfl
  | cons c q =>
    have hstart : ¬((ascii "_Z" ++ letterE :: c :: q).length < 4 ∨
        (ascii "_Z" ++ letterE :: c :: q)[0]? ≠ some 0x5F ∨
          (ascii "_Z" ++ letterE :: c :: q)[1]? ≠ some 0x5A) := by
      rw [not_or, not_or, not_not, not_not]
      exact ⟨Nat.not_lt.mpr (Nat.le_add_left 4 q.length), rfl, rfl⟩
    rw [extractMethodName, if_neg hstart, hfind]
    rfl

/-- A symbol with a method name has one of these forms. -/
theorem exists_cut_of_extractMethodName {mangled m : List Byte} (hm : m ≠ [])
    (h : extractMethodName mangled = some m) :
    ∃ q, (∃ c suffix, mangled = ascii "_Z" ++ c :: (q ++ letterE :: suffix) ∧ letterE ∉ c :: q) ∨
      mangled = ascii "_Z" ++ letterE :: q := by
  rw [extractMethodName] at h
  split_ifs at h with hstart
  · exact absurd (Option.some.inj h).symm hm
  rw [not_or, not_or, not_not, not_not] at hstart
  cases hfind : find [letterE] mangled 0 with
  | none =>
    rw [hfind] at h
    exact absurd (Option.some.inj h).symm hm
  | some ePos =>
    obtain ⟨a, suffix, hsplit, ha, -⟩ := exists_of_findFrom_singleton hfind
    rw [List.drop_zero] at hsplit
    rw [hsplit] at hstart ⊢
    match a, hstart, ha with
    | [], ⟨_, h0, _⟩, _ => exact absurd (Option.some.inj h0 : letterE = 0x5F) (by decide)
    | [x], ⟨_, _, h1⟩, _ => exact absurd (Option.some.inj h1 : letterE = 0x5A) (by decide)
    | [x, y], ⟨_, h0, h1⟩, _ =>
      cases h0
      cases h1
      exact ⟨suffix, .inr rfl⟩
    | x :: y :: c :: q, ⟨_, h0, h1⟩, ha =>
      cases h0
      cases h1
      refine ⟨q, .inl ⟨c, suffix, rfl, fun hc => ha ?_⟩⟩
      exact List.mem_cons_of_mem _ (List.mem_cons_of_mem _ hc)

/-- **What `ExtractMethodName` returns for any symbol** is its method name, if it has one. -/
theorem extractMethodName_eq_some_iff {mangled m : List Byte} (hm : m ≠ []) :
    extractMethodName mangled = some m ↔ MethodName mangled m := by
  have hlast : ∀ names : List (List Byte), names.getLastD [] = m ↔ names.getLast? = some m := by
    intro names
    rw [List.getLastD_eq_getLast?]
    cases names.getLast? with
    | none => exact iff_of_false hm.symm nofun
    | some n => simp
  constructor
  · intro h
    obtain ⟨q, hform⟩ := exists_cut_of_extractMethodName hm h
    have hq : lastName q.length q [] = some m := by
      rcases hform with ⟨c, suffix, rfl, hc⟩ | rfl
      · rwa [extractMethodName_of_cut hc] at h
      · rwa [extractMethodName_of_letterE] at h
    obtain ⟨names, hnames, hname⟩ := exists_names_of_lastName le_rfl hq
    exact ⟨q, names, hnames, (hlast names).mp hname, hform⟩
  · rintro ⟨q, names, hnames, hname, hform⟩
    have hq := lastName_of_names hnames le_rfl []
    rw [(hlast names).mpr hname] at hq
    rcases hform with ⟨c, suffix, rfl, hc⟩ | rfl
    · rwa [extractMethodName_of_cut hc]
    · rwa [extractMethodName_of_letterE]

/-! ## Identifiers -/

/-- One identifier. -/
theorem lastName_sourceName (n : Ident) (hn : n.text.length < 2 ^ 31) (fuel : ℕ)
    (rest last : List Byte) :
    lastName (fuel + 1) (n.sourceName ++ rest) last = lastName fuel rest n.text := by
  have hle : ¬n.text.length > (n.text ++ rest).length := by
    rw [List.length_append]
    omega
  rw [lastName, takeWhile_sourceName, dropWhile_sourceName, if_neg (numeral_ne_nil one_pos),
    readLen_numeral hn]
  simp only [Option.bind_eq_bind, Option.bind_some, if_neg hle, List.drop_left, List.take_left]

/-- An identifier that has been cut short. -/
theorem lastName_of_cut (n : Ident) (hn : n.text.length < 2 ^ 31) {cut : List Byte}
    (hpre : cut <+: n.text) (hlt : cut.length < n.text.length) (fuel : ℕ) (last : List Byte) :
    lastName (fuel + 1) (numeral 10 1 n.text.length ++ cut) last = some last := by
  have hhead : ∀ c ∈ cut.head?, isDigit 10 c = false := by
    intro c hc
    obtain ⟨r, hr⟩ := hpre
    refine n.head c ?_
    rw [← hr, List.head?_append, hc]
    rfl
  rw [lastName, takeWhile_numeral (by omega) (by omega) hhead,
    dropWhile_numeral (by omega) (by omega) hhead, if_neg (numeral_ne_nil one_pos),
    readLen_numeral hn]
  simp only [Option.bind_eq_bind, Option.bind_some, gt_iff_lt, if_pos hlt, Option.pure_def]

/-- The identifiers in front of the first one that contains an `E`. -/
def beforeE (ns : List Ident) : List Ident := ns.takeWhile fun n => letterE ∉ n.text

theorem letterE_not_mem_numeral (k : ℕ) : letterE ∉ numeral 10 1 k := by
  intro h
  exact absurd (isDigit_of_mem_numeral (by omega) (by omega) h) (by decide)

/-- The cut is not inside of a length. -/
theorem takeWhile_sourceNames_cons (n : Ident) (ns : List Ident) (s : List Byte) :
    ((n :: ns).flatMap Ident.sourceName ++ s).takeWhile (· ≠ letterE) =
      numeral 10 1 n.text.length ++
      (n.text ++ (ns.flatMap Ident.sourceName ++ s)).takeWhile (· ≠ letterE) := by
  rw [List.flatMap_cons, Ident.sourceName, List.append_assoc, List.append_assoc,
    List.takeWhile_append_of_pos]
  intro c hc
  simpa using fun h : c = letterE => letterE_not_mem_numeral _ (h ▸ hc)

/-- An identifier with an `E` is cut short. -/
theorem length_takeWhile_lt_of_mem {text : List Byte} (h : letterE ∈ text) :
    (text.takeWhile (· ≠ letterE)).length < text.length := by
  refine lt_of_le_of_ne (List.takeWhile_prefix _).length_le fun heq => ?_
  have hall := List.takeWhile_eq_self_iff.mp ((List.takeWhile_prefix _).eq_of_length heq)
  simpa using hall letterE h

/-- **The loop on a list of identifiers that is cut at the first `E`** ends in front of the
identifier that contains it. -/
theorem lastName_sourceNames (ns : List Ident) (hns : ∀ n ∈ ns, n.text.length < 2 ^ 31)
    (suffix : List Byte) {fuel : ℕ}
    (hfuel : ((ns.flatMap Ident.sourceName ++ letterE :: suffix).takeWhile (· ≠ letterE)).length ≤
      fuel) (last : List Byte) :
    lastName fuel ((ns.flatMap Ident.sourceName ++ letterE :: suffix).takeWhile (· ≠ letterE))
      last =
      some (((beforeE ns).map Ident.text).getLastD last) := by
  induction ns generalizing fuel last with
  | nil =>
    cases fuel <;> simp [lastName, beforeE]
  | cons n ns ih =>
    have hn := hns n (by simp)
    rw [takeWhile_sourceNames_cons] at hfuel ⊢
    obtain ⟨fuel, rfl⟩ : ∃ k, fuel = k + 1 := by
      have hpos := List.length_pos_of_ne_nil (numeral_ne_nil (b := 10) (n := n.text.length) one_pos)
      rw [List.length_append] at hfuel
      exact Nat.exists_eq_add_of_le' (by omega)
    by_cases hE : letterE ∈ n.text
    · -- the cut is inside of this identifier
      have hlt := length_takeWhile_lt_of_mem hE
      have hbefore : beforeE (n :: ns) = [] := List.takeWhile_cons_of_neg (by simpa using hE)
      rw [List.takeWhile_append, if_neg hlt.ne,
        lastName_of_cut n hn (List.takeWhile_prefix _) hlt, hbefore]
      rfl
    · have hpos : ∀ c ∈ n.text, decide (c ≠ letterE) = true := by
        intro c hc
        simpa using fun h : c = letterE => hE (h ▸ hc)
      have hbefore : beforeE (n :: ns) = n :: beforeE ns :=
        List.takeWhile_cons_of_pos (by simpa using hE)
      rw [List.takeWhile_append_of_pos hpos] at hfuel ⊢
      rw [← List.append_assoc]
      refine (lastName_sourceName n hn fuel _ last).trans ?_
      rw [ih (fun k hk => hns k (by simp [hk])) ?_ n.text, hbefore, List.map_cons,
        List.getLastD_cons]
      have hne := List.length_pos_of_ne_nil n.ne_nil
      rw [List.length_append, List.length_append] at hfuel
      omega

/-! ## Nested names -/

/-- `ExtractMethodName` on a symbol that starts with `_ZN` and contains an `E`. -/
theorem extractMethodName_eq_lastName (t suffix : List Byte) :
    extractMethodName (ascii "_ZN" ++ (t ++ letterE :: suffix)) =
      lastName ((t ++ letterE :: suffix).takeWhile (· ≠ letterE)).length
        ((t ++ letterE :: suffix).takeWhile (· ≠ letterE)) [] := by
  have hmem : letterE ∈ t ++ letterE :: suffix := by simp
  obtain ⟨a, b, hab, ha⟩ := List.eq_append_cons_of_mem hmem
  have hcut : (a ++ letterE :: b).takeWhile (· ≠ letterE) = a := by
    rw [List.takeWhile_append_of_pos, List.takeWhile_cons_of_neg (by simp), List.append_nil]
    intro c hc
    simpa using fun h : c = letterE => ha (h ▸ hc)
  rw [hab, hcut]
  exact extractMethodName_of_cut (fun hc => (List.mem_cons.mp hc).elim (by decide) ha) b

/-- **What `ExtractMethodName` returns for a nested name**: the last identifier in front of the
first one that contains an `E`. -/
theorem extractMethodName_mangled (m : NestedName) (hm : ∀ n ∈ m.names, n.text.length < 2 ^ 31)
    (suffix : List Byte) :
    extractMethodName (m.mangled ++ suffix) =
      some (((beforeE m.names).map Ident.text).getLastD []) := by
  have hsplit : m.mangled ++ suffix =
      ascii "_ZN" ++ (m.names.flatMap Ident.sourceName ++ letterE :: suffix) := by
    simp [NestedName.mangled]
  rw [hsplit, extractMethodName_eq_lastName, lastName_sourceNames m.names hm suffix le_rfl]

/-- **When the last identifier is returned**: when the last one in front of the first with an `E`
has the same text. -/
theorem extractMethodName_eq_last_iff (m : NestedName) (hm : ∀ n ∈ m.names, n.text.length < 2 ^ 31)
    (suffix : List Byte) :
    extractMethodName (m.mangled ++ suffix) = some m.last.text ↔
      (m.names.takeWhile fun n => letterE ∉ n.text).getLast?.map Ident.text = some m.last.text := by
  rw [extractMethodName_mangled m hm, Option.some.injEq, List.getLastD_eq_getLast?,
    List.getLast?_map, beforeE]
  cases (m.names.takeWhile fun n => letterE ∉ n.text).getLast? with
  | none => exact iff_of_false m.last.ne_nil.symm (by simp)
  | some n => simp

theorem isIdent_art : isIdent (ascii "art") = true := by decide +kernel

theorem isIdent_thread : isIdent (ascii "Thread") = true := by decide +kernel

/-- `art::ClassLinker::RegisterNative`. -/
def registerNative : NestedName where
  names := [.ofText (ascii "art") isIdent_art, .ofText (ascii "ClassLinker") (by decide +kernel),
    .ofText (ascii "RegisterNative") (by decide +kernel)]
  ne_nil := by simp

theorem extractMethodName_registerNative : (∀ n ∈ registerNative.names, n.text.length < 2 ^ 31) ∧
    extractMethodName (registerNative.mangled ++ ascii "PNS_6ThreadE") =
      some (ascii "RegisterNative") :=
  ⟨by decide, (extractMethodName_eq_last_iff registerNative (by decide) _).mpr (by decide)⟩

/-- `art::Thread::SetException`. -/
def setException : NestedName where
  names := [.ofText (ascii "art") isIdent_art, .ofText (ascii "Thread") isIdent_thread,
    .ofText (ascii "SetException") (by decide +kernel)]
  ne_nil := by simp

/-- The name of the class is returned for the method `SetException`. -/
theorem extractMethodName_setException :
    extractMethodName (setException.mangled ++ ascii "v") = some (ascii "Thread") ∧
      extractMethodName (setException.mangled ++ ascii "v") ≠ some setException.last.text := by
  decide +kernel

end ElfSymbolResolver
end CalvinHook
