import Mathlib.Data.List.TakeWhile
import CalvinHook.Text.Numeral

/-!
# Reading lines with `fgets` and `sscanf`

`scan` follows a format through a text and collects the values that are stored; it ends at the first
directive that does not match, so the number of values is what `sscanf` returns.  `fgetsAll` cuts a
text the way a loop over `fgets` does: behind each newline, and wherever the buffer is full.

* `scan_number`, `scan_space`, `scan_word`, `scan_rest`: directives that match.
* `fgets_line`, `fgets_full`: a line that fits into the buffer, and one that fills it.
* `findSome?_fgetsAll`: a loop over the lines that ends at the first success.
-/

namespace CalvinHook
namespace Text

/-! ## Directives -/

/-- `isspace`. -/
def isSpace (c : Byte) : Bool := c = 0x20 || (0x09 ≤ c.toNat && c.toNat ≤ 0x0D)

/-- The text without the white space at its start. -/
def skipSpace (s : List Byte) : List Byte := s.dropWhile isSpace

/-- A directive of a format. -/
inductive Directive where
  /-- White space in the format. -/
  | space
  /-- A character that has to be there. -/
  | lit (c : Byte)
  /-- `%lx`, `%*x`, `%*u`: an unsigned number in a base, stored or not. -/
  | number (base : ℕ) (stored : Bool)
  /-- `%4s`: at most `width` characters up to white space. -/
  | word (width : ℕ)
  /-- `%255[^\n]`: at most `width` characters up to a newline. -/
  | rest (width : ℕ)
  deriving DecidableEq, Repr

/-- A stored value. -/
inductive Field where
  | num (n : ℕ)
  | text (s : List Byte)
  deriving DecidableEq, Repr

/-- The number at the start of a text, as `strtoul` reads it: a sign, `0x` in base 16, and digits;
the value is an `unsigned long`, the largest one if there are too many digits. -/
def scanNumber (base : ℕ) (s : List Byte) : Option (ℕ × List Byte) :=
  let s1 := if s.head? = some 0x2D ∨ s.head? = some 0x2B then s.tail else s
  let s2 := if base = 16 ∧ s1.head? = some 0x30 ∧
    (s1.tail.head? = some 0x78 ∨ s1.tail.head? = some 0x58) then
    s1.drop 2 else s1
  if s2.takeWhile (isDigit base) = [] then none
  else
    let n := value base (s2.takeWhile (isDigit base))
    let n :=
      if n ≥ 2 ^ 64 then 2 ^ 64 - 1
      else if s.head? = some 0x2D then (2 ^ 64 - n) % 2 ^ 64
      else n
    some (n, s2.dropWhile (isDigit base))

/-- The base that `strtoull` takes for base 0. -/
def detectBase (s : List Byte) : ℕ :=
  let s1 := if s.head? = some 0x2D ∨ s.head? = some 0x2B then s.tail else s
  if s1.head? = some 0x30 then
    if s1.tail.head? = some 0x78 ∨ s1.tail.head? = some 0x58 then 16 else 8
  else 10

/-- The value of `strtoull` in base 0; zero if there is no number. -/
def strtoull (s : List Byte) : ℕ :=
  ((scanNumber (detectBase (skipSpace s)) (skipSpace s)).map Prod.fst).getD 0

/-- The value of `strtoull` in base 0 and the text at its `end`: all of the text if there is no
number.  In `0x` without a digit behind it, the zero is a number. -/
def strtoullEnd (s : List Byte) : ℕ × List Byte :=
  match scanNumber (detectBase (skipSpace s)) (skipSpace s) with
  | some r => r
  | none =>
    (0, if detectBase (skipSpace s) = 16 then (skipSpace s).dropWhile (· ≠ 0x30) |>.tail else s)

/-- The values that `sscanf` stores. -/
def scan : List Directive → List Byte → List Field
  | [], _ => []
  | .space :: ds, s => scan ds (skipSpace s)
  | .lit c :: ds, s => if s.head? = some c then scan ds s.tail else []
  | .number base stored :: ds, s =>
    match scanNumber base (skipSpace s) with
    | none => []
    | some (n, r) => if stored then .num n :: scan ds r else scan ds r
  | .word width :: ds, s =>
    let w := ((skipSpace s).take width).takeWhile (!isSpace ·)
    if w = [] then [] else .text w :: scan ds ((skipSpace s).drop w.length)
  | .rest width :: ds, s =>
    let w := (s.take width).takeWhile (· ≠ 0x0A)
    if w = [] then [] else .text w :: scan ds (s.drop w.length)

section Scan

variable {ds : List Directive} {s rest : List Byte}

theorem skipSpace_of_head (h : ∀ c ∈ s.head?, isSpace c = false) : skipSpace s = s := by
  cases s with
  | nil => rfl
  | cons c s => exact List.dropWhile_cons_of_neg (by simp [h c rfl])

theorem skipSpace_append {sp : List Byte} (hsp : ∀ c ∈ sp, isSpace c) (s : List Byte) :
    skipSpace (sp ++ s) = skipSpace s := List.dropWhile_append_of_pos hsp

theorem isSpace_of_isDigit {c : Byte} (h : isDigit 16 c) : isSpace c = false := by
  revert h
  revert c
  decide

theorem isDigit_mono {b : ℕ} (hb : b ≤ 16) {c : Byte} (h : isDigit b c) : isDigit 16 c := by
  rw [isDigit] at h ⊢
  cases hc : digitVal c with
  | none =>
    rw [hc] at h
    exact absurd h (by simp)
  | some d =>
    rw [hc] at h
    simp only [Option.any_some, decide_eq_true_eq] at h ⊢
    omega

variable {b w n : ℕ}

/-- A numeral, behind which the next character neither continues it nor makes a prefix of it. -/
theorem scanNumber_numeral (hb : 2 ≤ b) (hb' : b ≤ 16) (hw : 0 < w) (hn : n < 2 ^ 64)
    (hrest : ∀ c ∈ rest.head?, isDigit b c = false ∧ c ≠ 0x78 ∧ c ≠ 0x58) :
    scanNumber b (numeral b w n ++ rest) = some (n, rest) := by
  obtain ⟨c, ds, hds⟩ := List.exists_cons_of_ne_nil (numeral_ne_nil (b := b) (n := n) hw)
  have hdigit : ∀ c' ∈ c :: ds, isDigit 16 c' := fun c' hc' =>
    isDigit_mono hb' (isDigit_of_mem_numeral hb hb' (hds ▸ hc'))
  have hne : ∀ c' x, c' ∈ c :: ds → isDigit 16 x = false → c' ≠ x := by
    rintro c' x hc' hx rfl
    exact absurd (hdigit c' hc') (by simp [hx])
  have hsecond : ∀ x ∈ (ds ++ rest).head?, x ≠ 0x78 ∧ x ≠ 0x58 := by
    intro x hx
    cases ds with
    | nil => exact (hrest x hx).2
    | cons c' ds =>
      obtain rfl : c' = x := by simpa using hx
      exact ⟨hne c' _ (by simp) (by decide), hne c' _ (by simp) (by decide)⟩
  have hminus : ¬(numeral b w n ++ rest).head? = some 0x2D := by
    rw [hds]
    simpa using hne c 0x2D (by simp) (by decide)
  have hplus : ¬(numeral b w n ++ rest).head? = some 0x2B := by
    rw [hds]
    simpa using hne c 0x2B (by simp) (by decide)
  have hpre : ¬(b = 16 ∧ (numeral b w n ++ rest).head? = some 0x30 ∧
      ((numeral b w n ++ rest).tail.head? = some 0x78 ∨
        (numeral b w n ++ rest).tail.head? = some 0x58)) := by
    rw [hds]
    rintro ⟨-, -, hx | hx⟩
    · exact (hsecond _ hx).1 rfl
    · exact (hsecond _ hx).2 rfl
  have hdigits := takeWhile_numeral (w := w) (n := n) hb hb' fun c hc => (hrest c hc).1
  have hdrop := dropWhile_numeral (w := w) (n := n) hb hb' fun c hc => (hrest c hc).1
  simp only [scanNumber, hminus, hplus, or_self, if_false, if_neg hpre, hdigits, hdrop,
    if_neg (numeral_ne_nil hw), value_numeral hb hb', ge_iff_le, if_neg (Nat.not_le.mpr hn)]

/-- A numeral in base 16 behind `0x`. -/
theorem scanNumber_hex (hw : 0 < w) (hn : n < 2 ^ 64)
    (hrest : ∀ c ∈ rest.head?, isDigit 16 c = false) :
    scanNumber 16 (0x30 :: 0x78 :: numeral 16 w n ++ rest) = some (n, rest) := by
  have hdigits := takeWhile_numeral (b := 16) (w := w) (n := n) (by omega) le_rfl hrest
  have hdrop := dropWhile_numeral (b := 16) (w := w) (n := n) (by omega) le_rfl hrest
  have hs2 : (0x30 :: 0x78 :: numeral 16 w n ++ rest).drop 2 = numeral 16 w n ++ rest := rfl
  have hsign : ¬((0x30 :: 0x78 :: numeral 16 w n ++ rest).head? = some 0x2D ∨
      (0x30 :: 0x78 :: numeral 16 w n ++ rest).head? = some 0x2B) := by simp
  have hpre : (0x30 :: 0x78 :: numeral 16 w n ++ rest).head? = some 0x30 ∧
      ((0x30 :: 0x78 :: numeral 16 w n ++ rest).tail.head? = some 0x78 ∨
        (0x30 :: 0x78 :: numeral 16 w n ++ rest).tail.head? = some 0x58) := ⟨rfl, .inl rfl⟩
  simp only [scanNumber, if_neg hsign, true_and, if_pos hpre, hs2, hdigits, hdrop,
    if_neg (numeral_ne_nil hw), value_numeral (show 2 ≤ 16 by omega) le_rfl, ge_iff_le,
    if_neg (Nat.not_le.mpr hn), if_neg fun h => hsign (.inl h)]

/-- `strtoull` reads a number behind `0x` in base 16. -/
theorem strtoull_hex (hw : 0 < w) (hn : n < 2 ^ 64) :
    strtoull (0x30 :: 0x78 :: numeral 16 w n) = n := by
  have hskip : skipSpace (0x30 :: 0x78 :: numeral 16 w n) = 0x30 :: 0x78 :: numeral 16 w n :=
    skipSpace_of_head (by simp; decide)
  have hscan : scanNumber 16 (0x30 :: 0x78 :: numeral 16 w n ++ []) = some (n, []) :=
    scanNumber_hex hw hn (by simp)
  rw [List.append_nil] at hscan
  rw [strtoull, hskip, show detectBase (0x30 :: 0x78 :: numeral 16 w n) = 16 from rfl, hscan]
  rfl

theorem length_scanNumber_lt {base : ℕ} {r : ℕ × List Byte} (h : scanNumber base s = some r) :
    r.2.length < s.length := by
  let s1 := if s.head? = some 0x2D ∨ s.head? = some 0x2B then s.tail else s
  let s2 := if base = 16 ∧ s1.head? = some 0x30 ∧
    (s1.tail.head? = some 0x78 ∨ s1.tail.head? = some 0x58) then
    s1.drop 2 else s1
  have hs1 : s1.length ≤ s.length := by
    show (ite _ s.tail s).length ≤ s.length
    split_ifs
    · exact (List.tail_suffix s).length_le
    · exact le_rfl
  have hs2 : s2.length ≤ s1.length := by
    show (ite _ (s1.drop 2) s1).length ≤ s1.length
    split_ifs
    · exact (List.drop_suffix 2 s1).length_le
    · exact le_rfl
  have hsplit := congrArg List.length
    (List.takeWhile_append_dropWhile (p := isDigit base) (l := s2))
  rw [List.length_append] at hsplit
  obtain ⟨hne, hr⟩ : s2.takeWhile (isDigit base) ≠ [] ∧ r.2 = s2.dropWhile (isDigit base) := by
    by_cases hne : s2.takeWhile (isDigit base) = []
    · exact absurd ((if_pos hne).symm.trans h) nofun
    · exact ⟨hne, (congrArg Prod.snd (Option.some.inj ((if_neg hne).symm.trans h))).symm⟩
  have hpos := List.length_pos_iff.mpr hne
  rw [hr]
  omega

/-- Where there is no number, the value is zero. -/
theorem strtoullEnd_eq (s : List Byte) :
    (if (strtoullEnd s).2 = s then 0 else (strtoullEnd s).1) = strtoull s := by
  rw [strtoullEnd, strtoull]
  cases hscan : scanNumber (detectBase (skipSpace s)) (skipSpace s) with
  | none => exact ite_self 0
  | some r =>
    have hlt := length_scanNumber_lt hscan
    have hle : (skipSpace s).length ≤ s.length := (List.dropWhile_suffix _).length_le
    have hne : r.2 ≠ s := by
      intro h
      rw [h] at hlt
      omega
    exact if_neg hne

theorem head?_numeral (hb : 2 ≤ b) (hb' : b ≤ 16) (hw : 0 < w) :
    ∀ c ∈ (numeral b w n ++ rest).head?, isSpace c = false := by
  intro c hc
  rw [List.head?_append_of_ne_nil _ (numeral_ne_nil hw)] at hc
  exact isSpace_of_isDigit
    (isDigit_mono hb' (isDigit_of_mem_numeral hb hb' (List.mem_of_mem_head? hc)))

/-- A number that matches. -/
theorem scan_number (hb : 2 ≤ b) (hb' : b ≤ 16) (hw : 0 < w) (hn : n < 2 ^ 64)
    (hrest : ∀ c ∈ rest.head?, isDigit b c = false ∧ c ≠ 0x78 ∧ c ≠ 0x58) (stored : Bool) :
    scan (.number b stored :: ds) (numeral b w n ++ rest) =
      if stored then .num n :: scan ds rest else scan ds rest := by
  rw [scan, skipSpace_of_head (head?_numeral hb hb' hw), scanNumber_numeral hb hb' hw hn hrest]

/-- A number in front of a character that ends it. -/
theorem scan_number_cons (hb : 2 ≤ b) (hb' : b ≤ 16) (hw : 0 < w) (hn : n < 2 ^ 64) {c : Byte}
    (hc : isDigit b c = false ∧ c ≠ 0x78 ∧ c ≠ 0x58) (stored : Bool) (s : List Byte) :
    scan (.number b stored :: ds) (numeral b w n ++ c :: s) =
      if stored then .num n :: scan ds (c :: s) else scan ds (c :: s) := by
  refine scan_number hb hb' hw hn ?_ stored
  rintro c' hc'
  obtain rfl : c = c' := by simpa using hc'
  exact hc

/-- White space that matches. -/
theorem scan_space {sp : List Byte} (hsp : ∀ c ∈ sp, isSpace c)
    (hs : ∀ c ∈ s.head?, isSpace c = false) :
    scan (.space :: ds) (sp ++ s) = scan ds s := by
  rw [scan, skipSpace_append hsp, skipSpace_of_head hs]

theorem scan_space_cons (hs : ∀ c ∈ s.head?, isSpace c = false) :
    scan (.space :: ds) (0x20 :: s) = scan ds s := by
  have hsp : ∀ c ∈ [(0x20 : Byte)], isSpace c := by decide
  exact scan_space hsp hs

theorem scan_lit (c : Byte) (s : List Byte) : scan (.lit c :: ds) (c :: s) = scan ds s := by
  rw [scan]
  exact if_pos rfl

/-- A word that fills its width. -/
theorem scan_word {word : List Byte} (hne : word ≠ []) (hword : ∀ c ∈ word, isSpace c = false)
    (s : List Byte) :
    scan (.word word.length :: ds) (word ++ s) = .text word :: scan ds s := by
  have hskip : skipSpace (word ++ s) = word ++ s := by
    refine skipSpace_of_head fun c hc => ?_
    rw [List.head?_append_of_ne_nil _ hne] at hc
    exact hword c (List.mem_of_mem_head? hc)
  have hall : word.takeWhile (!isSpace ·) = word :=
    List.takeWhile_eq_self_iff.mpr fun c hc => by simp [hword c hc]
  simp only [scan, hskip, List.take_left, hall, if_neg hne, List.drop_left]

/-- The rest of a line that fits into its width, up to a newline or the end. -/
theorem scan_rest {line : List Byte} {width : ℕ} (hne : line ≠ []) (hline : 0x0A ∉ line)
    (hlen : line.length ≤ width) (hs : ∀ c ∈ s.head?, c = 0x0A) :
    scan (.rest width :: ds) (line ++ s) = .text line :: scan ds s := by
  have hpos : ∀ c ∈ line, decide (c ≠ 0x0A) = true := by
    intro c hc
    simpa using fun h : c = 0x0A => hline (h ▸ hc)
  have hstop : (s.take (width - line.length)).takeWhile (· ≠ 0x0A) = [] := by
    cases hk : width - line.length with
    | zero => rfl
    | succ k =>
      cases s with
      | nil => rfl
      | cons c s => exact List.takeWhile_cons_of_neg (by simpa using hs c rfl)
  have hword : ((line ++ s).take width).takeWhile (· ≠ 0x0A) = line := by
    rw [List.take_append, List.take_of_length_le hlen, List.takeWhile_append_of_pos hpos, hstop,
      List.append_nil]
  simp only [scan, hword, if_neg hne, List.drop_left]

end Scan

/-! ## Lines -/

/-- What one call of `fgets` reads into a buffer of `size` bytes. -/
def fgets (size : ℕ) (s : List Byte) : List Byte :=
  let chunk := s.take (size - 1)
  if 0x0A ∈ chunk then chunk.takeWhile (· ≠ 0x0A) ++ [0x0A] else chunk

/-- What the calls of `fgets` read one after another.  A call reads at least one byte, so as many
calls as there are bytes are enough. -/
def fgetsAll (size : ℕ) : ℕ → List Byte → List (List Byte)
  | 0, _ => []
  | n + 1, s =>
    if s = [] then []
    else fgets size s :: fgetsAll size n (s.drop (fgets size s).length)

section Fgets

variable {size : ℕ} {line : List Byte} (rest : List Byte)

/-- A line that fits into the buffer with its newline. -/
theorem fgets_line (hline : 0x0A ∉ line) (hlen : line.length + 1 < size) :
    fgets size (line ++ 0x0A :: rest) = line ++ [0x0A] := by
  have hchunk : (line ++ 0x0A :: rest).take (size - 1) =
      line ++ 0x0A :: rest.take (size - 2 - line.length) := by
    rw [List.take_append, List.take_of_length_le (by omega)]
    obtain ⟨k, hk⟩ : ∃ k, size - 1 - line.length = k + 1 := ⟨size - 2 - line.length, by omega⟩
    rw [hk, List.take_succ_cons, show size - 2 - line.length = k by omega]
  have hpos : ∀ c ∈ line, decide (c ≠ 0x0A) = true := by
    intro c hc
    simpa using fun h : c = 0x0A => hline (h ▸ hc)
  have hmem : (0x0A : Byte) ∈ line ++ 0x0A :: rest.take (size - 2 - line.length) := by simp
  simp only [fgets, hchunk]
  rw [if_pos hmem, List.takeWhile_append_of_pos hpos, List.takeWhile_cons_of_neg (by simp),
    List.append_nil]

/-- A line that fills the buffer without its newline. -/
theorem fgets_full (hline : 0x0A ∉ line) (hlen : line.length + 1 = size) :
    fgets size (line ++ 0x0A :: rest) = line := by
  have hchunk : (line ++ 0x0A :: rest).take (size - 1) = line := List.take_left' (by omega)
  simp only [fgets, hchunk, if_neg hline]

theorem fgetsAll_cons {s chunk rest : List Byte} {fuel : ℕ} (hs : s = chunk ++ rest) (hne : s ≠ [])
    (hchunk : fgets size s = chunk) :
    fgetsAll size (fuel + 1) s = chunk :: fgetsAll size fuel rest := by
  rw [fgetsAll, if_neg hne, hchunk, hs, List.drop_left]

/-- **A loop over the lines of a text**, for lines shorter than the buffer: a line that fills it is
read without its newline, which makes the next line. -/
theorem findSome?_fgetsAll {α : Type} {lines : List (List Byte)} {f g : List Byte → Option α}
    {fuel : ℕ} (hsize : 2 ≤ size) (hnl : f [0x0A] = none)
    (hlines : ∀ l ∈ lines, 0x0A ∉ l ∧ l.length < size) (hfit : ∀ l ∈ lines, f (l ++ [0x0A]) = g l)
    (hfull : ∀ l ∈ lines, f l = g l) (hfuel : (lines.flatMap (· ++ [0x0A])).length ≤ fuel) :
    (fgetsAll size fuel (lines.flatMap (· ++ [0x0A]))).findSome? f = lines.findSome? g := by
  induction lines generalizing fuel with
  | nil => cases fuel <;> rfl
  | cons l lines ih =>
    obtain ⟨hl, hlen⟩ := hlines l (by simp)
    have htext : (l :: lines).flatMap (· ++ [0x0A]) = l ++ 0x0A :: lines.flatMap (· ++ [0x0A]) := by
      simp
    have hne : l ++ 0x0A :: lines.flatMap (· ++ [0x0A]) ≠ [] := by simp
    rw [htext] at hfuel ⊢
    rw [List.length_append, List.length_cons] at hfuel
    have hrec : ∀ fuel', (lines.flatMap (· ++ [0x0A])).length ≤ fuel' →
        (fgetsAll size fuel' (lines.flatMap (· ++ [0x0A]))).findSome? f = lines.findSome? g :=
      fun fuel' h =>
        ih (fun k hk => hlines k (by simp [hk])) (fun k hk => hfit k (by simp [hk]))
          (fun k hk => hfull k (by simp [hk])) h
    obtain ⟨fuel, rfl⟩ : ∃ k, fuel = k + 1 := Nat.exists_eq_add_of_le' (by omega)
    rcases Nat.lt_or_eq_of_le (Nat.succ_le_of_lt hlen) with hlt | heq
    · rw [fgetsAll_cons (List.append_cons ..) hne (fgets_line _ hl hlt), List.findSome?_cons,
        List.findSome?_cons, hfit l (by simp), hrec fuel (by omega)]
    · -- the newline is left for the next call
      have hnext : fgets size (0x0A :: lines.flatMap (· ++ [0x0A])) = [0x0A] :=
        fgets_line _ List.not_mem_nil (Nat.lt_of_succ_le hsize)
      obtain ⟨fuel, rfl⟩ : ∃ k, fuel = k + 1 := Nat.exists_eq_add_of_le' (by omega)
      have hstep : fgetsAll size (fuel + 1) (0x0A :: lines.flatMap (· ++ [0x0A])) =
          [0x0A] :: fgetsAll size fuel (lines.flatMap (· ++ [0x0A])) :=
        fgetsAll_cons rfl (List.cons_ne_nil _ _) hnext
      rw [fgetsAll_cons rfl hne (fgets_full _ hl heq), hstep, List.findSome?_cons,
        List.findSome?_cons, hnl, hfull l (by simp), List.findSome?_cons, hrec fuel (by omega)]

end Fgets

end Text
end CalvinHook
