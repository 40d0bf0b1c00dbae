import Mathlib.Data.Char
import Mathlib.Data.List.Basic
import Mathlib.Data.Option.Basic

/-!
# JSON texts

A reader for JSON texts that accepts what a strict reader of the usual kind accepts: strings without
raw control characters, the six literals that count as numbers or constants, numbers kept as their
text, and whitespace between tokens.  A string value is a list of code points, since an escape may
name half of a surrogate pair.  `loads` reads a whole text: a value with nothing but whitespace
around it.

* `scanString_plain`, `scanString_escape`, `scanString_unicode`: reading one character of a string.
* `joinSurrogates_eq_self`: a string without surrogates is as it was written.
* `parseValue_two_strings`: reading an object with two members.
* `loads_of_parseValue`: a text is read if nothing but whitespace follows its value, and refused
  otherwise.
-/

namespace CalvinHook
namespace Text

/-- A JSON value.  Members are in the order of the text. -/
inductive Json where
  | null
  | bool (b : Bool)
  | num (raw : List Char)
  | str (s : List ℕ)
  | arr (xs : List Json)
  | obj (members : List (List ℕ × Json))

namespace Json

/-- The member of an object that a reader keeps for a key: the last one. -/
def get? (members : List (List ℕ × Json)) (key : List ℕ) : Option Json :=
  members.reverse.lookup key

/-- The code points of a string. -/
def codes (s : String) : List ℕ := s.toList.map Char.toNat

/-! ## Tokens -/

/-- Whitespace between tokens. -/
def isWs (c : Char) : Bool := c = ' ' || c = '\t' || c = '\n' || c = '\r'

/-- The text without the whitespace at its start. -/
def skipWs (s : List Char) : List Char := s.dropWhile isWs

/-- The value of a hexadecimal digit. -/
def hexVal (c : Char) : Option ℕ :=
  if '0' ≤ c ∧ c ≤ '9' then some (c.toNat - 0x30)
  else if 'a' ≤ c ∧ c ≤ 'f' then some (c.toNat - 0x57)
  else if 'A' ≤ c ∧ c ≤ 'F' then some (c.toNat - 0x37)
  else none

/-- The value of four hexadecimal digits. -/
def hex4 (a b c d : Char) : Option ℕ := do
  let a ← hexVal a
  let b ← hexVal b
  let c ← hexVal c
  let d ← hexVal d
  return ((a * 16 + b) * 16 + c) * 16 + d

/-- The escapes of one letter. -/
def simpleEscape (c : Char) : Option ℕ :=
  if c = '"' then some 0x22
  else if c = '\\' then some 0x5C
  else if c = '/' then some 0x2F
  else if c = 'b' then some 0x08
  else if c = 'f' then some 0x0C
  else if c = 'n' then some 0x0A
  else if c = 'r' then some 0x0D
  else if c = 't' then some 0x09
  else none

/-- Put a code point before what has been read. -/
def push (n : ℕ) : List ℕ × List Char → List ℕ × List Char
  | (v, r) => (n :: v, r)

/-- The string behind an opening quotation mark, with each escape as one code point, and what
follows the closing mark. -/
def scanString : List Char → Option (List ℕ × List Char)
  | [] => none
  | c :: s =>
    if c = '"' then some ([], s)
    else if c = '\\' then
      match s with
      | [] => none
      | e :: t =>
        if e = 'u' then
          match t with
          | h1 :: h2 :: h3 :: h4 :: u =>
            (hex4 h1 h2 h3 h4).bind fun n => (scanString u).map (push n)
          | _ => none
        else (simpleEscape e).bind fun n => (scanString t).map (push n)
    else if c.toNat < 0x20 then none
    else (scanString s).map (push c.toNat)

/-- Two escapes that name a surrogate pair stand for one code point. -/
def joinSurrogates : List ℕ → List ℕ
  | [] => []
  | [n] => [n]
  | hi :: lo :: s =>
    if 0xD800 ≤ hi ∧ hi ≤ 0xDBFF ∧ 0xDC00 ≤ lo ∧ lo ≤ 0xDFFF then
      (0x10000 + (hi - 0xD800) * 0x400 + (lo - 0xDC00)) :: joinSurrogates s
    else hi :: joinSurrogates (lo :: s)

/-- A decimal digit. -/
def isDigit (c : Char) : Bool := '0' ≤ c && c ≤ '9'

/-- The integer part of a number. -/
def scanInt : List Char → Option (List Char × List Char)
  | [] => none
  | c :: s =>
    if c = '0' then some ([c], s)
    else if isDigit c then some (c :: s.takeWhile isDigit, s.dropWhile isDigit)
    else none

/-- A run of digits behind a first part, if there is one. -/
def scanDigits (first s : List Char) : Option (List Char × List Char) :=
  if s.takeWhile isDigit = [] then none
  else some (first ++ s.takeWhile isDigit, s.dropWhile isDigit)

/-- The fraction of a number; nothing is read if there is none. -/
def scanFrac : List Char → List Char × List Char
  | [] => ([], [])
  | c :: s => if c = '.' then (scanDigits [c] s).getD ([], c :: s) else ([], c :: s)

/-- The exponent of a number; nothing is read if there is none. -/
def scanExp : List Char → List Char × List Char
  | [] => ([], [])
  | c :: s =>
    if c = 'e' ∨ c = 'E' then
      match s with
      | [] => ([], c :: s)
      | d :: t =>
        if d = '+' ∨ d = '-' then (scanDigits [c, d] t).getD ([], c :: s)
        else (scanDigits [c] s).getD ([], c :: s)
    else ([], c :: s)

/-- A number, as its text. -/
def scanNumber (s : List Char) : Option (List Char × List Char) := do
  let (sign, s) := if s.head? = some '-' then (['-'], s.tail) else ([], s)
  let (int, s) ← scanInt s
  let (frac, s) := scanFrac s
  let (exp, s) := scanExp s
  return (sign ++ int ++ frac ++ exp, s)

/-- A text that stands for a value. -/
def literal (lit : String) (j : Json) (s : List Char) : Option (Json × List Char) :=
  if lit.toList <+: s then some (j, s.drop lit.toList.length) else none

/-- A value that is neither a string nor made of other values. -/
def parseScalar (s : List Char) : Option (Json × List Char) :=
  literal "null" .null s <|> literal "true" (.bool true) s <|> literal "false" (.bool false) s <|>
    (scanNumber s).map (fun p => (.num p.1, p.2)) <|>
    literal "NaN" (.num "NaN".toList) s <|> literal "Infinity" (.num "Infinity".toList) s <|>
    literal "-Infinity" (.num "-Infinity".toList) s

/-- The text behind a character that has to come next. -/
def expect (c : Char) : List Char → Option (List Char)
  | [] => none
  | d :: s => if d = c then some s else none

/-! ## Values -/

mutual

/-- The value at the start of a text; the number bounds the nesting and the members read. -/
def parseValue : ℕ → List Char → Option (Json × List Char)
  | _, [] => none
  | 0, _ => none
  | n + 1, c :: t =>
    if c = '"' then (scanString t).map fun p => (.str (joinSurrogates p.1), p.2)
    else if c = '\x7b' then
      match expect '\x7d' (skipWs t) with
      | some r => some (.obj [], r)
      | none =>
        (expect '"' (skipWs t)).bind fun r => (parseMembers n r).map fun p => (.obj p.1, p.2)
    else if c = '[' then
      match expect ']' (skipWs t) with
      | some r => some (.arr [], r)
      | none => (parseElements n (skipWs t)).map fun p => (.arr p.1, p.2)
    else parseScalar (c :: t)

/-- The members of an object, behind the quotation mark of the first key. -/
def parseMembers : ℕ → List Char → Option (List (List ℕ × Json) × List Char)
  | 0, _ => none
  | n + 1, s =>
    (scanString s).bind fun key =>
    (expect ':' (skipWs key.2)).bind fun r =>
    (parseValue n (skipWs r)).bind fun v =>
    match expect '\x7d' (skipWs v.2) with
    | some r => some ([(joinSurrogates key.1, v.1)], r)
    | none =>
      (expect ',' (skipWs v.2)).bind fun r =>
      (expect '"' (skipWs r)).bind fun r =>
      (parseMembers n r).map fun p => ((joinSurrogates key.1, v.1) :: p.1, p.2)

/-- The elements of an array, at the first one. -/
def parseElements : ℕ → List Char → Option (List Json × List Char)
  | 0, _ => none
  | n + 1, s =>
    (parseValue n s).bind fun v =>
    match expect ']' (skipWs v.2) with
    | some r => some ([v.1], r)
    | none =>
      (expect ',' (skipWs v.2)).bind fun r =>
      (parseElements n (skipWs r)).map fun p => (v.1 :: p.1, p.2)

end

/-- A whole text: one value with whitespace around it, and no byte order mark. -/
def loads (s : List Char) : Option Json :=
  if s.head? = some '\uFEFF' then none
  else
    (parseValue (s.length + 1) (skipWs s)).bind fun p =>
      if skipWs p.2 = [] then some p.1 else none

/-! ## Reading strings -/

theorem scanString_quote (s : List Char) : scanString ('"' :: s) = some ([], s) := by
  rw [scanString.eq_def]
  exact if_pos rfl

theorem scanString_plain {c : Char} (s : List Char) (hq : c ≠ '"') (hb : c ≠ '\\')
    (hc : 0x20 ≤ c.toNat) : scanString (c :: s) = (scanString s).map (push c.toNat) := by
  rw [scanString.eq_def]
  simp only [if_neg hq, if_neg hb, if_neg (Nat.not_lt.mpr hc)]

theorem scanString_escape {e : Char} {n : ℕ} (s : List Char) (he : simpleEscape e = some n) :
    scanString ('\\' :: e :: s) = (scanString s).map (push n) := by
  have hu : e ≠ 'u' := by
    rintro rfl
    cases he
  have hb : ¬ '\\' = '"' := by decide
  rw [scanString.eq_def]
  simp only [if_neg hb, if_true, if_neg hu, he, Option.bind_some]

theorem scanString_unicode {a b c d : Char} {n : ℕ} (s : List Char) (h : hex4 a b c d = some n) :
    scanString ('\\' :: 'u' :: a :: b :: c :: d :: s) = (scanString s).map (push n) := by
  have hb : ¬ '\\' = '"' := by decide
  rw [scanString.eq_def]
  simp only [if_neg hb, if_true, h, Option.bind_some]

theorem joinSurrogates_eq_self {s : List ℕ} (h : ∀ n ∈ s, n < 0xD800 ∨ 0xDFFF < n) :
    joinSurrogates s = s := by
  induction s using joinSurrogates.induct with
  | case1 => rfl
  | case2 n => rfl
  | case3 hi lo s hsur ih =>
    have := h hi (List.mem_cons_self ..)
    omega
  | case4 hi lo s hsur ih =>
    rw [joinSurrogates, if_neg hsur, ih fun n hn => h n (List.mem_cons_of_mem _ hn)]

/-- No character is a surrogate. -/
theorem joinSurrogates_toNat (s : List Char) :
    joinSurrogates (s.map Char.toNat) = s.map Char.toNat := by
  apply joinSurrogates_eq_self
  intro n hn
  obtain ⟨c, -, rfl⟩ := List.mem_map.mp hn
  rcases c.valid with h | h
  · exact .inl h
  · exact .inr h.1

/-- A character that a string holds as it is. -/
def IsPlain (c : Char) : Prop := c ≠ '"' ∧ c ≠ '\\' ∧ 0x20 ≤ c.toNat

instance (c : Char) : Decidable (IsPlain c) := inferInstanceAs (Decidable (_ ∧ _))

/-- Characters of a given text, checked one by one. -/
theorem isPlain_of_all {cs : List Char} (h : (cs.all fun c => decide (IsPlain c)) = true) :
    ∀ c ∈ cs, IsPlain c := fun c hc => of_decide_eq_true (List.all_eq_true.mp h c hc)

theorem scanString_plain_append {cs : List Char} (h : ∀ c ∈ cs, IsPlain c) (r : List Char) :
    scanString (cs ++ '"' :: r) = some (cs.map Char.toNat, r) := by
  induction cs with
  | nil => exact scanString_quote r
  | cons c cs ih =>
    rw [List.forall_mem_cons] at h
    obtain ⟨⟨hq, hb, hc⟩, hcs⟩ := h
    rw [List.cons_append, scanString_plain _ hq hb hc, ih hcs]
    rfl

/-! ## Objects -/

theorem skipWs_append {sp : List Char} (hsp : ∀ c ∈ sp, isWs c) {c : Char} (s : List Char)
    (hc : isWs c = false) : skipWs (sp ++ c :: s) = c :: s := by
  rw [skipWs, List.dropWhile_append_of_pos hsp, List.dropWhile_cons_of_neg (by rw [hc]; decide)]

section Objects

variable {n : ℕ} {s t r r1 r2 r3 r4 r5 : List Char} {key w : List ℕ} {v : Json}
  {members : List (List ℕ × Json)}

theorem parseValue_string (h : scanString t = some (w, r)) :
    parseValue (n + 1) ('"' :: t) = some (.str (joinSurrogates w), r) := by
  rw [parseValue, if_pos rfl, h]
  rfl

/-- An object whose first member begins right behind its opening brace. -/
theorem parseValue_object (h : parseMembers n t = some (members, r)) :
    parseValue (n + 1) ('\x7b' :: '"' :: t) = some (.obj members, r) := by
  rw [parseValue, if_neg (by decide), if_pos rfl]
  change (parseMembers n t).map _ = _
  rw [h]
  rfl

/-- The last member. -/
theorem parseMembers_last (hkey : scanString s = some (key, ':' :: r2))
    (hv : parseValue n (skipWs r2) = some (v, '\x7d' :: r3)) :
    parseMembers (n + 1) s = some ([(joinSurrogates key, v)], r3) := by
  have hcolon : expect ':' (skipWs (':' :: r2)) = some r2 := rfl
  have hend : expect '\x7d' (skipWs ('\x7d' :: r3)) = some r3 := rfl
  simp only [parseMembers, hkey, Option.bind_some, hcolon, hv, hend]

/-- A member that a comma follows. -/
theorem parseMembers_comma (hkey : scanString s = some (key, ':' :: r2))
    (hv : parseValue n (skipWs r2) = some (v, ',' :: r3)) (hquote : skipWs r3 = '"' :: r4)
    (hrest : parseMembers n r4 = some (members, r5)) :
    parseMembers (n + 1) s = some ((joinSurrogates key, v) :: members, r5) := by
  have hcolon : expect ':' (skipWs (':' :: r2)) = some r2 := rfl
  have hend : expect '\x7d' (skipWs (',' :: r3)) = none := rfl
  have hcomma : expect ',' (skipWs (',' :: r3)) = some r3 := rfl
  have hopen : expect '"' ('"' :: r4) = some r4 := rfl
  simp only [parseMembers, hkey, Option.bind_some, hcolon, hv, hend, hcomma, hquote, hopen, hrest,
    Option.map_some]

/-- **An object with two string members**, with the same whitespace behind each colon and comma. -/
theorem parseValue_two_strings (n : ℕ) (sp k1 v1 k2 : List Char) (hsp : ∀ c ∈ sp, isWs c)
    (hk1 : ∀ c ∈ k1, IsPlain c) (hv1 : ∀ c ∈ v1, IsPlain c) (hk2 : ∀ c ∈ k2, IsPlain c)
    (hw : scanString t = some (w, '\x7d' :: r)) :
    parseValue (n + 4) ('\x7b' :: '"' :: (k1 ++ '"' :: ':' :: (sp ++ '"' :: (v1 ++ '"' :: ',' ::
      (sp ++ '"' :: (k2 ++ '"' :: ':' :: (sp ++ '"' :: t))))))) =
      some (.obj [(k1.map Char.toNat, .str (v1.map Char.toNat)),
        (k2.map Char.toNat, .str (joinSurrogates w))], r) := by
  have hws : ∀ u, skipWs (sp ++ '"' :: u) = '"' :: u := fun u => skipWs_append hsp u rfl
  have hfirst := scanString_plain_append hv1 (',' :: (sp ++ '"' :: (k2 ++ '"' :: ':' ::
    (sp ++ '"' :: t))))
  have hlast : parseMembers (n + 2) (k2 ++ '"' :: ':' :: (sp ++ '"' :: t)) =
      some ([(joinSurrogates (k2.map Char.toNat), .str (joinSurrogates w))], r) := by
    refine parseMembers_last (scanString_plain_append hk2 _) ?_
    rw [hws]
    exact parseValue_string hw
  have hall := parseMembers_comma (scanString_plain_append hk1 _)
    (by rw [hws]; exact parseValue_string hfirst) (hws _) hlast
  rw [joinSurrogates_toNat, joinSurrogates_toNat, joinSurrogates_toNat] at hall
  exact parseValue_object hall

end Objects

/-! ## Whole texts -/

theorem loads_of_parseValue {s r : List Char} {j : Json} (hs : s.head? ≠ some '\uFEFF')
    (h : parseValue (s.length + 1) (skipWs s) = some (j, r)) :
    loads s = if skipWs r = [] then some j else none := by
  rw [loads, if_neg hs, h, Option.bind_some]

end Json
end Text
end CalvinHook
