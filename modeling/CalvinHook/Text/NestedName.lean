import CalvinHook.Text.Numeral

/-!
# Mangled nested names

In the Itanium C++ ABI the name `a::b::c` is mangled as `_ZN1a1b1cE`: each identifier follows its
length, and `E` ends the list.  What comes behind it (parameter types, suffixes of the compiler) is
a suffix here.

* `Ident`: a C++ identifier.
* `NestedName.mangled`: the mangled text.
* `takeWhile_sourceName`, `dropWhile_sourceName`: reading one identifier.
* `components_mangled`: the identifiers can be read back.
-/

namespace CalvinHook
namespace Text

/-- A letter, a digit or the underscore. -/
def isIdentChar (c : Byte) : Bool :=
  isDigit 10 c || (0x61 ≤ c.toNat && c.toNat ≤ 0x7A) ||
    (0x41 ≤ c.toNat && c.toNat ≤ 0x5A) || c = 0x5F

/-- An identifier. -/
structure Ident where
  text : List Byte
  ne_nil : text ≠ []
  chars : ∀ c ∈ text, isIdentChar c
  /-- It does not start with a digit. -/
  head : ∀ c ∈ text.head?, isDigit 10 c = false

/-- The test for an identifier. -/
def isIdent (text : List Byte) : Bool := text.head?.any (!isDigit 10 ·) && text.all isIdentChar

/-- The identifier with a text that passes the test. -/
def Ident.ofText (text : List Byte) (h : isIdent text = true) : Ident where
  text := text
  ne_nil := by
    rintro rfl
    exact absurd h (by decide)
  chars := List.all_eq_true.mp (Bool.and_eq_true_iff.mp h).2
  head c hc := by
    have hhead := (Bool.and_eq_true_iff.mp h).1
    rw [Option.mem_def.mp hc] at hhead
    simpa using hhead

/-- The letter that ends a nested name. -/
def letterE : Byte := 0x45

/-- The identifier behind its length. -/
def Ident.sourceName (n : Ident) : List Byte := numeral 10 1 n.text.length ++ n.text

/-- A name with its scopes, the outermost first. -/
structure NestedName where
  names : List Ident
  ne_nil : names ≠ []

/-- The mangled name, up to and with the `E`. -/
def NestedName.mangled (m : NestedName) : List Byte :=
  ascii "_ZN" ++ (m.names.flatMap Ident.sourceName ++ [letterE])

/-- The last identifier. -/
def NestedName.last (m : NestedName) : Ident := m.names.getLast m.ne_nil

section Read

variable (n : Ident) (rest : List Byte)

theorem Ident.head?_append : (n.text ++ rest).head? = n.text.head? :=
  List.head?_append_of_ne_nil _ n.ne_nil

theorem takeWhile_sourceName :
    (n.sourceName ++ rest).takeWhile (isDigit 10) = numeral 10 1 n.text.length := by
  rw [Ident.sourceName, List.append_assoc]
  exact takeWhile_numeral (by omega) (by omega) (by rw [n.head?_append]; exact n.head)

theorem dropWhile_sourceName : (n.sourceName ++ rest).dropWhile (isDigit 10) = n.text ++ rest := by
  rw [Ident.sourceName, List.append_assoc]
  exact dropWhile_numeral (by omega) (by omega) (by rw [n.head?_append]; exact n.head)

theorem Ident.sourceName_ne_nil : n.sourceName ≠ [] := by
  rw [Ident.sourceName, ne_eq, List.append_eq_nil_iff, not_and_or]
  exact .inr n.ne_nil

end Read

/-- The identifiers up to the `E`, at most `fuel` of them. -/
def readNames : ℕ → List Byte → Option (List (List Byte))
  | 0, _ => none
  | fuel + 1, s =>
    if s.head? = some letterE then some []
    else
      let len := value 10 (s.takeWhile (isDigit 10))
      let r := s.dropWhile (isDigit 10)
      if s.takeWhile (isDigit 10) = [] ∨ r.length < len then none
      else (readNames fuel (r.drop len)).map (r.take len :: ·)

/-- The identifiers of a mangled nested name. -/
def components (s : List Byte) : Option (List (List Byte)) :=
  if ascii "_ZN" <+: s then readNames s.length (s.drop 3) else none

theorem head?_sourceName_ne (n : Ident) (rest : List Byte) :
    (n.sourceName ++ rest).head? ≠ some letterE := by
  have hne := numeral_ne_nil (b := 10) (n := n.text.length) one_pos
  rw [Ident.sourceName, List.append_assoc, List.head?_append_of_ne_nil _ hne]
  intro h
  have hdigit := isDigit_of_mem_numeral (by omega) (by omega) (List.mem_of_mem_head? h)
  exact absurd hdigit (by decide)

theorem readNames_sourceNames (ns : List Ident) (suffix : List Byte) {fuel : ℕ}
    (h : ns.length < fuel) :
    readNames fuel (ns.flatMap Ident.sourceName ++ letterE :: suffix) =
      some (ns.map Ident.text) := by
  induction ns generalizing fuel with
  | nil =>
    cases fuel with
    | zero => exact absurd h (Nat.not_lt_zero _)
    | succ fuel => rfl
  | cons n ns ih =>
    cases fuel with
    | zero => exact absurd h (Nat.not_lt_zero _)
    | succ fuel =>
      have hnum : ¬(numeral 10 1 n.text.length = [] ∨
          (n.text ++ (ns.flatMap Ident.sourceName ++ letterE :: suffix)).length <
          n.text.length) := by
        rw [not_or, List.length_append]
        exact ⟨numeral_ne_nil one_pos, by omega⟩
      rw [List.flatMap_cons, List.append_assoc, readNames, if_neg (head?_sourceName_ne n _)]
      simp only [takeWhile_sourceName, dropWhile_sourceName,
        value_numeral (by omega : 2 ≤ 10) (by omega), if_neg hnum, List.drop_left, List.take_left]
      rw [ih (Nat.lt_of_succ_lt_succ h), Option.map_some, List.map_cons]

theorem length_le_length_sourceNames (ns : List Ident) :
    ns.length ≤ (ns.flatMap Ident.sourceName).length := by
  induction ns with
  | nil => exact Nat.zero_le _
  | cons n ns ih =>
    have hpos := List.length_pos_of_ne_nil n.sourceName_ne_nil
    rw [List.flatMap_cons, List.length_append, List.length_cons]
    omega

/-- **The identifiers of a mangled name can be read back.** -/
theorem components_mangled (m : NestedName) (suffix : List Byte) :
    components (m.mangled ++ suffix) = some (m.names.map Ident.text) := by
  have hsplit : m.mangled ++ suffix =
      ascii "_ZN" ++ (m.names.flatMap Ident.sourceName ++ letterE :: suffix) := by
    simp [NestedName.mangled]
  have hlen := length_le_length_sourceNames m.names
  rw [components, hsplit, if_pos (List.prefix_append _ _)]
  have hdrop : (ascii "_ZN" ++ (m.names.flatMap Ident.sourceName ++ letterE :: suffix)).drop 3 =
      m.names.flatMap Ident.sourceName ++ letterE :: suffix := List.drop_left' rfl
  rw [hdrop]
  refine readNames_sourceNames _ _ ?_
  rw [List.length_append, List.length_append, List.length_cons]
  omega

end Text
end CalvinHook
