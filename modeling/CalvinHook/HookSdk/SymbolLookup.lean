import CalvinHook.HookSdk.ElfSymbolResolver
import CalvinHook.HookSdk.MethodName

/-!
# `elf_symbol_resolver.cpp`: looking a symbol up

`ArtSymbolResolver` asks the dynamic linker first and then searches the list of symbols three times:
for the name itself, for a name that starts with it, and for the shortest name in the namespace
`art` that contains the method name.  The second search is meant for suffixes such as `.__uniq.123`,
but accepts any continuation, so it may return another overload.  The third accepts a name that
contains the method name anywhere.

* `artSymbolResolver`: the model; `Resolved` says where the returned address comes from.
* `Demangler`: what the last component of a mangled name is, for arbitrary names.
* `Found`: what the third search finds, by the list alone; `found_iff`: its loop finds that.
* `right_iff`: when the symbol that is returned is one for the query.
-/

namespace CalvinHook
namespace ElfSymbolResolver

open Text Elf

/-! ## The model -/

/-- The searches of the list. -/
inductive Stage where
  | exact
  | starts
  | fuzzy
  deriving DecidableEq, Repr

/-- What is returned, with the symbol whose address it is. -/
inductive Resolved where
  | dlsym (addr : Off)
  | table (stage : Stage) (sym : SymbolEntry)
  | missing
  deriving DecidableEq, Repr

/-- The returned pointer. -/
def Resolved.addr : Resolved → Off
  | .dlsym addr => addr
  | .table _ sym => sym.addr
  | .missing => 0

/-- The body of the third loop; `best` and `best_name` are the fields of one symbol. -/
def fuzzyStep (methodName : List Byte) (best sym : SymbolEntry) : SymbolEntry :=
  if (find methodName sym.name 0).isSome then
    if (find (ascii "_ZN3art") sym.name 0).isSome then
      if best.addr = 0 ∨ sym.name.length < best.name.length then sym else best
    else best
  else best

/-- The third loop. -/
def fuzzyBest (methodName : List Byte) (symbols : List SymbolEntry) : SymbolEntry :=
  symbols.foldl (fuzzyStep methodName) ⟨[], 0⟩

/-- `ArtSymbolResolver`; none when `ExtractMethodName` overflows. -/
def artSymbolResolver (dlsym : List Byte → Off) (symbols : List SymbolEntry)
    (symbolName : List Byte) :
    Option Resolved :=
  if dlsym symbolName ≠ 0 then some (.dlsym (dlsym symbolName))
  else
    match symbols.find? (·.name = symbolName) with
    | some sym => some (.table .exact sym)
    | none =>
      match symbols.find? (·.name.take symbolName.length = symbolName) with
      | some sym => some (.table .starts sym)
      | none => do
        let methodName ← extractMethodName symbolName
        if methodName = [] then return .missing
        else
          let best := fuzzyBest methodName symbols
          return if best.addr = 0 then .missing else .table .fuzzy best

/-! ## What is asked of the result -/

/-- What the components of a mangled name are.  The functions are arbitrary on names that are more
than a nested name of identifiers. -/
structure Demangler where
  /-- The last name component. -/
  lastName : List Byte → Option (List Byte)
  /-- The name is in the namespace `art`. -/
  inArt : List Byte → Bool
  lastName_mangled : ∀ (m : NestedName) (suffix : List Byte),
    lastName (m.mangled ++ suffix) = some m.last.text
  inArt_mangled : ∀ (m : NestedName) (suffix : List Byte),
    inArt (m.mangled ++ suffix) = decide (m.names.head?.map Ident.text = some (ascii "art"))

/-- The one that knows nothing but nested names of identifiers. -/
def nestedDemangler : Demangler where
  lastName s := (components s).bind List.getLast?
  inArt s := (components s).bind List.head? = some (ascii "art")
  lastName_mangled m suffix := by
    rw [components_mangled, Option.bind_some, List.getLast?_map, NestedName.last,
      List.getLast?_eq_some_getLast m.ne_nil]
    rfl
  inArt_mangled m suffix := by
    rw [components_mangled, Option.bind_some, List.head?_map]

/-- The name is the query, or the query with a suffix of the compiler. -/
def Suffixed (query name : List Byte) : Prop := name = query ∨ ∃ s, name = query ++ 0x2E :: s

/-- The name is in the namespace `art` and has the last component of the query. -/
def SameMethod (d : Demangler) (query name : List Byte) : Prop :=
  d.inArt name ∧ ∃ n, d.lastName name = some n ∧ d.lastName query = some n

/-- The symbols that a search may return. -/
def Answers (d : Demangler) (query : List Byte) : Stage → SymbolEntry → Prop
  | .fuzzy, sym => Suffixed query sym.name ∨ SameMethod d query sym.name
  | _, sym => Suffixed query sym.name

/-- A symbol of the list is returned only if it answers the query, and one with the name of the
query is preferred to all others. -/
structure Right (d : Demangler) (dlsym : List Byte → Off) (symbols : List SymbolEntry)
    (query : List Byte) :
    Prop where
  answers : ∀ stage sym, artSymbolResolver dlsym symbols query = some (.table stage sym) →
    Answers d query stage sym
  exact : (∃ sym ∈ symbols, sym.name = query) → ∃ sym ∈ symbols, sym.name = query ∧
    artSymbolResolver dlsym symbols query = some (.table .exact sym)

/-! ## The searches -/

section Searches

variable {d : Demangler} {dlsym : List Byte → Off} {symbols : List SymbolEntry} {query : List Byte}

theorem take_eq_iff {name : List Byte} : name.take query.length = query ↔ query <+: name := by
  rw [List.prefix_iff_eq_take, eq_comm]

/-- A symbol with the name of the query. -/
theorem resolver_of_exact (hdl : dlsym query = 0) (h : ∃ sym ∈ symbols, sym.name = query) :
    ∃ sym ∈ symbols, sym.name = query ∧
      artSymbolResolver dlsym symbols query = some (.table .exact sym) := by
  cases hfind : symbols.find? (·.name = query) with
  | none =>
    obtain ⟨sym, hsym, hname⟩ := h
    exact absurd hname (by simpa using List.find?_eq_none.mp hfind sym hsym)
  | some sym =>
    refine ⟨sym, List.mem_of_find?_eq_some hfind, by simpa using List.find?_some hfind, ?_⟩
    rw [artSymbolResolver, if_neg (not_not.mpr hdl), hfind]

/-- No symbol with the name of the query, but one that starts with it. -/
theorem resolver_of_starts (hdl : dlsym query = 0) (hexact : ∀ sym ∈ symbols, sym.name ≠ query)
    {sym : SymbolEntry} (hfind : symbols.find? (query <+: ·.name) = some sym) :
    artSymbolResolver dlsym symbols query = some (.table .starts sym) := by
  have hnone : symbols.find? (·.name = query) = none :=
    List.find?_eq_none.mpr (by simpa using hexact)
  simp only [artSymbolResolver, if_neg (not_not.mpr hdl), hnone, take_eq_iff, hfind]

/-- No symbol that starts with the query. -/
theorem resolver_of_fuzzy (hdl : dlsym query = 0) (hstarts : ∀ sym ∈ symbols, ¬query <+: sym.name) :
    artSymbolResolver dlsym symbols query = (extractMethodName query).map fun methodName =>
      if methodName = [] ∨ (fuzzyBest methodName symbols).addr = 0 then .missing
      else .table .fuzzy (fuzzyBest methodName symbols) := by
  have hexact : symbols.find? (·.name = query) = none := by
    refine List.find?_eq_none.mpr fun sym hsym => ?_
    simpa using fun hname : sym.name = query => hstarts sym hsym (hname ▸ List.prefix_rfl)
  have hnone : symbols.find? (query <+: ·.name) = none :=
    List.find?_eq_none.mpr (by simpa using hstarts)
  simp only [artSymbolResolver, if_neg (not_not.mpr hdl), hexact, take_eq_iff, hnone]
  cases extractMethodName query with
  | none => rfl
  | some methodName =>
    simp only [Option.bind_eq_bind, Option.bind_some, Option.map_some, Option.pure_def]
    split_ifs <;> simp_all

end Searches

/-! ## The third search -/

section Fuzzy

variable {methodName : List Byte} {symbols : List SymbolEntry}

/-- The third search looks at this symbol. -/
def Candidate (methodName : List Byte) (sym : SymbolEntry) : Prop :=
  methodName <:+: sym.name ∧ ascii "_ZN3art" <:+: sym.name

theorem fuzzyStep_of_candidate {best sym : SymbolEntry} (h : Candidate methodName sym) :
    fuzzyStep methodName best sym =
      if best.addr = 0 ∨ sym.name.length < best.name.length then sym else best := by
  rw [fuzzyStep, if_pos (find_isSome_iff.mpr h.1), if_pos (find_isSome_iff.mpr h.2)]

theorem fuzzyStep_of_not_candidate {best sym : SymbolEntry} (h : ¬Candidate methodName sym) :
    fuzzyStep methodName best sym = best := by
  rw [fuzzyStep]
  split_ifs with hname hart
  · exact absurd ⟨find_isSome_iff.mp hname, find_isSome_iff.mp hart⟩ h
  · exact absurd ⟨find_isSome_iff.mp hname, find_isSome_iff.mp hart⟩ h
  · rfl
  · rfl

theorem fuzzyBest_append (a b : List SymbolEntry) : fuzzyBest methodName (a ++ b) =
    b.foldl (fuzzyStep methodName) (fuzzyBest methodName a) := List.foldl_append

/-- A loop that has found nothing yet holds nothing behind some symbols, or a candidate among
them. -/
theorem foldl_fuzzyStep {start : SymbolEntry} (h : start.addr = 0) (symbols : List SymbolEntry) :
    (symbols.foldl (fuzzyStep methodName) start).addr = 0 ∨
      symbols.foldl (fuzzyStep methodName) start ∈ symbols ∧
        Candidate methodName (symbols.foldl (fuzzyStep methodName) start) := by
  induction symbols using List.reverseRecOn with
  | nil => exact .inl h
  | append_singleton symbols sym ih =>
    have hkeep := ih.imp_right (And.imp_left (List.mem_append_left [sym]))
    rw [List.foldl_append, List.foldl_cons, List.foldl_nil]
    by_cases hc : Candidate methodName sym
    · rw [fuzzyStep_of_candidate hc]
      split_ifs with hshort
      · exact .inr ⟨by simp, hc⟩
      · exact hkeep
    · rw [fuzzyStep_of_not_candidate hc]
      exact hkeep

/-- Such a loop takes a candidate that is shorter than those before it. -/
theorem foldl_fuzzyStep_concat {start : SymbolEntry} (h : start.addr = 0)
    {symbols : List SymbolEntry} {sym : SymbolEntry} (hc : Candidate methodName sym)
    (hlt : ∀ u ∈ symbols, Candidate methodName u → sym.name.length < u.name.length) :
    (symbols ++ [sym]).foldl (fuzzyStep methodName) start = sym := by
  rw [List.foldl_append, List.foldl_cons, List.foldl_nil, fuzzyStep_of_candidate hc, if_pos]
  exact (foldl_fuzzyStep h symbols).imp_right fun hmem => hlt _ hmem.1 hmem.2

/-- A symbol with an address stays if no candidate behind it is shorter. -/
theorem foldl_fuzzyStep_of_le {best : SymbolEntry} (h : best.addr ≠ 0) {symbols : List SymbolEntry}
    (hle : ∀ u ∈ symbols, Candidate methodName u → best.name.length ≤ u.name.length) :
    symbols.foldl (fuzzyStep methodName) best = best := by
  induction symbols with
  | nil => rfl
  | cons sym symbols ih =>
    have hstep : fuzzyStep methodName best sym = best := by
      by_cases hc : Candidate methodName sym
      · have hnot := Nat.not_lt.mpr (hle sym List.mem_cons_self hc)
        rw [fuzzyStep_of_candidate hc, if_neg (not_or.mpr ⟨h, hnot⟩)]
      · exact fuzzyStep_of_not_candidate hc
    rw [List.foldl_cons, hstep]
    exact ih fun u hu => hle u (List.mem_cons_of_mem _ hu)

/-- The first of the shortest candidates. -/
def FirstShortest (methodName : List Byte) (symbols : List SymbolEntry) (best : SymbolEntry) :
    Prop :=
  ∃ pre post, symbols = pre ++ best :: post ∧ Candidate methodName best ∧
    (∀ sym ∈ pre, Candidate methodName sym → best.name.length < sym.name.length) ∧
    ∀ sym ∈ post, Candidate methodName sym → best.name.length ≤ sym.name.length

theorem FirstShortest.mem {best : SymbolEntry} (h : FirstShortest methodName symbols best) :
    best ∈ symbols := by
  obtain ⟨pre, post, rfl, -⟩ := h
  exact List.mem_append_right _ List.mem_cons_self

theorem FirstShortest.le {best sym : SymbolEntry} (h : FirstShortest methodName symbols best)
    (hsym : sym ∈ symbols) (hc : Candidate methodName sym) :
    best.name.length ≤ sym.name.length := by
  obtain ⟨pre, post, rfl, -, hpre, hpost⟩ := h
  rcases List.mem_append.mp hsym with hmem | hmem
  · exact (hpre sym hmem hc).le
  · rcases List.mem_cons.mp hmem with rfl | hmem
    · exact le_rfl
    · exact hpost sym hmem hc

theorem FirstShortest.concat {best sym : SymbolEntry} (h : FirstShortest methodName symbols best)
    (hle : Candidate methodName sym → best.name.length ≤ sym.name.length) :
    FirstShortest methodName (symbols ++ [sym]) best := by
  obtain ⟨pre, post, rfl, hbest, hpre, hpost⟩ := h
  refine ⟨pre, post ++ [sym], by simp, hbest, hpre, ?_⟩
  intro u hu hc
  rcases List.mem_append.mp hu with hu | hu
  · exact hpost u hu hc
  · obtain rfl := List.mem_singleton.mp hu
    exact hle hc

/-- The search starts anew behind these symbols: they end with a candidate whose address is 0 and
that is shorter than all candidates since the search last started. -/
inductive Restarts (methodName : List Byte) : List SymbolEntry → Prop
  | start : Restarts methodName []
  | null {a b : List SymbolEntry} {sym : SymbolEntry} (ha : Restarts methodName a)
      (hc : Candidate methodName sym) (haddr : sym.addr = 0)
      (hlt : ∀ u ∈ b, Candidate methodName u → sym.name.length < u.name.length) :
      Restarts methodName (a ++ (b ++ [sym]))

/-- **What the third search finds**: the first of the shortest candidates, among those behind the
last start of the search. -/
def Found (methodName : List Byte) (symbols : List SymbolEntry) (best : SymbolEntry) : Prop :=
  best.addr ≠ 0 ∧ ∃ a c, symbols = a ++ c ∧ Restarts methodName a ∧ FirstShortest methodName c best

theorem Found.mem {best : SymbolEntry} (h : Found methodName symbols best) : best ∈ symbols := by
  obtain ⟨-, a, c, rfl, -, hfirst⟩ := h
  exact List.mem_append_right _ hfirst.mem

/-- Without symbols at the address 0 the search starts once. -/
theorem found_iff_firstShortest (h : ∀ sym ∈ symbols, sym.addr ≠ 0) {best : SymbolEntry} :
    Found methodName symbols best ↔ FirstShortest methodName symbols best := by
  constructor
  · rintro ⟨-, a, c, rfl, ha, hfirst⟩
    cases ha with
    | start => exact hfirst
    | null _ _ haddr _ => exact absurd haddr (h _ (by simp))
  · intro hfirst
    exact ⟨h best hfirst.mem, [], symbols, rfl, .start, hfirst⟩

theorem addr_fuzzyBest_of_restarts {a : List SymbolEntry} (h : Restarts methodName a) :
    (fuzzyBest methodName a).addr = 0 := by
  induction h with
  | start => rfl
  | @null a b sym _ hc haddr hlt ih =>
    rw [fuzzyBest_append, foldl_fuzzyStep_concat ih hc hlt]
    exact haddr

theorem fuzzyBest_of_found {best : SymbolEntry} (h : Found methodName symbols best) :
    fuzzyBest methodName symbols = best := by
  obtain ⟨haddr, a, c, rfl, ha, pre, post, rfl, hc, hpre, hpost⟩ := h
  have hpick := foldl_fuzzyStep_concat (addr_fuzzyBest_of_restarts ha) hc hpre
  have hsplit : a ++ (pre ++ best :: post) = a ++ ((pre ++ [best]) ++ post) := by simp
  rw [hsplit, fuzzyBest_append, List.foldl_append, hpick, foldl_fuzzyStep_of_le haddr hpost]

/-- Behind any symbols the loop has started anew and seen no candidate since, or it holds what is
found. -/
theorem restarts_or_found (symbols : List SymbolEntry) :
    ((fuzzyBest methodName symbols).addr = 0 ∧ ∃ a b, symbols = a ++ b ∧ Restarts methodName a ∧
      ∀ u ∈ b, ¬Candidate methodName u) ∨
    Found methodName symbols (fuzzyBest methodName symbols) := by
  induction symbols using List.reverseRecOn with
  | nil => exact .inl ⟨rfl, [], [], rfl, .start, by simp⟩
  | append_singleton symbols sym ih =>
    rw [fuzzyBest_append, List.foldl_cons, List.foldl_nil]
    by_cases hc : Candidate methodName sym
    · -- the symbol is taken behind a part `b` of the list in which it is shorter than all
      -- candidates
      have htake : ∀ a b, symbols = a ++ b → Restarts methodName a →
          (∀ u ∈ b, Candidate methodName u → sym.name.length < u.name.length) →
          (sym.addr = 0 ∧ ∃ a b, symbols ++ [sym] = a ++ b ∧ Restarts methodName a ∧
            ∀ u ∈ b, ¬Candidate methodName u) ∨ Found methodName (symbols ++ [sym]) sym := by
        rintro a b rfl ha hlt
        by_cases haddr : sym.addr = 0
        · exact .inl ⟨haddr, a ++ (b ++ [sym]), [], by simp, .null ha hc haddr hlt, by simp⟩
        · exact .inr ⟨haddr, a, b ++ [sym], by simp, ha, b, [], rfl, hc, hlt, by simp⟩
      rw [fuzzyStep_of_candidate hc]
      rcases ih with ⟨haddr, a, b, hab, ha, hb⟩ | ⟨haddr, a, c, hac, ha, hfirst⟩
      · rw [if_pos (.inl haddr)]
        exact htake a b hab ha fun u hu hcu => absurd hcu (hb u hu)
      · split_ifs with hshort
        · have hlt := hshort.resolve_left haddr
          exact htake a c hac ha fun u hu hcu => hlt.trans_le (hfirst.le hu hcu)
        · have hle := Nat.not_lt.mp (not_or.mp hshort).2
          exact .inr ⟨haddr, a, c ++ [sym], by simp [hac], ha, hfirst.concat fun _ => hle⟩
    · rw [fuzzyStep_of_not_candidate hc]
      rcases ih with ⟨haddr, a, b, hab, ha, hb⟩ | ⟨haddr, a, c, hac, ha, hfirst⟩
      · refine .inl ⟨haddr, a, b ++ [sym], by simp [hab], ha, fun u hu => ?_⟩
        rcases List.mem_append.mp hu with hu | hu
        · exact hb u hu
        · rwa [List.mem_singleton.mp hu]
      · exact .inr ⟨haddr, a, c ++ [sym], by simp [hac], ha, hfirst.concat fun h => absurd h hc⟩

/-- **The third search finds** the symbol that its loop ends with, if that has an address. -/
theorem found_iff {best : SymbolEntry} : Found methodName symbols best ↔
    fuzzyBest methodName symbols = best ∧ best.addr ≠ 0 := by
  constructor
  · intro h
    exact ⟨fuzzyBest_of_found h, h.1⟩
  · rintro ⟨rfl, haddr⟩
    exact (restarts_or_found symbols).resolve_left fun h => haddr h.1

end Fuzzy

/-! ## Which symbol is returned -/

section Right

variable (d : Demangler) {dlsym : List Byte → Off} (symbols : List SymbolEntry) {query : List Byte}

theorem not_suffixed_of_not_starts {name : List Byte} (h : ¬query <+: name) :
    ¬Suffixed query name := by
  rintro (rfl | ⟨s, rfl⟩)
  · exact h List.prefix_rfl
  · exact h (List.prefix_append _ _)

/-- A symbol with the name of the query is returned if there is one. -/
theorem right_of_exact (hdl : dlsym query = 0) (hexact : ∃ sym ∈ symbols, sym.name = query) :
    Right d dlsym symbols query := by
  refine ⟨fun stage sym hsym => ?_, resolver_of_exact hdl⟩
  obtain ⟨sym', -, hname, hres⟩ := resolver_of_exact hdl hexact
  obtain ⟨rfl, rfl⟩ : stage = .exact ∧ sym = sym' := by simpa using hsym.symm.trans hres
  exact .inl hname

/-- Without one, it matters only whether what is returned answers the query. -/
theorem right_iff_answers (hne : ∀ sym ∈ symbols, sym.name ≠ query) :
    Right d dlsym symbols query ↔ ∀ stage sym,
      artSymbolResolver dlsym symbols query = some (.table stage sym) →
        Answers d query stage sym := by
  refine ⟨fun h => h.answers, fun h => ⟨h, ?_⟩⟩
  rintro ⟨sym, hsym, hname⟩
  exact absurd hname (hne sym hsym)

/-- The second search. -/
theorem right_iff_of_starts (hdl : dlsym query = 0) (hne : ∀ sym ∈ symbols, sym.name ≠ query)
    {sym : SymbolEntry} (hfind : symbols.find? (query <+: ·.name) = some sym) :
    Right d dlsym symbols query ↔ ∃ s, sym.name = query ++ 0x2E :: s := by
  rw [right_iff_answers d symbols hne, resolver_of_starts hdl hne hfind]
  constructor
  · intro h
    obtain hname | ⟨s, hs⟩ := h .starts sym rfl
    · exact absurd hname (hne sym (List.mem_of_find?_eq_some hfind))
    · exact ⟨s, hs⟩
  · rintro ⟨s, hs⟩ stage t ht
    obtain ⟨rfl, rfl⟩ : Stage.starts = stage ∧ sym = t := by simpa using ht
    exact .inr ⟨s, hs⟩

/-- The third search. -/
theorem right_iff_of_fuzzy (hdl : dlsym query = 0)
    (hstarts : ∀ sym ∈ symbols, ¬query <+: sym.name) :
    Right d dlsym symbols query ↔
      ∀ methodName best, MethodName query methodName → methodName ≠ [] →
        Found methodName symbols best → SameMethod d query best.name := by
  have hne : ∀ sym ∈ symbols, sym.name ≠ query := fun sym hsym hname =>
    hstarts sym hsym (hname ▸ List.prefix_rfl)
  rw [right_iff_answers d symbols hne, resolver_of_fuzzy hdl hstarts]
  constructor
  · intro h methodName best hmethod hnil hbest
    obtain ⟨rfl, haddr⟩ := found_iff.mp hbest
    have hres := h .fuzzy (fuzzyBest methodName symbols) (by
      rw [(extractMethodName_eq_some_iff hnil).mpr hmethod, Option.map_some,
        if_neg (not_or.mpr ⟨hnil, haddr⟩)])
    exact hres.resolve_left (not_suffixed_of_not_starts (hstarts _ hbest.mem))
  · intro h stage sym hsym
    obtain ⟨methodName, hmethod, hsym⟩ := Option.map_eq_some_iff.mp hsym
    split_ifs at hsym with hmissing
    obtain ⟨rfl, rfl⟩ : Stage.fuzzy = stage ∧ fuzzyBest methodName symbols = sym := by
      simpa using hsym
    rw [not_or] at hmissing
    exact .inr (h methodName _ ((extractMethodName_eq_some_iff hmissing.1).mp hmethod) hmissing.1
      (found_iff.mpr ⟨rfl, hmissing.2⟩))

/-- **When a symbol for the query is returned.**  There is a symbol with its name; or the first one
that starts with it goes on with a dot; or none starts with it, and the first of the shortest
symbols with `_ZN3art` and the method name in their names has the last component of the query. -/
theorem right_iff (hdl : dlsym query = 0) :
    Right d dlsym symbols query ↔
      (∃ sym ∈ symbols, sym.name = query) ∨
      (∃ sym s, symbols.find? (query <+: ·.name) = some sym ∧ sym.name = query ++ 0x2E :: s) ∨
      ((∀ sym ∈ symbols, ¬query <+: sym.name) ∧
        ∀ methodName best, MethodName query methodName → methodName ≠ [] →
          Found methodName symbols best → SameMethod d query best.name) := by
  by_cases hexact : ∃ sym ∈ symbols, sym.name = query
  · exact iff_of_true (right_of_exact d symbols hdl hexact) (.inl hexact)
  rw [or_iff_right hexact]
  have hne : ∀ sym ∈ symbols, sym.name ≠ query := fun sym hsym hname => hexact ⟨sym, hsym, hname⟩
  cases hfind : symbols.find? (query <+: ·.name) with
  | some sym =>
    have hstarts : query <+: sym.name := by simpa using List.find?_some hfind
    rw [right_iff_of_starts d symbols hdl hne hfind]
    constructor
    · rintro ⟨s, hs⟩
      exact .inl ⟨sym, s, rfl, hs⟩
    · rintro (⟨sym', s, hsym, hs⟩ | ⟨hnone, -⟩)
      · obtain rfl := Option.some.inj hsym
        exact ⟨s, hs⟩
      · exact absurd hstarts (hnone sym (List.mem_of_find?_eq_some hfind))
  | none =>
    have hstarts : ∀ sym ∈ symbols, ¬query <+: sym.name := by
      simpa using List.find?_eq_none.mp hfind
    have hnot : ¬∃ sym s, (none : Option SymbolEntry) = some sym ∧
        sym.name = query ++ 0x2E :: s := by simp
    rw [or_iff_right hnot, and_iff_right hstarts, right_iff_of_fuzzy d symbols hdl hstarts]

end Right

/-! ### Two wrong answers -/

/-- `art::Thread::Init`. -/
def threadInit : NestedName where
  names := [.ofText (ascii "art") isIdent_art, .ofText (ascii "Thread") isIdent_thread,
    .ofText (ascii "Init") (by decide +kernel)]
  ne_nil := by simp

/-- `art::Thread::InitTls`. -/
def threadInitTls : NestedName where
  names := [.ofText (ascii "art") isIdent_art, .ofText (ascii "Thread") isIdent_thread,
    .ofText (ascii "InitTls") (by decide +kernel)]
  ne_nil := by simp

/-- The symbols `art::Thread::Init(int, char*)` and `art::Thread::InitTls()`. -/
def threadSymbols : List SymbolEntry :=
  [⟨threadInit.mangled ++ ascii "iPc", 0x1000⟩, ⟨threadInitTls.mangled ++ ascii "v", 0x2000⟩]

/-- The symbols `art::Thread::InitTls()` and `art::Thread::Init(char*)`. -/
def initSymbols : List SymbolEntry :=
  [⟨threadInitTls.mangled ++ ascii "v", 0x2000⟩, ⟨threadInit.mangled ++ ascii "Pc", 0x1000⟩]

/-- The query `Init()` is answered by the third search, with `Init(char*)`. -/
theorem right_threadInit :
    Right nestedDemangler (fun _ => 0) initSymbols (threadInit.mangled ++ ascii "v") := by
  refine (right_iff nestedDemangler initSymbols rfl).mpr (.inr (.inr ⟨by decide +kernel, ?_⟩))
  intro methodName best hmethod hnil hbest
  have hextract : extractMethodName (threadInit.mangled ++ ascii "v") = some (ascii "Init") := by
    decide +kernel
  obtain rfl : methodName = ascii "Init" := by
    simpa [hextract] using ((extractMethodName_eq_some_iff hnil).mpr hmethod).symm
  have hshort := (found_iff_firstShortest (by decide)).mp hbest
  have hmem : best = ⟨threadInitTls.mangled ++ ascii "v", 0x2000⟩ ∨
      best = ⟨threadInit.mangled ++ ascii "Pc", 0x1000⟩ := by
    simpa [initSymbols] using hshort.mem
  rcases hmem with rfl | rfl
  · -- `InitTls` is longer
    have hle : _ ≤ (threadInit.mangled ++ ascii "Pc").length :=
      hshort.le (List.mem_cons_of_mem _ List.mem_cons_self)
        ⟨find_isSome_iff.mp (by decide +kernel), find_isSome_iff.mp (by decide +kernel)⟩
    exact absurd hle (by decide +kernel)
  · refine ⟨?_, threadInit.last.text, nestedDemangler.lastName_mangled _ _,
      nestedDemangler.lastName_mangled _ _⟩
    rw [nestedDemangler.inArt_mangled]
    decide

/-- The query `Init(int)` is answered with `Init(int, char*)`, and in a list without that, `Init()`
with `InitTls()`, which no demangler makes right. -/
theorem threadInit_not_right :
    (¬∃ d, Right d (fun _ => 0) threadSymbols (threadInit.mangled ++ ascii "i")) ∧
      ¬∃ d, Right d (fun _ => 0) threadSymbols.tail (threadInit.mangled ++ ascii "v") := by
  constructor
  · rintro ⟨d, h⟩
    have hres : artSymbolResolver (fun _ => 0) threadSymbols (threadInit.mangled ++ ascii "i") =
        some (.table .starts ⟨threadInit.mangled ++ ascii "iPc", 0x1000⟩) := by decide +kernel
    obtain hname | ⟨s, hs⟩ := h.answers _ _ hres
    · exact absurd (List.append_cancel_left hname) (by decide)
    · rw [List.append_assoc] at hs
      have htail : ascii "Pc" = 0x2E :: s := (List.cons.inj (List.append_cancel_left hs)).2
      exact absurd (List.cons.inj htail).1 (by decide)
  · rintro ⟨d, h⟩
    have hres : artSymbolResolver (fun _ => 0) threadSymbols.tail
        (threadInit.mangled ++ ascii "v") =
        some (.table .fuzzy ⟨threadInitTls.mangled ++ ascii "v", 0x2000⟩) := by decide +kernel
    have hstarts : ¬threadInit.mangled ++ ascii "v" <+: threadInitTls.mangled ++ ascii "v" := by
      decide +kernel
    obtain ⟨-, n, htls, hinit⟩ :=
      (h.answers _ _ hres).resolve_left (not_suffixed_of_not_starts hstarts)
    rw [d.lastName_mangled, Option.some.injEq] at htls hinit
    exact absurd (hinit.trans htls.symm) (by decide)

end ElfSymbolResolver
end CalvinHook
