import CalvinHook.HookSdk.DynsymCount
import CalvinHook.HookSdk.SymbolTables

/-!
# `elf_symbol_resolver.cpp`: the symbols of the dynamic section

`ParseDynsymFromDynamic` knows the place of the symbols from the tags of the dynamic section, and
their number from a hash table.  `DT_HASH` has the number, and with it the symbols are those of the
table.  From a GNU hash table the number is computed as `DynsymCount` says, and the loop goes over
as many entries as that, which may be too few, or more than there are.

* `Dynamic`: the dynamic section of a well-formed file.
* `dynamicSymbols`: the symbols of its table.
* `Dynamic.Gives`: what the parser yields, by the tags and by the words of the hash tables.
* `Dynamic.parse_eq_iff`: it yields that.
* `Dynamic.gives_of_countsRight`: the symbols of the table, if their number is right.
-/

namespace CalvinHook

open Elf

namespace ElfSymbolResolver

/-! ## The dynamic section -/

/-- The dynamic symbol table with `n` entries, if the dynamic section has it and a hash table. -/
def dynamicTable (phs : List Phdr) (es : List Dyn) (n : ℕ) : Option SymTable := do
  let symtab ← tagValue es dtSymtab
  let strtab ← tagValue es dtStrtab
  let _ ← (tagValue es dtHash).or (tagValue es dtGnuHash)
  return ⟨← fileOffset phs symtab, ← fileOffset phs strtab, n⟩

/-- The program headers and the dynamic section of a well-formed file. -/
structure Dynamic (img : Image) where
  phs : List Phdr
  /-- The entries; there are none without a dynamic section. -/
  es : List Dyn
  /-- The number of entries of the dynamic symbol table. -/
  n : ℕ
  /-- What the GNU hash table is made from, if there is one. -/
  gnu : Option GnuHash
  length_lt : img.bytes.length < 2 ^ 63
  phdrs_eq : img.phdrs = some phs
  noWrap : NoWrap phs
  entries : match phs.find? (·.type = ptDynamic) with
    | none => es = []
    | some p => img.dynEntries img.bytes.length p.offset = some es
  tags_unique : ∀ e ∈ es, ∀ e' ∈ es, e.tag = e'.tag →
    e.tag ∈ [dtSymtab, dtStrtab, dtHash, dtGnuHash] → e.un = e'.un
  /-- The table has an entry, and the symbols and their names lie in the file. -/
  table : ∀ tab, dynamicTable phs es n = some tab →
    0 < n ∧ n < 2 ^ 32 ∧ tab.strtab.toNat < img.bytes.length ∧ img.HasTable tab
  /-- `DT_HASH` has the number of symbols in its second word. -/
  hash : ∀ addr, tagValue es dtHash = some addr → ∃ off, fileOffset phs addr = some off ∧
    off.toNat < img.bytes.length ∧ wordsFrom img off 1 = some (BitVec.ofNat 32 n)
  /-- The section of `DT_GNU_HASH` is laid out as the format says, for `n` symbols. -/
  gnuHash : ∀ addr, tagValue es dtGnuHash = some addr → ∃ off t, fileOffset phs addr = some off ∧
    gnu = some t ∧ (t.hashes ≠ [] → t.count = n) ∧
      ∀ i < t.words.length, wordsFrom img off i = t.words[i]?

section Dynamic

variable {img : Image} (d : Dynamic img)

/-- The symbols of the dynamic symbol table. -/
def dynamicSymbols (loadBias : Off) : List SymbolEntry :=
  ((dynamicTable d.phs d.es d.n).map (usableSymbols img loadBias)).getD []

namespace Dynamic

/-- The address that a tag gives; the parser takes 0 for a tag that is absent. -/
def addr (tag : Off) : Off := (tagValue d.es tag).getD 0

/-- The dynamic section gives the place of the symbols and of their names. -/
structure Places (sym str : Off) : Prop where
  symtab_ne : d.addr dtSymtab ≠ 0
  strtab_ne : d.addr dtStrtab ≠ 0
  symtab_at : fileOffset d.phs (d.addr dtSymtab) = some sym
  strtab_at : fileOffset d.phs (d.addr dtStrtab) = some str

/-- **What `ParseDynsymFromDynamic` yields**, by the tags and by the words of the hash tables. -/
inductive Gives (loadBias : Off) (symbols : List SymbolEntry) : Prop
  /-- Without a place or a hash table, nothing. -/
  | missing (h : (∀ sym str, ¬d.Places sym str) ∨ d.addr dtHash = 0 ∧ d.addr dtGnuHash = 0)
      (hs : symbols = [])
  /-- With `DT_HASH`, the symbols of the table. -/
  | hash {sym str : Off} (h : d.Places sym str) (hhash : d.addr dtHash ≠ 0)
      (hs : symbols = usableSymbols img loadBias ⟨sym, str, d.n⟩)
  /-- Otherwise those of as many entries as are counted in the words of the GNU hash table. -/
  | gnuHash {sym str off : Off} {c : BitVec 32} (h : d.Places sym str) (hhash : d.addr dtHash = 0)
      (hgnu : d.addr dtGnuHash ≠ 0) (hoff : fileOffset d.phs (d.addr dtGnuHash) = some off)
      (hc : CountedAs (wordsFrom img off) c)
      (hread : ∀ i < c.toNat, EntryReadable img ⟨sym, str, c.toNat⟩ i)
      (hs : symbols = usableSymbols img loadBias ⟨sym, str, c.toNat⟩)

/-- The number of symbols is found: there is `DT_HASH`, or the walk over the misplaced words of the
GNU hash table ends at the last symbol. -/
def CountsRight : Prop :=
  d.addr dtSymtab ≠ 0 ∧ d.addr dtStrtab ≠ 0 ∧
    (d.addr dtHash ≠ 0 ∨ d.addr dtHash = 0 ∧ d.addr dtGnuHash ≠ 0 ∧
      ∃ t, d.gnu = some t ∧ t.hashes ≠ [] ∧ MiscountExact t)

/-! ## The tags -/

variable {d}

theorem tagValue_of_addr_ne {tag : Off} (h : d.addr tag ≠ 0) :
    tagValue d.es tag = some (d.addr tag) := by
  rw [addr] at h ⊢
  cases htag : tagValue d.es tag with
  | none =>
    rw [htag] at h
    exact absurd rfl h
  | some v => rfl

variable (d)

theorem lastValue_eq {tag : Off} (htag : tag ∈ [dtSymtab, dtStrtab, dtHash, dtGnuHash]) :
    lastValue tag d.es 0 = d.addr tag := by
  rw [addr, tagValue]
  cases hfind : d.es.find? (·.tag = tag) with
  | none =>
    refine lastValue_of_forall (fun e he het => ?_) (.inl rfl)
    exact absurd het (by simpa using List.find?_eq_none.mp hfind e he)
  | some e =>
    have hmem := List.mem_of_find?_eq_some hfind
    have hetag : e.tag = tag := by simpa using List.find?_some hfind
    refine lastValue_of_forall (fun e' he' het' => ?_) (.inr ⟨e, hmem, hetag⟩)
    exact d.tags_unique e' he' e hmem (het'.trans hetag.symm) (het' ▸ htag)

/-- The tags that are read. -/
def tags : DynTags := ⟨d.addr dtSymtab, d.addr dtStrtab, d.addr dtHash, d.addr dtGnuHash⟩

theorem dynTags_eq : dynTags img = some none ∧ (∀ tag, d.addr tag = 0) ∨
    dynTags img = some (some d.tags) := by
  have hentries := d.entries
  cases hfind : d.phs.find? (·.type = ptDynamic) with
  | none =>
    rw [hfind] at hentries
    refine .inl ⟨?_, fun tag => by rw [addr, hentries]; rfl⟩
    rw [dynTags, dynPhdr_eq_none d.phdrs_eq hfind]
    rfl
  | some p =>
    rw [hfind] at hentries
    obtain ⟨ph, hph, hp⟩ := exists_dynPhdr d.phdrs_eq hfind
    refine .inr ?_
    simp only [dynTags, hph, (Image.phdr?_eq_some.mp hp).2.1, readTags_eq hentries,
      Option.bind_eq_bind, Option.bind_some, Option.pure_def, tags]
    rw [d.lastValue_eq (by simp), d.lastValue_eq (by simp), d.lastValue_eq (by simp),
      d.lastValue_eq (by simp)]

theorem vaddrToFoff_eq_of_some {addr off : Off} (h : fileOffset d.phs addr = some off) :
    vaddrToFoff img addr = some off := by
  rw [vaddrToFoff_eq d.phdrs_eq d.noWrap, h]
  rfl

/-! ## The table -/

/-- No table is found without a place for it. -/
theorem dynTable_of_not_places (h : ∀ sym str, ¬d.Places sym str) : dynTable img = some none := by
  rcases d.dynTags_eq with ⟨htags, -⟩ | htags
  · rw [dynTable, htags]
    rfl
  · have hfoff := vaddrToFoff_eq d.phdrs_eq d.noWrap
    simp only [dynTable, htags, Option.bind_eq_bind, Option.bind_some, hfoff, tags]
    by_cases hzero : d.addr dtSymtab = 0 ∨ d.addr dtStrtab = 0
    · rw [if_pos hzero]
      rfl
    · rw [if_neg hzero]
      rw [not_or] at hzero
      -- an address that no segment contains has the offset -1
      cases hsym : fileOffset d.phs (d.addr dtSymtab) with
      | none => simp
      | some sym =>
        cases hstr : fileOffset d.phs (d.addr dtStrtab) with
        | none => simp
        | some str => exact absurd ⟨hzero.1, hzero.2, hsym, hstr⟩ (h sym str)

section Places

variable {d} {sym str : Off} (h : d.Places sym str)
include h

theorem Places.unique {sym' str' : Off} (h' : d.Places sym' str') : sym' = sym ∧ str' = str :=
  ⟨Option.some.inj (h'.symtab_at.symm.trans h.symtab_at),
    Option.some.inj (h'.strtab_at.symm.trans h.strtab_at)⟩

theorem Places.dynTags_eq : dynTags img = some (some d.tags) :=
  d.dynTags_eq.resolve_left fun hzero => h.symtab_ne (hzero.2 dtSymtab)

theorem Places.dynamicTable_eq (hgiven : d.addr dtHash ≠ 0 ∨ d.addr dtGnuHash ≠ 0) :
    dynamicTable d.phs d.es d.n = some ⟨sym, str, d.n⟩ := by
  have hsome : ∃ addr, (tagValue d.es dtHash).or (tagValue d.es dtGnuHash) = some addr := by
    rcases hgiven with hhash | hgnu
    · exact ⟨_, by rw [tagValue_of_addr_ne hhash, Option.some_or]⟩
    · rw [tagValue_of_addr_ne hgnu]
      cases tagValue d.es dtHash with
      | none => exact ⟨_, rfl⟩
      | some addr => exact ⟨addr, rfl⟩
  obtain ⟨addr, haddr⟩ := hsome
  simp [dynamicTable, tagValue_of_addr_ne h.symtab_ne, tagValue_of_addr_ne h.strtab_ne, haddr,
    h.symtab_at, h.strtab_at]

/-- Nor is one found without a hash table. -/
theorem Places.dynTable_of_not_given (hhash : d.addr dtHash = 0) (hgnu : d.addr dtGnuHash = 0) :
    dynTable img = some none := by
  simp only [dynTable, h.dynTags_eq, Option.bind_eq_bind, Option.bind_some, tags, symCount, hhash,
    hgnu, d.vaddrToFoff_eq_of_some h.symtab_at, d.vaddrToFoff_eq_of_some h.strtab_at]
  simp

/-- With a hash table, the symbols are found where the tags say. -/
theorem Places.dynTable_eq (hgiven : d.addr dtHash ≠ 0 ∨ d.addr dtGnuHash ≠ 0) :
    sym.toNat < img.bytes.length ∧ dynTable img = (symCount img d.tags).map fun c =>
      if c = 0 then none else some ⟨sym, str, c.toNat⟩ := by
  obtain ⟨hpos, -, hstr, hread⟩ := d.table _ (h.dynamicTable_eq hgiven)
  have hsym : sym.toNat < img.bytes.length := by
    obtain ⟨s, name, hs, -⟩ := hread 0 hpos
    exact syms_lt_of_sym hs
  refine ⟨hsym, ?_⟩
  have hne : ¬(d.tags.symtab = 0 ∨ d.tags.strtab = 0) := not_or.mpr ⟨h.symtab_ne, h.strtab_ne⟩
  have hsymAt : vaddrToFoff img d.tags.symtab = some sym := d.vaddrToFoff_eq_of_some h.symtab_at
  have hstrAt : vaddrToFoff img d.tags.strtab = some str := d.vaddrToFoff_eq_of_some h.strtab_at
  simp only [dynTable, h.dynTags_eq, Option.bind_eq_bind, Option.bind_some, if_neg hne,
    hsymAt, hstrAt, slt_zero_of_lt d.length_lt hsym, slt_zero_of_lt d.length_lt hstr,
    Bool.false_eq_true, or_self, if_false, Option.pure_def]
  cases symCount img d.tags with
  | none => rfl
  | some c =>
    rw [Option.bind_some, Option.map_some]
    split_ifs <;> rfl

end Places

/-- `DT_HASH` has the number of symbols. -/
theorem symCount_of_hash (hhash : d.addr dtHash ≠ 0) :
    symCount img d.tags = some (BitVec.ofNat 32 d.n) := by
  obtain ⟨off, hoff, hlt, hword⟩ := d.hash _ (tagValue_of_addr_ne hhash)
  have hat : vaddrToFoff img d.tags.hash = some off := d.vaddrToFoff_eq_of_some hoff
  have hne : d.tags.hash ≠ 0 := hhash
  simp only [symCount, if_pos hne, hat, Option.bind_eq_bind, Option.bind_some,
    slt_zero_of_lt d.length_lt hlt, Bool.false_eq_true, if_false, hword]

/-- The words of the GNU hash table stand in the file. -/
theorem exists_gnuHash (hgnu : d.addr dtGnuHash ≠ 0) : ∃ off t,
    fileOffset d.phs (d.addr dtGnuHash) = some off ∧ d.gnu = some t ∧
    (t.hashes ≠ [] → t.count = d.n) ∧
      (∀ i < t.words.length, wordsFrom img off i = t.words[i]?) ∧ off.toNat < img.bytes.length := by
  obtain ⟨off, t, hoff, ht, hcount, hwords⟩ := d.gnuHash _ (tagValue_of_addr_ne hgnu)
  refine ⟨off, t, hoff, ht, hcount, hwords, ?_⟩
  have hlen := t.length_words
  have hword := hwords 0 (by omega)
  rw [List.getElem?_eq_getElem (by omega)] at hword
  exact lt_of_wordsFrom_zero hword

theorem symCount_of_gnuHash (hhash : d.addr dtHash = 0) (hgnu : d.addr dtGnuHash ≠ 0) {off : Off}
    (hoff : fileOffset d.phs (d.addr dtGnuHash) = some off) :
    symCount img d.tags = gnuCount (wordsFrom img off) := by
  obtain ⟨off', t, hoff', -, -, -, hlt⟩ := d.exists_gnuHash hgnu
  obtain rfl := Option.some.inj (hoff.symm.trans hoff')
  have hat : vaddrToFoff img d.tags.gnuHash = some off := d.vaddrToFoff_eq_of_some hoff
  have hzero : ¬d.tags.hash ≠ 0 := not_not.mpr hhash
  have hne : d.tags.gnuHash ≠ 0 := hgnu
  simp only [symCount, if_neg hzero, if_pos hne, hat, Option.bind_eq_bind, Option.bind_some,
    slt_zero_of_lt d.length_lt hlt, Bool.false_eq_true, if_false]

/-! ## The symbols -/

theorem returnNonempty_inj {symbols symbols' : List SymbolEntry} :
    returnNonempty symbols = returnNonempty symbols' ↔ symbols = symbols' := by
  rw [returnNonempty, returnNonempty, Option.some.injEq, Prod.mk.injEq]
  exact ⟨And.right, fun h => ⟨by rw [h], h⟩⟩

theorem parse_of_none {img : Image} (loadBias : Off) (h : dynTable img = some none)
    (symbols : List SymbolEntry) :
    parseDynsymFromDynamic img loadBias [] = returnNonempty symbols ↔ symbols = [] := by
  have hnil : (some (false, []) : Parsed) = returnNonempty [] := rfl
  rw [parseDynsymFromDynamic, h]
  simp only [Option.bind_eq_bind, Option.bind_some, Option.pure_def, hnil, returnNonempty_inj]
  exact eq_comm

theorem parse_of_some {img : Image} (loadBias : Off) {tab : SymTable}
    (h : dynTable img = some (some tab)) (hwrap : tab.syms.toNat + 24 * tab.count < 2 ^ 64)
    (symbols : List SymbolEntry) :
    parseDynsymFromDynamic img loadBias [] = returnNonempty symbols ↔
      (∀ i < tab.count, EntryReadable img tab i) ∧ symbols = usableSymbols img loadBias tab := by
  rw [parseDynsymFromDynamic, h, ← List.nil_append (usableSymbols img loadBias tab),
    ← appendSymbols_eq_some_iff hwrap]
  simp only [Option.bind_eq_bind, Option.bind_some]
  cases appendSymbols img loadBias tab [] with
  | none => exact iff_of_false nofun nofun
  | some result =>
    rw [Option.bind_some, returnNonempty_inj, Option.some.injEq]

variable (loadBias : Off) (symbols : List SymbolEntry)

/-- The parser with a count. -/
theorem Places.parse_eq_iff {d : Dynamic img} {sym str : Off} (h : d.Places sym str)
    (hgiven : d.addr dtHash ≠ 0 ∨ d.addr dtGnuHash ≠ 0) :
    parseDynsymFromDynamic img loadBias [] = returnNonempty symbols ↔
      ∃ c, symCount img d.tags = some c ∧ (∀ i < c.toNat, EntryReadable img ⟨sym, str, c.toNat⟩ i) ∧
        symbols = usableSymbols img loadBias ⟨sym, str, c.toNat⟩ := by
  obtain ⟨hsym, htable⟩ := h.dynTable_eq hgiven
  cases hcount : symCount img d.tags with
  | none =>
    rw [hcount] at htable
    refine iff_of_false ?_ (by simp)
    rw [parseDynsymFromDynamic, htable]
    exact nofun
  | some c =>
    rw [hcount, Option.map_some] at htable
    simp only [Option.some.injEq, exists_eq_left']
    by_cases hzero : c = 0
    · rw [if_pos hzero] at htable
      subst hzero
      rw [parse_of_none loadBias htable]
      exact (and_iff_right fun i hi => absurd hi (Nat.not_lt_zero i)).symm
    · rw [if_neg hzero] at htable
      have hlen := d.length_lt
      have hc := c.isLt
      exact parse_of_some loadBias htable (by dsimp only; omega) symbols

/-! ## What the dynamic section gives -/

theorem gives_iff_of_not_places (h : ∀ sym str, ¬d.Places sym str) :
    d.Gives loadBias symbols ↔ symbols = [] := by
  refine ⟨?_, .missing (.inl h)⟩
  rintro (⟨-, hs⟩ | hplaces | hplaces)
  · exact hs
  · exact absurd hplaces (h _ _)
  · exact absurd hplaces (h _ _)

theorem gives_iff_of_not_given (hhash : d.addr dtHash = 0) (hgnu : d.addr dtGnuHash = 0) :
    d.Gives loadBias symbols ↔ symbols = [] := by
  refine ⟨?_, .missing (.inr ⟨hhash, hgnu⟩)⟩
  rintro (⟨-, hs⟩ | ⟨-, hne⟩ | ⟨-, -, hne⟩)
  · exact hs
  · exact absurd hhash hne
  · exact absurd hgnu hne

theorem Places.gives_iff_of_hash {d : Dynamic img} {sym str : Off} (h : d.Places sym str)
    (hhash : d.addr dtHash ≠ 0) :
    d.Gives loadBias symbols ↔ symbols = usableSymbols img loadBias ⟨sym, str, d.n⟩ := by
  refine ⟨?_, .hash h hhash⟩
  rintro (⟨hmissing, -⟩ | ⟨h', -, hs⟩ | ⟨-, hzero⟩)
  · rcases hmissing with hnot | ⟨hzero, -⟩
    · exact absurd h (hnot sym str)
    · exact absurd hzero hhash
  · obtain ⟨rfl, rfl⟩ := h.unique h'
    exact hs
  · exact absurd hzero hhash

theorem Places.gives_iff_of_gnuHash {d : Dynamic img} {sym str off : Off} (h : d.Places sym str)
    (hhash : d.addr dtHash = 0) (hgnu : d.addr dtGnuHash ≠ 0)
    (hoff : fileOffset d.phs (d.addr dtGnuHash) = some off) :
    d.Gives loadBias symbols ↔ ∃ c, CountedAs (wordsFrom img off) c ∧
      (∀ i < c.toNat, EntryReadable img ⟨sym, str, c.toNat⟩ i) ∧
        symbols = usableSymbols img loadBias ⟨sym, str, c.toNat⟩ := by
  constructor
  · rintro (⟨hmissing, -⟩ | ⟨-, hne⟩ | @⟨sym', str', off', c, h', -, -, hoff', hc, hread, hs⟩)
    · rcases hmissing with hnot | ⟨-, hzero⟩
      · exact absurd h (hnot sym str)
      · exact absurd hzero hgnu
    · exact absurd hhash hne
    · obtain ⟨rfl, rfl⟩ := h.unique h'
      obtain rfl := Option.some.inj (hoff.symm.trans hoff')
      exact ⟨c, hc, hread, hs⟩
  · rintro ⟨c, hc, hread, hs⟩
    exact .gnuHash h hhash hgnu hoff hc hread hs

/-- **The fourth method** yields what the tags and the words of the hash tables give. -/
theorem parse_eq_iff :
    parseDynsymFromDynamic img loadBias [] = returnNonempty symbols ↔ d.Gives loadBias symbols := by
  by_cases hplaces : ∃ sym str, d.Places sym str
  swap
  · have hnot : ∀ sym str, ¬d.Places sym str := fun sym str h => hplaces ⟨sym, str, h⟩
    rw [parse_of_none loadBias (d.dynTable_of_not_places hnot),
      d.gives_iff_of_not_places loadBias symbols hnot]
  obtain ⟨sym, str, h⟩ := hplaces
  by_cases hhash : d.addr dtHash = 0
  · by_cases hgnu : d.addr dtGnuHash = 0
    · rw [parse_of_none loadBias (h.dynTable_of_not_given hhash hgnu),
        d.gives_iff_of_not_given loadBias symbols hhash hgnu]
    · obtain ⟨off, t, hoff, -⟩ := d.exists_gnuHash hgnu
      rw [h.parse_eq_iff loadBias symbols (.inr hgnu), d.symCount_of_gnuHash hhash hgnu hoff,
        h.gives_iff_of_gnuHash loadBias symbols hhash hgnu hoff]
      simp only [gnuCount_eq_some]
  · obtain ⟨-, hlt, -, htable⟩ := d.table _ (h.dynamicTable_eq (.inl hhash))
    have hn : (BitVec.ofNat 32 d.n).toNat = d.n := by
      rw [BitVec.toNat_ofNat, Nat.mod_eq_of_lt hlt]
    have hread : ∀ i < d.n, EntryReadable img ⟨sym, str, d.n⟩ i := fun i hi =>
      entryReadable_of_hasTable htable hi
    rw [h.parse_eq_iff loadBias symbols (.inl hhash), d.symCount_of_hash hhash,
      h.gives_iff_of_hash loadBias symbols hhash]
    simp only [Option.some.injEq, exists_eq_left', hn]
    exact and_iff_right hread

/-- **The symbols of the table** are given if their number is found. -/
theorem gives_of_countsRight (h : d.CountsRight) :
    d.Gives loadBias (dynamicSymbols d loadBias) := by
  obtain ⟨hsym, hstr, hcount⟩ := h
  have hgiven : d.addr dtHash ≠ 0 ∨ d.addr dtGnuHash ≠ 0 := hcount.imp_right fun h => h.2.1
  by_cases hplaces : ∃ sym str, d.Places sym str
  · obtain ⟨sym, str, h⟩ := hplaces
    have htable := h.dynamicTable_eq hgiven
    have hsymbols : dynamicSymbols d loadBias = usableSymbols img loadBias ⟨sym, str, d.n⟩ := by
      rw [dynamicSymbols, htable]
      rfl
    rcases hcount with hhash | ⟨hhash, hgnu, t, ht, hhashes, hexact⟩
    · exact .hash h hhash hsymbols
    · obtain ⟨off, t', hoff, ht', hn, hwords, -⟩ := d.exists_gnuHash hgnu
      obtain rfl := Option.some.inj (ht.symm.trans ht')
      have hc : CountedAs (wordsFrom img off) (BitVec.ofNat 32 t.count) := by
        refine ((countedAs_words_iff t).mpr hexact).mono fun i w hw => ?_
        rw [hwords i (List.getElem?_eq_some_iff.mp hw).1]
        exact hw
      have htoNat : (BitVec.ofNat 32 t.count).toNat = d.n := by
        rw [t.toNat_ofNat_count, hn hhashes]
      refine .gnuHash h hhash hgnu hoff hc ?_ (by rw [htoNat]; exact hsymbols)
      rw [htoNat]
      exact fun i hi => entryReadable_of_hasTable (d.table _ htable).2.2.2 hi
  · have hnot : ∀ sym str, ¬d.Places sym str := fun sym str h => hplaces ⟨sym, str, h⟩
    have hnone : dynamicTable d.phs d.es d.n = none := by
      refine Option.eq_none_iff_forall_ne_some.mpr fun tab htab => ?_
      simp only [dynamicTable, tagValue_of_addr_ne hsym, tagValue_of_addr_ne hstr,
        Option.bind_eq_bind, Option.bind_some, Option.bind_eq_some_iff] at htab
      obtain ⟨-, -, sym, hsymAt, str, hstrAt, -⟩ := htab
      exact hnot sym str ⟨hsym, hstr, hsymAt, hstrAt⟩
    refine .missing (.inl hnot) ?_
    rw [dynamicSymbols, hnone]
    rfl

end Dynamic

end Dynamic

end ElfSymbolResolver

end CalvinHook
