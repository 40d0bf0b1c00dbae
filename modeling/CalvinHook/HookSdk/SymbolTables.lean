import CalvinHook.HookSdk.ElfSymbolResolver

/-!
# `elf_symbol_resolver.cpp`: what the symbol tables of a well-formed file yield

The specification of a symbol table is the list of its usable symbols: those with a value, a
section, one of three types and a name.  On a well-formed file the parsers append the usable symbols
of the table that they look for.

* `usableSymbols`: the usable symbols of a table; `appendSymbols_eq`: the loop appends them.
* `EntryReadable`: what the loop reads of an entry; `appendSymbols_eq_some_iff`: the loop on any
  table.
* `sectionSymbols`: those of the first section of a type.
* `parseTypes_cons`, `parseSymtabFromMemory_eq`: the parsers that go by the section headers.
* `SymtabFile.parse_eq`: the two parsers of `.symtab` append the same symbols.
-/

namespace CalvinHook

open Elf

namespace ElfSymbolResolver

/-! ## One table -/

section Table

variable (img : Image) (loadBias : Off)

/-- The entry with index `i`, if it is usable. -/
def usableSymbol (tab : SymTable) (i : ℕ) : Option SymbolEntry := do
  let s ← img.sym? (tab.entry i)
  let name ← img.cstr (tab.strtab + s.name.setWidth 64)
  if s.value ≠ 0 ∧ s.shndx ≠ shnUndef ∧ s.info &&& 0xf ∈ [sttNotype, sttObject, sttFunc] ∧
    name ≠ [] then
    some ⟨name, loadBias + s.value⟩
  else none

/-- The usable symbols of a table. -/
def usableSymbols (tab : SymTable) : List SymbolEntry :=
  (List.range tab.count).filterMap (usableSymbol img loadBias tab)

/-- The usable symbols of the first section of a type. -/
def sectionSymbols (type : BitVec 32) : List SymbolEntry :=
  ((img.symTable? type).map (usableSymbols img loadBias)).getD []

variable {img loadBias} {tab : SymTable}

/-- The first byte of a string. -/
theorem u8_of_cstr {off : Off} {name : List (BitVec 8)} (h : img.cstr off = some name) :
    ∃ b, img.u8 off = some b ∧ (b = 0 ↔ name = []) := by
  rw [Image.cstr] at h
  rw [Image.u8, Image.read]
  cases hbs : img.bytes.drop off.toNat with
  | nil =>
    rw [hbs] at h
    exact absurd h (by simp [untilNul])
  | cons b bs =>
    rw [hbs, untilNul] at h
    refine ⟨b, by simp [leValue], ?_⟩
    split_ifs at h with hb
    · exact iff_of_true hb (Option.some.inj h).symm
    · obtain ⟨s, -, rfl⟩ := Option.map_eq_some_iff.mp h
      exact iff_of_false hb (by simp)

/-- An empty string, by its first byte. -/
theorem cstr_of_u8_eq_zero {off : Off} (h : img.u8 off = some 0) : img.cstr off = some [] := by
  rw [Image.u8, Image.read] at h
  rw [Image.cstr]
  cases hbs : img.bytes.drop off.toNat with
  | nil =>
    rw [hbs] at h
    exact absurd h (by simp [leValue])
  | cons b bs =>
    rw [hbs] at h
    obtain rfl : b = 0 := by simpa [leValue] using h
    exact if_pos rfl

/-- The symbol has a value, a section and one of the three types. -/
def Defined (s : Sym) : Prop :=
  s.value ≠ 0 ∧ s.shndx ≠ shnUndef ∧ s.info &&& 0xf ∈ [sttNotype, sttObject, sttFunc]

/-- An entry can be read, and its name too if the symbol is defined; the names of other symbols are
not looked at. -/
def EntryReadable (img : Image) (tab : SymTable) (i : ℕ) : Prop :=
  ∃ s, img.sym? (tab.entry i) = some s ∧
    (Defined s → ∃ name, img.cstr (tab.strtab + s.name.setWidth 64) = some name)

theorem entryReadable_of_hasTable (h : img.HasTable tab) {i : ℕ} (hi : i < tab.count) :
    EntryReadable img tab i := by
  obtain ⟨s, name, hs, hname⟩ := h i hi
  exact ⟨s, hs, fun _ => ⟨name, hname⟩⟩

/-- The body of the loop keeps exactly the usable symbols. -/
theorem symbolAt_of_readable {i : ℕ} (h : EntryReadable img tab i) :
    symbolAt img loadBias tab i = some (usableSymbol img loadBias tab i).toList := by
  obtain ⟨s, hs, hname⟩ := h
  obtain ⟨hstName, hinfo, hshndx, hvalue⟩ := Image.sym?_eq_some.mp hs
  by_cases hdef : Defined s
  · obtain ⟨name, hname⟩ := hname hdef
    obtain ⟨b, hb, hb0⟩ := u8_of_cstr hname
    simp only [symbolAt, usableSymbol, hs, hname, hstName, hinfo, hshndx, hvalue, hb,
      Option.bind_eq_bind, Option.bind_some, Option.pure_def, hb0]
    split_ifs <;> simp_all
  · -- the name may be missing here, and is not used
    have hnone : usableSymbol img loadBias tab i = none := by
      rw [usableSymbol, hs, Option.bind_eq_bind, Option.bind_some]
      cases img.cstr (tab.strtab + s.name.setWidth 64) with
      | none => rfl
      | some name =>
        rw [Option.bind_eq_bind, Option.bind_some, if_neg]
        exact fun h => hdef ⟨h.1, h.2.1, h.2.2.1⟩
    rw [hnone]
    simp only [Defined, List.mem_cons, List.not_mem_nil, or_false, not_and_or, not_not] at hdef
    simp only [symbolAt, hinfo, hshndx, hvalue, Option.bind_eq_bind, Option.bind_some,
      Option.pure_def]
    split_ifs <;> simp_all

/-- The fields of an entry stand in front of its value. -/
theorem exists_sym_of_stValue {sym value : Off} (hwrap : sym.toNat + 16 < 2 ^ 64)
    (h : img.stValue sym = some value) : ∃ s, img.sym? sym = some s ∧ s.value = value := by
  have hle : (sym + 8).toNat + 8 ≤ img.bytes.length := Image.add_le_of_read_eq_some h (by omega)
  have hfield : ∀ k : ℕ, k ≤ 8 → (sym + BitVec.ofNat 64 k).toNat = sym.toNat + k := by
    intro k hk
    rw [BitVec.toNat_add, BitVec.toNat_ofNat]
    omega
  have h4 : (sym + 4).toNat = sym.toNat + 4 := hfield 4 (by omega)
  have h6 : (sym + 6).toNat = sym.toNat + 6 := hfield 6 (by omega)
  have h8 : (sym + 8).toNat = sym.toNat + 8 := hfield 8 (by omega)
  have hnameIn : sym.toNat + 4 ≤ img.bytes.length := by omega
  have hinfoIn : (sym + 4).toNat + 1 ≤ img.bytes.length := by omega
  have hshndxIn : (sym + 6).toNat + 2 ≤ img.bytes.length := by omega
  obtain ⟨name, hname⟩ := Image.exists_read hnameIn
  obtain ⟨info, hinfo⟩ := Image.exists_read hinfoIn
  obtain ⟨shndx, hshndx⟩ := Image.exists_read hshndxIn
  exact ⟨⟨name, info, shndx, value⟩, Image.sym?_eq_some.mpr ⟨hname, hinfo, hshndx, h⟩, rfl⟩

/-- What the body of the loop reads. -/
theorem readable_of_symbolAt {i : ℕ} (hwrap : (tab.entry i).toNat + 16 < 2 ^ 64)
    {part : List SymbolEntry} (h : symbolAt img loadBias tab i = some part) :
    EntryReadable img tab i := by
  rw [symbolAt] at h
  obtain ⟨value, hvalue, h⟩ := Option.bind_eq_some_iff.mp h
  obtain ⟨s, hs, rfl⟩ := exists_sym_of_stValue hwrap hvalue
  obtain ⟨hstName, hinfo, hshndx, -⟩ := Image.sym?_eq_some.mp hs
  refine ⟨s, hs, fun hdef => ?_⟩
  simp only [Defined, List.mem_cons, List.not_mem_nil, or_false] at hdef
  have htype : ¬(s.info &&& 0xf ≠ sttFunc ∧ s.info &&& 0xf ≠ sttObject ∧
      s.info &&& 0xf ≠ sttNotype) := by
    rintro ⟨h1, h2, h3⟩
    rcases hdef.2.2 with h | h | h
    · exact h3 h
    · exact h2 h
    · exact h1 h
  simp only [hstName, hinfo, hshndx, if_neg hdef.1, if_neg hdef.2.1, if_neg htype,
    Option.bind_eq_bind, Option.bind_some] at h
  obtain ⟨b, hb, h⟩ := Option.bind_eq_some_iff.mp h
  split_ifs at h with hzero
  · exact ⟨[], cstr_of_u8_eq_zero (hzero ▸ hb)⟩
  · obtain ⟨name, hname, -⟩ := Option.bind_eq_some_iff.mp h
    exact ⟨name, hname⟩

/-- The loop over a table, by what its body gives for each entry. -/
theorem appendSymbols_eq_map (tab : SymTable) (symbols : List SymbolEntry) :
    appendSymbols img loadBias tab symbols =
      (readAll (symbolAt img loadBias tab) tab.count).map fun parts => symbols ++
        parts.flatten := by
  rw [appendSymbols]
  generalize tab.count = n
  induction n with
  | zero => simp [readAll]
  | succ n ih =>
    rw [List.range_succ, List.foldlM_append, ih, readAll]
    cases readAll (symbolAt img loadBias tab) n with
    | none => rfl
    | some parts =>
      cases hn : symbolAt img loadBias tab n with
      | none => simp [hn]
      | some part => simp [hn]

/-- **The loop over a table** appends its usable symbols. -/
theorem appendSymbols_of_readable (h : ∀ i < tab.count, EntryReadable img tab i)
    (symbols : List SymbolEntry) :
    appendSymbols img loadBias tab symbols = some (symbols ++ usableSymbols img loadBias tab) := by
  rw [appendSymbols_eq_map, readAll_eq_some fun i hi => symbolAt_of_readable (h i hi),
    usableSymbols, List.filterMap_eq_flatMap_toList, List.flatMap_def, Option.map_some]

theorem appendSymbols_eq (h : img.HasTable tab) (symbols : List SymbolEntry) :
    appendSymbols img loadBias tab symbols = some (symbols ++ usableSymbols img loadBias tab) :=
  appendSymbols_of_readable (fun _ hi => entryReadable_of_hasTable h hi) symbols

/-- The loop over a table whose entries may be missing. -/
theorem appendSymbols_eq_some_iff (hwrap : tab.syms.toNat + 24 * tab.count < 2 ^ 64)
    {symbols result : List SymbolEntry} :
    appendSymbols img loadBias tab symbols = some result ↔
      (∀ i < tab.count, EntryReadable img tab i) ∧
        result = symbols ++ usableSymbols img loadBias tab := by
  constructor
  · intro h
    have hread : ∀ i < tab.count, EntryReadable img tab i := by
      rw [appendSymbols_eq_map] at h
      obtain ⟨parts, hparts, -⟩ := Option.map_eq_some_iff.mp h
      intro i hi
      have hlen := length_of_readAll hparts
      have hpart := getElem?_of_readAll hparts hi
      rw [List.getElem?_eq_getElem (by omega)] at hpart
      refine readable_of_symbolAt ?_ hpart
      have hentry : (tab.entry i).toNat = tab.syms.toNat + 24 * i := by
        rw [SymTable.entry, BitVec.toNat_add, BitVec.toNat_ofNat]
        omega
      omega
    refine ⟨hread, ?_⟩
    rw [appendSymbols_of_readable hread] at h
    exact (Option.some.inj h).symm
  · rintro ⟨hread, rfl⟩
    exact appendSymbols_of_readable hread symbols

end Table

/-! ## Section headers -/

section Sections

variable {img : Image} {size loadBias shoff : Off} {shnum : BitVec 16} {ss : List Shdr} {s : Shdr}
  {type : BitVec 32}

/-- What the file header says about the section headers. -/
structure ReadsSections (img : Image) (ss : List Shdr) (shoff : Off) (shnum : BitVec 16) :
    Prop where
  shoff_eq : img.eShoff = some shoff
  shnum_eq : img.eShnum = some shnum
  shoff_ne : shoff ≠ 0
  shnum_ne : shnum ≠ 0
  headers : readAll (fun i => img.shdr? (sectionAt shoff i)) shnum.toNat = some ss

theorem ReadsSections.length (h : ReadsSections img ss shoff shnum) : ss.length = shnum.toNat :=
  length_of_readAll h.headers

theorem ReadsSections.ne_nil (h : ReadsSections img ss shoff shnum) : ss ≠ [] := by
  intro hnil
  have hlen := h.length
  rw [hnil] at hlen
  exact h.shnum_ne (BitVec.eq_of_toNat_eq hlen.symm)

/-- Either there are no section headers or they are read. -/
theorem sections_cases (hshdrs : img.shdrs = some ss) : ∃ shoff shnum,
    img.eShoff = some shoff ∧ img.eShnum = some shnum ∧
      ((shoff = 0 ∨ shnum = 0) ∧ ss = [] ∨ ReadsSections img ss shoff shnum) := by
  simp only [Image.shdrs, Option.bind_eq_bind, Option.bind_eq_some_iff, Option.pure_def] at hshdrs
  obtain ⟨shoff, hoff, shnum, hnum, hread⟩ := hshdrs
  refine ⟨shoff, shnum, hoff, hnum, ?_⟩
  split_ifs at hread with hzero
  · exact .inl ⟨.inl hzero, (Option.some.inj hread).symm⟩
  · by_cases hnum0 : shnum = 0
    · refine .inl ⟨.inr hnum0, List.eq_nil_of_length_eq_zero ?_⟩
      rw [length_of_readAll hread, hnum0]
      rfl
    · exact .inr ⟨hoff, hnum, hzero, hnum0, hread⟩

theorem sectionSymbols_eq_nil (hss : img.shdrs = some ss) (h : ss.find? (·.type = type) = none) :
    sectionSymbols img loadBias type = [] := by
  simp [sectionSymbols, Image.symTable?, hss, h]

theorem sectionSymbols_eq (hss : img.shdrs = some ss) (h : ss.find? (·.type = type) = some s)
    {tab : SymTable} (htab : Image.tableOf ss s = some tab) :
    sectionSymbols img loadBias type = usableSymbols img loadBias tab := by
  simp [sectionSymbols, Image.symTable?, hss, h, htab]

namespace ReadsSections

variable (h : ReadsSections img ss shoff shnum)
include h

theorem shdr_eq {i : ℕ} (hi : ss[i]? = some s) : img.shdr? (sectionAt shoff i) = some s :=
  getElem?_eq_of_readAll h.headers hi

theorem findSection_eq_none (hfind : ss.find? (·.type = type) = none) :
    findSection img shoff shnum type = some none := by
  refine findRead_eq_none h.headers (fun i s _ hs => ?_) hfind
  simp [(Image.shdr?_eq_some.mp hs).2.1]

theorem exists_findSection (hfind : ss.find? (·.type = type) = some s) :
    ∃ i, findSection img shoff shnum type = some (some i) ∧ ss[i]? = some s := by
  refine exists_findRead h.headers (fun i s _ hs => ?_) hfind
  simp [(Image.shdr?_eq_some.mp hs).2.1]

theorem shLink_eq {i : ℕ} (hi : ss[i]? = some s) : img.shLink (sectionAt shoff i) = some s.link :=
  (Image.shdr?_eq_some.mp (h.shdr_eq hi)).2.2.2.2.1

theorem sectionTable_eq {i : ℕ} (hi : ss[i]? = some s) (hent : s.entsize = 24) {tab : SymTable}
    (htab : Image.tableOf ss s = some tab) :
    sectionTable img (sectionAt shoff i) (sectionAt shoff s.link.toNat) = some tab := by
  obtain ⟨str, hstr, rfl⟩ := Option.map_eq_some_iff.mp htab
  obtain ⟨-, -, hoffset, hsize, -, hentsize⟩ := Image.shdr?_eq_some.mp (h.shdr_eq hi)
  obtain ⟨-, -, hstrOffset, -⟩ := Image.shdr?_eq_some.mp (h.shdr_eq hstr)
  have hne : s.entsize ≠ 0 := by
    rw [hent]
    decide
  simp only [sectionTable, hoffset, hsize, hentsize, hstrOffset, Option.bind_eq_bind,
    Option.bind_some, if_neg hne, Option.pure_def, BitVec.toNat_udiv]

end ReadsSections

/-- **One type of section** in the loop of `ParseSymtabFromSections`. -/
theorem parseTypes_cons (hshdrs : img.shdrs = some ss) (h : ReadsSections img ss shoff shnum)
    (hsym : ∀ s, ss.find? (·.type = type) = some s → img.ValidSymtab size ss s)
    {requireSymtab : Bool} (hreq : requireSymtab = true → type = shtSymtab)
    (symbols : List SymbolEntry) (types : List (BitVec 32)) :
    parseTypes img loadBias shoff shnum requireSymtab symbols (type :: types) =
      if ss.find? (·.type = type) = none then
        parseTypes img loadBias shoff shnum requireSymtab symbols types
      else returnNonempty (symbols ++ sectionSymbols img loadBias type) := by
  have hskip : ¬(requireSymtab = true ∧ type ≠ shtSymtab) := fun h => h.2 (hreq h.1)
  rw [parseTypes, if_neg hskip]
  cases hfind : ss.find? (·.type = type) with
  | none =>
    rw [h.findSection_eq_none hfind]
    rfl
  | some s =>
    obtain ⟨i, hi, hs⟩ := h.exists_findSection hfind
    obtain ⟨hent, -, str, tab, -, -, htab, hread⟩ := hsym s hfind
    simp only [hi, h.shLink_eq hs, h.sectionTable_eq hs hent htab, Option.bind_eq_bind,
      Option.bind_some, appendSymbols_eq hread, sectionSymbols_eq hshdrs hfind htab]
    rfl

/-- The first section of a type, in a well-formed file. -/
theorem validSymtab_of_find? (hv : img.ValidSections size ss)
    (htype : type = shtSymtab ∨ type = shtDynsym) (hfind : ss.find? (·.type = type) = some s) :
    img.ValidSymtab size ss s := by
  have hstype : s.type = type := by simpa using List.find?_some hfind
  exact hv.validSymtab (List.mem_of_find?_eq_some hfind) (hstype ▸ htype)

theorem ReadsSections.parseSymtabFromSections_eq (h : ReadsSections img ss shoff shnum)
    (requireSymtab : Bool) (symbols : List SymbolEntry) :
    parseSymtabFromSections img loadBias requireSymtab symbols =
      parseTypes img loadBias shoff shnum requireSymtab symbols [shtSymtab, shtDynsym] := by
  rw [parseSymtabFromSections, h.shoff_eq, h.shnum_eq]
  exact if_neg (not_or.mpr ⟨h.shoff_ne, h.shnum_ne⟩)

/-- `ParseSymtabFromSections` when only `.symtab` is wanted. -/
theorem ReadsSections.parseSymtab_eq (hv : img.ValidSections size ss)
    (h : ReadsSections img ss shoff shnum) :
    parseSymtabFromSections img loadBias true [] =
      returnNonempty (sectionSymbols img loadBias shtSymtab) := by
  rw [h.parseSymtabFromSections_eq,
    parseTypes_cons hv.shdrs_eq h (fun s hs => validSymtab_of_find? hv (.inl rfl) hs) fun _ => rfl]
  split_ifs with hnone
  · rw [sectionSymbols_eq_nil hv.shdrs_eq hnone]
    rfl
  · rfl

/-- `ParseSymtabFromSections` as the third method: a `.symtab` section is preferred here too. -/
theorem ReadsSections.parseDynsym_eq (hv : img.ValidSections size ss)
    (h : ReadsSections img ss shoff shnum) :
    parseSymtabFromSections img loadBias false [] =
      returnNonempty (if ss.find? (·.type = shtSymtab) = none then
        sectionSymbols img loadBias shtDynsym
        else sectionSymbols img loadBias shtSymtab) := by
  rw [h.parseSymtabFromSections_eq,
    parseTypes_cons hv.shdrs_eq h (fun s hs => validSymtab_of_find? hv (.inl rfl) hs) (by simp)]
  split_ifs with hsymtab
  · rw [parseTypes_cons hv.shdrs_eq h (fun s hs => validSymtab_of_find? hv (.inr rfl) hs) (by simp)]
    split_ifs with hdynsym
    · rw [sectionSymbols_eq_nil hv.shdrs_eq hdynsym]
      rfl
    · rfl
  · rfl

theorem ReadsSections.contentPast_eq (h : ReadsSections img ss shoff shnum) {i : ℕ}
    (hi : ss[i]? = some s) (hin : s.InFile size) :
    contentPast img (sectionAt shoff i) size = some false := by
  obtain ⟨-, -, hoffset, hsize, -⟩ := Image.shdr?_eq_some.mp (h.shdr_eq hi)
  rw [Shdr.InFile] at hin
  have hlt := size.isLt
  have hnot : ¬s.offset + s.size > size := by
    rw [gt_iff_lt, BitVec.lt_def, BitVec.toNat_add]
    omega
  simp [contentPast, hoffset, hsize, hnot]

theorem ReadsSections.sectionsPast_eq (h : ReadsSections img ss shoff shnum)
    (hent : img.eShentsize = some 64) (hle : shoff.toNat + 64 * ss.length ≤ size.toNat) :
    sectionsPast img size = some false := by
  rw [h.length] at hle
  have hlt := size.isLt
  have hnum := shnum.isLt
  have hprod : (shnum.setWidth 64 * (64 : BitVec 16).setWidth 64).toNat = 64 * shnum.toNat := by
    have h64 : ((64 : BitVec 16).setWidth 64).toNat = 64 := rfl
    rw [BitVec.toNat_mul, h64, BitVec.toNat_setWidth]
    omega
  have hnot : ¬shoff + shnum.setWidth 64 * (64 : BitVec 16).setWidth 64 > size := by
    rw [gt_iff_lt, BitVec.lt_def, BitVec.toNat_add, hprod]
    omega
  simp only [sectionsPast, h.shoff_eq, h.shnum_eq, hent, Option.bind_eq_bind, Option.bind_some,
    Option.pure_def, decide_eq_false hnot]

theorem ReadsSections.sectionsPast_of_valid (h : ReadsSections img ss shoff shnum)
    (hv : img.ValidSections size ss) : sectionsPast img size = some false := by
  obtain ⟨hent, shoff', hoff', hle⟩ := hv.table h.ne_nil
  obtain rfl := Option.some.inj (h.shoff_eq.symm.trans hoff')
  exact h.sectionsPast_eq hent hle

/-- `ParseSymtabFromMemory` when there is a section `.symtab`. -/
theorem ReadsSections.parseSymtabFromMemory_eq (h : ReadsSections img ss shoff shnum)
    (hshdrs : img.shdrs = some ss) (hpast : sectionsPast img size = some false)
    (hfind : ss.find? (·.type = shtSymtab) = some s) (hsym : img.ValidSymtab size ss s)
    (symbols : List SymbolEntry) :
    parseSymtabFromMemory img loadBias size symbols =
      returnNonempty (symbols ++ sectionSymbols img loadBias shtSymtab) := by
  obtain ⟨i, hi, hs⟩ := h.exists_findSection hfind
  obtain ⟨hent, hin, str, tab, hstr, hstrIn, htab, hread⟩ := hsym
  have hlink : ¬s.link.toNat ≥ shnum.toNat := by
    have hlt := (List.getElem?_eq_some_iff.mp hstr).1
    rw [h.length] at hlt
    omega
  rw [parseSymtabFromMemory, h.shoff_eq, h.shnum_eq, hpast]
  simp only [Option.bind_eq_bind, Option.bind_some,
    if_neg (not_or.mpr ⟨h.shoff_ne, h.shnum_ne⟩), hi, h.shLink_eq hs, if_neg hlink,
    h.contentPast_eq hs hin, h.contentPast_eq hstr hstrIn, h.sectionTable_eq hs hent htab,
    appendSymbols_eq hread, sectionSymbols_eq hshdrs hfind htab]
  rfl

/-- **`ParseSymtabFromMemory`** on a well-formed file. -/
theorem parseSymtabFromMemory_eq (hv : img.ValidSections size ss) :
    parseSymtabFromMemory img loadBias size [] =
      returnNonempty (sectionSymbols img loadBias shtSymtab) := by
  obtain ⟨shoff, shnum, hoff, hnum, ⟨hzero, rfl⟩ | h⟩ := sections_cases hv.shdrs_eq
  · rw [sectionSymbols_eq_nil hv.shdrs_eq rfl, parseSymtabFromMemory, hoff, hnum]
    exact if_pos hzero
  · cases hfind : ss.find? (·.type = shtSymtab) with
    | none =>
      rw [parseSymtabFromMemory, hoff, hnum, h.sectionsPast_of_valid hv,
        sectionSymbols_eq_nil hv.shdrs_eq hfind]
      simp only [Option.bind_eq_bind, Option.bind_some,
        if_neg (not_or.mpr ⟨h.shoff_ne, h.shnum_ne⟩), h.findSection_eq_none hfind]
      rfl
    | some s =>
      exact h.parseSymtabFromMemory_eq hv.shdrs_eq (h.sectionsPast_of_valid hv) hfind
        (validSymtab_of_find? hv (.inl rfl) hfind) []

end Sections

/-! ## Both parsers -/

/-- A well-formed file with a section of type `SHT_SYMTAB`, the first of which has valid entries and
names.  Nothing is asked of other sections. -/
structure SymtabFile where
  img : Image
  size : Off
  ss : List Shdr
  /-- The first section of the type. -/
  symtab : Shdr
  size_le : size.toNat ≤ img.bytes.length
  shdrs_eq : img.shdrs = some ss
  shentsize : img.eShentsize = some 64
  /-- The section headers lie in the file. -/
  headers : ∃ shoff, img.eShoff = some shoff ∧ shoff.toNat + 64 * ss.length ≤ size.toNat
  first : ss.find? (·.type = shtSymtab) = some symtab
  valid : img.ValidSymtab size ss symtab

/-- **Both parsers append the usable symbols of the table**, in its order, and return whether the
list has symbols then. -/
theorem SymtabFile.parse_eq (f : SymtabFile) (loadBias : Off) (symbols : List SymbolEntry) :
    ∃ tab, Image.tableOf f.ss f.symtab = some tab ∧
      parseSymtabFromSections f.img loadBias true symbols =
        returnNonempty (symbols ++ usableSymbols f.img loadBias tab) ∧
      parseSymtabFromMemory f.img loadBias f.size symbols =
        returnNonempty (symbols ++ usableSymbols f.img loadBias tab) := by
  obtain ⟨str, tab, -, -, htab, -⟩ := f.valid.names
  refine ⟨tab, htab, ?_⟩
  rw [← sectionSymbols_eq f.shdrs_eq f.first htab]
  obtain ⟨shoff, shnum, -, -, ⟨-, hnil⟩ | h⟩ := sections_cases f.shdrs_eq
  · have hfirst := f.first
    rw [hnil] at hfirst
    exact absurd hfirst (by simp)
  · have hsym : ∀ s, f.ss.find? (·.type = shtSymtab) = some s →
        f.img.ValidSymtab f.size f.ss s := by
      intro s hs
      obtain rfl := Option.some.inj (f.first.symm.trans hs)
      exact f.valid
    obtain ⟨shoff', hoff', hle⟩ := f.headers
    obtain rfl := Option.some.inj (h.shoff_eq.symm.trans hoff')
    constructor
    · rw [h.parseSymtabFromSections_eq, parseTypes_cons f.shdrs_eq h hsym fun _ => rfl, f.first]
      exact if_neg (by simp)
    · exact h.parseSymtabFromMemory_eq f.shdrs_eq (h.sectionsPast_eq f.shentsize hle) f.first
        f.valid symbols

/-- A file with the null symbol and the function `f` at `0x1000`. -/
def oneFunctionFile : SymtabFile where
  img.bytes := leFields
    [(4, 0x464c457f), (12, 0x10102), (2, 3), (2, 183), (4, 1), (8, 0), (8, 0), (8, 120),
      (4, 0), (2, 64), (2, 56), (2, 0), (2, 64), (2, 3), (2, 0),
      -- the symbols and their names
      (24, 0), (4, 1), (1, 0x12), (1, 0), (2, 1), (8, 0x1000), (8, 4), (8, 0x6600),
      -- the section headers
      (64, 0),
      (4, 0), (4, 2), (8, 0), (8, 0), (8, 64), (8, 48), (4, 2), (4, 1), (8, 8), (8, 24),
      (4, 0), (4, 3), (8, 0), (8, 0), (8, 112), (8, 8), (4, 0), (4, 0), (8, 1), (8, 0)]
  size := 312
  ss := [⟨0, 0, 0, 0, 0, 0⟩, ⟨0, 2, 64, 48, 2, 24⟩, ⟨0, 3, 112, 8, 0, 0⟩]
  symtab := ⟨0, 2, 64, 48, 2, 24⟩
  size_le := by decide +kernel
  shdrs_eq := by decide +kernel
  shentsize := by decide +kernel
  headers := ⟨120, by decide +kernel, by decide⟩
  first := rfl
  valid :=
    { entsize := rfl
      inFile := by decide
      names := by
        refine ⟨⟨0, 3, 112, 8, 0, 0⟩, ⟨64, 112, 2⟩, rfl, by decide, rfl, fun i hi => ?_⟩
        match i, hi with
        | 0, _ => exact ⟨⟨0, 0, 0, 0⟩, [], by decide +kernel, by decide +kernel⟩
        | 1, _ => exact ⟨⟨1, 0x12, 1, 0x1000⟩, [0x66], by decide +kernel, by decide +kernel⟩ }

theorem oneFunctionFile_parse_eq :
    parseSymtabFromSections oneFunctionFile.img 0x7000 true [] = some (true, [⟨[0x66], 0x8000⟩]) ∧
      parseSymtabFromMemory oneFunctionFile.img 0x7000 oneFunctionFile.size [] =
        some (true, [⟨[0x66], 0x8000⟩]) := by
  obtain ⟨tab, htab, hsections, hmemory⟩ := oneFunctionFile.parse_eq 0x7000 []
  obtain rfl : (⟨64, 112, 2⟩ : SymTable) = tab := Option.some.inj htab
  have husable : usableSymbols oneFunctionFile.img 0x7000 ⟨64, 112, 2⟩ = [⟨[0x66], 0x8000⟩] := by
    decide +kernel
  rw [husable] at hsections hmemory
  exact ⟨hsections, hmemory⟩

end ElfSymbolResolver

end CalvinHook
