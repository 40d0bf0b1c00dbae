import CalvinHook.HookSdk.DynamicSymbols

/-!
# `elf_symbol_resolver.cpp`: which source the symbols come from

`TryLoadFromFile` tries four sources: `.symtab`, the `.symtab` of the compressed file in
`.gnu_debugdata`, `.dynsym` by its section header, and `.dynsym` by the dynamic section.  The third
method looks for a `.symtab` section again and is content to find one, even if it has no usable
symbol; `.dynsym` is then not looked at until the fourth method, which depends on the hash tables.

* `ElfFile`: a well-formed file.
* `sectionSymbols`, `debugSymbols`, `dynamicSymbols`: what the sources yield, and `firstNonempty`:
  what should be loaded.
* `parseGnuDebugdata_eq`: the second method; the fourth is `Dynamic.parse_eq_iff`.
* `ElfFile.loads_iff`: when `TryLoadFromFile` loads the symbols of the first source that has any.
-/

namespace CalvinHook

open Elf

namespace ElfSymbolResolver

/-! ## The sources -/

section Sources

variable (xzDecompress : List (BitVec 8) → Option (List (BitVec 8))) (img : Image) (loadBias : Off)

/-- The decompressed bytes, if they are a file. -/
def elfData (dec : Option (List (BitVec 8))) : Option Image :=
  dec.bind fun data =>
    if Image.ehdrSize ≤ data.length ∧ data.take 4 = Image.elfMag then some ⟨data⟩ else none

/-- The section has the name `.gnu_debugdata`, in the table of names at `shstrtab`. -/
def Named (img : Image) (shstrtab : Off) (s : Shdr) : Bool :=
  img.cstr (shstrtab + s.name.setWidth 64) = some gnuDebugdata

/-- The file that `.gnu_debugdata` contains. -/
def debugImage : Option Image := do
  let ss ← img.shdrs
  let shstrndx ← img.eShstrndx
  let str ← ss[shstrndx.toNat]?
  let s ← ss.find? (Named img str.offset)
  let xzData ← img.slice s.offset s.size.toNat
  elfData (xzDecompress xzData)

/-- A well-formed file. -/
structure ElfFile where
  img : Image
  size : Off
  ss : List Shdr
  dynamic : Dynamic img
  magic : img.slice 0 4 = some Image.elfMag
  sections : img.ValidSections size ss
  /-- The sections have names, and `.gnu_debugdata` lies in the file. -/
  names : ss ≠ [] → ∃ shstrndx str, img.eShstrndx = some shstrndx ∧ ss[shstrndx.toNat]? = some str ∧
    str.InFile size ∧ ∀ s ∈ ss, ∃ name, img.cstr (str.offset + s.name.setWidth 64) = some name ∧
      (name = gnuDebugdata → s.InFile size)
  /-- The compressed file is well-formed as well. -/
  debug : ∀ data, debugImage xzDecompress img = some data →
    ∃ ss', data.ValidSections (BitVec.ofNat 64 data.bytes.length) ss'

/-- The first list that is not empty. -/
def firstNonempty {α : Type} : List (List α) → List α
  | [] => []
  | l :: ls => if l.isEmpty then firstNonempty ls else l

/-- The symbols of the compressed file. -/
def debugSymbols : List SymbolEntry :=
  ((debugImage xzDecompress img).map fun data => sectionSymbols data loadBias shtSymtab).getD []

end Sources

section Methods

variable {xzDecompress : List (BitVec 8) → Option (List (BitVec 8))} {loadBias : Off}

section Named

variable {img : Image} {ss : List Shdr} {shoff shstrtab : Off} {shnum : BitVec 16}

/-- The test on one section. -/
theorem nameTest_eq (hnames : ∀ s ∈ ss, ∃ name,
    img.cstr (shstrtab + s.name.setWidth 64) = some name)
    (i : ℕ) (s : Shdr) (hs : s ∈ ss) (hshdr : img.shdr? (sectionAt shoff i) = some s) :
    (do
      let name ← img.shName (sectionAt shoff i)
      strEq (img.bytes.drop (shstrtab + name.setWidth 64).toNat) gnuDebugdata : Option Bool) =
      some (Named img shstrtab s) := by
  obtain ⟨name, hname⟩ := hnames s hs
  rw [(Image.shdr?_eq_some.mp hshdr).1]
  refine (strEq_eq hname (by decide)).trans ?_
  rw [Named, hname]
  simp

theorem findDebugdata_eq_none (h : ReadsSections img ss shoff shnum)
    (hnames : ∀ s ∈ ss, ∃ name, img.cstr (shstrtab + s.name.setWidth 64) = some name)
    (hfind : ss.find? (Named img shstrtab) = none) :
    findDebugdata img shoff shnum shstrtab = some none :=
  findRead_eq_none h.headers (nameTest_eq hnames) hfind

theorem exists_findDebugdata (h : ReadsSections img ss shoff shnum)
    (hnames : ∀ s ∈ ss, ∃ name, img.cstr (shstrtab + s.name.setWidth 64) = some name) {s : Shdr}
    (hfind : ss.find? (Named img shstrtab) = some s) :
    ∃ i, findDebugdata img shoff shnum shstrtab = some (some i) ∧ ss[i]? = some s :=
  exists_findRead h.headers (nameTest_eq hnames) hfind

end Named

theorem slice_of_inFile {f : ElfFile xzDecompress} {s : Shdr} (h : s.InFile f.size) :
    ∃ data, f.img.slice s.offset s.size.toNat = some data := by
  have hle := f.sections.size_le
  rw [Shdr.InFile] at h
  exact ⟨_, if_pos (by omega)⟩

/-- What is done with the decompressed bytes. -/
theorem parseDecompressed_eq (dec : Option (List (BitVec 8)))
    (h : ∀ data, elfData dec = some data →
      ∃ ss, data.ValidSections (BitVec.ofNat 64 data.bytes.length) ss) :
    parseDecompressed loadBias dec [] =
      returnNonempty (((elfData dec).map fun data => sectionSymbols data loadBias shtSymtab).getD
        []) := by
  cases dec with
  | none => rfl
  | some data =>
    by_cases hok : Image.ehdrSize ≤ data.length ∧ data.take 4 = Image.elfMag
    · have hdata : elfData (some data) = some ⟨data⟩ := if_pos hok
      obtain ⟨ss, hss⟩ := h ⟨data⟩ hdata
      rw [hdata, Option.map_some, Option.getD_some, ← parseSymtabFromMemory_eq hss]
      cases data with
      | nil => exact absurd hok.1 (by decide)
      | cons b bs =>
        have hnot : ¬((b :: bs).length < Image.ehdrSize ∨ (b :: bs).take 4 ≠ Image.elfMag) :=
          not_or.mpr ⟨Nat.not_lt.mpr hok.1, not_not.mpr hok.2⟩
        rw [parseDecompressed, if_neg hnot]
        simp
    · have hdata : elfData (some data) = none := if_neg hok
      rw [hdata]
      cases data with
      | nil => rfl
      | cons b bs =>
        have hbad : (b :: bs).length < Image.ehdrSize ∨ (b :: bs).take 4 ≠ Image.elfMag := by
          rcases not_and_or.mp hok with hlt | hmag
          · exact .inl (Nat.not_le.mp hlt)
          · exact .inr hmag
        rw [parseDecompressed, if_pos hbad]
        · rfl
        · simp

/-- **The second method.** -/
theorem parseGnuDebugdata_eq (f : ElfFile xzDecompress) :
    parseGnuDebugdata f.img loadBias xzDecompress f.size [] =
      returnNonempty (debugSymbols xzDecompress f.img loadBias) := by
  obtain ⟨shoff, shnum, hoff, hnum, ⟨hzero, hnil⟩ | h⟩ := sections_cases f.sections.shdrs_eq
  · have hnone : debugImage xzDecompress f.img = none := by
      simp [debugImage, f.sections.shdrs_eq, hnil]
    rw [debugSymbols, hnone, parseGnuDebugdata, hoff, hnum]
    exact if_pos hzero
  · obtain ⟨shstrndx, str, hndx, hstr, hstrIn, hnames⟩ := f.names h.ne_nil
    have hlt : ¬shstrndx ≥ shnum := by
      have hlt := (List.getElem?_eq_some_iff.mp hstr).1
      rw [h.length] at hlt
      exact BitVec.not_le.mpr hlt
    have hoffset := (Image.shdr?_eq_some.mp (h.shdr_eq hstr)).2.2.1
    have hreadable := fun s hs => (hnames s hs).imp fun _ hname => hname.1
    have hdebug : debugImage xzDecompress f.img =
        (f.ss.find? (Named f.img str.offset)).bind fun s =>
        (f.img.slice s.offset s.size.toNat).bind fun xzData => elfData (xzDecompress xzData) := by
      simp only [debugImage, f.sections.shdrs_eq, hndx, hstr, Option.bind_eq_bind, Option.bind_some]
    simp only [parseGnuDebugdata, hoff, hnum, h.sectionsPast_of_valid f.sections,
      Option.bind_eq_bind, Option.bind_some, if_neg (not_or.mpr ⟨h.shoff_ne, h.shnum_ne⟩),
      hndx, if_neg hlt, h.contentPast_eq hstr hstrIn, hoffset]
    cases hfind : f.ss.find? (Named f.img str.offset) with
    | none =>
      rw [hfind, Option.bind_none] at hdebug
      rw [findDebugdata_eq_none h hreadable hfind, debugSymbols, hdebug]
      rfl
    | some s =>
      obtain ⟨i, hread, hs⟩ := exists_findDebugdata h hreadable hfind
      have hin : s.InFile f.size := by
        obtain ⟨name, hname, hin⟩ := hnames s (List.mem_of_find?_eq_some hfind)
        have hnamed := List.find?_some hfind
        rw [Named, decide_eq_true_eq, hname, Option.some.injEq] at hnamed
        exact hin hnamed
      obtain ⟨xzData, hxz⟩ := slice_of_inFile hin
      obtain ⟨-, -, hsOffset, hsSize, -⟩ := Image.shdr?_eq_some.mp (h.shdr_eq hs)
      rw [hfind, Option.bind_some, hxz, Option.bind_some] at hdebug
      simp only [hread, Option.bind_some, h.contentPast_eq hs hin, hsOffset, hsSize, hxz,
        debugSymbols, hdebug]
      exact parseDecompressed_eq _ fun data hdata => f.debug data (hdebug.trans hdata)

theorem firstNonempty_of_eq {α : Type} {l : List α} {ls : List (List α)} (h : l = []) :
    firstNonempty (l :: ls) = firstNonempty ls := by
  rw [h]
  rfl

theorem firstNonempty_of_ne {α : Type} {l : List α} {ls : List (List α)} (h : l ≠ []) :
    firstNonempty (l :: ls) = l := by
  rw [firstNonempty, if_neg (by simpa using h)]

theorem pos_of_ne_zero {w : ℕ} {x : BitVec w} (h : x ≠ 0) : x > 0 := by
  rw [gt_iff_lt, BitVec.lt_def]
  exact Nat.pos_of_ne_zero fun h0 => h (BitVec.eq_of_toNat_eq h0)

/-- The next method is tried if the one before has found nothing. -/
theorem orTry_returnNonempty (symbols : List SymbolEntry) (next : List SymbolEntry → Parsed) :
    orTry (returnNonempty symbols) next =
      if symbols ≠ [] then returnNonempty symbols else next [] := by
  cases symbols <;> rfl

/-- The first and the third method, with the test that comes before them. -/
theorem ElfFile.sections_methods (f : ElfFile xzDecompress) (loadBias : Off) : ∃ shoff shnum,
    f.img.eShoff = some shoff ∧ f.img.eShnum = some shnum ∧
      (if shoff > 0 ∧ shnum > 0 then parseSymtabFromSections f.img loadBias true []
      else some (false, [])) =
        returnNonempty (sectionSymbols f.img loadBias shtSymtab) ∧
      (if shoff > 0 ∧ shnum > 0 then parseSymtabFromSections f.img loadBias false []
      else some (false, [])) =
        returnNonempty
          (if f.ss.find? (·.type = shtSymtab) = none then sectionSymbols f.img loadBias shtDynsym
          else sectionSymbols f.img loadBias shtSymtab) := by
  obtain ⟨shoff, shnum, hoff, hnum, ⟨hzero, hnil⟩ | h⟩ := sections_cases f.sections.shdrs_eq
  · have hnot : ¬(shoff > 0 ∧ shnum > 0) := by
      rintro ⟨hoff, hnum⟩
      rcases hzero with rfl | rfl
      · exact absurd hoff (by decide)
      · exact absurd hnum (by decide)
    have hnone : ∀ type, sectionSymbols f.img loadBias type = [] := fun type =>
      sectionSymbols_eq_nil f.sections.shdrs_eq (by rw [hnil]; rfl)
    refine ⟨shoff, shnum, hoff, hnum, ?_, ?_⟩
    · rw [if_neg hnot, hnone]
      rfl
    · rw [if_neg hnot, hnone, hnone, ite_self]
      rfl
  · have hpos : shoff > 0 ∧ shnum > 0 := ⟨pos_of_ne_zero h.shoff_ne, pos_of_ne_zero h.shnum_ne⟩
    refine ⟨shoff, shnum, hoff, hnum, ?_, ?_⟩
    · rw [if_pos hpos, h.parseSymtab_eq f.sections]
    · rw [if_pos hpos, h.parseDynsym_eq f.sections]

theorem firstNonempty_singleton {α : Type} (l : List α) : firstNonempty [l] = l := by
  cases l <;> rfl

theorem firstNonempty_pair_self {α : Type} (l : List α) : firstNonempty [l, l] = l := by
  cases l <;> rfl

/-- Which symbols are loaded. -/
theorem ElfFile.tryLoad_eq (f : ElfFile xzDecompress) :
    tryLoadFromFile xzDecompress (some f.img) f.size loadBias [] =
      if sectionSymbols f.img loadBias shtSymtab ≠ [] then
        returnNonempty (sectionSymbols f.img loadBias shtSymtab)
      else if debugSymbols xzDecompress f.img loadBias ≠ [] then
        returnNonempty (debugSymbols xzDecompress f.img loadBias)
      else if f.ss.find? (·.type = shtSymtab) = none ∧
        sectionSymbols f.img loadBias shtDynsym ≠ [] then
        returnNonempty (sectionSymbols f.img loadBias shtDynsym)
      else parseDynsymFromDynamic f.img loadBias [] := by
  obtain ⟨shoff, shnum, hoff, hnum, hm1, hm3⟩ := f.sections_methods loadBias
  have hchain : tryLoadFromFile xzDecompress (some f.img) f.size loadBias [] =
      orTry (orTry (orTry (returnNonempty (sectionSymbols f.img loadBias shtSymtab))
        (parseGnuDebugdata f.img loadBias xzDecompress f.size))
        fun symbols => if shoff > 0 ∧ shnum > 0 then
        parseSymtabFromSections f.img loadBias false symbols
          else some (false, symbols)) (parseDynsymFromDynamic f.img loadBias) := by
    simp only [tryLoadFromFile, f.magic, hoff, hnum, Option.bind_eq_bind,
      Option.bind_some, hm1, ne_eq, not_true_eq_false, if_false]
  rw [hchain, orTry_returnNonempty]
  by_cases h1 : sectionSymbols f.img loadBias shtSymtab = []
  swap
  · rw [if_pos h1, if_pos h1, orTry_returnNonempty, if_pos h1, orTry_returnNonempty, if_pos h1]
  rw [if_neg (not_not.mpr h1), if_neg (not_not.mpr h1), parseGnuDebugdata_eq, orTry_returnNonempty]
  by_cases h2 : debugSymbols xzDecompress f.img loadBias = []
  swap
  · rw [if_pos h2, if_pos h2, orTry_returnNonempty, if_pos h2]
  rw [if_neg (not_not.mpr h2), if_neg (not_not.mpr h2), hm3, orTry_returnNonempty]
  -- `.dynsym` is looked at only if there is no `.symtab`
  split_ifs with h3 h4 h4 <;> simp_all

/-- When the symbols of the first source that has any are loaded. -/
theorem ElfFile.tryLoad_eq_iff (f : ElfFile xzDecompress) (loadBias : Off) :
    tryLoadFromFile xzDecompress (some f.img) f.size loadBias [] =
        returnNonempty (firstNonempty
          [sectionSymbols f.img loadBias shtSymtab, debugSymbols xzDecompress f.img loadBias,
            sectionSymbols f.img loadBias shtDynsym, dynamicSymbols f.dynamic loadBias]) ↔
      sectionSymbols f.img loadBias shtSymtab ≠ [] ∨ debugSymbols xzDecompress f.img loadBias ≠ [] ∨
        (∀ s ∈ f.ss, s.type ≠ shtSymtab) ∧ sectionSymbols f.img loadBias shtDynsym ≠ [] ∨
        f.dynamic.Gives loadBias (firstNonempty
          [sectionSymbols f.img loadBias shtDynsym, dynamicSymbols f.dynamic loadBias]) := by
  have hfind : (f.ss.find? (·.type = shtSymtab) = none) ↔ ∀ s ∈ f.ss, s.type ≠ shtSymtab := by
    simp [List.find?_eq_none]
  rw [f.tryLoad_eq, ← hfind]
  by_cases h1 : sectionSymbols f.img loadBias shtSymtab = []
  swap
  · rw [if_pos h1, firstNonempty_of_ne h1]
    exact iff_of_true rfl (.inl h1)
  by_cases h2 : debugSymbols xzDecompress f.img loadBias = []
  swap
  · rw [if_neg (not_not.mpr h1), if_pos h2, firstNonempty_of_eq h1, firstNonempty_of_ne h2]
    exact iff_of_true rfl (.inr (.inl h2))
  rw [if_neg (not_not.mpr h1), if_neg (not_not.mpr h2), firstNonempty_of_eq h1,
    firstNonempty_of_eq h2, or_iff_right (not_not.mpr h1), or_iff_right (not_not.mpr h2)]
  by_cases h3 : f.ss.find? (·.type = shtSymtab) = none ∧
      sectionSymbols f.img loadBias shtDynsym ≠ []
  · rw [if_pos h3, firstNonempty_of_ne h3.2]
    exact iff_of_true rfl (.inl h3)
  · rw [if_neg h3, or_iff_right h3]
    exact f.dynamic.parse_eq_iff loadBias _

/-- **The symbols of the first source that has any** are loaded exactly if `.symtab` has usable
symbols, or the compressed file has, or there is no `.symtab` section and `.dynsym` has, or the
dynamic section gives the symbols that are then due.  The last is so if its hash table leads to the
right number of symbols and `.dynsym`, by its section header, has no usable symbols or the same
ones. -/
theorem ElfFile.loads_iff (f : ElfFile xzDecompress) (loadBias : Off) :
    let expected := firstNonempty
      [sectionSymbols f.img loadBias shtSymtab, debugSymbols xzDecompress f.img loadBias,
        sectionSymbols f.img loadBias shtDynsym, dynamicSymbols f.dynamic loadBias]
    (tryLoadFromFile xzDecompress (some f.img) f.size loadBias [] = returnNonempty expected ↔
      sectionSymbols f.img loadBias shtSymtab ≠ [] ∨ debugSymbols xzDecompress f.img loadBias ≠ [] ∨
        (∀ s ∈ f.ss, s.type ≠ shtSymtab) ∧ sectionSymbols f.img loadBias shtDynsym ≠ [] ∨
        f.dynamic.Gives loadBias (firstNonempty
          [sectionSymbols f.img loadBias shtDynsym, dynamicSymbols f.dynamic loadBias])) ∧
    (f.dynamic.CountsRight → (sectionSymbols f.img loadBias shtDynsym = [] ∨
        sectionSymbols f.img loadBias shtDynsym = dynamicSymbols f.dynamic loadBias) →
      tryLoadFromFile xzDecompress (some f.img) f.size loadBias [] = returnNonempty expected) := by
  intro expected
  have hiff := f.tryLoad_eq_iff loadBias
  refine ⟨hiff, fun hcount hdynsym => hiff.mpr (.inr (.inr (.inr ?_)))⟩
  have hgives := f.dynamic.gives_of_countsRight loadBias hcount
  rcases hdynsym with hnil | hsame
  · rw [firstNonempty_of_eq hnil, firstNonempty_singleton]
    exact hgives
  · rw [hsame, firstNonempty_pair_self]
    exact hgives

end Methods

/-! ### A file with a dynamic section only -/

/-- A header, two program headers, the dynamic section, the null symbol and the function `f`, the
names, and a hash table of two symbols; no section headers. -/
def hashImage : Image where
  bytes := leFields
    [(4, 0x464c457f), (12, 0x10102), (2, 3), (2, 183), (4, 1), (8, 0), (8, 64), (8, 0),
      (4, 0), (2, 64), (2, 56), (2, 2), (2, 64), (2, 0), (2, 0),
      -- the program headers
      (4, 1), (4, 4), (8, 0), (8, 0), (8, 0), (8, 324), (8, 324), (8, 4096),
      (4, 2), (4, 4), (8, 176), (8, 176), (8, 176), (8, 64), (8, 64), (8, 8),
      -- the dynamic section
      (8, 6), (8, 240), (8, 5), (8, 288), (8, 4), (8, 304), (8, 0), (8, 0),
      -- the symbols and their names
      (24, 0), (4, 1), (1, 0x12), (1, 0), (2, 1), (8, 0x1000), (8, 4), (16, 0x6600),
      -- the hash table: one bucket, two chains
      (4, 1), (4, 2), (4, 1), (4, 0), (4, 0)]

def hashFile : ElfFile fun _ => none where
  img := hashImage
  size := 324
  ss := []
  dynamic :=
    { phs := [⟨1, 0, 0, 324⟩, ⟨2, 176, 176, 64⟩]
      es := [⟨dtSymtab, 240⟩, ⟨dtStrtab, 288⟩, ⟨dtHash, 304⟩]
      n := 2
      gnu := none
      length_lt := by decide +kernel
      phdrs_eq := by decide +kernel
      noWrap := by decide +kernel
      entries := by
        show hashImage.dynEntries hashImage.bytes.length 176 = some _
        decide +kernel
      tags_unique := by decide +kernel
      table := by
        intro tab htab
        obtain rfl : (⟨240, 288, 2⟩ : SymTable) = tab := Option.some.inj htab
        refine ⟨by decide, by decide, by decide +kernel, fun i hi => ?_⟩
        match i, hi with
        | 0, _ => exact ⟨⟨0, 0, 0, 0⟩, [], by decide +kernel, by decide +kernel⟩
        | 1, _ => exact ⟨⟨1, 0x12, 1, 0x1000⟩, [0x66], by decide +kernel, by decide +kernel⟩
      hash := by
        intro addr haddr
        obtain rfl : (304 : Off) = addr := Option.some.inj haddr
        exact ⟨304, by decide +kernel, by decide +kernel, by decide +kernel⟩
      gnuHash := fun addr haddr => absurd haddr nofun }
  magic := by decide +kernel
  sections :=
    { size_le := by decide +kernel
      size_ge := by decide +kernel
      shdrs_eq := by decide +kernel
      table := fun h => absurd rfl h
      symtab := nofun }
  names := fun h => absurd rfl h
  debug := by
    have hnone : debugImage (fun _ => none) hashImage = none := by decide +kernel
    intro data hdata
    exact absurd (hnone.symm.trans hdata) nofun

/-- The function is loaded, with the number of symbols from `DT_HASH`. -/
theorem hashFile_loads : hashFile.dynamic.CountsRight ∧
    tryLoadFromFile (fun _ => none) (some hashFile.img) hashFile.size 0x7000 [] =
      some (true, [⟨[0x66], 0x8000⟩]) := by
  have hcount : hashFile.dynamic.CountsRight :=
    ⟨by decide +kernel, by decide +kernel, .inl (by decide +kernel)⟩
  have hloads := (hashFile.loads_iff 0x7000).2 hcount (.inl (by decide +kernel))
  have hexpected : returnNonempty (firstNonempty
      [sectionSymbols hashFile.img 0x7000 shtSymtab,
        debugSymbols (fun _ => none) hashFile.img 0x7000,
        sectionSymbols hashFile.img 0x7000 shtDynsym, dynamicSymbols hashFile.dynamic 0x7000]) =
      some (true, [⟨[0x66], 0x8000⟩]) := by
    decide +kernel
  exact ⟨hcount, hloads.trans hexpected⟩

/-! ### A file with an empty `.symtab` -/

/-- A header, a `.symtab` with the null symbol only, a `.dynsym` with the function `f`, the names,
and four section headers; no program headers. -/
def emptySymtabImage : Image where
  bytes := leFields
    [(4, 0x464c457f), (12, 0x10102), (2, 3), (2, 183), (4, 1), (8, 0), (8, 0), (8, 168),
      (4, 0), (2, 64), (2, 56), (2, 0), (2, 64), (2, 4), (2, 3),
      -- the null symbols, and the symbol `f`
      (24, 0), (24, 0), (4, 1), (1, 0x12), (1, 0), (2, 1), (8, 0x1000), (8, 4),
      -- the names: ``, `f`, `.symtab`, `.dynsym` and `.strtab`
      (3, 0x6600), (8, 0x6261746d79732e), (8, 0x6d79736e79642e), (8, 0x6261747274732e), (5, 0),
      -- the section headers
      (64, 0),
      (4, 3), (4, 2), (8, 0), (8, 0), (8, 64), (8, 24), (4, 3), (4, 1), (8, 8), (8, 24),
      (4, 11), (4, 11), (8, 2), (8, 0), (8, 88), (8, 48), (4, 3), (4, 1), (8, 8), (8, 24),
      (4, 19), (4, 3), (8, 0), (8, 0), (8, 136), (8, 32), (4, 0), (4, 0), (8, 1), (8, 0)]

def emptySymtabFile : ElfFile fun _ => none where
  img := emptySymtabImage
  size := 424
  ss := [⟨0, 0, 0, 0, 0, 0⟩, ⟨3, 2, 64, 24, 3, 24⟩, ⟨11, 11, 88, 48, 3, 24⟩, ⟨19, 3, 136, 32, 0, 0⟩]
  dynamic :=
    { phs := []
      es := []
      n := 0
      gnu := none
      length_lt := by decide +kernel
      phdrs_eq := by decide +kernel
      noWrap := by decide +kernel
      entries := rfl
      tags_unique := nofun
      table := fun tab htab => absurd htab nofun
      hash := fun addr haddr => absurd haddr nofun
      gnuHash := fun addr haddr => absurd haddr nofun }
  magic := by decide +kernel
  sections :=
    { size_le := by decide +kernel
      size_ge := by decide +kernel
      shdrs_eq := by decide +kernel
      table := fun _ => ⟨by decide +kernel, 168, by decide +kernel, by decide +kernel⟩
      symtab := by
        intro s hs htype
        simp only [List.mem_cons, List.not_mem_nil, or_false] at hs
        rcases hs with rfl | rfl | rfl | rfl
        · exact absurd htype (by decide)
        · refine ⟨by decide, by decide, ⟨19, 3, 136, 32, 0, 0⟩, ⟨64, 136, 1⟩, by decide, by decide,
            by decide, fun i hi => ?_⟩
          match i, hi with
          | 0, _ => exact ⟨⟨0, 0, 0, 0⟩, [], by decide +kernel, by decide +kernel⟩
        · refine ⟨by decide, by decide, ⟨19, 3, 136, 32, 0, 0⟩, ⟨88, 136, 2⟩, by decide, by decide,
            by decide, fun i hi => ?_⟩
          match i, hi with
          | 0, _ => exact ⟨⟨0, 0, 0, 0⟩, [], by decide +kernel, by decide +kernel⟩
          | 1, _ => exact ⟨⟨1, 0x12, 1, 0x1000⟩, [0x66], by decide +kernel, by decide +kernel⟩
        · exact absurd htype (by decide) }
  names := fun _ => ⟨3, ⟨19, 3, 136, 32, 0, 0⟩, by decide +kernel, by decide +kernel,
    by decide +kernel, by
    intro s hs
    simp only [List.mem_cons, List.not_mem_nil, or_false] at hs
    rcases hs with rfl | rfl | rfl | rfl
    · exact ⟨[], by decide +kernel, by decide⟩
    · exact ⟨[0x2e, 0x73, 0x79, 0x6d, 0x74, 0x61, 0x62], by decide +kernel, by decide⟩
    · exact ⟨[0x2e, 0x64, 0x79, 0x6e, 0x73, 0x79, 0x6d], by decide +kernel, by decide⟩
    · exact ⟨[0x2e, 0x73, 0x74, 0x72, 0x74, 0x61, 0x62], by decide +kernel, by decide⟩⟩
  debug := by
    have hnone : debugImage (fun _ => none) emptySymtabImage = none := by decide +kernel
    intro data hdata
    exact absurd (hnone.symm.trans hdata) (by simp)

/-- Nothing is loaded, though `.dynsym` has a usable symbol. -/
theorem emptySymtabFile_not_loaded :
    tryLoadFromFile (fun _ => none) (some emptySymtabFile.img) emptySymtabFile.size 0 [] ≠
      returnNonempty (firstNonempty
        [sectionSymbols emptySymtabFile.img 0 shtSymtab,
          debugSymbols (fun _ => none) emptySymtabFile.img 0,
            sectionSymbols emptySymtabFile.img 0 shtDynsym,
          dynamicSymbols emptySymtabFile.dynamic 0]) := by
  decide +kernel

end ElfSymbolResolver

end CalvinHook
