import CalvinHook.Elf.Image

/-!
# `elf_symbol_resolver.cpp`: reading the symbols of a library

The file is mapped; the parsers follow offsets through it and append to the list of symbols.  A
function gives `none` where the code reads a byte that is not there, divides by zero, or never
returns; otherwise it gives what the code returns together with the list of symbols.  The program is
the 64-bit one.

* `symbolAt`, `appendSymbols`: the loop over a symbol table.
* `parseSymtabFromSections`, `parseSymtabFromMemory`: tables that the section headers describe.
* `dynTags`, `vaddrToFoff`, `gnuCount`, `dynTable`, `parseDynsymFromDynamic`: the table that the
  dynamic section describes.
* `parseGnuDebugdata`: the compressed file inside the file; the decompressor is a parameter.
* `tryLoadFromFile`: the four methods in their order.
-/

namespace CalvinHook

open Elf

/-- `SymbolEntry`. -/
structure SymbolEntry where
  name : List (BitVec 8)
  addr : Off
  deriving DecidableEq, Repr

namespace ElfSymbolResolver

/-- What a parser returns and the list `g_symbols` afterwards. -/
abbrev Parsed := Option (Bool × List SymbolEntry)

/-- `return !g_symbols.empty()`. -/
def returnNonempty (symbols : List SymbolEntry) : Parsed := some (!symbols.isEmpty, symbols)

variable (img : Image) (loadBias : Off)

/-! ## Symbol tables -/

/-- The body of the loops over a symbol table: what it appends. -/
def symbolAt (tab : SymTable) (i : ℕ) : Option (List SymbolEntry) := do
  let value ← img.stValue (tab.entry i)
  if value = 0 then return []
  else
    let shndx ← img.stShndx (tab.entry i)
    if shndx = shnUndef then return []
    else
      let info ← img.stInfo (tab.entry i)
      let type := info &&& 0xf
      if type ≠ sttFunc ∧ type ≠ sttObject ∧ type ≠ sttNotype then return []
      else
        let stName ← img.stName (tab.entry i)
        let first ← img.u8 (tab.strtab + stName.setWidth 64)
        if first = 0 then return []
        else
          let name ← img.cstr (tab.strtab + stName.setWidth 64)
          return [⟨name, loadBias + value⟩]

/-- The loop over a symbol table. -/
def appendSymbols (tab : SymTable) (symbols : List SymbolEntry) : Option (List SymbolEntry) :=
  (List.range tab.count).foldlM
    (fun symbols i => do return symbols ++ (← symbolAt img loadBias tab i))
    symbols

/-! ## Section headers -/

/-- The first section of a type, by its index. -/
def findSection (shoff : Off) (shnum : BitVec 16) (type : BitVec 32) : Option (Option ℕ) :=
  findRead (fun i => do return (← img.shType (sectionAt shoff i)) = type) (List.range shnum.toNat)

/-- The symbol table of a section and of the section with its names.  The count is a quotient. -/
def sectionTable (symSh strSh : Off) : Option SymTable := do
  let strtab ← img.shOffset strSh
  let syms ← img.shOffset symSh
  let size ← img.shSize symSh
  let entsize ← img.shEntsize symSh
  if entsize = 0 then none else return ⟨syms, strtab, (size / entsize).toNat⟩

/-- The loop over the types of section in `ParseSymtabFromSections`. -/
def parseTypes (shoff : Off) (shnum : BitVec 16) (requireSymtab : Bool)
    (symbols : List SymbolEntry) :
    List (BitVec 32) → Parsed
  | [] => some (false, symbols)
  | type :: types =>
    if requireSymtab ∧ type ≠ shtSymtab then parseTypes shoff shnum requireSymtab symbols types
    else do
      match ← findSection img shoff shnum type with
      | none => parseTypes shoff shnum requireSymtab symbols types
      | some i =>
        let link ← img.shLink (sectionAt shoff i)
        let tab ← sectionTable img (sectionAt shoff i) (sectionAt shoff link.toNat)
        returnNonempty (← appendSymbols img loadBias tab symbols)

/-- `ParseSymtabFromSections`. -/
def parseSymtabFromSections (requireSymtab : Bool) (symbols : List SymbolEntry) : Parsed := do
  let shoff ← img.eShoff
  let shnum ← img.eShnum
  if shoff = 0 ∨ shnum = 0 then return (false, symbols)
  else parseTypes img loadBias shoff shnum requireSymtab symbols [shtSymtab, shtDynsym]

/-- `ehdr->e_shoff + ehdr->e_shnum * ehdr->e_shentsize > size`. -/
def sectionsPast (size : Off) : Option Bool := do
  let shoff ← img.eShoff
  let shnum ← img.eShnum
  let shentsize ← img.eShentsize
  return shoff + shnum.setWidth 64 * shentsize.setWidth 64 > size

/-- `sh->sh_offset + sh->sh_size > size`. -/
def contentPast (sh size : Off) : Option Bool := do
  return (← img.shOffset sh) + (← img.shSize sh) > size

/-- `ParseSymtabFromMemory`. -/
def parseSymtabFromMemory (elfSize : Off) (symbols : List SymbolEntry) : Parsed := do
  let shoff ← img.eShoff
  let shnum ← img.eShnum
  if shoff = 0 ∨ shnum = 0 then return (false, symbols)
  else if ← sectionsPast img elfSize then return (false, symbols)
  else
    match ← findSection img shoff shnum shtSymtab with
    | none => return (false, symbols)
    | some i =>
      let link ← img.shLink (sectionAt shoff i)
      if link.toNat ≥ shnum.toNat then return (false, symbols)
      else if ← contentPast img (sectionAt shoff i) elfSize then return (false, symbols)
      else if ← contentPast img (sectionAt shoff link.toNat) elfSize then return (false, symbols)
      else
        let tab ← sectionTable img (sectionAt shoff i) (sectionAt shoff link.toNat)
        returnNonempty (← appendSymbols img loadBias tab symbols)

/-! ## `.gnu_debugdata` -/

/-- `".gnu_debugdata"`. -/
def gnuDebugdata : List (BitVec 8) :=
  [0x2e, 0x67, 0x6e, 0x75, 0x5f, 0x64, 0x65, 0x62, 0x75, 0x67, 0x64, 0x61, 0x74, 0x61]

/-- The loop that looks for the section `.gnu_debugdata`, by the names in the table at
`shstrtab`. -/
def findDebugdata (shoff : Off) (shnum : BitVec 16) (shstrtab : Off) : Option (Option ℕ) :=
  findRead (fun i => do
    let name ← img.shName (sectionAt shoff i)
    strEq (img.bytes.drop (shstrtab + name.setWidth 64).toNat) gnuDebugdata)
    (List.range shnum.toNat)

/-- What `ParseGnuDebugdata` does with the decompressed bytes: first their number is asked for, then
they are written to a buffer of that size. -/
def parseDecompressed (dec : Option (List (BitVec 8))) (symbols : List SymbolEntry) : Parsed :=
  match dec with
  | none => some (false, symbols)
  | some [] => some (false, symbols)
  | some data =>
    if data.length < Image.ehdrSize ∨ data.take 4 ≠ Image.elfMag then some (false, symbols)
    else parseSymtabFromMemory ⟨data⟩ loadBias (BitVec.ofNat 64 data.length) symbols

/-- `ParseGnuDebugdata`. -/
def parseGnuDebugdata (xzDecompress : List (BitVec 8) → Option (List (BitVec 8))) (fileSize : Off)
    (symbols : List SymbolEntry) : Parsed := do
  let shoff ← img.eShoff
  let shnum ← img.eShnum
  if shoff = 0 ∨ shnum = 0 then return (false, symbols)
  else if ← sectionsPast img fileSize then return (false, symbols)
  else
    let shstrndx ← img.eShstrndx
    if shstrndx ≥ shnum then return (false, symbols)
    else if ← contentPast img (sectionAt shoff shstrndx.toNat) fileSize then return (false, symbols)
    else
      let shstrtab ← img.shOffset (sectionAt shoff shstrndx.toNat)
      match ← findDebugdata img shoff shnum shstrtab with
      | none => return (false, symbols)
      | some i =>
        if ← contentPast img (sectionAt shoff i) fileSize then return (false, symbols)
        else
          let offset ← img.shOffset (sectionAt shoff i)
          let size ← img.shSize (sectionAt shoff i)
          let xzData ← img.slice offset size.toNat
          parseDecompressed loadBias (xzDecompress xzData) symbols

/-! ## The dynamic section -/

/-- The values of the tags that `ParseDynsymFromDynamic` looks for, `0` when absent. -/
structure DynTags where
  symtab : Off := 0
  strtab : Off := 0
  hash : Off := 0
  gnuHash : Off := 0
  deriving DecidableEq, Repr

/-- The offset of the first program header that passes a test. -/
def findSegment (p : Off → Option Bool) : Option (Option Off) := do
  let phnum ← img.ePhnum
  let phoff ← img.ePhoff
  let phentsize ← img.ePhentsize
  findRead p ((List.range phnum.toNat).map (segmentAt phoff phentsize))

/-- The program header `PT_DYNAMIC`. -/
def dynPhdr : Option (Option Off) :=
  findSegment img fun ph => do return (← img.pType ph) = ptDynamic

/-- The test of `vaddr_to_foff`: the segment is loaded and contains the address. -/
def loads (vaddr ph : Off) : Option Bool := do
  if (← img.pType ph) ≠ ptLoad then return false
  else if vaddr < (← img.pVaddr ph) then return false
  else return vaddr < (← img.pVaddr ph) + (← img.pMemsz ph)

/-- `vaddr_to_foff`. -/
def vaddrToFoff (vaddr : Off) : Option Off := do
  match ← findSegment img (loads img vaddr) with
  | none => return -1
  | some ph => return (← img.pOffset ph) + (vaddr - (← img.pVaddr ph))

/-- The loop over the entries of the dynamic section, for at most `n` of them. -/
def readTags : ℕ → Off → DynTags → Option DynTags
  | 0, _, _ => none
  | n + 1, d, tags => do
    let tag ← img.dTag d
    if tag = dtNull then return tags
    else if tag = dtSymtab then readTags n (d + 16) { tags with symtab := ← img.dUn d }
    else if tag = dtStrtab then readTags n (d + 16) { tags with strtab := ← img.dUn d }
    else if tag = dtHash then readTags n (d + 16) { tags with hash := ← img.dUn d }
    else if tag = dtGnuHash then readTags n (d + 16) { tags with gnuHash := ← img.dUn d }
    else readTags n (d + 16) tags

/-- The tags, if there is a dynamic section.  Each entry takes 16 bytes, so the loop leaves the
image after fewer steps than it has bytes, if not before. -/
def dynTags : Option (Option DynTags) := do
  match ← dynPhdr img with
  | none => return none
  | some ph => return some (← readTags img img.bytes.length (← img.pOffset ph) {})

/-- The walk along the chains of a GNU hash table, whose words are `word`: from the chain word with
index `i` on to the first odd one.  The index is a 32-bit number, so after `2 ^ 32` steps the walk
is back where it began. -/
def walkChain (word : ℕ → Option (BitVec 32)) (symOffset : BitVec 32) (chains : ℕ) :
    ℕ → BitVec 32 → Option (BitVec 32)
  | 0, _ => none
  | n + 1, i => do
    let chain ← word (chains + i.toNat)
    if chain &&& 1 ≠ 0 then return symOffset + i + 1 else walkChain word symOffset chains n (i + 1)

/-- The largest bucket. -/
def maxBucket (word : ℕ → Option (BitVec 32)) (buckets nbuckets : ℕ) : Option (BitVec 32) :=
  (List.range nbuckets).foldlM (fun maxSym i => do
    let bucket ← word (buckets + i)
    return if bucket > maxSym then bucket else maxSym) 0

/-- The number of symbols according to a GNU hash table with the words `word`; `0` stands for the
`return false` when all buckets are zero. -/
def gnuCount (word : ℕ → Option (BitVec 32)) : Option (BitVec 32) := do
  let nbuckets ← word 0
  let symOffset ← word 1
  let bloomSize ← word 2
  let buckets := 4 + bloomSize.toNat
  let chains := buckets + nbuckets.toNat
  let maxSym ← maxBucket word buckets nbuckets.toNat
  if maxSym = 0 then return 0 else walkChain word symOffset chains (2 ^ 32) (maxSym - symOffset)

/-- The 32-bit words from an offset on. -/
def wordsFrom (off : Off) (i : ℕ) : Option (BitVec 32) := img.u32 (off + BitVec.ofNat 64 (4 * i))

/-- `sym_count`. -/
def symCount (tags : DynTags) : Option (BitVec 32) := do
  if tags.hash ≠ 0 then
    let hashFoff ← vaddrToFoff img tags.hash
    if hashFoff.slt 0 then return 0 else wordsFrom img hashFoff 1
  else if tags.gnuHash ≠ 0 then
    let ghashFoff ← vaddrToFoff img tags.gnuHash
    if ghashFoff.slt 0 then return 0 else gnuCount (wordsFrom img ghashFoff)
  else return 0

/-- The symbol table that `ParseDynsymFromDynamic` goes through; `none` inside where it returns
false before. -/
def dynTable : Option (Option SymTable) := do
  match ← dynTags img with
  | none => return none
  | some tags =>
    if tags.symtab = 0 ∨ tags.strtab = 0 then return none
    else
      let symtabFoff ← vaddrToFoff img tags.symtab
      let strtabFoff ← vaddrToFoff img tags.strtab
      if symtabFoff.slt 0 ∨ strtabFoff.slt 0 then return none
      else
        let count ← symCount img tags
        if count = 0 then return none else return some ⟨symtabFoff, strtabFoff, count.toNat⟩

/-- `ParseDynsymFromDynamic`. -/
def parseDynsymFromDynamic (symbols : List SymbolEntry) : Parsed := do
  match ← dynTable img with
  | none => return (false, symbols)
  | some tab => returnNonempty (← appendSymbols img loadBias tab symbols)

/-! ## The four methods -/

/-- `if (!ok) ok = next()`. -/
def orTry (parsed : Parsed) (next : List SymbolEntry → Parsed) : Parsed := do
  let (ok, symbols) ← parsed
  if ok then return (ok, symbols) else next symbols

/-- `TryLoadFromFile`, with the mapped file, or `none` when it cannot be opened or mapped. -/
def tryLoadFromFile (xzDecompress : List (BitVec 8) → Option (List (BitVec 8)))
    (file : Option Image) (fileSize loadBias : Off) (symbols : List SymbolEntry) : Parsed :=
  match file with
  | none => some (false, symbols)
  | some img => do
    let ident ← img.slice 0 4
    if ident ≠ Image.elfMag then return (false, symbols)
    else
      let shoff ← img.eShoff
      let shnum ← img.eShnum
      let fromSections (requireSymtab : Bool) (symbols : List SymbolEntry) : Parsed :=
        if shoff > 0 ∧ shnum > 0 then parseSymtabFromSections img loadBias requireSymtab symbols
        else some (false, symbols)
      let parsed := fromSections true symbols
      let parsed := orTry parsed (parseGnuDebugdata img loadBias xzDecompress fileSize)
      let parsed := orTry parsed (fromSections false)
      orTry parsed (parseDynsymFromDynamic img loadBias)

end ElfSymbolResolver

end CalvinHook
