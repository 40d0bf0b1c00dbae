import Mathlib.Data.BitVec
import Mathlib.Data.List.Basic
import Mathlib.Data.Nat.Basic

/-!
# ELF64 images

An image is a list of bytes that can be read; an offset into it is a 64-bit number, with arithmetic
that wraps, as pointers into a mapped file do.  Every read may fail: `none` means that one of the
bytes does not exist.  The records of the format are given by readers for their fields at the offset
of the record, and by a structure that collects the fields.

* `Image.read`: little-endian reads, and `Image.add_le_of_read_eq_some`: they stay inside the image.
* `Image.cstr`: strings that end with a null byte.
* `Image.shdr?`, `Image.phdr?`, `Image.sym?`: section headers, program headers and symbols, each
  with the lemma that gives the fields (`shdr?_eq_some` and so on).
* `Image.shdrs`, `Image.phdrs`, `Image.dynEntries`: the tables.
* `fileOffset`: where an address of the loaded program stands in the file.
* `findRead`: a search through entries that have to be read, with `findRead_eq_none` and
  `exists_findRead`.
-/

namespace CalvinHook
namespace Elf

/-- An offset into an image. -/
abbrev Off := BitVec 64

/-- The bytes that can be read, from offset 0 on. -/
structure Image where
  bytes : List (BitVec 8)
  deriving DecidableEq

/-! ## Reads -/

/-- The little-endian value of the first `n` bytes. -/
def leValue : ℕ → List (BitVec 8) → Option ℕ
  | 0, _ => some 0
  | n + 1, b :: bs => (leValue n bs).map (b.toNat + 256 * ·)
  | _ + 1, [] => none

/-- The little-endian bytes of a number. -/
def leBytes : ℕ → ℕ → List (BitVec 8)
  | 0, _ => []
  | n + 1, k => BitVec.ofNat 8 k :: leBytes n (k / 256)

/-- The bytes of a sequence of fields, each given by its width and its value. -/
def leFields (fields : List (ℕ × ℕ)) : List (BitVec 8) := fields.flatMap fun f => leBytes f.1 f.2

/-- The bytes before the first null byte. -/
def untilNul : List (BitVec 8) → Option (List (BitVec 8))
  | [] => none
  | b :: bs => if b = 0 then some [] else (untilNul bs).map (b :: ·)

/-- `strcmp(s, lit) == 0`, for a literal without a null byte: the comparison stops at the first
difference. -/
def strEq : List (BitVec 8) → List (BitVec 8) → Option Bool
  | [], _ => none
  | b :: _, [] => some (b = 0)
  | b :: bs, c :: cs => if b = c then strEq bs cs else some false

theorem le_length_of_leValue {n k : ℕ} {bs : List (BitVec 8)} (h : leValue n bs = some k) :
    n ≤ bs.length := by
  induction n generalizing bs k with
  | zero => exact Nat.zero_le _
  | succ n ih =>
    cases bs with
    | nil => exact absurd h (by simp [leValue])
    | cons b bs =>
      obtain ⟨k', hk', -⟩ := Option.map_eq_some_iff.mp h
      exact Nat.succ_le_succ (ih hk')

theorem exists_leValue {n : ℕ} {bs : List (BitVec 8)} (h : n ≤ bs.length) :
    ∃ k, leValue n bs = some k := by
  induction n generalizing bs with
  | zero => exact ⟨0, rfl⟩
  | succ n ih =>
    cases bs with
    | nil => exact absurd h (by simp)
    | cons b bs =>
      obtain ⟨k, hk⟩ := ih (Nat.le_of_succ_le_succ h)
      exact ⟨b.toNat + 256 * k, by rw [leValue, hk, Option.map_some]⟩

/-- A comparison with a literal, of a string that ends. -/
theorem strEq_eq {bs s lit : List (BitVec 8)} (h : untilNul bs = some s) (hlit : 0 ∉ lit) :
    strEq bs lit = some (decide (s = lit)) := by
  induction bs generalizing s lit with
  | nil => exact absurd h (by simp [untilNul])
  | cons b bs ih =>
    rw [untilNul] at h
    split_ifs at h with hb
    · obtain rfl := Option.some.inj h
      subst hb
      cases lit with
      | nil => rfl
      | cons c cs =>
        have hc : (0 : BitVec 8) ≠ c := fun hc => hlit (by simp [hc])
        rw [strEq, if_neg hc]
        simp
    · obtain ⟨s', hs', rfl⟩ := Option.map_eq_some_iff.mp h
      cases lit with
      | nil => simpa [strEq] using hb
      | cons c cs =>
        rw [strEq]
        split_ifs with hc
        · rw [ih hs' (fun h => hlit (List.mem_cons_of_mem _ h))]
          simp [hc]
        · simp [hc]

namespace Image

variable (img : Image)

/-- The `n` bytes at an offset, as a little-endian number. -/
def read (off : Off) (n : ℕ) : Option (BitVec (8 * n)) :=
  (leValue n (img.bytes.drop off.toNat)).map (BitVec.ofNat (8 * n))

def u8 (off : Off) : Option (BitVec 8) := img.read off 1

def u16 (off : Off) : Option (BitVec 16) := img.read off 2

def u32 (off : Off) : Option (BitVec 32) := img.read off 4

def u64 (off : Off) : Option (BitVec 64) := img.read off 8

/-- The string at an offset. -/
def cstr (off : Off) : Option (List (BitVec 8)) := untilNul (img.bytes.drop off.toNat)

/-- The bytes of a part of the image. -/
def slice (off : Off) (n : ℕ) : Option (List (BitVec 8)) :=
  if off.toNat + n ≤ img.bytes.length then some ((img.bytes.drop off.toNat).take n) else none

theorem add_le_of_read_eq_some {img : Image} {off : Off} {n : ℕ} {v : BitVec (8 * n)}
    (h : img.read off n = some v) (hn : 0 < n) : off.toNat + n ≤ img.bytes.length := by
  obtain ⟨k, hk, -⟩ := Option.map_eq_some_iff.mp h
  have hlen := le_length_of_leValue hk
  rw [List.length_drop] at hlen
  omega

theorem exists_read {img : Image} {off : Off} {n : ℕ} (h : off.toNat + n ≤ img.bytes.length) :
    ∃ v, img.read off n = some v := by
  have hlen : n ≤ (img.bytes.drop off.toNat).length := by
    rw [List.length_drop]
    omega
  obtain ⟨k, hk⟩ := exists_leValue hlen
  exact ⟨BitVec.ofNat (8 * n) k, by rw [read, hk, Option.map_some]⟩

/-! ## The file header -/

/-- `ELFMAG`. -/
def elfMag : List (BitVec 8) := [0x7f, 0x45, 0x4c, 0x46]

/-- `sizeof(Elf64_Ehdr)`. -/
def ehdrSize : ℕ := 64

def ePhoff : Option Off := img.u64 32

def eShoff : Option Off := img.u64 40

def ePhentsize : Option (BitVec 16) := img.u16 54

def ePhnum : Option (BitVec 16) := img.u16 56

def eShentsize : Option (BitVec 16) := img.u16 58

def eShnum : Option (BitVec 16) := img.u16 60

def eShstrndx : Option (BitVec 16) := img.u16 62

end Image

/-! ## Section headers -/

/-- `Elf64_Shdr`, without the fields that say how a section is loaded. -/
structure Shdr where
  name : BitVec 32
  type : BitVec 32
  offset : Off
  size : Off
  link : BitVec 32
  entsize : Off
  deriving DecidableEq, Repr

/-- `SHT_SYMTAB`. -/
def shtSymtab : BitVec 32 := 2

/-- `SHT_DYNSYM`. -/
def shtDynsym : BitVec 32 := 11

/-- The offset of the section header with index `i`. -/
def sectionAt (shoff : Off) (i : ℕ) : Off := shoff + BitVec.ofNat 64 (64 * i)

/-! ## Program headers -/

/-- `Elf64_Phdr`, with the fields that locate a segment. -/
structure Phdr where
  type : BitVec 32
  offset : Off
  vaddr : Off
  memsz : Off
  deriving DecidableEq, Repr

/-- `PT_LOAD`. -/
def ptLoad : BitVec 32 := 1

/-- `PT_DYNAMIC`. -/
def ptDynamic : BitVec 32 := 2

/-- The offset of the program header with index `i`. -/
def segmentAt (phoff : Off) (phentsize : BitVec 16) (i : ℕ) : Off :=
  phoff + BitVec.ofNat 64 (i * phentsize.toNat)

/-! ## Symbols -/

/-- `Elf64_Sym`, without visibility and size. -/
structure Sym where
  name : BitVec 32
  info : BitVec 8
  shndx : BitVec 16
  value : Off
  deriving DecidableEq, Repr

/-- `STT_NOTYPE`. -/
def sttNotype : BitVec 8 := 0

/-- `STT_OBJECT`. -/
def sttObject : BitVec 8 := 1

/-- `STT_FUNC`. -/
def sttFunc : BitVec 8 := 2

/-- `SHN_UNDEF`. -/
def shnUndef : BitVec 16 := 0

/-- A symbol table together with the table of its names. -/
structure SymTable where
  syms : Off
  strtab : Off
  count : ℕ
  deriving DecidableEq, Repr

/-- The offset of the symbol with index `i`. -/
def SymTable.entry (tab : SymTable) (i : ℕ) : Off := tab.syms + BitVec.ofNat 64 (24 * i)

/-! ## The dynamic section -/

/-- `Elf64_Dyn`. -/
structure Dyn where
  tag : Off
  un : Off
  deriving DecidableEq, Repr

/-- `DT_NULL`. -/
def dtNull : Off := 0

/-- `DT_HASH`. -/
def dtHash : Off := 4

/-- `DT_STRTAB`. -/
def dtStrtab : Off := 5

/-- `DT_SYMTAB`. -/
def dtSymtab : Off := 6

/-- `DT_GNU_HASH`. -/
def dtGnuHash : Off := 0x6ffffef5

namespace Image

variable (img : Image)

def shName (sh : Off) : Option (BitVec 32) := img.u32 sh

def shType (sh : Off) : Option (BitVec 32) := img.u32 (sh + 4)

def shOffset (sh : Off) : Option Off := img.u64 (sh + 24)

def shSize (sh : Off) : Option Off := img.u64 (sh + 32)

def shLink (sh : Off) : Option (BitVec 32) := img.u32 (sh + 40)

def shEntsize (sh : Off) : Option Off := img.u64 (sh + 56)

def pType (ph : Off) : Option (BitVec 32) := img.u32 ph

def pOffset (ph : Off) : Option Off := img.u64 (ph + 8)

def pVaddr (ph : Off) : Option Off := img.u64 (ph + 16)

def pMemsz (ph : Off) : Option Off := img.u64 (ph + 40)

def stName (sym : Off) : Option (BitVec 32) := img.u32 sym

def stInfo (sym : Off) : Option (BitVec 8) := img.u8 (sym + 4)

def stShndx (sym : Off) : Option (BitVec 16) := img.u16 (sym + 6)

def stValue (sym : Off) : Option Off := img.u64 (sym + 8)

def dTag (d : Off) : Option Off := img.u64 d

def dUn (d : Off) : Option Off := img.u64 (d + 8)

/-- The section header at an offset. -/
def shdr? (sh : Off) : Option Shdr := do
  let name ← img.shName sh
  let type ← img.shType sh
  let offset ← img.shOffset sh
  let size ← img.shSize sh
  let link ← img.shLink sh
  let entsize ← img.shEntsize sh
  return ⟨name, type, offset, size, link, entsize⟩

/-- The program header at an offset. -/
def phdr? (ph : Off) : Option Phdr := do
  let type ← img.pType ph
  let offset ← img.pOffset ph
  let vaddr ← img.pVaddr ph
  let memsz ← img.pMemsz ph
  return ⟨type, offset, vaddr, memsz⟩

/-- The symbol at an offset. -/
def sym? (sym : Off) : Option Sym := do
  let name ← img.stName sym
  let info ← img.stInfo sym
  let shndx ← img.stShndx sym
  let value ← img.stValue sym
  return ⟨name, info, shndx, value⟩

section Fields

variable {img} {off : Off}

theorem shdr?_eq_some {s : Shdr} : img.shdr? off = some s ↔
    img.shName off = some s.name ∧ img.shType off = some s.type ∧ img.shOffset off = some s.offset ∧
      img.shSize off = some s.size ∧ img.shLink off = some s.link ∧
      img.shEntsize off = some s.entsize := by
  obtain ⟨name, type, offset, size, link, entsize⟩ := s
  simp [shdr?, Option.bind_eq_some_iff]

theorem phdr?_eq_some {p : Phdr} : img.phdr? off = some p ↔
    img.pType off = some p.type ∧ img.pOffset off = some p.offset ∧ img.pVaddr off = some p.vaddr ∧
      img.pMemsz off = some p.memsz := by
  obtain ⟨type, offset, vaddr, memsz⟩ := p
  simp [phdr?, Option.bind_eq_some_iff]

theorem sym?_eq_some {s : Sym} : img.sym? off = some s ↔
    img.stName off = some s.name ∧ img.stInfo off = some s.info ∧ img.stShndx off = some s.shndx ∧
      img.stValue off = some s.value := by
  obtain ⟨name, info, shndx, value⟩ := s
  simp [sym?, Option.bind_eq_some_iff]

end Fields

end Image

/-! ## Tables -/

section Tables

variable {α : Type}

/-- The first `n` entries of a table. -/
def readAll (f : ℕ → Option α) : ℕ → Option (List α)
  | 0 => some []
  | n + 1 => do
    let as ← readAll f n
    return as ++ [← f n]

theorem readAll_succ_eq_some {f : ℕ → Option α} {n : ℕ} {as : List α} :
    readAll f (n + 1) = some as ↔ ∃ as' a, readAll f n = some as' ∧ f n = some a ∧
      as = as' ++ [a] := by
  simp only [readAll, Option.bind_eq_bind, Option.pure_def, Option.bind_eq_some_iff,
    Option.some.injEq]
  constructor
  · rintro ⟨as', h, a, ha, rfl⟩
    exact ⟨as', a, h, ha, rfl⟩
  · rintro ⟨as', a, h, ha, rfl⟩
    exact ⟨as', h, a, ha, rfl⟩

theorem length_of_readAll {f : ℕ → Option α} {n : ℕ} {as : List α} (h : readAll f n = some as) :
    as.length = n := by
  induction n generalizing as with
  | zero =>
    obtain rfl := Option.some.inj h
    rfl
  | succ n ih =>
    obtain ⟨as', a, h', -, rfl⟩ := readAll_succ_eq_some.mp h
    rw [List.length_append, ih h']
    rfl

/-- The entries of the table. -/
theorem getElem?_of_readAll {f : ℕ → Option α} {n i : ℕ} {as : List α} (h : readAll f n = some as)
    (hi : i < n) : f i = as[i]? := by
  induction n generalizing as with
  | zero => exact absurd hi (Nat.not_lt_zero i)
  | succ n ih =>
    obtain ⟨as', a, h', ha, rfl⟩ := readAll_succ_eq_some.mp h
    have hlen := length_of_readAll h'
    rcases Nat.lt_succ_iff_lt_or_eq.mp hi with hlt | rfl
    · rw [List.getElem?_append_left (by omega)]
      exact ih h' hlt
    · rw [ha, ← hlen, List.getElem?_concat_length]

theorem readAll_eq_some {f : ℕ → Option α} {g : ℕ → α} {n : ℕ} (h : ∀ i < n, f i = some (g i)) :
    readAll f n = some ((List.range n).map g) := by
  induction n with
  | zero => rfl
  | succ n ih =>
    rw [readAll_succ_eq_some]
    refine ⟨_, _, ih fun i hi => h i (by omega), h n (by omega), ?_⟩
    rw [List.range_succ, List.map_append]
    rfl

/-- The first element that passes a test which may fail to read. -/
def findRead (p : α → Option Bool) : List α → Option (Option α)
  | [] => some none
  | a :: as => do
    if ← p a then return some a else findRead p as

theorem findRead_cons {p : α → Option Bool} {a : α} {as : List α} {b : Bool} (h : p a = some b) :
    findRead p (a :: as) = if b then some (some a) else findRead p as := by
  rw [findRead, h]
  cases b <;> rfl

/-- No element passes the test. -/
theorem findRead_eq_some_none {p : α → Option Bool} {as : List α} :
    findRead p as = some none ↔ ∀ a ∈ as, p a = some false := by
  induction as with
  | nil => simp [findRead]
  | cons a as ih =>
    rw [List.forall_mem_cons, ← ih]
    cases hp : p a with
    | none => simp [findRead, hp]
    | some b =>
      rw [findRead_cons hp]
      cases b <;> simp

theorem findRead_map {β : Type} (f : α → β) (p : β → Option Bool) (as : List α) :
    findRead p (as.map f) = (findRead (fun a => p (f a)) as).map (Option.map f) := by
  induction as with
  | nil => rfl
  | cons a as ih =>
    rw [List.map_cons, findRead, findRead]
    cases p (f a) with
    | none => rfl
    | some b =>
      cases b with
      | true => rfl
      | false => exact ih

/-- An index in the rest of a table, counted from the start of the table. -/
theorem map_succ_eq_some_some {o : Option (Option ℕ)} {i : ℕ} :
    o.map (Option.map Nat.succ) = some (some (i + 1)) ↔ o = some (some i) := by
  rcases o with _ | _ | j
  · simp
  · simp
  · simp

theorem map_succ_ne_some_zero {o : Option (Option ℕ)} :
    o.map (Option.map Nat.succ) ≠ some (some 0) := by
  rcases o with _ | _ | j
  · simp
  · simp
  · simp

/-- The first index that passes the test. -/
theorem findRead_range_eq_some_some {p : ℕ → Option Bool} {n i : ℕ} :
    findRead p (List.range n) = some (some i) ↔ i < n ∧ (∀ j < i, p j = some false) ∧
      p i = some true := by
  induction n generalizing p i with
  | zero => simp [findRead]
  | succ n ih =>
    rw [List.range_succ_eq_map]
    cases hp : p 0 with
    | none =>
      refine iff_of_false (by simp [findRead, hp]) ?_
      rintro ⟨-, hlt, hi⟩
      cases i with
      | zero => exact absurd (hp.symm.trans hi) (by simp)
      | succ i => exact absurd (hp.symm.trans (hlt 0 (Nat.succ_pos i))) (by simp)
    | some b =>
      rw [findRead_cons hp, findRead_map]
      cases b with
      | true =>
        cases i with
        | zero => simp [hp]
        | succ i =>
          refine iff_of_false (by simp) ?_
          rintro ⟨-, hlt, -⟩
          exact absurd (hp.symm.trans (hlt 0 (Nat.succ_pos i))) (by simp)
      | false =>
        rw [if_neg (by simp)]
        cases i with
        | zero =>
          exact iff_of_false map_succ_ne_some_zero fun h => absurd (hp.symm.trans h.2.2) (by simp)
        | succ i =>
          rw [map_succ_eq_some_some, ih, Nat.succ_lt_succ_iff, Nat.forall_lt_succ_left]
          simp [hp]

/-- A search through the indices of a table, by the entries. -/
theorem findRead_range {p : ℕ → Option Bool} {q : α → Bool} {as : List α}
    (h : ∀ i a, as[i]? = some a → p i = some (q a)) :
    findRead p (List.range as.length) = some (as.findIdx? q) := by
  induction as generalizing p with
  | nil => rfl
  | cons a as ih =>
    rw [List.length_cons, List.range_succ_eq_map, findRead_cons (h 0 a rfl), findRead_map,
      ih fun i b hb => h (i + 1) b hb, List.findIdx?_cons]
    cases q a <;> rfl

section Search

variable {f : ℕ → Option α} {n : ℕ} {as : List α} {p : ℕ → Option Bool} {q : α → Bool}

theorem getElem?_eq_of_readAll (h : readAll f n = some as) {i : ℕ} {a : α} (ha : as[i]? = some a) :
    f i = some a := by
  have hi : i < n := length_of_readAll h ▸ (List.getElem?_eq_some_iff.mp ha).1
  rw [getElem?_of_readAll h hi, ha]

/-- The search through a table that has been read. -/
theorem findRead_of_readAll (h : readAll f n = some as)
    (hp : ∀ i, ∀ a ∈ as, f i = some a → p i = some (q a)) :
    findRead p (List.range n) = some (as.findIdx? q) := by
  rw [← length_of_readAll h]
  exact findRead_range fun i a ha => hp i a (List.mem_of_getElem? ha) (getElem?_eq_of_readAll h ha)

theorem findRead_eq_none (h : readAll f n = some as)
    (hp : ∀ i, ∀ a ∈ as, f i = some a → p i = some (q a)) (hfind : as.find? q = none) :
    findRead p (List.range n) = some none := by
  rw [findRead_of_readAll h hp, List.findIdx?_eq_none_iff.mpr]
  simpa using hfind

theorem exists_findRead (h : readAll f n = some as)
    (hp : ∀ i, ∀ a ∈ as, f i = some a → p i = some (q a)) {a : α} (hfind : as.find? q = some a) :
    ∃ i, findRead p (List.range n) = some (some i) ∧ as[i]? = some a := by
  rw [List.find?_eq_bind_findIdx?_getElem?, Option.bind_eq_some_iff] at hfind
  obtain ⟨i, hi, ha⟩ := hfind
  exact ⟨i, by rw [findRead_of_readAll h hp, hi], ha⟩

end Search

end Tables

namespace Image

variable (img : Image)

/-- The section headers. -/
def shdrs : Option (List Shdr) := do
  let shoff ← img.eShoff
  let shnum ← img.eShnum
  if shoff = 0 then return []
  else readAll (fun i => img.shdr? (sectionAt shoff i)) shnum.toNat

/-- The program headers. -/
def phdrs : Option (List Phdr) := do
  let phoff ← img.ePhoff
  let phnum ← img.ePhnum
  let phentsize ← img.ePhentsize
  readAll (fun i => img.phdr? (segmentAt phoff phentsize i)) phnum.toNat

/-- The entries of the dynamic section before the one with the tag `DT_NULL`. -/
def dynEntries : ℕ → Off → Option (List Dyn)
  | 0, _ => none
  | n + 1, d => do
    let tag ← img.dTag d
    if tag = dtNull then return []
    else
      let un ← img.dUn d
      return ⟨tag, un⟩ :: (← dynEntries n (d + 16))

end Image

/-! ## Symbol tables -/

namespace Image

/-- The entries of a symbol table and their names can be read. -/
def HasTable (img : Image) (tab : SymTable) : Prop :=
  ∀ i < tab.count, ∃ s name, img.sym? (tab.entry i) = some s ∧
    img.cstr (tab.strtab + s.name.setWidth 64) = some name

/-- The symbol table of a section, with the names in the section it is linked to. -/
def tableOf (ss : List Shdr) (s : Shdr) : Option SymTable :=
  ss[s.link.toNat]?.map fun str => ⟨s.offset, str.offset, s.size.toNat / s.entsize.toNat⟩

/-- The symbol table of the first section of a type. -/
def symTable? (img : Image) (type : BitVec 32) : Option SymTable := do
  let ss ← img.shdrs
  let s ← ss.find? (·.type = type)
  tableOf ss s

end Image

/-- The content of a section lies within the first `size` bytes. -/
def Shdr.InFile (s : Shdr) (size : Off) : Prop := s.offset.toNat + s.size.toNat ≤ size.toNat

instance (s : Shdr) (size : Off) : Decidable (s.InFile size) := inferInstanceAs (Decidable (_ ≤ _))

/-- A section with a symbol table in a file of `size` bytes: its entries have the size of a symbol,
it lies in the file, and so do the names it is linked to. -/
structure Image.ValidSymtab (img : Image) (size : Off) (ss : List Shdr) (s : Shdr) : Prop where
  entsize : s.entsize = 24
  inFile : s.InFile size
  names : ∃ str tab, ss[s.link.toNat]? = some str ∧ str.InFile size ∧
    Image.tableOf ss s = some tab ∧
    img.HasTable tab

/-- The section headers of a well-formed file of `size` bytes: the table lies in the file, and so do
the symbol tables and their names. -/
structure Image.ValidSections (img : Image) (size : Off) (ss : List Shdr) : Prop where
  size_le : size.toNat ≤ img.bytes.length
  size_ge : Image.ehdrSize ≤ size.toNat
  shdrs_eq : img.shdrs = some ss
  table : ss ≠ [] → img.eShentsize = some 64 ∧
    ∃ shoff, img.eShoff = some shoff ∧ shoff.toNat + 64 * ss.length ≤ size.toNat
  symtab : ∀ s ∈ ss, s.type = shtSymtab ∨ s.type = shtDynsym →
    s.entsize = 24 ∧ s.InFile size ∧
      ∃ str tab, ss[s.link.toNat]? = some str ∧ str.InFile size ∧ Image.tableOf ss s = some tab ∧
        img.HasTable tab

theorem Image.ValidSections.validSymtab {img : Image} {size : Off} {ss : List Shdr} {s : Shdr}
    (h : img.ValidSections size ss) (hs : s ∈ ss)
    (htype : s.type = shtSymtab ∨ s.type = shtDynsym) :
    img.ValidSymtab size ss s :=
  ⟨(h.symtab s hs htype).1, (h.symtab s hs htype).2.1, (h.symtab s hs htype).2.2⟩

/-- The segment is loaded and contains the address. -/
def Phdr.Contains (p : Phdr) (vaddr : Off) : Prop :=
  p.type = ptLoad ∧ p.vaddr.toNat ≤ vaddr.toNat ∧ vaddr.toNat < p.vaddr.toNat + p.memsz.toNat

instance (p : Phdr) (vaddr : Off) : Decidable (p.Contains vaddr) :=
  inferInstanceAs (Decidable (_ ∧ _ ∧ _))

/-- The value of a tag in the dynamic section. -/
def tagValue (es : List Dyn) (tag : Off) : Option Off := (es.find? (·.tag = tag)).map Dyn.un

/-- The offset in the file of what is loaded at an address. -/
def fileOffset (phs : List Phdr) (vaddr : Off) : Option Off :=
  (phs.find? (·.Contains vaddr)).map fun p => p.offset + (vaddr - p.vaddr)

end Elf
end CalvinHook
