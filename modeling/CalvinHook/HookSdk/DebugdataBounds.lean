import CalvinHook.HookSdk.SymbolTables

/-!
# `elf_symbol_resolver.cpp`: `ParseSymtabFromMemory` on arbitrary bytes

The decompressed file comes from outside, and `ParseSymtabFromMemory` checks it before it follows
its offsets: the table of section headers, the symbol table and the table of names have to end
within the buffer.  The checks do not cover the reads.  They are made with the sizes that the file
gives (`e_shentsize`, `sh_size`) while the tables are indexed with the sizes of the structures;
their sums wrap; and neither the quotient by `sh_entsize` nor the end of a name is checked at all.

* `Buffer`: the bytes that `ParseGnuDebugdata` hands over.
* `EntryBounded`, `SymtabBounded`, `Buffer.Bounded`: everything that is read exists.
* `Buffer.parse_isSome_iff`: these are the buffers on which the parser reads nothing else and does
  not divide by zero.
-/

namespace CalvinHook

open Elf

namespace ElfSymbolResolver

/-! ## What is read -/

section Bounded

variable (img : Image) (size shoff : Off) (shnum : BitVec 16)

/-- The fields of a symbol that the loop reads exist, and if it reads the name, that ends. -/
def EntryBounded (tab : SymTable) (i : ℕ) : Prop :=
  ∃ value, img.stValue (tab.entry i) = some value ∧ (value = 0 ∨
    ∃ shndx, img.stShndx (tab.entry i) = some shndx ∧ (shndx = shnUndef ∨
      ∃ info, img.stInfo (tab.entry i) = some info ∧
      (info &&& 0xf ∉ [sttNotype, sttObject, sttFunc] ∨
        ∃ stName, img.stName (tab.entry i) = some stName ∧
          ∃ name, img.cstr (tab.strtab + stName.setWidth 64) = some name)))

/-- The fields of the section header `i` that are read exist, and those of the section with the
names; unless the section is rejected, its entries have a size and are bounded. -/
def SymtabBounded (i : ℕ) : Prop :=
  ∃ link, img.shLink (sectionAt shoff i) = some link ∧ (shnum.toNat ≤ link.toNat ∨
    ∃ offset, img.shOffset (sectionAt shoff i) = some offset ∧
      ∃ content, img.shSize (sectionAt shoff i) = some content ∧ (offset + content > size ∨
        ∃ strOffset, img.shOffset (sectionAt shoff link.toNat) = some strOffset ∧
          ∃ strSize, img.shSize (sectionAt shoff link.toNat) = some strSize ∧
          (strOffset + strSize > size ∨
            ∃ entsize, img.shEntsize (sectionAt shoff i) = some entsize ∧ entsize ≠ 0 ∧
              ∀ j < (content / entsize).toNat,
                EntryBounded img ⟨offset, strOffset, (content / entsize).toNat⟩ j)))

/-- The types of the section headers exist up to the first `SHT_SYMTAB`, and that section is
bounded. -/
def SectionsBounded : Prop :=
  (∀ i < shnum.toNat, ∃ type, img.shType (sectionAt shoff i) = some type ∧ type ≠ shtSymtab) ∨
    ∃ i < shnum.toNat, (∀ j < i, ∃ type, img.shType (sectionAt shoff j) = some type ∧
      type ≠ shtSymtab) ∧
      img.shType (sectionAt shoff i) = some shtSymtab ∧ SymtabBounded img size shoff shnum i

end Bounded

/-! ## Which reads succeed -/

section Reads

variable {α β : Type} {img : Image} {size loadBias shoff : Off} {shnum : BitVec 16}

theorem isSome_bind_iff {x : Option α} {f : α → Option β} :
    (x.bind f).isSome ↔ ∃ a, x = some a ∧ (f a).isSome := by
  cases x <;> simp

theorem isSome_ite_some_iff {c : Prop} [Decidable c] {a : α} {x : Option α} :
    (if c then some a else x).isSome ↔ c ∨ x.isSome := by
  split_ifs with hc <;> simp [hc]

/-- The test for an empty name reads no more than the name. -/
theorem exists_u8_iff {off : Off} :
    (∃ first, img.u8 off = some first ∧ (first = 0 ∨ ∃ name, img.cstr off = some name)) ↔
      ∃ name, img.cstr off = some name := by
  constructor
  · rintro ⟨first, hfirst, rfl | hname⟩
    · rw [Image.u8, Image.read] at hfirst
      rw [Image.cstr]
      cases hbs : img.bytes.drop off.toNat with
      | nil =>
        rw [hbs] at hfirst
        exact absurd hfirst (by simp [leValue])
      | cons b bs =>
        rw [hbs] at hfirst
        have hb : b = 0 := by simpa [leValue] using hfirst
        exact ⟨[], if_pos hb⟩
    · exact hname
  · rintro ⟨name, hname⟩
    obtain ⟨first, hfirst, -⟩ := u8_of_cstr hname
    exact ⟨first, hfirst, .inr ⟨name, hname⟩⟩

theorem isSome_symbolAt_iff {tab : SymTable} {i : ℕ} :
    (symbolAt img loadBias tab i).isSome ↔ EntryBounded img tab i := by
  have htype : ∀ info : BitVec 8, (info &&& 0xf ≠ sttFunc ∧ info &&& 0xf ≠ sttObject ∧
      info &&& 0xf ≠ sttNotype) ↔ info &&& 0xf ∉ [sttNotype, sttObject, sttFunc] := by
    intro info
    simp only [List.mem_cons, List.not_mem_nil, or_false, not_or]
    tauto
  simp only [symbolAt, Option.bind_eq_bind, Option.pure_def, isSome_bind_iff, isSome_ite_some_iff,
    Option.isSome_some, and_true, exists_u8_iff, htype, EntryBounded]

theorem isSome_readAll_iff {f : ℕ → Option α} {n : ℕ} :
    (readAll f n).isSome ↔ ∀ i < n, (f i).isSome := by
  induction n with
  | zero => simp [readAll]
  | succ n ih =>
    rw [Nat.forall_lt_succ_right, ← ih, readAll, Option.bind_eq_bind, isSome_bind_iff]
    cases readAll f n <;> cases f n <;> simp

theorem isSome_appendSymbols_iff {tab : SymTable} {symbols : List SymbolEntry} :
    (appendSymbols img loadBias tab symbols).isSome ↔ ∀ i < tab.count, EntryBounded img tab i := by
  rw [appendSymbols_eq_map, Option.isSome_map, isSome_readAll_iff]
  simp only [isSome_symbolAt_iff]

theorem isSome_bind_returnNonempty {x : Option (List SymbolEntry)} :
    (x.bind returnNonempty).isSome ↔ x.isSome := by
  cases x <;> simp [returnNonempty]

/-- The test of the search for `.symtab`. -/
theorem typeTest_eq_some_iff {i : ℕ} {b : Bool} :
    ((do return (← img.shType (sectionAt shoff i)) = shtSymtab : Option Bool) = some b) ↔
      ∃ type, img.shType (sectionAt shoff i) = some type ∧ decide (type = shtSymtab) = b := by
  cases img.shType (sectionAt shoff i) <;> simp

/-- The test of the content of a section, and what follows it. -/
theorem isSome_unlessPast_iff {sh : Off} {a : α} {x : Option α} :
    ((contentPast img sh size).bind fun past => if past = true then some a else x).isSome ↔
      ∃ offset, img.shOffset sh = some offset ∧ ∃ content, img.shSize sh = some content ∧
        (offset + content > size ∨ x.isSome) := by
  simp only [contentPast, Option.bind_eq_bind, Option.pure_def, Option.bind_assoc, Option.bind_some,
    isSome_bind_iff, isSome_ite_some_iff, decide_eq_true_eq]

/-- The table of a section whose offset and size have been read, and what follows. -/
theorem isSome_bind_sectionTable_iff {symSh strSh offset content strOffset : Off}
    {f : SymTable → Option α} (hoffset : img.shOffset symSh = some offset)
    (hcontent : img.shSize symSh = some content) (hstr : img.shOffset strSh = some strOffset) :
    ((sectionTable img symSh strSh).bind f).isSome ↔ ∃ entsize, img.shEntsize symSh = some entsize ∧
      entsize ≠ 0 ∧ (f ⟨offset, strOffset, (content / entsize).toNat⟩).isSome := by
  simp only [sectionTable, hoffset, hcontent, hstr, Option.bind_eq_bind, Option.bind_some,
    Option.bind_assoc, isSome_bind_iff]
  refine exists_congr fun entsize => and_congr_right fun _ => ?_
  by_cases hzero : entsize = 0
  · rw [if_pos hzero]
    simp [hzero]
  · rw [if_neg hzero, and_iff_right hzero]
    simp

/-- The part of the parser that a section with a symbol table reaches. -/
theorem isSome_parseSection_iff {i : ℕ} {symbols : List SymbolEntry} :
    ((img.shLink (sectionAt shoff i)).bind fun link =>
      if link.toNat ≥ shnum.toNat then some (false, symbols)
      else (contentPast img (sectionAt shoff i) size).bind fun past =>
        if past = true then some (false, symbols)
        else (contentPast img (sectionAt shoff link.toNat) size).bind fun past =>
          if past = true then some (false, symbols)
          else (sectionTable img (sectionAt shoff i) (sectionAt shoff link.toNat)).bind fun tab =>
            (appendSymbols img loadBias tab symbols).bind returnNonempty).isSome ↔
      SymtabBounded img size shoff shnum i := by
  rw [SymtabBounded, isSome_bind_iff]
  refine exists_congr fun link => and_congr_right fun _ => ?_
  rw [isSome_ite_some_iff, isSome_unlessPast_iff]
  refine or_congr_right (exists_congr fun offset => and_congr_right fun hoffset => ?_)
  refine exists_congr fun content => and_congr_right fun hcontent => ?_
  rw [isSome_unlessPast_iff]
  refine or_congr_right (exists_congr fun strOffset => and_congr_right fun hstr => ?_)
  refine exists_congr fun strSize => and_congr_right fun _ => ?_
  rw [isSome_bind_sectionTable_iff hoffset hcontent hstr]
  refine or_congr_right
    (exists_congr fun entsize => and_congr_right fun _ => and_congr_right fun _ => ?_)
  rw [isSome_bind_returnNonempty, isSome_appendSymbols_iff]

/-- The search for `.symtab`, and what follows it. -/
theorem isSome_bind_findSection_iff {f : Option ℕ → Option α} (hnone : (f none).isSome) :
    ((findSection img shoff shnum shtSymtab).bind f).isSome ↔
      (∀ i < shnum.toNat, ∃ type, img.shType (sectionAt shoff i) = some type ∧ type ≠ shtSymtab) ∨
        ∃ i < shnum.toNat, (∀ j < i, ∃ type, img.shType (sectionAt shoff j) = some type ∧
          type ≠ shtSymtab) ∧
          img.shType (sectionAt shoff i) = some shtSymtab ∧ (f (some i)).isSome := by
  have hall : findSection img shoff shnum shtSymtab = some none ↔
      ∀ i < shnum.toNat, ∃ type, img.shType (sectionAt shoff i) = some type ∧ type ≠ shtSymtab := by
    simp only [findSection, findRead_eq_some_none, List.mem_range, typeTest_eq_some_iff,
      decide_eq_false_iff_not, ne_eq]
  have hfirst : ∀ i, findSection img shoff shnum shtSymtab = some (some i) ↔ i < shnum.toNat ∧
      (∀ j < i, ∃ type, img.shType (sectionAt shoff j) = some type ∧ type ≠ shtSymtab) ∧
        img.shType (sectionAt shoff i) = some shtSymtab := by
    intro i
    simp only [findSection, findRead_range_eq_some_some, typeTest_eq_some_iff,
      decide_eq_false_iff_not, decide_eq_true_eq, exists_eq_right, ne_eq]
  rw [isSome_bind_iff]
  constructor
  · rintro ⟨r, hr, hf⟩
    cases r with
    | none => exact .inl (hall.mp hr)
    | some i =>
      obtain ⟨hi, hbefore, htype⟩ := (hfirst i).mp hr
      exact .inr ⟨i, hi, hbefore, htype, hf⟩
  · rintro (h | ⟨i, hi, hbefore, htype, hf⟩)
    · exact ⟨none, hall.mpr h, hnone⟩
    · exact ⟨some i, (hfirst i).mpr ⟨hi, hbefore, htype⟩, hf⟩

end Reads

/-! ## Buffers -/

/-- The bytes that `ParseGnuDebugdata` hands to `ParseSymtabFromMemory`: at least a file header. -/
structure Buffer where
  img : Image
  ehdr : Image.ehdrSize ≤ img.bytes.length
  lt : img.bytes.length < 2 ^ 64

namespace Buffer

variable (b : Buffer)

/-- `elf_size`. -/
def size : Off := BitVec.ofNat 64 b.img.bytes.length

theorem exists_header (off : Off) (n : ℕ) (h : off.toNat + n ≤ Image.ehdrSize) :
    ∃ v, b.img.read off n = some v :=
  Image.exists_read (h.trans b.ehdr)

/-- **The condition on the bytes**: there are no section headers, or they are rejected, or all that
is read exists. -/
def Bounded : Prop :=
  ∃ shoff shnum shentsize, b.img.eShoff = some shoff ∧ b.img.eShnum = some shnum ∧
    b.img.eShentsize = some shentsize ∧
      (shoff = 0 ∨ shnum = 0 ∨ shoff + shnum.setWidth 64 * shentsize.setWidth 64 > b.size ∨
        SectionsBounded b.img b.size shoff shnum)

/-- **`ParseSymtabFromMemory` on any bytes.**  It reads nothing outside the buffer and does not
divide by zero exactly under the condition. -/
theorem parse_isSome_iff (loadBias : Off) (symbols : List SymbolEntry) :
    (parseSymtabFromMemory b.img loadBias b.size symbols).isSome ↔ b.Bounded := by
  obtain ⟨shoff, hoff⟩ : ∃ shoff, b.img.eShoff = some shoff := b.exists_header 40 8 (by decide)
  obtain ⟨shnum, hnum⟩ : ∃ shnum, b.img.eShnum = some shnum := b.exists_header 60 2 (by decide)
  obtain ⟨shentsize, hent⟩ : ∃ shentsize, b.img.eShentsize = some shentsize :=
    b.exists_header 58 2 (by decide)
  have hpast : sectionsPast b.img b.size =
      some (decide (shoff + shnum.setWidth 64 * shentsize.setWidth 64 > b.size)) := by
    simp only [sectionsPast, hoff, hnum, hent, Option.bind_eq_bind, Option.bind_some,
      Option.pure_def]
  have hbounded : b.Bounded ↔ (shoff = 0 ∨ shnum = 0 ∨
      shoff + shnum.setWidth 64 * shentsize.setWidth 64 > b.size ∨
        SectionsBounded b.img b.size shoff shnum) := by
    simp [Bounded, hoff, hnum, hent]
  rw [hbounded, ← or_assoc, parseSymtabFromMemory, hoff, hnum, hpast]
  simp only [Option.bind_eq_bind, Option.bind_some, Option.pure_def]
  rw [isSome_ite_some_iff, isSome_ite_some_iff, decide_eq_true_eq]
  refine or_congr_right (or_congr_right ?_)
  rw [isSome_bind_findSection_iff rfl, SectionsBounded]
  simp only [isSome_parseSection_iff]

end Buffer

/-- A file header that promises one section header of size 0 behind its end. -/
def noStrideBuffer : Buffer where
  img.bytes := leFields
    [(4, 0x464c457f), (12, 0x10102), (2, 3), (2, 183), (4, 1), (8, 0), (8, 0), (8, 64),
      (4, 0), (2, 64), (2, 56), (2, 0), (2, 0), (2, 1), (2, 0)]
  ehdr := by decide +kernel
  lt := by decide +kernel

/-- A file with one section header, of type `SHT_SYMTAB`, without content and without an entry
size. -/
def noEntsizeBuffer : Buffer where
  img.bytes := leFields
    [(4, 0x464c457f), (12, 0x10102), (2, 3), (2, 183), (4, 1), (8, 0), (8, 0), (8, 64),
      (4, 0), (2, 64), (2, 56), (2, 0), (2, 64), (2, 1), (2, 0),
      (4, 0), (4, 2), (8, 0), (8, 0), (8, 0), (8, 0), (4, 0), (4, 0), (8, 0), (8, 0)]
  ehdr := by decide +kernel
  lt := by decide +kernel

/-- The first file makes the parser read a type behind the buffer, the second divide by zero. -/
theorem noStrideBuffer_not_safe :
    noStrideBuffer.img.shType (sectionAt 64 0) = none ∧
      ¬(parseSymtabFromMemory noStrideBuffer.img 0 noStrideBuffer.size []).isSome ∧
    noEntsizeBuffer.img.shEntsize (sectionAt 64 0) = some 0 ∧
      ¬(parseSymtabFromMemory noEntsizeBuffer.img 0 noEntsizeBuffer.size []).isSome := by
  decide +kernel

end ElfSymbolResolver

end CalvinHook
