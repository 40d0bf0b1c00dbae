import CalvinHook.Elf.GnuHash
import CalvinHook.HookSdk.ElfSymbolResolver

/-!
# `elf_symbol_resolver.cpp`: the number of dynamic symbols

`ParseDynsymFromDynamic` gets the number of symbols from a hash table.  For a GNU hash table it
looks for the largest bucket and walks along the chain of that bucket to its end; it takes the Bloom
filter to consist of 32-bit words, while in a 64-bit file they are 64-bit words, so buckets and
chains are read from the wrong place.

* `gnuCount_eq_some`: what is counted, by the words that are read (`CountedAs`).
* `vaddrToFoff_eq`, `dynTags_eq`: the program headers and the tags of a well-formed file are found.
* `GnuFile`: a well-formed file with a GNU hash table and no other.
* `GnuFile.countsSymbols_iff`: when the count is the number of symbols.
-/

namespace CalvinHook

open Elf

namespace ElfSymbolResolver

/-! ## The count -/

section Count

/-- The word exists and is even. -/
def EvenAt (word : ℕ → Option (BitVec 32)) (k : ℕ) : Prop := ∃ w, word k = some w ∧ w &&& 1 = 0

/-- The word exists and is odd. -/
def OddAt (word : ℕ → Option (BitVec 32)) (k : ℕ) : Prop := ∃ w, word k = some w ∧ w &&& 1 ≠ 0

/-- All the words exist, and `m` is the largest of them, or zero if there are none. -/
def IsMaxOf (word : ℕ → Option (BitVec 32)) (first n : ℕ) (m : BitVec 32) : Prop :=
  (∀ i < n, ∃ w, word (first + i) = some w ∧ w ≤ m) ∧ (m = 0 ∨ ∃ i < n, word (first + i) = some m)

/-- From the chain of the symbol `maxSym` on, the first odd chain word is that of the symbol
`c - 1`.  Indices of symbols and of chain words are 32-bit numbers. -/
def ChainEnds (word : ℕ → Option (BitVec 32)) (symOffset : BitVec 32) (chains : ℕ)
    (maxSym c : BitVec 32) :
    Prop :=
  (∀ j < (c - 1 - maxSym).toNat,
    EvenAt word (chains + (maxSym - symOffset + BitVec.ofNat 32 j).toNat)) ∧
    OddAt word (chains + (c - 1 - symOffset).toNat)

/-- The table gives the count `c`, if the filter is taken to consist of 32-bit words. -/
def CountedAs (word : ℕ → Option (BitVec 32)) (c : BitVec 32) : Prop :=
  ∃ nbuckets symOffset bloomSize maxSym : BitVec 32,
    word 0 = some nbuckets ∧ word 1 = some symOffset ∧ word 2 = some bloomSize ∧
      IsMaxOf word (4 + bloomSize.toNat) nbuckets.toNat maxSym ∧
      (maxSym = 0 ∧ c = 0 ∨ maxSym ≠ 0 ∧
        ChainEnds word symOffset (4 + bloomSize.toNat + nbuckets.toNat) maxSym c)

variable {word word' : ℕ → Option (BitVec 32)}

theorem walkChain_succ {symOffset i w : BitVec 32} {chains n : ℕ}
    (h : word (chains + i.toNat) = some w) :
    walkChain word symOffset chains (n + 1) i =
      if w &&& 1 ≠ 0 then some (symOffset + i + 1)
      else walkChain word symOffset chains n (i + 1) := by
  rw [walkChain, h]
  rfl

theorem add_one_add_ofNat (i : BitVec 32) (j : ℕ) :
    i + 1 + BitVec.ofNat 32 j = i + BitVec.ofNat 32 (j + 1) := by
  rw [BitVec.ofNat_add, BitVec.add_assoc]
  exact congrArg (i + ·) (BitVec.add_comm _ _)

/-- A walk that ends, from any index on. -/
theorem exists_of_walkChain {symOffset c : BitVec 32} {chains n : ℕ} {i : BitVec 32}
    (h : walkChain word symOffset chains n i = some c) : ∃ j < n,
      (∀ j' < j, EvenAt word (chains + (i + BitVec.ofNat 32 j').toNat)) ∧
        OddAt word (chains + (i + BitVec.ofNat 32 j).toNat) ∧
        c = symOffset + (i + BitVec.ofNat 32 j) + 1 := by
  induction n generalizing i with
  | zero => exact absurd h (by simp [walkChain])
  | succ n ih =>
    have hzero : i + BitVec.ofNat 32 0 = i := BitVec.add_zero i
    cases hw : word (chains + i.toNat) with
    | none => simp [walkChain, hw] at h
    | some w =>
      rw [walkChain_succ hw] at h
      split_ifs at h with hodd
      · obtain rfl := Option.some.inj h
        refine ⟨0, by omega, by simp, ?_, by rw [hzero]⟩
        rw [hzero]
        exact ⟨w, hw, hodd⟩
      · obtain ⟨j, hj, heven, hend, rfl⟩ := ih h
        rw [add_one_add_ofNat] at hend ⊢
        refine ⟨j + 1, by omega, ?_, hend, rfl⟩
        intro j' hj'
        cases j' with
        | zero =>
          rw [hzero]
          exact ⟨w, hw, not_not.mp hodd⟩
        | succ j' =>
          rw [← add_one_add_ofNat]
          exact heven j' (by omega)

/-- Even words are passed by, and the walk ends at an odd one. -/
theorem walkChain_eq {symOffset : BitVec 32} {chains n j : ℕ} {i : BitVec 32} (hj : j < n)
    (heven : ∀ j' < j, EvenAt word (chains + (i + BitVec.ofNat 32 j').toNat))
    (hend : OddAt word (chains + (i + BitVec.ofNat 32 j).toNat)) :
    walkChain word symOffset chains n i = some (symOffset + (i + BitVec.ofNat 32 j) + 1) := by
  induction j generalizing i n with
  | zero =>
    have hzero : i + BitVec.ofNat 32 0 = i := BitVec.add_zero i
    rw [hzero] at hend ⊢
    obtain ⟨w, hw, hodd⟩ := hend
    obtain ⟨n, rfl⟩ := Nat.exists_eq_add_of_lt hj
    rw [Nat.zero_add, walkChain_succ hw, if_pos hodd]
  | succ j ih =>
    have hfirst := heven 0 (by omega)
    rw [show i + BitVec.ofNat 32 0 = i from BitVec.add_zero i] at hfirst
    obtain ⟨w, hw, hw0⟩ := hfirst
    obtain ⟨n, rfl⟩ : ∃ k, n = k + 1 := ⟨n - 1, by omega⟩
    rw [← add_one_add_ofNat] at hend
    rw [walkChain_succ hw, if_neg (not_not.mpr hw0), ih (by omega) (fun j' hj' => ?_) hend,
      add_one_add_ofNat]
    rw [add_one_add_ofNat]
    exact heven (j' + 1) (by omega)

/-- A walk over all the indices. -/
theorem walkChain_full_eq_some {symOffset maxSym c : BitVec 32} {chains : ℕ} :
    walkChain word symOffset chains (2 ^ 32) (maxSym - symOffset) = some c ↔
      ChainEnds word symOffset chains maxSym c := by
  rw [ChainEnds]
  constructor
  · intro h
    obtain ⟨j, hj, heven, hend, rfl⟩ := exists_of_walkChain h
    have hlast : symOffset + (maxSym - symOffset + BitVec.ofNat 32 j) + 1 - 1 - symOffset =
        maxSym - symOffset + BitVec.ofNat 32 j := by
      rw [add_sub_cancel_right, add_sub_cancel_left]
    have hsteps : symOffset + (maxSym - symOffset + BitVec.ofNat 32 j) + 1 - 1 - maxSym =
        BitVec.ofNat 32 j := by
      rw [add_sub_cancel_right, ← add_assoc, add_sub_cancel, add_sub_cancel_left]
    rw [hlast, hsteps, BitVec.toNat_ofNat, Nat.mod_eq_of_lt hj]
    exact ⟨heven, hend⟩
  · rintro ⟨heven, hend⟩
    have hlast : maxSym - symOffset + BitVec.ofNat 32 (c - 1 - maxSym).toNat =
        c - 1 - symOffset := by
      rw [BitVec.ofNat_toNat, BitVec.setWidth_eq, sub_add_sub_cancel']
    rw [← hlast] at hend
    rw [walkChain_eq (BitVec.isLt _) heven hend, hlast, add_sub_cancel, sub_add_cancel]

theorem maxBucket_succ (first n : ℕ) :
    maxBucket word first (n + 1) = (maxBucket word first n).bind fun m =>
      (word (first + n)).map fun w => if w > m then w else m := by
  rw [maxBucket, List.range_succ, List.foldlM_append, maxBucket]
  cases (List.range n).foldlM (fun maxSym i => do
      let bucket ← word (first + i)
      return if bucket > maxSym then bucket else maxSym) (0 : BitVec 32) with
  | none => rfl
  | some m =>
    cases hw : word (first + n) with
    | none => simp [hw]
    | some w => simp [hw]

theorem IsMaxOf.le {first n : ℕ} {m m' : BitVec 32} (h : IsMaxOf word first n m)
    (h' : IsMaxOf word first n m') : m ≤ m' := by
  rcases h.2 with rfl | ⟨i, hi, hw⟩
  · exact BitVec.le_def.mpr (Nat.zero_le _)
  · obtain ⟨w, hw', hle⟩ := h'.1 i hi
    obtain rfl := Option.some.inj (hw.symm.trans hw')
    exact hle

theorem isMaxOf_of_maxBucket {first n : ℕ} {m : BitVec 32} (h : maxBucket word first n = some m) :
    IsMaxOf word first n m := by
  induction n generalizing m with
  | zero => exact ⟨by simp, .inl (Option.some.inj h).symm⟩
  | succ n ih =>
    rw [maxBucket_succ] at h
    obtain ⟨m', hm', h⟩ := Option.bind_eq_some_iff.mp h
    obtain ⟨w, hw, rfl⟩ := Option.map_eq_some_iff.mp h
    obtain ⟨hle, hmem⟩ := ih hm'
    split_ifs with hlt
    · refine ⟨fun i hi => ?_, .inr ⟨n, by omega, hw⟩⟩
      rcases Nat.lt_succ_iff_lt_or_eq.mp hi with hi | rfl
      · obtain ⟨v, hv, hvm⟩ := hle i hi
        exact ⟨v, hv, BitVec.le_trans hvm (BitVec.le_of_lt hlt)⟩
      · exact ⟨w, hw, BitVec.le_refl w⟩
    · refine ⟨fun i hi => ?_, hmem.imp_right fun ⟨i, hi, hv⟩ => ⟨i, by omega, hv⟩⟩
      rcases Nat.lt_succ_iff_lt_or_eq.mp hi with hi | rfl
      · exact hle i hi
      · exact ⟨w, hw, BitVec.not_lt.mp hlt⟩

theorem exists_maxBucket {first n : ℕ} (h : ∀ i < n, ∃ w, word (first + i) = some w) :
    ∃ m, maxBucket word first n = some m := by
  induction n with
  | zero => exact ⟨0, rfl⟩
  | succ n ih =>
    obtain ⟨m, hm⟩ := ih fun i hi => h i (by omega)
    obtain ⟨w, hw⟩ := h n (by omega)
    rw [maxBucket_succ, hm, Option.bind_some, hw]
    exact ⟨_, rfl⟩

/-- The largest bucket. -/
theorem maxBucket_eq_some {first n : ℕ} {m : BitVec 32} :
    maxBucket word first n = some m ↔ IsMaxOf word first n m := by
  refine ⟨isMaxOf_of_maxBucket, fun h => ?_⟩
  obtain ⟨m', hm'⟩ := exists_maxBucket fun i hi => (h.1 i hi).imp fun _ hw => hw.1
  have h' := isMaxOf_of_maxBucket hm'
  rw [hm', BitVec.le_antisymm (h'.le h) (h.le h')]

/-- **What is counted.** -/
theorem gnuCount_eq_some {c : BitVec 32} : gnuCount word = some c ↔ CountedAs word c := by
  simp only [gnuCount, CountedAs, Option.bind_eq_bind, Option.bind_eq_some_iff, maxBucket_eq_some,
    Option.pure_def]
  constructor
  · rintro ⟨nbuckets, h0, symOffset, h1, bloomSize, h2, maxSym, hmax, h⟩
    refine ⟨nbuckets, symOffset, bloomSize, maxSym, h0, h1, h2, hmax, ?_⟩
    split_ifs at h with hzero
    · exact .inl ⟨hzero, (Option.some.inj h).symm⟩
    · exact .inr ⟨hzero, walkChain_full_eq_some.mp h⟩
  · rintro ⟨nbuckets, symOffset, bloomSize, maxSym, h0, h1, h2, hmax, h⟩
    refine ⟨nbuckets, h0, symOffset, h1, bloomSize, h2, maxSym, hmax, ?_⟩
    rcases h with ⟨hzero, rfl⟩ | ⟨hne, hends⟩
    · rw [if_pos hzero]
    · rw [if_neg hne]
      exact walkChain_full_eq_some.mpr hends

/-- More words that can be read do not change the count. -/
theorem CountedAs.mono {c : BitVec 32} (hword : ∀ i w, word i = some w → word' i = some w)
    (h : CountedAs word c) : CountedAs word' c := by
  obtain ⟨nbuckets, symOffset, bloomSize, maxSym, h0, h1, h2, hmax, h⟩ := h
  refine ⟨nbuckets, symOffset, bloomSize, maxSym, hword _ _ h0, hword _ _ h1, hword _ _ h2,
    ⟨?_, ?_⟩, ?_⟩
  · intro i hi
    obtain ⟨w, hw, hle⟩ := hmax.1 i hi
    exact ⟨w, hword _ _ hw, hle⟩
  · exact hmax.2.imp_right fun ⟨i, hi, hw⟩ => ⟨i, hi, hword _ _ hw⟩
  · refine h.imp_right fun ⟨hne, heven, hodd⟩ => ⟨hne, fun j hj => ?_, ?_⟩
    · exact (heven j hj).imp fun w hw => ⟨hword _ _ hw.1, hw.2⟩
    · exact hodd.imp fun w hw => ⟨hword _ _ hw.1, hw.2⟩

end Count

/-! ## Program headers and tags -/

section Dynamic

variable {img : Image} {phs : List Phdr}

/-- The program headers and the search through them, by their indices. -/
theorem exists_findSegment_eq (hphs : img.phdrs = some phs) (test : Off → Option Bool) :
    ∃ (n : ℕ) (ph : ℕ → Off), readAll (fun i => img.phdr? (ph i)) n = some phs ∧
      findSegment img test =
        (findRead (fun i => test (ph i)) (List.range n)).map (Option.map ph) := by
  simp only [Image.phdrs, Option.bind_eq_bind, Option.bind_eq_some_iff] at hphs
  obtain ⟨phoff, hoff, phnum, hnum, phentsize, hent, hread⟩ := hphs
  refine ⟨phnum.toNat, segmentAt phoff phentsize, hread, ?_⟩
  simp only [findSegment, hoff, hnum, hent, Option.bind_eq_bind, Option.bind_some, findRead_map]

theorem findSegment_eq_none (hphs : img.phdrs = some phs) {test : Off → Option Bool}
    {q : Phdr → Bool} (htest : ∀ ph, ∀ p ∈ phs, img.phdr? ph = some p → test ph = some (q p))
    (hfind : phs.find? q = none) :
    findSegment img test = some none := by
  obtain ⟨n, ph, hread, heq⟩ := exists_findSegment_eq hphs test
  rw [heq, findRead_eq_none hread (fun i p hmem hp => htest _ p hmem hp) hfind]
  rfl

/-- The first program header that passes a test is found. -/
theorem exists_findSegment (hphs : img.phdrs = some phs) {test : Off → Option Bool}
    {q : Phdr → Bool} (htest : ∀ ph, ∀ p ∈ phs, img.phdr? ph = some p → test ph = some (q p))
    {p : Phdr} (hfind : phs.find? q = some p) :
    ∃ ph, findSegment img test = some (some ph) ∧ img.phdr? ph = some p := by
  obtain ⟨n, ph, hread, heq⟩ := exists_findSegment_eq hphs test
  obtain ⟨i, hi, hp⟩ := exists_findRead hread (fun i p hmem hp => htest _ p hmem hp) hfind
  refine ⟨ph i, ?_, getElem?_eq_of_readAll hread hp⟩
  rw [heq, hi]
  rfl

/-- An offset into a file is not negative as an `off_t`. -/
theorem slt_zero_of_lt (hlen : img.bytes.length < 2 ^ 63) {off : Off}
    (h : off.toNat < img.bytes.length) : off.slt 0 = false := by
  have hint : off.toInt = off.toNat := BitVec.toInt_eq_toNat_of_lt (by omega)
  simp [BitVec.slt, hint]

theorem lt_of_wordsFrom_zero {off : Off} {w : BitVec 32} (h : wordsFrom img off 0 = some w) :
    off.toNat < img.bytes.length := by
  have hle := Image.add_le_of_read_eq_some h (by omega)
  have hzero : off + BitVec.ofNat 64 (4 * 0) = off := BitVec.add_zero _
  rw [hzero] at hle
  omega

theorem syms_lt_of_sym {tab : SymTable} {s : Sym} (h : img.sym? (tab.entry 0) = some s) :
    tab.syms.toNat < img.bytes.length := by
  have hle := Image.add_le_of_read_eq_some (Image.sym?_eq_some.mp h).1 (by omega)
  have hentry : tab.entry 0 = tab.syms := BitVec.add_zero _
  rw [hentry] at hle
  omega

theorem dynPhdr_eq_none (hphs : img.phdrs = some phs)
    (hfind : phs.find? (·.type = ptDynamic) = none) : dynPhdr img = some none := by
  refine findSegment_eq_none hphs (fun ph p _ hp => ?_) hfind
  simp [(Image.phdr?_eq_some.mp hp).1]

theorem exists_dynPhdr (hphs : img.phdrs = some phs) {p : Phdr}
    (hfind : phs.find? (·.type = ptDynamic) = some p) :
    ∃ ph, dynPhdr img = some (some ph) ∧ img.phdr? ph = some p := by
  refine exists_findSegment hphs (fun ph p _ hp => ?_) hfind
  simp [(Image.phdr?_eq_some.mp hp).1]

/-- No loaded segment goes around the end of the address space. -/
def NoWrap (phs : List Phdr) : Prop :=
  ∀ p ∈ phs, p.type = ptLoad → p.vaddr.toNat + p.memsz.toNat < 2 ^ 64

instance (phs : List Phdr) : Decidable (NoWrap phs) :=
  inferInstanceAs (Decidable (∀ p ∈ phs, _ → _))

theorem loads_eq {vaddr ph : Off} {p : Phdr} (h : img.phdr? ph = some p)
    (hwrap : p.type = ptLoad → p.vaddr.toNat + p.memsz.toNat < 2 ^ 64) :
    loads img vaddr ph = some (decide (p.Contains vaddr)) := by
  obtain ⟨htype, -, hvaddr, hmemsz⟩ := Image.phdr?_eq_some.mp h
  simp only [loads, htype, hvaddr, hmemsz, Option.bind_eq_bind, Option.bind_some, Option.pure_def]
  by_cases hload : p.type = ptLoad
  · have hend : (p.vaddr + p.memsz).toNat = p.vaddr.toNat + p.memsz.toNat := by
      rw [BitVec.toNat_add, Nat.mod_eq_of_lt (hwrap hload)]
    rw [if_neg (not_not.mpr hload)]
    simp only [Phdr.Contains, hload, true_and, BitVec.lt_def, hend]
    split_ifs with hlow
    · simp [Nat.not_le.mpr hlow]
    · simp [Nat.not_lt.mp hlow]
  · simp [hload, Phdr.Contains]

theorem vaddrToFoff_eq (hphs : img.phdrs = some phs) (hwrap : NoWrap phs) (vaddr : Off) :
    vaddrToFoff img vaddr = some ((fileOffset phs vaddr).getD (-1)) := by
  have htest : ∀ ph, ∀ p ∈ phs, img.phdr? ph = some p →
      loads img vaddr ph = some (decide (p.Contains vaddr)) :=
    fun ph p hmem hp => loads_eq hp (hwrap p hmem)
  rw [fileOffset]
  cases hfind : phs.find? (·.Contains vaddr) with
  | none =>
    rw [vaddrToFoff, findSegment_eq_none hphs htest hfind]
    rfl
  | some p =>
    obtain ⟨ph, hph, hp⟩ := exists_findSegment hphs htest hfind
    obtain ⟨-, hoffset, hvaddr, -⟩ := Image.phdr?_eq_some.mp hp
    simp only [vaddrToFoff, hph, hoffset, hvaddr, Option.bind_eq_bind, Option.bind_some,
      Option.pure_def]
    rfl

/-- The value of a tag after the entries, if each later entry with the tag replaces it. -/
def lastValue (tag : Off) (es : List Dyn) (init : Off) : Off :=
  es.foldl (fun v e => if e.tag = tag then e.un else v) init

/-- One entry that is not the last. -/
theorem readTags_succ {n : ℕ} {d tag un : Off} (htag : img.dTag d = some tag) (hnull : tag ≠ dtNull)
    (hun : img.dUn d = some un) (tags : DynTags) :
    readTags img (n + 1) d tags = readTags img n (d + 16)
      ⟨if tag = dtSymtab then un else tags.symtab, if tag = dtStrtab then un else tags.strtab,
        if tag = dtHash then un else tags.hash, if tag = dtGnuHash then un else tags.gnuHash⟩ := by
  rw [readTags, htag]
  simp only [Option.bind_eq_bind, Option.bind_some, if_neg hnull, hun]
  by_cases h1 : tag = dtSymtab
  · subst h1
    rfl
  by_cases h2 : tag = dtStrtab
  · subst h2
    rfl
  by_cases h3 : tag = dtHash
  · subst h3
    rfl
  by_cases h4 : tag = dtGnuHash
  · subst h4
    rfl
  · simp only [if_neg h1, if_neg h2, if_neg h3, if_neg h4]

/-- The loop over the entries. -/
theorem readTags_eq {n : ℕ} {d : Off} {es : List Dyn} (h : img.dynEntries n d = some es)
    (tags : DynTags) :
    readTags img n d tags = some
      ⟨lastValue dtSymtab es tags.symtab, lastValue dtStrtab es tags.strtab,
        lastValue dtHash es tags.hash,
        lastValue dtGnuHash es tags.gnuHash⟩ := by
  induction n generalizing d es tags with
  | zero => exact absurd h (by simp [Image.dynEntries])
  | succ n ih =>
    rw [Image.dynEntries] at h
    obtain ⟨tag, htag, h⟩ := Option.bind_eq_some_iff.mp h
    split_ifs at h with hnull
    · obtain rfl := Option.some.inj h
      rw [readTags, htag]
      exact if_pos hnull
    · obtain ⟨un, hun, h⟩ := Option.bind_eq_some_iff.mp h
      obtain ⟨es', hes', h⟩ := Option.bind_eq_some_iff.mp h
      obtain rfl := Option.some.inj h
      rw [readTags_succ htag hnull hun, ih hes']
      rfl

theorem lastValue_of_forall {tag v init : Off} {es : List Dyn}
    (h : ∀ e ∈ es, e.tag = tag → e.un = v) (hinit : init = v ∨ ∃ e ∈ es, e.tag = tag) :
    lastValue tag es init = v := by
  induction es generalizing init with
  | nil => simpa [lastValue] using hinit
  | cons e es ih =>
    rw [List.forall_mem_cons] at h
    rw [lastValue, List.foldl_cons, ← lastValue]
    refine ih h.2 ?_
    split_ifs with htag
    · exact .inl (h.1 htag)
    · refine hinit.imp_right ?_
      rintro ⟨e', he', htag'⟩
      rcases List.mem_cons.mp he' with rfl | he'
      · exact absurd htag' htag
      · exact ⟨e', he', htag'⟩

end Dynamic

/-! ## Files with a GNU hash table -/

/-- A well-formed file whose dynamic section has `DT_SYMTAB`, `DT_STRTAB` and `DT_GNU_HASH`, but no
`DT_HASH`. -/
structure GnuFile where
  img : Image
  phs : List Phdr
  es : List Dyn
  table : GnuHash
  /-- The addresses in the dynamic section. -/
  symtab : Off
  strtab : Off
  gnuHash : Off
  /-- Where they stand in the file. -/
  symFoff : Off
  strFoff : Off
  gnuFoff : Off
  length_lt : img.bytes.length < 2 ^ 63
  phdrs_eq : img.phdrs = some phs
  noWrap : NoWrap phs
  dynamic : ∃ p, phs.find? (·.type = ptDynamic) = some p ∧
    img.dynEntries img.bytes.length p.offset = some es
  tags_unique : ∀ e ∈ es, ∀ e' ∈ es, e.tag = e'.tag →
    e.tag ∈ [dtSymtab, dtStrtab, dtGnuHash] → e.un = e'.un
  mem_symtab : ⟨dtSymtab, symtab⟩ ∈ es
  mem_strtab : ⟨dtStrtab, strtab⟩ ∈ es
  mem_gnuHash : ⟨dtGnuHash, gnuHash⟩ ∈ es
  no_hash : ∀ e ∈ es, e.tag ≠ dtHash
  symtab_at : fileOffset phs symtab = some symFoff
  strtab_at : fileOffset phs strtab = some strFoff
  gnuHash_at : fileOffset phs gnuHash = some gnuFoff
  strFoff_lt : strFoff.toNat < img.bytes.length
  /-- The symbols and their names can be read, and the table has the hashes of the names. -/
  symbols : ∀ i < table.count, ∃ s name,
    img.sym? (SymTable.entry ⟨symFoff, strFoff, table.count⟩ i) = some s ∧
      img.cstr (strFoff + s.name.setWidth 64) = some name ∧
      (table.symoffset ≤ i → table.hashes[i - table.symoffset]? = some (Elf.gnuHash name))
  /-- A symbol is hashed. -/
  hashes_ne : table.hashes ≠ []
  /-- The section is laid out as the format says. -/
  hashSection : ∀ i < table.words.length, wordsFrom img gnuFoff i = table.words[i]?

/-- Taking the Bloom filter for one of 32-bit words, the walk from the largest of the words in the
place of the buckets ends at the last symbol. -/
def MiscountExact (t : GnuHash) : Prop :=
  ∃ maxSym, maxSym ≠ 0 ∧ IsMaxOf (t.words[·]?) (4 + t.bloomSize) t.nbuckets maxSym ∧
    ChainEnds (t.words[·]?) (BitVec.ofNat 32 t.symoffset) (4 + t.bloomSize + t.nbuckets) maxSym
      (BitVec.ofNat 32 t.count)

theorem countedAs_words_iff (t : GnuHash) :
    CountedAs (t.words[·]?) (BitVec.ofNat 32 t.count) ↔ MiscountExact t := by
  have hnb : (BitVec.ofNat 32 t.nbuckets).toNat = t.nbuckets := by
    rw [BitVec.toNat_ofNat, Nat.mod_eq_of_lt t.nbuckets_lt]
  have hbl : (BitVec.ofNat 32 t.bloomSize).toNat = t.bloomSize := by
    rw [BitVec.toNat_ofNat, Nat.mod_eq_of_lt t.bloomSize_lt]
  rw [CountedAs, MiscountExact]
  constructor
  · rintro ⟨nbuckets, symOffset, bloomSize, maxSym, h0, h1, h2, hmax, h⟩
    rw [t.getElem?_header (by omega)] at h0 h1 h2
    obtain rfl := Option.some.inj h0
    obtain rfl := Option.some.inj h1
    obtain rfl := Option.some.inj h2
    rw [hbl, hnb] at hmax h
    rcases h with ⟨-, hzero⟩ | ⟨hne, hends⟩
    · exact absurd hzero t.ofNat_count_ne_zero
    · exact ⟨maxSym, hne, hmax, hends⟩
  · rintro ⟨maxSym, hne, hmax, hends⟩
    refine ⟨_, _, _, maxSym, t.getElem?_header (by omega), t.getElem?_header (by omega),
      t.getElem?_header (by omega), ?_, .inr ⟨hne, ?_⟩⟩
    · rw [hbl, hnb]
      exact hmax
    · rw [hbl, hnb]
      exact hends

namespace GnuFile

variable (f : GnuFile)

/-- The words of the file, those outside the hash section taken away. -/
def sectionWords (i : ℕ) : Option (BitVec 32) :=
  if i < f.table.words.length then wordsFrom f.img f.gnuFoff i else none

theorem sectionWords_eq : f.sectionWords = (f.table.words[·]?) := by
  funext i
  rw [sectionWords]
  split_ifs with hi
  · exact f.hashSection i hi
  · rw [List.getElem?_eq_none (Nat.not_lt.mp hi)]

theorem wordsFrom_of_sectionWords {i : ℕ} {w : BitVec 32} (h : f.sectionWords i = some w) :
    wordsFrom f.img f.gnuFoff i = some w := by
  rw [sectionWords] at h
  split_ifs at h
  exact h

theorem dynTags_eq : dynTags f.img = some (some ⟨f.symtab, f.strtab, 0, f.gnuHash⟩) := by
  obtain ⟨p, hfind, hes⟩ := f.dynamic
  obtain ⟨ph, hph, hp⟩ := exists_dynPhdr f.phdrs_eq hfind
  have hval : ∀ tag ∈ [dtSymtab, dtStrtab, dtGnuHash], ∀ v, ⟨tag, v⟩ ∈ f.es →
      lastValue tag f.es 0 = v := by
    intro tag htag v hmem
    refine lastValue_of_forall (fun e he het => ?_) (.inr ⟨_, hmem, rfl⟩)
    exact f.tags_unique e he ⟨tag, v⟩ hmem het (het ▸ htag)
  have hhash : lastValue dtHash f.es 0 = 0 :=
    lastValue_of_forall (fun e he het => absurd het (f.no_hash e he)) (.inl rfl)
  simp only [dynTags, hph, (Image.phdr?_eq_some.mp hp).2.1, readTags_eq hes, Option.bind_eq_bind,
    Option.bind_some, Option.pure_def, hhash, hval _ (by simp) _ f.mem_symtab,
    hval _ (by simp) _ f.mem_strtab, hval _ (by simp) _ f.mem_gnuHash]

theorem symFoff_lt : f.symFoff.toNat < f.img.bytes.length := by
  have hpos := f.table.symoffset_pos
  obtain ⟨s, name, hs, -⟩ := f.symbols 0 (by rw [GnuHash.count]; omega)
  exact syms_lt_of_sym hs

theorem gnuFoff_lt : f.gnuFoff.toNat < f.img.bytes.length := by
  have hlen := f.table.length_words
  have hword := f.hashSection 0 (by omega)
  rw [List.getElem?_eq_getElem (by omega)] at hword
  exact lt_of_wordsFrom_zero hword

/-- The addresses are found in the file, unless one of them is taken to be absent. -/
theorem dynTable_eq : dynTable f.img =
    if f.symtab = 0 ∨ f.strtab = 0 ∨ f.gnuHash = 0 then some none
    else (gnuCount (wordsFrom f.img f.gnuFoff)).map fun c =>
      if c = 0 then none else some ⟨f.symFoff, f.strFoff, c.toNat⟩ := by
  have hfoff := vaddrToFoff_eq f.phdrs_eq f.noWrap
  have hsym : vaddrToFoff f.img f.symtab = some f.symFoff := by rw [hfoff, f.symtab_at]; rfl
  have hstr : vaddrToFoff f.img f.strtab = some f.strFoff := by rw [hfoff, f.strtab_at]; rfl
  have hgnu : vaddrToFoff f.img f.gnuHash = some f.gnuFoff := by rw [hfoff, f.gnuHash_at]; rfl
  simp only [dynTable, f.dynTags_eq, hsym, hstr, Option.bind_eq_bind, Option.bind_some, symCount,
    slt_zero_of_lt f.length_lt f.symFoff_lt, slt_zero_of_lt f.length_lt f.strFoff_lt,
    Option.pure_def]
  by_cases h1 : f.symtab = 0 ∨ f.strtab = 0
  · rw [if_pos h1, if_pos (or_assoc.mp (.inl h1))]
  · rw [if_neg h1]
    by_cases h2 : f.gnuHash = 0
    · simp [h2]
    · have hnone : ¬(f.symtab = 0 ∨ f.strtab = 0 ∨ f.gnuHash = 0) := by
        rw [← or_assoc]
        exact not_or.mpr ⟨h1, h2⟩
      rw [if_neg hnone]
      simp only [ne_eq, not_true_eq_false, if_false, h2, not_false_eq_true, if_true, hgnu,
        Option.bind_some, slt_zero_of_lt f.length_lt f.gnuFoff_lt]
      cases gnuCount (wordsFrom f.img f.gnuFoff) with
      | none => rfl
      | some c =>
        simp only [Option.map_some]
        split_ifs <;> simp_all

/-- **The count of a GNU hash table.**  The number of symbols is computed, from words inside the
hash section, exactly if the three addresses are not zero and the misplaced walk happens to end at
the last symbol. -/
theorem countsSymbols_iff :
    (dynTable f.img = some (some ⟨f.symFoff, f.strFoff, f.table.count⟩) ∧
      (gnuCount f.sectionWords).isSome) ↔
      (f.symtab ≠ 0 ∧ f.strtab ≠ 0 ∧ f.gnuHash ≠ 0) ∧ MiscountExact f.table := by
  rw [f.dynTable_eq, ← countedAs_words_iff, ← f.sectionWords_eq, ← gnuCount_eq_some]
  constructor
  · rintro ⟨htab, hinside⟩
    obtain ⟨c, hc⟩ := Option.isSome_iff_exists.mp hinside
    split_ifs at htab with hzero
    · exact absurd (Option.some.inj htab) (by simp)
    obtain ⟨h1, h23⟩ := not_or.mp hzero
    refine ⟨⟨h1, not_or.mp h23⟩, ?_⟩
    -- the count from the words of the section is the one from the words of the file
    have hfile := (gnuCount_eq_some.mp hc).mono fun i w => f.wordsFrom_of_sectionWords
    rw [gnuCount_eq_some.mpr hfile, Option.map_some, Option.some.injEq] at htab
    split_ifs at htab
    have htoNat : c.toNat = f.table.count := congrArg SymTable.count (Option.some.inj htab)
    rw [hc, ← htoNat, BitVec.ofNat_toNat, BitVec.setWidth_eq]
  · rintro ⟨⟨h1, h2, h3⟩, hc⟩
    have hfile := (gnuCount_eq_some.mp hc).mono fun i w => f.wordsFrom_of_sectionWords
    rw [if_neg (not_or.mpr ⟨h1, not_or.mpr ⟨h2, h3⟩⟩), gnuCount_eq_some.mpr hfile, Option.map_some,
      if_neg f.table.ofNat_count_ne_zero, f.table.toNat_ofNat_count, hc]
    exact ⟨rfl, rfl⟩

end GnuFile

/-! ### A file with one symbol -/

/-- The table of one symbol, in one bucket. -/
def oneSymbolTable (name : List (BitVec 8)) : GnuHash where
  nbuckets := 1
  symoffset := 1
  bloomSize := 1
  bloomShift := 6
  hashes := [Elf.gnuHash name]
  nbuckets_pos := Nat.one_pos
  nbuckets_lt := by omega
  symoffset_pos := Nat.one_pos
  bloomSize_pos := Nat.one_pos
  bloomSize_lt := by omega
  bloomShift_lt := by omega
  count_lt := by simp
  sorted := by simp

/-- For some names the misplaced words are those of a right table: here the second half of the Bloom
filter is `1`, the index of the symbol, and the bucket in the place of the chain is odd. -/
example : MiscountExact (oneSymbolTable [0x62, 0x79]) := by
  refine ⟨1, by decide, ⟨fun i hi => ?_, .inr ⟨0, by decide, by decide +kernel⟩⟩,
    fun j hj => ?_, ?_⟩
  · obtain rfl : i = 0 := Nat.lt_one_iff.mp hi
    exact ⟨1, by decide +kernel, by decide⟩
  · have hzero : (BitVec.ofNat 32 (oneSymbolTable [0x62, 0x79]).count - 1 - 1).toNat = 0 := by
      decide +kernel
    omega
  · exact ⟨1, by decide +kernel, by decide⟩

/-- A header, two program headers, the dynamic section, the null symbol and the symbol `f`, the
names, and the hash table. -/
def oneSymbolImage : Image where
  bytes := leFields
    [(4, 0x464c457f), (12, 0x10102), (2, 3), (2, 183), (4, 1), (8, 0), (8, 64), (8, 0),
      (4, 0), (2, 64), (2, 56), (2, 2), (2, 64), (2, 0), (2, 0),
      -- the program headers
      (4, 1), (4, 4), (8, 0), (8, 0), (8, 0), (8, 336), (8, 336), (8, 4096),
      (4, 2), (4, 4), (8, 176), (8, 176), (8, 176), (8, 64), (8, 64), (8, 8),
      -- the dynamic section
      (8, 6), (8, 240), (8, 5), (8, 288), (8, 0x6ffffef5), (8, 304), (8, 0), (8, 0),
      -- the symbols and their names
      (24, 0), (4, 1), (1, 0x12), (1, 0), (2, 1), (8, 0x1000), (8, 4), (16, 0x6600)] ++
    leFields ((oneSymbolTable [0x66]).words.map fun w => (4, w.toNat))

def oneSymbolFile : GnuFile where
  img := oneSymbolImage
  phs := [⟨1, 0, 0, 336⟩, ⟨2, 176, 176, 64⟩]
  es := [⟨dtSymtab, 240⟩, ⟨dtStrtab, 288⟩, ⟨dtGnuHash, 304⟩]
  table := oneSymbolTable [0x66]
  symtab := 240
  strtab := 288
  gnuHash := 304
  symFoff := 240
  strFoff := 288
  gnuFoff := 304
  length_lt := by decide +kernel
  phdrs_eq := by decide +kernel
  noWrap := by decide +kernel
  dynamic := ⟨⟨2, 176, 176, 64⟩, by decide +kernel, by decide +kernel⟩
  tags_unique := by decide +kernel
  mem_symtab := by decide +kernel
  mem_strtab := by decide +kernel
  mem_gnuHash := by decide +kernel
  no_hash := by decide +kernel
  symtab_at := by decide +kernel
  strtab_at := by decide +kernel
  gnuHash_at := by decide +kernel
  strFoff_lt := by decide +kernel
  symbols := by
    intro i hi
    match i, hi with
    | 0, _ => exact ⟨⟨0, 0, 0, 0⟩, [], by decide +kernel, by decide +kernel, by decide⟩
    | 1, _ =>
      exact ⟨⟨1, 0x12, 1, 0x1000⟩, [0x66], by decide +kernel, by decide +kernel, by decide +kernel⟩
  hashes_ne := by decide +kernel
  hashSection := by decide +kernel

/-- The word in the place of the bucket is zero, and no symbol is found. -/
theorem oneSymbolFile_not_counted :
    ¬(dynTable oneSymbolFile.img =
        some (some ⟨oneSymbolFile.symFoff, oneSymbolFile.strFoff, oneSymbolFile.table.count⟩) ∧
      (gnuCount oneSymbolFile.sectionWords).isSome) := by
  have hnone : dynTable oneSymbolFile.img = some none := by decide +kernel
  rw [hnone]
  exact fun h => absurd (Option.some.inj h.1) (by simp)

end ElfSymbolResolver

end CalvinHook
