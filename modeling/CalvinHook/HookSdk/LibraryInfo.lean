import Mathlib.Data.List.DropRight
import CalvinHook.Elf.Image
import CalvinHook.Text.Lines
import CalvinHook.Text.Scanf

/-!
# `elf_symbol_resolver.cpp`: finding the library in `/proc/self/maps`

`FindLibraryInfo` reads the memory map line by line and returns the first line with file offset 0 in
which the name of the library occurs.  The name is looked for in the whole line, so another file
whose path contains it is taken for the library if it is mapped at a lower address.

* `findLibraryInfo`: the model, with `sscanf` and `fgets` from `Text.Scanf`.
* `MapLine.text`, `Maps`: the text that the kernel writes.
* `scan_text`: the fields of a line are read back.
* `findLibraryInfo_eq`: which line is returned.
* `findLibraryInfo_eq_first_iff`: when that is the first mapping of the library.
-/

namespace CalvinHook
namespace ElfSymbolResolver

open Text Elf

/-! ## The model -/

/-- `"%lx-%lx %4s %lx %*x:%*x %*u %255[^\n]"`. -/
def mapsFormat : List Directive :=
  [.number 16 true, .lit 0x2D, .number 16 true, .space, .word 4, .space, .number 16 true, .space,
    .number 16 false, .lit 0x3A, .number 16 false, .space, .number 10 false, .space, .rest 255]

/-- The loop that removes white space at the end of the path. -/
def trimEnd (path : List Byte) : List Byte :=
  path.rdropWhile fun c => c = 0x0A || c = 0x0D || c = 0x20

/-- The buffer `pathname`, which is empty if nothing was stored in it. -/
def pathname : List Field → List Byte
  | .text s :: _ => s
  | _ => []

/-- The body of the loop in `FindLibraryInfo`: the base and the path, if the line is accepted. -/
def libLine (libName line : List Byte) : Option (Off × List Byte) :=
  if (find libName line 0).isSome then
    match scan mapsFormat line with
    | .num start :: .num _ :: .text _ :: .num offset :: more =>
      if offset ≠ 0 then none else some (BitVec.ofNat 64 start, trimEnd (pathname more))
    | _ => none
  else none

/-- `FindLibraryInfo`; `maps` is none if the file cannot be opened. -/
def findLibraryInfo (maps : Option (List Byte)) (libName : List Byte) : Option (Off × List Byte) :=
  maps.bind fun text => (fgetsAll 512 text.length text).findSome? (libLine libName)

/-! ## The text of the kernel -/

/-- A line of `/proc/self/maps`. -/
structure MapLine where
  start : Off
  stop : Off
  perms : List Byte
  offset : Off
  major : ℕ
  minor : ℕ
  inode : ℕ
  /-- The number of spaces that align the paths. -/
  pad : ℕ
  /-- The path, empty if no file is mapped. -/
  path : List Byte
  perms_length : perms.length = 4
  perms_chars : ∀ c ∈ perms, isSpace c = false
  major_lt : major < 2 ^ 64
  minor_lt : minor < 2 ^ 64
  inode_lt : inode < 2 ^ 64
  /-- A path starts with a visible character. -/
  path_head : ∀ c ∈ path.head?, isSpace c = false
  /-- A newline in a path is written as an escape. -/
  path_newline : 0x0A ∉ path
  path_lt : path.length < 256

namespace MapLine

variable (l : MapLine)

/-- `start-stop perms offset major:minor inode path`. -/
def text : List Byte :=
  numeral 16 8 l.start.toNat ++ 0x2D :: (numeral 16 8 l.stop.toNat ++ 0x20 :: (l.perms ++ 0x20 ::
    (numeral 16 8 l.offset.toNat ++ 0x20 ::
      (numeral 16 2 l.major ++ 0x3A :: (numeral 16 2 l.minor ++ 0x20 ::
      (numeral 10 1 l.inode ++ 0x20 :: (List.replicate l.pad 0x20 ++ l.path)))))))

/-- The part of the path behind the last slash. -/
def basename : List Byte := l.path.rtakeWhile (· ≠ 0x2F)

end MapLine

/-- A memory map with lines shorter than the buffer. -/
structure Maps where
  lines : List MapLine
  short : ∀ l ∈ lines, l.text.length < 512

/-- The text of the map. -/
def Maps.text (m : Maps) : List Byte := (m.lines.map MapLine.text).flatMap (· ++ [0x0A])

/-! ## One line -/

section Line

variable (l : MapLine)

theorem perms_ne_nil : l.perms ≠ [] := by
  intro h
  have hlen := l.perms_length
  rw [h] at hlen
  exact absurd hlen (by simp)

theorem head?_perms (s : List Byte) : ∀ c ∈ (l.perms ++ s).head?, isSpace c = false := by
  intro c hc
  rw [List.head?_append_of_ne_nil _ (perms_ne_nil l)] at hc
  exact l.perms_chars c (List.mem_of_mem_head? hc)

theorem scan_perms (ds : List Directive) (s : List Byte) :
    scan (.word 4 :: ds) (l.perms ++ s) = .text l.perms :: scan ds s := by
  rw [← l.perms_length]
  exact scan_word (perms_ne_nil l) l.perms_chars s

/-- The path, up to a newline or the end of the buffer. -/
theorem scan_path {tail : List Byte} (htail : tail = [] ∨ tail = [0x0A]) :
    scan [.space, .rest 255] (0x20 :: (List.replicate l.pad 0x20 ++ (l.path ++ tail))) =
      if l.path = [] then [] else [.text l.path] := by
  have hsp : ∀ c ∈ 0x20 :: List.replicate l.pad (0x20 : Byte), isSpace c := by
    intro c hc
    rcases List.mem_cons.mp hc with rfl | hc
    · decide
    · rw [List.eq_of_mem_replicate hc]
      decide
  rw [← List.cons_append]
  split_ifs with hpath
  · have hskip : skipSpace tail = [] := by rcases htail with rfl | rfl <;> rfl
    rw [hpath, List.nil_append, scan, skipSpace_append hsp, hskip]
    rfl
  · have hhead : ∀ c ∈ (l.path ++ tail).head?, isSpace c = false := by
      rw [List.head?_append_of_ne_nil _ hpath]
      exact l.path_head
    have htail' : ∀ c ∈ tail.head?, c = 0x0A := by
      rcases htail with rfl | rfl <;> simp
    rw [scan_space hsp hhead, scan_rest hpath l.path_newline (Nat.le_of_lt_succ l.path_lt) htail',
      scan]

/-- **The fields of a line** are read back. -/
theorem scan_text {tail : List Byte} (htail : tail = [] ∨ tail = [0x0A]) :
    scan mapsFormat (l.text ++ tail) = .num l.start.toNat :: .num l.stop.toNat :: .text l.perms ::
      .num l.offset.toNat :: if l.path = [] then [] else [.text l.path] := by
  have hstop : isDigit 16 0x2D = false ∧ (0x2D : Byte) ≠ 0x78 ∧ (0x2D : Byte) ≠ 0x58 := by decide
  have hspace : isDigit 16 0x20 = false ∧ (0x20 : Byte) ≠ 0x78 ∧ (0x20 : Byte) ≠ 0x58 := by decide
  have hcolon : isDigit 16 0x3A = false ∧ (0x3A : Byte) ≠ 0x78 ∧ (0x3A : Byte) ≠ 0x58 := by decide
  have hspace' : isDigit 10 0x20 = false ∧ (0x20 : Byte) ≠ 0x78 ∧ (0x20 : Byte) ≠ 0x58 := by decide
  simp only [MapLine.text, List.append_assoc, List.cons_append, mapsFormat]
  rw [scan_number_cons (by omega) (by omega) (by omega) l.start.isLt hstop, if_pos rfl, scan_lit,
    scan_number_cons (by omega) (by omega) (by omega) l.stop.isLt hspace, if_pos rfl,
    scan_space_cons (head?_perms l _), scan_perms,
    scan_space_cons (head?_numeral (by omega) (by omega) (by omega)),
    scan_number_cons (by omega) (by omega) (by omega) l.offset.isLt hspace, if_pos rfl,
    scan_space_cons (head?_numeral (by omega) (by omega) (by omega)),
    scan_number_cons (by omega) (by omega) (by omega) l.major_lt hcolon, if_neg (by simp), scan_lit,
    scan_number_cons (by omega) (by omega) (by omega) l.minor_lt hspace, if_neg (by simp),
    scan_space_cons (head?_numeral (by omega) (by omega) (by omega)),
    scan_number_cons (by omega) (by omega) (by omega) l.inode_lt hspace', if_neg (by simp),
    scan_path l htail]

theorem newline_not_mem_numeral {b w n : ℕ} (hb : 2 ≤ b) (hb' : b ≤ 16) :
    (0x0A : Byte) ∉ numeral b w n := by
  intro h
  exact absurd (isDigit_mono hb' (isDigit_of_mem_numeral hb hb' h)) (by decide)

theorem newline_not_mem_text : 0x0A ∉ l.text := by
  have hperms : (0x0A : Byte) ∉ l.perms := fun h => absurd (l.perms_chars _ h) (by decide)
  have hpad : (0x0A : Byte) ∉ List.replicate l.pad 0x20 :=
    fun h => absurd (List.eq_of_mem_replicate h) (by decide)
  have hhex : ∀ w n, (0x0A : Byte) ∉ numeral 16 w n :=
    fun w n => newline_not_mem_numeral (by omega) (by omega)
  have hdec : ∀ w n, (0x0A : Byte) ∉ numeral 10 w n :=
    fun w n => newline_not_mem_numeral (by omega) (by omega)
  simp only [MapLine.text, List.mem_append, List.mem_cons, hhex, hdec, hperms, hpad,
    l.path_newline, or_false, false_or]
  decide

/-- A name without a newline occurs in the line and not across its end. -/
theorem infix_append_tail_iff {libName s tail : List Byte} (hlib : 0x0A ∉ libName)
    (htail : tail = [] ∨ tail = [0x0A]) : libName <:+: s ++ tail ↔ libName <:+: s := by
  rcases htail with rfl | rfl
  · rw [List.append_nil]
  · rw [List.infix_concat_iff, List.suffix_concat_iff]
    constructor
    · rintro ((rfl | ⟨t, rfl, -⟩) | h)
      · exact List.nil_infix
      · exact absurd (List.mem_append_right _ (List.mem_singleton_self _)) hlib
      · exact h
    · exact .inr

/-- Whether the line is accepted, and what is returned for it. -/
theorem libLine_text {libName : List Byte} (hlib : 0x0A ∉ libName) {tail : List Byte}
    (htail : tail = [] ∨ tail = [0x0A]) :
    libLine libName (l.text ++ tail) =
      if l.offset = 0 ∧ libName <:+: l.text then some (l.start, trimEnd l.path) else none := by
  have hpath : pathname (if l.path = [] then [] else [.text l.path]) = l.path := by
    split_ifs with h
    · rw [h]
      rfl
    · rfl
  have hzero : l.offset.toNat ≠ 0 ↔ ¬l.offset = 0 := by
    rw [not_iff_not]
    exact ⟨fun h => BitVec.eq_of_toNat_eq h, fun h => by rw [h]; rfl⟩
  simp only [libLine, find_isSome_iff, infix_append_tail_iff hlib htail, scan_text l htail, hpath,
    BitVec.ofNat_toNat, BitVec.setWidth_eq, hzero]
  split_ifs <;> simp_all

end Line

/-! ## The whole map -/

section Maps

variable (m : Maps) {libName : List Byte}

theorem findSome?_ite {α β : Type} {P : α → Prop} [DecidablePred P] (f : α → β) (as : List α) :
    (as.findSome? fun a => if P a then some (f a) else none) = (as.find? fun a => P a).map f := by
  induction as with
  | nil => rfl
  | cons a as ih =>
    by_cases h : P a
    · rw [List.findSome?_cons, if_pos h, List.find?_cons_of_pos (by simpa using h)]
      rfl
    · rw [List.findSome?_cons, if_neg h, List.find?_cons_of_neg (by simpa using h)]
      exact ih

/-- **Which line is returned**: the first one with offset 0 that contains the name. -/
theorem findLibraryInfo_eq (hlib : 0x0A ∉ libName) :
    findLibraryInfo (some m.text) libName =
      (m.lines.find? fun l => l.offset = 0 ∧ libName <:+: l.text).map fun l => (l.start,
        trimEnd l.path) := by
  have hnl : libLine libName [0x0A] = none := by
    rw [libLine]
    split_ifs <;> rfl
  have hline : ∀ l : MapLine, libLine libName l.text =
      if l.offset = 0 ∧ libName <:+: l.text then some (l.start, trimEnd l.path) else none := by
    intro l
    have h := libLine_text l hlib (.inl rfl)
    rwa [List.append_nil] at h
  have hlines : ∀ s ∈ m.lines.map MapLine.text, 0x0A ∉ s ∧ s.length < 512 := by
    intro s hs
    obtain ⟨l, hl, rfl⟩ := List.mem_map.mp hs
    exact ⟨newline_not_mem_text l, m.short l hl⟩
  have hfit : ∀ s ∈ m.lines.map MapLine.text,
      libLine libName (s ++ [0x0A]) = libLine libName s := by
    intro s hs
    obtain ⟨l, -, rfl⟩ := List.mem_map.mp hs
    rw [libLine_text l hlib (.inr rfl), hline]
  rw [findLibraryInfo, Option.bind_some, Maps.text,
    findSome?_fgetsAll (by omega) hnl hlines hfit (fun _ _ => rfl) le_rfl, List.findSome?_map,
    ← findSome?_ite]
  exact congrArg (List.findSome? · m.lines) (funext hline)

/-- The basename is a part of the line. -/
theorem basename_infix (l : MapLine) : l.basename <:+: l.text := by
  have hpath : l.path <:+ l.text :=
    ⟨numeral 16 8 l.start.toNat ++ 0x2D :: (numeral 16 8 l.stop.toNat ++ 0x20 :: (l.perms ++ 0x20 ::
      (numeral 16 8 l.offset.toNat ++ 0x20 ::
        (numeral 16 2 l.major ++ 0x3A :: (numeral 16 2 l.minor ++ 0x20 ::
        (numeral 10 1 l.inode ++ 0x20 :: List.replicate l.pad 0x20)))))), by simp [MapLine.text]⟩
  exact ((List.rtakeWhile_suffix _ _).trans hpath).isInfix

/-- **The first mapping of the library.**  Some line is found if the library is mapped.  It is the
right one when the first line with offset 0 that contains the name has the address of that mapping
and, without white space at the end, its path. -/
theorem findLibraryInfo_eq_first_iff {w : MapLine}
    (hw : m.lines.find? (fun l => l.offset = 0 ∧ l.basename = libName) = some w) :
    (findLibraryInfo (some m.text) libName).isSome ∧
      (findLibraryInfo (some m.text) libName = some (w.start, w.path) ↔
        ∃ c, m.lines.find? (fun l => l.offset = 0 ∧ libName <:+: l.text) = some c ∧
          c.start = w.start ∧ trimEnd c.path = w.path) := by
  have hpos := List.find?_some hw
  obtain ⟨hoffset, hname⟩ : w.offset = 0 ∧ w.basename = libName := of_decide_eq_true hpos
  have hlib : 0x0A ∉ libName := by
    rw [← hname]
    exact fun h => w.path_newline ((List.rtakeWhile_suffix _ _).subset h)
  rw [findLibraryInfo_eq m hlib]
  constructor
  · rw [Option.isSome_map, List.find?_isSome]
    exact ⟨w, List.mem_of_find?_eq_some hw, decide_eq_true ⟨hoffset, hname ▸ basename_infix w⟩⟩
  · rw [Option.map_eq_some_iff]
    simp only [Prod.mk.injEq]

end Maps

/-! ### A copy of the library -/

/-- A file at an address, readable and mapped from its start. -/
def mapLine (start stop : Off) (inode : ℕ) (path : List Byte) (hinode : inode < 2 ^ 64)
    (hhead : ∀ c ∈ path.head?, isSpace c = false) (hnewline : 0x0A ∉ path)
    (hlt : path.length < 256) : MapLine where
  start := start
  stop := stop
  perms := ascii "r--p"
  offset := 0
  major := 0xFD
  minor := 0
  inode := inode
  pad := 20
  path := path
  perms_length := by decide
  perms_chars := by decide +kernel
  major_lt := by decide
  minor_lt := by decide
  inode_lt := hinode
  path_head := hhead
  path_newline := hnewline
  path_lt := hlt

/-- The library. -/
def artLine : MapLine :=
  mapLine 0x7100000000 0x7100200000 34 (ascii "/apex/com.android.art/lib64/libart.so") (by decide)
    (by decide +kernel) (by decide +kernel) (by decide +kernel)

/-- A backup of it. -/
def backupLine : MapLine :=
  mapLine 0x7000000000 0x7000200000 12 (ascii "/data/local/tmp/libart.so.bak") (by decide)
    (by decide +kernel) (by decide +kernel) (by decide +kernel)

/-- The code of the library, mapped behind its start. -/
def artCodeLine : MapLine := { artLine with
  start := 0x7100200000
  stop := 0x7100800000
  perms := ascii "r-xp"
  offset := 0x200000
  perms_length := by decide
  perms_chars := by decide +kernel }

/-- The executable of the process. -/
def zygoteLine : MapLine :=
  mapLine 0x5500000000 0x5500010000 21 (ascii "/system/bin/app_process64") (by decide)
    (by decide +kernel) (by decide +kernel) (by decide +kernel)

/-- A mapping without a file. -/
def anonymousLine : MapLine :=
  mapLine 0x7100900000 0x7100910000 0 [] (by decide) (by decide) (by decide) (by decide)

/-- The library between other mappings. -/
def artMaps : Maps where
  lines := [zygoteLine, artLine, artCodeLine, anonymousLine]
  short := by decide +kernel

theorem findLibraryInfo_artMaps :
    artMaps.lines.find? (fun l => l.offset = 0 ∧ l.basename = ascii "libart.so") = some artLine ∧
      findLibraryInfo (some artMaps.text) (ascii "libart.so") =
        some (artLine.start, artLine.path) := by
  have hfind : artMaps.lines.find? (fun l => l.offset = 0 ∧ l.basename = ascii "libart.so") =
      some artLine :=
    (List.find?_cons_of_neg (by decide +kernel)).trans (List.find?_cons_of_pos (by decide +kernel))
  refine ⟨hfind, (findLibraryInfo_eq_first_iff artMaps hfind).2.mpr ⟨artLine, ?_, rfl, ?_⟩⟩
  · exact (List.find?_cons_of_neg (by decide +kernel)).trans
      (List.find?_cons_of_pos (by decide +kernel))
  · decide +kernel

/-- A map with the backup at the lower address. -/
def backupMaps : Maps where
  lines := [backupLine, artLine]
  short := by decide +kernel

/-- The backup is taken for the library. -/
theorem backupMaps_not_first :
    (backupMaps.lines.find? fun l => l.offset = 0 ∧ l.basename = ascii "libart.so").map
      MapLine.start =
        some artLine.start ∧
      findLibraryInfo (some backupMaps.text) (ascii "libart.so") =
        some (backupLine.start, backupLine.path) ∧
        backupLine.start ≠ artLine.start := by
  decide +kernel

end ElfSymbolResolver
end CalvinHook
