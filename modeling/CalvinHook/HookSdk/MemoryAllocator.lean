import CalvinHook.A64.Memory
import Mathlib.Data.List.ModifyLast
import Mathlib.Data.List.Sort

/-!
# `memory_allocator.cpp`: executable memory near an address

`NearCodeAllocator` keeps a list of pages, each with a watermark `used`.  `allocNearCode` first
looks for room in these pages, then for a gap between the mappings of the process, and falls back to
a page anywhere.  The answers of the kernel during a call are a parameter (`Kernel`).

* `tryAllocFromExisting_of_find?_eq_some`: the first tier takes the first page that fits, and no
  other page changes.
* `tryAllocInGap_spec`, `allocPage_spec`, `mapsPages_allocNearCode`: the pages the other tiers
  append.
* `allocNearCode_spec`: what one call does to the list of pages and where the returned block lies.
-/

namespace CalvinHook

open A64

/-- The size of a page, a power of two between 4 KiB and 2 GiB. -/
structure PageSize where
  log : ℕ
  log_ge : 12 ≤ log
  log_lt : log < 32

/-- `GetPageSize`. -/
def PageSize.bytes (ps : PageSize) : ℕ := 2 ^ ps.log

theorem PageSize.bytes_lt (ps : PageSize) : ps.bytes < 2 ^ 32 :=
  Nat.pow_lt_pow_right (by omega) ps.log_lt

theorem PageSize.le_bytes (ps : PageSize) : 4096 ≤ ps.bytes :=
  Nat.pow_le_pow_right (n := 2) (by omega) ps.log_ge

/-- The page size of the platforms the library was written for. -/
def PageSize.small : PageSize := ⟨12, by omega, by omega⟩

/-- `MemRegion`: one line of `/proc/self/maps`. -/
structure MemRegion where
  start : Addr
  stop : Addr
  deriving DecidableEq, Repr

/-- `LinearPage`. -/
structure LinearPage where
  base : Addr
  used : BitVec 32
  capacity : BitVec 32
  deriving DecidableEq, Repr

/-- What the kernel answers during one call: the mappings, and the address each form of `mmap`
returns, if it succeeds. -/
structure Kernel where
  /-- `ParseMaps`. -/
  parseMaps : List MemRegion
  /-- `mmap` at an address with `MAP_FIXED_NOREPLACE`. -/
  mmapNoReplace : Addr → Option Addr
  /-- `mmap` at an address with `MAP_FIXED`. -/
  mmapFixed : Addr → Option Addr
  /-- `mmap` at any address. -/
  mmapAny : Option Addr

namespace NearCodeAllocator

variable (ps : PageSize) (k : Kernel)

/-! ## The source -/

/-- A new page with nothing used. -/
def newPage (base : Addr) : LinearPage := ⟨base, 0, BitVec.ofNat 32 ps.bytes⟩

/-- `AllocPage`: the pages afterwards and the returned pointer, `0` for `nullptr`. -/
def allocPage (pages : List LinearPage) : List LinearPage × Addr :=
  match k.mmapAny with
  | none => (pages, 0)
  | some page => (pages ++ [newPage ps page], page)

/-- `AllocFixedPage`. -/
def allocFixedPage (addr : Addr) (pages : List LinearPage) : List LinearPage × Addr :=
  let aligned := addr &&& ~~~(BitVec.ofNat 64 ps.bytes - 1)
  match (k.mmapNoReplace aligned).or (k.mmapFixed aligned) with
  | none => (pages, 0)
  | some page => (pages ++ [newPage ps page], page)

/-- `pages_.back().used = size`. -/
def setBackUsed (size : BitVec 64) (pages : List LinearPage) : List LinearPage :=
  pages.modifyLast fun p => { p with used := size.setWidth 32 }

/-- The lowest address within `range` of `nearAddr`. -/
def lo (nearAddr range : Addr) : Addr := if nearAddr > range then nearAddr - range else 0

/-- The highest address within `range` of `nearAddr`. -/
def hi (nearAddr range : Addr) : Addr := nearAddr + range

/-- The next free address of a page. -/
def allocAddr (page : LinearPage) : Addr := page.base + page.used.setWidth 64

/-- The page has room for `size` bytes, and they lie within range. -/
def fits (size nearAddr range : Addr) (page : LinearPage) : Bool :=
  let remaining := page.capacity - page.used
  !(remaining.setWidth 64 < size) &&
    (allocAddr page ≥ lo nearAddr range && allocAddr page ≤ hi nearAddr range)

/-- `page.used += size`. -/
def bump (size : BitVec 64) (page : LinearPage) : LinearPage :=
  { page with used := page.used + size.setWidth 32 }

/-- `TryAllocFromExisting`. -/
def tryAllocFromExisting (size nearAddr range : Addr) : List LinearPage → List LinearPage × Addr
  | [] => ([], 0)
  | page :: pages =>
    if fits size nearAddr range page then (bump size page :: pages, allocAddr page)
    else
      let rest := tryAllocFromExisting size nearAddr range pages
      (page :: rest.1, rest.2)

/-- The first page boundary at or after an address. -/
def alignUp (a : Addr) : Addr :=
  (a + BitVec.ofNat 64 ps.bytes - 1) &&& ~~~(BitVec.ofNat 64 ps.bytes - 1)

/-- The loop of `TryAllocInGap` over the gaps between consecutive regions. -/
def tryGaps (size nearAddr range : Addr) :
    List MemRegion → List LinearPage → List LinearPage × Addr
  | r :: r' :: regions, pages =>
    let gapStart := r.stop
    let gapEnd := r'.start
    let candidate := alignUp ps gapStart
    if gapEnd ≤ gapStart ∨ candidate + BitVec.ofNat 64 ps.bytes > gapEnd then
      tryGaps size nearAddr range (r' :: regions) pages
    else if candidate ≥ lo nearAddr range ∧ candidate ≤ hi nearAddr range then
      let alloc := allocFixedPage ps k candidate pages
      if alloc.2 ≠ 0 then (setBackUsed size alloc.1, alloc.2)
      else tryGaps size nearAddr range (r' :: regions) alloc.1
    else tryGaps size nearAddr range (r' :: regions) pages
  | _, pages => (pages, 0)

/-- `TryAllocInGap`. -/
def tryAllocInGap (size nearAddr range : Addr) (pages : List LinearPage) :
    List LinearPage × Addr :=
  match k.parseMaps.insertionSort fun a b => a.start ≤ b.start with
  | [] => (pages, 0)
  | first :: regions =>
    let gaps := tryGaps ps k size nearAddr range (first :: regions) pages
    if gaps.2 ≠ 0 then gaps
    else
      let before := alignUp ps (lo nearAddr range)
      if before < first.start ∧ before ≥ lo nearAddr range then
        let alloc := allocFixedPage ps k before gaps.1
        if alloc.2 ≠ 0 then (setBackUsed size alloc.1, alloc.2) else alloc
      else (gaps.1, 0)

/-- The size a request is rounded up to. -/
def roundUp (size : BitVec 64) : BitVec 64 := (size + 7) &&& ~~~7#64

/-- `AllocNearCode`. -/
def allocNearCode (size nearAddr range : Addr) (pages : List LinearPage) :
    List LinearPage × Addr :=
  let size := roundUp size
  let existing := tryAllocFromExisting size nearAddr range pages
  if existing.2 ≠ 0 then existing
  else
    let gap := tryAllocInGap ps k size nearAddr range existing.1
    if gap.2 ≠ 0 then gap
    else
      let any := allocPage ps k gap.1
      if any.2 = 0 then any else (setBackUsed size any.1, any.2)

/-! ## The first tier -/

section FirstTier

variable {size nearAddr range : Addr} {pages : List LinearPage} {p : LinearPage}

theorem tryAllocFromExisting_of_find?_eq_none
    (h : pages.find? (fits size nearAddr range) = none) :
    tryAllocFromExisting size nearAddr range pages = (pages, 0) := by
  induction pages with
  | nil => rfl
  | cons page pages ih =>
    rw [List.find?_cons] at h
    cases hf : fits size nearAddr range page with
    | true =>
      rw [hf] at h
      exact absurd h (by simp)
    | false =>
      rw [hf] at h
      simp only [tryAllocFromExisting, hf, ih h]
      rfl

/-- The first page that fits is taken, and no other page changes. -/
theorem tryAllocFromExisting_of_find?_eq_some
    (h : pages.find? (fits size nearAddr range) = some p) :
    ∃ pre post, pages = pre ++ p :: post ∧
      tryAllocFromExisting size nearAddr range pages =
        (pre ++ bump size p :: post, allocAddr p) := by
  induction pages with
  | nil => exact absurd h (by simp)
  | cons page pages ih =>
    rw [List.find?_cons] at h
    cases hf : fits size nearAddr range page with
    | true =>
      rw [hf] at h
      obtain rfl : page = p := Option.some.inj h
      refine ⟨[], pages, rfl, ?_⟩
      rw [tryAllocFromExisting, if_pos hf]
      rfl
    | false =>
      rw [hf] at h
      obtain ⟨pre, post, hpages, hres⟩ := ih h
      refine ⟨page :: pre, post, by rw [hpages, List.cons_append], ?_⟩
      simp only [tryAllocFromExisting, hf, hres]
      rfl

end FirstTier

/-! ## The tiers that map pages -/

/-- The result has the old pages followed by new ones, on each of which nothing or `size` bytes are
used; a returned pointer is the base of a new page on which `size` bytes are used. -/
def Appends (size : BitVec 64) (pages : List LinearPage) (res : List LinearPage × Addr) : Prop :=
  ∃ new, res.1 = pages ++ new ∧
    (∀ q ∈ new, q.capacity = BitVec.ofNat 32 ps.bytes ∧
      (q.used = 0 ∨ q.used = size.setWidth 32)) ∧
    (res.2 ≠ 0 → ∃ q ∈ new, q.base = res.2 ∧ q.used = size.setWidth 32)

/-- The page a call has mapped and returned, with `size` bytes used. -/
def returnedPage (size : BitVec 64) (base : Addr) : List LinearPage :=
  if base = 0 then [] else [⟨base, size.setWidth 32, BitVec.ofNat 32 ps.bytes⟩]

/-- The old pages are followed by pages that the kernel mapped at null, which are kept but not
returned, and by the returned page. -/
def MapsPages (size : BitVec 64) (pages : List LinearPage) (res : List LinearPage × Addr) : Prop :=
  ∃ n, res.1 = pages ++ (List.replicate n (newPage ps 0) ++ returnedPage ps size res.2)

section Appends

variable {ps k} {size nearAddr range : Addr} {pages pages' : List LinearPage} {r : Addr}

theorem returnedPage_zero : returnedPage ps size 0 = [] := if_pos rfl

theorem returnedPage_of_ne {base : Addr} (h : base ≠ 0) :
    returnedPage ps size base = [⟨base, size.setWidth 32, BitVec.ofNat 32 ps.bytes⟩] := if_neg h

theorem MapsPages.refl (pages : List LinearPage) : MapsPages ps size pages (pages, 0) :=
  ⟨0, by rw [returnedPage_zero]; simp⟩

theorem MapsPages.trans {gap res : List LinearPage × Addr} (h : MapsPages ps size pages gap)
    (hnull : gap.2 = 0) (h' : MapsPages ps size gap.1 res) : MapsPages ps size pages res := by
  obtain ⟨n, hn⟩ := h
  obtain ⟨n', hn'⟩ := h'
  rw [hnull, returnedPage_zero, List.append_nil] at hn
  refine ⟨n + n', ?_⟩
  rw [hn', hn, List.append_assoc, ← List.append_assoc (List.replicate n _),
    List.replicate_append_replicate]

/-- A page mapped at null. -/
theorem mapsPages_newPage : MapsPages ps size pages (pages ++ [newPage ps 0], 0) :=
  ⟨1, by rw [returnedPage_zero]; rfl⟩

/-- A new page that is returned with `size` bytes used. -/
theorem mapsPages_setBackUsed {base : Addr} (h : base ≠ 0) :
    MapsPages ps size pages (setBackUsed size (pages ++ [newPage ps base]), base) := by
  refine ⟨0, ?_⟩
  rw [returnedPage_of_ne h]
  exact List.modifyLast_concat _ _ _

theorem MapsPages.appends {res : List LinearPage × Addr} (h : MapsPages ps size pages res) :
    Appends ps size pages res := by
  obtain ⟨n, hn⟩ := h
  refine ⟨_, hn, ?_, ?_⟩
  · intro q hq
    rcases List.mem_append.mp hq with hq | hq
    · rw [List.eq_of_mem_replicate hq]
      exact ⟨rfl, Or.inl rfl⟩
    · rw [returnedPage] at hq
      split_ifs at hq with hzero
      · exact absurd hq (by simp)
      · rw [List.mem_singleton.mp hq]
        exact ⟨rfl, Or.inr rfl⟩
  · intro hr
    rw [returnedPage_of_ne hr]
    exact ⟨_, List.mem_append_right _ (List.mem_singleton_self _), rfl, rfl⟩

/-- The answer of `mmap`: its page is appended and, when it is returned, used. -/
theorem mapsPages_mmap (ps : PageSize) (size : Addr) (pages : List LinearPage)
    (answer : Option Addr) {res : List LinearPage × Addr}
    (hres : res = match answer with
      | none => (pages, 0)
      | some page => (pages ++ [newPage ps page], page)) :
    (res.2 = 0 → MapsPages ps size pages res) ∧
    (res.2 ≠ 0 → MapsPages ps size pages (setBackUsed size res.1, res.2)) := by
  subst hres
  cases answer with
  | none => exact ⟨fun _ => MapsPages.refl pages, fun h => absurd rfl h⟩
  | some page =>
    refine ⟨?_, mapsPages_setBackUsed⟩
    rintro rfl
    exact mapsPages_newPage

theorem allocFixedPage_spec (ps : PageSize) (k : Kernel) (size addr : Addr)
    (pages : List LinearPage) :
    ((allocFixedPage ps k addr pages).2 = 0 →
      MapsPages ps size pages (allocFixedPage ps k addr pages)) ∧
    ((allocFixedPage ps k addr pages).2 ≠ 0 →
      MapsPages ps size pages (setBackUsed size (allocFixedPage ps k addr pages).1,
        (allocFixedPage ps k addr pages).2)) :=
  mapsPages_mmap ps size pages _ rfl

theorem allocPage_spec (ps : PageSize) (k : Kernel) (size : Addr) (pages : List LinearPage) :
    ((allocPage ps k pages).2 = 0 → MapsPages ps size pages (allocPage ps k pages)) ∧
    ((allocPage ps k pages).2 ≠ 0 →
      MapsPages ps size pages (setBackUsed size (allocPage ps k pages).1,
        (allocPage ps k pages).2)) :=
  mapsPages_mmap ps size pages _ rfl

theorem tryGaps_spec (ps : PageSize) (k : Kernel) (size nearAddr range : Addr)
    (regions : List MemRegion) (pages : List LinearPage) :
    MapsPages ps size pages (tryGaps ps k size nearAddr range regions pages) := by
  induction regions generalizing pages with
  | nil => exact MapsPages.refl pages
  | cons r regions ih =>
    cases regions with
    | nil => exact MapsPages.refl pages
    | cons r' regions =>
      rw [tryGaps]
      dsimp only
      have hfixed := allocFixedPage_spec ps k size (alignUp ps r.stop) pages
      split_ifs with hgap hrange hnull
      · exact ih pages
      · exact hfixed.2 hnull
      · rw [not_not] at hnull
        exact (hfixed.1 hnull).trans hnull (ih _)
      · exact ih pages

theorem tryAllocInGap_spec (ps : PageSize) (k : Kernel) (size nearAddr range : Addr)
    (pages : List LinearPage) :
    MapsPages ps size pages (tryAllocInGap ps k size nearAddr range pages) := by
  rw [tryAllocInGap]
  split
  · exact MapsPages.refl pages
  · rename_i first regions _
    have hgaps := tryGaps_spec ps k size nearAddr range (first :: regions) pages
    dsimp only
    split_ifs with hret hbefore hnull
    · exact hgaps
    · exact hgaps.trans (not_not.mp hret) ((allocFixedPage_spec ps k size _ _).2 hnull)
    · exact hgaps.trans (not_not.mp hret) ((allocFixedPage_spec ps k size _ _).1 (not_not.mp hnull))
    · exact hgaps.trans (not_not.mp hret) (MapsPages.refl _)

/-- The second and the third tier, after the first one has found nothing. -/
theorem mapsPages_allocNearCode (ps : PageSize) (k : Kernel)
    (h : (tryAllocFromExisting (roundUp size) nearAddr range pages).2 = 0) :
    MapsPages ps (roundUp size) (tryAllocFromExisting (roundUp size) nearAddr range pages).1
      (allocNearCode ps k size nearAddr range pages) := by
  rw [allocNearCode]
  dsimp only
  rw [if_neg (not_not.mpr h)]
  generalize (tryAllocFromExisting (roundUp size) nearAddr range pages).1 = old
  have hgap := tryAllocInGap_spec ps k (roundUp size) nearAddr range old
  split_ifs with h1 h2
  · exact hgap
  · exact hgap.trans (not_not.mp h1) ((allocPage_spec ps k (roundUp size) _).1 h2)
  · exact hgap.trans (not_not.mp h1) ((allocPage_spec ps k (roundUp size) _).2 h2)

end Appends

/-! ## `AllocNearCode` -/

section AllocNearCode

variable {ps k} {size nearAddr range : Addr} {pages : List LinearPage}

/-- The page the first tier takes. -/
def pick (size nearAddr range : Addr) (pages : List LinearPage) : Option LinearPage :=
  pages.find? (fits (roundUp size) nearAddr range)

/-- A page that fits gives its next free address, unless that is null. -/
theorem allocNearCode_of_pick (ps : PageSize) (k : Kernel) {p : LinearPage}
    (hpick : pick size nearAddr range pages = some p) (hp : allocAddr p ≠ 0) :
    ∃ pre post, pages = pre ++ p :: post ∧
      allocNearCode ps k size nearAddr range pages =
        (pre ++ bump (roundUp size) p :: post, allocAddr p) := by
  obtain ⟨pre, post, hpages, htry⟩ := tryAllocFromExisting_of_find?_eq_some hpick
  refine ⟨pre, post, hpages, ?_⟩
  rw [allocNearCode]
  dsimp only
  rw [htry, if_pos hp]

/-- **What one call does to the pages.**  The old pages stay, except that the page the first tier
takes gets `size` more bytes used; new pages follow.  A returned block lies at the old watermark of
the page taken, or at the base of a new page. -/
theorem allocNearCode_spec (ps : PageSize) (k : Kernel) (size nearAddr range : Addr)
    (pages : List LinearPage) :
    ∃ old new, (allocNearCode ps k size nearAddr range pages).1 = old ++ new ∧
      (pick size nearAddr range pages = none ∧ old = pages ∨
        ∃ pre p post, pick size nearAddr range pages = some p ∧ pages = pre ++ p :: post ∧
          old = pre ++ bump (roundUp size) p :: post) ∧
      (∀ q ∈ new, q.capacity = BitVec.ofNat 32 ps.bytes ∧
        (q.used = 0 ∨ q.used = (roundUp size).setWidth 32)) ∧
      ((allocNearCode ps k size nearAddr range pages).2 ≠ 0 →
        (∃ p, pick size nearAddr range pages = some p ∧ bump (roundUp size) p ∈ old ∧
          (allocNearCode ps k size nearAddr range pages).2 = allocAddr p) ∨
        ∃ q ∈ new, q.base = (allocNearCode ps k size nearAddr range pages).2 ∧
          q.used = (roundUp size).setWidth 32) := by
  cases hpick : pick size nearAddr range pages with
  | none =>
    have htry := tryAllocFromExisting_of_find?_eq_none hpick
    obtain ⟨new, hnew, hused, hret⟩ := (mapsPages_allocNearCode ps k (by rw [htry])).appends
    rw [htry] at hnew
    exact ⟨pages, new, hnew, Or.inl ⟨rfl, rfl⟩, hused, fun h => Or.inr (hret h)⟩
  | some p =>
    by_cases hzero : allocAddr p = 0
    · obtain ⟨pre, post, hpages, htry⟩ := tryAllocFromExisting_of_find?_eq_some hpick
      obtain ⟨new, hnew, hused, hret⟩ :=
        (mapsPages_allocNearCode ps k (by rw [htry]; exact hzero)).appends
      rw [htry] at hnew
      exact ⟨_, new, hnew, Or.inr ⟨pre, p, post, rfl, hpages, rfl⟩, hused, fun h => Or.inr (hret h)⟩
    · obtain ⟨pre, post, hpages, hres⟩ := allocNearCode_of_pick ps k hpick hzero
      refine ⟨_, [], by rw [hres, List.append_nil],
        Or.inr ⟨pre, p, post, rfl, hpages, rfl⟩, by simp, fun _ => Or.inl ?_⟩
      exact ⟨p, rfl, by simp, by rw [hres]⟩

/-- The watermark is inside the page. -/
def Watermarked (pages : List LinearPage) : Prop := ∀ p ∈ pages, p.used ≤ p.capacity

/-- Taking a page that fits keeps its watermark inside, and the block below it. -/
theorem toNat_bump {p : LinearPage} (h : p.used ≤ p.capacity)
    (hf : fits size nearAddr range p = true) :
    (bump size p).used.toNat = p.used.toNat + size.toNat ∧
      p.used.toNat + size.toNat ≤ p.capacity.toNat := by
  simp only [fits, Bool.and_eq_true, Bool.not_eq_true', decide_eq_false_iff_not] at hf
  have hroom : size.toNat ≤ (p.capacity - p.used).toNat := by
    have h1 := BitVec.not_lt.mp hf.1
    rw [BitVec.le_def, BitVec.toNat_setWidth] at h1
    omega
  rw [BitVec.le_def] at h
  rw [BitVec.toNat_sub_of_le (BitVec.le_def.mpr h)] at hroom
  have hcap := p.capacity.isLt
  have hsum : p.used.toNat + size.toNat ≤ p.capacity.toNat := by omega
  refine ⟨?_, hsum⟩
  show (p.used + size.setWidth 32).toNat = _
  rw [BitVec.toNat_add, BitVec.toNat_setWidth]
  omega

/-- The rounding wraps for the seven largest sizes. -/
theorem toNat_roundUp_eq (size : BitVec 64) :
    (roundUp size).toNat = (size.toNat + 7) % 2 ^ 64 / 8 * 8 := by
  have hmask : (roundUp size).toNat = (size + 7).toNat / 8 * 8 := toNat_and_not_mask _ 3
  rw [hmask, BitVec.toNat_add]
  rfl

theorem toNat_roundUp {n : ℕ} (hn : n ≤ 4096) :
    (roundUp (BitVec.ofNat 64 n)).toNat = (n + 7) / 8 * 8 := by
  rw [toNat_roundUp_eq, BitVec.toNat_ofNat]
  omega

/-- The rounding keeps a request of at most a page within the page. -/
theorem toNat_roundUp_le (ps : PageSize) (h : size.toNat ≤ ps.bytes) :
    size.toNat ≤ (roundUp size).toNat ∧ (roundUp size).toNat ≤ ps.bytes := by
  have h8 : 2 ^ 3 ∣ ps.bytes := Nat.pow_dvd_pow 2 (by have := ps.log_ge; omega)
  have hlt := ps.bytes_lt
  rw [toNat_roundUp_eq]
  omega

theorem toNat_capacity {q : LinearPage} (h : q.capacity = BitVec.ofNat 32 ps.bytes) :
    q.capacity.toNat = ps.bytes := by
  rw [h, BitVec.toNat_ofNat, Nat.mod_eq_of_lt ps.bytes_lt]

/-- The capacity of a new page and what a request uses of it. -/
theorem newPage_bounds (ps : PageSize) {n : ℕ} (hn : n ≤ 4096) {q : LinearPage}
    (hcap : q.capacity = BitVec.ofNat 32 ps.bytes) :
    q.capacity.toNat = ps.bytes ∧
      ((roundUp (BitVec.ofNat 64 n)).setWidth 32).toNat = (n + 7) / 8 * 8 ∧
      (n + 7) / 8 * 8 ≤ ps.bytes := by
  have hle := ps.le_bytes
  refine ⟨toNat_capacity hcap, ?_, by omega⟩
  rw [BitVec.toNat_setWidth, toNat_roundUp hn]
  omega

theorem fits_of_pick {p : LinearPage} (h : pick size nearAddr range pages = some p) :
    fits (roundUp size) nearAddr range p = true ∧ p ∈ pages :=
  ⟨List.find?_some h, List.mem_of_find?_eq_some h⟩

/-- Each page afterwards is an old one, the page taken, or a new one. -/
theorem mem_allocNearCode_cases {q : LinearPage}
    (hq : q ∈ (allocNearCode ps k size nearAddr range pages).1) :
    q ∈ pages ∨ (∃ p, pick size nearAddr range pages = some p ∧ q = bump (roundUp size) p) ∨
      q.capacity = BitVec.ofNat 32 ps.bytes ∧
        (q.used = 0 ∨ q.used = (roundUp size).setWidth 32) := by
  obtain ⟨old, new, hres, hold, hnew, -⟩ := allocNearCode_spec ps k size nearAddr range pages
  rw [hres, List.mem_append] at hq
  rcases hq with hq | hq
  · rcases hold with ⟨-, rfl⟩ | ⟨pre, p, post, hpick, hpages, rfl⟩
    · exact Or.inl hq
    · rw [List.mem_append, List.mem_cons] at hq
      rw [hpages, List.mem_append, List.mem_cons]
      rcases hq with hq | hq | hq
      · exact Or.inl (Or.inl hq)
      · exact Or.inr (Or.inl ⟨p, by rw [← hpages, hpick], hq⟩)
      · exact Or.inl (Or.inr (Or.inr hq))
  · exact Or.inr (Or.inr (hnew q hq))

/-- Pages are never given back: each old page stays, and only the page taken changes. -/
theorem exists_mem_allocNearCode (ps : PageSize) (k : Kernel) {p : LinearPage} (hp : p ∈ pages) :
    ∃ p' ∈ (allocNearCode ps k size nearAddr range pages).1,
      p' = p ∨ pick size nearAddr range pages = some p ∧ p' = bump (roundUp size) p := by
  obtain ⟨old, new, hres, hold, -⟩ := allocNearCode_spec ps k size nearAddr range pages
  rw [hres]
  rcases hold with ⟨-, rfl⟩ | ⟨pre, p', post, hpick, hpages, rfl⟩
  · exact ⟨p, List.mem_append_left _ hp, Or.inl rfl⟩
  · rw [hpages, List.mem_append, List.mem_cons] at hp
    rcases hp with hp | rfl | hp
    · exact ⟨p, by simp [hp], Or.inl rfl⟩
    · exact ⟨bump (roundUp size) p, by simp, Or.inr ⟨hpick, rfl⟩⟩
    · exact ⟨p, by simp [hp], Or.inl rfl⟩

/-- Taking a page keeps the bases. -/
theorem map_base_old {old : List LinearPage}
    (h : pick size nearAddr range pages = none ∧ old = pages ∨
      ∃ pre p post, pick size nearAddr range pages = some p ∧ pages = pre ++ p :: post ∧
        old = pre ++ bump (roundUp size) p :: post) :
    old.map LinearPage.base = pages.map LinearPage.base := by
  rcases h with ⟨-, rfl⟩ | ⟨pre, p, post, -, rfl, rfl⟩
  · rfl
  · rw [List.map_append, List.map_cons, List.map_append, List.map_cons]
    rfl

/-- A request of at most a page keeps the watermarks inside their pages. -/
theorem watermarked_allocNearCode_of_le (hsize : size.toNat ≤ ps.bytes) (h : Watermarked pages) :
    Watermarked (allocNearCode ps k size nearAddr range pages).1 := by
  intro q hq
  rcases mem_allocNearCode_cases hq with hq | ⟨p, hpick, rfl⟩ | ⟨hcap, hused⟩
  · exact h q hq
  · obtain ⟨hfits, hmem⟩ := fits_of_pick hpick
    have hb := toNat_bump (h p hmem) hfits
    rw [BitVec.le_def, hb.1]
    exact hb.2
  · rw [BitVec.le_def, toNat_capacity hcap]
    rcases hused with hused | hused
    · rw [hused]
      exact Nat.zero_le _
    · rw [hused, BitVec.toNat_setWidth]
      exact (Nat.mod_le _ _).trans (toNat_roundUp_le ps hsize).2

theorem watermarked_allocNearCode {n : ℕ} (hn : n ≤ 4096) (h : Watermarked pages) :
    Watermarked (allocNearCode ps k (BitVec.ofNat 64 n) nearAddr range pages).1 := by
  refine watermarked_allocNearCode_of_le ?_ h
  rw [BitVec.toNat_ofNat]
  exact (Nat.mod_le _ _).trans (hn.trans ps.le_bytes)

/-- The address lies in one of the pages. -/
def InPages (pages : List LinearPage) (x : Addr) : Prop :=
  ∃ p ∈ pages, InRange p.base p.capacity.toNat x

theorem inPages_allocNearCode {x : Addr} (h : InPages pages x) :
    InPages (allocNearCode ps k size nearAddr range pages).1 x := by
  obtain ⟨p, hp, hx⟩ := h
  obtain ⟨p', hp', rfl | ⟨-, rfl⟩⟩ := exists_mem_allocNearCode ps k hp
  · exact ⟨p', hp', hx⟩
  · exact ⟨_, hp', hx⟩

/-- **The returned block lies in a page.** -/
theorem inPages_of_inRange_block {n m : ℕ} (hn : n ≤ 4096) (hmn : m ≤ n) (h : Watermarked pages)
    (hr : (allocNearCode ps k (BitVec.ofNat 64 n) nearAddr range pages).2 ≠ 0) {x : Addr}
    (hx : InRange (allocNearCode ps k (BitVec.ofNat 64 n) nearAddr range pages).2 m x) :
    InPages (allocNearCode ps k (BitVec.ofNat 64 n) nearAddr range pages).1 x := by
  obtain ⟨old, new, hres, -, hnew, hret⟩ :=
    allocNearCode_spec ps k (BitVec.ofNat 64 n) nearAddr range pages
  rcases hret hr with ⟨p, hpick, hmem, haddr⟩ | ⟨q, hq, hbase, -⟩
  · obtain ⟨hfits, hp⟩ := fits_of_pick hpick
    have hb := toNat_bump (h p hp) hfits
    rw [toNat_roundUp hn] at hb
    rw [haddr] at hx
    refine ⟨bump (roundUp (BitVec.ofNat 64 n)) p,
      by rw [hres]; exact List.mem_append_left _ hmem, ?_⟩
    rw [allocAddr, ← BitVec.ofNat_toNat] at hx
    exact inRange_of_inRange_add hx (by show _ ≤ p.capacity.toNat; omega)
  · obtain ⟨h1, -, h3⟩ := newPage_bounds ps hn (hnew q hq).1
    rw [← hbase] at hx
    refine ⟨q, by rw [hres]; exact List.mem_append_right _ hq, ?_⟩
    rw [h1]
    exact hx.mono (by omega)

end AllocNearCode

end NearCodeAllocator

end CalvinHook
