import CalvinHook.HookSdk.NearSearch
import CalvinHook.Transition
import Mathlib.Logic.Function.Basic

/-!
# `memory_allocator.cpp`: what fixed mappings do to the address space

`TryAllocInGap` looks for gaps in a list of regions that was read earlier; in the meantime other
threads, and the reading itself, may have mapped pages there.  Here the search runs in a world that
changes: every call of `mmap` finds the pages in the state the rest of the process has brought them
to, and is logged with the state before and after it.

* `allocFixedPageM`, `tryGapsM`, `tryAllocInGapM`: the functions of the source with the state of the
  kernel passed along.  With a kernel whose answers are fixed they are the functions of
  `MemoryAllocator` (`tryAllocInGapM_static`).
* `triedPages`: the pages the search tries for a snapshot; `tryAllocInGapM_eq`: it tries these, one
  after the other.
* `Env.mmap`: `MAP_FIXED_NOREPLACE` fails on a page that is mapped, `MAP_FIXED` replaces it.
* `Env.tried`, `Env.Passes`: what trying a page does to the pages of the process, and when the
  search goes on to the next one, by what the environment does at that moment.
* `search_harmless_iff`: the search destroys no mapping exactly if each of these pages that it comes
  to is free when `MAP_FIXED` is granted for it.
-/

namespace CalvinHook

open A64 Transition

namespace NearCodeAllocator

/-! ## The search with a kernel that has a state -/

section Stateful

variable {σ : Type*} (ps : PageSize) (mmap : Bool → Addr → σ → σ × Option Addr)

/-- `AllocFixedPage`; the flag of `mmap` is `true` for `MAP_FIXED`, `false` for
`MAP_FIXED_NOREPLACE`. -/
def allocFixedPageM (addr : Addr) (s : σ) (pages : List LinearPage) : σ × List LinearPage × Addr :=
  let aligned := addr &&& ~~~(BitVec.ofNat 64 ps.bytes - 1)
  match mmap false aligned s with
  | (s, some page) => (s, pages ++ [newPage ps page], page)
  | (s, none) =>
    match mmap true aligned s with
    | (s, some page) => (s, pages ++ [newPage ps page], page)
    | (s, none) => (s, pages, 0)

/-- The loop of `TryAllocInGap`. -/
def tryGapsM (size nearAddr range : Addr) :
    List MemRegion → σ → List LinearPage → σ × List LinearPage × Addr
  | r :: r' :: regions, s, pages =>
    let gapStart := r.stop
    let gapEnd := r'.start
    let candidate := alignUp ps gapStart
    if gapEnd ≤ gapStart ∨ candidate + BitVec.ofNat 64 ps.bytes > gapEnd then
      tryGapsM size nearAddr range (r' :: regions) s pages
    else if candidate ≥ lo nearAddr range ∧ candidate ≤ hi nearAddr range then
      let alloc := allocFixedPageM ps mmap candidate s pages
      if alloc.2.2 ≠ 0 then (alloc.1, setBackUsed size alloc.2.1, alloc.2.2)
      else tryGapsM size nearAddr range (r' :: regions) alloc.1 alloc.2.1
    else tryGapsM size nearAddr range (r' :: regions) s pages
  | _, s, pages => (s, pages, 0)

/-- `TryAllocInGap`, with the regions that `ParseMaps` returned. -/
def tryAllocInGapM (maps : List MemRegion) (size nearAddr range : Addr) (s : σ)
    (pages : List LinearPage) : σ × List LinearPage × Addr :=
  match maps.insertionSort fun a b => a.start ≤ b.start with
  | [] => (s, pages, 0)
  | first :: regions =>
    let gaps := tryGapsM ps mmap size nearAddr range (first :: regions) s pages
    if gaps.2.2 ≠ 0 then gaps
    else
      let before := alignUp ps (lo nearAddr range)
      if before < first.start ∧ before ≥ lo nearAddr range then
        let alloc := allocFixedPageM ps mmap before gaps.1 gaps.2.1
        if alloc.2.2 ≠ 0 then (alloc.1, setBackUsed size alloc.2.1, alloc.2.2) else alloc
      else (gaps.1, gaps.2.1, 0)

/-- A kernel whose answers are fixed. -/
def staticMmap (k : Kernel) (replace : Bool) (a : Addr) (s : Unit) : Unit × Option Addr :=
  (s, if replace then k.mmapFixed a else k.mmapNoReplace a)

variable (k : Kernel) (size nearAddr range : Addr)

theorem allocFixedPageM_static (addr : Addr) (pages : List LinearPage) :
    allocFixedPageM ps (staticMmap k) addr () pages = ((), allocFixedPage ps k addr pages) := by
  simp only [allocFixedPageM, allocFixedPage, staticMmap]
  cases k.mmapNoReplace (addr &&& ~~~(BitVec.ofNat 64 ps.bytes - 1)) with
  | some page => rfl
  | none =>
    cases k.mmapFixed (addr &&& ~~~(BitVec.ofNat 64 ps.bytes - 1)) with
    | some page => rfl
    | none => rfl

theorem tryGapsM_static (regions : List MemRegion) (pages : List LinearPage) :
    tryGapsM ps (staticMmap k) size nearAddr range regions () pages =
      ((), tryGaps ps k size nearAddr range regions pages) := by
  induction regions generalizing pages with
  | nil => rfl
  | cons r regions ih =>
    cases regions with
    | nil => rfl
    | cons r' regions =>
      rw [tryGapsM, tryGaps]
      dsimp only
      rw [allocFixedPageM_static]
      split_ifs
      · exact ih pages
      · rfl
      · exact ih _
      · exact ih pages

/-- **The two models agree**: with fixed answers the search is the one of `MemoryAllocator`. -/
theorem tryAllocInGapM_static (pages : List LinearPage) :
    tryAllocInGapM ps (staticMmap k) k.parseMaps size nearAddr range () pages =
      ((), tryAllocInGap ps k size nearAddr range pages) := by
  rw [tryAllocInGapM, tryAllocInGap]
  cases k.parseMaps.insertionSort fun a b => a.start ≤ b.start with
  | nil => rfl
  | cons first regions =>
    dsimp only
    rw [tryGapsM_static, allocFixedPageM_static]
    split_ifs <;> rfl

/-! ### The pages that are tried -/

/-- The pages `TryAllocInGap` tries for a snapshot, in its order: in the gaps, then below the first
region. -/
def triedPages (maps : List MemRegion) : List Addr :=
  match maps.insertionSort fun a b => a.start ≤ b.start with
  | [] => []
  | first :: regions =>
    let before := alignUp ps (lo nearAddr range)
    gapCandidates ps nearAddr range (first :: regions) ++
      if before < first.start ∧ before ≥ lo nearAddr range then [before] else []

/-- Trying one page after the other. -/
def tryPagesM : List Addr → σ → List LinearPage → σ × List LinearPage × Addr
  | [], s, pages => (s, pages, 0)
  | page :: rest, s, pages =>
    let alloc := allocFixedPageM ps mmap page s pages
    if alloc.2.2 ≠ 0 then (alloc.1, setBackUsed size alloc.2.1, alloc.2.2)
    else tryPagesM rest alloc.1 alloc.2.1

theorem tryGapsM_eq (regions : List MemRegion) (s : σ) (pages : List LinearPage) :
    tryGapsM ps mmap size nearAddr range regions s pages =
      tryPagesM ps mmap size (gapCandidates ps nearAddr range regions) s pages := by
  induction regions generalizing s pages with
  | nil => rfl
  | cons r regions ih =>
    cases regions with
    | nil => rfl
    | cons r' regions =>
      rw [tryGapsM, gapCandidates]
      dsimp only
      split_ifs with hgap hrange hnull
      · exact ih s pages
      · rw [tryPagesM, if_pos hnull]
      · rw [tryPagesM, if_neg hnull]
        exact ih _ _
      · exact ih s pages

/-- A search that has found nothing goes on with the other pages. -/
theorem tryPagesM_append (l l' : List Addr) (s : σ) (pages : List LinearPage) :
    tryPagesM ps mmap size (l ++ l') s pages =
      let first := tryPagesM ps mmap size l s pages
      if first.2.2 ≠ 0 then first else tryPagesM ps mmap size l' first.1 first.2.1 := by
  induction l generalizing s pages with
  | nil => rfl
  | cons page l ih =>
    rw [List.cons_append, tryPagesM, tryPagesM]
    dsimp only
    by_cases hnull : (allocFixedPageM ps mmap page s pages).2.2 ≠ 0
    · rw [if_pos hnull, if_pos hnull, if_pos hnull]
    · rw [if_neg hnull, if_neg hnull]
      exact ih _ _

/-- **`TryAllocInGap` tries the pages of the snapshot**, one after the other. -/
theorem tryAllocInGapM_eq (maps : List MemRegion) (s : σ) (pages : List LinearPage) :
    tryAllocInGapM ps mmap maps size nearAddr range s pages =
      tryPagesM ps mmap size (triedPages ps nearAddr range maps) s pages := by
  rw [tryAllocInGapM, triedPages]
  cases maps.insertionSort fun a b => a.start ≤ b.start with
  | nil => rfl
  | cons first regions =>
    dsimp only
    rw [tryPagesM_append, ← tryGapsM_eq]
    dsimp only
    split_ifs with hfound htest hnull
    · rfl
    · rw [tryPagesM, if_pos hnull]
    · rw [not_not] at hnull
      rw [tryPagesM, if_neg (not_not.mpr hnull), tryPagesM, ← hnull]
    · rfl

end Stateful

/-! ## A world in which other threads map pages -/

/-- What is mapped at each page, given by its base: a mapping, by its number, or nothing. -/
abbrev Space := Addr → Option ℕ

/-- A call of `mmap` for one page: whether it may replace a mapping, whether the kernel has the
resources for it, and the pages immediately before and after it. -/
structure MmapCall where
  replace : Bool
  page : Addr
  granted : Bool
  before : Space
  after : Space

/-- The call maps the page: `MAP_FIXED_NOREPLACE` fails if it is mapped already. -/
def MmapCall.mapped (c : MmapCall) : Bool := c.granted && (c.replace || (c.before c.page).isNone)

/-- The rest of the process and the kernel: what happens to the pages before call `j`, whether the
kernel grants the call, and the number of the mapping it creates. -/
structure Env where
  change : ℕ → Space → Space
  grants : ℕ → Bool
  label : ℕ → ℕ

/-- The pages as they are, and the calls of `mmap` made so far. -/
structure World where
  space : Space
  log : List MmapCall := []

/-- The next call of `mmap`. -/
def Env.call (e : Env) (replace : Bool) (a : Addr) (w : World) : MmapCall :=
  let before := e.change w.log.length w.space
  let granted := e.grants w.log.length
  let after := if granted && (replace || (before a).isNone) then
    Function.update before a (some (e.label w.log.length)) else before
  ⟨replace, a, granted, before, after⟩

/-- `mmap` of one page at a fixed address. -/
def Env.mmap (e : Env) (replace : Bool) (a : Addr) (w : World) : World × Option Addr :=
  let call := e.call replace a w
  (⟨call.after, w.log ++ [call]⟩, if call.mapped then some a else none)

/-- The call mapped only a page that was not mapped, and every mapping there was is as it was. -/
def MmapCall.Harmless (c : MmapCall) : Prop :=
  (c.mapped = true → c.before c.page = none) ∧ ∀ a, c.before a ≠ none → c.after a = c.before a

/-- A `MAP_FIXED` that the kernel grants meets a page that is not mapped. -/
def MmapCall.MeetsFree (c : MmapCall) : Prop :=
  c.replace = true → c.granted = true → c.before c.page = none

/-- What a call of `mmap` does to the pages. -/
def MmapCall.Regular (c : MmapCall) : Prop :=
  if c.mapped then ∃ l, c.after = Function.update c.before c.page (some l) else c.after = c.before

section Harmless

variable {e : Env} {c : MmapCall} {w : World}

theorem Env.regular_call (e : Env) (replace : Bool) (a : Addr) (w : World) :
    (e.call replace a w).Regular := by
  unfold MmapCall.Regular
  split
  · rename_i hm
    exact ⟨e.label w.log.length, if_pos hm⟩
  · rename_i hm
    exact if_neg hm

/-- A single call destroys no mapping unless a granted `MAP_FIXED` meets one. -/
theorem MmapCall.Regular.harmless_iff (h : c.Regular) : c.Harmless ↔ c.MeetsFree := by
  unfold MmapCall.Regular at h
  constructor
  · intro hh hr hg
    exact hh.1 (by simp [MmapCall.mapped, hr, hg])
  · intro hfree
    by_cases hm : c.mapped = true
    · rw [if_pos hm] at h
      obtain ⟨l, hafter⟩ := h
      have hpage : c.before c.page = none := by
        rw [MmapCall.mapped, Bool.and_eq_true, Bool.or_eq_true, Option.isNone_iff_eq_none] at hm
        rcases hm with ⟨hg, hr | hnone⟩
        · exact hfree hr hg
        · exact hnone
      refine ⟨fun _ => hpage, fun a ha => ?_⟩
      rw [hafter, Function.update_of_ne]
      rintro rfl
      exact ha hpage
    · rw [if_neg hm] at h
      exact ⟨fun hm' => absurd hm' hm, fun a _ => by rw [h]⟩

end Harmless

/-! ## Trying a page -/

/-- A moment of the search: how many calls it has made, and the pages as the last of them left
them. -/
structure Moment where
  calls : ℕ
  space : Space

section Tried

variable (e : Env) (m : Moment) (page : Addr)

/-- The pages that the next call finds. -/
def Env.finds : Space := e.change m.calls m.space

/-- `MAP_FIXED_NOREPLACE` fails: the page is mapped, or the kernel does not grant the call. -/
def Env.Refuses : Prop := e.grants m.calls = false ∨ e.finds m page ≠ none

instance : Decidable (e.Refuses m page) := inferInstanceAs (Decidable (_ ∨ _))

/-- The moment after a call that fails. -/
def Env.failed : Moment := ⟨m.calls + 1, e.finds m⟩

/-- The moment after a call that maps the page. -/
def Env.mapped : Moment :=
  ⟨m.calls + 1, Function.update (e.finds m) page (some (e.label m.calls))⟩

/-- The moment after a page has been tried, with `MAP_FIXED` if `MAP_FIXED_NOREPLACE` fails. -/
def Env.tried : Moment :=
  if e.Refuses m page then
    if e.grants (m.calls + 1) then e.mapped (e.failed m) page else e.failed (e.failed m)
  else e.mapped m page

/-- The search goes on behind the page: both calls fail, or it is the page at 0, whose address is
taken for a failure. -/
def Env.Passes : Prop := (e.Refuses m page ∧ e.grants (m.calls + 1) = false) ∨ page = 0

/-- If `MAP_FIXED_NOREPLACE` fails and `MAP_FIXED` is granted, the page is free by then. -/
def Env.FreeForFixed : Prop :=
  e.Refuses m page → e.grants (m.calls + 1) = true → e.finds (e.failed m) page = none

/-- Every page of the list that the search comes to is free when `MAP_FIXED` is granted for it. -/
def Env.AllFree (pages : List Addr) : Prop :=
  ∀ pre page post, pages = pre ++ page :: post → AllSteps e.tried e.Passes m pre →
    e.FreeForFixed (run e.tried m pre) page

theorem Env.allFree_nil : e.AllFree m [] := by
  intro pre page post h
  exact absurd h (by simp)

theorem Env.allFree_cons (pages : List Addr) : e.AllFree m (page :: pages) ↔
    e.FreeForFixed m page ∧ (e.Passes m page → e.AllFree (e.tried m page) pages) := by
  constructor
  · intro h
    refine ⟨h [] page pages rfl trivial, fun hpass pre page' post hsplit hpre => ?_⟩
    exact h (page :: pre) page' post (by rw [hsplit]; rfl) ⟨hpass, hpre⟩
  · rintro ⟨hfree, hrest⟩ pre page' post hsplit hpre
    cases pre with
    | nil =>
      obtain ⟨rfl, -⟩ := List.cons.inj hsplit
      exact hfree
    | cons first pre =>
      obtain ⟨rfl, hpages⟩ := List.cons.inj hsplit
      exact hrest hpre.1 pre page' post hpages hpre.2

end Tried

section Calls

variable {e : Env} {w : World} {page : Addr}

/-- The moment a world is in. -/
def World.moment (w : World) : Moment := ⟨w.log.length, w.space⟩

theorem World.moment_append (w : World) (space : Space) (c : MmapCall) :
    (⟨space, w.log ++ [c]⟩ : World).moment = ⟨w.moment.calls + 1, space⟩ := by
  rw [World.moment, List.length_append]
  rfl

theorem harmless_noReplace (w : World) : (e.call false page w).Harmless :=
  (e.regular_call false page w).harmless_iff.mpr nofun

theorem harmless_fixed_iff : (e.call true page w).Harmless ↔
    (e.grants w.log.length = true → e.finds w.moment page = none) := by
  rw [(e.regular_call true page w).harmless_iff]
  exact ⟨fun h => h rfl, fun h _ => h⟩

theorem mmap_of_mapped {replace : Bool} (h : (e.call replace page w).mapped = true) :
    e.mmap replace page w =
      (⟨(e.mapped w.moment page).space, w.log ++ [e.call replace page w]⟩, some page) := by
  have hafter : (e.call replace page w).after = (e.mapped w.moment page).space := if_pos h
  rw [Env.mmap, if_pos h, hafter]

theorem mmap_of_not_mapped {replace : Bool} (h : ¬(e.call replace page w).mapped = true) :
    e.mmap replace page w =
      (⟨(e.failed w.moment).space, w.log ++ [e.call replace page w]⟩, none) := by
  have hafter : (e.call replace page w).after = (e.failed w.moment).space := if_neg h
  rw [Env.mmap, if_neg h, hafter]

theorem mapped_noReplace_iff : (e.call false page w).mapped = true ↔ ¬e.Refuses w.moment page := by
  rw [MmapCall.mapped, Bool.and_eq_true, Bool.or_eq_true, Option.isNone_iff_eq_none, Env.Refuses,
    not_or, Bool.not_eq_false, not_not]
  exact and_congr_right fun _ => or_iff_right nofun

theorem mapped_fixed : (e.call true page w).mapped = e.grants w.log.length := by
  rw [MmapCall.mapped]
  exact Bool.and_true _

variable (ps : PageSize) (pages : List LinearPage)

/-- **Trying a page**: the moment afterwards, whether a page is returned, and what it destroys. -/
theorem allocFixedPageM_mmap (hpage : page &&& ~~~(BitVec.ofNat 64 ps.bytes - 1) = page) :
    (allocFixedPageM ps e.mmap page w pages).1.moment = e.tried w.moment page ∧
    ((allocFixedPageM ps e.mmap page w pages).2.2 = 0 ↔ e.Passes w.moment page) ∧
    ((∀ c ∈ (allocFixedPageM ps e.mmap page w pages).1.log, c.Harmless) ↔
      (∀ c ∈ w.log, c.Harmless) ∧ e.FreeForFixed w.moment page) := by
  have hfirst : (e.call false page w).Harmless := harmless_noReplace w
  rw [allocFixedPageM, hpage, Env.tried, Env.Passes, Env.FreeForFixed]
  by_cases hrefuses : e.Refuses w.moment page
  · -- the fallback
    rw [mmap_of_not_mapped (mt mapped_noReplace_iff.mp (not_not.mpr hrefuses)), if_pos hrefuses]
    dsimp only
    set w' : World := ⟨(e.failed w.moment).space, w.log ++ [e.call false page w]⟩ with hw'
    have hmoment : w'.moment = e.failed w.moment := by
      rw [hw', World.moment_append]
      rfl
    have hcalls : w'.log.length = w.moment.calls + 1 := congrArg Moment.calls hmoment
    have hsecond : (e.call true page w').Harmless ↔
        (e.grants (w.moment.calls + 1) = true → e.finds (e.failed w.moment) page = none) := by
      rw [harmless_fixed_iff, hmoment, hcalls]
    have hlog : (∀ c ∈ w'.log ++ [e.call true page w'], c.Harmless) ↔ (∀ c ∈ w.log, c.Harmless) ∧
        (e.Refuses w.moment page → e.grants (w.moment.calls + 1) = true →
          e.finds (e.failed w.moment) page = none) := by
      rw [List.forall_mem_append, List.forall_mem_append, List.forall_mem_singleton,
        List.forall_mem_singleton, hsecond, and_iff_left hfirst, imp_iff_right hrefuses]
    by_cases hgrants : e.grants (w.moment.calls + 1) = true
    · have hmapped : (e.call true page w').mapped = true := by
        rw [mapped_fixed, hcalls, hgrants]
      rw [mmap_of_mapped hmapped, if_pos hgrants]
      refine ⟨?_, by simp [hgrants], hlog⟩
      rw [World.moment_append, hmoment]
      rfl
    · have hmapped : ¬(e.call true page w').mapped = true := by
        rw [mapped_fixed, hcalls]
        exact hgrants
      rw [mmap_of_not_mapped hmapped, if_neg hgrants]
      refine ⟨?_, by simp [hgrants, hrefuses], hlog⟩
      rw [World.moment_append, hmoment]
      rfl
  · rw [mmap_of_mapped (mapped_noReplace_iff.mpr hrefuses), if_neg hrefuses]
    refine ⟨?_, by simp [hrefuses], ?_⟩
    · rw [World.moment_append]
      rfl
    · rw [List.forall_mem_append, List.forall_mem_singleton, and_iff_left hfirst]
      exact (and_iff_left fun h => absurd h hrefuses).symm

variable (size : Addr)

/-- **Trying one page after the other** destroys no mapping exactly if each page the search comes to
is free when `MAP_FIXED` is granted for it. -/
theorem harmless_tryPagesM_iff {tried : List Addr}
    (haligned : ∀ page ∈ tried, page &&& ~~~(BitVec.ofNat 64 ps.bytes - 1) = page) (w : World) :
    (∀ c ∈ (tryPagesM ps e.mmap size tried w pages).1.log, c.Harmless) ↔
      (∀ c ∈ w.log, c.Harmless) ∧ e.AllFree w.moment tried := by
  induction tried generalizing w pages with
  | nil => exact (and_iff_left (e.allFree_nil _)).symm
  | cons page tried ih =>
    have hpage := haligned page List.mem_cons_self
    obtain ⟨hmoment, hnull, hlog⟩ := allocFixedPageM_mmap (e := e) (w := w) ps pages hpage
    rw [tryPagesM, Env.allFree_cons]
    by_cases hpass : e.Passes w.moment page
    · rw [if_neg (not_not.mpr (hnull.mpr hpass)), ih _ fun p hp =>
        haligned p (List.mem_cons_of_mem _ hp), hmoment, hlog, imp_iff_right hpass, and_assoc]
    · rw [if_pos (mt hnull.mp hpass), and_iff_left fun h => absurd h hpass]
      exact hlog

end Calls

section Search

variable (ps : PageSize) (e : Env) (space : Space) (maps : List MemRegion)
  (size nearAddr range : Addr) (pages : List LinearPage)

/-- The world after `TryAllocInGap`. -/
def afterSearch : World := (tryAllocInGapM ps e.mmap maps size nearAddr range ⟨space, []⟩ pages).1

/-- The world after `AllocFixedPage`. -/
def afterFixed (addr : Addr) : World := (allocFixedPageM ps e.mmap addr ⟨space, []⟩ pages).1

/-- The pages of the search begin at page boundaries. -/
theorem mask_of_mem_triedPages {page : Addr} (h : page ∈ triedPages ps nearAddr range maps) :
    page &&& ~~~(BitVec.ofNat 64 ps.bytes - 1) = page := by
  rw [triedPages] at h
  split at h
  · exact absurd h List.not_mem_nil
  · rcases List.mem_append.mp h with h | h
    · obtain ⟨r, -, rfl, -⟩ := exists_of_mem_gapCandidates h
      exact alignUp_and ps r.stop
    · split_ifs at h
      · rw [List.mem_singleton.mp h, alignUp_and]
      · exact absurd h List.not_mem_nil

/-- **Which searches destroy no mapping.**  For every snapshot, every change the rest of the process
makes to the pages between the calls and every answer of the kernel: all calls of `mmap` that
`TryAllocInGap` makes map only pages that were not mapped and leave every mapping as it was, if and
only if each of the pages it comes to is free when the kernel grants `MAP_FIXED` for it.
`AllocFixedPage` does the same for its one page. -/
theorem search_harmless_iff (addr : Addr) :
    ((∀ c ∈ (afterSearch ps e space maps size nearAddr range pages).log, c.Harmless) ↔
      e.AllFree ⟨0, space⟩ (triedPages ps nearAddr range maps)) ∧
    ((∀ c ∈ (afterFixed ps e space pages addr).log, c.Harmless) ↔
      e.FreeForFixed ⟨0, space⟩ (addr &&& ~~~(BitVec.ofNat 64 ps.bytes - 1))) := by
  have hnil : ∀ c ∈ (⟨space, []⟩ : World).log, c.Harmless := nofun
  have haligned : addr &&& ~~~(BitVec.ofNat 64 ps.bytes - 1) &&& ~~~(BitVec.ofNat 64 ps.bytes - 1) =
      addr &&& ~~~(BitVec.ofNat 64 ps.bytes - 1) := by
    rw [BitVec.and_assoc, BitVec.and_self]
  constructor
  · rw [afterSearch, tryAllocInGapM_eq, harmless_tryPagesM_iff ps pages size
      fun page h => mask_of_mem_triedPages ps maps nearAddr range h]
    exact and_iff_right hnil
  · have hfixed := (allocFixedPageM_mmap (e := e) (w := ⟨space, []⟩) ps pages haligned).2.2
    rw [allocFixedPageM, haligned] at hfixed
    exact hfixed.trans (and_iff_right hnil)

end Search

/-! ### A page mapped after the snapshot -/

/-- Before the first `mmap` another thread maps the page at `0x2000`. -/
def racingEnv : Env where
  change j s := if j = 0 then Function.update s 0x2000 (some 7) else s
  grants _ := true
  label _ := 1

/-- The page mapped by the other thread is replaced. -/
theorem racingEnv_not_harmless :
    ¬ ∀ c ∈ (afterSearch PageSize.small racingEnv (fun _ => none)
      [⟨0x1000, 0x2000⟩, ⟨0x5000, 0x6000⟩] 8 0x3000 0x10000 []).log, c.Harmless := by
  intro h
  have hsecond := h (racingEnv.call true 0x2000 (racingEnv.mmap false 0x2000 ⟨fun _ => none, []⟩).1)
    (List.mem_of_getElem? (i := 1) rfl)
  exact absurd (hsecond.1 (by decide)) (by decide)

end NearCodeAllocator

end CalvinHook
