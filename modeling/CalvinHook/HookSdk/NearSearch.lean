import CalvinHook.HookSdk.MemoryAllocator

/-!
# `memory_allocator.cpp`: what the search for a near page finds

The address `AllocNearCode` returns, as a function of the pages it has, of the regions that are
mapped and of the answers of the kernel.  Of each gap between two regions the search tries only the
first page boundary, and beside the gaps only one page below the first region; so a page that is
free and in range can be missed.

* `gapCandidates`: the pages tried in the gaps, and `snd_tryGaps`: the first one the kernel maps is
  returned.
* `snd_tryAllocInGap`, `snd_allocNearCode`: the returned address.
* `inReach_of_le`: what passes the range test of the source is in reach.
* `allocNearCode_near_iff`: when the returned address is in reach.
-/

namespace CalvinHook

open A64

namespace NearCodeAllocator

variable (ps : PageSize) (k : Kernel) (size nearAddr range : Addr)

/-! ## The pages that are tried -/

/-- The page boundaries in the gaps between consecutive regions that pass the tests of the loop. -/
def gapCandidates : List MemRegion → List Addr
  | r :: r' :: regions =>
    let candidate := alignUp ps r.stop
    if r'.start ≤ r.stop ∨ candidate + BitVec.ofNat 64 ps.bytes > r'.start then
      gapCandidates (r' :: regions)
    else if candidate ≥ lo nearAddr range ∧ candidate ≤ hi nearAddr range then
      candidate :: gapCandidates (r' :: regions)
    else gapCandidates (r' :: regions)
  | _ => []

/-- What `AllocFixedPage` returns for a page: the answer to one of its two calls, or null. -/
def fixedAnswer (a : Addr) : Addr := ((k.mmapNoReplace a).or (k.mmapFixed a)).getD 0

/-- The first page of a list that the kernel maps. -/
def firstMapped (l : List Addr) : Option Addr := (l.map (fixedAnswer k)).find? (· ≠ 0)

/-- The regions in the order in which the search visits them. -/
def sortedMaps : List MemRegion := k.parseMaps.insertionSort fun a b => a.start ≤ b.start

/-- The page below the first region that the search tries, if it passes the tests. -/
def beforeCandidate : Option Addr :=
  match sortedMaps k with
  | [] => none
  | first :: _ =>
    let before := alignUp ps (lo nearAddr range)
    if before < first.start ∧ before ≥ lo nearAddr range then some before else none

section Search

variable {ps k size nearAddr range}

/-- The mask of `AllocFixedPage` does nothing to a page boundary. -/
theorem alignUp_and (ps : PageSize) (a : Addr) :
    alignUp ps a &&& ~~~(BitVec.ofNat 64 ps.bytes - 1) = alignUp ps a := by
  rw [alignUp, BitVec.and_assoc, BitVec.and_self]

theorem snd_allocFixedPage (ps : PageSize) (k : Kernel) (a : Addr) (pages : List LinearPage) :
    (allocFixedPage ps k (alignUp ps a) pages).2 = fixedAnswer k (alignUp ps a) := by
  rw [allocFixedPage, alignUp_and, fixedAnswer]
  split
  · rename_i heq
    rw [heq]
    rfl
  · rename_i heq
    rw [heq]
    rfl

/-- A page that is tried is the first page boundary behind a region, in range. -/
theorem exists_of_mem_gapCandidates {regions : List MemRegion} {c : Addr}
    (h : c ∈ gapCandidates ps nearAddr range regions) :
    ∃ r ∈ regions, c = alignUp ps r.stop ∧ c ≥ lo nearAddr range ∧ c ≤ hi nearAddr range := by
  induction regions with
  | nil => exact absurd h List.not_mem_nil
  | cons r regions ih =>
    cases regions with
    | nil => exact absurd h List.not_mem_nil
    | cons r' regions =>
      have hrest : c ∈ gapCandidates ps nearAddr range (r' :: regions) →
          ∃ u ∈ r :: r' :: regions, c = alignUp ps u.stop ∧ c ≥ lo nearAddr range ∧
            c ≤ hi nearAddr range := fun hc =>
        (ih hc).imp fun u hu => ⟨List.mem_cons_of_mem _ hu.1, hu.2⟩
      rw [gapCandidates] at h
      split_ifs at h with hgap hrange
      · exact hrest h
      · rcases List.mem_cons.mp h with rfl | h
        · exact ⟨r, List.mem_cons_self, rfl, hrange⟩
        · exact hrest h
      · exact hrest h

theorem firstMapped_cons_of_ne {a : Addr} {l : List Addr} (h : fixedAnswer k a ≠ 0) :
    firstMapped k (a :: l) = some (fixedAnswer k a) := by
  rw [firstMapped, List.map_cons, List.find?_cons_of_pos (by simpa using h)]

theorem firstMapped_cons_of_eq {a : Addr} {l : List Addr} (h : fixedAnswer k a = 0) :
    firstMapped k (a :: l) = firstMapped k l := by
  rw [firstMapped, List.map_cons, List.find?_cons_of_neg (by simpa using h), firstMapped]

theorem firstMapped_singleton (a : Addr) : (firstMapped k [a]).getD 0 = fixedAnswer k a := by
  by_cases h : fixedAnswer k a = 0
  · rw [firstMapped_cons_of_eq h, h]
    rfl
  · rw [firstMapped_cons_of_ne h]
    rfl

theorem firstMapped_append (l l' : List Addr) :
    firstMapped k (l ++ l') = (firstMapped k l).or (firstMapped k l') := by
  rw [firstMapped, List.map_append, List.find?_append, firstMapped, firstMapped]

theorem firstMapped_eq_none {l : List Addr} :
    firstMapped k l = none ↔ ∀ a ∈ l, fixedAnswer k a = 0 := by
  simp [firstMapped, List.find?_eq_none]

theorem exists_of_firstMapped {l : List Addr} {c : Addr} (h : firstMapped k l = some c) :
    c ≠ 0 ∧ ∃ a ∈ l, fixedAnswer k a = c := by
  refine ⟨by simpa using List.find?_some h, ?_⟩
  simpa using List.mem_of_find?_eq_some h

/-- **The gaps.**  The answer to the first candidate that the kernel maps is returned. -/
theorem snd_tryGaps (ps : PageSize) (k : Kernel) (size nearAddr range : Addr)
    (regions : List MemRegion) (pages : List LinearPage) :
    (tryGaps ps k size nearAddr range regions pages).2 =
      (firstMapped k (gapCandidates ps nearAddr range regions)).getD 0 := by
  induction regions generalizing pages with
  | nil => rfl
  | cons r regions ih =>
    cases regions with
    | nil => rfl
    | cons r' regions =>
      rw [tryGaps, gapCandidates]
      dsimp only
      have hsnd := snd_allocFixedPage ps k r.stop pages
      split_ifs with hgap hrange hnull
      · exact ih pages
      · rw [hsnd] at hnull
        rw [firstMapped_cons_of_ne hnull]
        exact hsnd
      · rw [not_not, hsnd] at hnull
        rw [firstMapped_cons_of_eq hnull]
        exact ih _
      · exact ih pages

/-- All the pages that the search tries, in order. -/
def searchCandidates (ps : PageSize) (k : Kernel) (nearAddr range : Addr) : List Addr :=
  gapCandidates ps nearAddr range (sortedMaps k) ++ (beforeCandidate ps k nearAddr range).toList

/-- The address `TryAllocInGap` returns. -/
theorem snd_tryAllocInGap (ps : PageSize) (k : Kernel) (size nearAddr range : Addr)
    (pages : List LinearPage) :
    (tryAllocInGap ps k size nearAddr range pages).2 =
      (firstMapped k (searchCandidates ps k nearAddr range)).getD 0 := by
  rw [tryAllocInGap, searchCandidates, beforeCandidate, sortedMaps]
  split
  · rename_i hmaps
    rw [hmaps]
    rfl
  · rename_i first regions hmaps
    rw [hmaps]
    dsimp only
    have hgaps := snd_tryGaps ps k size nearAddr range (first :: regions) pages
    have hbefore := snd_allocFixedPage ps k (lo nearAddr range)
      (tryGaps ps k size nearAddr range (first :: regions) pages).1
    rw [firstMapped_append]
    cases hfind : firstMapped k (gapCandidates ps nearAddr range (first :: regions)) with
    | some c =>
      rw [hfind] at hgaps
      rw [hgaps, Option.getD_some, if_pos (exists_of_firstMapped hfind).1]
      exact hgaps
    | none =>
      rw [hfind] at hgaps
      rw [hgaps, Option.getD_none, if_neg (by simp), Option.none_or]
      -- the page below the first region, if it is tried
      split_ifs with htest hnull
      · exact hbefore.trans (firstMapped_singleton _).symm
      · exact hbefore.trans (firstMapped_singleton _).symm
      · rfl

/-- The address of the first tier, if a page fits. -/
def existingAnswer (size nearAddr range : Addr) (pages : List LinearPage) : Addr :=
  ((pick size nearAddr range pages).map allocAddr).getD 0

theorem snd_tryAllocFromExisting (size nearAddr range : Addr) (pages : List LinearPage) :
    (tryAllocFromExisting (roundUp size) nearAddr range pages).2 =
      existingAnswer size nearAddr range pages := by
  rw [existingAnswer]
  cases hpick : pick size nearAddr range pages with
  | none =>
    rw [tryAllocFromExisting_of_find?_eq_none hpick]
    rfl
  | some p =>
    obtain ⟨pre, post, -, htry⟩ := tryAllocFromExisting_of_find?_eq_some hpick
    rw [htry]
    rfl

/-- **The address `AllocNearCode` returns**: of the first tier, else the first page of the search
that the kernel maps, else the page the kernel picks. -/
theorem snd_allocNearCode (ps : PageSize) (k : Kernel) (size nearAddr range : Addr)
    (pages : List LinearPage) :
    (allocNearCode ps k size nearAddr range pages).2 =
      if existingAnswer size nearAddr range pages ≠ 0 then existingAnswer size nearAddr range pages
      else ((firstMapped k (searchCandidates ps k nearAddr range)).or k.mmapAny).getD 0 := by
  rw [allocNearCode]
  dsimp only
  rw [snd_tryAllocFromExisting]
  by_cases h1 : existingAnswer size nearAddr range pages = 0
  · rw [if_neg (not_not.mpr h1), if_neg (not_not.mpr h1), snd_tryAllocInGap]
    cases hfind : firstMapped k (searchCandidates ps k nearAddr range) with
    | some c =>
      rw [Option.getD_some, if_pos (exists_of_firstMapped hfind).1, snd_tryAllocInGap, hfind]
      rfl
    | none =>
      rw [Option.getD_none, if_neg (by simp), Option.none_or, allocPage]
      cases hany : k.mmapAny with
      | none => rfl
      | some page =>
        dsimp only
        split_ifs <;> rfl
  · rw [if_pos h1, if_pos h1]
    exact snd_tryAllocFromExisting size nearAddr range pages

end Search

/-! ## The range -/

/-- The distance of `a` from `nearAddr` is at most `range`. -/
def InReach (nearAddr range a : Addr) : Prop :=
  (nearAddr.toNat : ℤ) - range.toNat ≤ a.toNat ∧ (a.toNat : ℤ) ≤ nearAddr.toNat + range.toNat

instance (nearAddr range a : Addr) : Decidable (InReach nearAddr range a) :=
  inferInstanceAs (Decidable (_ ∧ _))

/-- A pointer that is not null, in reach. -/
def Near (nearAddr range a : Addr) : Prop := a ≠ 0 ∧ InReach nearAddr range a

instance (nearAddr range a : Addr) : Decidable (Near nearAddr range a) :=
  inferInstanceAs (Decidable (_ ∧ _))

section Range

variable {ps : PageSize} {k : Kernel} {size nearAddr range : Addr} {pages : List LinearPage}

theorem le_toNat_lo (nearAddr range : Addr) :
    (nearAddr.toNat : ℤ) - range.toNat ≤ (lo nearAddr range).toNat := by
  rw [lo]
  split_ifs with h
  · have hlt : range.toNat < nearAddr.toNat := h
    rw [BitVec.toNat_sub_of_le (BitVec.le_def.mpr hlt.le)]
    omega
  · have hle : nearAddr.toNat ≤ range.toNat := Nat.not_lt.mp h
    have hz : ((0 : Addr).toNat : ℤ) = 0 := rfl
    rw [hz]
    omega

/-- What passes the range test is in reach, also when the upper end wraps around. -/
theorem inReach_of_le {a : Addr} (hlo : a ≥ lo nearAddr range) (hhi : a ≤ hi nearAddr range) :
    InReach nearAddr range a := by
  have h1 := le_toNat_lo nearAddr range
  have h2 : (lo nearAddr range).toNat ≤ a.toNat := hlo
  have h3 : a.toNat ≤ (nearAddr + range).toNat := hhi
  have h4 : (nearAddr + range).toNat ≤ nearAddr.toNat + range.toNat := by
    rw [BitVec.toNat_add]
    exact Nat.mod_le _ _
  exact ⟨by omega, by omega⟩

theorem near_existingAnswer (h : existingAnswer size nearAddr range pages ≠ 0) :
    Near nearAddr range (existingAnswer size nearAddr range pages) := by
  refine ⟨h, ?_⟩
  rw [existingAnswer] at h ⊢
  cases hpick : pick size nearAddr range pages with
  | none =>
    rw [hpick] at h
    exact absurd rfl h
  | some p =>
    have hfits := (fits_of_pick hpick).1
    simp only [fits, Bool.and_eq_true, decide_eq_true_eq] at hfits
    exact inReach_of_le hfits.2.1 hfits.2.2

theorem inReach_of_mem_gapCandidates {regions : List MemRegion} {c : Addr}
    (h : c ∈ gapCandidates ps nearAddr range regions) : InReach nearAddr range c := by
  obtain ⟨r, -, rfl, hlo, hhi⟩ := exists_of_mem_gapCandidates h
  exact inReach_of_le hlo hhi

theorem le_of_beforeCandidate {b : Addr} (h : beforeCandidate ps k nearAddr range = some b) :
    b ≥ lo nearAddr range := by
  rw [beforeCandidate] at h
  split at h
  · exact absurd h (by simp)
  · dsimp only at h
    split_ifs at h with htest
    obtain rfl := Option.some.inj h
    exact htest.2

end Range

/-! ## Free pages -/

/-- A page that lies wholly outside the regions. -/
def FreePage (ps : PageSize) (maps : List MemRegion) (b : Addr) : Prop :=
  b.toNat % ps.bytes = 0 ∧ b.toNat + ps.bytes ≤ 2 ^ 64 ∧
    ∀ r ∈ maps, b.toNat + ps.bytes ≤ r.start.toNat ∨ r.stop.toNat ≤ b.toNat

instance (ps : PageSize) (maps : List MemRegion) (b : Addr) : Decidable (FreePage ps maps b) :=
  inferInstanceAs (Decidable (_ ∧ _ ∧ _))

/-- The kernel maps a page where it is asked to or not at all, and it maps every free page. -/
structure Obliging (ps : PageSize) (k : Kernel) : Prop where
  noReplace : ∀ a b, k.mmapNoReplace a = some b → b = a
  fixed : ∀ a b, k.mmapFixed a = some b → b = a
  grants : ∀ a, FreePage ps k.parseMaps a → k.mmapNoReplace a = some a

theorem Obliging.fixedAnswer_eq {ps : PageSize} {k : Kernel} (h : Obliging ps k) {a : Addr}
    (ha : fixedAnswer k a ≠ 0) : fixedAnswer k a = a := by
  rw [fixedAnswer] at ha ⊢
  cases h1 : k.mmapNoReplace a with
  | some b =>
    rw [h.noReplace a b h1]
    rfl
  | none =>
    cases h2 : k.mmapFixed a with
    | some b =>
      rw [h.fixed a b h2]
      rfl
    | none =>
      rw [h1, h2] at ha
      exact absurd rfl ha

/-- What makes the returned address a near one: a page of the allocator fits; or a page boundary at
the start of a gap is in range and the kernel maps it; or the first page boundary in range is below
the first region, is mapped, and does not lie above the range; or that page is not tried or not
mapped, and the kernel happens to pick a near page. -/
def SearchSucceeds (ps : PageSize) (k : Kernel) (size nearAddr range : Addr)
    (pages : List LinearPage) :
    Prop :=
  existingAnswer size nearAddr range pages ≠ 0 ∨
    (∃ c ∈ gapCandidates ps nearAddr range (sortedMaps k), fixedAnswer k c ≠ 0) ∨
    (∃ b, beforeCandidate ps k nearAddr range = some b ∧ fixedAnswer k b ≠ 0 ∧
      (b.toNat : ℤ) ≤ nearAddr.toNat + range.toNat) ∨
    ((∀ b, beforeCandidate ps k nearAddr range = some b → fixedAnswer k b = 0) ∧
      ∃ a, k.mmapAny = some a ∧ Near nearAddr range a)

section Result

variable {ps : PageSize} {k : Kernel} {size nearAddr range : Addr} {pages : List LinearPage}

/-- When the first tier and the gaps give nothing. -/
theorem near_rest_iff (hk : Obliging ps k) (hgap : firstMapped k
      (gapCandidates ps nearAddr range (sortedMaps k)) = none) :
    Near nearAddr range (((firstMapped k (searchCandidates ps k nearAddr range)).or k.mmapAny).getD
      0) ↔
      (∃ b, beforeCandidate ps k nearAddr range = some b ∧ fixedAnswer k b ≠ 0 ∧
        (b.toNat : ℤ) ≤ nearAddr.toNat + range.toNat) ∨
      ((∀ b, beforeCandidate ps k nearAddr range = some b → fixedAnswer k b = 0) ∧
        ∃ a, k.mmapAny = some a ∧ Near nearAddr range a) := by
  have hany : Near nearAddr range (k.mmapAny.getD 0) ↔ ∃ a, k.mmapAny = some a ∧
      Near nearAddr range a := by
    cases k.mmapAny with
    | none => simp [Near]
    | some a => simp
  rw [searchCandidates, firstMapped_append, hgap, Option.none_or]
  cases hb : beforeCandidate ps k nearAddr range with
  | none => simpa [firstMapped] using hany
  | some b =>
    by_cases ha : fixedAnswer k b = 0
    · rw [Option.toList_some, firstMapped_cons_of_eq ha]
      simpa [firstMapped, ha] using hany
    · have hlo := le_of_beforeCandidate hb
      rw [Option.toList_some, firstMapped_cons_of_ne ha, Option.some_or, Option.getD_some,
        hk.fixedAnswer_eq ha]
      constructor
      · rintro ⟨-, -, hhi⟩
        exact .inl ⟨b, rfl, ha, hhi⟩
      · rintro (⟨b', hb', -, hhi⟩ | ⟨hnone, -⟩)
        · obtain rfl := Option.some.inj hb'
          have h1 := le_toNat_lo nearAddr range
          have h2 : (lo nearAddr range).toNat ≤ b.toNat := hlo
          exact ⟨hk.fixedAnswer_eq ha ▸ ha, by omega, hhi⟩
        · exact absurd (hnone b rfl) ha

theorem near_allocNearCode_iff (hk : Obliging ps k) :
    Near nearAddr range (allocNearCode ps k size nearAddr range pages).2 ↔
      SearchSucceeds ps k size nearAddr range pages := by
  rw [snd_allocNearCode, SearchSucceeds]
  by_cases h1 : existingAnswer size nearAddr range pages = 0
  swap
  · rw [if_pos h1]
    exact iff_of_true (near_existingAnswer h1) (.inl h1)
  rw [if_neg (not_not.mpr h1), or_iff_right (not_not.mpr h1)]
  cases hgap : firstMapped k (gapCandidates ps nearAddr range (sortedMaps k)) with
  | some c =>
    -- a candidate in a gap is in reach, and it is where the kernel maps the page
    obtain ⟨hne, a, ha, rfl⟩ := exists_of_firstMapped hgap
    rw [searchCandidates, firstMapped_append, hgap, Option.some_or, Option.some_or,
      Option.getD_some]
    refine iff_of_true ⟨hne, ?_⟩ (.inl ⟨a, ha, hne⟩)
    rw [hk.fixedAnswer_eq hne]
    exact inReach_of_mem_gapCandidates ha
  | none =>
    have hnone : ¬∃ c ∈ gapCandidates ps nearAddr range (sortedMaps k), fixedAnswer k c ≠ 0 := by
      rintro ⟨c, hc, hne⟩
      exact hne (firstMapped_eq_none.mp hgap c hc)
    rw [near_rest_iff hk hgap, or_iff_right hnone]

/-- **Near allocation.**  If a free page has its base in reach, then the returned address is in
reach: this holds exactly when one of the few pages that the search tries is granted, or the kernel
happens to pick a near one. -/
theorem allocNearCode_near_iff (ps : PageSize) (k : Kernel) (hk : Obliging ps k)
    (size nearAddr range : Addr) (pages : List LinearPage) :
    ((∃ b, FreePage ps k.parseMaps b ∧ InReach nearAddr range b) →
        Near nearAddr range (allocNearCode ps k size nearAddr range pages).2) ↔
      ((∃ b, FreePage ps k.parseMaps b ∧ InReach nearAddr range b) →
        SearchSucceeds ps k size nearAddr range pages) :=
  imp_congr_right fun _ => near_allocNearCode_iff hk

end Result

/-! ### A kernel that maps the free pages -/

/-- A kernel that maps exactly the free pages, and by itself picks the page `any`. -/
def freePageKernel (ps : PageSize) (maps : List MemRegion) (any : Addr) : Kernel where
  parseMaps := maps
  mmapNoReplace a := if FreePage ps maps a then some a else none
  mmapFixed _ := none
  mmapAny := some any

theorem obliging_freePageKernel (ps : PageSize) (maps : List MemRegion) (any : Addr) :
    Obliging ps (freePageKernel ps maps any) where
  noReplace a b h := by
    dsimp only [freePageKernel] at h
    split_ifs at h
    exact (Option.some.inj h).symm
  fixed a b h := absurd h (by simp [freePageKernel])
  grants a h := if_pos h

/-- With one region above the target, the lowest page in range is mapped. -/
theorem allocNearCode_near_below :
    Near 0x80000 0x10000 (allocNearCode .small
      (freePageKernel .small [⟨0x100000, 0x101000⟩] 0x7f0000000000) 8 0x80000 0x10000 []).2 :=
  (allocNearCode_near_iff .small _ (obliging_freePageKernel _ _ _) 8 0x80000 0x10000 []).mpr
    (fun _ => .inr (.inr (.inl ⟨0x70000, by decide +kernel, by decide +kernel, by decide +kernel⟩)))
    ⟨0x80000, by decide +kernel, by decide +kernel⟩

/-- With a region far below and one far above the target, every page in range is free; but the gap
starts out of range and the lowest page in range is not below the first region, so none of them is
tried. -/
theorem wideGap_not_near :
    Obliging .small (freePageKernel .small [⟨0x1000, 0x2000⟩, ⟨0x100000, 0x101000⟩]
      0x7f0000000000) ∧
      FreePage .small [⟨0x1000, 0x2000⟩, ⟨0x100000, 0x101000⟩] 0x80000 ∧
      InReach 0x80000 0x10000 0x80000 ∧
      ¬ Near 0x80000 0x10000 (allocNearCode .small
        (freePageKernel .small [⟨0x1000, 0x2000⟩, ⟨0x100000, 0x101000⟩] 0x7f0000000000)
        8 0x80000 0x10000 []).2 :=
  ⟨obliging_freePageKernel _ _ _, by decide +kernel, by decide +kernel, by decide +kernel⟩

end NearCodeAllocator

end CalvinHook
