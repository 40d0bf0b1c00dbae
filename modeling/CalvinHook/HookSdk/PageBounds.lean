import CalvinHook.HookSdk.NearSearch
import CalvinHook.Transition

/-!
# `memory_allocator.cpp`: the watermarks over whole runs

A run is a sequence of calls to `AllocNearCode` and `AllocPage` on an allocator without pages; the
blocks that were returned are recorded with the page each was taken from.  The watermark of a new
page is set to the size of the request without a test, so a request larger than a page breaks the
bookkeeping.

* `allocStep`: one call, on the pages and the record of the blocks.
* `InBounds`: every watermark and every block is inside its page.
* `AllocState.Regular.step`, `not_inBounds_allocStep`: which calls keep this and which lose it.
* `inBounds_run_iff`: a run stays in bounds exactly if each request is at most a page, or gets no
  memory.
-/

namespace CalvinHook

open A64 Transition

namespace NearCodeAllocator

/-! ## Runs -/

/-- A block that `AllocNearCode` returned, and the page it was taken from. -/
structure Block where
  page : LinearPage
  addr : Addr
  size : Addr
  deriving DecidableEq, Repr

/-- The block lies inside its page. -/
def Block.Inside (b : Block) : Prop :=
  (b.addr - b.page.base).toNat + b.size.toNat ≤ b.page.capacity.toNat

instance (b : Block) : Decidable b.Inside := inferInstanceAs (Decidable (_ ≤ _))

/-- The pages, and the blocks returned so far. -/
structure AllocState where
  pages : List LinearPage
  blocks : List Block
  deriving DecidableEq, Repr

/-- A call, with what the kernel answers during it. -/
inductive AllocCall where
  | nearCode (k : Kernel) (size nearAddr range : Addr)
  | page (k : Kernel)

variable (ps : PageSize)

/-- The page a block is taken from: the one the first tier picks, or the one mapped last. -/
def takenFrom (size nearAddr range : Addr) (pages pages' : List LinearPage) : Option LinearPage :=
  if existingAnswer size nearAddr range pages ≠ 0 then pick size nearAddr range pages
  else pages'.getLast?

/-- One call. -/
def allocStep (s : AllocState) : AllocCall → AllocState
  | .nearCode k size nearAddr range =>
    let res := allocNearCode ps k size nearAddr range s.pages
    if res.2 = 0 then ⟨res.1, s.blocks⟩
    else
      ⟨res.1, ((takenFrom size nearAddr range s.pages res.1).map (⟨·, res.2, size⟩)).toList ++
        s.blocks⟩
  | .page k => ⟨(allocPage ps k s.pages).1, s.blocks⟩

/-- The bookkeeping: the watermarks and the blocks are inside their pages. -/
def InBounds (s : AllocState) : Prop := Watermarked s.pages ∧ ∀ b ∈ s.blocks, b.Inside

/-- The kernel gives no memory to a request: no page of the allocator fits it, and `mmap` fails for
every page that is tried. -/
def NoMemory (k : Kernel) (size nearAddr range : Addr) (pages : List LinearPage) : Prop :=
  existingAnswer size nearAddr range pages = 0 ∧
    (∀ c ∈ searchCandidates ps k nearAddr range, fixedAnswer k c = 0) ∧ k.mmapAny.getD 0 = 0

/-- The request is for at most a page, or gets no memory. -/
def AllocCall.Sized (s : AllocState) : AllocCall → Prop
  | .nearCode k size nearAddr range =>
    size.toNat ≤ ps.bytes ∨ NoMemory ps k size nearAddr range s.pages
  | .page _ => True

/-- In bounds, with pages of the size of the kernel's. -/
structure AllocState.Regular (s : AllocState) : Prop where
  inBounds : InBounds s
  capacity : ∀ p ∈ s.pages, p.capacity = BitVec.ofNat 32 ps.bytes

/-! ## One call -/

section Step

variable {ps} {k : Kernel} {size nearAddr range : Addr} {pages : List LinearPage} {s : AllocState}

theorem noMemory_iff :
    NoMemory ps k size nearAddr range pages ↔
      (allocNearCode ps k size nearAddr range pages).2 = 0 := by
  rw [snd_allocNearCode, NoMemory]
  by_cases h1 : existingAnswer size nearAddr range pages = 0
  · rw [if_neg (not_not.mpr h1), ← firstMapped_eq_none]
    cases hfind : firstMapped k (searchCandidates ps k nearAddr range) with
    | none => simp [h1]
    | some c => simpa using (exists_of_firstMapped hfind).1
  · rw [if_pos h1]
    exact iff_of_false (fun h => h1 h.1) h1

/-- The first tier keeps the watermarks, whatever the size. -/
theorem watermarked_tryAllocFromExisting (h : Watermarked pages) :
    Watermarked (tryAllocFromExisting size nearAddr range pages).1 := by
  induction pages with
  | nil => exact h
  | cons p pages ih =>
    obtain ⟨hp, hpages⟩ := List.forall_mem_cons.mp h
    rw [tryAllocFromExisting]
    split_ifs with hfits
    · have hbump := toNat_bump hp hfits
      refine List.forall_mem_cons.mpr ⟨?_, hpages⟩
      rw [BitVec.le_def, hbump.1]
      exact hbump.2
    · exact List.forall_mem_cons.mpr ⟨hp, ih hpages⟩

/-- The first tier answers. -/
theorem allocNearCode_of_existingAnswer (h : existingAnswer size nearAddr range pages ≠ 0) :
    allocNearCode ps k size nearAddr range pages =
      tryAllocFromExisting (roundUp size) nearAddr range pages := by
  rw [allocNearCode]
  dsimp only
  rw [snd_tryAllocFromExisting, if_pos h]

theorem capacity_allocNearCode (h : s.Regular ps) {q : LinearPage}
    (hq : q ∈ (allocNearCode ps k size nearAddr range s.pages).1) :
    q.capacity = BitVec.ofNat 32 ps.bytes := by
  rcases mem_allocNearCode_cases hq with hq | ⟨p, hpick, rfl⟩ | ⟨hcap, -⟩
  · exact h.capacity q hq
  · exact h.capacity p (fits_of_pick hpick).2
  · exact hcap

/-- A request of at most a page, or one that gets no memory, keeps the watermarks. -/
theorem watermarked_of_sized (h : s.Regular ps)
    (hsized : size.toNat ≤ ps.bytes ∨ NoMemory ps k size nearAddr range s.pages) :
    Watermarked (allocNearCode ps k size nearAddr range s.pages).1 := by
  rcases hsized with hsize | hno
  · exact watermarked_allocNearCode_of_le hsize h.inBounds.1
  · intro q hq
    obtain ⟨n, hn⟩ := mapsPages_allocNearCode ps k
      ((snd_tryAllocFromExisting size nearAddr range _).trans hno.1)
    rw [noMemory_iff.mp hno, returnedPage_zero, List.append_nil] at hn
    rw [hn] at hq
    rcases List.mem_append.mp hq with hq | hq
    · exact watermarked_tryAllocFromExisting h.inBounds.1 q hq
    · rw [List.eq_of_mem_replicate hq, BitVec.le_def]
      exact Nat.zero_le _

/-- The page of a returned block: it has the size of the kernel's pages, and the block starts below
its end when the request is for at most a page. -/
theorem takenFrom_spec (h : s.Regular ps)
    (hne : (allocNearCode ps k size nearAddr range s.pages).2 ≠ 0) :
    ∃ q, takenFrom size nearAddr range s.pages (allocNearCode ps k size nearAddr range s.pages).1 =
        some q ∧ q.capacity.toNat = ps.bytes ∧ (size.toNat ≤ ps.bytes →
          (Block.mk q (allocNearCode ps k size nearAddr range s.pages).2 size).Inside) := by
  rw [takenFrom]
  by_cases h1 : existingAnswer size nearAddr range s.pages = 0
  · -- the page mapped last, whose base was returned
    obtain ⟨n, hn⟩ := mapsPages_allocNearCode ps k
      ((snd_tryAllocFromExisting size nearAddr range _).trans h1)
    rw [returnedPage_of_ne hne] at hn
    rw [if_neg (not_not.mpr h1), hn, ← List.append_assoc, List.getLast?_concat]
    refine ⟨_, rfl, toNat_capacity rfl, fun hsize => ?_⟩
    rw [Block.Inside, toNat_capacity rfl]
    simpa using hsize
  · rw [if_pos h1, allocNearCode_of_existingAnswer h1, snd_tryAllocFromExisting]
    rw [existingAnswer] at h1 ⊢
    cases hpick : pick size nearAddr range s.pages with
    | none =>
      rw [hpick] at h1
      exact absurd rfl h1
    | some p =>
      obtain ⟨hfits, hp⟩ := fits_of_pick hpick
      have hcap := toNat_capacity (h.capacity p hp)
      refine ⟨p, rfl, hcap, fun hsize => ?_⟩
      have hbump := toNat_bump (h.inBounds.1 p hp) hfits
      have hround := toNat_roundUp_le ps hsize
      show (allocAddr p - p.base).toNat + size.toNat ≤ p.capacity.toNat
      rw [allocAddr, BitVec.add_comm, BitVec.add_sub_cancel, BitVec.toNat_setWidth]
      omega

theorem AllocState.Regular.nearCode (h : s.Regular ps)
    (hsized : size.toNat ≤ ps.bytes ∨ NoMemory ps k size nearAddr range s.pages) :
    (allocStep ps s (.nearCode k size nearAddr range)).Regular ps := by
  have hpages := watermarked_of_sized (k := k) h hsized
  rw [allocStep]
  split_ifs with hzero
  · exact ⟨⟨hpages, h.inBounds.2⟩, fun q hq => capacity_allocNearCode h hq⟩
  · refine ⟨⟨hpages, ?_⟩, fun q hq => capacity_allocNearCode h hq⟩
    obtain ⟨q, hq, -, hinside⟩ := takenFrom_spec h hzero
    have hsize := hsized.resolve_right fun hno => hzero (noMemory_iff.mp hno)
    rw [hq]
    exact List.forall_mem_cons.mpr ⟨hinside hsize, h.inBounds.2⟩

theorem AllocState.Regular.page (h : s.Regular ps) (k : Kernel) :
    (allocStep ps s (.page k)).Regular ps := by
  rw [allocStep, allocPage]
  split
  · exact h
  · refine ⟨⟨?_, h.inBounds.2⟩, ?_⟩
    · intro q hq
      rcases List.mem_append.mp hq with hq | hq
      · exact h.inBounds.1 q hq
      · rw [List.mem_singleton.mp hq, BitVec.le_def]
        exact Nat.zero_le _
    · intro q hq
      rcases List.mem_append.mp hq with hq | hq
      · exact h.capacity q hq
      · rw [List.mem_singleton.mp hq]
        rfl

/-- **The calls that stay in bounds.** -/
theorem AllocState.Regular.step (h : s.Regular ps) {c : AllocCall} (hc : c.Sized ps s) :
    (allocStep ps s c).Regular ps := by
  cases c with
  | nearCode k size nearAddr range => exact h.nearCode hc
  | page k => exact h.page k

/-- **A request for more than a page** that gets memory: its block is not inside its page. -/
theorem not_inBounds_allocStep (h : s.Regular ps) {c : AllocCall} (hc : ¬ c.Sized ps s) :
    ¬ InBounds (allocStep ps s c) := by
  cases c with
  | page k => exact absurd trivial hc
  | nearCode k size nearAddr range =>
    obtain ⟨hsize, hmem⟩ := not_or.mp hc
    have hne := mt noMemory_iff.mpr hmem
    obtain ⟨q, hq, hcap, -⟩ := takenFrom_spec h hne
    rw [allocStep, if_neg hne, hq]
    rintro ⟨-, hblocks⟩
    have hinside := hblocks _ List.mem_cons_self
    rw [Block.Inside] at hinside
    dsimp only at hinside
    omega

end Step

/-! ## Whole runs -/

/-- **Page bookkeeping.**  In a run of calls every watermark and every block returned stays inside
its page exactly if each request is for at most a page, or gets no memory. -/
theorem inBounds_run_iff (ps : PageSize) (calls : List AllocCall) :
    AllStates (allocStep ps) InBounds ⟨[], []⟩ calls ↔
      AllSteps (allocStep ps) (fun s c => c.Sized ps s) ⟨[], []⟩ calls := by
  have h0 : AllocState.Regular ps ⟨[], []⟩ := ⟨⟨by simp [Watermarked], by simp⟩, by simp⟩
  exact allStates_iff_allSteps (A := fun _ _ => True) h0
    (allSteps_of_forall (fun _ _ => trivial) _ _)
    (fun _ h => h.inBounds) (fun _ _ h _ hc => h.step hc)
    (fun _ _ h _ hc => not_inBounds_allocStep h hc)

/-- A kernel that maps a page at `0x10000`. -/
def onePageKernel : Kernel where
  parseMaps := []
  mmapNoReplace _ := none
  mmapFixed _ := none
  mmapAny := some 0x10000

/-- A first request for 4104 bytes gets a page of 4096, with 4104 bytes used and the block past its
end. -/
theorem largeRequest_not_inBounds :
    let s := run (allocStep .small) ⟨[], []⟩ [.nearCode onePageKernel 4104 0x10000 0x1000]
    ¬ Watermarked s.pages ∧ ¬ ∀ b ∈ s.blocks, b.Inside := by
  constructor
  · intro h
    exact absurd (h ⟨0x10000, 4104, 4096⟩ (List.mem_of_getElem? (i := 0) rfl)) (by decide)
  · intro h
    exact absurd (h ⟨⟨0x10000, 4104, 4096⟩, 0x10000, 4104⟩ (List.mem_of_getElem? (i := 0) rfl))
      (by decide)

end NearCodeAllocator

end CalvinHook
