import CalvinHook.HookSdk.HookRuns
import CalvinHook.JsEngine.Interceptor
import CalvinHook.JsEngine.NativeCallback

/-!
# The executable blocks of a process

All code the program writes comes out of one `NearCodeAllocator`: `HookInstall` and
`Interceptor.attach` ask for a block near an address, `NativeFunction` and `NativeCallback` for a
whole page.  The state is the list of pages and the list of the blocks that are in use; the live
blocks are the relocated code of hooks, the blocks of `attach` and the stubs of callbacks.

A page handed out by `AllocPage` keeps its watermark at zero, so `AllocNearCode` takes it for empty.

* `CodeInv`: the invariant; `codeInv_step`: a step that takes no page from under a live callback
  keeps it.
* `blocks_disjoint_iff`: the blocks of a run stay disjoint exactly if all its steps are such steps.
-/

namespace CalvinHook

open A64 Arm64 NearCodeAllocator Transition

/-! ## Blocks -/

inductive CodeUser where
  | relocated
  | attach
  | callback
  deriving DecidableEq, Repr

/-- The bytes a live user has written. -/
structure CodeBlock where
  user : CodeUser
  start : Addr
  size : ℕ
  deriving DecidableEq, Repr

/-- Two blocks share no address. -/
def CodeBlock.Apart (b c : CodeBlock) : Prop := A64.Apart b.start b.size c.start c.size

/-- The pages of the allocator and the blocks in use. -/
structure CodeState where
  pages : List LinearPage
  blocks : List CodeBlock

/-- A step of the program that asks for executable memory, with the answers of the kernel. -/
inductive CodeOp where
  /-- `HookInstall`, with the memory in which the target is read. -/
  | hookInstall (k : Kernel) (mem : Mem) (target replace : Addr)
  /-- `generate_trampolines`, without the `HookInstall` that follows. -/
  | attach (k : Kernel) (target entry onEnter onLeave : Addr)
  /-- `marshal_and_call`: its stub is not in use once the call is over. -/
  | nativeCall (k : Kernel)
  /-- `generate_callback_stub`. -/
  | nativeCallback (k : Kernel) (cb dispatch : Addr)
  /-- A block is no longer in use. -/
  | release (i : ℕ)

namespace CodeState

/-- A block of `size` bytes at the address the allocator returned, if it returned one. -/
def use (s : CodeState) (user : CodeUser) (size : ℕ) (alloc : List LinearPage × Addr) : CodeState :=
  if alloc.2 = 0 then ⟨alloc.1, s.blocks⟩ else ⟨alloc.1, s.blocks ++ [⟨user, alloc.2, size⟩]⟩

def step (ps : PageSize) (s : CodeState) : CodeOp → CodeState
  | .hookInstall k mem target replace =>
      let patchSize := (buildJumpPatch target replace).patchSize
      s.use .relocated (4 * (buildRelocatedCode mem target patchSize).length)
        (allocNearCode ps k (BitVec.ofNat 64 (maxRelocSize patchSize)) target kMaxBRange s.pages)
  | .attach k target entry onEnter onLeave =>
      s.use .attach (4 * (Interceptor.emitTrampoline entry onEnter onLeave).1.buf.length)
        (allocNearCode ps k (BitVec.ofNat 64 1024) target kMaxBRange s.pages)
  | .nativeCall k => ⟨(allocPage ps k s.pages).1, s.blocks⟩
  | .nativeCallback k cb dispatch =>
      s.use .callback (4 * (Native.callbackWords cb dispatch).length) (allocPage ps k s.pages)
  | .release i => ⟨s.pages, s.blocks.eraseIdx i⟩

/-- No two live blocks share an address. -/
def BlocksDisjoint (s : CodeState) : Prop := s.blocks.Pairwise CodeBlock.Apart

end CodeState

/-- What is assumed of the answers of `mmap`: pages are aligned, and no page is mapped twice. -/
structure MappedOnce (ps : PageSize) (pages : List LinearPage) : Prop where
  aligned : ∀ p ∈ pages, p.base.toNat % ps.bytes = 0
  nodup : (pages.map LinearPage.base).Nodup

/-- **`HookInstall` makes the step of its name**: a successful call leaves the pages of the step and
registers an entry for the block of the step. -/
theorem hookInstall_step (ps : PageSize) (k : Kernel) (writable : Bool) (s : HookState)
    (blocks : List CodeBlock) (target replace : Addr) (origFunc : Option Addr)
    (h : (hookInstall ps k writable s target replace origFunc).ret = 0) :
    ∃ e, (hookInstall ps k writable s target replace origFunc).state.entries = s.entries ++ [e] ∧
      CodeState.step ps ⟨s.pages, blocks⟩ (.hookInstall k s.mem target replace) =
        ⟨(hookInstall ps k writable s target replace origFunc).state.pages,
          blocks ++ [⟨.relocated, e.relocatedMem, e.relocatedSize⟩]⟩ := by
  rcases hookInstall_cases ps k writable s target replace origFunc with
    ⟨c, pages, hc, -, heq⟩ | ⟨-, heq⟩ | ⟨-, -, -, -, hmem, heq⟩
  · rw [heq] at h
    exact absurd h hc.ne
  · rw [heq] at h
    exact absurd h (by simp)
  · rw [heq]
    exact ⟨newEntry ps k s target replace, rfl, if_neg hmem⟩

/-! ## Pages apart -/

section Pages

variable {ps : PageSize} {pages : List LinearPage} {p q : LinearPage}

/-- An aligned page does not wrap around. -/
theorem toNat_base_add_le {a : Addr} (ha : a.toNat % ps.bytes = 0) :
    a.toNat + ps.bytes ≤ 2 ^ 64 := by
  have hpow : 2 ^ 64 = ps.bytes * 2 ^ (64 - ps.log) := by
    rw [PageSize.bytes, ← pow_add]
    congr 1
    have := ps.log_lt
    omega
  have hdvd : ps.bytes ∣ a.toNat := Nat.dvd_of_mod_eq_zero ha
  obtain ⟨c, hc⟩ := hdvd
  have hlt := a.isLt
  rw [hc, hpow] at hlt ⊢
  have hcM : c < 2 ^ (64 - ps.log) := Nat.lt_of_mul_lt_mul_left hlt
  rw [← Nat.mul_succ]
  exact Nat.mul_le_mul_left _ hcM

/-- An address determines the aligned page it lies in. -/
theorem toNat_base_eq {a x : Addr} (ha : a.toNat % ps.bytes = 0) (hx : InRange a ps.bytes x) :
    a.toNat = ps.bytes * (x.toNat / ps.bytes) := by
  have hle := toNat_base_add_le ha
  have hpos : 0 < ps.bytes := Nat.lt_of_lt_of_le (by omega) ps.le_bytes
  have hadd : x.toNat = a.toNat + (x - a).toNat := by
    have hxa : x = a + (x - a) := (add_sub_cancel a x).symm
    rw [InRange] at hx
    conv_lhs => rw [hxa, BitVec.toNat_add]
    exact Nat.mod_eq_of_lt (by omega)
  obtain ⟨c, hc⟩ := Nat.dvd_of_mod_eq_zero ha
  rw [hadd, hc, Nat.mul_add_div hpos, Nat.div_eq_of_lt hx, Nat.add_zero]

/-- Different pages have no address in common. -/
theorem base_eq_of_inRange {a b x : Addr} (ha : a.toNat % ps.bytes = 0)
    (hb : b.toNat % ps.bytes = 0) (hxa : InRange a ps.bytes x) (hxb : InRange b ps.bytes x) :
    a = b := by
  apply BitVec.eq_of_toNat_eq
  rw [toNat_base_eq ha hxa, toNat_base_eq hb hxb]

theorem MappedOnce.eq_of_base (h : MappedOnce ps pages) (hp : p ∈ pages) (hq : q ∈ pages)
    (hbase : p.base = q.base) : p = q :=
  List.inj_on_of_nodup_map h.nodup hp hq hbase

end Pages

/-! ## Where the blocks lie -/

/-- The block lies in the used part of the page. -/
def UsedBy (p : LinearPage) (b : CodeBlock) : Prop :=
  ∃ d, b.start = p.base + BitVec.ofNat 64 d ∧ d + b.size ≤ p.used.toNat

/-- The block is the stub of a callback at the base of a page of which nothing is used. -/
structure StubOn (ps : PageSize) (p : LinearPage) (b : CodeBlock) : Prop where
  start : b.start = p.base
  nonnull : p.base ≠ 0
  unused : p.used = 0
  size : b.size ≤ ps.bytes

/-- The block lies in the page. -/
def Within (ps : PageSize) (p : LinearPage) (b : CodeBlock) : Prop :=
  ∀ x, InRange b.start b.size x → InRange p.base ps.bytes x

/-- **The invariant**: blocks near code lie in the used part of their page, stubs of callbacks on
pages of which nothing is used, and no two blocks overlap. -/
structure CodeInv (ps : PageSize) (s : CodeState) : Prop where
  mapped : MappedOnce ps s.pages
  capacity : ∀ p ∈ s.pages, p.capacity = BitVec.ofNat 32 ps.bytes
  watermarked : Watermarked s.pages
  near : ∀ b ∈ s.blocks, b.user ≠ .callback → ∃ p ∈ s.pages, UsedBy p b
  callback : ∀ b ∈ s.blocks, b.user = .callback → ∃ p ∈ s.pages, StubOn ps p b
  positive : ∀ b ∈ s.blocks, 0 < b.size
  disjoint : s.BlocksDisjoint

section Within

variable {ps : PageSize} {s : CodeState} {p q : LinearPage} {b c : CodeBlock} {x : Addr}

/-- The offsets of a block in the used part of its page. -/
theorem UsedBy.offset_lt (h : UsedBy p b) (hx : InRange b.start b.size x) :
    (x - p.base).toNat < p.used.toNat := by
  obtain ⟨d, hstart, hle⟩ := h
  rw [hstart] at hx
  exact inRange_of_inRange_add hx hle

theorem toNat_used_le (hcap : p.capacity = BitVec.ofNat 32 ps.bytes) (hw : p.used ≤ p.capacity) :
    p.used.toNat ≤ ps.bytes := by
  have hlt := ps.bytes_lt
  rw [BitVec.le_def, hcap, BitVec.toNat_ofNat, Nat.mod_eq_of_lt hlt] at hw
  exact hw

theorem StubOn.within (h : StubOn ps p b) : Within ps p b := by
  intro x hx
  rw [← h.start]
  exact hx.mono h.size

theorem CodeInv.within_of_usedBy (h : CodeInv ps s) (hp : p ∈ s.pages) (hb : UsedBy p b) :
    Within ps p b :=
  fun _ hx => (hb.offset_lt hx).trans_le (toNat_used_le (h.capacity p hp) (h.watermarked p hp))

/-- Every live block lies in a page. -/
theorem CodeInv.within (h : CodeInv ps s) (hb : b ∈ s.blocks) : ∃ p ∈ s.pages, Within ps p b := by
  by_cases hu : b.user = .callback
  · obtain ⟨p, hp, hstub⟩ := h.callback b hb hu
    exact ⟨p, hp, hstub.within⟩
  · obtain ⟨p, hp, hused⟩ := h.near b hb hu
    exact ⟨p, hp, h.within_of_usedBy hp hused⟩

/-- Blocks on different pages are apart. -/
theorem apart_of_base_ne (hp : p.base.toNat % ps.bytes = 0) (hq : q.base.toNat % ps.bytes = 0)
    (hpq : p.base ≠ q.base) (hb : Within ps p b) (hc : Within ps q c) : b.Apart c :=
  fun x hxb hxc => hpq (base_eq_of_inRange hp hq (hb x hxb) (hc x hxc))

end Within

/-! ## Steps -/

/-- No live callback has its stub at the base of the page. -/
def Spares (s : CodeState) (p : LinearPage) : Prop :=
  ∀ b ∈ s.blocks, b.user = .callback → b.start ≠ p.base

section Steps

variable {ps : PageSize} {k : Kernel} {s : CodeState} {p q : LinearPage} {b : CodeBlock}

/-- Pages may grow, be used further, or be used for the first time if no callback is on them. -/
theorem CodeInv.of_pages {pages : List LinearPage} (h : CodeInv ps s)
    (hmapped : MappedOnce ps pages) (hcap : ∀ p ∈ pages, p.capacity = BitVec.ofNat 32 ps.bytes)
    (hw : Watermarked pages)
    (hkeep : ∀ p ∈ s.pages, ∃ p' ∈ pages, p'.base = p.base ∧ p.used.toNat ≤ p'.used.toNat ∧
      (¬ Spares s p → p' = p)) : CodeInv ps ⟨pages, s.blocks⟩ where
  mapped := hmapped
  capacity := hcap
  watermarked := hw
  positive := h.positive
  disjoint := h.disjoint
  near := by
    intro b hb hu
    obtain ⟨p, hp, d, hstart, hle⟩ := h.near b hb hu
    obtain ⟨p', hp', hbase, hused, -⟩ := hkeep p hp
    exact ⟨p', hp', d, by rw [hbase, hstart], hle.trans hused⟩
  callback := by
    intro b hb hu
    obtain ⟨p, hp, hstub⟩ := h.callback b hb hu
    obtain ⟨p', hp', -, -, heq⟩ := hkeep p hp
    have hlive : ¬ Spares s p := fun hspare => hspare b hb hu hstub.start
    rw [heq hlive] at hp'
    exact ⟨p, hp', hstub⟩

/-- A new block in its place and apart from the others. -/
theorem CodeInv.append (h : CodeInv ps s) (hpos : 0 < b.size)
    (hnear : b.user ≠ .callback → ∃ p ∈ s.pages, UsedBy p b)
    (hcallback : b.user = .callback → ∃ p ∈ s.pages, StubOn ps p b)
    (hapart : ∀ c ∈ s.blocks, c.Apart b) : CodeInv ps ⟨s.pages, s.blocks ++ [b]⟩ where
  mapped := h.mapped
  capacity := h.capacity
  watermarked := h.watermarked
  near := by
    intro c hc hu
    rcases List.mem_append.mp hc with hc | hc
    · exact h.near c hc hu
    · rw [List.mem_singleton] at hc
      subst hc
      exact hnear hu
  callback := by
    intro c hc hu
    rcases List.mem_append.mp hc with hc | hc
    · exact h.callback c hc hu
    · rw [List.mem_singleton] at hc
      subst hc
      exact hcallback hu
  positive := by
    intro c hc
    rcases List.mem_append.mp hc with hc | hc
    · exact h.positive c hc
    · rw [List.mem_singleton] at hc
      rw [hc]
      exact hpos
  disjoint := by
    show (s.blocks ++ [b]).Pairwise CodeBlock.Apart
    rw [List.pairwise_append]
    refine ⟨h.disjoint, List.pairwise_singleton _ _, fun c hc b' hb' => ?_⟩
    rw [List.mem_singleton] at hb'
    rw [hb']
    exact hapart c hc

/-- A block that is no longer in use. -/
theorem CodeInv.release (h : CodeInv ps s) (i : ℕ) : CodeInv ps ⟨s.pages, s.blocks.eraseIdx i⟩ := by
  have hsub := List.eraseIdx_sublist s.blocks i
  refine ⟨h.mapped, h.capacity, h.watermarked, ?_, ?_, ?_, ?_⟩
  · exact fun b hb => h.near b (hsub.subset hb)
  · exact fun b hb => h.callback b (hsub.subset hb)
  · exact fun b hb => h.positive b (hsub.subset hb)
  · exact h.disjoint.sublist hsub

/-- A block on a page whose base is none of the old ones. -/
theorem CodeInv.apart_new (h : CodeInv ps s) (hq : q.base.toNat % ps.bytes = 0)
    (hnew : q.base ∉ s.pages.map LinearPage.base) (hwithin : Within ps q b) :
    ∀ c ∈ s.blocks, c.Apart b := by
  intro c hc
  obtain ⟨p, hp, hc'⟩ := h.within hc
  refine apart_of_base_ne (h.mapped.aligned p hp) hq (fun hbase => hnew ?_) hc' hwithin
  rw [← hbase]
  exact List.mem_map_of_mem hp

end Steps

/-! ## Blocks near code -/

section Near

variable {ps : PageSize} {k : Kernel} {s : CodeState} {nearAddr range : Addr} {n m : ℕ}
  {user : CodeUser} {p : LinearPage}

/-- A block at the old watermark of a page that fits. -/
theorem usedBy_bump (hn : n ≤ 4096) (hmn : m ≤ n) (hw : p.used ≤ p.capacity)
    (hfits : fits (roundUp (BitVec.ofNat 64 n)) nearAddr range p = true) :
    UsedBy (bump (roundUp (BitVec.ofNat 64 n)) p) ⟨user, allocAddr p, m⟩ := by
  have hb := toNat_bump hw hfits
  rw [toNat_roundUp hn] at hb
  refine ⟨p.used.toNat, ?_, ?_⟩
  · show allocAddr p = p.base + BitVec.ofNat 64 p.used.toNat
    rw [allocAddr, BitVec.ofNat_toNat]
  · show p.used.toNat + m ≤ _
    rw [hb.1]
    omega

/-- The pages of the first tier after a request, as the invariant needs them. -/
theorem CodeInv.near_pages (h : CodeInv ps s) (hn : n ≤ 4096)
    (hmapped : MappedOnce ps (allocNearCode ps k (BitVec.ofNat 64 n) nearAddr range s.pages).1)
    (hspares : ∀ p, pick (BitVec.ofNat 64 n) nearAddr range s.pages = some p → Spares s p) :
    CodeInv ps ⟨(allocNearCode ps k (BitVec.ofNat 64 n) nearAddr range s.pages).1, s.blocks⟩ := by
  refine h.of_pages hmapped ?_ (watermarked_allocNearCode hn h.watermarked) ?_
  · intro q hq
    rcases mem_allocNearCode_cases hq with hq | ⟨p, hpick, rfl⟩ | ⟨hcap, -⟩
    · exact h.capacity q hq
    · exact h.capacity p (fits_of_pick hpick).2
    · exact hcap
  · intro p hp
    obtain ⟨p', hp', rfl | ⟨hpick, rfl⟩⟩ := exists_mem_allocNearCode ps k hp
    · exact ⟨p', hp', rfl, le_refl _, fun _ => rfl⟩
    · refine ⟨_, hp', rfl, ?_, fun hlive => absurd (hspares p hpick) hlive⟩
      rw [(toNat_bump (h.watermarked p hp) (fits_of_pick hpick).1).1]
      exact Nat.le_add_right _ _

/-- A block at the watermark of the page taken is apart from the live ones. -/
theorem CodeInv.apart_bump (h : CodeInv ps s) (hn : n ≤ 4096) (hmn : m ≤ n)
    (hpick : pick (BitVec.ofNat 64 n) nearAddr range s.pages = some p) (hspares : Spares s p) :
    ∀ c ∈ s.blocks, c.Apart ⟨user, allocAddr p, m⟩ := by
  intro c hc
  obtain ⟨hfits, hp⟩ := fits_of_pick hpick
  have hroom := toNat_bump (h.watermarked p hp) hfits
  rw [toNat_roundUp hn] at hroom
  have hused : UsedBy (bump _ p) ⟨user, allocAddr p, m⟩ :=
    usedBy_bump hn hmn (h.watermarked p hp) hfits
  have hbytes : p.capacity.toNat = ps.bytes := (newPage_bounds ps hn (h.capacity p hp)).1
  have hlt := ps.bytes_lt
  have hwithin : Within ps p ⟨user, allocAddr p, m⟩ := fun x hx =>
    (hused.offset_lt hx).trans_le (by omega)
  by_cases hu : c.user = .callback
  · obtain ⟨q, hq, hstub⟩ := h.callback c hc hu
    have hbase : q.base ≠ p.base := hstub.start ▸ hspares c hc hu
    exact apart_of_base_ne (h.mapped.aligned q hq) (h.mapped.aligned p hp) hbase
      hstub.within hwithin
  · obtain ⟨q, hq, hqc⟩ := h.near c hc hu
    by_cases hbase : q.base = p.base
    · -- on the page itself, the live blocks lie below the watermark
      obtain rfl := h.mapped.eq_of_base hq hp hbase
      obtain ⟨d, hstart, hle⟩ := hqc
      rw [CodeBlock.Apart, hstart, allocAddr, ← BitVec.ofNat_toNat]
      exact apart_add hle (by show q.used.toNat + m ≤ _; omega)
    · exact apart_of_base_ne (h.mapped.aligned q hq) (h.mapped.aligned p hp) hbase
        (h.within_of_usedBy hq hqc) hwithin

/-- **A request near code keeps the invariant** if the page it takes, if any, has no live
callback. -/
theorem CodeInv.use_near (h : CodeInv ps s) (hn : n ≤ 4096) (hm : 0 < m) (hmn : m ≤ n)
    (hu : user ≠ .callback)
    (hmapped : MappedOnce ps (allocNearCode ps k (BitVec.ofNat 64 n) nearAddr range s.pages).1)
    (hspares : ∀ p, pick (BitVec.ofNat 64 n) nearAddr range s.pages = some p → Spares s p) :
    CodeInv ps (s.use user m (allocNearCode ps k (BitVec.ofNat 64 n) nearAddr range s.pages)) := by
  have hpages := h.near_pages hn hmapped hspares
  rw [CodeState.use]
  split_ifs with hr
  · exact hpages
  obtain ⟨old, new, hres, hold, hnew, hret⟩ :=
    allocNearCode_spec ps k (BitVec.ofNat 64 n) nearAddr range s.pages
  rcases hret hr with ⟨p, hpick, hmem, haddr⟩ | ⟨q, hq, hbase, hused⟩
  · obtain ⟨hfits, hp⟩ := fits_of_pick hpick
    rw [haddr]
    refine hpages.append hm (fun _ => ?_) (fun hcb => absurd hcb hu)
      (h.apart_bump hn hmn hpick (hspares p hpick))
    refine ⟨_, ?_, usedBy_bump hn hmn (h.watermarked p hp) hfits⟩
    rw [hres]
    exact List.mem_append_left _ hmem
  · have hqmem : q ∈ (allocNearCode ps k (BitVec.ofNat 64 n) nearAddr range s.pages).1 := by
      rw [hres]
      exact List.mem_append_right _ hq
    obtain ⟨-, hround, hle⟩ := newPage_bounds ps hn (hnew q hq).1
    have hblock : UsedBy q ⟨user, q.base, m⟩ := by
      refine ⟨0, (BitVec.add_zero _).symm, ?_⟩
      show 0 + m ≤ q.used.toNat
      rw [hused, hround]
      omega
    rw [← hbase]
    refine hpages.append hm (fun _ => ⟨q, hqmem, hblock⟩) (fun hcb => absurd hcb hu) ?_
    -- the bases of the new pages are none of the old ones
    have hnodup := hmapped.nodup
    rw [hres, List.map_append, map_base_old hold, List.nodup_append] at hnodup
    refine h.apart_new (hmapped.aligned q hqmem) (fun hmem => ?_)
      (hpages.within_of_usedBy hqmem hblock)
    exact hnodup.2.2 _ hmem _ (List.mem_map_of_mem hq) rfl

end Near

/-! ## Whole pages -/

section Page

variable {ps : PageSize} {k : Kernel} {s : CodeState} {m : ℕ}

theorem allocPage_eq (ps : PageSize) (k : Kernel) (pages : List LinearPage) :
    allocPage ps k pages = (pages, 0) ∨
      ∃ page, allocPage ps k pages = (pages ++ [newPage ps page], page) := by
  rw [allocPage]
  cases k.mmapAny with
  | none => exact Or.inl rfl
  | some page => exact Or.inr ⟨page, rfl⟩

/-- A new page of which nothing is used. -/
theorem CodeInv.page_pages (h : CodeInv ps s) (hmapped : MappedOnce ps (allocPage ps k s.pages).1) :
    CodeInv ps ⟨(allocPage ps k s.pages).1, s.blocks⟩ := by
  rcases allocPage_eq ps k s.pages with heq | ⟨page, heq⟩
  · rw [heq]
    exact h
  rw [heq] at hmapped ⊢
  have hcases : ∀ q ∈ s.pages ++ [newPage ps page], q ∈ s.pages ∨ q = newPage ps page := fun q hq =>
    (List.mem_append.mp hq).imp_right List.mem_singleton.mp
  refine h.of_pages hmapped ?_ ?_ ?_
  · intro q hq
    rcases hcases q hq with hq | rfl
    · exact h.capacity q hq
    · rfl
  · intro q hq
    rcases hcases q hq with hq | rfl
    · exact h.watermarked q hq
    · exact Nat.zero_le _
  · exact fun p hp => ⟨p, List.mem_append_left _ hp, rfl, le_refl _, fun _ => rfl⟩

/-- **The stub of a callback keeps the invariant**: its page is a new one. -/
theorem CodeInv.use_callback (h : CodeInv ps s) (hm : 0 < m) (hle : m ≤ ps.bytes)
    (hmapped : MappedOnce ps (allocPage ps k s.pages).1) :
    CodeInv ps (s.use .callback m (allocPage ps k s.pages)) := by
  have hpages := h.page_pages hmapped
  rw [CodeState.use]
  split_ifs with hr
  · exact hpages
  rcases allocPage_eq ps k s.pages with heq | ⟨page, heq⟩
  · rw [heq] at hr
    exact absurd rfl hr
  rw [heq] at hpages hmapped hr ⊢
  have hmem : newPage ps page ∈ s.pages ++ [newPage ps page] :=
    List.mem_append_right _ (List.mem_singleton_self _)
  have hstub : StubOn ps (newPage ps page) ⟨.callback, page, m⟩ := ⟨rfl, hr, rfl, hle⟩
  refine hpages.append hm (fun hu => absurd rfl hu) (fun _ => ⟨_, hmem, hstub⟩) ?_
  have hnodup := hmapped.nodup
  rw [List.map_append, List.nodup_append] at hnodup
  refine h.apart_new (hmapped.aligned _ hmem) (fun hold => ?_) hstub.within
  exact hnodup.2.2 _ hold _ (List.mem_map_of_mem (List.mem_singleton_self _)) rfl

end Page

/-! ## Runs -/

/-- A request near code takes no page from under a live callback. -/
def SparesCallbacks (s : CodeState) : CodeOp → Prop
  | .hookInstall _ _ target replace => ∀ p,
      pick (BitVec.ofNat 64 (maxRelocSize (buildJumpPatch target replace).patchSize))
      target kMaxBRange
        s.pages = some p → Spares s p
  | .attach _ target _ _ _ => ∀ p,
      pick (BitVec.ofNat 64 1024) target kMaxBRange s.pages = some p → Spares s p
  | _ => True

section Sizes

theorem length_emitTrampoline (entry onEnter onLeave : Addr) :
    (Interceptor.emitTrampoline entry onEnter onLeave).1.buf.length = 146 := by
  rw [(Interceptor.emitTrampoline_eq entry onEnter onLeave).1]
  simp [Interceptor.beforePlaceholder, Interceptor.afterPlaceholder]

theorem length_callbackWords_le (cb dispatch : Addr) :
    0 < (Native.callbackWords cb dispatch).length ∧
      (Native.callbackWords cb dispatch).length ≤ 38 := by
  obtain ⟨rest, hrest, heq⟩ := Native.callbackWords_eq cb dispatch
  rw [heq]
  simp only [List.length_append, Native.length_toDispatch, List.length_singleton]
  omega

end Sizes

section Runs

variable {ps : PageSize} {k : Kernel} {s : CodeState} {nearAddr range : Addr} {n m : ℕ}
  {user : CodeUser} {p : LinearPage}

/-- **Every step that spares the callbacks keeps the invariant.** -/
theorem codeInv_step (h : CodeInv ps s) (op : CodeOp) (hmapped : MappedOnce ps (s.step ps op).pages)
    (hspares : SparesCallbacks s op) : CodeInv ps (s.step ps op) := by
  have huse : ∀ user m alloc, (s.use user m alloc).pages = alloc.1 := by
    intro user m alloc
    rw [CodeState.use]
    split_ifs <;> rfl
  cases op with
  | hookInstall k mem target replace =>
    rw [CodeState.step, huse] at hmapped
    have hpos := length_buildRelocatedCode_pos mem target replace
    exact h.use_near (maxRelocSize_le target replace) (by omega)
      (length_buildRelocatedCode_le_maxRelocSize mem target replace) (by simp) hmapped hspares
  | attach k target entry onEnter onLeave =>
    rw [CodeState.step, huse] at hmapped
    rw [CodeState.step, length_emitTrampoline]
    exact h.use_near (by omega) (by omega) (by omega) (by simp) hmapped hspares
  | nativeCall k => exact h.page_pages hmapped
  | nativeCallback k cb dispatch =>
    rw [CodeState.step, huse] at hmapped
    have hlen := length_callbackWords_le cb dispatch
    have hbytes := ps.le_bytes
    exact h.use_callback (by omega) (by omega) hmapped
  | release i => exact h.release i

/-- A page taken from under a live callback: the watermark is at zero, so the block begins where the
stub does. -/
theorem CodeInv.not_blocksDisjoint (h : CodeInv ps s) (hm : 0 < m)
    (hpick : pick (BitVec.ofNat 64 n) nearAddr range s.pages = some p) (hlive : ¬ Spares s p) :
    ¬ (s.use user m (allocNearCode ps k (BitVec.ofNat 64 n) nearAddr range
      s.pages)).BlocksDisjoint := by
  rw [Spares] at hlive
  push Not at hlive
  obtain ⟨b, hb, hu, hstart⟩ := hlive
  obtain ⟨q, hq, hstub⟩ := h.callback b hb hu
  obtain rfl := h.mapped.eq_of_base hq (fits_of_pick hpick).2 (hstub.start.symm.trans hstart)
  have haddr : allocAddr q = b.start := by
    rw [allocAddr, hstub.unused, hstart]
    exact BitVec.add_zero _
  have hne : b.start ≠ 0 := hstart ▸ hstub.nonnull
  obtain ⟨pre, post, -, hres⟩ := allocNearCode_of_pick ps k hpick (haddr ▸ hne)
  rw [hres, CodeState.use, if_neg (haddr ▸ hne), CodeState.BlocksDisjoint,
    List.pairwise_append, haddr]
  rintro ⟨-, -, hapart⟩
  have hin : ∀ size, 0 < size → InRange b.start size b.start := by
    intro size hsize
    rw [InRange, BitVec.sub_self]
    exact hsize
  exact hapart b hb _ (List.mem_singleton_self _) b.start (hin _ (h.positive b hb)) (hin m hm)

end Runs

/-- The state before any request. -/
def CodeState.init : CodeState := ⟨[], []⟩

theorem codeInv_init (ps : PageSize) : CodeInv ps .init :=
  ⟨⟨by simp [CodeState.init], by simp [CodeState.init]⟩, by simp [CodeState.init],
    by simp [CodeState.init, Watermarked], by simp [CodeState.init], by simp [CodeState.init],
    by simp [CodeState.init], List.Pairwise.nil⟩

/-- The answers of `mmap` during a step: aligned pages that the allocator does not have yet. -/
def FreshPages (ps : PageSize) (s : CodeState) (op : CodeOp) : Prop :=
  MappedOnce ps (s.step ps op).pages

/-- **When executable blocks stay disjoint.**  `AllocPage` leaves the page it returns with nothing
used.  So the live blocks of a run are disjoint in every state exactly if no request near code takes
the page of a live callback. -/
theorem blocks_disjoint_iff (ps : PageSize) (ops : List CodeOp)
    (hfresh : AllSteps (CodeState.step ps) (FreshPages ps) .init ops) :
    AllStates (CodeState.step ps) CodeState.BlocksDisjoint .init ops ↔
      AllSteps (CodeState.step ps) SparesCallbacks .init ops := by
  refine allStates_iff_allSteps (I := CodeInv ps) (codeInv_init ps) hfresh (fun s h => h.disjoint)
    (fun s op h hmapped hspares => codeInv_step h op hmapped hspares) ?_
  intro s op h _ hspares
  cases op with
  | hookInstall k mem target replace =>
    rw [SparesCallbacks] at hspares
    push Not at hspares
    obtain ⟨p, hpick, hlive⟩ := hspares
    have hpos := length_buildRelocatedCode_pos mem target replace
    exact h.not_blocksDisjoint (by omega) hpick hlive
  | attach k target entry onEnter onLeave =>
    rw [SparesCallbacks] at hspares
    push Not at hspares
    obtain ⟨p, hpick, hlive⟩ := hspares
    rw [CodeState.step, length_emitTrampoline]
    exact h.not_blocksDisjoint (by omega) hpick hlive
  | nativeCall k => exact absurd trivial hspares
  | nativeCallback k cb dispatch => exact absurd trivial hspares
  | release i => exact absurd trivial hspares

/-- A callback, then a hook on a function close to the page of its stub. -/
def callbackThenHook : List CodeOp :=
  [.nativeCallback (.answering 0x30000000) 0x50000000 0x60000000,
    .hookInstall (.answering 0x40000000) (fun _ => 0) 0x30100000 0x20000000]

theorem callbackThenHook_fresh :
    AllSteps (CodeState.step .small) (FreshPages .small) .init callbackThenHook := by
  have hone : (run (CodeState.step .small) .init (callbackThenHook.take 1)).pages =
      [⟨0x30000000, 0, 4096⟩] := by
    decide
  have htwo : (run (CodeState.step .small) .init callbackThenHook).pages =
      [⟨0x30000000, 128, 4096⟩] := by
    decide
  refine ⟨?_, ?_, trivial⟩
  · show MappedOnce .small (run (CodeState.step .small) .init (callbackThenHook.take 1)).pages
    rw [hone]
    exact ⟨by decide, by decide⟩
  · show MappedOnce .small (run (CodeState.step .small) .init callbackThenHook).pages
    rw [htwo]
    exact ⟨by decide, by decide⟩

theorem callbackThenHook_disjoint_iff :
    AllStates (CodeState.step .small) CodeState.BlocksDisjoint .init callbackThenHook ↔
      AllSteps (CodeState.step .small) SparesCallbacks .init callbackThenHook :=
  blocks_disjoint_iff .small callbackThenHook callbackThenHook_fresh

/-- The hook is installed, and its relocated code is written over the stub of the callback. -/
theorem callbackThenHook_overlap :
    AllSteps (CodeState.step .small) (FreshPages .small) .init callbackThenHook ∧
      (hookInstall .small (.answering 0x40000000) true
        { blankState with pages := [newPage .small 0x30000000] } 0x30100000 0x20000000
        (some 0)).ret = 0 ∧
      ¬ AllStates (CodeState.step .small) CodeState.BlocksDisjoint .init callbackThenHook := by
  refine ⟨callbackThenHook_fresh, by decide, fun h => ?_⟩
  have hblocks : (run (CodeState.step .small) .init callbackThenHook).blocks =
      [⟨.callback, 0x30000000, 152⟩, ⟨.relocated, 0x30000000, 32⟩] := by
    decide +kernel
  have hlast := h.run_take callbackThenHook.length
  rw [List.take_length, CodeState.BlocksDisjoint, hblocks, List.pairwise_cons] at hlast
  exact hlast.1 _ List.mem_cons_self 0x30000000 (by decide) (by decide)

end CalvinHook
