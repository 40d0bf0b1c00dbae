import CalvinHook.Xz.Lzma2Run

/-!
# Calls of the LZMA2 decoder one after another

A caller of `xz_dec_lzma2_run` gives an output buffer, takes what has been written and calls again,
as `xz_decompress` does with its buffer of 32 KiB.  However the room is dealt out, the pieces put
together are the output of the format.

* `calls`: calls with given amounts of room, as long as they return `XZ_OK`.
* `Lzma2Rel.calls`: what a run of calls comes to, from every state between two calls.
* `calls_streamEnd_iff`: after `xz_dec_lzma2_reset`, a run of calls with enough room decodes exactly
  the valid inputs.
* `calls_frame`: nothing behind the dictionary or the output buffer is written.
* `calls_length_le`: how much a run of calls writes for the input it takes.
-/

namespace CalvinHook
namespace Xz

open RangeCoder (Coded Reader Decoder Source Fair)

/-- Calls of `xz_dec_lzma2_run` with some room each, as long as they return `XZ_OK`: the last return
code and all of the output. -/
def calls : List ℕ → Lzma2Dec → XzBuf → XzRet × List Byte × Lzma2Dec × XzBuf
  | [], s, b => (.ok, [], s, b)
  | room :: rooms, s, b =>
    match xzDecLzma2Run s { b with outPos := 0, outSize := room } with
    | (.ok, s', b') =>
      let (ret, out, s'', b'') := calls rooms s' b'
      (ret, slice b'.out 0 b'.outPos ++ out, s'', b'')
    | (ret, s', b') => (ret, slice b'.out 0 b'.outPos, s', b')

/-! ## Between two calls -/

section between

variable {F : Source} {size room : ℕ} {s : Lzma2Dec} {b b' : XzBuf} {rest : Rest} {out : List Byte}

/-- The room for output is no part of what is left to come. -/
theorem Lzma2Rel.setRoom (h : Lzma2Rel F size s b rest) (room : ℕ) :
    Lzma2Rel F size s { b with outPos := 0, outSize := room } rest := by
  cases h with
  | control st hseq hready => exact .control st hseq hready
  | header st0 st pos hlt hne hstart hheader hfields =>
    exact .header st0 st pos hlt hne hstart hheader hfields
  | lzma stop c r hseq hchunk hstart hlt hneedDict hneedProps hpos =>
    exact .lzma stop c r hseq { hchunk with } hstart hlt hneedDict hneedProps hpos
  | copy st hseq hneed hready hpos => exact .copy st hseq hneed hready hpos
  | ended hseq hend => exact .ended hseq hend

/-- What was written can be read back. -/
theorem slice_writeList (buf : ℕ → Byte) (pos : ℕ) (bytes : List Byte) :
    slice (writeList buf pos bytes) pos bytes.length = bytes := by
  refine List.ext_getElem (length_slice _ _ _) fun i hi hi' => ?_
  have hin : pos ≤ pos + i ∧ pos + i < pos + bytes.length := by omega
  simp only [slice, List.getElem_map, List.getElem_range]
  rw [writeList, Ring.store, if_pos hin, Nat.add_sub_cancel_left, List.getElem?_eq_getElem hi',
    Option.getD_some]

theorem Written.slice_out (h : Written { b with outPos := 0, outSize := room } b' out) :
    slice b'.out 0 b'.outPos = out := by
  have hpos : b'.outPos = out.length := h.outPos.trans (Nat.zero_add _)
  rw [hpos, h.out]
  exact slice_writeList _ _ _

end between

/-- What a run of calls has changed: the dictionary, and the output buffer up to the room of the
calls.  The output is paid for by the input. -/
structure Called (s : Lzma2Dec) (b : XzBuf) (rooms : List ℕ) (s' : Lzma2Dec) (b' : XzBuf)
    (out : List Byte) :
    Prop where
  dict : SameDict s.dict s'.dict
  length_le : out.length ≤ rooms.sum
  inPos_le : b'.inPos ≤ b.inSize
  inSize : b'.inSize = b.inSize
  spent : out.length + budget s' b' ≤ budget s b
  frame : ∀ i, (∀ room ∈ rooms, room ≤ i) → b'.out i = b.out i

/-- One call is a run of calls. -/
theorem Called.one {s s' : Lzma2Dec} {b b' : XzBuf} {room : ℕ} {out : List Byte}
    (h : Moved s { b with outPos := 0, outSize := room } s' b' out) (rooms : List ℕ) :
    Called s b (room :: rooms) s' b' out where
  dict := h.dict
  length_le := by
    have hpos := h.written.outPos
    have hle := h.written.outPos_le
    rw [List.sum_cons]
    dsimp only at hpos hle
    omega
  inPos_le := h.written.inPos_le_size
  inSize := h.written.inSize
  spent := by
    have hspent : out.length + (b'.inPos - b.inPos) + budget s' b' ≤ budget s b := h.spent
    omega
  frame := by
    intro i hi
    have hroom := hi room List.mem_cons_self
    have hpos := h.written.outPos
    have hle := h.written.outPos_le
    dsimp only at hpos hle
    rw [h.written.out, writeList, Ring.store]
    exact if_neg (by dsimp only; omega)

theorem Called.cons {s s1 s2 : Lzma2Dec} {b b1 b2 : XzBuf} {room : ℕ} {rooms : List ℕ}
    {out out' : List Byte} (h : Moved s { b with outPos := 0, outSize := room } s1 b1 out)
    (h' : Called s1 b1 rooms s2 b2 out') :
    Called s b (room :: rooms) s2 b2 (out ++ out') where
  dict := h.dict.trans h'.dict
  length_le := by
    have hfirst := (Called.one h []).length_le
    have hrest := h'.length_le
    rw [List.sum_cons, List.sum_nil] at hfirst
    rw [List.length_append, List.sum_cons]
    omega
  inPos_le := h'.inPos_le.trans_eq h.written.inSize
  inSize := h'.inSize.trans h.written.inSize
  spent := by
    have hfirst := (Called.one h []).spent
    have hrest := h'.spent
    rw [List.length_append]
    omega
  frame := by
    intro i hi
    rw [h'.frame i fun room hroom => hi room (List.mem_cons_of_mem _ hroom)]
    exact (Called.one h rooms).frame i hi

/-- What a run of calls comes to when `rest` is what is left before it. -/
def CallsOutcome (F : Source) (size : ℕ) (s : Lzma2Dec) (b : XzBuf) (rooms : List ℕ) (rest : Rest) :
    XzRet × List Byte × Lzma2Dec × XzBuf → Prop
  | (.ok, out, s', b') => Called s b rooms s' b' out ∧
      ∃ rest', Lzma2Rel F size s' b' rest' ∧ rest = prepend out rest' ∧
        ∀ more stop, rest' = some (more, stop) → out.length = rooms.sum ∧ (rooms = [] ∨ more ≠ [])
  | (.streamEnd, out, s', b') => Called s b rooms s' b' out ∧ rest = some (out, b'.inPos)
  | (.dataError, _) => rest = none
  | _ => False

/-- A call that returns `XZ_OK`, and a run of calls behind it. -/
theorem CallsOutcome.cons {F : Source} {size room : ℕ} {s s1 : Lzma2Dec} {b b1 : XzBuf}
    {rooms : List ℕ} {rest rest1 : Rest} {out : List Byte} {ret : XzRet} {out' : List Byte}
    {s2 : Lzma2Dec} {b2 : XzBuf} (hm : Moved s { b with outPos := 0, outSize := room } s1 b1 out)
    (hrest : rest = prepend out rest1)
    (hmore : ∀ more stop, rest1 = some (more, stop) → more ≠ [] ∧ b1.outPos = b1.outSize)
    (h : CallsOutcome F size s1 b1 rooms rest1 (ret, out', s2, b2)) :
    CallsOutcome F size s b (room :: rooms) rest (ret, out ++ out', s2, b2) := by
  cases ret with
  | ok =>
    obtain ⟨hcalled, rest2, hrel2, hrest2, hmore2⟩ := h
    refine ⟨.cons hm hcalled, rest2, hrel2, by rw [hrest, hrest2, prepend_prepend],
      fun more stop hsome => ?_⟩
    obtain ⟨hlength, hrooms⟩ := hmore2 more stop hsome
    have hsome1 : rest1 = some (out' ++ more, stop) := by rw [hrest2, hsome]; rfl
    obtain ⟨hne, hfull⟩ := hmore _ _ hsome1
    have hout : out.length = room := by
      have houtPos := hm.written.outPos
      have houtSize := hm.written.outSize
      dsimp only at houtPos houtSize
      omega
    refine ⟨by rw [List.length_append, hlength, hout, List.sum_cons], .inr ?_⟩
    rcases hrooms with rfl | hrooms
    · have hnil : out' = [] := List.length_eq_zero_iff.mp hlength
      rwa [hnil, List.nil_append] at hne
    · exact hrooms
  | streamEnd =>
    obtain ⟨hcalled, hrest2⟩ := h
    refine ⟨.cons hm hcalled, ?_⟩
    rw [hrest, hrest2]
    rfl
  | dataError =>
    obtain rfl : rest1 = none := h
    exact hrest
  | unsupportedCheck => exact h
  | memError => exact h
  | memlimitError => exact h
  | formatError => exact h
  | optionsError => exact h
  | bufError => exact h

/-- **Runs of calls.**  By induction on the calls; each of them writes the next part of what is
left. -/
theorem Lzma2Rel.calls {F : Source} {size : ℕ} {s : Lzma2Dec} {b : XzBuf} {rest : Rest}
    (rooms : List ℕ) (hrel : Lzma2Rel F size s b rest) (hinput : b.input = F)
    (hsize : b.inSize = size) (hpos : b.inPos ≤ size) :
    CallsOutcome F size s b rooms rest (calls rooms s b) := by
  induction rooms generalizing s b rest with
  | nil =>
    exact ⟨⟨.refl _, le_rfl, hpos.trans_eq hsize.symm, rfl, (Nat.zero_add _).le, fun _ _ => rfl⟩,
      rest, hrel, (prepend_nil _).symm, fun more stop _ => ⟨rfl, .inl rfl⟩⟩
  | cons room rooms ih =>
    have hb : Whole F size { b with outPos := 0, outSize := room } :=
      ⟨hinput, hsize, hpos, Nat.zero_le _⟩
    have hrun := xzDecLzma2Run_cases (hrel.setRoom room) hb
    rw [Xz.calls]
    rcases hresult : xzDecLzma2Run s { b with outPos := 0, outSize := room } with ⟨ret, s1, b1⟩
    rw [hresult] at hrun
    cases ret with
    | ok =>
      obtain ⟨out, rest1, hrel1, hrest1, hm, hmore⟩ := hrun
      have hb1 := hm.written.whole hb
      have hslice := hm.written.slice_out
      dsimp only
      rw [hslice]
      exact .cons hm hrest1 hmore (ih hrel1 hb1.input hb1.inSize hb1.inPos_le)
    | streamEnd =>
      obtain ⟨out, hrest1, hm, -⟩ := hrun
      have hslice := hm.written.slice_out
      dsimp only
      rw [hslice]
      exact ⟨.one hm rooms, hrest1⟩
    | dataError => exact hrun
    | unsupportedCheck => exact hrun
    | memError => exact hrun
    | memlimitError => exact hrun
    | formatError => exact hrun
    | optionsError => exact hrun
    | bufError => exact hrun

/-! ## After `xz_dec_lzma2_reset` -/

/-- The size of the dictionary that a properties byte stands for. -/
def dictSize (props : ℕ) : ℕ := (2 + props % 2) * 2 ^ (props / 2 + 11)

/-- The state before the first chunk. -/
def ChunkState.fresh : ChunkState :=
  ⟨⟨[], ⟨0, 0, 0, 0, .litLit, 0, 0, 0, 0⟩⟩, fun _ => 2 ^ 11 / 2, true, true⟩

theorem dictSize_bounds {props : ℕ} (h : props ≤ 39) : 16 ∣ dictSize props ∧ 0 < dictSize props ∧
    dictSize props < 2 ^ 32 := by
  have hpow : 2 ^ (props / 2 + 11) ≤ 2 ^ 30 := Nat.pow_le_pow_right (Nat.succ_pos 1) (by omega)
  have hpos : 0 < 2 ^ (props / 2 + 11) := Nat.two_pow_pos _
  have hmod : props % 2 < 2 := Nat.mod_lt _ (Nat.succ_pos 1)
  refine ⟨?_, Nat.mul_pos (by omega) hpos, ?_⟩
  · have hdvd : 2 ^ 4 ∣ 2 ^ (props / 2 + 11) := pow_dvd_pow 2 (by omega)
    exact Dvd.dvd.mul_left hdvd _
  · calc dictSize props ≤ 3 * 2 ^ 30 := Nat.mul_le_mul (by omega) hpow
      _ < 2 ^ 32 := by norm_num

/-- A reset that succeeds. -/
theorem xzDecLzma2Reset_ok {vmalloc : ℕ → Option (ℕ → Byte)} {s0 s : Lzma2Dec} {props : ℕ}
    (h : xzDecLzma2Reset vmalloc s0 props = (.ok, s)) :
    s.sequence = .control ∧ s.dict.size = dictSize props ∧ s.dict.bufEnd ≤ s.dict.allocated ∧
      Ready s .fresh := by
  unfold xzDecLzma2Reset at h
  by_cases hprops : 39 < props
  · rw [if_pos hprops] at h
    cases h
  · obtain ⟨haligned, hpos, hlt⟩ := dictSize_bounds (Nat.not_lt.mp hprops)
    have hready : ∀ d : Dictionary, d.size = dictSize props → d.bufEnd = dictSize props →
        dictSize props ≤ d.allocated → ∀ s1 : Lzma2Dec,
        s1 = { s0 with dict := d, sequence := .control, needDictReset := true, tempSize := 0 } →
        s1.sequence = .control ∧ s1.dict.size = dictSize props ∧
          s1.dict.bufEnd ≤ s1.dict.allocated ∧
          Ready s1 .fresh := by
      rintro d hsize hend hallocated s1 rfl
      refine ⟨rfl, hsize, hend.trans_le hallocated,
        ⟨⟨?_, ?_, ?_, ?_⟩, rfl, fun h => ?_, fun h => ?_, fun h => ?_, rfl⟩⟩
      · exact hsize.trans hend.symm
      · exact hend ▸ haligned
      · exact hend ▸ hpos
      · exact hend ▸ hlt
      · exact absurd h Bool.true_eq_false_eq_False
      · exact absurd h Bool.true_eq_false_eq_False
      · exact absurd h Bool.true_eq_false_eq_False
    rw [if_neg hprops] at h
    dsimp only at h
    split_ifs at h with hmax hroom
    · cases h
    · split at h
      · exact hready _ rfl rfl le_rfl s (Prod.mk.inj h).2.symm
      · cases h
    · exact hready { s0.dict with size := dictSize props, bufEnd := dictSize props } rfl rfl
        (Nat.not_lt.mp hroom) s
        (Prod.mk.inj h).2.symm

/-- Right after a reset all of the output is left. -/
theorem Lzma2Rel.of_reset {vmalloc : ℕ → Option (ℕ → Byte)} {s0 s : Lzma2Dec} {props : ℕ}
    (hreset : xzDecLzma2Reset vmalloc s0 props = (.ok, s)) (b : XzBuf) :
    Lzma2Rel b.input b.inSize s b (lzma2 (dictSize props) b.input b.inSize .fresh b.inPos) := by
  obtain ⟨hseq, hsize, -, hready⟩ := xzDecLzma2Reset_ok hreset
  rw [← hsize]
  exact .control _ hseq hready

/-- A valid input is decoded if there is enough room. -/
theorem calls_of_lzma2 {vmalloc : ℕ → Option (ℕ → Byte)} {s0 s : Lzma2Dec} {props size stop : ℕ}
    {F : Source} {out : List Byte} {rooms : List ℕ}
    (hreset : xzDecLzma2Reset vmalloc s0 props = (.ok, s))
    (hvalid : lzma2 (dictSize props) F size .fresh 0 = some (out, stop)) (hrooms : rooms ≠ [])
    (hroom : out.length ≤ rooms.sum) (buf : ℕ → Byte) :
    ∃ s' b', calls rooms s ⟨F, 0, size, buf, 0, 0⟩ = (.streamEnd, out, s', b') ∧
      b'.inPos = stop := by
  have hcalls := (Lzma2Rel.of_reset hreset ⟨F, 0, size, buf, 0, 0⟩).calls rooms rfl rfl
    (Nat.zero_le _)
  rcases hresult : calls rooms s ⟨F, 0, size, buf, 0, 0⟩ with ⟨ret, out', s', b'⟩
  rw [hresult] at hcalls
  dsimp only at hcalls
  rw [hvalid] at hcalls
  cases ret with
  | ok =>
    -- all of the room is used, and something is still to come
    obtain ⟨-, rest', -, hrest, hmore⟩ := hcalls
    obtain ⟨⟨more, stop'⟩, hrest', heq⟩ := Option.map_eq_some_iff.mp hrest.symm
    obtain ⟨hlength, hne⟩ := hmore more stop' hrest'
    obtain ⟨rfl, -⟩ := Prod.mk.inj heq
    have hpos := List.length_pos_of_ne_nil (hne.resolve_left hrooms)
    rw [List.length_append] at hroom
    omega
  | streamEnd =>
    obtain ⟨rfl, rfl⟩ := Prod.mk.inj (Option.some.inj hcalls.2)
    exact ⟨s', b', rfl, rfl⟩
  | dataError => cases hcalls
  | unsupportedCheck => exact hcalls.elim
  | memError => exact hcalls.elim
  | memlimitError => exact hcalls.elim
  | formatError => exact hcalls.elim
  | optionsError => exact hcalls.elim
  | bufError => exact hcalls.elim

/-- **Decoding in pieces.**  After a reset, calls with any amounts of room end with `XZ_STREAM_END`
exactly when the input is valid and the room is enough, and what they have written is then the
output of the format. -/
theorem calls_streamEnd_iff {vmalloc : ℕ → Option (ℕ → Byte)} {s0 s : Lzma2Dec} {props : ℕ}
    (hreset : xzDecLzma2Reset vmalloc s0 props = (.ok, s)) (F : Source) (size : ℕ) (buf : ℕ → Byte)
    {rooms : List ℕ} (hrooms : rooms ≠ []) (out : List Byte) (stop : ℕ) :
    (∃ s' b', calls rooms s ⟨F, 0, size, buf, 0, 0⟩ = (.streamEnd, out, s', b') ∧ b'.inPos = stop) ↔
      lzma2 (dictSize props) F size .fresh 0 = some (out, stop) ∧ out.length ≤ rooms.sum := by
  constructor
  · rintro ⟨s', b', heq, rfl⟩
    have hcalls := (Lzma2Rel.of_reset hreset ⟨F, 0, size, buf, 0, 0⟩).calls rooms rfl rfl
      (Nat.zero_le _)
    rw [heq] at hcalls
    exact ⟨hcalls.2, hcalls.1.length_le⟩
  · rintro ⟨hvalid, hroom⟩
    exact calls_of_lzma2 hreset hvalid hrooms hroom buf

/-- The decoder of `xz_decompress` after a block header with the smallest dictionary. -/
def smallDec : Lzma2Dec :=
  (xzDecLzma2Reset (fun _ => some fun _ => 0) (xzDecLzma2Create (2 ^ 26)) 0).2

theorem reset_smallDec :
    xzDecLzma2Reset (fun _ => some fun _ => 0) (xzDecLzma2Create (2 ^ 26)) 0 = (.ok, smallDec) :=
  rfl

/-- A chunk with a literal and a repeated match, then a chunk with a byte that is copied. -/
def fewBytes : List Byte := [224, 0, 3, 0, 6, 93, 0, 32, 232, 124, 0, 0, 0, 2, 0, 0, 66, 0]

theorem lzma2_fewBytes :
    lzma2 (dictSize 0) (fewBytes.getD · 0) 18 .fresh 0 =
      some ([0x41, 0x41, 0x41, 0x41, 0x42], 18) := by
  decide +kernel

theorem calls_fewBytes :
    ∃ s' b', calls [1, 3, 1] smallDec ⟨(fewBytes.getD · 0), 0, 18, fun _ => 0, 0, 0⟩ =
      (.streamEnd, [0x41, 0x41, 0x41, 0x41, 0x42], s', b') ∧ b'.inPos = 18 :=
  (calls_streamEnd_iff reset_smallDec _ 18 (fun _ => 0) (List.cons_ne_nil 1 [3, 1]) _ 18).mpr
    ⟨lzma2_fewBytes, le_rfl⟩

/-- A run of calls after a reset that is not ended by an error. -/
theorem called_of_calls {vmalloc : ℕ → Option (ℕ → Byte)} {s0 s : Lzma2Dec} {props : ℕ}
    (hreset : xzDecLzma2Reset vmalloc s0 props = (.ok, s)) {b : XzBuf} (hpos : b.inPos ≤ b.inSize)
    {rooms : List ℕ} {ret : XzRet} {out : List Byte} {s' : Lzma2Dec} {b' : XzBuf}
    (hcalls : calls rooms s b = (ret, out, s', b')) (hret : ret = .ok ∨ ret = .streamEnd) :
    Called s b rooms s' b' out := by
  have houtcome := (Lzma2Rel.of_reset hreset b).calls rooms rfl rfl hpos
  rw [hcalls] at houtcome
  rcases hret with rfl | rfl
  · exact houtcome.1
  · exact houtcome.1

/-- **What is written.**  A run of calls after a reset changes the dictionary only inside of its
allocation, the output buffer only inside of the room that some call has got, and does not read
behind the input. -/
theorem calls_frame {vmalloc : ℕ → Option (ℕ → Byte)} {s0 s : Lzma2Dec} {props : ℕ}
    (hreset : xzDecLzma2Reset vmalloc s0 props = (.ok, s)) {b : XzBuf} (hpos : b.inPos ≤ b.inSize)
    (rooms : List ℕ) {ret : XzRet} {out : List Byte} {s' : Lzma2Dec} {b' : XzBuf}
    (hcalls : calls rooms s b = (ret, out, s', b')) (hret : ret = .ok ∨ ret = .streamEnd) :
    (∀ i, s.dict.allocated ≤ i → s'.dict.buf i = s.dict.buf i) ∧
      (∀ i, (∀ room ∈ rooms, room ≤ i) → b'.out i = b.out i) ∧ b'.inPos ≤ b.inSize := by
  obtain ⟨-, -, hallocated, -⟩ := xzDecLzma2Reset_ok hreset
  have hcalled := called_of_calls hreset hpos hcalls hret
  exact ⟨fun i hi => hcalled.dict.frame i (hallocated.trans hi), hcalled.frame, hcalled.inPos_le⟩

theorem calls_frame_fewBytes :
    ∃ s' b', calls [1, 3, 1] smallDec ⟨(fewBytes.getD · 0), 0, 18, fun _ => 0, 0, 0⟩ =
        (.streamEnd, [0x41, 0x41, 0x41, 0x41, 0x42], s', b') ∧
      (∀ i, smallDec.dict.allocated ≤ i → s'.dict.buf i = smallDec.dict.buf i) ∧
      (∀ i, (∀ room ∈ [1, 3, 1], room ≤ i) → b'.out i = 0) ∧ b'.inPos ≤ 18 := by
  obtain ⟨s', b', hcalls, -⟩ :=
    calls_of_lzma2 reset_smallDec lzma2_fewBytes (List.cons_ne_nil 1 [3, 1]) le_rfl fun _ => 0
  exact ⟨s', b', hcalls, calls_frame reset_smallDec (Nat.zero_le 18) [1, 3, 1] hcalls (.inr rfl)⟩

theorem uncompressed_xzDecLzma2Reset (vmalloc : ℕ → Option (ℕ → Byte)) (s : Lzma2Dec) (props : ℕ) :
    (xzDecLzma2Reset vmalloc s props).2.uncompressed = s.uncompressed := by
  unfold xzDecLzma2Reset
  dsimp only
  split_ifs
  · rfl
  · rfl
  · split <;> rfl
  · rfl

/-- **How much is written.**  A run of calls of a new decoder writes at most `2 ^ 22` bytes for each
byte that it takes from the input, however much room it has. -/
theorem calls_length_le {vmalloc : ℕ → Option (ℕ → Byte)} {s : Lzma2Dec} {dictMax props : ℕ}
    (hreset : xzDecLzma2Reset vmalloc (xzDecLzma2Create dictMax) props = (.ok, s)) {b : XzBuf}
    (hpos : b.inPos ≤ b.inSize) (rooms : List ℕ) {ret : XzRet} {out : List Byte} {s' : Lzma2Dec}
    {b' : XzBuf} (hcalls : calls rooms s b = (ret, out, s', b'))
    (hret : ret = .ok ∨ ret = .streamEnd) :
    out.length ≤ 2 ^ 22 * (b'.inPos - b.inPos) := by
  have hcalled := called_of_calls hreset hpos hcalls hret
  have hnone : s.uncompressed = 0 := by
    have huncompressed := uncompressed_xzDecLzma2Reset vmalloc (xzDecLzma2Create dictMax) props
    rw [hreset] at huncompressed
    exact huncompressed
  have hspent := hcalled.spent
  have hinPos := hcalled.inPos_le
  rw [budget, budget, hcalled.inSize, hnone] at hspent
  omega

theorem calls_length_le_fewBytes :
    ∃ s' b', calls [1, 3, 1] smallDec ⟨(fewBytes.getD · 0), 0, 18, fun _ => 0, 0, 0⟩ =
        (.streamEnd, [0x41, 0x41, 0x41, 0x41, 0x42], s', b') ∧
      ([0x41, 0x41, 0x41, 0x41, 0x42] : List Byte).length ≤ 2 ^ 22 * (b'.inPos - 0) := by
  obtain ⟨s', b', hcalls, -⟩ :=
    calls_of_lzma2 reset_smallDec lzma2_fewBytes (List.cons_ne_nil 1 [3, 1]) le_rfl fun _ => 0
  exact ⟨s', b', hcalls,
    calls_length_le reset_smallDec (Nat.zero_le 18) [1, 3, 1] hcalls (.inr rfl)⟩

end Xz
end CalvinHook
