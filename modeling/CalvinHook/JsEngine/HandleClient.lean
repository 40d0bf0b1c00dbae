import CalvinHook.JsEngine.SocketMessage

/-!
# Serving one client

`handle_client` receives what a client sends in chunks, appends each to the carried line and serves
every message that a newline ends: it loads the script of the message and sends one response line.
The chunk is appended as a C string, so what follows a zero byte in a chunk is dropped.

* `newline_not_mem_responseBody`: a response is one line.
* `drain_eq`: the inner loop serves the segments of the carried line in order.
* `handleClient_eq`: a whole run serves the segments of the received text, zero bytes aside.
* `framing_iff`: when the messages are the segments of the stream the client sent.
-/

namespace CalvinHook
namespace Socket

open Text

/-- The newline. -/
def newline : Byte := 0x0A

/-! ## Responses -/

/-- The digits of `%x`. -/
def hexDigit (n : ℕ) : Byte :=
  if n < 10 then BitVec.ofNat 8 (0x30 + n) else BitVec.ofNat 8 (0x57 + n)

/-- What `json_escape` writes for a byte. -/
def escapeByte (c : Byte) : List Byte :=
  if c = 0x22 then ascii "\\\""
  else if c = 0x5C then ascii "\\\\"
  else if c = 0x0A then ascii "\\n"
  else if c = 0x0D then ascii "\\r"
  else if c = 0x09 then ascii "\\t"
  else if c.toNat < 0x20 then
    ascii "\\u" ++ [hexDigit 0, hexDigit 0, hexDigit (c.toNat / 16), hexDigit (c.toNat % 16)]
  else [c]

/-- `json_escape`. -/
def jsonEscape (s : List Byte) : List Byte := quote :: s.flatMap escapeByte ++ [quote]

/-- The response without its newline. -/
def responseBody (result : List Byte) : List Byte :=
  ascii "\x7b\"type\":\"result\",\"value\":" ++ jsonEscape result ++ ascii "\x7d"

/-- The response line sent for the result of a script. -/
def response (result : List Byte) : List Byte := responseBody result ++ [newline]

theorem hexDigit_ne_newline {n : ℕ} (h : n < 16) : hexDigit n ≠ newline := by
  interval_cases n <;> decide

theorem newline_not_mem_escapeByte (c : Byte) : newline ∉ escapeByte c := by
  unfold escapeByte
  split_ifs with h1 h2 h3 h4 h5 h6
  · decide
  · decide
  · decide
  · decide
  · decide
  · have h0 := hexDigit_ne_newline (n := 0) (by omega)
    have hhi := hexDigit_ne_newline (n := c.toNat / 16) (by omega)
    have hlo := hexDigit_ne_newline (n := c.toNat % 16) (by omega)
    rw [List.mem_append, not_or]
    refine ⟨by decide, ?_⟩
    simp only [List.mem_cons, List.not_mem_nil, or_false, not_or]
    exact ⟨h0.symm, h0.symm, hhi.symm, hlo.symm⟩
  · rw [List.mem_singleton]
    exact Ne.symm h3

/-- **A response is one line.** -/
theorem newline_not_mem_responseBody (result : List Byte) : newline ∉ responseBody result := by
  have hescape : newline ∉ jsonEscape result := by
    rw [jsonEscape, List.cons_append, List.mem_cons, List.mem_append, List.mem_flatMap]
    rintro (h | ⟨c, -, h⟩ | h)
    · exact absurd h (by decide)
    · exact newline_not_mem_escapeByte c h
    · exact absurd h (by decide)
  rw [responseBody, List.mem_append, List.mem_append]
  rintro ((h | h) | h)
  · exact absurd h (by decide)
  · exact hescape h
  · exact absurd h (by decide)

/-! ## The handler -/

/-- What `handle_client` uses of the server and the engine. -/
structure Engine (σ : Type*) where
  /-- `g_running`. -/
  running : σ → Bool
  /-- `JSEngine::GetContext()` is not null. -/
  context : σ → Bool
  /-- `JSEngine::LoadScript`: the new state and the result. -/
  loadScript : σ → List Byte → σ × List Byte

/-- A message that has been served. -/
structure Served where
  /-- The message, as cut from the line. -/
  msg : List Byte
  /-- What was sent for it. -/
  response : List Byte
  deriving DecidableEq

/-- The locals of `handle_client`, with the state of the engine and the messages served so far. -/
structure Handler (σ : Type*) where
  /-- The engine. -/
  engine : σ
  /-- The bytes received behind the last newline. -/
  line : List Byte
  /-- The messages served, oldest first. -/
  served : List Served

/-- What a successful `recv` leaves in the buffer of 4096 bytes, the last of which is kept for the
terminating zero. -/
structure Chunk where
  /-- The bytes received. -/
  bytes : List Byte
  /-- A call that returns no bytes ends the loop. -/
  pos : 0 < bytes.length
  /-- The size of the buffer less one. -/
  le : bytes.length ≤ 4095

variable {σ : Type*} (e : Engine σ)

/-- The body of the inner loop for one message. -/
def serve (h : Handler σ) (msg : List Byte) : Handler σ :=
  if msg = [] then h
  else if e.context h.engine then
    let r := e.loadScript h.engine (scriptOf msg)
    { h with engine := r.1, served := h.served ++ [⟨msg, Socket.response r.2⟩] }
  else h

@[simp] theorem serve_line (h : Handler σ) (msg : List Byte) : (serve e h msg).line = h.line := by
  unfold serve
  split_ifs <;> rfl

theorem serve_setLine (h : Handler σ) (msg l : List Byte) :
    serve e { h with line := l } msg = { serve e h msg with line := l } := by
  unfold serve
  split_ifs <;> rfl

theorem length_drop_find_lt {s : List Byte} {pos : ℕ} (h : find [newline] s 0 = some pos) :
    (s.drop (pos + 1)).length < s.length := by
  obtain ⟨a, b, rfl, -, rfl⟩ := exists_of_findFrom_singleton h
  simp only [List.length_drop, List.length_append, List.length_cons]
  omega

/-- The inner loop: serve the messages that a newline ends. -/
def drain (h : Handler σ) : Handler σ :=
  match _hpos : find [newline] h.line 0 with
  | none => h
  | some pos => drain (serve e { h with line := h.line.drop (pos + 1) } (h.line.take pos))
termination_by h.line.length
decreasing_by
  rw [serve_line]
  exact length_drop_find_lt _hpos

variable {e} in
theorem drain_of_not_mem {h : Handler σ} (hl : newline ∉ h.line) : drain e h = h := by
  have hnone : find [newline] h.line 0 = none := by
    rw [find, List.drop_zero, findFrom_eq_none, List.singleton_infix_iff]
    exact hl
  rw [drain]
  split
  · rfl
  · rename_i pos hpos
    rw [hnone] at hpos
    cases hpos

variable {e} in
theorem drain_of_append {h : Handler σ} {a b : List Byte} (hl : h.line = a ++ newline :: b)
    (ha : newline ∉ a) : drain e h = drain e (serve e { h with line := b } a) := by
  have hsome : find [newline] h.line 0 = some a.length := by
    rw [find, List.drop_zero, hl, findFrom_singleton _ _ ha, Nat.zero_add]
  rw [drain]
  split
  · rename_i hpos
    rw [hsome] at hpos
    cases hpos
  · rename_i pos hpos
    obtain rfl := Option.some.inj (hsome.symm.trans hpos)
    rw [hl, List.take_left, ← List.drop_drop, List.drop_left]
    rfl

/-- The C string at the start of a buffer. -/
def cString (bs : List Byte) : List Byte := bs.takeWhile (· ≠ 0)

/-- One pass of the outer loop, for a chunk received. -/
def receive (h : Handler σ) (c : Chunk) : Handler σ :=
  drain e { h with line := h.line ++ cString c.bytes }

/-- `handle_client` until the call of `recv` that returns no bytes. -/
def handleClient : Handler σ → List Chunk → Handler σ
  | h, [] => h
  | h, c :: cs => if e.running h.engine then handleClient (receive e h c) cs else h

/-! ## What is served -/

/-- Serving a list of messages leaves the line alone. -/
theorem foldl_serve_setLine (h : Handler σ) (msgs : List (List Byte)) (l : List Byte) :
    msgs.foldl (serve e) { h with line := l } = { msgs.foldl (serve e) h with line := l } := by
  induction msgs generalizing h with
  | nil => rfl
  | cons msg msgs ih => rw [List.foldl_cons, List.foldl_cons, serve_setLine, ih]

/-- **The inner loop** serves the segments of the carried line and keeps the rest. -/
theorem drain_eq (h : Handler σ) :
    drain e h =
      { (lines newline h.line).1.foldl (serve e) h with line := (lines newline h.line).2 } := by
  induction hl : h.line using lines_induction newline generalizing h with
  | rest s hs =>
    rw [drain_of_not_mem (hl ▸ hs), lines_of_not_mem hs, ← hl]
    rfl
  | segment a b ha ih =>
    rw [drain_of_append hl ha, ih _ (serve_line e _ _), lines_append_sep _ ha, List.foldl_cons,
      serve_setLine, foldl_serve_setLine]

/-- The bytes that reach the line. -/
def kept (cs : List Chunk) : List Byte := cs.flatMap fun c => cString c.bytes

/-- The bytes the client sent. -/
def sent (cs : List Chunk) : List Byte := cs.flatMap Chunk.bytes

variable {e} in
/-- **A whole run** serves the segments of the bytes that reach the line, however they are
divided. -/
theorem handleClient_eq (hrun : ∀ s, e.running s) {h : Handler σ} (hl : newline ∉ h.line)
    (cs : List Chunk) :
    handleClient e h cs =
      { (lines newline (h.line ++ kept cs)).1.foldl (serve e) h with
        line := (lines newline (h.line ++ kept cs)).2 } := by
  induction cs generalizing h with
  | nil =>
    rw [kept, List.flatMap_nil, List.append_nil, lines_of_not_mem hl]
    rfl
  | cons c cs ih =>
    have hkept : h.line ++ kept (c :: cs) = h.line ++ cString c.bytes ++ kept cs := by
      rw [kept, List.flatMap_cons, ← List.append_assoc]
      rfl
    rw [handleClient, if_pos (hrun _), receive, drain_eq, foldl_serve_setLine,
      ih (sep_not_mem_rest _), hkept, lines_append (h.line ++ cString c.bytes), List.foldl_append]
    simp only [foldl_serve_setLine]

variable {e} in
/-- With an engine, every message that is not empty is served. -/
theorem foldl_serve_msgs (hctx : ∀ s, e.context s) (h : Handler σ) (msgs : List (List Byte)) :
    (msgs.foldl (serve e) h).served.map Served.msg =
      h.served.map Served.msg ++ msgs.filter (· ≠ []) := by
  induction msgs generalizing h with
  | nil => exact (List.append_nil _).symm
  | cons msg msgs ih =>
    rw [List.foldl_cons, ih]
    by_cases hm : msg = []
    · simp [serve, hm]
    · simp [serve, hm, hctx]

/-- What is sent for a message is the response to some result. -/
theorem foldl_serve_response (h : Handler σ) (msgs : List (List Byte))
    (hh : ∀ m ∈ h.served, ∃ result, m.response = response result) :
    ∀ m ∈ (msgs.foldl (serve e) h).served, ∃ result, m.response = response result := by
  induction msgs generalizing h with
  | nil => exact hh
  | cons msg msgs ih =>
    refine ih (serve e h msg) ?_
    unfold serve
    split_ifs
    · exact hh
    · intro m hm
      rw [List.mem_append, List.mem_singleton] at hm
      rcases hm with hm | rfl
      · exact hh m hm
      · exact ⟨_, rfl⟩
    · exact hh

/-! ## Zero bytes -/

theorem zero_not_mem_kept (cs : List Chunk) : 0 ∉ kept cs := by
  rw [kept, List.mem_flatMap]
  rintro ⟨c, -, h⟩
  simpa using List.mem_takeWhile_imp h

theorem mem_sent_of_mem_kept {x : Byte} {cs : List Chunk} (h : x ∈ kept cs) : x ∈ sent cs := by
  rw [kept, List.mem_flatMap] at h
  obtain ⟨c, hc, hx⟩ := h
  rw [sent, List.mem_flatMap]
  exact ⟨c, hc, (List.takeWhile_subset _) hx⟩

/-- A chunk is a C string, or a zero byte follows the C string at its start. -/
theorem cString_cases (bs : List Byte) : cString bs = bs ∨ ∃ t, bs = cString bs ++ 0 :: t := by
  have hkeep : ∀ a : List Byte, 0 ∉ a → ∀ x ∈ a, decide (x ≠ 0) = true := by
    intro a ha x hx
    rw [decide_eq_true_eq]
    rintro rfl
    exact ha hx
  by_cases h0 : 0 ∈ bs
  · obtain ⟨a, t, rfl, ha⟩ := List.eq_append_cons_of_mem h0
    refine .inr ⟨t, ?_⟩
    rw [cString, List.takeWhile_append_of_pos (hkeep a ha), List.takeWhile_cons_of_neg (by decide),
      List.append_nil]
  · exact .inl (List.takeWhile_eq_self_iff.mpr (hkeep bs h0))

/-- Zero bytes behind the last newline change no segment. -/
theorem lines_kept {cs : List Chunk} {a : List Byte}
    (h : ∀ l ∈ (lines newline (a ++ sent cs)).1, 0 ∉ l) :
    (lines newline (a ++ kept cs)).1 = (lines newline (a ++ sent cs)).1 := by
  induction cs generalizing a with
  | nil => rfl
  | cons c cs ih =>
    have hsent : sent (c :: cs) = c.bytes ++ sent cs := List.flatMap_cons ..
    have hkept : kept (c :: cs) = cString c.bytes ++ kept cs := List.flatMap_cons ..
    rw [hsent] at h ⊢
    rw [hkept]
    rcases cString_cases c.bytes with hc | ⟨t, ht⟩
    · rw [← List.append_assoc] at h ⊢
      rw [hc, ← List.append_assoc, ih h]
    · -- no newline follows the zero byte, neither in the bytes sent nor in those kept
      have hcut : a ++ (c.bytes ++ sent cs) = a ++ cString c.bytes ++ 0 :: (t ++ sent cs) := by
        conv_lhs => rw [ht]
        simp only [List.append_assoc, List.cons_append]
      rw [hcut] at h ⊢
      have hnl : newline ∉ t ++ sent cs := sep_not_mem_of_not_mem_lines (by decide) h
      rw [List.mem_append, not_or] at hnl
      have hkeptnl : newline ∉ kept cs := fun hk => hnl.2 (mem_sent_of_mem_kept hk)
      have hzero : newline ∉ (0 : Byte) :: (t ++ sent cs) := by
        rw [List.mem_cons, List.mem_append, not_or, not_or]
        exact ⟨by decide, hnl⟩
      rw [← List.append_assoc, lines_append_of_not_mem _ hkeptnl, lines_append_of_not_mem _ hzero]

/-! ## Framing -/

/-- A handler that has received nothing. -/
def Handler.start (s : σ) : Handler σ := ⟨s, [], []⟩

/-- The messages served are the segments of the text that are not empty, and what is sent for them
is one line for each. -/
structure Framed (text : List Byte) (served : List Served) : Prop where
  /-- The messages. -/
  msgs : served.map Served.msg = (lines newline text).1.filter (· ≠ [])
  /-- The response lines. -/
  responses : ∃ ls, lines newline (served.flatMap Served.response) = (ls, []) ∧
    ls.length = ((lines newline text).1.filter (· ≠ [])).length

/-- What is sent is as many lines as there are messages served. -/
theorem lines_responses {served : List Served}
    (h : ∀ m ∈ served, ∃ result, m.response = response result) :
    ∃ ls, lines newline (served.flatMap Served.response) = (ls, []) ∧
      ls.length = served.length := by
  induction served with
  | nil => exact ⟨[], rfl, rfl⟩
  | cons m served ih =>
    rw [List.forall_mem_cons] at h
    obtain ⟨result, hm⟩ := h.1
    obtain ⟨ls, hls, hlen⟩ := ih h.2
    refine ⟨responseBody result :: ls, ?_, congrArg Nat.succ hlen⟩
    rw [List.flatMap_cons, hm, response, List.append_assoc, List.singleton_append,
      lines_append_sep _ (newline_not_mem_responseBody result), hls]

variable {e} in
/-- The messages of a run are the segments of the bytes kept. -/
theorem handleClient_msgs (hctx : ∀ s, e.context s) (hrun : ∀ s, e.running s) (s : σ)
    (cs : List Chunk) :
    (handleClient e (Handler.start s) cs).served.map Served.msg =
      (lines newline (kept cs)).1.filter (· ≠ []) := by
  rw [handleClient_eq hrun (List.not_mem_nil)]
  exact foldl_serve_msgs hctx (Handler.start s) _

variable {e} in
/-- **When framing does not depend on the chunks.**  With an engine and a running server, the
messages served are the segments of the stream exactly if no zero byte stands before its last
newline. -/
theorem framing_iff (hctx : ∀ s, e.context s) (hrun : ∀ s, e.running s) (s : σ) (cs : List Chunk) :
    Framed (sent cs) (handleClient e (Handler.start s) cs).served ↔
      ∀ l ∈ (lines newline (sent cs)).1, 0 ∉ l := by
  constructor
  · rintro ⟨hmsgs, -⟩ l hl h0
    -- a segment with a zero byte would have been served, from bytes without one
    have hmem : l ∈ (lines newline (sent cs)).1.filter (· ≠ []) := by
      rw [List.mem_filter, decide_eq_true_eq]
      exact ⟨hl, List.ne_nil_of_mem h0⟩
    rw [← hmsgs, handleClient_msgs hctx hrun] at hmem
    exact zero_not_mem_kept cs (mem_of_mem_lines (List.mem_of_mem_filter hmem) h0)
  · intro h
    have hmsgs := handleClient_msgs hctx hrun s cs
    have hkept : (lines newline (kept cs)).1 = (lines newline (sent cs)).1 := lines_kept (a := []) h
    rw [hkept] at hmsgs
    refine ⟨hmsgs, ?_⟩
    have hresp : ∀ m ∈ (handleClient e (Handler.start s) cs).served,
        ∃ result, m.response = response result := by
      rw [handleClient_eq hrun (List.not_mem_nil)]
      exact foldl_serve_response e (Handler.start s) _ (fun m hm => absurd hm List.not_mem_nil)
    obtain ⟨ls, hls, hlen⟩ := lines_responses hresp
    refine ⟨ls, hls, ?_⟩
    rw [hlen, ← hmsgs, List.length_map]

/-! ### A stream with a zero byte -/

/-- An engine that is always there and answers every script with the empty text. -/
def silentEngine : Engine Unit := ⟨fun _ => true, fun _ => true, fun s _ => (s, [])⟩

/-- The line `a`, sent in two chunks. -/
def splitLine : List Chunk := [⟨[0x61], by decide, by decide⟩, ⟨[newline], by decide, by decide⟩]

/-- The line `a`, a zero byte, `b`, sent in one chunk. -/
def zeroLine : List Chunk := [⟨[0x61, 0, 0x62, newline], by decide, by decide⟩]

theorem splitLine_framed : Framed (sent splitLine)
    (handleClient silentEngine (Handler.start ()) splitLine).served :=
  (framing_iff (fun _ => rfl) (fun _ => rfl) () splitLine).mpr (by decide)

theorem zeroLine_not_framed : ¬ Framed (sent zeroLine)
    (handleClient silentEngine (Handler.start ()) zeroLine).served := by
  rintro ⟨hmsgs, -⟩
  rw [handleClient_msgs (fun _ => rfl) (fun _ => rfl)] at hmsgs
  exact absurd hmsgs (by decide)

end Socket
end CalvinHook
