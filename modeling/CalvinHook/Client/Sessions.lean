import CalvinHook.Client.SendScript

/-!
# Runs of `calvin.py` against the server

A run of `calvin.py` sends one envelope on a connection of its own, `handle_client` serves it, and
the run prints what it reads back.  The engine keeps its state from one run to the next.  How the
bytes are divided into calls of `recv` is left open on both sides, so a sequence of runs is a
relation.  It turns out to be a function of the sources: the division never shows.

What does show is the transport.  The engine loads the source with the zero bytes that the padding
decodes to, and for an empty source it loads the envelope.

The scripts here send no lines of their own and the runs follow one another; lines of
`SocketServer.send` are the subject of `SendScript`.

* `handleClient_request`: what the server does with one request.
* `readReply_response`, `printed_response`: what the client does with one response.
* `session_iff`, `sessions_iff`: one run, and a sequence of runs.
-/

namespace CalvinHook
namespace Client

open Text Base64 Socket

/-! ## One run and many -/

/-- What `send_script` sends for a source. -/
def request (source : List Char) : List Byte := envelope (utf8Encode source) ++ [newline]

variable {σ : Type*} (e : Engine σ) (pyStr : Json → List ℕ)

/-- One run: the state of the engine before and after it, and what is printed.  The server receives
the request in some division and the client receives the responses in some division. -/
def Session (s : σ) (source : List Char) (s' : σ) (text : Option (List ℕ)) : Prop :=
  ∃ (cs : List Chunk) (rs : List Received), sent cs = request source ∧
    received rs = (handleClient e (Handler.start s) cs).served.flatMap Served.response ∧
    s' = (handleClient e (Handler.start s) cs).engine ∧ text = printed pyStr (readReply [] rs)

/-- Runs that follow one another. -/
inductive Sessions : σ → List (List Char) → σ → List (Option (List ℕ)) → Prop
  | nil (s : σ) : Sessions s [] s []
  | cons {s s' s'' : σ} {source : List Char} {text : Option (List ℕ)} {sources : List (List Char)}
      {texts : List (Option (List ℕ))} (run : Session e pyStr s source s' text)
      (runs : Sessions s' sources s'' texts) : Sessions s (source :: sources) s'' (text :: texts)

/-! ## What the runs are for -/

/-- The bytes that are loaded for the bytes of a source. -/
def loaded (bs : List Byte) : List Byte :=
  if bs = [] then envelope bs else bs ++ List.replicate (padding bs) 0

/-- The server runs, the engine is there, and it answers with the text `answer`. -/
structure Answers (answer : σ → List Byte → List Char) : Prop where
  /-- `g_running`. -/
  running : ∀ s, e.running s
  /-- `JSEngine::GetContext()`. -/
  context : ∀ s, e.context s
  /-- The result of a script is a text. -/
  result : ∀ s script, (e.loadScript s script).2 = utf8Encode (answer s script)

/-- The scripts are loaded one after the other, and the answer to each is printed. -/
def evaluate (answer : σ → List Byte → List Char) :
    σ → List (List Char) → σ × List (Option (List ℕ))
  | s, [] => (s, [])
  | s, source :: sources =>
    let script := loaded (utf8Encode source)
    let rest := evaluate answer (e.loadScript s script).1 sources
    (rest.1, some (expectedText (answer s script)) :: rest.2)

/-! ## The server's side -/

/-- An envelope is printable. -/
theorem le_toNat_of_mem_envelope {s : List Byte} {b : Byte} (h : b ∈ envelope s) :
    0x20 ≤ b.toNat := by
  have hhead : (envelopeHead.all fun c => decide (0x20 ≤ c.toNat)) = true := by decide
  have htail : ((ascii "\"\x7d").all fun c => decide (0x20 ≤ c.toNat)) = true := by decide
  rw [envelope, List.mem_append, List.mem_append] at h
  rcases h with (h | h) | h
  · exact of_decide_eq_true (List.all_eq_true.mp hhead b h)
  · exact (isPlain_of_mem_encode h).1
  · exact of_decide_eq_true (List.all_eq_true.mp htail b h)

theorem envelope_ne_nil (s : List Byte) : envelope s ≠ [] := by
  simp [envelope, envelopeHead, ascii]

/-- A request is one line. -/
theorem lines_request (source : List Char) :
    lines newline (request source) = ([envelope (utf8Encode source)], []) := by
  have hnl : newline ∉ envelope (utf8Encode source) := fun h =>
    absurd (le_toNat_of_mem_envelope h) (by decide)
  rw [request, lines_append_sep _ hnl, lines_of_not_mem List.not_mem_nil]

/-- The script of an envelope. -/
theorem scriptOf_envelope_eq_loaded (bs : List Byte) : scriptOf (envelope bs) = loaded bs := by
  rw [scriptOf_envelope, loaded]
  by_cases h : bs = []
  · rw [if_pos ((b64Decode_encode_eq_nil_iff bs).mpr h), if_pos h]
  · rw [if_neg (mt (b64Decode_encode_eq_nil_iff bs).mp h), if_neg h, b64Decode_encode]

variable {e} in
/-- **One request**: its script is loaded, and one response is sent. -/
theorem handleClient_request {answer : σ → List Byte → List Char} (he : Answers e answer) (s : σ)
    {source : List Char} {cs : List Chunk} (hcs : sent cs = request source) :
    (handleClient e (Handler.start s) cs).engine = (e.loadScript s (loaded (utf8Encode source))).1 ∧
      (handleClient e (Handler.start s) cs).served.flatMap Served.response =
        response (utf8Encode (answer s (loaded (utf8Encode source)))) := by
  -- no zero byte is sent, so the division into chunks drops nothing
  have hzero : ∀ l ∈ (lines newline ([] ++ sent cs)).1, 0 ∉ l := by
    intro l hl h0
    rw [List.nil_append, hcs, lines_request, List.mem_singleton] at hl
    exact absurd (le_toNat_of_mem_envelope (hl ▸ h0)) (by decide)
  have hlines : (lines newline ([] ++ kept cs)).1 = [envelope (utf8Encode source)] := by
    rw [lines_kept hzero, List.nil_append, hcs, lines_request]
  have hserve : serve e (Handler.start s) (envelope (utf8Encode source)) =
      ⟨(e.loadScript s (loaded (utf8Encode source))).1, [],
        [⟨envelope (utf8Encode source),
          response (e.loadScript s (loaded (utf8Encode source))).2⟩]⟩ := by
    rw [serve, if_neg (envelope_ne_nil _), if_pos (he.context _), scriptOf_envelope_eq_loaded]
    rfl
  have hrun := handleClient_eq he.running (h := Handler.start s) List.not_mem_nil cs
  rw [show (Handler.start s).line = [] from rfl, hlines, List.foldl_cons, List.foldl_nil, hserve]
    at hrun
  rw [hrun, ← he.result]
  exact ⟨rfl, List.append_nil _⟩

/-! ## The client's side -/

/-- A response is read whole. -/
theorem readReply_response {rs : List Received} {result : List Byte}
    (h : received rs = response result) :
    readReply [] rs = response result := by
  have hmem : newline ∈ received rs := by
    rw [h, response]
    exact List.mem_append_right _ (List.mem_singleton_self _)
  obtain ⟨rs1, r, rs2, rfl, h1, hr⟩ := exists_first_newline hmem
  have happend : received (rs1 ++ r :: rs2) = received (rs1 ++ [r]) ++ received rs2 := by
    simp [received]
  have hall : received (rs1 ++ r :: rs2) = response result ++ [] := h.trans (List.append_nil _).symm
  obtain ⟨extra, hextra⟩ := exists_received_eq_response_append hall hr
  -- nothing was sent behind the response
  rw [happend, hextra, List.append_assoc, List.append_right_inj, List.append_eq_nil_iff] at hall
  rw [readReply_of_first h1 hr, List.nil_append, hextra, hall.1, List.append_nil]

/-- **One response** is printed as the text in it. -/
theorem printed_response (v : List Char) :
    printed pyStr (response (utf8Encode v)) = some (expectedText v) := by
  have hnil : Blank [] := fun c hc => absurd hc List.not_mem_nil
  have hnewline : Blank ['\n'] := List.forall_mem_cons.mpr ⟨rfl, hnil⟩
  have hprint := printed_result_append pyStr [] v (utf8Encode [])
  rw [utf8Decode_utf8Encode, Option.bind_some, printedText_result pyStr hnil hnewline] at hprint
  exact (congrArg (printed pyStr) (List.append_nil _).symm).trans hprint

/-! ## Divisions -/

/-- Every text can be received by the server. -/
theorem exists_sent_eq (bs : List Byte) : ∃ cs, sent cs = bs := by
  refine ⟨bs.map fun b => ⟨[b], Nat.one_pos, Nat.succ_le_of_lt (Nat.succ_pos _)⟩, ?_⟩
  rw [sent, List.flatMap_map]
  exact List.flatMap_singleton' bs

/-- Every text can be received by the client. -/
theorem exists_received_eq (bs : List Byte) : ∃ rs, received rs = bs := by
  refine ⟨bs.map fun b => ⟨[b], Nat.one_pos, Nat.succ_le_of_lt (Nat.succ_pos _)⟩, ?_⟩
  rw [received, List.flatMap_map]
  exact List.flatMap_singleton' bs

/-! ## The runs -/

variable {e}

/-- **One run** loads its source and prints the answer. -/
theorem session_iff {answer : σ → List Byte → List Char} (he : Answers e answer) {s s' : σ}
    {source : List Char} {text : Option (List ℕ)} :
    Session e pyStr s source s' text ↔
      s' = (e.loadScript s (loaded (utf8Encode source))).1 ∧
        text = some (expectedText (answer s (loaded (utf8Encode source)))) := by
  constructor
  · rintro ⟨cs, rs, hcs, hrs, rfl, rfl⟩
    obtain ⟨hengine, hserved⟩ := handleClient_request he s hcs
    rw [hserved] at hrs
    rw [hengine, readReply_response hrs, printed_response]
    exact ⟨rfl, rfl⟩
  · rintro ⟨rfl, rfl⟩
    obtain ⟨cs, hcs⟩ := exists_sent_eq (request source)
    obtain ⟨hengine, hserved⟩ := handleClient_request he s hcs
    obtain ⟨rs, hrs⟩ := exists_received_eq
      (response (utf8Encode (answer s (loaded (utf8Encode source)))))
    refine ⟨cs, rs, hcs, hrs.trans hserved.symm, hengine.symm, ?_⟩
    rw [readReply_response hrs, printed_response]

/-- **A sequence of runs.**  However the bytes of each are divided, the engine loads the sources in
order and each run prints the answer to its own. -/
theorem sessions_iff {answer : σ → List Byte → List Char} (he : Answers e answer) (s s' : σ)
    (sources : List (List Char)) (texts : List (Option (List ℕ))) :
    Sessions e pyStr s sources s' texts ↔ evaluate e answer s sources = (s', texts) := by
  induction sources generalizing s texts with
  | nil =>
    constructor
    · rintro ⟨⟩
      rfl
    · intro h
      obtain ⟨rfl, rfl⟩ := Prod.mk.inj h
      exact .nil s
  | cons source sources ih =>
    constructor
    · rintro (_ | ⟨run, runs⟩)
      obtain ⟨rfl, rfl⟩ := (session_iff pyStr he).mp run
      rw [evaluate, (ih _ _).mp runs]
    · intro h
      obtain ⟨rfl, rfl⟩ := Prod.mk.inj h
      exact .cons ((session_iff pyStr he).mpr ⟨rfl, rfl⟩) ((ih _ _).mpr rfl)

/-! ### An engine that records its scripts -/

/-- An engine whose state is the list of the scripts loaded.  It answers the first with the empty
text and the others with `7`. -/
def recordingEngine : Engine (List (List Byte)) :=
  ⟨fun _ => true, fun _ => true,
    fun scripts script => (scripts ++ [script], utf8Encode (if scripts = [] then [] else ['7']))⟩

theorem recordingEngine_answers :
    Answers recordingEngine fun scripts _ => if scripts = [] then [] else ['7'] :=
  ⟨fun _ => rfl, fun _ => rfl, fun _ _ => rfl⟩

/-- The source `a` is loaded with two zero bytes behind it, the source `abc` as it is. -/
theorem sessions_recordingEngine :
    Sessions recordingEngine (fun _ => []) [] ["a".toList, "abc".toList]
      [[0x61, 0, 0], [0x61, 0x62, 0x63]] [some (Json.codes "(no output)"), some (Json.codes "7")] :=
  (sessions_iff (fun _ => []) recordingEngine_answers _ _ _ _).mpr (by decide)

end Client
end CalvinHook
