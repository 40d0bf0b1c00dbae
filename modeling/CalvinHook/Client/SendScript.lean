import Mathlib.Data.List.DropRight
import CalvinHook.JsEngine.ResponseLine

/-!
# What `calvin.py` prints

`send_script` reads until a newline has arrived, takes everything read so far as one JSON text and
prints its `value` field.  The server sends the lines of `SocketServer.send` on the same connection,
so what is read may begin with such a line, and may contain more than the result line.

* `jsonEscape_utf8Encode`, `scanString_escapeChars`: the escapes of the server are read back.
* `printedText_result`: the result line alone, with blanks around it, is printed as its value.
* `printedText_extra`: with anything else behind it, the whole text is printed instead.
* `prints_result_iff`: when the client prints the result of its script.
-/

namespace CalvinHook
namespace Client

open Text Socket

/-! ## The client -/

/-- What a call of `sock.recv(RECV_SIZE)` returns before the connection is closed. -/
structure Received where
  /-- The bytes. -/
  bytes : List Byte
  /-- No bytes mean the end of the connection. -/
  pos : 0 < bytes.length
  /-- `RECV_SIZE`. -/
  le : bytes.length ≤ 4096

/-- The loop that reads until the data contains a newline. -/
def readReply : List Byte → List Received → List Byte
  | data, [] => data
  | data, c :: cs =>
    if newline ∈ data ++ c.bytes then data ++ c.bytes else readReply (data ++ c.bytes) cs

/-- `str.isspace` for one character. -/
def isSpace (c : Char) : Bool :=
  (0x09 ≤ c.toNat && c.toNat ≤ 0x0D) || (0x1C ≤ c.toNat && c.toNat ≤ 0x20) || c.toNat = 0x85 ||
    c.toNat = 0xA0 || c.toNat = 0x1680 || (0x2000 ≤ c.toNat && c.toNat ≤ 0x200A) ||
    c.toNat = 0x2028 ||
    c.toNat = 0x2029 || c.toNat = 0x202F || c.toNat = 0x205F || c.toNat = 0x3000

/-- `str.strip`. -/
def strip (cs : List Char) : List Char := (cs.dropWhile isSpace).rdropWhile isSpace

/-- The text printed for a decoded reply, or none when an exception ends the program.  `pyStr` is
`print(value if value else "(no output)")` for values that are not strings. -/
def printedText (pyStr : Json → List ℕ) (cs : List Char) : Option (List ℕ) :=
  match Json.loads (strip cs) with
  | none => some ((strip cs).map Char.toNat)
  | some (.obj members) =>
    match Json.get? members (Json.codes "value") with
    | none => some (Json.codes "(no output)")
    | some (.str v) => some (if v = [] then Json.codes "(no output)" else v)
    | some j => some (pyStr j)
  | some _ => none

/-- What `send_script` prints for the data it has read. -/
def printed (pyStr : Json → List ℕ) (data : List Byte) : Option (List ℕ) :=
  if data = [] then some (Json.codes "(no response)")
  else (utf8Decode data).bind (printedText pyStr)

/-! ## What the server sends -/

/-- A line of `broadcast_to_clients`. -/
def broadcastLine (json : List Byte) : List Byte := cString json ++ [newline]

/-- The bytes sent to a client that has sent one script: its result line, with broadcasts around
it. -/
def replyStream (before : List (List Byte)) (result : List Byte) (after : List (List Byte)) :
    List Byte :=
  before.flatMap broadcastLine ++ response result ++ after.flatMap broadcastLine

/-! ## Escapes -/

/-- What `json_escape` writes for a character. -/
def escapeChar (c : Char) : List Char :=
  if c.toNat < 128 then (escapeByte (BitVec.ofNat 8 c.toNat)).map byteChar else [c]

theorem hexDigit_toNat_lt {n : ℕ} (h : n < 16) : (hexDigit n).toNat < 128 := by
  interval_cases n <;> decide

theorem toNat_lt_of_mem_escapeByte {b x : Byte} (hb : b.toNat < 128) (hx : x ∈ escapeByte b) :
    x.toNat < 128 := by
  rcases escapeByte_cases b with ⟨e, he, -, heq, -⟩ | ⟨hctl, heq⟩ | ⟨-, -, -, heq⟩
  · rw [heq] at hx
    simp only [List.mem_cons, List.not_mem_nil, or_false] at hx
    rcases hx with rfl | rfl
    · decide
    · exact he
  · rw [heq] at hx
    simp only [List.mem_cons, List.not_mem_nil, or_false] at hx
    rcases hx with rfl | rfl | rfl | rfl | rfl | rfl
    · decide
    · decide
    · decide
    · decide
    · exact hexDigit_toNat_lt (by omega)
    · exact hexDigit_toNat_lt (by omega)
  · rw [heq, List.mem_singleton] at hx
    rwa [hx]

theorem escapeByte_high {b : Byte} (hb : 128 ≤ b.toNat) : escapeByte b = [b] := by
  rcases escapeByte_cases b with ⟨-, -, hlt, -⟩ | ⟨hlt, -⟩ | ⟨-, -, -, heq⟩
  · omega
  · omega
  · exact heq

/-- Escaping the bytes of a character gives the bytes of its escape. -/
theorem flatMap_escapeByte_char (c : Char) :
    (utf8Encode [c]).flatMap escapeByte = utf8Encode (escapeChar c) := by
  by_cases hc : c.toNat < 128
  · have hb : (BitVec.ofNat 8 c.toNat).toNat < 128 := by
      rw [BitVec.toNat_ofNat]
      omega
    rw [utf8Encode_ascii hc, List.flatMap_singleton, escapeChar, if_pos hc,
      utf8Encode_map_byteChar fun x hx => toNat_lt_of_mem_escapeByte hb hx]
  · have hall : ∀ x ∈ utf8Encode [c], escapeByte x = [x] := fun x hx =>
      escapeByte_high (utf8Encode_high (Nat.not_lt.mp hc) hx)
    rw [List.flatMap_congr hall, List.flatMap_singleton', escapeChar, if_neg hc]

/-- **The escaped text** is the encoding of the escaped characters. -/
theorem jsonEscape_utf8Encode (v : List Char) :
    jsonEscape (utf8Encode v) = utf8Encode ('"' :: (v.flatMap escapeChar ++ ['"'])) := by
  have hbody : (utf8Encode v).flatMap escapeByte = utf8Encode (v.flatMap escapeChar) := by
    induction v with
    | nil => rfl
    | cons c v ih =>
      rw [utf8Encode_cons, List.flatMap_append, ih, flatMap_escapeByte_char, List.flatMap_cons,
        utf8Encode_append]
  rw [jsonEscape, hbody, utf8Encode_cons, utf8Encode_append]
  rfl

/-- The escape of a character is read as the character. -/
theorem scanString_escapeChar (c : Char) (s : List Char) :
    Json.scanString (escapeChar c ++ s) = (Json.scanString s).map (Json.push c.toNat) := by
  by_cases hc : c.toNat < 128
  · have hread := scanString_escapeByte (BitVec.ofNat 8 c.toNat) s
    rw [BitVec.toNat_ofNat, Nat.mod_eq_of_lt (by omega)] at hread
    rw [escapeChar, if_pos hc, hread]
  · have hne : ∀ d : Char, d.toNat < 128 → c ≠ d := by
      rintro d hd rfl
      exact hc hd
    rw [escapeChar, if_neg hc]
    exact Json.scanString_plain s (hne '"' (by decide)) (hne '\\' (by decide)) (by omega)

/-- **The escapes are read back.** -/
theorem scanString_escapeChars (v r : List Char) :
    Json.scanString (v.flatMap escapeChar ++ '"' :: r) = some (v.map Char.toNat, r) := by
  induction v with
  | nil => exact Json.scanString_quote r
  | cons c v ih =>
    rw [List.flatMap_cons, List.append_assoc, scanString_escapeChar, ih]
    rfl

/-! ## The result line -/

/-- The characters of a result line without its newline. -/
def resultChars (v : List Char) : List Char :=
  '\x7b' :: '"' :: ("type".toList ++ '"' :: ':' :: ([] ++ '"' :: ("result".toList ++ '"' :: ',' ::
    ([] ++ '"' :: ("value".toList ++ '"' :: ':' :: ([] ++ '"' :: (v.flatMap escapeChar ++ '"' ::
      ['\x7d'])))))))

theorem response_utf8Encode (v : List Char) :
    response (utf8Encode v) = utf8Encode (resultChars v ++ ['\n']) := by
  have hhead : ascii "\x7b\"type\":\"result\",\"value\":" =
      utf8Encode "\x7b\"type\":\"result\",\"value\":".toList := by decide
  have htail : ascii "\x7d" ++ [newline] = utf8Encode ['\x7d', '\n'] := by decide
  have hchars : resultChars v ++ ['\n'] = "\x7b\"type\":\"result\",\"value\":".toList ++
      (('"' :: (v.flatMap escapeChar ++ ['"'])) ++ ['\x7d', '\n']) := by
    simp [resultChars]
  rw [hchars, utf8Encode_append, utf8Encode_append, ← hhead, ← htail,
    ← jsonEscape_utf8Encode, response, responseBody]
  simp only [List.append_assoc]

/-- The value of a result line. -/
def resultMembers (v : List Char) : List (List ℕ × Json) :=
  [(Json.codes "type", .str (Json.codes "result")), (Json.codes "value", .str (v.map Char.toNat))]

/-- A result line is read, unless something other than whitespace follows. -/
theorem loads_resultChars (v r : List Char) :
    Json.loads (resultChars v ++ r) =
      if Json.skipWs r = [] then some (.obj (resultMembers v)) else none := by
  have hchars : resultChars v ++ r = '\x7b' :: '"' :: ("type".toList ++ '"' :: ':' :: ([] ++ '"' ::
      ("result".toList ++ '"' :: ',' :: ([] ++ '"' :: ("value".toList ++ '"' :: ':' :: ([] ++ '"' ::
        (v.flatMap escapeChar ++ '"' :: '\x7d' :: r))))))) := by
    simp only [resultChars, List.cons_append, List.append_assoc, List.nil_append]
  obtain ⟨n, hn⟩ : ∃ n, (resultChars v ++ r).length + 1 = n + 4 := by
    have hlen : 3 ≤ (resultChars v ++ r).length := by
      rw [hchars]
      simp only [List.length_cons, List.length_append]
      omega
    exact ⟨(resultChars v ++ r).length - 3, by omega⟩
  have hparse := Json.parseValue_two_strings n [] "type".toList "result".toList "value".toList
    (List.all_eq_true.mp (by decide)) (Json.isPlain_of_all (by decide))
    (Json.isPlain_of_all (by decide)) (Json.isPlain_of_all (by decide))
      (scanString_escapeChars v ('\x7d' :: r))
  rw [← hchars, ← hn, Json.joinSurrogates_toNat] at hparse
  exact Json.loads_of_parseValue (fun h => absurd (Option.some.inj h) (by decide)) hparse

/-! ## Blanks -/

/-- A text of blanks. -/
def Blank (w : List Char) : Prop := ∀ c ∈ w, isSpace c = true

theorem isSpace_of_isWs {c : Char} (h : Json.isWs c = true) : isSpace c = true := by
  simp only [Json.isWs, Bool.or_eq_true, decide_eq_true_eq] at h
  rcases h with ((rfl | rfl) | rfl) | rfl <;> rfl

/-- Only blanks are stripped behind a text that ends in no blank. -/
theorem rdropWhile_append_blank {x w : List Char} {d : Char} (hd : isSpace d = false)
    (hw : Blank w) :
    (x ++ [d] ++ w).rdropWhile isSpace = x ++ [d] := by
  have hrev : ∀ c ∈ w.reverse, isSpace c = true := fun c hc => hw c (List.mem_reverse.mp hc)
  rw [List.rdropWhile, List.reverse_append, List.dropWhile_append_of_pos hrev, List.reverse_append,
    List.reverse_singleton, List.singleton_append, List.dropWhile_cons_of_neg (by rw [hd]; decide),
    List.reverse_cons, List.reverse_reverse]

/-- Behind a text that is not blank, nothing before it is stripped. -/
theorem rdropWhile_append_of_not_blank (x : List Char) {w : List Char} (hw : ¬ Blank w) :
    (x ++ w).rdropWhile isSpace = x ++ w.rdropWhile isSpace := by
  have hne : (w.reverse.dropWhile isSpace).isEmpty = false := by
    rw [List.isEmpty_eq_false_iff, ne_eq, List.dropWhile_eq_nil_iff]
    exact fun h => hw fun c hc => h c (List.mem_reverse.mpr hc)
  rw [List.rdropWhile, List.reverse_append, List.dropWhile_append, hne, List.rdropWhile]
  simp

/-- What is left of a text that is not blank still is not blank. -/
theorem not_blank_rdropWhile {w : List Char} (hw : ¬ Blank w) : ¬ Blank (w.rdropWhile isSpace) := by
  intro h
  have hne : w.rdropWhile isSpace ≠ [] := by
    rw [ne_eq, List.rdropWhile_eq_nil_iff]
    exact hw
  exact List.rdropWhile_last_not isSpace w hne (h _ (List.getLast_mem hne))

theorem skipWs_ne_nil {w : List Char} (hw : ¬ Blank w) : Json.skipWs w ≠ [] := by
  rw [Json.skipWs, ne_eq, List.dropWhile_eq_nil_iff]
  exact fun h => hw fun c hc => isSpace_of_isWs (h c hc)

/-- A result line begins and ends with a brace. -/
theorem exists_resultChars_eq (v : List Char) : ∃ m, resultChars v = '\x7b' :: (m ++ ['\x7d']) := by
  refine ⟨'"' :: ("type".toList ++ '"' :: ':' :: ([] ++ '"' :: ("result".toList ++ '"' :: ',' ::
    ([] ++ '"' :: ("value".toList ++ '"' :: ':' ::
      ([] ++ '"' :: (v.flatMap escapeChar ++ ['"']))))))), ?_⟩
  simp only [resultChars, List.cons_append, List.append_assoc, List.nil_append]

theorem dropWhile_resultChars {w1 : List Char} (hw : Blank w1) (v w2 : List Char) :
    (w1 ++ resultChars v ++ w2).dropWhile isSpace = resultChars v ++ w2 := by
  obtain ⟨m, hm⟩ := exists_resultChars_eq v
  rw [List.append_assoc, List.dropWhile_append_of_pos hw, hm, List.cons_append,
    List.dropWhile_cons_of_neg (by decide)]

/-! ## What is printed -/

/-- What the client has to print for a result. -/
def expectedText (v : List Char) : List ℕ :=
  if v = [] then Json.codes "(no output)" else v.map Char.toNat

/-- **The result line alone**, with blanks around it, is printed as its value. -/
theorem printedText_result (pyStr : Json → List ℕ) {w1 w2 : List Char} (h1 : Blank w1)
    (h2 : Blank w2) (v : List Char) :
    printedText pyStr (w1 ++ resultChars v ++ w2) = some (expectedText v) := by
  obtain ⟨m, hm⟩ := exists_resultChars_eq v
  have hstrip : strip (w1 ++ resultChars v ++ w2) = resultChars v ++ [] := by
    rw [strip, dropWhile_resultChars h1, hm, List.append_nil]
    exact rdropWhile_append_blank (x := '\x7b' :: m) rfl h2
  have hloads := (loads_resultChars v []).trans (if_pos rfl)
  have hget : Json.get? (resultMembers v) (Json.codes "value") = some (.str (v.map Char.toNat)) :=
    rfl
  rw [printedText, hstrip, hloads]
  simp only [hget, expectedText, List.map_eq_nil_iff]

/-- **Anything else behind the result line**, and the whole text is printed. -/
theorem printedText_extra (pyStr : Json → List ℕ) {w : List Char} (hw : ¬ Blank w) (v : List Char) :
    printedText pyStr (resultChars v ++ w) =
      some ((resultChars v ++ w.rdropWhile isSpace).map Char.toNat) := by
  have hstrip : strip (resultChars v ++ w) = resultChars v ++ w.rdropWhile isSpace := by
    have hblank : Blank [] := fun c hc => absurd hc List.not_mem_nil
    have hdrop := dropWhile_resultChars hblank v w
    rw [List.nil_append] at hdrop
    rw [strip, hdrop, rdropWhile_append_of_not_blank _ hw]
  have hloads := loads_resultChars v (w.rdropWhile isSpace)
  rw [if_neg (skipWs_ne_nil (not_blank_rdropWhile hw))] at hloads
  rw [printedText, hstrip, hloads]

theorem escapeChar_ne_nil (c : Char) : escapeChar c ≠ [] := by
  unfold escapeChar
  split_ifs
  · rcases escapeByte_cases (BitVec.ofNat 8 c.toNat) with
      ⟨e, -, -, heq, -⟩ | ⟨-, heq⟩ | ⟨-, -, -, heq⟩ <;>
      simp [heq]
  · simp

theorem length_le_escapeChars (v : List Char) : v.length ≤ (v.flatMap escapeChar).length := by
  induction v with
  | nil => exact le_rfl
  | cons c v ih =>
    have hpos := List.length_pos_iff.mpr (escapeChar_ne_nil c)
    rw [List.flatMap_cons, List.length_append, List.length_cons]
    omega

/-- A result line is longer than the value in it and than the text for no value. -/
theorem length_expectedText_lt (v r : List Char) :
    (expectedText v).length < ((resultChars v ++ r).map Char.toNat).length := by
  have hline : (resultChars v).length = 28 + (v.flatMap escapeChar).length := by
    simp only [resultChars, List.length_cons, List.length_append, List.length_nil]
    have htype : "type".toList.length = 4 := rfl
    have hresult : "result".toList.length = 6 := rfl
    have hvalue : "value".toList.length = 5 := rfl
    omega
  have hle := length_le_escapeChars v
  have hnone : (Json.codes "(no output)").length = 11 := rfl
  rw [List.length_map, List.length_append, hline, expectedText]
  split_ifs
  · omega
  · rw [List.length_map]
    omega

/-! ## What is read -/

/-- The bytes received. -/
def received (cs : List Received) : List Byte := cs.flatMap Received.bytes

/-- The client stops in the call that brings the first newline. -/
theorem readReply_of_first {data : List Byte} {cs1 cs2 : List Received} {c : Received}
    (h1 : newline ∉ data ++ received cs1) (hc : newline ∈ c.bytes) :
    readReply data (cs1 ++ c :: cs2) = data ++ received (cs1 ++ [c]) := by
  induction cs1 generalizing data with
  | nil =>
    have hmem : newline ∈ data ++ c.bytes := List.mem_append_right _ hc
    rw [List.nil_append, readReply, if_pos hmem]
    simp [received]
  | cons d cs1 ih =>
    have hcons : data ++ received (d :: cs1) = data ++ d.bytes ++ received cs1 := by
      rw [List.append_assoc]
      rfl
    rw [hcons] at h1
    have hnot : newline ∉ data ++ d.bytes := fun h => h1 (List.mem_append_left _ h)
    rw [List.cons_append, readReply, if_neg hnot, ih h1, List.append_assoc]
    rfl

/-- The calls up to the one that brings the first newline. -/
theorem exists_first_newline {cs : List Received} (h : newline ∈ received cs) :
    ∃ cs1 c cs2, cs = cs1 ++ c :: cs2 ∧ newline ∉ received cs1 ∧ newline ∈ c.bytes := by
  induction cs with
  | nil => exact absurd h List.not_mem_nil
  | cons d cs ih =>
    by_cases hd : newline ∈ d.bytes
    · exact ⟨[], d, cs, rfl, List.not_mem_nil, hd⟩
    · have hcs : newline ∈ received cs := by
        rw [received, List.flatMap_cons, List.mem_append] at h
        exact h.resolve_left hd
      obtain ⟨cs1, c, cs2, rfl, h1, hc⟩ := ih hcs
      refine ⟨d :: cs1, c, cs2, rfl, ?_, hc⟩
      rw [received, List.flatMap_cons, List.mem_append, not_or]
      exact ⟨hd, h1⟩

/-! ## The client prints its own result -/

/-- What is printed is the value field of the result line, or the text for no output when it is
empty. -/
def PrintsResult (pyStr : Json → List ℕ) (cs : List Received) (result : List Byte) : Prop :=
  ∃ v, result = utf8Encode v ∧ printed pyStr (readReply [] cs) = some (expectedText v)

/-- The calls of `recv` up to the one that brings the first newline bring the result line and
nothing but blanks besides. -/
def OnlyResultRead (cs : List Received) (result : List Byte) : Prop :=
  ∃ cs1 c cs2 v w1 w2, cs = cs1 ++ c :: cs2 ∧ newline ∉ received cs1 ∧ newline ∈ c.bytes ∧
    result = utf8Encode v ∧ Blank w1 ∧ Blank w2 ∧
    received (cs1 ++ [c]) = utf8Encode w1 ++ response result ++ utf8Encode w2

/-- What is printed for data that begins with blanks and a result line. -/
theorem printed_result_append (pyStr : Json → List ℕ) (w v : List Char) (bs : List Byte) :
    printed pyStr (utf8Encode w ++ response (utf8Encode v) ++ bs) =
      (utf8Decode bs).bind fun x => printedText pyStr (w ++ resultChars v ++ '\n' :: x) := by
  have hne : utf8Encode w ++ response (utf8Encode v) ++ bs ≠ [] := by
    simp [response]
  rw [printed, if_neg hne, response_utf8Encode, ← utf8Encode_append, utf8Decode_utf8Encode_append,
    Option.bind_map]
  congr 1
  funext x
  simp only [Function.comp_apply, List.append_assoc, List.singleton_append]

theorem printsResult_of_onlyResultRead (pyStr : Json → List ℕ) {cs : List Received}
    {result : List Byte} (h : OnlyResultRead cs result) : PrintsResult pyStr cs result := by
  obtain ⟨cs1, c, cs2, v, w1, w2, rfl, h1, hc, rfl, hw1, hw2, hread⟩ := h
  have hblank : Blank ('\n' :: w2) := List.forall_mem_cons.mpr ⟨rfl, hw2⟩
  refine ⟨v, rfl, ?_⟩
  rw [readReply_of_first h1 hc, List.nil_append, hread, printed_result_append,
    utf8Decode_utf8Encode, Option.bind_some, printedText_result pyStr hw1 hblank]

/-- When the result line comes first, the call that brings the first newline completes it. -/
theorem exists_received_eq_response_append {cs1 cs2 : List Received} {c : Received}
    {result bs : List Byte} (hcs : received (cs1 ++ c :: cs2) = response result ++ bs)
    (hc : newline ∈ c.bytes) :
    ∃ extra, received (cs1 ++ [c]) = response result ++ extra := by
  have hread : received (cs1 ++ [c]) <+: response result ++ bs := by
    rw [← hcs]
    exact ⟨received cs2, by simp [received]⟩
  have hmem : newline ∈ received (cs1 ++ [c]) := by
    simp only [received, List.flatMap_append, List.flatMap_singleton, List.mem_append]
    exact .inr hc
  rcases List.prefix_or_prefix_of_prefix hread (List.prefix_append (response result) bs) with h | h
  · rcases List.prefix_concat_iff.mp h with h | h
    · exact ⟨[], by rw [h, List.append_nil]; rfl⟩
    · exact absurd (h.subset hmem) (newline_not_mem_responseBody result)
  · obtain ⟨extra, hextra⟩ := h
    exact ⟨extra, hextra.symm⟩

/-- When the result line comes first and its value is printed, nothing but the result line was
read: whatever stands behind it would be printed with it. -/
theorem onlyResultRead_of_printsResult (pyStr : Json → List ℕ) {after : List (List Byte)}
    {result : List Byte} {cs : List Received} (hcs : received cs = replyStream [] result after)
    (h : PrintsResult pyStr cs result) : OnlyResultRead cs result := by
  obtain ⟨v, rfl, hprint⟩ := h
  have hmem : newline ∈ received cs := by
    rw [hcs, replyStream, response]
    simp
  obtain ⟨cs1, c, cs2, rfl, h1, hc⟩ := exists_first_newline hmem
  rw [replyStream, List.flatMap_nil, List.nil_append] at hcs
  obtain ⟨extra, hread⟩ := exists_received_eq_response_append hcs hc
  have hdata : readReply [] (cs1 ++ c :: cs2) =
      utf8Encode [] ++ response (utf8Encode v) ++ extra := by
    rw [readReply_of_first h1 hc]
    exact hread
  rw [hdata, printed_result_append] at hprint
  obtain ⟨x, hx, htext⟩ := Option.bind_eq_some_iff.mp hprint
  rw [List.nil_append] at htext
  by_cases hblank : Blank ('\n' :: x)
  · refine ⟨cs1, c, cs2, v, [], x, rfl, h1, hc, rfl, fun d hd => absurd hd List.not_mem_nil,
      (List.forall_mem_cons.mp hblank).2, ?_⟩
    rw [hread, utf8Decode_eq_some_iff.mp hx]
    rfl
  · -- the whole text is printed, which is longer than the value
    rw [printedText_extra pyStr hblank] at htext
    have hlen := length_expectedText_lt v (('\n' :: x).rdropWhile isSpace)
    rw [Option.some.inj htext] at hlen
    exact absurd hlen (lt_irrefl _)

/-- **When the client prints the result of its script.**  Whatever the lines of the connection are
and however they are cut into chunks, reading nothing but the result line is enough.  It is also
necessary if no broadcast line comes before the result line. -/
theorem prints_result_iff (pyStr : Json → List ℕ) {before after : List (List Byte)}
    {result : List Byte} {cs : List Received}
    (hcs : received cs = replyStream before result after) :
    (OnlyResultRead cs result → PrintsResult pyStr cs result) ∧
      (before = [] → (PrintsResult pyStr cs result ↔ OnlyResultRead cs result)) := by
  refine ⟨printsResult_of_onlyResultRead pyStr, ?_⟩
  rintro rfl
  exact ⟨onlyResultRead_of_printsResult pyStr hcs, printsResult_of_onlyResultRead pyStr⟩

/-! ### A script that sends a message -/

/-- The result line for `7` in two chunks, then the line `hi` of another client's script. -/
def sevenReply : List Received :=
  [⟨(response [0x37]).take 20, by decide, by decide⟩,
    ⟨(response [0x37]).drop 20, by decide, by decide⟩,
    ⟨ascii "hi" ++ [newline], by decide, by decide⟩]

/-- The line `hi` of `SocketServer.send`, then the result line for `7`, received in one call. -/
def hiSevenReply : List Received :=
  [⟨replyStream [ascii "hi"] [0x37] [], by decide, by decide⟩]

theorem sevenReply_prints : PrintsResult (fun _ => []) sevenReply [0x37] := by
  have hcs : received sevenReply = replyStream [] [0x37] [ascii "hi"] := by decide
  have hnil : Blank [] := fun c hc => absurd hc List.not_mem_nil
  refine (prints_result_iff (fun _ => []) hcs).1 ?_
  exact ⟨_, _, _, ['7'], [], [], List.singleton_append.symm, by decide, by decide, by decide, hnil,
    hnil, by decide⟩

theorem hiSevenReply_not_prints : ¬ PrintsResult (fun _ => []) hiSevenReply [0x37] := by
  rintro ⟨v, hv, hprint⟩
  have hv7 : v = ['7'] := by
    have hdec := utf8Decode_utf8Encode ['7']
    rw [show utf8Encode ['7'] = utf8Encode v from hv, utf8Decode_utf8Encode] at hdec
    exact Option.some.inj hdec
  have hdata : readReply [] hiSevenReply =
      utf8Encode ("hi\n".toList ++ (resultChars ['7'] ++ ['\n'])) := by
    decide
  rw [hdata, hv7, printed, utf8Decode_utf8Encode] at hprint
  revert hprint
  decide

end Client
end CalvinHook
