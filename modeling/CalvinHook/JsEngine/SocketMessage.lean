import CalvinHook.JsEngine.Base64Decode
import CalvinHook.Text.Json
import CalvinHook.Text.Lines
import CalvinHook.Text.Utf8

/-!
# Scripts and the messages that carry them

A message to the socket server is either an envelope, the JSON object that carries a script in
Base64, or the script itself.  `handle_client` tells them apart by searching: a message that
contains `"script"` and has a `"data"` string which decodes to something is taken as an envelope.

* `jsonFindString_eq_some_iff`: what `json_get_string` finds.
* `scriptOf_eq_self_iff`: which messages are loaded as they are.
* `envelope_raw_iff`: when envelopes and raw scripts are told apart.
-/

namespace CalvinHook
namespace Socket

open Text Base64

/-- The quotation mark. -/
def quote : Byte := 0x22

/-- The colon. -/
def colon : Byte := 0x3A

/-! ## Strings of a JSON text -/

/-- The key between quotation marks. -/
def needle (key : List Byte) : List Byte := quote :: key ++ [quote]

/-- The searches of `json_get_string`; none if one of them fails. -/
def jsonFindString (json key : List Byte) : Option (List Byte) := do
  let ki ← find (needle key) json 0
  let col ← find [colon] json (ki + (needle key).length)
  let q1 ← find [quote] json (col + 1)
  let q2 ← find [quote] json (q1 + 1)
  return (json.drop (q1 + 1)).take (q2 - q1 - 1)

/-- `json_get_string`: a failed search returns the empty text. -/
def jsonGetString (json key : List Byte) : List Byte := (jsonFindString json key).getD []

/-- The text `v` stands between the first two quotation marks behind the first colon behind the
first `"key"`. -/
def HasString (json key v : List Byte) : Prop :=
  ∃ p q r t, json = p ++ needle key ++ (q ++ colon :: (r ++ quote :: (v ++ quote :: t))) ∧
    (∀ p' t', json = p' ++ needle key ++ t' → p.length ≤ p'.length) ∧
    colon ∉ q ∧ quote ∉ r ∧ quote ∉ v

/-- Searching for one byte behind a first part. -/
theorem find_singleton_iff {c : Byte} {s a b : List Byte} {i j : ℕ} (hs : s = a ++ b)
    (hi : i = a.length) :
    find [c] s i = some j ↔ ∃ b' t, b = b' ++ c :: t ∧ c ∉ b' ∧ j = (a ++ b').length := by
  subst hs hi
  rw [find_append_length]
  constructor
  · intro h
    obtain ⟨b', t, rfl, hb, rfl⟩ := exists_of_findFrom_singleton h
    exact ⟨b', t, rfl, hb, List.length_append.symm⟩
  · rintro ⟨b', t, rfl, hb, rfl⟩
    rw [findFrom_singleton _ _ hb, List.length_append]

/-- The byte found joins the first part of the next search. -/
theorem append_found {s a b t : List Byte} {c : Byte} (hs : s = a ++ (b ++ c :: t)) :
    s = a ++ b ++ [c] ++ t := by
  rw [hs]
  simp only [List.append_assoc, List.singleton_append]

theorem length_found (a : List Byte) (c : Byte) : a.length + 1 = (a ++ [c]).length := by
  rw [List.length_append, List.length_singleton]

/-- The text between two cuts. -/
theorem take_drop_between {s a v t : List Byte} (hs : s = a ++ (v ++ t)) :
    (s.drop a.length).take ((a ++ v).length - a.length) = v := by
  rw [hs, List.drop_left, List.length_append, Nat.add_sub_cancel_left, List.take_left]

/-- **What `json_get_string` finds.** -/
theorem jsonFindString_eq_some_iff {json key v : List Byte} :
    jsonFindString json key = some v ↔ HasString json key v := by
  simp only [jsonFindString, Option.bind_eq_bind, Option.bind_eq_some_iff, Option.pure_def,
    Option.some.injEq]
  constructor
  · rintro ⟨ki, hki, col, hcol, q1, hq1, q2, hq2, rfl⟩
    rw [find, List.drop_zero] at hki
    obtain ⟨p, t0, h0, rfl, hmin⟩ := findFrom_eq_some hki
    rw [Nat.zero_add, ← List.length_append] at hcol
    obtain ⟨q, t1, rfl, hq, rfl⟩ := (find_singleton_iff h0 rfl).mp hcol
    have h1 := append_found h0
    obtain ⟨r, t2, rfl, hr, rfl⟩ := (find_singleton_iff h1 (length_found _ _)).mp hq1
    have h2 := append_found h1
    obtain ⟨v, t, rfl, hv, rfl⟩ := (find_singleton_iff h2 (length_found _ _)).mp hq2
    rw [Nat.sub_sub, length_found _ quote, take_drop_between h2]
    exact ⟨p, q, r, t, h0, hmin, hq, hr, hv⟩
  · rintro ⟨p, q, r, t, h0, hmin, hq, hr, hv⟩
    have h1 := append_found h0
    have h2 := append_found h1
    have hki : find (needle key) json 0 = some p.length := by
      rw [find, List.drop_zero, h0, findFrom_first 0 (h0 ▸ hmin), Nat.zero_add]
    refine ⟨_, hki, _, (find_singleton_iff h0 (List.length_append ..).symm).mpr ⟨q, _,
      rfl, hq, rfl⟩, _, (find_singleton_iff h1 (length_found _ _)).mpr ⟨r, _, rfl, hr, rfl⟩,
      _, (find_singleton_iff h2 (length_found _ _)).mpr ⟨v, _, rfl, hv, rfl⟩, ?_⟩
    rw [Nat.sub_sub, length_found _ quote, take_drop_between h2]

/-! ## The script of a message -/

/-- The script that `handle_client` loads for a message. -/
def scriptOf (msg : List Byte) : List Byte :=
  let script :=
    if (find (needle (ascii "script")) msg 0).isSome then
      let b64 := jsonGetString msg (ascii "data")
      if b64 ≠ [] then b64Decode b64 else []
    else []
  if script = [] then msg else script

/-- A byte with a value in the decoder's table. -/
def IsSymbol (c : Byte) : Prop := c ∈ alphabet ∨ c = pad

/-- The message is taken for an envelope: it contains `"script"`, and its `"data"` string starts
with two symbols. -/
def TakenForEnvelope (msg : List Byte) : Prop :=
  needle (ascii "script") <:+: msg ∧
    ∃ c0 c1 cs, HasString msg (ascii "data") (c0 :: c1 :: cs) ∧ IsSymbol c0 ∧ IsSymbol c1

theorem b64Value_ne_iff (c : Byte) : b64Value c ≠ -1 ↔ IsSymbol c := by
  unfold b64Value IsSymbol
  have hpad : c = pad ↔ c = 0x3D := Iff.rfl
  have htable : c ∈ alphabet ↔ c ∈ kB64Table := Iff.rfl
  rw [hpad, htable]
  split_ifs with h1 h2
  · exact iff_of_true (by decide) (.inr h1)
  · exact iff_of_true (by omega) (.inl h2)
  · exact iff_of_false (fun h => h rfl) (not_or.mpr ⟨h2, h1⟩)

theorem scriptOf_of_not_script {msg : List Byte} (h : ¬ needle (ascii "script") <:+: msg) :
    scriptOf msg = msg := by
  have hfind : ¬ (find (needle (ascii "script")) msg 0).isSome :=
    fun hs => h (find_isSome_iff.mp hs)
  rw [scriptOf, if_neg hfind, if_pos rfl]

/-- The empty text decodes to itself, so the test for it makes no difference. -/
theorem scriptOf_of_script {msg : List Byte} (h : needle (ascii "script") <:+: msg) :
    scriptOf msg =
      if b64Decode (jsonGetString msg (ascii "data")) = [] then msg
      else b64Decode (jsonGetString msg (ascii "data")) := by
  rw [scriptOf, if_pos (find_isSome_iff.mpr h)]
  by_cases hdata : jsonGetString msg (ascii "data") = []
  · simp only [hdata, ne_eq, not_true, if_false, if_true]
    exact (if_pos rfl).symm
  · simp only [hdata, ne_eq, not_false_iff, if_true]

theorem b64Decode_jsonGetString_ne_nil_iff (msg key : List Byte) :
    b64Decode (jsonGetString msg key) ≠ [] ↔
      ∃ c0 c1 cs, HasString msg key (c0 :: c1 :: cs) ∧ IsSymbol c0 ∧ IsSymbol c1 := by
  rw [ne_eq, b64Decode_eq_nil_iff, not_not]
  refine exists_congr fun c0 => exists_congr fun c1 => exists_congr fun cs => ?_
  rw [b64Value_ne_iff, b64Value_ne_iff, ← jsonFindString_eq_some_iff, jsonGetString]
  cases jsonFindString msg key with
  | none => simp
  | some v => simp

/-- A message that contains a text between quotation marks is longer than the text. -/
theorem HasString.length_lt {json key v : List Byte} (h : HasString json key v) :
    v.length < json.length := by
  obtain ⟨p, q, r, t, rfl, -⟩ := h
  simp only [List.length_append, List.length_cons]
  omega

/-- **Which messages are loaded as they are.** -/
theorem scriptOf_eq_self_iff (msg : List Byte) : scriptOf msg = msg ↔ ¬ TakenForEnvelope msg := by
  by_cases hs : needle (ascii "script") <:+: msg
  · rw [TakenForEnvelope, ← b64Decode_jsonGetString_ne_nil_iff, scriptOf_of_script hs]
    split_ifs with hdec
    · simp [hdec]
    · refine iff_of_false ?_ (not_not.mpr ⟨hs, hdec⟩)
      intro heq
      -- what is decoded is shorter than the message it comes from
      obtain ⟨c0, c1, cs, hv, -⟩ := (b64Decode_jsonGetString_ne_nil_iff msg _).mp hdec
      have hget : jsonGetString msg (ascii "data") = c0 :: c1 :: cs := by
        rw [jsonGetString, jsonFindString_eq_some_iff.mpr hv, Option.getD_some]
      have hle := length_b64Loop_le 0 (-8) (jsonGetString msg (ascii "data"))
      have hlt := hv.length_lt
      rw [← b64Decode, heq, hget] at hle
      omega
  · exact iff_of_true (scriptOf_of_not_script hs) fun h => hs h.1

/-! ## Envelopes -/

/-- What `calvin.py` writes before the Base64 data. -/
def envelopeHead : List Byte := ascii "\x7b\"type\": \"script\", \"data\": \""

/-- The line `calvin.py` sends for a script, without its newline: `json.dumps` of the two
members. -/
def envelope (s : List Byte) : List Byte := envelopeHead ++ encode s ++ ascii "\"\x7d"

/-- A JSON object with type `"script"` and a data field. -/
def IsEnvelope (line : List Byte) : Prop :=
  ∃ cs members, utf8Decode line = some cs ∧ Json.loads cs = some (.obj members) ∧
    Json.get? members (Json.codes "type") = some (.str (Json.codes "script")) ∧
    (Json.get? members (Json.codes "data")).isSome

/-- A byte that a JSON string holds as it is. -/
def IsPlain (b : Byte) : Prop := 0x20 ≤ b.toNat ∧ b.toNat < 128 ∧ b ≠ 0x22 ∧ b ≠ 0x5C

instance (b : Byte) : Decidable (IsPlain b) := inferInstanceAs (Decidable (_ ∧ _))

theorem isPlain_of_mem_encode {s : List Byte} {b : Byte} (h : b ∈ encode s) : IsPlain b := by
  have halphabet : (alphabet.all fun c => decide (IsPlain c)) = true := by decide +kernel
  rcases mem_encode h with hb | rfl
  · exact of_decide_eq_true (List.all_eq_true.mp halphabet b hb)
  · decide

theorem quote_not_mem_encode (s : List Byte) : quote ∉ encode s := fun h =>
  (isPlain_of_mem_encode h).2.2.1 rfl

/-- What `json_get_string` finds in an envelope. -/
theorem hasString_envelope (s : List Byte) : HasString (envelope s) (ascii "data") (encode s) := by
  have hparts : envelope s = ascii "\x7b\"type\": \"script\", " ++ needle (ascii "data") ++
      ([] ++ colon :: ([0x20] ++ quote :: (encode s ++ quote :: [0x7D]))) := by
    rw [envelope, List.append_assoc]
    rfl
  have hfind : findFrom (needle (ascii "data")) 0 (envelope s) = some 19 := by
    rw [envelope, List.append_assoc]
    rfl
  obtain ⟨a, b, -, hlen, hmin⟩ := findFrom_eq_some hfind
  refine ⟨_, _, _, _, hparts, ?_, List.not_mem_nil, by decide, quote_not_mem_encode s⟩
  intro p' t' hp'
  have hle := hmin p' t' hp'
  have hhead : (ascii "\x7b\"type\": \"script\", ").length = 19 := rfl
  omega

theorem script_infix_envelope (s : List Byte) : needle (ascii "script") <:+: envelope s := by
  refine ⟨ascii "\x7b\"type\": ", ascii ", \"data\": \"" ++ encode s ++ ascii "\"\x7d", ?_⟩
  rw [envelope, List.append_assoc, List.append_assoc, List.append_assoc]
  rfl

/-- The script of an envelope: what its data decodes to, unless that is empty. -/
theorem scriptOf_envelope (s : List Byte) :
    scriptOf (envelope s) =
      if b64Decode (encode s) = [] then envelope s else b64Decode (encode s) := by
  have hget : jsonGetString (envelope s) (ascii "data") = encode s := by
    rw [jsonGetString, jsonFindString_eq_some_iff.mpr (hasString_envelope s), Option.getD_some]
  rw [scriptOf_of_script (script_infix_envelope s), hget]

theorem b64Decode_encode_eq_nil_iff (s : List Byte) : b64Decode (encode s) = [] ↔ s = [] := by
  rw [b64Decode_encode, List.append_eq_nil_iff]
  constructor
  · exact fun h => h.1
  · rintro rfl
    exact ⟨rfl, rfl⟩

/-- The character of a byte that needs no escape. -/
theorem isPlain_byteChar {b : Byte} (hlo : 0x20 ≤ b.toNat) (hquote : b ≠ 0x22)
    (hbackslash : b ≠ 0x5C) :
    Json.IsPlain (byteChar b) :=
  ⟨byteChar_injective.ne hquote, byteChar_injective.ne hbackslash, by rwa [toNat_byteChar]⟩

theorem toNat_lt_of_mem_envelope {s : List Byte} {b : Byte} (h : b ∈ envelope s) :
    b.toNat < 128 := by
  have hhead : (envelopeHead.all fun c => decide (c.toNat < 128)) = true := by decide
  have htail : ((ascii "\"\x7d").all fun c => decide (c.toNat < 128)) = true := by decide
  rw [envelope, List.mem_append, List.mem_append] at h
  rcases h with (h | h) | h
  · exact of_decide_eq_true (List.all_eq_true.mp hhead b h)
  · exact (isPlain_of_mem_encode h).2.1
  · exact of_decide_eq_true (List.all_eq_true.mp htail b h)

/-- The line `calvin.py` sends is an envelope. -/
theorem isEnvelope_envelope (s : List Byte) : IsEnvelope (envelope s) := by
  have hchars : (envelope s).map byteChar = '\x7b' :: '"' :: ("type".toList ++ '"' :: ':' ::
      ([' '] ++ '"' :: ("script".toList ++ '"' :: ',' ::
        ([' '] ++ '"' :: ("data".toList ++ '"' :: ':' ::
        ([' '] ++ '"' :: ((encode s).map byteChar ++ '"' :: ['\x7d']))))))) := by
    rw [envelope, List.map_append, List.map_append, List.append_assoc]
    rfl
  obtain ⟨n, hn⟩ : ∃ n, ((envelope s).map byteChar).length + 1 = n + 4 := by
    refine ⟨((envelope s).map byteChar).length - 3, ?_⟩
    have hlen := congrArg List.length hchars
    simp only [List.length_cons, List.length_append] at hlen
    omega
  have hplain : ∀ c ∈ (encode s).map byteChar, Json.IsPlain c := by
    intro c hc
    obtain ⟨b, hb, rfl⟩ := List.mem_map.mp hc
    obtain ⟨hlo, -, hquote, hbackslash⟩ := isPlain_of_mem_encode hb
    exact isPlain_byteChar hlo hquote hbackslash
  have hparse := Json.parseValue_two_strings n [' '] "type".toList "script".toList "data".toList
    (List.all_eq_true.mp (by decide)) (Json.isPlain_of_all (by decide))
    (Json.isPlain_of_all (by decide)) (Json.isPlain_of_all (by decide))
      (Json.scanString_plain_append hplain ['\x7d'])
  have hbom : ((envelope s).map byteChar).head? ≠ some '\uFEFF' := by
    rw [hchars]
    exact fun h => absurd (Option.some.inj h) (by decide)
  have hskip : Json.skipWs ((envelope s).map byteChar) = (envelope s).map byteChar := by
    rw [hchars]
    rfl
  rw [← hchars, ← hn, ← hskip] at hparse
  refine ⟨_, _, utf8Decode_eq_some_iff.mpr
    (utf8Encode_map_byteChar fun b hb => toNat_lt_of_mem_envelope hb).symm,
    Json.loads_of_parseValue hbom hparse, ?_, ?_⟩
  · rfl
  · rfl

/-- **When envelopes and raw scripts are told apart.**  An envelope yields what its data decodes to
exactly if the script in it is not empty; a line that is no envelope is loaded as it is exactly if
it is not taken for one. -/
theorem envelope_raw_iff (s line : List Byte) :
    (scriptOf (envelope s) = b64Decode (encode s) ↔ s ≠ []) ∧
      ((¬ IsEnvelope line → scriptOf line = line) ↔
        (IsEnvelope line ∨ ¬ TakenForEnvelope line)) := by
  constructor
  · rw [scriptOf_envelope]
    split_ifs with h
    · refine iff_of_false ?_ (not_not.mpr ((b64Decode_encode_eq_nil_iff s).mp h))
      intro henv
      rw [h] at henv
      have hlen := congrArg List.length henv
      rw [envelope, List.append_assoc, List.length_append] at hlen
      exact absurd hlen (by simp [envelopeHead, ascii])
    · exact iff_of_true rfl fun hs => h ((b64Decode_encode_eq_nil_iff s).mpr hs)
  · rw [scriptOf_eq_self_iff, or_iff_not_imp_left]

/-- A raw script that looks up a member named `data`. -/
def rawScript : List Byte := ascii "x=\x7b\"script\":1,\"data\":\"send\"\x7d"

theorem envelope_raw_confused :
    scriptOf (envelope []) ≠ b64Decode (encode []) ∧
      ¬ IsEnvelope rawScript ∧ scriptOf rawScript ≠ rawScript := by
  refine ⟨by decide +kernel, ?_, by decide +kernel⟩
  rintro ⟨cs, members, hdec, hloads, -⟩
  have hchars : cs = rawScript.map byteChar := by
    have hascii : (rawScript.all fun c => decide (c.toNat < 128)) = true := by decide
    have henc := utf8Encode_map_byteChar fun b hb => of_decide_eq_true
      (List.all_eq_true.mp hascii b hb)
    have hraw := utf8Decode_utf8Encode (rawScript.map byteChar)
    rw [henc] at hraw
    exact Option.some.inj (hdec.symm.trans hraw)
  have hnone : Json.loads (rawScript.map byteChar) = none := by
    have hhead : rawScript.map byteChar = 'x' :: '=' :: (rawScript.map byteChar).drop 2 := by rfl
    rw [hhead]
    rfl
  rw [hchars, hnone] at hloads
  cases hloads

end Socket
end CalvinHook
