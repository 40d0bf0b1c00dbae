import CalvinHook.JsEngine.Marshalling

/-!
# `js_ptr.cpp`: making and printing a `NativePointer`

A pointer is printed in base 16 behind `0x`, and `strtoull` in base 0 reads that text back.  The
constructor and `js_ptr_unwrap` convert a Number, a string or a `NativePointer` by two chains of
tests in a different order, with the same pointer at the end.

The pointer does not reach the script that asked for it.  `np_constructor` is registered as
`JS_CFUNC_constructor`, and to such a function the engine passes `new_target` as `this_val`: it has
to make the object and to return it.  `np_constructor` sets the opaque pointer of `this_val`, which
is a function, and returns `undefined`.

* `ScriptJs`: the tags and classes of values, and strings.
* `jsPtrUnwrap_newString_pointerText`: the text of a pointer.
* `constructorPtr_eq`: the two chains.
* `getOpaque_construct`: no object of the class has the pointer afterwards.
* `construct_yields_iff`: what the script gets.
-/

namespace CalvinHook
namespace Native

open A64

/-! ## The engine -/

/-- The tag of a value; the small integers and the floating-point numbers are one tag here. -/
inductive Tag where
  | undefined
  | null
  | bool
  | number
  | bigInt
  | string
  | symbol
  | exception
  | object
  deriving DecidableEq, Repr

/-- Tags, classes and strings of the engine.  Memory for a string does not run out. -/
structure ScriptJs (V : Type*) extends QuickJs V where
  tag : V → Tag
  /-- The objects whose class is `np_class_id`. -/
  isNativePointer : V → Bool
  /-- The objects that `new` accepts, and that can be its `new_target`. -/
  isConstructor : V → Bool
  /-- `JS_NewString`. -/
  newString : List Text.Byte → V
  tag_undefined : tag undefined = .undefined
  isNumber_eq : ∀ v, isNumber v = decide (tag v = .number)
  isString_eq : ∀ v, isString v = decide (tag v = .string)
  tag_of_isNativePointer : ∀ v, isNativePointer v → tag v = .object
  isNativePointer_nativePointer : ∀ p, isNativePointer (nativePointer p)
  /-- `JS_GetOpaque` gives nothing for a value that is no object of the class. -/
  getOpaque_eq_none : ∀ v, isNativePointer v = false → getOpaque v = none
  /-- The class of `NativePointer` has no `call`. -/
  not_isConstructor : ∀ v, isNativePointer v → isConstructor v = false
  toInt64_isSome : ∀ v, tag v = .number → (toInt64 v).isSome
  toCString_isSome : ∀ v, tag v = .string → (toCString v).isSome
  tag_newString : ∀ s, tag (newString s) = .string
  /-- A text of ASCII characters is its own UTF-8 text. -/
  toCString_newString : ∀ s, (∀ c ∈ s, 0 < c.toNat ∧ c.toNat < 0x80) →
    toCString (newString s) = some s
  bigInt_injective : Function.Injective bigInt

namespace ScriptJs

variable {V : Type*} (js : ScriptJs V)

/-! ## The source -/

/-- The text of a pointer, `"0x%" PRIxPTR`. -/
def pointerText (value : Addr) : List Text.Byte := 0x30 :: 0x78 :: Text.numeral 16 1 value.toNat

/-- `np_to_string`; `snprintf` has a buffer of 32 bytes. -/
def npToString (thisVal : V) : Option V :=
  (js.getOpaque thisVal).map fun value => js.newString ((pointerText value).take 31)

/-- The pointer that `np_constructor` computes from its arguments, unless it throws. -/
def constructorPtr : List V → Option Addr
  | [] => some 0
  | arg :: _ =>
    if js.isNumber arg then js.toInt64 arg
    else if js.isString arg then
      (js.toCString arg).map fun s =>
        if (Text.strtoullEnd s).2 = s then 0 else BitVec.ofNat 64 (Text.strtoullEnd s).1
    else some ((js.getOpaque arg).getD 0)

/-- What a call of `np_constructor` does. -/
structure Constructed (V : Type*) where
  /-- The object of `JS_SetOpaque`. -/
  object : V
  /-- The pointer in the new `NativePointer`. -/
  ptr : Addr
  /-- The value that is returned. -/
  result : V

/-- `np_constructor`. -/
def npConstructor (thisVal : V) (argv : List V) : Option (Constructed V) :=
  (js.constructorPtr argv).map fun ptr => { object := thisVal, ptr, result := js.undefined }

/-- `new` with a function registered as `JS_CFUNC_constructor`: `this_val` is `new_target`, and the
value of the expression is the value that the function returns. -/
def construct (newTarget : V) (argv : List V) : Option (Constructed V) :=
  js.npConstructor newTarget argv

/-- `JS_GetOpaque` for the class of `NativePointer` after the call: `JS_SetOpaque` sets the pointer
of any object, `JS_GetOpaque` asks for the class. -/
def Constructed.getOpaque [DecidableEq V] (c : Constructed V) (val : V) : Option Addr :=
  if js.isNativePointer val then if val = c.object then some c.ptr else js.getOpaque val else none

/-! ## Pointers as texts -/

theorem length_pointerText (value : Addr) : (pointerText value).length ≤ 18 := by
  have hdigits : (Nat.digits 16 value.toNat).length ≤ 16 := by
    rw [Nat.digits_length_le_iff (by omega)]
    exact value.isLt
  simp only [pointerText, Text.numeral, Nat.digitsAppend, List.length_cons, List.length_map,
    List.length_reverse, List.length_append, List.length_replicate]
  omega

theorem ascii_of_isDigit {c : Text.Byte} (h : Text.isDigit 16 c) :
    0 < c.toNat ∧ c.toNat < 0x80 := by
  revert h
  revert c
  decide

theorem ascii_pointerText (value : Addr) :
    ∀ c ∈ pointerText value, 0 < c.toNat ∧ c.toNat < 0x80 := by
  intro c hc
  rcases List.mem_cons.mp hc with rfl | hc
  · decide
  rcases List.mem_cons.mp hc with rfl | hc
  · decide
  · exact ascii_of_isDigit (Text.isDigit_of_mem_numeral (by omega) le_rfl hc)

/-- The text of a pointer fits into the buffer. -/
theorem npToString_eq {obj : V} {value : Addr} (h : js.getOpaque obj = some value) :
    js.npToString obj = some (js.newString (pointerText value)) := by
  have hlen := length_pointerText value
  rw [npToString, h, Option.map_some, List.take_of_length_le (by omega)]

/-! ## The two chains -/

section Unwrap

variable {arg : V}

theorem getOpaque_of_tag (h : js.tag arg ≠ .object) : js.getOpaque arg = none := by
  refine js.getOpaque_eq_none arg ?_
  cases hnp : js.isNativePointer arg with
  | false => rfl
  | true => exact absurd (js.tag_of_isNativePointer arg hnp) h

/-- `js_ptr_unwrap` of a Number. -/
theorem jsPtrUnwrap_of_number (h : js.tag arg = .number) :
    some (js.jsPtrUnwrap arg) = js.toInt64 arg := by
  have hopaque : js.getOpaque arg = none := js.getOpaque_of_tag (by simp [h])
  have hnumber : js.isNumber arg = true := by rw [js.isNumber_eq, h]; rfl
  obtain ⟨v, hv⟩ := Option.isSome_iff_exists.mp (js.toInt64_isSome arg h)
  rw [QuickJs.jsPtrUnwrap, hopaque]
  simp only [hnumber, if_true, hv]

/-- `js_ptr_unwrap` of a string. -/
theorem jsPtrUnwrap_of_string (h : js.tag arg = .string) :
    some (js.jsPtrUnwrap arg) =
      (js.toCString arg).map fun s => BitVec.ofNat 64 (Text.strtoull s) := by
  have hopaque : js.getOpaque arg = none := js.getOpaque_of_tag (by simp [h])
  have hnumber : js.isNumber arg = false := by rw [js.isNumber_eq, h]; rfl
  have hstring : js.isString arg = true := by rw [js.isString_eq, h]; rfl
  obtain ⟨s, hs⟩ := Option.isSome_iff_exists.mp (js.toCString_isSome arg h)
  rw [QuickJs.jsPtrUnwrap, hopaque]
  simp [hnumber, hstring, hs]

/-- `js_ptr_unwrap` of anything else. -/
theorem jsPtrUnwrap_of_ne (hn : js.tag arg ≠ .number) (hs : js.tag arg ≠ .string) :
    js.jsPtrUnwrap arg = (js.getOpaque arg).getD 0 := by
  have hnumber : js.isNumber arg = false := by simp [js.isNumber_eq, hn]
  have hstring : js.isString arg = false := by simp [js.isString_eq, hs]
  rw [QuickJs.jsPtrUnwrap]
  cases js.getOpaque arg <;> simp [hnumber, hstring]

/-- Nothing is taken for a null pointer. -/
theorem jsPtrUnwrap_undefined : js.jsPtrUnwrap js.undefined = 0 := by
  have htag := js.tag_undefined
  rw [js.jsPtrUnwrap_of_ne (by simp [htag]) (by simp [htag]), js.getOpaque_of_tag (by simp [htag])]
  rfl

/-- **The text of a pointer is read back.** -/
theorem jsPtrUnwrap_newString_pointerText (value : Addr) :
    js.jsPtrUnwrap (js.newString (pointerText value)) = value := by
  have h := js.jsPtrUnwrap_of_string (js.tag_newString (pointerText value))
  rw [js.toCString_newString _ (ascii_pointerText value), Option.map_some] at h
  rw [Option.some.inj h, pointerText, Text.strtoull_hex (by omega) value.isLt, BitVec.ofNat_toNat,
    BitVec.setWidth_eq]

/-- **The constructor and `js_ptr_unwrap` find the same pointer.**  The constructor asks for Numbers
and strings first and `js_ptr_unwrap` for the class first, but no value is two of these. -/
theorem constructorPtr_eq (arg : V) : js.constructorPtr [arg] = some (js.jsPtrUnwrap arg) := by
  rw [constructorPtr]
  by_cases hn : js.tag arg = .number
  · rw [if_pos (by simp [js.isNumber_eq, hn]), js.jsPtrUnwrap_of_number hn]
  rw [if_neg (by simp [js.isNumber_eq, hn])]
  by_cases hs : js.tag arg = .string
  · have hend : ∀ s,
        (if (Text.strtoullEnd s).2 = s then 0 else BitVec.ofNat 64 (Text.strtoullEnd s).1) =
          BitVec.ofNat 64 (Text.strtoull s) := by
      intro s
      rw [← Text.strtoullEnd_eq s]
      split_ifs <;> rfl
    rw [if_pos (by simp [js.isString_eq, hs]), js.jsPtrUnwrap_of_string hs]
    simp only [hend]
  · rw [if_neg (by simp [js.isString_eq, hs]), js.jsPtrUnwrap_of_ne hn hs]

end Unwrap

/-! ## What the script gets -/

theorem construct_eq (newTarget arg : V) :
    js.construct newTarget [arg] =
      some { object := newTarget, ptr := js.jsPtrUnwrap arg, result := js.undefined } := by
  rw [construct, npConstructor, js.constructorPtr_eq, Option.map_some]

/-- **The pointer is lost.**  After `new`, every object of the class has the pointer that it had
before. -/
theorem getOpaque_construct [DecidableEq V] {newTarget : V} (h : js.isConstructor newTarget)
    {argv : List V} {c : Constructed V} (hc : js.construct newTarget argv = some c) (val : V) :
    c.getOpaque js val = js.getOpaque val := by
  obtain ⟨ptr, -, rfl⟩ := Option.map_eq_some_iff.mp hc
  rw [Constructed.getOpaque]
  cases hval : js.isNativePointer val with
  | false => exact (js.getOpaque_eq_none val hval).symm
  | true =>
    have hne : val ≠ newTarget := by
      rintro rfl
      exact absurd h (by simp [js.not_isConstructor val hval])
    simp only [if_true, if_neg hne]

/-- **Printing, parsing and constructing.**  The text of a pointer is unwrapped to the pointer, and
the constructor computes what `js_ptr_unwrap` computes.  The value of the expression
`new NativePointer(arg)` unwraps to that pointer exactly if it is null. -/
theorem construct_yields_iff (newTarget : V) :
    (∀ obj v, js.getOpaque obj = some v → ∃ text, js.npToString obj = some text ∧
      js.jsPtrUnwrap text = v ∧
      ∃ c, js.construct newTarget [text] = some c ∧ c.ptr = v ∧
      (js.jsPtrUnwrap c.result = v ↔ v = 0)) ∧
    ∀ arg, ∃ c, js.construct newTarget [arg] = some c ∧ c.ptr = js.jsPtrUnwrap arg ∧
      (js.jsPtrUnwrap c.result = js.jsPtrUnwrap arg ↔ js.jsPtrUnwrap arg = 0) := by
  have hnew : ∀ arg, ∃ c, js.construct newTarget [arg] = some c ∧ c.ptr = js.jsPtrUnwrap arg ∧
      (js.jsPtrUnwrap c.result = js.jsPtrUnwrap arg ↔ js.jsPtrUnwrap arg = 0) := by
    intro arg
    refine ⟨_, js.construct_eq newTarget arg, rfl, ?_⟩
    rw [js.jsPtrUnwrap_undefined]
    exact eq_comm
  refine ⟨fun obj v hv => ?_, hnew⟩
  have htext := js.jsPtrUnwrap_newString_pointerText v
  obtain ⟨c, hc, hptr, hiff⟩ := hnew (js.newString (pointerText v))
  rw [htext] at hptr hiff
  exact ⟨_, js.npToString_eq hv, htext, c, hc, hptr, hiff⟩

end ScriptJs

/-! ### An engine -/

/-- Values of scripts. -/
inductive ScriptValue where
  | undefined
  | null
  | number (n : ℤ)
  | double (d : BitVec 64)
  | bigInt (n : ℤ)
  | string (s : List Text.Byte)
  | nativePointer (p : Addr)
  | function (id : ℕ)
  | object (id : ℕ)
  deriving DecidableEq

/-- An engine with these values only. -/
def scriptJs : ScriptJs ScriptValue where
  undefined := .undefined
  number := .number
  bigInt := .bigInt
  newFloat64 := .double
  nativePointer := .nativePointer
  getOpaque v := match v with
    | .nativePointer p => some p
    | _ => none
  isNull v := v matches .null
  isNumber v := v matches .number _ | .double _
  isString v := v matches .string _
  toInt32 v := match v with
    | .number n => some (BitVec.ofInt 32 n)
    | _ => none
  toUint32 v := match v with
    | .number n => some (BitVec.ofInt 32 n)
    | _ => none
  toInt64 v := match v with
    | .number n => some (BitVec.ofInt 64 n)
    | .double d => some d
    | _ => none
  toBigInt64 v := match v with
    | .bigInt n => some (BitVec.ofInt 64 n)
    | _ => none
  toFloat64 v := match v with
    | .double d => some d
    | _ => none
  toCString v := match v with
    | .string s => some s
    | _ => none
  doubleToFloat d := d.setWidth 32
  floatToDouble f := f.setWidth 64
  doubleToInt64 d := d
  toInt32_number _ _ _ := rfl
  toUint32_number _ _ _ := rfl
  toBigInt64_bigInt _ := rfl
  getOpaque_nativePointer _ := rfl
  isNull_nativePointer _ := rfl
  tag v := match v with
    | .undefined => .undefined
    | .null => .null
    | .number _ | .double _ => .number
    | .bigInt _ => .bigInt
    | .string _ => .string
    | .nativePointer _ | .function _ | .object _ => .object
  isNativePointer v := v matches .nativePointer _
  isConstructor v := v matches .function _
  newString := .string
  tag_undefined := rfl
  isNumber_eq v := by cases v <;> rfl
  isString_eq v := by cases v <;> rfl
  tag_of_isNativePointer v h := by cases v <;> first | rfl | cases h
  isNativePointer_nativePointer _ := rfl
  getOpaque_eq_none v h := by cases v <;> first | rfl | cases h
  not_isConstructor v h := by cases v <;> first | rfl | cases h
  toInt64_isSome v h := by cases v <;> first | rfl | cases h
  toCString_isSome v h := by cases v <;> first | rfl | cases h
  tag_newString _ := rfl
  toCString_newString _ _ := rfl
  bigInt_injective _ _ h := ScriptValue.bigInt.inj h

namespace ScriptJs

theorem construct_yields_iff_top :
    ∃ text, scriptJs.npToString (.nativePointer 0xFFFFFFFFFFFFFFFF) = some text ∧
      scriptJs.jsPtrUnwrap text = 0xFFFFFFFFFFFFFFFF :=
  have ⟨text, htext, hunwrap, _⟩ := (construct_yields_iff scriptJs (.function 0)).1
    (.nativePointer 0xFFFFFFFFFFFFFFFF) 0xFFFFFFFFFFFFFFFF rfl
  ⟨text, htext, hunwrap⟩

/-- `new NativePointer(p.toString())` for the pointer 1. -/
theorem construct_undefined :
    scriptJs.npToString (.nativePointer 1) = some (.string [0x30, 0x78, 0x31]) ∧
    scriptJs.jsPtrUnwrap (.string [0x30, 0x78, 0x31]) = 1 ∧
    ∃ c, scriptJs.construct (.function 0) [.string [0x30, 0x78, 0x31]] = some c ∧ c.ptr = 1 ∧
      c.result = .undefined ∧ scriptJs.jsPtrUnwrap c.result = 0 := by
  decide +kernel

end ScriptJs
end Native
end CalvinHook
