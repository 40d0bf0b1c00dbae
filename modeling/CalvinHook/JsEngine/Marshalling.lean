import CalvinHook.JsEngine.CallbackReturn
import CalvinHook.Text.Scanf

/-!
# `js_native.cpp`: values there and back

`native_to_js` makes a value for the script of a word, and `js_to_native` makes a word of a value.
The small integers travel as Numbers, the integers of 64 bits as BigInts and pointers as
`NativePointer` objects.  Every integer comes back as it was, cut to its type.  So does every
pointer but the null pointer: `js_to_native` takes a null `NativePointer` for a value that is not a
pointer.

* `QuickJs`: what is used of the engine, with the conversions of ECMAScript.
* `toInt32_newInt32`, `toInt32_newUint32`, `toBigInt64_newBigInt64`, `toBigInt64_newBigUint64`:
  single values.
* `roundTrip_iff`: which words come back.
-/

namespace CalvinHook
namespace Native

open A64

/-! ## The engine -/

/-- What the conversions use of QuickJS.  `none` is a conversion that throws, and floating-point
numbers are their bits. -/
structure QuickJs (V : Type*) where
  undefined : V
  /-- The Number of an integer, which is exact up to `2 ^ 53`. -/
  number : ℤ → V
  bigInt : ℤ → V
  /-- `JS_NewFloat64`. -/
  newFloat64 : BitVec 64 → V
  /-- An object of the class of `NativePointer`. -/
  nativePointer : Addr → V
  /-- `JS_GetOpaque` for that class. -/
  getOpaque : V → Option Addr
  isNull : V → Bool
  isNumber : V → Bool
  isString : V → Bool
  toInt32 : V → Option (BitVec 32)
  toUint32 : V → Option (BitVec 32)
  toInt64 : V → Option (BitVec 64)
  toBigInt64 : V → Option (BitVec 64)
  toFloat64 : V → Option (BitVec 64)
  toCString : V → Option (List Text.Byte)
  /-- `static_cast<float>` of a `double`. -/
  doubleToFloat : BitVec 64 → BitVec 32
  /-- `static_cast<double>` of a `float`. -/
  floatToDouble : BitVec 32 → BitVec 64
  /-- `static_cast<int64_t>` of a `double`. -/
  doubleToInt64 : BitVec 64 → BitVec 64
  /-- ToInt32. -/
  toInt32_number : ∀ n, -2 ^ 53 ≤ n → n ≤ 2 ^ 53 → toInt32 (number n) = some (BitVec.ofInt 32 n)
  /-- ToUint32. -/
  toUint32_number : ∀ n, -2 ^ 53 ≤ n → n ≤ 2 ^ 53 → toUint32 (number n) = some (BitVec.ofInt 32 n)
  /-- ToBigInt64. -/
  toBigInt64_bigInt : ∀ n, toBigInt64 (bigInt n) = some (BitVec.ofInt 64 n)
  getOpaque_nativePointer : ∀ p, getOpaque (nativePointer p) = some p
  isNull_nativePointer : ∀ p, isNull (nativePointer p) = false

namespace QuickJs

variable {V : Type*} (js : QuickJs V)

/-- `JS_NewInt32`. -/
def newInt32 (v : BitVec 32) : V := js.number v.toInt

/-- `JS_NewUint32`. -/
def newUint32 (v : BitVec 32) : V := js.number v.toNat

/-- `JS_NewBigInt64`. -/
def newBigInt64 (v : BitVec 64) : V := js.bigInt v.toInt

/-- `JS_NewBigUint64`. -/
def newBigUint64 (v : BitVec 64) : V := js.bigInt v.toNat

/-- `js_ptr_new`. -/
def jsPtrNew (ptr : Addr) : V := js.nativePointer ptr

/-- `js_ptr_unwrap`. -/
def jsPtrUnwrap (val : V) : Addr :=
  match js.getOpaque val with
  | some p => p
  | none =>
    match if js.isNumber val then js.toInt64 val else none with
    | some v => v
    | none =>
      if js.isString val then
        ((js.toCString val).map fun s => BitVec.ofNat 64 (Text.strtoull s)).getD 0
      else 0

/-- The conversions of `js_to_native`. -/
def conversions : JsConversions V where
  ptrUnwrap := js.jsPtrUnwrap
  isNull := js.isNull
  toInt32 := js.toInt32
  toUint32 := js.toUint32
  toBigInt64 := js.toBigInt64
  toFloat64 := js.toFloat64
  doubleToFloat := js.doubleToFloat
  doubleToInt64 := js.doubleToInt64

/-- `native_to_js`. -/
def nativeToJs (val : BitVec 64) : ArgType → V
  | .void => js.undefined
  | .pointer => js.jsPtrNew val
  | .int | .int32 => js.newInt32 (val.setWidth 32)
  | .uint8 => js.newUint32 ((val.setWidth 8).setWidth 32)
  | .int8 => js.newInt32 ((val.setWidth 8).signExtend 32)
  | .uint16 => js.newUint32 ((val.setWidth 16).setWidth 32)
  | .int16 => js.newInt32 ((val.setWidth 16).signExtend 32)
  | .uint32 => js.newUint32 (val.setWidth 32)
  | .uint64 => js.newBigUint64 val
  | .int64 | .sizeT => js.newBigInt64 val
  | .float => js.newFloat64 (js.floatToDouble (val.setWidth 32))
  | .double => js.newFloat64 val

/-! ## Single values -/

theorem toInt32_newInt32 (v : BitVec 32) : js.toInt32 (js.newInt32 v) = some v := by
  have hlo := v.le_toInt
  have hhi := v.toInt_lt
  rw [newInt32, js.toInt32_number _ (by omega) (by omega), BitVec.ofInt_toInt]

theorem ofInt_toNat {w : ℕ} (v : BitVec w) : BitVec.ofInt w v.toNat = v := by
  rw [BitVec.ofInt_natCast, BitVec.ofNat_toNat, BitVec.setWidth_eq]

theorem toInt32_newUint32 (v : BitVec 32) : js.toInt32 (js.newUint32 v) = some v := by
  have hhi := v.isLt
  rw [newUint32, js.toInt32_number _ (by omega) (by omega), ofInt_toNat]

theorem toUint32_newUint32 (v : BitVec 32) : js.toUint32 (js.newUint32 v) = some v := by
  have hhi := v.isLt
  rw [newUint32, js.toUint32_number _ (by omega) (by omega), ofInt_toNat]

theorem toBigInt64_newBigInt64 (v : BitVec 64) : js.toBigInt64 (js.newBigInt64 v) = some v := by
  rw [newBigInt64, js.toBigInt64_bigInt, BitVec.ofInt_toInt]

theorem toBigInt64_newBigUint64 (v : BitVec 64) : js.toBigInt64 (js.newBigUint64 v) = some v := by
  rw [newBigUint64, js.toBigInt64_bigInt, ofInt_toNat]

theorem jsPtrUnwrap_jsPtrNew (p : Addr) : js.jsPtrUnwrap (js.jsPtrNew p) = p := by
  rw [jsPtrUnwrap, jsPtrNew, js.getOpaque_nativePointer]

end QuickJs

/-! ## Round trips -/

/-- The width of a type in bits, and whether it is signed; a `size_t` and a pointer have 64 bits. -/
def ArgType.layout : ArgType → Option (ℕ × Bool)
  | .int | .int32 => some (32, true)
  | .uint8 => some (8, false)
  | .int8 => some (8, true)
  | .uint16 => some (16, false)
  | .int16 => some (16, true)
  | .uint32 => some (32, false)
  | .uint64 | .sizeT | .pointer => some (64, false)
  | .int64 => some (64, true)
  | .void | .float | .double => none

/-- A word that is cut to a width and extended again. -/
def narrow (layout : ℕ × Bool) (x : BitVec 64) : BitVec 64 :=
  if layout.2 then (x.setWidth layout.1).signExtend 64 else (x.setWidth layout.1).setWidth 64

theorem narrow_64 (signed : Bool) (x : BitVec 64) : narrow (64, signed) x = x := by
  cases signed with
  | false => exact (BitVec.setWidth_eq _).trans (BitVec.setWidth_eq x)
  | true => exact (BitVec.signExtend_eq _).trans (BitVec.setWidth_eq x)

section Cut

variable {w : ℕ} (hw : w ≤ 32) (x : BitVec w)
include hw

theorem setWidth_setWidth_32 : (x.setWidth 32).setWidth w = x := by
  rw [BitVec.setWidth_setWidth_of_le _ hw, BitVec.setWidth_eq]

theorem setWidth_signExtend_32 : (x.signExtend 32).setWidth w = x := by
  apply BitVec.eq_of_getLsbD_eq
  intro i hi
  have hi' : i < 32 := by omega
  rw [BitVec.getLsbD_setWidth, BitVec.getLsbD_signExtend]
  simp [hi, hi']

end Cut

section RoundTrip

variable {V : Type*} (js : QuickJs V) (x : BitVec 64)

/-- A pointer comes back unless it is null. -/
theorem jsToNative_pointer :
    jsToNative js.conversions (js.nativeToJs x .pointer) .pointer =
      if x = 0 then none else some x := by
  have hnull : js.isNull (js.jsPtrNew x) = false := js.isNull_nativePointer x
  simp only [jsToNative, QuickJs.nativeToJs, QuickJs.conversions, js.jsPtrUnwrap_jsPtrNew,
    hnull, and_true]

/-- An integer comes back, cut to its type. -/
theorem jsToNative_integer {t : ArgType} {layout : ℕ × Bool} (ht : t.layout = some layout)
    (hne : t ≠ .pointer) :
    jsToNative js.conversions (js.nativeToJs x t) t = some (narrow layout x) := by
  -- the carrier gives back what was put into it, and the cut to the type undoes the extension to 32
  -- bits
  cases t with
  | void | float | double => cases ht
  | pointer => exact absurd rfl hne
  | int | int32 =>
    cases ht
    simp only [jsToNative, QuickJs.nativeToJs, QuickJs.conversions, js.toInt32_newInt32]
    rfl
  | uint8 | uint16 =>
    cases ht
    simp only [jsToNative, QuickJs.nativeToJs, QuickJs.conversions, js.toInt32_newUint32,
      Option.map_some]
    rw [setWidth_setWidth_32 (by omega)]
    rfl
  | int8 | int16 =>
    cases ht
    simp only [jsToNative, QuickJs.nativeToJs, QuickJs.conversions, js.toInt32_newInt32,
      Option.map_some]
    rw [setWidth_signExtend_32 (by omega)]
    rfl
  | uint32 =>
    cases ht
    simp only [jsToNative, QuickJs.nativeToJs, QuickJs.conversions, js.toUint32_newUint32]
    rfl
  | int64 | sizeT =>
    cases ht
    simp only [jsToNative, QuickJs.nativeToJs, QuickJs.conversions, js.toBigInt64_newBigInt64,
      Option.some_or, narrow_64]
  | uint64 =>
    cases ht
    simp only [jsToNative, QuickJs.nativeToJs, QuickJs.conversions, js.toBigInt64_newBigUint64,
      Option.some_or, narrow_64]

/-- **Which words come back.**  For every integer type and for pointers, the word comes back cut to
its type, except for the null pointer. -/
theorem roundTrip_iff {t : ArgType} {layout : ℕ × Bool} (ht : t.layout = some layout) :
    jsToNative js.conversions (js.nativeToJs x t) t = some (narrow layout x) ↔
      ¬(t = .pointer ∧ x = 0) := by
  by_cases hp : t = .pointer
  · subst hp
    cases ht
    rw [jsToNative_pointer, narrow_64]
    split_ifs with hx
    · exact iff_of_false nofun (not_not.mpr ⟨rfl, hx⟩)
    · exact iff_of_true rfl fun h => hx h.2
  · exact iff_of_true (jsToNative_integer js x ht hp) fun h => hp h.1

end RoundTrip

/-! ### An engine -/

/-- The values that `native_to_js` makes. -/
inductive JsValue where
  | undefined
  | null
  | number (n : ℤ)
  | double (d : BitVec 64)
  | bigInt (n : ℤ)
  | nativePointer (p : Addr)

/-- An engine with these values only. -/
def plainJs : QuickJs JsValue where
  undefined := .undefined
  number := .number
  bigInt := .bigInt
  newFloat64 := .double
  nativePointer := .nativePointer
  getOpaque v := match v with
    | .nativePointer p => some p
    | _ => none
  isNull v := v matches .null
  isNumber v := v matches .number _ | .double _
  isString _ := false
  toInt32 v := match v with
    | .number n => some (BitVec.ofInt 32 n)
    | _ => none
  toUint32 v := match v with
    | .number n => some (BitVec.ofInt 32 n)
    | _ => none
  toInt64 v := match v with
    | .number n => some (BitVec.ofInt 64 n)
    | _ => none
  toBigInt64 v := match v with
    | .bigInt n => some (BitVec.ofInt 64 n)
    | _ => none
  toFloat64 v := match v with
    | .double d => some d
    | _ => none
  toCString _ := none
  doubleToFloat d := d.setWidth 32
  floatToDouble f := f.setWidth 64
  doubleToInt64 d := d
  toInt32_number _ _ _ := rfl
  toUint32_number _ _ _ := rfl
  toBigInt64_bigInt _ := rfl
  getOpaque_nativePointer _ := rfl
  isNull_nativePointer _ := rfl

theorem roundTrip_int8 : jsToNative plainJs.conversions (plainJs.nativeToJs 0x80 .int8) .int8 =
    some 0xFFFFFFFFFFFFFF80 :=
  (roundTrip_iff plainJs 0x80 (t := .int8) rfl).mpr (by decide)

theorem nullPointer_not_roundTrip :
    jsToNative plainJs.conversions (plainJs.nativeToJs 0 .pointer) .pointer = none := rfl

end Native
end CalvinHook
