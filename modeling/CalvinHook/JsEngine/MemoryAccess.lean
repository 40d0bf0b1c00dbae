import CalvinHook.JsEngine.NativePointer

/-!
# `js_memory.cpp`: reading what was written

`Memory.writeT(p, v)` converts a value and stores `sizeof(T)` bytes, and `Memory.readT(p)` makes a
value of the bytes again.  The types of up to 32 bits are carried by Numbers, those of 64 bits by
BigInts and pointers by `NativePointer` objects.

`readU64` makes its BigInt with `JS_NewBigInt64`, which is signed: the top half of the range of
`U64` comes back as negative BigInts.

* `readAt`, `writeAt`: what the functions share.
* `Access.convert_carrier`, `Access.make_eq_iff`: from a value to bytes and back.
* `readAt_writeAt`: a write, and the read after it.
* `write_read_iff`: which values come back.
-/

namespace CalvinHook
namespace Memory

open A64 Native

/-! ## The source -/

section Source

variable {V : Type*} (js : ScriptJs V)

/-- `get_arg_ptr`. -/
def getArgPtr (val : V) : Addr := js.jsPtrUnwrap val

/-- The functions `js_read_*`: `none` is an exception. -/
def readAt (n : ℕ) (make : BitVec (8 * n) → V) (m : Mem) : List V → Option V
  | [] => none
  | a :: _ => if getArgPtr js a = 0 then none else some (make (m.read (getArgPtr js a) n))

/-- The functions `js_write_*`: the value that is returned, and memory. -/
def writeAt (n : ℕ) (convert : V → Option (BitVec (8 * n))) (m : Mem) : List V → Option (V × Mem)
  | a :: v :: _ =>
    if getArgPtr js a = 0 then none
    else (convert v).map fun x => (js.undefined, m.write (getArgPtr js a) n x)
  | _ => none

def jsReadU8 : Mem → List V → Option V := readAt js 1 fun x => js.newInt32 (x.setWidth 32)
def jsReadU16 : Mem → List V → Option V := readAt js 2 fun x => js.newInt32 (x.setWidth 32)
def jsReadU32 : Mem → List V → Option V := readAt js 4 fun x => js.newUint32 x
def jsReadU64 : Mem → List V → Option V := readAt js 8 fun x => js.newBigInt64 x
def jsReadS8 : Mem → List V → Option V := readAt js 1 fun x => js.newInt32 (x.signExtend 32)
def jsReadS16 : Mem → List V → Option V := readAt js 2 fun x => js.newInt32 (x.signExtend 32)
def jsReadS32 : Mem → List V → Option V := readAt js 4 fun x => js.newInt32 x
def jsReadS64 : Mem → List V → Option V := readAt js 8 fun x => js.newBigInt64 x
def jsReadPointer : Mem → List V → Option V := readAt js 8 fun x => js.jsPtrNew x

def jsWriteU8 : Mem → List V → Option (V × Mem) :=
  writeAt js 1 fun v => (js.toInt32 v).map (·.setWidth 8)
def jsWriteU16 : Mem → List V → Option (V × Mem) :=
  writeAt js 2 fun v => (js.toInt32 v).map (·.setWidth 16)
def jsWriteU32 : Mem → List V → Option (V × Mem) := writeAt js 4 js.toUint32
def jsWriteU64 : Mem → List V → Option (V × Mem) := writeAt js 8 js.toBigInt64
def jsWriteS8 : Mem → List V → Option (V × Mem) :=
  writeAt js 1 fun v => (js.toInt32 v).map (·.setWidth 8)
def jsWriteS16 : Mem → List V → Option (V × Mem) :=
  writeAt js 2 fun v => (js.toInt32 v).map (·.setWidth 16)
def jsWriteS32 : Mem → List V → Option (V × Mem) := writeAt js 4 js.toInt32
def jsWriteS64 : Mem → List V → Option (V × Mem) := writeAt js 8 js.toBigInt64
/-- A pointer is stored whatever `get_arg_ptr` makes of the value. -/
def jsWritePointer : Mem → List V → Option (V × Mem) := writeAt js 8 fun v => some (getArgPtr js v)

end Source

/-! ## Types -/

/-- The types of the accessors. -/
inductive Access where
  | u8
  | u16
  | u32
  | u64
  | s8
  | s16
  | s32
  | s64
  | pointer
  deriving DecidableEq, Repr

namespace Access

/-- `sizeof(T)`. -/
def size : Access → ℕ
  | u8 | s8 => 1
  | u16 | s16 => 2
  | u32 | s32 => 4
  | u64 | s64 | pointer => 8

/-- The integer is in the range of the type; a pointer is the integer of its address. -/
def Fits (t : Access) (n : ℤ) : Prop :=
  match t with
  | u8 | u16 | u32 | u64 | pointer => 0 ≤ n ∧ n < 2 ^ (8 * t.size)
  | s8 | s16 | s32 | s64 => -2 ^ (8 * t.size - 1) ≤ n ∧ n < 2 ^ (8 * t.size - 1)

variable {V : Type*} (js : ScriptJs V)

/-- The value that carries an integer. -/
def carrier (n : ℤ) : Access → V
  | u8 | u16 | u32 | s8 | s16 | s32 => js.number n
  | u64 | s64 => js.bigInt n
  | pointer => js.nativePointer (BitVec.ofInt 64 n)

/-- `Memory.readT`. -/
def read : Access → Mem → List V → Option V
  | u8 => jsReadU8 js
  | u16 => jsReadU16 js
  | u32 => jsReadU32 js
  | u64 => jsReadU64 js
  | s8 => jsReadS8 js
  | s16 => jsReadS16 js
  | s32 => jsReadS32 js
  | s64 => jsReadS64 js
  | pointer => jsReadPointer js

/-- `Memory.writeT`. -/
def write : Access → Mem → List V → Option (V × Mem)
  | u8 => jsWriteU8 js
  | u16 => jsWriteU16 js
  | u32 => jsWriteU32 js
  | u64 => jsWriteU64 js
  | s8 => jsWriteS8 js
  | s16 => jsWriteS16 js
  | s32 => jsWriteS32 js
  | s64 => jsWriteS64 js
  | pointer => jsWritePointer js

/-- What `readT` makes of the bytes. -/
def make : (t : Access) → BitVec (8 * t.size) → V
  | u8 => fun x => js.newInt32 (x.setWidth 32)
  | u16 => fun x => js.newInt32 (x.setWidth 32)
  | u32 => fun x => js.newUint32 x
  | u64 | s64 => fun x => js.newBigInt64 x
  | s8 => fun x => js.newInt32 (x.signExtend 32)
  | s16 => fun x => js.newInt32 (x.signExtend 32)
  | s32 => fun x => js.newInt32 x
  | pointer => fun x => js.jsPtrNew x

/-- The bytes that `writeT` makes of a value. -/
def convert : (t : Access) → V → Option (BitVec (8 * t.size))
  | u8 | s8 => fun v => (js.toInt32 v).map (·.setWidth 8)
  | u16 | s16 => fun v => (js.toInt32 v).map (·.setWidth 16)
  | u32 => js.toUint32
  | s32 => js.toInt32
  | u64 | s64 => js.toBigInt64
  | pointer => fun v => some (getArgPtr js v)

theorem read_eq (t : Access) : t.read js = readAt js t.size (t.make js) := by cases t <;> rfl

theorem write_eq (t : Access) : t.write js = writeAt js t.size (t.convert js) := by cases t <;> rfl

theorem size_le (t : Access) : t.size ≤ 8 := by cases t <;> decide

end Access

/-! ## Carriers -/

section Carrier

variable {w : ℕ} {n : ℤ}

theorem toNat_ofInt_of_lt (h0 : 0 ≤ n) (hn : n < 2 ^ w) : ((BitVec.ofInt w n).toNat : ℤ) = n := by
  have hcast : ((2 ^ w : ℕ) : ℤ) = 2 ^ w := by norm_cast
  rw [BitVec.toNat_ofInt, hcast, Int.emod_eq_of_lt h0 hn, Int.toNat_of_nonneg h0]

theorem setWidth_ofInt {v : ℕ} (h : w ≤ v) : (BitVec.ofInt v n).setWidth w = BitVec.ofInt w n := by
  have hdvd : ((2 ^ w : ℕ) : ℤ) ∣ ((2 ^ v : ℕ) : ℤ) :=
    Int.natCast_dvd_natCast.mpr (Nat.pow_dvd_pow 2 h)
  have hpos : ((2 ^ v : ℕ) : ℤ) ≠ 0 := by positivity
  apply BitVec.eq_of_toNat_eq
  zify
  rw [BitVec.toNat_setWidth, BitVec.toNat_ofInt, BitVec.toNat_ofInt, Int.natCast_emod,
    Int.toNat_of_nonneg (Int.emod_nonneg _ hpos), Int.emod_emod_of_dvd _ hdvd,
    Int.toNat_of_nonneg (Int.emod_nonneg _ (by positivity))]

variable {V : Type*} (js : ScriptJs V)

theorem newInt32_setWidth (hw : w < 32) (h0 : 0 ≤ n) (hn : n < 2 ^ w) :
    js.newInt32 ((BitVec.ofInt w n).setWidth 32) = js.number n := by
  have hlt := (BitVec.ofInt w n).isLt
  have hpow : 2 ^ w ≤ 2 ^ 31 := Nat.pow_le_pow_right (by omega) (by omega)
  have hnat : ((BitVec.ofInt w n).setWidth 32).toNat = (BitVec.ofInt w n).toNat := by
    rw [BitVec.toNat_setWidth, Nat.mod_eq_of_lt (by omega)]
  rw [QuickJs.newInt32, BitVec.toInt_eq_toNat_of_lt (by omega), hnat, toNat_ofInt_of_lt h0 hn]

theorem newInt32_signExtend (hw : 0 < w) (hw' : w ≤ 32) (hlo : -2 ^ (w - 1) ≤ n)
    (hhi : n < 2 ^ (w - 1)) :
    js.newInt32 ((BitVec.ofInt w n).signExtend 32) = js.number n := by
  rw [QuickJs.newInt32, BitVec.toInt_signExtend_of_le hw', BitVec.toInt_ofInt_eq_self hw hlo hhi]

theorem toInt32_narrow (hw : w ≤ 32) (hlo : -2 ^ 53 ≤ n) (hhi : n ≤ 2 ^ 53) :
    (js.toInt32 (js.number n)).map (·.setWidth w) = some (BitVec.ofInt w n) := by
  rw [js.toInt32_number n hlo hhi, Option.map_some, setWidth_ofInt hw]

/-- The BigInt of `JS_NewBigInt64` is signed. -/
theorem newBigInt64_eq_iff (hlo : -2 ^ 63 ≤ n) :
    js.newBigInt64 (BitVec.ofInt 64 n) = js.bigInt n ↔ n < 2 ^ 63 := by
  rw [QuickJs.newBigInt64, js.bigInt_injective.eq_iff]
  constructor
  · intro h
    rw [← h]
    exact BitVec.toInt_lt
  · intro h
    exact BitVec.toInt_ofInt_eq_self (by omega) hlo h

/-- **What is stored** for a value in range: the low bits of the integer. -/
theorem Access.convert_carrier {t : Access} (hn : t.Fits n) :
    t.convert js (t.carrier js n) = some (BitVec.ofInt (8 * t.size) n) := by
  cases t with
  | u8 | u16 =>
    obtain ⟨h0, h1⟩ := hn
    norm_num [size] at h1
    exact toInt32_narrow js (by decide) (by omega) (by omega)
  | s8 | s16 =>
    obtain ⟨h0, h1⟩ := hn
    norm_num [size] at h0 h1
    exact toInt32_narrow js (by decide) (by omega) (by omega)
  | u32 =>
    obtain ⟨h0, h1⟩ : 0 ≤ n ∧ n < 2 ^ 32 := hn
    exact js.toUint32_number n (by omega) (by omega)
  | s32 =>
    obtain ⟨h0, h1⟩ : -2 ^ 31 ≤ n ∧ n < 2 ^ 31 := hn
    exact js.toInt32_number n (by omega) (by omega)
  | u64 | s64 => exact js.toBigInt64_bigInt n
  | pointer => exact congrArg some (js.jsPtrUnwrap_jsPtrNew (BitVec.ofInt 64 n))

/-- **What is made** of the stored bits.  The top half of `U64` is made negative. -/
theorem Access.make_eq_iff {t : Access} (hn : t.Fits n) :
    t.make js (BitVec.ofInt (8 * t.size) n) = t.carrier js n ↔ ¬(t = .u64 ∧ 2 ^ 63 ≤ n) := by
  cases t with
  | u8 | u16 => exact iff_of_true (newInt32_setWidth js (by decide) hn.1 hn.2) (by simp)
  | s8 | s16 =>
    exact iff_of_true (newInt32_signExtend js (by decide) (by decide) hn.1 hn.2) (by simp)
  | u32 =>
    obtain ⟨h0, h1⟩ : 0 ≤ n ∧ n < 2 ^ 32 := hn
    have hmake : js.newUint32 (BitVec.ofInt 32 n) = js.number n := by
      rw [QuickJs.newUint32, toNat_ofInt_of_lt h0 h1]
    exact iff_of_true hmake (by simp)
  | s32 =>
    obtain ⟨h0, h1⟩ : -2 ^ 31 ≤ n ∧ n < 2 ^ 31 := hn
    have hmake : js.newInt32 (BitVec.ofInt 32 n) = js.number n := by
      rw [QuickJs.newInt32, BitVec.toInt_ofInt_eq_self (by decide) h0 h1]
    exact iff_of_true hmake (by simp)
  | u64 =>
    have hlo : -2 ^ 63 ≤ n := le_trans (by decide) hn.1
    refine (newBigInt64_eq_iff js hlo).trans ?_
    simp
  | s64 => exact iff_of_true ((newBigInt64_eq_iff js hn.1).mpr hn.2) (by simp)
  | pointer => exact iff_of_true rfl (by simp)

end Carrier

/-! ## Writing and reading -/

section RoundTrip

variable {V : Type*} (js : ScriptJs V)

/-- **A write and the read after it.**  The bytes of the converted value are stored and nothing
else, and the value made of them is read. -/
theorem readAt_writeAt {n : ℕ} (hn : n ≤ 2 ^ 64) (make : BitVec (8 * n) → V)
    {convert : V → Option (BitVec (8 * n))} {a v : V} {x : BitVec (8 * n)}
    (ha : js.jsPtrUnwrap a ≠ 0) (hv : convert v = some x) (m : Mem) :
    ∃ m', writeAt js n convert m [a, v] = some (js.undefined, m') ∧
      (∀ y, ¬InRange (js.jsPtrUnwrap a) n y → m' y = m y) ∧
        readAt js n make m' [a] = some (make x) := by
  refine ⟨m.write (js.jsPtrUnwrap a) n x, ?_, fun y hy => Mem.write_of_not_inRange hy, ?_⟩
  · rw [writeAt, getArgPtr, if_neg ha, hv, Option.map_some]
  · rw [readAt, getArgPtr, if_neg ha, Mem.read_write_same _ _ hn]

/-- **Which values come back.**  A write stores the bytes of its type and leaves the rest of memory
alone.  The read after it gives the value back except for the top half of `U64`. -/
theorem write_read_iff (t : Access) {a : V} (ha : js.jsPtrUnwrap a ≠ 0) (m : Mem) {n : ℤ}
    (hn : t.Fits n) :
    ∃ m', t.write js m [a, t.carrier js n] = some (js.undefined, m') ∧
      (∀ y, ¬InRange (js.jsPtrUnwrap a) t.size y → m' y = m y) ∧
      (t.read js m' [a] = some (t.carrier js n) ↔ ¬(t = .u64 ∧ 2 ^ 63 ≤ n)) := by
  have hsize : t.size ≤ 2 ^ 64 := t.size_le.trans (by omega)
  obtain ⟨m', hwrite, hframe, hread⟩ :=
    readAt_writeAt js hsize (t.make js) ha (Access.convert_carrier js hn) m
  refine ⟨m', ?_, hframe, ?_⟩
  · rw [Access.write_eq, hwrite]
  · rw [Access.read_eq, hread, Option.some_inj, Access.make_eq_iff js hn]

/-- The least value of `S16` at the last two addresses. -/
theorem write_read_iff_s16 :
    ∃ m', Access.write scriptJs .s16 (fun _ => 0) [.nativePointer 0xFFFFFFFFFFFFFFFE,
        .number (-32768)] =
        some (.undefined, m') ∧
      Access.read scriptJs .s16 m' [.nativePointer 0xFFFFFFFFFFFFFFFE] = some (.number (-32768)) :=
  have ⟨m', hwrite, _, hread⟩ :=
    write_read_iff scriptJs .s16 (a := .nativePointer 0xFFFFFFFFFFFFFFFE)
      (by decide) (fun _ => 0) (n := -32768) (by unfold Access.Fits Access.size; decide)
  ⟨m', hwrite, hread.mpr nofun⟩

/-- The largest value of `U64` comes back as `-1n`. -/
theorem write_read_u64 :
    ∃ m', Access.write scriptJs .u64 (fun _ => 0) [.nativePointer 0x1000, .bigInt (2 ^ 64 - 1)] =
        some (.undefined, m') ∧
      Access.read scriptJs .u64 m' [.nativePointer 0x1000] = some (.bigInt (-1)) := by
  refine ⟨Mem.write (fun _ => 0) 0x1000 8 (BitVec.ofInt 64 (2 ^ 64 - 1)), rfl, ?_⟩
  decide +kernel

end RoundTrip

end Memory
end CalvinHook
