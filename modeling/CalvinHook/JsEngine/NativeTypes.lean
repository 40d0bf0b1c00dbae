import CalvinHook.A64.ArgPassing

/-!
# `js_native.cpp`: types and signatures

The types a script names, and the signatures the constructors of `NativeFunction` and
`NativeCallback` accept.  A `NativeFuncData` or `NativeCbData` carries the bound its constructor has
checked.

`parseSignature_names`: every signature within the bound is accepted, under the names of its types.
-/

namespace CalvinHook
namespace Native

open A64

/-! ## Types -/

inductive ArgType where
  | void
  | int
  | uint8
  | int8
  | uint16
  | int16
  | uint32
  | int32
  | uint64
  | int64
  | float
  | double
  | pointer
  | sizeT
  deriving DecidableEq, Repr

def parseType (s : String) : Option ArgType :=
  if s = "void" then some .void
  else if s = "int" then some .int
  else if s = "uint8" ∨ s = "uchar" then some .uint8
  else if s = "int8" ∨ s = "char" then some .int8
  else if s = "uint16" ∨ s = "ushort" then some .uint16
  else if s = "int16" ∨ s = "short" then some .int16
  else if s = "uint32" then some .uint32
  else if s = "int32" then some .int32
  else if s = "uint64" then some .uint64
  else if s = "int64" ∨ s = "long" then some .int64
  else if s = "float" then some .float
  else if s = "double" then some .double
  else if s = "pointer" ∨ s = "ptr" then some .pointer
  else if s = "size_t" then some .sizeT
  else none

def isFloatType (t : ArgType) : Bool := t = .float || t = .double

def isVoidType (t : ArgType) : Bool := t = .void

/-- The register file a type is passed in. -/
def ArgType.argClass (t : ArgType) : ArgClass := if isFloatType t then .vector else .general

/-- A name of a type. -/
def ArgType.name : ArgType → String
  | .void => "void"
  | .int => "int"
  | .uint8 => "uint8"
  | .int8 => "int8"
  | .uint16 => "uint16"
  | .int16 => "int16"
  | .uint32 => "uint32"
  | .int32 => "int32"
  | .uint64 => "uint64"
  | .int64 => "int64"
  | .float => "float"
  | .double => "double"
  | .pointer => "pointer"
  | .sizeT => "size_t"

theorem parseType_name (t : ArgType) : parseType t.name = some t := by
  cases t <;> simp [parseType, ArgType.name]

/-! ## Signatures -/

/-- What a constructor throws. -/
inductive JsError where
  | exception
  | typeError (msg : String)
  deriving DecidableEq, Repr

/-- The loop over the names of the argument types, at index `i`. -/
def parseArgTypes (i : ℕ) : List String → Except JsError (List ArgType)
  | [] => .ok []
  | s :: ss =>
      match parseType s with
      | none => .error (.typeError ("Invalid arg type at index " ++ toString i))
      | some t => (parseArgTypes (i + 1) ss).map (t :: ·)

theorem length_parseArgTypes {i : ℕ} {ss : List String} {ts : List ArgType}
    (h : parseArgTypes i ss = .ok ts) : ts.length = ss.length := by
  induction ss generalizing i ts with
  | nil =>
    rw [parseArgTypes, Except.ok.injEq] at h
    rw [← h]
    rfl
  | cons s ss ih =>
    rw [parseArgTypes] at h
    cases hs : parseType s with
    | none =>
      rw [hs] at h
      exact absurd h (by simp)
    | some t =>
      rw [hs] at h
      cases hss : parseArgTypes (i + 1) ss with
      | error e =>
        rw [hss] at h
        exact absurd h (by simp [Except.map])
      | ok ts' =>
        rw [hss] at h
        obtain rfl : t :: ts' = ts := Except.ok.inj h
        rw [List.length_cons, List.length_cons, ih hss]

theorem parseArgTypes_names (i : ℕ) (ts : List ArgType) :
    parseArgTypes i (ts.map ArgType.name) = .ok ts := by
  induction ts generalizing i with
  | nil => rfl
  | cons t ts ih =>
    rw [List.map_cons, parseArgTypes, parseType_name]
    dsimp only
    rw [ih]
    rfl

/-- The part the two constructors share: the return type, the bound and the argument types. -/
def parseSignature (max : ℕ) (tooMany ret : String) (args : List String) :
    Except JsError (ArgType × {ts : List ArgType // ts.length ≤ max}) :=
  match parseType ret with
  | none => .error (.typeError "Invalid return type")
  | some r =>
      if hlen : args.length > max then .error (.typeError tooMany)
      else
        match hargs : parseArgTypes 0 args with
        | .error e => .error e
        | .ok ts => .ok (r, ⟨ts, by rw [length_parseArgTypes hargs]; omega⟩)

/-- **Every signature within the bound is accepted.** -/
theorem parseSignature_names (max : ℕ) (tooMany : String) (r : ArgType) (ts : List ArgType)
    (h : ts.length ≤ max) :
    parseSignature max tooMany r.name (ts.map ArgType.name) = .ok (r, ⟨ts, h⟩) := by
  have hlen : ¬ (ts.map ArgType.name).length > max := by
    rw [List.length_map]
    omega
  rw [parseSignature, parseType_name]
  dsimp only
  rw [dif_neg hlen]
  split
  · rename_i e he
    rw [parseArgTypes_names] at he
    exact absurd he (by simp)
  · rename_i ts' hts
    rw [parseArgTypes_names, Except.ok.injEq] at hts
    subst hts
    rfl

structure NativeFuncData where
  address : Addr
  retType : ArgType
  argTypes : List ArgType
  /-- Checked by `nf_constructor`. -/
  nargs_le : argTypes.length ≤ 24

/-- `new NativeFunction(address, retType, argTypes)`; a null address is an exception. -/
def nfConstructor (argc : ℕ) (addr : Addr) (ret : String) (args : List String) :
    Except JsError NativeFuncData :=
  if argc < 3 then .error (.typeError "NativeFunction(address, retType, argTypes)")
  else if addr = 0 then .error .exception
  else
    (parseSignature 24 "Too many arguments (max 24)" ret args).map fun sig =>
      ⟨addr, sig.1, sig.2.1, sig.2.2⟩

structure NativeCbData where
  retType : ArgType
  argTypes : List ArgType
  /-- Checked by `nc_constructor`. -/
  nargs_le : argTypes.length ≤ 8

/-- `new NativeCallback(jsFunc, retType, argTypes)`, up to the generation of the stub. -/
def ncConstructor (argc : ℕ) (isFunction : Bool) (ret : String) (args : List String) :
    Except JsError NativeCbData :=
  if argc < 3 then .error (.typeError "NativeCallback(jsFunc, retType, argTypes)")
  else if !isFunction then .error (.typeError "First arg must be a function")
  else
    (parseSignature 8 "Max 8 args for NativeCallback" ret args).map fun sig =>
      ⟨sig.1, sig.2.1, sig.2.2⟩

/-- Every `NativeFuncData` with an address comes out of the constructor. -/
theorem exists_nfConstructor (nf : NativeFuncData) (haddr : nf.address ≠ 0) :
    ∃ ret args, nfConstructor 3 nf.address ret args = .ok nf := by
  refine ⟨nf.retType.name, nf.argTypes.map ArgType.name, ?_⟩
  rw [nfConstructor, if_neg (by omega), if_neg haddr, parseSignature_names _ _ _ _ nf.nargs_le]
  rfl

/-- Every `NativeCbData` comes out of the constructor. -/
theorem exists_ncConstructor (cb : NativeCbData) :
    ∃ ret args, ncConstructor 3 true ret args = .ok cb := by
  refine ⟨cb.retType.name, cb.argTypes.map ArgType.name, ?_⟩
  rw [ncConstructor, if_neg (by omega), if_neg (by simp),
    parseSignature_names _ _ _ _ cb.nargs_le]
  rfl

end Native
end CalvinHook
