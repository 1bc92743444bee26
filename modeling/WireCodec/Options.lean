import WireCodec.Text.Blank

/-! Options of a session, their defaults and their overrides from named settings. A value
that cannot be read leaves its option as it was. -/
namespace WireCodec

inductive Backend
  | native
  | interpreter
  deriving DecidableEq

def Backend.label : Backend → String
  | native => "Native"
  | interpreter => "Interpreter"

/-- The backend in use: native code is available. -/
def Backend.effective (backend : Backend) : Backend := backend

/-- Refused names are answered in lower case. -/
def Backend.parse (text : String) : Except String Backend :=
  let name := String.ofList (text.toList.map Char.toLower)
  if name = "native" || name = "jit" then .ok .native
  else if name = "interp" || name = "interpreter" || name = "emulator" then .ok .interpreter
  else .error name

def Backend.refusal (name : String) : String := "unknown backend `" ++ name ++ "`"

structure Options where
  maxInlineDepth : Nat
  maxInlineSize : Nat
  maxPretouchDepth : Nat
  maxNestingDepth : Nat
  backend : Backend
  perfMap : Bool
  deriving DecidableEq

namespace Options

def default : Options := ⟨5, 50000, 32, 1024, .native, false⟩

def withNesting (options : Options) (depth : Nat) : Options :=
  { options with maxNestingDepth := max depth 1 }

def digitsValue (digits : List Char) : Nat :=
  digits.foldl (fun n c => n * 10 + (c.toNat - '0'.toNat)) 0

def parseCount? (text : List Char) : Option Nat :=
  let digits := match text with
    | '+' :: rest => rest
    | _ => text
  if digits.isEmpty || !digits.all (·.isDigit) then none
  else
    let n := digitsValue digits
    if n < 0x10000000000000000 then some n else none

def countSetting (get : String → Option String) (key : String) (current : Nat) : Nat :=
  match (get key).bind fun raw => parseCount? (Text.trim raw.toList) with
  | some n => n
  | none => current

def backendSetting (get : String → Option String) (key : String) (current : Backend) : Backend :=
  match (get key).map fun raw => Backend.parse (String.ofList (Text.trim raw.toList)) with
  | some (.ok backend) => backend
  | _ => current

def flagSetting (get : String → Option String) (key : String) (current : Bool) : Bool :=
  match get key with
  | some raw => raw = "1" || raw = "true" || raw = "yes"
  | none => current

def withOverrides (options : Options) (get : String → Option String) : Options :=
  Options.withNesting
    { maxInlineDepth := countSetting get "THRIFTJIT_MAX_INLINE_DEPTH" options.maxInlineDepth
      maxInlineSize := countSetting get "THRIFTJIT_MAX_INLINE_SIZE" options.maxInlineSize
      maxPretouchDepth := countSetting get "THRIFTJIT_MAX_PRETOUCH_DEPTH" options.maxPretouchDepth
      maxNestingDepth := 0
      backend := backendSetting get "THRIFTJIT_BACKEND" options.backend
      perfMap := flagSetting get "THRIFTJIT_PERF_MAP" options.perfMap }
    (countSetting get "THRIFTJIT_MAX_NESTING_DEPTH" options.maxNestingDepth)

def diagnostic (options : Options) : String :=
  s!"Options \x7b max_inline_depth: {options.maxInlineDepth}, " ++
  s!"max_inline_size: {options.maxInlineSize}, " ++
  s!"max_pretouch_depth: {options.maxPretouchDepth}, " ++
  s!"max_nesting_depth: {options.maxNestingDepth}, " ++
  s!"backend: {options.backend.label}, perf_map: {options.perfMap} \x7d"

end Options

end WireCodec
