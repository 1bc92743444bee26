import WireCodec.Session.Cache
import WireCodec.Session.CodecSet

/-! Sessions: options, call handles, numbered types, and the codecs compiled so far. What a failed
request numbered or published stays. -/
namespace WireCodec

structure Session where
  options : Options
  handles : HandleTable
  types : TypeTable
  cache : Cache CodecSet

abbrev SessionM := EStateM Lowering.Failure Session

namespace Session

def start (options : Options) : Session := ⟨options, Builtin.table, .empty, .empty⟩

def setting (s : Session) (known : Registry) : Lowering.Setting :=
  ⟨known, s.handles, s.options.maxInlineSize, s.options.maxInlineDepth⟩

def lower {α : Type} (s : Session) (m : Lowering.LowerM α) : Except Lowering.Failure α × Session :=
  match m s.types with
  | .ok a types => (.ok a, { s with types := types })
  | .error e types => (.error e, { s with types := types })

def intern (s : Session) (t : TypeDesc) : Nat × Session :=
  let (index, types) := s.types.intern t
  (index, { s with types := types })

def lookup (known : Registry) (t : TypeDesc) : SessionM CodecSet := fun s =>
  match t.recordType known with
  | .error issue => .error (.cause (.unsupported issue)) s
  | .ok root =>
    let compile (types : TypeTable) : Option (Except CompileError CodecSet) × TypeTable :=
      let compiling := Lowering.compileSet (s.setting known) s.options.backend.effective root
      match compiling types with
      | .ok set types => (some (.ok set), types)
      | .error (.cause e) types => (some (.error e), types)
      | .error .overflow types => (none, types)
    let (result, cache, types) := s.cache.fetch root.id compile s.types
    let s := { s with cache := cache, types := types }
    match result with
    | some (.ok set) => .ok set s
    | some (.error e) => .error (.cause e) s
    | none => .error .overflow s

def ofSchema {α : Type} : Except SchemaIssue α → SessionM α
  | .ok a => pure a
  | .error issue => throw (.cause (.unsupported issue))

/-- Compiles the records within reach of a type, each once. A field, an element and a key are one
step away, what a pointer refers to is none. `fuel` bounds the length of a path. -/
def walk (known : Registry) (maxDepth : Nat) : Nat → TypeDesc → Nat → List Nat → SessionM (List Nat)
  | 0, _, _, seen => pure seen
  | fuel + 1, t, depth, seen => do
    if depth > maxDepth then return seen
    match t.kind with
    | .struct =>
      if seen.contains t.id then return seen
      let _ ← lookup known t
      t.fields.foldlM (fun seen field => walk known maxDepth fuel field.type (depth + 1) seen)
        (t.id :: seen)
    | .pointer => walk known maxDepth fuel (← ofSchema (t.pointee known)) depth seen
    | .list | .set => walk known maxDepth fuel (← ofSchema t.elem?) (depth + 1) seen
    | .map =>
      let seen ← walk known maxDepth fuel (← ofSchema t.key?) (depth + 1) seen
      walk known maxDepth fuel (← ofSchema t.elem?) (depth + 1) seen
    | _ => return seen

/-- A path that visits no record twice is shorter: between two records it runs through
distinct types. -/
def walkFuel (known : Registry) : Nat := (known.types.size + 2) * (known.types.size + 2)

def pretouch (known : Registry) (t : TypeDesc) : SessionM Unit := do
  let _ ← walk known (← get).options.maxPretouchDepth (walkFuel known) t 0 []

def diagnostic (s : Session) : String :=
  "Session \x7b options: " ++ s.options.diagnostic ++ s!", cached: {s.cache.size}, .. \x7d"

end Session

end WireCodec
