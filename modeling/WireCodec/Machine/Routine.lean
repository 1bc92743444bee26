import WireCodec.Machine.Run
import WireCodec.Value.Load
import WireCodec.Wire.Skip

/-! The routines programs call, except those that need compiled codecs. Arguments that were
not passed count as zero. -/
namespace WireCodec

def Context.allocate (c : Context) (count : UInt64) : UInt64 × Context :=
  match c.heap.alloc? count.toNat with
  | some (off, heap) => (off.toUInt64, { c with heap := heap })
  | none => (0, c.fail .invalidLength)

def Context.skipValue (c : Context) (tag : UInt64) : Context :=
  match skip c.wire c.framesLeft tag.toUInt8 c.pos.toNat with
  | .ok pos => { c with pos := pos.toUInt64 }
  | .error e => c.failAt e.code e.offset.toUInt64

inductive Distinctness
  | distinct
  | duplicate
  | unreadable (e : ValueError)

def checkDistinct (read : UInt32 → Except ValueError Value) (stride : UInt32) : Nat → Nat → List Value → Distinctness
  | 0, _, _ => .distinct
  | count + 1, off, seen =>
    match offset? off with
    | none => .unreadable .outOfBounds
    | some at_ =>
      match read at_ with
      | .error e => .unreadable e
      | .ok v =>
        if seen.contains v then .duplicate
        else checkDistinct read stride count (off + stride.toNat) (v :: seen)

def Context.checkSet {σ : Type} (c : Context) (known : Registry) (elem : TypeDesc)
    (data count : UInt32) (state : σ) : Reply σ :=
  match checkDistinct (loadValue known c.heap · elem) elem.size count.toNat data.toNat [] with
  | .distinct => .returned [0, 0] c state
  | .duplicate => .returned [0, 0] (c.fail .duplicateSetElement) state
  | .unreadable .outOfBounds => .ended .crashed c state
  | .unreadable .endless => .ended .endless c state
  | .unreadable e => .returned [0, 0] (c.raise (.malformed (.unreadable e))) state

/-- The words that a sample returns. -/
def Sample.answer (sample : Sample) (args : List UInt64) (c : Context) : List UInt64 × Context :=
  let arg (n : Nat) : UInt64 := args[n]?.getD 0
  let word (n : Nat) : UInt64 := (args.take n).foldl (fun acc w => acc * 31 + w) n.toUInt64
  match sample with
  | .probe n => ([word n, 0], c)
  | .pair n => ([word n, ~~~word n], c)
  | .setError => ([0, 0], { c with errorCode := (arg 0).toUInt32, errorOffset := arg 1 })
  | .setPos => ([0, 0], { c with pos := arg 0 })

/-- What a routine does to the context. Copying and clearing by call, and external routines, work on addresses;
there is no memory here but the arena and the wire, so they leave everything as it is. -/
def Routine.answer {σ : Type} (defer : UInt64 → UInt32 → UInt64 → Context → σ → Option (Reply σ))
    (known : Registry) (element : UInt32 → σ → Option TypeDesc) (routine : Routine)
    (args : List UInt64) (c : Context) (state : σ) : Option (Reply σ) :=
  let arg (n : Nat) : UInt64 := args[n]?.getD 0
  match routine with
  | .alloc =>
    let (off, c) := c.allocate (arg 0)
    some (.returned [off, 0] c state)
  | .copy | .clear | .external _ => some (.returned [0, 0] c state)
  | .skip => some (.returned [0, 0] (c.skipValue (arg 0)) state)
  | .defer => defer (arg 0) (arg 1).toUInt32 (arg 2) c state
  | .setCheck =>
    match element (arg 0).toUInt32 state with
    | some elem => some (c.checkSet known elem (arg 1).toUInt32 (arg 2).toUInt32 state)
    | none => some (.returned [0, 0] (c.raise (.malformed (.unknownElement (arg 0)))) state)
  | .sample own =>
    let (words, c) := own.answer args c
    some (.returned words c state)

def maxCallArgs : Nat := 7

def Reply.single {σ : Type} : Reply σ → Reply σ
  | .returned words c state => .returned [words.head?.getD 0, 0] c state
  | reply => reply

/-- Only a host routine declared so returns two words; the only method is the store barrier. -/
def Handle.answer {σ : Type} (run : Routine → List UInt64 → Context → σ → Option (Reply σ)) : Caller σ :=
  fun h args c state =>
    if args.length > maxCallArgs then some .refused
    else match h.kind with
      | .native routine => (run routine args c state).map Reply.single
      | .host routine =>
        if h.sig.results.length = 2 then run routine args c state
        else (run routine args c state).map Reply.single
      | .method slot =>
        if slot = 0 then
          let arg (n : Nat) : UInt32 := (args[n]?.getD 0).toUInt32
          some (.returned [0, 0] { c with stores := ⟨arg 0, arg 1, arg 2⟩ :: c.stores } state)
        else some .refused

end WireCodec
