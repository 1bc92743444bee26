import WireCodec.Call.Handle
import WireCodec.Schema.Registry
import WireCodec.Schema.TypeTable

/-! Pieces of code. A piece is made for the place where it will stand. Error exits stand at the
program's end and are named by their code until then. Making a piece may number types; numbers given
out stay. An offset past 32 bits fits no instruction, and no code is made. -/
namespace WireCodec.Lowering

inductive Dest
  | place (index : Nat)
  | exit (code : ErrorCode)
  deriving DecidableEq

abbrev Code := List (Instr Dest)

inductive Failure
  | cause (e : CompileError)
  | overflow
  deriving DecidableEq

abbrev LowerM := EStateM Failure TypeTable

abbrev Piece := Nat → LowerM Code

/-- Something for each place inside a value, told by the numbers of the parts that lead there. -/
abbrev Spots (α : Type) := List Nat → α

abbrev Spots.part {α : Type} (spots : Spots α) (i : Nat) : Spots α := fun way => spots (i :: way)

abbrev r0 : Reg := .r 0
abbrev r1 : Reg := .r 1
abbrev r2 : Reg := .r 2
abbrev r3 : Reg := .r 3
abbrev r4 : Reg := .r 4
abbrev r5 : Reg := .r 5
abbrev r6 : Reg := .r 6
abbrev p0 : Reg := .p 0
abbrev p1 : Reg := .p 1
abbrev p2 : Reg := .p 2
abbrev p3 : Reg := .p 3

def ofSchema {α : Type} : Except SchemaIssue α → LowerM α
  | .ok a => pure a
  | .error issue => throw (.cause (.unsupported issue))

def inReach {α : Type} : Option α → LowerM α
  | some a => pure a
  | none => throw .overflow

def lengthAt (off : UInt32) : LowerM UInt32 := inReach (offset? (off.toNat + 4))

def internType (t : TypeDesc) : LowerM Nat := fun table =>
  let (index, table) := table.intern t
  .ok index table

def code (instrs : Code) : Piece := fun _ => pure instrs

def seq : List Piece → Piece
  | [] => code []
  | piece :: rest => fun start => do
    let first ← piece start
    let after ← seq rest (start + first.length)
    return first ++ after

def skipping (branch : Dest → Instr Dest) (body : Piece) : Piece := fun start => do
  let inner ← body (start + 1)
  return branch (.place (start + 1 + inner.length)) :: inner

def looping (body : Piece) (back : Dest → Instr Dest) : Piece := fun start => do
  let inner ← body start
  return inner ++ [back (.place start)]

def either (branch : Dest → Instr Dest) (first second : Piece) : Piece := fun start => do
  let short ← first (start + 1)
  let join := start + 1 + short.length + 1
  let long ← second join
  return branch (.place join) :: short ++ .jump (.place (join + long.length)) :: long

def withM {α : Type} (check : LowerM α) (body : α → Piece) : Piece := fun start => do
  body (← check) start

/-- Types whose codec keeps the registers of a loop. -/
def isSimple (t : TypeDesc) : Bool :=
  t.kind.isScalar || t.kind = .string || t.kind = .binary

def scalarWidth (t : TypeDesc) : LowerM Width :=
  match Width.ofBytes? t.size.toNat with
  | some width => pure width
  | none => throw (.cause (.unsupported (.noScalarWidth t.name)))

def ifEq (reg : Reg) (value : Int32) (dest : Dest) : Instr Dest := .branchImm .eq reg value dest

def ifNe (reg : Reg) (value : Int32) (dest : Dest) : Instr Dest := .branchImm .ne reg value dest

def ifNegative (reg : Reg) (dest : Dest) : Instr Dest := .branchImm .lt reg 0 dest

structure Entry where
  key : Option TypeDesc
  elem : TypeDesc
  valueOffset : UInt32
  stride : UInt32

namespace Entry

def ofList (elem : TypeDesc) : Entry := ⟨none, elem, 0, elem.size⟩

def ofMap? (key elem : TypeDesc) : Option Entry := do
  let layout ← TypeDesc.EntryLayout.of? key elem
  return ⟨some key, elem, layout.valueOffset, layout.stride⟩

def fixedSize? (e : Entry) : Option UInt32 :=
  match e.key with
  | none => e.elem.kind.scalarSize?
  | some key => do return (← key.kind.scalarSize?) + (← e.elem.kind.scalarSize?)

def minSize (e : Entry) : UInt32 :=
  e.elem.kind.minWireSize + (match e.key with
    | some key => key.kind.minWireSize
    | none => 0)

def isSimple (e : Entry) : Bool :=
  Lowering.isSimple e.elem && (match e.key with
    | some key => Lowering.isSimple key
    | none => true)

def headerSize (e : Entry) : UInt32 := if e.key.isSome then 6 else 5

def stepCode (e : Entry) : Code := [.seek p1 p1 e.stride.toInt32, .imm .add r1 r1 (-1)]

def registerLoop (e : Entry) (body : Piece) : Piece :=
  looping (seq [body, code e.stepCode]) (ifNe r1 0)

/-- A loop over entries whose codec may use any register: its state is in the frame. -/
def frameLoop (e : Entry) (body : Piece) : Piece :=
  looping (seq [body, code ([.loadFrame p1 0, .loadFrame r1 1] ++ e.stepCode ++
    [.storeFrame p1 0, .storeFrame r1 1])]) (ifNe r1 0)

def parts (e : Entry) (key : Option Piece) (elem : Piece) : Piece :=
  match key with
  | none => elem
  | some piece =>
    let reload : Code := match e.key with
      | some t => if Lowering.isSimple t then [] else [.loadFrame p1 0]
      | none => []
    seq [piece, code reload, elem]

end Entry

def deferral (job : Job) (t : TypeDesc) : Piece :=
  withM (internType t) fun index => code
    [.movImm r5 job.number.toUInt64, .movImm r6 index.toUInt64, .call Builtin.defer [r5, r6, p0] []]

end WireCodec.Lowering
