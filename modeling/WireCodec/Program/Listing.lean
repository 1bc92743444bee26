import WireCodec.Program.Instr
import WireCodec.Text.Lines

/-! Programs and their listing, one instruction a line. -/
namespace WireCodec

structure Program where
  name : String
  job : Job
  code : Array (Instr Nat)
  deriving DecidableEq

namespace Instr

def place (target : Nat) : String := "@" ++ toString target

def signMark (signed : Bool) : String := if signed then "s" else "u"

def address (base : Reg) (off : UInt32) : String := s!"[{base.text}+{off}]"

def regList (regs : List Reg) : String := Text.commaList (regs.map Reg.text)

def text : Instr Nat → String
  | nop => "nop"
  | check n => s!"check {n}"
  | checkReg src => s!"check {src.text}"
  | advance n => s!"advance {n}"
  | advanceReg src => s!"advance {src.text}"
  | readInt width signed dst => s!"{dst.text} = read.{signMark signed}{width.text}"
  | writeImm width value => s!"write.{width.text} {Text.hexMarked value.toNat}"
  | writeInt width src => s!"write.{width.text} {src.text}"
  | readBytes dst len => s!"read_bytes [{dst.text}], {len.text}"
  | writeBytes src len => s!"write_bytes [{src.text}], {len.text}"
  | load width signed dst base off =>
    s!"{dst.text} = load.{signMark signed}{width.text} {address base off}"
  | store width src base off => s!"store.{width.text} {address base off}, {src.text}"
  | loadPtr dst base off => s!"{dst.text} = load_ptr {address base off}"
  | storePtr src base off => s!"store_ptr {address base off}, {src.text}"
  | seek dst src off => s!"{dst.text} = seek {src.text}, {off.toInt}"
  | zero base off len => s!"zero {address base off}, {len}"
  | movImm dst value => s!"{dst.text} = {Text.hexMarked value.toNat}"
  | mov dst src => s!"{dst.text} = {src.text}"
  | add dst a b => s!"{dst.text} = add {a.text}, {b.text}"
  | imm op dst src value => s!"{dst.text} = {op.text} {src.text}, {op.operand value}"
  | enter => "enter"
  | leave => "leave"
  | loadFrame dst slot => s!"{dst.text} = frame[{slot}]"
  | storeFrame src slot => s!"frame[{slot}] = {src.text}"
  | jump t => "jmp " ++ place t
  | branchImm cond a value t => s!"b{cond.text} {a.text}, {value.toInt}, " ++ place t
  | branchReg cond a b t => s!"b{cond.text} {a.text}, {b.text}, " ++ place t
  | switch src ts fallback =>
    s!"switch {src.text} [{Text.commaList (ts.map place)}] else {place fallback}"
  | call handle args rets =>
    (if rets.isEmpty then "" else regList rets ++ " = ") ++ s!"call #{handle}({regList args})"
  | error code => "error " ++ code.name
  | halt => "halt"

end Instr

namespace Program

def line (index : Nat) (i : Instr Nat) : String :=
  "  " ++ Text.alignRight 3 (toString index) ++ ": " ++ i.text

def title (p : Program) : String := p.job.text ++ " " ++ p.name

def listing (p : Program) : List String :=
  Text.lines (p.title ++ ":") ++ p.code.toList.mapIdx line

def branchMarks (code : List (Instr Nat)) : Array Bool :=
  (code.flatMap Instr.targets).foldl (fun marks t => marks.setIfInBounds t true)
    (Array.replicate code.length false)

end Program

end WireCodec
