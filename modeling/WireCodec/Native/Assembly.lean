import WireCodec.Native.Op

/-! Assembly of code: instructions and labels in order. A label stands at the sum of the
sizes before it, and a jump holds the distance from its own end to its label. -/
namespace WireCodec.Native

inductive Item
  | mark (label : Label)
  | op (op : Op)
  deriving DecidableEq

def ops : List Op → List Item := List.map .op

def Item.size : Item → Nat
  | mark _ => 0
  | op o => o.size

def placesFrom (start : Nat) : List Item → List (Label × Nat)
  | [] => []
  | .mark label :: rest => (label, start) :: placesFrom start rest
  | .op o :: rest => placesFrom (start + o.size) rest

def distance (target stop : Nat) : UInt32 := target.toUInt32 - stop.toUInt32

def bytesFrom (place : Label → Nat) (start : Nat) : List Item → List UInt8
  | [] => []
  | .mark _ :: rest => bytesFrom place start rest
  | .op o :: rest =>
    let stop := start + o.size
    o.encode (fun label => distance (place label) stop) ++ bytesFrom place stop rest

def unplaced? (places : List (Label × Nat)) (items : List Item) : Option Label :=
  (items.filterMap fun item => match item with
    | .op o => o.target?
    | .mark _ => none).find? fun label => (places.lookup label).isNone

def assemble (items : List Item) : Except CompileError (List UInt8) :=
  let places := placesFrom 0 items
  match unplaced? places items with
  | some _ => .error (.emission "a jump leads to no place")
  | none => .ok (bytesFrom (fun label => (places.lookup label).getD 0) 0 items)

end WireCodec.Native
