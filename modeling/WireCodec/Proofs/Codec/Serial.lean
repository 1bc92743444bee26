import WireCodec.Proofs.Codec.Script
import WireCodec.Proofs.Value.Content

/-! The bytes of a content on the wire, and that writing a slot which holds the content writes
them. -/
namespace WireCodec

open Lowering List

variable {elems : List Content} {stride size : UInt32} {n data count : Nat} {e : Entry}
  {nested : Output → Visit} {slots : List Content} {fields : List FieldDesc} {field : FieldDesc} {kind : Kind}

/-- All types and all entries of maps take less than half the address range, so that distances within
them are positive as signed numbers. -/
structure Registry.Compact (known : Registry) : Prop where
  sizes : ∀ t, known.Has t → t.size.toNat < 2 ^ 31
  strides : ∀ t key elem layout, known.Has t → known.IsMap t key elem layout → layout.stride.toNat < 2 ^ 31

namespace Content

def headBytes (t : TypeDesc) (count : Nat) : List UInt8 :=
  (if t.kind = .map then [t.keyPart.kind.tag] else []) ++ [t.part.kind.tag] ++ countBytes count

def emptyBytes (t : TypeDesc) : List UInt8 :=
  if t.kind = .pointer then [Tag.stop]
  else if t.kind.isContainer then headBytes t 0
  else countBytes 0

def fieldHead (field : FieldDesc) : List UInt8 := [field.type.kind.tag] ++ beBytes 2 field.id.toUInt64

/-- Whether a field is left out: it refers to nothing and need not be there, or it has its default. -/
def isOmitted (field : FieldDesc) : Content → Bool
  | .nil => field.requiredness ≠ .required
  | .word w => field.default.any (·.bits = w)
  | _ => false

/-- Whether the entries of a container keep to the frame they are in. -/
def isFlat (t : TypeDesc) (count : Nat) : Bool :=
  count = 0 || (isSimple t.part && (t.kind ≠ .map || isSimple t.keyPart))

def isPlain (fields : List FieldDesc) : Bool := fields.all fun field => isSimple field.type

mutual
/-- The bytes of a content of a type: fields in order, each with its tag and number, up to a stop mark;
entries behind their tags and their count; numbers from the highest byte on. -/
def serial (known : Registry) (t : TypeDesc) : Content → List UInt8
  | .word w => beBytes t.size.toNat w
  | .blob data => countBytes data.length ++ data
  | .items elems => headBytes t elems.length ++ (serials known t.part elems).flatten
  | .entries keys elems => headBytes t keys.length ++
      (List.zipWith (· ++ ·) (serials known t.keyPart keys) (serials known t.part elems)).flatten
  | .record slots => (serialFields known (t.recordFields known) slots).flatten ++ [Tag.stop]
  | .nil => emptyBytes t

def serials (known : Registry) (t : TypeDesc) : List Content → List (List UInt8)
  | [] => []
  | c :: rest => serial known t c :: serials known t rest

def serialFields (known : Registry) : List FieldDesc → List Content → List (List UInt8)
  | field :: fields, c :: rest =>
    (if c.isOmitted field then [] else fieldHead field ++ serial known field.type c) :: serialFields known fields rest
  | _, _ => []
end

mutual
/-- The frames that writing a content enters: one for a record with a field that is no scalar, string or
binary, and one for a container that has entries with such a part. -/
def frames (known : Registry) (t : TypeDesc) : Content → Nat
  | .items elems => framesAll known t.part elems + if isFlat t elems.length then 0 else 1
  | .entries keys elems => max (framesAll known t.keyPart keys) (framesAll known t.part elems) +
      if isFlat t keys.length then 0 else 1
  | .record slots => framesFields known (t.recordFields known) slots +
      if isPlain (t.recordFields known) then 0 else 1
  | _ => 0

def framesAll (known : Registry) (t : TypeDesc) : List Content → Nat
  | [] => 0
  | c :: rest => max (frames known t c) (framesAll known t rest)

def framesFields (known : Registry) : List FieldDesc → List Content → Nat
  | field :: fields, c :: rest => max (frames known field.type c) (framesFields known fields rest)
  | _, _ => 0
end

mutual
/-- No set of the content has two elements that read back as equal values. -/
def NoRepeats (known : Registry) (t : TypeDesc) : Content → Prop
  | .items elems => (t.kind = .set → (values known t.part elems).Nodup) ∧ NoRepeatsAll known t.part elems
  | .entries keys elems => NoRepeatsAll known t.keyPart keys ∧ NoRepeatsAll known t.part elems
  | .record slots => NoRepeatsFields known (t.recordFields known) slots
  | _ => True

def NoRepeatsAll (known : Registry) (t : TypeDesc) : List Content → Prop
  | [] => True
  | c :: rest => NoRepeats known t c ∧ NoRepeatsAll known t rest

def NoRepeatsFields (known : Registry) : List FieldDesc → List Content → Prop
  | field :: fields, c :: rest => NoRepeats known field.type c ∧ NoRepeatsFields known fields rest
  | _, _ => True
end

def setScript (t : TypeDesc) (values : List Value) : Script :=
  if t.kind = .set ∧ ¬ values.Nodup then .stop .repeats else .print []

mutual
/-- What writing a content does with `left` frames left. -/
def script (known : Registry) (left : Nat) (t : TypeDesc) : Content → Script
  | .word w => .print (beBytes t.size.toNat w)
  | .blob data => (Script.print (countBytes data.length)).andThen (.print data)
  | .items elems => (Script.print (headBytes t elems.length)).andThen <|
      (setScript t (values known t.part elems)).andThen <|
      .framed (isFlat t elems.length) left fun left => .all (scripts known left t.part elems)
  | .entries keys elems => (Script.print (headBytes t keys.length)).andThen <|
      .framed (isFlat t keys.length) left fun left => .all
        (List.zipWith .andThen (scripts known left t.keyPart keys) (scripts known left t.part elems))
  | .record slots => .framed (isPlain (t.recordFields known)) left fun left =>
      (Script.all (scriptFields known left (t.recordFields known) slots)).andThen (.print [Tag.stop])
  | .nil => .print (emptyBytes t)

def scripts (known : Registry) (left : Nat) (t : TypeDesc) : List Content → List Script
  | [] => []
  | c :: rest => script known left t c :: scripts known left t rest

def scriptFields (known : Registry) (left : Nat) : List FieldDesc → List Content → List Script
  | field :: fields, c :: rest =>
    (if c.isOmitted field then .print []
      else (Script.print (fieldHead field)).andThen (script known left field.type c)) ::
      scriptFields known left fields rest
  | _, _ => []
end

/-! Recursions along the parts of a content tell something of each part. -/

lemma each_elem {D : List Content → Prop} {P : Content → Prop} (nil : D [])
    (cons : ∀ c rest, D (c :: rest) ↔ P c ∧ D rest) {elems : List Content} : D elems ↔ ∀ c ∈ elems, P c := by
  induction elems with
  | nil => exact iff_of_true nil nofun
  | cons c rest ih => rw [cons, ih, forall_mem_cons]

lemma each_slot {D : List FieldDesc → List Content → Prop} {P : FieldDesc → Content → Prop}
    (noFields : ∀ slots, D [] slots) (noSlots : ∀ fields, D fields [])
    (cons : ∀ field fields c slots, D (field :: fields) (c :: slots) ↔ P field c ∧ D fields slots) :
    D fields slots ↔ ∀ (i : Nat) (field : FieldDesc) c, fields[i]? = some field → slots[i]? = some c → P field c := by
  induction fields generalizing slots with
  | nil => exact iff_of_true (noFields _) nofun
  | cons field fields ih =>
    cases slots with
    | nil => exact iff_of_true (noSlots _) nofun
    | cons c rest =>
      rw [cons, ih]
      constructor
      · rintro ⟨first, others⟩ i f c' at_ held
        cases i with
        | zero =>
          cases at_
          cases held
          exact first
        | succ i => exact others i f c' at_ held
      · exact fun each => ⟨each 0 field c rfl rfl, fun i f c' at_ held => each (i + 1) f c' at_ held⟩

section Each

variable {known : Registry} {t : TypeDesc} {elems slots : List Content} {fields : List FieldDesc} {n : Nat}

lemma framesAll_le : framesAll known t elems ≤ n ↔ ∀ c ∈ elems, c.frames known t ≤ n :=
  each_elem (D := (framesAll known t · ≤ n)) (Nat.zero_le _) fun _ _ => Nat.max_le

lemma framesFields_le : framesFields known fields slots ≤ n ↔ ∀ (i : Nat) (field : FieldDesc) c,
    fields[i]? = some field → slots[i]? = some c → c.frames known field.type ≤ n :=
  each_slot (D := (framesFields known · · ≤ n)) (by simp [framesFields]) (by simp [framesFields])
    fun _ _ _ _ => Nat.max_le

lemma noRepeatsAll_iff : NoRepeatsAll known t elems ↔ ∀ c ∈ elems, c.NoRepeats known t :=
  each_elem trivial fun _ _ => Iff.rfl

lemma noRepeatsFields_iff : NoRepeatsFields known fields slots ↔ ∀ (i : Nat) (field : FieldDesc) c,
    fields[i]? = some field → slots[i]? = some c → c.NoRepeats known field.type :=
  each_slot (by simp [NoRepeatsFields]) (by simp [NoRepeatsFields]) fun _ _ _ _ => Iff.rfl

end Each

lemma serials_eq_map (known : Registry) (t : TypeDesc) (elems : List Content) :
    serials known t elems = elems.map (serial known t) := by
  induction elems with
  | nil => rfl
  | cons c rest ih => rw [serials, ih, map_cons]

lemma scripts_eq_map (known : Registry) (left : Nat) (t : TypeDesc) (elems : List Content) :
    scripts known left t elems = elems.map (script known left t) := by
  induction elems with
  | nil => rfl
  | cons c rest ih => rw [scripts, ih, map_cons]

lemma all_print (lists : List (List UInt8)) : Script.all (lists.map .print) = .print lists.flatten := by
  induction lists with
  | nil => rfl
  | cons bytes rest ih =>
    rw [map_cons, Script.all, ih]
    rfl

variable {known : Registry}

section Clean

variable {t : TypeDesc} {left need : Nat}

lemma framed_eq {isFlat : Bool} {s : Nat → Script} {r : Script} (each : ∀ k, need ≤ k → s k = r)
    (enough : need + (if isFlat then 0 else 1) ≤ left) : Script.framed isFlat left s = r := by
  cases isFlat with
  | true => exact each left enough
  | false =>
    cases left with
    | zero => cases enough
    | succ left => exact each left (Nat.le_of_succ_le_succ enough)

lemma scripts_eq (each : ∀ c ∈ elems, ∀ left, c.frames known t ≤ left →
      c.NoRepeats known t → c.script known left t = .print (c.serial known t))
    (enough : framesAll known t elems ≤ left) (good : NoRepeatsAll known t elems) :
    scripts known left t elems = (serials known t elems).map .print := by
  induction elems with
  | nil => rfl
  | cons c rest ih =>
    rw [framesAll] at enough
    rw [NoRepeatsAll] at good
    rw [scripts, serials, map_cons, each c mem_cons_self left (by omega) good.1,
      ih (fun c mem => each c (mem_cons_of_mem _ mem)) (by omega) good.2]

lemma scriptFields_eq
    (each : ∀ c ∈ slots, ∀ t left, c.frames known t ≤ left → c.NoRepeats known t →
      c.script known left t = .print (c.serial known t))
    (enough : framesFields known fields slots ≤ left) (good : NoRepeatsFields known fields slots) :
    scriptFields known left fields slots = (serialFields known fields slots).map .print := by
  induction slots generalizing fields with
  | nil => cases fields <;> rfl
  | cons c rest ih =>
    cases fields with
    | nil => rfl
    | cons field fields =>
      rw [framesFields] at enough
      rw [NoRepeatsFields] at good
      rw [scriptFields, serialFields, map_cons, each c mem_cons_self field.type left (by omega) good.1,
        ih (fun c mem => each c (mem_cons_of_mem _ mem)) (by omega) good.2]
      split <;> rfl

lemma script_eq (t : TypeDesc) (c : Content) (left : Nat) (enough : c.frames known t ≤ left)
    (good : c.NoRepeats known t) : c.script known left t = .print (c.serial known t) := by
  induction c using Content.induction generalizing t left with
  | word w => rfl
  | blob data => rfl
  | nil => rfl
  | items elems ih =>
    rw [NoRepeats] at good
    rw [frames] at enough
    have passes : setScript t (values known t.part elems) = .print [] := by
      rw [setScript, if_neg]
      exact fun repeats => repeats.2 (good.1 repeats.1)
    rw [script, passes, Script.print_nil_andThen, framed_eq (fun k enough => congrArg Script.all
      (scripts_eq (fun c mem left => ih c mem t.part left) enough good.2)) enough, all_print]
    rfl
  | entries keys elems ihKey ih =>
    rw [NoRepeats] at good
    rw [frames] at enough
    have each : ∀ k, max (framesAll known t.keyPart keys) (framesAll known t.part elems) ≤ k →
        Script.all (List.zipWith .andThen (scripts known k t.keyPart keys) (scripts known k t.part elems)) =
        .print (List.zipWith (· ++ ·) (serials known t.keyPart keys) (serials known t.part elems)).flatten := by
      intro k enough
      rw [scripts_eq (fun c mem left => ihKey c mem t.keyPart left) (by omega) good.1,
        scripts_eq (fun c mem left => ih c mem t.part left) (by omega) good.2, zipWith_map, ← all_print,
        map_zipWith]
      rfl
    rw [script, framed_eq each enough]
    rfl
  | record slots ih =>
    rw [NoRepeats] at good
    rw [frames] at enough
    rw [script, framed_eq (fun k enough => congrArg (fun s => (Script.all s).andThen (.print [Tag.stop]))
      (scriptFields_eq (fun c mem t left => ih c mem t left) enough good)) enough, all_print]
    rfl

end Clean

end Content

/-! Writing a slot plays the script of what it holds. -/

lemma each_rows {α : Type} {P : α → (Output → Act Unit) → Prop} {Q : List α → (Output → Act Unit) → Prop}
    {body : Output → UInt64 → Act Unit} (nil : Q [] fun _ => pure ())
    (cons : ∀ {a rest x y}, P a x → Q rest y → Q (a :: rest) fun out => x out >>= fun _ => y out)
    (near : stride.toNat < 2 ^ 31) {rows : List α} {base : UInt64}
    (low : base.toNat + rows.length * stride.toNat < 2 ^ 63)
    (each : ∀ i a, rows[i]? = some a → ∀ place : UInt64, place.toNat = base.toNat + i * stride.toNat →
      P a fun out => body out place) : Q rows fun out => Act.each (body out) stride rows.length base := by
  induction rows generalizing base with
  | nil => exact nil
  | cons a rest ih =>
    rw [length_cons, Nat.succ_mul] at low
    have next := @toNat_add_immWord base stride near (by omega)
    refine cons (each 0 a rfl base (by omega)) (ih (by omega) fun i a at_ place is => ?_)
    refine each (i + 1) a at_ place ?_
    rw [is, next, Nat.succ_mul]
    omega

section Fetching

variable {heap : Heap} {addr : Nat} {width : Width} {w base : UInt64} {off : UInt32} {s : Script}
  {bytes : List UInt8} {f : UInt64 → Output → Act Unit}

lemma fetch32_bind {α : Type} {g : UInt64 → Act α} {c : Scene} (is : heap.Word addr 4 n.toUInt64)
    (place : base.toNat + off.toNat = addr) (fits : n < 2 ^ 32) (small : heap.size ≤ Heap.limit) (at_ : c.heap = heap) :
    (Act.fetch .w4 base off >>= g) c = g n.toUInt64 c :=
  fetch_bind is place (by rw [toNat_toUInt64 fits]; exact fits) small at_

lemma Plays.fetch32 (plays : Plays heap s (f n.toUInt64)) (is : heap.Word addr 4 n.toUInt64)
    (place : base.toNat + off.toNat = addr) (fits : n < 2 ^ 32) (small : heap.size ≤ Heap.limit) :
    Plays heap s fun out => Act.fetch .w4 base off >>= fun v => f v out :=
  plays.congr fun _ _ at_ => fetch32_bind is place fits small at_

/-- Writing asks the first word of a reference whether it refers to anything. -/
lemma plays_reference {x : Output → Act Unit} (is : heap.Word addr 4 n.toUInt64)
    (place : base.toNat + off.toNat = addr) (fits : n < 2 ^ 32) (small : heap.size ≤ Heap.limit)
    (nil : n = 0 → Plays heap s x) (full : n ≠ 0 → Plays heap s (f n.toUInt64)) :
    Plays heap s fun out => Act.fetch .w4 base off >>= fun v => if v = 0 then x out else f v out := by
  refine Plays.fetch32 ?_ is place fits small
  by_cases none_ : n = 0
  · simp only [if_pos ((toUInt64_eq_zero fits).mpr none_)]
    exact nil none_
  · simp only [if_neg (mt (toUInt64_eq_zero fits).mp none_)]
    exact full none_

lemma Prints.fetch (prints : Prints heap bytes (f w)) (is : heap.Word addr width.bytes w)
    (place : base.toNat + off.toNat = addr) (fits : w.toNat < 256 ^ width.bytes)
    (small : heap.size ≤ Heap.limit) : Prints heap bytes fun out => Act.fetch width base off >>= fun v => f v out :=
  prints.congr fun _ _ at_ => fetch_bind is place fits small at_

end Fetching

/-- A header at `addr` that may refer to nothing. -/
structure Headed (heap : Heap) (addr data count size : Nat) : Prop where
  first : heap.Word addr 4 data.toUInt64
  second : heap.Word (addr + 4) 4 count.toUInt64
  inside : data + size ≤ heap.size
  countFits : count < 2 ^ 32

lemma HeaderAt.headed {heap : Heap} {lo hi addr size : Nat} (head : HeaderAt heap lo hi addr data count size)
    (top : hi ≤ heap.size) : Headed heap addr data count size :=
  ⟨head.first, head.second, le_trans head.high top, head.countFits⟩

namespace Writing

variable {known : Registry} {heap : Heap} {addr left : Nat} {t : TypeDesc} {base : UInt64} {off : UInt32}

lemma prints_scalar {w : UInt64} (shaped : t.Shaped) (isScalar : t.kind.isScalar = true)
    (is : heap.Word addr t.size.toNat w) (fits : w.toNat < 256 ^ t.size.toNat)
    (small : heap.size ≤ Heap.limit) (place : base.toNat + off.toNat = addr) :
    Prints heap (beBytes t.size.toNat w) fun out => scalar out true (width t) base off := by
  rw [← bytes_width shaped isScalar] at is fits ⊢
  refine (Prints.fetch (f := fun w out => int out (width t) w) (prints_int _ w) is place fits small).congr fun out c _ => ?_
  simp only [scalar, if_true]

lemma plays_scalar {w : UInt64} (shaped : t.Shaped) (isScalar : t.kind.isScalar = true)
    (is : heap.Word addr t.size.toNat w) (fits : w.toNat < 256 ^ t.size.toNat)
    (small : heap.size ≤ Heap.limit) (place : base.toNat + off.toNat = addr) :
    Plays heap (.print (beBytes t.size.toNat w)) fun out => scalar out false (width t) base off := by
  have asks : (width t).bytes.toUInt32.toUInt64.toNat = (beBytes t.size.toNat w).length := by
    rw [length_beBytes, (width_cases _).1, (width_cases _).2, bytes_width shaped isScalar]
  refine ((prints_scalar shaped isScalar is fits small place).plays_of_room asks).congr fun out c _ => ?_
  simp only [scalar, if_true, Bool.false_eq_true, if_false]

lemma plays_stopMark : Plays heap (.print [Tag.stop]) stopMark :=
  (prints_literal .w1 Tag.stop.toUInt64).plays_of_room rfl

lemma beBytes_one (b : UInt8) : beBytes 1 b.toUInt64 = [b] := by
  simp [beBytes]

lemma prints_tag (tag : UInt8) : Prints heap [tag] fun out => literal out .w1 tag.toUInt64 := by
  rw [← beBytes_one]
  exact prints_literal .w1 _

lemma plays_header (field : FieldDesc) : Plays heap (.print (Content.fieldHead field)) fun out => header out field :=
  ((prints_tag _).bind (prints_literal .w2 _)).plays_of_room (by rw [length_append, length_beBytes]; rfl)

lemma plays_blob (bytes : List UInt8) (head : Headed heap addr data bytes.length bytes.length)
    (is : heap.Spans data bytes) (small : heap.size ≤ Heap.limit) (place : base.toNat + off.toNat = addr)
    (near : off.toNat < 2 ^ 31) :
    Plays heap ((Script.print (countBytes bytes.length)).andThen (.print bytes)) fun out => blob out base off := by
  have limit : heap.size < 2 ^ 32 := Nat.lt_succ_of_le small
  have inside := head.inside
  have length := toNat_toUInt64 head.countFits
  have start := toNat_toUInt64 (show data < 2 ^ 32 by omega)
  have counted : Plays heap (.print (countBytes bytes.length)) fun out => (do
      room out 4
      int out .w4 bytes.length.toUInt64) :=
    (prints_int .w4 _).plays_of_room (by rw [length_beBytes]; rfl)
  have copied : Plays heap (.print bytes) fun out => (do
      room out bytes.length.toUInt64
      Writing.bytes out data.toUInt64 bytes.length.toUInt64) :=
    (prints_bytes length (by rwa [start]) (by rwa [start]) small).plays_of_room length
  have copied' := Plays.fetch32 (f := fun data out => (do
      room out bytes.length.toUInt64
      Writing.bytes out data bytes.length.toUInt64)) copied head.first place (by omega) small
  refine (counted.bind copied').congr fun out c at_ => ?_
  rw [blob, fetch32_bind head.second (by rw [toNat_add_four near]; omega) head.countFits small at_]
  simp only [bind_assoc]

/-! Containers. -/

lemma checkDistinct_of {read : UInt32 → Except ValueError Value} {values seen : List Value}
    (low : data + values.length * stride.toNat < 2 ^ 32)
    (each : ∀ i v, values[i]? = some v → read (data + i * stride.toNat).toUInt32 = .ok v) :
    checkDistinct read stride values.length data seen =
      if values.Nodup ∧ ∀ v ∈ values, v ∉ seen then .distinct else .duplicate := by
  induction values generalizing data seen with
  | nil => simp [checkDistinct]
  | cons v rest ih =>
    rw [length_cons, Nat.succ_mul] at low
    have fits : offset? data = some data.toUInt32 := if_pos (by omega)
    have first := each 0 v rfl
    rw [Nat.zero_mul, Nat.add_zero] at first
    rw [length_cons, checkDistinct, fits]
    simp only [first]
    by_cases met : v ∈ seen
    · rw [if_pos (List.contains_iff_mem.mpr met), if_neg]
      exact fun fresh => fresh.2 v mem_cons_self met
    · rw [if_neg (mt List.contains_iff_mem.mp met),
        ih (by omega) fun i v at_ => Holds.row_succ data i _ ▸ each (i + 1) v at_]
      congr 1
      simp only [nodup_cons, mem_cons, not_or, eq_iff_iff]
      constructor
      · rintro ⟨nodup, fresh⟩
        exact ⟨⟨fun mem => (fresh v mem).1 rfl, nodup⟩, fun u mem => mem.elim (fun same => same ▸ met)
          fun mem => (fresh u mem).2⟩
      · rintro ⟨⟨notIn, nodup⟩, fresh⟩
        exact ⟨nodup, fun u mem => ⟨fun same => notIn (same ▸ mem), fresh u (.inr mem)⟩⟩

lemma distinct_eq {elem : TypeDesc} {values : List Value} (low : data + values.length * elem.size.toNat < 2 ^ 32)
    (count : values.length < 2 ^ 32) {c : Scene} (each : ∀ i v, values[i]? = some v →
      loadValue known c.heap (data + i * elem.size.toNat).toUInt32 elem = .ok v) :
    Act.distinct known elem data.toUInt64 values.length.toUInt64 c =
      if values.Nodup then .ok () c else .error (.codec .duplicateSetElement c.pos) c := by
  have same : ∀ {n : Nat}, n < 2 ^ 32 → n.toUInt64.toUInt32.toNat = n := fun low => by
    rw [UInt64.toNat_toUInt32, toNat_toUInt64 low, Nat.mod_eq_of_lt low]
  have found : checkDistinct (loadValue known c.heap · elem) elem.size values.length.toUInt64.toUInt32.toNat
      data.toUInt64.toUInt32.toNat [] = if values.Nodup then .distinct else .duplicate := by
    rw [same count, same (by omega), checkDistinct_of low each]
    simp
  by_cases nodup : values.Nodup
  · simp only [Act.distinct, found, if_pos nodup]
  · simp only [Act.distinct, found, if_neg nodup]

lemma plays_distinct {elem : TypeDesc} {values : List Value} (low : data + values.length * elem.size.toNat < 2 ^ 32)
    (count : values.length < 2 ^ 32) (each : ∀ i v, values[i]? = some v →
      loadValue known heap (data + i * elem.size.toNat).toUInt32 elem = .ok v) :
    Plays heap (if values.Nodup then .print [] else .stop .repeats) fun _ =>
      Act.distinct known elem data.toUInt64 values.length.toUInt64 := by
  have is : ∀ c : Scene, c.heap = heap → _ := fun c at_ =>
    @distinct_eq data known elem values low count c (by rw [at_]; exact each)
  split
  · rename_i nodup
    exact plays_nothing.congr fun out c at_ => (is c at_).trans (if_pos nodup)
  · rename_i repeats
    exact (plays_stop .repeats).congr fun out c at_ => (is c at_).trans (if_neg repeats)

def entryHead (e : Entry) (count : Nat) : List UInt8 :=
  (match e.key with
    | some key => [key.kind.tag]
    | none => []) ++ [e.elem.kind.tag] ++ countBytes count

lemma prints_head (e : Entry) (count : Nat) : Prints heap (entryHead e count) fun out => (do
    keyTag out e
    literal out .w1 e.elem.kind.tag.toUInt64
    int out .w4 count.toUInt64) := by
  have keys : Prints heap (match e.key with
      | some key => [key.kind.tag]
      | none => []) fun out => keyTag out e := by
    unfold keyTag
    cases e.key with
    | none => exact prints_pure
    | some key => exact prints_tag _
  exact ((keys.bind (prints_tag _)).bind (prints_int .w4 count.toUInt64)).congr fun out c _ => by simp only [bind_assoc]

lemma plays_container {set body : Script} {entry : Output → Bool → Nat → UInt64 → Act Unit}
    (head : Headed heap addr data count n) (small : heap.size ≤ Heap.limit)
    (place : base.toNat + off.toNat = addr) (near : off.toNat < 2 ^ 31)
    (checks : Plays heap set fun _ => checkSet known kind e.elem count.toUInt64 data.toUInt64)
    (writes : Plays heap body fun out => entries out e left count.toUInt64 data.toUInt64 (entry out)) :
    Plays heap ((Script.print (entryHead e count)).andThen (set.andThen body)) fun out =>
      container known out kind e left base off (entry out) := by
  have limit : heap.size < 2 ^ 32 := Nat.lt_succ_of_le small
  have inside := head.inside
  have asks : e.headerSize.toUInt64.toNat = (entryHead e count).length := by
    rw [Entry.headerSize, entryHead, length_append, length_append, countBytes, length_beBytes]
    cases e.key <;> rfl
  refine (((prints_head e count).plays_of_room asks).bind (checks.bind writes)).congr fun out c at_ => ?_
  simp only [container, containerHead, bind_assoc]
  rw [fetch32_bind head.second (by rw [toNat_add_four near]; omega) head.countFits small at_,
    fetch32_bind head.first place (by omega) small at_]
  simp only [pure_bind]

/-- Entries are written one by one, each with its room, or with room for all of them together if they have a fixed
size. -/
lemma plays_rows (entry : Output → Bool → Nat → UInt64 → Act Unit) {ss : Nat → List Script}
    (lists : List (List UInt8)) (length : ∀ k, (ss k).length = count) (near : e.stride.toNat < 2 ^ 31)
    (small : heap.size ≤ Heap.limit) (head : Headed heap addr data count (count * e.stride.toNat))
    (loose : e.fixedSize? = none → ∀ k ≤ left, ∀ i s, (ss k)[i]? = some s → ∀ place : UInt64,
      place.toNat = data + i * e.stride.toNat → Plays heap s fun out => entry out false k place)
    (fixed : ∀ size, e.fixedSize? = some size → e.isSimple = true ∧ size.toNat ≤ 16 ∧ ss left = lists.map .print ∧
      ∀ i bytes, lists[i]? = some bytes → bytes.length = size.toNat ∧ ∀ place : UInt64,
        place.toNat = data + i * e.stride.toNat → Prints heap bytes fun out => entry out true left place) :
    Plays heap (.framed (count = 0 || e.isSimple) left fun k => .all (ss k)) fun out =>
      entries out e left count.toUInt64 data.toUInt64 (entry out) := by
  have limit : heap.size < 2 ^ 32 := Nat.lt_succ_of_le small
  have inside := head.inside
  have start := toNat_toUInt64 (show data < 2 ^ 32 by omega)
  have some_ := toNat_toUInt64 head.countFits
  by_cases zero : count = 0
  · subst zero
    have nothing : ss left = [] := eq_nil_of_length_eq_zero (length left)
    simp only [Script.framed, decide_true, Bool.true_or, if_true, nothing]
    exact plays_nothing
  have notZero := mt (toUInt64_eq_zero head.countFits).mp zero
  rcases Option.eq_none_or_eq_some e.fixedSize? with given | ⟨size, given⟩
  · have loop : ∀ k ≤ left, Plays heap (.all (ss k)) fun out =>
        Act.each (entry out false k) e.stride count.toUInt64.toNat data.toUInt64 := by
      intro k le
      rw [some_, ← length k]
      refine each_rows (P := Plays heap) (Q := fun ss => Plays heap (.all ss)) plays_nothing Plays.bind near
        (by rw [start, length]; omega) fun i s at_ place is => ?_
      exact loose given k le i s at_ place (start ▸ is)
    simp only [entries, if_neg notZero, given, entryLoop, Script.framed, decide_eq_false zero, Bool.false_or]
    by_cases simple : e.isSimple = true
    · simp only [if_pos simple]
      exact loop left le_rfl
    · simp only [if_neg simple]
      exact plays_deeper fun k low => loop k (le_of_lt low)
  · obtain ⟨simple, narrow, same, each⟩ := fixed size given
    have counted : lists.length = count := by rw [← length left, same, length_map]
    have sizes : ∀ bytes ∈ lists, bytes.length = size.toNat := by
      intro bytes mem
      obtain ⟨i, at_⟩ := mem_iff_getElem?.mp mem
      exact (each i bytes at_).1
    have total : lists.flatten.length = count * size.toNat := by
      rw [length_flatten, ← counted, map_congr_left (g := fun _ => size.toNat) sizes]
      simp
    have asks : (count.toUInt64 * immWord size.toInt32).toNat = lists.flatten.length := by
      rw [immWord_of_lt (by omega), UInt64.toNat_mul, UInt32.toNat_toUInt64, some_, total, Nat.mod_eq_of_lt]
      exact lt_of_le_of_lt (Nat.mul_le_mul (le_of_lt head.countFits) narrow) (by decide)
    have loop : Prints heap lists.flatten fun out =>
        entryLoop e left count.toUInt64 data.toUInt64 true (entry out) := by
      simp only [entryLoop, if_pos simple]
      rw [some_, ← counted]
      exact each_rows (P := Prints heap) (Q := fun lists => Prints heap lists.flatten) prints_pure Prints.bind near
        (by rw [start, counted]; omega) fun i bytes at_ place is => (each i bytes at_).2 place (start ▸ is)
    simp only [Script.framed, simple, Bool.or_true, if_true, same, Content.all_print]
    refine ⟨fun c at_ => ?_, fun c at_ small inside => ?_⟩
    · simp only [entries, if_neg notZero, given]
      rw [← UInt64.ofNat_toNat (x := count.toUInt64 * immWord size.toInt32), asks]
      rfl
    · simp only [entries, if_neg notZero, given]
      exact (loop.plays_of_room asks).write c at_ small inside

lemma value_here {nested : Visit} (out : Output) (kind : t.kind = .struct) :
    value known (fun _ => nested) out t false left base 0 = nested left t base := by
  rw [value_struct _ _ _ _ kind, nestedRecord, TypeDesc.recordType_struct kind]
  exact congrArg (nested left t) (UInt64.add_zero base)

end Writing

namespace Content

def fieldScript (known : Registry) (left : Nat) (field : FieldDesc) (c : Content) : Script :=
  if c.isOmitted field then .print [] else (Script.print (fieldHead field)).andThen (c.script known left field.type)

end Content

namespace Holds

open Content

variable {known : Registry} {heap : Heap} {lo hi addr left : Nat} {boxed : Bool} {t elem : TypeDesc} {c : Content}
  {base : UInt64} {off : UInt32}

lemma plays_simple (holds : Holds known heap lo hi false addr t c) (shaped : t.Shaped) (simple : isSimple t = true)
    (small : heap.size ≤ Heap.limit) (top : hi ≤ heap.size) (nested : Output → Visit) (left : Nat)
    (place : base.toNat + off.toNat = addr) (near : off.toNat < 2 ^ 31) : Plays heap (c.script known left t) fun out =>
    Writing.value known (fun _ => nested out) out t false left base off := by
  have kinds : t.kind.isScalar = true ∨ t.kind = .string ∨ t.kind = .binary := by
    simpa [isSimple, or_assoc] using simple
  rcases kinds with isScalar | kind
  · obtain ⟨w, rfl, at_, fits⟩ := holds.eq_word isScalar
    simp only [Writing.value_scalar _ _ _ _ isScalar]
    exact Writing.plays_scalar shaped isScalar at_ fits small place
  simp only [Writing.value_blob _ _ _ _ kind]
  cases holds with
  | noHeader _ first second =>
    have nothing : heap.Spans 0 [] := fun _ _ at_ => by cases at_
    have same : script known left t .nil = (Script.print (countBytes 0)).andThen (.print []) := by
      rw [script, emptyBytes, Script.andThen_print_nil, if_neg, if_neg]
      all_goals rcases kind with kind | kind <;> rw [kind] <;> decide
    rw [same]
    exact Writing.plays_blob [] ⟨first, second, Nat.zero_le _, by decide⟩ nothing small place near
  | blob data _ head at_ => exact Writing.plays_blob _ (head.headed top) at_ small place near
  | word isScalar => exact absurd isScalar (by rcases kind with kind | kind <;> rw [kind] <;> decide)
  | items _ is => rcases is.kind with kind' | kind' <;> rcases kind with kind | kind <;> cases kind.symm.trans kind'
  | entries _ is => rcases kind with kind | kind <;> cases kind.symm.trans is.kind
  | noTarget kind' | record kind' | target _ kind' => rcases kind with kind | kind <;> cases kind.symm.trans kind'

lemma omits_reference (holds : Holds known heap lo hi false addr field.type c) (limit : hi < 2 ^ 32)
    (refers : field.type.kind.hasHeader = true ∨ field.type.kind = .pointer) :
    c.isOmitted field = (c.isNil && decide (field.requiredness ≠ .required)) ∧
      ∃ n : Nat, heap.Word addr 4 n.toUInt64 ∧ n < 2 ^ 32 ∧ (n = 0 ↔ c.isNil = true) := by
  refine ⟨?_, holds.firstWord refers limit⟩
  have suits := holds.suits
  cases c with
  | word w => exact absurd suits (by rw [Suits]; revert refers; cases field.type.kind <;> decide)
  | nil => simp [isOmitted, isNil]
  | _ => rfl

lemma plays_field
    (holds : Holds known heap lo hi false (base.toNat + field.offset.toNat) field.type c) (shaped : field.type.Shaped)
    (inPlace : field.isBoxed = false) (small : heap.size ≤ Heap.limit) (top : hi ≤ heap.size)
    (inner : Plays heap (c.script known left field.type) fun out =>
      Writing.value known (fun _ => nested out) out field.type false left base field.offset) :
    Plays heap (fieldScript known left field c) fun out => Writing.field known (fun _ => nested out) out field left base := by
  have limit : hi < 2 ^ 32 := Nat.lt_succ_of_le (le_trans top small)
  have both := (Writing.plays_header field).bind inner
  rcases field.type.kind.form with isScalar | hasHeader | kind | kind
  · obtain ⟨w, rfl, at_, fits⟩ := holds.eq_word isScalar
    simp only [Writing.value_scalar _ _ _ _ isScalar] at both
    simp only [Writing.field_scalar left base (by rw [inPlace]; nofun) isScalar, fieldScript, isOmitted, Writing.scalarField]
    rcases Option.eq_none_or_eq_some field.default with given | ⟨d, given⟩
    · simp only [given, Option.any_none, Bool.false_eq_true, if_false]
      exact both
    · rw [← Writing.bytes_width shaped isScalar] at at_ fits
      simp only [given, Option.any_some, decide_eq_true_eq]
      by_cases default : d.bits = w
      · rw [if_pos default]
        refine plays_nothing.congr fun out c heap_ => ?_
        rw [fetch_bind at_ rfl fits small heap_, if_pos default.symm]
      · rw [if_neg default]
        refine both.congr fun out c heap_ => ?_
        rw [fetch_bind at_ rfl fits small heap_, if_neg (Ne.symm default)]
  · obtain ⟨omits, n, first, low, zero⟩ := holds.omits_reference limit (.inl hasHeader)
    simp only [Writing.field_header left base hasHeader, Writing.headerField, fieldScript, omits]
    by_cases required : field.requiredness = .required
    · simp only [required, ne_eq, not_true_eq_false, decide_false, Bool.and_false, Bool.false_eq_true, if_false]
      exact both
    · simp only [required, if_false, ne_eq, not_false_eq_true, decide_true, Bool.and_true]
      refine plays_reference first rfl low small (fun none_ => ?_) fun some_ => ?_
      · rw [if_pos (zero.mp none_)]
        exact plays_nothing
      · rw [if_neg (mt zero.mpr some_)]
        exact both
  · obtain ⟨slots, rfl⟩ := holds.eq_record kind
    simp only [Writing.value_struct _ _ _ _ kind] at both
    simp only [Writing.field_struct left base kind]
    exact both
  · obtain ⟨omits, n, first, low, zero⟩ := holds.omits_reference limit (.inr kind)
    simp only [Writing.field_pointer left base kind, Writing.pointerField, fieldScript, omits]
    simp only [Writing.value_pointer _ _ _ _ kind] at inner
    have value : Plays heap (c.script known left field.type) fun out =>
        if n.toUInt64 = 0 then Writing.stopMark out
        else Writing.nestedRecord known (fun _ => nested out) field.type left n.toUInt64 :=
      inner.congr fun out c heap_ => by rw [fetch32_bind first rfl low small heap_]
    refine plays_reference first rfl low small (fun none_ => ?_) fun some_ => ?_
    · simp only [if_pos ((toUInt64_eq_zero low).mpr none_)] at value
      by_cases required : field.requiredness = .required
      · simp only [required, ne_eq, not_true_eq_false, decide_false, Bool.and_false, Bool.false_eq_true, if_false, if_true]
        exact (Writing.plays_header field).bind value
      · simp only [zero.mp none_, ne_eq, required, not_false_eq_true, decide_true, Bool.and_true, if_true, if_false]
        exact plays_nothing
    · simp only [if_neg (mt (toUInt64_eq_zero low).mp some_)] at value
      simp only [mt zero.mpr some_, Bool.false_and, Bool.false_eq_true, if_false]
      exact (Writing.plays_header field).bind value

lemma plays_boxed (holds : Holds known heap lo hi true (base.toNat + field.offset.toNat) field.type c)
    (shaped : field.type.Shaped) (boxed : field.isBoxed = true) (small : heap.size ≤ Heap.limit)
    (top : hi ≤ heap.size) (nested : Output → Visit) (left : Nat) :
    Plays heap (fieldScript known left field c) fun out => Writing.field known (fun _ => nested out) out field left base := by
  have limit : hi < 2 ^ 32 := Nat.lt_succ_of_le (le_trans top small)
  have optional : field.requiredness = .optional ∧ field.default = none := by
    simp only [Field.isBoxed, Bool.and_eq_true, decide_eq_true_eq, Option.isNone_iff_eq_none] at boxed
    exact boxed.1
  simp only [Writing.field, if_pos boxed, Writing.boxedField, fieldScript]
  cases holds with
  | noCell at_ =>
    simp only [isOmitted, optional.1, ne_eq, reduceCtorEq, not_false_eq_true, decide_true, if_true]
    exact plays_reference (n := 0) at_ rfl (by decide) small (fun _ => plays_nothing) fun some_ => absurd rfl some_
  | @cell _ _ w data at_ some_ low high isScalar inner fits =>
    have start := toNat_toUInt64 (show data < 2 ^ 32 by omega)
    simp only [isOmitted, optional.2, Option.any_none, Bool.false_eq_true, if_false]
    exact plays_reference at_ rfl (by omega) small (fun none_ => absurd none_ some_) fun _ =>
      (Writing.plays_header field).bind (Writing.plays_scalar shaped isScalar inner fits small (by rw [start]; rfl))

lemma plays_fields (length : slots.length = fields.length)
    (each : ∀ (i : Nat) (field : FieldDesc) c, fields[i]? = some field → slots[i]? = some c →
      Plays heap (fieldScript known left field c) fun out => Writing.field known (fun _ => nested out) out field left base) :
    Plays heap (.all (scriptFields known left fields slots)) fun out =>
      Writing.fields known (fun _ => nested out) out left base fields := by
  induction fields generalizing slots with
  | nil =>
    cases slots with
    | nil => exact plays_nothing
    | cons => cases length
  | cons field rest ih =>
    cases slots with
    | nil => cases length
    | cons c others =>
      exact (each 0 field c rfl rfl).bind (ih (Nat.succ.inj length) fun i f c at_ held => each (i + 1) f c at_ held)

lemma length_values (elems : List Content) : (values known t elems).length = elems.length := by
  rw [values_eq_map, length_map]

lemma prints_value (holds : Holds known heap lo hi false addr t c) (shaped : t.Shaped)
    (isScalar : t.kind.isScalar = true) (small : heap.size ≤ Heap.limit) (nested : Output → Visit) (left : Nat)
    (place : base.toNat + off.toNat = addr) : Prints heap (c.serial known t) fun out => Writing.value known (fun _ => nested out)
    out t true left base off := by
  obtain ⟨w, rfl, at_, fits⟩ := holds.eq_word isScalar
  simp only [Writing.value_scalar _ _ _ _ isScalar]
  exact Writing.prints_scalar shaped isScalar at_ fits small place

lemma isScalar_of_scalarSize? (given : kind.scalarSize? = some size) : kind.isScalar = true := by
  rw [Kind.isScalar, given]
  rfl

lemma scalarSize?_le (given : kind.scalarSize? = some size) : size.toNat ≤ 8 := by
  cases kind <;> cases given <;> decide

lemma script_scalar (holds : Holds known heap lo hi false addr t c) (shaped : t.Shaped)
    (given : t.kind.scalarSize? = some size) :
    (∀ left, c.script known left t = .print (c.serial known t)) ∧ (c.serial known t).length = size.toNat := by
  have isScalar := isScalar_of_scalarSize? given
  obtain ⟨_, _, _, same⟩ := shaped.width isScalar
  obtain ⟨w, rfl, -⟩ := holds.eq_word isScalar
  exact ⟨fun _ => rfl, by rw [serial, length_beBytes, Option.some.inj (given.symm.trans same)]⟩

lemma plays_items (usable : known.Usable) (compact : known.Compact) (is : known.IsSequence t elem)
    (head : Headed heap addr data elems.length (elems.length * elem.size.toNat))
    (small : heap.size ≤ Heap.limit) (top : hi ≤ heap.size) (place : base.toNat + off.toNat = addr)
    (near : off.toNat < 2 ^ 31)
    (each : ∀ i c, elems[i]? = some c → Holds known heap lo hi false (data + i * elem.size.toNat) elem c)
    (plays : ∀ k ≤ left, ∀ i c, elems[i]? = some c → ∀ place : UInt64, place.toNat = data + i * elem.size.toNat →
      Plays heap (c.script known k elem) fun out => Writing.value known (fun _ => nested out) out elem false k place 0) :
    Plays heap (script known left t (.items elems)) fun out =>
      Writing.value known (fun _ => nested out) out t false left base off := by
  have limit : heap.size < 2 ^ 32 := Nat.lt_succ_of_le small
  have inside := head.inside
  have shaped := usable.sound.shaped elem is.hasElem
  have part := is.part
  have notMap : t.kind ≠ .map := by rcases is.kind with kind | kind <;> rw [kind] <;> decide
  have checks : Plays heap (setScript t (values known elem elems)) fun _ =>
      Writing.checkSet known t.kind elem elems.length.toUInt64 data.toUInt64 := by
    unfold Writing.checkSet setScript
    by_cases set : t.kind = .set
    · have loads : ∀ i v, (values known elem elems)[i]? = some v →
          loadValue known heap (data + i * elem.size.toNat).toUInt32 elem = .ok v := by
        intro i v at_
        rw [values_eq_map, getElem?_map, Option.map_eq_some_iff] at at_
        obtain ⟨c, at_, rfl⟩ := at_
        have := mul_add_le (List.getElem?_eq_some_iff.mp at_).1 elem.size.toNat
        exact loadValue_of usable (each i c at_) is.hasElem small top (by omega)
      have plays := Writing.plays_distinct (by rw [length_values]; omega) (length_values elems ▸ head.countFits) loads
      rw [length_values] at plays
      simp only [set, true_and, ite_not]
      exact plays
    · simp only [set, false_and, if_false]
      exact plays_nothing
  have writes : Plays heap (.framed (isFlat t elems.length) left fun left => .all (scripts known left elem elems))
      fun out => Writing.entries out (.ofList elem) left elems.length.toUInt64 data.toUInt64 fun reserved left base =>
        Writing.value known (fun _ => nested out) out elem reserved left base 0 := by
    have flat : isFlat t elems.length = (elems.length = 0 || (Entry.ofList elem).isSimple) := by
      simp [isFlat, part, notMap, Entry.ofList, Entry.isSimple]
    rw [flat]
    refine Writing.plays_rows (fun out reserved left base =>
      Writing.value known (fun _ => nested out) out elem reserved left base 0) (serials known elem elems) (fun k => by rw [scripts_eq_map, length_map])
      (compact.sizes elem is.hasElem) small head (fun _ k le i s at_ place is => ?_) fun size given => ?_
    · rw [scripts_eq_map, getElem?_map, Option.map_eq_some_iff] at at_
      obtain ⟨c, at_, rfl⟩ := at_
      exact plays k le i c at_ place is
    · have isScalar : elem.kind.isScalar = true := isScalar_of_scalarSize? given
      have prints : ∀ {i : Nat} {c : Content}, elems[i]? = some c → _ := fun at_ => (each _ _ at_).script_scalar shaped given
      refine ⟨by simp [Entry.isSimple, Entry.ofList, isSimple, isScalar],
        le_trans (scalarSize?_le given) (by decide), ?_, fun i bytes at_ => ?_⟩
      · rw [scripts_eq_map, serials_eq_map, map_map]
        refine map_congr_left fun c mem => ?_
        obtain ⟨i, at_⟩ := mem_iff_getElem?.mp mem
        exact (prints at_).1 left
      · rw [serials_eq_map, getElem?_map, Option.map_eq_some_iff] at at_
        obtain ⟨c, at_, rfl⟩ := at_
        exact ⟨(prints at_).2, fun place is =>
          (each i c at_).prints_value shaped isScalar small _ left (by rw [is]; rfl)⟩
  have headIs : headBytes t elems.length = Writing.entryHead (.ofList elem) elems.length := by
    simp [headBytes, Writing.entryHead, Entry.ofList, notMap, part]
  simp only [Writing.value_sequence _ _ _ _ is]
  rw [script, headIs, part]
  exact Writing.plays_container head small place near checks writes

lemma plays_entries {keys : List Content} {key : TypeDesc} {layout : TypeDesc.EntryLayout} (usable : known.Usable)
    (compact : known.Compact) (has : known.Has t) (is : known.IsMap t key elem layout)
    (length : elems.length = keys.length)
    (head : Headed heap addr data keys.length (keys.length * layout.stride.toNat))
    (small : heap.size ≤ Heap.limit) (place : base.toNat + off.toNat = addr) (near : off.toNat < 2 ^ 31)
    (eachKey : ∀ i c, keys[i]? = some c → Holds known heap lo hi false (data + i * layout.stride.toNat) key c)
    (each : ∀ i c, elems[i]? = some c →
      Holds known heap lo hi false (data + i * layout.stride.toNat + layout.valueOffset.toNat) elem c)
    (playsKey : ∀ k ≤ left, ∀ i c, keys[i]? = some c → ∀ place : UInt64, place.toNat = data + i * layout.stride.toNat →
      Plays heap (c.script known k key) fun out => Writing.value known (fun _ => nested out) out key false k place 0)
    (plays : ∀ k ≤ left, ∀ i c, elems[i]? = some c → ∀ place : UInt64,
      place.toNat = data + i * layout.stride.toNat → Plays heap (c.script known k elem) fun out =>
        Writing.value known (fun _ => nested out) out elem false k place layout.valueOffset) :
    Plays heap (script known left t (.entries keys elems)) fun out =>
      Writing.value known (fun _ => nested out) out t false left base off := by
  have shapedKey := usable.sound.shaped key is.hasKey
  have shaped := usable.sound.shaped elem is.hasElem
  have part := is.part
  have keyPart := is.keyPart
  let e : Entry := ⟨some key, elem, layout.valueOffset, layout.stride⟩
  have writes : Plays heap (.framed (isFlat t keys.length) left fun left => .all
      (List.zipWith .andThen (scripts known left key keys) (scripts known left elem elems))) fun out =>
        Writing.entries out e left keys.length.toUInt64 data.toUInt64 fun reserved left base => (do
          Writing.value known (fun _ => nested out) out key reserved left base 0
          Writing.value known (fun _ => nested out) out elem reserved left base layout.valueOffset) := by
    have flat : isFlat t keys.length = (keys.length = 0 || e.isSimple) := by
      simp [isFlat, part, keyPart, is.kind, e, Entry.isSimple]
    rw [flat]
    refine Writing.plays_rows (fun out reserved left base => (do
        Writing.value known (fun _ => nested out) out key reserved left base 0
        Writing.value known (fun _ => nested out) out elem reserved left base layout.valueOffset))
      (List.zipWith (· ++ ·) (serials known key keys) (serials known elem elems))
      (fun k => by simp only [length_zipWith, scripts_eq_map, length_map, length, Nat.min_self])
      (compact.strides t key elem layout has is) small head (fun _ k le i s at_ place is => ?_) fun size given => ?_
    · simp only [scripts_eq_map, getElem?_zipWith_eq_some, getElem?_map, Option.map_eq_some_iff] at at_
      obtain ⟨_, _, ⟨c, atKey, rfl⟩, ⟨c', atElem, rfl⟩, rfl⟩ := at_
      exact (playsKey k le i c atKey place is).bind (plays k le i c' atElem place is)
    · obtain ⟨keySize, elemSize, givenKey, givenElem, sum⟩ : ∃ a b, key.kind.scalarSize? = some a ∧
          elem.kind.scalarSize? = some b ∧ a + b = size := by
        simpa [e, Entry.fixedSize?, Option.bind_eq_some_iff] using given
      have isScalarKey := isScalar_of_scalarSize? givenKey
      have isScalar := isScalar_of_scalarSize? givenElem
      have narrowKey := scalarSize?_le givenKey
      have narrowElem := scalarSize?_le givenElem
      have total : size.toNat = keySize.toNat + elemSize.toNat := by
        rw [← sum, UInt32.toNat_add, Nat.mod_eq_of_lt (by omega)]
      refine ⟨by simp [Entry.isSimple, e, isSimple, isScalar, isScalarKey], by omega, ?_, fun i bytes at_ => ?_⟩
      · refine ext_getElem? fun i => ?_
        simp only [scripts_eq_map, serials_eq_map, map_zipWith, zipWith_map, getElem?_zipWith]
        cases atKey : keys[i]? with
        | none => rfl
        | some k =>
          cases at_ : elems[i]? with
          | none => rfl
          | some c =>
            simp only [((eachKey i k atKey).script_scalar shapedKey givenKey).1,
              ((each i c at_).script_scalar shaped givenElem).1]
            rfl
      · simp only [serials_eq_map, getElem?_zipWith_eq_some, getElem?_map, Option.map_eq_some_iff] at at_
        obtain ⟨_, _, ⟨k, atKey, rfl⟩, ⟨c, at_, rfl⟩, rfl⟩ := at_
        have holdsKey := eachKey i k atKey
        have holds := each i c at_
        refine ⟨?_, fun place is => (holdsKey.prints_value shapedKey isScalarKey small _ left (by rw [is]; rfl)).bind
          (holds.prints_value shaped isScalar small _ left (by rw [is]))⟩
        rw [length_append, (holdsKey.script_scalar shapedKey givenKey).2, (holds.script_scalar shaped givenElem).2, total]
  have headIs : headBytes t keys.length = Writing.entryHead e keys.length := by
    simp [headBytes, Writing.entryHead, e, is.kind, part, keyPart]
  have checks : Plays heap (.print []) fun _ =>
      Writing.checkSet known t.kind elem keys.length.toUInt64 data.toUInt64 := by
    simp only [Writing.checkSet, is.kind, reduceCtorEq, if_false]
    exact plays_nothing
  simp only [Writing.value_map _ _ _ _ is]
  rw [script, headIs, part, keyPart]
  exact Writing.plays_container head small place near checks writes

lemma plays_record {depth : Nat} (usable : known.Usable) (compact : known.Compact)
    (has : known.Has t) (kind : t.kind = .struct) (length : slots.length = t.fields.length)
    (small : heap.size ≤ Heap.limit) (top : hi ≤ heap.size) (low : left ≤ depth)
    (each : ∀ (i : Nat) (field : FieldDesc) c, t.fields[i]? = some field → slots[i]? = some c →
      Holds known heap lo hi field.isBoxed (base.toNat + field.offset.toNat) field.type c)
    (plays : ∀ k < depth, ∀ (i : Nat) (field : FieldDesc) c, t.fields[i]? = some field → slots[i]? = some c →
      field.isBoxed = false → field.offset.toNat < 2 ^ 31 → Plays heap (c.script known k field.type) fun out =>
        Writing.value known (fun _ => Writing.walk known out depth) out field.type false k base field.offset) :
    Plays heap (script known left t (.record slots)) fun out => Writing.walk known out (depth + 1) left t base := by
  have shaped := usable.sound.shaped t has
  have sizeFits := compact.sizes t has
  have body : ∀ k, (∀ field ∈ t.fields, isSimple field.type = true) ∨ k < depth → Plays heap
      ((Script.all (scriptFields known k t.fields slots)).andThen (.print [Tag.stop])) fun out => (do
        Writing.fields known (fun _ => Writing.walk known out depth) out k base t.fields
        Writing.stopMark out) := by
    intro k fits
    refine (plays_fields length fun i field c at_ held => ?_).bind Writing.plays_stopMark
    have mem := mem_of_getElem? at_
    have shapedField := usable.sound.shaped _ (usable.sound.field has mem)
    have inside := shaped.laidOut.inside field mem
    have slot := each i field c at_ held
    by_cases isBoxed : field.isBoxed = true
    · rw [isBoxed] at slot
      exact slot.plays_boxed shapedField isBoxed small top _ k
    · have plain : field.isBoxed = false := by simpa using isBoxed
      have near : field.offset.toNat < 2 ^ 31 := by omega
      rw [plain] at slot
      refine slot.plays_field shapedField plain small top ?_
      rcases fits with simple | low
      · exact slot.plays_simple shapedField (simple field mem) small top _ k rfl near
      · exact plays k low i field c at_ held plain near
  change Plays heap _ fun out => Writing.record known (fun _ => Writing.walk known out depth) out left t base
  have framed : Writing.isFramed t = !isPlain t.fields := by
    simp [Writing.isFramed, isPlain, not_all_eq_any_not]
  simp only [script, TypeDesc.recordFields_struct kind, Writing.record, framed, Script.framed, Bool.not_eq_true']
  by_cases plain : isPlain t.fields = true
  · simp only [plain, if_true, Bool.true_eq_false, if_false]
    exact body left (.inl (by simpa [isPlain] using plain))
  · simp only [plain, Bool.false_eq_true, if_false, if_true]
    exact plays_deeper fun k low' => body k (.inr (by omega))

lemma plays_empty (usable : known.Usable) (compact : known.Compact) (has : known.Has t)
    (isContainer : t.kind.isContainer = true) (first : heap.Word addr 4 0) (second : heap.Word (addr + 4) 4 0)
    (small : heap.size ≤ Heap.limit) (place : base.toNat + off.toNat = addr) (near : off.toNat < 2 ^ 31) :
    Plays heap (script known left t .nil) fun out => Writing.value known (fun _ => nested out) out t false left base off := by
  have notPointer : t.kind ≠ .pointer := fun kind => by
    rw [kind] at isContainer
    cases isContainer
  have empty : script known left t .nil = .print (headBytes t 0) := by
    rw [script, emptyBytes, if_neg notPointer, if_pos isContainer]
  by_cases map : t.kind = .map
  · obtain ⟨key, elem, layout, is⟩ := usable.sound.map usable.entries has map
    have same : script known left t (.entries [] []) = .print (headBytes t 0) := by
      simp [script, scripts, Script.framed, isFlat, Script.all, Script.print, Script.andThen]
    rw [empty, ← same]
    exact @plays_entries [] 0 _ _ _ 0 0 _ _ _ _ _ _ [] _ _ usable compact has is rfl ⟨first, second, by simp, by decide⟩
      small place near (by simp) (by simp) (by simp) (by simp)
  · obtain ⟨elem, is⟩ := usable.sound.sequence has
      (by cases kind : t.kind <;> rw [kind] at isContainer <;> simp_all [Kind.isContainer])
    have same : script known left t (.items []) = .print (headBytes t 0) := by
      simp [script, scripts, values, setScript, Script.framed, isFlat, Script.all, Script.print, Script.andThen]
    rw [empty, ← same]
    exact @plays_items [] 0 _ _ _ 0 0 _ _ _ _ _ _ usable compact is ⟨first, second, by simp, by decide⟩ small
      (Nat.zero_le _) place near (by simp) (by simp)

/-- Writing a value plays the script of what its slot holds. -/
lemma plays {depth : Nat} (usable : known.Usable) (compact : known.Compact)
    (holds : Holds known heap lo hi boxed addr t c) (has : known.Has t) (small : heap.size ≤ Heap.limit)
    (top : hi ≤ heap.size) (inside : addr + slotSize boxed t ≤ heap.size) (plain : boxed = false) (low : left < depth)
    (place : base.toNat + off.toNat = addr) (near : off.toNat < 2 ^ 31) : Plays heap (c.script known left t) fun out =>
      Writing.value known (fun _ => Writing.walk known out depth) out t false left base off := by
  have limit : hi < 2 ^ 32 := Nat.lt_succ_of_le (le_trans top small)
  have whole := holds
  induction holds generalizing depth left base off with
  | noCell => cases plain
  | cell => cases plain
  | word isScalar =>
    exact whole.plays_simple (usable.sound.shaped _ has) (by simp [isSimple, isScalar]) small top _ left place near
  | @noHeader addr t hasHeader first second =>
    by_cases simple : isSimple t = true
    · exact whole.plays_simple (usable.sound.shaped t has) simple small top _ left place near
    · refine plays_empty usable compact has ?_ first second small place near
      cases kind : t.kind <;> rw [kind] at hasHeader <;> simp_all [isSimple, Kind.hasHeader, Kind.isContainer]
  | @noTarget addr t kind at_ =>
    simp only [Writing.value_pointer _ _ _ _ kind]
    rw [script, emptyBytes, if_pos kind]
    exact plays_reference (n := 0) at_ place (by decide) small (fun _ => Writing.plays_stopMark) fun some_ =>
      absurd rfl some_
  | blob _ kind =>
    exact whole.plays_simple (usable.sound.shaped _ has) (by rcases kind with kind | kind <;> simp [isSimple, kind]) small
      top _ left place near
  | items data is head each ih =>
    exact plays_items usable compact is (head.headed top) small top place near each fun k le i c at_ place is' =>
      ih i c at_ is.hasElem (le_trans (elem_inside head at_).2 top) rfl (lt_of_le_of_lt le low)
        (by rw [is']; rfl) (by decide) (each i c at_)
  | @entries addr t key elem layout keys elems data is length head eachKey each ihKey ih =>
    have bounds := TypeDesc.EntryLayout.bounds is.layout?
    have strideFits := compact.strides t key elem layout has is
    refine plays_entries usable compact has is length (head.headed top) small place near eachKey each
      (fun k le i c at_ place is' => ?_) fun k le i c at_ place is' => ?_
    · exact ihKey i c at_ is.hasKey (le_trans (key_inside is head (List.getElem?_eq_some_iff.mp at_).1).2 top) rfl
        (lt_of_le_of_lt le low) (by rw [is']; rfl) (by decide) (eachKey i c at_)
    · have room := value_inside is head (length ▸ (List.getElem?_eq_some_iff.mp at_).1)
      exact ih i c at_ is.hasElem (le_trans room.2 top) rfl (lt_of_le_of_lt le low) (by rw [is']) (by omega)
        (each i c at_)
  | @record addr t slots kind length each ih =>
    obtain ⟨depth, rfl⟩ := Nat.exists_eq_add_of_lt low
    have sizeFits : addr + t.size.toNat ≤ heap.size := inside
    have start : (base + immWord off.toInt32).toNat = addr := by
      unfold Heap.limit at small
      rw [toNat_add_immWord near (by omega), place]
    simp only [Writing.value_struct _ _ _ _ kind, Writing.nestedRecord, TypeDesc.recordType_struct kind]
    refine plays_record usable compact has kind length small top (by omega) (by rwa [start])
      fun k low i field c at_ held inPlace near => ?_
    have mem := mem_of_getElem? at_
    exact ih i field c at_ held (usable.sound.field has mem) (le_trans (slot_inside usable.sound has mem addr) inside)
      inPlace low (by rw [start]) near (each i field c at_ held)
  | @target addr t record slots data kind isRecord at_ some_ first last inner ih =>
    have struct := usable.recordType_kind has isRecord
    simp only [Writing.value_pointer _ _ _ _ kind, Writing.nestedRecord, isRecord]
    rw [script, TypeDesc.recordFields_target isRecord (.inl struct), ← script]
    refine plays_reference at_ place (by omega) small (fun none_ => absurd none_ some_) fun _ => ?_
    have plays := @ih left data.toUInt64 0 depth (usable.sound.recordType has isRecord) (le_trans last top) rfl low
      (toNat_toUInt64 (by omega)) (by decide) inner
    simpa only [Writing.value_here _ struct] using plays

end Holds

end WireCodec
