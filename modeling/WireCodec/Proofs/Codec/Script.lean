import WireCodec.Proofs.Codec.Consumption

/-! What writing and counting have in common. A script lists the bytes that are written and the error
that follows them, if any. Counting moves past as many bytes, and writing puts them on the wire, unless
the wire ends before. -/
namespace WireCodec

open Lowering List

variable {c : Scene}

/-- What can end a script: a want of frames, or equal elements in a set. -/
inductive Obstacle
  | depth
  | repeats

def Obstacle.code : Obstacle → ErrorCode
  | .depth => .nestingOverflow
  | .repeats => .duplicateSetElement

/-- Bytes, and what is in the way behind them. -/
structure Script where
  bytes : List UInt8
  error : Option Obstacle

namespace Script

def print (bytes : List UInt8) : Script := ⟨bytes, none⟩

def stop (o : Obstacle) : Script := ⟨[], some o⟩

def andThen (s s' : Script) : Script :=
  match s.error with
  | none => ⟨s.bytes ++ s'.bytes, s'.error⟩
  | some _ => s

def deeper : Nat → (Nat → Script) → Script
  | 0, _ => stop .depth
  | left + 1, s => s left

def framed (isFlat : Bool) (left : Nat) (s : Nat → Script) : Script :=
  if isFlat then s left else deeper left s

def all : List Script → Script
  | [] => print []
  | s :: rest => s.andThen (all rest)

lemma print_nil_andThen (s : Script) : (print []).andThen s = s := rfl

lemma andThen_print_nil (s : Script) : s.andThen (print []) = s := by
  obtain ⟨bytes, error⟩ := s
  cases error with
  | none => simp [andThen, print]
  | some code => rfl

def ending (s : Script) (c : Scene) : EStateM.Result Trouble Scene Unit :=
  match s.error with
  | none => .ok () c
  | some o => .error (.codec o.code c.pos) c

end Script

namespace Scene

lemma put_nil (c : Scene) : c.put [] = c := by
  obtain ⟨wire, pos, heap, barrier, stores⟩ := c
  simp [put, patch]

lemma toNat_pos_put {data : List UInt8} (small : c.wire.size < 2 ^ 64)
    (fits : c.pos.toNat + data.length ≤ c.wire.size) : (c.put data).pos.toNat = c.pos.toNat + data.length := by
  have length : data.length.toUInt64.toNat = data.length := by
    simp only [Nat.toUInt64_eq, UInt64.toNat_ofNat']
    omega
  change (c.pos + data.length.toUInt64).toNat = _
  rw [UInt64.toNat_add, length, Nat.mod_eq_of_lt (by omega)]

lemma size_put (c : Scene) (data : List UInt8) : (c.put data).wire.size = c.wire.size := size_patch _ _ _

lemma put_put {a b : List UInt8} (small : c.wire.size < 2 ^ 64)
    (fits : c.pos.toNat + a.length ≤ c.wire.size) : (c.put a).put b = c.put (a ++ b) := by
  have place := toNat_pos_put small fits
  unfold put at place ⊢
  simp only at place ⊢
  rw [place, ← patch_append, length_append]
  simp only [Nat.toUInt64_eq, UInt64.ofNat_add, UInt64.add_assoc]

lemma move_move (c : Scene) (a b : Nat) : (c.move a.toUInt64).move b.toUInt64 = c.move (a + b).toUInt64 := by
  unfold move
  simp only [Nat.toUInt64_eq, UInt64.ofNat_add, UInt64.add_assoc]

end Scene

/-- The action prints bytes, given room for them. -/
structure Prints (heap : Heap) (bytes : List UInt8) (x : Output → Act Unit) : Prop where
  count : ∀ c : Scene, c.heap = heap → x .count c = .ok () (c.move bytes.length.toUInt64)
  write : ∀ c : Scene, c.heap = heap → c.wire.size < 2 ^ 64 →
    c.pos.toNat + bytes.length ≤ c.wire.size → x .write c = .ok () (c.put bytes)

/-- What writing a script gives: all of it, or a part that the wire has room for. -/
def Script.Written (s : Script) (c : Scene) (r : EStateM.Result Trouble Scene Unit) : Prop :=
  (c.pos.toNat + s.bytes.length ≤ c.wire.size → r = s.ending (c.put s.bytes)) ∧
  (c.wire.size < c.pos.toNat + s.bytes.length → ∃ k < s.bytes.length, c.pos.toNat + k ≤ c.wire.size ∧
    r = .error (.codec .bufferTooSmall (c.put (s.bytes.take k)).pos) (c.put (s.bytes.take k)))

/-- The action plays a script, counting or writing. -/
structure Plays (heap : Heap) (s : Script) (x : Output → Act Unit) : Prop where
  count : ∀ c : Scene, c.heap = heap → x .count c = s.ending (c.move s.bytes.length.toUInt64)
  write : ∀ c : Scene, c.heap = heap → c.wire.size < 2 ^ 64 → c.pos.toNat ≤ c.wire.size → s.Written c (x .write c)

section Closure

variable {heap : Heap} {s s' : Script} {x y : Output → Act Unit} {bytes more : List UInt8} {width : Width}
  {off : UInt32} {addr : Nat}

lemma Prints.congr (prints : Prints heap bytes x) (same : ∀ out c, c.heap = heap → y out c = x out c) :
    Prints heap bytes y :=
  ⟨fun c at_ => (same .count c at_).trans (prints.count c at_),
    fun c at_ small fits => (same .write c at_).trans (prints.write c at_ small fits)⟩

lemma Plays.congr (plays : Plays heap s x) (same : ∀ out c, c.heap = heap → y out c = x out c) : Plays heap s y :=
  ⟨fun c at_ => (same .count c at_).trans (plays.count c at_),
    fun c at_ small fits => (same .write c at_).symm ▸ plays.write c at_ small fits⟩

lemma prints_pure : Prints heap [] fun _ => pure () :=
  ⟨fun c _ => by simp [Scene.move, Act.pure_apply], fun c _ _ _ => by rw [Scene.put_nil]; rfl⟩

lemma Prints.bind (first : Prints heap bytes x) (rest : Prints heap more y) :
    Prints heap (bytes ++ more) fun out => x out >>= fun _ => y out := by
  refine ⟨fun c at_ => ?_, fun c at_ small fits => ?_⟩
  · rw [Act.bind_apply, first.count c at_]
    simp only
    rw [rest.count (c.move bytes.length.toUInt64) at_, Scene.move_move, length_append]
  · rw [length_append] at fits
    have place := Scene.toNat_pos_put small (show c.pos.toNat + bytes.length ≤ c.wire.size by omega)
    rw [Act.bind_apply, first.write c at_ small (by omega)]
    simp only
    rw [rest.write (c.put bytes) at_ (by rwa [Scene.size_put]) (by rw [place, Scene.size_put]; omega),
      Scene.put_put small (by omega)]

lemma Prints.plays_of_room (prints : Prints heap bytes x) {n : UInt64} (asks : n.toNat = bytes.length) :
    Plays heap (.print bytes) fun out => Writing.room out n >>= fun _ => x out := by
  refine ⟨fun c at_ => ?_, fun c at_ small inside => ?_⟩
  · change x .count c = _
    rw [prints.count c at_]
    rfl
  · change (Script.print bytes).Written c ((Act.need .bufferTooSmall n >>= fun _ => x .write) c)
    rw [Act.bind_apply, Act.need_apply, asks]
    constructor
    · intro fits
      change c.pos.toNat + bytes.length ≤ c.wire.size at fits
      rw [if_pos fits]
      exact prints.write c at_ small fits
    · intro short
      change c.wire.size < c.pos.toNat + bytes.length at short
      rw [if_neg (Nat.not_le.mpr short)]
      refine ⟨0, ?_, by simpa using inside, ?_⟩
      · change 0 < bytes.length
        omega
      · rw [take_zero, Scene.put_nil]

lemma plays_stop (o : Obstacle) : Plays heap (.stop o) fun _ => Act.fail o.code := by
  refine ⟨fun c _ => by simp [Script.stop, Script.ending, Scene.move, Act.fail], fun c _ _ inside => ⟨fun _ => ?_, ?_⟩⟩
  · simp only [Script.stop, Script.ending, Scene.put_nil]
    rfl
  · intro short
    change c.wire.size < c.pos.toNat + 0 at short
    omega

lemma plays_nothing : Plays heap (.print []) fun _ => pure () := by
  refine ⟨fun c _ => by simp [Script.print, Script.ending, Scene.move, Act.pure_apply], fun c _ _ inside => ⟨fun _ => ?_, ?_⟩⟩
  · simp only [Script.print, Script.ending, Scene.put_nil]
    rfl
  · intro short
    change c.wire.size < c.pos.toNat + 0 at short
    omega

lemma Plays.bind (first : Plays heap s x) (rest : Plays heap s' y) :
    Plays heap (s.andThen s') fun out => x out >>= fun _ => y out := by
  obtain ⟨bytes, error⟩ := s
  cases error with
  | some code =>
    refine ⟨fun c at_ => ?_, fun c at_ small inside => ?_⟩
    · rw [Act.bind_apply, first.count c at_]
      rfl
    · obtain ⟨fits, short⟩ := first.write c at_ small inside
      refine ⟨fun room => ?_, fun room => ?_⟩
      · rw [Act.bind_apply, fits room]
        rfl
      · obtain ⟨k, low, room', failed⟩ := short room
        exact ⟨k, low, room', by rw [Act.bind_apply, failed]; rfl⟩
  | none =>
    refine ⟨fun c at_ => ?_, fun c at_ small inside => ?_⟩
    · rw [Act.bind_apply, first.count c at_]
      simp only [Script.ending]
      rw [rest.count (c.move bytes.length.toUInt64) at_, Scene.move_move]
      simp only [Script.andThen, length_append]
      rfl
    · obtain ⟨fits, short⟩ := first.write c at_ small inside
      simp only at fits short
      by_cases room : c.pos.toNat + bytes.length ≤ c.wire.size
      · have place := Scene.toNat_pos_put small room
        have run : (x .write >>= fun _ => y .write) c = y .write (c.put bytes) := by
          rw [Act.bind_apply, fits room]
          rfl
        rw [run]
        obtain ⟨fits', short'⟩ := rest.write (c.put bytes) at_ (by rwa [Scene.size_put])
          (by rw [place, Scene.size_put]; exact room)
        rw [place, Scene.size_put] at fits' short'
        refine ⟨fun all => ?_, fun less => ?_⟩
        · simp only [Script.andThen, length_append] at all ⊢
          rw [fits' (by omega), Scene.put_put small room]
          rfl
        · simp only [Script.andThen, length_append] at less ⊢
          obtain ⟨k, low, room', failed⟩ := short' (by omega)
          refine ⟨bytes.length + k, by omega, by omega, ?_⟩
          rw [failed, Scene.put_put small room, take_length_add_append]
      · obtain ⟨k, low, room', failed⟩ := short (Nat.not_le.mp room)
        refine ⟨fun all => ?_, fun _ => ⟨k, ?_, room', ?_⟩⟩
        · simp only [Script.andThen, length_append] at all
          omega
        · simp only [Script.andThen, length_append]
          omega
        · simp only [Script.andThen]
          rw [Act.bind_apply, failed, take_append_of_le_length (le_of_lt low)]

lemma plays_deeper {s : Nat → Script} {x : Output → Nat → Act Unit} {left : Nat}
    (plays : ∀ k < left, Plays heap (s k) fun out => x out k) :
    Plays heap (Script.deeper left s) fun out => Act.deeper left (x out) := by
  cases left with
  | zero => exact plays_stop _
  | succ left => exact plays left (Nat.lt_succ_self left)

/-! The actions that scripts are made of. -/

lemma width_cases (width : Width) :
    width.bytes.toUInt32.toUInt64 = width.bytes.toUInt64 ∧ width.bytes.toUInt64.toNat = width.bytes := by
  cases width <;> exact ⟨rfl, rfl⟩

lemma fits_of_le (small : c.wire.size < 2 ^ 64)
    (fits : c.pos.toNat + bytes.length ≤ c.wire.size) : c.fits bytes.length.toUInt64 = true := by
  have length : bytes.length.toUInt64.toNat = bytes.length := by
    simp only [Nat.toUInt64_eq, UInt64.toNat_ofNat']
    omega
  rw [Scene.fits, length, decide_eq_true_eq]
  exact fits

lemma prints_literal (width : Width) (value : UInt64) :
    Prints heap (beBytes width.bytes value) fun out => Writing.literal out width value := by
  refine ⟨fun c _ => ?_, fun c _ small fits => ?_⟩
  · rw [length_beBytes, ← (width_cases width).1]
    rfl
  · rw [Writing.literal, Act.literal, if_pos (fits_of_le small fits)]

lemma prints_int (width : Width) (value : UInt64) :
    Prints heap (beBytes width.bytes value) fun out => Writing.int out width value := by
  refine ⟨fun c _ => ?_, fun c _ small fits => ?_⟩
  · rw [length_beBytes, ← (width_cases width).1]
    rfl
  · rw [Writing.int, Act.write, if_pos (fits_of_le small fits)]

lemma prints_bytes {src len : UInt64} (length : len.toNat = bytes.length) (at_ : heap.Spans src.toNat bytes)
    (inside : src.toNat + bytes.length ≤ heap.size) (small : heap.size ≤ Heap.limit) :
    Prints heap bytes fun out => Writing.bytes out src len := by
  have same : len = bytes.length.toUInt64 := by
    apply UInt64.toNat_inj.mp
    rw [length]
    simp only [Nat.toUInt64_eq, UInt64.toNat_ofNat']
    rw [Nat.mod_eq_of_lt (length ▸ len.toNat_lt)]
  refine ⟨fun c _ => by rw [same]; rfl, fun c heap_ small' fits => ?_⟩
  have fits' := fits_of_le small' fits
  rw [← same] at fits'
  have place : c.at? src 0 len.toNat = some (src.toNat + 0).toUInt32 := by
    rw [Scene.at?, length]
    exact if_pos (by rw [heap_]; exact inside)
  have data : c.heap.slice? (src.toNat + 0).toUInt32 len.toNat = some bytes := by
    rw [Heap.slice?, Nat.add_zero, Heap.toNat_toUInt32 (by unfold Heap.limit at small; omega), length, heap_]
    exact at_.slice inside
  rw [Writing.bytes, Act.copyOut, fits', place]
  simp only [Bool.not_true, Bool.false_eq_true, if_false, Option.bind_some, data]

lemma fetch_eq {w base : UInt64} (is : heap.Word addr width.bytes w) (place : base.toNat + off.toNat = addr)
    (fits : w.toNat < 256 ^ width.bytes) (small : heap.size ≤ Heap.limit) (at_ : c.heap = heap) : Act.fetch width base
    off c = .ok w c := by
  have inside : base.toNat + off.toNat + width.bytes ≤ c.heap.size := by
    rw [place, at_]
    exact is.2
  have read : c.heap.read? (base.toNat + off.toNat).toUInt32 width.bytes = some w := by
    rw [place, at_]
    exact is.read (by unfold Heap.limit at small; omega) (by cases width <;> decide) fits
  rw [Act.fetch, Act.onHeap, Scene.at?]
  simp only [if_pos inside, read, Option.getD_some]

lemma fetch_bind {α : Type} {w base : UInt64} {f : UInt64 → Act α} (is : heap.Word addr width.bytes w)
    (place : base.toNat + off.toNat = addr) (fits : w.toNat < 256 ^ width.bytes) (small : heap.size ≤ Heap.limit)
    (at_ : c.heap = heap) : (Act.fetch width base off >>= f) c = f w c := by
  rw [Act.bind_apply, fetch_eq is place fits small at_]

end Closure

end WireCodec
