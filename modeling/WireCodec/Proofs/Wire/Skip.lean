import Mathlib
import WireCodec.Wire.Skip

/-! Skipping values. -/
namespace WireCodec

namespace Skip

variable {α β : Type}

def Tells (r : Result α) : Prop := ∀ e, r = .error e → e.code ≠ .ok

/-- A relation of results on two wires that the steps of skipping keep. On the first wire the bytes may end at any
step. -/
structure Closed (buf buf' : Bytes) (R : {α : Type} → Result α → Result α → Prop) : Prop where
  ok : ∀ {α : Type} (a : α), R (.ok a) (.ok a)
  error : ∀ {α : Type} {code : ErrorCode} (_ : code ≠ .ok) (offset : Nat),
    R (.error ⟨code, offset⟩ : Result α) (.error ⟨code, offset⟩)
  eof : ∀ {α : Type} (offset : Nat) (r : Result α), R (.error ⟨.unexpectedEof, offset⟩) r
  bind : ∀ {α β : Type} {r r' : Result α} {f f' : α → Result β}, R r r' → (∀ a, R (f a) (f' a)) →
    R (r >>= f) (r' >>= f')
  advance : ∀ pos n, R (advance buf pos n) (advance buf' pos n)
  byte : ∀ pos, R (byte buf pos) (byte buf' pos)
  count : ∀ pos, R (count buf pos) (count buf' pos)
  size : buf.size ≤ buf'.size

namespace Closed

variable {buf buf' : Bytes} {R : {α : Type} → Result α → Result α → Prop} (closed : Closed buf buf' R)
include closed

section Inner

variable {inner inner' : UInt8 → Nat → Result Nat} (all : ∀ tag pos, R (inner tag pos) (inner' tag pos))
include all

lemma fields {fuel fuel' : Nat} (le : fuel ≤ fuel') (pos : Nat) :
    R (fields buf inner fuel pos) (fields buf' inner' fuel' pos) := by
  induction fuel generalizing fuel' pos with
  | zero => exact closed.eof _ _
  | succ fuel ih =>
    obtain ⟨fuel', rfl⟩ := Nat.exists_eq_succ_of_ne_zero (Nat.ne_of_gt (lt_of_lt_of_le (Nat.zero_lt_succ _) le))
    refine closed.bind (closed.byte pos) fun tag => ?_
    split
    · exact closed.ok _
    · exact closed.bind (closed.advance _ _) fun start => closed.bind (all tag start) fun after =>
        ih (Nat.le_of_succ_le_succ le) after

lemma row (tags : List UInt8) (pos : Nat) : R (row inner tags pos) (row inner' tags pos) := by
  induction tags generalizing pos with
  | nil => exact closed.ok _
  | cons tag tags ih => exact closed.bind (all tag pos) fun after => ih after

lemma rows (tags : List UInt8) (n pos : Nat) : R (rows inner tags n pos) (rows inner' tags n pos) := by
  induction n generalizing pos with
  | zero => exact closed.ok _
  | succ n ih => exact closed.bind (closed.row all tags pos) fun after => ih after

lemma elements (tags : List UInt8) (n pos : Nat) :
    R (elements buf inner tags n pos) (elements buf' inner' tags n pos) := by
  unfold Skip.elements
  split
  · exact closed.ok _
  · split
    · split
      · exact closed.advance _ _
      · exact closed.rows all _ _ _
    · exact closed.error (by decide) _

end Inner

lemma value {inner inner' : Inner}
    (all : Option.Rel (fun skip skip' => ∀ tag pos, R (skip tag pos) (skip' tag pos)) inner inner') (tag : UInt8)
    (pos : Nat) : R (value buf inner tag pos) (value buf' inner' tag pos) := by
  have nested : ∀ body body' : (UInt8 → Nat → Result Nat) → Result Nat,
      (∀ skip skip', (∀ tag pos, R (skip tag pos) (skip' tag pos)) → R (body skip) (body' skip')) →
      R (value.nested inner pos body) (value.nested inner' pos body') := by
    intro body body' inside
    cases all with
    | none => exact closed.error (by decide) _
    | some all => exact inside _ _ all
  unfold Skip.value
  split
  · exact closed.advance _ _
  split
  · exact closed.bind (closed.count _) fun n => closed.advance _ _
  split
  · exact nested _ _ fun skip skip' all => closed.fields all (Nat.succ_le_succ closed.size) _
  split
  · exact nested _ _ fun skip skip' all => closed.bind (closed.byte _) fun elem =>
      closed.bind (closed.count _) fun n => closed.elements all _ _ _
  split
  · exact nested _ _ fun skip skip' all => closed.bind (closed.byte _) fun key =>
      closed.bind (closed.byte _) fun elem => closed.bind (closed.count _) fun n => closed.elements all _ _ _
  · exact closed.error (by decide) _

lemma skip (depth : Nat) (tag : UInt8) (pos : Nat) : R (skip buf depth tag pos) (skip buf' depth tag pos) := by
  induction depth generalizing tag pos with
  | zero => exact closed.value .none tag pos
  | succ depth ih => exact closed.value (.some ih) tag pos

end Closed

lemma tells_error {code : ErrorCode} (real : code ≠ .ok) (offset : Nat) : Tells (.error ⟨code, offset⟩ : Result α) := by
  intro e eq
  cases eq
  exact real

lemma closed_tells (buf : Bytes) : Closed buf buf fun r _ => Tells r where
  ok := fun _ => nofun
  error := tells_error
  eof := fun offset _ => tells_error (by decide) offset
  bind := by
    intro α β r r' f f' first rest
    cases r with
    | ok a => exact rest a
    | error e =>
      intro e' eq
      cases eq
      exact first e rfl
  advance := by
    intro pos n
    unfold advance
    split
    · exact nofun
    · exact tells_error (by decide) _
  byte := by
    intro pos
    unfold byte
    split
    · exact nofun
    · exact tells_error (by decide) _
  count := by
    intro pos
    unfold count
    split
    · exact tells_error (by decide) _
    · simp only
      split
      · exact nofun
      · exact tells_error (by decide) _
  size := le_rfl

variable {buf : Bytes}

lemma bind_eq_ok {r : Result α} {f : α → Result β} {b : β} : (r >>= f) = .ok b ↔ ∃ a, r = .ok a ∧ f a = .ok b := by
  cases r with
  | ok a =>
    refine ⟨fun eq => ⟨a, rfl, eq⟩, fun ⟨_, same, eq⟩ => ?_⟩
    cases same
    exact eq
  | error e => exact ⟨nofun, fun ⟨_, same, _⟩ => by cases same⟩

lemma advance_eq_ok {pos n after : Nat} : advance buf pos n = .ok after ↔ after = pos + n ∧ pos + n ≤ buf.size := by
  unfold advance
  split
  · rename_i fits
    exact ⟨fun eq => ⟨(Except.ok.inj eq).symm, fits⟩, fun ⟨eq, _⟩ => by rw [eq]⟩
  · rename_i short
    exact ⟨nofun, fun ⟨_, fits⟩ => absurd fits short⟩

lemma byte_eq_ok {pos : Nat} {b : UInt8} : byte buf pos = .ok b ↔ buf[pos]? = some b := by
  unfold byte
  split
  · rename_i found
    rw [found]
    exact ⟨fun eq => congrArg some (Except.ok.inj eq), fun eq => congrArg Except.ok (Option.some.inj eq)⟩
  · rename_i missing
    rw [missing]
    exact ⟨nofun, nofun⟩

end Skip

lemma skip_tells (buf : Bytes) (depth : Nat) (tag : UInt8) (pos : Nat) : Skip.Tells (skip buf depth tag pos) :=
  (Skip.closed_tells buf).skip depth tag pos

end WireCodec
