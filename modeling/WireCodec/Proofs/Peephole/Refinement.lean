import WireCodec.Peephole.Rounds
import WireCodec.Proofs.Machine.Relocation

/-! What it means that one piece of code does the work of another. The result is the same,
except that a run that comes to the end of the wire may find out sooner; then the report is
further to the front, unless the run was cut short inside a literal. -/
namespace WireCodec

open List

namespace Peephole

open Machine

variable {σ : Type} {table : HandleTable} {caller : Caller σ} {p : Program} {code code' code'' : Instrs}
  {eof : ErrorCode} {i : Instr Nat}

/-- The run came to the end of the wire. -/
structure CutShort (eof : ErrorCode) (f : Finished σ) : Prop where
  stopped : f.ending = .stopped
  code : f.ctx.errorCode = eof.number
  fault : f.ctx.fault = none

def IsLiteral (code : Instrs) (pc : Nat) : Prop :=
  ∃ width value, code[pc]? = some (.writeImm width value)

/-- `f'` is as good a result as `f`; `lit` and `lit'` tell whether the runs stopped at a
literal. -/
inductive Refines (eof : ErrorCode) (lit lit' : Prop) (f f' : Finished σ) : Prop
  | same (eq : f' = f) (keeps : lit' → lit)
  | short (cut : CutShort eof f) (cut' : CutShort eof f') (state : f'.state = f.state)
      (early : ¬ lit → ¬ lit' ∧ f'.ctx.errorOffset ≤ f.ctx.errorOffset ∧
        AgreeBelow f'.ctx.errorOffset.toNat f'.ctx.wire f.ctx.wire)

lemma Refines.trans {lit lit' lit'' : Prop} {f f' f'' : Finished σ} (first : Refines eof lit lit' f f')
    (second : Refines eof lit' lit'' f' f'') : Refines eof lit lit'' f f'' := by
  cases first with
  | same eq keeps =>
    subst eq
    cases second with
    | same eq' keeps' => exact .same eq' (keeps ∘ keeps')
    | short cut cut' state early =>
      exact .short cut cut' state fun no => early (no ∘ keeps)
  | short cut cut' state early =>
    cases second with
    | same eq' keeps' =>
      subst eq'
      exact .short cut cut' state fun no =>
        ⟨(early no).1 ∘ keeps', (early no).2⟩
    | short _ cut'' state' early' =>
      refine .short cut cut'' (state'.trans state) fun no => ?_
      obtain ⟨no', le, agree⟩ := early no
      obtain ⟨no'', le', agree'⟩ := early' no'
      exact ⟨no'', UInt64.le_trans le' le, agree'.trans (agree.mono le')⟩

/-- How an instruction takes part in a straight run of checks. -/
inductive Pace
  | asks (n : UInt32)
  | moves (n : UInt32)
  | ends

def pace : Instr Nat → Pace
  | .check n => .asks n
  | i =>
    match runDelta? i with
    | some n => .moves n
    | none => .ends

/-- What a straight run from here on asks of the wire, counted from here, if it checks at all. -/
def demand? : List Pace → Option Nat
  | [] => none
  | .asks n :: rest => some (max n.toNat ((demand? rest).getD 0))
  | .moves n :: rest => (demand? rest).map (n.toNat + ·)
  | .ends :: _ => none

/-- A check can ask for so much, or for more than a wire of `size` bytes has. -/
def Askable (size need : Nat) : Prop := need < 2 ^ 32 ∨ size < 2 ^ 32 - 1 ∧ need < 2 ^ 62

lemma Askable.mono {size need more : Nat} (can : Askable size more) (le : need ≤ more) : Askable size need := by
  unfold Askable at can ⊢
  omega

/-- No straight run asks for more of a wire of `size` bytes than a check can ask for. -/
def Bounded (size : Nat) (code : Instrs) : Prop :=
  ∀ k need, demand? ((code.drop k).map pace) = some need → Askable size need

lemma Bounded.of_map_pace {size : Nat} (same : code'.map pace = code.map pace) (bounded : Bounded size code) :
    Bounded size code' := by
  intro k need asked
  rw [map_drop, same, ← map_drop] at asked
  exact bounded k need asked

lemma eofCode_number_ne_zero (job : Job) : job.eofCode.number ≠ 0 := by
  cases job <;> decide

/-- `f'` is as good a result as `f`, or the run left the arena with `f` where the other came to
the end of the wire before. -/
inductive Covers (eof : ErrorCode) (lit lit' : Prop) (f f' : Finished σ) : Prop
  | refines (refines : Refines eof lit lit' f f')
  | left (out : f.ctx.LeftHeap) (cut' : CutShort eof f') (state : f'.state = f.state) (noLit : ¬ lit')

lemma Covers.refines_of {lit lit' : Prop} {f f' : Finished σ}
    (covers : Covers eof lit lit' f f') (inside : ¬ f.ctx.LeftHeap) : Refines eof lit lit' f f' := by
  cases covers with
  | refines refines => exact refines
  | left out => exact absurd out inside

lemma Covers.trans {lit lit' lit'' : Prop} {f f' f'' : Finished σ} (first : Covers eof lit lit' f f')
    (second : Covers eof lit' lit'' f' f'') : Covers eof lit lit'' f f'' := by
  cases first with
  | refines refines =>
    cases second with
    | refines refines' => exact .refines (refines.trans refines')
    | left out cut state noLit =>
      cases refines with
      | same eq => exact .left (eq ▸ out) cut (eq ▸ state) noLit
      | short _ cut' =>
        obtain ⟨d, _, fault⟩ := out
        rw [cut'.fault] at fault
        cases fault
  | left out cut state noLit =>
    cases second with
    | refines refines =>
      cases refines with
      | same eq keeps => exact .left out (eq ▸ cut) (eq ▸ state) (noLit ∘ keeps)
      | short _ cut' state' early => exact .left out cut' (state'.trans state) (early noLit).1
    | left out' =>
      obtain ⟨d, _, fault⟩ := out'
      rw [cut.fault] at fault
      cases fault

/-- Every run of `code` is matched by one of `code'`, if no straight run asks for too much. -/
def Matches (table : HandleTable) (caller : Caller σ) (p : Program) (code code' : Instrs) : Prop :=
  ∀ m s stop f, m.ctx.Clean → Halts table caller (p.withCode code) 0 m s stop f → Bounded m.ctx.wire.size code →
    ∃ stop' f', Halts table caller (p.withCode code') 0 m s stop' f' ∧
      Covers p.job.eofCode (IsLiteral code stop) (IsLiteral code' stop') f f'

lemma Matches.refl : Matches table caller p code code :=
  fun _ _ stop f _ halts _ => ⟨stop, f, halts, .refines (.same rfl id)⟩

lemma Matches.trans (first : Matches table caller p code code') (second : Matches table caller p code' code'')
    (bounded : ∀ size, Bounded size code → Bounded size code') : Matches table caller p code code'' := by
  intro m s stop f clean halts bound
  obtain ⟨stop', f', halts', covers⟩ := first m s stop f clean halts bound
  obtain ⟨stop'', f'', halts'', covers'⟩ := second m s stop' f' clean halts' (bounded _ bound)
  exact ⟨stop'', f'', halts'', covers.trans covers'⟩

/-- Every run of `code` is one of `code'`, though it may stop at another place. -/
def Repeats (table : HandleTable) (caller : Caller σ) (p : Program) (code code' : Instrs) : Prop :=
  ∀ m s stop f, Halts table caller (p.withCode code) 0 m s stop f →
    ∃ stop', Halts table caller (p.withCode code') 0 m s stop' f ∧ (IsLiteral code' stop' → IsLiteral code stop)

lemma Repeats.refl : Repeats table caller p code code :=
  fun _ _ stop _ halts => ⟨stop, halts, id⟩

lemma Repeats.trans (first : Repeats table caller p code code')
    (second : Repeats table caller p code' code'') : Repeats table caller p code code'' := by
  intro m s stop f halts
  obtain ⟨stop', halts', keeps⟩ := first m s stop f halts
  obtain ⟨stop'', halts'', keeps'⟩ := second m s stop' f halts'
  exact ⟨stop'', halts'', keeps ∘ keeps'⟩

lemma Repeats.matches (repeats : Repeats table caller p code code') : Matches table caller p code code' := by
  intro m s stop f _ halts _
  obtain ⟨stop', halts', keeps⟩ := repeats m s stop f halts
  exact ⟨stop', f, halts', .refines (.same rfl keeps)⟩

/-! Marks. -/

lemma getElem?_setMarks (ts : List Nat) (marks : Array Bool) (k : Nat) :
    (ts.foldl (fun marks t => marks.setIfInBounds t true) marks)[k]? =
      if k ∈ ts ∧ k < marks.size then some true else marks[k]? := by
  induction ts generalizing marks with
  | nil => simp
  | cons t ts ih =>
    rw [foldl_cons, ih]
    simp only [Array.size_setIfInBounds, Array.getElem?_setIfInBounds, mem_cons]
    grind

lemma length_branchMarks (code : Instrs) : (Program.branchMarks code).toList.length = code.length := by
  have keeps : ∀ (ts : List Nat) (marks : Array Bool),
      (ts.foldl (fun marks t => marks.setIfInBounds t true) marks).size = marks.size := by
    intro ts
    induction ts with
    | nil => simp
    | cons t ts ih => simp [ih]
  simp [Program.branchMarks, keeps]

lemma map_fst_mark (code : Instrs) : (mark code).map Prod.fst = code :=
  map_fst_zip (le_of_eq (length_branchMarks code).symm)

@[simp] lemma length_mark (code : Instrs) : (mark code).length = code.length := by
  rw [mark, length_zip, length_branchMarks, Nat.min_self]

lemma mark_getElem? {pc : Nat} (at_ : code[pc]? = some i) : ∃ marked, (mark code)[pc]? = some (i, marked) := by
  rw [← map_fst_mark code, getElem?_map] at at_
  obtain ⟨⟨j, marked⟩, pair, rfl⟩ := Option.map_eq_some_iff.mp at_
  exact ⟨marked, pair⟩

lemma mark_target {pc t : Nat} (at_ : code[pc]? = some i) (mem : t ∈ i.targets)
    (low : t < code.length) : ∃ j, code[t]? = some j ∧ (mark code)[t]? = some (j, true) := by
  have led : t ∈ code.flatMap Instr.targets := List.mem_flatMap.mpr ⟨i, mem_of_getElem? at_, mem⟩
  refine ⟨code[t], getElem?_eq_getElem low, ?_⟩
  rw [mark, getElem?_zip_eq_some]
  refine ⟨getElem?_eq_getElem low, ?_⟩
  rw [Array.getElem?_toList, Program.branchMarks, getElem?_setMarks]
  simp [led, low]

lemma mem_targets_of_mark {k : Nat} (marked : (mark code)[k]? = some (i, true)) : k ∈ code.flatMap Instr.targets := by
  rw [mark, getElem?_zip_eq_some] at marked
  have set := marked.2
  rw [Array.getElem?_toList, Program.branchMarks, getElem?_setMarks] at set
  by_contra other
  rw [if_neg (fun both => other both.1), Array.getElem?_replicate] at set
  split at set <;> cases set

end Peephole

end WireCodec
