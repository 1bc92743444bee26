import WireCodec.Proofs.Session.Evaluation

/-! How deep records are handled in place never shows. An operation does its task, and the task
depends neither on the inline depth nor on the inline size. -/
namespace WireCodec

open Lowering

variable {t : TypeDesc}

def Outcome.LeftHeap {α : Type} (o : Outcome α) : Prop :=
  ∃ d : Defect, d.isOutside = true ∧ o.result = .error (.ofCompile (.malformed d))

/-- Two operations left the same behind, with the same result; where both left the arena, the
accesses may differ. -/
structure Outcome.Equals {α : Type} (o o' : Outcome α) : Prop where
  result : o.result = o'.result ∨ o.LeftHeap ∧ o'.LeftHeap
  wire : o.wire = o'.wire
  heap : o.heap = o'.heap
  stores : o.stores = o'.stores

/-- Two operations ended with the same result and wire, or in the same error at places of their
own. -/
inductive Outcome.Alike (o o' : Outcome Nat) : Prop
  | same (result : o.result = o'.result) (wire : o.wire = o'.wire)
  | error (code : ErrorCode) (place place' : Nat) (result : o.result = .error (.codec ⟨code, place⟩))
      (result' : o'.result = .error (.codec ⟨code, place'⟩))

namespace Delivers

variable {exact : Prop} {eof : ErrorCode} {o o' : Outcome Nat}
  {r : EStateM.Result Trouble Scene Unit}

lemma equals_of_leaves {c : Scene} (left : o.Leaves c) (left' : o'.Leaves c)
    (result : o.result = o'.result ∨ o.LeftHeap ∧ o'.LeftHeap) : o.Equals o' :=
  ⟨result, left.wire.trans left'.wire.symm, left.heap.trans left'.heap.symm, left.stores.trans left'.stores.symm⟩

lemma equals (sure : exact) (whole : ∀ offset c, r ≠ .error (.cut offset) c)
    (delivers : Delivers exact eof o r) (delivers' : Delivers exact eof o' r) : o.Equals o' := by
  cases r with
  | ok u c =>
    obtain ⟨result, left⟩ := delivers
    obtain ⟨result', left'⟩ := delivers'
    exact equals_of_leaves left left' (.inl (result.trans result'.symm))
  | error t c =>
    cases t with
    | codec code offset =>
      obtain ⟨place, -, result, -, same⟩ := delivers
      obtain ⟨place', -, result', -, same'⟩ := delivers'
      obtain ⟨rfl, left⟩ := same (.inl sure)
      obtain ⟨rfl, left'⟩ := same' (.inl sure)
      exact equals_of_leaves left left' (.inl (result.trans result'.symm))
    | cut offset => exact absurd rfl (whole offset c)
    | outside =>
      rcases delivers with ⟨d, out, result, left⟩ | ⟨loose, -⟩
      · rcases delivers' with ⟨d', out', result', left'⟩ | ⟨loose, -⟩
        · exact equals_of_leaves left left' (.inr ⟨⟨d, out, result⟩, ⟨d', out', result'⟩⟩)
        · exact absurd sure loose
      · exact absurd sure loose
    | defect | gaveUp =>
      obtain ⟨result, left⟩ := delivers
      obtain ⟨result', left'⟩ := delivers'
      exact equals_of_leaves left left' (.inl (result.trans result'.symm))

lemma alike (delivers : Delivers exact eof o r) (delivers' : Delivers exact eof o' r)
    (inside : ¬ o.LeftHeap) (inside' : ¬ o'.LeftHeap) : o.Alike o' := by
  cases r with
  | ok u c =>
    exact .same (delivers.1.trans delivers'.1.symm) (delivers.2.wire.trans delivers'.2.wire.symm)
  | error t c =>
    cases t with
    | codec code offset =>
      obtain ⟨place, -, result, -⟩ := delivers
      obtain ⟨place', -, result', -⟩ := delivers'
      exact .error code _ _ result result'
    | cut offset =>
      obtain ⟨place, result⟩ := delivers
      obtain ⟨place', result'⟩ := delivers'
      exact .error eof _ _ result result'
    | outside =>
      rcases delivers with ⟨d, out, result, -⟩ | ⟨-, place, result⟩
      · exact absurd ⟨d, out, result⟩ inside
      · rcases delivers' with ⟨d', out', result', -⟩ | ⟨-, place', result'⟩
        · exact absurd ⟨d', out', result'⟩ inside'
        · exact .error eof _ _ result result'
    | defect | gaveUp =>
      exact .same (delivers.1.trans delivers'.1.symm) (delivers.2.wire.trans delivers'.2.wire.symm)

end Delivers

namespace Session

lemma uncut_task {known : Registry} (usable : known.Usable) {job : Job} (exact : job ≠ .encode)
    (has : known.Has t) (limit : Nat) (wire : Bytes) (heap : Heap) (root : UInt32) (barrier : Bool) (offset : UInt64)
    (c : Scene) : task known limit job t wire heap root barrier ≠ .error (.cut offset) c := by
  intro failed
  unfold task at failed
  split at failed
  · cases failed
  · rename_i record isRecord
    split at failed
    · exact (visits_walk known job (fun _ => True) (limit + 1) record).uncut usable.sound exact
        (usable.sound.recordType has isRecord) _ _ _ _ _ failed
    · cases failed

/-- Sessions whose options differ in the inline depth and the inline size do the same: decoding
and measuring leave the same behind, and encoding ends with the same bytes or the same error, unless
one of the two leaves the arena. -/
theorem inlining_unseen {known : Registry} (regular : known.Regular) (entries : known.EntriesFit)
    {options : Options} {depth size : Nat} {s s' : Session} (sound : s.Sound known options)
    (sound' : s'.Sound known { options with maxInlineDepth := depth, maxInlineSize := size })
    {t : TypeDesc} (has : known.Has t) (heap : Heap) (root : UInt32) (barrier : Bool)
    {wire : Bytes} (wireFits : wire.size ≤ maxBlock) :
    (s.decode known t wire heap root barrier).Equals (s'.decode known t wire heap root barrier) ∧
    (s.encodedSize known t heap root barrier).Equals (s'.encodedSize known t heap root barrier) ∧
    (¬ (s.encode known t heap root wire barrier).LeftHeap → ¬ (s'.encode known t heap root wire barrier).LeftHeap →
      (s.encode known t heap root wire barrier).Alike (s'.encode known t heap root wire barrier)) := by
  have usable := regular.usable entries
  have first := fun job wire fits => (perform_delivers usable sound has job wire fits heap root barrier).1
  have second := fun job wire fits => (perform_delivers usable sound' has job wire fits heap root barrier).1
  have equal : ∀ job wire, wire.size ≤ maxBlock → job ≠ .encode → (s.perform known job t wire heap root barrier).Equals
        (s'.perform known job t wire heap root barrier) := fun job wire fits exact =>
    Delivers.equals exact (uncut_task usable exact has options.maxNestingDepth wire heap root barrier)
      (first job wire fits) (second job wire fits)
  exact ⟨equal .decode wire wireFits nofun, equal .measure #[] (Nat.zero_le _) nofun,
    (first .encode wire wireFits).alike (second .encode wire wireFits)⟩

/-- Measuring a chain of two links gives one size, whether links are handled in place or not. -/
theorem inlining_unseen_chain : ((start .default).encodedSize Chain.schema Chain.node
      ⟨#[0, 0, 0, 7, 8, 0, 0, 0, 0, 0, 0, 9, 0, 0, 0, 0]⟩ 0 false).Equals
    ((start { Options.default with maxInlineDepth := 0, maxInlineSize := 0 }).encodedSize Chain.schema
      Chain.node ⟨#[0, 0, 0, 7, 8, 0, 0, 0, 0, 0, 0, 9, 0, 0, 0, 0]⟩ 0 false) :=
  (inlining_unseen Chain.regular Chain.entriesFit (sound_start _ .default) (sound_start _ _) Chain.has_node
    _ 0 false (show (#[] : Bytes).size ≤ maxBlock from Nat.zero_le _)).2.1

end Session

/-! A record behind a pointer, whose own pointer leads nowhere. -/
namespace Dangling

def lost : TypeDesc := .pointer (.weak 9) 0
def inner : TypeDesc :=
  ⟨1, .struct, "Inner", 4, 4, none, none, none, [⟨1, "next", .default, lost, none, 0⟩]⟩
def link : TypeDesc := .pointer (.strong inner) 2
def outer : TypeDesc :=
  ⟨3, .struct, "Outer", 4, 4, none, none, none, [⟨1, "inner", .default, link, none, 0⟩]⟩
def schema : Registry := ⟨#[some lost, some inner, some link, some outer]⟩

lemma built : schema.Built := by
  have madeInner : TypeDesc.record "Inner" [⟨1, "next", .default, lost, none, 0⟩] 1 = .ok inner := rfl
  have madeOuter : TypeDesc.record "Outer" [⟨1, "inner", .default, link, none, 0⟩] 3 = .ok outer := rfl
  have first : Registry.Built ⟨#[some lost, some inner]⟩ := by
    refine .define rfl ?_ madeInner (.reserve (.weakPointer 9 .empty))
    simp only [List.mem_singleton, forall_eq]
    rfl
  have hasInner : Registry.Has ⟨#[some lost, some inner]⟩ inner := rfl
  refine .define rfl ?_ madeOuter (.reserve (.pointer hasInner first))
  simp only [List.mem_singleton, forall_eq]
  rfl

lemma length_fields_le (has : schema.Has t) : t.fields.length ≤ 217 := by
  have known : t = lost ∨ t = inner ∨ t = link ∨ t = outer := by simpa [schema] using has.mem
  rcases known with rfl | rfl | rfl | rfl <;> decide

def heap : Heap := ⟨Array.replicate 12 0⟩

end Dangling

/-- A pointer that leads nowhere shows the inline depth: a record that is compiled in place is
refused with it, and one that is compiled when it is met may never be met. -/
theorem inlining_shows_dangling : Dangling.schema.Built ∧
    (∀ t, Dangling.schema.Has t → t.fields.length ≤ 217) ∧ Dangling.schema.Has Dangling.outer ∧
    ((Session.start .default).decode Dangling.schema Dangling.outer #[0] Dangling.heap 8 false).result =
      .error (.compile (.unsupported .danglingReference)) ∧
    ((Session.start { Options.default with maxInlineDepth := 0 }).decode Dangling.schema Dangling.outer
      #[0] Dangling.heap 8 false).result = .ok 1 := by
  refine ⟨Dangling.built, fun t => Dangling.length_fields_le, rfl, by decide +kernel, ?_⟩
  exact Session.result_of_within 30 (by decide +kernel)

end WireCodec
