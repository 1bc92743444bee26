import WireCodec.Program.Draft
import WireCodec.Proofs.Peephole.Compaction
import WireCodec.Proofs.Peephole.Writes
import WireCodec.Proofs.Session.Clean

/-! The peephole pass as a whole. Lawful code stays lawful and does what it did through every
round, so that optimizing a built program succeeds and a run of the result refines a run of the
program. -/
namespace WireCodec.Peephole

open Machine

variable {σ : Type} {table rules : HandleTable} {caller : Caller σ} {p : Program}
  {code code' code'' : Instrs}

/-- `code'` may be run in place of `code`. -/
structure Preserves (rules table : HandleTable) (caller : Caller σ) (p : Program)
    (code code' : Instrs) : Prop where
  lawful : Lawful rules code'
  bounded : ∀ size, Bounded size code → Bounded size code'
  covers : Matches table caller p code code'

lemma Preserves.refl (lawful : Lawful rules code) : Preserves rules table caller p code code :=
  ⟨lawful, fun _ => id, .refl⟩

lemma Preserves.trans (first : Preserves rules table caller p code code')
    (second : Preserves rules table caller p code' code'') : Preserves rules table caller p code code'' :=
  ⟨second.lawful, fun size => second.bounded size ∘ first.bounded size, first.covers.trans second.covers first.bounded⟩

section

variable (lawful : Lawful rules code)
include lawful

lemma preserves_dropSelfSeeks : Preserves rules table caller p code (dropSelfSeeks code) :=
  ⟨lawful.of_variants (variants_dropSelfSeeks code), fun _ => .of_map_pace (map_pace_dropSelfSeeks code),
    repeats_dropSelfSeeks.matches⟩

lemma preserves_joinSeeks : Preserves rules table caller p code (joinSeeks (mark code)) := by
  have variants := variants_joinSeeks (mark code)
  have paces := map_pace_joinSeeks (mark code)
  rw [map_fst_mark] at variants paces
  exact ⟨lawful.of_variants variants, fun _ => .of_map_pace paces, (repeats_joinSeeks lawful).matches⟩

lemma preserves_foldChecks (keeps : caller.KeepsClean) : Preserves rules table caller p code (foldChecks (mark code)) :=
  ⟨lawful.of_variants (variants_foldChecks code), fun _ => bounded_foldChecks, matches_foldChecks lawful keeps⟩

lemma preserves_shortenWrites (keeps : caller.KeepsClean) :
    Preserves rules table caller p code (shortenWrites (mark code)) :=
  ⟨lawful.of_variants (shortened_shortenWrites code).variants, fun _ => bounded_shortenWrites,
    matches_shortenWrites lawful keeps⟩

lemma preserves_compacted : Preserves rules table caller p code (compacted code) :=
  ⟨lawful_compacted lawful, fun _ => bounded_compacted, (repeats_compacted lawful).matches⟩

lemma preserves_tidy (keeps : caller.KeepsClean) : Preserves rules table caller p code (tidy code) := by
  have dropped : Preserves rules table caller p code (dropSelfSeeks code) := preserves_dropSelfSeeks lawful
  have joined := dropped.trans (preserves_joinSeeks dropped.lawful)
  have seeks := joined.trans (preserves_dropSelfSeeks joined.lawful)
  have checks := seeks.trans (preserves_foldChecks seeks.lawful keeps)
  exact checks.trans (preserves_shortenWrites checks.lawful keeps)

lemma lawful_seeks : Lawful rules (dropSelfSeeks (joinSeeks (mark (dropSelfSeeks code)))) := by
  have dropped := lawful.of_variants (variants_dropSelfSeeks code)
  have variants := variants_joinSeeks (mark (dropSelfSeeks code))
  rw [map_fst_mark] at variants
  exact (dropped.of_variants variants).of_variants (variants_dropSelfSeeks _)

lemma lawful_tidy : Lawful rules (tidy code) :=
  ((lawful_seeks lawful).of_variants (variants_foldChecks _)).of_variants (shortened_shortenWrites _).variants

end

/-- Rounds succeed, and keep the code's behaviour together. -/
lemma optimizeWithin_eq_ok (rounds : Nat) (lawful : Lawful rules code) (noNops : .nop ∉ code) : ∃ code', optimizeWithin
    rounds code = .ok code' ∧ Lawful rules code' ∧ .nop ∉ code' ∧ ∀ {σ : Type} (table : HandleTable) (caller : Caller σ)
    (p : Program), caller.KeepsClean → Preserves rules table caller p code code' := by
  induction rounds generalizing code with
  | zero => exact ⟨code, rfl, lawful, noNops, fun _ _ _ _ => .refl lawful⟩
  | succ rounds ih =>
    have tidied := lawful_tidy lawful
    simp only [optimizeWithin, compact_eq_ok tidied, bind, Except.bind]
    split
    · exact ⟨code, rfl, lawful, noNops, fun _ _ _ _ => .refl lawful⟩
    · obtain ⟨code', ok, lawful', noNops', rest⟩ := ih (lawful_compacted tidied) (nop_not_mem_compacted _)
      refine ⟨code', ok, lawful', noNops', fun table caller p keeps => ?_⟩
      exact ((preserves_tidy lawful keeps).trans (preserves_compacted tidied)).trans (rest table caller p keeps)

end WireCodec.Peephole
