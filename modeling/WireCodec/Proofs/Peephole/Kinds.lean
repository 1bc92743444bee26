import WireCodec.Proofs.Peephole.Folding
import WireCodec.Proofs.Peephole.Rounds

/-! What kinds of instructions a program has. The peephole pass brings in no kind of instruction
that was not there, seeks and no-ops apart. -/
namespace WireCodec.Peephole

variable {ok : Instr Nat → Prop} {rules : HandleTable} {code run : Instrs}

structure OfKind (ok : Instr Nat → Prop) : Prop where
  nop : ok .nop
  seek : ∀ dst src off, ok (.seek dst src off)
  check : ∀ n k, ok (.check n) → ok (.check k)
  literal : ∀ width value width' value', ok (.writeImm width value) → ok (.writeImm width' value')
  targets : ∀ i g, ok i → ok (i.mapTargets g)

variable (kind : OfKind ok)
include kind

lemma all_dropSelfSeeks (all : ∀ i ∈ code, ok i) : ∀ i ∈ dropSelfSeeks code, ok i := by
  intro i mem
  rw [dropSelfSeeks_eq_map] at mem
  obtain ⟨j, listed, rfl⟩ := List.mem_map.mp mem
  rcases withoutSelfSeek_cases j with same | ⟨reg, rfl, nop⟩
  · rw [same]
    exact all j listed
  · rw [nop]
    exact kind.nop

lemma all_joinSeeksFrom {op : Instr Nat} (own : ok op) (rest : Marked)
    (all : ∀ i ∈ rest.map Prod.fst, ok i) : ∀ i ∈ joinSeeksFrom op rest, ok i := by
  induction rest generalizing op with
  | nil => exact List.forall_mem_singleton.mpr own
  | cons head rest ih =>
    obtain ⟨i, marked⟩ := head
    obtain ⟨first, others⟩ := List.forall_mem_cons.mp all
    rcases joinSeeksFrom_cases op i marked rest with now | ⟨joined, both, later⟩
    · rw [now]
      exact List.forall_mem_cons.mpr ⟨own, ih first others⟩
    · obtain ⟨dst, src, a, b, c, _, _, rfl, _⟩ := joinSeeks?_eq_some both
      rw [later]
      exact List.forall_mem_cons.mpr ⟨kind.nop, ih (kind.seek _ _ _) others⟩

lemma all_joinSeeks (all : ∀ i ∈ code, ok i) : ∀ i ∈ joinSeeks (mark code), ok i := by
  rw [← map_fst_mark code] at all
  cases marked : mark code with
  | nil => exact nofun
  | cons head rest =>
    rw [marked] at all
    obtain ⟨first, others⟩ := List.forall_mem_cons.mp all
    exact all_joinSeeksFrom kind first rest others

lemma all_folded {i : Instr Nat} (own : ok i) (run : Option UInt32) (need : UInt32) : ok (folded run i need) := by
  by_cases isCheck : ∃ n, i = .check n
  · obtain ⟨n, rfl⟩ := isCheck
    cases run with
    | none => exact kind.check n _ own
    | some passed => exact kind.nop
  · rw [folded_eq_self (not_exists.mp isCheck)]
    exact own

lemma all_foldChecksFrom (run : Option UInt32) (code : Marked)
    (all : ∀ i ∈ code.map Prod.fst, ok i) : ∀ i ∈ (foldChecksFrom run code).2, ok i := by
  induction code generalizing run with
  | nil => exact nofun
  | cons head rest ih =>
    obtain ⟨i, marked⟩ := head
    obtain ⟨first, others⟩ := List.forall_mem_cons.mp all
    rw [foldChecksFrom_cons, foldHead_snd]
    exact List.forall_mem_cons.mpr ⟨all_folded kind first _ _, ih _ others⟩

lemma all_shortenRun (writes : ∀ i ∈ run, IsWrite i) (all : ∀ i ∈ run, ok i) : ∀ i ∈ shortenRun run, ok i := by
  intro i mem
  cases run with
  | nil => cases mem
  | cons first rest =>
    obtain ⟨width, value, rfl⟩ := writes first List.mem_cons_self
    have own := all _ List.mem_cons_self
    rcases isFiller_shortenRun writes i mem with ⟨width', value', rfl⟩ | rfl
    · exact kind.literal _ _ _ _ own
    · exact kind.nop

lemma all_shortenWritesFrom (writes : ∀ i ∈ run, IsWrite i) (open_ : ∀ i ∈ run, ok i) (code : Marked)
    (all : ∀ i ∈ code.map Prod.fst, ok i) : ∀ i ∈ shortenWritesFrom run code, ok i := by
  have whole : ∀ {run : Instrs}, (∀ i ∈ run, IsWrite i) → (∀ i ∈ run, ok i) →
      ∀ i ∈ shortenRun run.reverse, ok i := fun writes open_ =>
    all_shortenRun kind (fun i mem => writes i (List.mem_reverse.mp mem)) fun i mem => open_ i (List.mem_reverse.mp mem)
  induction code generalizing run with
  | nil => exact whole writes open_
  | cons head rest ih =>
    obtain ⟨i, marked⟩ := head
    obtain ⟨first, others⟩ := List.forall_mem_cons.mp all
    by_cases write : IsWrite i
    · have single : ∀ j ∈ [i], IsWrite j ∧ ok j := List.forall_mem_singleton.mpr ⟨write, first⟩
      cases marked with
      | true =>
        rw [shortenWritesFrom_marked write]
        exact List.forall_mem_append.mpr ⟨whole writes open_,
          ih (fun j mem => (single j mem).1) (fun j mem => (single j mem).2) others⟩
      | false =>
        rw [shortenWritesFrom_unmarked write]
        exact ih (List.forall_mem_cons.mpr ⟨write, writes⟩) (List.forall_mem_cons.mpr ⟨first, open_⟩) others
    · rw [shortenWritesFrom_other write]
      exact List.forall_mem_append.mpr ⟨whole writes open_,
        List.forall_mem_cons.mpr ⟨first, ih (by simp) (by simp) others⟩⟩

lemma all_compacted (all : ∀ i ∈ code, ok i) : ∀ i ∈ compacted code, ok i := by
  intro i mem
  obtain ⟨j, listed, rfl⟩ := List.mem_map.mp mem
  exact kind.targets j _ (all j (List.mem_filter.mp listed).1)

lemma all_tidy (all : ∀ i ∈ code, ok i) : ∀ i ∈ tidy code, ok i := by
  have seeks := all_dropSelfSeeks kind (all_joinSeeks kind (all_dropSelfSeeks kind all))
  have checks := all_foldChecksFrom kind none (mark _) (by rwa [map_fst_mark])
  exact all_shortenWritesFrom kind (by simp) (by simp) (mark _) (by rwa [map_fst_mark])

lemma all_optimizeWithin (rounds : Nat) (lawful : Lawful rules code) (all : ∀ i ∈ code, ok i)
    {code' : Instrs} (done : optimizeWithin rounds code = .ok code') : ∀ i ∈ code', ok i := by
  induction rounds generalizing code with
  | zero =>
    cases done
    exact all
  | succ rounds ih =>
    have lawful' := lawful_tidy lawful
    simp only [optimizeWithin, compact_eq_ok lawful', bind, Except.bind] at done
    split at done
    · cases done
      exact all
    · exact ih (lawful_compacted lawful') (all_compacted kind (all_tidy kind all)) done

end WireCodec.Peephole
