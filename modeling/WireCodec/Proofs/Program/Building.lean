import WireCodec.Machine.Dispatch
import WireCodec.Program.Draft
import WireCodec.Proofs.Peephole.Compaction

/-! Built programs mean what was drafted. Labels may be placed before or after they are used, several
at one place, at no-ops or again; a branch leads to the first instruction kept from the place on at
which its label was placed last. -/
namespace WireCodec

open List Machine Peephole Draft

variable {i j : Instr Nat} {code : Instrs} {table : HandleTable} {d : Draft} {p : Program} {t : Nat} {calls : List Call}

/-! What calls have made of a draft. -/

namespace Draft

/-- A call that adds to a draft. -/
inductive Call
  | label
  | bind (label : Nat)
  | emit (i : Instr Nat)
  | add (i : Instr Nat)

def Call.perform? (d : Draft) : Call → Option Draft
  | label => some d.newLabel.2
  | bind name => d.bind? name
  | emit i => some (d.emit i)
  | add i => some (d.add i)

def make? (name : String) (job : Job) (calls : List Call) : Option Draft :=
  calls.foldlM Call.perform? (start name job 0)

def emitted (calls : List Call) : Instrs :=
  calls.flatMap fun
    | .emit i => [i]
    | .add i => i.trimmed?.toList
    | _ => []

def LastPlaced (calls : List Call) (label n : Nat) : Prop :=
  ∃ before after, calls = before ++ .bind label :: after ∧ (emitted before).length = n ∧ .bind label ∉ after

lemma LastPlaced.snoc {label n : Nat} {call : Call} (placed : LastPlaced calls label n)
    (other : call ≠ .bind label) : LastPlaced (calls ++ [call]) label n := by
  obtain ⟨before, after, rfl, length, notIn⟩ := placed
  refine ⟨before, after ++ [call], by simp, length, ?_⟩
  simp [notIn, Ne.symm other]

lemma emitted_snoc (calls : List Call) (call : Call) : emitted (calls ++ [call]) = emitted calls ++ emitted [call] :=
  flatMap_append

lemma make?_eq_some {name : String} {job : Job} (made : make? name job calls = some d) : d.name = name ∧ d.job = job ∧
    d.code.toList = emitted calls ∧ ∀ label n, placeOf? d.labels label = some n → LastPlaced calls label n := by
  induction calls using List.reverseRecOn generalizing d with
  | nil =>
    cases made
    exact ⟨rfl, rfl, rfl, by simp [placeOf?, start]⟩
  | append_singleton calls call ih =>
    rw [make?, foldlM_append] at made
    obtain ⟨before, first, last⟩ := Option.bind_eq_some_iff.mp made
    obtain ⟨rfl, rfl, list, placed⟩ := ih first
    rw [foldlM_cons] at last
    obtain ⟨after, applied, is⟩ := Option.bind_eq_some_iff.mp last
    cases is
    rw [emitted_snoc, ← list]
    cases call with
    | label =>
      cases applied
      refine ⟨rfl, rfl, by simp [emitted, newLabel], fun label n at_ => (placed label n ?_).snoc nofun⟩
      simp only [placeOf?, newLabel, Array.getElem?_push] at at_ ⊢
      split at at_
      · cases at_
      · exact at_
    | bind label =>
      simp only [Call.perform?, bind?] at applied
      split at applied
      · cases applied
        refine ⟨rfl, rfl, by simp [emitted], fun other n at_ => ?_⟩
        simp only [placeOf?, Array.getElem?_setIfInBounds] at at_
        split at at_
        · rename_i same
          subst same
          cases at_
          exact ⟨calls, [], rfl, by rw [← list, Array.length_toList], by simp⟩
        · rename_i differ
          exact (placed other n at_).snoc (by simpa using differ)
      · cases applied
    | emit i =>
      cases applied
      exact ⟨rfl, rfl, by simp [emitted, emit], fun label n at_ => (placed label n at_).snoc nofun⟩
    | add i =>
      cases applied
      refine ⟨?_, ?_, ?_, fun label n at_ => (placed label n ?_).snoc nofun⟩
      all_goals
        simp only [add] at *
        cases trimmed : i.trimmed? <;> simp_all [emitted, emit]

end Draft

/-! What building does. -/

lemma eq_map_of_mapM {α β ε : Type} {f : α → Except ε β} {g : α → β} {l : List α} {l' : List β} (ok : l.mapM f = .ok l')
    (each : ∀ a b, f a = .ok b → b = g a) : l' = l.map g ∧ ∀ a ∈ l, f a = .ok (g a) := by
  induction l generalizing l' with
  | nil =>
    cases ok
    exact ⟨rfl, nofun⟩
  | cons a l ih =>
    rw [mapM_cons] at ok
    cases first : f a with
    | error e => rw [first] at ok; cases ok
    | ok b =>
      cases rest : l.mapM f with
      | error e => rw [first, rest] at ok; cases ok
      | ok bs =>
        rw [first, rest] at ok
        cases ok
        obtain ⟨rfl, all⟩ := ih rest
        cases each a b first
        exact ⟨rfl, List.forall_mem_cons.mpr ⟨first, all⟩⟩

lemma Draft.build_eq_ok (built : d.build table = .ok p) :
    ∃ resolved code, d.code.toList.mapM (resolveLabels d.labels) = .ok resolved ∧
      compact resolved = .ok code ∧ verifyCode table code = .ok () ∧ p = ⟨d.name, d.job, code.toArray⟩ := by
  simp only [build, bind, Except.bind] at built
  split at built
  · cases built
  · rename_i resolved labels
    split at built
    · cases built
    · rename_i code compacts
      split at built
      · cases built
      · rename_i checked
        cases built
        exact ⟨resolved, code, labels, compacts, checked, rfl⟩

lemma Draft.build_checked (built : d.build table = .ok p) : verifyCode table p.code.toList = .ok () := by
  obtain ⟨resolved, code, -, -, checked, rfl⟩ := build_eq_ok built
  exact checked

def Draft.place (d : Draft) (label : Nat) : Nat := (placeOf? d.labels label).getD 0

lemma resolveLabels_eq_ok (ok : resolveLabels d.labels i = .ok j) :
    j = i.mapTargets d.place ∧ ∀ l ∈ i.targets, placeOf? d.labels l = some (d.place l) := by
  unfold resolveLabels at ok
  split at ok
  · cases ok
  · rename_i none
    cases ok
    refine ⟨rfl, fun l target => ?_⟩
    have some := List.find?_eq_none.mp none l target
    rw [place]
    cases placed : placeOf? d.labels l with
    | none => simp [placed] at some
    | some n => rfl

lemma retarget_eq_ok_iff :
    retarget (code.countP kept) (rank code) i = .ok j ↔ j = i.mapTargets (rank code) ∧ ∀ t ∈ i.targets, Ahead code t := by
  refine ⟨fun ok => ?_, fun ⟨is, inside⟩ => is ▸ retarget_eq_ok inside⟩
  unfold retarget at ok
  split at ok
  · cases ok
  · rename_i none
    cases ok
    refine ⟨rfl, fun t target => ?_⟩
    simpa [Ahead] using List.find?_eq_none.mp none t (mem_reverse.mpr target)

lemma compact_eq_ok_iff {code' : Instrs} :
    compact code = .ok code' ↔ code' = compacted code ∧ ∀ i ∈ code, i ≠ .nop → ∀ t ∈ i.targets, Ahead code t := by
  rw [compact_eq]
  refine ⟨fun ok => ?_, fun ⟨is, inside⟩ => is ▸ mapM_eq_ok fun i mem => ?_⟩
  · obtain ⟨is, each⟩ := eq_map_of_mapM ok fun i j ok => (retarget_eq_ok_iff.mp ok).1
    exact ⟨is, fun i mem notNop =>
      (retarget_eq_ok_iff.mp (each i (mem_filter.mpr ⟨mem, kept_eq_true_iff.mpr notNop⟩))).2⟩
  · obtain ⟨mem, keep⟩ := mem_filter.mp mem
    exact retarget_eq_ok (inside i mem (kept_eq_true_iff.mp keep))

lemma ahead_iff : Ahead code t ↔ ∃ k j, t ≤ k ∧ code[k]? = some j ∧ j ≠ .nop := by
  have split : code.countP kept = rank code t + (code.drop t).countP kept := by
    rw [rank, ← countP_append, take_append_drop]
  rw [Ahead, split, Nat.lt_add_right_iff_pos, countP_pos_iff]
  constructor
  · rintro ⟨j, mem, keep⟩
    obtain ⟨k, at_⟩ := mem_iff_getElem?.mp mem
    exact ⟨t + k, j, Nat.le_add_right t k, getElem?_drop ▸ at_, kept_eq_true_iff.mp keep⟩
  · rintro ⟨k, j, le, at_, keep⟩
    refine ⟨j, mem_of_getElem? (i := k - t) ?_, kept_eq_true_iff.mpr keep⟩
    rwa [getElem?_drop, Nat.add_sub_cancel' le]

/-- Removing no-ops fails only for a branch with nothing left behind the place it leads to. -/
lemma compact_eq_error_iff (code : Instrs) : (∃ e, compact code = .error e) ↔
      ∃ i ∈ code, i ≠ .nop ∧ ∃ t ∈ i.targets, ∀ k j, t ≤ k → code[k]? = some j → j = .nop := by
  have nothing : ∀ t, (∀ k j, t ≤ k → code[k]? = some j → j = .nop) ↔ ¬ Ahead code t := by
    intro t
    rw [ahead_iff]
    push Not
    rfl
  simp only [nothing]
  have ok := @compact_eq_ok_iff code (compacted code)
  cases result : compact code with
  | error e =>
    refine ⟨fun _ => ?_, fun _ => ⟨e, rfl⟩⟩
    by_contra none
    push Not at none
    rw [ok.mpr ⟨rfl, none⟩] at result
    cases result
  | ok code' =>
    refine ⟨nofun, fun ⟨i, mem, notNop, t, target, behind⟩ => ?_⟩
    exact absurd ((compact_eq_ok_iff.mp result).2 i mem notNop t target) behind

/-- The first instruction from place `n` on that is no no-op stands at `k`. -/
def FirstFrom (code : Instrs) (n k : Nat) : Prop :=
  n ≤ k ∧ (∃ i, code[k]? = some i ∧ i ≠ .nop) ∧ ∀ l, n ≤ l → l < k → code[l]? = some .nop

lemma exists_firstFrom (n : Nat) (ahead : Ahead code n) : ∃ k, FirstFrom code n k ∧ rank code k = rank code n := by
  obtain ⟨last, j, le, at_, notNop⟩ := ahead_iff.mp ahead
  have low := (List.getElem?_eq_some_iff.mp at_).1
  have here := getElem?_eq_getElem (lt_of_le_of_lt le low)
  have succ := rank_succ here
  by_cases nop : code[n] = .nop
  · rw [nop] at here
    rw [if_neg (by simp [nop, kept, Instr.isNop]), Nat.add_zero] at succ
    obtain ⟨k, ⟨le, is, between⟩, same⟩ := exists_firstFrom (n + 1) (by rwa [Ahead, succ])
    refine ⟨k, ⟨by omega, is, fun l low high => ?_⟩, same.trans succ⟩
    rcases Nat.eq_or_lt_of_le low with rfl | low
    · exact here
    · exact between l low high
  · exact ⟨n, ⟨Nat.le_refl n, ⟨_, here, nop⟩, fun l low high => absurd low (by omega)⟩, rfl⟩
termination_by code.length - n

lemma kept_mapTargets (g : Nat → Nat) (i : Instr Nat) : kept (i.mapTargets g) = kept i := by
  cases i <;> rfl

lemma mapTargets_mapTargets (f g : Nat → Nat) (i : Instr Nat) :
    (i.mapTargets f).mapTargets g = i.mapTargets (g ∘ f) := by
  cases i <;> simp [Instr.mapTargets]

lemma rank_map_mapTargets (g : Nat → Nat) (code : Instrs) : rank (code.map (Instr.mapTargets g)) = rank code := by
  funext t
  rw [rank, ← map_take, countP_map]
  exact countP_congr fun i _ => by rw [Function.comp_apply, kept_mapTargets]

lemma ahead_map_mapTargets {g : Nat → Nat} : Ahead (code.map (Instr.mapTargets g)) t ↔ Ahead code t := by
  rw [Ahead, rank_map_mapTargets, countP_map, Ahead,
    show kept ∘ Instr.mapTargets g = kept from funext (kept_mapTargets g)]

lemma compacted_map_mapTargets (g : Nat → Nat) (code : Instrs) :
    compacted (code.map (Instr.mapTargets g)) = (code.filter kept).map (Instr.mapTargets (rank code ∘ g)) := by
  rw [compacted, rank_map_mapTargets, filter_map, map_map,
    show kept ∘ Instr.mapTargets g = kept from funext (kept_mapTargets g)]
  exact map_congr_left fun i _ => mapTargets_mapTargets g _ i

lemma getLast?_of_compacted (last : (compacted code).getLast? = some .halt) :
    (code.filter kept).getLast? = some .halt := by
  rw [compacted, getLast?_map] at last
  obtain ⟨i, is, halt⟩ := Option.map_eq_some_iff.mp last
  cases i <;> first | exact is | cases halt

lemma Lawful.visited {σ : Type} {caller : Caller σ} {c : Context} {s s' : σ} {m : Machine} {pc : Nat}
    (lawful : Lawful table p.code.toList) (visits : Visits table caller p c s pc m s') :
    ∃ i, p.code.toList[pc]? = some i := by
  induction visits with
  | start => exact ⟨_, getElem?_eq_getElem lawful.pos⟩
  | next _ at_ step => exact lawful.succ (Array.getElem?_toList ▸ at_) (by rintro rfl; cases step)
  | jump _ at_ step =>
    exact ⟨_, getElem?_eq_getElem (lawful.target (Array.getElem?_toList ▸ at_) (stepAny_jump step))⟩

lemma Handler.takes_of_opcode (i : Instr Nat) : ∃ h, Handler.all[i.opcode.1]? = some h ∧ h.takes i = true := by
  cases i with
  | imm op dst src value => cases op <;> exact ⟨_, rfl, rfl⟩
  | _ => exact ⟨_, rfl, rfl⟩

lemma Instr.Lawful.resolved {length id : Nat} {args rets : List Reg}
    (lawful : (Instr.call id args rets : Instr Nat).Lawful table length) : ∃ h, table.resolve id = .ok h := by
  have calls := lawful.calls
  cases resolved : table.resolve id with
  | ok h => exact ⟨h, rfl⟩
  | error e =>
    rw [Instr.verifyCall, resolved] at calls
    cases calls

/-- What building makes of a draft. The program has no no-ops and one halt, its last instruction; it
has the other instructions that were appended, in order, and a branch leads to the first of them from
the place on at which its label was placed last. It runs as the appended instructions do, no-ops
included, and a run meets only instructions of the program, routines that are known and handlers that
take what they are given. Removing no-ops fails only for a branch that nothing follows. -/
theorem Draft.build_keeps_meaning (name : String) (job : Job) (calls : List Draft.Call) (table : HandleTable)
    (d : Draft) (p : Program) (made : Draft.make? name job calls = some d) (built : d.build table = .ok p) :
    (Instr.nop ∉ p.code.toList ∧ p.code.toList.countP Instr.isHalt = 1 ∧ p.code.toList.getLast? = some .halt) ∧
    (∃ place lead : Nat → Nat, (∀ i ∈ Draft.emitted calls, ∀ l ∈ i.targets, Draft.LastPlaced calls l (place l)) ∧
      p.code.toList = ((Draft.emitted calls).filter (!·.isNop)).map (Instr.mapTargets lead) ∧
      (∀ i ∈ Draft.emitted calls, ∀ l ∈ i.targets, ∃ k, FirstFrom (Draft.emitted calls) (place l) k ∧
        lead l = ((Draft.emitted calls).take k).countP (!·.isNop)) ∧
      ∀ {σ : Type} (handles : HandleTable) (caller : Caller σ) (c : Context) (s : σ), run handles caller p c s =
          run handles caller ⟨name, job, ((Draft.emitted calls).map (Instr.mapTargets place)).toArray⟩ c s) ∧
    (∀ {σ : Type} (caller : Caller σ) (c : Context) (s s' : σ) (pc : Nat) (m : Machine),
      Visits table caller p c s pc m s' → ∃ i, p.code[pc]? = some i ∧
        (∃ h, Handler.all[i.opcode.1]? = some h ∧ h.takes i = true) ∧
        ∀ id args rets, i = .call id args rets → ∃ h, table.resolve id = .ok h) ∧
    ∀ code : List (Instr Nat), (∃ e, compact code = .error e) ↔
      ∃ i ∈ code, i ≠ .nop ∧ ∃ t ∈ i.targets, ∀ k j, t ≤ k → code[k]? = some j → j = .nop := by
  obtain ⟨rfl, rfl, list, placed⟩ := Draft.make?_eq_some made
  obtain ⟨resolved, code, labels, compacts, checked, rfl⟩ := Draft.build_eq_ok built
  obtain ⟨lawful, noNop⟩ := verifyCode_eq_ok_iff.mp checked
  obtain ⟨rfl, each⟩ := eq_map_of_mapM labels fun i j ok => (resolveLabels_eq_ok ok).1
  obtain ⟨rfl, ahead⟩ := compact_eq_ok_iff.mp compacts
  rw [list] at each ahead lawful noNop ⊢
  have behind : ∀ i ∈ Draft.emitted calls, ∀ l ∈ i.targets, Ahead (Draft.emitted calls) (d.place l) := by
    intro i mem l target
    refine ahead_map_mapTargets.mp (ahead _ (mem_map_of_mem mem) ?_ _ ?_)
    · rintro nop
      rw [mapTargets_eq_nop_iff.mp nop] at target
      cases target
    · exact Instr.targets_mapTargets .. ▸ mem_map_of_mem target
  refine ⟨⟨noNop, lawful.halts, lawful.last⟩, ⟨d.place, rank (Draft.emitted calls) ∘ d.place,
    fun i mem l target => placed l _ ((resolveLabels_eq_ok (each i mem)).2 l target),
    compacted_map_mapTargets _ _, fun i mem l target => ?_, fun handles caller c s => ?_⟩, ?_, compact_eq_error_iff⟩
  · obtain ⟨k, first, same⟩ := exists_firstFrom _ (behind i mem l target)
    exact ⟨k, first, same.symm⟩
  · have thins := thins_compacted (getLast?_of_compacted lawful.last) fun i mem t target => ?_
    · have first : Ahead ((Draft.emitted calls).map (Instr.mapTargets d.place)) 0 := by
        rw [Ahead, ← length_compacted]
        exact lawful.pos
      exact thins.runFrom_eq (p := ⟨d.name, d.job, #[]⟩) first (.start c) s
    · refine ahead i mem ?_ t target
      rintro rfl
      cases target
  · intro σ caller c s s' pc m visits
    obtain ⟨i, at_⟩ := lawful.visited (p := ⟨d.name, d.job, _⟩) visits
    refine ⟨i, Array.getElem?_toList ▸ at_, Handler.takes_of_opcode i, ?_⟩
    rintro id args rets rfl
    exact (lawful.each _ (mem_of_getElem? at_)).resolved

/-- A branch over an assignment, its label placed twice and each time at a no-op. -/
def Draft.detour : List Call :=
  [.label, .add (.branchImm .eq (.r 0) 0 0), .bind 0, .emit .nop, .add (.movImm (.r 0) 1), .bind 0, .emit .nop, .emit .halt]

theorem Draft.build_keeps_meaning_detour :
    ∃ d p, Draft.make? "detour" .decode Draft.detour = some d ∧ d.build Builtin.table = .ok p ∧
      p.code.toList = [.branchImm .eq (.r 0) 0 2, .movImm (.r 0) 1, .halt] ∧
      ∃ place : Nat → Nat, Draft.LastPlaced Draft.detour 0 (place 0) ∧
        ∀ (c : Context) (s : Unit), run Builtin.table (fun _ _ _ _ => none) p c s =
          run Builtin.table (fun _ _ _ _ => none) ⟨"detour", .decode,
            #[.branchImm .eq (.r 0) 0 (place 0), .nop, .movImm (.r 0) 1, .nop, .halt]⟩ c s := by
  obtain ⟨-, ⟨place, lead, placed, -, -, runs⟩, -⟩ :=
    Draft.build_keeps_meaning "detour" .decode Draft.detour Builtin.table _ _ rfl rfl
  exact ⟨_, _, rfl, rfl, rfl, place, placed _ (.head _) 0 (.head _), fun c s => runs _ _ c s⟩

end WireCodec
