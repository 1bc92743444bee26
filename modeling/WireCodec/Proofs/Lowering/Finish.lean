import WireCodec.Proofs.Lowering.Orderly

/-! Finished programs: the code of a record with the exits behind it obeys the rules, and a run
through the code ends at the halt. -/
namespace WireCodec

open Machine List

namespace Lowering

variable {body : Code} {job : Job}

def placed (body : Code) : Dest → Nat := settle (usedExits body) (body.length + 1)

lemma finish_eq (body : Code) : finish body = body.map (Instr.mapTargets (placed body)) ++
      (.jump (body.length + 1 + (usedExits body).length) :: (usedExits body).map .error ++ [.halt]) := by
  simp [finish, placed]

lemma length_finish (body : Code) : (finish body).length = body.length + 1 + (usedExits body).length + 1 := by
  simp [finish]
  omega

lemma placed_lt (d : Dest) (inside : d.Inside 0 body.length) : placed body d < (finish body).length := by
  rw [length_finish]
  cases d with
  | place index =>
    have := inside.2
    simp only [placed, settle]
    omega
  | exit e =>
    have : (usedExits body).idxOf e ≤ (usedExits body).length := idxOf_le_length
    simp only [placed, settle]
    omega

lemma getElem?_finish_exit {e : ErrorCode} (used : e ∈ usedExits body) :
    (finish body)[placed body (.exit e)]? = some (.error e) := by
  have low := idxOf_lt_length_of_mem used
  have place : placed body (.exit e) =
      (body.map (Instr.mapTargets (placed body))).length + (1 + (usedExits body).idxOf e) := by
    simp only [placed, settle, length_map]
    omega
  rw [place, finish_eq, getElem?_append_right (Nat.le_add_right _ _),
    Nat.add_sub_cancel_left, Nat.add_comm 1, cons_append, getElem?_cons_succ,
    getElem?_append_left (by simpa using low), getElem?_map, getElem?_idxOf used]
  rfl

lemma allows_finish (fine : ∀ i ∈ body, job.allows i = true) {i : Instr Nat}
    (mem : i ∈ finish body) : job.allows i = true ∨ i = .halt := by
  rw [finish_eq] at mem
  simp only [mem_append, mem_cons, not_mem_nil, or_false, mem_map] at mem
  rcases mem with ⟨j, listed, rfl⟩ | (rfl | ⟨e, _, rfl⟩) | rfl
  · rw [Job.allows_mapTargets]
    exact .inl (fine j listed)
  · exact .inl rfl
  · exact .inl rfl
  · exact .inr rfl

lemma verifyCode_finish (fine : CodeFine job 0 body.length body) : verifyCode Builtin.table (finish body) = .ok () := by
  have rules : ∀ i ∈ body, _ := fun i mem => Job.rules_of_allows (fine i mem).1 (placed body)
  have noHalt : ∀ i ∈ body.map (Instr.mapTargets (placed body)), i.isHalt = false := by
    intro i mem
    obtain ⟨j, listed, rfl⟩ := List.mem_map.mp mem
    exact (rules j listed).2.2
  have len := length_finish body
  rw [verifyCode_eq_ok_iff]
  refine ⟨⟨?_, ?_, fun i mem => ?_⟩, fun mem => ?_⟩
  · exact getLast?_concat
  · rw [finish_eq, countP_append, List.countP_eq_zero.mpr (by simpa using noHalt)]
    simp [Instr.isHalt]
  all_goals
    rw [finish_eq] at mem
    simp only [mem_append, mem_cons, not_mem_nil, or_false, mem_map] at mem
  · rcases mem with ⟨j, listed, rfl⟩ | (rfl | ⟨e, _, rfl⟩) | rfl
    · refine ⟨.inr (rules j listed).1, (rules j listed).2.1, fun t target => ?_⟩
      rw [Instr.targets_mapTargets] at target
      obtain ⟨d, isTarget, rfl⟩ := List.mem_map.mp target
      exact placed_lt d ((fine j listed).2 d isTarget)
    · refine ⟨.inr rfl, rfl, fun t target => ?_⟩
      obtain rfl := List.mem_singleton.mp target
      omega
    · exact ⟨.inr rfl, rfl, by simp [Instr.targets]⟩
    · exact ⟨.inr rfl, rfl, by simp [Instr.targets]⟩
  · rcases mem with ⟨j, listed, same⟩ | (same | ⟨e, _, same⟩) | same
    · have broken := (rules j listed).1
      rw [same] at broken
      cases broken
    all_goals cases same

end Lowering

open Lowering

def Site.finished (known : Registry) (options : Options) (depth : Nat) (name : String) (job : Job)
    (body : Code) (exact : Prop) : Site :=
  ⟨known, options, depth, ⟨name, job, (finish body).toArray⟩, placed body, fun _ => rfl, exact⟩

namespace Site

variable {known : Registry} {options : Options} {depth : Nat} {name : String} {job : Job}
  {body : Code} {exact : Prop}

lemma finished_at (pc : Nat) (i : Instr Nat) :
    (finished known options depth name job body exact).At pc i ↔ (finish body)[pc]? = some i := by
  simp [At, finished]

lemma has_finished (inside : ∀ i ∈ body, ∀ d ∈ i.targets, d.Inside 0 body.length) :
    (finished known options depth name job body exact).Has 0 body := by
  refine ⟨fun k i at_ => ?_, fun e mem => ?_⟩
  · have low := (List.getElem?_eq_some_iff.mp at_).1
    rw [finished_at, Nat.zero_add, finish_eq, getElem?_append_left (by simpa using low), getElem?_map, at_]
    rfl
  · obtain ⟨i, listed, target⟩ := List.mem_flatMap.mp mem
    have isExit : e ∈ exitOrder := inside i listed _ target
    have used : e ∈ usedExits body := List.mem_filter.mpr ⟨isExit, List.contains_iff_mem.mpr mem⟩
    refine ⟨?_, (finished_at _ _).mpr (getElem?_finish_exit used)⟩
    rintro rfl
    simp [exitOrder] at isExit

lemma finished_halts {m : Machine} {s : Session} : ∃ stop, (finished known options depth name job body exact).Halts
    body.length m s stop ⟨.stopped, m.ctx, s⟩ := by
  let stop := body.length + 1 + (usedExits body).length
  have atJump : (finished known options depth name job body exact).At body.length (.jump stop) := by
    rw [finished_at, finish_eq, getElem?_append_right (by simp)]
    simp [stop]
  have atHalt : (finished known options depth name job body exact).At stop .halt := by
    have last : stop = (finish body).length - 1 := by
      rw [length_finish]
      rfl
    rw [finished_at, last, ← getLast?_eq_getElem?]
    exact getLast?_concat
  exact ⟨stop, .jump atJump rfl (.stop atHalt rfl)⟩

end Site

end WireCodec
