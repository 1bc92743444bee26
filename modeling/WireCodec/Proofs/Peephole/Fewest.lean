import WireCodec.Proofs.Peephole.Writes

/-! The fewest literals. However a byte string is cut into literals, one literal more covers at most
one more of the parts of the greedy split; so the pass leaves no run that fewer could write. -/
namespace WireCodec.Peephole

open List

variable {code run : Instrs} {k : Nat} {rest : Marked}

/-- One write for every eight bytes, and one for every part of the rest. -/
def writesFor (n : Nat) : Nat := n / 8 + n % 8 / 4 + n % 4 / 2 + n % 2

lemma length_splitWrites (data : List UInt8) : (splitWrites data).length = writesFor data.length := by
  fun_induction splitWrites data with
  | case1 a b c d e f g h rest ih =>
    simp only [length_cons, ih, writesFor]
    omega
  | case2 a b c d rest long ih =>
    have short : rest.length < 4 := by
      rcases rest with _ | ⟨e, _ | ⟨f, _ | ⟨g, _ | ⟨h, rest⟩⟩⟩⟩
      case cons.cons.cons.cons => exact absurd rfl (long e f g h rest)
      all_goals simp
    simp only [length_cons, ih, writesFor]
    omega
  | case3 a b rest _ long ih =>
    have short : rest.length < 2 := by
      rcases rest with _ | ⟨c, _ | ⟨d, rest⟩⟩
      case cons.cons => exact absurd rfl (long c d rest)
      all_goals simp
    simp only [length_cons, ih, writesFor]
    omega
  | case4 | case5 => simp [writesFor]

/-- The exchange: a literal in front saves no more than itself. -/
lemma writesFor_add_le (width : Width) (n : Nat) : writesFor (width.bytes + n) ≤ writesFor n + 1 := by
  cases width <;> simp only [Width.bytes, writesFor] <;> omega

lemma writesFor_le (writes : ∀ i ∈ run, IsWrite i) : writesFor (written run).length ≤ run.length := by
  induction run with
  | nil => simp [written, writesFor]
  | cons i run ih =>
    obtain ⟨⟨width, value, rfl⟩, others⟩ := List.forall_mem_cons.mp writes
    rw [written_cons, length_append, length_literalBytes, length_cons]
    exact (writesFor_add_le width _).trans (Nat.succ_le_succ (ih others))

/-- Literals, of which there are no fewer with the same bytes. -/
structure Fewest (run : Instrs) : Prop where
  writes : ∀ i ∈ run, IsWrite i
  least : ∀ other, (∀ i ∈ other, IsWrite i) → written other = written run → run.length ≤ other.length

lemma fewest_of_length (writes : ∀ i ∈ run, IsWrite i) (short : run.length ≤ writesFor (written run).length) :
    Fewest run := by
  refine ⟨writes, fun other literals same => ?_⟩
  have bound := writesFor_le literals
  rw [same] at bound
  exact short.trans bound

lemma fewest_splitWrites (data : List UInt8) : Fewest (splitWrites data) :=
  fewest_of_length (isWrite_splitWrites data) (by rw [written_splitWrites, length_splitWrites])

lemma shortenRun_fewest (writes : ∀ i ∈ run, IsWrite i) : ∃ kept gone, shortenRun run = kept ++ replicate gone .nop ∧
    kept.length + gone = run.length ∧ written kept = written run ∧ Fewest kept := by
  have parts : (splitWrites (run.flatMap literalBytes)).length = writesFor (written run).length := length_splitWrites _
  unfold shortenRun
  simp only
  split
  · exact ⟨_, _, rfl, Nat.add_sub_of_le (le_of_lt ‹_›), written_splitWrites _, fewest_splitWrites _⟩
  · exact ⟨run, 0, (append_nil run).symm, rfl, rfl, fewest_of_length writes (by omega)⟩

/-! Runs. -/

/-- The literals of `run` stand between `front` and `rest`. No branch leads into them, and they are
all that can be joined: they start and end where a branch leads or something else stands. -/
structure IsRun (front run rest : Marked) : Prop where
  some_ : run ≠ []
  writes : ∀ x ∈ run, IsWrite x.1
  inner : ∀ x ∈ run.tail, x.2 = false
  opens : ∀ x ∈ front.getLast?, ∀ y ∈ run.head?, IsWrite x.1 → y.2 = true
  closes : ∀ y ∈ rest.head?, IsWrite y.1 → y.2 = true

lemma shortenWrites_append {front : Marked}
    (apart : ∀ x ∈ front.getLast?, ∀ y ∈ rest.head?, IsWrite x.1 → IsWrite y.1 → y.2 = true) :
    shortenWrites (front ++ rest) = shortenWrites front ++ shortenWrites rest := by
  rcases eq_nil_or_concat' front with rfl | ⟨init, ⟨i, marked⟩, rfl⟩
  · rfl
  · by_cases write : IsWrite i
    · exact shortenWritesFrom_append [] _ fun y next => apart (i, marked) getLast?_concat y next write
    · have through : ∀ rest, shortenWrites (init ++ (i, marked) :: rest) =
          shortenWrites init ++ i :: shortenWrites rest := by
        intro rest
        rw [shortenWrites, shortenWritesFrom_append [] init, shortenWrites, shortenWrites,
          shortenWritesFrom_other write]
        · rfl
        · rintro x ⟨⟩ literal
          exact absurd literal write
      rw [append_assoc, singleton_append, through, through, append_assoc]
      rfl

lemma shortenWritesFrom_run (run : Instrs) (writes : ∀ x ∈ rest, IsWrite x.1 ∧ x.2 = false) :
    shortenWritesFrom run rest = shortenRun (run.reverse ++ rest.map Prod.fst) := by
  induction rest generalizing run with
  | nil => rw [map_nil, append_nil, shortenWritesFrom]
  | cons head rest ih =>
    obtain ⟨⟨write, unmarked⟩, others⟩ := List.forall_mem_cons.mp writes
    obtain ⟨i, marked⟩ := head
    cases unmarked
    rw [shortenWritesFrom_unmarked write, ih _ others, reverse_cons, append_assoc]
    rfl

lemma IsRun.shortenWrites_eq {front run : Marked} (h : IsRun front run rest) : shortenWrites (front ++ run ++ rest)
    = shortenWrites front ++ shortenRun (run.map Prod.fst) ++ shortenWrites rest := by
  obtain ⟨⟨i, marked⟩, run, rfl⟩ := exists_cons_of_ne_nil h.some_
  obtain ⟨write, others⟩ := List.forall_mem_cons.mp h.writes
  have whole : shortenWrites ((i, marked) :: run) = shortenRun (((i, marked) :: run).map Prod.fst) := by
    rw [shortenWrites, shortenWritesFrom_start write, shortenWritesFrom_run _ fun x mem => ⟨others x mem, h.inner x mem⟩]
    rfl
  rw [shortenWrites_append fun x _ y next _ => h.closes y next,
    shortenWrites_append fun x last y next first _ => h.opens x last y next first, whole]

lemma mark_iff {i : Instr Nat} {marked : Bool} (at_ : (mark code)[k]? = some (i, marked)) :
    code[k]? = some i ∧ (marked = true ↔ ∃ j ∈ code, k ∈ j.targets) := by
  have place : code[k]? = some i := by rw [← map_fst_mark code, getElem?_map, at_, Option.map_some]
  refine ⟨place, ?_, ?_⟩
  · rintro rfl
    exact List.mem_flatMap.mp (mem_targets_of_mark at_)
  · rintro ⟨j, mem, target⟩
    obtain ⟨pc, there⟩ := List.mem_iff_getElem?.mp mem
    obtain ⟨_, -, set⟩ := mark_target there target (List.getElem?_eq_some_iff.mp place).1
    cases at_.symm.trans set
    rfl

/-- A byte string is split into literals with just its bytes, of which there are the fewest
possible; and where a run of literals stood, the pass leaves such literals, with no-ops in the
place of those that are gone. Marked are the instructions that a branch leads to. -/
theorem fewest_literals : (∀ data, written (splitWrites data) = data ∧ Fewest (splitWrites data)) ∧ ∀ code : List
    (Instr Nat),
    (∀ k i marked, (mark code)[k]? = some (i, marked) → code[k]? = some i ∧ (marked = true ↔ ∃ j ∈ code, k ∈ j.targets))
    ∧ ∀ front run rest, mark code = front ++ run ++ rest → IsRun front run rest → ∃ kept gone, shortenWrites (mark code)
    = shortenWrites front ++ (kept ++ replicate gone .nop) ++ shortenWrites rest ∧ (shortenWrites front).length =
    front.length ∧ kept.length + gone = run.length ∧ written kept = written (run.map Prod.fst) ∧ Fewest kept := by
  refine ⟨fun data => ⟨written_splitWrites data, fewest_splitWrites data⟩, fun code => ⟨fun _ _ _ => mark_iff, ?_⟩⟩
  intro front run rest cut h
  have literals : ∀ i ∈ run.map Prod.fst, IsWrite i := List.forall_mem_map.mpr h.writes
  obtain ⟨kept, gone, eq, length, same, fewest⟩ := shortenRun_fewest literals
  rw [length_map] at length
  rw [cut, h.shortenWrites_eq, eq]
  exact ⟨kept, gone, rfl, length_shortenWrites front, length, same, fewest⟩

def fourBytes : Instrs :=
  [.check 4, .writeImm .w1 1, .writeImm .w1 2, .writeImm .w1 3, .writeImm .w1 4, .halt]

theorem fewest_literals_fourBytes : ∃ kept gone, shortenWrites (mark fourBytes) = [.check 4] ++
    (kept ++ replicate gone .nop) ++ [.halt] ∧ written kept = [1, 2, 3, 4] ∧ Fewest kept := by
  have run : IsRun [(.check 4, false)] (([1, 2, 3, 4] : List UInt64).map fun byte => (.writeImm .w1 byte, false))
      [(.halt, false)] :=
    ⟨by simp, by simp [IsWrite], by simp, by simp [IsWrite], by simp [IsWrite]⟩
  obtain ⟨kept, gone, eq, -, -, same, fewest⟩ := (fewest_literals.2 fourBytes).2 _ _ _ rfl run
  exact ⟨kept, gone, eq, same, fewest⟩

end WireCodec.Peephole
