import WireCodec.Proofs.Native.Function

/-! Where jumps lead. The bytes of an operation stand where the sizes before it add up to, the last four bytes of
a jump are the distance from its end to the mark of its label, and every label has one mark. -/
namespace WireCodec

open List

namespace Native

variable {items before after : List Item} {o : Op} {label : Label} {k : Nat}

@[simp] lemma codeSize_append (a b : List Item) : codeSize (a ++ b) = codeSize a + codeSize b := by
  rw [codeSize, map_append, sum_append]
  rfl

@[simp] lemma codeSize_cons (item : Item) (rest : List Item) : codeSize (item :: rest) = item.size + codeSize rest := rfl

lemma length_bytesFrom (place : Label → Nat) (start : Nat) (items : List Item) :
    (bytesFrom place start items).length = codeSize items := by
  induction items generalizing start with
  | nil => rfl
  | cons item rest ih =>
    cases item with
    | mark label => rw [bytesFrom, ih, codeSize_cons, Item.size, Nat.zero_add]
    | op o => rw [bytesFrom, length_append, Op.length_encode, ih, codeSize_cons, Item.size]

lemma bytesFrom_append (place : Label → Nat) (start : Nat) (a b : List Item) :
    bytesFrom place start (a ++ b) = bytesFrom place start a ++ bytesFrom place (start + codeSize a) b := by
  induction a generalizing start with
  | nil => rfl
  | cons item rest ih =>
    cases item with
    | mark label => rw [cons_append, bytesFrom, bytesFrom, ih, codeSize_cons, Item.size, Nat.zero_add]
    | op o => rw [cons_append, bytesFrom, bytesFrom, ih, codeSize_cons, Item.size, Nat.add_assoc, append_assoc]

lemma encode_of_target (target : o.target? = some label) (distance : Label → UInt32) :
    ∃ code, o.encode distance = code ++ word32 (distance label) := by
  cases o with
  | jump => cases target; exact ⟨[_], rfl⟩
  | jumpIf => cases target; exact ⟨[_, _], rfl⟩
  | locate => cases target; exact ⟨[_, _, _], rfl⟩
  | _ => cases target

lemma bytesFrom_jump (place : Label → Nat) (before after : List Item) (target : o.target? = some label) :
    ∃ front back, bytesFrom place 0 (before ++ .op o :: after) =
      front ++ (word32 (distance (place label) (codeSize before + o.size)) ++ back) ∧
      front.length + 4 = codeSize before + o.size := by
  obtain ⟨code, bytes⟩ := encode_of_target target fun label => distance (place label) (codeSize before + o.size)
  have size : o.size = code.length + 4 := by
    rw [← o.length_encode, bytes, length_append]
    rfl
  refine ⟨bytesFrom place 0 before ++ code, bytesFrom place (codeSize before + o.size) after, ?_, ?_⟩
  · rw [bytesFrom_append, bytesFrom, Nat.zero_add, bytes, append_assoc, append_assoc]
  · rw [length_append, length_bytesFrom, size, Nat.add_assoc]

/-- Below two GiB the distance, read with its sign, leads from the end of the jump to the place. -/
lemma add_distance {target stop : Nat} (low : target < 2 ^ 31) (low' : stop < 2 ^ 31) :
    (stop : Int) + (distance target stop).toInt32.toInt = target := by
  have back {n : Nat} (small : n < 2 ^ 31) : n.toUInt32.toNat = n := Nat.mod_eq_of_lt (by omega)
  have word : (distance target stop).toNat = (2 ^ 32 - stop + target) % 2 ^ 32 := by
    rw [distance, UInt32.toNat_sub, back low, back low']
  have signed : (distance target stop).toInt32.toInt = Int.bmod (distance target stop).toNat (2 ^ 32) :=
    BitVec.toInt_eq_toNat_bmod _
  rw [signed, word, Int.bmod]
  omega

/-- The four bytes before `stop` are the distance, read with its sign, from there to the mark of the label. -/
def Lands (code : List UInt8) (items : List Item) (stop : Nat) (label : Label) : Prop :=
  ∃ front back distance, items = front ++ .mark label :: back ∧ 4 ≤ stop ∧
    (code.drop (stop - 4)).take 4 = word32 distance ∧ (stop : Int) + distance.toInt32.toInt = codeSize front

lemma lands (marked : label ∈ Site.marks (before ++ .op o :: after)) (low : codeSize (before ++ .op o :: after) < 2 ^ 31)
    (target : o.target? = some label) :
    Lands (bytesFrom (fun label => ((placesFrom 0 (before ++ .op o :: after)).lookup label).getD 0) 0
      (before ++ .op o :: after)) (before ++ .op o :: after) (codeSize before + o.size) label := by
  obtain ⟨front, back, split, found⟩ := lookup_placesFrom 0 marked
  obtain ⟨head, tail, bytes, length⟩ := bytesFrom_jump
    (fun label => ((placesFrom 0 (before ++ .op o :: after)).lookup label).getD 0) before after target
  rw [found, Option.getD_some, Nat.zero_add] at bytes
  refine ⟨front, back, distance (codeSize front) (codeSize before + o.size), split, by omega, ?_, ?_⟩
  · rw [bytes, show codeSize before + o.size - 4 = head.length by omega, drop_left]
    exact take_left' rfl
  · have whole := congrArg codeSize split
    simp only [codeSize_append, codeSize_cons, Item.size] at whole low
    exact add_distance (by omega) (by omega)

namespace Site

variable {s : Site} {i : Instr Nat} {code : Instrs} {blocks : List (List Item)} {targets : List Nat}

lemma of_mem_held (mem : label ∈ held k i) :
    label = .instr k ∨ label = .bypass k ∨ label = .table k ∨ label = .leave ∧ i = .halt := by
  cases i with
  | switch src targets fallback => by_cases none : targets = [] <;> simp_all [held]; grind
  | _ => simp_all [held] <;> grind

lemma nodup_held (k : Nat) (i : Instr Nat) : (held k i).Nodup := by
  cases i with
  | switch src targets fallback => by_cases none : targets = [] <;> simp [held, none]
  | _ => simp [held]

lemma marks_flatten {entries : List (Instr Nat × Nat)}
    (each : List.Forall₂ (fun entry block => s.IsCode entry.2 entry.1 block) entries blocks) :
    marks blocks.flatten = entries.flatMap fun entry => held entry.2 entry.1 := by
  induction each with
  | nil => rfl
  | cons first _ ih => rw [flatten_cons, marks_append, first.marks, ih, flatMap_cons]

lemma marks_stubs (failures : List ErrorCode) : marks (failures.flatMap stub) = failures.map .failure := by
  induction failures with
  | nil => rfl
  | cons e rest ih =>
    rw [flatMap_cons, marks_append, ih]
    rfl

lemma nodup_marks (each : s.AreCode code blocks) (last : ∀ k, code[k]? = some .halt → k + 1 = code.length) :
    (marks (s.whole code blocks)).Nodup := by
  rw [whole, marks_append, marks_append, marks_ops, marks_flatten each, marks_stubs, nil_append]
  refine Nodup.append (nodup_flatMap.mpr ⟨fun entry _ => nodup_held _ _, ?_⟩) ?_ ?_
  · have distinct : code.zipIdx.Pairwise fun a b => a.2 ≠ b.2 :=
      pairwise_map.mp (by rw [zipIdx_map_snd]; exact nodup_range')
    refine distinct.imp_of_mem fun {a b} memA memB differ label inA inB => differ ?_
    have final {entry : Instr Nat × Nat} (mem : entry ∈ code.zipIdx) (halt : entry.1 = .halt) :
        entry.2 + 1 = code.length := last _ (halt ▸ mem_zipIdx_iff_getElem?.mp mem)
    rcases of_mem_held inA with rfl | rfl | rfl | ⟨rfl, haltA⟩ <;>
      rcases of_mem_held inB with same | same | same | ⟨same, haltB⟩ <;> try contradiction
    · exact Label.instr.inj same
    · exact Label.bypass.inj same
    · exact Label.table.inj same
    · exact Nat.succ.inj ((final memA haltA).trans (final memB haltB).symm)
  · exact (Graph.nodup_eraseDups _ _ le_rfl).map fun a b same => Label.failure.inj same
  · intro label inBody inStubs
    obtain ⟨entry, -, inHeld⟩ := List.mem_flatMap.mp inBody
    obtain ⟨e, -, rfl⟩ := List.mem_map.mp inStubs
    rcases of_mem_held inHeld with is | is | is | ⟨is, -⟩ <;> cases is

lemma block_of (each : s.AreCode code blocks) (at_ : code[k]? = some i) :
    ∃ block, blocks[k]? = some block ∧ s.IsCode k i block := by
  have entry : code.zipIdx[k]? = some (i, k) := by rw [getElem?_zipIdx, at_, Option.map_some, Nat.zero_add]
  obtain ⟨low, is⟩ := List.getElem?_eq_some_iff.mp entry
  have low' : k < blocks.length := each.length_eq ▸ low
  refine ⟨_, getElem?_eq_getElem low', ?_⟩
  simpa [is] using (List.forall₂_iff_get.mp each).2 k low low'

lemma whole_split (s : Site) (code : Instrs) (mem : items ∈ blocks) : ∃ front back, s.whole code blocks = front ++ items ++ back := by
  obtain ⟨earlier, later, rfl⟩ := append_of_mem mem
  exact ⟨ops s.prologue ++ earlier.flatten, later.flatten ++ _, by
    simp only [whole, flatten_append, flatten_cons, append_assoc]; rfl⟩

lemma codeSize_table (targets : List Nat) : codeSize (table targets) = 5 * targets.length := by
  induction targets with
  | nil => rfl
  | cons t rest ih =>
    have step : codeSize (table (t :: rest)) = 5 + codeSize (table rest) := rfl
    rw [step, ih, length_cons]
    omega

lemma table_entry {j t : Nat} (at_ : targets[j]? = some t) :
    ∃ front back, table targets = front ++ .op (.jump (.instr t)) :: back ∧ codeSize front = 5 * j := by
  obtain ⟨low, rfl⟩ := List.getElem?_eq_some_iff.mp at_
  refine ⟨table (targets.take j), table (targets.drop (j + 1)), ?_, ?_⟩
  · calc table targets = table (targets.take j ++ targets[j] :: targets.drop (j + 1)) := by
          rw [← drop_eq_getElem_cons low, take_append_drop]
      _ = _ := by
        rw [table, map_append, ops, map_append]
        rfl
  · rw [codeSize_table, length_take, Nat.min_eq_left (le_of_lt low)]

end Site

end Native

open Native

variable {table : HandleTable} {limits : Limits} {symbols : Symbols}

lemma Lawful.halt_last {code : Instrs} {k : Nat} (lawful : Lawful table code) (at_ : code[k]? = some .halt) :
    k + 1 = code.length := by
  obtain ⟨front, rfl⟩ := getLast?_eq_some_iff.mp lawful.last
  have none : front.countP Instr.isHalt = 0 := by simpa [Instr.isHalt] using lawful.halts
  rcases Nat.lt_or_ge k front.length with low | high
  · rw [getElem?_append_left low] at at_
    exact absurd rfl (countP_eq_zero.mp none _ (mem_of_getElem? at_))
  · have := (List.getElem?_eq_some_iff.mp at_).1
    simp only [length_append, length_singleton] at *
    omega

namespace Program

variable {p q : Program} {joined : List Reg}

lemma lawful_of_prepared (prepared : p.prepared table = .ok (q, joined)) : Lawful table q.code.toList := by
  have ends {r : Program} {regs : List Reg}
      (made : (orDefect (verifyCode table r.code.toList) >>= fun _ => Except.ok (r, regs)) = .ok (q, joined)) :
      verifyCode table q.code.toList = .ok () := by
    cases checked : verifyCode table r.code.toList with
    | error e => simp [checked, orDefect, bind, Except.bind] at made
    | ok =>
      rw [checked] at made
      cases made
      exact checked
  refine (verifyCode_eq_ok_iff.mp ?_).1
  by_cases decode : p.job = .decode
  · cases built : Graph.build? p.code with
    | none => simp [Program.prepared, decode, built, bind, Except.bind, throw, throwThe, MonadExceptOf.throw] at prepared
    | some g =>
      cases pruned : p.prune g with
      | error e => simp [Program.prepared, decode, built, pruned, orDefect, bind, Except.bind] at prepared
      | ok r =>
        simp only [Program.prepared, if_pos decode, built, pruned] at prepared
        exact ends prepared
  · simp only [Program.prepared, if_neg decode] at prepared
    exact ends prepared

lemma exists_items {n : NativeCode} (made : p.native table limits symbols = .ok n) :
    ∃ q joined alloc items, p.prepared table = .ok (q, joined) ∧ q.allocate limits joined = .ok alloc ∧
      (q.site table alloc symbols).function q.code.toList = .ok items ∧ assemble items = .ok n.code := by
  rw [native] at made
  cases prepared : p.prepared table with
  | error e => simp [prepared, bind, Except.bind] at made
  | ok result =>
    obtain ⟨q, joined⟩ := result
    cases allocated : q.allocate limits joined with
    | error e => simp [prepared, allocated, orDefect, bind, Except.bind] at made
    | ok alloc =>
      cases emitted : (q.site table alloc symbols).function q.code.toList with
      | error e =>
        simp only [prepared, allocated, orDefect, nativeItems_eq, emitted, bind, Except.bind] at made
        split at made <;> cases made
      | ok items =>
        cases assembled : assemble items with
        | error e =>
          simp only [prepared, allocated, orDefect, nativeItems_eq, emitted, assembled, bind, Except.bind] at made
          split at made <;> cases made
        | ok bytes =>
          simp only [prepared, allocated, orDefect, nativeItems_eq, emitted, assembled, bind, Except.bind] at made
          split at made
          · cases made
          · cases made
            exact ⟨q, joined, alloc, items, rfl, allocated, emitted, assembled⟩

/-- Every jump lands on the mark of its label, each label is marked once, and the jumps and marks of an
instruction's code are those it should have. -/
theorem jumps_land {n : NativeCode} (made : p.native table limits symbols = .ok n) (short : n.code.length < 2 ^ 31) :
    ∃ (q : Program) (joined : List Reg) (s : Site) (blocks : List (List Item)),
      p.prepared table = .ok (q, joined) ∧ s.job = q.job ∧ s.handles = table ∧
      (∀ k i, q.code.toList[k]? = some i → ∃ body, blocks[k]? = some (.mark (.instr k) :: body) ∧
        s.instruction k i = .ok (.mark (.instr k) :: body) ∧ Site.goals body = s.exits k i) ∧
      assemble (s.whole q.code.toList blocks) = .ok n.code ∧
      n.code.length = codeSize (s.whole q.code.toList blocks) ∧ (Site.marks (s.whole q.code.toList blocks)).Nodup ∧
      (∀ before o after label, s.whole q.code.toList blocks = before ++ .op o :: after → o.target? = some label →
        Lands n.code (s.whole q.code.toList blocks) (codeSize before + o.size) label) ∧
      ∀ k reg targets fallback, q.code.toList[k]? = some (.switch reg targets fallback) → targets ≠ [] →
        ∃ front back, s.whole q.code.toList blocks = front ++ .mark (.table k) :: back ∧
          ∀ j t, targets[j]? = some t → ∃ entries rest, back = entries ++ .op (.jump (.instr t)) :: rest ∧
            codeSize entries = 5 * j := by
  obtain ⟨q, joined, alloc, items, prepared, allocated, emitted, assembled⟩ := exists_items made
  have lawful := lawful_of_prepared prepared
  have fits := site_fits lawful allocated symbols
  obtain ⟨blocks, emitted', each⟩ := Site.function_ok fits
  obtain rfl := Except.ok.inj (emitted.symm.trans emitted')
  have marked := Site.marked_whole fits (by simp [site]) (mem_of_getLast? lawful.last) each
  have code : n.code = _ := Except.ok.inj (assembled.symm.trans (assemble_ok marked))
  have length : n.code.length = codeSize ((q.site table alloc symbols).whole q.code.toList blocks) := by
    rw [code, length_bytesFrom]
  refine ⟨q, joined, q.site table alloc symbols, blocks, prepared, rfl, rfl, fun k i at_ => ?_, assembled, length,
    Site.nodup_marks each fun k at_ => lawful.halt_last at_, fun before o after label split target => ?_,
    fun k reg targets fallback at_ some => ?_⟩
  · obtain ⟨block, there, isCode⟩ := Site.block_of each at_
    obtain ⟨body, rfl⟩ := isCode.starts
    exact ⟨body, there, isCode.made, isCode.goals⟩
  · have goal := marked label (Site.mem_goals.mpr ⟨o, split ▸ mem_append_right _ mem_cons_self, target⟩)
    rw [code]
    rw [length] at short
    generalize (q.site table alloc symbols).whole q.code.toList blocks = items at *
    subst split
    exact lands goal short target
  · obtain ⟨block, there, isCode⟩ := Site.block_of each at_
    obtain ⟨inner, rfl⟩ := isCode.table reg targets fallback rfl some
    obtain ⟨front, back, split⟩ := Site.whole_split (q.site table alloc symbols) q.code.toList (mem_of_getElem? there)
    refine ⟨front ++ inner, Site.table targets ++ back, by simpa using split, fun j t entry => ?_⟩
    obtain ⟨entries, rest, is, size⟩ := Site.table_entry entry
    exact ⟨entries, rest ++ back, by rw [is, append_assoc]; rfl, size⟩

def armed : Program := ⟨"armed", .encode, #[.check 4, .switch (.r 0) [2, 3] 3, .jump 0, .halt]⟩

theorem jumps_land_armed : ∃ n items, armed.native Builtin.table .default = .ok n ∧ n.code.length < 2 ^ 31 ∧
    assemble items = .ok n.code ∧ (Site.marks items).Nodup ∧ ∀ before o after label, items = before ++ .op o :: after → o.target? = some label →
      Lands n.code items (codeSize before + o.size) label := by
  have small : (match armed.native Builtin.table .default with
      | .ok n => decide (n.code.length < 2 ^ 31)
      | .error _ => false) = true := by decide +kernel
  cases made : armed.native Builtin.table .default with
  | error e => simp [made] at small
  | ok n =>
    rw [made] at small
    have short : n.code.length < 2 ^ 31 := of_decide_eq_true small
    obtain ⟨q, -, s, blocks, -, -, -, -, assembled, -, once, lands, -⟩ := jumps_land made short
    exact ⟨n, _, rfl, short, assembled, once, lands⟩

end Program

end WireCodec
