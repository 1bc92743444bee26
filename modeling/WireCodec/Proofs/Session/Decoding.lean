import WireCodec.Proofs.Session.Inlining

/-! Decoding changes the record it decodes into and nothing else that was in the arena, and it depends
on the bytes it consumes and on no others. -/
namespace WireCodec

def Act.final {α : Type} : EStateM.Result Trouble Scene α → Scene
  | .ok _ c => c
  | .error _ c => c

namespace Delivers

variable {exact : Prop} {eof : ErrorCode} {o : Outcome Nat} {r : EStateM.Result Trouble Scene Unit}

lemma leaves (sure : exact) (whole : ∀ offset c, r ≠ .error (.cut offset) c)
    (delivers : Delivers exact eof o r) : o.Leaves (Act.final r) := by
  cases r with
  | ok u c => exact delivers.2
  | error t c =>
    cases t with
    | codec code offset =>
      obtain ⟨_, _, _, _, same⟩ := delivers
      exact (same (.inl sure)).2
    | cut offset => exact absurd rfl (whole offset c)
    | outside =>
      rcases delivers with ⟨_, _, _, left⟩ | ⟨loose, _⟩
      · exact left
      · exact absurd sure loose
    | defect e => exact delivers.2
    | gaveUp ending => exact delivers.2

lemma eq_ok {n : Nat} (delivers : Delivers exact eof o r) (result : o.result = .ok n) :
    ∃ c, r = .ok () c ∧ c.pos.toNat = n ∧ o.Leaves c := by
  cases r with
  | ok u c => exact ⟨c, rfl, Except.ok.inj (delivers.1.symm.trans result), delivers.2⟩
  | error t c =>
    obtain ⟨e, failed, _⟩ := delivers.shows
    cases failed.symm.trans result

end Delivers

/-- Bytes of the record that a type stands for. The codec of a type is made for what it refers to, and its code for
what that refers to; for a record both are the record. -/
def TypeDesc.recordSize (known : Registry) (t : TypeDesc) : Nat :=
  match t.recordType known with
  | .error _ => 0
  | .ok other =>
    match other.recordType known with
    | .error _ => 0
    | .ok target => target.size.toNat

/-- Arena bytes of a value of the type, and of an entry if it is a map. -/
def TypeDesc.span (t : TypeDesc) : Nat :=
  t.size.toNat + match t.key, t.elem with
    | some key, some elem => (EntryLayout.of? key elem).elim 0 (·.stride.toNat)
    | _, _ => 0

/-- Memory that a byte of input pays for in each frame: what the largest type takes, with a box and its place. -/
def Registry.unit (known : Registry) : Nat :=
  (known.types.toList.map fun t => t.elim 0 TypeDesc.span).max?.getD 0 + 15

lemma Registry.spans_unit (known : Registry) : known.Spans known.unit := by
  have le : ∀ t, known.Has t → t.span + 15 ≤ known.unit := by
    intro t has
    have mem := List.mem_map_of_mem (Array.mem_toList_iff.mpr has.mem) (f := fun t => t.elim 0 TypeDesc.span)
    exact Nat.add_le_add_right (List.le_max?_getD_of_mem mem) 15
  refine ⟨fun t has => le_trans (Nat.add_le_add_right (Nat.le_add_right _ _) 15) (le t has),
    fun t key elem layout has is => ?_⟩
  have := le t has
  simp only [TypeDesc.span, is.key?, is.elem?, is.layout?, Option.elim] at this
  omega

namespace Session

variable {known : Registry} {options : Options} {s s' : Session} {t : TypeDesc}

lemma Task.consumes {limit : Nat} {v : UInt64 → Act Unit} (task : Task known .decode limit t v) {w : Window}
    (sound : known.Sound) (sizes : w.old = 0 ∨ ∀ t, known.Has t → t.size.toNat < 2 ^ 31) (has : known.Has t)
    {root : UInt32} (owns : w.Owns root.toNat (t.recordSize known)) :
    Act.Consumes w (limit * known.unit + 8) 0 (v root.toUInt64) fun _ n => 1 ≤ n := by
  cases task with
  | record found isTarget nests =>
    refine nests.consumes sound known.spans_unit sizes (sound.recordType (sound.recordType has found) isTarget) le_rfl
      le_rfl (.inr ?_) ?_
    · rw [UInt32.toNat_toUInt64]
      exact le_of_lt root.toNat_lt
    · simpa [TypeDesc.recordSize, found, isTarget] using owns
  | stuck => exact fun _ _ _ guards => Act.lost_at guards

/-- However decoding ends, it leaves the wire and every byte of the arena outside the record as they
were, and the arena never shrinks. -/
theorem decode_footprint (built : known.Built) (numbers : known.types.size ≤ 2 ^ 32)
    (sizes : ∀ t, known.Has t → t.size.toNat < 2 ^ 31) (sound : s.Sound known options) (has : known.Has t)
    {heap : Heap} (small : heap.size ≤ Heap.limit) (root : UInt32) (barrier : Bool) {wire : Bytes}
    (wireFits : wire.size ≤ maxBlock) : (s.decode known t wire heap root barrier).wire = wire ∧
    heap.size ≤ (s.decode known t wire heap root barrier).heap.size ∧
    ∀ k < heap.size, ¬ (root.toNat ≤ k ∧ k < root.toNat + t.recordSize known) →
      (s.decode known t wire heap root barrier).heap.bytes[k]? = heap.bytes[k]? := by
  obtain ⟨v, task, fulfils⟩ := exists_task .decode ⟨built.sound, numbers⟩ options has
  have left := (fulfils s wire heap root barrier sound wireFits nofun).delivers.leaves (by simp)
    (task.uncut built.sound (by simp) has _ _)
  have owns : (⟨root.toNat, root.toNat + t.recordSize known, heap.size⟩ : Window).Owns root.toNat
      (t.recordSize known) := .inr ⟨le_rfl, le_rfl⟩
  have consumes := task.consumes built.sound (.inr sizes) has owns (scene wire heap barrier)
    (lt_of_le_of_lt wireFits (by decide)) (Nat.zero_le _) (.inr ⟨le_rfl, small⟩)
  have keeps : Window.Keeps ⟨root.toNat, root.toNat + t.recordSize known, heap.size⟩ (scene wire heap barrier)
      (Act.final (v root.toUInt64 (scene wire heap barrier))) := by
    cases result : v root.toUInt64 (scene wire heap barrier) with
    | ok u c =>
      obtain ⟨_, _, took, _⟩ := consumes.ok result
      exact took.toKeeps
    | error t c => exact (consumes.error result).toKeeps
  exact ⟨left.wire.trans keeps.wire, left.heap ▸ keeps.grows, fun k low apart => left.heap ▸ keeps.same k low apart⟩

/-- Decoding a link leaves the word before it. -/
theorem decode_footprint_chain : ((start Chain.options).decode Chain.schema Chain.node
    #[8, 0, 1, 0, 0, 0, 7, 0] ⟨Array.replicate 16 5⟩ 8 false).heap.bytes[3]? = some 5 := by
  have small : (⟨Array.replicate 16 5⟩ : Heap).size ≤ Heap.limit := by decide
  have fits : (#[8, 0, 1, 0, 0, 0, 7, 0] : Bytes).size ≤ maxBlock := by decide
  have kept := (decode_footprint Chain.built (by decide) Chain.size_lt (sound_start _ Chain.options) Chain.has_node
    small 8 false fits).2.2 3 (by decide) (by decide)
  rw [kept]
  rfl

/-- Decoding on bytes that a decoding consumed succeeds in the same way, whatever follows them, and
decoding on fewer of them meets the end. -/
theorem decode_reads_consumed (built : known.Built) (numbers : known.types.size ≤ 2 ^ 32)
    (sound : s.Sound known options) (sound' : s'.Sound known options) (has : known.Has t) {heap : Heap}
    {root : UInt32} {barrier : Bool} {wire : Bytes} (wireFits : wire.size ≤ maxBlock) {n : Nat}
    (ok : (s.decode known t wire heap root barrier).result = .ok n) : n ≤ wire.size ∧
    (∀ more : Bytes, (wire.extract 0 n ++ more).size ≤ maxBlock →
      (s'.decode known t (wire.extract 0 n ++ more) heap root barrier).result = .ok n ∧
      (s'.decode known t (wire.extract 0 n ++ more) heap root barrier).heap =
        (s.decode known t wire heap root barrier).heap) ∧
    ∀ m < n, ∃ place, (s'.decode known t (wire.extract 0 m) heap root barrier).result =
      .error (.codec ⟨.unexpectedEof, place⟩) := by
  obtain ⟨v, task, fulfils⟩ := exists_task .decode ⟨built.sound, numbers⟩ options has
  obtain ⟨c, done, pos, left⟩ := (fulfils s wire heap root barrier sound wireFits nofun).delivers.eq_ok ok
  have small := lt_of_le_of_lt wireFits (show maxBlock < 2 ^ 64 by decide)
  obtain ⟨bytes, -, took, repeats⟩ := (task.consumes (w := ⟨0, 0, 0⟩) built.sound (.inl rfl) has (.inl (Nat.zero_le _))
    (scene wire heap barrier) small (Nat.zero_le _) (.inl rfl)).ok done
  have pos : c.pos.toNat = n := pos
  obtain rfl : bytes.length = n := by
    rw [← pos, took.toNat small]
    exact (Nat.zero_add _).symm
  obtain ⟨holds, inside⟩ : At wire 0 bytes := took.at_
  rw [Nat.zero_add] at inside
  have second := fun wire' fits => (fulfils s' wire' heap root barrier sound' fits nofun).delivers
  have again := fun wire' (fits : wire'.size ≤ maxBlock) =>
    repeats wire' 0 (lt_of_le_of_lt fits (by decide)) (Nat.zero_le _)
  refine ⟨inside, fun more fits => ?_, fun m low => ?_⟩
  · have size : (wire.extract 0 bytes.length).size = bytes.length := by
      rw [Array.size_extract]
      omega
    have at_ : At (wire.extract 0 bytes.length ++ more) 0 bytes := by
      refine ⟨fun k b is => ?_, by rw [Array.size_append]; omega⟩
      have below := (List.getElem?_eq_some_iff.mp is).1
      have same : _ = some b := holds k b is
      rw [Nat.zero_add] at same ⊢
      change (wire.extract 0 bytes.length ++ more)[k]? = _
      rwa [Array.getElem?_append_left (by omega), Array.getElem?_extract, if_pos (by omega), Nat.zero_add]
    have run : v root.toUInt64 (scene (wire.extract 0 bytes.length ++ more) heap barrier) = _ :=
      (again _ fits).whole at_
    have delivers := second _ fits
    rw [run] at delivers
    refine ⟨delivers.1.trans (congrArg _ ?_), delivers.2.heap.trans left.heap.symm⟩
    exact (congrArg UInt64.toNat took.pos).symm.trans pos
  · have size : (wire.extract 0 m).size = m := by
      rw [Array.size_extract]
      omega
    have starts : Starts (wire.extract 0 m) 0 bytes := by
      intro k b is below
      have same : _ = some b := holds k b is
      rw [Nat.zero_add] at same below ⊢
      rwa [Array.getElem?_extract, if_pos (by omega), Nat.zero_add]
    have fits : (wire.extract 0 m).size ≤ maxBlock := by omega
    obtain ⟨offset, scene', run⟩ := (again _ fits).cut starts (show _ < 0 + bytes.length by omega)
    have delivers := second _ fits
    have run : v root.toUInt64 (scene (wire.extract 0 m) heap barrier) = _ := run
    rw [run] at delivers
    obtain ⟨place, _, failed, _⟩ := delivers
    exact ⟨_, failed⟩

/-- A chain of one link is decoded in the same way when other bytes follow it. -/
theorem decode_reads_consumed_chain : ((start Chain.options).decode Chain.schema Chain.node
    (Array.extract #[8, 0, 1, 0, 0, 0, 7, 0] 0 8 ++ #[1, 2]) ⟨Array.replicate 16 0⟩ 8 false).result = .ok 8 := by
  have ok : ((start Chain.options).decode Chain.schema Chain.node #[8, 0, 1, 0, 0, 0, 7, 0]
      ⟨Array.replicate 16 0⟩ 8 false).result = .ok 8 := result_of_within 60 (by decide +kernel)
  exact ((decode_reads_consumed Chain.built (by decide) (sound_start _ Chain.options)
    (sound_start _ Chain.options) Chain.has_node (by decide) ok).2.1 #[1, 2] (by decide)).1

end Session

end WireCodec
