import WireCodec.Proofs.Session.Encoding

/-! Measuring foretells encoding. Both play the script of a record, so that they agree on its length and on the
error that ends it; a buffer that is too short is filled up to some place with the front of it. -/
namespace WireCodec.Session

variable {known : Registry} {options : Options} {s s' : Session} {t : TypeDesc} {v : Value} {heap : Heap} {root : UInt32}

/-- If measuring a value gives a size, encoding it gives that size in every buffer of at least that size, and in a
shorter one it runs out of room at some place, with the bytes before it written and those from it on as they were. If
measuring fails with an error of the codec, encoding meets the same error at the same place in every buffer that reaches
up to there. The arena stays as it is. -/
theorem encodedSize_foretells_encode (regular : known.Regular) (compact : known.Compact) (sound : s.Sound known options)
    (sound' : s'.Sound known options) (placed : Placed known t v heap root)
    (short : ((Content.ofValue known t v).script known options.maxNestingDepth t).bytes.length < 2 ^ 64)
    (barrier barrier' : Bool) :
    (s.encodedSize known t heap root barrier).heap = heap ∧
    (∀ out : Bytes, out.size ≤ maxBlock → (s'.encode known t heap root out barrier').heap = heap) ∧
    (∀ n, (s.encodedSize known t heap root barrier).result = .ok n → ∃ full : List UInt8, full.length = n ∧
      ∀ out : Bytes, out.size ≤ maxBlock → (n ≤ out.size → (s'.encode known t heap root out barrier').result = .ok n ∧
          (s'.encode known t heap root out barrier').wire = patch out 0 full) ∧
        (out.size < n → ∃ place ≤ out.size,
          (s'.encode known t heap root out barrier').result = .error (.codec ⟨.bufferTooSmall, place⟩) ∧
          (s'.encode known t heap root out barrier').wire.toList = full.take place ++ out.toList.drop place)) ∧
    ∀ code place, (s.encodedSize known t heap root barrier).result = .error (.codec ⟨code, place⟩) →
      ∀ out : Bytes, place ≤ out.size → out.size ≤ maxBlock →
        (s'.encode known t heap root out barrier').result = .error (.codec ⟨code, place⟩) := by
  have usable := regular.usable (regular.built.entriesFit compact.sizes)
  have rooted := placed.rooted usable
  have delivers := (perform_delivers usable sound rooted.has .measure #[] (Nat.zero_le _) heap root barrier).1
  have spares : ∀ out : Bytes, out.size ≤ maxBlock → (s'.encode known t heap root out barrier').heap = heap :=
    fun out fits => ((perform_delivers usable sound' rooted.has .encode out fits heap root barrier').2.2 rfl).heap
  by_cases frames : options.Framed
  · have plays := rooted.plays usable compact options.maxNestingDepth
    generalize (Content.ofValue known t v).script known options.maxNestingDepth t = script at plays short
    obtain ⟨measured, same⟩ := encodedSize_plays usable sound rooted.has rooted.kind frames plays barrier short
    have encoded := fun out => @encode_plays known options s' t heap root script usable sound' rooted.has rooted.kind
      frames plays barrier' out
    obtain ⟨bytes, error⟩ := script
    rw [measured]
    cases error with
    | none =>
      refine ⟨same, spares, fun n ok => ?_, fun _ _ e => by cases e⟩
      cases ok
      exact ⟨bytes, rfl, encoded⟩
    | some o =>
      refine ⟨same, spares, fun _ e => (by cases e), fun code place failed out room fits => ?_⟩
      cases failed
      exact ((encoded out fits).1 room).1
  · simp only [task, TypeDesc.recordType_struct rooted.kind, if_neg frames] at delivers
    have crashed : (s.encodedSize known t heap root barrier).result = .error .crashed := delivers.1
    rw [crashed]
    exact ⟨delivers.2.heap, spares, fun _ e => (by cases e), fun _ _ e => by cases e⟩

/-- A chain of two links, measured and encoded. -/
theorem encodedSize_foretells_encode_chain : ∃ full : List UInt8, full.length = 19 ∧ ∀ out : Bytes, out.size ≤ maxBlock →
    19 ≤ out.size → ((start Chain.options).encode Chain.schema Chain.node Chain.arena 8 out false).wire = patch out 0 full := by
  have usable := Chain.regular.usable Chain.entriesFit
  have rooted := Chain.placed.rooted usable
  have sound := sound_start Chain.schema Chain.options
  obtain ⟨_, _, foretells, _⟩ := encodedSize_foretells_encode Chain.regular Chain.compact sound sound Chain.placed
    (by decide) false false
  have size : ((start Chain.options).encodedSize Chain.schema Chain.node Chain.arena 8 false).result = .ok 19 :=
    (encodedSize_plays usable sound rooted.has rooted.kind (by decide) (rooted.plays usable Chain.compact _) false
      (by decide)).1
  obtain ⟨full, length, encodes⟩ := foretells 19 size
  exact ⟨full, length, fun out fits room => ((encodes out fits).1 room).2⟩

end WireCodec.Session
