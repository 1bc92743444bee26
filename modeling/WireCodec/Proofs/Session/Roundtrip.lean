import WireCodec.Proofs.Codec.Room
import WireCodec.Proofs.Session.Acceptance

/-! What was encoded can be decoded, and what was decoded is encoded in a form that decoding keeps. -/
namespace WireCodec

open Heap

lemma Heap.alloc?_of_room {heap : Heap} {count : Nat} (room : after heap.size count ≤ limit) :
    ∃ root heap', heap.alloc? count = some (root, heap') := by
  cases got : heap.alloc? count with
  | none =>
    have full := alloc?_eq_none_iff.mp got
    change heap.next + count ≤ limit at room
    omega
  | some pair => exact ⟨pair.1, pair.2, rfl⟩

namespace Session

variable {known : Registry} {options : Options} {s s' : Session} {t : TypeDesc} {v w : Value} {c : Content}
  {heap target : Heap} {root : UInt32} {barrier : Bool} {bytes : List UInt8} {wire : Bytes} {size : Nat}

/-! Encoding into bytes of the size it needs, and decoding into a new record. -/

lemma encodeBytes_of_rooted (usable : known.Usable) (compact : known.Compact) (sound : s.Sound known options)
    (rooted : Rooted known t c heap root) (distinct : c.NoRepeats known t)
    (cap : c.frames known t ≤ options.maxNestingDepth) (frames : options.Framed) (barrier : Bool)
    (fits : (c.serial known t).length ≤ maxBlock) : (s.encodeBytes known t heap root barrier).result = .ok
    (c.serial known t) := by
  have follows : Follows known options s (s.encodedSize known t heap root barrier).session :=
    (perform_delivers usable sound rooted.has .measure #[] (Nat.zero_le _) heap root barrier).2.1
  have plays := rooted.plays usable compact options.maxNestingDepth
  rw [Content.script_eq t c options.maxNestingDepth cap distinct] at plays
  obtain ⟨size, same⟩ := encodedSize_plays usable sound rooted.has rooted.kind frames plays barrier
    (lt_of_le_of_lt fits (by decide))
  change _ = Except.ok (c.serial known t).length at size
  have room : (Array.replicate (c.serial known t).length (0 : UInt8)).size = (c.serial known t).length :=
    Array.size_replicate
  obtain ⟨result, wire, _⟩ := encode_of_rooted usable compact follows.sound rooted distinct cap frames barrier
    (le_trans (le_of_eq room) fits) (le_of_eq room.symm)
  simp only [encodeBytes, size, same, Outcome.map]
  change Except.map _ (encode _ known t heap root _ barrier).result = _
  rw [result, wire]
  exact congrArg Except.ok (take_toList_patch (le_of_eq room.symm))

lemma decodeNew_of_alloc (usable : known.Usable) (sound : s.Sound known options) (has : known.Has t)
    (kind : t.kind = .struct) (wire : Bytes) (heap : Heap) (barrier : Bool) :
    (heap.alloc? t.size.toNat = none → ∃ s',
      s.decodeNew known t wire heap barrier = ⟨.error (.codec ⟨.invalidLength, 0⟩), wire, heap, [], s'⟩) ∧
    ∀ root heap', heap.alloc? t.size.toNat = some (root, heap') → s.decodeNew known t wire heap barrier =
      (s.decode known t wire heap' root barrier).map fun consumed => ⟨root, consumed⟩ := by
  obtain ⟨set, s₁, first, last, found, _, soundFirst, compiled, _⟩ :=
    lookup_eq_ok sound (TypeDesc.recordType_struct kind) has (options.compiles usable t has kind)
  have type : set.type = t := (Lowering.isProgram_of_compile usable.sound has soundFirst compiled .decode).1
  have codecs_ : s.codecs known t = (.ok set, s₁) := by
    simp only [codecs, found]
  refine ⟨fun full => ?_, fun root heap' got => ?_⟩
  · exact ⟨s₁, by simp only [decodeNew, codecs_, type, full]⟩
  · simp only [decodeNew, decode, perform, codecs_, type, got]

lemma decodeNew_of_spells_at (usable : known.Usable) (compact : known.Compact) (flat : known.Flat)
    (sound : s.Sound known options) (has : known.Has t) (kind : t.kind = .struct) (frames : options.Framed)
    (started : target.Started) (barrier : Bool) (wireFits : wire.size ≤ maxBlock) (at_ : At wire 0 bytes)
    (spells : Spells known false options.maxNestingDepth t bytes c (after target.size t.size.toNat) size)
    (room : size ≤ limit) : ∃ root, (∃ heap', target.alloc? t.size.toNat = some (root, heap')) ∧
    (s.decodeNew known t wire target barrier).result = .ok ⟨root, bytes.length⟩ ∧ Rooted known t c
    (s.decodeNew known t wire target barrier).heap root := by
  obtain ⟨root, heap', got⟩ := alloc?_of_room (le_trans spells.grows room)
  have made := alloc?_eq_some got
  have size' : heap'.size = after target.size t.size.toNat := made.size
  have place := made.place
  have up := target.le_next
  have grown : target.size ≤ heap'.size := by
    rw [made.size]
    omega
  have inside : root.toNat + t.size.toNat ≤ heap'.size := by
    rw [place, made.size]
  rw [← size'] at spells
  obtain ⟨result, last, step, holds⟩ := decode_of_spells usable compact flat sound has kind frames
    (le_trans started grown) made.small inside wireFits barrier at_ spells room
  refine ⟨root, ⟨heap', got⟩, ?_, ?_⟩
  · rw [(decodeNew_of_alloc usable sound has kind wire target barrier).2 root heap' got, Outcome.map, result]
    rfl
  · rw [(decodeNew_of_alloc usable sound has kind wire target barrier).2 root heap' got]
    exact ⟨has, kind, step.small, le_trans inside step.grows, heap'.size, last ▸ holds⟩

lemma decodeNew_of_spells (usable : known.Usable) (compact : known.Compact) (flat : known.Flat)
    (sound : s.Sound known options) (has : known.Has t) (kind : t.kind = .struct) (frames : options.Framed)
    (started : target.Started) (barrier : Bool) (fits : bytes.length ≤ maxBlock)
    (spells : Spells known false options.maxNestingDepth t bytes c (after target.size t.size.toNat) size)
    (room : size ≤ limit) : ∃ root, (s.decodeNew known t bytes.toArray target barrier).result = .ok ⟨root, bytes.length⟩
    ∧ Rooted known t c (s.decodeNew known t bytes.toArray target barrier).heap root := by
  have at_ : At bytes.toArray 0 bytes := by
    have whole := @At.take bytes.toArray bytes.length le_rfl
    simpa using whole
  obtain ⟨root, _, decoded⟩ := decodeNew_of_spells_at usable compact flat sound has kind frames started barrier
    (show bytes.toArray.size ≤ maxBlock by simpa using fits) at_ spells room
  exact ⟨root, decoded⟩

lemma resend (usable : known.Usable) (compact : known.Compact) (flat : known.Flat) (sound : s.Sound known options)
    (rooted : Rooted known t c heap root) (sendable : c.Sendable known t)
    (cap : c.depth known t ≤ options.maxNestingDepth) (frames : options.Framed)
    (fits : (c.serial known t).length ≤ maxBlock) (started : target.Started) (barrier : Bool)
    (room : afterAll target.size (t.size.toNat :: c.blocks known t) ≤ limit) : ∃ root',
    (s.decodeNew known t (c.serial known t).toArray target barrier).result = .ok ⟨root', (c.serial known t).length⟩ ∧
    Rooted known t c (s.decodeNew known t (c.serial known t).toArray target barrier).heap root' := by
  obtain ⟨lo, holds⟩ := rooted.holds
  exact decodeNew_of_spells usable compact flat sound rooted.has rooted.kind frames started barrier fits
    (holds.spells usable rooted.has sendable cap _) room

/-- A value that was put into the arena and that reads back with all required fields, without repeats in sets and with
countable parts can be encoded, given frames enough. Decoding the bytes into any arena with room for the record takes
them all and gives a record that reads back as the same value. -/
theorem decode_encode (regular : known.Regular) (compact : known.Compact) (flat : known.Flat)
    (sound : s.Sound known options) (sound' : s'.Sound known options) (placed : Placed known t v heap root)
    (read : loadValue known heap root t = .ok w) (complete : w.Every known (Value.HasRequired known) t)
    (countable : w.Every known (fun _ => Value.IsCountable) t) (cap : w.depth known t ≤ options.maxNestingDepth)
    (frames : Context.frameBytes * (options.maxNestingDepth + 1) ≤ maxBlock)
    (fits : ((Content.ofValue known t v).serial known t).length ≤ maxBlock) (started : target.Started)
    (room : Heap.afterAll target.size (t.size.toNat :: (Content.ofValue known t v).blocks known t) ≤ Heap.limit)
    (barrier barrier' : Bool) : ∃ bytes root', (s.encodeBytes known t heap root barrier).result = .ok bytes ∧
      (s'.decodeNew known t bytes.toArray target barrier').result = .ok ⟨root', bytes.length⟩ ∧
      loadValue known (s'.decodeNew known t bytes.toArray target barrier').heap root' t = .ok w := by
  have usable := regular.usable (regular.built.entriesFit compact.sizes)
  have rooted := placed.rooted usable
  obtain rfl := Except.ok.inj ((rooted.loadValue_eq usable).symm.trans read)
  have tidy := Content.tidy_ofValue v t countable
  have deep := le_trans tidy.depth_le cap
  have encoded := encodeBytes_of_rooted usable compact sound rooted tidy.noRepeats
    (le_trans (Content.frames_le_depth _) deep) frames barrier fits
  obtain ⟨root', decoded, rooted'⟩ := resend usable compact flat sound' rooted (tidy.sendable complete) deep frames fits
    started barrier' room
  exact ⟨_, root', encoded, decoded, rooted'.loadValue_eq usable⟩

/-- A chain of two links comes back from its nineteen bytes. -/
theorem decode_encode_chain : ∃ bytes root',
    ((start Chain.options).encodeBytes Chain.schema Chain.node Chain.arena 8 false).result = .ok bytes ∧
    ((start Chain.options).decodeNew Chain.schema Chain.node bytes.toArray .empty false).result =
      .ok ⟨root', bytes.length⟩ ∧
    loadValue Chain.schema ((start Chain.options).decodeNew Chain.schema Chain.node bytes.toArray .empty false).heap
      root' Chain.node = .ok Chain.pair := by
  have usable := Chain.regular.usable (Chain.regular.built.entriesFit Chain.compact.sizes)
  have read : loadValue Chain.schema Chain.arena 8 Chain.node = .ok Chain.pair :=
    (Chain.placed.rooted usable).loadValue_eq usable
  have complete : Chain.pair.Every Chain.schema (Value.HasRequired Chain.schema) Chain.node :=
    ⟨by decide, trivial, ⟨by decide, trivial, trivial⟩, trivial⟩
  have countable : Chain.pair.Every Chain.schema (fun _ => Value.IsCountable) Chain.node :=
    ⟨trivial, trivial, ⟨trivial, trivial, trivial⟩, trivial⟩
  exact decode_encode Chain.regular Chain.compact Chain.flat (sound_start _ Chain.options) (sound_start _ Chain.options)
    Chain.placed read complete countable (by decide) (by decide) (by decide) le_rfl (by decide) false false

lemma spells_of_decodeNew (usable : known.Usable) (compact : known.Compact) (flat : known.Flat)
    (sound : s.Sound known options) (has : known.Has t) (kind : t.kind = .struct) (started : heap.Started)
    (wireFits : wire.size ≤ maxBlock) {d : Decoded} (ok : (s.decodeNew known t wire heap barrier).result = .ok d) :
    options.Framed ∧ ∃ c, Spells known false options.maxNestingDepth t (wire.toList.take d.consumed) c
    (after heap.size t.size.toNat) (s.decodeNew known t wire heap barrier).heap.size ∧ Rooted known t c
    (s.decodeNew known t wire heap barrier).heap d.root := by
  obtain ⟨failed, allocated⟩ := decodeNew_of_alloc usable sound has kind wire heap barrier
  cases got : heap.alloc? t.size.toNat with
  | none =>
    obtain ⟨_, none_⟩ := failed got
    rw [none_] at ok
    cases ok
  | some pair =>
    obtain ⟨root, heap'⟩ := pair
    rw [allocated root heap' got] at ok ⊢
    have made := alloc?_eq_some got
    have size' : heap'.size = after heap.size t.size.toNat := made.size
    have up := heap.le_next
    have grown : heap.size ≤ heap'.size := by
      rw [made.size]
      omega
    have inside : root.toNat + t.size.toNat ≤ heap'.size := by
      rw [made.place, made.size]
    cases result : (s.decode known t wire heap' root barrier).result with
    | error e =>
      rw [Outcome.map, result] at ok
      cases ok
    | ok n =>
      rw [Outcome.map, result] at ok
      cases ok
      obtain ⟨frames, bytes, c, last, at_, rfl, spells, fits⟩ := spells_of_decode usable compact flat sound has kind
        (le_trans started grown) made.small inside wireFits result
      obtain ⟨_, size, step, holds⟩ := decode_of_spells usable compact flat sound has kind frames
        (le_trans started grown) made.small inside wireFits barrier at_ spells fits
      refine ⟨frames, c, ?_, has, kind, step.small, le_trans inside step.grows, heap'.size, ?_⟩
      · change Spells known false options.maxNestingDepth t (wire.toList.take bytes.length) c _
          (s.decode known t wire heap' root barrier).heap.size
        rw [← at_.eq_take, ← size', size]
        exact spells
      · change Holds known (s.decode known t wire heap' root barrier).heap _
          (s.decode known t wire heap' root barrier).heap.size _ _ _ _
        rw [size]
        exact holds

/-- Encoding a decoded record that has all required fields and no more frames than the options allow gives its bytes in
canonical form. Decoding them takes them all and gives a record that reads back as the same value and is encoded as the
same bytes. The arena needs the memory that decoding took before, and the bytes must fit a block. -/
theorem reencode_canonical (regular : known.Regular) (compact : known.Compact) (flat : known.Flat)
    (sound : s.Sound known options) (sound' : s'.Sound known options) (has : known.Has t) (kind : t.kind = .struct)
    (started : heap.Started) {wire : Bytes} (wireFits : wire.size ≤ maxBlock) {d : Decoded}
    (ok : (s.decodeNew known t wire heap barrier).result = .ok d)
    (read : loadValue known (s.decodeNew known t wire heap barrier).heap d.root t = .ok w)
    (complete : w.Every known (Value.HasRequired known) t) (cap : w.depth known t ≤ options.maxNestingDepth)
    (barrier' : Bool) :
    ∃ c, Spells known false options.maxNestingDepth t (wire.toList.take d.consumed) c (Heap.after heap.size t.size.toNat)
        (s.decodeNew known t wire heap barrier).heap.size ∧ ((c.serial known t).length ≤ maxBlock →
        (s'.encodeBytes known t (s.decodeNew known t wire heap barrier).heap d.root barrier').result =
          .ok (c.serial known t) ∧ ∀ target : Heap, target.Started →
          target.size + ((s.decodeNew known t wire heap barrier).heap.size - heap.size) + 2 * Heap.unit ≤ Heap.limit →
          ∃ root', (s'.decodeNew known t (c.serial known t).toArray target barrier').result =
              .ok ⟨root', (c.serial known t).length⟩ ∧
            loadValue known (s'.decodeNew known t (c.serial known t).toArray target barrier').heap root' t = .ok w ∧
            (s'.encodeBytes known t (s'.decodeNew known t (c.serial known t).toArray target barrier').heap root'
              barrier').result = .ok (c.serial known t)) := by
  have usable := regular.usable (regular.built.entriesFit compact.sizes)
  obtain ⟨frames, c, spells, rooted⟩ := spells_of_decodeNew usable compact flat sound has kind started wireFits ok
  obtain rfl := Except.ok.inj ((rooted.loadValue_eq usable).symm.trans read)
  have deep := le_trans spells.tidy.depth_le cap
  have encodes : ∀ {heap : Heap} {root : UInt32}, Rooted known t c heap root → (c.serial known t).length ≤ maxBlock →
      (s'.encodeBytes known t heap root barrier').result = .ok (c.serial known t) := fun rooted fits =>
    encodeBytes_of_rooted usable compact sound' rooted spells.tidy.noRepeats
      (le_trans (Content.frames_le_depth c) deep) frames barrier' fits
  refine ⟨c, spells, fun fits => ⟨encodes rooted fits, fun target started' spare => ?_⟩⟩
  have room : Heap.afterAll target.size (t.size.toNat :: c.blocks known t) ≤ Heap.limit := by
    have taken := spells.takes_le
    rw [Heap.roundUp_after, Content.slotBlocks, if_neg Bool.false_ne_true] at taken
    have needed := Heap.afterAll_le target.size (t.size.toNat :: c.blocks known t)
    rw [Heap.takes_cons] at needed
    have := (Heap.le_roundUp target.size).2
    have := (Heap.le_roundUp heap.size).1
    have := (Heap.le_roundUp (s.decodeNew known t wire heap barrier).heap.size).2
    omega
  obtain ⟨root', decoded, rooted'⟩ := resend usable compact flat sound' rooted (spells.tidy.sendable complete) deep frames
    fits started' barrier' room
  exact ⟨root', decoded, rooted'.loadValue_eq usable, encodes rooted' fits⟩

/-- A link without a successor. -/
theorem reencode_canonical_chain : ∃ c : Content, (c.serial Chain.schema Chain.node).length ≤ maxBlock →
    ((start Chain.options).encodeBytes Chain.schema Chain.node ((start Chain.options).decodeNew Chain.schema Chain.node
      #[8, 0, 1, 0, 0, 0, 7, 0] .empty false).heap 8 false).result = .ok (c.serial Chain.schema Chain.node) := by
  have usable := Chain.regular.usable (Chain.regular.built.entriesFit Chain.compact.sizes)
  obtain ⟨result, arena⟩ := @decodeNew_ends (start Chain.options) Chain.schema Chain.node #[8, 0, 1, 0, 0, 0, 7, 0] .empty
    false 60 (.ok ⟨8, 8⟩) ⟨#[0, 0, 0, 0, 0, 0, 0, 0, 7, 0, 0, 0, 0, 0, 0, 0]⟩ (by decide +kernel)
  have placed : Placed Chain.schema Chain.node (.struct [some (.scalar (.i32 7)), none])
      ⟨#[0, 0, 0, 0, 0, 0, 0, 0, 7, 0, 0, 0, 0, 0, 0, 0]⟩ 8 := ⟨Chain.has_node, rfl, .empty, le_rfl, rfl⟩
  have read := (placed.rooted usable).loadValue_eq usable
  rw [← arena] at read
  obtain ⟨c, _, encoded⟩ := reencode_canonical Chain.regular Chain.compact Chain.flat (sound_start _ Chain.options)
    (sound_start _ Chain.options) Chain.has_node rfl le_rfl (by decide) result read
    ⟨by decide, trivial, trivial⟩ (by decide) false
  exact ⟨c, fun fits => (encoded fits).1⟩

end Session

/-! A record inside a record that need not be there, with a string that must. -/
namespace Shells

def text : TypeDesc := .string 0
def label : TypeDesc := ⟨1, .struct, "Label", 8, 4, none, none, none, [⟨1, "text", .required, text, none, 0⟩]⟩
def shell : TypeDesc := ⟨2, .struct, "Shell", 8, 4, none, none, none, [⟨1, "label", .default, label, none, 0⟩]⟩
def schema : Registry := ⟨#[some text, some label, some shell]⟩

def options (cap : Nat) : Options := { Options.default with backend := .interpreter, maxNestingDepth := cap }

lemma built : schema.Built := by
  have made : TypeDesc.record "Label" [⟨1, "text", .required, text, none, 0⟩] 1 = .ok label := rfl
  have made' : TypeDesc.record "Shell" [⟨1, "label", .default, label, none, 0⟩] 2 = .ok shell := rfl
  refine .define rfl ?_ made' (.reserve (.define rfl ?_ made (.reserve (.string .empty))))
  · simp only [List.mem_cons, List.not_mem_nil, or_false, forall_eq]
    rfl
  · simp only [List.mem_cons, List.not_mem_nil, or_false, forall_eq]
    rfl

lemma eq_of_has {t : TypeDesc} (has : schema.Has t) : t = text ∨ t = label ∨ t = shell := by
  simpa [schema] using has.mem

lemma regular : schema.Regular := by
  refine ⟨built, fun t has kind => ?_, fun t has => ?_, by decide⟩
  · rcases eq_of_has has with rfl | rfl | rfl <;> cases kind
  · rcases eq_of_has has with rfl | rfl | rfl <;> decide

lemma compact : schema.Compact := by
  refine ⟨fun t has => ?_, fun t key elem layout has is => ?_⟩
  · rcases eq_of_has has with rfl | rfl | rfl <;> decide
  · rcases eq_of_has has with rfl | rfl | rfl <;> cases is.kind

lemma flat : schema.Flat := by
  refine ⟨fun t elem has given => ?_, fun t key has given => ?_⟩ <;>
    rcases eq_of_has has with rfl | rfl | rfl <;> cases given

def blank : Heap := ⟨Array.replicate 16 0⟩

def filled : Heap := ⟨#[0, 0, 0, 0, 0, 0, 0, 0, 16, 0, 0, 0, 0, 0, 0, 0]⟩

lemma rooted_blank : Rooted schema shell (.record [.record [.nil]]) blank 8 :=
  have usable := regular.usable (regular.built.entriesFit compact.sizes)
  ⟨rfl, rfl, by decide, by decide, 0, holds_zero usable.sound shell rfl (@Heap.spans_of_slice blank 8 _ 8 (by decide)).1 (by decide)⟩

lemma rooted_filled : Rooted schema shell (.record [.record [.blob []]]) filled 8 := by
  have head : HeaderAt filled 16 16 8 16 0 0 := ⟨⟨(@Heap.spans_of_slice filled 8 _ 4 (by decide)).1, by decide⟩,
      ⟨(@Heap.spans_of_slice filled 12 _ 4 (by decide)).1, by decide⟩, by decide, by decide, by decide, by decide⟩
  have nothing : filled.Spans 16 [] := fun _ _ at_ => by cases at_
  have inner : Holds schema filled 16 16 false 8 label (.record [.blob []]) := by
    refine .record rfl rfl fun i field c at_ held => ?_
    cases i with
    | zero =>
      cases at_
      cases held
      exact .blob 16 (.inl rfl) head nothing
    | succ i => cases at_
  refine ⟨rfl, rfl, by decide, by decide, 16, .record rfl rfl fun i field c at_ held => ?_⟩
  cases i with
  | zero =>
    cases at_
    cases held
    exact inner
  | succ i => cases at_

/-- A shell that was left out is decoded as one without a label's text, and it takes no frame. It is encoded as one with
an empty text, which takes a frame more to decode than there are, and which reads back as another value. -/
theorem reencoding_differs : let bytes : List UInt8 := [12, 0, 1, 11, 0, 1, 0, 0, 0, 0, 0, 0]
    let decoded := (Session.start (options 1)).decodeNew schema shell #[0] .empty false
    let again := fun cap => (Session.start (options cap)).decodeNew schema shell bytes.toArray .empty false
    decoded.result = .ok ⟨8, 1⟩ ∧
    ((Session.start (options 1)).encodeBytes schema shell decoded.heap 8 false).result = .ok bytes ∧
    (again 1).result = .error (.codec ⟨.nestingOverflow, 3⟩) ∧
    loadValue schema decoded.heap 8 shell = .ok (.struct [some (.struct [none])]) ∧
    (again 2).result = .ok ⟨8, 12⟩ ∧
    loadValue schema (again 2).heap 8 shell = .ok (.struct [some (.struct [some (.string "")])]) := by
  intro bytes decoded again
  have usable := regular.usable (regular.built.entriesFit compact.sizes)
  obtain ⟨taken, arena⟩ := @Session.decodeNew_ends (Session.start (options 1)) schema shell #[0] .empty false 60
    (.ok ⟨8, 1⟩) blank (by decide +kernel)
  have written := @Session.encodeBytes_ends (Session.start (options 1)) schema shell blank 8 false 60 (.ok bytes)
    (by decide +kernel)
  have refused := (@Session.decodeNew_ends (Session.start (options 1)) schema shell bytes.toArray .empty false 60
    (.error (.codec ⟨.nestingOverflow, 3⟩)) blank (by decide +kernel)).1
  obtain ⟨taken', arena'⟩ := @Session.decodeNew_ends (Session.start (options 2)) schema shell bytes.toArray .empty false
    160 (.ok ⟨8, 12⟩) filled (by decide +kernel)
  refine ⟨taken, ?_, refused, ?_, taken', ?_⟩
  · rw [← arena] at written
    exact written
  · have read := rooted_blank.loadValue_eq usable
    rw [← arena] at read
    exact read
  · have read := rooted_filled.loadValue_eq usable
    rw [← arena'] at read
    exact read

end Shells

end WireCodec
