import WireCodec.Proofs.Codec.Forward
import WireCodec.Proofs.Lowering.DecodeFolded
import WireCodec.Proofs.Lowering.EncodeDoes

/-! Code for reading a value, with its checks folded, does the actions of reading it. -/
namespace WireCodec

open Machine Lowering Reading

variable {width : Width} {signed : Bool} {c c' : Scene} {run : Option UInt32} {eof : ErrorCode} {off : UInt32}
  {post : β → Machine → Prop} {f : UInt64 → Act β}

lemma immWord_ofNat {k : Nat} (small : k < 2 ^ 31) : immWord (Int32.ofNat k) = k.toUInt64 := by
  have same : (UInt32.ofNat k).toNat = k := by
    rw [UInt32.toNat_ofNat', Nat.mod_eq_of_lt (by omega)]
  have word := immWord_of_lt (x := UInt32.ofNat k) (by omega)
  have cast : (UInt32.ofNat k).toInt32 = Int32.ofNat k := rfl
  rw [← cast, word]
  apply UInt64.toNat_inj.mp
  rw [UInt32.toNat_toUInt64, same]
  simp only [Nat.toUInt64_eq, UInt64.toNat_ofNat']
  omega

lemma immWord_tag (tag : UInt8) : immWord (Int32.ofNat tag.toNat) = tag.toUInt64 := by
  rw [immWord_ofNat (Nat.lt_trans tag.toNat_lt (by decide))]
  apply UInt64.toNat_inj.mp
  have := tag.toNat_lt
  simp only [Nat.toUInt64_eq, UInt64.toNat_ofNat', UInt8.toNat_toUInt64]
  omega

lemma Act.read_eq_ok {word : UInt64} (small : c.wire.size < 2 ^ 64) (ok : Act.read eof width signed c = .ok word c') :
    c'.wire = c.wire ∧ c'.pos.toNat = c.pos.toNat + width.bytes ∧ c'.pos.toNat ≤ c.wire.size := by
  unfold Act.read at ok
  cases cut : slice? c.wire c.pos.toNat width.bytes with
  | none =>
    rw [cut] at ok
    cases ok
  | some data =>
    rw [cut] at ok
    cases ok
    have fits := Act.size_of_slice? cut
    have bytes : width.bytes.toUInt64.toNat = width.bytes := by cases width <;> rfl
    have moved : (c.pos + width.bytes.toUInt64).toNat = c.pos.toNat + width.bytes := by
      rw [UInt64.toNat_add, bytes, Nat.mod_eq_of_lt (by omega)]
    exact ⟨rfl, moved, by simpa [Scene.move, moved] using fits⟩

namespace Act

lemma need_read (eof : ErrorCode) (width : Width) (signed : Bool) :
    (do need eof width.bytes.toUInt32.toUInt64; read eof width signed) = read eof width signed := by
  funext c
  have bytes : width.bytes.toUInt32.toUInt64.toNat = width.bytes := by cases width <;> rfl
  simp only [bind_apply, need, read, Scene.fits, bytes, slice?]
  by_cases fits : c.pos.toNat + width.bytes ≤ c.wire.size
  · simp [fits]
  · simp [fits]

lemma need_bind {α : Type} {n : UInt64} (fits : c.fits n = true) (x : Act α) : (do need eof n; x) c = x c := by
  rw [bind_apply, need, if_pos fits]

end Act

lemma Reading.fits_behind {base : UInt64} {n : UInt32} (small : c.wire.size < 2 ^ 64)
    (low : n ≤ 6) (fits : c.fits (width.bytes.toUInt32 + n).toUInt64 = true) (ok : (do
      let word ← Act.read Reading.eof width false
      Act.store width word base off) c = .ok () c') : c'.fits n.toUInt64 = true := by
  obtain ⟨word, mid, read, stored⟩ := Act.bind_eq_ok.mp ok
  obtain ⟨wire, pos, _⟩ := Act.read_eq_ok small read
  have same : c'.wire = mid.wire ∧ c'.pos = mid.pos := by
    unfold Act.store Act.onHeap at stored
    split at stored
    · cases stored
      exact ⟨rfl, rfl⟩
    · cases stored
  have low : n.toNat ≤ 6 := UInt32.le_iff_toNat_le.mp low
  have sum : (width.bytes.toUInt32 + n).toNat = width.bytes + n.toNat := by
    rw [UInt32.toNat_add]
    cases width <;> simp [Width.bytes] <;> omega
  simp only [Scene.fits, UInt32.toNat_toUInt64, sum, decide_eq_true_eq] at fits ⊢
  rw [same.1, same.2, wire, pos]
  omega

namespace Site

variable {E : Site} {table : TypeTable} {n : Nat} {m : Machine} {rest : Code} {k : UInt32} {dst : Reg} {β : Type}

def Reads (E : Site) : Prop := E.eof = Reading.eof

variable (reads : E.Reads)

include reads

lemma Runs.checkedRead (size : k = width.bytes.toUInt32)
    (runs : ∀ word m₁, m₁.get = Function.update m.get dst word → E.Runs table n rest m₁ (f word) post) : E.Runs table n
    (.check k :: .readInt width signed dst :: rest) m (Act.read Reading.eof width signed >>= f) post := by
  subst size
  rw [← Act.need_read, bind_assoc]
  refine Runs.cons (runs_check reads _) fun _ m₁ _ _ same => ?_
  subst same
  exact Runs.cons (runs_read reads) fun word m₂ _ _ regs => runs word m₂ regs

attribute [local simp] Cond.eval

section Simple

variable {t : TypeDesc} {base : Reg} {off : UInt32} {addr : UInt64}

lemma runs_readScalar (checked : Bool) (isPtr : base.isPtr = true) (atBase : m.get base = addr) :
    E.Runs table n ((if checked then [] else [.check width.bytes.toUInt32]) ++
        [.readInt width false r0, .store width r0 base off]) m (do
        let word ← Act.read Reading.eof width false
        Act.store width word addr off) fun _ m' => Kept m m' := by
  have notInt : base ≠ r0 := by rintro rfl; cases isPtr
  have last : ∀ word (m₁ : Machine), m₁.get = Function.update m.get r0 word → E.Runs table n [.store width r0 base off]
      m₁ (Act.store width word addr off) fun _ m' => Kept m m' := by
    intro word m₁ regs
    refine (runs_store (by simp [regs]) (by simp [regs, notInt, atBase])).mono le_rfl fun _ m₂ _ same reg isR0 _ _ => ?_
    rw [same, regs, Function.update_of_ne isR0]
  cases checked with
  | true => exact Runs.cons (runs_read reads) fun word m₁ _ _ regs => last word m₁ regs
  | false => exact .checkedRead reads rfl last

lemma Runs.headRead (size : k = width.bytes.toUInt32)
    (runs : ∀ word m₁, m₁.get = Function.update m.get dst word → E.Runs table n rest m₁ (f word) post) : E.Runs table n
    (headCheck run k :: .readInt width signed dst :: rest) m (Act.read Reading.eof width signed >>= f) post := by
  cases run with
  | none => exact .checkedRead reads size runs
  | some _ => exact .nop (Runs.cons (runs_read reads) fun word m₁ _ _ regs => runs word m₁ regs)

lemma renders_blobFrom (run : Option UInt32) (low : off.toNat + 4 < 2 ^ 32)
    (isPtr : base.isPtr = true) (notP2 : base ≠ p2) (atBase : m.get base = addr) :
    E.Renders n (blobFrom run base off) m (Reading.blob addr off) fun _ m' => Kept m m' := by
  have notInt : base ≠ r2 := by rintro rfl; cases isPtr
  rw [blobFrom, lengthAt_eq low, withM_pure]
  refine renders_code fun table => ?_
  refine .headRead reads rfl fun len m₁ regs₁ => ?_
  refine .exitIf (by simp [regs₁, isNegative]) fun _ => ?_
  refine Runs.cons (runs_checkReg reads (by simp [regs₁])) fun _ m₂ _ _ same => ?_
  subst same
  refine Runs.cons (runs_alloc (by simp [regs₁])) fun data m₃ _ _ regs₃ => ?_
  rw [regs₁] at regs₃
  refine Runs.cons (runs_storePtr (by simp [regs₃]) (by simp [regs₃, notInt, notP2, atBase])) fun _ m₄ _ _ regs₄ => ?_
  rw [regs₃] at regs₄
  refine Runs.cons (runs_store (by simp [regs₄]) (by simp [regs₄, notInt, notP2, atBase])) fun _ m₅ _ _ regs₅ => ?_
  rw [regs₄] at regs₅
  refine (runs_copyIn reads (by simp [regs₅]) (by simp [regs₅])).mono le_rfl fun _ m₆ _ regs₆ reg _ isR2 isP2 => ?_
  simp [regs₆, regs₅, isR2, isP2]

end Simple

section Container

variable {e : Entry} {base : Reg} {off : UInt32} {addr : UInt64}

/-- Registers after the head of a container. -/
structure AfterHead (e : Entry) (head : Reading.Head) (m m' : Machine) : Prop where
  count : m'.get r1 = head.count
  elemTag : m'.get r3 = head.elemTag
  keyTag : e.key.isSome = true → m'.get r2 = head.keyTag
  pointers : ∀ i, m'.get (.p i) = m.get (.p i)

lemma runs_headFrom (room : run.isSome = true → m.ctx.scene.fits e.headerSize.toUInt64 = true) :
    E.Runs table n (headCheck run e.headerSize :: headRest e) m (containerHead e) (AfterHead e · m) := by
  have keyTag : E.Runs table n (if e.key.isSome then [.readInt .w1 false r2] else []) m
      (Reading.keyTag e) fun word m' => (e.key.isSome = true → m'.get r2 = word) ∧
        ∀ i, m'.get (.p i) = m.get (.p i) := by
    unfold Reading.keyTag
    split
    · exact (runs_read reads).mono le_rfl fun word m' _ regs => by simp [regs]
    · rename_i isList
      exact runs_nil ⟨fun isMap => absurd isMap isList, fun _ => rfl⟩
  have rest : E.Runs table n (headRest e) m (do
      let keyTag ← Reading.keyTag e
      let elemTag ← Act.read Reading.eof .w1 false
      let count ← Act.read Reading.eof .w4 true
      if isNegative count then Act.fail .invalidLength
        else return ⟨keyTag, elemTag, count⟩) (AfterHead e · m) := by
    refine keyTag.append fun word m₂ _ _ ⟨atKey, pointers⟩ => ?_
    refine Runs.cons (runs_read reads) fun elemTag m₃ _ _ regs₃ => ?_
    refine Runs.cons (runs_read reads) fun count m₄ _ _ regs₄ => ?_
    rw [regs₃] at regs₄
    refine .exitIf (by simp [regs₄, isNegative]) fun _ => runs_nil ?_
    exact ⟨by simp [regs₄], by simp [regs₄], fun isMap => by simp [regs₄, atKey isMap],
      fun i => by simp [regs₄, pointers]⟩
  cases run with
  | none =>
    refine Runs.cons (runs_check reads _) fun _ m₁ _ _ same => ?_
    subst same
    exact rest
  | some passed => exact .nop (.congr (Act.need_bind (room rfl) _) rest)

omit reads in
lemma runs_decodeTags {head : Reading.Head} {m₀ : Machine} (at_ : AfterHead e head m₀ m)
    (positive : head.count ≠ 0) : E.Runs table n (decodeTags e) m (checkTags e head) fun _ m' => m' = m := by
  unfold decodeTags checkTags
  rw [if_neg positive]
  refine .exitIf ?_ fun _ => ?_
  · simp [at_.elemTag, immWord_tag]
  · cases key : e.key with
    | none => exact runs_nil rfl
    | some t =>
      refine .exitIf ?_ fun _ => runs_nil rfl
      simp [at_.keyTag (by rw [key]; rfl), immWord_tag]

lemma renders_decodeRoom (low : off.toNat + 4 < 2 ^ 32) (isPtr : base.isPtr = true)
    (atBase : m.get base = addr) : E.Renders n (decodeRoom e base off) m
      (makeRoom e (base = p1) (m.get r1) addr off) fun data m' =>
        m'.get r1 = m.get r1 ∧ m'.get p1 = data := by
  have notInt : base ≠ r2 := by rintro rfl; cases isPtr
  rw [decodeRoom, lengthAt_eq low, withM_pure]
  unfold makeRoom
  refine renders_code fun table => ?_
  refine .imm (Runs.cons (runs_checkReg reads (by simp [ImmOp.eval])) fun _ m₁ _ _ same => ?_)
  subst same
  refine .imm (Runs.cons (runs_alloc (by simp [ImmOp.eval, get_set])) fun data m₂ _ _ regs₂ => ?_)
  have atBase₂ : m₂.get base = if decide (base = p1) = true then data else addr := by
    by_cases isP1 : base = p1
    · simp [isP1, regs₂]
    · simp [isP1, regs₂, get_set, notInt, atBase]
  have atR1 : m₂.get r1 = m.get r1 := by simp [regs₂, get_set]
  have atP1 : m₂.get p1 = data := by simp [regs₂]
  refine Runs.cons (runs_storePtr atP1 atBase₂) fun _ m₃ _ _ regs₃ => ?_
  refine Runs.cons (runs_store (by rw [regs₃, atR1]) (by rw [regs₃, atBase₂])) fun _ m₄ _ _ regs₄ => runs_nil ?_
  rw [regs₄, regs₃]
  exact ⟨atR1, atP1⟩

variable {frames : Nat} {entry : Bool → Piece} [∀ flag k, Grows (entry flag k)]
  {act : Nat → UInt64 → Act Unit}

omit reads in
lemma renders_readLoop (handles : E.Handles frames e entry fun _ => act)
    (few : m.ctx.framesLeft ≤ frames) (positive : m.get r1 ≠ 0) (isSet : Bool) :
    E.Renders m.slotsHere (readLoop isSet e entry) m
      (entryLoop e m.ctx.framesLeft (m.get r1) (m.get p1) act) fun _ m' =>
        isSet = true → m'.get p3 = m.get p1 ∧ m'.get r3 = m.get r1 := by
  unfold readLoop entryLoop
  split
  · rename_i isSimple
    have start : E.Renders m.slotsHere
        (code (if isSet then [.seek p3 p1 0, .mov r3 r1] else [])) m (pure ()) fun _ m₁ =>
          m₁.get r1 = m.get r1 ∧ m₁.get p1 = m.get p1 ∧
          (isSet = true → m₁.get p3 = m.get p1 ∧ m₁.get r3 = m.get r1) := by
      refine renders_code fun table => ?_
      cases isSet with
      | false => exact runs_nil ⟨rfl, rfl, nofun⟩
      | true => exact .seek (.mov (runs_nil (by simp [get_set])))
    refine renders_silent start fun m₁ _ ran ⟨atR1, atP1, bounds⟩ => ?_
    rw [← atR1, ← atP1, ← ran.framesLeft, ← ran.slotsHere]
    refine renders_last ((renders_registerLoop handles isSimple rfl (atR1 ▸ positive)).mono
      le_rfl fun _ m₂ _ kept isSet => ?_)
    rw [kept.1, kept.2, atR1, atP1]
    exact bounds isSet
  · rename_i notSimple
    exact renders_framedLoop handles (Bool.eq_false_iff.mpr notSimple) few positive isSet

omit reads in
lemma renders_decodeDistinct (numbered : E.known.Numbered) {elem : TypeDesc}
    (has : E.known.Has elem) {data count : UInt64} (atP3 : m.get p3 = data) (atR3 : m.get r3 = count) :
    E.Renders n (decodeDistinct elem) m (Act.distinct E.known elem data count) fun _ _ => True := by
  refine renders_internType has fun index table sound found => ?_
  have bound : index < 2 ^ 32 := by
    have := (Array.getElem?_eq_some_iff.mp found).1
    have := sound.size_le
    have := numbered.numbers
    omega
  refine .movImm ((runs_distinct bound found (by simp) (by simp [get_set, atP3])
    (by simp [get_set, atR3])).mono le_rfl fun _ _ _ _ => trivial)

omit reads in
lemma renders_decodeEntries (numbered : E.known.Numbered) (has : E.known.Has e.elem)
    (handles : E.Handles frames e entry fun _ => act) (few : m.ctx.framesLeft ≤ frames)
    (positive : m.get r1 ≠ 0) (isSet : Bool) : E.Renders m.slotsHere (decodeEntries isSet e entry) m (do
        entryLoop e m.ctx.framesLeft (m.get r1) (m.get p1) act
        if isSet then Act.distinct E.known e.elem (m.get p1) (m.get r1) else pure ()) fun _ _ => True := by
  have loop := renders_readLoop handles few positive isSet
  rw [decodeEntries_eq]
  cases isSet with
  | false =>
    simp only [Bool.false_eq_true, if_false]
    change E.Renders _ _ _ (_ >>= pure) _
    rw [bind_pure]
    exact loop.mono le_rfl fun _ _ _ _ => trivial
  | true =>
    simp only [if_true]
    refine renders_seq loop fun _ m₁ _ _ bounds => renders_last ?_
    obtain ⟨atP3, atR3⟩ := bounds rfl
    exact renders_decodeDistinct numbered has atP3 atR3

lemma renders_containerFrom (room : run.isSome = true → m.ctx.scene.fits e.headerSize.toUInt64 = true)
    (numbered : E.known.Numbered) (has : E.known.Has e.elem) (low : off.toNat + 4 < 2 ^ 32) (isPtr : base.isPtr = true)
    (atBase : m.get base = addr) (handles : E.Handles frames e entry fun _ => act) (few : m.ctx.framesLeft ≤ frames)
    (isSet : Bool) : E.Renders m.slotsHere (containerFrom run isSet e base off entry) m
      (container E.known isSet e (base = p1) m.ctx.framesLeft addr off act) fun _ _ => True := by
  refine renders_seq (renders_code fun table => runs_headFrom reads room) fun head m₁ _ ran₁ at_ => ?_
  have atBase₁ : m₁.get base = addr := by
    cases base with
    | r i => cases isPtr
    | p i => rw [at_.pointers, atBase]
  have tags : E.Renders m.slotsHere (skipping (ifEq r1 0) (code (decodeTags e))) m₁
      (checkTags e head) fun _ m₂ => m₂ = m₁ := by
    refine renders_skipping (isTest_branchImm .eq r1 0) (fun taken start s => ?_) fun passed => ?_
    · have empty : head.count = 0 := by simpa [at_.count] using taken
      rw [checkTags, if_pos empty]
      exact .pure rfl
    · have positive : head.count ≠ 0 := by simpa [at_.count] using passed
      exact renders_code fun table => runs_decodeTags at_ positive
  refine renders_seq tags fun _ m₂ _ _ same => ?_
  subst same
  rw [← at_.count]
  refine renders_seq (renders_decodeRoom reads low isPtr atBase₁) fun data m₃ _ ran₃ made => renders_last ?_
  obtain ⟨atR1, atP1⟩ := made
  have ran := ran₁.trans ran₃
  rw [← atR1, ← atP1, ← ran.framesLeft, ← ran.slotsHere]
  refine renders_skipping (isTest_branchImm .eq r1 0) (fun taken start s => ?_) fun passed => ?_
  · have empty : m₃.get r1 = 0 := by simpa using taken
    rw [if_pos empty]
    exact .pure trivial
  · have positive : m₃.get r1 ≠ 0 := by simpa using passed
    rw [if_neg positive]
    exact renders_decodeEntries numbered has handles (ran.framesLeft ▸ few) positive isSet

end Container

section Value

variable {frames : Nat} {nested : Spots (TypeDesc → Piece)} [∀ way t k, Grows (nested way t k)]
  {act : Spots Visit} {addr : UInt64}

/-- What a value of this type asks for ahead of its code, if anything, is on the wire. -/
def HeadRoom (run : Option UInt32) (t : TypeDesc) (c : Scene) : Prop :=
  run.isSome = true → t.kind.hasHeader = true ∧ c.fits t.kind.minWireSize.toUInt64 = true

omit reads in
lemma headRoom_none (t : TypeDesc) (c : Scene) : HeadRoom none t c := nofun

omit reads in
lemma HeadRoom.alone {run : Option UInt32} {c : Scene} (room : HeadRoom run t c) (bare : t.kind.hasHeader ≠ true) :
    run = none := by
  cases run with
  | none => rfl
  | some _ => exact absurd (room rfl).1 bare

/-- Records inside a value: their code keeps its checks to itself and does `act`. -/
structure Inner (E : Site) (frames : Nat) (nested : Spots (TypeDesc → Piece))
    (act : Spots Visit) : Prop where
  enclosed : EnclosedNested E.known nested
  does : E.Nested frames (fun way record => foldFrom none (nested way record)) act

omit reads [∀ way t k, Grows (nested way t k)] in
lemma Inner.part (inner : E.Inner frames nested act) (i : Nat) : E.Inner frames (nested.part i) (act.part i) :=
  ⟨fun way => inner.enclosed (i :: way), fun way => inner.does (i :: way)⟩

omit reads in
lemma joined_size (width : Width) (kind : Kind) : max width.bytes.toUInt32
        (max (Peephole.addCapped (Peephole.addCapped 0 width.bytes.toUInt32) kind.minWireSize) 0) =
      width.bytes.toUInt32 + kind.minWireSize := by
  cases kind <;> cases width <;> decide

lemma renders_joined (numbered : E.known.Numbered) {key elem : TypeDesc} (hasKey : E.known.Has key)
    (hasElem : E.known.Has elem) (isScalar : key.kind.isScalar = true)
    (header : elem.kind.hasHeader = true) {valueOffset stride : UInt32}
    (doesElem : ∀ run m, HeadRoom run elem m.ctx.scene →
      (isSimple elem = false → m.ctx.framesLeft < frames) → E.Renders m.slotsHere
        (foldFrom run (decodeValue E.known (nested.part 1) elem false p1 valueOffset)) m
        (value E.known (act.part 1) elem true m.ctx.framesLeft (m.get p1) valueOffset) fun _ m' =>
          isSimple elem = true → Kept m m') (few : isSimple elem = false → m.ctx.framesLeft < frames) :
    E.Renders m.slotsHere (foldFrom none (Entry.parts ⟨some key, elem, valueOffset, stride⟩
        (some (decodeValue E.known (nested.part 0) key false p1 0))
        (decodeValue E.known (nested.part 1) elem false p1 valueOffset))) m (do
        entryRoom key elem
        value E.known (act.part 0) key true m.ctx.framesLeft (m.get p1) 0
        value E.known (act.part 1) elem true m.ctx.framesLeft (m.get p1) valueOffset) fun _ m' =>
      isSimple elem = true → Kept m m' := by
  have simpleKey : isSimple key = true := by simp [isSimple, isScalar]
  have whole : foldFrom none (Entry.parts ⟨some key, elem, valueOffset, stride⟩
        (some (decodeValue E.known (nested.part 0) key false p1 0))
        (decodeValue E.known (nested.part 1) elem false p1 valueOffset)) =
      withM (scalarWidth key) fun width => seq [code [.check (width.bytes.toUInt32 +
          elem.kind.minWireSize), .readInt width false r0, .store width r0 p1 0],
        foldFrom (some (Peephole.addCapped 0 width.bytes.toUInt32))
          (decodeValue E.known (nested.part 1) elem false p1 valueOffset)] := by
    have plain : Entry.parts ⟨some key, elem, valueOffset, stride⟩ (some (decodeValue E.known (nested.part 0) key false p1 0))
        (decodeValue E.known (nested.part 1) elem false p1 valueOffset) =
        withM (scalarWidth key) fun width => seq [code [.check width.bytes.toUInt32,
          .readInt width false r0, .store width r0 p1 0],
          decodeValue E.known (nested.part 1) elem false p1 valueOffset] := by
      rw [decodeValue_scalar false isScalar, parts_eq, reload]
      simp only [simpleKey, if_true, Bool.false_eq_true, if_false]
      rw [seq_withM]
      simp only [seq_code_nil]
      rfl
    rw [plain, foldFrom_withM]
    congr 1
    funext width
    rw [foldFrom_joined (asks_decodeValue numbered.sound elem hasElem false p1 valueOffset header _), joined_size]
  have joined : isJoined key elem = true := by simp [isJoined, isScalar, header]
  rw [whole, scalarWidth_eq (numbered.sound.shaped key hasKey) isScalar, withM_pure]
  have first : E.Renders m.slotsHere (code [.check ((Writing.width key).bytes.toUInt32 +
        elem.kind.minWireSize), .readInt (Writing.width key) false r0,
        .store (Writing.width key) r0 p1 0]) m (do
        entryRoom key elem
        value E.known (act.part 0) key true m.ctx.framesLeft (m.get p1) 0) fun _ m' => Kept m m' := by
    rw [value_scalar _ _ _ _ isScalar, entryRoom, if_pos joined]
    refine renders_code fun table => Runs.cons (runs_check reads _) fun _ m₁ _ _ same => ?_
    subst same
    exact runs_readScalar reads true rfl rfl
  rw [← bind_assoc]
  refine renders_of_clean fun clean => renders_seq first fun _ m₁ ok ran kept => ?_
  have room : m₁.ctx.scene.fits elem.kind.minWireSize.toUInt64 = true := by
    rw [value_scalar _ _ _ _ isScalar, entryRoom, if_pos joined] at ok
    obtain ⟨_, c, asked, read⟩ := Act.bind_eq_ok.mp ok
    have fits : m.ctx.scene.fits ((Writing.width key).bytes.toUInt32 + elem.kind.minWireSize).toUInt64 = true ∧ c =
        m.ctx.scene := by
      unfold Act.need at asked
      split at asked
      · rename_i fits
        cases asked
        exact ⟨fits, rfl⟩
      · cases asked
    obtain ⟨fits, rfl⟩ := fits
    refine fits_behind (lt_of_le_of_lt clean.wireFits (by decide)) ?_ fits read
    cases kind : elem.kind <;> first | decide | (rw [kind] at header; cases header)
  have cursor : m₁.get p1 = m.get p1 := kept p1 (by decide) (by decide) (by decide)
  rw [← cursor, ← ran.framesLeft, ← ran.slotsHere]
  exact renders_last ((doesElem _ m₁ (fun _ => ⟨header, room⟩) (ran.framesLeft ▸ few)).mono
    le_rfl fun _ _ _ keptElem simple => kept.trans (keptElem simple))

lemma renders_decodeValue (numbered : E.known.Numbered) (inner : E.Inner frames nested act)
    (t : TypeDesc) (has : E.known.Has t) (checked : Bool) {base : Reg} (isBase : base = p0 ∨ base = p1)
    (low : off.toNat + t.size.toNat < 2 ^ 32) (run : Option UInt32) (m : Machine)
    (room : HeadRoom run t m.ctx.scene) (few : isSimple t = false → m.ctx.framesLeft < frames) :
    E.Renders m.slotsHere (foldFrom run (decodeValue E.known nested t checked base off)) m
      (value E.known act t (base = p1) m.ctx.framesLeft (m.get base) off) fun _ m' =>
        isSimple t = true → Kept m m' := by
  have isPtr : base.isPtr = true := by rcases isBase with rfl | rfl <;> rfl
  induction t, has using numbered.sound.induction generalizing nested act checked base off run m with
  | scalar t has isScalar =>
    obtain rfl := room.alone fun header => by simp [Kind.isScalar_of_hasHeader header] at isScalar
    rw [foldFrom_scalar checked isScalar, decodeValue_scalar checked isScalar,
      value_scalar _ _ _ _ isScalar, scalarWidth_eq (numbered.sound.shaped t has) isScalar, withM_pure]
    refine renders_code fun table => ?_
    exact (runs_readScalar reads checked isPtr rfl).mono le_rfl fun _ _ _ kept _ => kept
  | blob t has kind =>
    have header := Kind.hasHeader_of_blob kind
    rw [foldFrom_blob checked kind, value_blob _ _ _ _ kind]
    exact (renders_blobFrom reads run (length_low (numbered.sound.shaped t has) header low) isPtr
      (by rcases isBase with rfl | rfl <;> decide) rfl).mono le_rfl
      fun _ _ _ kept _ => kept
  | sequence t has elem is ih =>
    have header := is.hasHeader
    have notSimple : isSimple t = false := by
      rcases is.kind with kind | kind <;> simp [isSimple, kind, Kind.isScalar, Kind.scalarSize?]
    have size : t.kind.minWireSize = (Entry.ofList elem).headerSize := by
      rcases is.kind with kind | kind <;> rw [kind] <;> rfl
    have inReach : (0 : UInt32).toNat + elem.size.toNat < 2 ^ 32 := by simpa using elem.size.toNat_lt
    rw [foldFrom_sequence checked is, value_sequence _ _ _ _ is]
    refine (renders_containerFrom reads (fun isSome => size ▸ (room isSome).2) numbered is.hasElem
      (length_low (numbered.sound.shaped t has) header low) isPtr rfl
      ⟨fun simple flag _ m => ?_, fun _ m few _ => ?_⟩ (le_of_lt (few notSimple)) _).vacuous notSimple
    · have isSimple : isSimple elem = true := by simpa [Entry.isSimple, Entry.ofList] using simple
      exact (ih (inner.part 0) flag (.inr rfl) inReach none m (headRoom_none _ _)
        (fun notSimple => Bool.noConfusion (isSimple.symm.trans notSimple)) rfl).mono
        le_rfl fun _ _ _ kept => kept isSimple
    · exact (ih (inner.part 0) false (.inr rfl) inReach none m (headRoom_none _ _) (fun _ => few) rfl).mono
        le_rfl fun _ _ _ _ => trivial
  | map t has key elem layout is ihKey ihElem =>
    have header := is.hasHeader
    have notSimple : isSimple t = false := by
      simp [isSimple, is.kind, Kind.isScalar, Kind.scalarSize?]
    have size : t.kind.minWireSize = (Entry.mk (some key) elem layout.valueOffset layout.stride).headerSize := by
      rw [is.kind]
      rfl
    have keyInReach : (0 : UInt32).toNat + key.size.toNat < 2 ^ 32 := by
      simpa using key.size.toNat_lt
    have elemInReach : layout.valueOffset.toNat + elem.size.toNat < 2 ^ 32 :=
      lt_of_le_of_lt (TypeDesc.EntryLayout.bounds is.layout?).2 layout.stride.toNat_lt
    have parts : ∀ flag m,
        flag = (Entry.mk (some key) elem layout.valueOffset layout.stride).fixedSize?.isSome →
        (isSimple key = false ∨ isSimple elem = false →
          m.ctx.framesLeft < frames ∧ m.ctx.readSlot 0 = m.get p1) →
        E.Renders m.slotsHere (foldFrom none (Entry.parts ⟨some key, elem, layout.valueOffset, layout.stride⟩
            (some (decodeValue E.known (nested.part 0) key flag p1 0))
            (decodeValue E.known (nested.part 1) elem flag p1 layout.valueOffset))) m (do
          entryRoom key elem
          value E.known (act.part 0) key true m.ctx.framesLeft (m.get p1) 0
          value E.known (act.part 1) elem true m.ctx.framesLeft (m.get p1) layout.valueOffset)
          fun _ m' => isSimple key = true → isSimple elem = true → Kept m m' := by
      intro flag m fixed few
      rcases parts_cases numbered.sound (fun i => (inner.part i).enclosed) is.hasKey is.hasElem fixed with
        ⟨isScalar, header, rfl⟩ | ⟨apart, parted⟩
      · exact (renders_joined reads numbered is.hasKey is.hasElem isScalar header
          (fun run m room few => ihElem (inner.part 1) false (.inr rfl) elemInReach run m room few rfl) fun notSimple => (few (.inr notSimple)).1).mono le_rfl
          fun _ _ _ kept _ simple => kept simple
      · rw [foldFrom_parts_apart parted, entryRoom, isJoined, apart, if_neg Bool.false_ne_true, pure_bind]
        exact @renders_parts E frames key elem layout.valueOffset layout.stride
          (fun flag => foldFrom none (decodeValue E.known (nested.part 0) key flag p1 0))
          (fun flag => foldFrom none (decodeValue E.known (nested.part 1) elem flag p1 layout.valueOffset))
          (fun _ left base => value E.known (act.part 0) key true left base 0)
          (fun _ left base => value E.known (act.part 1) elem true left base layout.valueOffset) _
          (fun flag m few => ihKey (inner.part 0) flag (.inr rfl) keyInReach none m (headRoom_none _ _) few rfl)
          (fun flag m few => ihElem (inner.part 1) flag (.inr rfl) elemInReach none m (headRoom_none _ _) few rfl)
          flag m few
    rw [foldFrom_map checked is, is.entry, withM_inReach, value_map _ _ _ _ is]
    refine (renders_containerFrom reads (fun isSome => size ▸ (room isSome).2) numbered is.hasElem
      (length_low (numbered.sound.shaped t has) header low) isPtr rfl
      ⟨fun simple flag fixed m => ?_, fun notSimple m few slot => ?_⟩
      (le_of_lt (few notSimple)) false).vacuous notSimple
    · obtain ⟨simpleElem, simpleKey⟩ : isSimple elem = true ∧ isSimple key = true := by
        simpa [Entry.isSimple] using simple
      refine (parts flag m fixed ?_).mono le_rfl fun _ _ _ kept => kept simpleKey simpleElem
      rintro (notSimple | notSimple)
      · exact Bool.noConfusion (simpleKey.symm.trans notSimple)
      · exact Bool.noConfusion (simpleElem.symm.trans notSimple)
    · refine (parts false m ?_ fun _ => ⟨few, slot⟩).mono le_rfl fun _ _ _ _ => trivial
      rw [fixedSize_map]
      cases both : key.kind.isScalar && elem.kind.isScalar with
      | false => rfl
      | true =>
        obtain ⟨isKey, isElem⟩ := Bool.and_eq_true_iff.mp both
        simp [Entry.isSimple, isSimple, isKey, isElem] at notSimple
  | cramped t has key elem is =>
    rw [decodeValue_cramped checked is]
    intro _ _ _ _ _ made
    cases made
  | struct t has kind =>
    obtain rfl := room.alone (by rw [kind]; decide)
    have notSimple : isSimple t = false := by
      simp [isSimple, kind, Kind.isScalar, Kind.scalarSize?]
    rw [foldFrom_struct checked kind, value_struct _ _ _ _ kind]
    refine renders_silent (renders_code fun table => runs_seekRecord rfl) fun m₁ _ ran atBase => ?_
    rw [← ran.slotsHere, ← ran.framesLeft]
    exact (renders_last (renders_nestedRecord inner.does has
      (ran.framesLeft ▸ few notSimple) atBase)).vacuous notSimple
  | pointer t has kind =>
    obtain rfl := room.alone (by rw [kind]; decide)
    have notSimple : isSimple t = false := by
      simp [isSimple, kind, Kind.isScalar, Kind.scalarSize?]
    have notP2 : base ≠ p2 := by rcases isBase with rfl | rfl <;> decide
    have notInt : base ≠ r2 := by rcases isBase with rfl | rfl <;> decide
    rw [foldFrom_pointer checked kind]
    cases ok : t.recordType E.known with
    | error e =>
      intro _ _ _ _ _ made
      cases made
    | ok record =>
      rw [value_pointer _ _ _ _ kind ok]
      change E.Renders _ (seq _) _ _ _
      have start : E.Renders m.slotsHere
          (code (allocateConst p2 record.size ++ [.storePtr p2 base off, .seek p0 p2 0])) m (do
            let data ← Act.alloc record.size.toUInt64
            Act.storePtr data (m.get base) off
            return data) fun data m' => m'.get p0 = data := by
        refine renders_code fun table => .movImm ?_
        refine Runs.cons (runs_alloc (by simp)) fun data m₁ _ _ regs₁ => ?_
        refine Runs.cons (runs_storePtr (by simp [regs₁])
          (by simp [regs₁, get_set, notInt, notP2])) fun _ m₂ _ _ regs₂ => .seek (runs_nil ?_)
        simp [regs₂, regs₁]
      have same : (do
          let data ← Act.alloc record.size.toUInt64
          Act.storePtr data (m.get base) off
          act [] m.ctx.framesLeft record data) = ((do
            let data ← Act.alloc record.size.toUInt64
            Act.storePtr data (m.get base) off
            return data) >>= fun data => act [] m.ctx.framesLeft record data) := by
        simp only [bind_assoc, pure_bind]
      rw [same]
      refine renders_seq start fun data m₁ _ ran atP0 => ?_
      rw [← ran.slotsHere, ← ran.framesLeft, ← atP0]
      exact (renders_last (inner.does [] record ⟨t, has, ok⟩ m₁ (ran.framesLeft ▸ few notSimple))).vacuous notSimple

lemma renders_decodeField (numbered : E.known.Numbered) (inner : E.Inner frames nested act)
    {field : FieldDesc} (has : E.known.Has field.type)
    (low : field.offset.toNat + field.slotSize.toNat < 2 ^ 32) (few : m.ctx.framesLeft < frames)
    (atBase : m.get p0 = addr) : E.Renders m.slotsHere (foldFrom none (decodeField E.known nested field)) m
      (Reading.field E.known act m.ctx.framesLeft addr field) fun _ _ => True := by
  subst atBase
  unfold decodeField Reading.field
  split
  · rename_i boxed
    rw [foldFrom_boxed, scalarWidth_eq (numbered.sound.shaped _ has) (Field.isScalar_of_isBoxed boxed), withM_pure]
    refine renders_code fun table => ?_
    refine .movImm (Runs.cons (runs_alloc (by simp)) fun cell m₁ _ _ regs₁ => ?_)
    refine Runs.cons (runs_storePtr (by simp [regs₁]) (by simp [regs₁, get_set])) fun _ m₂ _ _ regs₂ => ?_
    refine .checkedRead reads rfl fun word m₃ regs₃ => ?_
    exact (runs_store (by simp [regs₃]) (by simp [regs₃, regs₂, regs₁])).mono le_rfl fun _ _ _ _ => trivial
  · rename_i inPlace
    exact (renders_decodeValue reads numbered inner _ has false (.inl rfl)
      (low_of_slot inPlace low) none m (headRoom_none _ _) fun _ => few).mono le_rfl
      fun _ _ _ _ => trivial

end Value

end Site

end WireCodec
