import WireCodec.Proofs.Lowering.EncodeMade

/-! Code for writing does the actions of writing. -/
namespace WireCodec.Site

open Machine Lowering List
open Writing (checkSet container containerHead entries entryLoop header headerField int keyTag record room scalar scalarField value width)

variable {E : Site} {table : TypeTable} {n : Nat} {m : Machine} {out : Output} {word : UInt64} {base reg : Reg}
  {off : UInt32} {t : TypeDesc}

/-- The program's code for a wire that ends is the one of writing, if it writes. -/
def Writes (E : Site) (out : Output) : Prop := out = .write → E.eof = .bufferTooSmall

variable (writes : E.Writes out)

include writes

lemma runs_reserve (k : UInt32) : E.Runs table n (out.reserve k) m (room out k.toUInt64) fun _ m' => m' = m := by
  cases out with
  | count => exact runs_nil rfl
  | write => exact fun _ _ has _ => does_check has (writes rfl)

lemma runs_reserveReg (at_ : m.get reg = word) :
    E.Runs table n (out.reserveReg reg) m (room out word) fun _ m' => m' = m := by
  cases out with
  | count => exact runs_nil rfl
  | write => exact runs_checkReg (writes rfl) at_

omit writes in
lemma runs_literal (width : Width) (value : UInt64) :
    E.Runs table n (out.literal width value) m (Writing.literal out width value) fun _ m' =>
      m'.get = m.get := by
  cases out with
  | count => exact fun _ _ has _ => does_advance has
  | write => exact fun _ _ has _ => does_literal has

lemma runs_int (width : Width) (at_ : m.get reg = word) :
    E.Runs table n (out.int width reg) m (int out width word) fun _ m' => m'.get = m.get := by
  subst at_
  cases out with
  | count => exact fun _ _ has _ => does_advance has
  | write => exact fun _ _ has _ => does_write has (writes rfl)

lemma runs_bytes {src len : Reg} {data count : UInt64} (atSrc : m.get src = data) (atLen : m.get len = count) : E.Runs
    table n (out.bytes src len) m (Writing.bytes out data count) fun _ m' => m'.get = m.get := by
  subst atSrc atLen
  cases out with
  | count => exact fun _ _ has _ => does_advanceReg has
  | write => exact fun _ _ has _ => does_copyOut has (writes rfl)

lemma runs_fieldHeader (field : FieldDesc) :
    E.Runs table n (fieldHeader out field) m (header out field) fun _ m' => m'.get = m.get := by
  rw [fieldHeader, append_assoc]
  refine (runs_reserve writes 3).append fun _ m₁ _ _ same => ?_
  subst same
  refine (runs_literal .w1 _).append fun _ m₂ _ _ same => ?_
  rw [← same]
  exact runs_literal .w2 _

lemma runs_stopMark : E.Runs table n (stopMark out) m (Writing.stopMark out) fun _ m' => m'.get = m.get := by
  refine (runs_reserve writes 1).append fun _ m₁ _ _ same => ?_
  subst same
  exact runs_literal .w1 _

section Simple

variable {t : TypeDesc} {base : Reg} {off : UInt32} {addr : UInt64}

lemma runs_scalar (width : Width) (atBase : m.get base = addr) :
    E.Runs table n ([.load width false r0 base off] ++ out.int width r0) m
      (Act.fetch width addr off >>= int out width) fun _ m' => Kept m m' := by
  refine Runs.cons (runs_fetch atBase) fun word m₁ _ _ loaded => ?_
  refine (runs_int writes width (by simp [loaded])).mono le_rfl fun _ m₂ _ same reg isR0 _ _ => ?_
  rw [same, loaded, Function.update_of_ne isR0]

lemma renders_encodeReserved (shaped : t.Shaped) (isScalar : t.kind.isScalar = true) (atBase : m.get base = addr) :
    E.Renders n (encodeReserved out t base off) m (scalar out true (width t) addr off) fun _ m' => Kept m m' := by
  rw [encodeReserved, scalarWidth_eq shaped isScalar, withM_pure]
  exact renders_code fun table => runs_scalar writes _ atBase

lemma renders_encodeScalar (shaped : t.Shaped) (isScalar : t.kind.isScalar = true) (atBase : m.get base = addr) :
    E.Renders n (encodeScalar out t base off) m (scalar out false (width t) addr off) fun _ m' => Kept m m' := by
  rw [encodeScalar, scalarWidth_eq shaped isScalar, withM_pure]
  refine renders_code fun table => ?_
  rw [append_assoc]
  refine (runs_reserve writes _).append fun _ m₁ _ _ same => ?_
  subst same
  exact runs_scalar writes _ atBase

lemma renders_encodeBlob (low : off.toNat + 4 < 2 ^ 32) (isPtr : base.isPtr = true) (atBase : m.get base = addr) :
    E.Renders n (encodeBlob out base off) m (Writing.blob out addr off) fun _ m' => Kept m m' := by
  have notInt : base ≠ r0 := by rintro rfl; cases isPtr
  rw [encodeBlob, lengthAt_eq low, withM_pure]
  refine renders_code fun table => ?_
  simp only [append_assoc, cons_append, nil_append]
  refine Runs.cons (runs_fetch atBase) fun len m₁ _ _ regs₁ => ?_
  refine (runs_reserve writes 4).append fun _ m₂ _ _ same => ?_
  subst same
  refine (runs_int writes .w4 (by simp [regs₁])).append fun _ m₃ _ _ regs₃ => ?_
  rw [regs₁] at regs₃
  refine Runs.cons (runs_fetchPtr (by simp [regs₃, notInt, atBase])) fun data m₄ _ _ regs₄ => ?_
  rw [regs₃] at regs₄
  refine (runs_reserveReg writes (by simp [regs₄])).append fun _ m₅ _ _ same => ?_
  subst same
  refine (runs_bytes writes (by simp [regs₄]) (by simp [regs₄])).mono le_rfl fun _ m₆ _ regs₆ reg isR0 _ isP2 => ?_
  simp [regs₆, regs₄, isR0, isP2]

end Simple

attribute [local simp] Cond.eval Kind.isScalar Kind.scalarSize?

section Container

variable {e : Entry} {kind : Kind} {base : Reg} {off : UInt32} {addr : UInt64}

omit writes in
lemma runs_keyTag : E.Runs table n (match e.key with
      | some key => out.literal .w1 key.kind.tag.toUInt64
      | none => []) m (keyTag out e) fun _ m' => m'.get = m.get := by
  unfold keyTag
  cases e.key with
  | some key => exact runs_literal .w1 _
  | none => exact runs_nil rfl

lemma runs_containerHead (isPtr : base.isPtr = true) (atBase : m.get base = addr) :
    E.Runs table n ([.load .w4 false r1 base (off + 4), .loadPtr p1 base off] ++
        out.reserve e.headerSize ++ (match e.key with
          | some key => out.literal .w1 key.kind.tag.toUInt64
          | none => []) ++ out.literal .w1 e.elem.kind.tag.toUInt64 ++ out.int .w4 r1) m
      (containerHead out e addr off) fun a m' => m'.get r1 = a.1 ∧ m'.get p1 = a.2 := by
  have notInt : base ≠ r1 := by rintro rfl; cases isPtr
  simp only [append_assoc, cons_append, nil_append]
  refine Runs.cons (runs_fetch atBase) fun count m₁ _ _ regs₁ => ?_
  refine Runs.cons (runs_fetchPtr (by simp [regs₁, notInt, atBase])) fun data m₂ _ _ regs₂ => ?_
  rw [regs₁] at regs₂
  refine (runs_reserve writes _).append fun _ m₃ _ _ same => ?_
  subst same
  refine runs_keyTag.append fun _ m₄ _ _ regs₄ => ?_
  refine (runs_literal .w1 _).append fun _ m₅ _ _ regs₅ => ?_
  rw [regs₄, regs₂] at regs₅
  rw [← append_nil (out.int .w4 r1)]
  refine (runs_int writes .w4 (by simp [regs₅])).append fun _ m₆ _ _ regs₆ => runs_nil ?_
  simp [regs₆, regs₅]

lemma renders_encodeContainerHead (numbered : E.known.Numbered) (has : E.known.Has e.elem)
    (low : off.toNat + 4 < 2 ^ 32) (isPtr : base.isPtr = true) (atBase : m.get base = addr) :
    E.Renders n (encodeContainerHead out kind e base off) m (do
        let (count, data) ← containerHead out e addr off
        checkSet E.known kind e.elem count data
        return (count, data)) fun a m' => m'.get r1 = a.1 ∧ m'.get p1 = a.2 := by
  rw [encodeContainerHead, lengthAt_eq low, withM_pure]
  simp only
  split
  · refine renders_internType has fun index table sound found => ?_
    refine (runs_containerHead writes isPtr atBase).append fun a m₁ _ _ at_ => ?_
    rw [checkSet, if_pos ‹kind = .set›]
    have bound : index < 2 ^ 32 := by
      have := (Array.getElem?_eq_some_iff.mp found).1
      have := sound.size_le
      have := numbered.numbers
      omega
    refine .movImm ?_
    refine Runs.cons (runs_distinct bound found (by simp) (by simp [get_set, at_])
      (by simp [get_set, at_])) fun _ m₂ _ _ regs₂ => runs_nil ?_
    simp [regs₂, get_set, at_]
  · refine renders_code fun table => ?_
    rw [← append_nil (_ ++ out.int .w4 r1)]
    refine (runs_containerHead writes isPtr atBase).append fun a m₁ _ _ at_ => ?_
    rw [checkSet, if_neg ‹¬ kind = .set›]
    exact runs_nil at_

variable {frames : Nat} {entry : Bool → Piece} {act : Bool → Nat → UInt64 → Act Unit}

omit writes in
lemma renders_entryLoop [∀ flag k, Grows (entry flag k)] (handles : E.Handles frames e entry act)
    (few : m.ctx.framesLeft ≤ frames) (positive : m.get r1 ≠ 0) {reserved : Bool}
    (fixed : reserved = e.fixedSize?.isSome) :
    E.Renders m.slotsHere (if e.isSimple then e.registerLoop (entry reserved)
        else seq [code [.enter, .storeFrame p1 0, .storeFrame r1 1], e.frameLoop (entry false), code [.leave]]) m
      (entryLoop e m.ctx.framesLeft (m.get r1) (m.get p1) reserved act) fun _ _ => True := by
  unfold entryLoop
  split
  · rename_i isSimple
    exact (renders_registerLoop handles isSimple fixed positive).mono le_rfl fun _ _ _ _ => trivial
  · rename_i notSimple
    exact (renders_framedLoop handles (Bool.eq_false_iff.mpr notSimple) few positive false).mono
      le_rfl fun _ _ _ _ => trivial

set_option synthInstance.maxSize 512 in
lemma renders_encodeEntries [∀ flag k, Grows (entry flag k)] (handles : E.Handles frames e entry act)
    (few : m.ctx.framesLeft ≤ frames) (positive : m.get r1 ≠ 0) : E.Renders m.slotsHere (encodeEntries out e entry) m
    (entries out e m.ctx.framesLeft (m.get r1) (m.get p1) act) fun _ _ => True := by
  unfold encodeEntries entries
  rw [if_neg positive]
  cases fixed : e.fixedSize? with
  | none => exact renders_entryLoop handles few positive (by rw [fixed]; rfl)
  | some size =>
    cases out with
    | count =>
      refine renders_code fun table => .imm ?_
      exact (runs_advanceReg (by simp [ImmOp.eval])).mono le_rfl fun _ _ _ _ => trivial
    | write =>
      have start : E.Renders m.slotsHere (code [.imm .mul r0 r1 size.toInt32, .checkReg r0]) m
          (Act.need .bufferTooSmall (m.get r1 * immWord size.toInt32)) fun _ m' =>
            m'.get r1 = m.get r1 ∧ m'.get p1 = m.get p1 := by
        refine renders_code fun table => .imm ?_
        refine (runs_checkReg (writes rfl) (by simp [ImmOp.eval])).mono le_rfl fun _ m' _ same => ?_
        simp [same, get_set]
      dsimp only
      refine renders_seq start fun _ m₁ _ ran at_ => ?_
      rw [← at_.1, ← at_.2, ← ran.slotsHere, ← ran.framesLeft]
      exact renders_last (renders_entryLoop handles (ran.framesLeft ▸ few) (at_.1 ▸ positive) (by rw [fixed]; rfl))

lemma renders_encodeContainer [∀ flag k, Grows (entry flag k)] (numbered : E.known.Numbered) (has : E.known.Has e.elem)
    (low : off.toNat + 4 < 2 ^ 32) (isPtr : base.isPtr = true) (atBase : m.get base = addr)
    (handles : E.Handles frames e entry act) (few : m.ctx.framesLeft ≤ frames) :
    E.Renders m.slotsHere (encodeContainer out kind e base off entry) m
      (container E.known out kind e m.ctx.framesLeft addr off act) fun _ _ => True := by
  have same : container E.known out kind e m.ctx.framesLeft addr off act = ((do
      let (count, data) ← containerHead out e addr off
      checkSet E.known kind e.elem count data
      return (count, data)) >>= fun a => entries out e m.ctx.framesLeft a.1 a.2 act) := by
    simp only [container, bind_assoc, pure_bind]
  rw [same]
  refine renders_seq (renders_encodeContainerHead writes numbered has low isPtr atBase)
    fun a m₁ _ ran at_ => ?_
  rw [← at_.1, ← at_.2, ← ran.slotsHere, ← ran.framesLeft]
  refine renders_last (renders_skipping (isTest_branchImm .eq r1 0)
    (fun taken start s => ?_) fun passed => ?_)
  · have empty : m₁.get r1 = 0 := by simpa using taken
    unfold entries
    rw [if_pos empty]
    exact .pure trivial
  · have positive : m₁.get r1 ≠ 0 := by simpa using passed
    exact renders_encodeEntries writes handles (ran.framesLeft ▸ few) positive

end Container

/-- Code for records inside others does `act` while fewer than `frames` frames are left. -/
def Nested (E : Site) (frames : Nat) (nested : Spots (TypeDesc → Piece)) (act : Spots Visit) : Prop :=
  ∀ way record, E.known.Target record → ∀ m : Machine,
    m.ctx.framesLeft < frames → E.Renders m.slotsHere (nested way record) m
      (act way m.ctx.framesLeft record (m.get p0)) fun _ _ => True

section Value

variable {frames : Nat} {nested : Spots (TypeDesc → Piece)} {act : Spots Visit}
  {addr : UInt64}

omit writes in
lemma renders_nestedRecord (does : E.Nested frames nested act)
    (has : E.known.Has t) (few : m.ctx.framesLeft < frames) (atBase : m.get p0 = addr) :
    E.Renders m.slotsHere (nestedRecord E.known nested t) m
      (Writing.nestedRecord E.known act t m.ctx.framesLeft addr) fun _ _ => True := by
  subst atBase
  rw [nestedRecord, Writing.nestedRecord]
  cases ok : t.recordType E.known with
  | error e =>
    intro _ _ _ _ _ made
    cases made
  | ok record => exact does [] record ⟨t, has, ok⟩ m few

omit writes in
lemma runs_seekRecord (atBase : m.get base = addr) :
    E.Runs table n (seekRecord base off) m (pure ()) fun _ m' => m'.get p0 = addr + immWord off.toInt32 := by
  unfold seekRecord
  split
  · rename_i here
    obtain ⟨rfl, rfl⟩ := here
    exact runs_nil (by simpa using atBase)
  · exact .seek (runs_nil (by simp [atBase]))

lemma renders_encodeValue [∀ way t k, Grows (nested way t k)] (numbered : E.known.Numbered)
    (does : E.Nested frames nested act) (t : TypeDesc) (has : E.known.Has t) (reserved : Bool) (isPtr : base.isPtr = true)
    (low : off.toNat + t.size.toNat < 2 ^ 32) (m : Machine)
    (few : isSimple t = false → m.ctx.framesLeft < frames) :
    E.Renders m.slotsHere (encodeValue E.known nested out t reserved base off) m
      (value E.known act out t reserved m.ctx.framesLeft (m.get base) off) fun _ m' =>
        isSimple t = true → Kept m m' := by
  induction t, has using numbered.sound.induction generalizing nested act reserved base off m with
  | scalar t has isScalar =>
    have shaped := numbered.sound.shaped t has
    rw [encodeValue_scalar reserved isScalar, Writing.value_scalar _ _ _ _ isScalar]
    split
    · rename_i reserved
      rw [reserved]
      exact (renders_encodeReserved writes shaped isScalar rfl).mono le_rfl fun _ _ _ kept _ => kept
    · rename_i notReserved
      rw [Bool.eq_false_iff.mpr notReserved]
      exact (renders_encodeScalar writes shaped isScalar rfl).mono le_rfl fun _ _ _ kept _ => kept
  | blob t has kind =>
    have header := Kind.hasHeader_of_blob kind
    rw [encodeValue_blob reserved kind, Writing.value_blob _ _ _ _ kind]
    exact (renders_encodeBlob writes (length_low (numbered.sound.shaped t has) header low) isPtr
      rfl).mono le_rfl fun _ _ _ kept _ => kept
  | sequence t has elem is ih =>
    have header := is.hasHeader
    have notSimple : isSimple t = false := by
      rcases is.kind with kind | kind <;> simp [isSimple, kind]
    have inReach : (0 : UInt32).toNat + elem.size.toNat < 2 ^ 32 := by simpa using elem.size.toNat_lt
    rw [encodeValue_sequence reserved is, Writing.value_sequence _ _ _ _ is]
    refine (renders_encodeContainer writes numbered is.hasElem
      (length_low (numbered.sound.shaped t has) header low) isPtr rfl
      ⟨fun simple flag _ m => ?_, fun _ m few _ => ?_⟩ (le_of_lt (few notSimple))).vacuous notSimple
    · have isSimple : isSimple elem = true := by simpa [Entry.isSimple, Entry.ofList] using simple
      exact (ih (fun way => does (0 :: way)) flag rfl inReach m fun notSimple => Bool.noConfusion (isSimple.symm.trans notSimple)).mono
        le_rfl fun _ _ _ kept => kept isSimple
    · exact (ih (fun way => does (0 :: way)) false rfl inReach m fun _ => few).mono le_rfl fun _ _ _ _ => trivial
  | map t has key elem layout is ihKey ihElem =>
    have header := is.hasHeader
    have notSimple : isSimple t = false := by
      simp [isSimple, is.kind]
    have keyInReach : (0 : UInt32).toNat + key.size.toNat < 2 ^ 32 := by
      simpa using key.size.toNat_lt
    have elemInReach : layout.valueOffset.toNat + elem.size.toNat < 2 ^ 32 :=
      lt_of_le_of_lt (TypeDesc.EntryLayout.bounds is.layout?).2 layout.stride.toNat_lt
    rw [encodeValue_map reserved is, Writing.value_map _ _ _ _ is, inReach_ofMap is, withM_pure]
    refine (renders_encodeContainer writes numbered is.hasElem
      (length_low (numbered.sound.shaped t has) header low) isPtr rfl
      (handles_parts (fun flag => ihKey (fun way => does (0 :: way)) flag rfl keyInReach)
        fun flag => ihElem (fun way => does (1 :: way)) flag rfl elemInReach)
      (le_of_lt (few notSimple))).vacuous notSimple
  | cramped t has key elem is =>
    rw [encodeValue_cramped reserved is]
    intro _ _ _ _ _ made
    cases made
  | struct t has kind =>
    have notSimple : isSimple t = false := by
      simp [isSimple, kind]
    rw [encodeValue_struct reserved kind, Writing.value_struct _ _ _ _ kind]
    refine renders_silent (renders_code fun table => runs_seekRecord rfl) fun m₁ _ ran atBase => ?_
    rw [← ran.slotsHere, ← ran.framesLeft]
    exact (renders_last (renders_nestedRecord does has
      (ran.framesLeft ▸ few notSimple) atBase)).vacuous notSimple
  | pointer t has kind =>
    have notSimple : isSimple t = false := by
      simp [isSimple, kind]
    rw [encodeValue_pointer reserved kind, Writing.value_pointer _ _ _ _ kind]
    refine renders_seq (renders_code fun table => runs_fetchPtr rfl) fun data m₁ _ ran regs => ?_
    have atBase : m₁.get p0 = data := by simp [regs]
    rw [← ran.slotsHere, ← ran.framesLeft]
    refine renders_last (renders_either (fun taken => ?_) fun passed => ?_)
    · have present : data ≠ 0 := by simpa [atBase] using taken
      rw [if_neg present]
      exact (renders_nestedRecord does has (ran.framesLeft ▸ few notSimple) atBase).vacuous notSimple
    · have absent : data = 0 := by simpa [atBase] using passed
      rw [if_pos absent]
      exact (renders_code fun table => runs_stopMark writes).vacuous notSimple

end Value

section Field

variable {frames : Nat} {nested : Spots (TypeDesc → Piece)} {act : Spots Visit}
  {addr : UInt64} {field : FieldDesc}

omit writes in
lemma renders_unlessDefault {default : Scalar} {body : Piece} [∀ k, Grows (body k)] {x : Act Unit} (atR0 : m.get r0 = word)
    (renders : ∀ m' : Machine, Ran n m m' → Kept m m' → E.Renders n body m' x fun _ m'' => Kept m' m'') :
    E.Renders n (unlessDefault default body) m (if word = default.bits then pure () else x) fun _ m' => Kept m m' := by
  unfold unlessDefault
  split
  · rename_i small
    refine renders_skipping (isTest_branchImm .eq r0 _) (fun taken start s => ?_) fun passed => ?_
    · have same : word = default.bits := by simpa [atR0, immWord_toInt32 small] using taken
      rw [if_pos same]
      exact .pure (.refl m)
    · have other : word ≠ default.bits := by
        simpa [atR0, immWord_toInt32 small] using passed
      rw [if_neg other]
      exact renders m (.refl n m) (.refl m)
  · have start : E.Renders n (code [.movImm r2 default.bits]) m (pure ()) fun _ m' =>
        Kept m m' ∧ m'.get r0 = word ∧ m'.get r2 = default.bits := by
      refine renders_code fun table => .movImm (runs_nil ⟨fun reg _ isR2 _ => ?_, ?_, ?_⟩)
      · rw [get_set, Function.update_of_ne isR2]
      · simp [get_set, atR0]
      · simp
    refine renders_silent start fun m₁ _ ran given => renders_last ?_
    obtain ⟨kept, atR0, atR2⟩ := given
    refine renders_skipping (isTest_branchReg .eq r0 r2) (fun taken start s => ?_) fun passed => ?_
    · have same : word = default.bits := by simpa [atR0, atR2] using taken
      rw [if_pos same]
      exact .pure kept
    · have other : word ≠ default.bits := by simpa [atR0, atR2] using passed
      rw [if_neg other]
      exact (renders m₁ ran kept).mono le_rfl fun _ _ _ kept' => kept.trans kept'

lemma renders_headedScalar (shaped : field.type.Shaped)
    (isScalar : field.type.kind.isScalar = true) (atBase : m.get base = addr) :
    E.Renders n (seq [code (fieldHeader out field), encodeScalar out field.type base off]) m (do
        header out field
        scalar out false (width field.type) addr off) fun _ m' => Kept m m' := by
  refine renders_seq (renders_code fun table => runs_fieldHeader writes field) fun _ m₁ _ _ regs => ?_
  refine renders_last ((renders_encodeScalar writes shaped isScalar (by rw [regs, atBase])).mono
    le_rfl fun _ _ _ kept => (Kept.of_eq regs).trans kept)

lemma renders_encodeScalarField (shaped : field.type.Shaped)
    (isScalar : field.type.kind.isScalar = true) (atBase : m.get p0 = addr) :
    E.Renders n (encodeScalarField out field) m (scalarField out field addr) fun _ m' =>
      Kept m m' := by
  unfold encodeScalarField scalarField
  cases field.default with
  | none => exact renders_headedScalar writes shaped isScalar atBase
  | some default =>
    simp only
    rw [scalarWidth_eq shaped isScalar, withM_pure]
    refine renders_seq (renders_code fun table => runs_fetch atBase) fun word m₁ _ _ regs => renders_last ?_
    have kept : Kept m m₁ := fun reg isR0 _ _ => by rw [regs, Function.update_of_ne isR0]
    refine (renders_unlessDefault (by simp [regs]) fun m₂ _ kept₂ => ?_).mono le_rfl fun _ _ _ kept' => kept.trans kept'
    refine renders_headedScalar writes shaped isScalar ?_
    rw [← atBase]
    exact (kept.trans kept₂) p0 (by decide) (by decide) (by decide)

lemma renders_headedRecord [∀ way t k, Grows (nested way t k)] (does : E.Nested frames nested act) (has : E.known.Has field.type)
    (few : m.ctx.framesLeft < frames) {off : Int32} (atBase : m.get base + immWord off = addr) :
    E.Renders m.slotsHere (seq [code (fieldHeader out field ++ [.seek p0 base off]),
        nestedRecord E.known nested field.type]) m (do
        header out field
        Writing.nestedRecord E.known act field.type m.ctx.framesLeft addr) fun _ _ => True := by
  have start : E.Renders m.slotsHere (code (fieldHeader out field ++ [.seek p0 base off])) m
      (header out field) fun _ m₁ => m₁.get p0 = addr := by
    refine renders_code fun table => ?_
    rw [← bind_pure (header out field)]
    refine (runs_fieldHeader writes field).append fun _ m₁ _ _ regs => .seek (runs_nil ?_)
    simp [regs, atBase]
  refine renders_seq start fun _ m₁ _ ran atP0 => ?_
  rw [← ran.slotsHere, ← ran.framesLeft]
  exact renders_last (renders_nestedRecord does has (ran.framesLeft ▸ few) atP0)

set_option synthInstance.maxSize 512 in
lemma renders_encodePointerField [∀ way t k, Grows (nested way t k)] (does : E.Nested frames nested act) (has : E.known.Has field.type)
    (few : m.ctx.framesLeft < frames) (atBase : m.get p0 = addr) :
    E.Renders m.slotsHere (encodePointerField E.known nested out field) m
      (Writing.pointerField E.known act out field m.ctx.framesLeft addr) fun _ _ => True := by
  refine renders_seq (renders_code fun table => runs_fetchPtr atBase) fun data m₁ _ ran regs => renders_last ?_
  have atP2 : m₁.get p2 = data := by simp [regs]
  rw [← ran.slotsHere, ← ran.framesLeft]
  have body := renders_headedRecord writes does has
    (ran.framesLeft ▸ few) (show m₁.get p2 + immWord 0 = data by simp [atP2])
  split
  · refine renders_either (fun taken => ?_) fun passed => ?_
    · have present : data ≠ 0 := by simpa [atP2] using taken
      rw [if_neg present]
      exact body
    · have absent : data = 0 := by simpa [atP2] using passed
      rw [if_pos absent]
      refine renders_code fun table => (runs_fieldHeader writes field).append fun _ m₂ _ _ _ => ?_
      exact (runs_stopMark writes).mono le_rfl fun _ _ _ _ => trivial
  · refine renders_skipping (isTest_branchImm .eq p2 0) (fun taken start s => ?_) fun passed => ?_
    · have absent : data = 0 := by simpa [atP2] using taken
      rw [if_pos absent]
      exact .pure trivial
    · have present : data ≠ 0 := by simpa [atP2] using passed
      rw [if_neg present]
      exact body

lemma renders_encodeHeaderField [∀ way t k, Grows (nested way t k)] (numbered : E.known.Numbered)
    (does : E.Nested frames nested act) (has : E.known.Has field.type)
    (low : field.offset.toNat + field.type.size.toNat < 2 ^ 32)
    (few : isSimple field.type = false → m.ctx.framesLeft < frames) (atBase : m.get p0 = addr) :
    E.Renders m.slotsHere (encodeHeaderField E.known nested out field) m
      (headerField E.known act out field m.ctx.framesLeft addr) fun _ m' =>
        isSimple field.type = true → Kept m m' := by
  have body : ∀ m₁ : Machine, Ran m.slotsHere m m₁ → m₁.get p0 = addr → E.Renders m.slotsHere
      (seq [code (fieldHeader out field), encodeValue E.known nested out field.type false p0 field.offset]) m₁ (do
        header out field
        value E.known act out field.type false m.ctx.framesLeft addr field.offset)
      fun _ m' => isSimple field.type = true → Kept m₁ m' := by
    intro m₁ ran atBase
    refine renders_seq (renders_code fun table => runs_fieldHeader writes field) fun _ m₂ _ ran₂ regs => ?_
    have ran' := ran.trans ran₂
    have atBase₂ : m₂.get p0 = addr := by rw [regs, atBase]
    rw [← ran'.slotsHere, ← ran'.framesLeft, ← atBase₂]
    exact renders_last ((renders_encodeValue writes numbered does _ has false rfl low m₂
      (ran'.framesLeft ▸ few)).mono le_rfl
      fun _ _ _ kept simple => (Kept.of_eq regs).trans (kept simple))
  unfold encodeHeaderField headerField
  split
  · exact body m (.refl _ m) atBase
  · refine renders_seq (renders_code fun table => runs_fetchPtr atBase) fun data m₁ _ ran regs => renders_last ?_
    have atP2 : m₁.get p2 = data := by simp [regs]
    have kept : Kept m m₁ := fun reg _ _ isP2 => by rw [regs, Function.update_of_ne isP2]
    refine renders_skipping (isTest_branchImm .eq p2 0) (fun taken start s => ?_) fun passed => ?_
    · have absent : data = 0 := by simpa [atP2] using taken
      rw [if_pos absent]
      exact .pure fun _ => kept
    · have present : data ≠ 0 := by simpa [atP2] using passed
      rw [if_neg present]
      exact (body m₁ ran (by simp [regs, atBase])).mono le_rfl fun _ _ _ kept' simple => kept.trans (kept' simple)

lemma renders_encodeBoxed (shaped : field.type.Shaped)
    (isScalar : field.type.kind.isScalar = true) (atBase : m.get p0 = addr) :
    E.Renders n (seq [code [.loadPtr p2 p0 field.offset], skipping (ifEq p2 0)
        (seq [code (fieldHeader out field), encodeScalar out field.type p2 0])]) m
      (Writing.boxedField out field addr) fun _ m' => Kept m m' := by
  refine renders_seq (renders_code fun table => runs_fetchPtr atBase) fun cell m₁ _ _ regs => renders_last ?_
  have atP2 : m₁.get p2 = cell := by simp [regs]
  have kept : Kept m m₁ := fun reg _ _ isP2 => by rw [regs, Function.update_of_ne isP2]
  refine renders_skipping (isTest_branchImm .eq p2 0) (fun taken start s => ?_) fun passed => ?_
  · have absent : cell = 0 := by simpa [atP2] using taken
    rw [if_pos absent]
    exact .pure kept
  · have present : cell ≠ 0 := by simpa [atP2] using passed
    rw [if_neg present]
    exact (renders_headedScalar writes shaped isScalar atP2).mono le_rfl fun _ _ _ kept' => kept.trans kept'

lemma renders_encodeField [∀ way t k, Grows (nested way t k)] (numbered : E.known.Numbered)
    (does : E.Nested frames nested act) (has : E.known.Has field.type)
    (low : field.offset.toNat + field.slotSize.toNat < 2 ^ 32)
    (few : isSimple field.type = false → m.ctx.framesLeft < frames) (atBase : m.get p0 = addr) :
    E.Renders m.slotsHere (encodeField E.known nested out field) m
      (Writing.field E.known act out field m.ctx.framesLeft addr) fun _ m' =>
        isSimple field.type = true → Kept m m' := by
  have shaped := numbered.sound.shaped _ has
  have notSimple : field.type.kind = .struct ∨ field.type.kind = .pointer → isSimple field.type = false := by
    rintro (kind | kind) <;> simp [isSimple, kind]
  by_cases boxed : field.isBoxed = true
  · rw [encodeField_boxed boxed, Writing.field, if_pos boxed]
    exact (renders_encodeBoxed writes shaped (Field.isScalar_of_isBoxed boxed) atBase).mono
      le_rfl fun _ _ _ kept _ => kept
  · rcases field.type.kind.form with isScalar | header | kind | kind
    · rw [encodeField_scalar boxed isScalar, Writing.field_scalar _ _ boxed isScalar]
      exact (renders_encodeScalarField writes shaped isScalar atBase).mono le_rfl fun _ _ _ kept _ => kept
    · rw [encodeField_header header, Writing.field_header _ _ header]
      exact renders_encodeHeaderField writes numbered does has (low_of_slot boxed low) few atBase
    · have notSimple := notSimple (.inl kind)
      rw [encodeField_struct kind, Writing.field_struct _ _ kind]
      exact (renders_headedRecord writes does has (few notSimple) (by rw [atBase])).vacuous notSimple
    · have notSimple := notSimple (.inr kind)
      rw [encodeField_pointer kind, Writing.field_pointer _ _ kind]
      exact (renders_encodePointerField writes does has (few notSimple)
        atBase).vacuous notSimple

/-- Fields in order. The base of the record is in `p0`, and after a field whose code may use
any register it is in the frame. -/
lemma renders_encodeFields [∀ way t k, Grows (nested way t k)] (numbered : E.known.Numbered)
    (does : E.Nested frames nested act) (reload : Bool) (fields : List FieldDesc)
    (has : ∀ field ∈ fields, E.known.Has field.type)
    (low : ∀ field ∈ fields, field.offset.toNat + field.slotSize.toNat < 2 ^ 32) (m : Machine)
    (framed : reload = true ∨ (∃ field ∈ fields, isSimple field.type = false) →
      m.ctx.framesLeft < frames ∧ m.ctx.readSlot 0 = addr) (atBase : reload = false → m.get p0 = addr) :
    E.Renders m.slotsHere (encodeFields E.known nested out reload fields) m
      (Writing.fields E.known act out m.ctx.framesLeft addr fields) fun _ _ => True := by
  induction fields generalizing nested act reload m with
  | nil => exact renders_code fun table => runs_nil trivial
  | cons field rest ih =>
    have hasField := has field mem_cons_self
    have lowField := low field mem_cons_self
    have hasRest : ∀ f ∈ rest, E.known.Has f.type := fun f mem => has f (mem_cons_of_mem _ mem)
    have lowRest : ∀ f ∈ rest, f.offset.toNat + f.slotSize.toNat < 2 ^ 32 := fun f mem => low f (mem_cons_of_mem _ mem)
    have start : E.Renders m.slotsHere (code (if reload then [.loadFrame p0 0] else [])) m (pure ())
        fun _ m₁ => m₁.ctx = m.ctx ∧ m₁.get p0 = addr := by
      refine renders_code fun table => ?_
      split
      · rename_i reload
        exact .loadFrame (runs_nil ⟨rfl, by simp [framed (.inl reload)]⟩)
      · rename_i noReload
        exact runs_nil ⟨rfl, atBase (Bool.eq_false_iff.mpr noReload)⟩
    refine renders_of_frame fun frameLow _ => ?_
    refine renders_silent start fun m₁ _ _ given => ?_
    obtain ⟨ctx, atP0⟩ := given
    have here : m₁.slotsHere = m.slotsHere := by rw [Machine.slotsHere, Machine.slotsHere, ctx]
    have one : E.Renders m.slotsHere (encodeField E.known (nested.part 0) out field) m₁
        (Writing.field E.known (act.part 0) out field m.ctx.framesLeft addr) fun _ m₂ =>
          Ran m.slotsHere m₁ m₂ ∧ (isSimple field.type = true → Kept m₁ m₂) := by
      rw [← here, ← ctx]
      refine (renders_encodeField writes numbered (fun way => does (0 :: way)) hasField lowField (fun notSimple => ?_)
        atP0).mono le_rfl fun _ _ ran kept => ⟨ran, kept⟩
      rw [ctx]
      exact (framed (.inr ⟨field, mem_cons_self, notSimple⟩)).1
    refine renders_seq one fun _ m₂ _ _ both => renders_last ?_
    obtain ⟨ran, kept⟩ := both
    have left : m₂.ctx.framesLeft = m.ctx.framesLeft := ran.framesLeft.trans (by rw [ctx])
    have slot : m₂.ctx.readSlot 0 = m.ctx.readSlot 0 := by
      rw [← here] at ran
      rw [readSlot_of_ran (ctx ▸ frameLow) ran (by decide), ctx]
    rw [← here, ← ran.slotsHere, ← left]
    refine ih (fun way => does (1 :: way)) (!isSimple field.type) hasRest lowRest m₂ (fun need => ?_) fun simple => ?_
    · rw [left, slot]
      refine framed (.inr ?_)
      rcases need with notSimple | ⟨other, mem, notSimple⟩
      · exact ⟨field, mem_cons_self, by simpa using notSimple⟩
      · exact ⟨other, mem_cons_of_mem _ mem, notSimple⟩
    · rw [kept (by simpa using simple) p0 (by decide) (by decide) (by decide), atP0]

end Field

/-- Code for a record does what writing the record does. A record whose fields take any
register has a frame, so that the records inside it find fewer frames left. -/
lemma renders_encodeRecord {frames : Nat} {nested : Spots (TypeDesc → Piece)} [∀ way t k, Grows (nested way t k)] {act : Spots Visit}
    (numbered : E.known.Numbered) (does : E.Nested frames nested act) (has : E.known.Has t)
    (few : m.ctx.framesLeft ≤ frames) : E.Renders m.slotsHere (encodeRecord E.known out nested t) m
    (record E.known act out m.ctx.framesLeft t (m.get p0)) fun _ _ => True := by
  have hasFields : ∀ field ∈ t.fields, E.known.Has field.type := fun field mem => numbered.sound.field has mem
  have low : ∀ field ∈ t.fields, field.offset.toNat + field.slotSize.toNat < 2 ^ 32 :=
    fun field mem => field_low (numbered.sound.shaped t has) mem
  unfold encodeRecord record Writing.isFramed
  simp only
  cases framed : t.fields.any fun field => !isSimple field.type with
  | false =>
    simp only [Bool.false_eq_true, if_false, append_nil]
    refine renders_silent (renders_still m) fun m₁ _ _ same => ?_
    subst same
    refine renders_seq (renders_encodeFields writes numbered does false t.fields hasFields low m₁ (fun need => ?_) fun _ => rfl) fun _ m₂ _ _ _ => ?_
    · obtain ⟨field, mem, notSimple⟩ := need.resolve_left (by rintro ⟨⟩)
      have := List.any_eq_false.mp framed field mem
      simp [notSimple] at this
    · exact renders_last (renders_code fun table => (runs_stopMark writes).mono le_rfl fun _ _ _ _ => trivial)
  | true =>
    simp only [if_true]
    refine renders_of_frame fun frameLow frameHigh => ?_
    refine renders_deeper (fun _ _ => True) fun left leftOver => ?_
    have here : m.slotsHere = m.entered.ctx.frame.toNat * 8 := by
      rw [frame_entered frameLow, Machine.slotsHere, Nat.mul_comm]
    have start : E.Renders m.slotsHere (code [.storeFrame p0 0]) m.entered (pure ()) fun _ m₁ =>
        m₁.get = m.get ∧ m₁.ctx.readSlot 0 = m.get p0 := by
      refine renders_of_frame fun low high => renders_code fun table => ?_
      refine .storeFrame (by decide) (le_of_eq here) (runs_nil ⟨rfl, ?_⟩)
      rw [readSlot_keep low high (by decide), if_pos rfl]
      rfl
    refine renders_silent start fun m₁ _ ran given => ?_
    obtain ⟨regs, slot⟩ := given
    have left₁ : m₁.ctx.framesLeft = left := ran.framesLeft.trans (framesLeft_entered leftOver)
    have deep : m.slotsHere ≤ m₁.slotsHere := by
      rw [ran.slotsHere, here, Machine.slotsHere]
      omega
    have body := renders_encodeFields writes numbered does false t.fields hasFields low m₁
      (fun _ => ⟨by omega, slot⟩) fun _ => by rw [regs]
    rw [left₁] at body
    refine renders_seq (body.mono deep fun _ _ _ _ => trivial) fun _ m₂ _ _ _ => ?_
    exact renders_last (renders_code fun table => (runs_stopMark writes).mono le_rfl fun _ _ _ _ => trivial)

end WireCodec.Site
