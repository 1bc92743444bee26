import WireCodec.Proofs.Lowering.DecodeMade

/-! Where the code of inner records stands. How long a piece of code gets does not depend on the
numbers that types have, so that each inner record has one place in it. Making the piece again with
the code of each inner record bound to that place gives the same code. -/
namespace WireCodec.Lowering

open List

variable {α β : Type}

def verdict (size : α → Nat) : EStateM.Result Failure TypeTable α → Except Failure Nat
  | .ok a _ => .ok (size a)
  | .error f _ => .error f

/-- Two ways to make the same, of which the size or the failure is known. -/
structure Twin (size : α → Nat) (x x' : LowerM α) (r : Except Failure Nat) : Prop where
  same : x = x'
  even : ∀ table, verdict size (x table) = r

lemma twin_throw {size : α → Nat} (f : Failure) : Twin size (throw f) (throw f) (.error f) := ⟨rfl, fun _ => rfl⟩

lemma Twin.cases {size : α → Nat} {x x' : LowerM α} {r : Except Failure Nat} (twin : Twin size x x' r)
    (table : TypeTable) : (∃ f mid, r = .error f ∧ x table = .error f mid) ∨
      ∃ a mid, r = .ok (size a) ∧ x table = .ok a mid := by
  rw [← twin.even table]
  cases x table with
  | ok a mid => exact .inr ⟨a, mid, rfl, rfl⟩
  | error f mid => exact .inl ⟨f, mid, rfl, rfl⟩

lemma Twin.bind {size : α → Nat} {size' : β → Nat} {x x' : LowerM α} {f f' : α → LowerM β} {r : Except Failure Nat}
    (first : Twin size x x' r) (later : ∀ n, r = .ok n → ∃ r', ∀ a, size a = n → Twin size' (f a) (f' a) r') :
    ∃ r', Twin size' (x >>= f) (x' >>= f') r' := by
  obtain rfl := first.same
  have bound : ∀ (g : α → LowerM β) table, (x >>= g) table = EStateM.bind x g table := fun _ _ => rfl
  cases r with
  | error e =>
    have failed : ∀ (g : α → LowerM β) table, (x >>= g) table = .error e (tableAfter (x table)) := by
      intro g table
      rcases first.cases table with ⟨f, mid, is, made⟩ | ⟨_, _, no, _⟩
      · cases is
        simp only [bound, EStateM.bind, made, tableAfter]
      · cases no
    exact ⟨.error e, funext fun table => (failed f table).trans (failed f' table).symm,
      fun table => by rw [failed]; rfl⟩
  | ok n =>
    obtain ⟨r', twins⟩ := later n rfl
    have passed : ∀ table, ∃ a mid, x table = .ok a mid ∧ Twin size' (f a) (f' a) r' := by
      intro table
      rcases first.cases table with ⟨_, _, no, _⟩ | ⟨a, mid, is, made⟩
      · cases no
      · exact ⟨a, mid, made, twins a (Except.ok.inj is).symm⟩
    refine ⟨r', funext fun table => ?_, fun table => ?_⟩
    · obtain ⟨a, mid, made, twin⟩ := passed table
      simp only [bound, EStateM.bind, made, twin.same]
    · obtain ⟨a, mid, made, twin⟩ := passed table
      simp only [bound, EStateM.bind, made, twin.even]

lemma Twin.map {size : α → Nat} {size' : β → Nat} {x x' : LowerM α} {g : α → β} {r : Except Failure Nat}
    (twin : Twin size x x' r) (k : Nat → Nat)
    (weighs : ∀ a, (∃ table mid, x table = .ok a mid) → size' (g a) = k (size a)) :
    Twin size' (x >>= fun a => pure (g a)) (x' >>= fun a => pure (g a)) (r.map k) := by
  obtain ⟨rfl, even⟩ := twin
  refine ⟨rfl, fun table => ?_⟩
  rw [← even table]
  change verdict size' (EStateM.bind x _ table) = _
  unfold EStateM.bind
  cases made : x table with
  | ok a mid => exact congrArg Except.ok (weighs a ⟨table, mid, made⟩)
  | error f mid => rfl

/-- A piece that is made at one place only. -/
def pin (place : Nat) (piece : Piece) : Piece := fun start =>
  if start = place then piece start else throw .overflow

def pinned (inner : TypeDesc → Piece) (place : Spots Nat) : Spots (TypeDesc → Piece) :=
  fun way t => pin (place way) (inner t)

/-- The places of a part from `a`, and all others from `b`. -/
def joined (index : Nat) (a b : Spots Nat) : Spots Nat := fun way => if way.head? = some index then a way else b way

instance (place : Nat) (piece : Piece) [∀ k, Grows (piece k)] (start : Nat) : Grows (pin place piece start) := by
  unfold pin
  split <;> infer_instance

instance (inner : TypeDesc → Piece) [∀ t k, Grows (inner t k)] (place : Spots Nat) (way : List Nat) (t : TypeDesc)
    (start : Nat) : Grows (pinned inner place way t start) := inferInstanceAs (Grows (pin _ _ start))

/-- The pieces inside have a place each, wherever the piece stands. -/
def Copies (inner : TypeDesc → Piece) (made : Spots (TypeDesc → Piece) → Piece) : Prop :=
  ∀ start, ∃ place r, Twin length (made (fun _ => inner) start) (made (pinned inner place) start) r

/-- The size of the code does not depend on the types that are numbered. -/
class Even (piece : Piece) : Prop where
  copies : ∀ inner, Copies inner fun _ => piece

/-- A check that does not look at the types that are numbered. -/
class Fixed (check : LowerM α) : Prop where
  is : (∃ a, check = pure a) ∨ ∃ f, check = throw f

instance (x : Except SchemaIssue α) : Fixed (ofSchema x) := by
  cases x with
  | ok a => exact ⟨.inl ⟨a, rfl⟩⟩
  | error issue => exact ⟨.inr ⟨_, rfl⟩⟩

instance (x : Option α) : Fixed (inReach x) := by
  cases x with
  | some a => exact ⟨.inl ⟨a, rfl⟩⟩
  | none => exact ⟨.inr ⟨_, rfl⟩⟩

instance (off : UInt32) : Fixed (lengthAt off) := inferInstanceAs (Fixed (inReach _))

instance (t : TypeDesc) : Fixed (scalarWidth t) := by
  unfold scalarWidth
  split
  · exact ⟨.inl ⟨_, rfl⟩⟩
  · exact ⟨.inr ⟨_, rfl⟩⟩

section Copies

variable {inner : TypeDesc → Piece} {made first : Spots (TypeDesc → Piece) → Piece}
  {rest : Spots (TypeDesc → Piece) → List Piece}

lemma copies_even (piece : Piece) [even : Even piece] : Copies inner fun _ => piece := even.copies inner

lemma Even.of_copies {piece : Piece} (copies : ∀ start, ∃ r, ∀ table, verdict length (piece start table) = r) :
    Even piece := ⟨fun _ start => (copies start).elim fun r even => ⟨fun _ => 0, r, rfl, even⟩⟩

lemma Even.verdict (piece : Piece) [even : Even piece] (start : Nat) :
    ∃ r, ∀ table, verdict length (piece start table) = r := by
  obtain ⟨_, r, twin⟩ := even.copies (fun _ => code []) start
  exact ⟨r, twin.even⟩

lemma Copies.even (copies : Copies inner made) : Even (made fun _ => inner) :=
  .of_copies fun start => (copies start).elim fun _ ⟨r, twin⟩ => ⟨r, twin.even⟩

lemma Copies.part (copies : Copies inner made) (i : Nat) : Copies inner fun nested => made (nested.part i) :=
  fun start => (copies start).elim fun place twin => ⟨fun way => place way.tail, twin⟩

lemma copies_withM {check : LowerM α} [fixed : Fixed check] {body : α → Spots (TypeDesc → Piece) → Piece}
    (each : ∀ a, Copies inner (body a)) : Copies inner fun nested => withM check fun a => body a nested := by
  intro start
  rcases fixed.is with ⟨a, rfl⟩ | ⟨f, rfl⟩
  · exact each a start
  · exact ⟨fun _ => 0, .error f, rfl, fun _ => rfl⟩

lemma copies_skipping (branch : Dest → Instr Dest) (copies : Copies inner made) :
    Copies inner fun nested => skipping branch (made nested) := by
  intro start
  obtain ⟨place, r, twin⟩ := copies (start + 1)
  exact ⟨place, _, twin.map (· + 1) fun made _ => by simp⟩

lemma copies_looping (back : Dest → Instr Dest) (copies : Copies inner made) :
    Copies inner fun nested => looping (made nested) back := by
  intro start
  obtain ⟨place, r, twin⟩ := copies start
  exact ⟨place, _, twin.map (· + 1) fun made _ => by simp⟩

/-- Pieces one after the other, if their inner pieces can be told apart. -/
lemma copies_cons (copies : Copies inner first) (copies' : Copies inner fun nested => seq (rest nested))
    (join : ∀ a b, ∃ c, first (pinned inner c) = first (pinned inner a) ∧ rest (pinned inner c) = rest (pinned inner b)) :
    Copies inner fun nested => seq (first nested :: rest nested) := by
  intro start
  obtain ⟨a, r, twin⟩ := copies start
  cases r with
  | error f =>
    obtain ⟨c, one, _⟩ := join a a
    refine ⟨c, ?_⟩
    rw [← one] at twin
    exact twin.bind fun _ no => by cases no
  | ok n =>
    obtain ⟨b, r', twin'⟩ := copies' (start + n)
    obtain ⟨c, one, other⟩ := join a b
    refine ⟨c, ?_⟩
    rw [← one] at twin
    simp only [← other] at twin'
    refine twin.bind fun m is => ?_
    obtain rfl := Except.ok.inj is
    refine ⟨r'.map (n + ·), fun front is => ?_⟩
    rw [is]
    exact twin'.map (n + ·) fun after _ => by rw [length_append, is]

lemma Copies.before (copies : Copies inner first) (rest : List Piece) [Even (seq rest)] :
    Copies inner fun nested => seq (first nested :: rest) :=
  copies_cons copies (copies_even _) fun a _ => ⟨a, rfl, rfl⟩

lemma Copies.after (piece : Piece) [Even piece] (copies : Copies inner fun nested => seq (rest nested)) :
    Copies inner fun nested => seq (piece :: rest nested) :=
  copies_cons (copies_even _) copies fun _ b => ⟨b, rfl, rfl⟩

instance (instrs : Code) : Even (code instrs) := .of_copies fun _ => ⟨.ok instrs.length, fun _ => rfl⟩

instance : Even (seq []) := inferInstanceAs (Even (code []))

instance (piece : Piece) (rest : List Piece) [Even piece] [Even (seq rest)] : Even (seq (piece :: rest)) :=
  ⟨fun _ => (copies_even (seq rest)).after piece⟩

instance (check : LowerM α) [Fixed check] (body : α → Piece) [∀ a, Even (body a)] : Even (withM check body) :=
  ⟨fun _ => copies_withM fun a => copies_even (body a)⟩

instance (branch : Dest → Instr Dest) (body : Piece) [Even body] : Even (skipping branch body) :=
  ⟨fun _ => copies_skipping branch (copies_even body)⟩

instance (p : Prop) [Decidable p] (first second : Piece) [Even first] [Even second] :
    Even (if p then first else second) := by
  split <;> infer_instance

lemma even_internType (t : TypeDesc) (instrs : Nat → Code) (n : Nat) (long : ∀ index, (instrs index).length = n) :
    Even (withM (internType t) fun index => code (instrs index)) :=
  .of_copies fun _ => ⟨.ok n, fun table => congrArg Except.ok (long (table.intern t).1)⟩

lemma Copies.last (copies : Copies inner made) : Copies inner fun nested => seq [made nested] := copies.before []

lemma copies_either (branch : Dest → Instr Dest) (short : Piece) [even : Even short] (copies : Copies inner made) :
    Copies inner fun nested => either branch short (made nested) := by
  intro start
  obtain ⟨_, r, twin⟩ := even.copies inner (start + 1)
  cases r with
  | error f => exact ⟨fun _ => 0, twin.bind fun _ no => by cases no⟩
  | ok n =>
    obtain ⟨place, r', twin'⟩ := copies (start + 1 + n + 1)
    refine ⟨place, twin.bind fun m is => ?_⟩
    obtain rfl := Except.ok.inj is
    refine ⟨r'.map (n + 2 + ·), fun front is => ?_⟩
    rw [is]
    refine twin'.map (n + 2 + ·) fun long _ => ?_
    simp only [length_append, length_cons, is]
    omega

/-- Two pieces with inner pieces of their own. -/
lemma copies_parts {second : Spots (TypeDesc → Piece) → Piece} (between : Code) (copies : Copies inner first)
    (copies' : Copies inner second) :
    Copies inner fun nested => seq [first (nested.part 0), code between, second (nested.part 1)] := by
  refine copies_cons (copies.part 0) ((copies'.part 1).last.after (code between)) fun a b => ?_
  exact ⟨joined 0 a b, rfl, rfl⟩

end Copies

section Loops

variable {inner : TypeDesc → Piece} {made : Spots (TypeDesc → Piece) → Piece} (e : Entry)

lemma Copies.registerLoop (copies : Copies inner made) : Copies inner fun nested => e.registerLoop (made nested) :=
  copies_looping _ (copies.before [code e.stepCode])

lemma Copies.frameLoop (copies : Copies inner made) : Copies inner fun nested => e.frameLoop (made nested) :=
  copies_looping _ (copies.before [code _])

end Loops

section Even

variable (out : Output) (e : Entry) (kind : Kind) (t : TypeDesc) (base : Reg) (off : UInt32)

instance : Even (encodeScalar out t base off) := inferInstanceAs (Even (withM _ _))

instance : Even (encodeReserved out t base off) := inferInstanceAs (Even (withM _ _))

instance : Even (encodeBlob out base off) := inferInstanceAs (Even (withM _ _))

instance : Even (encodeContainerHead out kind e base off) := by
  unfold encodeContainerHead
  have := fun front : Code => even_internType e.elem (fun index => front ++ [.movImm r2 index.toUInt64,
    .call Builtin.setCheck [r2, p1, r1] []]) (front.length + 2) fun index => by simp
  infer_instance

instance (field : FieldDesc) : Even (encodeScalarField out field) := by
  unfold encodeScalarField unlessDefault
  cases field.default <;> infer_instance

instance : Even (decodeBlob base off) := inferInstanceAs (Even (withM _ _))

instance : Even (decodeRoom e base off) := inferInstanceAs (Even (withM _ _))

instance : Even (decodeDistinct t) := even_internType t _ 2 fun _ => rfl

instance (job : Job) : Even (deferral job t) := even_internType t _ 3 fun _ => rfl

instance (fields : List FieldDesc) : Even (storeDefaults fields) := by
  fun_induction storeDefaults fields <;> infer_instance

instance : Even (decodePrologue t) := inferInstanceAs (Even (seq _))

end Even

variable {inner : TypeDesc → Piece} [∀ t, Even (inner t)] (known : Registry) {out : Output} (t : TypeDesc)
  {base : Reg} {off : UInt32} {entry : Spots (TypeDesc → Piece) → Bool → Piece}

omit [∀ t, Even (inner t)] in
lemma copies_encodeContainer (kind : Kind) (e : Entry) (copies : ∀ flag, Copies inner fun nested => entry nested flag) :
    Copies inner fun nested => encodeContainer out kind e base off (entry nested) := by
  refine (copies_skipping _ ?_).last.after (encodeContainerHead out kind e base off)
  have loop : ∀ flag, Copies inner fun nested => if e.isSimple then e.registerLoop (entry nested flag)
      else seq [code [.enter, .storeFrame p1 0, .storeFrame r1 1], e.frameLoop (entry nested false), code [.leave]] := by
    intro flag
    split
    · exact (copies flag).registerLoop e
    · exact (((copies false).frameLoop e).before [code [.leave]]).after (code _)
  unfold encodeEntries
  cases e.fixedSize? with
  | none => exact loop false
  | some size =>
    cases out with
    | count => exact copies_even (code _)
    | write => exact (loop true).last.after (code _)

omit [∀ t, Even (inner t)] in
lemma copies_decodeContainer (isSet : Bool) (e : Entry) (copies : ∀ flag, Copies inner fun nested => entry nested flag) :
    Copies inner fun nested => decodeContainer isSet e base off (entry nested) := by
  refine ((copies_skipping (ifEq r1 0) ?_).last.after (decodeRoom e base off)).after (skipping (ifEq r1 0)
    (code (decodeTags e))) |>.after (code (decodeContainerHead e))
  have loop : Copies inner fun nested => readLoop isSet e (entry nested) := by
    unfold readLoop
    split
    · exact ((copies _).registerLoop e).last.after (code _)
    · exact (((copies false).frameLoop e).before [code _]).after (code _)
  simp only [decodeEntries_eq]
  split
  · exact loop.before [decodeDistinct e.elem]
  · exact loop

lemma copies_inner : Copies inner fun nested => nested [] t := by
  intro start
  obtain ⟨r, even⟩ := Even.verdict (inner t) start
  exact ⟨fun _ => start, r, (if_pos rfl).symm, even⟩

lemma copies_nestedRecord : Copies inner fun nested => nestedRecord known nested t := copies_withM copies_inner

lemma copies_encodeValue (flag : Bool) : Copies inner fun nested => encodeValue known nested out t flag base off := by
  induction t using TypeDesc.inner_induction generalizing flag base off with
  | step t ihElem ihKey =>
    obtain ⟨_, kind, _, _, _, key, elem, _, _⟩ := t
    cases kind with
    | string | binary => exact copies_even (encodeBlob out base off)
    | list | set =>
      cases elem with
      | none => exact copies_even (withM (ofSchema _) _)
      | some elem => exact copies_encodeContainer _ (.ofList elem) fun flag => (ihElem elem rfl flag).part 0
    | map =>
      cases elem with
      | none => exact copies_even (withM (ofSchema _) _)
      | some elem =>
        cases key with
        | none => exact copies_even (withM (ofSchema _) _)
        | some key =>
          exact copies_withM fun entry => copies_encodeContainer _ entry fun flag =>
            copies_parts _ (ihKey key rfl flag) (ihElem elem rfl flag)
    | struct => exact (copies_nestedRecord known _).last.after (code _)
    | pointer => exact (copies_either _ (code _) (copies_nestedRecord known _)).last.after (code _)
    | _ => exact copies_even (if flag then encodeReserved out _ base off else encodeScalar out _ base off)

lemma copies_decodeValue (flag : Bool) : Copies inner fun nested => decodeValue known nested t flag base off := by
  induction t using TypeDesc.inner_induction generalizing flag base off with
  | step t ihElem ihKey =>
    obtain ⟨_, kind, _, _, _, key, elem, _, _⟩ := t
    cases kind with
    | string | binary => exact copies_even (decodeBlob base off)
    | list | set =>
      cases elem with
      | none => exact copies_even (withM (ofSchema _) _)
      | some elem => exact copies_decodeContainer _ (.ofList elem) fun flag => (ihElem elem rfl flag).part 0
    | map =>
      cases elem with
      | none => exact copies_even (withM (ofSchema _) _)
      | some elem =>
        cases key with
        | none => exact copies_even (withM (ofSchema _) _)
        | some key =>
          exact copies_withM fun entry => copies_decodeContainer _ entry fun flag =>
            copies_parts _ (ihKey key rfl flag) (ihElem elem rfl flag)
    | struct => exact (copies_nestedRecord known _).last.after (code _)
    | pointer => exact copies_withM fun record => (copies_inner record).last.after (code _)
    | _ => exact copies_even (withM (scalarWidth _) _)

lemma copies_encodeField (field : FieldDesc) : Copies inner fun nested => encodeField known nested out field := by
  have record : Copies inner fun nested => nestedRecord known nested field.type := copies_nestedRecord known _
  by_cases boxed : field.isBoxed = true
  · simp only [encodeField_boxed boxed]
    exact copies_even _
  rcases field.type.kind.form with isScalar | header | kind | kind
  · simp only [encodeField_scalar boxed isScalar]
    exact copies_even _
  · simp only [encodeField_header header, encodeHeaderField]
    have value : Copies inner fun nested => encodeValue known nested out field.type false p0 field.offset :=
      copies_encodeValue known _ _
    have body := value.last.after (code (fieldHeader out field))
    split
    · exact body
    · exact (copies_skipping _ body).last.after (code _)
  · simp only [encodeField_struct kind]
    exact record.last.after (code _)
  · simp only [encodeField_pointer kind, encodePointerField]
    have body := record.last.after (code (fieldHeader out field ++ [.seek p0 p2 0]))
    refine Copies.after (code _) (Copies.last ?_)
    split
    · exact copies_either _ (code _) body
    · exact copies_skipping _ body

lemma copies_encodeFields (reload : Bool) (fields : List FieldDesc) :
    Copies inner fun nested => encodeFields known nested out reload fields := by
  induction fields generalizing reload with
  | nil => exact copies_even (code [])
  | cons field rest ih =>
    have head : Copies inner fun nested => encodeField known nested out field := copies_encodeField known _
    have tail := ih (!isSimple field.type)
    refine (copies_cons (head.part 0) (tail.part 1).last fun a b => ?_).after (code _)
    exact ⟨joined 0 a b, rfl, rfl⟩

lemma copies_decodeField (field : FieldDesc) : Copies inner fun nested => decodeField known nested field := by
  unfold decodeField
  split
  · exact copies_even _
  · exact copies_decodeValue known field.type false

lemma armsOf_congr {read read' : Nat → FieldDesc → Piece} {top unknown index : Nat} (fields : List FieldDesc)
    (same : ∀ i, index ≤ i → read i = read' i) (start : Nat) :
    armsOf read top unknown index fields start = armsOf read' top unknown index fields start := by
  induction fields generalizing index start with
  | nil => rfl
  | cons field rest ih =>
    have later := @ih (index + 1) fun i le => same i (by omega)
    simp only [armsOf, same index le_rfl, later]

lemma copies_armsOf (inner : TypeDesc → Piece) [∀ t, Even (inner t)] (top unknown index : Nat) (fields : List FieldDesc) (start : Nat) : ∃ place r,
    Twin (fun made : List Nat × Code => made.2.length)
      (armsOf (fun _ => decodeField known fun _ => inner) top unknown index fields start)
      (armsOf (fun i => decodeField known ((pinned inner place).part i)) top unknown index fields start) r := by
  induction fields generalizing index start with
  | nil => exact ⟨fun _ => 0, .ok 0, rfl, fun _ => rfl⟩
  | cons field rest ih =>
    have own : Copies inner fun nested => decodeField known nested field := copies_decodeField known _
    obtain ⟨a, r, twin⟩ := own.part index (start + 6)
    cases r with
    | error f => exact ⟨a, twin.bind fun _ no => by cases no⟩
    | ok n =>
      obtain ⟨b, r', twin'⟩ := ih (index + 1) (start + (n + 7))
      have here : (pinned inner (joined index a b)).part index = (pinned inner a).part index := by
        funext way t
        simp only [Spots.part, pinned, joined, List.head?_cons, if_pos]
      have there : ∀ i, index + 1 ≤ i → decodeField known ((pinned inner b).part i) =
          decodeField known ((pinned inner (joined index a b)).part i) := by
        intro i later
        congr 1
        funext way t
        simp only [Spots.part, pinned, joined, List.head?_cons, Option.some.injEq, if_neg (show i ≠ index by omega)]
      change Twin length _ (decodeField known ((pinned inner a).part index) field (start + 6)) _ at twin
      rw [← here] at twin
      rw [armsOf_congr _ there] at twin'
      refine ⟨joined index a b, twin.bind fun m is => ?_⟩
      obtain rfl := Except.ok.inj is
      refine ⟨r'.map (n + 7 + ·), fun front is => ?_⟩
      rw [length_armCode, is]
      refine twin'.map (n + 7 + ·) fun made _ => ?_
      rw [length_append, length_armCode, is]

lemma copies_decodeRecord : Copies inner fun nested => decodeRecord known nested t := by
  by_cases many : t.fields.length > maxTracked
  · intro start
    simp only [decodeRecord, if_pos many]
    exact ⟨fun _ => 0, _, twin_throw _⟩
  simp only [decodeRecord_eq (Nat.le_of_not_lt many)]
  intro start
  obtain ⟨_, r, twin⟩ := @Even.copies (decodePrologue t) _ inner start
  cases r with
  | error f => exact ⟨fun _ => 0, twin.bind fun _ no => by cases no⟩
  | ok n =>
    obtain ⟨place, r', twin'⟩ := copies_armsOf known inner (start + n)
      (start + n + 6 + dispatchSize t.fields) 0 t.fields (start + n + 6 + dispatchSize t.fields + 2)
    refine ⟨place, twin.bind fun m is => ?_⟩
    obtain rfl := Except.ok.inj is
    refine ⟨r'.map fun k => n + (6 + dispatchSize t.fields + 2) + k + (checkRequired t.fields).length + 1,
      fun prologue is => ?_⟩
    simp only [is]
    refine twin'.map _ fun made ⟨_, _, ok⟩ => ?_
    simp only [length_append, length_loopHead (length_armsOf ok), is, length_cons, length_nil]

variable (s : Setting) (job : Job)

lemma copies_recordPiece (inner : TypeDesc → Piece) [∀ t, Even (inner t)] (t : TypeDesc) (s : Setting) (job : Job) :
    Copies inner fun nested => recordPiece s job nested t := by
  cases job with
  | measure | encode =>
    exact ((copies_encodeFields s.known false t.fields).before [code _]).after (code _)
  | decode => exact copies_decodeRecord s.known t

instance even_nestedPiece (levels : Nat) (t : TypeDesc) : Even (nestedPiece s job levels t) := by
  induction levels generalizing t with
  | zero => exact inferInstanceAs (Even (deferral job t))
  | succ levels ih =>
    have inPlace := (copies_recordPiece (nestedPiece s job levels) t s job).even
    refine .of_copies fun start => ?_
    unfold nestedPiece
    split
    · exact Even.verdict _ start
    · exact inPlace.verdict _ start

end WireCodec.Lowering
