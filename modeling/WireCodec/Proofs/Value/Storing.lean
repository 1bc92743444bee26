import WireCodec.Proofs.Value.Content
import WireCodec.Value.Store

/-! Storing a value. The slot then holds the content of the value, what it refers to is in new memory,
and no other byte changes. -/
namespace WireCodec

open List

variable {count lo hi : Nat} {off slot : UInt32} {boxed : Bool} {c : Content} {slots : List (Option Value)}
  {filled : UInt32 → Heap → Unit → Heap → Prop} {heap₁ : Heap} {fill : UInt32 → StoreM Unit}

abbrev Within (start n k : Nat) : Prop := start ≤ k ∧ k < start + n

namespace Heap

variable {heap heap' heap'' : Heap} {owned owned' : Nat → Prop} {at_ n start stop : Nat}

/-- The arena grew, and of its old bytes only those that are `owned` changed. -/
structure Extends (heap heap' : Heap) (owned : Nat → Prop) : Prop where
  grows : heap.size ≤ heap'.size
  small : heap'.size ≤ limit
  same : ∀ k < heap.size, ¬ owned k → heap'.bytes[k]? = heap.bytes[k]?

namespace Extends

lemma refl (small : heap.size ≤ limit) : heap.Extends heap owned := ⟨le_rfl, small, fun _ _ _ => rfl⟩

lemma trans (first : heap.Extends heap' owned) (second : heap'.Extends heap'' owned')
    (part : ∀ k < heap.size, owned' k → owned k) : heap.Extends heap'' owned :=
  ⟨le_trans first.grows second.grows, second.small, fun k low apart =>
    (second.same k (lt_of_lt_of_le low first.grows) fun own => apart (part k low own)).trans (first.same k low apart)⟩

lemma mono (step : heap.Extends heap' owned) (part : ∀ k < heap.size, owned k → owned' k) : heap.Extends heap' owned' :=
  ⟨step.grows, step.small, fun k low apart => step.same k low fun own => apart (part k low own)⟩

lemma range (step : heap.Extends heap' owned) (inside : stop ≤ heap.size)
    (apart : ∀ k, start ≤ k → k < stop → ¬ owned k) : heap.Same heap' start stop :=
  fun k low high => step.same k (lt_of_lt_of_le high inside) (apart k low high)

end Extends

/-- Zeroed memory that was just handed out, behind all there was. -/
structure Fresh (heap : Heap) (count : Nat) (off : UInt32) (heap' : Heap) : Prop where
  extends_ : heap.Extends heap' fun _ => False
  above : heap.size ≤ off.toNat
  size : heap'.size = off.toNat + count
  clear : heap'.Clear off.toNat count

lemma fresh_alloc (got : heap.alloc? count = some (off, heap')) : heap.Fresh count off heap' := by
  have is := alloc?_eq_some got
  have up := heap.le_next
  have place := is.place
  have size := is.size
  exact ⟨⟨by omega, is.small, fun k low _ => is.same k (Nat.zero_le _) low⟩, by omega, by omega, place ▸ is.clear⟩

lemma extends_patch {data : List UInt8} (small : heap.size ≤ limit) :
    heap.Extends (heap.patch off data) (Within off.toNat data.length) := by
  refine ⟨le_of_eq (size_patch _ _ _).symm, by rwa [size_patch], fun k _ apart => ?_⟩
  rw [patch, getElem?_patch, if_neg]
  exact fun inside => apart ⟨inside.1, inside.2.1⟩

lemma Clear.part (clear : heap.Clear at_ n) {at' n' : Nat} (low : at_ ≤ at') (high : at' + n' ≤ at_ + n) :
    heap.Clear at' n' := by
  intro k b is
  obtain ⟨short, rfl⟩ := List.getElem?_eq_some_iff.mp is
  rw [length_replicate] at short
  rw [getElem_replicate, show at' + k = at_ + (at' - at_ + k) by omega]
  refine clear _ 0 ?_
  rw [getElem?_replicate, if_pos (by omega)]

lemma Clear.same (clear : heap.Clear at_ n) (same : heap.Same heap' at_ (at_ + n)) : heap'.Clear at_ n :=
  Spans.same clear (by rwa [length_replicate])

lemma leBytes_zero (width : Nat) : leBytes width 0 = List.replicate width 0 := by
  induction width with
  | zero => rfl
  | succ width ih =>
    rw [leBytes, replicate_succ]
    simpa using ih

lemma Clear.word (clear : heap.Clear at_ n) (inside : at_ + n ≤ heap.size) : heap.Word at_ n 0 :=
  ⟨by rw [leBytes_zero]; exact clear, inside⟩

def Started (heap : Heap) : Prop := reserved ≤ heap.size

lemma Started.next_ne (started : heap.Started) : heap.next ≠ 0 := by
  have := heap.le_next
  unfold Started reserved at started
  omega

lemma Fresh.ne_zero (fresh : heap.Fresh count off heap₁) (started : heap.Started) : off.toNat ≠ 0 := by
  have := fresh.above
  unfold Started reserved at started
  omega

end Heap

namespace Content

mutual
def zero : TypeDesc → Content
  | ⟨_, kind, _, _, _, _, _, _, fields⟩ =>
    if kind = .struct then .record (zeroSlots fields) else if kind.isScalar then .word 0 else .nil

def zeroSlots : List FieldDesc → List Content
  | [] => []
  | ⟨_, _, requiredness, type, default, _⟩ :: rest =>
    (if requiredness = .optional && default.isNone && type.kind.isScalar then .nil else zero type) :: zeroSlots rest
end

def absent (field : FieldDesc) : Content :=
  match field.default with
  | some default => .word default.bits
  | none => if field.isBoxed then .nil else zero field.type

/-- A count has 32 bits. More elements than that can be stored only if they take no memory. -/
def counted {α : Type} (elems : List α) : List α := elems.take (elems.length % 2 ^ 32)

mutual
def ofValue (known : Registry) (t : TypeDesc) : Value → Content
  | .scalar s => .word s.bits
  | .string s => .blob s.toUTF8.toList
  | .binary data => .blob data
  | .list vs => .items (counted (ofItems known t.part vs))
  | .set vs => .items (counted (ofItems known t.part vs))
  | .map es => .entries (counted (ofKeys known t.keyPart es)) (counted (ofElems known t.part es))
  | .struct slots => .record (ofSlots known (t.recordFields known) slots)

def ofItems (known : Registry) (t : TypeDesc) : List Value → List Content
  | [] => []
  | v :: rest => ofValue known t v :: ofItems known t rest

def ofKeys (known : Registry) (t : TypeDesc) : List (Value × Value) → List Content
  | [] => []
  | (k, _) :: rest => ofValue known t k :: ofKeys known t rest

def ofElems (known : Registry) (t : TypeDesc) : List (Value × Value) → List Content
  | [] => []
  | (_, v) :: rest => ofValue known t v :: ofElems known t rest

def ofSlots (known : Registry) : List FieldDesc → List (Option Value) → List Content
  | field :: fields, some v :: slots => ofValue known field.type v :: ofSlots known fields slots
  | field :: fields, none :: slots => absent field :: ofSlots known fields slots
  | _, _ => []
end

end Content

lemma Value.induction {motive : Value → Prop} (scalar : ∀ s, motive (.scalar s)) (string : ∀ s, motive (.string s))
    (binary : ∀ data, motive (.binary data)) (list : ∀ items, (∀ v ∈ items, motive v) → motive (.list items))
    (set : ∀ items, (∀ v ∈ items, motive v) → motive (.set items))
    (map : ∀ entries, (∀ e ∈ entries, motive e.1 ∧ motive e.2) → motive (.map entries))
    (struct : ∀ slots, (∀ v, some v ∈ slots → motive v) → motive (.struct slots)) (v : Value) : motive v := by
  cases v with
  | scalar s => exact scalar s
  | string s => exact string s
  | binary data => exact binary data
  | list items => exact list items fun v _ => induction scalar string binary list set map struct v
  | set items => exact set items fun v _ => induction scalar string binary list set map struct v
  | map entries =>
    refine map entries fun e mem => ?_
    obtain ⟨k, v⟩ := e
    have inner : 1 + sizeOf k + sizeOf v < sizeOf entries := sizeOf_lt_of_mem mem
    exact ⟨induction scalar string binary list set map struct k, induction scalar string binary list set map struct v⟩
  | struct slots =>
    refine struct slots fun v mem => ?_
    have inner : 1 + sizeOf v < sizeOf slots := sizeOf_lt_of_mem mem
    exact induction scalar string binary list set map struct v

lemma TypeDesc.field_induction {motive : TypeDesc → Prop}
    (step : ∀ t : TypeDesc, (∀ field ∈ t.fields, motive field.type) → motive t) (t : TypeDesc) : motive t := by
  obtain ⟨_, _, _, _, _, _, _, _, fields⟩ := t
  refine step _ fun field mem => ?_
  have inList : sizeOf field < sizeOf fields := sizeOf_lt_of_mem mem
  have inField : sizeOf field.type < sizeOf field := by
    obtain ⟨_, _, _, _, _, _⟩ := field
    simp only [Field.mk.sizeOf_spec]
    omega
  exact field_induction step field.type

namespace StoreM

variable {α β : Type} {heap heap' : Heap} {owned owned' : Nat → Prop} {m : StoreM α} {done done' : α → Heap → Prop}
  {e : ValueError} {a : α}

def after (m : StoreM α) (heap : Heap) : Heap :=
  match m heap with
  | .ok _ heap' => heap'
  | .error _ heap' => heap'

/-- Of the old bytes only those that are `owned` change, whether a computation succeeds or not. If it does, then what
is `done` holds. -/
def Leaves (m : StoreM α) (heap : Heap) (owned : Nat → Prop) (done : α → Heap → Prop) : Prop :=
  heap.Extends (after m heap) owned ∧ ∀ a heap', m heap = .ok a heap' → done a heap'

lemma Leaves.of_ok (ran : m heap = .ok a heap') (step : heap.Extends heap' owned) (is : done a heap') :
    Leaves m heap owned done := by
  refine ⟨by rwa [after, ran], fun a heap' ran' => ?_⟩
  cases ran.symm.trans ran'
  exact is

lemma Leaves.of_error (ran : m heap = .error e heap') (step : heap.Extends heap' owned) : Leaves m heap owned done :=
  ⟨by rwa [after, ran], fun _ _ ran' => by cases ran.symm.trans ran'⟩

lemma Leaves.ok (leaves : Leaves m heap owned done) (ran : m heap = .ok a heap') :
    heap.Extends heap' owned ∧ done a heap' := by
  have step := leaves.1
  rw [after, ran] at step
  exact ⟨step, leaves.2 a heap' ran⟩

lemma leaves_pure (small : heap.size ≤ Heap.limit) (is : done a heap) : Leaves (pure a) heap owned done :=
  .of_ok rfl (.refl small) is

lemma leaves_throw (small : heap.size ≤ Heap.limit) : Leaves (throw e) heap owned done :=
  .of_error rfl (.refl small)

lemma Leaves.imp (leaves : Leaves m heap owned done) (part : ∀ k < heap.size, owned k → owned' k)
    (imp : ∀ a heap', heap.Extends heap' owned → done a heap' → done' a heap') : Leaves m heap owned' done' :=
  ⟨leaves.1.mono part, fun a heap' ran => imp a heap' (leaves.ok ran).1 (leaves.ok ran).2⟩

lemma Leaves.bind {f : α → StoreM β} {done' : β → Heap → Prop} (first : Leaves m heap owned done)
    (part : ∀ k < heap.size, owned k → owned' k) (next : ∀ a heap₁, heap.Extends heap₁ owned → done a heap₁ →
      ∃ own, (∀ k < heap.size, own k → owned' k) ∧ Leaves (f a) heap₁ own done') : Leaves (m >>= f) heap owned' done' := by
  cases ran : m heap with
  | error e heap₁ =>
    have step := first.1
    rw [after, ran] at step
    have stops : (m >>= f) heap = .error e heap₁ := by
      change EStateM.bind m f heap = _
      rw [EStateM.bind, ran]
    exact .of_error stops (step.mono part)
  | ok a heap₁ =>
    obtain ⟨step, is⟩ := first.ok ran
    obtain ⟨own, part', second⟩ := next a heap₁ step is
    have same : (m >>= f) heap = f a heap₁ := by
      change EStateM.bind m f heap = _
      rw [EStateM.bind, ran]
    refine ⟨?_, fun b heap₂ ran' => second.2 b heap₂ (same ▸ ran')⟩
    rw [after, same]
    exact (step.mono part).trans second.1 part'

variable (small : heap.size ≤ Heap.limit)
include small

lemma leaves_alloc : Leaves (alloc count) heap (fun _ => False) fun off heap' => heap.Fresh count off heap' := by
  cases got : heap.alloc? count with
  | none => exact .of_error (by rw [alloc, got]) (.refl small)
  | some pair => exact .of_ok (by rw [alloc, got]) (Heap.fresh_alloc got).extends_ (Heap.fresh_alloc got)

lemma leaves_linked {link : UInt32 → StoreM Unit} {done : Unit → Heap → Prop}
    (first : ∀ off heap₁, heap.Fresh count off heap₁ → Leaves (fill off) heap₁ (Within off.toNat count) (filled off heap₁))
    (second : ∀ off heap₁ heap₂, heap.Fresh count off heap₁ → heap₁.Extends heap₂ (Within off.toNat count) →
      filled off heap₁ () heap₂ → Leaves (link off) heap₂ owned done) :
    Leaves (alloc count >>= fun off => fill off >>= fun _ => link off) heap owned done := by
  refine (leaves_alloc small).bind (fun _ _ => False.elim) fun off heap₁ step₁ fresh => ?_
  have above := fresh.above
  refine ⟨fun k => Within off.toNat count k ∨ owned k, fun k low own => own.elim (fun own => by omega) id,
    (first off heap₁ fresh).bind (fun _ _ => .inl) fun _ heap₂ step₂ is => ?_⟩
  exact ⟨owned, fun _ _ => .inr, second off heap₁ heap₂ fresh step₂ is⟩

lemma leaves_write {width : Nat} {word : UInt64} :
    Leaves (write off width word) heap (Within off.toNat width) fun _ heap' =>
      heap'.size = heap.size ∧ heap'.Word off.toNat width word := by
  by_cases fits : (width ≤ 8 && heap.holds off width) = true
  · have step : heap.Extends (heap.patch off (leBytes width word)) (Within off.toNat (leBytes width word).length) :=
      Heap.extends_patch small
    rw [length_leBytes] at step
    have ran : write off width word heap = .ok () (heap.patch off (leBytes width word)) := by rw [write, if_pos fits]
    simp only [Heap.holds, Bool.and_eq_true, decide_eq_true_eq] at fits
    exact .of_ok ran step ⟨Heap.size_patch _ _ _, Heap.spans_patch (by rw [length_leBytes]; exact fits.2),
      by rw [Heap.size_patch]; exact fits.2⟩
  · exact .of_error (by rw [write, if_neg fits]) (.refl small)

lemma leaves_writeHeader {data : UInt32} :
    Leaves (writeHeader off data count) heap (Within off.toNat 8) fun _ heap' => heap'.size = heap.size ∧
      heap'.Word off.toNat 4 data.toNat.toUInt64 ∧ heap'.Word (off.toNat + 4) 4 (count % 2 ^ 32).toUInt64 := by
  refine (leaves_write small).bind (fun k _ own => by omega) fun _ heap₁ step₁ ⟨size₁, word₁⟩ => ?_
  have next : (off + 4).toNat = off.toNat + 4 := by
    have := word₁.2
    unfold Heap.limit at small
    rw [UInt32.toNat_add]
    change (off.toNat + 4) % 2 ^ 32 = _
    omega
  have toCount : count.toUInt32.toUInt64 = (count % 2 ^ 32).toUInt64 := by
    apply UInt64.toNat_inj.mp
    simp only [UInt32.toNat_toUInt64, Nat.toUInt32, UInt32.toNat_ofNat', Nat.toUInt64_eq, UInt64.toNat_ofNat']
    omega
  refine ⟨_, fun k _ own => ?_, (leaves_write step₁.small).imp (fun _ _ own => own) fun _ heap₂ step₂ ⟨size₂, word₂⟩ => ?_⟩
  · rw [next] at own
    omega
  · rw [next] at step₂ word₂
    rw [toCount] at word₂
    rw [Nat.toUInt64_eq, UInt64.ofNat_uInt32ToNat]
    exact ⟨size₂.trans size₁, word₁.same (step₂.range word₁.2 fun k _ high own => by omega) step₂.grows, word₂⟩

end StoreM

open StoreM

section Storing

variable {known : Registry} {heap heap' : Heap} {addr : Nat} {t : TypeDesc} {entries : List (Value × Value)}
  {owned : Nat → Prop} {field : FieldDesc} {fields : List FieldDesc} {data : List UInt8} {s : Scalar} {v : Value}

lemma Content.zero_eq (t : TypeDesc) :
    zero t = if t.kind = .struct then .record (zeroSlots t.fields) else if t.kind.isScalar then .word 0 else .nil := by
  cases t
  rw [zero]

lemma Content.zeroSlots_cons (field : FieldDesc) (rest : List FieldDesc) :
    zeroSlots (field :: rest) = (if field.isBoxed then .nil else zero field.type) :: zeroSlots rest := by
  cases field
  rw [zeroSlots]
  rfl

lemma Content.zeroSlots_getElem? (i : Nat) : (zeroSlots fields)[i]? =
      fields[i]?.map fun field => if field.isBoxed then .nil else zero field.type := by
  induction fields generalizing i with
  | nil => rfl
  | cons field rest ih =>
    rw [zeroSlots_cons]
    cases i with
    | zero => rfl
    | succ i => exact ih i

lemma Content.length_zeroSlots (fields : List FieldDesc) : (zeroSlots fields).length = fields.length := by
  induction fields with
  | nil => rfl
  | cons field rest ih =>
    rw [zeroSlots_cons, length_cons, ih, length_cons]

lemma holds_zero (sound : known.Sound) (t : TypeDesc) (has : known.Has t) (clear : heap.Clear addr t.size.toNat)
    (inside : addr + t.size.toNat ≤ heap.size) : Holds known heap lo hi false addr t (Content.zero t) := by
  induction t using TypeDesc.field_induction generalizing addr with
  | step t ih =>
    have shaped := sound.shaped t has
    rw [Content.zero_eq]
    rcases t.kind.form with isScalar | hasHeader | kind | kind
    · rw [if_neg (fun kind => by rw [kind] at isScalar; cases isScalar), if_pos isScalar]
      exact .word isScalar (clear.word inside) (Nat.pow_pos (by decide))
    · have size : t.size.toNat = 8 := congrArg UInt32.toNat (shaped.size_header hasHeader)
      rw [size] at clear inside
      rw [if_neg (fun kind => by rw [kind] at hasHeader; cases hasHeader),
        if_neg (by rw [Kind.isScalar_of_hasHeader hasHeader]; nofun)]
      exact .noHeader hasHeader ((clear.part le_rfl (by omega)).word (by omega))
        ((clear.part (Nat.le_add_right _ _) (by omega)).word (by omega))
    · rw [if_pos kind]
      refine .record kind (Content.length_zeroSlots _) fun i field c at_ held => ?_
      rw [Content.zeroSlots_getElem?, at_, Option.map_some] at held
      cases held
      have mem := mem_of_getElem? at_
      have room := shaped.laidOut.inside field mem
      rw [← Holds.slotSize_field] at room
      have hasField := sound.field has mem
      by_cases boxed : field.isBoxed = true
      · rw [if_pos boxed, boxed]
        rw [boxed] at room
        change _ + 4 ≤ _ at room
        exact .noCell ((clear.part (by omega) (by omega)).word (by omega))
      · have plain : field.isBoxed = false := by simpa using boxed
        rw [if_neg boxed, plain]
        rw [plain] at room
        change _ + field.type.size.toNat ≤ _ at room
        exact ih field mem hasField (clear.part (by omega) (by omega)) (by omega)
    · have size : t.size.toNat = 4 := congrArg UInt32.toNat (shaped.size_pointer kind)
      rw [size] at clear inside
      rw [if_neg (by rw [kind]; nofun), if_neg (by rw [kind]; nofun)]
      exact .noTarget kind (clear.word inside)

/-- An empty slot in an arena that is in use. -/
structure Vacant (known : Registry) (heap : Heap) (boxed : Bool) (addr : Nat) (t : TypeDesc) : Prop where
  has : known.Has t
  started : heap.Started
  small : heap.size ≤ Heap.limit
  inside : addr + Holds.slotSize boxed t ≤ heap.size
  clear : heap.Clear addr (Holds.slotSize boxed t)

lemma Vacant.keep (vacant : Vacant known heap boxed addr t) (step : heap.Extends heap' owned)
    (apart : ∀ k, Within addr (Holds.slotSize boxed t) k → ¬ owned k) : Vacant known heap' boxed addr t :=
  ⟨vacant.has, le_trans vacant.started step.grows, step.small, le_trans vacant.inside step.grows,
    vacant.clear.same (step.range vacant.inside fun k low high => apart k ⟨low, high⟩)⟩

lemma Holds.keep {lo' : Nat} (sound : known.Sound) (holds : Holds known heap lo heap.size boxed addr t c)
    (has : known.Has t) (step : heap.Extends heap' owned) (inside : addr + Holds.slotSize boxed t ≤ heap.size)
    (apart : ∀ k, Within addr (Holds.slotSize boxed t) k → ¬ owned k) (above : ∀ k, lo ≤ k → k < heap.size → ¬ owned k)
    (low : lo' ≤ lo) : Holds known heap' lo' heap'.size boxed addr t c :=
  holds.mono sound has (step.range inside fun k low high => apart k ⟨low, high⟩)
    (step.range le_rfl above) step.grows low step.grows

lemma Holds.widen {lo' hi' : Nat} (sound : known.Sound) (holds : Holds known heap lo hi boxed addr t c)
    (has : known.Has t) (low : lo' ≤ lo) (high : hi ≤ hi') : Holds known heap lo' hi' boxed addr t c :=
  holds.mono sound has (Heap.Same.refl _ _ _) (Heap.Same.refl _ _ _) le_rfl low high

/-- A computation fills a slot: the slot then holds the content, with what it refers to in new memory. -/
abbrev StoreM.Puts (known : Registry) (m : StoreM Unit) (heap : Heap) (boxed : Bool) (addr : Nat) (t : TypeDesc)
    (c : Content) : Prop :=
  Leaves m heap (Within addr (Holds.slotSize boxed t)) fun _ heap' => Holds known heap' heap.size heap'.size boxed addr t c

def Stores (known : Registry) (v : Value) : Prop :=
  ∀ (off : UInt32) (t : TypeDesc) (heap : Heap), Vacant known heap false off.toNat t →
    Puts known (storeValue known off t v) heap false off.toNat t (Content.ofValue known t v)

lemma toNat_add_of_le {n : UInt32} (small : heap.size ≤ Heap.limit) (inside : off.toNat + n.toNat ≤ heap.size) :
    (off + n).toNat = off.toNat + n.toNat := by
  unfold Heap.limit at small
  rw [UInt32.toNat_add, Nat.mod_eq_of_lt (by omega)]

lemma leaves_items (sound : known.Sound) {elem : TypeDesc} (has : known.Has elem) {items : List Value}
    (each : ∀ v ∈ items, Stores known v) (started : heap.Started) (small : heap.size ≤ Heap.limit)
    (inside : off.toNat + items.length * elem.size.toNat ≤ heap.size)
    (clear : heap.Clear off.toNat (items.length * elem.size.toNat)) :
    Leaves (storeItems known elem off items) heap (Within off.toNat (items.length * elem.size.toNat)) fun _ heap' =>
      ∀ i c, (Content.ofItems known elem items)[i]? = some c →
        Holds known heap' heap.size heap'.size false (off.toNat + i * elem.size.toNat) elem c := by
  induction items generalizing off heap with
  | nil => exact leaves_pure small fun i c at_ => by cases at_
  | cons v rest ih =>
    rw [length_cons, Nat.succ_mul] at inside clear ⊢
    have next : (off + elem.size).toNat = off.toNat + elem.size.toNat := toNat_add_of_le small (by omega)
    have slot : Holds.slotSize false elem = elem.size.toNat := rfl
    refine (each v mem_cons_self off elem heap ⟨has, started, small, by rw [slot]; omega,
      clear.part le_rfl (by rw [slot]; omega)⟩).bind (fun k _ own => by rw [slot] at own; omega)
      fun _ heap₁ step₁ holds => ?_
    rw [slot] at step₁
    have grows := step₁.grows
    refine ⟨_, fun k _ own => ?_, (ih (fun v mem => each v (mem_cons_of_mem _ mem)) (le_trans started grows)
      step₁.small (by omega) ((clear.part (by omega) (by omega)).same
        (step₁.range (by omega) fun k low _ own => by omega))).imp (fun _ _ own => own) fun _ heap' step₂ others i c at_ => ?_⟩
    · omega
    · rw [next] at step₂ others
      cases i with
      | zero =>
        cases at_
        rw [Nat.zero_mul, Nat.add_zero]
        exact holds.keep sound has step₂ (by rw [slot]; omega) (fun k in_ own => by rw [slot] at in_; omega)
          (fun k high _ own => by omega) le_rfl
      | succ i =>
        have := (others i c at_).widen sound has grows le_rfl
        rwa [Nat.succ_mul, Nat.add_comm (i * _), ← Nat.add_assoc]

lemma leaves_entries (sound : known.Sound) {key elem : TypeDesc} {layout : TypeDesc.EntryLayout}
    (hasKey : known.Has key) (has : known.Has elem) (layout? : TypeDesc.EntryLayout.of? key elem = some layout) (each : ∀ e ∈ entries, Stores known e.1 ∧ Stores known e.2)
    (started : heap.Started) (small : heap.size ≤ Heap.limit)
    (inside : off.toNat + entries.length * layout.stride.toNat ≤ heap.size)
    (clear : heap.Clear off.toNat (entries.length * layout.stride.toNat)) :
    Leaves (storeEntries known key elem layout off entries) heap (Within off.toNat (entries.length * layout.stride.toNat))
      fun _ heap' => (∀ i c, (Content.ofKeys known key entries)[i]? = some c →
          Holds known heap' heap.size heap'.size false (off.toNat + i * layout.stride.toNat) key c) ∧
        ∀ i c, (Content.ofElems known elem entries)[i]? = some c → Holds known heap' heap.size heap'.size false
          (off.toNat + i * layout.stride.toNat + layout.valueOffset.toNat) elem c := by
  have bounds := TypeDesc.EntryLayout.bounds layout?
  induction entries generalizing off heap with
  | nil => exact leaves_pure small ⟨fun i c at_ => by (cases at_), fun i c at_ => by cases at_⟩
  | cons entry rest ih =>
    obtain ⟨k, v⟩ := entry
    rw [length_cons, Nat.succ_mul] at inside clear ⊢
    have atValue : (off + layout.valueOffset).toNat = off.toNat + layout.valueOffset.toNat :=
      toNat_add_of_le small (by omega)
    have next : (off + layout.stride).toNat = off.toNat + layout.stride.toNat := toNat_add_of_le small (by omega)
    have slotKey : Holds.slotSize false key = key.size.toNat := rfl
    have slot : Holds.slotSize false elem = elem.size.toNat := rfl
    obtain ⟨storesKey, stores⟩ := each (k, v) mem_cons_self
    refine (storesKey off key heap ⟨hasKey, started, small, by rw [slotKey]; omega,
      clear.part le_rfl (by rw [slotKey]; omega)⟩).bind (fun k _ own => by rw [slotKey] at own; omega)
      fun _ heap₁ step₁ holdsKey => ?_
    rw [slotKey] at step₁
    have grows₁ := step₁.grows
    have vacant : Vacant known heap₁ false (off + layout.valueOffset).toNat elem := by
      have : Vacant known heap false (off + layout.valueOffset).toNat elem :=
        ⟨has, started, small, by rw [slot, atValue]; omega, clear.part (by omega) (by rw [slot, atValue]; omega)⟩
      exact this.keep step₁ fun k in_ own => by omega
    refine ⟨Within (off.toNat + layout.valueOffset.toNat)
        (layout.stride.toNat - layout.valueOffset.toNat + rest.length * layout.stride.toNat), fun k _ own => by omega,
      (stores _ elem heap₁ vacant).bind (fun k _ own => by rw [slot, atValue] at own; omega) fun _ heap₂ step₂ holds => ?_⟩
    rw [slot, atValue] at step₂
    have grows₂ := step₂.grows
    have step : heap.Extends heap₂ (Within off.toNat layout.stride.toNat) :=
      (step₁.mono fun k _ own => by omega).trans step₂ fun k _ own => by omega
    refine ⟨_, fun k _ own => ?_, (ih (fun e mem => each e (mem_cons_of_mem _ mem)) (le_trans started step.grows)
      step.small (by omega) ((clear.part (by omega) (by omega)).same
        (step.range (by omega) fun k low _ own => by omega))).imp (fun _ _ own => own)
      fun _ heap' step₃ others => ⟨fun i c at_ => ?_, fun i c at_ => ?_⟩⟩
    · omega
    · rw [next] at step₃ others
      cases i with
      | zero =>
        cases at_
        rw [Nat.zero_mul, Nat.add_zero]
        have after : heap₁.Extends heap' (Within (off.toNat + layout.valueOffset.toNat)
            (layout.stride.toNat - layout.valueOffset.toNat + rest.length * layout.stride.toNat)) :=
          (step₂.mono fun k _ own => by omega).trans step₃ fun k _ own => by omega
        exact holdsKey.keep sound hasKey after (by rw [slotKey]; omega) (fun k in_ own => by rw [slotKey] at in_; omega)
          (fun k high _ own => by omega) le_rfl
      | succ i =>
        have := (others.1 i c at_).widen sound hasKey step.grows le_rfl
        rwa [Nat.succ_mul, Nat.add_comm (i * _), ← Nat.add_assoc]
    · rw [next] at step₃ others
      cases i with
      | zero =>
        cases at_
        rw [Nat.zero_mul, Nat.add_zero, ← atValue]
        exact holds.keep sound has step₃ (by rw [slot, atValue]; omega)
          (fun k in_ own => by rw [slot, atValue] at in_; omega) (fun k high _ own => by omega) grows₁
      | succ i =>
        have := (others.2 i c at_).widen sound has step.grows le_rfl
        rwa [Nat.succ_mul, Nat.add_comm (i * _), ← Nat.add_assoc]

lemma bits_lt {size : UInt32} (given : s.kind.scalarSize? = some size) : s.bits.toNat < 256 ^ size.toNat := by
  cases s with
  | bool b => cases given; cases b <;> decide
  | i8 v => cases given; exact v.toUInt8.toNat_lt
  | i16 v => cases given; exact v.toUInt16.toNat_lt
  | i32 v => cases given; exact v.toUInt32.toNat_lt
  | i64 v => cases given; exact v.toUInt64.toNat_lt
  | double w => cases given; exact w.toNat_lt

lemma puts_scalar (vacant : Vacant known heap false off.toNat t) (shaped : t.Shaped) (kind : s.kind = t.kind) : Puts
    known (write off t.size.toNat s.bits) heap false off.toNat t (.word s.bits) := by
  have isScalar : t.kind.isScalar = true := by
    rw [← kind]
    cases s <;> rfl
  obtain ⟨_, _, _, size⟩ := shaped.width isScalar
  exact (leaves_write vacant.small).imp (fun _ _ own => own) fun _ heap' _ ⟨_, word⟩ =>
    .word isScalar word (bits_lt (by rw [kind, size]))

lemma puts_boxed (sound : known.Sound) (stores : Stores known v)
    (vacant : Vacant known heap true slot.toNat t) (isScalar : t.kind.isScalar = true) :
    Puts known (StoreM.alloc boxSize.toNat >>= fun cell => storeValue known cell t v >>= fun _ => write32 slot cell) heap
      true slot.toNat t (Content.ofValue known t v) := by
  have short := (sound.shaped t vacant.has).size_le isScalar
  have inside := vacant.inside
  change slot.toNat + 4 ≤ _ at inside
  have slotIs : Holds.slotSize false t = t.size.toNat := rfl
  have box : boxSize.toNat = 8 := rfl
  refine leaves_linked vacant.small (fun cell heap₁ fresh => (stores cell t heap₁ ⟨vacant.has,
      le_trans vacant.started fresh.extends_.grows, fresh.extends_.small, by have := fresh.size; rw [slotIs]; omega,
      fresh.clear.part le_rfl (by omega)⟩).imp (fun k _ own => by rw [slotIs] at own; omega) fun _ _ _ holds => holds)
    fun cell heap₁ heap₂ fresh step₂ holds => ?_
  have above := fresh.above
  have size₁ := fresh.size
  have grows₂ := step₂.grows
  obtain ⟨w, eq, at_, fits⟩ := holds.eq_word isScalar
  refine (leaves_write step₂.small).imp (fun _ _ own => own) fun _ heap' step₃ both => ?_
  obtain ⟨size₃, word⟩ := both
  rw [eq]
  exact .cell cell.toNat (by simpa using word) (fresh.ne_zero vacant.started) above (by omega) isScalar
    (at_.same (step₃.range at_.2 fun k low _ own => by omega) step₃.grows) fits

lemma Vacant.holds (sound : known.Sound) (vacant : Vacant known heap field.isBoxed addr field.type) :
    Holds known heap lo hi field.isBoxed addr field.type (if field.isBoxed then .nil else Content.zero field.type) := by
  have inside := vacant.inside
  have clear := vacant.clear
  by_cases boxed : field.isBoxed = true
  · rw [boxed] at inside clear ⊢
    exact .noCell (clear.word inside)
  · have plain : field.isBoxed = false := by simpa using boxed
    rw [plain] at inside clear ⊢
    exact holds_zero sound field.type vacant.has clear inside

lemma puts_absent (sound : known.Sound) (vacant : Vacant known heap field.isBoxed slot.toNat field.type)
    (default : ∀ d, field.default = some d → field.requiredness = .optional ∧ d.kind = field.type.kind) :
    Puts known (storeAbsent slot field) heap field.isBoxed slot.toNat field.type (Content.absent field) := by
  unfold storeAbsent Content.absent
  rcases Option.eq_none_or_eq_some field.default with given | ⟨d, given⟩
  · simp only [given]
    exact leaves_pure vacant.small (vacant.holds sound)
  · have plain : field.isBoxed = false := by simp [Field.isBoxed, given]
    simp only [given]
    rw [plain] at vacant ⊢
    exact puts_scalar vacant (sound.shaped _ vacant.has) (default d given).2

lemma leaves_inReach {n : Nat} (small : heap.size ≤ Heap.limit) :
    Leaves (StoreM.inReach (offset? n)) heap (fun _ => False) fun slot heap' => slot.toNat = n ∧ heap' = heap := by
  unfold offset?
  split
  · exact leaves_pure small ⟨Heap.toNat_toUInt32 (by omega), rfl⟩
  · exact leaves_throw small

def storeSlot (known : Registry) (field : FieldDesc) (slot : UInt32) : Option Value → StoreM Unit
  | none => storeAbsent slot field
  | some v =>
    if field.isBoxed then
      StoreM.alloc boxSize.toNat >>= fun cell => storeValue known cell field.type v >>= fun _ => write32 slot cell
    else storeValue known slot field.type v

lemma storeSlots_cons (field : FieldDesc) (fields : List FieldDesc) (given : Option Value) :
    storeSlots known off (field :: fields) (given :: slots) =
      StoreM.inReach (offset? (off.toNat + field.offset.toNat)) >>= fun slot =>
        storeSlot known field slot given >>= fun _ => storeSlots known off fields slots := by
  cases given with
  | none => rw [storeSlots]; rfl
  | some v =>
    simp only [storeSlots, storeSlot]
    split <;> simp only [bind_assoc]

lemma puts_slot (sound : known.Sound) {given : Option Value} (each : ∀ v, given = some v → Stores known v)
    (vacant : Vacant known heap field.isBoxed slot.toNat field.type)
    (default : ∀ d, field.default = some d → field.requiredness = .optional ∧ d.kind = field.type.kind) :
    Puts known (storeSlot known field slot given) heap field.isBoxed slot.toNat field.type
      (given.elim (Content.absent field) (Content.ofValue known field.type)) := by
  cases given with
  | none => exact puts_absent sound vacant default
  | some v =>
    have stores := each v rfl
    simp only [storeSlot]
    by_cases boxed : field.isBoxed = true
    · rw [if_pos boxed]
      rw [boxed] at vacant ⊢
      exact puts_boxed sound stores vacant (Field.isScalar_of_isBoxed boxed)
    · have plain : field.isBoxed = false := by simpa using boxed
      rw [if_neg boxed]
      rw [plain] at vacant ⊢
      exact stores slot field.type heap vacant

lemma leaves_slots (sound : known.Sound) (each : ∀ v, some v ∈ slots → Stores known v)
    (length : slots.length = fields.length) (small : heap.size ≤ Heap.limit)
    (vacant : ∀ field ∈ fields, Vacant known heap field.isBoxed (off.toNat + field.offset.toNat) field.type)
    (apart : fields.Pairwise fun a b => a.offset.toNat + a.slotSize.toNat ≤ b.offset.toNat)
    (default : ∀ field ∈ fields, ∀ d, field.default = some d →
      field.requiredness = .optional ∧ d.kind = field.type.kind) :
    Leaves (storeSlots known off fields slots) heap
      (fun k => ∃ field ∈ fields, Within (off.toNat + field.offset.toNat) field.slotSize.toNat k) fun _ heap' =>
      (Content.ofSlots known fields slots).length = fields.length ∧
      ∀ (i : Nat) (field : FieldDesc) c, fields[i]? = some field → (Content.ofSlots known fields slots)[i]? = some c →
        Holds known heap' heap.size heap'.size field.isBoxed (off.toNat + field.offset.toNat) field.type c := by
  induction fields generalizing slots heap with
  | nil =>
    cases slots with
    | cons => cases length
    | nil => exact leaves_pure small ⟨rfl, fun i field c at_ => by cases at_⟩
  | cons field rest ih =>
    cases slots with
    | nil => cases length
    | cons given others =>
      rw [pairwise_cons] at apart
      have first := vacant field mem_cons_self
      have slotIs := Holds.slotSize_field field
      have eq : Content.ofSlots known (field :: rest) (given :: others) =
          given.elim (Content.absent field) (Content.ofValue known field.type) :: Content.ofSlots known rest others := by
        cases given <;> rfl
      rw [storeSlots_cons, eq]
      refine (leaves_inReach small).bind (fun _ _ => False.elim) fun slot _ _ ⟨place, same⟩ => ?_
      subst same
      rw [← place] at first
      refine ⟨_, fun _ _ own => own, (puts_slot sound (fun v is => each v (is ▸ mem_cons_self)) first
        (default field mem_cons_self)).bind (fun k _ own => ?_) fun _ heap₁ step₁ holds => ?_⟩
      · rw [slotIs, place] at own
        exact ⟨field, mem_cons_self, own⟩
      rw [slotIs, place] at step₁
      have grows₁ := step₁.grows
      refine ⟨_, fun k _ ⟨f, mem, own⟩ => ⟨f, mem_cons_of_mem _ mem, own⟩, (ih (fun v mem => each v (mem_cons_of_mem _ mem))
        (Nat.succ.inj length) step₁.small (fun f mem => (vacant f (mem_cons_of_mem _ mem)).keep step₁ fun k in_ own => ?_)
        apart.2 fun f mem => default f (mem_cons_of_mem _ mem)).imp (fun _ _ own => own)
        fun _ heap' step₂ ⟨lengths, held⟩ => ⟨?_, ?_⟩⟩
      · have := apart.1 f mem
        omega
      · rw [length_cons, lengths, length_cons]
      · intro i f c at_ is
        cases i with
        | zero =>
          cases at_
          cases is
          rw [← place]
          refine holds.keep sound first.has step₂ (le_trans first.inside grows₁) (fun k in_ own => ?_)
            (fun k high _ own => ?_) le_rfl
          · obtain ⟨g, mem, own⟩ := own
            have := apart.1 g mem
            rw [slotIs] at in_
            omega
          · obtain ⟨g, mem, own⟩ := own
            have := (vacant g (mem_cons_of_mem _ mem)).inside
            rw [Holds.slotSize_field] at this
            omega
        | succ i =>
          exact (held i f c at_ is).widen sound (vacant f (mem_cons_of_mem _ (mem_of_getElem? at_))).has grows₁ le_rfl

lemma puts_record (sound : known.Sound) (each : ∀ v, some v ∈ slots → Stores known v)
    (vacant : Vacant known heap false off.toNat t) (kind : t.kind = .struct) (length : slots.length = t.fields.length) :
    Puts known (storeSlots known off t.fields slots) heap false off.toNat t
      (.record (Content.ofSlots known t.fields slots)) := by
  have laidOut := (sound.shaped t vacant.has).laidOut
  have whole := vacant.inside
  change off.toNat + t.size.toNat ≤ _ at whole
  have clear := vacant.clear
  change heap.Clear off.toNat t.size.toNat at clear
  refine (leaves_slots sound each length vacant.small (fun field mem => ?_) laidOut.apart laidOut.defaults).imp
    (fun k _ ⟨field, mem, own⟩ => ?_) fun _ _ _ ⟨lengths, held⟩ => .record kind lengths held
  · have room := laidOut.inside field mem
    rw [← Holds.slotSize_field] at room
    exact ⟨sound.field vacant.has mem, vacant.started, vacant.small, by omega, clear.part (by omega) (by omega)⟩
  · have := laidOut.inside field mem
    change Within off.toNat t.size.toNat k
    omega

lemma length_counted {α : Type} (elems : List α) : (Content.counted elems).length = elems.length % 2 ^ 32 := by
  rw [Content.counted, length_take]
  exact Nat.min_eq_left (Nat.mod_le _ _)

lemma getElem?_counted {elems : List Content} {i : Nat} (at_ : (Content.counted elems)[i]? = some c) :
    elems[i]? = some c := by
  rw [Content.counted, getElem?_take] at at_
  split at at_
  · exact at_
  · cases at_

lemma Content.ofItems_eq_map (values : List Value) : ofItems known t values = values.map (ofValue known t) := by
  induction values with
  | nil => rfl
  | cons v rest ih => rw [ofItems, ih, map_cons]

lemma Content.ofKeys_eq_map (entries : List (Value × Value)) :
    ofKeys known t entries = entries.map fun e => ofValue known t e.1 := by
  induction entries with
  | nil => rfl
  | cons e rest ih => rw [ofKeys, ih, map_cons]

lemma Content.ofElems_eq_map (entries : List (Value × Value)) :
    ofElems known t entries = entries.map fun e => ofValue known t e.2 := by
  induction entries with
  | nil => rfl
  | cons e rest ih => rw [ofElems, ih, map_cons]

lemma Holds.above {heap₀ heap₂ : Heap} {floor : Nat} (sound : known.Sound)
    (holds : Holds known heap₁ lo heap₁.size false addr t c) (has : known.Has t) (step : heap₁.Extends heap₂ owned)
    (below : ∀ k, owned k → k < floor) (from_ : floor ≤ addr) (low : floor ≤ lo)
    (inside : addr + t.size.toNat ≤ heap₁.size) (start : heap₀.size ≤ lo) :
    Holds known heap₂ heap₀.size heap₂.size false addr t c :=
  holds.mono sound has (step.range inside fun k low _ own => by have := below k own; omega)
    (step.range le_rfl fun k low _ own => by have := below k own; omega) step.grows start step.grows

lemma leaves_allocBytes (small : heap.size ≤ Heap.limit) :
    Leaves (StoreM.allocBytes data) heap (fun _ => False) fun start heap' =>
      heap.size ≤ start.toNat ∧ heap'.size = start.toNat + data.length ∧ heap'.Spans start.toNat data := by
  cases got : heap.alloc? data.length with
  | none => exact .of_error (by rw [StoreM.allocBytes, Heap.allocBytes?, got]; rfl) (.refl small)
  | some pair =>
    have fresh := Heap.fresh_alloc got
    have total := fresh.size
    have above := fresh.above
    exact .of_ok (by rw [StoreM.allocBytes, Heap.allocBytes?, got]; rfl)
      (fresh.extends_.trans (Heap.extends_patch fresh.extends_.small) fun k low own => by omega)
      ⟨above, (Heap.size_patch _ _ _).trans total, Heap.spans_patch (by omega)⟩

lemma puts_blob (vacant : Vacant known heap false off.toNat t) (shaped : t.Shaped)
    (kind : t.kind = .string ∨ t.kind = .binary) :
    Puts known (storeBlob off data) heap false off.toNat t (.blob data) := by
  have size := Holds.slotSize_header shaped (Kind.hasHeader_of_blob kind)
  have inside := vacant.inside
  rw [size] at inside
  refine (leaves_allocBytes vacant.small).bind (fun _ _ => False.elim) fun start heap₁ step₁ ⟨above, total, spans⟩ => ?_
  have small := step₁.small
  unfold Heap.limit at small
  have started := vacant.started
  unfold Heap.Started Heap.reserved at started
  refine ⟨Within off.toNat 8, fun _ _ own => size ▸ own, (leaves_writeHeader step₁.small).imp (fun _ _ own => own)
    fun _ heap₂ step₂ ⟨size₂, first, second⟩ => ?_⟩
  rw [Nat.mod_eq_of_lt (by omega)] at second
  exact .blob start.toNat kind ⟨first, second, by omega, above, by omega, by omega⟩ (spans.same
    (step₂.range (by omega) fun k low _ own => by omega))

lemma puts_block {stride : UInt32} (vacant : Vacant known heap false off.toNat t)
    (size : Holds.slotSize false t = 8) (first : ∀ data heap₁, heap.Fresh (count * stride.toNat) data heap₁ →
      Leaves (fill data) heap₁ (Within data.toNat (count * stride.toNat)) (filled data heap₁))
    (second : ∀ (data : UInt32) heap₁ heap₂ heap', filled data heap₁ () heap₂ →
      HeaderAt heap' heap.size heap'.size off.toNat data.toNat (count % 2 ^ 32) (count % 2 ^ 32 * stride.toNat) →
      (∀ {i addr : Nat} {elem : TypeDesc} {c : Content}, i < count → known.Has elem →
        data.toNat + i * stride.toNat ≤ addr →
        addr + elem.size.toNat ≤ data.toNat + i * stride.toNat + stride.toNat → known.Sound →
        Holds known heap₂ heap₁.size heap₂.size false addr elem c →
        Holds known heap' heap.size heap'.size false addr elem c) →
      Holds known heap' heap.size heap'.size false off.toNat t c) :
    Puts known (StoreM.alloc (stride.toNat * count) >>= fun data => fill data >>= fun _ => writeHeader off data count) heap
      false off.toNat t c := by
  rw [Nat.mul_comm]
  refine leaves_linked vacant.small first fun data heap₁ heap₂ fresh step₂ held => ?_
  have above := fresh.above
  have total := fresh.size
  have inside := vacant.inside
  have grows := step₂.grows
  rw [size] at inside ⊢
  have fewer : count % 2 ^ 32 * stride.toNat ≤ count * stride.toNat := Nat.mul_le_mul_right _ (Nat.mod_le _ _)
  refine (leaves_writeHeader step₂.small).imp (fun _ _ own => own) fun _ heap' step₃ ⟨size₃, head, count⟩ =>
    second data heap₁ heap₂ heap' held ⟨head, count, fresh.ne_zero vacant.started, above, by omega,
      Nat.mod_lt _ (by decide)⟩ fun {i addr elem c} low has from_ upTo sound holds => ?_
  have room := Holds.mul_add_le low stride.toNat
  exact holds.above sound has step₃ (fun k own => own.2) (by omega) (by omega) (by omega) (by omega)

section

variable (sound : known.Sound)
include sound

lemma puts_sequence {values : List Value} (each : ∀ v ∈ values, Stores known v)
    (vacant : Vacant known heap false off.toNat t) (kind : t.kind = .list ∨ t.kind = .set) :
    Puts known (storeSequence t off values.length fun elem data => storeItems known elem data values) heap false off.toNat t
      (.items (Content.counted (Content.ofItems known t.part values))) := by
  obtain ⟨elem, is⟩ := sound.sequence vacant.has kind
  have count : (Content.counted (Content.ofItems known elem values)).length = values.length % 2 ^ 32 := by
    rw [length_counted, Content.ofItems_eq_map, length_map]
  rw [storeSequence, TypeDesc.elem?, is.elem?, is.part]
  refine puts_block vacant (Holds.slotSize_header (sound.shaped t vacant.has) is.hasHeader) (fun data heap₁ fresh =>
    leaves_items sound is.hasElem each (le_trans vacant.started fresh.extends_.grows) fresh.extends_.small
      (le_of_eq fresh.size.symm) fresh.clear) fun data heap₁ heap₂ heap' held head keep => ?_
  refine .items data.toNat is (by rwa [count]) fun i c at_ => ?_
  have at_ := getElem?_counted at_
  have low := (List.getElem?_eq_some_iff.mp at_).1
  rw [Content.ofItems_eq_map, length_map] at low
  exact keep low is.hasElem le_rfl le_rfl sound (held i c at_)

lemma puts_map (fit : known.EntriesFit) (each : ∀ e ∈ entries, Stores known e.1 ∧ Stores known e.2)
    (vacant : Vacant known heap false off.toNat t) (kind : t.kind = .map) : Puts known
    (storeValue known off t (.map entries)) heap false off.toNat t (Content.ofValue known t (.map entries)) := by
  obtain ⟨key, elem, layout, is⟩ := sound.map fit vacant.has kind
  have bounds := TypeDesc.EntryLayout.bounds is.layout?
  have count : (Content.counted (Content.ofKeys known key entries)).length = entries.length % 2 ^ 32 := by
    rw [length_counted, Content.ofKeys_eq_map, length_map]
  have count' : (Content.counted (Content.ofElems known elem entries)).length = entries.length % 2 ^ 32 := by
    rw [length_counted, Content.ofElems_eq_map, length_map]
  rw [storeValue, if_pos kind, TypeDesc.key?, is.key?, TypeDesc.elem?, is.elem?, Content.ofValue, is.part, is.keyPart]
  change Puts known (StoreM.inReach (TypeDesc.EntryLayout.of? key elem) >>= _) _ _ _ _ _
  rw [is.layout?]
  refine puts_block vacant (Holds.slotSize_header (sound.shaped t vacant.has) is.hasHeader) (fun data heap₁ fresh =>
    leaves_entries sound is.hasKey is.hasElem is.layout? each (le_trans vacant.started fresh.extends_.grows)
      fresh.extends_.small (le_of_eq fresh.size.symm) fresh.clear) fun data heap₁ heap₂ heap' held head keep => ?_
  refine .entries data.toNat is (count'.trans count.symm) (by rwa [count]) (fun i c at_ => ?_) fun i c at_ => ?_
  · have at_ := getElem?_counted at_
    have low := (List.getElem?_eq_some_iff.mp at_).1
    rw [Content.ofKeys_eq_map, length_map] at low
    exact keep low is.hasKey le_rfl (by omega) sound (held.1 i c at_)
  · have at_ := getElem?_counted at_
    have low := (List.getElem?_eq_some_iff.mp at_).1
    rw [Content.ofElems_eq_map, length_map] at low
    exact keep low is.hasElem (by omega) (by omega) sound (held.2 i c at_)

lemma puts_through (each : ∀ v, some v ∈ slots → Stores known v) {hops : Nat}
    (vacant : Vacant known heap false off.toNat t) : Puts known (storeThrough known (fun off t =>
      if t.kind = .struct then if slots.length = t.fields.length then storeSlots known off t.fields slots
        else throw (.fieldCount t.name t.fields.length slots.length)
      else throw (.mismatch t.kind .struct)) hops off t) heap false off.toNat t
      (.record (Content.ofSlots known (t.recordFields known) slots)) := by
  induction hops generalizing off t heap with
  | zero => exact leaves_throw vacant.small
  | succ hops ih =>
    rw [storeThrough]
    by_cases pointer : t.kind = .pointer
    · rw [if_pos pointer]
      cases found : t.pointee known with
      | error => exact leaves_throw vacant.small
      | ok record =>
        have ok : t.recordType known = .ok record := by simp only [TypeDesc.recordType, pointer, found]
        have has := sound.recordType vacant.has ok
        have size := Holds.slotSize_pointer (sound.shaped t vacant.has) pointer
        have recordIs : Holds.slotSize false record = record.size.toNat := rfl
        have inside := vacant.inside
        rw [size] at inside
        refine leaves_linked vacant.small (fun data heap₁ fresh => ih ⟨has, le_trans vacant.started
          fresh.extends_.grows, fresh.extends_.small, le_of_eq fresh.size.symm, fresh.clear⟩)
          fun data heap₁ heap₂ fresh step₂ holds => ?_
        have above := fresh.above
        have total := fresh.size
        have grows₂ := step₂.grows
        rw [size]
        refine (leaves_write step₂.small).imp (fun _ _ own => own) fun _ heap' step₃ both => ?_
        obtain ⟨size₃, word⟩ := both
        rw [TypeDesc.recordFields_target ok holds.suits]
        refine .target data.toNat pointer ok (by simpa using word) (fresh.ne_zero vacant.started) above (by omega) ?_
        exact holds.above sound has step₃ (fun k own => own.2) (by omega) (by omega) (by omega) (by omega)
    · rw [if_neg pointer]
      split
      · rename_i kind
        split
        · rw [TypeDesc.recordFields_struct kind]
          exact puts_record sound each vacant kind (by assumption)
        · exact leaves_throw vacant.small
      · exact leaves_throw vacant.small

/-- Storing a value of a type fills its slot with the content of the value. -/
lemma stores (fit : known.EntriesFit) (v : Value) : Stores known v := by
  induction v using Value.induction with
  | scalar s =>
    intro off t heap vacant
    rw [storeValue]
    split
    · exact puts_scalar vacant (sound.shaped t vacant.has) (by assumption)
    · exact leaves_throw vacant.small
  | string s =>
    intro off t heap vacant
    rw [storeValue]
    split
    · exact puts_blob vacant (sound.shaped t vacant.has) (.inl (by assumption))
    · exact leaves_throw vacant.small
  | binary data =>
    intro off t heap vacant
    rw [storeValue]
    split
    · exact puts_blob vacant (sound.shaped t vacant.has) (.inr (by assumption))
    · exact leaves_throw vacant.small
  | list values ih =>
    intro off t heap vacant
    rw [storeValue]
    split
    · exact puts_sequence sound ih vacant (.inl (by assumption))
    · exact leaves_throw vacant.small
  | set values ih =>
    intro off t heap vacant
    rw [storeValue]
    split
    · exact puts_sequence sound ih vacant (.inr (by assumption))
    · exact leaves_throw vacant.small
  | map entries ih =>
    intro off t heap vacant
    by_cases kind : t.kind = .map
    · exact puts_map sound fit ih vacant kind
    · rw [storeValue, if_neg kind]
      exact leaves_throw vacant.small
  | struct slots ih =>
    intro off t heap vacant
    rw [storeValue]
    exact puts_through sound ih vacant

lemma leaves_allocValue (fit : known.EntriesFit) (has : known.Has t) (v : Value)
    (started : heap.Started) (small : heap.size ≤ Heap.limit) :
    Leaves (allocValue known t v) heap (fun _ => False) fun root heap' =>
      heap'.size ≤ Heap.limit ∧ heap.size ≤ root.toNat ∧ root.toNat + t.size.toNat ≤ heap'.size ∧
      heap.size ≤ heap'.size ∧ Holds known heap' heap.size heap'.size false root.toNat t (Content.ofValue known t v) := by
  refine (leaves_alloc small).bind (fun _ _ own => own) fun off heap₁ step₁ fresh => ?_
  have above := fresh.above
  have total := fresh.size
  have slot : Holds.slotSize false t = t.size.toNat := rfl
  refine ⟨Within off.toNat t.size.toNat, fun k low own => by omega, (stores sound fit v off t heap₁ ⟨has,
    le_trans started step₁.grows, step₁.small, by rw [slot]; omega, fresh.clear⟩).bind (fun _ _ own => own)
    fun _ heap₂ step₂ holds => ⟨fun _ => False, fun _ _ => False.elim, leaves_pure step₂.small ?_⟩⟩
  have grows := step₂.grows
  exact ⟨step₂.small, by omega, by omega, by omega, holds.widen sound has step₁.grows le_rfl⟩

end

lemma allocValue_small (known : Registry) (t : TypeDesc) (v : Value) (heap : Heap) :
    heap.size ≤ Heap.limit ∨ allocValue known t v heap = .error .exhausted heap := by
  cases got : heap.alloc? t.size.toNat with
  | none =>
    refine .inr ?_
    change EStateM.bind (StoreM.alloc _) _ heap = _
    rw [EStateM.bind, StoreM.alloc, got]
  | some pair => exact .inl (le_trans (Heap.fresh_alloc got).extends_.grows (Heap.fresh_alloc got).extends_.small)

lemma holds_of_allocValue (sound : known.Sound) (fit : known.EntriesFit) (has : known.Has t) {root : UInt32}
    (started : heap.Started) (ran : allocValue known t v heap = .ok root heap') :
    heap'.size ≤ Heap.limit ∧ heap.size ≤ root.toNat ∧ root.toNat + t.size.toNat ≤ heap'.size ∧
      heap.size ≤ heap'.size ∧ Holds known heap' heap.size heap'.size false root.toNat t (Content.ofValue known t v) := by
  rcases allocValue_small known t v heap with small | stops
  · exact ((leaves_allocValue sound fit has v started small).ok ran).2
  · cases stops.symm.trans ran

end Storing

end WireCodec
