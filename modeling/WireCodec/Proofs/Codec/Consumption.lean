import WireCodec.Proofs.Codec.Intake

/-! What reading a value takes. What is asked for in advance is never more than what is read then. -/
namespace WireCodec

open Lowering Heap

namespace Skip

variable {α : Type}

/-- The same result, unless the bytes end before it. -/
def Sooner (r r' : Result α) : Prop := r = r' ∨ ∃ offset, r = .error ⟨.unexpectedEof, offset⟩

lemma closed_sooner (buf more : Bytes) : Closed buf (buf ++ more) Sooner where
  ok := fun _ => .inl rfl
  error := fun _ _ => .inl rfl
  eof := fun offset _ => .inr ⟨offset, rfl⟩
  bind := by
    rintro α β r r' f f' (rfl | ⟨offset, rfl⟩) rest
    · cases r with
      | ok a => exact rest a
      | error e => exact .inl rfl
    · exact .inr ⟨offset, rfl⟩
  advance := by
    intro pos k
    unfold advance
    by_cases inside : pos + k ≤ buf.size
    · rw [if_pos inside, if_pos (by rw [Array.size_append]; omega)]
      exact .inl rfl
    · rw [if_neg inside]
      exact .inr ⟨_, rfl⟩
  byte := by
    intro pos
    unfold byte
    by_cases inside : pos < buf.size
    · rw [Array.getElem?_append_left inside]
      exact .inl rfl
    · rw [Array.getElem?_eq_none (Nat.not_lt.mp inside)]
      exact .inr ⟨_, rfl⟩
  count := by
    intro pos
    unfold count
    by_cases inside : pos + 4 ≤ buf.size
    · have same : slice? (buf ++ more) pos 4 = slice? buf pos 4 := by
        rw [slice?, slice?, if_pos inside, if_pos (by rw [Array.size_append]; omega), Array.extract_append_of_stop_le_size_left inside]
      rw [same]
      exact .inl rfl
    · rw [show slice? buf pos 4 = none from if_neg inside]
      exact .inr ⟨_, rfl⟩
  size := by
    rw [Array.size_append]
    exact Nat.le_add_right _ _

end Skip

lemma skip_cut {wire : Bytes} {depth pos : Nat} {tag : UInt8} {bytes : List UInt8} (raw : Raw depth tag bytes)
    (inside : pos ≤ wire.size) (starts : Starts wire pos bytes) (short : wire.size < pos + bytes.length) :
    ∃ offset, skip wire depth tag pos = .error ⟨.unexpectedEof, offset⟩ := by
  have at_ : At (wire ++ (bytes.drop (wire.size - pos)).toArray) pos bytes := by
    refine ⟨fun k b is => ?_, ?_⟩
    · change (wire ++ _)[pos + k]? = _
      by_cases low : pos + k < wire.size
      · rw [Array.getElem?_append_left low]
        exact starts k b is low
      · rw [Array.getElem?_append_right (Nat.not_lt.mp low), List.getElem?_toArray, List.getElem?_drop]
        rw [show wire.size - pos + (pos + k - wire.size) = k by omega, is]
    · simp only [Array.size_append, List.size_toArray, List.length_drop]
      omega
  have passed := (skip_passes _ depth tag pos _).mpr ⟨bytes, at_, rfl, raw⟩
  rcases (Skip.closed_sooner wire _).skip depth tag pos with same | failed
  · have := (skip_ahead (same.trans passed)).2
    omega
  · exact failed

namespace Act

variable {w : Window} {rate debt : Nat}

lemma consumes_pass (left : Nat) (tag : UInt64) : Consumes w rate 0 (pass left tag) fun _ _ => True := by
  refine fun c _ _ guards => ends_pass (fun after skipped => ?_) fun _ => lost_at guards
  obtain ⟨bytes, at_, rfl, raw⟩ := (skip_passes c.wire left tag.toUInt8 c.pos.toNat after).mp skipped
  have place : ∀ pos : UInt64, (pos.toNat + bytes.length).toUInt64 = pos + bytes.length.toUInt64 := fun pos => by
    simp only [Nat.toUInt64_eq, UInt64.ofNat_add, UInt64.ofNat_toNat]
  refine ⟨bytes, trivial, ⟨⟨rfl, le_rfl, guards, fun _ _ _ => rfl⟩, at_, place _, Nat.le_add_right _ _⟩,
    fun wire pos _ inside => ⟨fun at' => ?_, fun starts short => ?_⟩⟩
  · have passed := (skip_passes wire left tag.toUInt8 pos.toNat _).mpr ⟨bytes, at', rfl, raw⟩
    simp only [pass, Scene.on, passed, place]
  · obtain ⟨offset, failed⟩ := skip_cut raw inside starts short
    simp only [pass, Scene.on, failed]
    exact ⟨_, _, rfl⟩

lemma consumes_deeper {α : Type} {P : α → Nat → Prop} {body : Nat → Act α} {left : Nat}
    (all : ∀ k < left, Consumes w rate debt (body k) P) : Consumes w rate debt (deeper left body) P := by
  cases left with
  | zero => exact consumes_fail _
  | succ left => exact all left (Nat.lt_succ_self left)

lemma consumes_each {body : UInt64 → Act Unit} {stride : UInt32} {least : Nat} (low : stride.toNat < 2 ^ 31)
    (all : ∀ base : UInt64, w.old ≤ base.toNat ∧ base.toNat + stride.toNat ≤ limit →
      Consumes w rate 0 (body base) fun _ n => least ≤ n) (count : Nat) (base : UInt64)
    (fresh : w.old ≤ base.toNat ∧ base.toNat + count * stride.toNat ≤ limit) :
    Consumes w rate 0 (each body stride count base) fun _ n => count * least ≤ n := by
  induction count generalizing base with
  | zero => exact consumes_end (by omega)
  | succ count ih =>
    rw [Nat.succ_mul] at fresh ⊢
    have limit : base.toNat + (count * stride.toNat + stride.toNat) < 2 ^ 32 := Nat.lt_succ_of_le fresh.2
    have next := @toNat_add_immWord base stride low (by omega)
    exact (all base ⟨fresh.1, by omega⟩).bind fun _ n one =>
      (ih _ ⟨by omega, by omega⟩).mono fun _ m others => by omega

end Act

lemma toNat_mul_immWord {count : UInt64} {stride : UInt32} (some_ : count ≠ 0)
    (small : count.toNat < 2 ^ 31) (fits : (count * immWord stride.toInt32).toNat ≤ limit) :
    stride.toNat < 2 ^ 31 ∧ (count * immWord stride.toInt32).toNat = count.toNat * stride.toNat := by
  have positive : 0 < count.toNat := Nat.pos_of_ne_zero fun zero => some_ (UInt64.toNat_inj.mp zero)
  have bound := stride.toNat_lt
  by_cases near : stride.toNat < 2 ^ 31
  · have product : count.toNat * stride.toNat < 2 ^ 64 :=
      lt_of_le_of_lt (Nat.mul_le_mul (le_of_lt small) (le_of_lt near)) (by decide)
    rw [immWord_of_lt near, UInt64.toNat_mul, UInt32.toNat_toUInt64, Nat.mod_eq_of_lt product]
    exact ⟨near, rfl⟩
  · -- A larger distance counts as negative, and the product is far above what can be allocated.
    exfalso
    obtain ⟨gap, eq⟩ : ∃ gap, stride.toNat + gap = 2 ^ 32 := ⟨2 ^ 32 - stride.toNat, by omega⟩
    have word : (immWord stride.toInt32).toNat = 2 ^ 64 - gap := by
      have msb : stride.toBitVec.msb = true := by
        rw [BitVec.msb_eq_decide, decide_eq_true_iff]
        exact Nat.not_lt.mp near
      change (stride.toBitVec.signExtend 64).toNat = _
      rw [BitVec.toNat_signExtend, msb, BitVec.toNat_setWidth]
      change stride.toNat % 2 ^ 64 + _ = _
      simp only [if_true]
      omega
    have product : count.toNat * gap ≤ 2 ^ 31 * 2 ^ 31 := Nat.mul_le_mul (by omega) (by omega)
    have least : 1 * 1 ≤ count.toNat * gap := Nat.mul_le_mul (by omega) (by omega)
    have wrapped : (count * immWord stride.toInt32).toNat = 2 ^ 64 - count.toNat * gap := by
      rw [UInt64.toNat_mul, word, Nat.mul_sub]
      have split : count.toNat * 2 ^ 64 - count.toNat * gap =
          2 ^ 64 - count.toNat * gap + (count.toNat - 1) * 2 ^ 64 := by
        rw [Nat.sub_mul]
        have := Nat.mul_le_mul_right (2 ^ 64) positive
        omega
      rw [split, Nat.add_mul_mod_self_right, Nat.mod_eq_of_lt (by omega)]
    rw [wrapped, limit] at fits
    omega

section Words

open Reading

variable {word : UInt64}

lemma toInt_widen_four (low : word.toNat < 2 ^ 32) : (Machine.widen .w4 true word).toInt64.toInt =
    if word.toNat < 2 ^ 31 then (word.toNat : Int) else word.toNat - 2 ^ 32 := by
  change ((word.toBitVec <<< 32).sshiftRight 32).toInt = _
  rw [BitVec.toInt_sshiftRight, Int.shiftRight_eq_div_pow, BitVec.toInt_eq_toNat_cond, BitVec.toNat_shiftLeft]
  change ((if 2 * (word.toNat <<< 32 % 2 ^ 64) < 2 ^ 64 then ((word.toNat <<< 32 % 2 ^ 64 : Nat) : Int)
    else (word.toNat <<< 32 % 2 ^ 64 : Nat) - (2 ^ 64 : Nat)) / _) = _
  rw [Nat.shiftLeft_eq, Nat.mod_eq_of_lt (by omega)]
  by_cases positive : word.toNat < 2 ^ 31
  · rw [if_pos (by omega), if_pos positive]
    omega
  · rw [if_neg (by omega), if_neg positive]
    omega

lemma toInt_toInt64 (low : word.toNat < 2 ^ 63) : word.toInt64.toInt = word.toNat := by
  change word.toBitVec.toInt = _
  rw [BitVec.toInt_eq_toNat_cond]
  change (if 2 * word.toNat < 2 ^ 64 then (word.toNat : Int) else _) = _
  rw [if_pos (by omega)]

lemma widen_four_of_lt (low : word.toNat < 2 ^ 31) : Machine.widen .w4 true word = word := by
  suffices same : (Machine.widen .w4 true word).toInt64 = word.toInt64 from congrArg Int64.toUInt64 same
  apply Int64.toInt_inj.mp
  rw [toInt_widen_four (by omega), if_pos low, toInt_toInt64 (by omega)]

lemma isNegative_widen_four (low : word.toNat < 2 ^ 32) :
    isNegative (Machine.widen .w4 true word) = false ↔ word.toNat < 2 ^ 31 := by
  simp only [isNegative, Int64.lt_iff_toInt_lt, toInt_widen_four low, decide_eq_false_iff_not]
  change ¬ _ < (0 : Int) ↔ _
  split <;> omega

lemma toNat_lt_of_not_isNegative {n : Nat} (is : Act.IsWord .w4 true word n) (nonneg : ¬ isNegative word = true) :
    word.toNat < 2 ^ 31 := by
  obtain ⟨four, data, length, rfl⟩ := is
  have length : data.length = 4 := length.trans four
  have low : (beWord data).toNat < 2 ^ 32 := by
    rw [toNat_beWord (by omega)]
    have := beNat_lt data
    rwa [length] at this
  rw [Bool.not_eq_true] at nonneg
  have short := (isNegative_widen_four low).mp nonneg
  rwa [widen_four_of_lt short]

end Words

lemma Kind.minWireSize_le (kind : Kind) : kind.minWireSize.toNat ≤ 8 := by
  cases kind <;> decide

/-- No type takes more than `unit` bytes of memory at a time, and neither does an entry of a map. -/
structure Registry.Spans (known : Registry) (unit : Nat) : Prop where
  size : ∀ t, known.Has t → t.size.toNat + 15 ≤ unit
  stride : ∀ t key elem layout, known.Has t → known.IsMap t key elem layout → layout.stride.toNat + 7 ≤ unit

namespace Reading

open Act

variable {known : Registry} {nested : Spots Visit} {w : Window} {frames left rate unit : Nat} {t : TypeDesc}
  {base : UInt64} {off : UInt32} {e : Entry}

lemma toNat_minSize (e : Entry) : e.minSize.toNat = e.elem.kind.minWireSize.toNat +
    (match e.key with | some key => key.kind.minWireSize.toNat | none => 0) := by
  have elem := Kind.minWireSize_le e.elem.kind
  unfold Entry.minSize
  rw [UInt32.toNat_add]
  cases e.key with
  | none =>
    change (e.elem.kind.minWireSize.toNat + 0) % _ = _ + 0
    omega
  | some key =>
    have := Kind.minWireSize_le key.kind
    simp only
    omega

lemma minSize_le (e : Entry) : e.minSize.toNat ≤ 16 := by
  have elem := Kind.minWireSize_le e.elem.kind
  rw [toNat_minSize]
  cases e.key with
  | none =>
    simp only
    omega
  | some key =>
    have := Kind.minWireSize_le key.kind
    simp only
    omega

lemma minSize_pos (e : Entry) : 0 < e.minSize.toNat := by
  rw [toNat_minSize]
  exact Nat.add_pos_left (by cases e.elem.kind <;> decide) _

lemma minSize_lt (e : Entry) : e.minSize.toNat < 2 ^ 31 := lt_of_le_of_lt (minSize_le e) (by decide)

lemma consumes_blob (grants : w.Grants base off 8) (enough : 8 ≤ rate) :
    Consumes w rate 0 (blob base off) fun _ n => 4 ≤ n := by
  obtain ⟨rate, rfl⟩ : ∃ k, rate = k + 1 + 7 := ⟨rate - 8, by omega⟩
  have whole : Consumes w (rate + 1) 7 (blob base off) fun _ n => 4 ≤ n := by
    refine (consumes_read .w4 true).bind fun len n ⟨four, _⟩ => consumes_ite (fun _ => consumes_fail _) fun _ => ?_
    have fill : Consumes w rate (len.toNat + 7) (do
        let data ← alloc len
        storePtr data base off
        store .w4 len base (off + 4)
        copyIn eof data len) fun _ n => n = len.toNat :=
      consumes_alloc_bind (fun _ => le_rfl) fun data fresh => by
        obtain ⟨first, second⟩ := grants.header fresh.1 false
        exact (consumes_storePtr first _).after fun _ _ => (consumes_store second _).after fun _ _ =>
          consumes_copyIn fresh.1 len
    exact (fill.need (fun _ _ => ge_of_eq) (by omega)).mono fun _ m _ => le_trans (le_of_eq four.symm) (Nat.le_add_right n m)
  exact whole.pay (fun _ n => Nat.lt_of_lt_of_le (by decide)) le_rfl

lemma consumes_containerHead (e : Entry) : Consumes w rate 0 (containerHead e) fun head n =>
    n = e.headerSize.toNat ∧ head.count.toNat < 2 ^ 31 := by
  have key : Consumes w rate 0 (keyTag e) fun _ n => n + 5 = e.headerSize.toNat := by
    unfold keyTag Entry.headerSize
    split
    · exact (consumes_read .w1 false).mono fun _ n ⟨one, _⟩ => by rw [one]; rfl
    · exact consumes_end rfl
  have rest : Consumes w rate 0 (do
      let keyTag ← keyTag e
      let elemTag ← read eof .w1 false
      let count ← read eof .w4 true
      if isNegative count then fail .invalidLength else return (⟨keyTag, elemTag, count⟩ : Head)) fun head n =>
        n = e.headerSize.toNat ∧ head.count.toNat < 2 ^ 31 :=
    key.bind fun _ a keyed => (consumes_read .w1 false).bind fun _ b one => (consumes_read .w4 true).bind
      fun count n word => consumes_ite (fun _ => consumes_fail _) fun nonneg =>
        consumes_end ⟨by rw [← keyed, one.1, word.1]; rfl, toNat_lt_of_not_isNegative word nonneg⟩
  exact rest.ask fun _ n ⟨same, _⟩ => le_of_eq (by rw [same, UInt32.toNat_toUInt64])

lemma consumes_checkTags (e : Entry) (head : Head) : Consumes w rate 0 (checkTags e head) (Still fun _ => True) := by
  refine consumes_ite (fun _ => consumes_pure trivial) fun _ => consumes_ite (fun _ => consumes_fail _) fun _ => ?_
  cases e.key with
  | none => exact consumes_pure trivial
  | some key => exact consumes_ite (fun _ => consumes_fail _) fun _ => consumes_pure trivial

/-- The memory for the entries is paid for by the bytes that were asked for, of which each entry takes one at least. -/
lemma consumes_container {isSet loose : Bool} {entry : Nat → UInt64 → Act Unit} (grants : w.Grants base off 8)
    (stride : e.stride.toNat + 7 ≤ unit)
    (all : ∀ k, k < left ∨ e.isSimple = true ∧ k = left → e.stride.toNat < 2 ^ 31 → ∀ base : UInt64,
      w.old ≤ base.toNat ∧ base.toNat + e.stride.toNat ≤ limit →
        Consumes w rate 0 (entry k base) fun _ n => e.minSize.toNat ≤ n) :
    Consumes w (rate + unit) 0 (container known isSet e loose left base off entry)
      fun _ n => e.headerSize.toNat ≤ n := by
  have whole : Consumes w (rate + e.stride.toNat) 7 (container known isSet e loose left base off entry)
      fun _ n => e.headerSize.toNat ≤ n := by
    simp only [container, makeRoom, bind_assoc, pure_bind]
    refine (consumes_containerHead e).bind fun head n ⟨headed, few⟩ => (consumes_checkTags e head).after fun _ _ => ?_
    have fill : Consumes w rate (head.count.toNat * e.stride.toNat + 7) (do
        let data ← alloc (head.count * immWord e.stride.toInt32)
        storePtr data (if loose then data else base) off
        store .w4 head.count (if loose then data else base) (off + 4)
        if head.count = 0 then pure () else do
          entryLoop e left head.count data entry
          if isSet then distinct known e.elem data head.count else pure ())
        fun _ n => head.count.toNat * e.minSize.toNat ≤ n := by
      refine consumes_alloc_bind (fun fits => ?_) fun data fresh => ?_
      · by_cases none_ : head.count = 0
        · simp [none_]
        · rw [(toNat_mul_immWord none_ few fits).2]
      · obtain ⟨first, second⟩ := grants.header fresh.1 loose
        refine (consumes_storePtr first _).after fun _ _ => (consumes_store second _).after fun _ _ =>
          consumes_ite (fun none_ => consumes_end (by simp [none_])) fun some_ => ?_
        obtain ⟨near, product⟩ := toNat_mul_immWord some_ few (le_trans (Nat.le_add_left _ _) fresh.2)
        rw [product] at fresh
        have loop : Consumes w rate 0 (entryLoop e left head.count data entry)
            fun _ n => head.count.toNat * e.minSize.toNat ≤ n :=
          consumes_ite (fun simple => consumes_each near (all left (.inr ⟨simple, rfl⟩) near) _ _ fresh) fun _ =>
            consumes_deeper fun k low => consumes_each near (all k (.inl low) near) _ _ fresh
        have checked : Consumes w rate 0 (if isSet then distinct known e.elem data head.count else pure ())
            (Still fun _ => True) := consumes_ite (fun _ => consumes_distinct _ _ _ _) fun _ => consumes_pure trivial
        exact loop.bind fun _ n long => checked.mono fun _ m _ => le_trans long (Nat.le_add_right n m)
    have asked : (head.count * immWord e.minSize.toInt32).toNat = head.count.toNat * e.minSize.toNat := by
      have product := Nat.mul_le_mul (le_of_lt few) (minSize_le e)
      rw [immWord_of_lt (minSize_lt e), UInt64.toNat_mul, UInt32.toNat_toUInt64, Nat.mod_eq_of_lt (by omega)]
    have paid : head.count.toNat * e.stride.toNat + 7 ≤
        e.stride.toNat * (head.count * immWord e.minSize.toInt32).toNat + 7 := by
      rw [asked, Nat.mul_comm]
      exact Nat.add_le_add_right (Nat.mul_le_mul_left _ (Nat.le_mul_of_pos_right _ (minSize_pos e))) 7
    exact (fill.need (fun _ _ => le_trans (le_of_eq asked)) paid).mono fun _ m _ =>
      le_trans (le_of_eq headed.symm) (Nat.le_add_right n m)
  obtain ⟨price, rfl⟩ : ∃ price, unit = e.stride.toNat + price := ⟨unit - e.stride.toNat, by omega⟩
  rw [← Nat.add_assoc]
  refine whole.pay (fun _ n => Nat.lt_of_lt_of_le ?_) (by omega)
  unfold Entry.headerSize
  split <;> decide

lemma consumes_simple (shaped : t.Shaped) (simple : isSimple t = true) (enough : 8 ≤ rate)
    (grants : w.Grants base off t.size.toNat) (loose : Bool) (left : Nat) :
    Consumes w rate 0 (value known nested t loose left base off) fun _ n => t.kind.minWireSize.toNat ≤ n := by
  simp only [isSimple, Bool.or_eq_true, decide_eq_true_eq, or_assoc] at simple
  rcases simple with isScalar | kind
  · rw [value_scalar _ _ _ _ isScalar, shaped.minWireSize isScalar, ← Writing.bytes_width shaped isScalar]
    rw [← Writing.bytes_width shaped isScalar] at grants
    exact (consumes_read _ _).bind fun _ n ⟨wide, _⟩ => (consumes_store grants.owns _).mono fun _ m _ =>
      le_trans (le_of_eq wide.symm) (Nat.le_add_right n m)
  · rw [shaped.size_header (Kind.hasHeader_of_blob kind)] at grants
    have least : t.kind.minWireSize.toNat = 4 := by rcases kind with kind | kind <;> rw [kind] <;> rfl
    rw [value_blob _ _ _ _ kind, least]
    exact consumes_blob grants enough

lemma consumes_entry (sound : known.Sound) {key elem : TypeDesc} {layout : TypeDesc.EntryLayout}
    (is : known.IsMap t key elem layout) {x y : Act Unit}
    (keyed : Consumes w rate 0 x fun _ n => key.kind.minWireSize.toNat ≤ n)
    (valued : Consumes w rate 0 y fun _ n => elem.kind.minWireSize.toNat ≤ n) : Consumes w rate 0 (do
      entryRoom key elem
      x
      y) fun _ n => (Entry.mk (some key) elem layout.valueOffset layout.stride).minSize.toNat ≤ n := by
  have both : Consumes w rate 0 (x >>= fun _ => y)
      fun _ n => elem.kind.minWireSize.toNat + key.kind.minWireSize.toNat ≤ n :=
    keyed.bind fun _ n first => valued.mono fun _ m second => by omega
  rw [toNat_minSize]
  unfold entryRoom
  split
  · rename_i joined
    refine both.ask fun _ n long => le_trans ?_ long
    simp only [isJoined, Bool.and_eq_true] at joined
    have shaped := sound.shaped key is.hasKey
    have narrow : (Writing.width key).bytes.toUInt32.toNat = (Writing.width key).bytes := by
      cases Writing.width key <;> rfl
    rw [UInt32.toNat_toUInt64, UInt32.toNat_add, narrow, shaped.minWireSize joined.1, Nat.add_comm,
      Writing.bytes_width shaped joined.1]
    exact Nat.mod_le _ _
  · exact both

section Records

variable (sound : known.Sound) (spans : known.Spans unit)
  (inner : ∀ way, ∀ k < frames, ∀ record base, known.Target record → w.Takes base record → ∀ rate, k * unit + 8 ≤ rate →
    Consumes w rate 0 (nested way k record base) fun _ n => 1 ≤ n)
include sound spans inner

lemma consumes_value (t : TypeDesc) (has : known.Has t) (loose : Bool) (low : left < frames)
    (enough : (left + 1) * unit + 8 ≤ rate) (base : UInt64) (off : UInt32) (grants : w.Grants base off t.size.toNat) :
    Consumes w rate 0 (value known nested t loose left base off) fun _ n => t.kind.minWireSize.toNat ≤ n := by
  have shaped := sound.shaped t has
  rw [Nat.succ_mul] at enough
  have deep : ∀ {rate left}, left * unit + unit + 8 ≤ rate + unit → ∀ k < left, k * unit + unit + 8 ≤ rate := by
    intro rate left enough k less
    have := Nat.mul_le_mul_right unit (Nat.succ_le_of_lt less)
    rw [Nat.succ_mul] at this
    omega
  induction t, has using sound.induction generalizing nested loose left base off rate with
  | scalar t has isScalar => exact consumes_simple shaped (by simp [isSimple, isScalar]) (by omega) grants _ _
  | blob t has kind =>
    exact consumes_simple shaped (by rcases kind with kind | kind <;> simp [isSimple, kind]) (by omega) grants _ _
  | sequence t has elem is ih =>
    have size := spans.size elem is.hasElem
    have shapedElem := sound.shaped elem is.hasElem
    obtain ⟨rate, rfl⟩ : ∃ k, rate = k + unit := ⟨rate - unit, by omega⟩
    rw [shaped.size_header is.hasHeader] at grants
    rw [value_sequence _ _ _ _ is]
    have least : t.kind.minWireSize = (Entry.ofList elem).headerSize := by
      rcases is.kind with kind | kind <;> rw [kind] <;> rfl
    have size' : (Entry.ofList elem).minSize.toNat = elem.kind.minWireSize.toNat := toNat_minSize _
    rw [least]
    refine consumes_container grants (show elem.size.toNat + 7 ≤ unit by omega) fun k within near base fresh => ?_
    rw [size']
    have slot : w.Grants base 0 elem.size.toNat := Window.grants_fresh fresh (Nat.zero_le _) (by decide) _
    rcases within with less | ⟨simple, rfl⟩
    · exact ih (fun way => inner (0 :: way)) true (Nat.lt_trans less low) (deep enough k less) base 0 slot shapedElem
    · simp only [Entry.isSimple, Entry.ofList, Bool.and_true] at simple
      exact consumes_simple shapedElem simple (by omega) slot _ _
  | map t has key elem layout is ihKey ihElem =>
    have shapedKey := sound.shaped key is.hasKey
    have shapedElem := sound.shaped elem is.hasElem
    have bounds := TypeDesc.EntryLayout.bounds is.layout?
    have size := spans.stride t key elem layout has is
    obtain ⟨rate, rfl⟩ : ∃ k, rate = k + unit := ⟨rate - unit, by omega⟩
    rw [shaped.size_header is.hasHeader] at grants
    have least : t.kind.minWireSize = (Entry.mk (some key) elem layout.valueOffset layout.stride).headerSize := by
      rw [is.kind]
      rfl
    rw [value_map _ _ _ _ is, least]
    refine consumes_container grants size fun k within near base fresh => ?_
    simp only at near fresh
    have slotKey : w.Grants base 0 key.size.toNat := Window.grants_fresh fresh (Nat.zero_le _) (by decide) _
    have slot : w.Grants base layout.valueOffset elem.size.toNat := Window.grants_fresh fresh (by omega) (by omega) _
    refine consumes_entry sound is ?_ ?_
    all_goals rcases within with less | ⟨simple, rfl⟩
    · exact ihKey (fun way => inner (0 :: way)) true (Nat.lt_trans less low) (deep enough k less) base 0 slotKey shapedKey
    · simp only [Entry.isSimple, Bool.and_eq_true] at simple
      exact consumes_simple shapedKey simple.2 (by omega) slotKey _ _
    · exact ihElem (fun way => inner (1 :: way)) true (Nat.lt_trans less low) (deep enough k less) base _ slot shapedElem
    · simp only [Entry.isSimple, Bool.and_eq_true] at simple
      exact consumes_simple shapedElem simple.1 (by omega) slot _ _
  | cramped t has key elem is =>
    rw [value_cramped _ _ _ _ is]
    exact consumes_fail _
  | struct t has kind =>
    have self : t.recordType known = .ok t := Registry.recordType_struct kind
    rw [value_struct _ _ _ _ kind, Writing.nestedRecord, self, kind]
    exact inner [] left low _ _ ⟨t, has, self⟩ (grants.takes kind) _ (by omega)
  | pointer t has kind =>
    rw [shaped.size_pointer kind] at grants
    cases ok : t.recordType known with
    | error e =>
      rw [value_untargeted _ _ _ _ kind ok]
      exact consumes_fail _
    | ok record =>
      have target : known.Target record := ⟨t, has, ok⟩
      have size := spans.size record (target.has sound)
      obtain ⟨rate, rfl⟩ : ∃ k, rate = k + unit := ⟨rate - unit, by omega⟩
      rw [value_pointer _ _ _ _ kind ok, kind]
      have whole : Consumes w rate unit (do
          let data ← alloc record.size.toUInt64
          storePtr data base off
          nested [] left record data) fun _ n => 1 ≤ n :=
        consumes_alloc_bind (fun _ => by rw [UInt32.toNat_toUInt64]; omega) fun data fresh =>
          (consumes_storePtr grants.owns _).after fun _ _ =>
            inner [] left low record data target (Window.takes_fresh fresh record) rate (by omega)
      exact whole.pay (fun _ _ => id) le_rfl

lemma consumes_field (low : left < frames) (enough : (left + 1) * unit + 8 ≤ rate) {f : FieldDesc}
    (has : known.Has f.type) (grants : w.Grants base f.offset f.slotSize.toNat) :
    Consumes w rate 0 (field known nested left base f) fun _ _ => True := by
  unfold Field.slotSize at grants
  refine consumes_ite (fun boxed => ?_) fun unboxed => ?_
  · rw [if_pos boxed] at grants
    have size := spans.size _ has
    rw [Nat.succ_mul] at enough
    obtain ⟨rate, rfl⟩ : ∃ k, rate = k + 15 := ⟨rate - 15, by omega⟩
    have whole : Consumes w rate 15 (do
        let cell ← alloc boxSize.toUInt64
        storePtr cell base f.offset
        let word ← read eof (Writing.width f.type) false
        store (Writing.width f.type) word cell 0) fun _ n => (Writing.width f.type).bytes ≤ n :=
      consumes_alloc_bind (fun _ => le_rfl) fun cell fresh => (consumes_storePtr grants.owns _).after fun _ _ =>
        (consumes_read _ _).bind fun word n ⟨wide, _⟩ =>
          (consumes_store (.inl (le_trans fresh.1 (Nat.le_add_right _ _))) _).mono fun _ m _ =>
            le_trans (le_of_eq wide.symm) (Nat.le_add_right n m)
    exact (whole.pay (fun _ n => Nat.lt_of_lt_of_le (by cases Writing.width f.type <;> decide)) le_rfl).mono
      fun _ _ _ => trivial
  · rw [if_neg unboxed] at grants
    exact (consumes_value sound spans inner _ has _ low enough _ _ grants).mono fun _ _ _ => trivial

end Records

/-- One field on the wire, or the stop mark. Answers the fields met, unless all is done. -/
def occurrence (known : Registry) (nested : Spots Visit)
    (fields : List FieldDesc) (left : Nat) (base : UInt64) (seen : List Nat) : Act (Option (List Nat)) := do
  let tag ← read eof .w1 false
  if tag = 0 then
    if hasRequired fields seen then pure none else fail .missingRequiredField
  else do
    let id ← read eof .w2 true
    match fieldFor? fields id tag with
    | some (index, f) =>
      if seen.contains index then fail .duplicateField
      else do
        field known (nested.part index) left base f
        pure (some (index :: seen))
    | none => do
      pass left tag
      pure (some seen)

lemma occurrences_succ (fields : List FieldDesc) (left : Nat) (base : UInt64) (count : Nat)
    (seen : List Nat) : occurrences known nested fields left base (count + 1) seen = (do
      match ← occurrence known nested fields left base seen with
      | none => pure ()
      | some seen => occurrences known nested fields left base count seen) := by
  rw [occurrences, occurrence, bind_assoc]
  congr 1
  funext tag
  by_cases stop : tag = 0
  · simp only [if_pos stop]
    split <;> rfl
  · simp only [if_neg stop, bind_assoc]
    congr 1
    funext id
    cases fieldFor? fields id tag with
    | none =>
      simp only [bind_assoc]
      rfl
    | some entry =>
      simp only
      split
      · rfl
      · rw [bind_assoc]
        rfl

section Occurrences

variable {fields : List FieldDesc}
  (all : ∀ index f, fields[index]? = some f → Consumes w rate 0 (field known (nested.part index) left base f)
    fun _ _ => True)
include all

lemma consumes_occurrence (seen : List Nat) :
    Consumes w rate 0 (occurrence known nested fields left base seen) fun _ n => 1 ≤ n := by
  refine (consumes_read .w1 false).bind fun tag one ⟨isOne, _⟩ => ?_
  have some_ : ∀ m, 1 ≤ one + m := fun m => le_trans (le_of_eq isOne.symm) (Nat.le_add_right _ _)
  refine consumes_ite (fun _ => consumes_ite (fun _ => consumes_end (some_ _)) fun _ => consumes_fail _) fun _ => ?_
  refine (consumes_read .w2 true).bind fun id two _ => ?_
  cases found : fieldFor? fields id tag with
  | none => exact (consumes_pass _ _).bind fun _ _ _ => consumes_end (some_ _)
  | some entry =>
    exact consumes_ite (fun _ => consumes_fail _) fun _ =>
      (all entry.1 entry.2 (mem_of_fieldFor? found).1).bind fun _ _ _ => consumes_end (some_ _)

/-- The count of fields that may come does not matter, as long as the bytes end first. -/
lemma consumes_occurrences (count : Nat) (seen : List Nat) (c : Scene) (small : c.wire.size < 2 ^ 64)
    (inside : c.pos.toNat ≤ c.wire.size) (guards : w.Guards c) :
    Ends (occurrences known nested fields left base count seen) c (fun _ c' => ∃ bytes : List UInt8, 1 ≤ bytes.length ∧
      Took w rate 0 c c' bytes ∧ ∀ wire pos count', wire.size < 2 ^ 64 → pos.toNat ≤ wire.size →
        wire.size < pos.toNat + count' → Repeats (occurrences known nested fields left base count' seen) c () c' bytes wire pos)
      fun _ c' => Lost w rate 0 c c' := by
  induction count generalizing seen c with
  | zero => exact lost_at guards
  | succ count ih =>
    rw [occurrences_succ]
    refine (consumes_occurrence all seen c small inside guards).bind fun next mid ⟨bytes, some_, took, repeats⟩ => ?_
    cases next with
    | none =>
      refine ⟨bytes, some_, took, fun wire pos count' small' inside' enough => ?_⟩
      obtain ⟨k, rfl⟩ : ∃ k, count' = k + 1 := ⟨count' - 1, by omega⟩
      rw [occurrences_succ, ← List.append_nil bytes]
      refine (repeats wire pos small' inside').bind small' fun reached => ⟨fun _ => ?_, fun _ short => ?_⟩
      · exact congrArg (fun p => EStateM.Result.ok () (mid.on wire p)) (UInt64.add_zero _).symm
      · rw [toNat_advance small' reached] at short
        exact absurd short (Nat.not_lt.mpr reached)
    | some seen' =>
      refine (ih seen' mid (took.wire ▸ small) (took.inside small) took.guards).imp
        (fun _ c' ⟨more, _, took', repeats'⟩ => ?_) fun _ _ => took.lost small
      refine ⟨_, le_trans some_ (by simp), took.trans small took', fun wire pos count' small' inside' enough => ?_⟩
      obtain ⟨k, rfl⟩ : ∃ k, count' = k + 1 := ⟨count' - 1, by omega⟩
      rw [occurrences_succ]
      refine (repeats wire pos small' inside').bind small' fun reached => ?_
      have place := toNat_advance small' reached
      exact repeats' wire _ k small' (by rwa [place]) (by omega)

end Occurrences

lemma consumes_storeDefaults (shaped : t.Shaped) (shapes : ∀ f ∈ t.fields, f.type.Shaped)
    (owns : w.Owns base.toNat t.size.toNat) (fields : List FieldDesc) (sub : ∀ f ∈ fields, f ∈ t.fields) :
    Consumes w rate 0 (storeDefaults base fields) (Still fun _ => True) := by
  induction fields with
  | nil => exact consumes_pure trivial
  | cons f rest ih =>
    have mem := sub f List.mem_cons_self
    suffices one : Consumes w rate 0 (storeDefault base f) (Still fun _ => True) from
      one.after fun _ _ => ih fun g mem => sub g (List.mem_cons_of_mem _ mem)
    unfold storeDefault
    cases given : f.default with
    | none => exact consumes_pure trivial
    | some default =>
      refine consumes_ite (fun _ => consumes_pure trivial) fun _ => ?_
      obtain ⟨_, sameKind⟩ := shaped.laidOut.defaults f mem default given
      have isScalar : f.type.kind.isScalar = true := by
        rw [← sameKind]
        cases default <;> rfl
      have inside := shaped.laidOut.inside f mem
      have slot : f.slotSize = f.type.size := by
        simp [Field.slotSize, Field.isBoxed, given]
      rw [slot, ← Writing.bytes_width (shapes f mem) isScalar] at inside
      exact consumes_store (owns.part (Nat.le_add_right _ _) (by omega)) _

lemma consumes_record (sound : known.Sound) (spans : known.Spans unit)
    (inner : ∀ way, ∀ k < frames, ∀ record base, known.Target record → w.Takes base record → ∀ rate, k * unit + 8 ≤ rate →
      Consumes w rate 0 (nested way k record base) fun _ n => 1 ≤ n)
    (sizes : w.old = 0 ∨ ∀ t, known.Has t → t.size.toNat < 2 ^ 31) (has : known.Has t)
    (near : w.old = 0 ∨ base.toNat ≤ 2 ^ 32) (owns : w.Owns base.toNat t.size.toNat) (le : left ≤ frames)
    (enough : left * unit + 8 ≤ rate) : Consumes w rate 0 (record known nested left t base) fun _ n => 1 ≤ n := by
  have cleared : Consumes w rate 0 (clear base t)
      (Still fun _ => w.old = 0 ∨ base.toNat + t.size.toNat ≤ 2 ^ 32) := by
    refine consumes_ite (fun none_ => consumes_pure (near.imp_right fun near => ?_)) fun _ =>
      (consumes_zero owns).mono fun _ _ ⟨none_, inside⟩ => ⟨none_, inside.imp_right fun inside => ?_⟩
    · rw [none_]
      exact near
    · unfold limit at inside
      omega
  refine cleared.after fun _ fits => (consumes_storeDefaults (sound.shaped t has)
    (fun f mem => sound.shaped _ (sound.field has mem)) owns _ fun _ mem => mem).after fun _ _ => ?_
  refine consumes_deeper fun k less c small inside guards => ?_
  have rates := Nat.mul_le_mul_right unit (show k + 1 ≤ left from less)
  refine (consumes_occurrences (fun index f at_ => ?_) (c.wire.size + 1) [] c small inside guards).imp
    (fun _ c' ⟨bytes, some_, took, repeats⟩ => ⟨bytes, some_, took, fun wire pos small' inside' =>
      have again := repeats wire pos (wire.size + 1) small' inside' (by omega)
      ⟨again.whole, again.cut⟩⟩) fun _ _ => id
  have mem := List.mem_of_getElem? at_
  have slot := (sound.shaped t has).laidOut.inside f mem
  refine consumes_field sound spans (fun way => inner (index :: way)) (by omega) (by omega) (sound.field has mem) ?_
  rcases fits with none_ | fits
  · exact .inl none_
  · refine sizes.imp_right fun sizes => ⟨?_, by omega, owns.part (Nat.le_add_right _ _) (by omega)⟩
    have := sizes t has
    omega

end Reading

section Visits

variable {known : Registry} {lost : TypeDesc → Prop} {frames left unit rate : Nat} {t : TypeDesc} {base : UInt64}
  {w : Window} (sound : known.Sound) (spans : known.Spans unit)
  (sizes : w.old = 0 ∨ ∀ t, known.Has t → t.size.toNat < 2 ^ 31) (has : known.Has t)
  (enough : left * unit + 8 ≤ rate)
include sound spans sizes has enough

/-- Reading what is in the place of a record is such an action. It pays `unit` for each frame that it may take. -/
lemma Visits.consumes {v : Nat → UInt64 → Act Unit} (visits : Visits known .decode lost frames t v)
    (low : left < frames) (takes : w.Takes base t) : Act.Consumes w rate 0 (v left base) fun _ n => 1 ≤ n := by
  induction visits generalizing left base rate with
  | spent => omega
  | record inner _ ih =>
    refine Reading.consumes_record sound spans (fun way k low record base target takes rate enough =>
      ih way record target (target.has sound) enough low takes) sizes has (takes.imp_right And.left) takes.owns
      (Nat.le_of_lt_succ low) enough
  | codec found isTarget _ ih =>
    refine ih (sound.recordType (sound.recordType has found) isTarget) enough low ?_
    rcases takes with none_ | ⟨near, fresh | ⟨kind, owns⟩⟩
    · exact .inl none_
    · exact .inr ⟨near, .inl fresh⟩
    · obtain rfl := Except.ok.inj ((Registry.recordType_struct kind).symm.trans found)
      obtain rfl := Except.ok.inj ((Registry.recordType_struct kind).symm.trans isTarget)
      exact .inr ⟨near, .inr ⟨kind, owns⟩⟩
  | stuck => exact fun _ _ _ guards => Act.lost_at guards

lemma Nests.consumes {nested : Spots Visit} (nests : Nests known .decode lost frames nested) (le : left ≤ frames)
    (near : w.old = 0 ∨ base.toNat ≤ 2 ^ 32) (owns : w.Owns base.toNat t.size.toNat) :
    Act.Consumes w rate 0 (Reading.record known nested left t base) fun _ n => 1 ≤ n :=
  Reading.consumes_record sound spans (fun way _ low record _ target takes _ enough =>
    (nests.inner way record target).consumes sound spans sizes (target.has sound) enough low takes) sizes has near owns
    le enough

end Visits

end WireCodec
