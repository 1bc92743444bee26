import Mathlib
import WireCodec.Text.Lossy

/-! Text that is read from bytes is not shorter than they are: a character takes as many bytes as it was read from,
and a replacement takes three, which is as much as can be replaced at once. The bytes of a text are read as that
text. -/
namespace WireCodec.Text

/-- The characters that can still come out of a character under way. -/
structure Lead.Leads (l : Lead) (n : Nat) : Prop where
  some_ : 0 < l.owed
  range : 0x80 ≤ l.low.toNat ∧ l.high.toNat ≤ 0xbf
  char : ∀ x, l.bits * 64 ^ l.owed + (l.low.toNat - 0x80) * 64 ^ (l.owed - 1) ≤ x →
    x < l.bits * 64 ^ l.owed + (l.high.toNat - 0x80 + 1) * 64 ^ (l.owed - 1) → n ≤ (Char.ofNat x).utf8Size

variable {x bits n : Nat} {low high : UInt8}

lemma utf8Size_ofNat (valid : x.isValidChar) : (Char.ofNat x).utf8Size =
    if x ≤ 0x7f then 1 else if x ≤ 0x7ff then 2 else if x ≤ 0xffff then 3 else 4 := by
  have val : (Char.ofNat x).val.toNat = x := by
    rw [Char.ofNat, dif_pos valid]
    rfl
  unfold Char.utf8Size
  simp only [UInt32.le_iff_toNat_le, val]
  rfl

lemma two_le (low : 0x80 ≤ x) (high : x < 0x800) : 2 ≤ (Char.ofNat x).utf8Size := by
  rw [utf8Size_ofNat (.inl (by omega)), if_neg (by omega), if_pos (by omega)]

lemma three_le (low : 0x800 ≤ x) (high : x < 0xd800 ∨ 0xdfff < x ∧ x < 0x10000) : 3 ≤ (Char.ofNat x).utf8Size := by
  have valid : x.isValidChar := by
    rcases high with high | high
    · exact .inl high
    · exact .inr ⟨high.1, by omega⟩
  rw [utf8Size_ofNat valid, if_neg (by omega), if_neg (by omega), if_pos (by omega)]

lemma four_le (low : 0x10000 ≤ x) (high : x < 0x110000) : 4 ≤ (Char.ofNat x).utf8Size := by
  rw [utf8Size_ofNat (.inr ⟨by omega, high⟩), if_neg (by omega), if_neg (by omega), if_neg (by omega)]

lemma leads_two (low : 2 ≤ bits) (high : bits < 32) : Lead.Leads ⟨1, 0x80, 0xbf, bits⟩ 2 := by
  refine ⟨Nat.one_pos, ⟨le_rfl, le_rfl⟩, fun x from_ up => two_le ?_ ?_⟩
  · have : bits * 64 ≤ x := by simpa using from_
    omega
  · have : x < bits * 64 + 64 := by simpa using up
    omega

lemma leads_three (range : 0x80 ≤ low.toNat ∧ high.toNat ≤ 0xbf) (least : 0x800 ≤ bits * 4096 + (low.toNat - 0x80) * 64)
    (most : bits * 4096 + (high.toNat - 0x80 + 1) * 64 ≤ 0xd800 ∨ 0xe000 ≤ bits * 4096 ∧ bits < 16) : Lead.Leads
    ⟨2, low, high, bits⟩ 3 := by
  refine ⟨Nat.two_pos, range, fun x from_ up => three_le ?_ ?_⟩
  · change bits * 4096 + (low.toNat - 0x80) * 64 ≤ x at from_
    omega
  · change bits * 4096 + (low.toNat - 0x80) * 64 ≤ x at from_
    change x < bits * 4096 + (high.toNat - 0x80 + 1) * 64 at up
    omega

lemma leads_four (range : 0x80 ≤ low.toNat ∧ high.toNat ≤ 0xbf)
    (least : 0x10000 ≤ bits * 262144 + (low.toNat - 0x80) * 4096)
    (most : bits * 262144 + (high.toNat - 0x80 + 1) * 4096 ≤ 0x110000) : Lead.Leads ⟨3, low, high, bits⟩ 4 := by
  refine ⟨Nat.succ_pos _, range, fun x from_ up => four_le ?_ ?_⟩
  · change bits * 262144 + (low.toNat - 0x80) * 4096 ≤ x at from_
    omega
  · change x < bits * 262144 + (high.toNat - 0x80 + 1) * 4096 at up
    omega

lemma lead?_leads {b : UInt8} {l : Lead} (found : lead? b = some l) :
    l.owed ≤ 3 ∧ (l.owed ≠ 0 → l.Leads (l.owed + 1)) := by
  unfold lead? at found
  simp only [UInt8.lt_iff_toNat_lt, ← UInt8.toNat_inj] at found
  split at found
  · cases found
    exact ⟨Nat.zero_le _, fun some_ => absurd rfl some_⟩
  · split at found
    · cases found
    · rename_i notLow
      change ¬ b.toNat < 194 at notLow
      split at found
      · rename_i high
        change b.toNat < 224 at high
        cases found
        exact ⟨by change 1 ≤ 3; decide, fun _ => leads_two (by omega) (by omega)⟩
      · rename_i notTwo
        change ¬ b.toNat < 224 at notTwo
        split at found
        · cases found
          exact ⟨by decide, fun _ => leads_three (by decide) (by decide) (by decide)⟩
        · rename_i notE0
          change ¬ b.toNat = 224 at notE0
          split at found
          · cases found
            exact ⟨by decide, fun _ => leads_three (by decide) (by decide) (by decide)⟩
          · rename_i notEd
            change ¬ b.toNat = 237 at notEd
            split at found
            · rename_i high
              change b.toNat < 240 at high
              cases found
              refine ⟨by change 2 ≤ 3; decide, fun _ => leads_three ⟨le_rfl, le_rfl⟩ ?_ ?_⟩
              · change 0x800 ≤ (b.toNat - 224) * 4096 + 0 * 64
                omega
              · change (b.toNat - 224) * 4096 + 64 * 64 ≤ _ ∨ _
                omega
            · rename_i notThree
              change ¬ b.toNat < 240 at notThree
              split at found
              · cases found
                exact ⟨by decide, fun _ => leads_four (by decide) (by decide) (by decide)⟩
              · rename_i notF0
                change ¬ b.toNat = 240 at notF0
                split at found
                · rename_i high
                  change b.toNat < 244 at high
                  cases found
                  refine ⟨by change 3 ≤ 3; decide, fun _ => leads_four ⟨le_rfl, le_rfl⟩ ?_ ?_⟩
                  · change 0x10000 ≤ (b.toNat - 240) * 262144 + 0 * 4096
                    omega
                  · change (b.toNat - 240) * 262144 + 64 * 4096 ≤ _
                    omega
                · split at found
                  · cases found
                    exact ⟨by decide, fun _ => leads_four (by decide) (by decide) (by decide)⟩
                  · cases found

lemma length_le_lossyFrom {data : List UInt8} : (data.length ≤ String.utf8Len (lossyFrom none data)) ∧
    ∀ (l : Lead) (n : Nat), n + l.owed ≤ 4 → l.Leads (n + l.owed) → n + data.length ≤ String.utf8Len (lossyFrom (some l) data) := by
  have three : replacement.utf8Size = 3 := by decide
  induction data with
  | nil =>
    refine ⟨Nat.zero_le _, fun l n low leads => ?_⟩
    have := leads.some_
    rw [lossyFrom, String.utf8Len_cons, three, List.length_nil]
    omega
  | cons b rest ih =>
    -- a byte that starts afresh
    have fresh : rest.length + 1 ≤ String.utf8Len (lossyFrom none (b :: rest)) := by
      rw [lossyFrom]
      cases found : lead? b with
      | none =>
        simp only
        rw [String.utf8Len_cons, three]
        have := ih.1
        omega
      | some l =>
        simp only
        obtain ⟨most, leads⟩ := lead?_leads found
        split
        · rw [String.utf8Len_cons]
          have := ih.1
          have := Char.utf8Size_pos (Char.ofNat l.bits)
          omega
        · rename_i some_
          have := ih.2 l 1 (by omega) (by rw [Nat.add_comm]; exact leads some_)
          omega
    refine ⟨fresh, fun l n low leads => ?_⟩
    have owed := leads.some_
    rw [lossyFrom, List.length_cons]
    split
    · rename_i inRange
      simp only [Bool.and_eq_true, decide_eq_true_eq, UInt8.le_iff_toNat_le] at inRange
      have range := leads.range
      simp only
      split
      · rename_i last
        have char := leads.char (l.bits * 64 + (b.toNat - 0x80))
          (by rw [last]; simp only [Nat.pow_one, Nat.sub_self, Nat.pow_zero, Nat.mul_one]; omega)
          (by rw [last]; simp only [Nat.pow_one, Nat.sub_self, Nat.pow_zero, Nat.mul_one]; omega)
        have := ih.1
        rw [String.utf8Len_cons]
        omega
      · rename_i more
        obtain ⟨k, is⟩ := Nat.exists_eq_add_of_le (show 2 ≤ l.owed by omega)
        -- what can still come out is among what could come out before
        have next : Lead.Leads ⟨l.owed - 1, 0x80, 0xbf, l.bits * 64 + (b.toNat - 0x80)⟩ (n + 1 + (l.owed - 1)) := by
          refine ⟨by change 0 < l.owed - 1; omega, ⟨le_rfl, le_rfl⟩, fun x from_ up => ?_⟩
          have whole : 64 ^ l.owed = 64 * 64 ^ (k + 1) := by
            rw [is, Nat.add_comm 2 k, Nat.pow_succ, Nat.mul_comm]
          have part : 64 ^ (l.owed - 1) = 64 ^ (k + 1) := congrArg _ (by omega)
          have inner : 64 ^ (l.owed - 1 - 1) * 64 = 64 ^ (k + 1) := by
            rw [← Nat.pow_succ]
            exact congrArg _ (by omega)
          simp only [part] at from_ up
          change _ + 0 * _ ≤ x at from_
          change x < _ + 64 * _ at up
          rw [Nat.mul_comm 64, inner] at up
          have least := Nat.mul_le_mul_right (64 ^ (k + 1)) (show l.low.toNat - 0x80 ≤ b.toNat - 0x80 by omega)
          have most := Nat.mul_le_mul_right (64 ^ (k + 1)) (show b.toNat - 0x80 + 1 ≤ l.high.toNat - 0x80 + 1 by omega)
          rw [Nat.add_mul, Nat.mul_assoc] at from_ up
          rw [Nat.add_mul _ 1, Nat.one_mul] at most
          have size : n + 1 + (l.owed - 1) = n + l.owed := by omega
          rw [size]
          refine leads.char x ?_ ?_
          · rw [whole, part]
            omega
          · rw [whole, part]
            omega
        have := ih.2 _ (n + 1) (by change n + 1 + (l.owed - 1) ≤ 4; omega) next
        omega
    · rw [lossyFrom] at fresh
      rw [String.utf8Len_cons, three]
      cases found : lead? b with
      | none | some =>
        simp only [found] at fresh ⊢
        omega

lemma length_le_lossy (data : List UInt8) : data.length ≤ (lossy data).utf8ByteSize := by
  rw [lossy, String.utf8ByteSize_ofList]
  exact length_le_lossyFrom.1

/-! Reading the bytes of a text. -/

lemma toNat_ofNat (low : n < 256) : (UInt8.ofNat n).toNat = n := by
  rw [UInt8.toNat_ofNat', Nat.mod_eq_of_lt low]

lemma lossyFrom_continue {owed : Nat} (rest : List UInt8) (small : n < 64)
    (range : low.toNat ≤ n + 128 ∧ n + 128 ≤ high.toNat) :
    lossyFrom (some ⟨owed, low, high, bits⟩) (UInt8.ofNat (n + 128) :: rest) =
      if owed = 1 then Char.ofNat (bits * 64 + n) :: lossyFrom none rest
      else lossyFrom (some ⟨owed - 1, 0x80, 0xbf, bits * 64 + n⟩) rest := by
  have byte : (UInt8.ofNat (n + 128)).toNat = n + 128 := toNat_ofNat (by omega)
  have inRange : (low ≤ UInt8.ofNat (n + 128) && UInt8.ofNat (n + 128) ≤ high) = true := by
    simp only [Bool.and_eq_true, decide_eq_true_eq, UInt8.le_iff_toNat_le, byte]
    exact range
  rw [lossyFrom, if_pos inRange, byte, Nat.add_sub_cancel]

lemma lead?_two : ∀ k < 32, 2 ≤ k → lead? (UInt8.ofNat (k + 192)) = some ⟨1, 0x80, 0xbf, k⟩ := by
  decide

lemma lead?_three : ∀ k < 16, lead? (UInt8.ofNat (k + 224)) =
    some ⟨2, if k = 0 then 0xa0 else 0x80, if k = 13 then 0x9f else 0xbf, k⟩ := by
  decide

lemma lead?_four : ∀ k < 5, lead? (UInt8.ofNat (k + 240)) =
    some ⟨3, if k = 0 then 0x90 else 0x80, if k = 4 then 0x8f else 0xbf, k⟩ := by
  decide

lemma lossyFrom_char (c : Char) (rest : List UInt8) :
    lossyFrom none (String.utf8EncodeChar c ++ rest) = c :: lossyFrom none rest := by
  have valid : c.val.toNat < 0xd800 ∨ 0xdfff < c.val.toNat ∧ c.val.toNat < 0x110000 := c.valid
  have char : ∀ {x : Nat}, x = c.val.toNat → Char.ofNat x = c := fun is => is ▸ Char.ofNat_toNat c
  have later : ∀ {n : Nat}, n < 64 → (0x80 : UInt8).toNat ≤ n + 128 ∧ n + 128 ≤ (0xbf : UInt8).toNat := by
    intro n small
    change 128 ≤ n + 128 ∧ n + 128 ≤ 191
    omega
  unfold String.utf8EncodeChar
  dsimp only
  generalize c.val.toNat = v at valid char ⊢
  split
  · rename_i one
    have byte : (UInt8.ofNat v).toNat = v := toNat_ofNat (by omega)
    have found : lead? (UInt8.ofNat v) = some ⟨0, 0, 0, v⟩ := by
      rw [lead?, if_pos (UInt8.lt_iff_toNat_lt.mpr (by rw [byte]; exact Nat.lt_succ_of_le one)), byte]
    rw [List.singleton_append, lossyFrom, found]
    simp only [if_true, char rfl]
  · split
    · rw [List.cons_append, lossyFrom, lead?_two _ (by omega) (by omega)]
      change lossyFrom _ (_ :: rest) = _
      rw [lossyFrom_continue rest (by omega) (later (by omega)), if_pos rfl, char (by omega)]
    · split
      · rw [List.cons_append, lossyFrom, lead?_three _ (by omega)]
        change lossyFrom _ (_ :: _ :: rest) = _
        rw [lossyFrom_continue _ (by omega) ?_, if_neg (by decide), lossyFrom_continue rest (by omega) (later (by omega)),
          if_pos rfl, char (by omega)]
        · constructor
          · split
            · change 160 ≤ _
              omega
            · change 128 ≤ _
              omega
          · split
            · change _ ≤ 159
              omega
            · change _ ≤ 191
              omega
      · rw [List.cons_append, lossyFrom, lead?_four _ (by omega)]
        change lossyFrom _ (_ :: _ :: _ :: rest) = _
        rw [lossyFrom_continue _ (by omega) ?_, if_neg (by decide), lossyFrom_continue _ (by omega) (later (by omega)),
          if_neg (by decide), lossyFrom_continue rest (by omega) (later (by omega)), if_pos rfl, char (by omega)]
        · constructor
          · split
            · change 144 ≤ _
              omega
            · change 128 ≤ _
              omega
          · split
            · change _ ≤ 143
              omega
            · change _ ≤ 191
              omega

lemma toList_loop (bytes : ByteArray) (i : Nat) (acc : List UInt8) :
    ByteArray.toList.loop bytes i acc = acc.reverse ++ bytes.data.toList.drop i := by
  fun_induction ByteArray.toList.loop bytes i acc with
  | case1 i acc low ih =>
    have low : i < bytes.data.size := low
    have at_ : bytes.get! i = bytes.data.toList[i] := getElem!_pos bytes.data i low
    rw [ih, List.drop_eq_getElem_cons low, at_, List.reverse_cons, List.append_assoc]
    rfl
  | case2 i acc high =>
    rw [List.drop_eq_nil_of_le (Nat.le_of_not_lt high), List.append_nil]

/-- The bytes of a text are read as that text. -/
lemma lossy_toUTF8 (s : String) : lossy s.toUTF8.toList = s := by
  have bytes : s.toUTF8.toList = s.toList.flatMap String.utf8EncodeChar := by
    rw [ByteArray.toList, toList_loop, String.toUTF8, ← String.utf8Encode_toList, List.utf8Encode,
      List.toList_data_toByteArray]
    rfl
  have chars : ∀ cs : List Char, lossyFrom none (cs.flatMap String.utf8EncodeChar) = cs := by
    intro cs
    induction cs with
    | nil => rfl
    | cons c cs ih => rw [List.flatMap_cons, lossyFrom_char, ih]
  rw [lossy, bytes, chars, String.ofList_toList]

end WireCodec.Text
