import WireCodec.Proofs.Codec.Records
import WireCodec.Proofs.Lowering.DecodeDoes

/-! Selecting the code of a field by its number, with a table or by comparing one after the
other: both lead to the same place. -/
namespace WireCodec

open Machine Lowering List

variable {fields : List FieldDesc} {arms : List Nat} {unknown : Nat}

def armOf (fields : List FieldDesc) (arms : List Nat) (unknown : Nat) (id : UInt64) : Nat :=
  match (fields.zip arms).find? fun entry => entry.1.id.toUInt64 = id with
  | some entry => entry.2
  | none => unknown

lemma armOf_cases (same : arms.length = fields.length) (id : UInt64) :
    (fields.findIdx? (fun f => f.id.toUInt64 = id) = none ∧ armOf fields arms unknown id = unknown) ∨
    ∃ index f, fields.findIdx? (fun f => f.id.toUInt64 = id) = some index ∧
      fields[index]? = some f ∧ arms[index]? = some (armOf fields arms unknown id) := by
  induction fields generalizing arms with
  | nil => exact .inl ⟨rfl, rfl⟩
  | cons f rest ih =>
    cases arms with
    | nil => cases same
    | cons arm arms =>
      by_cases here : f.id.toUInt64 = id
      · refine .inr ⟨0, f, ?_, rfl, ?_⟩
        · simp [findIdx?_cons, here]
        · simp [armOf, here]
      · have later : armOf (f :: rest) (arm :: arms) unknown id = armOf rest arms unknown id := by
          simp [armOf, here]
        rw [later]
        rcases ih (by simpa using same) with ⟨none, there⟩ | ⟨index, g, some, at_, there⟩
        · exact .inl ⟨by simp [findIdx?_cons, here, none], there⟩
        · exact .inr ⟨index + 1, g, by simp [findIdx?_cons, here, some], at_, there⟩

lemma idRange?_spec {low high : Nat} (range : idRange? fields = some (low, high)) :
    (∀ f ∈ fields, low ≤ f.id.toNat ∧ f.id.toNat ≤ high) ∧
      (∃ f ∈ fields, f.id.toNat = low) ∧ ∃ f ∈ fields, f.id.toNat = high := by
  induction fields generalizing low high with
  | nil => cases range
  | cons f rest ih =>
    unfold idRange? at range
    cases tail : idRange? rest with
    | none =>
      rw [tail] at range
      cases range
      have empty : rest = [] := by
        cases rest with
        | nil => rfl
        | cons g more =>
          unfold idRange? at tail
          split at tail <;> cases tail
      subst empty
      simp
    | some range' =>
      obtain ⟨low', high'⟩ := range'
      rw [tail] at range
      cases range
      obtain ⟨inside, ⟨g, memLow, atLow⟩, ⟨h, memHigh, atHigh⟩⟩ := ih tail
      refine ⟨?_, ?_, ?_⟩
      · intro g mem
        rcases List.mem_cons.mp mem with rfl | mem
        · omega
        · have := inside g mem
          omega
      · by_cases first : f.id.toNat ≤ low'
        · exact ⟨f, mem_cons_self, by omega⟩
        · exact ⟨g, mem_cons_of_mem _ memLow, by omega⟩
      · by_cases first : high' ≤ f.id.toNat
        · exact ⟨f, mem_cons_self, by omega⟩
        · exact ⟨h, mem_cons_of_mem _ memHigh, by omega⟩

lemma find?_reverse_of_unique {α : Type} {l : List α} {p : α → Bool}
    (unique : ∀ a ∈ l, ∀ b ∈ l, p a = true → p b = true → a = b) : l.reverse.find? p = l.find? p := by
  cases found : l.find? p with
  | none =>
    rw [find?_eq_none] at found ⊢
    exact fun a mem => found a (List.mem_reverse.mp mem)
  | some a =>
    have holds := find?_some found
    have listed := mem_of_find?_eq_some found
    cases back : l.reverse.find? p with
    | none => exact absurd holds (List.find?_eq_none.mp back a (List.mem_reverse.mpr listed))
    | some b =>
      have holds' := find?_some back
      have listed' := List.mem_reverse.mp (mem_of_find?_eq_some back)
      rw [unique b listed' a listed holds' holds]

lemma immWord_id (id : UInt16) : immWord (Int32.ofNat id.toNat) = id.toUInt64 := by
  rw [immWord_ofNat (Nat.lt_trans id.toNat_lt (by decide))]
  apply UInt64.toNat_inj.mp
  have := id.toNat_lt
  simp only [Nat.toUInt64_eq, UInt64.toNat_ofNat', UInt16.toNat_toUInt64]
  omega

lemma immWord_neg {k : Nat} (small : k < 2 ^ 31) : immWord (-(Int32.ofNat k)) = -k.toUInt64 := by
  have notMin : Int32.ofNat k ≠ Int32.minValue := by
    intro same
    have := congrArg Int32.toInt same
    rw [Int32.toInt_ofNat_of_lt small] at this
    simp at this
  rw [← immWord_ofNat small]
  unfold immWord
  rw [Int32.toInt64_neg_of_ne notMin]
  rfl

/-- The places of a table: for each number from `low` on that of its field. -/
def tablePlaces (fields : List FieldDesc) (arms : List Nat) (unknown low high : Nat) : List Nat :=
  (List.range (high - low + 1)).map fun k =>
    match (fields.zip arms).reverse.find? fun entry => entry.1.id.toNat = low + k with
    | some entry => entry.2
    | none => unknown

lemma dispatchTable_eq (low high : Nat) : dispatchTable fields arms unknown low high =
      (tablePlaces fields arms unknown low high).map .place := by
  unfold dispatchTable tablePlaces
  rw [map_map]
  refine map_congr_left fun k _ => ?_
  simp only [Function.comp]
  cases (fields.zip arms).reverse.find? fun entry => entry.1.id.toNat = low + k <;> rfl

lemma table_gives (ids : (fields.map (·.id)).Nodup) (same : arms.length = fields.length)
    {low high : Nat} (range : idRange? fields = some (low, high)) (id : UInt64) :
    (tablePlaces fields arms unknown low high)[(id - low.toUInt64).toNat]?.getD unknown =
      armOf fields arms unknown id := by
  obtain ⟨inside, ⟨first, memFirst, atFirst⟩, ⟨last, memLast, atLast⟩⟩ := idRange?_spec range
  have lowSmall : low < 2 ^ 16 := atFirst ▸ first.id.toNat_lt
  have highSmall : high < 2 ^ 16 := atLast ▸ last.id.toNat_lt
  have lowWord : low.toUInt64.toNat = low := by
    simp only [Nat.toUInt64_eq, UInt64.toNat_ofNat']
    omega
  have unique : ∀ a ∈ fields.zip arms, ∀ b ∈ fields.zip arms, a.1.id = b.1.id → a = b := by
    have nodup : ((fields.zip arms).map fun entry => entry.1.id).Nodup := by
      have firsts := map_fst_zip (le_of_eq same.symm)
      rwa [← firsts, map_map] at ids
    exact fun a memA b memB eq => inj_on_of_nodup_map nodup memA memB eq
  unfold tablePlaces armOf
  by_cases short : (id - low.toUInt64).toNat < high - low + 1
  · -- the number is within the range, so that the table has an entry for it
    generalize at_ : (id - low.toUInt64).toNat = k at short ⊢
    have word : id.toNat = low + k := by
      have back : id = (id - low.toUInt64) + low.toUInt64 := by simp
      rw [back, UInt64.toNat_add, at_, lowWord]
      omega
    have test : ∀ entry : FieldDesc × Nat, (entry.1.id.toUInt64 = id) ↔ entry.1.id.toNat = low + k := by
      intro entry
      rw [← UInt64.toNat_inj, UInt16.toNat_toUInt64, word]
    rw [getElem?_map, getElem?_range short]
    simp only [Option.map_some, Option.getD_some, test]
    rw [find?_reverse_of_unique]
    intro a memA b memB holdsA holdsB
    refine unique a memA b memB (UInt16.toNat_inj.mp ?_)
    rw [of_decide_eq_true holdsA, of_decide_eq_true holdsB]
  · rw [getElem?_eq_none (by simpa using short)]
    have missing : (fields.zip arms).find? (fun entry => entry.1.id.toUInt64 = id) = none := by
      rw [find?_eq_none]
      intro entry mem holds
      have inRange := inside entry.1 (of_mem_zip mem).1
      have word : id.toNat = entry.1.id.toNat := by
        rw [← of_decide_eq_true holds, UInt16.toNat_toUInt64]
      rw [UInt64.toNat_sub_of_le _ _ (UInt64.le_iff_toNat_le.mpr (by omega)), lowWord] at short
      omega
    rw [missing]
    rfl

section Selection

variable {σ : Type} {table : HandleTable} {caller : Caller σ} {p : Program} {settle : Dest → Nat} {pc : Nat}
  {m : Machine} {s : σ}

def Stands (p : Program) (settle : Dest → Nat) (pc : Nat) (code : Code) : Prop :=
  ∀ (k : Nat) i, code[k]? = some i → p.code[pc + k]? = some (i.mapTargets settle)

lemma Stands.tail {i : Instr Dest} {code : Code} (stands : Stands p settle pc (i :: code)) :
    Stands p settle (pc + 1) code :=
  fun k j at_ => (Nat.add_right_comm pc 1 k).symm ▸ stands (k + 1) j at_

lemma moves_jump {place : Nat} (stands : Stands p settle pc [.jump (.place place)]) :
    Relation.TransGen (Moves table caller p s) (pc, m) (settle (.place place), m) :=
  .single (.jump (stands 0 _ rfl) rfl)

lemma moves_chain {entries : List (FieldDesc × Nat)} (stands : Stands p settle pc (entries.map (fun entry =>
      ifEq r1 (Int32.ofNat entry.1.id.toNat) (.place entry.2)) ++ [.jump (.place unknown)])) :
    Relation.TransGen (Moves table caller p s) (pc, m)
      (settle (.place (match entries.find? fun entry => entry.1.id.toUInt64 = m.get r1 with
        | some entry => entry.2
        | none => unknown)), m) := by
  induction entries generalizing pc with
  | nil => exact moves_jump stands
  | cons entry entries ih =>
    have test : Cond.eq.eval (m.get r1) (immWord (Int32.ofNat entry.1.id.toNat)) =
        decide (entry.1.id.toUInt64 = m.get r1) := by
      rw [immWord_id, Cond.eval]
      exact Bool.eq_iff_iff.mpr (by simpa using eq_comm)
    have step : stepAny table caller p.job.eofCode
        ((ifEq r1 (Int32.ofNat entry.1.id.toNat) (.place entry.2)).mapTargets settle) m s =
          some (.ok (if entry.1.id.toUInt64 = m.get r1 then .jump (settle (.place entry.2)) else .next, m, s)) := by
      simp only [ifEq, Instr.mapTargets, stepAny, Machine.step, branch, test, decide_eq_true_eq]
    by_cases here : entry.1.id.toUInt64 = m.get r1
    · rw [if_pos here] at step
      rw [find?_cons_of_pos (by simpa using here)]
      exact .single (.jump (stands 0 _ rfl) step)
    · rw [if_neg here] at step
      rw [find?_cons_of_neg (by simpa using here)]
      exact .head (.next (stands 0 _ rfl) step) (ih stands.tail)

/-- The selection leads to the code of the field whose number is in `r1`. -/
lemma moves_dispatch (ids : (fields.map (·.id)).Nodup) (same : arms.length = fields.length)
    (stands : Stands p settle pc (dispatch fields arms unknown)) :
    ∃ m', Relation.TransGen (Moves table caller p s) (pc, m)
      (settle (.place (armOf fields arms unknown (m.get r1))), m') ∧
      m'.ctx = m.ctx ∧ ∀ reg, reg ≠ r4 → m'.get reg = m.get reg := by
  unfold Lowering.dispatch at stands
  cases range : idRange? fields with
  | none =>
    rw [range] at stands
    have empty : fields = [] := by
      cases fields with
      | nil => rfl
      | cons f more =>
        unfold idRange? at range
        split at range <;> cases range
    subst empty
    exact ⟨m, moves_jump stands, rfl, fun _ _ => rfl⟩
  | some range' =>
    obtain ⟨low, high⟩ := range'
    rw [range] at stands
    simp only at stands
    split at stands
    · obtain ⟨_, ⟨f, _, atLow⟩, _⟩ := idRange?_spec range
      have small : low < 2 ^ 31 := Nat.lt_trans (atLow ▸ f.id.toNat_lt) (by decide)
      rw [dispatchTable_eq] at stands
      have counted : stepAny table caller p.job.eofCode ((Instr.imm .add r4 r1 (-(Int32.ofNat low))).mapTargets settle) m s =
          some (.ok (.next, m.set r4 (m.get r1 - low.toUInt64), s)) := by
        simp only [Instr.mapTargets, stepAny, Machine.step, ImmOp.eval, immWord_neg small, UInt64.sub_eq_add_neg]
      refine ⟨m.set r4 (m.get r1 - low.toUInt64), .head (.next (stands 0 _ rfl) counted) (.single (.jump (stands.tail 0 _ rfl) ?_)),
        rfl, fun reg other => by rw [get_set, Function.update_of_ne other]⟩
      rw [← table_gives ids same range]
      simp only [Instr.mapTargets, stepAny, Machine.step, get_set, Function.update_self, map_map, getElem?_map]
      cases (tablePlaces fields arms unknown low high)[(m.get r1 - low.toUInt64).toNat]? <;> rfl
    · exact ⟨m, moves_chain stands, rfl, fun _ _ => rfl⟩

/-- Whatever the numbers of the fields, and whichever form the selection takes, it leads to the code of the field whose
number was read, or to the code for unknown fields if there is none, and changes no register but `r4`. -/
theorem dispatch_selects (table : HandleTable) (caller : Caller σ) (p : Program) (settle : Dest → Nat) (pc : Nat)
    (m : Machine) (s : σ) (fields : List FieldDesc) (arms : List Nat) (unknown : Nat) (id : UInt16)
    (ids : (fields.map (·.id)).Nodup) (low : ∀ f ∈ fields, f.id.toNat ≤ 32767) (same : arms.length = fields.length)
    (stands : Stands p settle pc (dispatch fields arms unknown)) (read : m.get r1 = wideId id) :
    ∃ target m', Relation.TransGen (Moves table caller p s) (pc, m) (settle (.place target), m') ∧
      m'.ctx = m.ctx ∧ (∀ reg, reg ≠ r4 → m'.get reg = m.get reg) ∧
      (∀ (i : Nat) f, fields[i]? = some f → f.id = id → arms[i]? = some target) ∧
      ((∀ f ∈ fields, f.id ≠ id) → target = unknown) := by
  obtain ⟨m', moves, ctx, regs⟩ := @moves_dispatch _ _ unknown σ table caller p settle pc m s ids same stands
  have tells : ∀ g ∈ fields, g.id.toUInt64 = m.get r1 ↔ g.id = id := fun g mem => by
    rw [read, toUInt64_eq_wideId (Nat.lt_succ_of_le (low g mem))]
  refine ⟨_, m', moves, ctx, regs, ?_⟩
  rcases @armOf_cases fields arms unknown same (m.get r1) with ⟨none_, is⟩ | ⟨index, g, found, at_, arm⟩
  · have missing : ∀ f ∈ fields, f.id ≠ id := fun f mem same => by
      exact absurd ((tells f mem).mpr same) (by simpa using findIdx?_eq_none_iff.mp none_ f mem)
    exact ⟨fun i f at_ same => absurd same (missing f (mem_of_getElem? at_)), fun _ => is⟩
  · obtain ⟨inside, holds, -⟩ := findIdx?_eq_some_iff_getElem.mp found
    obtain ⟨_, rfl⟩ := List.getElem?_eq_some_iff.mp at_
    have own := (tells _ (mem_of_getElem? at_)).mp (by simpa using holds)
    refine ⟨fun i f there is => ?_, fun none_ => absurd own (none_ _ (mem_of_getElem? at_))⟩
    have here : i = index := by
      refine (getElem?_inj (by simpa using (List.getElem?_eq_some_iff.mp there).1) ids).mp ?_
      rw [getElem?_map, getElem?_map, there, at_, Option.map_some, Option.map_some, is, own]
    rw [here, arm]

def numbered (ids : List UInt16) : List FieldDesc :=
  ids.map fun id => ⟨id, "field", .optional, ⟨0, .i32, "int", 4, 4, none, none, none, []⟩, none, 0⟩

theorem dispatch_selects_dense : ∃ (p : Program) (m m' : Machine),
    p.code[1]? = some (.switch r4 [10, 20, 3, 3, 30, 40] 3) ∧ m.get r1 = wideId 5 ∧
      Relation.TransGen (Moves Builtin.table (fun _ _ _ _ => none) p ()) (0, m) (30, m') ∧ m'.get r1 = 5 := by
  let code := dispatch (numbered [1, 2, 5, 6]) [10, 20, 30, 40] 3
  let p : Program := ⟨"select", .decode, (code.map (·.mapTargets (placed code))).toArray⟩
  have stands : Stands p (placed code) 0 code := fun k i at_ => by
    simp only [p, Nat.zero_add, List.getElem?_toArray, getElem?_map, at_, Option.map_some]
  let m := (Machine.start (.start #[] ⟨#[]⟩ 0 4 false)).set r1 (wideId 5)
  obtain ⟨target, m', moves, -, regs, arm, -⟩ := dispatch_selects Builtin.table (fun _ _ _ _ => none) p (placed code) 0 m ()
    (numbered [1, 2, 5, 6]) [10, 20, 30, 40] 3 5 (by decide) (by decide) rfl stands rfl
  cases arm 2 _ rfl rfl
  exact ⟨p, m, m', by decide +kernel, by decide +kernel, moves, (regs r1 (by decide)).trans (by decide +kernel)⟩

end Selection

namespace Site

variable {E : Site} {α : Type} {n pc pc₁ : Nat} {m : Machine} {s : Session} {x : Act α}
  {post : α → Machine → Prop}

lemma Does.dispatch (ids : (fields.map (·.id)).Nodup) (same : arms.length = fields.length)
    (has : E.Has pc (dispatch fields arms unknown))
    (rest : ∀ m' : Machine, m'.ctx = m.ctx → (∀ reg, reg ≠ r4 → m'.get reg = m.get reg) →
      E.Does n (armOf fields arms unknown (m.get r1)) m' s pc₁ x post) : E.Does n pc m s pc₁ x post := by
  obtain ⟨m', moves, ctx, regs⟩ := moves_dispatch ids same has.instrs
  rw [E.settle_place] at moves
  exact .before (fun _ _ => .of_moves moves) (by rw [ctx]) ⟨by rw [ctx], by rw [ctx], by rw [ctx], ctx ▸ id, fun _ _ => by rw [ctx]⟩
    (rest m' ctx regs)

end Site

end WireCodec
