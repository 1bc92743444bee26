import WireCodec.Proofs.Codec.Blind
import WireCodec.Proofs.Session.Roundtrip

/-! The barrier while a record is decoded: what is reported, and that nothing else depends on it. -/
namespace WireCodec

namespace Session

variable {known : Registry} {options : Options} {s : Session} {t record : TypeDesc} {heap : Heap} {root : UInt32}
  {wire : Bytes} {barrier : Bool}

lemma decode_reports (usable : known.Usable) (compact : known.Compact) (flat : known.Flat)
    (sound : s.Sound known options) (has : known.Has t) (kind : t.kind = .struct) (wireFits : wire.size ≤ maxBlock)
    (vacant : Vacant known heap false root.toNat t) {n : Nat}
    (ok : (s.decode known t wire heap root barrier).result = .ok n) : ∃ c : Scene, c.pos.toNat = n ∧
    (s.decode known t wire heap root true).result = .ok n ∧ (s.decode known t wire heap root true).Leaves c ∧ Logs
    c.heap (LinkAt known c.heap false root.toNat t) c.stores ∧ (s.decode known t wire heap root false).result = .ok n ∧
    (s.decode known t wire heap root false).Leaves (c.watched false []) := by
  obtain ⟨frames, bytes, content, s', at_, length, spells, fits⟩ :=
    spells_of_decode usable compact flat sound has kind vacant.started vacant.small vacant.inside wireFits ok
  have filled := spells.fills_walk usable compact flat has kind (Nat.lt_succ_self _) root.toUInt64
  rw [UInt32.toNat_toUInt64] at filled
  obtain ⟨c, ran, went, _, _, reports⟩ := filled (scene wire heap true)
    (scene_ready vacant.started vacant.small wireFits true) rfl fits at_ vacant.inside
  obtain ⟨events, stores, logs⟩ := (reports (vacant.unlinked usable.sound)).events rfl
  change c.stores = events ++ [] at stores
  rw [List.append_nil] at stores
  obtain ⟨none_, quiet, ran'⟩ := Reading.closed_walk (Act.blind_closed _) usable.sound (options.maxNestingDepth + 1)
    options.maxNestingDepth t root.toUInt64 has (scene wire heap true) false []
  rw [ran, quiet rfl] at ran'
  obtain ⟨result, leaves⟩ := decode_of_walk usable sound has kind frames wireFits ran
  obtain ⟨result', leaves'⟩ := decode_of_walk usable sound has kind frames wireFits ran'
  have consumed : c.pos.toNat = n := by
    rw [went.pos, ← length]
    exact Nat.zero_add _
  exact ⟨c, consumed, consumed ▸ result, leaves, stores ▸ logs, consumed ▸ result', leaves'⟩

lemma decodeNew_record (isRecord : t.recordType known = .ok record) (kind : record.kind = .struct) (barrier : Bool) :
    s.decodeNew known t wire heap barrier = s.decodeNew known record wire heap barrier := by
  have same : lookup known t s = lookup known record s := by
    simp only [lookup, isRecord, TypeDesc.recordType_struct kind]
  simp only [decodeNew, codecs, same]

end Session

end WireCodec
