import WireCodec.Proofs.Codec.Closed
import WireCodec.Proofs.Lowering.Orderly

/-! What is done with the records inside others. The code for one stands in place or calls a codec, and a
type that is no record has the codec of the record it stands for, if there is one. Which of these it is
depends on the place where the code stands. -/
namespace WireCodec

open Lowering

/-- What the code for a job does with a record, given what is done with the records inside it. -/
def Job.record (known : Registry) (nested : Spots Visit) : Job → Visit
  | .measure => Writing.record known nested .count
  | .encode => Writing.record known nested .write
  | .decode => Reading.record known nested

/-- What it does if all records inside are handled alike. -/
def Job.walk (known : Registry) : Job → Nat → Visit
  | .measure => Writing.walk known .count
  | .encode => Writing.walk known .write
  | .decode => Reading.walk known

variable {known : Registry} {job : Job} {frames : Nat} {t : TypeDesc}

lemma Job.walk_zero : job.walk known 0 = fun _ _ _ => pure () := by cases job <;> rfl

lemma Job.walk_succ : job.walk known (frames + 1) = job.record known fun _ => job.walk known frames := by
  cases job <;> rfl

lemma Job.record_out (out : Output) (nested : Spots Visit) :
    out.job.record known nested = Writing.record known nested out := by cases out <;> rfl

/-- What a codec that cannot be made comes to. -/
inductive Trouble.Stuck : Trouble → Prop
  | issue (issue : SchemaIssue) : Stuck (.defect (.unsupported issue))
  | overflow : Stuck (.gaveUp .crashed)

def Lowering.Failure.trouble : Failure → Trouble
  | .cause e => .defect e
  | .overflow => .gaveUp .crashed

lemma Trouble.Stuck.of_failure {f : Failure} (foreseen : f.IsIssue ∨ f = .overflow) : f.trouble.Stuck := by
  rcases foreseen with ⟨issue, rfl⟩ | rfl
  · exact .issue issue
  · exact .overflow

/-- What may be done with a type in the place of a record, where `frames` bounds the frames that are left and
the codecs of `lost` types cannot be made. -/
inductive Visits (known : Registry) (job : Job) (lost : TypeDesc → Prop) :
    Nat → TypeDesc → (Nat → UInt64 → Act Unit) → Prop
  | spent (t : TypeDesc) : Visits known job lost 0 t fun _ _ => pure ()
  | record {frames : Nat} {t : TypeDesc} {nested : Spots Visit}
      (inner : ∀ way record, known.Target record →
        Visits known job lost frames record fun left base => nested way left record base)
      (apart : ∀ way left record base, ¬ known.Target record →
        nested way left record base = job.walk known frames left record base) :
      Visits known job lost (frames + 1) t fun left base => job.record known nested left t base
  | codec {frames : Nat} {t other target : TypeDesc} {v : Nat → UInt64 → Act Unit}
      (found : t.recordType known = .ok other) (isTarget : other.recordType known = .ok target)
      (visits : Visits known job lost frames target v) : Visits known job lost frames t v
  | stuck {frames : Nat} {t : TypeDesc} {trouble : Trouble} (isLost : lost t) (is : trouble.Stuck) :
      Visits known job lost frames t fun _ _ => throw trouble

/-- What is done with the records inside one, at each place. -/
structure Nests (known : Registry) (job : Job) (lost : TypeDesc → Prop) (frames : Nat) (nested : Spots Visit) :
    Prop where
  inner : ∀ way record, known.Target record →
    Visits known job lost frames record fun left base => nested way left record base
  apart : ∀ way left record base, ¬ known.Target record →
    nested way left record base = job.walk known frames left record base

variable {lost : TypeDesc → Prop} {v : Nat → UInt64 → Act Unit} {P : {α : Type} → Act α → Prop}

lemma Visits.mono {lost' : TypeDesc → Prop} (visits : Visits known job lost frames t v)
    (imp : ∀ t, lost t → lost' t) : Visits known job lost' frames t v := by
  induction visits with
  | spent t => exact .spent t
  | record _ apart ih => exact .record ih apart
  | codec found isTarget _ ih => exact .codec found isTarget ih
  | stuck isLost is => exact .stuck (imp _ isLost) is

lemma Nests.visits {nested : Spots Visit} (nests : Nests known job lost frames nested) (t : TypeDesc) :
    Visits known job lost (frames + 1) t fun left base => job.record known nested left t base :=
  .record nests.inner nests.apart

lemma Nests.mono {lost' : TypeDesc → Prop} {nested : Spots Visit} (nests : Nests known job lost frames nested)
    (imp : ∀ t, lost t → lost' t) : Nests known job lost' frames nested :=
  ⟨fun way record target => (nests.inner way record target).mono imp, nests.apart⟩

lemma visits_walk (known : Registry) (job : Job) (lost : TypeDesc → Prop) (frames : Nat) (t : TypeDesc) :
    Visits known job lost frames t fun left base => job.walk known frames left t base := by
  induction frames generalizing t with
  | zero =>
    rw [Job.walk_zero]
    exact .spent t
  | succ frames ih =>
    rw [Job.walk_succ]
    exact .record (fun _ record _ => ih record) fun _ _ _ _ _ => rfl

section Closed

variable (thrown : ∀ {trouble : Trouble}, trouble.Stuck → P (throw trouble : Act Unit)) (sound : known.Sound)
include thrown sound

lemma Visits.reads (closed : Act.ClosedReads known P) (visits : Visits known .decode lost frames t v)
    (has : known.Has t) (left : Nat) (base : UInt64) : P (v left base) := by
  induction visits generalizing left base with
  | spent => exact closed.pure _
  | record inner _ ih =>
    exact Reading.closed_record closed.toClosedPasses fun k _ i f mem =>
      Reading.closed_field closed sound (fun way left record base target =>
        ih (i :: way) record target (target.has sound) left base) k base (sound.field has mem)
  | codec found isTarget _ ih => exact ih (sound.recordType (sound.recordType has found) isTarget) left base
  | stuck _ is => exact thrown is

lemma Visits.writes {out : Output} (closed : Act.ClosedWrites known out P)
    (visits : Visits known out.job lost frames t v) (has : known.Has t) (left : Nat) (base : UInt64) :
    P (v left base) := by
  induction visits generalizing left base with
  | spent => exact closed.pure _
  | record inner _ ih =>
    rw [Job.record_out]
    exact Writing.closed_record closed sound
      (fun way left record base target => ih way record target (target.has sound) left base) has left base
  | codec found isTarget _ ih => exact ih (sound.recordType (sound.recordType has found) isTarget) left base
  | stuck _ is => exact thrown is

end Closed

lemma Visits.without {bad : Trouble → Prop} (sound : known.Sound) (codec : ∀ code offset, ¬ bad (.codec code offset))
    (outside : ¬ bad .outside) (stuck : ∀ trouble : Trouble, trouble.Stuck → ¬ bad trouble)
    (cut : job = .encode → ∀ offset, ¬ bad (.cut offset))
    (check : ∀ {t elem : TypeDesc}, known.Has t → known.IsSequence t elem → t.kind = .set →
      ∀ data count, Act.Without bad (Act.distinct known elem data count))
    (visits : Visits known job lost frames t v) (has : known.Has t) (left : Nat) (base : UInt64) :
    Act.Without bad (v left base) := by
  have thrown : ∀ {trouble : Trouble}, trouble.Stuck → Act.Without bad (throw trouble : Act Unit) :=
    fun is _ => stuck _ is
  cases job with
  | measure =>
    have visits : Visits known Output.count.job lost frames t v := visits
    exact visits.writes (P := Act.Without bad) thrown sound
      (Act.closedWrites_without codec outside (fun writes => by cases writes) check) has left base
  | encode =>
    have visits : Visits known Output.write.job lost frames t v := visits
    exact visits.writes (P := Act.Without bad) thrown sound
      (Act.closedWrites_without codec outside (fun _ => cut rfl) check) has left base
  | decode =>
    exact visits.reads (P := Act.Without bad) thrown sound (Act.closedReads_without codec outside check) has left base

/-- Only code that writes literals meets the end of the wire within one. -/
lemma Visits.uncut (sound : known.Sound) (exact : job ≠ .encode) (visits : Visits known job lost frames t v)
    (has : known.Has t) (left : Nat) (base : UInt64) (c : Scene) (offset : UInt64) (c' : Scene) :
    v left base c ≠ .error (.cut offset) c' := by
  have other : Act.Without (· = .cut offset) (v left base) := by
    refine visits.without sound (by simp) (by simp) ?_ (fun writes => absurd writes exact)
      (fun _ _ _ _ _ _ => Act.ends_distinct trivial nofun (fun _ => nofun) fun _ => nofun) has left base
    rintro _ ⟨⟩ <;> exact nofun
  exact fun failed => (other c).error failed rfl

/-- Where pointers refer to records and all codecs can be made, all records inside are handled alike. -/
lemma Visits.eq_walk (usable : known.Usable) (made : ∀ t, known.Has t → t.kind = .struct → ¬ lost t)
    (visits : Visits known job lost frames t v) (has : known.Has t) (kind : t.kind = .struct) :
    v = fun left base => job.walk known frames left t base := by
  induction visits with
  | spent => rw [Job.walk_zero]
  | @record frames t nested inner apart ih =>
    have same : nested = fun _ => job.walk known frames := by
      funext way left record base
      by_cases target : known.Target record
      · have ⟨from_, hasFrom, found⟩ := target
        exact congrFun (congrFun (ih way record target (target.has usable.sound)
          (usable.recordType_kind hasFrom found)) left) base
      · exact apart way left record base target
    rw [same, Job.walk_succ]
  | codec found isTarget _ ih =>
    obtain rfl := Except.ok.inj ((Registry.recordType_struct kind).symm.trans found)
    obtain rfl := Except.ok.inj ((Registry.recordType_struct kind).symm.trans isTarget)
    exact ih has kind
  | stuck isLost => exact absurd isLost (made _ has kind)

end WireCodec
