import WireCodec.Proofs.Codec.Programs
import WireCodec.Proofs.Native.Function

/-! Records of a usable schema can be compiled with all options: their programs pass the check,
and so machine code can be made for them. -/
namespace WireCodec

open Lowering Peephole

namespace Lowering

variable {known : Registry}

lemma load_ok (native : NativeCode) (start : native.entry = 0) : ∃ info, native.load native.code.length = .ok info := by
  refine ⟨_, if_neg ?_⟩
  simp [start]

lemma loadNative_ok (options : Options) (known : Registry) {p : Program} (checked : verifyCode Builtin.table p.code.toList = .ok ())
    (table : TypeTable) : ∃ info, loadNative (options.setting known) p table = .ok info table := by
  obtain ⟨native, made, start⟩ := Program.native_ok checked .numbered
  obtain ⟨info, loaded⟩ := load_ok native start
  refine ⟨info, ?_⟩
  simp only [loadNative, Options.setting, made, loaded]
  rfl

lemma compileFor_decides (options : Options) {bad : Failure → Prop} (foresees : Foresees known bad) {t : TypeDesc}
    (refused : ∀ issue, t.recordType known = .error issue → bad (.cause (.unsupported issue))) (has : known.Has t)
    (backend : Backend) (job : Job) :
    (∃ f, bad f ∧ Fails known (compileFor (options.setting known) backend t job) f) ∨
      Succeeds known (compileFor (options.setting known) backend t job) fun _ _ _ => True := by
  rcases compileTidy_decides options foresees refused has job with ⟨f, isBad, fails⟩ | ⟨record, _, succeeds⟩
  · exact .inl ⟨f, isBad, fails.bind⟩
  refine .inr fun table sound => ?_
  obtain ⟨p, table', tidied, within, sound', body, isProgram⟩ := succeeds table sound
  refine (?_ : ∃ compiled, _).imp fun compiled made => ⟨table', made, within, sound', trivial⟩
  cases backend with
  | interpreter => exact ⟨⟨p, none⟩, lower_bind.mpr ⟨p, table', tidied, rfl⟩⟩
  | native =>
    have finished := verifyCode_finish isProgram.fine
    obtain ⟨q, tidied', -, checked, -⟩ := @Program.optimize_eq_ok Builtin.table
      ⟨record.name, job, (finish body).toArray⟩ (by simpa using finished)
    rw [isProgram.tidied] at tidied'
    obtain rfl := Except.ok.inj tidied'
    obtain ⟨info, loaded⟩ := loadNative_ok options known checked table'
    exact ⟨⟨p, some info⟩, lower_bind.mpr ⟨p, table', tidied, lower_bind.mpr ⟨info, table', loaded, rfl⟩⟩⟩

end Lowering

/-- A type can be compiled, or fails to be for one reason, whatever was compiled before. -/
lemma Options.decides {known : Registry} (options : Options) {bad : Failure → Prop} (foresees : Foresees known bad)
    {t : TypeDesc} (refused : ∀ issue, t.recordType known = .error issue → bad (.cause (.unsupported issue)))
    (has : known.Has t) : (∃ f, bad f ∧ Fails known (options.compile known t) f) ∨ options.Compiles known t := by
  have decides := compileFor_decides options foresees refused has options.backend.effective
  rcases decides .measure with ⟨f, isBad, fails⟩ | measures
  · exact .inl ⟨f, isBad, fails.bind⟩
  rcases decides .encode with ⟨f, isBad, fails⟩ | encodes
  · exact .inl ⟨f, isBad, measures.fails fun _ => fails.bind⟩
  rcases decides .decode with ⟨f, isBad, fails⟩ | decodes
  · exact .inl ⟨f, isBad, measures.fails fun _ => encodes.fails fun _ => fails.bind⟩
  refine .inr fun table sound => ?_
  obtain ⟨measure, mid, made, within, sound, _⟩ := measures table sound
  obtain ⟨encode, mid', made', within', sound', _⟩ := encodes mid sound
  obtain ⟨decode, last, made'', within'', sound'', _⟩ := decodes mid' sound'
  refine ⟨⟨t, measure, encode, decode⟩, last, ?_, within.trans (within'.trans within''), sound''⟩
  exact lower_bind.mpr ⟨measure, mid, made, lower_bind.mpr ⟨encode, mid', made',
    lower_bind.mpr ⟨decode, last, made'', rfl⟩⟩⟩

lemma Options.compiles {known : Registry} (options : Options) (usable : known.Usable) (record : TypeDesc)
    (has : known.Has record) (kind : record.kind = .struct) : options.Compiles known record := by
  refine (options.decides (foresees_none usable) (fun issue failed => ?_) has).resolve_left fun ⟨_, no, _⟩ => no
  rw [Registry.recordType_struct kind] at failed
  cases failed

/-- The codec of the type cannot be made. -/
def Options.Loses (options : Options) (known : Registry) (t : TypeDesc) : Prop :=
  ∀ other, t.recordType known = .ok other → ¬ options.Compiles known other

/-- Looking up a type fails, always for one reason, or gives the programs of a record. -/
lemma Options.lookup_decides {known : Registry} (options : Options) (sound : known.Sound) {t : TypeDesc}
    (has : known.Has t) :
    (∃ f, (f.IsIssue ∨ f = .overflow) ∧ options.Loses known t ∧ ∀ s : Session, s.Sound known options →
      ∃ s', Session.lookup known t s = .error f s' ∧ Session.Follows known options s s') ∨
    ∃ other target, t.recordType known = .ok other ∧ other.recordType known = .ok target ∧
      options.Compiles known other := by
  cases found : t.recordType known with
  | error issue =>
    refine .inl ⟨.cause (.unsupported issue), .inl ⟨issue, rfl⟩, fun other ok => ?_, fun s sound => ⟨s, ?_, sound.follows⟩⟩
    · cases found.symm.trans ok
    · simp only [Session.lookup, found]
  | ok other =>
    have hasOther := sound.recordType has found
    rcases options.decides (foresees_all sound) (fun _ _ => .inl ⟨_, rfl⟩) hasOther with ⟨f, foreseen, fails⟩ | compiles
    · refine .inl ⟨f, foreseen, fun u isOther compiles => ?_, fun s sound =>
        Session.lookup_eq_error sound found hasOther fails⟩
      obtain rfl := Except.ok.inj (found.symm.trans isOther)
      obtain ⟨_, failed, _⟩ := fails .empty (TypeTable.sound_empty _)
      obtain ⟨_, _, ok, _⟩ := compiles .empty (TypeTable.sound_empty _)
      cases failed.symm.trans ok
    · obtain ⟨set, _, ok, _⟩ := compiles .empty (TypeTable.sound_empty _)
      obtain ⟨_, target, _, _, _, isTarget, _⟩ :=
        isProgram_of_compile sound hasOther (TypeTable.sound_empty _) ok .measure
      exact .inr ⟨other, target, rfl, isTarget, compiles⟩

lemma Session.Sound.has_of_lookup {known : Registry} {options : Options} {s s' : Session} {t : TypeDesc} {set : CodecSet}
    (soundS : s.Sound known options) (sound : known.Sound) (has : known.Has t)
    (looked : Session.lookup known t s = .ok set s') : known.Has set.type := by
  rcases options.lookup_decides sound has with ⟨f, _, _, failed⟩ | ⟨other, target, found, _, compiles⟩
  · obtain ⟨_, failed, _⟩ := failed s soundS
    cases failed.symm.trans looked
  · have hasOther := sound.recordType has found
    obtain ⟨_, _, first, _, looked', _, soundFirst, compiled, _⟩ :=
      Session.lookup_eq_ok soundS found hasOther compiles
    cases looked'.symm.trans looked
    rw [(isProgram_of_compile sound hasOther soundFirst compiled .decode).1]
    exact hasOther

end WireCodec
