import WireCodec.Proofs.Schema.Built
import WireCodec.Session.Basic

/-! What every session keeps: its numbered types are types of the schema, each with one number,
and a published codec is what compiling its type gave. Numbers once given out stay. -/
namespace WireCodec

open List

namespace TypeTable

/-- Types of the schema, each listed once. -/
structure Sound (known : Registry) (table : TypeTable) : Prop where
  has : ∀ t ∈ table.types, known.Has t
  ids : (table.types.toList.map (·.id)).Nodup

def Within (table table' : TypeTable) : Prop :=
  ∀ index t, table.get? index = some t → table'.get? index = some t

lemma Within.refl (table : TypeTable) : table.Within table := fun _ _ got => got

lemma Within.trans {a b c : TypeTable} (first : a.Within b) (second : b.Within c) : a.Within c :=
  fun index t got => second index t (first index t got)

lemma sound_empty (known : Registry) : Sound known .empty :=
  ⟨by simp [empty], by simp [empty]⟩

variable {known : Registry} {table : TypeTable} {t : TypeDesc}

lemma Sound.interned (sound : table.Sound known) (has : known.Has t) : (table.intern t).2.Sound known := by
  unfold TypeTable.intern
  split
  · exact sound
  · rename_i missing
    have fresh : ∀ u ∈ table.types, u.id ≠ t.id := by
      simpa using Array.findIdx?_eq_none_iff.mp missing
    refine ⟨fun u mem => ?_, ?_⟩
    · rcases Array.mem_push.mp mem with mem | rfl
      · exact sound.has u mem
      · exact has
    · simp only [Array.toList_push, map_append, map_cons, map_nil]
      rw [nodup_append]
      refine ⟨sound.ids, by simp, ?_⟩
      intro a memA b memB
      rw [mem_singleton] at memB
      obtain ⟨u, mem, rfl⟩ := List.mem_map.mp memA
      subst memB
      exact fresh u (Array.mem_toList_iff.mp mem)

lemma within_intern (table : TypeTable) (t : TypeDesc) : table.Within (table.intern t).2 := by
  intro k u got
  unfold intern
  split
  · exact got
  · have low : k < table.types.size := (Array.getElem?_eq_some_iff.mp got).1
    simpa [get?, Array.getElem?_push, Nat.ne_of_lt low] using got

lemma Sound.get?_intern {whole : TypeTable} (sound : whole.Sound known) (has : known.Has t)
    (within : (table.intern t).2.Within whole) : whole.get? (table.intern t).1 = some t := by
  revert within
  unfold TypeTable.intern
  split
  · rename_i index found
    intro within
    obtain ⟨low, same, _⟩ := Array.findIdx?_eq_some_iff_getElem.mp found
    have same : table.types[index].id = t.id := by simpa using same
    have got : whole.get? index = some table.types[index] := within _ _ (by simp [get?, low])
    have old : known.Has table.types[index] := sound.has _ (Array.mem_of_getElem? got)
    unfold Registry.Has at old has
    rwa [same, has, ← got, eq_comm] at old
  · exact fun within => within _ _ (by simp [get?])

lemma Sound.size_le (sound : table.Sound known) : table.types.size ≤ known.types.size := by
  have low : ∀ id ∈ table.types.toList.map (·.id), id ∈ List.range known.types.size := by
    intro id mem
    obtain ⟨t, listed, rfl⟩ := List.mem_map.mp mem
    have has := sound.has t (Array.mem_toList_iff.mp listed)
    rw [mem_range]
    by_contra high
    have out : known.types[t.id]? = none := Array.getElem?_eq_none (by omega)
    simp [Registry.Has, Registry.get?, out] at has
  have count := (sound.ids.subperm low).length_le
  simpa using count

end TypeTable

namespace Lowering

/-- The computation fails, always for the same reason. -/
def Fails {α : Type} (known : Registry) (x : LowerM α) (f : Failure) : Prop :=
  ∀ table, table.Sound known → ∃ table', x table = .error f table' ∧ table.Within table' ∧ table'.Sound known

/-- The computation always succeeds. -/
def Succeeds {α : Type} (known : Registry) (x : LowerM α) (holds : TypeTable → α → TypeTable → Prop) : Prop :=
  ∀ table, table.Sound known → ∃ a table', x table = .ok a table' ∧ table.Within table' ∧ table'.Sound known ∧
    holds table a table'

end Lowering

def Options.setting (options : Options) (known : Registry) : Lowering.Setting :=
  ⟨known, Builtin.table, options.maxInlineSize, options.maxInlineDepth⟩

def Options.compile (options : Options) (known : Registry) (t : TypeDesc) : Lowering.LowerM CodecSet :=
  Lowering.compileSet (options.setting known) options.backend.effective t

/-- Compiling the type succeeds, whatever types were numbered before. -/
def Options.Compiles (options : Options) (known : Registry) (t : TypeDesc) : Prop :=
  ∀ table : TypeTable, table.Sound known → ∃ set table', options.compile known t table = .ok set table' ∧
    table.Within table' ∧ table'.Sound known

namespace Session

structure Sound (known : Registry) (options : Options) (s : Session) : Prop where
  sameOptions : s.options = options
  handles : s.handles = Builtin.table
  types : s.types.Sound known
  codecs : ∀ id set, s.cache.get? id = some (.ok set) → ∃ t table table', known.get? id = some t ∧ table.Sound known ∧
      options.compile known t table = .ok set table' ∧ table'.Within s.types
  failures : ∀ id e, s.cache.get? id = some (.error e) → ∃ t table table', known.get? id = some t ∧ table.Sound known ∧
      options.compile known t table = .error (.cause e) table'

/-- A session that another one can become. -/
structure Follows (known : Registry) (options : Options) (s s' : Session) : Prop where
  sound : s'.Sound known options
  types : s.types.Within s'.types

variable {known : Registry} {options : Options} {s s' s'' : Session}

lemma Sound.follows (sound : s.Sound known options) : Follows known options s s :=
  ⟨sound, .refl _⟩

lemma Follows.trans (first : Follows known options s s') (second : Follows known options s' s'') :
    Follows known options s s'' :=
  ⟨second.sound, first.types.trans second.types⟩

lemma sound_start (known : Registry) (options : Options) : (start options).Sound known options :=
  ⟨rfl, rfl, TypeTable.sound_empty known, fun _ _ found => absurd found.symm (Option.some_ne_none _),
    fun _ _ found => absurd found.symm (Option.some_ne_none _)⟩

/-- Looking up a type that can be compiled gives what compiling it gave, now or before. -/
lemma lookup_eq_ok {t record : TypeDesc} (sound : s.Sound known options) (isRecord : t.recordType known = .ok record)
    (has : known.Has record) (compiles : options.Compiles known record) : ∃ set s' table table', lookup known t s = .ok
    set s' ∧ Follows known options s s' ∧ table.Sound known ∧ options.compile known record table = .ok set table' ∧
    table'.Within s'.types := by
  have setting : s.setting known = options.setting known := by
    rw [Session.setting, Options.setting, sound.sameOptions, sound.handles]
  simp only [lookup, isRecord, Cache.fetch]
  cases cached : s.cache.get? record.id with
  | some result =>
    cases result with
    | ok set =>
      obtain ⟨u, table, table', got, fine, compiled, within⟩ := sound.codecs _ _ cached
      have : u = record := Option.some.inj (got.symm.trans has)
      subst this
      exact ⟨set, _, table, table', rfl, ⟨⟨sound.sameOptions, sound.handles, sound.types, sound.codecs,
        sound.failures⟩, .refl _⟩, fine, compiled, within⟩
    | error e =>
      obtain ⟨u, table, table', got, fine, failed⟩ := sound.failures _ _ cached
      have : u = record := Option.some.inj (got.symm.trans has)
      subst this
      obtain ⟨set, _, compiled, _⟩ := compiles table fine
      rw [compiled] at failed
      cases failed
  | none =>
    obtain ⟨set, table', compiled, within, fine⟩ := compiles s.types sound.types
    have made : Lowering.compileSet (s.setting known) s.options.backend.effective record s.types = .ok set table' := by
      rw [setting, sound.sameOptions]
      exact compiled
    simp only [made]
    refine ⟨set, _, s.types, table', rfl, ⟨⟨sound.sameOptions, sound.handles, fine, ?_, ?_⟩, within⟩,
      sound.types, compiled, .refl _⟩
    · intro id other found
      simp only [Cache.get?, Cache.publish, Cache.miss, lookup_cons] at found
      split at found
      · rename_i same
        cases found
        rw [beq_iff_eq] at same
        exact ⟨record, s.types, table', same ▸ has, sound.types, compiled, .refl _⟩
      · obtain ⟨u, first, last, got, fine', compiled', within'⟩ := sound.codecs id other found
        exact ⟨u, first, last, got, fine', compiled', within'.trans within⟩
    · intro id e found
      simp only [Cache.get?, Cache.publish, Cache.miss, lookup_cons] at found
      split at found
      · cases found
      · exact sound.failures id e found

/-- Looking up a type that cannot be compiled fails for the reason that compiling it fails. -/
lemma lookup_eq_error {t record : TypeDesc} {f : Lowering.Failure} (sound : s.Sound known options)
    (isRecord : t.recordType known = .ok record) (has : known.Has record)
    (fails : Lowering.Fails known (options.compile known record) f) :
    ∃ s', lookup known t s = .error f s' ∧ Follows known options s s' := by
  have setting : s.setting known = options.setting known := by
    rw [Session.setting, Options.setting, sound.sameOptions, sound.handles]
  simp only [lookup, isRecord, Cache.fetch]
  cases cached : s.cache.get? record.id with
  | some result =>
    cases result with
    | ok set =>
      obtain ⟨u, table, table', got, fine, compiled, _⟩ := sound.codecs _ _ cached
      obtain rfl : u = record := Option.some.inj (got.symm.trans has)
      obtain ⟨_, failed, _⟩ := fails table fine
      cases failed.symm.trans compiled
    | error e =>
      obtain ⟨u, table, table', got, fine, failed⟩ := sound.failures _ _ cached
      obtain rfl : u = record := Option.some.inj (got.symm.trans has)
      obtain ⟨_, failed', _⟩ := fails table fine
      cases failed.symm.trans failed'
      exact ⟨_, rfl, ⟨sound.sameOptions, sound.handles, sound.types, sound.codecs, sound.failures⟩, .refl _⟩
  | none =>
    obtain ⟨table', failed, within, fine⟩ := fails s.types sound.types
    have made : Lowering.compileSet (s.setting known) s.options.backend.effective record s.types = .error f table' := by
      rw [setting, sound.sameOptions]
      exact failed
    have codecs : ∀ id set, s.cache.get? id = some (.ok set) → ∃ t table last, known.get? id = some t ∧
        table.Sound known ∧ options.compile known t table = .ok set last ∧ last.Within table' := by
      intro id set found
      obtain ⟨u, first, last, got, fine', compiled, within'⟩ := sound.codecs id set found
      exact ⟨u, first, last, got, fine', compiled, within'.trans within⟩
    cases f with
    | overflow =>
      simp only [made]
      exact ⟨_, rfl, ⟨sound.sameOptions, sound.handles, fine, codecs, sound.failures⟩, within⟩
    | cause e =>
      simp only [made]
      refine ⟨_, rfl, ⟨sound.sameOptions, sound.handles, fine, ?_, ?_⟩, within⟩
      · intro id other found
        simp only [Cache.get?, Cache.publish, Cache.miss, lookup_cons] at found
        split at found
        · cases found
        · exact codecs id other found
      · intro id other found
        simp only [Cache.get?, Cache.publish, Cache.miss, lookup_cons] at found
        split at found
        · rename_i same
          cases found
          rw [beq_iff_eq] at same
          exact ⟨record, s.types, table', same ▸ has, sound.types, failed⟩
        · exact sound.failures id other found

end Session

end WireCodec
