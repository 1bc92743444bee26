import WireCodec.Proofs.Session.Delivery

/-! Operations whose runs end within a number of steps. Counting the steps gives the same result,
and it can be computed. -/
namespace WireCodec

namespace Machine

variable {σ : Type} {table : HandleTable} {caller : Caller σ} {p : Program} {t : TypeDesc}

/-- A run of at most `steps` steps; a longer one has no result. -/
def runWithin (table : HandleTable) (caller : Caller σ) (p : Program) : Nat → Nat → Machine → σ → Option (Finished σ)
  | 0, _, _, _ => none
  | steps + 1, pc, m, s =>
    match p.code[pc]? with
    | none => some ⟨.stopped, m.ctx.raise (.malformed (.ranOff p.name pc)), s⟩
    | some i =>
      match stepAny table caller p.job.eofCode i m s with
      | none => none
      | some (.error f) => some f
      | some (.ok (.stop, m', s')) => some ⟨.stopped, m'.ctx, s'⟩
      | some (.ok (.next, m', s')) => runWithin table caller p steps (pc + 1) m' s'
      | some (.ok (.jump target, m', s')) => runWithin table caller p steps target m' s'

lemma halts_of_runWithin {steps pc : Nat} {m : Machine} {s : σ} {f : Finished σ}
    (ran : runWithin table caller p steps pc m s = some f) : ∃ stop, Halts table caller p pc m s stop f := by
  fun_induction runWithin table caller p steps pc m s with
  | case1 => cases ran
  | case2 _ _ _ _ at_ =>
    cases ran
    exact ⟨_, .off at_⟩
  | case3 => cases ran
  | case4 _ _ _ _ _ at_ _ step =>
    cases ran
    exact ⟨_, .ended at_ step⟩
  | case5 _ _ _ _ _ at_ _ _ step =>
    cases ran
    exact ⟨_, .stop at_ step⟩
  | case6 _ _ _ _ _ at_ _ _ step ih =>
    obtain ⟨stop, halts⟩ := ih ran
    exact ⟨stop, .next at_ step halts⟩
  | case7 _ _ _ _ _ at_ _ _ _ step ih =>
    obtain ⟨stop, halts⟩ := ih ran
    exact ⟨stop, .jump at_ step halts⟩

end Machine

namespace Session

variable {steps : Nat} {s : Session} {known : Registry} {job : Job} {t : TypeDesc} {wire : Bytes} {heap : Heap}
  {root : UInt32} {barrier : Bool} {o : Outcome Nat}

def runProgramWithin (steps : Nat) (known : Registry) :
    Nat → Program → Context → Session → Option (Finished Session)
  | 0, _, _, _ => none
  | depth + 1, p, c, s =>
    Machine.runWithin s.handles (answer known (runProgramWithin steps known depth)) p steps 0 (.start c) s

lemma answer_mono {run run' : Program → Context → Session → Option (Finished Session)}
    (runs : ∀ p c s f, run p c s = some f → run' p c s = some f) {h : Handle} {args : List UInt64}
    {c : Context} {reply : Reply Session} (replied : answer known run h args c s = some reply) :
    answer known run' h args c s = some reply := by
  have routines : ∀ routine reply, Routine.answer (deferred known run) known element routine args c s =
      some reply → Routine.answer (deferred known run') known element routine args c s = some reply := by
    intro routine reply replied
    cases routine with
    | defer =>
      simp only [Routine.answer, deferred] at replied ⊢
      split at replied
      · exact replied
      · split at replied
        · exact replied
        · split at replied
          · exact replied
          · exact replied
          · obtain ⟨f, ran, back⟩ := Option.map_eq_some_iff.mp replied
            exact Option.map_eq_some_iff.mpr ⟨f, runs _ _ _ _ ran, back⟩
    | _ => exact replied
  have single : ∀ routine, (Routine.answer (deferred known run) known element routine args c s).map
      Reply.single = some reply →
      (Routine.answer (deferred known run') known element routine args c s).map Reply.single = some reply := by
    intro routine replied
    obtain ⟨inner, ran, back⟩ := Option.map_eq_some_iff.mp replied
    exact Option.map_eq_some_iff.mpr ⟨inner, routines _ _ ran, back⟩
  unfold answer Handle.answer at replied ⊢
  by_cases many : args.length > maxCallArgs
  · rwa [if_pos many] at replied ⊢
  · rw [if_neg many] at replied ⊢
    cases kind : h.kind with
    | native routine =>
      rw [kind] at replied
      exact single routine replied
    | host routine =>
      rw [kind] at replied
      by_cases two : h.sig.results.length = 2
      · simp only [if_pos two] at replied ⊢
        exact routines routine reply replied
      · simp only [if_neg two] at replied ⊢
        exact single routine replied
    | method slot =>
      rw [kind] at replied
      exact replied

lemma runProgram_of_within {depth : Nat} {p : Program} {c : Context} {f : Finished Session}
    (ran : runProgramWithin steps known depth p c s = some f) : runProgram known depth p c s = some f := by
  induction depth generalizing p c s f with
  | zero => cases ran
  | succ depth ih =>
    obtain ⟨stop, halts⟩ := Machine.halts_of_runWithin ran
    exact (halts.mono fun _ _ _ _ _ => answer_mono fun _ _ _ _ => ih).runFrom

def runCodecWithin (steps : Nat) (s : Session) (known : Registry) (set : CodecSet) (job : Job)
    (wire : Bytes) (heap : Heap) (root : UInt32) (barrier : Bool) : Option (Outcome Nat) :=
  let limit := s.options.maxNestingDepth
  let c := Context.start wire heap root limit barrier
  if Context.frameBytes * (limit + 1) ≤ maxBlock then
    (runProgramWithin steps known (depthLimit c) (set.compiled job).program c s).map outcome
  else some (outcome ⟨.crashed, c, s⟩)

lemma runCodec_of_within {set : CodecSet} (ran : runCodecWithin steps s known set job wire heap root barrier = some o) :
    s.runCodec known set job wire heap root barrier = o := by
  rw [runCodec_eq, execute]
  simp only [runCodecWithin] at ran
  split at ran
  · rename_i fits
    obtain ⟨f, whole, rfl⟩ := Option.map_eq_some_iff.mp ran
    rw [if_pos fits, runProgram_of_within whole]
    rfl
  · rename_i large
    rw [if_neg large]
    exact Option.some.inj ran

def performWithin (steps : Nat) (s : Session) (known : Registry) (job : Job) (t : TypeDesc)
    (wire : Bytes) (heap : Heap) (root : UInt32) (barrier : Bool) : Option (Outcome Nat) :=
  match s.codecs known t with
  | (.error e, s) => some ⟨.error e, wire, heap, [], s⟩
  | (.ok set, s) => runCodecWithin steps s known set job wire heap root barrier

lemma perform_of_within (ran : performWithin steps s known job t wire heap root barrier = some o) :
    s.perform known job t wire heap root barrier = o := by
  unfold performWithin at ran
  unfold perform
  rcases found : s.codecs known t with ⟨e | set, s'⟩ <;> rw [found] at ran
  · exact Option.some.inj ran
  · exact runCodec_of_within ran

lemma result_of_within (steps : Nat) {r : Except SessionError Nat}
    (ran : (performWithin steps s known job t wire heap root barrier).map (·.result) = some r) :
    (s.perform known job t wire heap root barrier).result = r := by
  obtain ⟨o, within, result⟩ := Option.map_eq_some_iff.mp ran
  rw [perform_of_within within, result]

def decodeNewWithin (steps : Nat) (s : Session) (known : Registry) (t : TypeDesc) (wire : Bytes)
    (heap : Heap) (barrier : Bool) : Option (Outcome Decoded) :=
  match s.codecs known t with
  | (.error e, s) => some ⟨.error e, wire, heap, [], s⟩
  | (.ok set, s) =>
    match heap.alloc? set.type.size.toNat with
    | none => some ⟨.error (.codec ⟨.invalidLength, 0⟩), wire, heap, [], s⟩
    | some (root, heap) =>
      (runCodecWithin steps s known set .decode wire heap root barrier).map (·.map fun consumed => ⟨root, consumed⟩)

lemma decodeNew_of_within {o : Outcome Decoded} (ran : decodeNewWithin steps s known t wire heap barrier = some o) :
    s.decodeNew known t wire heap barrier = o := by
  unfold decodeNewWithin at ran
  unfold decodeNew
  rcases found : s.codecs known t with ⟨e | set, s'⟩ <;> rw [found] at ran
  · exact Option.some.inj ran
  · cases room : heap.alloc? set.type.size.toNat with
    | none =>
      simp only [room] at ran ⊢
      exact Option.some.inj ran
    | some block =>
      simp only [room] at ran ⊢
      obtain ⟨inner, whole, rfl⟩ := Option.map_eq_some_iff.mp ran
      rw [runCodec_of_within whole]

lemma decodeNew_view {α : Type} (steps : Nat) (view : Outcome Decoded → α) {a : α}
    (ran : (decodeNewWithin steps s known t wire heap barrier).map view = some a) :
    view (s.decodeNew known t wire heap barrier) = a := by
  obtain ⟨o, within, ends⟩ := Option.map_eq_some_iff.mp ran
  rw [decodeNew_of_within within, ends]

lemma decodeNew_ends (steps : Nat) {r : Except SessionError Decoded} {heap' : Heap}
    (ran : (decodeNewWithin steps s known t wire heap barrier).map (fun o => (o.result, o.heap)) =
      some (r, heap')) :
    (s.decodeNew known t wire heap barrier).result = r ∧
      (s.decodeNew known t wire heap barrier).heap = heap' :=
  Prod.ext_iff.mp (decodeNew_view steps _ ran)

def encodeBytesWithin (steps : Nat) (s : Session) (known : Registry) (t : TypeDesc) (heap : Heap)
    (root : UInt32) (barrier : Bool) : Option (Outcome (List UInt8)) := do
  let sized ← performWithin steps s known .measure t #[] heap root barrier
  match sized.result with
  | .error e => some { sized with result := .error e }
  | .ok size =>
    let written ← performWithin steps sized.session known .encode t (Array.replicate size 0) sized.heap root barrier
    some { written.map fun count => (written.wire.toList.take count) with
      stores := written.stores ++ sized.stores }

lemma encodeBytes_of_within {o : Outcome (List UInt8)}
    (ran : encodeBytesWithin steps s known t heap root barrier = some o) :
    s.encodeBytes known t heap root barrier = o := by
  obtain ⟨sized, measured, ran⟩ := Option.bind_eq_some_iff.mp ran
  have measured : s.encodedSize known t heap root barrier = sized := perform_of_within measured
  unfold encodeBytes
  rw [measured]
  cases result : sized.result with
  | error e =>
    simp only [result] at ran ⊢
    exact Option.some.inj ran
  | ok size =>
    simp only [result] at ran ⊢
    obtain ⟨written, wrote, ran⟩ := Option.bind_eq_some_iff.mp ran
    have wrote : sized.session.encode known t sized.heap root (Array.replicate size 0) barrier = written :=
      perform_of_within wrote
    rw [wrote]
    exact Option.some.inj ran

lemma encodeBytes_ends (steps : Nat) {r : Except SessionError (List UInt8)}
    (ran : (encodeBytesWithin steps s known t heap root barrier).map (·.result) = some r) :
    (s.encodeBytes known t heap root barrier).result = r := by
  obtain ⟨o, within, ends⟩ := Option.map_eq_some_iff.mp ran
  rw [encodeBytes_of_within within, ends]

end Session

lemma Registry.Has.mem {known : Registry} (has : known.Has t) : some t ∈ known.types :=
  Array.mem_of_getElem? (Option.join_eq_some_iff.mp has)

/-! A chain of numbers: every link has a number and may point to the next link. -/
namespace Chain

def number : TypeDesc := .scalar .i32 0
def link : TypeDesc := .pointer (.weak 2) 1
def node : TypeDesc := ⟨2, .struct, "Node", 8, 4, none, none, none,
  [⟨1, "value", .required, number, none, 0⟩, ⟨2, "next", .optional, link, none, 4⟩]⟩
def schema : Registry := ⟨#[some number, some link, some node]⟩

lemma built : schema.Built := by
  have made : TypeDesc.record "Node" [⟨1, "value", .required, number, none, 0⟩,
      ⟨2, "next", .optional, link, none, 0⟩] 2 = .ok node := rfl
  refine .define rfl ?_ made (.reserve (.weakPointer 2 (.scalar .i32 rfl .empty)))
  simp only [List.mem_cons, List.not_mem_nil, or_false, forall_eq_or_imp, forall_eq]
  exact ⟨rfl, rfl⟩

lemma has_node : schema.Has node := rfl

lemma eq_of_has (has : schema.Has t) : t = number ∨ t = link ∨ t = node := by
  simpa [schema] using has.mem

lemma regular : schema.Regular := by
  refine ⟨built, fun t has kind => ?_, fun t has => ?_, by decide⟩
  · rcases eq_of_has has with rfl | rfl | rfl
    · cases kind
    · exact ⟨node, rfl, rfl⟩
    · cases kind
  · rcases eq_of_has has with rfl | rfl | rfl <;> decide

lemma entriesFit : schema.EntriesFit := by
  intro t key elem has kind
  rcases eq_of_has has with rfl | rfl | rfl <;> cases kind

lemma size_lt (t : TypeDesc) (has : schema.Has t) : t.size.toNat < 2 ^ 31 := by
  rcases eq_of_has has with rfl | rfl | rfl <;> decide

/-- Options under which no link is handled in place. -/
def options : Options := { Options.default with backend := .interpreter, maxInlineDepth := 0 }

end Chain

/-! A pair that refers to a number through a pointer to a pointer, and has one in a cell. -/
namespace Relay

def number : TypeDesc := .scalar .i32 0
def holder : TypeDesc := ⟨1, .struct, "Holder", 4, 4, none, none, none,
  [⟨1, "value", .default, number, none, 0⟩]⟩
def link : TypeDesc := .pointer (.strong holder) 2
def far : TypeDesc := .pointer (.strong link) 3
def pair : TypeDesc := ⟨4, .struct, "Pair", 8, 4, none, none, none,
  [⟨1, "far", .default, far, none, 0⟩, ⟨2, "near", .optional, number, none, 4⟩]⟩
def schema : Registry := ⟨#[some number, some holder, some link, some far, some pair]⟩

lemma built : schema.Built := by
  have made : TypeDesc.record "Holder" [⟨1, "value", .default, number, none, 0⟩] 1 = .ok holder := rfl
  have made' : TypeDesc.record "Pair" [⟨1, "far", .default, far, none, 0⟩,
      ⟨2, "near", .optional, number, none, 0⟩] 4 = .ok pair := rfl
  have holders : Registry.Built ⟨#[some number, some holder]⟩ := by
    refine .define rfl ?_ made (.reserve (.scalar .i32 rfl .empty))
    simp only [List.mem_cons, List.not_mem_nil, or_false, forall_eq]
    rfl
  have links : Registry.Built ⟨#[some number, some holder, some link]⟩ :=
    .pointer (show Registry.Has ⟨#[some number, some holder]⟩ holder from rfl) holders
  refine .define rfl ?_ made' (.reserve (.pointer
    (show Registry.Has ⟨#[some number, some holder, some link]⟩ link from rfl) links))
  simp only [List.mem_cons, List.not_mem_nil, or_false, forall_eq_or_imp, forall_eq]
  exact ⟨rfl, rfl⟩

/-- An arena with a pair whose far number came first: the word of the pointer in between is that number. -/
def ahead : Heap := ⟨#[0, 0, 0, 0, 0, 0, 0, 0, 16, 0, 0, 0, 24, 0, 0, 0, 16, 0, 0, 0, 0, 0, 0, 0,
  7, 0, 0, 0, 0, 0, 0, 0]⟩

end Relay

end WireCodec
