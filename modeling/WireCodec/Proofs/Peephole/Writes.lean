import WireCodec.Proofs.Bytes
import WireCodec.Proofs.Peephole.Checks

/-! Shortened literals do what they did. The shortened code starts on a run of literals only
when the run is complete; until then it lags behind by the bytes collected. A run cut off by the
end of the wire is cut off in the shortened code too, but maybe not at the same byte. -/
namespace WireCodec.Peephole

open Machine List

variable {width : Width} {run tail : Instrs} {i : Instr Nat} {k pc stop start : Nat} {m m' : Machine}
  {marked : Bool} {rules : HandleTable}

variable {σ : Type} {table : HandleTable} {caller : Caller σ} {p : Program}
  {code code' : Instrs}

def IsWrite (i : Instr Nat) : Prop := ∃ width value, i = .writeImm width value

/-- A literal, or a no-op that fills its place. -/
def IsFiller (i : Instr Nat) : Prop := IsWrite i ∨ i = .nop

def written (run : Instrs) : List UInt8 := run.flatMap literalBytes

variable {data : List UInt8} {value : UInt64} {need : Nat}

lemma literalBytes_literal (length : data.length = width.bytes) : literalBytes (literal width data) = data := by
  have short : data.length ≤ 8 := by cases width <;> simp [length, Width.bytes]
  rw [literal, literalBytes, ← length, beBytes_beWord short]

lemma written_splitWrites (data : List UInt8) : written (splitWrites data) = data := by
  fun_induction splitWrites data with
  | case1 a b c d e f g h rest ih | case2 a b c d rest _ ih | case3 a b rest _ _ ih =>
    simp only [written, flatMap_cons] at ih ⊢
    rw [ih, literalBytes_literal rfl]
    rfl
  | case4 a =>
    simp only [written, flatMap_cons, flatMap_nil, append_nil]
    exact literalBytes_literal rfl
  | case5 => rfl

lemma isWrite_splitWrites (data : List UInt8) : ∀ i ∈ splitWrites data, IsWrite i := by
  fun_induction splitWrites data with
  | case1 a b c d e f g h rest ih | case2 a b c d rest _ ih | case3 a b rest _ _ ih =>
    exact List.forall_mem_cons.mpr ⟨⟨_, _, rfl⟩, ih⟩
  | case4 a => exact List.forall_mem_cons.mpr ⟨⟨_, _, rfl⟩, by simp⟩
  | case5 => simp

lemma length_shortenRun (run : Instrs) : (shortenRun run).length = run.length := by
  unfold shortenRun
  simp only
  split
  · simp
    omega
  · rfl

lemma written_shortenRun (run : Instrs) : written (shortenRun run) = written run := by
  unfold shortenRun
  simp only
  split
  · rw [written, flatMap_append, ← written, ← written, ← written, written_splitWrites]
    simp [written, literalBytes]
  · rfl

lemma isFiller_shortenRun (writes : ∀ i ∈ run, IsWrite i) : ∀ i ∈ shortenRun run, IsFiller i := by
  unfold shortenRun
  simp only
  split
  · intro i mem
    rcases List.mem_append.mp mem with mem | mem
    · exact .inl (isWrite_splitWrites _ i mem)
    · exact .inr (eq_of_mem_replicate mem)
  · exact fun i mem => .inl (writes i mem)

/-! The equations of the pass. -/

lemma shortenWritesFrom_other (noWrite : ¬ IsWrite i) (run : Instrs) (marked : Bool) (rest : Marked) : shortenWritesFrom
    run ((i, marked) :: rest) = shortenRun run.reverse ++ i :: shortenWritesFrom [] rest := by
  cases i with
  | writeImm width value => exact absurd ⟨width, value, rfl⟩ noWrite
  | _ => rfl

lemma shortenWritesFrom_marked (write : IsWrite i) (run : Instrs) (rest : Marked) :
    shortenWritesFrom run ((i, true) :: rest) = shortenRun run.reverse ++ shortenWritesFrom [i] rest := by
  obtain ⟨width, value, rfl⟩ := write
  simp [shortenWritesFrom]

lemma shortenWritesFrom_unmarked (write : IsWrite i) (run : Instrs) (rest : Marked) :
    shortenWritesFrom run ((i, false) :: rest) = shortenWritesFrom (i :: run) rest := by
  obtain ⟨width, value, rfl⟩ := write
  simp [shortenWritesFrom]

lemma shortenWritesFrom_start (write : IsWrite i) (marked : Bool) (rest : Marked) :
    shortenWritesFrom [] ((i, marked) :: rest) = shortenWritesFrom [i] rest := by
  cases marked with
  | true => rw [shortenWritesFrom_marked write]; rfl
  | false => exact shortenWritesFrom_unmarked write [] rest

lemma shortenWritesFrom_append (run : Instrs) (front : Marked) {rest : Marked}
    (opens : ∀ x ∈ rest.head?, IsWrite x.1 → x.2 = true) :
    shortenWritesFrom run (front ++ rest) = shortenWritesFrom run front ++ shortenWrites rest := by
  induction front generalizing run with
  | nil =>
    cases rest with
    | nil => exact (append_nil _).symm
    | cons head rest =>
      obtain ⟨i, marked⟩ := head
      by_cases write : IsWrite i
      · cases opens _ rfl write
        rw [nil_append, shortenWritesFrom_marked write, shortenWrites, shortenWritesFrom_start write]
        rfl
      · rw [nil_append, shortenWritesFrom_other write, shortenWrites, shortenWritesFrom_other write]
        rfl
  | cons head front ih =>
    obtain ⟨i, marked⟩ := head
    by_cases write : IsWrite i
    · cases marked with
      | true => rw [cons_append, shortenWritesFrom_marked write, ih, shortenWritesFrom_marked write, append_assoc]
      | false => rw [cons_append, shortenWritesFrom_unmarked write, ih, shortenWritesFrom_unmarked write]
    · rw [cons_append, shortenWritesFrom_other write, ih, shortenWritesFrom_other write, append_assoc, cons_append]

/-- Runs of literals are shortened, everything else stays. -/
inductive Shortened : Instrs → Instrs → Prop
  | nil : Shortened [] []
  | run {run code code' : Instrs} (writes : ∀ i ∈ run, IsWrite i) (rest : Shortened code code') :
      Shortened (run ++ code) (shortenRun run ++ code')
  | keep {code code' : Instrs} (i : Instr Nat) (rest : Shortened code code') : Shortened (i :: code) (i :: code')

lemma shortened_shortenWritesFrom (writes : ∀ i ∈ run, IsWrite i) (rest : Marked) :
    Shortened (run.reverse ++ rest.map Prod.fst) (shortenWritesFrom run rest) := by
  have writes' : ∀ i ∈ run.reverse, IsWrite i := fun i mem => writes i (List.mem_reverse.mp mem)
  induction rest generalizing run with
  | nil => simpa [shortenWritesFrom] using Shortened.run writes' .nil
  | cons head rest ih =>
    obtain ⟨i, marked⟩ := head
    by_cases write : IsWrite i
    · cases marked with
      | true =>
        rw [shortenWritesFrom_marked write]
        exact .run writes' (@ih [i] (by simpa using write) (by simpa using write))
      | false =>
        have more := List.forall_mem_cons.mpr ⟨write, writes⟩
        rw [shortenWritesFrom_unmarked write]
        simpa using ih more fun i mem => more i (List.mem_reverse.mp mem)
    · rw [shortenWritesFrom_other write]
      exact .run writes' (.keep i (@ih [] (by simp) (by simp)))

lemma shortened_shortenWrites (code : Instrs) : Shortened code (shortenWrites (mark code)) := by
  have shortened := @shortened_shortenWritesFrom [] (by simp) (mark code)
  rwa [reverse_nil, nil_append, map_fst_mark] at shortened

lemma Shortened.length (shortened : Shortened code code') : code'.length = code.length := by
  induction shortened with
  | nil => rfl
  | run writes rest ih => rw [length_append, length_append, length_shortenRun, ih]
  | keep i rest ih => rw [length_cons, length_cons, ih]

lemma length_shortenWrites (code : Marked) : (shortenWrites code).length = code.length := by
  simpa [shortenWrites] using (@shortened_shortenWritesFrom [] (by simp) code).length

lemma drop_shortenWrites {code : Marked} (at_ : code[k]? = some (i, true)) :
    (shortenWrites code).drop k = shortenWrites (code.drop k) := by
  have opens : ∀ x ∈ (code.drop k).head?, IsWrite x.1 → x.2 = true := by
    intro x mem _
    rw [head?_drop, at_] at mem
    cases mem
    rfl
  have low := (List.getElem?_eq_some_iff.mp at_).1
  have split := shortenWritesFrom_append [] (code.take k) opens
  rw [take_append_drop] at split
  rw [shortenWrites, split, drop_left']
  exact (length_shortenWrites _).trans (length_take_of_le low.le)

/-- The run goes on with more literals and is then shortened as a whole. -/
lemma shortenWritesFrom_whole (run : Instrs) (rest : Marked) : ∃ more tail, (∀ i ∈ more, IsWrite i) ∧ shortenWritesFrom
    run rest = shortenRun (run.reverse ++ more) ++ tail := by
  induction rest generalizing run with
  | nil => exact ⟨[], [], by simp, by simp [shortenWritesFrom]⟩
  | cons head rest ih =>
    obtain ⟨j, marked⟩ := head
    by_cases write : IsWrite j
    · cases marked with
      | true =>
        refine ⟨[], shortenWritesFrom [j] rest, by simp, ?_⟩
        rw [shortenWritesFrom_marked write, append_nil]
      | false =>
        obtain ⟨more, tail, writes, eq⟩ := ih (j :: run)
        refine ⟨j :: more, tail, List.forall_mem_cons.mpr ⟨write, writes⟩, ?_⟩
        rw [shortenWritesFrom_unmarked write, eq]
        simp
    · refine ⟨[], j :: shortenWritesFrom [] rest, by simp, ?_⟩
      rw [shortenWritesFrom_other write, append_nil]

/-! Runs of literals. -/

lemma putWire_nil (m : Machine) : m.putWire [] = m := by
  simp [putWire, patch]

lemma toNat_pos_putWire (clean : m.ctx.Clean) (fits : m.ctx.pos.toNat + data.length ≤ m.ctx.wire.size) :
    (m.putWire data).ctx.pos.toNat = m.ctx.pos.toNat + data.length := by
  have block := clean.wireFits
  simp only [maxBlock] at block
  simp only [putWire, UInt64.toNat_add, Nat.toUInt64, UInt64.toNat_ofNat']
  omega

lemma size_wire_putWire (m : Machine) (data : List UInt8) :
    (m.putWire data).ctx.wire.size = m.ctx.wire.size := size_patch _ _ _

lemma putWire_append {a b : List UInt8} (fits : m.ctx.pos.toNat + a.length ≤ m.ctx.wire.size) (clean : m.ctx.Clean) :
    (m.putWire a).putWire b = m.putWire (a ++ b) := by
  have moved : (m.ctx.pos + a.length.toUInt64).toNat = m.ctx.pos.toNat + a.length := toNat_pos_putWire clean fits
  have length : (a.length + b.length).toUInt64 = a.length.toUInt64 + b.length.toUInt64 := by
    simp [Nat.toUInt64, UInt64.ofNat_add]
  simp only [putWire, moved, patch_append, length_append, length, UInt64.add_assoc]

lemma clean_putWire (clean : m.ctx.Clean) (data : List UInt8) : (m.putWire data).ctx.Clean :=
  ⟨clean.noError, clean.noFault, by simpa [putWire, size_patch] using clean.wireFits⟩

lemma stepAny_writeImm {eof : ErrorCode} (width : Width) (value : UInt64) (m : Machine) (s : σ) :
    stepAny table caller eof (.writeImm width value) m s = some (.ok (if m.ctx.pos.toNat + width.bytes ≤ m.ctx.wire.size
        then (.next, m.putWire (literalBytes (.writeImm width value)), s)
        else (.stop, { m with ctx := m.ctx.fail eof }, s))) := by
  simp only [stepAny, step, writeWord, Context.fits, toNat_widthWord64, decide_eq_true_eq, fail, literalBytes]
  split <;> rfl

lemma length_literalBytes (width : Width) (value : UInt64) :
    (literalBytes (.writeImm width value)).length = width.bytes :=
  length_beBytes _ _

lemma written_cons (i : Instr Nat) (run : Instrs) : written (i :: run) = literalBytes i ++ written run := by
  simp [written]

lemma halts_written (fillers : ∀ i ∈ run, IsFiller i) {s : σ} {f : Finished σ} (here : code.drop pc = run ++ tail)
    (clean : m.ctx.Clean) (fits : m.ctx.pos.toNat + (written run).length ≤ m.ctx.wire.size)
    (rest : Halts table caller (p.withCode code) (pc + run.length) (m.putWire (written run)) s stop f) :
    Halts table caller (p.withCode code) pc m s stop f := by
  induction run generalizing pc m with
  | nil => simpa [written, putWire_nil] using rest
  | cons i run ih =>
    obtain ⟨fill, others⟩ := List.forall_mem_cons.mp fillers
    obtain ⟨at_, after⟩ := getElem?_of_drop here
    have place : (p.withCode code).code[pc]? = some i := by simpa using at_
    rw [written_cons, length_append] at fits
    rw [written_cons, ← putWire_append (by omega) clean, length_cons,
      show pc + (run.length + 1) = pc + 1 + run.length by omega] at rest
    have size := size_wire_putWire m (literalBytes i)
    have moved := toNat_pos_putWire clean (show m.ctx.pos.toNat + (literalBytes i).length ≤ _ by omega)
    have go := ih others after (clean_putWire clean (literalBytes i)) (by omega) rest
    rcases fill with ⟨width, value, rfl⟩ | rfl
    · refine .next place ?_ go
      rw [length_literalBytes] at fits
      rw [stepAny_writeImm, if_pos (by omega)]
    · rw [show literalBytes .nop = [] from rfl, putWire_nil] at go
      exact .next place (stepAny_nop _ _) go

lemma cut_written (fillers : ∀ i ∈ run, IsFiller i) {s : σ} (here : code.drop pc = run ++ tail) (clean : m.ctx.Clean)
    (low : m.ctx.pos.toNat ≤ m.ctx.wire.size ∨ written run ≠ [])
    (short : m.ctx.wire.size < m.ctx.pos.toNat + (written run).length) : ∃ stop f, Halts table caller (p.withCode code)
    pc m s stop f ∧ CutShort p.job.eofCode f ∧ f.state = s := by
  induction run generalizing pc m with
  | nil =>
    simp only [written, flatMap_nil, length_nil] at low short
    rcases low with low | some_
    · omega
    · exact absurd rfl some_
  | cons i run ih =>
    obtain ⟨fill, others⟩ := List.forall_mem_cons.mp fillers
    obtain ⟨at_, after⟩ := getElem?_of_drop here
    have place : (p.withCode code).code[pc]? = some i := by simpa using at_
    rw [written_cons, length_append] at short
    rcases fill with ⟨width, value, rfl⟩ | rfl
    · by_cases fits : m.ctx.pos.toNat + width.bytes ≤ m.ctx.wire.size
      · rw [← length_literalBytes width value] at fits
        obtain ⟨stop, f, go, cut⟩ := ih others after (clean_putWire clean _)
          (.inl (by rwa [toNat_pos_putWire clean fits, size_wire_putWire]))
          (by rw [toNat_pos_putWire clean fits, size_wire_putWire]; omega)
        refine ⟨stop, f, .next place ?_ go, cut⟩
        rw [length_literalBytes] at fits
        rw [stepAny_writeImm, if_pos fits]
      · have step : stepAny table caller p.job.eofCode (.writeImm width value) m s =
            some (.ok (.stop, { m with ctx := m.ctx.fail p.job.eofCode }, s)) := by
          rw [stepAny_writeImm, if_neg fits]
        have failed : CutBehind p.job.eofCode 0 m.ctx.wire s ⟨.stopped, m.ctx.fail p.job.eofCode, s⟩ :=
          cutBehind_fail clean (Nat.zero_le _)
        exact ⟨pc, _, Halts.stop place step, failed.cut, rfl⟩
    · obtain ⟨stop, f, go, cut⟩ := ih others after clean low (by simpa [literalBytes] using short)
      exact ⟨stop, f, .next place (stepAny_nop _ _) go, cut⟩

/-- The shortened code at `start`, where `run` was opened; the machine there is `m'`, and `m` has
written the run already. -/
structure Lags (code : Instrs) (start pc : Nat) (run : Instrs)
    (m m' : Machine) : Prop where
  place : start + run.length = pc
  shortened : (shortenWrites (mark code)).drop start = shortenWritesFrom run ((mark code).drop pc)
  writes : ∀ i ∈ run, IsWrite i
  clean : m'.ctx.Clean
  fits : m'.ctx.pos.toNat + (written run.reverse).length ≤ m'.ctx.wire.size ∨ run = []
  ahead : m = m'.putWire (written run.reverse)

lemma Lags.writes_reverse (h : Lags code start pc run m m') : ∀ i ∈ run.reverse, IsWrite i :=
  fun i mem => h.writes i (List.mem_reverse.mp mem)

lemma lags_start (clean : m.ctx.Clean)
    (here : (shortenWrites (mark code)).drop pc = shortenWritesFrom [] ((mark code).drop pc)) :
    Lags code pc pc [] m m :=
  ⟨rfl, here, by simp, clean, .inr rfl, by simp [written, putWire_nil]⟩

lemma lags_target {t : Nat} (clean : m.ctx.Clean) (lead : code[pc]? = some i) (mem : t ∈ i.targets)
    (low : t < code.length) : Lags code t t [] m m := by
  obtain ⟨j, _, marked⟩ := mark_target lead mem low
  exact lags_start clean (drop_shortenWrites marked)

section

variable (h : Lags code start pc run m m')
  (ended : shortenWritesFrom run ((mark code).drop pc) = shortenRun run.reverse ++ tail)
include h ended

/-- Where the run is over it has been written out in its shortened form. -/
lemma Lags.flush {s : σ} {f : Finished σ}
    (rest : Halts table caller (p.withCode (shortenWrites (mark code))) pc m s stop f) :
    Halts table caller (p.withCode (shortenWrites (mark code))) start m' s stop f := by
  rcases h.fits with fits | rfl
  · have here := h.shortened.trans ended
    have fillers := isFiller_shortenRun h.writes_reverse
    rw [h.ahead, ← written_shortenRun, ← h.place, ← @List.length_reverse _ run, ← length_shortenRun] at rest
    exact halts_written fillers here h.clean (by rwa [written_shortenRun]) rest
  · have place := h.place
    have ahead := h.ahead
    rw [length_nil, Nat.add_zero] at place
    rw [reverse_nil, written, flatMap_nil, putWire_nil] at ahead
    rwa [place, ← ahead]

lemma Lags.drop_over : (shortenWrites (mark code)).drop pc = tail := by
  have length : (shortenRun run.reverse).length = run.length := by
    rw [length_shortenRun, length_reverse]
  rw [← h.place, ← drop_drop, h.shortened, ended, ← length, drop_left]

end

lemma written_reverse_cons (i : Instr Nat) (run : Instrs) :
    written (i :: run).reverse = written run.reverse ++ literalBytes i := by
  simp [written]

section

variable (h : Lags code start pc run m m')
include h

lemma Lags.next_write (here : (mark code).drop pc = (i, marked) :: (mark code).drop (pc + 1)) (write : IsWrite i)
    (stays : marked = false ∨ run = []) : (shortenWrites (mark code)).drop start = shortenWritesFrom (i :: run)
    ((mark code).drop (pc + 1)) := by
  rw [h.shortened, here]
  rcases stays with rfl | rfl
  · exact shortenWritesFrom_unmarked write run _
  · exact shortenWritesFrom_start write marked _

lemma Lags.write (here : (mark code).drop pc = (.writeImm width value, marked) :: (mark code).drop (pc + 1))
    (stays : marked = false ∨ run = []) (fits : m.ctx.pos.toNat + width.bytes ≤ m.ctx.wire.size) : Lags code start
    (pc + 1) (.writeImm width value :: run) (m.putWire (literalBytes (.writeImm width value))) m' := by
  have write : IsWrite (.writeImm width value) := ⟨width, value, rfl⟩
  have more := length_literalBytes width value
  refine ⟨?_, h.next_write here write stays, List.forall_mem_cons.mpr ⟨write, h.writes⟩, h.clean, .inl ?_, ?_⟩
  · rw [length_cons, ← Nat.add_assoc, h.place]
  · rw [written_reverse_cons, length_append, more]
    rcases h.fits with within | rfl
    · rw [h.ahead, toNat_pos_putWire h.clean within, size_wire_putWire] at fits
      omega
    · have ahead := h.ahead
      rw [reverse_nil, written, flatMap_nil, putWire_nil] at ahead
      simpa [written, ← ahead] using fits
  · rw [written_reverse_cons]
    rcases h.fits with within | rfl
    · rw [← putWire_append within h.clean, ← h.ahead]
    · have ahead := h.ahead
      rw [reverse_nil, written, flatMap_nil, putWire_nil] at ahead
      simp [written, ← ahead]

lemma Lags.settle (here : (mark code).drop pc = (i, marked) :: (mark code).drop (pc + 1)) (write : IsWrite i) : ∃ start₁
    run₁ m₁, Lags code start₁ pc run₁ m m₁ ∧ (marked = false ∨ run₁ = []) ∧ ∀ (s : σ) stop f, Halts table caller
    (p.withCode (shortenWrites (mark code))) start₁ m₁ s stop f → Halts table caller
    (p.withCode (shortenWrites (mark code))) start m' s stop f := by
  cases marked with
  | false => exact ⟨start, run, m', h, .inl rfl, fun _ _ _ halts => halts⟩
  | true =>
    have ended : shortenWritesFrom run ((mark code).drop pc) =
        shortenRun run.reverse ++ shortenWritesFrom [] ((mark code).drop pc) := by
      rw [here, shortenWritesFrom_marked write, shortenWritesFrom_start write]
    have clean : m.ctx.Clean := h.ahead ▸ clean_putWire h.clean _
    exact ⟨pc, [], m, lags_start clean (h.drop_over ended), .inr rfl, fun _ _ _ => h.flush ended⟩

lemma Lags.cut {s : σ} (here : (mark code).drop pc = (.writeImm width value, marked) :: (mark code).drop (pc + 1))
    (stays : marked = false ∨ run = []) (short : ¬ m.ctx.pos.toNat + width.bytes ≤ m.ctx.wire.size) : ∃ stop f, Halts
    table caller (p.withCode (shortenWrites (mark code))) start m' s stop f ∧ CutShort p.job.eofCode f ∧ f.state =
    s := by
  have write : IsWrite (.writeImm width value) := ⟨width, value, rfl⟩
  obtain ⟨more, tail, writes, whole⟩ :=
    shortenWritesFrom_whole (.writeImm width value :: run) ((mark code).drop (pc + 1))
  have placed := (h.next_write here write stays).trans whole
  have all : ∀ i ∈ (Instr.writeImm width value :: run).reverse ++ more, IsWrite i := by
    intro i mem
    rcases List.mem_append.mp mem with mem | mem
    · rcases List.mem_cons.mp (List.mem_reverse.mp mem) with rfl | mem
      · exact write
      · exact h.writes i mem
    · exact writes i mem
  have bytes : written ((Instr.writeImm width value :: run).reverse ++ more) =
      written run.reverse ++ (literalBytes (.writeImm width value) ++ written more) := by
    rw [written, flatMap_append, ← written, ← written, written_reverse_cons, append_assoc]
  have length := length_literalBytes width value
  have positive : 0 < width.bytes := by cases width <;> decide
  refine cut_written (isFiller_shortenRun all) placed h.clean (.inr ?_) ?_
  · rw [written_shortenRun, bytes, ← length_pos_iff]
    simp only [length_append]
    omega
  · rw [written_shortenRun, bytes]
    simp only [length_append]
    rcases h.fits with within | rfl
    · rw [h.ahead, toNat_pos_putWire h.clean within, size_wire_putWire] at short
      omega
    · have ahead := h.ahead
      rw [reverse_nil, written, flatMap_nil, putWire_nil] at ahead
      rw [ahead] at short
      omega

lemma Lags.other (at_ : code[pc]? = some i) (noWrite : ¬ IsWrite i) :
    (shortenWrites (mark code))[pc]? = some i ∧ (shortenWrites (mark code)).drop (pc + 1) = shortenWritesFrom []
    ((mark code).drop (pc + 1)) ∧ ∀ (s : σ) stop f, Halts table caller (p.withCode (shortenWrites (mark code))) pc m s
    stop f → Halts table caller (p.withCode (shortenWrites (mark code))) start m' s stop f := by
  obtain ⟨marked, here⟩ := drop_mark_cons at_
  have ended : shortenWritesFrom run ((mark code).drop pc) =
      shortenRun run.reverse ++ i :: shortenWritesFrom [] ((mark code).drop (pc + 1)) := by
    rw [here, shortenWritesFrom_other noWrite]
  obtain ⟨place, after⟩ := getElem?_of_drop (h.drop_over ended)
  exact ⟨place, after, fun _ _ _ => h.flush ended⟩

end

lemma halts_shortenWrites (lawful : Lawful rules code) (keeps : caller.KeepsClean) {s : σ} {f : Finished σ}
    (halts : Halts table caller (p.withCode code) pc m s stop f) (lags : Lags code start pc run m m')
    (low : pc < code.length) : ∃ stop' f', Halts table caller (p.withCode (shortenWrites (mark code))) start m' s stop'
    f' ∧ Refines p.job.eofCode (IsLiteral code stop) (IsLiteral (shortenWrites (mark code)) stop') f f' := by
  -- By induction on the run; a literal only makes the shortened code lag behind further.
  induction halts generalizing start run m' with
  | off at_ =>
    simp only [Program.withCode_getElem?, getElem?_eq_none_iff] at at_
    omega
  | @ended pc m s i f at_ step =>
    rw [Program.withCode_getElem?] at at_
    have noWrite : ¬ IsWrite i := by
      rintro ⟨width, value, rfl⟩
      rw [stepAny_writeImm] at step
      cases step
    obtain ⟨here, _, back⟩ := lags.other at_ noWrite
    refine ⟨pc, f, back _ _ _ (.ended (by simpa using here) step), .same rfl ?_⟩
    rintro ⟨width, value, there⟩
    exact ⟨width, value, at_.trans (here.symm.trans there)⟩
  | @stop pc m m₁ s s₁ i at_ step =>
    rw [Program.withCode_getElem?] at at_
    have clean : m.ctx.Clean := lags.ahead ▸ clean_putWire lags.clean _
    by_cases write : IsWrite i
    · obtain ⟨marked, here⟩ := drop_mark_cons at_
      obtain ⟨start₁, run₁, m₂, lags₁, stays, back⟩ := lags.settle here write
      obtain ⟨width, value, rfl⟩ := write
      rw [stepAny_writeImm] at step
      split at step
      · cases step
      · rename_i short
        cases step
        obtain ⟨stop', f', halts', cut, state⟩ := lags₁.cut here stays short
        have failed : CutBehind p.job.eofCode 0 m.ctx.wire s
            ⟨.stopped, m.ctx.fail p.job.eofCode, s⟩ := cutBehind_fail clean (Nat.zero_le _)
        exact ⟨stop', f', back _ _ _ halts', .short failed.cut cut state fun no => absurd ⟨width, value, at_⟩ no⟩
    · obtain ⟨here, _, back⟩ := lags.other at_ write
      refine ⟨pc, _, back _ _ _ (.stop (by simpa using here) step), .same rfl ?_⟩
      rintro ⟨width, value, there⟩
      exact ⟨width, value, at_.trans (here.symm.trans there)⟩
  | @next pc stop m m₁ s s₁ i f at_ step _ ih =>
    rw [Program.withCode_getElem?] at at_
    have clean : m.ctx.Clean := lags.ahead ▸ clean_putWire lags.clean _
    have goesOn : i ≠ .halt := by
      rintro rfl
      cases step
    obtain ⟨j, next⟩ := lawful.succ at_ goesOn
    have low' := (List.getElem?_eq_some_iff.mp next).1
    by_cases write : IsWrite i
    · obtain ⟨marked, here⟩ := drop_mark_cons at_
      obtain ⟨start₁, run₁, m₂, lags₁, stays, back⟩ := lags.settle here write
      obtain ⟨width, value, rfl⟩ := write
      rw [stepAny_writeImm] at step
      split at step
      · rename_i fits
        cases step
        obtain ⟨stop', f', halts', refines⟩ := ih (lags₁.write here stays fits) low'
        exact ⟨stop', f', back _ _ _ halts', refines⟩
      · cases step
    · obtain ⟨here, after, back⟩ := lags.other at_ write
      have clean' := (stepAny_goes keeps clean step (by simp)).clean clean
      obtain ⟨stop', f', halts', refines⟩ := ih (lags_start clean' after) low'
      exact ⟨stop', f', back _ _ _ (.next (by simpa using here) step halts'), refines⟩
  | @jump pc target stop m m₁ s s₁ i f at_ step _ ih =>
    rw [Program.withCode_getElem?] at at_
    have clean : m.ctx.Clean := lags.ahead ▸ clean_putWire lags.clean _
    have noWrite : ¬ IsWrite i := by
      rintro ⟨width, value, rfl⟩
      rw [stepAny_writeImm] at step
      split at step <;> cases step
    have mem := stepAny_jump step
    have low' := lawful.target at_ mem
    obtain ⟨here, _, back⟩ := lags.other at_ noWrite
    have clean' := (stepAny_goes keeps clean step (by simp)).clean clean
    obtain ⟨stop', f', halts', refines⟩ := ih (lags_target clean' at_ mem low') low'
    exact ⟨stop', f', back _ _ _ (.jump (by simpa using here) step halts'), refines⟩

lemma matches_shortenWrites (lawful : Lawful rules code) (keeps : caller.KeepsClean) :
    Matches table caller p code (shortenWrites (mark code)) := by
  intro m s stop f clean halts _
  obtain ⟨stop', f', halts', refines⟩ := halts_shortenWrites lawful keeps halts (lags_start clean rfl) lawful.pos
  exact ⟨stop', f', halts', .refines refines⟩

/-! The rules, and what is asked of the wire. -/

lemma variants_fillers {run' : Instrs} (writes : ∀ i ∈ run, IsWrite i) (fillers : ∀ i ∈ run', IsFiller i)
    (length : run'.length = run.length) : List.Forall₂ Instr.Variant run run' := by
  induction run generalizing run' with
  | nil =>
    rw [List.length_eq_zero_iff.mp length]
    exact .nil
  | cons i run ih =>
    cases run' with
    | nil => cases length
    | cons j run' =>
      obtain ⟨⟨width, value, rfl⟩, writes'⟩ := List.forall_mem_cons.mp writes
      obtain ⟨fill, fillers'⟩ := List.forall_mem_cons.mp fillers
      refine .cons ?_ (ih writes' fillers' (Nat.succ.inj length))
      rcases fill with ⟨width', value', rfl⟩ | rfl
      · refine ⟨rfl, fun _ _ _ => ⟨.inr rfl, rfl, ?_⟩⟩
        simp [Instr.targets]
      · exact Instr.variant_nop rfl

lemma Shortened.variants (shortened : Shortened code code') : List.Forall₂ Instr.Variant code code' := by
  induction shortened with
  | nil => exact .nil
  | run writes rest ih =>
    exact rel_append (variants_fillers writes (isFiller_shortenRun writes) (length_shortenRun _)) ih
  | keep i rest ih => exact .cons (.refl i) ih

lemma pace_write (width : Width) (value : UInt64) : pace (.writeImm width value) = .moves width.bytes.toUInt32 := rfl

lemma demand_fillers (fillers : ∀ i ∈ run, IsFiller i) (rest : Instrs) :
    demand? ((run ++ rest).map pace) = (demand? (rest.map pace)).map ((written run).length + ·) := by
  induction run with
  | nil => cases h : demand? (rest.map pace) <;> simp [written, h]
  | cons i run ih =>
    obtain ⟨fill, others⟩ := List.forall_mem_cons.mp fillers
    rw [cons_append, map_cons, written_cons, length_append]
    rcases fill with ⟨width, value, rfl⟩ | rfl
    · rw [pace_write, demand?, ih others, Option.map_map, toNat_widthWord, length_literalBytes]
      congr 1
      funext n
      simp only [Function.comp_apply]
      omega
    · rw [show pace .nop = .moves 0 from rfl, demand?, ih others, Option.map_map]
      congr 1
      funext n
      simp [literalBytes]

lemma Shortened.demand (shortened : Shortened code code') : demand? (code'.map pace) = demand? (code.map pace) := by
  induction shortened with
  | nil => rfl
  | run writes rest ih =>
    rw [demand_fillers (isFiller_shortenRun writes), written_shortenRun,
      demand_fillers fun i mem => .inl (writes i mem), ih]
  | keep i rest ih =>
    simp only [map_cons]
    cases pace i <;> simp only [demand?, ih]

lemma written_drop_le (run : Instrs) (k : Nat) : (written (run.drop k)).length ≤ (written run).length := by
  induction run generalizing k with
  | nil => simp
  | cons i run ih =>
    cases k with
    | zero => exact le_rfl
    | succ k =>
      rw [drop_succ_cons, written_cons, length_append]
      exact le_trans (ih k) (Nat.le_add_left _ _)

lemma demand_drop_shortenRun (writes : ∀ i ∈ run, IsWrite i) {tail' : Instrs}
    (same : demand? (tail.map pace) = demand? (tail'.map pace)) (inside : k ≤ run.length)
    (asked : demand? (((shortenRun run ++ tail).drop k).map pace) = some need) :
    ∃ more, demand? ((run ++ tail').map pace) = some more ∧ need ≤ more := by
  rw [drop_append_of_le_length (by rwa [length_shortenRun])] at asked
  have fillers : ∀ i ∈ (shortenRun run).drop k, IsFiller i :=
    fun i mem => isFiller_shortenRun writes i (mem_of_mem_drop mem)
  rw [demand_fillers fillers] at asked
  obtain ⟨later, eq, rfl⟩ := Option.map_eq_some_iff.mp asked
  refine ⟨(written run).length + later, ?_, ?_⟩
  · rw [demand_fillers fun i mem => .inl (writes i mem), ← same, eq]
    rfl
  · have := written_drop_le (shortenRun run) k
    rw [written_shortenRun] at this
    omega

lemma Shortened.demand_drop (shortened : Shortened code code') (asked : demand? ((code'.drop k).map pace) = some need) :
    ∃ k' more, demand? ((code.drop k').map pace) = some more ∧ need ≤ more := by
  -- Inside a run it is the run's start that asked for as much; behind it the rest did.
  induction shortened generalizing k with
  | nil => exact ⟨k, need, asked, le_rfl⟩
  | @run run code code' writes rest ih =>
    by_cases inside : k ≤ run.length
    · obtain ⟨more, eq, le⟩ := demand_drop_shortenRun writes rest.demand inside asked
      exact ⟨0, more, eq, le⟩
    · obtain ⟨j, rfl⟩ : ∃ j, k = run.length + j := ⟨k - run.length, by omega⟩
      rw [← length_shortenRun, ← drop_drop, drop_left] at asked
      obtain ⟨k', more, eq, le⟩ := ih asked
      refine ⟨run.length + k', more, ?_, le⟩
      rw [← drop_drop, drop_left, eq]
  | keep i rest ih =>
    cases k with
    | zero => exact ⟨0, need, (Shortened.keep i rest).demand ▸ asked, le_rfl⟩
    | succ k =>
      obtain ⟨k', more, eq, le⟩ := ih asked
      exact ⟨k' + 1, more, eq, le⟩

lemma bounded_shortenWrites {size : Nat} (bounded : Bounded size code) : Bounded size (shortenWrites (mark code)) := by
  intro k need asked
  obtain ⟨k', more, eq, le⟩ := (shortened_shortenWrites code).demand_drop asked
  exact (bounded k' more eq).mono le

end WireCodec.Peephole
