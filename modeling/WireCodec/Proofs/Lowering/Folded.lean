import WireCodec.Proofs.Lowering.Finish
import WireCodec.Proofs.Peephole.Folding

/-! Pieces with their checks folded. Folding goes through the way pieces are put together as
long as no run of checks is open between two pieces, or the second one has no check in its
run. Where no run is open at the places branches lead to, folding a finished program is
finishing the folded code. -/
namespace WireCodec.Lowering

open Peephole List

variable {piece body : Piece} {made instrs front : Code} {α : Type} {rest : List Piece}
  {branch back : Dest → Instr Dest} {check : LowerM α} {start : Nat} {table : TypeTable} {place : Nat}

/-- A piece with its checks folded, where a run of checks may be open before it. -/
def foldFrom (run : Option UInt32) (piece : Piece) : Piece := fun start => do
  return (fold nothing run (← piece start)).2

lemma foldFrom_eq_ok {run : Option UInt32} {table' : TypeTable} : foldFrom run piece start table = .ok made table' ↔ ∃
    plain, piece start table = .ok plain table' ∧ made = (fold nothing run plain).2 := by
  simp only [foldFrom, lower_bind]
  constructor
  · rintro ⟨plain, mid, ok, done⟩
    cases done
    exact ⟨plain, ok, rfl⟩
  · rintro ⟨plain, ok, rfl⟩
    exact ⟨plain, table', ok, rfl⟩

def Always (holds : Code → Prop) (piece : Piece) : Prop :=
  ∀ start table made table', piece start table = .ok made table' → holds made

/-- No run of checks is open behind the piece. -/
def Shuts (run : Option UInt32) (piece : Piece) : Prop :=
  Always (fun made => openAfter run made = none) piece

/-- The piece has no check in a run that is open before it. -/
def Hushed (piece : Piece) : Prop := Always (Quiet nothing) piece

section Always

variable {holds holds' whole : Code → Prop}

lemma always_code (ok : holds instrs) : Always holds (code instrs) := by
  intro start table made table' made_
  obtain ⟨rfl, rfl⟩ := code_eq_ok.mp made_
  exact ok

lemma always_withM {body : α → Piece} (each : ∀ a, Always holds (body a)) : Always holds (withM check body) := by
  intro start table made table' made_
  obtain ⟨a, mid, _, ok⟩ := withM_eq_ok.mp made_
  exact each a start mid made table' ok

lemma always_seq {both : Code → Prop} (first : Always holds piece) (after : Always holds' (seq rest))
    (join : ∀ front back, holds front → holds' back → both (front ++ back)) : Always both (seq (piece :: rest)) := by
  intro start table made table' made_
  obtain ⟨front, mid, back, ok, ok', rfl⟩ := seq_cons_eq_ok.mp made_
  exact join front back (first _ _ _ _ ok) (after _ _ _ _ ok')

lemma always_skipping (inner : Always holds body)
    (join : ∀ d made, holds made → whole (branch d :: made)) : Always whole (skipping branch body) := by
  intro start table made table' made_
  obtain ⟨code, ok, rfl⟩ := skipping_eq_ok.mp made_
  exact join _ _ (inner _ _ _ _ ok)

lemma always_looping (join : ∀ d made, whole (made ++ [back d])) : Always whole (looping body back) := by
  intro start table made table' made_
  obtain ⟨code, ok, rfl⟩ := looping_eq_ok.mp made_
  exact join _ _

end Always

def EndsRun (branch : Dest → Instr Dest) : Prop := ∀ d, paceOf (branch d) = .ends

lemma endsRun_ifEq (reg : Reg) (value : Int32) : EndsRun (ifEq reg value) := fun _ => rfl

lemma endsRun_ifNe (reg : Reg) (value : Int32) : EndsRun (ifNe reg value) := fun _ => rfl

section Shuts

variable {run : Option UInt32}

lemma shuts_code (shut : openAfter run instrs = none) : Shuts run (code instrs) :=
  always_code shut

lemma shuts_withM {body : α → Piece} (each : ∀ a, Shuts run (body a)) :
    Shuts run (withM check body) := always_withM each

lemma shuts_nil : Shuts none (seq []) := shuts_code rfl

lemma shuts_seq (first : Shuts run piece) (after : Shuts none (seq rest)) : Shuts run (seq (piece :: rest)) :=
  always_seq first after fun front back shut shut' => by rw [openAfter_append, shut, shut']

lemma shuts_seq_last (after : ∀ run, Shuts run (seq rest)) : Shuts run (seq (piece :: rest)) := by
  intro start table made table' made_
  obtain ⟨front, mid, back, _, ok, rfl⟩ := seq_cons_eq_ok.mp made_
  rw [openAfter_append]
  exact after _ _ _ _ _ ok

lemma shuts_skipping (ends : EndsRun branch) (inner : Shuts none body) : Shuts run (skipping branch body) :=
  always_skipping inner fun d made shut => by rw [openAfter_cons, openBehind_ends (ends d), shut]

lemma shuts_looping (ends : EndsRun back) : Shuts run (looping body back) :=
  always_looping fun d made => by
    rw [openAfter_append, openAfter_cons, openBehind_ends (ends d), openAfter_nil]

end Shuts

lemma hushed_code (quiet : Quiet nothing instrs) : Hushed (code instrs) :=
  always_code quiet

lemma hushed_withM {body : α → Piece} (each : ∀ a, Hushed (body a)) : Hushed (withM check body) := always_withM each

def Still (instrs : Code) : Prop := ∀ i ∈ instrs, ∃ n, paceOf i = .moves n

lemma still_nil : Still [] := by simp [Still]

lemma Still.cons {i : Instr Dest} {rest : Code} {n : UInt32} (kind : paceOf i = .moves n)
    (still : Still rest) : Still (i :: rest) := List.forall_mem_cons.mpr ⟨⟨n, kind⟩, still⟩

lemma Still.append {back : Code} (first : Still front) (second : Still back) : Still (front ++ back) := List.forall_mem_append.mpr ⟨first, second⟩

lemma Still.unchecked (still : Still instrs) : ∀ i ∈ instrs, ∀ n, paceOf i ≠ .asks n := by
  intro i mem n asks
  obtain ⟨k, moves⟩ := still i mem
  cases moves.symm.trans asks

lemma hushed_code_seq (still : Still instrs) (after : Hushed (seq rest)) : Hushed (seq (code instrs :: rest)) :=
  have alone : Always (· = instrs) (code instrs) := always_code rfl
  always_seq alone after fun _ _ same quiet => same ▸ Quiet.append still quiet

lemma hushed_seq (hushed : Hushed piece) (shuts : ∀ run, Shuts run piece) : Hushed (seq (piece :: rest)) := by
  intro start table made table' made_ passed
  obtain ⟨front, mid, back, ok, _, rfl⟩ := seq_cons_eq_ok.mp made_
  have quiet := hushed _ _ _ _ ok passed
  have shut : ∀ run, openAfter run front = none := fun run => shuts run _ _ _ _ ok
  have alone : ∀ ahead run, fold ahead run front = fold nothing run front :=
    fun ahead run => fold_closed (shut run) ahead nothing
  simp only [fold_append, alone, shut, quiet]

/-! Folding through the way pieces are put together. -/

instance (run : Option UInt32) (piece : Piece) [∀ k, Grows (piece k)] (start : Nat) :
    Grows (foldFrom run piece start) := inferInstanceAs (Grows (_ >>= _))

lemma bind_congr_ok {β : Type} {x : LowerM α} {f g : α → LowerM β}
    (same : ∀ a table', x table = .ok a table' → f a table' = g a table') : (x >>= f) table = (x >>= g) table := by
  change EStateM.bind x f table = EStateM.bind x g table
  unfold EStateM.bind
  cases made : x table with
  | ok a table' => exact same a table' made
  | error e table' => rfl

variable {run : Option UInt32}

@[simp] lemma foldFrom_code (run : Option UInt32) (instrs : Code) :
    foldFrom run (code instrs) = code (fold nothing run instrs).2 := rfl

lemma foldFrom_withM (check : LowerM α) (body : α → Piece) :
    foldFrom run (withM check body) = withM check fun a => foldFrom run (body a) := by
  funext start
  simp only [foldFrom, withM, bind_assoc]

lemma withM_inReach (a : α) (body : α → Piece) : withM (inReach (some a)) body = body a := rfl

lemma foldFrom_skipping (ends : EndsRun branch) (body : Piece) :
    foldFrom run (skipping branch body) = skipping branch (foldFrom none body) := by
  funext start
  simp only [foldFrom, skipping, bind_assoc, pure_bind, length_fold, fold_ends (ends _)]

lemma foldFrom_looping (ends : EndsRun back) (body : Piece) :
    foldFrom run (looping body back) = looping (foldFrom run body) back := by
  funext start
  have quiet : ∀ d, Quiet nothing [back d] := fun d => quiet_ends (ends d)
  have last : ∀ d, (fold nothing none [back d]).2 = [back d] := fun d => by
    rw [fold_ends (ends d)]
    rfl
  simp only [foldFrom, looping, bind_assoc, pure_bind, fold_append_apart (.inr (quiet _)), last]

/-- Between two pieces of a sequence no run is open, or what follows has no check in it. -/
def Apart : List Piece → Prop
  | [] => True
  | piece :: rest => (Shuts none piece ∨ Hushed (seq rest)) ∧ Apart rest

lemma apart_cons (apart : Shuts none piece ∨ Hushed (seq rest)) (others : Apart rest) : Apart (piece :: rest) := ⟨apart, others⟩

lemma apart_last (piece : Piece) : Apart [piece] := ⟨.inr (hushed_code quiet_nil), trivial⟩

lemma foldFrom_seq_cons (apart : Shuts run piece ∨ Hushed (seq rest)) :
    foldFrom run (seq (piece :: rest)) = seq [foldFrom run piece, foldFrom none (seq rest)] := by
  funext start table
  simp only [foldFrom, seq, code, bind_assoc, pure_bind, length_fold, append_nil]
  refine bind_congr_ok fun front mid ok => bind_congr_ok fun back last ok' => ?_
  rw [fold_append_apart (apart.imp (fun shuts => shuts _ _ _ _ ok) fun hushed => hushed _ _ _ _ ok')]

lemma seq_withM (check : LowerM α) (body : α → Piece) (rest : List Piece) :
    seq (withM check body :: rest) = withM check fun a => seq (body a :: rest) := by
  funext start
  simp only [seq, withM, bind_assoc]

lemma seq_code_nil (first : Piece) (rest : List Piece) : seq (first :: code [] :: rest) = seq (first :: rest) := by
  funext start
  simp only [seq, code, pure_bind, length_nil, Nat.add_zero, nil_append, bind_pure]

lemma seq_pair (first : Piece) (rest : List Piece) : seq [first, seq rest] = seq (first :: rest) := by
  funext start
  simp only [seq, code, bind_assoc, pure_bind, append_nil]

lemma foldFrom_seq (apart : Shuts run piece ∨ Hushed (seq rest)) (others : Apart rest) :
    foldFrom run (seq (piece :: rest)) = seq (foldFrom run piece :: rest.map (foldFrom none)) := by
  have tail : foldFrom none (seq rest) = seq (rest.map (foldFrom none)) := by
    induction rest generalizing piece run with
    | nil => rfl
    | cons next rest ih =>
      rw [foldFrom_seq_cons others.1, ih others.1 others.2, seq_pair, map_cons]
  rw [foldFrom_seq_cons apart, tail, seq_pair]

/-! Places branches lead to. -/

/-- A place of the code that no run of checks goes across. -/
structure ClosedAt (run : Option UInt32) (start : Nat) (made : Code) (place : Nat) : Prop where
  low : start ≤ place
  high : place ≤ start + made.length
  shut : openAfter run (made.take (place - start)) = none

lemma ClosedAt.left (closed : ClosedAt run start front place) (back : Code) :
    ClosedAt run start (front ++ back) place := by
  have high := closed.high
  refine ⟨closed.low, by rw [length_append]; omega, ?_⟩
  rw [take_append_of_le_length (by omega), closed.shut]

lemma ClosedAt.right {back : Code} (closed : ClosedAt (openAfter run front) (start + front.length) back place) :
    ClosedAt run start (front ++ back) place := by
  have low := closed.low
  have high := closed.high
  refine ⟨by omega, by rw [length_append]; omega, ?_⟩
  rw [take_append, take_of_length_le (by omega), openAfter_append,
    show place - start - front.length = place - (start + front.length) by omega, closed.shut]

lemma closedAt_start (start : Nat) (made : Code) : ClosedAt none start made start :=
  ⟨le_rfl, by omega, by rw [Nat.sub_self, take_zero, openAfter_nil]⟩

lemma closedAt_stop (shut : openAfter run made = none) : ClosedAt run start made (start + made.length) :=
  ⟨by omega, le_rfl, by rw [Nat.add_sub_cancel_left, take_length, shut]⟩

/-- The branches of the code lead to places of it that no run goes across, or to others that
`known` tells of. -/
def Lands (known : Nat → Prop) (run : Option UInt32) (start : Nat) (made : Code) : Prop :=
  ∀ i ∈ made, ∀ place, Dest.place place ∈ i.targets → known place ∨ ClosedAt run start made place

section Lands

variable {known : Nat → Prop} {start : Nat}

lemma lands_exits (exits : ∀ i ∈ made, ∀ place, Dest.place place ∉ i.targets) : Lands known run start made :=
  fun i mem place target => absurd target (exits i mem place)

lemma Lands.append {back : Code} (first : Lands known run start front)
    (second : Lands known (openAfter run front) (start + front.length) back) :
    Lands known run start (front ++ back) := by
  intro i mem place target
  rcases List.mem_append.mp mem with mem | mem
  · exact (first i mem place target).imp id fun closed => closed.left back
  · exact (second i mem place target).imp id .right

lemma Lands.mono {known' : Nat → Prop} (lands : Lands known run start made)
    (imp : ∀ place, known place → known' place) : Lands known' run start made :=
  fun i mem place target => (lands i mem place target).imp (imp place) id

end Lands

def LandsIn (run : Option UInt32) (piece : Piece) : Prop :=
  ∀ start table made table', piece start table = .ok made table' → Lands (fun _ => False) run start made

lemma landsIn_code (exits : ∀ i ∈ instrs, ∀ place, Dest.place place ∉ i.targets) : LandsIn run (code instrs) := by
  intro start table made table' made_
  obtain ⟨rfl, rfl⟩ := code_eq_ok.mp made_
  exact lands_exits exits

lemma landsIn_withM {body : α → Piece} (each : ∀ a, LandsIn run (body a)) : LandsIn run (withM check body) := by
  intro start table made table' made_
  obtain ⟨a, mid, _, ok⟩ := withM_eq_ok.mp made_
  exact each a start mid made table' ok

lemma landsIn_nil : LandsIn run (seq []) := landsIn_code (by simp)

lemma landsIn_seq (first : LandsIn run piece) (after : ∀ start table made table', piece start table = .ok made table' →
      LandsIn (openAfter run made) (seq rest)) : LandsIn run (seq (piece :: rest)) := by
  intro start table made table' made_
  obtain ⟨front, mid, back, ok, ok', rfl⟩ := seq_cons_eq_ok.mp made_
  exact (first _ _ _ _ ok).append (after _ _ _ _ ok _ _ _ _ ok')

lemma landsIn_seq_shut (first : LandsIn run piece) (shuts : Shuts run piece) (after : LandsIn none (seq rest)) :
    LandsIn run (seq (piece :: rest)) :=
  landsIn_seq first fun start table made table' ok => by rwa [shuts _ _ _ _ ok]

lemma landsIn_skipping (isBranch : IsBranch branch) (ends : EndsRun branch) (inner : LandsIn none body)
    (shuts : Shuts none body) : LandsIn run (skipping branch body) := by
  intro start table made table' made_
  obtain ⟨code, ok, rfl⟩ := skipping_eq_ok.mp made_
  have opened : openAfter run [branch (.place (start + 1 + code.length))] = none := openBehind_ends (ends _)
  intro i mem place target
  rcases List.mem_cons.mp mem with rfl | mem
  · rw [(isBranch _).2, mem_singleton] at target
    cases target
    refine .inr ⟨by omega, by rw [length_cons]; omega, ?_⟩
    rw [take_of_length_le (by rw [length_cons]; omega)]
    exact (congrArg (openAfter · code) opened).trans (shuts _ _ _ _ ok)
  · refine (inner _ _ _ _ ok i mem place target).imp id fun closed => ?_
    rw [← singleton_append]
    exact ClosedAt.right (by rwa [opened])

lemma landsIn_looping (isBranch : IsBranch back) (inner : LandsIn none body) : LandsIn none (looping body back) := by
  intro start table made table' made_
  obtain ⟨code, ok, rfl⟩ := looping_eq_ok.mp made_
  intro i mem place target
  rcases List.mem_append.mp mem with mem | mem
  · exact (inner _ _ _ _ ok i mem place target).imp id fun closed => closed.left _
  · obtain rfl := List.mem_singleton.mp mem
    rw [(isBranch _).2, mem_singleton] at target
    cases target
    exact .inr (closedAt_start _ _)

/-! Finished programs. -/

lemma targets_fold (ahead : UInt32 → UInt32) (run : Option UInt32) (made : Code) :
    (fold ahead run made).2.map Instr.targets = made.map Instr.targets := by
  induction made generalizing run with
  | nil => rfl
  | cons i rest ih =>
    rw [fold, map_cons, ← ih (openBehind run i)]
    unfold foldHead
    cases kind : paceOf i with
    | asks n =>
      cases paceOf_eq_asks kind
      cases run <;> rfl
    | _ => cases run <;> rfl

lemma flatMap_targets_fold (ahead : UInt32 → UInt32) (run : Option UInt32) (made : Code) :
    (fold ahead run made).2.flatMap Instr.targets = made.flatMap Instr.targets := by
  rw [flatMap_def, targets_fold, flatMap_def]

lemma usedExits_fold (made : Code) : usedExits (fold nothing none made).2 = usedExits made := by
  rw [usedExits, flatMap_targets_fold, usedExits]

def ending (body : Code) : Instrs :=
  .jump (body.length + 1 + (usedExits body).length) :: (usedExits body).map .error ++ [.halt]

lemma ending_unchecked (body : Code) : ∀ i ∈ ending body, ∀ n, paceOf i ≠ .asks n := by
  intro i mem n
  simp only [ending, mem_append, mem_cons, mem_map, not_mem_nil, or_false] at mem
  rcases mem with (rfl | ⟨e, _, rfl⟩) | rfl <;> exact nofun

lemma fold_finish (body : Code) : (fold nothing none (finish body)).2 = finish (fold nothing none body).2 := by
  have quiet : Quiet nothing (ending body) := quiet_ends rfl
  have last : (fold nothing none (ending body)).2 = ending body := fold_unchecked (ending_unchecked body)
  rw [finish_eq, finish_eq, usedExits_fold, length_fold]
  change (fold nothing none (_ ++ ending body)).2 = _ ++ ending body
  rw [fold_append_apart (.inr quiet), last, fold_map]
  simp only [placed, usedExits_fold, length_fold]

/-- Folding a finished program is finishing the folded code, if branches cross no run. -/
lemma foldChecks_finish {body : Code} (lands : Lands (fun _ => False) none 0 body) :
    foldChecks (mark (finish body)) = finish (fold nothing none body).2 := by
  rw [foldChecks, foldChecksFrom_eq_fold, map_fst_mark, fold_finish]
  intro k i marked
  rw [map_fst_mark]
  have target := mem_targets_of_mark marked
  rw [finish_eq] at target ⊢
  change openAfter none ((_ ++ ending body).take k) = none
  have opened : ∀ run j, 0 < j → openAfter run ((ending body).take j) = none := by
    intro run j positive
    obtain ⟨j, rfl⟩ := Nat.exists_eq_succ_of_ne_zero (Nat.ne_of_gt positive)
    have rest : ∀ i ∈ ((usedExits body).map Instr.error ++ [.halt] : Instrs).take j,
        ∀ n, paceOf i ≠ .asks n := fun i mem =>
      ending_unchecked body i (mem_cons_of_mem _ (mem_of_mem_take mem))
    exact openAfter_unchecked rest
  rw [take_append, openAfter_append, length_map]
  by_cases past : body.length < k
  · exact opened _ _ (by omega)
  · rw [show k - body.length = 0 by omega, take_zero, openAfter_nil, ← map_take, openAfter_map]
    rw [flatMap_append] at target
    rcases List.mem_append.mp target with target | target
    · obtain ⟨_, mapped, target⟩ := List.mem_flatMap.mp target
      obtain ⟨j, mem, rfl⟩ := List.mem_map.mp mapped
      rw [Instr.targets_mapTargets] at target
      obtain ⟨d, listed, rfl⟩ := List.mem_map.mp target
      cases d with
      | place index =>
        have closed := (lands j mem index listed).resolve_left id
        simpa [placed, settle] using closed.shut
      | exit e => exact absurd (by simp only [placed, settle]; omega) past
    · have only : k = body.length + 1 + (usedExits body).length := by
        simpa [Instr.targets, flatMap_map] using target
      omega

end WireCodec.Lowering
