import Mathlib
import WireCodec.Native.Emission
import WireCodec.Program.Check

/-! Emission succeeds for instructions that obey the rules, once their registers have places,
and jumps lead only to labels that the function holds. -/
namespace WireCodec.Native

open List

variable {args : List Arg} {rets : List Reg} {src : Reg} {items : List Item} {label : Label} {targets : List Nat}

def Makes {α : Type} (x : Except CompileError α) (P : α → Prop) : Prop := ∃ a, x = .ok a ∧ P a

namespace Makes

variable {α β : Type} {x : Except CompileError α} {P : α → Prop} {Q : β → Prop}

lemma pure {a : α} (holds : P a) : Makes (Pure.pure a) P := ⟨a, rfl, holds⟩

lemma bind {f : α → Except CompileError β} (first : Makes x P)
    (rest : ∀ a, P a → Makes (f a) Q) : Makes (x >>= f) Q := by
  obtain ⟨a, rfl, holds⟩ := first
  exact rest a holds

lemma mapM {f : α → Except CompileError β} {R : α → β → Prop} {xs : List α}
    (all : ∀ x ∈ xs, Makes (f x) (R x)) : Makes (xs.mapM f) (Forall₂ R xs) := by
  induction xs with
  | nil => exact ⟨[], rfl, .nil⟩
  | cons x xs ih =>
    rw [mapM_cons]
    exact (all x mem_cons_self).bind fun y first =>
      (ih fun x mem => all x (mem_cons_of_mem _ mem)).bind fun ys rest => .pure (.cons first rest)

end Makes

lemma mem_of_forall₂ {α β : Type} {R : α → β → Prop} {xs : List α} {ys : List β} {y : β}
    (each : Forall₂ R xs ys) (mem : y ∈ ys) : ∃ x ∈ xs, R x y := by
  induction each with
  | nil => cases mem
  | cons first _ ih =>
    rcases mem_cons.mp mem with rfl | mem
    · exact ⟨_, mem_cons_self, first⟩
    · obtain ⟨x, listed, related⟩ := ih mem
      exact ⟨x, mem_cons_of_mem _ listed, related⟩

def jumps (code : List Op) : List Label := code.filterMap Op.target?

abbrev Quiet (code : List Op) : Prop := jumps code = []

@[simp] lemma jumps_nil : jumps [] = [] := rfl

@[simp] lemma jumps_cons (op : Op) (code : List Op) : jumps (op :: code) = op.target?.toList ++ jumps code := by
  rw [jumps, filterMap_cons]
  cases op.target? <;> rfl

@[simp] lemma jumps_append (code more : List Op) : jumps (code ++ more) = jumps code ++ jumps more :=
  filterMap_append

lemma quiet_moveUnlessSame (dst src : HwReg) : Quiet (Site.moveUnlessSame dst src) := by
  unfold Site.moveUnlessSame
  split <;> rfl

namespace Site

variable {s : Site} {reg base : Reg} {callee : Callee} {mayFail : Bool} {first : Arg}

def Located (s : Site) (reg : Reg) : Prop := ∃ loc, s.alloc.location? reg = some loc

lemma location_ok (located : s.Located reg) : Makes (s.location reg) fun _ => True := by
  obtain ⟨loc, is⟩ := located
  exact ⟨loc, by rw [location, is], trivial⟩

lemma fetch_ok (located : s.Located reg) (scratch : HwReg) : Makes (s.fetch reg scratch) fun made => Quiet made.2 := by
  refine (location_ok located).bind fun loc _ => ?_
  cases loc with
  | reg phys => exact .pure rfl
  | spill slot => exact .pure rfl

lemma fetchInto_ok (located : s.Located reg) (dst : HwReg) : Makes (s.fetchInto reg dst) Quiet :=
  (fetch_ok located dst).bind fun _ quiet =>
    .pure (by rw [Quiet, jumps_append, quiet, quiet_moveUnlessSame, nil_append])

lemma quiet_put (s : Site) (reg : Reg) (src : HwReg) : Quiet (s.put reg src) := by
  unfold put
  split
  · exact quiet_moveUnlessSame _ _
  · rfl
  · rfl

lemma home_ok (located : s.Located reg) : Makes (s.home reg) fun _ => True := by
  refine (location_ok located).bind fun loc _ => ?_
  cases loc with
  | reg phys =>
    dsimp only
    split
    · exact .pure trivial
    · exact .pure trivial
  | spill slot => exact .pure trivial

lemma loadHome_ok (located : s.Located reg) (dst : HwReg) : Makes (s.loadHome dst reg) Quiet := by
  refine (home_ok located).bind fun home _ => ?_
  cases home with
  | reg src => exact .pure (quiet_moveUnlessSame _ _)
  | stack offset => exact .pure rfl

lemma storeHome_ok (located : s.Located reg) (src : HwReg) : Makes (s.storeHome reg src) Quiet := by
  refine (home_ok located).bind fun home _ => ?_
  cases home with
  | reg dst => exact .pure (quiet_moveUnlessSame _ _)
  | stack offset => exact .pure rfl

def argReg? : Arg → Option Reg
  | .reg reg | .plus reg _ | .arenaAddress reg _ | .arenaPointer reg _ => some reg
  | .context | .sink | .wireAddress | .word _ => none

lemma loadArg_ok {arg : Arg} (located : ∀ reg, argReg? arg = some reg → s.Located reg)
    (dst : HwReg) : Makes (s.loadArg dst arg) Quiet := by
  cases arg with
  | reg reg => exact loadHome_ok (located reg rfl) dst
  | plus reg off =>
    refine (loadHome_ok (located reg rfl) dst).bind fun code quiet => .pure ?_
    rw [Quiet, jumps_append, quiet]
    split <;> rfl
  | arenaAddress reg | arenaPointer reg =>
    exact (loadHome_ok (located reg rfl) dst).bind fun code quiet =>
      .pure (by rw [Quiet, jumps_append, quiet]; rfl)
  | _ => exact ⟨_, rfl, rfl⟩

lemma quiet_flatten {α : Type} {xs : List α} {codes : List (List Op)}
    (each : Forall₂ (fun _ => Quiet) xs codes) : Quiet codes.flatten := by
  induction each with
  | nil => rfl
  | cons first _ rest => rw [Quiet, flatten_cons, jumps_append, first, rest, nil_append]

/-- A call leaves the function if it may fail. -/
def leaves (mayFail : Bool) : List Label := if mayFail then [.leave] else []

lemma call_ok {args : List (ArgPlace × Arg)}
    (located : ∀ arg ∈ args, ∀ reg, argReg? arg.2 = some reg → s.Located reg) (results : ∀ reg ∈ rets, s.Located reg) :
    Makes (s.call callee args rets mayFail) fun code => jumps code = leaves mayFail := by
  have onStack : Makes (args.mapM s.loadStackArg) (Forall₂ (fun _ => Quiet) args) := by
    refine .mapM fun entry mem => ?_
    obtain ⟨place, arg⟩ := entry
    cases place with
    | stack offset =>
      exact (loadArg_ok (located _ mem) rax).bind fun code quiet =>
        .pure (by rw [Quiet, jumps_append, quiet]; rfl)
    | register index => exact ⟨[], rfl, rfl⟩
  have inRegisters : Makes (args.mapM s.loadRegisterArg) (Forall₂ (fun _ => Quiet) args) := by
    refine .mapM fun entry mem => ?_
    obtain ⟨place, arg⟩ := entry
    cases place with
    | register index => exact loadArg_ok (located _ mem) _
    | stack offset => exact ⟨[], rfl, rfl⟩
  have stores : Makes ((rets.zip resultRegs).mapM fun entry => s.storeHome entry.1 entry.2)
      (Forall₂ (fun _ => Quiet) (rets.zip resultRegs)) :=
    .mapM fun entry mem => storeHome_ok (results entry.1 (of_mem_zip mem).1) entry.2
  have each {f : PhysReg → Op} (none : ∀ phys, (f phys).target? = Option.none) (regs : List PhysReg) :
      Quiet (regs.map f) := filterMap_eq_nil_iff.mpr fun op mem => by
    obtain ⟨phys, -, rfl⟩ := mem_map.mp mem
    exact none phys
  have saves : Quiet s.saveRegs := each (fun _ => rfl) _
  have restores : Quiet s.restoreRegs := each (fun _ => rfl) _
  have goes : Quiet (callOps callee) := by cases callee <;> rfl
  refine onStack.bind fun a quietA => inRegisters.bind fun b quietB => stores.bind fun c quietC =>
    .pure ?_
  simp only [jumps_append, saves, restores, goes, quiet_flatten quietA, quiet_flatten quietB, quiet_flatten quietC,
    append_nil]
  cases mayFail <;> rfl

/-- The instruction's registers have places, its branches stay inside, and its call fits. -/
structure Fits (s : Site) (i : Instr Nat) : Prop where
  uses : ∀ reg ∈ i.uses, s.Located reg
  defs : ∀ reg ∈ i.defs, s.Located reg
  inside : ∀ t ∈ i.targets, t < s.length
  calls : i.verifyCall s.handles = .ok ()

/-- Labels that the code of instruction `index` jumps to, in order: its error and its targets, unless it is one of
those with jumps of their own. -/
def exits (s : Site) (index : Nat) (i : Instr Nat) : List Label :=
  let plain := ((failure? s.job i).map Label.failure).toList ++ i.targets.map .instr
  match i with
  | .checkReg _ => plain ++ plain
  | .call id _ _ => leaves (match s.handles.resolve id with
    | .ok h => h.effects.mayFail
    | .error _ => false)
  | .storePtr .. => [.bypass index]
  | .switch _ targets fallback =>
    .instr fallback :: if targets.isEmpty then [] else .table index :: targets.map .instr
  | _ => plain

variable {i : Instr Nat} {code : List Op} {index : Nat}

lemma target_ok {t : Nat} (inside : t < s.length) : s.target t = .ok (.instr t) := if_pos inside

def Passes (s : Site) (args : List Arg) : Prop :=
  ∀ arg ∈ args, ∀ reg, argReg? arg = some reg → s.Located reg

lemma passes_regs {regs : List Reg} (none : argReg? first = Option.none)
    (located : ∀ reg ∈ regs, s.Located reg) : s.Passes (first :: regs.map Arg.reg) := by
  intro arg mem reg isReg
  rcases mem_cons.mp mem with rfl | mem
  · rw [none] at isReg
    cases isReg
  · obtain ⟨reg', listed, rfl⟩ := mem_map.mp mem
    obtain rfl := Option.some.inj isReg
    exact located _ listed

lemma passes_pair {first second : Reg} (located : s.Located first) (located' : s.Located second)
    (only : ∀ arg ∈ args, ∀ reg, argReg? arg = some reg → reg = first ∨ reg = second) : s.Passes args := by
  intro arg mem reg isReg
  rcases only arg mem reg isReg with rfl | rfl
  · exact located
  · exact located'

lemma call_inRegisters_ok (passes : s.Passes args) (results : ∀ reg ∈ rets, s.Located reg) :
    Makes (s.call callee (inRegisters args) rets mayFail) fun code => jumps code = leaves mayFail := by
  refine call_ok (fun arg mem => ?_) results
  obtain ⟨k, low, rfl⟩ := mem_mapIdx.mp mem
  exact passes _ (getElem_mem low)

lemma callRoutine_ok (routine : Routine) (passes : s.Passes args) : Makes (s.callRoutine routine args) Quiet :=
  call_inRegisters_ok (forall_mem_cons.mpr ⟨nofun, passes⟩) nofun

lemma callHandle_ok {id : Nat} {args : List Reg} (fits : s.Fits (.call id args rets)) :
    Makes (s.callHandle id args rets) fun code => jumps code = s.exits index (.call id args rets) := by
  have calls := fits.calls
  simp only [Instr.verifyCall] at calls
  change Makes _ fun code => jumps code = leaves _
  unfold callHandle
  cases resolved : s.handles.resolve id with
  | error e =>
    rw [resolved] at calls
    cases calls
  | ok h =>
    rw [resolved] at calls
    refine Makes.bind ⟨h, rfl, rfl⟩ fun h' same => ?_
    subst same
    refine Makes.bind (P := fun _ => True) ⟨(), calls, trivial⟩ fun _ _ => ?_
    dsimp only
    split
    · exact call_inRegisters_ok (passes_regs rfl fits.uses) fits.defs
    · exact call_ok (fun arg mem => passes_regs rfl fits.uses _ (of_mem_zip mem).2) fits.defs
    · exact call_inRegisters_ok (passes_regs rfl fits.uses) fits.defs

lemma quiet_readWire (width : Width) (signed : Bool) : Quiet (readWire width signed) := by
  cases width <;> cases signed <;> rfl

lemma quiet_writeWire (width : Width) : Quiet (writeWire width) := by
  cases width <;> rfl

lemma quiet_writeWireImm (width : Width) (value : UInt64) : Quiet (writeWireImm width value) := by
  cases width <;> rfl

lemma quiet_clearBytes (len : Nat) : Quiet (clearBytes len) := by
  have maybe (c : Prop) [Decidable c] (width : Width) (offset : Nat) :
      Quiet (if c then [clearAt width offset] else []) := by split <;> rfl
  have wide : Quiet ((range (len / 8)).map fun n => clearAt .w8 (8 * n)) := filterMap_eq_nil_iff.mpr fun op mem => by
    obtain ⟨n, -, rfl⟩ := mem_map.mp mem
    rfl
  simp only [Quiet, clearBytes, jumps_append, wide, maybe, append_nil]

attribute [local simp] Op.target?

lemma zero_ok (located : s.Located base) (off len : UInt32) : Makes (s.zero base off len) Quiet := by
  unfold zero
  split
  · exact callRoutine_ok _ (passes_pair located located (by simp [argReg?]))
  · refine (fetch_ok located rax).bind fun made quiet => .pure ?_
    simp [Quiet, quiet, quiet_clearBytes]

lemma movImm_ok {dst : Reg} (located : s.Located dst) (value : UInt64) : Makes (s.movImm dst value) Quiet := by
  refine (location_ok located).bind fun loc _ => .pure ?_
  rw [Quiet, jumps_cons, quiet_put]
  split
  · rfl
  · split <;> rfl

lemma immediate_ok (located : s.Located src) (op : ImmOp) (dst : Reg) (value : Int32) :
    Makes (s.immediate op dst src value) Quiet := by
  unfold immediate
  split
  · exact .pure rfl
  · refine (fetchInto_ok located rax).bind fun code quiet => .pure ?_
    rw [Quiet, jumps_append, jumps_append, quiet, quiet_put]
    cases op with
    | add | or => dsimp only; split <;> rfl
    | mul => rfl
    | and => rfl

lemma copy_ok {second : Arg} {len : Reg} (passes : s.Passes [first, second, .reg len])
    (located : s.Located len) (routine : Routine) : Makes (do
      let copy ← s.callRoutine routine [first, second, .reg len]
      let (reg, code) ← s.fetch len rax
      return copy ++ code ++ [.addReg r13 reg]) Quiet :=
  (callRoutine_ok routine passes).bind fun copy quiet =>
    (fetch_ok located rax).bind fun made quiet' => .pure (by simp [Quiet, quiet, quiet'])

def holdsLabels : Instr Nat → Bool
  | .storePtr .. | .switch .. => true
  | _ => false

lemma straight_ok (index : Nat) (fits : s.Fits i) (plain : holdsLabels i = false) :
    Makes (s.straight i) fun code => jumps code = s.exits index i := by
  have fetchUse {reg : Reg} (mem : reg ∈ i.uses) (scratch : HwReg) := fetch_ok (fits.uses reg mem) scratch
  have intoUse {reg : Reg} (mem : reg ∈ i.uses) (dst : HwReg) := fetchInto_ok (fits.uses reg mem) dst
  have puts := quiet_put s
  cases i with
  | check n =>
    exact ⟨_, rfl, rfl⟩
  | checkReg src =>
    refine (fetchUse mem_cons_self rax).bind fun made quiet => .pure ?_
    simp [quiet]
    rfl
  | advance n => exact ⟨_, rfl, rfl⟩
  | advanceReg src =>
    exact (fetchUse mem_cons_self rax).bind fun made quiet => .pure (by change jumps _ = []; simp [quiet])
  | readInt width signed dst =>
    exact ⟨_, rfl, by change jumps _ = []; simp [quiet_readWire, puts, moveCursor]⟩
  | writeImm width value =>
    exact ⟨_, rfl, by change jumps _ = []; simp [quiet_writeWireImm, moveCursor]⟩
  | writeInt width src =>
    refine (intoUse mem_cons_self rax).bind fun code quiet => .pure ?_
    change jumps _ = []
    simp [quiet, quiet_writeWire, moveCursor]
  | readBytes dst len =>
    refine copy_ok ?_ (fits.uses len (by simp [Instr.uses])) .copy
    exact passes_pair (fits.uses dst mem_cons_self) (fits.uses len (by simp [Instr.uses])) (by simp [argReg?])
  | writeBytes src len =>
    refine copy_ok ?_ (fits.uses len (by simp [Instr.uses])) .copy
    exact passes_pair (fits.uses src mem_cons_self) (fits.uses len (by simp [Instr.uses])) (by simp [argReg?])
  | load | loadPtr =>
    exact (fetchUse mem_cons_self rax).bind fun made quiet =>
      .pure (by change jumps _ = []; simp [quiet, puts])
  | store width src base off =>
    exact (fetchUse (mem_cons_of_mem _ mem_cons_self) rax).bind fun made quiet =>
      (intoUse mem_cons_self rcx).bind fun code quiet' =>
        .pure (by change jumps _ = []; simp [quiet, quiet'])
  | seek dst src off =>
    rw [straight]
    split
    · exact .pure rfl
    · exact (fetchUse mem_cons_self rax).bind fun made quiet =>
        .pure (by change jumps _ = []; simp [quiet, puts])
  | zero base off len => exact zero_ok (fits.uses base mem_cons_self) off len
  | movImm dst value => exact movImm_ok (fits.defs dst mem_cons_self) value
  | mov dst src =>
    rw [straight]
    split
    · exact .pure rfl
    · exact (fetchUse mem_cons_self rax).bind fun made quiet =>
        .pure (by change jumps _ = []; simp [quiet, puts])
  | add dst a b =>
    exact (intoUse mem_cons_self rax).bind fun first quiet =>
      (fetchUse (mem_cons_of_mem _ mem_cons_self) rcx).bind fun made quiet' =>
        .pure (by change jumps _ = []; simp [quiet, quiet', puts])
  | imm op dst src value => exact immediate_ok (fits.uses src mem_cons_self) op dst value
  | enter | error | leave => exact ⟨_, rfl, rfl⟩
  | loadFrame dst slot => exact ⟨_, rfl, by change jumps _ = []; simp [puts]⟩
  | storeFrame src slot =>
    exact (fetchUse mem_cons_self rax).bind fun made quiet =>
      .pure (by change jumps _ = []; simp [quiet])
  | jump t =>
    refine Makes.bind ⟨_, target_ok (fits.inside t mem_cons_self), rfl⟩ fun label same => .pure ?_
    subst same
    simp
    rfl
  | branchImm cond a value t =>
    refine Makes.bind ⟨_, target_ok (fits.inside t mem_cons_self), rfl⟩ fun label same =>
      (fetchUse mem_cons_self rax).bind fun made quiet => .pure ?_
    subst same
    simp [quiet]
    rfl
  | branchReg cond a b t =>
    refine Makes.bind ⟨_, target_ok (fits.inside t mem_cons_self), rfl⟩ fun label same =>
      (fetchUse mem_cons_self rax).bind fun made quiet =>
        (fetchUse (mem_cons_of_mem _ mem_cons_self) rcx).bind fun made' quiet' => .pure ?_
    subst same
    simp [quiet, quiet']
    rfl
  | call id args rets => exact callHandle_ok fits
  | nop | halt => exact ⟨_, rfl, rfl⟩
  | storePtr | switch => cases plain

def marks (items : List Item) : List Label := items.filterMap fun item => match item with
  | .mark label => some label
  | .op _ => none

def goals (items : List Item) : List Label := items.filterMap fun item => match item with
  | .op o => o.target?
  | .mark _ => none

@[simp] lemma marks_append (a b : List Item) : marks (a ++ b) = marks a ++ marks b :=
  filterMap_append

@[simp] lemma goals_append (a b : List Item) : goals (a ++ b) = goals a ++ goals b :=
  filterMap_append

@[simp] lemma goals_mark (label : Label) (rest : List Item) : goals (.mark label :: rest) = goals rest := rfl

@[simp] lemma marks_mark (label : Label) (rest : List Item) : marks (.mark label :: rest) = label :: marks rest := rfl

@[simp] lemma marks_ops (code : List Op) : marks (ops code) = [] := by
  simp [marks, ops]

lemma mem_marks : label ∈ marks items ↔ .mark label ∈ items := by
  simp only [marks, mem_filterMap]
  refine ⟨fun ⟨item, mem, is⟩ => ?_, fun mem => ⟨_, mem, rfl⟩⟩
  cases item with
  | mark other => exact Option.some.inj is ▸ mem
  | op o => cases is

lemma mem_goals : label ∈ goals items ↔ ∃ o, .op o ∈ items ∧ o.target? = some label := by
  simp only [goals, mem_filterMap]
  refine ⟨fun ⟨item, mem, is⟩ => ?_, fun ⟨o, mem, is⟩ => ⟨_, mem, is⟩⟩
  cases item with
  | mark other => cases is
  | op o => exact ⟨o, mem, is⟩

@[simp] lemma goals_ops (code : List Op) : goals (ops code) = jumps code := by
  rw [goals, ops, filterMap_map]
  rfl

def held (index : Nat) : Instr Nat → List Label
  | .storePtr .. => [.instr index, .bypass index]
  | .switch _ targets _ => .instr index :: if targets.isEmpty then [] else [.table index]
  | .halt => [.instr index, .leave]
  | _ => [.instr index]

lemma storePtr_ok {off : UInt32} (index : Nat) (fits : s.Fits (.storePtr src base off)) :
    Makes (s.storePtr index src base off) fun items => goals items = [.bypass index] ∧ marks items = [.bypass index] := by
  have located := fits.uses src mem_cons_self
  have located' := fits.uses base (mem_cons_of_mem _ mem_cons_self)
  refine (call_inRegisters_ok (passes_pair located located' (by simp [argReg?])) (by simp)).bind
    fun report quiet => (fetch_ok located' rax).bind fun made quiet' =>
      (fetchInto_ok located rcx).bind fun value quiet'' => .pure ?_
  rw [leaves, if_neg Bool.false_ne_true] at quiet
  simp [quiet, quiet', quiet'']

lemma mapM_target (inside : ∀ t ∈ targets, t < s.length) : targets.mapM s.target = .ok (targets.map .instr) := by
  induction targets with
  | nil => rfl
  | cons t rest ih =>
    rw [mapM_cons, target_ok (inside t mem_cons_self), ih fun t mem => inside t (mem_cons_of_mem _ mem)]
    rfl

def table (targets : List Nat) : List Item := ops (targets.map fun t => .jump (.instr t))

lemma goals_table (targets : List Nat) : goals (table targets) = targets.map .instr := by
  rw [table, goals_ops, jumps, filterMap_map]
  exact congrFun filterMap_eq_map targets

lemma switch_ok {fallback : Nat} (index : Nat) (fits : s.Fits (.switch src targets fallback)) :
    Makes (s.switch index src targets fallback) fun items =>
      (targets = [] → items = [.op (.jump (.instr fallback))]) ∧
      (targets ≠ [] → ∃ code, jumps code = [.instr fallback, .table index] ∧
        items = ops code ++ .mark (.table index) :: table targets) := by
  have last : fallback ∈ targets ++ [fallback] := mem_append_right _ mem_cons_self
  refine Makes.bind ⟨_, target_ok (fits.inside fallback last), rfl⟩ fun label same => ?_
  subst same
  split
  · exact .pure ⟨fun _ => rfl, fun some => absurd (isEmpty_iff.mp ‹_›) some⟩
  refine Makes.bind ⟨_, mapM_target fun t mem => fits.inside t (mem_append_left _ mem), rfl⟩ fun arms same => ?_
  subst same
  refine (fetchInto_ok (fits.uses src mem_cons_self) rax).bind fun code quiet => .pure
    ⟨fun none => absurd (isEmpty_iff.mpr none) ‹_›, fun _ => ⟨_, ?_, by rw [map_map, append_assoc]; rfl⟩⟩
  simp [quiet]

/-- The code of instruction `index`: where it starts, its jumps and marks, and the table of a switch. -/
structure IsCode (s : Site) (index : Nat) (i : Instr Nat) (items : List Item) : Prop where
  made : s.instruction index i = .ok items
  starts : ∃ body, items = .mark (.instr index) :: body
  goals : goals items = s.exits index i
  marks : marks items = held index i
  table : ∀ reg targets fallback, i = .switch reg targets fallback → targets ≠ [] →
    ∃ front, items = front ++ .mark (.table index) :: table targets

lemma instruction_ok (index : Nat) (fits : s.Fits i) : ∃ items, s.IsCode index i items := by
  have plain (own : holdsLabels i = false) (other : i ≠ .halt)
      (same : s.instruction index i = (do return .mark (.instr index) :: (← ops <$> s.straight i))) :
      ∃ items, s.IsCode index i items := by
    obtain ⟨code, made, leads⟩ := straight_ok index fits own
    refine ⟨.mark (.instr index) :: ops code, by rw [same, made]; rfl, ⟨_, rfl⟩, ?_, ?_, ?_⟩
    · rw [goals_mark, goals_ops, leads]
    · rw [marks_mark, marks_ops]
      cases i <;> first | rfl | contradiction
    · rintro reg targets fallback rfl
      cases own
  cases i with
  | storePtr src base off =>
    obtain ⟨body, made, goals, marks⟩ := storePtr_ok index fits
    exact ⟨_, by rw [instruction, made]; rfl, ⟨_, rfl⟩, goals, by rw [marks_mark, marks]; rfl, fun _ _ _ is => by cases is⟩
  | switch src targets fallback =>
    obtain ⟨body, made, empty, filled⟩ := switch_ok index fits
    refine ⟨_, by rw [instruction, made]; rfl, ⟨_, rfl⟩, ?_, ?_, ?_⟩
    · rw [goals_mark]
      change _ = Label.instr fallback :: if targets.isEmpty then [] else .table index :: targets.map .instr
      by_cases none : targets = []
      · rw [empty none, none]
        rfl
      · obtain ⟨code, leads, rfl⟩ := filled none
        simp [leads, goals_table, none]
    · rw [marks_mark, held]
      by_cases none : targets = []
      · rw [empty none, none]
        rfl
      · obtain ⟨code, leads, rfl⟩ := filled none
        simp [table, none]
    · rintro _ _ _ ⟨⟩ some
      obtain ⟨code, leads, rfl⟩ := filled some
      exact ⟨.mark (.instr index) :: ops code, rfl⟩
  | halt => exact ⟨_, rfl, ⟨_, rfl⟩, rfl, rfl, fun _ _ _ is => by cases is⟩
  | _ => exact plain rfl (by rintro ⟨⟩) rfl

lemma quiet_prologue (s : Site) : Quiet s.prologue := by
  have puts (regs : List Reg) : Quiet (regs.flatMap (s.put · rax)) := by
    induction regs with
    | nil => rfl
    | cons reg rest ih => rw [Quiet, flatMap_cons, jumps_append, quiet_put, ih, nil_append]
  simp only [Quiet, prologue, jumps_append, puts, quiet_put]
  rfl

/-- The code of a function whose instructions have the given blocks. -/
def whole (s : Site) (code : Instrs) (blocks : List (List Item)) : List Item :=
  ops s.prologue ++ blocks.flatten ++ (code.filterMap (failure? s.job)).eraseDups.flatMap stub

abbrev AreCode (s : Site) (code : Instrs) (blocks : List (List Item)) : Prop :=
  Forall₂ (fun entry block => s.IsCode entry.2 entry.1 block) code.zipIdx blocks

lemma function_ok {code : Instrs} (fits : ∀ i ∈ code, s.Fits i) :
    ∃ blocks, s.function code = .ok (s.whole code blocks) ∧ s.AreCode code blocks := by
  have body : Makes (code.zipIdx.mapM fun entry => s.instruction entry.2 entry.1) (s.AreCode code) :=
    .mapM fun entry mem => by
      obtain ⟨items, isCode⟩ := instruction_ok entry.2 (fits entry.1 (fst_mem_of_mem_zipIdx mem))
      exact ⟨items, isCode.made, isCode⟩
  obtain ⟨blocks, made, each⟩ := body
  exact ⟨blocks, by rw [function, made]; rfl, each⟩

/-- Code jumps to its own marks, to other instructions, to stubs, and to the exit. -/
lemma of_mem_exits (mem : label ∈ s.exits index i) : label ∈ held index i ∨ (∃ t ∈ i.targets, label = .instr t) ∨
    (∃ e, failure? s.job i = some e ∧ label = .failure e) ∨ label = .leave := by
  have plain (mem : label ∈ ((failure? s.job i).map Label.failure).toList ++ i.targets.map .instr) :
      label ∈ held index i ∨ (∃ t ∈ i.targets, label = .instr t) ∨
        (∃ e, failure? s.job i = some e ∧ label = .failure e) ∨ label = .leave := by
    rcases mem_append.mp mem with fails | leads
    · obtain ⟨e, is, rfl⟩ := Option.map_eq_some_iff.mp (Option.mem_toList.mp fails)
      exact .inr (.inr (.inl ⟨e, is, rfl⟩))
    · obtain ⟨t, isTarget, rfl⟩ := mem_map.mp leads
      exact .inr (.inl ⟨t, isTarget, rfl⟩)
  cases i with
  | checkReg => exact plain ((mem_append.mp mem).elim id id)
  | call id args rets =>
    change label ∈ leaves _ at mem
    rw [leaves] at mem
    by_cases fails : (match s.handles.resolve id with
      | .ok h => h.effects.mayFail
      | .error _ => false) = true
    · rw [if_pos fails] at mem
      exact .inr (.inr (.inr (mem_singleton.mp mem)))
    · rw [if_neg fails] at mem
      cases mem
  | storePtr => exact .inl (mem_cons_of_mem _ mem)
  | switch src targets fallback =>
    change label ∈ Label.instr fallback :: if targets.isEmpty then [] else .table index :: targets.map .instr at mem
    by_cases none : targets = [] <;> simp_all [held, Instr.targets]
    grind
  | _ => exact plain mem

lemma marked_whole {code : Instrs} {blocks : List (List Item)} (fits : ∀ i ∈ code, s.Fits i)
    (length : s.length = code.length) (halts : .halt ∈ code) (each : s.AreCode code blocks) :
    ∀ label ∈ goals (s.whole code blocks), label ∈ marks (s.whole code blocks) := by
  have held_mem : ∀ (k : Nat) i, code[k]? = some i → ∀ label ∈ held k i, label ∈ marks blocks.flatten := by
    intro k i at_ label own
    obtain ⟨block, mem, isCode⟩ := mem_of_forall₂ each.flip (y := (i, k)) (mem_zipIdx_iff_getElem?.mpr at_)
    exact mem_marks.mpr (mem_flatten_of_mem mem (mem_marks.mp (isCode.marks ▸ own)))
  have leave : .leave ∈ marks blocks.flatten := by
    obtain ⟨index, at_⟩ := mem_iff_getElem?.mp halts
    exact held_mem index .halt at_ _ (mem_cons_of_mem _ mem_cons_self)
  simp only [whole, goals_append, marks_append, forall_mem_append, goals_ops, marks_ops]
  refine ⟨⟨by simp [quiet_prologue], fun label goal => ?_⟩, fun label goal => ?_⟩
  · obtain ⟨o, mem, target⟩ := mem_goals.mp goal
    obtain ⟨block, listed, inside⟩ := mem_flatten.mp mem
    obtain ⟨⟨i, index⟩, entry, isCode⟩ := mem_of_forall₂ each listed
    have at_ := mem_zipIdx_iff_getElem?.mp entry
    have listedCode := fst_mem_of_mem_zipIdx entry
    rcases of_mem_exits (isCode.goals ▸ mem_goals.mpr ⟨o, inside, target⟩) with own |
      ⟨t, isTarget, rfl⟩ | ⟨e, fails, rfl⟩ | rfl
    · simp [held_mem index i at_ label own]
    · have low : t < code.length := length ▸ (fits i listedCode).inside t isTarget
      have starts : Label.instr t ∈ held t code[t] := by cases code[t] <;> exact mem_cons_self
      simp [held_mem t _ (getElem?_eq_getElem low) _ starts]
    · have failing : e ∈ (code.filterMap (failure? s.job)).eraseDups :=
        mem_eraseDups.mpr (mem_filterMap.mpr ⟨i, listedCode, fails⟩)
      refine mem_append_right _ (mem_marks.mpr (mem_flatMap.mpr ⟨e, failing, ?_⟩))
      exact mem_cons_self
    · simp [leave]
  · obtain ⟨o, mem, target⟩ := mem_goals.mp goal
    obtain ⟨e, -, inside⟩ := mem_flatMap.mp mem
    have only : label = .leave := by
      have := mem_goals.mpr ⟨o, inside, target⟩
      simpa [stub, goals, ops] using this
    simp [only, leave]

end Site

def codeSize (items : List Item) : Nat := (items.map Item.size).sum

lemma lookup_placesFrom (start : Nat) (marked : label ∈ Site.marks items) : ∃ front back, items = front ++ .mark label
    :: back ∧ (placesFrom start items).lookup label = some (start + codeSize front) := by
  induction items generalizing start with
  | nil => cases marked
  | cons item rest ih =>
    cases item with
    | op o =>
      obtain ⟨front, back, rfl, found⟩ := ih (start + o.size) marked
      exact ⟨.op o :: front, back, rfl, found.trans (by rw [Nat.add_assoc]; rfl)⟩
    | mark other =>
      rw [placesFrom, lookup_cons]
      by_cases same : label = other
      · subst same
        exact ⟨[], rest, rfl, by rw [beq_self_eq_true]; rfl⟩
      · rw [Site.marks_mark] at marked
        obtain ⟨front, back, rfl, found⟩ := ih start ((mem_cons.mp marked).resolve_left same)
        refine ⟨.mark other :: front, back, rfl, ?_⟩
        rw [beq_eq_false_iff_ne.mpr same, found]
        simp [codeSize, Item.size]

lemma assemble_ok (marked : ∀ label ∈ Site.goals items, label ∈ Site.marks items) :
    assemble items = .ok (bytesFrom (fun label => ((placesFrom 0 items).lookup label).getD 0) 0 items) := by
  have none : unplaced? (placesFrom 0 items) items = none := by
    refine find?_eq_none.mpr fun label mem => ?_
    obtain ⟨front, back, -, found⟩ := lookup_placesFrom 0 (marked label mem)
    simp [found]
  simp only [assemble, none]

end WireCodec.Native
