import WireCodec.Proofs.Codec.Simulation

/-! The action of each instruction. Instructions that only move words between registers and
frame slots do nothing an action would show. -/
namespace WireCodec

open Machine Lowering Peephole

variable {src dst base a : Reg} {width : Width} {value : Int32} {off : UInt32} {index : Nat} {cond : Cond}

@[simp] lemma immWord_zero : immWord 0 = 0 := rfl

lemma add_immWord_minus_one (word : UInt64) : word + immWord (-1) = word - 1 := by
  rw [UInt64.sub_eq_add_neg]
  rfl

lemma immWord_of_lt {x : UInt32} (small : x.toNat < 2 ^ 31) : immWord x.toInt32 = x.toUInt64 := by
  have msb : x.toBitVec.msb = false := by
    rw [BitVec.msb_eq_decide, decide_eq_false_iff_not, Nat.not_le]
    exact small
  apply UInt64.eq_of_toBitVec_eq
  change x.toBitVec.signExtend 64 = x.toBitVec.setWidth 64
  exact BitVec.signExtend_eq_setWidth_of_msb_false msb

lemma toNat_add_immWord {base : UInt64} {x : UInt32} (small : x.toNat < 2 ^ 31) (fits : base.toNat + x.toNat < 2 ^ 64) :
    (base + immWord x.toInt32).toNat = base.toNat + x.toNat := by
  rw [immWord_of_lt small, UInt64.toNat_add, UInt32.toNat_toUInt64, Nat.mod_eq_of_lt fits]

lemma immWord_toInt32 {word : UInt64} (small : word.toNat < 2 ^ 31) : immWord word.toUInt32.toInt32 = word := by
  have same : word.toUInt32.toNat = word.toNat := by
    rw [UInt64.toNat_toUInt32]
    omega
  rw [immWord_of_lt (same ▸ small)]
  apply UInt64.toNat_inj.mp
  rw [UInt32.toNat_toUInt64, same]

lemma Machine.get_set (m : Machine) (reg : Reg) (word : UInt64) :
    (m.set reg word).get = Function.update m.get reg word := by
  funext other
  have inj : other.index.val = reg.index.val ↔ other = reg := by
    constructor
    · intro same
      have := congrArg Reg.ofIndex? same
      rw [Reg.ofIndex?_index, Reg.ofIndex?_index] at this
      exact Option.some.inj this
    · rintro rfl
      rfl
  simp only [Machine.get, Machine.set, Function.update_apply, Vector.getElem_set]
  by_cases same : other = reg
  · simp [same]
  · have : ¬ reg.index.val = other.index.val := fun eq => same (inj.mp eq.symm)
    simp [same, this]

namespace Site

variable {E : Site} {α : Type} {n pc pc₁ : Nat} {m : Machine} {s : Session} {x : Act α} {post : α → Machine → Prop}
  {e : ErrorCode} {branch : Dest → Instr Dest} {test : Machine → Bool} {i : Instr Nat} {dest : Dest} {k : UInt32}
  {len : Reg}

lemma ran_ctx {m₁ : Machine} (frame : m₁.ctx.frame = m.ctx.frame) (limit : m₁.ctx.limit = m.ctx.limit)
    (same : m.ctx.SameReport m₁.ctx) (frames : m₁.ctx.frames = m.ctx.frames) : Ran n m m₁ :=
  ⟨frame, limit, same.size, same.clean, fun _ _ => by rw [Context.slotAt, Context.slotAt, frames]⟩

attribute [local simp] Machine.step Instr.mapTargets Machine.fail Site.eof

lemma does_room {k : UInt64} (at_ : E.At pc i) (other : ∀ width value, i ≠ .writeImm width value)
    (step : stepAny Builtin.table E.caller E.program.job.eofCode i m s =
      some (.ok ((m.checkRoom E.program.job.eofCode k).1, (m.checkRoom E.program.job.eofCode k).2, s)))
    (isEof : E.eof = e) : E.Does n pc m s (pc + 1) (Act.need e k) fun _ m' => m' = m := by
  intro fit
  have room : m.ctx.fits k = m.ctx.scene.fits k := rfl
  simp only [Act.need, ← room]
  split
  · rename_i fits
    refine leads_next m fit at_ ?_ rfl (.refl n m) rfl
    simp [step, checkRoom, fits]
  · rename_i short
    refine leads_fail m fit (isEof ▸ E.eof_ne_ok) at_ other ?_ fit.clean rfl
    subst isEof
    simp [step, checkRoom, short]

lemma does_check (has : E.Has pc [.check k]) (isEof : E.eof = e) :
    E.Does n pc m s (pc + 1) (Act.need e k.toUInt64) fun _ m' => m' = m :=
  does_room has.at_ nofun rfl isEof

lemma does_checkReg (has : E.Has pc [.checkReg src]) (isEof : E.eof = e) :
    E.Does n pc m s (pc + 1) (Act.need e (m.get src)) fun _ m' => m' = m :=
  does_room has.at_ nofun rfl isEof

lemma does_advance (has : E.Has pc [.advance k]) :
    E.Does n pc m s (pc + 1) (Act.move k.toUInt64) fun _ m' => m'.get = m.get := fun fit =>
  leads_next _ fit has.at_ rfl rfl (ran_ctx rfl rfl ⟨rfl, rfl, rfl⟩ rfl) rfl

lemma does_advanceReg (has : E.Has pc [.advanceReg src]) :
    E.Does n pc m s (pc + 1) (Act.move (m.get src)) fun _ m' => m'.get = m.get := fun fit =>
  leads_next _ fit has.at_ rfl rfl (ran_ctx rfl rfl ⟨rfl, rfl, rfl⟩ rfl) rfl

lemma does_read {signed : Bool} (has : E.Has pc [.readInt width signed dst]) (isEof : E.eof = e) :
    E.Does n pc m s (pc + 1) (Act.read e width signed) fun word m' =>
      m'.get = Function.update m.get dst word := by
  intro fit
  have here : m.ctx.scene.wire = m.ctx.wire ∧ m.ctx.scene.pos = m.ctx.pos := ⟨rfl, rfl⟩
  simp only [Act.read, here]
  cases bytes : slice? m.ctx.wire m.ctx.pos.toNat width.bytes with
  | none =>
    refine leads_fail m fit (isEof ▸ E.eof_ne_ok) has.at_ nofun ?_ fit.clean rfl
    subst isEof
    simp [stepAny, readWord, bytes]
  | some data =>
    refine leads_next ((m.advance width.bytes.toUInt64).set dst _) fit has.at_ ?_ rfl
      (ran_ctx rfl rfl ⟨rfl, rfl, rfl⟩ rfl) (get_set (m.advance width.bytes.toUInt64) dst _)
    simp [stepAny, readWord, bytes]

lemma ran_putWire (m : Machine) (data : List UInt8) : Ran n m (m.putWire data) :=
  ran_ctx rfl rfl ⟨rfl, rfl, by simp [putWire, size_patch]⟩ rfl

lemma does_literal {value : UInt64} (has : E.Has pc [.writeImm width value]) :
    E.Does n pc m s (pc + 1) (Act.literal (beBytes width.bytes value)) fun _ m' => m'.get = m.get := by
  intro fit
  have room : m.ctx.fits width.bytes.toUInt64 = m.ctx.scene.fits width.bytes.toUInt64 := rfl
  simp only [Act.literal, length_beBytes, ← room]
  split
  · rename_i fits
    refine leads_next (m.putWire _) fit has.at_ ?_ rfl (ran_putWire m _) rfl
    simp [stepAny, writeWord, fits]
  · rename_i short
    refine ⟨pc, ⟨.stopped, m.ctx.fail E.eof, s⟩, @Machine.Halts.stop _ _ _ _ pc m
      { m with ctx := m.ctx.fail E.eof } s s _ has.at_ ?_, fun _ => ⟨_, rfl⟩, ?_, fit.sound.follows⟩
    · simp [stepAny, writeWord, short]
    · simp only [Context.fail, fit.clean.failAt]
      exact ⟨rfl, rfl, fit.clean.noFault⟩

lemma does_write (has : E.Has pc [.writeInt width src]) (isEof : E.eof = e) :
    E.Does n pc m s (pc + 1) (Act.write e (beBytes width.bytes (m.get src))) fun _ m' => m'.get = m.get := by
  intro fit
  have room : m.ctx.fits width.bytes.toUInt64 = m.ctx.scene.fits width.bytes.toUInt64 := rfl
  simp only [Act.write, length_beBytes, ← room]
  split
  · rename_i fits
    refine leads_next (m.putWire _) fit has.at_ ?_ rfl (ran_putWire m _) rfl
    simp [stepAny, writeWord, fits]
  · rename_i short
    refine leads_fail m fit (isEof ▸ E.eof_ne_ok) has.at_ (fun _ _ => by rintro ⟨⟩) ?_ fit.clean rfl
    subst isEof
    simp [stepAny, writeWord, short]

lemma does_copyIn (has : E.Has pc [.readBytes dst len]) (isEof : E.eof = e) :
    E.Does n pc m s (pc + 1) (Act.copyIn e (m.get dst) (m.get len)) fun _ m' => m'.get = m.get := by
  intro fit
  have here : m.ctx.scene.wire = m.ctx.wire ∧ m.ctx.scene.pos = m.ctx.pos := ⟨rfl, rfl⟩
  have place : m.ctx.scene.at? (m.get dst) 0 (m.get len).toNat = m.heapAt? dst 0 (m.get len).toNat := rfl
  simp only [Act.copyIn, here, place]
  cases bytes : slice? m.ctx.wire m.ctx.pos.toNat (m.get len).toNat with
  | none =>
    refine leads_fail m fit (isEof ▸ E.eof_ne_ok) has.at_ nofun ?_ fit.clean rfl
    subst isEof
    simp [stepAny, readBytes, bytes]
  | some data =>
    cases inside : m.heapAt? dst 0 (m.get len).toNat with
    | none =>
      refine leads_fault (d := .readPastHeap (m.get len)) fit rfl has.at_ nofun ?_
      simp [stepAny, readBytes, bytes, inside, Machine.fault]
    | some off =>
      refine leads_next ({ m with ctx := m.ctx.patchHeap off data }.advance (m.get len)) fit has.at_
        ?_ rfl (ran_ctx rfl rfl ⟨rfl, rfl, rfl⟩ rfl) rfl
      simp [stepAny, readBytes, bytes, inside]

lemma does_copyOut (has : E.Has pc [.writeBytes src len]) (isEof : E.eof = e) :
    E.Does n pc m s (pc + 1) (Act.copyOut e (m.get src) (m.get len)) fun _ m' => m'.get = m.get := by
  intro fit
  have room : m.ctx.scene.fits (m.get len) = m.ctx.fits (m.get len) := rfl
  have place : ((m.ctx.scene.at? (m.get src) 0 (m.get len).toNat).bind fun off =>
      m.ctx.scene.heap.slice? off (m.get len).toNat) =
    (m.heapAt? src 0 (m.get len).toNat).bind fun off => m.ctx.heap.slice? off (m.get len).toNat :=
    rfl
  simp only [Act.copyOut, room, place]
  split
  · rename_i short
    refine leads_fail m fit (isEof ▸ E.eof_ne_ok) has.at_ nofun ?_ fit.clean rfl
    subst isEof
    simp only [Bool.not_eq_true'] at short
    simp [stepAny, writeBytes, short]
  · rename_i fits
    cases inside : (m.heapAt? src 0 (m.get len).toNat).bind fun off =>
        m.ctx.heap.slice? off (m.get len).toNat with
    | none =>
      refine leads_fault (d := .writePastHeap (m.get len)) fit rfl has.at_ nofun ?_
      simp only [stepAny, Machine.step, writeBytes, Instr.mapTargets, inside]
      rw [if_neg fits]
      rfl
    | some data =>
      refine leads_next (m.putWire data) fit has.at_ ?_ rfl (ran_putWire m data) rfl
      simp only [stepAny, Machine.step, writeBytes, Instr.mapTargets, inside]
      rw [if_neg fits]

lemma does_onHeap {β : Type} {len : Nat} {access : UInt32 → Scene → β × Scene}
    {run : UInt32 → Machine} {post : β → Machine → Prop} (at_ : E.At pc i)
    (other : ∀ width value, i ≠ .writeImm width value)
    (step : stepAny Builtin.table E.caller E.program.job.eofCode i m s =
      some (.ok ((m.onHeap i base off len run).1, (m.onHeap i base off len run).2, s)))
    (same : ∀ k, (run k).ctx.scene = (access k m.ctx.scene).2) (ran : ∀ k, Ran n m (run k))
    (holds : ∀ k, post (access k m.ctx.scene).1 (run k)) :
    E.Does n pc m s (pc + 1) (Act.onHeap (m.get base) off len access) post := by
  intro fit
  have place : m.ctx.scene.at? (m.get base) off len = m.heapAt? base off len := rfl
  simp only [Act.onHeap, place]
  cases inside : m.heapAt? base off len with
  | none =>
    refine leads_fault (d := .outsideHeap i) fit rfl at_ other ?_
    rw [step]
    simp [Machine.onHeap, inside, Machine.fault]
  | some k =>
    refine leads_next (run k) fit at_ ?_ (same k) (ran k) (holds k)
    rw [step]
    simp [Machine.onHeap, inside]

lemma does_fetch (has : E.Has pc [.load width false dst base off]) :
    E.Does n pc m s (pc + 1) (Act.fetch width (m.get base) off) fun word m' =>
      m'.get = Function.update m.get dst word :=
  does_onHeap has.at_ nofun rfl (fun _ => rfl) (fun _ => ran_ctx rfl rfl ⟨rfl, rfl, rfl⟩ rfl) fun _ => get_set m dst _

lemma does_fetchPtr (has : E.Has pc [.loadPtr dst base off]) :
    E.Does n pc m s (pc + 1) (Act.fetch .w4 (m.get base) off) fun word m' =>
      m'.get = Function.update m.get dst word :=
  does_onHeap has.at_ nofun rfl (fun _ => rfl) (fun _ => ran_ctx rfl rfl ⟨rfl, rfl, rfl⟩ rfl) fun _ => get_set m dst _

lemma does_store (has : E.Has pc [.store width src base off]) :
    E.Does n pc m s (pc + 1) (Act.store width (m.get src) (m.get base) off) fun _ m' => m'.get = m.get :=
  does_onHeap has.at_ nofun rfl (fun _ => rfl) (fun _ => ran_ctx rfl rfl ⟨rfl, rfl, rfl⟩ rfl) fun _ => rfl

lemma scene_storePointer (c : Context) (off new : UInt32) :
    (c.storePointer off new).scene = c.scene.storePointer off new := by
  obtain ⟨wire, pos, heap, root, frames, frame, limit, code, offset, fault, barrier, stores⟩ := c
  cases barrier <;> rfl

lemma does_storePtr (has : E.Has pc [.storePtr src base off]) :
    E.Does n pc m s (pc + 1) (Act.storePtr (m.get src) (m.get base) off) fun _ m' => m'.get = m.get := by
  refine does_onHeap has.at_ nofun rfl (fun k => scene_storePointer m.ctx k _) (fun k => ?_) fun _ => rfl
  have same := storePointer_sameReport m.ctx k (m.get src).toUInt32
  have parts : ∀ c : Context, (c.storePointer k (m.get src).toUInt32).frame = c.frame ∧
      (c.storePointer k (m.get src).toUInt32).limit = c.limit ∧
      (c.storePointer k (m.get src).toUInt32).frames = c.frames := by
    rintro ⟨wire, pos, heap, root, frames, frame, limit, code, offset, fault, barrier, stores⟩
    cases barrier <;> exact ⟨rfl, rfl, rfl⟩
  obtain ⟨frame, limit, frames⟩ := parts m.ctx
  exact ran_ctx frame limit same frames

lemma does_zero {len : UInt32} (has : E.Has pc [.zero base off len]) :
    E.Does n pc m s (pc + 1) (Act.zero (m.get base) off len) fun _ m' => m'.get = m.get :=
  does_onHeap has.at_ nofun rfl (fun _ => rfl) (fun _ => ran_ctx rfl rfl ⟨rfl, rfl, rfl⟩ rfl) fun _ => rfl

lemma does_exit (real : e ≠ .ok) (at_ : E.At pc (.error e)) : E.Does n pc m s pc₁ (Act.fail e : Act α) post :=
  fun fit => leads_fail m fit real at_ nofun rfl fit.clean rfl

/-! Steps that an action does not show. -/

lemma ran_set (m : Machine) (reg : Reg) (word : UInt64) : Ran n m (m.set reg word) :=
  ran_ctx rfl rfl (.refl _) rfl

lemma Does.nop (has : E.Has pc [.nop]) (rest : E.Does n (pc + 1) m s pc₁ x post) : E.Does n pc m s pc₁ x post :=
  .next has.at_ rfl rfl (.refl _ _) rest

lemma Does.seek {off : Int32} (has : E.Has pc [.seek dst src off])
    (rest : E.Does n (pc + 1) (m.set dst (m.get src + immWord off)) s pc₁ x post) : E.Does n pc m s pc₁ x post :=
  .next has.at_ rfl rfl (ran_set m _ _) rest

lemma Does.movImm {value : UInt64} (has : E.Has pc [.movImm dst value])
    (rest : E.Does n (pc + 1) (m.set dst value) s pc₁ x post) : E.Does n pc m s pc₁ x post :=
  .next has.at_ rfl rfl (ran_set m _ _) rest

lemma Does.mov (has : E.Has pc [.mov dst src]) (rest : E.Does n (pc + 1) (m.set dst (m.get src)) s pc₁ x post) :
    E.Does n pc m s pc₁ x post :=
  .next has.at_ rfl rfl (ran_set m _ _) rest

lemma Does.imm {op : ImmOp} (has : E.Has pc [.imm op dst src value])
    (rest : E.Does n (pc + 1) (m.set dst (op.eval (m.get src) (immWord value))) s pc₁ x post) :
    E.Does n pc m s pc₁ x post :=
  .next has.at_ rfl rfl (ran_set m _ _) rest

lemma Does.loadFrame {slot : UInt8} (has : E.Has pc [.loadFrame dst slot])
    (rest : E.Does n (pc + 1) (m.set dst (m.ctx.readSlot slot)) s pc₁ x post) : E.Does n pc m s pc₁ x post :=
  .next has.at_ rfl rfl (ran_set m _ _) rest

def IsTest (branch : Dest → Instr Dest) (test : Machine → Bool) : Prop :=
  ∀ (settle : Dest → Nat) (caller : Caller Session) (eof : ErrorCode) (d : Dest) (m : Machine)
    (s : Session), stepAny Builtin.table caller eof ((branch d).mapTargets settle) m s =
      some (.ok (if test m then .jump (settle d) else .next, m, s))

lemma isTest_branchImm (cond : Cond) (a : Reg) (value : Int32) :
    IsTest (.branchImm cond a value) fun m => cond.eval (m.get a) (immWord value) := by
  intro settle caller eof d m s
  simp only [stepAny, Machine.step, branch, Instr.mapTargets]

lemma isTest_branchReg (cond : Cond) (a b : Reg) :
    IsTest (.branchReg cond a b) fun m => cond.eval (m.get a) (m.get b) := by
  intro settle caller eof d m s
  simp only [stepAny, Machine.step, branch, Instr.mapTargets]

lemma Does.takeTest (isTest : IsTest branch test) (has : E.Has pc [branch (.place index)]) (taken : test m = true)
    (rest : E.Does n index m s pc₁ x post) : E.Does n pc m s pc₁ x post := by
  refine .jump has.at_ ?_ rest
  rw [isTest, if_pos taken, E.settle_place]

lemma Does.passTest (isTest : IsTest branch test) (has : E.Has pc [branch dest]) (passed : test m = false)
    (rest : E.Does n (pc + 1) m s pc₁ x post) : E.Does n pc m s pc₁ x post := by
  refine .next has.at_ ?_ rfl (.refl n m) rest
  rw [isTest, if_neg (Bool.eq_false_iff.mp passed)]

lemma Does.branchTo (has : E.Has pc [.branchImm cond a value (.place index)])
    (taken : cond.eval (m.get a) (immWord value) = true) (rest : E.Does n index m s pc₁ x post) :
    E.Does n pc m s pc₁ x post :=
  .takeTest (isTest_branchImm cond a value) has taken rest

lemma Does.exitTo (has : E.Has pc [.branchImm cond a value (.exit e)])
    (taken : cond.eval (m.get a) (immWord value) = true) : E.Does n pc m s pc₁ (Act.fail e : Act α) post := by
  obtain ⟨real, at_⟩ := has.exit (List.mem_singleton.mpr rfl)
  refine .jump has.at_ ?_ (does_exit real at_)
  simp [stepAny, branch, taken]

lemma Does.passBranch (has : E.Has pc [.branchImm cond a value dest])
    (passed : cond.eval (m.get a) (immWord value) = false) (rest : E.Does n (pc + 1) m s pc₁ x post) :
    E.Does n pc m s pc₁ x post :=
  .passTest (isTest_branchImm cond a value) has passed rest

lemma Does.jumpTo (has : E.Has pc [.jump (.place index)]) (rest : E.Does n index m s pc₁ x post) :
    E.Does n pc m s pc₁ x post := by
  refine .jump has.at_ ?_ rest
  simp [stepAny, E.settle_place]

end Site

end WireCodec
