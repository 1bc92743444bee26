import WireCodec.Proofs.Lowering.Piece

/-! Straight code: the action it does, one instruction after the other. -/
namespace WireCodec

open Machine

namespace Site

open Lowering

variable {E : Site} {α β : Type} {table : TypeTable} {n : Nat} {m : Machine} {x : Act α} {f : α → Act β}
  {post : α → Machine → Prop} {post' : β → Machine → Prop} {e : ErrorCode} {instrs rest : Code} {value : Int32}

lemma runs_nil {a : α} (holds : post a m) : E.Runs table n [] m (pure a) post :=
  fun _ _ _ _ => .pure holds

lemma Runs.append {first second : Code} (front : E.Runs table n first m x post)
    (back : ∀ a m₁, x m.ctx.scene = .ok a m₁.ctx.scene → Ran n m m₁ → post a m₁ →
      E.Runs table n second m₁ (f a) post') : E.Runs table n (first ++ second) m (x >>= f) post' := by
  intro start s has within
  obtain ⟨has₁, has₂⟩ := (E.has_append).mp has
  rw [List.length_append, ← Nat.add_assoc]
  exact (front start s has₁ within).bind fun a m₁ s₁ ok ran follows holds =>
    back a m₁ ok ran holds _ s₁ has₂ (within.trans follows.types)

lemma Runs.cons {i : Instr Dest} {rest : Code} (front : E.Runs table n [i] m x post)
    (back : ∀ a m₁, x m.ctx.scene = .ok a m₁.ctx.scene → Ran n m m₁ → post a m₁ →
      E.Runs table n rest m₁ (f a) post') : E.Runs table n (i :: rest) m (x >>= f) post' :=
  Runs.append front back

lemma Runs.mono {post₁ : α → Machine → Prop} {k : Nat} (runs : E.Runs table n instrs m x post) (le : k ≤ n)
    (imp : ∀ a m', Ran n m m' → post a m' → post₁ a m') : E.Runs table k instrs m x post₁ :=
  fun start s has within => (runs start s has within).mono le imp

lemma Runs.congr {y : Act α} (same : x m.ctx.scene = y m.ctx.scene)
    (runs : E.Runs table n instrs m y post) : E.Runs table n instrs m x post := by
  intro start s has within fit
  rw [same]
  exact runs start s has within fit

lemma Runs.silent {i : Instr Dest} {m₁ : Machine}
    (does : ∀ pc s pc₁, E.Has pc [i] → E.Does n (pc + 1) m₁ s pc₁ x post → E.Does n pc m s pc₁ x post)
    (runs : E.Runs table n rest m₁ x post) : E.Runs table n (i :: rest) m x post := by
  intro start s has within
  obtain ⟨has₁, has₂⟩ := (E.has_cons).mp has
  rw [List.length_cons, Nat.add_comm rest.length, ← Nat.add_assoc]
  exact does start s _ has₁ (runs (start + 1) s has₂ within)

section Silent

variable {rest : Code} {dst src : Reg} {slot : UInt8}

lemma Runs.nop (runs : E.Runs table n rest m x post) : E.Runs table n (.nop :: rest) m x post :=
  .silent (fun _ _ _ => .nop) runs

lemma Runs.seek {off : Int32} (runs : E.Runs table n rest (m.set dst (m.get src + immWord off)) x post) :
    E.Runs table n (.seek dst src off :: rest) m x post :=
  .silent (fun _ _ _ => .seek) runs

lemma Runs.movImm {value : UInt64} (runs : E.Runs table n rest (m.set dst value) x post) :
    E.Runs table n (.movImm dst value :: rest) m x post :=
  .silent (fun _ _ _ => .movImm) runs

lemma Runs.mov (runs : E.Runs table n rest (m.set dst (m.get src)) x post) :
    E.Runs table n (.mov dst src :: rest) m x post :=
  .silent (fun _ _ _ => .mov) runs

lemma Runs.imm {op : ImmOp} (runs : E.Runs table n rest (m.set dst (op.eval (m.get src) (immWord value))) x post) :
    E.Runs table n (.imm op dst src value :: rest) m x post :=
  .silent (fun _ _ _ => .imm) runs

lemma Runs.loadFrame (runs : E.Runs table n rest (m.set dst (m.ctx.readSlot slot)) x post) :
    E.Runs table n (.loadFrame dst slot :: rest) m x post :=
  .silent (fun _ _ _ => .loadFrame) runs

lemma Runs.storeFrame (inFrame : slot.toNat < 8) (below : n ≤ m.ctx.frame.toNat * 8)
    (runs : E.Runs table n rest (m.keep slot (m.get src)) x post) :
    E.Runs table n (.storeFrame src slot :: rest) m x post :=
  .silent (fun _ _ _ has => .storeFrame has inFrame below) runs

end Silent

section Actions

variable {dst src base len : Reg} {off : UInt32} {width : Width} {word addr count : UInt64}

lemma runs_fetch (atBase : m.get base = addr) :
    E.Runs table n [.load width false dst base off] m (Act.fetch width addr off) fun word m' =>
      m'.get = Function.update m.get dst word := by
  subst atBase
  exact fun _ _ has _ => does_fetch has

lemma runs_fetchPtr (atBase : m.get base = addr) :
    E.Runs table n [.loadPtr dst base off] m (Act.fetch .w4 addr off) fun word m' =>
      m'.get = Function.update m.get dst word := by
  subst atBase
  exact fun _ _ has _ => does_fetchPtr has

lemma runs_check (isEof : E.eof = e) (k : UInt32) :
    E.Runs table n [.check k] m (Act.need e k.toUInt64) fun _ m' => m' = m :=
  fun _ _ has _ => does_check has isEof

lemma runs_checkReg (isEof : E.eof = e) (atSrc : m.get src = word) :
    E.Runs table n [.checkReg src] m (Act.need e word) fun _ m' => m' = m := by
  subst atSrc
  exact fun _ _ has _ => does_checkReg has isEof

lemma runs_advanceReg (atSrc : m.get src = word) :
    E.Runs table n [.advanceReg src] m (Act.move word) fun _ m' => m'.get = m.get := by
  subst atSrc
  exact fun _ _ has _ => does_advanceReg has

lemma runs_read {signed : Bool} (isEof : E.eof = e) :
    E.Runs table n [.readInt width signed dst] m (Act.read e width signed) fun word m' =>
      m'.get = Function.update m.get dst word :=
  fun _ _ has _ => does_read has isEof

lemma runs_copyIn (isEof : E.eof = e) (atDst : m.get dst = addr) (atLen : m.get len = count) :
    E.Runs table n [.readBytes dst len] m (Act.copyIn e addr count) fun _ m' => m'.get = m.get := by
  subst atDst atLen
  exact fun _ _ has _ => does_copyIn has isEof

lemma runs_store (atSrc : m.get src = word) (atBase : m.get base = addr) :
    E.Runs table n [.store width src base off] m (Act.store width word addr off) fun _ m' =>
      m'.get = m.get := by
  subst atSrc atBase
  exact fun _ _ has _ => does_store has

lemma runs_storePtr (atSrc : m.get src = word) (atBase : m.get base = addr) :
    E.Runs table n [.storePtr src base off] m (Act.storePtr word addr off) fun _ m' => m'.get = m.get := by
  subst atSrc atBase
  exact fun _ _ has _ => does_storePtr has

lemma runs_zero {k : UInt32} (atBase : m.get base = addr) :
    E.Runs table n [.zero base off k] m (Act.zero addr off k) fun _ m' => m'.get = m.get := by
  subst atBase
  exact fun _ _ has _ => does_zero has

lemma runs_alloc (atSize : m.get src = count) : E.Runs table n [allocate src dst] m (Act.alloc count) fun addr m' =>
      m'.get = Function.update m.get dst addr := by
  subst atSize
  exact fun _ _ has _ => does_alloc has

lemma runs_distinct {data number : Reg} {elem : TypeDesc} {index : Nat} (low : index < 2 ^ 32)
    (numbered : table.get? index = some elem) (atNumber : m.get number = index.toUInt64) (atData : m.get data = addr)
    (atLen : m.get len = count) : E.Runs table n [.call Builtin.setCheck [number, data, len] []] m
    (Act.distinct E.known elem addr count) fun _ m' => m'.get = m.get := by
  subst atData atLen
  intro start s has within
  have same : index.toUInt64.toUInt32.toNat = index := by
    simp only [Nat.toUInt64_eq, UInt64.toNat_toUInt32, UInt64.toNat_ofNat']
    omega
  refine does_distinct has (within _ _ ?_)
  rwa [atNumber, same]

end Actions

lemma Runs.exitIf {cond : Cond} {a : Reg} {p : Prop} [Decidable p]
    (same : cond.eval (m.get a) (immWord value) = true ↔ p) (runs : ¬ p → E.Runs table n rest m x post) :
    E.Runs table n (.branchImm cond a value (.exit e) :: rest) m (if p then Act.fail e else x) post := by
  intro start s has within
  obtain ⟨has₁, has₂⟩ := (E.has_cons).mp has
  rw [List.length_cons, Nat.add_comm rest.length, ← Nat.add_assoc]
  split
  · rename_i taken
    exact .exitTo has₁ (same.mpr taken)
  · rename_i passed
    exact .passBranch has₁ (Bool.eq_false_iff.mpr (mt same.mp passed)) (runs passed (start + 1) s has₂ within)

end Site

end WireCodec
