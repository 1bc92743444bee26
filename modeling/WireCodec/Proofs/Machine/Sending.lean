import WireCodec.Proofs.Heap
import WireCodec.Proofs.Machine.Steps

/-! Runs that write ahead. Code that writes changes neither the arena nor the wire from its cursor on,
and reports an error at the cursor. -/
namespace WireCodec

variable {c c' c'' : Context} {σ : Type} {f : Finished σ}

/-- Where code that writes may lead. -/
structure Context.Sends (c c' : Context) : Prop where
  heap : c'.heap = c.heap
  forward : c.pos.toNat ≤ c'.pos.toNat
  above : ∀ k, c'.pos.toNat ≤ k → c'.wire[k]? = c.wire[k]?
  place : c'.errorCode ≠ 0 → c'.errorOffset = c'.pos

namespace Context

lemma Sends.trans (first : c.Sends c') (second : c'.Sends c'') : c.Sends c'' :=
  ⟨second.heap.trans first.heap, first.forward.trans second.forward,
    fun k le => (second.above k le).trans (first.above k (second.forward.trans le)), second.place⟩

lemma Clean.sends (clean : c.Clean) (heap : c'.heap = c.heap) (wire : c'.wire = c.wire) (pos : c'.pos = c.pos)
    (code : c'.errorCode = c.errorCode) : c.Sends c' :=
  ⟨heap, pos ▸ le_rfl, fun _ _ => wire ▸ rfl, fun failed => absurd (code.trans clean.noError) failed⟩

lemma Clean.sends_fail (clean : c.Clean) (code : ErrorCode) : c.Sends (c.fail code) := by
  rw [Context.fail, clean.failAt]
  exact ⟨rfl, le_rfl, fun _ _ => rfl, fun _ => rfl⟩

lemma Clean.sends_raise (clean : c.Clean) (e : CompileError) : c.Sends (c.raise e) := by
  rw [clean.raise]
  exact ⟨rfl, le_rfl, fun _ _ => rfl, fun _ => rfl⟩

lemma Clean.sends_put (clean : c.Clean) {data : List UInt8} (fits : c.pos.toNat + data.length ≤ c.wire.size) :
    c.Sends { c with wire := patch c.wire c.pos.toNat data, pos := c.pos + data.length.toUInt64 } := by
  have moved : (c.pos + data.length.toUInt64).toNat = c.pos.toNat + data.length := by
    have := clean.wireFits
    unfold maxBlock at this
    rw [UInt64.toNat_add, Nat.toUInt64_eq, UInt64.toNat_ofNat']
    omega
  refine ⟨rfl, by simp only [moved]; omega, fun k le => ?_, fun failed => absurd clean.noError failed⟩
  simp only [moved] at le ⊢
  rw [getElem?_patch, if_neg (by omega)]

end Context

def Reply.Sends (c : Context) : Reply σ → Prop
  | .returned _ c' _ | .ended _ c' _ => c.Sends c'
  | .refused => True

/-- An instruction of code that writes, if its calls lead to where such code may lead. -/
def Instr.Spares (table : HandleTable) (caller : Caller σ) : Instr Nat → Prop
  | .advance _ | .advanceReg _ | .readInt .. | .readBytes .. | .store .. | .storePtr .. | .zero .. => False
  | .call id _ _ => ∀ h args c s reply, table.resolve id = .ok h → c.Clean →
      caller h args c s = some reply → reply.Sends c
  | _ => True

namespace Machine

variable {table : HandleTable} {caller caller' : Caller σ} {p : Program} {eof : ErrorCode} {m m' : Machine}
  {i : Instr Nat} {s s' : σ}

lemma writeWord_sends (clean : m.ctx.Clean) (width : Width) (word : UInt64) :
    m.ctx.Sends (m.writeWord eof width word).2.ctx := by
  unfold writeWord
  split
  · rename_i fits
    refine clean.sends_put ?_
    rw [length_beBytes]
    cases width <;> exact of_decide_eq_true fits
  · exact clean.sends_fail eof

lemma writeBytes_sends (clean : m.ctx.Clean) (src : Reg) (len : UInt64) :
    m.ctx.Sends (m.writeBytes eof src len).2.ctx := by
  unfold writeBytes
  split
  · exact clean.sends_fail eof
  · rename_i fits
    split
    · exact clean.sends_raise _
    · rename_i data found
      obtain ⟨off, _, slice⟩ := Option.bind_eq_some_iff.mp found
      refine clean.sends_put ?_
      have length : data.length = len.toNat := by
        unfold Heap.slice? slice? at slice
        split at slice
        · cases slice
          simp
          omega
        · cases slice
      rw [length]
      simpa [Context.fits] using fits

lemma step_sends (clean : m.ctx.Clean) (spares : i.Spares table caller) : m.ctx.Sends (m.step eof i).2.ctx := by
  have loads : ∀ base off len access, (∀ at_, (access at_ : Machine).ctx = m.ctx) →
      m.ctx.Sends (m.onHeap i base off len access).2.ctx := by
    intro base off len access same
    unfold onHeap
    split
    · exact same _ ▸ clean.sends rfl rfl rfl rfl
    · exact clean.sends_raise _
  cases i with
  | check | checkReg =>
    simp only [step, checkRoom]
    split
    · exact clean.sends rfl rfl rfl rfl
    · exact clean.sends_fail eof
  | writeImm width value => exact writeWord_sends clean width _
  | writeInt width src => exact writeWord_sends clean width _
  | writeBytes src len => exact writeBytes_sends clean src _
  | load | loadPtr => exact loads _ _ _ _ fun _ => rfl
  | advance | advanceReg | readInt | readBytes | store | storePtr | zero => cases spares
  | enter =>
    simp only [step, enter]
    split
    · have inner : { m.ctx with frame := m.ctx.frame + 1 }.Clean := ⟨clean.noError, clean.noFault, clean.wireFits⟩
      exact ⟨(inner.sends_fail _).heap, (inner.sends_fail _).forward, (inner.sends_fail _).above,
        (inner.sends_fail _).place⟩
    · exact clean.sends rfl rfl rfl rfl
  | storeFrame src slot =>
    simp only [step, Context.writeSlot]
    split <;> exact clean.sends rfl rfl rfl rfl
  | error code => exact clean.sends_fail code
  | _ => exact clean.sends rfl rfl rfl rfl

lemma stepAny_sends (clean : m.ctx.Clean) (spares : i.Spares table caller) {r : Stepped σ}
    (step : stepAny table caller eof i m s = some r) :
    match r with
    | .ok (_, m', _) => m.ctx.Sends m'.ctx
    | .error f => m.ctx.Sends f.ctx := by
  rcases i.call_or with ⟨id, args, rets, rfl⟩ | noCall
  · simp only [stepAny, call] at step
    split at step
    · cases step
      exact clean.sends_raise _
    · rename_i h found
      obtain ⟨reply, replied, rfl⟩ := Option.map_eq_some_iff.mp step
      have sends := spares h _ _ _ _ found clean replied
      cases reply with
      | refused => exact clean.sends_raise _
      | ended => exact sends
      | returned =>
        simp only [resume, setAll_ctx]
        exact sends
  · rw [stepAny_eq noCall] at step
    cases step
    exact step_sends clean spares

lemma Halts.sends (keeps : caller.KeepsClean) (spares : ∀ i ∈ p.code, i.Spares table caller) {pc stop : Nat} (halts : Halts table caller p pc m s stop f) (clean : m.ctx.Clean) : m.ctx.Sends f.ctx := by
  induction halts with
  | off at_ => exact clean.sends_raise _
  | ended at_ step | stop at_ step => exact stepAny_sends clean (spares _ (Array.mem_of_getElem? at_)) step
  | next at_ step _ ih | jump at_ step _ ih =>
    exact (stepAny_sends clean (spares _ (Array.mem_of_getElem? at_)) step).trans
      (ih ((stepAny_goes keeps clean step (by simp)).clean clean))

lemma Halts.mono (answers : ∀ h args c s reply, caller h args c s = some reply → caller' h args c s = some reply)
    {pc stop : Nat} (halts : Halts table caller p pc m s stop f) : Halts table caller' p pc m s stop f := by
  have steps : ∀ {i m s r}, stepAny table caller p.job.eofCode i m s = some r →
      stepAny table caller' p.job.eofCode i m s = some r := by
    intro i m s r step
    cases i with
    | call id args rets =>
      simp only [stepAny, call] at step ⊢
      split at step
      · exact step
      · obtain ⟨reply, replied, resumed⟩ := Option.map_eq_some_iff.mp step
        exact Option.map_eq_some_iff.mpr ⟨reply, answers _ _ _ _ _ replied, resumed⟩
    | _ => exact step
  induction halts with
  | off at_ => exact .off at_
  | ended at_ step => exact .ended at_ (steps step)
  | stop at_ step => exact .stop at_ (steps step)
  | next at_ step _ ih => exact .next at_ (steps step) ih
  | jump at_ step _ ih => exact .jump at_ (steps step) ih

end Machine

end WireCodec
