import WireCodec.Native.Function
import WireCodec.Proofs.Allocation
import WireCodec.Proofs.Flow.Pruning
import WireCodec.Proofs.Native.Emission

/-! Machine code can be made for every program that passes the check against the fixed
routines: the program has at most as many registers as there are places. -/
namespace WireCodec

open Native List

namespace Program

variable {p : Program} {table : HandleTable}

lemma allocate_ok (p : Program) (joined : List Reg) : ∃ alloc, p.allocate .default joined = .ok alloc := by
  have few := Allocation.length_order p.code.toList joined
  rw [← Allocation.length_registers] at few
  exact exists_allocate_iff.mpr (le_trans few (show 19 ≤ Limits.default.capacity by decide))

def site (p : Program) (table : HandleTable) (alloc : Allocation) (symbols : Symbols) : Native.Site :=
  ⟨alloc, .ofSizes (p.outArgs table) alloc.spillCount, table, p.job, p.code.size, symbols⟩

lemma nativeItems_eq (p : Program) (table : HandleTable) (alloc : Allocation) (symbols : Symbols) :
    p.nativeItems table alloc symbols = (p.site table alloc symbols).function p.code.toList >>=
      fun items => .ok ((p.site table alloc symbols).frame, items) := rfl

lemma site_fits {limits : Limits} {joined : List Reg} {alloc : Allocation} (lawful : Lawful table p.code.toList)
    (made : p.allocate limits joined = .ok alloc) (symbols : Symbols) :
    ∀ i ∈ p.code.toList, (p.site table alloc symbols).Fits i := by
  intro i mem
  have located : ∀ reg, reg ∈ i.uses ∨ reg ∈ i.defs → ∃ loc, alloc.location? reg = some loc := fun reg inside =>
    (ordered_of_allocate made).2.isSome_location?_iff.mpr (Allocation.mem_order.mpr (.inr ⟨i, mem, inside⟩))
  exact ⟨fun reg use => located reg (.inl use), fun reg define => located reg (.inr define),
    (lawful.each i mem).inside, (lawful.each i mem).calls⟩

lemma prepared_ok (checked : verifyCode table p.code.toList = .ok ()) :
    ∃ q joined, p.prepared table = .ok (q, joined) ∧ verifyCode table q.code.toList = .ok () := by
  by_cases decode : p.job = .decode
  · obtain ⟨g, q, built, pruned, -, checked'⟩ := prune_ok checked
    refine ⟨q, Reg.all.filter (g.joins p.code).flatten.contains, ?_, checked'⟩
    simp only [prepared, if_pos decode, built, pruned, orDefect, bind, Except.bind, pure, Except.pure, checked']
  · refine ⟨p, [], ?_, checked⟩
    simp only [prepared, if_neg decode, orDefect, bind, Except.bind, pure, Except.pure, checked]

lemma callsFar_builtin (i : Instr Nat) : callsFar Builtin.table i = false := by
  cases i with
  | call id args rets => rcases id with _ | _ | _ | _ | _ | _ | _ | id <;> rfl
  | _ => rfl

/-- Machine code can be made for every program that passes the check. It is entered at its start. -/
lemma native_ok (checked : verifyCode Builtin.table p.code.toList = .ok ()) (symbols : Symbols) :
    ∃ code, p.native Builtin.table .default symbols = .ok code ∧ code.entry = 0 := by
  obtain ⟨q, joined, prepared, checked'⟩ := prepared_ok checked
  obtain ⟨lawful, -⟩ := verifyCode_eq_ok_iff.mp checked'
  obtain ⟨alloc, allocated⟩ := q.allocate_ok joined
  have fits := site_fits lawful allocated symbols
  obtain ⟨blocks, emitted, each⟩ := Native.Site.function_ok fits
  obtain ⟨bytes, assembled⟩ : ∃ bytes, assemble _ = .ok bytes :=
    ⟨_, assemble_ok (Native.Site.marked_whole fits (by simp [site]) (mem_of_getLast? lawful.last) each)⟩
  have near : q.code.toList.any (callsFar Builtin.table) = false :=
    List.any_eq_false.mpr fun i _ => by simp [callsFar_builtin]
  have made : q.nativeItems Builtin.table alloc symbols =
      .ok ((q.site Builtin.table alloc symbols).frame, (q.site Builtin.table alloc symbols).whole q.code.toList blocks) := by
    rw [nativeItems_eq, emitted]
    rfl
  refine ⟨⟨q.title, bytes, 0, (q.site Builtin.table alloc symbols).frame.size, 1, alloc.spillPointerMap⟩, ?_, rfl⟩
  simp only [native, prepared, allocated, orDefect, near, made, assembled, bind, Except.bind, pure,
    Except.pure, Bool.false_eq_true, if_false]

end Program

end WireCodec
