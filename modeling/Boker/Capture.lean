import Boker.Loop

/-!
# What the tracer is told of each step

Under `Debug` the loop hands a step that passes its charge to `CaptureState` once, before
`execute`, and marks it logged; the deferred function reports an error the loop has not
logged, with the copies taken when the step was fetched. Those copies are the pc, the gas
and the stack. The cost is not among them: `cost` is a variable of the whole `Run`, written
only by the charge, so a step that fails a check before its gas is computed is reported
with the cost of the last step charged before it in the frame.
-/

namespace Boker
namespace Vm

variable {W G : Type} {ip : Interpreter W G} {runner : Runner W}

@[simp] theorem fetch_cost (f : Frame) : (fetch ip f).cost = f.cost := by unfold fetch; split <;> rfl

section debug

variable (hd : ip.cfg.debug = true)
include hd

end debug

/-- A table where opcode `0` costs three units of gas and goes on to the next opcode, and
every other opcode is invalid. -/
def pricedTable : OpCode → Operation Unit Unit := fun op =>
  { execute := fun pc _ c m st => .done pc c m st () false none none
    gasCost := fun _ _ _ _ _ _ => ⟨3, none, 0, ()⟩
    validateStack := fun _ => none
    memorySize := none
    halts := false, jumps := false, writes := false, valid := op == 0, reverts := false, returns := false }

/-- Under `Debug`, the invalid opcode after a step that cost three units is reported with
cost three, though no gas was computed for it: the pc, opcode, gas and cost the tracer
receives for each step. -/
theorem invalid_opcode_reported_with_previous_cost :
    (run ⟨⟨true, false, pricedTable⟩, (), false, fun _ => false⟩ 3 (Host.init ⟨0, false, none, ()⟩)
      ⟨[0, 1], [], 10⟩ []).map (fun r => r.2.1.captures.map fun c => (c.pc, c.op, c.gas, c.cost, c.err)) =
      some [(0, 0, 10, 3, none), (1, 1, 7, 3, some (.invalidOpcode 1))] :=
  rfl

/-- What a capture made before `execute` shares with the record of that dispatch: the
opcode, the call depth, the stack and the memory size. -/
def Capture.key (c : Capture) : OpCode × Int × Stack × ℕ := (c.op, c.depth, c.stack, c.mem.len)

def Dispatch.key (d : Dispatch) : OpCode × Int × Stack × ℕ := (d.op, d.depth, d.stack, d.memLen)

/-- The gas a capture reports is the gas left to its step's `execute` plus the cost
reported: the cost is what the charge deducted. -/
def Capture.Charged (c : Capture) : Prop := c.contract.gas.toNat + c.cost.toNat = c.gas.toNat

/-- From `h` to `h'`, the tracer was told, apart from errors, of exactly the steps
dispatched, in the order they were dispatched, each with the cost that was deducted. -/
def Host.Traced (h h' : Host W) : Prop :=
  ∃ cs ds, h'.captures = h.captures ++ cs ∧ h'.dispatched = h.dispatched ++ ds ∧
    (cs.filter fun c => c.err.isNone).map Capture.key = ds.map Dispatch.key ∧
    ∀ c ∈ cs, c.err = none → c.Charged

namespace Host.Traced

theorem trans {h₁ h₂ h₃ : Host W} (a : h₁.Traced h₂) (b : h₂.Traced h₃) : h₁.Traced h₃ := by
  obtain ⟨cs, ds, hc, hd, hk, hch⟩ := a
  obtain ⟨cs', ds', hc', hd', hk', hch'⟩ := b
  exact ⟨cs ++ cs', ds ++ ds', by simp [hc', hc], by simp [hd', hd], by simp [hk, hk'],
    List.forall_mem_append.mpr ⟨hch, hch'⟩⟩

theorem error {h : Host W} {c : Capture} (he : c.err.isSome) :
    h.Traced { h with captures := h.captures ++ [c] } :=
  ⟨[c], [], rfl, by simp, by simp [Option.isSome_iff_ne_none.mp he],
    List.forall_mem_singleton.mpr fun hn => by simp [hn] at he⟩

end Host.Traced

end Vm
end Boker
