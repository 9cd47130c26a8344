import Boker.Checks

/-!
# Termination by gas

With metering on, a pass that goes back to the loop head has been charged its cost before
`execute`, and if `execute` credits back less than that cost the contract's gas drops. A
nested `Run` is bounded the same way only if it is given less gas than its caller had:
`execute` is free to start one with any contract, and a nested frame that starts
another with the same gas never returns.
-/

namespace Boker
namespace Vm

variable {W G : Type} {ip : Interpreter W G} {runner : Runner W}

/-- What bounds a run by its gas: metering on, the abort flag never set, and for every
step that passes the checks and the charge, an `execute` that gives each nested `Run` less
gas than the frame had before the step and, as long as each nested `Run` gives its
contract back with at most the gas it was given, leaves the contract with at most the gas
it had before the step, and with less unless the operation halts or reverts. -/
structure GasBounded (ip : Interpreter W G) : Prop where
  metered : ip.cfg.disableGasMetering = false
  neverAborted : ∀ n, ip.abort n = false
  keeps : ∀ (f : Frame) (h : Host W) ms f₁ h₁, check ip h.evm.readOnly (fetch ip f).op f.stack = .ok ms →
    charge ip (ip.cfg.jumpTable (fetch ip f).op) ms (fetch ip f) h = .ok (f₁, h₁) →
    ((ip.cfg.jumpTable (fetch ip f).op).execute f₁.pc h₁.evm f₁.contract f₁.mem f₁.stack).endsWithin
      fun _ c _ _ => c.gas.toNat ≤ f.contract.gas.toNat
  credits : ∀ (f : Frame) (h : Host W) ms f₁ h₁, check ip h.evm.readOnly (fetch ip f).op f.stack = .ok ms →
    charge ip (ip.cfg.jumpTable (fetch ip f).op) ms (fetch ip f) h = .ok (f₁, h₁) →
    (ip.cfg.jumpTable (fetch ip f).op).halts = false → (ip.cfg.jumpTable (fetch ip f).op).reverts = false →
    ((ip.cfg.jumpTable (fetch ip f).op).execute f₁.pc h₁.evm f₁.contract f₁.mem f₁.stack).endsWithin
      fun _ c _ _ => c.gas.toNat < f.contract.gas.toNat
  calls : ∀ (f : Frame) (h : Host W) ms f₁ h₁, check ip h.evm.readOnly (fetch ip f).op f.stack = .ok ms →
    charge ip (ip.cfg.jumpTable (fetch ip f).op) ms (fetch ip f) h = .ok (f₁, h₁) →
    ((ip.cfg.jumpTable (fetch ip f).op).execute f₁.pc h₁.evm f₁.contract f₁.mem f₁.stack).calls
      fun callee => callee.gas.toNat < f.contract.gas.toNat

theorem perform_some {P : Contract → Prop} (hr : ∀ h c i, P c → ∃ r, runner h c i = some r) {e : Exec W}
    (he : e.calls P) (h : Host W) : ∃ r, perform runner e h = some r := by
  induction e generalizing h with
  | done => exact ⟨_, rfl⟩
  | call s ro callee input k ih =>
    obtain ⟨⟨o, h', c'⟩, hx⟩ := hr (h.setState s ro) callee input he.1
    simp only [perform, hx]
    cases o with
    | panic => exact ⟨_, rfl⟩
    | ret ret err => exact ih _ _ _ _ (he.2 _ _ _ _) h'

/-- When every nested frame gives its contract back with at most the gas it was given,
the contract `execute` returns satisfies what the program ensures at its leaves. -/
theorem perform_endsWithin {P : UInt64 → Contract → Memory → Stack → Prop}
    (hr : ∀ h c i o h' c', runner h c i = some (o, h', c') → c'.gas.toNat ≤ c.gas.toNat) {e : Exec W}
    {h h' : Host W} {pc : UInt64} {c : Contract} {m : Memory} {st : Stack} {res : Option Bytes}
    {err : Option VMError} (he : e.endsWithin P)
    (hp : perform runner e h = some (.returned pc c m st res err, h')) : P pc c m st := by
  induction e generalizing h with
  | done => simp only [perform, Option.some.injEq, Prod.mk.injEq, Performed.returned.injEq] at hp
            obtain ⟨⟨rfl, rfl, rfl, rfl, -⟩, -⟩ := hp; exact he
  | call s ro callee input k ih =>
    simp only [perform] at hp
    split at hp <;> first | cases hp | exact ih _ _ _ _ (he _ _ _ _ (hr _ _ _ _ _ _ ‹_›)) hp

section bounded

variable (hg : GasBounded ip)
include hg

/-- A pass returns once every nested frame given less gas than the frame has returns. -/
theorem iteration_some {f : Frame} {h : Host W}
    (hr : ∀ h c i, c.gas.toNat < f.contract.gas.toNat → ∃ r, runner h c i = some r) :
    ∃ r, iteration runner ip f h = some r := by
  simp only [iteration, hg.neverAborted, Bool.false_eq_true, ↓reduceIte, step, fetch_stack]
  split
  · exact ⟨_, rfl⟩
  next ms hk =>
    split
    · exact ⟨_, rfl⟩
    next f₁ h₁ hc =>
      obtain ⟨x, hx⟩ := perform_some hr (hg.calls f { h with loads := h.loads + 1 } ms f₁ h₁ hk hc)
        (h₁.record (Dispatch.of f₁ h₁))
      exact ⟨_, by simp only [dispatch, hx, Option.map_some']; rfl⟩

variable (hle : ∀ h c i o h' c', runner h c i = some (o, h', c') → c'.gas.toNat ≤ c.gas.toNat)
include hle

/-- A pass back to the loop head leaves the contract with less gas. -/
theorem iteration_next_gas {f f' : Frame} {h h' : Host W} {d : Dispatch} {res : Option Bytes}
    (hi : iteration runner ip f h = some (.next d res f' h')) : f'.contract.gas.toNat < f.contract.gas.toNat := by
  rcases iteration_cases hi with ⟨o, f₁, h₁, he, -⟩ | ⟨ms, f₁, h₁, x, h₂, -, hk, hc, -, hp, he⟩
  · cases he
  cases x with
  | panic => cases he
  | returned pc c m st res' err =>
    obtain ⟨-, hr, hh, -, -, rfl, -⟩ := finish_eq_next.mp he.symm
    exact perform_endsWithin hle (hg.credits f { h with loads := h.loads + 1 } ms f₁ h₁ hk hc hh hr) hp

theorem iteration_exit_gas {f f' : Frame} {h h' : Host W} {o : Outcome}
    (hi : iteration runner ip f h = some (.exit o f' h')) : f'.contract.gas.toNat ≤ f.contract.gas.toNat := by
  rcases iteration_cases hi with ⟨o, f₁, h₁, he, -, hc, -⟩ | ⟨ms, f₁, h₁, x, h₂, -, hk, hc, -, hp, he⟩
  · cases he; rw [hc]
  cases x with
  | panic =>
    cases he
    have := (charge_ok_gas hc hg.metered).2
    simp only [fetch_contract] at this
    omega
  | returned pc c m st res err =>
    obtain ⟨pc', hf⟩ := finish_frame (ip.cfg.jumpTable (fetch ip f).op) (Dispatch.of f₁ h₁) f₁ pc c m st res err h₂
    rw [← he] at hf
    cases hf
    exact perform_endsWithin hle (hg.keeps f { h with loads := h.loads + 1 } ms f₁ h₁ hk hc) hp

/-- The loop returns within more passes than the frame has gas. -/
theorem loop_some (n : ℕ) {f : Frame} {h : Host W} (hn : f.contract.gas.toNat < n)
    (hr : ∀ h c i, c.gas.toNat < f.contract.gas.toNat → ∃ r, runner h c i = some r) :
    ∃ r, loop runner ip n f h = some r := by
  induction n generalizing f h with
  | zero => omega
  | succ n ih =>
    obtain ⟨r, hi⟩ : ∃ r, iteration runner ip f h = some r := iteration_some hg hr
    simp only [loop, hi]
    cases r with
    | next d res f' h' =>
      have hlt := iteration_next_gas hg hle hi
      exact ih (by omega) fun h c i hc => hr h c i (by omega)
    | exit o f' h' => exact ⟨_, rfl⟩

end bounded

section run

variable (hg : GasBounded ip)
include hg

/-- Every `Run` gives its contract back with at most the gas it was given. -/
theorem run_gas_le (fuel : ℕ) :
    ∀ h c i o h' c', run ip fuel h c i = some (o, h', c') → c'.gas.toNat ≤ c.gas.toNat := by
  induction fuel with
  | zero => simp [run]
  | succ n ih =>
    intro h c i o h' c' hrun
    rcases runWith_eq_some.mp hrun with ⟨-, -, -, rfl⟩ | ⟨-, f, h₁, hl, -, rfl⟩
    · exact Nat.le_refl _
    obtain ⟨l, f₂, h₂, hp, hi⟩ := loop_sound hl
    have hhead := hp.invariant (fun f _ => f.contract.gas.toNat ≤ c.gas.toNat)
      (fun _ _ _ _ _ _ a hs => Nat.le_trans (Nat.le_of_lt (iteration_next_gas hg ih hs)) a) (Nat.le_refl _)
    exact Nat.le_trans (iteration_exit_gas hg ih hi) hhead

/-- `Run` returns once its fuel exceeds the contract's gas. -/
theorem run_some (fuel : ℕ) : ∀ h c i, c.gas.toNat < fuel → ∃ r, run ip fuel h c i = some r := by
  induction fuel with
  | zero => intro _ _ _ h; omega
  | succ n ih =>
    intro h c i hc
    simp only [run, runWith]
    split
    · exact ⟨_, rfl⟩
    · obtain ⟨r, hl⟩ : ∃ r, loop (run ip n) ip (n + 1) (initFrame c i) (enter h.push) = some r :=
        loop_some hg (run_gas_le hg n) (n + 1) hc fun h' c' i' hc' => ih h' c' i' (by simp only [initFrame] at hc'; omega)
      exact ⟨_, by rw [hl]; rfl⟩

end run

/-- When metering is on, the abort flag is never set, every nested `Run` is given less gas
than its caller had before the step, and, counting only nested `Run`s that give back at
most the gas they were given, every `execute` leaves its contract at most the gas it had
before the step and less unless its operation halts or reverts, `Run` on a contract with
gas `G` returns, in every nested frame, with its loop making at most `G + 1` passes. -/
theorem run_terminates_within_gas (ip : Interpreter W G) (hg : GasBounded ip) :
    ∀ h c i, ∃ r, run ip (c.gas.toNat + 1) h c i = some r :=
  fun h c i => run_some hg _ h c i (Nat.lt_succ_self _)

/-- A table whose CALL costs three units, starts a nested frame on the code `STOP` with two
units of gas, and credits back what the nested frame leaves, and whose every other opcode
halts. -/
def refundTable : OpCode → Operation Unit Unit := fun op =>
  if op = CALL then
    { execute := fun pc _ c m st => .call () false ⟨[STOP], [], 2⟩ [] fun c' _ _ _ =>
        .done pc { c with gas := c.gas + c'.gas } m st () false none none
      gasCost := fun _ _ _ _ _ _ => ⟨3, none, 0, ()⟩
      validateStack := fun _ => none
      memorySize := none
      halts := false, jumps := false, writes := false, valid := true, reverts := false, returns := true }
  else
    { execute := fun pc _ c m st => .done pc c m st () false none none
      gasCost := fun _ _ _ _ _ _ => ⟨0, none, 0, ()⟩
      validateStack := fun _ => none
      memorySize := none
      halts := true, jumps := false, writes := false, valid := true, reverts := false, returns := false }

def refundInterpreter : Interpreter Unit Unit := ⟨⟨false, false, refundTable⟩, (), false, fun _ => false⟩

theorem refundInterpreter_jumpTable : refundInterpreter.cfg.jumpTable = refundTable := rfl

theorem refund_le {a b : UInt64} (hb : b.toNat ≤ 2) : (a + b).toNat ≤ a.toNat + 2 := by
  have : (a + b).toNat = (a.toNat + b.toNat) % 2 ^ 64 := BitVec.toNat_add _ _
  have := Nat.mod_le (a.toNat + b.toNat) (2 ^ 64)
  omega

/-- The CALL gives two units of the three it costs to a frame that gives back at most two. -/
theorem refundTable_gasBounded : GasBounded refundInterpreter := by
  have hcost : ∀ (f : Frame) (h : Host Unit) ms f₁ h₁, charge refundInterpreter
      (refundTable (fetch refundInterpreter f).op) ms (fetch refundInterpreter f) h = .ok (f₁, h₁) →
      (fetch refundInterpreter f).op = CALL ∧ f₁.contract.gas.toNat + 3 = f.contract.gas.toNat ∨
      (fetch refundInterpreter f).op ≠ CALL ∧ f₁.contract.gas.toNat = f.contract.gas.toNat := by
    intro f h ms f₁ h₁ hc
    have := (charge_ok_gas hc rfl).2
    rw [fetch_contract] at this
    by_cases hop : (fetch refundInterpreter f).op = CALL
    · exact .inl ⟨hop, by simpa only [gasResult, refundTable, if_pos hop] using this⟩
    · exact .inr ⟨hop, by simpa only [gasResult, refundTable, if_neg hop] using this⟩
  refine ⟨rfl, fun _ => rfl, fun f h ms f₁ h₁ _ hc => ?_, fun f h ms f₁ h₁ _ hc hh _ => ?_,
    fun f h ms f₁ h₁ _ hc => ?_⟩
  · rcases hcost f h ms f₁ h₁ hc with ⟨hop, hg⟩ | ⟨hop, hg⟩
    · simp only [refundInterpreter_jumpTable, refundTable, if_pos hop, Exec.endsWithin]
      exact fun c' _ _ _ hc' => by have := refund_le (a := f₁.contract.gas) hc'; omega
    · simp only [refundInterpreter_jumpTable, refundTable, if_neg hop, Exec.endsWithin]
      omega
  · rcases hcost f h ms f₁ h₁ hc with ⟨hop, hg⟩ | ⟨hop, -⟩
    · simp only [refundInterpreter_jumpTable, refundTable, if_pos hop, Exec.endsWithin]
      exact fun c' _ _ _ hc' => by have := refund_le (a := f₁.contract.gas) hc'; omega
    · simp only [refundInterpreter_jumpTable, refundTable, if_neg hop] at hh
      cases hh
  · rcases hcost f h ms f₁ h₁ hc with ⟨hop, hg⟩ | ⟨hop, -⟩
    · simp only [refundInterpreter_jumpTable, refundTable, if_pos hop, Exec.calls]
      exact ⟨show 2 < f.contract.gas.toNat by omega, fun _ _ _ _ => trivial⟩
    · simp only [refundInterpreter_jumpTable, refundTable, if_neg hop, Exec.calls]

theorem refund_run_terminates :
    ∃ r, run refundInterpreter ((⟨[CALL, CALL, STOP], [], 10⟩ : Contract).gas.toNat + 1)
      (Host.init ⟨0, false, none, ()⟩) ⟨[CALL, CALL, STOP], [], 10⟩ [] = some r :=
  run_terminates_within_gas refundInterpreter refundTable_gasBounded _ _ _

/-- A table whose every opcode costs one unit of gas and calls the same one-opcode code
with one unit of gas, then goes on as it was. -/
def callTable : OpCode → Operation Unit Unit := fun _ =>
  { execute := fun pc _ c m st => .call () false ⟨[0], [], 1⟩ [] fun _ _ _ _ => .done pc c m st () false none none
    gasCost := fun _ _ _ _ _ _ => ⟨1, none, 0, ()⟩
    validateStack := fun _ => none
    memorySize := none
    halts := false, jumps := false, writes := false, valid := true, reverts := false, returns := true }

def callInterpreter : Interpreter Unit Unit := ⟨⟨false, false, callTable⟩, (), false, fun _ => false⟩

/-- Every operation of `callTable` costs one unit and credits nothing back, yet `Run` of
its code never returns, with any fuel: each frame starts another with the same gas. -/
theorem nested_calls_diverge :
    (∀ op g evm c st m ms, ((callTable op).gasCost g evm c st m ms).cost = 1) ∧
    (∀ op pc evm c m st, ((callTable op).execute pc evm c m st).ends fun _ c' _ _ => c' = c) ∧
    ∀ fuel h, run callInterpreter fuel h ⟨[0], [], 1⟩ [] = none := by
  refine ⟨fun _ _ _ _ _ _ _ => rfl, fun _ _ _ _ _ _ _ _ _ _ => rfl, fun fuel => ?_⟩
  induction fuel with
  | zero => intro _; rfl
  | succ n ih =>
    intro h
    have hstep : ∀ h', step (run callInterpreter n) callInterpreter (initFrame ⟨[0], [], 1⟩ []) h' = none := by
      intro h'
      obtain ⟨f₁, h₁, hc⟩ := charge_enough (show outOfGasAt callInterpreter
          (callInterpreter.cfg.jumpTable (fetch callInterpreter (initFrame ⟨[0], [], 1⟩ [])).op) 0
          (fetch callInterpreter (initFrame ⟨[0], [], 1⟩ [])) h' = false from rfl)
      have hck : check callInterpreter h'.evm.readOnly (fetch callInterpreter (initFrame ⟨[0], [], 1⟩ [])).op
          (initFrame ⟨[0], [], 1⟩ []).stack = .ok 0 := rfl
      simp only [step, fetch_stack, hck]
      rw [hc]
      change Option.map _ (perform (run callInterpreter n) (.call () false ⟨[0], [], 1⟩ [] _) _) = none
      rw [perform, ih]; rfl
    simp only [run, runWith, loop, iteration, hstep]
    rfl

end Vm
end Boker
