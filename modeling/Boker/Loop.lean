import Boker.Interpreter

/-!
# What one pass of the loop can do

The field lemmas of each stage of a step, one inversion lemma per stage, and `Path`,
the passes of one frame's loop from head to head, with the lemma that every result of
`loop` is the exit of a pass from a head the loop reached.
-/

namespace Boker
namespace Vm

variable {W G : Type} {ip : Interpreter W G} {runner : Runner W}

section fields

variable (ip : Interpreter W G) (f : Frame) (h : Host W) (ms : UInt64)

@[simp] theorem fetch_pc : (fetch ip f).pc = f.pc := by unfold fetch; split <;> rfl
@[simp] theorem fetch_contract : (fetch ip f).contract = f.contract := by unfold fetch; split <;> rfl
@[simp] theorem fetch_mem : (fetch ip f).mem = f.mem := by unfold fetch; split <;> rfl
@[simp] theorem fetch_stack : (fetch ip f).stack = f.stack := by unfold fetch; split <;> rfl
@[simp] theorem fetch_op : (fetch ip f).op = f.contract.getOp f.pc := by unfold fetch; split <;> rfl

@[simp] theorem expand_pc : (expand ip ms f h).1.pc = f.pc := by unfold expand; split <;> split <;> rfl
@[simp] theorem expand_contract : (expand ip ms f h).1.contract = f.contract := by
  unfold expand; split <;> split <;> rfl
@[simp] theorem expand_stack : (expand ip ms f h).1.stack = f.stack := by
  unfold expand; split <;> split <;> rfl
@[simp] theorem expand_op : (expand ip ms f h).1.op = f.op := by unfold expand; split <;> split <;> rfl
@[simp] theorem expand_evm : (expand ip ms f h).2.evm = h.evm := by
  unfold expand; split <;> split <;> rfl
@[simp] theorem expand_dispatched : (expand ip ms f h).2.dispatched = h.dispatched := by
  unfold expand; split <;> split <;> rfl
@[simp] theorem expand_loads : (expand ip ms f h).2.loads = h.loads := by
  unfold expand; split <;> split <;> rfl
@[simp] theorem expand_frames : (expand ip ms f h).2.frames = h.frames := by
  unfold expand; split <;> split <;> rfl

theorem expand_mem_len :
    (expand ip ms f h).1.mem.len = if 0 < ms then max f.mem.len ms.toNat else f.mem.len := by
  unfold expand; split <;> split <;> simp_all

@[simp] theorem enter_depth : (enter h).evm.depth = h.evm.depth + 1 := rfl
@[simp] theorem enter_frames : (enter h).frames = h.frames := rfl
@[simp] theorem enter_returnData : (enter h).evm.returnData = none := rfl
@[simp] theorem leave_depth : (leave h).evm.depth = h.evm.depth - 1 := rfl
@[simp] theorem leave_frames : (leave h).frames = h.frames := rfl
@[simp] theorem enter_dispatched : (enter h).dispatched = h.dispatched := rfl
@[simp] theorem leave_dispatched : (leave h).dispatched = h.dispatched := rfl
@[simp] theorem push_evm : h.push.evm = h.evm := rfl
@[simp] theorem push_frames : h.push.frames = h.frames + 1 := rfl
@[simp] theorem push_dispatched : h.push.dispatched = h.dispatched := rfl
@[simp] theorem pop_evm : h.pop.evm = h.evm := rfl
@[simp] theorem pop_frames : h.pop.frames = h.frames - 1 := rfl
@[simp] theorem pop_dispatched : h.pop.dispatched = h.dispatched := rfl
@[simp] theorem record_evm (d : Dispatch) : (h.record d).evm = h.evm := rfl
@[simp] theorem record_frames (d : Dispatch) : (h.record d).frames = h.frames := rfl
@[simp] theorem deferCapture_evm (o : Outcome) : (deferCapture ip o f h).evm = h.evm := by
  unfold deferCapture; split <;> (try split) <;> rfl
@[simp] theorem deferCapture_frames (o : Outcome) : (deferCapture ip o f h).frames = h.frames := by
  unfold deferCapture; split <;> (try split) <;> rfl
@[simp] theorem deferCapture_dispatched (o : Outcome) :
    (deferCapture ip o f h).dispatched = h.dispatched := by
  unfold deferCapture; split <;> (try split) <;> rfl

end fields

abbrev gasResult (ip : Interpreter W G) (operation : Operation W G) (ms : UInt64) (f : Frame)
    (h : Host W) : GasResult W :=
  operation.gasCost ip.gasTable h.evm f.contract f.stack f.mem ms

abbrev charged (r : GasResult W) (f : Frame) (h : Host W) : Frame × Host W :=
  ({ f with cost := r.cost, mem := { f.mem with lastGasCost := r.lastGasCost } },
   { h with evm := { h.evm with state := r.state } })

theorem charge_eq_ok {operation : Operation W G} {ms : UInt64} {f f' : Frame} {h h' : Host W} :
    charge ip operation ms f h = .ok (f', h') ↔
      (ip.cfg.disableGasMetering = true ∧ (f', h') = expand ip ms f h) ∨
      (ip.cfg.disableGasMetering = false ∧ ∃ c, (gasResult ip operation ms f h).err = none ∧
        f.contract.useGas (gasResult ip operation ms f h).cost = some c ∧
        (f', h') = expand ip ms { (charged (gasResult ip operation ms f h) f h).1 with contract := c }
          (charged (gasResult ip operation ms f h) f h).2) := by
  unfold charge
  cases hd : ip.cfg.disableGasMetering
  · simp only [Bool.false_eq_true, ↓reduceIte, false_and, true_and, false_or]
    rcases he : (gasResult ip operation ms f h).err with _ | e
    · rcases hu : f.contract.useGas (gasResult ip operation ms f h).cost with _ | c
      · simp [he, hu]
      · simp [he, hu, eq_comm]
    · simp [he]
  · simp [eq_comm]

theorem charge_eq_error {operation : Operation W G} {ms : UInt64} {f f' : Frame} {h h' : Host W}
    {o : Outcome} : charge ip operation ms f h = .error (o, f', h') ↔
      ip.cfg.disableGasMetering = false ∧ o = .ret none (some .outOfGas) ∧
      ((gasResult ip operation ms f h).err ≠ none ∨
        f.contract.useGas (gasResult ip operation ms f h).cost = none) ∧
      (f', h') = charged (gasResult ip operation ms f h) f h := by
  unfold charge
  cases hd : ip.cfg.disableGasMetering
  · simp only [Bool.false_eq_true, ↓reduceIte, true_and]
    rcases he : (gasResult ip operation ms f h).err with _ | e
    · rcases hu : f.contract.useGas (gasResult ip operation ms f h).cost with _ | c
      · simp [he, hu, eq_comm, and_comm]
      · simp [he, hu]
    · simp [he, eq_comm, and_comm]
  · simp

theorem dispatch_eq_some {operation : Operation W G} {f : Frame} {h : Host W} {r : StepResult W} :
    dispatch runner operation f h = some r ↔ ∃ x h',
      perform runner (operation.execute f.pc h.evm f.contract f.mem f.stack) (h.record (Dispatch.of f h)) =
        some (x, h') ∧ finish operation (Dispatch.of f h) f x h' = r := by
  simp only [dispatch, Option.map_eq_some', Prod.exists]

/-- Every way a pass of the loop body can go. -/
theorem step_cases {f : Frame} {h : Host W} {r : StepResult W} (hs : step runner ip f h = some r) :
    (∃ o, check ip h.evm.readOnly (fetch ip f).op f.stack = .error o ∧ r = .exit o (fetch ip f) h) ∨
    (∃ ms o f' h', check ip h.evm.readOnly (fetch ip f).op f.stack = .ok ms ∧
      charge ip (ip.cfg.jumpTable (fetch ip f).op) ms (fetch ip f) h = .error (o, f', h') ∧
      r = .exit o f' h') ∨
    (∃ ms f' h', check ip h.evm.readOnly (fetch ip f).op f.stack = .ok ms ∧
      charge ip (ip.cfg.jumpTable (fetch ip f).op) ms (fetch ip f) h = .ok (f', h') ∧
      dispatch runner (ip.cfg.jumpTable (fetch ip f).op) f' h' = some r) := by
  unfold step at hs
  simp only [fetch_stack] at hs
  split at hs
  · exact .inl ⟨_, ‹_›, (Option.some.inj hs).symm⟩
  · split at hs
    · exact .inr (.inl ⟨_, _, _, _, ‹_›, ‹_›, (Option.some.inj hs).symm⟩)
    · exact .inr (.inr ⟨_, _, _, ‹_›, ‹_›, hs⟩)

@[simp] theorem finish_panic {operation : Operation W G} {d : Dispatch} {f : Frame} {h : Host W} :
    finish operation d f .panic h = .exit .panic f h := rfl

theorem finish_eq_next {operation : Operation W G} {d d' : Dispatch} {f f' : Frame} {h h' : Host W}
    {pc : UInt64} {c : Contract} {m : Memory} {st : Stack} {res res' : Option Bytes} {err : Option VMError} :
    finish operation d f (.returned pc c m st res err) h = .next d' res' f' h' ↔
      err = none ∧ operation.reverts = false ∧ operation.halts = false ∧ d = d' ∧ res = res' ∧
      { f with pc := if operation.jumps then pc else pc + 1, contract := c, mem := m, stack := st } = f' ∧
      (if operation.returns then { h with evm := { h.evm with returnData := res } } else h) = h' := by
  cases err <;> cases hr : operation.reverts <;> cases hh : operation.halts <;>
    cases hj : operation.jumps <;> simp [finish, hr, hh, hj]

def StepResult.host : StepResult W → Host W
  | .next _ _ _ h => h
  | .exit _ _ h => h

def StepResult.frame : StepResult W → Frame
  | .next _ _ f _ => f
  | .exit _ f _ => f

/-- After `execute`, only the return buffer of the host may change. -/
theorem finish_host (operation : Operation W G) (d : Dispatch) (f : Frame) (x : Performed) (h : Host W) :
    ∃ rd, (finish operation d f x h).host = { h with evm := { h.evm with returnData := rd } } := by
  cases x with
  | panic => exact ⟨h.evm.returnData, rfl⟩
  | returned pc c m st res err =>
    refine ⟨if operation.returns then res else h.evm.returnData, ?_⟩
    cases err <;> cases hr : operation.reverts <;> cases hh : operation.halts <;>
      cases hj : operation.jumps <;> cases hret : operation.returns <;>
      simp [finish, StepResult.host, hr, hh, hj, hret]

/-- After `execute`, the frame is the one `execute` returned, up to the `pc` step. -/
theorem finish_frame (operation : Operation W G) (d : Dispatch) (f : Frame) (pc : UInt64) (c : Contract)
    (m : Memory) (st : Stack) (res : Option Bytes) (err : Option VMError) (h : Host W) :
    ∃ pc', (finish operation d f (.returned pc c m st res err) h).frame =
      { f with pc := pc', contract := c, mem := m, stack := st } := by
  simp only [finish]
  split <;> (try split_ifs) <;> exact ⟨_, rfl⟩

theorem iteration_eq_some {f : Frame} {h : Host W} {r : StepResult W} :
    iteration runner ip f h = some r ↔
      (ip.abort h.loads = true ∧ r = .exit (.ret none none) f { h with loads := h.loads + 1 }) ∨
      (ip.abort h.loads = false ∧ step runner ip f { h with loads := h.loads + 1 } = some r) := by
  unfold iteration
  cases ip.abort h.loads <;> simp [eq_comm]

/-- `h'` differs from `h` at most in the EVM state, the captures and the loads: what
a pass changes before it dispatches. -/
structure Host.Local (h h' : Host W) : Prop where
  depth : h'.evm.depth = h.evm.depth
  readOnly : h'.evm.readOnly = h.evm.readOnly
  returnData : h'.evm.returnData = h.evm.returnData
  frames : h'.frames = h.frames
  dispatched : h'.dispatched = h.dispatched

theorem Host.Local.trans {h₁ h₂ h₃ : Host W} (a : h₁.Local h₂) (b : h₂.Local h₃) : h₁.Local h₃ :=
  ⟨b.1.trans a.1, b.2.trans a.2, b.3.trans a.3, b.4.trans a.4, b.5.trans a.5⟩

theorem Host.Local.tick (h : Host W) : h.Local { h with loads := h.loads + 1 } := ⟨rfl, rfl, rfl, rfl, rfl⟩

theorem Host.Local.expand (ms : UInt64) (f : Frame) (h : Host W) : h.Local (expand ip ms f h).2 := by
  constructor <;> simp

theorem charge_ok_local {operation : Operation W G} {ms : UInt64} {f f' : Frame} {h h' : Host W}
    (hc : charge ip operation ms f h = .ok (f', h')) : h.Local h' := by
  rcases charge_eq_ok.mp hc with ⟨-, he⟩ | ⟨-, c, -, -, he⟩ <;>
    rw [show h' = _ from congrArg Prod.snd he]
  · exact .expand _ _ _
  · exact (show h.Local (charged (gasResult ip operation ms f h) f h).2 from
      ⟨rfl, rfl, rfl, rfl, rfl⟩).trans (.expand _ _ _)

theorem charge_error_local {operation : Operation W G} {ms : UInt64} {f f' : Frame} {h h' : Host W}
    {o : Outcome} (hc : charge ip operation ms f h = .error (o, f', h')) : h.Local h' := by
  obtain ⟨-, -, -, he⟩ := charge_eq_error.mp hc
  cases he; exact ⟨rfl, rfl, rfl, rfl, rfl⟩

theorem charge_ok_frame {operation : Operation W G} {ms : UInt64} {f f' : Frame} {h h' : Host W}
    (hc : charge ip operation ms f h = .ok (f', h')) :
    f'.op = f.op ∧ f'.stack = f.stack ∧ f'.pc = f.pc ∧
      f'.mem.len = if 0 < ms then max f.mem.len ms.toNat else f.mem.len := by
  rcases charge_eq_ok.mp hc with ⟨-, he⟩ | ⟨-, c, -, -, he⟩ <;>
    rw [show f' = _ from congrArg Prod.fst he] <;> simp [expand_mem_len]

/-- Every way a pass of the loop can go: it ends the frame before dispatching, with the
contract and the memory's bytes as they were and touching only what `Host.Local` allows,
or it passes the checks and the charge and calls `execute`. -/
theorem iteration_cases {f : Frame} {h : Host W} {r : StepResult W}
    (hi : iteration runner ip f h = some r) :
    (∃ o f' h', r = .exit o f' h' ∧ h.Local h' ∧ f'.contract = f.contract ∧ f'.mem.store = f.mem.store) ∨
    (∃ ms f₁ h₁ x h₂, ip.abort h.loads = false ∧
      check ip h.evm.readOnly (fetch ip f).op f.stack = .ok ms ∧
      charge ip (ip.cfg.jumpTable (fetch ip f).op) ms (fetch ip f) { h with loads := h.loads + 1 } =
        .ok (f₁, h₁) ∧ h.Local h₁ ∧
      perform runner ((ip.cfg.jumpTable (fetch ip f).op).execute f₁.pc h₁.evm f₁.contract f₁.mem f₁.stack)
        (h₁.record (Dispatch.of f₁ h₁)) = some (x, h₂) ∧
      r = finish (ip.cfg.jumpTable (fetch ip f).op) (Dispatch.of f₁ h₁) f₁ x h₂) := by
  rcases iteration_eq_some.mp hi with ⟨-, rfl⟩ | ⟨ha, hs⟩
  · exact .inl ⟨_, _, _, rfl, .tick h, rfl, rfl⟩
  rcases step_cases hs with ⟨o, -, rfl⟩ | ⟨ms, o, f', h', -, hc, rfl⟩ | ⟨ms, f₁, h₁, hk, hc, hd⟩
  · exact .inl ⟨_, _, _, rfl, .tick h, by simp, by simp⟩
  · obtain ⟨-, -, -, he⟩ := charge_eq_error.mp hc
    cases he
    exact .inl ⟨_, _, _, rfl, (Host.Local.tick h).trans (charge_error_local hc), by simp, by simp⟩
  · obtain ⟨x, h₂, hp, rfl⟩ := dispatch_eq_some.mp hd
    exact .inr ⟨ms, f₁, h₁, x, h₂, ha, hk, hc, (Host.Local.tick h).trans (charge_ok_local hc), hp, rfl⟩

/-- Every dispatch recorded in `h'` but not in `h` satisfies `P`. -/
def LogKept (P : Dispatch → Prop) (h h' : Host W) : Prop := ∀ d ∈ h'.dispatched, d ∈ h.dispatched ∨ P d

namespace LogKept

variable {P : Dispatch → Prop}

theorem refl (h : Host W) : LogKept P h h := fun _ hd => .inl hd

theorem trans {h₁ h₂ h₃ : Host W} (a : LogKept P h₁ h₂) (b : LogKept P h₂ h₃) : LogKept P h₁ h₃ :=
  fun d hd => (b d hd).elim (a d) .inr

theorem of_dispatched {h h' : Host W} (e : h'.dispatched = h.dispatched) : LogKept P h h' :=
  fun _ hd => .inl (e ▸ hd)

theorem record {h : Host W} {d : Dispatch} (hd : P d) : LogKept P h (h.record d) := fun _ he =>
  (List.mem_append.mp he).imp id fun he => by rwa [List.mem_singleton.mp he]

theorem finish (operation : Operation W G) (d : Dispatch) (f : Frame) (x : Performed) (h : Host W) :
    LogKept P h (finish operation d f x h).host := by
  obtain ⟨rd, he⟩ := finish_host operation d f x h
  exact of_dispatched (by rw [he])

theorem perform (hr : ∀ h c i o h' c', runner h c i = some (o, h', c') → LogKept P h h')
    {e : Exec W} {h h' : Host W} {x : Performed} (hp : Vm.perform runner e h = some (x, h')) :
    LogKept P h h' :=
  perform_preserves (LogKept P h) (fun _ _ _ a => a.trans (of_dispatched rfl))
    (fun _ _ _ _ _ _ a hr' => a.trans (hr _ _ _ _ _ _ hr')) (refl h) hp

end LogKept

/-- The passes of one frame's loop from its head at `(f, h)` back to its head at
`(f', h')`, each with its dispatch and `execute`'s result, oldest first. -/
inductive Path (runner : Runner W) (ip : Interpreter W G) (f : Frame) (h : Host W) :
    List (Dispatch × Option Bytes) → Frame → Host W → Prop
  | refl : Path runner ip f h [] f h
  | tail {l f₁ h₁ d res f₂ h₂} : Path runner ip f h l f₁ h₁ →
      iteration runner ip f₁ h₁ = some (.next d res f₂ h₂) → Path runner ip f h (l ++ [(d, res)]) f₂ h₂

theorem Path.head {f f₁ f₂ : Frame} {h h₁ h₂ : Host W} {d : Dispatch} {res : Option Bytes}
    {l : List (Dispatch × Option Bytes)} (h₀ : iteration runner ip f h = some (.next d res f₁ h₁))
    (hp : Path runner ip f₁ h₁ l f₂ h₂) : Path runner ip f h ((d, res) :: l) f₂ h₂ := by
  induction hp with
  | refl => exact .tail .refl h₀
  | tail _ hs ih => exact .tail ih hs

/-- A property of loop heads that every pass keeps holds at every head the loop reaches. -/
theorem Path.invariant (P : Frame → Host W → Prop)
    (hstep : ∀ f h d res f' h', P f h → iteration runner ip f h = some (.next d res f' h') → P f' h')
    {f f' : Frame} {h h' : Host W} {l : List (Dispatch × Option Bytes)}
    (hp : Path runner ip f h l f' h') (h₀ : P f h) : P f' h' := by
  induction hp with
  | refl => exact h₀
  | tail _ hs ih => exact hstep _ _ _ _ _ _ ih hs

theorem Path.split {f f' : Frame} {h h' : Host W} {l₁ l₂ : List (Dispatch × Option Bytes)}
    {d : Dispatch} {res : Option Bytes} (hp : Path runner ip f h (l₁ ++ (d, res) :: l₂) f' h') :
    ∃ f₁ h₁ f₂ h₂, Path runner ip f h l₁ f₁ h₁ ∧ iteration runner ip f₁ h₁ = some (.next d res f₂ h₂) ∧
      Path runner ip f₂ h₂ l₂ f' h' := by
  generalize hl : l₁ ++ (d, res) :: l₂ = l at hp
  induction hp generalizing l₂ with
  | refl => simp at hl
  | @tail l f₁ h₁ d' res' f₂ h₂ hp hs ih =>
    rcases List.eq_nil_or_concat l₂ with rfl | ⟨L, b, rfl⟩
    · obtain ⟨rfl, he⟩ := List.append_inj' hl rfl
      cases he
      exact ⟨f₁, h₁, f₂, h₂, hp, hs, .refl⟩
    · rw [List.concat_eq_append] at hl ⊢
      rw [← List.cons_append, ← List.append_assoc] at hl
      obtain ⟨hl', he⟩ := List.append_inj' hl rfl
      cases he
      obtain ⟨f₃, h₃, f₄, h₄, hp₁, hs₁, hp₂⟩ := ih hl'
      exact ⟨f₃, h₃, f₄, h₄, hp₁, hs₁, .tail hp₂ hs⟩

/-- Every result of the loop is the exit of a pass from a head it reached. -/
theorem loop_sound {n : ℕ} {f f' : Frame} {h h' : Host W} {o : Outcome}
    (hl : loop runner ip n f h = some (o, f', h')) :
    ∃ l f₁ h₁, Path runner ip f h l f₁ h₁ ∧ iteration runner ip f₁ h₁ = some (.exit o f' h') := by
  induction n generalizing f h with
  | zero => simp [loop] at hl
  | succ n ih =>
    simp only [loop] at hl
    split at hl
    · cases hl
    · obtain ⟨l, f₁, h₁, hp, hi⟩ := ih hl
      exact ⟨_, f₁, h₁, .head ‹_› hp, hi⟩
    · cases hl; exact ⟨[], f, h, .refl, ‹_›⟩

theorem runWith_eq_some {n : ℕ} {h h' : Host W} {c c' : Contract} {i : Bytes} {o : Outcome} :
    runWith runner ip n h c i = some (o, h', c') ↔
      (c.code = [] ∧ o = .ret none none ∧ h' = (leave (enter h.push)).pop ∧ c' = c) ∨
      (c.code ≠ [] ∧ ∃ f h₁, loop runner ip n (initFrame c i) (enter h.push) = some (o, f, h₁) ∧
        h' = (leave (deferCapture ip o f h₁)).pop ∧ c' = f.contract) := by
  unfold runWith
  by_cases hc : c.code = []
  · simp only [hc, List.length_nil, ↓reduceIte, Option.some.injEq, Prod.mk.injEq, ne_eq,
      not_true_eq_false, false_and, or_false, true_and]
    constructor <;> rintro ⟨rfl, rfl, rfl⟩ <;> exact ⟨rfl, rfl, rfl⟩
  · simp only [List.length_eq_zero, hc, ↓reduceIte, Option.map_eq_some', Prod.exists, Prod.mk.injEq,
      false_and, ne_eq, not_false_eq_true, true_and, false_or]
    constructor
    · rintro ⟨o', f, h₁, hl, rfl, rfl, rfl⟩; exact ⟨f, h₁, hl, rfl, rfl⟩
    · rintro ⟨f, h₁, hl, rfl, rfl⟩; exact ⟨o, f, h₁, hl, rfl, rfl, rfl⟩

/-- A property of dispatches that every pass gives its own dispatch, once nested frames
keep it, holds of every dispatch recorded by every run. -/
theorem run_logKept (P : Dispatch → Prop)
    (hpass : ∀ runner : Runner W, (∀ h c i o h' c', runner h c i = some (o, h', c') → LogKept P h h') →
      ∀ f h r, iteration runner ip f h = some r → LogKept P h r.host) (fuel : ℕ) :
    ∀ h c i o h' c', run ip fuel h c i = some (o, h', c') → LogKept P h h' := by
  induction fuel with
  | zero => simp [run]
  | succ n ih =>
    intro h c i o h' c' hrun
    rcases runWith_eq_some.mp hrun with ⟨-, -, rfl, -⟩ | ⟨-, f, h₁, hl, rfl, -⟩
    · exact .of_dispatched rfl
    obtain ⟨l, f₁, h₂, hp, hi⟩ := loop_sound hl
    have hkept := hp.invariant (fun _ h' => LogKept P (enter h.push) h')
      (fun _ _ _ _ _ _ a hs => a.trans (hpass _ ih _ _ _ hs)) (.refl _)
    exact ((LogKept.of_dispatched rfl).trans (hkept.trans (hpass _ ih _ _ _ hi))).trans
      (.of_dispatched (by simp [StepResult.host]))

end Vm
end Boker
