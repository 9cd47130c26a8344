import Boker.Loop

/-!
# Debug mode only feeds the tracer

Under `Debug` the loop takes copies of the program counter, the gas and the stack for
the tracer, hands each step to `CaptureState`, and the deferred function captures a
fault the tracer has not seen. The tracer here is the list of its captures, which
nothing reads back, so it leaves the EVM, the contract, the memory and the stack alone.
Forgetting the copies and the captures, a run with `Debug` on is the run with it off.
-/

namespace Boker
namespace Vm

variable {W G : Type}

/-- The interpreter with `Debug` set to `b`. -/
def Interpreter.withDebug (ip : Interpreter W G) (b : Bool) : Interpreter W G :=
  { ip with cfg := { ip.cfg with debug := b } }

/-- A frame without the tracer's copies. -/
def Frame.erase (f : Frame) : Frame :=
  { f with stackCopy := newstack, pcCopy := 0, gasCopy := 0, logged := false }

/-- A host without the tracer's captures. -/
def Host.erase (h : Host W) : Host W := { h with captures := [] }

def StepResult.erase : StepResult W → StepResult W
  | .next d res f h => .next d res f.erase h.erase
  | .exit o f h => .exit o f.erase h.erase

/-- What a nested `Run` returns, without the captures. -/
def eraseRun : Outcome × Host W × Contract → Outcome × Host W × Contract
  | (o, h, c) => (o, h.erase, c)

/-- Two runners that agree on hosts with the same erasure, up to the captures. -/
def Runner.Sim (runner runner' : Runner W) : Prop :=
  ∀ h₁ h₂ c i, h₁.erase = h₂.erase → (runner h₁ c i).map eraseRun = (runner' h₂ c i).map eraseRun

section erase

variable (f : Frame) (h : Host W) (ip : Interpreter W G) (b : Bool)

@[simp] theorem Frame.erase_pc : f.erase.pc = f.pc := rfl
@[simp] theorem Frame.erase_contract : f.erase.contract = f.contract := rfl
@[simp] theorem Frame.erase_mem : f.erase.mem = f.mem := rfl
@[simp] theorem Frame.erase_stack : f.erase.stack = f.stack := rfl
@[simp] theorem Frame.erase_op : f.erase.op = f.op := rfl
@[simp] theorem Host.erase_evm : h.erase.evm = h.evm := rfl
@[simp] theorem Host.erase_frames : h.erase.frames = h.frames := rfl
@[simp] theorem Host.erase_loads : h.erase.loads = h.loads := rfl
@[simp] theorem Host.erase_erase : h.erase.erase = h.erase := rfl
@[simp] theorem Host.erase_setState (s : W) (ro : Bool) : (h.setState s ro).erase = h.erase.setState s ro := rfl
@[simp] theorem Interpreter.withDebug_jumpTable : (ip.withDebug b).cfg.jumpTable = ip.cfg.jumpTable := rfl
@[simp] theorem Interpreter.withDebug_disableGasMetering :
    (ip.withDebug b).cfg.disableGasMetering = ip.cfg.disableGasMetering := rfl
@[simp] theorem Interpreter.withDebug_gasTable : (ip.withDebug b).gasTable = ip.gasTable := rfl
@[simp] theorem Interpreter.withDebug_isByzantium : (ip.withDebug b).isByzantium = ip.isByzantium := rfl
@[simp] theorem Interpreter.withDebug_abort : (ip.withDebug b).abort = ip.abort := rfl
@[simp] theorem Interpreter.withDebug_withDebug (b' : Bool) : (ip.withDebug b).withDebug b' = ip.withDebug b' := rfl

end erase

section sim

variable {ip : Interpreter W G} {runner runner' : Runner W}

/-- What a charge returns, without the copies and the captures. -/
def eraseCharge : Except (Outcome × Frame × Host W) (Frame × Host W) →
    Except (Outcome × Frame × Host W) (Frame × Host W)
  | .error (o, f, h) => .error (o, f.erase, h.erase)
  | .ok (f, h) => .ok (f.erase, h.erase)

/-- What a loop returns, without the copies and the captures. -/
def eraseLoop : Outcome × Frame × Host W → Outcome × Frame × Host W
  | (o, f, h) => (o, f.erase, h.erase)

theorem perform_sim (hr : runner.Sim runner') (e : Exec W) {h₁ h₂ : Host W} (he : h₁.erase = h₂.erase) :
    (perform runner e h₁).map (fun p => (p.1, p.2.erase)) =
      (perform runner' e h₂).map (fun p => (p.1, p.2.erase)) := by
  induction e generalizing h₁ h₂ with
  | done => simp only [perform, Option.map_some', Host.erase_setState, he]
  | call s ro callee input k ih =>
    have hc := hr (h₁.setState s ro) (h₂.setState s ro) callee input (by simp [he])
    simp only [perform]
    rcases hx₁ : runner (h₁.setState s ro) callee input with _ | ⟨o, h₁', c₁⟩ <;>
      rcases hx₂ : runner' (h₂.setState s ro) callee input with _ | ⟨o', h₂', c₂⟩ <;>
      simp only [hx₁, hx₂, Option.map_none', Option.map_some', eraseRun, reduceCtorEq,
        Option.some.injEq, Prod.mk.injEq] at hc ⊢
    obtain ⟨rfl, hh, rfl⟩ := hc
    cases o with
    | panic => simp [hh]
    | ret ret err =>
      dsimp only
      rw [show h₁'.evm = h₂'.evm from (congrArg Host.evm hh :)]
      exact ih _ _ _ _ hh

@[simp] theorem fetch_erase (f : Frame) : (fetch ip f).erase = fetch (ip.withDebug false) f.erase := by
  unfold fetch; split <;> rfl

theorem expand_erase (ms : UInt64) (f : Frame) (h : Host W) :
    ((expand ip ms f h).1.erase, (expand ip ms f h).2.erase) =
      expand (ip.withDebug false) ms f.erase h.erase := by
  unfold expand; split <;> split <;> rfl

theorem charge_erase (operation : Operation W G) (ms : UInt64) (f : Frame) (h : Host W) :
    eraseCharge (charge ip operation ms f h) = charge (ip.withDebug false) operation ms f.erase h.erase := by
  unfold charge
  simp only [Interpreter.withDebug_disableGasMetering, Interpreter.withDebug_gasTable, Host.erase_evm,
    Frame.erase_contract, Frame.erase_stack, Frame.erase_mem]
  split
  · exact congrArg Except.ok (expand_erase ms f h)
  · split <;> simp only [eraseCharge] <;> first | rfl | exact congrArg Except.ok (expand_erase ms _ _)

@[simp] theorem Frame.erase_erase (f : Frame) : f.erase.erase = f.erase := rfl

theorem check_withDebug (b : Bool) : check (ip.withDebug b) = check ip := rfl

theorem finish_erase (operation : Operation W G) (d : Dispatch) (f : Frame) (x : Performed) (h : Host W) :
    (finish operation d f x h).erase = (finish operation d f.erase x h.erase).erase := by
  cases x <;> simp only [finish] <;> (try split) <;> (try split_ifs) <;> rfl

/-- Two options with the same image under `E`, mapped by functions that factor through `E`. -/
theorem Option.map_eq_of_factor {α β γ : Type} {x y : Option α} {E : α → β} {F₁ F₂ : α → γ}
    (g : β → γ) (hxy : x.map E = y.map E) (h₁ : ∀ a, F₁ a = g (E a)) (h₂ : ∀ a, F₂ a = g (E a)) :
    x.map F₁ = y.map F₂ := by
  cases x <;> cases y <;> simp_all

variable {b b' : Bool}

theorem dispatch_sim (hr : runner.Sim runner') (operation : Operation W G) {f₁ f₂ : Frame}
    {h₁ h₂ : Host W} (hf : f₁.erase = f₂.erase) (he : h₁.erase = h₂.erase) :
    (dispatch runner operation f₁ h₁).map StepResult.erase =
      (dispatch runner' operation f₂ h₂).map StepResult.erase := by
  have hd : Dispatch.of f₁ h₁ = Dispatch.of f₂ h₂ := by
    show Dispatch.of f₁.erase h₁.erase = _; rw [hf, he]; rfl
  have hx : operation.execute f₁.pc h₁.evm f₁.contract f₁.mem f₁.stack =
      operation.execute f₂.pc h₂.evm f₂.contract f₂.mem f₂.stack := by
    show operation.execute f₁.erase.pc h₁.erase.evm f₁.erase.contract f₁.erase.mem f₁.erase.stack = _
    rw [hf, he]; rfl
  unfold dispatch
  rw [Option.map_map, Option.map_map, hd, hx]
  refine Option.map_eq_of_factor (fun p => (finish operation (Dispatch.of f₂ h₂) f₂.erase p.1 p.2).erase)
    (perform_sim hr _ (show (h₁.record _).erase = (h₂.record _).erase from
      congrArg (fun h : Host W => h.record (Dispatch.of f₂ h₂)) he)) (fun _ => ?_) (fun _ => ?_) <;>
    simp only [Function.comp_apply]
  · rw [finish_erase, hf]
  · rw [finish_erase]

theorem step_sim (hr : runner.Sim runner') {f₁ f₂ : Frame} {h₁ h₂ : Host W} (hf : f₁.erase = f₂.erase)
    (he : h₁.erase = h₂.erase) :
    (step runner (ip.withDebug b) f₁ h₁).map StepResult.erase =
      (step runner' (ip.withDebug b') f₂ h₂).map StepResult.erase := by
  have hF : (fetch (ip.withDebug b) f₁).erase = (fetch (ip.withDebug b') f₂).erase := by
    rw [fetch_erase, fetch_erase, hf]; rfl
  have hop : (fetch (ip.withDebug b) f₁).op = (fetch (ip.withDebug b') f₂).op := (congrArg Frame.op hF :)
  have hk : check (ip.withDebug b) h₁.evm.readOnly (fetch (ip.withDebug b) f₁).op f₁.stack =
      check (ip.withDebug b') h₂.evm.readOnly (fetch (ip.withDebug b') f₂).op f₂.stack := by
    have hs : f₁.stack = f₂.stack := (congrArg Frame.stack hf :)
    have hev : h₁.evm = h₂.evm := (congrArg Host.evm he :)
    rw [check_withDebug, check_withDebug, hop, hs, hev]
  simp only [step, fetch_stack, Interpreter.withDebug_jumpTable]
  rw [hk, ← hop]
  split
  · simp only [Option.map_some', StepResult.erase, hF, he]
  · rename_i ms _
    have hc : eraseCharge (charge (ip.withDebug b) (ip.cfg.jumpTable (fetch (ip.withDebug b) f₁).op) ms
        (fetch (ip.withDebug b) f₁) h₁) = eraseCharge (charge (ip.withDebug b') (ip.cfg.jumpTable
          (fetch (ip.withDebug b) f₁).op) ms (fetch (ip.withDebug b') f₂) h₂) := by
      rw [charge_erase, charge_erase, hF, he]; rfl
    rcases hc₁ : charge (ip.withDebug b) _ ms (fetch (ip.withDebug b) f₁) h₁ with ⟨o, f₁', h₁'⟩ | ⟨f₁', h₁'⟩ <;>
      rcases hc₂ : charge (ip.withDebug b') _ ms (fetch (ip.withDebug b') f₂) h₂ with ⟨o', f₂', h₂'⟩ | ⟨f₂', h₂'⟩ <;>
      simp only [hc₁, hc₂, eraseCharge, reduceCtorEq, Except.error.injEq, Except.ok.injEq, Prod.mk.injEq] at hc
    · obtain ⟨rfl, hf', he'⟩ := hc
      simp only [Option.map_some', StepResult.erase, hf', he']
    · exact dispatch_sim hr _ hc.1 hc.2

theorem iteration_sim (hr : runner.Sim runner') {f₁ f₂ : Frame} {h₁ h₂ : Host W}
    (hf : f₁.erase = f₂.erase) (he : h₁.erase = h₂.erase) :
    (iteration runner (ip.withDebug b) f₁ h₁).map StepResult.erase =
      (iteration runner' (ip.withDebug b') f₂ h₂).map StepResult.erase := by
  have hl : h₁.loads = h₂.loads := (congrArg Host.loads he :)
  have he' : ({ h₁ with loads := h₁.loads + 1 } : Host W).erase = { h₂ with loads := h₂.loads + 1 }.erase := by
    show { h₁.erase with loads := h₁.loads + 1 } = { h₂.erase with loads := h₂.loads + 1 }
    rw [he, hl]
  have ha : ip.abort h₂.loads = ip.abort h₁.loads := by rw [hl]
  simp only [iteration, Interpreter.withDebug_abort, ha]
  split
  · simp only [Option.map_some', StepResult.erase, hf, he']
  · exact step_sim hr hf he'

theorem loop_sim (hr : runner.Sim runner') (n : ℕ) {f₁ f₂ : Frame} {h₁ h₂ : Host W}
    (hf : f₁.erase = f₂.erase) (he : h₁.erase = h₂.erase) :
    (loop runner (ip.withDebug b) n f₁ h₁).map eraseLoop = (loop runner' (ip.withDebug b') n f₂ h₂).map eraseLoop := by
  induction n generalizing f₁ f₂ h₁ h₂ with
  | zero => rfl
  | succ n ih =>
    have hi : (iteration runner (ip.withDebug b) f₁ h₁).map StepResult.erase =
        (iteration runner' (ip.withDebug b') f₂ h₂).map StepResult.erase := iteration_sim hr hf he
    simp only [loop]
    rcases hi₁ : iteration runner (ip.withDebug b) f₁ h₁ with _ | ⟨d, res, f₁', h₁'⟩ | ⟨o, f₁', h₁'⟩ <;>
      rcases hi₂ : iteration runner' (ip.withDebug b') f₂ h₂ with _ | ⟨d', res', f₂', h₂'⟩ | ⟨o', f₂', h₂'⟩ <;>
      simp only [hi₁, hi₂, Option.map_none', Option.map_some', StepResult.erase, reduceCtorEq,
        Option.some.injEq, StepResult.next.injEq, StepResult.exit.injEq] at hi ⊢
    · exact ih hi.2.2.1 hi.2.2.2
    · obtain ⟨rfl, hf', he'⟩ := hi
      simp only [eraseLoop, hf', he']

@[simp] theorem enter_erase (h : Host W) : (enter h).erase = enter h.erase := rfl
@[simp] theorem leave_erase (h : Host W) : (leave h).erase = leave h.erase := rfl
@[simp] theorem push_erase (h : Host W) : h.push.erase = h.erase.push := rfl
@[simp] theorem pop_erase (h : Host W) : h.pop.erase = h.erase.pop := rfl
@[simp] theorem deferCapture_erase (o : Outcome) (f : Frame) (h : Host W) :
    (deferCapture ip o f h).erase = h.erase := by
  unfold deferCapture; split <;> (try split) <;> rfl

theorem runWith_sim (hr : runner.Sim runner') (n : ℕ) {h₁ h₂ : Host W} (c : Contract) (i : Bytes)
    (he : h₁.erase = h₂.erase) :
    (runWith runner (ip.withDebug b) n h₁ c i).map eraseRun =
      (runWith runner' (ip.withDebug b') n h₂ c i).map eraseRun := by
  have he' : (enter h₁.push).erase = (enter h₂.push).erase := by simp only [enter_erase, push_erase, he]
  unfold runWith
  split
  · simp only [Option.map_some', eraseRun, pop_erase, leave_erase, enter_erase, push_erase, he]
  · rw [Option.map_map, Option.map_map]
    refine Option.map_eq_of_factor (fun p => (p.1, (leave p.2.2).pop, p.2.1.contract))
      (loop_sim hr n rfl he') (fun _ => ?_) (fun _ => ?_) <;>
      simp [eraseRun, eraseLoop]

/-- `Run` with `Debug` on and off agree, forgetting the captures, on hosts that agree so. -/
theorem run_sim (ip : Interpreter W G) (b b' : Bool) (fuel : ℕ) :
    Runner.Sim (run (ip.withDebug b) fuel) (run (ip.withDebug b') fuel) := by
  induction fuel with
  | zero => intro _ _ _ _ _; rfl
  | succ n ih => exact fun h₁ h₂ c i he => runWith_sim ih (n + 1) c i he

/-- With a tracer that only records what it is given, `Run` with `Debug` on returns what
it returns with `Debug` off: the same output, error and final contract, its gas
included, and a host that differs only in the captures, so the same depth, return
buffer, EVM state and sequence of dispatches. The frame's own loop ends with the same
memory, stack and program counter. -/
theorem debug_only_feeds_tracer (ip : Interpreter W G) (fuel : ℕ) (h : Host W) (c : Contract) (i : Bytes) :
    (run (ip.withDebug true) fuel h c i).map eraseRun = (run (ip.withDebug false) fuel h c i).map eraseRun ∧
    (loop (run (ip.withDebug true) fuel) (ip.withDebug true) (fuel + 1) (initFrame c i) (enter h)).map
        eraseLoop =
      (loop (run (ip.withDebug false) fuel) (ip.withDebug false) (fuel + 1) (initFrame c i) (enter h)).map
        eraseLoop :=
  ⟨run_sim ip true false fuel h h c i rfl, loop_sim (run_sim ip true false fuel) (fuel + 1) rfl rfl⟩

end sim

end Vm
end Boker
