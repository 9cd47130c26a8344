import Boker.CallDepth
import Boker.Outcome

/-!
# The shared return buffer

`in.returnData` is one field for all frames: `Run` clears it on entry and a `returns`
operation sets it to its result. When every operation that can re-enter `Run` is flagged
`returns`, whatever nested frames write is overwritten before the caller's next loop
head, so each frame sees the result of its own last `returns` operation.
-/

namespace Boker
namespace Vm

variable {W G : Type} {ip : Interpreter W G} {runner : Runner W}

/-- The result of the last `returns` operation among the dispatches `l`, or `rd` when
there is none. -/
def lastReturned (ip : Interpreter W G) (rd : Option Bytes) (l : List (Dispatch × Option Bytes)) :
    Option Bytes :=
  l.foldl (fun rd (d, res) => if (ip.cfg.jumpTable d.op).returns then res else rd) rd

@[simp] theorem lastReturned_nil (rd : Option Bytes) : lastReturned ip rd [] = rd := rfl

@[simp] theorem lastReturned_append_singleton (rd : Option Bytes) (l : List (Dispatch × Option Bytes))
    (d : Dispatch) (res : Option Bytes) :
    lastReturned ip rd (l ++ [(d, res)]) =
      if (ip.cfg.jumpTable d.op).returns then res else lastReturned ip rd l := by
  simp [lastReturned]

section returns

variable (hret : ∀ op pc evm c m st, ((ip.cfg.jumpTable op).execute pc evm c m st).reenters = true →
  (ip.cfg.jumpTable op).returns = true)
include hret

/-- A pass back to the loop head leaves the return buffer as it found it, unless its
operation is flagged `returns`, which sets it to its result. -/
theorem iteration_returnData {f f' : Frame} {h h' : Host W} {d : Dispatch} {res : Option Bytes}
    (hi : iteration runner ip f h = some (.next d res f' h')) :
    h'.evm.returnData = if (ip.cfg.jumpTable d.op).returns then res else h.evm.returnData := by
  rcases iteration_cases hi with ⟨o, f₁, h₁, he, -⟩ | ⟨ms, f₁, h₁, x, h₂, -, -, hc, hl, hp, he⟩
  · cases he
  cases x with
  | panic => cases he
  | returned pc c m st res' err =>
    obtain ⟨-, -, -, rfl, rfl, -, rfl⟩ := finish_eq_next.mp he.symm
    have hop : (Dispatch.of f₁ h₁).op = (fetch ip f).op := (charge_ok_frame hc).1
    rw [hop]
    cases hr : (ip.cfg.jumpTable (fetch ip f).op).returns
    · obtain ⟨s, ro, rfl⟩ := perform_of_not_reenters
        (Bool.eq_false_iff.mpr fun hre => Bool.false_ne_true (hr.symm.trans (hret _ _ _ _ _ _ hre))) hp
      simpa [hr] using hl.returnData
    · simp [hr]

/-- Along the loop heads of a frame, the return buffer is the result of the frame's last
`returns` operation, or its value at the first head if there is none. -/
theorem Path.returnData {f f' : Frame} {h h' : Host W} {l : List (Dispatch × Option Bytes)}
    (hp : Path runner ip f h l f' h') : h'.evm.returnData = lastReturned ip h.evm.returnData l := by
  induction hp with
  | refl => rfl
  | tail _ hs ih => rw [iteration_returnData hret hs, ih, lastReturned_append_singleton]

end returns

/-- When every operation whose `execute` can re-enter `Run` is flagged `returns`, at every
loop head of the frame a run executes the return buffer is the result of that frame's most
recent dispatch of a `returns` operation, or nil before there is one, whatever its nested
frames wrote: before each pass of the frame and at its last head, the buffer is the
`lastReturned` of the passes before, each of which dispatched the fetched operation and got
back from its `execute` the result it is labelled with. -/
theorem returnData_is_last_returned (ip : Interpreter W G)
    (hret : ∀ op pc evm c m st, ((ip.cfg.jumpTable op).execute pc evm c m st).reenters = true →
      (ip.cfg.jumpTable op).returns = true) (fuel : ℕ) (h : Host W) (c : Contract) (i : Bytes) :
    ∀ o h' c', run ip fuel h c i = some (o, h', c') → c.code = [] ∨
      ∃ n l f h₁ f' h'', Path (run ip n) ip (initFrame c i) (enter h.push) l f h₁ ∧
        iteration (run ip n) ip f h₁ = some (.exit o f' h'') ∧
        h₁.evm.returnData = lastReturned ip none l ∧
        ∀ l₁ d res l₂, l = l₁ ++ (d, res) :: l₂ → ∃ f₂ h₂,
          Path (run ip n) ip (initFrame c i) (enter h.push) l₁ f₂ h₂ ∧
          h₂.evm.returnData = lastReturned ip none l₁ ∧
          PassReturned (run ip n) ip f₂ h₂ res ∧ d.op = (fetch ip f₂).op := by
  intro o h' c' hrun
  rcases run_eq_some hrun with ⟨hc, -⟩ | ⟨n, l, f, h₁, f', h'', -, hp, hi⟩
  · exact .inl hc
  refine .inr ⟨n, l, f, h₁, f', h'', hp, hi, hp.returnData hret, fun l₁ d res l₂ hl => ?_⟩
  obtain ⟨f₂, h₂, f₃, h₃, hp₁, hs, -⟩ := Path.split (hl ▸ hp)
  exact ⟨f₂, h₂, hp₁, hp₁.returnData hret, iteration_next_passReturned hs⟩

theorem nestTable_returns : ∀ op pc evm c m st,
    ((nestInterpreter.cfg.jumpTable op).execute pc evm c m st).reenters = true →
      (nestInterpreter.cfg.jumpTable op).returns = true := by
  intro op _ _ _ _ _
  by_cases hop : op = CALL <;> simp [nestInterpreter, nestTable, hop, Exec.reenters]

theorem nested_call_sets_returnData :
    ∃ o h' c', run nestInterpreter 3 (Host.init ⟨0, false, none, ()⟩) ⟨[CALL, STOP], [], 10⟩ [] =
        some (o, h', c') ∧
      (([CALL, STOP] : Bytes) = [] ∨
      ∃ n l f h₁ f' h'', Path (run nestInterpreter n) nestInterpreter (initFrame ⟨[CALL, STOP], [], 10⟩ [])
          (enter (Host.init ⟨0, false, none, ()⟩).push) l f h₁ ∧
        iteration (run nestInterpreter n) nestInterpreter f h₁ = some (.exit o f' h'') ∧
        h₁.evm.returnData = lastReturned nestInterpreter none l ∧
        ∀ l₁ d res l₂, l = l₁ ++ (d, res) :: l₂ → ∃ f₂ h₂,
          Path (run nestInterpreter n) nestInterpreter (initFrame ⟨[CALL, STOP], [], 10⟩ [])
            (enter (Host.init ⟨0, false, none, ()⟩).push) l₁ f₂ h₂ ∧
          h₂.evm.returnData = lastReturned nestInterpreter none l₁ ∧
          PassReturned (run nestInterpreter n) nestInterpreter f₂ h₂ res ∧
          d.op = (fetch nestInterpreter f₂).op) :=
  ⟨_, _, _, rfl, returnData_is_last_returned nestInterpreter nestTable_returns 3 _ ⟨[CALL, STOP], [], 10⟩ []
    _ _ _ rfl⟩

/-- The callee clears the buffer on entry; the CALL, flagged `returns`, sets it to the
callee's output, which the caller's last head still sees. -/
example : (run nestInterpreter 3 (Host.init ⟨0, false, none, ()⟩) ⟨[CALL, STOP], [], 10⟩ []).map
    (·.2.1.evm.returnData) = some (some [5]) := rfl

end Vm
end Boker
