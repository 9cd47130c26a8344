import Boker.Loop

/-!
# How a run ends

Every way out of the loop: the abort flag with nil output and nil error, a failed check
or charge with nil output, a panic, an error of `execute` with nil output, and a
`reverts` or `halts` operation whose `execute` succeeded, with the slice it returned.
Only the last carries output; a nil error comes from empty code, from the abort flag,
or from a halt.
-/

namespace Boker
namespace Vm

variable {W G : Type} {ip : Interpreter W G} {runner : Runner W}

theorem check_error_outcome {ro : Bool} {op : OpCode} {stack : Stack} {o : Outcome}
    (hk : check ip ro op stack = .error o) : o = .panic ∨ ∃ e, o = .ret none (some e) := by
  unfold check at hk
  dsimp only at hk
  split_ifs at hk
  · cases hk; exact .inr ⟨_, rfl⟩
  split at hk
  · cases hk; exact .inr ⟨_, rfl⟩
  split at hk
  · cases hk; exact .inl rfl
  · cases hk; exact .inr ⟨_, rfl⟩
  split at hk
  · cases hk; exact .inr ⟨_, rfl⟩
  · cases hk

theorem finish_exit_ret {operation : Operation W G} {d : Dispatch} {f f' : Frame} {h h' : Host W}
    {pc : UInt64} {c : Contract} {m : Memory} {st : Stack} {res ret : Option Bytes}
    {e err : Option VMError}
    (hf : finish operation d f (.returned pc c m st res e) h = .exit (.ret ret err) f' h') :
    (e ≠ none ∧ ret = none ∧ err = e) ∨
    (e = none ∧ ret = res ∧ (operation.reverts = true ∧ err = some .executionReverted ∨
      operation.reverts = false ∧ operation.halts = true ∧ err = none)) := by
  cases e with
  | some e => cases hf; exact .inl ⟨by simp, rfl, rfl⟩
  | none =>
    cases hr : operation.reverts <;> cases hh : operation.halts <;>
      cases hj : operation.jumps <;> simp [finish, hr, hh, hj] at hf ⊢
    all_goals exact ⟨hf.1.1.symm, hf.1.2.symm⟩

/-- The pass from the head `(f, h)` loaded a clear abort flag, passed the checks and the
charge, and called the fetched operation's `execute`, which returned `res` and no error. -/
def PassReturned (runner : Runner W) (ip : Interpreter W G) (f : Frame) (h : Host W)
    (res : Option Bytes) : Prop :=
  ∃ ms f₁ h₁ pc c m st h₂, ip.abort h.loads = false ∧
    check ip h.evm.readOnly (fetch ip f).op f.stack = .ok ms ∧
    charge ip (ip.cfg.jumpTable (fetch ip f).op) ms (fetch ip f) { h with loads := h.loads + 1 } =
      .ok (f₁, h₁) ∧
    perform runner ((ip.cfg.jumpTable (fetch ip f).op).execute f₁.pc h₁.evm f₁.contract f₁.mem f₁.stack)
      (h₁.record (Dispatch.of f₁ h₁)) = some (.returned pc c m st res none, h₂)

/-- Every way a pass can end the frame. -/
theorem iteration_exit_cases {f f' : Frame} {h h' : Host W} {o : Outcome}
    (hi : iteration runner ip f h = some (.exit o f' h')) :
    (ip.abort h.loads = true ∧ o = .ret none none) ∨ o = .panic ∨ (∃ e, o = .ret none (some e)) ∨
    ∃ res, PassReturned runner ip f h res ∧
      ((ip.cfg.jumpTable (fetch ip f).op).reverts = true ∧ o = .ret res (some .executionReverted) ∨
       (ip.cfg.jumpTable (fetch ip f).op).reverts = false ∧ (ip.cfg.jumpTable (fetch ip f).op).halts = true ∧
        o = .ret res none) := by
  rcases iteration_eq_some.mp hi with ⟨ha, he⟩ | ⟨ha, hs⟩
  · cases he; exact .inl ⟨ha, rfl⟩
  rcases step_cases hs with ⟨o', hk, he⟩ | ⟨ms, o', f₁, h₁, -, hc, he⟩ | ⟨ms, f₁, h₁, hk, hc, hd⟩
  · cases he
    exact (check_error_outcome hk).elim (.inr ∘ .inl) (.inr ∘ .inr ∘ .inl)
  · cases he
    exact .inr (.inr (.inl ⟨_, (charge_eq_error.mp hc).2.1⟩))
  obtain ⟨x, h₂, hp, hfin⟩ := dispatch_eq_some.mp hd
  cases x with
  | panic => cases hfin; exact .inr (.inl rfl)
  | returned pc c m st res e =>
    cases o with
    | panic => exact .inr (.inl rfl)
    | ret ret err =>
      rcases finish_exit_ret hfin with ⟨he, rfl, rfl⟩ | ⟨rfl, rfl, hcase⟩
      · obtain ⟨e', rfl⟩ := Option.ne_none_iff_exists'.mp he
        exact .inr (.inr (.inl ⟨e', rfl⟩))
      refine .inr (.inr (.inr ⟨ret, ⟨ms, f₁, h₁, pc, c, m, st, h₂, ha, hk, hc, hp⟩, ?_⟩))
      rcases hcase with ⟨hr, rfl⟩ | ⟨hr, hh, rfl⟩
      exacts [.inl ⟨hr, rfl⟩, .inr ⟨hr, hh, rfl⟩]

/-- A pass whose `execute` returned `res` and no error, for an operation flagged `reverts`
or `halts`, ends the frame with `res`. -/
theorem PassReturned.exit {f f' : Frame} {h h' : Host W} {res : Option Bytes} {o : Outcome}
    (hpass : PassReturned runner ip f h res) (hi : iteration runner ip f h = some (.exit o f' h')) :
    ((ip.cfg.jumpTable (fetch ip f).op).reverts = true → o = .ret res (some .executionReverted)) ∧
    ((ip.cfg.jumpTable (fetch ip f).op).reverts = false → (ip.cfg.jumpTable (fetch ip f).op).halts = true →
      o = .ret res none) := by
  obtain ⟨ms, f₁, h₁, pc, c, m, st, h₂, ha, hk, hc, hp⟩ := hpass
  have he : iteration runner ip f h = some (finish (ip.cfg.jumpTable (fetch ip f).op) (Dispatch.of f₁ h₁) f₁
      (.returned pc c m st res none) h₂) := by
    simp only [iteration, ha, Bool.false_eq_true, ↓reduceIte, step, fetch_stack, hk, hc, dispatch, hp,
      Option.map_some']
  rw [hi, Option.some.injEq] at he
  constructor
  · intro hr; simp only [finish, hr, ↓reduceIte, StepResult.exit.injEq] at he; exact he.1
  · intro hr hh; simp only [finish, hr, hh, Bool.false_eq_true, ↓reduceIte, StepResult.exit.injEq] at he; exact he.1

theorem iteration_next_passReturned {f f' : Frame} {h h' : Host W} {d : Dispatch} {res : Option Bytes}
    (hi : iteration runner ip f h = some (.next d res f' h')) :
    PassReturned runner ip f h res ∧ d.op = (fetch ip f).op := by
  rcases iteration_cases hi with ⟨o, f₁, h₁, he, -⟩ | ⟨ms, f₁, h₁, x, h₂, ha, hk, hc, -, hp, he⟩
  · cases he
  cases x with
  | panic => cases he
  | returned pc c m st res' err =>
    obtain ⟨rfl, -, -, rfl, rfl, -, -⟩ := finish_eq_next.mp he.symm
    exact ⟨⟨ms, f₁, h₁, pc, c, m, st, h₂, ha, hk, hc, hp⟩, (charge_ok_frame hc).1⟩

/-- Every result of a run with code is the exit of a pass from a head of its frame. -/
theorem run_eq_some {fuel : ℕ} {h h' : Host W} {c c' : Contract} {i : Bytes} {o : Outcome}
    (hrun : run ip fuel h c i = some (o, h', c')) :
    (c.code = [] ∧ o = .ret none none) ∨
    ∃ n l f₁ h₁ f' h'', fuel = n + 1 ∧ Path (run ip n) ip (initFrame c i) (enter h.push) l f₁ h₁ ∧
      iteration (run ip n) ip f₁ h₁ = some (.exit o f' h'') := by
  cases fuel with
  | zero => simp [run] at hrun
  | succ n =>
    rcases runWith_eq_some.mp hrun with ⟨hc, ho, -⟩ | ⟨-, f, h₁, hl, -⟩
    · exact .inl ⟨hc, ho⟩
    obtain ⟨l, f₁, h₂, hp, hi⟩ := loop_sound hl
    exact .inr ⟨n, l, f₁, h₂, f, h₁, rfl, hp, hi⟩

/-- `Run` ends with the last pass of its frame. The output is non-nil only when that pass
dispatched a `reverts` or `halts` operation whose `execute` returned the output and no
error, with `errExecutionReverted` for `reverts` and a nil error for `halts`; and when it
did, the output is exactly the slice `execute` returned. Every other ending, an error of
`execute` included, has nil output. -/
theorem run_output_only_from_halt (ip : Interpreter W G) (fuel : ℕ) (h : Host W) (c : Contract)
    (i : Bytes) :
    ∀ o h' c', run ip fuel h c i = some (o, h', c') → (c.code = [] ∧ o = .ret none none) ∨
      ∃ n l f h₁ f' h'', Path (run ip n) ip (initFrame c i) (enter h.push) l f h₁ ∧
        iteration (run ip n) ip f h₁ = some (.exit o f' h'') ∧
        (∀ ret err, o = .ret ret err → ret ≠ none → PassReturned (run ip n) ip f h₁ ret ∧
          ((ip.cfg.jumpTable (fetch ip f).op).reverts = true ∧ err = some .executionReverted ∨
           (ip.cfg.jumpTable (fetch ip f).op).reverts = false ∧
            (ip.cfg.jumpTable (fetch ip f).op).halts = true ∧ err = none)) ∧
        (∀ res, PassReturned (run ip n) ip f h₁ res →
          ((ip.cfg.jumpTable (fetch ip f).op).reverts = true → o = .ret res (some .executionReverted)) ∧
          ((ip.cfg.jumpTable (fetch ip f).op).reverts = false →
            (ip.cfg.jumpTable (fetch ip f).op).halts = true → o = .ret res none)) := by
  intro o h' c' hrun
  rcases run_eq_some hrun with he | ⟨n, l, f, h₁, f', h'', -, hp, hi⟩
  · exact .inl he
  refine .inr ⟨n, l, f, h₁, f', h'', hp, hi, fun ret err ho hret => ?_, fun res hpass => hpass.exit hi⟩
  subst ho
  rcases iteration_exit_cases hi with ⟨-, ⟨⟩⟩ | he | ⟨e, ⟨⟩⟩ | ⟨res, hpass, ⟨hr, ⟨⟩⟩ | ⟨hr, hh, ⟨⟩⟩⟩
  · exact absurd rfl hret
  · nomatch he
  · exact absurd rfl hret
  · exact ⟨hpass, .inl ⟨hr, rfl⟩⟩
  · exact ⟨hpass, .inr ⟨hr, hh, rfl⟩⟩

/-- A table whose every opcode reverts, its `execute` returning the one byte 1. -/
def revertTable : OpCode → Operation Unit Unit := fun _ =>
  { execute := fun pc _ c m st => .done pc c m st () false (some [1]) none
    gasCost := fun _ _ _ _ _ _ => ⟨0, none, 0, ()⟩
    validateStack := fun _ => none
    memorySize := none
    halts := false, jumps := false, writes := false, valid := true, reverts := true, returns := false }

def revertInterpreter : Interpreter Unit Unit := ⟨⟨false, false, revertTable⟩, (), false, fun _ => false⟩

theorem revert_run_returns_output :
    ∃ o h' c', run revertInterpreter 2 (Host.init ⟨0, false, none, ()⟩) ⟨[0], [], 10⟩ [] = some (o, h', c') ∧
      ((([0] : Bytes) = [] ∧ o = .ret none none) ∨
      ∃ n l f h₁ f' h'', Path (run revertInterpreter n) revertInterpreter (initFrame ⟨[0], [], 10⟩ [])
          (enter (Host.init ⟨0, false, none, ()⟩).push) l f h₁ ∧
        iteration (run revertInterpreter n) revertInterpreter f h₁ = some (.exit o f' h'') ∧
        (∀ ret err, o = .ret ret err → ret ≠ none → PassReturned (run revertInterpreter n) revertInterpreter f h₁ ret ∧
          ((revertTable (fetch revertInterpreter f).op).reverts = true ∧ err = some .executionReverted ∨
           (revertTable (fetch revertInterpreter f).op).reverts = false ∧
            (revertTable (fetch revertInterpreter f).op).halts = true ∧ err = none)) ∧
        (∀ res, PassReturned (run revertInterpreter n) revertInterpreter f h₁ res →
          ((revertTable (fetch revertInterpreter f).op).reverts = true → o = .ret res (some .executionReverted)) ∧
          ((revertTable (fetch revertInterpreter f).op).reverts = false →
            (revertTable (fetch revertInterpreter f).op).halts = true → o = .ret res none))) :=
  ⟨_, _, _, rfl, run_output_only_from_halt revertInterpreter 2 _ ⟨[0], [], 10⟩ [] _ _ _ rfl⟩

example : (run revertInterpreter 2 (Host.init ⟨0, false, none, ()⟩) ⟨[0], [], 10⟩ []).map (·.1) =
    some (.ret (some [1]) (some .executionReverted)) := rfl

/-- A table whose every opcode halts, its `execute` returning the one byte 1. -/
def haltTable : OpCode → Operation Unit Unit := fun _ =>
  { execute := fun pc _ c m st => .done pc c m st () false (some [1]) none
    gasCost := fun _ _ _ _ _ _ => ⟨0, none, 0, ()⟩
    validateStack := fun _ => none
    memorySize := none
    halts := true, jumps := false, writes := false, valid := true, reverts := false, returns := false }

def haltInterpreter (abort : ℕ → Bool) : Interpreter Unit Unit := ⟨⟨false, false, haltTable⟩, (), false, abort⟩

/-- `Run` returns a nil error only for empty code, for an abort flag loaded set at the
last head of its frame, or when its frame ended with a `halts` operation, not flagged
`reverts`, whose `execute` succeeded; and an abort flag loaded set at a head of its frame
ends the run there with nil output and a nil error. -/
theorem run_nil_error_cases (ip : Interpreter W G) (fuel : ℕ) (h : Host W) (c : Contract) (i : Bytes) :
    ∀ o h' c', run ip fuel h c i = some (o, h', c') → (c.code = [] ∧ o = .ret none none) ∨
      ∃ n l f h₁ f' h'', Path (run ip n) ip (initFrame c i) (enter h.push) l f h₁ ∧
        iteration (run ip n) ip f h₁ = some (.exit o f' h'') ∧
        (ip.abort h₁.loads = true → o = .ret none none) ∧
        ∀ ret, o = .ret ret none → ip.abort h₁.loads = true ∨
          PassReturned (run ip n) ip f h₁ ret ∧ (ip.cfg.jumpTable (fetch ip f).op).reverts = false ∧
            (ip.cfg.jumpTable (fetch ip f).op).halts = true := by
  intro o h' c' hrun
  rcases run_eq_some hrun with he | ⟨n, l, f, h₁, f', h'', -, hp, hi⟩
  · exact .inl he
  refine .inr ⟨n, l, f, h₁, f', h'', hp, hi, fun ha => ?_, fun ret ho => ?_⟩
  · rcases iteration_eq_some.mp hi with ⟨-, ⟨⟩⟩ | ⟨hna, -⟩
    exacts [rfl, absurd (ha.symm.trans hna) Bool.noConfusion]
  subst ho
  rcases iteration_exit_cases hi with ⟨ha, -⟩ | he | ⟨e, ⟨⟩⟩ | ⟨res, hpass, ⟨-, ⟨⟩⟩ | ⟨hr, hh, ⟨⟩⟩⟩
  · exact .inl ha
  · nomatch he
  · exact .inr ⟨hpass, hr, hh⟩

theorem aborted_run_nil_error_cases :
    ∃ o h' c', run (haltInterpreter fun _ => true) 1 (Host.init ⟨0, false, none, ()⟩) ⟨[0], [], 10⟩ [] =
        some (o, h', c') ∧
      ((([0] : Bytes) = [] ∧ o = .ret none none) ∨
      ∃ n l f h₁ f' h'', Path (run (haltInterpreter fun _ => true) n) (haltInterpreter fun _ => true)
          (initFrame ⟨[0], [], 10⟩ []) (enter (Host.init ⟨0, false, none, ()⟩).push) l f h₁ ∧
        iteration (run (haltInterpreter fun _ => true) n) (haltInterpreter fun _ => true) f h₁ =
          some (.exit o f' h'') ∧
        ((haltInterpreter fun _ => true).abort h₁.loads = true → o = .ret none none) ∧
        ∀ ret, o = .ret ret none → (haltInterpreter fun _ => true).abort h₁.loads = true ∨
          PassReturned (run (haltInterpreter fun _ => true) n) (haltInterpreter fun _ => true) f h₁ ret ∧
            (haltTable (fetch (haltInterpreter fun _ => true) f).op).reverts = false ∧
            (haltTable (fetch (haltInterpreter fun _ => true) f).op).halts = true) :=
  ⟨_, _, _, rfl, run_nil_error_cases (haltInterpreter fun _ => true) 1 _ ⟨[0], [], 10⟩ [] _ _ _ rfl⟩

/-- An abort flag already set at the first head: `Run` of nonempty code returns nil
output and a nil error, with nothing dispatched. -/
theorem aborted_run_returns_nil_error :
    (run (haltInterpreter fun _ => true) 1 (Host.init ⟨0, false, none, ()⟩) ⟨[0], [], 10⟩ []).map
      (fun r => (r.1, r.2.1.dispatched)) = some (.ret none none, []) := by
  decide

end Vm
end Boker
