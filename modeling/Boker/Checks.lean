import Boker.Loop

/-!
# The checks before dispatch

A step checks, in order, that the opcode is valid, the operation's stack check, write
protection in static frames, and the memory size, then charges the gas. A step that
fails one of them ends the frame with nil output and leaves the contract and memory as
they were; a step that passes them has been charged exactly its gas cost.
-/

namespace Boker
namespace Vm

variable {W G : Type} {ip : Interpreter W G} {runner : Runner W}

/-- What a static frame under Byzantium rules may not dispatch: an operation flagged
`writes`, or a CALL whose third stack item, the value it transfers, is nonzero. -/
def staticForbidden (ip : Interpreter W G) (op : OpCode) (stack : Stack) : Bool :=
  (ip.cfg.jumpTable op).writes || (op == CALL && (stack.back 2).any (· != 0))

/-- Whether `enforceRestrictions` panics: `stack.Back(2)` of a static CALL under Byzantium
rules, not flagged `writes`, on a stack of fewer than three items. -/
def restrictionPanics (ip : Interpreter W G) (readOnly : Bool) (op : OpCode) (stack : Stack) : Bool :=
  ip.isByzantium && readOnly && !(ip.cfg.jumpTable op).writes && op == CALL && (stack.back 2).isNone

theorem enforceRestrictions_eq (ro : Bool) (op : OpCode) (stack : Stack) :
    enforceRestrictions ip.isByzantium ro op (ip.cfg.jumpTable op) stack =
      if restrictionPanics ip ro op stack then none
      else if ip.isByzantium && ro && staticForbidden ip op stack then some (some .writeProtection)
      else some none := by
  unfold enforceRestrictions restrictionPanics staticForbidden
  cases ip.isByzantium <;> cases ro <;> cases hw : (ip.cfg.jumpTable op).writes <;> simp [hw]
  by_cases hc : op = CALL <;> simp [hc]
  cases (stack.back 2) <;> simp [bitLen_pos]
  split_ifs <;> simp

/-- The error a forbidden step of a static frame ends with: invalid opcode or the
operation's stack check if one of them fails first, and `errWriteProtection` otherwise. -/
def staticError (ip : Interpreter W G) (op : OpCode) (stack : Stack) : VMError :=
  if (ip.cfg.jumpTable op).valid then ((ip.cfg.jumpTable op).validateStack stack).getD .writeProtection
  else .invalidOpcode op

theorem check_static {op : OpCode} {stack : Stack} (hb : ip.isByzantium = true)
    (hf : staticForbidden ip op stack = true) :
    check ip true op stack = .error (.ret none (some (staticError ip op stack))) := by
  have hp : restrictionPanics ip true op stack = false := by
    revert hf; unfold staticForbidden restrictionPanics
    cases (ip.cfg.jumpTable op).writes <;> cases stack.back 2 <;> simp
  unfold check staticError
  cases hv : (ip.cfg.jumpTable op).valid
  · simp [hv]
  · simp only [enforceRestrictions_eq]
    cases hs : (ip.cfg.jumpTable op).validateStack stack <;> simp [hv, hs, hb, hf, hp]

theorem check_ok_allowed {ro : Bool} {op : OpCode} {stack : Stack} {ms : UInt64}
    (hk : check ip ro op stack = .ok ms) (hb : ip.isByzantium = true) (hro : ro = true) :
    staticForbidden ip op stack = false := by
  subst hro
  cases hf : staticForbidden ip op stack
  · rfl
  · rw [check_static hb hf] at hk; cases hk

/-- A dispatch made with its opcode, stack and read-only flag past the checks before gas. -/
def Checked (ip : Interpreter W G) (d : Dispatch) : Prop := ∃ ms, check ip d.readOnly d.op d.stack = .ok ms

theorem iteration_logKept_checked
    (hr : ∀ h c i o h' c', runner h c i = some (o, h', c') → LogKept (Checked ip) h h')
    {f : Frame} {h : Host W} {r : StepResult W} (hi : iteration runner ip f h = some r) :
    LogKept (Checked ip) h r.host := by
  rcases iteration_cases hi with ⟨o, f', h', rfl, hl, -⟩ | ⟨ms, f₁, h₁, x, h₂, -, hk, hc, hl, hp, rfl⟩
  · exact .of_dispatched hl.dispatched
  obtain ⟨hop, hst, -, -⟩ := charge_ok_frame hc
  have hd : Checked ip (Dispatch.of f₁ h₁) := ⟨ms, by simpa [Dispatch.of, hop, hst, hl.readOnly] using hk⟩
  exact (LogKept.of_dispatched hl.dispatched).trans
    ((LogKept.record hd).trans ((LogKept.perform hr hp).trans (.finish _ _ _ _ _)))

/-- A step of a static frame under Byzantium rules whose operation writes, or which is a
CALL carrying a nonzero value, never reaches `execute`: it ends the frame with nil output
and the error of the first failing check, leaving the host as it was. No run of any
length, in any nested frame, dispatches such an operation from a static frame. -/
theorem static_frame_never_dispatches_write (ip : Interpreter W G) :
    (∀ (runner : Runner W) (f : Frame) (h : Host W), ip.isByzantium = true → h.evm.readOnly = true →
      staticForbidden ip (fetch ip f).op f.stack = true →
      step runner ip f h = some (.exit (.ret none (some (staticError ip (fetch ip f).op f.stack))) (fetch ip f) h)) ∧
    (∀ fuel h c i o h' c', run ip fuel h c i = some (o, h', c') →
      ∀ d ∈ h'.dispatched, d ∈ h.dispatched ∨
        ¬(ip.isByzantium = true ∧ d.readOnly = true ∧ staticForbidden ip d.op d.stack = true)) := by
  refine ⟨fun runner f h hb hro hf => ?_, fun fuel h c i o h' c' hrun d hd => ?_⟩
  · simp only [step, fetch_stack, hro]
    rw [check_static hb hf]
  · refine (run_logKept (Checked ip) (fun _ hr _ _ _ hi => iteration_logKept_checked hr hi) fuel
      h c i o h' c' hrun d hd).imp id fun ⟨ms, hk⟩ ⟨hb, hro, hf⟩ => ?_
    rw [hro] at hk
    rw [check_ok_allowed hk hb rfl] at hf
    cases hf

def storeTable : OpCode → Operation Unit Unit := fun _ =>
  { execute := fun pc _ c m st => .done pc c m st () false none none
    gasCost := fun _ _ _ _ _ _ => ⟨0, none, 0, ()⟩
    validateStack := fun st => if st.data.length < 1 then some (.stackUnderflow st.data.length 1) else none
    memorySize := none
    halts := false, jumps := false, writes := true, valid := true, reverts := false, returns := false }

/-- A writing operation in a static frame with an empty stack ends the run with the
stack check's error, not with `errWriteProtection`. -/
theorem static_write_reports_stack_error :
    (run ⟨⟨false, false, storeTable⟩, (), true, fun _ => false⟩ 2
      ⟨⟨0, true, none, ()⟩, [], [], 0, 0⟩ ⟨[0], [], 10⟩ []).map Prod.fst =
      some (.ret none (some (.stackUnderflow 0 1))) := by
  decide

/-- The gas check of a step with memory size `ms`, when metering is on: the gas function
failed, or its cost exceeds the contract's gas. -/
def outOfGasAt (ip : Interpreter W G) (operation : Operation W G) (ms : UInt64) (f : Frame)
    (h : Host W) : Bool :=
  !ip.cfg.disableGasMetering &&
    ((gasResult ip operation ms f h).err.isSome || decide (f.contract.gas < (gasResult ip operation ms f h).cost))

/-- The checks before the gas charge in the order the specification lists them, each as
the way it ends the step when it fails; the write-protection check may also panic. -/
def checksBeforeGas (ip : Interpreter W G) (readOnly : Bool) (op : OpCode) (stack : Stack) :
    List (Option Outcome) :=
  let operation := ip.cfg.jumpTable op
  [if operation.valid then none else some (.ret none (some (.invalidOpcode op))),
   (operation.validateStack stack).map fun e => .ret none (some e),
   if restrictionPanics ip readOnly op stack then some .panic
   else if ip.isByzantium && readOnly && staticForbidden ip op stack then
     some (.ret none (some .writeProtection))
   else none,
   if stepMemorySize operation stack = none then some (.ret none (some .gasUintOverflow)) else none]

/-- How the checks before dispatch end the step at `(f, h)`, the first that fails
deciding, or `none` when they all pass. -/
def preDispatch (ip : Interpreter W G) (f : Frame) (h : Host W) : Option Outcome :=
  let op := (fetch ip f).op
  (checksBeforeGas ip h.evm.readOnly op f.stack ++
    [(stepMemorySize (ip.cfg.jumpTable op) f.stack).bind fun ms =>
      if outOfGasAt ip (ip.cfg.jumpTable op) ms (fetch ip f) h then some (Outcome.ret none (some .outOfGas))
      else none]).findSome? id

theorem check_eq (ro : Bool) (op : OpCode) (stack : Stack) :
    check ip ro op stack =
      match (checksBeforeGas ip ro op stack).findSome? id with
      | some o => .error o
      | none => .ok ((stepMemorySize (ip.cfg.jumpTable op) stack).getD 0) := by
  unfold check checksBeforeGas
  simp only [enforceRestrictions_eq]
  cases hv : (ip.cfg.jumpTable op).valid
  · simp
  cases hs : (ip.cfg.jumpTable op).validateStack stack
  · simp only [hv, hs, Bool.not_true, Bool.false_eq_true, ↓reduceIte, Option.map_none']
    cases stepMemorySize (ip.cfg.jumpTable op) stack <;> simp only [↓reduceIte, reduceCtorEq] <;>
      split_ifs <;> rfl
  · simp [hs]

theorem stepMemorySize_of_checks {ro : Bool} {op : OpCode} {stack : Stack}
    (hb : (checksBeforeGas ip ro op stack).findSome? id = none) :
    ∃ ms, stepMemorySize (ip.cfg.jumpTable op) stack = some ms := by
  have h4 := List.findSome?_eq_none_iff.mp hb (if stepMemorySize (ip.cfg.jumpTable op) stack = none
    then some (.ret none (some .gasUintOverflow)) else none) (by simp [checksBeforeGas])
  exact Option.ne_none_iff_exists'.mp fun hn => by rw [hn] at h4; simp at h4

theorem check_ok_stepMemorySize {ro : Bool} {op : OpCode} {stack : Stack} {ms : UInt64}
    (hk : check ip ro op stack = .ok ms) : stepMemorySize (ip.cfg.jumpTable op) stack = some ms := by
  rw [check_eq] at hk
  split at hk
  · cases hk
  next hb =>
    obtain ⟨ms', hms⟩ := stepMemorySize_of_checks hb
    rw [hms] at hk ⊢
    cases hk; rfl

theorem charge_outOfGas {operation : Operation W G} {ms : UInt64} {f : Frame} {h : Host W}
    (hg : outOfGasAt ip operation ms f h = true) :
    charge ip operation ms f h =
      .error (.ret none (some .outOfGas), charged (gasResult ip operation ms f h) f h) := by
  unfold outOfGasAt at hg
  cases hd : ip.cfg.disableGasMetering
  · refine charge_eq_error.mpr ⟨hd, rfl, ?_, rfl⟩
    rcases he : (gasResult ip operation ms f h).err with _ | e
    · simp only [hd, he, Bool.not_false, Option.isSome_none, Bool.false_or, Bool.true_and,
        decide_eq_true_eq] at hg
      exact .inr (by simp [Contract.useGas, hg])
    · exact .inl (by simp)
  · simp [hd] at hg

theorem charge_enough {operation : Operation W G} {ms : UInt64} {f : Frame} {h : Host W}
    (hg : outOfGasAt ip operation ms f h = false) : ∃ f' h', charge ip operation ms f h = .ok (f', h') := by
  rcases hc : charge ip operation ms f h with ⟨o, f', h'⟩ | ⟨f', h'⟩
  · obtain ⟨hd, -, hfail, -⟩ := charge_eq_error.mp hc
    simp only [outOfGasAt, hd, Bool.not_false, Bool.true_and, Bool.or_eq_false_iff,
      decide_eq_false_iff_not, UInt64.not_lt] at hg
    rcases hfail with he | hu
    · exact absurd (Option.not_isSome_iff_eq_none.mp (by simp [hg.1])) he
    · simp [Contract.useGas, UInt64.not_lt.mpr hg.2] at hu
  · exact ⟨f', h', rfl⟩

theorem charge_ok_gas {operation : Operation W G} {ms : UInt64} {f f' : Frame} {h h' : Host W}
    (hc : charge ip operation ms f h = .ok (f', h')) (hd : ip.cfg.disableGasMetering = false) :
    (gasResult ip operation ms f h).err = none ∧
      f'.contract.gas.toNat + (gasResult ip operation ms f h).cost.toNat = f.contract.gas.toNat := by
  rcases charge_eq_ok.mp hc with ⟨hd', -⟩ | ⟨-, c, he, hu, he'⟩
  · simp [hd] at hd'
  rw [show f' = _ from congrArg Prod.fst he', expand_contract]
  have := Contract.useGas_gas hu
  have := (Contract.useGas_eq_some.mp hu).1
  exact ⟨he, by simp only; omega⟩

/-- With gas metering on, a step calls `execute` only once `UseGas` has taken exactly the
cost the gas function gave for the step's stack, memory and rounded memory size. A step
that fails a check before that ends the frame with nil output and the error of the first
check that fails in the listed order, or panics where `stack.Back(2)` runs past the
stack's bottom; it calls no `execute` and leaves the contract and the memory's bytes as
they were. -/
theorem step_checks_in_order (ip : Interpreter W G) (runner : Runner W) (f : Frame) (h : Host W) :
    (∀ o, preDispatch ip f h = some o → ∃ f' h', step runner ip f h = some (.exit o f' h') ∧
      f'.contract = f.contract ∧ f'.mem.store = f.mem.store ∧ h'.dispatched = h.dispatched) ∧
    (preDispatch ip f h = none → ∃ ms f₁ h₁,
      stepMemorySize (ip.cfg.jumpTable (fetch ip f).op) f.stack = some ms ∧
      charge ip (ip.cfg.jumpTable (fetch ip f).op) ms (fetch ip f) h = .ok (f₁, h₁) ∧
      (ip.cfg.disableGasMetering = false →
        (gasResult ip (ip.cfg.jumpTable (fetch ip f).op) ms (fetch ip f) h).err = none ∧
        f₁.contract.gas.toNat + (gasResult ip (ip.cfg.jumpTable (fetch ip f).op) ms (fetch ip f) h).cost.toNat =
          f.contract.gas.toNat) ∧
      step runner ip f h = dispatch runner (ip.cfg.jumpTable (fetch ip f).op) f₁ h₁) := by
  unfold preDispatch
  simp only [step, fetch_stack]
  rw [List.findSome?_append, check_eq]
  rcases hb : (checksBeforeGas ip h.evm.readOnly (fetch ip f).op f.stack).findSome? id with _ | o
  · obtain ⟨ms, hms⟩ := stepMemorySize_of_checks hb
    simp only [hms, Option.getD_some, Option.some_bind, Option.none_or, List.findSome?_cons,
      List.findSome?_nil, id]
    cases hg : outOfGasAt ip (ip.cfg.jumpTable (fetch ip f).op) ms (fetch ip f) h
    · obtain ⟨f₁, h₁, hc⟩ := charge_enough hg
      simp only [hc, Bool.false_eq_true, ↓reduceIte]
      exact ⟨nofun, fun _ => ⟨ms, f₁, h₁, rfl, hc, by simpa using charge_ok_gas hc, rfl⟩⟩
    · simp only [charge_outOfGas hg, ↓reduceIte, Option.some.injEq]
      exact ⟨by rintro o rfl; exact ⟨_, _, rfl, by simp, by simp, rfl⟩, nofun⟩
  · simp only [Option.or_some, Option.some.injEq]
    exact ⟨by rintro o rfl; exact ⟨_, _, rfl, by simp, by simp, rfl⟩, nofun⟩

def shortCallTable : OpCode → Operation Unit Unit := fun _ =>
  { execute := fun pc _ c m st => .done pc c m st () false none none
    gasCost := fun _ _ _ _ _ _ => ⟨0, some .outOfGas, 0, ()⟩
    validateStack := fun _ => none
    memorySize := none
    halts := false, jumps := false, writes := false, valid := true, reverts := false, returns := false }

/-- A static CALL on an empty stack panics in `enforceRestrictions` where the gas check
would have failed with `ErrOutOfGas`. -/
theorem static_short_call_panics :
    (run ⟨⟨false, false, shortCallTable⟩, (), true, fun _ => false⟩ 2
      ⟨⟨0, true, none, ()⟩, [], [], 0, 0⟩ ⟨[CALL], [], 10⟩ []).map Prod.fst = some .panic := by
  decide

end Vm
end Boker
