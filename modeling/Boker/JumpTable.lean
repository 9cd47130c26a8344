import Boker.Machine

/-!
# Operations, the shared EVM, and nested frames

An operation of the jump table as `jump_table.go` declares it. Its `execute` is a
program that may re-enter `Run` for a nested frame and continue with that frame's
result; `perform` runs it, given what a nested `Run` does.
-/

namespace Boker
namespace Vm

variable {W G : Type}

/-- What the frames of one EVM share: the call depth, the interpreter's read-only flag
and return buffer (fields of `Interpreter` in Go), and `state`, the rest of the EVM
(state database, block context, `callGasTemp`) that the loop itself never reads. -/
structure EVM (W : Type) where
  depth : Int
  readOnly : Bool
  returnData : Option Bytes
  state : W

/-- An operation's `execute`, with the nested `Run` calls it makes: it returns `res, err`
(`done`), or sets the EVM state and the flag, runs `callee` on `input` in a nested frame and
continues with the callee's contract, `ret`, `err` and the EVM after it (`call`). Besides its
frame it writes only the EVM state and the read-only flag; depth and return buffer belong to
`Run`. -/
inductive Exec (W : Type) where
  | done (pc : UInt64) (contract : Contract) (mem : Memory) (stack : Stack) (state : W)
      (readOnly : Bool) (res : Option Bytes) (err : Option VMError)
  | call (state : W) (readOnly : Bool) (callee : Contract) (input : Bytes)
      (k : Contract → Option Bytes → Option VMError → EVM W → Exec W)

/-- A gas function's result, with the two fields gas functions write: the memory's
`lastGasCost` and, through `callGasTemp`, the EVM state. -/
structure GasResult (W : Type) where
  cost : UInt64
  err : Option VMError
  lastGasCost : UInt64
  state : W

/-- A jump-table entry, with `Config`'s options below it; `memorySize` is the one function
field that may be nil, and the tracer is the list of `Capture`s, the arguments of
`Tracer.CaptureState`. -/
structure Operation (W G : Type) where
  execute : UInt64 → EVM W → Contract → Memory → Stack → Exec W
  gasCost : G → EVM W → Contract → Stack → Memory → UInt64 → GasResult W
  validateStack : Stack → Option VMError
  memorySize : Option (Stack → Int)
  halts : Bool
  jumps : Bool
  writes : Bool
  valid : Bool
  reverts : Bool
  returns : Bool

structure Config (W G : Type) where
  debug : Bool
  disableGasMetering : Bool
  jumpTable : OpCode → Operation W G

/-- The interpreter's fixed data: configuration, gas table, the `IsByzantium` chain rule
of its EVM, and the external canceller: `abort n` is whether `evm.abort` is set at the
`n`-th load of the flag. -/
structure Interpreter (W G : Type) where
  cfg : Config W G
  gasTable : G
  isByzantium : Bool
  abort : ℕ → Bool

structure Capture where
  pc : UInt64
  op : OpCode
  gas : UInt64
  cost : UInt64
  mem : Memory
  stack : Stack
  contract : Contract
  depth : Int
  err : Option VMError
  deriving DecidableEq

/-- Ghost record of one call of `operation.execute`: the opcode, the read-only flag,
depth and number of active frames when its step began, and the stack and the memory
length it was given. -/
structure Dispatch where
  op : OpCode
  readOnly : Bool
  depth : Int
  frames : ℕ
  stack : Stack
  memLen : ℕ
  deriving DecidableEq

/-- The EVM with what is recorded beside it: the tracer's captures, and as ghosts the
dispatches so far, the loads of the abort flag so far and the active `Run` frames. -/
structure Host (W : Type) where
  evm : EVM W
  captures : List Capture
  dispatched : List Dispatch
  loads : ℕ
  frames : ℕ

def Host.init (evm : EVM W) : Host W := ⟨evm, [], [], 0, 0⟩

/-- How `Run` ends: it returns `ret, err`, or a runtime panic unwinds through it. -/
inductive Outcome
  | ret (ret : Option Bytes) (err : Option VMError)
  | panic
  deriving DecidableEq

/-- A nested `in.Run`: outcome, host after and the callee's contract after, or `none`
when out of fuel. -/
abbrev Runner (W : Type) := Host W → Contract → Bytes → Option (Outcome × Host W × Contract)

inductive Performed
  | returned (pc : UInt64) (contract : Contract) (mem : Memory) (stack : Stack)
      (res : Option Bytes) (err : Option VMError)
  | panic

def Host.setState (h : Host W) (s : W) (ro : Bool) : Host W :=
  { h with evm := { h.evm with state := s, readOnly := ro } }

@[simp] theorem Host.setState_depth (h : Host W) (s : W) (ro : Bool) :
    (h.setState s ro).evm.depth = h.evm.depth := rfl
@[simp] theorem Host.setState_returnData (h : Host W) (s : W) (ro : Bool) :
    (h.setState s ro).evm.returnData = h.evm.returnData := rfl
@[simp] theorem Host.setState_frames (h : Host W) (s : W) (ro : Bool) :
    (h.setState s ro).frames = h.frames := rfl
@[simp] theorem Host.setState_loads (h : Host W) (s : W) (ro : Bool) :
    (h.setState s ro).loads = h.loads := rfl

/-- Runs an operation's `execute`, re-entering `Run` through `runner`; a panic in a nested
frame unwinds through this one too. -/
def perform (runner : Runner W) : Exec W → Host W → Option (Performed × Host W)
  | .done pc c m st s ro res err, h => some (.returned pc c m st res err, h.setState s ro)
  | .call s ro callee input k, h =>
    match runner (h.setState s ro) callee input with
    | none => none
    | some (.panic, h', _) => some (.panic, h')
    | some (.ret ret err, h', callee') => perform runner (k callee' ret err h'.evm) h'

def Exec.ends (P : UInt64 → Contract → Memory → Stack → Prop) : Exec W → Prop
  | .done pc c m st _ _ _ _ => P pc c m st
  | .call _ _ _ _ k => ∀ c r e v, (k c r e v).ends P

/-- `P` holds at every `done` leaf reached while each nested `Run` gives its contract back
with at most the gas it was given. -/
def Exec.endsWithin (P : UInt64 → Contract → Memory → Stack → Prop) : Exec W → Prop
  | .done pc c m st _ _ _ _ => P pc c m st
  | .call _ _ callee _ k => ∀ c r e v, c.gas.toNat ≤ callee.gas.toNat → (k c r e v).endsWithin P

/-- Every nested `Run` the program starts is given a contract satisfying `P`. -/
def Exec.calls (P : Contract → Prop) : Exec W → Prop
  | .done .. => True
  | .call _ _ callee _ k => P callee ∧ ∀ c r e v, (k c r e v).calls P

def Exec.reenters : Exec W → Bool
  | .done .. => false
  | .call .. => true

section perform

variable {runner : Runner W} {h h' : Host W}

theorem perform_ends {P : UInt64 → Contract → Memory → Stack → Prop} {e : Exec W}
    {pc : UInt64} {c : Contract} {m : Memory} {st : Stack} {res : Option Bytes} {err : Option VMError}
    (he : e.ends P) (hp : perform runner e h = some (.returned pc c m st res err, h')) : P pc c m st := by
  induction e generalizing h with
  | done => simp only [perform, Option.some.injEq, Prod.mk.injEq, Performed.returned.injEq] at hp
            obtain ⟨⟨rfl, rfl, rfl, rfl, -⟩, -⟩ := hp; exact he
  | call s ro callee input k ih =>
    simp only [perform] at hp
    split at hp <;> first | cases hp | exact ih _ _ _ _ (he _ _ _ _) hp

/-- A property of the host that every nested frame and every write of `execute` keeps
is kept by the whole program. -/
theorem perform_preserves (Q : Host W → Prop) (hs : ∀ h s ro, Q h → Q (h.setState s ro))
    (hr : ∀ h c i o h' c', Q h → runner h c i = some (o, h', c') → Q h')
    {e : Exec W} {x : Performed} (hq : Q h) (hp : perform runner e h = some (x, h')) : Q h' := by
  induction e generalizing h with
  | done => simp only [perform, Option.some.injEq, Prod.mk.injEq] at hp
            exact hp.2 ▸ hs _ _ _ hq
  | call s ro callee input k ih =>
    simp only [perform] at hp
    split at hp
    · cases hp
    · obtain ⟨-, rfl⟩ := Prod.mk.inj (Option.some.inj hp)
      exact hr _ _ _ _ _ _ (hs _ _ _ hq) ‹_›
    · exact ih _ _ _ _ (hr _ _ _ _ _ _ (hs _ _ _ hq) ‹_›) hp

theorem perform_of_not_reenters {e : Exec W} {x : Performed} (he : e.reenters = false)
    (hp : perform runner e h = some (x, h')) : ∃ s ro, h' = h.setState s ro := by
  cases e with
  | done => simp only [perform, Option.some.injEq, Prod.mk.injEq] at hp; exact ⟨_, _, hp.2.symm⟩
  | call => simp [Exec.reenters] at he

end perform

end Vm
end Boker
