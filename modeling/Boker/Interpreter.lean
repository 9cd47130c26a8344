import Boker.JumpTable

/-!
# The interpreter loop

`Interpreter.Run` of `interpreter.go`: fetch, the checks before any gas is charged,
the gas charge and memory expansion, the dispatch to `execute` and the classification
of its result, repeated by the `for` loop until the abort flag is set or a step ends
the frame. Nested frames are `Run` again, passed in as a `Runner`; `run` ties the knot.
-/

namespace Boker
namespace Vm

variable {W G : Type}

/-- The variables of `Run` that live across iterations of its loop. -/
structure Frame where
  pc : UInt64
  contract : Contract
  mem : Memory
  stack : Stack
  op : OpCode
  cost : UInt64
  stackCopy : Stack
  pcCopy : UInt64
  gasCopy : UInt64
  logged : Bool
  deriving DecidableEq

def initFrame (contract : Contract) (input : Bytes) : Frame where
  pc := 0
  contract := { contract with input := input }
  mem := newMemory
  stack := newstack
  op := STOP
  cost := 0
  stackCopy := newstack
  pcCopy := 0
  gasCopy := 0
  logged := false

/-- `enforceRestrictions`; `none` is the runtime panic of `stack.Back(2)` on a short stack. -/
def enforceRestrictions (isByzantium readOnly : Bool) (op : OpCode) (operation : Operation W G)
    (stack : Stack) : Option (Option VMError) :=
  if isByzantium then
    if readOnly then
      if operation.writes then some (some .writeProtection)
      else if op = CALL then
        (stack.back 2).map fun v => if 0 < bitLen v then some .writeProtection else none
      else some none
    else some none
  else some none

/-- The word-rounded memory size of a step; `none` is `errGasUintOverflow`. -/
def stepMemorySize (operation : Operation W G) (stack : Stack) : Option UInt64 :=
  match operation.memorySize with
  | none => some 0
  | some memorySize =>
    let memSize := bigUint64 (memorySize stack)
    if memSize.2 then none
    else
      let size := safeMul (toWordSize memSize.1) 32
      if size.2 then none else some size.1

/-- The checks before any gas is charged, in the loop's order; each failure ends the
frame with nil output. On success, the step's memory size. -/
def check (ip : Interpreter W G) (readOnly : Bool) (op : OpCode) (stack : Stack) :
    Except Outcome UInt64 :=
  let operation := ip.cfg.jumpTable op
  if !operation.valid then .error (.ret none (some (.invalidOpcode op)))
  else
    match operation.validateStack stack with
    | some err => .error (.ret none (some err))
    | none =>
      match enforceRestrictions ip.isByzantium readOnly op operation stack with
      | none => .error .panic
      | some (some err) => .error (.ret none (some err))
      | some none =>
        match stepMemorySize operation stack with
        | none => .error (.ret none (some .gasUintOverflow))
        | some memorySize => .ok memorySize

def fetch (ip : Interpreter W G) (f : Frame) : Frame :=
  let f := { f with op := f.contract.getOp f.pc }
  if ip.cfg.debug then
    { f with logged := false, pcCopy := f.pc, gasCopy := f.contract.gas, stackCopy := f.stack.copy }
  else f

def expand (ip : Interpreter W G) (memorySize : UInt64) (f : Frame) (h : Host W) : Frame × Host W :=
  let f := if 0 < memorySize then { f with mem := f.mem.resize memorySize } else f
  if ip.cfg.debug then
    ({ f with logged := true }, { h with captures := h.captures ++
      [⟨f.pc, f.op, f.gasCopy, f.cost, f.mem, f.stackCopy, f.contract, h.evm.depth, none⟩] })
  else (f, h)

/-- Charge the step's gas unless metering is disabled, then `expand`. A failed charge
keeps the cost and `lastGasCost` the gas function returned. -/
def charge (ip : Interpreter W G) (operation : Operation W G) (memorySize : UInt64) (f : Frame)
    (h : Host W) : Except (Outcome × Frame × Host W) (Frame × Host W) :=
  if ip.cfg.disableGasMetering then .ok (expand ip memorySize f h)
  else
    let r := operation.gasCost ip.gasTable h.evm f.contract f.stack f.mem memorySize
    let f := { f with cost := r.cost, mem := { f.mem with lastGasCost := r.lastGasCost } }
    let h := { h with evm := { h.evm with state := r.state } }
    match r.err, f.contract.useGas r.cost with
    | none, some c => .ok (expand ip memorySize { f with contract := c } h)
    | _, _ => .error (.ret none (some .outOfGas), f, h)

inductive StepResult (W : Type)
  | next (d : Dispatch) (res : Option Bytes) (f : Frame) (h : Host W)
  | exit (o : Outcome) (f : Frame) (h : Host W)

def Dispatch.of (f : Frame) (h : Host W) : Dispatch :=
  ⟨f.op, h.evm.readOnly, h.evm.depth, h.frames, f.stack, f.mem.len⟩

def Host.record (h : Host W) (d : Dispatch) : Host W := { h with dispatched := h.dispatched ++ [d] }

/-- After `execute`: set the return buffer for a `returns` operation, then end the frame
on an error, a revert or a halt, or advance `pc` unless the operation jumps. -/
def finish (operation : Operation W G) (d : Dispatch) (f : Frame) : Performed → Host W → StepResult W
  | .panic, h => .exit .panic f h
  | .returned pc c m st res err, h =>
    let f := { f with pc := pc, contract := c, mem := m, stack := st }
    let h := if operation.returns then { h with evm := { h.evm with returnData := res } } else h
    match err with
    | some err => .exit (.ret none (some err)) f h
    | none =>
      if operation.reverts then .exit (.ret res (some .executionReverted)) f h
      else if operation.halts then .exit (.ret res none) f h
      else if !operation.jumps then .next d res { f with pc := f.pc + 1 } h
      else .next d res f h

def dispatch (runner : Runner W) (operation : Operation W G) (f : Frame) (h : Host W) :
    Option (StepResult W) :=
  let d := Dispatch.of f h
  (perform runner (operation.execute f.pc h.evm f.contract f.mem f.stack) (h.record d)).map
    fun (x, h) => finish operation d f x h

def step (runner : Runner W) (ip : Interpreter W G) (f : Frame) (h : Host W) : Option (StepResult W) :=
  let f := fetch ip f
  let operation := ip.cfg.jumpTable f.op
  match check ip h.evm.readOnly f.op f.stack with
  | .error o => some (.exit o f h)
  | .ok memorySize =>
    match charge ip operation memorySize f h with
    | .error (o, f, h) => some (.exit o f h)
    | .ok (f, h) => dispatch runner operation f h

/-- One pass of the `for` loop from its head: load the abort flag, then the body. -/
def iteration (runner : Runner W) (ip : Interpreter W G) (f : Frame) (h : Host W) :
    Option (StepResult W) :=
  let aborted := ip.abort h.loads
  let h := { h with loads := h.loads + 1 }
  if aborted then some (.exit (.ret none none) f h) else step runner ip f h

def loop (runner : Runner W) (ip : Interpreter W G) : ℕ → Frame → Host W → Option (Outcome × Frame × Host W)
  | 0, _, _ => none
  | n + 1, f, h =>
    match iteration runner ip f h with
    | none => none
    | some (.next _ _ f h) => loop runner ip n f h
    | some (.exit o f h) => some (o, f, h)

/-- Entry: `depth++` and the return buffer reset; `leave` is the deferred `depth--`. -/
def enter (h : Host W) : Host W :=
  { h with evm := { h.evm with depth := h.evm.depth + 1, returnData := none } }

def leave (h : Host W) : Host W :=
  { h with evm := { h.evm with depth := h.evm.depth - 1 } }

/-- Ghost: the count of active frames of `Run`, one up on entry and one down on return. -/
def Host.push (h : Host W) : Host W := { h with frames := h.frames + 1 }

def Host.pop (h : Host W) : Host W := { h with frames := h.frames - 1 }

def deferCapture (ip : Interpreter W G) (o : Outcome) (f : Frame) (h : Host W) : Host W :=
  match o with
  | .ret _ (some err) =>
    if !f.logged && ip.cfg.debug then
      { h with captures := h.captures ++
        [⟨f.pcCopy, f.op, f.gasCopy, f.cost, f.mem, f.stackCopy, f.contract, h.evm.depth, some err⟩] }
    else h
  | _ => h

/-- `Run` with nested frames run by `runner` and at most `n` passes of its loop. -/
def runWith (runner : Runner W) (ip : Interpreter W G) (n : ℕ) (h : Host W) (contract : Contract)
    (input : Bytes) : Option (Outcome × Host W × Contract) :=
  let h := enter h.push
  if contract.code.length = 0 then some (.ret none none, (leave h).pop, contract)
  else
    (loop runner ip n (initFrame contract input) h).map
      fun (o, f, h) => (o, (leave (deferCapture ip o f h)).pop, f.contract)

/-- `Interpreter.Run`; `fuel` bounds the passes of its loop and the nesting of frames. -/
def run (ip : Interpreter W G) : ℕ → Runner W
  | 0 => fun _ _ _ => none
  | fuel + 1 => runWith (run ip fuel) ip (fuel + 1)

end Vm
end Boker
