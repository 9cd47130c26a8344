import Mathlib.Data.Nat.Size

/-!
# Words, stack, memory and contract of the `vm` package

The data the interpreter loop of `core/vm/interpreter.go` reads and writes. Stack
entries are Go `*big.Int` values and so are `Int`s; gas, sizes and the program
counter are `uint64` and so are `UInt64`, wrapping where Go wraps.
-/

namespace Boker
namespace Vm

/-- Byte slices. A Go slice that may be `nil` is an `Option Bytes`. -/
abbrev Bytes := List UInt8

abbrev OpCode := UInt8

/-- Modelled from the spec: `opcodes.go` is not under src/; an opcode past the end of
the code reads as the implicit STOP, which is Go's zero `OpCode`. -/
def STOP : OpCode := 0x00

/-- Modelled from the spec: `opcodes.go` is not under src/; CALL is the message-call
opcode whose third stack item is the value transferred. -/
def CALL : OpCode := 0xf1

/-- The errors `Run` returns. `other` stands for any further error an operation's
`execute` or stack check returns. -/
inductive VMError
  | invalidOpcode (op : OpCode)
  | stackUnderflow (size want : ℕ)
  | stackLimitReached (size limit : ℕ)
  | writeProtection
  | gasUintOverflow
  | outOfGas
  | executionReverted
  | other (msg : String)
  deriving DecidableEq, Repr

/-- Go's `(*big.Int).BitLen`: the bit length of the absolute value, 0 for 0. -/
def bitLen (v : Int) : ℕ := v.natAbs.size

@[simp] theorem bitLen_pos (v : Int) : 0 < bitLen v ↔ v ≠ 0 := by
  simp [bitLen, Nat.size_pos, Int.natAbs_pos]

/-- The operand stack; `data` is in Go's order, the top last. -/
structure Stack where
  data : List Int
  deriving DecidableEq, Repr

/-- Modelled from the spec: `stack.go` is not under src/; a fresh, empty stack. -/
def newstack : Stack := ⟨[]⟩

/-- Modelled from the spec: `stack.go` is not under src/; push appends to the top. -/
def Stack.push (st : Stack) (v : Int) : Stack := ⟨st.data ++ [v]⟩

/-- Modelled from the spec: `stack.go` is not under src/; `Back(n)` reads the item `n`
below the top, `st.data[st.len()-n-1]`. Reading below the bottom is Go's index out of
range, `none` here. -/
def Stack.back (st : Stack) (n : ℕ) : Option Int :=
  if n < st.data.length then st.data.get? (st.data.length - n - 1) else none

/-- The tracer's copy, `stackCopy = newstack(); for _, val := range stack.data { stackCopy.push(val) }`. -/
def Stack.copy (st : Stack) : Stack := st.data.foldl Stack.push newstack

theorem foldl_push (l : List Int) (st : Stack) : l.foldl Stack.push st = ⟨st.data ++ l⟩ := by
  induction l generalizing st with
  | nil => simp
  | cons v l ih => simp [ih, Stack.push]

@[simp] theorem Stack.copy_eq (st : Stack) : st.copy = st := by
  simp [Stack.copy, foldl_push, newstack]

/-- Linear memory: its bytes and the total memory fee charged so far. -/
structure Memory where
  store : Bytes
  lastGasCost : UInt64
  deriving DecidableEq, Repr

/-- Modelled from the spec: `memory.go` is not under src/; memory starts empty. -/
def newMemory : Memory := ⟨[], 0⟩

def Memory.len (m : Memory) : ℕ := m.store.length

/-- Modelled from the spec: `memory.go` is not under src/; `Resize` grows the buffer to
`size` bytes, zero-filling, and does nothing if it is already that long. -/
def Memory.resize (m : Memory) (size : UInt64) : Memory :=
  if m.len < size.toNat then { m with store := m.store ++ List.replicate (size.toNat - m.len) 0 }
  else m

@[simp] theorem newMemory_len : newMemory.len = 0 := rfl

@[simp] theorem Memory.len_resize (m : Memory) (size : UInt64) :
    (m.resize size).len = max m.len size.toNat := by
  unfold Memory.resize
  split <;> simp [Memory.len] at * <;> omega

@[simp] theorem Memory.len_setLastGasCost (m : Memory) (c : UInt64) :
    ({ m with lastGasCost := c } : Memory).len = m.len := rfl

/-- A call frame's contract: code, input and gas. Its identity fields are read only by
operations, not by the interpreter loop. -/
structure Contract where
  code : Bytes
  input : Bytes
  gas : UInt64
  deriving DecidableEq, Repr

/-- Modelled from the spec: `contract.go` is not under src/; the opcode at `n`, STOP past
the end of the code. -/
def Contract.getOp (c : Contract) (n : UInt64) : OpCode := (c.code.get? n.toNat).getD STOP

/-- Modelled from the spec: `contract.go` is not under src/; `UseGas` deducts `gas` if
the contract has that much, and otherwise fails leaving the counter as it was. -/
def Contract.useGas (c : Contract) (gas : UInt64) : Option Contract :=
  if c.gas < gas then none else some { c with gas := c.gas - gas }

theorem Contract.useGas_eq_some {c c' : Contract} {gas : UInt64} :
    c.useGas gas = some c' ↔ gas.toNat ≤ c.gas.toNat ∧ c' = { c with gas := c.gas - gas } := by
  unfold Contract.useGas
  split <;> rename_i h
  · exact iff_of_false nofun fun ⟨hle, _⟩ => Nat.not_lt.mpr hle h
  · exact ⟨fun e => ⟨Nat.not_lt.mp h, (Option.some.inj e).symm⟩, fun ⟨_, e⟩ => congrArg some e.symm⟩

theorem Contract.useGas_gas {c c' : Contract} {gas : UInt64} (h : c.useGas gas = some c') :
    c'.gas.toNat = c.gas.toNat - gas.toNat := by
  obtain ⟨hle, rfl⟩ := Contract.useGas_eq_some.mp h
  exact UInt64.toNat_sub_of_le _ _ hle

/-- Modelled from the spec: `bigUint64` is not under src/; a big integer as a `uint64`
(the low 64 bits of its absolute value, as `(*big.Int).Uint64` gives them) and whether
it did not fit. -/
def bigUint64 (v : Int) : UInt64 × Bool := (UInt64.ofNat v.natAbs, decide (64 < bitLen v))

/-- Modelled from the spec: `toWordSize` is not under src/; a byte size rounded up to
32-byte words, `⌈size/32⌉`. -/
def toWordSize (size : UInt64) : UInt64 := UInt64.ofNat ((size.toNat + 31) / 32)

/-- Modelled from the spec: `math.SafeMul` is not under src/; the `uint64` product and
whether the true product overflowed. -/
def safeMul (x y : UInt64) : UInt64 × Bool := (x * y, decide (2 ^ 64 ≤ x.toNat * y.toNat))

theorem bigUint64_overflow (v : Int) : (bigUint64 v).2 = decide (2 ^ 64 ≤ v.natAbs) := by
  simp [bigUint64, bitLen, Nat.lt_size]

theorem bigUint64_toNat {v : Int} (h : (bigUint64 v).2 = false) : (bigUint64 v).1.toNat = v.natAbs := by
  rw [bigUint64_overflow] at h
  simp only [decide_eq_false_iff_not, not_le] at h
  exact UInt64.toNat_ofNat_of_lt h

@[simp] theorem toWordSize_toNat (size : UInt64) : (toWordSize size).toNat = (size.toNat + 31) / 32 := by
  have : size.toNat < 2 ^ 64 := size.toNat_lt_size
  exact UInt64.toNat_ofNat_of_lt (show (size.toNat + 31) / 32 < 2 ^ 64 by omega)

end Vm
end Boker
