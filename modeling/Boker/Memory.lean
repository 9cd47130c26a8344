import Boker.Checks

/-!
# Memory size and expansion

The memory size of a step is the `memorySize` function's result rounded up to 32-byte
words, or `errGasUintOverflow` when that does not fit in 64 bits. Memory grows only by a
resize to that size after the charge, so at every loop head its length is a multiple of
32, never shrinks, and covers what the dispatched operation asked for.
-/

namespace Boker
namespace Vm

variable {W G : Type} {ip : Interpreter W G} {runner : Runner W}

/-- The memory size of a step whose `memorySize` gives `v`: `32⌈|v|/32⌉` when that fits
in 64 bits, and overflow otherwise. -/
theorem stepMemorySize_of_memorySize {operation : Operation W G} {fn : Stack → Int}
    (hmem : operation.memorySize = some fn) (stack : Stack) :
    stepMemorySize operation stack =
      if 32 * (((fn stack).natAbs + 31) / 32) < 2 ^ 64 then
        some (UInt64.ofNat (32 * (((fn stack).natAbs + 31) / 32)))
      else none := by
  unfold stepMemorySize
  simp only [hmem]
  by_cases hlt : (fn stack).natAbs < 2 ^ 64
  · have h2 : (bigUint64 (fn stack)).2 = false := by
      simpa only [bigUint64_overflow, decide_eq_false_iff_not, Nat.not_le] using hlt
    have h1 := bigUint64_toNat h2
    have h32 : (32 : UInt64).toNat = 32 := rfl
    simp only [h2, Bool.false_eq_true, ↓reduceIte, safeMul, decide_eq_true_eq, toWordSize_toNat, h1, h32]
    by_cases ho : 32 * (((fn stack).natAbs + 31) / 32) < 2 ^ 64
    · rw [if_neg (by omega), if_pos ho]
      exact congrArg some (UInt64.toNat.inj (by
        rw [show (toWordSize (bigUint64 (fn stack)).1 * 32).toNat =
            (toWordSize (bigUint64 (fn stack)).1).toNat * (32 : UInt64).toNat % 2 ^ 64 from BitVec.toNat_mul _ _,
          toWordSize_toNat, h1, h32, UInt64.toNat_ofNat_of_lt ho]
        omega))
    · rw [if_pos (by omega), if_neg ho]
  · have : ¬ 32 * (((fn stack).natAbs + 31) / 32) < 2 ^ 64 := by omega
    simp only [bigUint64_overflow, decide_eq_true_eq]
    rw [if_pos (Nat.le_of_not_lt hlt), if_neg this]

theorem stepMemorySize_words {operation : Operation W G} {stack : Stack} {ms : UInt64}
    (h : stepMemorySize operation stack = some ms) :
    ms.toNat % 32 = 0 ∧ ∀ fn, operation.memorySize = some fn → fn stack ≤ ms.toNat := by
  rcases hmem : operation.memorySize with _ | fn
  · simp only [stepMemorySize, hmem, Option.some.injEq] at h
    subst h; simp
  · rw [stepMemorySize_of_memorySize hmem] at h
    split_ifs at h with hlt
    cases h
    rw [UInt64.toNat_ofNat_of_lt hlt]
    refine ⟨by omega, fun fn' he => ?_⟩
    cases Option.some.inj he
    omega

/-- For a nonnegative `m` from `memorySize`, a step that passed the earlier checks goes on
with memory size exactly `32⌈m/32⌉` if that is below `2^64`, and otherwise ends with
`errGasUintOverflow` before any gas is charged; so every `m > 2^64 - 32` is rejected, and
no accepted size is smaller than `m`. -/
theorem memorySize_rounds_up_or_overflows (ip : Interpreter W G) (runner : Runner W) (f : Frame)
    (h : Host W) (fn : Stack → Int) (m : ℕ)
    (hmem : (ip.cfg.jumpTable (fetch ip f).op).memorySize = some fn) (hm : fn f.stack = m)
    (hv : (ip.cfg.jumpTable (fetch ip f).op).valid = true)
    (hs : (ip.cfg.jumpTable (fetch ip f).op).validateStack f.stack = none)
    (hr : enforceRestrictions ip.isByzantium h.evm.readOnly (fetch ip f).op
      (ip.cfg.jumpTable (fetch ip f).op) f.stack = some none) :
    (32 * ((m + 31) / 32) < 2 ^ 64 →
      check ip h.evm.readOnly (fetch ip f).op f.stack = .ok (UInt64.ofNat (32 * ((m + 31) / 32)))) ∧
    (2 ^ 64 ≤ 32 * ((m + 31) / 32) →
      step runner ip f h = some (.exit (.ret none (some .gasUintOverflow)) (fetch ip f) h)) ∧
    (2 ^ 64 - 32 < m →
      step runner ip f h = some (.exit (.ret none (some .gasUintOverflow)) (fetch ip f) h)) ∧
    (∀ ms, check ip h.evm.readOnly (fetch ip f).op f.stack = .ok ms →
      m ≤ ms.toNat ∧ ms.toNat = 32 * ((m + 31) / 32)) := by
  have hsize := stepMemorySize_of_memorySize hmem f.stack
  rw [hm, Int.natAbs_ofNat] at hsize
  have hcheck : check ip h.evm.readOnly (fetch ip f).op f.stack =
      if 32 * ((m + 31) / 32) < 2 ^ 64 then .ok (UInt64.ofNat (32 * ((m + 31) / 32)))
      else .error (.ret none (some .gasUintOverflow)) := by
    unfold check
    simp only [hv, hs, hr, hsize, Bool.not_true, Bool.false_eq_true, ↓reduceIte]
    split_ifs <;> rfl
  have hover : 2 ^ 64 ≤ 32 * ((m + 31) / 32) →
      step runner ip f h = some (.exit (.ret none (some .gasUintOverflow)) (fetch ip f) h) := by
    intro hle
    simp only [step, fetch_stack]
    rw [hcheck, if_neg (by omega)]
  refine ⟨fun hlt => by rw [hcheck, if_pos hlt], hover, fun hgt => hover (by omega), fun ms hk => ?_⟩
  rw [hcheck] at hk
  split_ifs at hk with hlt
  cases hk
  rw [UInt64.toNat_ofNat_of_lt hlt]
  omega

/-- A table whose every opcode asks for 40 bytes of memory. -/
def wideTable : OpCode → Operation Unit Unit := fun _ =>
  { execute := fun pc _ c m st => .done pc c m st () false none none
    gasCost := fun _ _ _ _ _ _ => ⟨0, none, 0, ()⟩
    validateStack := fun _ => none
    memorySize := some fun _ => 40
    halts := true, jumps := false, writes := false, valid := true, reverts := false, returns := false }

def wideInterpreter : Interpreter Unit Unit := ⟨⟨false, false, wideTable⟩, (), false, fun _ => false⟩

theorem memorySize_forty_rounds_to_sixtyfour :
    check wideInterpreter false 0 newstack = .ok 64 :=
  (memorySize_rounds_up_or_overflows wideInterpreter (run wideInterpreter 0) (initFrame ⟨[0], [], 100⟩ [])
    ⟨⟨0, false, none, ()⟩, [], [], 0, 0⟩ (fun _ => 40) 40 rfl rfl rfl rfl rfl).1 (by decide)

/-- The memory an operation with a `memorySize` is dispatched with covers that size. -/
def MemCovered (ip : Interpreter W G) (d : Dispatch) : Prop :=
  ∀ fn, (ip.cfg.jumpTable d.op).memorySize = some fn → fn d.stack ≤ d.memLen

theorem iteration_logKept_covered
    (hr : ∀ h c i o h' c', runner h c i = some (o, h', c') → LogKept (MemCovered ip) h h')
    {f : Frame} {h : Host W} {r : StepResult W} (hi : iteration runner ip f h = some r) :
    LogKept (MemCovered ip) h r.host := by
  rcases iteration_cases hi with ⟨o, f', h', rfl, hl, -⟩ | ⟨ms, f₁, h₁, x, h₂, -, hk, hc, hl, hp, rfl⟩
  · exact .of_dispatched hl.dispatched
  obtain ⟨hop, hst, -, hlen⟩ := charge_ok_frame hc
  obtain ⟨-, hcov⟩ := stepMemorySize_words (check_ok_stepMemorySize hk)
  have hd : MemCovered ip (Dispatch.of f₁ h₁) := fun fn hfn => by
    have := hcov fn (by simpa [Dispatch.of, hop] using hfn)
    simp only [Dispatch.of, hop, hst, fetch_op, fetch_mem, fetch_stack] at hlen this ⊢
    split_ifs at hlen with hms
    · omega
    · have : ¬ 0 < ms.toNat := hms
      omega
  exact (LogKept.of_dispatched hl.dispatched).trans
    ((LogKept.record hd).trans ((LogKept.perform hr hp).trans (.finish _ _ _ _ _)))

section expansion

variable (hx : ∀ op pc evm c m st, ((ip.cfg.jumpTable op).execute pc evm c m st).ends
  fun _ _ m' _ => m'.len = m.len)
include hx

/-- A pass leaves the memory length alone, or ends with the length the charge's resize
gave it. -/
theorem iteration_mem_len {f : Frame} {h : Host W} {r : StepResult W}
    (hi : iteration runner ip f h = some r) :
    r.frame.mem.len = f.mem.len ∨
    ∃ ms f₁ h₁, check ip h.evm.readOnly (fetch ip f).op f.stack = .ok ms ∧
      charge ip (ip.cfg.jumpTable (fetch ip f).op) ms (fetch ip f) { h with loads := h.loads + 1 } =
        .ok (f₁, h₁) ∧ r.frame.mem.len = f₁.mem.len := by
  rcases iteration_cases hi with ⟨o, f', h', rfl, -, -, hm⟩ | ⟨ms, f₁, h₁, x, h₂, -, hk, hc, -, hp, rfl⟩
  · exact .inl (congrArg List.length hm)
  refine .inr ⟨ms, f₁, h₁, hk, hc, ?_⟩
  cases x with
  | panic => rfl
  | returned pc c m st res err =>
    obtain ⟨pc', he⟩ := finish_frame (ip.cfg.jumpTable (fetch ip f).op) (Dispatch.of f₁ h₁) f₁ pc c m st res err h₂
    rw [he]
    exact perform_ends (hx _ _ _ _ _ _) hp

theorem iteration_mem_mono {f : Frame} {h : Host W} {r : StepResult W}
    (hi : iteration runner ip f h = some r) : f.mem.len ≤ r.frame.mem.len := by
  rcases iteration_mem_len hx hi with he | ⟨ms, f₁, h₁, -, hc, he⟩
  · exact Nat.le_of_eq he.symm
  · rw [he, (charge_ok_frame hc).2.2.2, fetch_mem]
    split_ifs
    · exact Nat.le_max_left _ _
    · exact Nat.le_refl _

theorem iteration_mem_words {f : Frame} {h : Host W} {r : StepResult W}
    (hi : iteration runner ip f h = some r) (h32 : f.mem.len % 32 = 0) : r.frame.mem.len % 32 = 0 := by
  rcases iteration_mem_len hx hi with he | ⟨ms, f₁, h₁, hk, hc, he⟩
  · rwa [he]
  · have := (stepMemorySize_words (check_ok_stepMemorySize hk)).1
    rw [he, (charge_ok_frame hc).2.2.2]
    simp only [fetch_mem]
    split_ifs <;> omega

end expansion

/-- When no operation's `execute` changes the memory length: at every loop head of a
frame the length is a multiple of 32 and no smaller than at any earlier head; every
operation with a `memorySize` is dispatched, in any frame of any run, with memory at
least that long; and memory grows in a pass only to the step's rounded size, once that
size's gas cost has been taken in full or with metering off. -/
theorem memory_expands_in_charged_words (ip : Interpreter W G)
    (hx : ∀ op pc evm c m st, ((ip.cfg.jumpTable op).execute pc evm c m st).ends
      fun _ _ m' _ => m'.len = m.len) :
    (∀ (runner : Runner W) c i h l f h', Path runner ip (initFrame c i) h l f h' → f.mem.len % 32 = 0) ∧
    (∀ (runner : Runner W) f h l f' h', Path runner ip f h l f' h' → f.mem.len ≤ f'.mem.len) ∧
    (∀ fuel h c i o h' c', run ip fuel h c i = some (o, h', c') → ∀ d ∈ h'.dispatched,
      d ∈ h.dispatched ∨ ∀ fn, (ip.cfg.jumpTable d.op).memorySize = some fn → fn d.stack ≤ d.memLen) ∧
    (∀ (runner : Runner W) f h r, iteration runner ip f h = some r → f.mem.len < r.frame.mem.len →
      ∃ ms f₁ h₁, check ip h.evm.readOnly (fetch ip f).op f.stack = .ok ms ∧
        charge ip (ip.cfg.jumpTable (fetch ip f).op) ms (fetch ip f) { h with loads := h.loads + 1 } =
          .ok (f₁, h₁) ∧ r.frame.mem.len = ms.toNat ∧
        (ip.cfg.disableGasMetering = false →
          f₁.contract.gas.toNat + (gasResult ip (ip.cfg.jumpTable (fetch ip f).op) ms (fetch ip f)
            { h with loads := h.loads + 1 }).cost.toNat = f.contract.gas.toNat)) := by
  refine ⟨fun runner c i h l f h' hp => ?_, fun runner f h l f' h' hp => ?_,
    fun fuel h c i o h' c' hrun => run_logKept (MemCovered ip)
      (fun _ hr _ _ _ hi => iteration_logKept_covered hr hi) fuel h c i o h' c' hrun,
    fun runner f h r hi hlt => ?_⟩
  · exact hp.invariant (fun f _ => f.mem.len % 32 = 0)
      (fun _ _ _ _ _ _ h32 hs => iteration_mem_words hx hs h32) rfl
  · exact hp.invariant (fun f' _ => f.mem.len ≤ f'.mem.len)
      (fun _ _ _ _ _ _ hle hs => Nat.le_trans hle (iteration_mem_mono hx hs)) (Nat.le_refl _)
  · rcases iteration_mem_len hx hi with he | ⟨ms, f₁, h₁, hk, hc, he⟩
    · omega
    have hlen := (charge_ok_frame hc).2.2.2
    refine ⟨ms, f₁, h₁, hk, hc, ?_, fun hd => by simpa using (charge_ok_gas hc hd).2⟩
    simp only [fetch_mem] at hlen
    split_ifs at hlen <;> omega

theorem wide_memory_expands_in_charged_words :
    (∀ (runner : Runner Unit) c i h l f h', Path runner wideInterpreter (initFrame c i) h l f h' →
      f.mem.len % 32 = 0) ∧
    (∀ (runner : Runner Unit) f h l f' h', Path runner wideInterpreter f h l f' h' → f.mem.len ≤ f'.mem.len) ∧
    (∀ fuel h c i o h' c', run wideInterpreter fuel h c i = some (o, h', c') → ∀ d ∈ h'.dispatched,
      d ∈ h.dispatched ∨ ∀ fn, (wideTable d.op).memorySize = some fn → fn d.stack ≤ d.memLen) ∧
    (∀ (runner : Runner Unit) f h r, iteration runner wideInterpreter f h = some r →
      f.mem.len < r.frame.mem.len →
      ∃ ms f₁ h₁, check wideInterpreter h.evm.readOnly (fetch wideInterpreter f).op f.stack = .ok ms ∧
        charge wideInterpreter (wideTable (fetch wideInterpreter f).op) ms (fetch wideInterpreter f)
          { h with loads := h.loads + 1 } = .ok (f₁, h₁) ∧ r.frame.mem.len = ms.toNat ∧
        (false = false →
          f₁.contract.gas.toNat + (gasResult wideInterpreter (wideTable (fetch wideInterpreter f).op) ms
            (fetch wideInterpreter f) { h with loads := h.loads + 1 }).cost.toNat = f.contract.gas.toNat)) :=
  memory_expands_in_charged_words wideInterpreter fun _ _ _ _ _ _ => rfl

end Vm
end Boker
