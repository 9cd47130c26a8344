import Boker.Loop

/-!
# Call depth

`Run` increments `evm.depth` on entry and decrements it in a deferred call, so every way
out of a frame, a panic included, gives the depth back, and inside the frame's loop it
stays one above the entry value. By induction over nesting, the depth at each dispatch
is the outermost entry depth plus the number of active frames.
-/

namespace Boker
namespace Vm

variable {W G : Type} {ip : Interpreter W G} {runner : Runner W}

/-- `h'` has the depth and frame count of `h`, and each dispatch recorded since was made
with at least the frames of `h` active, at a depth that exceeds its number of active
frames by `h.evm.depth - h.frames`. -/
def DepthKept (h h' : Host W) : Prop :=
  h'.evm.depth = h.evm.depth ∧ h'.frames = h.frames ∧ ∀ d ∈ h'.dispatched, d ∈ h.dispatched ∨
    h.frames ≤ d.frames ∧ d.depth - d.frames = h.evm.depth - h.frames

theorem DepthKept.refl (h : Host W) : DepthKept h h := ⟨rfl, rfl, fun _ hd => .inl hd⟩

theorem DepthKept.trans {h₁ h₂ h₃ : Host W} (a : DepthKept h₁ h₂) (b : DepthKept h₂ h₃) :
    DepthKept h₁ h₃ := by
  refine ⟨b.1.trans a.1, b.2.1.trans a.2.1, fun d hd => ?_⟩
  rcases b.2.2 d hd with hd | ⟨hle, hd⟩
  · exact a.2.2 d hd
  · exact .inr ⟨a.2.1 ▸ hle, by rw [hd, a.1, a.2.1]⟩

theorem DepthKept.of_local {h h' : Host W} (a : h.Local h') : DepthKept h h' :=
  ⟨a.depth, a.frames, fun _ hd => .inl (a.dispatched ▸ hd)⟩

theorem DepthKept.record (h : Host W) (f : Frame) : DepthKept h (h.record (Dispatch.of f h)) := by
  refine ⟨rfl, rfl, fun d hd => ?_⟩
  rcases List.mem_append.mp hd with hd | hd
  · exact .inl hd
  · exact .inr (by rw [List.mem_singleton.mp hd]; exact ⟨le_rfl, rfl⟩)

theorem DepthKept.finish (operation : Operation W G) (d : Dispatch) (f : Frame) (x : Performed)
    (h : Host W) : DepthKept h (finish operation d f x h).host := by
  obtain ⟨rd, he⟩ := finish_host operation d f x h
  rw [he]; exact ⟨rfl, rfl, fun _ hd => .inl hd⟩

/-- A pass keeps the depth when the nested frames it starts do. -/
theorem iteration_depthKept (hr : ∀ h c i o h' c', runner h c i = some (o, h', c') → DepthKept h h')
    {f : Frame} {h : Host W} {r : StepResult W} (hi : iteration runner ip f h = some r) :
    DepthKept h r.host := by
  rcases iteration_cases hi with ⟨o, f', h', rfl, hl, -⟩ | ⟨ms, f₁, h₁, x, h₂, -, -, -, hl, hp, rfl⟩
  · exact .of_local hl
  have hx : DepthKept h₁ h₂ := perform_preserves (DepthKept h₁) (fun h s ro a => a.trans ⟨rfl, rfl,
    fun _ hd => .inl hd⟩) (fun _ _ _ _ _ _ a hr' => a.trans (hr _ _ _ _ _ _ hr')) (.record h₁ f₁) hp
  exact (DepthKept.of_local hl).trans (hx.trans (.finish _ _ _ _ _))

theorem loop_depthKept (hr : ∀ h c i o h' c', runner h c i = some (o, h', c') → DepthKept h h')
    {n : ℕ} {f f' : Frame} {h h' : Host W} {o : Outcome} (hl : loop runner ip n f h = some (o, f', h')) :
    DepthKept h h' := by
  obtain ⟨l, f₁, h₁, hp, hi⟩ := loop_sound hl
  have h₁kept := hp.invariant (fun _ h' => DepthKept h h')
    (fun _ _ _ _ _ _ a hs => a.trans (iteration_depthKept hr hs)) (.refl h)
  exact h₁kept.trans (iteration_depthKept hr hi)

/-- A run keeps the depth, and each dispatch it records is made inside its frame. -/
theorem run_depthKept (ip : Interpreter W G) (fuel : ℕ) :
    ∀ h c i o h' c', run ip fuel h c i = some (o, h', c') → DepthKept h h' ∧
      ∀ d ∈ h'.dispatched, d ∈ h.dispatched ∨ h.frames < d.frames := by
  induction fuel with
  | zero => simp [run]
  | succ n ih =>
    intro h c i o h' c' hrun
    rcases runWith_eq_some.mp hrun with ⟨-, -, rfl, -⟩ | ⟨-, f, h₁, hl, rfl, -⟩
    · exact ⟨⟨by simp, by simp, fun _ hd => .inl hd⟩, fun _ hd => .inl hd⟩
    obtain ⟨hd, hf, hs⟩ := loop_depthKept (fun _ _ _ _ _ _ hr => (ih _ _ _ _ _ _ hr).1) hl
    simp only [enter_depth, push_evm, enter_frames, push_frames, enter_dispatched, push_dispatched] at hd hf hs
    refine ⟨⟨by simp [hd], by simp [hf], fun d hd' => ?_⟩, fun d hd' => ?_⟩ <;>
      rcases hs d (by simpa using hd') with h' | ⟨hle, h'⟩
    · exact .inl h'
    · exact .inr ⟨by omega, by omega⟩
    · exact .inl h'
    · exact .inr (by omega)

/-- `Run` gives the call depth back on every way out of it, and each dispatch made during
the run, in its own frame or a nested one, is made with more frames active than at the
call and at the depth of the call plus the frames activated since: one above the entry
depth in the frame's own steps. -/
theorem run_restores_depth (ip : Interpreter W G) (fuel : ℕ) (h : Host W) (c : Contract) (i : Bytes) :
    ∀ o h' c', run ip fuel h c i = some (o, h', c') →
      h'.evm.depth = h.evm.depth ∧ h'.frames = h.frames ∧
      ∀ d ∈ h'.dispatched, d ∈ h.dispatched ∨
        h.frames < d.frames ∧ d.depth - h.evm.depth = (d.frames : Int) - h.frames := by
  intro o h' c' hr
  obtain ⟨⟨hd, hf, hs⟩, hlt⟩ := run_depthKept ip fuel h c i o h' c' hr
  refine ⟨hd, hf, fun d hd' => ?_⟩
  rcases hs d hd' with h₁ | ⟨-, h₁⟩
  · exact .inl h₁
  · exact (hlt d hd').imp_right fun hlt => ⟨hlt, by omega⟩

/-- A table whose CALL starts a nested frame on the code `STOP` and goes on with its output,
flagged `returns`, and whose every other opcode halts with output `5`. -/
def nestTable : OpCode → Operation Unit Unit := fun op =>
  if op = CALL then
    { execute := fun pc _ c m st => .call () false ⟨[STOP], [], 1⟩ [] fun _ ret _ _ => .done pc c m st () false ret none
      gasCost := fun _ _ _ _ _ _ => ⟨0, none, 0, ()⟩
      validateStack := fun _ => none
      memorySize := none
      halts := false, jumps := false, writes := false, valid := true, reverts := false, returns := true }
  else
    { execute := fun pc _ c m st => .done pc c m st () false (some [5]) none
      gasCost := fun _ _ _ _ _ _ => ⟨0, none, 0, ()⟩
      validateStack := fun _ => none
      memorySize := none
      halts := true, jumps := false, writes := false, valid := true, reverts := false, returns := false }

def nestInterpreter : Interpreter Unit Unit := ⟨⟨false, true, nestTable⟩, (), false, fun _ => false⟩

theorem nested_run_restores_depth :
    ∃ o h' c', run nestInterpreter 3 (Host.init ⟨0, false, none, ()⟩) ⟨[CALL, STOP], [], 10⟩ [] =
        some (o, h', c') ∧
      h'.evm.depth = (Host.init ⟨0, false, none, ()⟩ : Host Unit).evm.depth ∧
      h'.frames = (Host.init ⟨0, false, none, ()⟩ : Host Unit).frames ∧
      ∀ d ∈ h'.dispatched, d ∈ (Host.init ⟨0, false, none, ()⟩ : Host Unit).dispatched ∨
        (Host.init ⟨0, false, none, ()⟩ : Host Unit).frames < d.frames ∧
        d.depth - (Host.init ⟨0, false, none, ()⟩ : Host Unit).evm.depth =
          (d.frames : Int) - (Host.init ⟨0, false, none, ()⟩ : Host Unit).frames :=
  ⟨_, _, _, rfl, run_restores_depth nestInterpreter 3 _ ⟨[CALL, STOP], [], 10⟩ [] _ _ _ rfl⟩

/-- The CALL and the final STOP run at depth one, the nested STOP at depth two. -/
example : (run nestInterpreter 3 (Host.init ⟨0, false, none, ()⟩) ⟨[CALL, STOP], [], 10⟩ []).map
    (fun r => r.2.1.dispatched.map fun d => (d.depth, d.frames)) = some [(1, 1), (2, 2), (1, 1)] := rfl

end Vm
end Boker
