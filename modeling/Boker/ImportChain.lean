import Boker.Machine

/-!
# `admin_importChain`

`ImportChain` of `eth/api.go` decodes blocks from an RLP stream into a buffer of capacity
2500 and, at each full buffer or at the end of the stream, skips the batch when the chain
has all of its blocks and passes it to `InsertChain` otherwise. The stream is the list of
what `stream.Decode` returns until `io.EOF`; the chain is a state that `InsertChain`
advances. A decode error ends the import at once: the blocks decoded since the last batch
are neither checked nor inserted.
-/

namespace Boker
namespace Eth

variable {B C D E : Type}

/-- `hasAllBlocks`, with `hasBlock c b` the chain's `HasBlock(b.Hash(), b.NumberU64())`. -/
def hasAllBlocks (hasBlock : C → B → Bool) (chain : C) (bs : List B) : Bool := bs.all (hasBlock chain)

/-- The errors of `ImportChain` once the file is open, with the data their messages print:
"block %d: failed to parse: %v" and "batch %d: failed to insert: %v". -/
inductive ImportError (D E : Type)
  | parse (index : ℕ) (e : D)
  | insert (batch : ℕ) (e : E)
  deriving DecidableEq

inductive Fate (E : Type)
  | skipped
  | inserted
  | failed (e : E)

/-- Ghost record of one pass of the outer loop: its batch and what became of it. -/
structure Batch (B E : Type) where
  blocks : List B
  fate : Fate E

def Batch.ok (b : Batch B E) : Bool :=
  match b.fate with
  | .failed _ => false
  | _ => true

def importBatchSize : ℕ := 2500

/-- The inner loop: decode into `blocks` while it holds fewer than `capacity` blocks, until
`io.EOF`; `index` counts the blocks decoded. -/
def loadBatch (capacity : ℕ) :
    List (Except D B) → List B → ℕ → Except (ℕ × D) (List B × List (Except D B) × ℕ)
  | stream, blocks, index =>
    if blocks.length < capacity then
      match stream with
      | [] => .ok (blocks, [], index)
      | .error e :: _ => .error (index, e)
      | .ok b :: stream => loadBatch capacity stream (blocks ++ [b]) (index + 1)
    else .ok (blocks, stream, index)

/-- The outer loop from batch `batch`, for at most `fuel` passes: its result, the chain
after, and the batches so far. -/
def importLoop (capacity : ℕ) (hasBlock : C → B → Bool) (insertChain : C → List B → C × Option E) :
    ℕ → ℕ → C → List (Except D B) → ℕ → List (Batch B E) →
      Option ((Bool × Option (ImportError D E)) × C × List (Batch B E))
  | 0, _, _, _, _, _ => none
  | fuel + 1, batch, chain, stream, index, log =>
    match loadBatch capacity stream [] index with
    | .error (index, e) => some ((false, some (.parse index e)), chain, log)
    | .ok (blocks, stream, index) =>
      if blocks.length = 0 then some ((true, none), chain, log)
      else if hasAllBlocks hasBlock chain blocks then
        importLoop capacity hasBlock insertChain fuel (batch + 1) chain stream index (log ++ [⟨blocks, .skipped⟩])
      else
        match insertChain chain blocks with
        | (chain, some e) => some ((false, some (.insert batch e)), chain, log ++ [⟨blocks, .failed e⟩])
        | (chain, none) =>
          importLoop capacity hasBlock insertChain fuel (batch + 1) chain stream index (log ++ [⟨blocks, .inserted⟩])

/-- `ImportChain` once the file is open, on the results of `stream.Decode` up to `io.EOF`;
each pass of the outer loop decodes at least one block, so one pass more than the stream
has items is enough. -/
def importChain (hasBlock : C → B → Bool) (insertChain : C → List B → C × Option E) (chain : C)
    (stream : List (Except D B)) : Option ((Bool × Option (ImportError D E)) × C × List (Batch B E)) :=
  importLoop importBatchSize hasBlock insertChain (stream.length + 1) 0 chain stream 0 []

/-- The batches `log`, run from `chain` to `chain'`: each was skipped when the chain then held
all of its blocks, and otherwise passed to `InsertChain`. -/
inductive Imported (hasBlock : C → B → Bool) (insertChain : C → List B → C × Option E) (chain : C) :
    List (Batch B E) → C → Prop
  | nil : Imported hasBlock insertChain chain [] chain
  | skip {log c bs} : Imported hasBlock insertChain chain log c → hasAllBlocks hasBlock c bs = true →
      Imported hasBlock insertChain chain (log ++ [⟨bs, .skipped⟩]) c
  | insert {log c c' bs} : Imported hasBlock insertChain chain log c → hasAllBlocks hasBlock c bs = false →
      insertChain c bs = (c', none) → Imported hasBlock insertChain chain (log ++ [⟨bs, .inserted⟩]) c'
  | fail {log c c' bs e} : Imported hasBlock insertChain chain log c → hasAllBlocks hasBlock c bs = false →
      insertChain c bs = (c', some e) → Imported hasBlock insertChain chain (log ++ [⟨bs, .failed e⟩]) c'

def Batch.joined (log : List (Batch B E)) : List B := (log.map Batch.blocks).flatten

/-- How an import of `stream` that returned `r` with the batches `log` ended: every item
decoded and every batch done; or an `InsertChain` failure on the last batch; or a decode
error after the batches and fewer than `capacity` more blocks, which are dropped. -/
def ImportEnding (capacity : ℕ) (stream : List (Except D B)) (r : Bool × Option (ImportError D E))
    (log : List (Batch B E)) : Prop :=
  (r = (true, none) ∧ stream = (Batch.joined log).map .ok ∧ ∀ b ∈ log, b.ok = true) ∨
  (∃ log₀ bs e rest, log = log₀ ++ [⟨bs, .failed e⟩] ∧ (∀ b ∈ log₀, b.ok = true) ∧
    r = (false, some (.insert log₀.length e)) ∧ stream = (Batch.joined log).map .ok ++ rest) ∨
  (∃ pending e rest, (∀ b ∈ log, b.ok = true) ∧ pending.length < capacity ∧
    r = (false, some (.parse ((Batch.joined log).length + pending.length) e)) ∧
    stream = (Batch.joined log ++ pending).map .ok ++ .error e :: rest)

/-- What an import of `stream` from `chain`, returning `r` with the chain `chain'` and the
batches `log`, is: batches of 1 to `capacity` blocks, skipped or inserted as the chain stood
when each was checked, ending as `ImportEnding` says, and returning true exactly when every
item decoded and no `InsertChain` failed. -/
structure ImportRun (capacity : ℕ) (hasBlock : C → B → Bool) (insertChain : C → List B → C × Option E)
    (chain : C) (stream : List (Except D B)) (r : Bool × Option (ImportError D E)) (chain' : C)
    (log : List (Batch B E)) : Prop where
  sizes : ∀ b ∈ log, 0 < b.blocks.length ∧ b.blocks.length ≤ capacity
  imported : Imported hasBlock insertChain chain log chain'
  ending : ImportEnding capacity stream r log
  returns : r.1 = true ↔ (∀ x ∈ stream, ∃ b, x = .ok b) ∧ ∀ b ∈ log, b.ok = true

@[simp] theorem Batch.joined_append (log : List (Batch B E)) (b : Batch B E) :
    Batch.joined (log ++ [b]) = Batch.joined log ++ b.blocks := by
  simp [Batch.joined]

theorem ImportEnding.returns {capacity : ℕ} {stream : List (Except D B)} {r : Bool × Option (ImportError D E)}
    {log : List (Batch B E)} (h : ImportEnding capacity stream r log) :
    r.1 = true ↔ (∀ x ∈ stream, ∃ b, x = .ok b) ∧ ∀ b ∈ log, b.ok = true := by
  rcases h with ⟨rfl, rfl, hok⟩ | ⟨log₀, bs, e, rest, rfl, -, rfl, -⟩ | ⟨pending, e, rest, -, -, rfl, rfl⟩
  · simpa using hok
  · simp only [Bool.false_eq_true, false_iff, not_and]
    exact fun _ h => absurd (h _ (List.mem_append_right _ (List.mem_singleton_self _))) (by simp [Batch.ok])
  · simp only [Bool.false_eq_true, false_iff, not_and]
    intro h
    obtain ⟨b, hb⟩ := h (.error e) (by simp)
    cases hb

theorem loadBatch_cases {capacity : ℕ} (stream : List (Except D B)) (blocks : List B) (index : ℕ)
    (hb : blocks.length ≤ capacity) :
    (∃ new rest, loadBatch capacity stream blocks index = .ok (blocks ++ new, rest, index + new.length) ∧
      stream = new.map .ok ++ rest ∧ (blocks ++ new).length ≤ capacity ∧
      ((blocks ++ new).length < capacity → rest = [])) ∨
    (∃ new e rest, loadBatch capacity stream blocks index = .error (index + new.length, e) ∧
      stream = new.map .ok ++ .error e :: rest ∧ (blocks ++ new).length < capacity) := by
  induction stream generalizing blocks index with
  | nil =>
    refine .inl ⟨[], [], ?_, rfl, by simpa using hb, fun _ => rfl⟩
    unfold loadBatch; split <;> simp
  | cons x stream ih =>
    unfold loadBatch
    split
    · rename_i hlt
      cases x with
      | error e => exact .inr ⟨[], e, stream, by simp, rfl, by simpa using hlt⟩
      | ok b =>
        rcases ih (blocks ++ [b]) (index + 1) (by simp; omega) with
          ⟨new, rest, he, hs, hl, hr⟩ | ⟨new, e, rest, he, hs, hl⟩
        · refine .inl ⟨b :: new, rest, ?_, by simp [hs], by simpa using hl, by simpa using hr⟩
          dsimp only; rw [he]; simp [Nat.add_right_comm, Nat.add_assoc]
        · refine .inr ⟨b :: new, e, rest, ?_, by simp [hs], by simpa using hl⟩
          dsimp only; rw [he]; simp [Nat.add_right_comm, Nat.add_assoc]
    · exact .inl ⟨[], x :: stream, by simp, by simp, by simpa using hb, by simp; omega⟩

section loop

variable {capacity : ℕ} {hasBlock : C → B → Bool} {insertChain : C → List B → C × Option E}
  {chain₀ : C} {stream₀ : List (Except D B)}

theorem ImportRun.of_ending {r : Bool × Option (ImportError D E)} {chain : C} {log : List (Batch B E)}
    (hsizes : ∀ b ∈ log, 0 < b.blocks.length ∧ b.blocks.length ≤ capacity)
    (himp : Imported hasBlock insertChain chain₀ log chain) (h : ImportEnding capacity stream₀ r log) :
    ImportRun capacity hasBlock insertChain chain₀ stream₀ r chain log :=
  ⟨hsizes, himp, h, h.returns⟩

/-- A head of the outer loop after the batches `log`, run from `chain₀` to `chain`: they
account for the stream up to the rest `s`, `index` and `batch` count their blocks and
themselves, none failed, and each holds 1 to `capacity` blocks. -/
structure LoopHead (capacity : ℕ) (hasBlock : C → B → Bool) (insertChain : C → List B → C × Option E)
    (chain₀ : C) (stream₀ : List (Except D B)) (batch : ℕ) (chain : C) (s : List (Except D B))
    (index : ℕ) (log : List (Batch B E)) : Prop where
  stream : stream₀ = (Batch.joined log).map .ok ++ s
  index : index = (Batch.joined log).length
  batch : batch = log.length
  imported : Imported hasBlock insertChain chain₀ log chain
  ok : ∀ b ∈ log, b.ok = true
  sizes : ∀ b ∈ log, 0 < b.blocks.length ∧ b.blocks.length ≤ capacity

theorem sizes_append {log : List (Batch B E)} {new : List B} {f : Fate E}
    (hsizes : ∀ b ∈ log, 0 < b.blocks.length ∧ b.blocks.length ≤ capacity)
    (hnew : 0 < new.length ∧ new.length ≤ capacity) :
    ∀ b ∈ log ++ [Batch.mk new f], 0 < b.blocks.length ∧ b.blocks.length ≤ capacity :=
  List.forall_mem_append.mpr ⟨hsizes, List.forall_mem_singleton.mpr hnew⟩

theorem LoopHead.next {batch index : ℕ} {chain chain' : C} {new : List B} {rest : List (Except D B)}
    {log : List (Batch B E)} {f : Fate E}
    (hh : LoopHead capacity hasBlock insertChain chain₀ stream₀ batch chain (new.map .ok ++ rest) index log)
    (himp : Imported hasBlock insertChain chain₀ (log ++ [Batch.mk new f]) chain') (hf : (Batch.mk new f).ok = true)
    (hnew : 0 < new.length ∧ new.length ≤ capacity) :
    LoopHead capacity hasBlock insertChain chain₀ stream₀ (batch + 1) chain' rest (index + new.length)
      (log ++ [Batch.mk new f]) :=
  ⟨by simp [hh.stream], by simp [hh.index], by simp [hh.batch], himp,
    List.forall_mem_append.mpr ⟨hh.ok, List.forall_mem_singleton.mpr hf⟩, sizes_append hh.sizes hnew⟩

theorem importLoop_spec (hcap : 0 < capacity) (fuel : ℕ) :
    ∀ batch chain s index log, s.length < fuel →
      LoopHead capacity hasBlock insertChain chain₀ stream₀ batch chain s index log →
      ∃ r chain' log', importLoop capacity hasBlock insertChain fuel batch chain s index log =
        some (r, chain', log') ∧ ImportRun capacity hasBlock insertChain chain₀ stream₀ r chain' log' := by
  induction fuel with
  | zero => intro _ _ _ _ _ h; omega
  | succ fuel ih =>
    intro batch chain s index log hfuel hh
    rcases loadBatch_cases s [] index (Nat.zero_le capacity) with
      ⟨new, rest, hl, rfl, hlen, hfull⟩ | ⟨new, e, rest, hl, rfl, hlen⟩
    · rw [List.nil_append] at hl hlen hfull
      simp only [importLoop, hl]
      by_cases h0 : new.length = 0
      · -- `io.EOF` before any block: the import is done
        rw [if_pos h0]
        obtain rfl := List.eq_nil_of_length_eq_zero h0
        obtain rfl := hfull (by simpa using hcap)
        exact ⟨_, _, _, rfl, .of_ending hh.sizes hh.imported (Or.inl ⟨rfl, by simpa using hh.stream, hh.ok⟩)⟩
      rw [if_neg h0]
      have hrest : rest.length < fuel := by simp only [List.length_append, List.length_map] at hfuel; omega
      have hnew : 0 < new.length ∧ new.length ≤ capacity := ⟨Nat.pos_of_ne_zero h0, hlen⟩
      split
      · -- every block present: skipped
        exact ih _ _ _ _ _ hrest (hh.next (.skip hh.imported ‹_›) rfl hnew)
      rename_i hall
      rcases hins : insertChain chain new with ⟨chain', _ | e⟩
      · exact ih _ _ _ _ _ hrest (hh.next (.insert hh.imported (by simpa using hall) hins) rfl hnew)
      · exact ⟨_, _, _, rfl, .of_ending (sizes_append hh.sizes hnew) (.fail hh.imported (by simpa using hall) hins)
          (Or.inr (Or.inl ⟨log, new, e, rest, rfl, hh.ok, by rw [hh.batch], by simp [hh.stream]⟩))⟩
    · -- a decode error: the blocks decoded since the last batch are dropped
      simp only [importLoop, hl]
      exact ⟨_, _, _, rfl, .of_ending hh.sizes hh.imported
        (Or.inr (Or.inr ⟨new, e, rest, hh.ok, by simpa using hlen, by rw [hh.index], by simp [hh.stream]⟩))⟩

end loop

/-- For every stream of decode results ending in `io.EOF`, every chain and every
`InsertChain`: `ImportChain` returns, having cut the decoded blocks, in stream order, into
batches of 1 to 2500 blocks, each skipped when the chain held all of its blocks when
checked and passed to `InsertChain` otherwise. The batches together are exactly the blocks
decoded, none dropped and none passed twice, unless a block fails to decode: the import
then stops, and the fewer than 2500 blocks decoded since the last batch are dropped. It
returns true exactly when every item decoded and every `InsertChain` call succeeded. -/
theorem importChain_batches_stream (hasBlock : C → B → Bool) (insertChain : C → List B → C × Option E)
    (chain : C) (stream : List (Except D B)) :
    ∃ r chain' log, importChain hasBlock insertChain chain stream = some (r, chain', log) ∧
      ImportRun importBatchSize hasBlock insertChain chain stream r chain' log :=
  importLoop_spec (by decide) _ 0 chain stream 0 [] (Nat.lt_succ_self _)
    ⟨by simp [Batch.joined], rfl, rfl, .nil, nofun, nofun⟩

/-- A block decoded just before a decode error is neither checked nor inserted: the import
returns the parse error at index 1 with no batch made. -/
theorem importChain_drops_block_before_parse_error :
    importChain (fun (_ : Unit) (_ : ℕ) => false) (fun c _ => (c, (none : Option Unit))) ()
      [.ok 7, (.error () : Except Unit ℕ)] = some ((false, some (.parse 1 ())), (), []) :=
  rfl

theorem LoopHead.init (capacity : ℕ) (hasBlock : C → B → Bool) (insertChain : C → List B → C × Option E)
    (chain : C) (stream : List (Except D B)) :
    LoopHead capacity hasBlock insertChain chain stream 0 chain stream 0 [] :=
  ⟨by simp [Batch.joined], rfl, rfl, .nil, nofun, nofun⟩

section twice

variable {hasBlock : C → B → Bool} {insertChain : C → List B → C × Option E}

theorem ImportEnding.mem_stream {capacity : ℕ} {stream : List (Except D B)} {r : Bool × Option (ImportError D E)}
    {log : List (Batch B E)} (h : ImportEnding capacity stream r log) {b : B} (hb : b ∈ Batch.joined log) :
    .ok b ∈ stream := by
  rcases h with ⟨-, rfl, -⟩ | ⟨-, -, -, rest, -, -, -, rfl⟩ | ⟨pending, -, rest, -, -, -, rfl⟩ <;> simp [hb]

theorem Imported.present
    (hmono : ∀ c bs c' b, insertChain c bs = (c', none) → hasBlock c b = true → hasBlock c' b = true)
    (hins : ∀ c bs c', insertChain c bs = (c', none) → ∀ b ∈ bs, hasBlock c' b = true)
    {chain c : C} {log : List (Batch B E)} (himp : Imported hasBlock insertChain chain log c)
    (hok : ∀ x ∈ log, x.ok = true) : ∀ b ∈ Batch.joined log, hasBlock c b = true := by
  induction himp with
  | nil => simp [Batch.joined]
  | skip _ hall ih =>
    intro b hb
    rcases List.mem_append.mp ((Batch.joined_append _ _) ▸ hb) with hb | hb
    · exact ih (fun x hx => hok x (List.mem_append_left _ hx)) b hb
    · exact List.all_eq_true.mp hall b hb
  | insert _ _ hi ih =>
    intro b hb
    rcases List.mem_append.mp ((Batch.joined_append _ _) ▸ hb) with hb | hb
    · exact hmono _ _ _ _ hi (ih (fun x hx => hok x (List.mem_append_left _ hx)) b hb)
    · exact hins _ _ _ hi b hb
  | fail => exact absurd (hok _ (List.mem_append_right _ (List.mem_singleton_self _))) (by simp [Batch.ok])

theorem Imported.skipped {chain c : C} {log : List (Batch B E)} (himp : Imported hasBlock insertChain chain log c)
    (hpres : ∀ b ∈ Batch.joined log, hasBlock chain b = true) :
    c = chain ∧ ∀ x ∈ log, x.fate = .skipped := by
  induction himp with
  | nil => exact ⟨rfl, nofun⟩
  | skip _ _ ih =>
    obtain ⟨rfl, hs⟩ := ih fun b hb => hpres b (by simp [hb])
    exact ⟨rfl, List.forall_mem_append.mpr ⟨hs, by simp⟩⟩
  | insert _ hall _ ih | fail _ hall _ ih =>
    obtain ⟨rfl, -⟩ := ih fun b hb => hpres b (by simp [hb])
    rw [hasAllBlocks, List.all_eq_true.mpr fun b hb => hpres b (by simp [hb])] at hall
    cases hall

/-- When `InsertChain` keeps the blocks a chain holds and adds those it is given, importing
again a stream that was imported without error skips every batch: no `InsertChain` call is
made, the chain is left as it was, and the import returns true. -/
theorem importChain_twice_skips
    (hmono : ∀ c bs c' b, insertChain c bs = (c', none) → hasBlock c b = true → hasBlock c' b = true)
    (hins : ∀ c bs c', insertChain c bs = (c', none) → ∀ b ∈ bs, hasBlock c' b = true)
    (chain : C) (stream : List (Except D B)) {chain' : C} {log : List (Batch B E)}
    (h : importChain hasBlock insertChain chain stream = some ((true, none), chain', log)) :
    ∃ log', importChain hasBlock insertChain chain' stream = some ((true, none), chain', log') ∧
      ∀ x ∈ log', x.fate = .skipped := by
  obtain ⟨_, _, _, h₁, hrun⟩ := importLoop_spec (by decide) _ 0 chain stream 0 [] (Nat.lt_succ_self _)
    (.init importBatchSize hasBlock insertChain chain stream)
  cases h₁.symm.trans h
  obtain ⟨hall, hok⟩ := hrun.returns.mp rfl
  have hpres := Imported.present hmono hins hrun.imported hok
  have hstream : stream = (Batch.joined log).map .ok := by
    rcases hrun.ending with ⟨-, hs, -⟩ | ⟨l₀, bs, e, rest, hl, ho, he, hs⟩ | ⟨pending, e, rest, ho, hlen, he, hs⟩
    · exact hs
    all_goals simp at he
  obtain ⟨_, c₂, l₂, h₂, hrun₂⟩ := importLoop_spec (by decide) _ 0 chain' stream 0 [] (Nat.lt_succ_self _)
    (.init importBatchSize hasBlock insertChain chain' stream)
  obtain ⟨rfl, hskip⟩ := hrun₂.imported.skipped fun b hb => hpres b (by
    simpa [hstream] using hrun₂.ending.mem_stream hb)
  refine ⟨l₂, ?_, hskip⟩
  rcases hrun₂.ending with ⟨rfl, -, -⟩ | ⟨l₀, bs, e, -, rfl, -, -, -⟩ | ⟨pending, e, rest, -, -, -, hs⟩
  · exact h₂
  · cases hskip _ (List.mem_append_right _ (List.mem_singleton_self _))
  · obtain ⟨b, hb⟩ := hall (.error e) (by simp [hs])
    cases hb

theorem list_chain_reimport_skips :
    ∃ log', importChain (fun (c : List ℕ) b => c.contains b) (fun c bs => (c ++ bs, (none : Option Unit)))
      [1, 2] [.ok 1, (.ok 2 : Except Unit ℕ)] = some ((true, none), [1, 2], log') ∧
      ∀ x ∈ log', x.fate = .skipped :=
  importChain_twice_skips
    (fun c bs c' b h hb => by obtain ⟨rfl, -⟩ := Prod.mk.inj h; simp_all)
    (fun c bs c' h b hb => by obtain ⟨rfl, -⟩ := Prod.mk.inj h; simp_all) [] _ rfl

end twice

section full

variable {capacity : ℕ} {hasBlock : C → B → Bool} {insertChain : C → List B → C × Option E}

/-- At a loop head, the batches so far are full, or the stream is at its end and all but the
last batch are full. -/
def FullSoFar (capacity : ℕ) (s : List (Except D B)) (log : List (Batch B E)) : Prop :=
  (∀ x ∈ log, x.blocks.length = capacity) ∨ (s = [] ∧ ∀ x ∈ log.dropLast, x.blocks.length = capacity)

theorem FullSoFar.dropLast {s : List (Except D B)} {log : List (Batch B E)} (h : FullSoFar capacity s log) :
    ∀ x ∈ log.dropLast, x.blocks.length = capacity :=
  h.elim (fun h x hx => h x (List.dropLast_subset _ hx)) And.right

theorem FullSoFar.all {new : List B} {rest s : List (Except D B)} {log : List (Batch B E)}
    (h : FullSoFar capacity s log) (hs : s = new.map .ok ++ rest) (h0 : new ≠ []) :
    ∀ x ∈ log, x.blocks.length = capacity :=
  h.elim id fun ⟨he, _⟩ => absurd (hs ▸ he) (by cases new <;> simp_all)

theorem importLoop_full (fuel : ℕ) :
    ∀ batch chain (s : List (Except D B)) index log, s.length < fuel → FullSoFar capacity s log →
      ∃ r chain' log', importLoop capacity hasBlock insertChain fuel batch chain s index log =
        some (r, chain', log') ∧ ∀ x ∈ log'.dropLast, x.blocks.length = capacity := by
  induction fuel with
  | zero => intro _ _ _ _ _ h; omega
  | succ fuel ih =>
    intro batch chain s index log hfuel hfs
    rcases loadBatch_cases s [] index (Nat.zero_le capacity) with
      ⟨new, rest, hl, hs, hlen, hfull⟩ | ⟨new, e, rest, hl, -, -⟩
    · rw [List.nil_append] at hl hlen hfull
      simp only [importLoop, hl]
      by_cases h0 : new.length = 0
      · rw [if_pos h0]
        exact ⟨_, _, _, rfl, hfs.dropLast⟩
      rw [if_neg h0]
      have hall := hfs.all hs (List.ne_nil_of_length_pos (Nat.pos_of_ne_zero h0))
      have hrest : rest.length < fuel := by
        rw [hs, List.length_append, List.length_map] at hfuel; omega
      have hnext : ∀ f : Fate E, FullSoFar capacity rest (log ++ [Batch.mk new f]) := fun f => by
        by_cases hc : new.length = capacity
        · exact .inl (List.forall_mem_append.mpr ⟨hall, List.forall_mem_singleton.mpr hc⟩)
        · exact .inr ⟨hfull (by omega), by rwa [List.dropLast_concat]⟩
      split
      · exact ih _ _ _ _ _ hrest (hnext _)
      rcases insertChain chain new with ⟨chain', _ | e⟩
      · exact ih _ _ _ _ _ hrest (hnext _)
      · exact ⟨_, _, _, rfl, by rwa [List.dropLast_concat]⟩
    · simp only [importLoop, hl]
      exact ⟨_, _, _, rfl, hfs.dropLast⟩

end full

/-- For every stream, chain and `InsertChain`, each batch `ImportChain` makes, except the
last, holds exactly 2500 blocks: the batches are the stream's decoded blocks cut every 2500. -/
theorem importChain_full_batches (hasBlock : C → B → Bool) (insertChain : C → List B → C × Option E)
    (chain : C) (stream : List (Except D B)) :
    ∃ r chain' log, importChain hasBlock insertChain chain stream = some (r, chain', log) ∧
      ∀ x ∈ log.dropLast, x.blocks.length = importBatchSize :=
  importLoop_full _ 0 chain stream 0 [] (Nat.lt_succ_self _) (.inl nofun)

end Eth
end Boker
