import Boker.StorageRange

/-!
# Replaying a block up to one of its transactions

`computeTxEnv` of `eth/api.go` finds a block and its parent, opens the parent's state and
replays the block's transactions in order, each followed by `DeleteSuicides`, until it
reaches the one at `txIndex`, whose message, EVM context and pre-state it returns. The
loop replays exactly the transactions before that index; an index outside the block is
reported only after the whole block has been replayed. `StorageRangeAt` reads a contract's
storage in the state so computed.
-/

namespace Boker
namespace Eth

open Vm (Bytes)
open Trie (SecureTrie)

variable {B T M X S E : Type}

/-- What `computeTxEnv` reads of the node: `BlockChain().GetBlockByHash`, `GetBlock(hash,
number)` and `StateAt(root)`; the block's fields; `tx.AsMessage` (its error dropped),
`core.NewEVMContext`, `core.BinaryMessage` in a fresh EVM with a gas pool of `tx.Gas()` (the
state it leaves and its error), `statedb.DeleteSuicides()` and `tx.Hash()`. -/
structure ReplayEnv (B T M X S E : Type) where
  getBlockByHash : Hash → Option B
  getBlock : Hash → UInt64 → Option B
  stateAt : Hash → Except E S
  parentHash : B → Hash
  numberU64 : B → UInt64
  root : B → Hash
  transactions : B → List T
  asMessage : B → T → M
  newEVMContext : M → B → X
  binaryMessage : X → S → M → T → S × Option E
  deleteSuicides : S → S
  txHash : T → Hash

/-- The errors of `computeTxEnv`, with the data their messages print: "block %x not found",
"block parent %x not found", the error of `StateAt`, "tx %x failed: %v" and
"tx index %d out of range for block %x". -/
inductive TxEnvError (E : Type)
  | blockNotFound (hash : Hash)
  | parentNotFound (hash : Hash)
  | state (e : E)
  | txFailed (hash : Hash) (e : E)
  | outOfRange (txIndex : Int) (hash : Hash)
  deriving DecidableEq

variable (env : ReplayEnv B T M X S E) (block : B)

/-- The `for idx, tx := range txs` loop of `computeTxEnv` from `idx`, over the transactions
still to come. -/
def replayLoop (blockHash : Hash) (txIndex : Int) : ℕ → List T → S → Except (TxEnvError E) (M × X × S)
  | _, [], _ => .error (.outOfRange txIndex blockHash)
  | idx, tx :: txs, statedb =>
    let msg := env.asMessage block tx
    let context := env.newEVMContext msg block
    if (idx : Int) = txIndex then .ok (msg, context, statedb)
    else
      match env.binaryMessage context statedb msg tx with
      | (_, some err) => .error (.txFailed (env.txHash tx) err)
      | (statedb, none) => replayLoop blockHash txIndex (idx + 1) txs (env.deleteSuicides statedb)

def computeTxEnv (blockHash : Hash) (txIndex : Int) : Except (TxEnvError E) (M × X × S) :=
  match env.getBlockByHash blockHash with
  | none => .error (.blockNotFound blockHash)
  | some block =>
    match env.getBlock (env.parentHash block) (env.numberU64 block - 1) with
    | none => .error (.parentNotFound (env.parentHash block))
    | some parent =>
      match env.stateAt (env.root parent) with
      | .error e => .error (.state e)
      | .ok statedb => replayLoop env block blockHash txIndex 0 (env.transactions block) statedb

def txEnv (tx : T) (statedb : S) : M × X × S :=
  (env.asMessage block tx, env.newEVMContext (env.asMessage block tx) block, statedb)

/-- The transactions `txs` applied in order from `statedb`, each followed by
`DeleteSuicides`, up to the first that fails. -/
def replay : List T → S → Except (TxEnvError E) S
  | [], statedb => .ok statedb
  | tx :: txs, statedb =>
    match env.binaryMessage (env.newEVMContext (env.asMessage block tx) block) statedb (env.asMessage block tx) tx with
    | (_, some err) => .error (.txFailed (env.txHash tx) err)
    | (statedb, none) => replay txs (env.deleteSuicides statedb)

theorem replayLoop_at (blockHash : Hash) (tx : T) (post pre : List T) (idx : ℕ) (statedb : S) :
    replayLoop env block blockHash (idx + pre.length) idx (pre ++ tx :: post) statedb =
      (replay env block pre statedb).map (txEnv env block tx) := by
  induction pre generalizing idx statedb with
  | nil => simp [replayLoop, replay, txEnv]; rfl
  | cons t pre ih =>
    have hne : ((idx : ℕ) : Int) ≠ idx + (t :: pre).length := by simp; omega
    simp only [List.cons_append, replayLoop, hne, ↓reduceIte, replay]
    rcases env.binaryMessage (env.newEVMContext (env.asMessage block t) block) statedb
      (env.asMessage block t) t with ⟨s', _ | err⟩
    · rw [← ih (idx + 1)]
      show replayLoop env block blockHash (idx + (t :: pre).length) (idx + 1) (pre ++ tx :: post) _ = _
      congr 1
      push_cast [List.length_cons]; omega
    · rfl

theorem replayLoop_out_of_range (blockHash : Hash) (txIndex : Int) :
    ∀ (txs : List T) (idx : ℕ) (statedb : S), (txIndex < idx ∨ idx + txs.length ≤ txIndex) →
      replayLoop env block blockHash txIndex idx txs statedb =
        (replay env block txs statedb).bind fun _ => .error (.outOfRange txIndex blockHash)
  | [], _, _, _ => rfl
  | t :: txs, idx, statedb, hout => by
    have hne : ((idx : ℕ) : Int) ≠ txIndex := by simp at hout; omega
    simp only [replayLoop, hne, ↓reduceIte, replay, txEnv]
    rcases env.binaryMessage (env.newEVMContext (env.asMessage block t) block) statedb
      (env.asMessage block t) t with ⟨s', _ | err⟩
    · exact replayLoop_out_of_range blockHash txIndex txs (idx + 1) _ (by simp at hout ⊢; omega)
    · rfl

/-- For a block found with its parent and the parent's state: `computeTxEnv` returns for the
transaction at each index of the block its message and EVM context and the state after
replaying, in order, exactly the transactions before it, or the failure of the first of
them that fails; for an index outside the block it replays every transaction and then
reports the index out of range. -/
theorem computeTxEnv_replays_prefix (blockHash : Hash) {parent : B} {statedb : S}
    (hb : env.getBlockByHash blockHash = some block)
    (hp : env.getBlock (env.parentHash block) (env.numberU64 block - 1) = some parent)
    (hs : env.stateAt (env.root parent) = .ok statedb) :
    (∀ pre tx post, env.transactions block = pre ++ tx :: post →
      computeTxEnv env blockHash pre.length = (replay env block pre statedb).map (txEnv env block tx)) ∧
    (∀ txIndex : Int, txIndex < 0 ∨ (env.transactions block).length ≤ txIndex →
      computeTxEnv env blockHash txIndex =
        (replay env block (env.transactions block) statedb).bind fun _ => .error (.outOfRange txIndex blockHash)) := by
  refine ⟨fun pre tx post htx => ?_, fun txIndex hout => ?_⟩ <;> simp only [computeTxEnv, hb, hp, hs]
  · simpa [htx] using replayLoop_at env block blockHash tx post pre 0 statedb
  · exact replayLoop_out_of_range env block blockHash txIndex _ 0 statedb (by simpa using hout)

/-- A node whose block `1` holds the transactions `1, 2, 3`, each adding itself to a
state that starts at `0`. -/
def sumEnv : ReplayEnv ℕ ℕ ℕ ℕ ℕ Unit where
  getBlockByHash _ := some 1
  getBlock _ _ := some 0
  stateAt _ := .ok 0
  parentHash _ := bytesToHash []
  numberU64 b := UInt64.ofNat b
  root _ := bytesToHash []
  transactions b := if b = 1 then [1, 2, 3] else []
  asMessage _ tx := tx
  newEVMContext msg _ := msg
  binaryMessage _ statedb msg _ := (statedb + msg, none)
  deleteSuicides statedb := statedb
  txHash tx := bytesToHash [UInt8.ofNat tx]

theorem computeTxEnv_replays_sum :
    (∀ pre tx post, sumEnv.transactions 1 = pre ++ tx :: post →
      computeTxEnv sumEnv (bytesToHash []) pre.length = (replay sumEnv 1 pre 0).map (txEnv sumEnv 1 tx)) ∧
    (∀ txIndex : Int, txIndex < 0 ∨ (sumEnv.transactions 1).length ≤ txIndex →
      computeTxEnv sumEnv (bytesToHash []) txIndex =
        (replay sumEnv 1 (sumEnv.transactions 1) 0).bind fun _ => .error (.outOfRange txIndex (bytesToHash []))) :=
  computeTxEnv_replays_prefix sumEnv 1 (bytesToHash []) rfl rfl rfl

/-- The errors of `StorageRangeAt`: those of `computeTxEnv`, and "account %x doesn't exist". -/
inductive RangeError (E : Type)
  | env (e : TxEnvError E)
  | noAccount (address : Address)

/-- `PrivateDebugAPI.StorageRangeAt`; `storageTrie` is `statedb.StorageTrie`, nil for an
account the state does not hold. -/
def PrivateDebugAPI.storageRangeAt (storageTrie : S → Address → Option (SecureTrie Bytes))
    (blockHash : Hash) (txIndex : Int) (contractAddress : Address) (keyStart : Bytes) (maxResult : Int) :
    Except (RangeError E) StorageRangeResult :=
  match computeTxEnv env blockHash txIndex with
  | .error e => .error (.env e)
  | .ok (_, _, statedb) =>
    match storageTrie statedb contractAddress with
    | none => .error (.noAccount contractAddress)
    | some st => .ok (Eth.storageRangeAt st keyStart maxResult)

end Eth
end Boker
