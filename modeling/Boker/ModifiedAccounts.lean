import Boker.Trie

/-!
# `debug_getModifiedAccountsBy*`

`getModifiedAccounts` of `eth/api.go` checks the heights, opens the state tries of both
blocks, and walks the difference iterator of the old trie against the new one, turning
each key into its preimage. The difference iterator walks the new trie: it visits the
accounts the end block added or changed, and never an account that only the start block
holds, so accounts deleted between the blocks are not reported.
-/

namespace Boker
namespace Eth

open Vm (Bytes)
open Trie (SecureTrie differenceIterator)

variable {R E A : Type}

/-- A block as `getModifiedAccounts` reads it: its number and its state root. -/
structure Block (R : Type) where
  number : UInt64
  root : R

/-- The errors of `getModifiedAccounts`, with the data their messages print:
"start block height (%d) must be less than end block height (%d)", the error of
`trie.NewSecure`, and "no preimage found for hash %x". -/
inductive AccountsError (E : Type)
  | heights (start finish : UInt64)
  | trie (e : E)
  | noPreimage (hash : Bytes)
  deriving DecidableEq

/-- The `for iter.Next()` loop: each key's preimage, as an address, appended to `dirty`. -/
def collectDirty (newTrie : SecureTrie A) :
    List (Bytes × A) → List Address → Except (AccountsError E) (List Address)
  | [], dirty => .ok dirty
  | (key, _) :: iter, dirty =>
    match newTrie.getKey key with
    | none => .error (.noPreimage key)
    | some preimage => collectDirty newTrie iter (dirty ++ [bytesToAddress preimage])

/-- The preimage table of `t` records, for each key of `t`, an address hashing to it. -/
def PreimagesRecorded (hash : Address → Bytes) (t : SecureTrie A) : Prop :=
  ∀ e ∈ t.leaves, ∃ a : Address, t.getKey e.1 = some a.bytes ∧ hash a = e.1

/-- The address `collectDirty` records for a key whose preimage is recorded. -/
def preimageAddress (t : SecureTrie A) (key : Bytes) : Address := bytesToAddress ((t.getKey key).getD [])

theorem collectDirty_ok (newTrie : SecureTrie A) (iter : List (Bytes × A)) (dirty : List Address)
    (h : ∀ e ∈ iter, (newTrie.getKey e.1).isSome) :
    collectDirty newTrie iter dirty =
      (.ok (dirty ++ iter.map fun e => preimageAddress newTrie e.1) : Except (AccountsError E) _) := by
  induction iter generalizing dirty with
  | nil => simp [collectDirty]
  | cons e iter ih =>
    obtain ⟨b, hb⟩ := Option.isSome_iff_exists.mp (h e (List.mem_cons_self _ _))
    simp only [collectDirty, hb]
    rw [ih _ fun e' he' => h e' (List.mem_cons_of_mem _ he')]
    simp [preimageAddress, hb]

theorem collectDirty_eq (newTrie : SecureTrie A) (iter : List (Bytes × A)) (dirty : List Address) :
    collectDirty newTrie iter dirty =
      (match iter.find? fun e => (newTrie.getKey e.1).isNone with
        | some e => .error (.noPreimage e.1)
        | none => .ok (dirty ++ iter.map fun e => preimageAddress newTrie e.1) :
        Except (AccountsError E) (List Address)) := by
  induction iter generalizing dirty with
  | nil => simp [collectDirty]
  | cons e iter ih =>
    rcases hk : newTrie.getKey e.1 with _ | b
    · simp [collectDirty, hk, List.find?_cons]
    · rcases hf : iter.find? (fun e => (newTrie.getKey e.1).isNone) <;>
        simp [collectDirty, hk, ih, hf, preimageAddress]

theorem hash_preimageAddress {hash : Address → Bytes} {newTrie : SecureTrie A}
    (hpre : PreimagesRecorded hash newTrie) {e : Bytes × A} (he : e ∈ newTrie.leaves) :
    hash (preimageAddress newTrie e.1) = e.1 := by
  obtain ⟨a, ha, hh⟩ := hpre e he
  rw [preimageAddress, ha, Option.getD_some, bytesToAddress, Word.ofBytes_self, hh]

variable [DecidableEq A]

/-- `getModifiedAccounts`; `openTrie` is `trie.NewSecure` over the chain database. -/
def getModifiedAccounts (openTrie : R → Except E (SecureTrie A)) (startBlock endBlock : Block R) :
    Except (AccountsError E) (List Address) :=
  if endBlock.number ≤ startBlock.number then .error (.heights startBlock.number endBlock.number)
  else
    match openTrie startBlock.root with
    | .error e => .error (.trie e)
    | .ok oldTrie =>
      match openTrie endBlock.root with
      | .error e => .error (.trie e)
      | .ok newTrie => collectDirty newTrie (differenceIterator oldTrie newTrie) []

section recorded

variable {hash : Address → Bytes} {newTrie : SecureTrie A} (hpre : PreimagesRecorded hash newTrie)
include hpre

theorem difference_preimages_isSome (oldTrie : SecureTrie A) :
    ∀ e ∈ differenceIterator oldTrie newTrie, (newTrie.getKey e.1).isSome := fun e he => by
  obtain ⟨a, ha, -⟩ := hpre e (List.mem_filter.mp he).1
  simp [ha]

theorem map_hash_preimageAddress (oldTrie : SecureTrie A) :
    ((differenceIterator oldTrie newTrie).map fun e => preimageAddress newTrie e.1).map hash =
      (differenceIterator oldTrie newTrie).map Prod.fst := by
  rw [List.map_map]
  exact List.map_congr_left fun e he => hash_preimageAddress hpre (List.mem_filter.mp he).1

end recorded

theorem mem_difference_keys (oldTrie newTrie : SecureTrie A) (k : Bytes) :
    k ∈ (differenceIterator oldTrie newTrie).map Prod.fst ↔
      newTrie.get k ≠ none ∧ newTrie.get k ≠ oldTrie.get k := by
  simp only [List.mem_map, differenceIterator, List.mem_filter, decide_eq_true_eq]
  constructor
  · rintro ⟨⟨k', v⟩, ⟨hn, ho⟩, rfl⟩
    rw [(newTrie.get_eq_some_iff).mpr hn]
    exact ⟨nofun, fun h => ho ((oldTrie.get_eq_some_iff).mp h.symm)⟩
  · rintro ⟨hn, ho⟩
    obtain ⟨v, hv⟩ := Option.ne_none_iff_exists'.mp hn
    exact ⟨(k, v), ⟨(newTrie.get_eq_some_iff).mp hv,
      fun h => ho (hv.trans ((oldTrie.get_eq_some_iff).mpr h).symm)⟩, rfl⟩

/-- For a start block below the end block whose state tries open, with the preimage of
every key of the new trie recorded, `getModifiedAccounts` returns without duplicates, in
key order, the addresses of exactly the keys under which the end state holds a record the
start state does not hold: accounts added or changed. An account only the start state
holds, one deleted in between, is not returned. -/
theorem getModifiedAccounts_returns_changed (openTrie : R → Except E (SecureTrie A))
    (hash : Address → Bytes) (startBlock endBlock : Block R) (oldTrie newTrie : SecureTrie A)
    (hlt : startBlock.number < endBlock.number) (hold : openTrie startBlock.root = .ok oldTrie)
    (hnew : openTrie endBlock.root = .ok newTrie) (hpre : PreimagesRecorded hash newTrie) :
    ∃ dirty, getModifiedAccounts openTrie startBlock endBlock = .ok dirty ∧ dirty.Nodup ∧
      dirty.map hash = (differenceIterator oldTrie newTrie).map Prod.fst ∧
      ∀ k, k ∈ dirty.map hash ↔ newTrie.get k ≠ none ∧ newTrie.get k ≠ oldTrie.get k := by
  have hmap := map_hash_preimageAddress hpre oldTrie
  have hkeys : ((differenceIterator oldTrie newTrie).map Prod.fst).Nodup :=
    newTrie.nodup_fst.sublist ((List.filter_sublist _).map _)
  refine ⟨_, ?_, List.Pairwise.of_map hash (fun _ _ h e => h (congrArg hash e)) (hmap ▸ hkeys), hmap,
    fun k => hmap ▸ mem_difference_keys oldTrie newTrie k⟩
  rw [getModifiedAccounts, if_neg (UInt64.not_le.mpr hlt),
    hold, hnew]
  exact collectDirty_ok newTrie _ [] (difference_preimages_isSome hpre oldTrie)

def padHash (a : Address) : Bytes := (bytesToHash a.bytes).bytes

/-- The account trie holding record `5` under the hash of address `0x..01`, or nothing. -/
def accountTrie (present : Bool) : SecureTrie ℕ where
  leaves := if present then [((bytesToHash [1]).bytes, 5)] else []
  sorted := by cases present <;> simp
  keyLen := fun e he => by
    cases present <;> simp only [Bool.false_eq_true, ↓reduceIte, List.mem_singleton, List.not_mem_nil] at he
    rw [he]; exact (bytesToHash [1]).len
  getKey := fun k => if k = (bytesToHash [1]).bytes then some (bytesToAddress [1]).bytes else none

/-- The state tries of two blocks: root `0` holds the account, root `1` does not. -/
def accountTries (root : ℕ) : Except Unit (SecureTrie ℕ) := .ok (accountTrie (root == 0))

theorem accountTrie_preimages : PreimagesRecorded padHash (accountTrie true) := fun e he => by
  rw [show e = ((bytesToHash [1]).bytes, 5) from List.mem_singleton.mp he]
  exact ⟨bytesToAddress [1], by decide, by decide⟩

theorem getModifiedAccounts_reports_created :
    ∃ dirty, getModifiedAccounts accountTries ⟨0, 1⟩ ⟨1, 0⟩ = .ok dirty ∧ dirty.Nodup ∧
      dirty.map padHash = (differenceIterator (accountTrie false) (accountTrie true)).map Prod.fst ∧
      ∀ k, k ∈ dirty.map padHash ↔
        (accountTrie true).get k ≠ none ∧ (accountTrie true).get k ≠ (accountTrie false).get k :=
  getModifiedAccounts_returns_changed accountTries padHash ⟨0, 1⟩ ⟨1, 0⟩ (accountTrie false)
    (accountTrie true) (by decide) rfl rfl accountTrie_preimages

/-- From the block holding the account to the block without it, nothing is returned,
though the account's record differs between the two states. -/
theorem getModifiedAccounts_omits_deleted :
    getModifiedAccounts accountTries ⟨0, 0⟩ ⟨1, 1⟩ = .ok [] ∧
    (accountTrie true).get (padHash (bytesToAddress [1])) ≠
      (accountTrie false).get (padHash (bytesToAddress [1])) :=
  ⟨rfl, by decide⟩

/-- For a start block below the end block whose state tries open, `getModifiedAccounts`
fails, naming the key, at the first changed key in key order whose preimage is not
recorded, and otherwise returns the preimages of all changed keys in key order. -/
theorem getModifiedAccounts_first_missing_preimage (openTrie : R → Except E (SecureTrie A))
    (startBlock endBlock : Block R) (oldTrie newTrie : SecureTrie A)
    (hlt : startBlock.number < endBlock.number) (hold : openTrie startBlock.root = .ok oldTrie)
    (hnew : openTrie endBlock.root = .ok newTrie) :
    getModifiedAccounts openTrie startBlock endBlock =
      match (differenceIterator oldTrie newTrie).find? fun e => (newTrie.getKey e.1).isNone with
      | some e => .error (.noPreimage e.1)
      | none => .ok ((differenceIterator oldTrie newTrie).map fun e => preimageAddress newTrie e.1) := by
  rw [getModifiedAccounts, if_neg (UInt64.not_le.mpr hlt),
    hold, hnew]
  simp only [collectDirty_eq, List.nil_append]

def unrecordedTrie : SecureTrie ℕ := { accountTrie true with getKey := fun _ => none }

theorem getModifiedAccounts_unrecorded :
    getModifiedAccounts (fun root => .ok (if root = 0 then unrecordedTrie else accountTrie false) :
      ℕ → Except Unit (SecureTrie ℕ)) ⟨1, 1⟩ ⟨2, 0⟩ =
      match (differenceIterator (accountTrie false) unrecordedTrie).find?
          fun e => (unrecordedTrie.getKey e.1).isNone with
      | some e => .error (.noPreimage e.1)
      | none => .ok ((differenceIterator (accountTrie false) unrecordedTrie).map
          fun e => preimageAddress unrecordedTrie e.1) :=
  getModifiedAccounts_first_missing_preimage _ ⟨1, 1⟩ ⟨2, 0⟩ (accountTrie false) unrecordedTrie
    (by decide) rfl rfl

end Eth
end Boker
