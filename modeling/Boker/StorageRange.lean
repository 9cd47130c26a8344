import Boker.Trie

/-!
# `debug_storageRangeAt`

`storageRangeAt` of `eth/api.go` reads at most `maxResult` storage slots from the trie
iterator and then one more, whose key becomes `NextKey`. The loop condition
`i < maxResult && it.Next()` does not advance the iterator once the page is full, so the
extra `it.Next()` after the loop lands on the first slot not returned, and paging from
each `NextKey` visits every slot once. The value of each slot is the stored trie value
read as a hash, without decoding the RLP that the state database wrote.
-/

namespace Boker
namespace Eth

open Vm (Bytes)
open Trie (SecureTrie)

/-- `storageEntry`: the preimage of the slot's hashed key, when recorded, and its value. -/
structure StorageEntry where
  key : Option Hash
  value : Hash
  deriving DecidableEq

/-- `storageMap`, as its entries. -/
abbrev StorageMap := List (Hash × StorageEntry)

def StorageMap.set (m : StorageMap) (key : Hash) (e : StorageEntry) : StorageMap :=
  m.filter (fun p => p.1 != key) ++ [(key, e)]

/-- `StorageRangeResult`; `nextKey` is nil when the storage includes the last key. -/
structure StorageRangeResult where
  storage : StorageMap
  nextKey : Option Hash
  deriving DecidableEq

/-- The entry the loop body builds for the leaf `(key, value)`, under its hashed key. -/
def storageItem (st : SecureTrie Bytes) (e : Bytes × Bytes) : Hash × StorageEntry :=
  (bytesToHash e.1, ⟨(st.getKey e.1).map bytesToHash, bytesToHash e.2⟩)

/-- The loop of `storageRangeAt` at `i`, with the iterator's leaves still to come. -/
def rangeLoop (st : SecureTrie Bytes) (maxResult : Int) :
    ℕ → List (Bytes × Bytes) → StorageMap → StorageMap × List (Bytes × Bytes)
  | i, it, m =>
    if (i : Int) < maxResult then
      match it with
      | [] => (m, [])
      | e :: it => rangeLoop st maxResult (i + 1) it (m.set (storageItem st e).1 (storageItem st e).2)
    else (m, it)

def storageRangeAt (st : SecureTrie Bytes) (start : Bytes) (maxResult : Int) : StorageRangeResult :=
  let (storage, it) := rangeLoop st maxResult 0 (st.iterator start) []
  match it with
  | [] => ⟨storage, none⟩
  | e :: _ => ⟨storage, some (bytesToHash e.1)⟩

theorem StorageMap.set_of_not_mem {m : StorageMap} {key : Hash} (e : StorageEntry)
    (h : ∀ p ∈ m, p.1 ≠ key) : m.set key e = m ++ [(key, e)] := by
  simp only [StorageMap.set, List.filter_eq_self.mpr fun p hp => bne_iff_ne.mpr (h p hp)]

theorem rangeLoop_eq (st : SecureTrie Bytes) (maxResult : Int) (i : ℕ) (it : List (Bytes × Bytes))
    (m : StorageMap) (hd : (it.map fun e => bytesToHash e.1).Nodup)
    (hm : ∀ e ∈ it, ∀ p ∈ m, p.1 ≠ bytesToHash e.1) :
    rangeLoop st maxResult i it m =
      (m ++ (it.take (maxResult - i).toNat).map (storageItem st), it.drop (maxResult - i).toNat) := by
  induction it generalizing i m with
  | nil => unfold rangeLoop; split <;> simp
  | cons e it ih =>
    unfold rangeLoop
    split
    · rw [List.map_cons, List.nodup_cons] at hd
      have hk : (maxResult - i).toNat = (maxResult - ↑(i + 1)).toNat + 1 := by omega
      have hset : m.set (storageItem st e).1 (storageItem st e).2 = m ++ [storageItem st e] :=
        StorageMap.set_of_not_mem _ (hm e (List.mem_cons_self _ _))
      simp only [hset]
      rw [ih (i + 1) _ hd.2 fun e' he' p hp => ?_, hk]
      · simp
      · rcases List.mem_append.mp hp with hp | hp
        · exact hm e' (List.mem_cons_of_mem _ he') p hp
        · rw [List.mem_singleton.mp hp]
          intro h
          have h' : bytesToHash e.1 = bytesToHash e'.1 := h
          exact hd.1 (h' ▸ List.mem_map_of_mem _ he')
    · have hk : (maxResult - i).toNat = 0 := by omega
      simp [hk]

theorem storageRangeAt_eq (st : SecureTrie Bytes) (start : Bytes) (maxResult : Int) :
    storageRangeAt st start maxResult =
      ⟨((st.iterator start).take maxResult.toNat).map (storageItem st),
       ((st.iterator start).drop maxResult.toNat).head?.map fun e => bytesToHash e.1⟩ := by
  have hd : ((st.iterator start).map fun e => bytesToHash e.1).Nodup :=
    st.nodup_keys.sublist ((List.dropWhile_sublist _).map _)
  simp only [storageRangeAt, rangeLoop_eq st maxResult 0 _ [] hd (by simp), Int.natCast_zero,
    Int.sub_zero, List.nil_append]
  cases (st.iterator start).drop maxResult.toNat <;> rfl

/-- A client paging through the storage: `storageRangeAt` from `start`, then from each
`NextKey` until it is nil, for at most `n` calls; the pages' entries in order. -/
def rangePages (st : SecureTrie Bytes) (maxResult : Int) : ℕ → Bytes → Option StorageMap
  | 0, _ => none
  | n + 1, start =>
    let r := storageRangeAt st start maxResult
    match r.nextKey with
    | none => some r.storage
    | some next => (rangePages st maxResult n next.bytes).map (r.storage ++ ·)

theorem rangePages_eq (st : SecureTrie Bytes) {maxResult : Int} (hmax : 1 ≤ maxResult) (n : ℕ) :
    ∀ start, (st.iterator start).length < n →
      rangePages st maxResult n start = some ((st.iterator start).map (storageItem st)) := by
  induction n with
  | zero => intro _ h; omega
  | succ n ih =>
    intro start hn
    simp only [rangePages, storageRangeAt_eq]
    rcases hr : (st.iterator start).drop maxResult.toNat with _ | ⟨⟨key, v⟩, rest⟩
    · rw [List.drop_eq_nil_iff] at hr
      simp [List.take_of_length_le hr]
    · have hleaves : st.leaves = (st.leaves.takeWhile fun e => bytesCompare e.1 start = .lt) ++
          (st.iterator start).take maxResult.toNat ++ (key, v) :: rest := by
        rw [List.append_assoc, ← hr, List.take_append_drop, SecureTrie.iterator,
          List.takeWhile_append_dropWhile]
      have hlen32 : key.length = 32 := st.keyLen (key, v) (by rw [hleaves]; simp)
      have hkey : (bytesToHash key).bytes = key := by
        rw [bytesToHash, Word.ofBytes_bytes (Nat.le_of_eq hlen32), hlen32]; rfl
      have hlen := congrArg List.length hr
      simp only [List.length_drop, List.length_cons] at hlen
      simp only [List.head?_cons, Option.map_some', hkey, st.iterator_of_leaves_eq hleaves,
        ih key (by rw [st.iterator_of_leaves_eq hleaves]; simp only [List.length_cons]; omega)]
      rw [← hr, ← List.map_append, List.take_append_drop]

/-- For every trie, start key and `maxResult`: the iterator from `start` visits the slots
whose key is not below `start`, in ascending order; `storageRangeAt` returns the first
`min (max maxResult 0) n` of them, each under its own hashed key, and as `NextKey` the
key of the first one it did not return, nil when none is left. With `maxResult ≥ 1`,
paging from the empty key through each `NextKey` returns every slot of the trie once. -/
theorem storageRangeAt_pages (st : SecureTrie Bytes) (start : Bytes) (maxResult : Int) :
    st.iterator start = st.leaves.filter (fun e => bytesCompare e.1 start ≠ .lt) ∧
    storageRangeAt st start maxResult =
      ⟨((st.iterator start).take (min maxResult.toNat (st.iterator start).length)).map (storageItem st),
       ((st.iterator start).drop (min maxResult.toNat (st.iterator start).length)).head?.map
         fun e => bytesToHash e.1⟩ ∧
    ((st.iterator start).map fun e => bytesToHash e.1).Nodup ∧
    (1 ≤ maxResult → rangePages st maxResult (st.leaves.length + 1) [] =
      some (st.leaves.map (storageItem st))) := by
  refine ⟨st.iterator_eq_filter start, ?_, st.nodup_keys.sublist ((List.dropWhile_sublist _).map _),
    fun hmax => by simpa using rangePages_eq st hmax (st.leaves.length + 1) [] (by simp)⟩
  rw [storageRangeAt_eq]
  rcases Nat.le_total maxResult.toNat (st.iterator start).length with h | h
  · rw [Nat.min_eq_left h]
  · rw [Nat.min_eq_right h, List.take_of_length_le h, List.take_length, List.drop_of_length_le h,
      List.drop_length]

/-- Modelled from the spec: `putint` of `rlp/encode.go`, not under src/: `i` big-endian in
as few of at most `k` bytes as it needs. -/
def putint : ℕ → ℕ → Bytes
  | 0, _ => []
  | k + 1, i => if i = 0 then [] else putint k (i / 256) ++ [UInt8.ofNat i]

/-- Modelled from the spec: `encodeStringHeader` of `rlp/encode.go`, not under src/. -/
def encodeStringHeader (size : ℕ) : Bytes :=
  if size < 56 then [0x80 + UInt8.ofNat size]
  else
    let sizesize := putint 8 size
    (0xB7 + UInt8.ofNat sizesize.length) :: sizesize

/-- Modelled from the spec: `encodeString` of `rlp/encode.go`, not under src/: a single byte
up to 0x7f is its own encoding, any other slice follows its header. -/
def encodeString (b : Bytes) : Bytes :=
  if b.length = 1 ∧ b.headD 0 ≤ 0x7F then b else encodeStringHeader b.length ++ b

/-- Modelled from the spec: the storage write of `core/state`, not under src/: the RLP
encoding of the value without its leading zero bytes. -/
def storedValue (v : Hash) : Bytes := encodeString (v.bytes.dropWhile (· == 0))

theorem Word.bytes_eq_zeros_append (v : Hash) :
    v.bytes = List.replicate (32 - (v.bytes.dropWhile (· == 0)).length) 0 ++ v.bytes.dropWhile (· == 0) := by
  have hsplit := List.takeWhile_append_dropWhile (· == (0 : UInt8)) v.bytes
  have hlen := congrArg List.length hsplit
  rw [List.length_append, v.len] at hlen
  have hz : v.bytes.takeWhile (· == 0) = List.replicate (32 - (v.bytes.dropWhile (· == 0)).length) 0 :=
    List.eq_replicate_iff.mpr ⟨by omega, fun b hb => by
      simpa using List.all_eq_true.mp (List.all_takeWhile (p := (· == (0 : UInt8)))) b hb⟩
  rw [← hz, hsplit]

theorem header_ne_zero {n : ℕ} (hn : n < 56) : (0x80 + UInt8.ofNat n : UInt8) ≠ 0 := by
  intro h
  have := congrArg UInt8.toNat h
  simp only [UInt8.toNat, UInt8.add_def, BitVec.toNat_add, UInt8.toBitVec_ofNat, BitVec.toNat_ofNat,
    UInt8.ofNat] at this
  omega

/-- Reading the stored value of `v` as a hash gives `v` back exactly when the RLP encoding
of its significant bytes is a single byte below 0x80 or a full 33-byte string. -/
theorem storedValue_decodes_iff (v : Hash) :
    bytesToHash (storedValue v) = v ↔
      (v.bytes.dropWhile (· == 0)).length = 32 ∨ ∃ x, v.bytes.dropWhile (· == 0) = [x] ∧ x ≤ 0x7F := by
  have hz := Word.bytes_eq_zeros_append v
  have ht : (v.bytes.dropWhile (· == 0)).length ≤ 32 := by
    have := congrArg List.length hz; simp only [List.length_append, v.len] at this; omega
  rw [storedValue]
  generalize v.bytes.dropWhile (· == 0) = t at hz ht ⊢
  rw [encodeString, Word.ext_iff, hz, bytesToHash]
  by_cases h1 : t.length = 1 ∧ t.headD 0 ≤ 0x7F
  · obtain ⟨x, rfl⟩ := List.length_eq_one.mp h1.1
    rw [if_pos h1, Word.ofBytes_bytes (by simp)]
    exact iff_of_true rfl (.inr ⟨x, rfl, h1.2⟩)
  rw [if_neg h1, encodeStringHeader, if_pos (by omega), List.singleton_append]
  rcases Nat.lt_or_eq_of_le ht with hlt | heq
  · refine iff_of_false (fun h => ?_) ?_
    · rw [Word.ofBytes_bytes (by simp; omega), List.length_cons,
        show 32 - t.length = 32 - (t.length + 1) + 1 by omega, ← List.append_replicate_replicate,
        List.append_assoc, show List.replicate 1 (0 : UInt8) = [0] from rfl, List.singleton_append, List.append_cancel_left_eq, List.cons.injEq] at h
      exact header_ne_zero (by omega) h.1
    · rintro (h | ⟨x, rfl, hx⟩)
      · omega
      · exact h1 ⟨rfl, hx⟩
  · refine iff_of_true ?_ (.inl heq)
    simp [Word.ofBytes, heq]

/-- A storage trie whose one slot, under the key `0x..01`, holds `v` as the state database
stores it. -/
def slotTrie (v : Hash) : SecureTrie Bytes where
  leaves := [((bytesToHash [1]).bytes, storedValue v)]
  sorted := List.pairwise_singleton _ _
  keyLen := fun e he => by rw [List.mem_singleton.mp he]; exact (bytesToHash [1]).len
  getKey := fun _ => none

/-- The slot holding `0x80` comes back with the value `0x8180`, its RLP string. -/
theorem storageRangeAt_returns_rlp_string :
    storageRangeAt (slotTrie (bytesToHash [0x80])) [] 1 =
      ⟨[(bytesToHash [1], ⟨none, bytesToHash [0x81, 0x80]⟩)], none⟩ ∧
    bytesToHash [0x81, 0x80] ≠ bytesToHash [0x80] := by
  refine ⟨by decide, fun h => ?_⟩
  have hz : (bytesToHash [0x80]).bytes.dropWhile (· == 0) = [0x80] := by decide
  rw [show ([0x81, 0x80] : Bytes) = storedValue (bytesToHash [0x80]) by decide,
    storedValue_decodes_iff, hz] at h
  simp at h

end Eth
end Boker
