import Boker.Common

/-!
# Secure tries as seen by their iterators

A secure trie is read here through its iterators only: its leaves, under hashed keys in
ascending byte order, and the preimage table behind `GetKey`. `NodeIterator(start)` seeks the
first leaf whose key is not below `start`; the difference iterator visits the leaves of its
second trie that the first does not hold.
-/

namespace Boker
namespace Trie

open Vm (Bytes)

variable {V : Type}

/-- Modelled from the spec: `trie.SecureTrie` and the `state.Trie` interface are not under
src/; a trie as its leaves, 32-byte hashed keys in strictly ascending order with their
values, and its preimage table. -/
structure SecureTrie (V : Type) where
  leaves : List (Bytes × V)
  sorted : leaves.Pairwise fun a b => bytesCompare a.1 b.1 = .lt
  keyLen : ∀ e ∈ leaves, e.1.length = 32
  getKey : Bytes → Option Bytes

def SecureTrie.get (t : SecureTrie V) (key : Bytes) : Option V :=
  (t.leaves.find? fun e => e.1 == key).map Prod.snd

/-- Modelled from the spec: `trie.NewIterator(t.NodeIterator(start))`, not under src/: the
leaves still to come, from the first whose key is not below `start`; `Next` takes the head. -/
def SecureTrie.iterator (t : SecureTrie V) (start : Bytes) : List (Bytes × V) :=
  t.leaves.dropWhile fun e => bytesCompare e.1 start = .lt

/-- Modelled from the spec: `trie.NewIterator(trie.NewDifferenceIterator(a.NodeIterator(nil),
b.NodeIterator(nil)))`, not under src/: the leaves of `b` that `a` does not hold, in key order. -/
def differenceIterator [DecidableEq V] (a b : SecureTrie V) : List (Bytes × V) :=
  b.leaves.filter fun e => e ∉ a.leaves

variable (t : SecureTrie V)

theorem dropWhile_sorted {l : List (Bytes × V)} (hl : l.Pairwise fun a b => bytesCompare a.1 b.1 = .lt)
    (start : Bytes) :
    l.dropWhile (fun e => bytesCompare e.1 start = .lt) = l.filter fun e => bytesCompare e.1 start ≠ .lt := by
  induction l with
  | nil => rfl
  | cons e l ih =>
    rw [List.pairwise_cons] at hl
    by_cases he : bytesCompare e.1 start = .lt
    · simp [List.dropWhile_cons, he, ih hl.2]
    · have hall : ∀ e' ∈ l, bytesCompare e'.1 start ≠ .lt := fun e' he' hlt =>
        he (bytesCompare_trans (hl.1 e' he') hlt)
      simp only [List.dropWhile_cons, he, decide_False, Bool.false_eq_true, ↓reduceIte, ne_eq,
        not_false_eq_true, decide_True, List.filter_cons_of_pos]
      exact congrArg _ (List.filter_eq_self.mpr fun e' he' => by simpa using hall e' he').symm

/-- The iterator from `start` visits exactly the leaves whose key is not below `start`. -/
theorem SecureTrie.iterator_eq_filter (start : Bytes) :
    t.iterator start = t.leaves.filter fun e => bytesCompare e.1 start ≠ .lt :=
  dropWhile_sorted t.sorted start

@[simp] theorem SecureTrie.iterator_nil : t.iterator [] = t.leaves := by
  simp [SecureTrie.iterator_eq_filter]

theorem SecureTrie.iterator_of_leaves_eq {p rest : List (Bytes × V)} {key : Bytes} {v : V}
    (h : t.leaves = p ++ (key, v) :: rest) : t.iterator key = (key, v) :: rest := by
  have hs := t.sorted
  rw [h, List.pairwise_append] at hs
  have hp : ∀ e ∈ p, bytesCompare e.1 key = .lt := fun e he => hs.2.2 e he _ (List.mem_cons_self _ _)
  rw [SecureTrie.iterator, h]
  clear h hs
  induction p with
  | nil => simp [List.dropWhile_cons]
  | cons e p ih =>
    simp only [List.cons_append, List.dropWhile_cons, hp e (List.mem_cons_self _ _), decide_True,
      ↓reduceIte]
    exact ih fun e' he' => hp e' (List.mem_cons_of_mem _ he')

theorem eq_of_sorted_key {l : List (Bytes × V)} (hl : l.Pairwise fun a b => bytesCompare a.1 b.1 = .lt)
    {e e' : Bytes × V} (he : e ∈ l) (he' : e' ∈ l) (hk : e.1 = e'.1) : e = e' := by
  induction l with
  | nil => cases he
  | cons x l ih =>
    rw [List.pairwise_cons] at hl
    have hx : ∀ y ∈ l, y.1 ≠ x.1 := fun y hy h => by simpa [h] using hl.1 y hy
    rcases List.mem_cons.mp he with rfl | hel <;> rcases List.mem_cons.mp he' with rfl | hel'
    · rfl
    · exact absurd hk.symm (hx _ hel')
    · exact absurd hk (hx _ hel)
    · exact ih hl.2 hel hel'

/-- `TryGet` finds exactly the leaves. -/
theorem SecureTrie.get_eq_some_iff {k : Bytes} {v : V} : t.get k = some v ↔ (k, v) ∈ t.leaves := by
  constructor
  · intro h
    obtain ⟨⟨k', v'⟩, he, hv⟩ := Option.map_eq_some'.mp h
    have hk : k' = k := by simpa using List.find?_some he
    subst hk hv
    exact List.mem_of_find?_eq_some he
  · intro h
    rcases hf : t.leaves.find? (fun e => e.1 == k) with _ | e
    · exact absurd (List.find?_eq_none.mp hf _ h) (by simp)
    · have hk : e.1 = k := by simpa using List.find?_some hf
      rw [SecureTrie.get, hf, eq_of_sorted_key t.sorted (List.mem_of_find?_eq_some hf) h hk]
      rfl

theorem SecureTrie.nodup_fst : (t.leaves.map Prod.fst).Nodup := by
  rw [List.Nodup, List.pairwise_map]
  exact t.sorted.imp fun h heq => by simp [heq] at h

theorem SecureTrie.nodup_keys (st : SecureTrie Bytes) :
    (st.leaves.map fun e => bytesToHash e.1).Nodup := by
  rw [List.Nodup, List.pairwise_map]
  exact st.sorted.imp_of_mem fun ha hb hab heq => by
    rw [Word.ofBytes_inj (st.keyLen _ ha) (st.keyLen _ hb) heq, bytesCompare_self] at hab
    cases hab

end Trie
end Boker
