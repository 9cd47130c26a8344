import Boker.Machine

/-!
# Hashes, addresses and the order of byte slices

The fixed-size words of the `common` package, filled from a byte slice the way `SetBytes`
fills them, and `bytes.Compare`, the order in which trie iterators visit keys.
-/

namespace Boker

open Vm (Bytes)

/-- Modelled from the spec: `common.Hash` and `common.Address` are not under src/; both are
byte arrays of fixed length `n`. -/
@[ext] structure Word (n : ℕ) where
  bytes : Bytes
  len : bytes.length = n
  deriving DecidableEq

abbrev Hash := Word 32

abbrev Address := Word 20

/-- Modelled from the spec: `SetBytes` of `common/types.go`, not under src/: the last `n`
bytes of `b`, left-padded with zeros. -/
def Word.ofBytes (n : ℕ) (b : Bytes) : Word n where
  bytes := List.replicate (n - b.length) 0 ++ b.drop (b.length - n)
  len := by simp only [List.length_append, List.length_replicate, List.length_drop]; omega

def bytesToHash (b : Bytes) : Hash := Word.ofBytes 32 b

def bytesToAddress (b : Bytes) : Address := Word.ofBytes 20 b

theorem Word.ofBytes_bytes {n : ℕ} {b : Bytes} (h : b.length ≤ n) :
    (Word.ofBytes n b).bytes = List.replicate (n - b.length) 0 ++ b := by
  simp [Word.ofBytes, Nat.sub_eq_zero_of_le h]

@[simp] theorem Word.ofBytes_self {n : ℕ} (w : Word n) : Word.ofBytes n w.bytes = w := by
  obtain ⟨b, rfl⟩ := w
  simp [Word.ofBytes]

theorem Word.ofBytes_inj {n : ℕ} {a b : Bytes} (ha : a.length = n) (hb : b.length = n)
    (h : Word.ofBytes n a = Word.ofBytes n b) : a = b := by
  have := congrArg Word.bytes h
  rwa [Word.ofBytes_bytes (Nat.le_of_eq ha), Word.ofBytes_bytes (Nat.le_of_eq hb), ha, hb, List.append_cancel_left_eq] at this

/-- Go's `bytes.Compare`: the lexicographic order of byte slices. -/
def bytesCompare : Bytes → Bytes → Ordering
  | [], [] => .eq
  | [], _ :: _ => .lt
  | _ :: _, [] => .gt
  | x :: xs, y :: ys => if x < y then .lt else if y < x then .gt else bytesCompare xs ys

@[simp] theorem bytesCompare_self (a : Bytes) : bytesCompare a a = .eq := by
  induction a with
  | nil => rfl
  | cons x xs ih => simp [bytesCompare, ih]

@[simp] theorem bytesCompare_nil_right (a : Bytes) : bytesCompare a [] ≠ .lt := by
  cases a <;> simp [bytesCompare]

theorem bytesCompare_cons_lt {x y : UInt8} {xs ys : Bytes} :
    bytesCompare (x :: xs) (y :: ys) = .lt ↔ x < y ∨ x = y ∧ bytesCompare xs ys = .lt := by
  simp only [bytesCompare]
  split_ifs with h1 h2
  · simp [h1]
  · simp only [reduceCtorEq, false_iff, not_or, not_and]
    exact ⟨h1, fun he => absurd (he ▸ h2) (UInt8.lt_irrefl x)⟩
  · have he : x = y := UInt8.toNat.inj (Nat.le_antisymm (Nat.not_lt.mp h2) (Nat.not_lt.mp h1))
    simp [h1, he]

theorem bytesCompare_trans {a b c : Bytes} (hab : bytesCompare a b = .lt) (hbc : bytesCompare b c = .lt) :
    bytesCompare a c = .lt := by
  induction a generalizing b c with
  | nil => cases c <;> cases b <;> simp_all [bytesCompare]
  | cons x xs ih =>
    cases b with
    | nil => simp [bytesCompare] at hab
    | cons y ys =>
      cases c with
      | nil => simp [bytesCompare] at hbc
      | cons z zs =>
        rw [bytesCompare_cons_lt] at hab hbc ⊢
        rcases hab with hab | ⟨rfl, hab⟩ <;> rcases hbc with hbc | ⟨rfl, hbc⟩
        · exact .inl (UInt8.lt_trans hab hbc)
        · exact .inl hab
        · exact .inl hbc
        · exact .inr ⟨rfl, ih hab hbc⟩

end Boker
