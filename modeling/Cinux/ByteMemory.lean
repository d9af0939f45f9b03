/-
Bytes and words.

A memory is a function from addresses to bytes.  Machine words lie in it low byte
first, at any address.  This file is about such memories alone.

* `readLE`, `writeLE` — numbers of any width;
* `readLE_writeLE` — what was written is read back, up to the width;
* `readLE_writeLE_apart`, `writeLE_outside` — nothing else changes;
* `word`, `setWord` — the same for 64-bit words;
* `spread`, `word_spread` — the bytes of a row of words;
* `Same` — two memories that differ in a set of addresses at most.
-/
import Mathlib

namespace ByteMemory

/-- The number in the `n` bytes from `a` on. -/
def readLE (m : ℕ → UInt8) (a : ℕ) : ℕ → ℕ
  | 0 => 0
  | n + 1 => (m a).toNat + 256 * readLE m (a + 1) n

/-- The memory with a number in the `n` bytes from `a` on. -/
def writeLE (m : ℕ → UInt8) (a v : ℕ) : ℕ → ℕ → UInt8
  | 0 => m
  | n + 1 => Function.update (writeLE m (a + 1) (v / 256) n) a (UInt8.ofNat v)

variable {m m' : ℕ → UInt8} {a b v x n k : ℕ}

theorem readLE_congr : ∀ {n a : ℕ}, (∀ x, a ≤ x → x < a + n → m' x = m x) →
    readLE m' a n = readLE m a n := by
  intro n
  induction n with
  | zero => exact fun _ => rfl
  | succ n ih =>
    intro a h
    simp only [readLE]
    rw [h a (le_refl a) (by omega), ih fun x h1 h2 => h x (by omega) (by omega)]

theorem readLE_lt (m : ℕ → UInt8) : ∀ n a, readLE m a n < 256 ^ n := by
  intro n
  induction n with
  | zero => exact fun _ => Nat.one_pos
  | succ n ih =>
    intro a
    have h1 := (m a).toNat_lt
    have h2 := ih (a + 1)
    simp only [readLE]
    omega

theorem writeLE_outside : ∀ {n a v : ℕ}, x < a ∨ a + n ≤ x → writeLE m a v n x = m x := by
  intro n
  induction n with
  | zero => exact fun _ => rfl
  | succ n ih =>
    intro a v h
    simp only [writeLE]
    rw [Function.update_of_ne (by omega)]
    exact ih (by omega)

/-- What is read back is what was written, as far as it fits. -/
theorem readLE_writeLE : ∀ {n a v : ℕ}, readLE (writeLE m a v n) a n = v % 256 ^ n := by
  intro n
  induction n with
  | zero => exact fun {a v} => (Nat.mod_one v).symm
  | succ n ih =>
    intro a v
    have hrest : readLE (writeLE m a v (n + 1)) (a + 1) n = v / 256 % 256 ^ n := by
      rw [← ih]
      refine readLE_congr fun x h1 _ => ?_
      exact Function.update_of_ne (by omega) _ _
    simp only [readLE, hrest]
    simp only [writeLE, Function.update_self, UInt8.toNat_ofNat']
    rw [pow_succ 256 n, mul_comm (256 ^ n) 256, Nat.mod_mul]

theorem readLE_writeLE_apart (h : b + k ≤ a ∨ a + n ≤ b) :
    readLE (writeLE m a v n) b k = readLE m b k :=
  readLE_congr fun x h1 h2 => writeLE_outside (by omega)

/-! ### 64-bit words -/

/-- The word at an address. -/
def word (m : ℕ → UInt8) (a : ℕ) : ℕ := readLE m a 8

/-- The memory with another word at an address. -/
def setWord (m : ℕ → UInt8) (a v : ℕ) : ℕ → UInt8 := writeLE m a v 8

theorem word_congr (h : ∀ x, a ≤ x → x < a + 8 → m' x = m x) : word m' a = word m a :=
  readLE_congr h

theorem word_lt (m : ℕ → UInt8) (a : ℕ) : word m a < 2 ^ 64 := readLE_lt m 8 a

theorem word_setWord (hv : v < 2 ^ 64) : word (setWord m a v) a = v := by
  rw [word, setWord, readLE_writeLE]
  exact Nat.mod_eq_of_lt hv

theorem word_setWord_apart (h : b + 8 ≤ a ∨ a + 8 ≤ b) : word (setWord m a v) b = word m b :=
  readLE_writeLE_apart h

/-- What is read where the digits of a number stand. -/
theorem readLE_of_digits : ∀ {n a v : ℕ}, (∀ i < n, m (a + i) = UInt8.ofNat (v / 256 ^ i)) →
    readLE m a n = v % 256 ^ n := by
  intro n
  induction n with
  | zero => exact fun {a v} _ => (Nat.mod_one v).symm
  | succ n ih =>
    intro a v h
    have hlow : m a = UInt8.ofNat v := by simpa using h 0 (Nat.succ_pos n)
    have hrest : readLE m (a + 1) n = v / 256 % 256 ^ n := by
      refine ih fun i hi => ?_
      rw [add_assoc, add_comm 1 i, h (i + 1) (by omega), pow_succ', Nat.div_div_eq_div_mul]
    simp only [readLE, hrest, hlow, UInt8.toNat_ofNat']
    rw [pow_succ 256 n, mul_comm (256 ^ n) 256, Nat.mod_mul]

/-- The bytes of a row of words, one word after the other. -/
def spread (w : ℕ → ℕ) (i : ℕ) : UInt8 := UInt8.ofNat (w (i / 8) / 256 ^ (i % 8))

theorem word_spread {w : ℕ → ℕ} (h : w k < 2 ^ 64) : word (spread w) (8 * k) = w k := by
  rw [word, readLE_of_digits]
  · exact Nat.mod_eq_of_lt h
  intro i hi
  rw [spread, show (8 * k + i) / 8 = k by omega, show (8 * k + i) % 8 = i by omega]

/-! ### Changes of a memory -/

/-- Two memories differ in a set of addresses at most. -/
def Same (s : Set ℕ) (m m' : ℕ → UInt8) : Prop := ∀ x, x ∉ s → m' x = m x

theorem Same.refl (m : ℕ → UInt8) : Same ∅ m m := fun _ _ => rfl

theorem Same.trans {s s' : Set ℕ} {m m' m'' : ℕ → UInt8} (h : Same s m m') (h' : Same s' m' m'') :
    Same (s ∪ s') m m'' := fun x hx => by
  rw [Set.mem_union, not_or] at hx
  rw [h' x hx.2, h x hx.1]

theorem Same.mono {s s' : Set ℕ} {m m' : ℕ → UInt8} (h : Same s m m') (hs : s ⊆ s') :
    Same s' m m' := fun x hx => h x fun hc => hx (hs hc)

variable {s : Set ℕ}

theorem Same.then {m m' m'' : ℕ → UInt8} (h : Same s m m') (h' : Same s m' m'') :
    Same s m m'' := fun x hx => by
  rw [h' x hx, h x hx]

theorem Same.word {m m' : ℕ → UInt8} (h : Same s m m') {a : ℕ} (ha : ∀ x, a ≤ x → x < a + 8 → x ∉ s)
    : word m' a = word m a :=
  word_congr fun x h1 h2 => h x (ha x h1 h2)

theorem same_setWord (m : ℕ → UInt8) (a v : ℕ) :
    Same {x | a ≤ x ∧ x < a + 8} m (setWord m a v) := fun x hx => by
  refine writeLE_outside ?_
  rw [Set.mem_ofPred_eq] at hx
  omega

theorem same_setWord_of (m : ℕ → UInt8) (h : ∀ x, a ≤ x → x < a + 8 → x ∈ s) :
    Same s m (setWord m a v) :=
  (same_setWord m a v).mono fun x hx => h x hx.1 hx.2

end ByteMemory
