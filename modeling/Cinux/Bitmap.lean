/-
Bitmaps (`cinux/bit_ops/bitmap.hpp`, over the masks of `cinux/bit_ops/bitmask.hpp`).

The bits are kept in 64-bit words, next to a count of those that are set.  What the
callers rely on is told by single bits: `test` after each operation is what it was
before, except where the operation says otherwise.

* `Bitmap.set`, `Bitmap.clear`, `Bitmap.setRange`, `Bitmap.clearRange`, `Bitmap.setAll`;
* `test_set`, `test_clear`, `test_setRange`, `test_clearRange`, `test_setAll` — the
  bits they leave.
-/
import Cinux.Word

namespace Cinux

open BitVec

/-! ### Masks -/

/-- `BitMask::field_mask`, also `Ones`. -/
def fieldMask (width : ℕ) : BitVec 64 :=
  if 64 ≤ width then BitVec.allOnes 64 else (1#64 <<< width) - 1#64

/-- The word with one bit. -/
def maskBit (position : ℕ) : BitVec 64 := 1#64 <<< position

/-- `BitMask::has`. -/
def has (raw mask : BitVec 64) : Bool := raw &&& mask != 0#64

/-- `BitMask::deposit` of a field. -/
def deposit (raw : BitVec 64) (low width : ℕ) (value : BitVec 64) : BitVec 64 :=
  let placed := fieldMask width <<< low
  (raw &&& ~~~placed) ||| ((value <<< low) &&& placed)

theorem has_maskBit (raw : BitVec 64) {p : ℕ} (hp : p < 64) :
    has raw (maskBit p) = raw.getLsbD p := by
  have hmask : maskBit p = BitVec.twoPow 64 p := by
    rw [maskBit, twoPow_eq]
  rw [has, hmask, and_twoPow]
  cases hbit : raw.getLsbD p
  · simp
  · simp only [bne_iff_ne]
    intro hz
    have := congrArg (fun w => w.getLsbD p) hz
    simp [hp] at this

theorem getLsbD_deposit (raw value : BitVec 64) {p : ℕ} (hp : p < 64) (i : ℕ) :
    (deposit raw p 1 value).getLsbD i = if i = p then value.getLsbD 0 else raw.getLsbD i := by
  have hplaced : fieldMask 1 <<< p = BitVec.twoPow 64 p := by
    rw [show fieldMask 1 = 1#64 from rfl, twoPow_eq]
  have hdef : deposit raw p 1 value = (raw &&& ~~~(fieldMask 1 <<< p)) |||
    ((value <<< p) &&& (fieldMask 1 <<< p)) := rfl
  rw [hdef, hplaced]
  simp only [getLsbD_or]
  by_cases hi : i = p
  · subst hi
    simp [hp]
  have : ¬ p = i := fun h => hi h.symm
  by_cases hlt : i < 64
  · simp [hi, hlt]
  · simp [hi, this, getLsbD_of_ge raw i (by omega)]

theorem getLsbD_fieldMask {width i : ℕ} (hw : width ≤ 64) :
    (fieldMask width).getLsbD i = decide (i < width) := by
  rw [fieldMask]
  by_cases hfull : 64 ≤ width
  · rw [if_pos hfull, getLsbD_allOnes]
    simp only [decide_eq_decide]
    omega
  have hnat : ((1#64 <<< width) - 1#64).toNat = 2 ^ width - 1 := by
    have hlt : 2 ^ width < 2 ^ 64 := Nat.pow_lt_pow_right (by omega) (by omega)
    have hpos : 0 < 2 ^ width := Nat.two_pow_pos width
    rw [toNat_sub, toNat_shiftLeft]
    simp only [toNat_ofNat]
    omega
  rw [if_neg hfull, BitVec.getLsbD, hnat, Nat.testBit_two_pow_sub_one]

/-! ### The bitmap -/

/-- The words of a bitmap, and the count of set bits it keeps beside them. -/
structure Bitmap where
  words : ℕ → BitVec 64
  capacity : ℕ
  countSet : ℕ

namespace Bitmap

/-- The words that hold so many bits. -/
def wordsFor (bitCapacity : ℕ) : ℕ := (bitCapacity + 63) / 64

/-- The bit at an index. -/
def test (b : Bitmap) (index : ℕ) : Bool := has (b.words (index / 64)) (maskBit (index % 64))

/-- Sets a bit; the count moves only if it was clear. -/
def set (b : Bitmap) (index : ℕ) : Bitmap :=
  if b.test index then b
  else { b with
    words := Function.update b.words (index / 64) (deposit (b.words (index / 64)) (index % 64) 1 1)
    countSet := b.countSet + 1 }

/-- Clears a bit; the count moves only if it was set. -/
def clear (b : Bitmap) (index : ℕ) : Bitmap :=
  if b.test index then { b with
    words := Function.update b.words (index / 64) (deposit (b.words (index / 64)) (index % 64) 1 0)
    countSet := sub64 b.countSet 1 }
  else b

/-- The loop of `set_range`, and of `clear_range` below. -/
def setRange (b : Bitmap) (base : ℕ) : ℕ → Bitmap
  | 0 => b
  | count + 1 => (b.set base).setRange (base + 1) count

/-- Clears so many bits, from a base up. -/
def clearRange (b : Bitmap) (base : ℕ) : ℕ → Bitmap
  | 0 => b
  | count + 1 => (b.clear base).clearRange (base + 1) count

/-- Sets every bit below the capacity, and none above it. -/
def setAll (b : Bitmap) : Bitmap :=
  if b.capacity = 0 then b
  else { b with
    words := fun word =>
      if b.capacity % 64 ≠ 0 ∧ word = wordsFor b.capacity - 1 then fieldMask (b.capacity % 64)
      else if word < wordsFor b.capacity then fieldMask 64
      else b.words word
    countSet := b.capacity }

/-- Clears every word in use. -/
def clearAll (b : Bitmap) : Bitmap :=
  if b.capacity = 0 then b
  else { b with
    words := fun word => if word < wordsFor b.capacity then 0 else b.words word
    countSet := 0 }

/-- `init`, over words with any contents. -/
def init (words : ℕ → BitVec 64) (bitCapacity : ℕ) : Bitmap :=
  clearAll { words := words, capacity := bitCapacity, countSet := 0 }

variable (b : Bitmap) (i j : ℕ)

theorem test_eq : b.test i = (b.words (i / 64)).getLsbD (i % 64) :=
  has_maskBit _ (Nat.mod_lt _ (by omega))

theorem getLsbD_update (value : BitVec 64) :
    (Function.update b.words (i / 64) (deposit (b.words (i / 64)) (i % 64) 1 value)
      (j / 64)).getLsbD (j % 64) = if j = i then value.getLsbD 0 else b.test j := by
  have hi : i % 64 < 64 := Nat.mod_lt _ (by omega)
  by_cases hword : j / 64 = i / 64
  · rw [hword, Function.update_self, getLsbD_deposit _ _ hi, test_eq, hword]
    by_cases hij : j = i
    · subst hij
      simp
    · rw [if_neg (by omega), if_neg hij]
  · rw [Function.update_of_ne hword, if_neg (by rintro rfl; exact hword rfl), test_eq]

@[simp] theorem test_set : (b.set i).test j = if j = i then true else b.test j := by
  rw [set]
  by_cases hset : b.test i
  · rw [if_pos hset]
    split
    · subst j
      exact hset
    · rfl
  · rw [if_neg hset, test_eq]
    exact getLsbD_update b i j 1

@[simp] theorem test_clear : (b.clear i).test j = if j = i then false else b.test j := by
  rw [clear]
  by_cases hset : b.test i
  · rw [if_pos hset, test_eq]
    exact getLsbD_update b i j 0
  rw [if_neg hset]
  split
  · subst j
    simpa using hset
  · rfl

theorem test_setRange : ∀ (count : ℕ) (b : Bitmap) (base : ℕ),
    (b.setRange base count).test j = if base ≤ j ∧ j < base + count then true else b.test j := by
  intro count
  induction count with
  | zero =>
    intro b base
    rw [setRange, if_neg (by omega)]
  | succ count ih =>
    intro b base
    rw [setRange, ih, test_set]
    grind

theorem test_clearRange : ∀ (count : ℕ) (b : Bitmap) (base : ℕ),
    (b.clearRange base count).test j = if base ≤ j ∧ j < base + count then false else b.test j := by
  intro count
  induction count with
  | zero =>
    intro b base
    rw [clearRange, if_neg (by omega)]
  | succ count ih =>
    intro b base
    rw [clearRange, ih, test_clear]
    grind

theorem test_setAll (h : j < b.capacity) : b.setAll.test j = true := by
  have hne : b.capacity ≠ 0 := by omega
  have hword : j / 64 < wordsFor b.capacity := by
    unfold wordsFor
    omega
  rw [test_eq, setAll, if_neg hne]
  dsimp only
  by_cases htail : b.capacity % 64 ≠ 0 ∧ j / 64 = wordsFor b.capacity - 1
  · rw [if_pos htail, getLsbD_fieldMask (by omega)]
    unfold wordsFor at htail
    simp only [decide_eq_true_eq]
    omega
  · rw [if_neg htail, if_pos hword, getLsbD_fieldMask (by omega)]
    simp only [decide_eq_true_eq]
    omega

@[simp] theorem capacity_set : (b.set i).capacity = b.capacity := by
  unfold set
  split <;> rfl

@[simp] theorem capacity_clear : (b.clear i).capacity = b.capacity := by
  unfold clear
  split <;> rfl

@[simp] theorem capacity_setRange : ∀ (count : ℕ) (b : Bitmap) (base : ℕ),
    (b.setRange base count).capacity = b.capacity := by
  intro count
  induction count with
  | zero => exact fun _ _ => rfl
  | succ count ih =>
    intro b base
    rw [setRange, ih, capacity_set]

@[simp] theorem capacity_clearRange : ∀ (count : ℕ) (b : Bitmap) (base : ℕ),
    (b.clearRange base count).capacity = b.capacity := by
  intro count
  induction count with
  | zero => exact fun _ _ => rfl
  | succ count ih =>
    intro b base
    rw [clearRange, ih, capacity_clear]

@[simp] theorem capacity_setAll : b.setAll.capacity = b.capacity := by
  unfold setAll
  split <;> rfl

@[simp] theorem capacity_init (words : ℕ → BitVec 64) : (init words i).capacity = i := by
  unfold init clearAll
  split <;> rfl

end Bitmap

end Cinux
