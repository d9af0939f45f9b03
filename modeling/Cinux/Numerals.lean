/-
Numbers in text.

`ParseDecimal` and `ParseOctal` take one digit after the other into a 64-bit word, however many
there are.

* `parse_exact_iff` — digits are answered with their number exactly below 2⁶⁴.
-/
import Mathlib

namespace Cinux.Numerals

/-- The loop of both: a byte may end the field, is refused or is one more digit. -/
def parseFrom (base : UInt64) (last : UInt8) (ends : UInt8 → Bool) (value : UInt64) :
    List UInt8 → Option UInt64
  | [] => some value
  | digit :: field =>
    if ends digit then some value
    else if digit < 0x30 ∨ last < digit then none
    else parseFrom base last ends (value * base + (digit - 0x30).toUInt64) field

/-- `ParseOctal`, up to a blank or a zero. -/
def parseOctal (field : List UInt8) : Option UInt64 :=
  parseFrom 8 0x37 (fun digit => digit = 0x20 || digit = 0) 0 field

/-- `ParseDecimal`. -/
def parseDecimal (field : List UInt8) : Option UInt64 :=
  if field = [] then none else parseFrom 10 0x39 (fun _ => false) 0 field

/-- The field has only digits up to the last one. -/
def Digits (last : UInt8) (field : List UInt8) : Prop :=
  ∀ digit ∈ field, 0x30 ≤ digit ∧ digit ≤ last

/-- The number that digits denote after those before them. -/
def denotes (base before : ℕ) (field : List UInt8) : ℕ :=
  field.foldl (fun n digit => n * base + (digit.toNat - 0x30)) before

/-- The word follows the number, and wraps. -/
theorem parseFrom_digits {base : UInt64} {last : UInt8} {ends : UInt8 → Bool}
    (hends : ∀ digit, 0x30 ≤ digit → ends digit = false) (field : List UInt8) (n : ℕ)
    (h : Digits last field) :
    parseFrom base last ends (.ofNat n) field = some (.ofNat (denotes base.toNat n field)) := by
  induction field generalizing n with
  | nil => rfl
  | cons digit field ih =>
    obtain ⟨hlow, hhigh⟩ := h digit List.mem_cons_self
    have hpush : UInt64.ofNat n * base + (digit - 0x30).toUInt64 =
        .ofNat (n * base.toNat + (digit.toNat - 0x30)) := by
      rw [UInt64.ofNat_add, UInt64.ofNat_mul, UInt64.ofNat_toNat, ← UInt64.ofNat_uInt8ToNat,
        UInt8.toNat_sub_of_le _ _ hlow]
      rfl
    rw [parseFrom, hends digit hlow, if_neg Bool.false_ne_true,
      if_neg (by rw [not_or, UInt8.not_lt, UInt8.not_lt]; exact ⟨hlow, hhigh⟩), hpush]
    exact ih _ fun d hd => h d (List.mem_cons_of_mem _ hd)

/-- The answer is the number, or there is none. -/
def Exact (answer : Option UInt64) (number : ℕ) : Prop := ∀ value ∈ answer, value.toNat = number

theorem exact_ofNat_iff (number : ℕ) : Exact (some (.ofNat number)) number ↔ number < 2 ^ 64 := by
  simp only [Exact, Option.mem_def, Option.some.injEq, forall_eq']
  exact ⟨fun h => h ▸ Nat.mod_lt _ (by decide), Nat.mod_eq_of_lt⟩

/-- Every string of decimal digits is answered with its number or refused exactly if that number
is below 2⁶⁴, and so is every field of octal digits. -/
theorem parse_exact_iff (field : List UInt8) :
    (Digits 0x39 field → (Exact (parseDecimal field) (denotes 10 0 field) ↔
      denotes 10 0 field < 2 ^ 64)) ∧
    (Digits 0x37 field → (Exact (parseOctal field) (denotes 8 0 field) ↔
      denotes 8 0 field < 2 ^ 64)) := by
  constructor
  · intro h
    rw [parseDecimal]
    by_cases hnil : field = []
    · subst hnil
      exact iff_of_true nofun (by decide)
    · rw [if_neg hnil, ← exact_ofNat_iff]
      exact iff_of_eq (congrArg (Exact · _) (parseFrom_digits (fun _ _ => rfl) field 0 h))
  · intro h
    have hends : ∀ digit : UInt8, 0x30 ≤ digit → (digit = 0x20 || digit = 0) = false := by
      grind
    rw [← exact_ofNat_iff]
    exact iff_of_eq (congrArg (Exact · _) (parseFrom_digits hends field 0 h))

/-- 2⁶⁴ is answered as 0 is. -/
theorem parse_wraps :
    parseDecimal ([1, 8, 4, 4, 6, 7, 4, 4, 0, 7, 3, 7, 0, 9, 5, 5, 1, 6, 1, 6].map (0x30 + ·)) =
        parseDecimal [0x30] ∧
      parseOctal (0x32 :: List.replicate 21 0x30) = parseOctal [0x30] ∧
      parseDecimal [0x30] = some 0 ∧ parseOctal [0x30] = some 0 := by
  decide

end Cinux.Numerals
