/-
Machine words and the page arithmetic of `cinux/math.hpp`.

Addresses and lengths are natural numbers; where the C++ arithmetic can wrap
at 64 bits the definitions say so through `wrap` and `sub64`.  The layout
constants and the error numbers come from `kernel/mm/layout.hpp` and
`kernel/syscall/syscall.hpp`.

* `alignUp_of_le` — away from the top of the word `alignUp` rounds up.
-/
import Mathlib

namespace Cinux

/-- Reduction to a 64-bit word. -/
def wrap (n : ℕ) : ℕ := n % 2 ^ 64

/-- Unsigned 64-bit subtraction of words. -/
def sub64 (a b : ℕ) : ℕ := wrap (a + 2 ^ 64 - b)

/-- `arch::page::kSize`. -/
def kSize : ℕ := 4096

/-- `mm::kUserTop`, also `syscall::kUserAddressLimit`. -/
def kUserTop : ℕ := 0x0000800000000000

/-- `mm::kUserNullTop`: user mappings never start below. -/
def kUserNullTop : ℕ := 64 * 1024

/-- `mm::kUserBrkMmapSplit`: the ceiling exec gives the break. -/
def kUserBrkMmapSplit : ℕ := 0x0000400000000000

/-- `mm::kUserMmapTop`: where anonymous mmap hunts begin. -/
def kUserMmapTop : ℕ := 0x00007F8000000000

/-! ### Errors of the call interface -/

def kEperm : ℤ := 1

def kEnoent : ℤ := 2

def kEintr : ℤ := 4

def kEagain : ℤ := 11

def kEnomem : ℤ := 12

def kEfault : ℤ := 14

def kEexist : ℤ := 17

def kEinval : ℤ := 22

def kEnosys : ℤ := 38

/-! ### Page arithmetic -/

/-- `math::Floor`. -/
def floor (value unit : ℕ) : ℕ := value / unit

/-- `math::Ceil`; the sum wraps. -/
def ceil (value unit : ℕ) : ℕ := wrap (value + unit - 1) / unit

/-- `math::AlignUp`; the product of a quotient by its divisor cannot wrap again. -/
def alignUp (value unit : ℕ) : ℕ := ceil value unit * unit

/-- `math::AlignDown`. -/
def alignDown (value unit : ℕ) : ℕ := floor value unit * unit

theorem wrap_lt (n : ℕ) : wrap n < 2 ^ 64 := Nat.mod_lt _ (by norm_num)

theorem wrap_of_lt {n : ℕ} (h : n < 2 ^ 64) : wrap n = n := Nat.mod_eq_of_lt h

theorem wrap_add_wrap (a b : ℕ) : wrap (wrap a + b) = wrap (a + b) := by
  simp [wrap]

theorem sub64_of_le {a b : ℕ} (ha : a < 2 ^ 64) (h : b ≤ a) : sub64 a b = a - b := by
  simp only [sub64, wrap]
  omega

theorem alignDown_mod (a : ℕ) : alignDown a kSize % kSize = 0 := Nat.mul_mod_left _ _

theorem alignUp_mod (a : ℕ) : alignUp a kSize % kSize = 0 := Nat.mul_mod_left _ _

theorem alignUp_lt (a : ℕ) : alignUp a kSize < 2 ^ 64 := by
  have := wrap_lt (a + kSize - 1)
  simp only [alignUp, ceil, kSize] at *
  omega

theorem alignUp_of_le {a : ℕ} (h : a ≤ 2 ^ 64 - kSize) :
    a ≤ alignUp a kSize ∧ alignUp a kSize < a + kSize := by
  simp only [kSize] at h
  simp only [alignUp, ceil, kSize, wrap]
  omega

theorem alignUp_of_mod {a : ℕ} (h : a % kSize = 0) (ha : a ≤ 2 ^ 64 - kSize) :
    alignUp a kSize = a := by
  simp only [kSize] at h ha
  simp only [alignUp, ceil, kSize, wrap]
  omega

theorem alignUp_mono {a b : ℕ} (h : a ≤ b) (hb : b ≤ 2 ^ 64 - kSize) :
    alignUp a kSize ≤ alignUp b kSize := by
  simp only [kSize] at hb
  simp only [alignUp, ceil, kSize, wrap]
  omega

end Cinux
