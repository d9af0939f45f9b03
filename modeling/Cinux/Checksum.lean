/-
The Internet checksum.

Bytes come in pieces of any length, and a byte without a partner waits for the next piece.  Carries
are added back when the value is asked for.

* `checksum_of_pieces` — the value is the ones-complement checksum of all the bytes.
-/
import Mathlib

namespace Cinux.Checksum

/-- Two bytes in network order. -/
def pairWord (high low : UInt8) : ℕ := high.toNat * 2 ^ 8 + low.toNat

/-- The running sum, and the byte that waits for its partner (`pending_`, if `has_pending_`). -/
structure InternetChecksum where
  sum : ℕ := 0
  pending : Option UInt8 := none

namespace InternetChecksum

/-- The loop of `add`, and the byte that is left. -/
def addPairs (sum : ℕ) : List UInt8 → InternetChecksum
  | high :: low :: data => addPairs ((sum + pairWord high low) % 2 ^ 32) data
  | [last] => ⟨sum, some last⟩
  | [] => ⟨sum, none⟩

/-- `InternetChecksum::add`: a byte left over is paired with the next piece. -/
def add (s : InternetChecksum) (data : List UInt8) : InternetChecksum :=
  match s.pending, data with
  | some high, low :: data => addPairs ((s.sum + pairWord high low) % 2 ^ 32) data
  | some _, [] => s
  | none, data => addPairs s.sum data

/-- The carries above sixteen bits come back at the bottom. -/
def foldCarries (total : ℕ) : ℕ :=
  if total < 2 ^ 16 then total else foldCarries (total % 2 ^ 16 + total / 2 ^ 16 % 2 ^ 16)

/-- The sum with the byte that waits, before it is cut to a word. -/
def total (s : InternetChecksum) : ℕ := s.sum + (s.pending.map (pairWord · 0)).getD 0

/-- `InternetChecksum::value`. -/
def value (s : InternetChecksum) : ℕ := 2 ^ 16 - 1 - foldCarries (s.total % 2 ^ 32) % 2 ^ 16

end InternetChecksum

open InternetChecksum

/-- The words of a string that is padded to even length. -/
def words : List UInt8 → List ℕ
  | high :: low :: data => pairWord high low :: words data
  | [last] => [pairWord last 0]
  | [] => []

/-- The sum of two words, with the carry added at its other end. -/
def onesAdd (a b : ℕ) : ℕ := (a + b) % 2 ^ 16 + (a + b) / 2 ^ 16

/-- The checksum of RFC 1071, over all the words at once. -/
def onesChecksum (data : List UInt8) : ℕ := 2 ^ 16 - 1 - (words data).foldl onesAdd 0

/-! ### Pieces -/

theorem add_eq (s : InternetChecksum) (data : List UInt8) :
    s.add data = addPairs s.sum (s.pending.toList ++ data) := by
  obtain ⟨sum, _ | high⟩ := s
  · rfl
  · cases data <;> rfl

theorem add_addPairs (sum : ℕ) (data more : List UInt8) :
    (addPairs sum data).add more = addPairs sum (data ++ more) := by
  fun_induction addPairs sum data with
  | case1 sum high low data ih => exact ih
  | case2 sum last => exact add_eq _ more
  | case3 sum => rfl

theorem foldl_add (pieces : List (List UInt8)) (sum : ℕ) (data : List UInt8) :
    pieces.foldl add (addPairs sum data) = addPairs sum (data ++ pieces.flatten) := by
  induction pieces generalizing data with
  | nil => rw [List.flatten_nil, List.append_nil, List.foldl_nil]
  | cons piece pieces ih =>
    rw [List.foldl_cons, add_addPairs, ih, List.flatten_cons, List.append_assoc]

/-! ### Sums -/

theorem words_spec (data : List UInt8) :
    (∀ w ∈ words data, w < 2 ^ 16) ∧ (words data).sum ≤ data.length * (2 ^ 16 - 1) := by
  have hlt (high low : UInt8) : pairWord high low < 2 ^ 16 := by
    have := high.toNat_lt
    have := low.toNat_lt
    unfold pairWord
    omega
  fun_induction words data with
  | case1 high low data ih =>
    have := hlt high low
    refine ⟨List.forall_mem_cons.mpr ⟨this, ih.1⟩, ?_⟩
    rw [List.sum_cons, List.length_cons, List.length_cons]
    omega
  | case2 last =>
    have := hlt last 0
    refine ⟨List.forall_mem_singleton.mpr this, ?_⟩
    rw [List.sum_singleton, List.length_singleton]
    omega
  | case3 => exact ⟨nofun, Nat.zero_le _⟩

theorem total_addPairs (sum : ℕ) (data : List UInt8) (h : sum + (words data).sum < 2 ^ 32) :
    (addPairs sum data).total = sum + (words data).sum := by
  fun_induction addPairs sum data with
  | case1 sum high low data ih =>
    rw [words, List.sum_cons] at h ⊢
    rw [Nat.mod_eq_of_lt (by omega)] at ih ⊢
    rw [ih (by omega), Nat.add_assoc]
  | case2 sum last => simp [total, words]
  | case3 sum => rfl

/-- What is left of a sum when its carries are added back. -/
def canon (total : ℕ) : ℕ := if total = 0 then 0 else (total - 1) % (2 ^ 16 - 1) + 1

theorem foldCarries_eq (total : ℕ) (h : total < 2 ^ 32) : foldCarries total = canon total := by
  fun_induction foldCarries total with
  | case1 total hlt =>
    unfold canon
    split <;> omega
  | case2 total hge ih =>
    have hhigh : total / 2 ^ 16 % 2 ^ 16 = total / 2 ^ 16 := by omega
    rw [hhigh] at ih ⊢
    rw [ih (by omega)]
    unfold canon
    split <;> split <;> omega

theorem foldl_onesAdd (ws : List ℕ) (total : ℕ) (h : ∀ w ∈ ws, w < 2 ^ 16) :
    ws.foldl onesAdd (canon total) = canon (total + ws.sum) := by
  induction ws generalizing total with
  | nil => rfl
  | cons w ws ih =>
    have hadd : onesAdd (canon total) w = canon (total + w) := by
      have hw := h w List.mem_cons_self
      unfold onesAdd canon
      split <;> split <;> omega
    rw [List.foldl_cons, hadd, ih _ fun v hv => h v (List.mem_cons_of_mem _ hv), List.sum_cons,
      Nat.add_assoc]

/-- For every string of at most 64 KiB and every way of cutting it: its pieces have the value of the
whole, which is the ones-complement checksum of the string padded to even length; and the sum over
every part fed so far is the sum of its words, which fits. -/
theorem checksum_of_pieces (pieces : List (List UInt8)) (hlen : pieces.flatten.length ≤ 2 ^ 16) :
    (pieces.foldl add {}).value = (add {} pieces.flatten).value ∧
      (pieces.foldl add {}).value = onesChecksum pieces.flatten ∧
      ∀ front, front <+: pieces.flatten →
        (add {} front).total = (words front).sum ∧ (words front).sum < 2 ^ 32 := by
  have hfront : ∀ front, front <+: pieces.flatten →
      (add {} front).total = (words front).sum ∧ (words front).sum < 2 ^ 32 := by
    intro front hfront
    have hle := hfront.length_le
    have hsum := (words_spec front).2
    have hfit : (words front).sum < 2 ^ 32 := by omega
    refine ⟨?_, hfit⟩
    exact (total_addPairs 0 front (by omega)).trans (Nat.zero_add _)
  have hwhole : pieces.foldl add {} = add {} pieces.flatten := foldl_add pieces 0 []
  obtain ⟨htotal, hfit⟩ := hfront pieces.flatten List.prefix_rfl
  refine ⟨by rw [hwhole], ?_, hfront⟩
  have hcanon := foldl_onesAdd _ 0 (words_spec pieces.flatten).1
  have hlt : canon (words pieces.flatten).sum < 2 ^ 16 := by
    unfold canon
    split <;> omega
  rw [Nat.zero_add] at hcanon
  rw [hwhole, value, htotal, Nat.mod_eq_of_lt hfit, foldCarries_eq _ hfit, Nat.mod_eq_of_lt hlt,
    onesChecksum, ← hcanon]
  rfl

/-- A word cut between its bytes. -/
theorem checksum_of_cut_word :
    ([[0x12], [0x34, 0x56]].foldl add {}).value = onesChecksum [0x12, 0x34, 0x56] :=
  (checksum_of_pieces [[0x12], [0x34, 0x56]] (by decide)).2.1

end Cinux.Checksum
