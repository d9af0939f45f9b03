/-
Room in the register: `find_free_spot`.

The search starts below a ceiling and steps below whatever is in its way, until a pass
over the register moves nothing.  The test of a step is about unsigned words; a
candidate that has become too low to hold the stretch fails it in one way or the other,
and is refused in the end.

* `huntSpot_keeps` — what every step of the search keeps;
* `huntTurns_eq` — the loop of the source ends;
* `findFreeSpot_free`, `findFreeSpot_highest` — the answer of the search is free, and no
  free stretch lies higher;
* `findFreeSpot_exact` — the same by addresses, in every run.  A heap that is still
  empty counts by its start.
-/
import Cinux.VmaView

namespace Cinux

namespace VmaStore

variable {s : VmaStore} {bytes spotEnd x : ℕ} {r : VmaRegion}

/-- Nothing registered meets the stretch; a heap off the chain counts even while
it is empty. -/
def FreeAt (s : VmaStore) (x bytes : ℕ) : Prop :=
  (s.heapRecorded = false → ¬ (s.heap.start < x + bytes ∧ x < s.heap.stop)) ∧
  ∀ r ∈ s.regions, ¬ (r.start < x + bytes ∧ x < r.stop)

/-- There is a free stretch between two bounds. -/
def HasGap (s : VmaStore) (low ceiling bytes : ℕ) : Prop :=
  ∃ x, low ≤ x ∧ x + bytes ≤ ceiling ∧ s.FreeAt x bytes

/-- What a pass looks at: the heap while it is off the chain, and the chain. -/
def blockers (s : VmaStore) : List VmaRegion :=
  (if s.heapRecorded then [] else [s.heap]) ++ s.regions

theorem mem_blockers :
    r ∈ s.blockers ↔ (s.heapRecorded = false ∧ r = s.heap) ∨ r ∈ s.regions := by
  unfold blockers
  cases s.heapRecorded <;> simp

theorem freeAt_iff :
    s.FreeAt x bytes ↔ ∀ r ∈ s.blockers, ¬ (r.start < x + bytes ∧ x < r.stop) := by
  unfold FreeAt blockers
  cases s.heapRecorded <;> simp

/-! ### The search -/

/-- One region met by a pass of the search. -/
def huntStep (bytes spotEnd : ℕ) (scan : VmaRegion) : ℕ :=
  if scan.start < spotEnd ∧ scan.stop > sub64 spotEnd bytes then scan.start else spotEnd

theorem huntPass_eq (s : VmaStore) (bytes spotEnd : ℕ) :
    s.huntPass bytes spotEnd = s.blockers.foldl (huntStep bytes) spotEnd := by
  rw [huntPass, blockers]
  cases s.heapRecorded with
  | true => rfl
  | false =>
    show List.foldl (huntStep bytes) _ s.regions = _
    simp [huntStep]

/-- What every step of a pass keeps, the search keeps. -/
theorem huntSpot_keeps {P : ℕ → Prop}
    (hstep : ∀ e, P e → ∀ r ∈ s.blockers, P (huntStep bytes e r)) :
    ∀ spotEnd, P spotEnd → P (s.huntSpot bytes spotEnd) := by
  intro spotEnd
  induction spotEnd using VmaStore.huntSpot.induct s bytes with
  | case1 spotEnd hlow ih =>
    intro h
    rw [VmaStore.huntSpot, dif_pos hlow]
    refine ih ?_
    rw [huntPass_eq]
    exact List.foldlRecOn s.blockers (huntStep bytes) h hstep
  | case2 spotEnd hge =>
    intro h
    rw [VmaStore.huntSpot, dif_neg hge]
    exact h

theorem huntStep_le (bytes spotEnd : ℕ) (scan : VmaRegion) :
    huntStep bytes spotEnd scan ≤ spotEnd := by
  unfold huntStep
  split <;> omega

theorem foldl_huntStep_le (bytes : ℕ) : ∀ (l : List VmaRegion) (spotEnd : ℕ),
    l.foldl (huntStep bytes) spotEnd ≤ spotEnd := by
  intro l
  induction l with
  | nil => exact fun _ => le_refl _
  | cons r l ih => exact fun spotEnd => (ih _).trans (huntStep_le bytes spotEnd r)

theorem huntSpot_le (s : VmaStore) (bytes spotEnd : ℕ) : s.huntSpot bytes spotEnd ≤ spotEnd :=
  huntSpot_keeps (fun e he r _ => (huntStep_le bytes e r).trans he) spotEnd (le_refl _)

/-- The search does not pass over a free stretch. -/
theorem le_huntSpot (hfree : s.FreeAt x bytes) (hlt : spotEnd < 2 ^ 64) (hx : x + bytes ≤ spotEnd) :
    x + bytes ≤ s.huntSpot bytes spotEnd := by
  refine (huntSpot_keeps (P := fun e => e < 2 ^ 64 ∧ x + bytes ≤ e) (fun e he r hr => ?_)
    spotEnd ⟨hlt, hx⟩).2
  have hclear := freeAt_iff.mp hfree r hr
  unfold huntStep
  rw [sub64_of_le he.1 (by omega)]
  split <;> omega

/-- No region moves the end of a pass that has not moved. -/
theorem huntStep_of_foldl : ∀ {l : List VmaRegion}, ¬ l.foldl (huntStep bytes) spotEnd < spotEnd →
    ∀ r ∈ l, huntStep bytes spotEnd r = spotEnd := by
  intro l
  induction l with
  | nil => simp
  | cons r l ih =>
    intro hno
    have h1 := huntStep_le bytes spotEnd r
    have h2 := foldl_huntStep_le bytes l (huntStep bytes spotEnd r)
    rw [List.foldl_cons] at hno
    have hr : huntStep bytes spotEnd r = spotEnd := by omega
    rw [hr] at hno
    exact List.forall_mem_cons.mpr ⟨hr, ih hno⟩

/-- A pass that does not move has met nothing. -/
theorem free_of_huntPass (hlt : spotEnd < 2 ^ 64) (hb : bytes ≤ spotEnd)
    (hs : ¬ s.huntPass bytes spotEnd < spotEnd) : s.FreeAt (spotEnd - bytes) bytes := by
  rw [huntPass_eq] at hs
  refine freeAt_iff.mpr fun r hr hmeet => ?_
  have hstay := huntStep_of_foldl hs r hr
  rw [huntStep, sub64_of_le hlt hb, if_pos (by omega)] at hstay
  omega

theorem huntSpot_stays (s : VmaStore) (bytes spotEnd : ℕ) :
    ¬ s.huntPass bytes (s.huntSpot bytes spotEnd) < s.huntSpot bytes spotEnd := by
  induction spotEnd using VmaStore.huntSpot.induct s bytes with
  | case1 spotEnd hlow ih =>
    rw [VmaStore.huntSpot, dif_pos hlow]
    exact ih
  | case2 spotEnd hge =>
    rw [VmaStore.huntSpot, dif_neg hge]
    exact hge

/-! ### The loop -/

/-- One region of a pass, with the flag `moved`. -/
def huntFlagged (bytes : ℕ) (e : ℕ × Bool) (scan : VmaRegion) : ℕ × Bool :=
  if scan.start < e.1 ∧ scan.stop > sub64 e.1 bytes then (scan.start, true) else e

/-- The loop of `find_free_spot` with its flag; `none` when the turns run out. -/
def huntTurns (s : VmaStore) (bytes : ℕ) : ℕ → ℕ → Option ℕ
  | 0, _ => none
  | turns + 1, spotEnd =>
    let e := s.blockers.foldl (huntFlagged bytes) (spotEnd, false)
    if e.2 then huntTurns s bytes turns e.1 else some e.1

/-- The flag says whether the candidate has moved. -/
theorem foldl_huntFlagged : ∀ (l : List VmaRegion) (spotEnd : ℕ) (moved : Bool),
    l.foldl (huntFlagged bytes) (spotEnd, moved) = (l.foldl (huntStep bytes) spotEnd,
      moved || decide (l.foldl (huntStep bytes) spotEnd < spotEnd)) := by
  intro l
  induction l with
  | nil => simp
  | cons r l ih =>
    intro spotEnd moved
    have hle := foldl_huntStep_le bytes l (huntStep bytes spotEnd r)
    rw [List.foldl_cons, List.foldl_cons, huntFlagged]
    by_cases hway : r.start < spotEnd ∧ r.stop > sub64 spotEnd bytes
    · -- a step goes strictly down, so the end of the pass lies below its beginning
      have hhop : huntStep bytes spotEnd r = r.start := if_pos hway
      rw [hhop] at hle
      have hlow : l.foldl (huntStep bytes) r.start < spotEnd := by omega
      rw [if_pos hway, ih, hhop]
      simp [hlow]
    · have hhop : huntStep bytes spotEnd r = spotEnd := if_neg hway
      rw [if_neg hway, ih, hhop]

/-- The loop ends: every turn but the last one lowers the candidate. -/
theorem huntTurns_eq (s : VmaStore) (bytes : ℕ) : ∀ {turns spotEnd : ℕ}, spotEnd < turns →
    s.huntTurns bytes turns spotEnd = some (s.huntSpot bytes spotEnd) := by
  intro turns
  induction turns with
  | zero => exact fun h => absurd h (Nat.not_lt_zero _)
  | succ turns ih =>
    intro spotEnd h
    rw [huntTurns, huntSpot, foldl_huntFlagged, ← huntPass_eq]
    by_cases hlow : s.huntPass bytes spotEnd < spotEnd
    · simp only [hlow]
      exact ih (by omega)
    have hle : s.huntPass bytes spotEnd ≤ spotEnd := by
      rw [huntPass_eq]
      exact foldl_huntStep_le bytes _ _
    have heq : s.huntPass bytes spotEnd = spotEnd := by omega
    simp [heq]

/-! ### The answer -/

variable {ceiling spot : ℕ}

theorem findFreeSpot_eq (h : s.findFreeSpot ceiling bytes = .ok spot) :
    spot + bytes = s.huntSpot bytes ceiling := by
  unfold findFreeSpot at h
  split at h
  · nomatch h
  dsimp only at h
  split at h
  · nomatch h
  · have := Except.ok.inj h
    omega

section

variable (hc : ceiling < 2 ^ 64) (h : s.findFreeSpot ceiling bytes = .ok spot)
include hc h

/-- The stretch found is free. -/
theorem findFreeSpot_free : spot + bytes ≤ ceiling ∧ s.FreeAt spot bytes := by
  have heq := findFreeSpot_eq h
  have hle := s.huntSpot_le bytes ceiling
  have hfree := free_of_huntPass (lt_of_le_of_lt hle hc) (by omega) (s.huntSpot_stays bytes ceiling)
  rw [show s.huntSpot bytes ceiling - bytes = spot by omega] at hfree
  exact ⟨by omega, hfree⟩

/-- No free stretch below the ceiling lies higher than the one found. -/
theorem findFreeSpot_highest (hx : x + bytes ≤ ceiling) (hfree : s.FreeAt x bytes) : x ≤ spot := by
  have heq := findFreeSpot_eq h
  have := le_huntSpot hfree hc hx
  omega

end

/-- The register promises nothing in the stretch: neither the chain nor the heap covers
a byte of it. -/
def Vacant (s : VmaStore) (spot bytes : ℕ) : Prop :=
  ∀ a, spot ≤ a → a < spot + bytes → s.find a = none

/-- The start of a heap off the chain lies inside the stretch. -/
def Straddles (s : VmaStore) (spot bytes : ℕ) : Prop :=
  s.heapRecorded = false ∧ spot < s.heap.start ∧ s.heap.start < spot + bytes

theorem FreeAt.vacant (h : s.FreeAt spot bytes) : s.Vacant spot bytes := by
  intro a h1 h2
  refine find_eq_none.mpr fun r hr hcov => ?_
  have hmem : r ∈ s.blockers := by
    rw [mem_blockers]
    exact (mem_spans.mp hr).imp_left fun hl => ⟨(heapLoose_iff.mp hl.1).1, hl.2⟩
  exact freeAt_iff.mp h r hmem ⟨by have := hcov.1; omega, by have := hcov.2; omega⟩

/-- What is in the way of a stretch covers one of its bytes, unless it is a heap without
bytes whose start lies in the stretch. -/
theorem Sound.freeAt (hs : s.Sound) (hb : 0 < bytes) (hvac : s.Vacant spot bytes)
    (hno : ¬ s.Straddles spot bytes) : s.FreeAt spot bytes := by
  refine freeAt_iff.mpr fun r hr hmeet => ?_
  have hspan : r ∈ s.spans → False := by
    intro hmem
    have hne : r.start < r.stop := hs.tiled.nonempty r hmem
    -- the first byte that both have
    have hfind := hvac (max spot r.start) (le_max_left _ _) (by omega)
    refine find_eq_none.mp hfind r hmem ⟨le_max_right _ _, ?_⟩
    show max spot r.start < r.stop
    omega
  rcases mem_blockers.mp hr with ⟨hrec, rfl⟩ | hmem
  · by_cases hne : s.heap.start < s.heap.stop
    · exact hspan (mem_spans.mpr (.inl ⟨heapLoose_iff.mpr ⟨hrec, hne⟩, rfl⟩))
    · exact hno ⟨hrec, by omega, hmeet.1⟩
  · exact hspan (mem_spans.mpr (.inr hmem))

/-- In every store that a run reaches, the loop of `find_free_spot` ends.  A spot it
answers lies below the ceiling with nothing in its stretch, and every higher one has
something there or holds the start of the heap; it answers none only where there is no
such spot. -/
theorem findFreeSpot_exact (calls : List (VmaCall × Grants)) (ceiling bytes : ℕ)
    (hc : ceiling < 2 ^ 64) (hb : 0 < bytes) :
    (∃ turns, (run {} calls).huntTurns bytes turns ceiling
      = some ((run {} calls).huntSpot bytes ceiling)) ∧
    (∀ spot, (run {} calls).findFreeSpot ceiling bytes = .ok spot →
      spot + bytes ≤ ceiling ∧ (run {} calls).Vacant spot bytes ∧
      ∀ higher, spot < higher → higher + bytes ≤ ceiling →
        ¬ ((run {} calls).Vacant higher bytes ∧ ¬ (run {} calls).Straddles higher bytes)) ∧
    ∀ e, (run {} calls).findFreeSpot ceiling bytes = .error e →
      ∀ spot, spot + bytes ≤ ceiling →
        ¬ ((run {} calls).Vacant spot bytes ∧ ¬ (run {} calls).Straddles spot bytes) := by
  have hs := run_sound calls
  generalize run {} calls = s at hs ⊢
  refine ⟨⟨ceiling + 1, s.huntTurns_eq bytes (by omega)⟩, fun spot hok => ?_, ?_⟩
  · obtain ⟨hle, hfree⟩ := findFreeSpot_free hc hok
    refine ⟨hle, hfree.vacant, fun higher hlt hhi hroom => ?_⟩
    have := findFreeSpot_highest hc hok hhi (hs.freeAt hb hroom.1 hroom.2)
    omega
  · intro e herr spot hhi hfree
    have hlow := le_huntSpot (hs.freeAt hb hfree.1 hfree.2) hc hhi
    rw [findFreeSpot, if_neg (by omega)] at herr
    rw [if_neg (by omega)] at herr
    nomatch herr

/-- One region, a heap that is seeded inside the stretch right below it, and a search
that goes below both. -/
def crowded : List (VmaCall × Grants) :=
  [(.registerRange { start := 0x6000, stop := 0x7000 }, []), (.seedHeap 0x5000 0x6000, [])]

theorem findFreeSpot_exact_crowded : (run {} crowded).findFreeSpot 0x8000 0x2000 = .ok 0x3000 ∧
    (run {} crowded).Vacant 0x3000 0x2000 ∧
    ¬ ((run {} crowded).Vacant 0x4000 0x2000 ∧ ¬ (run {} crowded).Straddles 0x4000 0x2000) := by
  have hturns : (run {} crowded).huntTurns 0x2000 0x8001 0x8000 = some 0x5000 := by decide
  rw [huntTurns_eq _ _ (by decide)] at hturns
  have hok : (run {} crowded).findFreeSpot 0x8000 0x2000 = .ok 0x3000 := by
    rw [findFreeSpot, Option.some.inj hturns]
    rfl
  obtain ⟨-, hvac, hmax⟩ := (findFreeSpot_exact crowded 0x8000 0x2000 (by decide) (by decide)).2.1
    0x3000 hok
  exact ⟨hok, hvac, hmax 0x4000 (by decide) (by decide)⟩

end VmaStore

end Cinux
