/-
The ledger of physical frames (`kernel/mm/pmm.cpp`) and the release rule of
`kernel/mm/cow.cpp`.

A frame is named by its number, the physical address over the page size; number
zero stands for the zero address, which means refusal.  The bitmap and the
share counts are functions of the number.  `log` and `refusals` are not in the
source: the log records every page handed out and returned, so that "never
twice" can be said (`Pmm.Replays`), and `refusals` counts the pages refused.

* `allocatePage_cases` — the lowest clear page, or nothing below the ceiling;
* `releaseFrame_cases` — what `cow::ReleaseFrame` does to one frame.
-/
import Cinux.Word

namespace Cinux

open Function

/-- The assertions of the memory code; a failed one stops the kernel. -/
inductive Halt
  /-- "retain of a frame the ledger never saw" -/
  | ledgerMiss
  /-- "frame shared past the count's width" -/
  | countWidth
  /-- "fork clone refused a map" -/
  | cloneRefused
  /-- "fork clone lost a parent page" -/
  | lostParent
  /-- "fork clone lost a child page" -/
  | lostChild
  /-- "user half holds a large page" -/
  | largePage
  /-- "cow copy out of frames" -/
  | copyRefused
  /-- "brk shrink lost its retired pages" -/
  | brkLost
deriving DecidableEq, Repr

/-- `kPmmTotalPages`: 16 GiB of 4 KiB pages. -/
def kPmmTotalPages : ℕ := 4194304

/-- A page handed out or returned. -/
inductive PmmEvent
  | taken (frame : ℕ)
  | returned (frame : ℕ)
deriving DecidableEq, Repr

/-- `Pmm`: the bitmap and the share counts. -/
structure Pmm where
  used : ℕ → Bool
  shares : ℕ → ℕ := fun _ => 0
  log : List PmmEvent := []
  refusals : ℕ := 0

/-- The scan of `find_clear_run(1)`: the first clear bit from `index` on. -/
def firstClear (used : ℕ → Bool) : ℕ → ℕ → Option ℕ
  | 0, _ => none
  | left + 1, index => if used index then firstClear used left (index + 1) else some index

variable {frame : ℕ} {m : Pmm}

namespace Pmm

/-- `set_range(base, 1)` on the bitmap. -/
def take (m : Pmm) (frame : ℕ) : Pmm :=
  { m with used := update m.used frame true, log := .taken frame :: m.log }

/-- A page was asked for and there is none. -/
def refuse (m : Pmm) : Pmm := { m with refusals := m.refusals + 1 }

/-- `AllocatePage`: the first clear frame, zero when there is none. -/
def allocatePage (m : Pmm) : ℕ × Pmm :=
  match firstClear m.used kPmmTotalPages 0 with
  | none => (0, m.refuse)
  | some frame => (frame, m.take frame)

/-- `FreePage`. -/
def freePage (m : Pmm) (frame : ℕ) : Pmm :=
  if frame = 0 then m
  else { m with used := update m.used frame false, log := .returned frame :: m.log }

/-- One more share of a frame. -/
def addShare (m : Pmm) (frame : ℕ) : Pmm :=
  { m with shares := update m.shares frame (m.shares frame + 1) }

/-- `RetainFrame`; a count of 255 halts. -/
def retainFrame (m : Pmm) (frame : ℕ) : Except Halt Pmm :=
  if ¬ frame < kPmmTotalPages then .error .ledgerMiss
  else if m.shares frame = 0xFF then .error .countWidth
  else .ok (m.addShare frame)

/-- `release_frame`: the company left, and the ledger after it. -/
def dropShare (m : Pmm) (frame : ℕ) : ℕ × Pmm :=
  if frame ≥ kPmmTotalPages ∨ m.shares frame = 0 then (0, m)
  else (m.shares frame - 1,
    { m with shares := update m.shares frame (m.shares frame - 1) })

/-- `cow::ReleaseFrame`; `hardware` is `IsHardwarePage`. -/
def releaseFrame (hardware : ℕ → Bool) (m : Pmm) (frame : ℕ) : Pmm :=
  if hardware frame then m
  else if (m.dropShare frame).1 = 0 then (m.dropShare frame).2.freePage frame
  else (m.dropShare frame).2

/-! ### What each operation can do -/

theorem firstClear_some {used : ℕ → Bool} : ∀ {left index frame : ℕ},
    firstClear used left index = some frame →
      frame < index + left ∧ used frame = false := by
  intro left
  induction left with
  | zero =>
    intro index frame h
    simp [firstClear] at h
  | succ left ih =>
    intro index frame h
    rw [firstClear] at h
    by_cases hu : used index = true
    · rw [if_pos hu] at h
      obtain ⟨h1, h2⟩ := ih h
      exact ⟨by omega, h2⟩
    · rw [if_neg hu] at h
      obtain ⟨⟩ := h
      exact ⟨by omega, by simpa using hu⟩

/-- With page zero withheld, a page handed out is a clear one below the ceiling
and is not page zero. -/
theorem allocatePage_cases (h0 : m.used 0 = true) : m.allocatePage = (0, m.refuse) ∨
    ∃ frame, m.allocatePage = (frame, m.take frame) ∧ frame ≠ 0 ∧ frame < kPmmTotalPages ∧
      m.used frame = false := by
  unfold allocatePage
  cases h : firstClear m.used kPmmTotalPages 0 with
  | none => exact .inl rfl
  | some frame =>
    obtain ⟨hlt, hclear⟩ := firstClear_some h
    refine .inr ⟨frame, rfl, ?_, by omega, hclear⟩
    rintro rfl
    rw [h0] at hclear
    nomatch hclear

@[simp] theorem freePage_refusals (m : Pmm) (frame : ℕ) :
    (m.freePage frame).refusals = m.refusals := by
  unfold freePage
  split <;> rfl

theorem retainFrame_ok {m m' : Pmm} (h : m.retainFrame frame = .ok m') :
    m' = m.addShare frame := by
  unfold retainFrame at h
  by_cases h1 : ¬ frame < kPmmTotalPages
  · rw [if_pos h1] at h
    nomatch h
  rw [if_neg h1] at h
  by_cases h2 : m.shares frame = 0xFF
  · rw [if_pos h2] at h
    nomatch h
  rw [if_neg h2] at h
  exact (Except.ok.inj h).symm

theorem retainFrame_of_lt (h1 : frame < kPmmTotalPages) (h2 : m.shares frame < 0xFF) :
    m.retainFrame frame = .ok (m.addShare frame) := by
  unfold retainFrame
  rw [if_neg (not_not.mpr h1), if_neg (by omega)]

theorem dropShare_pos (h1 : frame < kPmmTotalPages) (h2 : m.shares frame ≠ 0) :
    m.dropShare frame = (m.shares frame - 1,
      { m with shares := update m.shares frame (m.shares frame - 1) }) := by
  unfold dropShare
  rw [if_neg (by omega)]

/-- The release rule on a frame of the ledger: hardware pages are left alone, a
frame whose count is at most one is returned, otherwise the count falls. -/
theorem releaseFrame_cases {hardware : ℕ → Bool} (h0 : frame ≠ 0)
    (hlt : hardware frame = false → frame < kPmmTotalPages) :
    (hardware frame = true ∧ m.releaseFrame hardware frame = m) ∨
    (hardware frame = false ∧ m.shares frame ≤ 1 ∧ m.releaseFrame hardware frame = { m with
            used := update m.used frame false
            shares := update m.shares frame 0
            log := .returned frame :: m.log }) ∨
    (hardware frame = false ∧ 2 ≤ m.shares frame ∧ m.releaseFrame hardware frame
        = { m with shares := update m.shares frame (m.shares frame - 1) }) := by
  unfold releaseFrame
  by_cases hhw : hardware frame = true
  · rw [if_pos hhw]
    exact .inl ⟨hhw, rfl⟩
  have hhw' : hardware frame = false := by simpa using hhw
  rw [if_neg hhw]
  by_cases hz : m.shares frame = 0
  · have hdrop : m.dropShare frame = (0, m) := by
      unfold dropShare
      rw [if_pos (.inr hz)]
    rw [hdrop]
    refine .inr (.inl ⟨hhw', by omega, ?_⟩)
    have hsame : update m.shares frame 0 = m.shares := by
      rw [← hz, update_eq_self]
    simp [freePage, h0, hsame]
  · rw [dropShare_pos (hlt hhw') hz]
    by_cases hone : m.shares frame = 1
    · refine .inr (.inl ⟨hhw', by omega, ?_⟩)
      simp [hone, freePage, h0]
    · refine .inr (.inr ⟨hhw', by omega, ?_⟩)
      rw [if_neg (by omega)]

/-! ### The log -/

/-- The log leads from the bitmap at boot to the bitmap as it stands, handing
out only clear pages and taking back only pages that were out. -/
def Replays (boot : ℕ → Bool) : List PmmEvent → (ℕ → Bool) → Prop
  | [], used => used = boot
  | .taken frame :: log, used =>
    ∃ before, Replays boot log before ∧ before frame = false ∧
      used = update before frame true
  | .returned frame :: log, used =>
    ∃ before, Replays boot log before ∧ before frame = true ∧
      used = update before frame false

end Pmm

end Cinux
