/-
Runs of the register.

The break, the copy and the plain assignments keep the register sound, as the
other operations do (`VmaSpans.lean`, `VmaProtect.lean`), so every store a run
of calls reaches is sound (`run_sound`), whatever was refused on the way.

* `moveHeapEnd_cases` — what one move of the break can do;
* `cloneRegions_step` — one turn of the copying loop;
* `run_disjoint` — the regions a run leaves behind are non-empty and pairwise
  disjoint, and `find` names the one that covers;
* `refused_unchanged` — a refused call changes no answer of the register.
-/
import Cinux.VmaProtect

namespace Cinux

open Spans (Tiled tiled_nil tiled_cons tiled_append)

variable {g : Grants} {start stop : ℕ} {e : KernelError}

namespace VmaStore

variable {s : VmaStore}

/-! ### The break -/

/-- Every way through `move_heap_end`: it is refused before it changes
anything, in `unregister_range`, or it settles the heap at its new end over a
store that gained the extension, lost the stretch above, or kept its chain. -/
theorem moveHeapEnd_cases (s : VmaStore) (target : ℕ) (g : Grants) :
    (∃ e, (s.moveHeapEnd target g).result = .error e ∧ ((s.moveHeapEnd target g).store = s ∨
        (s.unregisterRange (alignUp target kSize) s.heap.stop g).result = .error e ∧
        (s.moveHeapEnd target g).store
          = (s.unregisterRange (alignUp target kSize) s.heap.stop g).store)) ∨
    ((s.moveHeapEnd target g).result = .ok s.heapBreak ∧ (s.moveHeapEnd target g).store = s) ∨
    ((s.moveHeapEnd target g).result = .ok target ∧ s.heap.start ≤ target ∧ target ≤ s.heapMax ∧
      ∃ t : VmaStore, (s.moveHeapEnd target g).store = t.settleHeap (alignUp target kSize) target ∧
        ((s.heapRecorded = true ∧ alignUp target kSize > s.heap.stop ∧
            t = (s.registerRange (s.extension (alignUp target kSize)) g).store) ∨
          (s.heapRecorded = true ∧ alignUp target kSize < s.heap.stop ∧
            t = (s.unregisterRange (alignUp target kSize) s.heap.stop g).store) ∨
          ((s.heapRecorded = true → alignUp target kSize = s.heap.stop) ∧ t = s ∧
            (alignUp target kSize > s.heap.stop →
              ∀ r ∈ s.regions, ¬ overlapsSpan r s.heap.stop (alignUp target kSize) = true)))) := by
  unfold moveHeapEnd
  generalize alignUp target kSize = wanted
  -- the tests of the function, in their order
  by_cases h1 : s.heap.start = 0 ∧ s.heap.stop = 0
  · rw [if_pos h1]
    exact .inl ⟨_, rfl, .inl rfl⟩
  rw [if_neg h1]
  by_cases h2 : target = 0
  · rw [if_pos h2]
    exact .inr (.inl ⟨rfl, rfl⟩)
  rw [if_neg h2]
  by_cases h3 : target < s.heap.start ∨ target > s.heapMax
  · rw [if_pos h3]
    exact .inl ⟨_, rfl, .inl rfl⟩
  rw [if_neg h3]
  rw [not_or, not_lt, not_lt] at h3
  by_cases h4 : wanted > s.heap.stop ∧ s.regions.any (overlapsSpan · s.heap.stop wanted) = true
  · rw [if_pos h4]
    exact .inl ⟨_, rfl, .inl rfl⟩
  rw [if_neg h4]
  -- a heap that is recorded grows by a region of its own, and shrinks by a withdrawal
  by_cases h5 : s.heapRecorded = true ∧ wanted > s.heap.stop
  · rw [if_pos h5]
    dsimp only
    cases h : (s.registerRange (s.extension wanted) g).result with
    | error e =>
      exact .inl ⟨e, rfl, .inl (registerRange_error h)⟩
    | ok _ => exact .inr (.inr ⟨rfl, h3.1, h3.2, _, rfl, .inl ⟨h5.1, h5.2, rfl⟩⟩)
  rw [if_neg h5]
  by_cases h6 : s.heapRecorded = true ∧ wanted < s.heap.stop
  · rw [if_pos h6]
    dsimp only
    cases h : (s.unregisterRange wanted s.heap.stop g).result with
    | error e => exact .inl ⟨e, rfl, .inr ⟨rfl, rfl⟩⟩
    | ok _ => exact .inr (.inr ⟨rfl, h3.1, h3.2, _, rfl, .inr (.inl ⟨h6.1, h6.2, rfl⟩)⟩)
  · rw [if_neg h6]
    refine .inr (.inr ⟨rfl, h3.1, h3.2, s, rfl, .inr (.inr ⟨fun hr => ?_, rfl, ?_⟩)⟩)
    · rcases lt_trichotomy wanted s.heap.stop with h | h | h
      · exact absurd ⟨hr, h⟩ h6
      · exact h
      · exact absurd ⟨hr, h⟩ h5
    · intro hw r hr ho
      exact h4 ⟨hw, List.any_eq_true.mpr ⟨r, hr, ho⟩⟩

theorem registerRange_rest (s : VmaStore) (spec : VmaRegion) (g : Grants) :
    (s.registerRange spec g).store
      = { s with regions := (s.registerRange spec g).store.regions } := by
  rcases registerRange_cases s spec g with ⟨_, _, hstore⟩ | ⟨_, hstore, _⟩ <;> rw [hstore]

theorem unregisterRange_recorded (h : s.heapRecorded = true) :
    (s.unregisterRange start stop g).store.heapRecorded = true := by
  rcases unregisterRange_cases s start stop g with ⟨_, _, hstart⟩ | ⟨_, g', heq⟩
  · rw [hstart]
    exact h
  rw [heq]
  unfold unregisterChain filedFor
  split
  · rfl
  · exact h

/-- A recorded heap is only a pair of bounds: settling it changes no span. -/
theorem settleHeap_spans {wanted target : ℕ} (h : s.heapRecorded = true) :
    (s.settleHeap wanted target).spans = s.spans := by
  simp [spans, heapLoose, settleHeap, h]

/-- A loose heap may be settled at `wanted` when nothing on the chain meets the
stretch it grows by. -/
theorem Sound.settleHeap (hs : s.Sound) {wanted target : ℕ}
    (hfree : wanted > s.heap.stop → ∀ r ∈ s.regions, ¬ overlapsSpan r s.heap.stop wanted = true) :
    (s.settleHeap wanted target).Sound := by
  refine ⟨?_, hs.heapOffset⟩
  have hchain : Tiled VmaRegion.start VmaRegion.stop s.regions :=
    hs.tiled.sublist (List.sublist_append_right _ _)
  by_cases hl : (s.settleHeap wanted target).heapLoose = true
  · obtain ⟨hr, hne⟩ := heapLoose_iff.mp hl
    have hspans : (s.settleHeap wanted target).spans =
        { s.heap with stop := wanted } :: s.regions := by
      rw [spans, if_pos hl]
      rfl
    rw [hspans, tiled_cons]
    refine ⟨hne, fun r hmem => ?_, hchain⟩
    have hr0 := hchain.nonempty r hmem
    have hne' : s.heap.start < wanted := hne
    -- the old part was apart already, and the new part was tested
    have hold : s.heap.start < s.heap.stop → s.heap.Apart r := fun hlt =>
      (tiled_append.mp hs.tiled).2.2 s.heap
        (by rw [if_pos (heapLoose_iff (s := s) |>.mpr ⟨hr, hlt⟩)]; simp) r hmem
    have hnew : wanted > s.heap.stop → wanted ≤ r.start ∨ r.stop ≤ s.heap.stop := by
      intro hgt
      have := hfree hgt r hmem
      rw [overlapsSpan_iff, not_and_or, not_lt, not_lt] at this
      exact this
    simp only [Spans.Apart] at hold ⊢
    omega
  · have hspans : (s.settleHeap wanted target).spans = s.regions := by
      rw [spans, if_neg hl]
      rfl
    rw [hspans]
    exact hchain

theorem Sound.settleHeap_recorded (hs : s.Sound) (hrec : s.heapRecorded = true)
    (wanted target : ℕ) :
    (s.settleHeap wanted target).Sound :=
  ⟨by rw [settleHeap_spans hrec]; exact hs.tiled, hs.heapOffset⟩

theorem Sound.moveHeapEnd (hs : s.Sound) (target : ℕ) (g : Grants) :
    (s.moveHeapEnd target g).store.Sound := by
  rcases moveHeapEnd_cases s target g with ⟨e, _, hstore | ⟨_, hstore⟩⟩ | ⟨_, hstore⟩ |
    ⟨_, _, _, t, hstore, ht⟩
  · rw [hstore]
    exact hs
  · rw [hstore]
    exact hs.unregisterRange _ _ _
  · rw [hstore]
    exact hs
  · rw [hstore]
    rcases ht with ⟨hrec, _, rfl⟩ | ⟨hrec, _, rfl⟩ | ⟨hrec, rfl, hfree⟩
    · exact (hs.registerRange _ _).settleHeap_recorded
        (by rw [s.registerRange_rest]; exact hrec) _ _
    · exact (hs.unregisterRange _ _ _).settleHeap_recorded (unregisterRange_recorded hrec) _ _
    · exact hs.settleHeap hfree

/-! ### The copy -/

/-- One turn of the loop of `clone`: the attachment was granted and the region
filed. -/
theorem cloneRegions_step {scan : VmaRegion} {rest : List VmaRegion} {copy copy' : VmaStore}
    {g g' : Grants} (h : cloneRegions (scan :: rest) copy g = (some copy', g')) :
    ∃ attached g₁ g₂, attachmentFor copy scan g = (some attached, g₁) ∧
      (copy.registerRange { scan with shared := attached } g₁).result = .ok () ∧
      cloneRegions rest
        { copy with regions := copy.regions ++ [born { scan with shared := attached }] } g₂
          = (some copy', g') := by
  rw [cloneRegions] at h
  rcases ha : attachmentFor copy scan g with ⟨_ | attached, g₁⟩
  · rw [ha] at h
    nomatch h
  rw [ha] at h
  dsimp only at h
  rcases registerRange_cases copy { scan with shared := attached } g₁ with
    ⟨e, he, _⟩ | ⟨hok, hstate, _⟩
  · rw [he] at h
    nomatch h
  · rw [hok, hstate] at h
    exact ⟨attached, g₁, _, rfl, hok, h⟩

theorem Sound.cloneRegions : ∀ {todo : List VmaRegion} {copy copy' : VmaStore} {g g' : Grants},
    copy.Sound → VmaStore.cloneRegions todo copy g = (some copy', g') → copy'.Sound := by
  intro todo
  induction todo with
  | nil =>
    intro copy copy' g g' hs h
    simp only [VmaStore.cloneRegions, Prod.mk.injEq, Option.some.injEq] at h
    exact h.1 ▸ hs
  | cons scan rest ih =>
    intro copy copy' g g' hs h
    obtain ⟨attached, g₁, g₂, _, hok, hregion⟩ := cloneRegions_step h
    refine ih ?_ hregion
    have := hs.registerRange { scan with shared := attached } g₁
    rcases registerRange_cases copy { scan with shared := attached } g₁ with
      ⟨e, he, _⟩ | ⟨_, hstate, _⟩
    · rw [he] at hok
      nomatch hok
    · rwa [hstate] at this

/-- The store `clone` starts from: the heap and the ceilings, and no chain. -/
def blankCopy (s : VmaStore) : VmaStore := { s with regions := [] }

theorem clone_some {c : VmaStore} (h : (s.clone g).1 = some c) :
    ∃ g₁ g', VmaStore.cloneRegions s.regions s.blankCopy g₁ = (some c, g') := by
  unfold clone at h
  split at h
  · exact ⟨_, _, Prod.ext h rfl⟩
  · nomatch h

theorem Sound.dropRegions (hs : s.Sound) : ({ s with regions := [] } : VmaStore).Sound := by
  refine ⟨hs.tiled.sublist ?_, hs.heapOffset⟩
  unfold spans
  exact List.Sublist.append_left (List.nil_sublist _) _

theorem Sound.clone (hs : s.Sound) {c : VmaStore} (h : (s.clone g).1 = some c) :
    c.Sound := by
  obtain ⟨g₁, g', hc⟩ := clone_some h
  exact Sound.cloneRegions hs.dropRegions hc

/-! ### Runs -/

theorem sound_empty : ({} : VmaStore).Sound := ⟨tiled_nil, rfl⟩

theorem Sound.seedHeap (hs : s.Sound) (base max : ℕ) : (s.seedHeap base max).Sound := by
  refine ⟨hs.tiled.sublist ?_, rfl⟩
  -- a heap just seeded is empty, whatever it was before
  have hspans : (s.seedHeap base max).spans = s.regions := by
    simp [spans, heapLoose, VmaStore.seedHeap]
  rw [hspans]
  exact List.sublist_append_right _ _

theorem Sound.after (hs : s.Sound) (g : Grants) (call : VmaCall) : (s.after g call).Sound := by
  cases call with
  | registerRange spec => exact hs.registerRange spec g
  | unregisterRange start stop => exact hs.unregisterRange start stop g
  | protect start stop terms => exact hs.protect start stop terms g
  | moveHeapEnd target => exact hs.moveHeapEnd target g
  | clone =>
    cases h : (s.clone g).1 with
    | none => simpa [VmaStore.after, h] using hs
    | some c => simpa [VmaStore.after, h] using hs.clone h
  | seedHeap base max => exact hs.seedHeap base max
  | setMmapCeiling ceiling => exact ⟨hs.tiled, hs.heapOffset⟩
  | teardown => exact hs.dropRegions

theorem Sound.run : ∀ (calls : List (VmaCall × Grants)) {s : VmaStore}, s.Sound →
    (s.run calls).Sound
  | [], _, hs => hs
  | (call, g) :: calls, _, hs => Sound.run calls (hs.after g call)

/-- Every store a run of calls reaches from the empty store is sound. -/
theorem run_sound (calls : List (VmaCall × Grants)) : (run {} calls).Sound :=
  Sound.run calls sound_empty

/-- Along every run of the register the chain and the loose heap are non-empty
and pairwise disjoint, so at most one of them covers an address, and `find`
names it. -/
theorem run_disjoint (calls : List (VmaCall × Grants)) :
    (∀ r ∈ (run {} calls).spans, r.start < r.stop) ∧
    (run {} calls).spans.Pairwise VmaRegion.Apart ∧
    ∀ a, ((run {} calls).spans.filter (covers · a)).length ≤ 1 ∧
      ∀ r, (run {} calls).find a = some r ↔ r ∈ (run {} calls).spans ∧ covers r a = true := by
  have hs := run_sound calls
  refine ⟨hs.tiled.nonempty, hs.tiled.apart, fun a => ⟨?_, fun r => ?_⟩⟩
  · simp only [covers_eq_decide]
    exact hs.tiled.filter_length_le_one a
  · rw [hs.find_eq_some, covers_iff]

/-! ### Refused calls -/

/-- The register answers `find` and `heap_end` as before. -/
def Unchanged (s t : VmaStore) : Prop := (∀ a, t.find a = s.find a) ∧ t.heapEnd = s.heapEnd

theorem unchanged_of_eq {t : VmaStore} (h : t = s) : s.Unchanged t := by
  subst h
  exact ⟨fun _ => rfl, rfl⟩

theorem Sound.unregisterRange_unchanged (hs : s.Sound)
    (h : (s.unregisterRange start stop g).result = .error e) :
    s.Unchanged (s.unregisterRange start stop g).store :=
  ⟨fun a => by
    rw [find_eq_lookup, find_eq_lookup, hs.tiled.lookup_perm (hs.unregisterRange_error h).symm],
    by rw [s.unregisterRange_rest]; rfl⟩

theorem Sound.moveHeapEnd_unchanged (hs : s.Sound) {target : ℕ}
    (h : (s.moveHeapEnd target g).result = .error e) :
    s.Unchanged (s.moveHeapEnd target g).store := by
  rcases moveHeapEnd_cases s target g with ⟨_, _, hstore | ⟨he, hstore⟩⟩ | ⟨hok, _⟩ | ⟨hok, _⟩
  · exact unchanged_of_eq hstore
  · rw [hstore]
    exact hs.unregisterRange_unchanged he
  · rw [hok] at h
    nomatch h
  · rw [hok] at h
    nomatch h

theorem Sound.protect_unchanged (hs : s.Sound) {terms : VmaProtection}
    (h : (s.protect start stop terms g).result = .error e) :
    s.Unchanged (s.protect start stop terms g).store := by
  rcases hs.protect_cases start stop terms g with ⟨_, _, hstart⟩ | ⟨hok, _⟩
  · exact unchanged_of_eq hstart
  · rw [hok] at h
    nomatch h

/-- A call that is refused leaves every answer of `find` and the break, in every
store a run reaches and for every pattern of refused allocations. -/
theorem refused_unchanged (calls : List (VmaCall × Grants)) (g : Grants) (e : KernelError) :
    (∀ spec, ((run {} calls).registerRange spec g).result = .error e →
      (run {} calls).Unchanged ((run {} calls).registerRange spec g).store) ∧
    (∀ start stop, ((run {} calls).unregisterRange start stop g).result = .error e →
      (run {} calls).Unchanged ((run {} calls).unregisterRange start stop g).store) ∧
    (∀ start stop terms, ((run {} calls).protect start stop terms g).result = .error e →
      (run {} calls).Unchanged ((run {} calls).protect start stop terms g).store) ∧
    (∀ target, ((run {} calls).moveHeapEnd target g).result = .error e →
      (run {} calls).Unchanged ((run {} calls).moveHeapEnd target g).store) := by
  have hs := run_sound calls
  exact ⟨fun _ h => unchanged_of_eq (registerRange_error h),
    fun _ _ h => hs.unregisterRange_unchanged h, fun _ _ _ h => hs.protect_unchanged h,
    fun _ h => hs.moveHeapEnd_unchanged h⟩

/-- A stretch inside a seeded heap that cannot be split for want of a region:
the heap is filed on the chain all the same, and no answer changes. -/
theorem refused_unchanged_split :
    ((run {} [(.seedHeap 0x10000 0x100000, []), (.moveHeapEnd 0x14000, [])]).unregisterRange
        0x11000 0x12000 [true, false]).result = .error .outOfMemory ∧
    (run {} [(.seedHeap 0x10000 0x100000, []), (.moveHeapEnd 0x14000, [])]).Unchanged
      ((run {} [(.seedHeap 0x10000 0x100000, []), (.moveHeapEnd 0x14000, [])]).unregisterRange
        0x11000 0x12000 [true, false]).store :=
  ⟨rfl, (refused_unchanged [(.seedHeap 0x10000 0x100000, []), (.moveHeapEnd 0x14000, [])]
    [true, false] .outOfMemory).2.1 0x11000 0x12000 rfl⟩

end VmaStore

end Cinux
