/-
What the register promises at an address.

The purpose of the register is a partial map from addresses to promises: what
stands behind the address, under which terms, and where in its backing.  How
the map is cut into regions, and whether the heap is on the chain, is not part
of it.  `VmaStore.view` reads the map off a store, and each operation is one
pointwise law on it:

* `registerRange_view` — the stretch gains the promise, nothing else changes;
* `unregisterRange_view` — the stretch is emptied, nothing else changes;
* `protect_view` — the stretch changes its terms, nothing else changes.

`withdraw_protect_pointwise` states the last two for every store a run reaches,
with the condition under which `protect` succeeds.
-/
import Cinux.VmaRuns

namespace Cinux

open Option
open Spans (Tiled lookup lookup_append lookup_eq_none lookup_singleton_of_covers)

/-- What an address is promised. -/
structure Promise where
  kind : VmaKind
  terms : VmaProtection
  backing : FileBacking
  shared : Option SharedAttachment
  position : ℕ
  stackFloor : ℕ
deriving DecidableEq

/-- The terms of a region. -/
def VmaRegion.terms (r : VmaRegion) : VmaProtection := ⟨r.readable, r.writable, r.executable⟩

/-- What a region promises at one of its addresses; the position in the backing
walks along with the address. -/
def VmaRegion.promise (r : VmaRegion) (a : ℕ) : Promise :=
  { kind := r.kind
    terms := r.terms
    backing := r.backing
    shared := r.shared
    position := wrap (r.fileOffset + (a - r.start))
    stackFloor := r.stackFloor }

variable {start stop : ℕ} {r : VmaRegion} {terms : VmaProtection} {g : Grants}

namespace VmaStore

variable {s : VmaStore}

/-- The map the register stands for. -/
def view (s : VmaStore) (a : ℕ) : Option Promise := (s.find a).map (·.promise a)

/-! ### Pieces of one region -/

/-- Walking the offset to a later start and then to the address is walking it
to the address. -/
theorem position_shift {offset start low a : ℕ} (h1 : start ≤ low) (h2 : low ≤ a) :
    wrap (wrap (offset + (low - start)) + (a - low)) = wrap (offset + (a - start)) := by
  rw [wrap_add_wrap]
  congr 1
  omega

theorem protectedPart_promise {i low high a : ℕ} (h1 : r.start ≤ low) (h2 : low ≤ a) :
    (protectedPart r terms i low high).promise a
      = if i = 1 then { r.promise a with terms := terms } else r.promise a := by
  unfold protectedPart
  split
  · simp only [VmaRegion.promise, position_shift h1 h2]
    rfl
  · simp only [VmaRegion.promise, position_shift h1 h2]
    rfl

/-- Inside the stretch nothing is left of a clipped region, outside of it the
promise stands. -/
theorem clip_view (hlt : start < stop) {a : ℕ} (hc : r.Covers a) :
    (lookup VmaRegion.start VmaRegion.stop (clip start stop r) a).map (·.promise a)
      = if start ≤ a ∧ a < stop then none else some (r.promise a) := by
  obtain ⟨hc1, hc2⟩ := hc
  have ht : Tiled VmaRegion.start VmaRegion.stop (clip start stop r) :=
    clip_tiled hlt (lt_of_le_of_lt hc1 hc2)
  by_cases hin : start ≤ a ∧ a < stop
  · have ho : overlapsSpan r start stop = true := overlapsSpan_iff.mpr ⟨by omega, by omega⟩
    rw [if_pos hin, map_eq_none_iff, lookup_eq_none]
    intro t hmem
    rw [clip, if_pos ho, List.mem_append] at hmem
    rcases hmem with hmem | hmem
    · split at hmem
      · rw [List.mem_singleton.mp hmem]
        rintro ⟨_, h2⟩
        have : a < start := h2
        omega
      · simp at hmem
    · split at hmem
      · rw [List.mem_singleton.mp hmem]
        rintro ⟨h1, _⟩
        have : stop ≤ a := h1
        omega
      · simp at hmem
  · rw [if_neg hin]
    by_cases ho : overlapsSpan r start stop = true
    · rw [overlapsSpan_iff] at ho
      by_cases ha : a < start
      · -- below the stretch: the head piece answers
        have hmem : headPiece start r ∈ clip start stop r := by
          have : r.start < start := by omega
          simp [clip, overlapsSpan_iff.mpr ho, this]
        rw [ht.lookup_eq_some.mpr ⟨hmem, hc1, ha⟩]
        rfl
      · -- above the stretch: the tail piece answers
        have hmem : tailPiece stop r ∈ clip start stop r := by
          have : r.stop > stop := by omega
          simp [clip, overlapsSpan_iff.mpr ho, this]
        have hstop : stop ≤ a := by omega
        rw [ht.lookup_eq_some.mpr ⟨hmem, hstop, hc2⟩, map_some]
        simp only [VmaRegion.promise, tailPiece, position_shift (le_of_lt ho.1) hstop]
        rfl
    · rw [clip_of_not_overlaps (by simpa using ho), lookup_singleton_of_covers ⟨hc1, hc2⟩]
      rfl

/-- A recut region promises the new terms inside the stretch and what it
promised outside of it. -/
theorem recut_view (hlt : start < stop) {a : ℕ} (hc : r.Covers a) :
    (lookup VmaRegion.start VmaRegion.stop (recut start stop terms r) a).map (·.promise a)
      = some
        (if start ≤ a ∧ a < stop then { r.promise a with terms := terms } else r.promise a) := by
  obtain ⟨hc1, hc2⟩ := hc
  have ht : Tiled VmaRegion.start VmaRegion.stop (recut start stop terms r) :=
    recut_tiled hlt (lt_of_le_of_lt hc1 hc2)
  by_cases ho : overlapsSpan r start stop = true
  · -- the part of the three that covers the address answers
    have key : ∀ i low high, (i, low, high) ∈ [(0, r.start, max start r.start),
          (1, max start r.start, min stop r.stop), (2, min stop r.stop, r.stop)] →
        low ≤ a → a < high →
        (lookup VmaRegion.start VmaRegion.stop (recut start stop terms r) a).map (·.promise a)
          = some (if i = 1 then { r.promise a with terms := terms } else r.promise a) := by
      intro i low high hcut h1 h2
      have hmem : protectedPart r terms i low high ∈ recut start stop terms r := by
        rw [recut, if_pos ho]
        refine List.mem_filterMap.mpr ⟨(i, low, high), hcut, ?_⟩
        simp only
        rw [if_neg (by omega)]
      have hlow : r.start ≤ low := by
        rw [overlapsSpan_iff] at ho
        simp only [List.mem_cons, List.not_mem_nil, or_false] at hcut
        rcases hcut with ⟨-, rfl, rfl⟩ | ⟨-, rfl, rfl⟩ | ⟨-, rfl, rfl⟩ <;> omega
      rw [ht.lookup_eq_some.mpr ⟨hmem, by simpa using h1, by simpa using h2⟩, map_some,
        protectedPart_promise hlow h1]
    by_cases h1 : a < start
    · rw [key 0 r.start (max start r.start) (by simp) hc1 (by omega), if_neg (by omega),
        if_neg (by omega)]
    by_cases h2 : a < stop
    · rw [key 1 (max start r.start) (min stop r.stop) (by simp) (by omega) (by omega), if_pos rfl,
        if_pos ⟨by omega, h2⟩]
    · rw [key 2 (min stop r.stop) r.stop (by simp) (by omega) hc2, if_neg (by omega),
        if_neg (by omega)]
  · have hout : ¬ (start ≤ a ∧ a < stop) := by
      rw [overlapsSpan_iff] at ho
      omega
    rw [recut, if_neg ho, lookup_singleton_of_covers ⟨hc1, hc2⟩, if_neg hout]
    rfl

/-! ### The pointwise laws -/

/-- A store whose spans are pieces of another's promises what the pieces do. -/
theorem Sound.view_flatMap {t : VmaStore} {f : VmaRegion → List VmaRegion} (hs : s.Sound)
    (hf : ∀ r ∈ s.spans, Tiled VmaRegion.start VmaRegion.stop (f r))
    (hin : ∀ r ∈ s.spans, ∀ p ∈ f r, Spans.Within VmaRegion.start VmaRegion.stop r p)
    (hp : t.spans.Perm (s.spans.flatMap f)) (a : ℕ) :
    t.view a = (s.find a).bind fun r =>
      (lookup VmaRegion.start VmaRegion.stop (f r) a).map (·.promise a) := by
  have ht := (hs.tiled.flatMap hf hin).perm hp.symm
  rw [view, find_eq_lookup, ht.lookup_perm hp, hs.tiled.lookup_flatMap hf hin, ← find_eq_lookup,
    map_bind]
  rfl

theorem Sound.unregisterRange_view (hs : s.Sound)
    (h : (s.unregisterRange start stop g).result = .ok ()) (a : ℕ) :
    (s.unregisterRange start stop g).store.view a
      = if start ≤ a ∧ a < stop then none else s.view a := by
  obtain ⟨hlt, hp⟩ := unregisterRange_ok h
  rw [hs.view_flatMap (fun r hr => clip_tiled hlt (hs.tiled.nonempty r hr))
    (fun _ _ _ ht => clip_within ht) hp, view]
  cases hf : s.find a with
  | none => simp
  | some r =>
    rw [bind_some, clip_view hlt (hs.find_eq_some.mp hf).2]
    rfl

theorem Sound.protect_view (hs : s.Sound) (h : (s.protect start stop terms g).result = .ok ())
    (a : ℕ) :
    (s.protect start stop terms g).store.view a = (s.view a).map fun p =>
      if start ≤ a ∧ a < stop then { p with terms := terms } else p := by
  rcases hs.protect_cases start stop terms g with ⟨e, he, _⟩ | ⟨_, hlt, _, _, hp⟩
  · rw [he] at h
    nomatch h
  rw [hs.view_flatMap (fun r hr => recut_tiled hlt (hs.tiled.nonempty r hr))
    (fun _ _ _ ht => recut_within ht) hp, view]
  cases hf : s.find a with
  | none => rfl
  | some r =>
    rw [bind_some, recut_view hlt (hs.find_eq_some.mp hf).2]
    rfl

theorem Sound.registerRange_view (hs : s.Sound) {spec : VmaRegion}
    (h : (s.registerRange spec g).result = .ok ()) (a : ℕ) :
    (s.registerRange spec g).store.view a
      = if spec.start ≤ a ∧ a < spec.stop then some ((born spec).promise a) else s.view a := by
  rcases registerRange_cases s spec g with ⟨e, he, _⟩ | ⟨_, hstart, _, hap⟩
  · rw [he] at h
    nomatch h
  have hs' := hs.registerRange spec g
  rw [hstart] at hs' ⊢
  have hspans := s.spans_append_region (born spec)
  by_cases hin : spec.start ≤ a ∧ a < spec.stop
  · have hmem : born spec ∈ { s with regions := s.regions ++ [born spec] }.spans := by
      rw [hspans]
      simp
    rw [if_pos hin, view, hs'.find_eq_some.mpr ⟨hmem, by simpa using hin.1, by simpa using hin.2⟩]
    rfl
  · rw [if_neg hin, view, view, find_eq_lookup, find_eq_lookup, hspans, lookup_append]
    rw [Spans.lookup_singleton_of_not_covers (by simpa [Spans.Covers] using hin), or_none]

/-- `unregister_range` empties exactly its stretch, `protect` rewrites the terms
of exactly its stretch, and with nothing refused `protect` succeeds exactly when
the whole stretch is covered. -/
theorem withdraw_protect_pointwise (calls : List (VmaCall × Grants)) (start stop : ℕ)
    (hlt : start < stop) (g : Grants) (terms : VmaProtection) :
    (((run {} calls).unregisterRange start stop g).result = .ok () →
      ∀ a, ((run {} calls).unregisterRange start stop g).store.view a
        = if start ≤ a ∧ a < stop then none else (run {} calls).view a) ∧
    (((run {} calls).protect start stop terms g).result = .ok () →
      ∀ a, ((run {} calls).protect start stop terms g).store.view a
        = ((run {} calls).view a).map fun p =>
            if start ≤ a ∧ a < stop then { p with terms := terms } else p) ∧
    (Granted g →
      (((run {} calls).protect start stop terms g).result = .ok () ↔
        ∀ a, start ≤ a → a < stop → ((run {} calls).find a).isSome = true)) := by
  have hs := run_sound calls
  refine ⟨fun h => hs.unregisterRange_view h, fun h => hs.protect_view h, fun hg => ?_⟩
  rw [protect_ok_iff hg, spanKnown_iff hs]
  exact and_iff_right hlt

/-- Two adjoining mappings of files. -/
def twoFiles : List (VmaCall × Grants) :=
  [(.registerRange { start := 0x1000, stop := 0x3000, kind := .file }, []),
    (.registerRange { start := 0x3000, stop := 0x6000, kind := .file, fileOffset := 7 }, [])]

/-- A stretch across the seam of two files, withdrawn and protected. -/
theorem withdraw_protect_two_files :
    ((run {} twoFiles).unregisterRange 0x2000 0x4000 []).result = .ok () ∧
    (∀ a, ((run {} twoFiles).unregisterRange 0x2000 0x4000 []).store.view a
      = if 0x2000 ≤ a ∧ a < 0x4000 then none else (run {} twoFiles).view a) ∧
    ((run {} twoFiles).protect 0x2000 0x4000 { readable := true } []).result = .ok () ∧
    (∀ a, ((run {} twoFiles).protect 0x2000 0x4000 { readable := true } []).store.view a
      = ((run {} twoFiles).view a).map fun p =>
          if 0x2000 ≤ a ∧ a < 0x4000 then { p with terms := { readable := true } } else p) ∧
    ∀ a, 0x2000 ≤ a → a < 0x4000 → ((run {} twoFiles).find a).isSome = true := by
  have hp : ((run {} twoFiles).protect 0x2000 0x4000 { readable := true } []).result = .ok () := by
    decide +kernel
  obtain ⟨h1, h2, h3⟩ := withdraw_protect_pointwise twoFiles 0x2000 0x4000 (by decide) []
    { readable := true }
  exact ⟨rfl, h1 rfl, hp, h2 hp, (h3 (by simp [Granted])).mp hp⟩

end VmaStore

end Cinux
