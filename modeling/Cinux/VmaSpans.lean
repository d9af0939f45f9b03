/-
The register as a tiled list of spans.

`VmaStore.spans` lists the chain together with the heap while the heap is off
the chain.  An operation of the register is described once, by what it does to
that list up to order; `find` is then `Spans.lookup` (`find_eq_lookup`).

* `registerRange_cases` — nothing, or one more span apart from all others;
* `unregisterRange_ok`, `Sound.unregisterRange_error` — every span is clipped
  to what lies outside the stretch, or nothing changes.

`Sound` is the invariant of the register; `VmaProtect.lean` and `VmaRuns.lean`
carry it through the remaining operations and along runs.
-/
import Cinux.Spans
import Cinux.VmaStore

namespace Cinux

open Spans (Tiled lookup lookup_append lookup_eq_none lookup_singleton_of_covers
  lookup_singleton_of_not_covers tiled_nil tiled_cons tiled_append Within)

/-! ### Regions as spans -/

/-- The region covers the address. -/
abbrev VmaRegion.Covers (r : VmaRegion) (a : ℕ) : Prop :=
  Spans.Covers VmaRegion.start VmaRegion.stop r a

/-- The two regions share no address. -/
abbrev VmaRegion.Apart (r t : VmaRegion) : Prop :=
  Spans.Apart VmaRegion.start VmaRegion.stop r t

variable {r : VmaRegion} {g : Grants} {e : KernelError}

theorem covers_iff {a : ℕ} : covers r a = true ↔ r.Covers a := by
  simp [covers, Spans.Covers]

theorem covers_eq_decide (r : VmaRegion) (a : ℕ) : covers r a = decide (r.Covers a) := by
  rw [Bool.eq_iff_iff, covers_iff, decide_eq_true_iff]

variable {start stop : ℕ}

theorem overlapsSpan_iff : overlapsSpan r start stop = true ↔ r.start < stop ∧ start < r.stop := by
  simp [overlapsSpan]

theorem apart_of_not_overlaps {r t : VmaRegion} (h : ¬ overlaps r t = true) : t.Apart r := by
  rw [overlaps, Bool.and_eq_true, decide_eq_true_iff, decide_eq_true_iff, not_and_or, not_lt,
    not_lt] at h
  exact h

@[simp] theorem born_start (spec : VmaRegion) : (VmaStore.born spec).start = spec.start := by
  unfold VmaStore.born; split <;> rfl

@[simp] theorem born_stop (spec : VmaRegion) : (VmaStore.born spec).stop = spec.stop := by
  unfold VmaStore.born; split <;> rfl

namespace VmaStore

variable {s : VmaStore}

/-- The chain, together with the heap while it is off the chain and not
empty. -/
def spans (s : VmaStore) : List VmaRegion :=
  (if s.heapLoose then [s.heap] else []) ++ s.regions

/-- The register is sound: its spans are non-empty and pairwise apart, and the
heap has no file behind it. -/
structure Sound (s : VmaStore) : Prop where
  tiled : Tiled VmaRegion.start VmaRegion.stop s.spans
  heapOffset : s.heap.fileOffset = 0

theorem heapLoose_iff :
    s.heapLoose = true ↔ s.heapRecorded = false ∧ s.heap.start < s.heap.stop := by
  simp [heapLoose]

theorem mem_spans : r ∈ s.spans ↔ (s.heapLoose = true ∧ r = s.heap) ∨ r ∈ s.regions := by
  unfold spans
  by_cases h : s.heapLoose = true <;> simp [h]

theorem find_eq_lookup (s : VmaStore) (a : ℕ) :
    s.find a = lookup VmaRegion.start VmaRegion.stop s.spans a := by
  have hchain :
      s.regions.find? (covers · a) = lookup VmaRegion.start VmaRegion.stop s.regions a := by
    simp only [lookup, covers_eq_decide]
  unfold find spans
  rw [lookup_append, hchain]
  by_cases hrec : s.heapRecorded = true
  · simp [heapLoose, hrec, lookup]
  by_cases hc : s.heap.Covers a
  · -- a heap that covers a point is not empty, so it is listed
    have hloose : s.heapLoose = true :=
      heapLoose_iff.mpr ⟨by simpa using hrec, lt_of_le_of_lt hc.1 hc.2⟩
    simp [hrec, covers_iff.mpr hc, hloose, lookup_singleton_of_covers hc]
  have hno : lookup VmaRegion.start VmaRegion.stop (if s.heapLoose then [s.heap] else []) a
      = none := by
    split
    · exact lookup_singleton_of_not_covers hc
    · rfl
  have hcov : covers s.heap a = false := Bool.eq_false_iff.mpr (mt covers_iff.mp hc)
  simp [hcov, hno]

theorem Sound.find_eq_some (h : s.Sound) {a : ℕ} :
    s.find a = some r ↔ r ∈ s.spans ∧ r.Covers a := by
  rw [find_eq_lookup, h.tiled.lookup_eq_some]

theorem find_eq_none {a : ℕ} : s.find a = none ↔ ∀ r ∈ s.spans, ¬ r.Covers a := by
  rw [find_eq_lookup, lookup_eq_none]

/-! ### `register_range` -/

theorem registerRange_cases (s : VmaStore) (spec : VmaRegion) (g : Grants) :
    (∃ e, (s.registerRange spec g).result = .error e ∧ (s.registerRange spec g).store = s) ∨
    ((s.registerRange spec g).result = .ok () ∧
      (s.registerRange spec g).store = { s with regions := s.regions ++ [born spec] } ∧
      spec.start < spec.stop ∧
      ∀ r ∈ s.spans, spec.Apart r) := by
  unfold registerRange
  by_cases h1 : spec.start ≥ spec.stop
  · rw [if_pos h1]
    exact .inl ⟨_, rfl, rfl⟩
  rw [if_neg h1]
  by_cases h2 : (s.heapLoose && overlaps s.heap spec) = true
  · rw [if_pos h2]
    exact .inl ⟨_, rfl, rfl⟩
  rw [if_neg h2]
  by_cases h3 : s.regions.any (overlaps · spec) = true
  · rw [if_pos h3]
    exact .inl ⟨_, rfl, rfl⟩
  rw [if_neg h3]
  by_cases h4 : (grant g).1 = true
  · rw [if_pos h4]
    refine .inr ⟨rfl, rfl, not_le.mp h1, fun r hr => ?_⟩
    rcases mem_spans.mp hr with ⟨hl, rfl⟩ | hr
    · exact apart_of_not_overlaps fun ho => h2 (by simp [hl, ho])
    · exact apart_of_not_overlaps fun ho => h3 (List.any_eq_true.mpr ⟨r, hr, ho⟩)
  · rw [if_neg h4]
    exact .inl ⟨_, rfl, rfl⟩

theorem registerRange_error {spec : VmaRegion} (h : (s.registerRange spec g).result = .error e) :
    (s.registerRange spec g).store = s := by
  rcases registerRange_cases s spec g with ⟨_, _, hs⟩ | ⟨hok, _⟩
  · exact hs
  · rw [hok] at h
    nomatch h

theorem spans_append_region (s : VmaStore) (r : VmaRegion) :
    { s with regions := s.regions ++ [r] }.spans = s.spans ++ [r] := by
  simp [spans, heapLoose]

theorem Sound.registerRange (h : s.Sound) (spec : VmaRegion) (g : Grants) :
    (s.registerRange spec g).store.Sound := by
  rcases registerRange_cases s spec g with ⟨_, _, hs⟩ | ⟨_, hs, hne, hap⟩
  · rw [hs]
    exact h
  rw [hs]
  refine ⟨?_, h.heapOffset⟩
  rw [spans_append_region, tiled_append]
  refine ⟨h.tiled, tiled_cons.mpr ⟨by simpa using hne, by simp, tiled_nil⟩, fun r hr t ht => ?_⟩
  rw [List.mem_singleton] at ht
  subst ht
  have := (hap r hr).symm
  simpa [VmaRegion.Apart, Spans.Apart] using this

/-! ### `unregister_range` -/

/-- What is left of a region below the stretch. -/
def headPiece (start : ℕ) (r : VmaRegion) : VmaRegion := { r with stop := start }

/-- What is left of a region above the stretch; the file offset walks along. -/
def tailPiece (stop : ℕ) (r : VmaRegion) : VmaRegion :=
  { r with start := stop, fileOffset := wrap (r.fileOffset + (stop - r.start)) }

/-- What `unregister_range` leaves of one region. -/
def clip (start stop : ℕ) (r : VmaRegion) : List VmaRegion :=
  if overlapsSpan r start stop then
    (if r.start < start then [headPiece start r] else []) ++
      (if r.stop > stop then [tailPiece stop r] else [])
  else [r]

theorem clip_of_not_overlaps (h : overlapsSpan r start stop = false) : clip start stop r = [r] := by
  simp [clip, h]

theorem clip_within {r t : VmaRegion} (ht : t ∈ clip start stop r) :
    Within VmaRegion.start VmaRegion.stop r t := by
  unfold clip at ht
  by_cases ho : overlapsSpan r start stop = true
  · rw [if_pos ho] at ht
    rw [overlapsSpan_iff] at ho
    rcases List.mem_append.mp ht with ht | ht
    · split at ht
      · rw [List.mem_singleton.mp ht]
        exact ⟨le_refl _, le_of_lt ho.2⟩
      · simp at ht
    · split at ht
      · rw [List.mem_singleton.mp ht]
        exact ⟨le_of_lt ho.1, le_refl _⟩
      · simp at ht
  · rw [if_neg ho] at ht
    rw [List.mem_singleton.mp ht]
    exact ⟨le_refl _, le_refl _⟩

theorem clip_tiled (hlt : start < stop) (hr : r.start < r.stop) :
    Tiled VmaRegion.start VmaRegion.stop (clip start stop r) := by
  unfold clip
  by_cases ho : overlapsSpan r start stop = true
  · rw [if_pos ho, tiled_append]
    refine ⟨?_, ?_, ?_⟩
    · split
      · exact tiled_cons.mpr ⟨by simpa [headPiece], by simp, tiled_nil⟩
      · exact tiled_nil
    · split
      · exact tiled_cons.mpr ⟨by simpa [tailPiece], by simp, tiled_nil⟩
      · exact tiled_nil
    · intro t ht u hu
      split at ht <;> split at hu <;> simp at ht hu
      subst ht hu
      exact .inl (le_of_lt hlt)
  · rw [if_neg ho]
    exact tiled_cons.mpr ⟨hr, by simp, tiled_nil⟩

/-- One step of the walk: it is refused at a region the stretch cuts on both
sides, or it goes on with the region clipped. -/
theorem unregisterLoop_step (start stop : ℕ) (scan : VmaRegion)
    (rest kept pushed : List VmaRegion) (g : Grants) :
    (scan.start < start ∧ scan.stop > stop ∧ unregisterLoop start stop (scan :: rest) kept pushed g
        = (.error .outOfMemory, kept ++ scan :: rest ++ pushed, (grant g).2)) ∨
    ∃ kept' pushed' g', (kept' ++ pushed').Perm (kept ++ pushed ++ clip start stop scan) ∧
      unregisterLoop start stop (scan :: rest) kept pushed g
        = unregisterLoop start stop rest kept' pushed' g' := by
  rw [unregisterLoop]
  by_cases ho : overlapsSpan scan start stop = true
  · rw [if_pos ho]
    -- the span cuts out the middle: the only case that needs a new record
    by_cases hb : scan.start < start ∧ scan.stop > stop
    · rw [if_pos hb]
      by_cases hg : (grant g).1 = true
      · rw [if_pos hg]
        refine .inr ⟨_, _, _, ?_, rfl⟩
        rw [show clip start stop scan = [headPiece start scan, tailPiece stop scan] by
          simp [clip, ho, hb.1, hb.2]]
        simp only [List.append_assoc, List.cons_append, List.nil_append]
        exact List.Perm.append_left kept List.perm_middle.symm
      · rw [if_neg hg]
        exact .inl ⟨hb.1, hb.2, rfl⟩
    · rw [if_neg hb]
      by_cases h1 : scan.start < start
      · rw [if_pos h1]
        have h2 : ¬ scan.stop > stop := fun h2 => hb ⟨h1, h2⟩
        refine .inr ⟨_, _, _, ?_, rfl⟩
        rw [show clip start stop scan = [headPiece start scan] by simp [clip, ho, h1, h2]]
        simp only [List.append_assoc]
        exact List.Perm.append_left kept List.perm_append_comm
      · rw [if_neg h1]
        by_cases h2 : scan.stop > stop
        · rw [if_pos h2]
          refine .inr ⟨_, _, _, ?_, rfl⟩
          rw [show clip start stop scan = [tailPiece stop scan] by simp [clip, ho, h1, h2]]
          simp only [List.append_assoc]
          exact List.Perm.append_left kept List.perm_append_comm
        · rw [if_neg h2]
          refine .inr ⟨_, _, _, ?_, rfl⟩
          rw [show clip start stop scan = [] by simp [clip, ho, h1, h2], List.append_nil]
  · rw [if_neg ho]
    refine .inr ⟨_, _, _, ?_, rfl⟩
    rw [clip_of_not_overlaps (by simpa using ho)]
    simp only [List.append_assoc]
    exact List.Perm.append_left kept List.perm_append_comm

/-- The walk, when every allocation it needs is granted: each region it visits
is clipped. -/
theorem unregisterLoop_ok : ∀ {todo kept pushed : List VmaRegion} {g : Grants},
    (unregisterLoop start stop todo kept pushed g).1 = .ok () →
    (unregisterLoop start stop todo kept pushed g).2.1.Perm
      (kept ++ pushed ++ todo.flatMap (clip start stop)) := by
  intro todo
  induction todo with
  | nil =>
    intro kept pushed g _
    simp [unregisterLoop]
  | cons scan rest ih =>
    intro kept pushed g h
    rcases unregisterLoop_step start stop scan rest kept pushed g with
      ⟨_, _, heq⟩ | ⟨kept', pushed', g', hp, heq⟩
    · rw [heq] at h
      nomatch h
    · rw [heq] at h ⊢
      rw [List.flatMap_cons, ← List.append_assoc]
      exact (ih h).trans (hp.append_right _)

/-- The walk, when it is refused: it stopped at a region that the stretch cuts
on both sides, having clipped the ones before. -/
theorem unregisterLoop_error : ∀ {todo kept pushed : List VmaRegion} {g : Grants},
    (unregisterLoop start stop todo kept pushed g).1 = .error e →
    ∃ pre scan post, todo = pre ++ scan :: post ∧ scan.start < start ∧ scan.stop > stop ∧
      (unregisterLoop start stop todo kept pushed g).2.1.Perm
        (kept ++ pushed ++ pre.flatMap (clip start stop) ++ scan :: post) := by
  intro todo
  induction todo with
  | nil =>
    intro kept pushed g h
    simp [unregisterLoop] at h
  | cons scan rest ih =>
    intro kept pushed g h
    rcases unregisterLoop_step start stop scan rest kept pushed g with
      ⟨h1, h2, heq⟩ | ⟨kept', pushed', g', hp, heq⟩
    · refine ⟨[], scan, rest, rfl, h1, h2, ?_⟩
      rw [heq]
      simp only [List.append_assoc]
      exact List.Perm.append_left kept List.perm_append_comm
    · rw [heq] at h ⊢
      obtain ⟨pre, sc, post, hrest, h1, h2, hperm⟩ := ih h
      refine ⟨scan :: pre, sc, post, by rw [hrest]; rfl, h1, h2, hperm.trans ?_⟩
      rw [List.flatMap_cons, ← List.append_assoc (kept ++ pushed)]
      exact (hp.append_right _).append_right _

/-- Nothing but the refused region meets the stretch, so the walk has changed
nothing when it is refused. -/
theorem flatMap_clip_of_apart {scan : VmaRegion} (h1 : scan.start < start) (h2 : scan.stop > stop) :
    ∀ {pre : List VmaRegion}, (∀ r ∈ pre, r.Apart scan) → pre.flatMap (clip start stop) = pre := by
  intro pre
  induction pre with
  | nil => intro _; rfl
  | cons r pre ih =>
    intro hap
    have hr : overlapsSpan r start stop = false := by
      rw [Bool.eq_false_iff]
      intro ho
      rw [overlapsSpan_iff] at ho
      rcases hap r (by simp) with h | h <;> omega
    rw [List.flatMap_cons, clip_of_not_overlaps hr, ih fun t ht => hap t (by simp [ht])]
    rfl

theorem unregisterChain_error (ht : Tiled VmaRegion.start VmaRegion.stop s.regions)
    (h : (s.unregisterChain start stop g).result = .error e) :
    (s.unregisterChain start stop g).store.regions.Perm s.regions := by
  obtain ⟨pre, scan, post, heq, h1, h2, hp⟩ := unregisterLoop_error h
  have hap : ∀ r ∈ pre, r.Apart scan := by
    rw [heq, tiled_append] at ht
    exact fun r hr => ht.2.2 r hr scan (by simp)
  rw [flatMap_clip_of_apart h1 h2 hap, List.nil_append, List.nil_append, ← heq] at hp
  exact hp

/-- The store `unregister_range` walks: a loose heap the stretch touches is on
the chain. -/
def filedFor (s : VmaStore) (start stop : ℕ) : VmaStore :=
  if s.heapLoose && overlapsSpan s.heap start stop then
    { s with regions := s.regions ++ [s.heap], heapRecorded := true }
  else s

theorem filedFor_spans (s : VmaStore) (start stop : ℕ) :
    (s.filedFor start stop).spans.Perm s.spans := by
  unfold filedFor
  split
  · rename_i h
    have hl : s.heapLoose = true := by simp at h; exact h.1
    unfold spans
    rw [if_pos hl]
    simp [heapLoose]
  · rfl

/-- After the heap question is settled the stretch meets no loose heap. -/
theorem filedFor_heap (h : (s.filedFor start stop).heapLoose = true) :
    s.filedFor start stop = s ∧ overlapsSpan s.heap start stop = false := by
  unfold filedFor at h ⊢
  split
  · rename_i hf
    rw [if_pos hf] at h
    simp [heapLoose] at h
  · rename_i hf
    rw [if_neg hf] at h
    exact ⟨rfl, by simpa [h] using hf⟩

theorem unregisterRange_cases (s : VmaStore) (start stop : ℕ) (g : Grants) :
    (∃ e, (s.unregisterRange start stop g).result = .error e ∧
      (s.unregisterRange start stop g).store = s) ∨
    (start < stop ∧ ∃ g', s.unregisterRange start stop g
      = (s.filedFor start stop).unregisterChain start stop g') := by
  unfold unregisterRange filedFor
  by_cases h1 : start ≥ stop
  · rw [if_pos h1]
    exact .inl ⟨_, rfl, rfl⟩
  rw [if_neg h1]
  by_cases h2 : (s.heapLoose && overlapsSpan s.heap start stop) = true
  · rw [if_pos h2, if_pos h2]
    by_cases h3 : (grant g).1 = true
    · rw [if_pos h3]
      exact .inr ⟨not_le.mp h1, _, rfl⟩
    · rw [if_neg h3]
      exact .inl ⟨_, rfl, rfl⟩
  · rw [if_neg h2, if_neg h2]
    exact .inr ⟨not_le.mp h1, _, rfl⟩

theorem unregisterChain_spans {regions : List VmaRegion}
    (hp : (s.unregisterChain start stop g).store.regions.Perm regions) :
    (s.unregisterChain start stop g).store.spans.Perm
      ((if s.heapLoose then [s.heap] else []) ++ regions) :=
  List.Perm.append_left _ hp

/-- A granted `unregister_range` clips every span. -/
theorem unregisterRange_ok (h : (s.unregisterRange start stop g).result = .ok ()) : start < stop ∧
    (s.unregisterRange start stop g).store.spans.Perm (s.spans.flatMap (clip start stop)) := by
  rcases unregisterRange_cases s start stop g with ⟨e, he, _⟩ | ⟨hlt, g', heq⟩
  · rw [he] at h
    nomatch h
  rw [heq] at h ⊢
  refine ⟨hlt, ?_⟩
  refine (unregisterChain_spans (by simpa [unregisterChain] using unregisterLoop_ok h)).trans ?_
  refine List.Perm.trans ?_ ((s.filedFor_spans start stop).flatMap_right (clip start stop))
  -- a heap still loose is not met by the stretch, so clipping leaves it alone
  unfold spans
  by_cases hl : (s.filedFor start stop).heapLoose = true
  · obtain ⟨hs, hno⟩ := filedFor_heap hl
    rw [hs] at hl ⊢
    simp [hl, clip_of_not_overlaps hno]
  · simp [hl]

/-- The walk asks for one allocation, for the region the stretch lies inside, if
there is one. -/
theorem unregisterLoop_ok_iff (hlt : start < stop) :
    ∀ {todo kept pushed : List VmaRegion} {g : Grants}, todo.Pairwise VmaRegion.Apart →
    ((unregisterLoop start stop todo kept pushed g).1 = .ok () ↔
      ((∃ r ∈ todo, r.start < start ∧ stop < r.stop) → (grant g).1 = true)) := by
  intro todo
  induction todo with
  | nil =>
    intro kept pushed g _
    simp [unregisterLoop]
  | cons scan rest ih =>
    intro kept pushed g hap
    obtain ⟨hhead, hrest⟩ := List.pairwise_cons.mp hap
    by_cases hin : scan.start < start ∧ stop < scan.stop
    · -- the region that is split: no other region straddles the stretch
      have hno : ¬ ∃ r ∈ rest, r.start < start ∧ stop < r.stop := by
        rintro ⟨r, hr, h1, h2⟩
        rcases hhead r hr with h | h <;> omega
      have hover : overlapsSpan scan start stop = true :=
        overlapsSpan_iff.mpr ⟨by omega, by omega⟩
      have hex : ∃ r ∈ scan :: rest, r.start < start ∧ stop < r.stop := ⟨scan, by simp, hin⟩
      unfold unregisterLoop
      rw [if_pos hover, if_pos hin]
      by_cases hg : (grant g).1 = true
      · rw [if_pos hg]
        exact ⟨fun _ _ => hg, fun _ => (ih hrest).mpr fun h => absurd h hno⟩
      · rw [if_neg hg]
        exact ⟨nofun, fun h => absurd (h hex) hg⟩
    · have hsame : (∃ r ∈ scan :: rest, r.start < start ∧ stop < r.stop) ↔
          ∃ r ∈ rest, r.start < start ∧ stop < r.stop := by
        constructor
        · rintro ⟨r, hr, h⟩
          rcases List.mem_cons.mp hr with rfl | hr
          · exact absurd h hin
          · exact ⟨r, hr, h⟩
        · rintro ⟨r, hr, h⟩
          exact ⟨r, by simp [hr], h⟩
      rw [hsame]
      unfold unregisterLoop
      split
      · split
        · exact ih hrest
        · split <;> exact ih hrest
      · exact ih hrest

/-- The allocations `unregister_range` asks for are granted: one to file a loose
heap the stretch meets, one to split a region the stretch lies inside. -/
def WithdrawGranted (s : VmaStore) (start stop : ℕ) (g : Grants) : Prop :=
  ((s.heapLoose && overlapsSpan s.heap start stop) = true → (grant g).1 = true) ∧
  ((∃ r ∈ s.spans, r.start < start ∧ stop < r.stop) →
    (grant (if s.heapLoose && overlapsSpan s.heap start stop then (grant g).2 else g)).1 = true)

/-- `unregister_range` of a stretch succeeds when its allocations are granted. -/
theorem Sound.unregisterRange_ok_iff (hs : s.Sound) :
    (s.unregisterRange start stop g).result = .ok () ↔
      start < stop ∧ s.WithdrawGranted start stop g := by
  by_cases hlt : start < stop
  swap
  · have hge : start ≥ stop := by omega
    unfold VmaStore.unregisterRange
    rw [if_pos hge]
    exact ⟨nofun, fun h => absurd h.1 hlt⟩
  -- the chain that is walked has the same spans, but for a heap that is not met
  have hchain : Tiled VmaRegion.start VmaRegion.stop (s.filedFor start stop).regions :=
    (hs.tiled.perm (s.filedFor_spans start stop).symm).sublist (List.sublist_append_right _ _)
  have hsame : (∃ r ∈ (s.filedFor start stop).regions, r.start < start ∧ stop < r.stop) ↔
      ∃ r ∈ s.spans, r.start < start ∧ stop < r.stop := by
    constructor
    · rintro ⟨r, hr, h⟩
      exact ⟨r, (s.filedFor_spans start stop).mem_iff.mp (mem_spans.mpr (.inr hr)), h⟩
    · rintro ⟨r, hr, h⟩
      rcases mem_spans.mp ((s.filedFor_spans start stop).mem_iff.mpr hr) with ⟨hl, rfl⟩ | hr
      · obtain ⟨hfil, hno⟩ := filedFor_heap hl
        rw [hfil] at h
        have := (@overlapsSpan_iff s.heap start stop).mpr ⟨by omega, by omega⟩
        rw [hno] at this
        nomatch this
      · exact ⟨r, hr, h⟩
  have hloop := fun g => @unregisterLoop_ok_iff start stop hlt (s.filedFor start stop).regions [] []
    g hchain.apart
  unfold WithdrawGranted
  rw [← hsame]
  unfold VmaStore.unregisterRange
  rw [if_neg (by omega)]
  by_cases hheap : (s.heapLoose && overlapsSpan s.heap start stop) = true
  · have hfil : s.filedFor start stop
        = { s with regions := s.regions ++ [s.heap], heapRecorded := true } := by
      rw [filedFor, if_pos hheap]
    rw [if_pos hheap, if_pos hheap]
    by_cases hg : (grant g).1 = true
    · rw [if_pos hg, ← hfil]
      exact (hloop _).trans ⟨fun h => ⟨hlt, fun _ => hg, h⟩, fun h => h.2.2⟩
    · rw [if_neg hg]
      exact ⟨nofun, fun h => absurd (h.2.1 hheap) hg⟩
  · have hfil : s.filedFor start stop = s := by rw [filedFor, if_neg hheap]
    rw [if_neg hheap, if_neg hheap]
    rw [hfil] at hloop ⊢
    exact (hloop _).trans ⟨fun h => ⟨hlt, fun hc => absurd hc hheap, h⟩, fun h => h.2.2⟩

/-- A refused `unregister_range` leaves the spans of a sound register. -/
theorem Sound.unregisterRange_error (hs : s.Sound)
    (h : (s.unregisterRange start stop g).result = .error e) :
    (s.unregisterRange start stop g).store.spans.Perm s.spans := by
  rcases unregisterRange_cases s start stop g with ⟨_, _, hstart⟩ | ⟨hlt, g', heq⟩
  · rw [hstart]
  rw [heq] at h ⊢
  have ht : Tiled VmaRegion.start VmaRegion.stop (s.filedFor start stop).regions :=
    (hs.tiled.perm (s.filedFor_spans start stop).symm).sublist (List.sublist_append_right _ _)
  exact (unregisterChain_spans (unregisterChain_error ht h)).trans (s.filedFor_spans start stop)

theorem unregisterRange_rest (s : VmaStore) (start stop : ℕ) (g : Grants) :
    (s.unregisterRange start stop g).store = { s with
          regions := (s.unregisterRange start stop g).store.regions
          heapRecorded := (s.unregisterRange start stop g).store.heapRecorded } := by
  rcases unregisterRange_cases s start stop g with ⟨_, _, hstart⟩ | ⟨_, g', heq⟩
  · rw [hstart]
  · rw [heq]
    unfold unregisterChain filedFor
    split <;> rfl

theorem Sound.unregisterRange (hs : s.Sound) (start stop : ℕ) (g : Grants) :
    (s.unregisterRange start stop g).store.Sound := by
  refine ⟨?_, by rw [s.unregisterRange_rest]; exact hs.heapOffset⟩
  cases h : (s.unregisterRange start stop g).result with
  | error e => exact hs.tiled.perm (hs.unregisterRange_error h).symm
  | ok _ =>
    obtain ⟨hlt, hp⟩ := unregisterRange_ok h
    exact (hs.tiled.flatMap (fun r hr => clip_tiled hlt (hs.tiled.nonempty r hr))
      fun _ _ _ ht => clip_within ht).perm hp.symm

end VmaStore

end Cinux
