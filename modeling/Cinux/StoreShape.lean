/-
The shape of a task's register.

The calls on memory only file page-aligned regions that end below the user
limit, and every later region is a piece of an earlier one (`Piece`).
`StoreOk` collects what follows for every region of a register, its heap and its
attachments; `lens` gives the number of pages of each segment.  A clone can hand
a region the attachment of another one, so that a region lies inside its own
attachment is only said of `tidy` registers, whose clones were all faithful.

* `Sound.unregisterRange_pieces`, `Sound.protect_pieces` — what is left are
  pieces, cut at the ends of the stretch;
* `StoreOk.registerRange`, `StoreOk.unregisterRange`, `StoreOk.protect`,
  `StoreOk.moveHeapEnd`, `StoreOk.clone` — the shape is kept;
* `StoreOk.findFreeSpot` — a free spot is aligned and below the ceiling;
* `Sound.moveHeapEnd_view` — moving the break keeps every promise but those it
  gives up;
* `growth_plain_iff` — when the bytes it adds are readable, writable and no more.
-/
import Cinux.VmaClone
import Cinux.VmaRoom

namespace Cinux

open List Option

/-- `t` is a piece of `r`, whole or cut at the given ends. -/
structure Piece (start stop : ℕ) (r t : VmaRegion) : Prop where
  kind : t.kind = r.kind
  backing : t.backing = r.backing
  shared : t.shared = r.shared
  stackFloor : t.stackFloor = r.stackFloor
  low : r.start ≤ t.start
  high : t.stop ≤ r.stop
  start_eq : t.start = r.start ∨ t.start = start ∨ t.start = stop
  stop_eq : t.stop = r.stop ∨ t.stop = start ∨ t.stop = stop

theorem Piece.refl (start stop : ℕ) (r : VmaRegion) : Piece start stop r r :=
  ⟨rfl, rfl, rfl, rfl, le_refl _, le_refl _, .inl rfl, .inl rfl⟩

/-- What the calls keep true of every region. -/
structure RegionOk (r : VmaRegion) : Prop where
  start_mod : r.start % kSize = 0
  stop_mod : r.stop % kSize = 0
  stop_le : r.stop ≤ kUserTop
  floor_mod : r.stackFloor % kSize = 0
  backed : r.kind = .file → r.backing.ops ≠ none
  attached : r.shared ≠ none → r.kind = .anonymous

variable {start stop : ℕ} {r : VmaRegion} {g : Grants} {terms : VmaProtection}

theorem RegionOk.piece {r t : VmaRegion} (h : RegionOk r) (hp : Piece start stop r t)
    (h1 : start % kSize = 0) (h2 : stop % kSize = 0) : RegionOk t := by
  refine ⟨?_, ?_, le_trans hp.high h.stop_le, by rw [hp.stackFloor]; exact h.floor_mod, ?_, ?_⟩
  · rcases hp.start_eq with he | he | he
    · rw [he]; exact h.start_mod
    · rwa [he]
    · rwa [he]
  · rcases hp.stop_eq with he | he | he
    · rw [he]; exact h.stop_mod
    · rwa [he]
    · rwa [he]
  · rw [hp.kind, hp.backing]
    exact h.backed
  · rw [hp.kind, hp.shared]
    exact h.attached

/-- The attachment `t` of a region `r` covers exactly the pages of its segment,
below the limit.  On `tidy` registers the region lies inside it. -/
structure AttachOk (tidy : Prop) (lens : ℕ → ℕ) (r : VmaRegion) (t : SharedAttachment) :
    Prop where
  start_mod : t.start % kSize = 0
  stop_eq : t.stop = t.start + lens t.pages * kSize
  stop_le : t.stop ≤ kUserTop
  live : 0 < lens t.pages
  inside : tidy → t.start ≤ r.start ∧ r.stop ≤ t.stop

namespace VmaStore

variable {s : VmaStore}

/-- What the calls keep true of a register. -/
structure StoreOk (tidy : Prop) (lens : ℕ → ℕ) (s : VmaStore) : Prop where
  sound : s.Sound
  region : ∀ r ∈ s.regions, RegionOk r
  attached : ∀ r ∈ s.regions, ∀ t, r.shared = some t → AttachOk tidy lens r t
  heap : RegionOk s.heap
  heapPlain : s.heap.shared = none ∧ s.heap.kind = .anonymous
  heapStop : s.heap.stop = alignUp s.heapBreak kSize
  heapMax : s.heapMax ≤ kUserBrkMmapSplit
  heapBreak : s.heapBreak ≤ kUserTop
  ceiling : s.mmapCeiling % kSize = 0 ∧ s.mmapCeiling ≤ kUserTop

variable {tidy : Prop} {lens : ℕ → ℕ}

theorem StoreOk.spans (h : StoreOk tidy lens s) (hr : r ∈ s.spans) : RegionOk r := by
  rcases mem_spans.mp hr with ⟨-, rfl⟩ | hr
  · exact h.heap
  · exact h.region r hr

theorem StoreOk.spans_attached (h : StoreOk tidy lens s) (hr : r ∈ s.spans) {t : SharedAttachment}
    (ht : r.shared = some t) : r ∈ s.regions ∧ AttachOk tidy lens r t := by
  rcases mem_spans.mp hr with ⟨-, rfl⟩ | hr
  · rw [h.heapPlain.1] at ht
    nomatch ht
  · exact ⟨hr, h.attached r hr t ht⟩

/-- A region found at an address covers the whole page of it. -/
theorem StoreOk.find_page (h : StoreOk tidy lens s) {a : ℕ} (hf : s.find a = some r) :
    s.find (a / kSize * kSize) = some r ∧ RegionOk r ∧ a < kUserTop := by
  obtain ⟨hmem, h1, h2⟩ := h.sound.find_eq_some.mp hf
  have hok := h.spans hmem
  have hmod := hok.start_mod
  have htop := hok.stop_le
  refine ⟨h.sound.find_eq_some.mpr ⟨hmem, ?_, ?_⟩, hok, by omega⟩
  · simp only [kSize] at *
    omega
  · simp only [kSize] at *
    omega

/-! ### Pieces -/

theorem clip_piece {r t : VmaRegion} (ht : t ∈ clip start stop r) : Piece start stop r t := by
  have hwithin := clip_within ht
  unfold clip at ht
  split at ht
  · rcases mem_append.mp ht with ht | ht
    · split at ht
      · obtain rfl := mem_singleton.mp ht
        exact ⟨rfl, rfl, rfl, rfl, hwithin.1, hwithin.2, .inl rfl, .inr (.inl rfl)⟩
      · simp at ht
    · split at ht
      · obtain rfl := mem_singleton.mp ht
        exact ⟨rfl, rfl, rfl, rfl, hwithin.1, hwithin.2, .inr (.inr rfl), .inl rfl⟩
      · simp at ht
  · obtain rfl := mem_singleton.mp ht
    exact Piece.refl start stop t

theorem recut_piece {r t : VmaRegion} (ht : t ∈ recut start stop terms r) :
    Piece start stop r t := by
  have hwithin := recut_within ht
  unfold recut at ht
  split at ht
  · rename_i ho
    obtain ⟨⟨i, low, high⟩, hmem, hpast⟩ := mem_filterMap.mp ht
    simp only [ite_none_left_eq_some, Option.some.injEq] at hpast
    obtain ⟨hne, rfl⟩ := hpast
    simp only [mem_cons, Prod.mk.injEq, not_mem_nil, or_false] at hmem
    refine ⟨?_, ?_, ?_, ?_, hwithin.1, hwithin.2, ?_, ?_⟩
    iterate 4
      unfold protectedPart
      split <;> rfl
    all_goals
      simp only [protectedPart_start, protectedPart_stop]
      omega
  · obtain rfl := mem_singleton.mp ht
    exact Piece.refl start stop t

/-- Every region left by `unregister_range` is a piece of a span. -/
theorem Sound.unregisterRange_pieces (hs : s.Sound) {t : VmaRegion}
    (ht : t ∈ (s.unregisterRange start stop g).store.regions) :
    ∃ r ∈ s.spans, Piece start stop r t := by
  have hspan := mem_spans.mpr (.inr ht)
  cases h : (s.unregisterRange start stop g).result with
  | error e =>
    exact ⟨t, (hs.unregisterRange_error h).mem_iff.mp hspan, Piece.refl start stop t⟩
  | ok _ =>
    obtain ⟨r, hr, hclip⟩ := mem_flatMap.mp ((unregisterRange_ok h).2.mem_iff.mp hspan)
    exact ⟨r, hr, clip_piece hclip⟩

/-- Every region left by `protect` is a piece of a span. -/
theorem Sound.protect_pieces (hs : s.Sound) {t : VmaRegion}
    (ht : t ∈ (s.protect start stop terms g).store.regions) :
    ∃ r ∈ s.spans, Piece start stop r t := by
  have hspan := mem_spans.mpr (.inr ht)
  rcases hs.protect_cases start stop terms g with ⟨_, _, hstart⟩ | ⟨_, _, _, _, hp⟩
  · rw [hstart] at hspan
    exact ⟨t, hspan, Piece.refl start stop t⟩
  · obtain ⟨r, hr, hcut⟩ := mem_flatMap.mp (hp.mem_iff.mp hspan)
    exact ⟨r, hr, recut_piece hcut⟩

/-! ### What the operations leave beside the chain -/

/-- `protect` may change the terms of a loose heap, and nothing else of it. -/
theorem protect_rest (s : VmaStore) (start stop : ℕ) (terms : VmaProtection) (g : Grants) :
    ∃ heap, (heap = s.heap ∨ heap = reterm terms s.heap) ∧ (s.protect start stop terms g).store
        = { s with
            regions := (s.protect start stop terms g).store.regions
            heapRecorded := (s.protect start stop terms g).store.heapRecorded
            heap := heap } := by
  unfold protect
  split
  · exact ⟨s.heap, .inl rfl, rfl⟩
  split
  · exact ⟨s.heap, .inl rfl, rfl⟩
  dsimp only
  split
  · exact ⟨s.heap, .inl rfl, rfl⟩
  · split
    · exact ⟨_, .inr rfl, rfl⟩
    · exact ⟨_, .inl rfl, rfl⟩

/-! ### The shape is kept -/

theorem regionOk_born {spec : VmaRegion} (h : RegionOk spec) : RegionOk (born spec) := by
  obtain ⟨e1, -, e3, e4, -⟩ := born_fields spec
  refine ⟨by rw [born_start]; exact h.start_mod, by rw [born_stop]; exact h.stop_mod,
    by rw [born_stop]; exact h.stop_le, ?_, by rw [e1, e3]; exact h.backed,
    by rw [e1, e4]; exact h.attached⟩
  have hs := h.start_mod
  unfold born
  split
  · simp only [wrap, kSize] at *
    omega
  · exact h.floor_mod

section

variable (h : StoreOk tidy lens s)

include h

theorem StoreOk.registerRange {spec : VmaRegion} (hspec : RegionOk spec)
    (hatt : ∀ t, spec.shared = some t → AttachOk tidy lens spec t) (g : Grants) :
    StoreOk tidy lens (s.registerRange spec g).store := by
  have hsound := h.sound.registerRange spec g
  rcases registerRange_cases s spec g with ⟨_, _, hstate⟩ | ⟨_, hstate, _⟩
  · rw [hstate]
    exact h
  rw [hstate] at hsound ⊢
  refine ⟨hsound, fun r hr => ?_, fun r hr t ht => ?_, h.heap, h.heapPlain, h.heapStop,
    h.heapMax, h.heapBreak, h.ceiling⟩
  · rcases mem_append.mp hr with hr | hr
    · exact h.region r hr
    · rw [mem_singleton.mp hr]
      exact regionOk_born hspec
  · rcases mem_append.mp hr with hr | hr
    · exact h.attached r hr t ht
    rw [mem_singleton.mp hr, (born_fields spec).2.2.2.1] at ht
    obtain ⟨h1, h2, h3, h4, h5⟩ := hatt t ht
    rw [mem_singleton.mp hr]
    exact ⟨h1, h2, h3, h4, by rwa [born_start, born_stop]⟩

/-- A register made of pieces of another keeps the shape. -/
theorem StoreOk.pieces {t : VmaStore} (hsound : t.Sound) (h1 : start % kSize = 0)
    (h2 : stop % kSize = 0) (hregions : ∀ r ∈ t.regions, ∃ r' ∈ s.spans, Piece start stop r' r)
    (hheap : t.heap = s.heap ∨ ∃ terms, t.heap = reterm terms s.heap)
    (hbreak : t.heapBreak = s.heapBreak) (hmax : t.heapMax = s.heapMax)
    (hcei : t.mmapCeiling = s.mmapCeiling) : StoreOk tidy lens t := by
  refine ⟨hsound, fun r hr => ?_, fun r hr u hu => ?_, ?_, ?_, ?_, by rw [hmax]; exact h.heapMax,
    by rw [hbreak]; exact h.heapBreak, by rw [hcei]; exact h.ceiling⟩
  · obtain ⟨r', hr', hpiece⟩ := hregions r hr
    exact (h.spans hr').piece hpiece h1 h2
  · obtain ⟨r', hr', hpiece⟩ := hregions r hr
    rw [hpiece.shared] at hu
    obtain ⟨e1, e2, e3, e4, e5⟩ := (h.spans_attached hr' hu).2
    exact ⟨e1, e2, e3, e4, fun ht =>
      ⟨le_trans (e5 ht).1 hpiece.low, le_trans hpiece.high (e5 ht).2⟩⟩
  · rcases hheap with he | ⟨terms, he⟩
    · rw [he]
      exact h.heap
    · rw [he]
      obtain ⟨h1, h2, h3, h4, h5, h6⟩ := h.heap
      exact ⟨h1, h2, h3, h4, h5, h6⟩
  · rcases hheap with he | ⟨terms, he⟩ <;> rw [he] <;> exact h.heapPlain
  · rw [hbreak, ← h.heapStop]
    rcases hheap with he | ⟨terms, he⟩ <;> rw [he]
    rfl

theorem StoreOk.unregisterRange (h1 : start % kSize = 0) (h2 : stop % kSize = 0) (g : Grants) :
    StoreOk tidy lens (s.unregisterRange start stop g).store := by
  have hrest := s.unregisterRange_rest start stop g
  refine h.pieces (h.sound.unregisterRange start stop g) h1 h2
    (fun r hr => h.sound.unregisterRange_pieces hr) (.inl ?_) ?_ ?_ ?_ <;> rw [hrest]

theorem StoreOk.protect (h1 : start % kSize = 0) (h2 : stop % kSize = 0) (terms : VmaProtection)
    (g : Grants) :
    StoreOk tidy lens (s.protect start stop terms g).store := by
  obtain ⟨heap, hheap, hrest⟩ := s.protect_rest start stop terms g
  refine h.pieces (h.sound.protect start stop terms g) h1 h2
    (fun r hr => h.sound.protect_pieces hr) ?_ ?_ ?_ ?_
  · rw [hrest]
    exact hheap.imp_right fun he => ⟨terms, he⟩
  all_goals rw [hrest]

/-- Where a target of the break is allowed, its page end is aligned and below the
split. -/
theorem StoreOk.wanted {target : ℕ} (ht : target ≤ s.heapMax) :
    target ≤ alignUp target kSize ∧ alignUp target kSize ≤ kUserBrkMmapSplit := by
  have hmax := h.heapMax
  have hmod := alignUp_mod target
  have hle := alignUp_of_le (a := target) (by simp only [kSize, kUserBrkMmapSplit] at *; omega)
  simp only [kUserBrkMmapSplit, kSize] at *
  omega

end

theorem StoreOk.settleHeap {t : VmaStore} (h : StoreOk tidy lens t) {target : ℕ}
    (ht : target ≤ t.heapMax) (hsound : (t.settleHeap (alignUp target kSize) target).Sound) :
    StoreOk tidy lens (t.settleHeap (alignUp target kSize) target) := by
  have hw := h.wanted ht
  have hsplit : kUserBrkMmapSplit ≤ kUserTop := by decide
  refine ⟨hsound, h.region, h.attached, ?_, h.heapPlain, rfl, h.heapMax, ?_, h.ceiling⟩
  · have := h.heap
    exact ⟨this.start_mod, alignUp_mod target, le_trans hw.2 hsplit, this.floor_mod, this.backed,
      this.attached⟩
  · exact le_trans ht (le_trans h.heapMax hsplit)

theorem StoreOk.moveHeapEnd (h : StoreOk tidy lens s) (target : ℕ) (g : Grants) :
    StoreOk tidy lens (s.moveHeapEnd target g).store := by
  have hsound := h.sound.moveHeapEnd target g
  have hstop := h.heap.stop_mod
  have hup := alignUp_mod target
  rcases moveHeapEnd_cases s target g with
    ⟨e, _, hstate | ⟨_, hstate⟩⟩ | ⟨_, hstate⟩ | ⟨_, _, hmax, t, hstate, ht⟩
  · rw [hstate]
    exact h
  · rw [hstate]
    exact h.unregisterRange hup hstop g
  · rw [hstate]
    exact h
  · -- the store before the break is settled keeps the shape and the ceiling of the heap
    rw [hstate] at hsound ⊢
    have hw := h.wanted hmax
    have key : StoreOk tidy lens t ∧ t.heapMax = s.heapMax := by
      rcases ht with ⟨_, _, rfl⟩ | ⟨_, _, rfl⟩ | ⟨_, rfl, _⟩
      · refine ⟨h.registerRange ⟨hstop, hup, ?_, rfl, fun hc => absurd hc (by simp [extension]),
          fun _ => rfl⟩ (fun u hu => absurd hu (by simp [extension])) g, ?_⟩
        · exact le_trans hw.2 (by decide)
        · rw [s.registerRange_rest]
      · exact ⟨h.unregisterRange hup hstop g, by rw [s.unregisterRange_rest]⟩
      · exact ⟨h, rfl⟩
    exact key.1.settleHeap (by rw [key.2]; exact hmax) hsound

theorem StoreOk.clone (h : StoreOk tidy lens s) {c : VmaStore} (hc : (s.clone g).1 = some c)
    (hag : tidy → s.AttachmentsAgree) : StoreOk tidy lens c := by
  have hsound := h.sound.clone hc
  have heq := clone_eq hc
  rw [heq] at hsound ⊢
  refine ⟨hsound, fun r hr => ?_, fun r hr t ht => ?_, h.heap, h.heapPlain, h.heapStop, h.heapMax,
    h.heapBreak, h.ceiling⟩
  · obtain ⟨r', hr', rfl⟩ := mem_map.mp hr
    have hok := h.region r' hr'
    refine regionOk_born ⟨hok.start_mod, hok.stop_mod, hok.stop_le, hok.floor_mod, hok.backed,
      fun hne => hok.attached fun hno => hne ?_⟩
    simp [hno]
  · -- the attachment of a copy is one of the original
    obtain ⟨r', hr', rfl⟩ := mem_map.mp hr
    have ht' := ht
    rw [copyOf_shared] at ht
    obtain ⟨u, -, hu⟩ := bind_eq_some_iff.mp ht
    obtain ⟨b, hb, hboth⟩ := bind_eq_some_iff.mp hu
    obtain ⟨e1, e2, e3, e4, -⟩ := h.attached b (mem_of_find?_eq_some hb) t hboth
    refine ⟨e1, e2, e3, e4, fun htidy => ?_⟩
    -- on a tidy register it is the one the region had
    rw [(hag htidy).copyOf_shared_eq hr'] at ht'
    have := (h.attached r' hr' t ht').inside htidy
    rwa [copyOf, born_start, born_stop]

theorem StoreOk.lens_congr {lens' : ℕ → ℕ} (h : StoreOk tidy lens s)
    (hlens : ∀ r ∈ s.regions, ∀ t, r.shared = some t → lens' t.pages = lens t.pages) :
    StoreOk tidy lens' s :=
  ⟨h.sound, h.region, fun r hr t ht => by
    obtain ⟨h1, h2, h3, h4, h5⟩ := h.attached r hr t ht
    exact ⟨h1, by rw [hlens r hr t ht, h2], h3, by rw [hlens r hr t ht]; exact h4, h5⟩, h.heap,
      h.heapPlain, h.heapStop, h.heapMax,
    h.heapBreak, h.ceiling⟩

/-! ### A free spot -/

theorem StoreOk.huntSpot (h : StoreOk tidy lens s) (bytes spotEnd : ℕ)
    (hmod : spotEnd % kSize = 0) : s.huntSpot bytes spotEnd % kSize = 0 := by
  refine huntSpot_keeps (P := fun e => e % kSize = 0) (fun e he r hr => ?_) spotEnd hmod
  unfold huntStep
  split
  · rcases mem_blockers.mp hr with ⟨-, rfl⟩ | hr
    · exact h.heap.start_mod
    · exact (h.region r hr).start_mod
  · exact he

/-- A free spot is aligned and its stretch ends below the limit. -/
theorem StoreOk.findFreeSpot (h : StoreOk tidy lens s) {bytes spot : ℕ} (hb : bytes % kSize = 0)
    (hf : s.findFreeSpot s.mmapCeiling bytes = .ok spot) :
    spot % kSize = 0 ∧ spot + bytes ≤ kUserTop := by
  unfold VmaStore.findFreeSpot at hf
  split at hf
  · nomatch hf
  dsimp only at hf
  split at hf
  · nomatch hf
  obtain ⟨⟩ := hf
  have h1 := h.huntSpot bytes _ h.ceiling.1
  have h2 := s.huntSpot_le bytes s.mmapCeiling
  have h3 := h.ceiling.2
  simp only [kSize] at *
  omega

/-! ### What the break gives up -/

/-- Filing a range takes nothing away. -/
theorem Sound.registerRange_keeps (hs : s.Sound) (spec : VmaRegion) (g : Grants) {a : ℕ}
    {p : Promise} (hp : s.view a = some p) : (s.registerRange spec g).store.view a = some p := by
  rcases registerRange_cases s spec g with ⟨_, _, hstore⟩ | ⟨hok, _, _, hap⟩
  · rw [hstore]
    exact hp
  rw [hs.registerRange_view hok, if_neg ?_, hp]
  -- what was promised there is apart from the new range
  intro hin
  obtain ⟨r, hr, -⟩ := map_eq_some_iff.mp hp
  obtain ⟨hmem, hcov⟩ := hs.find_eq_some.mp hr
  exact (hap r hmem).not_covers hin hcov

/-- A recorded heap promises nothing. -/
theorem view_settleHeap {wanted target a : ℕ} (h : s.heapRecorded = true) :
    (s.settleHeap wanted target).view a = s.view a := by
  rw [view, view, find_eq_lookup, find_eq_lookup, settleHeap_spans h]

/-- A loose heap settled elsewhere promises the same below its new end, and the
chain is not touched. -/
theorem Sound.settleHeap_view (hs : s.Sound) {wanted target a : ℕ} {p : Promise}
    (hs' : (s.settleHeap wanted target).Sound) (hp : s.view a = some p)
    (hout : ¬ (wanted ≤ a ∧ a < s.heap.stop)) : (s.settleHeap wanted target).view a = some p := by
  obtain ⟨r, hr, rfl⟩ := map_eq_some_iff.mp hp
  obtain ⟨hmem, hcov⟩ := hs.find_eq_some.mp hr
  rcases mem_spans.mp hmem with ⟨hl, rfl⟩ | hmem
  · -- in the heap: below the new end it is the heap again
    have hlt : a < wanted := by
      have := hcov.2
      omega
    have hloose : (s.settleHeap wanted target).heapLoose = true :=
      heapLoose_iff.mpr ⟨(heapLoose_iff.mp hl).1, lt_of_le_of_lt hcov.1 hlt⟩
    rw [view, hs'.find_eq_some.mpr ⟨mem_spans.mpr (.inl ⟨hloose, rfl⟩), hcov.1, hlt⟩]
    rfl
  · rw [view, hs'.find_eq_some.mpr ⟨mem_spans.mpr (.inr hmem), hcov⟩]
    rfl

/-- Moving the break keeps every promise but those above the new end of the
heap and below the old one. -/
theorem Sound.moveHeapEnd_view (hs : s.Sound) {target value : ℕ}
    (hok : (s.moveHeapEnd target g).result = .ok value) {a : ℕ} {p : Promise}
    (hp : s.view a = some p) (hout : ¬ (alignUp value kSize ≤ a ∧ a < s.heap.stop)) :
    (s.moveHeapEnd target g).store.view a = some p := by
  have hs' := hs.moveHeapEnd target g
  rcases moveHeapEnd_cases s target g with ⟨e, he, _⟩ | ⟨_, hstate⟩ | ⟨hval, _, _, t, hstate, ht⟩
  · rw [he] at hok
    nomatch hok
  · rw [hstate]
    exact hp
  rw [hval] at hok
  obtain ⟨⟩ := hok
  rw [hstate] at hs' ⊢
  rcases ht with ⟨hrec, _, rfl⟩ | ⟨hrec, hlt, rfl⟩ | ⟨_, rfl, _⟩
  · -- the extension was filed beside what was there
    rw [view_settleHeap (by rw [s.registerRange_rest]; exact hrec)]
    exact hs.registerRange_keeps _ g hp
  · rw [view_settleHeap (unregisterRange_recorded hrec)]
    cases hres : (s.unregisterRange (alignUp target kSize) s.heap.stop g).result with
    | ok _ => rw [hs.unregisterRange_view hres, if_neg hout, hp]
    | error e =>
      rw [view, (hs.unregisterRange_unchanged hres).1]
      exact hp
  · exact hs.settleHeap_view hs' hp hout

/-! ### What the break adds -/

/-- Readable, writable and not executable: the terms a heap is seeded with. -/
def plain : VmaProtection := ⟨true, true, false⟩

/-- The terms of an address that `t` knows and `s` did not. -/
def newTerms (s t : VmaStore) (a : ℕ) : Option VmaProtection :=
  if s.view a = none then (t.view a).map Promise.terms else none

/-- A heap on the chain grows by a plain region, one off the chain under its own terms. -/
theorem Sound.newTerms_moveHeapEnd (hs : s.Sound) (target : ℕ) (g : Grants) (a : ℕ) :
    newTerms s (s.moveHeapEnd target g).store a = none ∨
    newTerms s (s.moveHeapEnd target g).store a
      = some (if s.heapRecorded then plain else s.heap.terms) := by
  unfold newTerms
  by_cases hnone : s.view a = none
  swap
  · exact .inl (if_neg hnone)
  rw [if_pos hnone]
  have hs' := hs.moveHeapEnd target g
  rcases moveHeapEnd_cases s target g with ⟨e, he, -⟩ | ⟨-, hstate⟩ | ⟨-, -, -, t, hstate, ht⟩
  · rw [view, (hs.moveHeapEnd_unchanged he).1 a]
    exact .inl (congrArg _ hnone)
  · rw [hstate, hnone]
    exact .inl rfl
  rw [hstate] at hs' ⊢
  rcases ht with ⟨hrec, -, rfl⟩ | ⟨hrec, -, rfl⟩ | ⟨-, rfl, -⟩
  · rw [view_settleHeap (by rw [s.registerRange_rest]; exact hrec)]
    rcases registerRange_cases s (s.extension (alignUp target kSize)) g
      with ⟨_, _, hstate'⟩ | ⟨hok, _⟩
    · rw [hstate', hnone]
      exact .inl rfl
    rw [hs.registerRange_view hok]
    split
    · exact .inr rfl
    · rw [hnone]
      exact .inl rfl
  · rw [view_settleHeap (unregisterRange_recorded hrec)]
    cases hres : (s.unregisterRange (alignUp target kSize) s.heap.stop g).result with
    | ok _ =>
      rw [hs.unregisterRange_view hres, hnone, ite_self]
      exact .inl rfl
    | error e =>
      rw [view, (hs.unregisterRange_unchanged hres).1 a]
      exact .inl (congrArg _ hnone)
  · -- the chain stands, so what is known now is in the heap
    rw [view]
    cases hfind : (t.settleHeap (alignUp target kSize) target).find a with
    | none => exact .inl rfl
    | some r =>
      obtain ⟨hmem, hcov⟩ := hs'.find_eq_some.mp hfind
      rcases mem_spans.mp hmem with ⟨hl, rfl⟩ | hmem
      · have hrec : t.heapRecorded = false := (heapLoose_iff.mp hl).1
        rw [hrec]
        exact .inr rfl
      · exact absurd hcov (find_eq_none.mp (map_eq_none_iff.mp hnone) r
          (mem_spans.mpr (.inr hmem)))

/-- The move is accepted, and the new end of the heap is above it with nothing in between. -/
def Grows (s : VmaStore) (target : ℕ) : Prop :=
  ¬(s.heap.start = 0 ∧ s.heap.stop = 0) ∧ target ≠ 0 ∧ s.heap.start ≤ target ∧ target ≤ s.heapMax ∧
    max s.heap.start s.heap.stop < alignUp target kSize ∧
    ∀ r ∈ s.regions, overlapsSpan r s.heap.stop (alignUp target kSize) = false

/-- A heap off the chain is moved as it is, or stays. -/
theorem moveHeapEnd_loose (loose : s.heapRecorded = false) (target : ℕ) (g : Grants) :
    (s.Grows target →
      (s.moveHeapEnd target g).store = s.settleHeap (alignUp target kSize) target) ∧
    (¬s.Grows target → (s.moveHeapEnd target g).store = s ∨
      ¬max s.heap.start s.heap.stop < alignUp target kSize ∧
        (s.moveHeapEnd target g).store = s.settleHeap (alignUp target kSize) target) := by
  unfold moveHeapEnd Grows
  -- the tests of the source one after the other: each refusal leaves the store
  generalize alignUp target kSize = wanted
  simp only [loose, Bool.false_eq_true, false_and, if_false]
  by_cases seeded : s.heap.start = 0 ∧ s.heap.stop = 0
  · rw [if_pos seeded]
    exact ⟨fun grows => absurd seeded grows.1, fun _ => .inl rfl⟩
  rw [if_neg seeded]
  by_cases asks : target = 0
  · rw [if_pos asks]
    exact ⟨fun grows => absurd asks grows.2.1, fun _ => .inl rfl⟩
  rw [if_neg asks]
  by_cases outside : target < s.heap.start ∨ target > s.heapMax
  · rw [if_pos outside]
    exact ⟨fun grows => by omega, fun _ => .inl rfl⟩
  rw [if_neg outside]
  by_cases taken : wanted > s.heap.stop ∧ s.regions.any (overlapsSpan · s.heap.stop wanted) = true
  · rw [if_pos taken]
    refine ⟨fun grows => ?_, fun _ => .inl rfl⟩
    obtain ⟨r, hr, overlaps⟩ := any_eq_true.mp taken.2
    rw [grows.2.2.2.2.2 r hr] at overlaps
    cases overlaps
  rw [if_neg taken]
  refine ⟨fun _ => rfl, fun still => .inr ⟨fun above => still ?_, rfl⟩⟩
  refine ⟨seeded, asks, by omega, by omega, above, fun r hr => ?_⟩
  by_contra overlaps
  exact taken ⟨by omega, any_eq_true.mpr ⟨r, hr, by simpa using overlaps⟩⟩

/-- A heap off the chain grows by addresses that nobody knew, exactly where it grows. -/
theorem Sound.newTerms_loose (hs : s.Sound) (loose : s.heapRecorded = false) (target : ℕ)
    (g : Grants) : (∃ a, newTerms s (s.moveHeapEnd target g).store a ≠ none) ↔ s.Grows target := by
  have hs' := hs.moveHeapEnd target g
  obtain ⟨moves, stays⟩ := moveHeapEnd_loose loose target g
  constructor
  · rintro ⟨a, ha⟩
    by_contra still
    have unknown : s.view a = none := by
      by_contra known
      exact ha (if_neg known)
    rw [newTerms, if_pos unknown] at ha
    rcases stays still with same | ⟨low, moved⟩
    · rw [same, unknown] at ha
      exact ha rfl
    rw [moved] at hs' ha
    -- what is known now was known before, in the heap or on the chain
    rw [view, map_eq_none_iff, find_eq_none] at unknown
    rw [ne_eq, map_eq_none_iff, view, map_eq_none_iff, find_eq_none] at ha
    refine ha fun r hr covers => ?_
    rcases mem_spans.mp hr with ⟨-, rfl⟩ | chain
    · have inside : s.heap.start ≤ a ∧ a < alignUp target kSize := covers
      have before : s.heap.Covers a := ⟨inside.1, by omega⟩
      refine unknown s.heap (mem_spans.mpr (.inl ⟨heapLoose_iff.mpr ⟨loose, ?_⟩, rfl⟩)) before
      exact lt_of_le_of_lt before.1 before.2
    · exact unknown r (mem_spans.mpr (.inr chain)) covers
  · intro grows
    rw [moves grows] at hs' ⊢
    obtain ⟨-, -, -, -, above, free⟩ := grows
    refine ⟨max s.heap.start s.heap.stop, ?_⟩
    have unknown : s.view (max s.heap.start s.heap.stop) = none := by
      rw [view, map_eq_none_iff, find_eq_none]
      rintro r hr ⟨low, high⟩
      rcases mem_spans.mp hr with ⟨-, rfl⟩ | chain
      · omega
      · have apart := free r chain
        simp only [overlapsSpan, Bool.and_eq_false_iff, decide_eq_false_iff_not] at apart
        omega
    rw [newTerms, if_pos unknown, ne_eq, map_eq_none_iff, view, map_eq_none_iff, find_eq_none]
    intro none
    refine none (s.settleHeap (alignUp target kSize) target).heap (mem_spans.mpr (.inl
      ⟨heapLoose_iff.mpr ⟨loose, ?_⟩, rfl⟩)) ⟨le_max_left .., above⟩
    exact lt_of_le_of_lt (le_max_left ..) above

/-- In every store that a run reaches, the bytes that a move of the break adds are all plain just
when the heap is on the chain, or is plain itself, or the move does not make it grow. -/
theorem growth_plain_iff (calls : List (VmaCall × Grants)) (target : ℕ) (g : Grants) :
    let s := run {} calls
    let added := newTerms s (s.moveHeapEnd target g).store
    (∀ a, added a = none ∨ added a = some plain) ↔
      s.heapRecorded = true ∨ s.heap.terms = plain ∨ ¬s.Grows target := by
  intro s added
  have sound := run_sound calls
  have adds := sound.newTerms_moveHeapEnd target g
  by_cases chained : s.heapRecorded = true
  · refine iff_of_true (fun a => ?_) (.inl chained)
    have := adds a
    rwa [if_pos chained] at this
  have loose : s.heapRecorded = false := by simpa using chained
  have grows := sound.newTerms_loose loose target g
  rw [or_iff_right chained]
  constructor
  · intro all
    rw [or_iff_not_imp_right, not_not]
    intro growing
    obtain ⟨a, ha⟩ := grows.mpr growing
    have terms := ((adds a).resolve_left ha).symm.trans ((all a).resolve_left ha)
    rw [if_neg chained] at terms
    exact Option.some.inj terms
  · rintro (terms | still) a
    · have := adds a
      rwa [terms, ite_self] at this
    · refine .inl ?_
      by_contra ha
      exact still (grows.mp ⟨a, ha⟩)

/-- A heap that became read-only as a whole grows by a page that is read-only too. -/
theorem growth_inherits_terms :
    let s := run {} [(.seedHeap 0x10000 0x100000, []), (.moveHeapEnd 0x12000, []),
      (.protect 0x10000 0x12000 ⟨true, false, false⟩, [])]
    (s.moveHeapEnd 0x13000 []).result = .ok 0x13000 ∧
    newTerms s (s.moveHeapEnd 0x13000 []).store 0x12000 = some ⟨true, false, false⟩ := by
  decide +kernel

/-! ### A property of all regions -/

/-- The property holds of every region on the chain and of the heap. -/
structure All (P : VmaRegion → Prop) (s : VmaStore) : Prop where
  region : ∀ r ∈ s.regions, P r
  heap : P s.heap

/-- The property survives what `unregister_range` does to a region. -/
def Cuts (P : VmaRegion → Prop) : Prop :=
  ∀ start stop r t, P r → t ∈ clip start stop r → P t

section

variable {P : VmaRegion → Prop} (h : s.All P)
include h

theorem All.spans {r : VmaRegion} (hr : r ∈ s.spans) : P r := by
  rcases mem_spans.mp hr with ⟨-, rfl⟩ | hr
  · exact h.heap
  · exact h.region r hr

theorem All.registerRange {spec : VmaRegion} (hspec : spec.start < spec.stop → P (born spec))
    (g : Grants) : (s.registerRange spec g).store.All P := by
  rcases registerRange_cases s spec g with ⟨_, _, hstore⟩ | ⟨_, hstore, hlt, _⟩
  · rw [hstore]
    exact h
  rw [hstore]
  refine ⟨fun r hr => ?_, h.heap⟩
  rcases mem_append.mp hr with hr | hr
  · exact h.region r hr
  · rw [mem_singleton.mp hr]
    exact hspec hlt

theorem All.unregisterRange (hs : s.Sound) (hcut : Cuts P) (start stop : ℕ) (g : Grants) :
    (s.unregisterRange start stop g).store.All P := by
  refine ⟨fun r hr => ?_, by rw [s.unregisterRange_rest]; exact h.heap⟩
  have hspan := mem_spans.mpr (.inr hr)
  cases hres : (s.unregisterRange start stop g).result with
  | error e => exact h.spans ((hs.unregisterRange_error hres).mem_iff.mp hspan)
  | ok _ =>
    obtain ⟨r₀, hr₀, hclip⟩ := mem_flatMap.mp ((unregisterRange_ok hres).2.mem_iff.mp hspan)
    exact hcut start stop r₀ r (h.spans hr₀) hclip

theorem All.protect (hs : s.Sound) {start stop : ℕ} {terms : VmaProtection}
    (hcut : ∀ r ∈ s.spans, ∀ t ∈ recut start stop terms r, P t) (hheap : P (reterm terms s.heap))
    (g : Grants) : (s.protect start stop terms g).store.All P := by
  constructor
  · intro r hr
    have hspan := mem_spans.mpr (.inr hr)
    rcases hs.protect_cases start stop terms g with ⟨_, _, hstart⟩ | ⟨_, _, _, _, hp⟩
    · rw [hstart] at hspan
      exact h.spans hspan
    · obtain ⟨r₀, hr₀, hmem⟩ := mem_flatMap.mp (hp.mem_iff.mp hspan)
      exact hcut r₀ hr₀ r hmem
  · obtain ⟨heap, he, hrest⟩ := s.protect_rest start stop terms g
    rw [hrest]
    rcases he with rfl | rfl
    · exact h.heap
    · exact hheap

theorem All.moveHeapEnd (hok : s.StoreOk tidy lens) (hcut : Cuts P) {target : ℕ}
    (hext : s.heap.stop < alignUp target kSize → P (born (s.extension (alignUp target kSize))))
    (hheap : ∀ stop, s.heap.start ≤ stop → P { s.heap with stop := stop }) (g : Grants) :
    (s.moveHeapEnd target g).store.All P := by
  have hdrop := h.unregisterRange hok.sound hcut (alignUp target kSize) s.heap.stop g
  rcases moveHeapEnd_cases s target g with
    ⟨e, _, hstate | ⟨_, hstate⟩⟩ | ⟨_, hstate⟩ | ⟨_, hlow, hmax, t, hstate, ht⟩
  · rw [hstate]
    exact h
  · rw [hstate]
    exact hdrop
  · rw [hstate]
    exact h
  · rw [hstate]
    have hstop := (hok.wanted hmax).1
    -- whichever chain it is, the heap keeps its start
    have key : t.All P ∧ t.heap = s.heap := by
      rcases ht with ⟨_, hgrows, rfl⟩ | ⟨_, _, rfl⟩ | ⟨_, rfl, _⟩
      · exact ⟨h.registerRange (fun _ => hext hgrows) g, by rw [s.registerRange_rest]⟩
      · exact ⟨hdrop, by rw [s.unregisterRange_rest]⟩
      · exact ⟨h, rfl⟩
    refine ⟨key.1.region, ?_⟩
    show P { t.heap with stop := alignUp target kSize }
    rw [key.2]
    exact hheap _ (by omega)

theorem All.clone {c : VmaStore} {g : Grants} (hc : (s.clone g).1 = some c)
    (hcopy : ∀ r ∈ s.regions, P r → P (copyOf s.regions r)) : c.All P := by
  rw [clone_eq hc]
  refine ⟨fun r hr => ?_, h.heap⟩
  obtain ⟨r₀, hr₀, rfl⟩ := mem_map.mp hr
  exact hcopy r₀ hr₀ (h.region r₀ hr₀)

end

end VmaStore

end Cinux
