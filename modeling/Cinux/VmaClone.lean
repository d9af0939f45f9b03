/-
What a copy of the register keeps.

`clone` rebuilds the attachments of shared segments: pieces of one attachment
must share one new attachment, and it recognises the pieces by the start of
their attachment alone.  So the copy of a region carries the attachment of the
*first* region on the chain whose attachment starts there (`clone_eq`).

* `clone_faithful_iff` — the copy promises what the original does exactly when
  no two attachments on the chain differ under one start;
* `clone_swaps_attachment` — two attachments can share a start: attach two
  pages, withdraw the first, attach another segment in its place.
-/
import Cinux.VmaView

namespace Cinux

open List Option

/-- The frame `FillPage` picks for a shared page: the one at the page's distance
from the start of the attachment.  `frames` lists the frames of each segment. -/
def VmaRegion.segmentFrame (frames : ℕ → List ℕ) (r : VmaRegion) (page : ℕ) : Option ℕ :=
  r.shared.bind fun attached => (frames attached.pages)[sub64 page attached.start / kSize]?

/-- Whether the region is a shared one whose attachment starts at `start`. -/
def attachedAt (start : ℕ) (r : VmaRegion) : Bool := r.shared.any (·.start == start)

variable {r : VmaRegion} {l : List VmaRegion} {c : VmaStore} {g : Grants}

namespace VmaStore

variable {s : VmaStore}

theorem attachedAt_iff {start : ℕ} :
    attachedAt start r = true ↔ ∃ t, r.shared = some t ∧ t.start = start := by
  cases h : r.shared with
  | none => simp [attachedAt, h]
  | some t => simp [attachedAt, h]

/-- The attachment of the first region whose attachment starts at `start`. -/
def firstAttachment (l : List VmaRegion) (start : ℕ) : Option SharedAttachment :=
  (l.find? (attachedAt start)).bind (·.shared)

/-- What `clone` files for `r` when the chain is `l`. -/
def copyOf (l : List VmaRegion) (r : VmaRegion) : VmaRegion :=
  born { r with shared := r.shared.bind fun t => firstAttachment l t.start }

theorem born_fields (r : VmaRegion) :
    (born r).kind = r.kind ∧ (born r).terms = r.terms ∧ (born r).backing = r.backing ∧
      (born r).shared = r.shared ∧ (born r).fileOffset = r.fileOffset := by
  unfold born
  by_cases h : r.kind = .stack ∧ r.stackFloor = 0
  · rw [if_pos h]
    exact ⟨rfl, by simp only [VmaRegion.terms], rfl, rfl, rfl⟩
  · rw [if_neg h]
    exact ⟨rfl, rfl, rfl, rfl, rfl⟩

theorem copyOf_shared (l : List VmaRegion) (r : VmaRegion) :
    (copyOf l r).shared = r.shared.bind fun t => firstAttachment l t.start :=
  (born_fields _).2.2.2.1

theorem firstAttachment_of_mem {t : SharedAttachment} (hr : r ∈ l) (ht : r.shared = some t) :
    ∃ u, firstAttachment l t.start = some u ∧ u.start = t.start := by
  have hso : (l.find? (attachedAt t.start)).isSome = true :=
    find?_isSome.mpr ⟨r, hr, attachedAt_iff.mpr ⟨t, ht, rfl⟩⟩
  obtain ⟨b, hb⟩ := Option.isSome_iff_exists.mp hso
  obtain ⟨u, hu, hstart⟩ := attachedAt_iff.mp (find?_some hb)
  exact ⟨u, by rw [firstAttachment, hb, bind_some, hu], hstart⟩

/-- The copy of a region is attached where the region is. -/
theorem attachedAt_copyOf (hr : r ∈ l) (start : ℕ) :
    attachedAt start (copyOf l r) = attachedAt start r := by
  unfold attachedAt
  rw [copyOf_shared]
  cases ht : r.shared with
  | none => rfl
  | some t =>
    obtain ⟨u, hu, hstart⟩ := firstAttachment_of_mem hr ht
    simp [hu, hstart]

/-- With the regions before it copied, `clone` gives the next region the first
attachment of the whole chain that starts where its own does. -/
theorem attachmentFor_eq {l before after : List VmaRegion} {scan : VmaRegion} {copy : VmaStore}
    {g g' : Grants} {attached : Option SharedAttachment} (hl : l = before ++ scan :: after)
    (hcopy : copy.regions = before.map (copyOf l))
    (h : attachmentFor copy scan g = (some attached, g')) :
    attached = scan.shared.bind fun t => firstAttachment l t.start := by
  unfold attachmentFor at h
  cases ht : scan.shared with
  | none =>
    rw [ht] at h
    simpa using (congrArg Prod.fst h).symm
  | some t =>
    rw [ht] at h
    have hfind : copy.regions.find? (attachedAt t.start)
        = (before.find? (attachedAt t.start)).map (copyOf l) := by
      rw [hcopy, find?_map]
      congr 1
      refine find?_congr fun r hr => ?_
      exact attachedAt_copyOf (by rw [hl]; simp [hr]) t.start
    dsimp only at h
    rw [show (fun b : VmaRegion => b.shared.any (·.start == t.start)) = attachedAt t.start from rfl,
      hfind] at h
    cases hb : before.find? (attachedAt t.start) with
    | some r =>
      -- an earlier region is attached there: its copy lends its attachment
      rw [hb] at h
      obtain ⟨u, hu, hstart⟩ := attachedAt_iff.mp (find?_some hb)
      have hatt : (copyOf l r).shared = attached := by
        simpa using congrArg Prod.fst h
      rw [← hatt, copyOf_shared, hu, bind_some, bind_some, hstart]
    | none =>
      -- the region is the first of its start: its attachment is rebuilt
      rw [hb] at h
      have hscan : attachedAt t.start scan = true := attachedAt_iff.mpr ⟨t, ht, rfl⟩
      have hfirst : firstAttachment l t.start = some t := by
        rw [firstAttachment, hl, find?_append, hb, Option.none_or,
          find?_cons_of_pos hscan, bind_some, ht]
      rw [Option.map_none] at h
      dsimp only at h
      split at h
      · simpa [hfirst] using (congrArg Prod.fst h).symm
      · cases h

theorem cloneRegions_eq : ∀ (before after : List VmaRegion)
    {copy copy' : VmaStore} {g g' : Grants}, l = before ++ after →
    copy.regions = before.map (copyOf l) → cloneRegions after copy g = (some copy', g') →
    copy' = { copy with regions := l.map (copyOf l) } := by
  intro before after
  induction after generalizing before with
  | nil =>
    intro copy copy' g g' hl hcopy h
    simp only [cloneRegions, Prod.mk.injEq, Option.some.injEq] at h
    rw [append_nil] at hl
    subst hl
    rw [← h.1, ← hcopy]
  | cons scan rest ih =>
    intro copy copy' g g' hl hcopy h
    obtain ⟨attached, g₁, g₂, ha, _, hregion⟩ := cloneRegions_step h
    have hatt := attachmentFor_eq hl hcopy ha
    have hnext := ih (before ++ [scan]) (by rw [hl]; simp) (by simp [hcopy, copyOf, hatt]) hregion
    exact hnext

/-- The copy is the original with every region replaced by its `copyOf`. -/
theorem clone_eq (h : (s.clone g).1 = some c) :
    c = { s with regions := s.regions.map (copyOf s.regions) } := by
  obtain ⟨g₁, g', hc⟩ := clone_some h
  have := cloneRegions_eq [] s.regions rfl rfl hc
  simpa [blankCopy] using this

/-! ### When the copy is faithful -/

/-- No two attachments on the chain differ under one start. -/
def AttachmentsAgree (s : VmaStore) : Prop :=
  ∀ r ∈ s.regions, ∀ r' ∈ s.regions, ∀ t ∈ r.shared, ∀ t' ∈ r'.shared,
    t.start = t'.start → t = t'

instance (s : VmaStore) : Decidable s.AttachmentsAgree :=
  inferInstanceAs (Decidable (∀ r ∈ s.regions, ∀ r' ∈ s.regions, ∀ t ∈ r.shared, ∀ t' ∈ r'.shared,
    t.start = t'.start → t = t'))

@[simp] theorem copyOf_start (l : List VmaRegion) (r : VmaRegion) :
    (copyOf l r).start = r.start := by simp [copyOf]

@[simp] theorem copyOf_stop (l : List VmaRegion) (r : VmaRegion) :
    (copyOf l r).stop = r.stop := by simp [copyOf]

theorem copyOf_covers {a : ℕ} : (copyOf l r).Covers a ↔ r.Covers a := by
  simp [Spans.Covers]

theorem clone_spans (h : (s.clone g).1 = some c) :
    r ∈ c.spans ↔ (s.heapLoose = true ∧ r = s.heap) ∨ ∃ t ∈ s.regions, copyOf s.regions t = r := by
  rw [clone_eq h, mem_spans]
  simp [heapLoose]

/-- Where a region of the chain is found, the copy finds its `copyOf`. -/
theorem Sound.clone_find_region (hs : s.Sound) (h : (s.clone g).1 = some c) {a : ℕ}
    (hr : r ∈ s.regions) (hc : r.Covers a) :
    c.find a = some (copyOf s.regions r) :=
  (hs.clone h).find_eq_some.mpr ⟨(clone_spans h).mpr (.inr ⟨r, hr, rfl⟩), copyOf_covers.mpr hc⟩

/-- Elsewhere the copy answers as the original. -/
theorem Sound.clone_find_cases (hs : s.Sound) (h : (s.clone g).1 = some c) (a : ℕ) :
    c.find a = s.find a ∨ ∃ r ∈ s.regions, s.find a = some r ∧
      c.find a = some (copyOf s.regions r) := by
  cases hf : s.find a with
  | none =>
    refine .inl (find_eq_none.mpr fun x hx hcov => ?_)
    rcases (clone_spans h).mp hx with ⟨hl, rfl⟩ | ⟨r, hr, rfl⟩
    · exact find_eq_none.mp hf s.heap (mem_spans.mpr (.inl ⟨hl, rfl⟩)) hcov
    · exact find_eq_none.mp hf r (mem_spans.mpr (.inr hr)) (copyOf_covers.mp hcov)
  | some r =>
    obtain ⟨hmem, hcov⟩ := hs.find_eq_some.mp hf
    rcases mem_spans.mp hmem with ⟨hl, rfl⟩ | hr
    · exact .inl ((hs.clone h).find_eq_some.mpr ⟨(clone_spans h).mpr (.inl ⟨hl, rfl⟩), hcov⟩)
    · exact .inr ⟨r, hr, rfl, hs.clone_find_region h hr hcov⟩

theorem AttachmentsAgree.copyOf_shared_eq (ha : s.AttachmentsAgree) (hr : r ∈ s.regions) :
    (copyOf s.regions r).shared = r.shared := by
  rw [copyOf_shared]
  cases ht : r.shared with
  | none => rfl
  | some t =>
    rw [bind_some]
    obtain ⟨u, hu, hstart⟩ := firstAttachment_of_mem hr ht
    obtain ⟨b, hb, hbu⟩ := Option.bind_eq_some_iff.mp hu
    rw [hu, ha b (mem_of_find?_eq_some hb) r hr u hbu t ht hstart]

/-- The copy answers at `a` with the kind, the terms, the file backing with its
position, and the attachment of the original, so that a fill at `a` picks the
frame it would pick there. -/
def FaithfulAt (s c : VmaStore) (a : ℕ) : Prop :=
  (c.view a).map (fun p => (p.kind, p.terms, p.backing, p.position, p.shared))
      = (s.view a).map (fun p => (p.kind, p.terms, p.backing, p.position, p.shared)) ∧
    ∀ frames, (c.find a).bind (·.segmentFrame frames (alignDown a kSize))
      = (s.find a).bind (·.segmentFrame frames (alignDown a kSize))

theorem faithfulAt_of_shared {a : ℕ} (hs : s.find a = some r) (hc : c.find a = some (copyOf l r))
    (hshared : (copyOf l r).shared = r.shared) : s.FaithfulAt c a := by
  obtain ⟨hk, ht, hb, _, ho⟩ := born_fields
    { r with shared := r.shared.bind fun t => firstAttachment l t.start }
  refine ⟨?_, fun frames => ?_⟩
  · rw [view, view, hs, hc]
    simp only [map_some, VmaRegion.promise, hshared, copyOf_start]
    rw [copyOf, hk, ht, hb, ho]
    rfl
  · rw [hs, hc, bind_some, bind_some, VmaRegion.segmentFrame, VmaRegion.segmentFrame, hshared]

/-- In every store a run reaches, a granted copy promises at every address what
the original does exactly when no two attachments on the chain differ under
one start. -/
theorem clone_faithful_iff (calls : List (VmaCall × Grants)) (g : Grants) (c : VmaStore)
    (hc : ((run {} calls).clone g).1 = some c) :
    (∀ a, (run {} calls).FaithfulAt c a) ↔ (run {} calls).AttachmentsAgree := by
  have hs := run_sound calls
  generalize run {} calls = s at hc hs ⊢
  constructor
  · intro hall r hr r' hr' t ht t' ht' hstart
    -- read the copy at the first address of each region
    have key : ∀ r ∈ s.regions, ∀ t, r.shared = some t →
        firstAttachment s.regions t.start = some t := by
      intro r hr t ht
      have hcov : r.Covers r.start :=
        ⟨le_refl _, hs.tiled.nonempty r (mem_spans.mpr (.inr hr))⟩
      have hfind := hs.find_eq_some.mpr ⟨mem_spans.mpr (.inr hr), hcov⟩
      have hsame := (hall r.start).1
      rw [view, view, hfind, hs.clone_find_region hc hr hcov] at hsame
      simp only [map_some, Option.some.injEq, Prod.mk.injEq, VmaRegion.promise] at hsame
      have hshared := hsame.2.2.2.2
      rwa [copyOf_shared, ht, bind_some] at hshared
    have h1 := key r hr t ht
    have h2 := key r' hr' t' ht'
    rw [hstart, h2] at h1
    exact (Option.some.inj h1).symm
  · intro hagree a
    rcases hs.clone_find_cases hc a with h | ⟨r, hr, hf, hfc⟩
    · refine ⟨by rw [view, view, h], fun frames => by rw [h]⟩
    · exact faithfulAt_of_shared hf hfc (hagree.copyOf_shared_eq hr)

/-! ### Two attachments under one start -/

/-- The region `shmat` files for a segment: the attachment spans the region. -/
def attachRegion (pages start stop : ℕ) : VmaRegion :=
  { start := start, stop := stop, kind := .anonymous, readable := true, writable := true
    shared := some ⟨pages, start, stop⟩ }

/-- Attach segment 1, of two pages; withdraw its first page; attach segment 2,
of one page, where that page was. -/
def reattach : List (VmaCall × Grants) :=
  [(.registerRange (attachRegion 1 0x10000 0x12000), []), (.unregisterRange 0x10000 0x11000, []),
    (.registerRange (attachRegion 2 0x10000 0x11000), [])]

/-- The copy has segment 1 where segment 2 was attached in place of its first page. -/
theorem clone_swaps_attachment :
    ∃ c, ((run {} reattach).clone []).1 = some c ∧
      ((run {} reattach).find 0x10000).bind (·.shared) = some ⟨2, 0x10000, 0x11000⟩ ∧
      (c.find 0x10000).bind (·.shared) = some ⟨1, 0x10000, 0x12000⟩ ∧
      ¬ (run {} reattach).FaithfulAt c 0x10000 := by
  refine ⟨_, rfl, rfl, rfl, ?_⟩
  intro h
  exact absurd h.1 (by decide)

/-- A single attachment, split, is copied faithfully. -/
theorem clone_faithful_split :
    ∃ c, ((run {} (reattach.take 2)).clone []).1 = some c ∧
      ∀ a, (run {} (reattach.take 2)).FaithfulAt c a := by
  refine ⟨_, rfl, (clone_faithful_iff (reattach.take 2) [] _ rfl).mpr ?_⟩
  decide

end VmaStore

end Cinux
