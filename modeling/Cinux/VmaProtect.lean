/-
What `protect` does to the register.

Every region the stretch touches is replaced by up to three parts, the middle
one under the new terms, and the heap is moved onto the chain when the stretch
cuts it.  Up to order this is one recutting of every span
(`Sound.protect_cases`), which keeps the register sound (`Sound.protect`).

`spanKnown_iff` — the gate in front of it answers true exactly when every
address of the stretch is covered — and `protect_ok_iff` say when it succeeds.
-/
import Cinux.VmaSpans

namespace Cinux

open List
open Spans (Tiled tiled_nil tiled_cons tiled_append Within)

variable {terms : VmaProtection} {start stop : ℕ} {g : Grants}

namespace VmaStore

variable {s : VmaStore}

/-! ### Recutting -/

/-- Filing untouched entries first and the pieces of touched ones last is
rewriting every entry in place, up to order. -/
theorem filter_append_flatMap_perm {ι : Type*} (p : ι → Bool) (f : ι → List ι)
    (hf : ∀ r, p r = false → f r = [r]) (l : List ι) :
    (l.filter (!p ·) ++ (l.filter p).flatMap f).Perm (l.flatMap f) := by
  induction l with
  | nil => simp
  | cons r l ih =>
    cases hr : p r with
    | false =>
      simp only [filter_cons, hr, flatMap_cons, hf r hr]
      exact List.Perm.cons r ih
    | true =>
      simp only [filter_cons, hr, if_true, flatMap_cons]
      refine List.Perm.trans ?_ (List.Perm.append_left (f r) ih)
      rw [← append_assoc, ← append_assoc]
      exact perm_append_comm.append_right _

/-- The parts `stage_protection` makes of one region. -/
def parts (start stop : ℕ) (terms : VmaProtection) (r : VmaRegion) : List VmaRegion :=
  [(0, r.start, max start r.start), (1, max start r.start, min stop r.stop),
    (2, min stop r.stop, r.stop)].filterMap fun c =>
      if c.2.1 = c.2.2 then none else some (protectedPart r terms c.1 c.2.1 c.2.2)

/-- What `protect` makes of one region. -/
def recut (start stop : ℕ) (terms : VmaProtection) (r : VmaRegion) : List VmaRegion :=
  if overlapsSpan r start stop then parts start stop terms r else [r]

section

variable (r : VmaRegion) (terms : VmaProtection) (i low high : ℕ)
include high

@[simp] theorem protectedPart_start :
    (protectedPart r terms i low high).start = low := by
  unfold protectedPart; split <;> rfl

@[simp] theorem protectedPart_stop :
    (protectedPart r terms i low high).stop = high := by
  unfold protectedPart; split <;> rfl

end

theorem stageParts_some {source : VmaRegion} :
    ∀ {cuts : List (ℕ × ℕ × ℕ)} {batch batch' : List VmaRegion} {g g' : Grants},
    stageParts source terms cuts batch g = (some batch', g') →
    batch' = batch ++ cuts.filterMap fun c =>
      if c.2.1 = c.2.2 then none else some (protectedPart source terms c.1 c.2.1 c.2.2) := by
  intro cuts
  induction cuts with
  | nil =>
    intro batch batch' g g' h
    simp only [stageParts, Prod.mk.injEq, Option.some.injEq] at h
    simp [h.1]
  | cons c cuts ih =>
    intro batch batch' g g' h
    obtain ⟨index, low, high⟩ := c
    rw [stageParts] at h
    by_cases hlh : low = high
    · rw [if_pos hlh] at h
      rw [ih h]
      simp [hlh]
    rw [if_neg hlh] at h
    by_cases hg : (grant g).1 = true
    · rw [if_pos hg] at h
      rw [ih h]
      simp [hlh]
    · rw [if_neg hg] at h
      nomatch h

theorem stageProtection_some {batch batch' : List VmaRegion} {source : VmaRegion} {g g' : Grants}
    (h : stageProtection batch source start stop terms g = (some batch', g')) :
    batch' = batch ++ parts start stop terms source :=
  stageParts_some h

theorem stageChain_some : ∀ {todo batch batch' : List VmaRegion} {g g' : Grants},
    stageChain start stop terms todo batch g = (some batch', g') →
    batch' = batch ++
      (todo.filter (overlapsSpan · start stop)).flatMap (recut start stop terms) := by
  intro todo
  induction todo with
  | nil =>
    intro batch batch' g g' h
    simp only [stageChain, Prod.mk.injEq, Option.some.injEq] at h
    simp [h.1]
  | cons scan rest ih =>
    intro batch batch' g g' h
    rw [stageChain] at h
    by_cases ho : overlapsSpan scan start stop = true
    · rw [if_pos ho] at h
      rcases hstart : stageProtection batch scan start stop terms g with ⟨_ | b, g₁⟩
      · rw [hstart] at h
        nomatch h
      · rw [hstart] at h
        rw [ih h, stageProtection_some hstart, filter_cons, if_pos ho]
        simp [recut, ho]
    · rw [if_neg ho] at h
      rw [ih h, filter_cons, if_neg ho]

/-- The region under new terms. -/
def reterm (terms : VmaProtection) (r : VmaRegion) : VmaRegion :=
  { r with
    readable := terms.readable
    writable := terms.writable
    executable := terms.executable }

theorem recut_whole {r : VmaRegion} (h1 : start ≤ r.start) (h2 : r.stop ≤ stop)
    (hr : r.start < r.stop) (h0 : r.fileOffset = 0) :
    recut start stop terms r = [reterm terms r] := by
  have ho : overlapsSpan r start stop = true := overlapsSpan_iff.mpr ⟨by omega, by omega⟩
  have e1 : max start r.start = r.start := max_eq_right h1
  have e2 : min stop r.stop = r.stop := min_eq_right h2
  have e3 : ¬ r.start = r.stop := ne_of_lt hr
  simp [recut, ho, parts, e1, e2, e3, protectedPart, reterm, h0, wrap]

/-- A granted `protect` recuts every span; a refused one changes nothing. -/
theorem Sound.protect_cases (hs : s.Sound) (start stop : ℕ) (terms : VmaProtection) (g : Grants) :
    (∃ e, (s.protect start stop terms g).result = .error e ∧
      (s.protect start stop terms g).store = s) ∨
    ((s.protect start stop terms g).result = .ok () ∧ start < stop ∧
      (s.protect start stop terms g).store.heap.fileOffset = 0 ∧
      (s.protect start stop terms g).store.heapBreak = s.heapBreak ∧
      (s.protect start stop terms g).store.spans.Perm
        (s.spans.flatMap (recut start stop terms))) := by
  unfold protect
  by_cases h1 : start ≥ stop ∨ (!s.spanKnown start stop) = true
  · rw [if_pos h1]
    exact .inl ⟨_, rfl, rfl⟩
  rw [if_neg h1]
  rw [not_or, not_le] at h1
  rcases hstart : stageChain start stop terms s.regions [] g with ⟨_ | batch, g₁⟩
  · exact .inl ⟨_, rfl, rfl⟩
  have hbatch := stageChain_some hstart
  have hchain : (s.regions.filter (!overlapsSpan · start stop) ++ batch).Perm
      (s.regions.flatMap (recut start stop terms)) := by
    rw [hbatch]
    exact filter_append_flatMap_perm _ _ (fun r hr => by simp [recut, hr]) _
  by_cases hcov : (s.heapLoose && overlapsSpan s.heap start stop) = true
  · obtain ⟨hl, ho⟩ : s.heapLoose = true ∧ overlapsSpan s.heap start stop = true := by
      simpa using hcov
    obtain ⟨hrec, hne⟩ := heapLoose_iff.mp hl
    by_cases hwhole : (decide (start ≤ s.heap.start) && decide (s.heap.stop ≤ stop)) = true
    · -- the whole heap: it stays off the chain and its terms change in place
      obtain ⟨hw1, hw2⟩ : start ≤ s.heap.start ∧ s.heap.stop ≤ stop := by simpa using hwhole
      refine .inr ?_
      simp only [hcov, hw1, hw2, decide_true, Bool.and_self, Bool.not_true, Bool.and_false,
        Bool.false_eq_true, if_false]
      refine ⟨trivial, h1.1, hs.heapOffset, trivial, ?_⟩
      have hspans : s.spans.flatMap (recut start stop terms)
          = reterm terms s.heap :: s.regions.flatMap (recut start stop terms) := by
        simp [spans, hl, recut_whole hw1 hw2 hne hs.heapOffset]
      rw [hspans]
      simp only [spans, heapLoose, hrec, hne, if_true]
      exact List.Perm.cons _ hchain
    · -- a part of the heap: its pieces go on the chain
      have hw : (start ≤ s.heap.start && s.heap.stop ≤ stop) = false := by simpa using hwhole
      simp only [hcov, Bool.true_and, hw, Bool.not_false, if_true]
      rcases hstart' : stageProtection batch s.heap start stop terms g₁ with ⟨_ | batch', g₂⟩
      · exact .inl ⟨_, rfl, rfl⟩
      refine .inr ⟨rfl, h1.1, by simpa using hs.heapOffset, rfl, ?_⟩
      have hspans : s.spans.flatMap (recut start stop terms)
          = parts start stop terms s.heap ++ s.regions.flatMap (recut start stop terms) := by
        simp [spans, hl, recut, ho]
      rw [hspans, stageProtection_some hstart']
      simp only [Bool.or_true]
      rw [← append_assoc]
      exact (hchain.append_right _).trans perm_append_comm
  · -- the stretch does not meet a loose heap
    have hcov' : (s.heapLoose && overlapsSpan s.heap start stop) = false := by simpa using hcov
    refine .inr ?_
    simp only [hcov', Bool.false_and, Bool.false_eq_true, if_false,
      Bool.or_false]
    refine ⟨trivial, h1.1, hs.heapOffset, trivial, ?_⟩
    have hheap : (if s.heapLoose then [s.heap] else []).flatMap (recut start stop terms)
        = if s.heapLoose then [s.heap] else [] := by
      by_cases hl : s.heapLoose = true
      · have ho : overlapsSpan s.heap start stop = false := by simpa [hl] using hcov'
        simp [hl, recut, ho]
      · simp [hl]
    unfold spans
    rw [flatMap_append, hheap]
    exact List.Perm.append_left _ hchain

theorem recut_within {r t : VmaRegion} (ht : t ∈ recut start stop terms r) :
    Within VmaRegion.start VmaRegion.stop r t := by
  unfold recut at ht
  by_cases ho : overlapsSpan r start stop = true
  · rw [if_pos ho] at ht
    rw [overlapsSpan_iff] at ho
    obtain ⟨⟨i, low, high⟩, hmem, hpast⟩ := mem_filterMap.mp ht
    simp only [Option.ite_none_left_eq_some, Option.some.injEq] at hpast
    rw [← hpast.2]
    simp only [Within, protectedPart_start, protectedPart_stop]
    simp only [mem_cons, not_mem_nil, or_false] at hmem
    rcases hmem with ⟨-, rfl, rfl⟩ | ⟨-, rfl, rfl⟩ | ⟨-, rfl, rfl⟩ <;> omega
  · rw [if_neg ho] at ht
    rw [mem_singleton.mp ht]
    exact ⟨le_refl _, le_refl _⟩

theorem recut_tiled (hlt : start < stop) {r : VmaRegion} (hr : r.start < r.stop) :
    Tiled VmaRegion.start VmaRegion.stop (recut start stop terms r) := by
  unfold recut
  by_cases ho : overlapsSpan r start stop = true
  · rw [if_pos ho]
    rw [overlapsSpan_iff] at ho
    unfold parts
    constructor
    · intro t ht
      obtain ⟨⟨i, low, high⟩, hmem, hpast⟩ := mem_filterMap.mp ht
      simp only [Option.ite_none_left_eq_some, Option.some.injEq] at hpast
      rw [← hpast.2]
      simp only [protectedPart_start, protectedPart_stop]
      simp only [mem_cons, not_mem_nil, or_false] at hmem
      rcases hmem with ⟨-, rfl, rfl⟩ | ⟨-, rfl, rfl⟩ | ⟨-, rfl, rfl⟩ <;> omega
    · rw [pairwise_filterMap]
      simp only [Option.ite_none_left_eq_some, Option.some.injEq, and_imp, forall_apply_eq_imp_iff,
        pairwise_cons, mem_cons, not_mem_nil, forall_eq_or_imp,
        Spans.Apart, protectedPart_start, protectedPart_stop, List.Pairwise.nil, IsEmpty.forall_iff,
        implies_true, and_true]
      omega
  · rw [if_neg ho]
    exact tiled_cons.mpr ⟨hr, by simp, tiled_nil⟩

theorem Sound.protect (hs : s.Sound) (start stop : ℕ) (terms : VmaProtection) (g : Grants) :
    (s.protect start stop terms g).store.Sound := by
  rcases hs.protect_cases start stop terms g with ⟨_, _, hstart⟩ | ⟨_, hlt, h0, _, hp⟩
  · rw [hstart]
    exact hs
  · exact ⟨(hs.tiled.flatMap (fun r hr => recut_tiled hlt (hs.tiled.nonempty r hr))
      fun _ _ _ ht => recut_within ht).perm hp.symm, h0⟩

/-! ### When it succeeds -/

/-- The fold of `span_known` answers the highest end among its start value and
the regions that cover the spot. -/
theorem foldl_reachPast (spot : ℕ) : ∀ (l : List VmaRegion) (init : ℕ),
    (l.foldl (reachPast spot) init = init ∨
      ∃ r ∈ l, r.Covers spot ∧ l.foldl (reachPast spot) init = r.stop) ∧
    init ≤ l.foldl (reachPast spot) init ∧
    ∀ r ∈ l, r.Covers spot → r.stop ≤ l.foldl (reachPast spot) init := by
  intro l
  -- on the regions still to be looked at, for every end reached so far
  induction l with
  | nil =>
    intro init
    simp
  | cons t l ih =>
    intro init
    rw [foldl_cons]
    by_cases ht : t.start ≤ spot ∧ spot < t.stop
    · rw [reachPast, if_pos ht]
      obtain ⟨h1, h2, h3⟩ := ih (max init t.stop)
      refine ⟨?_, le_trans (le_max_left _ _) h2, fun r hr hc => ?_⟩
      · rcases h1 with h1 | ⟨r, hr, hc, h1⟩
        · rw [h1]
          rcases max_choice init t.stop with hm | hm
          · exact .inl hm
          · exact .inr ⟨t, by simp, ht, hm⟩
        · exact .inr ⟨r, by simp [hr], hc, h1⟩
      · rcases mem_cons.mp hr with rfl | hr
        · exact le_trans (le_max_right _ _) h2
        · exact h3 r hr hc
    · rw [reachPast, if_neg ht]
      obtain ⟨h1, h2, h3⟩ := ih init
      refine ⟨?_, h2, fun r hr hc => ?_⟩
      · rcases h1 with h1 | ⟨r, hr, hc, h1⟩
        · exact .inl h1
        · exact .inr ⟨r, by simp [hr], hc, h1⟩
      · rcases mem_cons.mp hr with rfl | hr
        · exact absurd hc ht
        · exact h3 r hr hc

theorem reachFrom_eq (s : VmaStore) (spot : ℕ) :
    s.reachFrom spot = s.spans.foldl (reachPast spot) spot := by
  rw [reachFrom, spans]
  unfold heapLoose covers
  cases s.heapRecorded with
  | true => rfl
  | false => grind [reachPast]

/-- From a covered spot the register reaches to the end of a region that covers
it; from an uncovered one it does not move. -/
theorem reachFrom_cases (s : VmaStore) (spot : ℕ) : (s.find spot = none ∧ s.reachFrom spot = spot) ∨
    ∃ r ∈ s.spans, r.Covers spot ∧ s.reachFrom spot = r.stop := by
  rw [reachFrom_eq, find_eq_none]
  obtain ⟨h1, -, h3⟩ := foldl_reachPast spot s.spans spot
  refine h1.imp_left fun h1 => ⟨fun r hr hc => ?_, h1⟩
  -- a region that covered the spot would have moved the reach past it
  have := h3 r hr hc
  rw [h1] at this
  exact absurd hc.2 (not_lt.mpr this)

theorem spanKnown_iff (hs : s.Sound) (spot stop : ℕ) :
    s.spanKnown spot stop = true ↔ ∀ a, spot ≤ a → a < stop → (s.find a).isSome = true := by
  -- one unfolding covers the region the spot lies in; the rest is a shorter stretch
  induction spot using VmaStore.spanKnown.induct s stop with
  | case1 spot h h' =>
    unfold spanKnown
    rw [dif_pos h, dif_pos h']
    refine iff_of_false (by simp) fun hall => ?_
    rcases s.reachFrom_cases spot with ⟨hno, _⟩ | ⟨r, _, hc, hr⟩
    · have := hall spot (le_refl _) h
      simp [hno] at this
    · have := hc.2
      omega
  | case2 spot h h' ih =>
    unfold spanKnown
    rw [dif_pos h, dif_neg h', ih]
    rcases s.reachFrom_cases spot with ⟨_, hspot⟩ | ⟨r, hmem, hc, hr⟩
    · omega
    constructor
    · intro hall a h1 h2
      by_cases ha : a < r.stop
      · have : s.find a = some r := hs.find_eq_some.mpr ⟨hmem, le_trans hc.1 h1, ha⟩
        simp [this]
      · exact hall a (by omega) h2
    · intro hall a h1 h2
      exact hall a (by omega) h2
  | case3 spot h =>
    unfold spanKnown
    rw [dif_neg h]
    exact iff_of_true rfl fun a h1 h2 => absurd (lt_of_le_of_lt h1 h2) h

/-- No allocation of the pattern is refused. -/
def Granted (g : Grants) : Prop := ∀ b ∈ g, b = true

theorem Granted.grant (h : Granted g) : (Cinux.grant g).1 = true ∧ Granted (Cinux.grant g).2 := by
  cases g with
  | nil => exact ⟨rfl, h⟩
  | cons b g => exact ⟨h b (by simp), fun c hc => h c (by simp [Cinux.grant] at hc; simp [hc])⟩

theorem stageParts_granted (source : VmaRegion) (terms : VmaProtection) :
    ∀ (cuts : List (ℕ × ℕ × ℕ)) (batch : List VmaRegion) {g : Grants}, Granted g →
    ∃ batch' g', stageParts source terms cuts batch g = (some batch', g') ∧ Granted g' := by
  intro cuts
  induction cuts with
  | nil =>
    intro batch g hg
    exact ⟨batch, g, rfl, hg⟩
  | cons c cuts ih =>
    intro batch g hg
    obtain ⟨index, low, high⟩ := c
    rw [stageParts]
    by_cases hlh : low = high
    · rw [if_pos hlh]
      exact ih _ hg
    · rw [if_neg hlh, if_pos hg.grant.1]
      exact ih _ hg.grant.2

theorem stageProtection_granted (batch : List VmaRegion) (source : VmaRegion) (start stop : ℕ)
    (terms : VmaProtection) (hg : Granted g) :
    ∃ batch' g', stageProtection batch source start stop terms g = (some batch', g') ∧ Granted g' :=
  stageParts_granted source terms _ batch hg

theorem stageChain_granted (start stop : ℕ) (terms : VmaProtection) :
    ∀ (todo batch : List VmaRegion) {g : Grants}, Granted g →
    ∃ batch' g', stageChain start stop terms todo batch g = (some batch', g') ∧ Granted g' := by
  intro todo
  induction todo with
  | nil =>
    intro batch g hg
    exact ⟨batch, g, rfl, hg⟩
  | cons scan rest ih =>
    intro batch g hg
    rw [stageChain]
    by_cases ho : overlapsSpan scan start stop = true
    · rw [if_pos ho]
      obtain ⟨b, g₁, hstart, hg₁⟩ := stageProtection_granted batch scan start stop terms hg
      rw [hstart]
      exact ih _ hg₁
    · rw [if_neg ho]
      exact ih _ hg

/-- With nothing refused, `protect` answers ok exactly on a non-empty stretch
the register knows. -/
theorem protect_ok_iff (hg : Granted g) : (s.protect start stop terms g).result = .ok () ↔
      start < stop ∧ s.spanKnown start stop = true := by
  unfold protect
  by_cases h1 : start ≥ stop ∨ (!s.spanKnown start stop) = true
  · rw [if_pos h1]
    refine iff_of_false (by simp) ?_
    rintro ⟨h2, h3⟩
    rcases h1 with h1 | h1
    · omega
    · simp [h3] at h1
  rw [if_neg h1]
  obtain ⟨batch, g₁, hstart, hg₁⟩ := stageChain_granted start stop terms s.regions [] hg
  rw [not_or, not_le] at h1
  refine iff_of_true ?_ ⟨h1.1, by simpa using h1.2⟩
  rw [hstart]
  obtain ⟨b, g₂, hheap, _⟩ := stageProtection_granted batch s.heap start stop terms hg₁
  simp only [hheap]
  split
  · rename_i h
    split at h <;> simp at h
  · rfl

end VmaStore

end Cinux
