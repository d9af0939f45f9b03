/-
Half-open spans on a linear order.

A register of address ranges is a list whose entries each name a half-open
span `[lo r, hi r)`.  This file is about such lists alone: nothing here knows
what else an entry carries.

* `Tiled lo hi l` — the spans of `l` are non-empty and pairwise apart;
* `lookup lo hi l a` — the first entry whose span covers `a`;
* `Tiled.lookup_eq_some` — on a tiled list the first hit is the only hit, so
  `lookup` does not depend on the order of the list (`Tiled.lookup_perm`);
* `Tiled.flatMap`, `Tiled.lookup_flatMap` — replacing every entry by pieces of
  itself keeps the list tiled, and looks up pointwise.

The last two are how every rewriting of a register (clipping, splitting,
changing terms) is reasoned about: the operation is a `flatMap`, up to order.
-/
import Mathlib

namespace Spans

open List

variable {ι α : Type*} [LinearOrder α] (lo hi : ι → α)

/-- The span of `r` covers the point `a`. -/
def Covers (r : ι) (a : α) : Prop := lo r ≤ a ∧ a < hi r

instance (r : ι) (a : α) : Decidable (Covers lo hi r a) :=
  inferInstanceAs (Decidable (_ ∧ _))

/-- One span ends before the other begins. -/
def Apart (r t : ι) : Prop := hi r ≤ lo t ∨ hi t ≤ lo r

/-- Non-empty spans, pairwise apart. -/
structure Tiled (l : List ι) : Prop where
  nonempty : ∀ r ∈ l, lo r < hi r
  apart : l.Pairwise (Apart lo hi)

/-- The first entry of the list whose span covers `a`. -/
def lookup (l : List ι) (a : α) : Option ι := l.find? fun r => decide (Covers lo hi r a)

variable {lo hi}

theorem Apart.symm {r t : ι} (h : Apart lo hi r t) : Apart lo hi t r := Or.symm h

variable {a : α} {r : ι}

theorem Apart.not_covers {r t : ι} (h : Apart lo hi r t) (hr : Covers lo hi r a) :
    ¬ Covers lo hi t a := by
  rintro ⟨h1, h2⟩
  rcases h with h | h
  · exact absurd (lt_of_lt_of_le hr.2 (le_trans h h1)) (lt_irrefl a)
  · exact absurd (lt_of_lt_of_le h2 (le_trans h hr.1)) (lt_irrefl a)

/-! ### Tiled lists -/

theorem tiled_nil : Tiled lo hi ([] : List ι) := ⟨by simp, List.Pairwise.nil⟩

theorem tiled_cons {l : List ι} :
    Tiled lo hi (r :: l) ↔ lo r < hi r ∧ (∀ t ∈ l, Apart lo hi r t) ∧ Tiled lo hi l := by
  constructor
  · rintro ⟨hne, hap⟩
    rw [pairwise_cons] at hap
    exact ⟨hne r (by simp), hap.1, fun t ht => hne t (by simp [ht]), hap.2⟩
  · rintro ⟨hr, hap, hl⟩
    refine ⟨fun t ht => ?_, pairwise_cons.mpr ⟨hap, hl.apart⟩⟩
    rcases mem_cons.mp ht with rfl | ht
    · exact hr
    · exact hl.nonempty t ht

theorem tiled_append {l l' : List ι} : Tiled lo hi (l ++ l') ↔
      Tiled lo hi l ∧ Tiled lo hi l' ∧ ∀ r ∈ l, ∀ t ∈ l', Apart lo hi r t := by
  constructor
  · rintro ⟨hne, hap⟩
    obtain ⟨h1, h2, h3⟩ := pairwise_append.mp hap
    exact ⟨⟨fun r hr => hne r (by simp [hr]), h1⟩, ⟨fun r hr => hne r (by simp [hr]), h2⟩, h3⟩
  · rintro ⟨hl, hl', hap⟩
    refine ⟨fun r hr => ?_, pairwise_append.mpr ⟨hl.apart, hl'.apart, hap⟩⟩
    rcases mem_append.mp hr with hr | hr
    · exact hl.nonempty r hr
    · exact hl'.nonempty r hr

theorem Tiled.perm {l l' : List ι} (h : Tiled lo hi l) (hp : l.Perm l') : Tiled lo hi l' :=
  ⟨fun r hr => h.nonempty r (hp.mem_iff.mpr hr), hp.pairwise h.apart fun h => h.symm⟩

theorem Tiled.sublist {l l' : List ι} (h : Tiled lo hi l') (hs : l.Sublist l') : Tiled lo hi l :=
  ⟨fun r hr => h.nonempty r (hs.subset hr), h.apart.sublist hs⟩

/-! ### Lookup -/

theorem mem_of_lookup {l : List ι} (h : lookup lo hi l a = some r) : r ∈ l ∧ Covers lo hi r a :=
  ⟨mem_of_find?_eq_some h, by simpa using find?_some h⟩

theorem lookup_eq_none {l : List ι} : lookup lo hi l a = none ↔ ∀ r ∈ l, ¬ Covers lo hi r a := by
  simp [lookup]

theorem lookup_append {l l' : List ι} :
    lookup lo hi (l ++ l') a = (lookup lo hi l a).or (lookup lo hi l' a) := by
  simp [lookup]

theorem lookup_singleton_of_covers (h : Covers lo hi r a) : lookup lo hi [r] a = some r := by
  simp [lookup, h]

theorem lookup_singleton_of_not_covers (h : ¬ Covers lo hi r a) : lookup lo hi [r] a = none := by
  simp [lookup, h]

/-- On a tiled list every covering entry is the one `lookup` answers. -/
theorem Tiled.lookup_eq_some {l : List ι} (h : Tiled lo hi l) :
    lookup lo hi l a = some r ↔ r ∈ l ∧ Covers lo hi r a := by
  refine ⟨mem_of_lookup, ?_⟩
  induction l with
  | nil => simp
  | cons t l ih =>
    obtain ⟨_, hap, hl⟩ := tiled_cons.mp h
    rintro ⟨hmem, hcov⟩
    by_cases ht : Covers lo hi t a
    · -- the head covers `a`, so nothing behind it does
      rcases mem_cons.mp hmem with rfl | hmem
      · simp [lookup, ht]
      · exact absurd hcov ((hap r hmem).not_covers ht)
    · rcases mem_cons.mp hmem with rfl | hmem
      · exact absurd hcov ht
      · have := ih hl ⟨hmem, hcov⟩
        simpa [lookup, ht] using this

theorem Tiled.lookup_perm {l l' : List ι} (h : Tiled lo hi l) (hp : l.Perm l') (a : α) :
    lookup lo hi l a = lookup lo hi l' a := by
  refine Option.ext fun r => ?_
  rw [h.lookup_eq_some, (h.perm hp).lookup_eq_some, hp.mem_iff]

/-- At most one entry of a tiled list covers a point. -/
theorem Tiled.filter_length_le_one {l : List ι} (h : Tiled lo hi l) (a : α) :
    (l.filter fun r => decide (Covers lo hi r a)).length ≤ 1 := by
  induction l with
  | nil => simp
  | cons t l ih =>
    obtain ⟨_, hap, hl⟩ := tiled_cons.mp h
    by_cases ht : Covers lo hi t a
    · have : l.filter (fun r => decide (Covers lo hi r a)) = [] := by
        rw [filter_eq_nil_iff]
        intro r hr
        simpa using (hap r hr).not_covers ht
      simp [ht, this]
    · simpa [ht] using ih hl

/-! ### Replacing every entry by pieces of itself -/

/-- `t` lies inside the span of `r`. -/
def Within (lo hi : ι → α) (r t : ι) : Prop := lo r ≤ lo t ∧ hi t ≤ hi r

theorem Apart.within {r t r' t' : ι} (h : Apart lo hi r t) (hr : Within lo hi r r')
    (ht : Within lo hi t t') : Apart lo hi r' t' := by
  rcases h with h | h
  · exact .inl (le_trans hr.2 (le_trans h ht.1))
  · exact .inr (le_trans ht.2 (le_trans h hr.1))

variable {f : ι → List ι} {l : List ι}

section

variable (h : Tiled lo hi l) (hf : ∀ r ∈ l, Tiled lo hi (f r))
  (hin : ∀ r ∈ l, ∀ t ∈ f r, Within lo hi r t)
include h hf hin

theorem Tiled.flatMap : Tiled lo hi (l.flatMap f) := by
  induction l with
  | nil => exact tiled_nil
  | cons r l ih =>
    obtain ⟨_, hap, hl⟩ := tiled_cons.mp h
    rw [flatMap_cons, tiled_append]
    refine ⟨hf r (by simp), ih hl (fun t ht => hf t (by simp [ht]))
      (fun t ht => hin t (by simp [ht])), fun p hp q hq => ?_⟩
    obtain ⟨t, ht, hqt⟩ := mem_flatMap.mp hq
    exact (hap t ht).within (hin r (by simp) p hp) (hin t (by simp [ht]) q hqt)

theorem Tiled.lookup_flatMap (a : α) :
    lookup lo hi (l.flatMap f) a = (lookup lo hi l a).bind fun r => lookup lo hi (f r) a := by
  refine Option.ext fun p => ?_
  rw [(h.flatMap hf hin).lookup_eq_some, Option.bind_eq_some_iff]
  constructor
  · rintro ⟨hmem, hcov⟩
    obtain ⟨r, hr, hp⟩ := mem_flatMap.mp hmem
    exact ⟨r, h.lookup_eq_some.mpr ⟨hr, (hin r hr p hp).1.trans hcov.1,
      hcov.2.trans_le (hin r hr p hp).2⟩,
      (hf r hr).lookup_eq_some.mpr ⟨hp, hcov⟩⟩
  · rintro ⟨r, hr, hp⟩
    obtain ⟨hmem, -⟩ := h.lookup_eq_some.mp hr
    obtain ⟨hpair, hcov⟩ := (hf r hmem).lookup_eq_some.mp hp
    exact ⟨mem_flatMap.mpr ⟨r, hmem, hpair⟩, hcov⟩

end

end Spans
