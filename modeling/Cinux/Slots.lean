/-
Tables of a fixed number of slots.

A slot is empty or holds one value.  The first slot with a match is found, the first
empty slot is filled, and a sweep empties the slots with a match one after another.

* `findIf`, `vacant`, `put`, `erase` — the operations;
* `sweep`, `sweep_eq` — emptying every slot with a match, and what that leaves;
* `Within`, `Keyed` — a table with less in it, and a table with one value for a key.
-/
import Mathlib

/-- A table of `n` slots. -/
abbrev Slots (n : ℕ) (α : Type) := Fin n → Option α

namespace Slots

open List

variable {n : ℕ} {α κ : Type} {t u : Slots n α} {p : α → Bool} {k : Fin n} {a v : α}

/-- The first slot that holds a match. -/
def findIf (t : Slots n α) (p : α → Bool) : Option (Fin n) :=
  (List.finRange n).find? fun k => (t k).any p

/-- The first empty slot. -/
def vacant (t : Slots n α) : Option (Fin n) :=
  (List.finRange n).find? fun k => (t k).isNone

/-- A value goes into a slot. -/
def put (t : Slots n α) (k : Fin n) (v : α) : Slots n α := Function.update t k (some v)

/-- A slot is emptied. -/
def erase (t : Slots n α) (k : Fin n) : Slots n α := Function.update t k none

/-- The slots that hold a match, in order. -/
def matching (t : Slots n α) (p : α → Bool) : List (Fin n) :=
  (List.finRange n).filter fun k => (t k).any p

/-- The table without its matches. -/
def without (t : Slots n α) (p : α → Bool) : Slots n α := fun k => (t k).filter fun a => !p a

/-- Find a match and empty its slot, until there is none; the slots emptied are returned. -/
def sweep (p : α → Bool) : ℕ → Slots n α → List (Fin n) × Slots n α
  | 0, t => ([], t)
  | fuel + 1, t =>
    match t.findIf p with
    | none => ([], t)
    | some k => (k :: (sweep p fuel (t.erase k)).1, (sweep p fuel (t.erase k)).2)

theorem findIf_none (h : t.findIf p = none) (ha : t k = some a) : p a = false := by
  have := find?_eq_none.mp h k (mem_finRange k)
  simpa [ha] using this

theorem findIf_some (h : t.findIf p = some k) : ∃ a, t k = some a ∧ p a = true := by
  have := find?_some h
  simpa [Option.any_eq_true] using this

theorem findIf_eq_none (h : ∀ j a, t j = some a → p a = false) : t.findIf p = none := by
  by_contra hne
  obtain ⟨k, hk⟩ := Option.ne_none_iff_exists'.mp hne
  obtain ⟨a, ha, hp⟩ := findIf_some hk
  exact absurd (h k a ha) (by simp [hp])

theorem findIf_isSome (ha : t k = some a) (hp : p a = true) : ∃ j, t.findIf p = some j := by
  cases h : t.findIf p with
  | none => exact absurd (findIf_none h ha) (by simp [hp])
  | some j => exact ⟨j, rfl⟩

theorem vacant_some (h : t.vacant = some k) : t k = none := by
  simpa using find?_some h

theorem vacant_none (h : t.vacant = none) (k : Fin n) : t k ≠ none := by
  have := find?_eq_none.mp h k (mem_finRange k)
  simpa using this

theorem put_self (t : Slots n α) (k : Fin n) (v : α) : t.put k v k = some v := by
  rw [put, Function.update_self]

theorem put_put (t : Slots n α) (k : Fin n) (v w : α) : (t.put k v).put k w = t.put k w := by
  rw [put, put, Function.update_idem, put]

theorem put_eq_some {j : Fin n} (h : t.put k v j = some a) :
    j = k ∧ a = v ∨ j ≠ k ∧ t j = some a := by
  by_cases e : j = k
  · subst e
    rw [put, Function.update_self] at h
    exact .inl ⟨rfl, (Option.some.inj h).symm⟩
  · rw [put, Function.update_of_ne e] at h
    exact .inr ⟨e, h⟩

theorem without_eq_some : t.without p k = some a ↔ t k = some a ∧ p a = false := by
  simp [without]

theorem mem_matching : k ∈ t.matching p ↔ (t k).any p = true := by
  simp [matching]

theorem matching_eq_nil : t.matching p = [] ↔ t.findIf p = none := by
  simp [matching, findIf]

theorem nodup_matching (t : Slots n α) (p : α → Bool) : (t.matching p).Nodup :=
  (nodup_finRange n).filter _

theorem without_of_findIf_none (h : t.findIf p = none) : t.without p = t := by
  funext k
  cases ha : t k with
  | none => simp [without, ha]
  | some a => exact without_eq_some.mpr ⟨ha, findIf_none h ha⟩

/-- Emptying the first match takes the head off the list of matches. -/
theorem matching_erase (h : t.findIf p = some k) : t.matching p = k :: (t.erase k).matching p := by
  have head : (t.matching p).head? = some k := by rw [matching, head?_filter]; exact h
  obtain ⟨rest, hrest⟩ : ∃ rest, t.matching p = k :: rest := head?_eq_some_iff.mp head
  have apart : ∀ j ∈ rest, j ≠ k := by
    intro j hj e
    exact (nodup_cons.mp (hrest ▸ nodup_matching t p)).1 (e ▸ hj)
  -- the matches after the erasure are the matches that are not the slot emptied
  have left : (t.erase k).matching p = (t.matching p).filter fun j => decide (j ≠ k) := by
    rw [matching, matching, filter_filter]
    refine filter_congr fun j _ => ?_
    by_cases e : j = k <;> simp [erase, e]
  rw [left, hrest, filter_cons_of_neg (by simp), filter_eq_self.mpr (by simpa using apart)]

theorem without_erase (h : t.findIf p = some k) : (t.erase k).without p = t.without p := by
  obtain ⟨a, ha, hp⟩ := findIf_some h
  funext j
  by_cases e : j = k
  · subst e; simp [erase, without, ha, hp, Option.filter]
  · simp [erase, without, e]

/-- With fuel for every match, a sweep empties each matching slot once and no other. -/
theorem sweep_eq : ∀ {fuel : ℕ} {t : Slots n α}, (t.matching p).length ≤ fuel →
    sweep p fuel t = (t.matching p, t.without p)
  | 0, t, h => by
    have hnil : t.matching p = [] := length_eq_zero_iff.mp (Nat.le_zero.mp h)
    rw [sweep, hnil, without_of_findIf_none (matching_eq_nil.mp hnil)]
  | fuel + 1, t, h => by
    rw [sweep]
    cases hk : t.findIf p with
    | none => simp only [matching_eq_nil.mpr hk, without_of_findIf_none hk]
    | some k =>
      rw [matching_erase hk, length_cons] at h
      simp only [sweep_eq (Nat.le_of_succ_le_succ h), matching_erase hk, without_erase hk]

/-- Every value of the one table is in the same slot of the other. -/
def Within (t u : Slots n α) : Prop := ∀ k a, t k = some a → u k = some a

theorem Within.refl (t : Slots n α) : t.Within t := fun _ _ h => h

theorem without_within (t : Slots n α) (p : α → Bool) : (t.without p).Within t :=
  fun _ _ h => (without_eq_some.mp h).1

theorem erase_within (t : Slots n α) (k : Fin n) : (t.erase k).Within t := by
  intro j a h
  by_cases e : j = k
  · subst e; simp [erase] at h
  · rwa [erase, Function.update_of_ne e] at h

/-- No two slots hold values with one key. -/
def Keyed (key : α → κ) (t : Slots n α) : Prop :=
  ∀ j k a b, t j = some a → t k = some b → key a = key b → j = k

theorem Keyed.within {key : α → κ} (h : Keyed key u) (hw : t.Within u) : Keyed key t :=
  fun j k a b ha hb => h j k a b (hw j a ha) (hw k b hb)

theorem Keyed.put {key : α → κ} (h : Keyed key t)
    (fresh : ∀ j a, t j = some a → key a = key v → j = k) : Keyed key (t.put k v) := by
  intro i j a b ha hb e
  rcases put_eq_some ha with ⟨rfl, rfl⟩ | ⟨_, ha'⟩ <;>
    rcases put_eq_some hb with ⟨rfl, rfl⟩ | ⟨_, hb'⟩
  · rfl
  · exact (fresh j b hb' e.symm).symm
  · exact fresh i a ha' e
  · exact h i j a b ha' hb' e

end Slots
