/-
Families of tasks.

Who is whose child, who has ended, and which parents wait: the part of the scheduler that
`exit_current` and `wait_child` are about, with nothing of rows and processors in it.  The
operations are those of the source; `Kinship` ties them to the scheduler.

* `Family.detach`, `Family.retire` — the two halves of an exit;
* `detach_kin`, `detach_offspring`, `detach_waiters` — what the first half comes to;
* `Sound` — everybody on the list of offspring has a living parent, and no parent waits for a
  child that has ended;
* `Sound.exit`, `Sound.handOut`, `Sound.park`, `Sound.register` — the operations keep it.
-/
import Mathlib

namespace Cinux

open List Option Function

/-! ### Kin -/

/-- Whether a task has ended. -/
inductive Ending
  | alive
  | zombie
  | dead
deriving DecidableEq, Repr

/-- What a task's record says of its kin. -/
structure Kin where
  pid : ℕ
  tgid : ℕ
  pgid : ℕ
  parent : Option ℕ
  ending : Ending
deriving DecidableEq

/-- The records, the list of offspring, and the tasks that wait for a child. -/
@[ext] structure Family where
  kin : ℕ → Option Kin
  offspring : List ℕ
  waiters : List ℕ

namespace Family

/-- The family with one record changed. -/
def edit (F : Family) (t : ℕ) (f : Kin → Kin) : Family :=
  { F with kin := update F.kin t ((F.kin t).map f) }

/-- The task has ended and is not reaped. -/
def isZombie (F : Family) (t : ℕ) : Bool := (F.kin t).any fun k => k.ending = .zombie

/-- A parent hears of a child that has ended: its wait is over. -/
def tell (F : Family) (q : ℕ) : Family := { F with waiters := F.waiters.erase q }

/-- What becomes of a child whose parent ends: it goes to the adopter, or to nobody. -/
def orphaned (adopter : Option ℕ) (k : Kin) : Kin :=
  { k with
    parent := adopter
    ending := if adopter = none ∧ k.ending = .zombie then .dead else k.ending }

/-- The task's record names this parent. -/
def ChildOf (F : Family) (q t : ℕ) : Prop := ∃ k, F.kin t = some k ∧ k.parent = some q

instance (F : Family) (q t : ℕ) : Decidable (F.ChildOf q t) :=
  match h : F.kin t with
  | none => isFalse fun ⟨k, hk, _⟩ => by cases h.symm.trans hk
  | some k => decidable_of_iff (k.parent = some q)
      ⟨fun hp => ⟨k, h, hp⟩, fun ⟨_, hk, hp⟩ => by cases h.symm.trans hk; exact hp⟩

/-- One turn of the loop of `detach_offspring`. -/
def detachOne (dying : ℕ) (adopter : Option ℕ) (F : Family) (t : ℕ) : Family :=
  if F.ChildOf dying t then
    let moved := F.edit t (orphaned adopter)
    match adopter with
    | some a => if F.isZombie t then moved.tell a else moved
    | none => { moved with offspring := F.offspring.erase t }
  else F

/-- The offspring of a dying task go to the adopter. -/
def detach (F : Family) (dying : ℕ) (adopter : Option ℕ) : Family :=
  F.offspring.foldl (detachOne dying adopter) F

/-- The end of the task itself. -/
def retire (F : Family) (t : ℕ) : Family :=
  match F.kin t with
  | none => F
  | some k =>
    match k.parent with
    | some q =>
      if k.pid = k.tgid then (F.edit t fun k => { k with ending := .zombie }).tell q
      else { F.edit t (fun k => { k with ending := .dead }) with offspring := F.offspring.erase t }
    | none => F.edit t fun k => { k with ending := .dead }

/-- The children that a wait is about. -/
def Eligible (F : Family) (watcher : ℕ) (wanted : ℤ) (t : ℕ) : Prop :=
  ∃ w k, F.kin watcher = some w ∧ F.kin t = some k ∧ k.parent = some watcher ∧ k.pid = k.tgid ∧
    (wanted = -1 ∨ if wanted ≤ 0 then k.pgid = if wanted < -1 then (-wanted).toNat else w.pgid
      else (k.pid : ℤ) = wanted)

/-- A child is handed to the parent that waits for it. -/
def handOut (F : Family) (t : ℕ) : Family :=
  { F.edit t (fun k => { k with ending := .dead }) with offspring := F.offspring.erase t }

/-- A task waits for a child. -/
def park (F : Family) (t : ℕ) : Family := { F with waiters := F.waiters ++ [t] }

/-- A task is seated. -/
def register (F : Family) (t : ℕ) (k : Kin) : Family :=
  { F with
    kin := update F.kin t (some k)
    offspring := if k.parent.isSome then F.offspring ++ [t] else F.offspring }

section Lemmas

variable {F : Family} {t u q : ℕ} {k : Kin} {f : Kin → Kin}

@[simp] theorem edit_self (F : Family) (t : ℕ) (f : Kin → Kin) :
    (F.edit t f).kin t = (F.kin t).map f := update_self _ _ _

theorem edit_of_ne (h : u ≠ t) : (F.edit t f).kin u = F.kin u := update_of_ne h _ _

@[simp] theorem register_self (F : Family) (t : ℕ) (k : Kin) : (F.register t k).kin t = some k :=
  update_self _ _ _

theorem register_of_ne (h : u ≠ t) : (F.register t k).kin u = F.kin u := update_of_ne h _ _

theorem isZombie_iff : F.isZombie t = true ↔ ∃ k, F.kin t = some k ∧ k.ending = .zombie := by
  rw [isZombie, Option.any_eq_true]
  exact exists_congr fun k => and_congr_right fun _ => decide_eq_true_iff

theorem ChildOf.iff_of_kin {G : Family} (h : G.kin t = F.kin t) :
    G.ChildOf q t ↔ F.ChildOf q t := by
  rw [ChildOf, h, ChildOf]

end Lemmas

/-! ### The first half of an exit -/

section Detach

variable {F : Family} {dying t u : ℕ} {adopter : Option ℕ}

theorem detachOne_kin_of_ne (h : u ≠ t) : (detachOne dying adopter F t).kin u = F.kin u := by
  unfold detachOne
  split
  · cases adopter with
    | none => exact edit_of_ne h
    | some a =>
      simp only
      split
      · exact edit_of_ne h
      · exact edit_of_ne h
  · rfl

theorem detachOne_kin_self : (detachOne dying adopter F t).kin t =
    if F.ChildOf dying t then (F.kin t).map (orphaned adopter) else F.kin t := by
  unfold detachOne
  split
  · cases adopter with
    | none => exact edit_self F t _
    | some a =>
      simp only
      split
      · exact edit_self F t _
      · exact edit_self F t _
  · rfl

/-- The children of the dying task, of those that the loop comes to, are moved; nobody else
is. -/
theorem foldl_detachOne_kin : ∀ (cs : List ℕ) {F : Family}, cs.Nodup →
    (cs.foldl (detachOne dying adopter) F).kin u =
      if u ∈ cs ∧ F.ChildOf dying u then (F.kin u).map (orphaned adopter) else F.kin u := by
  intro cs
  induction cs with
  | nil => exact fun {F} _ => by simp
  | cons c cs ih =>
    intro F hnodup
    obtain ⟨hnot, hnodup⟩ := nodup_cons.mp hnodup
    rw [foldl_cons, ih hnodup]
    by_cases hu : u = c
    · subst hu
      rw [if_neg fun h => hnot h.1, detachOne_kin_self]
      simp
    · have hsame : (detachOne dying adopter F c).kin u = F.kin u := detachOne_kin_of_ne hu
      rw [hsame]
      simp only [ChildOf.iff_of_kin hsame, mem_cons, hu, false_or]

theorem foldl_detachOne_offspring (a : ℕ) (cs : List ℕ) :
    (cs.foldl (detachOne dying (some a)) F).offspring = F.offspring := by
  induction cs generalizing F with
  | nil => rfl
  | cons c cs ih =>
    rw [foldl_cons, ih]
    unfold detachOne
    split
    · simp only
      split <;> rfl
    · rfl

/-- Without an adopter the children leave the list. -/
theorem mem_foldl_detachOne_offspring : ∀ (cs : List ℕ) {F : Family}, cs.Nodup →
    F.offspring.Nodup → ((cs.foldl (detachOne dying none) F).offspring.Nodup ∧
      (u ∈ (cs.foldl (detachOne dying none) F).offspring ↔
        u ∈ F.offspring ∧ ¬ (u ∈ cs ∧ F.ChildOf dying u))) := by
  intro cs
  induction cs with
  | nil => exact fun {F} _ hF => ⟨hF, by simp⟩
  | cons c cs ih =>
    intro F hnodup hF
    obtain ⟨hnot, hnodup⟩ := nodup_cons.mp hnodup
    -- one child leaves the list if it is the dying task's
    have hone : (detachOne dying none F c).offspring.Nodup ∧
        (u ∈ (detachOne dying none F c).offspring ↔
          u ∈ F.offspring ∧ ¬ (u = c ∧ F.ChildOf dying u)) := by
      unfold detachOne
      split
      · rename_i hchild
        refine ⟨hF.erase c, (hF.mem_erase_iff).trans ?_⟩
        constructor
        · exact fun h => ⟨h.2, fun heq => h.1 heq.1⟩
        · exact fun h => ⟨fun heq => h.2 ⟨heq, heq ▸ hchild⟩, h.1⟩
      · rename_i hchild
        refine ⟨hF, (and_iff_left fun heq => ?_).symm⟩
        exact hchild (heq.1 ▸ heq.2)
    obtain ⟨hrest, hmem⟩ := ih hnodup hone.1
    refine ⟨hrest, hmem.trans ?_⟩
    rw [hone.2]
    by_cases hu : u = c
    · subst hu
      simp [hnot]
    · have hsame : (detachOne dying none F c).kin u = F.kin u := detachOne_kin_of_ne hu
      simp [hu, ChildOf.iff_of_kin hsame]

/-- With an adopter, it alone is told, and only of children that have ended. -/
theorem mem_foldl_detachOne_waiters (cs : List ℕ) : ∀ {F : Family}, cs.Nodup → F.waiters.Nodup →
    ((cs.foldl (detachOne dying adopter) F).waiters.Nodup ∧
      (u ∈ (cs.foldl (detachOne dying adopter) F).waiters ↔ u ∈ F.waiters ∧
        ¬ (adopter = some u ∧ ∃ c ∈ cs, F.ChildOf dying c ∧ F.isZombie c = true))) := by
  induction cs with
  | nil => exact fun {F} _ hF => ⟨hF, by simp⟩
  | cons c cs ih =>
    intro F hnodup hF
    obtain ⟨hnot, hnodup⟩ := nodup_cons.mp hnodup
    have hone : (detachOne dying adopter F c).waiters.Nodup ∧
        (u ∈ (detachOne dying adopter F c).waiters ↔ u ∈ F.waiters ∧
          ¬ (adopter = some u ∧ F.ChildOf dying c ∧ F.isZombie c = true)) := by
      unfold detachOne
      by_cases hchild : F.ChildOf dying c
      · rw [if_pos hchild]
        cases adopter with
        | none => exact ⟨hF, by simp [edit]⟩
        | some a =>
          simp only
          by_cases hz : F.isZombie c = true
          · rw [if_pos hz]
            refine ⟨hF.erase a, (hF.mem_erase_iff).trans ?_⟩
            simp only [hchild, hz, Option.some.injEq, and_true]
            exact and_comm.trans (and_congr_right fun _ => not_congr eq_comm)
          · rw [if_neg hz]
            exact ⟨hF, by simp [edit, hz]⟩
      · rw [if_neg hchild]
        exact ⟨hF, by simp [hchild]⟩
    obtain ⟨hrest, hmem⟩ := ih hnodup hone.1
    refine ⟨hrest, hmem.trans ?_⟩
    -- the children still to come are as they were
    have hlater : (∃ d ∈ cs, (detachOne dying adopter F c).ChildOf dying d ∧
        (detachOne dying adopter F c).isZombie d = true) ↔
        ∃ d ∈ cs, F.ChildOf dying d ∧ F.isZombie d = true := by
      refine exists_congr fun d => and_congr_right fun hd => ?_
      have hsame : (detachOne dying adopter F c).kin d = F.kin d :=
        detachOne_kin_of_ne fun heq => hnot (heq ▸ hd)
      rw [ChildOf.iff_of_kin hsame, isZombie, hsame, isZombie]
    rw [hone.2, hlater, and_assoc, ← not_or, ← and_or_left]
    simp only [mem_cons, exists_eq_or_imp]

variable (dying adopter)

theorem detach_kin (hF : F.offspring.Nodup) (u : ℕ) : (F.detach dying adopter).kin u =
    if u ∈ F.offspring ∧ F.ChildOf dying u then (F.kin u).map (orphaned adopter) else F.kin u :=
  foldl_detachOne_kin F.offspring hF

theorem detach_offspring (hF : F.offspring.Nodup) : (F.detach dying adopter).offspring.Nodup ∧
    ∀ u, u ∈ (F.detach dying adopter).offspring ↔
      u ∈ F.offspring ∧ ¬ (adopter = none ∧ F.ChildOf dying u) := by
  cases adopter with
  | some a =>
    rw [detach, foldl_detachOne_offspring]
    exact ⟨hF, fun u => by simp⟩
  | none =>
    refine ⟨(mem_foldl_detachOne_offspring (u := 0) F.offspring hF hF).1, fun u => ?_⟩
    refine (mem_foldl_detachOne_offspring F.offspring hF hF).2.trans ?_
    refine and_congr_right fun hu => not_congr ?_
    exact and_congr_left' (iff_of_true hu rfl)

theorem detach_waiters (hF : F.offspring.Nodup) (hw : F.waiters.Nodup) :
    (F.detach dying adopter).waiters.Nodup ∧ ∀ u, u ∈ (F.detach dying adopter).waiters ↔
      u ∈ F.waiters ∧ ¬ (adopter = some u ∧
        ∃ c ∈ F.offspring, F.ChildOf dying c ∧ F.isZombie c = true) :=
  ⟨(mem_foldl_detachOne_waiters (u := 0) F.offspring hF hw).1,
    fun _ => (mem_foldl_detachOne_waiters F.offspring hF hw).2⟩

end Detach

/-! ### The invariant -/

/-- Everybody on the list of offspring is there once, has not been taken away and has a living
parent; who has a parent is on the list; and nobody waits, in the words of `wanted`, for a
child that has ended. -/
structure Sound (wanted : ℕ → ℤ) (F : Family) : Prop where
  once : F.offspring.Nodup
  queued : F.waiters.Nodup
  listed : ∀ t ∈ F.offspring, ∃ k q p, F.kin t = some k ∧ k.ending ≠ .dead ∧ k.parent = some q ∧
    F.kin q = some p ∧ p.ending = .alive
  kept : ∀ t k, F.kin t = some k → k.ending ≠ .dead → k.parent ≠ none → t ∈ F.offspring
  zombies : ∀ t k, F.kin t = some k → k.ending = .zombie → k.parent ≠ none ∧ k.pid = k.tgid
  waits : ∀ t ∈ F.waiters, ∀ c, F.Eligible t (wanted t) c → F.isZombie c = false

section Sound

variable {F : Family} {wanted : ℕ → ℤ} {dying t u : ℕ} {adopter : Option ℕ} {k : Kin}

theorem orphaned_ending (h : k.ending ≠ .zombie) : (orphaned adopter k).ending = k.ending :=
  if_neg fun hz => h hz.2

theorem detach_alive (dying : ℕ) (adopter : Option ℕ) (hF : F.offspring.Nodup)
    (hk : F.kin t = some k) (halive : k.ending = .alive) :
    ∃ k', (F.detach dying adopter).kin t = some k' ∧ k'.ending = .alive := by
  rw [detach_kin _ _ hF]
  split
  · refine ⟨orphaned adopter k, by rw [hk, map_some], ?_⟩
    rw [orphaned_ending (by rw [halive]; exact Ending.noConfusion), halive]
  · exact ⟨k, hk, halive⟩

section

variable (h : Sound wanted F)

include h

/-- Afterwards the dying task has no children left that have not been taken away. -/
theorem detach_childless (hadopt : adopter ≠ some dying)
    (hk : (F.detach dying adopter).kin t = some k) (hlives : k.ending ≠ .dead) :
    k.parent ≠ some dying := by
  rw [detach_kin _ _ h.once] at hk
  split at hk
  · obtain ⟨k₀, -, rfl⟩ := map_eq_some_iff.mp hk
    exact hadopt
  · rename_i hother
    intro hpar
    exact hother ⟨h.kept t k hk hlives (by rw [hpar]; exact some_ne_none _), k, hk, hpar⟩

/-- Nobody waits for a child that has ended where it had ended before, and who waits is in the
group it was in. -/
theorem Sound.waits_of {G : Family} {c : ℕ} (hu : u ∈ F.waiters) (hc : G.Eligible u (wanted u) c)
    (hold : ∀ k, G.kin c = some k → k.ending = .zombie → k.parent = some u →
      F.kin c = some k ∧ ∀ w, G.kin u = some w → ∃ w₀, F.kin u = some w₀ ∧ w₀.pgid = w.pgid) :
    G.isZombie c = false := by
  obtain ⟨w, k, hw, hk, hpar, hleader, hwanted⟩ := hc
  rw [← Bool.not_eq_true, isZombie_iff]
  rintro ⟨k', hk', hz⟩
  obtain rfl := mem_unique hk hk'
  obtain ⟨hkF, hgroup⟩ := hold k hk hz hpar
  obtain ⟨w₀, hw₀, hgroup⟩ := hgroup w hw
  have hnever := h.waits u hu c ⟨w₀, k, hw₀, hkF, hpar, hleader, by rw [hgroup]; exact hwanted⟩
  rw [← Bool.not_eq_true, isZombie_iff] at hnever
  exact hnever ⟨k, hkF, hz⟩

theorem Sound.detach (hadopt : ∀ a, adopter = some a →
    a ≠ dying ∧ ∃ p, F.kin a = some p ∧ p.ending = .alive) :
    Sound wanted (F.detach dying adopter) := by
  have hkin := detach_kin dying adopter h.once
  have hli := detach_offspring dying adopter h.once
  have hwait := detach_waiters dying adopter h.once h.queued
  refine ⟨hli.1, hwait.1, fun t ht => ?_, fun t k hk hlives hpar => ?_,
    fun t k hk hz => ?_, fun t ht c hc => ?_⟩
  · obtain ⟨hmem, hstay⟩ := (hli.2 t).mp ht
    obtain ⟨k, q, p, hk, hlives, hq, hp, halive⟩ := h.listed t hmem
    by_cases hchild : F.ChildOf dying t
    · -- a child of the dying task: it has the adopter now
      cases adopter with
      | none => exact absurd ⟨rfl, hchild⟩ hstay
      | some a =>
        obtain ⟨-, p', hp', halive'⟩ := hadopt a rfl
        obtain ⟨r, hr, hra⟩ := detach_alive dying (some a) h.once hp' halive'
        refine ⟨orphaned (some a) k, a, r, ?_, ?_, rfl, hr, hra⟩
        · rw [hkin, if_pos ⟨hmem, hchild⟩, hk, map_some]
        · simpa [orphaned] using hlives
    · obtain ⟨r, hr, hra⟩ := detach_alive dying adopter h.once hp halive
      refine ⟨k, q, r, ?_, hlives, hq, hr, hra⟩
      rw [hkin, if_neg fun hc => hchild hc.2, hk]
  · rw [hkin] at hk
    split at hk
    · rename_i hmove
      obtain ⟨k₀, -, rfl⟩ := map_eq_some_iff.mp hk
      exact (hli.2 t).mpr ⟨hmove.1, fun hno => hpar hno.1⟩
    · rename_i hother
      have ht := h.kept t k hk hlives hpar
      exact (hli.2 t).mpr ⟨ht, fun hno => hother ⟨ht, hno.2⟩⟩
  · rw [hkin] at hk
    split at hk
    · obtain ⟨k₀, hk₀, rfl⟩ := map_eq_some_iff.mp hk
      have hcases : adopter ≠ none ∧ k₀.ending = .zombie := by
        simp only [orphaned] at hz
        split at hz
        · cases hz
        · rename_i hnot
          exact ⟨fun hno => hnot ⟨hno, hz⟩, hz⟩
      exact ⟨hcases.1, (h.zombies t k₀ hk₀ hcases.2).2⟩
    · exact h.zombies t k hk hz
  · obtain ⟨ht, hnot⟩ := (hwait.2 t).mp ht
    refine h.waits_of ht hc fun k hk hz hpar => ⟨?_, fun w hw => ?_⟩
    · rw [hkin] at hk
      split at hk
      · rename_i hmove
        obtain ⟨k₀, hk₀, rfl⟩ := map_eq_some_iff.mp hk
        have hpar : adopter = some t := hpar
        refine absurd ⟨hpar, c, hmove.1, hmove.2, isZombie_iff.mpr ⟨k₀, hk₀, ?_⟩⟩ hnot
        simpa [orphaned, hpar] using hz
      · exact hk
    · -- the watcher's own group is as it was
      rw [hkin] at hw
      split at hw
      · obtain ⟨w₀, hw₀, rfl⟩ := map_eq_some_iff.mp hw
        exact ⟨w₀, hw₀, rfl⟩
      · exact ⟨w, hw, rfl⟩

/-- One task changes but for its parent and its group; where it is not alive afterwards, nobody
has it as a living parent. -/
theorem Sound.edit {f : Kin → Kin} {G : Family} (hk : F.kin t = some k)
    (hkin : G.kin = (F.edit t f).kin) (hpar : (f k).parent = k.parent)
    (hgroup : (f k).pgid = k.pgid) (hchild : (f k).ending = .alive ∨
      ∀ u k, F.kin u = some k → k.ending ≠ .dead → k.parent ≠ some t)
    (hlives : (f k).ending ≠ .dead → k.ending ≠ .dead) (honce : G.offspring.Nodup)
    (hli : ∀ u, u ∈ G.offspring ↔ u ∈ F.offspring ∧ ¬ ((f k).ending = .dead ∧ u = t))
    (hqueued : G.waiters.Nodup) (hsub : ∀ u ∈ G.waiters, u ∈ F.waiters)
    (hens : (f k).ending = .zombie → k.parent ≠ none ∧ (f k).pid = (f k).tgid ∧
      ∀ q, k.parent = some q → q ∉ G.waiters) : Sound wanted G := by
  have hself : G.kin t = some (f k) := by rw [hkin, edit_self, hk, map_some]
  have hother : ∀ u, u ≠ t → G.kin u = F.kin u := fun u hu => by rw [hkin, edit_of_ne hu]
  refine ⟨honce, hqueued, fun u hu => ?_, fun u k' hk' hlive hp => ?_,
    fun u k' hk' hz => ?_, fun u hu c hc => ?_⟩
  · obtain ⟨hu, hstay⟩ := (hli u).mp hu
    obtain ⟨k', q, p, hk', hlive, hq, hp, halive⟩ := h.listed u hu
    -- the parent lives on
    obtain ⟨p', hp', halive'⟩ : ∃ p', G.kin q = some p' ∧ p'.ending = .alive := by
      by_cases hqt : q = t
      · subst hqt
        exact ⟨_, hself, hchild.resolve_right fun hno => hno u k' hk' hlive hq⟩
      · exact ⟨p, (hother q hqt).trans hp, halive⟩
    by_cases hut : u = t
    · subst hut
      obtain rfl := mem_unique hk hk'
      exact ⟨_, q, p', hself, fun hdead => hstay ⟨hdead, rfl⟩, hpar.trans hq, hp', halive'⟩
    · exact ⟨k', q, p', (hother u hut).trans hk', hlive, hq, hp', halive'⟩
  · by_cases hut : u = t
    · subst hut
      obtain rfl := mem_unique hself hk'
      exact (hli u).mpr ⟨h.kept u k hk (hlives hlive) (hpar ▸ hp), fun hdead => hlive hdead.1⟩
    · rw [hother u hut] at hk'
      exact (hli u).mpr ⟨h.kept u k' hk' hlive hp, fun hdead => hut hdead.2⟩
  · by_cases hut : u = t
    · subst hut
      obtain rfl := mem_unique hself hk'
      exact ⟨hpar ▸ (hens hz).1, (hens hz).2.1⟩
    · rw [hother u hut] at hk'
      exact h.zombies u k' hk' hz
  · refine h.waits_of (hsub u hu) hc fun k' hk' hz hp => ⟨?_, fun w hw => ?_⟩
    · by_cases hct : c = t
      · -- its own parent does not wait any more
        subst hct
        obtain rfl := mem_unique hself hk'
        exact absurd hu ((hens hz).2.2 u (hpar ▸ hp))
      · exact (hother c hct).symm.trans hk'
    · by_cases hut : u = t
      · subst hut
        obtain rfl := mem_unique hself hw
        exact ⟨k, hk, hgroup.symm⟩
      · exact ⟨w, (hother u hut).symm.trans hw, rfl⟩

section

variable (hk : F.kin t = some k)
include hk

theorem Sound.retire (halive : k.ending = .alive)
    (hchild : ∀ u k, F.kin u = some k → k.ending ≠ .dead → k.parent ≠ some t) :
    Sound wanted (F.retire t) := by
  have hlives : k.ending ≠ .dead := by rw [halive]; exact Ending.noConfusion
  rw [Family.retire, hk]
  simp only
  cases hpar : k.parent with
  | none =>
    -- it is on no list
    have hnot : t ∉ F.offspring := by
      intro ht
      obtain ⟨k', q, p, hk', -, hq, -, -⟩ := h.listed t ht
      rw [← mem_unique hk hk', hpar] at hq
      cases hq
    refine h.edit hk rfl rfl rfl (.inr hchild) (fun _ => hlives) h.once (fun u => ?_) h.queued
      (fun _ hu => hu) nofun
    exact ⟨fun hu => ⟨hu, fun heq => hnot (heq.2 ▸ hu)⟩, fun hu => hu.1⟩
  | some q =>
    simp only
    split
    · rename_i hleader
      refine h.edit hk rfl rfl rfl (.inr hchild) (fun _ => hlives) h.once (fun u => ?_)
        (h.queued.erase q) (fun u hu => mem_of_mem_erase hu)
        fun _ => ⟨?_, hleader, fun q' hq' => ?_⟩
      · exact (and_iff_left fun heq => nomatch heq.1).symm
      · rw [hpar]
        exact some_ne_none q
      · rw [hpar] at hq'
        obtain ⟨⟩ := hq'
        exact h.queued.not_mem_erase
    · refine h.edit hk rfl rfl rfl (.inr hchild) (fun _ => hlives) (h.once.erase t) (fun u => ?_)
        h.queued (fun _ hu => hu) nofun
      rw [h.once.mem_erase_iff]
      exact ⟨fun hu => ⟨hu.2, fun heq => hu.1 heq.2⟩, fun hu => ⟨fun heq => hu.2 ⟨rfl, heq⟩, hu.1⟩⟩

theorem Sound.exit (halive : k.ending = .alive)
    (hadopt : ∀ a, adopter = some a → a ≠ t ∧ ∃ p, F.kin a = some p ∧ p.ending = .alive) :
    Sound wanted ((F.detach t adopter).retire t) := by
  obtain ⟨k', hk', halive'⟩ := detach_alive t adopter h.once hk halive
  refine (h.detach hadopt).retire hk' halive' fun u k hk hlives => ?_
  exact detach_childless h (fun heq => (hadopt t heq).1 rfl) hk hlives

theorem Sound.zombie_childless (hz : k.ending = .zombie) (u : ℕ) (k' : Kin)
    (hk' : F.kin u = some k') (hlives : k'.ending ≠ .dead) : k'.parent ≠ some t := by
  intro hpar
  have hu := h.kept u k' hk' hlives (by rw [hpar]; exact some_ne_none t)
  obtain ⟨k'', q, p, hk'', -, hq, hp, halive⟩ := h.listed u hu
  rw [← mem_unique hk' hk'', hpar] at hq
  obtain ⟨⟩ := hq
  rw [← mem_unique hk hp, hz] at halive
  cases halive

theorem Sound.handOut (hz : k.ending = .zombie) : Sound wanted (F.handOut t) := by
  refine h.edit hk rfl rfl rfl (.inr (h.zombie_childless hk hz)) (fun hd => absurd rfl hd)
    (h.once.erase t) (fun u => ?_) h.queued (fun _ hu => hu) nofun
  show u ∈ F.offspring.erase t ↔ _
  rw [h.once.mem_erase_iff]
  exact ⟨fun hu => ⟨hu.2, fun heq => hu.1 heq.2⟩, fun hu => ⟨fun heq => hu.2 ⟨rfl, heq⟩, hu.1⟩⟩

end

/-- A parent begins to wait when none of the children it waits for has ended. -/
theorem Sound.park (ht : t ∉ F.waiters) {w : ℤ}
    (hno : ∀ c, F.Eligible t w c → F.isZombie c = false) :
    Sound (update wanted t w) (F.park t) := by
  refine ⟨h.once, ?_, h.listed, h.kept, h.zombies, fun u hu c hc => ?_⟩
  · exact h.queued.append (nodup_singleton t) (disjoint_singleton.mpr ht)
  · rcases mem_append.mp hu with hold | hnew
    · have hut : u ≠ t := by
        rintro rfl
        exact ht hold
      rw [update_of_ne hut] at hc
      exact h.waits u hold c hc
    · obtain rfl := mem_singleton.mp hnew
      rw [update_self] at hc
      exact hno c hc

/-- A new task is nobody's parent, and its own parent lives. -/
theorem Sound.register (hnew : F.kin t = none) (halive : k.ending = .alive)
    (hparent : ∀ q, k.parent = some q → ∃ p, F.kin q = some p ∧ p.ending = .alive) :
    Sound wanted (F.register t k) := by
  have hself := F.register_self t k
  have hother : ∀ u, u ≠ t → (F.register t k).kin u = F.kin u := fun u hu => register_of_ne hu
  have hseated : ∀ {u p}, F.kin u = some p → u ≠ t := by
    rintro u p hp rfl
    cases hnew.symm.trans hp
  have hfresh : t ∉ F.offspring := by
    intro ht
    obtain ⟨k', q, p, hk', -⟩ := h.listed t ht
    exact hseated hk' rfl
  have hmem : ∀ u, u ∈ (F.register t k).offspring ↔
      u ∈ F.offspring ∨ k.parent.isSome = true ∧ u = t := by
    intro u
    simp only [Family.register]
    split
    · rename_i hso
      simp [hso]
    · rename_i hno
      simp [hno]
  refine ⟨?_, h.queued, fun u hu => ?_, fun u k' hk' hlives hk'p => ?_, fun u k' hk' hz => ?_,
    fun u hu c hc => ?_⟩
  · simp only [Family.register]
    split
    · exact h.once.append (nodup_singleton t) (disjoint_singleton.mpr hfresh)
    · exact h.once
  · rcases (hmem u).mp hu with hu | ⟨hso, rfl⟩
    · obtain ⟨k', q, p, hk', hlives, hq, hp, hpa⟩ := h.listed u hu
      exact ⟨k', q, p, (hother u (hseated hk')).trans hk', hlives, hq,
        (hother q (hseated hp)).trans hp, hpa⟩
    obtain ⟨q, hq⟩ := isSome_iff_exists.mp hso
    obtain ⟨p, hp, hpa⟩ := hparent q hq
    refine ⟨k, q, p, hself, ?_, hq, (hother q (hseated hp)).trans hp, hpa⟩
    rw [halive]
    exact Ending.noConfusion
  · by_cases hut : u = t
    · subst hut
      obtain rfl := mem_unique hself hk'
      exact (hmem u).mpr (.inr ⟨isSome_iff_ne_none.mpr hk'p, rfl⟩)
    · rw [hother u hut] at hk'
      exact (hmem u).mpr (.inl (h.kept u k' hk' hlives hk'p))
  · by_cases hut : u = t
    · subst hut
      rw [← mem_unique hself hk', halive] at hz
      cases hz
    · rw [hother u hut] at hk'
      exact h.zombies u k' hk' hz
  · refine h.waits_of hu hc fun k' hk' hz hpar => ?_
    have hct : c ≠ t := by
      rintro rfl
      rw [← mem_unique hself hk', halive] at hz
      cases hz
    rw [hother c hct] at hk'
    -- a child that has ended has a parent that was there before
    have hlives : k'.ending ≠ .dead := by rw [hz]; exact Ending.noConfusion
    obtain ⟨k'', q, p, hk'', -, hq, hp, -⟩ := h.listed c (h.kept c k' hk' hlives (by
      rw [hpar]; exact some_ne_none u))
    rw [← mem_unique hk' hk'', hpar] at hq
    obtain ⟨⟩ := hq
    exact ⟨hk', fun w hw => ⟨w, (hother u (hseated hp)).symm.trans hw, rfl⟩⟩

theorem Sound.join (hk : F.kin t = some k) (halive : k.ending = .alive) (g : ℕ) :
    Sound wanted (F.edit t fun k => { k with tgid := g }) := by
  have hnot : ∀ {e}, e ≠ .alive → k.ending ≠ e := fun he hc => he (hc.symm.trans halive)
  exact h.edit hk rfl rfl rfl (.inl halive) id h.once
    (fun u => (and_iff_left fun hd => hnot Ending.noConfusion hd.1).symm) h.queued
    (fun _ hu => hu) fun hz => absurd hz (hnot Ending.noConfusion)

end

end Sound

/-! ### Who has gone where -/

/-- The children that an exit takes away: those that led a group and are dead after it. -/
def taken (F : Family) (dying : ℕ) (after : Family) : List ℕ :=
  F.offspring.filter fun u => decide (F.ChildOf dying u) &&
    (F.kin u).any (fun k => k.pid = k.tgid) && (after.kin u).any fun k => k.ending = .dead

/-- Of the leaders that have ended while they had a parent (`left`), those that are zombies
have gone nowhere, and the others have gone once; `gone` counts how often. -/
structure Tally (left : List ℕ) (gone : ℕ → ℕ) (F : Family) : Prop where
  ended : ∀ t ∈ left, ∃ k, F.kin t = some k ∧
    (k.ending = .zombie ∧ gone t = 0 ∨ k.ending = .dead ∧ gone t = 1)
  zombies : ∀ t k, F.kin t = some k → k.ending = .zombie → t ∈ left
  came : ∀ t, gone t ≠ 0 → t ∈ left

section Tally

variable {F G : Family} {wanted : ℕ → ℤ} {left : List ℕ} {gone : ℕ → ℕ} {t u : ℕ}
  {adopter : Option ℕ} {k : Kin}

/-- What the tally says of one task. -/
def Recorded (left : Prop) (gone : ℕ) (ending : Option Ending) : Prop :=
  (left → ending = some .zombie ∧ gone = 0 ∨ ending = some .dead ∧ gone = 1) ∧
    (ending = some .zombie → left) ∧ (gone ≠ 0 → left)

theorem tally_iff :
    Tally left gone F ↔ ∀ t, Recorded (t ∈ left) (gone t) ((F.kin t).map Kin.ending) := by
  constructor
  · intro h t
    refine ⟨fun ht => ?_, fun hz => ?_, h.came t⟩
    · obtain ⟨k, hk, hend⟩ := h.ended t ht
      simpa [hk] using hend
    · obtain ⟨k, hk, hz⟩ := map_eq_some_iff.mp hz
      exact h.zombies t k hk hz
  · intro h
    refine ⟨fun t ht => ?_, fun t k hk hz => (h t).2.1 (by rw [hk, map_some, hz]),
      fun t => (h t).2.2⟩
    have hend := (h t).1 ht
    cases hk : F.kin t with
    | none => simp [hk] at hend
    | some k => exact ⟨k, rfl, by simpa [hk] using hend⟩

theorem Tally.alive (h : Tally left gone F) (hk : F.kin t = some k) (halive : k.ending = .alive) :
    t ∉ left ∧ gone t = 0 := by
  obtain ⟨hend, -, hcame⟩ := tally_iff.mp h t
  have hnot : t ∉ left := by simpa [hk, halive] using hend
  exact ⟨hnot, not_not.mp fun hgone => hnot (hcame hgone)⟩

theorem Tally.congr (h : Tally left gone F)
    (hkin : ∀ u, (G.kin u).map Kin.ending = (F.kin u).map Kin.ending ∨
      F.kin u = none ∧ (G.kin u).map Kin.ending = some .alive) : Tally left gone G := by
  refine tally_iff.mpr fun u => ?_
  have hu := tally_iff.mp h u
  rcases hkin u with hsame | ⟨hno, halive⟩
  · rwa [hsame]
  · rw [hno] at hu
    rw [halive]
    exact ⟨fun hl => by simpa using hu.1 hl, nofun, hu.2.2⟩

theorem Tally.handOut (h : Tally left gone F) (hk : F.kin t = some k) (hz : k.ending = .zombie) :
    Tally left (fun u => gone u + if u = t then 1 else 0) (F.handOut t) := by
  refine tally_iff.mpr fun u => ?_
  have hu := tally_iff.mp h u
  by_cases hut : u = t
  · subst hut
    have hself : (F.handOut u).kin u = some { k with ending := .dead } := by
      show (F.edit u _).kin u = _
      rw [edit_self, hk, map_some]
    rw [hk, map_some, hz] at hu
    rw [hself, if_pos rfl]
    have hleft := hu.2.1 rfl
    have hzero : gone u = 0 := by simpa using hu.1 hleft
    exact ⟨fun _ => .inr ⟨rfl, by rw [hzero]⟩, nofun, fun _ => hleft⟩
  · rw [show (F.handOut t).kin u = F.kin u from edit_of_ne hut, if_neg hut]
    exact hu

/-- What an exit makes of everybody but the task itself. -/
theorem exit_kin_of_ne (adopter : Option ℕ) (hF : F.offspring.Nodup) (hu : u ≠ t) :
    ((F.detach t adopter).retire t).kin u =
      if u ∈ F.offspring ∧ F.ChildOf t u then (F.kin u).map (orphaned adopter) else F.kin u := by
  rw [← detach_kin _ _ hF]
  unfold retire
  split
  · rfl
  split
  · split
    · exact edit_of_ne hu
    · exact edit_of_ne hu
  · exact edit_of_ne hu

/-- The task itself is a zombie if it leads its group and still has a parent. -/
theorem exit_kin_self (adopter : Option ℕ) (hF : F.offspring.Nodup) (hk : F.kin t = some k)
    (halive : k.ending = .alive) :
    ∃ parent, parent = (if t ∈ F.offspring ∧ k.parent = some t then adopter else k.parent) ∧
      ((F.detach t adopter).retire t).kin t = some { k with
        parent := parent
        ending := if parent ≠ none ∧ k.pid = k.tgid then .zombie else .dead } := by
  refine ⟨_, rfl, ?_⟩
  have hchild : F.ChildOf t t ↔ k.parent = some t :=
    ⟨fun ⟨k', hk', hp⟩ => by rwa [← mem_unique hk hk'] at hp, fun hp => ⟨k, hk, hp⟩⟩
  have hdet : (F.detach t adopter).kin t = some { k with
      parent := if t ∈ F.offspring ∧ k.parent = some t then adopter else k.parent } := by
    rw [detach_kin _ _ hF, hk]
    by_cases hown : t ∈ F.offspring ∧ k.parent = some t
    · have hnot : ¬ (adopter = none ∧ k.ending = .zombie) := by simp [halive]
      rw [if_pos ⟨hown.1, hchild.mpr hown.2⟩, if_pos hown, map_some, orphaned, if_neg hnot]
    · rw [if_neg fun h => hown ⟨h.1, hchild.mp h.2⟩, if_neg hown]
  generalize (if t ∈ F.offspring ∧ k.parent = some t then adopter else k.parent) = parent at hdet
  unfold retire
  rw [hdet]
  cases parent with
  | none =>
    simp only [ne_eq, not_true_eq_false, false_and, if_false]
    rw [edit_self, hdet, map_some]
  | some q =>
    simp only [ne_eq, reduceCtorEq, not_false_eq_true, true_and]
    split
    · show ((F.detach t adopter).edit t _).kin t = _
      rw [edit_self, hdet, map_some]
    · rw [edit_self, hdet, map_some]

theorem mem_taken : u ∈ F.taken t G ↔ u ∈ F.offspring ∧ F.ChildOf t u ∧
    (∃ k, F.kin u = some k ∧ k.pid = k.tgid) ∧ ∃ k, G.kin u = some k ∧ k.ending = .dead := by
  rw [taken, mem_filter, Bool.and_eq_true, Bool.and_eq_true,
    Option.any_eq_true, Option.any_eq_true, and_assoc]
  simp only [decide_eq_true_eq]

theorem count_taken (hF : F.offspring.Nodup) (u : ℕ) :
    (F.taken t G).count u = if u ∈ F.taken t G then 1 else 0 := by
  have hnodup : (F.taken t G).Nodup := hF.filter _
  split
  · rename_i hu
    exact count_eq_one_of_mem hnodup hu
  · rename_i hu
    exact count_eq_zero.mpr hu

/-- **An exit keeps the tally.**  The task itself joins those that have ended; the children
that nobody takes over have gone. -/
theorem Tally.exit (h : Tally left gone F) (adopter : Option ℕ) (hsound : Sound wanted F)
    (hk : F.kin t = some k)
    (halive : k.ending = .alive) :
    Tally (if k.parent ≠ none ∧ k.pid = k.tgid then left ++ [t] else left)
      (fun u => gone u + (F.taken t ((F.detach t adopter).retire t)).count u)
      ((F.detach t adopter).retire t) := by
  obtain ⟨hfresh, hzero⟩ := h.alive hk halive
  have hother := fun u (hu : u ≠ t) => exit_kin_of_ne adopter hsound.once hu
  obtain ⟨parent, hpar, hself⟩ := exit_kin_self adopter hsound.once hk halive
  generalize (F.detach t adopter).retire t = G at hother hself
  refine tally_iff.mpr fun u => ?_
  have hu := tally_iff.mp h u
  rw [count_taken hsound.once]
  by_cases hut : u = t
  · subst hut
    have hleft : (u ∈ if k.parent ≠ none ∧ k.pid = k.tgid then left ++ [u] else left) ↔
        k.parent ≠ none ∧ k.pid = k.tgid := by
      split
      next hends => exact iff_of_true (by simp) hends
      next hends => exact iff_of_false hfresh hends
    -- it goes at once if it was its own parent, and has nobody now
    have htaken : u ∈ F.taken u G ↔ (u ∈ F.offspring ∧ k.parent = some u) ∧ k.pid = k.tgid ∧
        parent = none := by
      rw [mem_taken]
      simp only [ChildOf]
      grind
    simp only [Recorded]
    grind
  · have hleft : (u ∈ if k.parent ≠ none ∧ k.pid = k.tgid then left ++ [t] else left) ↔
        u ∈ left := by split <;> simp [hut]
    rw [hleft]
    by_cases hmove : u ∈ F.offspring ∧ F.ChildOf t u
    · -- an orphan goes if it was a zombie, and there is nobody to take it
      obtain ⟨k₀, -, -, hk₀, hlives, -⟩ := hsound.listed u hmove.1
      have hkin : G.kin u = some (orphaned adopter k₀) := by
        rw [hother u hut, if_pos hmove, hk₀, map_some]
      have hleader := hsound.zombies u k₀ hk₀
      have htaken : u ∈ F.taken t G ↔ adopter = none ∧ k₀.ending = .zombie := by
        rw [mem_taken]
        simp only [hkin, orphaned]
        grind
      rw [hkin]
      simp only [Recorded, orphaned] at hu ⊢
      grind
    · rw [if_neg fun ht => hmove ⟨(mem_taken.mp ht).1, (mem_taken.mp ht).2.1⟩, hother u hut,
        if_neg hmove]
      exact hu

end Tally

end Family

end Cinux
