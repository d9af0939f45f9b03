/-
Waking the waiters of a word (`kernel/proc/futex.cpp`).

All tasks that wait on user words stand in one of 256 buckets, each with the address it waits
on, and `WakeUserWord` walks one bucket.  An address names a different word in every address
space, but a task does not say in its bucket which space its address is of.

* `Sched.wakeUserWord` — the walk, and `wakeUserWord_eq`, what it comes to;
* `Within.step` — a row never holds more than it has places for;
* `wakes_own_first_iff` — when the walk wakes the first waiters of the caller's own word;
* `wakes_another_space` — a run in which it wakes somebody else's waiter.
-/
import Cinux.Wakeups

namespace Cinux

open List Runs

namespace Sched

/-! ### The walk -/

/-- The loop of `WakeUserWord` over what is left of the bucket. -/
def wakeWalk (uaddr count : ℕ) : List ℕ → Sched × ℕ → Sched × ℕ
  | [], s => s
  | t :: rest, (σ, woken) =>
    if woken < count then
      if σ.uaddrOf t = some uaddr then
        wakeWalk uaddr count rest (σ.takeOff (bucketFor uaddr) t, woken + 1)
      else wakeWalk uaddr count rest (σ, woken)
    else (σ, woken)

/-- `WakeUserWord`, with the number that it returns. -/
def wakeUserWord (σ : Sched) (uaddr count : ℕ) : Sched × ℕ :=
  wakeWalk uaddr count (σ.waiting (bucketFor uaddr)) (σ, 0)

/-- The address space of a task. -/
def spaceOf (σ : Sched) (t : ℕ) : Option ℕ := (σ.tasks t).bind SchedTask.space

/-- The tasks parked on an address, in the order they came. -/
def parkedOn (σ : Sched) (uaddr : ℕ) : List ℕ :=
  (σ.waiting (bucketFor uaddr)).filter fun t => σ.uaddrOf t = some uaddr

/-- Those of them that are of an address space. -/
def parkedIn (σ : Sched) (space : Option ℕ) (uaddr : ℕ) : List ℕ :=
  (σ.parkedOn uaddr).filter fun t => σ.spaceOf t = space

section Walk

variable {σ : Sched} {t u : ℕ} {p : Place}

theorem uaddrOf_edit {f : SchedTask → SchedTask} (hf : ∀ x, (f x).futexUaddr = x.futexUaddr) :
    (σ.edit t f).uaddrOf u = σ.uaddrOf u := by
  by_cases hu : u = t
  · subst hu
    rw [uaddrOf, edit_self, Option.map_map]
    exact congrArg (fun g => Option.map g (σ.tasks u)) (funext hf)
  · rw [uaddrOf, edit_of_ne hu, uaddrOf]

theorem uaddrOf_takeOff : (σ.takeOff p t).uaddrOf u = σ.uaddrOf u := by
  unfold takeOff unblock
  split
  · rfl
  rename_i x hx
  split
  · cases hq : (σ.setWaiting p ((σ.waiting p).erase t)).enqueue t x with
    | none => rfl
    | some queued =>
      obtain ⟨-, rfl⟩ := enqueue_eq_some hq
      exact uaddrOf_edit fun _ => rfl
  · rfl

/-- The walk takes off the first tasks on the word that are left, as many as may still be
woken. -/
theorem wakeWalk_eq (uaddr count : ℕ) : ∀ (rest : List ℕ) (σ : Sched) (woken : ℕ),
    wakeWalk uaddr count rest (σ, woken) =
      (((rest.filter fun t => σ.uaddrOf t = some uaddr).take (count - woken)).foldl
          (takeOff · (bucketFor uaddr)) σ,
        woken + ((rest.filter fun t => σ.uaddrOf t = some uaddr).take (count - woken)).length) := by
  intro rest
  induction rest with
  | nil => exact fun σ woken => by simp [wakeWalk]
  | cons t rest ih =>
    intro σ woken
    rw [wakeWalk]
    by_cases hmore : woken < count
    · rw [if_pos hmore]
      by_cases hon : σ.uaddrOf t = some uaddr
      · -- the addresses of the others are as they were
        obtain ⟨left, hleft⟩ : ∃ left, count - woken = left + 1 := ⟨count - woken - 1, by omega⟩
        have hrest : count - (woken + 1) = left := by omega
        have hfirst : ((t :: rest).filter fun t => σ.uaddrOf t = some uaddr) =
            t :: rest.filter fun t => σ.uaddrOf t = some uaddr :=
          filter_cons_of_pos (by simpa using hon)
        rw [if_pos hon, ih, hrest, hleft, hfirst, take_succ_cons, foldl_cons,
          length_cons]
        simp only [uaddrOf_takeOff]
        rw [Nat.add_assoc, Nat.add_comm 1]
      · rw [if_neg hon, ih, filter_cons_of_neg (by simpa using hon)]
    · rw [if_neg hmore, Nat.sub_eq_zero_of_le (by omega)]
      rfl

/-- **`WakeUserWord` takes the first `count` tasks on the word off its bucket**, and says how
many they were; the step `wake` is that. -/
theorem wakeUserWord_eq (σ : Sched) (uaddr count : ℕ) :
    σ.wakeUserWord uaddr count = ((σ.sleepers uaddr count).foldl (takeOff · (bucketFor uaddr)) σ,
      (σ.sleepers uaddr count).length) := by
  rw [wakeUserWord, wakeWalk_eq, Nat.zero_add]
  rfl

theorem step_wake (σ : Sched) (uaddr count : ℕ) :
    σ.step (.wake uaddr count) = some (σ.wakeUserWord uaddr count).1 := by
  rw [wakeUserWord_eq]
  rfl

end Walk

/-! ### The rows -/

/-- No row holds more than it has places for. -/
def Within (σ : Sched) : Prop := ∀ k, (σ.rows k).length ≤ kReadyQueueCapacity

section Within

variable {σ σ' : Sched} {e : SchedOp} {t c : ℕ} {x : SchedTask} {p : Place}

theorem Within.enqueue (h : σ.Within) (hq : σ.enqueue t x = some σ') : σ'.Within := by
  obtain ⟨hroom, rfl⟩ := enqueue_eq_some hq
  intro k
  rw [edit_rows]
  by_cases hk : k = x.cls
  · subst hk
    have := h x.cls
    rw [setRow_self, length_append, length_singleton]
    omega
  · rw [setRow_of_ne hk]
    exact h k

theorem Within.erase (h : σ.Within) (k : SchedClass) :
    (σ.setRow k ((σ.rows k).erase t)).Within := by
  intro k'
  by_cases hk : k' = k
  · subst hk
    rw [setRow_self]
    exact le_trans length_erase_le (h k')
  · rw [setRow_of_ne hk]
    exact h k'

theorem quiet_within (busy : ℕ → Prop) : Quiet e busy fun σ σ' => σ.Within → σ'.Within where
  refl _ := id
  trans h h' hw := h' (h hw)
  beside _ hr _ _ _ hw k := by rw [hr]; exact hw k
  enqueue hq hw := hw.enqueue hq
  unrow _ k _ hw := hw.erase k
  unwait _ _ _ _ := id
  edit _ _ _ _ _ := id

theorem Within.takeOff (h : σ.Within) : (σ.takeOff p t).Within :=
  (quiet_within (e := .launch t) fun _ => True).unblock h

theorem Within.step (h : σ.Within) (hstep : σ.step e = some σ') : σ'.Within := by
  have frame : Frame e σ fun σ σ' => σ.Within → σ'.Within := { quiet_within _ with
    wait := fun _ _ _ _ => id
    cpu := fun _ _ _ _ => id
    owner := fun _ _ _ _ => id
    register := fun _ => id }
  exact frame.step hstep h

end Within

/-! ### Who is woken -/

section Woken

variable {σ : Sched} {t u : ℕ} {p : Place} {ts : List ℕ}

theorem mem_waiting_foldl_takeOff (hn : (σ.waiting p).Nodup) :
    u ∈ (ts.foldl (takeOff · p) σ).waiting p ↔ u ∈ σ.waiting p ∧ u ∉ ts := by
  induction ts generalizing σ with
  | nil => simp
  | cons t ts ih =>
    have hli : (σ.takeOff p t).waiting p = (σ.waiting p).erase t := by
      rw [takeOff_waiting, setWaiting_self]
    rw [foldl_cons, ih (hli ▸ hn.erase t), hli, hn.mem_erase_iff, mem_cons, not_or]
    exact ⟨fun h => ⟨h.1.2, h.1.1, h.2⟩, fun h => ⟨⟨h.2.1, h.1⟩, h.2.2⟩⟩

/-- The tasks that have left a list, if some of those on it were taken off. -/
theorem left_of_sublist (hn : (σ.waiting p).Nodup) (hsub : ts.Sublist (σ.waiting p)) :
    (σ.waiting p).filter (fun t => decide (t ∉ (ts.foldl (takeOff · p) σ).waiting p)) = ts := by
  have hleft : (σ.waiting p).filter (fun t => decide (t ∉ (ts.foldl (takeOff · p) σ).waiting p)) =
      (σ.waiting p).filter (fun t => decide (t ∈ ts)) := by
    refine filter_congr fun t ht => decide_eq_decide.mpr ?_
    rw [mem_waiting_foldl_takeOff hn, not_and, not_not]
    exact ⟨fun h => h ht, fun h _ => h⟩
  rw [hleft]
  generalize σ.waiting p = bucket at hn hsub
  clear hleft
  induction hsub with
  | slnil => rfl
  | cons u hsub ih =>
    obtain ⟨hnot, hn⟩ := nodup_cons.mp hn
    rw [filter_cons_of_neg (by simpa using fun h => hnot (hsub.subset h))]
    exact ih hn
  | @cons_cons ts bucket u hsub ih =>
    obtain ⟨hnot, hn⟩ := nodup_cons.mp hn
    rw [filter_cons_of_pos (by simp)]
    have hrest : bucket.filter (fun t => decide (t ∈ u :: ts)) =
        bucket.filter (fun t => decide (t ∈ ts)) := by
      refine filter_congr fun t ht => decide_eq_decide.mpr ?_
      rw [mem_cons]
      exact or_iff_right fun heq => hnot (heq ▸ ht)
    rw [hrest, ih hn]

/-- The place that the first task takes is the one that was kept for it. -/
theorem snug_cons_iff (hsane : σ.Sane none) {x : SchedTask} (hx : σ.tasks t = some x)
    (hblock : x.state = .blocked) (hwait : t ∈ σ.waiting p) (hnot : t ∉ ts)
    (hroom : (σ.rows x.cls).length < kReadyQueueCapacity) :
    σ.Snug p (t :: ts) ↔ (σ.takeOff p t).Snug p ts := by
  refine forall_congr' fun k => ?_
  obtain ⟨hdue, hrow⟩ := due_takeOff hsane hx hblock hroom ts k
  have hkeep : (σ.due p k ts).filter (· ≠ t) = σ.due p k ts :=
    filter_eq_self.mpr fun u hu => decide_eq_true fun hc => hnot (hc ▸ mem_of_mem_filter hu)
  show _ + (σ.due p k (t :: ts)).length ≤ _ ↔ _ + ((σ.takeOff p t).due p k ts).length ≤ _
  rw [hdue, hkeep, hrow]
  split
  · rename_i hk
    subst hk
    have hfirst : σ.due p x.cls (t :: ts) = t :: σ.due p x.cls ts :=
      filter_cons_of_pos (decide_eq_true ⟨hwait, by rw [mark_of_tasks hx]; rfl⟩)
    rw [hfirst, length_cons, length_append, length_singleton]
    omega
  · rename_i hk
    have hother : σ.due p k (t :: ts) = σ.due p k ts := by
      refine filter_cons_of_neg ?_
      rw [mark_of_tasks hx, decide_eq_true_eq]
      exact fun h => hk (Option.some.inj h.2).symm
    rw [hother]

theorem mark_foldl_takeOff_of_not_mem (hnot : u ∉ ts) :
    (ts.foldl (takeOff · p) σ).mark u = σ.mark u := by
  induction ts generalizing σ with
  | nil => rfl
  | cons t ts ih =>
    rw [mem_cons, not_or] at hnot
    exact (ih hnot.2).trans (mark_takeOff_of_ne hnot.1)

/-- **All of a part of a list are woken just when the rows have a place for each.** -/
theorem all_ready_iff : ∀ (ts : List ℕ) {σ : Sched}, σ.Sane none → σ.Within → ts.Nodup →
    (∀ t ∈ ts, t ∈ σ.waiting p) →
    ((∀ t ∈ ts, ∃ m, (ts.foldl (takeOff · p) σ).mark t = some m ∧ m.state = .ready) ↔
      σ.Snug p ts) := by
  intro ts
  induction ts with
  | nil =>
    intro σ _ hwithin _ _
    exact iff_of_true (fun t ht => absurd ht not_mem_nil) hwithin
  | cons t ts ih =>
    intro σ hsane hwithin hnodup htasks
    obtain ⟨hnot, hnodup⟩ := nodup_cons.mp hnodup
    have hwait : t ∈ σ.waiting p := htasks t mem_cons_self
    obtain ⟨m, hm, hblock, -⟩ := (hsane.fits t).waits p hwait
    obtain ⟨x, hx, rfl⟩ := Option.map_eq_some_iff.mp hm
    have hend : ((t :: ts).foldl (takeOff · p) σ).mark t = (σ.takeOff p t).mark t :=
      mark_foldl_takeOff_of_not_mem hnot
    by_cases hroom : (σ.rows x.cls).length < kReadyQueueCapacity
    · have hready : (σ.takeOff p t).mark t = some ⟨.ready, x.cls, x.onCpu, false⟩ := by
        rw [takeOff_of_room hx hblock hroom]
        exact mark_edit_self hx
      have hrest : ∀ u ∈ ts, u ∈ (σ.takeOff p t).waiting p := by
        intro u hu
        rw [takeOff_waiting, mem_waiting_erase (hsane.waitOnce p)]
        exact ⟨htasks u (mem_cons_of_mem t hu), fun heq => hnot (heq.2 ▸ hu)⟩
      rw [snug_cons_iff hsane hx hblock hwait hnot hroom,
        ← ih (hsane.takeOff hwait) hwithin.takeOff hnodup hrest]
      constructor
      · exact fun h u hu => h u (mem_cons_of_mem t hu)
      · intro h u hu
        rcases mem_cons.mp hu with rfl | hu
        · exact ⟨_, hend.trans hready, rfl⟩
        · exact h u hu
    · -- the first finds no place: it sleeps on, and no list has it
      have hfull : (σ.rows x.cls).length = kReadyQueueCapacity := by
        have := hwithin x.cls
        omega
      refine iff_of_false (fun h => ?_) fun h => ?_
      · obtain ⟨m, hm, hstate⟩ := h t mem_cons_self
        rw [hend, takeOff_of_full hx hblock hfull] at hm
        rw [← Option.some.inj ((mark_of_tasks hx).symm.trans hm)] at hstate
        exact absurd (hblock.symm.trans hstate) nofun
      · exact hroom (h.room mem_cons_self hwait hx)

/-- The first of a list are the first of those with a property just when they all have it. -/
theorem take_eq_take_filter_iff {α : Type*} (P : α → Bool) (n : ℕ) (l : List α) :
    l.take n = (l.filter P).take n ↔ ∀ a ∈ l.take n, P a = true := by
  constructor
  · intro h a ha
    rw [h] at ha
    exact (mem_filter.mp (mem_of_mem_take ha)).2
  · induction l generalizing n with
    | nil => simp
    | cons a l ih =>
      intro h
      cases n with
      | zero => rfl
      | succ n =>
        rw [take_succ_cons] at h ⊢
        rw [filter_cons_of_pos (h a mem_cons_self), take_succ_cons,
          ih n fun b hb => h b (mem_cons_of_mem a hb)]

end Woken

/-- **Waking the first waiters of one's own word.**  In every state that a run reaches, the
tasks that `WakeUserWord` takes off its bucket are the first of the caller's own address space
that are parked on the address, and each of them is made ready, just when nobody of another
space is among the first on that address, and the rows have places. -/
theorem wakes_own_first_iff (classes : List SchedClass) (initial : ℕ → ℤ)
    (completion : ℕ → CompletionState) (es : List SchedOp) {σ : Sched}
    (hrun : run step (boot classes initial completion) es = some σ) (caller uaddr count : ℕ) :
    ((σ.waiting (bucketFor uaddr)).filter (fun t =>
          decide (t ∉ (σ.wakeUserWord uaddr count).1.waiting (bucketFor uaddr))) =
        (σ.parkedIn (σ.spaceOf caller) uaddr).take count ∧
      ∀ t ∈ (σ.parkedIn (σ.spaceOf caller) uaddr).take count,
        ∃ y, (σ.wakeUserWord uaddr count).1.tasks t = some y ∧ y.state = .ready) ↔
    (∀ t ∈ (σ.parkedOn uaddr).take count, σ.spaceOf t = σ.spaceOf caller) ∧
      σ.Snug (bucketFor uaddr) ((σ.parkedOn uaddr).take count) := by
  have hgood : σ.Sane none ∧ σ.Within := by
    refine run_stays (I := fun σ => σ.Sane none ∧ σ.Within)
      (fun _ _ _ h hs => ⟨h.1.step hs, h.2.step hs⟩) es ⟨sane_boot _ _ _, fun k => ?_⟩ hrun
    exact Nat.zero_le _
  have hnodup := hgood.1.waitOnce (bucketFor uaddr)
  have hsub : (σ.sleepers uaddr count).Sublist (σ.waiting (bucketFor uaddr)) :=
    σ.sleepers_sublist uaddr count
  have hready := all_ready_iff _ hgood.1 hgood.2 (hnodup.sublist hsub) fun t ht => hsub.subset ht
  rw [wakeUserWord_eq]
  simp only [left_of_sublist hnodup hsub]
  -- the first of the word are the first of the space just when they all belong to it
  have hown : σ.sleepers uaddr count = (σ.parkedIn (σ.spaceOf caller) uaddr).take count ↔
      ∀ t ∈ (σ.parkedOn uaddr).take count, σ.spaceOf t = σ.spaceOf caller := by
    refine (take_eq_take_filter_iff _ count (σ.parkedOn uaddr)).trans ?_
    exact forall₂_congr fun t _ => decide_eq_true_iff
  rw [← hown]
  refine and_congr_right fun heq => ?_
  rw [← heq, show (σ.parkedOn uaddr).take count = σ.sleepers uaddr count from rfl, ← hready]
  refine forall₂_congr fun t _ => ?_
  constructor
  · rintro ⟨y, hy, hstate⟩
    exact ⟨_, mark_of_tasks hy, hstate⟩
  · rintro ⟨m, hm, hstate⟩
    obtain ⟨y, hy, rfl⟩ := Option.map_eq_some_iff.mp hm
    exact ⟨y, hy, hstate⟩

/-- A task of some address space. -/
def spacedTask (space : ℕ) : SchedTask := { plainTask with space := some space }

/-- On one processor, tasks 0 and 1 go to sleep on the address 4096, and task 2 runs. -/
def sleepersRun (first second third : ℕ) : List SchedOp :=
  [.seat (spacedTask first) true false, .seat (spacedTask second) true false,
    .seat (spacedTask third) true false, .dispatch 0, .parkOnWord 0 4096 0 0, .schedule 0,
    .switched 0, .parkOnWord 0 4096 0 0, .schedule 0, .switched 0]

/-- Task 2 wakes one waiter of its word: that is task 1, but task 0 is woken, which waits in
another address space. -/
theorem wakes_another_space :
    ∃ σ, run step bootFifo (sleepersRun 0 1 1) = some σ ∧ σ.running 0 = some 2 ∧
      σ.parkedIn (σ.spaceOf 2) 4096 = [1] ∧ σ.spaceOf 0 ≠ σ.spaceOf 2 ∧
      (σ.wakeUserWord 4096 1).1.rows .fifo = [0] ∧
      (σ.wakeUserWord 4096 1).1.waiting (bucketFor 4096) = [1] := by
  decide +kernel

/-- In one address space the first is the right one. -/
theorem wakes_own_first_together :
    ∃ σ y, run step bootFifo (sleepersRun 1 1 1) = some σ ∧
      σ.parkedIn (σ.spaceOf 2) 4096 = [0, 1] ∧
      (σ.wakeUserWord 4096 1).1.tasks 0 = some y ∧ y.state = .ready := by
  obtain ⟨σ, hσ, hown, hcond⟩ : ∃ σ, run step bootFifo (sleepersRun 1 1 1) = some σ ∧
      σ.parkedIn (σ.spaceOf 2) 4096 = [0, 1] ∧
      (∀ t ∈ (σ.parkedOn 4096).take 1, σ.spaceOf t = σ.spaceOf 2) ∧
      σ.Snug (bucketFor 4096) ((σ.parkedOn 4096).take 1) := by decide +kernel
  have hwakes := (wakes_own_first_iff [.fifo] (fun _ => 0) (fun _ => .pending) _ hσ 2 4096 1).mpr
    hcond
  obtain ⟨y, hy, hready⟩ := hwakes.2 0 (by rw [hown]; exact mem_cons_self)
  exact ⟨σ, y, hσ, hown, hy, hready⟩

/-- **A task is in one place.**  In every state that a run reaches it stands in the row of its
class, once, just while it is ready; on one waiting list at most, once and blocked; one
processor at most is at it, and one that has it to itself runs it.  No row is overfull. -/
theorem tasks_in_one_place (classes : List SchedClass) (initial : ℕ → ℤ)
    (completion : ℕ → CompletionState) (es : List SchedOp) {σ : Sched}
    (hrun : run step (boot classes initial completion) es = some σ) (t : ℕ) :
    (∀ k, (t ∈ σ.rows k ↔ ∃ x, σ.tasks t = some x ∧ x.state = .ready ∧ x.cls = k) ∧
      (σ.rows k).Nodup ∧ (σ.rows k).length ≤ kReadyQueueCapacity) ∧
    (∀ p, (σ.waiting p).Nodup ∧ (t ∈ σ.waiting p →
      (∃ x, σ.tasks t = some x ∧ x.state = .blocked) ∧ ∀ q, t ∈ σ.waiting q → q = p)) ∧
    (∀ c c', σ.Near c t → σ.Near c' t → c = c') ∧
    ∀ c, σ.Holds c t → ∃ x, σ.tasks t = some x ∧ x.state = .running := by
  have hgood : σ.Sane none ∧ σ.Within :=
    run_stays (I := fun σ => σ.Sane none ∧ σ.Within)
      (fun _ _ _ h hs => ⟨h.1.step hs, h.2.step hs⟩) es
      ⟨sane_boot _ _ _, fun _ => Nat.zero_le _⟩ hrun
  have hfits := hgood.1.fits t
  -- the invariant speaks of marks; a mark comes from a task
  have htask : ∀ {m}, σ.mark t = some m → ∃ x, σ.tasks t = some x ∧ markOf x = m := fun hm =>
    Option.map_eq_some_iff.mp hm
  refine ⟨fun k => ⟨⟨fun hk => ?_, ?_⟩, hgood.1.rowOnce k, hgood.2 k⟩,
    fun p => ⟨hgood.1.waitOnce p, fun hp => ⟨?_, fun q hq => hfits.once q p hq hp⟩⟩,
    fun c c' => hfits.near_unique, fun c hc => ?_⟩
  · obtain ⟨m, hm, hready, hclass⟩ := (hfits.row k).mp hk
    obtain ⟨x, hx, rfl⟩ := htask hm
    exact ⟨x, hx, hready, hclass⟩
  · rintro ⟨x, hx, hready, hclass⟩
    exact (hfits.row k).mpr ⟨_, mark_of_tasks hx, hready, hclass⟩
  · obtain ⟨m, hm, hblocked, -⟩ := hfits.waits p hp
    obtain ⟨x, hx, rfl⟩ := htask hm
    exact ⟨x, hx, hblocked⟩
  · obtain ⟨m, hm, hrunning⟩ := hfits.held c (by simp) hc
    obtain ⟨x, hx, rfl⟩ := htask hm
    exact ⟨x, hx, hrunning⟩

/-- Two tasks asleep on one word: the second is on no other list. -/
theorem sleepers_in_one_place : ∃ σ, run step bootFifo (sleepersRun 1 1 1) = some σ ∧
    1 ∈ σ.waiting (bucketFor 4096) ∧ ∀ q, 1 ∈ σ.waiting q → q = bucketFor 4096 := by
  obtain ⟨σ, hσ, hin⟩ : ∃ σ, run step bootFifo (sleepersRun 1 1 1) = some σ ∧
      1 ∈ σ.waiting (bucketFor 4096) := by decide +kernel
  exact ⟨σ, hσ, hin,
    ((tasks_in_one_place [.fifo] (fun _ => 0) (fun _ => .pending) _ hσ 1).2.1 _).2 hin
    |>.2⟩

end Sched

end Cinux
