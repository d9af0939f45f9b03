/-
Wakeups.

A task is taken off its waiting list first and put into its row second, and the row may be
full.  As long as there is a place for everyone that a step takes off a list, no wakeup is
lost: a blocked task is on a list, and an owner of a mutex that sleeps sleeps on one.

* `Attended` — nobody sleeps that no list knows of;
* `Room` — there is a place in the rows for everyone the step wakes;
* `no_lost_wakeup` — along runs with room, what a step takes off a list is ready or runs;
* `full_row_loses_owner` — a mutex that is handed to a task which is never woken.
-/
import Cinux.SchedSane
import Cinux.SchedStops

namespace Cinux

open Runs Option
open List (mem_cons_self not_mem_nil)

namespace Sched

/-! ### Nobody sleeps unattended -/

/-- A task that sleeps is on a waiting list, unless it was only just seated; and the tasks of
`S` were not only just seated. -/
structure Attended (S : ℕ → Prop) (σ : Sched) : Prop where
  waits : ∀ t m, σ.mark t = some m → m.state = .blocked → m.fresh = false → ∃ p, t ∈ σ.waiting p
  seen : ∀ t, S t → ∃ m, σ.mark t = some m ∧ m.fresh = false

section Attended

variable {σ σ' : Sched} {S : ℕ → Prop} {away : Option ℕ} {t u c : ℕ} {x : SchedTask} {p : Place}
  {f : SchedTask → SchedTask}

theorem Attended.change (h : Attended S σ) (hmark : ∀ u, u ≠ t → σ'.mark u = σ.mark u)
    (hlists : ∀ u, u ≠ t → ∀ p, u ∈ σ.waiting p → u ∈ σ'.waiting p)
    (hage : ∀ m, σ.mark t = some m → m.fresh = false → ∃ m', σ'.mark t = some m' ∧ m'.fresh = false)
    (hself : ∀ m, σ'.mark t = some m → m.state = .blocked → m.fresh = false →
      ∃ p, t ∈ σ'.waiting p) : Attended S σ' where
  waits u m hm hblock hfresh := by
    by_cases hu : u = t
    · subst hu
      exact hself m hm hblock hfresh
    · rw [hmark u hu] at hm
      obtain ⟨p, hp⟩ := h.waits u m hm hblock hfresh
      exact ⟨p, hlists u hu p hp⟩
  seen u hu := by
    obtain ⟨m, hm, hfresh⟩ := h.seen u hu
    by_cases hut : u = t
    · subst hut
      exact hage m hm hfresh
    · exact ⟨m, (hmark u hut).trans hm, hfresh⟩

/-- Processors, rows, owners, counts and families do not matter. -/
theorem Attended.congr {τ : Sched} (h : Attended S σ) (htask : τ.tasks = σ.tasks)
    (hwaiting : τ.waiting = σ.waiting) : Attended S τ where
  waits t m hm hblock hfresh := by
    rw [mark, htask] at hm
    rw [hwaiting]
    exact h.waits t m hm hblock hfresh
  seen t ht := by
    rw [mark, htask]
    exact h.seen t ht

section

variable (h : Attended S σ)

include h

theorem Attended.edit_same
    (hf : ∀ x, σ.tasks t = some x → markOf (f x) = markOf x) : Attended S (σ.edit t f) where
  waits u m hm := h.waits u m (mark_edit_same hf u ▸ hm)
  seen u hu := by
    rw [mark_edit_same hf u]
    exact h.seen u hu

/-- A task that does not end up asleep. -/
theorem Attended.edit_awake (hx : σ.tasks t = some x)
    (hage : x.fresh = false → (f x).fresh = false) (hawk : (f x).state ≠ .blocked) :
    Attended S (σ.edit t f) := by
  have hmark : (σ.edit t f).mark t = some (markOf (f x)) := mark_edit_self hx
  refine h.change (fun u hu => mark_edit_of_ne hu) (fun u _ p hp => hp)
    (fun m hm hfresh => ?_) (fun m hm hblock _ => ?_)
  · rw [mark_of_tasks hx] at hm
    rw [← some.inj hm] at hfresh
    exact ⟨_, hmark, hage hfresh⟩
  · rw [← mem_unique hmark hm] at hblock
    exact absurd hblock hawk

theorem Attended.enqueue (hx : σ.tasks t = some x)
    (hq : σ.enqueue t x = some σ') : Attended S σ' := by
  obtain ⟨-, rfl⟩ := enqueue_eq_some hq
  have hrow : Attended S (σ.setRow x.cls (σ.rows x.cls ++ [t])) := h.congr rfl rfl
  exact hrow.edit_awake hx (fun _ => rfl) nofun

theorem Attended.enqueue_getD (hx : σ.tasks t = some x) :
    Attended S ((σ.enqueue t x).getD σ.refused) := by
  cases hq : σ.enqueue t x with
  | none => exact h.congr rfl rfl
  | some queued => exact h.enqueue hx hq

theorem Attended.unblock : Attended S (σ.unblock t) := by
  unfold Sched.unblock
  split
  · exact h
  rename_i x hx
  split
  · exact h.enqueue_getD hx
  · exact h

theorem Attended.switchTo {picked : SchedClass × ℕ} {phase : Phase} :
    Attended S (σ.switchTo c picked phase) := by
  have hrow : Attended S (σ.setRow picked.1 ((σ.rows picked.1).erase picked.2)) :=
    h.congr rfl rfl
  refine Attended.congr (σ := (σ.setRow picked.1 ((σ.rows picked.1).erase picked.2)).edit picked.2
    fun x => { x with state := .running, onCpu := some c }) ?_ rfl rfl
  cases hx : σ.tasks picked.2 with
  | none =>
    refine hrow.edit_same fun x hx' => ?_
    cases hx.symm.trans hx'
  | some x => exact hrow.edit_awake hx id nofun

theorem Attended.scheduleAway : Attended S (σ.scheduleAway c t) := by
  unfold Sched.scheduleAway
  split
  · exact h.congr rfl rfl
  · exact h.switchTo

theorem Attended.parkOn : Attended S (σ.parkOn c t p) := by
  refine h.change (fun u hu => mark_edit_of_ne hu)
    (fun u _ q hq => mem_waiting_append.mpr (.inl hq)) (fun m hm hfresh => ?_) (fun m _ _ _ => ?_)
  · obtain ⟨x, hx, rfl⟩ := map_eq_some_iff.mp hm
    exact ⟨_, mark_edit_self hx, hfresh⟩
  · exact ⟨p, mem_waiting_append.mpr (.inr ⟨rfl, rfl⟩)⟩

end

/-- Who finds a place is off the list and in the row. -/
theorem takeOff_of_room (hx : σ.tasks t = some x) (hblock : x.state = .blocked)
    (hroomy : (σ.rows x.cls).length < kReadyQueueCapacity) :
    σ.takeOff p t = (σ.setWaiting p ((σ.waiting p).erase t)).queued t x := by
  have hself : (σ.setWaiting p ((σ.waiting p).erase t)).tasks t = some x := hx
  have hq := (σ.setWaiting p ((σ.waiting p).erase t)).enqueue_of_room (t := t) hroomy
  rw [Sched.takeOff, Sched.unblock, hself]
  simp only [if_pos hblock, hq, getD_some]

/-- Where there is a place, who is taken off a list is ready. -/
theorem Attended.takeOff (h : Attended S σ) (hsane : σ.Sane away) (hx : σ.tasks t = some x)
    (hblock : x.state = .blocked) (hroomy : (σ.rows x.cls).length < kReadyQueueCapacity) :
    Attended S (σ.takeOff p t) := by
  rw [takeOff_of_room hx hblock hroomy]
  have hmark : ((σ.setWaiting p ((σ.waiting p).erase t)).queued t x).mark t =
      some ⟨.ready, x.cls, x.onCpu, false⟩ := mark_edit_self hx
  refine h.change (fun u hu => mark_edit_of_ne hu) (fun u hu q hq => ?_)
    (fun m _ _ => ⟨_, hmark, rfl⟩) (fun m hm hb _ => ?_)
  · exact (mem_waiting_erase (hsane.waitOnce p)).mpr ⟨hq, fun heq => hu heq.2⟩
  · rw [← mem_unique hmark hm] at hb
    cases hb

theorem Attended.withdraw (h : Attended S σ) (hw : σ.withdraw t = some σ') : Attended S σ' := by
  obtain rfl | ⟨x, hx, -, rfl⟩ := withdraw_cases hw
  · exact h
  · have hrow : Attended S (σ.setRow x.cls ((σ.rows x.cls).erase t)) := h.congr rfl rfl
    exact hrow.edit_awake hx id nofun

theorem Attended.sendSignal (h : Attended S σ) {number : ℕ} (hs : σ.sendSignal number t = some σ') :
    Attended S σ' := by
  obtain rfl | ⟨signals, x, hx, hs⟩ := sendSignal_cases hs
  · exact h
  have hset : Attended S (σ.setSignals t signals) := h.edit_same fun _ _ => rfl
  obtain rfl | ⟨-, rfl⟩ | hw := hs
  · exact hset
  · rw [Sched.resume, hx]
    exact hset.enqueue_getD hx
  · exact hset.withdraw hw

end Attended

/-! ### Room in the rows -/

/-- The rows have a place for each of the tasks that are on the list. -/
def Snug (σ : Sched) (p : Place) (ts : List ℕ) : Prop :=
  ∀ k, (σ.rows k).length + (ts.filter fun t =>
    decide (t ∈ σ.waiting p ∧ (σ.mark t).map Mark.cls = some k)).length ≤ kReadyQueueCapacity

/-- The parent of a task. -/
def parentOf (σ : Sched) (t : ℕ) : Option ℕ := (σ.tasks t).bind SchedTask.parent

/-- Whom the exit of a task may be told to: the one that takes over its children, and its
parent. -/
def told (σ : Sched) (t : ℕ) : List ℕ :=
  ((σ.findAdopter t).toList ++ (σ.parentOf t).toList).dedup

/-- The tasks that a step may take off a list, and the list. -/
def woken (σ : Sched) : SchedOp → Option (Place × List ℕ)
  | .unlock _ m => some (.mutex m, (σ.waiting (.mutex m)).take 1)
  | .post k => some (.semaphore k, (σ.waiting (.semaphore k)).take 1)
  | .finish k _ => some (.completion k, (σ.waiting (.completion k)).take 1)
  | .wake uaddr count => some (bucketFor uaddr, σ.sleepers uaddr count)
  | .exit c => (σ.running c).map fun t => (.children, σ.told t)
  | _ => none

/-- There is a place in the rows for everyone that the step takes off a list. -/
def Room (σ : Sched) (e : SchedOp) : Prop := ∀ p ts, σ.woken e = some (p, ts) → σ.Snug p ts

instance (σ : Sched) (p : Place) (ts : List ℕ) : Decidable (σ.Snug p ts) :=
  decidable_of_iff (∀ k ∈ [SchedClass.fifo, .priority], (σ.rows k).length + (ts.filter fun t =>
      decide (t ∈ σ.waiting p ∧ (σ.mark t).map Mark.cls = some k)).length ≤ kReadyQueueCapacity)
    ⟨fun h k => h k (by cases k <;> simp), fun h k _ => h k⟩

instance (σ : Sched) (e : SchedOp) : Decidable (σ.Room e) :=
  match h : σ.woken e with
  | none => isTrue fun _ _ hw => by cases h.symm.trans hw
  | some (p, ts) => decidable_of_iff (σ.Snug p ts)
      ⟨fun hs _ _ hw => by cases h.symm.trans hw; exact hs, fun hr => hr p ts h⟩

section Snug

variable {σ σ' : Sched} {S : ℕ → Prop} {away : Option ℕ} {t u a c : ℕ} {x : SchedTask} {m : Mark}
  {p : Place} {ts : List ℕ} {f : SchedTask → SchedTask}

/-! A task in its row is nobody that could be woken. -/

theorem mark_unblock (hm : σ.mark u = some m) (hs : m.state = .ready) :
    (σ.unblock t).mark u = some m := by
  rcases σ.unblock_cases t with (h | h) | ⟨x, hx, hblock, h⟩ <;> rw [h]
  · exact hm
  · exact hm
  -- who sleeps is another one
  refine (mark_edit_of_ne ?_).trans hm
  rintro rfl
  rw [← mem_unique (mark_of_tasks hx) hm] at hs
  exact nomatch hblock.symm.trans hs

theorem mark_takeOff (hm : σ.mark u = some m) (hs : m.state = .ready) :
    (σ.takeOff p t).mark u = some m :=
  mark_unblock (σ := σ.setWaiting p ((σ.waiting p).erase t)) hm hs

theorem mark_takeOff_of_ne (hu : u ≠ t) : (σ.takeOff p t).mark u = σ.mark u := by
  rw [Sched.takeOff]
  rcases (σ.setWaiting p ((σ.waiting p).erase t)).unblock_cases t
    with (h | h) | ⟨x, -, -, h⟩ <;> rw [h]
  · rfl
  · rfl
  · exact mark_edit_of_ne hu

theorem cls_edit (hf : ∀ x, (f x).cls = x.cls) (u : ℕ) :
    ((σ.edit t f).mark u).map Mark.cls = (σ.mark u).map Mark.cls := by
  by_cases hu : u = t
  · subst hu
    rw [mark, edit_self, mark, map_map, map_map, map_map]
    exact congrArg (fun g => Option.map g (σ.tasks u)) (funext hf)
  · rw [mark_edit_of_ne hu]

theorem Snug.edit (h : σ.Snug p ts) (hf : ∀ x, (f x).cls = x.cls) : (σ.edit t f).Snug p ts := by
  intro k
  simp only [cls_edit hf]
  exact h k

/-- Those of the tasks on the list that go to a row. -/
def due (σ : Sched) (p : Place) (k : SchedClass) (ts : List ℕ) : List ℕ :=
  ts.filter fun t => decide (t ∈ σ.waiting p ∧ (σ.mark t).map Mark.cls = some k)

theorem mem_due (ht : t ∈ ts) (hwait : t ∈ σ.waiting p) (hx : σ.tasks t = some x) :
    t ∈ σ.due p x.cls ts := by
  refine List.mem_filter.mpr ⟨ht, decide_eq_true ⟨hwait, ?_⟩⟩
  rw [mark_of_tasks hx]
  rfl

/-- A place for everyone is a place for each. -/
theorem Snug.room (h : σ.Snug p ts) (ht : t ∈ ts) (hwait : t ∈ σ.waiting p)
    (hx : σ.tasks t = some x) : (σ.rows x.cls).length < kReadyQueueCapacity := by
  have hle : _ + (σ.due p x.cls ts).length ≤ _ := h x.cls
  have hpos := List.length_pos_of_mem (mem_due ht hwait hx)
  omega

/-- Who is woken goes from the list to its row. -/
theorem due_takeOff (hsane : σ.Sane away) (hx : σ.tasks t = some x) (hblock : x.state = .blocked)
    (hroomy : (σ.rows x.cls).length < kReadyQueueCapacity) (ts : List ℕ) (k : SchedClass) :
    (σ.takeOff p t).due p k ts = (σ.due p k ts).filter (· ≠ t) ∧
      (σ.takeOff p t).rows k = if k = x.cls then σ.rows x.cls ++ [t] else σ.rows k := by
  rw [takeOff_of_room hx hblock hroomy]
  constructor
  · rw [due, due, List.filter_filter]
    refine List.filter_congr fun u _ => ?_
    rw [cls_edit (f := fun x => { x with state := .ready, fresh := false }) fun _ => rfl]
    show decide (u ∈ (σ.setWaiting p ((σ.waiting p).erase t)).waiting p ∧
      (σ.mark u).map Mark.cls = some k) = _
    simp only [mem_waiting_erase (hsane.waitOnce p)]
    by_cases hu : u = t <;> simp [hu]
  · rw [edit_rows]
    split
    · rename_i hk
      rw [hk, setRow_self]
      rfl
    · rename_i hk
      exact setRow_of_ne hk

/-- The place of a task that is woken is the one that was kept for it. -/
theorem Snug.takeOff (h : σ.Snug p ts) (hsane : σ.Sane away) (ht : t ∈ ts)
    (hwait : t ∈ σ.waiting p) (hx : σ.tasks t = some x) (hblock : x.state = .blocked) :
    (σ.takeOff p t).Snug p ts := by
  intro k
  obtain ⟨hdue, hrow⟩ := due_takeOff hsane hx hblock (h.room ht hwait hx) ts k
  have hold : (σ.rows k).length + (σ.due p k ts).length ≤ kReadyQueueCapacity := h k
  show _ + ((σ.takeOff p t).due p k ts).length ≤ _
  rw [hdue, hrow]
  split
  · -- one more in the row, one less to come
    rename_i hk
    subst hk
    have hlt : ((σ.due p x.cls ts).filter (· ≠ t)).length < (σ.due p x.cls ts).length :=
      List.length_filter_lt_length_iff_exists.mpr ⟨t, mem_due ht hwait hx, by simp⟩
    rw [List.length_append, List.length_singleton]
    omega
  · have hle := List.length_filter_le (· ≠ t) (σ.due p k ts)
    omega

theorem Attended.wakes (h : Attended S σ) (hsane : σ.Sane away) (hsnug : σ.Snug p ts) (ht : t ∈ ts)
    (hwait : t ∈ σ.waiting p) : Attended S (σ.takeOff p t) := by
  obtain ⟨m, hm, hblock, -⟩ := (hsane.fits t).waits p hwait
  obtain ⟨x, hx, rfl⟩ := map_eq_some_iff.mp hm
  exact h.takeOff hsane hx hblock (hsnug.room ht hwait hx)

theorem Attended.foldl_takeOff : ∀ (us : List ℕ) {σ : Sched}, Attended S σ → σ.Sane away →
    σ.Snug p ts → us.Nodup → (∀ u ∈ us, u ∈ ts ∧ u ∈ σ.waiting p) →
    Attended S (us.foldl (Sched.takeOff · p) σ) := by
  intro us
  induction us with
  | nil => exact fun h _ _ _ _ => h
  | cons u us ih =>
    intro σ h hsane hseg husable hmem
    obtain ⟨hnot, husable⟩ := List.nodup_cons.mp husable
    obtain ⟨hu, hwait⟩ := hmem u mem_cons_self
    obtain ⟨m, hm, hblock, -⟩ := (hsane.fits u).waits p hwait
    obtain ⟨x, hx, rfl⟩ := map_eq_some_iff.mp hm
    refine ih (h.wakes hsane hseg hu hwait) (hsane.takeOff hwait)
      (hseg.takeOff hsane hu hwait hx hblock) husable fun v hv => ?_
    obtain ⟨hvts, hvwait⟩ := hmem v (List.mem_cons_of_mem u hv)
    rw [takeOff_waiting, mem_waiting_erase (hsane.waitOnce p)]
    exact ⟨hvts, hvwait, fun heq => hnot (heq.2 ▸ hv)⟩

end Snug

/-! ### Exits -/

section Exits

variable {σ σ' : Sched} {S : ℕ → Prop} {away : Option ℕ} {t u a c dying : ℕ} {x : SchedTask}
  {p : Place} {ts : List ℕ} {f : SchedTask → SchedTask}

theorem parentOf_edit (hf : ∀ x, (f x).parent = x.parent) (u : ℕ) :
    (σ.edit t f).parentOf u = σ.parentOf u := by
  by_cases hu : u = t
  · subst hu
    rw [parentOf, edit_self, parentOf]
    cases σ.tasks u with
    | none => rfl
    | some x => exact hf x
  · rw [parentOf, edit_of_ne hu, parentOf]

theorem parentOf_takeOff : (σ.takeOff p t).parentOf u = σ.parentOf u := by
  rw [Sched.takeOff]
  rcases (σ.setWaiting p ((σ.waiting p).erase t)).unblock_cases t
    with (h | h) | ⟨x, -, -, h⟩ <;> rw [h]
  · rfl
  · rfl
  · exact parentOf_edit (fun _ => by rfl) u

/-- In the middle of an exit: those still to be told have their places. -/
structure Telling (away : Option ℕ) (S : ℕ → Prop) (ts : List ℕ) (dying : ℕ)
    (σ : Sched) : Prop where
  sane : σ.Sane away
  attended : Attended S σ
  snug : σ.Snug .children ts
  parent : ∀ q, σ.parentOf dying = some q → q ∈ ts

theorem Telling.edit_same (h : Telling away S ts dying σ)
    (hmark : ∀ x, σ.tasks t = some x → markOf (f x) = markOf x) (hclass : ∀ x, (f x).cls = x.cls)
    (hpar : ∀ x, (f x).parent = x.parent ∨ ∀ q, (f x).parent = some q → q ∈ ts) :
    Telling away S ts dying (σ.edit t f) := by
  refine ⟨h.sane.edit_same hmark, h.attended.edit_same hmark, h.snug.edit hclass, fun q hq => ?_⟩
  by_cases ht : dying = t
  · subst ht
    rw [parentOf, edit_self] at hq
    cases hx : σ.tasks dying with
    | none =>
      rw [hx] at hq
      cases hq
    | some x =>
      rw [hx] at hq
      rcases hpar x with heq | hin
      · refine h.parent q ?_
        rw [parentOf, hx]
        exact heq.symm.trans hq
      · exact hin q hq
  · rw [parentOf, edit_of_ne ht] at hq
    exact h.parent q hq

theorem Telling.tellParent (h : Telling away S ts dying σ) (ha : a ∈ ts)
    (ht : σ.tellParent a = some σ') : Telling away S ts dying σ' := by
  obtain ⟨sent, hsent, rfl⟩ := map_eq_some_iff.mp ht
  have hset : Telling away S ts dying sent := by
    rcases sendSignal_chld hsent with rfl | ⟨signals, rfl⟩
    · exact h
    · exact h.edit_same (fun _ _ => rfl) (fun _ => rfl) fun _ => .inl rfl
  split
  · rename_i hwait
    obtain ⟨m, hm, hblock, -⟩ := (hset.sane.fits a).waits _ hwait
    obtain ⟨x, hx, rfl⟩ := map_eq_some_iff.mp hm
    refine ⟨hset.sane.takeOff hwait, hset.attended.wakes hset.sane hset.snug ha hwait,
      hset.snug.takeOff hset.sane ha hwait hx hblock, fun q hq => ?_⟩
    rw [parentOf_takeOff] at hq
    exact hset.parent q hq
  · exact hset

theorem Telling.detachOne (h : Telling none S ts dying σ) {adopter : Option ℕ}
    (hadopt : ∀ a, adopter = some a → a ∈ ts) (hd : detachOne dying adopter σ t = some σ') :
    Telling none S ts dying σ' := by
  have hsane := h.sane.detachOne hd
  unfold Sched.detachOne at hd
  split at hd
  swap
  · rwa [← some.inj hd]
  cases adopter with
  | some a =>
    -- the child gets the adopter for a parent, who is told if it has ended
    have hmove : Telling none S ts dying (σ.edit t fun x => { x with parent := some a }) :=
      h.edit_same (fun _ _ => rfl) (fun _ => rfl) fun _ =>
        .inr fun q hq => some.inj hq ▸ hadopt a rfl
    simp only at hd
    split at hd
    · exact hmove.tellParent (hadopt a rfl) hd
    · rwa [← some.inj hd]
  | none =>
    have hd := some.inj hd
    subst hd
    -- without an adopter it leaves the list, and a zombie is reaped
    have hli : Attended S ({ σ with offspring := σ.offspring.erase t } : Sched) :=
      h.attended.congr rfl rfl
    refine ⟨hsane, ?_, h.snug.edit fun _ => rfl, fun q hq => ?_⟩
    · by_cases hz : ∃ x, σ.tasks t = some x ∧ x.state = .zombie
      · obtain ⟨x, hx, hz⟩ := hz
        refine hli.edit_awake hx id ?_
        simp only [if_pos hz]
        exact nofun
      · refine hli.edit_same fun x hx => ?_
        simp only [markOf, if_neg fun hstate => hz ⟨x, hx, hstate⟩]
    · by_cases ht : dying = t
      · subst ht
        rw [parentOf, edit_self] at hq
        cases hx : σ.tasks dying with
        | none =>
          rw [show
            ({ σ with offspring := σ.offspring.erase dying } : Sched).tasks dying = none from hx]
            at hq
          cases hq
        | some x =>
          rw [show ({ σ with offspring := σ.offspring.erase dying } : Sched).tasks dying = some x
            from hx] at hq
          cases hq
      · rw [parentOf, edit_of_ne ht] at hq
        exact h.parent q hq

theorem Telling.retire (h : Telling none S ts t σ) (hrun : σ.running c = some t)
    (hr : σ.retire t = some σ') : Attended S σ' := by
  obtain ⟨x, hx, hstate⟩ := h.sane.running hrun
  obtain ⟨parent, hpar, -, hr⟩ | ⟨parent, -, -, rfl⟩ | ⟨-, rfl⟩ := retire_cases hx hr
  · have hzombie : (σ.edit t fun x => { x with state := .zombie }).Sane (some c) :=
      h.sane.leaving.edit_state hx rfl (state_ne hstate nofun)
        (state_ne hstate nofun) nofun
        fun c' hc => h.sane.held_only hrun hc
    have htold : parent ∈ ts := h.parent parent (by rw [parentOf, hx]; exact hpar)
    have hsame : (σ.edit t fun x => { x with state := .zombie }).parentOf t = σ.parentOf t :=
      parentOf_edit (fun _ => by rfl) t
    have htelling : Telling (some c) S ts t (σ.edit t fun x => { x with state := .zombie }) := by
      refine ⟨hzombie, h.attended.edit_awake hx id nofun, h.snug.edit fun _ => rfl,
        fun q hq => h.parent q (hsame.symm.trans hq)⟩
    exact (htelling.tellParent htold hr).attended
  · have hli : Attended S ({ σ with offspring := σ.offspring.erase t } : Sched) :=
      h.attended.congr rfl rfl
    exact hli.edit_awake hx id nofun
  · exact h.attended.edit_awake hx id nofun

theorem Attended.exit (h : Attended S σ) (hsane : σ.Sane none) (hroomy : σ.Room (.exit c))
    (hgoes : σ.step (.exit c) = some σ') : Attended S σ' := by
  obtain ⟨t, detached, retired, hrun, hdet, hret, rfl⟩ := step_exit hgoes
  have hsnug : σ.Snug .children (σ.told t) := hroomy _ _ (by rw [woken, hrun]; rfl)
  have hmem : ∀ {q}, (σ.findAdopter t = some q ∨ σ.parentOf t = some q) → q ∈ σ.told t := by
    intro q hq
    rw [told, List.mem_dedup, List.mem_append, mem_toList, mem_toList]
    exact hq
  have hbegin : Telling none S (σ.told t) t σ := ⟨hsane, h, hsnug, fun q hq => hmem (.inr hq)⟩
  have hthen : Telling none S (σ.told t) t detached :=
    detachOffspring_induct hdet hbegin fun hI => hI.detachOne fun a ha => hmem (.inl ha)
  have hrun' := running_detachOffspring hdet hrun
  exact (hthen.retire hrun' hret).scheduleAway

end Exits

/-! ### Steps and runs -/

section Steps

variable {σ σ' : Sched} {S : ℕ → Prop} {e : SchedOp} {t c : ℕ}

/-- **A step with room leaves nobody asleep that no list knows of.** -/
theorem Attended.step (h : Attended S σ) (hsane : σ.Sane none) (hroomy : σ.Room e)
    (hgoes : σ.step e = some σ') : Attended S σ' := by
  by_cases hs : syncs e = true
  · cases step_syncs hs hgoes with
    | beside => exact h.congr rfl rfl
    | park => exact h.parkOn
    | parkOnWord => exact Attended.parkOn (h.edit_same fun _ _ => rfl)
    | @wake _ _ p next _ _ hp hwait =>
      -- whoever is woken finds room
      have hsnug : σ.Snug p [next] := by
        cases e <;> cases hp <;> exact hroomy _ _ (by rw [woken, hwait]; rfl)
      exact Attended.wakes (h.congr rfl rfl) (hsane.congr rfl rfl rfl rfl rfl rfl) hsnug
        mem_cons_self
        (hwait ▸ mem_cons_self)
    | @wakeAll uaddr count he =>
      subst he
      have hsub := σ.sleepers_sublist uaddr count
      have hnodup := (hsane.waitOnce _).sublist hsub
      exact Attended.foldl_takeOff _ h hsane (hroomy _ _ rfl) hnodup
        fun t ht => ⟨ht, hsub.subset ht⟩
    | signals => exact h.edit_same fun _ _ => rfl
    | stop _ _ hx => exact Attended.congr (h.edit_awake hx id TaskState.noConfusion) rfl rfl
    | reap _ hz =>
      obtain ⟨y, hy, -⟩ := isZombie_iff.mp hz
      exact Attended.edit_awake (h.congr rfl rfl) hy id nofun
  cases e with
  | seat x runnable initial =>
    -- a task that is registered is neither blocked nor awaited
    have hnew : σ.tasks σ.nextTask = none := hsane.seated _ le_rfl
    have hreg : Attended S (σ.register x initial) := by
      refine h.change (t := σ.nextTask) (fun u hu => ?_) (fun u _ p hp => hp) (fun m hm _ => ?_)
        (fun m hm _ hfresh => ?_)
      · rw [mark, register_tasks, if_neg hu, mark]
      · rw [mark, hnew] at hm
        cases hm
      · rw [mark, register_tasks, if_pos rfl] at hm
        rw [← some.inj hm] at hfresh
        cases hfresh
    obtain ⟨-, rfl | rfl | hq⟩ := step_seat hgoes
    · exact hreg
    · exact hreg.congr rfl rfl
    · exact hreg.enqueue (by rw [register_tasks, if_pos rfl]) hq
  | joinGroup t tgid =>
    obtain ⟨⟩ := hgoes
    exact h.edit_same fun _ _ => rfl
  | launch t =>
    obtain ⟨-, rfl⟩ := step_launch hgoes
    exact h.unblock
  | yield c =>
    obtain ⟨t, x, -, hx, rfl | ⟨queued, hq, rfl⟩⟩ := step_yield hgoes
    · exact h.congr rfl rfl
    · exact (h.enqueue hx hq).congr rfl rfl
  | rotate c =>
    obtain ⟨prev, picked, -, -, rfl⟩ := step_rotate hgoes
    exact h.switchTo
  | schedule c =>
    obtain ⟨prev, -, rfl⟩ := step_schedule hgoes
    exact h.scheduleAway
  | switched c =>
    obtain ⟨prev, -, rfl⟩ := step_switched hgoes
    -- the one switched away from keeps its state
    have hfree : Attended S (σ.edit prev fun x => { x with onCpu := none }) := by
      refine h.change (fun u hu => mark_edit_of_ne hu) (fun u _ p hp => hp)
        (fun m hm hfresh => ?_) (fun m hm hblock hfresh => ?_)
      · obtain ⟨x, hx, rfl⟩ := map_eq_some_iff.mp hm
        exact ⟨_, mark_edit_self hx, hfresh⟩
      · rw [mark, edit_self, map_map] at hm
        obtain ⟨x, hx, rfl⟩ := map_eq_some_iff.mp hm
        exact h.waits prev _ (mark_of_tasks hx) hblock hfresh
    exact hfree.congr rfl rfl
  | dispatch c =>
    obtain ⟨-, rfl | ⟨picked, -, rfl⟩⟩ := step_dispatch hgoes
    · exact h
    · exact h.switchTo
  | exit c => exact h.exit hsane hroomy hgoes
  | send number t => exact h.sendSignal hgoes
  | _ => exact absurd rfl hs

/-- A new owner of a mutex runs, or waited for it. -/
theorem step_owner {m : ℕ} (hgoes : σ.step e = some σ') (hown : σ'.owner m = some t) :
    σ.owner m = some t ∨ (∃ c, σ.running c = some t) ∨ t ∈ σ.waiting (.mutex m) := by
  rcases step_mutex (m := m) hgoes with hsame | ⟨c, rfl⟩ | ⟨c, rfl⟩
  · exact .inl ((congrArg Prod.fst hsame).symm.trans hown)
  · obtain ⟨u, hrun, ⟨-, rfl⟩ | ⟨-, rfl⟩⟩ := step_lock hgoes
    · rw [setOwner_self] at hown
      exact .inr (.inl ⟨c, some.inj hown ▸ hrun⟩)
    · exact .inl hown
  · obtain ⟨u, -, -, ⟨-, rfl⟩ | ⟨next, rest, hwait, rfl⟩⟩ := step_unlock hgoes
    · rw [setOwner_self] at hown
      cases hown
    have hwalk : Aside ((σ.setOwner m (some next)).setWaiting (.mutex m)
        ((σ.waiting (.mutex m)).erase next)) ((σ.setOwner m (some next)).takeOff (.mutex m) next) :=
      aside_unblock
    have hnext : (σ.setOwner m (some next)).owner m = some t := hwalk.owner ▸ hown
    rw [setOwner_self] at hnext
    rw [← some.inj hnext, hwait]
    exact .inr (.inr mem_cons_self)

end Steps

/-- Somebody has taken note of the task: it owns a mutex, it runs, or it waits. -/
def Known (σ : Sched) (t : ℕ) : Prop :=
  (∃ m, σ.owner m = some t) ∨ (∃ c, σ.running c = some t) ∨ ∃ p, t ∈ σ.waiting p

/-- What runs with room keep. -/
structure Awake (σ : Sched) : Prop where
  sane : σ.Sane none
  attended : Attended (fun t => ∃ m, σ.owner m = some t) σ

section Runs

variable {σ σ' : Sched} {e : SchedOp} {t : ℕ} {p : Place}

theorem Awake.known (h : Awake σ) : Attended σ.Known σ := by
  refine ⟨h.attended.waits, fun t ht => ?_⟩
  rcases ht with hown | ⟨c, hrun⟩ | ⟨p, hp⟩
  · exact h.attended.seen t hown
  · obtain ⟨x, hx, hstate⟩ := h.sane.running hrun
    refine ⟨markOf x, mark_of_tasks hx, ?_⟩
    by_contra hfresh
    have := (h.sane.fits t).fresh _ (mark_of_tasks hx) (Bool.not_eq_false _ ▸ hfresh)
    exact state_ne hstate TaskState.noConfusion this
  · obtain ⟨m, hm, -, hfresh⟩ := (h.sane.fits t).waits p hp
    exact ⟨m, hm, hfresh⟩

section

variable (h : Awake σ) (hroomy : σ.Room e) (hgoes : σ.step e = some σ')
include h hroomy hgoes

theorem Awake.step : Awake σ' := by
  have hknown := h.known.step h.sane hroomy hgoes
  refine ⟨h.sane.step hgoes, hknown.waits, ?_⟩
  rintro t ⟨m, hown⟩
  refine hknown.seen t ?_
  rcases step_owner hgoes hown with hown | hrun | hwait
  · exact .inl ⟨m, hown⟩
  · exact .inr (.inl hrun)
  · exact .inr (.inr ⟨_, hwait⟩)

/-- A task that a step with room takes off a list is in its row, or runs. -/
theorem Awake.woken (hwait : t ∈ σ.waiting p) (hoff : ∀ q, t ∉ σ'.waiting q) :
    (∃ k, t ∈ σ'.rows k) ∨ ∃ x, σ'.tasks t = some x ∧ x.state = .running := by
  obtain ⟨m, hm, hblock, -⟩ := (h.sane.fits t).waits p hwait
  obtain ⟨x, hx, rfl⟩ := map_eq_some_iff.mp hm
  have hblock : x.state = .blocked := hblock
  have hnot : ∀ {c}, σ.running c ≠ some t := by
    intro c hrun
    obtain ⟨y, hy, hstate⟩ := h.sane.running hrun
    rw [← mem_unique hx hy, hblock] at hstate
    cases hstate
  obtain ⟨m', hm', hfresh⟩ := (h.known.step h.sane hroomy hgoes).seen t (.inr (.inr ⟨p, hwait⟩))
  obtain ⟨y, hy, rfl⟩ := map_eq_some_iff.mp hm'
  -- the step neither ended nor stopped a task that slept
  have hlive : Live y.state := by
    rcases step_calm hgoes with hcalm | ⟨u, z, hz, hby, hots⟩
    · rcases hcalm.1 t y hy with ⟨w, hw, -, hmove⟩ | ⟨hno, -⟩
      · obtain rfl := mem_unique hx hw
        exact hmove (fun hbusy => hbusy.elim fun c hrun => hnot hrun) (.inl hblock)
      · rw [hx] at hno
        cases hno
    · have hne : t ≠ u := by
        rintro rfl
        obtain rfl := mem_unique hx hz
        rcases hby with ⟨number, -, hready, -⟩ | ⟨number, c, -, hrun, -⟩
        · rw [hblock] at hready
          cases hready
        · exact hnot hrun
      rw [hots t hne, hx] at hy
      exact .inl (some.inj hy ▸ hblock)
  rcases hlive with hstate | hstate | hstate
  · -- asleep and on no list: there is no such task
    obtain ⟨q, hq⟩ := (h.step hroomy hgoes).attended.waits t _ (mark_of_tasks hy) hstate hfresh
    exact absurd hq (hoff q)
  · refine .inl ⟨y.cls, ?_⟩
    exact (((h.sane.step hgoes).fits t).row y.cls).mpr ⟨_, mark_of_tasks hy, hstate, rfl⟩
  · exact .inr ⟨y, hy, hstate⟩

end

end Runs

/-- A scheduler with its classes installed and its semaphores and completions as they were
made, before the first task. -/
def boot (classes : List SchedClass) (count : ℕ → ℤ)
    (completion : ℕ → CompletionState) : Sched where
  classes := classes
  count := count
  completion := completion

section

variable (classes : List SchedClass) (count : ℕ → ℤ) (completion : ℕ → CompletionState)
include classes count completion

theorem sane_boot : (boot classes count completion).Sane none where
  fits t := by
    have hno : (boot classes count completion).mark t = none := rfl
    refine ⟨fun k => iff_of_false not_mem_nil ?_, fun p hp => absurd hp not_mem_nil,
      fun p q hp => absurd hp not_mem_nil, fun c _ hh => ?_, fun c hn => ?_, fun m hm => ?_,
      fun m hm => ?_⟩
    · rintro ⟨m, hm, -⟩
      cases hno.symm.trans hm
    · cases hh.1
    · rcases hn with hn | hn <;> cases hn
    · cases hno.symm.trans hm
    · cases hno.symm.trans hm
  rowOnce k := List.nodup_nil
  waitOnce p := List.nodup_nil
  seated t _ := rfl
  apart c t ht := by cases ht

theorem awake_boot : Awake (boot classes count completion) := by
  refine ⟨sane_boot classes count completion, fun t m hm => ?_, ?_⟩
  · cases hm
  · rintro t ⟨m, hm⟩
    cases hm

end

/-- **No wakeup is lost while the rows have room.**  In every state of a run whose steps find
places for those they wake, no owner of a mutex sleeps but on a waiting list; and whoever the
next such step takes off a list is in a ready row, or runs. -/
theorem no_lost_wakeup (classes : List SchedClass) (count : ℕ → ℤ)
    (completion : ℕ → CompletionState) (es : List SchedOp) {σ : Sched}
    (hroom : Along step Room (boot classes count completion) es)
    (hrun : run step (boot classes count completion) es = some σ) :
    (∀ m t x, σ.owner m = some t → σ.tasks t = some x → x.state = .blocked →
      ∃ p, t ∈ σ.waiting p) ∧
    ∀ e σ', σ.Room e → σ.step e = some σ' → ∀ p t, t ∈ σ.waiting p → (∀ q, t ∉ σ'.waiting q) →
      (∃ k, t ∈ σ'.rows k) ∨ ∃ x, σ'.tasks t = some x ∧ x.state = .running := by
  have h : Awake σ := run_keeps (fun _ _ _ h hr hs => Awake.step h hr hs) es
    (awake_boot classes count completion) hroom hrun
  refine ⟨fun m t x howner hx hblocked => ?_, fun e σ' hr hs p t hw hoff => h.woken hr hs hw hoff⟩
  obtain ⟨k, hk, hfresh⟩ := h.attended.seen t ⟨m, howner⟩
  obtain rfl := some.inj ((mark_of_tasks hx).symm.trans hk)
  exact h.attended.waits t _ (mark_of_tasks hx) hblocked hfresh

/-! ### A full row -/

/-- A task of the first class. -/
def plainTask : SchedTask where
  state := .blocked
  cls := .fifo
  priority := 0
  pid := 0
  tgid := 0
  pgid := 0

/-- One processor: task 0 takes the mutex, task 1 waits for it, and task 0 runs again. -/
def contendedRun : List SchedOp :=
  [.seat plainTask true false, .dispatch 0, .lock 0 0, .seat plainTask true false, .yield 0,
    .rotate 0, .switched 0, .lock 0 0, .schedule 0, .switched 0]

/-- The same, and then the row is filled. -/
def crowdedRun : List SchedOp :=
  contendedRun ++ List.replicate kReadyQueueCapacity (.seat plainTask true false)

/-- Task 0 runs and has the mutex that task 1 sleeps on. -/
def contended (σ : Sched) : Bool :=
  σ.running 0 = some 0 && σ.owner 0 = some 0 && σ.waiting (.mutex 0) = [1] &&
    (σ.tasks 1).any fun x => x.state = .blocked && x.cls = .fifo

section Full

variable {σ : Sched} {t : ℕ} {x : SchedTask} {p : Place}

/-- A task that finds no place is off its list, and as it was. -/
theorem takeOff_of_full (hx : σ.tasks t = some x) (hblock : x.state = .blocked)
    (hfull : (σ.rows x.cls).length = kReadyQueueCapacity) :
    σ.takeOff p t = (σ.setWaiting p ((σ.waiting p).erase t)).refused := by
  have hself : (σ.setWaiting p ((σ.waiting p).erase t)).tasks t = some x := hx
  have hq : (σ.setWaiting p ((σ.waiting p).erase t)).enqueue t x = none := if_pos hfull
  rw [takeOff, unblock, hself]
  simp only [if_pos hblock, hq, Option.getD_none]

theorem contended_step (h : contended σ = true) :
    σ.waiting (.mutex 0) = [1] ∧ (∃ x, σ.tasks 1 = some x ∧ x.state = .blocked ∧ x.cls = .fifo) ∧
      σ.step (.unlock 0 0) = some ((σ.setOwner 0 (some 1)).takeOff (.mutex 0) 1) := by
  simp only [contended, Bool.and_eq_true, decide_eq_true_eq, any_eq_true] at h
  obtain ⟨⟨⟨hrun, hown⟩, hwait⟩, hsleep⟩ := h
  refine ⟨hwait, hsleep, ?_⟩
  simp only [step, hrun, Option.bind_eq_bind, bind_some, hown, hwait, if_true]

theorem sane_of_run {es : List SchedOp} (h : run step bootFifo es = some σ) : σ.Sane none :=
  Runs.run_stays (fun _ _ _ h hs => Sane.step h hs) es
    (sane_boot [.fifo] (fun _ => 0) fun _ => .pending) h

end Full

/-- A mutex is handed to a task whose row is full: its owner sleeps, and no list has it. -/
theorem full_row_loses_owner :
    ∃ σ x, run step bootFifo (crowdedRun ++ [.unlock 0 0]) = some σ ∧ σ.owner 0 = some 1 ∧
      σ.tasks 1 = some x ∧ x.state = .blocked ∧ ∀ p, 1 ∉ σ.waiting p := by
  obtain ⟨σ, hreach, hσ⟩ : ∃ σ, run step bootFifo crowdedRun = some σ ∧ contended σ = true ∧
      (σ.rows .fifo).length = kReadyQueueCapacity := by decide +kernel
  obtain ⟨hwait, ⟨x, hx, hblocked, hclass⟩, hstep⟩ := contended_step hσ.1
  have hlost : (σ.setOwner 0 (some 1)).takeOff (.mutex 0) 1 = ((σ.setOwner 0 (some 1)).setWaiting
      (.mutex 0) ((σ.waiting (.mutex 0)).erase 1)).refused :=
    takeOff_of_full hx hblocked (hclass ▸ hσ.2)
  rw [hlost] at hstep
  refine ⟨((σ.setOwner 0 (some 1)).setWaiting (.mutex 0) ((σ.waiting (.mutex 0)).erase 1)).refused,
    x, ?_, setOwner_self σ 0 (some 1), hx, hblocked, ?_⟩
  · rw [Runs.run_append, hreach, bind_some, Runs.run_cons hstep, run]
  · exact (sane_of_run hreach).off (hwait ▸ mem_cons_self)

theorem no_lost_wakeup_handed :
    ∃ σ σ', run step bootFifo contendedRun = some σ ∧ σ.step (.unlock 0 0) = some σ' ∧
      1 ∈ σ.waiting (.mutex 0) ∧
      ((∃ k, 1 ∈ σ'.rows k) ∨ ∃ x, σ'.tasks 1 = some x ∧ x.state = .running) := by
  obtain ⟨σ, hreach, hσ⟩ : ∃ σ, run step bootFifo contendedRun = some σ ∧ contended σ = true ∧
      σ.Room (.unlock 0 0) := by decide +kernel
  have hroom : Along step Room bootFifo contendedRun := by decide +kernel
  obtain ⟨hwait, -, hstep⟩ := contended_step hσ.1
  have hmem : 1 ∈ σ.waiting (.mutex 0) := hwait ▸ mem_cons_self
  refine ⟨σ, _, hreach, hstep, hmem, ?_⟩
  refine (no_lost_wakeup [.fifo] (fun _ => 0) (fun _ => .pending) contendedRun hroom hreach).2
    _ _ hσ.2 hstep _ 1 hmem fun q => ?_
  rw [takeOff_waiting]
  exact (sane_of_run hreach).off hmem q

end Sched

end Cinux
