/-
Where a task can be.

A task stands in a row just when it is ready; on a waiting list only when it is blocked, and
then on one list only; and a processor that has picked a task has it to itself.  All of this
is told task by task (`Fits`), so that a step has to be looked at only for the task it is
about: for every other one `Fits.mono` is enough.

* `Sane` — the invariant, with an exception for a processor in the middle of leaving its task;
* `Sane.enqueue`, `Sane.takeOff`, `Sane.parkOn`, `Sane.switchTo`, … — the primitives keep it;
* `Sane.step` — and so does every step;
* `step_mutex`, `step_cpus` — what of a mutex and of the processors a step can change.
-/
import Cinux.SchedFrame

namespace Cinux

open List Option

variable {c' : ℕ} {picked : SchedClass × ℕ} {cpu : Cpu}

namespace Sched

/-! ### The invariant -/

/-- What of a task has to agree with the lists and the processors. -/
structure Mark where
  state : TaskState
  cls : SchedClass
  onCpu : Option ℕ
  fresh : Bool

/-- What the scheduler goes by of a task. -/
def markOf (x : SchedTask) : Mark := ⟨x.state, x.cls, x.onCpu, x.fresh⟩

/-- The mark of a task, if there is one. -/
def mark (σ : Sched) (t : ℕ) : Option Mark := (σ.tasks t).map markOf

/-- The processor stands at the task: it has it as its own, or is still switching away. -/
def Near (σ : Sched) (c t : ℕ) : Prop :=
  (σ.cpus c).current = some t ∨ (σ.cpus c).phase = .switching t

/-- The processor has picked the task, and the task has not begun to leave. -/
def Holds (σ : Sched) (c t : ℕ) : Prop :=
  (σ.cpus c).current = some t ∧ (σ.cpus c).phase ≠ .rotate ∧ (σ.cpus c).phase ≠ .leave

/-- A task agrees with the lists and the processors; with the processor `away` it need not,
if that one is in the middle of leaving it. -/
structure Fits (away : Option ℕ) (σ : Sched) (t : ℕ) : Prop where
  row : ∀ k, t ∈ σ.rows k ↔ ∃ m, σ.mark t = some m ∧ m.state = .ready ∧ m.cls = k
  waits : ∀ p, t ∈ σ.waiting p → ∃ m, σ.mark t = some m ∧ m.state = .blocked ∧ m.fresh = false
  once : ∀ p q, t ∈ σ.waiting p → t ∈ σ.waiting q → p = q
  held : ∀ c, away ≠ some c → σ.Holds c t → ∃ m, σ.mark t = some m ∧ m.state = .running
  near : ∀ c, σ.Near c t → ∃ m, σ.mark t = some m ∧ m.onCpu = some c
  fresh : ∀ m, σ.mark t = some m → m.fresh = true → m.state = .blocked
  cls : ∀ m, σ.mark t = some m → m.cls ∈ σ.classes

/-- Every task is where its state says, and nowhere twice. -/
structure Sane (away : Option ℕ) (σ : Sched) : Prop where
  fits : ∀ t, σ.Fits away t
  rowOnce : ∀ k, (σ.rows k).Nodup
  waitOnce : ∀ p, (σ.waiting p).Nodup
  seated : ∀ t, σ.nextTask ≤ t → σ.tasks t = none
  apart : ∀ c t, (σ.cpus c).phase = .switching t → (σ.cpus c).current ≠ some t

section Fits

variable {σ σ' : Sched} {away : Option ℕ} {t u c : ℕ} {x : SchedTask} {m : Mark}
  {f : SchedTask → SchedTask}

theorem mark_of_tasks (h : σ.tasks t = some x) : σ.mark t = some (markOf x) := by
  rw [mark, h, Option.map_some]

theorem mark_edit_of_ne (h : u ≠ t) : (σ.edit t f).mark u = σ.mark u := by
  rw [mark, edit_of_ne h, mark]

theorem mark_edit_self (h : σ.tasks t = some x) : (σ.edit t f).mark t = some (markOf (f x)) := by
  rw [mark, edit_self, h]
  rfl

theorem state_ne {a b : TaskState} (h : x.state = a) (hab : a ≠ b) : x.state ≠ b := h ▸ hab

theorem mark_edit_same (h : ∀ x, σ.tasks t = some x → markOf (f x) = markOf x) (u : ℕ) :
    (σ.edit t f).mark u = σ.mark u := by
  by_cases hu : u = t
  · subst hu
    cases hx : σ.tasks u with
    | none => rw [mark, edit_self, mark, hx, Option.map_none]
    | some x => rw [mark_edit_self hx, h x hx, mark_of_tasks hx]
  · exact mark_edit_of_ne hu

/-- Between two states that agree on a task, but for fewer lists and fewer processors. -/
theorem Fits.mono {away' : Option ℕ} (h : σ.Fits away u) (hmark : σ'.mark u = σ.mark u)
    (hrow : ∀ k, u ∈ σ'.rows k ↔ u ∈ σ.rows k) (hwait : ∀ p, u ∈ σ'.waiting p → u ∈ σ.waiting p)
    (hhold : ∀ c, away' ≠ some c → σ'.Holds c u → away ≠ some c ∧ σ.Holds c u)
    (hnear : ∀ c, σ'.Near c u → σ.Near c u) (hclass : σ'.classes = σ.classes) :
    σ'.Fits away' u where
  row k := by rw [hrow, hmark, h.row]
  waits p hp := by rw [hmark]; exact h.waits p (hwait p hp)
  once p q hp hq := h.once p q (hwait p hp) (hwait q hq)
  held c hc hh := by
    obtain ⟨hc, hh⟩ := hhold c hc hh
    rw [hmark]
    exact h.held c hc hh
  near c hn := by rw [hmark]; exact h.near c (hnear c hn)
  fresh m hm := h.fresh m (hmark ▸ hm)
  cls m hm := hclass ▸ h.cls m (hmark ▸ hm)

theorem Fits.onCpu (h : σ.Fits away t) (hx : σ.tasks t = some x) (hn : σ.Near c t) :
    x.onCpu = some c := by
  obtain ⟨m, hm, hcpu⟩ := h.near c hn
  rwa [← mem_unique (mark_of_tasks hx) hm] at hcpu

theorem Fits.cls_eq (h : σ.Fits away t) (hx : σ.tasks t = some x) {k : SchedClass}
    (hk : t ∈ σ.rows k) : x.cls = k := by
  obtain ⟨m, hm, -, hclass⟩ := (h.row k).mp hk
  rwa [← mem_unique (mark_of_tasks hx) hm] at hclass

theorem Fits.become {away' : Option ℕ} (h : σ.Fits away t) (hx : σ.tasks t = some x)
    (hm : σ'.mark t = some m) (hrow : ∀ k, t ∈ σ'.rows k ↔ m.state = .ready ∧ m.cls = k)
    (hwait : ∀ p, t ∉ σ'.waiting p)
    (hhold : ∀ c, away' ≠ some c → σ'.Holds c t → m.state = .running)
    (hnear : ∀ c, σ'.Near c t → m.onCpu = some c) (hfresh : m.fresh = true → m.state = .blocked)
    (hclass : m.cls = x.cls) (hclasses : σ'.classes = σ.classes) : σ'.Fits away' t where
  row k := by
    rw [hrow, hm]
    constructor
    · exact fun hk => ⟨m, rfl, hk⟩
    · rintro ⟨m', hm', hk⟩
      rwa [← some.inj hm'] at hk
  waits p hp := absurd hp (hwait p)
  once p _ hp := absurd hp (hwait p)
  held c hc hh := ⟨m, hm, hhold c hc hh⟩
  near c hn := ⟨m, hm, hnear c hn⟩
  fresh m' hm' := by
    rw [← mem_unique hm hm']
    exact hfresh
  cls m' hm' := by
    rw [← mem_unique hm hm', hclass, hclasses]
    exact h.cls _ (mark_of_tasks hx)

theorem Fits.leaving (h : σ.Fits none u) : σ.Fits away u :=
  { h with held := fun c _ hh => h.held c (by simp) hh }

theorem Sane.leaving (h : σ.Sane none) : σ.Sane away :=
  { h with fits := fun t => (h.fits t).leaving }

section

variable (h : σ.Fits away t) (hm : σ.mark t = some m)
include h hm

/-- A ready task is on no waiting list, and a waiting one in no row. -/
theorem Fits.not_waits (hs : m.state ≠ .blocked) (p : Place) : t ∉ σ.waiting p := by
  intro hp
  obtain ⟨m', hm', hblock, -⟩ := h.waits p hp
  rw [mem_unique hm hm'] at hs
  exact hs hblock

theorem Fits.not_row (hs : m.state ≠ .ready) (k : SchedClass) : t ∉ σ.rows k := by
  intro hk
  obtain ⟨m', hm', hready, -⟩ := (h.row k).mp hk
  rw [mem_unique hm hm'] at hs
  exact hs hready

theorem Fits.not_held (hs : m.state ≠ .running) (hc : away ≠ some c) : ¬ σ.Holds c t := by
  intro hh
  obtain ⟨m', hm', hrunning⟩ := h.held c hc hh
  rw [mem_unique hm hm'] at hs
  exact hs hrunning

end

theorem Fits.near_unique (h : σ.Fits away t) (hn : σ.Near c t) (hn' : σ.Near c' t) : c = c' := by
  obtain ⟨m, hm, hc⟩ := h.near c hn
  obtain ⟨m', hm', hc'⟩ := h.near c' hn'
  rw [mem_unique hm hm', hc'] at hc
  exact (some.inj hc).symm

theorem running_eq_some : σ.running c = some t ↔
    σ.cpus c = { current := some t, phase := .run } := by
  unfold running
  constructor
  · intro h
    split at h
    · rename_i hphase
      rw [← h, ← hphase]
    · cases h
  · intro h
    rw [h, if_pos rfl]

theorem Holds.of_running (h : σ.running c = some t) : σ.Holds c t := by
  rw [running_eq_some] at h
  rw [Holds, h]
  exact ⟨rfl, Phase.noConfusion, Phase.noConfusion⟩

theorem Near.of_running (h : σ.running c = some t) : σ.Near c t := .inl (Holds.of_running h).1

theorem Sane.running (h : σ.Sane none) (hrun : σ.running c = some t) :
    ∃ x, σ.tasks t = some x ∧ x.state = .running := by
  obtain ⟨m, hm, hstate⟩ := (h.fits t).held c (by simp) (Holds.of_running hrun)
  obtain ⟨x, hx, rfl⟩ := map_eq_some_iff.mp hm
  exact ⟨x, hx, hstate⟩

end Fits

/-! ### What the primitives keep -/

section Primitives

variable {σ σ' : Sched} {away : Option ℕ} {t u c : ℕ} {x : SchedTask} {m : Mark} {p : Place}
  {f : SchedTask → SchedTask}

theorem mem_rows_append {k k' : SchedClass} :
    u ∈ (σ.setRow k (σ.rows k ++ [t])).rows k' ↔ u ∈ σ.rows k' ∨ k' = k ∧ u = t := by
  by_cases hk : k' = k
  · subst hk
    simp [setRow]
  · simp [setRow, hk]

theorem mem_rows_erase {k k' : SchedClass} (h : (σ.rows k).Nodup) :
    u ∈ (σ.setRow k ((σ.rows k).erase t)).rows k' ↔ u ∈ σ.rows k' ∧ ¬ (k' = k ∧ u = t) := by
  by_cases hk : k' = k
  · subst hk
    simp [h.mem_erase_iff, and_comm]
  · simp [setRow_of_ne hk, hk]

theorem mem_waiting_append {q : Place} :
    u ∈ (σ.setWaiting p (σ.waiting p ++ [t])).waiting q ↔ u ∈ σ.waiting q ∨ q = p ∧ u = t := by
  by_cases hq : q = p
  · subst hq
    simp
  · simp [setWaiting_of_ne hq, hq]

theorem mem_waiting_erase {q : Place} (h : (σ.waiting p).Nodup) :
    u ∈ (σ.setWaiting p ((σ.waiting p).erase t)).waiting q ↔
      u ∈ σ.waiting q ∧ ¬ (q = p ∧ u = t) := by
  by_cases hq : q = p
  · subst hq
    simp [h.mem_erase_iff, and_comm]
  · simp [setWaiting_of_ne hq, hq]

theorem nodup_update {α : Type} [DecidableEq α] {f : α → List ℕ} {a : α} {l : List ℕ}
    (h : ∀ b, (f b).Nodup) (hl : l.Nodup) (b : α) : (Function.update f a l b).Nodup :=
  (Function.forall_update_iff f fun _ l => l.Nodup).mpr ⟨hl, fun b _ => h b⟩ b

/-- Owners, counts, completions and families do not matter. -/
theorem Sane.congr {τ : Sched} (h : σ.Sane away) (htask : τ.tasks = σ.tasks)
    (hrows : τ.rows = σ.rows) (hwaiting : τ.waiting = σ.waiting) (hcpus : τ.cpus = σ.cpus)
    (hnext : τ.nextTask = σ.nextTask) (hclass : τ.classes = σ.classes) : τ.Sane away where
  fits t := by
    refine (h.fits t).mono (by rw [mark, htask, mark]) (fun k => by rw [hrows])
      (fun p hp => hwaiting ▸ hp) (fun c hc hh => ⟨hc, ?_⟩) (fun c hn => ?_) hclass
    · rwa [Holds, hcpus] at hh
    · rwa [Near, hcpus] at hn
  rowOnce k := hrows ▸ h.rowOnce k
  waitOnce p := hwaiting ▸ h.waitOnce p
  seated t ht := by rw [htask]; exact h.seated t (hnext ▸ ht)
  apart c t ht := by rw [hcpus] at ht ⊢; exact h.apart c t ht

theorem seated_edit (h : ∀ u, σ.nextTask ≤ u → σ.tasks u = none) (u : ℕ) (hu : σ.nextTask ≤ u) :
    (σ.edit t f).tasks u = none := by
  rw [edit_tasks]
  split
  · rename_i hut
    rw [← hut, h u hu, Option.map_none]
  · exact h u hu

section

variable (h : σ.Sane away)

include h

theorem Sane.edit_same
    (hf : ∀ x, σ.tasks t = some x → markOf (f x) = markOf x) : (σ.edit t f).Sane away where
  fits u := (h.fits u).mono (mark_edit_same hf u) (fun _ => Iff.rfl) (fun _ => id)
    (fun _ hc hh => ⟨hc, hh⟩) (fun _ => id) rfl
  rowOnce := h.rowOnce
  waitOnce := h.waitOnce
  seated := seated_edit h.seated
  apart := h.apart

theorem Sane.setSignals {signals : SignalState} : (σ.setSignals t signals).Sane away :=
  h.edit_same fun _ _ => rfl

/-- A task that is in no row and on no list, and that no processor has, goes from one state
to another. -/
theorem Sane.edit_state {b : TaskState} (hx : σ.tasks t = some x)
    (hf : markOf (f x) = { markOf x with state := b }) (hready : x.state ≠ .ready)
    (hblock : x.state ≠ .blocked) (hb : b ≠ .ready)
    (hhold : ∀ c, away ≠ some c → ¬ σ.Holds c t) : (σ.edit t f).Sane away where
  fits u := by
    by_cases hu : u = t
    · subst hu
      have hold := h.fits u
      refine hold.become hx ((mark_edit_self hx).trans (congrArg some hf)) (fun k => ?_)
        (hold.not_waits (mark_of_tasks hx) hblock) (fun c hc hh => absurd hh (hhold c hc))
        (fun _ => hold.onCpu hx) (fun hfresh => ?_) rfl rfl
      · exact iff_of_false (hold.not_row (mark_of_tasks hx) hready k) fun hk => hb hk.1
      · -- a fresh task would be blocked
        exact absurd (hold.fresh _ (mark_of_tasks hx) hfresh) hblock
    · exact (h.fits u).mono (mark_edit_of_ne hu) (fun _ => Iff.rfl) (fun _ => id)
        (fun _ hc hh => ⟨hc, hh⟩) (fun _ => id) rfl
  rowOnce := h.rowOnce
  waitOnce := h.waitOnce
  seated := seated_edit h.seated
  apart := h.apart

theorem Sane.enqueue (hx : σ.tasks t = some x) (hready : x.state ≠ .ready)
    (hwait : ∀ p, t ∉ σ.waiting p) (hhold : ∀ c, away ≠ some c → ¬ σ.Holds c t)
    (hq : σ.enqueue t x = some σ') : σ'.Sane away := by
  obtain ⟨-, rfl⟩ := enqueue_eq_some hq
  have hrow := (h.fits t).not_row (mark_of_tasks hx) hready
  have hmark : (σ.queued t x).mark t = some ⟨.ready, x.cls, x.onCpu, false⟩ := mark_edit_self hx
  refine ⟨fun u => ?_, nodup_update h.rowOnce ((h.rowOnce _).append (nodup_singleton t)
    (disjoint_singleton.mpr (hrow _))), h.waitOnce, seated_edit h.seated, h.apart⟩
  · by_cases hu : u = t
    · subst hu
      refine (h.fits u).become hx hmark (fun k => ?_) hwait (fun c hc hh => absurd hh (hhold c hc))
        (fun _ => (h.fits u).onCpu hx) nofun rfl rfl
      rw [edit_rows, mem_rows_append]
      constructor
      · rintro (hk | ⟨rfl, -⟩)
        · exact absurd hk (hrow k)
        · exact ⟨rfl, rfl⟩
      · exact fun hk => .inr ⟨hk.2.symm, rfl⟩
    · refine (h.fits u).mono (mark_edit_of_ne hu) (fun k => ?_) (fun _ => id)
        (fun _ hc hh => ⟨hc, hh⟩) (fun _ => id) rfl
      rw [edit_rows, mem_rows_append]
      exact or_iff_left fun hk => hu hk.2

theorem Sane.refused : σ.refused.Sane away := h.congr rfl rfl rfl rfl rfl rfl

theorem Sane.enqueue_getD (hx : σ.tasks t = some x) (hready : x.state ≠ .ready)
    (hwait : ∀ p, t ∉ σ.waiting p) (hhold : ∀ c, away ≠ some c → ¬ σ.Holds c t) :
    ((σ.enqueue t x).getD σ.refused).Sane away := by
  cases hq : σ.enqueue t x with
  | none => exact h.refused
  | some queued => exact h.enqueue hx hready hwait hhold hq

/-- A blocked task that is on no list is woken, or refused. -/
theorem Sane.unblock (hwait : ∀ p, t ∉ σ.waiting p) : (σ.unblock t).Sane away := by
  unfold Sched.unblock
  split
  · exact h
  rename_i x hx
  split
  · rename_i hblock
    exact h.enqueue_getD hx (state_ne hblock nofun) hwait fun c hc =>
      (h.fits t).not_held (mark_of_tasks hx) (state_ne hblock nofun) hc
  · exact h

theorem Sane.resume (hx : σ.tasks t = some x) (hstop : x.state = .stopped) :
    (σ.resume t).Sane away := by
  rw [Sched.resume, hx]
  exact h.enqueue_getD hx (state_ne hstop (by simp))
    ((h.fits t).not_waits (mark_of_tasks hx) (state_ne hstop (by simp)))
    fun c hc => (h.fits t).not_held (mark_of_tasks hx) (state_ne hstop (by simp)) hc

theorem Sane.unwait : (σ.setWaiting p ((σ.waiting p).erase t)).Sane away where
  fits u := (h.fits u).mono rfl (fun _ => Iff.rfl)
    (fun _ hq => ((mem_waiting_erase (h.waitOnce p)).mp hq).1) (fun _ hc hh => ⟨hc, hh⟩)
    (fun _ => id) rfl
  rowOnce := h.rowOnce
  waitOnce := nodup_update h.waitOnce ((h.waitOnce p).erase t)
  seated := h.seated
  apart := h.apart

/-- Who is taken off its list is on no list. -/
theorem Sane.off (ht : t ∈ σ.waiting p) (q : Place) :
    t ∉ (σ.setWaiting p ((σ.waiting p).erase t)).waiting q := by
  intro hq
  obtain ⟨hq, hne⟩ := (mem_waiting_erase (h.waitOnce p)).mp hq
  exact hne ⟨(h.fits t).once q p hq ht, rfl⟩

theorem Sane.takeOff (ht : t ∈ σ.waiting p) : (σ.takeOff p t).Sane away :=
  h.unwait.unblock (h.off ht)

theorem Sane.wait (hm : σ.mark t = some m) (hblock : m.state = .blocked)
    (hfresh : m.fresh = false) (hwait : ∀ p, t ∉ σ.waiting p) :
    (σ.setWaiting p (σ.waiting p ++ [t])).Sane away where
  fits u := by
    by_cases hu : u = t
    · subst hu
      have hold := h.fits u
      have honly : ∀ {q}, u ∈ (σ.setWaiting p (σ.waiting p ++ [u])).waiting q → q = p := fun hq =>
        ((mem_waiting_append.mp hq).resolve_left (hwait _)).1
      exact { hold with
        waits := fun _ _ => ⟨m, hm, hblock, hfresh⟩
        once := fun q r hq hr => (honly hq).trans (honly hr).symm }
    · refine (h.fits u).mono rfl (fun _ => Iff.rfl) (fun q hq => ?_) (fun _ hc hh => ⟨hc, hh⟩)
        (fun _ => id) rfl
      exact (mem_waiting_append.mp hq).resolve_right fun hq => hu hq.2
  rowOnce := h.rowOnce
  waitOnce := nodup_update h.waitOnce
    ((h.waitOnce p).append (nodup_singleton t) (disjoint_singleton.mpr (hwait p)))
  seated := h.seated
  apart := h.apart

end

/-! #### Processors -/

/-- Where the other processors stand does not change. -/
theorem holds_setCpu_of_ne (h : c' ≠ c) : (σ.setCpu c cpu).Holds c' u ↔ σ.Holds c' u := by
  rw [Holds, setCpu_of_ne h, Holds]

theorem near_setCpu_of_ne (h : c' ≠ c) : (σ.setCpu c cpu).Near c' u ↔ σ.Near c' u := by
  rw [Near, setCpu_of_ne h, Near]

/-- A processor ends the leaving of its task: it holds none now. -/
theorem Sane.settle (h : σ.Sane (some c)) (hhold : ∀ u, ¬ (σ.setCpu c cpu).Holds c u)
    (hnear : ∀ u, (σ.setCpu c cpu).Near c u → σ.Near c u)
    (hap : ∀ u, cpu.phase = .switching u → cpu.current ≠ some u) :
    (σ.setCpu c cpu).Sane none where
  fits u := by
    refine (h.fits u).mono rfl (fun _ => Iff.rfl) (fun _ => id) (fun c' _ hh => ?_)
      (fun c' hn => ?_) rfl
    · by_cases hc : c' = c
      · exact absurd (hc ▸ hh) (hhold u)
      · exact ⟨fun heq => hc (some.inj heq).symm, (holds_setCpu_of_ne hc).mp hh⟩
    · by_cases hc : c' = c
      · subst hc
        exact hnear u hn
      · exact (near_setCpu_of_ne hc).mp hn
  rowOnce := h.rowOnce
  waitOnce := h.waitOnce
  seated := h.seated
  apart c' u hu := by
    by_cases hc : c' = c
    · subst hc
      rw [setCpu_self] at hu ⊢
      exact hap u hu
    · rw [setCpu_of_ne hc] at hu ⊢
      exact h.apart c' u hu

theorem Sane.leave (h : σ.Sane (some c)) {phase : Phase} (hcur : (σ.cpus c).current = some t)
    (hphase : phase = .rotate ∨ phase = .leave) :
    (σ.setCpu c { current := some t, phase := phase }).Sane none := by
  refine h.settle (fun u hh => ?_) (fun u hn => ?_) (fun u hu => ?_)
  · rw [Holds, setCpu_self] at hh
    rcases hphase with rfl | rfl
    · exact hh.2.1 rfl
    · exact hh.2.2 rfl
  · rw [Near, setCpu_self] at hn
    rcases hn with hn | hn
    · exact .inl (hcur.trans hn)
    · rcases hphase with rfl | rfl <;> cases hn
  · rcases hphase with rfl | rfl <;> cases hu

section

variable (h : σ.Sane none) (hrun : σ.running c = some t)
include h hrun

/-- No other processor stands at a task that one runs. -/
theorem Sane.held_only (hc : some c ≠ some c') : ¬ σ.Holds c' t := by
  intro hh
  have := (h.fits t).near_unique (Near.of_running hrun) (.inl hh.1)
  exact hc (congrArg some this)

theorem Sane.parkOn : (σ.parkOn c t p).Sane none := by
  obtain ⟨x, hx, hstate⟩ := h.running hrun
  have hwait := (h.fits t).not_waits (mark_of_tasks hx) (state_ne hstate nofun)
  have hfresh : x.fresh = false := by
    by_contra hf
    have := (h.fits t).fresh _ (mark_of_tasks hx) (Bool.not_eq_false _ ▸ hf)
    exact state_ne hstate TaskState.noConfusion this
  have hblock : (σ.edit t fun x => { x with state := .blocked }).Sane (some c) :=
    h.leaving.edit_state hx rfl (state_ne hstate nofun)
      (state_ne hstate nofun) nofun fun c' hc => h.held_only hrun hc
  have hparked := hblock.wait (p := p) (mark_edit_self hx) rfl hfresh hwait
  exact hparked.leave (Holds.of_running hrun).1 (.inr rfl)

theorem Sane.yielded (hx : σ.tasks t = some x) (hq : σ.enqueue t x = some σ') :
    (σ'.setCpu c { current := some t, phase := .rotate }).Sane none := by
  obtain ⟨y, hy, hset⟩ := h.running hrun
  obtain rfl := mem_unique hx hy
  have hleaving : σ.Sane (some c) := h.leaving
  have hqueued := hleaving.enqueue hx (state_ne hset nofun)
    ((h.fits t).not_waits (mark_of_tasks hx) (state_ne hset nofun))
    (fun c' hc => h.held_only hrun hc) hq
  refine hqueued.leave ?_ (.inl rfl)
  obtain ⟨-, rfl⟩ := enqueue_eq_some hq
  exact (Holds.of_running hrun).1

end

theorem bestOf_mem {row : List ℕ} (h : σ.bestOf row = some t) : t ∈ row := by
  induction row generalizing t with
  | nil => cases h
  | cons head row ih =>
    unfold bestOf at h
    split at h
    · obtain ⟨⟩ := h
      exact mem_cons_self
    rename_i other hother
    split at h
    · obtain ⟨⟩ := h
      exact mem_cons_of_mem _ (ih hother)
    · obtain ⟨⟩ := h
      exact mem_cons_self

theorem choose_spec {k : SchedClass} (h : σ.choose c k = some t) :
    t ∈ σ.rows k ∧ σ.available c t = true := by
  rw [← mem_filter]
  cases k with
  | fifo => exact mem_of_head? h
  | priority => exact bestOf_mem h

theorem pickNext_spec (h : σ.pickNext c = some picked) :
    picked.2 ∈ σ.rows picked.1 ∧ σ.available c picked.2 = true := by
  obtain ⟨k, -, hk⟩ := exists_of_findSome?_eq_some h
  obtain ⟨t, ht, rfl⟩ := map_eq_some_iff.mp hk
  exact choose_spec ht

/-- The processor leaves its task for one that it has picked. -/
theorem Sane.switchTo (h : σ.Sane (some c)) {phase : Phase} (hpick : σ.pickNext c = some picked)
    (hphase : phase = .run ∨ ∃ prev, phase = .switching prev ∧ prev ≠ picked.2 ∧ σ.Near c prev) :
    (σ.switchTo c picked phase).Sane none := by
  obtain ⟨hrow, havail⟩ := pickNext_spec hpick
  obtain ⟨k, t⟩ := picked
  obtain ⟨m, hm, hready, hclass⟩ := ((h.fits t).row k).mp hrow
  obtain ⟨x, hx, rfl⟩ := map_eq_some_iff.mp hm
  have hmark : (σ.switchTo c (k, t) phase).mark t = some ⟨.running, x.cls, some c, x.fresh⟩ :=
    mark_edit_self hx
  have hrows : ∀ u k', u ∈ (σ.switchTo c (k, t) phase).rows k' ↔
      u ∈ σ.rows k' ∧ ¬ (k' = k ∧ u = t) := fun u k' => mem_rows_erase (h.rowOnce k)
  have hcpu : (σ.switchTo c (k, t) phase).cpus c = { current := some t, phase := phase } :=
    setCpu_self _ _ _
  have hother : ∀ c', c' ≠ c → (σ.switchTo c (k, t) phase).cpus c' = σ.cpus c' :=
    fun c' hc => setCpu_of_ne hc
  refine ⟨fun u => ?_, nodup_update h.rowOnce ((h.rowOnce k).erase t), h.waitOnce,
    seated_edit h.seated, fun c' u hu => ?_⟩
  · by_cases hu : u = t
    · subst hu
      have hold := h.fits u
      refine hold.become hx hmark (fun k' => iff_of_false (fun hk => ?_) nofun)
        (hold.not_waits (mark_of_tasks hx) (state_ne hready nofun)) (fun _ _ _ => rfl)
        (fun c' hn => ?_) (fun hfresh => ?_) rfl rfl
      · obtain ⟨hk, hne⟩ := (hrows u k').mp hk
        exact hne ⟨(hold.cls_eq hx hk).symm.trans hclass, rfl⟩
      · by_cases hc : c' = c
        · rw [hc]
        -- another processor at the task would have kept it from being picked
        rw [Near, hother c' hc] at hn
        rw [available, hx] at havail
        simp [hold.onCpu hx hn, hc] at havail
      · exact absurd (hold.fresh _ (mark_of_tasks hx) hfresh) (state_ne hready nofun)
    · refine (h.fits u).mono (mark_edit_of_ne hu) (fun k' => ?_) (fun _ => id) (fun c' _ hh => ?_)
        (fun c' hn => ?_) rfl
      · rw [hrows]
        exact and_iff_left fun hk => hu hk.2
      · by_cases hc : c' = c
        · rw [hc, Holds, hcpu] at hh
          exact absurd (some.inj hh.1).symm hu
        · rw [Holds, hother c' hc] at hh
          exact ⟨fun heq => hc (some.inj heq).symm, hh⟩
      · by_cases hc : c' = c
        · subst hc
          rw [Near, hcpu] at hn
          rcases hn with hn | hn
          · exact absurd (some.inj hn).symm hu
          · rcases hphase with rfl | ⟨prev, rfl, -, hprev⟩
            · cases hn
            · rwa [Phase.switching.inj hn] at hprev
        · rwa [Near, hother c' hc] at hn
  · by_cases hc : c' = c
    · rw [hc, hcpu] at hu ⊢
      rcases hphase with rfl | ⟨prev, rfl, hne, -⟩
      · cases hu
      · intro heq
        exact hne ((Phase.switching.inj hu).trans (some.inj heq).symm)
    · rw [hother c' hc] at hu ⊢
      exact h.apart c' u hu

theorem Sane.scheduleAway (h : σ.Sane (some c)) (hnear : σ.Near c t) :
    (σ.scheduleAway c t).Sane none := by
  unfold Sched.scheduleAway
  split
  · refine h.settle (fun u hh => ?_) (fun u hn => ?_) (nofun)
    · rw [Holds, setCpu_self] at hh
      cases hh.1
    · rw [Near, setCpu_self] at hn
      rcases hn with hn | hn
      · cases hn
      · rwa [← Phase.switching.inj hn]
  · rename_i picked hpick
    refine h.switchTo hpick ?_
    split
    · exact .inl rfl
    · rename_i hne
      exact .inr ⟨t, rfl, fun heq => hne heq.symm, hnear⟩

/-- A switch from a task is over. -/
abbrev arrived (σ : Sched) (c t : ℕ) : Sched :=
  (σ.edit t fun x => { x with onCpu := none }).setCpu c
    { current := (σ.cpus c).current, phase := .run }

/-- The switch is over: the task that was left can be picked elsewhere. -/
theorem Sane.switched (h : σ.Sane none) (hphase : (σ.cpus c).phase = .switching t) :
    (σ.arrived c t).Sane none := by
  obtain ⟨m, hm, -⟩ := (h.fits t).near c (.inr hphase)
  obtain ⟨x, hx, rfl⟩ := map_eq_some_iff.mp hm
  have hmark : (σ.arrived c t).mark t = some { markOf x with onCpu := none } := mark_edit_self hx
  -- a processor that has arrived is near its own task only
  have hnear : ∀ u c', (σ.arrived c t).Near c' u → σ.Near c' u := by
    intro u c' hn
    by_cases hc : c' = c
    · subst hc
      rw [Near, setCpu_self] at hn
      exact .inl (hn.resolve_right Phase.noConfusion)
    · exact (near_setCpu_of_ne hc).mp hn
  have hhold : ∀ u c', (σ.arrived c t).Holds c' u → σ.Holds c' u := by
    intro u c' hh
    by_cases hc : c' = c
    · subst hc
      rw [Holds, setCpu_self] at hh
      rw [Holds, hphase]
      exact ⟨hh.1, Phase.noConfusion, Phase.noConfusion⟩
    · exact (holds_setCpu_of_ne hc).mp hh
  refine ⟨fun u => ?_, h.rowOnce, h.waitOnce, seated_edit h.seated, fun c' u hu => ?_⟩
  · by_cases hu : u = t
    · subst hu
      have hold := h.fits u
      -- nobody is near the task that was left
      have hfar : ∀ c', ¬ (σ.arrived c u).Near c' u := by
        intro c' hn
        obtain rfl := hold.near_unique (hnear u c' hn) (.inr hphase)
        rw [Near, setCpu_self] at hn
        exact h.apart c' u hphase (hn.resolve_right Phase.noConfusion)
      refine ⟨fun k => ?_, fun p hp => ?_, hold.once, fun c' _ hh => absurd (.inl hh.1) (hfar c'),
        fun c' hn => absurd hn (hfar c'), fun m hm hfresh => ?_, fun m hm => ?_⟩
      · rw [hmark]
        have hrow := hold.row k
        rw [mark_of_tasks hx] at hrow
        refine hrow.trans ?_
        simp
      · obtain ⟨m, hm, hstate⟩ := hold.waits p hp
        rw [mark_of_tasks hx] at hm
        rw [← some.inj hm] at hstate
        exact ⟨_, hmark, hstate⟩
      · rw [← mem_unique hmark hm] at hfresh ⊢
        have hblock := hold.fresh _ (mark_of_tasks hx) hfresh
        exact hblock
      · have hclass := hold.cls _ (mark_of_tasks hx)
        rw [← mem_unique hmark hm]
        exact hclass
    · exact (h.fits u).mono (mark_edit_of_ne hu) (fun _ => Iff.rfl) (fun _ => id)
        (fun c' hc hh => ⟨hc, hhold u c' hh⟩) (hnear u) rfl
  · by_cases hc : c' = c
    · rw [hc, setCpu_self] at hu
      cases hu
    · rw [setCpu_of_ne hc] at hu ⊢
      exact h.apart c' u hu

/-! #### Signals -/

theorem Sane.withdraw (h : σ.Sane away) (hw : σ.withdraw t = some σ') : σ'.Sane away := by
  obtain rfl | ⟨x, hx, hready, rfl⟩ := withdraw_cases hw
  · exact h
  have hmark : ((σ.setRow x.cls ((σ.rows x.cls).erase t)).edit t fun x =>
      { x with state := .stopped }).mark t = some { markOf x with state := .stopped } :=
    mark_edit_self hx
  refine ⟨fun u => ?_, nodup_update h.rowOnce ((h.rowOnce _).erase t), h.waitOnce,
    seated_edit h.seated, h.apart⟩
  · by_cases hu : u = t
    · subst hu
      have hold := h.fits u
      refine hold.become hx hmark (fun k => iff_of_false (fun hk => ?_) nofun)
        (hold.not_waits (mark_of_tasks hx) (state_ne hready nofun)) (fun c hc hh => ?_)
        (fun _ => hold.onCpu hx) (fun hfresh => ?_) rfl rfl
      · rw [edit_rows, mem_rows_erase (h.rowOnce _)] at hk
        exact hk.2 ⟨(hold.cls_eq hx hk.1).symm, rfl⟩
      · exact absurd hh (hold.not_held (mark_of_tasks hx) (state_ne hready nofun) hc)
      · exact absurd (hold.fresh _ (mark_of_tasks hx) hfresh) (state_ne hready nofun)
    · refine (h.fits u).mono (mark_edit_of_ne hu) (fun k => ?_) (fun _ => id)
        (fun _ hc hh => ⟨hc, hh⟩) (fun _ => id) rfl
      rw [edit_rows, mem_rows_erase (h.rowOnce _)]
      exact and_iff_left fun hk => hu hk.2

/-- Only a stopped task is resumed. -/
theorem Sane.sendSignal (h : σ.Sane away) {number : ℕ} (hs : σ.sendSignal number t = some σ') :
    σ'.Sane away := by
  obtain rfl | ⟨signals, x, hx, hs⟩ := sendSignal_cases hs
  · exact h
  have hset : (σ.setSignals t signals).Sane away := h.setSignals
  obtain rfl | ⟨hstop, rfl⟩ | hw := hs
  · exact hset
  · exact hset.resume hx hstop
  · exact hset.withdraw hw

theorem Sane.stop (h : σ.Sane none) (hrun : σ.running c = some t) (hx : σ.tasks t = some x)
    {signals : SignalState} :
    ((σ.edit t fun x => { x with signals := signals, state := .stopped }).setCpu c
      { current := some t, phase := .leave }).Sane none := by
  obtain ⟨y, hy, hstate⟩ := h.running hrun
  obtain rfl := mem_unique hx hy
  refine Sane.leave (h.leaving.edit_state (b := .stopped) hx rfl ?_ ?_ nofun
    fun c' hc => h.held_only hrun hc) (Holds.of_running hrun).1 (.inr rfl)
  · exact state_ne hstate nofun
  · exact state_ne hstate nofun

/-! #### Families -/

theorem Sane.tellParent (h : σ.Sane away) (ht : σ.tellParent t = some σ') : σ'.Sane away := by
  obtain ⟨told, htold, rfl⟩ := map_eq_some_iff.mp ht
  have := h.sendSignal htold
  split
  · rename_i hmem
    exact this.takeOff hmem
  · exact this

theorem Sane.reap (h : σ.Sane none) (hx : σ.tasks t = some x) (hz : x.state = .zombie)
    (hf : markOf (f x) = { markOf x with state := .dead }) : (σ.edit t f).Sane none :=
  h.edit_state hx hf (state_ne hz nofun) (state_ne hz nofun)
    nofun fun _ hc =>
      (h.fits t).not_held (mark_of_tasks hx) (state_ne hz nofun) hc

theorem Sane.detachOne (h : σ.Sane none) {dying : ℕ} {adopter : Option ℕ}
    (hd : detachOne dying adopter σ t = some σ') : σ'.Sane none := by
  unfold Sched.detachOne at hd
  split at hd
  · cases adopter with
    | some a =>
      have hmove : (σ.edit t fun x => { x with parent := some a }).Sane none :=
        h.edit_same fun _ _ => rfl
      simp only at hd
      split at hd
      · exact hmove.tellParent hd
      · rwa [← some.inj hd]
    | none =>
      obtain ⟨⟩ := hd
      have hli : ({ σ with offspring := σ.offspring.erase t } : Sched).Sane none :=
        h.congr rfl rfl rfl rfl rfl rfl
      by_cases hz : ∃ x, σ.tasks t = some x ∧ x.state = .zombie
      · obtain ⟨x, hx, hz⟩ := hz
        refine hli.reap hx hz ?_
        simp only [markOf, if_pos hz]
      · refine hli.edit_same fun x hx => ?_
        simp only [markOf, if_neg fun hstate => hz ⟨x, hx, hstate⟩]
  · rwa [← some.inj hd]

theorem Sane.detachOffspring (h : σ.Sane none) (hd : σ.detachOffspring t = some σ') :
    σ'.Sane none := detachOffspring_induct hd h fun hI hdet => hI.detachOne hdet

/-- What an exit leaves alone until the processor picks another task. -/
structure Aside (σ σ' : Sched) : Prop where
  cpus : σ'.cpus = σ.cpus
  owner : σ'.owner = σ.owner
  lists : ∀ p, p ≠ .children → σ'.waiting p = σ.waiting p

/-- No change beside the processors touches more. -/
theorem quiet_aside {e : SchedOp} (h : placeOf e = none ∨ placeOf e = some .children)
    (busy : ℕ → Prop) : Quiet e busy Aside where
  refl _ := ⟨rfl, rfl, fun _ _ => rfl⟩
  trans h h' := ⟨h'.cpus.trans h.cpus, h'.owner.trans h.owner, fun p hp =>
    (h'.lists p hp).trans (h.lists p hp)⟩
  beside _ _ hw hc ho := ⟨hc, ho, fun p _ => congrFun hw p⟩
  enqueue hq := by
    obtain ⟨-, rfl⟩ := enqueue_eq_some hq
    exact ⟨rfl, rfl, fun _ _ => rfl⟩
  unrow _ _ _ := ⟨rfl, rfl, fun _ _ => rfl⟩
  unwait σ p t hp := ⟨rfl, rfl, fun q hq => by
    rcases h with h | h
    · rw [h] at hp; cases hp
    · rw [h] at hp; exact setWaiting_of_ne (some.inj hp ▸ hq)⟩
  edit _ _ _ _ _ := ⟨rfl, rfl, fun _ _ => rfl⟩

theorem aside_unblock : Aside σ (σ.unblock t) :=
  (quiet_aside (e := .launch t) (.inl rfl) fun _ => True).unblock

theorem aside_resume : Aside σ (σ.resume t) :=
  (quiet_aside (e := .launch t) (.inl rfl) fun _ => True).resume

theorem aside_detachOffspring (h : σ.detachOffspring t = some σ') : Aside σ σ' :=
  (quiet_aside (e := .exit 0) (.inr rfl) fun _ => True).detachOffspring h

theorem aside_retire (h : σ.retire t = some σ') : Aside σ σ' :=
  (quiet_aside (e := .exit 0) (.inr rfl) fun _ => True).retire trivial h

/-- The processor that runs a task that exits still runs it. -/
theorem running_detachOffspring {c u : ℕ} (h : σ.detachOffspring t = some σ')
    (hrun : σ.running c = some u) : σ'.running c = some u := by
  rw [Sched.running, (aside_detachOffspring h).cpus]
  exact hrun

/-- The three ways a task ends. -/
theorem retire_cases (hx : σ.tasks t = some x) (h : σ.retire t = some σ') :
    (∃ parent, x.parent = some parent ∧ x.pid = x.tgid ∧
      (σ.edit t fun x => { x with state := .zombie }).tellParent parent = some σ') ∨
    (∃ parent, x.parent = some parent ∧ x.pid ≠ x.tgid ∧
      σ' = { σ with offspring := σ.offspring.erase t }.edit t fun x => { x with state := .dead }) ∨
    x.parent = none ∧ σ' = σ.edit t fun x => { x with state := .dead } := by
  rw [Sched.retire, hx] at h
  cases hp : x.parent with
  | none =>
    simp only [hp, Option.some.injEq] at h
    exact .inr (.inr ⟨rfl, h.symm⟩)
  | some parent =>
    simp only [hp] at h
    split at h
    · rename_i hleader
      exact .inl ⟨parent, rfl, hleader, h⟩
    · rename_i hmember
      exact .inr (.inl ⟨parent, rfl, hmember, (some.inj h).symm⟩)

theorem Sane.retire (h : σ.Sane none) (hrun : σ.running c = some t) (hx : σ.tasks t = some x)
    (hr : σ.retire t = some σ') : σ'.Sane (some c) := by
  obtain ⟨y, hy, hstate⟩ := h.running hrun
  obtain rfl := mem_unique hx hy
  have hens : ∀ {σ : Sched} {b : TaskState}, σ.Sane none → σ.running c = some t →
      σ.tasks t = some x → b ≠ .ready →
      (σ.edit t fun x => { x with state := b }).Sane (some c) := fun h hrun hx hb =>
    h.leaving.edit_state hx rfl (state_ne hstate nofun)
      (state_ne hstate nofun) hb fun c' hc => h.held_only hrun hc
  obtain ⟨parent, -, -, hr⟩ | ⟨parent, -, -, rfl⟩ | ⟨-, rfl⟩ := retire_cases hx hr
  · exact (hens h hrun hx TaskState.noConfusion).tellParent hr
  · exact hens
      (h.congr rfl rfl rfl rfl rfl rfl) hrun hx nofun
  · exact hens h hrun hx nofun

theorem Sane.register (h : σ.Sane none) {initial : Bool} (hclass : x.cls ∈ σ.classes) :
    (σ.register x initial).Sane none := by
  have hnew : σ.tasks σ.nextTask = none := h.seated _ le_rfl
  have hgone : σ.mark σ.nextTask = none := by rw [mark, hnew, Option.map_none]
  refine ⟨fun u => ?_, h.rowOnce, h.waitOnce, fun u hu => ?_, h.apart⟩
  · by_cases hu : u = σ.nextTask
    · subst hu
      have hold := h.fits σ.nextTask
      have hmark : (σ.register x initial).mark σ.nextTask = some ⟨.blocked, x.cls, none, true⟩ := by
        rw [mark, register_tasks, if_pos rfl]
        rfl
      -- nothing names a task that is not there yet
      have hnow : ∀ {P : Mark → Prop}, ¬ ∃ m, σ.mark σ.nextTask = some m ∧ P m := by
        rintro P ⟨m, hm, -⟩
        rw [hgone] at hm
        cases hm
      refine ⟨fun k => iff_of_false (fun hk => hnow ((hold.row k).mp hk)) ?_,
        fun p hp => absurd (hold.waits p hp) hnow, hold.once,
        fun c hc hh => absurd (hold.held c hc hh) hnow,
        fun c hn => absurd (hold.near c hn) hnow, fun m hm _ => ?_, fun m hm => ?_⟩
      · rintro ⟨m, hm, hstate, -⟩
        rw [← mem_unique hmark hm] at hstate
        cases hstate
      · rw [← mem_unique hmark hm]
      · rw [← mem_unique hmark hm]
        exact hclass
    · refine (h.fits u).mono ?_ (fun _ => Iff.rfl) (fun _ => id) (fun _ hc hh => ⟨hc, hh⟩)
        (fun _ => id) rfl
      rw [mark, register_tasks, if_neg hu, mark]
  · have hu : σ.nextTask + 1 ≤ u := hu
    rw [register_tasks, if_neg (by omega)]
    exact h.seated u (by omega)

/-- A part of a waiting list is woken, one task after the other. -/
theorem Sane.foldl_takeOff : ∀ (ts : List ℕ) {σ : Sched}, σ.Sane away → ts.Nodup →
    (∀ t ∈ ts, t ∈ σ.waiting p) → (ts.foldl (Sched.takeOff · p) σ).Sane away := by
  intro ts
  induction ts with
  | nil => exact fun h _ _ => h
  | cons t ts ih =>
    intro σ h hnodup htasks
    obtain ⟨hnot, hnodup⟩ := nodup_cons.mp hnodup
    refine ih (h.takeOff (htasks t mem_cons_self)) hnodup fun u hu => ?_
    rw [takeOff_waiting, mem_waiting_erase (h.waitOnce p)]
    exact ⟨htasks u (mem_cons_of_mem t hu), fun heq => hnot (heq.2 ▸ hu)⟩

end Primitives

/-! ### Steps -/

variable {σ σ' : Sched} {e : SchedOp}

theorem sleepers_sublist (σ : Sched) (uaddr count : ℕ) :
    (σ.sleepers uaddr count).Sublist (σ.waiting (bucketFor uaddr)) :=
  (take_sublist _ _).trans filter_sublist

/-- **Every step keeps the invariant.** -/
theorem Sane.step (h : σ.Sane none) (hstep : σ.step e = some σ') : σ'.Sane none := by
  by_cases hs : syncs e = true
  · cases step_syncs hs hstep with
    | beside => exact h.congr rfl rfl rfl rfl rfl rfl
    | park _ _ hrun => exact h.parkOn hrun
    | parkOnWord _ hrun => exact Sane.parkOn (h.edit_same fun _ _ => rfl) hrun
    | wake _ _ hwait =>
      exact Sane.takeOff (h.congr rfl rfl rfl rfl rfl rfl) (hwait ▸ mem_cons_self)
    | @wakeAll uaddr count _ =>
      have hsub := σ.sleepers_sublist uaddr count
      exact Sane.foldl_takeOff _ h ((h.waitOnce _).sublist hsub) fun t ht => hsub.subset ht
    | signals => exact h.setSignals
    | stop _ hrun hx => exact h.stop hrun hx
    | reap _ hz =>
      obtain ⟨y, hy, hstate⟩ := isZombie_iff.mp hz
      exact Sane.reap (h.congr rfl rfl rfl rfl rfl rfl) hy hstate rfl
  cases e with
  | seat x runnable initial =>
    obtain ⟨hclass, rfl | rfl | hq⟩ := step_seat hstep
    · exact h.register hclass
    · exact (h.register hclass).refused
    have hreg : (σ.register x initial).Sane none := h.register hclass
    have hnew : (σ.register x initial).tasks σ.nextTask = some (σ.newTask x initial) := by
      rw [register_tasks, if_pos rfl]
    refine hreg.enqueue hnew nofun (fun p hp => ?_) (fun c hc => ?_) hq
    · -- a fresh task is on no list
      obtain ⟨m, hm, -, hfresh⟩ := (hreg.fits _).waits p hp
      rw [← some.inj ((mark_of_tasks hnew).symm.trans hm)] at hfresh
      cases hfresh
    · exact (hreg.fits _).not_held (mark_of_tasks hnew) TaskState.noConfusion hc
  | joinGroup t tgid =>
    obtain ⟨⟩ := hstep
    exact h.edit_same fun _ _ => rfl
  | launch t =>
    obtain ⟨⟨x, hx, hfresh⟩, rfl⟩ := step_launch hstep
    refine h.unblock fun p hp => ?_
    obtain ⟨m, hm, -, hnot⟩ := (h.fits t).waits p hp
    rw [← some.inj ((mark_of_tasks hx).symm.trans hm)] at hnot
    exact absurd (hfresh.symm.trans hnot) (by decide)
  | yield c =>
    obtain ⟨t, x, hrun, hx, rfl | ⟨queued, hq, rfl⟩⟩ := step_yield hstep
    · exact h.refused
    · exact h.yielded hrun hx hq
  | rotate c =>
    obtain ⟨prev, picked, hcpu, hpick, rfl⟩ := step_rotate hstep
    refine h.leaving.switchTo hpick ?_
    split
    · exact .inl rfl
    · rename_i hne
      exact .inr ⟨prev, rfl, fun heq => hne heq.symm, .inl (by rw [hcpu])⟩
  | schedule c =>
    obtain ⟨prev, hcpu, rfl⟩ := step_schedule hstep
    exact h.leaving.scheduleAway (.inl (by rw [hcpu]))
  | switched c =>
    obtain ⟨prev, hphase, rfl⟩ := step_switched hstep
    exact h.switched hphase
  | dispatch c =>
    obtain ⟨hid, rfl | ⟨picked, hpick, rfl⟩⟩ := step_dispatch hstep
    · exact h
    · exact h.leaving.switchTo hpick (.inl rfl)
  | exit c =>
    obtain ⟨t, detached, retired, hrun, hdet, hret, rfl⟩ := step_exit hstep
    have hd := h.detachOffspring hdet
    have hrun' := running_detachOffspring hdet hrun
    obtain ⟨x, hx, -⟩ := hd.running hrun'
    refine (hd.retire hrun' hx hret).scheduleAway ?_
    rw [Near, (aside_retire hret).cpus]
    exact Near.of_running hrun'
  | send number t => exact h.sendSignal hstep
  | _ => exact absurd rfl hs

/-! ### What a step does to a mutex -/

/-- The owner and the waiting list of a mutex. -/
def mutexOf (σ : Sched) (m : ℕ) : Option ℕ × List ℕ := (σ.owner m, σ.waiting (.mutex m))

/-- Only locking and unlocking it touches a mutex. -/
theorem step_mutex {m : ℕ} (h : σ.step e = some σ') :
    σ'.mutexOf m = σ.mutexOf m ∨ (∃ c, e = .lock c m) ∨ ∃ c, e = .unlock c m := by
  by_cases he : (∃ c, e = .lock c m) ∨ ∃ c, e = .unlock c m
  · exact .inr he
  left
  have other : ∀ {p}, placeOf e = some p → .mutex m ≠ p := by
    rintro p hp rfl
    cases e <;> cases hp
    · exact he (.inl ⟨_, rfl⟩)
    · exact he (.inr ⟨_, rfl⟩)
  have frame : Frame e σ fun σ σ' => σ'.mutexOf m = σ.mutexOf m := {
    refl := fun _ => rfl
    trans := fun h h' => h'.trans h
    beside := fun _ _ hw _ ho => by rw [mutexOf, hw, ho, mutexOf]
    enqueue := fun hq => by
      obtain ⟨-, rfl⟩ := enqueue_eq_some hq
      rfl
    unrow := fun _ _ _ => rfl
    unwait := fun σ _ _ hp => congrArg (Prod.mk (σ.owner m)) (setWaiting_of_ne (other hp))
    edit := fun _ _ _ _ _ => rfl
    wait := fun σ _ _ hp => congrArg (Prod.mk (σ.owner m)) (setWaiting_of_ne (other hp))
    cpu := fun _ _ _ _ => rfl
    owner := fun σ k o hk => congrArg (Prod.mk · (σ.waiting (.mutex m)))
      (Function.update_of_ne (by rintro rfl; exact he hk) _ _)
    register := fun _ => rfl }
  exact frame.step h

/-! ### What a step does to the processors -/

theorem cpus_takeOff {p : Place} {t : ℕ} : (σ.takeOff p t).cpus = σ.cpus :=
  (aside_unblock (σ := σ.setWaiting p ((σ.waiting p).erase t))).cpus

/-- The other processors stay where they are. -/
theorem step_cpus (hother : cpuOf e ≠ some c') (h : σ.step e = some σ') :
    σ'.cpus c' = σ.cpus c' := by
  have frame : Frame e σ fun σ σ' => σ'.cpus c' = σ.cpus c' := {
    refl := fun _ => rfl
    trans := fun h h' => h'.trans h
    beside := fun _ _ _ hc _ => congrFun hc c'
    enqueue := fun hq => by
      obtain ⟨-, rfl⟩ := enqueue_eq_some hq
      rfl
    unrow := fun _ _ _ => rfl
    unwait := fun _ _ _ _ => rfl
    edit := fun _ _ _ _ _ => rfl
    wait := fun _ _ _ _ => rfl
    cpu := fun _ c _ hc => setCpu_of_ne (by rintro rfl; exact hother hc)
    owner := fun _ _ _ _ => rfl
    register := fun _ => rfl }
  exact frame.step h

end Sched

end Cinux
