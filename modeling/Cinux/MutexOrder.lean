/-
Mutexes (`kernel/proc/sync.cpp`).

A mutex is handed on: `unlock` makes the first of the waiting tasks its owner, and that task
finds out only when it runs again.  Between the two the owner is a task that is still inside
`lock`.  A run is therefore watched by a record of who is where: past `lock` and before
`unlock`, or parked inside `lock`; and of who joined the waiting list and who was taken from
it, in order.  The record only looks (`Watched.step_sched`).

* `Watched.step` — a step of the scheduler, and what it does to the record;
* `Kept.step` — every step keeps the record right;
* `mutex_exclusive_fifo` — mutual exclusion, who the owner is, and the order of the grants.
-/
import Cinux.Wakeups

namespace Cinux

open Sched List Option Function Runs

/-! ### The record -/

/-- A scheduler under watch. -/
structure Watched where
  sched : Sched
  /-- The task is past `lock` of the mutex and before `unlock`. -/
  inside : ℕ → ℕ → Bool := fun _ _ => false
  /-- The mutex in whose `lock` the task has parked. -/
  calling : ℕ → Option ℕ := fun _ => none
  /-- Those that have joined the waiting list so far. -/
  joined : ℕ → List ℕ := fun _ => []
  /-- Those to whom `unlock` has handed the mutex so far. -/
  granted : ℕ → List ℕ := fun _ => []

namespace Watched

/-- The task is past `lock`, or no longer. -/
def setInside (w : Watched) (m t : ℕ) (b : Bool) : Watched :=
  { w with inside := update w.inside m (update (w.inside m) t b) }

/-- What a call to `lock` or `unlock` does by itself. -/
def note (w : Watched) : SchedOp → Watched
  | .lock c m =>
    match w.sched.running c with
    | none => w
    | some t =>
      if w.sched.owner m = none then w.setInside m t true
      else { w with
        calling := update w.calling t (some m)
        joined := update w.joined m (w.joined m ++ [t]) }
  | .unlock c m =>
    match w.sched.running c with
    | none => w
    | some t => { w.setInside m t false with
        granted := update w.granted m
          (w.granted m ++ (w.sched.waiting (.mutex m)).head?.toList) }
  | _ => w

/-- A task that runs again after it had parked in `lock` comes back from it. -/
def comeBack (w : Watched) : Option ℕ → Watched
  | none => w
  | some t =>
    match w.calling t with
    | none => w
    | some m => { w.setInside m t true with calling := update w.calling t none }

/-- A step of the scheduler, noted. -/
def step (w : Watched) (e : SchedOp) : Option Watched :=
  (w.sched.step e).map fun σ =>
    { (w.note e).comeBack ((cpuOf e).bind σ.running) with sched := σ }

theorem step_sched (w : Watched) (e : SchedOp) : (w.step e).map sched = w.sched.step e := by
  rw [step, Option.map_map]
  exact map_id_apply

/-! ### What the record says -/

/-- The record agrees with the owners and the waiting lists. -/
structure Kept (w : Watched) : Prop where
  sane : w.sched.Sane none
  own : ∀ m t, w.inside m t = true → w.sched.owner m = some t
  away : ∀ t m c, w.calling t = some m → w.sched.running c ≠ some t
  call : ∀ t m, w.calling t = some m → t ∈ w.sched.waiting (.mutex m) ∨ w.sched.owner m = some t
  wait : ∀ t m, t ∈ w.sched.waiting (.mutex m) → w.calling t = some m
  hand : ∀ m t, w.sched.owner m = some t → w.inside m t = true ∨
    (w.calling t = some m ∧ t ∉ w.sched.waiting (.mutex m) ∧ (w.granted m).getLast? = some t)
  order : ∀ m, w.joined m = w.granted m ++ w.sched.waiting (.mutex m)

section Kept

variable {w : Watched} {σ' : Sched} {e : SchedOp} {t m c : ℕ}

theorem setInside_self (w : Watched) (m t : ℕ) (b : Bool) (u : ℕ) :
    (w.setInside m t b).inside m u = if u = t then b else w.inside m u := by
  simp only [setInside, update_self, update_apply]

theorem Kept.calling_none (h : Kept w) (hrun : w.sched.running c = some t) :
    w.calling t = none := by
  cases hc : w.calling t with
  | none => rfl
  | some m => exact absurd hrun (h.away t m c hc)

/-- What the record says of one mutex. -/
structure OnMutex (w : Watched) (m : ℕ) : Prop where
  own : ∀ t, w.inside m t = true → w.sched.owner m = some t
  call : ∀ t, w.calling t = some m → t ∈ w.sched.waiting (.mutex m) ∨ w.sched.owner m = some t
  wait : ∀ t, t ∈ w.sched.waiting (.mutex m) → w.calling t = some m
  hand : ∀ t, w.sched.owner m = some t → w.inside m t = true ∨
    (w.calling t = some m ∧ t ∉ w.sched.waiting (.mutex m) ∧ (w.granted m).getLast? = some t)
  order : w.joined m = w.granted m ++ w.sched.waiting (.mutex m)

theorem Kept.on (h : Kept w) (m : ℕ) : w.OnMutex m :=
  ⟨h.own m, fun t => h.call t m, fun t => h.wait t m, h.hand m, h.order m⟩

theorem OnMutex.kept (h : ∀ m, w.OnMutex m) (hsane : w.sched.Sane none)
    (haway : ∀ t m c, w.calling t = some m → w.sched.running c ≠ some t) : Kept w :=
  ⟨hsane, fun m => (h m).own, haway, fun t m => (h m).call t, fun t m => (h m).wait t,
    fun m => (h m).hand, fun m => (h m).order⟩

theorem OnMutex.frame {w' : Watched} (h : w.OnMutex m)
    (hmutex : w'.sched.mutexOf m = w.sched.mutexOf m) (hins : w'.inside m = w.inside m)
    (hcall : ∀ t, w'.calling t = some m ↔ w.calling t = some m) (hjoined : w'.joined m = w.joined m)
    (hgranted : w'.granted m = w.granted m) : w'.OnMutex m := by
  obtain ⟨hown, hli⟩ := Prod.ext_iff.mp hmutex
  dsimp only [mutexOf] at hown hli
  constructor <;> simp only [hown, hli, hins, hcall, hjoined, hgranted]
  exacts [h.own, h.call, h.wait, h.hand, h.order]

section

variable (h : Kept w) (hsane : σ'.Sane none) (hmutex : ∀ m, σ'.mutexOf m = w.sched.mutexOf m)
include h hsane hmutex

/-- A step beside the mutexes after which nobody comes back from `lock`. -/
theorem Kept.frame (haway : ∀ t m c, w.calling t = some m → σ'.running c ≠ some t) :
    Kept { w with sched := σ' } :=
  OnMutex.kept (fun m => (h.on m).frame (hmutex m) rfl (fun _ => Iff.rfl) rfl rfl) hsane haway

/-- A task comes back from `lock`: it does not wait any more, so it is the owner. -/
theorem Kept.back (hcall₀ : w.calling t = some m) (hrun : σ'.running c = some t)
    (haway : ∀ u k c', w.calling u = some k → σ'.running c' = some u → u = t) :
    Kept { w.setInside m t true with
      calling := update w.calling t none, sched := σ' } := by
  have howner : σ'.owner m = w.sched.owner m := congrArg Prod.fst (hmutex m)
  have hli : σ'.waiting (.mutex m) = w.sched.waiting (.mutex m) := congrArg Prod.snd (hmutex m)
  obtain ⟨x, hx, hstate⟩ := hsane.running hrun
  have hawk := (hsane.fits t).not_waits (mark_of_tasks hx) (state_ne hstate nofun)
  -- whoever runs again inside `lock` has been made the owner
  have hown : w.sched.owner m = some t :=
    (h.call t m hcall₀).resolve_left (hli ▸ hawk (.mutex m))
  have hcalls : ∀ u k, update w.calling t none u = some k → u ≠ t ∧ w.calling u = some k := by
    intro u k hcall
    by_cases hu : u = t
    · rw [hu, update_self] at hcall
      cases hcall
    · rw [update_of_ne hu] at hcall
      exact ⟨hu, hcall⟩
  refine OnMutex.kept (fun k => ?_) hsane fun u k c' hcall hrun' => ?_
  swap
  · obtain ⟨hne, hcall⟩ := hcalls u k hcall
    exact hne (haway u k c' hcall hrun')
  by_cases hk : k = m
  swap
  · refine (h.on k).frame (hmutex k) (update_of_ne hk _ _)
      (fun u => ⟨fun hcall => (hcalls u k hcall).2,
        fun hcall => (update_of_ne ?_ _ _).trans hcall⟩) rfl rfl
    rintro rfl
    exact hk (mem_unique hcall hcall₀)
  subst hk
  refine ⟨fun u hin => ?_, fun u hcall => ?_, fun u hmem => ?_, fun u how => ?_, ?_⟩
  · rw [setInside_self] at hin
    split at hin
    · rename_i heq
      rw [heq]
      exact howner.trans hown
    · exact howner.trans (h.own k u hin)
  · rw [hli, howner]
    exact h.call u k (hcalls u k hcall).2
  · have hne : u ≠ t := by
      rintro rfl
      exact hawk _ hmem
    exact (update_of_ne hne _ _).trans (h.wait u k (hli ▸ hmem))
  · obtain rfl := mem_unique hown (howner.symm.trans how)
    exact .inl ((setInside_self w k t true t).trans (if_pos rfl))
  · rw [hli]
    exact h.order k

theorem Kept.other (hcpus : ∀ c, cpuOf e ≠ some c → σ'.running c = w.sched.running c) :
    Kept { w.comeBack ((cpuOf e).bind σ'.running) with sched := σ' } := by
  -- who runs now and did not before runs on the processor of the step
  have hback : ∀ u k c, w.calling u = some k → σ'.running c = some u →
      (cpuOf e).bind σ'.running = some u := by
    intro u k c hcall hrun
    by_cases hc : cpuOf e = some c
    · rw [hc, bind_some, hrun]
    · exact absurd ((hcpus c hc).symm.trans hrun) (h.away u k c hcall)
  cases hnow : (cpuOf e).bind σ'.running with
  | none =>
    refine h.frame hsane hmutex fun u k c hcall hrun => ?_
    cases hnow.symm.trans (hback u k c hcall hrun)
  | some t =>
    obtain ⟨c, -, hrun⟩ := bind_eq_some_iff.mp hnow
    cases hcall : w.calling t with
    | none =>
      have hsame : w.comeBack (some t) = w := by
        rw [Watched.comeBack, hcall]
      rw [hsame]
      refine h.frame hsane hmutex fun u k c' hcall' hrun' => ?_
      rw [← Option.some.inj (hnow.symm.trans (hback u k c' hcall' hrun')), hcall] at hcall'
      cases hcall'
    | some m =>
      have hgone : w.comeBack (some t) = { w.setInside m t true with
          calling := update w.calling t none } := by
        rw [Watched.comeBack, hcall]
      rw [hgone]
      exact h.back hsane hmutex hcall hrun fun u k c' hcall' hrun' =>
        (Option.some.inj (hnow.symm.trans (hback u k c' hcall' hrun'))).symm

end

/-- A free mutex is taken on the spot. -/
theorem Kept.lockFree (h : Kept w) (hfree : w.sched.owner m = none)
    (hsane : (w.sched.setOwner m (some t)).Sane none) :
    Kept { w.setInside m t true with sched := w.sched.setOwner m (some t) } := by
  refine OnMutex.kept (fun k => ?_) hsane h.away
  by_cases hk : k = m
  swap
  · exact (h.on k).frame (Prod.ext (update_of_ne hk _ _) rfl) (update_of_ne hk _ _)
      (fun _ => Iff.rfl) rfl rfl
  subst hk
  have hown : (w.sched.setOwner k (some t)).owner k = some t := setOwner_self _ _ _
  -- nobody was inside a mutex without an owner
  have hno : ∀ {u}, w.sched.owner k ≠ some u := fun how => nomatch hfree.symm.trans how
  refine ⟨fun u hin => ?_, fun u hcall => ?_, fun u => h.wait u k, fun u how => .inl ?_, h.order k⟩
  · rw [setInside_self] at hin
    split at hin
    · rename_i heq
      rw [hown, heq]
    · exact absurd (h.own k u hin) hno
  · exact .inl ((h.call u k hcall).resolve_right hno)
  · obtain rfl := mem_unique hown how
    exact (setInside_self w k t true t).trans (if_pos rfl)

/-- Behind an owner a task parks, as the last of the list. -/
theorem Kept.lockPark (h : Kept w) (hrun : w.sched.running c = some t)
    (hsane : (w.sched.parkOn c t (.mutex m)).Sane none) :
    Kept { w with
      calling := update w.calling t (some m)
      joined := update w.joined m (w.joined m ++ [t])
      sched := w.sched.parkOn c t (.mutex m) } := by
  have hcall := h.calling_none hrun
  -- the list, the processors and the calls, after the task has parked
  have hmem : ∀ u k, u ∈ (w.sched.parkOn c t (.mutex m)).waiting (.mutex k) ↔
      u ∈ w.sched.waiting (.mutex k) ∨ k = m ∧ u = t := by
    intro u k
    refine mem_waiting_append.trans (or_congr_right (and_congr_left fun _ => ?_))
    exact ⟨Place.mutex.inj, congrArg _⟩
  have hstay : ∀ c', (w.sched.parkOn c t (.mutex m)).running c' = none ∨
      c' ≠ c ∧ (w.sched.parkOn c t (.mutex m)).running c' = w.sched.running c' := by
    intro c'
    by_cases hc : c' = c
    · left
      rw [hc, running, parkOn, setCpu_self, if_neg Phase.noConfusion]
    right
    refine ⟨hc, ?_⟩
    rw [running, parkOn, setCpu_of_ne hc]
    rfl
  have hcalls : ∀ u k, update w.calling t (some m) u = some k ↔
      w.calling u = some k ∨ k = m ∧ u = t := by
    intro u k
    by_cases hu : u = t
    · simp [hu, hcall, eq_comm]
    · simp [hu]
  refine OnMutex.kept (fun k => ?_) hsane fun u k c' hcall' hrun' => ?_
  swap
  · rcases hstay c' with hno | ⟨hc, hsame⟩
    · cases hno.symm.trans hrun'
    rw [hsame] at hrun'
    rcases (hcalls u k).mp hcall' with hcall' | ⟨-, rfl⟩
    · exact h.away u k c' hcall' hrun'
    · exact hc ((h.sane.fits u).near_unique (Sched.Near.of_running hrun')
        (Sched.Near.of_running hrun))
  by_cases hk : k = m
  swap
  · -- the other mutexes see nothing of it
    refine (h.on k).frame (Prod.ext rfl ?_) rfl (fun u => ?_) (update_of_ne hk _ _) rfl
    · exact setWaiting_of_ne fun heq => hk (Place.mutex.inj heq)
    · exact (hcalls u k).trans (or_iff_left fun hc => hk hc.1)
  subst hk
  refine ⟨h.own k, fun u hcall' => ?_, fun u hu => ?_, fun u how => ?_, ?_⟩
  · rw [hmem]
    rcases (hcalls u k).mp hcall' with hcall' | heq
    · exact (h.call u k hcall').imp_left .inl
    · exact .inl (.inr heq)
  · exact (hcalls u k).mpr (((hmem u k).mp hu).imp_left (h.wait u k))
  · refine (h.hand k u how).imp_right fun hh => ⟨(hcalls u k).mpr (.inl hh.1), ?_, hh.2.2⟩
    rw [hmem]
    rintro (hu | ⟨-, rfl⟩)
    · exact hh.2.1 hu
    · cases hcall.symm.trans hh.1
  · -- whoever joins comes last
    have hli : (w.sched.parkOn c t (.mutex k)).waiting (.mutex k) =
        w.sched.waiting (.mutex k) ++ [t] := setWaiting_self _ _ _
    rw [hli, ← append_assoc, ← h.order k]
    exact update_self _ _ _

/-- The owner lets go: nobody owns the mutex, or the first that waits. -/
theorem Kept.unlock (h : Kept w) (hrun : w.sched.running c = some t)
    (hown : w.sched.owner m = some t) (hsane : σ'.Sane none)
    (hrunning : ∀ c', σ'.running c' = w.sched.running c')
    (hots : ∀ k, k ≠ m → σ'.mutexOf k = w.sched.mutexOf k)
    (hmutex : σ'.mutexOf m = ((w.sched.waiting (.mutex m)).head?,
      (w.sched.waiting (.mutex m)).tail)) :
    Kept { w.setInside m t false with
      granted := update w.granted m
        (w.granted m ++ (w.sched.waiting (.mutex m)).head?.toList)
      sched := σ' } := by
  have hcall := h.calling_none hrun
  have hown' : σ'.owner m = (w.sched.waiting (.mutex m)).head? := congrArg Prod.fst hmutex
  have hli' : σ'.waiting (.mutex m) = (w.sched.waiting (.mutex m)).tail := congrArg Prod.snd hmutex
  refine OnMutex.kept (fun k => ?_) hsane fun u k c' hcall' hrun' =>
    h.away u k c' hcall' ((hrunning c').symm.trans hrun')
  by_cases hk : k = m
  swap
  · exact (h.on k).frame (hots k hk) (update_of_ne hk _ _) (fun _ => Iff.rfl) rfl
      (update_of_ne hk _ _)
  subst hk
  refine ⟨fun u hin => ?_, fun u hcall' => ?_, fun u hu => ?_, fun u how => ?_, ?_⟩
  · rw [setInside_self] at hin
    split at hin
    · cases hin
    · -- only the owner was inside
      rename_i hne
      exact absurd (mem_unique (h.own k u hin) hown) hne
  · rw [hli', hown']
    rcases h.call u k hcall' with hmem | how
    · cases hw : w.sched.waiting (.mutex k) with
      | nil =>
        rw [hw] at hmem
        cases hmem
      | cons next rest =>
        rw [hw] at hmem
        rcases mem_cons.mp hmem with rfl | hrest
        · exact .inr rfl
        · exact .inl hrest
    · obtain rfl := mem_unique hown how
      cases hcall.symm.trans hcall'
  · rw [hli'] at hu
    exact h.wait u k (mem_of_mem_tail hu)
  · rw [hown'] at how
    obtain ⟨rest, hw⟩ := head?_eq_some_iff.mp how
    have hnodup := h.sane.waitOnce (.mutex k)
    rw [hw] at hnodup
    refine .inr ⟨h.wait u k (hw ▸ mem_cons_self), ?_, ?_⟩
    · rw [hli', hw]
      exact (nodup_cons.mp hnodup).1
    · dsimp only
      rw [update_self, how, toList_some, getLast?_concat]
  · dsimp only
    rw [hli', update_self, append_assoc]
    refine (h.order k).trans (congrArg _ ?_)
    cases w.sched.waiting (.mutex k) with
    | nil => rfl
    | cons next rest => rfl

end Kept

/-! ### Runs -/

section Steps

variable {w w' : Watched} {e : SchedOp} {o : Option ℕ}

/-- Nobody comes back who was not inside `lock`. -/
theorem comeBack_of_calling (h : ∀ t, o = some t → w.calling t = none) : w.comeBack o = w := by
  cases o with
  | none => rfl
  | some t => rw [comeBack, h t rfl]

/-- **Every step keeps the record right.** -/
theorem Kept.step (h : Kept w) (hstep : w.step e = some w') : Kept w' := by
  obtain ⟨σ', hσ, rfl⟩ := map_eq_some_iff.mp hstep
  have hsane := h.sane.step hσ
  have hcpus : ∀ c, cpuOf e ≠ some c → σ'.running c = w.sched.running c :=
    fun c hc => by rw [Sched.running, step_cpus hc hσ, Sched.running]
  by_cases hlock : ∃ c m, e = .lock c m
  · obtain ⟨c, m, rfl⟩ := hlock
    obtain ⟨t, hrun, ⟨hfree, rfl⟩ | ⟨howned, rfl⟩⟩ := step_lock hσ
    · have hnote : w.note (.lock c m) = w.setInside m t true := by
        simp only [note, hrun, if_pos hfree]
      have hsame : (w.setInside m t true).comeBack
          ((cpuOf (.lock c m)).bind (w.sched.setOwner m (some t)).running) =
          w.setInside m t true := by
        refine comeBack_of_calling fun u hu => ?_
        have hrun' : w.sched.running c = some u := hu
        have hno := h.calling_none hrun'
        exact hno
      rw [hnote, hsame]
      exact h.lockFree hfree hsane
    · have hnote : w.note (.lock c m) = { w with
          calling := update w.calling t (some m)
          joined := update w.joined m (w.joined m ++ [t]) } := by
        simp only [note, hrun, if_neg howned]
      have hgone : (w.sched.parkOn c t (.mutex m)).running c = none := by
        rw [running, parkOn, setCpu_self, if_neg Phase.noConfusion]
      rw [hnote, show (cpuOf (.lock c m)).bind (w.sched.parkOn c t (.mutex m)).running = none
        from hgone]
      exact h.lockPark hrun hsane
  by_cases hunlock : ∃ c m, e = .unlock c m
  · obtain ⟨c, m, rfl⟩ := hunlock
    have hots : ∀ k, k ≠ m → σ'.mutexOf k = w.sched.mutexOf k := by
      intro k hk
      rcases step_mutex hσ with hsame | ⟨c', hc⟩ | ⟨c', hc⟩
      · exact hsame
      · cases hc
      · exact absurd (SchedOp.unlock.inj hc).2.symm hk
    obtain ⟨t, hrun, hown, hleft⟩ := step_unlock hσ
    have hnote : w.note (.unlock c m) = { w.setInside m t false with
        granted := update w.granted m
          (w.granted m ++ (w.sched.waiting (.mutex m)).head?.toList) } := by
      simp only [note, hrun]
    have hlives : σ'.cpus = w.sched.cpus ∧ σ'.mutexOf m =
        ((w.sched.waiting (.mutex m)).head?, (w.sched.waiting (.mutex m)).tail) := by
      rcases hleft with ⟨hempty, rfl⟩ | ⟨next, rest, hwait, rfl⟩
      · refine ⟨rfl, ?_⟩
        rw [hempty]
        exact Prod.ext (setOwner_self _ _ _) hempty
      refine ⟨cpus_takeOff, Prod.ext ?_ ?_⟩
      · have howner : ((w.sched.setOwner m (some next)).takeOff (.mutex m) next).owner =
            (w.sched.setOwner m (some next)).owner := (aside_unblock).owner
        rw [hwait]
        exact (congrFun howner m).trans (setOwner_self _ _ _)
      · have hli := congrFun
          (takeOff_waiting (w.sched.setOwner m (some next)) (.mutex m) next) (.mutex m)
        refine hli.trans ((setWaiting_self _ _ _).trans ?_)
        show (w.sched.waiting (.mutex m)).erase next = _
        rw [hwait, erase_cons_head, tail_cons]
    have hrunning : ∀ c', σ'.running c' = w.sched.running c' := by
      intro c'
      rw [running, hlives.1, running]
    have hsame : (w.note (.unlock c m)).comeBack ((cpuOf (.unlock c m)).bind σ'.running) =
        w.note (.unlock c m) := by
      refine comeBack_of_calling fun u hu => ?_
      have hno := h.calling_none ((hrunning c).symm.trans hu)
      rw [hnote]
      exact hno
    rw [hsame, hnote]
    exact h.unlock hrun hown hsane hrunning hots hlives.2
  · -- the step is beside the mutexes
    have hnote : w.note e = w := by
      cases e with
      | lock c m => exact absurd ⟨c, m, rfl⟩ hlock
      | unlock c m => exact absurd ⟨c, m, rfl⟩ hunlock
      | _ => rfl
    rw [hnote]
    refine h.other hsane (fun m => ?_) hcpus
    rcases step_mutex (m := m) hσ with hsame | ⟨c, rfl⟩ | ⟨c, rfl⟩
    · exact hsame
    · exact absurd ⟨c, m, rfl⟩ hlock
    · exact absurd ⟨c, m, rfl⟩ hunlock

end Steps

theorem kept_boot (classes : List SchedClass) (count : ℕ → ℤ) (completion : ℕ → CompletionState) :
    Kept { sched := boot classes count completion } := by
  refine ⟨sane_boot classes count completion, fun m t h => ?_, fun t m c h => ?_,
    fun t m h => ?_, fun t m h => ?_, fun m t h => ?_, fun m => rfl⟩
  · cases h
  · cases h
  · cases h
  · cases h
  · cases h

/-- **A mutex is held by one task at a time and granted in the order of its waiting list.**
In every state of every run: at most one task is past `lock` and before `unlock`; it is the
owner; an owner is that task, or the one `unlock` has handed the mutex to last, which has not
run since; and those that were handed the mutex and those that still wait, in this order, are
those that joined the waiting list. -/
theorem mutex_exclusive_fifo (classes : List SchedClass) (count : ℕ → ℤ)
    (completion : ℕ → CompletionState) (es : List SchedOp) {w : Watched}
    (hrun : run step { sched := boot classes count completion } es = some w) (m : ℕ) :
    (∀ t u, w.inside m t = true → w.inside m u = true → t = u) ∧
    (∀ t, w.inside m t = true → w.sched.owner m = some t) ∧
    (∀ t, w.sched.owner m = some t → w.inside m t = true ∨
      (w.calling t = some m ∧ t ∉ w.sched.waiting (.mutex m) ∧ (w.granted m).getLast? = some t)) ∧
    w.joined m = w.granted m ++ w.sched.waiting (.mutex m) := by
  have h : Kept w := run_stays (fun _ _ _ h hs => Kept.step h hs) es
    (kept_boot classes count completion) hrun
  refine ⟨fun t u ht hu => ?_, h.own m, h.hand m, h.order m⟩
  exact Option.some.inj ((h.own m t ht).symm.trans (h.own m u hu))

/-- Two tasks, one behind the other: the mutex is on its way to the second. -/
theorem mutex_exclusive_fifo_handed :
    ∃ w, run step { sched := bootFifo } (contendedRun ++ [.unlock 0 0]) = some w ∧
      w.sched.owner 0 = some 1 ∧ w.inside 0 1 = false ∧ w.granted 0 = [1] ∧
      (∀ t u, w.inside 0 t = true → w.inside 0 u = true → t = u) ∧
      w.joined 0 = w.granted 0 ++ w.sched.waiting (.mutex 0) := by
  obtain ⟨w, hrun, hown, hin, hgrant⟩ :
      ∃ w, run step { sched := bootFifo } (contendedRun ++ [.unlock 0 0]) = some w ∧
        w.sched.owner 0 = some 1 ∧ w.inside 0 1 = false ∧ w.granted 0 = [1] := by decide +kernel
  have hboot : run step { sched := boot [.fifo] (fun _ => 0) fun _ => .pending }
      (contendedRun ++ [.unlock 0 0]) = some w := hrun
  obtain ⟨hone, -, -, horder⟩ := mutex_exclusive_fifo _ _ _ _ hboot 0
  exact ⟨w, hrun, hown, hin, hgrant, hone, horder⟩

end Watched

end Cinux
