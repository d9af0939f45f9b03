/-
An edge-triggered watch of an eventfd (`kernel/syscall/sys_epoll.cpp`, `sys_eventfd.cpp`).

Writes, reads and scans are taken apart at every atomic operation on the counter and at every
step under the gate of the registry, and tasks take turns in any order.  A scan reads the
sequence number before the value, and the watch keeps the number of the last claim.

* `World`, `step` — the counter, the watch, and how far every task is;
* `Kept` — where the watch is not pending, a scan with its number reported it or is about to;
* `edge_not_lost` — what a scan does that finds the counter full.
-/
import Cinux.Runs

namespace Cinux.Epoll

open Function Runs

def kCounterMax : ℕ := 2 ^ 64 - 2

/-- How far a task is.  A write or a read has loaded the value; a scan knows how many writes were
complete when it started and when it read the sequence number, and the number. -/
inductive Stage where
  | idle
  | writing (added seen : ℕ)
  | stored
  | reading (seen : ℕ)
  | started (born : ℕ)
  | sequenced (born sequence read : ℕ)
  | ready (born sequence read : ℕ)
  | claimed (read : ℕ)
  deriving DecidableEq

/-- The counter and the watch.  No step reads `writes`, the writes that are complete, and
`reported`, which has for every report how many were when its scan read the number. -/
structure World where
  value : ℕ
  semaphore : Bool
  writeSequence : ℕ
  watchSequence : ℕ := 0
  edgePending : Bool := true
  stage : ℕ → Stage := fun _ => .idle
  writes : ℕ
  reported : List ℕ := []

/-- A call begins, or goes on by one step.  The choice is whether an exchange fails for no reason,
whether a scan ends before it comes to the watch, and whether the event reaches the caller. -/
inductive Act where
  | write (added : ℕ)
  | read
  | scan
  | next (choice : Bool)

/-- What a task does to the counter and the watch, and where it is then. -/
def act (w : World) : Act → Stage → Option (World × Stage)
  -- write_counter
  | .write added, .idle => if added ≤ kCounterMax then some (w, .writing added w.value) else none
  | .next weak, .writing added seen =>
    if kCounterMax - seen < added then some (w, .idle)
    else if w.value = seen ∧ !weak then some ({ w with value := seen + added }, .stored)
    else some (w, .writing added w.value)
  | .next _, .stored =>
    let sequence := (w.writeSequence + 1) % 2 ^ 64
    some ({ w with writeSequence := sequence, writes := w.writes + 1 }, .idle)
  -- read_counter
  | .read, .idle => some (w, .reading w.value)
  | .next weak, .reading seen =>
    if seen = 0 then some (w, .idle)
    else if w.value = seen ∧ !weak then
      some ({ w with value := seen - if w.semaphore then 1 else seen }, .idle)
    else some (w, .reading w.value)
  -- scan_events, PollEventCounter
  | .scan, .idle => some (w, .started w.writes)
  | .next leaves, .started born =>
    some (w, if leaves then .idle else .sequenced born w.writeSequence w.writes)
  | .next _, .sequenced born sequence read =>
    some (w, if w.value = 0 then .idle else .ready born sequence read)
  -- claim
  | .next _, .ready _ sequence read =>
    if !w.edgePending ∧ w.watchSequence = sequence then some (w, .idle)
    else some ({ w with watchSequence := sequence, edgePending := false }, .claimed read)
  -- the event is copied, or retry
  | .next arrives, .claimed read =>
    if arrives then some ({ w with reported := read :: w.reported }, .idle)
    else some ({ w with edgePending := true }, .idle)
  | _, _ => none

/-- One step of one task. -/
def step (w : World) (e : ℕ × Act) : Option World :=
  (act w e.2 (w.stage e.1)).map fun r => { r.1 with stage := update r.1.stage e.1 r.2 }

/-- A watch that has just been added, before any call. -/
structure Fresh (w : World) : Prop where
  pending : w.edgePending = true
  sequence : w.writeSequence = w.writes % 2 ^ 64
  still : ∀ t, w.stage t = .idle

/-- What a scan knows is so. -/
def Fits (writes : ℕ) : Stage → Prop
  | .started born => born ≤ writes
  | .sequenced born sequence read | .ready born sequence read =>
    born ≤ read ∧ read ≤ writes ∧ sequence = read % 2 ^ 64
  | .claimed read => read ≤ writes
  | _ => True

/-- A scan that read the number after `k` writes has reported the watch, or is about to. -/
def Answered (w : World) (k : ℕ) : Prop := k ∈ w.reported ∨ ∃ t, w.stage t = .claimed k

/-- What holds between the counter, the watch and the stages of all tasks. -/
structure Kept (w : World) : Prop where
  sequence : w.writeSequence = w.writes % 2 ^ 64
  fits : ∀ t, Fits w.writes (w.stage t)
  answered : w.edgePending = false →
    ∃ k ≤ w.writes, w.watchSequence = k % 2 ^ 64 ∧ Answered w k

variable {w w' v : World} {t : ℕ} {x : Stage}

theorem Fits.mono {n m : ℕ} (hle : n ≤ m) (h : Fits n x) : Fits m x := by
  cases x <;> simp only [Fits] at h ⊢ <;> omega

/-- What every call keeps to: the number goes with the writes, a scan knows what is so, and a claim
is given up for a report or for another try. -/
structure Moves (w : World) (t : ℕ) (v : World) (x : Stage) : Prop where
  stage : v.stage = w.stage
  sequence : v.writeSequence = v.writes % 2 ^ 64
  writes : w.writes ≤ v.writes
  fits : Fits v.writes x
  watch : v.edgePending = false → (∃ k, x = .claimed k ∧ v.watchSequence = k % 2 ^ 64) ∨
    w.edgePending = false ∧ v.watchSequence = w.watchSequence ∧
      (∀ k ∈ w.reported, k ∈ v.reported) ∧ ∀ k, w.stage t = .claimed k → k ∈ v.reported

theorem act_moves (h : Kept w) {a : Act} (ha : act w a (w.stage t) = some (v, x)) :
    Moves w t v x := by
  have hfit := h.fits t
  have hseq := h.sequence
  -- a task that holds no claim goes on, and the watch stays
  have aside : ∀ {value x}, (∀ k, w.stage t ≠ .claimed k) → Fits w.writes x →
      Moves w t { w with value := value } x := fun hno hx =>
    ⟨rfl, hseq, Nat.le_refl _, hx, fun hp => .inr ⟨hp, rfl, fun _ hk => hk,
      fun k hk => absurd hk (hno k)⟩⟩
  unfold act at ha
  split at ha
  case h_11 => cases ha
  all_goals rename_i hstate; rw [hstate] at hfit
  case h_1 =>
    obtain ⟨-, ⟨⟩⟩ := Option.ite_none_right_eq_some.mp ha
    exact aside (by simp [hstate]) trivial
  case h_2 | h_5 =>
    split at ha
    · obtain ⟨⟩ := ha
      exact aside (by simp [hstate]) trivial
    · split at ha <;> obtain ⟨⟩ := ha <;> exact aside (by simp [hstate]) trivial
  case h_9 =>
    split at ha <;> obtain ⟨⟩ := ha
    · exact aside (by simp [hstate]) trivial
    · exact ⟨rfl, hseq, Nat.le_refl _, hfit.2.1, fun _ => .inl ⟨_, rfl, hfit.2.2⟩⟩
  case h_10 =>
    split at ha <;> obtain ⟨⟩ := ha
    · refine ⟨rfl, hseq, Nat.le_refl _, trivial, fun hp => .inr ⟨hp, rfl, ?_, fun k hk => ?_⟩⟩
      · exact fun _ => List.mem_cons_of_mem _
      · rw [hstate] at hk
        exact Stage.claimed.inj hk ▸ List.mem_cons_self
    · exact ⟨rfl, hseq, Nat.le_refl _, trivial, nofun⟩
  all_goals obtain ⟨⟩ := ha
  · refine ⟨rfl, ?_, Nat.le_succ _, trivial, fun hp => .inr ⟨hp, rfl, by simp [hstate]⟩⟩
    dsimp only
    omega
  · exact aside (by simp [hstate]) trivial
  · exact aside (by simp [hstate]) (Nat.le_refl _)
  · refine aside (by simp [hstate]) ?_
    split
    · trivial
    · exact ⟨hfit, Nat.le_refl _, hseq⟩
  · refine aside (by simp [hstate]) ?_
    split
    · trivial
    · exact hfit

theorem Kept.step {e : ℕ × Act} (h : Kept w) (hs : step w e = some w') : Kept w' := by
  obtain ⟨t, a⟩ := e
  obtain ⟨⟨v, x⟩, ha, rfl⟩ := Option.map_eq_some_iff.mp hs
  have hm := act_moves h ha
  refine ⟨hm.sequence, fun u => ?_, fun hp => ?_⟩
  · show Fits v.writes (update v.stage t x u)
    by_cases hu : u = t
    · rw [hu, update_self]
      exact hm.fits
    · rw [update_of_ne hu, hm.stage]
      exact (h.fits u).mono hm.writes
  · obtain ⟨k, rfl, hnum⟩ | ⟨hold, hnum, hrep, hgone⟩ := hm.watch hp
    · exact ⟨k, hm.fits, hnum, .inr ⟨t, update_self ..⟩⟩
    obtain ⟨k, hk, hlast, hans⟩ := h.answered hold
    refine ⟨k, Nat.le_trans hk hm.writes, hnum.trans hlast, ?_⟩
    obtain hk | ⟨u, hu⟩ := hans
    · exact .inl (hrep k hk)
    -- the claim is given up now, or still held
    by_cases hut : u = t
    · exact .inl (hgone k (hut ▸ hu))
    · refine .inr ⟨u, (update_of_ne hut ..).trans ?_⟩
      rw [hm.stage]
      exact hu

/-- **No event is lost.**  A scan that started after `born` writes and found the counter full claims
the watch, unless a scan that read the number after all of them has reported it or is about to. -/
theorem edge_not_lost {start : World} (hstart : Fresh start) (es : List (ℕ × Act))
    (hrun : run step start es = some w) (hfew : w.writes < 2 ^ 64) {born sequence read : ℕ}
    (hready : w.stage t = .ready born sequence read) (choice : Bool) :
    (∃ v, step w (t, .next choice) = some v ∧ v.stage t = .claimed read) ∨
      ∃ k, born ≤ k ∧ Answered w k := by
  have h : Kept w := by
    refine run_stays (fun _ _ _ h hs => Kept.step h hs) es ⟨hstart.sequence, fun t => ?_, ?_⟩ hrun
    · rw [hstart.still]
      trivial
    · rw [hstart.pending]
      nofun
  obtain ⟨hborn, hread, hnum⟩ : born ≤ read ∧ read ≤ w.writes ∧ sequence = read % 2 ^ 64 := by
    have := h.fits t
    rwa [hready] at this
  by_cases hno : (!w.edgePending) = true ∧ w.watchSequence = sequence
  · obtain ⟨k, hk, hlast, hans⟩ := h.answered (by simpa using hno.1)
    -- fewer writes than numbers: the same number is the same count
    obtain rfl : k = read := by omega
    exact .inr ⟨k, hborn, hans⟩
  refine .inl ⟨{ w with
    watchSequence := sequence
    edgePending := false
    stage := update w.stage t (.claimed read) }, ?_, update_self ..⟩
  rw [step, hready, act, if_neg hno]
  rfl

/-- A fresh counter and watch. -/
def quiet : World := { value := 0, semaphore := false, writeSequence := 0, writes := 0 }

/-- Task 0 writes one to the counter. -/
def wrote : List (ℕ × Act) := [(0, .write 1), (0, .next false), (0, .next false)]

/-- A task scans the watch, to the end. -/
def polls (t : ℕ) : List (ℕ × Act) := [(t, .scan), (t, .next false), (t, .next false)]

/-- Task 1 holds the claim when task 2, whose scan started after the write, comes for it: task 2
does not report, and then the copy of task 1 fails. -/
theorem refused_before_report :
    ∃ w, run step quiet (wrote ++ polls 1 ++ (1, .next true) :: polls 2) = some w ∧
      w.stage 2 = .ready 1 1 1 ∧ w.value = 1 ∧
      ∃ v, step w (2, .next true) = some v ∧ v.stage 2 = .idle ∧
        ∃ u, step v (1, .next false) = some u ∧ u.reported = [] := by
  decide

/-- A scan after the first write has the claim, or the write is answered. -/
theorem edge_not_lost_first : ∃ w, run step quiet (wrote ++ polls 1) = some w ∧
    ((∃ v, step w (1, .next true) = some v ∧ v.stage 1 = .claimed 1) ∨
      ∃ k, 1 ≤ k ∧ Answered w k) := by
  obtain ⟨w, hrun, hready, hfew⟩ : ∃ w, run step quiet (wrote ++ polls 1) = some w ∧
      w.stage 1 = .ready 1 1 1 ∧ w.writes < 2 ^ 64 := by decide
  exact ⟨w, hrun, edge_not_lost ⟨rfl, rfl, fun _ => rfl⟩ _ hrun hfew hready true⟩

end Cinux.Epoll
