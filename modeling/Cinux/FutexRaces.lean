/-
The word and the wait (`WaitOnUserWord`, `ParkOnWord` in `kernel/proc/futex.cpp`).

A task that waits on a word copies the word first and takes the gate of the table second; what
it compares under the gate is the copy.  The other threads of the space store to the word and
wake it whenever they like.

* `Words.step` — the scheduler, the words, and the two halves of a wait;
* `Settled` — no word changes while a task has copied it and has not come to the gate;
* `no_sleep_on_changed_word` — along settled runs nobody sleeps through a change and a wake;
* `sleeps_on_changed_word` — a run that is not settled.
-/
import Cinux.Futex
import Cinux.SchedSame

namespace Cinux

open Sched Function Runs Option

/-! ### Words -/

/-- A wait between its two halves: the address, the word as it was copied, and the value that
the caller expects there. -/
structure Wait where
  uaddr : ℕ
  present : ℕ
  expected : ℕ

/-- The scheduler and the words of all address spaces.  Kept for the development alone are the
value that a task went to sleep on, and whether a word has changed since everybody on it was
woken. -/
structure Words where
  sched : Sched
  word : Option ℕ → ℕ → ℕ
  waits : ℕ → Option Wait := fun _ => none
  expects : ℕ → ℕ := fun _ => 0
  owed : Option ℕ → ℕ → Bool := fun _ _ => false

/-- The scheduler's steps, a wake, and the parts of a wait and of a store. -/
inductive WordOp
  | sched (e : SchedOp)
  | wake (uaddr count : ℕ)
  | copy (c uaddr expected : ℕ)
  | gate (c : ℕ)
  | store (c uaddr value : ℕ)

namespace Words

/-- One step.  Only a task that is not in the middle of a wait begins one, or stores. -/
def step (w : Words) : WordOp → Option Words
  | .sched (.parkOnWord _ _ _ _) | .sched (.wake _ _) => none
  | .sched e => (w.sched.step e).map fun σ => { w with sched := σ }
  | .wake uaddr count => some { w with
      sched := (w.sched.wakeUserWord uaddr count).1
      owed := if (w.sched.parkedOn uaddr).length ≤ count then
          fun s a => if a = uaddr then false else w.owed s a
        else w.owed }
  | .copy c uaddr expected => do
    let t ← w.sched.running c
    match w.waits t with
    | some _ => none
    | none =>
      let wait : Wait := ⟨uaddr, w.word (w.sched.spaceOf t) uaddr, expected⟩
      some { w with waits := update w.waits t (some wait) }
  | .gate c => do
    let t ← w.sched.running c
    let wait ← w.waits t
    let σ ← w.sched.step (.parkOnWord c wait.uaddr wait.present wait.expected)
    some { w with
      sched := σ
      waits := update w.waits t none
      expects := update w.expects t wait.expected }
  | .store c uaddr value => do
    let t ← w.sched.running c
    match w.waits t with
    | some _ => none
    | none => some { w with
        word := fun s a => if s = w.sched.spaceOf t ∧ a = uaddr then value else w.word s a
        owed := fun s a => if s = w.sched.spaceOf t ∧ a = uaddr ∧ w.word s a ≠ value then true
          else w.owed s a }

/-- The space of the task that a processor runs. -/
def spaceAt (w : Words) (c : ℕ) : Option ℕ := (w.sched.running c).bind w.sched.spaceOf

/-- No word changes while a task of its space has copied it and has not come to the gate; and
whoever a wake takes off a word finds a place in its row. -/
def Settled (w : Words) : WordOp → Prop
  | .wake uaddr count => w.sched.Room (.wake uaddr count)
  | .store c uaddr value => w.word (w.spaceAt c) uaddr = value ∨
      ∀ t < w.sched.nextTask, ∀ wait ∈ w.waits t,
        ¬ (w.sched.spaceOf t = w.spaceAt c ∧ wait.uaddr = uaddr)
  | _ => True

instance (w : Words) : (e : WordOp) → Decidable (w.Settled e)
  | .sched _ => inferInstanceAs (Decidable True)
  | .wake uaddr count => inferInstanceAs (Decidable (w.sched.Room (.wake uaddr count)))
  | .store c uaddr value => inferInstanceAs (Decidable (w.word (w.spaceAt c) uaddr = value ∨
      ∀ t < w.sched.nextTask, ∀ wait ∈ w.waits t,
        ¬ (w.sched.spaceOf t = w.spaceAt c ∧ wait.uaddr = uaddr)))
  | .copy _ _ _ => inferInstanceAs (Decidable True)
  | .gate _ => inferInstanceAs (Decidable True)

end Words

/-! ### Who is parked on a word -/

namespace Sched

section Parked

variable {σ σ' : Sched} {e : SchedOp} {t u c : ℕ} {x : SchedTask}

theorem mem_parkedOn : t ∈ σ.parkedOn u ↔ t ∈ σ.waiting (bucketFor u) ∧ σ.uaddrOf t = some u := by
  rw [parkedOn, List.mem_filter, decide_eq_true_eq]

theorem seated_of_parkedOn (hsane : σ.Sane none) (h : t ∈ σ.parkedOn u) :
    ∃ x, σ.tasks t = some x ∧ x.state = .blocked := by
  obtain ⟨m, hm, hblock, -⟩ := (hsane.fits t).waits _ (mem_parkedOn.mp h).1
  obtain ⟨x, hx, rfl⟩ := map_eq_some_iff.mp hm
  exact ⟨x, hx, hblock⟩

theorem not_parkedOn_of_running (hsane : σ.Sane none) (hrun : σ.running c = some t) :
    t ∉ σ.parkedOn u := by
  intro h
  obtain ⟨x, hx, hblock⟩ := seated_of_parkedOn hsane h
  obtain ⟨y, hy, hrunning⟩ := hsane.running hrun
  rw [mem_unique hx hy, hrunning] at hblock
  cases hblock

theorem spaceOf_of_same (h : Same Traits.space σ σ') (hx : σ.tasks t = some x) :
    σ'.spaceOf t = σ.spaceOf t := by
  obtain ⟨y, hy, hspace⟩ := h t x hx
  rw [spaceOf, spaceOf, hx, hy]
  exact hspace

theorem uaddrOf_of_same (h : Same Traits.futexUaddr σ σ') (hx : σ.tasks t = some x) :
    σ'.uaddrOf t = σ.uaddrOf t := by
  obtain ⟨y, hy, hua⟩ := h t x hx
  rw [uaddrOf, uaddrOf, hx, hy]
  exact congrArg some hua

/-- Nobody comes to sleep on a word but through `ParkOnWord`. -/
theorem parkedOn_of_step (hsane : σ.Sane none)
    (hpark : ∀ c uaddr present expected, e ≠ .parkOnWord c uaddr present expected)
    (hwake : ∀ uaddr count, e ≠ .wake uaddr count) (h : σ.step e = some σ')
    (ht : t ∈ σ'.parkedOn u) : t ∈ σ.parkedOn u := by
  obtain ⟨hli, hua⟩ := mem_parkedOn.mp ht
  have hplace : placeOf e ≠ some (bucketFor u) := by
    cases e with
    | parkOnWord c uaddr present expected => exact absurd rfl (hpark c uaddr present expected)
    | wake uaddr count => exact absurd rfl (hwake uaddr count)
    | _ => exact fun heq => nomatch heq
  rw [step_lists hplace h] at hli
  obtain ⟨m, hm, -, -⟩ := (hsane.fits t).waits _ hli
  obtain ⟨x, hx, rfl⟩ := map_eq_some_iff.mp hm
  exact mem_parkedOn.mpr ⟨hli, (uaddrOf_of_same (step_uaddr hsane hpark h) hx).symm.trans hua⟩

/-- After a wake the tasks on the word that are left are those beyond the count. -/
theorem parkedOn_wakeUserWord (hsane : σ.Sane none) {uaddr count : ℕ}
    (ht : t ∈ (σ.wakeUserWord uaddr count).1.parkedOn u) :
    t ∈ σ.parkedOn u ∧ (u = uaddr → count < (σ.parkedOn uaddr).length) := by
  obtain ⟨hli, hua⟩ := mem_parkedOn.mp ht
  have hstep := step_wake σ uaddr count
  have hstay : t ∈ σ.waiting (bucketFor u) ∧ (u = uaddr → t ∉ σ.sleepers uaddr count) := by
    by_cases hb : bucketFor u = bucketFor uaddr
    · rw [wakeUserWord_eq] at hli
      simp only [hb] at hli
      rw [mem_waiting_foldl_takeOff (hsane.waitOnce _)] at hli
      exact ⟨hb ▸ hli.1, fun _ => hli.2⟩
    · rw [step_lists (e := .wake uaddr count) (fun heq => hb (some.inj heq).symm) hstep] at hli
      exact ⟨hli, fun heq => absurd (congrArg bucketFor heq) hb⟩
  obtain ⟨m, hm, -, -⟩ := (hsane.fits t).waits _ hstay.1
  obtain ⟨x, hx, rfl⟩ := map_eq_some_iff.mp hm
  have hsame := step_uaddr hsane (fun _ _ _ _ he => by cases he) hstep
  have hon : t ∈ σ.parkedOn u :=
    mem_parkedOn.mpr ⟨hstay.1, (uaddrOf_of_same hsame hx).symm.trans hua⟩
  refine ⟨hon, fun heq => ?_⟩
  subst heq
  by_contra hall
  refine hstay.2 rfl ?_
  rw [show σ.sleepers u count = (σ.parkedOn u).take count from rfl,
    List.take_of_length_le (by omega)]
  exact hon

end Parked

end Sched

/-! ### Runs -/

namespace Words

section Runs

variable {w w' : Words} {e : WordOp}

/-- What a task has copied is what the word holds; and who sleeps on a word sleeps on the
value it expected, or the word has changed and not everybody was woken since. -/
structure Steady (w : Words) : Prop where
  sane : w.sched.Sane none
  within : w.sched.Within
  copies : ∀ t wait, w.waits t = some wait → (∃ x, w.sched.tasks t = some x) ∧
    w.word (w.sched.spaceOf t) wait.uaddr = wait.present
  sleeps : ∀ u t, t ∈ w.sched.parkedOn u →
    w.word (w.sched.spaceOf t) u = w.expects t ∨ w.owed (w.sched.spaceOf t) u = true

section

variable (h : Steady w)
include h

/-- A step of the scheduler moves nobody to another address space. -/
theorem Steady.moved {op : SchedOp} {σ : Sched} (hop : w.sched.step op = some σ) :
    (∀ t wait, w.waits t = some wait → (∃ x, σ.tasks t = some x) ∧
      w.word (σ.spaceOf t) wait.uaddr = wait.present) ∧
    ∀ u t, t ∈ w.sched.parkedOn u →
      w.word (σ.spaceOf t) u = w.expects t ∨ w.owed (σ.spaceOf t) u = true := by
  have hspace := step_space h.sane hop
  refine ⟨fun t wait hwait => ?_, fun u t hon => ?_⟩
  · obtain ⟨⟨x, hx⟩, hword⟩ := h.copies t wait hwait
    obtain ⟨y, hy, -⟩ := hspace t x hx
    exact ⟨⟨y, hy⟩, (spaceOf_of_same hspace hx).symm ▸ hword⟩
  · obtain ⟨x, hx, -⟩ := seated_of_parkedOn h.sane hon
    rw [spaceOf_of_same hspace hx]
    exact h.sleeps u t hon

/-- A step of the scheduler that is about no word. -/
theorem Steady.sched {op : SchedOp}
    (hpark : ∀ c uaddr present expected, op ≠ .parkOnWord c uaddr present expected)
    (hwake : ∀ uaddr count, op ≠ .wake uaddr count) {σ : Sched} (hop : w.sched.step op = some σ) :
    Steady { w with sched := σ } := by
  refine ⟨h.sane.step hop, h.within.step hop, (h.moved hop).1, fun u t ht => ?_⟩
  exact (h.moved hop).2 u t (parkedOn_of_step h.sane hpark hwake hop ht)

theorem Steady.wake {uaddr count : ℕ} (hstep : w.step (.wake uaddr count) = some w') :
    Steady w' := by
  obtain ⟨⟩ := hstep
  have hop : w.sched.step (.wake uaddr count) = some (w.sched.wakeUserWord uaddr count).1 :=
    w.sched.step_wake uaddr count
  refine ⟨h.sane.step hop, h.within.step hop, (h.moved hop).1, fun u t ht => ?_⟩
  obtain ⟨hon, hmore⟩ := parkedOn_wakeUserWord h.sane ht
  refine ((h.moved hop).2 u t hon).imp id fun howed => ?_
  split
  · -- everybody on the word was woken, so the sleeper is on another
    exact (if_neg fun heq => absurd (hmore heq) (by omega)).trans howed
  · exact howed

theorem Steady.copy {c uaddr expected : ℕ} (hstep : w.step (.copy c uaddr expected) = some w') :
    Steady w' := by
  obtain ⟨t, hrun, hstep⟩ := bind_eq_some_iff.mp hstep
  split at hstep
  · cases hstep
  obtain ⟨⟩ := hstep
  refine ⟨h.sane, h.within, fun u wait hwait => ?_, h.sleeps⟩
  simp only at hwait ⊢
  by_cases hu : u = t
  · subst hu
    rw [update_self] at hwait
    obtain ⟨⟩ := hwait
    obtain ⟨x, hx, -⟩ := h.sane.running hrun
    exact ⟨⟨x, hx⟩, rfl⟩
  · rw [update_of_ne hu] at hwait
    exact h.copies u wait hwait

theorem Steady.gate {c : ℕ} (hstep : w.step (.gate c) = some w') : Steady w' := by
  obtain ⟨t, hrun, hstep⟩ := bind_eq_some_iff.mp hstep
  obtain ⟨wait, hwait, hstep⟩ := bind_eq_some_iff.mp hstep
  obtain ⟨σ, hop, hstep⟩ := bind_eq_some_iff.mp hstep
  obtain ⟨⟩ := hstep
  obtain ⟨hcopies, hsleeps⟩ := h.moved hop
  refine ⟨h.sane.step hop, h.within.step hop, fun u other hother => ?_, fun u v hv => ?_⟩
  · simp only at hother ⊢
    by_cases hu : u = t
    · subst hu
      rw [update_self] at hother
      cases hother
    · rw [update_of_ne hu] at hother
      exact hcopies u other hother
  · simp only at hv ⊢
    obtain ⟨s, hs, hway⟩ := step_parkOnWord hop
    obtain rfl := mem_unique hrun hs
    by_cases hvt : v = t
    · -- the caller itself: it is parked because its copy, which is the word, is as expected
      subst hvt
      obtain ⟨⟨x, hx⟩, -⟩ := h.copies v wait hwait
      rw [update_self]
      rcases hway with ⟨-, rfl⟩ | ⟨hexpected, rfl⟩
      · exact absurd hv (not_parkedOn_of_running h.sane hrun)
      have hua : ((w.sched.edit v fun x => { x with futexUaddr := wait.uaddr }).parkOn c v
          (bucketFor wait.uaddr)).uaddrOf v = some wait.uaddr := by
        simp only [uaddrOf, parkOn, setCpu, edit_self, setWaiting, hx,
          Option.map_some]
      obtain rfl := some.inj (hua.symm.trans (mem_parkedOn.mp hv).2)
      exact .inl ((hcopies v wait hwait).2.trans hexpected)
    · have hon : v ∈ w.sched.parkedOn u := by
        rcases hway with ⟨-, rfl⟩ | ⟨-, rfl⟩
        · exact hv
        obtain ⟨hli, hua⟩ := mem_parkedOn.mp hv
        refine mem_parkedOn.mpr ⟨?_, ?_⟩
        · refine ((mem_waiting_append).mp hli).resolve_right ?_
          exact fun heq => hvt heq.2
        · rw [← hua]
          exact congrArg (Option.map SchedTask.futexUaddr)
            ((edit_of_ne hvt).trans (edit_of_ne hvt)).symm
      rw [update_of_ne hvt]
      exact hsleeps u v hon

theorem Steady.store {c uaddr value : ℕ} (hset : w.Settled (.store c uaddr value))
    (hstep : w.step (.store c uaddr value) = some w') : Steady w' := by
  obtain ⟨t, hrun, hstep⟩ := bind_eq_some_iff.mp hstep
  have hspace : w.spaceAt c = w.sched.spaceOf t := by rw [spaceAt, hrun, Option.bind_some]
  split at hstep
  · cases hstep
  obtain ⟨⟩ := hstep
  refine ⟨h.sane, h.within, fun u wait hwait => ?_, fun u v hv => ?_⟩
  · obtain ⟨⟨x, hx⟩, hword⟩ := h.copies u wait hwait
    refine ⟨⟨x, hx⟩, ?_⟩
    simp only
    split
    · -- the word of a task on its way to the gate does not change
      rename_i hsame
      rw [Settled, hspace] at hset
      rcases hset with hequal | hnob
      · rw [← hword, hsame.1, hsame.2, hequal]
      have hseated : u < w.sched.nextTask := by
        by_contra hlater
        rw [h.sane.seated u (by omega)] at hx
        cases hx
      exact absurd hsame (hnob u hseated wait hwait)
    · exact hword
  · simp only
    by_cases htarget : w.sched.spaceOf v = w.sched.spaceOf t ∧ u = uaddr
    · rw [if_pos htarget]
      by_cases hequal : w.word (w.sched.spaceOf v) u = value
      · rw [if_neg fun h => h.2.2 hequal, ← hequal]
        exact h.sleeps u v hv
      · exact .inr (if_pos ⟨htarget.1, htarget.2, hequal⟩)
    · rw [if_neg htarget, if_neg fun h => htarget ⟨h.1, h.2.1⟩]
      exact h.sleeps u v hv

theorem Steady.step (hset : w.Settled e) (hstep : w.step e = some w') : Steady w' := by
  cases e with
  | sched op =>
    have hpark : ∀ c uaddr present expected, op ≠ .parkOnWord c uaddr present expected := by
      rintro c uaddr present expected rfl
      cases hstep
    have hwake : ∀ uaddr count, op ≠ .wake uaddr count := by
      rintro uaddr count rfl
      cases hstep
    have hmap : (w.sched.step op).map (fun σ => { w with sched := σ }) = some w' := by
      rw [← hstep]
      cases op <;> first | rfl | exact absurd rfl (hpark _ _ _ _) | exact absurd rfl (hwake _ _)
    obtain ⟨σ, hop, rfl⟩ := map_eq_some_iff.mp hmap
    exact h.sched hpark hwake hop
  | wake uaddr count => exact h.wake hstep
  | copy c uaddr expected => exact h.copy hstep
  | gate c => exact h.gate hstep
  | store c uaddr value => exact h.store hset hstep

end

/-- **Nobody sleeps through a change of its word and a wake.**  In every state of a settled
run: a task is parked only if its word holds what it expects there; whoever sleeps on a word
that holds something else sleeps since before the change, with a wake for all still to come;
and a wake makes ready everybody that it takes off the word. -/
theorem no_sleep_on_changed_word (classes : List SchedClass) (count : ℕ → ℤ)
    (completion : ℕ → CompletionState) (word : Option ℕ → ℕ → ℕ) (es : List WordOp) {w : Words}
    (hsettled : Along step Settled { sched := boot classes count completion, word := word } es)
    (hrun : run step { sched := boot classes count completion, word := word } es = some w) :
    (∀ c t wait w', w.sched.running c = some t → w.waits t = some wait →
      w.step (.gate c) = some w' → t ∈ w'.sched.parkedOn wait.uaddr →
      w.word (w.sched.spaceOf t) wait.uaddr = wait.expected) ∧
    (∀ u t, t ∈ w.sched.parkedOn u → w.word (w.sched.spaceOf t) u ≠ w.expects t →
      w.owed (w.sched.spaceOf t) u = true) ∧
    ∀ uaddr n, w.Settled (.wake uaddr n) → ∀ t ∈ w.sched.sleepers uaddr n,
      ∃ y, (w.sched.wakeUserWord uaddr n).1.tasks t = some y ∧ y.state = .ready := by
  have hbegin : Steady { sched := boot classes count completion, word := word } := by
    refine ⟨sane_boot classes count completion, fun k => Nat.zero_le _, fun t wait hwait => ?_,
      fun u t ht => ?_⟩
    · cases hwait
    · exact absurd (mem_parkedOn.mp ht).1 List.not_mem_nil
  have h : Steady w := run_keeps (fun _ _ _ h hs hstep => Steady.step h hs hstep) es hbegin hsettled
    hrun
  refine ⟨fun c t wait w' hrunning hwait hgate hparked => ?_, fun u t ht hother => ?_,
    fun uaddr n hroom t ht => ?_⟩
  · -- the word read under the gate is the one that is there
    obtain ⟨-, hword⟩ := h.copies t wait hwait
    obtain ⟨s, hs, hgate⟩ := bind_eq_some_iff.mp hgate
    obtain rfl := mem_unique hrunning hs
    obtain ⟨other, hother, hgate⟩ := bind_eq_some_iff.mp hgate
    obtain rfl := mem_unique hwait hother
    obtain ⟨σ, hop, hgate⟩ := bind_eq_some_iff.mp hgate
    obtain ⟨⟩ := hgate
    obtain ⟨s, -, ⟨-, rfl⟩ | ⟨hexpected, -⟩⟩ := step_parkOnWord hop
    · exact absurd hparked (not_parkedOn_of_running h.sane hrunning)
    · exact hword.trans hexpected
  · exact (h.sleeps u t ht).resolve_left hother
  · -- everybody who is woken finds room in the row
    have hsub := w.sched.sleepers_sublist uaddr n
    have hready := (all_ready_iff _ h.sane h.within ((h.sane.waitOnce _).sublist hsub)
      fun t ht => hsub.subset ht).mpr (hroom _ _ rfl) t ht
    obtain ⟨m, hm, hstate⟩ := hready
    obtain ⟨y, hy, rfl⟩ := map_eq_some_iff.mp hm
    exact ⟨y, by rw [wakeUserWord_eq]; exact hy, hstate⟩

end Runs

/-- Two tasks of one address space, each on its processor. -/
def twoThreads : List WordOp :=
  [.sched (.seat plainTask true false), .sched (.seat plainTask true false),
    .sched (.dispatch 0), .sched (.dispatch 1)]

/-- Task 0 has copied a zero from its word; task 1 stores a one there and wakes the word; task 0
goes to sleep. -/
theorem sleeps_on_changed_word :
    ∃ w, run step { sched := bootFifo, word := fun _ _ => 0 }
        (twoThreads ++ [.copy 0 4096 0, .store 1 4096 1, .wake 4096 1, .gate 0]) = some w ∧
      0 ∈ w.sched.parkedOn 4096 ∧ w.expects 0 = 0 ∧ w.word (w.sched.spaceOf 0) 4096 = 1 ∧
      w.owed (w.sched.spaceOf 0) 4096 = false := by
  decide +kernel

/-- Task 0 is asleep before task 1 stores: the wake is still to come, and it will wake it. -/
theorem no_sleep_on_changed_word_later :
    ∃ w y, run step { sched := bootFifo, word := fun _ _ => 0 }
        (twoThreads ++ [.copy 0 4096 0, .gate 0, .store 1 4096 1]) = some w ∧
      w.owed (w.sched.spaceOf 0) 4096 = true ∧
      (w.sched.wakeUserWord 4096 1).1.tasks 0 = some y ∧ y.state = .ready := by
  obtain ⟨w, hw, hparked, hother, hroom, hfirst⟩ :
      ∃ w, run step { sched := bootFifo, word := fun _ _ => 0 }
        (twoThreads ++ [.copy 0 4096 0, .gate 0, .store 1 4096 1]) = some w ∧
      0 ∈ w.sched.parkedOn 4096 ∧ w.word (w.sched.spaceOf 0) 4096 ≠ w.expects 0 ∧
      w.Settled (.wake 4096 1) ∧ 0 ∈ w.sched.sleepers 4096 1 := by decide +kernel
  obtain ⟨-, howed, hwakes⟩ := no_sleep_on_changed_word [.fifo] (fun _ => 0) (fun _ => .pending)
    (fun _ _ => 0) _ (by decide +kernel) hw
  obtain ⟨y, hy, hready⟩ := hwakes 4096 1 hroom 0 hfirst
  exact ⟨w, y, hw, howed 4096 0 hparked hother, hy, hready⟩

end Words

end Cinux
