/-
The tasks and the segments of a step.

* `step_tasks` — a property of tasks, over a step of the system;
* `step_segments` — what a step does to the segments.
-/
import Cinux.SystemRuns

namespace Cinux

open Function

namespace System

variable {hw : Hardware} {tidy : Prop} {σ σ' : System} {pid : ℕ} {t : Task} {g : Grants}
  {value : ℤ}

/-- What all operations but calls do to the segments. -/
structure Unsegmented (σ σ' : System) : Prop where
  nextPages : σ'.nextPages = σ.nextPages
  segments : σ'.segments = σ.segments

theorem exitTask_kept (hres : σ.exitTask hw pid = .ok σ') :
    σ'.tasks = update σ.tasks pid none ∧ Unsegmented σ σ' := by
  unfold exitTask at hres
  split at hres
  · nomatch hres
  · obtain ⟨⟩ := hres
    exact ⟨rfl, rfl, rfl⟩

/-- A fault ends the task or leaves the tasks as they are. -/
theorem faultTask_kept {address : ℕ} {code : FaultCode} {read : Option Page} {b : Bool}
    (hres : σ.faultTask hw pid t address code read = .ok (b, σ')) :
    (σ'.tasks = σ.tasks ∨ σ'.tasks = update σ.tasks pid none) ∧ Unsegmented σ σ' := by
  obtain ⟨_, _, -, ⟨rfl, -⟩ | ⟨-, hex⟩⟩ := faultTask_ok hres
  · exact ⟨.inl rfl, rfl, rfl⟩
  · obtain ⟨htask, hnext, hseg⟩ := exitTask_kept hex
    exact ⟨.inr htask, hnext, hseg⟩

theorem touch_kept {address : ℕ} {write : Bool} {read : Option Page} {f : Option ℕ}
    (hres : σ.touch hw pid t address write read = .ok (f, σ')) :
    (σ'.tasks = σ.tasks ∨ σ'.tasks = update σ.tasks pid none) ∧ Unsegmented σ σ' := by
  unfold touch at hres
  split at hres
  · obtain ⟨⟩ := hres
    exact ⟨.inl rfl, rfl, rfl⟩
  split at hres
  · nomatch hres
  all_goals
    rename_i hfault
    obtain ⟨⟩ := hres
    exact faultTask_kept hfault

theorem forkTask_kept {late : Bool} (hres : σ.forkTask hw pid t g late = .ok (value, σ')) :
    (σ'.tasks = σ.tasks ∨ ∃ copy, (t.vmas.clone (grant g).2).1 = some copy ∧
      σ'.tasks = update σ.tasks σ.nextTask (some { t with vmas := copy })) ∧
    Unsegmented σ σ' := by
  unfold forkTask at hres
  split at hres
  · nomatch hres
  · obtain ⟨⟩ := hres
    exact ⟨.inl rfl, rfl, rfl⟩
  split at hres
  · rename_i copy hcopy
    obtain ⟨⟩ := hres
    exact ⟨.inr ⟨copy, hcopy, rfl⟩, rfl, rfl⟩
  split at hres
  · nomatch hres
  · obtain ⟨⟩ := hres
    exact ⟨.inl rfl, rfl, rfl⟩

theorem spawnTask_kept {image : Image} (hres : σ.spawnTask hw image = .ok (value, σ')) :
    (σ'.tasks = σ.tasks ∨ σ'.tasks = update σ.tasks σ.nextTask
      (some { euid := image.euid, egid := image.egid, vmas := image.store })) ∧
    Unsegmented σ σ' := by
  unfold spawnTask at hres
  dsimp only at hres
  split at hres
  · obtain ⟨⟩ := hres
    exact ⟨.inl rfl, rfl, rfl⟩
  split at hres
  · obtain ⟨⟩ := hres
    exact ⟨.inr rfl, rfl, rfl⟩
  split at hres
  · nomatch hres
  · obtain ⟨⟩ := hres
    exact ⟨.inl rfl, rfl, rfl⟩

/-- A property of tasks holds after a step, if fresh tasks have it and calls and
forks hand it on. -/
theorem step_tasks {Q : Task → Prop} {op : Op} {answer : Answer}
    (hall : ∀ q u, σ.tasks q = some u → Q u)
    (hspawn : ∀ image, op = .spawn image →
      Q { euid := image.euid, egid := image.egid, vmas := image.store })
    (hcall : ∀ q call g u value σ₁, op = .call q call g → σ.tasks q = some u →
      σ.syscall hw q u g call = .ok (value, σ₁) →
      ∃ s : VmaStore, Q { u with vmas := s } ∧
        σ₁.tasks = update σ.tasks q (some { u with vmas := s }))
    (hfork : ∀ q g late u copy g', op = .fork q g late → σ.tasks q = some u →
      (u.vmas.clone g').1 = some copy → Q { u with vmas := copy })
    (hres : σ.step hw op = .ok (answer, σ')) : ∀ q u, σ'.tasks q = some u → Q u := by
  -- a table of tasks with one entry replaced
  have hupd : ∀ {σ₁ : System} {p : ℕ} {x : Option Task}, (∀ u, x = some u → Q u) →
      σ₁.tasks = update σ.tasks p x → ∀ q u, (σ₁.reap hw).tasks q = some u → Q u := by
    intro σ₁ p x hx htask q u hq
    have hq : σ₁.tasks q = some u := hq
    rw [htask] at hq
    by_cases hqp : q = p
    · rw [hqp, update_self] at hq
      exact hx u hq
    · rw [update_of_ne hqp] at hq
      exact hall q u hq
  have hsame : ∀ {σ₁ : System}, σ₁.tasks = σ.tasks → ∀ q u,
      (σ₁.reap hw).tasks q = some u → Q u := by
    intro σ₁ htask q u hq
    have hq : σ₁.tasks q = some u := hq
    rw [htask] at hq
    exact hall q u hq
  have hgone : ∀ {σ₁ : System} {p : ℕ}, σ₁.tasks = σ.tasks ∨
      σ₁.tasks = update σ.tasks p none → ∀ q u, (σ₁.reap hw).tasks q = some u → Q u := by
    intro σ₁ p hcases
    rcases hcases with h | h
    · exact hsame h
    · exact hupd (fun u hu => absurd hu (by simp)) h
  rcases step_ok hres with ⟨image, _, σ₁, rfl, -, hstep, rfl⟩ | ⟨-, -, rfl⟩ | ⟨u, σ₁, ht, hact, rfl⟩
  · rcases (spawnTask_kept hstep).1 with h | h
    · exact hsame h
    · refine hupd (fun u hu => ?_) h
      obtain ⟨⟩ := hu
      exact hspawn image rfl
  · exact hall
  cases act_ok ht hact with
  | call hdone =>
    obtain ⟨s, hs, htask⟩ := hcall _ _ _ u _ _ rfl ht hdone
    refine hupd (fun u' hu' => ?_) htask
    obtain ⟨⟩ := hu'
    exact hs
  | fork hdone =>
    rcases (forkTask_kept hdone).1 with h | ⟨copy, hcopy, h⟩
    · exact hsame h
    · refine hupd (fun u' hu' => ?_) h
      obtain ⟨⟩ := hu'
      exact hfork _ _ _ u copy _ rfl ht hcopy
  | fault hdone => exact hgone (faultTask_kept hdone).1
  | load hdone => exact hgone (touch_kept hdone).1
  | missed hdone => exact hgone (touch_kept hdone).1
  | stored hdone =>
    have htask := (touch_kept hdone).1
    exact hgone htask
  | exit hdone => exact hgone (.inr (exitTask_kept hdone).1)

theorem step_segments {boot : ℕ → Bool} (h : Sane hw boot tidy σ) {op : Op} {answer : Answer}
    (hres : σ.step hw op = .ok (answer, σ')) : Resegmented σ σ' := by
  have hsame : ∀ {σ₁ : System}, Unsegmented σ σ₁ → Resegmented σ (σ₁.reap hw) := fun hs =>
    resegmented_of_eq hs.nextPages hs.segments
  rcases step_ok hres with ⟨image, _, σ₁, rfl, -, hstep, rfl⟩ | ⟨-, -, rfl⟩ | ⟨u, σ₁, ht, hact, rfl⟩
  · exact hsame (spawnTask_kept hstep).2
  · exact resegmented_of_eq rfl rfl
  cases act_ok ht hact with
  | call hdone =>
    cases (syscall_ends (h.stores _ u ht) h.segments hdone).segments with
    | less hnext hold => exact .less hnext hold
    | more new hpages hnext hold => exact .more new hpages hnext hold
  | fork hdone => exact hsame (forkTask_kept hdone).2
  | fault hdone => exact hsame (faultTask_kept hdone).2
  | load hdone => exact hsame (touch_kept hdone).2
  | missed hdone => exact hsame (touch_kept hdone).2
  | stored hdone =>
    obtain ⟨-, hnext, hseg⟩ := touch_kept hdone
    exact hsame ⟨hnext, hseg⟩
  | exit hdone => exact hsame (exitTask_kept hdone).2

end System

end Cinux
