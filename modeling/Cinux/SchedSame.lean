/-
What of a task no step changes.

A step changes the state of a task, the processor it is at and its signals; who it is, where
it belongs and the word it waits on stay, but for the three steps that are about them.

* `Traits` — what stays, `Same` — it stays from one state to another;
* `step_same` — every step but a join, a park on a word and an exit;
* `step_space` — the address space stays through every step;
* `step_lists` — a step changes one waiting list at most.
-/
import Cinux.SchedSane

namespace Cinux

namespace Sched

/-- Every task is still there, and what `f` reads of it is as it was. -/
def Same {β : Type} (f : Traits → β) (σ σ' : Sched) : Prop :=
  ∀ t x, σ.tasks t = some x → ∃ y, σ'.tasks t = some y ∧ f (traitsOf y) = f (traitsOf x)

section Same

variable {β : Type} {f : Traits → β} {σ σ' : Sched} {t c : ℕ} {x : SchedTask} {p : Place}

theorem Same.refl (σ : Sched) : Same f σ σ := fun _ x hx => ⟨x, hx, rfl⟩

theorem Same.trans {τ : Sched} (h : Same f σ τ) (h' : Same f τ σ') : Same f σ σ' := by
  intro t x hx
  obtain ⟨y, hy, hxy⟩ := h t x hx
  obtain ⟨z, hz, hyz⟩ := h' t y hy
  exact ⟨z, hz, hyz.trans hxy⟩

theorem same_of_tasks (h : σ'.tasks = σ.tasks) : Same f σ σ' :=
  fun _ x hx => ⟨x, h ▸ hx, rfl⟩

theorem same_edit {g : SchedTask → SchedTask} (hg : ∀ x, f (traitsOf (g x)) = f (traitsOf x)) :
    Same f σ (σ.edit t g) := by
  intro u x hx
  by_cases hu : u = t
  · subst hu
    exact ⟨g x, by rw [edit_self, hx, Option.map_some], hg x⟩
  · exact ⟨x, by rw [edit_of_ne hu, hx], rfl⟩

/-- What the changes leave of every task: all that `f` reads, if `f` does not read what the
step is about. -/
theorem quiet_same {e : SchedOp} (busy : ℕ → Prop)
    (hf : ∀ x y, TraitStep e x y → f y = f x) : Quiet e busy (Same f) where
  refl := Same.refl
  trans := Same.trans
  beside ht _ _ _ _ := same_of_tasks ht
  enqueue {σ _ t x} hq := by
    obtain ⟨-, rfl⟩ := enqueue_eq_some hq
    exact (same_of_tasks rfl : Same f σ (σ.setRow x.cls (σ.rows x.cls ++ [t]))).trans
      (same_edit fun _ => rfl)
  unrow _ _ _ := same_of_tasks rfl
  unwait _ _ _ _ := same_of_tasks rfl
  edit _ _ _ hg _ := same_edit fun x => hf _ _ (hg x)

end Same

/-! ### Steps -/

section Steps

variable {β : Type} {f : Traits → β} {σ σ' : Sched} {e : SchedOp}

/-- **What a step leaves of every task.** -/
theorem step_same (hsane : σ.Sane none) (hf : ∀ x y, TraitStep e x y → f y = f x)
    (h : σ.step e = some σ') : Same f σ σ' := by
  have frame : Frame e σ (Same f) := { quiet_same _ hf with
    wait := fun _ _ _ _ => same_of_tasks rfl
    cpu := fun _ _ _ _ => same_of_tasks rfl
    owner := fun _ _ _ _ => same_of_tasks rfl
    register := fun _ t y hy => by
      have hne : t ≠ σ.nextTask := by
        rintro rfl
        rw [hsane.seated _ le_rfl] at hy
        cases hy
      exact ⟨y, by rw [register_tasks, if_neg hne, hy], rfl⟩ }
  exact frame.step h

theorem step_space (hsane : σ.Sane none) (h : σ.step e = some σ') : Same Traits.space σ σ' := by
  refine step_same hsane (fun x y hxy => ?_) h
  rcases hxy with rfl | ⟨_, _, _, rfl⟩ | ⟨_, _, _, _, _, rfl⟩ | ⟨_, _, _, rfl⟩ <;> rfl

/-- The word a task waits on changes in `ParkOnWord` only. -/
theorem step_uaddr (hsane : σ.Sane none)
    (hpark : ∀ c uaddr present expected, e ≠ .parkOnWord c uaddr present expected)
    (h : σ.step e = some σ') : Same Traits.futexUaddr σ σ' := by
  refine step_same hsane (fun x y hxy => ?_) h
  rcases hxy with rfl | ⟨_, _, _, rfl⟩ | ⟨c, uaddr, present, expected, he, _⟩ | ⟨_, _, _, rfl⟩
  · rfl
  · rfl
  · exact absurd he (hpark c uaddr present expected)
  · rfl

/-! ### Waiting lists -/

/-- **The other waiting lists stay as they are.** -/
theorem step_lists {p : Place} (hp : placeOf e ≠ some p) (h : σ.step e = some σ') :
    σ'.waiting p = σ.waiting p := by
  have other : ∀ {q}, placeOf e = some q → p ≠ q := by
    rintro q hq rfl
    exact hp hq
  have frame : Frame e σ fun σ σ' => σ'.waiting p = σ.waiting p := {
    refl := fun _ => rfl
    trans := fun h h' => h'.trans h
    beside := fun _ _ hw _ _ => congrFun hw p
    enqueue := fun hq => by
      obtain ⟨-, rfl⟩ := enqueue_eq_some hq
      rfl
    unrow := fun _ _ _ => rfl
    unwait := fun _ _ _ hq => setWaiting_of_ne (other hq)
    edit := fun _ _ _ _ _ => rfl
    wait := fun _ _ _ hq => setWaiting_of_ne (other hq)
    cpu := fun _ _ _ _ => rfl
    owner := fun _ _ _ _ => rfl
    register := fun _ => rfl }
  exact frame.step h

end Steps

end Sched

end Cinux
