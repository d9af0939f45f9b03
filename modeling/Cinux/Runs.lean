/-
Runs of a machine.

A machine is a step function that may have no result.  A run takes one step after
another, and a condition may be asked of every step, in the state it starts from.

* `decidableSome`, `decidableOk`, … — results of runs can be evaluated;
* `run`, `Along`, `along_congr` — runs, and conditions along them;
* `run_goes` — where every step has a result that keeps an invariant, a run has one;
* `run_keeps`, `run_stays` — what every step that has a result keeps, every run that has one
  keeps.
-/
import Mathlib

namespace Runs

variable {σ α : Type*} {step : σ → α → Option σ} {c : σ → α → Prop} {I : σ → Prop} {s s' : σ}

/-- Whether a result is there and meets a condition can be evaluated. -/
instance decidableOk {ε α : Type*} {p : α → Prop} [DecidablePred p] :
    (e : Except ε α) → Decidable (∃ x, e = .ok x ∧ p x)
  | .ok a => decidable_of_iff (p a) ⟨fun h => ⟨a, rfl, h⟩, fun ⟨_, ha, h⟩ => Except.ok.inj ha ▸ h⟩
  | .error _ => .isFalse nofun

instance decidableSome {α : Type*} {p : α → Prop} [DecidablePred p] :
    (o : Option α) → Decidable (∃ x, o = some x ∧ p x)
  | some a => decidable_of_iff (p a) ⟨fun h => ⟨a, rfl, h⟩,
    fun ⟨_, ha, h⟩ => Option.some.inj ha ▸ h⟩
  | none => .isFalse nofun

instance decidableOkPair {ε α β : Type*} [DecidableEq α] {a : α} {p : β → Prop} [DecidablePred p]
    (e : Except ε (α × β)) : Decidable (∃ y, e = .ok (a, y) ∧ p y) :=
  decidable_of_iff (∃ x, e = .ok x ∧ x.1 = a ∧ p x.2)
    ⟨fun ⟨x, he, ha, hp⟩ => ⟨x.2, ha ▸ he, hp⟩, fun ⟨_, he, hp⟩ => ⟨_, he, rfl, hp⟩⟩

instance decidableSomeMem {α : Type*} {p : α → Prop} [DecidablePred p] (l : List (Option α)) :
    Decidable (∃ x, some x ∈ l ∧ p x) :=
  decidable_of_iff (∃ o ∈ l, ∃ x, o = some x ∧ p x)
    ⟨fun ⟨_, ho, x, he, hp⟩ => ⟨x, he ▸ ho, hp⟩, fun ⟨x, hx, hp⟩ => ⟨_, hx, x, rfl, hp⟩⟩

/-- A run, while every step has a result. -/
def run (step : σ → α → Option σ) : σ → List α → Option σ
  | s, [] => some s
  | s, a :: as =>
    match step s a with
    | none => none
    | some s' => run step s' as

/-- Every step of the run meets the condition. -/
def Along (step : σ → α → Option σ) (c : σ → α → Prop) : σ → List α → Prop
  | _, [] => True
  | s, a :: as => c s a ∧ ∀ s', step s a = some s' → Along step c s' as

instance decidableAlong [∀ s a, Decidable (c s a)] :
    ∀ (s : σ) (as : List α), Decidable (Along step c s as)
  | _, [] => isTrue trivial
  | s, a :: as =>
    match h : step s a with
    | none => decidable_of_iff (c s a)
        ⟨fun hc => ⟨hc, fun _ hs => absurd hs (by simp [h])⟩, fun hc => hc.1⟩
    | some s' =>
      have := decidableAlong s' as
      decidable_of_iff (c s a ∧ Along step c s' as)
        ⟨fun hc => ⟨hc.1, fun _ hs => Option.mem_unique h hs ▸ hc.2⟩,
          fun hc => ⟨hc.1, hc.2 s' h⟩⟩

theorem run_cons {a : α} {as : List α} (h : step s a = some s') :
    run step s (a :: as) = run step s' as := by
  rw [run, h]

theorem run_append (as bs : List α) {s : σ} :
    run step s (as ++ bs) = (run step s as).bind fun s' => run step s' bs := by
  induction as generalizing s with
  | nil => rfl
  | cons a as ih =>
    rw [List.cons_append, run, run]
    cases step s a with
    | none => rfl
    | some s' => exact ih

theorem along_of (h : ∀ s a, c s a) : ∀ {as : List α} {s : σ}, Along step c s as
  | [], _ => trivial
  | _ :: _, s => ⟨h s _, fun _ _ => along_of h⟩

/-- Conditions that say the same of every step say the same of every run. -/
theorem along_congr {d : σ → α → Prop} (h : ∀ s a, c s a ↔ d s a) :
    ∀ (as : List α) {s : σ}, Along step c s as ↔ Along step d s as := by
  intro as
  induction as with
  | nil => exact fun {s} => Iff.rfl
  | cons a as ih =>
    exact fun {s} =>
      and_congr (h s a) (forall_congr' fun _ => imp_congr_right fun _ => ih)

/-- Where every step has a result that keeps the invariant, a run has one. -/
theorem run_goes (hstep : ∀ s a, I s → c s a → ∃ s', step s a = some s' ∧ I s') :
    ∀ (as : List α) {s : σ}, I s → Along step c s as → ∃ s', run step s as = some s' ∧ I s' := by
  intro as
  induction as with
  | nil => exact fun {s} h _ => ⟨s, rfl, h⟩
  | cons a as ih =>
    intro s h halong
    obtain ⟨s₁, hone, h₁⟩ := hstep s a h halong.1
    rw [run_cons hone]
    exact ih h₁ (halong.2 s₁ hone)

/-- What every step that has a result keeps, every run that has one keeps. -/
theorem run_keeps (hstep : ∀ s a s', I s → c s a → step s a = some s' → I s') :
    ∀ (as : List α) {s s' : σ}, I s → Along step c s as → run step s as = some s' → I s' := by
  intro as
  induction as with
  | nil =>
    intro s s' h _ hrun
    rwa [← Option.some.inj hrun]
  | cons a as ih =>
    intro s s' h halong hrun
    cases hone : step s a with
    | none =>
      rw [run, hone] at hrun
      cases hrun
    | some s₁ =>
      rw [run_cons hone] at hrun
      exact ih (hstep s a s₁ h halong.1 hone) (halong.2 s₁ hone) hrun

/-- What every step keeps whatever it is, every run keeps. -/
theorem run_stays (hstep : ∀ s a s', I s → step s a = some s' → I s') (as : List α) (h : I s)
    (hrun : run step s as = some s') : I s' :=
  run_keeps (c := fun _ _ => True) (fun s a s' h _ => hstep s a s' h) as h
    (along_of fun _ _ => trivial)
    hrun

end Runs
