/-
The invariant of the whole system.

`Sane` ties the four parts of a system together: the memory is `Good` under what
the registers of the tasks promise, every register has its shape, a task has a
space exactly while it lives, and page lists are only held where there are pages.
This file shows that no system call breaks it.

* `Sane.restore`, `Sane.sameTasks`, `Sane.enter`, `Sane.leave` — the four ways in
  which an operation changes the system;
* `Sane.withdraw` — what the register gives up the tables lose;
* `Sane.callStep` — the invariant survives each way a call can end.
-/
import Cinux.Calls
import Cinux.SpaceData

namespace Cinux

open Ledger Function

variable {v : Memory} {s : VmaStore}

namespace System

/-- What the registers of the tasks promise. -/
def promised (σ : System) (pid a : ℕ) : Option Promise := (σ.tasks pid).bind (·.vmas.view a)

/-- The invariant of the system. -/
structure Sane (hw : Hardware) (boot : ℕ → Bool) (tidy : Prop) (σ : System) : Prop where
  good : ∃ use, Good hw boot σ.promised none use σ.mem
  stores : ∀ pid t, σ.tasks pid = some t → t.vmas.StoreOk tidy σ.lens
  rooted : ∀ pid, σ.mem.roots pid = none ↔ σ.tasks pid = none
  fresh : ∀ pid, σ.nextTask ≤ pid → σ.tasks pid = none
  unborn : ∀ p, σ.nextPages ≤ p → σ.mem.pages p = []
  segments : ∀ s, some s ∈ σ.segments → 0 < σ.lens s.pages

variable {hw : Hardware} {boot : ℕ → Bool} {tidy : Prop} {σ σ' : System} {pid : ℕ} {t : Task}
  {g : Grants}

theorem promised_of_task (ht : σ.tasks pid = some t) : σ.promised pid = t.vmas.view := by
  funext a
  rw [promised, ht]
  rfl

theorem promised_of_none (ht : σ.tasks pid = none) (a : ℕ) : σ.promised pid a = none := by
  rw [promised, ht]
  rfl

/-- A task with a new register changes the promises of its own space. -/
theorem promised_update (σ : System) (pid : ℕ) (x : Option Task) {σ' : System}
    (h : σ'.tasks = update σ.tasks pid x) :
    σ'.promised = update σ.promised pid fun a => x.bind (·.vmas.view a) := by
  funext q a
  rw [promised, h]
  by_cases hq : q = pid
  · subst hq
    simp
  · simp [hq, promised]

namespace Sane

section

variable (h : Sane hw boot tidy σ)

include h

theorem root_of_task (ht : σ.tasks pid = some t) : σ.mem.roots pid ≠ none := fun hr => by
  rw [(h.rooted pid).mp hr] at ht
  nomatch ht

theorem root_next : σ.mem.roots σ.nextTask = none := (h.rooted _).mpr (h.fresh _ le_rfl)

theorem task_lt (ht : σ.tasks pid = some t) : pid < σ.nextTask := by
  by_contra hlt
  rw [h.fresh pid (by omega)] at ht
  nomatch ht

theorem born_of_live {p : ℕ} (hp : 0 < σ.lens p) : p < σ.nextPages := by
  by_contra hlt
  rw [lens, h.unborn p (by omega)] at hp
  nomatch hp

/-- A page with a leaf is registered as a whole, by a region that suits the leaf. -/
theorem region_of_leaf {use : ℕ → Use}
    (hgood : Good hw boot σ.promised none use σ.mem) (ht : σ.tasks pid = some t) {a : ℕ}
    (ha : a < kUserTop) (hp : (σ.mem.tables pid 0 (pageOf a)).present = true) :
    ∃ r, t.vmas.find a = some r ∧
      LeafOk use (r.promise (pageOf a * kSize)) (σ.mem.tables pid 0 (pageOf a)) := by
  obtain ⟨⟨p, hprom, hok⟩, -⟩ := hgood.leaves pid _ hp
  rw [promised_of_task ht] at hprom
  obtain ⟨r, hr, rfl⟩ := Option.map_eq_some_iff.mp hprom
  have hs := h.stores pid t ht
  obtain ⟨hmem, h1, h2⟩ := hs.sound.find_eq_some.mp hr
  have hstop := (hs.spans hmem).stop_mod
  refine ⟨r, hs.sound.find_eq_some.mpr ⟨hmem, ?_, ?_⟩, hok⟩ <;>
    simp only [pageOf, kSize, kUserTop] at * <;> omega

/-! ### The four kinds of change -/

theorem place {x : Option Task} {next : ℕ} (hs : ∀ t, x = some t → t.vmas.StoreOk tidy σ.lens)
    (hgood : ∃ use, Good hw boot (update σ.promised pid fun a => x.bind (·.vmas.view a)) none use v)
    (hroot : v.roots pid = none ↔ x = none) (hroots : ∀ q, q ≠ pid → v.roots q = σ.mem.roots q)
    (hpages : v.pages = σ.mem.pages) (hnext : σ.nextTask ≤ next) (hlt : x ≠ none → pid < next) :
    Sane hw boot tidy { σ with mem := v, tasks := update σ.tasks pid x, nextTask := next } := by
  obtain ⟨use, hgood⟩ := hgood
  -- segments are untouched, so every region still fits its own
  have hlens : (fun p => (v.pages p).length) = σ.lens := by
    rw [hpages]
    rfl
  have hseg := h.segments
  have hstore := h.stores
  rw [← hlens] at hseg hstore hs
  refine ⟨⟨use, ?_⟩, fun q t hq => ?_, fun q => ?_, fun q hq => ?_, fun p hp => ?_, hseg⟩
  · rw [promised_update σ pid x rfl]
    exact hgood
  · dsimp only at hq
    by_cases hqp : q = pid
    · exact hs t (by rwa [hqp, update_self] at hq)
    · exact hstore q t (by rwa [update_of_ne hqp] at hq)
  · dsimp only
    by_cases hqp : q = pid
    · rw [hqp, update_self]
      exact hroot
    · rw [update_of_ne hqp, hroots q hqp]
      exact h.rooted q
  · dsimp only
    by_cases hqp : q = pid
    · rw [hqp, update_self]
      by_contra hx
      exact absurd (hlt hx) (not_lt.mpr (hqp ▸ hq))
    · rw [update_of_ne hqp]
      exact h.fresh q (hnext.trans hq)
  · rw [hpages]
    exact h.unborn p hp

theorem restore (ht : σ.tasks pid = some t) (hs : s.StoreOk tidy σ.lens)
    (hgood : ∃ use, Good hw boot (update σ.promised pid s.view) none use v)
    (hroots : v.roots = σ.mem.roots) (hpages : v.pages = σ.mem.pages) :
    Sane hw boot tidy { σ.setVmas pid t s with mem := v } := by
  refine h.place ?_ hgood ?_ (fun q _ => by rw [hroots]) hpages le_rfl
    fun _ => h.task_lt ht
  · rintro _ ⟨⟩
    exact hs
  · simp [hroots, h.root_of_task ht]

theorem sameTasks (htask : σ'.tasks = σ.tasks) (hnext : σ'.nextTask = σ.nextTask)
    (hgood : ∃ use, Good hw boot σ.promised none use σ'.mem)
    (hroots : σ'.mem.roots = σ.mem.roots)
    (hlens : ∀ pid t, σ.tasks pid = some t → ∀ r ∈ t.vmas.regions, ∀ a, r.shared = some a →
      σ'.lens a.pages = σ.lens a.pages)
    (hunborn : ∀ p, σ'.nextPages ≤ p → σ'.mem.pages p = [])
    (hseg : ∀ s, some s ∈ σ'.segments → 0 < σ'.lens s.pages) :
    Sane hw boot tidy σ' := by
  obtain ⟨use, hgood⟩ := hgood
  refine ⟨⟨use, ?_⟩, fun q t hq => ?_, fun q => ?_, fun q hq => ?_, hunborn, hseg⟩
  · have : σ'.promised = σ.promised := by
      funext q a
      rw [promised, promised, htask]
    rw [this]
    exact hgood
  · rw [htask] at hq
    exact (h.stores q t hq).lens_congr (hlens q t hq)
  · rw [hroots, htask]
    exact h.rooted q
  · rw [htask]
    rw [hnext] at hq
    exact h.fresh q hq

theorem withMem (hgood : ∃ use, Good hw boot σ.promised none use v) (hroots : v.roots = σ.mem.roots)
    (hpages : v.pages = σ.mem.pages) : Sane hw boot tidy { σ with mem := v } := by
  have hlens : ({ σ with mem := v } : System).lens = σ.lens := by
    funext p
    show (v.pages p).length = _
    rw [hpages]
    rfl
  refine h.sameTasks rfl rfl hgood hroots (fun _ _ _ _ _ a _ => by rw [hlens]) (fun p hp => ?_)
    (fun s hs => by rw [hlens]; exact h.segments s hs)
  rw [hpages]
  exact h.unborn p hp

theorem enter (hs : t.vmas.StoreOk tidy σ.lens)
    (hgood : ∃ use, Good hw boot (update σ.promised σ.nextTask t.vmas.view) none use v)
    (hroot : v.roots σ.nextTask ≠ none) (hroots : ∀ q, q ≠ σ.nextTask → v.roots q = σ.mem.roots q)
    (hpages : v.pages = σ.mem.pages) :
    Sane hw boot tidy { σ with
      mem := v
      tasks := update σ.tasks σ.nextTask (some t)
      nextTask := σ.nextTask + 1 } := by
  refine h.place ?_ hgood (by simp [hroot]) hroots hpages (Nat.le_succ _)
    fun _ => Nat.lt_succ_self _
  rintro _ ⟨⟩
  exact hs

/-! ### The calls -/

/-- A stretch is withdrawn: what the register gives up, the loop over the pages
takes from the tables. -/
theorem withdraw (ht : σ.tasks pid = some t) {start bytes : ℕ} (hstart : start % kSize = 0)
    (hs : s.StoreOk tidy σ.lens)
    (hview : ∀ a p, t.vmas.view a = some p → ¬ (start ≤ a ∧ a < start + bytes) → s.view a = some p)
    :
    Sane hw boot tidy { σ.setVmas pid t s with
      mem := σ.mem.reclaimSpots hw pid start bytes } := by
  obtain ⟨use, hgood⟩ := h.good
  obtain ⟨use', hgood', hclear⟩ := hgood.reclaim pid (Memory.spots start bytes)
  refine h.restore ht hs ⟨use', hgood'.reregister fun n p hp hprom => ?_⟩ hclear.roots hclear.pages
  rw [promised_of_task ht] at hprom
  refine hview _ p hprom fun hin => ?_
  -- a leaf inside the stretch would have been visited
  have hn := hgood'.page_lt hp
  have hspot := mem_spots hstart (by simp only [kUserPages] at hn; omega) hin.1 hin.2
  rw [hclear.goes n hspot] at hp
  cases hp

/-- New terms go to the register and to the leaves. -/
theorem protect (ht : σ.tasks pid = some t) {start stop : ℕ} {terms : VmaProtection}
    (hstart : start % kSize = 0) (hstop : stop % kSize = 0) (hlt : start < stop)
    (hend : stop ≤ kUserTop) (hs : s.StoreOk tidy σ.lens)
    (hview : ∀ a, s.view a = (t.vmas.view a).map fun p =>
      if start ≤ a ∧ a < stop then { p with terms := terms } else p) :
    Sane hw boot tidy { σ.setVmas pid t s with
      mem := σ.mem.setTable pid
        ((Memory.spots start (stop - start)).foldl (protectSpot terms) (σ.mem.tables pid)) } := by
  obtain ⟨use, hgood⟩ := h.good
  refine h.restore ht hs ⟨use, hgood.protect _ _ (fun q hq => update_of_ne hq _ _)
    (fun k p hin hprom => ?_) (fun k p hp hout hprom => ?_)⟩ rfl rfl
  · rw [promised_of_task ht] at hprom
    obtain ⟨spot, hspot, rfl⟩ := hin
    obtain ⟨e1, e2, e3, -⟩ :=
      of_mem_spots hstart (by simp only [kSize] at *; omega) (by omega) hspot
    rw [update_self, hview, hprom, Option.map_some, if_pos (by omega)]
  · rw [promised_of_task ht] at hprom
    rw [update_self, hview, hprom, Option.map_some, if_neg]
    rintro ⟨e1, e2⟩
    have hn := hgood.page_lt hp
    have hlt' : k * kSize < start + (stop - start) := by omega
    obtain ⟨spot, hspot, hk⟩ := mem_spots hstart (by simp only [kUserPages] at hn; omega) e1 hlt'
    exact hout ⟨spot, hspot, hk.symm⟩

/-- A page list is made under the next number, in full or in part. -/
theorem frames {count identity : ℕ} {made : Bool} {w : Memory}
    {segments : List (Option Segment)}
    (hmade : allocateFrames σ.nextPages count σ.mem = .ok (made, w))
    (hseg : ∀ s, some s ∈ segments → some s ∈ σ.segments ∨
      s.pages = σ.nextPages ∧ made = true ∧ 0 < count) :
    Sane hw boot tidy { σ with
      mem := w, nextPages := σ.nextPages + 1, nextIdentity := identity, segments := segments } := by
  obtain ⟨use, hgood⟩ := h.good
  obtain ⟨hgood', hroots, -, hpages, hcount⟩ := hgood.allocateFrames hmade
  have hold : ∀ p, 0 < σ.lens p → w.pages p = σ.mem.pages p := by
    intro p hp
    have := h.born_of_live hp
    exact hpages p (by omega)
  refine h.sameTasks rfl rfl hgood' hroots (fun q t hq r hr a ha => ?_) (fun p hp => ?_)
    (fun s hs => ?_)
  · show (w.pages a.pages).length = _
    rw [hold _ ((h.stores q t hq).attached r hr a ha).live]
    rfl
  · have hp' : σ.nextPages + 1 ≤ p := hp
    rw [hpages p (by omega)]
    exact h.unborn p (by omega)
  · show 0 < (w.pages s.pages).length
    rcases hseg s hs with hs | ⟨hs, hm, hc⟩
    · rw [hold _ (h.segments s hs)]
      exact h.segments s hs
    · rw [hs, hcount hm]
      omega

/-- No call breaks the invariant. -/
theorem callStep (ht : σ.tasks pid = some t) {call : Call}
    (hstep : CallStep hw tidy σ pid t call σ') : Sane hw boot tidy σ' := by
  cases hstep with
  | same => exact h
  | keep hs hview =>
    obtain ⟨use, hgood⟩ := h.good
    refine h.restore ht hs ⟨use, hgood.reregister fun n p _ hprom => ?_⟩ rfl rfl
    rw [promised_of_task ht] at hprom
    exact hview _ p hprom
  | withdraw hstart _ _ hs hview => exact h.withdraw ht hstart hs hview
  | protect hstart hstop hlt hend hs hview => exact h.protect ht hstart hstop hlt hend hs hview
  | frames hmade hseg => exact h.frames hmade hseg
  | remove hseg =>
    exact h.sameTasks rfl rfl h.good rfl (fun _ _ _ _ _ _ _ => rfl) h.unborn
      fun s hs => h.segments s (hseg s hs)

end

end Sane

end System

end Cinux
