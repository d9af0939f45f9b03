/-
The null guard.

User memory starts at `kUserNullTop`.  `mmap` with a fixed address and `shmat`
compare their start with it; `mmap` without one takes whatever `find_free_spot`
answers.  That search goes down from the ceiling to the highest free stretch, and
if the only stretch long enough reaches below the guard, that is the answer.

* `regions_above_null` — no region starts below the guard, in every run whose
  searches have room above it;
* `mmap_maps_null` — a run that maps page zero.
-/
import Cinux.Filed

namespace Cinux

namespace VmaStore

/-- The region starts at or above the null guard. -/
def AboveNull (r : VmaRegion) : Prop := kUserNullTop ≤ r.start ∧ r.start ≤ r.stop

theorem aboveNull_cuts : Cuts AboveNull := by
  intro start stop r t ⟨hnull, hle⟩ ht
  unfold clip at ht
  split at ht
  · rename_i ho
    rw [overlapsSpan_iff] at ho
    rcases List.mem_append.mp ht with ht | ht
    · obtain ⟨hlow, ht⟩ := List.mem_ite_nil_right.mp ht
      obtain rfl := List.mem_singleton.mp ht
      exact ⟨hnull, le_of_lt hlow⟩
    · obtain ⟨hhi, ht⟩ := List.mem_ite_nil_right.mp ht
      obtain rfl := List.mem_singleton.mp ht
      exact ⟨le_trans hnull (le_of_lt ho.1), le_of_lt hhi⟩
  · obtain rfl := List.mem_singleton.mp ht
    exact ⟨hnull, hle⟩

theorem registerRanges_mem {r : VmaRegion} : ∀ {l : List VmaRegion} {s : VmaStore},
    r ∈ (l.foldl (fun (s : VmaStore) r => (s.registerRange r []).store) s).regions →
    r ∈ s.regions ∨ ∃ spec ∈ l, spec.start < spec.stop ∧ r = born spec := by
  intro l
  induction l with
  | nil => exact fun hr => .inl hr
  | cons spec l ih =>
    intro s hr
    rw [List.foldl_cons] at hr
    rcases ih hr with hr | ⟨spec', hmem, hlt, rfl⟩
    · rcases registerRange_cases s spec [] with ⟨_, _, hstate⟩ | ⟨_, hstate, hlt, _⟩
      · rw [hstate] at hr
        exact .inl hr
      rw [hstate] at hr
      rcases List.mem_append.mp hr with hr | hr
      · exact .inl hr
      · exact .inr ⟨spec, by simp, hlt, List.mem_singleton.mp hr⟩
    · exact .inr ⟨spec', by simp [hmem], hlt, rfl⟩

end VmaStore

namespace System

open Machine
open VmaStore (AboveNull aboveNull_cuts HasGap)

variable {hw : Hardware} {σ σ' : System}

/-- Fresh images start above the guard, and a search finds room above it whenever
it finds room at all. -/
def NullGuarded (σ : System) : Op → Prop
  | .spawn image => (∀ r ∈ image.ranges, kUserNullTop ≤ r.start) ∧ kUserNullTop ≤ image.heapBase
  | .call pid (.mmap _ rsi _ r10 _ _) _ => r10.toNat.testBit 4 = false →
      ∀ t, σ.tasks pid = some t →
        t.vmas.HasGap 0 t.vmas.mmapCeiling (alignUp rsi.toNat kSize) →
        t.vmas.HasGap kUserNullTop t.vmas.mmapCeiling (alignUp rsi.toNat kSize)
  | _ => True

/-- What a call files starts above the guard. -/
theorem files_aboveNull {tidy : Prop} {pid : ℕ} {t : Task} {call : Call} {g : Grants}
    (hs : t.vmas.StoreOk tidy σ.lens) (ht : σ.tasks pid = some t) (hall : t.vmas.All AboveNull)
    (hguard : σ.NullGuarded (.call pid call g)) {r : VmaRegion} (hr : Files σ t call r) :
    AboveNull r := by
  cases hr with
  | fixed hshared hlow hne => exact ⟨hlow, hne⟩
  | free hflag hshared hspot hne =>
    have hcei : t.vmas.mmapCeiling < 2 ^ 64 :=
      lt_of_le_of_lt hs.ceiling.2 (by decide)
    obtain ⟨hle, hfree⟩ := VmaStore.findFreeSpot_free hcei hspot
    obtain ⟨x, hx, hend, hroom⟩ := hguard hflag t ht ⟨r.start, Nat.zero_le _, hle, hfree⟩
    exact ⟨le_trans hx (VmaStore.findFreeSpot_highest hcei hspot hend hroom), hne⟩
  | attach hs hmay hshared hpages hwrite hlow hne => exact ⟨hlow, hne⟩
  | extend hshared hstart hne =>
    rw [← hstart] at hne
    exact ⟨by rw [hstart]; exact le_trans hall.heap.1 hall.heap.2, hne⟩

theorem step_aboveNull {boot : ℕ → Bool} {tidy : Prop} (h : Sane hw boot tidy σ) {op : Op}
    {answer : Answer} (hguard : σ.NullGuarded op)
    (hall : ∀ pid t, σ.tasks pid = some t → t.vmas.All AboveNull)
    (hres : σ.step hw op = .ok (answer, σ')) :
    ∀ pid t, σ'.tasks pid = some t → t.vmas.All AboveNull := by
  refine step_tasks hall ?_ ?_ ?_ hres
  · rintro image rfl
    refine ⟨fun r hr => ?_, hguard.2, le_refl _⟩
    rcases VmaStore.registerRanges_mem hr with hr | ⟨spec, hmem, hlt, rfl⟩
    · nomatch hr
    · rw [AboveNull, born_start, born_stop]
      exact ⟨hguard.1 spec hmem, le_of_lt hlt⟩
  · rintro pid call g t value σ₁ rfl ht hcall
    have hs := h.stores pid t ht
    refine (syscall_ends hs h.segments hcall).filed _ ht ⟨aboveNull_cuts, hall pid t ht,
      fun r hr => files_aboveNull hs ht (hall pid t ht) hguard hr,
      fun stop hstop => ⟨(hall pid t ht).heap.1, hstop⟩, ?_⟩
    rintro rdi rsi rdx - hlt
    refine ⟨fun r hr r' hr' => ⟨?_, ?_⟩, (hall pid t ht).heap⟩
    · exact le_trans ((hall pid t ht).spans hr).1 (VmaStore.recut_within hr').1
    · exact le_of_lt ((VmaStore.recut_tiled hlt (hs.sound.tiled.nonempty r hr)).nonempty r' hr')
  · rintro pid g late t copy g' - ht hcopy
    refine (hall pid t ht).clone hcopy fun r _ hr => ?_
    rw [AboveNull, VmaStore.copyOf, born_start, born_stop]
    exact hr

/-- For every run whose images start above the null guard and whose searches have
room above it whenever they have room: no region of any task starts below the
guard. -/
theorem regions_above_null (b : Machine) (ops : List Op) (σ : System)
    (hguard : Along b.hw NullGuarded b.boot ops) (hrun : b.boot.run b.hw ops = .ok σ)
    (pid : ℕ) (t : Task) (ht : σ.tasks pid = some t) :
    ∀ r ∈ t.vmas.spans, kUserNullTop ≤ r.start := by
  have hboot : ∀ pid t, b.boot.tasks pid = some t → t.vmas.All AboveNull := by
    intro pid t ht
    exact absurd ht (by simp [boot])
  obtain ⟨-, hall⟩ := run_induct (I := fun σ => Sane b.hw b.used False σ ∧
      ∀ pid t, σ.tasks pid = some t → t.vmas.All AboveNull)
    (fun _ _ _ _ h hc hstep => ⟨h.1.step (fun hf => hf.elim) hstep,
      step_aboveNull h.1 hc h.2 hstep⟩) ops ⟨b.sane False, hboot⟩ hguard hrun
  exact fun r hr => ((hall pid t ht).spans hr).1

/-- A task maps everything from its heap up to the ceiling, and then as much as
lies below. -/
def fillToNull : List Op :=
  [.spawn bare,
    .call 0 (.mmap 0 (0x7F8000000000 - 0x400000) 3 0x22 0 (.error .notFound)) [],
    .call 0 (.mmap 0 0x400000 3 0x22 0 (.error .notFound)) []]

/-- The second mapping starts at address zero. -/
theorem mmap_maps_null :
    ∃ σ t, small.boot.run small.hw fillToNull = .ok σ ∧ σ.tasks 0 = some t ∧
      ∃ r ∈ t.vmas.spans, r.start = 0 ∧ r.writable = true := by
  simp only [exists_and_left]
  decide +kernel

/-- A task maps one page wherever there is room. -/
def mapOnePage : List Op :=
  [.spawn bare, .call 0 (.mmap 0 0x1000 3 0x22 0 (.error .notFound)) []]

/-- Its page lies above the guard. -/
theorem regions_above_null_one_page :
    ∃ σ t, small.boot.run small.hw mapOnePage = .ok σ ∧ σ.tasks 0 = some t ∧
      t.vmas.spans ≠ [] ∧ ∀ r ∈ t.vmas.spans, kUserNullTop ≤ r.start := by
  obtain ⟨σ, hrun, t, ht, hne⟩ :
      ∃ σ, small.boot.run small.hw mapOnePage = .ok σ ∧
        ∃ t, σ.tasks 0 = some t ∧ t.vmas.spans ≠ [] := by
    decide +kernel
  obtain ⟨σ₂, hrun₂, t₂, ht₂, hregions, hheap, hceiling⟩ :
      ∃ σ, small.boot.run small.hw (mapOnePage.take 1) = .ok σ ∧
        ∃ t, σ.tasks 0 = some t ∧ t.vmas.regions = [] ∧ t.vmas.heap.stop = 0x400000 ∧
          t.vmas.mmapCeiling = kUserMmapTop := by
    decide +kernel
  have hguard : Along small.hw NullGuarded small.boot mapOnePage := by
    refine ⟨⟨by simp [bare], by decide⟩, fun _ σ₁ h₁ => ⟨fun _ t₁ ht₁ _ => ?_,
      fun _ _ _ => trivial⟩⟩
    have hsame : small.boot.run small.hw (mapOnePage.take 1) = .ok σ₁ := by
      simp only [mapOnePage, List.take, run, h₁]
    obtain rfl : σ₂ = σ₁ := Except.ok.inj (hrun₂.symm.trans hsame)
    obtain rfl := Option.mem_unique ht₂ ht₁
    -- the highest page below the ceiling
    refine ⟨kUserMmapTop - 0x1000, by decide, by rw [hceiling]; decide, fun _ => ?_, ?_⟩
    · rw [hheap]
      exact fun hc => absurd hc.2 (by decide)
    · rw [hregions]
      simp
  exact ⟨σ, t, hrun, ht, hne,
    regions_above_null small mapOnePage σ hguard hrun 0 t ht⟩

end System

end Cinux
