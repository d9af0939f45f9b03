/-
Detaching a segment.

`shmdt` looks up the region at its argument, takes the attachment that region
records and withdraws the span the attachment had when it was made.  The span may
have been carved since: `munmap` takes pages out of it, and `mmap` may put other
regions there.  Those go as well.

* `handleShmdt_zero` — what a granted `shmdt` does;
* `find_of_withdrawn` — a region the stretch does not meet is kept as it is;
* `detach_iff` — over every reachable state, a granted `shmdt` withdraws only what
  belongs to the attachment exactly if nothing else lies in its span.
-/
import Cinux.KernelHalf

namespace Cinux

open Machine

/-- The addresses the processor translates. -/
def Canonical (a : ℕ) : Prop := a < kUserTop ∨ KernelAddress a

namespace VmaStore

variable {s : VmaStore} {start stop a : ℕ} {g : Grants} {r : VmaRegion}

/-- A region the withdrawn stretch does not meet is kept as it is. -/
theorem Sound.find_of_withdrawn (hs : s.Sound)
    (h : (s.unregisterRange start stop g).result = .ok ()) (hf : s.find a = some r)
    (hno : overlapsSpan r start stop = false) :
    (s.unregisterRange start stop g).store.find a = some r := by
  obtain ⟨-, hp⟩ := unregisterRange_ok h
  obtain ⟨hmem, hcov⟩ := hs.find_eq_some.mp hf
  refine (hs.unregisterRange start stop g).find_eq_some.mpr ⟨hp.mem_iff.mpr ?_, hcov⟩
  refine List.mem_flatMap.mpr ⟨r, hmem, ?_⟩
  rw [clip_of_not_overlaps hno]
  exact List.mem_singleton_self r

/-- A region meets a stretch at one of its addresses. -/
theorem Sound.exists_of_overlaps (hs : s.Sound) (hf : s.find a = some r)
    (hmeet : overlapsSpan r start stop = true) (hlt : start < stop) :
    ∃ x, start ≤ x ∧ x < stop ∧ s.find x = some r := by
  obtain ⟨hmem, hcov⟩ := hs.find_eq_some.mp hf
  have hne := hs.tiled.nonempty r hmem
  obtain ⟨h1, h2⟩ := overlapsSpan_iff.mp hmeet
  exact ⟨max r.start start, by omega, by omega,
    hs.find_eq_some.mpr ⟨hmem, le_max_left _ _, max_lt hne h2⟩⟩

end VmaStore

namespace System

variable {hw : Hardware} {boot : ℕ → Bool} {tidy : Prop} {σ σ' : System} {pid : ℕ} {t : Task}
  {g : Grants}

/-- The region registered at an address of a task. -/
def regionAt (σ : System) (pid a : ℕ) : Option VmaRegion := (σ.tasks pid).bind (·.vmas.find a)

/-- The attachment an address of a task belongs to. -/
def attachmentAt (σ : System) (pid a : ℕ) : Option SharedAttachment :=
  (σ.regionAt pid a).bind (·.shared)

/-- Outside the attachment, regions and translations stand. -/
def DetachesOnly (σ σ' : System) (pid : ℕ) (attached : SharedAttachment) : Prop :=
  ∀ a, σ.attachmentAt pid a ≠ some attached →
    σ'.regionAt pid a = σ.regionAt pid a ∧
    (Canonical a → σ'.mem.translate pid a = σ.mem.translate pid a)

/-- Whatever is registered in the span of the attachment belongs to it. -/
def Uncarved (σ : System) (pid : ℕ) (attached : SharedAttachment) : Prop :=
  ∀ a, attached.start ≤ a → a < attached.stop → ∀ r, σ.regionAt pid a = some r →
    r.shared = some attached

theorem regionAt_of_task (ht : σ.tasks pid = some t) (a : ℕ) :
    σ.regionAt pid a = t.vmas.find a := by
  rw [regionAt, ht]
  rfl

theorem regionAt_setVmas (σ : System) (pid : ℕ) (t : Task) (s : VmaStore) (w : Memory) (a : ℕ) :
    regionAt (reap hw { σ.setVmas pid t s with mem := w }) pid a = s.find a := by
  simp [regionAt, reap, setVmas]

theorem errnoFrom_pos (e : KernelError) : 0 < errnoFrom e := by
  cases e <;> decide

/-- A `shmdt` that answers zero withdraws the span the attachment was made with,
from the register and from the tables. -/
theorem handleShmdt_zero (hs : t.vmas.StoreOk tidy σ.lens) {rdi : ℕ}
    (hres : σ.handleShmdt hw pid t rdi g = (0, σ')) :
    ∃ attached, (t.vmas.find rdi).bind (·.shared) = some attached ∧ attached.start = rdi ∧
      (t.vmas.unregisterRange rdi attached.stop g).result = .ok () ∧
      σ' = { σ.setVmas pid t (t.vmas.unregisterRange rdi attached.stop g).store with
        mem := σ.mem.reclaimSpots hw pid rdi (attached.stop - rdi) } := by
  unfold handleShmdt at hres
  split at hres
  · exact absurd (Prod.mk.inj hres).1 (by decide)
  rename_i a ha
  obtain ⟨h1, h2, h3, h4⟩ := attached_span hs ha
  split at hres
  · exact absurd (Prod.mk.inj hres).1 (by decide)
  rename_i hstart
  have hstart : a.start = rdi := by simpa using hstart
  have hby : sub64 a.stop a.start = a.stop - rdi := by omega
  rw [hby] at hres
  split at hres
  · -- an error code is not zero
    rename_i e _ _ _
    have hz := (Prod.mk.inj hres).1
    have hpos := errnoFrom_pos e
    omega
  · rename_i hrec
    obtain ⟨⟩ := hres
    unfold reclaimUserSpan at hrec
    rw [wrap_of_lt (by simp only [kUserTop] at h4; omega),
      show rdi + (a.stop - rdi) = a.stop by omega] at hrec
    dsimp only at hrec
    split at hrec
    · exact absurd (Prod.mk.inj hrec).1 (by simp)
    · rename_i hok
      exact ⟨a, ha, hstart, hok, (Prod.mk.inj (Prod.mk.inj hrec).2).1.symm⟩

/-- The translations after a withdrawal, where no leaf was lost. -/
theorem translate_of_reclaimed (h : Sane hw boot tidy σ) {start bytes a : ℕ}
    (hstart : start % kSize = 0) (hby : bytes % kSize = 0) (hend : start + bytes ≤ kUserTop)
    (ha : Canonical a)
    (hkeep : start ≤ a → a < start + bytes → (σ.mem.tables pid 0 (pageOf a)).present = false) :
    (σ.mem.reclaimSpots hw pid start bytes).translate pid a = σ.mem.translate pid a := by
  obtain ⟨use, hgood⟩ := h.good
  obtain ⟨use', -, hclear⟩ := hgood.reclaim pid (Memory.spots start bytes)
  have hspots : ∀ n, (∃ spot ∈ Memory.spots start bytes, n = pageOf spot) →
      start ≤ n * kSize ∧ n * kSize < start + bytes ∧ n < kUserPages := by
    rintro n ⟨spot, hspot, rfl⟩
    obtain ⟨e1, e2, e3, e4⟩ := of_mem_spots hstart hby hend hspot
    exact ⟨by omega, by omega, e4⟩
  unfold Memory.translate
  rcases ha with ha | ha
  · have hpage : pageOf a = a / kSize ∧ pageOf a < kUserPages := by
      simp only [pageOf, kSize, kUserTop, kUserPages] at *
      omega
    rw [if_pos hpage.2, if_pos hpage.2]
    refine PageTable.translatePage_congr hclear.above ?_
    by_cases hgone : ∃ spot ∈ Memory.spots start bytes, pageOf a = pageOf spot
    · have hin := hspots _ hgone
      refine .inr ⟨hclear.goes _ hgone, hkeep ?_ ?_⟩ <;> simp only [kSize] at * <;> omega
    · exact .inl (hclear.stays _ hgone)
  · have hn : ¬ pageOf a < kUserPages := not_lt.mpr ha.page
    rw [if_neg hn, if_neg hn]
    refine PageTable.translatePage_congr hclear.kernelAbove (.inl (hclear.kernelStays _ ?_))
    rintro ⟨hgone, -⟩
    exact hn (hspots _ hgone).2.2

/-- For every state a run reaches, every task and every `shmdt` that answers
zero: it withdraws only addresses of the attachment that starts at its argument
exactly if nothing else is registered in the span of that attachment. -/
theorem detach_iff (b : Machine) (ops : List Op) (σ : System)
    (hrun : b.boot.run b.hw ops = .ok σ) (pid : ℕ) (t : Task) (ht : σ.tasks pid = some t)
    (rdi : UInt64) (g : Grants) (σ' : System)
    (hstep : σ.step b.hw (.call pid (.shmdt rdi) g) = .ok (.word 0, σ')) :
    ∃ attached, σ.attachmentAt pid rdi.toNat = some attached ∧ attached.start = rdi.toNat ∧
      (DetachesOnly σ σ' pid attached ↔ σ.Uncarved pid attached) := by
  have hsane := b.sane_run False (fun h => h.elim) hrun
  have hs := hsane.stores pid t ht
  obtain ⟨value, σ₁, hvalue, hcall, rfl⟩ := step_call ht hstep
  obtain rfl : (0 : ℤ) = value := Answer.word.inj hvalue
  obtain ⟨attached, hatt, hstart, hok, rfl⟩ := handleShmdt_zero hs (Except.ok.inj hcall)
  obtain ⟨h1, h2, h3, h4⟩ := attached_span hs hatt
  have hlt := (VmaStore.unregisterRange_ok hok).1
  rw [hstart] at h1
  rw [show sub64 attached.stop attached.start = attached.stop - rdi.toNat by omega] at h2
  have hbefore := regionAt_of_task ht
  refine ⟨attached, by rw [attachmentAt, hbefore]; exact hatt, hstart, ?_, ?_⟩
  · -- what lies in the span is gone afterwards
    intro honly a hlow hhigh r hr
    by_contra hne
    have hgone := hs.sound.unregisterRange_view hok a
    rw [if_pos (by omega)] at hgone
    have hkept := (honly a (by rw [attachmentAt, hr]; exact hne)).1
    rw [regionAt_setVmas, hr] at hkept
    rw [VmaStore.view, hkept] at hgone
    cases hgone
  · intro huncarved a hne
    constructor
    · rw [regionAt_setVmas, hbefore]
      cases hf : t.vmas.find a with
      | none =>
        have hview := hs.sound.unregisterRange_view hok a
        rw [VmaStore.view, VmaStore.view, hf] at hview
        simpa using hview
      | some r =>
        refine hs.sound.find_of_withdrawn hok hf ?_
        by_contra hmeet
        obtain ⟨x, hx1, hx2, hx⟩ := hs.sound.exists_of_overlaps hf (by simpa using hmeet) hlt
        refine hne ?_
        rw [attachmentAt, hbefore, hf]
        exact huncarved x (by omega) hx2 r (by rw [hbefore, hx])
    · intro ha
      have hrest := @translate_of_reclaimed b.hw _ _ σ pid hsane _ _ a h1 h2 (by omega) ha ?_
      · rw [reap_rest]
        exact hrest
      · intro hlow hhigh
        by_contra hp
        obtain ⟨use, hgood⟩ := hsane.good
        obtain ⟨r, hr, -⟩ := hsane.region_of_leaf hgood ht (a := a) (by omega) (by simpa using hp)
        refine hne ?_
        rw [attachmentAt, hbefore, hr]
        exact huncarved a (by omega) (by omega) r (by rw [hbefore, hr])

/-- A task attaches a segment of two pages, unmaps the second and maps memory of
its own there, which it uses. -/
def carvedAttachment : List Op :=
  [.spawn bare, .call 0 (.shmget 0 0x2000 0o600) [], .call 0 (.shmat 1 0x10000 0) [],
    .call 0 (.munmap 0x11000 0x1000) [],
    .call 0 (.mmap 0x11000 0x1000 3 0x32 0 (.error .notFound)) [], .store 0 0x11000 7 none]

/-- `shmdt` takes the task's own memory with the attachment. -/
theorem shmdt_takes_anonymous :
    ∃ σ σ' region, small.boot.run small.hw carvedAttachment = .ok σ ∧
      σ.step small.hw (.call 0 (.shmdt 0x10000) []) = .ok (.word 0, σ') ∧
      σ.regionAt 0 0x11000 = some region ∧ region.kind = .anonymous ∧ region.shared = none ∧
      σ.mem.translate 0 0x11000 ≠ 0 ∧
      σ'.regionAt 0 0x11000 = none ∧ σ'.mem.translate 0 0x11000 = 0 := by
  simp only [exists_and_left]
  decide +kernel

/-- A task attaches a segment of one page next to its heap and uses both. -/
def wholeAttachment : List Op :=
  [.spawn bare, .call 0 (.brk 0x401000) [], .store 0 0x400010 7 none,
    .call 0 (.shmget 0 0x1000 0o600) [], .call 0 (.shmat 1 0x3FF000 0) [],
    .store 0 0x3FF000 9 none]

/-- `shmdt` leaves the heap alone. -/
theorem detach_whole_attachment :
    ∃ σ σ', small.boot.run small.hw wholeAttachment = .ok σ ∧
      σ.step small.hw (.call 0 (.shmdt 0x3FF000) []) = .ok (.word 0, σ') ∧
      DetachesOnly σ σ' 0 ⟨0, 0x3FF000, 0x400000⟩ := by
  obtain ⟨σ, hrun, t, ht, r, hfind, hlow, hhigh, hshared, ⟨answer, σ'⟩, hstep, rfl⟩ :
      ∃ σ, small.boot.run small.hw wholeAttachment = .ok σ ∧
        ∃ t, σ.tasks 0 = some t ∧ ∃ r, t.vmas.find 0x3FF000 = some r ∧ r.start = 0x3FF000 ∧
          r.stop = 0x400000 ∧ r.shared = some ⟨0, 0x3FF000, 0x400000⟩ ∧
        ∃ x, σ.step small.hw (.call 0 (.shmdt 0x3FF000) []) = .ok x ∧ x.1 = .word 0 := by
    decide +kernel
  obtain ⟨attached, hatt, -, hiff⟩ := detach_iff _ _ σ hrun 0 t ht _ [] σ' hstep
  have hat : σ.attachmentAt 0 0x3FF000 = some ⟨0, 0x3FF000, 0x400000⟩ := by
    rw [attachmentAt, regionAt_of_task ht, hfind]
    exact hshared
  obtain rfl : attached = ⟨0, 0x3FF000, 0x400000⟩ := Option.mem_unique hatt hat
  refine ⟨σ, σ', hrun, hstep, hiff.mpr fun a h1 h2 r' hr' => ?_⟩
  -- one region covers the whole span
  have hs := (small.sane_run False (fun h => h.elim) hrun).stores 0 t ht
  have hmem := (hs.sound.find_eq_some.mp hfind).1
  have hf : t.vmas.find a = some r :=
    hs.sound.find_eq_some.mpr ⟨hmem, by rw [hlow]; exact h1, by rw [hhigh]; exact h2⟩
  rw [regionAt_of_task ht, hf] at hr'
  rw [← Option.some.inj hr', hshared]

end System

end Cinux
