/-
The kernel half and the calls of user tasks.

Every root shares the kernel half, so whatever a call does there it does to all
tasks.  `mmap`, `mprotect` and `shmat` compare their arguments with the user
limit, `brk` with the split, and `shmdt` withdraws a recorded span; `munmap`
compares its arguments with nothing.  A `munmap` whose rounded span meets a page
of the kernel heap unmaps that page and returns its frame.

* `CallStep.kernel` — no other call touches the kernel half;
* `handleMunmap_mem` — what `munmap` does to memory;
* `kernel_half_iff` — over every reachable state and all words, a call leaves the
  kernel half alone exactly if it is no such `munmap`.
-/
import Cinux.Shares

namespace Cinux

open Ledger Machine Memory

/-- The canonical addresses at or above the user limit. -/
def KernelAddress (a : ℕ) : Prop := 2 ^ 64 - 2 ^ 47 ≤ a ∧ a < 2 ^ 64

theorem KernelAddress.page {a : ℕ} (h : KernelAddress a) : kUserPages ≤ pageOf a := by
  obtain ⟨h1, h2⟩ := h
  simp only [kUserPages, pageOf, kSize]
  omega

variable {n : ℕ}

namespace System

variable {hw : Hardware} {boot : ℕ → Bool} {tidy : Prop} {σ σ' : System} {pid : ℕ} {t : Task}
  {g : Grants} {call : Call}

/-- The kernel half maps the frame with a leaf of its own, and no user half maps
it. -/
def KernelOnly (σ : System) (f : ℕ) : Prop :=
  (∃ n, (σ.mem.kernel 0 n).present = true ∧ (σ.mem.kernel 0 n).frame = f) ∧ σ.leaves f = ∅

/-- The translations of the kernel half stand, and no frame that only the kernel
half maps is freed. -/
def KernelSafe (σ σ' : System) : Prop :=
  (∀ pid a, KernelAddress a → σ'.mem.translate pid a = σ.mem.translate pid a) ∧
  ∀ f, σ.KernelOnly f → σ'.mem.pmm.used f = true

/-- The call is a `munmap` that the register grants and whose rounded span meets
a 4 KiB page mapped in the kernel half. -/
def HitsKernel (σ : System) (t : Task) (g : Grants) : Call → Prop
  | .munmap rdi rsi =>
    alignDown rdi.toNat kSize < alignUp (wrap (rdi.toNat + rsi.toNat)) kSize ∧
    t.vmas.WithdrawGranted (alignDown rdi.toNat kSize)
      (alignUp (wrap (rdi.toNat + rsi.toNat)) kSize) g ∧
    ∃ spot ∈ spots (alignDown rdi.toNat kSize)
        (alignUp (wrap (rdi.toNat + rsi.toNat)) kSize - alignDown rdi.toNat kSize),
      kUserPages ≤ pageOf spot ∧ (σ.mem.kernel 0 (pageOf spot)).present = true
  | _ => False

/-! ### The other calls -/

theorem CallStep.kernel (h : CallStep hw tidy σ pid t call σ') (hsane : Sane hw boot tidy σ)
    (hcall : ∀ rdi rsi, call ≠ .munmap rdi rsi) : σ'.mem.kernel = σ.mem.kernel := by
  cases h with
  | same => rfl
  | keep _ _ => rfl
  | protect _ _ _ _ _ _ => rfl
  | remove _ => rfl
  | frames hmade _ => rw [allocateFrames_rest hmade]
  | @withdraw s start bytes hstart hby hend _ _ =>
    have hend : start + bytes ≤ kUserTop :=
      hend.resolve_right fun ⟨rdi, rsi, he⟩ => hcall rdi rsi he
    obtain ⟨use, hgood⟩ := hsane.good
    obtain ⟨use', -, hclear⟩ := hgood.reclaim pid (spots start bytes)
    funext level p
    cases level with
    | succ level => exact hclear.kernelAbove level p
    | zero =>
      refine hclear.kernelStays p ?_
      rintro ⟨⟨spot, hspot, rfl⟩, hp⟩
      have := (of_mem_spots hstart hby hend hspot).2.2.2
      omega

/-- A leaf of the kernel half that stays keeps its frame from being handed out. -/
theorem used_of_kernel (h : Sane hw boot tidy σ) (hp : (σ.mem.kernel 0 n).present = true) :
    σ.mem.pmm.used (σ.mem.kernel 0 n).frame = true ∧ (σ.mem.kernel 0 n).frame ≠ 0 := by
  obtain ⟨use, hgood⟩ := h.good
  have hname := names_kernel_leaf hp
  refine ⟨hgood.kept.used_of_named hname ?_, hgood.kept.named_ne_zero hname⟩
  by_contra hhw
  have hfor := (hgood.kept.foreign _).mpr (by simpa using hhw)
  rw [hgood.kept.use_of_own hname] at hfor
  nomatch hfor

/-- It is enough that the tables agree, but for leaves that are absent. -/
theorem kernelSafe_of_same (h' : Sane hw boot tidy σ')
    (hup : ∀ level p, σ'.mem.kernel (level + 1) p = σ.mem.kernel (level + 1) p)
    (hleaf : ∀ n, σ'.mem.kernel 0 n = σ.mem.kernel 0 n ∨
      (σ'.mem.kernel 0 n).present = false ∧ (σ.mem.kernel 0 n).present = false) :
    KernelSafe σ σ' := by
  constructor
  · intro pid a ha
    have hn : ¬ pageOf a < kUserPages := not_lt.mpr ha.page
    simp only [Memory.translate, if_neg hn]
    exact PageTable.translatePage_congr hup (hleaf _)
  · rintro f ⟨⟨n, hp, rfl⟩, -⟩
    rcases hleaf n with he | ⟨-, he⟩
    · rw [← he] at hp ⊢
      exact (used_of_kernel h' hp).1
    · rw [hp] at he
      nomatch he

theorem kernelOnly_of_present (h : Sane hw boot tidy σ) (hp : (σ.mem.kernel 0 n).present = true) :
    σ.KernelOnly (σ.mem.kernel 0 n).frame := by
  refine ⟨⟨n, hp, rfl⟩, Set.eq_empty_iff_forall_notMem.mpr ?_⟩
  rintro ⟨pid, k⟩ ⟨hk, hf⟩
  obtain ⟨use, hgood⟩ := h.good
  have hown := hgood.kept.use_of_own (names_kernel_leaf hp)
  rw [← hf] at hown
  -- a user leaf has a frame of another use
  obtain ⟨⟨p, -, hok⟩, -⟩ := hgood.leaves pid k hk
  by_cases hdev : p.kind = .device
  · rw [hok.device hdev] at hown
    nomatch hown
  cases hshared : p.shared with
  | none =>
    rw [hok.priv hdev hshared] at hown
    nomatch hown
  | some a =>
    rw [hok.segment hdev (by rw [hshared]; rfl)] at hown
    nomatch hown

/-! ### `munmap` -/

/-- `munmap` withdraws its rounded span when that is not empty and the register
grants it; otherwise memory stays as it is. -/
theorem handleMunmap_mem (hs : t.vmas.StoreOk tidy σ.lens) {rdi rsi low high : ℕ} {value : ℤ}
    (hlow : alignDown rdi kSize = low) (hhigh : alignUp (wrap (rdi + rsi)) kSize = high)
    (hres : σ.handleMunmap hw pid t rdi rsi g = (value, σ')) :
    ((low < high ∧ t.vmas.WithdrawGranted low high g) ∧
      σ'.mem = σ.mem.reclaimSpots hw pid low (high - low)) ∨
    (¬ (low < high ∧ t.vmas.WithdrawGranted low high g) ∧ σ'.mem = σ.mem) := by
  unfold handleMunmap reclaimUserSpan at hres
  dsimp only at hres
  rw [hlow, hhigh] at hres
  split at hres
  · obtain ⟨⟩ := hres
    exact .inr ⟨fun hc => by omega, rfl⟩
  have hlt64 := alignUp_lt (wrap (rdi + rsi))
  rw [hhigh] at hlt64
  rw [show low + (high - low) = high by omega, wrap_of_lt hlt64] at hres
  rw [← hs.sound.unregisterRange_ok_iff]
  cases hgone : (t.vmas.unregisterRange low high g).result with
  | error e =>
    rw [hgone] at hres
    obtain ⟨⟩ := hres
    exact .inr ⟨by simp, rfl⟩
  | ok _ =>
    rw [hgone] at hres
    obtain ⟨⟩ := hres
    exact .inl ⟨rfl, rfl⟩

/-- A page of the kernel half in a withdrawn span loses its translation. -/
theorem not_kernelSafe_of_gone (h : Sane hw boot tidy σ) (hn : kUserPages ≤ n) (hlt : n < 2 ^ 36)
    (hp : (σ.mem.kernel 0 n).present = true)
    (hup : ∀ level p, σ'.mem.kernel (level + 1) p = σ.mem.kernel (level + 1) p)
    (hgone : (σ'.mem.kernel 0 n).present = false) : ¬ KernelSafe σ σ' := by
  rintro ⟨hsame, -⟩
  -- the page has its canonical address
  obtain ⟨a, ha, rfl⟩ : ∃ a, KernelAddress a ∧ pageOf a = n := by
    refine ⟨n * kSize + (2 ^ 64 - 2 ^ 48), ⟨?_, ?_⟩, ?_⟩ <;>
      simp only [kUserPages, pageOf, kSize] at * <;> omega
  obtain ⟨use, hgood⟩ := h.good
  have hreach := hgood.kernel.closed.reaches hp
  have hreach' : σ'.mem.kernel.Reaches (pageOf a) := by
    intro l h1 h3
    obtain ⟨l, rfl⟩ : ∃ k, l = k + 1 := ⟨l - 1, by omega⟩
    rw [hup]
    exact hreach (l + 1) h1 h3
  have heq := hsame 0 a ha
  simp only [Memory.translate, if_neg (not_lt.mpr hn)] at heq
  rw [PageTable.translatePage_of_absent hreach' hgone,
    hgood.kernel.closed.translatePage_of_present hp] at heq
  -- frame zero is never mapped
  have hne := (used_of_kernel h hp).2
  simp only [kSize] at heq
  omega

/-- For every state a run reaches, every task, every call with all its words and
every pattern of refusals: the call leaves the kernel half alone exactly if it is
not a granted `munmap` whose rounded span meets a page of it. -/
theorem kernel_half_iff (b : Machine) (ops : List Op) (σ : System)
    (hrun : b.boot.run b.hw ops = .ok σ) (pid : ℕ) (t : Task) (ht : σ.tasks pid = some t)
    (call : Call) (g : Grants) (answer : Answer) (σ' : System)
    (hstep : σ.step b.hw (.call pid call g) = .ok (answer, σ')) :
    KernelSafe σ σ' ↔ ¬ HitsKernel σ t g call := by
  have hsane := b.sane_run False (fun h => h.elim) hrun
  have hsane' := hsane.step (fun h => h.elim) hstep
  obtain ⟨value, σ₁, -, hcall, rfl⟩ := step_call ht hstep
  have hs := hsane.stores pid t ht
  have hkernel : (σ₁.reap b.hw).mem.kernel = σ₁.mem.kernel := by rw [reap_rest]
  -- every call but `munmap` leaves the table as it is
  have hother : (∀ rdi rsi, call ≠ .munmap rdi rsi) → KernelSafe σ (σ₁.reap b.hw) := by
    intro hno
    have hsame := (syscall_step hs hsane.segments hcall).kernel hsane hno
    refine kernelSafe_of_same hsane' (fun level p => ?_) fun n => .inl ?_ <;>
      rw [hkernel, hsame]
  cases call with
  | munmap rdi rsi =>
    set low := alignDown rdi.toNat kSize with hlow
    set high := alignUp (wrap (rdi.toNat + rsi.toNat)) kSize with hhigh
    rcases handleMunmap_mem hs hlow.symm hhigh.symm (Except.ok.inj hcall)
      with ⟨⟨hlt, hgrant⟩, hmem⟩ | ⟨hno, hmem⟩
    · -- the span is withdrawn
      obtain ⟨use, hgood⟩ := hsane.good
      obtain ⟨use', -, hclear⟩ := hgood.reclaim pid (spots low (high - low))
      have hk : ∀ level p, (σ₁.reap b.hw).mem.kernel level p
          = (σ.mem.reclaimSpots b.hw pid low (high - low)).kernel level p := by
        intro level p
        rw [hkernel, hmem]
      constructor
      · rintro hsafe ⟨-, -, spot, hspot, hn, hp⟩
        refine not_kernelSafe_of_gone hsane hn (Nat.mod_lt _ (by norm_num)) hp
          (fun level p => ?_) ?_ hsafe
        · rw [hk]
          exact hclear.kernelAbove level p
        · rw [hk]
          exact hclear.kernelGoes _ ⟨spot, hspot, rfl⟩ hn
      · intro hmiss
        refine kernelSafe_of_same hsane' (fun level p => ?_) fun n => ?_
        · rw [hk]
          exact hclear.kernelAbove level p
        · rw [hk]
          by_cases hgone : (∃ spot ∈ spots low (high - low), n = pageOf spot) ∧
              kUserPages ≤ n
          · refine .inr ⟨hclear.kernelGoes n hgone.1 hgone.2, ?_⟩
            by_contra hp
            obtain ⟨⟨spot, hspot, rfl⟩, hn⟩ := hgone
            exact hmiss ⟨hlt, hgrant, spot, hspot, hn, by simpa using hp⟩
          · exact .inl (hclear.kernelStays n hgone)
    · refine ⟨fun _ ⟨h1, h2, _⟩ => hno ⟨h1, h2⟩, fun _ => ?_⟩
      refine kernelSafe_of_same hsane' (fun level p => ?_) fun n => .inl ?_ <;>
        rw [hkernel, hmem]
  | mmap | mprotect | brk | shmget | shmat | shmdt | shmRemove =>
    exact ⟨fun _ hc => hc, fun _ => hother (by simp)⟩

/-- A fresh task unmaps the first page of the kernel heap: the page is gone for
every task, and its frame is free. -/
theorem munmap_frees_kernel_heap :
    ∃ σ σ', small.boot.run small.hw [.spawn bare] = .ok σ ∧
      σ.step small.hw (.call 0 (.munmap 0xFFFF808000001000 0x1000) [])
        = .ok (.word 0, σ') ∧
      σ.mem.translate 0 kHeapFirst = 0x1000 ∧
      σ'.mem.translate 0 kHeapFirst = 0 ∧
      σ.KernelOnly 1 ∧ σ'.mem.pmm.used 1 = false ∧ ¬ KernelSafe σ σ' := by
  obtain ⟨σ, hrun, htrans, hp, hframe, ⟨answer, σ'⟩, hstep, rfl, hgone, hfree⟩ :
      ∃ σ, small.boot.run small.hw [.spawn bare] = .ok σ ∧
        σ.mem.translate 0 kHeapFirst = 0x1000 ∧
        (σ.mem.kernel 0 (pageOf kHeapFirst)).present = true ∧
        (σ.mem.kernel 0 (pageOf kHeapFirst)).frame = 1 ∧
        ∃ x, σ.step small.hw (.call 0 (.munmap 0xFFFF808000001000 0x1000) []) = .ok x ∧
          x.1 = .word 0 ∧ x.2.mem.translate 0 kHeapFirst = 0 ∧ x.2.mem.pmm.used 1 = false := by
    decide +kernel
  have honly := kernelOnly_of_present (small.sane_run False (fun h => h.elim) hrun) hp
  rw [hframe] at honly
  refine ⟨σ, σ', hrun, hstep, htrans, hgone, honly, hfree, fun hsafe => ?_⟩
  have hused := hsafe.2 1 honly
  rw [hfree] at hused
  nomatch hused

/-- A task that unmaps a page of its own heap leaves the kernel half alone. -/
theorem kernel_half_own_page :
    ∃ σ σ', small.boot.run small.hw [.spawn bare,
        .call 0 (.brk 0x401000) [], .store 0 0x400010 7 none] = .ok σ ∧
      σ.step small.hw (.call 0 (.munmap 0x400000 0x1000) []) = .ok (.word 0, σ') ∧
      KernelSafe σ σ' := by
  obtain ⟨σ, hrun, ⟨answer, σ'⟩, hstep, rfl, hsome⟩ :
      ∃ σ, small.boot.run small.hw [.spawn bare,
          .call 0 (.brk 0x401000) [], .store 0 0x400010 7 none] = .ok σ ∧
        ∃ x, σ.step small.hw (.call 0 (.munmap 0x400000 0x1000) []) = .ok x ∧
          x.1 = .word 0 ∧ (σ.tasks 0).isSome := by
    decide +kernel
  obtain ⟨t, ht⟩ := Option.isSome_iff_exists.mp hsome
  refine ⟨σ, σ', hrun, hstep, (kernel_half_iff _ _ σ hrun 0 t ht _ [] _ σ' hstep).mpr ?_⟩
  rintro ⟨-, -, spot, hspot, hn, -⟩
  -- the only page of the span is one of the user half
  have hlist : ∀ spot ∈ spots (alignDown 0x400000 kSize)
      (alignUp (wrap (0x400000 + 0x1000)) kSize - alignDown 0x400000 kSize),
      pageOf spot < kUserPages := by
    decide
  exact absurd hn (not_le.mpr (hlist spot hspot))

end System

end Cinux
