/-
The share counts of a running system.

The ledger counts names; here the count is compared with what a reader of the
page tables would count himself: the leaves that name a frame, those of them that
are marked copy-on-write, and the segments.

* `System.frame_accounting` — after every run the count of a private frame is the
  number of its marked leaves, the count of a segment's frame is one more than
  the number of its leaves, a private frame with two leaves is written through
  none, and frames are taken and returned once, when the first name comes and
  when the last one goes.
-/
import Cinux.SystemRuns

namespace Cinux

open Ledger Machine

namespace System

/-- The leaves that name a frame, as pairs of a space and a page. -/
def leaves (σ : System) (f : ℕ) : Set (ℕ × ℕ) :=
  {x | (σ.mem.tables x.1 0 x.2).present = true ∧ (σ.mem.tables x.1 0 x.2).frame = f}

/-- Those of them marked copy-on-write. -/
def cowLeaves (σ : System) (f : ℕ) : Set (ℕ × ℕ) :=
  {x ∈ σ.leaves f | (σ.mem.tables x.1 0 x.2).cow = true}

/-- The frame backs private memory: a leaf names it in a region that is neither a
device nor an attachment. -/
def BacksPrivate (σ : System) (f : ℕ) : Prop :=
  ∃ pid n t r, (pid, n) ∈ σ.leaves f ∧ σ.tasks pid = some t ∧ t.vmas.find (n * kSize) = some r ∧
    r.kind ≠ .device ∧ r.shared = none

/-- The frame belongs to a shared segment that is alive. -/
def InSegment (σ : System) (f : ℕ) : Prop := ∃ p, f ∈ σ.mem.pages p

/-- The frame is one of the kernel's own: a root, a table of a user half, a table of
the kernel half, or a page of the kernel heap. -/
def KernelOwn (σ : System) (f : ℕ) : Prop :=
  (∃ pid, σ.mem.roots pid = some f) ∨
  (∃ pid level p, 1 ≤ level ∧ level ≤ 3 ∧ (σ.mem.tables pid level p).present = true ∧
    (σ.mem.tables pid level p).frame = f) ∨
  ∃ level p, (σ.mem.kernel level p).NamesFrame level ∧ (σ.mem.kernel level p).frame = f

/-- Something still refers to the frame. -/
def Referred (σ : System) (f : ℕ) : Prop :=
  (σ.leaves f).Nonempty ∨ σ.InSegment f ∨ σ.KernelOwn f

variable {hw : Hardware} {boot : ℕ → Bool} {tidy : Prop} {σ σ' : System} {f : ℕ}
  {promised : ℕ → ℕ → Option Promise} {use : ℕ → Use}

/-! ### Names and leaves -/

theorem entryName_some {level : ℕ} {e : Entry} {k : Mark} (h : entryName level e = some (f, k)) :
    e.present = true ∧ e.frame = f ∧
      k = if level = 0 then if e.cow then .cow else .plain else .own := by
  unfold entryName at h
  split at h
  · rename_i hp
    obtain ⟨hf, hk⟩ := Prod.mk.inj (Option.some.inj h)
    exact ⟨hp, hf, hk.symm⟩
  · nomatch h

/-- A leaf is what names a frame plainly or with a mark. -/
theorem names_of_leaf {w : Memory} {r : Ref} {k : Mark} (hk : k = .plain ∨ k = .cow) :
    w.names r = some (f, k) ↔ ∃ x : ℕ × ℕ, r = .node x.1 0 x.2 ∧
      (w.tables x.1 0 x.2).present = true ∧ (w.tables x.1 0 x.2).frame = f ∧
      k = if (w.tables x.1 0 x.2).cow then .cow else .plain := by
  constructor
  · intro hr
    cases r with
    | root pid =>
      obtain ⟨g, -, hg⟩ := Option.map_eq_some_iff.mp hr
      obtain ⟨⟩ := hg
      nomatch hk
    | pool p i =>
      obtain ⟨g, -, hg⟩ := Option.map_eq_some_iff.mp hr
      obtain ⟨⟩ := hg
      nomatch hk
    | kernel level p =>
      obtain ⟨-, -, rfl⟩ := Memory.names_kernel.mp hr
      nomatch hk
    | node pid level p =>
      have hr' : (if level ≤ 3 then entryName level (w.tables pid level p) else none)
          = some (f, k) := hr
      split at hr'
      · obtain ⟨hp, hf, rfl⟩ := entryName_some hr'
        by_cases hl : level = 0
        · subst hl
          exact ⟨(pid, p), rfl, hp, hf, rfl⟩
        · -- above the leaves a table is named as its own
          rw [if_neg hl] at hk
          nomatch hk
      · nomatch hr'
  · rintro ⟨x, rfl, hp, rfl, rfl⟩
    exact w.names_leaf hp

section

variable (σ : System) (f : ℕ)

theorem tally_leaves {k : Mark} (hk : k = .plain ∨ k = .cow) :
    (⟨σ.mem.pmm.used, σ.mem.pmm.shares, σ.mem.names⟩ : Book Ref ℕ).tally f k
      = {x ∈ σ.leaves f | k = if (σ.mem.tables x.1 0 x.2).cow then .cow else .plain}.ncard := by
  have himg : {r | σ.mem.names r = some (f, k)} = (fun x : ℕ × ℕ => Ref.node x.1 0 x.2) ''
      {x ∈ σ.leaves f | k = if (σ.mem.tables x.1 0 x.2).cow then .cow else .plain} := by
    ext r
    constructor
    · intro hr
      obtain ⟨x, rfl, hp, hf, hm⟩ := (names_of_leaf hk).mp hr
      exact ⟨x, ⟨⟨hp, hf⟩, hm⟩, rfl⟩
    · rintro ⟨x, ⟨⟨hp, hf⟩, hm⟩, rfl⟩
      exact (names_of_leaf hk).mpr ⟨x, rfl, hp, hf, hm⟩
  show Set.ncard _ = _
  rw [himg]
  refine Set.ncard_image_of_injective _ fun x y hxy => ?_
  simp only [Ref.node.injEq] at hxy
  exact Prod.ext hxy.1 hxy.2.2

theorem tally_cow :
    (⟨σ.mem.pmm.used, σ.mem.pmm.shares, σ.mem.names⟩ : Book Ref ℕ).tally f .cow
      = (σ.cowLeaves f).ncard := by
  rw [tally_leaves σ f (.inr rfl)]
  congr 1
  ext x
  refine and_congr_right fun _ => ?_
  split <;> simp_all

/-- A frame without marked leaves has as many leaves as plain names. -/
theorem tally_plain (hcow : ∀ x ∈ σ.leaves f,
      (σ.mem.tables x.1 0 x.2).cow = false) :
    (⟨σ.mem.pmm.used, σ.mem.pmm.shares, σ.mem.names⟩ : Book Ref ℕ).tally f .plain
      = (σ.leaves f).ncard := by
  rw [tally_leaves σ f (.inl rfl)]
  congr 1
  ext x
  simp only [Set.mem_ofPred_eq, and_iff_left_iff_imp]
  intro hx
  rw [hcow x hx]
  rfl

end

theorem leaves_finite (h : Good hw boot promised none use σ.mem) (f : ℕ) : (σ.leaves f).Finite := by
  refine Set.Finite.of_finite_image (f := fun x : ℕ × ℕ => Ref.node x.1 0 x.2)
    (h.kept.lawful.finite.subset ?_) fun x _ y _ hxy => ?_
  · rintro r ⟨x, hx, rfl⟩
    have hname : σ.mem.names (.node x.1 0 x.2) ≠ none := by
      rw [σ.mem.names_leaf hx.1]
      simp
    exact hname
  · simp only [Ref.node.injEq] at hxy
    exact Prod.ext hxy.1 hxy.2.2

/-! ### What the invariant says of a frame -/

theorem use_of_private (h : Good hw boot σ.promised none use σ.mem) (hf : σ.BacksPrivate f) :
    use f = .priv := by
  obtain ⟨pid, n, t, r, ⟨hp, rfl⟩, ht, hr, hkind, hshared⟩ := hf
  obtain ⟨⟨p, hprom, hok⟩, -⟩ := h.leaves pid n hp
  rw [promised_of_task ht, VmaStore.view, hr] at hprom
  obtain ⟨⟩ := hprom
  exact hok.priv hkind hshared

/-- The count of a private frame is the number of its marked leaves; an unmarked
leaf is its only one. -/
theorem private_shares (h : Good hw boot promised none use σ.mem) (hf : use f = .priv) :
    σ.mem.pmm.shares f = (σ.cowLeaves f).ncard ∧
    (∀ x ∈ σ.leaves f, (σ.mem.tables x.1 0 x.2).cow = false →
      σ.leaves f = {x} ∧ σ.mem.pmm.shares f = 0) ∧
    ∀ x ∈ σ.leaves f, ∀ y ∈ σ.leaves f, x ≠ y → (σ.mem.tables x.1 0 x.2).writable = false := by
  have hallows := h.kept.lawful.allows f
  rw [hf] at hallows
  simp only [Use.Allows, Book.standing] at hallows
  have hcow := tally_cow σ f
  have hshares : σ.mem.pmm.shares f = (σ.cowLeaves f).ncard := by omega
  -- an unmarked leaf is alone
  have halone : ∀ x ∈ σ.leaves f, (σ.mem.tables x.1 0 x.2).cow = false →
      ∀ y ∈ σ.leaves f, y = x := by
    rintro x ⟨hx, hxf⟩ hxcow y ⟨hy, hyf⟩
    have hname := σ.mem.names_leaf hx
    have hname' := σ.mem.names_leaf hy
    rw [hxcow, hxf] at hname
    rw [hyf] at hname'
    have hsame : Ref.node y.1 0 y.2 = Ref.node x.1 0 x.2 :=
      h.kept.lawful.plain_alone hf hname hname'
    simp only [Ref.node.injEq] at hsame
    exact Prod.ext hsame.1 hsame.2.2
  refine ⟨hshares, fun x hx hxcow => ?_, fun x hx y hy hne => ?_⟩
  · have hsingle : σ.leaves f = {x} := Set.eq_singleton_iff_unique_mem.mpr ⟨hx, halone x hx hxcow⟩
    refine ⟨hsingle, ?_⟩
    have hempty : σ.cowLeaves f = ∅ := by
      refine Set.eq_empty_iff_forall_notMem.mpr fun y hy => ?_
      obtain ⟨hy, hycow⟩ := hy
      rw [halone x hx hxcow y hy, hxcow] at hycow
      cases hycow
    rw [hshares, hempty, Set.ncard_empty]
  · -- a writable leaf would be unmarked
    by_contra hwrite
    obtain ⟨⟨p, -, hok⟩, -⟩ := h.leaves x.1 x.2 hx.1
    have hxcow : (σ.mem.tables x.1 0 x.2).cow = false := by
      by_contra hc
      exact hwrite (hok.marked (by simpa using hc))
    exact hne (halone x hx hxcow y hy).symm

/-- The count of a segment's frame is one more than the number of its leaves. -/
theorem segment_shares (h : Good hw boot promised none use σ.mem) (hf : σ.InSegment f) :
    σ.mem.pmm.shares f = 1 + (σ.leaves f).ncard := by
  obtain ⟨p, hp⟩ := hf
  obtain ⟨i, hi⟩ := List.mem_iff_getElem?.mp hp
  have hname : σ.mem.names (.pool p i) = some (f, .pool) := by
    show (σ.mem.pages p)[i]?.map _ = _
    rw [hi]
    rfl
  have huse := h.kept.use_of_pool hname
  have hpool := h.kept.lawful.finite.tally_pos (r := .pool p i) hname
  have hallows := h.kept.lawful.allows f
  rw [huse] at hallows
  simp only [Use.Allows, Book.standing] at hallows
  have hcow : ∀ x ∈ σ.leaves f, (σ.mem.tables x.1 0 x.2).cow = false := by
    intro x hx
    by_contra hc
    have hname' := σ.mem.names_leaf hx.1
    rw [if_pos (by simpa using hc), hx.2] at hname'
    have := h.kept.use_of_cow hname'
    rw [huse] at this
    cases this
  have hplain := tally_plain σ f hcow
  omega

/-- What refers to a frame is what names it. -/
theorem referred_iff : σ.Referred f ↔ ∃ r k, σ.mem.names r = some (f, k) := by
  constructor
  · rintro (⟨x, hx, rfl⟩ | ⟨p, hp⟩ | ⟨pid, hr⟩ | ⟨pid, level, p, h1, h3, hp, rfl⟩ | ⟨level, p, hk⟩)
    · exact ⟨_, _, σ.mem.names_leaf hx⟩
    · obtain ⟨i, hi⟩ := List.mem_iff_getElem?.mp hp
      refine ⟨.pool p i, .pool, ?_⟩
      show (σ.mem.pages p)[i]?.map _ = _
      rw [hi]
      rfl
    · refine ⟨.root pid, .own, ?_⟩
      show (σ.mem.roots pid).map _ = _
      rw [hr]
      rfl
    · refine ⟨.node pid level p, .own, ?_⟩
      show (if level ≤ 3 then entryName level (σ.mem.tables pid level p) else none) = _
      rw [if_pos h3, entryName_table hp (by omega)]
    · exact ⟨.kernel level p, .own, Memory.names_kernel.mpr ⟨hk.1, hk.2, rfl⟩⟩
  · rintro ⟨r, k, hr⟩
    cases r with
    | root pid =>
      obtain ⟨g, hg, he⟩ := Option.map_eq_some_iff.mp hr
      obtain ⟨⟩ := he
      exact .inr (.inr (.inl ⟨pid, hg⟩))
    | pool p i =>
      obtain ⟨g, hg, he⟩ := Option.map_eq_some_iff.mp hr
      obtain ⟨⟩ := he
      exact .inr (.inl ⟨p, List.mem_of_getElem? hg⟩)
    | kernel level p =>
      obtain ⟨hp, hf, -⟩ := Memory.names_kernel.mp hr
      exact .inr (.inr (.inr (.inr ⟨level, p, hp, hf⟩)))
    | node pid level p =>
      have hr' : (if level ≤ 3 then entryName level (σ.mem.tables pid level p) else none)
          = some (f, k) := hr
      split at hr'
      · rename_i hl
        obtain ⟨hp, hf, -⟩ := entryName_some hr'
        by_cases h0 : level = 0
        · subst h0
          exact .inl ⟨(pid, p), hp, hf⟩
        · exact .inr (.inr (.inr (.inl ⟨pid, level, p, by omega, hl, hp, hf⟩)))
      · nomatch hr'

section

variable (h : Good hw boot promised none use σ.mem) (hhw : hw.isHardwarePage f = false)
include h hhw

/-- What refers to a frame keeps it from being handed out again. -/
theorem used_of_referred (hf : σ.Referred f) : σ.mem.pmm.used f = true := by
  obtain ⟨r, k, hr⟩ := referred_iff.mp hf
  exact h.kept.used_of_named hr hhw

/-- A frame that is out since boot is referred to. -/
theorem referred_of_used (hu : σ.mem.pmm.used f = true) : boot f = true ∨ σ.Referred f := by
  by_cases hheld : use f = .held
  · exact .inl ((h.kept.spare f hheld).resolve_right (by simp))
  refine .inr (referred_iff.mpr (h.kept.lawful.named (fun hid => ?_) hheld fun hfor => ?_))
  · have hallows := h.kept.lawful.allows f
    rw [hid] at hallows
    have : σ.mem.pmm.used f = false := hallows.1
    rw [hu] at this
    nomatch this
  · rw [(h.kept.foreign f).mp hfor] at hhw
    nomatch hhw

end

/-! ### Every run -/

/-- After every run that no assertion stopped: the count of a private frame is the
number of its marked leaves, and zero for an unmarked leaf, which is alone; the
count of a segment's frame is one plus the number of its leaves; a private frame
with two leaves is written through none; a frame is out exactly while something
refers to it, boot frames apart, so that a step returns it exactly when the last
reference goes; and no frame is taken or returned twice in a row. -/
theorem frame_accounting (b : Machine) (ops : List Op) (σ : System)
    (hrun : b.boot.run b.hw ops = .ok σ) :
    (∀ f, (σ.leaves f).Finite) ∧
    (∀ f, σ.BacksPrivate f → σ.mem.pmm.shares f = (σ.cowLeaves f).ncard ∧
      (∀ x ∈ σ.leaves f, (σ.mem.tables x.1 0 x.2).cow = false →
        σ.leaves f = {x} ∧ σ.mem.pmm.shares f = 0) ∧
      ∀ x ∈ σ.leaves f, ∀ y ∈ σ.leaves f, x ≠ y →
        (σ.mem.tables x.1 0 x.2).writable = false) ∧
    (∀ f, σ.InSegment f → σ.mem.pmm.shares f = 1 + (σ.leaves f).ncard) ∧
    (∀ f, b.hw.isHardwarePage f = false → σ.Referred f → σ.mem.pmm.used f = true) ∧
    (∀ op answer σ', σ.step b.hw op = .ok (answer, σ') → ∀ f, b.used f = false →
      b.hw.isHardwarePage f = false →
      (σ.mem.pmm.used f = true ∧ σ'.mem.pmm.used f = false ↔ σ.Referred f ∧ ¬ σ'.Referred f)) ∧
    Pmm.Replays b.used σ.mem.pmm.log σ.mem.pmm.used := by
  have hsane := b.sane_run False (fun h => h.elim) hrun
  obtain ⟨use, hgood⟩ := hsane.good
  refine ⟨leaves_finite hgood, fun f hf => private_shares hgood (use_of_private hgood hf),
    fun f hf => segment_shares hgood hf, fun f hhw hf => used_of_referred hgood hhw hf,
    fun op answer σ' hstep f hboot hhw => ?_, hgood.kept.replays⟩
  obtain ⟨use', hgood'⟩ := (hsane.step (fun h => h.elim) hstep).good
  -- a frame that was clear at boot is out exactly while it is referred to
  have hout : ∀ {τ : System} {u : ℕ → Use}, Good b.hw b.used τ.promised none u τ.mem →
      (τ.mem.pmm.used f = true ↔ τ.Referred f) := by
    intro τ u hg
    refine ⟨fun hused => (referred_of_used hg hhw hused).resolve_left ?_,
      fun hf => used_of_referred hg hhw hf⟩
    rw [hboot]
    simp
  rw [hout hgood, ← hout hgood', Bool.not_eq_true]

/-- A task writes to its heap, attaches a one-page segment, reads it, and forks. -/
def forkedPages : List Op :=
  [.spawn bare, .call 0 (.brk 0x401000) [], .store 0 0x400010 7 none,
    .call 0 (.shmget 5 4096 0x3ff) [], .call 0 (.shmat 1 0x10000 0) [], .load 0 0x10000 none,
    .fork 0 [] false]

/-- Then the heap page is marked in both spaces, and the page of the segment has
two leaves. -/
theorem frame_accounting_forked :
    ∃ σ, small.boot.run small.hw forkedPages = .ok σ ∧
      σ.BacksPrivate 3 ∧ σ.mem.pmm.shares 3 = 2 ∧ (σ.cowLeaves 3).ncard = 2 ∧
      σ.InSegment 7 ∧ σ.mem.pmm.shares 7 = 3 ∧ (σ.leaves 7).ncard = 2 := by
  obtain ⟨σ, hrun, hleaf, ⟨t, ht, r, hr, hkind⟩, hthree, hpool, hseven⟩ :
      ∃ σ, small.boot.run small.hw forkedPages = .ok σ ∧
        ((σ.mem.tables 0 0 0x400).present = true ∧ (σ.mem.tables 0 0 0x400).frame = 3) ∧
        (∃ t, σ.tasks 0 = some t ∧ ∃ r, t.vmas.find (0x400 * kSize) = some r ∧
          r.kind ≠ .device ∧ r.shared = none) ∧
        σ.mem.pmm.shares 3 = 2 ∧ 7 ∈ σ.mem.pages 0 ∧ σ.mem.pmm.shares 7 = 3 := by
    decide +kernel
  obtain ⟨-, hpriv, hseg, -⟩ := frame_accounting small forkedPages σ hrun
  have hback : σ.BacksPrivate 3 := ⟨0, 0x400, t, r, hleaf, ht, hr, hkind⟩
  have hcow := (hpriv 3 hback).1
  have hall := hseg 7 ⟨0, hpool⟩
  exact ⟨σ, hrun, hback, hthree, by omega, ⟨0, hpool⟩, hseven, by omega⟩

/-- In every state a run reaches, a frame that holds a root, a table of a user half or of the
kernel half, or a page of the kernel heap has this one name: no leaf of any space and no segment
is on it, and it is not handed out. -/
theorem kernel_frames_apart (b : Machine) (ops : List Op) (σ : System)
    (hrun : b.boot.run b.hw ops = .ok σ) {r : Ref} (hr : σ.mem.names r = some (f, .own)) :
    (∀ r' k, σ.mem.names r' = some (f, k) → r' = r) ∧ σ.leaves f = ∅ ∧ ¬ σ.InSegment f ∧
      σ.mem.pmm.used f = true ∧ b.hw.isHardwarePage f = false := by
  obtain ⟨use, hgood⟩ := (b.sane_run False (fun h => h.elim) hrun).good
  have halone : ∀ r' k, σ.mem.names r' = some (f, k) → k = .own ∧ r' = r := fun _ _ =>
    hgood.kept.lawful.own_alone hr
  have hhw : b.hw.isHardwarePage f = false := by
    rw [← Bool.not_eq_true, ← hgood.kept.foreign, hgood.kept.use_of_own hr]
    simp
  refine ⟨fun r' k h => (halone r' k h).2, Set.eq_empty_iff_forall_notMem.mpr ?_, ?_,
    hgood.kept.used_of_named hr hhw, hhw⟩
  · rintro x ⟨hp, rfl⟩
    have hown := (halone _ _ (σ.mem.names_leaf hp)).1
    split at hown <;> cases hown
  · rintro ⟨p, hp⟩
    obtain ⟨i, hi⟩ := List.mem_iff_getElem?.mp hp
    have hpool : σ.mem.names (.pool p i) = some (f, .pool) := by
      rw [Memory.names, hi, Option.map_some]
    cases (halone _ _ hpool).1

/-- The root of the parent and the table that every root names for the kernel heap, after the
fork. -/
theorem forked_root_apart : ∃ σ, small.boot.run small.hw forkedPages = .ok σ ∧
    σ.mem.names (.root 0) = some (2, .own) ∧ σ.leaves 2 = ∅ ∧
    σ.mem.names (.kernel 3 (path (pageOf kHeapFirst) 3)) = some (1023, .own) ∧
    σ.leaves 1023 = ∅ := by
  obtain ⟨σ, hrun, hroot, htable⟩ : ∃ σ, small.boot.run small.hw forkedPages = .ok σ ∧
      σ.mem.names (.root 0) = some (2, .own) ∧
      σ.mem.names (.kernel 3 (path (pageOf kHeapFirst) 3)) = some (1023, .own) := by
    decide +kernel
  exact ⟨σ, hrun, hroot, (kernel_frames_apart small forkedPages σ hrun hroot).2.1, htable,
    (kernel_frames_apart small forkedPages σ hrun htable).2.1⟩

/-! ### When everybody has left -/

/-- Page lists that nobody holds are gone. -/
def Reaped (b : Machine) (σ : System) : Prop :=
  σ.Sane b.hw b.used False ∧ ∀ p, σ.pagesHeld p = false → σ.mem.pages p = []

theorem reaped_run (b : Machine) {ops : List Op} (hrun : b.boot.run b.hw ops = .ok σ) :
    Reaped b σ := by
  have hreap : ∀ {σ : System}, σ.Sane b.hw b.used False → Reaped b (σ.reap b.hw) := by
    intro σ h
    refine ⟨h.reap, fun p hp => ?_⟩
    by_cases hlt : p < σ.nextPages
    · refine (retire_pages b.hw p _ σ.mem).trans (if_pos ?_)
      rw [List.mem_filter, List.mem_range]
      exact ⟨hlt, congrArg not hp⟩
    · exact h.reap.unborn p (not_lt.mp hlt)
  refine run_induct (I := Reaped b) (fun σ op answer σ' h hc hstep => ?_) ops
    ⟨b.sane False, fun _ _ => rfl⟩ (Along.imp (c := Agrees) ops False.elim) hrun
  rcases step_ok hstep with ⟨image, value, σ₁, -, -, hspawn, rfl⟩ | ⟨-, -, rfl⟩ |
    ⟨t, σ₁, ht, hact, rfl⟩
  · exact hreap (h.1.spawnTask hspawn)
  · exact h
  · exact hreap (h.1.act ht hc hact)

/-- **No frame is lost.**  Where every task has ended and every segment is removed, no frame is out
but those of the boot map and of the kernel heap. -/
theorem frames_return (b : Machine) (ops : List Op) (σ : System)
    (hrun : b.boot.run b.hw ops = .ok σ) (htasks : ∀ pid, σ.tasks pid = none)
    (hsegs : ∀ s, some s ∉ σ.segments) (hf : σ.mem.pmm.used f = true)
    (hhw : b.hw.isHardwarePage f = false) :
    b.used f = true ∨ ∃ n, (σ.mem.kernel 0 n).present = true ∧ (σ.mem.kernel 0 n).frame = f := by
  obtain ⟨hsane, hpages⟩ := reaped_run b hrun
  obtain ⟨use, hgood⟩ := hsane.good
  have hroot : ∀ pid, σ.mem.roots pid = none := fun pid => (hsane.rooted pid).mpr (htasks pid)
  have hblank : ∀ pid, σ.mem.tables pid = PageTable.blank := fun pid =>
    hgood.rootless pid (hroot pid)
  rcases referred_of_used hgood hhw hf with hb | ⟨x, hp, -⟩ | ⟨p, hp⟩ | ⟨pid, hr⟩ |
    ⟨pid, level, p, -, -, hp, -⟩ | ⟨level, p, hk, rfl⟩
  · exact .inl hb
  · rw [hblank] at hp
    cases hp
  · -- nobody is left to hold the list
    rw [hpages p ?_] at hp
    · cases hp
    · rw [pagesHeld, Bool.or_eq_false_iff, List.any_eq_false, List.any_eq_false]
      refine ⟨?_, fun pid _ => by simp [htasks]⟩
      rintro (_ | s) hs
      · simp
      · exact absurd hs (hsegs s)
  · cases (hroot pid).symm.trans hr
  · rw [hblank] at hp
    cases hp
  · -- the tables of the kernel half are those of the boot
    by_cases h0 : level = 0
    · subst h0
      exact .inr ⟨p, hk.1, rfl⟩
    · exact .inl (hgood.kernel.tables level p (by omega) hk)

/-- Then the segment is removed, and both tasks end. -/
def endedPages : List Op := forkedPages ++ [.call 0 (.shmRemove 1) [], .exit 0, .exit 1]

theorem ended_frames_return : ∃ σ, small.boot.run small.hw endedPages = .ok σ ∧
    ∀ f, σ.mem.pmm.used f = true → small.hw.isHardwarePage f = false → small.used f = true ∨
      ∃ n, (σ.mem.kernel 0 n).present = true ∧ (σ.mem.kernel 0 n).frame = f := by
  obtain ⟨σ, hrun, hnext, htasks, hsegs⟩ : ∃ σ, small.boot.run small.hw endedPages = .ok σ ∧
      σ.nextTask = 2 ∧ (∀ pid < 2, (σ.tasks pid).isNone) ∧ ∀ s ∈ σ.segments, s = none := by
    decide +kernel
  refine ⟨σ, hrun, fun f => frames_return small _ σ hrun (fun pid => ?_) fun s hs => ?_⟩
  · by_cases hlt : pid < 2
    · exact Option.isNone_iff_eq_none.mp (htasks pid hlt)
    · exact (small.sane_run False False.elim hrun).fresh pid (by omega)
  · cases hsegs _ hs

end System

end Cinux
