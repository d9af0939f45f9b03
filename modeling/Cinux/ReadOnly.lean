/-
Segments attached for reading.

`shmat` asks the mode of a segment once; what it found is from then on the
writable term of the region, and `mprotect` rewrites that term without asking
again.

* `Barred` — no task that may not write a segment has it in a writable region;
* `Barred.step` — kept by every step that asks for writing only where the
  segment allows it (`WriteKept`);
* `readonly_segment_stays` — over such runs, a task that may not write a segment
  holds no writable leaf on its frames;
* `mprotect_grants_write` — a run in which `mprotect` makes one.
-/
import Cinux.Wired

namespace Cinux

open Ledger Machine List

/-- The region is not a writable attachment of the page list. -/
def VmaStore.ReadOnlyOn (p : ℕ) (r : VmaRegion) : Prop :=
  ∀ a, r.shared = some a → a.pages = p → r.writable = false

namespace VmaStore

variable {p : ℕ}

theorem readOnlyOn_of_fields {r r' : VmaRegion} (h : ReadOnlyOn p r)
    (hshared : r'.shared = r.shared)
    (hwrite : r'.writable = r.writable) : ReadOnlyOn p r' := by
  intro a ha hp
  rw [hwrite]
  exact h a (hshared.symm.trans ha) hp

theorem readOnlyOn_cuts : Cuts (ReadOnlyOn p) := by
  intro start stop r t hr ht
  unfold clip at ht
  split at ht
  · rcases mem_append.mp ht with ht | ht
    · obtain ⟨-, ht⟩ := mem_ite_nil_right.mp ht
      obtain rfl := mem_singleton.mp ht
      exact readOnlyOn_of_fields hr rfl rfl
    · obtain ⟨-, ht⟩ := mem_ite_nil_right.mp ht
      obtain rfl := mem_singleton.mp ht
      exact readOnlyOn_of_fields hr rfl rfl
  · obtain rfl := mem_singleton.mp ht
    exact hr

/-- A piece that `protect` makes has the attachment of its region, and is writable
if the region was or if the new terms are and the region was met. -/
theorem recut_fields {start stop : ℕ} {terms : VmaProtection} {r r' : VmaRegion}
    (hr' : r' ∈ recut start stop terms r) : r'.shared = r.shared ∧
      (r'.writable = true → r.writable = true ∨
        terms.writable = true ∧ overlapsSpan r start stop = true) := by
  unfold recut at hr'
  by_cases ho : overlapsSpan r start stop = true
  · rw [if_pos ho] at hr'
    obtain ⟨⟨i, low, high⟩, -, hpast⟩ := mem_filterMap.mp hr'
    simp only [Option.ite_none_left_eq_some, Option.some.injEq] at hpast
    rw [← hpast.2]
    unfold protectedPart
    split
    · exact ⟨rfl, fun hwrite => .inr ⟨hwrite, ho⟩⟩
    · exact ⟨rfl, fun hwrite => .inl hwrite⟩
  · rw [if_neg ho] at hr'
    obtain rfl := mem_singleton.mp hr'
    exact ⟨rfl, fun hwrite => .inl hwrite⟩

end VmaStore

variable {tidy : Prop} {answer : Answer} {op : Op}

namespace System

open VmaStore (ReadOnlyOn readOnlyOn_cuts readOnlyOn_of_fields recut_fields)

variable {hw : Hardware} {boot : ℕ → Bool} {σ σ' : System} {s : Segment}

/-- No task that may not write the segment has it in a writable region, and the
page list is the segment's alone. -/
structure Barred (s : Segment) (σ : System) : Prop where
  regions : ∀ pid t, σ.tasks pid = some t → permitted s t true = false →
    t.vmas.All (ReadOnlyOn s.pages)
  alone : ∀ s', some s' ∈ σ.segments → s'.pages = s.pages → s' = s

/-- `mprotect` asks for writing only where the region is writable already or a
segment over its pages lets the task write, and a fork finds a register in
order. -/
def WriteKept (σ : System) : Op → Prop
  | .call pid (.mprotect rdi rsi rdx) _ => rdx.toNat.testBit 1 = true →
      ∀ t, σ.tasks pid = some t → ∀ r ∈ t.vmas.spans,
        overlapsSpan r rdi.toNat (protectStop rdi rsi) = true → ∀ a, r.shared = some a →
          r.writable = true ∨
            ∃ s, some s ∈ σ.segments ∧ s.pages = a.pages ∧ permitted s t true = true
  | op => σ.Agrees op

theorem WriteKept.agrees (h : σ.WriteKept op) : σ.Agrees op := by
  cases op with
  | call pid call g => trivial
  | _ => exact h

theorem Barred.files {t : Task} (hb : Barred s σ) (hdenied : permitted s t true = false)
    {call : Call} {r : VmaRegion} (hr : Files σ t call r) : ReadOnlyOn s.pages r := by
  have hno : r.shared = none → ReadOnlyOn s.pages r := fun hshared a ha =>
    absurd (hshared.symm.trans ha) (by simp)
  cases hr with
  | fixed hshared => exact hno hshared
  | free hflag hshared => exact hno hshared
  | extend hshared => exact hno hshared
  | @attach _ _ rdx s' a _ hs hmay hshared hpages hwrite =>
    intro a' ha' hp
    obtain rfl : a = a' := Option.mem_unique hshared ha'
    obtain rfl := hb.alone s' hs (hpages.symm.trans hp)
    cases hbit : rdx.toNat.testBit 12 with
    | true => rw [hwrite, hbit]; rfl
    | false =>
      rw [hbit] at hmay
      nomatch hmay.symm.trans hdenied

theorem Barred.call {pid : ℕ} {t : Task} {call : Call} {g : Grants} {value : ℤ}
    (h : Sane hw boot tidy σ) (hb : Barred s σ) (ht : σ.tasks pid = some t)
    (hkept : σ.WriteKept (.call pid call g)) (hdenied : permitted s t true = false)
    (hres : σ.syscall hw pid t g call = .ok (value, σ')) :
    ∃ s' : VmaStore, s'.All (ReadOnlyOn s.pages) ∧
      σ'.tasks = Function.update σ.tasks pid (some { t with vmas := s' }) := by
  have hs := h.stores pid t ht
  have hall := hb.regions pid t ht hdenied
  have hplain : ∀ {r : VmaRegion}, r.shared = none → ReadOnlyOn s.pages r := fun hshared a ha =>
    absurd (hshared.symm.trans ha) (by simp)
  refine (syscall_ends hs h.segments hres).filed _ ht ⟨readOnlyOn_cuts, hall,
    fun r hr => hb.files hdenied hr, fun stop _ => hplain hs.heapPlain.1, ?_⟩
  rintro rdi rsi rdx rfl -
  refine ⟨fun r hr r' hr' => ?_, hplain hs.heapPlain.1⟩
  obtain ⟨hshared, hwrite⟩ := recut_fields hr'
  intro a ha hp
  by_contra hc
  rw [hshared] at ha
  have hro := hall.spans hr a ha hp
  rcases hwrite (by simpa using hc) with hwrite | ⟨hterm, ho⟩
  · nomatch hwrite.symm.trans hro
  -- the call asks for writing: the segment would have to allow it
  rcases hkept hterm t ht r hr ho a ha with hwrite | ⟨s', hmem, hpages, hmay⟩
  · nomatch hwrite.symm.trans hro
  · obtain rfl := hb.alone s' hmem (hpages.trans hp)
    nomatch hmay.symm.trans hdenied

section

variable (h : Sane hw boot tidy σ)
include h

theorem Barred.tasks (hb : Barred s σ) (hkept : σ.WriteKept op)
    (hres : σ.step hw op = .ok (answer, σ')) :
    ∀ pid t, σ'.tasks pid = some t → permitted s t true = false →
      t.vmas.All (ReadOnlyOn s.pages) := by
  refine step_tasks
    hb.regions ?_ ?_ ?_ hres
  · -- nothing is attached in a fresh task
    rintro image - -
    obtain ⟨hs, hplain⟩ := image_store image False σ.lens
    refine ⟨fun r hr a ha => ?_, fun a ha => ?_⟩
    · rw [(hplain r (VmaStore.mem_spans.mpr (.inr hr))).1] at ha
      nomatch ha
    · rw [hs.heapPlain.1] at ha
      nomatch ha
  · rintro pid call g t value σ₁ rfl ht hcall
    by_cases hdenied : permitted s t true = false
    · obtain ⟨s', hall, htask⟩ := hb.call h ht hkept hdenied hcall
      exact ⟨s', fun _ => hall, htask⟩
    · obtain ⟨s', -, htask⟩ :=
        (syscall_ends (h.stores pid t ht) h.segments hcall).filed _ ht keeps_true
      exact ⟨s', fun hc => absurd hc hdenied, htask⟩
  · rintro pid g late t copy g' rfl ht hcopy hdenied
    refine (hb.regions pid t ht hdenied).clone hcopy fun r hr hro => readOnlyOn_of_fields hro
      ((hkept t ht).copyOf_shared_eq hr) ?_
    have hterm := (VmaStore.born_fields
      { r with shared := r.shared.bind fun t' =>
        VmaStore.firstAttachment t.vmas.regions t'.start }).2.1
    exact congrArg VmaProtection.writable hterm

theorem Barred.step (hb : Barred s σ) (hborn : s.pages < σ.nextPages) (hkept : σ.WriteKept op)
    (hres : σ.step hw op = .ok (answer, σ')) : Barred s σ' ∧ s.pages < σ'.nextPages := by
  cases step_segments h hres with
  | less hnext hold =>
    exact ⟨⟨hb.tasks h hkept hres, fun s' hs' => hb.alone s' (hold s' hs')⟩, by omega⟩
  | more new hpages hnext hold =>
    refine ⟨⟨hb.tasks h hkept hres, fun s' hs' hp => ?_⟩, by omega⟩
    rcases hold s' hs' with hs' | rfl
    · exact hb.alone s' hs' hp
    · omega

/-- Nothing is known of a page list that is not made yet. -/
theorem Sane.barred_unborn (hp : σ.nextPages ≤ s.pages) : Barred s σ := by
  constructor
  · intro pid t ht _
    have hs := h.stores pid t ht
    refine ⟨fun r hr a ha hpages => ?_, fun a ha => ?_⟩
    · have := h.born_of_live (hs.attached r hr a ha).live
      omega
    · rw [hs.heapPlain.1] at ha
      nomatch ha
  · intro s' hs' hpages
    have := h.born_of_live (h.segments s' hs')
    omega

/-- Every segment of the table is barred to those who may not write it. -/
theorem barred_step (hb : ∀ s, some s ∈ σ.segments → Barred s σ) (hkept : σ.WriteKept op)
    (hres : σ.step hw op = .ok (answer, σ')) : ∀ s, some s ∈ σ'.segments → Barred s σ' := by
  intro s hs
  have hold : some s ∈ σ.segments → Barred s σ' := fun hs =>
    ((hb s hs).step h (h.born_of_live (h.segments s hs)) hkept hres).1
  cases step_segments h hres with
  | less hnext hless => exact hold (hless s hs)
  | more new hpages hnext hmore =>
    rcases hmore s hs with hs | rfl
    · exact hold hs
    refine ⟨(h.barred_unborn (le_of_eq hpages.symm)).tasks h hkept hres, fun s' hs' hp => ?_⟩
    rcases hmore s' hs' with hs' | rfl
    · have := h.born_of_live (h.segments s' hs')
      omega
    · rfl

end

/-- A frame of a segment in a task that may not write it has no writable leaf. -/
theorem Barred.leaf {pid n : ℕ} {t : Task} (h : Sane hw boot tidy σ)
    (hwired : Wired σ.promised σ.mem) (hb : Barred s σ) (ht : σ.tasks pid = some t)
    (hdenied : permitted s t true = false) (hp : (σ.mem.tables pid 0 n).present = true)
    (hf : (σ.mem.tables pid 0 n).frame ∈ σ.mem.pages s.pages) :
    (σ.mem.tables pid 0 n).writable = false := by
  obtain ⟨use, hgood⟩ := h.good
  obtain ⟨⟨p, hprom, hok⟩, -⟩ := hgood.leaves pid n hp
  have hpool : ∀ {q : ℕ}, (σ.mem.tables pid 0 n).frame ∈ σ.mem.pages q →
      ∃ i, σ.mem.names (.pool q i) = some ((σ.mem.tables pid 0 n).frame, .pool) := by
    intro q hq
    obtain ⟨i, hi⟩ := mem_iff_getElem?.mp hq
    exact ⟨i, by simp [Memory.names, hi]⟩
  obtain ⟨i, hi⟩ := hpool hf
  have huse := hgood.kept.use_of_pool hi
  -- the leaf lies in an attached region, and the list is the one attached
  have hshared : p.shared ≠ none := by
    intro hno
    by_cases hdev : p.kind = .device
    · exact absurd ((hok.device hdev).symm.trans huse) (by simp)
    · exact absurd ((hok.priv hdev hno).symm.trans huse) (by simp)
  obtain ⟨a, ha⟩ := Option.ne_none_iff_exists'.mp hshared
  obtain ⟨j, hj⟩ := hpool (hwired pid n p a hp hprom ha)
  have hpages : a.pages = s.pages := (Ref.pool.inj (hgood.kept.lawful.pool_alone hi hj)).1
  rw [promised_of_task ht] at hprom
  obtain ⟨r, hr, rfl⟩ := Option.map_eq_some_iff.mp hprom
  have hmem := ((h.stores pid t ht).sound.find_eq_some.mp hr).1
  have hro : r.writable = false := (hb.regions pid t ht hdenied).spans hmem a ha hpages
  by_contra hwrite
  exact absurd ((hok.writable (by simpa using hwrite)).symm.trans hro) (by simp)

/-- For every run whose calls of `mprotect` ask for writing only where the region
is writable or the segment lets the task write, and whose forks find a register
in order: a task that may not write a segment that was there at some point of the
run holds no writable leaf on its frames. -/
theorem readonly_segment_stays (b : Machine) (before after : List Op) (σ₁ σ₂ : System)
    (hkept₁ : Along b.hw WriteKept b.boot before) (hrun₁ : b.boot.run b.hw before = .ok σ₁)
    (hkept₂ : Along b.hw WriteKept σ₁ after) (hrun₂ : σ₁.run b.hw after = .ok σ₂)
    (s : Segment) (hs : some s ∈ σ₁.segments) (pid : ℕ) (t : Task) (ht : σ₂.tasks pid = some t)
    (hdenied : permitted s t true = false) (n : ℕ)
    (hp : (σ₂.mem.tables pid 0 n).present = true)
    (hf : (σ₂.mem.tables pid 0 n).frame ∈ σ₂.mem.pages s.pages) :
    (σ₂.mem.tables pid 0 n).writable = false := by
  have hboot : Wired b.boot.promised b.boot.mem := fun pid n p a hp =>
    absurd hp (by simp [boot, PageTable.blank])
  have hnone : ∀ s, some s ∈ b.boot.segments → Barred s b.boot := fun s hs =>
    absurd hs (by simp [boot])
  obtain ⟨hsane₁, hwired₁, hb₁⟩ := run_induct
    (I := fun σ => Sane b.hw b.used True σ ∧ Wired σ.promised σ.mem ∧
      ∀ s, some s ∈ σ.segments → Barred s σ)
    (fun _ _ _ _ h hc hstep => ⟨h.1.step (fun _ => hc.agrees) hstep,
      wired_step h.1 h.2.1 hc.agrees hstep, barred_step h.1 h.2.2 hc hstep⟩)
    before ⟨b.sane True, hboot, hnone⟩ hkept₁ hrun₁
  -- from here on the segment may lose its entry
  obtain ⟨hsane₂, hwired₂, hb₂, -⟩ := run_induct
    (I := fun σ => Sane b.hw b.used True σ ∧ Wired σ.promised σ.mem ∧
      Barred s σ ∧ s.pages < σ.nextPages)
    (fun _ _ _ _ h hc hstep => ⟨h.1.step (fun _ => hc.agrees) hstep,
      wired_step h.1 h.2.1 hc.agrees hstep, h.2.2.1.step h.1 h.2.2.2 hc hstep⟩)
    after ⟨hsane₁, hwired₁, hb₁ s hs, hsane₁.born_of_live (hsane₁.segments s hs)⟩ hkept₂ hrun₂
  exact hb₂.leaf hsane₂ hwired₂ ht hdenied hp hf

/-- A program of a user who is not the superuser. -/
def guest : Image := { bare with euid := 1, egid := 1 }

/-- The superuser makes a segment that others may only read, and a guest attaches
it for reading. -/
def attachReadOnly : List Op :=
  [.spawn bare, .spawn guest, .call 0 (.shmget 0 0x1000 0o644) [],
    .call 1 (.shmat 1 0x10000 0x1000) []]

/-- `mprotect` and a store give the guest a writable leaf on the segment's frame,
although `shmat` for writing is refused. -/
theorem mprotect_grants_write :
    ∃ σ σ' s t, small.boot.run small.hw attachReadOnly = .ok σ ∧
      some s ∈ σ.segments ∧ σ.tasks 1 = some t ∧ permitted s t true = false ∧
      (σ.handleShmat 1 t 1 0x20000 0 []).1 = -kEperm ∧
      σ.run small.hw
        [.call 1 (.mprotect 0x10000 0x1000 3) [], .store 1 0x10000 7 none] = .ok σ' ∧
      (σ'.mem.tables 1 0 0x10).present = true ∧ (σ'.mem.tables 1 0 0x10).user = true ∧
      (σ'.mem.tables 1 0 0x10).writable = true ∧
      (σ'.mem.tables 1 0 0x10).frame ∈ σ'.mem.pages s.pages := by
  -- the segment and the task are found before the run goes on
  refine (exists_congr fun σ => exists_comm.trans (exists_congr fun s => exists_comm)).mpr ?_
  simp only [exists_and_left]
  decide +kernel

/-- The superuser attaches the segment too and names its terms again, and the guest reads it. -/
def readBeside : List Op :=
  [.call 0 (.shmat 1 0x30000 0) [], .call 0 (.mprotect 0x30000 0x1000 3) [], .load 1 0x10000 none]

/-- The leaf of the guest is not writable. -/
theorem readonly_segment_stays_read :
    ∃ σ σ' s, small.boot.run small.hw attachReadOnly = .ok σ ∧
      some s ∈ σ.segments ∧ σ.run small.hw readBeside = .ok σ' ∧
      (σ'.mem.tables 1 0 0x10).frame ∈ σ'.mem.pages s.pages ∧
      (σ'.mem.tables 1 0 0x10).writable = false := by
  obtain ⟨σ, hrun, s, hslot, σ₂, hrun₂, t₂, ht₂, hwritable, σ', hrun', t, ht, hdenied, hp, hf⟩ :
      ∃ σ, small.boot.run small.hw attachReadOnly = .ok σ ∧
        ∃ s, some s ∈ σ.segments ∧
        ∃ σ₂, σ.run small.hw (readBeside.take 1) = .ok σ₂ ∧
        ∃ t₂, σ₂.tasks 0 = some t₂ ∧
          (∀ r ∈ t₂.vmas.spans, overlapsSpan r 0x30000 0x31000 = true → r.writable = true) ∧
        ∃ σ', σ.run small.hw readBeside = .ok σ' ∧
          ∃ t, σ'.tasks 1 = some t ∧ permitted s t true = false ∧
          (σ'.mem.tables 1 0 0x10).present = true ∧
          (σ'.mem.tables 1 0 0x10).frame ∈ σ'.mem.pages s.pages := by
    decide +kernel
  have hkept₁ : Along small.hw WriteKept small.boot attachReadOnly :=
    ⟨trivial, fun _ _ _ => ⟨trivial, fun _ _ _ => ⟨trivial, fun _ _ _ => ⟨trivial,
      fun _ _ _ => trivial⟩⟩⟩⟩
  -- the stretch that `mprotect` makes writable is writable already
  have hkept₂ : Along small.hw WriteKept σ readBeside := by
    refine ⟨trivial, fun _ σ₁ h₁ => ⟨fun _ t' ht' r hr hover _ _ => .inl ?_,
      fun _ _ _ => ⟨trivial, fun _ _ _ => trivial⟩⟩⟩
    have hsame : σ.run small.hw (readBeside.take 1) = .ok σ₁ := by
      simp only [readBeside, List.take, run, h₁]
    obtain rfl : σ₂ = σ₁ := Except.ok.inj (hrun₂.symm.trans hsame)
    exact hwritable r (Option.mem_unique ht₂ ht' ▸ hr) hover
  exact ⟨σ, σ', s, hrun, hslot, hrun', hf, readonly_segment_stays small attachReadOnly
    readBeside σ σ' hkept₁ hrun hkept₂ hrun' s hslot 1 t ht hdenied 0x10 hp hf⟩

end System

end Cinux
