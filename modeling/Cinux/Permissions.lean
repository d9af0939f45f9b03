/-
Permissions, held twice.

What a task may do at an address is written in the terms of a region and in the
bits of a leaf.  The leaf never allows more than the region.  It may allow less,
for a while: a page that was not touched has no leaf, and a page shared
copy-on-write has one that forbids writing.  Then a write faults, and the
resolver makes the leaf, or the copy.

The second half fails where the clone of a register handed out the wrong
attachment, so it is stated for runs whose forks find registers in order
(`Agrees`).

* `access_refused` — what the processor refuses in a writable region: an absent
  leaf or a marked one;
* `write_fault` — what the resolver makes of such a fault;
* `permissions_agree` — both halves, over every run;
* `fork_strands_page` — a child that cannot write to a page its parent can.
-/
import Cinux.CountWidth
import Cinux.Detach

namespace Cinux

open Ledger Machine

/-- Something the resolver needed was refused: a frame or a table page by the
ledger, the frame of a device, the read of a file, or the frame of a copy. -/
def FaultRefused (hw : Hardware) (w : Memory) (region : VmaRegion) (page : ℕ)
    (read : Option Page) : Except Halt (Bool × Memory) → Prop
  | .error e => e = .copyRefused
  | .ok (_, v) =>
    w.pmm.refusals < v.pmm.refusals ∨
    (region.kind = .device ∧ hw.frameAt region.backing
      (wrap (region.fileOffset + sub64 page region.start)) = none) ∨
    (region.kind = .file ∧ read = none)

/-- Where the leaf is absent the walk of a user half finds nothing present. -/
theorem TableOk.findSlot_absent {pt : PageTable} (h : TableOk pt) {n : ℕ}
    (habs : (pt 0 n).present = false) : (pt.findSlot n).any (·.2.present) = false := by
  have key : ∀ level, (pt.findFrom n level).any (·.2.present) = false := by
    intro level
    induction level with
    | zero => simpa [PageTable.findFrom] using habs
    | succ level ih =>
      unfold PageTable.findFrom
      rw [h.small]
      split
      · rfl
      · simpa using ih
  exact key 3

namespace System

variable {hw : Hardware} {boot : ℕ → Bool} {tidy : Prop} {σ : System} {pid : ℕ} {t : Task}
  {address : ℕ} {region : VmaRegion} {read : Option Page}

/-- In a writable region the processor refuses a write for one of two reasons. -/
theorem access_refused (h : Sane hw boot tidy σ) (ht : σ.tasks pid = some t)
    (hfind : t.vmas.find address = some region) (hwrite : region.writable = true)
    (hno : accessFrame σ.mem pid address true = none) :
    (σ.mem.tables pid 0 (pageOf address)).present = false ∨
      σ.mem.CowFault pid (pageOf address) (accessCode σ.mem pid address true) := by
  obtain ⟨use, hgood⟩ := h.good
  obtain ⟨-, -, hlt⟩ := (h.stores pid t ht).find_page hfind
  by_cases hp : (σ.mem.tables pid 0 (pageOf address)).present = true
  swap
  · exact .inl (by simpa using hp)
  obtain ⟨r, hr, hok⟩ := h.region_of_leaf hgood ht hlt hp
  obtain rfl : region = r := Option.mem_unique hfind hr
  obtain ⟨huser, hready⟩ := hok.ready hwrite
  have hreach := (hgood.tables pid).closed.reaches hp
  -- the tables above the leaf are open, so the leaf itself must forbid the write
  have hop : ∀ level, 1 ≤ level → level ≤ 3 →
      (σ.mem.tables pid level (path (pageOf address) level)).user = true ∧
      (σ.mem.tables pid level (path (pageOf address) level)).writable = true := fun level h1 h3 =>
    (hgood.tables pid).open_above level _ h1 (hreach level h1 h3).1
  have hlocked : (σ.mem.tables pid 0 (pageOf address)).writable = false := by
    by_contra hc
    unfold accessFrame at hno
    rw [if_neg (by omega), (hgood.tables pid).closed.leafSlot_of_present hp] at hno
    simp [hp, huser, hc, hop 1, hop 2, hop 3] at hno
  rcases hready with hc | hc
  · rw [hlocked] at hc
    nomatch hc
  · exact .inr ⟨rfl, hreach, hp, hlocked, hc⟩

section

variable (h : Sane hw boot True σ) (ht : σ.tasks pid = some t)
  (hfind : t.vmas.find address = some region)
include h ht hfind

/-- In order, a page of an attachment is one of the segment. -/
theorem segment_page {attached : SharedAttachment} (hatt : region.shared = some attached) :
    sub64 (pageOf address * kSize) attached.start / kSize
      < (σ.mem.pages attached.pages).length := by
  have hs := h.stores pid t ht
  obtain ⟨hpage, -, hlt⟩ := hs.find_page hfind
  obtain ⟨hmem, hlow, hhi⟩ := hs.sound.find_eq_some.mp hpage
  obtain ⟨-, hok⟩ := hs.spans_attached hmem hatt
  obtain ⟨hstart, hstop⟩ := hok.inside trivial
  have heq := hok.stop_eq
  rw [(pageOf_user hlt).1, sub64_of_le (by simp only [kUserTop, kSize] at *; omega) (by omega)]
  simp only [lens, kSize] at *
  omega

/-- The region has something to fill the page from, unless a device or a file
refuses. -/
theorem source_refused (hno : NoSource hw σ.mem (pageOf address * kSize) region read) :
    (region.kind = .device ∧ hw.frameAt region.backing
      (wrap (region.fileOffset + sub64 (pageOf address * kSize) region.start)) = none) ∨
    (region.kind = .file ∧ read = none) := by
  obtain ⟨-, hok, -⟩ := (h.stores pid t ht).find_page hfind
  unfold NoSource at hno
  cases hshared : region.shared with
  | some attached =>
    rw [hshared] at hno
    have hnone :
        (σ.mem.pages attached.pages)[sub64 (pageOf address * kSize) attached.start / kSize]?
        = none := hno
    have := List.getElem?_eq_none_iff.mp hnone
    have := segment_page h ht hfind hshared
    omega
  | none =>
    rw [hshared] at hno
    simp only at hno
    split at hno
    · rename_i hdev
      exact .inl ⟨hdev, hno⟩
    -- only the read of a file can fail
    unfold Memory.fillContent at hno
    split at hno
    · rename_i hfile
      have hops := hok.backed hfile
      rw [if_neg (by simpa using hops)] at hno
      exact .inr ⟨hfile, hno⟩
    · nomatch hno

/-- A write fault in a writable region is resolved, or something was refused. -/
theorem write_fault (hwrite : region.writable = true)
    (hfloor : region.kind = .stack → region.stackFloor ≤ address)
    (hno : accessFrame σ.mem pid address true = none) (hroom : ∀ f, σ.segmentFrame pid address =
      some f → (σ.mem.tables pid 0 (pageOf address)).present = false → (σ.leaves f).ncard + 2 ≤
      0xFF) :
    (∃ v, σ.mem.resolveFault hw t.vmas pid address (accessCode σ.mem pid address true) read
      = .ok (true, v)) ∨
    FaultRefused hw σ.mem region (pageOf address * kSize) read
      (σ.mem.resolveFault hw t.vmas pid address (accessCode σ.mem pid address true) read) := by
  obtain ⟨use, hgood⟩ := h.good
  have hs := h.stores pid t ht
  obtain ⟨hpage, hok, hlt⟩ := hs.find_page hfind
  obtain ⟨hn, hn'⟩ := pageOf_user hlt
  have hpermits : Memory.permits region (accessCode σ.mem pid address true) = true := by
    simp [Memory.permits, accessCode, hwrite]
  have hguard : ((accessCode σ.mem pid address true).reserved ||
      !Memory.permits region (accessCode σ.mem pid address true) ||
      region.kind = .stack && address < region.stackFloor) = false := by
    rw [hpermits]
    simp only [accessCode, Bool.not_true, Bool.false_or, Bool.and_eq_false_iff,
      decide_eq_false_iff_not, not_lt]
    by_cases hstack : region.kind = .stack
    · exact .inr (hfloor hstack)
    · exact .inl (by simpa using hstack)
  unfold Memory.resolveFault
  rw [hfind]
  simp only [hguard]
  rcases access_refused h ht hfind hwrite hno with habs | hfault
  swap
  · -- a marked leaf
    obtain ⟨-, hnot⟩ | ⟨-, herr | ⟨v, hv, -⟩⟩ :=
      σ.mem.tryResolvePageFault_cases pid address (accessCode σ.mem pid address true)
    · exact absurd hfault hnot
    · rw [herr]
      exact .inr rfl
    · rw [hv]
      exact .inl ⟨v, rfl⟩
  -- no leaf: the page is filled
  have hprot := (hgood.tables pid).findSlot_absent habs
  have htry : σ.mem.tryResolvePageFault pid address (accessCode σ.mem pid address true)
      = .ok (false, σ.mem) := by
    obtain ⟨htry, -⟩ | ⟨hfault, -⟩ := σ.mem.tryResolvePageFault_cases pid address _
    · exact htry
    · cases habs.symm.trans hfault.present
  rw [htry]
  have hdown : alignDown address kSize = pageOf address * kSize := by rw [hn]; rfl
  have hstack : ¬ (region.kind = .stack ∧ pageOf address * kSize < region.stackFloor) := by
    rintro ⟨hk, hlow⟩
    have hle := hfloor hk
    have hmod := hok.floor_mod
    simp only [kSize] at *
    omega
  have hfi : Memory.fillPage hw t.vmas σ.mem pid address (accessCode σ.mem pid address true) read
      = Memory.fillRegion hw σ.mem pid (pageOf address * kSize) region read := by
    unfold Memory.fillPage
    rw [hfind, hdown]
    simp only [hpermits, if_neg hstack,
      pageOf_page hn']
    simp [accessCode, hprot, hlt]
  dsimp only
  rw [hfi]
  cases hres : Memory.fillRegion hw σ.mem pid (pageOf address * kSize) region read with
  | error e =>
    refine absurd hres (hgood.fillRegion_room (h.root_of_task ht) hn' fun f hf => ?_)
    have := hroom f (by
      rw [segmentFrame, ht]
      simp only [Option.bind_some, hfind, hdown]
      exact hf) habs
    have hsame : ({ mem := σ.mem } : System).leaves f = σ.leaves f := rfl
    exact ⟨by rw [hsame]; omega, fun _ => by rw [hsame]; omega⟩
  | ok x =>
    obtain ⟨b, v⟩ := x
    cases b with
    | true => exact .inl ⟨v, rfl⟩
    | false =>
      obtain ⟨-, -, -, -, hfill⟩ := hgood.fillRegion (h.root_of_task ht) hn' habs hok (by
        rw [promised_of_task ht, VmaStore.view, hn, hpage]
        rfl) hres
      refine .inr ?_
      rcases hfill rfl with hno | hless
      · exact .inr (source_refused h ht hfind hno)
      · exact .inl hless

end

/-- For every state any run reaches.  A leaf lies in a registered region and
allows writing and fetching only where the region does.  If every fork of the run
found a register in order, then a write fault in a writable region, at or above
its stack floor, is resolved or something it needed was refused, as long as the
frame of a segment it maps has room for another share. -/
theorem permissions_agree (b : Machine) (ops : List Op) (σ : System)
    (hrun : b.boot.run b.hw ops = .ok σ) :
    (∀ pid a, a < kUserTop → (σ.mem.tables pid 0 (pageOf a)).present = true →
      ∃ t r, σ.tasks pid = some t ∧ t.vmas.find a = some r ∧
        ((σ.mem.tables pid 0 (pageOf a)).writable = true → r.writable = true) ∧
        ((σ.mem.tables pid 0 (pageOf a)).noExec = false → r.executable = true)) ∧
    (Along b.hw Agrees b.boot ops → ∀ pid t address region read, σ.tasks pid = some t →
      t.vmas.find address = some region → region.writable = true →
      (region.kind = .stack → region.stackFloor ≤ address) →
      accessFrame σ.mem pid address true = none →
      (∀ f, σ.segmentFrame pid address = some f →
        (σ.mem.tables pid 0 (pageOf address)).present = false → (σ.leaves f).ncard + 2 ≤ 0xFF) →
      (∃ v, σ.mem.resolveFault b.hw t.vmas pid address (accessCode σ.mem pid address true) read
        = .ok (true, v)) ∨
      FaultRefused b.hw σ.mem region (pageOf address * kSize) read
        (σ.mem.resolveFault b.hw t.vmas pid address (accessCode σ.mem pid address true) read)) := by
  constructor
  · intro pid a ha hp
    have hsane := b.sane_run False (fun h => h.elim) hrun
    obtain ⟨use, hgood⟩ := hsane.good
    -- a space without a task has no leaves
    have hlive : σ.tasks pid ≠ none := by
      intro hnone
      obtain ⟨⟨p, hprom, -⟩, -⟩ := hgood.leaves pid _ hp
      rw [promised_of_none hnone] at hprom
      nomatch hprom
    obtain ⟨t, ht⟩ := Option.ne_none_iff_exists'.mp hlive
    obtain ⟨r, hr, hok⟩ := hsane.region_of_leaf hgood ht ha hp
    exact ⟨t, r, ht, hr, hok.writable, hok.executable⟩
  · intro halong pid t address region read ht hfind hwrite hfloor hno hroom
    exact write_fault (b.sane_run True (fun _ => halong) hrun) ht hfind hwrite hfloor hno hroom

/-- A task attaches a segment of two pages, gives up its first page, attaches a
segment of one page there, and names the terms of the other page again, which
files that page last.  Then it forks. -/
def strandedPage : List Op :=
  [.spawn bare, .call 0 (.shmget 0 0x2000 0o600) [], .call 0 (.shmget 0 0x1000 0o600) [],
    .call 0 (.shmat 1 0x10000 0) [], .call 0 (.munmap 0x10000 0x1000) [],
    .call 0 (.shmat 2 0x10000 0) [], .call 0 (.mprotect 0x11000 0x1000 3) [], .fork 0 [] false]

/-- The child's write to the other page is not resolved, although nothing was
refused, and the child ends. -/
theorem fork_strands_page :
    ∃ σ σ' region, small.boot.run small.hw strandedPage = .ok σ ∧
      σ.regionAt 1 0x11000 = some region ∧ region.writable = true ∧ region.kind = .anonymous ∧
      accessFrame σ.mem 1 0x11000 true = none ∧
      σ.step small.hw (.store 1 0x11000 7 none) = .ok (.nothing, σ') ∧
      σ'.tasks 1 = none ∧ σ'.mem.pmm.refusals = σ.mem.pmm.refusals := by
  -- the region is looked up before the step is taken
  refine (exists_congr fun σ => exists_comm).mpr ?_
  simp only [exists_and_left]
  decide +kernel

/-- A task attaches a segment, writes to its heap and forks. -/
def sharedHeap : List Op :=
  [.spawn bare, .call 0 (.shmget 0 0x2000 0o600) [], .call 0 (.shmat 1 0x10000 0) [],
    .call 0 (.brk 0x401000) [], .store 0 0x400010 7 none, .fork 0 [] false]

/-- The child's first write to the shared page is resolved, or its copy has no
frame. -/
theorem permissions_agree_shared_heap :
    ∃ σ t region, small.boot.run small.hw sharedHeap = .ok σ ∧
      σ.tasks 1 = some t ∧ t.vmas.find 0x400010 = some region ∧
      ((∃ v, σ.mem.resolveFault small.hw t.vmas 1 0x400010
          (accessCode σ.mem 1 0x400010 true) none = .ok (true, v)) ∨
        FaultRefused small.hw σ.mem region (pageOf 0x400010 * kSize) none
          (σ.mem.resolveFault small.hw t.vmas 1 0x400010
            (accessCode σ.mem 1 0x400010 true) none)) := by
  obtain ⟨σ₆, hrun', t₆, ht₆, hag⟩ : ∃ σ, small.boot.run small.hw
      (sharedHeap.take 5) = .ok σ ∧ ∃ t, σ.tasks 0 = some t ∧ t.vmas.AttachmentsAgree := by
    decide +kernel
  obtain ⟨σ, hrun, t, ht, region, hfind, hwrite, hkind, hshared, hno⟩ :
      ∃ σ, small.boot.run small.hw sharedHeap = .ok σ ∧
        ∃ t, σ.tasks 1 = some t ∧ ∃ region, t.vmas.find 0x400010 = some region ∧
          region.writable = true ∧ region.kind ≠ .stack ∧ region.shared = none ∧
          accessFrame σ.mem 1 0x400010 true = none := by
    decide +kernel
  -- the only fork of the run finds a register with one attachment
  have halong : Along small.hw Agrees small.boot sharedHeap := by
    refine ⟨trivial, fun _ σ₁ h₁ => ⟨trivial, fun _ σ₂ h₂ => ⟨trivial, fun _ σ₃ h₃ => ⟨trivial,
      fun _ σ₄ h₄ => ⟨trivial, fun _ σ₅ h₅ => ⟨fun t' ht' => ?_, fun _ _ _ => trivial⟩⟩⟩⟩⟩⟩
    have hsame : small.boot.run small.hw (sharedHeap.take 5) = .ok σ₅ := by
      simp only [sharedHeap, List.take, run, h₁, h₂, h₃, h₄, h₅]
    obtain rfl : σ₆ = σ₅ := Except.ok.inj (hrun'.symm.trans hsame)
    exact Option.mem_unique ht₆ ht' ▸ hag
  refine ⟨σ, t, region, hrun, ht, hfind, (permissions_agree small sharedHeap σ hrun).2
    halong 1 t 0x400010 region none ht hfind hwrite (fun hc => absurd hc hkind) hno fun f hf => ?_⟩
  rw [segmentFrame, ht] at hf
  simp [hfind, Memory.segmentFrame, hshared] at hf

end System

end Cinux
