/-
What a system call can do.

Every call on memory ends in one of six ways (`CallStep`): nothing changed; the
register changed but kept its promises; a stretch was withdrawn from the register
and from the tables; a stretch got new terms in both; a page list was made; a
segment lost its entry.  A call files at most one new region (`Files`); every
other region it leaves is one that was there, a piece of one, or one under new
terms.  So a property of regions that survives cutting holds of every region of a
register as soon as it holds of the regions the calls file (`Keeps`).
`syscall_ends` says so of every call, with every argument and every pattern of
refusals; the invariants of the later files only look at that.

* `reclaimUserSpan_cases` — the two ends of `ReclaimUserSpan`;
* `handleMmap_ends`, `handleMunmap_ends`, `handleMprotect_ends`, `handleBrk_ends`,
  `handleShmget_ends`, `handleShmat_ends`, `handleShmdt_ends`,
  `handleShmRemove_ends` — the calls;
* `syscall_ends` — all of them.
-/
import Cinux.System
import Cinux.StoreShape

namespace Cinux

open Except Function

variable {file : Except KernelError OpenFile} {start bytes : ℕ} {region : VmaRegion}
  {rdi rsi rdx r10 r9 : UInt64} {length prot flags offset : ℕ} {r : Except KernelError Unit}

namespace System

open VmaStore (born recut Cuts)

/-- The number of pages of each page list. -/
def lens (σ : System) (p : ℕ) : ℕ := (σ.mem.pages p).length

/-- The ways a system call of the task `t` can end. -/
inductive CallStep (hw : Hardware) (tidy : Prop) (σ : System) (pid : ℕ) (t : Task) (call : Call) :
    System → Prop
  | same : CallStep hw tidy σ pid t call σ
  /-- The register changed, but promises at least what it did. -/
  | keep {s : VmaStore} (hs : s.StoreOk tidy σ.lens)
      (hview : ∀ a p, t.vmas.view a = some p → s.view a = some p) :
      CallStep hw tidy σ pid t call (σ.setVmas pid t s)
  /-- A stretch was withdrawn.  Only `munmap` reaches above the user limit. -/
  | withdraw {s : VmaStore} {start bytes : ℕ} (hstart : start % kSize = 0)
      (hbytes : bytes % kSize = 0)
      (hend : start + bytes ≤ kUserTop ∨ ∃ rdi rsi, call = .munmap rdi rsi)
      (hs : s.StoreOk tidy σ.lens)
      (hview : ∀ a p, t.vmas.view a = some p → ¬ (start ≤ a ∧ a < start + bytes) →
        s.view a = some p) :
      CallStep hw tidy σ pid t call { σ.setVmas pid t s with
        mem := σ.mem.reclaimSpots hw pid start bytes }
  /-- A stretch got new terms. -/
  | protect {s : VmaStore} {start stop : ℕ} {terms : VmaProtection} (hstart : start % kSize = 0)
      (hstop : stop % kSize = 0) (hlt : start < stop) (hend : stop ≤ kUserTop)
      (hs : s.StoreOk tidy σ.lens)
      (hview : ∀ a, s.view a = (t.vmas.view a).map fun p =>
        if start ≤ a ∧ a < stop then { p with terms := terms } else p) :
      CallStep hw tidy σ pid t call { σ.setVmas pid t s with
        mem := σ.mem.setTable pid
          ((Memory.spots start (stop - start)).foldl (protectSpot terms) (σ.mem.tables pid)) }
  /-- A page list was made, in full or in part, and perhaps a segment over it. -/
  | frames {count identity : ℕ} {made : Bool} {w : Memory} {segments : List (Option Segment)}
      (hmade : allocateFrames σ.nextPages count σ.mem = .ok (made, w))
      (hseg : ∀ s, some s ∈ segments → some s ∈ σ.segments ∨
        s.pages = σ.nextPages ∧ made = true ∧ 0 < count) :
      CallStep hw tidy σ pid t call { σ with
        mem := w, nextPages := σ.nextPages + 1, nextIdentity := identity, segments := segments }
  /-- A segment lost its entry. -/
  | remove {segments : List (Option Segment)}
      (hseg : ∀ s, some s ∈ segments → some s ∈ σ.segments) :
      CallStep hw tidy σ pid t call { σ with segments := segments }

/-- The regions a call of a task can file. -/
inductive Files (σ : System) (t : Task) : Call → VmaRegion → Prop
  /-- `mmap` at the address the caller named. -/
  | fixed {rdi rsi rdx r10 r9 : UInt64} {file : Except KernelError OpenFile} {r : VmaRegion}
      (hshared : r.shared = none) (hlow : kUserNullTop ≤ r.start) (hne : r.start ≤ r.stop) :
      Files σ t (.mmap rdi rsi rdx r10 r9 file) r
  /-- `mmap` at a free spot. -/
  | free {rdi rsi rdx r10 r9 : UInt64} {file : Except KernelError OpenFile} {r : VmaRegion}
      (hflag : r10.toNat.testBit 4 = false) (hshared : r.shared = none)
      (hspot : t.vmas.findFreeSpot t.vmas.mmapCeiling (alignUp rsi.toNat kSize) = .ok r.start)
      (hne : r.start ≤ r.stop) : Files σ t (.mmap rdi rsi rdx r10 r9 file) r
  /-- `shmat`. -/
  | attach {rdi rsi rdx : UInt64} {s : Segment} {a : SharedAttachment} {r : VmaRegion}
      (hs : some s ∈ σ.segments) (hmay : permitted s t (!rdx.toNat.testBit 12) = true)
      (hshared : r.shared = some a) (hpages : a.pages = s.pages)
      (hwrite : r.writable = !rdx.toNat.testBit 12) (hlow : kUserNullTop ≤ r.start)
      (hne : r.start ≤ r.stop) : Files σ t (.shmat rdi rsi rdx) r
  /-- `brk` beyond a heap that is on the chain. -/
  | extend {rdi : UInt64} {r : VmaRegion} (hshared : r.shared = none)
      (hstart : r.start = t.vmas.heap.stop) (hne : t.vmas.heap.stop ≤ r.stop) :
      Files σ t (.brk rdi) r

/-- The stretch `mprotect` rewrites: the address of the call up to its rounded
end. -/
def protectStop (rdi rsi : UInt64) : ℕ := alignUp (wrap (rdi.toNat + rsi.toNat)) kSize

/-- The terms `mprotect` names. -/
def protectTerms (rdx : UInt64) : VmaProtection :=
  { readable := rdx.toNat.testBit 0, writable := rdx.toNat.testBit 1
    executable := rdx.toNat.testBit 2 }

/-- What a property of regions needs to outlast a call: it survives cutting, and holds of the
regions that are there, of what the call files, of the heap with another end and of what
`mprotect` leaves. -/
structure Keeps (P : VmaRegion → Prop) (σ : System) (t : Task) (call : Call) : Prop where
  cuts : Cuts P
  all : t.vmas.All P
  files : ∀ r, Files σ t call r → P r
  heap : ∀ stop, t.vmas.heap.start ≤ stop → P { t.vmas.heap with stop := stop }
  protect : ∀ rdi rsi rdx, call = .mprotect rdi rsi rdx → rdi.toNat < protectStop rdi rsi →
    (∀ r ∈ t.vmas.spans, ∀ r' ∈ recut rdi.toNat (protectStop rdi rsi) (protectTerms rdx) r, P r') ∧
      P (VmaStore.reterm (protectTerms rdx) t.vmas.heap)

/-- The task has another register; nothing else of the tasks changed, and no
segment. -/
structure Retasked (P : VmaRegion → Prop) (σ σ' : System) (pid : ℕ) (t : Task) : Prop where
  tasks : ∃ s : VmaStore, s.All P ∧
    σ'.tasks = update σ.tasks pid (some { t with vmas := s })
  segments : σ'.segments = σ.segments
  nextPages : σ'.nextPages = σ.nextPages

/-- What a step can do to the segments: some may go, or one comes over a page list
of its own. -/
inductive Resegmented (σ σ' : System) : Prop
  | less (hnext : σ.nextPages ≤ σ'.nextPages)
      (hold : ∀ s, some s ∈ σ'.segments → some s ∈ σ.segments)
  | more (new : Segment) (hpages : new.pages = σ.nextPages)
      (hnext : σ'.nextPages = σ.nextPages + 1)
      (hold : ∀ s, some s ∈ σ'.segments → some s ∈ σ.segments ∨ s = new)

/-- How a call ends. -/
structure Ends (hw : Hardware) (tidy : Prop) (σ : System) (pid : ℕ) (t : Task) (call : Call)
    (σ' : System) : Prop where
  step : CallStep hw tidy σ pid t call σ'
  filed : ∀ P, σ.tasks pid = some t → Keeps P σ t call → ∃ s : VmaStore, s.All P ∧
    σ'.tasks = update σ.tasks pid (some { t with vmas := s })
  segments : Resegmented σ σ'

variable {hw : Hardware} {tidy : Prop} {σ σ' : System} {pid : ℕ} {t : Task} {call : Call}
  {g : Grants} {value : ℤ} {P : VmaRegion → Prop}

theorem keeps_true : Keeps (fun _ => True) σ t call :=
  ⟨fun _ _ _ _ _ _ => trivial, ⟨fun _ _ => trivial, trivial⟩, fun _ _ => trivial,
    fun _ _ => trivial, fun _ _ _ _ _ => ⟨fun _ _ _ _ => trivial, trivial⟩⟩

theorem retasked_setVmas {s : VmaStore} (hall : s.All P) : Retasked P σ (σ.setVmas pid t s) pid t :=
  ⟨⟨s, hall, rfl⟩, rfl, rfl⟩

theorem resegmented_of_eq (hnext : σ'.nextPages = σ.nextPages)
    (hsame : σ'.segments = σ.segments) : Resegmented σ σ' :=
  .less (by rw [hnext]) fun s hs => by rwa [hsame] at hs

theorem Ends.untasked (hstep : CallStep hw tidy σ pid t call σ') (htask : σ'.tasks = σ.tasks)
    (hseg : Resegmented σ σ') : Ends hw tidy σ pid t call σ' :=
  ⟨hstep, fun _ ht hk => ⟨t.vmas, hk.all, by rw [htask, ← ht, update_eq_self]⟩, hseg⟩

theorem Ends.same : Ends hw tidy σ pid t call σ :=
  .untasked .same rfl (resegmented_of_eq rfl rfl)

theorem Ends.register (hstep : CallStep hw tidy σ pid t call σ')
    (hroot : ∀ P, Keeps P σ t call → Retasked P σ σ' pid t) : Ends hw tidy σ pid t call σ' := by
  obtain ⟨-, hseg, hnext⟩ := hroot _ keeps_true
  exact ⟨hstep, fun P _ hk => (hroot P hk).tasks, resegmented_of_eq hnext hseg⟩

theorem setVmas_setVmas (σ : System) (pid : ℕ) (t : Task) (s s' : VmaStore) :
    (σ.setVmas pid t s).setVmas pid { t with vmas := s } s' = σ.setVmas pid t s' := by
  simp [setVmas]

/-! ### Mapping and unmapping -/

section

variable (hs : t.vmas.StoreOk tidy σ.lens)

include hs

section

variable (hstart : start % kSize = 0) (hbytes : bytes % kSize = 0) (hend : start + bytes < 2 ^ 64)
include hstart hbytes hend

/-- A refused withdrawal leaves the answers of the register; a granted one takes
the stretch from the register and then from the tables. -/
theorem reclaimUserSpan_cases {g' : Grants}
    (hres : σ.reclaimUserSpan hw pid t start bytes g = (r, σ', g')) :
    ∃ s : VmaStore, s.StoreOk tidy σ.lens ∧ (∀ P, Cuts P → t.vmas.All P → s.All P) ∧
      ((∃ e, r = .error e ∧ σ' = σ.setVmas pid t s ∧ ∀ a, s.view a = t.vmas.view a) ∨ (r = .ok () ∧
        σ' = { σ.setVmas pid t s with mem := σ.mem.reclaimSpots hw pid start bytes } ∧
        ∀ a, s.view a = if start ≤ a ∧ a < start + bytes then none else t.vmas.view a)) := by
  have hmod : (start + bytes) % kSize = 0 := by
    simp only [kSize] at *
    omega
  unfold reclaimUserSpan at hres
  rw [wrap_of_lt hend] at hres
  dsimp only at hres
  refine ⟨_, hs.unregisterRange hstart hmod g,
    fun P hcut hall => hall.unregisterRange hs.sound hcut _ _ g, ?_⟩
  split at hres
  · rename_i e he
    obtain ⟨rfl, hpair⟩ := Prod.mk.inj hres
    obtain ⟨⟩ := hpair
    refine .inl ⟨e, rfl, rfl, fun a => ?_⟩
    rw [VmaStore.view, (hs.sound.unregisterRange_unchanged he).1]
    rfl
  · rename_i hok
    obtain ⟨rfl, hpair⟩ := Prod.mk.inj hres
    obtain ⟨⟩ := hpair
    exact .inr ⟨rfl, rfl, hs.sound.unregisterRange_view hok⟩

theorem reclaimUserSpan_ends (hlimit : start + bytes ≤ kUserTop ∨ ∃ rdi rsi, call = .munmap rdi rsi)
    {g' : Grants} (hres : σ.reclaimUserSpan hw pid t start bytes g = (r, σ', g')) :
    Ends hw tidy σ pid t call σ' := by
  obtain ⟨s, hs', hall, ⟨e, -, rfl, hview⟩ | ⟨-, rfl, hview⟩⟩ :=
    reclaimUserSpan_cases hs hstart hbytes hend hres
  · exact .register (.keep hs' fun a p hp => by rw [hview, hp])
      fun P hk => retasked_setVmas (hall P hk.cuts hk.all)
  · exact .register (.withdraw hstart hbytes hlimit hs' fun a p hp hout => by
      rw [hview, if_neg hout, hp]) fun P hk => ⟨⟨s, hall P hk.cuts hk.all, rfl⟩, rfl, rfl⟩

end

theorem handleMunmap_ends
    (hres : σ.handleMunmap hw pid t rdi.toNat rsi.toNat g = (value, σ')) :
    Ends hw tidy σ pid t (.munmap rdi rsi) σ' := by
  unfold handleMunmap at hres
  dsimp only at hres
  have h1 := alignDown_mod rdi.toNat
  have h2 := alignUp_mod (wrap (rdi.toNat + rsi.toNat))
  have h3 := alignUp_lt (wrap (rdi.toNat + rsi.toNat))
  split at hres
  · obtain ⟨⟩ := hres
    exact .same
  have hbytes : (alignUp (wrap (rdi.toNat + rsi.toNat)) kSize - alignDown rdi.toNat kSize) % kSize
      = 0 := by
    simp only [kSize] at *
    omega
  split at hres <;> rename_i hrec <;> obtain ⟨⟩ := hres
  all_goals exact reclaimUserSpan_ends hs h1 hbytes (by omega) (.inr ⟨rdi, rsi, rfl⟩) hrec

/-- The span `HandleShmdt` withdraws is the recorded one. -/
theorem attached_span {address : ℕ} {a : SharedAttachment}
    (ha : (t.vmas.find address).bind (·.shared) = some a) :
    a.start % kSize = 0 ∧ sub64 a.stop a.start % kSize = 0 ∧
      a.start + sub64 a.stop a.start = a.stop ∧ a.stop ≤ kUserTop := by
  obtain ⟨r, hr, hshared⟩ := Option.bind_eq_some_iff.mp ha
  obtain ⟨-, h1, h2, h3, -, -⟩ := hs.spans_attached (hs.sound.find_eq_some.mp hr).1 hshared
  have hsub : sub64 a.stop a.start = σ.lens a.pages * kSize := by
    rw [sub64_of_le (by simp only [kUserTop] at h3; omega) (by omega)]
    omega
  rw [hsub]
  exact ⟨h1, Nat.mul_mod_left _ _, h2.symm, h3⟩

theorem handleShmdt_ends {rdi : ℕ}
    (hres : σ.handleShmdt hw pid t rdi g = (value, σ')) : Ends hw tidy σ pid t call σ' := by
  unfold handleShmdt at hres
  split at hres
  · obtain ⟨⟩ := hres
    exact .same
  rename_i a ha
  obtain ⟨h1, h2, h3, h4⟩ := attached_span hs ha
  split at hres
  · obtain ⟨⟩ := hres
    exact .same
  rename_i hstart
  have hstart : a.start = rdi := by simpa using hstart
  rw [← hstart] at hres
  have hend : a.start + sub64 a.stop a.start < 2 ^ 64 := by
    simp only [kUserTop] at h4
    omega
  split at hres <;> rename_i hrec <;> obtain ⟨⟩ := hres
  all_goals exact reclaimUserSpan_ends hs h1 h2 hend (.inl (by omega)) hrec

end

section

variable (hres : dressRegion hw length prot flags offset file = .ok region)
include hres

/-- What `HandleMmap` can put into its region. -/
theorem dressRegion_ok : region.shared = none ∧ region.stackFloor = 0 ∧
      (region.kind = .file → region.backing.ops ≠ none) := by
  unfold dressRegion at hres
  dsimp only at hres
  split at hres
  · split at hres
    · nomatch hres
    · obtain ⟨⟩ := hres
      exact ⟨rfl, rfl, nofun⟩
  split at hres
  · nomatch hres
  split at hres
  · nomatch hres
  · obtain ⟨⟩ := hres
    exact ⟨rfl, rfl, fun _ => by simp⟩

/-- The region `HandleMmap` files at a place has the shape of a region. -/
theorem regionOk_dressed (h1 : start % kSize = 0) (h2 : bytes % kSize = 0)
    (h3 : start + bytes ≤ kUserTop) :
    RegionOk { region with start := start, stop := start + bytes } := by
  obtain ⟨hshared, hfloor, hbacked⟩ := dressRegion_ok hres
  refine ⟨h1, ?_, h3, ?_, hbacked, fun hne => absurd hshared hne⟩
  · simp only [kSize] at *
    omega
  · rw [hfloor]
    rfl

end

theorem fileRegion_eq (hres : σ.fileRegion pid t region start bytes g = (value, σ')) :
    σ' = σ.setVmas pid t (t.vmas.registerRange
      { region with start := start, stop := start + bytes } g).store := by
  unfold fileRegion at hres
  dsimp only at hres
  split at hres <;> exact (Prod.mk.inj hres).2.symm

section

variable (hs : t.vmas.StoreOk tidy σ.lens)
include hs

theorem handleMmap_ends (hres : σ.handleMmap hw pid t rdi.toNat rsi.toNat rdx.toNat r10.toNat
      r9.toNat file g = (value, σ')) : Ends hw tidy σ pid t (.mmap rdi rsi rdx r10 r9 file) σ' := by
  unfold handleMmap at hres
  split at hres
  · obtain ⟨⟩ := hres
    exact .same
  rename_i hargs
  simp only [not_or, not_and, not_not] at hargs
  have hbytes := alignUp_mod rsi.toNat
  dsimp only at hres
  split at hres
  · obtain ⟨⟩ := hres
    exact .same
  rename_i region hdress
  have hshared := (dressRegion_ok hdress).1
  have hno : ∀ (spec : VmaRegion) a, spec.shared = region.shared → spec.shared = some a →
      AttachOk tidy σ.lens spec a := by
    intro spec a he ha
    rw [he, hshared] at ha
    nomatch ha
  have hborn : ∀ start stop, (born { region with start := start, stop := stop }).shared = none :=
    fun start stop => by rw [(VmaStore.born_fields _).2.2.2.1]; exact hshared
  split at hres
  · -- at the address the caller named
    rename_i hfixed
    have haddr := hargs.2.2.1 hfixed
    unfold mmapFixed at hres
    split at hres
    · obtain ⟨⟩ := hres
      exact .same
    rename_i hrange
    simp only [not_or, not_lt] at hrange
    have hend : rdi.toNat + alignUp rsi.toNat kSize ≤ kUserTop := by omega
    have hend' : rdi.toNat + alignUp rsi.toNat kSize < 2 ^ 64 := by
      simp only [kUserTop] at hend
      omega
    split at hres
    · rename_i hrec
      obtain ⟨⟩ := hres
      exact reclaimUserSpan_ends hs haddr hbytes hend' (.inl hend) hrec
    -- what was there is withdrawn, and the new region is filed in its place
    rename_i _ g' hrec
    obtain ⟨s, hs', hall, ⟨e, he, -, -⟩ | ⟨-, rfl, hview⟩⟩ :=
      reclaimUserSpan_cases hs haddr hbytes hend' hrec
    · nomatch he
    have hspec := regionOk_dressed hdress haddr hbytes hend
    have htask : ({ σ.setVmas pid t s with
        mem := σ.mem.reclaimSpots hw pid rdi.toNat (alignUp rsi.toNat kSize) } : System).tasks pid
          = some { t with vmas := s } := Function.update_self ..
    rw [htask] at hres
    have hfin := fileRegion_eq hres
    have hsame : σ' = { σ.setVmas pid t (s.registerRange { region with
        start := rdi.toNat, stop := rdi.toNat + alignUp rsi.toNat kSize } g').store with
          mem := σ.mem.reclaimSpots hw pid rdi.toNat (alignUp rsi.toNat kSize) } := by
      rw [hfin]
      simp [setVmas]
    rw [hsame]
    refine .register (.withdraw haddr hbytes (.inl hend)
      (hs'.registerRange hspec (fun a ha => hno _ a rfl ha) g') fun a p hp hout => ?_)
      fun P hk => ⟨⟨_, (hall P hk.cuts hk.all).registerRange
        (fun _ => hk.files _ (.fixed (hborn _ _) ?_ ?_)) g', rfl⟩, rfl, rfl⟩
    · exact hs'.sound.registerRange_keeps _ g' (by rw [hview, if_neg hout, hp])
    · rw [born_start]
      exact hrange.1
    · rw [born_start, born_stop]
      exact Nat.le_add_right _ _
  · rename_i hflag
    split at hres
    · obtain ⟨⟩ := hres
      exact .same
    rename_i spot hspot
    obtain ⟨h1, h2⟩ := hs.findFreeSpot hbytes hspot
    have hspec := regionOk_dressed hdress h1 hbytes h2
    rw [fileRegion_eq hres]
    refine .register (.keep (hs.registerRange hspec (fun a ha => hno _ a rfl ha) g)
      fun a p hp => hs.sound.registerRange_keeps _ g hp) fun P hk =>
        retasked_setVmas (hk.all.registerRange
        (fun _ => hk.files _ (.free (by simpa using hflag) (hborn _ _) ?_ ?_)) g)
    · rw [born_start]
      exact hspot
    · rw [born_start, born_stop]
      exact Nat.le_add_right _ _

theorem handleMprotect_ends
    (hres : σ.handleMprotect pid t rdi.toNat rsi.toNat rdx.toNat g = (value, σ')) :
    Ends hw tidy σ pid t (.mprotect rdi rsi rdx) σ' := by
  unfold handleMprotect at hres
  split at hres
  · obtain ⟨⟩ := hres
    exact .same
  rename_i hargs
  simp only [not_or, not_not] at hargs
  obtain ⟨h1, hlow, hhi, -⟩ := hargs
  split at hres
  · obtain ⟨⟩ := hres
    exact .same
  dsimp only at hres
  split at hres
  · obtain ⟨⟩ := hres
    exact .same
  rename_i hlt
  have h2 := alignUp_mod (wrap (rdi.toNat + rsi.toNat))
  -- the stretch ends below the limit
  have hstop : protectStop rdi rsi ≤ kUserTop := by
    rw [protectStop, wrap_of_lt (by simp only [kUserTop] at *; omega)]
    have := alignUp_mono (a := rdi.toNat + rsi.toNat) (b := kUserTop) (by omega) (by decide)
    rwa [alignUp_of_mod (a := kUserTop) (by decide) (by decide)] at this
  have hs' := hs.protect h1 h2 (protectTerms rdx) g
  have hfiled : ∀ P, Keeps P σ t (.mprotect rdi rsi rdx) →
      (t.vmas.protect rdi.toNat (protectStop rdi rsi) (protectTerms rdx) g).store.All P := by
    intro P hk
    obtain ⟨hcut, hheap⟩ := hk.protect rdi rsi rdx rfl (not_le.mp hlt)
    exact hk.all.protect hs.sound hcut hheap g
  split at hres
  · rename_i e he
    obtain ⟨⟩ := hres
    refine .register (.keep hs' fun a p hp => ?_) fun P hk => retasked_setVmas (hfiled P hk)
    rw [VmaStore.view, (hs.sound.protect_unchanged he).1]
    exact hp
  · rename_i hok
    obtain ⟨⟩ := hres
    exact .register (.protect h1 h2 (not_le.mp hlt) hstop hs' (hs.sound.protect_view hok))
      fun P hk => ⟨⟨_, hfiled P hk, rfl⟩, rfl, rfl⟩

/-- The break moves.  Below its old end it withdraws what the register gave up;
the end of the heap is the page end of the break. -/
theorem handleBrk_ends (hres : σ.handleBrk hw pid t rdi.toNat g = .ok (value, σ')) :
    Ends hw tidy σ pid t (.brk rdi) σ' := by
  have hs' := hs.moveHeapEnd rdi.toNat g
  have hfiled : ∀ P, Keeps P σ t (.brk rdi) → (t.vmas.moveHeapEnd rdi.toNat g).store.All P := by
    intro P hk
    refine hk.all.moveHeapEnd hs hk.cuts (fun hgrows => ?_) hk.heap g
    refine hk.files _ (.extend (VmaStore.born_fields _).2.2.2.1 (born_start _) ?_)
    exact le_of_lt hgrows
  unfold handleBrk at hres
  dsimp only at hres
  split at hres
  · rename_i e he
    obtain ⟨⟩ := hres
    refine .register (.keep hs' fun a p hp => ?_) fun P hk => retasked_setVmas (hfiled P hk)
    rw [VmaStore.view, (hs.sound.moveHeapEnd_unchanged he).1]
    exact hp
  rename_i value' hok
  have hview := fun {a p} => hs.sound.moveHeapEnd_view (a := a) (p := p) hok
  have htop := hs.heap.stop_le
  rw [hs.heapStop] at hview htop
  have hnew := alignUp_mod value'
  have hold := alignUp_mod t.vmas.heapBreak
  unfold VmaStore.heapEnd at hres
  split at hres
  · have hbytes : (alignUp t.vmas.heapBreak kSize - alignUp value' kSize) % kSize = 0 := by
      simp only [kSize] at *
      omega
    -- the register moved first; the withdrawal starts from the moved one
    split at hres
    · cases hres
    rename_i σ₁ g' hrec
    obtain ⟨⟩ := hres
    have hs₁ : ({ t with vmas := (t.vmas.moveHeapEnd rdi.toNat g).store } : Task).vmas.StoreOk tidy
        (σ.setVmas pid t (t.vmas.moveHeapEnd rdi.toNat g).store).lens := hs'
    obtain ⟨s, hs₂, hall, ⟨e, he, -, -⟩ | ⟨-, rfl, hv'⟩⟩ := reclaimUserSpan_cases hs₁ hnew hbytes
      (by simp only [kUserTop] at htop; omega) hrec
    · cases he
    rw [setVmas_setVmas]
    refine .register (.withdraw hnew hbytes (.inl (by omega)) hs₂ fun a p hp hout => ?_)
      fun P hk => ⟨⟨s, hall P hk.cuts (hfiled P hk), rfl⟩, rfl, rfl⟩
    rw [hv', if_neg hout]
    exact hview hp (by omega)
  · obtain ⟨⟩ := hres
    exact .register (.keep hs' fun a p hp => hview hp (by omega))
      fun P hk => retasked_setVmas (hfiled P hk)

end

/-! ### Segments -/

theorem attachAt_ends (hs : t.vmas.StoreOk tidy σ.lens) {segment : Segment} {start : ℕ}
    (hmem : some segment ∈ σ.segments) (hlive : 0 < σ.lens segment.pages)
    (hmay : permitted segment t (!rdx.toNat.testBit 12) = true)
    (hres : σ.attachAt pid t segment.pages start ((σ.mem.pages segment.pages).length * kSize)
      (!rdx.toNat.testBit 12) g = (value, σ')) : Ends hw tidy σ pid t (.shmat rdi rsi rdx) σ' := by
  unfold attachAt at hres
  split at hres
  · obtain ⟨⟩ := hres
    exact .same
  rename_i hargs
  simp only [not_or, not_not, not_lt] at hargs
  obtain ⟨h1, h2, h3, h4⟩ := hargs
  -- the checks passed: the span is aligned and ends below the top
  have hend : start + (σ.mem.pages segment.pages).length * kSize ≤ kUserTop := by omega
  have hstop : (start + (σ.mem.pages segment.pages).length * kSize) % kSize = 0 := by
    simp only [kSize] at *
    omega
  split at hres
  · obtain ⟨⟩ := hres
    exact .same
  dsimp only at hres
  split at hres <;> obtain ⟨⟩ := hres
  all_goals
    refine .register (.keep (hs.registerRange
      ⟨h1, hstop, hend, rfl, fun hk => absurd hk (by simp), fun _ => rfl⟩ (fun a ha => ?_) _)
      fun a p hp => hs.sound.registerRange_keeps _ _ hp) fun P hk =>
        retasked_setVmas (hk.all.registerRange
        (fun _ => hk.files _ (.attach hmem hmay rfl rfl rfl ?_ ?_)) _)
    · obtain ⟨⟩ := ha
      exact ⟨h1, rfl, hend, hlive, fun _ => ⟨le_refl _, le_refl _⟩⟩
    · exact h2
    · exact Nat.le_add_right _ _

theorem handleShmat_ends (hs : t.vmas.StoreOk tidy σ.lens)
    (hlive : ∀ s, some s ∈ σ.segments → 0 < σ.lens s.pages)
    (hres : σ.handleShmat pid t rdi.toNat rsi.toNat rdx.toNat g = (value, σ')) :
    Ends hw tidy σ pid t (.shmat rdi rsi rdx) σ' := by
  unfold handleShmat at hres
  split at hres
  · obtain ⟨⟩ := hres
    exact .same
  split at hres
  · obtain ⟨⟩ := hres
    exact .same
  rename_i segment hseg
  have hmem := List.mem_of_find?_eq_some (Option.join_eq_some_iff.mp hseg)
  split at hres
  · obtain ⟨⟩ := hres
    exact .same
  rename_i hmay
  dsimp only at hres
  generalize (if rdx.toNat.testBit 13 = true then alignDown rsi.toNat kSize else rsi.toNat) = start
    at hres
  split at hres
  · split at hres
    · obtain ⟨⟩ := hres
      exact .same
    · exact attachAt_ends hs hmem (hlive segment hmem) (by simpa using hmay) hres
  · exact attachAt_ends hs hmem (hlive segment hmem) (by simpa using hmay) hres

/-- Clearing a slot of a list leaves no entry that was not there. -/
theorem mem_of_replaceF {α : Type*} [DecidableEq α] {x gone : α} : ∀ {l : List (Option α)},
    some x ∈ l.replaceF (fun slot => if slot = some gone then some none else none) →
    some x ∈ l := by
  intro l
  induction l with
  | nil => simp
  | cons y l ih =>
    intro hmem
    rw [List.replaceF_cons] at hmem
    by_cases hy : y = some gone
    · rw [if_pos hy] at hmem
      simp only [List.mem_cons, reduceCtorEq, false_or] at hmem
      exact List.mem_cons_of_mem _ hmem
    · rw [if_neg hy] at hmem
      simp only [List.mem_cons] at hmem ⊢
      exact hmem.imp_right ih

theorem handleShmRemove_ends {rdi : ℕ} (hres : σ.handleShmRemove t rdi = (value, σ')) :
    Ends hw tidy σ pid t call σ' := by
  unfold handleShmRemove at hres
  split at hres
  · obtain ⟨⟩ := hres
    exact .same
  split at hres <;> obtain ⟨⟩ := hres
  · exact .same
  · exact .untasked (.remove fun s hs => mem_of_replaceF hs) rfl
      (.less (le_refl _) fun s hs => mem_of_replaceF hs)

/-- Making a page list touches the ledger, the bytes and the lists alone. -/
theorem allocateFrames_rest {p : ℕ} : ∀ {count : ℕ} {w v : Memory} {b : Bool},
    allocateFrames p count w = .ok (b, v) →
    v = { w with pmm := v.pmm, bytes := v.bytes, pages := v.pages } := by
  intro count
  induction count with
  | zero =>
    intro w v b h
    obtain ⟨⟩ := h
    rfl
  | succ count ih =>
    intro w v b h
    unfold allocateFrames at h
    dsimp only at h
    split at h
    · obtain ⟨⟩ := h
      rfl
    split at h
    · nomatch h
    · rw [ih h]

theorem makeSegment_ends {key bytes flags slot : ℕ} (hbytes : 0 < bytes)
    (hmax : bytes ≤ kSegmentBytesMax)
    (hres : σ.makeSegment t key bytes flags slot g = .ok (value, σ')) :
    Ends hw tidy σ pid t call σ' := by
  have hcount : 0 < alignUp bytes kSize / kSize := by
    have := alignUp_of_le (a := bytes) (by simp only [kSegmentBytesMax, kSize] at *; omega)
    have := alignUp_mod bytes
    simp only [kSize] at *
    omega
  unfold makeSegment at hres
  split at hres
  · obtain ⟨⟩ := hres
    exact .same
  split at hres
  · -- the list has its number, and no page yet
    obtain ⟨⟩ := hres
    have hno : allocateFrames σ.nextPages 0 σ.mem = .ok (true, σ.mem) := rfl
    exact .untasked (.frames hno fun s hs => .inl hs) rfl (.less (Nat.le_succ _) fun _ => id)
  split at hres
  · cases hres
  rename_i made w hmade
  split at hres <;> obtain ⟨⟩ := hres
  · exact .untasked (.frames hmade fun s hs => .inl hs) rfl (.less (Nat.le_succ _) fun _ => id)
  rename_i hgranted
  refine .untasked (.frames hmade fun s hs => (List.mem_or_eq_of_mem_set hs).imp_right fun he => ?_)
    rfl (.more _ rfl rfl fun s hs => (List.mem_or_eq_of_mem_set hs).imp_right Option.some.inj)
  obtain ⟨⟩ := he
  exact ⟨rfl, by revert hgranted; cases made <;> simp, hcount⟩

theorem handleShmget_ends {rdi rsi rdx : ℕ}
    (hres : σ.handleShmget t rdi rsi rdx g = .ok (value, σ')) : Ends hw tidy σ pid t call σ' := by
  unfold handleShmget at hres
  dsimp only at hres
  split at hres
  · -- a segment has the key: nothing is made
    split at hres
    · obtain ⟨⟩ := hres
      exact .same
    split at hres
    · obtain ⟨⟩ := hres
      exact .same
    split at hres <;> obtain ⟨⟩ := hres
    all_goals exact .same
  · split at hres
    · obtain ⟨⟩ := hres
      exact .same
    split at hres
    · obtain ⟨⟩ := hres
      exact .same
    split at hres
    · obtain ⟨⟩ := hres
      exact .same
    · exact makeSegment_ends (by omega) (by omega) hres

section

variable (hs : t.vmas.StoreOk tidy σ.lens) (hlive : ∀ s, some s ∈ σ.segments → 0 < σ.lens s.pages)
  (hres : σ.syscall hw pid t g call = .ok (value, σ'))
include hs hlive hres

/-- Every call ends in one of the six ways, files what it may and leaves the segments in order. -/
theorem syscall_ends : Ends hw tidy σ pid t call σ' := by
  cases call with
  | mmap rdi rsi rdx r10 r9 file => exact handleMmap_ends hs (ok.inj hres)
  | munmap rdi rsi => exact handleMunmap_ends hs (ok.inj hres)
  | mprotect rdi rsi rdx => exact handleMprotect_ends hs (ok.inj hres)
  | brk rdi => exact handleBrk_ends hs hres
  | shmget rdi rsi rdx => exact handleShmget_ends hres
  | shmat rdi rsi rdx => exact handleShmat_ends hs hlive (ok.inj hres)
  | shmdt rdi => exact handleShmdt_ends hs (ok.inj hres)
  | shmRemove rdi => exact handleShmRemove_ends (ok.inj hres)

theorem syscall_step : CallStep hw tidy σ pid t call σ' := (syscall_ends hs hlive hres).step

end

end System

end Cinux
