/-
The width of the share count.

`retain_frame` checks that the ledger knows the frame and that its count is below
255.  The first check never fails.  The second one does: every attachment that is
touched and every leaf a fork copies adds one to the count of its frame, and
nothing bounds their number.

* `Walks.shareLeaves_room`, `Good.fillRegion_room`, `Good.allocateFrames_room` —
  the three callers of `retain_frame`, when there is room;
* `Fits` — there is room for a step, read off the state before it;
* `retain_checks_hold` — no run whose steps all fit fails a check;
* `attachments_overflow` — a run of attachments and touches that does.
-/
import Cinux.Shares

namespace Cinux

open Ledger Machine Option

/-- The halts of the two checks of `retain_frame`. -/
def Halt.OfRetain (e : Halt) : Prop := e = .ledgerMiss ∨ e = .countWidth

variable {hw : Hardware} {boot : ℕ → Bool} {promised : ℕ → ℕ → Option Promise} {use : ℕ → Use}
  {w v : Memory} {pid n f : ℕ} {e : Halt}

/-- A frame of the ledger whose count is below its width is retained. -/
theorem Memory.retain_of_room (h1 : f < kPmmTotalPages) (h2 : w.pmm.shares f < 0xFF) :
    w.retain f = .ok { w with pmm := w.pmm.addShare f } := by
  unfold Memory.retain
  rw [Pmm.retainFrame_of_lt h1 h2]

/-! ### The count and the leaves -/

/-- The frames whose shares are counted. -/
def Counted (use : ℕ → Use) (f : ℕ) : Prop := use f = .priv ∨ use f = .pooled

/-- The leaves of a frame leave room for `k` more shares.  A segment's list has a
share of its own. -/
def HasRoom (w : Memory) (f k : ℕ) : Prop :=
  (({ mem := w } : System).leaves f).ncard + k ≤ 0xFF ∧
  (({ mem := w } : System).InSegment f → (({ mem := w } : System).leaves f).ncard + k + 1 ≤ 0xFF)

/-- Only the list of a segment names a frame as pooled. -/
theorem System.inSegment_of_pool {r : Ref} (h : w.names r = some (f, .pool)) :
    ({ mem := w } : System).InSegment f := by
  have hent : ∀ level e, entryName level e ≠ some (f, .pool) := by
    intro level e hc
    have hk := (System.entryName_some hc).2.2
    split at hk
    · split at hk <;> nomatch hk
    · nomatch hk
  cases r with
  | root pid =>
    obtain ⟨g, -, hg⟩ := map_eq_some_iff.mp h
    exact absurd (Prod.mk.inj hg).2 (by simp)
  | pool p i =>
    obtain ⟨g, hg, he⟩ := map_eq_some_iff.mp h
    obtain ⟨⟩ := he
    exact ⟨p, List.mem_of_getElem? hg⟩
  | kernel level p => exact absurd (Memory.names_kernel.mp h).2.2 (by simp)
  | node pid level p =>
    have h' : (if level ≤ 3 then entryName level (w.tables pid level p) else none)
        = some (f, .pool) := h
    split at h'
    · exact absurd h' (hent _ _)
    · nomatch h'

theorem Counted.not_hardware (hf : Counted use f) (h : Good hw boot promised none use w) :
    hw.isHardwarePage f = false := by
  by_contra hhw
  have hfor := (h.kept.foreign f).mpr (by simpa using hhw)
  rcases hf with hf | hf <;> rw [hf] at hfor <;> nomatch hfor

/-- The count of a frame is at most the number of its leaves, and one more in a
segment. -/
theorem HasRoom.shares {k : ℕ} (hroom : HasRoom w f k) (h : Good hw boot promised none use w)
    (hf : Counted use f) : w.pmm.shares f + k ≤ 0xFF := by
  have hfin := System.leaves_finite (σ := { mem := w }) h f
  rcases hf with hf | hf
  · have hshares := (System.private_shares (σ := { mem := w }) h hf).1
    have hle : (({ mem := w } : System).cowLeaves f).ncard ≤
      (({ mem := w } : System).leaves f).ncard :=
      Set.ncard_le_ncard (fun x hx => hx.1) hfin
    have hshares : w.pmm.shares f = _ := hshares
    have := hroom.1
    omega
  · have hallows := h.kept.lawful.allows f
    rw [hf] at hallows
    simp only [Use.Allows, Book.standing] at hallows
    -- without marked leaves the plain names are the leaves
    have hplain : (⟨w.pmm.used, w.pmm.shares, w.names⟩ : Book Ref ℕ).tally f .plain
        = (({ mem := w } : System).leaves f).ncard :=
          System.tally_plain { mem := w } f fun x hx => by
      by_contra hc
      have hname := w.names_leaf hx.1
      rw [if_pos (by simpa using hc), hx.2] at hname
      have := h.kept.use_of_cow hname
      rw [hf] at this
      cases this
    by_cases hseg : ({ mem := w } : System).InSegment f
    · have := hroom.2 hseg
      omega
    have hno : (⟨w.pmm.used, w.pmm.shares, w.names⟩ : Book Ref ℕ).tally f .pool = 0 := by
      have hempty : {r | w.names r = some (f, .pool)} = ∅ :=
        Set.eq_empty_iff_forall_notMem.mpr fun r hr => hseg (System.inSegment_of_pool hr)
      show Set.ncard {r | w.names r = some (f, .pool)} = 0
      rw [hempty, Set.ncard_empty]
    have := hroom.1
    omega

/-! ### The walk of a fork -/

theorem Memory.markPageShared_error (h : w.markPageShared pid n = .error e) :
    ∃ leaf, (w.tables pid).leafSlot n = some leaf ∧ w.retain leaf.frame = .error e := by
  unfold Memory.markPageShared at h
  split at h
  · nomatch h
  rename_i leaf hslot
  split at h
  · nomatch h
  split at h
  · nomatch h
  split at h
  · rename_i hretained
    obtain ⟨⟩ := h
    exact ⟨leaf, hslot, hretained⟩
  · nomatch h

variable {ranges : VmaStore} {parent child : ℕ} {l : List ℕ}

/-- Both leaves of a private page are marked without a failed check: a marked
leaf has room for one more share, and an unmarked one has no share yet. -/
theorem Memory.markBoth_room (hne : parent ≠ child) {slot cl : Entry}
    (hslot : (w.tables parent).leafSlot n = some slot) (hp : slot.present = true)
    (hmark : slot.cow = true → slot.writable = false)
    (hchild : (w.tables child).leafSlot n = some cl) (hframe : cl.frame = slot.frame)
    (hlt : slot.frame < kPmmTotalPages) (hroom : w.pmm.shares slot.frame < 0xFF)
    (hplain : slot.cow = false → w.pmm.shares slot.frame = 0)
    (hres : Memory.markBoth parent child n w = .error e) : ¬ e.OfRetain := by
  have hfirst : ∀ e', w.markPageShared parent n ≠ .error e' := by
    intro e' hc
    obtain ⟨leaf, hleaf, hretained⟩ := Memory.markPageShared_error hc
    obtain rfl : leaf = slot := mem_unique hleaf hslot
    rw [Memory.retain_of_room hlt hroom] at hretained
    cases hretained
  unfold Memory.markBoth at hres
  split at hres
  · rename_i hc
    exact absurd hc (hfirst _)
  · obtain ⟨⟩ := hres
    simp [Halt.OfRetain]
  rename_i u hu
  have hcases := Memory.markPageShared_ok hslot hp hmark hu
  -- what the second mark meets
  have hu2 : (u.tables child).leafSlot n = some cl ∧ u.pmm.shares slot.frame < 0xFF := by
    rcases hcases with ⟨-, rfl⟩ | ⟨hcow, rfl⟩
    · exact ⟨hchild, hroom⟩
    · refine ⟨by simpa [Memory.marked, Memory.setTable, hne.symm] using hchild, ?_⟩
      have hz := hplain hcow
      simp [Memory.marked, Pmm.addShare, hz]
  split at hres
  · rename_i hc
    obtain ⟨leaf, hleaf, hretained⟩ := Memory.markPageShared_error hc
    obtain rfl : leaf = cl := mem_unique hleaf hu2.1
    rw [hframe, Memory.retain_of_room hlt hu2.2] at hretained
    cases hretained
  · obtain ⟨⟩ := hres
    simp [Halt.OfRetain]
  · cases hres

/-- One leaf of the parent, when its frame has room for one more. -/
theorem Walks.shareLeaf_room (hwalk : Walks hw boot promised ranges parent child (n :: l) use w)
    (hroom : hw.isHardwarePage (w.tables parent 0 n).frame = false →
      HasRoom w (w.tables parent 0 n).frame 1)
    (hres : Memory.shareLeaf ranges parent child w n = .error e) : ¬ e.OfRetain := by
  obtain ⟨h, hne, hroot, hpar, -, -, -, hall⟩ := hwalk
  have hp := (hall n List.mem_cons_self).1
  obtain ⟨use', -, hgood, hgrow, hreach, -⟩ := h.ensure hroot (h.page_lt hp)
  unfold Memory.shareLeaf at hres
  simp only [Memory.mapUser_eq] at hres
  by_cases hmade : (w.ensure child n).1 = true
  swap
  · simp only [hmade] at hres
    obtain ⟨⟩ := hres
    simp [Halt.OfRetain]
  simp only [hmade, if_true] at hres
  obtain ⟨⟨p, hprom, hok⟩, -⟩ := h.leaves parent n hp
  have hview : ranges.view (n * kSize) = some p := by rw [← hpar, hprom]
  obtain ⟨region, hfind, rfl⟩ := map_eq_some_iff.mp hview
  rw [hfind] at hres
  simp only at hres
  by_cases hdev : region.kind = .device
  · rw [if_pos hdev] at hres
    nomatch hres
  rw [if_neg hdev] at hres
  -- what is not a device's is counted
  have hcounted : Counted use (w.tables parent 0 n).frame := by
    cases hshared : region.shared with
    | none => exact .inl (hok.priv hdev hshared)
    | some a =>
      exact .inr
        (hok.segment hdev (by rw [show (region.promise _).shared = _ from hshared]; rfl))
  have hname := w.names_leaf hp
  have hhw := hcounted.not_hardware h
  have hlt := h.kept.named_below hname hhw
  have hshares : (w.ensure child n).2.pmm.shares (w.tables parent 0 n).frame < 0xFF := by
    rw [hgrow.shares]
    exact (hroom hhw).shares h hcounted
  by_cases hshared : region.shared.isSome = true
  · rw [if_pos hshared, Memory.retain_of_room hlt ?_] at hres
    · nomatch hres
    · exact hshares
  rw [if_neg hshared] at hres
  have hpriv := hok.priv hdev (show region.shared = none by simpa using hshared)
  have hf40 : (w.tables parent 0 n).frame < 2 ^ 40 := h.kept.named_lt hname
  have hclone : (makeTableEntry (w.tables parent 0 n).frame
      (Memory.cloneTerms (w.tables parent 0 n))).frame = (w.tables parent 0 n).frame :=
    makeTableEntry_frame hf40 _
  refine Memory.markBoth_room hne ?_ hp hok.marked ?_ hclone hlt ?_ (fun hcow => ?_) hres
  · rw [Memory.setTable_ne _ _ hne, hgrow.others parent hne]
    exact (h.tables parent).closed.leafSlot_of_present hp
  · rw [Memory.setTable_self]
    have := PageTable.leafSlot_of_reaches ((PageTable.setLeaf_reaches (makeTableEntry
      (w.tables parent 0 n).frame (Memory.cloneTerms (w.tables parent 0 n))) n).mpr (hreach hmade))
    rwa [PageTable.setLeaf_self] at this
  · exact hshares
  · -- an unmarked leaf is alone and has no share
    show (w.ensure child n).2.pmm.shares _ = 0
    rw [hgrow.shares]
    exact ((System.private_shares (σ := { mem := w }) h hpriv).2.1 (parent, n) ⟨hp, rfl⟩ hcow).2

/-- What one shared page does to the leaves of a frame. -/
theorem Shared.leaves_le (hs : Shared parent child n w v) (h : Good hw boot promised none use w)
    (f : ℕ) : (({ mem := v } : System).leaves f).ncard ≤ (({ mem := w } : System).leaves f).ncard +
        if (w.tables parent 0 n).frame = f then 1 else 0 := by
  have hfin := System.leaves_finite (σ := { mem := w }) h f
  -- an old leaf, or the child's new one
  have hsub : ∀ x ∈ ({ mem := v } : System).leaves f, x ∈ ({ mem := w } : System).leaves f ∨
      x = (child, n) ∧ (w.tables parent 0 n).frame = f := by
    rintro ⟨q, k⟩ ⟨hp, hf⟩
    by_cases hq : q = parent
    · subst hq
      obtain ⟨e1, e2⟩ := hs.parentLeaf k
      rw [e1] at hp
      rw [e2] at hf
      exact .inl ⟨hp, hf⟩
    by_cases hc : q = child
    · subst hc
      by_cases hk : k = n
      · subst hk
        rw [hs.childNew.2] at hf
        exact .inr ⟨rfl, hf⟩
      rcases hs.childLeaf k hk with he | ⟨he, -⟩
      · rw [he] at hp hf
        exact .inl ⟨hp, hf⟩
      · rw [he] at hp
        nomatch hp
    · rw [hs.others q hq hc] at hp hf
      exact .inl ⟨hp, hf⟩
  split
  · have hins : ({ mem := v } : System).leaves f ⊆ insert (child, n)
        (({ mem := w } : System).leaves f) := by
      intro x hx
      rcases hsub x hx with hx | ⟨rfl, -⟩
      · exact Set.mem_insert_of_mem _ hx
      · exact Set.mem_insert _ _
    exact (Set.ncard_le_ncard hins (hfin.insert _)).trans (Set.ncard_insert_le _ _)
  · rename_i hne
    refine Set.ncard_le_ncard (fun x hx => ?_) hfin
    exact (hsub x hx).resolve_right fun hc => hne hc.2

/-- The walk over the parent's leaves, when every frame has room for each of the
leaves left that name it. -/
theorem Walks.shareLeaves_room : ∀ {l : List ℕ} {use : ℕ → Use} {w : Memory},
    Walks hw boot promised ranges parent child l use w →
    (∀ f, hw.isHardwarePage f = false →
      HasRoom w f (l.countP fun n => (w.tables parent 0 n).frame = f)) →
    Memory.shareLeaves ranges parent child l w = .error e → ¬ e.OfRetain := by
  intro l
  induction l with
  | nil =>
    intro use w _ _ hres
    exact absurd hres (by simp [Memory.shareLeaves])
  | cons n l ih =>
    intro use w h hroom hres
    rw [Memory.shareLeaves] at hres
    split at hres
    · rename_i hc
      obtain ⟨⟩ := hres
      refine h.shareLeaf_room (fun hhw => ?_) hc
      have := hroom _ hhw
      rw [List.countP_cons_of_pos (by simp)] at this
      exact ⟨by have := this.1; omega, fun hseg => by have := this.2 hseg; omega⟩
    · rename_i u hu
      obtain ⟨use', hgood, hs⟩ := h.shareLeaf hu
      refine ih (h.next hs hgood) (fun f hhw => ?_) hres
      -- the leaf just shared has used up its place
      have hle := hs.leaves_le h.good f
      have hbefore := hroom f hhw
      simp only [List.countP_cons, decide_eq_true_eq] at hbefore
      have hcount : (l.countP fun k => decide ((u.tables parent 0 k).frame = f))
          = l.countP fun k => decide ((w.tables parent 0 k).frame = f) := by
        congr 1
        funext k
        rw [(hs.parentLeaf k).2]
      refine ⟨?_, fun hseg => ?_⟩
      · have := hbefore.1
        omega
      · have hseg' : ({ mem := w } : System).InSegment f := by
          obtain ⟨p, hp⟩ := hseg
          exact ⟨p, hs.pages ▸ hp⟩
        have := hbefore.2 hseg'
        omega

/-- `CloneSharedSpace`, when every frame has room for the parent's leaves. -/
theorem Good.cloneSharedSpace_room (h : Good hw boot promised none use w) (hne : parent ≠ child)
    (hroot : w.roots child = none) (hpar : ∀ a, promised parent a = ranges.view a)
    (hroom : ∀ f, hw.isHardwarePage f = false → HasRoom w f
      ((w.tables parent).userLeaves.countP fun n => (w.tables parent 0 n).frame = f))
    {granted : Bool}
    (hres : Memory.cloneSharedSpace ranges parent child granted w = .error e) : ¬ e.OfRetain := by
  unfold Memory.cloneSharedSpace at hres
  split at hres
  · nomatch hres
  split at hres
  · nomatch hres
  rename_i hmade
  split at hres
  · obtain ⟨⟩ := hres
    simp [Halt.OfRetain]
  split at hres
  swap
  · nomatch hres
  rename_i e' hshare
  obtain rfl := Except.error.inj hres
  obtain ⟨use', -, htable, -, -, -⟩ := h.initSpace hroot
  obtain ⟨use₁, hwalk⟩ := h.readyClone hne hroot hpar (by simpa using hmade)
  -- the history the invariant needs is not read by the walk
  have hshare' : Memory.shareLeaves ranges parent child (w.tables parent).userLeaves
      ((w.initSpace child).2.withHistory (.forked parent child :: w.history)) = .error e' := by
    rw [Memory.shareLeaves_withHistory, hshare]
    rfl
  refine hwalk.shareLeaves_room (fun f hhw => ?_) hshare'
  have hsame : ({ mem := (w.initSpace child).2.withHistory (.forked parent child :: w.history) } :
      System).leaves f = ({ mem := w } : System).leaves f := by
    unfold System.leaves Memory.withHistory
    rw [htable]
  have hseg : ({ mem := (w.initSpace child).2.withHistory (.forked parent child :: w.history) } :
      System).InSegment f ↔ ({ mem := w } : System).InSegment f := by
    unfold System.InSegment Memory.withHistory
    rw [(w.initSpace_frame child).1]
  unfold HasRoom
  rw [hseg]
  simp only [Memory.withHistory, htable]
  exact hroom f hhw

/-! ### Filling and allocating -/

/-- The frame of a segment that a fill picks for a region at a page. -/
def Memory.segmentFrame (w : Memory) (region : VmaRegion) (page : ℕ) : Option ℕ :=
  region.shared.bind fun attached =>
    (w.pages attached.pages)[sub64 page attached.start / kSize]?

variable {region : VmaRegion} {read : Option Page}

/-- The fill of an attachment, when the frame has room for one more leaf. -/
theorem Good.fillRegion_room (h : Good hw boot promised none use w) (hroot : w.roots pid ≠ none)
    (hn : n < kUserPages)
    (hroom : ∀ f, w.segmentFrame region (n * kSize) = some f → HasRoom w f 1) :
    Memory.fillRegion hw w pid (n * kSize) region read ≠ .error e := by
  intro hres
  unfold Memory.fillRegion at hres
  rw [pageOf_page hn] at hres
  -- only a segment's page is shared, so only there is a count raised
  cases hshared : region.shared with
  | none =>
    rw [hshared] at hres
    simp only at hres
    split at hres
    · split at hres <;> cases hres
    · cases hres
  | some attached =>
    rw [hshared] at hres
    simp only at hres
    split at hres
    · cases hres
    rename_i f hframe
    have hname : w.names (.pool attached.pages (sub64 (n * kSize) attached.start / kSize))
        = some (f, .pool) := by simp [Memory.names, hframe]
    have hcounted : Counted use f := .inr (h.kept.use_of_pool hname)
    have hshares := (hroom f (by rw [Memory.segmentFrame, hshared]; exact hframe)).shares h hcounted
    obtain ⟨use', -, -, hgrow, -, -⟩ := h.ensure hroot hn
    simp only [Memory.mapUser_eq] at hres
    by_cases hmade : (w.ensure pid n).1 = true
    · simp only [hmade] at hres
      rw [Memory.retain_of_room (h.kept.named_below hname (hcounted.not_hardware h)) ?_] at hres
      · cases hres
      · show (w.ensure pid n).2.pmm.shares f < _
        rw [hgrow.shares]
        omega
    · simp [hmade] at hres

variable {address : ℕ} {code : FaultCode} {tidy : Prop} {lens : ℕ → ℕ}

/-- The resolver, when the frame of a segment it may map has room. -/
theorem Good.resolveFault_room (h : Good hw boot promised none use w) (hroot : w.roots pid ≠ none)
    (hroom : ∀ r f, ranges.find address = some r →
      w.segmentFrame r (alignDown address kSize) = some f →
      (w.tables pid 0 (pageOf address)).present = false → HasRoom w f 1)
    (hres : Memory.resolveFault hw ranges w pid address code read = .error e) : ¬ e.OfRetain := by
  have hresolve := Memory.resolveFault_resolved hw ranges w pid address code read
  generalize Memory.resolveFault hw ranges w pid address code read = r at hres hresolve
  cases hresolve with
  | refused => nomatch hres
  | halted =>
    obtain ⟨⟩ := hres
    simp [Halt.OfRetain]
  | copied => nomatch hres
  | @filled region hfind hn hn' hslot =>
    have hdown : alignDown address kSize = pageOf address * kSize := by rw [hn]; rfl
    rw [hdown] at hroom
    exact absurd hres (h.fillRegion_room hroot hn' fun f hf => hroom region f hfind hf
      (absent_of_findSlot (h.tables pid).closed hslot))

/-- A page the ledger hands out has no share. -/
def Pmm.Clean (m : Pmm) : Prop := ∀ f, f < kPmmTotalPages → m.used f = false → m.shares f = 0

/-- The loop of `allocate_pages` retains fresh frames, which have no share. -/
theorem System.allocateFrames_room {p : ℕ} : ∀ {count : ℕ} {w : Memory}, w.pmm.used 0 = true →
    w.pmm.Clean → System.allocateFrames p count w ≠ .error e := by
  intro count
  induction count with
  | zero =>
    intro w _ _ hres
    exact absurd hres (by simp [System.allocateFrames])
  | succ count ih =>
    intro w h0 hclean hres
    rw [System.allocateFrames] at hres
    rcases Pmm.allocatePage_cases h0 with hno | ⟨f, hso, hne, hlt, hclear⟩
    · rw [hno] at hres
      cases hres
    rw [hso] at hres
    simp only [hne] at hres
    have hz : (w.pmm.take f).shares f < 0xFF := by
      rw [show (w.pmm.take f).shares f = w.pmm.shares f from rfl, hclean f hlt hclear]
      omega
    rw [Pmm.retainFrame_of_lt hlt hz] at hres
    refine ih ?_ (fun g hg hgc => ?_) hres
    · simp [Pmm.addShare, Pmm.take, Function.update_apply, h0]
    · -- the frame just taken is not clear, every other one is as it was
      have hgf : g ≠ f := by
        rintro rfl
        simp [Pmm.addShare, Pmm.take] at hgc
      simp only [Pmm.addShare, Pmm.take, Function.update_of_ne hgf] at hgc ⊢
      exact hclean g hg hgc

/-! ### Steps and runs -/

namespace System

variable {σ σ' : System} {t : Task} {g : Grants}

/-- How many leaves of a task name a frame. -/
def ownLeaves (σ : System) (pid f : ℕ) : ℕ :=
  (σ.mem.tables pid).userLeaves.countP fun n => (σ.mem.tables pid 0 n).frame = f

/-- The frame of a segment that an access of a task would map. -/
def segmentFrame (σ : System) (pid address : ℕ) : Option ℕ :=
  (σ.tasks pid).bind fun t => (t.vmas.find address).bind fun r =>
    σ.mem.segmentFrame r (alignDown address kSize)

/-- There is room in the counts for the operation.  A fork adds a leaf for every
leaf of the parent, an access to an absent page of an attachment adds one; a
frame may have 255 leaves, and 254 in a segment. -/
def Fits (hw : Hardware) (σ : System) : Op → Prop
  | .fork pid _ _ => ∀ f, hw.isHardwarePage f = false →
      (σ.leaves f).ncard + σ.ownLeaves pid f ≤ 0xFF ∧
      (σ.InSegment f → (σ.leaves f).ncard + σ.ownLeaves pid f + 1 ≤ 0xFF)
  | .fault pid address _ _ | .load pid address _ | .store pid address _ _ =>
      ∀ f, σ.segmentFrame pid address = some f →
        (σ.mem.tables pid 0 (pageOf address)).present = false → (σ.leaves f).ncard + 2 ≤ 0xFF
  | _ => True

theorem teardown_error {w : Memory} (h : w.teardown hw pid = .error e) : e = .largePage := by
  unfold Memory.teardown at h
  split at h
  · nomatch h
  split at h
  · exact (Except.error.inj h).symm
  · nomatch h

theorem exitTask_room (hres : σ.exitTask hw pid = .error e) : ¬ e.OfRetain := by
  unfold exitTask at hres
  split at hres
  · rename_i hdown
    obtain ⟨⟩ := hres
    simp [teardown_error hdown, Halt.OfRetain]
  · nomatch hres

section

variable (h : Sane hw boot tidy σ) (ht : σ.tasks pid = some t)
include h ht

theorem faultTask_room (hfault : ∀ f, σ.segmentFrame pid address = some f →
      (σ.mem.tables pid 0 (pageOf address)).present = false → (σ.leaves f).ncard + 2 ≤ 0xFF)
    (hres : σ.faultTask hw pid t address code read = .error e) : ¬ e.OfRetain := by
  obtain ⟨use, hgood⟩ := h.good
  unfold faultTask at hres
  split at hres
  · rename_i hstopped
    obtain ⟨⟩ := hres
    refine hgood.resolveFault_room (h.root_of_task ht) (fun r f hr hf habs => ?_)
      hstopped
    have hroom := hfault f (by rw [segmentFrame, ht]; simp only [bind_some, hr]; exact hf) habs
    have hsame : ({ mem := σ.mem } : System).leaves f = σ.leaves f := rfl
    exact ⟨by rw [hsame]; omega, fun _ => by rw [hsame]; omega⟩
  · nomatch hres
  · split at hres
    · split at hres
      · rename_i hex
        obtain ⟨⟩ := hres
        exact exitTask_room hex
      · nomatch hres
    · nomatch hres

theorem touch_room {write : Bool} (hfits : ∀ f, σ.segmentFrame pid address = some f →
      (σ.mem.tables pid 0 (pageOf address)).present = false → (σ.leaves f).ncard + 2 ≤ 0xFF)
    (hres : σ.touch hw pid t address write read = .error e) : ¬ e.OfRetain := by
  unfold touch at hres
  split at hres
  · nomatch hres
  split at hres
  · rename_i hfault
    obtain ⟨⟩ := hres
    exact faultTask_room h ht hfits hfault
  · nomatch hres
  · nomatch hres

theorem forkTask_room {late : Bool} (hfits : σ.Fits hw (.fork pid g late))
    (hres : σ.forkTask hw pid t g late = .error e) :
    ¬ e.OfRetain := by
  obtain ⟨use, hgood⟩ := h.good
  unfold forkTask at hres
  split at hres
  · rename_i hclean
    obtain ⟨⟩ := hres
    have hne := (h.task_lt ht).ne
    exact hgood.cloneSharedSpace_room hne h.root_next
      (congrFun (promised_of_task ht)) hfits hclean
  · nomatch hres
  · split at hres
    · nomatch hres
    split at hres
    · rename_i hdown
      obtain ⟨⟩ := hres
      simp [teardown_error hdown, Halt.OfRetain]
    · nomatch hres

end

theorem spawnTask_room {image : Image} (hres : σ.spawnTask hw image = .error e) : ¬ e.OfRetain := by
  unfold spawnTask at hres
  dsimp only at hres
  split at hres
  · nomatch hres
  split at hres
  · nomatch hres
  split at hres
  · rename_i hdown
    obtain ⟨⟩ := hres
    simp [teardown_error hdown, Halt.OfRetain]
  · nomatch hres

section

variable (h : Sane hw boot tidy σ)
include h

theorem makeSegment_room {key bytes flags slot : ℕ} :
    σ.makeSegment t key bytes flags slot g ≠ .error e := by
  obtain ⟨use, hgood⟩ := h.good
  have hclean : σ.mem.pmm.Clean := by
    intro f hlt hclear
    have hallows := hgood.kept.lawful.allows f
    rw [hgood.kept.idle_of_clear hclear hlt] at hallows
    exact hallows.2.1
  intro hres
  unfold makeSegment at hres
  split at hres
  · nomatch hres
  split at hres
  · nomatch hres
  split at hres
  · rename_i hmade
    exact absurd hmade (allocateFrames_room hgood.kept.used_zero hclean)
  · split at hres <;> nomatch hres

/-- Of the calls, `shmget` retains fresh frames and `brk` can lose its pages. -/
theorem syscall_room {call : Call}
    (hres : σ.syscall hw pid t g call = .error e) : ¬ e.OfRetain := by
  cases call with
  | brk rdi =>
    have hres : σ.handleBrk hw pid t rdi.toNat g = .error e := hres
    unfold handleBrk at hres
    dsimp only at hres
    split at hres
    · nomatch hres
    split at hres
    · split at hres
      · obtain ⟨⟩ := hres
        simp [Halt.OfRetain]
      · nomatch hres
    · nomatch hres
  | shmget rdi rsi rdx =>
    have hres : σ.handleShmget t rdi.toNat rsi.toNat rdx.toNat g = .error e := hres
    unfold handleShmget at hres
    dsimp only at hres
    split at hres
    · -- the segment is there already
      repeat' split at hres
      all_goals nomatch hres
    split at hres
    · nomatch hres
    split at hres
    · nomatch hres
    split at hres
    · nomatch hres
    · exact absurd hres (makeSegment_room h)
  | mmap | munmap | mprotect | shmat | shmdt | shmRemove => exact absurd hres (by simp [syscall])

/-- An operation there is room for fails no check of `retain_frame`. -/
theorem step_room {op : Op} (hfits : σ.Fits hw op)
    (hres : σ.step hw op = .error e) : ¬ e.OfRetain := by
  unfold step at hres
  split at hres
  · split at hres
    · rename_i hspawn
      obtain ⟨⟩ := hres
      exact spawnTask_room hspawn
    · cases hres
  split at hres
  · cases hres
  -- all other operations are those of a task that is there
  rename_i t ht
  split at hres
  swap
  · cases hres
  rename_i hact
  obtain ⟨⟩ := hres
  cases op with
  | spawn image => exact absurd ht (by simp [actor])
  | call pid call g =>
    simp only [act] at hact
    split at hact
    · rename_i hcall
      obtain ⟨⟩ := hact
      exact syscall_room h hcall
    · cases hact
  | fork pid g late =>
    simp only [act] at hact
    split at hact
    · rename_i hfork
      obtain ⟨⟩ := hact
      exact forkTask_room h ht hfits hfork
    · cases hact
  | fault pid address code read =>
    simp only [act] at hact
    split at hact
    · rename_i hfault
      obtain ⟨⟩ := hact
      exact faultTask_room h ht hfits hfault
    · cases hact
  | load pid address read =>
    simp only [act] at hact
    split at hact
    · rename_i htouch
      obtain ⟨⟩ := hact
      exact touch_room h ht hfits htouch
    · cases hact
  | store pid address byte read =>
    simp only [act] at hact
    split at hact
    · rename_i htouch
      obtain ⟨⟩ := hact
      exact touch_room h ht hfits htouch
    · cases hact
    · cases hact
  | exit pid =>
    simp only [act] at hact
    split at hact
    · rename_i hex
      obtain ⟨⟩ := hact
      exact exitTask_room hex
    · cases hact

end

theorem run_room : ∀ (ops : List Op) {σ : System}, Sane hw boot False σ →
    Along hw (Fits hw) σ ops → σ.run hw ops = .error e → ¬ e.OfRetain := by
  intro ops
  induction ops with
  | nil =>
    intro σ _ _ hres
    exact absurd hres (by simp [run])
  | cons op ops ih =>
    intro σ h halong hres
    rw [run] at hres
    split at hres
    · rename_i hone
      obtain ⟨⟩ := hres
      exact step_room h halong.1 hone
    · rename_i answer σ₁ hone
      exact ih (h.step (fun hc => hc.elim) hone) (halong.2 answer σ₁ hone) hres

/-- In every run from a booted machine, however many tasks and attachments it
uses: if there is room in the counts before each step, no step fails a check of
`retain_frame`. -/
theorem retain_checks_hold (b : Machine) (ops : List Op)
    (hfits : Along b.hw (Fits b.hw) b.boot ops) :
    b.boot.run b.hw ops ≠ .error .ledgerMiss ∧ b.boot.run b.hw ops ≠ .error .countWidth := by
  constructor
  · intro hres
    exact run_room ops (b.sane False) hfits hres (.inl rfl)
  · intro hres
    exact run_room ops (b.sane False) hfits hres (.inr rfl)

/-- A task makes a segment of one page; then sixteen tasks attach it sixteen times
each and read from every attachment. -/
def attachEverywhere : List Op :=
  [.spawn bare, .call 0 (.shmget 0 0x1000 0o600) []] ++
  (List.range 16).flatMap fun pid =>
    (List.range 16).flatMap (fun i =>
      [.call pid (.shmat 1 (UInt64.ofNat (0x10000 + i * 0x1000)) 0) [],
        .load pid (0x10000 + i * 0x1000) none]) ++ [.spawn bare]

/-- The 255th touch stops the kernel. -/
theorem attachments_overflow :
    small.boot.run small.hw attachEverywhere = .error .countWidth := by
  have heval : (small.boot.run small.hw attachEverywhere).map (fun _ => ())
      = .error .countWidth := by
    decide +kernel
  generalize small.boot.run small.hw attachEverywhere = result at heval ⊢
  cases result with
  | error e =>
    cases heval
    rfl
  | ok after => cases heval

/-- One attachment and one touch. -/
def attachOnce : List Op :=
  [.spawn bare, .call 0 (.shmget 0 0x1000 0o600) [], .call 0 (.shmat 1 0x10000 0) []]

/-- A first touch of a segment fits. -/
theorem retain_checks_first_touch :
    small.boot.run small.hw (attachOnce ++ [.load 0 0x10000 none])
      ≠ .error .ledgerMiss ∧
    small.boot.run small.hw (attachOnce ++ [.load 0 0x10000 none])
      ≠ .error .countWidth := by
  obtain ⟨σ, hrun, hframe, hpages, hshares⟩ :
      ∃ σ, small.boot.run small.hw attachOnce = .ok σ ∧
        σ.segmentFrame 0 0x10000 = some 3 ∧ 3 ∈ σ.mem.pages 0 ∧ σ.mem.pmm.shares 3 = 1 := by
    decide +kernel
  refine retain_checks_hold small _ ⟨trivial, fun _ σ₁ h₁ => ⟨trivial, fun _ σ₂ h₂ =>
    ⟨trivial, fun _ σ₃ h₃ => ⟨fun f hf _ => ?_, fun _ _ _ => trivial⟩⟩⟩⟩
  -- the state before the touch is the one evaluated above
  have hsame : small.boot.run small.hw attachOnce = .ok σ₃ := by
    simp only [attachOnce, run, h₁, h₂, h₃]
  obtain rfl : σ = σ₃ := Except.ok.inj (hrun.symm.trans hsame)
  obtain rfl : 3 = f := mem_unique hframe hf
  obtain ⟨use, hgood⟩ := (small.sane_run False (fun h => h.elim) hrun).good
  have := segment_shares hgood ⟨0, hpages⟩
  omega

end System

end Cinux
