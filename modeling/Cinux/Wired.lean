/-
Where the leaves of an attached region come from.

The fill of an attached page maps the frame of the segment's page list, and
nothing later moves the leaf to another frame: a fork hands it to the child with
its attachment, new terms keep it, and copy-on-write is for private memory only.

* `Wired` — the leaves of an attached region name frames of its own page list;
* `Wired.resolveFault`, `wired_callStep`, `wired_forkTask`, `wired_spawnTask`,
  `wired_exitTask`, `wired_reap` — what a step is made of;
* `wired_step` — no step breaks it, if a fork finds a register in order.
-/
import Cinux.Filed
import Cinux.Isolation

namespace Cinux

open Ledger Option Function

variable {hw : Hardware} {boot : ℕ → Bool} {promised promised' : ℕ → ℕ → Option Promise}
  {use : ℕ → Use} {w v : Memory} {pid n : ℕ}

/-! ### Leaves of attached regions -/

/-- A leaf of an attached region names a frame of the page list attached. -/
def Wired (promised : ℕ → ℕ → Option Promise) (w : Memory) : Prop :=
  ∀ pid n p a, (w.tables pid 0 n).present = true → promised pid (n * kSize) = some p →
    p.shared = some a → (w.tables pid 0 n).frame ∈ w.pages a.pages

/-- Every leaf is one of the page list, or has its frame from a leaf of the same
page in a region with the same attachment. -/
theorem Wired.carry (h : Wired promised w)
    (hleaf : ∀ pid n p a, (v.tables pid 0 n).present = true → promised' pid (n * kSize) = some p →
      p.shared = some a → (v.tables pid 0 n).frame ∈ v.pages a.pages ∨
        (w.pages a.pages ⊆ v.pages a.pages ∧ ∃ q p', (w.tables q 0 n).present = true ∧
          (w.tables q 0 n).frame = (v.tables pid 0 n).frame ∧
          promised q (n * kSize) = some p' ∧ p'.shared = some a)) : Wired promised' v := by
  intro pid n p a hp hprom ha
  rcases hleaf pid n p a hp hprom ha with hin | ⟨hsub, q, p', hq, hf, hprom', ha'⟩
  · exact hin
  · rw [← hf]
    exact hsub (h q n p' a hq hprom' ha')

/-- The same for a change that keeps the page lists and, at every leaf that
stays, the promise. -/
theorem Wired.keep (h : Wired promised w) (hpages : v.pages = w.pages)
    (hleaf : ∀ pid n p a, (v.tables pid 0 n).present = true → promised' pid (n * kSize) = some p →
      p.shared = some a → (w.tables pid 0 n).present = true ∧
        (w.tables pid 0 n).frame = (v.tables pid 0 n).frame ∧
        ∃ p', promised pid (n * kSize) = some p' ∧ p'.shared = some a) : Wired promised' v := by
  refine h.carry fun pid n p a hp hprom ha => .inr ⟨by rw [hpages]; exact fun _ h => h, pid, ?_⟩
  obtain ⟨h1, h2, p', h3, h4⟩ := hleaf pid n p a hp hprom ha
  exact ⟨p', h1, h2, h3, h4⟩

variable {read : Option Page} {address : ℕ}

/-- At most one leaf changed, and the new one is from the right list. -/
theorem Wired.edited (h : Wired promised w) (he : Edited pid n w v)
    (hnew : ∀ p a, (v.tables pid 0 n).present = true → promised pid (n * kSize) = some p →
      p.shared = some a → (v.tables pid 0 n).frame ∈ w.pages a.pages) : Wired promised v := by
  intro q k p a hp hprom ha
  rw [he.pages]
  by_cases hq : q = pid
  · subst hq
    by_cases hk : k = n
    · subst hk
      exact hnew p a hp hprom ha
    rcases he.leaf k hk with hsame | ⟨hsame, -⟩
    · rw [hsame] at hp ⊢
      exact h q k p a hp hprom ha
    · rw [hsame] at hp
      nomatch hp
  · rw [he.others q hq] at hp ⊢
    exact h q k p a hp hprom ha

/-- A fault in an attached region maps a frame of the right list, if any. -/
theorem Wired.resolveFault {ranges : VmaStore} {tidy : Prop} {lens : ℕ → ℕ} {code : FaultCode}
    {b : Bool} (hwired : Wired promised w) (h : Good hw boot promised none use w)
    (hroot : w.roots pid ≠ none) (hs : ranges.StoreOk tidy lens)
    (hview : ∀ a, promised pid a = ranges.view a)
    (hres : Memory.resolveFault hw ranges w pid address code read = .ok (b, v)) :
    Wired promised v := by
  obtain ⟨-, -, hed⟩ := h.resolveFault hroot hs hview hres
  refine hwired.edited hed fun p a hp hprom ha => ?_
  have hresolve := Memory.resolveFault_resolved hw ranges w pid address code read
  generalize Memory.resolveFault hw ranges w pid address code read = r at hres hresolve
  cases hresolve with
  | refused =>
    obtain ⟨⟩ := hres
    exact hwired pid _ p a hp hprom ha
  | halted => nomatch hres
  | copied _ _ hpresent hcow =>
    -- a marked leaf lies in private memory
    obtain ⟨⟨p', hprom', hok⟩, -⟩ := h.leaves pid _ hpresent
    obtain rfl : p' = p := mem_unique hprom' hprom
    have hname := w.names_leaf hpresent
    rw [if_pos hcow] at hname
    rw [(hok.of_priv (h.kept.use_of_cow hname)).2] at ha
    nomatch ha
  | filled hfind hn hn' hslot =>
    obtain ⟨hpage, hok, -⟩ := hs.find_page hfind
    have hdue := hview (pageOf address * kSize)
    rw [VmaStore.view, hn, hpage] at hdue
    rw [hn, hdue] at hprom
    obtain ⟨⟩ := hprom
    obtain ⟨-, -, -, hseg, -⟩ := h.fillRegion hroot hn'
      (absent_of_findSlot (h.tables pid).closed hslot) hok (by rw [hn, hdue]; rfl) hres
    exact hseg a ha hp

variable {q : ℕ} {value : ℤ}

namespace System

variable {tidy : Prop} {σ σ' : System} {t : Task} {g : Grants}

/-- A task got another register and its space other leaves. -/
theorem wired_restore (hwired : Wired σ.promised σ.mem) (ht : σ.tasks pid = some t) {s : VmaStore}
    (hpages : v.pages = σ.mem.pages) (hots : ∀ q, q ≠ pid → v.tables q = σ.mem.tables q)
    (hleaf : ∀ n p a, (v.tables pid 0 n).present = true → s.view (n * kSize) = some p →
      p.shared = some a → (σ.mem.tables pid 0 n).present = true ∧
        (σ.mem.tables pid 0 n).frame = (v.tables pid 0 n).frame ∧
        ∃ p', t.vmas.view (n * kSize) = some p' ∧ p'.shared = some a) :
    Wired ({ σ.setVmas pid t s with mem := v } : System).promised v := by
  rw [promised_update σ pid (some { t with vmas := s }) rfl]
  refine hwired.keep hpages fun q n p a hp hprom ha => ?_
  by_cases hq : q = pid
  · subst hq
    rw [update_self] at hprom
    rw [promised_of_task ht]
    exact hleaf n p a hp hprom ha
  · rw [update_of_ne hq] at hprom
    rw [hots q hq] at hp ⊢
    exact ⟨hp, rfl, p, hprom, ha⟩

section

variable (h : Sane hw boot tidy σ) (hwired : Wired σ.promised σ.mem) (ht : σ.tasks pid = some t)
include h hwired ht

theorem wired_callStep {call : Call} (hstep : CallStep hw tidy σ pid t call σ') :
    Wired σ'.promised σ'.mem := by
  obtain ⟨use, hgood⟩ := h.good
  -- a leaf has a promise, so a register that promises more promises the same there
  have hkeep : ∀ {s : VmaStore} {n : ℕ} {p : Promise} {a : SharedAttachment},
      (σ.mem.tables pid 0 n).present = true → (∀ p', t.vmas.view (n * kSize) = some p' →
        s.view (n * kSize) = some p') → s.view (n * kSize) = some p → p.shared = some a →
      ∃ p', t.vmas.view (n * kSize) = some p' ∧ p'.shared = some a := by
    intro s n p a hp hview hprom ha
    obtain ⟨⟨p', hprom', -⟩, -⟩ := hgood.leaves pid n hp
    rw [promised_of_task ht] at hprom'
    obtain rfl : p' = p := Option.some.inj ((hview p' hprom').symm.trans hprom)
    exact ⟨p', hprom', ha⟩
  cases hstep with
  | same => exact hwired
  | keep hs hview =>
    exact wired_restore hwired ht rfl (fun _ _ => rfl) fun n p a hp hprom ha =>
      ⟨hp, rfl, hkeep hp (hview _) hprom ha⟩
  | @withdraw s start bytes hstart _ _ hs hview =>
    obtain ⟨_, hgood', hclear⟩ := hgood.reclaim pid (Memory.spots start bytes)
    refine wired_restore hwired ht hclear.pages hclear.others fun n p a hp hprom ha => ?_
    have hstay : ¬ ∃ spot ∈ Memory.spots start bytes, n = pageOf spot := fun hgone =>
      absurd ((hclear.goes n hgone).symm.trans hp) (by simp)
    have hsame : (σ.mem.reclaimSpots hw pid start bytes).tables pid 0 n = σ.mem.tables pid 0 n :=
      hclear.stays n hstay
    rw [hsame] at hp
    refine ⟨hp, by rw [hsame], hkeep hp (fun p' hp' => hview _ p' hp' fun hin => ?_) hprom ha⟩
    have hn := hgood.page_lt hp
    exact hstay (mem_spots hstart (by simp only [kUserPages] at hn; omega) hin.1 hin.2)
  | @protect s start stop terms hstart hstop hlt hend hs hview =>
    refine wired_restore hwired ht rfl (fun q hq => Memory.setTable_ne _ _ hq)
      fun n p a hp hprom ha => ?_
    rw [hview] at hprom
    obtain ⟨p', hp', rfl⟩ := map_eq_some_iff.mp hprom
    have ha : p'.shared = some a := by
      split at ha <;> exact ha
    rw [Memory.setTable_self, (protectSpots_spec terms _ (hgood.tables pid)).2.2 n] at hp ⊢
    split at hp
    · rename_i hin
      rw [if_pos hin]
      exact ⟨hin.2, (makeTableEntry_frame (hgood.leaf_lt hin.2) _).symm, p', hp', ha⟩
    · rename_i hin
      rw [if_neg hin]
      exact ⟨hp, rfl, p', hp', ha⟩
  | frames hmade hseg =>
    obtain ⟨-, -, htable, hpages, -⟩ := hgood.allocateFrames hmade
    intro q n p a hp hprom ha
    rw [htable] at hp ⊢
    have hmem := hwired q n p a hp hprom ha
    have hlive : 0 < σ.lens a.pages := List.length_pos_of_mem hmem
    have := h.born_of_live hlive
    rwa [hpages a.pages (by omega)]
  | remove hseg => exact hwired

theorem wired_exitTask (hres : σ.exitTask hw pid = .ok σ') : Wired σ'.promised σ'.mem := by
  obtain ⟨use, hgood⟩ := h.good
  obtain ⟨root, hroot⟩ := ne_none_iff_exists'.mp (h.root_of_task ht)
  obtain ⟨v, _, hdown, -, -, htable, hpages⟩ := hgood.teardown hroot
  unfold System.exitTask at hres
  rw [hdown] at hres
  obtain ⟨⟩ := hres
  rw [promised_update σ pid none rfl]
  refine hwired.keep hpages fun q n p a hp hprom ha => ?_
  have hq : q ≠ pid := by
    rintro rfl
    rw [update_self] at hprom
    nomatch hprom
  rw [update_of_ne hq] at hprom
  rw [htable, update_of_ne hq] at hp ⊢
  exact ⟨hp, rfl, p, hprom, ha⟩

theorem wired_faultTask {code : FaultCode} {b : Bool}
    (hres : σ.faultTask hw pid t address code read = .ok (b, σ')) : Wired σ'.promised σ'.mem := by
  obtain ⟨use, hgood⟩ := h.good
  have hview := congrFun (promised_of_task ht)
  have hroot := h.root_of_task ht
  have hs := h.stores pid t ht
  obtain ⟨r, w, hfault, hend⟩ := faultTask_ok hres
  have hnext := hwired.resolveFault hgood hroot hs hview hfault
  rcases hend with ⟨rfl, -⟩ | ⟨-, hex⟩
  · exact hnext
  · obtain ⟨use', hgood', hed⟩ := hgood.resolveFault hroot hs hview hfault
    exact wired_exitTask (h.withMem ⟨use', hgood'⟩ hed.roots hed.pages) hnext ht hex

theorem wired_touch {write : Bool} {f : Option ℕ}
    (hres : σ.touch hw pid t address write read = .ok (f, σ')) : Wired σ'.promised σ'.mem := by
  unfold System.touch at hres
  split at hres
  · obtain ⟨⟩ := hres
    exact hwired
  split at hres
  · nomatch hres
  · rename_i hfault
    obtain ⟨⟩ := hres
    exact wired_faultTask h hwired ht hfault
  · rename_i hfault
    obtain ⟨⟩ := hres
    exact wired_faultTask h hwired ht hfault

end

/-- The clone of a register in order has the attachments of its original. -/
theorem clone_shared {s c : VmaStore} (hs : s.Sound) (hag : s.AttachmentsAgree)
    (hc : (s.clone g).1 = some c) {a : ℕ} {p : Promise} (hp : c.view a = some p) :
    ∃ p', s.view a = some p' ∧ p'.shared = p.shared := by
  rcases hs.clone_find_cases hc a with heq | ⟨r, hr, hfind, hcopy⟩
  · rw [VmaStore.view, heq] at hp
    exact ⟨p, hp, rfl⟩
  · rw [VmaStore.view, hcopy] at hp
    obtain ⟨⟩ := hp
    exact ⟨r.promise a, by rw [VmaStore.view, hfind]; rfl, (hag.copyOf_shared_eq hr).symm⟩

/-- The child's leaves are the parent's, and so are its attachments. -/
theorem wired_forkTask (h : Sane hw boot tidy σ) (hwired : Wired σ.promised σ.mem)
    (ht : σ.tasks pid = some t) (hag : t.vmas.AttachmentsAgree) {late : Bool}
    (hres : σ.forkTask hw pid t g late = .ok (value, σ')) : Wired σ'.promised σ'.mem := by
  have hs := h.stores pid t ht
  have hne := (h.task_lt ht).ne
  have hchild := h.root_next
  obtain ⟨use, hgood⟩ := h.good
  have hblank := hgood.rootless _ hchild
  have hview := congrFun (promised_of_task ht)
  unfold System.forkTask at hres
  split at hres
  · nomatch hres
  · rename_i w hclone
    obtain ⟨hpages, -, -, hfile, -⟩ := hgood.cloneSharedSpace hne hchild hview hclone
    obtain ⟨⟩ := hres
    refine hwired.keep hpages fun q n p a hp hprom ha => ?_
    rw [(hfile rfl).1] at hp ⊢
    exact ⟨hp, rfl, p, hprom, ha⟩
  · rename_i w hclone
    obtain ⟨hpages, hhist, -, -, hdone⟩ := hgood.cloneSharedSpace hne hchild hview hclone
    obtain ⟨hspread, hroot, use', hgood'⟩ := hdone rfl
    -- a leaf of another space than the child's has its frame from before
    have hold : ∀ q n, q ≠ σ.nextTask → (w.tables q 0 n).present = true →
        (σ.mem.tables q 0 n).present = true ∧
          (σ.mem.tables q 0 n).frame = (w.tables q 0 n).frame := by
      intro q n hq hp
      by_cases hqp : q = pid
      · subst hqp
        rw [(hspread.parentLeaf n).1] at hp
        exact ⟨hp, (hspread.parentLeaf n).2.symm⟩
      · rw [hspread.others q hqp hq] at hp ⊢
        exact ⟨hp, rfl⟩
    split at hres
    · rename_i copy hcopy
      obtain ⟨⟩ := hres
      rw [promised_update σ σ.nextTask (some { t with vmas := copy }) rfl]
      refine hwired.carry fun q n p a hp hprom ha => .inr ⟨by rw [hpages]; exact fun _ h => h, ?_⟩
      by_cases hq : q = σ.nextTask
      · subst hq
        rw [update_self] at hprom
        obtain ⟨p', hp', hsame⟩ := clone_shared hs.sound hag hcopy hprom
        rcases hspread.childLeaf n hp with he | ⟨hpp, hf⟩
        · rw [he, hblank] at hp
          exact absurd hp (by simp [PageTable.blank])
        · exact ⟨pid, p', hpp, hf.symm, by rw [hview, hp'], hsame.trans ha⟩
      · rw [update_of_ne hq] at hprom
        exact ⟨q, p, (hold q n hq hp).1, (hold q n hq hp).2, hprom, ha⟩
    · -- refused late: the child's space is gone again
      rw [← hhist] at hgood'
      obtain ⟨v, _, hdown, -, -, hpages', htable⟩ := hgood'.dropClone hne hroot
      rw [hdown] at hres
      obtain ⟨⟩ := hres
      refine hwired.keep (hpages'.trans hpages) fun q n p a hp hprom ha => ?_
      have hq : q ≠ σ.nextTask := by
        rintro rfl
        rw [htable] at hp
        exact absurd hp (by simp [PageTable.blank])
      rw [htable, update_of_ne hq] at hp ⊢
      exact ⟨(hold q n hq hp).1, (hold q n hq hp).2, p, hprom, ha⟩

section

variable (h : Sane hw boot tidy σ) (hwired : Wired σ.promised σ.mem)
include h hwired

theorem wired_spawnTask {image : Image} (hres : σ.spawnTask hw image = .ok (value, σ')) :
    Wired σ'.promised σ'.mem := by
  have hpages := (spawnTask_refills hres).pages
  -- an attached leaf is not one of the fresh task
  have hold : ∀ q a p att, σ'.promised q a = some p → p.shared = some att →
      q ≠ σ.nextTask ∧ σ.promised q a = some p := by
    intro q a p att hprom ha
    have hno := promised_of_none (h.fresh σ.nextTask (le_refl _)) a
    rcases (spawnTask_kept hres).1 with htask | htask
    · have hprom : σ.promised q a = some p := by rwa [promised, ← htask]
      refine ⟨?_, hprom⟩
      rintro rfl
      rw [hno] at hprom
      cases hprom
    · rw [promised_update σ _ _ htask] at hprom
      by_cases hq : q = σ.nextTask
      · rw [hq, update_self] at hprom
        obtain ⟨r, hr, rfl⟩ := map_eq_some_iff.mp (show image.store.view a = some p from hprom)
        obtain ⟨hs, hplain⟩ := image_store image False σ.lens
        have := (hplain r (hs.sound.find_eq_some.mp hr).1).1
        cases this.symm.trans ha
      · rw [update_of_ne hq] at hprom
        exact ⟨hq, hprom⟩
  refine hwired.keep hpages fun q n p a hp hprom ha => ?_
  obtain ⟨hq, hprom'⟩ := hold q _ p a hprom ha
  rw [(spawnTask_refills hres).others q hq] at hp ⊢
  exact ⟨hp, rfl, p, hprom', ha⟩

/-- What nobody holds is attached nowhere. -/
theorem wired_reap : Wired (σ.reap hw).promised (σ.reap hw).mem := by
  intro q n p a hp hprom ha
  rw [reap_rest] at hp ⊢
  have hmem := hwired q n p a hp hprom ha
  -- the region of the promise holds the list
  obtain ⟨t, ht, hview⟩ := bind_eq_some_iff.mp hprom
  obtain ⟨r, hr, rfl⟩ := map_eq_some_iff.mp hview
  have hs := h.stores q t ht
  have hreg := (hs.spans_attached (hs.sound.find_eq_some.mp hr).1 ha).1
  rw [reap_pages_held (h.pagesHeld ht hreg ha)]
  exact hmem

theorem wired_act {op : Op} (ht : (actor op).bind σ.tasks = some t) (hag : σ.Agrees op)
    {answer : Answer} (hres : σ.act hw t op = .ok (answer, σ')) : Wired σ'.promised σ'.mem := by
  cases act_ok ht hres with
  | call hcall => exact wired_callStep h hwired ht (syscall_step (h.stores _ t ht) h.segments hcall)
  | fork hfork => exact wired_forkTask h hwired ht (hag t ht) hfork
  | fault hfault => exact wired_faultTask h hwired ht hfault
  | load htouch => exact wired_touch h hwired ht htouch
  | missed htouch => exact wired_touch h hwired ht htouch
  | stored htouch =>
    have hnext := wired_touch h hwired ht htouch
    exact hnext
  | exit hex => exact wired_exitTask h hwired ht hex

theorem wired_step {op : Op} (hag : σ.Agrees op) {answer : Answer}
    (hres : σ.step hw op = .ok (answer, σ')) :
    Wired σ'.promised σ'.mem := by
  rcases step_ok hres with ⟨image, _, σ₁, -, -, hswap, rfl⟩ | ⟨-, -, rfl⟩ | ⟨t, σ₁, ht, hact, rfl⟩
  · exact wired_reap (h.spawnTask hswap) (wired_spawnTask h hwired hswap)
  · exact hwired
  · exact wired_reap (h.act ht (fun _ => hag) hact) (wired_act h hwired ht hag hact)

end

end System

end Cinux
