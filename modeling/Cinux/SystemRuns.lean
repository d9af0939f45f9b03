/-
Runs of the system.

Whatever a task calls, whatever fault it takes and however an allocation goes,
the invariant `Sane` is kept (`Sane.step`), so it holds after every run from a
booted machine (`Machine.sane_run`).

With `tidy` the registers also keep every region inside its attachment.  This
needs that no fork hands out a wrong attachment, which is a condition on the
register of the parent (`Agrees`) before each step of the run (`Along`).

* `Sane.forkTask`, `Sane.exitTask`, `Sane.spawnTask`, `Sane.touch`, `Sane.reap` —
  what a step is made of;
* `step_ok` — the three ways a step can go;
* `Machine` — what the boot code hands over.
-/
import Cinux.Runs
import Cinux.SystemInv

namespace Cinux

open VmaStore (born_fields copyOf seedHeap setMmapCeiling view)

open Ledger PageTable List Function

variable {answer : Answer} {promised : ℕ → ℕ → Option Promise} {op : Op} {c : System → Op → Prop}

namespace System

variable {hw : Hardware} {boot : ℕ → Bool} {tidy : Prop} {σ σ' : System} {pid : ℕ} {t : Task}
  {g : Grants}

namespace Sane

/-! ### Fork, exit, exec -/

/-- Where the parent finds a region the clone finds one of the same kind and
terms, with an attachment if the parent's has one. -/
theorem clone_view {s c : VmaStore} (hs : s.Sound) (hc : (s.clone g).1 = some c) {a : ℕ}
    {p : Promise} (hp : s.view a = some p) :
    ∃ p', c.view a = some p' ∧ p'.kind = p.kind ∧ p'.terms = p.terms ∧
      p'.shared.isSome = p.shared.isSome := by
  rcases hs.clone_find_cases hc a with heq | ⟨r, hr, hfind, hcopy⟩
  · rw [view, heq]
    exact ⟨p, hp, rfl, rfl, rfl⟩
  obtain rfl : r.promise a = p := by simpa [view, hfind] using hp
  rw [view, hcopy]
  obtain ⟨e1, e2, -, -, -⟩ := born_fields
    { r with shared := r.shared.bind fun t => VmaStore.firstAttachment s.regions t.start }
  refine ⟨_, rfl, e1, e2, ?_⟩
  show (copyOf s.regions r).shared.isSome = r.shared.isSome
  rw [VmaStore.copyOf_shared]
  cases hshared : r.shared with
  | none => rfl
  | some t =>
    obtain ⟨u, hu, -⟩ := VmaStore.firstAttachment_of_mem hr hshared
    simp [hu]

/-- The promises of a clone allow the leaves those of the parent allow. -/
theorem cloneGood {use : ℕ → Use} {w : Memory} {s c : VmaStore} {child : ℕ}
    (h : Good hw boot (update promised child s.view) none use w) (hs : s.Sound)
    (hc : (s.clone g).1 = some c) :
    Good hw boot (update promised child c.view) none use w := by
  refine h.promise fun q n p _ hprom hok => ?_
  by_cases hq : q = child
  · subst hq
    rw [update_self] at hprom ⊢
    obtain ⟨p', hp', hkind, hterm, hshared⟩ := clone_view hs hc hprom
    refine ⟨p', hp', fun hw => ?_, fun hx => ?_, fun hw => ?_, hok.marked, fun hd => ?_,
      fun hd hseg => ?_, fun hd hseg => ?_⟩
    · rw [hterm]
      exact hok.writable hw
    · rw [hterm]
      exact hok.executable hx
    · rw [hterm] at hw
      exact hok.ready hw
    · rw [hkind] at hd
      exact hok.device hd
    · rw [hkind] at hd
      rw [hshared] at hseg
      exact hok.segment hd hseg
    · rw [hkind] at hd
      refine hok.priv hd ?_
      rw [hseg] at hshared
      simpa using hshared.symm
  · rw [update_of_ne hq] at hprom ⊢
    exact ⟨p, hprom, hok⟩

theorem forkTask (h : Sane hw boot tidy σ) (ht : σ.tasks pid = some t)
    (hag : tidy → t.vmas.AttachmentsAgree) {late : Bool} {value : ℤ}
    (hres : σ.forkTask hw pid t g late = .ok (value, σ')) : Sane hw boot tidy σ' := by
  have hs := h.stores pid t ht
  have hne := (h.task_lt ht).ne
  have hchild := h.root_next
  obtain ⟨use, hgood⟩ := h.good
  unfold System.forkTask at hres
  split at hres
  · nomatch hres
  · rename_i w hclone
    obtain ⟨hpages, -, -, hfile, -⟩ := hgood.cloneSharedSpace hne hchild
      (congrFun (promised_of_task ht)) hclone
    obtain ⟨⟩ := hres
    obtain ⟨-, hroots, hgood'⟩ := hfile rfl
    exact h.withMem hgood' hroots hpages
  · rename_i w hclone
    obtain ⟨hpages, hhist, hroots, -, hdone⟩ := hgood.cloneSharedSpace hne hchild
      (congrFun (promised_of_task ht)) hclone
    obtain ⟨-, hroot, use', hgood'⟩ := hdone rfl
    rw [← hhist] at hgood'
    split at hres
    · rename_i copy hcopy
      obtain ⟨⟩ := hres
      exact h.enter (hs.clone hcopy hag)
        ⟨use', cloneGood hgood' hs.sound hcopy⟩ hroot hroots hpages
    -- refused late: the child's space is torn down again
    obtain ⟨v, use'', hdown, hgood'', hroots', hpages', -⟩ := hgood'.dropClone hne hroot
    rw [hdown] at hres
    obtain ⟨⟩ := hres
    refine h.withMem ⟨use'', hgood''⟩ ?_ (hpages'.trans hpages)
    rw [hroots']
    funext q
    by_cases hq : q = σ.nextTask
    · rw [hq, update_self, hchild]
    · rw [update_of_ne hq, hroots q hq]

theorem exitTask (h : Sane hw boot tidy σ) (ht : σ.tasks pid = some t)
    (hres : σ.exitTask hw pid = .ok σ') : Sane hw boot tidy σ' := by
  obtain ⟨use, hgood⟩ := h.good
  obtain ⟨root, hroot⟩ := Option.ne_none_iff_exists'.mp (h.root_of_task ht)
  obtain ⟨v, use', hdown, hgood', hroots, htable, hpages⟩ := hgood.teardown hroot
  unfold System.exitTask at hres
  rw [hdown] at hres
  obtain ⟨⟩ := hres
  refine h.place nofun ⟨use', hgood'.reregister fun n p hp => ?_⟩ (by simp [hroots])
    (fun q hq => by rw [hroots, update_of_ne hq]) hpages le_rfl (absurd rfl)
  rw [htable, update_self] at hp
  exact absurd hp (by simp [PageTable.blank])

end Sane

/-- What `Image.store` makes of an image: the shape, and private memory only. -/
theorem image_store (image : Image) (tidy : Prop) (lens : ℕ → ℕ) : image.store.StoreOk tidy lens ∧
      ∀ r ∈ image.store.spans, r.shared = none ∧ r.kind ≠ .device := by
  -- one range after the other is filed
  have key : ∀ (l : List VmaRegion), (∀ r ∈ l, r ∈ image.ranges) → ∀ s : VmaStore,
      s.StoreOk tidy lens → (∀ r ∈ s.regions, r.shared = none ∧ r.kind ≠ .device) →
      (l.foldl (fun (s : VmaStore) r => (s.registerRange r []).store) s).StoreOk tidy lens ∧
      ∀ r ∈ (l.foldl (fun (s : VmaStore) r => (s.registerRange r []).store) s).regions,
        r.shared = none ∧ r.kind ≠ .device := by
    intro l
    induction l with
    | nil => exact fun _ s h1 h2 => ⟨h1, h2⟩
    | cons r l ih =>
      intro hl s h1 h2
      have hr := hl r (by simp)
      obtain ⟨a1, a2, a3⟩ := image.aligned r hr
      obtain ⟨hshared, hkind⟩ := image.plain r hr
      rw [foldl_cons]
      refine ih (fun r' hr' => hl r' (by simp [hr'])) _ (h1.registerRange
        ⟨a1, a2, image.below r hr, a3, image.backed r hr, fun hne => absurd hshared hne⟩
        (fun a ha => by rw [hshared] at ha; nomatch ha) []) fun r' hr' => ?_
      rcases VmaStore.registerRange_cases s r [] with ⟨_, _, hstore⟩ | ⟨_, hstore, _⟩
      · rw [hstore] at hr'
        exact h2 r' hr'
      rw [hstore] at hr'
      rcases mem_append.mp hr' with hr' | hr'
      · exact h2 r' hr'
      · obtain ⟨e1, -, -, e4, -⟩ := born_fields r
        rw [mem_singleton.mp hr', e1, e4]
        exact ⟨hshared, hkind⟩
  have hempty : ({} : VmaStore).StoreOk tidy lens :=
    ⟨VmaStore.sound_empty, by simp, by simp, ⟨rfl, rfl, by decide, rfl, by simp, by simp⟩,
      ⟨rfl, rfl⟩, by decide, by decide, by decide, by decide⟩
  obtain ⟨hok, hplain⟩ := key image.ranges (fun _ hr => hr) {} hempty (by simp)
  generalize himg : image.ranges.foldl (fun (s : VmaStore) r => (s.registerRange r []).store) {}
    = s at hok hplain
  have hs : image.store
      = (s.seedHeap image.heapBase kUserBrkMmapSplit).setMmapCeiling image.ceiling := by
    rw [Image.store, himg]
  have hup : alignUp image.heapBase kSize = image.heapBase :=
    alignUp_of_mod image.heap_aligned (le_trans image.heap_below (by decide))
  rw [hs]
  refine ⟨⟨?_, hok.region, hok.attached, ?_, ?_, hup.symm, le_refl _, image.heap_below,
    image.ceiling_aligned, le_trans image.ceiling_below (by decide)⟩, fun r hr => ?_⟩
  · obtain ⟨h1, h2⟩ := hok.sound.seedHeap image.heapBase kUserBrkMmapSplit
    exact ⟨h1, h2⟩
  · exact ⟨image.heap_aligned, image.heap_aligned, image.heap_below, hok.heap.floor_mod,
      fun hk => absurd hk (by simp [setMmapCeiling, seedHeap]), fun _ => rfl⟩
  · exact ⟨hok.heapPlain.1, rfl⟩
  · rcases VmaStore.mem_spans.mp hr with ⟨-, rfl⟩ | hr
    · refine ⟨hok.heapPlain.1, ?_⟩
      simp [setMmapCeiling, seedHeap]
    · exact hplain r hr

/-- The pages of an image are placed under the promises of its register. -/
theorem placeImage_good {ranges : VmaStore} {lens : ℕ → ℕ} (hs : ranges.StoreOk tidy lens)
    (hplain : ∀ r ∈ ranges.spans, r.shared = none ∧ r.kind ≠ .device)
    (hview : ∀ a, promised pid a = ranges.view a) : ∀ (l : List (ℕ × Page)) {use : ℕ → Use}
    {w : Memory}, Good hw boot promised none use w → w.roots pid ≠ none →
    (∃ use', Good hw boot promised none use' (placeImage ranges pid l w).2) ∧
      (placeImage ranges pid l w).2.roots = w.roots ∧
      (placeImage ranges pid l w).2.pages = w.pages := by
  intro l
  induction l with
  | nil => exact fun h _ => ⟨⟨_, h⟩, rfl, rfl⟩
  | cons x l ih =>
    intro use w h hroot
    unfold placeImage
    dsimp only
    -- a page outside every region ends the loading
    split
    · exact ⟨⟨_, h⟩, rfl, rfl⟩
    rename_i region hfind
    split
    · exact ⟨⟨_, h⟩, rfl, rfl⟩
    rename_i habs
    obtain ⟨hmem, -⟩ := hs.sound.find_eq_some.mp hfind
    obtain ⟨hshared, hkind⟩ := hplain region hmem
    -- the page lies in a region, and every region in the user half
    have hn : x.1 < kUserPages := by
      have := (hs.find_page hfind).2.2
      simp only [kUserTop, kSize, kUserPages] at *
      omega
    have hp : promised pid (x.1 * kSize) = some (region.promise (x.1 * kSize)) := by
      rw [hview, view, hfind]
      rfl
    obtain ⟨use', hgood, hed, -⟩ := h.placePage hroot hn (by simpa using habs) hp hkind hshared
      (fun hx => hx) rfl
    split
    · obtain ⟨e1, e2, e3⟩ := ih hgood (by rw [hed.roots]; exact hroot)
      exact ⟨e1, e2.trans hed.roots, e3.trans hed.pages⟩
    · exact ⟨⟨use', hgood⟩, hed.roots, hed.pages⟩

namespace Sane

theorem spawnTask (h : Sane hw boot tidy σ) {image : Image} {value : ℤ}
    (hres : σ.spawnTask hw image = .ok (value, σ')) : Sane hw boot tidy σ' := by
  obtain ⟨use, hgood⟩ := h.good
  have hrootless := h.root_next
  obtain ⟨use₁, hgood₁, htable, hmade, href, hother⟩ := hgood.initSpace hrootless
  have hpages := (σ.mem.initSpace_frame σ.nextTask).1
  obtain ⟨hs, hplain⟩ := image_store image tidy σ.lens
  unfold System.spawnTask at hres
  dsimp only at hres
  split at hres
  · rename_i hno
    obtain ⟨⟩ := hres
    exact h.withMem ⟨use₁, hgood₁⟩ (href (by simpa using hno)) hpages
  rename_i hyes
  have hroot := hmade (by simpa using hyes)
  -- nothing is mapped yet, so the image may promise what it likes
  have hgood₂ : Good hw boot (update σ.promised σ.nextTask image.store.view) none use₁
      (σ.mem.initSpace σ.nextTask).2 := hgood₁.reregister fun n p hp => by
    rw [htable, hgood.rootless _ hrootless] at hp
    exact absurd hp (by simp [blank])
  obtain ⟨⟨use₂, hgood₃⟩, hroots, hpages'⟩ := placeImage_good hs hplain
    (fun a => by rw [update_self]) image.pages hgood₂ hroot
  split at hres
  · rename_i w hplace
    rw [hplace] at hgood₃ hroots hpages'
    obtain ⟨⟩ := hres
    exact h.enter hs
      ⟨use₂, hgood₃⟩ (by rw [hroots]; exact hroot) (fun q hq => by rw [hroots]; exact hother q hq)
      (hpages'.trans hpages)
  · rename_i w hplace
    rw [hplace] at hgood₃ hroots hpages'
    obtain ⟨root, hroot'⟩ := Option.ne_none_iff_exists'.mp hroot
    obtain ⟨v, use₃, hdown, hgood₄, hroots₄, htable₄, hpages₄⟩ :=
      hgood₃.teardown (by rw [hroots]; exact hroot')
    rw [hdown] at hres
    obtain ⟨⟩ := hres
    refine h.withMem ⟨use₃, ?_⟩ ?_ ((hpages₄.trans hpages').trans hpages)
    · have hback : Good hw boot (update (update σ.promised σ.nextTask
          image.store.view) σ.nextTask (σ.promised σ.nextTask)) none use₃ v :=
        hgood₄.reregister fun n p hp => by
          rw [htable₄] at hp
          exact absurd hp (by simp [blank])
      rwa [update_idem, update_eq_self] at hback
    · rw [hroots₄, hroots]
      funext q
      by_cases hq : q = σ.nextTask
      · rw [hq, update_self, hrootless]
      · rw [update_of_ne hq, hother q hq]

/-! ### Faults and accesses -/

theorem faultTask (h : Sane hw boot tidy σ) (ht : σ.tasks pid = some t) {address : ℕ}
    {code : FaultCode} {read : Option Page} {b : Bool}
    (hres : σ.faultTask hw pid t address code read = .ok (b, σ')) : Sane hw boot tidy σ' := by
  obtain ⟨use, hgood⟩ := h.good
  obtain ⟨r, w, hfault, hend⟩ := faultTask_ok hres
  obtain ⟨use', hgood', hed⟩ := hgood.resolveFault (h.root_of_task ht) (h.stores pid t ht)
    (congrFun (promised_of_task ht)) hfault
  have hsane := h.withMem ⟨use', hgood'⟩ hed.roots hed.pages
  rcases hend with ⟨rfl, -⟩ | ⟨-, hex⟩
  · exact hsane
  · exact hsane.exitTask ht hex

/-- A granted access reaches the frame of a present leaf; a write, of a writable
one. -/
theorem accessFrame_some {w : Memory} {address f : ℕ} {write : Bool}
    (hres : accessFrame w pid address write = some f) :
    (w.tables pid 0 (address / kSize)).present = true ∧
      f = (w.tables pid 0 (address / kSize)).frame ∧
      (write = true → (w.tables pid 0 (address / kSize)).writable = true) := by
  unfold accessFrame at hres
  split at hres
  · nomatch hres
  have hlt : address < kUserTop := by omega
  rw [(pageOf_user hlt).1] at hres
  split at hres
  · nomatch hres
  rename_i leaf hleaf
  obtain ⟨-, rfl⟩ := leafSlot_some hleaf
  split at hres
  · rename_i hgrant
    simp only [Bool.and_eq_true] at hgrant
    refine ⟨hgrant.1.1.1, (Option.some.inj hres).symm, fun hw => ?_⟩
    simpa [hw] using hgrant.1.2
  · nomatch hres

theorem touch (h : Sane hw boot tidy σ) (ht : σ.tasks pid = some t) {address : ℕ} {write : Bool}
    {read : Option Page} {f : Option ℕ}
    (hres : σ.touch hw pid t address write read = .ok (f, σ')) :
    Sane hw boot tidy σ' ∧ (f ≠ none → f = accessFrame σ'.mem pid address write) := by
  unfold System.touch at hres
  split at hres
  · rename_i frame hframe
    obtain ⟨⟩ := hres
    exact ⟨h, fun _ => hframe.symm⟩
  split at hres
  · nomatch hres
  · rename_i hfault
    obtain ⟨⟩ := hres
    exact ⟨h.faultTask ht hfault, fun hne => absurd rfl hne⟩
  · rename_i hfault
    obtain ⟨⟩ := hres
    exact ⟨h.faultTask ht hfault, fun _ => rfl⟩

/-! ### Steps and runs -/

end Sane

/-- Letting page lists go touches the ledger and the lists alone. -/
theorem reap_rest (hw : Hardware) (σ : System) : (σ.reap hw).mem = { σ.mem with
      pmm := (σ.reap hw).mem.pmm, pages := (σ.reap hw).mem.pages } := by
  have key : ∀ (l : List ℕ) (w : Memory), l.foldl (retire hw) w = { w with
      pmm := (l.foldl (retire hw) w).pmm, pages := (l.foldl (retire hw) w).pages } := by
    intro l
    induction l with
    | nil => exact fun w => rfl
    | cons p l ih =>
      intro w
      rw [foldl_cons, ih]
      rfl
  exact key _ _

theorem retire_pages (hw : Hardware) (p : ℕ) : ∀ (l : List ℕ) (w : Memory),
    (l.foldl (retire hw) w).pages p = if p ∈ l then [] else w.pages p := by
  intro l
  induction l with
  | nil => exact fun w => by simp
  | cons q l ih =>
    intro w
    rw [foldl_cons, ih]
    by_cases hp : p = q
    · simp [retire, hp]
    · simp [retire, hp]

theorem reap_pages_held {p : ℕ} (hp : σ.pagesHeld p = true) :
    (σ.reap hw).mem.pages p = σ.mem.pages p := by
  refine (retire_pages hw p _ σ.mem).trans (if_neg ?_)
  simp [hp]

namespace Sane

theorem pagesHeld (h : Sane hw boot tidy σ) (ht : σ.tasks pid = some t) {r : VmaRegion}
    (hr : r ∈ t.vmas.regions) {a : SharedAttachment} (ha : r.shared = some a) :
    σ.pagesHeld a.pages = true := by
  simp only [System.pagesHeld, Bool.or_eq_true, any_eq_true]
  refine .inr ⟨pid, mem_range.mpr (h.task_lt ht), ?_⟩
  rw [ht]
  simp only [Option.any_some, any_eq_true]
  exact ⟨r, hr, by simp [ha]⟩

/-- The page lists nobody holds go; everything that is held stays. -/
theorem reap (h : Sane hw boot tidy σ) : Sane hw boot tidy (σ.reap hw) := by
  obtain ⟨use, hgood⟩ := h.good
  have key : ∀ (l : List ℕ) (use : ℕ → Use) (w : Memory), Good hw boot σ.promised none use w →
      (∃ use', Good hw boot σ.promised none use' (l.foldl (retire hw) w)) ∧
      (l.foldl (retire hw) w).roots = w.roots := by
    intro l
    induction l with
    | nil => exact fun use w hg => ⟨⟨use, hg⟩, rfl⟩
    | cons q l ih =>
      intro use w hg
      obtain ⟨use', hg'⟩ := hg.retire q
      exact ih use' _ hg'
  obtain ⟨hgood', hroots⟩ := key ((List.range σ.nextPages).filter (!σ.pagesHeld ·)) use σ.mem hgood
  refine h.sameTasks rfl rfl hgood' hroots (fun q t hq r hr a ha => ?_) (fun p hp => ?_)
    (fun s hs => ?_)
  · rw [lens, reap_pages_held (h.pagesHeld hq hr ha)]
    rfl
  · refine (retire_pages hw p _ σ.mem).trans ?_
    split
    · rfl
    · exact h.unborn p hp
  · -- held by the segment
    rw [lens, reap_pages_held]
    · exact h.segments s hs
    · simp only [System.pagesHeld, Bool.or_eq_true, any_eq_true]
      exact .inl ⟨some s, hs, by simp⟩

end Sane

/-- A fork in this state hands out no wrong attachment. -/
def Agrees (σ : System) : Op → Prop
  | .fork pid _ _ => ∀ t, σ.tasks pid = some t → t.vmas.AttachmentsAgree
  | _ => True

/-- How an operation of a live task ends. -/
inductive Acted (hw : Hardware) (σ : System) (t : Task) : Op → Answer → System → Prop
  | call {pid : ℕ} {call : Call} {g : Grants} {value : ℤ} {σ' : System}
      (h : σ.syscall hw pid t g call = .ok (value, σ')) :
      Acted hw σ t (.call pid call g) (.word value) σ'
  | fork {pid : ℕ} {g : Grants} {late : Bool} {value : ℤ} {σ' : System}
      (h : σ.forkTask hw pid t g late = .ok (value, σ')) :
      Acted hw σ t (.fork pid g late) (.word value) σ'
  | fault {pid address : ℕ} {code : FaultCode} {read : Option Page} {b : Bool} {σ' : System}
      (h : σ.faultTask hw pid t address code read = .ok (b, σ')) :
      Acted hw σ t (.fault pid address code read) (.resolved b) σ'
  | load {pid address : ℕ} {read : Option Page} {frame : Option ℕ} {σ' : System}
      (h : σ.touch hw pid t address false read = .ok (frame, σ')) :
      Acted hw σ t (.load pid address read)
        (.byte (frame.map fun f => σ'.mem.bytes f (address % kSize))) σ'
  | missed {pid address : ℕ} {byte : UInt8} {read : Option Page} {σ' : System}
      (h : σ.touch hw pid t address true read = .ok (none, σ')) :
      Acted hw σ t (.store pid address byte read) .nothing σ'
  | stored {pid address frame : ℕ} {byte : UInt8} {read : Option Page} {σ' : System}
      (h : σ.touch hw pid t address true read = .ok (some frame, σ')) :
      Acted hw σ t (.store pid address byte read) .nothing
        { σ' with mem := storeByte σ'.mem pid address frame byte }
  | exit {pid : ℕ} {σ' : System} (h : σ.exitTask hw pid = .ok σ') :
      Acted hw σ t (.exit pid) .nothing σ'

theorem act_ok (ht : (actor op).bind σ.tasks = some t) (hres : σ.act hw t op = .ok (answer, σ')) :
    Acted hw σ t op answer σ' := by
  -- by the operation: a halt is no answer
  cases op with
  | spawn image => exact absurd ht (by simp [actor])
  | call pid call g =>
    simp only [act] at hres
    split at hres
    · nomatch hres
    · obtain ⟨⟩ := hres
      exact .call ‹_›
  | fork pid g late =>
    simp only [act] at hres
    split at hres
    · nomatch hres
    · obtain ⟨⟩ := hres
      exact .fork ‹_›
  | fault pid address code read =>
    simp only [act] at hres
    split at hres
    · nomatch hres
    · obtain ⟨⟩ := hres
      exact .fault ‹_›
  | load pid address read =>
    simp only [act] at hres
    split at hres
    · nomatch hres
    · obtain ⟨⟩ := hres
      exact .load ‹_›
  | store pid address byte read =>
    simp only [act] at hres
    split at hres
    · nomatch hres
    · obtain ⟨⟩ := hres
      exact .missed ‹_›
    · obtain ⟨⟩ := hres
      exact .stored ‹_›
  | exit pid =>
    simp only [act] at hres
    split at hres
    · nomatch hres
    · obtain ⟨⟩ := hres
      exact .exit ‹_›

namespace Sane

theorem act (h : Sane hw boot tidy σ) (ht : (actor op).bind σ.tasks = some t)
    (hag : tidy → σ.Agrees op) (hres : σ.act hw t op = .ok (answer, σ')) :
    Sane hw boot tidy σ' := by
  cases act_ok ht hres with
  | call hcall => exact h.callStep ht (syscall_step (h.stores _ _ ht) h.segments hcall)
  | fork hfork => exact h.forkTask ht (fun htidy => hag htidy t ht) hfork
  | fault hfault => exact h.faultTask ht hfault
  | load htouch => exact (h.touch ht htouch).1
  | missed htouch => exact (h.touch ht htouch).1
  | stored htouch =>
    -- the byte goes through the leaf the access was granted by
    obtain ⟨hsane, hframe⟩ := h.touch ht htouch
    obtain ⟨hp, rfl, hwrite⟩ := accessFrame_some (hframe (by simp)).symm
    obtain ⟨use, hgood⟩ := hsane.good
    exact hsane.withMem ⟨use, hgood.storeByte _ hp (hwrite rfl)⟩ rfl rfl
  | exit hex => exact h.exitTask ht hex

end Sane

/-- An operation of a live task: it acts, then what nobody holds goes. -/
theorem step_ok (hres : σ.step hw op = .ok (answer, σ')) :
    (∃ image value σ₁, op = .spawn image ∧ answer = .word value ∧
      σ.spawnTask hw image = .ok (value, σ₁) ∧ σ' = σ₁.reap hw) ∨
    ((actor op).bind σ.tasks = none ∧ answer = .nothing ∧ σ' = σ) ∨
    ∃ t σ₁, (actor op).bind σ.tasks = some t ∧ σ.act hw t op = .ok (answer, σ₁) ∧
      σ' = σ₁.reap hw := by
  unfold step at hres
  split at hres
  · split at hres
    · nomatch hres
    · rename_i image _ value σ₁ hspawn
      obtain ⟨⟩ := hres
      exact .inl ⟨image, value, σ₁, rfl, rfl, hspawn, rfl⟩
  · split at hres
    · rename_i hno
      obtain ⟨⟩ := hres
      exact .inr (.inl ⟨hno, rfl, rfl⟩)
    rename_i t ht
    split at hres
    · nomatch hres
    · rename_i _ σ₁ hact
      obtain ⟨⟩ := hres
      exact .inr (.inr ⟨t, σ₁, ht, hact, rfl⟩)

theorem step_call (ht : σ.tasks pid = some t) {call : Call}
    (hres : σ.step hw (.call pid call g) = .ok (answer, σ')) :
    ∃ value σ₁, answer = .word value ∧ σ.syscall hw pid t g call = .ok (value, σ₁) ∧
      σ' = σ₁.reap hw := by
  rcases step_ok hres with ⟨_, _, _, hop, -⟩ | ⟨hno, -, -⟩ | ⟨t', σ₁, ht', hact, rfl⟩
  · nomatch hop
  · have hno : σ.tasks pid = none := hno
    rw [ht] at hno
    nomatch hno
  obtain rfl : t = t' := Option.mem_unique ht ht'
  simp only [System.act] at hact
  split at hact
  · nomatch hact
  · rename_i value σ₂ hcall
    obtain ⟨rfl, rfl⟩ := Prod.mk.inj (Except.ok.inj hact)
    exact ⟨value, σ₂, rfl, hcall, rfl⟩

theorem Sane.step (h : Sane hw boot tidy σ) (hag : tidy → σ.Agrees op)
    (hres : σ.step hw op = .ok (answer, σ')) : Sane hw boot tidy σ' := by
  rcases step_ok hres with ⟨image, value, σ₁, -, -, hspawn, rfl⟩ | ⟨-, -, rfl⟩ |
    ⟨t, σ₁, ht, hact, rfl⟩
  · exact (h.spawnTask hspawn).reap
  · exact h
  · exact (h.act ht hag hact).reap

/-- Every step of a run meets a condition on the state before it. -/
def Along (hw : Hardware) (c : System → Op → Prop) : System → List Op → Prop
  | _, [] => True
  | σ, op :: ops => c σ op ∧ ∀ answer σ', σ.step hw op = .ok (answer, σ') → Along hw c σ' ops

/-- What every step keeps, as long as it meets the condition, a run keeps. -/
theorem run_induct {I : System → Prop}
    (hstep : ∀ σ op answer σ', I σ → c σ op → σ.step hw op = .ok (answer, σ') → I σ') :
    ∀ (ops : List Op) {σ : System}, I σ → Along hw c σ ops → σ.run hw ops = .ok σ' → I σ' := by
  intro ops
  induction ops with
  | nil =>
    intro σ h _ hres
    obtain ⟨⟩ := hres
    exact h
  | cons op ops ih =>
    intro σ h halong hres
    unfold System.run at hres
    split at hres
    · nomatch hres
    · rename_i answer σ₁ hone
      exact ih (hstep σ op answer σ₁ h halong.1 hone) (halong.2 answer σ₁ hone) hres

/-- A condition may be given only when it is needed. -/
theorem Along.imp {p : Prop} : ∀ (ops : List Op) {σ : System},
    (p → Along hw c σ ops) → Along hw (fun σ op => p → c σ op) σ ops := by
  intro ops
  induction ops with
  | nil => exact fun _ => trivial
  | cons op ops ih =>
    intro σ h
    exact ⟨fun hp => (h hp).1, fun answer σ' hone => ih fun hp => (h hp).2 answer σ' hone⟩

theorem Sane.run (ops : List Op) (h : Sane hw boot tidy σ) (hag : tidy → Along hw Agrees σ ops)
    (hres : σ.run hw ops = .ok σ') : Sane hw boot tidy σ' :=
  run_induct (fun _ _ _ _ h hc hone => Sane.step h hc hone) ops h (Along.imp ops hag) hres

end System

/-! ### A booted machine -/

/-- What the boot code hands over: the frames it keeps, and a kernel half whose
tables and 4 KiB leaves (the kernel heap) have frames of their own.  The direct map,
the image and the device windows are large leaves. -/
structure Machine where
  hw : Hardware
  used : ℕ → Bool
  bytes : ℕ → Page
  kernel : PageTable
  zero_used : used 0 = true
  below : ∀ f, used f = true → f < kPmmTotalPages
  hardware_used : ∀ f, hw.isHardwarePage f = true → f < kPmmTotalPages → used f = true
  closed : kernel.Closed
  finite : {x : ℕ × ℕ | (kernel x.1 x.2).NamesFrame x.1}.Finite
  inside : ∀ n, (kernel 0 n).present = true → kUserPages ≤ n ∧ n < 2 ^ 36
  frame : ∀ level p, (kernel level p).NamesFrame level → used (kernel level p).frame = true ∧
    (kernel level p).frame ≠ 0 ∧ hw.isHardwarePage (kernel level p).frame = false
  distinct : ∀ level p l q, (kernel level p).NamesFrame level → (kernel l q).NamesFrame l →
    (kernel level p).frame = (kernel l q).frame → level = l ∧ p = q

namespace Machine

/-- The system before the first task. -/
def boot (b : Machine) : System :=
  { mem :=
      { pmm := { used := b.used }
        bytes := b.bytes
        roots := fun _ => none
        tables := fun _ => blank
        kernel := b.kernel
        pages := fun _ => [] } }

/-- The kernel half has a table or a page of the heap in the frame. -/
def Taken (b : Machine) (f : ℕ) : Prop :=
  ∃ level p, (b.kernel level p).NamesFrame level ∧ (b.kernel level p).frame = f

open Classical in
/-- The use of every frame at boot. -/
noncomputable def use (b : Machine) (f : ℕ) : Use :=
  if b.hw.isHardwarePage f then .foreign
  else if b.Taken f then .owned
  else if b.used f then .held
  else .idle

theorem boot_names (b : Machine) {r : Ref} {f : ℕ} {k : Mark} : b.boot.mem.names r = some (f, k) ↔
      k = .own ∧ ∃ level p, r = .kernel level p ∧ (b.kernel level p).NamesFrame level ∧
        (b.kernel level p).frame = f := by
  cases r with
  | root pid => simp [boot, Memory.names]
  | node pid level p => simp [boot, Memory.names, blank, entryName]
  | pool p i => simp [boot, Memory.names]
  | kernel level p =>
    rw [Memory.names_kernel]
    constructor
    · rintro ⟨hp, hf, hk⟩
      exact ⟨hk, level, p, rfl, hp, hf⟩
    · rintro ⟨hk, l, q, heq, hp, hf⟩
      obtain ⟨⟩ := heq
      exact ⟨hp, hf, hk⟩

theorem boot_lawful (b : Machine) :
    Lawful b.use ⟨b.boot.mem.pmm.used, b.boot.mem.pmm.shares, b.boot.mem.names⟩ := by
  constructor
  · -- the names are those of the kernel half
    refine (b.finite.image fun x => Ref.kernel x.1 x.2).subset fun r hr => ?_
    obtain ⟨⟨f, k⟩, hx⟩ := Option.ne_none_iff_exists'.mp hr
    obtain ⟨-, level, p, rfl, hp, -⟩ := b.boot_names.mp hx
    exact ⟨(level, p), hp, rfl⟩
  · intro f
    have hno : ∀ k, (k ≠ .own ∨ ¬ b.Taken f) →
        (⟨b.boot.mem.pmm.used, b.boot.mem.pmm.shares, b.boot.mem.names⟩ : Book Ref ℕ).tally f k
          = 0 := by
      intro k hk
      have hempty : {r | b.boot.mem.names r = some (f, k)} = ∅ := by
        rw [Set.eq_empty_iff_forall_notMem]
        intro r hr
        obtain ⟨rfl, level, p, -, hp⟩ := b.boot_names.mp hr
        exact hk.elim (fun h => h rfl) fun h => h ⟨level, p, hp⟩
      show Set.ncard _ = 0
      rw [hempty, Set.ncard_empty]
    have hplain := hno .plain (.inl (by simp))
    have hcow := hno .cow (.inl (by simp))
    have hpool := hno .pool (.inl (by simp))
    unfold use
    split_ifs with hhw hker hu
    · -- a hardware frame is no frame of the kernel half
      refine ⟨rfl, hno .own (.inr ?_), hcow, hpool⟩
      rintro ⟨level, p, hp, rfl⟩
      rw [(b.frame level p hp).2.2] at hhw
      nomatch hhw
    · obtain ⟨level, p, hp, rfl⟩ := hker
      refine ⟨(b.frame level p hp).1, rfl, ?_, hplain, hcow, hpool⟩
      -- one entry names it, since the entries name different frames
      refine Set.ncard_eq_one.mpr ⟨.kernel level p, Set.ext fun r => ?_⟩
      simp only [Set.mem_singleton_iff]
      constructor
      · intro hr
        obtain ⟨-, l, q, rfl, hq, hf⟩ := b.boot_names.mp hr
        obtain ⟨rfl, rfl⟩ := b.distinct l q level p hq hp hf
        rfl
      · rintro rfl
        exact b.boot_names.mpr ⟨rfl, level, p, rfl, hp, rfl⟩
    · exact ⟨hu, rfl, hno .own (.inr hker), hplain, hcow, hpool⟩
    · have hclear : b.used f = false := by simpa using hu
      exact ⟨hclear, rfl, hno .own (.inr hker), hplain, hcow, hpool⟩

theorem sane (b : Machine) (tidy : Prop) : b.boot.Sane b.hw b.used tidy := by
  have hz : b.use 0 = .held := by
    have hhw : b.hw.isHardwarePage 0 = false := by
      have := b.hw.first_pos
      simp only [Hardware.isHardwarePage, Bool.and_eq_false_iff, decide_eq_false_iff_not]
      omega
    have hker : ¬ b.Taken 0 := by
      rintro ⟨level, p, hp, hf⟩
      exact (b.frame level p hp).2.1 hf
    simp [use, hhw, hker, b.zero_used]
  refine ⟨⟨b.use, ⟨b.boot_lawful, hz, fun f => ?_, b.below, b.hardware_used, fun f hf => ?_, rfl⟩,
    fun _ => tableOk_blank, ⟨b.closed, fun level p _ hp => (b.frame level p hp).1⟩,
    fun _ _ => rfl, fun _ _ hp => ?_⟩, fun _ _ ht => ?_,
    fun _ => ?_, fun _ _ => rfl, fun _ _ => rfl, fun s hs => ?_⟩
  · unfold use
    split_ifs <;> simp_all
  · left
    unfold use at hf
    split_ifs at hf with h1 h2 h3
    exact h3
  · exact absurd hp (by simp [boot, blank])
  · exact absurd ht (by simp [boot])
  · simp [boot]
  · exact absurd hs (by simp [boot])

theorem sane_run (b : Machine) (tidy : Prop) {ops : List Op} {σ : System}
    (hag : tidy → System.Along b.hw System.Agrees b.boot ops)
    (hres : b.boot.run b.hw ops = .ok σ) : σ.Sane b.hw b.used tidy :=
  System.Sane.run ops (b.sane tidy) hag hres

/-- The first page of the kernel heap, `kHeapBase + kHeapLowerGuardBytes`. -/
def kHeapFirst : ℕ := 0xFFFF808000001000

/-- The kernel half of a machine with one page of kernel heap, in frame 1, and its three tables in
the frames 1021 to 1023. -/
def heapTable : PageTable := fun level p =>
  if level ≤ 3 ∧ p = path (pageOf kHeapFirst) level then
    { present := true, writable := true, frame := if level = 0 then 1 else 1020 + level }
  else {}

theorem heapTable_present {level p : ℕ} :
    (heapTable level p).present = true ↔ level ≤ 3 ∧ p = path (pageOf kHeapFirst) level := by
  unfold heapTable
  split <;> simp_all

theorem heapTable_closed : heapTable.Closed := by
  intro level p hl hp
  obtain ⟨-, rfl⟩ := heapTable_present.mp hp
  have hup : (heapTable (level + 1) (path (pageOf kHeapFirst) level / 512)).present = true :=
    heapTable_present.mpr ⟨hl, (path_succ _ _).symm⟩
  refine ⟨hup, ?_⟩
  unfold heapTable
  split <;> rfl

theorem heapTable_finite : {x : ℕ × ℕ | (heapTable x.1 x.2).NamesFrame x.1}.Finite := by
  refine ((Set.finite_Iic 3).image fun level => (level, path (pageOf kHeapFirst) level)).subset ?_
  intro x hx
  obtain ⟨hl, hp⟩ := heapTable_present.mp hx.1
  exact ⟨x.1, hl, Prod.ext rfl hp.symm⟩

theorem heapTable_inside {n : ℕ} (hn : (heapTable 0 n).present = true) :
    kUserPages ≤ n ∧ n < 2 ^ 36 := by
  rw [(heapTable_present.mp hn).2]
  decide

theorem heapTable_distinct {level p l q : ℕ} (hp : (heapTable level p).NamesFrame level)
    (hq : (heapTable l q).NamesFrame l)
    (heq : (heapTable level p).frame = (heapTable l q).frame) : level = l ∧ p = q := by
  obtain ⟨hl, rfl⟩ := heapTable_present.mp hp.1
  obtain ⟨hl', rfl⟩ := heapTable_present.mp hq.1
  simp only [heapTable, hl, hl', true_and, if_true] at heq
  have hlevel : level = l := by split at heq <;> split at heq <;> omega
  exact ⟨hlevel, by rw [hlevel]⟩

/-- A framebuffer of one page above the ledger. -/
def smallHw : Hardware where
  node := 1
  first := 2 ^ 22
  extent := 4096
  first_pos := by decide
  extent_le := by decide
  fits := by decide

/-- The frames that are out at boot: the first two and those of the tables. -/
def smallUsed (f : ℕ) : Bool := f ≤ 1 || 1021 ≤ f && f ≤ 1023

theorem smallUsed_below {f : ℕ} (hf : smallUsed f = true) : f < kPmmTotalPages := by
  simp only [smallUsed, Bool.or_eq_true, Bool.and_eq_true, decide_eq_true_eq] at hf
  unfold kPmmTotalPages
  omega

theorem smallHw_above {f : ℕ} (hf : smallHw.isHardwarePage f = true)
    (hlt : f < kPmmTotalPages) : smallUsed f = true := by
  simp only [Hardware.isHardwarePage, Bool.and_eq_true, decide_eq_true_eq] at hf
  exact absurd hlt (Nat.not_lt.mpr hf.1)

theorem heapTable_frame {level p : ℕ} (hp : (heapTable level p).NamesFrame level) :
    smallUsed (heapTable level p).frame = true ∧ (heapTable level p).frame ≠ 0 ∧
      smallHw.isHardwarePage (heapTable level p).frame = false := by
  obtain ⟨hl, rfl⟩ := heapTable_present.mp hp.1
  interval_cases level <;> decide

/-- A small machine: one page of kernel heap, and the framebuffer above the
ledger. -/
def small : Machine where
  hw := smallHw
  used := smallUsed
  bytes _ _ := 0
  kernel := heapTable
  zero_used := rfl
  below _ := smallUsed_below
  hardware_used _ := smallHw_above
  closed := heapTable_closed
  finite := heapTable_finite
  inside _ := heapTable_inside
  frame _ _ := heapTable_frame
  distinct _ _ _ _ := heapTable_distinct

/-- A program without segments whose heap starts at 4 MiB. -/
def bare : Image where
  euid := 0
  egid := 0
  ranges := []
  heapBase := 0x400000
  ceiling := kUserMmapTop
  pages := []
  aligned := by simp
  below := by simp
  plain := by simp
  backed := by simp
  heap_aligned := by decide
  heap_below := by decide
  ceiling_aligned := by decide
  ceiling_below := by decide

end Machine

end Cinux
