/-
Fork isolation.

The frames of private memory are shared lazily, through chains of forks of forks.
The picture a process has of its memory is much simpler: a private memory of its
own, copied from its parent at the fork.  That picture is `recalled`: it answers
what a process should find at an address from the events alone, its own stores,
the pages filled for it, and its fork.

Which events there are is said by the operations (`Explains`): a store adds
itself, a first touch of a page may add the fill of that page, a fork that
returns a child adds that fork, and nothing else adds anything.

* `step_history` — every step adds exactly the events its operation explains;
* `recalled_other` — no operation of another process changes what is due to one;
* `fork_isolation` — over every run, a load from private memory returns the byte
  that is due.
-/
import Cinux.SystemRuns

namespace Cinux

open Ledger Machine Memory Except

variable {read : Option Page} {address : ℕ} {code : FaultCode} {b : Bool} {answer : Answer}

namespace Memory

variable {hw : Hardware} {w v : Memory} {pid n : ℕ}

/-! ### What leaves the history alone -/

theorem reclaimSpots_history (hw : Hardware) (pid start bytes : ℕ) (w : Memory) :
    (w.reclaimSpots hw pid start bytes).history = w.history := by
  have hone : ∀ (w : Memory) (spot : ℕ), (w.reclaimSpot hw pid spot).history = w.history := by
    intro w spot
    unfold reclaimSpot
    dsimp only
    split <;> split <;> rfl
  unfold reclaimSpots
  generalize spots start bytes = l
  induction l generalizing w with
  | nil => rfl
  | cons spot l ih => rw [List.foldl_cons, ih, hone]

theorem teardown_frame (h : w.teardown hw pid = .ok v) :
    v.history = w.history ∧ v.pages = w.pages ∧ ∀ q ≠ pid, v.tables q = w.tables q := by
  unfold teardown at h
  split at h
  · rw [ok.inj h]
    exact ⟨rfl, rfl, fun _ _ => rfl⟩
  split at h
  · nomatch h
  · rw [← ok.inj h]
    exact ⟨rfl, rfl, fun _ hq => Function.update_of_ne hq _ _⟩

/-! ### Fills -/

/-- A page that is placed is one fill; a refused one is none. -/
theorem placePage_cases (w : Memory) (pid n : ℕ) (content : Option Page) (terms : Entry) :
    let v := (w.placePage pid n content terms).2
    (∀ q ≠ pid, v.tables q = w.tables q) ∧ v.pages = w.pages ∧ (v.history = w.history ∨
      ∃ page, content = some page ∧ v.history = .filled pid n page :: w.history) := by
  unfold placePage
  dsimp only
  split
  · exact ⟨fun _ _ => rfl, rfl, .inl rfl⟩
  split
  · exact ⟨fun _ _ => rfl, rfl, .inl rfl⟩
  rename_i page
  split
  · exact ⟨fun _ hq => setTable_ne _ _ hq, rfl, .inr ⟨page, rfl, rfl⟩⟩
  · exact ⟨fun _ hq => setTable_ne _ _ hq, rfl, .inl rfl⟩

theorem fillRegion_history {page : ℕ} {region : VmaRegion}
    (h : fillRegion hw w pid page region read = .ok (b, v)) :
    v.history = w.history ∨ ∃ bytes, fillContent region read = some bytes ∧
      v.history = .filled pid (pageOf page) bytes :: w.history := by
  unfold fillRegion at h
  split at h
  · -- a page of a segment is mapped, not filled
    split at h
    · obtain ⟨⟩ := h
      exact .inl rfl
    dsimp only at h
    split at h
    · obtain ⟨⟩ := h
      exact .inl rfl
    split at h
    · nomatch h
    rename_i hret
    obtain ⟨⟩ := h
    rw [retain_ok hret]
    exact .inl rfl
  split at h
  · split at h
    · obtain ⟨⟩ := h
      exact .inl rfl
    · obtain rfl : _ = v := congrArg Prod.snd (ok.inj h)
      exact .inl rfl
  · obtain rfl : _ = v := congrArg Prod.snd (ok.inj h)
    exact (w.placePage_cases pid (pageOf page) (fillContent region read) _).2.2

/-- A fault fills at most the page of its address, if that page was not there. -/
theorem resolveFault_history {ranges : VmaStore} (hc : (w.tables pid).Closed)
    (h : resolveFault hw ranges w pid address code read = .ok (b, v)) :
    v.history = w.history ∨ ∃ region bytes, ranges.find address = some region ∧
      (w.tables pid 0 (address / kSize)).present = false ∧
      fillContent region read = some bytes ∧
      v.history = .filled pid (address / kSize) bytes :: w.history := by
  have hresolve := resolveFault_resolved hw ranges w pid address code read
  generalize resolveFault hw ranges w pid address code read = r at h hresolve
  cases hresolve with
  | refused =>
    obtain ⟨⟩ := h
    exact .inl rfl
  | halted => nomatch h
  | copied _ _ _ _ hhist _ =>
    obtain ⟨⟩ := h
    exact .inl hhist
  | @filled region hfind hn hn' hslot =>
    have hfi := fillRegion_history h
    rw [pageOf_page hn', hn] at hfi
    rw [hn] at hslot
    exact hfi.imp_right fun ⟨bytes, hb, hh⟩ =>
      ⟨region, bytes, hfind, absent_of_findSlot hc hslot, hb, hh⟩

end Memory

namespace System

variable {hw : Hardware} {boot : ℕ → Bool} {tidy : Prop} {σ σ' : System} {pid : ℕ} {t : Task}
  {g : Grants}

theorem CallStep.history {call : Call} (h : CallStep hw tidy σ pid t call σ') :
    σ'.mem.history = σ.mem.history := by
  cases h with
  | same => rfl
  | keep _ _ => rfl
  | withdraw _ _ _ _ _ => exact reclaimSpots_history ..
  | protect _ _ _ _ _ _ => rfl
  | frames hmade _ => rw [allocateFrames_rest hmade]
  | remove _ => rfl

theorem exitTask_history (h : σ.exitTask hw pid = .ok σ') : σ'.mem.history = σ.mem.history := by
  unfold exitTask at h
  split at h
  · nomatch h
  · rename_i hdown
    rw [← ok.inj h]
    exact (teardown_frame hdown).1

/-- The space of a task is made, filled or given up: the other spaces and the page lists stay, and
only pages of its own are filled. -/
structure Refills (pid : ℕ) (w v : Memory) : Prop where
  others : ∀ q ≠ pid, v.tables q = w.tables q
  pages : v.pages = w.pages
  events : ∃ events, v.history = events ++ w.history ∧
    ∀ e ∈ events, ∃ page bytes, e = Event.filled pid page bytes

theorem Refills.of_history {w v : Memory} (hother : ∀ q ≠ pid, v.tables q = w.tables q)
    (hpages : v.pages = w.pages) (hhist : v.history = w.history) : Refills pid w v :=
  ⟨hother, hpages, [], hhist, by simp⟩

theorem Refills.refl {w : Memory} : Refills pid w w := .of_history (fun _ _ => rfl) rfl rfl

theorem Refills.trans {w v u : Memory} (h : Refills pid w v) (h' : Refills pid v u) :
    Refills pid w u := by
  obtain ⟨events, hev, hall⟩ := h.events
  obtain ⟨events', hev', hall'⟩ := h'.events
  refine ⟨fun q hq => (h'.others q hq).trans (h.others q hq), h'.pages.trans h.pages,
    events' ++ events, by rw [hev', hev, List.append_assoc], fun e he => ?_⟩
  exact (List.mem_append.mp he).elim (hall' e) (hall e)

theorem placeImage_refills (ranges : VmaStore) (pid : ℕ) : ∀ (l : List (ℕ × Page)) (w : Memory),
    Refills pid w (placeImage ranges pid l w).2 := by
  intro l
  induction l with
  | nil => exact fun w => .refl
  | cons x l ih =>
    intro w
    unfold placeImage
    dsimp only
    split
    · exact .refl
    rename_i region _
    split
    · exact .refl
    -- one page, then the rest
    have hone : Refills pid w (w.placePage pid x.1 (some x.2)
        (userLeafTerms region.writable region.executable)).2 := by
      obtain ⟨hother, hpages, hh | ⟨page, -, hh⟩⟩ := w.placePage_cases pid x.1 (some x.2)
        (userLeafTerms region.writable region.executable)
      · exact .of_history hother hpages hh
      · exact ⟨hother, hpages, [.filled pid x.1 page], hh, by simp⟩
    split
    · exact hone.trans (ih _)
    · exact hone

theorem Sane.access_none (h : Sane hw boot tidy σ) (ht : σ.tasks pid = none) {write : Bool} :
    accessFrame σ.mem pid address write = none := by
  obtain ⟨use, hgood⟩ := h.good
  have hblank := hgood.rootless pid ((h.rooted pid).mpr ht)
  by_contra hne
  obtain ⟨f, hf⟩ := Option.ne_none_iff_exists'.mp hne
  obtain ⟨hp, -⟩ := Sane.accessFrame_some hf
  rw [hblank] at hp
  exact absurd hp (by simp [PageTable.blank])

/-! ### The events of a step -/

/-- At most one fill, of the page of the address, which was not there; the bytes
are those of the region. -/
def FillAt (σ : System) (pid address : ℕ) (read : Option Page) (events : List Event) : Prop :=
  events = [] ∨ ∃ t region bytes, σ.tasks pid = some t ∧ t.vmas.find address = some region ∧
    (σ.mem.tables pid 0 (address / kSize)).present = false ∧
    fillContent region read = some bytes ∧
    events = [.filled pid (address / kSize) bytes]

/-- The events an operation adds, newest first. -/
def Explains (σ : System) (answer : Answer) (σ' : System) (events : List Event) : Op → Prop
  | .spawn _ => ∀ e ∈ events, ∃ page bytes, e = .filled σ.nextTask page bytes
  | .call _ _ _ | .exit _ => events = []
  | .fork pid _ _ =>
    events = if answer = .word σ.nextTask then [.forked pid σ.nextTask] else []
  | .fault pid address _ read | .load pid address read => FillAt σ pid address read events
  | .store pid address byte read =>
    (∃ fills, FillAt σ pid address read fills ∧ events = .stored pid address byte :: fills) ∨
    (FillAt σ pid address read events ∧ accessFrame σ'.mem pid address true = none)

theorem faultTask_history (h : Sane hw boot tidy σ) (ht : σ.tasks pid = some t)
    (hres : σ.faultTask hw pid t address code read = .ok (b, σ')) :
    ∃ events, σ'.mem.history = events ++ σ.mem.history ∧ FillAt σ pid address read events := by
  obtain ⟨use, hgood⟩ := h.good
  -- what the fault resolver did, and that nothing after it counts
  obtain ⟨r, v, hv, hend⟩ := faultTask_ok hres
  have hsame : σ'.mem.history = v.history := by
    rcases hend with ⟨rfl, -⟩ | ⟨-, hex⟩
    · rfl
    · exact exitTask_history hex
  rw [hsame]
  rcases resolveFault_history (hgood.tables pid).closed hv with
    hh | ⟨region, bytes, hfind, habs, hby, hh⟩
  · exact ⟨[], hh, .inl rfl⟩
  · exact ⟨_, hh, .inr ⟨t, region, bytes, ht, hfind, habs, hby, rfl⟩⟩

/-- A resolved fault leaves the tasks; an unresolved user fault ends its own. -/
theorem faultTask_tasks (hres : σ.faultTask hw pid t address code read = .ok (b, σ')) :
    (b = true → σ'.tasks = σ.tasks) ∧ (b = false → code.user = true → σ'.tasks pid = none) := by
  obtain ⟨_, _, -, ⟨rfl, huser⟩ | ⟨rfl, hex⟩⟩ := faultTask_ok hres
  · exact ⟨fun _ => rfl, fun hb hu => absurd hu (huser hb)⟩
  refine ⟨nofun, fun _ _ => ?_⟩
  unfold exitTask at hex
  split at hex
  · nomatch hex
  · rw [← ok.inj hex]
    exact Function.update_self ..

/-- A touch: the fault it may take, and whether the task outlived it. -/
theorem touch_history (h : Sane hw boot tidy σ) (ht : σ.tasks pid = some t) {write : Bool}
    {f : Option ℕ} (hres : σ.touch hw pid t address write read = .ok (f, σ')) :
    (∃ events, σ'.mem.history = events ++ σ.mem.history ∧ FillAt σ pid address read events) ∧
    (f ≠ none → σ'.tasks = σ.tasks) ∧ (f = none → accessFrame σ'.mem pid address write = none) := by
  unfold touch at hres
  split at hres
  · obtain ⟨⟩ := hres
    exact ⟨⟨[], rfl, .inl rfl⟩, fun _ => rfl, nofun⟩
  split at hres
  · nomatch hres
  · rename_i hfault
    obtain ⟨⟩ := hres
    exact ⟨faultTask_history h ht hfault, fun hf => absurd rfl hf, fun _ =>
      (h.faultTask ht hfault).access_none ((faultTask_tasks hfault).2 rfl rfl)⟩
  · rename_i hfault
    obtain ⟨⟩ := hres
    exact ⟨faultTask_history h ht hfault, fun _ => (faultTask_tasks hfault).1 rfl, fun hf => hf⟩

/-- A fork that returns the child is one event; a refused one is none. -/
theorem forkTask_history (h : Sane hw boot tidy σ) (ht : σ.tasks pid = some t) {late : Bool}
    {value : ℤ} (hres : σ.forkTask hw pid t g late = .ok (value, σ')) :
    σ'.mem.history = (if value = σ.nextTask then [.forked pid σ.nextTask] else []) ++
      σ.mem.history := by
  have hne := (h.task_lt ht).ne
  have hchild := h.root_next
  have href : (-kEnomem : ℤ) ≠ σ.nextTask := by
    simp only [kEnomem]
    omega
  obtain ⟨use, hgood⟩ := h.good
  have hview := congrFun (promised_of_task ht)
  unfold forkTask at hres
  split at hres
  · nomatch hres
  · rename_i hclean
    obtain ⟨⟩ := hres
    exact (hgood.cloneSharedSpace hne hchild hview hclean).2.1
  rename_i hclean
  have hhist := (hgood.cloneSharedSpace hne hchild hview hclean).2.1
  split at hres
  · obtain ⟨⟩ := hres
    rw [if_pos rfl]
    rw [hhist]
    rfl
  split at hres
  · nomatch hres
  · rename_i hdown
    obtain ⟨⟩ := hres
    exact (teardown_frame hdown).1.trans hhist

/-- A spawn leaves the spaces and page lists that are there. -/
theorem spawnTask_refills {image : Image} {value : ℤ}
    (hres : σ.spawnTask hw image = .ok (value, σ')) : Refills σ.nextTask σ.mem σ'.mem := by
  obtain ⟨hpages, hhist, hother⟩ := σ.mem.initSpace_frame σ.nextTask
  have hinit : Refills σ.nextTask σ.mem _ := .of_history hother hpages hhist
  have hplaced := hinit.trans (placeImage_refills image.store σ.nextTask image.pages _)
  unfold spawnTask at hres
  dsimp only at hres
  split at hres
  · obtain ⟨⟩ := hres
    exact hinit
  split at hres
  · rename_i hplace
    obtain ⟨⟩ := hres
    rw [hplace] at hplaced
    exact hplaced
  rename_i hplace
  rw [hplace] at hplaced
  split at hres
  · nomatch hres
  rename_i hdown
  obtain ⟨⟩ := hres
  obtain ⟨hhist, hpages, hother⟩ := teardown_frame hdown
  exact hplaced.trans (.of_history hother hpages hhist)

/-- What a live task's operation adds is what the operation explains. -/
theorem act_history (h : Sane hw boot tidy σ) {op : Op} (ht : (actor op).bind σ.tasks = some t)
    (hres : σ.act hw t op = .ok (answer, σ')) :
    ∃ events, σ'.mem.history = events ++ σ.mem.history ∧ Explains σ answer σ' events op := by
  cases act_ok ht hres with
  | call hcall => exact ⟨[], (syscall_step (h.stores _ t ht) h.segments hcall).history, rfl⟩
  | fork hfork =>
    refine ⟨_, forkTask_history h ht hfork, ?_⟩
    simp [Explains]
  | fault hfault => exact faultTask_history h ht hfault
  | load htouch => exact (touch_history h ht htouch).1
  | missed htouch =>
    obtain ⟨⟨events, hev, hfi⟩, -, hno⟩ := touch_history h ht htouch
    exact ⟨events, hev, .inr ⟨hfi, hno rfl⟩⟩
  | stored htouch =>
    obtain ⟨⟨events, hev, hfi⟩, -, -⟩ := touch_history h ht htouch
    refine ⟨_ :: events, ?_, .inl ⟨events, hfi, rfl⟩⟩
    show _ :: _ = _
    rw [hev]
    rfl
  | exit hex => exact ⟨[], exitTask_history hex, rfl⟩

/-- Every step adds exactly the events its operation explains. -/
theorem step_history (h : Sane hw boot tidy σ) {op : Op} (hres : σ.step hw op = .ok (answer, σ')) :
    ∃ events, σ'.mem.history = events ++ σ.mem.history ∧ Explains σ answer σ' events op := by
  rcases step_ok hres with ⟨image, value, σ₁, rfl, -, hspawn, rfl⟩ | ⟨hno, rfl, rfl⟩ |
    ⟨t, σ₁, ht, hact, rfl⟩
  · rw [reap_rest]
    exact (spawnTask_refills hspawn).events
  · -- no such task, so nothing happens
    refine ⟨[], rfl, ?_⟩
    cases op with
    | spawn image => exact nofun
    | call pid call g => rfl
    | fork pid g late => simp [Explains]
    | fault pid address code read => exact .inl rfl
    | load pid address read => exact .inl rfl
    | store pid address byte read => exact .inr ⟨.inl rfl, h.access_none hno⟩
    | exit pid => rfl
  · obtain ⟨events, hev, hexp⟩ := act_history h ht hact
    refine ⟨events, by rw [reap_rest]; exact hev, ?_⟩
    cases op with
    | store pid address byte read =>
      refine hexp.imp_right fun ⟨hfi, hno⟩ => ⟨hfi, ?_⟩
      rw [reap_rest]
      exact hno
    | spawn image => exact hexp
    | call pid call g => exact hexp
    | fork pid g late => exact hexp
    | fault pid address code read => exact hexp
    | load pid address read => exact hexp
    | exit pid => exact hexp

/-! ### What is due to a process -/

theorem recalled_fill {events : List Event} {q : ℕ} (h : FillAt σ pid address read events)
    (hq : pid ≠ q) (past : List Event) (a : ℕ) :
    recalled (events ++ past) q a = recalled past q a := by
  rcases h with rfl | ⟨t, region, bytes, -, -, -, -, rfl⟩
  · rfl
  · exact if_neg fun hc => hq hc.1

/-- No operation of another process changes what is due to a live one. -/
theorem recalled_other (h : Sane hw boot tidy σ) {op : Op} {events : List Event}
    (hexp : Explains σ answer σ' events op) {q : ℕ} (hlive : σ.tasks q ≠ none)
    (hq : actor op ≠ some q) (past : List Event) (a : ℕ) :
    recalled (events ++ past) q a = recalled past q a := by
  have hlt : q ≠ σ.nextTask := by
    rintro rfl
    exact hlive (h.fresh _ (le_refl _))
  cases op with
  | spawn image =>
    -- the pages of a fresh task are its own
    have hexp : ∀ e ∈ events, ∃ page bytes, e = Event.filled σ.nextTask page bytes := hexp
    induction events with
    | nil => rfl
    | cons e events ih =>
      obtain ⟨page, bytes, rfl⟩ := hexp e (by simp)
      rw [List.cons_append, recalled, if_neg fun hc => hlt hc.1.symm]
      have hrest : ∀ e ∈ events, ∃ page bytes, e = Event.filled σ.nextTask page bytes :=
        fun e he => hexp e (by simp [he])
      exact ih hrest hrest
  | call pid call g =>
    obtain rfl : events = [] := hexp
    rfl
  | exit pid =>
    obtain rfl : events = [] := hexp
    rfl
  | fork pid g late =>
    have hexp : events = if answer = .word σ.nextTask then [.forked pid σ.nextTask] else [] := hexp
    split at hexp
    · rw [hexp]
      show recalled past (if σ.nextTask = q then pid else q) a = _
      rw [if_neg hlt.symm]
    · rw [hexp]
      rfl
  | fault pid address code read =>
    exact recalled_fill hexp (fun he => hq (by rw [he]; rfl)) past a
  | load pid address read =>
    exact recalled_fill hexp (fun he => hq (by rw [he]; rfl)) past a
  | store pid address byte read =>
    have hne : pid ≠ q := fun he => hq (by rw [he]; rfl)
    rcases hexp with ⟨fills, hfi, rfl⟩ | ⟨hfi, -⟩
    · rw [List.cons_append, recalled, if_neg fun hc => hne hc.1]
      exact recalled_fill hfi hne past a
    · exact recalled_fill hfi hne past a

/-- A load that is granted in a private region reads what is due. -/
theorem load_due (h : Sane hw boot tidy σ) (ht : σ.tasks pid = some t) {address f : ℕ}
    {region : VmaRegion} (hres : σ.touch hw pid t address false read = .ok (some f, σ'))
    (hfind : t.vmas.find address = some region) (hkind : region.kind ≠ .device)
    (hshared : region.shared = none) :
    recalled σ'.mem.history pid address = some (σ'.mem.bytes f (address % kSize)) := by
  obtain ⟨hsane, hframe⟩ := h.touch ht hres
  have htask := (touch_history h ht hres).2.1 (by simp)
  obtain ⟨hp, rfl, -⟩ := Sane.accessFrame_some (hframe (by simp)).symm
  obtain ⟨use, hgood⟩ := hsane.good
  obtain ⟨⟨p, hprom, hok⟩, hcon⟩ := hgood.leaves pid (address / kSize) hp
  have ht' : σ'.tasks pid = some t := by rw [htask, ht]
  -- the leaf lies in the same region, so its frame is private
  rw [promised_of_task ht', VmaStore.view, ((h.stores pid t ht).find_page hfind).1] at hprom
  obtain ⟨⟩ := hprom
  have hdue := hcon (hok.priv hkind hshared) (address % kSize) (Nat.mod_lt _ (by decide))
  rwa [Nat.div_add_mod'] at hdue

/-- Fork isolation.  After every run, every further operation adds exactly the
events it explains, nothing that another process does changes what is due to a
live one, and a load from private memory that is granted returns the byte that is
due to its process. -/
theorem fork_isolation (b : Machine) (ops : List Op) (σ : System)
    (hrun : b.boot.run b.hw ops = .ok σ) (op : Op) (answer : Answer) (σ' : System)
    (hstep : σ.step b.hw op = .ok (answer, σ')) :
    (∃ events, σ'.mem.history = events ++ σ.mem.history ∧ Explains σ answer σ' events op) ∧
    (∀ q a, σ.tasks q ≠ none → actor op ≠ some q →
      recalled σ'.mem.history q a = recalled σ.mem.history q a) ∧
    ∀ pid address read value t region, op = .load pid address read → answer = .byte (some value) →
      σ.tasks pid = some t → t.vmas.find address = some region → region.kind ≠ .device →
      region.shared = none → recalled σ'.mem.history pid address = some value := by
  have hsane := b.sane_run False (fun h => h.elim) hrun
  obtain ⟨events, hevents, hexp⟩ := step_history hsane hstep
  refine ⟨⟨events, hevents, hexp⟩, fun q a hlive hq => ?_, ?_⟩
  · rw [hevents]
    exact recalled_other hsane hexp hlive hq _ a
  · rintro pid address read value t region rfl rfl ht hfind hkind hshared
    rcases step_ok hstep with ⟨_, _, _, hop, -⟩ | ⟨hnone, -, -⟩ | ⟨t', σ₁, ht', hact, rfl⟩
    · cases hop
    · rw [show (actor (.load pid address read)).bind σ.tasks = σ.tasks pid from rfl, ht] at hnone
      cases hnone
    obtain rfl : t = t' := Option.mem_unique ht ht'
    simp only [act] at hact
    split at hact
    · cases hact
    rename_i frame _ htouch
    obtain ⟨hbyte, rfl⟩ := Prod.mk.inj (ok.inj hact)
    obtain ⟨f, rfl, rfl⟩ := Option.map_eq_some_iff.mp (Answer.byte.inj hbyte)
    rw [reap_rest]
    exact load_due hsane ht htouch hfind hkind hshared

/-- A task writes to its heap and forks; then the child writes to the same
address. -/
def childWrites : List Op :=
  [.spawn bare, .call 0 (.brk 0x401000) [], .store 0 0x400010 7 none, .fork 0 [] false,
    .store 1 0x400010 9 none]

/-- The parent still reads what it wrote. -/
theorem fork_isolation_child_writes :
    ∃ σ σ', small.boot.run small.hw childWrites = .ok σ ∧
      σ.step small.hw (.load 0 0x400010 none) = .ok (.byte (some 7), σ') ∧
      recalled σ'.mem.history 0 0x400010 = some 7 := by
  obtain ⟨σ, hrun, t, ht, region, hfind, hkind, hshared, ⟨answer, σ'⟩, hstep, rfl⟩ :
      ∃ σ, small.boot.run small.hw childWrites = .ok σ ∧
        ∃ t, σ.tasks 0 = some t ∧ ∃ region, t.vmas.find 0x400010 = some region ∧
          region.kind ≠ .device ∧ region.shared = none ∧
        ∃ x, σ.step small.hw (.load 0 0x400010 none) = .ok x ∧
          x.1 = .byte (some 7) := by
    decide +kernel
  obtain ⟨-, -, hload⟩ := fork_isolation small childWrites σ hrun _ _ _ hstep
  exact ⟨σ, σ', hrun, hstep, hload 0 _ none 7 t region rfl rfl ht hfind hkind hshared⟩

end System

end Cinux
