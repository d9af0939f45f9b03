/-
Faults keep the invariant.

* `Good.placePage` — a fresh frame under an absent leaf;
* `Good.fillRegion` — one promise, one frame: a segment's page, a device's page
  or a fresh one;
* `Good.tryResolvePageFault` — the last sharer takes its frame back, any other
  moves to a copy;
* `Good.resolveFault` — the whole resolver.

Each also says what else it left alone (`Edited`).
-/
import Cinux.SpaceOps
import Cinux.StoreShape

namespace Cinux

open Memory (mapUser_eq names privateFlags retain setTable)

open Ledger PageTable Function

variable {hw : Hardware} {boot : ℕ → Bool} {promised : ℕ → ℕ → Option Promise}
  {hand hand' : Option ℕ} {use use' : ℕ → Use} {w v : Memory} {pid n : ℕ}

/-- At most the leaf of page `n` changed in the space of `pid`, and tables were
made there. -/
structure Edited (pid n : ℕ) (w v : Memory) : Prop where
  roots : v.roots = w.roots
  pages : v.pages = w.pages
  others : ∀ q, q ≠ pid → v.tables q = w.tables q
  leaf : ∀ k, k ≠ n → v.tables pid 0 k = w.tables pid 0 k ∨
    v.tables pid 0 k = {} ∧ (w.tables pid 0 k).present = false

theorem Edited.refl (pid n : ℕ) (w : Memory) : Edited pid n w w :=
  ⟨rfl, rfl, fun _ _ => rfl, fun _ _ => .inl rfl⟩

theorem Grown.edited (h : Grown pid w v) (n : ℕ) : Edited pid n w v :=
  ⟨h.roots, h.pages, h.others, fun k _ => h.leaf k⟩

theorem Grown.setLeaf (h : Grown pid w v) {leaf : Entry} {m : Pmm} {b : ℕ → Page}
    {e : List Event} :
    Edited pid n w
      { v.setTable pid ((v.tables pid).setLeaf n leaf) with
        pmm := m, bytes := b, history := e } := by
  refine ⟨h.roots, h.pages, fun q hq => ?_, fun k hk => ?_⟩
  · rw [← h.others q hq]
    simp [setTable, hq]
  · have : (v.tables pid).setLeaf n leaf 0 k = v.tables pid 0 k := setLeaf_ne _ _ hk
    simpa [setTable, this] using h.leaf k

variable {f : ℕ} {p : Promise}

/-- The terms of a fresh leaf suit a promise with the same terms. -/
theorem leafOk_fresh {executable : Bool} (hx : executable = true → p.terms.executable = true)
    (hdev : p.kind = .device → use (f % 2 ^ 40) = .foreign)
    (hseg : p.kind ≠ .device → p.shared.isSome = true → use (f % 2 ^ 40) = .pooled)
    (hpriv : p.kind ≠ .device → p.shared = none → use (f % 2 ^ 40) = .priv) :
    LeafOk use p (makeTableEntry f (userLeafTerms p.terms.writable executable)) := by
  refine ⟨fun h => h, fun h => hx (by simpa [makeTableEntry, userLeafTerms] using h),
    fun h => ⟨rfl, .inl h⟩, fun h => absurd h (by simp [makeTableEntry, userLeafTerms]),
    hdev, hseg, hpriv⟩

theorem entryName_fresh (hf : f < 2 ^ 40) (writable executable : Bool) :
    entryName 0 (makeTableEntry f (userLeafTerms writable executable)) = some (f, .plain) := by
  rw [entryName_leaf rfl, makeTableEntry_frame hf]
  rfl

theorem Grown.absent (h : Grown pid w v) (ha : (w.tables pid 0 n).present = false) :
    (v.tables pid 0 n).present = false := by
  rcases h.leaf n with he | ⟨he, -⟩
  · rwa [he]
  · rw [he]

theorem names_absent (ha : (w.tables pid 0 n).present = false) :
    w.names (.node pid 0 n) = none := by
  simp [names, entryName_absent ha]

/-- A page filled now is due the bytes it was filled with, and no other page of
any process is due anything else. -/
theorem recalled_filled (past : List Event) (page : Page) {i : ℕ} (hi : i < kSize) :
    recalled (.filled pid n page :: past) pid (n * kSize + i) = some (page i) ∧
    ∀ q k, ¬ (q = pid ∧ k = n) → recalled (.filled pid n page :: past) q (k * kSize + i)
      = recalled past q (k * kSize + i) := by
  have hdiv : ∀ k, (k * kSize + i) / kSize = k := fun k => by
    simp only [kSize] at *
    omega
  have hmod : (n * kSize + i) % kSize = i := by
    simp only [kSize] at *
    omega
  refine ⟨by simp [recalled, hdiv, hmod], fun q k hne => ?_⟩
  rw [recalled, hdiv, if_neg]
  rintro ⟨rfl, rfl⟩
  exact hne ⟨rfl, rfl⟩

/-! ### A fresh frame -/

/-- Bytes written to the frame in hand, or to an idle one, are nobody's. -/
theorem Good.writeHand (h : Good hw boot promised hand use w) (page : Page)
    (hf : use f = .held ∨ use f = .idle) :
    Good hw boot promised hand use { w with bytes := update w.bytes f page } := by
  refine h.step h.kept
    (Drops.refl use).moves h.tables h.kernel h.rootless (fun g h1 h2 => ?_)
    (fun _ _ _ => .inr ⟨rfl, fun _ _ => rfl⟩)
  refine update_of_ne ?_ _ _
  rintro rfl
  rcases hf with hf | hf
  · exact h2 hf
  · exact h1 hf

theorem Good.withPmm (h : Good hw boot promised hand use w) {m : Pmm}
    (hkept : Kept hw boot hand' use' m w.names) (hmoves : Moves use use') :
    Good hw boot promised hand' use' { w with pmm := m } :=
  h.step (v := { w with pmm := m }) hkept hmoves h.tables h.kernel h.rootless
    (fun _ _ _ => rfl) (fun _ _ _ => .inr ⟨rfl, fun _ _ => rfl⟩)

/-- A fresh frame under an absent leaf; it fails only without the bytes or with a
page refused. -/
theorem Good.placePage (h : Good hw boot promised none use w) (hroot : w.roots pid ≠ none)
    (hn : n < kUserPages) (habs : (w.tables pid 0 n).present = false)
    (hp : promised pid (n * kSize) = some p) (hdev : p.kind ≠ .device) (hshared : p.shared = none)
    {c : Option Page} {executable : Bool} (hx : executable = true → p.terms.executable = true)
    {r : Bool × Memory}
    (hr : w.placePage pid n c (userLeafTerms p.terms.writable executable) = r) :
    ∃ use', Good hw boot promised none use' r.2 ∧ Edited pid n w r.2 ∧
      (r.1 = false → c = none ∨ w.pmm.refusals < r.2.pmm.refusals) := by
  subst hr
  unfold Memory.placePage
  rcases h.kept.allocate with hno | ⟨f, hso, hne, hlt, hid, hkept⟩
  · rw [hno]
    exact ⟨use, h.withPmm h.kept.refuse (Drops.refl use).moves,
      ⟨rfl, rfl, fun _ _ => rfl, fun _ _ => .inl rfl⟩,
      fun _ => .inr (Nat.lt_succ_self _)⟩
  rw [hso]
  simp only [hne]
  have htake : Good hw boot promised (some f) (update use f .held)
      { w with pmm := w.pmm.take f } :=
    h.withPmm hkept (takes_update (.inl hid)).moves
  have hheld : update use f Use.held f = .held := update_self f _ use
  have hf40 : f < 2 ^ 40 := by
    unfold kPmmTotalPages at hlt
    omega
  cases c with
  | none =>
    have hback := htake.kept.give hheld hne
    refine ⟨_, (htake.withPmm hback (drops_update _ _).moves).writeHand (f := f)
      (fun _ => 0) (.inr (update_self f _ _)), ?_, fun _ => .inl rfl⟩
    exact ⟨rfl, rfl, fun _ _ => rfl, fun _ _ => .inl rfl⟩
  | some page =>
    have hfilled := htake.writeHand page (.inl hheld)
    have hensured := @Good.ensure _ _ _ _ _ _ pid n hfilled hroot hn
    obtain ⟨use', hgrows, hgood, hgrow, hreach, hfail⟩ := hensured
    have hheld' : use' f = .held := by
      rw [hgrows f (by rw [hheld]; simp), hheld]
    simp only [mapUser_eq]
    by_cases hmade : ((⟨w.pmm.take f, update w.bytes f page, w.roots, w.tables, w.kernel,
        w.pages, w.history⟩ : Memory).ensure pid n).1 = true
    · -- the frame is bound to the leaf
      simp only [hmade]
      have habs' := hgrow.absent habs
      have hname := entryName_fresh hf40 p.terms.writable executable
      have hbind := hgood.kept.bindPriv (r := .node pid 0 n) hheld' hne (names_absent habs')
      rw [← hname] at hbind
      have hframe := makeTableEntry_frame hf40 (userLeafTerms p.terms.writable executable)
      refine ⟨_, hgood.setLeaf
        (hreach hmade) hn rfl hbind
        (takes_update (.inr hheld')).moves (fun _ _ _ => rfl)
        (fun q k i hat hi => (recalled_filled _ page hi).2 q k hat) (fun _ => ⟨p, hp, ?_⟩)
        (fun _ _ i hi => ?_), ?_, nofun⟩
      · refine leafOk_fresh hx (fun hc => absurd hc hdev) (fun _ hc => ?_) (fun _ _ => ?_)
        · rw [hshared] at hc
          nomatch hc
        · rw [Nat.mod_eq_of_lt hf40, update_self]
      · have hby := congrFun (congrFun hgrow.bytes f) i
        rw [hframe]
        exact (recalled_filled _ page hi).1.trans (congrArg some (hby.trans (by simp)).symm)
      · exact Edited.mk hgrow.roots hgrow.pages
          hgrow.setLeaf.others hgrow.setLeaf.leaf
    · simp only [hmade, Bool.false_eq_true, if_false]
      have hback := hgood.kept.give hheld' hne
      refine ⟨_, hgood.withPmm hback (drops_update _ _).moves,
        ⟨hgrow.roots, hgrow.pages, hgrow.others, fun k _ => hgrow.leaf k⟩,
        fun _ => .inr ?_⟩
      rw [Pmm.freePage_refusals]
      exact hfail (by simpa using hmade)

/-! ### One promise, one frame -/

/-- Nothing stands behind the promise of a region at a page: the segment has no
such page, the device no such frame, or the read of the file is refused. -/
def NoSource (hw : Hardware) (w : Memory) (page : ℕ) (region : VmaRegion) (read : Option Page) :
    Prop :=
  match region.shared with
  | some attached => (w.pages attached.pages)[sub64 page attached.start / kSize]? = none
  | none =>
    if region.kind = .device then
      hw.frameAt region.backing (wrap (region.fileOffset + sub64 page region.start)) = none
    else Memory.fillContent region read = none

theorem frameAt_hardware {backing : FileBacking} {into f : ℕ}
    (h : hw.frameAt backing into = some f) : hw.isHardwarePage f = true := by
  unfold Hardware.frameAt at h
  split at h
  · rename_i hin
    obtain ⟨⟩ := h
    have hmod := alignUp_mod hw.extent
    simp only [Hardware.isHardwarePage, Bool.and_eq_true, decide_eq_true_eq]
    simp only [kSize] at *
    omega
  · cases h

theorem pageOf_page (hn : n < kUserPages) : pageOf (n * kSize) = n := by
  simp only [pageOf, kSize, kUserPages] at *
  omega

variable {region : VmaRegion} {read : Option Page}

/-- A leaf for a frame that is already counted or foreign: a device's frame, or
a segment's page with one more share. -/
theorem Good.mapKnown (h : Good hw boot promised hand use w) (hreach : (w.tables pid).Reaches n)
    (hn : n < kUserPages) (habs : (w.tables pid 0 n).present = false) {m : Pmm} {leaf : Entry}
    (hp : promised pid (n * kSize) = some p) (hok : LeafOk use p leaf)
    (hpresent : leaf.present = true) (hcow : leaf.cow = false) (hsmall : leaf.large = false)
    (hcases : use leaf.frame = .foreign ∧ m = w.pmm ∨
      use leaf.frame = .pooled ∧ m = w.pmm.addShare leaf.frame) : Good hw boot promised hand use
      { w.setTable pid ((w.tables pid).setLeaf n leaf) with pmm := m } := by
  have hname : entryName 0 leaf = some (leaf.frame, .plain) := by
    rw [entryName_leaf hpresent, hcow]
    rfl
  have hkept : Kept hw boot hand use m (update w.names (.node pid 0 n) (entryName 0 leaf)) := by
    rw [hname]
    rcases hcases with ⟨huse, rfl⟩ | ⟨huse, rfl⟩
    · exact h.kept.same (h.kept.lawful.bindForeign (names_absent habs) huse) rfl rfl
    · exact h.kept.same (h.kept.lawful.bindPooled (names_absent habs) huse) rfl rfl
  refine h.setLeaf hreach hn hsmall hkept (Drops.refl use).moves
    (fun _ _ _ => rfl) (fun _ _ _ _ _ => rfl) (fun _ => ⟨p, hp, hok⟩) (fun _ hpriv => ?_)
  rcases hcases with ⟨huse, -⟩ | ⟨huse, -⟩
  · rw [huse] at hpriv
    nomatch hpriv
  · rw [huse] at hpriv
    nomatch hpriv

variable {b : Bool}

theorem Good.fillRegion (h : Good hw boot promised none use w) (hroot : w.roots pid ≠ none)
    (hn : n < kUserPages) (habs : (w.tables pid 0 n).present = false)
    (hok : RegionOk region)
    (hp : promised pid (n * kSize) = some (region.promise (n * kSize)))
    (hres : Memory.fillRegion hw w pid (n * kSize) region read = .ok (b, v)) :
    ∃ use', Good hw boot promised none use' v ∧ Edited pid n w v ∧
      (∀ a, region.shared = some a → (v.tables pid 0 n).present = true →
        (v.tables pid 0 n).frame ∈ w.pages a.pages) ∧
      (b = false → NoSource hw w (n * kSize) region read ∨ w.pmm.refusals < v.pmm.refusals) := by
  unfold Memory.fillRegion at hres
  unfold NoSource
  rw [pageOf_page hn] at hres
  cases hshared : region.shared with
  | some attached =>
    rw [hshared] at hres
    simp only at hres ⊢
    cases hframe : (w.pages attached.pages)[sub64 (n * kSize) attached.start / kSize]? with
    | none =>
      rw [hframe] at hres
      obtain ⟨⟩ := hres
      exact ⟨use, h, Edited.refl pid n w, (fun _ _ hc => by cases habs.symm.trans hc),
        fun _ => .inl rfl⟩
    | some f =>
      rw [hframe] at hres
      simp only [mapUser_eq] at hres
      -- the page of the segment is counted, and stays so while tables are made
      have hpool : use f = .pooled := h.kept.use_of_pool
        (r := .pool attached.pages (sub64 (n * kSize) attached.start / kSize))
        (by simp [names, hframe])
      obtain ⟨use', hgrows, hgood, hgrow, hreach, hfile⟩ := h.ensure hroot hn
      by_cases hmade : (w.ensure pid n).1 = true
      · simp only [hmade, if_true] at hres
        have huse : use' f = .pooled := by rw [hgrows f (by rw [hpool]; simp), hpool]
        have hf40 : f < 2 ^ 40 := h.kept.named_lt
          (r := .pool attached.pages (sub64 (n * kSize) attached.start / kSize))
          (k := .pool) (by simp [names, hframe])
        have hleaf := makeTableEntry_frame hf40 (userLeafTerms region.writable false)
        cases hretain : retain ((w.ensure pid n).2.setTable pid
            (((w.ensure pid n).2.tables pid).setLeaf n
              (makeTableEntry f (userLeafTerms region.writable false)))) f with
        | error e =>
          rw [hretain] at hres
          cases hres
        | ok u =>
          rw [hretain] at hres
          obtain ⟨⟩ := hres
          obtain rfl := Memory.retain_ok hretain
          refine ⟨use', ?_, hgrow.setLeaf, ?_, (by simp)⟩
          swap
          · rintro a ⟨⟩ -
            simp only [Memory.setTable_self, setLeaf_self, hleaf]
            exact List.mem_of_getElem? hframe
          refine hgood.mapKnown (hreach hmade) hn (hgrow.absent habs) hp ?_ rfl rfl rfl
            (.inr ⟨by rw [hleaf, huse], by rw [hleaf]; rfl⟩)
          refine leafOk_fresh (by simp)
            (fun hc => by cases (hok.attached (by simp [hshared])).symm.trans hc) (fun _ _ => ?_)
            (fun _ hc => ?_)
          · rw [Nat.mod_eq_of_lt hf40, huse]
          · have : region.shared = none := hc
            rw [hshared] at this
            cases this
      · simp only [hmade] at hres
        obtain ⟨⟩ := hres
        exact ⟨use', hgood, hgrow.edited n,
          (fun _ _ hc => by cases (hgrow.absent habs).symm.trans hc),
          fun _ => .inr (hfile (by simpa using hmade))⟩
  | none =>
    rw [hshared] at hres
    by_cases hdev : region.kind = .device
    · rw [if_pos hdev] at hres ⊢
      cases hframe : hw.frameAt region.backing
          (wrap (region.fileOffset + sub64 (n * kSize) region.start)) with
      | none =>
        rw [hframe] at hres
        obtain ⟨⟩ := hres
        exact ⟨use, h, Edited.refl pid n w, (by simp), fun _ => .inl rfl⟩
      | some f =>
        rw [hframe] at hres
        simp only [mapUser_eq] at hres
        have hhw := frameAt_hardware hframe
        have hf40 := hardware_lt hhw
        have hleaf := makeTableEntry_frame hf40 (userLeafTerms region.writable region.executable)
        obtain ⟨use', hgrows, hgood, hgrow, hreach, hfile⟩ := h.ensure hroot hn
        have huse : use' f = .foreign := (hgood.kept.foreign f).mpr hhw
        by_cases hmade : (w.ensure pid n).1 = true
        · simp only [hmade] at hres
          obtain ⟨⟩ := hres
          refine ⟨use', ?_, (hgrow.setLeaf (n := n)), (by simp), (by simp)⟩
          refine hgood.mapKnown (hreach hmade) hn
            (hgrow.absent habs) hp ?_ rfl rfl rfl (.inl ⟨by rw [hleaf, huse], rfl⟩)
          refine leafOk_fresh (fun hx => hx) (fun _ => ?_)
            (fun hc => absurd hdev hc) (fun hc => absurd hdev hc)
          rw [Nat.mod_eq_of_lt hf40, huse]
        · simp only [hmade] at hres
          obtain ⟨⟩ := hres
          exact ⟨use', hgood, hgrow.edited n, (by simp),
            fun _ => .inr (hfile (by simpa using hmade))⟩
    · rw [if_neg hdev] at hres ⊢
      obtain ⟨use', hgood, hed, hfile⟩ :=
        h.placePage hroot hn habs hp hdev hshared (fun hx => hx) (Except.ok.inj hres)
      exact ⟨use', hgood, hed, (by simp), hfile⟩

/-! ### The resolver -/

/-- A write to a page whose leaf is marked. -/
structure Memory.CowFault (w : Memory) (pid n : ℕ) (code : FaultCode) : Prop where
  write : code.write = true
  reaches : (w.tables pid).Reaches n
  present : (w.tables pid 0 n).present = true
  writable : (w.tables pid 0 n).writable = false
  cow : (w.tables pid 0 n).cow = true

/-- A copy-on-write fault is only resolved at a marked leaf, and is no event. -/
theorem Memory.tryResolvePageFault_cases (w : Memory) (pid address : ℕ) (code : FaultCode) :
    (w.tryResolvePageFault pid address code = .ok (false, w) ∧
      ¬ w.CowFault pid (pageOf address) code) ∨
    w.CowFault pid (pageOf address) code ∧
      (w.tryResolvePageFault pid address code = .error .copyRefused ∨
        ∃ v, w.tryResolvePageFault pid address code = .ok (true, v) ∧ v.history = w.history) := by
  unfold Memory.tryResolvePageFault
  split
  · rename_i hwrite
    exact .inl ⟨rfl, fun h => by simp [h.write] at hwrite⟩
  split
  · rename_i hleaf
    exact .inl ⟨rfl, fun h => nomatch hleaf.symm.trans (leafSlot_of_reaches h.reaches)⟩
  rename_i hwrite _ leaf hleaf
  obtain ⟨hreach, rfl⟩ := leafSlot_some hleaf
  split
  · rename_i hskip
    exact .inl ⟨rfl, fun h => by simp [h.present, h.writable, h.cow] at hskip⟩
  rename_i hskip
  simp only [Bool.or_eq_true, Bool.not_eq_true', not_or, Bool.not_eq_false] at hwrite hskip
  refine .inr ⟨⟨hwrite, hreach, hskip.1.1, by simpa using hskip.1.2, hskip.2⟩, ?_⟩
  dsimp only
  split
  · exact .inr ⟨_, rfl, rfl⟩
  split
  · exact .inl rfl
  · exact .inr ⟨_, rfl, rfl⟩

/-- A copy-on-write fault: the last sharer takes its frame back, any other moves
to a fresh copy. -/
theorem Good.tryResolvePageFault (h : Good hw boot promised none use w) {address : ℕ}
    {code : FaultCode} (hwrite : code.write = true → ∀ p, promised pid (pageOf address * kSize) =
      some p → p.terms.writable = true)
    (hres : w.tryResolvePageFault pid address code = .ok (b, v)) :
    ∃ use', Good hw boot promised none use' v ∧ Edited pid (pageOf address) w v := by
  obtain ⟨htry, -⟩ | ⟨⟨hasked, hreach, hp, hplain, hcow⟩, -⟩ :=
    w.tryResolvePageFault_cases pid address code
  · obtain ⟨⟩ := htry.symm.trans hres
    exact ⟨use, h, Edited.refl pid _ w⟩
  unfold Memory.tryResolvePageFault at hres
  simp only [hasked, leafSlot_of_reaches hreach, hp, hplain, hcow] at hres
  generalize hn : pageOf address = n at *
  have hlt := h.page_lt hp
  obtain ⟨⟨p, hprom, hok⟩, hcon⟩ := h.leaves pid n hp
  have hname : w.names (.node pid 0 n) = some ((w.tables pid 0 n).frame, .cow) := by
    rw [w.names_leaf hp, hcow]
    rfl
  generalize hf : (w.tables pid 0 n).frame = f at *
  have hpriv : use f = .priv := h.kept.use_of_cow hname
  obtain ⟨hbelow, hone⟩ := h.kept.cow_shares hname
  have hf40 : f < 2 ^ 40 := by
    unfold kPmmTotalPages at hbelow
    omega
  rw [Pmm.dropShare_pos hbelow (by omega)] at hres
  -- the new leaf suits the promise, whatever private frame it names
  have hnew : ∀ {use' : ℕ → Use} {g : ℕ}, g < 2 ^ 40 → use' g = .priv →
      LeafOk use' p (makeTableEntry g (privateFlags (w.tables pid 0 n) true)) := by
    intro use' g hg huse
    have hkind := hok.of_priv (by rw [hf, hpriv])
    refine ⟨fun _ => hwrite hasked p hprom, fun hx => hok.executable ?_, fun _ => ⟨rfl, .inl rfl⟩,
      fun hc => absurd hc (by simp [makeTableEntry, privateFlags, userLeafTerms]),
      fun hc => absurd hc hkind.1, fun _ hc => ?_, fun _ _ => ?_⟩
    · simpa [makeTableEntry, privateFlags, userLeafTerms] using hx
    · rw [hkind.2] at hc
      nomatch hc
    · rwa [makeTableEntry_frame hg]
  have hent : ∀ {g : ℕ}, g < 2 ^ 40 → entryName 0
      (makeTableEntry g (privateFlags (w.tables pid 0 n) true)) = some (g, .plain) :=
    fun hg => entryName_fresh hg _ _
  have hed : ∀ (leaf : Entry) (m : Pmm) (c : ℕ → Page), Edited pid n w
      { w.setTable pid ((w.tables pid).setLeaf n leaf) with pmm := m, bytes := c } :=
    fun leaf m c => (Grown.refl pid w).setLeaf
  by_cases hls : w.pmm.shares f - 1 = 0
  · -- nobody else: the frame becomes writable in place
    rw [if_pos hls] at hres
    obtain ⟨⟩ := hres
    have hkept := h.kept.takeBack hname (by omega)
    rw [← hent hf40] at hkept
    refine ⟨use, ?_, hed _ _ w.bytes⟩
    rw [hls]
    refine h.setLeaf hreach hlt rfl hkept (Drops.refl use).moves
      (fun _ _ _ => rfl) (fun _ _ _ _ _ => rfl) (fun _ => ⟨p, hprom, hnew hf40 hpriv⟩)
      (fun _ _ i hi => ?_)
    rw [makeTableEntry_frame hf40]
    exact hcon hpriv i hi
  · rw [if_neg hls] at hres
    rcases h.kept.moveOff hname (by omega) rfl with hno | ⟨g, hso, hne, hid, hglt, hkept⟩
    · rw [hno] at hres
      simp at hres
    -- company: the page is copied to a fresh frame
    rw [hso] at hres
    simp only [hne] at hres
    obtain ⟨⟩ := hres
    have hg40 : g < 2 ^ 40 := by
      unfold kPmmTotalPages at hglt
      omega
    rw [← hent hg40] at hkept
    refine ⟨update use g .priv, ?_, hed _ _ _⟩
    refine h.setLeaf (e := w.history) hreach hlt rfl hkept
      (takes_update (.inl hid)).moves (fun k hk _ => ?_) (fun _ _ _ _ _ => rfl)
      (fun _ => ⟨p, hprom, hnew hg40 (update_self g _ _)⟩) (fun _ _ i hi => ?_)
    · refine update_of_ne ?_ _ _
      rintro rfl
      exact hk hid
    · rw [makeTableEntry_frame hg40, update_self]
      exact hcon hpriv i hi

theorem pageOf_user {a : ℕ} (ha : a < kUserTop) : pageOf a = a / kSize ∧ pageOf a < kUserPages := by
  simp only [pageOf, kSize, kUserTop, kUserPages] at *
  omega

/-- The leaf is absent where the walk finds no present entry. -/
theorem absent_of_findSlot {pt : PageTable} (hc : pt.Closed)
    (h : ¬ (pt.findSlot n).any (·.2.present) = true) : (pt 0 n).present = false := by
  by_contra hp
  have hp' : (pt 0 n).present = true := by simpa using hp
  have hfind : pt.findSlot n = some (0, pt 0 n) := findFrom_of_reaches (hc.reaches hp')
  exact h (by simp [hfind, hp'])

variable {ranges : VmaStore} {tidy : Prop} {lens : ℕ → ℕ} {address : ℕ} {code : FaultCode}

section

variable (hw : Hardware) (ranges : VmaStore) (w : Memory) (pid address : ℕ) (code : FaultCode)
  (read : Option Page)

/-- What becomes of a page fault: it is refused, the copy stops the machine, the page is copied,
or it is filled from its region. -/
inductive Memory.Resolved : Except Halt (Bool × Memory) → Prop
  | refused : Resolved (.ok (false, w))
  | halted : Resolved (.error .copyRefused)
  | copied {region : VmaRegion} {v : Memory} (hfind : ranges.find address = some region)
      (hpermits : Memory.permits region code = true)
      (hpresent : (w.tables pid 0 (pageOf address)).present = true)
      (hcow : (w.tables pid 0 (pageOf address)).cow = true) (hhist : v.history = w.history)
      (htry : w.tryResolvePageFault pid address code = .ok (true, v)) : Resolved (.ok (true, v))
  | filled {region : VmaRegion} (hfind : ranges.find address = some region)
      (hn : pageOf address = address / kSize) (hn' : pageOf address < kUserPages)
      (hslot : ¬ ((w.tables pid).findSlot (pageOf address)).any (·.2.present) = true) :
      Resolved (Memory.fillRegion hw w pid (pageOf address * kSize) region read)

theorem Memory.resolveFault_resolved : Resolved hw ranges w pid address code read
    (Memory.resolveFault hw ranges w pid address code read) := by
  unfold Memory.resolveFault
  split
  · exact .refused
  rename_i region hfind
  split
  · exact .refused
  rename_i hguard
  -- past the guard the region permits the access
  have hpermits : Memory.permits region code = true := by
    by_contra hno
    exact hguard (by simp [hno])
  obtain ⟨htry, -⟩ | ⟨hfault, htry | ⟨v, htry, hhist⟩⟩ :=
    w.tryResolvePageFault_cases pid address code
  · rw [htry]
    -- no copy-on-write leaf: the page is filled, if it may be
    unfold Memory.fillPage
    dsimp only
    split
    · exact .refused
    rename_i hargs
    obtain ⟨hn, hn'⟩ := pageOf_user (a := address) (by
      by_contra hge
      exact hargs (by simp [Nat.le_of_not_lt hge]))
    have hdown : alignDown address kSize = pageOf address * kSize := by rw [hn]; rfl
    rw [hfind, hdown]
    dsimp only
    rw [pageOf_page hn']
    split
    · exact .refused
    split
    · exact .refused
    split
    · exact .refused
    · exact .filled hfind hn hn' ‹_›
  · rw [htry]
    exact .halted
  · rw [htry]
    exact .copied hfind hpermits hfault.present hfault.cow hhist htry

end

/-- **The resolver keeps the memory good.** -/
theorem Good.resolveFault (h : Good hw boot promised none use w) (hroot : w.roots pid ≠ none)
    (hs : ranges.StoreOk tidy lens) (hview : ∀ a, promised pid a = ranges.view a)
    (hres : Memory.resolveFault hw ranges w pid address code read = .ok (b, v)) :
    ∃ use', Good hw boot promised none use' v ∧ Edited pid (pageOf address) w v := by
  have hresolve := Memory.resolveFault_resolved hw ranges w pid address code read
  generalize Memory.resolveFault hw ranges w pid address code read = r at hres hresolve
  cases hresolve with
  | refused =>
    obtain ⟨⟩ := hres
    exact ⟨use, h, Edited.refl pid _ w⟩
  | halted => nomatch hres
  | @copied region _ hfind hpermits _ _ _ htry =>
    obtain ⟨⟩ := hres
    obtain ⟨hpage, -, hlt⟩ := hs.find_page hfind
    -- the guard has checked that a write fault meets a writable region
    have hwrite : code.write = true → ∀ p, promised pid (pageOf address * kSize) = some p →
        p.terms.writable = true := by
      intro hasked p hp
      rw [hview, VmaStore.view, (pageOf_user hlt).1, hpage] at hp
      obtain ⟨⟩ := hp
      show region.writable = true
      by_contra hno
      simp [Memory.permits, hasked, hno] at hpermits
    exact h.tryResolvePageFault hwrite htry
  | filled hfind hn hn' hslot =>
    obtain ⟨hpage, hok, -⟩ := hs.find_page hfind
    obtain ⟨use', hgood, hed, -⟩ := h.fillRegion hroot hn'
      (absent_of_findSlot (h.tables pid).closed hslot) hok (by
        rw [hview, VmaStore.view, hn, hpage]
        rfl) hres
    exact ⟨use', hgood, hed⟩

end Cinux
