/-
Mapping and unmapping keep the invariant.

* `Good.setLeaf` — one leaf is written, with all that this needs;
* `Good.ensure` — the tables on the way to a page are made, nothing else changes
  (`Grown`);
* `Good.reclaim` — the loop of `ReclaimUserSpan`: the leaves of the span go
  and every other leaf stands.
-/
import Cinux.Spaces

namespace Cinux

open Memory (names setTable spots)
open Ledger PageTable Function

variable {hw : Hardware} {boot : ℕ → Bool} {promised : ℕ → ℕ → Option Promise}
  {hand hand' : Option ℕ} {use use' : ℕ → Use} {w v : Memory} {pid n : ℕ}

/-! ### Writing one leaf -/

theorem Good.rooted (h : Good hw boot promised hand use w) (hr : (w.tables pid).Reaches n) :
    w.roots pid ≠ none := by
  intro hno
  have := (hr 1 (by omega) (by omega)).1
  rw [h.rootless pid hno] at this
  exact absurd this (by simp [blank])

/-- One leaf of one space is written, and the ledger is kept under the names as
they then are. -/
theorem Good.setLeaf (h : Good hw boot promised hand use w) {leaf : Entry} {m : Pmm}
    {b : ℕ → Page} {e : List Event} (hreach : (w.tables pid).Reaches n) (hn : n < kUserPages)
    (hsmall : leaf.large = false)
    (hkept : Kept hw boot hand' use' m (update w.names (.node pid 0 n) (entryName 0 leaf)))
    (hmoves : Moves use use')
    (hby : ∀ f, use f ≠ .idle → use f ≠ .held → b f = w.bytes f)
    (hrec : ∀ q k i, ¬ (q = pid ∧ k = n) → i < kSize →
      recalled e q (k * kSize + i) = recalled w.history q (k * kSize + i))
    (hok : leaf.present = true → ∃ p, promised pid (n * kSize) = some p ∧ LeafOk use' p leaf)
    (hcon : leaf.present = true → use' leaf.frame = .priv → ∀ i, i < kSize →
      recalled e pid (n * kSize + i) = some (b leaf.frame i)) :
    Good hw boot promised hand' use'
      { w.setTable pid ((w.tables pid).setLeaf n leaf) with
        pmm := m, bytes := b, history := e } := by
  refine h.step ?_ hmoves (fun q => ?_) h.kernel
    (fun q hq => ?_) hby (fun q k hp => ?_)
  · rw [← w.names_setLeaf pid n leaf] at hkept
    exact hkept
  · by_cases hq : q = pid
    · subst hq
      simpa [setTable] using (h.tables q).setLeaf hreach hn hsmall
    · simpa [setTable, hq] using h.tables q
  · by_cases hqp : q = pid
    · subst hqp
      exact absurd hq (h.rooted hreach)
    · simpa [setTable, hqp] using h.rootless q hq
  · -- the new leaf is good by assumption, the others are as they were
    by_cases hat : q = pid ∧ k = n
    · obtain ⟨rfl, rfl⟩ := hat
      have hself : (update w.tables q ((w.tables q).setLeaf k leaf)) q 0 k = leaf := by
        simp
      simp only [setTable, hself] at hp
      refine .inl ⟨?_, ?_⟩
      · simpa only [setTable, hself] using hok hp
      · simpa only [setTable, hself] using hcon hp
    · refine .inr ⟨?_, fun i hi => hrec q k i hat hi⟩
      by_cases hq : q = pid
      · subst hq
        simpa [setTable] using (w.tables q).setLeaf_ne leaf fun hk => hat ⟨rfl, hk⟩
      · simp [setTable, hq]

/-! ### Making tables -/

/-- Tables were made on the way to pages of one space; no leaf, no byte and no
count changed. -/
structure Grown (pid : ℕ) (w v : Memory) : Prop where
  roots : v.roots = w.roots
  pages : v.pages = w.pages
  bytes : v.bytes = w.bytes
  history : v.history = w.history
  shares : v.pmm.shares = w.pmm.shares
  others : ∀ q, q ≠ pid → v.tables q = w.tables q
  leaf : ∀ n, v.tables pid 0 n = w.tables pid 0 n ∨
    v.tables pid 0 n = {} ∧ (w.tables pid 0 n).present = false

/-- An entry that stands, or is empty where it was absent, twice. -/
theorem Entry.stays_trans {a b c : Entry} (h : b = a ∨ b = {} ∧ a.present = false)
    (h' : c = b ∨ c = {} ∧ b.present = false) : c = a ∨ c = {} ∧ a.present = false := by
  rcases h' with rfl | ⟨rfl, hb⟩
  · exact h
  · rcases h with rfl | ⟨-, ha⟩
    · exact .inr ⟨rfl, hb⟩
    · exact .inr ⟨rfl, ha⟩

theorem Grown.refl (pid : ℕ) (w : Memory) : Grown pid w w :=
  ⟨rfl, rfl, rfl, rfl, rfl, fun _ _ => rfl, fun _ => .inl rfl⟩

theorem Grown.trans {u : Memory} (h : Grown pid u v) (h' : Grown pid v w) : Grown pid u w := by
  refine ⟨h'.roots.trans h.roots, h'.pages.trans h.pages, h'.bytes.trans h.bytes,
    h'.history.trans h.history, h'.shares.trans h.shares,
    fun q hq => (h'.others q hq).trans (h.others q hq),
    fun n => Entry.stays_trans (h.leaf n) (h'.leaf n)⟩

/-- Uses as they change while tables are made: only idle frames are taken. -/
def Grows (use use' : ℕ → Use) : Prop := ∀ f, use f ≠ .idle → use' f = use f

theorem Grows.trans {u u' u'' : ℕ → Use} (h : Grows u u') (h' : Grows u' u'') : Grows u u'' := by
  intro f hf
  have hu := h f hf
  rw [h' f (by rwa [hu]), hu]

theorem Grows.moves (h : Grows use use') : Moves use use' := fun f => by
  by_cases hf : use f = .idle
  · exact .inr (.inl hf)
  · exact .inl (h f hf)

/-- The table-making part of `mapUser`. -/
def Memory.ensure (w : Memory) (pid n : ℕ) : Bool × Memory :=
  let made := ensureFrom n 3 w.pmm (w.tables pid)
  (made.1, { w.setTable pid made.2.2 with pmm := made.2.1 })

theorem Memory.mapUser_eq (w : Memory) (pid n : ℕ) (leaf : Entry) : w.mapUser pid n leaf
      = if (w.ensure pid n).1 then (true, (w.ensure pid n).2.setTable pid
          (((w.ensure pid n).2.tables pid).setLeaf n leaf))
        else (false, (w.ensure pid n).2) := by
  unfold Memory.mapUser Memory.ensure mapUserPage
  by_cases hok : (ensureFrom n 3 w.pmm (w.tables pid)).1 = true
  · simp [hok, setTable]
  · simp [hok]

theorem Good.link (h : Good hw boot promised hand use w) (hroot : w.roots pid ≠ none)
    {m : Pmm} {pt : PageTable} (hstep : PageTable.LinkStep (w.pmm, w.tables pid) (m, pt)) :
    ∃ use', Grows use use' ∧ Good hw boot promised hand use' { w.setTable pid pt with pmm := m } ∧
      Grown pid w { w.setTable pid pt with pmm := m } := by
  obtain ⟨h1, h3, hp, hne, hlt, hclear, habs, hpar⟩ | _ := hstep
  rotate_left
  · -- a refused page: the ledger counts it
    have hsame : w.setTable pid (w.tables pid) = w := by simp [setTable]
    rw [hsame]
    exact ⟨use, fun _ _ => rfl, h.step h.kept.refuse
      (Drops.refl use).moves h.tables h.kernel h.rootless (fun _ _ _ => rfl)
      (fun _ _ _ => .inr ⟨rfl, fun _ _ => rfl⟩),
      rfl, rfl, rfl, rfl, rfl, fun _ _ => rfl, fun _ => .inl rfl⟩
  rename_i frame level p
  have hname : w.names (.node pid level p) = none := by
    simp [names, entryName_absent habs]
  have hgrows : Grows use (update use frame .owned) := by
    intro f hf
    refine update_of_ne ?_ _ _
    rintro rfl
    exact hf (h.kept.idle_of_clear hclear hlt)
  have hleaf : ∀ k, (w.tables pid).link level p (tableEntry frame) 0 k
      = w.tables pid 0 k ∨ (w.tables pid).link level p (tableEntry frame) 0 k = {} ∧
        (w.tables pid 0 k).present = false :=
    fun k => link_cases (h.tables pid).closed _ h3 habs (by omega)
  refine ⟨_, hgrows, h.step ?_ hgrows.moves (fun q => ?_)
    h.kernel (fun q hq => ?_) (fun _ _ _ => rfl) (fun q k hp' => .inr ⟨?_, fun _ _ => rfl⟩),
    rfl, rfl, rfl, rfl, rfl, fun q hq => ?_, fun k => ?_⟩
  · have hent : entryName level (tableEntry frame) = some (frame, .own) := by
      rw [entryName_table rfl (by omega), tableEntry, makeTableEntry_frame]
      unfold kPmmTotalPages at hlt
      omega
    have hkept := h.kept.takeOwn hne hlt hclear hname
    rw [← hent, ← w.names_link pid (tableEntry frame) (h.tables pid).closed h1 h3 habs] at hkept
    exact hkept
  · by_cases hq : q = pid
    · subst hq
      simpa [setTable] using (h.tables q).link h3 hp habs hpar
    · simpa [setTable, hq] using h.tables q
  · by_cases hqp : q = pid
    · subst hqp
      exact absurd hq hroot
    · simpa [setTable, hqp] using h.rootless q hq
  · by_cases hq : q = pid
    · subst hq
      simp only [setTable, update_self] at hp' ⊢
      rcases hleaf k with he | ⟨he, -⟩
      · exact he
      · rw [he] at hp'
        cases hp'
    · simp [setTable, hq]
  · simp [setTable, hq]
  · simpa [setTable] using hleaf k

theorem Good.links {y : Pmm × PageTable} : ∀ {x : Pmm × PageTable},
    Relation.ReflTransGen PageTable.LinkStep x y →
    ∀ {w : Memory} {use : ℕ → Use}, Good hw boot promised hand use w → w.roots pid ≠ none →
    w.pmm = x.1 → w.tables pid = x.2 →
    ∃ use', Grows use use' ∧
      Good hw boot promised hand use' { w.setTable pid y.2 with pmm := y.1 } ∧
      Grown pid w { w.setTable pid y.2 with pmm := y.1 } := by
  intro x hchain
  induction hchain using Relation.ReflTransGen.head_induction_on with
  | refl =>
    intro w use h _ hm hpast
    have hsame : { w.setTable pid y.2 with pmm := y.1 } = w := by
      rw [← hm, ← hpast]
      simp [setTable]
    rw [hsame]
    exact ⟨use, fun _ _ => rfl, h, Grown.refl pid w⟩
  | head hstep hrest ih =>
    rename_i x z
    intro w use h hroot hm hpast
    obtain ⟨use1, hg1, hgood1, hgr1⟩ := h.link hroot
      (show PageTable.LinkStep _ (z.1, z.2) by rw [hm, hpast]; exact hstep)
    obtain ⟨use2, hg2, hgood2, hgr2⟩ := ih hgood1 (by rw [hgr1.roots]; exact hroot) rfl (by simp)
    have hsame : ({ ({ w.setTable pid z.2 with pmm := z.1 } : Memory).setTable pid y.2 with
        pmm := y.1 } : Memory) = { w.setTable pid y.2 with pmm := y.1 } := by
      simp [setTable]
    rw [hsame] at hgood2 hgr2
    exact ⟨use2, hg1.trans hg2, hgood2, hgr1.trans hgr2⟩

/-- The tables on the way to a page are made, or a page is refused. -/
theorem Good.ensure (h : Good hw boot promised hand use w) (hroot : w.roots pid ≠ none)
    (hn : n < kUserPages) :
    ∃ use', Grows use use' ∧ Good hw boot promised hand use' (w.ensure pid n).2 ∧
      Grown pid w (w.ensure pid n).2 ∧
      ((w.ensure pid n).1 = true → ((w.ensure pid n).2.tables pid).Reaches n) ∧
      ((w.ensure pid n).1 = false → w.pmm.refusals < (w.ensure pid n).2.pmm.refusals) := by
  obtain ⟨hchain, -, hreach, hfail⟩ := @PageTable.ensureFrom_spec n hn 3 w.pmm
    (w.tables pid) h.kept.used_zero (le_refl _) (by omega)
  obtain ⟨use', hg, hgood, hgrow⟩ := h.links hchain hroot rfl rfl
  refine ⟨use', hg, hgood, hgrow, fun hok => ?_, fun hno => ?_⟩
  · have := hreach hok
    simpa [Memory.ensure, PageTable.Reaches] using this
  · rcases hfail hno with ⟨l, -, -, hlarge⟩ | href
    · rw [(h.tables pid).small] at hlarge
      nomatch hlarge
    · exact href

/-! ### Counting -/

theorem Memory.retain_ok {f : ℕ} (h : w.retain f = .ok v) :
    v = { w with pmm := w.pmm.addShare f } := by
  unfold retain at h
  split at h
  · nomatch h
  · rename_i m hm
    obtain rfl := Pmm.retainFrame_ok hm
    exact (Except.ok.inj h).symm

/-! ### Unmapping -/

/-- In a closed table `UnmapPage` answers the leaf and clears it, or there was
none. -/
theorem PageTable.Closed.unmapPage_cases {pt : PageTable} (hc : pt.Closed) (n : ℕ) :
    (pt.Reaches n ∧ pt.unmapPage n = (pt 0 n, pt.setLeaf n {})) ∨
    ((pt 0 n).present = false ∧ pt.unmapPage n = ({}, pt)) := by
  unfold unmapPage
  cases hslot : pt.leafSlot n with
  | some leaf =>
    obtain ⟨hr, rfl⟩ := leafSlot_some hslot
    exact .inl ⟨hr, rfl⟩
  | none =>
    refine .inr ⟨?_, rfl⟩
    by_contra hp
    rw [hc.leafSlot_of_present (by simpa using hp)] at hslot
    nomatch hslot

theorem Memory.names_clearKernel (w : Memory) (n : ℕ) :
    ({ w with kernel := w.kernel.setLeaf n {} } : Memory).names
      = update w.names (.kernel 0 n) none := by
  funext r
  by_cases hr : r = .kernel 0 n
  · subst hr
    simp [names, Entry.NamesFrame]
  rw [update_of_ne hr]
  cases r with
  | root q => rfl
  | node q level p => rfl
  | pool p i => rfl
  | kernel level k =>
    have hne : ¬ (level = 0 ∧ k = n) := fun h => hr (by rw [h.1, h.2])
    simp only [names, PageTable.setLeaf, if_neg hne]

/-- The leaves of the pages in `gone` went, from the space and from the kernel
half; everything else stands. -/
structure Cleared (pid : ℕ) (gone : ℕ → Prop) (w v : Memory) : Prop where
  roots : v.roots = w.roots
  pages : v.pages = w.pages
  others : ∀ q, q ≠ pid → v.tables q = w.tables q
  above : ∀ level p, v.tables pid (level + 1) p = w.tables pid (level + 1) p
  stays : ∀ n, ¬ gone n → v.tables pid 0 n = w.tables pid 0 n
  goes : ∀ n, gone n → (v.tables pid 0 n).present = false
  kernelAbove : ∀ level p, v.kernel (level + 1) p = w.kernel (level + 1) p
  kernelStays : ∀ n, ¬ (gone n ∧ kUserPages ≤ n) → v.kernel 0 n = w.kernel 0 n
  kernelGoes : ∀ n, gone n → kUserPages ≤ n → (v.kernel 0 n).present = false

theorem Cleared.refl (pid : ℕ) (w : Memory) : Cleared pid (fun _ => False) w w :=
  ⟨rfl, rfl, fun _ _ => rfl, fun _ _ => rfl, fun _ _ => rfl, fun _ h => h.elim,
    fun _ _ => rfl, fun _ _ => rfl, fun _ h => h.elim⟩

theorem Cleared.trans {u : Memory} {gone more : ℕ → Prop} (h : Cleared pid gone u v)
    (h' : Cleared pid more v w) : Cleared pid (fun n => gone n ∨ more n) u w := by
  refine ⟨h'.roots.trans h.roots, h'.pages.trans h.pages,
    fun q hq => (h'.others q hq).trans (h.others q hq),
    fun l p => (h'.above l p).trans (h.above l p), fun n hn => ?_, fun n hn => ?_,
    fun l p => (h'.kernelAbove l p).trans (h.kernelAbove l p), fun n hn => ?_, fun n hn hk => ?_⟩
  · rw [h'.stays n fun hm => hn (.inr hm), h.stays n fun hg => hn (.inl hg)]
  · by_cases hm : more n
    · exact h'.goes n hm
    · rw [h'.stays n hm]
      exact h.goes n (hn.resolve_right hm)
  · rw [h'.kernelStays n fun hm => hn ⟨.inr hm.1, hm.2⟩,
      h.kernelStays n fun hg => hn ⟨.inl hg.1, hg.2⟩]
  · by_cases hm : more n
    · exact h'.kernelGoes n hm hk
    · rw [h'.kernelStays n fun hc => hm hc.1]
      exact h.kernelGoes n (hn.resolve_right hm) hk

theorem Cleared.congr {gone gone' : ℕ → Prop} (h : Cleared pid gone w v)
    (hg : ∀ n, gone n ↔ gone' n) : Cleared pid gone' w v := by
  have : gone = gone' := funext fun n => propext (hg n)
  rwa [← this]

section

variable (h : Good hw boot promised hand use w)
include h

theorem Good.unmapUser (hn : n < kUserPages)
    (hv : v = if ((w.tables pid).unmapPage n).1.present then
        { w.setTable pid ((w.tables pid).unmapPage n).2 with
          pmm := w.pmm.releaseFrame hw.isHardwarePage ((w.tables pid).unmapPage n).1.frame }
      else w.setTable pid ((w.tables pid).unmapPage n).2) : ∃ use',
      Good hw boot promised hand use' v ∧ Cleared pid (fun k => k = n) w v := by
  subst hv
  rcases (h.tables pid).closed.unmapPage_cases n with ⟨hreach, heq⟩ | ⟨habs, heq⟩
  · -- the leaf slot is there: it is cleared, and a present leaf releases its frame
    have hclear : ∀ m, Cleared pid (fun k => k = n) w
        { w.setTable pid ((w.tables pid).setLeaf n {}) with pmm := m } := by
      intro m
      refine ⟨rfl, rfl, fun q hq => by simp [setTable, hq],
        fun l p => by simp [setTable], fun k hk => ?_, fun k hk => ?_, fun _ _ => rfl,
        fun _ _ => rfl, fun k hk hk' => by omega⟩
      · simpa [setTable] using setLeaf_ne _ _ hk
      · subst hk
        simp [setTable]
    rw [heq]
    by_cases hp : (w.tables pid 0 n).present = true
    · obtain ⟨use', hdrop, hkept⟩ := h.kept.release (w.names_leaf hp)
      rw [if_pos hp]
      refine ⟨use', ?_, hclear _⟩
      exact h.setLeaf hreach hn rfl hkept hdrop.moves
        (fun _ _ _ => rfl) (fun _ _ _ _ _ => rfl) (by simp)
        (by simp)
    · rw [if_neg hp]
      refine ⟨use, ?_, hclear w.pmm⟩
      have hname : w.names (.node pid 0 n) = none := by
        simp [names, entryName_absent (by simpa using hp)]
      refine h.setLeaf hreach hn rfl ?_
        (Drops.refl use).moves (fun _ _ _ => rfl) (fun _ _ _ _ _ => rfl)
        (by simp) (by simp)
      rw [entryName_absent rfl, ← hname, update_eq_self]
      exact h.kept
  · rw [heq]
    have hsame : w.setTable pid (w.tables pid) = w := by simp [setTable]
    simp only [hsame]
    refine ⟨use, h, rfl, rfl, fun _ _ => rfl, fun _ _ => rfl,
      fun _ _ => rfl, fun k hk => ?_, fun _ _ => rfl, fun _ _ => rfl, fun k hk hk' => ?_⟩
    · rwa [hk]
    · omega

theorem Good.unmapKernel (hn : kUserPages ≤ n) (hv : v = if (w.kernel.unmapPage n).1.present then
        { w with
          kernel := (w.kernel.unmapPage n).2
          pmm := w.pmm.releaseFrame hw.isHardwarePage (w.kernel.unmapPage n).1.frame }
      else { w with kernel := (w.kernel.unmapPage n).2 }) : ∃ use',
      Good hw boot promised hand use' v ∧ Cleared pid (fun k => k = n) w v := by
  subst hv
  -- a page of the kernel half has no leaf in the user tables
  have huser : ∀ k, k = n → (w.tables pid 0 k).present = false := by
    rintro k rfl
    by_contra hp
    have := h.page_lt (by simpa using hp)
    omega
  rcases h.kernel.closed.unmapPage_cases n with ⟨hreach, heq⟩ | ⟨habs, heq⟩
  · have hclear : ∀ m, Cleared pid (fun k => k = n) w
        { w with kernel := w.kernel.setLeaf n {}, pmm := m } := by
      intro m
      refine ⟨rfl, rfl, fun _ _ => rfl, fun _ _ => rfl, fun _ _ => rfl, huser,
        fun l p => by simp, fun k hk => ?_, fun k hk _ => ?_⟩
      · exact setLeaf_ne _ _ fun hc => hk ⟨hc, by omega⟩
      · subst hk
        simp
    have hgood : ∀ {use' : ℕ → Use} {m : Pmm},
        Kept hw boot hand use' m (update w.names (.kernel 0 n) none) → Drops use use' →
        Good hw boot promised hand use' { w with kernel := w.kernel.setLeaf n {}, pmm := m } := by
      intro use' m hkept hdrop
      rw [← w.names_clearKernel n] at hkept
      exact h.step hkept hdrop.moves
        h.tables (h.kernel.setLeaf hreach) h.rootless (fun _ _ _ => rfl)
        (fun _ _ _ => .inr ⟨rfl, fun _ _ => rfl⟩)
    rw [heq]
    by_cases hp : (w.kernel 0 n).present = true
    · obtain ⟨use', hdrop, hkept⟩ := h.kept.release (Memory.names_kernel_leaf hp)
      rw [if_pos hp]
      exact ⟨use', hgood hkept hdrop, hclear _⟩
    · rw [if_neg hp]
      have hname : w.names (.kernel 0 n) = none := if_neg fun hn => hp hn.1
      refine ⟨use, hgood ?_ (Drops.refl use), hclear w.pmm⟩
      rw [← hname, update_eq_self]
      exact h.kept
  · rw [heq]
    refine ⟨use, h, rfl, rfl, fun _ _ => rfl, fun _ _ => rfl,
      fun _ _ => rfl, huser, fun _ _ => rfl, fun _ _ => rfl, fun k hk _ => ?_⟩
    rwa [hk]

theorem Good.reclaimSpot (pid spot : ℕ) :
    ∃ use', Good hw boot promised hand use' (w.reclaimSpot hw pid spot) ∧
      Cleared pid (fun k => k = pageOf spot) w (w.reclaimSpot hw pid spot) := by
  unfold Memory.reclaimSpot
  by_cases hn : pageOf spot < kUserPages
  · rw [if_pos hn]
    exact h.unmapUser hn rfl
  · rw [if_neg hn]
    exact h.unmapKernel (by omega) rfl

end

/-- The loop of `ReclaimUserSpan`: the leaves of the pages it visits go. -/
theorem Good.reclaim (pid : ℕ) : ∀ (l : List ℕ) {use : ℕ → Use} {w : Memory},
    Good hw boot promised hand use w →
    ∃ use', Good hw boot promised hand use' (l.foldl (Memory.reclaimSpot hw pid) w) ∧
      Cleared pid (fun k => ∃ spot ∈ l, k = pageOf spot) w
        (l.foldl (Memory.reclaimSpot hw pid) w) := by
  intro l
  induction l with
  | nil =>
    intro use w h
    exact ⟨use, h, (Cleared.refl pid w).congr (by simp)⟩
  | cons spot l ih =>
    intro use w h
    obtain ⟨use1, hg1, hc1⟩ := h.reclaimSpot pid spot
    obtain ⟨use2, hg2, hc2⟩ := ih hg1
    exact ⟨use2, hg2, (hc1.trans hc2).congr (by simp)⟩

/-- The pages of a page-aligned span that starts in the user half are among
those the loop visits. -/
theorem mem_spots {start bytes n : ℕ} (hs : start % kSize = 0) (hn : n < 2 ^ 36)
    (h1 : start ≤ n * kSize) (h2 : n * kSize < start + bytes) :
    ∃ spot ∈ spots start bytes, n = pageOf spot := by
  refine ⟨n * kSize, List.mem_map.mpr ⟨n - start / kSize, ?_, ?_⟩, ?_⟩
  · rw [List.mem_range]
    simp only [kSize] at *
    omega
  · simp only [kSize] at *
    omega
  · simp only [pageOf, kSize]
    omega

/-- A page the loop visits, when the span ends inside the user half, is one of
the span. -/
theorem of_mem_spots {start bytes spot : ℕ} (hs : start % kSize = 0) (hb : bytes % kSize = 0)
    (hend : start + bytes ≤ kUserTop) (h : spot ∈ spots start bytes) :
    pageOf spot * kSize = spot ∧ start ≤ spot ∧ spot < start + bytes ∧
      pageOf spot < kUserPages := by
  obtain ⟨i, hi, rfl⟩ := List.mem_map.mp h
  rw [List.mem_range] at hi
  simp only [pageOf, kSize, kUserTop, kUserPages] at *
  omega

end Cinux
