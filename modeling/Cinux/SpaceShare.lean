/-
Birth, sharing and death of address spaces keep the invariant.

* `Good.initSpace` — a fresh root;
* `Walks.shareLeaf`, `Walks.shareLeaves` — one leaf, and every leaf, of the parent
  is shared with the child of a fork;
* `Good.cloneSharedSpace`, `Good.dropClone` — the clone of a space, and the clone
  that is given up again;
* `Good.teardown` — every frame a space names is released.
-/
import Cinux.SpaceFill
import Cinux.System

namespace Cinux

open Memory (cloneTerms releaseEntry retain setTable sharedFlags)
open PageTable (blank setLeaf_ne)

open Ledger List Function

variable {hw : Hardware} {boot : ℕ → Bool} {promised : ℕ → ℕ → Option Promise}
  {hand hand' : Option ℕ} {use use' : ℕ → Use} {w v : Memory} {pid n : ℕ}

/-! ### A fresh space -/

theorem Memory.initSpace_frame (w : Memory) (pid : ℕ) : let v := (w.initSpace pid).2
    v.pages = w.pages ∧ v.history = w.history ∧ ∀ q ≠ pid, v.tables q = w.tables q := by
  unfold Memory.initSpace
  split
  · exact ⟨rfl, rfl, fun _ _ => rfl⟩
  · exact ⟨rfl, rfl, fun _ hq => update_of_ne hq _ _⟩

/-- `AddressSpace::init` for a space that is not there yet. -/
theorem Good.initSpace (h : Good hw boot promised none use w) (hroot : w.roots pid = none) :
    ∃ use', Good hw boot promised none use' (w.initSpace pid).2 ∧
      (w.initSpace pid).2.tables = w.tables ∧
      ((w.initSpace pid).1 = true → (w.initSpace pid).2.roots pid ≠ none) ∧
      ((w.initSpace pid).1 = false → (w.initSpace pid).2.roots = w.roots) ∧
      (∀ q, q ≠ pid → (w.initSpace pid).2.roots q = w.roots q) := by
  have hblank := h.rootless pid hroot
  unfold Memory.initSpace
  rcases h.kept.allocate with hno | ⟨f, hso, hne, hlt, hid, hkept⟩
  · rw [hno]
    exact ⟨use, h.withPmm h.kept.refuse (Drops.refl use).moves, rfl, (by simp),
      fun _ => rfl, fun _ _ => rfl⟩
  rw [hso]
  simp only [hne]
  -- a space without a root has a blank table already
  have htable : update w.tables pid blank = w.tables := by
    rw [← hblank, update_eq_self]
  rw [htable]
  have hbind := hkept.bindOwn (r := .root pid) (update_self f _ use) hne
    (by simp [Memory.names, hroot])
  rw [update_idem] at hbind
  refine ⟨update use f .owned, h.step (v := { w with
      pmm := w.pmm.take f, roots := update w.roots pid (some f) }) ?_
    (takes_update (.inl hid)).moves h.tables h.kernel (fun q hq => ?_) (fun _ _ _ => rfl)
    (fun _ _ _ => .inr ⟨rfl, fun _ _ => rfl⟩), rfl, fun _ => by simp,
    (by simp), fun q hq => by simp [hq]⟩
  · -- the root is the one new name
    have hnames : ({ w with
      pmm := w.pmm.take f, roots := update w.roots pid (some f) } : Memory).names
        = update w.names (.root pid) (some (f, .own)) := by
      funext r
      by_cases hr : r = .root pid
      · subst hr
        simp [Memory.names]
      cases r with
      | root q =>
        have hq : q ≠ pid := fun hq => hr (by rw [hq])
        simp [Memory.names, hq]
      | node q l p => rfl
      | pool p i => rfl
      | kernel k => rfl
    rw [hnames]
    exact hbind
  · by_cases hqp : q = pid
    · subst hqp
      simp at hq
    · exact h.rootless q (by simpa [hqp] using hq)

/-! ### The end of a space -/

variable {pt : PageTable}

/-- The sweep of the user half meets exactly the present entries. -/
theorem TableOk.mem_userSweep (h : TableOk pt) {level p : ℕ} :
    (level, p) ∈ pt.userSweep ↔ level ≤ 3 ∧ (pt level p).present = true := by
  unfold PageTable.userSweep
  rw [h.closed.mem_sweep_iff (le_refl 3)]
  constructor
  · rintro ⟨h1, h2, -⟩
    exact ⟨h1, h2⟩
  · rintro ⟨h1, h2⟩
    refine ⟨h1, h2, mem_range.mpr ?_⟩
    have hin := h.inside level p h1 h2
    have hl : level = 0 ∨ level = 1 ∨ level = 2 ∨ level = 3 := by omega
    unfold kUserPages at hin
    rw [path]
    rcases hl with rfl | rfl | rfl | rfl <;> omega

theorem PageTable.nodup_userSweep (pt : PageTable) : pt.userSweep.Nodup :=
  pt.nodup_sweep 3 nodup_range

/-- What is named once a space is gone: not its root nor its entries, and all else as before. -/
theorem Memory.names_dropped (w : Memory) (pid : ℕ) (pmm : Pmm) (r : Ref) :
    ((r = .root pid ∨ ∃ level p, r = .node pid level p ∧ level ≤ 3 ∧
        (w.tables pid level p).present = true) →
      ({ w with pmm := pmm, roots := update w.roots pid none,
                tables := update w.tables pid blank } : Memory).names r = none) ∧
    (¬ (r = .root pid ∨ ∃ level p, r = .node pid level p ∧ level ≤ 3 ∧
        (w.tables pid level p).present = true) →
      ({ w with pmm := pmm, roots := update w.roots pid none,
                tables := update w.tables pid blank } : Memory).names r = w.names r) := by
  constructor
  · rintro (rfl | ⟨level, p, rfl, -⟩)
    · simp [Memory.names]
    · simp [Memory.names, blank, entryName]
  intro hr
  cases r with
  | root q =>
    have hq : q ≠ pid := fun hq => hr (.inl (by rw [hq]))
    simp [Memory.names, hq]
  | node q level p =>
    by_cases hq : q = pid
    · subst hq
      simp only [Memory.names, update_self]
      split
      · rename_i hl
        have hp : (w.tables q level p).present = false := by
          by_contra hp
          exact hr (.inr ⟨level, p, rfl, hl, by simpa using hp⟩)
        rw [entryName_absent hp, entryName_absent (by rfl)]
      · rfl
    · simp [Memory.names, hq]
  | pool p i => rfl
  | kernel level p => rfl

/-- The end of an address space: every frame it names is released. -/
theorem Good.teardown (h : Good hw boot promised hand use w) {root : ℕ}
    (hroot : w.roots pid = some root) :
    ∃ v use', w.teardown hw pid = .ok v ∧ Good hw boot promised hand use' v ∧
      v.roots = update w.roots pid none ∧ v.tables = update w.tables pid blank ∧
      v.pages = w.pages := by
  have hok := h.tables pid
  -- the references of the space, in the order of the walk, the root last
  set refs : List (Ref × ℕ) := (w.tables pid).userSweep.map (fun x =>
      (.node pid x.1 x.2, (w.tables pid x.1 x.2).frame)) ++ [(.root pid, root)] with hrefs
  set act : Pmm → Ref × ℕ → Pmm := fun m x =>
    match x.1 with
    | .node _ 0 _ => m.releaseFrame hw.isHardwarePage x.2
    | _ => m.freePage x.2 with hactdef
  set v : Memory := { w with
    pmm := ((w.tables pid).userSweep.foldl (releaseEntry hw (w.tables pid)) w.pmm).freePage root
    roots := update w.roots pid none
    tables := update w.tables pid blank }
  have hfold : refs.foldl act w.pmm = v.pmm := by
    rw [foldl_append, foldl_map]
    have hsame : (fun (m : Pmm) (x : ℕ × ℕ) => act m
        (.node pid x.1 x.2, (w.tables pid x.1 x.2).frame))
        = releaseEntry hw (w.tables pid) := by
      funext m x
      obtain ⟨level, p⟩ := x
      cases level with
      | zero => simp [hactdef, releaseEntry]
      | succ level => simp [hactdef, releaseEntry]
    rw [hsame]
    rfl
  have hmem : ∀ r, r ∈ refs.map Prod.fst ↔ r = .root pid ∨ ∃ level p, r = .node pid level p ∧
      level ≤ 3 ∧ (w.tables pid level p).present = true := by
    intro r
    simp only [hrefs, map_append, map_map, mem_append, mem_map, map_cons, map_nil, mem_singleton,
      Prod.exists,
      hok.mem_userSweep]
    constructor
    · rintro (⟨level, p, hp, rfl⟩ | rfl)
      · exact .inr ⟨level, p, rfl, hp⟩
      · exact .inl rfl
    · rintro (rfl | ⟨level, p, rfl, hp⟩)
      · exact .inr rfl
      · exact .inl ⟨level, p, hp, rfl⟩
  have hnodup : (refs.map Prod.fst).Nodup := by
    simp only [hrefs, map_append, map_map]
    refine List.Nodup.append ((PageTable.nodup_userSweep _).map ?_) (nodup_singleton _) ?_
    · rintro ⟨a, b⟩ ⟨c, d⟩ heq
      simpa using heq
    · intro r hr hr'
      obtain ⟨x, -, rfl⟩ := mem_map.mp hr
      simp at hr'
  have hnamed : ∀ x ∈ refs, w.names x.1 = w.names x.1 ∧ ∃ k, w.names x.1 = some (x.2, k) := by
    intro x hx
    refine ⟨rfl, ?_⟩
    rcases mem_append.mp hx with hx | hx
    · obtain ⟨⟨level, p⟩, hs, rfl⟩ := mem_map.mp hx
      obtain ⟨hl, hp⟩ := hok.mem_userSweep.mp hs
      simp only [Memory.names, if_pos hl, entryName, hp]
      exact ⟨_, rfl⟩
    · rw [mem_singleton.mp hx]
      exact ⟨.own, by simp [Memory.names, hroot]⟩
  have hact : ∀ x ∈ refs, ∀ {use : ℕ → Use} {m : Pmm} {names : Ref → Option (ℕ × Mark)},
      Kept hw boot hand use m names → names x.1 = w.names x.1 →
      act m x = m.releaseFrame hw.isHardwarePage x.2 := by
    intro x hx use m names hkept hsame
    rcases mem_append.mp hx with hx | hx
    · obtain ⟨⟨level, p⟩, hs, rfl⟩ := mem_map.mp hx
      obtain ⟨hl, hp⟩ := hok.mem_userSweep.mp hs
      cases level with
      | zero => rfl
      | succ level =>
        refine (hkept.release_own (r := .node pid (level + 1) p) ?_).symm
        rw [hsame]
        simp only [Memory.names, if_pos hl]
        exact entryName_table hp (by omega)
    · obtain rfl := mem_singleton.mp hx
      refine (hkept.release_own (r := .root pid) ?_).symm
      rw [hsame]
      simp [Memory.names, hroot]
  obtain ⟨use', hdrop, hkept⟩ := h.kept.releaseAll hnodup hnamed hact
  rw [hfold] at hkept
  refine ⟨v, use', ?_, ?_, rfl, rfl, rfl⟩
  · unfold Memory.teardown
    rw [hroot]
    rw [show Memory.meetsLarge _ = false by simp [Memory.meetsLarge, hok.small]]
    rfl
  · refine h.step ?_ hdrop.moves (fun q => ?_) h.kernel (fun q hq => ?_) (fun _ _ _ => rfl)
      (fun q k hp => .inr ⟨?_, fun _ _ => rfl⟩)
    · have hnames : (fun r => if r ∈ refs.map Prod.fst then none else w.names r) = v.names := by
        funext r
        obtain ⟨hgone, hstays⟩ := w.names_dropped pid v.pmm r
        by_cases hr : r ∈ refs.map Prod.fst
        · rw [if_pos hr]
          exact (hgone ((hmem r).mp hr)).symm
        · rw [if_neg hr]
          exact (hstays fun hc => hr ((hmem r).mpr hc)).symm
      rw [← hnames]
      exact hkept
    · by_cases hq : q = pid
      · subst hq
        simpa [v] using tableOk_blank
      · simpa [v, hq] using h.tables q
    · by_cases hqp : q = pid
      · subst hqp
        simp [v]
      · simpa [v, hqp] using h.rootless q (by simpa [v, hqp] using hq)
    · by_cases hq : q = pid
      · subst hq
        simp [v, blank] at hp
      · simp [v, hq]

/-! ### Sharing a leaf -/

/-- The memory after a plain leaf was marked. -/
def Memory.marked (w : Memory) (pid n : ℕ) (leaf : Entry) : Memory :=
  { w.setTable pid ((w.tables pid).setLeaf n
      (makeTableEntry leaf.frame (Memory.sharedFlags leaf))) with
    pmm := w.pmm.addShare leaf.frame }

/-- `MarkPageShared` on a present leaf finds it marked or marks it. -/
theorem Memory.markPageShared_ok {b : Bool} {leaf : Entry}
    (hslot : (w.tables pid).leafSlot n = some leaf) (hp : leaf.present = true)
    (hmark : leaf.cow = true → leaf.writable = false)
    (h : w.markPageShared pid n = .ok (b, v)) :
    leaf.cow = true ∧ v = w ∨ leaf.cow = false ∧ v = w.marked pid n leaf := by
  unfold Memory.markPageShared at h
  rw [hslot] at h
  simp only [hp, Bool.not_true] at h
  by_cases hc : leaf.cow = true
  · simp only [hc, hmark hc] at h
    obtain ⟨⟩ := h
    exact .inl ⟨hc, rfl⟩
  have hc' : leaf.cow = false := by simpa using hc
  simp only [hc', Bool.false_and, Bool.false_eq_true, if_false] at h
  split at h
  · nomatch h
  rename_i u hu
  obtain rfl := Memory.retain_ok hu
  obtain ⟨⟩ := h
  exact .inr ⟨hc', rfl⟩

/-- What sharing one page of the parent changed. -/
structure Shared (parent child n : ℕ) (w v : Memory) : Prop where
  roots : v.roots = w.roots
  pages : v.pages = w.pages
  history : v.history = w.history
  others : ∀ q, q ≠ parent → q ≠ child → v.tables q = w.tables q
  parentLeaf : ∀ k, (v.tables parent 0 k).present = (w.tables parent 0 k).present ∧
    (v.tables parent 0 k).frame = (w.tables parent 0 k).frame
  childLeaf : ∀ k, k ≠ n → v.tables child 0 k = w.tables child 0 k ∨
    v.tables child 0 k = {} ∧ (w.tables child 0 k).present = false
  childNew : (v.tables child 0 n).present = true ∧
    (v.tables child 0 n).frame = (w.tables parent 0 n).frame

variable {ranges : VmaStore} {parent child : ℕ}

/-- The leaf `share_leaf` maps first suits the promise of the parent's leaf, when
that one is not marked. -/
theorem leafOk_clone {p : Promise} {slot : Entry} (hok : LeafOk use p slot)
    (hlt : slot.frame < 2 ^ 40) (hcow : slot.cow = false) :
    LeafOk use p (makeTableEntry slot.frame (cloneTerms slot)) := by
  have hframe := makeTableEntry_frame hlt (cloneTerms slot)
  refine ⟨hok.writable, fun hx => hok.executable ?_, fun hw => ?_,
    fun hc => absurd hc (by simp [makeTableEntry, cloneTerms, userLeafTerms]),
    fun h1 => by rw [hframe]; exact hok.device h1,
    fun h1 h2 => by rw [hframe]; exact hok.segment h1 h2,
    fun h1 h2 => by rw [hframe]; exact hok.priv h1 h2⟩
  · simpa [makeTableEntry, cloneTerms, userLeafTerms] using hx
  · obtain ⟨h1, h2⟩ := hok.ready hw
    rcases h2 with h2 | h2
    · exact ⟨h1, .inl h2⟩
    · rw [hcow] at h2
      cases h2

/-- A marked leaf suits the promise of the leaf it was made from. -/
theorem leafOk_marked {p : Promise} {slot e : Entry} (hok : LeafOk use p slot)
    (hlt : slot.frame < 2 ^ 40) (huser : e.user = slot.user) (hexec : e.noExec = slot.noExec) :
    LeafOk use p (makeTableEntry slot.frame (sharedFlags e)) := by
  have hframe := makeTableEntry_frame hlt (sharedFlags e)
  refine ⟨fun hc => absurd hc (by simp [makeTableEntry, sharedFlags]),
    fun hx => hok.executable ?_, fun hw => ⟨?_, .inr rfl⟩, fun _ => rfl,
    fun h1 => by rw [hframe]; exact hok.device h1,
    fun h1 h2 => by rw [hframe]; exact hok.segment h1 h2,
    fun h1 h2 => by rw [hframe]; exact hok.priv h1 h2⟩
  · rw [← hexec]
    simpa [makeTableEntry, sharedFlags] using hx
  · have := (hok.ready hw).1
    rw [← huser] at this
    simpa [makeTableEntry, sharedFlags] using this

theorem entryName_marked {f : ℕ} (hf : f < 2 ^ 40) (e : Entry) :
    entryName 0 (makeTableEntry f (sharedFlags e)) = some (f, .cow) := by
  rw [entryName_leaf rfl, makeTableEntry_frame hf]
  rfl

/-- The child's leaf is written and nothing else happens to the leaves. -/
theorem shared_setLeaf (hne : parent ≠ child) {e : Entry} (m : Pmm) (hp : e.present = true)
    (hf : e.frame = (w.tables parent 0 n).frame) :
    Shared parent child n w
      { w.setTable child ((w.tables child).setLeaf n e) with pmm := m } := by
  refine ⟨rfl, rfl, rfl, fun q _ hq => by simp [setTable, hq],
    fun k => by simp [setTable, hne], fun k hk => .inl ?_, ?_⟩
  · simp [setLeaf_ne _ _ hk]
  · simp only [setTable, update_self, PageTable.setLeaf_self]
    exact ⟨hp, hf⟩

section

variable (h : Good hw boot promised hand use w)
include h

/-- A plain leaf of private memory is marked. -/
theorem Good.mark (hp : (w.tables pid 0 n).present = true) (hcow : (w.tables pid 0 n).cow = false)
    (hpriv : use (w.tables pid 0 n).frame = .priv) :
    Good hw boot promised hand use (w.marked pid n (w.tables pid 0 n)) := by
  have hlt := h.leaf_lt hp
  obtain ⟨⟨p, hprom, hok⟩, hcon⟩ := h.leaves pid n hp
  have hname : w.names (.node pid 0 n) = some ((w.tables pid 0 n).frame, .plain) := by
    rw [w.names_leaf hp, hcow]
    rfl
  have hkept := h.kept.mark hpriv hname
  rw [← entryName_marked hlt (w.tables pid 0 n)] at hkept
  refine h.setLeaf ((h.tables pid).closed.reaches hp)
    (h.page_lt hp) rfl hkept (Drops.refl use).moves (fun _ _ _ => rfl) (fun _ _ _ _ _ => rfl)
    (fun _ => ⟨p, hprom, leafOk_marked hok hlt rfl rfl⟩) (fun _ _ i hi => ?_)
  rw [makeTableEntry_frame hlt]
  exact hcon hpriv i hi

/-- The child gets a marked leaf for a private frame whose leaf in the parent is
marked. -/
theorem Good.markChild (parent child n : ℕ) (hp : (w.tables parent 0 n).present = true)
    (hcow : (w.tables parent 0 n).cow = true) (hreach : (w.tables child).Reaches n)
    (habs : (w.tables child 0 n).present = false)
    (hprom : promised child (n * kSize) = promised parent (n * kSize))
    (hrec : ∀ a, recalled w.history child a = recalled w.history parent a) {e : Entry}
    (huser : e.user = (w.tables parent 0 n).user) (hexec : e.noExec = (w.tables parent 0 n).noExec)
    :
    Good hw boot promised hand use
      { w.setTable child ((w.tables child).setLeaf n
          (makeTableEntry (w.tables parent 0 n).frame (sharedFlags e))) with
        pmm := w.pmm.addShare (w.tables parent 0 n).frame } := by
  have hlt := h.leaf_lt hp
  obtain ⟨⟨p, hp1, hok⟩, hcon⟩ := h.leaves parent n hp
  have hname : w.names (.node parent 0 n) = some ((w.tables parent 0 n).frame, .cow) := by
    rw [w.names_leaf hp, hcow]
    rfl
  have hpriv := h.kept.use_of_cow hname
  have hkept := h.kept.shareAgain hname (names_absent habs)
  rw [← entryName_marked hlt e] at hkept
  refine h.setLeaf (e := w.history) hreach (h.page_lt hp) rfl hkept
    (Drops.refl use).moves (fun _ _ _ => rfl) (fun _ _ _ _ _ => rfl)
    (fun _ => ⟨p, by rw [hprom, hp1], leafOk_marked hok hlt huser hexec⟩) (fun _ _ i hi => ?_)
  rw [makeTableEntry_frame hlt, hrec]
  exact hcon hpriv i hi

/-- The end of `share_leaf` for private memory, after the child's plain leaf was
written: both leaves end up marked. -/
theorem Good.markBoth (hne : parent ≠ child) (hp : (w.tables parent 0 n).present = true)
    (hpriv : use (w.tables parent 0 n).frame = .priv) (hreach : (w.tables child).Reaches n)
    (habs : (w.tables child 0 n).present = false)
    (hprom : promised child (n * kSize) = promised parent (n * kSize))
    (hrec : ∀ a, recalled w.history child a = recalled w.history parent a)
    (hres : Memory.markBoth parent child n (w.setTable child ((w.tables child).setLeaf n
      (makeTableEntry (w.tables parent 0 n).frame (cloneTerms (w.tables parent 0 n))))) = .ok v) :
    Good hw boot promised hand use v ∧ Shared parent child n w v := by
  have hlt := h.leaf_lt hp
  have hmark : (w.tables parent 0 n).cow = true → (w.tables parent 0 n).writable = false := by
    obtain ⟨⟨p, -, hok⟩, -⟩ := h.leaves parent n hp
    exact hok.marked
  have hslot : (w.tables parent).leafSlot n = some (w.tables parent 0 n) :=
    (h.tables parent).closed.leafSlot_of_present hp
  generalize hself : w.tables parent 0 n = slot at *
  generalize hclone : makeTableEntry slot.frame (cloneTerms slot) = cl at *
  have hclframe : cl.frame = slot.frame := by rw [← hclone, makeTableEntry_frame hlt]
  have hcluser : cl.user = slot.user := by rw [← hclone]; rfl
  have hclexec : cl.noExec = slot.noExec := by
    rw [← hclone]
    simp [makeTableEntry, cloneTerms, userLeafTerms]
  -- the leaf the second mark finds is the one just written
  have hchild : ∀ T : ℕ → PageTable, T child = (w.tables child).setLeaf n cl →
      (T child).leafSlot n = some cl := by
    intro T hT
    rw [hT]
    have := PageTable.leafSlot_of_reaches ((PageTable.setLeaf_reaches cl n).mpr hreach)
    rwa [PageTable.setLeaf_self] at this
  unfold Memory.markBoth at hres
  split at hres
  · cases hres
  · cases hres
  rename_i u hu
  have hself' : ((w.setTable child ((w.tables child).setLeaf n cl)).tables parent).leafSlot n
      = some slot := by
    rw [Memory.setTable_ne _ _ hne, hslot]
  have hcases := Memory.markPageShared_ok hself' hp hmark hu
  have hne' : child ≠ parent := hne.symm
  -- the parent's leaf was marked before, or it is marked first
  obtain ⟨x, rfl, hgx, hxw, hother, hpool, hcow, huser, hexec⟩ : ∃ x : Memory,
      u = x.setTable child ((x.tables child).setLeaf n cl) ∧ Good hw boot promised hand use x ∧
      x = { w with tables := x.tables, pmm := x.pmm } ∧ (∀ q ≠ parent, x.tables q = w.tables q) ∧
      (∀ k, (x.tables parent 0 k).present = (w.tables parent 0 k).present ∧
        (x.tables parent 0 k).frame = (w.tables parent 0 k).frame) ∧
      (x.tables parent 0 n).cow = true ∧ (x.tables parent 0 n).user = slot.user ∧
      (x.tables parent 0 n).noExec = slot.noExec := by
    rcases hcases with ⟨hcow, rfl⟩ | ⟨hcow, rfl⟩
    · exact ⟨w, rfl, h, rfl, fun _ _ => rfl, fun _ => ⟨rfl, rfl⟩,
        by rw [hself]; exact ⟨hcow, rfl, rfl⟩⟩
    have h1 := h.mark (by rw [hself]; exact hp) (by rw [hself]; exact hcow)
      (by rw [hself]; exact hpriv)
    rw [hself] at h1
    refine ⟨_, ?_, h1, rfl, fun q hq => by simp [Memory.marked, setTable, hq], fun k => ?_, ?_⟩
    · simp only [Memory.marked, setTable, update_of_ne hne, update_of_ne hne']
      rw [update_comm hne]
    · by_cases hk : k = n
      · subst hk
        simp only [Memory.marked, setTable, update_self, PageTable.setLeaf_self, hself]
        exact ⟨hp.symm, makeTableEntry_frame hlt _⟩
      · simp [Memory.marked, setLeaf_ne _ _ hk]
    · simp only [Memory.marked, setTable, update_self, PageTable.setLeaf_self]
      exact ⟨rfl, rfl, rfl⟩
  have hframe : (x.tables parent 0 n).frame = slot.frame := (hpool n).2.trans (congrArg _ hself)
  split at hres
  · cases hres
  · cases hres
  rename_i u' hu'
  obtain ⟨⟩ := hres
  have hcc : cl.cow = false := by
    rw [← hclone]
    simp [makeTableEntry, cloneTerms, userLeafTerms]
  have hc := Memory.markPageShared_ok (hchild _ (by rw [Memory.setTable_self, hother _ hne']))
    (by rw [← hclone]; rfl) (by rw [hcc]; simp) hu'
  obtain ⟨-, rfl⟩ := hc.resolve_left (by rw [hcc]; simp)
  have hgood := hgx.markChild parent child n (by rw [(hpool n).1, hself]; exact hp) hcow
    (by rw [hother _ hne']; exact hreach) (by rw [hother _ hne']; exact habs) hprom
    (by rw [hxw]; exact hrec) (hcluser.trans huser.symm) (hclexec.trans hexec.symm)
  have hover : ∀ e, ((x.tables child).setLeaf n cl).setLeaf n e = (x.tables child).setLeaf n e := by
    intro e
    funext l q
    by_cases hat : l = 0 ∧ q = n <;> simp [PageTable.setLeaf, hat]
  have hfin : (x.setTable child ((x.tables child).setLeaf n cl)).marked child n cl
      = { x.setTable child ((x.tables child).setLeaf n
          (makeTableEntry (x.tables parent 0 n).frame (sharedFlags cl))) with
        pmm := x.pmm.addShare (x.tables parent 0 n).frame } := by
    simp [Memory.marked, setTable, hover, hclframe, hframe]
  rw [hfin]
  have hs := shared_setLeaf hne (x.pmm.addShare (x.tables parent 0 n).frame)
    (e := makeTableEntry (x.tables parent 0 n).frame (sharedFlags cl)) rfl
    (makeTableEntry_frame (hframe ▸ hlt) _)
  refine ⟨hgood, by rw [hs.roots, hxw], by rw [hs.pages, hxw], by rw [hs.history, hxw],
    fun q hq1 hq2 => (hs.others q hq1 hq2).trans (hother q hq1), fun k => ?_, fun k hk => ?_, ?_⟩
  · exact ⟨(hs.parentLeaf k).1.trans (hpool k).1, (hs.parentLeaf k).2.trans (hpool k).2⟩
  · rw [← hother child hne']
    exact hs.childLeaf k hk
  · exact ⟨hs.childNew.1, hs.childNew.2.trans (hpool n).2⟩

end

theorem Grown.shared (hg : Grown child w v) (hne : parent ≠ child) {u : Memory}
    (hs : Shared parent child n v u) : Shared parent child n w u := by
  have hpar : v.tables parent = w.tables parent := hg.others parent hne
  refine ⟨hs.roots.trans hg.roots, hs.pages.trans hg.pages, hs.history.trans hg.history,
    fun q h1 h2 => (hs.others q h1 h2).trans (hg.others q h2), fun k => ?_, fun k hk => ?_, ?_⟩
  · rw [← hpar]
    exact hs.parentLeaf k
  · exact Entry.stays_trans (hg.leaf k) (hs.childLeaf k hk)
  · rw [← hpar]
    exact hs.childNew

/-- The walk over the parent's leaves, before the pages `l`.  These have no leaf in the
child yet. -/
structure Walks (hw : Hardware) (boot : ℕ → Bool) (promised : ℕ → ℕ → Option Promise)
    (ranges : VmaStore) (parent child : ℕ) (l : List ℕ) (use : ℕ → Use) (w : Memory) : Prop where
  good : Good hw boot promised none use w
  ne : parent ≠ child
  root : w.roots child ≠ none
  parentView : ∀ a, promised parent a = ranges.view a
  childView : ∀ a, promised child a = ranges.view a
  past : ∀ a, recalled w.history child a = recalled w.history parent a
  nodup : l.Nodup
  ahead : ∀ n ∈ l, (w.tables parent 0 n).present = true ∧ (w.tables child 0 n).present = false

variable {l : List ℕ}

/-- One leaf of the parent is shared with the child. -/
theorem Walks.shareLeaf (hwalk : Walks hw boot promised ranges parent child (n :: l) use w)
    (hres : Memory.shareLeaf ranges parent child w n = .ok v) :
    ∃ use', Good hw boot promised none use' v ∧ Shared parent child n w v := by
  obtain ⟨h, hne, hroot, hpar, hchi, hrec, -, hall⟩ := hwalk
  obtain ⟨hp, habs⟩ := hall n mem_cons_self
  have hn := h.page_lt hp
  obtain ⟨use', hgrows, hgood, hgrow, hreach, -⟩ := h.ensure hroot hn
  unfold Memory.shareLeaf at hres
  simp only [Memory.mapUser_eq] at hres
  by_cases hmade : (w.ensure child n).1 = true
  swap
  · simp [hmade] at hres
  simp only [hmade] at hres
  refine ⟨use', ?_⟩
  -- the parent's leaf as it stands after the tables were made
  have hslot : (w.ensure child n).2.tables parent 0 n = w.tables parent 0 n := by
    rw [hgrow.others parent hne]
  have hp' : ((w.ensure child n).2.tables parent 0 n).present = true := by rw [hslot]; exact hp
  have habs' := hgrow.absent habs
  rw [← hslot] at hres
  have hlt := hgood.leaf_lt hp'
  have hframe := makeTableEntry_frame hlt (cloneTerms ((w.ensure child n).2.tables parent 0 n))
  obtain ⟨⟨p, hprom, hok⟩, -⟩ := hgood.leaves parent n hp'
  have hview : ranges.view (n * kSize) = some p := by rw [← hpar, hprom]
  obtain ⟨region, hfind, rfl⟩ := Option.map_eq_some_iff.mp hview
  rw [hfind] at hres
  simp only at hres
  have hprom' : promised child (n * kSize) = some (region.promise (n * kSize)) := by
    rw [hchi, hview]
  -- only private frames are ever marked
  have hplain : use' ((w.ensure child n).2.tables parent 0 n).frame ≠ .priv →
      ((w.ensure child n).2.tables parent 0 n).cow = false := by
    intro hnot
    by_contra hc
    refine hnot (hgood.kept.use_of_cow (r := .node parent 0 n) ?_)
    rw [Memory.names_leaf hp', if_pos (by simpa using hc)]
  by_cases hdev : region.kind = .device
  · rw [if_pos hdev] at hres
    obtain ⟨⟩ := hres
    have huse := hok.device hdev
    have hcow := hplain (by rw [huse]; simp)
    refine ⟨hgood.mapKnown (hreach hmade) hn habs' hprom'
      (leafOk_clone hok hlt hcow) rfl rfl rfl (.inl ⟨by rw [hframe, huse], rfl⟩), ?_⟩
    exact hgrow.shared hne (shared_setLeaf hne _ rfl hframe)
  rw [if_neg hdev] at hres
  by_cases hshared : region.shared.isSome = true
  · rw [if_pos hshared] at hres
    obtain rfl := Memory.retain_ok hres
    have huse := hok.segment hdev hshared
    have hcow := hplain (by rw [huse]; simp)
    refine ⟨hgood.mapKnown (hreach hmade) hn habs' hprom' (leafOk_clone hok hlt hcow) rfl rfl rfl
      (.inr ⟨by rw [hframe, huse], by rw [hframe]; rfl⟩), ?_⟩
    exact hgrow.shared hne (shared_setLeaf hne _ rfl hframe)
  · rw [if_neg hshared] at hres
    have huse := hok.priv hdev (show region.shared = none by simpa using hshared)
    obtain ⟨hg, hs⟩ := hgood.markBoth hne hp' huse (hreach hmade) habs'
      (by rw [hprom', hprom]) (by rw [hgrow.history]; exact hrec) hres
    exact ⟨hg, hgrow.shared hne hs⟩

/-- The pages after the one just shared are as they were. -/
theorem Walks.next (h : Walks hw boot promised ranges parent child (n :: l) use w)
    (hs : Shared parent child n w v) {use' : ℕ → Use} (hgood : Good hw boot promised none use' v) :
    Walks hw boot promised ranges parent child l use' v := by
  obtain ⟨hnl, hl⟩ := nodup_cons.mp h.nodup
  refine ⟨hgood, h.ne, by rw [hs.roots]; exact h.root, h.parentView, h.childView,
    by rw [hs.history]; exact h.past, hl, fun k hk => ?_⟩
  obtain ⟨hpark, hak⟩ := h.ahead k (mem_cons_of_mem n hk)
  refine ⟨by rw [(hs.parentLeaf k).1]; exact hpark, ?_⟩
  rcases hs.childLeaf k (fun hc => hnl (hc ▸ hk)) with he | ⟨he, -⟩
  · rw [he]
    exact hak
  · rw [he]

/-- What sharing pages of the parent changed: its frames stand, and what the child
has beyond its old leaves are frames of the parent. -/
structure Spread (parent child : ℕ) (w v : Memory) : Prop where
  others : ∀ q, q ≠ parent → q ≠ child → v.tables q = w.tables q
  parentLeaf : ∀ k, (v.tables parent 0 k).present = (w.tables parent 0 k).present ∧
    (v.tables parent 0 k).frame = (w.tables parent 0 k).frame
  childLeaf : ∀ k, (v.tables child 0 k).present = true →
    v.tables child 0 k = w.tables child 0 k ∨
      (w.tables parent 0 k).present = true ∧
        (v.tables child 0 k).frame = (w.tables parent 0 k).frame

theorem Spread.refl (parent child : ℕ) (w : Memory) : Spread parent child w w :=
  ⟨fun _ _ _ => rfl, fun _ => ⟨rfl, rfl⟩, fun _ _ => .inl rfl⟩

theorem Shared.spread {u : Memory} (h : Shared parent child n w u)
    (hp : (w.tables parent 0 n).present = true) (h' : Spread parent child u v) :
    Spread parent child w v := by
  refine ⟨fun q h1 h2 => (h'.others q h1 h2).trans (h.others q h1 h2), fun k =>
    ⟨(h'.parentLeaf k).1.trans (h.parentLeaf k).1, (h'.parentLeaf k).2.trans (h.parentLeaf k).2⟩,
    fun k hk => ?_⟩
  rcases h'.childLeaf k hk with he | ⟨hpark, hf⟩
  · by_cases hkn : k = n
    · rw [he, hkn]
      exact .inr ⟨hp, h.childNew.2⟩
    rcases h.childLeaf k hkn with he' | ⟨he', -⟩
    · exact .inl (he.trans he')
    · rw [he, he'] at hk
      nomatch hk
  · rw [(h.parentLeaf k).1] at hpark
    exact .inr ⟨hpark, hf.trans (h.parentLeaf k).2⟩

theorem Walks.shareLeaves : ∀ {l : List ℕ} {use : ℕ → Use} {w v : Memory},
    Walks hw boot promised ranges parent child l use w →
    Memory.shareLeaves ranges parent child l w = .ok v →
    (∃ use', Good hw boot promised none use' v) ∧ Spread parent child w v ∧ v.roots = w.roots ∧
      v.pages = w.pages := by
  intro l
  induction l with
  | nil =>
    intro use w v h hres
    obtain ⟨⟩ := hres
    exact ⟨⟨use, h.good⟩, Spread.refl parent child w, rfl, rfl⟩
  | cons n l ih =>
    intro use w v h hres
    rw [Memory.shareLeaves] at hres
    split at hres
    · nomatch hres
    rename_i u hu
    obtain ⟨use', hgood, hs⟩ := h.shareLeaf hu
    obtain ⟨hg, hspread, h1, h2⟩ := ih (h.next hs hgood) hres
    exact ⟨hg, hs.spread (h.ahead n mem_cons_self).1 hspread, h1.trans hs.roots,
      h2.trans hs.pages⟩

/-! ### The history is not read -/

/-- The same memory with another history. -/
def Memory.withHistory (w : Memory) (e : List Event) : Memory := { w with history := e }

/-- Replacing the history changes nothing but what is due at each leaf. -/
theorem Good.withHistory (h : Good hw boot promised hand use w) (e : List Event)
    (hrec : ∀ pid n i, (w.tables pid 0 n).present = true → i < kSize →
      recalled e pid (n * kSize + i) = recalled w.history pid (n * kSize + i)) :
    Good hw boot promised hand use (w.withHistory e) := by
  refine ⟨h.kept, h.tables, h.kernel, h.rootless, fun pid n hp => ?_⟩
  obtain ⟨hal, hcon⟩ := h.leaves pid n hp
  exact ⟨hal, fun hpriv i hi => (hrec pid n i hp hi).trans (hcon hpriv i hi)⟩

theorem Memory.markPageShared_withHistory (w : Memory) (pid n : ℕ) (e : List Event) :
    (w.withHistory e).markPageShared pid n
      = (w.markPageShared pid n).map fun x => (x.1, x.2.withHistory e) := by
  unfold Memory.markPageShared retain
  simp only [Memory.withHistory]
  cases (w.tables pid).leafSlot n with
  | none => rfl
  | some leaf =>
    simp only
    split
    · rfl
    split
    · rfl
    cases w.pmm.retainFrame leaf.frame with
    | error => rfl
    | ok => rfl

theorem Memory.markBoth_withHistory (w : Memory) (parent child n : ℕ) (e : List Event) :
    Memory.markBoth parent child n (w.withHistory e)
      = (Memory.markBoth parent child n w).map (·.withHistory e) := by
  unfold Memory.markBoth
  rw [Memory.markPageShared_withHistory]
  cases w.markPageShared parent n with
  | error => rfl
  | ok x =>
    obtain ⟨b, u⟩ := x
    cases b with
    | false => rfl
    | true =>
      simp only [Except.map]
      rw [Memory.markPageShared_withHistory]
      cases u.markPageShared child n with
      | error => rfl
      | ok y =>
        obtain ⟨c, t⟩ := y
        cases c <;> rfl

theorem Memory.shareLeaf_withHistory (ranges : VmaStore) (parent child n : ℕ) (w : Memory)
    (e : List Event) :
    Memory.shareLeaf ranges parent child (w.withHistory e) n
      = (Memory.shareLeaf ranges parent child w n).map (·.withHistory e) := by
  have hmap : ∀ leaf, (w.withHistory e).mapUser child n leaf
      = ((w.mapUser child n leaf).1, (w.mapUser child n leaf).2.withHistory e) := fun _ => rfl
  have htab : (w.withHistory e).tables = w.tables := rfl
  unfold Memory.shareLeaf
  simp only [hmap, htab]
  split
  · rfl
  cases ranges.find (n * kSize) with
  | none => exact Memory.markBoth_withHistory _ _ _ _ _
  | some region =>
    simp only
    split
    · rfl
    split
    · unfold retain
      simp only [Memory.withHistory]
      cases (w.mapUser child n _).2.pmm.retainFrame _ <;> rfl
    · exact Memory.markBoth_withHistory _ _ _ _ _

theorem Memory.shareLeaves_withHistory (ranges : VmaStore) (parent child : ℕ) (e : List Event) :
    ∀ (l : List ℕ) (w : Memory), Memory.shareLeaves ranges parent child l (w.withHistory e)
      = (Memory.shareLeaves ranges parent child l w).map (·.withHistory e) := by
  intro l
  induction l with
  | nil => exact fun _ => rfl
  | cons n l ih =>
    intro w
    rw [Memory.shareLeaves, Memory.shareLeaves, Memory.shareLeaf_withHistory]
    cases Memory.shareLeaf ranges parent child w n with
    | error => rfl
    | ok u => exact ih u

theorem Memory.teardown_withHistory (w : Memory) (pid : ℕ) (e : List Event) :
    (w.withHistory e).teardown hw pid = (w.teardown hw pid).map (·.withHistory e) := by
  unfold Memory.teardown
  simp only [Memory.withHistory]
  cases w.roots pid with
  | none => rfl
  | some root =>
    by_cases hl : Memory.meetsLarge (w.tables pid) = true <;> simp [hl, Except.map]

/-! ### `CloneSharedSpace` -/

theorem TableOk.mem_userLeaves (h : TableOk pt) : n ∈ pt.userLeaves ↔ (pt 0 n).present = true := by
  unfold PageTable.userLeaves
  simp only [mem_map, mem_filter, decide_eq_true_eq, Prod.exists]
  constructor
  · rintro ⟨level, p, ⟨hs, rfl⟩, rfl⟩
    exact (h.mem_userSweep.mp hs).2
  · intro hp
    exact ⟨0, n, ⟨h.mem_userSweep.mpr ⟨by omega, hp⟩, rfl⟩, rfl⟩

theorem PageTable.nodup_userLeaves (pt : PageTable) : pt.userLeaves.Nodup := by
  unfold PageTable.userLeaves
  refine List.Nodup.map_on ?_ (pt.nodup_userSweep.filter _)
  rintro ⟨a, b⟩ ha ⟨c, d⟩ hc heq
  simp only [mem_filter, decide_eq_true_eq] at ha hc
  exact Prod.ext (ha.2.trans hc.2.symm) heq

/-- After a fork the child is due what its parent is due. -/
theorem recalled_forked (past : List Event) :
    (∀ a, recalled (.forked parent child :: past) child a
      = recalled (.forked parent child :: past) parent a) ∧
    ∀ q a, q ≠ child → recalled (.forked parent child :: past) q a = recalled past q a := by
  constructor
  · intro a
    simp [recalled]
  · intro q a hq
    simp [recalled, Ne.symm hq]

section

variable (h : Good hw boot promised none use w) (hne : parent ≠ child)
  (hroot : w.roots child = none) (hpar : ∀ a, promised parent a = ranges.view a)
include h hne hroot hpar

/-- A fresh child has no leaf yet, so it may be given the promises and the past of
its parent before the walk. -/
theorem Good.readyClone (hmade : (w.initSpace child).1 = true) :
    ∃ use', Walks hw boot (update promised child ranges.view) ranges parent child
      (w.tables parent).userLeaves use'
      ((w.initSpace child).2.withHistory (.forked parent child :: w.history)) := by
  obtain ⟨use', hinit, htable, hso, -, -⟩ := h.initSpace hroot
  have hblank := h.rootless child hroot
  have hchild : ∀ k, ((w.initSpace child).2.tables child 0 k).present = false := by
    intro k
    rw [htable, hblank]
    rfl
  refine ⟨use', Good.withHistory ?_ _ fun q k i hp _ => ?_, hne, hso hmade,
    by rw [update_of_ne hne]; exact hpar, by rw [update_self]; exact fun _ => rfl,
    (recalled_forked w.history).1, (w.tables parent).nodup_userLeaves,
    fun n hn => ⟨?_, hchild n⟩⟩
  · exact hinit.reregister fun k _ hp => nomatch (hchild k).symm.trans hp
  · rw [(w.initSpace_frame child).2.1]
    refine (recalled_forked w.history).2 q _ ?_
    rintro rfl
    rw [hchild k] at hp
    nomatch hp
  · show ((w.initSpace child).2.tables parent 0 n).present = true
    rw [htable]
    exact (h.tables parent).mem_userLeaves.mp hn

/-- The clone of a space.  When it is made, the invariant holds with the fork in
the history and the child under the promises of its parent. -/
theorem Good.cloneSharedSpace {granted b : Bool}
    (hres : Memory.cloneSharedSpace ranges parent child granted w = .ok (b, v)) :
    v.pages = w.pages ∧ v.history = w.history ∧ (∀ q, q ≠ child → v.roots q = w.roots q) ∧
    (b = false → v.tables = w.tables ∧ v.roots = w.roots ∧
      ∃ use', Good hw boot promised none use' v) ∧
    (b = true → Spread parent child w v ∧ v.roots child ≠ none ∧
      ∃ use', Good hw boot (update promised child ranges.view) none use'
        (v.withHistory (.forked parent child :: w.history))) := by
  unfold Memory.cloneSharedSpace at hres
  split at hres
  · obtain ⟨rfl, rfl⟩ := Prod.mk.inj (Except.ok.inj hres)
    exact ⟨rfl, rfl, fun _ _ => rfl, fun _ => ⟨rfl, rfl, use, h⟩, nofun⟩
  have hrest := w.initSpace_frame child
  obtain ⟨use', hinit, htable, hso, hnone, hots⟩ := h.initSpace hroot
  split at hres
  · rename_i hno
    obtain ⟨⟩ := hres
    exact ⟨hrest.1, hrest.2.1, hots, fun _ =>
      ⟨htable, hnone (by simpa using hno), use', hinit⟩, nofun⟩
  rename_i hmade
  split at hres
  · nomatch hres
  split at hres
  · nomatch hres
  rename_i u hu
  obtain ⟨rfl, rfl⟩ := Prod.mk.inj (Except.ok.inj hres)
  obtain ⟨use₁, hwalk⟩ := h.readyClone hne hroot hpar (by simpa using hmade)
  have hshare : Memory.shareLeaves ranges parent child (w.tables parent).userLeaves
      ((w.initSpace child).2.withHistory (.forked parent child :: w.history))
      = .ok (u.withHistory (.forked parent child :: w.history)) := by
    rw [Memory.shareLeaves_withHistory, hu]
    rfl
  obtain ⟨⟨use'', hgood⟩, hspread, h1, h2⟩ := hwalk.shareLeaves hshare
  have hroots : u.roots = (w.initSpace child).2.roots := h1
  refine ⟨(show u.pages = _ from h2).trans hrest.1, ?_,
    fun q hq => by rw [hroots, hots q hq], nofun,
    fun _ => ⟨?_, by rw [hroots]; exact hwalk.root, use'', hgood⟩⟩
  swap
  · have hinit' : ((w.initSpace child).2.withHistory (.forked parent child :: w.history)).tables
        = w.tables := htable
    obtain ⟨s1, s2, s3⟩ := hspread
    rw [hinit'] at s1 s2 s3
    exact ⟨s1, s2, s3⟩
  -- the walk itself does not touch the history
  have hsame : u.withHistory (w.initSpace child).2.history = u := by
    have := Memory.shareLeaves_withHistory ranges parent child (w.initSpace child).2.history
      (w.tables parent).userLeaves (w.initSpace child).2
    rw [hu] at this
    exact (Except.ok.inj (hu.symm.trans this)).symm
  rw [← hsame]
  exact hrest.2.1

end

/-- A clone that is given up again leaves the invariant as it was. -/
theorem Good.dropClone (h : Good hw boot (update promised child ranges.view) none use
      (w.withHistory (.forked parent child :: w.history))) (hne : parent ≠ child)
    (hroot : w.roots child ≠ none) :
    ∃ v use', w.teardown hw child = .ok v ∧ Good hw boot promised none use' v ∧
      v.roots = update w.roots child none ∧ v.pages = w.pages ∧
      v.tables = update w.tables child blank := by
  obtain ⟨root, hr⟩ := Option.ne_none_iff_exists'.mp hroot
  obtain ⟨u, use', hu, hgood, h1, h2, h3⟩ := h.teardown hr
  rw [Memory.teardown_withHistory] at hu
  cases htear : w.teardown hw child with
  | error e =>
    rw [htear] at hu
    exact absurd hu (by simp [Except.map])
  | ok v =>
    rw [htear] at hu
    obtain rfl : v.withHistory _ = u := Except.ok.inj hu
    -- the teardown writes no history, so the fork can be forgotten
    have hhist : v.history = w.history := by
      unfold Memory.teardown at htear
      rw [hr] at htear
      simp only at htear
      split at htear
      · nomatch htear
      · obtain ⟨⟩ := htear
        rfl
    -- no leaf of the child is left
    have hne' : ∀ q k, (v.tables q 0 k).present = true → q ≠ child := by
      rintro q k hp rfl
      have : v.tables q = blank := by
        have := congrFun h2 q
        rw [update_self] at this
        exact this
      rw [this] at hp
      exact absurd hp (by simp [blank])
    have hback : Good hw boot (update promised child ranges.view) none use' v := by
      have := hgood.withHistory w.history fun q k i hp _ =>
        ((recalled_forked w.history).2 q _ (hne' q k hp)).symm
      rw [← hhist] at this
      exact this
    refine ⟨v, use', rfl, hback.promise fun q k p hp hprom hok => ⟨p, ?_, hok⟩, h1, h3, h2⟩
    rwa [update_of_ne (hne' q k hp)] at hprom

end Cinux
