/-
Segments, terms and bytes keep the invariant.

* `Good.allocateFrames`, `Good.retire` — the pages of a segment come and go;
* `Good.protect` — the loop of `HandleMprotect` rewrites leaves as `protect`
  rewrites promises;
* `Good.storeByte` — a user store reaches a frame nobody else shows as private.
-/
import Cinux.SpaceShare

namespace Cinux

open Memory (names setTable_ne setTable_self)
open Cinux.System (protectSpot reterm)

open Ledger PageTable List Function

variable {hw : Hardware} {boot : ℕ → Bool} {promised : ℕ → ℕ → Option Promise}
  {hand : Option ℕ} {use use' : ℕ → Use} {w v : Memory} {pid n : ℕ}

/-! ### The pages of a segment -/

theorem Memory.names_append (w : Memory) (p f : ℕ) :
    ({ w with pages := update w.pages p (w.pages p ++ [f]) } : Memory).names
      = update w.names (.pool p (w.pages p).length) (some (f, .pool)) := by
  funext r
  by_cases hr : r = .pool p (w.pages p).length
  · subst hr
    simp [names]
  rw [update_of_ne hr]
  cases r with
  | root q => rfl
  | node q l k => rfl
  | kernel k => rfl
  | pool q i =>
    by_cases hq : q = p
    · subst hq
      have hi : i ≠ (w.pages q).length := fun hi => hr (by rw [hi])
      simp only [names, update_self]
      by_cases hlt : i < (w.pages q).length
      · rw [getElem?_append_left hlt]
      have h1 : (w.pages q ++ [f])[i]? = none := by
        rw [getElem?_eq_none_iff]
        simp only [length_append, length_singleton]
        omega
      have h2 : (w.pages q)[i]? = none := getElem?_eq_none_iff.mpr (by omega)
      rw [h1, h2]
    · simp [names, hq]

/-- The loop of `allocate_pages`: the frames taken so far are on the list. -/
theorem Good.allocateFrames {p : ℕ} : ∀ {count : ℕ} {use : ℕ → Use} {w v : Memory} {b : Bool},
    Good hw boot promised none use w → System.allocateFrames p count w = .ok (b, v) →
    (∃ use', Good hw boot promised none use' v) ∧ v.roots = w.roots ∧ v.tables = w.tables ∧
      (∀ q, q ≠ p → v.pages q = w.pages q) ∧
      (b = true → (v.pages p).length = (w.pages p).length + count) := by
  intro count
  induction count with
  | zero =>
    intro use w v b h hres
    obtain ⟨⟩ := hres
    exact ⟨⟨use, h⟩, rfl, rfl, fun _ _ => rfl, fun _ => rfl⟩
  | succ count ih =>
    intro use w v b h hres
    rw [System.allocateFrames] at hres
    rcases h.kept.allocate with hno | ⟨f, hso, hne, hlt, hid, hkept⟩
    · rw [hno] at hres
      obtain ⟨⟩ := hres
      exact ⟨⟨use, h.withPmm h.kept.refuse (Drops.refl use).moves⟩, rfl, rfl, fun _ _ => rfl,
        nofun⟩
    rw [hso] at hres
    simp only [hne, if_false] at hres
    split at hres
    · nomatch hres
    rename_i m hm
    obtain rfl := Pmm.retainFrame_ok hm
    -- the fresh frame is cleared in hand and enters the pool
    have hheld : update use f Use.held f = .held := update_self f _ use
    have hpool := hkept.enterPool (r := .pool p (w.pages p).length) hheld hne (by simp [names])
    rw [update_idem] at hpool
    have hnext : Good hw boot promised none (update use f .pooled)
        { w with
          pmm := (w.pmm.take f).addShare f
          bytes := update w.bytes f fun _ => 0
          pages := update w.pages p (w.pages p ++ [f]) } := by
      refine h.step ?_ (takes_update (.inl hid)).moves h.tables h.kernel h.rootless
        (fun g hg _ => ?_) (fun _ _ _ => .inr ⟨rfl, fun _ _ => rfl⟩)
      · rw [← w.names_append p f] at hpool
        exact hpool
      · refine update_of_ne ?_ _ _
        rintro rfl
        exact hg hid
    obtain ⟨hgood, h1, h2, h3, h4⟩ := ih hnext hres
    refine ⟨hgood, h1, h2, fun q hq => ?_, fun hb => ?_⟩
    · rw [h3 q hq]
      simp [hq]
    · rw [h4 hb]
      simp only [update_self, length_append, length_singleton]
      omega

theorem Good.retire (h : Good hw boot promised hand use w) (p : ℕ) :
    ∃ use', Good hw boot promised hand use' (System.retire hw w p) := by
  set refs : List (Ref × ℕ) := (w.pages p).zipIdx.map fun x => (.pool p x.2, x.1) with hrefs
  -- the release of the list is the release of its names
  have hfold : refs.foldl (fun m x => m.releaseFrame hw.isHardwarePage x.2) w.pmm
      = (w.pages p).foldl (Pmm.releaseFrame hw.isHardwarePage) w.pmm := by
    rw [foldl_map]
    conv_rhs => rw [← zipIdx_map_fst 0 (w.pages p), foldl_map]
  have hmem : ∀ r, r ∈ refs.map Prod.fst ↔ ∃ i, r = .pool p i ∧ i < (w.pages p).length := by
    intro r
    simp only [hrefs, map_map, mem_map, Prod.exists]
    constructor
    · rintro ⟨f, i, hi, rfl⟩
      exact ⟨i, rfl, by simpa using snd_lt_of_mem_zipIdx hi⟩
    · rintro ⟨i, rfl, hi⟩
      exact ⟨(w.pages p)[i], i, by simp [mem_zipIdx_iff_getElem?], rfl⟩
  have hnodup : (refs.map Prod.fst).Nodup := by
    have hfirst : refs.map Prod.fst = ((w.pages p).zipIdx.map Prod.snd).map (Ref.pool p) := by
      rw [map_map, map_map]
      rfl
    rw [hfirst, zipIdx_map_snd]
    exact List.Nodup.map (fun a b hab => by simpa using hab) nodup_range'
  obtain ⟨use', hdrop, hkept⟩ := @Kept.releaseAll _ _ _ _ _ _ w.names _ _ _ _ h.kept hnodup
    (fun x hx => ⟨rfl, by
    obtain ⟨⟨f, i⟩, hi, rfl⟩ := mem_map.mp hx
    refine ⟨.pool, ?_⟩
    rw [mem_zipIdx_iff_getElem?] at hi
    simp [names, hi]⟩) (fun _ _ _ _ _ _ _ => rfl)
  rw [hfold] at hkept
  refine ⟨use', h.step ?_ hdrop.moves h.tables h.kernel h.rootless (fun _ _ _ => rfl)
    (fun _ _ _ => .inr ⟨rfl, fun _ _ => rfl⟩)⟩
  -- and these are the names that go
  have hnames : (fun r => if r ∈ refs.map Prod.fst then none else w.names r)
      = (System.retire hw w p).names := by
    funext r
    by_cases hr : r ∈ refs.map Prod.fst
    · rw [if_pos hr]
      obtain ⟨i, rfl, -⟩ := (hmem r).mp hr
      simp [names, System.retire]
    rw [if_neg hr]
    cases r with
    | root q => rfl
    | node q l k => rfl
    | kernel k => rfl
    | pool q i =>
      by_cases hq : q = p
      · subst hq
        have hout : (w.pages q)[i]? = none :=
          getElem?_eq_none_iff.mpr (not_lt.mp fun hi => hr ((hmem _).mpr ⟨i, rfl, hi⟩))
        simp [names, System.retire, hout]
      · simp [names, System.retire, hq]
  rw [← hnames]
  exact hkept

/-! ### Terms -/

/-- The loop of `HandleMprotect` rewrites the present leaves of the pages it
visits. -/
theorem protectSpots_spec (terms : VmaProtection) : ∀ (l : List ℕ) {pt : PageTable}, TableOk pt →
    TableOk (l.foldl (protectSpot terms) pt) ∧
    (∀ level p, l.foldl (protectSpot terms) pt (level + 1) p = pt (level + 1) p) ∧
    ∀ k, l.foldl (protectSpot terms) pt 0 k
      = if (∃ spot ∈ l, pageOf spot = k) ∧ (pt 0 k).present = true then
          reterm terms (pt 0 k) else pt 0 k := by
  intro l
  induction l with
  | nil => exact fun h => ⟨h, fun _ _ => rfl, fun k => by simp⟩
  | cons spot l ih =>
    intro pt h
    -- one turn: the leaf of the page, if it is there
    have hone : protectSpot terms pt spot = if (pt 0 (pageOf spot)).present = true then
            pt.setLeaf (pageOf spot) (reterm terms (pt 0 (pageOf spot))) else pt := by
      unfold protectSpot
      cases hslot : pt.leafSlot (pageOf spot) with
      | none =>
        have : ¬ (pt 0 (pageOf spot)).present = true := fun hp => by
          rw [h.closed.leafSlot_of_present hp] at hslot
          nomatch hslot
        simp [this]
      | some leaf =>
        obtain ⟨-, rfl⟩ := leafSlot_some hslot
        by_cases hp : (pt 0 (pageOf spot)).present = true <;> simp [hp, h.small]
    have hok : TableOk (protectSpot terms pt spot) := by
      rw [hone]
      split
      · rename_i hp
        exact h.setLeaf (h.closed.reaches hp) (by simpa using h.inside 0 _ (by omega) hp) rfl
      · exact h
    obtain ⟨h1, h2, h3⟩ := ih hok
    rw [foldl_cons]
    refine ⟨h1, fun level p => ?_, fun k => ?_⟩
    · rw [h2, hone]
      split
      · exact setLeaf_succ _ _ _ _ _
      · rfl
    · rw [h3]
      by_cases hk : pageOf spot = k
      · subst hk
        by_cases hp : (pt 0 (pageOf spot)).present = true
        · have hleaf : protectSpot terms pt spot 0 (pageOf spot)
              = reterm terms (pt 0 (pageOf spot)) := by
            rw [hone, if_pos hp, setLeaf_self]
          rw [hleaf]
          simp [hp, reterm, makeTableEntry]
        · have hleaf : protectSpot terms pt spot = pt := by rw [hone, if_neg hp]
          rw [hleaf]
          simp [hp]
      · have hleaf : protectSpot terms pt spot 0 k = pt 0 k := by
          rw [hone]
          split
          · exact setLeaf_ne _ _ (Ne.symm hk)
          · rfl
        rw [hleaf]
        simp [hk]

/-- A leaf rewritten to new terms suits the promise under these terms. -/
theorem leafOk_reterm {p : Promise} {leaf : Entry} (h : LeafOk use p leaf)
    (hlt : leaf.frame < 2 ^ 40) (terms : VmaProtection) :
    LeafOk use { p with terms := terms } (reterm terms leaf) := by
  have hframe : (reterm terms leaf).frame = leaf.frame := makeTableEntry_frame hlt _
  refine ⟨fun hw => ?_, fun hx => ?_, fun hw => ?_, fun hc => ?_,
    fun h1 => by rw [hframe]; exact h.device h1,
    fun h1 h2 => by rw [hframe]; exact h.segment h1 h2,
    fun h1 h2 => by rw [hframe]; exact h.priv h1 h2⟩
  · simp only [reterm, makeTableEntry, userLeafTerms, Bool.and_eq_true] at hw
    exact hw.1
  · simpa [reterm, makeTableEntry, userLeafTerms] using hx
  · have hw' : terms.writable = true := hw
    cases hc : leaf.cow <;> simp [reterm, makeTableEntry, userLeafTerms, hw']
  · have hc' : leaf.cow = true := hc
    simp [reterm, makeTableEntry, userLeafTerms, hc']

/-- The leaves of the visited pages are rewritten together with the promises. -/
theorem Good.protect (h : Good hw boot promised hand use w) (terms : VmaProtection) (l : List ℕ)
    {promised' : ℕ → ℕ → Option Promise} (hother : ∀ q, q ≠ pid → promised' q = promised q)
    (hin : ∀ k p, (∃ spot ∈ l, pageOf spot = k) → promised pid (k * kSize) = some p →
      promised' pid (k * kSize) = some { p with terms := terms })
    (hout : ∀ k p, (w.tables pid 0 k).present = true → ¬ (∃ spot ∈ l, pageOf spot = k) →
      promised pid (k * kSize) = some p → promised' pid (k * kSize) = some p) :
    Good hw boot promised' hand use
      (w.setTable pid (l.foldl (protectSpot terms) (w.tables pid))) := by
  obtain ⟨hok, habove, hleaf⟩ := protectSpots_spec terms l (h.tables pid)
  -- neither presence nor frame nor mark of a leaf changes
  have hsame : ∀ k, ((w.tables pid 0 k).present = true →
      (l.foldl (protectSpot terms) (w.tables pid) 0 k).frame = (w.tables pid 0 k).frame) ∧
      (l.foldl (protectSpot terms) (w.tables pid) 0 k).present
        = (w.tables pid 0 k).present ∧
      entryName 0 (l.foldl (protectSpot terms) (w.tables pid) 0 k)
        = entryName 0 (w.tables pid 0 k) := by
    intro k
    rw [hleaf k]
    split
    · rename_i hp
      have hframe : (reterm terms (w.tables pid 0 k)).frame = (w.tables pid 0 k).frame :=
        makeTableEntry_frame (h.leaf_lt hp.2) _
      refine ⟨fun _ => hframe, hp.2.symm, ?_⟩
      rw [entryName_leaf hp.2, entryName_leaf rfl, hframe]
      rfl
    · exact ⟨fun _ => rfl, rfl, rfl⟩
  refine ⟨?_, fun q => ?_, h.kernel, fun q hq => ?_, fun q k hp => ?_⟩
  · have hnames : (w.setTable pid (l.foldl (protectSpot terms) (w.tables pid))).names
        = w.names := by
      refine Memory.names_congr rfl rfl rfl fun q level p _ => ?_
      by_cases hq : q = pid
      · subst hq
        rw [setTable_self]
        cases level with
        | zero => exact (hsame p).2.2
        | succ level => rw [habove]
      · rw [setTable_ne _ _ hq]
    rw [hnames]
    exact h.kept
  · by_cases hq : q = pid
    · subst hq
      rwa [setTable_self]
    · rw [setTable_ne _ _ hq]
      exact h.tables q
  · by_cases hqp : q = pid
    · subst hqp
      have hblank := h.rootless q hq
      rw [setTable_self]
      funext level p
      cases level with
      | zero => rw [hleaf p, hblank]; simp [blank]
      | succ level => rw [habove, hblank]
    · rw [setTable_ne _ _ hqp]
      exact h.rootless q hq
  · by_cases hq : q = pid
    · subst hq
      rw [setTable_self, (hsame k).2.1] at hp
      obtain ⟨⟨p, hprom, hok'⟩, hcon⟩ := h.leaves q k hp
      refine ⟨?_, fun hpriv => ?_⟩
      · rw [setTable_self, hleaf k]
        by_cases hv : ∃ spot ∈ l, pageOf spot = k
        · rw [if_pos ⟨hv, hp⟩]
          exact ⟨_, hin k p hv hprom, leafOk_reterm hok' (h.leaf_lt hp) terms⟩
        · rw [if_neg fun hc => hv hc.1]
          exact ⟨p, hout k p hp hv hprom, hok'⟩
      · rw [setTable_self, (hsame k).1 hp] at hpriv ⊢
        exact hcon hpriv
    · rw [setTable_ne _ _ hq] at hp
      obtain ⟨⟨p, hprom, hok'⟩, hcon⟩ := h.leaves q k hp
      refine ⟨?_, ?_⟩
      · rw [setTable_ne _ _ hq, hother q hq]
        exact ⟨p, hprom, hok'⟩
      · rw [setTable_ne _ _ hq]
        exact hcon

/-! ### Stores -/

/-- A user store through a writable leaf.  A private frame with a writable leaf
has no other leaf, so nobody else sees the byte. -/
theorem Good.storeByte (h : Good hw boot promised hand use w) {address : ℕ} (byte : UInt8)
    (hp : (w.tables pid 0 (address / kSize)).present = true)
    (hwrite : (w.tables pid 0 (address / kSize)).writable = true) :
    Good hw boot promised hand use
      (System.storeByte w pid address (w.tables pid 0 (address / kSize)).frame byte) := by
  refine ⟨h.kept, h.tables, h.kernel, h.rootless, fun q k hq => ?_⟩
  obtain ⟨hal, hcon⟩ := h.leaves q k hq
  refine ⟨hal, fun hpriv i hi => ?_⟩
  have hpriv' : use (w.tables q 0 k).frame = .priv := hpriv
  have hdue := hcon hpriv' i hi
  show recalled (.stored pid address byte :: w.history) q (k * kSize + i) = some
    (update w.bytes (w.tables pid 0 (address / kSize)).frame
      (update (w.bytes (w.tables pid 0 (address / kSize)).frame) (address % kSize) byte)
      (w.tables q 0 k).frame i)
  by_cases hat : q = pid ∧ k = address / kSize
  · -- the page of the store: the byte is due where it was put
    obtain ⟨rfl, rfl⟩ := hat
    rw [update_self, recalled]
    by_cases hi' : i = address % kSize
    · have haddr : address = address / kSize * kSize + i := by
        simp only [kSize] at *
        omega
      rw [if_pos ⟨rfl, haddr⟩, hi', update_self]
    rw [if_neg, update_of_ne hi']
    · exact hdue
    · rintro ⟨-, haddr⟩
      simp only [kSize] at *
      omega
  · -- any other private page has another frame
    have hframe : (w.tables q 0 k).frame ≠ (w.tables pid 0 (address / kSize)).frame := by
      intro heq
      have hname := w.names_leaf hp
      have hname' := w.names_leaf hq
      obtain ⟨⟨p, -, hok⟩, -⟩ := h.leaves pid _ hp
      have hcow : (w.tables pid 0 (address / kSize)).cow = false := by
        by_contra hc
        rw [hok.marked (by simpa using hc)] at hwrite
        cases hwrite
      rw [hcow] at hname
      rw [heq] at hname' hpriv'
      have hsame : Ref.node q 0 k = .node pid 0 (address / kSize) :=
        h.kept.lawful.plain_alone hpriv' hname hname'
      simp only [Ref.node.injEq] at hsame
      exact hat ⟨hsame.1, hsame.2.2⟩
    rw [update_of_ne hframe, recalled, if_neg]
    · exact hdue
    · rintro ⟨rfl, haddr⟩
      refine hat ⟨rfl, ?_⟩
      simp only [kSize] at *
      omega

end Cinux
