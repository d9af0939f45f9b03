/-
The ledger of frames kept lawful.

`Kept` joins the bitmap and the counts of `Pmm` to the references that name
frames: every frame stands as its use allows (`Ledger.Lawful`), the hardware
pages are the foreign ones, page zero is withheld, the log replays, and the only
frames held by nobody are those of the boot map and the one in hand.  The type of
references is left open.

* `Kept.allocate` — what `allocatePage` can answer;
* `Kept.takeOwn`, `Kept.give`, `Kept.bindOwn`, `Kept.bindPriv` — a frame in hand;
* `Kept.release`, `Kept.releaseAll` — references that go;
* `Kept.stable` — a frame named before and after a change keeps its use.
-/
import Cinux.Ledger
import Cinux.Memory

namespace Cinux

open Ledger Function

variable {ι : Type*}

/-- The ledger `m` under the references `names`; `hand` is a frame that was
allocated and is not named yet. -/
structure Kept (hw : Hardware) (boot : ℕ → Bool) (hand : Option ℕ) (use : ℕ → Use) (m : Pmm)
    (names : ι → Option (ℕ × Mark)) : Prop where
  lawful : Lawful use ⟨m.used, m.shares, names⟩
  zero : use 0 = .held
  foreign : ∀ f, use f = .foreign ↔ hw.isHardwarePage f = true
  below : ∀ f, m.used f = true → f < kPmmTotalPages
  reserved : ∀ f, hw.isHardwarePage f = true → f < kPmmTotalPages → m.used f = true
  spare : ∀ f, use f = .held → boot f = true ∨ hand = some f
  replays : Pmm.Replays boot m.log m.used

/-! ### How uses change -/

/-- Frames are only taken: a frame in a counted use stays in it. -/
def Takes (use use' : ℕ → Use) : Prop :=
  ∀ f, use' f = use f ∨ use f = .idle ∨ use f = .held

/-- Frames are only given back. -/
def Drops (use use' : ℕ → Use) : Prop := ∀ f, use' f = use f ∨ use' f = .idle

/-- Either, frame by frame. -/
def Moves (use use' : ℕ → Use) : Prop :=
  ∀ f, use' f = use f ∨ use f = .idle ∨ use f = .held ∨ use' f = .idle

theorem Takes.moves {u v : ℕ → Use} (h : Takes u v) : Moves u v := fun f => by
  rcases h f with hf | hf | hf
  · exact .inl hf
  · exact .inr (.inl hf)
  · exact .inr (.inr (.inl hf))

theorem Drops.refl (use : ℕ → Use) : Drops use use := fun _ => .inl rfl

theorem Drops.trans {u v w : ℕ → Use} (h : Drops u v) (h' : Drops v w) : Drops u w := by
  intro f
  rcases h' f with hf' | hf'
  · rcases h f with hf | hf
    · exact .inl (hf'.trans hf)
    · exact .inr (hf'.trans hf)
  · exact .inr hf'

theorem Drops.moves {u v : ℕ → Use} (h : Drops u v) : Moves u v := fun f => by
  rcases h f with hf | hf
  · exact .inl hf
  · exact .inr (.inr (.inr hf))

theorem takes_update {use : ℕ → Use} {f : ℕ} {u : Use} (hf : use f = .idle ∨ use f = .held) :
    Takes use (update use f u) := by
  intro g
  by_cases hg : g = f
  · subst hg
    exact .inr hf
  · exact .inl (update_of_ne hg u use)

theorem drops_update (use : ℕ → Use) (f : ℕ) : Drops use (update use f .idle) := by
  intro g
  by_cases hg : g = f
  · subst hg
    exact .inr (update_self g .idle use)
  · exact .inl (update_of_ne hg .idle use)

theorem hardware_lt {hw : Hardware} {f : ℕ} (h : hw.isHardwarePage f = true) : f < 2 ^ 40 := by
  have hfit := hw.fits
  have hext := hw.extent_le
  have hup := (alignUp_of_le (a := hw.extent) (by simp only [kSize]; omega)).2
  have hmod := alignUp_mod hw.extent
  simp only [Hardware.isHardwarePage, Bool.and_eq_true, decide_eq_true_eq] at h
  simp only [kSize] at h hup hmod
  omega

namespace Kept

variable {hw : Hardware} {boot : ℕ → Bool} {hand : Option ℕ} {use use' : ℕ → Use} {m m' : Pmm}
  {names names' : ι → Option (ℕ × Mark)} {r : ι} {f : ℕ} {k : Mark}

section

variable (h : Kept hw boot hand use m names)

include h

theorem use_of_names (hr : names r = some (f, k)) :
    use f ≠ .idle ∧ use f ≠ .held :=
  h.lawful.use_of_names hr

theorem use_of_own (hr : names r = some (f, .own)) :
    use f = .owned :=
  h.lawful.use_of_own hr

theorem use_of_cow (hr : names r = some (f, .cow)) :
    use f = .priv :=
  h.lawful.use_of_cow hr

theorem use_of_pool (hr : names r = some (f, .pool)) :
    use f = .pooled :=
  h.lawful.use_of_pool hr

end

section

variable (h : Kept hw boot hand use m names)

include h

section

variable (hr : names r = some (f, k))
include hr

theorem named_ne_zero : f ≠ 0 := by
  rintro rfl
  exact (h.use_of_names hr).2 h.zero

theorem used_of_named (hhw : hw.isHardwarePage f = false) : m.used f = true := by
  refine h.lawful.used (h.use_of_names hr).1 fun hf => ?_
  rw [h.foreign, hhw] at hf
  nomatch hf

theorem named_below (hhw : hw.isHardwarePage f = false) : f < kPmmTotalPages :=
  h.below f (h.used_of_named hr hhw)

theorem named_lt : f < 2 ^ 40 := by
  by_cases hhw : hw.isHardwarePage f = true
  · exact hardware_lt hhw
  · have := h.named_below hr (by simpa using hhw)
    unfold kPmmTotalPages at this
    omega

end

theorem idle_of_clear (hclear : m.used f = false) (hlt : f < kPmmTotalPages) : use f = .idle := by
  by_contra hid
  by_cases hfor : use f = .foreign
  · rw [h.reserved f ((h.foreign f).mp hfor) hlt] at hclear
    nomatch hclear
  · have : m.used f = true := h.lawful.used hid hfor
    rw [this] at hclear
    nomatch hclear

theorem used_zero : m.used 0 = true :=
  h.lawful.used (by rw [h.zero]; simp) (by rw [h.zero]; simp)

end

theorem change {u : Use} {hand' : Option ℕ} (h : Kept hw boot hand use m names)
    (hlaw : Lawful (update use f u) ⟨m'.used, m'.shares, names'⟩)
    (h0 : f ≠ 0) (hfor : use f ≠ .foreign) (hu : u ≠ .foreign) (hlt : f < kPmmTotalPages)
    (hused : ∀ g, g ≠ f → m'.used g = m.used g)
    (hspare : u = .held → boot f = true ∨ hand' = some f)
    (hhand : ∀ g, g ≠ f → hand = some g → hand' = some g)
    (hrep : Pmm.Replays boot m'.log m'.used) :
    Kept hw boot hand' (update use f u) m' names' := by
  refine ⟨hlaw, ?_, fun g => ?_, fun g hg => ?_, fun g hg hglt => ?_, fun g hg => ?_, hrep⟩
  · rw [update_of_ne h0.symm, h.zero]
  · by_cases hgf : g = f
    · subst hgf
      rw [update_self]
      exact ⟨fun hc => absurd hc hu, fun hc => absurd ((h.foreign g).mpr hc) hfor⟩
    · rw [update_of_ne hgf, h.foreign]
  · by_cases hgf : g = f
    · exact hgf ▸ hlt
    · rw [hused g hgf] at hg
      exact h.below g hg
  · by_cases hgf : g = f
    · subst hgf
      exact absurd ((h.foreign g).mpr hg) hfor
    · rw [hused g hgf]
      exact h.reserved g hg hglt
  · by_cases hgf : g = f
    · subst hgf
      rw [update_self] at hg
      exact hspare hg
    · rw [update_of_ne hgf] at hg
      exact (h.spare g hg).imp_right (hhand g hgf)

theorem same (h : Kept hw boot hand use m names) (hlaw : Lawful use ⟨m'.used, m'.shares, names'⟩)
    (hu : m'.used = m.used) (hlog : m'.log = m.log) : Kept hw boot hand use m' names' :=
  ⟨hlaw, h.zero, h.foreign, fun g hg => h.below g (by rwa [hu] at hg),
    fun g hg hlt => by rw [hu]; exact h.reserved g hg hlt, h.spare, by
      rw [hu, hlog]
      exact h.replays⟩

/-! ### A frame in hand -/

theorem refuse (h : Kept hw boot hand use m names) : Kept hw boot hand use m.refuse names :=
  h.same h.lawful rfl rfl

/-- `allocatePage` refuses, or puts a fresh frame in hand. -/
theorem allocate (h : Kept hw boot none use m names) :
    m.allocatePage = (0, m.refuse) ∨ ∃ f, m.allocatePage = (f, m.take f) ∧ f ≠ 0 ∧
      f < kPmmTotalPages ∧ use f = .idle ∧
      Kept hw boot (some f) (update use f .held) (m.take f) names := by
  rcases Pmm.allocatePage_cases h.used_zero with hno | ⟨f, hso, hne, hlt, hclear⟩
  · exact .inl hno
  have hid := h.idle_of_clear hclear hlt
  refine .inr ⟨f, hso, hne, hlt, hid, h.change ?_ hne (by rw [hid]; simp) (by simp) hlt
    (fun g hg => by simp [Pmm.take, hg]) (fun _ => .inr rfl) (by simp)
    ⟨m.used, h.replays, hclear, rfl⟩⟩
  exact h.lawful.take hid

theorem give (h : Kept hw boot (some f) use m names) (hf : use f = .held) (hne : f ≠ 0) :
    Kept hw boot none (update use f .idle) (m.freePage f) names := by
  have hu : m.used f = true := h.lawful.used (by rw [hf]; simp) (by rw [hf]; simp)
  have hfree : m.freePage f = { m with
      used := update m.used f false, log := .returned f :: m.log } := by
    simp [Pmm.freePage, hne]
  rw [hfree]
  refine h.change ?_ hne (by rw [hf]; simp) (by simp) (h.below f hu)
    (fun g hg => update_of_ne hg false m.used) (by simp)
    (fun g hg hhand => absurd (Option.some.inj hhand).symm hg) ⟨m.used, h.replays, hu, rfl⟩
  exact h.lawful.give hf

theorem leaveHand {u : Use} {shares : ℕ → ℕ} (h : Kept hw boot (some f) use m names)
    (hf : use f = .held) (hne : f ≠ 0) (hu : u ≠ .foreign) (hoff : u ≠ .held)
    (hlaw : Lawful (update use f u) ⟨m.used, shares, names'⟩) :
    Kept hw boot none (update use f u) { m with shares := shares } names' :=
  h.change hlaw hne (by rw [hf]; simp) hu
    (h.below f (h.lawful.used (by rw [hf]; simp) (by rw [hf]; simp))) (fun _ _ => rfl)
    (fun hc => absurd hc hoff) (fun _ hg hhand => absurd (Option.some.inj hhand).symm hg) h.replays

variable [DecidableEq ι]

section

variable (h : Kept hw boot (some f) use m names) (hf : use f = .held) (hne : f ≠ 0)
  (hr : names r = none)
include h hf hne hr

theorem bindOwn : Kept hw boot none (update use f .owned) m (update names r (some (f, .own))) :=
  h.leaveHand hf hne (by simp) (by simp) (h.lawful.bindOwn hr hf)

theorem bindPriv : Kept hw boot none (update use f .priv) m
      (update names r (some (f, .plain))) :=
  h.leaveHand hf hne (by simp) (by simp) (h.lawful.bindPriv hr hf)

end

section

variable (h : Kept hw boot hand use m names)

include h

/-- A clear frame is taken and named at once, whatever else is in hand. -/
theorem takeOwn (hne : f ≠ 0) (hlt : f < kPmmTotalPages)
    (hclear : m.used f = false) (hr : names r = none) :
    Kept hw boot hand (update use f .owned) (m.take f) (update names r (some (f, .own))) := by
  have hid := h.idle_of_clear hclear hlt
  have hown := (h.lawful.take hid).bindOwn hr (update_self f _ use)
  rw [update_idem] at hown
  exact h.change hown hne (by rw [hid]; simp) (by simp) hlt
    (fun g hg => by simp [Pmm.take, hg]) (by simp) (fun g _ hg => hg)
    ⟨m.used, h.replays, hclear, rfl⟩

/-! ### Sharing -/

theorem mark (hf : use f = .priv) (hr : names r = some (f, .plain)) :
    Kept hw boot hand use (m.addShare f) (update names r (some (f, .cow))) :=
  h.same (h.lawful.mark hr hf) rfl rfl

end

theorem shareAgain {q : ι} (h : Kept hw boot hand use m names) (hq : names q = some (f, .cow))
    (hr : names r = none) :
    Kept hw boot hand use (m.addShare f) (update names r (some (f, .cow))) :=
  h.same (h.lawful.shareAgain hq hr) rfl rfl

theorem enterPool (h : Kept hw boot (some f) use m names) (hf : use f = .held) (hne : f ≠ 0)
    (hr : names r = none) :
    Kept hw boot none (update use f .pooled) (m.addShare f) (update names r (some (f, .pool))) :=
  h.leaveHand hf hne (by simp) (by simp) (h.lawful.enterPool hr hf)

/-! ### Resolving a write to a shared private frame -/

omit [DecidableEq ι] in
/-- The count of a frame with a marked reference is not zero. -/
theorem cow_shares (h : Kept hw boot hand use m names) (hr : names r = some (f, .cow)) :
    f < kPmmTotalPages ∧ 1 ≤ m.shares f := by
  have hpriv := h.use_of_cow hr
  have hpos := h.lawful.finite.tally_pos hr
  have hallows := h.lawful.allows f
  rw [hpriv] at hallows
  obtain ⟨hu, -, -, hcount⟩ := hallows
  refine ⟨h.below f hu, ?_⟩
  simp only [Book.standing] at hcount
  omega

theorem takeBack (h : Kept hw boot hand use m names) (hr : names r = some (f, .cow))
    (hone : m.shares f = 1) :
    Kept hw boot hand use { m with shares := update m.shares f 0 }
      (update names r (some (f, .plain))) :=
  h.same (h.lawful.takeBack hr hone) rfl rfl

/-- A marked reference with company moves to a fresh frame, or there is none. -/
theorem moveOff (h : Kept hw boot none use m names) (hr : names r = some (f, .cow))
    (hmore : 2 ≤ m.shares f) (hm : m' = { m with
      shares := update m.shares f (m.shares f - 1) }) :
    m'.allocatePage = (0, m'.refuse) ∨ ∃ g, m'.allocatePage = (g, m'.take g) ∧ g ≠ 0 ∧
      use g = .idle ∧
      g < kPmmTotalPages ∧
      Kept hw boot none (update use g .priv) (m'.take g) (update names r (some (g, .plain))) := by
  have hz : m'.used 0 = true := hm ▸ h.used_zero
  rcases Pmm.allocatePage_cases hz with hno | ⟨g, hso, hne, hlt, hclear⟩
  · exact .inl hno
  subst hm
  have hid := h.idle_of_clear hclear hlt
  refine .inr ⟨g, hso, hne, hid, hlt, ?_⟩
  -- the fresh frame is held, then the reference moves to it
  have hmove := (h.lawful.take hid).moveOff hr hmore (update_self g _ use)
  rw [update_idem] at hmove
  exact h.change hmove hne (by rw [hid]; simp) (by simp) hlt
    (fun k hk => by simp [Pmm.take, hk]) (by simp) (fun k _ hk => hk)
    ⟨m.used, h.replays, hclear, rfl⟩

/-! ### References that go -/

/-- `cow::ReleaseFrame` on the frame of a reference that goes. -/
theorem release (h : Kept hw boot hand use m names) (hr : names r = some (f, k)) :
    ∃ use', Drops use use' ∧ Kept hw boot hand use' (m.releaseFrame hw.isHardwarePage f)
        (update names r none) := by
  have hne := h.named_ne_zero hr
  have hnot : hw.isHardwarePage f = false → use f ≠ .foreign := fun hhw hc => by
    rw [h.foreign, hhw] at hc
    nomatch hc
  rcases Pmm.releaseFrame_cases hne (h.named_below hr) with
    ⟨hhw, heq⟩ | ⟨hhw, hone, heq⟩ | ⟨hhw, hmore, heq⟩
  · -- a hardware page: only the name goes
    rw [heq]
    exact ⟨use, Drops.refl use,
      h.same (h.lawful.dropForeign hr ((h.foreign f).mpr hhw)) rfl rfl⟩
  · -- the last reference: the frame goes back
    rw [heq]
    exact ⟨_, drops_update use f, h.change (h.lawful.dropLast hr (hnot hhw) hone) hne
      (hnot hhw) (by simp) (h.named_below hr hhw) (fun g hg => update_of_ne hg false m.used)
      (by simp) (fun g _ hg => hg) ⟨m.used, h.replays, h.used_of_named hr hhw, rfl⟩⟩
  · -- others remain: the count falls
    rw [heq]
    exact ⟨use, Drops.refl use, h.same (h.lawful.dropShare hr (hnot hhw) hmore) rfl rfl⟩

omit [DecidableEq ι] in
/-- An owned frame is returned outright; for it `cow::ReleaseFrame` does the
same. -/
theorem release_own (h : Kept hw boot hand use m names) (hr : names r = some (f, .own)) :
    m.releaseFrame hw.isHardwarePage f = m.freePage f := by
  have hown := h.use_of_own hr
  have hshares : m.shares f = 0 := by
    have := h.lawful.allows f
    rw [hown] at this
    exact this.2.1
  have hhw : hw.isHardwarePage f = false := by
    by_contra hc
    have := (h.foreign f).mpr (by simpa using hc)
    rw [hown] at this
    nomatch this
  simp [Pmm.releaseFrame, hhw, Pmm.dropShare, hshares]

/-- A list of references goes, each releasing its frame in turn.  The step may
be another one, as long as it releases the frames of these references. -/
theorem releaseAll {act : Pmm → ι × ℕ → Pmm} {all : ι → Option (ℕ × Mark)} {l : List (ι × ℕ)} :
    ∀ {use : ℕ → Use} {m : Pmm} {names : ι → Option (ℕ × Mark)}, Kept hw boot hand use m names →
    (l.map Prod.fst).Nodup →
    (∀ x ∈ l, names x.1 = all x.1 ∧ ∃ k, all x.1 = some (x.2, k)) →
    (∀ x ∈ l, ∀ {use : ℕ → Use} {m : Pmm} {names : ι → Option (ℕ × Mark)},
      Kept hw boot hand use m names → names x.1 = all x.1 →
      act m x = m.releaseFrame hw.isHardwarePage x.2) →
    ∃ use', Drops use use' ∧ Kept hw boot hand use' (l.foldl act m)
        (fun r => if r ∈ l.map Prod.fst then none else names r) := by
  induction l with
  | nil =>
    intro use m names h _ _ _
    exact ⟨use, Drops.refl use, by simpa using h⟩
  | cons x l ih =>
    intro use m names h hnodup hnamed hact
    obtain ⟨hx, hl⟩ := List.nodup_cons.mp hnodup
    obtain ⟨hsame, k, hk⟩ := hnamed x (by simp)
    -- the first is given back; the rest are named as before, since none occurs twice
    obtain ⟨u, hdrop, hkept⟩ := h.release (hsame.trans hk)
    rw [← hact x (by simp) h hsame] at hkept
    obtain ⟨u', hdrop', hkept'⟩ := ih hkept hl (fun y hy => by
      rw [update_of_ne]
      · exact hnamed y (by simp [hy])
      · rintro heq
        exact hx (heq ▸ List.mem_map_of_mem hy)) (fun y hy => hact y (by simp [hy]))
    refine ⟨u', hdrop.trans hdrop', ?_⟩
    have hnames : (fun r => if r ∈ (x :: l).map Prod.fst then none else names r)
        = fun r => if r ∈ l.map Prod.fst then none else update names x.1 none r := by
      funext r
      by_cases hr : r = x.1
      · subst hr
        simp
      · simp only [List.map_cons, List.mem_cons, hr, false_or, update_of_ne hr]
    rw [hnames]
    exact hkept'

end Kept

end Cinux
