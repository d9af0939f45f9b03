/-
Reference-counted frames.

A book records, for every frame, whether it is in use and a share count, and
for every reference which frame it names and under which mark.  Nothing here
knows what a frame or a reference is.

The share count does not count every reference.  A frame owned by one
reference counts nothing; a private frame counts its copy-on-write references
and counts nothing while a single plain reference names it; a pooled frame
counts its references and the pool that holds it.  `Use.Allows` says this for
one frame and `Lawful` for the whole book.

* `Book.tally_bind` — what renaming one reference does to the tallies;
* `Lawful.take`, `Lawful.bindOwn`, `Lawful.bindPriv`, `Lawful.enterPool`,
  `Lawful.bindPooled`, `Lawful.bindForeign` — gaining references;
* `Lawful.mark`, `Lawful.shareAgain`, `Lawful.takeBack`, `Lawful.moveOff` —
  sharing a private frame and unsharing it;
* `Lawful.dropForeign`, `Lawful.dropLast`, `Lawful.dropShare` — losing one
  reference, with the rule that returns the frame when the count falls to zero:
  the book stays lawful whatever the mark was.
-/
import Mathlib

namespace Ledger

open Function

/-- How a reference names a frame. -/
inductive Mark
  | own
  | plain
  | cow
  | pool
deriving DecidableEq

theorem forall_mark {P : Mark → Prop} (h : ∀ m, P m) : P .own ∧ P .plain ∧ P .cow ∧ P .pool :=
  ⟨h _, h _, h _, h _⟩

/-- The state of a reference-counted store of frames. -/
structure Book (ι φ : Type*) where
  used : φ → Bool
  shares : φ → ℕ
  names : ι → Option (φ × Mark)

/-- What a frame is in use for. -/
inductive Use
  | idle
  | held
  | owned
  | priv
  | pooled
  | foreign
deriving DecidableEq

/-- The entries of one frame in a book: its bit, its count and its tallies. -/
structure Standing where
  used : Bool
  shares : ℕ
  own : ℕ
  plain : ℕ
  cow : ℕ
  pool : ℕ

/-- The standings a frame may have in each use. -/
def Use.Allows : Use → Standing → Prop
  | .idle, s => s.used = false ∧ s.shares = 0 ∧ s.own = 0 ∧ s.plain = 0 ∧ s.cow = 0 ∧ s.pool = 0
  | .held, s => s.used = true ∧ s.shares = 0 ∧ s.own = 0 ∧ s.plain = 0 ∧ s.cow = 0 ∧ s.pool = 0
  | .owned, s => s.used = true ∧ s.shares = 0 ∧ s.own = 1 ∧ s.plain = 0 ∧ s.cow = 0 ∧ s.pool = 0
  | .priv, s => s.used = true ∧ s.own = 0 ∧ s.pool = 0 ∧
      (s.plain = 1 ∧ s.cow = 0 ∧ s.shares = 0 ∨ s.plain = 0 ∧ 1 ≤ s.cow ∧ s.shares = s.cow)
  | .pooled, s => s.used = true ∧ s.own = 0 ∧ s.cow = 0 ∧ s.pool ≤ 1 ∧
      1 ≤ s.plain + s.pool ∧ s.shares = s.plain + s.pool
  | .foreign, s => s.shares = 0 ∧ s.own = 0 ∧ s.cow = 0 ∧ s.pool = 0

variable {ι φ : Type*}

namespace Book

/-- How many references name the frame under the mark. -/
noncomputable def tally (b : Book ι φ) (f : φ) (k : Mark) : ℕ :=
  {r | b.names r = some (f, k)}.ncard

/-- A frame's entry and how often it is named, by marks. -/
noncomputable def standing (b : Book ι φ) (f : φ) : Standing :=
  { used := b.used f, shares := b.shares f
    own := b.tally f .own, plain := b.tally f .plain, cow := b.tally f .cow
    pool := b.tally f .pool }

/-- Only finitely many references name anything. -/
def Finite (b : Book ι φ) : Prop := {r | b.names r ≠ none}.Finite

theorem Finite.named {b : Book ι φ} (h : b.Finite) (f : φ) (k : Mark) :
    {r | b.names r = some (f, k)}.Finite :=
  Set.Finite.subset h fun r hr => by
    rw [Set.mem_ofPred_eq] at hr ⊢
    simp [hr]

theorem Finite.tally_pos {b : Book ι φ} (h : b.Finite) {r : ι} {f : φ} {k : Mark}
    (hr : b.names r = some (f, k)) : 0 < b.tally f k :=
  (Set.ncard_pos (h.named f k)).mpr ⟨r, by rwa [Set.mem_ofPred_eq]⟩

variable [DecidableEq ι]

/-- Let the reference name something else, or nothing. -/
def bind (b : Book ι φ) (r : ι) (x : Option (φ × Mark)) : Book ι φ :=
  { b with names := update b.names r x }

@[simp] theorem bind_names_self (b : Book ι φ) (r : ι) (x : Option (φ × Mark)) :
    (b.bind r x).names r = x := by
  simp [bind]

theorem bind_names_ne (b : Book ι φ) {r r' : ι} (x : Option (φ × Mark)) (h : r' ≠ r) :
    (b.bind r x).names r' = b.names r' := by
  simp [bind, h]

theorem Finite.bind {b : Book ι φ} (h : b.Finite) (r : ι) (x : Option (φ × Mark)) :
    (b.bind r x).Finite := by
  refine Set.Finite.subset (Set.Finite.insert r h) fun r' hr' => ?_
  by_cases hrr : r' = r
  · exact .inl hrr
  · refine .inr ?_
    rwa [Set.mem_ofPred_eq, bind_names_ne b x hrr] at hr'

/-- Renaming one reference takes it off one tally and puts it on another. -/
theorem tally_bind [DecidableEq φ] {b : Book ι φ} (h : b.Finite) (r : ι) (x : Option (φ × Mark))
    (g : φ) (k : Mark) :
    (b.bind r x).tally g k + (if b.names r = some (g, k) then 1 else 0)
      = b.tally g k + (if x = some (g, k) then 1 else 0) := by
  -- both sides count the references other than `r`, and `r` itself
  have hrest : {r' | (b.bind r x).names r' = some (g, k)} \ {r}
      = {r' | b.names r' = some (g, k)} \ {r} := by
    ext r'
    simp only [Set.mem_sdiff, Set.mem_ofPred_eq]
    refine and_congr_left fun hne => ?_
    rw [bind_names_ne b x hne]
  have hcount : ∀ c : Book ι φ, c.Finite → c.tally g k =
      ({r' | c.names r' = some (g, k)} \ {r}).ncard
        + (if c.names r = some (g, k) then 1 else 0) := by
    intro c hc
    by_cases hr : c.names r = some (g, k)
    · rw [if_pos hr]
      have hmem : r ∈ {r' | c.names r' = some (g, k)} := by rwa [Set.mem_ofPred_eq]
      exact (Set.ncard_sdiff_singleton_add_one hmem (hc.named g k)).symm
    · have hmem : r ∉ {r' | c.names r' = some (g, k)} := by rwa [Set.mem_ofPred_eq]
      rw [if_neg hr, Set.sdiff_singleton_eq_self hmem]
      rfl
  have h1 := hcount b h
  have h2 := hcount (b.bind r x) (h.bind r x)
  rw [bind_names_self, hrest] at h2
  omega

omit [DecidableEq ι] in
theorem standing_congr {b c : Book ι φ} {g : φ} (hu : c.used g = b.used g)
    (hs : c.shares g = b.shares g) (ht : ∀ k, c.tally g k = b.tally g k) :
    c.standing g = b.standing g := by
  simp [standing, hu, hs, ht]

end Book

/-! ### Lawful books -/

/-- Every frame stands as its use allows. -/
structure Lawful (use : φ → Use) (b : Book ι φ) : Prop where
  finite : b.Finite
  allows : ∀ f, (use f).Allows (b.standing f)

variable {use : φ → Use} {b : Book ι φ}

section

variable (h : Lawful use b)
include h

theorem Lawful.stands {f : φ} {u : Use} (hf : use f = u) : u.Allows (b.standing f) :=
  hf ▸ h.allows f

section

variable {r : ι} {f : φ}

theorem Lawful.use_of_names {k : Mark} (hr : b.names r = some (f, k)) :
    use f ≠ .idle ∧ use f ≠ .held := by
  have hpos := h.finite.tally_pos hr
  have hf := h.allows f
  constructor
  · intro hu
    rw [hu] at hf
    obtain ⟨-, -, h1, h2, h3, h4⟩ := hf
    simp only [Book.standing] at h1 h2 h3 h4
    cases k <;> omega
  · intro hu
    rw [hu] at hf
    obtain ⟨-, -, h1, h2, h3, h4⟩ := hf
    simp only [Book.standing] at h1 h2 h3 h4
    cases k <;> omega

theorem Lawful.use_of_own (hr : b.names r = some (f, .own)) : use f = .owned := by
  have hpos := h.finite.tally_pos hr
  have hf := h.allows f
  cases hu : use f <;> rw [hu] at hf <;> simp only [Use.Allows, Book.standing] at hf <;> omega

theorem Lawful.use_of_cow (hr : b.names r = some (f, .cow)) : use f = .priv := by
  have hpos := h.finite.tally_pos hr
  have hf := h.allows f
  cases hu : use f <;> rw [hu] at hf <;> simp only [Use.Allows, Book.standing] at hf <;> omega

theorem Lawful.use_of_pool (hr : b.names r = some (f, .pool)) :
    use f = .pooled := by
  have hpos := h.finite.tally_pos hr
  have hf := h.allows f
  cases hu : use f <;> rw [hu] at hf <;> simp only [Use.Allows, Book.standing] at hf <;> omega

end

/-- A frame is on one page list at most, once. -/
theorem Lawful.pool_alone {r r' : ι} {f : φ} (hr : b.names r = some (f, .pool))
    (hr' : b.names r' = some (f, .pool)) : r' = r := by
  have hallows := h.allows f
  rw [h.use_of_pool hr] at hallows
  have hle : {x | b.names x = some (f, .pool)}.ncard ≤ 1 := hallows.2.2.2.1
  exact (Set.ncard_le_one (h.finite.named f .pool)).mp hle r' hr' r hr

theorem Lawful.own_alone {r r' : ι} {f : φ} {k : Mark} (hr : b.names r = some (f, .own))
    (hr' : b.names r' = some (f, k)) : k = .own ∧ r' = r := by
  have hpos := h.finite.tally_pos hr'
  have hallows := h.allows f
  rw [h.use_of_own hr] at hallows
  simp only [Use.Allows, Book.standing] at hallows
  cases k with
  | own =>
    have hle : {x | b.names x = some (f, .own)}.ncard ≤ 1 := hallows.2.2.1.le
    exact ⟨rfl, (Set.ncard_le_one (h.finite.named f .own)).mp hle r' hr' r hr⟩
  | _ => omega

/-- A private frame with a plain reference has no other. -/
theorem Lawful.plain_alone {r r' : ι} {f : φ} {k : Mark} (hf : use f = .priv)
    (hr : b.names r = some (f, .plain)) (hr' : b.names r' = some (f, k)) : r' = r := by
  have hpos := h.finite.tally_pos hr
  have hpos' := h.finite.tally_pos hr'
  have hallows := h.allows f
  rw [hf] at hallows
  simp only [Use.Allows, Book.standing] at hallows
  cases k with
  | own => omega
  | cow => omega
  | pool => omega
  | plain =>
    have hone : b.tally f .plain = 1 := by omega
    obtain ⟨x, hx⟩ := Set.ncard_eq_one.mp hone
    have hmem : ∀ q, b.names q = some (f, .plain) → q = x := by
      intro q hq
      have : q ∈ ({x} : Set ι) := by
        rw [← hx]
        exact hq
      exact this
    rw [hmem r hr, hmem r' hr']

theorem Lawful.named {f : φ} (h1 : use f ≠ .idle) (h2 : use f ≠ .held) (h3 : use f ≠ .foreign) :
    ∃ r k, b.names r = some (f, k) := by
  have hex : ∀ k, b.tally f k ≠ 0 → ∃ r k, b.names r = some (f, k) := by
    intro k hk
    obtain ⟨r, hr⟩ := Set.nonempty_of_ncard_ne_zero hk
    exact ⟨r, k, hr⟩
  have hallows := h.allows f
  cases hf : use f <;> rw [hf] at hallows <;> simp only [Use.Allows, Book.standing] at hallows
  case idle => exact absurd hf h1
  case held => exact absurd hf h2
  case foreign => exact absurd hf h3
  case owned => exact hex .own (by omega)
  case priv =>
    by_cases hp : b.tally f .plain = 0
    · exact hex .cow (by omega)
    · exact hex .plain hp
  case pooled =>
    by_cases hp : b.tally f .plain = 0
    · exact hex .pool (by omega)
    · exact hex .plain hp

theorem Lawful.used {f : φ} (h1 : use f ≠ .idle) (h2 : use f ≠ .foreign) : b.used f = true := by
  have hf := h.allows f
  cases hu : use f <;> rw [hu] at hf <;> first | exact hf.1 | contradiction

end

/-- Only `f` was touched, and it stands as its new use allows. -/
theorem Lawful.change [DecidableEq φ] (h : Lawful use b) {c : Book ι φ} {f : φ} {u : Use}
    (hfin : c.Finite) (hother : ∀ g, g ≠ f → c.standing g = b.standing g)
    (hf : u.Allows (c.standing f)) : Lawful (update use f u) c := by
  refine ⟨hfin, fun g => ?_⟩
  by_cases hg : g = f
  · subst hg
    rwa [update_self]
  · rw [update_of_ne hg, hother g hg]
    exact h.allows g

variable {c : Book ι φ} {shares : φ → ℕ} {f : φ} {u : Use} [DecidableEq φ]

theorem Lawful.settle (hf : use f = u) (h : Lawful (update use f u) c) : Lawful use c := by
  rwa [← hf, update_eq_self] at h

/-- Of the bits and counts only the bit of `f` changes. -/
theorem Lawful.setUsed (h : Lawful use b) {v : Bool}
    (hf : u.Allows { b.standing f with used := v }) :
    Lawful (update use f u) { b with used := update b.used f v } := by
  refine h.change h.finite
    (fun g hg => Book.standing_congr (update_of_ne hg v b.used) rfl fun _ => rfl) ?_
  show u.Allows { b.standing f with used := update b.used f v f }
  rwa [update_self]

variable [DecidableEq ι] {r : ι} {k : Mark} {n : ℕ}

/-- A reference to `f`, or to nothing, takes another mark, or none: the other frames stand as
before, and the tallies of `f` move by the marks. -/
theorem Lawful.remark (h : Lawful use b) {y x : Option Mark}
    (hr : b.names r = y.map fun m => (f, m)) (hs : shares = update b.shares f n)
    (hf : ∀ t : Mark → ℕ,
      (∀ m, t m + (if y = some m then 1 else 0) = b.tally f m + if x = some m then 1 else 0) →
      u.Allows ⟨b.used f, n, t .own, t .plain, t .cow, t .pool⟩) :
    Lawful (update use f u) ⟨b.used, shares, update b.names r (x.map fun m => (f, m))⟩ := by
  subst hs
  have hx : ∀ (x : Option Mark) g m, (x.map fun m => (f, m)) = some (g, m) ↔
      f = g ∧ x = some m := by
    intro x g m
    cases x with
    | none => simp
    | some m' => simp
  have htally := Book.tally_bind h.finite r (x.map fun m => (f, m))
  simp only [hr, hx] at htally
  refine h.change (h.finite.bind r (x.map fun m => (f, m))) (fun g hg => ?_) ?_
  · refine Book.standing_congr rfl (update_of_ne hg n b.shares) fun m => ?_
    have := htally g m
    simp only [Ne.symm hg] at this
    exact this
  · show u.Allows ⟨b.used f, update b.shares f n f, _, _, _, _⟩
    rw [update_self]
    exact hf ((b.bind r (x.map fun m => (f, m))).tally f) fun m => by
      simpa only [true_and] using htally f m

/-- A reference that named nothing now names `f`, which gains one on one tally. -/
theorem Lawful.gain (h : Lawful use b) (hr : b.names r = none) (hs : shares = update b.shares f n)
    (hf : u.Allows
      { used := b.used f, shares := n
        own := b.tally f .own + if k = .own then 1 else 0
        plain := b.tally f .plain + if k = .plain then 1 else 0
        cow := b.tally f .cow + if k = .cow then 1 else 0
        pool := b.tally f .pool + if k = .pool then 1 else 0 }) :
    Lawful (update use f u) ⟨b.used, shares, update b.names r (some (f, k))⟩ := by
  refine h.remark (y := none) (x := some k) hr hs fun t ht => ?_
  simp only [reduceCtorEq, if_false, Nat.add_zero, Option.some.injEq] at ht
  simpa only [ht] using hf

section

variable (h : Lawful use b)
include h

/-! ### Taking and returning frames -/

omit [DecidableEq ι] in
theorem Lawful.take (hf : use f = .idle) :
    Lawful (update use f .held) { b with used := update b.used f true } :=
  h.setUsed ⟨rfl, (h.stands hf).2⟩

omit [DecidableEq ι] in
theorem Lawful.give (hf : use f = .held) :
    Lawful (update use f .idle) { b with used := update b.used f false } :=
  h.setUsed ⟨rfl, (h.stands hf).2⟩

/-! ### Gaining a reference -/

section

variable (hr : b.names r = none)
include hr

theorem Lawful.bindOwn (hf : use f = .held) :
    Lawful (update use f .owned) { b with names := update b.names r (some (f, .own)) } := by
  obtain ⟨h0, h1, h2, h3, h4, h5⟩ := h.stands hf
  simp only [Book.standing] at h0 h1 h2 h3 h4 h5
  refine h.gain hr (update_eq_self f _).symm ?_
  simp [Use.Allows, h0, h1, h2, h3, h4, h5]

theorem Lawful.bindPriv (hf : use f = .held) :
    Lawful (update use f .priv) { b with names := update b.names r (some (f, .plain)) } := by
  obtain ⟨h0, h1, h2, h3, h4, h5⟩ := h.stands hf
  simp only [Book.standing] at h0 h1 h2 h3 h4 h5
  refine h.gain hr (update_eq_self f _).symm ?_
  simp [Use.Allows, h0, h1, h2, h3, h4, h5]

theorem Lawful.bindForeign (hf : use f = .foreign) :
    Lawful use { b with names := update b.names r (some (f, .plain)) } := by
  obtain ⟨h1, h2, h3, h4⟩ := h.stands hf
  simp only [Book.standing] at h1 h2 h3 h4
  refine .settle hf (h.gain hr (update_eq_self f _).symm ?_)
  simp [Use.Allows, h1, h2, h3, h4]

theorem Lawful.bindPooled (hf : use f = .pooled) :
    Lawful use { b with
      shares := update b.shares f (b.shares f + 1)
      names := update b.names r (some (f, .plain)) } := by
  obtain ⟨h0, h1, h2, h3, h4, h5⟩ := h.stands hf
  simp only [Book.standing] at h0 h1 h2 h3 h4 h5
  refine .settle hf (h.gain hr rfl ?_)
  simp only [Use.Allows, h0, reduceCtorEq, if_false, if_true, true_and]
  omega

/-- A held frame enters a pool, which counts as its first share. -/
theorem Lawful.enterPool (hf : use f = .held) :
    Lawful (update use f .pooled) { b with
      shares := update b.shares f (b.shares f + 1)
      names := update b.names r (some (f, .pool)) } := by
  obtain ⟨h0, h1, h2, h3, h4, h5⟩ := h.stands hf
  simp only [Book.standing] at h0 h1 h2 h3 h4 h5
  refine h.gain hr rfl ?_
  simp [Use.Allows, h0, h1, h2, h3, h4, h5]

end

/-! ### Sharing a private frame and unsharing it -/

/-- The plain reference to a private frame is marked, which counts as a share. -/
theorem Lawful.mark (hr : b.names r = some (f, .plain)) (hf : use f = .priv) :
    Lawful use { b with
      shares := update b.shares f (b.shares f + 1)
      names := update b.names r (some (f, .cow)) } := by
  obtain ⟨h0, h1, h2, h3⟩ := h.stands hf
  simp only [Book.standing] at h0 h1 h2 h3
  refine .settle hf (h.remark (y := some .plain) (x := some .cow) hr rfl fun t ht => ?_)
  obtain ⟨e1, e2, e3, e4⟩ := forall_mark ht
  simp only [reduceCtorEq, if_false, if_true, Option.some.injEq] at e1 e2 e3 e4
  simp only [Use.Allows, h0, true_and]
  omega

/-- One more marked reference to a private frame that already has one. -/
theorem Lawful.shareAgain {r' : ι} (hr : b.names r = some (f, .cow)) (hr' : b.names r' = none) :
    Lawful use { b with
      shares := update b.shares f (b.shares f + 1)
      names := update b.names r' (some (f, .cow)) } := by
  have hpos := h.finite.tally_pos hr
  have hf := h.use_of_cow hr
  obtain ⟨h0, h1, h2, h3⟩ := h.stands hf
  simp only [Book.standing] at h0 h1 h2 h3
  refine .settle hf (h.gain hr' rfl ?_)
  simp only [Use.Allows, h0, reduceCtorEq, if_false, if_true, true_and]
  omega

/-- The last marked reference takes its frame back. -/
theorem Lawful.takeBack (hr : b.names r = some (f, .cow)) (hone : b.shares f = 1) :
    Lawful use { b with
      shares := update b.shares f 0, names := update b.names r (some (f, .plain)) } := by
  have hf := h.use_of_cow hr
  obtain ⟨h0, h1, h2, h3⟩ := h.stands hf
  simp only [Book.standing] at h0 h1 h2 h3
  refine .settle hf (h.remark (y := some .cow) (x := some .plain) hr rfl fun t ht => ?_)
  obtain ⟨e1, e2, e3, e4⟩ := forall_mark ht
  simp only [reduceCtorEq, if_false, if_true, Option.some.injEq] at e1 e2 e3 e4
  simp only [Use.Allows, h0, true_and, and_true]
  omega

/-! ### Losing a reference -/

theorem Lawful.dropForeign (hr : b.names r = some (f, k)) (hf : use f = .foreign) :
    Lawful use { b with names := update b.names r none } := by
  obtain ⟨h1, h2, h3, h4⟩ := h.stands hf
  simp only [Book.standing] at h1 h2 h3 h4
  refine .settle hf (h.remark (y := some k) (x := none) hr (update_eq_self f _).symm fun t ht => ?_)
  obtain ⟨e1, -, e3, e4⟩ := forall_mark ht
  simp only [reduceCtorEq, if_false] at e1 e3 e4
  simp only [Use.Allows]
  omega

/-- A reference goes where the count says nobody else: the frame is named no more, and is
returned. -/
theorem Lawful.dropLast (hr : b.names r = some (f, k)) (hfor : use f ≠ .foreign)
    (hone : b.shares f ≤ 1) :
    Lawful (update use f .idle)
      ⟨update b.used f false, update b.shares f 0, update b.names r none⟩ := by
  have hheld : Lawful (update use f .held) ⟨b.used, update b.shares f 0,
      update b.names r none⟩ := by
    refine h.remark (y := some k) (x := none) hr rfl fun t ht => ?_
    obtain ⟨e1, e2, e3, e4⟩ := forall_mark ht
    refine ⟨h.used (h.use_of_names hr).1 hfor, rfl, ?_⟩
    have hold := h.allows f
    cases huse : use f <;> rw [huse] at hold <;>
      simp only [Use.Allows, Book.standing] at hold <;> first | contradiction | skip
    all_goals cases k <;> simp at e1 e2 e3 e4 <;> simp only <;> omega
  have := hheld.give (update_self f .held use)
  rwa [update_idem] at this

/-- A reference goes and others remain: the count falls by one. -/
theorem Lawful.dropShare (hr : b.names r = some (f, k)) (hfor : use f ≠ .foreign)
    (hmore : 2 ≤ b.shares f) :
    Lawful use { b with
      shares := update b.shares f (b.shares f - 1), names := update b.names r none } := by
  have hold := h.allows f
  refine .settle rfl (h.remark (y := some k) (x := none) hr rfl fun t ht => ?_)
  obtain ⟨e1, e2, e3, e4⟩ := forall_mark ht
  cases huse : use f with
  | foreign => exact absurd huse hfor
  | idle | held | owned =>
    rw [huse] at hold
    have hz := hold.2.1
    simp only [Book.standing] at hz
    omega
  | priv | pooled =>
    rw [huse] at hold
    simp only [Use.Allows, Book.standing] at hold ⊢
    refine ⟨hold.1, ?_⟩
    cases k <;> simp at e1 e2 e3 e4 <;> omega

/-- A marked reference that is not the last moves to a held frame. -/
theorem Lawful.moveOff {g : φ} (hr : b.names r = some (f, .cow)) (hmore : 2 ≤ b.shares f)
    (hg : use g = .held) :
    Lawful (update use g .priv) { b with
      shares := update b.shares f (b.shares f - 1)
      names := update b.names r (some (g, .plain)) } := by
  -- the old frame loses the reference and its share, then the new one gains it
  have hmid := h.dropShare hr (by rw [h.use_of_cow hr]; simp) hmore
  have := hmid.bindPriv (update_self r none b.names) hg
  rwa [update_idem] at this

end

end Ledger
