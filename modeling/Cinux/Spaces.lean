/-
The invariant of address spaces.

Frames are named by roots, by entries of user tables, by the pages of shared
segments and by the tables and leaves of the kernel half (`Ref`, `Memory.names`).  `Good`
says of a memory, and of what every address is promised, that the ledger is kept
under these names, that the tables are well formed, and that every present leaf
is one the promise at its address allows and shows the bytes its process is
entitled to (`LeafFact`).

* `Memory.names_setLeaf`, `Memory.names_link` — how the names change;
* `Good.step` — everything a change must show for `Good` to survive it; every
  operation on memory goes through this;
* `Good.promise` — what must hold for the promises to be replaced.
-/
import Cinux.FrameLedger
import Cinux.VmaView

namespace Cinux

open Ledger
open PageTable (blank link_self tableEntry)

/-- What can name a frame. -/
inductive Ref
  | root (pid : ℕ)
  | node (pid level p : ℕ)
  | pool (p i : ℕ)
  | kernel (level p : ℕ)
deriving DecidableEq

/-- The frame an entry names: a leaf by its copy-on-write bit, a table as its
owner. -/
def entryName (level : ℕ) (e : Entry) : Option (ℕ × Mark) :=
  if e.present then some (e.frame, if level = 0 then (if e.cow then .cow else .plain) else .own)
  else none

/-- An entry of the kernel half that names a frame of its own: a 4 KiB leaf or the next
table.  A large leaf maps frames that others hold. -/
def Entry.NamesFrame (level : ℕ) (e : Entry) : Prop :=
  e.present = true ∧ (level = 0 ∨ level ≤ 3 ∧ e.large = false)

instance Entry.decidableNamesFrame (level : ℕ) (e : Entry) : Decidable (e.NamesFrame level) :=
  inferInstanceAs (Decidable (_ ∧ _))

/-- The names of all references. -/
def Memory.names (w : Memory) : Ref → Option (ℕ × Mark)
  | .root pid => (w.roots pid).map fun f => (f, .own)
  | .node pid level p => if level ≤ 3 then entryName level (w.tables pid level p) else none
  | .pool p i => (w.pages p)[i]?.map fun f => (f, .pool)
  | .kernel level p =>
    if (w.kernel level p).NamesFrame level then some ((w.kernel level p).frame, .own) else none

variable {pt : PageTable} {leaf : Entry} {e : Entry}

theorem entryName_absent {level : ℕ} (h : e.present = false) : entryName level e = none := by
  simp [entryName, h]

theorem entryName_table {level : ℕ} (h : e.present = true) (hl : level ≠ 0) :
    entryName level e = some (e.frame, .own) := by
  simp [entryName, h, hl]

theorem entryName_leaf (h : e.present = true) :
    entryName 0 e = some (e.frame, if e.cow then .cow else .plain) := by
  simp [entryName, h]

namespace Memory

variable {w : Memory} {pid : ℕ}

theorem names_leaf {n : ℕ} (h : (w.tables pid 0 n).present = true) : w.names (.node pid 0 n)
      = some ((w.tables pid 0 n).frame, if (w.tables pid 0 n).cow then .cow else .plain) := by
  simp [names, entryName_leaf h]

theorem names_kernel {level p f : ℕ} {k : Mark} : w.names (.kernel level p) = some (f, k) ↔
    (w.kernel level p).NamesFrame level ∧ (w.kernel level p).frame = f ∧ k = .own := by
  rw [names]
  split
  · rename_i hp
    rw [Option.some_inj, Prod.mk.injEq]
    exact ⟨fun h => ⟨hp, h.1, h.2.symm⟩, fun h => ⟨h.2.1, h.2.2.symm⟩⟩
  · rename_i hp
    exact ⟨fun h => absurd h (by simp), fun h => absurd h.1 hp⟩

theorem names_kernel_leaf {n : ℕ} (h : (w.kernel 0 n).present = true) :
    w.names (.kernel 0 n) = some ((w.kernel 0 n).frame, .own) :=
  names_kernel.mpr ⟨⟨h, .inl rfl⟩, rfl, rfl⟩

@[simp] theorem setTable_self (w : Memory) (pid : ℕ) (pt : PageTable) :
    (w.setTable pid pt).tables pid = pt := by
  simp [setTable]

theorem setTable_ne (w : Memory) {pid q : ℕ} (pt : PageTable) (h : q ≠ pid) :
    (w.setTable pid pt).tables q = w.tables q := by
  simp [setTable, h]

/-- Two memories name the same when the four things that name agree. -/
theorem names_congr {v : Memory} (hroots : v.roots = w.roots)
    (hpages : v.pages = w.pages) (hker : v.kernel = w.kernel)
    (htable : ∀ pid level p, level ≤ 3 →
      entryName level (v.tables pid level p) = entryName level (w.tables pid level p)) :
    v.names = w.names := by
  funext r
  cases r with
  | root pid => simp only [names, hroots]
  | node pid level p =>
    simp only [names]
    split
    · rename_i hl
      exact htable pid level p hl
    · rfl
  | pool p i => simp only [names, hpages]
  | kernel level p => simp only [names, hker]

/-- Writing entries of one table, so that only one of them changes its name. -/
theorem names_setTable (w : Memory) (pid : ℕ) (pt : PageTable) (level p : ℕ) (hl : level ≤ 3)
    (hother : ∀ l q, l ≤ 3 → ¬ (l = level ∧ q = p) →
      entryName l (pt l q) = entryName l (w.tables pid l q)) :
    (w.setTable pid pt).names
      = Function.update w.names (.node pid level p) (entryName level (pt level p)) := by
  funext r
  by_cases hr : r = .node pid level p
  · subst hr
    simp [names, hl]
  rw [Function.update_of_ne hr]
  cases r with
  | root q => rfl
  | pool q i => rfl
  | kernel l p' => rfl
  | node q l p' =>
    simp only [names]
    split
    · rename_i hl'
      by_cases hq : q = pid
      · subst hq
        rw [setTable_self]
        exact hother l p' hl' fun ⟨h1, h2⟩ => hr (by rw [h1, h2])
      · rw [setTable_ne w pt hq]
    · rfl

theorem names_setLeaf (w : Memory) (pid n : ℕ) (leaf : Entry) :
    (w.setTable pid ((w.tables pid).setLeaf n leaf)).names
      = Function.update w.names (.node pid 0 n) (entryName 0 leaf) := by
  have h := w.names_setTable pid ((w.tables pid).setLeaf n leaf) 0 n (by omega)
    (fun l q _ hne => by simp only [PageTable.setLeaf, if_neg hne])
  rwa [PageTable.setLeaf_self] at h

/-- A table hung under an absent slot of a closed table names its frame, and the
entries it clears named nothing. -/
theorem names_link (w : Memory) (pid : ℕ) {level p : ℕ} (slot : Entry)
    (hc : (w.tables pid).Closed) (h1 : 1 ≤ level) (h3 : level ≤ 3)
    (habs : (w.tables pid level p).present = false) :
    (w.setTable pid ((w.tables pid).link level p slot)).names
      = Function.update w.names (.node pid level p) (entryName level slot) := by
  have h := w.names_setTable pid ((w.tables pid).link level p slot) level p h3 (fun l q _ hne => by
      simp only [PageTable.link, if_neg hne]
      split
      · -- an entry under the absent slot was absent itself
        rename_i hunder
        have hq : (w.tables pid l q).present = false := by
          by_contra hq
          have := (hc l q (by omega) (by simpa using hq)).1
          rw [hunder.1, hunder.2, habs] at this
          cases this
        rw [entryName_absent hq, entryName_absent rfl]
      · rfl)
  rwa [link_self] at h

end Memory

/-! ### Well-formed tables -/

/-- The user half of a root: closed, without large leaves, inside the half, and
with nothing above the leaves that would forbid a user access. -/
structure TableOk (pt : PageTable) : Prop where
  closed : pt.Closed
  small : ∀ level p, (pt level p).large = false
  inside : ∀ level p, level ≤ 3 → (pt level p).present = true → p < kUserPages / 512 ^ level
  open_above : ∀ level p, 1 ≤ level → (pt level p).present = true →
    (pt level p).user = true ∧ (pt level p).writable = true

theorem tableOk_blank : TableOk blank :=
  ⟨fun _ _ _ h => absurd h (by simp [blank]), fun _ _ => rfl,
    fun _ _ _ h => absurd h (by simp [blank]),
    fun _ _ _ h => absurd h (by simp [blank])⟩

theorem TableOk.setLeaf (h : TableOk pt) {n : ℕ} (hr : pt.Reaches n) (hn : n < kUserPages)
    (hsmall : leaf.large = false) :
    TableOk (pt.setLeaf n leaf) := by
  refine ⟨h.closed.setLeaf hr, fun level p => ?_, fun level p hl hp => ?_, fun level p hl hp => ?_⟩
  · simp only [PageTable.setLeaf]
    split
    · exact hsmall
    · exact h.small level p
  · by_cases hat : level = 0 ∧ p = n
    · obtain ⟨rfl, rfl⟩ := hat
      simpa using hn
    · simp only [PageTable.setLeaf, if_neg hat] at hp
      exact h.inside level p hl hp
  · obtain ⟨l, rfl⟩ : ∃ l, level = l + 1 := ⟨level - 1, by omega⟩
    exact h.open_above (l + 1) p hl hp

/-- Hanging a table under an absent slot changes that slot; the entries it
clears were absent already. -/
theorem link_cases (hc : pt.Closed) {level p : ℕ} (slot : Entry) (h3 : level ≤ 3)
    (habs : (pt level p).present = false) {l q : ℕ} (hne : ¬ (l = level ∧ q = p)) :
    pt.link level p slot l q = pt l q ∨
      pt.link level p slot l q = {} ∧ (pt l q).present = false := by
  unfold PageTable.link
  rw [if_neg hne]
  by_cases hunder : l + 1 = level ∧ q / 512 = p
  · rw [if_pos hunder]
    refine .inr ⟨rfl, ?_⟩
    by_contra hq
    have := (hc l q (by omega) (by simpa using hq)).1
    rw [hunder.1, hunder.2, habs] at this
    nomatch this
  · rw [if_neg hunder]
    exact .inl rfl

theorem TableOk.link (h : TableOk pt) {level p frame : ℕ} (h3 : level ≤ 3)
    (hp : p < kUserPages / 512 ^ level) (habs : (pt level p).present = false)
    (hparent : level < 3 →
      (pt (level + 1) (p / 512)).present = true ∧ (pt (level + 1) (p / 512)).large = false) :
    TableOk (pt.link level p (tableEntry frame)) := by
  have hself := link_self pt level p (tableEntry frame)
  have hcases := fun l q => @link_cases pt h.closed level p (tableEntry frame) h3 habs l q
  -- a present entry other than the new one is an old one
  have hold : ∀ l q, ¬ (l = level ∧ q = p) →
      (pt.link level p (tableEntry frame) l q).present = true →
      pt.link level p (tableEntry frame) l q = pt l q := by
    intro l q hne hq
    rcases hcases l q hne with he | ⟨he, -⟩
    · exact he
    · rw [he] at hq
      nomatch hq
  refine ⟨fun l q hl hq => ?_, fun l q => ?_, fun l q hl hq => ?_, fun l q hl hq => ?_⟩
  · -- the parent is the new table, or it was there before
    by_cases hup : l + 1 = level ∧ q / 512 = p
    · rw [hup.1, hup.2, hself]
      exact ⟨rfl, rfl⟩
    have hpar : (pt (l + 1) (q / 512)).present = true ∧ (pt (l + 1) (q / 512)).large = false := by
      by_cases hat : l = level ∧ q = p
      · obtain ⟨rfl, rfl⟩ := hat
        exact hparent hl
      · have he := hold l q hat hq
        rw [he] at hq
        exact h.closed l q hl hq
    rcases hcases (l + 1) (q / 512) hup with he | ⟨-, he⟩
    · rwa [he]
    · rw [hpar.1] at he
      nomatch he
  · by_cases hat : l = level ∧ q = p
    · rw [hat.1, hat.2, hself]
      rfl
    rcases hcases l q hat with he | ⟨he, -⟩
    · rw [he]
      exact h.small l q
    · rw [he]
  · by_cases hat : l = level ∧ q = p
    · rw [hat.1, hat.2]
      exact hp
    · have he := hold l q hat hq
      rw [he] at hq
      exact h.inside l q hl hq
  · by_cases hat : l = level ∧ q = p
    · rw [hat.1, hat.2, hself]
      exact ⟨rfl, rfl⟩
    · have he := hold l q hat hq
      rw [he] at hq ⊢
      exact h.open_above l q hl hq

/-- The kernel half: closed, with the tables it had at boot. -/
structure KernelOk (boot : ℕ → Bool) (kernel : PageTable) : Prop where
  closed : kernel.Closed
  tables : ∀ level p, 1 ≤ level → (kernel level p).NamesFrame level →
    boot (kernel level p).frame = true

theorem KernelOk.setLeaf {boot : ℕ → Bool} (h : KernelOk boot pt) {n : ℕ} (hr : pt.Reaches n) :
    KernelOk boot (pt.setLeaf n leaf) := by
  refine ⟨h.closed.setLeaf hr, fun level p h1 hp => ?_⟩
  obtain ⟨l, rfl⟩ : ∃ l, level = l + 1 := ⟨level - 1, by omega⟩
  exact h.tables (l + 1) p h1 hp

/-! ### Leaves and the invariant -/

/-- The leaf is one the promise allows, and its frame is in the use the promise
calls for. -/
structure LeafOk (use : ℕ → Use) (p : Promise) (leaf : Entry) : Prop where
  writable : leaf.writable = true → p.terms.writable = true
  executable : leaf.noExec = false → p.terms.executable = true
  ready : p.terms.writable = true → leaf.user = true ∧ (leaf.writable = true ∨ leaf.cow = true)
  marked : leaf.cow = true → leaf.writable = false
  device : p.kind = .device → use leaf.frame = .foreign
  segment : p.kind ≠ .device → p.shared.isSome = true → use leaf.frame = .pooled
  priv : p.kind ≠ .device → p.shared = none → use leaf.frame = .priv

/-- What is known of the leaf of page `n` in the space of `pid`. -/
structure LeafFact (use : ℕ → Use) (promised : ℕ → ℕ → Option Promise) (w : Memory)
    (pid n : ℕ) : Prop where
  allowed : ∃ p, promised pid (n * kSize) = some p ∧ LeafOk use p (w.tables pid 0 n)
  content : use (w.tables pid 0 n).frame = .priv → ∀ i, i < kSize →
    recalled w.history pid (n * kSize + i) = some (w.bytes (w.tables pid 0 n).frame i)

/-- The invariant of a memory under what is promised at each address. -/
structure Good (hw : Hardware) (boot : ℕ → Bool) (promised : ℕ → ℕ → Option Promise)
    (hand : Option ℕ) (use : ℕ → Use) (w : Memory) : Prop where
  kept : Kept hw boot hand use w.pmm w.names
  tables : ∀ pid, TableOk (w.tables pid)
  kernel : KernelOk boot w.kernel
  rootless : ∀ pid, w.roots pid = none → w.tables pid = PageTable.blank
  leaves : ∀ pid n, (w.tables pid 0 n).present = true → LeafFact use promised w pid n

variable {hw : Hardware} {boot : ℕ → Bool} {promised promised' : ℕ → ℕ → Option Promise}
  {hand hand' : Option ℕ} {use use' : ℕ → Use} {w v : Memory}

theorem LeafOk.congr {p : Promise} (h : LeafOk use p leaf) (huse : use' leaf.frame = use leaf.frame)
    : LeafOk use' p leaf :=
  ⟨h.writable, h.executable, h.ready, h.marked, fun h1 => by rw [huse, h.device h1],
    fun h1 h2 => by rw [huse, h.segment h1 h2], fun h1 h2 => by rw [huse, h.priv h1 h2]⟩

/-- A leaf on a private frame lies in private memory. -/
theorem LeafOk.of_priv {p : Promise} (h : LeafOk use p leaf) (hpriv : use leaf.frame = .priv) :
    p.kind ≠ .device ∧ p.shared = none := by
  have hdev : p.kind ≠ .device := by
    intro hdev
    rw [h.device hdev] at hpriv
    nomatch hpriv
  refine ⟨hdev, ?_⟩
  by_contra hne
  rw [h.segment hdev (Option.isSome_iff_ne_none.mpr hne)] at hpriv
  nomatch hpriv

namespace Good

section

variable (h : Good hw boot promised hand use w)

include h

/-- The invariant survives a change that keeps the ledger and the tables, if
every present leaf is new and good or is an old one whose frame, bytes and due
bytes stand. -/
theorem step (hkept : Kept hw boot hand' use' v.pmm v.names) (hmoves : Moves use use')
    (htable : ∀ pid, TableOk (v.tables pid)) (hker : KernelOk boot v.kernel)
    (hrootless : ∀ pid, v.roots pid = none → v.tables pid = blank)
    (hby : ∀ f, use f ≠ .idle → use f ≠ .held → v.bytes f = w.bytes f)
    (hleaf : ∀ pid n, (v.tables pid 0 n).present = true →
      LeafFact use' promised v pid n ∨ (v.tables pid 0 n = w.tables pid 0 n ∧
        ∀ i, i < kSize → recalled v.history pid (n * kSize + i)
          = recalled w.history pid (n * kSize + i))) :
    Good hw boot promised hand' use' v := by
  refine ⟨hkept, htable, hker, hrootless, fun pid n hp => ?_⟩
  rcases hleaf pid n hp with hnew | ⟨hsame, hrec⟩
  · exact hnew
  -- an old leaf: its frame is named before and after, so its use stands
  have hp' : (w.tables pid 0 n).present = true := by rwa [← hsame]
  have hname := w.names_leaf hp'
  have hname' := v.names_leaf hp
  rw [hsame] at hname'
  obtain ⟨hid, hheld⟩ := h.kept.use_of_names hname
  -- a frame named before and after keeps its use
  have huse : use' (w.tables pid 0 n).frame = use (w.tables pid 0 n).frame := by
    rcases hmoves (w.tables pid 0 n).frame with hf | hf | hf | hf
    · exact hf
    · exact absurd hf hid
    · exact absurd hf hheld
    · exact absurd hf (hkept.use_of_names hname').1
  obtain ⟨⟨p, hprom, hok⟩, hcon⟩ := h.leaves pid n hp'
  refine ⟨⟨p, hprom, ?_⟩, fun hpriv i hi => ?_⟩
  · rw [hsame]
    exact hok.congr huse
  · rw [hsame] at hpriv ⊢
    rw [huse] at hpriv
    rw [hrec i hi, hby _ hid hheld]
    exact hcon hpriv i hi

/-- The promises may be replaced where no leaf is, and elsewhere by ones that
still allow the leaf. -/
theorem promise
    (hnew : ∀ pid n p, (w.tables pid 0 n).present = true → promised pid (n * kSize) = some p →
      LeafOk use p (w.tables pid 0 n) →
      ∃ p', promised' pid (n * kSize) = some p' ∧ LeafOk use p' (w.tables pid 0 n)) :
    Good hw boot promised' hand use w := by
  refine ⟨h.kept, h.tables, h.kernel, h.rootless, fun pid n hp => ?_⟩
  obtain ⟨⟨p, hprom, hok⟩, hcon⟩ := h.leaves pid n hp
  exact ⟨hnew pid n p hp hprom hok, hcon⟩

/-- Another register for a task, where it promises the same at every leaf. -/
theorem reregister {pid : ℕ} {view : ℕ → Option Promise}
    (hview : ∀ n p, (w.tables pid 0 n).present = true → promised pid (n * kSize) = some p →
      view (n * kSize) = some p) : Good hw boot (Function.update promised pid view) hand use w := by
  refine h.promise fun q n p hp hprom hok => ⟨p, ?_, hok⟩
  by_cases hq : q = pid
  · subst hq
    rw [Function.update_self]
    exact hview n p hp hprom
  · rw [Function.update_of_ne hq]
    exact hprom

section

variable {pid n : ℕ} (hp : (w.tables pid 0 n).present = true)
include hp

theorem leaf_lt : (w.tables pid 0 n).frame < 2 ^ 40 :=
  h.kept.named_lt (w.names_leaf hp)

theorem page_lt : n < kUserPages := by
  simpa using (h.tables pid).inside 0 n (by omega) hp

end

end

end Good

end Cinux
