/-
Programs over a refusing store.

A program asks a store of bytes for windows and hands it patches, and keeps some
memory of its own.  Every access may be refused, and the program sees that.  The
same program is given two meanings.

* `exec` — nothing is refused; `patches` lists what reaches the store;
* `stage` — a pattern says which accesses are refused, by their order, and patches go
  to private page copies, which `transact` publishes together, or drops and puts the
  saved memory back.

The meanings are tied together once, for every program.

* `transact_published`, `transact_dropped` — what a transaction publishes is what
  `exec` leaves, and what it does not publish leaves nothing.
-/
import Mathlib

namespace Storage

open List

/-- Memory of which a dropped transaction puts back what it has saved. -/
class Saved (σ : Type) where
  /-- The parts that were saved, and the rest of what there is now. -/
  restore : σ → σ → σ
  restore_self : ∀ m, restore m m = m

/-- A change of the saved parts only. -/
structure Change (σ : Type) [Saved σ] where
  act : σ → σ
  restored : ∀ saved m, Saved.restore saved (act m) = Saved.restore saved m

theorem Saved.restored_id {σ : Type} [Saved σ] (saved m : σ) :
    Saved.restore saved (id m) = Saved.restore saved m := rfl

/-- Looking at the memory. -/
def Change.none {σ : Type} [Saved σ] : Change σ := ⟨id, Saved.restored_id⟩

/-- A program over a store, with memory `σ` and result `α`.  Spots are addresses
of bytes; `note` changes the memory and goes on with what it has become. -/
inductive Prog (σ : Type) [Saved σ] (α : Type) where
  | done (a : α)
  | read (spot bytes : ℕ) (next : Option (ℕ → UInt8) → Prog σ α)
  | patch (spot offset bytes : ℕ) (source : ℕ → UInt8) (next : Bool → Prog σ α)
  | note (f : Change σ) (next : σ → Prog σ α)

namespace Prog

variable {σ α β : Type} [Saved σ]

/-- One program after the other. -/
def bind : Prog σ α → (α → Prog σ β) → Prog σ β
  | done a, f => f a
  | read spot bytes next, f => read spot bytes fun r => (next r).bind f
  | patch spot offset bytes source next, f =>
    patch spot offset bytes source fun r => (next r).bind f
  | note g next, f => note g fun m => (next m).bind f

instance : Monad (Prog σ) where
  pure := done
  bind := bind

end Prog

/-- A store and the memory kept over it. -/
@[ext] structure Disk (σ : Type) where
  bytes : ℕ → UInt8
  mem : σ

/-- A buffer filled from the store: nothing is seen past its end. -/
def window (m : ℕ → UInt8) (spot n : ℕ) : ℕ → UInt8 :=
  fun i => if i < n then m (spot + i) else 0

/-- The store with `n` bytes from `a` on taken from a buffer. -/
def splice (m : ℕ → UInt8) (a n : ℕ) (source : ℕ → UInt8) : ℕ → UInt8 :=
  fun x => if a ≤ x ∧ x < a + n then source (x - a) else m x

/-- An access stays within the page its spot is in. -/
def Fits (page spot offset bytes : ℕ) : Prop := spot % page + offset + bytes ≤ page

instance (page spot offset bytes : ℕ) : Decidable (Fits page spot offset bytes) :=
  inferInstanceAs (Decidable (_ ≤ _))

section

variable {σ α β : Type} [Saved σ] (page : ℕ)

/-! ### Nothing is refused -/

/-- The meaning of a program whose accesses are all taken. -/
def exec : Prog σ α → Disk σ → α × Disk σ
  | .done a, d => (a, d)
  | .read spot bytes next, d =>
    exec (next (if Fits page spot 0 bytes then some (window d.bytes spot bytes) else none)) d
  | .patch spot offset bytes source next, d =>
    if Fits page spot offset bytes then
      exec (next true) { d with bytes := splice d.bytes (spot + offset) bytes source }
    else exec (next false) d
  | .note f next, d => exec (next (f.act d.mem)) { d with mem := f.act d.mem }

/-- A patch that reached the store. -/
structure Patch where
  spot : ℕ
  offset : ℕ
  bytes : ℕ
deriving DecidableEq

/-- The patches a program makes where nothing is refused, in order. -/
def patches : Prog σ α → Disk σ → List Patch
  | .done _, _ => []
  | .read spot bytes next, d =>
    patches (next (if Fits page spot 0 bytes then some (window d.bytes spot bytes) else none)) d
  | .patch spot offset bytes source next, d =>
    if Fits page spot offset bytes then
      ⟨spot, offset, bytes⟩ ::
        patches (next true) { d with bytes := splice d.bytes (spot + offset) bytes source }
    else patches (next false) d
  | .note f next, d => patches (next (f.act d.mem)) { d with mem := f.act d.mem }

/-! ### Private copies -/

/-- The private copy of one page. -/
structure Page where
  number : ℕ
  bytes : ℕ → UInt8

/-- The pages a batch has copied, and whether it has met a refusal. -/
structure Batch where
  pages : List Page
  failed : Bool

/-- The batch's copy of a page. -/
def Batch.find (b : Batch) (number : ℕ) : Option Page :=
  b.pages.find? fun p => p.number = number

/-- The store as a batch shows it. -/
def Batch.over (b : Batch) (m : ℕ → UInt8) : ℕ → UInt8 :=
  fun x =>
    match b.find (x / page) with
    | some p => p.bytes (x % page)
    | none => m x

/-- The batch with other bytes in the copy of a page. -/
def Batch.write (b : Batch) (number : ℕ) (f : (ℕ → UInt8) → ℕ → UInt8) : Batch :=
  { b with pages := b.pages.map fun p =>
      if p.number = number then { p with bytes := f p.bytes } else p }

/-- The meaning of a program whose patches are kept aside.  Only an access that meets no
private copy reaches the store, and the pattern may refuse it; a refusal spoils the batch, and a
spoilt batch refuses. -/
def stage (refuses : ℕ → Bool) (store : ℕ → UInt8) :
    Prog σ α → ℕ → Batch → σ → α × ℕ × Batch × σ
  | .done a, k, b, m => (a, k, b, m)
  | .read spot bytes next, k, b, m =>
    if b.failed ∨ ¬ Fits page spot 0 bytes then
      stage refuses store (next none) k { b with failed := true } m
    else
      match b.find (spot / page) with
      | some p => stage refuses store (next (some (window p.bytes (spot % page) bytes))) k b m
      | none =>
        if refuses k then stage refuses store (next none) (k + 1) { b with failed := true } m
        else stage refuses store (next (some (window store spot bytes))) (k + 1) b m
  | .patch spot offset bytes source next, k, b, m =>
    if b.failed ∨ ¬ Fits page spot offset bytes then
      stage refuses store (next false) k { b with failed := true } m
    else
      match b.find (spot / page) with
      | some _ =>
        stage refuses store (next true) k
          (b.write (spot / page) fun old => splice old (spot % page + offset) bytes source) m
      | none =>
        if refuses k then stage refuses store (next false) (k + 1) { b with failed := true } m
        else
          -- the first patch into a page copies the whole of it
          let fresh : Page :=
            ⟨spot / page, splice (window store (spot / page * page) page)
              (spot % page + offset) bytes source⟩
          stage refuses store (next true) (k + 1) { b with pages := b.pages ++ [fresh] } m
  | .note f next, k, b, m => stage refuses store (next (f.act m)) k b (f.act m)

/-- A place for every page of a batch, claimed one after the other. -/
def claim (refuses : ℕ → Bool) : ℕ → ℕ → Bool × ℕ
  | k, 0 => (true, k)
  | k, n + 1 => if refuses k then (false, k + 1) else claim refuses (k + 1) n

/-- Publishing a batch: all of it, or nothing. -/
def commit (refuses : ℕ → Bool) (k : ℕ) (b : Batch) (store : ℕ → UInt8) :
    Bool × (ℕ → UInt8) :=
  if b.failed then (false, store)
  else if (claim refuses k b.pages.length).1 then (true, b.over page store)
  else (false, store)

/-- A transaction runs its program on private copies.  Where the result asks for it the
copies are published; where they are not, they are dropped and the saved memory goes back. -/
def transact (refuses : ℕ → Bool) (keep : α → Bool) (p : Prog σ α) (d : Disk σ) :
    α × Bool × Disk σ :=
  let (a, k, b, m) := stage page refuses d.bytes p 0 ⟨[], false⟩ d.mem
  let (published, bytes) :=
    if keep a then commit page refuses k b d.bytes else (false, d.bytes)
  (a, published, if published then ⟨bytes, m⟩ else ⟨d.bytes, Saved.restore d.mem m⟩)

end

/-! ### The meanings of a sequence -/

section

variable {σ α β : Type} [Saved σ] {page : ℕ}

section

variable (p : Prog σ α) (f : α → Prog σ β) (d : Disk σ)

@[simp] theorem exec_bind :
    exec page (p >>= f) d = exec page (f (exec page p d).1) (exec page p d).2 := by
  show exec page (p.bind f) d = _
  induction p generalizing d with
  | done a => rfl
  | read spot bytes next ih => exact ih _ d
  | patch spot offset bytes source next ih =>
    simp only [Prog.bind, exec]
    split
    · exact ih true _
    · exact ih false d
  | note g next ih => exact ih _ _

@[simp] theorem patches_bind :
    patches page (p >>= f) d
      = patches page p d ++ patches page (f (exec page p d).1) (exec page p d).2 := by
  show patches page (p.bind f) d = _
  induction p generalizing d with
  | done a => rfl
  | read spot bytes next ih => exact ih _ d
  | patch spot offset bytes source next ih =>
    simp only [Prog.bind, patches, exec]
    split
    · rw [ih true _, cons_append]
    · exact ih false d
  | note g next ih => exact ih _ _

end

/-- Every patch of a program is of some kind, wherever the memory is as it should be, and the
memory stays so. -/
def Tame (page : ℕ) (ok : σ → Prop) (good : Patch → Prop) (p : Prog σ α) : Prop :=
  ∀ d : Disk σ, ok d.mem → (∀ x ∈ patches page p d, good x) ∧ ok (exec page p d).2.mem

variable {ok : σ → Prop} {good : Patch → Prop}

theorem Tame.pure (a : α) : Tame page ok good (Pure.pure a : Prog σ α) :=
  fun _ h => ⟨fun _ hx => absurd hx not_mem_nil, h⟩

theorem Tame.bind {p : Prog σ α} {f : α → Prog σ β} (hp : Tame page ok good p)
    (hf : ∀ a, Tame page ok good (f a)) : Tame page ok good (p >>= f) := by
  intro d h
  obtain ⟨h1, h2⟩ := hp d h
  obtain ⟨h3, h4⟩ := hf (exec page p d).1 (exec page p d).2 h2
  rw [patches_bind, exec_bind]
  refine ⟨fun x hx => ?_, h4⟩
  rcases mem_append.mp hx with hx | hx
  · exact h1 x hx
  · exact h3 x hx

/-- A program that only looks. -/
def Quiet (page : ℕ) (p : Prog σ α) : Prop :=
  ∀ d : Disk σ, (exec page p d).2 = d ∧ patches page p d = []

theorem Quiet.pure (a : α) : Quiet page (Pure.pure a : Prog σ α) := fun _ => ⟨rfl, rfl⟩

theorem Quiet.bind {p : Prog σ α} {f : α → Prog σ β} (hp : Quiet page p)
    (hf : ∀ a, Quiet page (f a)) : Quiet page (p >>= f) := by
  intro d
  obtain ⟨h1, h2⟩ := hp d
  obtain ⟨h3, h4⟩ := hf (exec page p d).1 (exec page p d).2
  rw [exec_bind, patches_bind, h2, h4, h3, h1]
  exact ⟨rfl, rfl⟩

theorem Quiet.tame {p : Prog σ α} (hp : Quiet page p) : Tame page ok good p := by
  intro d h
  obtain ⟨h1, h2⟩ := hp d
  rw [h1, h2]
  exact ⟨fun _ hx => absurd hx not_mem_nil, h⟩

end

/-! ### Transactions -/

section

variable {σ α : Type} [Saved σ] {page : ℕ} {refuses : ℕ → Bool} {store : ℕ → UInt8}

/-- A batch once spoilt stays so. -/
theorem stage_failed (p : Prog σ α) (k : ℕ) (b : Batch) (m : σ) (h : b.failed = true) :
    (stage page refuses store p k b m).2.2.1.failed = true := by
  induction p generalizing k b m with
  | done a => exact h
  | read spot bytes next ih =>
    simp only [stage, h]
    exact ih _ _ _ _ rfl
  | patch spot offset bytes source next ih =>
    simp only [stage, h]
    exact ih _ _ _ _ rfl
  | note g next ih => exact ih _ _ _ _ h

variable {b : Batch} {p : Page} {spot offset bytes : ℕ} {source : ℕ → UInt8}

theorem within_page {i : ℕ} (h : spot % page + i < page) :
    (spot + i) / page = spot / page ∧ (spot + i) % page = spot % page + i := by
  have hsplit : spot + i = page * (spot / page) + (spot % page + i) := by
    rw [← Nat.add_assoc, Nat.div_add_mod]
  rw [hsplit, Nat.mul_add_div (by omega), Nat.mul_add_mod, Nat.div_eq_of_lt h, Nat.mod_eq_of_lt h]
  exact ⟨rfl, rfl⟩

/-- A private copy shows what the batch shows of its page. -/
theorem window_over (store : ℕ → UInt8) (hfits : Fits page spot 0 bytes)
    (hp : b.find (spot / page) = some p) :
    window p.bytes (spot % page) bytes = window (b.over page store) spot bytes := by
  funext i
  simp only [window]
  by_cases hi : i < bytes
  · have hin : spot % page + i < page := by
      unfold Fits at hfits
      omega
    obtain ⟨hpage, hmod⟩ := within_page hin
    rw [if_pos hi, if_pos hi, Batch.over, hpage, hp, hmod]
  · rw [if_neg hi, if_neg hi]

theorem window_over_none (store : ℕ → UInt8) (hfits : Fits page spot 0 bytes)
    (hp : b.find (spot / page) = none) :
    window store spot bytes = window (b.over page store) spot bytes := by
  funext i
  simp only [window]
  by_cases hi : i < bytes
  · have hin : spot % page + i < page := by
      unfold Fits at hfits
      omega
    rw [if_pos hi, if_pos hi, Batch.over, (within_page hin).1, hp]
  · rw [if_neg hi, if_neg hi]

/-- A patch within one page, seen from the page and from the store. -/
theorem splice_page (old m : ℕ → UInt8) (x : ℕ)
    (hpage : x / page = spot / page) (hx : old (x % page) = m x) :
    splice old (spot % page + offset) bytes source (x % page)
      = splice m (spot + offset) bytes source x := by
  have h1 := Nat.div_add_mod x page
  have h2 := Nat.div_add_mod spot page
  rw [hpage] at h1
  simp only [splice]
  by_cases hin : spot + offset ≤ x ∧ x < spot + offset + bytes
  · rw [if_pos hin, if_pos (by omega)]
    exact congrArg source (by omega)
  · rw [if_neg hin, if_neg (by omega), hx]

theorem splice_off_page (hfits : Fits page spot offset bytes) (m : ℕ → UInt8) (x : ℕ)
    (hpage : x / page ≠ spot / page) : splice m (spot + offset) bytes source x = m x := by
  refine if_neg fun hin => hpage ?_
  unfold Fits at hfits
  -- the address lies between the spot and the end of the spot's page
  obtain ⟨i, rfl⟩ : ∃ i, x = spot + i := ⟨x - spot, by omega⟩
  exact (within_page (by omega)).1

theorem find_write (n m : ℕ) (f : (ℕ → UInt8) → ℕ → UInt8) :
    (b.write n f).find m = (b.find m).map fun p =>
      if p.number = n then { p with bytes := f p.bytes } else p := by
  simp only [Batch.find, Batch.write, find?_map]
  congr 1
  refine congrArg (fun q => List.find? q b.pages) (funext fun p => ?_)
  simp only [Function.comp]
  split <;> rfl

theorem number_of_find {n : ℕ} (h : b.find n = some p) : p.number = n := by
  simpa using find?_some h

theorem over_write (hfits : Fits page spot offset bytes) (hp : b.find (spot / page) = some p) :
    (b.write (spot / page) fun old =>
        splice old (spot % page + offset) bytes source).over page store
      = splice (b.over page store) (spot + offset) bytes source := by
  funext x
  rw [Batch.over, find_write]
  by_cases hpage : x / page = spot / page
  · rw [hpage, hp, Option.map_some, if_pos (number_of_find hp)]
    exact splice_page _ _ x hpage (by rw [Batch.over, hpage, hp])
  rw [splice_off_page hfits _ x hpage, Batch.over]
  cases hx : b.find (x / page) with
  | none => rfl
  | some q =>
    rw [Option.map_some, if_neg (by rw [number_of_find hx]; exact hpage)]

theorem over_fresh (hfits : Fits page spot offset bytes) (hpos : 0 < page)
    (hp : b.find (spot / page) = none) :
    Batch.over page { b with pages := b.pages ++
        [⟨spot / page, splice (window store (spot / page * page) page) (spot % page + offset) bytes
          source⟩] } store
      = splice (b.over page store) (spot + offset) bytes source := by
  funext x
  have hfind : ∀ n, Batch.find { b with pages := b.pages ++ [⟨spot / page,
        splice (window store (spot / page * page) page) (spot % page + offset) bytes source⟩] } n
      = (b.find n).or (if spot / page = n then some ⟨spot / page,
        splice (window store (spot / page * page) page) (spot % page + offset) bytes source⟩
        else none) := by
    intro n
    simp only [Batch.find, find?_append, find?_singleton, decide_eq_true_eq]
  rw [Batch.over, hfind]
  by_cases hpage : x / page = spot / page
  · rw [hpage, hp, if_pos rfl]
    refine splice_page _ _ x hpage ?_
    rw [Batch.over, hpage, hp, window, if_pos (Nat.mod_lt x hpos), ← hpage]
    exact congrArg store (by rw [Nat.mul_comm]; exact Nat.div_add_mod x page)
  · rw [splice_off_page hfits _ x hpage, Batch.over, if_neg (Ne.symm hpage)]
    cases b.find (x / page) <;> rfl

/-- Where a batch ends unspoilt, its program has met no refusal: it has done what it does on
the store the batch shows. -/
theorem stage_exec (refuses : ℕ → Bool) (store : ℕ → UInt8) (hpos : 0 < page) (q : Prog σ α) :
    ∀ (k : ℕ) (b : Batch) (m : σ),
    (stage page refuses store q k b m).2.2.1.failed = false →
    exec page q ⟨b.over page store, m⟩ = ((stage page refuses store q k b m).1,
      ⟨(stage page refuses store q k b m).2.2.1.over page store,
        (stage page refuses store q k b m).2.2.2⟩) := by
  -- along the program: the batch over the store shows what running it would have left
  induction q with
  | done a => exact fun k b m _ => rfl
  | read spot bytes next ih =>
    intro k b m hend
    simp only [stage, exec] at hend ⊢
    by_cases hbad : b.failed = true ∨ ¬ Fits page spot 0 bytes
    · rw [if_pos hbad, stage_failed _ _ _ _ rfl] at hend
      cases hend
    rw [if_neg hbad] at hend ⊢
    have hfits : Fits page spot 0 bytes := by
      by_contra hc
      exact hbad (.inr hc)
    rw [if_pos hfits]
    cases hp : b.find (spot / page) with
    | some p =>
      simp only [hp] at hend ⊢
      -- the batch has the page: its copy is read
      rw [window_over store hfits hp] at hend ⊢
      exact ih _ k b m hend
    | none =>
      simp only [hp] at hend ⊢
      by_cases hk : refuses k = true
      · rw [if_pos hk, stage_failed _ _ _ _ rfl] at hend
        cases hend
      rw [if_neg hk] at hend ⊢
      rw [window_over_none store hfits hp] at hend ⊢
      exact ih _ (k + 1) b m hend
  | patch spot offset bytes source next ih =>
    intro k b m hend
    simp only [stage, exec] at hend ⊢
    by_cases hbad : b.failed = true ∨ ¬ Fits page spot offset bytes
    · rw [if_pos hbad, stage_failed _ _ _ _ rfl] at hend
      cases hend
    rw [if_neg hbad] at hend ⊢
    have hfits : Fits page spot offset bytes := by
      by_contra hc
      exact hbad (.inr hc)
    rw [if_pos hfits]
    cases hp : b.find (spot / page) with
    | some p =>
      simp only [hp] at hend ⊢
      rw [← over_write hfits hp]
      exact ih _ k _ m hend
    | none =>
      simp only [hp] at hend ⊢
      by_cases hk : refuses k = true
      · rw [if_pos hk, stage_failed _ _ _ _ rfl] at hend
        cases hend
      rw [if_neg hk] at hend ⊢
      -- the first patch of a page copies it
      rw [← over_fresh hfits hpos hp]
      exact ih _ (k + 1) _ m hend
  | note g next ih => exact fun k b m hend => ih _ k b _ hend

variable {keep : α → Bool} {q : Prog σ α} {d : Disk σ}

/-- A staged sequence goes on where its first part left off. -/
theorem stage_bind {β : Type} (page : ℕ) (refuses : ℕ → Bool) (store : ℕ → UInt8) (p : Prog σ β)
    (f : β → Prog σ α) (k : ℕ) (b : Batch) (m : σ) :
    stage page refuses store (p >>= f) k b m =
      stage page refuses store (f (stage page refuses store p k b m).1)
        (stage page refuses store p k b m).2.1 (stage page refuses store p k b m).2.2.1
        (stage page refuses store p k b m).2.2.2 := by
  show stage page refuses store (p.bind f) k b m = _
  induction p generalizing k b m with
  | done a => rfl
  | note g next ih => exact ih _ _ _ _
  | _ =>
    rename_i ih
    simp only [Prog.bind, stage]
    repeat' split
    all_goals exact ih _ _ _ _

/-- What a transaction publishes is what its program leaves where nothing is refused. -/
theorem transact_published (hpos : 0 < page) (h : (transact page refuses keep q d).2.1 = true) :
    keep (transact page refuses keep q d).1 = true ∧
    exec page q d = ((transact page refuses keep q d).1, (transact page refuses keep q d).2.2) := by
  have hstage := stage_exec refuses d.bytes hpos q 0 ⟨[], false⟩ d.mem
  simp only [transact] at h ⊢
  generalize stage page refuses d.bytes q 0 ⟨[], false⟩ d.mem = out at h hstage ⊢
  obtain ⟨a, k, b, m⟩ := out
  by_cases hkeep : keep a = true
  · rw [if_pos hkeep] at h ⊢
    unfold commit at h ⊢
    by_cases hfail : b.failed = true
    · rw [if_pos hfail] at h
      cases h
    rw [if_neg hfail] at h ⊢
    by_cases hclaim : (claim refuses k b.pages.length).1 = true
    · rw [if_pos hclaim]
      exact ⟨hkeep, hstage (by simpa using hfail)⟩
    · rw [if_neg hclaim] at h
      cases h
  · rw [if_neg hkeep] at h
    cases h

/-- A program changes the saved parts only. -/
theorem stage_restored (saved : σ) (q : Prog σ α) (k : ℕ) (b : Batch) (m : σ) :
    Saved.restore saved (stage page refuses store q k b m).2.2.2 = Saved.restore saved m := by
  induction q generalizing k b m with
  | done a => rfl
  | note g next ih => exact (ih _ _ _ _).trans (g.restored saved m)
  | _ =>
    rename_i ih
    simp only [stage]
    repeat' split
    all_goals exact ih _ _ _ _

/-- A transaction that publishes nothing leaves nothing. -/
theorem transact_dropped (h : (transact page refuses keep q d).2.1 = false) :
    (transact page refuses keep q d).2.2 = d := by
  simp only [transact] at h ⊢
  rw [if_neg (by simp [h]), stage_restored, Saved.restore_self]

end

end Storage
