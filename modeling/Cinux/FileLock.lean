/-
Whole-file locks and epoll watches (`kernel/fs/file_lock.cpp`, `kernel/syscall/sys_epoll.cpp`).

A lock entry names the node it locks and the open file that owns it; an epoll watch names
an open file.  Both are to go when the last reference to the open file does, and both are
told through one word of the open file, `on_last_close`: the locks swap themselves in and
keep the word they found, the registry stores itself over whatever is there.

* `attempt`, `finalClose`, `controlAdd`, `close` — the calls;
* `refused_keeps`, `Sound`, `locks_sound` — one entry for an owner, no exclusive entry
  beside another for the node, and a refused attempt changes nothing;
* `CleanClose`, `Orderly`, `Tracked`, `last_close_clean` — what a last close drops.
-/
import Cinux.Slots

namespace Cinux.FileLock

open Function Slots List Option

/-- What `on_last_close` can hold besides null. -/
inductive Notify where
  | finalClose
  | dropWatches
  deriving DecidableEq

/-- An open file: the node it walks, and its last-close word. -/
structure OpenFile where
  backend : ℕ
  ino : ℕ
  onLastClose : Option Notify
  deriving DecidableEq

/-- One lock; the owner is the address of an open file. -/
structure Held where
  backend : ℕ
  ino : ℕ
  owner : ℕ
  exclusive : Bool
  deriving DecidableEq

/-- A hook on an open file, with the word it has displaced. -/
structure Hook where
  file : ℕ
  previous : Option Notify
  deriving DecidableEq

/-- A watch of an epoll instance. -/
structure Watch where
  file : ℕ
  descriptor : ℕ
  events : ℕ
  data : ℕ
  version : ℕ
  deriving DecidableEq

/-- An epoll instance: `kWatchLimit` watches. -/
structure Epoll where
  watches : Slots 64 Watch
  nextVersion : ℕ

/-- The live open files by address, the lock tables (`kFileLockMax`, `kLockHookMax`) and the
registry's instances (`kEpollLimit`; an instance that found no seat is deleted at once). -/
structure State where
  files : ℕ → Option OpenFile
  held : Slots 32 Held
  hooks : Slots 32 Hook
  instances : Slots 64 Epoll

/-- Nothing is open. -/
def init : State := ⟨fun _ => none, fun _ => none, fun _ => none, fun _ => none⟩

/-- How a lock can fail. -/
inductive LockError where
  | invalidArgument
  | wouldBlock
  | outOfMemory
  deriving DecidableEq

/-! ### The lock table -/

/-- The entry locks the node of the file. -/
def namesNode (held : Held) (file : OpenFile) : Bool :=
  held.backend == file.backend && held.ino == file.ino

/-- The entry is the file's own. -/
def owns (f : ℕ) (held : Held) : Bool := held.owner == f

/-- The hook is on the file. -/
def hooked (f : ℕ) (hook : Hook) : Bool := hook.file == f

/-- `drop_held`: find an entry of the file and erase it, until there is none. -/
def dropHeld (s : State) (f : ℕ) : List (Fin 32) × State :=
  ((sweep (owns f) 32 s.held).1, { s with held := (sweep (owns f) 32 s.held).2 })

/-- `arm_final_close`: the word is saved in the file's hook and replaced. -/
def armFinalClose (s : State) (f : ℕ) (file : OpenFile) : State :=
  match (s.hooks.findIf (hooked f)).or s.hooks.vacant with
  | none => s
  | some k =>
    { s with
      hooks := s.hooks.put k ⟨f, file.onLastClose⟩
      files := update s.files f (some { file with onLastClose := some .finalClose }) }

/-- The entry that stands in the way of a lock. -/
def blocks (f : ℕ) (file : OpenFile) (exclusive : Bool) (held : Held) : Bool :=
  namesNode held file && held.owner != f && (exclusive || held.exclusive)

/-- The part of `attempt` behind the conflict check, with a hook slot in hand: the old entry
goes before the new one is inserted.  `fresh` says that the hook is new. -/
def seatLock (s : State) (f : ℕ) (file : OpenFile) (exclusive : Bool) (hook : Fin 32)
    (fresh : Bool) : Except LockError Unit × State :=
  let s := (dropHeld s f).2
  match s.held.vacant with
  | none =>
    (.error .outOfMemory, if fresh then { s with hooks := s.hooks.erase hook } else s)
  | some k =>
    (.ok (), armFinalClose
      { s with held := s.held.put k ⟨file.backend, file.ino, f, exclusive⟩ } f file)

/-- `attempt`, for the operation bits `kFlockSh` = 1, `kFlockEx` = 2, `kFlockUn` = 8. -/
def attempt (s : State) (f : ℕ) (file : OpenFile) (operation : ℕ) :
    Except LockError Unit × State :=
  let word := operation &&& 11
  if word ≠ 1 ∧ word ≠ 2 ∧ word ≠ 8 then (.error .invalidArgument, s)
  else if word = 8 then (.ok (), (dropHeld s f).2)
  else if (s.held.findIf (blocks f file (word == 2))).isSome then (.error .wouldBlock, s)
  else
    match s.hooks.findIf (hooked f) with
    | some hook => seatLock s f file (word == 2) hook false
    | none =>
      match s.hooks.vacant with
      | none => (.error .outOfMemory, s)
      | some hook =>
        seatLock { s with hooks := s.hooks.put hook ⟨f, none⟩ } f file (word == 2) hook true

/-! ### The last close -/

/-- One entry dropped: a lock, or a watch of an instance. -/
inductive Drop where
  | lock (k : Fin 32)
  | watch (i k : Fin 64)
  deriving DecidableEq

/-- The watch is on the file. -/
def watches (f : ℕ) (watch : Watch) : Bool := watch.file == f

/-- `drop_watches`: every seated instance forgets the file. -/
def dropWatches (s : State) (f : ℕ) : List Drop × State :=
  ((List.finRange 64).flatMap fun i =>
      match s.instances i with
      | none => []
      | some e => (e.watches.matching (watches f)).map (Drop.watch i),
    { s with
      instances := fun i => (s.instances i).map fun e =>
        { e with watches := e.watches.without (watches f) } })

/-- The guarded part of `final_close`, with the word it calls next. -/
def finalClose (s : State) (f : ℕ) : List Drop × Option Notify × State :=
  let drops := (dropHeld s f).1.map Drop.lock
  let s := (dropHeld s f).2
  match s.hooks.findIf (hooked f) with
  | none => (drops, none, s)
  | some k => (drops, (s.hooks k).bind Hook.previous, { s with hooks := s.hooks.erase k })

/-- The call through a last-close word.  `final_close` calls the word it saved, after it has
erased the hook that saved it. -/
def notify : ℕ → Option Notify → State → ℕ → List Drop × State
  | 0, _, s, _ => ([], s)
  | _ + 1, none, s, _ => ([], s)
  | _ + 1, some .dropWatches, s, f => dropWatches s f
  | fuel + 1, some .finalClose, s, f =>
    let done := finalClose s f
    let rest := notify fuel done.2.1 done.2.2 f
    (done.1 ++ rest.1, rest.2)

/-- `~OpenFile`: the last reference goes.  A hook is erased for each call but the last. -/
def close (s : State) (f : ℕ) : List Drop × State :=
  match s.files f with
  | none => ([], s)
  | some file =>
    let gone := notify 34 file.onLastClose s f
    (gone.1, { gone.2 with files := update gone.2.files f none })

/-! ### The registry -/

/-- `control_add`, with its error numbers. -/
def controlAdd (s : State) (i : Fin 64) (e : Epoll) (f : ℕ) (file : OpenFile)
    (descriptor events data : ℕ) : ℤ × State :=
  if (e.watches.findIf fun w => watches f w && w.descriptor == descriptor).isSome then (-17, s)
  else
    let version := e.nextVersion + 1
    match e.watches.vacant with
    | none => (-12, { s with instances := s.instances.put i { e with nextVersion := version } })
    | some k =>
      (0, { s with
        instances := s.instances.put i
          ⟨e.watches.put k ⟨f, descriptor, events, data, version⟩, version⟩
        files := update s.files f (some { file with onLastClose := some .dropWatches }) })

/-- `EPOLL_CTL_DEL`. -/
def controlDelete (s : State) (i : Fin 64) (e : Epoll) (f descriptor : ℕ) : ℤ × State :=
  match e.watches.findIf fun w => watches f w && w.descriptor == descriptor with
  | none => (-2, s)
  | some k => (0, { s with instances := s.instances.put i { e with watches := e.watches.erase k } })

/-! ### Runs -/

/-- The operations.  `retire` is the end of an epoll instance, `close` the end of the last
reference to an open file; an address may be opened again after its close. -/
inductive Op where
  | openFile (f backend ino : ℕ)
  | flock (f operation : ℕ)
  | release (f : ℕ)
  | create
  | retire (i : Fin 64)
  | add (i : Fin 64) (f descriptor events data : ℕ)
  | delete (i : Fin 64) (f descriptor : ℕ)
  | close (f : ℕ)

/-- One operation; a call needs a live file and a seated instance to be made on. -/
def step (s : State) : Op → State
  | .openFile f backend ino =>
    if (s.files f).isSome then s
    else { s with files := update s.files f (some ⟨backend, ino, none⟩) }
  | .flock f operation =>
    match s.files f with
    | none => s
    | some file => (attempt s f file operation).2
  | .release f => if (s.files f).isSome then (dropHeld s f).2 else s
  | .create =>
    match s.instances.vacant with
    | none => s
    | some i => { s with instances := s.instances.put i ⟨fun _ => none, 0⟩ }
  | .retire i => { s with instances := s.instances.erase i }
  | .add i f descriptor events data =>
    match s.instances i, s.files f with
    | some e, some file => (controlAdd s i e f file descriptor events data).2
    | _, _ => s
  | .delete i f descriptor =>
    match s.instances i, s.files f with
    | some e, some _ => (controlDelete s i e f descriptor).2
    | _, _ => s
  | .close f => (close s f).2

/-- The state after some calls. -/
def run (ops : List Op) : State := ops.foldl step init

theorem dropHeld_eq (s : State) (f : ℕ) :
    dropHeld s f = (s.held.matching (owns f), { s with held := s.held.without (owns f) }) := by
  rw [dropHeld, sweep_eq ((length_filter_le _ _).trans (length_finRange).le)]

/-! ### A refused attempt -/

variable {f : ℕ} {file : OpenFile} {exclusive fresh : Bool}

/-- No room is left only for a file that had no entry to drop. -/
theorem no_room {s : State} (h : (dropHeld s f).2.held.vacant = none) :
    s.held.without (owns f) = s.held := by
  rw [dropHeld_eq] at h
  refine without_of_findIf_none (findIf_eq_none fun k a ha => ?_)
  -- the slot of the file's own entry would be empty now
  have := vacant_none h k
  simpa [without, ha] using this

/-! ### The lock table stays sound -/

/-- One entry for an owner, and none beside an exclusive one for the node. -/
structure Sound (t : Slots 32 Held) : Prop where
  single : Keyed Held.owner t
  apart : ∀ j k a b, t j = some a → t k = some b → j ≠ k → a.backend = b.backend →
    a.ino = b.ino → a.exclusive = false

theorem Sound.within {t u : Slots 32 Held} (h : Sound u) (hw : t.Within u) : Sound t :=
  ⟨h.single.within hw, fun j k a b ha hb => h.apart j k a b (hw j a ha) (hw k b hb)⟩

/-- An entry nothing blocks takes the place of the owner's old one. -/
theorem Sound.grant {t : Slots 32 Held} {exclusive : Bool} (h : Sound t)
    (free : t.findIf (blocks f file exclusive) = none) (k : Fin 32) :
    Sound ((t.without (owns f)).put k ⟨file.backend, file.ino, f, exclusive⟩) := by
  have hleft := h.within (without_within t (owns f))
  have other : ∀ j a, t.without (owns f) j = some a → t j = some a ∧ a.owner ≠ f := by
    intro j a ha
    obtain ⟨ht, hf⟩ := without_eq_some.mp ha
    exact ⟨ht, by simpa [owns] using hf⟩
  -- an entry left for the node is another owner's, so it would have blocked
  have clear : ∀ j a, t.without (owns f) j = some a → a.backend = file.backend →
      a.ino = file.ino → exclusive = false ∧ a.exclusive = false := by
    intro j a ha hb hi
    have := findIf_none free (other j a ha).1
    simpa [blocks, namesNode, hb, hi, (other j a ha).2] using this
  refine ⟨hleft.single.put fun j a ha e => absurd e (other j a ha).2, ?_⟩
  intro i j a b ha hb hne hblock hino
  rcases put_eq_some ha with ⟨rfl, rfl⟩ | ⟨_, ha'⟩ <;>
    rcases put_eq_some hb with ⟨rfl, rfl⟩ | ⟨_, hb'⟩
  · exact absurd rfl hne
  · exact (clear j b hb' hblock.symm hino.symm).1
  · exact (clear i a ha' hblock hino).2
  · exact hleft.apart i j a b ha' hb' hne hblock hino

/-- The state after a grant: the entry in slot `k`, the saved word in hook slot `j`. -/
def granted (s : State) (f : ℕ) (file : OpenFile) (exclusive : Bool) (k j : Fin 32) : State :=
  { s with
    held := (s.held.without (owns f)).put k ⟨file.backend, file.ino, f, exclusive⟩
    hooks := s.hooks.put j ⟨f, file.onLastClose⟩
    files := update s.files f (some { file with onLastClose := some .finalClose }) }

/-- The slot holds the file's hook, or the file has none and the slot is empty. -/
def HookSlot (s : State) (f : ℕ) (j : Fin 32) : Prop :=
  (∃ hook, s.hooks j = some hook ∧ hook.file = f) ∨
    s.hooks j = none ∧ s.hooks.findIf (hooked f) = none

variable {s : State}

/-- The entry dropped on the way to an insertion is only dropped where the insertion then has room,
and a new hook is taken back. -/
theorem seatLock_cases (s : State) (hook : Fin 32) :
    (∃ e, seatLock s f file exclusive hook fresh =
      (.error e, if fresh then { s with hooks := s.hooks.erase hook } else s)) ∨
    ∃ k, ∀ j, s.hooks.findIf (hooked f) = some j →
      seatLock s f file exclusive hook fresh = (.ok (), granted s f file exclusive k j) := by
  rw [seatLock]
  cases hv : (dropHeld s f).2.held.vacant with
  | none =>
    have same : (dropHeld s f).2 = s := by rw [dropHeld_eq, no_room hv]
    exact .inl ⟨.outOfMemory, by simp only [same]⟩
  | some k => exact .inr ⟨k, fun j hj => by simp [dropHeld_eq, armFinalClose, hj, granted]⟩

/-- An attempt is refused and leaves the whole state as it was, drops the file's entry, or puts one
in that nothing blocked. -/
theorem attempt_cases (s : State) (f : ℕ) (file : OpenFile) (operation : ℕ) :
    (∃ e, attempt s f file operation = (.error e, s)) ∨
    operation &&& 11 = 8 ∧ attempt s f file operation = (.ok (), (dropHeld s f).2) ∨
    operation &&& 11 ≠ 8 ∧ ∃ exclusive k j,
      s.held.findIf (blocks f file exclusive) = none ∧ HookSlot s f j ∧
        attempt s f file operation = (.ok (), granted s f file exclusive k j) := by
  rw [attempt]
  split_ifs with hword hun hblock
  · exact .inl ⟨_, rfl⟩
  · exact .inr (.inl ⟨hun, rfl⟩)
  · exact .inl ⟨_, rfl⟩
  have free := not_isSome_iff_eq_none.mp hblock
  cases hk : s.hooks.findIf (hooked f) with
  | some j =>
    obtain ⟨e, he⟩ | ⟨k, hs⟩ := seatLock_cases s j
    · exact .inl ⟨e, he⟩
    · obtain ⟨hook, hhook, hf⟩ := findIf_some hk
      exact .inr (.inr ⟨hun, _, k, j, free, .inl ⟨hook, hhook, by simpa [hooked] using hf⟩,
        hs j hk⟩)
  | none =>
    cases hv : s.hooks.vacant with
    | none => exact .inl ⟨_, rfl⟩
    | some j =>
      obtain ⟨e, he⟩ | ⟨k, hs⟩ := seatLock_cases { s with hooks := s.hooks.put j ⟨f, none⟩ } j
      · have back : (s.hooks.put j ⟨f, none⟩).erase j = s.hooks := by
          rw [put, erase, update_idem, ← vacant_some hv, update_eq_self]
        exact .inl ⟨e, he.trans (by rw [if_pos rfl, back])⟩
      -- the hook found again by `arm_final_close` is the one just made
      have again : (s.hooks.put j ⟨f, none⟩).findIf (hooked f) = some j := by
        obtain ⟨i, hi⟩ := findIf_isSome (p := hooked f) (put_self s.hooks j ⟨f, none⟩)
          (by simp [hooked])
        obtain ⟨hook, hhook, hf⟩ := findIf_some hi
        rcases put_eq_some hhook with ⟨rfl, _⟩ | ⟨_, hold⟩
        · exact hi
        · simp [findIf_none hk hold] at hf
      refine .inr (.inr ⟨hun, _, k, j, free, .inr ⟨vacant_some hv, hk⟩, (hs j again).trans ?_⟩)
      simp only [granted, put_put]

theorem refused_keeps {operation : ℕ} {e : LockError}
    (h : (attempt s f file operation).1 = .error e) : (attempt s f file operation).2 = s := by
  obtain ⟨_, he⟩ | ⟨-, he⟩ | ⟨-, _, _, _, -, -, he⟩ := attempt_cases s f file operation
  · rw [he]
  · rw [he] at h
    cases h
  · rw [he] at h
    cases h

/-! ### The last-close word -/

/-- The entry is there and names the file. -/
def names (s : State) (f : ℕ) : Drop → Bool
  | .lock k => (s.held k).any (owns f)
  | .watch i k => (s.instances i).any fun e => (e.watches k).any (watches f)

theorem names_lock {k : Fin 32} :
    names s f (.lock k) = true ↔ ∃ a, s.held k = some a ∧ a.owner = f := by
  simp [names, owns, Option.any_eq_true]

theorem names_watch {i k : Fin 64} : names s f (.watch i k) = true ↔
      ∃ e w, s.instances i = some e ∧ e.watches k = some w ∧ w.file = f := by
  simp [names, watches, Option.any_eq_true]

/-- What a last close may touch: nothing of the other files, and no file's word. -/
structure Spares (f : ℕ) (s s' : State) : Prop where
  files : s'.files = s.files
  hooks : s'.hooks.Within s.hooks
  held : s'.held.Within s.held
  names : ∀ g d, names s' g d = true → names s g d = true
  others : ∀ j hook, hook.file ≠ f → s.hooks j = some hook → s'.hooks j = some hook

theorem Spares.refl (f : ℕ) (s : State) : Spares f s s :=
  ⟨rfl, Within.refl _, Within.refl _, fun _ _ h => h, fun _ _ _ h => h⟩

theorem Spares.trans {s s' s'' : State} (h : Spares f s s') (h' : Spares f s' s'') :
    Spares f s s'' where
  files := h'.files.trans h.files
  hooks k a ha := h.hooks k a (h'.hooks k a ha)
  held k a ha := h.held k a (h'.held k a ha)
  names g d hd := h.names g d (h'.names g d hd)
  others j hook hne hj := h'.others j hook hne (h.others j hook hne hj)

theorem dropHeld_spares (f g : ℕ) (s : State) : Spares g s (dropHeld s f).2 := by
  rw [dropHeld_eq]
  refine ⟨rfl, Within.refl _, without_within _ _, ?_, fun _ _ _ h => h⟩
  rintro g' (k | ⟨i, k⟩) hd
  · obtain ⟨a, ha, hf⟩ := names_lock.mp hd
    exact names_lock.mpr ⟨a, without_within _ _ k a ha, hf⟩
  · exact hd

theorem dropWatches_names {f g : ℕ} {i k : Fin 64} :
    names (dropWatches s f).2 g (.watch i k) = true ↔ names s g (.watch i k) = true ∧ g ≠ f := by
  rw [names_watch, names_watch]
  constructor
  · rintro ⟨e', w, he', hw, rfl⟩
    obtain ⟨e, he, rfl⟩ := map_eq_some_iff.mp he'
    obtain ⟨hold, hne⟩ := without_eq_some.mp hw
    exact ⟨⟨e, w, he, hold, rfl⟩, by simpa [watches] using hne⟩
  · rintro ⟨⟨e, w, he, hw, rfl⟩, hne⟩
    exact ⟨_, w, map_eq_some_iff.mpr ⟨e, he, rfl⟩,
      without_eq_some.mpr ⟨hw, by simpa [watches] using hne⟩, rfl⟩

theorem unnamed_dropWatches (no_lock : ∀ k, names s f (.lock k) = false) :
    ∀ d, names (dropWatches s f).2 f d = false
  | .lock k => no_lock k
  | .watch _ _ => Bool.eq_false_iff.mpr fun hd => (dropWatches_names.mp hd).2 rfl

theorem dropWatches_spares (f : ℕ) (s : State) : Spares f s (dropWatches s f).2 := by
  refine ⟨rfl, Within.refl _, Within.refl _, ?_, fun _ _ _ h => h⟩
  rintro g (k | ⟨i, k⟩) hd
  · exact hd
  · exact (dropWatches_names.mp hd).1

theorem finalClose_spares (f : ℕ) (s : State) : Spares f s (finalClose s f).2.2 := by
  have hdrop := dropHeld_spares f f s
  rw [finalClose]
  cases hk : (dropHeld s f).2.hooks.findIf (hooked f) with
  | none => simpa [hk] using hdrop
  | some k =>
    obtain ⟨hook, hhook, hf⟩ := findIf_some hk
    refine hdrop.trans ⟨rfl, erase_within _ _, Within.refl _, fun _ _ h => h, ?_⟩
    intro j other hne hj
    have : j ≠ k := by
      rintro rfl
      rw [hhook] at hj
      exact hne (Option.some.inj hj ▸ by simpa [hooked] using hf)
    exact (update_of_ne this _ _).trans hj

theorem notify_spares (f : ℕ) : ∀ (fuel : ℕ) (word : Option Notify) (s : State),
    Spares f s (notify fuel word s f).2
  | 0, _, s => Spares.refl f s
  | _ + 1, none, s => Spares.refl f s
  | _ + 1, some .dropWatches, s => dropWatches_spares f s
  | fuel + 1, some .finalClose, s =>
    (finalClose_spares f s).trans (notify_spares f fuel _ _)

/-- The log names the locks dropped, each once. -/
theorem locks_dropped (s : State) (f : ℕ) : ((dropHeld s f).1.map Drop.lock).Nodup ∧
      ∀ d, d ∈ (dropHeld s f).1.map Drop.lock ↔ ∃ k, d = .lock k ∧ names s f d = true := by
  rw [dropHeld_eq]
  refine ⟨(nodup_matching _ _).map fun _ _ h => Drop.lock.inj h, fun d => ?_⟩
  constructor
  · intro hd
    obtain ⟨k, hk, rfl⟩ := mem_map.mp hd
    exact ⟨k, rfl, mem_matching.mp hk⟩
  · rintro ⟨k, rfl, hd⟩
    exact mem_map.mpr ⟨k, mem_matching.mpr hd, rfl⟩

theorem mem_watches {d : Drop} :
    d ∈ (dropWatches s f).1 ↔ ∃ i k, d = .watch i k ∧ names s f d = true := by
  simp only [dropWatches, mem_flatMap, mem_finRange, true_and]
  constructor
  · rintro ⟨i, hd⟩
    cases hi : s.instances i with
    | none => simp [hi] at hd
    | some e =>
      simp only [hi] at hd
      obtain ⟨k, hk, rfl⟩ := mem_map.mp hd
      exact ⟨i, k, rfl, by simpa [names, hi] using mem_matching.mp hk⟩
  · rintro ⟨i, k, rfl, hd⟩
    obtain ⟨e, w, hi, hw, hf⟩ := names_watch.mp hd
    have hk : k ∈ e.watches.matching (watches f) := mem_matching.mpr (by simp [hw, watches, hf])
    exact ⟨i, by simpa only [hi] using mem_map.mpr ⟨k, hk, rfl⟩⟩

theorem nodup_watches (s : State) (f : ℕ) : (dropWatches s f).1.Nodup := by
  refine nodup_flatMap.mpr ⟨fun i _ => ?_, ?_⟩
  · cases s.instances i with
    | none => exact nodup_nil
    | some e => exact (nodup_matching _ _).map fun _ _ h => (Drop.watch.inj h).2
  · refine (nodup_finRange 64).imp fun {i j} hne d hd hd' => hne ?_
    cases hi : s.instances i <;> cases hj : s.instances j <;> simp only [hi, hj] at hd hd'
    all_goals first | exact absurd hd not_mem_nil | exact absurd hd' not_mem_nil | skip
    obtain ⟨k, _, rfl⟩ := mem_map.mp hd
    obtain ⟨k', _, e⟩ := mem_map.mp hd'
    exact (Drop.watch.inj e).1.symm

/-- The close of the last reference drops every entry that names the file, each once, and
nothing else. -/
def CleanClose (s : State) (f : ℕ) : Prop :=
  (close s f).1.Nodup ∧ (∀ d, d ∈ (close s f).1 ↔ names s f d = true) ∧
    ∀ d, names (close s f).2 f d = false

/-- The words tell of every entry: a lock's owner has `final_close` in its word, and a
watched file has `drop_watches` there or saved in its hook. -/
structure Tracked (s : State) : Prop where
  hooks : Keyed Hook.file s.hooks
  locks : ∀ f k, names s f (.lock k) = true →
    ∃ file, s.files f = some file ∧ file.onLastClose = some .finalClose
  watched : ∀ f i k, names s f (.watch i k) = true →
    ∃ file, s.files f = some file ∧ (file.onLastClose = some .dropWatches ∨
      file.onLastClose = some .finalClose ∧ ∃ j, s.hooks j = some ⟨f, some .dropWatches⟩)

/-- The calls that keep it so: no lock is asked for on a watched file whose word already is
`final_close`, and no watch is added for the owner of a lock. -/
def Orderly (s : State) : Op → Prop
  | .flock f operation =>
    operation &&& 11 = 8 ∨ (s.files f).bind OpenFile.onLastClose ≠ some .finalClose ∨
      ∀ i k, names s f (.watch i k) = false
  | .add _ f _ _ _ => ∀ k, names s f (.lock k) = false
  | _ => True

/-! ### A tracked file closes clean -/

/-- A sweep that names one kind of entry and leaves none of it. -/
theorem names_dropHeld (s : State) (f : ℕ) (k : Fin 32) :
    names (dropHeld s f).2 f (.lock k) = false := by
  rw [dropHeld_eq, Bool.eq_false_iff, Ne, names_lock]
  rintro ⟨a, ha, hf⟩
  have := (without_eq_some.mp ha).2
  simp [owns, hf] at this

/-- After `final_close` the file has neither a lock nor a hook, and the word called next is
the one its hook saved. -/
theorem finalClose_spec (h : Keyed Hook.file s.hooks) (f : ℕ) :
    (finalClose s f).1 = (dropHeld s f).1.map Drop.lock ∧
      (finalClose s f).2.2.held = (dropHeld s f).2.held ∧
      (finalClose s f).2.2.instances = s.instances ∧
      (finalClose s f).2.2.hooks.findIf (hooked f) = none ∧
      ∀ j word, s.hooks j = some ⟨f, word⟩ → (finalClose s f).2.1 = word := by
  have same : (dropHeld s f).2.hooks = s.hooks ∧ (dropHeld s f).2.instances = s.instances := by
    rw [dropHeld_eq]; exact ⟨rfl, rfl⟩
  simp only [finalClose, same.1]
  cases hk : s.hooks.findIf (hooked f) with
  | none =>
    refine ⟨rfl, rfl, same.2, by rw [same.1, hk], fun j word hj => ?_⟩
    simpa [hooked] using findIf_none hk hj
  | some k =>
    obtain ⟨hook, hhook, hf⟩ := findIf_some hk
    have hf : hook.file = f := by simpa [hooked] using hf
    refine ⟨rfl, rfl, same.2, ?_, fun j word hj => ?_⟩
    · refine findIf_eq_none fun j other hother => beq_false_of_ne fun hfo => ?_
      have hold := erase_within _ _ j other hother
      -- a second hook of the file would be in the slot just erased
      have : j = k := h j k other hook hold hhook (hfo.trans hf.symm)
      subst this
      simp [Slots.erase] at hother
    · have : j = k := h j k _ hook hj hhook hf.symm
      subst this
      show (s.hooks j).bind Hook.previous = word
      rw [hj, bind_some]

/-- With no lock and no hook left, only `drop_watches` does anything. -/
theorem notify_rest (hlock : ∀ k, names s f (.lock k) = false)
    (hhook : s.hooks.findIf (hooked f) = none) (fuel : ℕ) (word : Option Notify) :
    notify (fuel + 2) word s f =
      if word = some .dropWatches then dropWatches s f else ([], s) := by
  match word with
  | none => rfl
  | some .dropWatches => rfl
  | some .finalClose =>
    have nothing : s.held.findIf (owns f) = none := findIf_eq_none fun k a ha => by
      simpa [names, ha] using hlock k
    have same : dropHeld s f = ([], s) := by
      rw [dropHeld_eq, matching_eq_nil.mpr nothing, without_of_findIf_none nothing]
    simp [notify, finalClose, same, hhook]

theorem Tracked.live (h : Tracked s) {d : Drop} (hd : names s f d = true) : (s.files f).isSome := by
  cases d with
  | lock k => obtain ⟨file, hf, _⟩ := h.locks f k hd; simp [hf]
  | watch i k => obtain ⟨file, hf, _⟩ := h.watched f i k hd; simp [hf]

theorem Tracked.clean (h : Tracked s) (f : ℕ) : CleanClose s f := by
  unfold CleanClose close
  cases hf : s.files f with
  | none =>
    have none_named : ∀ d, names s f d = false := fun d => by
      by_contra hd
      have := h.live (by simpa using hd)
      simp [hf] at this
    exact ⟨nodup_nil, fun d => by simp [none_named d], none_named⟩
  | some file =>
    have lock_word : ∀ k, names s f (.lock k) = true → file.onLastClose = some .finalClose := by
      intro k hk
      obtain ⟨file', hf', hw⟩ := h.locks f k hk
      rw [hf] at hf'
      exact Option.some.inj hf' ▸ hw
    have watch_word : ∀ i k, names s f (.watch i k) = true →
        file.onLastClose = some .dropWatches ∨ file.onLastClose = some .finalClose ∧
          ∃ j, s.hooks j = some ⟨f, some .dropWatches⟩ := by
      intro i k hk
      obtain ⟨file', hf', hw⟩ := h.watched f i k hk
      rw [hf] at hf'
      exact Option.some.inj hf' ▸ hw
    -- what `names` says does not depend on the words
    show (notify 34 file.onLastClose s f).1.Nodup ∧
      (∀ d, d ∈ (notify 34 file.onLastClose s f).1 ↔ names s f d = true) ∧
      ∀ d, names (notify 34 file.onLastClose s f).2 f d = false
    match hword : file.onLastClose with
    | none =>
      have none_named : ∀ d, names s f d = false := by
        rintro (k | ⟨i, k⟩) <;> rw [Bool.eq_false_iff]
        · exact fun hd => by simp [hword] at lock_word; simp [lock_word] at hd
        · exact fun hd => by simpa [hword] using watch_word i k hd
      exact ⟨nodup_nil, fun d => by simp [notify, none_named d], none_named⟩
    | some .dropWatches =>
      have no_lock : ∀ k, names s f (.lock k) = false := fun k => by
        rw [Bool.eq_false_iff]
        exact fun hd => by simpa [hword] using lock_word k hd
      refine ⟨nodup_watches s f, fun d => mem_watches.trans ?_, ?_⟩
      · cases d with
        | lock k => simp [no_lock k]
        | watch i k => simp
      · exact unnamed_dropWatches no_lock
    | some .finalClose =>
      obtain ⟨hlog, hheld, hinst, hhook, hpriv⟩ := finalClose_spec h.hooks f
      have no_lock : ∀ k, names (finalClose s f).2.2 f (.lock k) = false := fun k => by
        have := names_dropHeld s f k
        rwa [names, ← hheld] at this
      have watch_same : ∀ i k, names (finalClose s f).2.2 f (.watch i k) =
          names s f (.watch i k) := fun i k => by simp only [names, hinst]
      obtain ⟨nodup, mem⟩ := locks_dropped s f
      have hrest := notify_rest no_lock hhook 31 (finalClose s f).2.1
      simp only [notify, hrest, hlog]
      split_ifs with hp
      · refine ⟨nodup.append (nodup_watches _ f) ?_, ?_, ?_⟩
        · intro d hd hd'
          obtain ⟨k, rfl, _⟩ := (mem d).mp hd
          obtain ⟨i, k', e, _⟩ := mem_watches.mp hd'
          cases e
        · rintro (k | ⟨i, k⟩)
          · simp [mem, mem_watches]
          · simp [mem_watches, watch_same]
        · exact unnamed_dropWatches no_lock
      · -- a watched file would have saved `drop_watches`
        have no_watch : ∀ i k, names s f (.watch i k) = false := fun i k => by
          rw [Bool.eq_false_iff]
          intro hd
          rcases watch_word i k hd with hw | ⟨_, j, hj⟩
          · simp [hword] at hw
          · exact hp (hpriv j _ hj)
        refine ⟨by simpa using nodup, ?_, ?_⟩
        · rintro (k | ⟨i, k⟩)
          · simp [mem]
          · simp [no_watch i k]
        · rintro (k | ⟨i, k⟩)
          · exact no_lock k
          · rw [watch_same, no_watch i k]

/-! ### Runs of orderly calls -/

theorem Tracked.init : Tracked init :=
  ⟨nofun, nofun, nofun⟩

/-- Fewer entries, the same words for the files they name, and their hooks. -/
theorem Tracked.less {s s' : State} (h : Tracked s) (hooks : Keyed Hook.file s'.hooks)
    (less : ∀ f d, FileLock.names s' f d = true → FileLock.names s f d = true ∧
      s'.files f = s.files f ∧
      ∀ j hook, hook.file = f → s.hooks j = some hook → s'.hooks j = some hook) : Tracked s' := by
  refine ⟨hooks, fun f k hk => ?_, fun f i k hk => ?_⟩
  · obtain ⟨hd, hf, _⟩ := less f _ hk
    rw [hf]
    exact h.locks f k hd
  · obtain ⟨hd, hf, hh⟩ := less f _ hk
    rw [hf]
    obtain ⟨file, hfile, hw⟩ := h.watched f i k hd
    exact ⟨file, hfile, hw.imp_right fun ⟨hw, j, hj⟩ => ⟨hw, j, hh j _ rfl hj⟩⟩

theorem Tracked.fewer {s s' : State} (h : Tracked s) (hfiles : s'.files = s.files)
    (hhooks : s'.hooks = s.hooks) (hheld : s'.held.Within s.held)
    (hw : ∀ i k e' w, s'.instances i = some e' → e'.watches k = some w →
      ∃ e, s.instances i = some e ∧ e.watches k = some w) : Tracked s' := by
  refine h.less (hhooks ▸ h.hooks) fun f d hd =>
    ⟨?_, congrFun hfiles f, fun _ _ _ => by rw [hhooks]; exact id⟩
  cases d with
  | lock k =>
    obtain ⟨a, ha, hf⟩ := names_lock.mp hd
    exact names_lock.mpr ⟨a, hheld k a ha, hf⟩
  | watch i k =>
    obtain ⟨e', w, he', hk, hf⟩ := names_watch.mp hd
    obtain ⟨e, he, hold⟩ := hw i k e' w he' hk
    exact names_watch.mpr ⟨e, w, he, hold, hf⟩

section

variable (h : Tracked s)
include h

theorem Tracked.dropHeld (f : ℕ) : Tracked (dropHeld s f).2 := by
  rw [dropHeld_eq]
  exact h.fewer rfl rfl (without_within _ _) fun i k e' w he hk => ⟨e', he, hk⟩

theorem Tracked.close (f : ℕ) : Tracked (close s f).2 := by
  have clean := (h.clean f).2.2
  unfold FileLock.close at clean ⊢
  cases hf : s.files f with
  | none => exact h
  | some file =>
    simp only [hf] at clean ⊢
    have spares := notify_spares f 34 file.onLastClose s
    refine h.less (h.hooks.within spares.hooks) fun g d hd => ?_
    have hne : g ≠ f := by
      rintro rfl
      exact absurd (clean d) (by simp [hd])
    refine ⟨spares.names g d hd, ?_, fun j hook hg hj => spares.others j hook (hg ▸ hne) hj⟩
    exact (update_of_ne hne _ _).trans (congrFun spares.files g)

/-- An instance whose watches were there before. -/
theorem Tracked.put {i : Fin 64} {e : Epoll} (old : ∀ k w, e.watches k = some w →
    ∃ e, s.instances i = some e ∧ e.watches k = some w) :
    Tracked { s with instances := s.instances.put i e } := by
  refine h.fewer rfl rfl (Within.refl _) fun i' k e' w he' hw => ?_
  rcases put_eq_some he' with ⟨rfl, rfl⟩ | ⟨_, hold⟩
  · exact old k w hw
  · exact ⟨e', hold, hw⟩

/-- A grant on a file that is not watched, or whose word it has not taken yet. -/
theorem Tracked.granted (hf : s.files f = some file) {j : Fin 32} (hj : HookSlot s f j)
    (ho : file.onLastClose ≠ some .finalClose ∨ ∀ i k, names s f (.watch i k) = false)
    (exclusive : Bool) (k : Fin 32) : Tracked (granted s f file exclusive k j) := by
  have slot : ∀ i hook, s.hooks i = some hook → hook.file = f → i = j := by
    intro i hook hi hfile
    rcases hj with ⟨own, hown, he⟩ | ⟨_, hno⟩
    · exact h.hooks i j hook own hi hown (hfile.trans he.symm)
    · exact absurd (findIf_none hno hi) (by simp [hooked, hfile])
  have kept : ∀ i hook, hook.file ≠ f → s.hooks i = some hook →
      (s.hooks.put j ⟨f, file.onLastClose⟩) i = some hook := by
    intro i hook hne hi
    have : i ≠ j := by
      rintro rfl
      rcases hj with ⟨own, hown, he⟩ | ⟨hno, _⟩
      · exact hne (mem_unique hi hown ▸ he)
      · simp [hno] at hi
    exact (update_of_ne this _ _).trans hi
  refine ⟨h.hooks.put slot, fun g i hi => ?_, fun g i i' hi => ?_⟩
  · by_cases hg : g = f
    · subst hg
      exact ⟨_, update_self .., rfl⟩
    obtain ⟨a, ha, howner⟩ := names_lock.mp hi
    rcases put_eq_some ha with ⟨_, rfl⟩ | ⟨_, hold⟩
    · exact absurd howner.symm hg
    · obtain ⟨file', hf', hw⟩ := h.locks g i
        (names_lock.mpr ⟨a, without_within _ _ i a hold, howner⟩)
      exact ⟨file', (update_of_ne hg _ _).trans hf', hw⟩
  · obtain ⟨file', hf', hw⟩ := h.watched g i i' hi
    by_cases hg : g = f
    · subst hg
      rw [hf] at hf'
      cases hf'
      -- the watched file had `drop_watches` in its word, which the hook now keeps
      refine ⟨_, update_self .., .inr ⟨rfl, j, ?_⟩⟩
      rcases ho with hne | hno
      · rcases hw with hw | ⟨hw, _⟩
        · exact hw ▸ put_self ..
        · exact absurd hw hne
      · exact absurd (hi.symm.trans (hno i i')) (by decide)
    · exact ⟨file', (update_of_ne hg _ _).trans hf',
        hw.imp_right fun ⟨hw, i, hi⟩ => ⟨hw, i, kept i _ hg hi⟩⟩

/-- A watch added for a file that owns no lock. -/
theorem Tracked.added {e : Epoll} {i : Fin 64} (he : s.instances i = some e)
    (ho : ∀ k, names s f (.lock k) = false) (descriptor events data : ℕ) :
    Tracked (controlAdd s i e f file descriptor events data).2 := by
  unfold controlAdd
  split_ifs
  · exact h
  cases e.watches.vacant with
  | none => exact h.put fun k w hw => ⟨e, he, hw⟩
  | some k =>
    refine ⟨h.hooks, fun g j hj => ?_, fun g i' j hj => ?_⟩
    · have hg : g ≠ f := by
        rintro rfl
        exact absurd (hj.symm.trans (ho j)) (by decide)
      obtain ⟨file', hf', hw⟩ := h.locks g j hj
      exact ⟨file', (update_of_ne hg _ _).trans hf', hw⟩
    · by_cases hg : g = f
      · subst hg
        exact ⟨_, update_self .., .inl rfl⟩
      -- a watch of another file was there before
      have old : names s g (.watch i' j) = true := by
        obtain ⟨e', w, he', hw, hfile⟩ := names_watch.mp hj
        rcases put_eq_some he' with ⟨rfl, rfl⟩ | ⟨_, hold⟩
        · rcases put_eq_some hw with ⟨_, rfl⟩ | ⟨_, hw'⟩
          · exact absurd hfile.symm hg
          · exact names_watch.mpr ⟨e, w, he, hw', hfile⟩
        · exact names_watch.mpr ⟨e', w, hold, hw, hfile⟩
      obtain ⟨file', hf', hw⟩ := h.watched g i' j old
      exact ⟨file', (update_of_ne hg _ _).trans hf', hw⟩

theorem Tracked.step {op : Op} (ho : Orderly s op) : Tracked (step s op) := by
  cases op with
  | openFile f backend ino =>
    simp only [FileLock.step]
    split_ifs with hlive
    · exact h
    refine h.less h.hooks fun g d hd => ⟨hd, ?_, fun _ _ _ => id⟩
    -- an entry names a live file, and the address opened was free
    have hg : g ≠ f := by
      rintro rfl
      exact hlive (h.live hd)
    exact update_of_ne hg _ _
  | flock f operation =>
    simp only [FileLock.step]
    cases hf : s.files f with
    | none => exact h
    | some file =>
      obtain ⟨e, heq⟩ | ⟨-, heq⟩ | ⟨hword, exclusive, k, j, -, hj, heq⟩ :=
        attempt_cases s f file operation
      · simpa only [heq] using h
      · simpa only [heq] using h.dropHeld f
      · simp only [heq]
        refine h.granted hf hj ?_ exclusive k
        rcases ho with hun | hrest
        · exact absurd hun hword
        · simpa [hf] using hrest
  | release f =>
    simp only [FileLock.step]
    split_ifs
    · exact h.dropHeld f
    · exact h
  | create =>
    simp only [FileLock.step]
    cases s.instances.vacant with
    | none => exact h
    | some i => exact h.put nofun
  | retire i =>
    exact h.fewer rfl rfl (Within.refl _) fun i' k e' w he' hw =>
      ⟨e', erase_within _ _ i' e' he', hw⟩
  | add i f descriptor events data =>
    simp only [FileLock.step]
    cases he : s.instances i with
    | none => exact h
    | some e =>
      cases s.files f with
      | none => exact h
      | some file => exact h.added he ho descriptor events data
  | delete i f descriptor =>
    simp only [FileLock.step]
    cases he : s.instances i with
    | none => exact h
    | some e =>
      cases s.files f with
      | none => exact h
      | some file =>
        simp only [controlDelete]
        split
        · exact h
        · exact h.put fun k w hw => ⟨e, he, erase_within _ _ k w hw⟩
  | close f => exact h.close f

end

/-- Every operation of the run is orderly in the state it meets. -/
def OrderlyRun : State → List Op → Prop
  | _, [] => True
  | s, op :: ops => Orderly s op ∧ OrderlyRun (step s op) ops

theorem Tracked.foldl {s : State} (h : Tracked s) : ∀ {ops : List Op}, OrderlyRun s ops →
    Tracked (ops.foldl FileLock.step s)
  | [], _ => h
  | _ :: _, ho => (h.step ho.1).foldl ho.2

/-- After any orderly run, the last close of any file drops each of its locks and watches
once and leaves none. -/
theorem last_close_clean (ops : List Op) (orderly : OrderlyRun init ops) (f : ℕ) :
    CleanClose (run ops) f :=
  (Tracked.init.foldl orderly).clean f

/-- A watch added first and a lock taken after it: the hook keeps `drop_watches`. -/
theorem watch_then_lock_clean :
    OrderlyRun init [.openFile 0 1 7, .create, .add 0 0 3 1 0, .flock 0 2] ∧
      CleanClose (run [.openFile 0 1 7, .create, .add 0 0 3 1 0, .flock 0 2]) 0 := by
  have orderly : OrderlyRun init [.openFile 0 1 7, .create, .add 0 0 3 1 0, .flock 0 2] := by
    refine ⟨trivial, trivial, ?_, ?_, trivial⟩
    · intro k
      rfl
    · exact .inr (.inl (by decide +kernel))
  exact ⟨orderly, last_close_clean _ orderly 0⟩

/-- A lock taken first and a watch added after it: the plain store loses `final_close`, and
the lock outlives its owner. -/
theorem watch_over_lock_strands :
    names (close (run [.openFile 0 1 7, .create, .flock 0 2, .add 0 0 3 1 0]) 0).2 0 (.lock 0) =
      true := by
  decide +kernel

/-! ### The lock table along a run -/

theorem step_sound (h : Sound s.held) (op : Op) : Sound (step s op).held := by
  cases op with
  | flock f operation =>
    simp only [step]
    cases s.files f with
    | none => exact h
    | some file =>
      -- only a grant adds an entry; everything else leaves or drops some
      obtain ⟨e, heq⟩ | ⟨-, heq⟩ | ⟨-, exclusive, k, j, free, -, heq⟩ :=
        attempt_cases s f file operation
      · simpa only [heq] using h
      · simpa only [heq] using h.within (dropHeld_spares f f s).held
      · simp only [heq]
        exact h.grant free k
  | close f =>
    simp only [step, close]
    cases s.files f with
    | none => exact h
    | some file => exact h.within (notify_spares f 34 file.onLastClose s).held
  | release f =>
    simp only [step]
    split_ifs
    · exact h.within (dropHeld_spares f f s).held
    · exact h
  | openFile f backend ino => simp only [step]; split_ifs <;> exact h
  | create => simp only [step]; split <;> exact h
  | retire i => exact h
  | add i f descriptor events data =>
    simp only [step, controlAdd]
    split
    · split_ifs
      · exact h
      · split <;> exact h
    · exact h
  | delete i f descriptor =>
    simp only [step, controlDelete]
    split
    · split <;> exact h
    · exact h

theorem foldl_sound {s : State} (h : Sound s.held) : ∀ ops : List Op, Sound (ops.foldl step s).held
  | [] => h
  | op :: ops => foldl_sound (step_sound h op) ops

theorem run_sound (ops : List Op) : Sound (run ops).held :=
  foldl_sound ⟨fun _ _ _ _ h => (by cases h), fun _ _ _ _ h => (by cases h)⟩ ops

/-- In every run, of locks and of the other calls that touch the tables: an open file has at
most one entry, no exclusive entry is beside another for its node, and an attempt that is
refused leaves every table, every word and so every file's lock as it was. -/
theorem locks_sound (ops : List Op) :
    (∀ j k a b, (run ops).held j = some a → (run ops).held k = some b → a.owner = b.owner →
        j = k) ∧
      (∀ j k a b, (run ops).held j = some a → (run ops).held k = some b → j ≠ k →
        a.backend = b.backend → a.ino = b.ino → a.exclusive = false) ∧
      ∀ f file operation e, (attempt (run ops) f file operation).1 = .error e →
        (attempt (run ops) f file operation).2 = run ops :=
  ⟨(run_sound ops).single, (run_sound ops).apart, fun _ _ _ _ h => refused_keeps h⟩

/-- An upgrade beside a second shared lock is refused, and the shared lock stays. -/
theorem refused_upgrade_keeps :
    (run [.openFile 0 1 7, .openFile 1 1 7, .flock 0 1, .flock 1 1]).held 0 =
        some ⟨1, 7, 0, false⟩ ∧
      (attempt (run [.openFile 0 1 7, .openFile 1 1 7, .flock 0 1, .flock 1 1]) 0
        ⟨1, 7, some .finalClose⟩ 2).2 =
        run [.openFile 0 1 7, .openFile 1 1 7, .flock 0 1, .flock 1 1] :=
  ⟨by decide +kernel, (locks_sound _).2.2 0 ⟨1, 7, some .finalClose⟩ 2 .wouldBlock
    (by decide +kernel)⟩

end Cinux.FileLock
