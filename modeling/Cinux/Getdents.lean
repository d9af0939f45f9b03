/-
Listing a directory (`kernel/syscall/sys_getdents.cpp`, `Ext2::read_dir`).

The call asks the backend for one entry after the other, by the ordinal the open file
keeps, and carries a record for each to the user as long as they fit.  A record is built
in a stack buffer that nothing clears, and the answer 0 means both the end and no room.

* `readDir` — the entry at an ordinal of an ext2 directory;
* `putRecord`, `pack`, `handleGetdents` — the call;
* `answer_same_iff` — when what reaches the user does not depend on the stack;
* `Told`, `getdents_lists_all` — the calls up to the first answer 0 list the directory,
  if no call has room for a record's head and not for the record.
-/
import Cinux.Ext2Layout

namespace Cinux.Getdents

open ByteMemory List Option
open Ext2 (DirEntry kFsNameMax)

/-- The kinds of nodes a directory can list. -/
inductive InodeType
  | file
  | directory
  | charDevice

/-- `FsDirent`; `name` is its array, as far as it is set. -/
structure FsDirent where
  name : List UInt8
  type : InodeType
  ino : ℕ
  terminated : 0 ∈ name.take kFsNameMax

/-- What a backend has at an ordinal; an error is its error number. -/
abbrev ReadDir := ℕ → Except ℕ+ (Option FsDirent)

/-! ### The backend -/

/-- The visitor `Ext2::read_dir` gives to `walk_entries`, over the live entries. -/
def visit (index : ℕ) : ℕ → List DirEntry →
    Option { item : DirEntry // item.name.length < kFsNameMax }
  | _, [] => none
  | seen, item :: rest =>
    if h : item.name.length < kFsNameMax then
      if seen ≠ index then visit index (seen + 1) rest else some ⟨item, h⟩
    else visit index seen rest

/-- `Ext2::read_dir`; `live` are the entries of the directory with an inode, in order, and
`shape` is what the inode of a child says of it. -/
def readDir (live : List DirEntry) (shape : ℕ → Except ℕ+ InodeType) : ReadDir := fun index =>
  match visit index 0 live with
  | none => .ok none
  | some ⟨item, h⟩ =>
    if item.inode = 0 then .ok none
    else
      match shape item.inode with
      | .error e => .error e
      | .ok type => .ok (some
          { name := item.name ++ [0], type := type, ino := item.inode
            terminated := by
              rw [take_of_length_le (by simpa using Nat.succ_le_of_lt h)]
              simp })

/-! ### Records -/

def kDirent64NameAt : ℕ := 19

/-- The bytes of the name up to its zero, with the zero. -/
def nameRun (entry : FsDirent) : ℕ :=
  ((entry.name.take kFsNameMax).takeWhile (· ≠ 0)).length + 1

/-- The bytes of a record, rounded up to eight. -/
def recordBytes (entry : FsDirent) : ℕ := alignUp (kDirent64NameAt + nameRun entry) 8

/-- The `d_type` word of a kind. -/
def direntTypeWord : InodeType → ℕ
  | .directory => 4
  | .charDevice => 2
  | .file => 8

/-- `CopyBytes`. -/
def copyBytes (base : ℕ → UInt8) (at_ : ℕ) (bytes : List UInt8) (i : ℕ) : UInt8 :=
  if at_ ≤ i then (bytes[i - at_]?).getD (base i) else base i

/-- The record written over what its buffer holds. -/
def putRecord (base : ℕ → UInt8) (entry : FsDirent) (next : ℕ) : ℕ → UInt8 :=
  let base := writeLE base 0 entry.ino 8
  let base := writeLE base 8 next 8
  let base := writeLE base 16 (recordBytes entry) 2
  let base := writeLE base 18 (direntTypeWord entry.type) 1
  copyBytes base kDirent64NameAt (entry.name.take (nameRun entry))

/-! ### The call -/

/-- The loop of `HandleGetdents`: the early answer if there is one, the bytes each copy
carried over, and the ordinal.  The buffer `record` is not cleared between turns; `crossed`
says how many bytes of a copy reach the user. -/
def pack (dir : ReadDir) (crossed : ℕ → ℕ → ℕ) (rdx : ℕ) :
    ℕ → ℕ → ℕ → (ℕ → UInt8) → Option ℤ × List (List UInt8) × ℕ
  | 0, _, offset, _ => (none, [], offset)
  | fuel + 1, filled, offset, record =>
    match dir offset with
    | .error e => (some (-(e : ℕ)), [], offset)
    | .ok none => (none, [], offset)
    | .ok (some entry) =>
      let need := recordBytes entry
      if rdx < filled + need then (none, [], offset)
      else
        let record := putRecord record entry (offset + 1)
        let bytes := (List.range need).map record
        if crossed filled need < need then
          (some (-kEfault), [bytes.take (crossed filled need)], offset)
        else
          let rest := pack dir crossed rdx fuel (filled + need) (offset + 1) record
          (rest.1, bytes :: rest.2.1, rest.2.2)

/-- The answer of the call, the records copied out, and the offset it leaves. -/
structure Answer where
  value : ℤ
  records : List (List UInt8)
  offset : ℕ

/-- `HandleGetdents` for an open directory; a turn fills at least one byte, so there are at
most `rdx` turns that fill any. -/
def handleGetdents (dir : ReadDir) (crossed : ℕ → ℕ → ℕ) (stack : ℕ → UInt8) (offset rdx : ℕ) :
    Answer :=
  if rdx = 0 then ⟨-kEfault, [], offset⟩
  else
    let packed := pack dir crossed rdx (rdx + 1) 0 offset stack
    let filled := packed.2.1.flatten.length
    ⟨packed.1.getD (if filled = 0 ∧ rdx < kDirent64NameAt then -kEinval else filled),
      packed.2.1, packed.2.2⟩

/-- Every copy arrives. -/
def arrives (_ need : ℕ) : ℕ := need

/-! ### Bytes of the stack -/

variable {entry : FsDirent} {dir : ReadDir} {rdx : ℕ}

theorem writeLE_congr {m m' : ℕ → UInt8} {x : ℕ} : ∀ {n a v : ℕ},
    (x < a ∨ a + n ≤ x → m x = m' x) → writeLE m a v n x = writeLE m' a v n x := by
  intro n
  induction n with
  | zero => exact fun h => h (by omega)
  | succ n ih =>
    intro a v h
    simp only [writeLE, Function.update_apply]
    split
    · rfl
    · exact ih fun hx => h (by omega)

theorem nameRun_le (entry : FsDirent) : nameRun entry ≤ (entry.name.take kFsNameMax).length := by
  refine Nat.succ_le_of_lt (lt_of_le_of_ne (takeWhile_sublist _).length_le fun h => ?_)
  -- the run would reach past the NUL
  have hall := ( takeWhile_prefix _).eq_of_length h
  have hnul := all_eq_true.mp all_takeWhile 0 (hall.symm ▸ entry.terminated)
  exact of_decide_eq_true hnul rfl

/-- What a record says, whatever was on the stack. -/
theorem putRecord_congr (b b' : ℕ → UInt8) (next : ℕ) {i : ℕ}
    (hi : i < kDirent64NameAt + nameRun entry) :
    putRecord b entry next i = putRecord b' entry next i := by
  have hle := nameRun_le entry
  have hlen : (entry.name.take (nameRun entry)).length = nameRun entry := by
    rw [length_take] at hle ⊢
    omega
  simp only [putRecord, copyBytes]
  unfold kDirent64NameAt at *
  split
  · rw [getElem?_eq_getElem (by omega), getD_some, getD_some]
  · exact writeLE_congr fun h18 => writeLE_congr fun h16 => writeLE_congr fun h8 =>
      writeLE_congr fun h0 => by omega

/-- A record leaves the buffer behind the name as it was. -/
theorem putRecord_behind (b : ℕ → UInt8) (next : ℕ) {i : ℕ}
    (behind : kDirent64NameAt + nameRun entry ≤ i) : putRecord b entry next i = b i := by
  have head : kDirent64NameAt = 19 := rfl
  have short : (entry.name.take (nameRun entry)).length ≤ nameRun entry := length_take_le ..
  simp only [putRecord, copyBytes]
  rw [if_pos (by omega), getElem?_eq_none (by omega), getD_none, writeLE_outside (by omega),
    writeLE_outside (by omega), writeLE_outside (by omega), writeLE_outside (by omega)]

/-- The records of a call, by their sizes: no byte that is copied to the user lies behind all that
the call has written to the buffer so far, which is its first `top` bytes. -/
def Written (dir : ReadDir) (crossed : ℕ → ℕ → ℕ) (rdx : ℕ) : ℕ → ℕ → ℕ → ℕ → Prop
  | 0, _, _, _ => True
  | fuel + 1, filled, offset, top =>
    match dir offset with
    | .error _ => True
    | .ok none => True
    | .ok (some entry) =>
      let need := recordBytes entry
      let top := max top (kDirent64NameAt + nameRun entry)
      if rdx < filled + need then True
      else if crossed filled need < need then crossed filled need ≤ top
      else need ≤ top ∧ Written dir crossed rdx fuel (filled + need) (offset + 1) top

/-- Two buffers hold the same up to `top`. -/
def Agree (top : ℕ) (b b' : ℕ → UInt8) : Prop := ∀ i, i < top → b i = b' i

/-- They differ in every byte from there on. -/
def Part (top : ℕ) (b b' : ℕ → UInt8) : Prop := ∀ i, top ≤ i → b i ≠ b' i

variable {b b' : ℕ → UInt8} {top : ℕ}

theorem Agree.putRecord (h : Agree top b b') (entry : FsDirent) (next : ℕ) :
    Agree (max top (kDirent64NameAt + nameRun entry)) (putRecord b entry next)
      (putRecord b' entry next) := by
  intro i hi
  by_cases name : i < kDirent64NameAt + nameRun entry
  · exact putRecord_congr b b' next name
  · rw [putRecord_behind b next (not_lt.mp name), putRecord_behind b' next (not_lt.mp name)]
    exact h i ((lt_max_iff.mp hi).resolve_right name)

theorem Part.putRecord (h : Part top b b') (entry : FsDirent) (next : ℕ) :
    Part (max top (kDirent64NameAt + nameRun entry)) (putRecord b entry next)
      (putRecord b' entry next) := by
  intro i hi
  rw [max_le_iff] at hi
  rw [putRecord_behind b next hi.2, putRecord_behind b' next hi.2]
  exact h i hi.1

/-- So many bytes of two buffers are the same exactly where none of them lies behind `top`. -/
theorem Agree.range_map (h : Agree top b b') {n : ℕ} (le : n ≤ top) :
    (List.range n).map b = (List.range n).map b' :=
  map_congr_left fun i hi => h i (lt_of_lt_of_le (mem_range.mp hi) le)

theorem Part.le_of_range_map (h : Part top b b') {n : ℕ}
    (same : (List.range n).map b = (List.range n).map b') : n ≤ top := by
  by_contra hc
  rw [not_le] at hc
  exact h top le_rfl (map_inj_left.mp same top (mem_range.mpr hc))

theorem take_range_map {n m : ℕ} (le : n ≤ m) (b : ℕ → UInt8) :
    ((List.range m).map b).take n = (List.range n).map b := by
  rw [← map_take, take_range, min_eq_left le]

/-- A call that copies only what it has written gives the same from both buffers. -/
theorem pack_congr (crossed : ℕ → ℕ → ℕ) (fuel : ℕ) : ∀ {filled offset top b b'},
    Agree top b b' → Written dir crossed rdx fuel filled offset top →
    pack dir crossed rdx fuel filled offset b = pack dir crossed rdx fuel filled offset b' := by
  induction fuel with
  | zero => exact fun _ _ => rfl
  | succ fuel ih =>
    intro filled offset top b b' agree written
    rw [pack, pack]
    rw [Written] at written
    cases hd : dir offset with
    | error e => rfl
    | ok found =>
      cases found with
      | none => rfl
      | some e =>
        simp only [hd] at written ⊢
        have agree' := agree.putRecord e (offset + 1)
        by_cases full : rdx < filled + recordBytes e
        · rw [if_pos full, if_pos full]
        rw [if_neg full] at written ⊢
        rw [if_neg full]
        by_cases short : crossed filled (recordBytes e) < recordBytes e
        · rw [if_pos short] at written ⊢
          rw [if_pos short, take_range_map short.le, take_range_map short.le,
            agree'.range_map written]
        · rw [if_neg short] at written ⊢
          rw [if_neg short, agree'.range_map written.1, ih agree' written.2]

/-- And from buffers that differ wherever the call has not written, it gives the same in no other
case. -/
theorem written_of_pack_eq (crossed : ℕ → ℕ → ℕ) (fuel : ℕ) : ∀ {filled offset top b b'},
    Part top b b' → (pack dir crossed rdx fuel filled offset b).2.1
      = (pack dir crossed rdx fuel filled offset b').2.1 →
    Written dir crossed rdx fuel filled offset top := by
  induction fuel with
  | zero => exact fun _ _ => trivial
  | succ fuel ih =>
    intro filled offset top b b' part same
    rw [pack, pack] at same
    rw [Written]
    cases hd : dir offset with
    | error e => trivial
    | ok found =>
      cases found with
      | none => trivial
      | some e =>
        simp only [hd] at same ⊢
        -- both buffers now hold the record, and differ in the padding only
        have part' := part.putRecord e (offset + 1)
        by_cases full : rdx < filled + recordBytes e
        · rw [if_pos full]
          trivial
        rw [if_neg full]
        rw [if_neg full, if_neg full] at same
        by_cases short : crossed filled (recordBytes e) < recordBytes e
        · rw [if_pos short, if_pos short, take_range_map short.le, take_range_map short.le] at same
          rw [if_pos short]
          exact part'.le_of_range_map (cons.inj same).1
        · rw [if_neg short, if_neg short] at same
          rw [if_neg short]
          exact ⟨part'.le_of_range_map (cons.inj same).1, ih part' (cons.inj same).2⟩

/-- A call gives the user the same whatever was on the kernel stack before it, exactly where no
padding it copies lies behind all that it has written to its buffer so far.  Entries that are not
reached or do not fit do not count, and padding does not where an earlier record was longer. -/
theorem answer_same_iff (dir : ReadDir) (crossed : ℕ → ℕ → ℕ) (offset rdx : ℕ) :
    (∀ stack stack' : ℕ → UInt8, handleGetdents dir crossed stack offset rdx =
      handleGetdents dir crossed stack' offset rdx) ↔
    rdx = 0 ∨ Written dir crossed rdx (rdx + 1) 0 offset 0 := by
  by_cases none : rdx = 0
  · simp only [handleGetdents, none, if_true, true_or, implies_true]
  rw [or_iff_right none]
  constructor
  · intro same
    have records := congrArg Answer.records (same (fun _ => 0) fun _ => 1)
    simp only [handleGetdents, if_neg none] at records
    exact written_of_pack_eq crossed (rdx + 1) (fun _ _ => by decide) records
  · intro written stack stack'
    simp only [handleGetdents, if_neg none]
    have agree : Agree 0 stack stack' := fun i hi => absurd hi (Nat.not_lt_zero i)
    rw [pack_congr crossed (rdx + 1) agree written]

/-- A directory with one entry, of a name with padding behind it. -/
def lone : ReadDir := readDir [⟨12, 12, [0x61]⟩] fun _ => .ok .file

/-- Three bytes of the stack behind a name of one letter. -/
theorem padding_shows_stack : handleGetdents lone arrives (fun _ => 0) 0 24 ≠
      handleGetdents lone arrives (fun _ => 1) 0 24 := by
  intro h
  have h23 := congrArg (fun a : Answer => a.records.flatten[23]?) h
  revert h23
  decide +kernel

/-! ### The whole listing -/

/-- The bytes are a record of the entry, with the ordinal after it: they end where the
record's own length says, behind the name and its NUL. -/
structure Describes (e : FsDirent) (next : ℕ) (r : List UInt8) : Prop where
  length : r.length = recordBytes e
  covers : kDirent64NameAt + nameRun e ≤ r.length
  len : readLE (r.getD · 0) 16 2 = r.length
  ino : readLE (r.getD · 0) 0 8 = e.ino % 2 ^ 64
  off : readLE (r.getD · 0) 8 8 = next % 2 ^ 64
  type : readLE (r.getD · 0) 18 1 = direntTypeWord e.type
  name : (r.drop kDirent64NameAt).take (nameRun e) = e.name.take (nameRun e)

/-- From one ordinal to another, each record is of the entry the backend has there. -/
inductive Told (dir : ReadDir) : ℕ → List FsDirent → List (List UInt8) → ℕ → Prop
  | nil (o : ℕ) : Told dir o [] [] o
  | cons {o n : ℕ} {e : FsDirent} {r : List UInt8} {es : List FsDirent} {rs : List (List UInt8)}
      (hd : dir o = .ok (some e)) (hr : Describes e (o + 1) r) (rest : Told dir (o + 1) es rs n) :
      Told dir o (e :: es) (r :: rs) n

theorem Told.append {o m n : ℕ} {es es' : List FsDirent} {rs rs' : List (List UInt8)}
    (h : Told dir o es rs m) (h' : Told dir m es' rs' n) :
    Told dir o (es ++ es') (rs ++ rs') n := by
  induction h with
  | nil => exact h'
  | cons hd hr _ ih => exact .cons hd hr (ih h')

theorem Told.empty {o n : ℕ} {es : List FsDirent} {rs : List (List UInt8)} (h : Told dir o es rs n)
    (hnil : rs.flatten.length = 0) : es = [] ∧ rs = [] ∧ n = o := by
  cases h with
  | nil => exact ⟨rfl, rfl, rfl⟩
  | cons _ hr _ =>
    have hpos := hr.covers
    rw [flatten_cons, length_append] at hnil
    unfold kDirent64NameAt at hpos
    omega

theorem recordBytes_bounds (e : FsDirent) :
    kDirent64NameAt + nameRun e ≤ recordBytes e ∧ recordBytes e < 2 ^ 16 := by
  have hle := nameRun_le e
  rw [length_take] at hle
  simp only [recordBytes, alignUp, ceil, wrap, kDirent64NameAt, kFsNameMax] at *
  omega

theorem describes_putRecord (b : ℕ → UInt8) (e : FsDirent) (next : ℕ) :
    Describes e next ((List.range (recordBytes e)).map (putRecord b e next)) := by
  obtain ⟨hcov, hlt⟩ := recordBytes_bounds e
  have hget : ∀ i < recordBytes e,
      ((List.range (recordBytes e)).map (putRecord b e next)).getD i 0 = putRecord b e next i := by
    intro i hi
    simp [getElem?_range hi]
  -- the fields lie before the name, one after the other
  have hread : ∀ a n, a + n ≤ kDirent64NameAt →
      readLE (((List.range (recordBytes e)).map (putRecord b e next)).getD · 0) a n =
        readLE (writeLE (writeLE (writeLE (writeLE b 0 e.ino 8) 8 next 8) 16 (recordBytes e) 2) 18
          (direntTypeWord e.type) 1) a n := by
    intro a n ha
    refine readLE_congr fun x _ hx => ?_
    rw [hget x (by omega), putRecord, copyBytes, if_neg (by omega)]
  refine ⟨by simp, by simpa using hcov, ?_, ?_, ?_, ?_, ?_⟩
  · rw [hread _ _ (by decide), readLE_writeLE_apart (by decide), readLE_writeLE]
    simpa using Nat.mod_eq_of_lt hlt
  · rw [hread _ _ (by decide), readLE_writeLE_apart (by decide), readLE_writeLE_apart (by decide),
      readLE_writeLE_apart (by decide), readLE_writeLE]
    rfl
  · rw [hread _ _ (by decide), readLE_writeLE_apart (by decide), readLE_writeLE_apart (by decide),
      readLE_writeLE]
    rfl
  · rw [hread _ _ (by decide)]
    cases e.type <;> rfl
  · refine ext_getElem? fun i => ?_
    have hle := nameRun_le e
    rw [length_take] at hle
    by_cases hi : i < nameRun e
    · rw [getElem?_take_of_lt hi, getElem?_drop, getElem?_map,
        getElem?_range (by omega), map_some, putRecord, copyBytes,
        if_pos (Nat.le_add_right _ _), Nat.add_sub_cancel_left, getElem?_take_of_lt hi,
        getElem?_eq_getElem (by omega), getD_some]
    · rw [getElem?_take_eq_none (not_lt.mp hi), getElem?_take_eq_none (not_lt.mp hi)]

/-- A loop whose copies all arrive tells of the entries from its ordinal on, and stops at an
error, at the end or at an entry that does not fit. -/
theorem pack_spec : ∀ fuel filled offset b, filled ≤ rdx → rdx < filled + fuel → ∀ {v rs n},
    pack dir arrives rdx fuel filled offset b = (v, rs, n) →
    ∃ es, Told dir offset es rs n ∧ ((∃ e : ℕ+, dir n = .error e ∧ v = some (-((e : ℕ) : ℤ))) ∨
        v = none ∧ (dir n = .ok none ∨
          ∃ e, dir n = .ok (some e) ∧ rdx < filled + rs.flatten.length + recordBytes e)) := by
  intro fuel
  induction fuel with
  | zero => intro filled offset b h1 h2; omega
  | succ fuel ih =>
    intro filled offset b h1 h2 v rs n h
    rw [pack] at h
    cases hd : dir offset with
    | error e =>
      simp only [hd] at h
      obtain ⟨⟩ := h
      exact ⟨[], .nil _, .inl ⟨e, hd, rfl⟩⟩
    | ok found =>
      cases found with
      | none =>
        simp only [hd] at h
        obtain ⟨⟩ := h
        exact ⟨[], .nil _, .inr ⟨rfl, .inl hd⟩⟩
      | some e =>
        simp only [hd, arrives] at h
        split at h
        · rename_i hfull
          obtain ⟨⟩ := h
          exact ⟨[], .nil _, .inr ⟨rfl, .inr ⟨e, hd, by simpa using hfull⟩⟩⟩
        -- the entry fits, and the loop goes on behind it
        rcases hp : pack dir arrives rdx fuel (filled + recordBytes e) (offset + 1)
          (putRecord b e (offset + 1)) with ⟨v', rs', n'⟩
        rw [hp] at h
        obtain ⟨rfl, rfl, rfl⟩ : v' = v ∧ _ :: rs' = rs ∧ n' = n := by simpa using h
        have hpos := (recordBytes_bounds e).1
        obtain ⟨es, htold, hend⟩ := ih _ _ _ (by omega)
          (by unfold kDirent64NameAt at hpos; omega) hp
        refine ⟨e :: es, .cons hd (describes_putRecord b e _) htold, hend.imp_right ?_⟩
        refine And.imp_right (Or.imp_right ?_)
        rintro ⟨e', hd', hlt⟩
        refine ⟨e', hd', ?_⟩
        rw [flatten_cons, length_append, length_map, length_range]
        omega

/-- The records a user gets from calls with these buffers and stacks, up to the first answer
0; a call that fails returns none. -/
def listing (dir : ReadDir) : ℕ → List (ℕ × (ℕ → UInt8)) → Option (List (List UInt8))
  | _, [] => none
  | offset, (rdx, stack) :: calls =>
    let done := handleGetdents dir arrives stack offset rdx
    if done.value = 0 then some []
    else (listing dir done.offset calls).map ((if done.value < 0 then [] else done.records) ++ ·)

/-- No call has room for the head of a record but not for the record that is next. -/
def Roomy (dir : ReadDir) : ℕ → List (ℕ × (ℕ → UInt8)) → Prop
  | _, [] => True
  | offset, (rdx, stack) :: calls =>
    (∀ e, dir offset = .ok (some e) → rdx < kDirent64NameAt ∨ recordBytes e ≤ rdx) ∧
      Roomy dir (handleGetdents dir arrives stack offset rdx).offset calls

theorem listing_stuck {offset : ℕ} {e : ℕ+} (hd : dir offset = .error e) :
    ∀ calls, listing dir offset calls = none := by
  intro calls
  induction calls with
  | nil => rfl
  | cons call calls ih =>
    obtain ⟨rdx, stack⟩ := call
    have hstay : handleGetdents dir arrives stack offset rdx =
        ⟨if rdx = 0 then -kEfault else -((e : ℕ) : ℤ), [], offset⟩ := by
      rw [handleGetdents, pack]
      simp only [hd]
      split <;> rfl
    rw [listing, hstay]
    simp only [ih]
    split
    · decide
    · simp

theorem listing_told : ∀ {calls offset records}, Roomy dir offset calls →
    listing dir offset calls = some records →
    ∃ es n, Told dir offset es records n ∧ dir n = .ok none := by
  intro calls
  induction calls with
  | nil => intro offset records _ h; nomatch h
  | cons call calls ih =>
    obtain ⟨rdx, stack⟩ := call
    intro offset records hroom h
    rw [listing] at h
    rw [Roomy] at hroom
    by_cases hrdx : rdx = 0
    · -- refused at once, and the ordinal stays
      have hstay : handleGetdents dir arrives stack offset rdx =
          ⟨-kEfault, [], offset⟩ := if_pos hrdx
      rw [hstay] at h hroom
      obtain ⟨rest, hrest, rfl⟩ := map_eq_some_iff.mp h
      exact ih hroom.2 hrest
    rcases hp : pack dir arrives rdx (rdx + 1) 0 offset stack with ⟨v, rs, n⟩
    obtain ⟨es, htold, hend⟩ := pack_spec (rdx + 1) 0 offset stack (Nat.zero_le _) (by omega) hp
    have hdone : handleGetdents dir arrives stack offset rdx =
        ⟨v.getD (if rs.flatten.length = 0 ∧ rdx < kDirent64NameAt then -kEinval
          else rs.flatten.length), rs, n⟩ := by
      rw [handleGetdents, if_neg hrdx, hp]
    rw [hdone] at h hroom
    rcases hend with ⟨e, hd, rfl⟩ | ⟨rfl, hend⟩
    · -- the backend failed, and will fail at this ordinal again
      simp [listing_stuck hd] at h
    rw [getD_none] at h
    by_cases hnil : rs.flatten.length = 0
    · obtain ⟨rfl, rfl, rfl⟩ := htold.empty hnil
      by_cases hlow : rdx < kDirent64NameAt
      · exact ih hroom.2 (by simpa [hlow, kEinval] using h)
      -- the answer is 0: an entry that is there would have had room
      obtain rfl : [] = records := by simpa [hlow] using h
      rcases hend with hd | ⟨e, hd, hlt⟩
      · exact ⟨[], n, .nil n, hd⟩
      · rcases hroom.1 e hd with hc | hc
        · exact absurd hc hlow
        · omega
    · have hpos : ¬ ((rs.flatten.length : ℤ) < 0) := by omega
      simp only [hnil, false_and, if_false, Int.natCast_eq_zero] at h
      obtain ⟨rest, hrest, rfl⟩ := map_eq_some_iff.mp h
      obtain ⟨es', m, htold', hd⟩ := ih hroom.2 hrest
      exact ⟨es ++ es', m, htold.append htold', hd⟩

/-! ### Directories of ext2 -/

variable {live : List DirEntry} {shape : ℕ → Except ℕ+ InodeType}

theorem visit_eq (index : ℕ) : ∀ {live : List DirEntry} {seen : ℕ},
    (∀ item ∈ live, item.name.length < kFsNameMax) → seen ≤ index →
    (visit index seen live).map Subtype.val = live[index - seen]? := by
  intro live
  induction live with
  | nil => exact fun _ _ => rfl
  | cons item rest ih =>
    intro seen hshort hseen
    rw [visit, dif_pos (hshort item mem_cons_self)]
    split
    · rw [ih (fun x hx => hshort x (mem_cons_of_mem _ hx)) (by omega),
        show index - seen = index - (seen + 1) + 1 by omega, getElem?_cons_succ]
    · rename_i heq
      rw [not_not.mp heq, Nat.sub_self]
      rfl

/-- A listing of an ext2 directory up to its end has every live entry, in order. -/
theorem told_live (hlive : ∀ item ∈ live, item.inode ≠ 0 ∧ item.name.length < kFsNameMax)
    {o n : ℕ} {es : List FsDirent} {rs : List (List UInt8)}
    (h : Told (readDir live shape) o es rs n)
    (hend : readDir live shape n = .ok none) :
    es.map (fun e => (e.ino, e.name)) = (live.drop o).map fun item =>
      (item.inode, item.name ++ [0]) := by
  -- with names that fit, every entry is counted
  have hat : ∀ i, (visit i 0 live).map Subtype.val = live[i]? := fun i =>
    visit_eq i (fun item h => (hlive item h).2) (Nat.zero_le i)
  induction h with
  | nil o =>
    have hnone : live[o]? = none := by
      rw [← hat]
      cases hv : visit o 0 live with
      | none => rfl
      | some found =>
        have hne := (hlive _ (mem_of_getElem? ((hat o).symm.trans (by rw [hv]; rfl)))).1
        simp only [readDir, hv, hne, if_false] at hend
        split at hend <;> nomatch hend
    rw [drop_eq_nil_of_le (getElem?_eq_none_iff.mp hnone)]
    rfl
  | @cons o n e r es rs hd _ _ ih =>
    cases hv : visit o 0 live with
    | none => simp [readDir, hv] at hd
    | some found =>
      have hget : live[o]? = some found.val := (hat o).symm.trans (by rw [hv]; rfl)
      have hne := (hlive _ (mem_of_getElem? hget)).1
      simp only [readDir, hv, hne, if_false] at hd
      split at hd
      · nomatch hd
      · obtain rfl := Option.some.inj (Except.ok.inj hd)
        rw [drop_eq_getElem?_toList_append, hget, map_cons, ih hend]
        rfl

/-- A run of calls up to the first that returns 0 has told of every entry of the directory,
once and in order, if no call had room for a record's head but not for the next record. -/
theorem getdents_lists_all (dir : ReadDir) (calls : List (ℕ × (ℕ → UInt8)))
    (records : List (List UInt8)) (hroom : Roomy dir 0 calls)
    (h : listing dir 0 calls = some records) :
    ∃ entries n, Told dir 0 entries records n ∧ dir n = .ok none ∧
      ∀ live shape, dir = readDir live shape →
        (∀ item ∈ live, item.inode ≠ 0 ∧ item.name.length < kFsNameMax) →
        entries.map (fun e => (e.ino, e.name)) =
          live.map fun item => (item.inode, item.name ++ [0]) := by
  obtain ⟨entries, n, htold, hend⟩ := listing_told hroom h
  refine ⟨entries, n, htold, hend, ?_⟩
  rintro live shape rfl hlive
  exact told_live hlive htold hend

/-- A directory with three entries. -/
def three : ReadDir :=
  readDir [⟨11, 12, [0x61]⟩, ⟨12, 12, [0x6D, 0x61, 0x69, 0x6E]⟩, ⟨13, 12, [0x62, 0x63]⟩]
    fun _ => .ok .file

/-- Its records come in two calls, two and one, and the third call is at its end. -/
theorem three_listed : ∃ records entries n,
    listing three 0 [(48, fun _ => 0), (48, fun _ => 1), (48, fun _ => 0)] = some records ∧
    records.length = 3 ∧ Told three 0 entries records n ∧
    entries.map FsDirent.ino = [11, 12, 13] := by
  have room : Roomy three 0 [(48, fun _ => 0), (48, fun _ => 1), (48, fun _ => 0)] := by
    refine ⟨fun e h => .inr ?_, fun e h => .inr ?_, fun e h => ?_, trivial⟩
    · obtain rfl := Option.some.inj (Except.ok.inj h)
      decide +kernel
    · obtain rfl := Option.some.inj (Except.ok.inj h)
      decide +kernel
    · exact absurd (h.symm.trans (show _ = .ok none from rfl)) (by simp)
  obtain ⟨entries, n, told, -, all⟩ := getdents_lists_all three _ _ room rfl
  have names := all _ _ rfl (by decide)
  refine ⟨_, entries, n, rfl, rfl, told, ?_⟩
  have inos := congrArg (map Prod.fst) names
  rw [List.map_map] at inos
  exact inos

/-- Room for the head alone: the answer is 0, and the entry is never told of. -/
theorem short_buffer_ends_listing :
    listing lone 0 [(20, fun _ => 0)] = some [] ∧ ∃ e, lone 0 = .ok (some e) :=
  ⟨rfl, _, rfl⟩

end Cinux.Getdents
