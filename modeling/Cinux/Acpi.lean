/-
The firmware's tables.

The directory of the tables says how long it is, and so does every table.  `FindTable` takes the
header's size from the directory's length before it divides, whatever that length is.

`ParseMadt` walks the entries of one table by their own lengths.

* `findTable_guarded_iff` — when the entries read lie inside the directory;
* `parseMadt_guarded` — what the parser touches, and when it answers.
-/
import Mathlib

namespace Cinux.Acpi

def kHeaderBytes : UInt64 := 36

/-- Where the direct map shows a physical address. -/
def directMapVirt (physical : UInt64) : UInt64 := 0xFFFF800000000000 + physical

variable (mem : UInt64 → UInt8)

/-- A little-endian word of four bytes. -/
def readWord32 (a : UInt64) : UInt64 :=
  (mem a).toUInt64 ||| (mem (a + 1)).toUInt64 <<< 8 ||| (mem (a + 2)).toUInt64 <<< 16 |||
    (mem (a + 3)).toUInt64 <<< 24

/-- Two words, the lower one first. -/
def readPair (a : UInt64) : UInt64 := readWord32 mem a ||| readWord32 mem (a + 4) <<< 32

/-- The bytes of a table add up to zero. -/
def tableSumsToZero (a length : UInt64) : Bool :=
  (List.range length.toNat).foldl (fun sum i => sum + mem (a + .ofNat i)) 0 = 0

/-- The bytes of an entry: the later roots have a directory of their own. -/
def entryBytes (root : UInt64) : ℕ := if 2 ≤ mem (root + 15) then 8 else 4

/-- The XSDT, or the RSDT of a revision before 2. -/
def directory (root : UInt64) : UInt64 :=
  directMapVirt
    (if 2 ≤ mem (root + 15) then readPair mem (root + 24) else readWord32 mem (root + 16))

/-- The length the directory states for itself. -/
def directoryLength (root : UInt64) : UInt64 := readWord32 mem (directory mem root + 4)

/-- The table an entry of the directory names. -/
def tableAt (root : UInt64) (index : ℕ) : UInt64 :=
  let entry := directory mem root + kHeaderBytes + .ofNat (index * entryBytes mem root)
  directMapVirt (if entryBytes mem root = 8 then readPair mem entry else readWord32 mem entry)

/-- The table has the signature, and its bytes sum to zero. -/
def Sealed (signature : ℕ → UInt8) (table : UInt64) : Prop :=
  (∀ i < 4, mem (table + .ofNat i) = signature i) ∧
    tableSumsToZero mem table (readWord32 mem (table + 4)) = true

instance (signature : ℕ → UInt8) (table : UInt64) : Decidable (Sealed mem signature table) :=
  inferInstanceAs (Decidable (_ ∧ _))

/-- The loop of `FindTable` over the entries that are left: those it reads, and the table. -/
def walk (root : UInt64) (signature : ℕ → UInt8) : ℕ → ℕ → List ℕ × Option UInt64
  | 0, _ => ([], none)
  | n + 1, index =>
    if Sealed mem signature (tableAt mem root index) then ([index], some (tableAt mem root index))
    else
      let rest := walk root signature n (index + 1)
      (index :: rest.1, rest.2)

/-- `FindTable`: the entries it looked at, and the table it found. -/
def findTable (root : Option UInt64) (signature : ℕ → UInt8) : List ℕ × Option UInt64 :=
  match root with
  | none => ([], none)
  | some root =>
    if !tableSumsToZero mem (directory mem root) (directoryLength mem root) then ([], none)
    else
      walk mem root signature
        ((directoryLength mem root - kHeaderBytes).toNat / entryBytes mem root) 0

/-- What the loop reads is counted, its first entry is read, and what it answers is sealed. -/
theorem walk_spec (root : UInt64) (signature : ℕ → UInt8) (n index : ℕ) :
    (∀ i ∈ (walk mem root signature n index).1, i < index + n) ∧
    (n ≠ 0 → index ∈ (walk mem root signature n index).1) ∧
    ∀ table ∈ (walk mem root signature n index).2, Sealed mem signature table := by
  induction n generalizing index with
  | zero => exact ⟨nofun, nofun, nofun⟩
  | succ n ih =>
    rw [walk]
    split
    · rename_i hsealed
      refine ⟨fun i hi => ?_, fun _ => List.mem_singleton_self _, ?_⟩
      · rw [List.mem_singleton.mp hi]
        omega
      · rintro table ⟨⟩
        exact hsealed
    · obtain ⟨hbelow, -, htable⟩ := ih (index + 1)
      refine ⟨fun i hi => ?_, fun _ => List.mem_cons_self, htable⟩
      rcases List.mem_cons.mp hi with rfl | hi
      · omega
      · have := hbelow i hi
        omega

/-- For every memory, root and signature: every entry read lies inside the directory's length,
and every table answered is sealed, exactly if the directory does not sum to zero or is as long
as its header. -/
theorem findTable_guarded_iff (root : UInt64) (signature : ℕ → UInt8) :
    ((∀ index ∈ (findTable mem (some root) signature).1,
        36 + (index + 1) * entryBytes mem root ≤ (directoryLength mem root).toNat) ∧
      ∀ table ∈ (findTable mem (some root) signature).2, Sealed mem signature table) ↔
    tableSumsToZero mem (directory mem root) (directoryLength mem root) = false ∨
      36 ≤ (directoryLength mem root).toNat := by
  rw [findTable]
  cases hsum : tableSumsToZero mem (directory mem root) (directoryLength mem root) with
  | false => exact iff_of_true ⟨nofun, nofun⟩ (.inl rfl)
  | true =>
    have hbytes : entryBytes mem root = 4 ∨ entryBytes mem root = 8 := by
      rw [entryBytes]
      split
      · exact .inr rfl
      · exact .inl rfl
    have hrest : (directoryLength mem root - kHeaderBytes).toNat =
        (2 ^ 64 - 36 + (directoryLength mem root).toNat) % 2 ^ 64 := UInt64.toNat_sub ..
    have hlen := (directoryLength mem root).toNat_lt
    obtain ⟨hbelow, hfirst, htable⟩ := walk_spec mem root signature
      ((directoryLength mem root - kHeaderBytes).toNat / entryBytes mem root) 0
    rw [if_neg (by decide)]
    generalize entryBytes mem root = bytes at *
    constructor
    · -- a shorter one wraps the count, and the first entry lies outside
      rintro ⟨hin, -⟩
      by_contra! hshort
      have h0 := hin 0 (hfirst (by rcases hbytes with rfl | rfl <;> omega))
      omega
    · rintro (hno | hlong)
      · cases hno
      · refine ⟨fun i hi => ?_, htable⟩
        have := hbelow i hi
        rcases hbytes with rfl | rfl <;> omega

/-- In memory of zeros a directory is empty, and its first entry is read. -/
theorem empty_directory_read :
    (directoryLength (fun _ => 0) 0x1000).toNat = 0 ∧
      0 ∈ (findTable (fun _ => 0) (some 0x1000) fun i => [70, 65, 67, 80].getD i 0).1 :=
  ⟨by decide, (walk_spec _ _ _ _ 0).2.1 (by decide)⟩

/-! ### The table of the interrupt controllers -/

/-- An interrupt source override of the MADT. -/
structure IrqOverride where
  source : UInt8
  gsi : UInt64
  flags : UInt64

/-- What the MADT tells of the interrupt controllers. -/
structure InterruptTopology where
  localApicAddress : UInt64 := 0
  ioApicAddress : UInt64 := 0
  ioApicGsiBase : UInt64 := 0
  pcatCompatible : Bool := false
  processorApicIds : List UInt8 := []
  overrides : List IrqOverride := []

/-- What the parser touches: bytes of the table, or a place of one of its two arrays. -/
inductive Access where
  | read (offset size : ℕ)
  | processor (index : ℕ)
  | override (index : ℕ)
  deriving DecidableEq

/-- One record of the MADT, by its type; a record that is too short ends the parse. -/
def decodeEntry (t : InterruptTopology) (o : ℕ) :
    List Access × Option InterruptTopology :=
  let entry : UInt64 := .ofNat o
  let length := (mem (entry + 1)).toNat
  let decoded : List Access × Option InterruptTopology := match mem entry with
    | 0 =>
      if length < 8 then ([], none)
      else if readWord32 mem (entry + 4) &&& 3 ≠ 0 ∧ t.processorApicIds.length < 8 then
        ([.read o 8, .processor t.processorApicIds.length],
          some { t with processorApicIds := t.processorApicIds ++ [mem (entry + 3)] })
      else ([.read o 8], some t)
    | 1 =>
      if length < 12 then ([], none)
      else if t.ioApicAddress = 0 then
        ([.read o 12], some { t with ioApicAddress := readWord32 mem (entry + 4)
                                     ioApicGsiBase := readWord32 mem (entry + 8) })
      else ([], some t)
    | 2 =>
      if length < 10 then ([], none)
      else if mem (entry + 2) = 0 ∧ mem (entry + 3) < 16 ∧ t.overrides.length < 16 then
        ([.read o 10, .override t.overrides.length],
          some { t with
            overrides := t.overrides ++ [⟨mem (entry + 3), readWord32 mem (entry + 4),
              (mem (entry + 8)).toUInt64 ||| (mem (entry + 9)).toUInt64 <<< 8⟩] })
      else ([.read o 10], some t)
    | _ => ([], some t)
  (.read o 2 :: decoded.1, decoded.2)

/-- The loop of `ParseMadt`, from an offset on; a header that it and `decode_entry` both read is
noted once. -/
def decodeEntries (length : ℕ) (t : InterruptTopology) (o : ℕ) :
    List Access × Option InterruptTopology :=
  if o < length then
    if length - o < 2 then ([], none)
    else if _ : (mem (.ofNat o + 1)).toNat < 2 ∨ length - o < (mem (.ofNat o + 1)).toNat then
      ([.read o 2], none)
    else
      match decodeEntry mem t o with
      | (seen, none) => (seen, none)
      | (seen, some t) =>
        let rest := decodeEntries length t (o + (mem (.ofNat o + 1)).toNat)
        (seen ++ rest.1, rest.2)
  else ([], some t)
termination_by length - o

/-- `ParseMadt`, with the accesses it makes. -/
def parseMadt (table : Option (UInt64 → UInt8)) (bytes : UInt64) :
    List Access × InterruptTopology :=
  match table with
  | none => ([], {})
  | some mem =>
    if bytes < 44 then ([], {})
    else if [mem 0, mem 1, mem 2, mem 3] ≠ [65, 80, 73, 67] then ([.read 0 4], {})
    else
      let length := readWord32 mem 4
      if length < 44 ∨ bytes < length ∨ 65536 < length then ([.read 0 4, .read 0 44], {})
      else
        let rest := decodeEntries mem length.toNat
          { localApicAddress := readWord32 mem 36
            pcatCompatible := readWord32 mem 40 &&& 1 ≠ 0 } 44
        (.read 0 4 :: .read 0 44 :: rest.1, rest.2.getD {})

/-- In the buffer and below the length or in the table's own header; in the array. -/
def Access.Within (bytes length : ℕ) : Access → Prop
  | read o size => o + size ≤ bytes ∧ (o + size ≤ 44 ∨ o + size ≤ length)
  | processor i => i < 8
  | override i => i < 16

/-- From the offset on, entries lie one behind the other up to the length. -/
inductive Tiled (length : ℕ) : ℕ → Prop
  | done : Tiled length length
  | entry {o : ℕ} (h : 2 ≤ (mem (.ofNat o + 1)).toNat) :
    Tiled length (o + (mem (.ofNat o + 1)).toNat) → Tiled length o

theorem decodeEntry_within {bytes length : ℕ} (o : ℕ) (t : InterruptTopology)
    (h2 : 2 ≤ (mem (.ofNat o + 1)).toNat) (ho : o + (mem (.ofNat o + 1)).toNat ≤ length)
    (hb : length ≤ bytes) : ∀ a ∈ (decodeEntry mem t o).1, a.Within bytes length := by
  simp only [decodeEntry]
  split
  all_goals (try split) <;> (try split)
  all_goals
    simp_all [Access.Within]
    omega

/-- What the loop touches is within, and it comes to its end only over a tiled table. -/
theorem decodeEntries_spec {bytes length : ℕ} (hb : length ≤ bytes) (t : InterruptTopology) (o : ℕ)
    (ho : o ≤ length) :
    (∀ a ∈ (decodeEntries mem length t o).1, a.Within bytes length) ∧
      ((decodeEntries mem length t o).2.isSome → Tiled mem length o) := by
  fun_induction decodeEntries mem length t o with
  | case1 => exact ⟨nofun, nofun⟩
  | case2 t o hlt hroom hbad =>
    refine ⟨?_, nofun⟩
    simp [Access.Within]
    omega
  | case3 t o hlt hroom hok seen hdec =>
    have hseen := decodeEntry_within mem o t (by omega) (by omega) hb
    rw [hdec] at hseen
    exact ⟨hseen, nofun⟩
  | case4 t o hlt hroom hok seen t' hdec rest ih =>
    have hseen := decodeEntry_within mem o t (by omega) (by omega) hb
    rw [hdec] at hseen
    obtain ⟨hrest, htiled⟩ := ih (by omega)
    refine ⟨fun a ha => ?_, fun h => .entry (by omega) (htiled h)⟩
    exact (List.mem_append.mp ha).elim (hseen a) (hrest a)
  | case5 t o hge =>
    obtain rfl : o = length := by omega
    exact ⟨nofun, fun _ => .done⟩

/-- For every buffer: the parser touches bytes of the buffer that belong to its header or lie below
its length, and places of its arrays; it answers a topology only if the entries tile the table. -/
theorem parseMadt_guarded (table : Option (UInt64 → UInt8)) (bytes : UInt64) :
    (∀ a ∈ (parseMadt table bytes).1, ∃ mem ∈ table,
      a.Within bytes.toNat (readWord32 mem 4).toNat) ∧
    ((parseMadt table bytes).2 ≠ {} → ∃ mem ∈ table, Tiled mem (readWord32 mem 4).toNat 44) := by
  cases table with
  | none => exact ⟨nofun, fun h => absurd rfl h⟩
  | some mem =>
    simp only [parseMadt, Option.mem_def, Option.some.injEq, exists_eq_left']
    split
    · exact ⟨nofun, fun h => absurd rfl h⟩
    rename_i hbytes
    have hbytes : 44 ≤ bytes.toNat := UInt64.not_lt.mp hbytes
    split
    · refine ⟨?_, fun h => absurd rfl h⟩
      simp [Access.Within]
      omega
    split
    · refine ⟨?_, fun h => absurd rfl h⟩
      simp [Access.Within]
      omega
    rename_i hlen
    simp only [not_or, UInt64.not_lt, UInt64.le_iff_toNat_le] at hlen
    obtain ⟨hin, htiled⟩ := decodeEntries_spec mem hlen.2.1
      { localApicAddress := readWord32 mem 36, pcatCompatible := readWord32 mem 40 &&& 1 ≠ 0 } 44
      hlen.1
    -- the length was checked before the first entry is read
    refine ⟨?_, fun h => htiled ?_⟩
    · rintro a (_ | ⟨_, _ | ⟨_, ha⟩⟩)
      · exact ⟨by omega, .inl (by omega)⟩
      · exact ⟨hbytes, .inl (Nat.le_refl _)⟩
      · exact hin a ha
    · by_contra hnone
      exact h (by rw [Option.not_isSome_iff_eq_none.mp hnone]; rfl)

/-- A table that says it has 40 bytes is read up to byte 44. -/
theorem short_madt_read :
    let mem := fun a : UInt64 => [65, 80, 73, 67, 40].getD a.toNat 0
    (readWord32 mem 4).toNat = 40 ∧ .read 0 44 ∈ (parseMadt (some mem) 44).1 := by
  decide

end Cinux.Acpi
