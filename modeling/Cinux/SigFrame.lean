/-
Frames of a handler on the user stack (`frame_handler_entry` of
`kernel/proc/signals.cpp`, `uaccess.cpp`, `VmaStore::stack_contains`).

The kernel reaches the user's memory through one door: a range check, and a move of
bytes that stops where a page cannot be had.  A handler is entered by a context written
through the door below the interrupted stack pointer.

* `VmaStore.stackContains_iff` — what the stack window check says of every byte;
* `UserSide.copyToUser_same`, `UserSide.copyToUser_ok` — what a copy may change, and
  what it leaves when it succeeds;
* `wordOf_object` — a row of words crosses the door unchanged;
* `frameHandlerEntry_same` — a delivery stays inside its window;
* `frameHandlerEntry_ok` — what it leaves on the stack.
-/
import Cinux.Signals
import Cinux.ByteMemory
import Cinux.VmaSpans

namespace Cinux

open ByteMemory (spread word Same)

/-! ### The stack window -/

namespace VmaStore

variable {s : VmaStore} {a cursor start stop bytes : ℕ}

/-- The loop of `stack_contains`; every turn passes one byte at least. -/
def stackWalk (s : VmaStore) (stop : ℕ) : ℕ → ℕ → Bool
  | 0, cursor => stop ≤ cursor
  | fuel + 1, cursor =>
    if stop ≤ cursor then true
    else
      match s.find cursor with
      | none => false
      | some region =>
        if region.kind = .stack ∧ region.readable = true ∧ region.writable = true ∧
            region.stackFloor ≤ cursor then
          s.stackWalk stop fuel (min region.stop stop)
        else false

/-- The span lies in stack regions, above their guards. -/
def stackContains (s : VmaStore) (start bytes : ℕ) : Bool :=
  if bytes = 0 ∨ 2 ^ 64 - 1 - start < bytes then false
  else s.stackWalk (start + bytes) bytes start

/-- The byte lies in a stack the task may use, above its floor. -/
def StackByte (s : VmaStore) (a : ℕ) : Prop :=
  ∃ region, s.find a = some region ∧ region.kind = .stack ∧ region.readable = true ∧
    region.writable = true ∧ region.stackFloor ≤ a

theorem Sound.stackWalk_iff (hs : s.Sound) : ∀ {fuel cursor : ℕ}, stop ≤ cursor + fuel →
    (s.stackWalk stop fuel cursor = true ↔ ∀ a, cursor ≤ a → a < stop → s.StackByte a) := by
  intro fuel
  induction fuel with
  | zero =>
    intro cursor hfuel
    simp only [stackWalk, decide_eq_true_eq]
    exact ⟨fun _ a h1 h2 => absurd h2 (by omega), fun _ => hfuel⟩
  | succ fuel ih =>
    intro cursor hfuel
    rw [stackWalk]
    by_cases hend : stop ≤ cursor
    · rw [if_pos hend]
      exact ⟨fun _ a h1 h2 => absurd h2 (by omega), fun _ => rfl⟩
    rw [if_neg hend]
    cases hfind : s.find cursor with
    | none =>
      refine ⟨fun h => by simp at h, fun h => ?_⟩
      obtain ⟨region, hr, -⟩ := h cursor (le_refl cursor) (by omega)
      rw [hfind] at hr
      cases hr
    | some region =>
      obtain ⟨hmem, hcov⟩ := hs.find_eq_some.mp hfind
      have hcov1 : region.start ≤ cursor := hcov.1
      have hcov2 : cursor < region.stop := hcov.2
      simp only
      by_cases hterm : region.kind = .stack ∧ region.readable = true ∧ region.writable = true ∧
          region.stackFloor ≤ cursor
      · rw [if_pos hterm, ih (by omega)]
        constructor
        · intro h a h1 h2
          -- the bytes up to the end of the region are found in it
          by_cases hin : a < region.stop
          · have hfa : s.find a = some region :=
              hs.find_eq_some.mpr ⟨hmem, le_trans hcov1 h1, hin⟩
            exact ⟨region, hfa, hterm.1, hterm.2.1, hterm.2.2.1, le_trans hterm.2.2.2 h1⟩
          · exact h a (by omega) h2
        · exact fun h a h1 h2 => h a (by omega) h2
      · rw [if_neg hterm]
        refine ⟨fun h => by simp at h, fun h => ?_⟩
        obtain ⟨found, hr, hfound⟩ := h cursor (le_refl cursor) (by omega)
        rw [hfind] at hr
        obtain ⟨⟩ := hr
        exact absurd hfound hterm

/-- The window check passes where every byte of the window is a stack byte. -/
theorem Sound.stackContains_iff (hs : s.Sound) : s.stackContains start bytes = true ↔
    bytes ≠ 0 ∧ bytes ≤ 2 ^ 64 - 1 - start ∧
      ∀ a, start ≤ a → a < start + bytes → s.StackByte a := by
  rw [stackContains]
  by_cases hbad : bytes = 0 ∨ 2 ^ 64 - 1 - start < bytes
  · rw [if_pos hbad]
    refine ⟨fun h => by simp at h, fun h => ?_⟩
    omega
  rw [if_neg hbad, hs.stackWalk_iff (le_refl _)]
  have h1 : bytes ≠ 0 := fun h => hbad (.inl h)
  have h2 : bytes ≤ 2 ^ 64 - 1 - start := by omega
  exact ⟨fun h => ⟨h1, h2, h⟩, fun h => h.2.2⟩

end VmaStore

/-! ### The door to user memory -/

/-- The user's side of a task: its bytes, the ranges promised to it, and where the
kernel's own loads and stores get through to a page. -/
structure UserSide where
  mem : ℕ → UInt8
  vmas : VmaStore
  sound : vmas.Sound
  loads : ℕ → Bool
  stores : ℕ → Bool
  loads_of_stores : ∀ a, stores a = true → loads a = true

/-- `UserRangeReadable`, also `UserRangeWritable`. -/
def userRange (start bytes : ℕ) : Bool :=
  bytes ≠ 0 && start ≠ 0 && start < kUserTop && bytes ≤ kUserTop - start

namespace UserSide

variable {u : UserSide} {dst src bytes : ℕ} {buf : ℕ → UInt8}

/-- The move out through the door, byte by byte, up to the first store that bounces. -/
def moveOut (u : UserSide) (buf : ℕ → UInt8) : ℕ → ℕ → ℕ → (ℕ → UInt8) → Bool × (ℕ → UInt8)
  | 0, _, _, mem => (true, mem)
  | left + 1, dst, pos, mem =>
    if u.stores dst then
      u.moveOut buf left (dst + 1) (pos + 1) (Function.update mem dst (buf pos))
    else (false, mem)

/-- `CopyToUser`: false where a store bounces, with the bytes before it written. -/
def copyToUser (u : UserSide) (dst : ℕ) (buf : ℕ → UInt8) (bytes : ℕ) : Bool × UserSide :=
  if bytes = 0 then (true, u)
  else if userRange dst bytes then
    let moved := u.moveOut buf bytes dst 0 u.mem
    (moved.1, { u with mem := moved.2 })
  else (false, u)

/-- `CopyFromUser`; the callers drop what a bounced move has brought. -/
def copyFromUser (u : UserSide) (src bytes : ℕ) : Option (ℕ → UInt8) :=
  if bytes = 0 then some fun _ => 0
  else if userRange src bytes && (List.range bytes).all fun i => u.loads (src + i) then
    some fun i => u.mem (src + i)
  else none

theorem moveOut_same : ∀ {left dst pos : ℕ} {mem : ℕ → UInt8},
    Same {x | dst ≤ x ∧ x < dst + left} mem (u.moveOut buf left dst pos mem).2 := by
  intro left
  induction left with
  | zero => exact fun x _ => rfl
  | succ left ih =>
    intro dst pos mem x hx
    rw [Set.mem_ofPred_eq] at hx
    rw [moveOut]
    split
    · rw [ih x (by rw [Set.mem_ofPred_eq]; omega)]
      exact Function.update_of_ne (by omega) _ _
    · rfl

theorem moveOut_ok : ∀ {left dst pos : ℕ} {mem : ℕ → UInt8},
    (u.moveOut buf left dst pos mem).1 = true → ∀ i < left, u.stores (dst + i) = true ∧
      (u.moveOut buf left dst pos mem).2 (dst + i) = buf (pos + i) := by
  intro left
  induction left with
  | zero => exact fun _ i hi => absurd hi (Nat.not_lt_zero i)
  | succ left ih =>
    intro dst pos mem hok i hi
    rw [moveOut] at hok ⊢
    by_cases hstore : u.stores dst = true
    · rw [if_pos hstore] at hok ⊢
      cases i with
      | zero =>
        refine ⟨hstore, ?_⟩
        -- the rest of the move lies above
        rw [moveOut_same _ (by rw [Set.mem_ofPred_eq]; omega)]
        exact Function.update_self _ _ _
      | succ i =>
        have := ih hok i (by omega)
        rwa [add_assoc, add_comm 1 i, add_assoc, add_comm 1 i] at this
    · rw [if_neg hstore] at hok
      cases hok

@[simp] theorem copyToUser_vmas : (u.copyToUser dst buf bytes).2.vmas = u.vmas := by
  unfold copyToUser
  split
  · rfl
  · split <;> rfl

@[simp] theorem copyToUser_loads : (u.copyToUser dst buf bytes).2.loads = u.loads := by
  unfold copyToUser
  split
  · rfl
  · split <;> rfl

/-- A copy changes nothing outside its target, also when it bounces. -/
theorem copyToUser_same : Same {x | dst ≤ x ∧ x < dst + bytes} u.mem
    (u.copyToUser dst buf bytes).2.mem := by
  unfold copyToUser
  split
  · exact fun _ _ => rfl
  · split
    · exact moveOut_same
    · exact fun _ _ => rfl

theorem copyToUser_ok (hpos : bytes ≠ 0) (h : (u.copyToUser dst buf bytes).1 = true) :
    userRange dst bytes = true ∧ ∀ i < bytes, u.stores (dst + i) = true ∧
      (u.copyToUser dst buf bytes).2.mem (dst + i) = buf i := by
  unfold copyToUser at h ⊢
  rw [if_neg hpos] at h ⊢
  by_cases hrange : userRange dst bytes = true
  · rw [if_pos hrange] at h ⊢
    refine ⟨hrange, fun i hi => ?_⟩
    have := moveOut_ok h i hi
    rwa [zero_add] at this
  · rw [if_neg hrange] at h
    cases h

/-- A copy in succeeds where every load does. -/
theorem copyFromUser_of_loads (hpos : bytes ≠ 0) (hrange : userRange src bytes = true)
    (hloads : ∀ i < bytes, u.loads (src + i) = true) :
    u.copyFromUser src bytes = some fun i => u.mem (src + i) := by
  have hall : ((List.range bytes).all fun i => u.loads (src + i)) = true :=
    List.all_eq_true.mpr fun i hi => hloads i (List.mem_range.mp hi)
  rw [copyFromUser, if_neg hpos, hrange, hall]
  rfl

end UserSide

/-! ### Frames and contexts -/

/-- The words of `SyscallFrame`, in its order. -/
inductive Reg
  | userRsp
  | rcx
  | r11
  | rax
  | rdi
  | rsi
  | rdx
  | r10
  | r8
  | r9
  | rbx
  | rbp
  | r12
  | r13
  | r14
  | r15
deriving DecidableEq, Repr

/-- The words in the order of the frame. -/
def Reg.all : List Reg :=
  [.userRsp, .rcx, .r11, .rax, .rdi, .rsi, .rdx, .r10, .r8, .r9, .rbx, .rbp, .r12, .r13, .r14,
    .r15]

/-- Where the word stands in the frame. -/
def Reg.slot (r : Reg) : ℕ := Reg.all.idxOf r

/-- The registers a call has saved. -/
abbrev SyscallFrame := Reg → BitVec 64

/-- The bytes of an object made of 64-bit words. -/
def object (words : List (BitVec 64)) : ℕ → UInt8 := spread fun k => (words.getD k 0).toNat

/-- A word of such an object. -/
def wordOf (buf : ℕ → UInt8) (k : ℕ) : BitVec 64 := BitVec.ofNat 64 (word buf (8 * k))

theorem wordOf_object (words : List (BitVec 64)) (k : ℕ) :
    wordOf (object words) k = words.getD k 0 := by
  have h : word (object words) (8 * k) = (words.getD k 0).toNat :=
    ByteMemory.word_spread (BitVec.isLt _)
  rw [wordOf, h, BitVec.ofNat_toNat, BitVec.setWidth_eq]

theorem wordOf_congr {buf buf' : ℕ → UInt8} {bytes k : ℕ} (h : ∀ i < bytes, buf i = buf' i)
    (hk : 8 * k + 8 ≤ bytes) : wordOf buf k = wordOf buf' k := by
  rw [wordOf, wordOf, ByteMemory.word_congr fun x _ hx => h x (by omega)]

/-- `SigReturnContext`: the words of the frame, the mask, and a word of padding. -/
structure SigReturnContext where
  frame : SyscallFrame
  oldBlocked : SigSet

/-- `sizeof(SigReturnContext)`. -/
def kContextBytes : ℕ := 144

namespace SigReturnContext

/-- The image as bytes. -/
def toBytes (image : SigReturnContext) : ℕ → UInt8 :=
  object (Reg.all.map image.frame ++ [image.oldBlocked, 0])

/-- The image that the bytes hold. -/
def ofBytes (buf : ℕ → UInt8) : SigReturnContext where
  frame r := wordOf buf r.slot
  oldBlocked := wordOf buf 16

theorem ofBytes_congr {buf buf' : ℕ → UInt8} (h : ∀ i < kContextBytes, buf i = buf' i) :
    ofBytes buf = ofBytes buf' := by
  have hslot : ∀ r : Reg, 8 * r.slot + 8 ≤ kContextBytes := by
    intro r
    cases r <;> decide
  have hframe : (fun r : Reg => wordOf buf r.slot) = fun r => wordOf buf' r.slot :=
    funext fun r => wordOf_congr h (hslot r)
  rw [ofBytes, ofBytes, hframe, wordOf_congr h (by decide)]

theorem ofBytes_toBytes (image : SigReturnContext) : ofBytes image.toBytes = image := by
  have hframe : (fun r : Reg => wordOf image.toBytes r.slot) = image.frame := by
    funext r
    rw [toBytes, wordOf_object]
    cases r <;> rfl
  have hmask : wordOf image.toBytes 16 = image.oldBlocked := by
    rw [toBytes, wordOf_object]
    rfl
  rw [ofBytes, hframe, hmask]

end SigReturnContext

/-- A context stands on the user stack, ready to be returned through. -/
structure Stands (u : UserSide) (context : ℕ) (image : SigReturnContext) : Prop where
  aligned : context % 16 = 0
  range : userRange context kContextBytes = true
  stack : ∀ a, context ≤ a → a < context + kContextBytes → u.vmas.StackByte a
  loads : ∀ i < kContextBytes, u.loads (context + i) = true
  bytes : ∀ i < kContextBytes, u.mem (context + i) = image.toBytes i

/-! ### Entering a handler -/

def kRedZoneBytes : ℕ := 128

/-- The red zone, the slack of the alignment, the context and the return address. -/
def kDeliveryBytes : ℕ := kRedZoneBytes + 15 + kContextBytes + 8

/-- The page above the mappings that holds the return code. -/
def signalTrampolineAddress : BitVec 64 := BitVec.ofNat 64 (kUserMmapTop + kSize)

/-- The stack has room for a delivery below the pointer. -/
def stackHoldsDelivery (u : UserSide) (rsp : ℕ) : Bool :=
  kDeliveryBytes ≤ rsp && u.vmas.stackContains (rsp - kDeliveryBytes) kDeliveryBytes

/-- The bytes a delivery may write: those of the window it checks that are below the red
zone. -/
def deliveryWindow (rsp : ℕ) : Set ℕ :=
  {x | kDeliveryBytes ≤ rsp ∧ rsp - kDeliveryBytes ≤ x ∧ x + kRedZoneBytes < rsp}

/-- Where the context goes: below the red zone, the low four bits masked off. -/
def contextAt (rsp : ℕ) : ℕ := alignDown (rsp - kRedZoneBytes - kContextBytes) 16

/-- Where the handler's `ret` lands. -/
def SigAction.returnAddress (act : SigAction) : BitVec 64 :=
  if act.flags &&& kSaRestorer ≠ 0 then act.restorer else signalTrampolineAddress

/-- The frame that enters the handler. -/
def SyscallFrame.enter (frame : SyscallFrame) (returnSlot number : ℕ) (handler : BitVec 64) :
    SyscallFrame
  | .userRsp => BitVec.ofNat 64 returnSlot
  | .rcx => handler
  | .rdi => BitVec.ofNat 64 number
  | .rax => 0
  | r => frame r

/-- `frame_handler_entry`: the rewritten frame, if the stack took the delivery, and the
user's side as it is left. -/
def frameHandlerEntry (u : UserSide) (frame : SyscallFrame) (number : ℕ) (act : SigAction)
    (blockedBefore : SigSet) : Option SyscallFrame × UserSide :=
  let rsp := (frame .userRsp).toNat
  if stackHoldsDelivery u rsp then
    let context := contextAt rsp
    let returnSlot := context - 8
    let image : SigReturnContext := { frame := frame, oldBlocked := blockedBefore }
    let first := u.copyToUser context image.toBytes kContextBytes
    if first.1 then
      let second := first.2.copyToUser returnSlot (object [act.returnAddress]) 8
      if second.1 then (some (SyscallFrame.enter frame returnSlot number act.handler), second.2)
      else (none, second.2)
    else (none, first.2)
  else (none, u)

section Entry

variable {u : UserSide} {frame : SyscallFrame} {number : ℕ} {act : SigAction} {mask : SigSet}

theorem contextAt_bounds {rsp : ℕ} (h : kDeliveryBytes ≤ rsp) :
    rsp - kDeliveryBytes + 8 ≤ contextAt rsp ∧
      contextAt rsp + kContextBytes + kRedZoneBytes ≤ rsp ∧ contextAt rsp % 16 = 0 := by
  simp only [contextAt, alignDown, floor, kDeliveryBytes] at h ⊢
  omega

/-- The three ways a delivery can go, and the memory each leaves. -/
theorem frameHandlerEntry_cases (u : UserSide) (frame : SyscallFrame) (number : ℕ)
    (act : SigAction) (mask : SigSet) :
    (frameHandlerEntry u frame number act mask = (none, u)) ∨
    (stackHoldsDelivery u (frame .userRsp).toNat = true ∧
      ∃ first second, first = u.copyToUser (contextAt (frame .userRsp).toNat)
          (SigReturnContext.toBytes { frame := frame, oldBlocked := mask }) kContextBytes ∧
        second = first.2.copyToUser (contextAt (frame .userRsp).toNat - 8)
          (object [act.returnAddress]) 8 ∧
        ((frameHandlerEntry u frame number act mask = (none, first.2)) ∨
          (frameHandlerEntry u frame number act mask = (none, second.2)) ∨
          (first.1 = true ∧ second.1 = true ∧
            frameHandlerEntry u frame number act mask = (some (SyscallFrame.enter frame
              (contextAt (frame .userRsp).toNat - 8) number act.handler), second.2)))) := by
  unfold frameHandlerEntry
  simp only
  split
  · rename_i hhas
    refine .inr ⟨hhas, _, _, rfl, rfl, ?_⟩
    split
    · rename_i hfirst
      split
      · rename_i hsec
        exact .inr (.inr ⟨hfirst, hsec, rfl⟩)
      · exact .inr (.inl rfl)
    · exact .inl rfl
  · exact .inl rfl

theorem stackHoldsDelivery_iff {rsp : ℕ} : stackHoldsDelivery u rsp = true ↔
    kDeliveryBytes ≤ rsp ∧ u.vmas.stackContains (rsp - kDeliveryBytes) kDeliveryBytes = true := by
  rw [stackHoldsDelivery, Bool.and_eq_true, decide_eq_true_eq]

/-- A delivery stays inside its window, whether it succeeds or bounces. -/
theorem frameHandlerEntry_same (u : UserSide) (frame : SyscallFrame) (number : ℕ)
    (act : SigAction) (mask : SigSet) : Same (deliveryWindow (frame .userRsp).toNat) u.mem
      (frameHandlerEntry u frame number act mask).2.mem := by
  obtain hno | ⟨hhas, first, second, hfirst, hsec, hway⟩ :=
    frameHandlerEntry_cases u frame number act mask
  · rw [hno]
    exact fun _ _ => rfl
  have hrsp := (stackHoldsDelivery_iff.mp hhas).1
  obtain ⟨hlow, hhi, -⟩ := contextAt_bounds hrsp
  have hone : Same (deliveryWindow (frame .userRsp).toNat) u.mem first.2.mem := by
    rw [hfirst]
    refine UserSide.copyToUser_same.mono fun x hx => ?_
    rw [Set.mem_ofPred_eq] at hx
    exact ⟨hrsp, by omega, by omega⟩
  have htwo : Same (deliveryWindow (frame .userRsp).toNat) first.2.mem second.2.mem := by
    rw [hsec]
    refine UserSide.copyToUser_same.mono fun x hx => ?_
    rw [Set.mem_ofPred_eq] at hx
    exact ⟨hrsp, by omega, by omega⟩
  rcases hway with hres | hres | ⟨-, -, hres⟩
  · rw [hres]
    exact hone
  · rw [hres]
    exact hone.then htwo
  · rw [hres]
    exact hone.then htwo

/-- What a delivery that succeeds leaves: the frame enters the handler, the ranges and
the door are as before, and the context stands under the red zone. -/
theorem frameHandlerEntry_ok {frame' : SyscallFrame} {u' : UserSide}
    (h : frameHandlerEntry u frame number act mask = (some frame', u')) :
    frame' .rcx = act.handler ∧ u'.vmas = u.vmas ∧ u'.loads = u.loads ∧
      Stands u' (contextAt (frame .userRsp).toNat) { frame := frame, oldBlocked := mask } := by
  obtain hno | ⟨hhas, first, second, hfirst, hsec, hway⟩ :=
    frameHandlerEntry_cases u frame number act mask
  · rw [hno] at h
    cases h
  rcases hway with hres | hres | ⟨hok1, hok2, hres⟩
  · rw [hres] at h
    cases h
  · rw [hres] at h
    cases h
  rw [hres] at h
  obtain ⟨hframe, hu⟩ := Prod.mk.inj h
  have hframe := Option.some.inj hframe
  obtain ⟨hrsp, hwin⟩ := stackHoldsDelivery_iff.mp hhas
  obtain ⟨hlow, hhi, haligned⟩ := contextAt_bounds hrsp
  have hvmas : u'.vmas = u.vmas := by
    rw [← hu, hsec, UserSide.copyToUser_vmas, hfirst, UserSide.copyToUser_vmas]
  have hloads : u'.loads = u.loads := by
    rw [← hu, hsec, UserSide.copyToUser_loads, hfirst, UserSide.copyToUser_loads]
  rw [hfirst] at hok1
  obtain ⟨hrange, hwrite⟩ := UserSide.copyToUser_ok (by decide) hok1
  refine ⟨?_, hvmas, hloads, haligned, hrange, fun a h1 h2 => ?_, fun i hi => ?_, fun i hi => ?_⟩
  · rw [← hframe]
    rfl
  · -- the context lies inside the window that was checked
    rw [hvmas]
    exact (u.sound.stackContains_iff.mp hwin).2.2 a (by omega) (by omega)
  · rw [hloads]
    exact u.loads_of_stores _ (hwrite i hi).1
  · -- the return address goes below the context
    have hbelow : u'.mem (contextAt (frame .userRsp).toNat + i) =
        first.2.mem (contextAt (frame .userRsp).toNat + i) := by
      rw [← hu, hsec]
      refine UserSide.copyToUser_same _ ?_
      rw [Set.mem_ofPred_eq]
      omega
    rw [hbelow, hfirst]
    exact (hwrite i hi).2

end Entry

end Cinux
