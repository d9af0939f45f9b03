/-
The modifiers of the keyboard (`kernel/driver/keyboard/scancode.cpp`).

A keyboard sends one byte for a key of the main block, a leader and a byte for one of the extended
group, and six bytes when Pause goes down.  A key is down or up once its last byte is sent.

* `TranslatorState`, `translateScancode` — the translator;
* `Event`, `press` — what the keyboard sends, beside the keys that are down;
* `modifiers_tracked` — what the translator holds for shift and control.
-/
import Cinux.Runs

namespace Cinux.Scancode

open Function Runs

def kScancodeGlyphs : ℕ := 64

/-- Glyphs without shift; a make code that has none is followed by the end of the text. -/
def kScancodeLower : String :=
  "\x00\x001234567890-=\x08\x00qwertyuiop[]\n\x00asdfghjkl;'`\x00\\zxcvbnm,./\x00*\x00 "

def kScancodeUpper : String :=
  "\x00\x00!@#$%^&*()_+\x08\x00QWERTYUIOP\x7b\x7d\n\x00ASDFGHJKL:\"~\x00|ZXCVBNM<>?\x00*\x00 "

def kScancodeExtendedLeader : UInt8 := 0xE0
def kScancodeShiftLeft : UInt8 := 0x2A
def kScancodeShiftRight : UInt8 := 0x36
def kScancodeControl : UInt8 := 0x1D
def kScancodeReleaseBit : UInt8 := 0x80

/-- What the translator remembers between two bytes. -/
structure TranslatorState where
  shiftHeld : Bool := false
  extended : Bool := false
  controlLeft : Bool := false
  controlRight : Bool := false
  deriving DecidableEq

/-- The glyph of a make code, `'\x00'` where there is none. -/
def glyph (s : TranslatorState) (make : UInt8) : Char :=
  let g := ((if s.shiftHeld then kScancodeUpper else kScancodeLower).toList).getD make.toNat '\x00'
  if s.controlLeft || s.controlRight then
    if 'a' ≤ g ∧ g ≤ 'z' then Char.ofNat (g.toNat - 'a'.toNat + 1)
    else if '@' ≤ g ∧ g ≤ '_' then Char.ofNat (g.toNat - '@'.toNat)
    else g
  else g

/-- `TranslateScancode`: the next state, and the character, if there is one. -/
def translateScancode (s : TranslatorState) (rawByte : UInt8) : TranslatorState × Char :=
  let release := rawByte &&& kScancodeReleaseBit != 0
  let make := rawByte &&& 0x7F
  if s.extended then
    ({ s with
        controlRight := if make = kScancodeControl then !release else s.controlRight
        extended := rawByte = kScancodeExtendedLeader }, '\x00')
  else if rawByte = kScancodeExtendedLeader then ({ s with extended := true }, '\x00')
  else if make = kScancodeControl then ({ s with controlLeft := !release }, '\x00')
  else if make = kScancodeShiftLeft ∨ make = kScancodeShiftRight then
    ({ s with shiftHeld := !release }, '\x00')
  else if release ∨ make.toNat ≥ kScancodeGlyphs then (s, '\x00')
  else (s, glyph s make)

/-- The state after some bytes. -/
def translate (s : TranslatorState) (bytes : List UInt8) : TranslatorState :=
  bytes.foldl (fun s b => (translateScancode s b).1) s

/-- A make code.  The release of 0x60 would be the leader, so no key has it. -/
structure Make where
  code : Fin 128
  real : code ≠ 0x60
  deriving DecidableEq

/-- The keys of the keyboard, by what they send. -/
inductive Key where
  | main (make : Make)
  | extended (make : Make)
  | pause
  deriving DecidableEq

/-- A key goes down or comes up.  A key that is held down may go down again and again. -/
structure Event where
  key : Key
  pressed : Bool

/-- The byte of a key on its way down or up. -/
def Make.byte (m : Make) (pressed : Bool) : UInt8 :=
  UInt8.ofNat (if pressed then m.code else m.code + 128)

/-- What the keyboard sends.  Pause sends all of its bytes when it goes down. -/
def Event.bytes : Event → List UInt8
  | ⟨.main m, p⟩ => [m.byte p]
  | ⟨.extended m, p⟩ => [kScancodeExtendedLeader, m.byte p]
  | ⟨.pause, true⟩ => [0xE1, 0x1D, 0x45, 0xE1, 0x9D, 0xC5]
  | ⟨.pause, false⟩ => []

def shiftLeft : Key := .main ⟨0x2A, by decide⟩
def shiftRight : Key := .main ⟨0x36, by decide⟩
def controlLeft : Key := .main ⟨0x1D, by decide⟩
def controlRight : Key := .extended ⟨0x1D, by decide⟩

/-- The translator and the keys that are down. -/
structure Desk where
  state : TranslatorState := {}
  down : Key → Bool := fun _ => false

/-- The bytes of an event are translated one by one. -/
def press (w : Desk) (e : Event) : Option Desk :=
  some ⟨translate w.state e.bytes, update w.down e.key e.pressed⟩

/-- Pause is left alone, and no shift key comes up while the other one is down. -/
def Usual (w : Desk) (e : Event) : Prop :=
  e.key ≠ .pause ∧ (e.pressed = false → (shiftLeft = e.key → w.down shiftRight = false) ∧
    (shiftRight = e.key → w.down shiftLeft = false))

/-- What the translator should hold. -/
def held (down : Key → Bool) : TranslatorState where
  shiftHeld := down shiftLeft || down shiftRight
  controlLeft := down controlLeft
  controlRight := down controlRight

/-- What a key that is not Pause does to the state. -/
theorem translate_event {s : TranslatorState} {e : Event} (hkey : e.key ≠ .pause)
    (hs : s.extended = false) :
    translate s e.bytes = { s with
      shiftHeld := if shiftLeft = e.key ∨ shiftRight = e.key then e.pressed else s.shiftHeld
      controlLeft := if controlLeft = e.key then e.pressed else s.controlLeft
      controlRight := if controlRight = e.key then e.pressed else s.controlRight } := by
  obtain ⟨shift, extended, left, right⟩ := s
  obtain ⟨⟨code, real⟩ | ⟨code, real⟩ | _, p⟩ := e
  -- all the codes, up and down, in all the states
  · revert shift extended left right code p
    decide +kernel
  · revert shift extended left right code p
    decide +kernel
  · exact absurd rfl hkey

theorem press_held {w w' : Desk} {e : Event} (h : w.state = held w.down) (hu : Usual w e)
    (hstep : press w e = some w') : w'.state = held w'.down := by
  obtain ⟨hkey, hup⟩ := hu
  obtain rfl := Option.some.inj hstep
  show translate w.state e.bytes = held (update w.down e.key e.pressed)
  rw [h, translate_event hkey rfl]
  simp only [held, update_apply, TranslatorState.mk.injEq]
  -- a shift key that comes up leaves none down
  grind

/-- After every byte, also one in the middle of a key: shift is held where a shift key is down, and
control where a control key is. -/
theorem modifiers_tracked (done : List Event) {w : Desk} (hrun : run press {} done = some w)
    (husual : Along press Usual {} done) (e : Event) (he : e.key ≠ .pause) {begun : List UInt8}
    (hpre : begun <+: e.bytes) (hpart : begun ≠ e.bytes) :
    let s := translate w.state begun
    s.shiftHeld = (w.down shiftLeft || w.down shiftRight) ∧
      (s.controlLeft || s.controlRight) = (w.down controlLeft || w.down controlRight) := by
  have h : w.state = held w.down :=
    run_keeps (fun _ _ _ => press_held) done rfl husual hrun
  rw [h]
  rw [← List.mem_inits] at hpre
  obtain ⟨m | m | _, p⟩ := e
  · change begun ≠ [m.byte p] at hpart
    obtain rfl : begun = [] := by simpa [Event.bytes, hpart] using hpre
    exact ⟨rfl, rfl⟩
  · -- the leader is kept in mind, and the modifiers stay
    change begun ≠ [kScancodeExtendedLeader, m.byte p] at hpart
    obtain rfl | rfl : begun = [] ∨ begun = [kScancodeExtendedLeader] := by
      simpa [Event.bytes, hpart] using hpre
    all_goals exact ⟨rfl, rfl⟩
  · exact absurd rfl he

/-- Left shift goes down and comes up, then right shift and left control go down, and right control
is in the middle of going down. -/
theorem modifiers_tracked_chord :
    let s := translate {} [0x2A, 0xAA, 0x36, 0x1D, 0xE0]
    s.shiftHeld = true ∧ (s.controlLeft || s.controlRight) = true := by
  refine modifiers_tracked [⟨shiftLeft, true⟩, ⟨shiftLeft, false⟩, ⟨shiftRight, true⟩,
    ⟨controlLeft, true⟩] rfl ?_ ⟨controlRight, true⟩ nofun ⟨[0x1D], rfl⟩ (by decide)
  refine ⟨⟨nofun, nofun⟩, ?_⟩
  rintro _ ⟨⟩
  refine ⟨⟨nofun, fun _ => ⟨fun _ => rfl, nofun⟩⟩, ?_⟩
  rintro _ ⟨⟩
  refine ⟨⟨nofun, nofun⟩, ?_⟩
  rintro _ ⟨⟩
  exact ⟨⟨nofun, nofun⟩, fun _ _ => trivial⟩

/-- Right shift goes down and comes up while left shift is down, and then the key of the letter a
gives a small one; and Pause goes down while left control is down. -/
theorem modifiers_let_go :
    (∃ w, run press {} [⟨shiftLeft, true⟩, ⟨shiftRight, true⟩, ⟨shiftRight, false⟩] = some w ∧
      w.down shiftLeft = true ∧ w.state.shiftHeld = false ∧
        (translateScancode w.state 0x1E).2 = 'a') ∧
    ∃ w, run press {} [⟨controlLeft, true⟩, ⟨.pause, true⟩] = some w ∧
      w.down controlLeft = true ∧ (w.state.controlLeft || w.state.controlRight) = false := by
  decide +kernel

end Cinux.Scancode
