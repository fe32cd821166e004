import Mathlib.Tactic

/-!
# Devices behind I/O ports

A device is a state machine that answers reads of its ports and takes writes to them.  Driver code
is a function on the states of an arbitrary device: it polls a register a bounded number of times
and moves blocks of words.
-/

namespace Magnos.Framework

structure PortDevice (Device : Type) where
  inb : UInt16 → Device → UInt8 × Device
  outb : UInt16 → UInt8 → Device → Device
  inw : UInt16 → Device → UInt16 × Device
  outw : UInt16 → UInt16 → Device → Device

namespace PortDevice

variable {Device : Type} (bus : PortDevice Device) (port : UInt16)

/-- Reads whose values are dropped. -/
def skip : Nat → Device → Device
  | 0, d => d
  | n + 1, d => skip n (bus.inb port d).2

/-- At most `n` reads, until the test gives a value to return; `-1` when it never does. -/
def poll (test : UInt8 → Option Int) : Nat → Device → Int × Device
  | 0, d => (-1, d)
  | n + 1, d =>
      match test (bus.inb port d).1 with
      | some r => (r, (bus.inb port d).2)
      | none => poll test n (bus.inb port d).2

/-- `rep insw`. -/
def insw : Nat → Device → List UInt16 × Device
  | 0, d => ([], d)
  | n + 1, d => ((bus.inw port d).1 :: (insw n (bus.inw port d).2).1, (insw n (bus.inw port d).2).2)

/-- `rep outsw`. -/
def outsw (words : List UInt16) (d : Device) : Device :=
  words.foldl (fun d w => bus.outw port w d) d

variable {bus port}

theorem poll_some {test : UInt8 → Option Int} {d : Device} {r : Int}
    (htest : test (bus.inb port d).1 = some r) (n : Nat) :
    bus.poll port test (n + 1) d = (r, (bus.inb port d).2) := by
  rw [poll, htest]

theorem poll_none {test : UInt8 → Option Int} {d : Device}
    (htest : test (bus.inb port d).1 = none) (n : Nat) :
    bus.poll port test (n + 1) d = bus.poll port test n (bus.inb port d).2 := by
  rw [poll, htest]

theorem skip_rule (inv : Device → Prop) (hread : ∀ d, inv d → inv (bus.inb port d).2) (n : Nat)
    {d : Device} (hd : inv d) : inv (bus.skip port n d) := by
  induction n generalizing d with
  | zero => exact hd
  | succ n ih => exact ih (hread d hd)

end PortDevice

end Magnos.Framework
