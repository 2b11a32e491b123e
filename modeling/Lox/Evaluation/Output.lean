/-!
# Output

The bytes that a program has written, and the sink that takes them. A sink may
refuse any write: it then keeps the first bytes of it, and the write fails. A
sink of some capacity keeps all that fits and refuses what does not fit as a whole.
-/

set_option autoImplicit false

namespace Lox

/-- How a sink answers a write, from the number of writes before it, the number
of bytes kept so far, and the number of bytes to write: nothing if it takes
them all, or how many it keeps of a write that fails. -/
abbrev Sink := Nat → Nat → Nat → Option Nat

/-- A sink that keeps so many bytes, or all if there is no limit. -/
def Sink.ofCapacity : Option Nat → Sink
  | none => fun _ _ _ => none
  | some capacity => fun _ kept size =>
      if size ≤ capacity - kept then none else some (capacity - kept)

/-- Bytes written, the number of writes, and the sink that answers them. -/
structure Output where
  written : ByteArray
  writes : Nat
  sink : Sink

namespace Output

def ofCapacity (capacity : Option Nat) : Output := ⟨ByteArray.empty, 0, .ofCapacity capacity⟩

/-- Writes the bytes that the sink keeps, and tells whether it took them all. -/
def write (output : Output) (bytes : ByteArray) : Output × Bool :=
  match output.sink output.writes output.written.size bytes.size with
  | none =>
      ({ output with written := output.written ++ bytes, writes := output.writes + 1 }, true)
  | some count =>
      ({ output with
          written := output.written ++ bytes.extract 0 count
          writes := output.writes + 1 }, false)

/-- The bytes written behind the first ones. -/
def since (output : Output) (start : Nat) : ByteArray :=
  output.written.extract start output.written.size

end Output

end Lox
