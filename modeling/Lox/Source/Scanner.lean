import Lox.Source.Item

/-!
# Scanning on demand

A scanner gives the items of a source one after another and reads a line only
when an item of it is asked for. Each line that is read leaves a record of how
many items it held. `scan` empties the scanner and puts the end of the source
behind the items.
-/

set_option autoImplicit false

namespace Lox

structure ScannedLine where
  line : Nat
  items : Nat
  deriving DecidableEq, Repr

/-- The lines not yet read, the items read and not yet given out, and the
number of lines read so far. -/
structure Scanner where
  lines : List (List Char)
  pending : List Item
  linesRead : Nat

/-- Items given out, records of the lines read for them, and the scanner afterwards. -/
structure Scanned where
  items : List Item
  records : List ScannedLine
  scanner : Scanner

namespace Scanner

def ofSource (source : String) : Scanner := ⟨Source.lines source.toList, [], 0⟩

/-- Reads lines until one of them holds an item, and gives out that item.
None are given out when the lines are used up. -/
def nextFrom (linesRead : Nat) : List (List Char) → Scanned
  | [] => ⟨[], [], ⟨[], [], linesRead⟩⟩
  | line :: lines =>
      let number := linesRead + 1
      match Item.ofLine number line with
      | [] =>
          let later := nextFrom number lines
          { later with records := ⟨number, 0⟩ :: later.records }
      | item :: items =>
          ⟨[item], [⟨number, items.length + 1⟩], ⟨lines, items, number⟩⟩

def next (scanner : Scanner) : Scanned :=
  match scanner.pending with
  | item :: pending => ⟨[item], [], { scanner with pending }⟩
  | [] => nextFrom scanner.linesRead scanner.lines

/-- Gives out the given number of items, or all there are. -/
def take (scanner : Scanner) : Nat → Scanned
  | 0 => ⟨[], [], scanner⟩
  | count + 1 =>
      let first := scanner.next
      match first.items with
      | [] => first
      | _ =>
          let later := first.scanner.take count
          ⟨first.items ++ later.items, first.records ++ later.records, later.scanner⟩

def drainFrom (linesRead : Nat) : List (List Char) → Scanned
  | [] => ⟨[], [], ⟨[], [], linesRead⟩⟩
  | line :: lines =>
      let number := linesRead + 1
      let items := Item.ofLine number line
      let later := drainFrom number lines
      ⟨items ++ later.items, ⟨number, items.length⟩ :: later.records, later.scanner⟩

def drain (scanner : Scanner) : Scanned :=
  let later := drainFrom scanner.linesRead scanner.lines
  { later with items := scanner.pending ++ later.items }

/-- Gives out all remaining items and behind them the end of the source, which
stands on the last line, or on line one when there are no lines. -/
def scan (scanner : Scanner) : Scanned :=
  let drained := scanner.drain
  { drained with
    items := drained.items ++ [.ok (Token.ending (max drained.scanner.linesRead 1))] }

end Scanner

end Lox
