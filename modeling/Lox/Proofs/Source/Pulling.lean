import Mathlib.Algebra.GroupWithZero.Nat
import Lox.Proofs.Source.Joining

/-!
# Pulling items before collecting the rest

At any point of a scan, pulling one more item and then collecting gives the same
items, reads the same lines, and leaves the same scanner as collecting at once. By
induction so does pulling any number of items, whether the pulling ends within a
line, between lines, or behind the end of the source. Collecting itself is pulling
until nothing is left.
-/

set_option autoImplicit false

namespace Lox

/-- Two parts of a scan, the later one begun where the first one ended. -/
def Scanned.followedBy (first later : Scanned) : Scanned :=
  ⟨first.items ++ later.items, first.records ++ later.records, later.scanner⟩

theorem Scanned.followedBy_assoc (first second third : Scanned) :
    (first.followedBy second).followedBy third = first.followedBy (second.followedBy third) := by
  simp [followedBy]

/-- A scan and its first part: collecting what comes behind the first part completes
the scan, and the first part gives out one item, or none if it is the whole scan. -/
structure Scanned.Begins (first whole : Scanned) : Prop where
  completed : first.followedBy first.scanner.drain = whole
  given : (first.items = [] ∧ first = whole) ∨ ∃ item, first.items = [item]

namespace Scanner

variable {scanner : Scanner}

theorem nextFrom_begins (lines : List (List Char)) (linesRead : Nat) :
    (nextFrom linesRead lines).Begins (drainFrom linesRead lines) := by
  induction lines generalizing linesRead with
  | nil => exact ⟨rfl, .inl ⟨rfl, rfl⟩⟩
  | cons line rest ih =>
      simp only [nextFrom, drainFrom]
      cases Item.ofLine (linesRead + 1) line with
      | nil =>
          -- A line without items puts its record in front of whatever follows.
          obtain ⟨completed, given⟩ := ih (linesRead + 1)
          refine ⟨by rw [← completed]; rfl, ?_⟩
          rcases given with ⟨none, all⟩ | single
          · exact .inl ⟨none, by rw [← all]; rfl⟩
          · exact .inr single
      | cons item items => exact ⟨rfl, .inr ⟨item, rfl⟩⟩

theorem next_begins (scanner : Scanner) : scanner.next.Begins scanner.drain := by
  obtain ⟨lines, pending, linesRead⟩ := scanner
  cases pending with
  | nil => exact nextFrom_begins lines linesRead
  | cons item pending => exact ⟨rfl, .inr ⟨item, rfl⟩⟩

theorem take_succ_of_none (none : scanner.next.items = []) (count : Nat) :
    scanner.take (count + 1) = scanner.next := by
  simp only [take, none]

theorem take_succ_of_single {item : Item} (single : scanner.next.items = [item]) (count : Nat) :
    scanner.take (count + 1) = scanner.next.followedBy (scanner.next.scanner.take count) := by
  simp only [take, single, Scanned.followedBy]

/-- However many items are taken first, collecting the rest completes the scan. -/
theorem take_followedBy_drain (count : Nat) (scanner : Scanner) :
    (scanner.take count).followedBy (scanner.take count).scanner.drain = scanner.drain := by
  induction count generalizing scanner with
  | zero => rfl
  | succ count ih =>
      obtain ⟨completed, ⟨none, -⟩ | ⟨item, single⟩⟩ := scanner.next_begins
      · rw [take_succ_of_none none]
        exact completed
      · rw [take_succ_of_single single, Scanned.followedBy_assoc]
        calc
          scanner.next.followedBy ((scanner.next.scanner.take count).followedBy
              (scanner.next.scanner.take count).scanner.drain)
            = scanner.next.followedBy scanner.next.scanner.drain := by
              rw [ih scanner.next.scanner]
          _ = scanner.drain := completed

theorem take_followedBy_scan (count : Nat) (scanner : Scanner) :
    (scanner.take count).followedBy (scanner.take count).scanner.scan = scanner.scan := by
  rw [scan, scan, ← scanner.take_followedBy_drain count]
  simp [Scanned.followedBy]

/-- One after another, a scanner gives out the items that it holds in all. -/
theorem take_items (count : Nat) (scanner : Scanner) :
    (scanner.take count).items = scanner.drain.items.take count := by
  induction count generalizing scanner with
  | zero => rfl
  | succ count ih =>
      obtain ⟨completed, ⟨none, all⟩ | ⟨item, single⟩⟩ := scanner.next_begins
      · rw [take_succ_of_none none, ← all, none, List.take_nil]
      · rw [take_succ_of_single single, ← completed]
        simp [Scanned.followedBy, single, ih]

/-- Asking for more items than there are gives all of them and reads all lines,
as collecting does. -/
theorem take_eq_drain {count : Nat} (more : scanner.drain.items.length < count) :
    scanner.take count = scanner.drain := by
  induction count generalizing scanner with
  | zero => exact absurd more (Nat.not_lt_zero _)
  | succ count ih =>
      obtain ⟨completed, ⟨none, all⟩ | ⟨item, single⟩⟩ := scanner.next_begins
      · rw [take_succ_of_none none, all]
      · have later : scanner.next.scanner.drain.items.length < count := by
          rw [← completed, Scanned.followedBy, single, List.length_append,
            List.length_singleton] at more
          omega
        rw [take_succ_of_single single, ih later, completed]

/-- Collecting what is left is asking for it item by item, until there is none. -/
theorem scan_eq_take {count : Nat} (more : scanner.drain.items.length < count) :
    let all := scanner.take count
    scanner.scan =
      { all with items := all.items ++ [.ok (Token.ending (max all.scanner.linesRead 1))] } := by
  rw [take_eq_drain more]
  rfl

/-- Each line leaves one record, which tells its number and how many items it holds. -/
theorem drainFrom_records (lines : List (List Char)) (linesRead : Nat) :
    (drainFrom linesRead lines).records =
      (lines.zipIdx (linesRead + 1)).map fun (line, number) =>
        ⟨number, (Item.ofLine number line).length⟩ := by
  induction lines generalizing linesRead with
  | nil => rfl
  | cons line rest ih => simp only [drainFrom, ih, List.zipIdx_cons, List.map_cons]

end Scanner

/-- No item of a source is an end, so the end behind them is at their number. -/
theorem findIdx_ending (source : String) :
    (Scanner.ofSource source).scan.items.findIdx Item.isEnding = (itemsOf source).length := by
  obtain ⟨line, scanned⟩ := scan_itemsOf source
  have inside : (itemsOf source).findIdx Item.isEnding = (itemsOf source).length :=
    List.findIdx_eq_length.mpr fun _ member => itemsOf_notEnding member
  rw [scanned, List.findIdx_append, inside, if_neg (Nat.lt_irrefl _)]
  simp [Item.isEnding, Token.ending]

/-- Of a source any number of items can be pulled before the rest are collected.
Both together are the items that are collected at once, with the end of the source
on the same line. In both together every line of the source is read once, in
order, and the counts in the records of the lines add up to the number of items
before the end. To collect the rest is to pull until there are no more. -/
theorem pulled_and_collected_items_agree (source : String) (count : Nat) :
    let lines := Source.lines source.toList
    let fresh := Scanner.ofSource source
    let pulled := fresh.take count
    let rest := pulled.scanner.scan
    let records := pulled.records ++ rest.records
    let items := (lines.zipIdx 1).flatMap fun (line, number) => Item.ofLine number line
    let ending : Item := .ok (Token.ending (max lines.length 1))
    pulled.items ++ rest.items = fresh.scan.items ∧
      fresh.scan.items = items ++ [ending] ∧
      pulled.items = items.take count ∧
      records = (lines.zipIdx 1).map (fun (line, number) =>
        ⟨number, (Item.ofLine number line).length⟩) ∧
      (records.map ScannedLine.items).sum = fresh.scan.items.findIdx Item.isEnding ∧
      ∀ more,
        let all := pulled.scanner.take (items.length + 1 + more)
        rest = { all with items := all.items ++ [ending] } := by
  intro lines fresh pulled rest records items ending
  have drained : fresh.drain.items = items := Scanner.drainFrom_items lines 0
  have completed : pulled.followedBy pulled.scanner.drain = fresh.drain :=
    fresh.take_followedBy_drain count
  have whole : pulled.followedBy rest = fresh.scan := fresh.take_followedBy_scan count
  have recorded : records = (lines.zipIdx 1).map (fun (line, number) =>
      ⟨number, (Item.ofLine number line).length⟩) :=
    (congrArg Scanned.records whole).trans (Scanner.drainFrom_records lines 0)
  refine ⟨congrArg Scanned.items whole, Scanner.scan_items source, ?_, recorded, ?_, ?_⟩
  · rw [Scanner.take_items, drained]
  · have counted : (records.map ScannedLine.items).sum = items.length := by
      rw [recorded, List.map_map, List.length_flatMap]
      rfl
    rw [counted, findIdx_ending]
    exact congrArg List.length drained.symm
  · intro more all
    have left : pulled.scanner.drain.items.length < items.length + 1 + more := by
      rw [← drained, ← completed, Scanned.followedBy, List.length_append]
      omega
    have linesRead : all.scanner.linesRead = lines.length := by
      have exhausted : all = pulled.scanner.drain := Scanner.take_eq_drain left
      calc
        all.scanner.linesRead = fresh.drain.scanner.linesRead := by
          rw [exhausted, ← completed]
          rfl
        _ = 0 + lines.length := Scanner.drainFrom_linesRead lines 0
        _ = lines.length := Nat.zero_add _
    calc
      rest = { all with items := all.items ++ [.ok (Token.ending (max all.scanner.linesRead 1))] } :=
        Scanner.scan_eq_take left
      _ = { all with items := all.items ++ [ending] } := by rw [linesRead]

end Lox
