import KeyIndexMachine.Machine.Display
import KeyIndexMachine.Proofs.Assembly.ProgramRoundTrip
import KeyIndexMachine.Proofs.TableReading
import Std.Data.String.ToNat

/-!
# Displays read back

The header of a display is read from one tab to the next. Below it stand two tables beside each
other, and each of them is found again whole. A number in a table ends at a blank, be it followed by
its assembly text or not, and the key of an address ends at its slash. So the contents of all
registers and all allocated cells are computed back from the columns, and two machines whose
displays are the same differ at most in what no display shows, their configuration.
-/
namespace KeyIndexMachine

open Text (Table)
open Assembly (Stops skipBlanks)

namespace Display

def word? (digits : List Char) : Option Word :=
  (Listing.number? digits).map (BitVec.ofNat 64)

/-- The number in front of the first blank. -/
def contents? (cs : List Char) : Option Word := word? (cs.takeWhile (· ≠ ' '))

/-- The numbers in front of the first slash and behind it. -/
def address? (cs : List Char) : Option Address :=
  match word? (cs.takeWhile (· ≠ '/')), contents? (cs.dropWhile (· ≠ '/')).tail with
  | some key, some index => some ⟨key, index⟩
  | _, _ => none

/-- An address and the contents of its cell. -/
def entry? (p : String × String) : Option (Address × Word) :=
  match address? (skipBlanks p.1.toList), contents? p.2.toList with
  | some a, some w => some (a, w)
  | _, _ => none

section
variable {width : Nat} {rest : List Char} {c : Char}

theorem number?_hex (w : Word) : Listing.number? w.hex.toList = some w.toNat :=
  Listing.number?_hexNat w.toNat

theorem not_mem_hex (w : Word) (hc : Assembly.hexValue? c = none) : c ∉ w.hex.toList :=
  Listing.not_mem_of_number? (number?_hex w) hc

theorem ne_of_mem_hex (w : Word) (hc : Assembly.hexValue? c = none) :
    ∀ d ∈ w.hex.toList, decide (d ≠ c) = true := fun _ hd =>
  decide_eq_true fun he => not_mem_hex w hc (he ▸ hd)

theorem takeWhile_hex (w : Word) (hc : Assembly.hexValue? c = none) (hr : Stops (· ≠ c) rest) :
    (w.hex.toList ++ rest).takeWhile (· ≠ c) = w.hex.toList :=
  Assembly.takeWhile_append_stops (ne_of_mem_hex w hc) hr

theorem word?_hex (w : Word) : word? w.hex.toList = some w := by
  rw [word?, number?_hex, Option.map_some, BitVec.ofNat_toNat, BitVec.setWidth_eq]

theorem contents?_hex (w : Word) (hr : Stops (· ≠ ' ') rest) :
    contents? (w.hex.toList ++ rest) = some w := by
  rw [contents?, takeWhile_hex w (by decide) hr, word?_hex]

theorem address?_hex (key index : Word) (hr : Stops (· ≠ ' ') rest) :
    address? (key.hex.toList ++ '/' :: (index.hex.toList ++ rest)) = some ⟨key, index⟩ := by
  have hslash : Stops (· ≠ '/') ('/' :: (index.hex.toList ++ rest)) :=
    Assembly.stops_cons.mpr (by decide)
  rw [address?, takeWhile_hex key (by decide) hslash, word?_hex,
    Assembly.dropWhile_append_stops (ne_of_mem_hex key (by decide)) hslash, List.tail_cons,
    contents?_hex index hr]

theorem stops_replicate_blank (k : Nat) : Stops (· ≠ ' ') (List.replicate k ' ') := by
  cases k with
  | zero => exact Assembly.stops_nil
  | succ k => exact Assembly.stops_cons.mpr (by decide)

theorem contents?_padRight_hex (w : Word) : contents? (padRight width w.hex).toList = some w := by
  rw [toList_padRight]
  exact contents?_hex w (stops_replicate_blank _)

/-- A cell is shown with or without the text of its word, and its word is read alike. -/
theorem contents?_cellContents (s : AddressSpace) (c : Cell) (w : Word) :
    contents? (padRight width (s.cellContents c w)).toList = some w := by
  unfold AddressSpace.cellContents
  split
  · have hparts : (padRight width (w.hex ++ "   " ++ w.text)).toList =
        w.hex.toList ++ ("   ".toList ++ (w.text.toList ++
          List.replicate (width - (w.hex ++ "   " ++ w.text).length) ' ')) := by
      simp only [toList_padRight, String.toList_append, List.append_assoc]
    rw [hparts]
    exact contents?_hex w (Assembly.stops_cons.mpr (by decide))
  · exact contents?_padRight_hex w

theorem address?_text (c : Cell) :
    address? (skipBlanks (padLeft width (c.address.text ++ " =")).toList) = some c.address := by
  have htext : (c.address.text ++ " =").toList =
      c.key.hex.toList ++ '/' :: (c.index.hex.toList ++ " =".toList) := by
    rw [Address.text_of_key_ne_zero c.key_ne_zero]
    simp [Cell.address]
  rw [toList_padLeft, htext, Listing.skipBlanks_replicate_append (number?_hex c.key)]
  exact address?_hex c.key c.index (Assembly.stops_cons.mpr (by decide))

end

end Display

open Display

namespace RegisterFile

variable {f g : RegisterFile}

def nameEntry (r : Register) : String := (if r = .px then "* --> " else "") ++ r.name ++ " ="

theorem table_eq_plain (f : RegisterFile) :
    f.table = .plain "Register" "Contents" Register.all.toList nameEntry fun r => (f.get r).hex :=
  rfl

theorem length_lines_table (f : RegisterFile) : f.table.lines.length = 19 := by
  rw [table_eq_plain, Table.length_lines_plain, Vector.length_toList]

theorem lineFeed_not_mem_table (f : RegisterFile) : ∀ l ∈ f.table.lines, '\n' ∉ l.toList := by
  refine Table.not_mem_lines_plain (by decide) (by decide) (by decide) ?_ ?_
  · intro r _
    have hmark : '\n' ∉ (if r = .px then "* --> " else "").toList := by
      split
      · decide
      · decide
    have hequal : '\n' ∉ " =".toList := by decide
    simp only [String.toList_append, List.mem_append, hmark,
      Assembly.unwritten_lineFeed.not_mem_name, hequal, or_self, not_false_eq_true]
  · exact fun r _ => not_mem_hex (f.get r) (by decide)

theorem eq_of_table_lines_eq (h : f.table.lines = g.table.lines) : f = g := by
  have hcolumns := Table.columns_eq_of_lines_eq (by rfl) (by rfl) (by decide) h
  rw [table_eq_plain, table_eq_plain, Table.columns_plain, Table.columns_plain] at hcolumns
  have hread := congrArg (List.map fun p => contents? p.2.toList) hcolumns
  simp only [List.map_map, Function.comp_def, contents?_padRight_hex, List.map_inj_left,
    Option.some.injEq] at hread
  exact RegisterFile.ext fun r => hread r (Register.mem_all r)

end RegisterFile

namespace AddressSpace

variable {s t : AddressSpace}

theorem memoryTable_eq_plain (s : AddressSpace) :
    s.memoryTable = .plain "Cell" "Contents" s.cells (fun p => p.1.address.text ++ " =")
      fun p => s.cellContents p.1 p.2 :=
  rfl

/-- The cells are computed back from the columns. -/
theorem map_entry?_columns (s : AddressSpace) :
    s.memoryTable.columns.map entry? = s.cells.map fun p => some (p.1.address, p.2) := by
  rw [memoryTable_eq_plain, Table.columns_plain, List.map_map]
  refine List.map_congr_left fun p _ => ?_
  rw [Function.comp_apply, entry?, address?_text, contents?_cellContents]

theorem cells_eq_of_memoryTable_lines_eq (h : s.memoryTable.lines = t.memoryTable.lines) :
    s.cells = t.cells := by
  have hcolumns := Table.columns_eq_of_lines_eq (by rfl) (by rfl) (by decide) h
  have hread := congrArg (List.map entry?) hcolumns
  rw [map_entry?_columns, map_entry?_columns] at hread
  refine List.map_injective_iff.mpr ?_ hread
  intro p q he
  obtain ⟨ha, hw⟩ := Prod.mk.inj (Option.some.inj he)
  exact Prod.ext (Cell.address_injective ha) hw

theorem length_lines_memoryTable (s : AddressSpace) :
    s.memoryTable.lines.length = s.cells.length + 3 := by
  rw [memoryTable_eq_plain, Table.length_lines_plain]

/-- Beside the program key only the cells are shown. -/
theorem memoryTable_eq (hp : s.register .pk = t.register .pk) (hc : s.cells = t.cells) :
    s.memoryTable = t.memoryTable := by
  have hcontents : s.cellContents = t.cellContents := by
    funext c w
    rw [cellContents, cellContents, hp]
  rw [memoryTable, memoryTable, hcontents, hc]

theorem table_eq_beside (s : AddressSpace) :
    s.table = .beside "Registers" "Memory" s.registers.table s.memoryTable :=
  rfl

theorem length_lines_table (s : AddressSpace) :
    s.table.lines.length = max 19 (s.cells.length + 3) + 3 := by
  rw [table_eq_beside, Table.length_lines_beside, RegisterFile.length_lines_table,
    length_lines_memoryTable]

theorem table_lines_eq_iff :
    s.table.lines = t.table.lines ↔ (∀ r, s.register r = t.register r) ∧ s.cells = t.cells := by
  constructor
  · intro h
    have hr : ∀ f : RegisterFile, "Registers".length ≤ f.table.width := fun f =>
      Nat.le_trans (by decide) (Table.add_le_width (t := f.table) rfl)
    have hm : ∀ s : AddressSpace, "Memory".length ≤ s.memoryTable.width := fun s =>
      Nat.le_trans (by decide) (Table.add_le_width (t := s.memoryTable) rfl)
    obtain ⟨hregisters, hmemory⟩ := Table.lines_eq_of_beside_eq (by decide) (hr s.registers)
      (hr t.registers) (hm s) (hm t) h
    have he := RegisterFile.eq_of_table_lines_eq hregisters
    exact ⟨fun r => by rw [register, register, he], cells_eq_of_memoryTable_lines_eq hmemory⟩
  · rintro ⟨hr, hc⟩
    have he : s.registers = t.registers := RegisterFile.ext hr
    rw [table_eq_beside, table_eq_beside, he, memoryTable_eq (hr .pk) hc]

theorem lineFeed_not_mem_memoryTable (s : AddressSpace) :
    ∀ l ∈ s.memoryTable.lines, '\n' ∉ l.toList := by
  have hhex : ∀ w : Word, '\n' ∉ w.hex.toList := fun w => not_mem_hex w (by decide)
  refine Table.not_mem_lines_plain (by decide) (by decide) (by decide) ?_ ?_
  · rintro ⟨c, w⟩ -
    have hslash : '\n' ∉ "/".toList := by decide
    have hequal : '\n' ∉ " =".toList := by decide
    rw [Address.text_of_key_ne_zero c.key_ne_zero]
    simp only [String.toList_append, List.mem_append, hhex, hslash, hequal, or_self,
      not_false_eq_true]
  · rintro ⟨c, w⟩ -
    unfold cellContents
    split
    · have hblanks : '\n' ∉ "   ".toList := by decide
      simp only [String.toList_append, List.mem_append, hhex, hblanks,
        Assembly.unwritten_lineFeed.not_mem_text, or_self, not_false_eq_true]
    · exact hhex w

theorem lineFeed_not_mem_table (s : AddressSpace) : ∀ l ∈ s.table.lines, '\n' ∉ l.toList :=
  Table.not_mem_lines_beside (by decide) (by decide) (by decide)
    s.registers.lineFeed_not_mem_table s.lineFeed_not_mem_memoryTable

end AddressSpace

theorem State.text_injective {a b : State} (h : a.text = b.text) : a = b := by
  cases a with
  | running =>
      cases b with
      | running => rfl
      | halted => exact absurd h (by decide)
  | halted =>
      cases b with
      | running => exact absurd h (by decide)
      | halted => rfl

namespace Machine

variable {m n : Machine}

theorem not_mem_repr {c : Char} (hc : c.isDigit = false) (n : Nat) : c ∉ (Nat.repr n).toList := by
  intro h
  rw [Nat.toList_repr] at h
  have hd := Nat.isDigit_of_mem_toDigits (by decide) (Nat.le_refl 10) h
  rw [hc] at hd
  cases hd

theorem not_mem_stateText {c : Char} (hc : c.isAlpha = false) (a : State) : c ∉ a.text.toList := by
  have hall : ∀ d ∈ a.text.toList, d.isAlpha = true := by
    cases a
    · exact List.all_eq_true.mp (by decide)
    · exact List.all_eq_true.mp (by decide)
  intro h
  have ha := hall c h
  rw [hc] at ha
  cases ha

theorem header_eq_iff :
    m.header = n.header ↔ m.state = n.state ∧ m.leash = n.leash ∧ m.steps = n.steps := by
  constructor
  · intro h
    have hparts : ∀ m : Machine, m.header.toList = ("State: ".toList ++ m.state.text.toList) ++
        '\t' :: (("Leash: ".toList ++ (Nat.repr m.leash).toList) ++
          '\t' :: ("Steps: ".toList ++ (Nat.repr m.steps).toList)) := by
      intro m
      simp [header]
    have hstate : ∀ a : State, '\t' ∉ "State: ".toList ++ a.text.toList := by
      intro a hm
      exact (List.mem_append.mp hm).elim (by decide) (not_mem_stateText (by decide) a)
    have hleash : ∀ k : Nat, '\t' ∉ "Leash: ".toList ++ (Nat.repr k).toList := by
      intro k hm
      exact (List.mem_append.mp hm).elim (by decide) (not_mem_repr (by decide) k)
    have hchars := congrArg String.toList h
    rw [hparts, hparts] at hchars
    obtain ⟨hs, hrest⟩ := Text.eq_of_append_cons (hstate _) (hstate _) hchars
    obtain ⟨hl, hn⟩ := Text.eq_of_append_cons (hleash _) (hleash _) hrest
    exact ⟨State.text_injective (String.toList_inj.mp (List.append_cancel_left hs)),
      Nat.repr_inj.mp (String.toList_inj.mp (List.append_cancel_left hl)),
      Nat.repr_inj.mp (String.toList_inj.mp (List.append_cancel_left hn))⟩
  · rintro ⟨hs, hl, hn⟩
    rw [header, header, hs, hl, hn]

theorem lineFeed_not_mem_header (m : Machine) : '\n' ∉ m.header.toList := by
  have hs : '\n' ∉ m.state.text.toList := not_mem_stateText (by decide) m.state
  have hn : ∀ k : Nat, '\n' ∉ (Nat.repr k).toList := not_mem_repr (by decide)
  have h₁ : '\n' ∉ "State: ".toList := by decide
  have h₂ : '\n' ∉ "\tLeash: ".toList := by decide
  have h₃ : '\n' ∉ "\tSteps: ".toList := by decide
  simp only [header, String.toList_append, List.mem_append, hs, hn, h₁, h₂, h₃, or_self,
    not_false_eq_true]

/-- The lines of a display are found again. -/
theorem display_eq_iff_lines :
    m.display = n.display ↔ m.header = n.header ∧ m.space.table.lines = n.space.table.lines := by
  have hfree : ∀ m : Machine, ∀ l ∈ m.header :: m.space.table.lines, '\n' ∉ l.toList := by
    intro m l hl
    rcases List.mem_cons.mp hl with rfl | hl
    · exact m.lineFeed_not_mem_header
    · exact m.space.lineFeed_not_mem_table l hl
  constructor
  · intro h
    exact List.cons.inj (Text.lines_eq_of_join_eq (hfree m) (hfree n) h)
  · rintro ⟨hh, hl⟩
    rw [display, display, hh, hl]

/-- Two displays are the same exactly when the machines agree in all that is shown: state, leash and
steps, every register, and every allocated cell with its contents. A display is a header and a
table, whose lines are all of one width. It has as many of them as the registers need, or the cells
if these are more. -/
theorem display_eq_display_iff (m n : Machine) :
    (m.display = n.display ↔
      m.state = n.state ∧ m.leash = n.leash ∧ m.steps = n.steps ∧
        (∀ r, m.space.register r = n.space.register r) ∧ m.space.cells = n.space.cells) ∧
    ∃ (lines : List String) (width : Nat),
      m.display = String.join ((m.header :: lines).map (· ++ "\n")) ∧
      '\n' ∉ m.header.toList ∧ lines.length = max 19 (m.space.cells.length + 3) + 3 ∧
      ∀ l ∈ lines, l.length = width ∧ '\n' ∉ l.toList := by
  refine ⟨?_, m.space.table.lines, m.space.table.width, rfl, m.lineFeed_not_mem_header,
    m.space.length_lines_table, ?_⟩
  · rw [display_eq_iff_lines, header_eq_iff, AddressSpace.table_lines_eq_iff]
    simp only [and_assoc]
  · intro l hl
    exact ⟨Table.length_of_mem_lines hl, m.space.lineFeed_not_mem_table l hl⟩

/-- A cell that holds zero is shown, and whether the trace is reported is not. -/
theorem display_eq_display_iff_zero_cell :
    let m := ofSpace (AddressSpace.empty.store ⟨0xFFFFFFFFFFFFFFFF#64, 2#64⟩ 0#64) {}
    m.display ≠ (ofSpace AddressSpace.empty {}).display ∧
    (m.setTrace true).display = m.display ∧
    ∃ first rest, m.display = String.join ((m.header :: first :: rest).map (· ++ "\n")) ∧
      rest.length = 21 ∧ '\n' ∉ first.toList ∧ ∀ l ∈ rest, l.length = first.length := by
  intro m
  have hcells : m.space.cells.length = 1 := by decide
  have hempty : (ofSpace AddressSpace.empty {}).space.cells.length = 0 := by decide
  obtain ⟨lines, width, hdisplay, -, hlength, hlines⟩ := (display_eq_display_iff m m).2
  rw [hcells] at hlength
  refine ⟨?_, ?_, ?_⟩
  · intro h
    have hsame := congrArg List.length ((display_eq_display_iff _ _).1.mp h).2.2.2.2
    rw [hcells, hempty] at hsame
    cases hsame
  · exact (display_eq_display_iff _ _).1.mpr ⟨rfl, rfl, rfl, fun _ => rfl, rfl⟩
  · cases lines with
    | nil => cases hlength
    | cons first rest =>
        obtain ⟨hfirst, hfeed⟩ := hlines first (by simp)
        refine ⟨first, rest, hdisplay, Nat.succ.inj hlength, hfeed, ?_⟩
        intro l hl
        rw [(hlines l (by simp [hl])).1, hfirst]

end Machine

end KeyIndexMachine
