import KeyIndexMachine.Text.Table
import Mathlib.Data.List.Basic

/-!
# How tables are laid out

A table is a rectangle: all of its lines are as wide as its two columns and what stands between and
around them, and an entry that is shorter than its column is filled up with blanks. A row takes as
many lines as the longer of its two entries. Besides the characters of its entries a table has only
those that it is drawn with, and none of its lines is blank.
-/
namespace KeyIndexMachine

namespace Text

section
variable {e s : String} {es : List String} {width : Nat} {alignment : Alignment}

theorem foldl_max_length (es : List String) (n : Nat) :
    es.foldl (fun n e => max n e.length) n = max n (widest es) := by
  induction es generalizing n with
  | nil => simp [widest]
  | cons e es ih =>
      rw [widest, List.foldl_cons, List.foldl_cons, ih, ih, Nat.zero_max, Nat.max_assoc]

theorem widest_cons (e : String) (es : List String) :
    widest (e :: es) = max e.length (widest es) := by
  rw [widest, List.foldl_cons, foldl_max_length, Nat.zero_max]

theorem length_le_widest (h : e ∈ es) : e.length ≤ widest es := by
  induction es with
  | nil => cases h
  | cons d es ih =>
      rw [widest_cons]
      rcases List.mem_cons.mp h with rfl | h
      · exact Nat.le_max_left _ _
      · exact Nat.le_trans (ih h) (Nat.le_max_right _ _)

/-- Lines of one width and a shorter title above them are as wide as the lines. -/
theorem widest_cons_of_forall (h : ∀ l ∈ es, l.length = width) (hne : es ≠ [])
    (he : e.length ≤ width) : widest (e :: es) = width := by
  have hes : widest es = width := by
    induction es with
    | nil => exact absurd rfl hne
    | cons d es ih =>
        rw [widest_cons, h d (by simp)]
        by_cases hn : es = []
        · subst hn
          exact Nat.max_eq_left (Nat.zero_le _)
        · rw [ih (fun l hl => h l (by simp [hl])) hn, Nat.max_self]
  rw [widest_cons, hes, Nat.max_eq_right he]

theorem length_pad : (alignment.pad width s).length = max width s.length := by
  cases alignment with
  | left => exact length_padRight width s
  | right => exact length_padLeft width s

theorem mem_toList_padRight {c : Char} (h : c ∈ (padRight width s).toList) :
    c = ' ' ∨ c ∈ s.toList := by
  rw [toList_padRight, List.mem_append] at h
  exact h.symm.imp List.eq_of_mem_replicate id

theorem mem_toList_pad {c : Char} (h : c ∈ (alignment.pad width s).toList) :
    c = ' ' ∨ c ∈ s.toList := by
  cases alignment with
  | left => exact mem_toList_padRight h
  | right =>
      rw [Alignment.pad, toList_padLeft, List.mem_append] at h
      exact h.imp List.eq_of_mem_replicate id

theorem padRight_of_length (h : s.length = width) : padRight width s = s := by
  apply String.toList_inj.mp
  simp [h]

end

namespace Row

/-- The number of lines that a row takes. -/
def height (r : Row) : Nat := max r.left.length r.right.length

/-- What stands beside each other in the lines of a row. -/
def pairs (r : Row) : List (String × String) :=
  (r.left.rightpad r.height "").zip (r.right.rightpad r.height "")

theorem length_rightpad_left (r : Row) : (r.left.rightpad r.height "").length = r.height := by
  rw [List.length_rightpad, height]
  omega

theorem length_rightpad_right (r : Row) : (r.right.rightpad r.height "").length = r.height := by
  rw [List.length_rightpad, height]
  omega

theorem length_pairs (r : Row) : r.pairs.length = r.height := by
  rw [pairs, List.length_zip, length_rightpad_left, length_rightpad_right, Nat.min_self]

theorem map_fst_pairs (r : Row) : r.pairs.map Prod.fst = r.left.rightpad r.height "" :=
  List.map_fst_zip (Nat.le_of_eq (by rw [length_rightpad_left, length_rightpad_right]))

theorem map_snd_pairs (r : Row) : r.pairs.map Prod.snd = r.right.rightpad r.height "" :=
  List.map_snd_zip (Nat.le_of_eq (by rw [length_rightpad_left, length_rightpad_right]))

theorem mem_of_mem_pairs {r : Row} {p : String × String} (h : p ∈ r.pairs) :
    (p.1 ∈ r.left ∨ p.1 = "") ∧ (p.2 ∈ r.right ∨ p.2 = "") := by
  obtain ⟨hl, hr⟩ := List.of_mem_zip h
  exact ⟨(List.mem_append.mp hl).imp_right List.eq_of_mem_replicate,
    (List.mem_append.mp hr).imp_right List.eq_of_mem_replicate⟩

end Row

namespace Table

variable {t u : Table} {l x y : String} {c : Char}

/-- What stands beside each other in the lines below the titles. -/
def body (t : Table) : List (String × String) := t.rows.flatMap Row.pairs

/-- What fills the two columns in the lines below the titles. -/
def columns (t : Table) : List (String × String) :=
  t.body.map fun p => (t.alignment.pad t.leftWidth p.1, padRight t.rightWidth p.2)

def width (t : Table) : Nat := t.leftWidth + t.rightWidth + 7

def entries (t : Table) : List String := (t.titles :: t.rows).flatMap fun r => r.left ++ r.right

theorem rowLines_eq (t : Table) (r : Row) : t.rowLines r = r.pairs.map fun p => t.line p.1 p.2 := by
  rw [Row.pairs, List.map_zip_eq_zipWith]
  rfl

theorem lines_eq (t : Table) :
    t.lines = t.titles.pairs.map (fun p => t.line p.1 p.2) ++
      t.rule '┼' :: t.body.map (fun p => t.line p.1 p.2) ++ [t.rule '┴'] := by
  have hrows : t.rowLines = fun r => r.pairs.map fun p => t.line p.1 p.2 :=
    funext t.rowLines_eq
  rw [lines, body, List.map_flatMap, hrows]

theorem length_lines (t : Table) : t.lines.length = t.titles.height + t.body.length + 2 := by
  rw [lines_eq]
  simp only [List.length_append, List.length_cons, List.length_map, List.length_nil,
    Row.length_pairs]
  omega

theorem lines_ne_nil (t : Table) : t.lines ≠ [] := by
  rw [lines_eq]
  simp

/-- A line is one of two entries of a row, or a rule. -/
theorem cases_of_mem_lines (h : l ∈ t.lines) :
    (∃ r ∈ t.titles :: t.rows, ∃ p ∈ r.pairs, l = t.line p.1 p.2) ∨
      l = t.rule '┼' ∨ l = t.rule '┴' := by
  rw [lines_eq] at h
  simp only [body, List.mem_append, List.mem_cons, List.not_mem_nil, or_false, List.mem_map,
    List.mem_flatMap] at h
  rcases h with (⟨p, hp, rfl⟩ | rfl | ⟨p, ⟨r, hr, hp⟩, rfl⟩) | rfl
  · exact .inl ⟨t.titles, by simp, p, hp, rfl⟩
  · exact .inr (.inl rfl)
  · exact .inl ⟨r, by simp [hr], p, hp, rfl⟩
  · exact .inr (.inr rfl)

theorem length_fst_le {r : Row} (hr : r ∈ t.titles :: t.rows) {p : String × String}
    (hp : p ∈ r.pairs) : p.1.length ≤ t.leftWidth := by
  rcases (Row.mem_of_mem_pairs hp).1 with h | h
  · exact length_le_widest (List.mem_flatMap.mpr ⟨r, hr, h⟩)
  · rw [h]
    exact Nat.zero_le _

theorem length_snd_le {r : Row} (hr : r ∈ t.titles :: t.rows) {p : String × String}
    (hp : p ∈ r.pairs) : p.2.length ≤ t.rightWidth := by
  rcases (Row.mem_of_mem_pairs hp).2 with h | h
  · exact length_le_widest (List.mem_flatMap.mpr ⟨r, hr, h⟩)
  · rw [h]
    exact Nat.zero_le _

theorem length_pad_leftWidth (hx : x.length ≤ t.leftWidth) :
    (t.alignment.pad t.leftWidth x).length = t.leftWidth := by
  rw [length_pad, Nat.max_eq_left hx]

theorem length_padRight_rightWidth (hy : y.length ≤ t.rightWidth) :
    (padRight t.rightWidth y).length = t.rightWidth := by
  rw [length_padRight, Nat.max_eq_left hy]

theorem length_line (hx : x.length ≤ t.leftWidth) (hy : y.length ≤ t.rightWidth) :
    (t.line x y).length = t.width := by
  have h₁ : "  ".length = 2 := rfl
  have h₂ : " │ ".length = 3 := rfl
  simp only [line, String.length_append, length_pad_leftWidth hx, length_padRight_rightWidth hy, h₁,
    h₂, width]
  omega

theorem length_rule (t : Table) (joint : Char) : (t.rule joint).length = t.width := by
  simp only [rule, String.length_ofList, List.length_append, List.length_cons, List.length_nil,
    List.length_replicate, width]
  omega

theorem length_of_mem_lines (h : l ∈ t.lines) : l.length = t.width := by
  rcases cases_of_mem_lines h with ⟨r, hr, p, hp, rfl⟩ | rfl | rfl
  · exact length_line (length_fst_le hr hp) (length_snd_le hr hp)
  · exact length_rule t '┼'
  · exact length_rule t '┴'

/-- The parts of a line in the order in which they stand in it. -/
theorem toList_line (t : Table) (x y : String) :
    (t.line x y).toList = "  ".toList ++ ((t.alignment.pad t.leftWidth x).toList ++
      (" │ ".toList ++ ((padRight t.rightWidth y).toList ++ "  ".toList))) := by
  simp only [line, String.toList_append, List.append_assoc]

theorem not_mem_line (hc : c ∉ [' ', '│']) (hx : c ∉ x.toList) (hy : c ∉ y.toList) :
    c ∉ (t.line x y).toList := by
  have hb : c ≠ ' ' := fun h => hc (by simp [h])
  have hl : c ∉ (t.alignment.pad t.leftWidth x).toList := fun h => (mem_toList_pad h).elim hb hx
  have hr : c ∉ (padRight t.rightWidth y).toList := fun h => (mem_toList_padRight h).elim hb hy
  have hm : c ∉ " │ ".toList := by simpa [hb] using hc
  have he : c ∉ "  ".toList := by simp [hb]
  rw [toList_line]
  simp only [List.mem_append, hl, hr, hm, he, or_self, not_false_eq_true]

theorem not_mem_rule {joint : Char} (hc : c ∉ [' ', '─', joint]) : c ∉ (t.rule joint).toList := by
  intro h
  simp only [rule, String.toList_ofList, List.mem_append, List.mem_cons, List.mem_replicate,
    List.not_mem_nil, or_false, not_or] at h hc
  grind

/-- A table is drawn with a few characters, and all others are in its entries. -/
theorem not_mem_of_mem_lines (hc : c ∉ [' ', '│', '─', '┼', '┴'])
    (he : ∀ e ∈ t.entries, c ∉ e.toList) (h : l ∈ t.lines) : c ∉ l.toList := by
  have hentry : ∀ {r : Row} {e : String}, r ∈ t.titles :: t.rows →
      (e ∈ r.left ++ r.right ∨ e = "") → c ∉ e.toList := by
    rintro r e hr (h | rfl)
    · exact he e (List.mem_flatMap.mpr ⟨r, hr, h⟩)
    · exact List.not_mem_nil
  rcases cases_of_mem_lines h with ⟨r, hr, p, hp, rfl⟩ | rfl | rfl
  · obtain ⟨hx, hy⟩ := Row.mem_of_mem_pairs hp
    refine not_mem_line (by grind) (hentry hr ?_) (hentry hr ?_)
    · exact hx.imp_left fun hm => List.mem_append_left _ hm
    · exact hy.imp_left fun hm => List.mem_append_right _ hm
  · exact not_mem_rule (by grind)
  · exact not_mem_rule (by grind)

/-- No line of a table is blank: the line between the columns goes through all of them. -/
theorem exists_ne_space_of_mem_lines (h : l ∈ t.lines) : ∃ c ∈ l.toList, c ≠ ' ' := by
  rcases cases_of_mem_lines h with ⟨r, -, p, -, rfl⟩ | rfl | rfl
  · exact ⟨'│', by simp [toList_line], by decide⟩
  · exact ⟨'┼', by simp [rule], by decide⟩
  · exact ⟨'┴', by simp [rule], by decide⟩

end Table

end Text

end KeyIndexMachine
