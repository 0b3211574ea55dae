import KeyIndexMachine.Proofs.TableLayout

/-!
# Tables read back

The line between the columns is first met in the line of titles, so this line gives the widths of
both columns, and with the widths each line gives back its two entries, filled up to them. An entry
may itself be a table. It is as wide as the column it stands in, and none of its lines is blank, so
its lines are found in the column again, whatever stands in the other one.
-/
namespace KeyIndexMachine

namespace Text

section
variable {α : Type} {a b x y : List α} {c : α}

/-- What stands in front of the first of some character, and what stands behind it. -/
theorem eq_of_append_cons (ha : c ∉ a) (hb : c ∉ b) (h : a ++ c :: x = b ++ c :: y) :
    a = b ∧ x = y := by
  induction a generalizing b with
  | nil =>
      cases b with
      | nil => exact ⟨rfl, (List.cons.inj h).2⟩
      | cons e b => exact absurd ((List.cons.inj h).1 ▸ List.mem_cons_self) hb
  | cons d a ih =>
      cases b with
      | nil => exact absurd ((List.cons.inj h).1 ▸ List.mem_cons_self) ha
      | cons e b =>
          obtain ⟨hd, ht⟩ := List.cons.inj h
          obtain ⟨hab, hxy⟩ := ih (fun hm => ha (List.mem_cons_of_mem d hm))
            (fun hm => hb (List.mem_cons_of_mem e hm)) ht
          exact ⟨by rw [hd, hab], hxy⟩

/-- Two lists that are filled up with what is in neither of them. -/
theorem eq_of_append_replicate [DecidableEq α] {k n : Nat} (ha : c ∉ a) (hb : c ∉ b)
    (h : a ++ List.replicate k c = b ++ List.replicate n c) : a = b := by
  have hfilter : ∀ l : List α, c ∉ l → ∀ k, (l ++ List.replicate k c).filter (· ≠ c) = l := by
    intro l hl k
    rw [List.filter_append, List.filter_replicate_of_neg (by simp), List.append_nil,
      List.filter_eq_self]
    intro d hd
    exact decide_eq_true fun he => hl (he ▸ hd)
  rw [← hfilter a ha k, h, hfilter b hb n]

end

/-- Lines that each end with a line feed are told apart by it. -/
theorem lines_eq_of_join_eq {ks ls : List String} (hk : ∀ l ∈ ks, '\n' ∉ l.toList)
    (hl : ∀ l ∈ ls, '\n' ∉ l.toList)
    (h : String.join (ks.map (· ++ "\n")) = String.join (ls.map (· ++ "\n"))) : ks = ls := by
  have hcons : ∀ (l : String) (ls : List String),
      (String.join ((l :: ls).map (· ++ "\n"))).toList =
        l.toList ++ '\n' :: (String.join (ls.map (· ++ "\n"))).toList := by
    intro l ls
    simp [String.join_cons]
  induction ks generalizing ls with
  | nil =>
      cases ls with
      | nil => rfl
      | cons l ls =>
          have he := congrArg String.toList h
          rw [hcons] at he
          exact absurd he.symm (by simp)
  | cons k ks ih =>
      cases ls with
      | nil =>
          have he := congrArg String.toList h
          rw [hcons] at he
          exact absurd he (by simp)
      | cons l ls =>
          have he := congrArg String.toList h
          rw [hcons, hcons] at he
          obtain ⟨hkl, hrest⟩ := eq_of_append_cons (hk k (by simp)) (hl l (by simp)) he
          rw [String.toList_inj.mp hkl,
            ih (fun m hm => hk m (by simp [hm])) (fun m hm => hl m (by simp [hm]))
              (String.toList_inj.mp hrest)]

namespace Table

variable {t u : Table} {x y : String} {c : Char}

/-- What stands in the two columns of a line, whose widths are given. -/
def cut (left right : Nat) (l : String) : String × String :=
  (String.ofList ((l.toList.drop 2).take left),
    String.ofList ((l.toList.drop (left + 5)).take right))

theorem cut_line (hx : x.length ≤ t.leftWidth) (hy : y.length ≤ t.rightWidth) :
    cut t.leftWidth t.rightWidth (t.line x y) =
      (t.alignment.pad t.leftWidth x, padRight t.rightWidth y) := by
  have hl : (t.alignment.pad t.leftWidth x).toList.length = t.leftWidth := by
    rw [String.length_toList, length_pad_leftWidth hx]
  have hr : (padRight t.rightWidth y).toList.length = t.rightWidth := by
    rw [String.length_toList, length_padRight_rightWidth hy]
  have hdrop : t.leftWidth + 5 = 2 + (t.leftWidth + 3) := by omega
  rw [cut, hdrop, ← List.drop_drop, toList_line,
    List.drop_left' (show "  ".toList.length = 2 from rfl),
    List.take_left' hl, ← List.drop_drop, List.drop_left' hl,
    List.drop_left' (show " │ ".toList.length = 3 from rfl), List.take_left' hr,
    String.ofList_toList, String.ofList_toList]

section
variable (ht : t.titles = ⟨[x], [y]⟩)
include ht

theorem lines_eq_of_titles :
    t.lines =
      t.line x y :: t.rule '┼' :: (t.body.map (fun p => t.line p.1 p.2) ++ [t.rule '┴']) := by
  rw [lines_eq, ht]
  rfl

/-- Between the rule under the titles and the last one, each line is cut into the two columns. -/
theorem columns_eq_map_cut :
    t.columns = (t.lines.drop 2).dropLast.map (cut t.leftWidth t.rightWidth) := by
  rw [lines_eq_of_titles ht, List.drop_succ_cons, List.drop_succ_cons, List.drop_zero,
    List.dropLast_concat, List.map_map, columns]
  refine List.map_congr_left ?_
  intro p hp
  obtain ⟨r, hr, hp⟩ := List.mem_flatMap.mp hp
  have hr : r ∈ t.titles :: t.rows := List.mem_cons_of_mem _ hr
  exact (cut_line (length_fst_le hr hp) (length_snd_le hr hp)).symm

theorem length_title_le : x.length ≤ t.leftWidth ∧ y.length ≤ t.rightWidth := by
  have hp : (x, y) ∈ t.titles.pairs := by
    rw [ht]
    exact List.mem_singleton_self _
  have hleft : (x, y).1.length ≤ t.leftWidth := length_fst_le List.mem_cons_self hp
  have hright : (x, y).2.length ≤ t.rightWidth := length_snd_le List.mem_cons_self hp
  exact ⟨hleft, hright⟩

theorem add_le_width : x.length + y.length + 7 ≤ t.width :=
  Nat.add_le_add_right (Nat.add_le_add (length_title_le ht).1 (length_title_le ht).2) 7

/-- The first line between columns stands behind the left column and three blanks. -/
theorem length_takeWhile_title (hx : '│' ∉ x.toList) :
    ((t.line x y).toList.takeWhile (· ≠ '│')).length = t.leftWidth + 3 := by
  have hparts : (t.line x y).toList =
      ("  ".toList ++ (t.alignment.pad t.leftWidth x).toList ++ [' ']) ++
        '│' :: ([' '] ++ ((padRight t.rightWidth y).toList ++ "  ".toList)) := by
    rw [toList_line]
    simp
  have hfront : ∀ c ∈ "  ".toList ++ (t.alignment.pad t.leftWidth x).toList ++ [' '],
      decide (c ≠ '│') = true := by
    intro c hc
    have hmem : c = ' ' ∨ c ∈ x.toList := by
      simp only [List.mem_append, List.mem_singleton] at hc
      rcases hc with (hc | hc) | hc
      · exact .inl (List.eq_of_mem_replicate (n := 2) hc)
      · exact mem_toList_pad hc
      · exact .inl hc
    refine decide_eq_true fun he => ?_
    subst he
    exact hmem.elim (by decide) hx
  have hl : (t.alignment.pad t.leftWidth x).toList.length = t.leftWidth := by
    rw [String.length_toList, length_pad_leftWidth (length_title_le ht).1]
  have h2 : "  ".toList.length = 2 := rfl
  rw [hparts, List.takeWhile_append_of_pos hfront, List.takeWhile_cons_of_neg (by simp)]
  simp only [List.length_append, List.length_singleton, List.length_nil, hl, h2]
  omega

theorem widths_eq_of_lines_eq (hu : u.titles = ⟨[x], [y]⟩) (hx : '│' ∉ x.toList)
    (h : t.lines = u.lines) : t.leftWidth = u.leftWidth ∧ t.rightWidth = u.rightWidth := by
  have hline : t.line x y = u.line x y := by
    rw [lines_eq_of_titles ht, lines_eq_of_titles hu] at h
    exact (List.cons.inj h).1
  have hleft : t.leftWidth + 3 = u.leftWidth + 3 := by
    rw [← length_takeWhile_title ht hx, hline, length_takeWhile_title hu hx]
  have hwidth : t.width = u.width := by
    rw [← length_line (length_title_le ht).1 (length_title_le ht).2, hline,
      length_line (length_title_le hu).1 (length_title_le hu).2]
  simp only [width] at hwidth
  omega

theorem columns_eq_of_lines_eq (hu : u.titles = ⟨[x], [y]⟩) (hx : '│' ∉ x.toList)
    (h : t.lines = u.lines) : t.columns = u.columns := by
  obtain ⟨hl, hr⟩ := widths_eq_of_lines_eq ht hu hx h
  rw [columns_eq_map_cut ht, columns_eq_map_cut hu, h, hl, hr]

end

section
variable {α : Type} {xs : List α} {f g : α → String}

/-- A table whose entries take a line each. -/
def plain (x y : String) (xs : List α) (f g : α → String) : Table :=
  ⟨.right, ⟨[x], [y]⟩, xs.map fun a => ⟨[f a], [g a]⟩⟩

theorem body_plain (x y : String) (xs : List α) (f g : α → String) :
    (plain x y xs f g).body = xs.map fun a => (f a, g a) := by
  rw [body, plain, List.flatMap_map, List.map_eq_flatMap]
  rfl

theorem columns_plain (x y : String) (xs : List α) (f g : α → String) :
    (plain x y xs f g).columns = xs.map fun a =>
      (padLeft (plain x y xs f g).leftWidth (f a),
        padRight (plain x y xs f g).rightWidth (g a)) := by
  rw [columns, body_plain, List.map_map]
  rfl

theorem length_lines_plain (x y : String) (xs : List α) (f g : α → String) :
    (plain x y xs f g).lines.length = xs.length + 3 := by
  have htitles : (plain x y xs f g).titles.height = 1 := rfl
  rw [length_lines, body_plain, List.length_map, htitles]
  omega

theorem not_mem_lines_plain (hc : c ∉ [' ', '│', '─', '┼', '┴']) (hx : c ∉ x.toList)
    (hy : c ∉ y.toList) (hf : ∀ a ∈ xs, c ∉ (f a).toList) (hg : ∀ a ∈ xs, c ∉ (g a).toList) :
    ∀ l ∈ (plain x y xs f g).lines, c ∉ l.toList := by
  intro l hl
  refine not_mem_of_mem_lines hc ?_ hl
  intro e he
  simp only [entries, plain, List.flatMap_cons, List.flatMap_map, List.mem_append,
    List.mem_flatMap, List.mem_singleton] at he
  rcases he with (rfl | rfl) | ⟨a, ha, rfl | rfl⟩
  · exact hx
  · exact hy
  · exact hf a ha
  · exact hg a ha

end

/-- A table whose two entries are tables. -/
def beside (x y : String) (l r : Table) : Table :=
  ⟨.left, ⟨[x], [y]⟩, [⟨l.lines, r.lines⟩]⟩

/-- The lines of a table fill a column of their width; what is filled up below them is blank. -/
theorem map_padRight_lines (t : Table) (height : Nat) :
    (t.lines.rightpad height "").map (padRight t.width) =
      t.lines ++ List.replicate (height - t.lines.length) (padRight t.width "") := by
  have hlines : t.lines.map (padRight t.width) = t.lines := by
    refine (List.map_congr_left fun l hl => ?_).trans (List.map_id _)
    exact padRight_of_length (length_of_mem_lines hl)
  rw [List.rightpad, List.map_append, hlines, List.map_replicate]

theorem blank_not_mem_lines (t : Table) (width : Nat) : padRight width "" ∉ t.lines := by
  intro h
  obtain ⟨c, hc, hne⟩ := exists_ne_space_of_mem_lines h
  rw [toList_padRight] at hc
  exact hne (List.eq_of_mem_replicate hc)

/-- In columns of the same width a table is told from another by where it is not blank. -/
theorem lines_eq_of_map_padRight_eq (hw : t.width = u.width) {m n : Nat}
    (h : (t.lines.rightpad m "").map (padRight t.width) =
      (u.lines.rightpad n "").map (padRight u.width)) : t.lines = u.lines := by
  rw [map_padRight_lines, map_padRight_lines, hw] at h
  exact eq_of_append_replicate (t.blank_not_mem_lines _) (u.blank_not_mem_lines _) h

section
variable {l r l' r' : Table}

theorem body_beside (x y : String) (l r : Table) :
    (beside x y l r).body = Row.pairs ⟨l.lines, r.lines⟩ := by
  rw [body, beside, List.flatMap_singleton]

theorem length_lines_beside (x y : String) (l r : Table) :
    (beside x y l r).lines.length = max l.lines.length r.lines.length + 3 := by
  have htitles : (beside x y l r).titles.height = 1 := rfl
  have hheight : Row.height ⟨l.lines, r.lines⟩ = max l.lines.length r.lines.length := rfl
  rw [length_lines, body_beside, Row.length_pairs, htitles, hheight]
  omega

theorem leftWidth_beside (hx : x.length ≤ l.width) : (beside x y l r).leftWidth = l.width := by
  have hentries : ((beside x y l r).titles :: (beside x y l r).rows).flatMap Row.left =
      x :: l.lines := by
    simp [beside]
  rw [leftWidth, hentries]
  exact widest_cons_of_forall (fun _ h => length_of_mem_lines h) l.lines_ne_nil hx

theorem rightWidth_beside (hy : y.length ≤ r.width) : (beside x y l r).rightWidth = r.width := by
  have hentries : ((beside x y l r).titles :: (beside x y l r).rows).flatMap Row.right =
      y :: r.lines := by
    simp [beside]
  rw [rightWidth, hentries]
  exact widest_cons_of_forall (fun _ h => length_of_mem_lines h) r.lines_ne_nil hy

theorem map_fst_columns_beside (hx : x.length ≤ l.width) :
    (beside x y l r).columns.map Prod.fst =
      (l.lines.rightpad (Row.height ⟨l.lines, r.lines⟩) "").map (padRight l.width) := by
  rw [columns, leftWidth_beside hx, body_beside, List.map_map, ← Row.map_fst_pairs, List.map_map]
  rfl

theorem map_snd_columns_beside (hy : y.length ≤ r.width) :
    (beside x y l r).columns.map Prod.snd =
      (r.lines.rightpad (Row.height ⟨l.lines, r.lines⟩) "").map (padRight r.width) := by
  rw [columns, rightWidth_beside hy, body_beside, List.map_map, ← Row.map_snd_pairs, List.map_map]
  rfl

theorem not_mem_lines_beside (hc : c ∉ [' ', '│', '─', '┼', '┴']) (hx : c ∉ x.toList)
    (hy : c ∉ y.toList) (hl : ∀ e ∈ l.lines, c ∉ e.toList) (hr : ∀ e ∈ r.lines, c ∉ e.toList) :
    ∀ e ∈ (beside x y l r).lines, c ∉ e.toList := by
  intro e he
  refine not_mem_of_mem_lines hc ?_ he
  intro d hd
  simp only [entries, beside, List.flatMap_cons, List.flatMap_nil, List.append_nil, List.mem_append,
    List.mem_singleton] at hd
  rcases hd with (rfl | rfl) | hd | hd
  · exact hx
  · exact hy
  · exact hl d hd
  · exact hr d hd

/-- Tables that stand beside each other give back each its own lines, however high the other one
is. -/
theorem lines_eq_of_beside_eq (hx : '│' ∉ x.toList) (hl : x.length ≤ l.width)
    (hl' : x.length ≤ l'.width) (hr : y.length ≤ r.width) (hr' : y.length ≤ r'.width)
    (h : (beside x y l r).lines = (beside x y l' r').lines) :
    l.lines = l'.lines ∧ r.lines = r'.lines := by
  obtain ⟨hleft, hright⟩ := widths_eq_of_lines_eq (by rfl) (by rfl) hx h
  rw [leftWidth_beside hl, leftWidth_beside hl'] at hleft
  rw [rightWidth_beside hr, rightWidth_beside hr'] at hright
  have hcolumns := columns_eq_of_lines_eq (by rfl) (by rfl) hx h
  constructor
  · have hfst := congrArg (List.map Prod.fst) hcolumns
    rw [map_fst_columns_beside hl, map_fst_columns_beside hl'] at hfst
    exact lines_eq_of_map_padRight_eq hleft hfst
  · have hsnd := congrArg (List.map Prod.snd) hcolumns
    rw [map_snd_columns_beside hr, map_snd_columns_beside hr'] at hsnd
    exact lines_eq_of_map_padRight_eq hright hsnd

end

end Table

end Text

end KeyIndexMachine
