import KeyIndexMachine.Proofs.Assembly.Diagnosis
import KeyIndexMachine.Proofs.Assembly.ProgramRoundTrip

/-!
# Programs line by line

What a line of a program comes to does not depend on the lines around it: no word if it is blank in
front of its comment, else a word or an error. If no line comes to an error, the program has the
words of its lines. Otherwise the first line that does decides, and all that is added to its error
is the number of the line, which no error of a line alone carries.

Hence a text that is put together from two texts with a line feed between them is assembled as the
two are. The lines of the second one are counted on from those of the first, of which there is one
more than there are line feeds in it. Lines may end with a carriage return and a line feed as well,
and the last one may end or not.
-/
namespace KeyIndexMachine

/-- Whether the error names a line of a program. -/
def AssemblyError.isNumbered : AssemblyError → Bool
  | onLine _ _ => true
  | _ => false

theorem AssemblyError.isNumbered_eq_false {e : AssemblyError} (h : e.isOfPart = true) :
    e.isNumbered = false := by
  cases e with
  | onLine n cause => cases h
  | _ => rfl

namespace Assembly

/-- If there is an error, it names no line of a program. -/
def Unnumbered {α : Type} (x : Except AssemblyError α) : Prop :=
  ∀ e, x = .error e → e.isNumbered = false

theorem unnumbered_ok {α : Type} (a : α) : Unnumbered (.ok a) := by
  intro e h
  cases h

theorem unnumbered_error {α : Type} {e : AssemblyError} (h : e.isNumbered = false) :
    Unnumbered (.error e : Except AssemblyError α) := by
  intro e' he
  cases he
  exact h

theorem Unnumbered.bind {α β : Type} {x : Except AssemblyError α}
    {f : α → Except AssemblyError β} (hx : Unnumbered x) (hf : ∀ a, Unnumbered (f a)) :
    Unnumbered (x >>= f) := by
  cases x with
  | error e => exact unnumbered_error (hx e rfl)
  | ok a => exact hf a

theorem unnumbered_splitConditional (cs : List Char) : Unnumbered (splitConditional cs) := by
  unfold splitConditional
  split
  · exact unnumbered_ok _
  · split
    · exact unnumbered_ok _
    · exact unnumbered_error rfl

theorem unnumbered_ofTrimmed (cs : List Char) : Unnumbered (Line.ofTrimmed cs) := by
  unfold Line.ofTrimmed
  split
  · rename_i he
    exact unnumbered_error (unnumbered_splitConditional _ _ he)
  · split
    · exact unnumbered_error rfl
    · dsimp only
      split
      · exact unnumbered_ok _
      · exact unnumbered_error rfl

/-- The number of a line is put to an error by the program alone, and no check gives one. -/
theorem unnumbered_instruction (cs : List Char) : Unnumbered (instruction cs) := by
  refine (unnumbered_ofTrimmed (Text.trim cs)).bind fun l => ?_
  refine (settles_instruction l).forall_error ?_
  intro check hm e hc
  exact AssemblyError.isNumbered_eq_false (Line.isOfPart_of_checks check hm e hc)

theorem unnumbered_word (cs : List Char) : Unnumbered (word cs) := by
  unfold word
  cases h : instruction cs with
  | error e => exact unnumbered_error (unnumbered_instruction cs e h)
  | ok i => exact unnumbered_ok _

theorem trim_append_whiteSpace (cs : List Char) {r : List Char} (hr : WhiteSpace r) :
    Text.trim (cs ++ r) = Text.trim cs := by
  have hb : ∀ c ∈ r.reverse, Text.isWhiteSpace c = true := fun c hc => hr c (List.mem_reverse.mp hc)
  rw [Text.trim, Text.trim, List.dropWhile_append]
  split
  · rename_i he
    rw [List.isEmpty_iff.mp he, List.dropWhile_eq_nil_iff.mpr hr]
  · rw [List.reverse_append, List.dropWhile_append_of_pos hb]

/-- What a line of a program comes to. Without anything in front of its comment it is no word. -/
def lineWord? (l : List Char) : Except AssemblyError (Option Word) :=
  if Text.trim (withoutComment l) = [] then .ok none else (word (withoutComment l)).map some

theorem wordsOfLines_cons (n : Nat) (l : List Char) (ls : List (List Char)) :
    wordsOfLines n (l :: ls) =
      match lineWord? l with
      | .error e => .error (.onLine n e)
      | .ok w => (wordsOfLines (n + 1) ls).map (w.toList ++ ·) := by
  rw [wordsOfLines, lineWord?]
  by_cases hb : Text.trim (withoutComment l) = []
  · rw [if_pos hb, if_pos hb]
    cases wordsOfLines (n + 1) ls <;> rfl
  · rw [if_neg hb, if_neg hb]
    cases word (withoutComment l) <;> rfl

/-- There is something in front of the comment, and this is why it is not assembled. -/
structure Rejected (l : List Char) (cause : AssemblyError) : Prop where
  notBlank : Text.trim (withoutComment l) ≠ []
  error : Word.ofLine (String.ofList (withoutComment l)) = .error cause

/-- There is nothing in front of the comment, or it is assembled. -/
def Accepted (l : List Char) : Prop :=
  Text.trim (withoutComment l) = [] ∨ ∃ w, Word.ofLine (String.ofList (withoutComment l)) = .ok w

theorem ofLine_ofList (cs : List Char) : Word.ofLine (String.ofList cs) = word cs := by
  rw [Word.ofLine, String.toList_ofList]

theorem rejected_iff {l : List Char} {cause : AssemblyError} :
    Rejected l cause ↔ lineWord? l = .error cause := by
  rw [lineWord?]
  constructor
  · rintro ⟨hb, he⟩
    rw [ofLine_ofList] at he
    rw [if_neg hb, he]
    rfl
  · intro h
    split at h
    · cases h
    · rename_i hb
      refine ⟨hb, ?_⟩
      rw [ofLine_ofList]
      cases hw : word (withoutComment l) with
      | error e =>
          rw [hw] at h
          cases h
          rfl
      | ok w =>
          rw [hw] at h
          cases h

theorem accepted_of_lineWord? {l : List Char} {w : Option Word} (h : lineWord? l = .ok w) :
    Accepted l := by
  rw [lineWord?] at h
  split at h
  · rename_i hb
    exact .inl hb
  · refine .inr ?_
    rw [ofLine_ofList]
    cases hw : word (withoutComment l) with
    | error e =>
        rw [hw] at h
        cases h
    | ok w => exact ⟨w, rfl⟩

theorem Accepted.not_rejected {l : List Char} {cause : AssemblyError} (h : Accepted l) :
    ¬ Rejected l cause := by
  rintro ⟨hb, he⟩
  rcases h with h | ⟨w, hw⟩
  · exact hb h
  · rw [hw] at he
    cases he

/-- White space at the end of a line is not seen, whether a comment is in front of it or not. -/
theorem lineWord?_append (l : List Char) {r : List Char} (hr : WhiteSpace r) :
    lineWord? (l ++ r) = lineWord? l := by
  have ht : Text.trim (withoutComment (l ++ r)) = Text.trim (withoutComment l) := by
    rw [withoutComment, List.takeWhile_append]
    split
    · rename_i hl
      have hw : withoutComment l = l := (List.takeWhile_prefix _).eq_of_length hl
      rw [hw]
      exact trim_append_whiteSpace l fun c hc => hr c (List.takeWhile_sublist _ |>.mem hc)
    · rfl
  rw [lineWord?, lineWord?, ht, word, word, instruction, instruction, Line.ofChars, Line.ofChars,
    ht]

/-- The lines come to these words. -/
def Yield (ls : List (List Char)) (ws : List (Option Word)) : Prop :=
  List.Forall₂ (fun l w => lineWord? l = .ok w) ls ws

theorem Yield.accepted {ls : List (List Char)} {ws : List (Option Word)} (h : Yield ls ws) :
    ∀ l ∈ ls, Accepted l := by
  induction h with
  | nil => simp
  | cons hl _ ih =>
      intro k hk
      rcases List.mem_cons.mp hk with rfl | hk
      · exact accepted_of_lineWord? hl
      · exact ih k hk

theorem Yield.wordsOfLines_append {before : List (List Char)} {ws : List (Option Word)}
    (h : Yield before ws) (n : Nat) (ls : List (List Char)) :
    wordsOfLines n (before ++ ls) =
      (wordsOfLines (n + before.length) ls).map (ws.flatMap Option.toList ++ ·) := by
  induction h generalizing n with
  | nil => cases hw : wordsOfLines n ls <;> simp [Except.map, hw]
  | @cons l w before ws hl _ ih =>
      have hn : n + 1 + before.length = n + (l :: before).length := by
        rw [List.length_cons]
        omega
      rw [List.cons_append, wordsOfLines_cons, hl, ih, hn, List.flatMap_cons]
      cases wordsOfLines (n + (l :: before).length) ls <;> simp [Except.map]

theorem Yield.ok {ls : List (List Char)} {ws : List (Option Word)} (h : Yield ls ws) (n : Nat) :
    wordsOfLines n ls = .ok (ws.flatMap Option.toList ++ [0#64]) := by
  have ha := h.wordsOfLines_append n []
  rw [List.append_nil] at ha
  rw [ha]
  rfl

theorem Yield.error {before : List (List Char)} {ws : List (Option Word)} (h : Yield before ws)
    {l : List Char} {cause : AssemblyError} (hl : Rejected l cause) (n : Nat)
    (after : List (List Char)) :
    wordsOfLines n (before ++ l :: after) = .error (.onLine (n + before.length) cause) := by
  rw [h.wordsOfLines_append, wordsOfLines_cons, rejected_iff.mp hl]
  rfl

/-- Lines come to words up to the first that is rejected, or to their end. -/
theorem exists_yield (ls : List (List Char)) :
    (∃ ws, Yield ls ws) ∨ ∃ before ws l after cause, ls = before ++ l :: after ∧ Yield before ws ∧
      Rejected l cause := by
  induction ls with
  | nil => exact .inl ⟨[], .nil⟩
  | cons k ls ih =>
      cases hk : lineWord? k with
      | error cause => exact .inr ⟨[], [], k, ls, cause, rfl, .nil, rejected_iff.mpr hk⟩
      | ok w =>
          rcases ih with ⟨ws, h⟩ | ⟨before, ws, l, after, cause, rfl, h, hl⟩
          · exact .inl ⟨w :: ws, .cons hk h⟩
          · exact .inr ⟨k :: before, w :: ws, l, after, cause, rfl, .cons hk h, hl⟩

theorem exists_yield_of_ok {n : Nat} {ls : List (List Char)} {us : List Word}
    (h : wordsOfLines n ls = .ok us) :
    ∃ ws, Yield ls ws ∧ us = ws.flatMap Option.toList ++ [0#64] := by
  rcases exists_yield ls with ⟨ws, hy⟩ | ⟨before, ws, l, after, cause, rfl, hy, hl⟩
  · rw [hy.ok] at h
    exact ⟨ws, hy, (Except.ok.inj h).symm⟩
  · rw [hy.error hl] at h
    cases h

theorem exists_rejected_of_error {n : Nat} {ls : List (List Char)} {e : AssemblyError}
    (h : wordsOfLines n ls = .error e) :
    ∃ before ws l after cause, ls = before ++ l :: after ∧ Yield before ws ∧ Rejected l cause ∧
      e = .onLine (n + before.length) cause := by
  rcases exists_yield ls with ⟨ws, hy⟩ | ⟨before, ws, l, after, cause, rfl, hy, hl⟩
  · rw [hy.ok] at h
    cases h
  · rw [hy.error hl] at h
    exact ⟨before, ws, l, after, cause, rfl, hy, hl, (Except.error.inj h).symm⟩

theorem exists_yield_of_accepted {ls : List (List Char)} (h : ∀ l ∈ ls, Accepted l) :
    ∃ ws, Yield ls ws := by
  rcases exists_yield ls with hy | ⟨before, ws, l, after, cause, rfl, -, hl⟩
  · exact hy
  · exact absurd hl (h l (by simp)).not_rejected

theorem lines_lineFeed (cs : List Char) : lines ('\n' :: cs) = [] :: lines cs := by
  rw [lines, if_pos rfl]

/-- Any other character belongs to the first line. -/
theorem exists_lines_cons {c : Char} (hc : c ≠ '\n') (cs : List Char) :
    ∃ l ls, lines cs = l :: ls ∧ lines (c :: cs) = (c :: l) :: ls := by
  have hne : lines cs ≠ [] := by
    rw [lines_eq_splitOn]
    exact List.splitOn_ne_nil _ _
  obtain ⟨l, ls, hl⟩ := List.exists_cons_of_ne_nil hne
  refine ⟨l, ls, hl, ?_⟩
  rw [lines, if_neg hc, hl]

theorem lines_append_lineFeed (cs ds : List Char) :
    lines (cs ++ '\n' :: ds) = lines cs ++ lines ds := by
  induction cs with
  | nil => exact lines_lineFeed ds
  | cons c cs ih =>
      by_cases hc : c = '\n'
      · rw [hc, List.cons_append, lines_lineFeed, lines_lineFeed, ih, List.cons_append]
      · obtain ⟨l, ls, hl, hcons⟩ := exists_lines_cons hc cs
        obtain ⟨k, ks, hk, hjoined⟩ := exists_lines_cons hc (cs ++ '\n' :: ds)
        rw [ih, hl, List.cons_append, List.cons.injEq] at hk
        rw [List.cons_append, hjoined, hcons, List.cons_append, ← hk.1, hk.2]

theorem length_lines (cs : List Char) : (lines cs).length = cs.count '\n' + 1 := by
  induction cs with
  | nil => rfl
  | cons c cs ih =>
      by_cases hc : c = '\n'
      · rw [hc, lines_lineFeed, List.length_cons, ih, List.count_cons_self]
      · obtain ⟨l, ls, hl, hcons⟩ := exists_lines_cons hc cs
        rw [hcons, List.length_cons, List.count_cons_of_ne hc, ← ih, hl, List.length_cons]

/-- A line without a carriage return at its end. -/
def withoutReturn (l : List Char) : List Char :=
  if l.getLast? = some '\r' then l.dropLast else l

/-- The lines of a text. A line feed ends a line, and a carriage return in front of it is part of
that end. What stands behind the last line feed is a line if it is not empty. -/
def textLines (cs : List Char) : List (List Char) :=
  (cs.splitOn '\n').dropLast.map withoutReturn ++
    (cs.splitOn '\n').getLast?.toList.filter (· ≠ [])

theorem lineWord?_withoutReturn (l : List Char) : lineWord? (withoutReturn l) = lineWord? l := by
  unfold withoutReturn
  split
  · rename_i h
    have hr : WhiteSpace ['\r'] := by
      intro c hc
      rw [List.mem_singleton.mp hc]
      rfl
    have hl : l.dropLast ++ ['\r'] = l := List.dropLast_append_getLast? _ h
    rw [← lineWord?_append l.dropLast hr, hl]
  · rfl

theorem wordsOfLines_map_withoutReturn (n : Nat) (ls ks : List (List Char)) :
    wordsOfLines n (ls.map withoutReturn ++ ks) = wordsOfLines n (ls ++ ks) := by
  induction ls generalizing n with
  | nil => rfl
  | cons l ls ih =>
      rw [List.map_cons, List.cons_append, List.cons_append, wordsOfLines_cons, wordsOfLines_cons,
        lineWord?_withoutReturn, ih]

theorem wordsOfLines_append_nil (n : Nat) (ls : List (List Char)) :
    wordsOfLines n (ls ++ [[]]) = wordsOfLines n ls := by
  induction ls generalizing n with
  | nil => rfl
  | cons l ls ih => rw [List.cons_append, wordsOfLines_cons, wordsOfLines_cons, ih]

/-- It does not matter how the lines of a text end, and an empty line at its end adds nothing. -/
theorem wordsOfLines_textLines (n : Nat) (cs : List Char) :
    wordsOfLines n (textLines cs) = wordsOfLines n (lines cs) := by
  have hne : cs.splitOn '\n' ≠ [] := List.splitOn_ne_nil _ _
  have hlast := List.dropLast_concat_getLast hne
  rw [textLines, wordsOfLines_map_withoutReturn, List.getLast?_eq_some_getLast hne,
    lines_eq_splitOn]
  by_cases hl : (cs.splitOn '\n').getLast hne = []
  · rw [hl] at hlast ⊢
    rw [← wordsOfLines_append_nil, List.append_assoc]
    conv_rhs => rw [← hlast]
    rfl
  · conv_rhs => rw [← hlast]
    simp [hl]

end Assembly

namespace Program

open Assembly

theorem lines_joined (t₁ t₂ : String) :
    lines (t₁ ++ "\n" ++ t₂).toList = lines t₁.toList ++ lines t₂.toList := by
  rw [String.toList_append, String.toList_append, List.append_assoc]
  exact lines_append_lineFeed _ _

/-- Behind a text without errors another text has its own words or its own error. -/
theorem ofText_joined_of_ok {t₁ t₂ : String} {us : List Word}
    (h : ofText t₁ = .ok (us ++ [0#64])) :
    ofText (t₁ ++ "\n" ++ t₂) =
      (wordsOfLines (1 + (t₁.toList.count '\n' + 1)) (lines t₂.toList)).map (us ++ ·) := by
  obtain ⟨ws, hy, hus⟩ := exists_yield_of_ok h
  rw [ofText, lines_joined, hy.wordsOfLines_append, length_lines, List.append_cancel_right hus]

/-- Where the lines of a text are counted from changes only the number in an error. -/
theorem wordsOfLines_of_error {t : String} {n : Nat} {e : AssemblyError}
    (h : ofText t = .error (.onLine n e)) (k : Nat) :
    wordsOfLines (1 + k) (lines t.toList) = .error (.onLine (n + k) e) := by
  obtain ⟨before, ws, l, after, cause, hls, hy, hl, he⟩ := exists_rejected_of_error h
  cases he
  rw [hls, hy.error hl]
  congr 2
  omega

/-- A text of two texts with a line feed between them. An error of the first one is the error of
the whole. If the first one has none, the words of the second follow its words, or the error of the
second stands with its line counted on. The error of any text is that of its first line which is not
blank in front of its comment and which is not assembled, with the number of the line put to it
once. -/
theorem ofText_joined (t₁ t₂ : String) :
    (∀ n e, ofText t₁ = .error (.onLine n e) →
      ofText (t₁ ++ "\n" ++ t₂) = .error (.onLine n e)) ∧
    (∀ us vs, ofText t₁ = .ok (us ++ [0#64]) → ofText t₂ = .ok (vs ++ [0#64]) →
      ofText (t₁ ++ "\n" ++ t₂) = .ok (us ++ vs ++ [0#64])) ∧
    (∀ us n e, ofText t₁ = .ok us → ofText t₂ = .error (.onLine n e) →
      ofText (t₁ ++ "\n" ++ t₂) = .error (.onLine (n + 1 + t₁.toList.count '\n') e)) ∧
    (∀ us, ofText t₁ = .ok us → ∃ ws, us = ws ++ [0#64]) ∧
    ∀ e, ofText t₁ = .error e ↔
      ∃ before l after cause, textLines t₁.toList = before ++ l :: after ∧
        (∀ k ∈ before, Accepted k) ∧ Rejected l cause ∧ cause.isNumbered = false ∧
        e = .onLine (before.length + 1) cause := by
  have hterminated : ∀ us, ofText t₁ = .ok us → ∃ ws, us = ws ++ [0#64] := by
    intro us h
    obtain ⟨ws, -, hus⟩ := exists_yield_of_ok h
    exact ⟨_, hus⟩
  refine ⟨?_, ?_, ?_, hterminated, ?_⟩
  · intro n e h
    obtain ⟨before, ws, l, after, cause, hls, hy, hl, he⟩ := exists_rejected_of_error h
    rw [ofText, lines_joined, hls, List.append_assoc, List.cons_append, hy.error hl, he]
  · intro us vs h₁ h₂
    obtain ⟨ws, hy, hvs⟩ := exists_yield_of_ok h₂
    rw [ofText_joined_of_ok h₁, hy.ok, ← hvs, List.append_assoc]
    rfl
  · intro us n e h₁ h₂
    obtain ⟨ws, rfl⟩ := hterminated us h₁
    rw [ofText_joined_of_ok h₁, wordsOfLines_of_error h₂]
    have hn : n + (t₁.toList.count '\n' + 1) = n + 1 + t₁.toList.count '\n' := by omega
    rw [hn]
    rfl
  · intro e
    rw [ofText, ← wordsOfLines_textLines]
    constructor
    · intro h
      obtain ⟨before, ws, l, after, cause, hls, hy, hl, he⟩ := exists_rejected_of_error h
      refine ⟨before, l, after, cause, hls, hy.accepted, hl, ?_, ?_⟩
      · exact unnumbered_word _ _ (by rw [← ofLine_ofList]; exact hl.error)
      · rw [he, Nat.add_comm]
    · rintro ⟨before, l, after, cause, hls, hb, hl, -, rfl⟩
      obtain ⟨ws, hy⟩ := exists_yield_of_accepted hb
      rw [hls, hy.error hl, Nat.add_comm]

/-- The second text has a comment and a blank line in front of the line that is rejected, and the
first one ends with a carriage return. -/
theorem ofText_joined_blank_line :
    ofText "# index\r\nmov DX, $6\r" = .ok ([0x0D0086FF#64] ++ [0#64]) ∧
    ofText "# none\n\nmov r9, $1 # no register" = .error (.onLine 3 (.unknownRegister "r9")) ∧
    ofText ("# index\r\nmov DX, $6\r" ++ "\n" ++ "# none\n\nmov r9, $1 # no register") =
      .error (.onLine 5 (.unknownRegister "r9")) ∧
    ofText ("# index\r\nmov DX, $6\r" ++ "\n" ++ "# index\r\nmov DX, $6\r") =
      .ok ([0x0D0086FF#64] ++ [0x0D0086FF#64] ++ [0#64]) := by
  have h₁ : ofText "# index\r\nmov DX, $6\r" = .ok ([0x0D0086FF#64] ++ [0#64]) := by
    with_unfolding_all rfl
  have h₂ : ofText "# none\n\nmov r9, $1 # no register" =
      .error (.onLine 3 (.unknownRegister "r9")) := by
    with_unfolding_all rfl
  exact ⟨h₁, h₂, (ofText_joined _ _).2.2.1 _ _ _ h₁ h₂, (ofText_joined _ _).2.1 _ _ h₁ h₁⟩

end Program

end KeyIndexMachine
