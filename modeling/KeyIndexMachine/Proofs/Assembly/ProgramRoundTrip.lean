import KeyIndexMachine.Proofs.Assembly.Image
import KeyIndexMachine.Proofs.ListingReading
import KeyIndexMachine.Proofs.LoadedProgram

/-!
# Programs through memory and back

A text is assembled to words, the words are loaded, and the area is listed. The listing has a line
for each word, since no assembled word is zero and the loader puts a zero behind the last one. The
text in a line is assembled to the word that it was written from, and since it contains neither a
line feed nor the sign of a comment, the lines make up a text that is assembled to the same program.
-/
namespace KeyIndexMachine

namespace Assembly

/-- It is in no class of characters and is none of the signs of the grammar. -/
structure Unwritten (e : Char) : Prop where
  blank : isBlank e = false
  name : isNameChar e = false
  comparison : isComparisonChar e = false
  sign : e ∉ ['?', '(', ')', '[', ']', '/', ',']

theorem unwritten_lineFeed : Unwritten '\n' :=
  ⟨by decide, by decide, by decide, by decide⟩

theorem unwritten_comment : Unwritten '#' :=
  ⟨by decide, by decide, by decide, by decide⟩

theorem HexDigit.isNameChar {d : Char} {n : Nat} (h : HexDigit d n) : isNameChar d = true := by
  have ht : ∀ n < 16, Assembly.isNameChar (Nat.digitChar n) = true ∧
      Assembly.isNameChar (Nat.digitChar n).toUpper = true := by decide
  obtain ⟨hn, rfl | rfl⟩ := h
  · exact (ht n hn).1
  · exact (ht n hn).2

section
variable {e : Char} (he : Unwritten e)
include he

theorem Unwritten.not_isHexDigit : isHexDigit e = false := by
  rw [Bool.eq_false_iff]
  intro h
  obtain ⟨n, hn⟩ := isHexDigit_iff.mp h
  have hname := hn.isNameChar
  rw [he.name] at hname
  cases hname

theorem Unwritten.not_mem_name (r : Register) : e ∉ r.name.toList := by
  intro h
  have hname := (name_register r).2 e h
  rw [he.name] at hname
  cases hname

/-- A text is free of the character if its characters are blanks, names and signs. -/
theorem Unwritten.not_mem_of_any {cs : List Char}
    (h : cs.all fun c => Assembly.isBlank c || Assembly.isNameChar c ||
      ['?', '(', ')', '[', ']', '/', ','].contains c) :
    e ∉ cs := by
  intro hm
  have hc := List.all_eq_true.mp h e hm
  rw [he.blank, he.name, Bool.false_or, Bool.false_or, List.contains_iff_mem] at hc
  exact he.sign hc

theorem Unwritten.not_mem_hexNatPadded (width n : Nat) : e ∉ (hexNatPadded width n).toList := by
  have hn : hexValue? e = none := by
    rw [← Option.not_isSome_iff_eq_none, Bool.not_eq_true]
    exact he.not_isHexDigit
  exact Listing.not_mem_of_number? (Listing.number?_hexNatPadded width n) hn

theorem OperandText.not_mem {cs : List Char} {o : Operand} (h : OperandText cs o) : e ∉ cs := by
  cases h with
  | register r => exact he.not_mem_name r
  | @constant d n hd _ =>
      refine he.not_mem_of_any ?_
      have hs : Assembly.isNameChar '$' = true := by decide
      simp [hs, hd.isNameChar]
  | @indirect k x _ _ =>
      have ho : e ∉ "hashtable[".toList := he.not_mem_of_any (by decide)
      have hm : e ∉ "/".toList := he.not_mem_of_any (by decide)
      have hc : e ∉ "]".toList := he.not_mem_of_any (by decide)
      simp only [List.mem_append, ho, he.not_mem_name k, hm, he.not_mem_name x, hc, or_self,
        not_false_eq_true]

theorem ConditionalText.not_mem {cs : List Char} {c : Condition} (h : ConditionalText cs c) :
    e ∉ cs := by
  cases h with
  | always => exact List.not_mem_nil
  | given hc hs =>
      have hq : e ≠ '?' := fun h => he.sign (h ▸ by simp)
      have hi := hc.not_mem he.blank he.name he.comparison he.not_isHexDigit hq
      have ho : e ∉ "if(".toList := he.not_mem_of_any (by decide)
      have hcl : e ∉ ")".toList := he.not_mem_of_any (by decide)
      simp only [List.mem_append, ho, hi, hcl, hs.not_mem he.blank, or_self, not_false_eq_true]

/-- What is written of an instruction, with an unknown opcode too. -/
theorem Unwritten.not_mem_body {i : Instruction} (hs : i.Spellable) : e ∉ i.body.toList := by
  have hd := (hs i.destination (by simp)).not_mem he
  have ha := (hs i.sourceA (by simp)).not_mem he
  have hb := (hs i.sourceB (by simp)).not_mem he
  have hblank : e ∉ " ".toList := he.not_mem_of_any (by decide)
  have hcomma : e ∉ ", ".toList := he.not_mem_of_any (by decide)
  unfold Instruction.body
  split
  · have hn : e ∉ "mov ".toList := he.not_mem_of_any (by decide)
    simp only [String.toList_append, List.mem_append, hn, hd, hcomma, hb, or_self,
      not_false_eq_true]
  · split
    · rename_i o _
      have hn : e ∉ o.name.toList := by
        cases o <;> exact he.not_mem_of_any (by decide)
      simp only [String.toList_append, List.mem_append, hn, hblank, hd, hcomma, ha, hb, or_self,
        not_false_eq_true]
    · have hn : e ∉ "unknown[0x".toList := he.not_mem_of_any (by decide)
      have hbracket : e ∉ "] ".toList := he.not_mem_of_any (by decide)
      simp only [String.toList_append, List.mem_append, hn, he.not_mem_hexNatPadded, hbracket, hd,
        hcomma, ha, hb, or_self, not_false_eq_true]

/-- No text of a word contains such a character, be it a line of the grammar or not. -/
theorem Unwritten.not_mem_text (w : Word) : e ∉ w.text.toList := by
  have hf := (Instruction.conditionalText_front (Instruction.ofWord w)).not_mem he
  have hb := he.not_mem_body (Instruction.spellable_ofWord w)
  rw [Word.text, Instruction.text_eq_front_append, String.toList_append, List.mem_append]
  simp only [hf, hb, or_self, not_false_eq_true]

end

theorem lines_eq_splitOn (cs : List Char) : lines cs = cs.splitOn '\n' := by
  induction cs with
  | nil => rfl
  | cons c cs ih =>
      rw [lines, ih, List.splitOn_cons_eq_if_modifyHead]
      by_cases hc : c = '\n'
      · simp [hc]
      · cases hs : cs.splitOn '\n' with
        | nil => exact absurd hs (List.splitOn_ne_nil _ _)
        | cons l ls => simp [hc]

theorem withoutComment_of_not_mem {cs : List Char} (h : '#' ∉ cs) : withoutComment cs = cs := by
  rw [withoutComment, List.takeWhile_eq_self_iff]
  intro c hc
  have hne : c ≠ '#' := fun he => h (he ▸ hc)
  simpa using hne

/-- A blank line has no mnemonic. -/
theorem trim_ne_nil_of_word {cs : List Char} {w : Word} (h : word cs = .ok w) :
    Text.trim cs ≠ [] := by
  intro hb
  have hl : Line.ofChars cs = .error (.malformedInstruction "") := by
    rw [Line.ofChars, hb]
    rfl
  rw [word, instruction, hl] at h
  cases h

theorem wordsOfLines_cons_of_word {l : List Char} {w : Word} (h : word l = .ok w) (hc : '#' ∉ l)
    (n : Nat) (ls : List (List Char)) :
    wordsOfLines n (l :: ls) = (wordsOfLines (n + 1) ls).map (w :: ·) := by
  simp only [wordsOfLines, withoutComment_of_not_mem hc, if_neg (trim_ne_nil_of_word h), h]

/-- Every word of a program is assembled from a line. -/
theorem exists_word_of_wordsOfLines {n : Nat} {ls : List (List Char)} {us : List Word}
    (h : wordsOfLines n ls = .ok us) :
    ∃ ws, us = ws ++ [0#64] ∧ ∀ w ∈ ws, ∃ l, word l = .ok w := by
  induction ls generalizing n us with
  | nil =>
      cases h
      exact ⟨[], rfl, by simp⟩
  | cons l ls ih =>
      rw [wordsOfLines] at h
      split at h
      · exact ih h
      · cases hw : word (withoutComment l) with
        | error e =>
            rw [hw] at h
            cases h
        | ok w =>
            rw [hw] at h
            cases hr : wordsOfLines (n + 1) ls with
            | error e =>
                simp only [hr] at h
                cases h
            | ok vs =>
                simp only [hr] at h
                cases h
                obtain ⟨ws, rfl, hws⟩ := ih hr
                refine ⟨w :: ws, rfl, ?_⟩
                intro v hv
                rcases List.mem_cons.mp hv with rfl | hv
                · exact ⟨_, hw⟩
                · exact hws v hv

end Assembly

namespace Program

variable {ws : List Word}

theorem wordsOfLines_text (h : ∀ w ∈ ws, w.Assembled) (n : Nat) :
    Assembly.wordsOfLines n (ws.map fun w => w.text.toList) = .ok (ws ++ [0#64]) := by
  induction ws generalizing n with
  | nil => rfl
  | cons w ws ih =>
      have hw := h w (by simp)
      have hr := ih (fun v hv => h v (List.mem_cons_of_mem _ hv)) (n + 1)
      rw [List.map_cons, Assembly.wordsOfLines_cons_of_word (Word.ofLine_text_of_assembled hw)
        (Assembly.unwritten_comment.not_mem_text w), hr]
      rfl

/-- The texts of assembled words, one a line, are a program with these words. -/
theorem ofText_intercalate_text (h : ∀ w ∈ ws, w.Assembled) :
    Program.ofText ("\n".intercalate (ws.map Word.text)) = .ok (ws ++ [0#64]) := by
  by_cases hne : ws = []
  · subst hne
    rfl
  · have hlines : Assembly.lines ("\n".intercalate (ws.map Word.text)).toList =
        ws.map fun w => w.text.toList := by
      rw [Assembly.lines_eq_splitOn, String.toList_intercalate, List.map_map]
      refine List.splitOn_intercalate '\n' ?_ (by simpa using hne)
      intro l hl
      obtain ⟨w, hw, rfl⟩ := List.mem_map.mp hl
      exact Assembly.unwritten_lineFeed.not_mem_text w
    rw [Program.ofText, hlines, wordsOfLines_text h]

theorem assembled_of_ofText {text : String} (h : Program.ofText text = .ok (ws ++ [0#64])) :
    ∀ w ∈ ws, w.Assembled := by
  obtain ⟨vs, hvs, hlines⟩ := Assembly.exists_word_of_wordsOfLines h
  have he : ws = vs := List.append_cancel_right hvs
  intro w hw
  obtain ⟨l, hl⟩ := hlines w (he ▸ hw)
  have hline : Word.ofLine (String.ofList l) = .ok w := by
    rw [Word.ofLine, String.toList_ofList, hl]
  exact Word.assembled_of_ofLine hline

/-- A program that is assembled, loaded under a key other than 0, whatever was in memory, and listed
has a line for each of its words: the index, the word in hexadecimal, and a text. These texts are a
program that is assembled to the same words. -/
theorem exists_listing_of_ofText {text : String} (h : Program.ofText text = .ok (ws ++ [0#64]))
    (hl : ws.length < 2 ^ 63) (s : AddressSpace) {key : Word} (hk : key ≠ 0#64) :
    (∀ w ∈ ws, w ≠ 0#64) ∧
    (∃ lines, (s.load (ws ++ [0#64]) key).listing key 0#64 = some lines ∧
      lines.length = ws.length ∧
      ∀ (i : Nat) (hi : i < ws.length), ws[i].hexAligned.length = 18 ∧
        lines[i]? = some (padLeft 2 (hexNat i) ++ ": " ++
          (ws[i].hexAligned ++ "   " ++ ws[i].text))) ∧
    Program.ofText ("\n".intercalate (ws.map Word.text)) = .ok (ws ++ [0#64]) := by
  have ha := assembled_of_ofText h
  have hz : ∀ w ∈ ws, w ≠ 0#64 := fun w hw => (ha w hw).ne_zero
  have hl64 : ws.length < 2 ^ 64 := by omega
  refine ⟨hz, ⟨_, (AddressSpace.firstZero_load s hz hk hl64).listing, by simp, ?_⟩,
    ofText_intercalate_text ha⟩
  intro i hi
  refine ⟨Word.length_hexAligned _, ?_⟩
  have hword : (s.load (ws ++ [0#64]) key).wordAt key 0#64 i = ws[i] := by
    rw [AddressSpace.wordAt_load hz hk hl64 (by simp; omega), List.getElem_append_left hi]
  have hindex : Word.hexColumn (0#64 + BitVec.ofNat 64 i) = padLeft 2 (hexNat i) := by
    rw [BitVec.zero_add, Word.hexColumn, Word.hex, BitVec.toNat_ofNat, Nat.mod_eq_of_lt (by omega)]
  rw [List.getElem?_map, List.getElem?_range hi, Option.map_some, AddressSpace.listingEntry, hword,
    hindex, Word.listing]

/-- A program with a comment, a blank line and a condition, listed over a cell that was there. -/
theorem exists_listing_of_ofText_conditional :
    Program.ofText "# start\n mov DX, $6  # index\n\nif(r1<r3) mov PX, $6\n" =
      .ok ([0x0D0086FF#64, 0x113080086FF#64] ++ [0#64]) ∧
    (∃ lines, ((AddressSpace.empty.store ⟨5#64, 2#64⟩ 7#64).load
        ([0x0D0086FF#64, 0x113080086FF#64] ++ [0#64]) 5#64).listing 5#64 0#64 = some lines ∧
      lines.length = 2 ∧
      lines[1]? = some " 1: 0x00000113080086ff   if(r1<r3) mov PX, $6") ∧
    Program.ofText "mov DX, $6\nif(r1<r3) mov PX, $6" =
      .ok ([0x0D0086FF#64, 0x113080086FF#64] ++ [0#64]) := by
  have hp : Program.ofText "# start\n mov DX, $6  # index\n\nif(r1<r3) mov PX, $6\n" =
      .ok ([0x0D0086FF#64, 0x113080086FF#64] ++ [0#64]) := by
    with_unfolding_all rfl
  obtain ⟨-, ⟨lines, hlines, hn, hl⟩, hr⟩ :=
    exists_listing_of_ofText hp (by decide) _ (show 5#64 ≠ 0#64 by decide)
  refine ⟨hp, ⟨lines, hlines, hn, ?_⟩, ?_⟩
  · rw [(hl 1 (by decide)).2]
    decide
  · have ht : "\n".intercalate (List.map Word.text [0x0D0086FF#64, 0x113080086FF#64]) =
        "mov DX, $6\nif(r1<r3) mov PX, $6" := by decide
    rw [← ht]
    exact hr

end Program

end KeyIndexMachine
