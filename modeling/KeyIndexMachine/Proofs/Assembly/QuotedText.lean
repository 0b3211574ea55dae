import KeyIndexMachine.Proofs.Assembly.ProgramLines

/-!
# What an error quotes

An error carries parts of the line that it is about, so that they can be pointed at. Each of them
stands in the line as it is, in one piece, and is not empty; only a line of white space has nothing
that could be quoted, and its error quotes the empty text.

For a line that splits this is read off its checks. If a line does not split, the error quotes a
word of the line, the trimmed line, or what is left of it.
-/
namespace KeyIndexMachine

/-- The parts of the source that the error carries. -/
def AssemblyError.quotes : AssemblyError → List String
  | malformedInstruction line => [line]
  | unknownMnemonic mnemonic => [mnemonic]
  | wrongOperandCount mnemonic _ _ => [mnemonic]
  | unknownRegister name => [name]
  | malformedOperand token => [token]
  | constantOutOfRange token => [token]
  | illegalKey token key => [token, key.name]
  | illegalWrite token => [token]
  | malformedConditional text => [text]
  | unknownComparison symbol => [symbol]
  | trailingInput rest => [rest]
  | onLine _ cause => cause.quotes

namespace Assembly

/-- A stretch of a text that is not empty. -/
def Piece (piece cs : List Char) : Prop := piece ≠ [] ∧ piece <:+: cs

/-- All that the error quotes stands in the text. -/
def QuotesFrom (cs : List Char) (e : AssemblyError) : Prop := ∀ t ∈ e.quotes, Piece t.toList cs

section
variable {cs ds piece : List Char} {e : AssemblyError}

theorem piece_self (h : piece ≠ []) : Piece piece piece := ⟨h, List.infix_refl _⟩

theorem piece_append (a b : List Char) (h : piece ≠ []) : Piece piece (a ++ (piece ++ b)) :=
  ⟨h, a, b, List.append_assoc _ _ _⟩

theorem Piece.trans (h : Piece piece cs) (hi : cs <:+: ds) : Piece piece ds :=
  ⟨h.1, h.2.trans hi⟩

theorem QuotesFrom.trans (h : QuotesFrom cs e) (hi : cs <:+: ds) : QuotesFrom ds e :=
  fun t ht => (h t ht).trans hi

theorem quotesFrom_one {t : String} (hq : e.quotes = [t]) (h : Piece t.toList cs) :
    QuotesFrom cs e := by
  intro u hu
  rw [hq, List.mem_singleton] at hu
  exact hu ▸ h

end

theorem quotesFrom_unknownName {name cs : List Char} (hn : Piece name cs) :
    ∀ e, unknownName name e → QuotesFrom cs e := by
  rintro e ⟨-, rfl⟩
  exact quotesFrom_one rfl (by simpa using hn)

theorem PartsText.pieces {text a symbol b : List Char} (h : PartsText text a symbol b) :
    Piece a text ∧ Piece symbol text ∧ Piece b text := by
  have hsymbol : symbol ≠ [] := by
    rcases h.operator with ⟨d, -, rfl⟩ | ⟨hne, -⟩
    · simp
    · exact hne
  obtain ⟨-, ha, -, -, -, hb, -⟩ := h
  rename_i s t u v
  refine ⟨piece_append _ _ ha.1, ?_, ?_⟩
  · simpa using piece_append (s ++ a ++ t) (u ++ (b ++ v)) hsymbol
  · simpa using piece_append (s ++ a ++ t ++ symbol ++ u) v hb.1

theorem quotesFrom_conditionChecks {text : List Char} :
    ∀ check ∈ conditionChecks text, ∀ e, check e →
      QuotesFrom (conditionalOpening ++ (text ++ [')'])) e := by
  have htext : text <:+: conditionalOpening ++ (text ++ [')']) := ⟨_, _, List.append_assoc _ _ _⟩
  simp only [conditionChecks, List.forall_mem_cons, List.not_mem_nil, false_imp_iff, implies_true,
    and_true]
  refine ⟨?_, ?_, ?_, ?_⟩
  · rintro e ⟨-, rfl⟩
    refine quotesFrom_one rfl ?_
    have he : ("if(" ++ String.ofList text ++ ")").toList =
        conditionalOpening ++ (text ++ [')']) := by
      simp [conditionalOpening]
    rw [he]
    exact piece_self (by simp)
  · rintro e ⟨a, symbol, b, hp, -, rfl⟩
    exact quotesFrom_one rfl (by simpa using hp.pieces.2.1.trans htext)
  · rintro e ⟨a, symbol, b, hp, he⟩
    exact quotesFrom_unknownName (hp.pieces.1.trans htext) e he
  · rintro e ⟨a, symbol, b, hp, he⟩
    exact quotesFrom_unknownName (hp.pieces.2.2.trans htext) e he

theorem pieces_cellText {key index : List Char} (hk : key ≠ []) (hx : index ≠ []) :
    Piece key (cellText key index) ∧ Piece index (cellText key index) := by
  constructor
  · simpa [cellText] using piece_append (cellWord ++ ['[']) ('/' :: (index ++ [']'])) hk
  · simpa [cellText] using piece_append (cellWord ++ '[' :: (key ++ ['/'])) [']'] hx

theorem OperandFault.quotesFrom {token : List Char} {e : AssemblyError} (h : OperandFault token e)
    (hne : token ≠ []) : QuotesFrom token e := by
  have htoken : ∀ {t : List Char}, t ≠ [] → Piece (String.ofList t).toList t := fun ht => by
    simpa using piece_self ht
  cases h with
  | unknownKey hk hx h => exact quotesFrom_unknownName (pieces_cellText hk.1 hx.1).1 e h
  | unknownIndex _ _ hx h =>
      exact quotesFrom_unknownName (pieces_cellText (name_register _).1 hx.1).2 e h
  | noRegister _ _ _ h => exact quotesFrom_unknownName (piece_self hne) e h
  | @illegalKey key index hx _ =>
      intro t ht
      simp only [AssemblyError.quotes, List.mem_cons, List.not_mem_nil, or_false] at ht
      rcases ht with rfl | rfl
      · exact htoken hne
      · exact (pieces_cellText (name_register key).1 hx.1).1
  | _ => exact quotesFrom_one rfl (htoken hne)

theorem MoreText.pieces {cs : List Char} {tokens : List (List Char)} (h : MoreText cs tokens) :
    ∀ t ∈ tokens, Piece t cs := by
  induction h with
  | nil => simp
  | @cons s t token cs tokens _ _ hk _ ih =>
      simp only [List.forall_mem_cons]
      constructor
      · simpa using piece_append (s ++ ',' :: t) cs hk.1
      · intro k hk
        exact (ih k hk).trans ⟨s ++ ',' :: (t ++ token), [], by simp⟩

theorem OperandsText.pieces {cs : List Char} {tokens : List (List Char)}
    (h : OperandsText cs tokens) : ∀ t ∈ tokens, Piece t cs := by
  cases h with
  | none => simp
  | @some s token more tokens _ _ hk hm =>
      simp only [List.forall_mem_cons]
      constructor
      · exact piece_append s more hk.1
      · intro k hk
        exact (hm.pieces k hk).trans ⟨s ++ token, [], by simp⟩

/-- Whatever check of a line fails, its error quotes the line. -/
theorem LineText.quotesFrom {cs : List Char} {l : Line} (h : LineText cs l) :
    ∀ check ∈ l.checks, ∀ e, check e → QuotesFrom cs e := by
  obtain ⟨hf, hm, ho⟩ := h
  rename_i front mnemonic rest inside tokens
  have hmnemonic : Piece (String.ofList mnemonic).toList (front ++ (mnemonic ++ rest)) := by
    simpa using piece_append front rest hm.1
  have htoken : ∀ t ∈ tokens, Piece t (front ++ (mnemonic ++ rest)) := fun t ht =>
    (ho.pieces t ht).trans ⟨front ++ mnemonic, [], by simp⟩
  refine Line.forall_checks ?_ ?_ ?_ ?_
  · intro text ht check hc e he
    cases hf with
    | none => cases ht
    | @some inside s _ _ _ =>
        cases ht
        refine (quotesFrom_conditionChecks check hc e he).trans ?_
        exact ⟨[], s ++ (mnemonic ++ rest), by simp⟩
  · rintro e ⟨-, rfl⟩
    exact quotesFrom_one rfl hmnemonic
  · rintro found e ⟨-, rfl⟩
    exact quotesFrom_one rfl hmnemonic
  · intro t ht
    refine ⟨fun e he => (he.quotesFrom (htoken t ht).1).trans (htoken t ht).2, ?_⟩
    rintro e ⟨-, rfl⟩
    exact quotesFrom_one rfl (by simpa using htoken t ht)

/-- The first word, which is quoted, starts with the opening of the conditional. -/
theorem quotesFrom_splitConditional {cs : List Char} {e : AssemblyError}
    (h : splitConditional cs = .error e) : QuotesFrom cs e := by
  unfold splitConditional at h
  split at h
  · cases h
  · rename_i inside hi
    split at h
    · cases h
    · cases h
      have hword : Text.firstWord cs ≠ [] := by
        rw [← List.append_eq_of_isPrefixOf?_eq_some hi, Text.firstWord, conditionalOpening,
          List.cons_append, List.takeWhile_cons_of_pos (by decide)]
        simp
      refine quotesFrom_one rfl ?_
      rw [String.toList_ofList]
      exact ⟨hword, (List.takeWhile_prefix _).isInfix⟩

theorem splitOperands_suffix (cs : List Char) : (splitOperands cs).2 <:+ cs := by
  obtain ⟨u, e, hcs, -, -⟩ := operandsText_splitOperands cs
  refine ⟨u ++ e, ?_⟩
  rw [List.append_assoc]
  exact hcs.symm

theorem quotesFrom_ofTrimmed {cs : List Char} {e : AssemblyError} (hne : cs ≠ [])
    (h : Line.ofTrimmed cs = .error e) : QuotesFrom cs e := by
  unfold Line.ofTrimmed at h
  cases hs : splitConditional cs with
  | error e' =>
      rw [hs] at h
      cases h
      exact quotesFrom_splitConditional hs
  | ok parts =>
      obtain ⟨inside, rest⟩ := parts
      obtain ⟨front, hcs, -⟩ := frontText_of_splitConditional hs
      simp only [hs] at h
      split at h
      · cases h
        exact quotesFrom_one rfl (by simpa using piece_self hne)
      · split at h
        · cases h
        · rename_i left hleft
          cases h
          have hrest : rest <:+ cs := ⟨front, hcs.symm⟩
          have hsplit : (splitOperands (rest.dropWhile Char.isAlpha)).2 <:+ cs :=
            (splitOperands_suffix _).trans ((List.dropWhile_suffix _).trans hrest)
          have hleft' : skipBlanks (splitOperands (rest.dropWhile Char.isAlpha)).2 <:+ cs :=
            (List.dropWhile_suffix _).trans hsplit
          refine quotesFrom_one rfl ?_
          rw [String.toList_ofList]
          exact ⟨hleft, hleft'.isInfix⟩

theorem quotesFrom_instruction {cs : List Char} {e : AssemblyError} (hne : Text.trim cs ≠ [])
    (h : instruction cs = .error e) : QuotesFrom cs e := by
  rw [instruction, Line.ofChars] at h
  cases hl : Line.ofTrimmed (Text.trim cs) with
  | error e' =>
      rw [hl] at h
      cases h
      exact (quotesFrom_ofTrimmed hne hl).trans (Text.trim_infix cs)
  | ok l =>
      rw [hl] at h
      obtain ⟨u, blanks, hu, -, ht⟩ := lineText_of_ofTrimmed hl
      have hquotes := (settles_instruction l).forall_error ht.quotesFrom e h
      have hread : u <:+: Text.trim cs := ⟨[], blanks, by simpa using hu.symm⟩
      exact hquotes.trans (hread.trans (Text.trim_infix cs))

theorem whiteSpace_of_trim_eq_nil {cs : List Char} (h : Text.trim cs = []) : WhiteSpace cs := by
  obtain ⟨l, r, hcs, hl, hr⟩ := exists_trim cs
  rw [h, List.nil_append] at hcs
  intro c hc
  rw [hcs] at hc
  rcases List.mem_append.mp hc with hc | hc
  · exact hl c hc
  · exact hr c hc

end Assembly

open Assembly in
/-- Why a line is not assembled is said of the line alone, in words of the line: each text that the
error carries stands in the line in one piece, and none is empty unless the whole line is white
space. -/
theorem Word.quoted_of_ofLine_error {line : String} {e : AssemblyError}
    (h : Word.ofLine line = .error e) :
    e.isNumbered = false ∧ ∀ t ∈ e.quotes, t.toList <:+: line.toList ∧
      (t ≠ "" ∨ (e = .malformedInstruction "" ∧ WhiteSpace line.toList)) := by
  refine ⟨unnumbered_word _ _ h, ?_⟩
  have hi : Assembly.instruction line.toList = .error e := by
    rw [Word.ofLine, Assembly.word] at h
    cases hi : Assembly.instruction line.toList with
    | error e' =>
        rw [hi] at h
        cases h
        rfl
    | ok i =>
        rw [hi] at h
        cases h
  intro t ht
  by_cases hb : Text.trim line.toList = []
  · have he : e = .malformedInstruction "" := by
      rw [Assembly.instruction, Line.ofChars, hb] at hi
      exact (Except.error.inj hi).symm
    subst he
    rw [AssemblyError.quotes, List.mem_singleton] at ht
    subst ht
    exact ⟨List.nil_infix, .inr ⟨rfl, whiteSpace_of_trim_eq_nil hb⟩⟩
  · obtain ⟨hne, hpiece⟩ := quotesFrom_instruction hb hi t ht
    refine ⟨hpiece, .inl ?_⟩
    rintro rfl
    exact hne rfl

/-- Two names are quoted from an operand whose key is no key; the line has white space around it
that is no blank. -/
theorem Word.quoted_of_ofLine_error_key :
    Word.ofLine "\u00A0mov hashtable[PX/r9], %\u2003" =
      .error (.illegalKey "hashtable[PX/r9]" .px) ∧
    "hashtable[PX/r9]".toList <:+: "\u00A0mov hashtable[PX/r9], %\u2003".toList ∧
    "PX".toList <:+: "\u00A0mov hashtable[PX/r9], %\u2003".toList := by
  have h : Word.ofLine "\u00A0mov hashtable[PX/r9], %\u2003" =
      .error (.illegalKey "hashtable[PX/r9]" .px) := by
    with_unfolding_all rfl
  have hq := (Word.quoted_of_ofLine_error h).2
  exact ⟨h, (hq "hashtable[PX/r9]" (by decide)).1, (hq "PX" (by decide)).1⟩

end KeyIndexMachine
