import KeyIndexMachine.Assembly.Condition
import KeyIndexMachine.Proofs.Assembly.Grammar

/-!
# Digits, names and operators

The smallest texts that a line is made of, before they are looked up. A digit is hexadecimal, in
either case. A name is a run of name characters, and an operator is a question mark with a digit or
a run of the signs of comparison; no name and no blank goes on into an operator. Scanning for one of
them, with the blanks around it, finds exactly the one that was put there.
-/
namespace KeyIndexMachine.Assembly

theorem hexValue?_digitChar : ∀ n < 16,
    hexValue? (Nat.digitChar n) = some n ∧ hexValue? (Nat.digitChar n).toUpper = some n := by
  decide

theorem toNat_lt_of_hexValue? {d : Char} {n : Nat} (h : hexValue? d = some n) :
    d.toNat < 103 := by
  have hb : ∀ e : Char, e.toNat < 103 → d ≤ e → d.toNat < 103 := fun e he hd =>
    Nat.lt_of_le_of_lt hd he
  unfold hexValue? at h
  split at h
  · rename_i hd
    exact hb '9' (by decide) hd.2
  · split at h
    · rename_i hd
      exact hb 'f' (by decide) hd.2
    · split at h
      · rename_i hd
        exact hb 'F' (by decide) hd.2
      · cases h

theorem hexDigit_table : ∀ m < 103, ∀ n ∈ hexValue? (Char.ofNat m), HexDigit (Char.ofNat m) n := by
  decide

theorem hexValue?_eq_some_iff {d : Char} {n : Nat} : hexValue? d = some n ↔ HexDigit d n := by
  constructor
  · intro h
    have ht := hexDigit_table d.toNat (toNat_lt_of_hexValue? h) n
    rw [Char.ofNat_toNat] at ht
    exact ht h
  · rintro ⟨hn, rfl | rfl⟩
    · exact (hexValue?_digitChar n hn).1
    · exact (hexValue?_digitChar n hn).2

theorem isHexDigit_iff {d : Char} : isHexDigit d = true ↔ ∃ n, HexDigit d n := by
  simp only [isHexDigit, Option.isSome_iff_exists, hexValue?_eq_some_iff]

/-- The two cases of a digit come to the same when it is put in small letters. -/
theorem HexDigit.toLower {d : Char} {n : Nat} (h : HexDigit d n) : d.toLower = Nat.digitChar n := by
  have ht : ∀ n < 16, (Nat.digitChar n).toLower = Nat.digitChar n ∧
      (Nat.digitChar n).toUpper.toLower = Nat.digitChar n := by decide
  obtain ⟨hn, rfl | rfl⟩ := h
  · exact (ht n hn).1
  · exact (ht n hn).2

theorem digitChar_injective : ∀ m < 16, ∀ n < 16, Nat.digitChar m = Nat.digitChar n → m = n := by
  decide

theorem hexNat_of_lt {n : Nat} (h : n < 16) : hexNat n = String.ofList [Nat.digitChar n] := by
  rw [hexNat, Nat.toDigits_of_lt_base h]

theorem eq_ofList_iff {s : String} {cs : List Char} : s = String.ofList cs ↔ s.toList = cs := by
  rw [← String.toList_inj, String.toList_ofList]

/-- What the name of a register could be. -/
def Name (cs : List Char) : Prop := cs ≠ [] ∧ ∀ c ∈ cs, isNameChar c = true

/-- What a comparison could be: one hexadecimal digit after a question mark, or any number of the
other characters. -/
def Operator (cs : List Char) : Prop :=
  (∃ d, isHexDigit d = true ∧ cs = ['?', d]) ∨ (cs ≠ [] ∧ ∀ c ∈ cs, isComparisonChar c = true)

theorem name_register (r : Register) : Name r.name.toList := by
  cases r <;> exact ⟨by decide, List.all_eq_true.mp (by decide)⟩

theorem isComparisonChar_iff {c : Char} :
    isComparisonChar c = true ↔ c = '<' ∨ c = '>' ∨ c = '=' ∨ c = '!' := by
  simp [isComparisonChar, or_assoc]

theorem not_isComparisonChar_of_isNameChar {c : Char} (h : isNameChar c = true) :
    isComparisonChar c = false := by
  rw [Bool.eq_false_iff]
  intro hc
  rcases isComparisonChar_iff.mp hc with rfl | rfl | rfl | rfl <;> exact absurd h (by decide)

/-- No name and no blank goes on into an operator. -/
theorem Operator.stops {symbol : List Char} (h : Operator symbol) (cs : List Char)
    {p : Char → Bool} (h' : ['?', '<', '>', '=', '!'].any p = false) :
    Stops p (symbol ++ cs) := by
  have hp := forall_of_any_eq_false h'
  rcases h with ⟨d, -, rfl⟩ | ⟨hne, hall⟩
  · exact stops_cons.mpr (hp '?' (by simp))
  · refine stops_of_ne_nil hne ?_
    intro c hc
    have hs := isComparisonChar_iff.mp (hall c hc)
    exact hp c (by simp [hs])

theorem comparisonText?_append {symbol cs : List Char} (h : Operator symbol)
    (hs : Stops isComparisonChar cs) : comparisonText? (symbol ++ cs) = some (symbol, cs) := by
  rcases h with ⟨d, hd, rfl⟩ | ⟨hne, hall⟩
  · simp [comparisonText?, hd]
  · cases symbol with
    | nil => exact absurd rfl hne
    | cons c symbol =>
        have ht := takeWhile_append_stops hall hs
        have hr := dropWhile_append_stops hall hs
        unfold comparisonText?
        split
        · rename_i d rest heq
          have hc : c = '?' := List.head_eq_of_cons_eq heq
          exact absurd (hall c (by simp)) (by rw [hc]; decide)
        · rw [ht, hr]

theorem eq_of_comparisonText? {cs symbol rest : List Char}
    (h : comparisonText? cs = some (symbol, rest)) : cs = symbol ++ rest ∧ Operator symbol := by
  unfold comparisonText? at h
  split at h
  · rename_i d after
    split at h
    · rename_i hd
      cases h
      exact ⟨rfl, .inl ⟨d, hd, rfl⟩⟩
    · cases h
  · split at h
    · cases h
    · rename_i c run hr
      cases h
      obtain ⟨hall, hcs⟩ := eq_of_takeWhile_eq_cons hr
      exact ⟨hcs, .inr ⟨by simp, hall⟩⟩

theorem paddedName?_append {s t name cs : List Char} (hs : Blanks s) (hn : Name name)
    (ht : Blanks t) (hb : Stops isBlank cs) (hc : Stops isNameChar cs) :
    paddedName? (s ++ (name ++ (t ++ cs))) = some (name, cs) := by
  have hname : Stops isBlank (name ++ (t ++ cs)) :=
    stops_of_ne_nil hn.1 fun c hc => not_isBlank_of_class (by decide) (by decide) (hn.2 c hc)
  have htail : Stops isNameChar (t ++ cs) :=
    stops_append (ht.not_mem_class (by decide) (by decide)) hc
  obtain ⟨hne, hall⟩ := hn
  rw [paddedName?, skipBlanks_append hs hname]
  simp only [takeWhile_append_stops hall htail, dropWhile_append_stops hall htail,
    skipBlanks_append ht hb]
  cases name with
  | nil => exact absurd rfl hne
  | cons c name => rfl

theorem eq_of_paddedName? {cs name rest : List Char} (h : paddedName? cs = some (name, rest)) :
    ∃ s t, cs = s ++ (name ++ (t ++ rest)) ∧ Blanks s ∧ Name name ∧ Blanks t := by
  simp only [paddedName?] at h
  split at h
  · cases h
  · rename_i c run hr
    cases h
    obtain ⟨hall, hbody⟩ := eq_of_takeWhile_eq_cons hr
    refine ⟨cs.takeWhile isBlank, ((skipBlanks cs).dropWhile isNameChar).takeWhile isBlank, ?_,
      blanks_takeWhile cs, ⟨by simp, hall⟩, blanks_takeWhile _⟩
    rw [← takeWhile_append_skipBlanks, ← hbody]
    exact takeWhile_append_skipBlanks cs

end KeyIndexMachine.Assembly
