import KeyIndexMachine.Proofs.Assembly.Scanning

/-!
# Where a line splits

The shape of a line before any of its parts is given a meaning: an optional text in `if(...)`, a
word of letters, and tokens that blanks set off from the word and commas from each other. Splitting
a line finds exactly this shape, up to blanks at the end: `ofTrimmed_eq_ok_iff` says so in both
directions. The proof takes the scans of the splitter one by one, each with what it leaves over.
-/
namespace KeyIndexMachine.Assembly

/-- What can stand between two commas. -/
def Token (cs : List Char) : Prop := cs ≠ [] ∧ ∀ c ∈ cs, isTokenChar c = true

/-- A word of ASCII letters, whatever it means. -/
def Letters (cs : List Char) : Prop := cs ≠ [] ∧ ∀ c ∈ cs, c.isAlpha = true

/-- Tokens with a comma in front of each. -/
inductive MoreText : List Char → List (List Char) → Prop
  | nil : MoreText [] []
  | cons {s t token cs : List Char} {tokens : List (List Char)} :
      Blanks s → Blanks t → Token token → MoreText cs tokens →
      MoreText (s ++ ',' :: (t ++ (token ++ cs))) (token :: tokens)

/-- All that follows the mnemonic. -/
inductive OperandsText : List Char → List (List Char) → Prop
  | none : OperandsText [] []
  | some {s token cs : List Char} {tokens : List (List Char)} :
      Blanks s → s ≠ [] → Token token → MoreText cs tokens →
      OperandsText (s ++ (token ++ cs)) (token :: tokens)

/-- All in front of the mnemonic. -/
inductive FrontText : List Char → Option (List Char) → Prop
  | none : FrontText [] none
  | some {inside s : List Char} : inside ≠ [] → ')' ∉ inside → Blanks s →
      FrontText (conditionalOpening ++ (inside ++ ')' :: s)) (some inside)

inductive LineText : List Char → Line → Prop
  | intro {front mnemonic cs : List Char} {inside : Option (List Char)}
      {tokens : List (List Char)} :
      FrontText front inside → Letters mnemonic → OperandsText cs tokens →
      LineText (front ++ (mnemonic ++ cs)) ⟨inside, mnemonic, tokens⟩

theorem Token.stops_isBlank {token : List Char} (h : Token token) (cs : List Char) :
    Stops isBlank (token ++ cs) :=
  stops_of_ne_nil h.1 fun c hc => not_isBlank_of_class (by decide) (by decide) (h.2 c hc)

/-- A scan for a class without blanks and commas stops at the next comma, or at the end. -/
theorem MoreText.stops {cs e : List Char} {tokens : List (List Char)} (h : MoreText cs tokens)
    (he : Blanks e) {p : Char → Bool} (hs : p ' ' = false) (ht : p '\t' = false)
    (hc : p ',' = false) : Stops p (cs ++ e) := by
  cases h with
  | nil => exact he.stops hs ht
  | cons hb _ _ _ =>
      rw [List.append_assoc]
      exact stops_append (hb.not_mem_class hs ht) (stops_cons.mpr hc)

theorem OperandsText.stops {cs e : List Char} {tokens : List (List Char)}
    (h : OperandsText cs tokens) (he : Blanks e) {p : Char → Bool} (hs : p ' ' = false)
    (ht : p '\t' = false) : Stops p (cs ++ e) := by
  cases h with
  | none => exact he.stops hs ht
  | some hb hne _ _ =>
      rw [List.append_assoc]
      exact stops_of_ne_nil hne (hb.not_mem_class hs ht)

theorem moreOperands_of_none {cs : List Char} (h : afterComma? cs = none) :
    moreOperands cs = ([], cs) := by
  rw [moreOperands]
  split
  · rfl
  · simp_all

theorem moreOperands_of_no_token {cs rest : List Char} (h : afterComma? cs = some rest)
    (ht : rest.takeWhile isTokenChar = []) : moreOperands cs = ([], cs) := by
  rw [moreOperands]
  split
  · rfl
  · rename_i r hr
    cases h.symm.trans hr
    rw [ht]

theorem moreOperands_of_token {cs token rest : List Char}
    (h : afterComma? cs = some (token ++ rest)) (ht : Token token) (hr : Stops isTokenChar rest) :
    moreOperands cs = (token :: (moreOperands rest).1, (moreOperands rest).2) := by
  obtain ⟨hne, hall⟩ := ht
  have htake := takeWhile_append_stops hall hr
  have hdrop := dropWhile_append_stops hall hr
  rw [moreOperands]
  split
  · simp_all
  · rename_i r hr'
    cases h.symm.trans hr'
    rw [htake, hdrop]
    cases token with
    | nil => exact absurd rfl hne
    | cons c token => rfl

theorem splitOperands_of_token {s token rest : List Char} (hs : Blanks s) (hne : s ≠ [])
    (ht : Token token) (hr : Stops isTokenChar rest) :
    splitOperands (s ++ (token ++ rest)) =
      (token :: (moreOperands rest).1, (moreOperands rest).2) := by
  have hb : Stops isBlank (token ++ rest) := ht.stops_isBlank rest
  obtain ⟨hn, hall⟩ := ht
  rw [splitOperands, takeWhile_append_stops (blanks_iff.mp hs) hb, skipBlanks_append hs hb]
  cases s with
  | nil => exact absurd rfl hne
  | cons c s =>
      simp only [takeWhile_append_stops hall hr, dropWhile_append_stops hall hr]
      cases token with
      | nil => exact absurd rfl hn
      | cons d token => rfl

theorem splitOperands_of_blanks {e : List Char} (he : Blanks e) : splitOperands e = ([], []) := by
  rw [splitOperands, skipBlanks_eq_nil_iff.mpr he]
  cases h : e.takeWhile isBlank with
  | cons c s => rfl
  | nil =>
      have hc := takeWhile_append_skipBlanks e
      rw [h, skipBlanks_eq_nil_iff.mpr he] at hc
      rw [hc]
      rfl

theorem afterComma?_append {s t cs : List Char} (hs : Blanks s) (ht : Blanks t)
    (hc : Stops isBlank cs) : afterComma? (s ++ ',' :: (t ++ cs)) = some cs := by
  rw [afterComma?, skipBlanks_append hs (stops_cons.mpr (by decide))]
  simp [skipBlanks_append ht hc]

theorem afterComma?_of_blanks {e : List Char} (he : Blanks e) : afterComma? e = none := by
  rw [afterComma?, skipBlanks_eq_nil_iff.mpr he]

theorem moreOperands_append {cs e : List Char} {tokens : List (List Char)}
    (h : MoreText cs tokens) (he : Blanks e) : moreOperands (cs ++ e) = (tokens, e) := by
  induction h with
  | nil => exact moreOperands_of_none (afterComma?_of_blanks he)
  | @cons s t token cs tokens hs ht hk hm ih =>
      have hr : Stops isTokenChar (cs ++ e) := hm.stops he (by decide) (by decide) (by decide)
      have hc := afterComma?_append hs ht (hk.stops_isBlank (cs ++ e))
      have ha : s ++ ',' :: (t ++ (token ++ cs)) ++ e =
          s ++ ',' :: (t ++ (token ++ (cs ++ e))) := by simp
      rw [ha, moreOperands_of_token hc hk hr, ih]

theorem splitOperands_append {cs e : List Char} {tokens : List (List Char)}
    (h : OperandsText cs tokens) (he : Blanks e) :
    ∃ left, splitOperands (cs ++ e) = (tokens, left) ∧ Blanks left := by
  cases h with
  | none => exact ⟨[], splitOperands_of_blanks he, blanks_nil⟩
  | @some s token cs tokens hs hne hk hm =>
      have hr : Stops isTokenChar (cs ++ e) := hm.stops he (by decide) (by decide) (by decide)
      refine ⟨e, ?_, he⟩
      rw [List.append_assoc, List.append_assoc, splitOperands_of_token hs hne hk hr,
        moreOperands_append hm he]

theorem enclosed?_append {inside cs : List Char} (hne : inside ≠ []) (hp : ')' ∉ inside) :
    enclosed? (inside ++ ')' :: cs) = some (inside, cs) := by
  have hall : ∀ c ∈ inside, (c != ')') = true := by
    intro c hc
    rw [bne_iff_ne]
    rintro rfl
    exact hp hc
  have hs : Stops (· != ')') (')' :: cs) := stops_cons.mpr (by decide)
  rw [enclosed?, takeWhile_append_stops hall hs, dropWhile_append_stops hall hs]
  cases inside with
  | nil => exact absurd rfl hne
  | cons c inside => rfl

theorem splitConditional_given {inside s cs : List Char} (hne : inside ≠ []) (hp : ')' ∉ inside)
    (hs : Blanks s) (hc : Stops isBlank cs) :
    splitConditional (conditionalOpening ++ (inside ++ ')' :: s) ++ cs) =
      .ok (some inside, cs) := by
  have ho : conditionalOpening.isPrefixOf? (conditionalOpening ++ (inside ++ ')' :: s) ++ cs) =
      some (inside ++ ')' :: (s ++ cs)) := by
    simp [conditionalOpening, List.isPrefixOf?]
  rw [splitConditional, ho]
  simp only [enclosed?_append hne hp, skipBlanks_append hs hc]

theorem splitConditional_absent {cs : List Char} (h : conditionalOpening.isPrefixOf? cs = none) :
    splitConditional cs = .ok (none, cs) := by
  rw [splitConditional, h]

/-- The letters of a mnemonic are not followed by a parenthesis, so `if` can be a mnemonic but
never opens a conditional by mistake. -/
theorem not_opening {mnemonic cs : List Char} (hm : Letters mnemonic)
    (ha : Stops Char.isAlpha cs) (hp : Stops (· == '(') cs) :
    conditionalOpening.isPrefixOf? (mnemonic ++ cs) = none := by
  cases h : conditionalOpening.isPrefixOf? (mnemonic ++ cs) with
  | none => rfl
  | some rest =>
      have hd := dropWhile_append_stops hm.2 ha
      rw [← List.append_eq_of_isPrefixOf?_eq_some h] at hd
      have hc : cs = '(' :: rest := hd.symm
      rw [hc, stops_cons] at hp
      exact absurd hp (by decide)

theorem Letters.stops_isBlank {mnemonic : List Char} (hm : Letters mnemonic) (cs : List Char) :
    Stops isBlank (mnemonic ++ cs) :=
  stops_of_ne_nil hm.1 fun c hc => not_isBlank_of_class (by decide) (by decide) (hm.2 c hc)

theorem splitConditional_append {front mnemonic cs : List Char} {inside : Option (List Char)}
    (hf : FrontText front inside) (hm : Letters mnemonic) (ha : Stops Char.isAlpha cs)
    (hp : Stops (· == '(') cs) :
    splitConditional (front ++ (mnemonic ++ cs)) = .ok (inside, mnemonic ++ cs) := by
  cases hf with
  | none =>
      rw [List.nil_append]
      exact splitConditional_absent (not_opening hm ha hp)
  | some hne hi hs => exact splitConditional_given hne hi hs (hm.stops_isBlank cs)

/-- A line of the shape, with blanks after it, splits into its parts. -/
theorem ofTrimmed_append {cs e : List Char} {l : Line} (h : LineText cs l) (he : Blanks e) :
    Line.ofTrimmed (cs ++ e) = .ok l := by
  obtain ⟨hf, hm, ho⟩ := h
  rename_i front mnemonic cs inside tokens
  have ha : Stops Char.isAlpha (cs ++ e) := ho.stops he (by decide) (by decide)
  have hp : Stops (· == '(') (cs ++ e) := ho.stops he (by decide) (by decide)
  obtain ⟨left, hl, hbl⟩ := splitOperands_append ho he
  rw [List.append_assoc, List.append_assoc, Line.ofTrimmed, splitConditional_append hf hm ha hp]
  simp only [takeWhile_append_stops hm.2 ha, dropWhile_append_stops hm.2 ha, hl,
    skipBlanks_eq_nil_iff.mpr hbl]
  obtain ⟨hne, -⟩ := hm
  cases mnemonic with
  | nil => exact absurd rfl hne
  | cons c mnemonic => rfl

/-- What follows the letters of a mnemonic without a blank belongs to nothing. -/
theorem ofTrimmed_of_trailing {front mnemonic cs : List Char} {inside : Option (List Char)}
    {c : Char} (hf : FrontText front inside) (hm : Letters mnemonic) (ha : c.isAlpha = false)
    (hp : c ≠ '(') (hb : isBlank c = false) :
    Line.ofTrimmed (front ++ (mnemonic ++ c :: cs)) =
      .error (.trailingInput (String.ofList (c :: cs))) := by
  have ha' : Stops Char.isAlpha (c :: cs) := stops_cons.mpr ha
  have hp' : Stops (· == '(') (c :: cs) := stops_cons.mpr (by simpa using hp)
  have hs : splitOperands (c :: cs) = ([], c :: cs) := by simp [splitOperands, hb]
  have hk : skipBlanks (c :: cs) = c :: cs := skipBlanks_of_stops (stops_cons.mpr hb)
  rw [Line.ofTrimmed, splitConditional_append hf hm ha' hp']
  simp only [takeWhile_append_stops hm.2 ha', dropWhile_append_stops hm.2 ha', hs, hk]
  obtain ⟨hne, -⟩ := hm
  cases mnemonic with
  | nil => exact absurd rfl hne
  | cons d mnemonic => rfl

theorem eq_of_afterComma? {cs rest : List Char} (h : afterComma? cs = some rest) :
    ∃ s t, Blanks s ∧ Blanks t ∧ cs = s ++ ',' :: (t ++ rest) := by
  unfold afterComma? at h
  split at h
  · rename_i r hr
    cases h
    refine ⟨cs.takeWhile isBlank, r.takeWhile isBlank, blanks_takeWhile cs, blanks_takeWhile r, ?_⟩
    rw [← takeWhile_append_skipBlanks r, ← hr]
    exact takeWhile_append_skipBlanks cs
  · cases h

theorem token_takeWhile {cs token : List Char} {c : Char}
    (h : cs.takeWhile isTokenChar = c :: token) :
    Token (c :: token) ∧ cs = c :: token ++ cs.dropWhile isTokenChar := by
  obtain ⟨hall, hcs⟩ := eq_of_takeWhile_eq_cons h
  exact ⟨⟨by simp, hall⟩, hcs⟩

theorem moreText_moreOperands (cs : List Char) :
    ∃ u, cs = u ++ (moreOperands cs).2 ∧ MoreText u (moreOperands cs).1 := by
  induction hn : cs.length using Nat.strongRecOn generalizing cs with
  | _ n ih =>
      cases hc : afterComma? cs with
      | none =>
          rw [moreOperands_of_none hc]
          exact ⟨[], rfl, .nil⟩
      | some rest =>
          cases ht : rest.takeWhile isTokenChar with
          | nil =>
              rw [moreOperands_of_no_token hc ht]
              exact ⟨[], rfl, .nil⟩
          | cons c token =>
              obtain ⟨hk, hr⟩ := token_takeWhile ht
              obtain ⟨s, t, hs, hb, hcs⟩ := eq_of_afterComma? hc
              have hl := length_lt_of_afterComma? hc
              have hd := (rest.dropWhile_suffix isTokenChar).length_le
              obtain ⟨u, hu, hm⟩ := ih _ (by omega) (rest.dropWhile isTokenChar) rfl
              rw [hr] at hc hcs
              rw [moreOperands_of_token hc hk stops_dropWhile]
              refine ⟨s ++ ',' :: (t ++ (c :: token ++ u)), ?_, .cons hs hb hk hm⟩
              calc
                cs = s ++ ',' :: (t ++ (c :: token ++ rest.dropWhile isTokenChar)) := hcs
                _ = s ++ ',' :: (t ++ (c :: token ++
                    (u ++ (moreOperands (rest.dropWhile isTokenChar)).2))) := by rw [← hu]
                _ = s ++ ',' :: (t ++ (c :: token ++ u)) ++
                    (moreOperands (rest.dropWhile isTokenChar)).2 := by simp

/-- Blanks behind the mnemonic with no token after them belong to neither. -/
theorem operandsText_splitOperands (cs : List Char) :
    ∃ u e, cs = u ++ (e ++ (splitOperands cs).2) ∧ Blanks e ∧
      OperandsText u (splitOperands cs).1 := by
  have hcs := takeWhile_append_skipBlanks cs
  cases hb : cs.takeWhile isBlank with
  | nil =>
      refine ⟨[], [], ?_, blanks_nil, ?_⟩ <;> simp [splitOperands, hb, OperandsText.none]
  | cons b s =>
      have hs : Blanks (b :: s) := hb ▸ blanks_takeWhile cs
      rw [hb] at hcs
      cases ht : (skipBlanks cs).takeWhile isTokenChar with
      | nil =>
          refine ⟨[], b :: s, ?_, hs, ?_⟩
          · simpa [splitOperands, hb, ht] using hcs
          · simp [splitOperands, hb, ht, OperandsText.none]
      | cons c token =>
          obtain ⟨hk, hr⟩ := token_takeWhile ht
          obtain ⟨u, hu, hm⟩ := moreText_moreOperands ((skipBlanks cs).dropWhile isTokenChar)
          rw [hr] at hcs
          have hsplit := splitOperands_of_token hs (by simp) hk
            (stops_dropWhile (p := isTokenChar) (b := skipBlanks cs))
          rw [← hcs] at hsplit
          rw [hsplit]
          refine ⟨b :: s ++ (c :: token ++ u), [], ?_, blanks_nil, .some hs (by simp) hk hm⟩
          calc
            cs = b :: s ++ (c :: token ++ (skipBlanks cs).dropWhile isTokenChar) := hcs
            _ = b :: s ++ (c :: token ++
                (u ++ (moreOperands ((skipBlanks cs).dropWhile isTokenChar)).2)) := by rw [← hu]
            _ = _ := by simp

theorem eq_of_enclosed? {cs inside rest : List Char} (h : enclosed? cs = some (inside, rest)) :
    cs = inside ++ ')' :: rest ∧ inside ≠ [] ∧ ')' ∉ inside := by
  unfold enclosed? at h
  split at h
  · rename_i c x d y hx hy
    cases h
    have hd : d = ')' := by
      have hs : Stops (· != ')') (d :: rest) := hy ▸ stops_dropWhile
      simpa using stops_cons.mp hs
    subst hd
    refine ⟨?_, by simp, ?_⟩
    · rw [← hx, ← hy]
      exact List.takeWhile_append_dropWhile.symm
    · intro hm
      rw [← hx] at hm
      exact absurd (List.mem_takeWhile_imp hm) (by decide)
  · cases h

theorem frontText_of_splitConditional {cs rest : List Char} {inside : Option (List Char)}
    (h : splitConditional cs = .ok (inside, rest)) :
    ∃ front, cs = front ++ rest ∧ FrontText front inside := by
  unfold splitConditional at h
  cases ho : conditionalOpening.isPrefixOf? cs with
  | none =>
      simp only [ho, Except.ok.injEq, Prod.mk.injEq] at h
      obtain ⟨rfl, rfl⟩ := h
      exact ⟨[], rfl, .none⟩
  | some after =>
      have hcs := List.append_eq_of_isPrefixOf?_eq_some ho
      simp only [ho] at h
      cases he : enclosed? after with
      | none => simp [he] at h
      | some parts =>
          obtain ⟨x, y⟩ := parts
          simp only [he, Except.ok.injEq, Prod.mk.injEq] at h
          obtain ⟨rfl, rfl⟩ := h
          obtain ⟨ha, hne, hp⟩ := eq_of_enclosed? he
          refine ⟨conditionalOpening ++ (x ++ ')' :: y.takeWhile isBlank), ?_,
            .some hne hp (blanks_takeWhile y)⟩
          calc
            cs = conditionalOpening ++ (x ++ ')' :: y) := by rw [← hcs, ha]
            _ = conditionalOpening ++ (x ++ ')' :: (y.takeWhile isBlank ++ skipBlanks y)) := by
                rw [← takeWhile_append_skipBlanks y]
            _ = _ := by simp

theorem lineText_of_ofTrimmed {cs : List Char} {l : Line} (h : Line.ofTrimmed cs = .ok l) :
    ∃ u e, cs = u ++ e ∧ Blanks e ∧ LineText u l := by
  unfold Line.ofTrimmed at h
  cases hs : splitConditional cs with
  | error e => simp [hs] at h
  | ok parts =>
      obtain ⟨inside, rest⟩ := parts
      simp only [hs] at h
      obtain ⟨front, hcs, hf⟩ := frontText_of_splitConditional hs
      cases hm : rest.takeWhile Char.isAlpha with
      | nil => simp [hm] at h
      | cons c mnemonic =>
          simp only [hm] at h
          obtain ⟨u, e, hu, he, ho⟩ := operandsText_splitOperands (rest.dropWhile Char.isAlpha)
          cases hl : skipBlanks (splitOperands (rest.dropWhile Char.isAlpha)).2 with
          | cons d left => simp [hl] at h
          | nil =>
              simp only [hl, Except.ok.injEq] at h
              subst h
              obtain ⟨hall, hrest⟩ := eq_of_takeWhile_eq_cons hm
              have hw : Letters (c :: mnemonic) := ⟨by simp, hall⟩
              refine ⟨front ++ (c :: mnemonic ++ u),
                e ++ (splitOperands (rest.dropWhile Char.isAlpha)).2, ?_,
                he.append (skipBlanks_eq_nil_iff.mp hl), .intro hf hw ho⟩
              calc
                cs = front ++ (c :: mnemonic ++ rest.dropWhile Char.isAlpha) := by rw [hcs, ← hrest]
                _ = front ++ (c :: mnemonic ++
                    (u ++ (e ++ (splitOperands (rest.dropWhile Char.isAlpha)).2))) := by rw [← hu]
                _ = _ := by simp

/-- A line splits into given parts exactly when it has the shape of those parts, up to blanks at
its end. -/
theorem ofTrimmed_eq_ok_iff {cs : List Char} {l : Line} :
    Line.ofTrimmed cs = .ok l ↔ ∃ u e, cs = u ++ e ∧ Blanks e ∧ LineText u l := by
  constructor
  · exact lineText_of_ofTrimmed
  · rintro ⟨u, e, rfl, he, hl⟩
    exact ofTrimmed_append hl he

/-- What an operand could be: a text that neither a comma nor white space of any kind cuts. -/
def Bare (cs : List Char) : Prop := cs ≠ [] ∧ ∀ c ∈ cs, c ≠ ',' ∧ Text.isWhiteSpace c = false

theorem bare_iff {cs : List Char} :
    Bare cs ↔ cs ≠ [] ∧ cs.all (fun c => c != ',' && !Text.isWhiteSpace c) = true := by
  simp [Bare, List.all_eq_true]

instance (cs : List Char) : Decidable (Bare cs) := decidable_of_iff' _ bare_iff

theorem Bare.token {cs : List Char} (h : Bare cs) : Token cs := by
  refine ⟨h.1, ?_⟩
  intro c hc
  obtain ⟨hcomma, hw⟩ := h.2 c hc
  have hne : ∀ d, Text.isWhiteSpace d = true → c ≠ d := by
    rintro d hd rfl
    rw [hw] at hd
    cases hd
  simp [isTokenChar, hcomma, hne ' ' (by decide), hne '\t' (by decide), hne '\r' (by decide),
    hne '\n' (by decide)]

theorem not_isWhiteSpace_of_isAlpha {c : Char} (h : c.isAlpha = true) :
    Text.isWhiteSpace c = false := by
  have hletter : (65 ≤ c.toNat ∧ c.toNat ≤ 90) ∨ (97 ≤ c.toNat ∧ c.toNat ≤ 122) := by
    have hcase : c.isUpper = true ∨ c.isLower = true := Bool.or_eq_true_iff.mp h
    rcases hcase with hu | hl
    · have hrange : 'A'.val ≤ c.val ∧ c.val ≤ 'Z'.val := of_decide_eq_true hu
      exact .inl hrange
    · have hrange : decide ('a'.val ≤ c.val) = true ∧ decide (c.val ≤ 'z'.val) = true :=
        Bool.and_eq_true_iff.mp hl
      exact .inr ⟨of_decide_eq_true hrange.1, of_decide_eq_true hrange.2⟩
  rw [Bool.eq_false_iff]
  simp only [Text.isWhiteSpace, Text.whiteSpaceRuns, List.any_cons, List.any_nil, Bool.or_false,
    ne_eq, Bool.or_eq_true, Bool.and_eq_true, decide_eq_true_eq]
  omega

theorem stops_reverse_append {p : Char → Bool} (a : List Char) {b : List Char} (hne : b ≠ [])
    (hb : ∀ c ∈ b, p c = false) : Stops p (a ++ b).reverse := by
  rw [List.reverse_append]
  exact stops_of_ne_nil (by simpa using hne) fun c hc => hb c (List.mem_reverse.mp hc)

theorem MoreText.stops_reverse {cs a : List Char} {tokens : List (List Char)}
    (h : MoreText cs tokens) (hb : ∀ t ∈ tokens, Bare t)
    (ha : Stops Text.isWhiteSpace a.reverse) : Stops Text.isWhiteSpace (a ++ cs).reverse := by
  induction h generalizing a with
  | nil => simpa using ha
  | @cons s t token cs tokens _ _ _ _ ih =>
      have htoken := hb token (by simp)
      have hfront := stops_reverse_append (a ++ s ++ ',' :: t) htoken.1
        fun c hc => (htoken.2 c hc).2
      have hrest := ih (fun k hk => hb k (by simp [hk])) hfront
      simpa using hrest

/-- A line of the shape starts with a letter and ends with a letter or an operand, so there is
nothing to be trimmed. -/
theorem LineText.trim {cs : List Char} {l : Line} (h : LineText cs l)
    (hb : ∀ t ∈ l.operands, Bare t) : Text.trim cs = cs := by
  have hnone : WhiteSpace [] := by simp [WhiteSpace]
  obtain ⟨hf, hm, ho⟩ := h
  rename_i front mnemonic rest inside tokens
  have hletters : ∀ c ∈ mnemonic, Text.isWhiteSpace c = false :=
    fun c hc => not_isWhiteSpace_of_isAlpha (hm.2 c hc)
  have hstarts : Stops Text.isWhiteSpace (front ++ (mnemonic ++ rest)) := by
    cases hf with
    | none =>
        rw [List.nil_append]
        exact stops_of_ne_nil hm.1 hletters
    | some =>
        rw [List.append_assoc]
        exact stops_of_ne_nil (by decide) (forall_of_any_eq_false (by decide))
  have hends : Stops Text.isWhiteSpace (front ++ (mnemonic ++ rest)).reverse := by
    rw [← List.append_assoc]
    cases ho with
    | none => simpa using stops_reverse_append front hm.1 hletters
    | @some s token more tokens _ _ _ hmore =>
        have htoken := hb token (by simp)
        have hfront := stops_reverse_append (front ++ mnemonic ++ s) htoken.1
          fun c hc => (htoken.2 c hc).2
        have hrest := hmore.stops_reverse (fun k hk => hb k (by simp [hk])) hfront
        simpa using hrest
  have hne : front ++ (mnemonic ++ rest) ≠ [] := by simp [hm.1]
  simpa using trim_append hnone hnone hstarts hends hne

end KeyIndexMachine.Assembly
