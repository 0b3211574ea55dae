import KeyIndexMachine.Assembly.Program
import KeyIndexMachine.Proofs.Assembly.TokenText

/-!
# What tokens mean

The reading of an operand and of the text of a conditional, each settled in both directions against
the grammar. The two names and the operator of a conditional are first separated whatever they
mean; only then are they looked up. An operand is the name of a register before all else, and if it
is none, then how it starts decides how the rest is read.
-/
namespace KeyIndexMachine.Assembly

/-- The text of a conditional whose names and operator may mean nothing. -/
inductive PartsText : List Char → List Char → List Char → List Char → Prop
  | intro {s a t symbol u b v : List Char} :
      Blanks s → Name a → Blanks t → Operator symbol → Blanks u → Name b → Blanks v →
      PartsText (s ++ (a ++ (t ++ (symbol ++ (u ++ (b ++ v)))))) a symbol b

theorem conditionParts?_eq_some_iff {cs a symbol b : List Char} :
    conditionParts? cs = some (a, symbol, b) ↔ PartsText cs a symbol b := by
  constructor
  · intro h
    unfold conditionParts? at h
    split at h
    · cases h
    · rename_i x afterA ha
      split at h
      · cases h
      · rename_i y afterSymbol hy
        split at h
        · rename_i z hz
          cases h
          obtain ⟨s, t, rfl, hs, hna, ht⟩ := eq_of_paddedName? ha
          obtain ⟨rfl, hop⟩ := eq_of_comparisonText? hy
          obtain ⟨u, v, rfl, hu, hnb, hv⟩ := eq_of_paddedName? hz
          rw [List.append_nil]
          exact .intro hs hna ht hop hu hnb hv
        · cases h
  · rintro ⟨hs, hna, ht, hop, hu, hnb, hv⟩
    rename_i s t u v
    have hb : paddedName? (u ++ (b ++ v)) = some (b, []) := by
      have h := paddedName?_append hu hnb hv (stops_nil (p := isBlank)) stops_nil
      rwa [List.append_nil] at h
    have hc : Stops isComparisonChar (u ++ (b ++ v)) :=
      stops_append (hu.not_mem_class (by decide) (by decide))
        (stops_of_ne_nil hnb.1 fun c hc => not_isComparisonChar_of_isNameChar (hnb.2 c hc))
    have ha := paddedName?_append hs hna ht
      (hop.stops (u ++ (b ++ v)) (by decide)) (hop.stops (u ++ (b ++ v)) (by decide))
    rw [conditionParts?, ha]
    simp only [comparisonText?_append hop hc, hb]

theorem ComparisonText.operator {symbol : List Char} {c : Comparison}
    (h : ComparisonText symbol c) : Operator symbol := by
  cases h with
  | reserved n hd => exact .inl ⟨_, isHexDigit_iff.mpr ⟨_, hd⟩, rfl⟩
  | _ => exact .inr ⟨by simp, List.all_eq_true.mp (by decide)⟩

theorem ComparisonText.symbol_eq {symbol : List Char} {c : Comparison}
    (h : ComparisonText symbol c) :
    c.symbol = String.ofList (symbol.map Char.toLower) := by
  cases h with
  | reserved n hd =>
      rw [Comparison.symbol, hexNat_of_lt hd.1, eq_ofList_iff, String.toList_append,
        String.toList_ofList]
      simp [hd.toLower]
  | _ => decide

theorem comparisonText_of_symbol_eq {symbol : List Char} {c : Comparison} (ho : Operator symbol)
    (h : c.symbol = String.ofList (symbol.map Char.toLower)) : ComparisonText symbol c := by
  rw [eq_ofList_iff] at h
  rcases ho with ⟨d, hd, rfl⟩ | ⟨hne, hall⟩
  · obtain ⟨m, hm⟩ := isHexDigit_iff.mp hd
    simp only [List.map_cons, List.map_nil, hm.toLower] at h
    cases c with
    | reserved n =>
        have hn : n.val + 3 < 16 := by omega
        rw [Comparison.symbol, hexNat_of_lt hn, String.toList_append, String.toList_ofList] at h
        have he : n.val + 3 = m := digitChar_injective _ hn _ hm.1 (by simpa using h)
        exact .reserved n (he ▸ hm)
    | _ => simp [Comparison.symbol] at h
  · have hl : symbol.map Char.toLower = symbol := by
      have hid : ∀ c ∈ symbol, c.toLower = id c := by
        intro c hc
        rcases isComparisonChar_iff.mp (hall c hc) with rfl | rfl | rfl | rfl <;> decide
      rw [List.map_congr_left hid, List.map_id]
    rw [hl] at h
    subst h
    cases c with
    | always => exact absurd rfl hne
    | reserved n => exact absurd (hall '?' (by simp [Comparison.symbol])) (by decide)
    | less => exact .less
    | lessEqual => exact .lessEqual
    | equal => exact .equal
    | notEqual => exact .notEqual

theorem condition_eq_ok_iff {text : List Char} {c : Condition} :
    condition text = .ok c ↔ ∃ symbol,
      PartsText text c.a.name.toList symbol c.b.name.toList ∧
        c.comparison.symbol = String.ofList (symbol.map Char.toLower) := by
  constructor
  · intro h
    unfold condition at h
    split at h
    · cases h
    · rename_i a symbol b hp
      split at h
      · cases h
      · rename_i m hm
        split at h
        · cases h
        · cases h
        · rename_i ra rb ha hb
          cases h
          have ha' := eq_ofList_iff.mp (register_eq_ok_iff.mp ha)
          have hb' := eq_ofList_iff.mp (register_eq_ok_iff.mp hb)
          subst ha' hb'
          exact ⟨symbol, conditionParts?_eq_some_iff.mp hp, Comparison.ofSymbol?_eq_some_iff.mp hm⟩
  · rintro ⟨symbol, hp, hs⟩
    have hr : ∀ r : Register, register r.name.toList = .ok r := fun r =>
      register_eq_ok_iff.mpr (eq_ofList_iff.mpr rfl)
    rw [condition, conditionParts?_eq_some_iff.mpr hp]
    simp only [Comparison.ofSymbol?_eq_some_iff.mpr hs, hr]

/-- The text of a conditional is read exactly as the grammar has it. -/
theorem condition_eq_ok_iff_conditionText {text : List Char} {c : Condition} :
    condition text = .ok c ↔ ConditionText text c := by
  rw [condition_eq_ok_iff]
  constructor
  · rintro ⟨symbol, hp, he⟩
    generalize ha : c.a.name.toList = a at hp
    generalize hb : c.b.name.toList = b at hp
    obtain ⟨hs, -, ht, ho, hu, -, hv⟩ := hp
    subst ha hb
    have h := ConditionText.intro c.a c.b hs ht hu hv (comparisonText_of_symbol_eq ho he)
    simpa only [List.append_assoc] using h
  · rintro ⟨a, b, hs, ht, hu, hv, hc⟩
    refine ⟨_, ?_, hc.symbol_eq⟩
    simp only [List.append_assoc]
    exact .intro hs (name_register a) ht hc.operator hu (name_register b) hv

theorem register_eq_ok_iff_toList {name : List Char} {r : Register} :
    register name = .ok r ↔ name = r.name.toList := by
  rw [register_eq_ok_iff, eq_ofList_iff, eq_comm]

theorem keyRegister_eq_ok_iff {name token : List Char} {r : Register} :
    keyRegister name token = .ok r ↔ name = r.name.toList ∧ r ≠ .zero ∧ r ≠ .px := by
  rw [← register_eq_ok_iff_toList, keyRegister]
  cases register name with
  | error e => simp
  | ok s =>
      simp only [Except.ok.injEq]
      split
      · rename_i hs
        constructor
        · intro h
          cases h
        · rintro ⟨rfl, hz, hp⟩
          exact absurd hs (by simp [hz, hp])
      · rename_i hs
        simp only [not_or] at hs
        constructor
        · intro h
          cases h
          exact ⟨rfl, hs⟩
        · rintro ⟨rfl, -⟩
          rfl

theorem bracketedNames?_eq_some_iff {cs key index : List Char} :
    bracketedNames? cs = some (key, index) ↔
      Name key ∧ Name index ∧ cs = '[' :: (key ++ '/' :: (index ++ [']'])) := by
  constructor
  · intro h
    unfold bracketedNames? at h
    split at h
    · rename_i body
      split at h
      · rename_i ds hd
        simp only [Option.ite_none_right_eq_some, Option.some.injEq, Prod.mk.injEq] at h
        obtain ⟨⟨hk, hx, he⟩, rfl, rfl⟩ := h
        refine ⟨⟨hk, fun c hc => List.mem_takeWhile_imp hc⟩,
          ⟨hx, fun c hc => List.mem_takeWhile_imp hc⟩, ?_⟩
        rw [← he, List.takeWhile_append_dropWhile, ← hd, List.takeWhile_append_dropWhile]
      · cases h
    · cases h
  · rintro ⟨⟨hk, hka⟩, ⟨hx, hxa⟩, rfl⟩
    have hs : Stops isNameChar ('/' :: (index ++ [']'])) := stops_cons.mpr (by decide)
    have he : Stops isNameChar [']'] := stops_cons.mpr (by decide)
    simp only [bracketedNames?, dropWhile_append_stops hka hs, takeWhile_append_stops hka hs,
      dropWhile_append_stops hxa he, takeWhile_append_stops hxa he]
    simp [hk, hx]

theorem constant_eq_ok_iff {digits token : List Char} {o : Operand} :
    constant digits token = .ok o ↔
      ∃ d n, digits = [d] ∧ HexDigit d n ∧ o = .constant (BitVec.ofNat 8 n) := by
  constructor
  · intro h
    unfold constant at h
    split at h
    · rename_i hd
      split at h
      · rename_i value hv
        cases h
        have hall : ∀ d ∈ digits, isHexDigit d = true := List.all_eq_true.mp hd.2
        cases digits with
        | nil => exact absurd rfl hd.1
        | cons d rest =>
            obtain ⟨n, hn⟩ := isHexDigit_iff.mp (hall d (by simp))
            rw [List.filterMap_cons_some (hexValue?_eq_some_iff.mpr hn), List.cons.injEq] at hv
            cases rest with
            | nil => exact ⟨d, n, rfl, hn, by rw [hv.1]⟩
            | cons e rest =>
                obtain ⟨m, hm⟩ := isHexDigit_iff.mp (hall e (by simp))
                rw [List.filterMap_cons_some (hexValue?_eq_some_iff.mpr hm)] at hv
                cases hv.2
      · cases h
    · cases h
  · rintro ⟨d, n, rfl, hd, rfl⟩
    have hv := hexValue?_eq_some_iff.mpr hd
    simp [constant, isHexDigit, hv]

theorem indirect_eq_ok_iff {names token : List Char} {o : Operand} :
    indirect names token = .ok o ↔ ∃ k x : Register, k ≠ .zero ∧ k ≠ .px ∧
      names = '[' :: (k.name.toList ++ '/' :: (x.name.toList ++ [']'])) ∧ o = .indirect k x := by
  constructor
  · intro h
    unfold indirect at h
    split at h
    · cases h
    · rename_i key index hp
      split at h
      · cases h
      · rename_i k hk
        split at h
        · cases h
        · rename_i x hx
          cases h
          obtain ⟨rfl, hz, hpx⟩ := keyRegister_eq_ok_iff.mp hk
          have hx' := register_eq_ok_iff_toList.mp hx
          subst hx'
          exact ⟨k, x, hz, hpx, (bracketedNames?_eq_some_iff.mp hp).2.2, rfl⟩
  · rintro ⟨k, x, hz, hpx, rfl, rfl⟩
    have hp := bracketedNames?_eq_some_iff.mpr ⟨name_register k, name_register x, rfl⟩
    have hk : keyRegister k.name.toList token = .ok k :=
      keyRegister_eq_ok_iff.mpr ⟨rfl, hz, hpx⟩
    rw [indirect, hp]
    simp only [hk, register_eq_ok_iff_toList.mpr rfl]

theorem length_name (r : Register) : r.name.toList.length = 2 := by cases r <;> decide

theorem indirect_text (k x : Register) :
    "hashtable[".toList ++ k.name.toList ++ "/".toList ++ x.name.toList ++ "]".toList =
      cellWord ++ '[' :: (k.name.toList ++ '/' :: (x.name.toList ++ [']'])) := by
  simp [cellWord]

theorem ofName?_eq_none_iff {name : List Char} :
    Register.ofName? (String.ofList name) = none ↔ ∀ r : Register, name ≠ r.name.toList := by
  simp only [Option.eq_none_iff_forall_ne_some, ne_eq, Register.ofName?_eq_some_iff, eq_ofList_iff,
    @eq_comm _ name]

theorem operand_of_name (r : Register) : operand r.name.toList = .ok (.register r) := by
  have hr : Register.ofName? (String.ofList r.name.toList) = some r := by
    rw [Register.ofName?_eq_some_iff, String.ofList_toList]
  rw [operand, hr]

theorem operand_of_dollar {digits : List Char} (h : digits ≠ ['0']) :
    operand ('$' :: digits) = constant digits ('$' :: digits) := by
  have hr : Register.ofName? (String.ofList ('$' :: digits)) = none := by
    rw [ofName?_eq_none_iff]
    intro r hr
    cases r <;> simp [Register.name] at hr
    exact h hr
  rw [operand, hr]
  rfl

theorem operand_of_cellWord (rest : List Char) :
    operand (cellWord ++ rest) = indirect rest (cellWord ++ rest) := by
  have hr : Register.ofName? (String.ofList (cellWord ++ rest)) = none := by
    rw [ofName?_eq_none_iff]
    intro r hr
    have hl := length_name r
    rw [← hr] at hl
    simp [cellWord] at hl
  rw [operand, hr]
  rfl

theorem operand_of_other {token : List Char} (hd : ∀ digits, token ≠ '$' :: digits)
    (hc : ∀ rest, token ≠ cellWord ++ rest) (hr : ∀ r : Register, token ≠ r.name.toList) :
    operand token =
      if token.all isNameChar then .error (.unknownRegister (String.ofList token))
      else .error (.malformedOperand (String.ofList token)) := by
  have hdollar : ['$'].isPrefixOf? token = none := by
    rw [Option.eq_none_iff_forall_ne_some]
    intro digits h
    exact hd digits (List.append_eq_of_isPrefixOf?_eq_some h).symm
  have hcell : cellWord.isPrefixOf? token = none := by
    rw [Option.eq_none_iff_forall_ne_some]
    intro rest h
    exact hc rest (List.append_eq_of_isPrefixOf?_eq_some h).symm
  rw [operand, ofName?_eq_none_iff.mpr hr, hdollar, hcell]

/-- An operand is read exactly as the grammar has it. -/
theorem operand_eq_ok_iff {token : List Char} {o : Operand} :
    operand token = .ok o ↔ OperandText token o := by
  constructor
  · intro h
    by_cases hr : ∃ r : Register, token = r.name.toList
    · obtain ⟨r, rfl⟩ := hr
      rw [operand_of_name] at h
      cases h
      exact .register r
    have hr : ∀ r : Register, token ≠ r.name.toList := not_exists.mp hr
    by_cases hd : ∃ digits, token = '$' :: digits
    · obtain ⟨digits, rfl⟩ := hd
      have hz : digits ≠ ['0'] := by
        rintro rfl
        exact hr .zero rfl
      rw [operand_of_dollar hz] at h
      obtain ⟨d, n, rfl, hn, rfl⟩ := constant_eq_ok_iff.mp h
      refine .constant hn ?_
      rintro rfl
      obtain ⟨-, rfl | rfl⟩ := hn <;> exact hz rfl
    by_cases hc : ∃ names, token = cellWord ++ names
    · obtain ⟨names, rfl⟩ := hc
      rw [operand_of_cellWord] at h
      obtain ⟨k, x, hz, hp, rfl, rfl⟩ := indirect_eq_ok_iff.mp h
      rw [← indirect_text]
      exact .indirect x hz hp
    · rw [operand_of_other (not_exists.mp hd) (not_exists.mp hc) hr] at h
      split at h <;> cases h
  · intro h
    cases h with
    | register r => exact operand_of_name r
    | @constant d n hd hn =>
        have hz : [d] ≠ ['0'] := by
          intro he
          cases he
          exact hn (Option.some.inj (hexValue?_eq_some_iff.mpr hd)).symm
        rw [operand_of_dollar hz]
        exact constant_eq_ok_iff.mpr ⟨d, n, rfl, hd, rfl⟩
    | @indirect k x hz hp =>
        rw [indirect_text, operand_of_cellWord]
        exact indirect_eq_ok_iff.mpr ⟨k, x, hz, hp, rfl, rfl⟩

theorem not_isConstant_iff {o : Operand} : o.isConstant = false ↔ ∀ v, o ≠ .constant v := by
  cases o <;> simp [Operand.isConstant]

theorem destination_eq_ok_iff {token : List Char} {o : Operand} :
    destination token = .ok o ↔ DestinationText token o := by
  rw [DestinationText, ← operand_eq_ok_iff, ← not_isConstant_iff, destination]
  cases operand token with
  | error e => simp
  | ok d =>
      cases hd : d.isConstant with
      | true =>
          constructor
          · intro h
            simp [hd] at h
          · rintro ⟨h, hc⟩
            cases h
            rw [hd] at hc
            cases hc
      | false =>
          constructor
          · intro h
            have he : d = o := by simpa [hd] using h
            exact ⟨congrArg _ he, he ▸ hd⟩
          · rintro ⟨h, -⟩
            simpa [hd] using h

end KeyIndexMachine.Assembly
