import KeyIndexMachine.Proofs.Assembly.TokenMeaning
import KeyIndexMachine.Proofs.ListingEnd

/-!
# Listings read back

A line of a listing is cut at its first colon with a blank behind it. In front of the cut stands the
index, behind it the word in eighteen columns, and then the assembly text. Both numbers are
hexadecimal and without a sign. One is as wide as it comes and the other is filled up to a width,
but reading digits asks for no width, so every line gives back its index and its word. Hence a
listing holds all that its walk has seen.
-/
namespace KeyIndexMachine

namespace Listing

open Assembly (Stops hexValue? isBlank skipBlanks)

/-- The number with one more digit behind it. -/
def withDigit (n : Nat) (c : Char) : Option Nat := (hexValue? c).map (16 * n + ·)

/-- The number that hexadecimal digits denote, one of them at least. -/
def number? (cs : List Char) : Option Nat := if cs = [] then none else cs.foldlM withDigit 0

/-- What stands before and behind the first colon that has a blank behind it. -/
def atColon? : List Char → Option (List Char × List Char)
  | [] => none
  | c :: cs =>
      if c = ':' ∧ cs.head? = some ' ' then some ([], cs.tail)
      else (atColon? cs).map fun parts => (c :: parts.1, parts.2)

/-- The number in a column, which blanks may fill up. -/
def column? (cs : List Char) : Option Nat :=
  match skipBlanks cs with
  | '0' :: 'x' :: digits => number? digits
  | _ => none

/-- The index and the word that a line shows. -/
def indexedWord? (line : String) : Option (Word × Word) :=
  match atColon? line.toList with
  | none => none
  | some (front, rest) =>
      match number? (skipBlanks front), column? (rest.take 18) with
      | some index, some word => some (BitVec.ofNat 64 index, BitVec.ofNat 64 word)
      | _, _ => none

def indexedWords? (lines : List String) : Option (List (Word × Word)) := lines.mapM indexedWord?

/-- Eighteen columns with a word in them: sixteen digits, or eight if the high half is zero. -/
def ColumnShows (cs : List Char) (w : Word) : Prop :=
  cs.length = 18 ∧ ∃ digits, number? digits = some w.toNat ∧
    ((w >>> 32 ≠ 0#64 ∧ digits.length = 16 ∧ cs = "0x".toList ++ digits) ∨
      (w >>> 32 = 0#64 ∧ digits.length = 8 ∧
        cs = List.replicate 8 ' ' ++ ("0x".toList ++ digits)))

/-- The index, a colon, the columns of the word, and behind three blanks its assembly text. No digit
is a colon, so this colon is the first one of the line. -/
def LineShows (line : String) (index w : Word) : Prop :=
  ∃ blanks digits column,
    line.toList = List.replicate blanks ' ' ++ digits ++
      (": ".toList ++ (column ++ ("   ".toList ++ w.text.toList))) ∧
    number? digits = some index.toNat ∧ ColumnShows column w

section
variable {cs digits front rest : List Char} {c : Char} {n : Nat} {w index : Word} {line : String}

theorem foldlM_toDigits (n : Nat) : (Nat.toDigits 16 n).foldlM withDigit 0 = some n := by
  induction n using Nat.strongRecOn with
  | _ n ih =>
      rw [Nat.toDigits_eq_if (by decide)]
      split
      · rename_i hn
        simp [withDigit, (Assembly.hexValue?_digitChar n hn).1]
      · rename_i hn
        have hd := (Assembly.hexValue?_digitChar (n % 16) (Nat.mod_lt n (by decide))).1
        rw [List.foldlM_append, ih (n / 16) (by omega)]
        simp [withDigit, hd, Nat.div_add_mod]

theorem foldlM_replicate_zero (k : Nat) : (List.replicate k '0').foldlM withDigit 0 = some 0 := by
  induction k with
  | zero => rfl
  | succ k ih => exact ih

theorem number?_replicate_append (k n : Nat) :
    number? (List.replicate k '0' ++ Nat.toDigits 16 n) = some n := by
  have hne : List.replicate k '0' ++ Nat.toDigits 16 n ≠ [] := by
    simp [Nat.toDigits_ne_nil]
  rw [number?, if_neg hne, List.foldlM_append, foldlM_replicate_zero]
  exact foldlM_toDigits n

theorem number?_hexNat (n : Nat) : number? (hexNat n).toList = some n := by
  rw [toList_hexNat]
  exact number?_replicate_append 0 n

theorem number?_hexNatPadded (width n : Nat) :
    number? (hexNatPadded width n).toList = some n := by
  rw [hexNatPadded, String.toList_ofList, List.leftpad]
  exact number?_replicate_append _ n

theorem isSome_hexValue?_of_foldlM {k : Nat} (h : cs.foldlM withDigit k = some n) :
    ∀ c ∈ cs, (hexValue? c).isSome = true := by
  induction cs generalizing k with
  | nil => simp
  | cons d cs ih =>
      rw [List.foldlM_cons] at h
      obtain ⟨m, hm, hn⟩ := Option.bind_eq_some_iff.mp h
      obtain ⟨v, hv, -⟩ := Option.map_eq_some_iff.mp hm
      intro c hc
      rcases List.mem_cons.mp hc with rfl | hc
      · rw [hv]
        rfl
      · exact ih hn c hc

theorem isSome_hexValue?_of_number? (h : number? cs = some n) :
    ∀ c ∈ cs, (hexValue? c).isSome = true := by
  unfold number? at h
  split at h
  · cases h
  · exact isSome_hexValue?_of_foldlM h

theorem not_mem_of_number? (h : number? cs = some n) (hc : hexValue? c = none) : c ∉ cs := by
  intro hm
  have hs := isSome_hexValue?_of_number? h c hm
  rw [hc] at hs
  cases hs

/-- A number starts with a digit, whatever follows it. -/
theorem stops_append_of_number? (h : number? digits = some n) (rest : List Char) :
    Stops isBlank (digits ++ rest) := by
  have hne : digits ≠ [] := by
    rintro rfl
    cases h
  refine Assembly.stops_of_ne_nil hne ?_
  intro c hc
  have hs := isSome_hexValue?_of_number? h c hc
  cases hb : isBlank c with
  | false => rfl
  | true =>
      rcases Assembly.isBlank_iff.mp hb with rfl | rfl
      · cases hs
      · cases hs

/-- Blanks in front of a number are all that is skipped. -/
theorem skipBlanks_replicate_append (h : number? digits = some n) (k : Nat) (rest : List Char) :
    skipBlanks (List.replicate k ' ' ++ (digits ++ rest)) = digits ++ rest := by
  refine Assembly.dropWhile_append_stops ?_ (stops_append_of_number? h rest)
  intro c hc
  rw [(List.mem_replicate.mp hc).2]
  rfl

theorem atColon?_append (h : ':' ∉ front) :
    atColon? (front ++ (": ".toList ++ rest)) = some (front, rest) := by
  induction front with
  | nil => rfl
  | cons c front ih =>
      have hc : c ≠ ':' := fun he => h (by simp [he])
      have hf : ':' ∉ front := fun hm => h (List.mem_cons_of_mem c hm)
      rw [List.cons_append, atColon?, if_neg (fun he => hc he.1), ih hf]
      rfl

theorem ushiftRight_eq_zero_iff (w : Word) : w >>> 32 = 0#64 ↔ w.toNat < 0x100000000 := by
  rw [← BitVec.toNat_inj, BitVec.toNat_ushiftRight, Nat.shiftRight_eq_div_pow]
  simp only [BitVec.toNat_ofNat]
  omega

theorem columnShows_hexAligned (w : Word) : ColumnShows w.hexAligned.toList w := by
  refine ⟨by rw [String.length_toList, Word.length_hexAligned], ?_⟩
  have h0x : "0x".length = 2 := rfl
  have hlength : ∀ width n, 0 < width → n < 16 ^ width →
      (hexNatPadded width n).toList.length = width := by
    intro width n hw hn
    rw [String.length_toList, Word.length_hexNatPadded hw hn]
  unfold Word.hexAligned
  split
  · rename_i hw
    have hl := hlength 8 w.toNat (by decide) hw
    refine ⟨_, number?_hexNatPadded 8 w.toNat, .inr ⟨(ushiftRight_eq_zero_iff w).mpr hw, hl, ?_⟩⟩
    rw [toList_padLeft, String.toList_append, String.length_append, h0x, ← String.length_toList,
      hl]
  · rename_i hw
    have hl := hlength 16 w.toNat (by decide) w.isLt
    refine ⟨_, number?_hexNatPadded 16 w.toNat, .inl ⟨?_, hl, String.toList_append⟩⟩
    exact mt (ushiftRight_eq_zero_iff w).mp hw

theorem lineShows_listingEntry (index w : Word) :
    LineShows (AddressSpace.listingEntry index w) index w := by
  refine ⟨2 - index.hex.length, index.hex.toList, w.hexAligned.toList, ?_,
    number?_hexNat index.toNat, columnShows_hexAligned w⟩
  rw [AddressSpace.listingEntry, Word.hexColumn, Word.listing]
  simp only [String.toList_append, toList_padLeft, List.append_assoc]

theorem column?_of_columnShows (h : ColumnShows cs w) : column? cs = some w.toNat := by
  obtain ⟨-, digits, hd, ⟨-, -, rfl⟩ | ⟨-, -, rfl⟩⟩ := h
  · exact hd
  · exact hd

/-- Cutting, skipping blanks and reading digits is enough to read a line. -/
theorem indexedWord?_of_lineShows (h : LineShows line index w) :
    indexedWord? line = some (index, w) := by
  obtain ⟨blanks, digits, column, hline, hd, hc⟩ := h
  have hcolon : ':' ∉ List.replicate blanks ' ' ++ digits := by
    intro hm
    rcases List.mem_append.mp hm with hm | hm
    · exact absurd (List.eq_of_mem_replicate hm) (by decide)
    · exact not_mem_of_number? hd rfl hm
  have hskip : skipBlanks (List.replicate blanks ' ' ++ digits) = digits := by
    simpa only [List.append_nil] using skipBlanks_replicate_append hd blanks []
  have htake : (column ++ ("   ".toList ++ w.text.toList)).take 18 = column :=
    List.take_left' hc.1
  simp only [indexedWord?, hline, atColon?_append hcolon, hskip, hd, htake,
    column?_of_columnShows hc, BitVec.ofNat_toNat, BitVec.setWidth_eq]

end

end Listing

namespace AddressSpace

open Listing

variable {s : AddressSpace} {key index : Word} {n : Nat} {lines : List String}

theorem indexedWords?_map_listingEntry (ws : List (Word × Word)) :
    indexedWords? (ws.map fun p => listingEntry p.1 p.2) = some ws := by
  induction ws with
  | nil => rfl
  | cons p ws ih =>
      have hp := indexedWord?_of_lineShows (lineShows_listingEntry p.1 p.2)
      unfold indexedWords? at ih
      rw [indexedWords?, List.map_cons, List.mapM_cons, hp, ih]
      rfl

theorem FirstZero.indexedWords?_listing (h : s.FirstZero key index n)
    (hl : s.listing key index = some lines) :
    indexedWords? lines = some (s.stretch key index n) := by
  rw [AddressSpace.listing, h.wordsFrom, Option.map_some, Option.some.injEq] at hl
  rw [← hl]
  exact indexedWords?_map_listingEntry _

theorem FirstZero.lineShows (h : s.FirstZero key index n)
    (hl : s.listing key index = some lines) {j : Nat} {line : String}
    (hj : lines[j]? = some line) :
    LineShows line (index + BitVec.ofNat 64 j) (s.wordAt key index j) := by
  rw [h.listing, Option.some.injEq] at hl
  rw [← hl, List.getElem?_map] at hj
  obtain ⟨i, hi, rfl⟩ := Option.map_eq_some_iff.mp hj
  obtain ⟨hjn, hij⟩ := List.getElem?_eq_some_iff.mp hi
  rw [List.getElem_range] at hij
  rw [hij]
  exact lineShows_listingEntry _ _

/-- The listing of an area with a zero ahead has a line for each word before the first zero. Each
line shows the index and the word of its place, so that the walk is computed back from the lines,
and another walk with the same lines has gone over the same indices and words. -/
theorem listing_readable (h : ∃ n, s.wordAt key index n = 0#64) :
    ∃ n lines, s.FirstZero key index n ∧ s.listing key index = some lines ∧ lines.length = n ∧
      (∀ j line, lines[j]? = some line →
        LineShows line (index + BitVec.ofNat 64 j) (s.wordAt key index j)) ∧
      indexedWords? lines = some (s.stretch key index n) ∧
      ∀ (t : AddressSpace) (key' index' : Word), t.listing key' index' = some lines →
        t.FirstZero key' index' n ∧ t.stretch key' index' n = s.stretch key index n := by
  obtain ⟨n, hn⟩ := exists_firstZero_iff.mpr h
  refine ⟨n, _, hn, hn.listing, by simp, fun j line hj => hn.lineShows hn.listing hj,
    hn.indexedWords?_listing hn.listing, ?_⟩
  intro t key' index' ht
  obtain ⟨m, hm⟩ := exists_firstZero_iff.mpr (exists_listing_iff.mp ⟨_, ht⟩)
  have he : t.stretch key' index' m = s.stretch key index n :=
    Option.some.inj ((hm.indexedWords?_listing ht).symm.trans (hn.indexedWords?_listing hn.listing))
  have hmn : m = n := by simpa [stretch] using congrArg List.length he
  subst hmn
  exact ⟨hm, he⟩

/-- A walk over the place where the signed indices wrap around, past a negative word and one whose
high half is zero. -/
theorem listing_readable_wrapping :
    let s := (empty.store ⟨5#64, 0x7FFFFFFFFFFFFFFF#64⟩ 0xFFFFFFFFFFFFFFFE#64).store
      ⟨5#64, 0x8000000000000000#64⟩ 0x010081FF#64
    s.wordAt 5#64 0x7FFFFFFFFFFFFFFF#64 2 = 0#64 ∧
    ∃ lines, s.listing 5#64 0x7FFFFFFFFFFFFFFF#64 = some lines ∧ lines.length = 2 ∧
      indexedWords? lines = some [(0x7FFFFFFFFFFFFFFF#64, 0xFFFFFFFFFFFFFFFE#64),
        (0x8000000000000000#64, 0x010081FF#64)] := by
  intro s
  have hz : s.wordAt 5#64 0x7FFFFFFFFFFFFFFF#64 2 = 0#64 := by decide
  obtain ⟨n, lines, hn, hl, hlen, -, he, -⟩ := listing_readable ⟨2, hz⟩
  have hn2 : n = 2 := by
    have h0 : s.wordAt 5#64 0x7FFFFFFFFFFFFFFF#64 0 ≠ 0#64 := by decide
    have h1 : s.wordAt 5#64 0x7FFFFFFFFFFFFFFF#64 1 ≠ 0#64 := by decide
    rcases n with _ | _ | _ | n
    · exact absurd hn.eq_zero h0
    · exact absurd hn.eq_zero h1
    · rfl
    · exact absurd hz (hn.ne_zero 2 (by omega))
  subst hn2
  exact ⟨hz, lines, hl, hlen, he.trans (by decide)⟩

end AddressSpace

end KeyIndexMachine
