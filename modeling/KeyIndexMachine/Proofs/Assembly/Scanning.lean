import KeyIndexMachine.Assembly.Line
import Mathlib.Data.List.Basic
import Mathlib.Data.List.TakeWhile

/-!
# Scanning a text

Everything that reads a line takes the longest beginning whose characters belong to some class. If
a text is given as a beginning from the class and a rest that starts outside it, then this is what
the scan finds, and what it leaves is the rest. The same is said of blanks, which are skipped, and
of white space, which is trimmed at both ends.
-/
namespace KeyIndexMachine.Assembly

/-- A text that is empty or starts outside the class. -/
def Stops (p : Char → Bool) (cs : List Char) : Prop := ∀ c ∈ cs.head?, p c = false

section
variable {p q : Char → Bool} {a b : List Char} {c : Char}

@[simp] theorem stops_nil : Stops p [] := by simp [Stops]

@[simp] theorem stops_cons : Stops p (c :: b) ↔ p c = false := by simp [Stops]

/-- The rest counts only where the beginning is empty. -/
theorem stops_append (ha : ∀ c ∈ a, p c = false) (hb : Stops p b) : Stops p (a ++ b) := by
  cases a with
  | nil => exact hb
  | cons c a => exact stops_cons.mpr (ha c (by simp))

theorem stops_of_ne_nil (hne : a ≠ []) (ha : ∀ c ∈ a, p c = false) : Stops p (a ++ b) := by
  cases a with
  | nil => exact absurd rfl hne
  | cons c a => exact stops_cons.mpr (ha c (by simp))

theorem forall_of_any_eq_false (h : a.any p = false) : ∀ c ∈ a, p c = false := by
  intro c hc
  simpa using List.any_eq_false.mp h c hc

theorem takeWhile_append_stops (ha : ∀ c ∈ a, p c = true) (hb : Stops p b) :
    (a ++ b).takeWhile p = a := by
  rw [List.takeWhile_append_of_pos ha]
  cases b with
  | nil => simp
  | cons c b => simp [stops_cons.mp hb]

theorem dropWhile_append_stops (ha : ∀ c ∈ a, p c = true) (hb : Stops p b) :
    (a ++ b).dropWhile p = b := by
  rw [List.dropWhile_append_of_pos ha]
  cases b with
  | nil => rfl
  | cons c b => simp [stops_cons.mp hb]

/-- What a scan takes belongs to the class and stands in front of what it leaves. -/
theorem eq_of_takeWhile_eq_cons (h : b.takeWhile p = c :: a) :
    (∀ d ∈ c :: a, p d = true) ∧ b = c :: a ++ b.dropWhile p := by
  rw [← h]
  exact ⟨fun _ hd => List.mem_takeWhile_imp hd, List.takeWhile_append_dropWhile.symm⟩

theorem stops_dropWhile : Stops p (b.dropWhile p) := by
  intro c hc
  have h := List.head?_dropWhile_not p b
  rw [Option.mem_def.mp hc] at h
  simpa using h

end

/-- Spaces and tabs, or nothing. -/
def Blanks (cs : List Char) : Prop := ∀ c ∈ cs, c = ' ' ∨ c = '\t'

theorem isBlank_iff {c : Char} : isBlank c = true ↔ c = ' ' ∨ c = '\t' := by simp [isBlank]

theorem blanks_iff {cs : List Char} : Blanks cs ↔ ∀ c ∈ cs, isBlank c = true := by
  simp only [Blanks, isBlank_iff]

@[simp] theorem blanks_nil : Blanks [] := by simp [Blanks]

theorem blanks_space : Blanks [' '] := by simp [Blanks]

theorem Blanks.append {a b : List Char} (ha : Blanks a) (hb : Blanks b) : Blanks (a ++ b) := by
  intro c hc
  rcases List.mem_append.mp hc with hc | hc
  · exact ha c hc
  · exact hb c hc

/-- No class below has a blank in it, so each of their scans stops at blanks. -/
theorem Blanks.not_mem_class {a : List Char} (ha : Blanks a) {p : Char → Bool}
    (hs : p ' ' = false) (ht : p '\t' = false) : ∀ c ∈ a, p c = false := by
  intro c hc
  rcases ha c hc with rfl | rfl
  · exact hs
  · exact ht

theorem Blanks.not_mem {a : List Char} (ha : Blanks a) {c : Char} (hc : isBlank c = false) :
    c ∉ a := by
  intro hm
  rw [blanks_iff] at ha
  rw [ha c hm] at hc
  cases hc

theorem not_isBlank_of_class {p : Char → Bool} (hs : p ' ' = false) (ht : p '\t' = false)
    {c : Char} (hc : p c = true) : isBlank c = false := by
  rw [Bool.eq_false_iff]
  intro hb
  rcases isBlank_iff.mp hb with rfl | rfl
  · rw [hs] at hc
    cases hc
  · rw [ht] at hc
    cases hc

theorem Blanks.stops {a : List Char} (ha : Blanks a) {p : Char → Bool} (hs : p ' ' = false)
    (ht : p '\t' = false) : Stops p a := by
  cases a with
  | nil => exact stops_nil
  | cons c a => exact stops_cons.mpr (ha.not_mem_class hs ht c (by simp))

theorem blanks_takeWhile (cs : List Char) : Blanks (cs.takeWhile isBlank) :=
  blanks_iff.mpr fun _ hc => List.mem_takeWhile_imp hc

theorem skipBlanks_append {a b : List Char} (ha : Blanks a) (hb : Stops isBlank b) :
    skipBlanks (a ++ b) = b :=
  dropWhile_append_stops (blanks_iff.mp ha) hb

theorem skipBlanks_of_stops {b : List Char} (hb : Stops isBlank b) : skipBlanks b = b :=
  skipBlanks_append blanks_nil hb

theorem takeWhile_append_skipBlanks (cs : List Char) :
    cs = cs.takeWhile isBlank ++ skipBlanks cs := List.takeWhile_append_dropWhile.symm

theorem skipBlanks_eq_nil_iff {cs : List Char} : skipBlanks cs = [] ↔ Blanks cs := by
  rw [blanks_iff]
  exact List.dropWhile_eq_nil_iff

/-- White space in the sense of `Text.isWhiteSpace`, or nothing. -/
def WhiteSpace (cs : List Char) : Prop := ∀ c ∈ cs, Text.isWhiteSpace c = true

theorem Blanks.whiteSpace {a : List Char} (ha : Blanks a) : WhiteSpace a := by
  intro c hc
  rcases ha c hc with rfl | rfl <;> decide

/-- A text with white space around it that neither starts nor ends with white space itself. -/
theorem trim_append {l cs r : List Char} (hl : WhiteSpace l) (hr : WhiteSpace r)
    (hs : Stops Text.isWhiteSpace cs) (he : Stops Text.isWhiteSpace cs.reverse) (hne : cs ≠ []) :
    Text.trim (l ++ (cs ++ r)) = cs := by
  have hf : Stops Text.isWhiteSpace (cs ++ r) := by
    cases cs with
    | nil => exact absurd rfl hne
    | cons c cs => exact hs
  have hb : ∀ c ∈ r.reverse, Text.isWhiteSpace c = true := fun c hc => hr c (List.mem_reverse.mp hc)
  rw [Text.trim, dropWhile_append_stops hl hf, List.reverse_append,
    dropWhile_append_stops hb he, List.reverse_reverse]

/-- Trimming takes white space away at both ends and nothing else. -/
theorem exists_trim (cs : List Char) :
    ∃ l r, cs = l ++ (Text.trim cs ++ r) ∧ WhiteSpace l ∧ WhiteSpace r := by
  refine ⟨cs.takeWhile Text.isWhiteSpace,
    ((cs.dropWhile Text.isWhiteSpace).reverse.takeWhile Text.isWhiteSpace).reverse, ?_, ?_, ?_⟩
  · rw [Text.trim, ← List.reverse_append, List.takeWhile_append_dropWhile, List.reverse_reverse,
      List.takeWhile_append_dropWhile]
  · exact fun _ hc => List.mem_takeWhile_imp hc
  · exact fun _ hc => List.mem_takeWhile_imp (List.mem_reverse.mp hc)

end KeyIndexMachine.Assembly
