import KeyIndexMachine.Assembly.Error
import Mathlib.Tactic.Tauto

/-!
# The first check that fails

A check is a relation: it holds of the errors that it fails with, and it passes if there are none.
In a list of checks the first one that fails gives the error, and those behind it have no say. A
computation is settled by a list of checks when its errors are exactly the errors found so, and then
it succeeds exactly when all checks pass. Checks in a row settle computations in a row.
-/
namespace KeyIndexMachine.Assembly

/-- The errors a check fails with. It passes if there is none. -/
abbrev Check := AssemblyError → Prop

def Passes (checks : List Check) : Prop := ∀ check ∈ checks, ∀ e, ¬ check e

/-- The error of the first check that fails. -/
inductive FirstFailing : List Check → AssemblyError → Prop
  | here {check : Check} {checks : List Check} {e : AssemblyError} :
      check e → FirstFailing (check :: checks) e
  | later {check : Check} {checks : List Check} {e : AssemblyError} :
      (∀ e', ¬ check e') → FirstFailing checks e → FirstFailing (check :: checks) e

/-- The computation fails exactly with the error of the first check that fails. -/
def Settles {α : Type} (checks : List Check) (x : Except AssemblyError α) : Prop :=
  ∀ e, x = .error e ↔ FirstFailing checks e

section
variable {α β : Type} {check : Check} {checks more : List Check} {e : AssemblyError}

theorem passes_cons : Passes (check :: checks) ↔ (∀ e, ¬ check e) ∧ Passes checks := by
  simp [Passes]

theorem not_firstFailing_nil : ¬ FirstFailing [] e := by
  intro h
  cases h

theorem firstFailing_cons_iff :
    FirstFailing (check :: checks) e ↔
      check e ∨ ((∀ e', ¬ check e') ∧ FirstFailing checks e) := by
  constructor
  · intro h
    cases h with
    | here hc => exact .inl hc
    | later hp h => exact .inr ⟨hp, h⟩
  · rintro (hc | ⟨hp, h⟩)
    · exact .here hc
    · exact .later hp h

theorem firstFailing_append_iff :
    FirstFailing (checks ++ more) e ↔
      FirstFailing checks e ∨ (Passes checks ∧ FirstFailing more e) := by
  induction checks with
  | nil => simp [not_firstFailing_nil, Passes]
  | cons check checks ih =>
      rw [List.cons_append, firstFailing_cons_iff, firstFailing_cons_iff, ih, passes_cons]
      tauto

theorem FirstFailing.exists_check (h : FirstFailing checks e) : ∃ check ∈ checks, check e := by
  induction h with
  | here hc => exact ⟨_, by simp, hc⟩
  | later _ _ ih =>
      obtain ⟨check, hm, hc⟩ := ih
      exact ⟨check, by simp [hm], hc⟩

theorem passes_iff : Passes checks ↔ ∀ e, ¬ FirstFailing checks e := by
  constructor
  · intro hp e h
    obtain ⟨check, hm, hc⟩ := h.exists_check
    exact hp check hm e hc
  · intro h
    induction checks with
    | nil => simp [Passes]
    | cons check checks ih =>
        have hc : ∀ e, ¬ check e := fun e hc => h e (.here hc)
        exact passes_cons.mpr ⟨hc, ih fun e hf => h e (.later hc hf)⟩

theorem settles_ok (a : α) : Settles [] (.ok a : Except AssemblyError α) := by
  intro e
  simp [not_firstFailing_nil]

theorem settles_one {x : Except AssemblyError α} (h : ∀ e, x = .error e ↔ check e) :
    Settles [check] x := by
  intro e
  rw [h, firstFailing_cons_iff]
  simp [not_firstFailing_nil]

theorem Settles.passes_iff {x : Except AssemblyError α} (h : Settles checks x) :
    Passes checks ↔ ∃ a, x = .ok a := by
  simp only [Assembly.passes_iff, ← h _]
  cases x <;> simp

/-- What holds of every error that a check fails with holds of every error of the computation. -/
theorem Settles.forall_error {x : Except AssemblyError α} (h : Settles checks x)
    {P : AssemblyError → Prop} (hp : ∀ check ∈ checks, ∀ e, check e → P e) :
    ∀ e, x = .error e → P e := by
  intro e he
  obtain ⟨check, hm, hc⟩ := ((h e).mp he).exists_check
  exact hp check hm e hc

/-- What comes after the first computation is checked only if that one succeeds. -/
theorem Settles.bind {x : Except AssemblyError α} {f : α → Except AssemblyError β}
    (hx : Settles checks x) (hf : ∀ a, x = .ok a → Settles more (f a)) :
    Settles (checks ++ more) (x >>= f) := by
  intro e
  rw [firstFailing_append_iff, hx.passes_iff, ← hx e]
  cases x with
  | error e' => simp [Bind.bind, Except.bind]
  | ok a => simpa [Bind.bind, Except.bind] using hf a rfl e

end

end KeyIndexMachine.Assembly
