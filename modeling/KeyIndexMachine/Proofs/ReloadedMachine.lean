import KeyIndexMachine.Proofs.LeashBudget

/-!
# A reloaded machine has no past

A machine keeps its configuration, except that a client may turn the trace on and off. Everything
else about it changes as it works, and all of that is made anew by a reload. So a reloaded machine
is the machine that is made from the program under the configuration as it stands by then, and
nothing that a client asks of the two, at once or later, tells them apart: not what the registers
and the memory held, not how much of the leash was used, and not a fault or an abort before.
-/
namespace KeyIndexMachine

variable {ρ σ : Type}

/-- Whether the trace is reported after a request, if `on` tells it before the request. -/
def Request.traceAfter (on : Bool) : Request ρ → Bool
  | .command (.setTrace set) => set
  | _ => on

/-- Whether the trace is reported after a history: as it was last set. -/
def traceAfterAll (on : Bool) (history : List (Request ρ)) : Bool :=
  history.foldl Request.traceAfter on

namespace Machine

variable {m : Machine} {c : Config}

/-- All that is heard of a machine that serves one request after the other: each answer with the
report that comes with it. -/
def heard (m : Machine) : List (Request ρ) → List (Answer (Reply ⊕ ρ) × List Event)
  | [] => []
  | r :: later => ((m.serve r).answer, (m.serve r).log) :: (m.serve r).machine.heard later

theorem MadeUnder.config (h : m.MadeUnder c) : m.config = c := by
  rcases h with ⟨s, rfl⟩ | ⟨code, rfl⟩
  · rfl
  · rfl

theorem config_serve (m : Machine) (r : Request ρ) :
    (m.serve r).machine.config = { m.config with trace := r.traceAfter m.config.trace } := by
  cases r with
  | visit work => rfl
  | command d =>
      cases d with
      | step => exact m.config_step
      | run => exact m.config_run
      | reload code => rfl
      | setTrace on => rfl
      | edit e => rfl

theorem config_serveAll (m : Machine) (history : List (Request ρ)) :
    (m.serveAll history).config =
      { m.config with trace := traceAfterAll m.config.trace history } := by
  induction history generalizing m with
  | nil => rfl
  | cons r history ih =>
      rw [serveAll_cons, ih, config_serve]
      rfl

/-- Of the machine that is reloaded only its configuration is left. -/
theorem reload_eq_ofProgram (m : Machine) (code : List Word) :
    m.reload code = ofProgram code m.config := rfl

/-- A machine that is reloaded after any history is the one that is made from the program under the
configuration that the history leaves, the first one with the trace as it was last set. It runs, has
the whole leash and no steps behind it, and whatever both are asked from then on, they go through
the same states and are heard to say the same. -/
theorem heard_after_reload (h : m.MadeUnder c) (history : List (Request ρ)) (code : List Word) :
    let now : Config := { c with trace := traceAfterAll c.trace history }
    let reloaded := ((m.serveAll history).perform (.reload code)).machine
    (m.serveAll history).config = now ∧
    (m.serveAll history).perform (.reload code) = ⟨ofProgram code now, [], .value .none⟩ ∧
    (reloaded.state = .running ∧ reloaded.leash = now.leash ∧ reloaded.steps = 0) ∧
    ∀ later : List (Request σ),
      reloaded.serveAll later = (ofProgram code now).serveAll later ∧
        reloaded.heard later = (ofProgram code now).heard later := by
  intro now reloaded
  have hc : (m.serveAll history).config = now := by rw [config_serveAll, h.config]
  have hr : reloaded = ofProgram code now := by
    rw [← hc]
    exact reload_eq_ofProgram _ code
  have ht : (m.serveAll history).perform (.reload code) = ⟨reloaded, [], .value .none⟩ := rfl
  rw [ht, hr]
  exact ⟨hc, rfl, ⟨rfl, rfl, rfl⟩, fun later => ⟨rfl, rfl⟩⟩

/-- `mov PX, $0` is cut off with an abort after the trace was turned on and a cell was written. Then
another program is loaded, and it and the cells are looked at as on a new machine. -/
theorem heard_after_reload_of_abort :
    let c : Config := { leash := 1, policy := .abort }
    let m := ofProgram [0x080080FF#64] c
    let history : List (Request Word) := [.command (.setTrace true),
      .visit fun s => (s.store ⟨0xC0DE#64, 5#64⟩ 3#64, s.register .px), .command .run]
    let reloaded := ((m.serveAll history).perform (.reload [0x010087FF#64])).machine
    let later : List (Request Nat) := [.command .run, .visit fun s => (s, s.size)]
    m.MadeUnder c ∧ (m.serveAll history).state = .halted ∧ (m.serveAll history).leash = 0 ∧
    reloaded.heard later = (ofProgram [0x010087FF#64] { c with trace := true }).heard later := by
  intro c m history reloaded later
  have hm : m.MadeUnder c := .inr ⟨_, rfl⟩
  have hr := (heard_after_reload hm history [0x010087FF#64]).2.2.2 later
  have hcourse : Course (m.serveAll (history.take 2)) 1 := by
    refine ⟨?_, by decide⟩
    intro k hk
    cases Nat.lt_one_iff.mp hk
    decide
  refine ⟨hm, hcourse.halted, ?_, hr.2⟩
  exact (congrArg Machine.leash hcourse.run_eq.1).trans (by decide)

end Machine

end KeyIndexMachine
