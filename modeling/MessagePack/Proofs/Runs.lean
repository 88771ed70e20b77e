import MessagePack.Proofs.Turn
/-
  Runs as what they consist of: the steps of a walk one after the other, until one gives no token. The relation
  keeps nothing in reverse and needs no measure, so it is what an induction over a run goes by.

  What is proved:
    1. `advance_eq`: one turn of a step.
    2. `runs`, `run_of_runs`: the relation holds of the run, and of nothing else.
-/
namespace MessagePack
namespace Walk

theorem advance_eq (w : Walk) (events : List Event) :
    w.advance events = match w.turn with
      | ⟨.error f, w', es⟩ => ⟨.error f, w', events ++ es⟩
      | ⟨.ok (some s), w', es⟩ => ⟨.ok s, w', events ++ es⟩
      | ⟨.ok none, w', es⟩ => w'.advance (events ++ es) := by
  rw [advance]
  split <;> simp_all

theorem advance_of_handed {w : Walk} (h : w.turn.outcome = .ok none) (events : List Event) :
    w.advance events = w.turn.state.advance (events ++ w.turn.events) := by
  have hturn : w.turn = ⟨.ok none, w.turn.state, w.turn.events⟩ := by rw [← h]
  rw [advance_eq, hturn]

theorem advance_of_answer {w : Walk} {s : Step} (h : w.turn.outcome = .ok (some s)) (events : List Event) :
    w.advance events = ⟨.ok s, w.turn.state, events ++ w.turn.events⟩ := by
  have hturn : w.turn = ⟨.ok (some s), w.turn.state, w.turn.events⟩ := by rw [← h]
  rw [advance_eq, hturn]

theorem advance_of_failed {w : Walk} {f : Failure} (h : w.turn.outcome = .error f) (events : List Event) :
    w.advance events = ⟨.error f, w.turn.state, events ++ w.turn.events⟩ := by
  have hturn : w.turn = ⟨.error f, w.turn.state, w.turn.events⟩ := by rw [← h]
  rw [advance_eq, hturn]

/-- A run with what came before it. -/
def Run.behind (run : Run) (tokens : List Token) (events : List Event) : Run :=
  { run with tokens := tokens ++ run.tokens, events := events ++ run.events }

theorem Run.behind_behind (run : Run) (first second : List Token) (es fs : List Event) :
    (run.behind second fs).behind first es = run.behind (first ++ second) (es ++ fs) := by
  simp only [behind, List.append_assoc]

/-- How a run goes: step after step, as long as there are tokens. -/
inductive Runs : Walk → Run → Prop where
  | ends {w w' : Walk} {ending : Except Failure Step} {es : List Event}
      (hstep : w.step = ⟨ending, w', es⟩) (hlast : ∀ t, ending ≠ .ok (.token t)) :
      Runs w ⟨[], ending, w', es⟩
  | goes {w w' : Walk} {t : Token} {es : List Event} {run : Run}
      (hstep : w.step = ⟨.ok (.token t), w', es⟩) (hrest : Runs w' run) :
      Runs w (run.behind [t] es)

theorem Runs.unique {w : Walk} {run run' : Run} (h : Runs w run) (h' : Runs w run') : run = run' := by
  induction h generalizing run' with
  | ends hstep hlast =>
    cases h' with
    | ends hstep' _ =>
      rw [hstep] at hstep'
      cases hstep'
      rfl
    | @goes _ _ t _ _ hstep' _ =>
      rw [hstep] at hstep'
      cases hstep'
      exact absurd rfl (hlast t)
  | @goes _ _ t _ _ hstep _ ih =>
    cases h' with
    | ends hstep' hlast =>
      rw [hstep] at hstep'
      cases hstep'
      exact absurd rfl (hlast t)
    | goes hstep' hrest' =>
      rw [hstep] at hstep'
      cases hstep'
      rw [ih hrest']

/-- What a run from a walk adds to what it was given is a run. -/
theorem exists_runs (w : Walk) (tokens : List Token) (events : List Event) :
    ∃ run, Runs w run ∧ w.runFrom tokens events = run.behind tokens.reverse events.reverse := by
  fun_induction runFrom w tokens events with
  | case1 w tokens events t w' es hstep hless ih =>
    obtain ⟨run, hruns, hrun⟩ := ih
    refine ⟨run.behind [t] es, .goes hstep hruns, ?_⟩
    rw [hrun, Run.behind_behind, List.reverse_cons, List.reverse_append, List.reverse_reverse]
  | case2 w tokens events ending w' es hlast hstep =>
    refine ⟨⟨[], ending, w', es⟩, .ends hstep hlast, ?_⟩
    rw [Run.behind, List.append_nil]

theorem runs (w : Walk) : Runs w w.run := by
  obtain ⟨found, hfound, hrun⟩ := exists_runs w [] []
  have hsame : w.run = found := hrun
  rwa [hsame]

theorem run_of_runs {w : Walk} {run : Run} (h : Runs w run) : w.run = run := (runs w).unique h

end Walk
end MessagePack
