/-
  Foundation/Run.lean --- labelled transition relations and their finite runs.

  A run is kept together with its history: the list of its transitions, oldest
  first, each with the state before and after it.  A law about "every moment of
  every run" is then a statement about the members of a history, and a law of
  the form "whenever P, something happened earlier" is a relation between a
  history and the state it leads to.

  The rules proved here are the ones a development about a particular system
  uses by name: the invariant rule with access to the history, the same rule
  for runs whose transitions all meet a condition, the cut of a run at one of
  its transitions, precedence of one kind of transition over another, the origin
  of a value a system holds or uses, and the replay of a list of labels by an
  executable step.
-/
import Mathlib.Data.List.Induction

set_option autoImplicit false

namespace Transition

/-- One transition of a run, together with the states around it. -/
structure Edge (σ α : Type) where
  before : σ
  label : α
  after : σ

section Runs

variable {σ α : Type}

/-- `Run step start history s`: the transitions of `history`, oldest first,
lead from `start` to `s`. -/
inductive Run (step : σ → α → σ → Prop) (start : σ) : List (Edge σ α) → σ → Prop
  | nil : Run step start [] start
  | snoc {history : List (Edge σ α)} {s s' : σ} {a : α} :
      Run step start history s → step s a s' →
      Run step start (history ++ [⟨s, a, s'⟩]) s'

variable {step : σ → α → σ → Prop} {start : σ}

/-! ## Invariants -/

/-- The invariant rule with the history in view: what holds at the start and is
kept by every transition out of a reached state holds at the end of every run. -/
theorem Run.history_rule (I : List (Edge σ α) → σ → Prop) (hstart : I [] start)
    (hstep : ∀ history s a s', Run step start history s → I history s →
      step s a s' → I (history ++ [⟨s, a, s'⟩]) s')
    {history : List (Edge σ α)} {s : σ} (run : Run step start history s) :
    I history s := by
  induction run with
  | nil => exact hstart
  | snoc earlier h ih => exact hstep _ _ _ _ earlier ih h

/-- The invariant rule for the runs whose transitions all meet a condition. -/
theorem Run.invariant_under (C : Edge σ α → Prop) (I : σ → Prop) (hstart : I start)
    (hstep : ∀ s a s', I s → step s a s' → C ⟨s, a, s'⟩ → I s')
    {history : List (Edge σ α)} {s : σ} (run : Run step start history s)
    (hC : ∀ e ∈ history, C e) : I s := by
  induction run with
  | nil => exact hstart
  | snoc _ h ih =>
      have hlast := hC _ (List.mem_append_right _ (List.mem_singleton_self _))
      exact hstep _ _ _ (ih fun e he => hC e (List.mem_append_left _ he)) h hlast

/-- The invariant rule. -/
theorem Run.invariant (I : σ → Prop) (hstart : I start)
    (hstep : ∀ s a s', I s → step s a s' → I s')
    {history : List (Edge σ α)} {s : σ} (run : Run step start history s) : I s :=
  run.invariant_under (fun _ => True) I hstart
    (fun s a s' hI h _ => hstep s a s' hI h) (fun _ _ => trivial)

/-! ## Cutting and extending a run -/

/-- A run can be cut at any of its transitions. -/
theorem Run.cut {earlier : List (Edge σ α)} {e : Edge σ α} :
    ∀ {later : List (Edge σ α)} {s : σ}, Run step start (earlier ++ e :: later) s →
      Run step start earlier e.before ∧ step e.before e.label e.after := by
  intro later
  induction later using List.reverseRecOn with
  | nil =>
      intro s run
      generalize hh : earlier ++ [e] = history at run
      cases run with
      | nil => simp at hh
      | snoc before h =>
          obtain ⟨rfl, he⟩ := List.append_inj' hh rfl
          obtain rfl : e = _ := by simpa using he
          exact ⟨before, h⟩
  | append_singleton later last ih =>
      intro s run
      generalize hh : earlier ++ e :: (later ++ [last]) = history at run
      cases run with
      | nil => simp at hh
      | snoc before h =>
          rw [← List.cons_append, ← List.append_assoc] at hh
          obtain ⟨rfl, -⟩ := List.append_inj' hh rfl
          exact ih before

/-- Every transition of a run starts in a state the run reached before it. -/
theorem Run.of_mem {history : List (Edge σ α)} {s : σ} {e : Edge σ α}
    (run : Run step start history s) (he : e ∈ history) :
    ∃ earlier later, history = earlier ++ e :: later ∧
      Run step start earlier e.before ∧ step e.before e.label e.after := by
  obtain ⟨earlier, later, rfl⟩ := List.append_of_mem he
  exact ⟨earlier, later, rfl, run.cut⟩

/-- The run up to and including one of its transitions. -/
theorem Run.upto {history : List (Edge σ α)} {s : σ} {e : Edge σ α}
    (run : Run step start history s) (he : e ∈ history) :
    ∃ upto, Run step start upto e.after ∧ ∀ e' ∈ upto, e' ∈ history := by
  obtain ⟨earlier, later, rfl, before, h⟩ := run.of_mem he
  refine ⟨earlier ++ [e], before.snoc h, ?_⟩
  intro e' he'
  rw [List.append_cons]
  exact List.mem_append_left later he'

/-- The state a run with transitions ends in is the one after the last of them. -/
theorem Run.exists_last {history : List (Edge σ α)} {s : σ} (run : Run step start history s)
    (hne : history ≠ []) : ∃ e ∈ history, e.after = s := by
  cases run with
  | nil => exact absurd rfl hne
  | snoc _ _ => exact ⟨_, List.mem_append_right _ (List.mem_singleton_self _), rfl⟩

/-- A transition in front of a run. -/
theorem Run.cons {s t : σ} {a : α} (h : step start a s) {history : List (Edge σ α)}
    (run : Run step s history t) : Run step start (⟨start, a, s⟩ :: history) t := by
  induction run with
  | nil => exact Run.nil.snoc h
  | snoc _ h' ih => exact ih.snoc h'

/-- A run of some steps is one of all steps. -/
theorem Run.mono {step' : σ → α → σ → Prop} (hstep : ∀ s a s', step s a s' → step' s a s')
    {history : List (Edge σ α)} {s : σ} (run : Run step start history s) :
    Run step' start history s := by
  induction run with
  | nil => exact .nil
  | snoc _ h ih => exact ih.snoc (hstep _ _ _ h)

/-! ## Precedence -/

/-- What happened in a history happened before its last transition, or with it. -/
theorem exists_mem_concat {P : Edge σ α → Prop} {history : List (Edge σ α)} {e : Edge σ α} :
    (∃ b ∈ history ++ [e], P b) ↔ (∃ b ∈ history, P b) ∨ P e := by
  simp only [List.mem_append, List.mem_singleton, or_and_right, exists_or, exists_eq_left]

/-- Every transition of the kind `P` comes after one of the kind `Q`. -/
def Preceded (P Q : Edge σ α → Prop) (history : List (Edge σ α)) : Prop :=
  ∀ earlier e later, history = earlier ++ e :: later → P e → ∃ b ∈ earlier, Q b

theorem Preceded.of_append {P Q : Edge σ α → Prop} {earlier later : List (Edge σ α)}
    (h : Preceded P Q (earlier ++ later)) : Preceded P Q earlier := by
  intro first e rest hsplit hP
  refine h first e (rest ++ later) ?_ hP
  rw [hsplit, List.append_assoc, List.cons_append]

/-- The law up to and including one of the transitions. -/
theorem Preceded.upto {P Q : Edge σ α → Prop} {earlier later : List (Edge σ α)}
    {e : Edge σ α} (h : Preceded P Q (earlier ++ e :: later)) :
    Preceded P Q (earlier ++ [e]) := by
  rw [List.append_cons] at h
  exact h.of_append

theorem Preceded.exists_mem {P Q : Edge σ α → Prop} {history : List (Edge σ α)}
    (h : Preceded P Q history) {e : Edge σ α} (he : e ∈ history) (hP : P e) :
    ∃ b ∈ history, Q b := by
  obtain ⟨earlier, later, rfl⟩ := List.append_of_mem he
  obtain ⟨b, hb, hQ⟩ := h earlier e later rfl hP
  exact ⟨b, List.mem_append_left _ hb, hQ⟩

/-- A history that starts with a `Q` and no `P` so far. -/
theorem Preceded.of_first {P Q : Edge σ α → Prop} {first : List (Edge σ α)}
    (hQ : ∃ b ∈ first, Q b) (hP : ∀ e ∈ first, ¬ P e) (rest : List (Edge σ α)) :
    Preceded P Q (first ++ rest) := by
  intro earlier e later hsplit he
  obtain ⟨b, hb, hQb⟩ := hQ
  rcases List.append_eq_append_iff.mp hsplit with ⟨between, hearlier, -⟩ | ⟨between, hfirst, htail⟩
  · refine ⟨b, ?_, hQb⟩
    rw [hearlier]
    exact List.mem_append_left _ hb
  · cases between with
    | nil =>
        rw [List.append_nil] at hfirst
        exact ⟨b, hfirst ▸ hb, hQb⟩
    | cons e' between =>
        obtain rfl : e = e' := (List.cons.inj htail).1
        exact absurd he (hP e (hfirst ▸ List.mem_append_right _ List.mem_cons_self))

/-! ## Origins -/

section Origins

variable {ν : Type} {Held : σ → ν → Prop} {Brings : Edge σ α → ν → Prop}

/-- The rule for where values come from: when every value held after a transition
was held before it or came with it, every value held after a run came with one of
its transitions. -/
theorem Run.origin (hstart : ∀ v, ¬ Held start v)
    (hstep : ∀ s a s', step s a s' → ∀ v, Held s' v → Held s v ∨ Brings ⟨s, a, s'⟩ v)
    {history : List (Edge σ α)} {s : σ} (run : Run step start history s) {v : ν}
    (hv : Held s v) : ∃ b ∈ history, Brings b v := by
  induction run with
  | nil => exact absurd hv (hstart v)
  | snoc _ h ih =>
      rcases hstep _ _ _ h v hv with hold | hnew
      · exact exists_mem_concat.mpr (.inl (ih hold))
      · exact exists_mem_concat.mpr (.inr hnew)

/-- A value that a transition uses came with it or with an earlier one. -/
theorem Run.origin_of_use {Uses : Edge σ α → ν → Prop} (hstart : ∀ v, ¬ Held start v)
    (hstep : ∀ s a s', step s a s' → ∀ v, Held s' v → Held s v ∨ Brings ⟨s, a, s'⟩ v)
    (huse : ∀ e, step e.before e.label e.after → ∀ v, Uses e v →
      Held e.before v ∨ Brings e v)
    {earlier later : List (Edge σ α)} {e : Edge σ α} {s : σ}
    (run : Run step start (earlier ++ e :: later) s) {v : ν} (hv : Uses e v) :
    ∃ b ∈ earlier ++ [e], Brings b v := by
  obtain ⟨before, h⟩ := run.cut
  rcases huse e h v hv with hheld | hnew
  · exact exists_mem_concat.mpr (.inl (before.origin hstart hstep hheld))
  · exact exists_mem_concat.mpr (.inr hnew)

end Origins

/-! ## Replay -/

/-- The state a list of labels leads to under an executable step. -/
def replay (next : σ → α → Option σ) : σ → List α → Option σ
  | s, [] => some s
  | s, a :: rest => (next s a).bind fun s' => replay next s' rest

/-- A replay with one more label at its end. -/
theorem replay_concat (next : σ → α → Option σ) (labels : List α) (a : α) :
    ∀ s, replay next s (labels ++ [a]) = (replay next s labels).bind fun t => next t a := by
  induction labels with
  | nil =>
      intro s
      cases h : next s a <;> simp [replay, h]
  | cons b rest ih =>
      intro s
      rw [List.cons_append, replay, replay, Option.bind_assoc]
      exact congrArg _ (funext ih)

/-- The label of a transition is among the labels of its history. -/
theorem label_mem {history : List (Edge σ α)} {labels : List α}
    (hlabels : history.map Edge.label = labels) {e : Edge σ α} (he : e ∈ history) :
    e.label ∈ labels := by
  rw [← hlabels]
  exact List.mem_map_of_mem he

/-- A replay is a run with exactly the replayed labels. -/
theorem exists_run_of_replay {next : σ → α → Option σ}
    (hnext : ∀ s a s', next s a = some s' → step s a s') :
    ∀ (labels : List α) {s t : σ}, replay next s labels = some t →
      ∃ history, Run step s history t ∧ history.map Edge.label = labels := by
  intro labels
  induction labels with
  | nil =>
      intro s t h
      obtain rfl : s = t := by simpa [replay] using h
      exact ⟨[], .nil, rfl⟩
  | cons a rest ih =>
      intro s t h
      obtain ⟨s', hs', ht⟩ := Option.bind_eq_some_iff.mp h
      obtain ⟨history, run, hlabels⟩ := ih ht
      exact ⟨⟨s, a, s'⟩ :: history, run.cons (hnext _ _ _ hs'), by simp [hlabels]⟩

/-- What a replay ends in is the end of a run. -/
theorem exists_run_of_replay_map {β : Type} {next : σ → α → Option σ}
    (hnext : ∀ s a s', next s a = some s' → step s a s') (f : σ → β) {labels : List α}
    {s : σ} {b : β} (h : (replay next s labels).map f = some b) :
    ∃ history t, Run step s history t ∧ history.map Edge.label = labels ∧ f t = b := by
  obtain ⟨t, ht, hb⟩ := Option.map_eq_some_iff.mp h
  obtain ⟨history, run, hlabels⟩ := exists_run_of_replay hnext labels ht
  exact ⟨history, t, run, hlabels, hb⟩

/-- The steps that pass a check. -/
def checked (check : σ → α → Bool) (next : σ → α → Option σ) (s : σ) (a : α) : Option σ :=
  if check s a then next s a else none

/-- A step that passes a check. -/
def Passing (step : σ → α → σ → Prop) (check : σ → α → Bool) (s : σ) (a : α) (s' : σ) : Prop :=
  step s a s' ∧ check s a = true

/-- The transitions of a replay whose steps are checked have passed the check. -/
theorem exists_run_of_checked {β : Type} {next : σ → α → Option σ}
    (hnext : ∀ s a s', next s a = some s' → step s a s') (check : σ → α → Bool) (f : σ → β)
    {labels : List α} {s : σ} {b : β}
    (h : (replay (checked check next) s labels).map f = some b) :
    ∃ history t, Run step s history t ∧ history.map Edge.label = labels ∧ f t = b ∧
      ∀ e ∈ history, check e.before e.label = true := by
  have hchecked : ∀ s a s', checked check next s a = some s' → Passing step check s a s' := by
    intro s a s' hs
    obtain ⟨hcheck, hs'⟩ := Option.ite_none_right_eq_some.mp hs
    exact ⟨hnext s a s' hs', hcheck⟩
  obtain ⟨history, t, run, hlabels, hb⟩ := exists_run_of_replay_map
    hchecked f h
  refine ⟨history, t, run.mono fun _ _ _ h => h.1, hlabels, hb, fun e he => ?_⟩
  obtain ⟨_, _, _, _, h⟩ := run.of_mem he
  exact h.2

end Runs

end Transition
