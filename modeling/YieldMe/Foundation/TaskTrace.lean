/-
  Foundation/TaskTrace.lean --- the events and the calls of one task of a process.

  A process interleaves the steps of many tasks.  Seen from one of them its
  history is a list of events, each with what is stored when it comes, and the calls
  made in their steps.  The rule proved here is for a law that relates the state of a
  task to these two lists: it is enough that a fresh task has it with nothing done,
  that the steps of a task pass it on, and that all other steps leave the task alone.
  A law of the events alone has a rule of its own.

  The rule holds for runs whose processes may be killed inside a step: a killed
  step ends the process, and the next process has no task of the last one.
-/
import YieldMe.Foundation.Durable

set_option autoImplicit false

namespace Durable

open Transition

section Traces

variable {δ ω κ τ μ α ε σ : Type}

/-- The calls of a step that runs to its end. -/
def Machine.callsAt (M : Machine δ ω κ τ μ α) (e : Edge (State δ μ) (Label α)) : List κ :=
  match e.before.memory, e.label with
  | some m, .act a => ((M.step e.before.stored m a).map (·.calls)).getD []
  | _, _ => []

/-- The event of a task that a label brings, if it brings one. -/
def labelEvent? (event? : α → Option ε) : Label α → Option ε
  | .act a => event? a
  | _ => none

/-- The event of a task that a transition is, if it is one. -/
def taskEvent? (event? : α → Option ε) (e : Edge (State δ μ) (Label α)) : Option ε :=
  labelEvent? event? e.label

theorem taskEvent?_eq_some {event? : α → Option ε} {e : Edge (State δ μ) (Label α)}
    {event : ε} :
    taskEvent? event? e = some event ↔ ∃ a, e.label = .act a ∧ event? a = some event := by
  rw [taskEvent?]
  cases e.label with
  | act a => simp [labelEvent?]
  | terminate | launch | kill _ _ => simp [labelEvent?]

/-- The events of a task, oldest first. -/
def taskEvents (event? : α → Option ε) (process : List (Edge (State δ μ) (Label α))) :
    List ε :=
  process.filterMap (taskEvent? event?)

/-- An event of a task, and what is stored when it comes. -/
structure Observed (δ ε : Type) where
  stored : δ
  event : ε

/-- The events of a task with what is stored when they come, oldest first. -/
def observations (event? : α → Option ε) (process : List (Edge (State δ μ) (Label α))) :
    List (Observed δ ε) :=
  process.filterMap fun e => (taskEvent? event? e).map fun event => ⟨e.before.stored, event⟩

theorem observations_map_event (event? : α → Option ε)
    (process : List (Edge (State δ μ) (Label α))) :
    (observations event? process).map Observed.event = taskEvents event? process := by
  rw [observations, List.map_filterMap, taskEvents]
  congr 1
  funext e
  rw [Option.map_map]
  exact Option.map_id'

/-- The calls made in the steps of a task, oldest first. -/
def Machine.taskCalls (M : Machine δ ω κ τ μ α) (event? : α → Option ε)
    (process : List (Edge (State δ μ) (Label α))) : List κ :=
  (process.filter fun e => (taskEvent? event? e).isSome).flatMap M.callsAt

section Append

variable {M : Machine δ ω κ τ μ α} {event? : α → Option ε} {s s' : State δ μ} {a : α}
  {process : List (Edge (State δ μ) (Label α))}

theorem taskEvents_concat (e : Edge (State δ μ) (Label α)) :
    taskEvents event? (process ++ [e]) =
      taskEvents event? process ++ (taskEvent? event? e).toList := by
  cases h : taskEvent? event? e <;> simp [taskEvents, h]

theorem taskCalls_concat (e : Edge (State δ μ) (Label α)) :
    M.taskCalls event? (process ++ [e]) = M.taskCalls event? process ++
      if (taskEvent? event? e).isSome then M.callsAt e else [] := by
  cases h : taskEvent? event? e <;> simp [Machine.taskCalls, h]

theorem observations_of_none (h : event? a = none) :
    observations event? (process ++ [⟨s, .act a, s'⟩]) = observations event? process := by
  simp [observations, taskEvent?, labelEvent?, h]

theorem observations_of_some {event : ε} (h : event? a = some event) :
    observations event? (process ++ [⟨s, .act a, s'⟩]) =
      observations event? process ++ [⟨s.stored, event⟩] := by
  simp [observations, taskEvent?, labelEvent?, h]

theorem taskCalls_of_none (h : event? a = none) :
    M.taskCalls event? (process ++ [⟨s, .act a, s'⟩]) = M.taskCalls event? process := by
  simp [taskCalls_concat, taskEvent?, labelEvent?, h]

theorem taskCalls_of_some {event : ε} (h : event? a = some event) {m : μ}
    {e : Effect ω κ τ μ} (hm : s.memory = some m) (he : M.step s.stored m a = some e) :
    M.taskCalls event? (process ++ [⟨s, .act a, s'⟩]) =
      M.taskCalls event? process ++ e.calls := by
  simp [taskCalls_concat, Machine.callsAt, taskEvent?, labelEvent?, h, hm, he]

end Append

/-- The state of a task, its events and its calls: a task that is not there yet
has no events and no calls. -/
def Traced (Trace : σ → List ε → List κ → Prop) : Option σ → List ε → List κ → Prop
  | none, events, calls => events = [] ∧ calls = []
  | some t, events, calls => Trace t events calls

/-- The rule for a law of one task, its events with what is stored at each, and its
calls. -/
theorem Machine.observed_trace_rule {M : Machine δ ω κ τ μ α} {start : State δ μ}
    (hstart : start.memory = none) (task? : μ → Option σ) (event? : α → Option ε)
    (Trace : σ → List (Observed δ ε) → List κ → Prop) {fresh : σ} (hfresh : Trace fresh [] [])
    (hboot : ∀ d, task? (M.boot d) = none)
    (hframe : ∀ d m a e m', M.step d m a = some e → e.next = .ok m' → event? a = none →
      task? m' = task? m ∨ (task? m = none ∧ task? m' = some fresh))
    (hmove : ∀ d m a e m' event, M.step d m a = some e → e.next = .ok m' →
      event? a = some event → ∃ t t', task? m = some t ∧ task? m' = some t' ∧
        ∀ events calls, Trace t events calls →
          Trace t' (events ++ [⟨d, event⟩]) (calls ++ e.calls))
    {history : List (Edge (State δ μ) (Label α))} {s : State δ μ}
    (run : Run M.CrashStep start history s) {m : μ} (hm : s.memory = some m) :
    Traced Trace (task? m) (observations event? (currentProcess history))
      (M.taskCalls event? (currentProcess history)) := by
  refine Machine.crash_process_rule (fun process _ m => Traced Trace (task? m)
    (observations event? process) (M.taskCalls event? process)) hstart ?_ ?_ run hm
  · intro d
    rw [hboot]
    exact ⟨rfl, rfl⟩
  · intro process s a s' m e m' hm hbefore he hnext
    cases hevent : event? a with
    | none =>
        rw [observations_of_none hevent, taskCalls_of_none hevent]
        rcases hframe _ _ _ _ _ he hnext hevent with hsame | ⟨hnone, hnew⟩
        · rwa [hsame]
        · rw [hnone] at hbefore
          obtain ⟨hevents, hcalls⟩ := hbefore
          rw [hnew, hevents, hcalls]
          exact hfresh
    | some event =>
        rw [observations_of_some hevent, taskCalls_of_some hevent hm he]
        obtain ⟨t, t', ht, ht', hstep⟩ := hmove _ _ _ _ _ _ he hnext hevent
        rw [ht] at hbefore
        rw [ht']
        exact hstep _ _ hbefore

/-- The rule for a law of one task, its events and its calls. -/
theorem Machine.task_trace_rule {M : Machine δ ω κ τ μ α} {start : State δ μ}
    (hstart : start.memory = none) (task? : μ → Option σ) (event? : α → Option ε)
    (Trace : σ → List ε → List κ → Prop) {fresh : σ} (hfresh : Trace fresh [] [])
    (hboot : ∀ d, task? (M.boot d) = none)
    (hframe : ∀ d m a e m', M.step d m a = some e → e.next = .ok m' → event? a = none →
      task? m' = task? m ∨ (task? m = none ∧ task? m' = some fresh))
    (hmove : ∀ d m a e m' event, M.step d m a = some e → e.next = .ok m' →
      event? a = some event → ∃ t t', task? m = some t ∧ task? m' = some t' ∧
        ∀ events calls, Trace t events calls →
          Trace t' (events ++ [event]) (calls ++ e.calls))
    {history : List (Edge (State δ μ) (Label α))} {s : State δ μ}
    (run : Run M.CrashStep start history s) {m : μ} (hm : s.memory = some m) :
    Traced Trace (task? m) (taskEvents event? (currentProcess history))
      (M.taskCalls event? (currentProcess history)) := by
  have hobserved := Machine.observed_trace_rule hstart task? event?
    (fun t events calls => Trace t (events.map Observed.event) calls) hfresh hboot hframe
    (fun d m a e m' event he hnext hevent => by
      obtain ⟨t, t', ht, ht', hstep⟩ := hmove d m a e m' event he hnext hevent
      refine ⟨t, t', ht, ht', fun events calls htrace => ?_⟩
      rw [List.map_append]
      exact hstep _ _ htrace) run hm
  rw [← observations_map_event]
  cases htask : task? m with
  | none =>
      rw [htask] at hobserved
      obtain ⟨hevents, hcalls⟩ := hobserved
      rw [hevents]
      exact ⟨rfl, hcalls⟩
  | some t =>
      rw [htask] at hobserved
      exact hobserved

end Traces

end Durable
