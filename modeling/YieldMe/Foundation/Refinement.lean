/-
  Foundation/Refinement.lean --- one durable machine seen through another.

  A machine refines another one along a view of its store when its writes, seen
  through the view, are the writes of the other machine, and when it boots and
  steps by what the view shows.  Then both have the same runs: every run of the
  first is, through the view, a run of the second, and every run of the second
  from what the view shows comes from a run of the first.  Runs may be cut between
  two writes.
-/
import YieldMe.Foundation.Durable

set_option autoImplicit false

namespace Durable

open Transition

section Refinement

variable {δ δ' ω κ τ μ α : Type}

/-- The first machine refines the second one along a view of its store. -/
structure Refines (M : Machine δ ω κ τ μ α) (M' : Machine δ' ω κ τ μ α) (view : δ → δ') :
    Prop where
  write : ∀ d w, view (M.write d w) = M'.write (view d) w
  boot : ∀ d, M.boot d = M'.boot (view d)
  step : ∀ d m a, M.step d m a = M'.step (view d) m a

/-- An installed program through a view of its store. -/
def State.view (view : δ → δ') (s : State δ μ) : State δ' μ := ⟨view s.stored, s.memory⟩

/-- A transition through a view. -/
def viewEdge (view : δ → δ') (e : Edge (State δ μ) (Label α)) :
    Edge (State δ' μ) (Label α) :=
  ⟨e.before.view view, e.label, e.after.view view⟩

namespace Refines

variable {M : Machine δ ω κ τ μ α} {M' : Machine δ' ω κ τ μ α} {view : δ → δ'}

theorem writeAll (h : Refines M M' view) (writes : List ω) :
    ∀ d, view (M.writeAll d writes) = M'.writeAll (view d) writes := by
  induction writes with
  | nil => intro d; rfl
  | cons w writes ih =>
      intro d
      rw [Machine.writeAll_cons, Machine.writeAll_cons, ih, h.write]

/-- A transition of the first machine is one of the second. -/
theorem crashStep (h : Refines M M' view) {s s' : State δ μ} {l : Label α}
    (hstep : M.CrashStep s l s') : M'.CrashStep (s.view view) l (s'.view view) := by
  cases hstep with
  | @kill d m a e k he hk =>
      rw [State.view, State.view, h.writeAll]
      exact .kill (by rw [← h.step]; exact he) hk
  | whole hstep =>
      refine .whole ?_
      cases hstep with
      | @act d m a e he =>
          rw [State.view, State.view, h.writeAll]
          exact .act (by rw [← h.step]; exact he)
      | terminate => exact .terminate
      | launch =>
          rw [State.view, State.view, h.boot]
          exact .launch

/-- A transition of the second machine comes from one of the first. -/
theorem exists_crashStep (h : Refines M M' view) {s : State δ μ} {t : State δ' μ}
    {l : Label α} (hstep : M'.CrashStep (s.view view) l t) :
    ∃ s', M.CrashStep s l s' ∧ s'.view view = t := by
  obtain ⟨d, memory⟩ := s
  generalize hbefore : State.view view ⟨d, memory⟩ = before at hstep
  cases hstep with
  | @kill d' m a e k he hk =>
      obtain ⟨rfl, rfl⟩ := State.mk.inj hbefore
      refine ⟨_, .kill (by rw [h.step]; exact he) hk, ?_⟩
      rw [State.view, h.writeAll]
  | whole hstep =>
      cases hstep with
      | @act d' m a e he =>
          obtain ⟨rfl, rfl⟩ := State.mk.inj hbefore
          refine ⟨_, .whole (.act (by rw [h.step]; exact he)), ?_⟩
          rw [State.view, h.writeAll]
      | terminate =>
          obtain ⟨rfl, rfl⟩ := State.mk.inj hbefore
          exact ⟨_, .whole .terminate, rfl⟩
      | launch =>
          obtain ⟨rfl, rfl⟩ := State.mk.inj hbefore
          refine ⟨_, .whole .launch, ?_⟩
          rw [State.view, h.boot]

/-- Every run of the first machine is, through the view, a run of the second. -/
theorem run (h : Refines M M' view) {start s : State δ μ}
    {history : List (Edge (State δ μ) (Label α))} (run : Run M.CrashStep start history s) :
    Run M'.CrashStep (start.view view) (history.map (viewEdge view)) (s.view view) := by
  induction run with
  | nil => exact .nil
  | snoc _ hstep ih =>
      rw [List.map_append]
      exact ih.snoc (h.crashStep hstep)

/-- Every run of the second machine comes from a run of the first. -/
theorem exists_run (h : Refines M M' view) {start : State δ μ} {t : State δ' μ}
    {history : List (Edge (State δ' μ) (Label α))}
    (run : Run M'.CrashStep (start.view view) history t) :
    ∃ (s : State δ μ) (history₁ : List (Edge (State δ μ) (Label α))),
      Run M.CrashStep start history₁ s ∧ history₁.map (viewEdge view) = history ∧
        s.view view = t := by
  induction run with
  | nil => exact ⟨start, [], .nil, rfl, rfl⟩
  | @snoc history t t' l _ hstep ih =>
      obtain ⟨s, history₁, hrun, rfl, rfl⟩ := ih
      obtain ⟨s', hstep', rfl⟩ := h.exists_crashStep hstep
      exact ⟨s', _, hrun.snoc hstep', by simp [viewEdge], rfl⟩

end Refines

end Refinement

end Durable
