/-
  Foundation/Tasks.lean --- tables of tasks, and busy flags that guard them.

  A program that spawns tasks keeps them in a table: a list to which a fresh
  task is appended and in which one entry is replaced when its task takes a
  step.  A task that is over keeps its entry, so an index names one task for
  good.

  A busy flag guards a table when tasks are spawned only while it is down and
  spawning raises it.  Then at most one task is live, provided the flag goes
  down only together with the end of the live task.
-/
import Mathlib.Data.List.Basic

set_option autoImplicit false

namespace Tasks

variable {τ : Type}

/-! ## Entries -/

/-- An entry of a table in which one task took a step. -/
theorem getElem?_set_cases {tasks : List τ} {i j : Nat} {t u : τ}
    (h : (tasks.set i t)[j]? = some u) :
    (i = j ∧ u = t) ∨ (i ≠ j ∧ tasks[j]? = some u) := by
  rw [List.getElem?_set] at h
  split at h
  · rename_i hij
    split at h
    · exact .inl ⟨hij, (Option.some.inj h).symm⟩
    · cases h
  · rename_i hij
    exact .inr ⟨hij, h⟩

/-- An entry of a table to which a task was added. -/
theorem getElem?_concat_cases {tasks : List τ} {j : Nat} {t u : τ}
    (h : (tasks ++ [t])[j]? = some u) :
    (j = tasks.length ∧ u = t) ∨ tasks[j]? = some u := by
  rw [List.getElem?_append] at h
  split at h
  · exact .inr h
  · rename_i hj
    obtain ⟨hlt, hu⟩ := List.getElem?_eq_some_iff.mp h
    have hlen : j - tasks.length = 0 := by simpa using hlt
    refine .inl ⟨by omega, ?_⟩
    simp [← hu]

/-- Adding a task leaves an entry alone, unless the entry is the new one. -/
theorem getElem?_concat_or (tasks : List τ) (t : τ) (i : Nat) :
    (tasks ++ [t])[i]? = tasks[i]? ∨ (tasks[i]? = none ∧ (tasks ++ [t])[i]? = some t) := by
  by_cases hi : i = tasks.length
  · subst hi
    exact .inr ⟨by simp, by simp⟩
  · refine .inl ?_
    rw [List.getElem?_append]
    split
    · rfl
    · rename_i hge
      rw [List.getElem?_eq_none (by simp; omega), List.getElem?_eq_none (by omega)]

/-- The entry of the task that took the step. -/
theorem getElem?_set_of_some {tasks : List τ} {i : Nat} {t : τ}
    (h : tasks[i]? = some t) (t' : τ) : (tasks.set i t')[i]? = some t' := by
  obtain ⟨hlt, -⟩ := List.getElem?_eq_some_iff.mp h
  exact List.getElem?_set_self hlt

theorem eq_of_getElem?_set {tasks : List τ} {i : Nat} {t t' u : τ}
    (h : tasks[i]? = some t) (hu : (tasks.set i t')[i]? = some u) : u = t' := by
  rw [getElem?_set_of_some h t'] at hu
  exact (Option.some.inj hu).symm

/-! ## Single flight -/

/-- At most one task is live, and none while the flag is down. -/
structure SingleFlight (live : τ → Bool) (busy : Bool) (tasks : List τ) : Prop where
  atMostOne : tasks.countP live ≤ 1
  idle : busy = false → tasks.countP live = 0

namespace SingleFlight

variable {live : τ → Bool} {busy : Bool} {tasks : List τ}

theorem nil (busy : Bool) : SingleFlight live busy [] :=
  ⟨by simp, fun _ => rfl⟩

/-- Raising the flag is harmless. -/
theorem raise {busy' : Bool} (h : SingleFlight live busy tasks)
    (hbusy : busy' = false → busy = false) : SingleFlight live busy' tasks :=
  ⟨h.atMostOne, fun hdown => h.idle (hbusy hdown)⟩

/-- A task is spawned while the flag is down. -/
theorem spawn (h : SingleFlight live false tasks) (t : τ) :
    SingleFlight live true (tasks ++ [t]) := by
  have hidle := h.idle rfl
  refine ⟨?_, fun hup => by cases hup⟩
  rw [List.countP_append, hidle, List.countP_singleton]
  split <;> omega

/-- The number of live tasks after a step of one task. -/
theorem countP_set_of_some (live : τ → Bool) {i : Nat} {t : τ}
    (ht : tasks[i]? = some t) (t' : τ) :
    (tasks.set i t').countP live + (if live t then 1 else 0) =
      tasks.countP live + (if live t' then 1 else 0) := by
  obtain ⟨hlt, rfl⟩ := List.getElem?_eq_some_iff.mp ht
  have hpos : live tasks[i] = true → 0 < tasks.countP live := fun hlive =>
    List.countP_pos_iff.mpr ⟨tasks[i], List.getElem_mem hlt, hlive⟩
  rw [List.countP_set hlt]
  by_cases hlive : live tasks[i] = true
  · have := hpos hlive
    simp only [hlive, if_true]
    omega
  · rw [if_neg hlive]
    omega

/-- A step that revives no task. -/
theorem progress (h : SingleFlight live busy tasks) {i : Nat} {t t' : τ}
    (ht : tasks[i]? = some t) (hlive : live t' = true → live t = true) :
    SingleFlight live busy (tasks.set i t') := by
  have hcount : (tasks.set i t').countP live ≤ tasks.countP live := by
    have := countP_set_of_some live ht t'
    by_cases ht' : live t' = true
    · rw [if_pos ht', if_pos (hlive ht')] at this
      omega
    · rw [if_neg ht'] at this
      omega
  refine ⟨Nat.le_trans hcount h.atMostOne, fun hdown => ?_⟩
  have := h.idle hdown
  omega

/-- The live task ends; the flag may do what it wants. -/
theorem finish (h : SingleFlight live busy tasks) {i : Nat} {t t' : τ}
    (ht : tasks[i]? = some t) (hlive : live t = true) (hover : live t' = false)
    (busy' : Bool) : SingleFlight live busy' (tasks.set i t') := by
  have hcount := countP_set_of_some live ht t'
  rw [if_pos hlive, hover] at hcount
  have := h.atMostOne
  have hzero : (tasks.set i t').countP live = 0 := by simp at hcount; omega
  exact ⟨by omega, fun _ => hzero⟩

/-- A live task keeps the flag up. -/
theorem busy_of_live (h : SingleFlight live busy tasks) {i : Nat} {t : τ}
    (ht : tasks[i]? = some t) (hlive : live t = true) : busy = true := by
  by_contra hdown
  have hidle := h.idle (by simpa using hdown)
  exact List.countP_eq_zero.mp hidle t (List.mem_of_getElem? ht) hlive

end SingleFlight

end Tasks
