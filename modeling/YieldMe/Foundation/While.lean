/-
  Foundation/While.lean --- loops that compute, with their rules.

  `whileDo` is a loop whose body always returns, `whileTry` one whose body may
  stop the process.  Both take a bound on the number of rounds.  Their rules are
  those of total correctness: an invariant that every round keeps, and a variant
  that every round makes smaller.  A variant within the bound at the start means
  that the loop is left by its guard.

  Loops over a range of indices are folds over `List.range`: `foldl` counts up and
  `foldr` counts down.  The invariant of such a loop also speaks of the index.
-/
import Mathlib.Data.List.Basic

set_option autoImplicit false

namespace Loop

variable {σ : Type}

/-! ## Guarded loops -/

/-- `while guard { body }`, for at most the given number of rounds. -/
def whileDo (guard : σ → Bool) (body : σ → σ) : Nat → σ → σ
  | 0, s => s
  | rounds + 1, s => if guard s then whileDo guard body rounds (body s) else s

/-- `while guard { body }` whose body may stop the process: no result if it does,
or if the rounds do not suffice. -/
def whileTry (guard : σ → Bool) (body : σ → Option σ) : Nat → σ → Option σ
  | 0, s => if guard s then none else some s
  | rounds + 1, s => if guard s then (body s).bind (whileTry guard body rounds) else some s

section Rules

variable {g : σ → Bool} (I : σ → Prop) (variant : σ → Nat)

theorem whileDo_rule {f : σ → σ}
    (hbody : ∀ s, I s → g s = true → I (f s) ∧ variant (f s) < variant s) :
    ∀ (rounds : Nat) (s : σ), I s → variant s ≤ rounds →
      I (whileDo g f rounds s) ∧ g (whileDo g f rounds s) = false := by
  intro rounds
  induction rounds with
  | zero =>
      intro s hI hvariant
      refine ⟨hI, ?_⟩
      rw [whileDo]
      cases hguard : g s with
      | false => rfl
      | true =>
          have hless := (hbody s hI hguard).2
          omega
  | succ rounds ih =>
      intro s hI hvariant
      rw [whileDo]
      cases hguard : g s with
      | false => exact ⟨hI, hguard⟩
      | true =>
          obtain ⟨hI', hless⟩ := hbody s hI hguard
          exact ih (f s) hI' (by omega)

theorem whileTry_rule {f : σ → Option σ}
    (hbody : ∀ s, I s → g s = true →
      ∃ s', f s = some s' ∧ I s' ∧ variant s' < variant s) :
    ∀ (rounds : Nat) (s : σ), I s → variant s ≤ rounds →
      ∃ s', whileTry g f rounds s = some s' ∧ I s' ∧ g s' = false := by
  intro rounds
  induction rounds with
  | zero =>
      intro s hI hvariant
      rw [whileTry]
      cases hguard : g s with
      | false => exact ⟨s, rfl, hI, hguard⟩
      | true =>
          obtain ⟨s', -, -, hless⟩ := hbody s hI hguard
          omega
  | succ rounds ih =>
      intro s hI hvariant
      rw [whileTry]
      cases hguard : g s with
      | false => exact ⟨s, rfl, hI, hguard⟩
      | true =>
          obtain ⟨s', hs', hI', hless⟩ := hbody s hI hguard
          rw [if_pos rfl, hs', Option.bind_some]
          exact ih s' hI' (by omega)

/-- A loop that returns has left by its guard. -/
theorem whileTry_guard {g : σ → Bool} {f : σ → Option σ} :
    ∀ {rounds : Nat} {s s' : σ}, whileTry g f rounds s = some s' → g s' = false := by
  intro rounds
  induction rounds with
  | zero =>
      intro s s' h
      rw [whileTry] at h
      cases hguard : g s with
      | true =>
          rw [hguard, if_pos rfl] at h
          cases h
      | false =>
          rw [hguard, if_neg Bool.false_ne_true] at h
          rw [← Option.some.inj h, hguard]
  | succ rounds ih =>
      intro s s' h
      rw [whileTry] at h
      cases hguard : g s with
      | true =>
          rw [hguard, if_pos rfl] at h
          obtain ⟨s'', -, h'⟩ := Option.bind_eq_some_iff.mp h
          exact ih h'
      | false =>
          rw [hguard, if_neg Bool.false_ne_true] at h
          rw [← Option.some.inj h, hguard]

end Rules

/-! ## Counted loops -/

section Counted

variable (I : Nat → σ → Prop) {n : Nat} {s : σ}

/-- Counting up: the invariant at `i` holds before the round of `i`. -/
theorem foldl_range_rule {f : σ → Nat → σ} (hstart : I 0 s)
    (hbody : ∀ i s, i < n → I i s → I (i + 1) (f s i)) :
    I n ((List.range n).foldl f s) := by
  induction n with
  | zero => exact hstart
  | succ n ih =>
      rw [List.range_succ, List.foldl_append]
      exact hbody n _ (Nat.lt_succ_self n) (ih fun i s hi => hbody i s (Nat.lt_succ_of_lt hi))

/-- Counting down: the invariant at `i` holds after the round of `i`. -/
theorem foldr_range_rule {f : Nat → σ → σ} (hstart : I n s)
    (hbody : ∀ i s, i < n → I (i + 1) s → I i (f i s)) :
    I 0 ((List.range n).foldr f s) := by
  induction n generalizing s with
  | zero => exact hstart
  | succ n ih =>
      rw [List.range_succ, List.foldr_append]
      exact ih (hbody n s (Nat.lt_succ_self n) hstart)
        fun i s hi => hbody i s (Nat.lt_succ_of_lt hi)

/-- Counting down with a body that may stop the process. -/
theorem foldrM_range_rule {f : Nat → σ → Option σ} (hstart : I n s)
    (hbody : ∀ i s, i < n → I (i + 1) s → ∃ s', f i s = some s' ∧ I i s') :
    ∃ s', (List.range n).foldrM f s = some s' ∧ I 0 s' := by
  induction n generalizing s with
  | zero => exact ⟨s, rfl, hstart⟩
  | succ n ih =>
      obtain ⟨s', hs', hI⟩ := hbody n s (Nat.lt_succ_self n) hstart
      obtain ⟨s'', hs'', hend⟩ := ih hI fun i s hi => hbody i s (Nat.lt_succ_of_lt hi)
      refine ⟨s'', ?_, hend⟩
      rw [List.range_succ, List.foldrM_append, List.foldrM_cons, List.foldrM_nil, pure_bind, hs']
      exact hs''

/-- Counting up with a body that may stop the process. -/
theorem foldlM_range_rule {f : σ → Nat → Option σ} (hstart : I 0 s)
    (hbody : ∀ i s, i < n → I i s → ∃ s', f s i = some s' ∧ I (i + 1) s') :
    ∃ s', (List.range n).foldlM f s = some s' ∧ I n s' := by
  induction n with
  | zero => exact ⟨s, rfl, hstart⟩
  | succ n ih =>
      obtain ⟨s', hs', hI⟩ := ih fun i s hi => hbody i s (Nat.lt_succ_of_lt hi)
      obtain ⟨s'', hs'', hend⟩ := hbody n s' (Nat.lt_succ_self n) hI
      refine ⟨s'', ?_, hend⟩
      rw [List.range_succ, List.foldlM_append, hs', Option.bind_eq_bind, Option.bind_some,
        List.foldlM_cons, hs'']
      rfl

end Counted

end Loop
