/-
  Foundation/Interleaving.lean --- when the order of interleaved steps is immaterial.

  The labels of a system belong to parts.  Two parts are independent when a step
  of one neither prevents nor changes a step of the other.  Then a schedule is
  determined, as far as its outcome goes, by what each part does: two schedules
  that agree part by part, and can both be carried out, end in the same state.

  Steps may enable steps of other parts.  So agreeing part by part does not make
  the second schedule possible, and that it is possible is a hypothesis.
-/
import YieldMe.Foundation.Run

set_option autoImplicit false

namespace Transition

section Interleaving

variable {σ α ι : Type}

/-- Steps of different parts that are both possible can be taken in either order,
with one outcome. -/
def Independent (next : σ → α → Option σ) (part : α → ι) : Prop :=
  ∀ s a b sa sb, part a ≠ part b → next s a = some sa → next s b = some sb →
    ∃ t, next sa b = some t ∧ next sb a = some t

variable {next : σ → α → Option σ} {part : α → ι}

theorem replay_cons_eq_some {s t : σ} {a : α} {rest : List α} :
    replay next s (a :: rest) = some t ↔
      ∃ s', next s a = some s' ∧ replay next s' rest = some t := by
  rw [replay, Option.bind_eq_some_iff]

/-- A step that is possible now can be taken before the steps of other parts that
a schedule takes first. -/
theorem Independent.move (h : Independent next part) {a : α} (before after : List α)
    (hbefore : ∀ b ∈ before, part b ≠ part a) :
    ∀ {s sa t : σ}, next s a = some sa →
      replay next s (before ++ a :: after) = some t →
      replay next sa (before ++ after) = some t := by
  induction before with
  | nil =>
      intro s sa t ha hreplay
      obtain ⟨s', hs', hrest⟩ := replay_cons_eq_some.mp hreplay
      obtain rfl := Option.some.inj (ha.symm.trans hs')
      exact hrest
  | cons b before ih =>
      intro s sa t ha hreplay
      obtain ⟨sb, hb, hrest⟩ := replay_cons_eq_some.mp hreplay
      have hne : part a ≠ part b := (hbefore b List.mem_cons_self).symm
      obtain ⟨sab, hab, hba⟩ := h s a b sa sb hne ha hb
      have htail := ih (fun b' hb' => hbefore b' (List.mem_cons_of_mem b hb')) hba hrest
      exact replay_cons_eq_some.mpr ⟨sab, hab, htail⟩

/-- Schedules that agree part by part end in the same state. -/
theorem Independent.replay_unique [DecidableEq ι] (h : Independent next part)
    (labels : List α) :
    ∀ {labels' : List α} {s t t' : σ},
      (∀ i, labels.filter (part · = i) = labels'.filter (part · = i)) →
      replay next s labels = some t → replay next s labels' = some t' → t = t' := by
  induction labels with
  | nil =>
      intro labels' s t t' hparts ht ht'
      have hnil : labels' = [] := by
        rw [List.eq_nil_iff_forall_not_mem]
        intro a ha
        have hmem : a ∈ labels'.filter (part · = part a) := by simp [ha]
        rw [← hparts] at hmem
        cases hmem
      rw [hnil] at ht'
      exact Option.some.inj (ht.symm.trans ht')
  | cons a rest ih =>
      intro labels' s t t' hparts ht ht'
      obtain ⟨sa, ha, hrest⟩ := replay_cons_eq_some.mp ht
      -- the first label of its part in the other schedule is the same one
      have hfirst := hparts (part a)
      rw [List.filter_cons_of_pos (by simp)] at hfirst
      obtain ⟨before, after, rfl, hbefore, -, -⟩ := List.filter_eq_cons_iff.mp hfirst.symm
      have hbefore : ∀ b ∈ before, part b ≠ part a := fun b hb => by
        simpa using hbefore b hb
      refine ih ?_ hrest (h.move before after hbefore ha ht')
      intro i
      have hi := hparts i
      rw [List.filter_append, List.filter_cons, List.filter_cons] at hi
      rw [List.filter_append]
      by_cases hai : part a = i
      · subst hai
        have hnone : before.filter (part · = part a) = [] :=
          List.filter_eq_nil_iff.mpr fun b hb => by simpa using hbefore b hb
        rw [hnone] at hi ⊢
        simpa using hi
      · simpa [hai] using hi

end Interleaving

end Transition
