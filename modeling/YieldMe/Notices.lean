/-
  Notices.lean --- what the user is told when a transaction ends.

  A task that returns at one of its guards says nothing.  A completion tells the
  result, and the one of a deposit then goes on to call it successful whatever
  the result was.
-/
import YieldMe.Flows

set_option autoImplicit false

namespace YieldMe

open CircleNetworking Durable Tasks Transition

/-- The last notice of a task that ended says how it ended. -/
def Transaction.Truthful (t : Transaction) : Prop :=
  (∀ notice, t.notices.getLast? = some notice → notice.type = .success →
    t.stage = .completed .success) ∧
  (t.stage ≠ .completed .success →
    ∃ notice, t.notices.getLast? = some notice ∧ notice.type = .failure)

/-- The user is told the truth when the task ends. -/
def ToldTruth (flow : Flow) (e : Transit) : Prop :=
  ∀ t, e.after.transaction? flow = some t → t.Truthful

/-- The task ended with its completion and, if it is a deposit, with result
`.success`. -/
def EndsTold (flow : Flow) (e : Transit) : Prop :=
  ∃ result, e.label = .act (flow.action (.completion result)) ∧
    ((∃ view task, flow = .deposit view task) → result = .success)

/-- A task in progress has said nothing yet. -/
def SilentInProgress (_defaults : UserDefaultsManager) (app : App) : Prop :=
  app.AllTransactions fun _ t => t.inProgress = true → t.notices = []

theorem SilentInProgress.acts {defaults : UserDefaultsManager} {app app' : App}
    {action : Action} {e : AppEffect App} (h : app.Acts defaults action e)
    (hnext : e.next = .ok app') (hsilent : SilentInProgress defaults app) :
    SilentInProgress (machine.writeAll defaults e.writes) app' := by
  refine h.transactions hnext (fun _ _ ht => ht) (fun _ _ => rfl) ?_ hsilent
  intro flow t code event inner t' _ _ _ ht hstep _ ht' hlive
  have hbefore := ht hstep.inProgress_before
  cases hstep with
  | trapped _ _ => cases ht'
  | completed _ | returned _ _ =>
      have hinj := Except.ok.inj ht'
      subst hinj
      cases hlive
  | _ =>
      have hinj := Except.ok.inj ht'
      subst hinj
      exact hbefore

theorem silentInProgress_of_run {history : List Transit} {s : Installed}
    (run : Run machine.Step freshInstall history s) {app : App}
    (hmemory : s.memory = some app) : SilentInProgress s.stored app := by
  refine Machine.run_memory_holds SilentInProgress rfl ?_ ?_ run hmemory
  · intro defaults flow t ht
    simp [machine] at ht
  · intro defaults app action e app' hsilent he hnext
    exact hsilent.acts (acts_of_step he) hnext

/-- The last notice of a completion. -/
theorem Flow.Runs.last_notice {flow : Flow} {code : TransactionCode} (h : flow.Runs code)
    (result : ExecuteResult) :
    ∃ notice, (code.notices result).getLast? = some notice ∧
      (notice.type = .success ↔
        result = .success ∨ ∃ view task, flow = .deposit view task) ∧
      (notice.type = .success ∨ notice.type = .failure) := by
  cases h with
  | mint view => cases result <;> exact ⟨_, rfl, by simp, by simp⟩
  | deposit view => cases result <;> exact ⟨_, rfl, by simp, by simp⟩

/-- A completion leaves its task truthful unless it is a deposit that failed. -/
theorem truthful_of_completion {flow : Flow} {code : TransactionCode} {t t' : Transaction}
    {defaults : UserDefaultsManager} {result : ExecuteResult} {e : AppEffect Transaction}
    (hcode : flow.Runs code) (hstep : t.Step code defaults (.completion result) e)
    (hnext : e.next = .ok t') :
    t'.Truthful ↔ ((∃ view task, flow = .deposit view task) → result = .success) := by
  obtain ⟨hstage, hnotices⟩ := hstep.of_completion hnext
  obtain ⟨notice, hlast, htype, hkind⟩ := hcode.last_notice result
  have hlast : t'.notices.getLast? = some notice := by
    rw [hnotices, List.getLast?_append, hlast]
    rfl
  constructor
  · intro htruth hdeposit
    have hcompleted := htruth.1 notice hlast (htype.mpr (.inr hdeposit))
    rw [hstage] at hcompleted
    exact Transaction.Stage.completed.inj hcompleted
  · intro hsuccess
    rw [Transaction.Truthful, hlast, hstage]
    constructor
    · intro notice' hnotice' htype'
      have hinj := Option.some.inj hnotice'
      subst hinj
      rcases htype.mp htype' with rfl | hdeposit
      · rfl
      · rw [hsuccess hdeposit]
    · intro hfailed
      refine ⟨notice, rfl, hkind.resolve_left fun htype' => hfailed ?_⟩
      rcases htype.mp htype' with rfl | hdeposit
      · rfl
      · rw [hsuccess hdeposit]

/-- A task that said nothing and did not complete is not truthful. -/
theorem not_truthful_of_returned {t : Transaction} (hsilent : t.notices = [])
    (hstage : t.stage = .returned) : ¬ t.Truthful := by
  rintro ⟨-, hfailed⟩
  obtain ⟨notice, hlast, -⟩ := hfailed (by rw [hstage]; simp)
  rw [hsilent] at hlast
  cases hlast

/-- The user is told the truth at the end of a transaction exactly when it ends
with its completion and is not a deposit that failed. -/
theorem toldTruth_iff {history : List Transit} {s : Installed}
    (run : Run machine.Step freshInstall history s) {flow : Flow} {e : Transit}
    (he : e ∈ history) (hends : Ends flow e) : ToldTruth flow e ↔ EndsTold flow e := by
  obtain ⟨earlier, later, -, hrun, h⟩ := run.of_mem he
  obtain ⟨app, app', t, t', code, event, effect, inner, hmemory, hmemory', ht, ht', hlabel,
    -, -, hcode, hstep, hinner, hover⟩ := hends.cases h
  have hafter : e.after.transaction? flow = some t' := by
    rw [Installed.transaction?, hmemory', Option.bind_some, ht']
  have htold : ToldTruth flow e ↔ t'.Truthful := by
    constructor
    · intro htruth
      exact htruth t' hafter
    · intro htruth t'' hafter'
      have hinj := Option.some.inj (hafter.symm.trans hafter')
      subst hinj
      exact htruth
  rw [htold]
  rcases hstep.over hinner hover with ⟨outcome, rfl, rfl⟩ | ⟨result, rfl⟩
  · -- it returned at a guard
    have hsilent := silentInProgress_of_run hrun hmemory flow t ht hstep.inProgress_before
    constructor
    · intro htruth
      exact absurd htruth (not_truthful_of_returned hsilent rfl)
    · rintro ⟨result, hresult, -⟩
      rw [hlabel] at hresult
      cases (Flow.action_inj (Label.act.inj hresult)).2
  · rw [truthful_of_completion hcode hstep hinner]
    constructor
    · intro hsuccess
      exact ⟨result, hlabel, hsuccess⟩
    · rintro ⟨result', hresult, hsuccess⟩
      rw [hlabel] at hresult
      obtain ⟨-, hevent⟩ := Flow.action_inj (Label.act.inj hresult)
      have hinj := Transaction.Event.completion.inj hevent
      subst hinj
      exact hsuccess

theorem told_of_failed_purchase :
    ∃ (history : List Transit) (s : Installed) (e : Transit),
      Run machine.Step freshInstall history s ∧ e ∈ history ∧ Ends (.mint 0 0) e ∧
        ToldTruth (.mint 0 0) e := by
  have hend : ((replay machine.perform freshInstall (signedInSchedule ++ tapPurchaseSchedule ++
      (Flow.mint 0 0).schedule Transaction.untilCompletion)).bind fun s =>
        (machine.perform s (.act ((Flow.mint 0 0).action
          (.completion (.failure "declined"))))).map
          fun s' => (Installed.live? s (.mint 0 0), Installed.live? s' (.mint 0 0), ())) =
      some (some true, some false, ()) := by
    decide
  obtain ⟨history, s, e, run, he, hlabel, hends, -⟩ :=
    exists_end_of_schedule (.mint 0 0) (fun _ => ()) hend
  refine ⟨history, s, e, run, he, hends,
    (toldTruth_iff run he hends).mpr ⟨_, hlabel, ?_⟩⟩
  rintro ⟨view, task, hdeposit⟩
  cases hdeposit

theorem failed_deposit_called_successful :
    ¬ ∀ (history : List Transit) (s : Installed), Run machine.Step freshInstall history s →
      ∀ flow, ∀ e ∈ history, Ends flow e → ToldTruth flow e := by
  intro hall
  have hend : ((replay machine.perform freshInstall (signedInSchedule ++ tapDepositSchedule ++
      (Flow.deposit 0 0).schedule Transaction.untilCompletion)).bind fun s =>
        (machine.perform s (.act ((Flow.deposit 0 0).action
          (.completion (.failure "declined"))))).map
          fun s' => (Installed.live? s (.deposit 0 0), Installed.live? s' (.deposit 0 0),
            (Installed.transaction? s' (.deposit 0 0)).map fun t => (t.stage, t.notices))) =
      some (some true, some false, some (.completed (.failure "declined"),
        [⟨.failure, "Error: declined"⟩, ⟨.success, "Deposit successful!"⟩])) := by
    decide
  obtain ⟨history, s, e, run, he, -, hends, hafter⟩ :=
    exists_end_of_schedule (.deposit 0 0) (fun s' =>
      (Installed.transaction? s' (.deposit 0 0)).map fun t => (t.stage, t.notices)) hend
  obtain ⟨t, ht, hend⟩ := Option.map_eq_some_iff.mp hafter
  obtain ⟨hstage, hnotices⟩ := Prod.mk.inj hend
  have htruth := hall history s run (.deposit 0 0) e he hends t ht
  have hsuccess := htruth.1 ⟨.success, "Deposit successful!"⟩ (by rw [hnotices]; rfl) rfl
  rw [hstage] at hsuccess
  cases hsuccess

end YieldMe
