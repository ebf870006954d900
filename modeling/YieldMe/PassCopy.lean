/-
  PassCopy.lean --- the two copies of pass ownership.

  `ContentView` keeps `purchasedPass` beside the stored one.  It reads the
  stored one when the process starts and when a change of
  `isCommunityPassPresented` is delivered; the completion of a transaction
  writes the stored one whenever it comes.

  `PassCopy` is this mechanism by itself: a stored flag, a copy, the sheet, and
  the changes on their way.  Once the pass is stored the sheet cannot be opened
  again, so a completion that finds the sheet closed and nothing on its way is
  never noticed.
-/
import YieldMe.Flows

set_option autoImplicit false

namespace YieldMe

open Durable Tasks Transition

/-! ## The mechanism -/

/-- The stored flag and its copy. -/
structure PassCopy where
  stored : Bool
  copy : Bool
  /-- the sheet is presented -/
  shown : Bool
  /-- changes of `shown` not yet delivered -/
  undelivered : Nat

namespace PassCopy

/-- The steps of the mechanism; `success` says whether it is a completion with
result `.success`, which stores the pass and may also close the sheet. -/
inductive Step (c : PassCopy) : Bool → PassCopy → Prop
  | opened (hstored : c.stored = false) (hclosed : c.shown = false) :
      Step c false { c with shown := true, undelivered := c.undelivered + 1 }
  | delivered (hpending : c.undelivered ≠ 0) :
      Step c false { c with copy := c.stored, undelivered := c.undelivered - 1 }
  | closed {success : Bool} (hshown : c.shown = true) :
      Step c success { c with
        stored := c.stored || success, shown := false, undelivered := c.undelivered + 1 }
  | other {success : Bool} : Step c success { c with stored := c.stored || success }

/-- The sheet is closed and every change is delivered. -/
def Quiet (c : PassCopy) : Prop := c.shown = false ∧ c.undelivered = 0

/-- A first success now would not be noticed. -/
def Unwatched (c : PassCopy) : Prop := c.stored = false ∧ c.Quiet

/-- The copy is right, or a change is still due. -/
def Current (c : PassCopy) : Prop :=
  (c.copy = true → c.stored = true) ∧ (c.Quiet → c.copy = c.stored)

/-- The copy is wrong, and no change is due. -/
def Stale (c : PassCopy) : Prop := c.stored = true ∧ c.copy = false ∧ c.Quiet

variable {c c' : PassCopy} {success : Bool}

theorem Step.current (h : c.Step success c') (hcurrent : c.Current)
    (hwatched : success = true → ¬ c.Unwatched) : c'.Current := by
  obtain ⟨hsound, hquiet⟩ := hcurrent
  have hstored : c.copy = true → (c.stored || success) = true := fun hcopy => by
    rw [hsound hcopy, Bool.true_or]
  cases h with
  | opened _ _ => exact ⟨hsound, fun hq => by cases hq.1⟩
  | delivered _ => exact ⟨id, fun _ => rfl⟩
  | closed _ => exact ⟨hstored, fun hq => by cases hq.2⟩
  | other =>
      refine ⟨hstored, fun hq => (hquiet hq).trans ?_⟩
      cases success with
      | false => exact (Bool.or_false _).symm
      | true =>
          have hfirst : c.stored = true := by
            by_contra hnot
            exact hwatched rfl ⟨by simpa using hnot, hq⟩
          rw [hfirst, Bool.true_or]

theorem Step.stale_of_unwatched (h : c.Step true c') (hcurrent : c.Current)
    (hunwatched : c.Unwatched) : c'.Stale := by
  obtain ⟨hstored, hquiet⟩ := hunwatched
  cases h with
  | other => exact ⟨Bool.or_true _, (hcurrent.2 hquiet).trans hstored, hquiet⟩
  | closed hshown =>
      rw [hquiet.1] at hshown
      cases hshown

theorem Step.stale (h : c.Step success c') (hstale : c.Stale) : c'.Stale := by
  obtain ⟨hstored, hcopy, hclosed, hnone⟩ := hstale
  cases h with
  | other => exact ⟨by rw [hstored, Bool.true_or], hcopy, hclosed, hnone⟩
  | delivered hpending => exact absurd hnone hpending
  | opened hfirst _ =>
      rw [hstored] at hfirst
      cases hfirst
  | closed hshown =>
      rw [hclosed] at hshown
      cases hshown

/-- At a quiet moment a current copy is right and a stale one is not. -/
theorem Stale.ne (h : c.Stale) : c.copy ≠ c.stored := by
  rw [h.1, h.2.1]
  decide

end PassCopy

/-! ## The app as the mechanism -/

/-- The mechanism inside a process. -/
def App.passCopy (defaults : UserDefaultsManager) (app : App) : PassCopy where
  stored := defaults.purchasedPass
  copy := app.contentView.purchasedPass
  shown := app.contentView.isCommunityPassPresented
  undelivered := app.contentView.undeliveredChanges

/-- The completion of a purchase or of a deposit with result `.success`. -/
def Action.succeeds : Action → Bool
  | .pass _ (.mint _ (.completion .success)) => true
  | .detail _ (.deposit _ (.completion .success)) => true
  | _ => false

@[simp] theorem Flow.succeeds_completion (flow : Flow) :
    (flow.action (.completion .success)).succeeds = true := by
  cases flow <;> rfl

theorem Action.exists_flow_of_succeeds {action : Action} (h : action.succeeds = true) :
    ∃ flow : Flow, action = flow.action (.completion .success) := by
  unfold Action.succeeds at h
  split at h
  · exact ⟨.mint _ _, rfl⟩
  · exact ⟨.deposit _ _, rfl⟩
  · cases h

/-- The binding of the sheet counts the sheets that are presented. -/
def OneSheet (_defaults : UserDefaultsManager) (app : App) : Prop :=
  app.passViews.countP (·.presented) =
    if app.contentView.isCommunityPassPresented then 1 else 0

/-- A sheet that is gone stays gone. -/
theorem PremiumPassView.Step.presented_before {defaults : UserDefaultsManager}
    {view view' : PremiumPassView} {event : Event} {e : AppEffect PremiumPassView}
    (h : view.Step defaults event e) (hnext : e.next = .ok view')
    (hshown : view'.presented = true) : view.presented = true := by
  cases h with
  | closed hshown | worldCoinTapped hshown _ | purchaseTapped hshown _ => exact hshown
  | noSession _ | noUrl _ | noStatus _ => cases hnext
  | connected _ | confirmed _ | unconfirmed _ _ =>
      have hinj := Except.ok.inj hnext
      subst hinj
      exact hshown
  | @mint task t event _ _ _ =>
      obtain ⟨t', -, rfl⟩ := Effect.map_next_ok hnext
      cases event with
      | completion result => cases hshown
      | _ => exact hshown

/-- What a step of the root screen does to its copy and to the binding. -/
theorem ContentView.Step.passCopy_cases {defaults : UserDefaultsManager}
    {view view' : ContentView} {event : ContentView.Event} {e : AppEffect ContentView}
    (h : view.Step defaults event e) (hnext : e.next = .ok view') :
    (event = .tapBuyCommunityPass ∧ defaults.purchasedPass = false ∧
      view.isCommunityPassPresented = false ∧ view' = { view with
        isCommunityPassPresented := true
        undeliveredChanges := view.undeliveredChanges + 1 }) ∨
    (event = .onChangePresented ∧ view.undeliveredChanges ≠ 0 ∧ view' = { view with
        purchasedPass := defaults.purchasedPass
        undeliveredChanges := view.undeliveredChanges - 1 }) ∨
    (event ≠ .tapBuyCommunityPass ∧ view'.purchasedPass = view.purchasedPass ∧
      view'.isCommunityPassPresented = view.isCommunityPassPresented ∧
      view'.undeliveredChanges = view.undeliveredChanges) := by
  cases h with
  | fetchFailed _ => cases hnext
  | buyTapped _ _ hpass hclosed =>
      exact .inl ⟨rfl, hpass, hclosed, (Except.ok.inj hnext).symm⟩
  | changeDelivered hpending =>
      exact .inr (.inl ⟨rfl, hpending, (Except.ok.inj hnext).symm⟩)
  | signIn _ hstep =>
      rcases (signInStep_sound hstep).frame hnext with ⟨challenge, wallet, -, rfl⟩ |
        ⟨toast, signIns, rfl⟩ <;>
        exact .inr (.inr ⟨by simp, rfl, rfl, rfl⟩)
  | refresh _ hstep =>
      obtain ⟨balance, refreshes, rfl⟩ := hstep.frame hnext
      exact .inr (.inr ⟨by simp, rfl, rfl, rfl⟩)
  | _ =>
      have hinj := Except.ok.inj hnext
      subst hinj
      exact .inr (.inr ⟨by simp, rfl, rfl, rfl⟩)

namespace App

variable {defaults : UserDefaultsManager} {app app' : App} {action : Action}
  {e : AppEffect App}

/-- Exactly the successful completions store the pass. -/
theorem Step.purchasedPass_eq (h : app.Step defaults action e) :
    (machine.writeAll defaults e.writes).purchasedPass =
      (defaults.purchasedPass || action.succeeds) := by
  cases hsucceeds : action.succeeds with
  | true =>
      obtain ⟨flow, rfl⟩ := Action.exists_flow_of_succeeds hsucceeds
      rw [h.acts.writes_of_success, Bool.or_true]
      rfl
  | false =>
      have hwrites := h.acts.writes
      generalize e.writes = writes at hwrites
      rw [Bool.or_false]
      cases hwrites with
      | @pass flow _ _ haction _ _ =>
          rw [haction, Flow.succeeds_completion] at hsucceeds
          cases hsucceeds
      | _ => rfl

theorem passViews_afterContent {event : ContentView.Event} (view : ContentView)
    (hevent : event ≠ .tapBuyCommunityPass) :
    (app.afterContent event view).passViews = app.passViews := by
  cases event with
  | tapBuyCommunityPass => exact absurd rfl hevent
  | _ => rfl

end App

/-- A sheet that is presented is presented by the binding. -/
theorem OneSheet.shown {defaults : UserDefaultsManager} {app : App}
    (hone : OneSheet defaults app) {index : Nat} {view : PremiumPassView}
    (hview : app.passViews[index]? = some view) (hpresented : view.presented = true) :
    app.contentView.isCommunityPassPresented = true := by
  have hpos : 0 < app.passViews.countP (·.presented) :=
    List.countP_pos_iff.mpr ⟨view, List.mem_of_getElem? hview, hpresented⟩
  by_contra hclosed
  rw [hone, if_neg hclosed] at hpos
  cases hpos

theorem OneSheet.step {defaults : UserDefaultsManager} {app app' : App} {action : Action}
    {e : AppEffect App} (h : app.Step defaults action e) (hnext : e.next = .ok app')
    (hone : OneSheet defaults app) :
    OneSheet (machine.writeAll defaults e.writes) app' := by
  unfold OneSheet
  cases h with
  | detail _ _ =>
      obtain ⟨view, -, rfl⟩ := Effect.map_next_ok hnext
      exact hone
  | openDetail _ =>
      have hinj := Except.ok.inj hnext
      subst hinj
      exact hone
  | @content event _ hstep =>
      obtain ⟨view, hview, rfl⟩ := Effect.map_next_ok hnext
      rcases hstep.passCopy_cases hview with ⟨rfl, -, hclosed, rfl⟩ | ⟨rfl, -, rfl⟩ |
        ⟨hevent, -, hshown, -⟩
      · rw [OneSheet, hclosed] at hone
        simpa [App.afterContent, List.countP_append] using hone
      · exact hone
      · rw [App.passViews_afterContent view hevent, App.contentView_afterContent, hshown]
        exact hone
  | @pass index view event _ hview hstep =>
      obtain ⟨view', hview', rfl⟩ := Effect.map_next_ok hnext
      have hcount := SingleFlight.countP_set_of_some (·.presented) hview view'
      unfold App.afterPass
      cases hafter : view'.presented with
      | true =>
          rw [hafter, hstep.presented_before hview' hafter] at hcount
          simpa using hcount.trans (congrArg (· + 1) hone)
      | false =>
          cases hbefore : view.presented with
          | false =>
              rw [hafter, hbefore] at hcount
              simpa using hcount.trans hone
          | true =>
              rw [hafter, hbefore, hone, hone.shown hview hbefore] at hcount
              simpa [ContentView.sheetDismissed] using hcount

/-- The app runs the mechanism: a step that leaves a memory is one of its steps,
and the successful completions are its successes. -/
theorem App.Step.passCopy {defaults : UserDefaultsManager} {app app' : App}
    {action : Action} {e : AppEffect App} (h : app.Step defaults action e)
    (hnext : e.next = .ok app') (hone : OneSheet defaults app) :
    (app.passCopy defaults).Step action.succeeds
      (app'.passCopy (machine.writeAll defaults e.writes)) := by
  have hpass := h.purchasedPass_eq
  unfold App.passCopy
  rw [hpass]
  cases h with
  | detail _ _ =>
      obtain ⟨view, -, rfl⟩ := Effect.map_next_ok hnext
      exact .other
  | openDetail _ =>
      have hinj := Except.ok.inj hnext
      subst hinj
      exact .other
  | @content event _ hstep =>
      obtain ⟨view, hview, rfl⟩ := Effect.map_next_ok hnext
      rw [App.contentView_afterContent]
      rcases hstep.passCopy_cases hview with ⟨rfl, hfirst, hclosed, rfl⟩ | ⟨rfl, hpending, rfl⟩ |
        ⟨-, hcopy, hshown, hundelivered⟩
      · rw [show Action.succeeds (.content .tapBuyCommunityPass) = false from rfl,
          Bool.or_false]
        exact .opened hfirst hclosed
      · rw [show Action.succeeds (.content .onChangePresented) = false from rfl,
          Bool.or_false]
        exact .delivered hpending
      · rw [hcopy, hshown, hundelivered]
        exact .other
  | @pass index view event _ hview hstep =>
      obtain ⟨view', hview', rfl⟩ := Effect.map_next_ok hnext
      unfold App.afterPass
      split
      · rename_i hdismissed
        exact .closed (hone.shown hview (Bool.and_eq_true_iff.mp hdismissed).1)
      · exact .other

/-! ## Runs -/

/-- A first success arrives while the sheet is closed and no change is due. -/
def MissedSuccess (e : Transit) : Prop :=
  ∃ app action, e.before.memory = some app ∧ e.label = .act action ∧
    action.succeeds = true ∧ (app.passCopy e.before.stored).Unwatched

/-- The copy is current until a success is missed, and stale from then on. -/
structure CopyTracks (process : List Transit) (defaults : UserDefaultsManager) (app : App) :
    Prop where
  oneSheet : OneSheet defaults app
  current : (∀ b ∈ process, ¬ MissedSuccess b) → (app.passCopy defaults).Current
  stale : (∃ b ∈ process, MissedSuccess b) → (app.passCopy defaults).Stale

theorem CopyTracks.boot (defaults : UserDefaultsManager) :
    CopyTracks [] defaults (App.boot defaults) where
  oneSheet := rfl
  current _ := ⟨id, fun _ => rfl⟩
  stale := by
    rintro ⟨b, hb, -⟩
    cases hb

theorem CopyTracks.step {process : List Transit} {s s' : Installed} {app app' : App}
    {action : Action} {e : AppEffect App} (hmemory : s.memory = some app)
    (h : app.Step s.stored action e) (hnext : e.next = .ok app')
    (htracks : CopyTracks process s.stored app) :
    CopyTracks (process ++ [⟨s, .act action, s'⟩]) (machine.writeAll s.stored e.writes)
      app' := by
  have hstep := h.passCopy hnext htracks.oneSheet
  have hmissed : MissedSuccess ⟨s, .act action, s'⟩ ↔
      action.succeeds = true ∧ (app.passCopy s.stored).Unwatched := by
    constructor
    · rintro ⟨app₀, action₀, hmemory₀, hlabel, hsucceeds, hunwatched⟩
      obtain rfl : app = app₀ := Option.some.inj (hmemory.symm.trans hmemory₀)
      obtain rfl : action = action₀ := Label.act.inj hlabel
      exact ⟨hsucceeds, hunwatched⟩
    · rintro ⟨hsucceeds, hunwatched⟩
      exact ⟨app, action, hmemory, rfl, hsucceeds, hunwatched⟩
  refine ⟨htracks.oneSheet.step h hnext, fun hnone => ?_, ?_⟩
  · have hcurrent := htracks.current fun b hb => hnone b (List.mem_append_left _ hb)
    have hlast := hnone _ (List.mem_append_right _ (List.mem_singleton_self _))
    exact hstep.current hcurrent fun hsucceeds hunwatched =>
      hlast (hmissed.mpr ⟨hsucceeds, hunwatched⟩)
  · intro hmisses
    by_cases hearlier : ∃ b ∈ process, MissedSuccess b
    · exact hstep.stale (htracks.stale hearlier)
    · have hlast := (exists_mem_concat.mp hmisses).resolve_left hearlier
      obtain ⟨hsucceeds, hunwatched⟩ := hmissed.mp hlast
      rw [hsucceeds] at hstep
      refine hstep.stale_of_unwatched (htracks.current fun b hb hmisses => ?_) hunwatched
      exact hearlier ⟨b, hb, hmisses⟩

theorem copyTracks_of_run {history : List Transit} {s : Installed}
    (run : Run machine.Step freshInstall history s) {app : App}
    (hmemory : s.memory = some app) : CopyTracks (currentProcess history) s.stored app := by
  refine Machine.run_process_rule CopyTracks rfl .boot ?_ run hmemory
  intro process s action s' app effect app' hmemory _ htracks heffect hnext
  exact htracks.step hmemory (App.step_of_some heffect) hnext

/-- Where the sheet is closed and every change is delivered, the two copies agree
exactly when the running process has missed no success. -/
theorem copiesAgree_iff {history : List Transit} {s : Installed}
    (run : Run machine.Step freshInstall history s) {app : App}
    (hmemory : s.memory = some app) (hquiet : (app.passCopy s.stored).Quiet) :
    app.contentView.purchasedPass = s.stored.purchasedPass ↔
      ∀ e ∈ currentProcess history, ¬ MissedSuccess e := by
  have htracks := copyTracks_of_run run hmemory
  constructor
  · intro hagree e he hmissed
    exact (htracks.stale ⟨e, he, hmissed⟩).ne hagree
  · intro hnone
    exact (htracks.current hnone).2 hquiet

theorem copiesAgree_of_purchase :
    ∃ history s app, Run machine.Step freshInstall history s ∧ s.memory = some app ∧
      s.stored.purchasedPass = true ∧ app.contentView.purchasedPass = true ∧
      ∀ e ∈ currentProcess history, ¬ MissedSuccess e := by
  have hend : (replay machine.perform freshInstall (signedInSchedule ++ tapPurchaseSchedule ++
      (Flow.mint 0 0).schedule (Transaction.untilCompletion ++ [.completion .success]) ++
      [.act (.content .onChangePresented), .act (.content .onChangePresented)])).map (fun s =>
        (s.stored.purchasedPass, s.memory.map fun app =>
          (app.contentView.purchasedPass, app.contentView.isCommunityPassPresented,
            app.contentView.undeliveredChanges))) =
      some (true, some (true, false, 0)) := by
    decide
  obtain ⟨history, s, run, -, hend⟩ := exists_run_of_schedule _ hend
  obtain ⟨hstored, hend⟩ := Prod.mk.inj hend
  obtain ⟨app, hmemory, hend⟩ := Option.map_eq_some_iff.mp hend
  obtain ⟨hcopy, hend⟩ := Prod.mk.inj hend
  exact ⟨history, s, app, run, hmemory, hstored, hcopy,
    (copiesAgree_iff run hmemory (Prod.mk.inj hend)).mp (hcopy.trans hstored.symm)⟩

/-- An execution whose completion is pending. -/
def Transaction.isExecuting (t : Transaction) : Bool :=
  match t.stage with
  | .executing _ => true
  | _ => false

def SignIn.isExecuting : SignIn → Bool
  | .executing _ => true
  | _ => false

/-- No completion of the wallet SDK is pending. -/
def App.sdkIdle (app : App) : Bool :=
  app.contentView.signIns.all (!·.isExecuting) &&
    app.passViews.all (·.mints.all (!·.isExecuting)) &&
    app.detailViews.all (·.deposits.all (!·.isExecuting))

/-- The sheet is closed, and both of its changes are delivered, before the
completion of its purchase. -/
def closedEarlySchedule : List (Label Action) :=
  signedInSchedule ++ tapPurchaseSchedule ++
  (Flow.mint 0 0).schedule Transaction.untilCompletion ++
  [.act (.pass 0 .tapClose), .act (.content .onChangePresented),
    .act (.content .onChangePresented)] ++
  (Flow.mint 0 0).schedule [.completion .success]

theorem not_always_copiesAgree :
    ¬ ∀ (history : List Transit) (s : Installed) (app : App),
      Run machine.Step freshInstall history s → s.memory = some app →
        (app.passCopy s.stored).Quiet → app.sdkIdle = true →
          app.contentView.purchasedPass = s.stored.purchasedPass := by
  intro hall
  have hend : (replay machine.perform freshInstall closedEarlySchedule).map (fun s =>
      (s.stored.purchasedPass, s.memory.map fun app =>
        (app.contentView.purchasedPass, app.sdkIdle,
          app.contentView.isCommunityPassPresented, app.contentView.undeliveredChanges))) =
      some (true, some (false, true, false, 0)) := by
    decide
  obtain ⟨history, s, run, -, hend⟩ := exists_run_of_schedule _ hend
  obtain ⟨hstored, hend⟩ := Prod.mk.inj hend
  obtain ⟨app, hmemory, hend⟩ := Option.map_eq_some_iff.mp hend
  obtain ⟨hcopy, hend⟩ := Prod.mk.inj hend
  obtain ⟨hidle, hend⟩ := Prod.mk.inj hend
  have hagree := hall history s app run hmemory (Prod.mk.inj hend) hidle
  rw [hcopy, hstored] at hagree
  cases hagree

end YieldMe
