/-
  Buttons.lean --- the account behind the transaction buttons.

  Both transactions unwrap settings that another view stores when a sign-in
  finds its wallet.  The purchase button is reached through a sheet that opens
  only where an address is shown, so it comes with an account.  The Deposit
  button asks for an amount and for nothing else.

  Wallet address and wallet id are stored by the same step and never removed, so
  the question is only which comes first: the wallet, or an amount.
-/
import YieldMe.Flows

set_option autoImplicit false

namespace YieldMe

open CircleNetworking ContentView Durable Transition

/-! ## What the buttons promise -/

/-- The Deposit button is enabled. -/
def ProtocolDetailView.depositEnabled (view : ProtocolDetailView) : Bool :=
  view.presented && !view.depositAmount.isEmpty && !view.isProcessingDeposit

/-- The purchase button is shown. -/
def PremiumPassView.purchaseShown (view : PremiumPassView) : Bool :=
  view.presented && view.isStepOneCompleted

/-- The settings a task unwraps when it runs. -/
def Flow.AccountStored (defaults : UserDefaultsManager) : Flow → Prop
  | .mint _ _ => defaults.walletAddress.isSome ∧ defaults.walletID.isSome
  | .deposit _ _ => defaults.walletID.isSome

/-- The settings behind every enabled button, and behind every task that was
tapped and has not read them yet, are stored. -/
def AccountBacked (s : Installed) : Prop :=
  ∀ app, s.memory = some app →
    (∀ view ∈ app.detailViews, view.depositEnabled = true → s.stored.walletID.isSome) ∧
    (∀ view ∈ app.passViews, view.purchaseShown = true →
      s.stored.walletAddress.isSome ∧ s.stored.walletID.isSome) ∧
    ∀ flow t, app.transaction? flow = some t → t.stage = .started →
      flow.AccountStored s.stored

/-- An amount is typed into the page of a protocol. -/
def TypesAmount (e : Transit) : Prop :=
  ∃ index text, e.label = .act (.detail index (.editDepositAmount text)) ∧
    text.isEmpty = false

/-- A sign-in finds its wallet. -/
def FindsWallet (e : Transit) : Prop :=
  ∃ task outcome wallet, e.label = .act (.content (.signIn task (.walletStatus outcome))) ∧
    firstWallet (getWalletStatus.result outcome) = some wallet

/-! ## The stored wallet -/

theorem stored_of_findsWallet {s s' : Installed} {l : Label Action}
    (h : machine.Step s l s') (hfinds : FindsWallet ⟨s, l, s'⟩) :
    s'.stored.walletAddress.isSome ∧ s'.stored.walletID.isSome := by
  obtain ⟨task, outcome, wallet, rfl, hwallet⟩ := hfinds
  obtain ⟨app, e, _, he, hstored, _⟩ := h.act_inv
  cases acts_of_step he with
  | content hview =>
      cases hview with
      | other _ htask _ _ => exact absurd rfl (htask _ _)
      | signIn _ hstep =>
          cases hstep with
          | noWallet hnone =>
              rw [hwallet] at hnone
              cases hnone
          | gotWallet _ =>
              rw [hstored]
              exact ⟨rfl, rfl⟩

theorem wallet_eq_of_not_findsWallet {s s' : Installed} {l : Label Action}
    (h : machine.Step s l s') (hfinds : ¬ FindsWallet ⟨s, l, s'⟩) :
    s'.stored.walletAddress = s.stored.walletAddress ∧
      s'.stored.walletID = s.stored.walletID := by
  cases l with
  | act action =>
      obtain ⟨app, e, _, he, hstored, _⟩ := h.act_inv
      have hwrites := (acts_of_step he).writes
      rw [hstored]
      generalize e.writes = writes at hwrites
      cases hwrites with
      | wallet haction _ hwallet => exact absurd ⟨_, _, _, by rw [haction], hwallet⟩ hfinds
      | _ => exact ⟨rfl, rfl⟩
  | _ =>
      rw [h.stored_eq (by simp)]
      exact ⟨rfl, rfl⟩

/-- Address and id of the wallet are stored exactly when a sign-in has found it. -/
theorem walletStored_iff {history : List Transit} {s : Installed}
    (run : Run machine.Step freshInstall history s) :
    (s.stored.walletAddress.isSome ↔ ∃ b ∈ history, FindsWallet b) ∧
      (s.stored.walletID.isSome ↔ ∃ b ∈ history, FindsWallet b) := by
  refine run.history_rule (fun history s =>
    (s.stored.walletAddress.isSome ↔ ∃ b ∈ history, FindsWallet b) ∧
      (s.stored.walletID.isSome ↔ ∃ b ∈ history, FindsWallet b)) ?_ ?_
  · simp [freshInstall]
  · intro history s l s' _ ih h
    by_cases hfinds : FindsWallet ⟨s, l, s'⟩
    · have hfound : ∃ b ∈ history ++ [⟨s, l, s'⟩], FindsWallet b :=
        exists_mem_concat.mpr (.inr hfinds)
      obtain ⟨haddress, hid⟩ := stored_of_findsWallet h hfinds
      exact ⟨iff_of_true haddress hfound, iff_of_true hid hfound⟩
    · obtain ⟨haddress, hid⟩ := wallet_eq_of_not_findsWallet h hfinds
      rw [haddress, hid, exists_mem_concat, or_iff_left hfinds]
      exact ih

/-! ## Sheets -/

/-- A step shows an address that was shown, or that is stored. -/
theorem ContentView.Step.walletAddress_cases {defaults : UserDefaultsManager}
    {view view' : ContentView} {event : ContentView.Event} {e : AppEffect ContentView}
    (h : view.Step defaults event e) (hnext : e.next = .ok view')
    (haddress : view'.walletAddress.isSome) :
    view.walletAddress.isSome ∨
      (machine.writeAll defaults e.writes).walletAddress.isSome := by
  cases h with
  | fetchFailed _ => cases hnext
  | appeared =>
      have hinj := Except.ok.inj hnext
      subst hinj
      rw [Option.isSome_or, Bool.or_eq_true] at haddress
      exact haddress.symm
  | signIn _ hstep =>
      rcases (signInStep_sound hstep).frame hnext with ⟨challenge, wallet, hwrites, -⟩ |
        ⟨toast, signIns, rfl⟩
      · rw [hwrites]
        exact .inr rfl
      · exact .inl haddress
  | refresh _ hstep =>
      obtain ⟨balance, refreshes, rfl⟩ := hstep.frame hnext
      exact .inl haddress
  | _ =>
      have hinj := Except.ok.inj hnext
      subst hinj
      exact .inl haddress

/-- An address that is shown, and an address behind every sheet, is stored. -/
structure SheetsSignedIn (defaults : UserDefaultsManager) (app : App) : Prop where
  shown : app.contentView.walletAddress.isSome → defaults.walletAddress.isSome
  sheets : app.passViews ≠ [] → defaults.walletAddress.isSome

/-- A sheet is opened only where an address is shown. -/
theorem App.Step.passViews_ne_nil {defaults : UserDefaultsManager} {app app' : App}
    {action : Action} {e : AppEffect App} (h : app.Step defaults action e)
    (hnext : e.next = .ok app') (hne : app'.passViews ≠ []) :
    app.passViews ≠ [] ∨ app.contentView.walletAddress.isSome := by
  cases h with
  | @content event _ h =>
      obtain ⟨view, -, rfl⟩ := Effect.map_next_ok hnext
      cases h with
      | buyTapped haddress _ _ _ => exact .inr haddress
      | _ => exact .inl hne
  | pass hview _ => exact .inl (List.ne_nil_of_mem (List.mem_of_getElem? hview))
  | detail _ _ =>
      obtain ⟨view, -, rfl⟩ := Effect.map_next_ok hnext
      exact .inl hne
  | openDetail _ =>
      have hinj := Except.ok.inj hnext
      subst hinj
      exact .inl hne

theorem sheetsSignedIn_of_run {history : List Transit} {s : Installed}
    (run : Run machine.Step freshInstall history s) {app : App}
    (hmemory : s.memory = some app) : SheetsSignedIn s.stored app := by
  refine Machine.run_memory_holds SheetsSignedIn rfl ?_ ?_ run hmemory
  · intro defaults
    exact ⟨id, fun hne => absurd rfl hne⟩
  · intro defaults app action e app' hsigned he hnext
    have hkeeps := (acts_of_step he).keeps_all.walletAddress
    have hstep := App.step_of_some he
    refine ⟨fun haddress => ?_, fun hne => ?_⟩
    · refine hstep.contentView (P := fun view => view.walletAddress.isSome →
        (machine.writeAll defaults e.writes).walletAddress.isSome) hnext
        (fun _ hstored => hstored) ?_ (fun hshown => hkeeps (hsigned.shown hshown)) haddress
      intro event view' inner _ hview hwrites hinner haddress
      rcases hview.walletAddress_cases hinner haddress with hshown | hstored
      · exact hkeeps (hsigned.shown hshown)
      · rwa [hwrites]
    · rcases hstep.passViews_ne_nil hnext hne with hold | hshown
      · exact hkeeps (hsigned.sheets hold)
      · exact hkeeps (hsigned.shown hshown)

/-! ## Pages -/

@[simp] theorem ProtocolDetailView.depositAmount_afterDeposit (view : ProtocolDetailView)
    (task : Nat) (event : Transaction.Event) (t : Transaction) :
    (view.afterDeposit task event t).depositAmount = view.depositAmount := by
  cases event <;> rfl

/-- A page with an amount or a deposit is one an amount was typed into. -/
def PagesTyped (process : List Transit) (_defaults : UserDefaultsManager) (app : App) :
    Prop :=
  ∀ (index : Nat) (view : ProtocolDetailView), app.detailViews[index]? = some view →
    view.depositAmount.isEmpty = false ∨ view.deposits ≠ [] → ∃ b ∈ process, TypesAmount b

/-- Where the amount or the deposits of a page come from. -/
theorem ProtocolDetailView.Step.amount_cases {defaults : UserDefaultsManager}
    {view view' : ProtocolDetailView} {event : Event} {e : AppEffect ProtocolDetailView}
    (h : view.Step defaults event e) (hnext : e.next = .ok view')
    (hamount : view'.depositAmount.isEmpty = false ∨ view'.deposits ≠ []) :
    (view.depositAmount.isEmpty = false ∨ view.deposits ≠ []) ∨
      ∃ text, event = .editDepositAmount text ∧ text.isEmpty = false := by
  cases h with
  | fetchFailed _ => cases hnext
  | amountEdited _ _ =>
      have hinj := Except.ok.inj hnext
      subst hinj
      rcases hamount with htext | hdeposits
      · exact .inr ⟨_, rfl, htext⟩
      · exact .inl (.inr hdeposits)
  | depositTapped _ htext _ => exact .inl (.inl htext)
  | deposit htask _ => exact .inl (.inr (List.ne_nil_of_mem (List.mem_of_getElem? htask)))
  | commentPosted _ _ _ =>
      obtain ⟨newComment, rfl⟩ := postComment_eq hnext
      exact .inl hamount
  | _ =>
      have hinj := Except.ok.inj hnext
      subst hinj
      exact .inl hamount

theorem pagesTyped_of_run {history : List Transit} {s : Installed}
    (run : Run machine.Step freshInstall history s) {app : App}
    (hmemory : s.memory = some app) : PagesTyped (currentProcess history) s.stored app := by
  refine Machine.run_process_rule PagesTyped rfl ?_ ?_ run hmemory
  · intro defaults index view hview
    simp [machine, App.boot] at hview
  · intro process s action s' app effect app' _ _ htyped heffect hnext index view' hview' hamount
    rw [exists_mem_concat]
    rcases (App.step_of_some heffect).detailView_cases hnext hview' with hold |
      ⟨-, item, rfl⟩ | ⟨event, view, inner, rfl, hview, hstep, hinner⟩
    · exact .inl (htyped index view' hold hamount)
    · simp at hamount
    · rcases hstep.amount_cases hinner hamount with hold | ⟨text, rfl, htext⟩
      · exact .inl (htyped index view hview hold)
      · exact .inr ⟨index, text, rfl, htext⟩

/-! ## Runs -/

/-- Where every amount typed comes after a wallet, the buttons are backed. -/
theorem accountBacked_of_preceded {history : List Transit} {s : Installed}
    (run : Run machine.Step freshInstall history s)
    (hpreceded : Preceded TypesAmount FindsWallet history) :
    AccountBacked s := by
  intro app hmemory
  obtain ⟨haddress, hid⟩ := walletStored_iff run
  have hsigned := sheetsSignedIn_of_run run hmemory
  have htyped := pagesTyped_of_run run hmemory
  have hpage : ∀ (index : Nat) (view : ProtocolDetailView),
      app.detailViews[index]? = some view →
      view.depositAmount.isEmpty = false ∨ view.deposits ≠ [] → s.stored.walletID.isSome := by
    intro index view hview hamount
    obtain ⟨b, hb, htypes⟩ := htyped index view hview hamount
    exact hid.mpr (hpreceded.exists_mem (mem_of_mem_currentProcess hb) htypes)
  have hsheet : app.passViews ≠ [] →
      s.stored.walletAddress.isSome ∧ s.stored.walletID.isSome := by
    intro hne
    have hstored := hsigned.sheets hne
    exact ⟨hstored, hid.mpr (haddress.mp hstored)⟩
  refine ⟨fun view hview henabled => ?_, fun view hview _ => ?_, fun flow t ht _ => ?_⟩
  · obtain ⟨index, hindex⟩ := List.mem_iff_getElem?.mp hview
    simp only [ProtocolDetailView.depositEnabled, Bool.and_eq_true, Bool.not_eq_true']
      at henabled
    exact hpage index view hindex (.inl henabled.1.2)
  · exact hsheet (List.ne_nil_of_mem hview)
  · cases flow with
    | mint index task =>
        obtain ⟨view, hview, -⟩ := Option.bind_eq_some_iff.mp ht
        exact hsheet (List.ne_nil_of_mem (List.mem_of_getElem? hview))
    | deposit index task =>
        obtain ⟨view, hview, htask⟩ := Option.bind_eq_some_iff.mp ht
        exact hpage index view hview
          (.inr (List.ne_nil_of_mem (List.mem_of_getElem? htask)))

/-- An amount typed into a page enables its button. -/
theorem depositEnabled_of_typesAmount {s s' : Installed} {l : Label Action}
    (h : machine.Step s l s') (htypes : TypesAmount ⟨s, l, s'⟩) :
    ∃ app, s'.memory = some app ∧ ∃ view ∈ app.detailViews, view.depositEnabled = true := by
  obtain ⟨index, text, rfl, htext⟩ := htypes
  obtain ⟨app, e, _, he, _, hnext⟩ := h.act_inv
  cases App.step_of_some he with
  | detail hview hstep =>
      cases hstep with
      | amountEdited hshown hidle =>
          refine ⟨_, (hnext _).mpr rfl, _, List.mem_of_getElem?
            (Tasks.getElem?_set_of_some hview _), ?_⟩
          simp [ProtocolDetailView.depositEnabled, hshown, hidle, htext]

/-- The buttons are backed in every state of a run exactly when every amount
typed in it comes after a sign-in that found its wallet. -/
theorem accountBacked_iff {history : List Transit} {s : Installed}
    (run : Run machine.Step freshInstall history s) :
    (∀ e ∈ history, AccountBacked e.after) ↔ Preceded TypesAmount FindsWallet history := by
  constructor
  · rintro hbacked earlier e later rfl htypes
    obtain ⟨hrun, h⟩ := run.cut
    obtain ⟨app, hmemory, view, hview, henabled⟩ := depositEnabled_of_typesAmount h htypes
    have hstored := (hbacked e (List.mem_append_right _ List.mem_cons_self) app hmemory).1
      view hview henabled
    have hsame : ¬ FindsWallet ⟨e.before, e.label, e.after⟩ := by
      rintro ⟨task, outcome, wallet, hlabel, -⟩
      obtain ⟨index, text, htyped, -⟩ := htypes
      rw [htyped] at hlabel
      cases hlabel
    rw [(wallet_eq_of_not_findsWallet h hsame).2] at hstored
    exact (walletStored_iff hrun).2.mp hstored
  · intro hpreceded e he
    obtain ⟨earlier, later, rfl, hrun, h⟩ := run.of_mem he
    exact accountBacked_of_preceded (hrun.snoc h) hpreceded.upto

theorem accountBacked_of_sign_in :
    ∃ history s, Run machine.Step freshInstall history s ∧
      (Installed.transaction? s (.deposit 0 0)).isSome ∧
      ∀ e ∈ history, AccountBacked e.after := by
  have hend : (replay machine.perform freshInstall
      (signedInSchedule ++ tapDepositSchedule)).map
        (fun s => (Installed.transaction? s (.deposit 0 0)).isSome) = some true := by
    decide
  obtain ⟨history, s, run, hlabels, htask⟩ := exists_run_of_schedule _ hend
  refine ⟨history, s, run, htask, (accountBacked_iff run).mpr ?_⟩
  obtain ⟨first, rest, rfl, hfirst, -⟩ := List.map_eq_append_iff.mp hlabels
  refine .of_first ?_ ?_ rest
  · have hmem : Label.act (.content (.signIn 0 (SignIn.walletResponse ⟨"id", "address"⟩))) ∈
        first.map Edge.label := by
      rw [hfirst]
      simp [signedInSchedule, signInSchedule]
    obtain ⟨b, hb, hlabel⟩ := List.mem_map.mp hmem
    exact ⟨b, hb, 0, _, ⟨"id", "address"⟩, hlabel, rfl⟩
  · rintro e he ⟨index, text, hlabel, -⟩
    have hmem := label_mem hfirst he
    rw [hlabel] at hmem
    simp [signedInSchedule, signInSchedule, SignIn.untilQuery] at hmem

theorem not_always_accountBacked :
    ¬ ∀ (history : List Transit) (s : Installed),
      Run machine.Step freshInstall history s → AccountBacked s := by
  intro hall
  have hend : (replay machine.perform freshInstall ([.launch] ++ tapDepositSchedule)).map
      (fun s => (s.stored.walletID, Installed.transaction? s (.deposit 0 0))) =
        some (none, some {}) := by
    decide
  obtain ⟨history, s, run, -, hend⟩ := exists_run_of_schedule _ hend
  obtain ⟨hnone, htask⟩ := Prod.mk.inj hend
  obtain ⟨app, hmemory, ht⟩ := Option.bind_eq_some_iff.mp htask
  have hstored := (hall history s run app hmemory).2.2 _ _ ht rfl
  rw [Flow.AccountStored, hnone] at hstored
  cases hstored

end YieldMe
