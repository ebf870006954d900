/-
  Delivered.lean --- what the screens show was given to the app.

  The balance, the protocols and the comments on the screens come from answers
  that the running process received, or, for a comment, from the user of this
  device.  A deposit takes the id of its pool from the page it is made on, so it
  goes to a pool whose document the running process fetched.
-/
import YieldMe.Balance
import YieldMe.Calls
import YieldMe.Comments
import YieldMe.Display

set_option autoImplicit false

namespace YieldMe

open CircleNetworking Durable Tasks Transition

/-- What a screen can show that is not fixed in the code. -/
inductive Shown where
  | balance (amount : String)
  | item (item : ProtocolItem)
  | comment (page : Nat) (comment : Comment)

/-- The process shows it; an initial balance is fixed in the code. -/
def App.Shows (app : App) : Shown → Prop
  | .balance amount => app.contentView.balance = amount ∧ amount ≠ "0"
  | .item item =>
      item ∈ app.contentView.items ∨ ∃ view ∈ app.detailViews, view.protocolItem = item
  | .comment page comment =>
      ∃ view, app.detailViews[page]? = some view ∧ comment ∈ view.comments

/-- A transition delivers it, or the user posts it from the stored wallet under
the next id. -/
def Gives (e : Transit) : Shown → Prop
  | .balance amount =>
      ∃ task outcome response, e.label = .act (.content (.refresh task (.response outcome))) ∧
        getWalletBalance.result outcome = some response ∧
        usdcAmount? response.tokenBalances = some amount
  | .item item =>
      ∃ documents, e.label = .act (.content (.fetchedProtocols (some documents))) ∧
        some item ∈ documents
  | .comment page comment =>
      (∃ documents, e.label = .act (.detail page (.fetchedComments (some documents))) ∧
        some comment ∈ documents) ∨
      (e.label = .act (.detail page .tapPostComment) ∧ ∃ app view address,
        e.before.memory = some app ∧ app.detailViews[page]? = some view ∧
        e.before.stored.walletAddress = some address ∧
        ProtocolDetailView.newCommentId view.comments = .ok comment.id ∧
        comment.user = truncateString address 20 ∧ comment.text = view.newCommentText)

/-! ## Steps -/

/-- An answer is the USDC amount of a delivered response. -/
theorem Action.answer?_eq_some {action : Action} {answer : Answer}
    (h : action.answer? = some answer) :
    ∃ outcome response,
      action = .content (.refresh answer.refresh (.response outcome)) ∧
      getWalletBalance.result outcome = some response ∧
      usdcAmount? response.tokenBalances = some answer.amount := by
  unfold answer? at h
  split at h
  · rename_i task outcome
    obtain ⟨amount, hamount, rfl⟩ := Option.map_eq_some_iff.mp h
    obtain ⟨response, hresult, hamount⟩ := Option.bind_eq_some_iff.mp hamount
    exact ⟨outcome, response, rfl, hresult, hamount⟩
  · cases h

/-- A comment that is posted names the stored wallet and carries the text of the
field. -/
theorem ProtocolDetailView.postComment_comments {defaults : UserDefaultsManager}
    {view view' : ProtocolDetailView} (h : view.postComment defaults = .ok view') :
    ∃ comment address, view'.comments = view.comments ++ [comment] ∧
      defaults.walletAddress = some address ∧
      newCommentId view.comments = .ok comment.id ∧
      comment.user = truncateString address 20 ∧ comment.text = view.newCommentText := by
  obtain ⟨newId, hid, h⟩ := bind_eq_ok.mp h
  obtain ⟨address, haddress, h⟩ := bind_eq_ok.mp h
  obtain rfl := Except.ok.inj h
  exact ⟨_, address, rfl, unwrap_eq_ok.mp haddress, hid, rfl, rfl⟩

section Steps

variable {s s' : Installed} {app app' : App} {action : Action} {e : AppEffect App}

theorem App.Step.balance_shown (h : app.Step s.stored action e) (hnext : e.next = .ok app')
    {amount : String} (hshows : app'.Shows (.balance amount)) :
    app.Shows (.balance amount) ∨ Gives ⟨s, .act action, s'⟩ (.balance amount) := by
  obtain ⟨hbalance, hne⟩ := hshows
  rw [h.balance_eq hnext] at hbalance
  cases hanswer : action.answer? with
  | none =>
      rw [hanswer] at hbalance
      exact .inl ⟨hbalance, hne⟩
  | some answer =>
      rw [hanswer] at hbalance
      obtain ⟨outcome, response, rfl, hresult, hamount⟩ := Action.answer?_eq_some hanswer
      obtain rfl : answer.amount = amount := hbalance
      exact .inr ⟨_, outcome, response, rfl, hresult, hamount⟩

theorem App.Step.item_shown (h : app.Step s.stored action e) (hnext : e.next = .ok app')
    {item : ProtocolItem} (hshows : app'.Shows (.item item)) :
    app.Shows (.item item) ∨ Gives ⟨s, .act action, s'⟩ (.item item) := by
  have hall : app'.AllItems fun item =>
      app.Shows (.item item) ∨ Gives ⟨s, .act action, s'⟩ (.item item) := by
    refine h.allItems hnext ?_ ⟨?_, ?_⟩
    · rintro documents rfl item hitem
      refine .inr ⟨documents, rfl, ?_⟩
      simpa using hitem
    · intro item hitem
      exact .inl (.inl hitem)
    · intro view hview
      exact .inl (.inr ⟨view, hview, rfl⟩)
  rcases hshows with hitem | ⟨view, hview, rfl⟩
  · exact hall.1 item hitem
  · exact hall.2 view hview

theorem App.Step.comment_shown (hmemory : s.memory = some app)
    (h : app.Step s.stored action e) (hnext : e.next = .ok app') {page : Nat}
    {comment : Comment} (hshows : app'.Shows (.comment page comment)) :
    app.Shows (.comment page comment) ∨
      Gives ⟨s, .act action, s'⟩ (.comment page comment) := by
  obtain ⟨view', hview', hcomment⟩ := hshows
  rcases h.detailView_cases hnext hview' with hold | ⟨-, item, rfl⟩ |
    ⟨event, view, inner, rfl, hview, hstep, hinner⟩
  · exact .inl ⟨view', hold, hcomment⟩
  · cases hcomment
  · rcases hstep.comments_spec hinner with ⟨documents, rfl, hfetched⟩ |
      ⟨newComment, rfl, -, -⟩ | hsame
    · rw [hfetched] at hcomment
      exact .inr (.inl ⟨documents, rfl, by simpa using hcomment⟩)
    · cases hstep with
      | commentPosted _ _ _ =>
          obtain ⟨posted, address, hcomments, haddress, hid, huser, htext⟩ :=
            ProtocolDetailView.postComment_comments hinner
          rw [hcomments, List.mem_append, List.mem_singleton] at hcomment
          rcases hcomment with hold | rfl
          · exact .inl ⟨view, hview, hold⟩
          · exact .inr (.inr ⟨rfl, app, view, address, hmemory, hview, haddress, hid, huser,
              htext⟩)
    · rw [hsame] at hcomment
      exact .inl ⟨view, hview, hcomment⟩

end Steps

/-! ## Runs -/

/-- What a process shows, it was given. -/
theorem shown_given {history : List Transit} {s : Installed}
    (run : Run machine.CrashStep freshInstall history s) {app : App}
    (hmemory : s.memory = some app) {v : Shown} (hshows : app.Shows v) :
    ∃ b ∈ currentProcess history, Gives b v := by
  refine Machine.process_origin App.Shows Gives rfl ?_ ?_ run hmemory hshows
  · intro defaults v hv
    cases v with
    | balance amount => exact hv.2 hv.1.symm
    | item item => simp [App.Shows, machine, App.boot, ContentView.initial] at hv
    | comment page comment => simp [App.Shows, machine, App.boot] at hv
  · intro s action s' app e app' hmemory he hnext v hv
    have h := App.step_of_some he
    cases v with
    | balance amount => exact h.balance_shown hnext hv
    | item item => exact h.item_shown hnext hv
    | comment page comment => exact h.comment_shown hmemory hnext hv

/-- The signature of a deposit. -/
def ProtocolDetailView.isDeposit (model : ContractExecutionChallengeRequest) : Prop :=
  model.abiFunctionSignature = some "depositIntoPool(uint256, uint256)"

/-- A purchase is no deposit. -/
theorem PremiumPassView.passRequestModel_not_isDeposit {proof : Option WrappedProof}
    {defaults : UserDefaultsManager} {idempotencyKey : String}
    {model : ContractExecutionChallengeRequest}
    (h : passRequestModel proof defaults idempotencyKey = .ok model) :
    ¬ ProtocolDetailView.isDeposit model := by
  obtain ⟨hbuy, -⟩ := passRequestModel_spec h
  intro hdeposit
  have hsame := Option.some.inj (hbuy.symm.trans hdeposit)
  exact absurd hsame (by decide)

/-- A deposit names the pool of its page. -/
theorem App.Step.deposit_item {defaults : UserDefaultsManager} {app : App} {action : Action}
    {e : AppEffect App} (h : app.Step defaults action e) {request : URLRequest}
    (hcall : .request request ∈ e.calls) {model : ContractExecutionChallengeRequest}
    (hbody : request.httpBody = some (.contractExecutionChallenge model))
    (hdeposit : ProtocolDetailView.isDeposit model) :
    ∃ view ∈ app.detailViews, ∃ amount,
      model.abiParameters = some [toString view.protocolItem.id.toInt, amount] := by
  cases h with
  | openDetail _ => cases hcall
  | content h =>
      cases (App.Step.content h).calls hcall with
      | registerUser _ _ | getSessionToken _ _ | initializeAccount _ _ _
      | getWalletStatus _ _ _ | getWalletBalance _ _ _ => cases hbody
      | transaction haction _ _ _ =>
          exact absurd haction.symm (Flow.action_ne_content _ _ _)
  | pass hview h =>
      cases h with
      | mint _ hstep =>
          cases hstep with
          | requested _ hmodel =>
              obtain rfl := OutsideCall.request_mem_singleton.mp hcall
              obtain rfl := HTTPBody.contractExecutionChallenge.inj (Option.some.inj hbody)
              exact absurd hdeposit (PremiumPassView.passRequestModel_not_isDeposit hmodel)
          | executed _ => cases List.mem_singleton.mp hcall
          | trapped _ _ | returned _ _ | passed _ _ | completed _ => cases hcall
      | connected _ => cases List.mem_singleton.mp hcall
      | closed _ | worldCoinTapped _ _ | noSession _ | noUrl _ | noStatus _ | confirmed _
      | unconfirmed _ _ | purchaseTapped _ _ => cases hcall
  | detail hview h =>
      cases h with
      | deposit _ hstep =>
          cases hstep with
          | requested _ hmodel =>
              obtain rfl := OutsideCall.request_mem_singleton.mp hcall
              obtain rfl := HTTPBody.contractExecutionChallenge.inj (Option.some.inj hbody)
              obtain ⟨amount, _, hmodel⟩ := bind_eq_ok.mp hmodel
              obtain ⟨walletID, _, hmodel⟩ := bind_eq_ok.mp hmodel
              obtain rfl := Except.ok.inj hmodel
              exact ⟨_, List.mem_of_getElem? hview, amount, rfl⟩
          | executed _ => cases List.mem_singleton.mp hcall
          | trapped _ _ | returned _ _ | passed _ _ | completed _ => cases hcall
      | appeared _ => cases List.mem_singleton.mp hcall
      | fetchFailed _ | fetched _ | amountEdited _ _ | depositTapped _ _ _
      | commentEdited _ _ | commentPosted _ _ _ | disappeared _ => cases hcall

/-- All that a process shows, it was given; and every deposit goes to a pool whose
document its process was given before. -/
def ShowsDelivered (history : List Transit) (s : Installed) : Prop :=
  (∀ app v, s.memory = some app → app.Shows v → ∃ b ∈ currentProcess history, Gives b v) ∧
    ∀ earlier e later request model, history = earlier ++ e :: later →
      Makes e (.request request) →
      request.httpBody = some (.contractExecutionChallenge model) →
      ProtocolDetailView.isDeposit model →
      ∃ item amount, model.abiParameters = some [toString item.id.toInt, amount] ∧
        ∃ b ∈ currentProcess earlier, Gives b (.item item)

theorem showsDelivered {history : List Transit} {s : Installed}
    (run : Run machine.CrashStep freshInstall history s) : ShowsDelivered history s := by
  refine ⟨fun app v hmemory hshows => shown_given run hmemory hshows, ?_⟩
  rintro earlier e later request model rfl hmakes hbody hdeposit
  obtain ⟨before, h⟩ := run.cut
  obtain ⟨app, action, effect, hmemory, hstep, hcall, -⟩ := hmakes.stored h
  obtain ⟨view, hview, amount, hparameters⟩ := hstep.deposit_item hcall hbody hdeposit
  exact ⟨view.protocolItem, amount, hparameters,
    shown_given before hmemory (.inr ⟨view, hview, rfl⟩)⟩

/-- A deposit, and then a balance. -/
theorem showsDelivered_of_deposit :
    ∃ history s, Run machine.CrashStep freshInstall history s ∧
      s.memory.map (fun app => app.contentView.balance) = some "25" ∧
      ShowsDelivered history s := by
  have hend : (replay machine.performCrash freshInstall (signedInSchedule ++
      tapDepositSchedule ++ (Flow.deposit 0 0).schedule Transaction.untilCompletion ++
      [.act (.content (.refresh 0 .start)),
        .act (.content (.refresh 0 (.response (.response 200
          (some ⟨[⟨"USDC", "25"⟩]⟩)))))])).map
      (fun s => s.memory.map fun app => app.contentView.balance) = some (some "25") := by
    decide
  obtain ⟨history, s, run, -, hbalance⟩ := exists_crash_run_of_schedule _ hend
  exact ⟨history, s, run, hbalance, showsDelivered run⟩

end YieldMe
