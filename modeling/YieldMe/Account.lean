/-
  Account.lean --- the user and the wallet an installed app stands for.

  The app names its user by an id it makes up once and stores.  Its wallet is an
  address and an id, taken from one answer of the Circle API but stored by two
  writes, and the root screen keeps a copy of the address.  A purchase sends both
  parts of the wallet in one request.
-/
import YieldMe.Provenance

set_option autoImplicit false

namespace YieldMe

open CircleNetworking ContentView Durable Tasks Transition

/-! ## The user -/

/-- A request names its user. -/
def URLRequest.Names (request : URLRequest) (userId : String) : Prop :=
  request.httpBody = some (.registerUser ⟨userId⟩) ∨
    request.httpBody = some (.sessionToken ⟨userId⟩)

/-- The user a sign-in task has named or is about to name. -/
def SignIn.user? : SignIn → Option String
  | .registering userId => some userId
  | .gettingSession userId => some userId
  | _ => none

/-- A sign-in task names the stored user. -/
def UsersStored (defaults : UserDefaultsManager) (app : App) : Prop :=
  app.AllSignIns fun flow => ∀ userId, flow.user? = some userId →
    defaults.uuid = some userId

section Users

variable {defaults : UserDefaultsManager} {app app' : App} {action : Action}
  {e : AppEffect App} {userId : String}

/-- Only a sign-in on a device without a user id writes one. -/
theorem App.Acts.uuid_mem_writes (h : app.Acts defaults action e)
    (hw : .uuid userId ∈ e.writes) : defaults.uuid = none := by
  cases h.origin with
  | noTask _ _ hwrites =>
      rw [hwrites] at hw
      cases hw
  | transaction _ _ hcode hstep hwrites _ =>
      rw [hwrites] at hw
      cases hstep with
      | completed _ =>
          rw [hcode.writes_eq] at hw
          split at hw
          · cases List.mem_singleton.mp hw
          · cases hw
      | trapped _ _ | requested _ _ | returned _ _ | passed _ _ | executed _ => cases hw
  | signIn _ _ hstep hwrites =>
      rw [hwrites] at hw
      cases hstep with
      | started =>
          by_cases hstored : defaults.uuid.isSome = true
          · simp [hstored] at hw
          · simpa using hstored
      | noAccount _ | gotAccount _ => simp [sessionWrites] at hw
      | gotWallet _ => simp [walletWrites] at hw
      | registered | noSession _ | gotSession _ | executed | succeeded | failed | queried
      | noWallet _ | refreshed _ => cases hw

/-- A stored user id is never replaced. -/
theorem App.Acts.uuid_stored (h : app.Acts defaults action e)
    (huser : defaults.uuid = some userId) (k : Nat) :
    (machine.writeAll defaults (e.writes.take k)).uuid = some userId := by
  refine machine.writeAll_take_of_forall (fun d => d.uuid = some userId) ?_ k defaults huser
  intro d w hw hd
  cases w with
  | uuid newValue =>
      rw [h.uuid_mem_writes hw] at huser
      cases huser
  | purchasedPass _ | encryptionKey _ | userToken _ | walletAddress _ | walletID _ => exact hd

theorem App.Acts.uuid_stored_all (h : app.Acts defaults action e)
    (huser : defaults.uuid = some userId) :
    (machine.writeAll defaults e.writes).uuid = some userId := by
  have hstored := h.uuid_stored huser e.writes.length
  rwa [List.take_length] at hstored

/-- A sign-in task names the user that is stored when its step is over. -/
theorem ContentView.SignInStep.user {view view' : ContentView} {task : Nat}
    {flow flow' : SignIn} {event : SignIn.Event} {e : AppEffect ContentView}
    (h : view.SignInStep defaults task flow event e)
    (hflow : ∀ userId, flow.user? = some userId → defaults.uuid = some userId)
    (htask : view.signIns[task]? = some flow) (hnext : e.next = .ok view')
    (htask' : view'.signIns[task]? = some flow') (huser : flow'.user? = some userId) :
    (machine.writeAll defaults e.writes).uuid = some userId := by
  cases h with
  | noSession _ | noAccount _ => cases hnext
  | started =>
      obtain rfl := Except.ok.inj hnext
      obtain rfl := eq_of_getElem?_set htask htask'
      obtain rfl := Option.some.inj huser
      cases hstored : defaults.uuid with
      | none => simp [UserDefaultsManager.write]
      | some stored => simp [hstored]
  | registered =>
      obtain rfl := Except.ok.inj hnext
      obtain rfl := eq_of_getElem?_set htask htask'
      exact hflow userId huser
  | noWallet _ =>
      obtain rfl := Except.ok.inj hnext
      obtain rfl := Option.some.inj (htask.symm.trans htask')
      cases huser
  | gotSession _ | gotAccount _ | executed | succeeded | failed | queried | gotWallet _
  | refreshed _ =>
      obtain rfl := Except.ok.inj hnext
      obtain rfl := eq_of_getElem?_set htask htask'
      cases huser

theorem UsersStored.acts (h : app.Acts defaults action e) (hnext : e.next = .ok app')
    (husers : UsersStored defaults app) :
    UsersStored (machine.writeAll defaults e.writes) app' := by
  refine h.signIns hnext ?_ ?_ ?_ husers
  · intro flow hflow userId huser
    exact h.uuid_stored_all (hflow userId huser)
  · intro userId huser
    cases huser
  · intro task flow event inner view' flow' _ htask hflow hstep hwrites hview' htask' userId
      huser
    rw [hwrites]
    exact hstep.user hflow htask hview' htask' huser

/-- The user id a sign-in starts with is stored when its step is over. -/
theorem App.Step.uuid_of_start {task : Nat} {newUuid : String}
    (h : app.Step defaults (.content (.signIn task (.start newUuid))) e) :
    (machine.writeAll defaults e.writes).uuid = some (defaults.uuid.getD newUuid) := by
  cases h with
  | content h =>
      cases h with
      | signIn _ hstep =>
          cases signInStep_sound hstep with
          | started =>
              cases hstored : defaults.uuid with
              | none => simp [Effect.map, UserDefaultsManager.write]
              | some stored => simp [Effect.map, hstored]

/-- A request names the user that is stored when its step is over. -/
theorem App.Step.names (h : app.Step defaults action e) (husers : UsersStored defaults app)
    {request : URLRequest} (hcall : .request request ∈ e.calls)
    (hnames : request.Names userId) :
    (machine.writeAll defaults e.writes).uuid = some userId := by
  generalize hrequest : OutsideCall.request request = call at hcall
  cases h.calls hcall with
  | registerUser haction _ =>
      obtain rfl := OutsideCall.request.inj hrequest
      subst haction
      rcases hnames with hbody | hbody <;> cases hbody
      exact h.uuid_of_start
  | getSessionToken _ htask =>
      obtain rfl := OutsideCall.request.inj hrequest
      rcases hnames with hbody | hbody <;> cases hbody
      exact h.acts.uuid_stored_all (husers _ _ htask _ rfl)
  | initializeAccount _ _ _ | getWalletStatus _ _ _ | getWalletBalance _ _ _
  | transaction _ _ _ _ =>
      obtain rfl := OutsideCall.request.inj hrequest
      rcases hnames with hbody | hbody <;> cases hbody
  | signIn _ _ | execute _ _ _ | openURL | getDocuments => cases hrequest

end Users

/-- All requests that name a user name the one that is stored. -/
def OneUser (history : List Transit) (stored : UserDefaultsManager) : Prop :=
  ∀ e ∈ history, ∀ request userId, Makes e (.request request) → request.Names userId →
    stored.uuid = some userId

theorem usersStored_of_run {history : List Transit} {s : Installed}
    (run : Run machine.CrashStep freshInstall history s) :
    Holds (fun _ => True) UsersStored s := by
  refine Machine.crash_run_holds ⟨trivial, fun _ hm => by cases hm⟩ ?_ ?_ run
  · intro defaults _ task flow htask
    simp [machine, App.boot, ContentView.initial] at htask
  · intro defaults app action e _ husers he
    exact ⟨fun _ => trivial, fun app' hnext => husers.acts (acts_of_step he) hnext⟩

/-- A transition keeps a stored user id. -/
theorem uuid_step {s s' : Installed} {l : Label Action} (h : machine.CrashStep s l s')
    {userId : String} (huser : s.stored.uuid = some userId) :
    s'.stored.uuid = some userId := by
  cases h with
  | kill h _ => exact (acts_of_step h).uuid_stored huser _
  | whole h =>
      cases l with
      | act action =>
          obtain ⟨app, effect, -, heffect, hstored, -⟩ := h.act_inv
          rw [hstored]
          exact (acts_of_step heffect).uuid_stored_all huser
      | terminate | launch | kill _ _ =>
          rw [h.stored_eq (by simp)]
          exact huser

/-- From its first sign-in on the app is one user: every registration and every
session is requested for the stored user id, in all its processes. -/
theorem oneUser {history : List Transit} {s : Installed}
    (run : Run machine.CrashStep freshInstall history s) : OneUser history s.stored := by
  refine run.history_rule (fun history s => OneUser history s.stored) ?_ ?_
  · intro e he
    cases he
  · intro history s l s' run ih h e he request userId hmakes hnames
    rcases List.mem_append.mp he with he | he
    · exact uuid_step h (ih e he request userId hmakes hnames)
    · obtain rfl := List.mem_singleton.mp he
      obtain ⟨app, action, effect, hmemory, hstep, hcall, hstored⟩ := hmakes.stored h
      rw [hstored]
      exact hstep.names ((usersStored_of_run run).2 app hmemory) hcall hnames

/-- Two sign-ins of one process and one of the next. -/
theorem oneUser_of_sign_ins :
    ∃ history s, Run machine.CrashStep freshInstall history s ∧
      s.stored.uuid = some "first" ∧ OneUser history s.stored := by
  have hend : (replay machine.performCrash freshInstall
      ([.launch, .act (.content .tapSignIn), .act (.content .tapSignIn)] ++
        signInSchedule 0 [.start "first", .registered (.response 201 (some ()))] ++
        signInSchedule 1 [.start "second"] ++
        [.kill (.content (.signIn 1 (.registered (.response 201 (some ()))))) 0, .launch,
          .act (.content .tapSignIn)] ++
        signInSchedule 0 [.start "third", .registered .error])).map
      (fun s => s.stored.uuid) = some (some "first") := by
    decide
  obtain ⟨history, s, run, -, huser⟩ := exists_crash_run_of_schedule _ hend
  exact ⟨history, s, run, huser, oneUser run⟩

/-! ## The wallet -/

/-- A transition delivers the answer in which `queryWalletStatus` finds a wallet. -/
def DeliversWallet (wallet : Wallet) (e : Transit) : Prop :=
  ∃ task outcome, firstWallet (getWalletStatus.result outcome) = some wallet ∧
    (e.label = .act (.content (.signIn task (.walletStatus outcome))) ∨
      ∃ k, e.label = .kill (.content (.signIn task (.walletStatus outcome))) k)

/-- A process is killed between the address of a wallet and its id. -/
def Splits (e : Transit) : Prop :=
  ∃ task outcome, e.label = .kill (.content (.signIn task (.walletStatus outcome))) 1

/-- The stored address and the stored id are those of one wallet. -/
def WalletPaired (history : List Transit) (stored : UserDefaultsManager) : Prop :=
  ∀ id address, stored.walletID = some id → stored.walletAddress = some address →
    ∃ e ∈ history, DeliversWallet ⟨id, address⟩ e

/-- The root screen shows the stored address. -/
def ShowsStored (defaults : UserDefaultsManager) (app : App) : Prop :=
  app.contentView.walletAddress = defaults.walletAddress

section Wallets

variable {defaults : UserDefaultsManager} {app app' : App} {action : Action}
  {e : AppEffect App}

/-- Where the stored wallet comes from: it was stored, or it is the one that was
just found. -/
theorem App.Acts.wallet_cases (h : app.Acts defaults action e) (k : Nat) :
    ((machine.writeAll defaults (e.writes.take k)).walletID = defaults.walletID ∧
      (machine.writeAll defaults (e.writes.take k)).walletAddress = defaults.walletAddress) ∨
    ∃ task outcome wallet, action = .content (.signIn task (.walletStatus outcome)) ∧
      firstWallet (getWalletStatus.result outcome) = some wallet ∧
      (k = 1 ∨
        (machine.writeAll defaults (e.writes.take k)).walletID = some wallet.id ∧
        (machine.writeAll defaults (e.writes.take k)).walletAddress = some wallet.address) := by
  have hwrites := h.writes
  generalize e.writes = writes at hwrites
  cases hwrites with
  | nothing => exact .inl ⟨by simp, by simp⟩
  | uuid _ | pass _ _ _ =>
      apply Or.inl
      rcases k with _ | k <;> simp [UserDefaultsManager.write]
  | session _ _ =>
      apply Or.inl
      rcases k with _ | _ | k <;> simp [sessionWrites, UserDefaultsManager.write]
  | wallet haction _ hwallet =>
      rcases k with _ | _ | k
      · exact .inl ⟨rfl, rfl⟩
      · exact .inr ⟨_, _, _, haction, hwallet, .inl rfl⟩
      · refine .inr ⟨_, _, _, haction, hwallet, .inr ?_⟩
        rcases k with _ | k <;> simp [walletWrites, UserDefaultsManager.write]

/-- The root screen goes on showing the stored address. -/
theorem ContentView.Step.shows {view view' : ContentView} {event : ContentView.Event}
    {e : AppEffect ContentView} (h : view.Step defaults event e) (hnext : e.next = .ok view')
    (hshows : view.walletAddress = defaults.walletAddress) :
    view'.walletAddress = (machine.writeAll defaults e.writes).walletAddress := by
  cases h with
  | signIn _ hstep =>
      cases signInStep_sound hstep with
      | noSession _ | noAccount _ => cases hnext
      | started =>
          obtain rfl := Except.ok.inj hnext
          split <;> exact hshows
      | registered | gotSession _ | gotAccount _ | executed | succeeded | failed | queried
      | noWallet _ | refreshed _ =>
          obtain rfl := Except.ok.inj hnext
          exact hshows
      | gotWallet _ =>
          obtain rfl := Except.ok.inj hnext
          rfl
  | refresh _ hstep =>
      obtain ⟨balance, refreshes, rfl⟩ := hstep.frame hnext
      cases hstep <;> exact hshows
  | fetchFailed _ => cases hnext
  | appeared =>
      obtain rfl := Except.ok.inj hnext
      rw [hshows]
      exact Option.or_self
  | fetched _ | signInTapped _ | pulledToRefresh | buyTapped _ _ _ _ | changeDelivered _ =>
      obtain rfl := Except.ok.inj hnext
      exact hshows

theorem ShowsStored.step (h : app.Step defaults action e) (hnext : e.next = .ok app')
    (hshows : ShowsStored defaults app) :
    ShowsStored (machine.writeAll defaults e.writes) app' := by
  have hother : (∀ event, action ≠ .content event) →
      (machine.writeAll defaults e.writes).walletAddress = defaults.walletAddress := by
    intro haction
    rcases h.acts.wallet_cases e.writes.length with ⟨-, hsame⟩ | ⟨_, _, _, hcontent, -⟩
    · rwa [List.take_length] at hsame
    · exact absurd hcontent (haction _)
  cases h with
  | content h =>
      obtain ⟨view', hview', rfl⟩ := Effect.map_next_ok hnext
      rw [ShowsStored, App.contentView_afterContent]
      exact h.shows hview' hshows
  | pass _ _ =>
      obtain ⟨after, -, rfl⟩ := Effect.map_next_ok hnext
      rw [ShowsStored, hother (by simp), App.afterPass]
      split <;> exact hshows
  | detail _ _ =>
      obtain ⟨after, -, rfl⟩ := Effect.map_next_ok hnext
      rw [ShowsStored, hother (by simp)]
      exact hshows
  | openDetail _ =>
      obtain rfl := Except.ok.inj hnext
      exact hshows

end Wallets

theorem showsStored_of_run {history : List Transit} {s : Installed}
    (run : Run machine.CrashStep freshInstall history s) :
    Holds (fun _ => True) ShowsStored s := by
  refine Machine.crash_run_holds ⟨trivial, fun _ hm => by cases hm⟩ ?_ ?_ run
  · intro defaults _
    rfl
  · intro defaults app action e _ hshows he
    exact ⟨fun _ => trivial, fun app' hnext => hshows.step (App.step_of_some he) hnext⟩

theorem WalletPaired.cut {history : List Transit} {s s' : Installed} {l : Label Action}
    {app : App} {action : Action} {e : AppEffect App} {k : Nat}
    (h : app.Acts s.stored action e)
    (hstored : s'.stored = machine.writeAll s.stored (e.writes.take k))
    (hlabel : l = .act action ∨ ∃ k, l = .kill action k)
    (hwhole : k = 1 → ∀ task outcome, action ≠ .content (.signIn task (.walletStatus outcome)))
    (hpaired : WalletPaired history s.stored) :
    WalletPaired (history ++ [⟨s, l, s'⟩]) s'.stored := by
  intro id address hid haddress
  rw [hstored] at hid haddress
  rcases h.wallet_cases k with ⟨hsameID, hsameAddress⟩ |
    ⟨task, outcome, wallet, rfl, hwallet, rfl | ⟨hnewID, hnewAddress⟩⟩
  · rw [hsameID] at hid
    rw [hsameAddress] at haddress
    exact exists_mem_concat.mpr (.inl (hpaired id address hid haddress))
  · exact absurd rfl (hwhole rfl task outcome)
  · obtain rfl := Option.some.inj (hnewID.symm.trans hid)
    obtain rfl := Option.some.inj (hnewAddress.symm.trans haddress)
    exact exists_mem_concat.mpr (.inr ⟨task, outcome, hwallet, hlabel⟩)

/-- Unless a process is killed between the two writes, the stored wallet is the
wallet of one answer. -/
theorem walletPaired_of_run {history : List Transit} {s : Installed}
    (run : Run machine.CrashStep freshInstall history s)
    (hwhole : ∀ e ∈ history, ¬ Splits e) : WalletPaired history s.stored := by
  revert hwhole
  refine run.history_rule
    (fun history s => (∀ e ∈ history, ¬ Splits e) → WalletPaired history s.stored) ?_ ?_
  · intro _ id address hid
    cases hid
  · intro history s l s' _ ih h hwhole
    have hpaired := ih fun e he => hwhole e (List.mem_append_left _ he)
    have hlast := hwhole _ (List.mem_append_right _ (List.mem_singleton_self _))
    cases h with
    | @kill d app action e k h _ =>
        refine hpaired.cut (acts_of_step h) rfl (.inr ⟨k, rfl⟩) ?_
        rintro rfl task outcome rfl
        exact hlast ⟨task, outcome, rfl⟩
    | whole h =>
        cases l with
        | act action =>
            obtain ⟨app, e, -, he, hstored, -⟩ := h.act_inv
            refine hpaired.cut (k := e.writes.length + 2) (acts_of_step he) ?_ (.inl rfl)
              (fun hk => absurd hk (by omega))
            rw [List.take_of_length_le (by omega)]
            exact hstored
        | terminate | launch | kill _ _ =>
            rw [WalletPaired, h.stored_eq (by simp)]
            intro id address hid haddress
            exact exists_mem_concat.mpr (.inl (hpaired id address hid haddress))

/-- A purchase names the stored wallet, by its id and by its address. -/
theorem App.Calls.buyPass {defaults : UserDefaultsManager} {app : App} {action : Action}
    {request : URLRequest} {model : ContractExecutionChallengeRequest}
    (h : app.Calls defaults action (.request request))
    (hbody : request.httpBody = some (.contractExecutionChallenge model))
    (hbuy : PremiumPassView.isBuyPass model) :
    ∃ address parameters, model.abiParameters = some (address :: parameters) ∧
      defaults.walletAddress = some address ∧ defaults.walletID = some model.walletId := by
  cases h with
  | registerUser _ _ | getSessionToken _ _ | initializeAccount _ _ _ | getWalletStatus _ _ _
  | getWalletBalance _ _ _ => cases hbody
  | transaction _ _ hcode hmodel =>
      obtain rfl := HTTPBody.contractExecutionChallenge.inj (Option.some.inj hbody)
      cases hcode with
      | deposit view =>
          exact absurd hbuy (ProtocolDetailView.depositRequestModel_not_buyPass hmodel)
      | mint view =>
          obtain ⟨-, -, hid⟩ := PremiumPassView.passRequestModel_spec hmodel
          obtain ⟨_, -, _, walletAddress, merkleRoot, nullifierHash, hmodel', -, -,
            hparameters⟩ := PremiumPassView.passRequestModel_carries hmodel
          obtain rfl := HTTPBody.contractExecutionChallenge.inj (Option.some.inj hmodel')
          exact ⟨walletAddress, _, hparameters,
            PremiumPassView.passRequestModel_address hmodel hparameters, hid⟩

/-- The wallet of the app is one wallet: the root screen shows its stored
address, and every purchase is sent for the id and the address of one wallet that
the Circle API answered with earlier. -/
def OneWallet (history : List Transit) (s : Installed) : Prop :=
  (∀ app, s.memory = some app → app.contentView.walletAddress = s.stored.walletAddress) ∧
    ∀ earlier e later request model, history = earlier ++ e :: later →
      Makes e (.request request) →
      request.httpBody = some (.contractExecutionChallenge model) →
      PremiumPassView.isBuyPass model →
      ∃ address parameters, model.abiParameters = some (address :: parameters) ∧
        ∃ b ∈ earlier, DeliversWallet ⟨model.walletId, address⟩ b

theorem oneWallet {history : List Transit} {s : Installed}
    (run : Run machine.CrashStep freshInstall history s)
    (hwhole : ∀ e ∈ history, ¬ Splits e) : OneWallet history s := by
  refine ⟨(showsStored_of_run run).2, ?_⟩
  rintro earlier e later request model rfl hmakes hbody hbuy
  obtain ⟨before, h⟩ := run.cut
  obtain ⟨app, action, effect, hmemory, hstep, hcall, -⟩ := hmakes.stored h
  obtain ⟨address, parameters, hparameters, haddress, hid⟩ :=
    (hstep.calls hcall).buyPass hbody hbuy
  have hpaired := walletPaired_of_run before
    fun b hb => hwhole b (List.mem_append_left _ hb)
  exact ⟨address, parameters, hparameters, hpaired _ _ hid haddress⟩

/-- A purchase after a restart. -/
theorem oneWallet_of_purchase :
    ∃ history s, Run machine.CrashStep freshInstall history s ∧
      (Installed.transaction? s (.mint 0 0)).map (·.sent.isSome) = some true ∧
      OneWallet history s := by
  have hend : (replay machine.performCrash freshInstall (signedInSchedule ++
      [.kill (.content .pullToRefresh) 0, .launch] ++ tapPurchaseSchedule ++
      (Flow.mint 0 0).schedule [.start "idempotency key"])).map (fun s =>
        (Installed.transaction? s (.mint 0 0)).map (·.sent.isSome)) = some (some true) := by
    decide
  obtain ⟨history, s, run, hlabels, hsent⟩ := exists_crash_run_of_schedule _ hend
  refine ⟨history, s, run, hsent, oneWallet run ?_⟩
  rintro e he ⟨task, outcome, hlabel⟩
  have hmem := label_mem hlabels he
  rw [hlabel] at hmem
  simp [signedInSchedule, signInSchedule, tapPurchaseSchedule, Flow.schedule] at hmem

end YieldMe
