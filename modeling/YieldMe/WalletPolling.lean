/-
  WalletPolling.lean --- the loop of `queryWalletStatus`.

  The loop asks for the wallets of the user until an answer lists one.  An answer
  without a wallet, nil or an empty list, leaves every setting and every view as
  it was and asks again; the first wallet of the first answer with one is stored
  with its own id and with the token of the challenge.

  Other tasks and the user may take steps between two answers, so the laws here
  are about every run of the process in which the loop receives these answers.
-/
import YieldMe.Flows
import YieldMe.Foundation.Loop
import YieldMe.Foundation.TaskTrace

set_option autoImplicit false

namespace YieldMe

open CircleNetworking ContentView Durable Loop Tasks Transition

/-! ## What a sign-in task receives and sends -/

/-- The outcome of `getWalletStatus` an event delivers. -/
def SignIn.Event.status? : SignIn.Event → Option (HTTPOutcome WalletStatusResponse)
  | .walletStatus outcome => some outcome
  | _ => none

/-- The outcomes of `getWalletStatus` a task received, oldest first. -/
def statuses (task : Nat) (history : List Transit) :
    List (HTTPOutcome WalletStatusResponse) :=
  (taskEvents (SignIn.event? task) history).filterMap (·.status?)

/-- The wallet the loop takes from an outcome, if it lists any. -/
def wallet? (outcome : HTTPOutcome WalletStatusResponse) : Option Wallet :=
  firstWallet (getWalletStatus.result outcome)

/-- The transition changes nothing but where the task stands. -/
def Waits (task : Nat) (challenge : CircleChallenge) (e : Transit) : Prop :=
  e.after.stored = e.before.stored ∧ ∃ app, e.before.memory = some app ∧
    e.after.memory =
      some { app with contentView := app.contentView.setSignIn task (.querying challenge) }

/-- The transition stores the wallet and the token, changes no other setting, and
the sign-in button is no longer loading. -/
def StoresWallet (task : Nat) (challenge : CircleChallenge) (wallet : Wallet) (e : Transit) :
    Prop :=
  e.after.stored = { e.before.stored with
    walletAddress := some wallet.address
    walletID := some wallet.id
    userToken := some challenge.userToken } ∧
  ∃ app view, e.before.memory = some app ∧ view = app.contentView.walletFound task wallet ∧
    view.isLoading = false ∧ e.after.memory = some { app with contentView := view }

/-- What the loop does in a history in which it finds the wallet with the outcome
at position `n`, or has not got so far. -/
structure PollsUntil (task : Nat) (challenge : CircleChallenge) (n : Nat) (wallet : Wallet)
    (history : List Transit) : Prop where
  bounded : (statuses task history).length ≤ n + 1
  asks : (statuses task history).length = n + 1 →
    machine.taskCalls (SignIn.event? task) history =
      List.replicate (n + 1) (.request (getWalletStatus.request challenge.userToken))
  waits : ∀ earlier e later, history = earlier ++ e :: later →
    (taskEvent? (SignIn.event? task) e).isSome → (statuses task (earlier ++ [e])).length ≤ n →
      Waits task challenge e
  stores : ∀ earlier e later outcome, history = earlier ++ e :: later →
    e.label = .act (.content (.signIn task (.walletStatus outcome))) →
    (statuses task earlier).length = n → StoresWallet task challenge wallet e

/-! ## One step of the task -/

/-- What the task of a sign-in received and sent since its loop was spawned, by
where it stands. -/
inductive Polled (challenge : CircleChallenge) :
    List (HTTPOutcome WalletStatusResponse) → List OutsideCall → SignIn → Prop
  | spawned : Polled challenge [] [] (.queryStarted challenge)
  | polling {received : List (HTTPOutcome WalletStatusResponse)}
      (hnone : AllRejected wallet? received) :
      Polled challenge received
        (List.replicate (received.length + 1)
          (.request (getWalletStatus.request challenge.userToken)))
        (.querying challenge)
  | left {received : List (HTTPOutcome WalletStatusResponse)}
      {last : HTTPOutcome WalletStatusResponse} {found : Wallet} {flow : SignIn}
      (hnone : AllRejected wallet? received) (hfound : wallet? last = some found)
      (hflow : (∃ refresh, flow = .refreshing refresh) ∨ flow = .ended) :
      Polled challenge (received ++ [last])
        (List.replicate (received.length + 1)
          (.request (getWalletStatus.request challenge.userToken)))
        flow

/-- A step of the task, wherever the loop stands, keeps what is known of it. -/
theorem Polled.step {challenge : CircleChallenge}
    {received : List (HTTPOutcome WalletStatusResponse)} {sent : List OutsideCall}
    {flow : SignIn} (hpolled : Polled challenge received sent flow)
    {defaults : UserDefaultsManager} {view : ContentView} {task : Nat} {event : SignIn.Event}
    {e : AppEffect ContentView} (h : view.SignInStep defaults task flow event e)
    (htask : view.signIns[task]? = some flow) :
    ∃ flow' view', Polled challenge (received ++ event.status?.toList) (sent ++ e.calls) flow' ∧
      e.next = .ok view' ∧ view'.signIns[task]? = some flow' := by
  cases hpolled with
  | spawned =>
      cases h with
      | queried =>
          exact ⟨_, _, .polling (fun _ hmem => by cases hmem), rfl,
            getElem?_set_of_some htask _⟩
  | polling hnone =>
      cases h with
      | noWallet hlast =>
          refine ⟨_, _, ?_, rfl, htask⟩
          have hpolling : Polled challenge _ _ _ := .polling (hnone.concat hlast)
          rwa [List.length_append, List.length_singleton, List.replicate_succ'] at hpolling
      | gotWallet hfound =>
          refine ⟨_, _, ?_, rfl, getElem?_set_of_some htask _⟩
          rw [List.append_nil]
          exact .left hnone hfound (.inl ⟨_, rfl⟩)
  | left hnone hfound hflow =>
      rcases hflow with ⟨refresh, rfl⟩ | rfl
      · cases h with
        | refreshed hended =>
            refine ⟨_, _, ?_, rfl, getElem?_set_of_some htask _⟩
            simp only [SignIn.Event.status?, Option.toList_none, List.append_nil, Effect.quiet]
            exact .left hnone hfound (.inr rfl)
      · cases h

section Answers

variable {challenge : CircleChallenge} {outcomes received : List (HTTPOutcome WalletStatusResponse)}
  {sent : List OutsideCall} {flow : SignIn} {n : Nat} {wallet : Wallet}

theorem Polled.length_le (hpolled : Polled challenge received sent flow)
    (hfirst : FirstAccepted wallet? outcomes n wallet) (hreceived : received <+: outcomes) :
    received.length ≤ n + 1 := by
  cases hpolled with
  | spawned => exact Nat.zero_le _
  | polling hnone => exact Nat.le_succ_of_le (hnone.length_le hfirst hreceived)
  | left hnone hfound _ =>
      rw [List.length_append, List.length_singleton,
        (hnone.length_eq hfirst hreceived hfound).1]

/-- The loop asked once for every outcome, and is over. -/
theorem Polled.sent_eq (hpolled : Polled challenge received sent flow)
    (hfirst : FirstAccepted wallet? outcomes n wallet) (hreceived : received <+: outcomes)
    (hlength : received.length = n + 1) :
    sent = List.replicate (n + 1) (.request (getWalletStatus.request challenge.userToken)) := by
  cases hpolled with
  | spawned => cases hlength
  | polling hnone =>
      have hle := hnone.length_le hfirst hreceived
      omega
  | left hnone hfound _ => rw [(hnone.length_eq hfirst hreceived hfound).1]

variable {defaults : UserDefaultsManager} {view : ContentView} {task : Nat}
  {event : SignIn.Event} {e : AppEffect ContentView}

/-- A step of the task up to the outcome before the first wallet. -/
theorem Polled.waits (hpolled : Polled challenge received sent flow)
    (h : view.SignInStep defaults task flow event e) (htask : view.signIns[task]? = some flow)
    (hfirst : FirstAccepted wallet? outcomes n wallet)
    (hreceived : received ++ event.status?.toList <+: outcomes)
    (hlength : (received ++ event.status?.toList).length ≤ n) :
    e.writes = [] ∧ e.next = .ok (view.setSignIn task (.querying challenge)) := by
  cases hpolled with
  | spawned =>
      cases h with
      | queried => exact ⟨rfl, rfl⟩
  | polling hnone =>
      cases h with
      | noWallet _ =>
          obtain ⟨hlt, hflow⟩ := List.getElem?_eq_some_iff.mp htask
          have hset : view.signIns.set task (.querying challenge) = view.signIns := by
            rw [← hflow, List.set_getElem_self]
          rw [setSignIn, hset]
          exact ⟨rfl, rfl⟩
      | gotWallet hfound =>
          have heq := (hnone.length_eq hfirst hreceived hfound).1
          rw [List.length_append, heq] at hlength
          exact absurd hlength (by simp [SignIn.Event.status?])
  | left hnone hfound _ =>
      have heq := (hnone.length_eq hfirst
        ((List.prefix_append _ _).trans hreceived) hfound).1
      rw [List.length_append, List.length_append, heq, List.length_singleton] at hlength
      omega

/-- The step of the task that receives the first wallet. -/
theorem Polled.stores (hpolled : Polled challenge received sent flow)
    {outcome : HTTPOutcome WalletStatusResponse}
    (h : view.SignInStep defaults task flow (.walletStatus outcome) e)
    (hfirst : FirstAccepted wallet? outcomes n wallet)
    (hreceived : received ++ [outcome] <+: outcomes) (hlength : received.length = n) :
    e.writes = walletWrites challenge wallet ∧ e.next = .ok (view.walletFound task wallet) := by
  cases hpolled with
  | spawned => cases h
  | polling hnone =>
      cases h with
      | noWallet hlast =>
          have hle := (hnone.concat hlast).length_le hfirst hreceived
          rw [List.length_append, hlength, List.length_singleton] at hle
          omega
      | gotWallet hfound =>
          obtain rfl := (hnone.length_eq hfirst hreceived hfound).2
          exact ⟨rfl, rfl⟩
  | left hnone hfound hflow =>
      rcases hflow with ⟨refresh, rfl⟩ | rfl <;> cases h

end Answers

/-! ## One process -/

section Process

variable {task : Nat}

/-- The event of a transition of a sign-in stands in its label. -/
theorem signInEvent?_eq_some {e : Transit} {event : SignIn.Event} :
    taskEvent? (SignIn.event? task) e = some event ↔
      e.label = .act (.content (.signIn task event)) := by
  rw [taskEvent?_eq_some]
  constructor
  · rintro ⟨action, hlabel, hevent⟩
    rw [hlabel, SignIn.event?_eq_some.mp hevent]
  · exact fun h => ⟨_, h, SignIn.event?_eq_some.mpr rfl⟩

theorem statuses_concat (history : List Transit) (e : Transit) :
    statuses task (history ++ [e]) = statuses task history ++
      ((taskEvent? (SignIn.event? task) e).bind (·.status?)).toList := by
  rw [statuses, taskEvents_concat, List.filterMap_append]
  cases h : taskEvent? (SignIn.event? task) e with
  | none => rfl
  | some event => cases hstatus : event.status? <;> simp [statuses, hstatus]

/-- What a task received can be read off the labels of a history. -/
theorem statuses_eq_of_labels {history : List Transit} {labels : List (Label Action)}
    (hlabels : history.map Edge.label = labels) :
    statuses task history =
      (labels.filterMap (labelEvent? (SignIn.event? task))).filterMap (·.status?) := by
  rw [← hlabels, List.filterMap_map]
  rfl

/-- A step of the task, seen from the process. -/
theorem signIn_step {e : Transit} (h : machine.Step e.before e.label e.after) {app : App}
    {flow : SignIn} {event : SignIn.Event} (hmemory : e.before.memory = some app)
    (htask : app.contentView.signIns[task]? = some flow)
    (hevent : taskEvent? (SignIn.event? task) e = some event) :
    ∃ inner, app.contentView.SignInStep e.before.stored task flow event inner ∧
      machine.callsAt e = inner.calls ∧
      e.after.stored = machine.writeAll e.before.stored inner.writes ∧
      ∀ view, inner.next = .ok view →
        e.after.memory = some { app with contentView := view } := by
  have hlabel := signInEvent?_eq_some.mp hevent
  rw [hlabel] at h
  obtain ⟨effect, heffect, hstored, hafter⟩ := h.act_of_memory hmemory
  have hcalls : machine.callsAt e = effect.calls := by
    rw [Machine.callsAt, hmemory, hlabel]
    simp only [heffect, Option.map_some, Option.getD_some]
  cases App.step_of_some heffect with
  | content h =>
      cases h with
      | signIn htask' hstep =>
          obtain rfl := Option.some.inj (htask.symm.trans htask')
          refine ⟨_, signInStep_sound hstep, hcalls, hstored, fun view hnext => ?_⟩
          rw [hafter, Effect.map, hnext]
          rfl

/-- In every run of one process the task received and sent what the place it
stands at says. -/
theorem polled_of_run {s t : Installed} {app : App} {challenge : CircleChallenge}
    {history : List Transit} (run : Run machine.Step s history t)
    (hmemory : s.memory = some app)
    (htask : app.contentView.signIns[task]? = some (.queryStarted challenge))
    (hacts : ∀ e ∈ history, ∃ action, e.label = .act action) :
    ∃ flow, Polled challenge (statuses task history)
      (machine.taskCalls (SignIn.event? task) history) flow ∧
      ∀ app', t.memory = some app' → app'.contentView.signIns[task]? = some flow := by
  revert hacts
  refine run.history_rule (fun history t => (∀ e ∈ history, ∃ action, e.label = .act action) →
    ∃ flow, Polled challenge (statuses task history)
      (machine.taskCalls (SignIn.event? task) history) flow ∧
      ∀ app', t.memory = some app' → app'.contentView.signIns[task]? = some flow) ?_ ?_
  · intro _
    refine ⟨_, .spawned, fun app' hmemory' => ?_⟩
    rw [hmemory] at hmemory'
    rwa [← Option.some.inj hmemory']
  · intro history t label t' _ ih h hacts
    obtain ⟨flow, hpolled, hstands⟩ := ih fun e he => hacts e (List.mem_append_left _ he)
    obtain ⟨action, hlabel⟩ := hacts _ (List.mem_append_right _ (List.mem_singleton_self _))
    obtain rfl : label = .act action := hlabel
    obtain ⟨now, effect, hnow, heffect, -, hafter⟩ := h.act_inv
    rw [statuses_concat, taskCalls_concat]
    cases hevent : taskEvent? (SignIn.event? task) ⟨t, .act action, t'⟩ with
    | none =>
        refine ⟨flow, by simpa using hpolled, fun app' hmemory' => ?_⟩
        refine (acts_of_step heffect).signIn_kept ((hafter app').mp hmemory') (hstands now hnow) ?_
        rintro event rfl
        rw [signInEvent?_eq_some.mpr rfl] at hevent
        cases hevent
    | some event =>
        obtain ⟨inner, hstep, hcalls, -, hnext⟩ :=
          signIn_step (e := ⟨t, .act action, t'⟩) h hnow (hstands now hnow) hevent
        obtain ⟨flow', view', hpolled', hview', htask'⟩ := hpolled.step hstep (hstands now hnow)
        refine ⟨flow', ?_, fun app' hmemory' => ?_⟩
        · rw [Option.bind_some, Option.isSome_some, if_pos rfl, hcalls]
          exact hpolled'
        · rw [hnext view' hview'] at hmemory'
          rwa [← Option.some.inj hmemory']

/-- In every run of one process in which the task receives these outcomes, the
loop asks up to the first wallet, changes nothing before it, and stores it. -/
theorem pollsUntil_of_run {s t : Installed} {app : App} {challenge : CircleChallenge}
    {history : List Transit} (run : Run machine.Step s history t)
    (hmemory : s.memory = some app)
    (htask : app.contentView.signIns[task]? = some (.queryStarted challenge))
    (hacts : ∀ e ∈ history, ∃ action, e.label = .act action)
    {outcomes : List (HTTPOutcome WalletStatusResponse)} {n : Nat} {wallet : Wallet}
    (hfirst : FirstAccepted wallet? outcomes n wallet)
    (hreceived : statuses task history <+: outcomes) :
    PollsUntil task challenge n wallet history := by
  obtain ⟨flow, hpolled, -⟩ := polled_of_run run hmemory htask hacts
  have hbefore : ∀ earlier e later, history = earlier ++ e :: later →
      machine.Step e.before e.label e.after ∧ (statuses task (earlier ++ [e]) <+: outcomes) ∧
        ∃ now flow, Polled challenge (statuses task earlier)
            (machine.taskCalls (SignIn.event? task) earlier) flow ∧
          e.before.memory = some now ∧ now.contentView.signIns[task]? = some flow := by
    rintro earlier e later rfl
    obtain ⟨before, h⟩ := run.cut
    obtain ⟨flow, hpolled, hstands⟩ := polled_of_run before hmemory htask
      fun e he => hacts e (List.mem_append_left _ he)
    obtain ⟨action, hlabel⟩ := hacts e (List.mem_append_right _ List.mem_cons_self)
    have hact := h
    rw [hlabel] at hact
    obtain ⟨now, -, hnow, -⟩ := hact.act_inv
    refine ⟨h, ?_, now, flow, hpolled, hnow, hstands now hnow⟩
    rw [List.append_cons, statuses, taskEvents, List.filterMap_append,
      List.filterMap_append] at hreceived
    exact (List.prefix_append _ _).trans hreceived
  refine ⟨hpolled.length_le hfirst hreceived, hpolled.sent_eq hfirst hreceived, ?_, ?_⟩
  · intro earlier e later hsplit hmoved hlength
    obtain ⟨h, hreceived, now, flow, hpolled, hnow, hstands⟩ := hbefore earlier e later hsplit
    obtain ⟨event, hevent⟩ := Option.isSome_iff_exists.mp hmoved
    rw [statuses_concat, hevent, Option.bind_some] at hreceived hlength
    obtain ⟨inner, hstep, -, hstored, hnext⟩ := signIn_step h hnow hstands hevent
    obtain ⟨hwrites, hview⟩ := hpolled.waits hstep hstands hfirst hreceived hlength
    rw [hwrites] at hstored
    exact ⟨hstored, now, hnow, hnext _ hview⟩
  · intro earlier e later outcome hsplit hlabel hlength
    obtain ⟨h, hreceived, now, flow, hpolled, hnow, hstands⟩ := hbefore earlier e later hsplit
    have hevent := signInEvent?_eq_some.mpr hlabel
    rw [statuses_concat, hevent, Option.bind_some] at hreceived
    obtain ⟨inner, hstep, -, hstored, hnext⟩ := signIn_step h hnow hstands hevent
    obtain ⟨hwrites, hview⟩ := hpolled.stores hstep hfirst hreceived hlength
    rw [hwrites] at hstored
    exact ⟨hstored, now, _, hnow, rfl, rfl, hnext _ hview⟩

end Process

/-! ## The loop alone -/

/-- The task runs with nothing else in between: the outcomes, and the call of
`refreshBalance` with this number, which gets an answer. -/
def pollingSchedule (task refresh : Nat)
    (outcomes : List (HTTPOutcome WalletStatusResponse))
    (answer : HTTPOutcome WalletBalanceResponse) : List (Label Action) :=
  signInSchedule task (.queryStart :: outcomes.map .walletStatus) ++
  [.act (.content (.refresh refresh .start)),
    .act (.content (.refresh refresh (.response answer))),
    .act (.content (.signIn task .refreshed))]

section Alone

variable {defaults : UserDefaultsManager} {app : App} {task : Nat} {challenge : CircleChallenge}

theorem step_signIn {flow : SignIn} {event : SignIn.Event} {writes : List SettingsWrite}
    {calls : List OutsideCall} {view : ContentView}
    (htask : app.contentView.signIns[task]? = some flow)
    (hstep : app.contentView.signInStep defaults task flow event =
      some ⟨writes, calls, .ok view⟩) :
    machine.Step ⟨defaults, some app⟩ (.act (.content (.signIn task event)))
      ⟨machine.writeAll defaults writes, some { app with contentView := view }⟩ := by
  have heffect : machine.step defaults app (.content (.signIn task event)) =
      some ⟨writes, calls, .ok { app with contentView := view }⟩ := by
    simp [machine, App.step, ContentView.step, htask, hstep, Effect.map, App.afterContent,
      Except.map]
  exact .act heffect

theorem step_refresh {refresh : Nat} {stage : Refresh} {event : Refresh.Event}
    {calls : List OutsideCall} {view : ContentView}
    (htask : app.contentView.refreshes[refresh]? = some stage)
    (hstep : app.contentView.refreshBalance defaults refresh stage event =
      some ⟨[], calls, .ok view⟩) :
    machine.Step ⟨defaults, some app⟩ (.act (.content (.refresh refresh event)))
      ⟨defaults, some { app with contentView := view }⟩ := by
  have heffect : machine.step defaults app (.content (.refresh refresh event)) =
      some ⟨[], calls, .ok { app with contentView := view }⟩ := by
    simp [machine, App.step, ContentView.step, htask, hstep, Effect.map, App.afterContent,
      Except.map]
  exact .act heffect

variable (defaults app) in
/-- Any number of outcomes without a wallet leaves the app as it is. -/
theorem run_polling (htask : app.contentView.signIns[task]? = some (.querying challenge))
    (outcomes : List (HTTPOutcome WalletStatusResponse)) :
    AllRejected wallet? outcomes → ∃ history,
      Run machine.Step ⟨defaults, some app⟩ history ⟨defaults, some app⟩ ∧
        history.map Edge.label = signInSchedule task (outcomes.map .walletStatus) := by
  induction outcomes with
  | nil => exact fun _ => ⟨[], .nil, rfl⟩
  | cons outcome rest ih =>
      intro hnone
      obtain ⟨history, run, hlabels⟩ := ih fun o ho => hnone o (List.mem_cons_of_mem _ ho)
      have hrejected := hnone outcome List.mem_cons_self
      unfold wallet? at hrejected
      have hstep : app.contentView.signInStep defaults task (.querying challenge)
          (.walletStatus outcome) =
            some ⟨[], [.request (getWalletStatus.request challenge.userToken)],
              .ok app.contentView⟩ := by
        simp only [signInStep, hrejected]
      refine ⟨_, run.cons (step_signIn htask hstep), ?_⟩
      rw [List.map_cons, hlabels]
      rfl

variable (defaults app) in
/-- The outcome with the first wallet ends the polling. -/
theorem step_walletFound (htask : app.contentView.signIns[task]? = some (.querying challenge))
    {outcome : HTTPOutcome WalletStatusResponse} {wallet : Wallet}
    (hwallet : wallet? outcome = some wallet) :
    machine.Step ⟨defaults, some app⟩ (.act (.content (.signIn task (.walletStatus outcome))))
      ⟨machine.writeAll defaults (walletWrites challenge wallet),
        some { app with contentView := app.contentView.walletFound task wallet }⟩ := by
  unfold wallet? at hwallet
  have hstep : app.contentView.signInStep defaults task (.querying challenge)
      (.walletStatus outcome) = some ⟨walletWrites challenge wallet, [],
        .ok (app.contentView.walletFound task wallet)⟩ := by
    simp only [signInStep, hwallet]
  exact step_signIn htask hstep

variable (defaults) in
/-- An answer, whatever it is, ends the call of `refreshBalance` and nothing else. -/
theorem refreshBalance_response (view : ContentView) (refresh : Nat)
    (answer : HTTPOutcome WalletBalanceResponse) :
    ∃ balance, view.refreshBalance defaults refresh .requesting (.response answer) =
      some ⟨[], [], .ok (setRefresh { view with balance := balance } refresh .ended)⟩ := by
  cases hanswer : getWalletBalance.result answer with
  | none =>
      refine ⟨view.balance, ?_⟩
      simp only [refreshBalance, hanswer]
      rfl
  | some response =>
      refine ⟨balanceAfter view.balance response.tokenBalances, ?_⟩
      simp only [refreshBalance, hanswer]
      rfl

/-- The loop is left once the call of `refreshBalance` it awaits is over. -/
theorem run_refreshing {refresh : Nat} {walletID userToken : String}
    (hid : defaults.walletID = some walletID) (htoken : defaults.userToken = some userToken)
    (hrefresh : app.contentView.refreshes[refresh]? = some .started)
    (htask : app.contentView.signIns[task]? = some (.refreshing refresh))
    (answer : HTTPOutcome WalletBalanceResponse) {start : Installed} {history : List Transit}
    (run : Run machine.Step start history ⟨defaults, some app⟩) :
    ∃ history' app', Run machine.Step start history' ⟨defaults, some app'⟩ ∧
      history'.map Edge.label = history.map Edge.label ++
        [.act (.content (.refresh refresh .start)),
          .act (.content (.refresh refresh (.response answer))),
          .act (.content (.signIn task .refreshed))] ∧
      app'.contentView.isLoading = app.contentView.isLoading ∧
      app'.contentView.signIns[task]? = some .ended := by
  have hstart : app.contentView.refreshBalance defaults refresh .started .start =
      some ⟨[], [.request (getWalletBalance.request userToken walletID)],
        .ok (app.contentView.setRefresh refresh .requesting)⟩ := by
    simp only [refreshBalance, hid, htoken]
  have hrequesting := getElem?_set_of_some hrefresh .requesting
  obtain ⟨balance, hresponse⟩ := refreshBalance_response defaults
    (app.contentView.setRefresh refresh .requesting) refresh answer
  have hended := getElem?_set_of_some hrequesting .ended
  have hleft : (setRefresh { app.contentView.setRefresh refresh .requesting with
      balance := balance } refresh .ended).signInStep defaults task (.refreshing refresh)
        .refreshed = some ⟨[], [], .ok ((setRefresh
          { app.contentView.setRefresh refresh .requesting with
            balance := balance } refresh .ended).setSignIn task .ended)⟩ :=
    if_pos hended
  have run := ((run.snoc (step_refresh hrefresh hstart)).snoc
    (step_refresh hrequesting hresponse)).snoc (step_signIn htask hleft)
  exact ⟨_, _, run, by simp, rfl, getElem?_set_of_some htask _⟩

variable (defaults) in
/-- The loop can take its course up to the first wallet and beyond. -/
theorem exists_polling_run {outcomes : List (HTTPOutcome WalletStatusResponse)} {n : Nat}
    {wallet : Wallet} (htask : app.contentView.signIns[task]? = some (.queryStarted challenge))
    (hfirst : FirstAccepted wallet? outcomes n wallet)
    (answer : HTTPOutcome WalletBalanceResponse) :
    ∃ history t app', Run machine.Step ⟨defaults, some app⟩ history t ∧
      history.map Edge.label =
        pollingSchedule task app.contentView.refreshes.length (outcomes.take (n + 1)) answer ∧
      t.stored = { defaults with
        walletAddress := some wallet.address
        walletID := some wallet.id
        userToken := some challenge.userToken } ∧
      t.memory = some app' ∧ app'.contentView.isLoading = false ∧
      app'.contentView.signIns[task]? = some .ended := by
  obtain ⟨hnone, outcome, hat, hwallet⟩ := hfirst
  have hquery : machine.Step ⟨defaults, some app⟩
      (.act (.content (.signIn task .queryStart))) _ := step_signIn htask rfl
  have hquerying := getElem?_set_of_some htask (.querying challenge)
  obtain ⟨history, hpolling, hlabels⟩ := run_polling defaults
    { app with contentView := app.contentView.setSignIn task (.querying challenge) }
    hquerying (outcomes.take n) hnone
  have hfound := step_walletFound defaults
    { app with contentView := app.contentView.setSignIn task (.querying challenge) }
    hquerying hwallet
  obtain ⟨history', app', run, hlabels', hloading, hended⟩ := run_refreshing rfl rfl
    List.getElem?_concat_length (getElem?_set_of_some hquerying _) answer
    ((hpolling.cons hquery).snoc hfound)
  refine ⟨history', _, app', run, ?_, rfl, rfl, hloading, hended⟩
  rw [hlabels', List.take_add_one, hat]
  simp [pollingSchedule, signInSchedule, hlabels, setSignIn]

end Alone

/-- The schedule delivers these outcomes to the task. -/
theorem statuses_pollingSchedule {task refresh : Nat}
    {outcomes : List (HTTPOutcome WalletStatusResponse)}
    {answer : HTTPOutcome WalletBalanceResponse} {history : List Transit}
    (hlabels : history.map Edge.label = pollingSchedule task refresh outcomes answer) :
    statuses task history = outcomes := by
  rw [statuses_eq_of_labels hlabels, pollingSchedule, signInSchedule]
  simp [List.filterMap_map, Function.comp_def, labelEvent?, SignIn.event?, SignIn.Event.status?]

theorem pollingSchedule_acts {task refresh : Nat}
    {outcomes : List (HTTPOutcome WalletStatusResponse)}
    {answer : HTTPOutcome WalletBalanceResponse} :
    ∀ label ∈ pollingSchedule task refresh outcomes answer, ∃ action, label = .act action := by
  intro label hlabel
  rcases List.mem_append.mp hlabel with hsignIn | hrefresh
  · obtain ⟨event, -, rfl⟩ := List.mem_map.mp hsignIn
    exact ⟨_, rfl⟩
  · simp only [List.mem_cons, List.not_mem_nil, or_false] at hrefresh
    rcases hrefresh with rfl | rfl | rfl <;> exact ⟨_, rfl⟩

/-- From the moment its task is spawned, the polling loop stores the first wallet
of the first answer that lists one, and nothing before it.  Alone it asks for
every answer up to that one and ends; and in every run of the process in which it
receives these answers it does the same. -/
theorem polling_stores_first_wallet {s : Installed} {app : App} {task : Nat}
    {challenge : CircleChallenge} (hmemory : s.memory = some app)
    (htask : app.contentView.signIns[task]? = some (.queryStarted challenge))
    {outcomes : List (HTTPOutcome WalletStatusResponse)} {n : Nat} {wallet : Wallet}
    (hfirst : FirstAccepted wallet? outcomes n wallet) :
    (∀ answer, ∃ history t app', Run machine.Step s history t ∧
      history.map Edge.label =
        pollingSchedule task app.contentView.refreshes.length (outcomes.take (n + 1)) answer ∧
      machine.taskCalls (SignIn.event? task) history =
        List.replicate (n + 1) (.request (getWalletStatus.request challenge.userToken)) ∧
      t.stored = { s.stored with
        walletAddress := some wallet.address
        walletID := some wallet.id
        userToken := some challenge.userToken } ∧
      t.memory = some app' ∧ app'.contentView.isLoading = false ∧
      app'.contentView.signIns[task]? = some .ended) ∧
    ∀ history t, Run machine.Step s history t →
      (∀ e ∈ history, ∃ action, e.label = .act action) →
      statuses task history <+: outcomes → PollsUntil task challenge n wallet history := by
  constructor
  · intro answer
    rcases s with ⟨defaults, memory⟩
    obtain rfl : memory = some app := hmemory
    obtain ⟨history, t, app', run, hlabels, hend⟩ :=
      exists_polling_run defaults htask hfirst answer
    have hreceived := statuses_pollingSchedule hlabels
    have hacts : ∀ e ∈ history, ∃ action, e.label = .act action := fun e he =>
      pollingSchedule_acts _ (label_mem hlabels he)
    have hpolls := pollsUntil_of_run run rfl htask hacts hfirst
      (hreceived ▸ List.take_prefix (n + 1) outcomes)
    refine ⟨history, t, app', run, hlabels, hpolls.asks ?_, hend⟩
    obtain ⟨-, outcome, hat, -⟩ := hfirst
    obtain ⟨hlt, -⟩ := List.getElem?_eq_some_iff.mp hat
    rw [hreceived, List.length_take, Nat.min_eq_left hlt]
  · intro history t run hacts hreceived
    exact pollsUntil_of_run run hmemory htask hacts hfirst hreceived

/-- A failed answer, an empty list, then two wallets. -/
theorem polling_stores_first_wallet_of_third :
    ∃ (earlier history : List Transit) (s t : Installed),
      Run machine.Step freshInstall earlier s ∧ Run machine.Step s history t ∧
      machine.taskCalls (SignIn.event? 0) history =
        List.replicate 3 (.request (getWalletStatus.request "token")) ∧
      t.stored = { uuid := some "uuid"
                   userToken := some "token"
                   encryptionKey := some "key"
                   walletAddress := some "address"
                   walletID := some "id" } := by
  have hend : (replay machine.perform freshInstall ([.launch, .act (.content .tapSignIn)] ++
      signInSchedule 0 (SignIn.untilQuery ⟨"token", "key"⟩).dropLast)).map (fun s =>
        (s.stored, s.memory.bind (·.contentView.signIns[0]?))) =
      some ({ uuid := some "uuid", userToken := some "token", encryptionKey := some "key" },
        some (.queryStarted ⟨"token", "key", "challenge"⟩)) := by
    decide
  obtain ⟨earlier, s, run, -, hend⟩ := exists_run_of_schedule _ hend
  obtain ⟨hstored, htask⟩ := Prod.mk.inj hend
  obtain ⟨app, hmemory, htask⟩ := Option.bind_eq_some_iff.mp htask
  have hfirst : FirstAccepted wallet? [.error, .response 200 (some ⟨[]⟩),
      .response 200 (some ⟨[⟨"id", "address"⟩, ⟨"other id", "other address"⟩]⟩)]
      2 ⟨"id", "address"⟩ :=
    ⟨by simp [AllRejected, wallet?, getWalletStatus.result, decoded, firstWallet], _, rfl, rfl⟩
  have hpolling := polling_stores_first_wallet hmemory htask hfirst
  obtain ⟨history, t, app', run', -, hcalls, ht, -⟩ := hpolling.1 .error
  refine ⟨earlier, history, s, t, run, run', hcalls, ?_⟩
  rw [ht, hstored]

end YieldMe
