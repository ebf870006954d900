/-
  Balance.lean --- the balance shown and the answers it comes from.

  The calls of `refreshBalance` are numbered in the order they are made, by a
  pull to refresh or by a sign-in that found its wallet.  Any number of them may
  await a response at once, and each one that gets a response with a USDC entry
  assigns the balance, whatever was assigned before.

  So the balance is the amount of the answer that arrived last, and that is the
  amount of the newest refresh exactly when arrival did not put an older refresh
  last.
-/
import YieldMe.Flows

set_option autoImplicit false

namespace YieldMe

open CircleNetworking ContentView Durable Tasks Transition

/-! ## Answers -/

/-- A response that names an amount of USDC: the call of `refreshBalance` that
receives it, and the amount. -/
structure Answer where
  refresh : Nat
  amount : String
  deriving DecidableEq, Repr

/-- The amount of the USDC entry of a response, the last one if there are
several. -/
def usdcAmount? (tokenBalances : List TokenBalance) : Option String :=
  (tokenBalances.filter (·.symbol = "USDC")).getLast?.map (·.amount)

/-- The answer an action delivers. -/
def Action.answer? : Action → Option Answer
  | .content (.refresh task (.response outcome)) =>
      ((getWalletBalance.result outcome).bind fun response =>
        usdcAmount? response.tokenBalances).map (Answer.mk task)
  | _ => none

/-- The answer a transition delivers. -/
def Label.answer? : Label Action → Option Answer
  | .act action => action.answer?
  | _ => none

/-- The answers of a process, in the order of their arrival. -/
def answers (process : List Transit) : List Answer :=
  process.filterMap fun e => Label.answer? e.label

/-- The answer of the newest refresh that has one. -/
def IsNewest (answers : List Answer) (newest : Answer) : Prop :=
  newest ∈ answers ∧ ∀ answer ∈ answers, answer.refresh ≤ newest.refresh

/-- The balance is the amount of the newest answered refresh, or the initial one. -/
def ShowsNewest (answers : List Answer) (balance : String) : Prop :=
  (answers = [] → balance = "0") ∧
    ∀ newest, IsNewest answers newest → balance = newest.amount

/-- The answer that arrives last carries the amount of the newest one. -/
def LastCarriesNewest (answers : List Answer) : Prop :=
  ∀ last newest, answers.getLast? = some last → IsNewest answers newest →
    last.amount = newest.amount

@[simp] theorem answers_concat (process : List Transit) (s s' : Installed)
    (action : Action) : answers (process ++ [⟨s, .act action, s'⟩]) =
      answers process ++ action.answer?.toList := by
  rw [answers, List.filterMap_append]
  cases h : action.answer? <;> simp [answers, Label.answer?, h]

/-- The answers of a process are among those its schedule delivers. -/
theorem mem_answers_of_schedule {history : List Transit} {schedule : List (Label Action)}
    (hlabels : history.map Edge.label = schedule) {answer : Answer}
    (hanswer : answer ∈ answers (currentProcess history)) :
    answer ∈ schedule.filterMap Label.answer? := by
  obtain ⟨e, he, hdelivers⟩ := List.mem_filterMap.mp hanswer
  exact List.mem_filterMap.mpr
    ⟨e.label, label_mem hlabels (mem_of_mem_currentProcess he), hdelivers⟩

/-! ## The balance -/

/-- The loop of `refreshBalance` leaves the amount of the last USDC entry. -/
theorem ContentView.balanceAfter_eq (balance : String) (tokenBalances : List TokenBalance) :
    balanceAfter balance tokenBalances = (usdcAmount? tokenBalances).getD balance := by
  induction tokenBalances using List.reverseRecOn with
  | nil => rfl
  | append_singleton tokenBalances token ih =>
      unfold balanceAfter at ih ⊢
      rw [List.foldl_append, ih]
      by_cases husdc : token.symbol = "USDC" <;> simp [usdcAmount?, husdc]

/-- A step of the root screen changes the balance by the answer it delivers, and
in no other way. -/
theorem ContentView.Step.balance_eq {defaults : UserDefaultsManager}
    {view view' : ContentView} {event : ContentView.Event} {e : AppEffect ContentView}
    (h : view.Step defaults event e) (hnext : e.next = .ok view') :
    view'.balance = ((Action.content event).answer?.map (·.amount)).getD view.balance := by
  cases h with
  | fetchFailed _ => cases hnext
  | signIn _ hstep =>
      rcases (signInStep_sound hstep).frame hnext with ⟨challenge, wallet, -, rfl⟩ |
        ⟨toast, signIns, rfl⟩ <;> rfl
  | refresh _ hstep =>
      cases hstep with
      | @answered _ response hresult =>
          have hinj := Except.ok.inj hnext
          subst hinj
          rw [Action.answer?, hresult, Option.bind_some, Option.map_map]
          rw [setRefresh, balanceAfter_eq]
          cases usdcAmount? response.tokenBalances <;> rfl
      | noAnswer hresult =>
          have hinj := Except.ok.inj hnext
          subst hinj
          rw [Action.answer?, hresult]
          rfl
      | requested _ _ | noWallet _ =>
          have hinj := Except.ok.inj hnext
          subst hinj
          rfl
  | _ =>
      have hinj := Except.ok.inj hnext
      subst hinj
      rfl

theorem App.Step.balance_eq {defaults : UserDefaultsManager} {app app' : App}
    {action : Action} {e : AppEffect App} (h : app.Step defaults action e)
    (hnext : e.next = .ok app') :
    app'.contentView.balance =
      (action.answer?.map (·.amount)).getD app.contentView.balance := by
  cases h with
  | content hstep =>
      obtain ⟨view, hview, rfl⟩ := Effect.map_next_ok hnext
      rw [contentView_afterContent]
      exact hstep.balance_eq hview
  | detail _ _ =>
      obtain ⟨view, -, rfl⟩ := Effect.map_next_ok hnext
      rfl
  | openDetail _ =>
      have hinj := Except.ok.inj hnext
      subst hinj
      rfl
  | pass _ _ =>
      obtain ⟨view, -, rfl⟩ := Effect.map_next_ok hnext
      unfold afterPass
      split <;> rfl

/-- The balance is the amount of the answer that arrived last. -/
theorem balance_eq_last {history : List Transit} {s : Installed}
    (run : Run machine.Step freshInstall history s) {app : App}
    (hmemory : s.memory = some app) :
    app.contentView.balance =
      ((answers (currentProcess history)).getLast?.map (·.amount)).getD "0" := by
  refine Machine.run_process_rule (fun process _ app => app.contentView.balance =
    ((answers process).getLast?.map (·.amount)).getD "0") rfl ?_ ?_ run hmemory
  · intro defaults
    rfl
  · intro process s action s' app effect app' _ _ hbalance heffect hnext
    rw [(App.step_of_some heffect).balance_eq hnext, hbalance, answers_concat]
    cases action.answer? with
    | none => simp
    | some answer => simp

/-! ## The newest answer -/

/-- Answers that arrive in the order of their refreshes end with the newest. -/
theorem LastCarriesNewest.of_inOrder {answers : List Answer}
    (horder : answers.Pairwise fun first second => first.refresh < second.refresh) :
    LastCarriesNewest answers := by
  rintro last newest hlast ⟨hmem, hgreatest⟩
  obtain ⟨init, rfl⟩ := List.getLast?_eq_some_iff.mp hlast
  rcases List.mem_append.mp hmem with hinit | hnewest
  · have hlt := (List.pairwise_append.mp horder).2.2 newest hinit last
      (List.mem_singleton_self last)
    have hle := hgreatest last (List.mem_append_right _ (List.mem_singleton_self last))
    omega
  · rw [List.mem_singleton.mp hnewest]

/-- In every state of a run the balance is that of the newest answered refresh
exactly when the answer that arrived last in the running process carries the
amount of the newest one. -/
theorem showsNewest_iff {history : List Transit} {s : Installed}
    (run : Run machine.Step freshInstall history s) {app : App}
    (hmemory : s.memory = some app) :
    ShowsNewest (answers (currentProcess history)) app.contentView.balance ↔
      LastCarriesNewest (answers (currentProcess history)) := by
  have hbalance := balance_eq_last run hmemory
  generalize answers (currentProcess history) = arrived at hbalance
  rw [hbalance]
  constructor
  · rintro ⟨-, hnewest⟩ last newest hlast hisNewest
    rw [← hnewest newest hisNewest, hlast]
    rfl
  · intro hcarries
    refine ⟨fun hnone => by rw [hnone]; rfl, fun newest hisNewest => ?_⟩
    have hne : arrived ≠ [] := List.ne_nil_of_mem hisNewest.1
    have hlast := List.getLast?_eq_some_getLast hne
    rw [hlast]
    exact hcarries _ newest hlast hisNewest

/-- A call of `refreshBalance` sends its request. -/
def startRefresh (task : Nat) : Label Action := .act (.content (.refresh task .start))

/-- A call of `refreshBalance` gets a response with one entry. -/
def answerRefresh (task : Nat) (amount : String) : Label Action :=
  .act (.content (.refresh task (.response (.response 200 (some ⟨[⟨"USDC", amount⟩]⟩)))))

/-- Two refreshes are sent, before either is answered. -/
def twoRefreshesSchedule : List (Label Action) :=
  signedInSchedule ++ [startRefresh 0, .act (.content .pullToRefresh), startRefresh 1]

/-- The two answers that end the schedule are the answers of its process. -/
theorem answers_of_twoRefreshes {history : List Transit} {i j : Nat} {first second : String}
    (hlabels : history.map Edge.label =
      twoRefreshesSchedule ++ [answerRefresh i first, answerRefresh j second]) :
    answers (currentProcess history) = [⟨i, first⟩, ⟨j, second⟩] := by
  obtain ⟨earlier, later, rfl, hearlier, hlater⟩ := List.map_eq_append_iff.mp hlabels
  obtain ⟨e, rest, rfl, he, hrest⟩ := List.map_eq_cons_iff.mp hlater
  obtain ⟨e', rest', rfl, he', hrest'⟩ := List.map_eq_cons_iff.mp hrest
  obtain rfl := List.map_eq_nil_iff.mp hrest'
  obtain ⟨before, _, after⟩ := e
  obtain rfl := he
  obtain ⟨before', _, after'⟩ := e'
  obtain rfl := he'
  have hnone : answers (currentProcess earlier) = [] := by
    rw [List.eq_nil_iff_forall_not_mem]
    intro answer hanswer
    have hmem := mem_answers_of_schedule hearlier hanswer
    simp [twoRefreshesSchedule, signedInSchedule, signInSchedule, SignIn.untilQuery,
      SignIn.walletResponse, startRefresh, Label.answer?, Action.answer?] at hmem
  have hdelivers : ∀ task amount, (Action.content (.refresh task (.response
      (.response 200 (some ⟨[⟨"USDC", amount⟩]⟩))))).answer? = some ⟨task, amount⟩ := by
    intro task amount
    simp [Action.answer?, getWalletBalance.result, decoded, usdcAmount?]
  rw [List.append_cons, answerRefresh, answerRefresh, currentProcess_act, currentProcess_act,
    answers_concat, answers_concat, hnone, hdelivers, hdelivers]
  rfl

/-- Two refreshes, answered in the order of their calls. -/
theorem showsNewest_of_refreshes :
    ∃ history s app, Run machine.Step freshInstall history s ∧ s.memory = some app ∧
      answers (currentProcess history) = [⟨0, "1"⟩, ⟨1, "2"⟩] ∧
      app.contentView.balance = "2" ∧
      ShowsNewest (answers (currentProcess history)) app.contentView.balance := by
  have hend : (replay machine.perform freshInstall (twoRefreshesSchedule ++
      [answerRefresh 0 "1", answerRefresh 1 "2"])).map (fun s =>
        s.memory.map (·.contentView.balance)) = some (some "2") := by
    decide
  obtain ⟨history, s, run, hlabels, hbalance⟩ := exists_run_of_schedule _ hend
  obtain ⟨app, hmemory, hbalance⟩ := Option.map_eq_some_iff.mp hbalance
  have hanswers := answers_of_twoRefreshes hlabels
  refine ⟨history, s, app, run, hmemory, hanswers, hbalance,
    (showsNewest_iff run hmemory).mpr (.of_inOrder ?_)⟩
  rw [hanswers]
  simp

/-- A response is nil or has exactly one USDC entry. -/
def Label.oneUsdc : Label Action → Bool
  | .act (.content (.refresh _ (.response outcome))) =>
      match getWalletBalance.result outcome with
      | none => true
      | some response =>
          decide ((response.tokenBalances.filter (·.symbol = "USDC")).length = 1)
  | _ => true

/-- No refresh is pending. -/
def ContentView.Quiet (view : ContentView) : Prop :=
  ∀ refresh ∈ view.refreshes, refresh = .ended

theorem not_always_showsNewest :
    ¬ ∀ (history : List Transit) (s : Installed) (app : App),
      Run machine.Step freshInstall history s → (∀ e ∈ history, Label.oneUsdc e.label = true) →
        s.memory = some app → app.contentView.Quiet →
          ShowsNewest (answers (currentProcess history)) app.contentView.balance := by
  intro hall
  have hend : (replay machine.perform freshInstall (twoRefreshesSchedule ++
      [answerRefresh 1 "2", answerRefresh 0 "1"])).map (fun s =>
        s.memory.map fun app => (app.contentView.refreshes, app.contentView.balance)) =
      some (some ([.ended, .ended], "1")) := by
    decide
  obtain ⟨history, s, run, hlabels, hend⟩ := exists_run_of_schedule _ hend
  obtain ⟨app, hmemory, hend⟩ := Option.map_eq_some_iff.mp hend
  obtain ⟨hrefreshes, hbalance⟩ := Prod.mk.inj hend
  have hone : ∀ label ∈ twoRefreshesSchedule ++ [answerRefresh 1 "2", answerRefresh 0 "1"],
      Label.oneUsdc label = true := by
    decide
  have hshown := hall history s app run (fun e he => hone _ (label_mem hlabels he)) hmemory
    (by
      rw [ContentView.Quiet, hrefreshes]
      simp)
  rw [answers_of_twoRefreshes hlabels] at hshown
  have hnewest := hshown.2 ⟨1, "2"⟩ (by simp [IsNewest])
  rw [hbalance] at hnewest
  exact absurd hnewest (by decide)

/-! ## One refresh -/

/-- The balance shown, if a process runs. -/
def Installed.balance? (s : Installed) : Option String :=
  s.memory.map (·.contentView.balance)

/-- The response lists USDC. -/
def HasUsdc (response : WalletBalanceResponse) : Prop :=
  ∃ token ∈ response.tokenBalances, token.symbol = "USDC"

/-- What a balance says about the wallet a response describes: the amount of its
USDC, or nothing of it. -/
def ShowsResponse (response : WalletBalanceResponse) (balance : String) : Prop :=
  (∀ token ∈ response.tokenBalances, token.symbol = "USDC" → balance = token.amount) ∧
    (¬ HasUsdc response → balance = "0")

/-- After a response, one process shows what it says, and another the same. -/
structure DependsOnResponse (response : WalletBalanceResponse) (after after' : Installed) :
    Prop where
  shows : ∃ balance, after.balance? = some balance ∧ ShowsResponse response balance
  same : after.balance? = after'.balance?

theorem usdcAmount?_eq_none_iff {response : WalletBalanceResponse} :
    usdcAmount? response.tokenBalances = none ↔ ¬ HasUsdc response := by
  simp [usdcAmount?, HasUsdc]

/-- The amount of a response with one USDC entry is the one of that entry. -/
theorem usdcAmount?_of_mem {response : WalletBalanceResponse}
    (hone : (response.tokenBalances.filter (·.symbol = "USDC")).length ≤ 1)
    {token : TokenBalance} (hmem : token ∈ response.tokenBalances)
    (husdc : token.symbol = "USDC") :
    usdcAmount? response.tokenBalances = some token.amount := by
  have hfilter : token ∈ response.tokenBalances.filter (·.symbol = "USDC") :=
    List.mem_filter.mpr ⟨hmem, by simpa using husdc⟩
  obtain ⟨only, hlist⟩ := List.length_eq_one_iff.mp
    (Nat.le_antisymm hone (List.length_pos_of_mem hfilter))
  rw [hlist, List.mem_singleton] at hfilter
  rw [usdcAmount?, hlist, hfilter]
  rfl

/-- A response leaves its amount of USDC, or the balance that was there. -/
theorem balance?_of_response {before after : Installed} {task : Nat}
    {outcome : HTTPOutcome WalletBalanceResponse} {response : WalletBalanceResponse}
    (h : machine.Step before (.act (.content (.refresh task (.response outcome)))) after)
    (hresult : getWalletBalance.result outcome = some response) :
    ∃ balance, before.balance? = some balance ∧
      after.balance? = some ((usdcAmount? response.tokenBalances).getD balance) := by
  obtain ⟨app, effect, hmemory, heffect, -, hafter⟩ := h.act_inv
  refine ⟨app.contentView.balance, by rw [Installed.balance?, hmemory]; rfl, ?_⟩
  have hstep := App.step_of_some heffect
  have hnext : ∃ app', effect.next = .ok app' := by
    cases hstep with
    | content hstep =>
        cases hstep with
        | refresh _ hstep => cases hstep <;> exact ⟨_, rfl⟩
  obtain ⟨app', hnext⟩ := hnext
  rw [Installed.balance?, (hafter app').mpr hnext, Option.map_some, hstep.balance_eq hnext,
    Action.answer?, hresult, Option.bind_some, Option.map_map]
  cases usdcAmount? response.tokenBalances <;> rfl

/-- What a process shows after a response depends on the response alone exactly
when the response lists USDC, or the balance shown before was already zero. -/
theorem dependsOnResponse_iff {before after before' after' : Installed} {task task' : Nat}
    {outcome : HTTPOutcome WalletBalanceResponse} {response : WalletBalanceResponse}
    (hresult : getWalletBalance.result outcome = some response)
    (hone : (response.tokenBalances.filter (·.symbol = "USDC")).length ≤ 1)
    (h : machine.Step before (.act (.content (.refresh task (.response outcome)))) after)
    (h' : machine.Step before' (.act (.content (.refresh task' (.response outcome))))
      after') :
    DependsOnResponse response after after' ↔
      HasUsdc response ∨ before.balance? = some "0" ∧ before'.balance? = some "0" := by
  obtain ⟨balance, hbefore, hafter⟩ := balance?_of_response h hresult
  obtain ⟨balance', hbefore', hafter'⟩ := balance?_of_response h' hresult
  by_cases husdc : HasUsdc response
  · obtain ⟨token, hmem, hsymbol⟩ := husdc
    have hamount := usdcAmount?_of_mem hone hmem hsymbol
    rw [hamount, Option.getD_some] at hafter hafter'
    have hshows : ShowsResponse response token.amount := by
      refine ⟨fun other hother hsymbol' => ?_, fun hnone => absurd ⟨token, hmem, hsymbol⟩ hnone⟩
      exact Option.some.inj (hamount.symm.trans (usdcAmount?_of_mem hone hother hsymbol'))
    exact iff_of_true ⟨⟨token.amount, hafter, hshows⟩, hafter.trans hafter'.symm⟩
      (.inl ⟨token, hmem, hsymbol⟩)
  · rw [usdcAmount?_eq_none_iff.mpr husdc, Option.getD_none] at hafter hafter'
    rw [hbefore, hbefore']
    constructor
    · rintro ⟨⟨shown, hshown, hshows⟩, hsame⟩
      obtain rfl := Option.some.inj (hafter.symm.trans hshown)
      rw [hafter, hafter'] at hsame
      obtain rfl := hshows.2 husdc
      exact .inr ⟨rfl, hsame.symm⟩
    · rintro (hlisted | ⟨hzero, hzero'⟩)
      · exact absurd hlisted husdc
      · refine ⟨⟨balance, hafter, fun token hmem hsymbol => ?_, fun _ => ?_⟩, ?_⟩
        · exact absurd ⟨token, hmem, hsymbol⟩ husdc
        · exact Option.some.inj hzero
        · rw [hafter, hafter', hzero, hzero']

/-- A first refresh shows `amount`, and a second one sends its request. -/
def secondRefreshSchedule (amount : String) : List (Label Action) :=
  signedInSchedule ++
  [startRefresh 0, answerRefresh 0 amount, .act (.content .pullToRefresh), startRefresh 1]

theorem dependsOnResponse_of_usdc :
    ∃ (history history' : List Transit) (before after before' after' : Installed),
      Run machine.Step freshInstall history before ∧
      Run machine.Step freshInstall history' before' ∧
      before.balance? = some "1" ∧ before'.balance? = some "3" ∧
      machine.Step before (answerRefresh 1 "2") after ∧
      machine.Step before' (answerRefresh 1 "2") after' ∧
      DependsOnResponse ⟨[⟨"USDC", "2"⟩]⟩ after after' := by
  have hend : ∀ amount ∈ ["1", "3"],
      ((replay machine.perform freshInstall (secondRefreshSchedule amount)).bind fun s =>
        (machine.perform s (answerRefresh 1 "2")).map fun _ => Installed.balance? s) =
          some (some amount) := by
    decide
  obtain ⟨history, before, after, run, -, h, hbefore⟩ :=
    exists_step_of_schedule _ (hend "1" (by decide))
  obtain ⟨history', before', after', run', -, h', hbefore'⟩ :=
    exists_step_of_schedule _ (hend "3" (by decide))
  refine ⟨history, history', before, after, before', after', run, run', hbefore, hbefore', h,
    h', (dependsOnResponse_iff rfl (by decide) h h').mpr (.inl ?_)⟩
  exact ⟨⟨"USDC", "2"⟩, List.mem_singleton_self _, rfl⟩

/-- A balance that was shown stays when the next response lists no USDC. -/
theorem not_always_dependsOnResponse :
    ¬ ∀ (history history' : List Transit) (before after before' after' : Installed)
      (task task' : Nat) (outcome : HTTPOutcome WalletBalanceResponse)
      (response : WalletBalanceResponse),
      Run machine.Step freshInstall history before →
      Run machine.Step freshInstall history' before' →
      getWalletBalance.result outcome = some response →
      (response.tokenBalances.filter (·.symbol = "USDC")).length ≤ 1 →
      machine.Step before (.act (.content (.refresh task (.response outcome)))) after →
      machine.Step before' (.act (.content (.refresh task' (.response outcome)))) after' →
        DependsOnResponse response after after' := by
  intro hall
  have hend : ((replay machine.perform freshInstall (secondRefreshSchedule "1")).bind fun s =>
      (machine.perform s (.act (.content (.refresh 1
        (.response (.response 200 (some ⟨[]⟩))))))).map fun s' => Installed.balance? s') =
          some (some "1") := by
    decide
  obtain ⟨history, before, after, run, -, h, hafter⟩ := exists_step_of_schedule _ hend
  have hdepends := hall history history before after before after 1 1 _ ⟨[]⟩ run run rfl
    (Nat.zero_le 1) h h
  obtain ⟨shown, hshown, hshows⟩ := hdepends.shows
  obtain rfl := Option.some.inj (hafter.symm.trans hshown)
  exact absurd (hshows.2 (by simp [HasUsdc])) (by decide)

end YieldMe
