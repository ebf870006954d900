/-
  SignedIn.lean --- what is stored together, across the death of the process.

  Signing in stores four settings, one by one, in two functions.  No step ever
  removes one of them, so the credentials written first are there when the
  wallet is; but the address of the wallet is written before its id, and a
  process killed between the two leaves a device that looks signed in and has no
  wallet id.

  Of the pass, what a purchase and a deposit need is enough: both unwrap the
  wallet id before they send anything, and the id is written after the address.
-/
import YieldMe.Flows

set_option autoImplicit false

namespace YieldMe

open CircleNetworking ContentView Durable Tasks Transition

/-! ## A sign-in -/

/-- The task holds credentials that were stored. -/
def SignIn.pastSession : SignIn → Bool
  | .signingIn _ => true
  | .executing _ => true
  | .queryStarted _ => true
  | .querying _ => true
  | _ => false

/-- Once past the session, a task has stored both credentials. -/
theorem SignInStep.pastSession {defaults : UserDefaultsManager} {view view' : ContentView}
    {task : Nat} {flow flow' : SignIn} {event : SignIn.Event} {e : AppEffect ContentView}
    (h : view.SignInStep defaults task flow event e)
    (htask : view.signIns[task]? = some flow) (hnext : e.next = .ok view')
    (htask' : view'.signIns[task]? = some flow') (hpast : flow'.pastSession = true) :
    flow.pastSession = true ∨ ∃ session, e.writes = sessionWrites session := by
  cases h with
  | noSession _ | noAccount _ => cases hnext
  | gotAccount _ => exact .inr ⟨_, rfl⟩
  | executed | succeeded | queried | noWallet _ | gotWallet _ => exact .inl rfl
  | _ =>
      have hinj := Except.ok.inj hnext
      subst hinj
      have hinj := eq_of_getElem?_set htask htask'
      subst hinj
      cases hpast

/-- Signed in, with everything the rest of the app unwraps. -/
def UserDefaultsManager.AllOrNothing (defaults : UserDefaultsManager) : Prop :=
  defaults.walletAddress.isSome →
    defaults.walletID.isSome ∧ defaults.userToken.isSome ∧ defaults.encryptionKey.isSome

/-- A process is killed after the first of the three writes of
`queryWalletStatus`, on a device that has no wallet id yet. -/
def Tears (e : Transit) : Prop :=
  e.before.stored.walletID = none ∧
    ∃ task outcome, e.label = .kill (.content (.signIn task (.walletStatus outcome))) 1

/-- The tasks past their session know that both credentials are stored. -/
def SessionsStored (defaults : UserDefaultsManager) (app : App) : Prop :=
  app.AllSignIns fun flow => flow.pastSession = true →
    defaults.userToken.isSome ∧ defaults.encryptionKey.isSome

section SignIns

variable {defaults : UserDefaultsManager} {app : App} {action : Action} {e : AppEffect App}

theorem SessionsStored.boot : SessionsStored defaults (App.boot defaults) := by
  intro task flow htask
  simp [App.boot, ContentView.initial] at htask

theorem sessionWrites_stored (defaults : UserDefaultsManager)
    (session : SessionTokenResponse) :
    (machine.writeAll defaults (sessionWrites session)).userToken.isSome ∧
      (machine.writeAll defaults (sessionWrites session)).encryptionKey.isSome :=
  ⟨rfl, rfl⟩

theorem SessionsStored.acts {app' : App} (h : app.Acts defaults action e)
    (hnext : e.next = .ok app') (hsessions : SessionsStored defaults app) :
    SessionsStored (machine.writeAll defaults e.writes) app' := by
  refine h.signIns hnext ?_ ?_ ?_ hsessions
  · intro flow hflow hpast
    obtain ⟨htoken, hkey⟩ := hflow hpast
    exact ⟨h.keeps_all.userToken htoken, h.keeps_all.encryptionKey hkey⟩
  · intro hpast
    cases hpast
  · intro task flow event inner view' flow' _ htask hflow hstep hwrites hview' htask' hpast
    rcases SignInStep.pastSession hstep htask hview' htask' hpast with hpast | ⟨session, hsession⟩
    · obtain ⟨htoken, hkey⟩ := hflow hpast
      exact ⟨h.keeps_all.userToken htoken, h.keeps_all.encryptionKey hkey⟩
    · rw [hwrites, hsession]
      exact sessionWrites_stored defaults session

/-- Every cut through the writes of a step keeps a device all or nothing, except
between the address of a wallet and its id. -/
theorem App.Acts.allOrNothing (h : app.Acts defaults action e)
    (hsessions : SessionsStored defaults app) (hall : defaults.AllOrNothing) (k : Nat)
    (hcut : k = 1 → defaults.walletID = none →
      ∀ task outcome, action ≠ .content (.signIn task (.walletStatus outcome))) :
    (machine.writeAll defaults (e.writes.take k)).AllOrNothing := by
  have hkeeps := h.keeps k
  by_cases haddress : defaults.walletAddress.isSome
  · -- where the address was stored before, so was the rest
    intro _
    obtain ⟨hid, htoken, hkey⟩ := hall haddress
    exact ⟨hkeeps.walletID hid, hkeeps.userToken htoken, hkeeps.encryptionKey hkey⟩
  have hunchanged : (∀ w ∈ e.writes, ∀ d : UserDefaultsManager,
      (d.write w).walletAddress = d.walletAddress) →
      (machine.writeAll defaults (e.writes.take k)).AllOrNothing := by
    intro hwrite hstored
    have hsame := machine.writeAll_take_of_forall
      (fun d => d.walletAddress = defaults.walletAddress)
      (fun d w hw hd => (hwrite w hw d).trans hd) k defaults rfl
    rw [hsame] at hstored
    exact absurd hstored haddress
  have hwrites := h.writes
  generalize e.writes = writes at hunchanged hwrites hkeeps
  cases hwrites with
  | nothing => exact hunchanged fun w hw => by cases hw
  | uuid _ | pass _ _ _ =>
      apply hunchanged
      intro w hw d
      have hinj := List.mem_singleton.mp hw
      subst hinj
      rfl
  | session _ _ =>
      apply hunchanged
      intro w hw d
      simp only [sessionWrites, List.mem_cons, List.not_mem_nil, or_false] at hw
      rcases hw with rfl | rfl <;> rfl
  | @wallet task challenge wallet outcome haction htask _ =>
      intro hstored
      obtain ⟨htoken, hkey⟩ := hsessions task _ htask rfl
      refine ⟨?_, hkeeps.userToken htoken, hkeeps.encryptionKey hkey⟩
      rcases k with _ | _ | k
      · exact absurd hstored haddress
      · refine hkeeps.walletID (Option.isSome_iff_ne_none.mpr fun hnone => ?_)
        exact hcut rfl hnone task outcome haction
      · rcases k with _ | k <;> simp [walletWrites, UserDefaultsManager.write]

end SignIns

/-- Until a process is killed between the address and the id of a wallet, a
device is all or nothing. -/
theorem allOrNothing_of_not_tears {history : List Transit} {s : Installed}
    (run : Run machine.CrashStep freshInstall history s)
    (hwhole : ∀ e ∈ history, ¬ Tears e) :
    Holds UserDefaultsManager.AllOrNothing SessionsStored s := by
  refine run.invariant_under (fun e => ¬ Tears e)
    (Holds UserDefaultsManager.AllOrNothing SessionsStored) ?_ ?_ hwhole
  · exact ⟨fun hstored => absurd hstored (by decide), fun _ hm => by cases hm⟩
  · intro s l s' hs h hcut
    refine h.holds (fun _ _ => .boot) ?_ ?_ hs
    · intro app action e _ _ hsessions he
      have hacts := acts_of_step he
      refine ⟨?_, fun app' hnext => hsessions.acts hacts hnext⟩
      have hall := hacts.allOrNothing hsessions hs.1 (e.writes.length + 2)
        (fun h _ => absurd h (by omega))
      rwa [List.take_of_length_le (by omega)] at hall
    · intro app action e k _ hl hsessions he _
      apply (acts_of_step he).allOrNothing hsessions hs.1 k
      rintro rfl hnone task outcome rfl
      exact hcut ⟨hnone, task, outcome, hl⟩

/-- A torn sign-in is stored as such. -/
theorem not_allOrNothing_of_tears {e : Transit}
    (h : machine.CrashStep e.before e.label e.after) (htears : Tears e) :
    ¬ e.after.stored.AllOrNothing := by
  obtain ⟨⟨d, m⟩, l, s'⟩ := e
  obtain ⟨hnone, task, outcome, rfl⟩ := htears
  cases h with
  | whole h => cases h
  | @kill d app action e k h hk =>
      have hwrites := (acts_of_step h).writes
      intro hall
      generalize e.writes = writes at hwrites hk hall
      cases hwrites with
      | nothing => simp at hk
      | uuid haction | session haction _ => cases haction
      | pass haction _ _ => exact absurd haction.symm (Flow.action_ne_content _ _ _)
      | wallet _ _ _ =>
          have hid : d.walletID.isSome := (hall rfl).1
          rw [show d.walletID = none from hnone] at hid
          cases hid

/-- Being signed in is all or nothing after every step of a run exactly when no
process of the run is killed between the address of a wallet and its first id. -/
theorem allOrNothing_iff {history : List Transit} {s : Installed}
    (run : Run machine.CrashStep freshInstall history s) :
    (∀ e ∈ history, e.after.stored.AllOrNothing) ↔ ∀ e ∈ history, ¬ Tears e := by
  constructor
  · intro hall e he htears
    obtain ⟨_, _, _, _, h⟩ := run.of_mem he
    exact not_allOrNothing_of_tears h htears (hall e he)
  · intro hwhole e he
    obtain ⟨upto, hrun, hsub⟩ := run.upto he
    exact (allOrNothing_of_not_tears hrun fun e' he' => hwhole e' (hsub e' he')).1

theorem allOrNothing_of_sign_in :
    ∃ (history : List Transit) (s : Installed),
      Run machine.CrashStep freshInstall history s ∧
        s.stored.walletAddress = some "address" ∧
        ∀ e ∈ history, e.after.stored.AllOrNothing := by
  have hend : (replay machine.performCrash freshInstall (signedInSchedule ++
      [.kill (.content .pullToRefresh) 0, .launch])).map
        (fun s => s.stored.walletAddress) = some (some "address") := by
    decide
  obtain ⟨history, s, run, hlabels, haddress⟩ := exists_crash_run_of_schedule _ hend
  refine ⟨history, s, run, haddress, (allOrNothing_iff run).mpr ?_⟩
  rintro e he ⟨-, task, outcome, hlabel⟩
  have hmem := label_mem hlabels he
  rw [hlabel] at hmem
  simp [signedInSchedule, signInSchedule] at hmem

/-- A process killed after the address of the first wallet is stored. -/
def tornSchedule : List (Label Action) :=
  [.launch, .act (.content .tapSignIn)] ++
  signInSchedule 0 (SignIn.untilQuery ⟨"token", "key"⟩) ++
  [.kill (.content (.signIn 0 (SignIn.walletResponse ⟨"id", "address"⟩))) 1, .launch]

theorem not_always_allOrNothing :
    ¬ ∀ (history : List Transit) (s : Installed),
      Run machine.CrashStep freshInstall history s → s.stored.AllOrNothing := by
  intro hall
  have hend : (replay machine.performCrash freshInstall tornSchedule).map
      (fun s => (s.stored.walletAddress, s.stored.walletID)) =
        some (some "address", none) := by
    decide
  obtain ⟨history, s, run, -, hstored⟩ := exists_crash_run_of_schedule _ hend
  obtain ⟨haddress, hid⟩ := Prod.mk.inj hstored
  have hstored := (hall history s run (by rw [haddress]; rfl)).1
  rw [hid] at hstored
  cases hstored

/-! ## What a pass holder has -/

/-- A pass comes with a wallet id, a wallet id with an address. -/
def PassHasWallet (defaults : UserDefaultsManager) : Prop :=
  (defaults.purchasedPass = true → defaults.walletID.isSome) ∧
    (defaults.walletID.isSome → defaults.walletAddress.isSome)

/-- A transaction task that sent its request found a wallet id. -/
def SentWithWallet (defaults : UserDefaultsManager) (app : App) : Prop :=
  app.AllTransactions fun _ t => t.stage ≠ .started → defaults.walletID.isSome

section Pass

variable {defaults : UserDefaultsManager} {app app' : App} {action : Action}
  {e : AppEffect App}

theorem SentWithWallet.acts (h : app.Acts defaults action e) (hnext : e.next = .ok app')
    (hsent : SentWithWallet defaults app) :
    SentWithWallet (machine.writeAll defaults e.writes) app' := by
  refine h.transactions hnext ?_ ?_ ?_ hsent
  · intro _ t ht hstage
    exact h.keeps_all.walletID (ht hstage)
  · intro _ hstage
    exact absurd rfl hstage
  · intro flow t code event inner t' _ _ hcode ht hstep _ ht' _
    apply h.keeps_all.walletID
    cases hstep with
    | trapped _ _ => cases ht'
    | requested _ hmodel =>
        rw [hcode.walletID_of_requestModel hmodel]
        rfl
    | returned hstage | passed hstage _ | executed hstage | completed hstage =>
        apply ht
        rw [hstage]
        simp

theorem App.Acts.passHasWallet (h : app.Acts defaults action e)
    (hsent : SentWithWallet defaults app) (hpass : PassHasWallet defaults) (k : Nat) :
    PassHasWallet (machine.writeAll defaults (e.writes.take k)) := by
  have hwrites := h.writes
  generalize e.writes = writes at hwrites
  cases hwrites with
  | nothing => simpa using hpass
  | uuid _ =>
      refine machine.writeAll_take_of_forall PassHasWallet (fun d w hw hd => ?_) k _ hpass
      have hinj := List.mem_singleton.mp hw
      subst hinj
      exact hd
  | session _ _ =>
      refine machine.writeAll_take_of_forall PassHasWallet (fun d w hw hd => ?_) k _ hpass
      simp only [sessionWrites, List.mem_cons, List.not_mem_nil, or_false] at hw
      rcases hw with rfl | rfl <;> exact hd
  | @pass flow t challenge _ htask hstage =>
      have hid : defaults.walletID.isSome := by
        apply hsent flow t htask
        rw [hstage]
        simp
      rcases k with _ | k
      · exact hpass
      · rw [List.take_of_length_le (by simp)]
        exact ⟨fun _ => hid, hpass.2⟩
  | wallet _ _ _ =>
      -- the address is stored before the id
      rcases k with _ | _ | k
      · exact hpass
      · exact ⟨hpass.1, fun _ => rfl⟩
      · rcases k with _ | k <;>
          simp [PassHasWallet, walletWrites, UserDefaultsManager.write]

end Pass

theorem passHasWallet_of_run {history : List Transit} {s : Installed}
    (run : Run machine.CrashStep freshInstall history s) :
    Holds PassHasWallet SentWithWallet s := by
  refine Machine.crash_run_holds ?_ ?_ ?_ run
  · exact ⟨⟨fun h => absurd h (by decide), fun h => absurd h (by decide)⟩, fun _ hm => by cases hm⟩
  · intro defaults _ flow t ht
    simp [machine] at ht
  · intro defaults app action e hpass hsent he
    have hacts := acts_of_step he
    exact ⟨hacts.passHasWallet hsent hpass, fun app' hnext => hsent.acts hacts hnext⟩

/-- In every reachable state a stored pass comes with a wallet id and a wallet
address, and a tap of the comment button never stops at the unwrap of the
address: nothing stops it but a greatest comment id without a successor. -/
theorem pass_holder_has_wallet {history : List Transit} {s : Installed}
    (run : Run machine.CrashStep freshInstall history s) :
    (s.stored.purchasedPass = true →
      s.stored.walletID.isSome ∧ s.stored.walletAddress.isSome) ∧
    ∀ app index view e trap, s.memory = some app → app.detailViews[index]? = some view →
      machine.step s.stored app (.detail index .tapPostComment) = some e →
      e.next = .error trap →
      trap = .commentId ∧ (view.comments.map (·.id)).max? = some Int64.maxValue := by
  obtain ⟨hid, haddress⟩ := (passHasWallet_of_run run).1
  refine ⟨fun hpass => ⟨hid hpass, haddress (hid hpass)⟩, ?_⟩
  intro app index view e trap _ hview he htrap
  obtain ⟨view', hview', he⟩ := Option.bind_eq_some_iff.mp he
  obtain rfl : view = view' := Option.some.inj (hview.symm.trans hview')
  obtain ⟨inner, hinner, rfl⟩ := Option.map_eq_some_iff.mp he
  simp only [ProtocolDetailView.step] at hinner
  split at hinner
  · rename_i hshown
    have hinj := Option.some.inj hinner
    subst hinj
    simp only [Bool.and_eq_true] at hshown
    have hstored := haddress (hid hshown.1.2)
    rcases ProtocolDetailView.postComment_trap (Effect.map_next_error htrap) with
      hoverflow | ⟨-, hnone⟩
    · exact hoverflow
    · rw [hnone] at hstored
      cases hstored
  · cases hinner

theorem pass_holder_has_wallet_of_purchase :
    ∃ history s, Run machine.CrashStep freshInstall history s ∧
      s.stored.purchasedPass = true ∧ s.stored.walletID.isSome ∧
      s.stored.walletAddress.isSome := by
  have hend : (replay machine.performCrash freshInstall
      (signedInSchedule ++ tapPurchaseSchedule ++
        (Flow.mint 0 0).schedule (Transaction.untilCompletion ++ [.completion .success]))).map
      (fun s => s.stored.purchasedPass) = some true := by
    decide
  obtain ⟨history, s, run, -, hpass⟩ := exists_crash_run_of_schedule _ hend
  obtain ⟨hid, haddress⟩ := (pass_holder_has_wallet run).1 hpass
  exact ⟨history, s, run, hpass, hid, haddress⟩

end YieldMe
