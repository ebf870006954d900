/-
  Failures.lean --- calls to the outside that fail.

  Five calls of the sign-in, the lists and the World ID session are answered by
  a forced unwrap, a `try!` or a Rust `unwrap()`.  A step stops the process at
  one of them exactly when it is handed the failure of its call, so a run
  survives the outside exactly as long as none of these calls fails.
-/
import YieldMe.Flows

set_option autoImplicit false

namespace YieldMe

open CircleNetworking ContentView Durable Transition

/-! ## Failed calls -/

/-- A forced unwrap, `try!` or `unwrap()` of what an outside call gave. -/
def Trap.isOutside : Trap → Bool
  | .sessionToken | .account | .session | .poll | .getDocuments => true
  | _ => false

/-- The sign-in is handed a nil session token or a nil account. -/
def SignIn.Event.fails : SignIn.Event → Bool
  | .sessionToken outcome _ => (getSessionToken.result outcome).isNone
  | .account outcome => (initializeAccount.result outcome).isNone
  | _ => false

/-- The root screen is handed the failure of a call. -/
def ContentView.Event.fails : ContentView.Event → Bool
  | .signIn _ event => event.fails
  | .fetchedProtocols documents => documents.isNone
  | _ => false

/-- A World ID session is handed an error of `Session::new` or of
`poll_for_status`. -/
def PremiumPassView.Event.fails : PremiumPassView.Event → Bool
  | .worldCoin _ (.start outcome _) => outcome.isNone
  | .worldCoin _ (.poll outcome) => outcome.isNone
  | _ => false

/-- The page is handed an error of `getDocuments()`. -/
def ProtocolDetailView.Event.fails : ProtocolDetailView.Event → Bool
  | .fetchedComments documents => documents.isNone
  | _ => false

/-- The process is handed the failure of a call. -/
def Action.fails : Action → Bool
  | .content event => event.fails
  | .pass _ event => event.fails
  | .detail _ event => event.fails
  | .openDetail _ => false

/-- A failed call is delivered. -/
def Label.fails : Label Action → Bool
  | .act action => action.fails
  | _ => false

/-- Every value stored before is stored unchanged. -/
structure UserDefaultsManager.Unchanged (before after : UserDefaultsManager) : Prop where
  uuid : before.uuid.isSome → after.uuid = before.uuid
  purchasedPass : after.purchasedPass = before.purchasedPass
  encryptionKey : before.encryptionKey.isSome → after.encryptionKey = before.encryptionKey
  userToken : before.userToken.isSome → after.userToken = before.userToken
  walletAddress : before.walletAddress.isSome → after.walletAddress = before.walletAddress
  walletID : before.walletID.isSome → after.walletID = before.walletID

/-- No step of a run is stopped by what an outside call gave, and no step of a
sign-in that is handed a failure, up to that failure, changes a stored value. -/
def FailuresHandled (history : List Transit) : Prop :=
  ∀ earlier e later, history = earlier ++ e :: later →
    (∀ app action effect trap, Performs e app action effect →
      effect.next = .error trap → trap.isOutside = false) ∧
    ∀ task event, e.label = .act (.content (.signIn task event)) → event.fails = true →
      ∀ b ∈ currentProcess earlier ++ [e],
        (∃ inner, b.label = .act (.content (.signIn task inner))) →
          b.before.stored.Unchanged b.after.stored

/-! ## Where a step traps -/

/-- The step is stopped by what an outside call gave. -/
def TrapsOutside {μ : Type} (e : AppEffect μ) : Prop :=
  ∃ trap, e.next = .error trap ∧ trap.isOutside = true

@[simp] theorem TrapsOutside.error_iff {μ : Type} {writes : List SettingsWrite}
    {calls : List OutsideCall} {trap : Trap} :
    TrapsOutside (⟨writes, calls, .error trap⟩ : AppEffect μ) ↔ trap.isOutside = true := by
  constructor
  · rintro ⟨_, htrap, houtside⟩
    rwa [Except.error.inj htrap]
  · intro houtside
    exact ⟨trap, rfl, houtside⟩

@[simp] theorem TrapsOutside.ok_iff {μ : Type} {writes : List SettingsWrite}
    {calls : List OutsideCall} {m : μ} :
    TrapsOutside (⟨writes, calls, .ok m⟩ : AppEffect μ) ↔ False := by
  constructor
  · rintro ⟨trap, htrap, -⟩
    cases htrap
  · exact False.elim

@[simp] theorem TrapsOutside.map_iff {μ ν : Type} {f : μ → ν} {e : AppEffect μ} :
    TrapsOutside (e.map f) ↔ TrapsOutside e := by
  rcases e with ⟨writes, calls, trap | m⟩ <;> simp [Effect.map, Except.map]

/-- A transaction task unwraps nothing an outside call gave. -/
theorem Transaction.Step.not_trapsOutside {code : TransactionCode}
    {defaults : UserDefaultsManager} {t : Transaction} {event : Transaction.Event}
    {e : AppEffect Transaction} (h : t.Step code defaults event e)
    (hcode : ∀ key trap, code.requestModel defaults key = .error trap →
      trap.isOutside = false) : ¬ TrapsOutside e := by
  cases h with
  | trapped _ hmodel =>
      rw [Effect.trap, TrapsOutside.error_iff, hcode _ _ hmodel]
      simp
  | _ => exact TrapsOutside.ok_iff.mp

theorem ContentView.Step.trapsOutside_iff {defaults : UserDefaultsManager}
    {view : ContentView} {event : ContentView.Event} {e : AppEffect ContentView}
    (h : view.Step defaults event e) : TrapsOutside e ↔ event.fails = true := by
  cases h with
  | signIn _ hstep =>
      cases signInStep_sound hstep <;>
        simp_all [Effect.trap, Effect.quiet, Event.fails, SignIn.Event.fails, Trap.isOutside]
  | refresh _ hstep => cases hstep <;> simp [Effect.quiet, Event.fails]
  | _ => simp [Effect.trap, Effect.quiet, Event.fails, Trap.isOutside]

theorem PremiumPassView.Step.trapsOutside_iff {defaults : UserDefaultsManager}
    {view : PremiumPassView} {event : PremiumPassView.Event}
    {e : AppEffect PremiumPassView} (h : view.Step defaults event e) :
    TrapsOutside e ↔ event.fails = true := by
  cases h with
  | mint _ hstep =>
      have hsafe := hstep.not_trapsOutside fun key trap hmodel => by
        rcases passRequestModel_trap hmodel with ⟨rfl, -⟩ | ⟨rfl, -⟩ | rfl | ⟨rfl, -⟩ <;> rfl
      rw [TrapsOutside.map_iff]
      simp [hsafe, Event.fails]
  | _ => simp [Effect.trap, Effect.quiet, Event.fails, Trap.isOutside]

theorem ProtocolDetailView.Step.trapsOutside_iff {defaults : UserDefaultsManager}
    {view : ProtocolDetailView} {event : ProtocolDetailView.Event}
    {e : AppEffect ProtocolDetailView} (h : view.Step defaults event e) :
    TrapsOutside e ↔ event.fails = true := by
  cases h with
  | deposit _ hstep =>
      have hsafe := hstep.not_trapsOutside fun key trap hmodel => by
        rcases depositRequestModel_trap hmodel with ⟨rfl, -⟩ | ⟨rfl, -⟩ <;> rfl
      rw [TrapsOutside.map_iff]
      simp [hsafe, Event.fails]
  | commentPosted _ _ _ =>
      cases hpost : view.postComment defaults with
      | ok view' => simp [Event.fails]
      | error trap => rcases postComment_trap hpost with ⟨rfl, -⟩ | ⟨rfl, -⟩ <;>
          simp [Event.fails, Trap.isOutside]
  | _ => simp [Effect.trap, Effect.quiet, Event.fails, Trap.isOutside]

/-- A step is stopped by what an outside call gave exactly when it is handed the
failure of that call. -/
theorem App.Step.trapsOutside_iff {defaults : UserDefaultsManager} {app : App}
    {action : Action} {e : AppEffect App} (h : app.Step defaults action e) :
    TrapsOutside e ↔ action.fails = true := by
  cases h with
  | content h => exact TrapsOutside.map_iff.trans h.trapsOutside_iff
  | pass _ h => exact TrapsOutside.map_iff.trans h.trapsOutside_iff
  | detail _ h => exact TrapsOutside.map_iff.trans h.trapsOutside_iff
  | openDetail _ => simp [Effect.quiet, Action.fails]

/-! ## Runs -/

/-- A failed call that is delivered stops the process. -/
theorem not_failuresHandled_of_fails {history : List Transit} {s : Installed}
    (run : Run machine.Step freshInstall history s) {e : Transit} (he : e ∈ history)
    (hfails : Label.fails e.label = true) : ¬ FailuresHandled history := by
  intro hhandled
  obtain ⟨earlier, later, hsplit, _, h⟩ := run.of_mem he
  rcases e with ⟨before, label, after⟩
  cases label with
  | act action =>
      obtain ⟨app, effect, hmemory, heffect, -, -⟩ := h.act_inv
      obtain ⟨trap, htrap, houtside⟩ :=
        (App.step_of_some heffect).trapsOutside_iff.mpr hfails
      have hinside := (hhandled earlier _ later hsplit).1 app action effect trap
        ⟨hmemory, rfl, heffect⟩ htrap
      rw [houtside] at hinside
      cases hinside
  | _ => cases hfails

/-- No failure of an outside call stops a process or changes a stored value
exactly in the runs in which none of these calls fails. -/
theorem failuresHandled_iff {history : List Transit} {s : Installed}
    (run : Run machine.Step freshInstall history s) :
    FailuresHandled history ↔ ∀ e ∈ history, Label.fails e.label = false := by
  constructor
  · intro hhandled e he
    by_contra hfails
    rw [Bool.not_eq_false] at hfails
    exact not_failuresHandled_of_fails run he hfails hhandled
  · rintro hnone earlier e later rfl
    have hlast := hnone e (List.mem_append_right earlier List.mem_cons_self)
    constructor
    · rintro app action effect trap ⟨_, hlabel, heffect⟩ htrap
      rw [hlabel] at hlast
      by_contra houtside
      rw [Bool.not_eq_false] at houtside
      have hfails := (App.step_of_some heffect).trapsOutside_iff.mp ⟨trap, htrap, houtside⟩
      rw [Label.fails, hfails] at hlast
      cases hlast
    · intro task event hlabel hfails
      rw [hlabel, Label.fails, Action.fails, ContentView.Event.fails, hfails] at hlast
      cases hlast

theorem failuresHandled_of_purchase :
    ∃ history s, Run machine.Step freshInstall history s ∧
      (Installed.transaction? s (.mint 0 0)).isSome ∧ FailuresHandled history := by
  have hend : (replay machine.perform freshInstall
      (signedInSchedule ++ tapPurchaseSchedule)).map (fun s =>
        (Installed.transaction? s (.mint 0 0)).isSome) = some true := by
    decide
  obtain ⟨history, s, run, hlabels, htask⟩ := exists_run_of_schedule _ hend
  have hnone : ∀ label ∈ signedInSchedule ++ tapPurchaseSchedule,
      Label.fails label = false := by
    decide
  exact ⟨history, s, run, htask, (failuresHandled_iff run).mpr fun e he =>
    hnone _ (label_mem hlabels he)⟩

/-- The first fetch of the protocols throws. -/
def noConnectionSchedule : List (Label Action) :=
  [.launch, .act (.content .onAppear), .act (.content (.fetchedProtocols none))]

theorem not_always_failuresHandled :
    ¬ ∀ (history : List Transit) (s : Installed),
      Run machine.Step freshInstall history s → FailuresHandled history := by
  intro hall
  have hend : (replay machine.perform freshInstall noConnectionSchedule).map
      (fun s => s.memory.isSome) = some false := by
    decide
  obtain ⟨history, s, run, hlabels, -⟩ := exists_run_of_schedule _ hend
  have hmem : Label.act (.content (.fetchedProtocols none)) ∈ history.map Edge.label := by
    rw [hlabels]
    simp [noConnectionSchedule]
  obtain ⟨e, he, hlabel⟩ := List.mem_map.mp hmem
  exact not_failuresHandled_of_fails run he (by rw [hlabel]; rfl) (hall history s run)

end YieldMe
