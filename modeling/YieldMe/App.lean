/-
  App.lean --- the app as one machine over its settings.

  A process holds the root screen, every purchase sheet and every protocol page
  opened since it was launched, newest last.  A sheet or page that is gone keeps
  its entry: its pending tasks and SDK completions still run, and still write
  the settings.

  A step is the code between two awaits, one SDK completion, one tap or one
  change of a text field.  `machine.Step` and `machine.CrashStep` are the runs the
  theorems are about; a fresh install has stored nothing and runs no process.
-/
import YieldMe.ContentView
import YieldMe.PremiumPassView

set_option autoImplicit false

namespace YieldMe

open Durable

/-- The memory of a process. -/
structure App where
  contentView : ContentView
  passViews : List PremiumPassView := []
  detailViews : List ProtocolDetailView := []
  deriving DecidableEq

/-- What can happen to a process, by the view it happens to. -/
inductive Action where
  | content (event : ContentView.Event)
  | pass (view : Nat) (event : PremiumPassView.Event)
  | detail (view : Nat) (event : ProtocolDetailView.Event)
  /-- the link of a row of the protocol list -/
  | openDetail (item : ProtocolItem)

namespace App

/-- The memory of a freshly launched process. -/
def boot (defaults : UserDefaultsManager) : App where
  contentView := ContentView.initial defaults

/-- The memory after a step of the root screen; its purchase button presents a
new sheet. -/
def afterContent (app : App) (event : ContentView.Event) (view : ContentView) : App :=
  match event with
  | .tapBuyCommunityPass =>
      { app with contentView := view, passViews := app.passViews ++ [{}] }
  | _ => { app with contentView := view }

/-- The memory after a step of a purchase sheet, which may have been dismissed
by it. -/
def afterPass (app : App) (index : Nat) (before after : PremiumPassView) : App :=
  { app with
    passViews := app.passViews.set index after
    contentView :=
      if before.presented && !after.presented then app.contentView.sheetDismissed
      else app.contentView }

/-- The memory after a step of a protocol page. -/
def afterDetail (app : App) (index : Nat) (after : ProtocolDetailView) : App :=
  { app with detailViews := app.detailViews.set index after }

/-- One step of a process. -/
def step (defaults : UserDefaultsManager) (app : App) : Action → Option (AppEffect App)
  | .content event =>
      (app.contentView.step defaults event).map (·.map (app.afterContent event))
  | .pass index event =>
      app.passViews[index]?.bind fun view =>
        (view.step defaults event).map (·.map (app.afterPass index view))
  | .detail index event =>
      app.detailViews[index]?.bind fun view =>
        (view.step defaults event).map (·.map (app.afterDetail index))
  | .openDetail item =>
      if item ∈ app.contentView.items then
        some (.quiet { app with
          detailViews := app.detailViews ++ [{ protocolItem := item }] })
      else none

end App

/-- The app: its settings, its process, its steps. -/
def machine : Machine UserDefaultsManager SettingsWrite OutsideCall Trap App Action where
  write := UserDefaultsManager.write
  boot := App.boot
  step := App.step

@[simp] theorem machine_write (defaults : UserDefaultsManager) (w : SettingsWrite) :
    machine.write defaults w = defaults.write w := rfl

/-- The state of the installed app. -/
abbrev Installed : Type := State UserDefaultsManager App

/-- A fresh install: nothing stored, no process. -/
def freshInstall : Installed := ⟨{}, none⟩

/-- The transitions of the installed app. -/
abbrev Transit : Type := Transition.Edge Installed (Label Action)

end YieldMe
