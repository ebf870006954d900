/-
  UserDefaults.lean --- the settings as they are stored, under keys.

  `UserDefaults.standard` maps keys to property-list values, and other libraries
  of the process keep values of their own in it.  `UserDefaultsManager` reads and
  writes six keys through typed accessors.  The app on this store refines the app
  on the record of the six properties, so whatever holds of all runs of the
  record holds of the stored settings; and no run touches another key.

  How a property-list value is read as a text or a truth value is Foundation's
  business.  Used of it is only that a text that was set is read back as that
  text, and a truth value as that truth value.
-/
import YieldMe.App
import YieldMe.Flows
import YieldMe.Foundation.Refinement

set_option autoImplicit false

namespace YieldMe

open Durable Transition

/-- Property-list values, as `UserDefaults` reads and writes them. -/
structure PropertyList (ν : Type) where
  ofString : String → ν
  ofBool : Bool → ν
  string? : ν → Option String
  bool : ν → Bool
  string?_ofString : ∀ s, string? (ofString s) = some s
  bool_ofBool : ∀ b, bool (ofBool b) = b

/-- `UserDefaults.standard`: the value stored under a key, if there is one. -/
abbrev UserDefaults (ν : Type) : Type := String → Option ν

namespace UserDefaults

variable {ν : Type}

/-- `set(_:forKey:)`; nil removes the key. -/
def set (defaults : UserDefaults ν) (value : Option ν) (key : String) : UserDefaults ν :=
  fun key' => if key' = key then value else defaults key'

@[simp] theorem set_self (defaults : UserDefaults ν) (value : Option ν) (key : String) :
    defaults.set value key key = value := by
  simp [set]

theorem set_of_ne (defaults : UserDefaults ν) (value : Option ν) {key key' : String}
    (h : key' ≠ key) : defaults.set value key key' = defaults key' := by
  simp [set, h]

variable (plist : PropertyList ν) (defaults : UserDefaults ν)

/-- `string(forKey:)`. -/
def string (key : String) : Option String := (defaults key).bind plist.string?

/-- `bool(forKey:)`; false without a value. -/
def bool (key : String) : Bool := ((defaults key).map plist.bool).getD false

/-- The getters of `UserDefaultsManager.shared`. -/
def read : UserDefaultsManager where
  uuid := string plist defaults "uuid"
  purchasedPass := bool plist defaults "purchased_pass"
  encryptionKey := string plist defaults "encryption_key"
  userToken := string plist defaults "user_token"
  walletAddress := string plist defaults "address"
  walletID := string plist defaults "wallet_id"

/-- A setter of `UserDefaultsManager.shared`, or the write of the `uuid` getter. -/
def write : SettingsWrite → UserDefaults ν
  | .uuid newValue => defaults.set (some (plist.ofString newValue)) "uuid"
  | .purchasedPass newValue => defaults.set (some (plist.ofBool newValue)) "purchased_pass"
  | .encryptionKey newValue => defaults.set (newValue.map plist.ofString) "encryption_key"
  | .userToken newValue => defaults.set (newValue.map plist.ofString) "user_token"
  | .walletAddress newValue => defaults.set (newValue.map plist.ofString) "address"
  | .walletID newValue => defaults.set (newValue.map plist.ofString) "wallet_id"

section Accessors

variable {plist defaults}

theorem string_set_self (newValue : Option String) (key : String) :
    string plist (defaults.set (newValue.map plist.ofString) key) key = newValue := by
  cases newValue with
  | none => simp [string]
  | some text => simp [string, plist.string?_ofString]

theorem string_set_some (text key : String) :
    string plist (defaults.set (some (plist.ofString text)) key) key = some text :=
  string_set_self (some text) key

theorem bool_set_self (newValue : Bool) (key : String) :
    bool plist (defaults.set (some (plist.ofBool newValue)) key) key = newValue := by
  simp [bool, plist.bool_ofBool]

theorem string_set_of_ne {value : Option ν} {key key' : String} (h : key' ≠ key) :
    string plist (defaults.set value key) key' = string plist defaults key' := by
  rw [string, string, set_of_ne _ _ h]

theorem bool_set_of_ne {value : Option ν} {key key' : String} (h : key' ≠ key) :
    bool plist (defaults.set value key) key' = bool plist defaults key' := by
  rw [bool, bool, set_of_ne _ _ h]

end Accessors

/-- What the getters show after a setter is the record after the write. -/
theorem read_write (w : SettingsWrite) :
    read plist (write plist defaults w) = (read plist defaults).write w := by
  cases w <;>
    simp [read, write, UserDefaultsManager.write, string_set_some, string_set_self,
      bool_set_self, string_set_of_ne, bool_set_of_ne]

/-- A setter leaves the other keys alone. -/
theorem write_of_ne {w : SettingsWrite} {key : String} (h : key ≠ w.key) :
    write plist defaults w key = defaults key := by
  cases w <;> exact set_of_ne _ _ h

end UserDefaults

/-! ## The app on its store -/

/-- The app on `UserDefaults.standard`. -/
def storeMachine {ν : Type} (plist : PropertyList ν) :
    Machine (UserDefaults ν) SettingsWrite OutsideCall Trap App Action where
  write := UserDefaults.write plist
  boot := fun defaults => App.boot (defaults.read plist)
  step := fun defaults app action => app.step (defaults.read plist) action

section Store

variable {ν : Type} (plist : PropertyList ν)

theorem storeMachine_refines :
    Refines (storeMachine plist) machine (UserDefaults.read plist) where
  write := fun defaults w => UserDefaults.read_write plist defaults w
  boot := fun _ => rfl
  step := fun _ _ _ => rfl

/-- No run touches a key that is not one of the six. -/
theorem store_unchanged {start s : State (UserDefaults ν) App}
    {history : List (Edge (State (UserDefaults ν) App) (Label Action))}
    (run : Run (storeMachine plist).CrashStep start history s) {key : String}
    (hkey : ∀ w : SettingsWrite, w.key ≠ key) : s.stored key = start.stored key := by
  have hholds : Holds (fun defaults => defaults key = start.stored key)
      (fun _ _ => True) s := by
    refine Machine.crash_run_holds (I := fun defaults => defaults key = start.stored key)
      (J := fun _ _ => True) ⟨rfl, fun _ _ => trivial⟩ (fun _ _ => trivial) ?_ run
    intro defaults app action e hsame _ _
    refine ⟨fun k => ?_, fun _ _ => trivial⟩
    refine (storeMachine plist).writeAll_take_of_forall
      (fun d => d key = start.stored key) ?_ k defaults hsame
    intro d w _ hd
    rw [← hd]
    exact UserDefaults.write_of_ne plist d (hkey w).symm
  exact hholds.1

/-- The app on its store and the app on its record have the same runs, and the app
on its store leaves every key alone that is not one of the six: what it does is a
run of the record, every run of the record is what it can do, and what else is
stored stays. -/
theorem store_refined (start : State (UserDefaults ν) App) :
    (∀ history s, Run (storeMachine plist).CrashStep start history s →
      Run machine.CrashStep (start.view (UserDefaults.read plist))
        (history.map (viewEdge (UserDefaults.read plist)))
        (s.view (UserDefaults.read plist)) ∧
      ∀ key, (∀ w : SettingsWrite, w.key ≠ key) → s.stored key = start.stored key) ∧
    ∀ history t, Run machine.CrashStep (start.view (UserDefaults.read plist)) history t →
      ∃ s history', Run (storeMachine plist).CrashStep start history' s ∧
        history'.map (viewEdge (UserDefaults.read plist)) = history ∧
        s.view (UserDefaults.read plist) = t := by
  constructor
  · intro history s run
    exact ⟨(storeMachine_refines plist).run run, fun key hkey => store_unchanged plist run hkey⟩
  · intro history t run
    exact (storeMachine_refines plist).exists_run run

end Store

/-- Texts and truth values as property lists, each readable as the other kind the
way Foundation reads it. -/
def PropertyList.textOrBool : PropertyList (String ⊕ Bool) where
  ofString := .inl
  ofBool := .inr
  string? := Sum.elim some fun b => some (if b then "1" else "0")
  bool := Sum.elim (fun text => text ∈ ["YES", "true", "1"]) id
  string?_ofString := fun _ => rfl
  bool_ofBool := fun _ => rfl

/-- A device on which another library has stored a value, before a first launch. -/
def sharedDevice : State (UserDefaults (String ⊕ Bool)) App :=
  ⟨fun key => if key = "theme" then some (.inl "dark") else none, none⟩

/-- A sign-in on such a device. -/
theorem store_refined_of_sign_in :
    ∃ s history, Run (storeMachine .textOrBool).CrashStep sharedDevice history s ∧
      (s.view (UserDefaults.read .textOrBool)).stored.walletAddress = some "address" ∧
      s.stored "theme" = some (.inl "dark") := by
  have hend : (replay machine.performCrash freshInstall signedInSchedule).map
      (fun s => s.stored.walletAddress) = some (some "address") := by
    decide
  obtain ⟨history, t, run, -, haddress⟩ := exists_crash_run_of_schedule _ hend
  have hstart : sharedDevice.view (UserDefaults.read .textOrBool) = freshInstall := by
    simp [sharedDevice, State.view, freshInstall, UserDefaults.read, UserDefaults.string,
      UserDefaults.bool]
  obtain ⟨hforward, hbackward⟩ := store_refined .textOrBool sharedDevice
  rw [hstart] at hbackward
  obtain ⟨s, history', run', -, rfl⟩ := hbackward history t run
  refine ⟨s, history', run', haddress, (hforward history' s run').2 "theme" ?_⟩
  intro w
  cases w <;> simp [SettingsWrite.key]

end YieldMe
