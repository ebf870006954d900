/-
  UserDefaultsManager.lean --- the settings of the app, the only state that
  outlives its process.

  `UserDefaults.standard` is read and written through six properties, each under
  a key of its own (`write_write`, `write_comm`), so the settings are a record
  with one field for each property.  Setting an optional property to nil removes
  its key; a missing Boolean reads as false.
-/
import Mathlib.Data.List.Basic

set_option autoImplicit false

namespace YieldMe

/-- What is stored, read through the getters of `UserDefaultsManager.shared`. -/
structure UserDefaultsManager where
  uuid : Option String := none
  purchasedPass : Bool := false
  encryptionKey : Option String := none
  userToken : Option String := none
  walletAddress : Option String := none
  walletID : Option String := none
  deriving DecidableEq, Repr

/-- One call of a setter, or the write the `uuid` getter makes when no value is
stored yet. -/
inductive SettingsWrite where
  | uuid (newValue : String)
  | purchasedPass (newValue : Bool)
  | encryptionKey (newValue : Option String)
  | userToken (newValue : Option String)
  | walletAddress (newValue : Option String)
  | walletID (newValue : Option String)
  deriving DecidableEq, Repr

namespace SettingsWrite

/-- The key a write goes to. -/
def key : SettingsWrite → String
  | .uuid _ => "uuid"
  | .purchasedPass _ => "purchased_pass"
  | .encryptionKey _ => "encryption_key"
  | .userToken _ => "user_token"
  | .walletAddress _ => "address"
  | .walletID _ => "wallet_id"

/-- A write that stores a value: it does not remove a key and does not take the
pass away. -/
def Stores : SettingsWrite → Prop
  | .uuid _ => True
  | .purchasedPass newValue => newValue = true
  | .encryptionKey newValue => newValue.isSome
  | .userToken newValue => newValue.isSome
  | .walletAddress newValue => newValue.isSome
  | .walletID newValue => newValue.isSome

end SettingsWrite

namespace UserDefaultsManager

/-- The settings after one write. -/
def write (defaults : UserDefaultsManager) : SettingsWrite → UserDefaultsManager
  | .uuid newValue => { defaults with uuid := some newValue }
  | .purchasedPass newValue => { defaults with purchasedPass := newValue }
  | .encryptionKey newValue => { defaults with encryptionKey := newValue }
  | .userToken newValue => { defaults with userToken := newValue }
  | .walletAddress newValue => { defaults with walletAddress := newValue }
  | .walletID newValue => { defaults with walletID := newValue }

/-- The later of two writes to one key wins. -/
theorem write_write (defaults : UserDefaultsManager) {w w' : SettingsWrite}
    (h : w.key = w'.key) : (defaults.write w).write w' = defaults.write w' := by
  cases w <;> cases w' <;> first | rfl | simp [SettingsWrite.key] at h

/-- Two writes to different keys commute. -/
theorem write_comm (defaults : UserDefaultsManager) {w w' : SettingsWrite}
    (h : w.key ≠ w'.key) :
    (defaults.write w).write w' = (defaults.write w').write w := by
  cases w <;> cases w' <;> first | rfl | exact absurd rfl h

/-- Everything stored before is still stored, possibly with another value. -/
structure Keeps (before after : UserDefaultsManager) : Prop where
  purchasedPass : before.purchasedPass = true → after.purchasedPass = true
  encryptionKey : before.encryptionKey.isSome → after.encryptionKey.isSome
  userToken : before.userToken.isSome → after.userToken.isSome
  walletAddress : before.walletAddress.isSome → after.walletAddress.isSome
  walletID : before.walletID.isSome → after.walletID.isSome

theorem Keeps.refl (defaults : UserDefaultsManager) : Keeps defaults defaults :=
  ⟨id, id, id, id, id⟩

theorem Keeps.trans {a b c : UserDefaultsManager} (hab : Keeps a b) (hbc : Keeps b c) :
    Keeps a c :=
  ⟨hbc.purchasedPass ∘ hab.purchasedPass, hbc.encryptionKey ∘ hab.encryptionKey,
    hbc.userToken ∘ hab.userToken, hbc.walletAddress ∘ hab.walletAddress,
    hbc.walletID ∘ hab.walletID⟩

theorem keeps_write (defaults : UserDefaultsManager) {w : SettingsWrite}
    (hw : w.Stores) : Keeps defaults (defaults.write w) := by
  cases w <;> constructor <;> simp_all [write, SettingsWrite.Stores]

end UserDefaultsManager

end YieldMe
