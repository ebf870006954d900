/-
  WrappedSession.lean --- the World ID session the Rust library wraps.

  `idkit` is outside the repository: a call of it is an outcome the environment
  chooses.  What is embedded is the code around it, which unwraps every outcome
  and copies a status into the enumeration the bridge carries to Swift.
-/
import YieldMe.Effects

set_option autoImplicit false

namespace YieldMe

/-- `idkit::session::Proof`, with its credential type already formatted. -/
structure Proof where
  proof : String
  merkleRoot : String
  nullifierHash : String
  credentialType : String
  deriving DecidableEq, Repr

/-- `idkit::session::Status`, with its error already formatted. -/
inductive Status where
  | waitingForConnection
  | awaitingConfirmation
  | confirmed (proof : Proof)
  | failed (error : String)
  deriving DecidableEq, Repr

/-- Confirmed or failed. -/
def Status.isTerminal : Status → Bool
  | .confirmed _ => true
  | .failed _ => true
  | _ => false

/-- `ffi::WrappedProof`. -/
structure WrappedProof where
  proof : String
  merkleRoot : String
  nullifierHash : String
  credentialType : String
  deriving DecidableEq, Repr

/-- `ffi::PollResult`. -/
inductive PollResult where
  | waitingForConnection
  | awaitingConfirmation
  | confirmed (proof : WrappedProof)
  | failed (error : String)
  deriving DecidableEq, Repr

namespace WrappedSession

/-- The proof handed over the bridge. -/
def wrap (proof : Proof) : WrappedProof where
  proof := proof.proof
  merkleRoot := proof.merkleRoot
  nullifierHash := proof.nullifierHash
  credentialType := proof.credentialType

/-- The match of `poll`, on the unwrapped status. -/
def pollResult : Status → PollResult
  | .waitingForConnection => .waitingForConnection
  | .awaitingConfirmation => .awaitingConfirmation
  | .failed error => .failed error
  | .confirmed proof => .confirmed (wrap proof)

/-- `poll`: `none` is an error of `poll_for_status`. -/
def poll (outcome : Option Status) : Except Trap PollResult :=
  (unwrap .poll outcome).map pollResult

/-- `new`, followed by `get_url`: `none` is an error of `Session::new`. -/
def new (outcome : Option String) : Except Trap String := unwrap .session outcome

end WrappedSession

end YieldMe
