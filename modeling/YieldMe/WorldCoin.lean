/-
  WorldCoin.lean --- how the World ID verification polls.

  The polling loop is meant to be left when a session is confirmed, by a `break`
  that ends the case instead, and has no way out for a session that failed.  So
  the loop reads every status there is and is never left, whatever the statuses
  are.
-/
import YieldMe.PremiumPassView

set_option autoImplicit false

namespace YieldMe

open Durable Loop

/-- The first terminal status of a sequence is at position `n`. -/
def FirstTerminal (statuses : List Status) (n : Nat) (status : Status) : Prop :=
  statuses[n]? = some status ∧ status.isTerminal = true ∧
    ∀ m < n, ∀ earlier, statuses[m]? = some earlier → earlier.isTerminal = false

/-- What the view is to look like after a terminal status. -/
def Answered (status : Status) (before after : PremiumPassView) : Prop :=
  after.isLoadingWorldCoin = false ∧
    match status with
    | .confirmed proof =>
        after.isStepOneCompleted = true ∧ after.proof = some (WrappedSession.wrap proof)
    | _ =>
        after.isStepOneCompleted = before.isStepOneCompleted ∧ after.proof = before.proof

namespace PremiumPassView

/-- The loop stops at the terminal status at position `n` and answers it. -/
def StopsAtTerminal (statuses : List Status) (n : Nat) (status : Status)
    (view : PremiumPassView) : Prop :=
  (pollLoop statuses view).rounds = n + 1 ∧ (pollLoop statuses view).left = true ∧
    Answered status view (pollLoop statuses view).memory

/-- No way through the body leaves the loop. -/
theorem pollBody_again (res : PollResult) (view : PremiumPassView) :
    (pollBody res view).1 = .again := by
  cases res <;> rfl

/-- The loop reads every status and waits for the next one. -/
theorem pollLoop_again (statuses : List Status) (view : PremiumPassView) :
    (pollLoop statuses view).left = false ∧
      (pollLoop statuses view).rounds = statuses.length := by
  unfold pollLoop
  refine whileTrue_of_again (fun status view => ?_) statuses view
  exact pollBody_again (WrappedSession.pollResult status) view

/-- A poll of a running session is one round of the loop, and the session goes
on polling. -/
theorem initiateWorldCoin_poll (view : PremiumPassView) (task : Nat) (status : Status) :
    view.initiateWorldCoin task .polling (.poll (some status)) =
      some (.quiet { (pollLoop [status] view).memory with
        sessions := view.sessions.set task .polling }) := by
  cases status <;> rfl

/-- The loop stops at no terminal status, whatever the sequence and the view. -/
theorem not_stopsAtTerminal (statuses : List Status) (n : Nat) (status : Status)
    (view : PremiumPassView) : ¬ StopsAtTerminal statuses n status view := by
  rintro ⟨-, hleft, -⟩
  rw [(pollLoop_again statuses view).1] at hleft
  cases hleft

theorem not_always_stopsAtTerminal :
    ¬ ∀ (statuses : List Status) (n : Nat) (status : Status) (view : PremiumPassView),
      FirstTerminal statuses n status → StopsAtTerminal statuses n status view := by
  intro hall
  have hfirst : FirstTerminal [.confirmed ⟨"0x1", "0x2", "0x3", "orb"⟩] 0
      (.confirmed ⟨"0x1", "0x2", "0x3", "orb"⟩) :=
    ⟨rfl, rfl, fun m hm => absurd hm (Nat.not_lt_zero m)⟩
  have hstops := (hall _ _ _ {} hfirst).2.1
  revert hstops
  decide

end PremiumPassView

end YieldMe
