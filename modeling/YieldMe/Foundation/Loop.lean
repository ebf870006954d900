/-
  Foundation/Loop.lean --- `while true` loops that read one input per round.

  The body of such a loop is a function of the input and the memory; it says
  whether control goes back to the top of the loop or leaves it.  A loop that is
  given finitely many inputs either leaves at one of them or is still waiting
  for the next one.

  A loop that leaves at the first input it accepts has read rejected inputs so
  far, and perhaps one more; `AllRejected.length_le` and `AllRejected.length_eq`
  say how many inputs these are.
-/
import Mathlib.Data.List.Basic

set_option autoImplicit false

namespace Loop

/-- Where control goes from the body of a loop. -/
inductive Control where
  | again
  | leave
  deriving DecidableEq, Repr

/-- How far a loop got with the inputs it was given. -/
structure Progress (μ : Type) where
  /-- the number of inputs read -/
  rounds : Nat
  /-- control has left the loop -/
  left : Bool
  memory : μ

section WhileTrue

variable {ρ μ : Type}

/-- The loop on a list of inputs. -/
def whileTrue (body : ρ → μ → Control × μ) : List ρ → μ → Progress μ
  | [], m => ⟨0, false, m⟩
  | r :: rest, m =>
      match body r m with
      | (.leave, m') => ⟨1, true, m'⟩
      | (.again, m') =>
          let progress := whileTrue body rest m'
          { progress with rounds := progress.rounds + 1 }

/-- A loop whose body never leaves reads every input and is never left. -/
theorem whileTrue_of_again {body : ρ → μ → Control × μ}
    (hbody : ∀ r m, (body r m).1 = .again) :
    ∀ (inputs : List ρ) (m : μ),
      (whileTrue body inputs m).left = false ∧
        (whileTrue body inputs m).rounds = inputs.length := by
  intro inputs
  induction inputs with
  | nil => intro m; exact ⟨rfl, rfl⟩
  | cons r rest ih =>
      intro m
      obtain ⟨control, m', hr⟩ : ∃ c m', body r m = (c, m') := ⟨_, _, rfl⟩
      obtain rfl : control = .again := by simpa [hr] using hbody r m
      obtain ⟨hleft, hrounds⟩ := ih m'
      simp [whileTrue, hr, hleft, hrounds]

end WhileTrue

section FirstAccepted

variable {ρ β : Type} {accept? : ρ → Option β}

/-- No input is accepted. -/
def AllRejected (accept? : ρ → Option β) (inputs : List ρ) : Prop :=
  ∀ input ∈ inputs, accept? input = none

/-- The input at position `n` is the first that is accepted, and gives `result`. -/
def FirstAccepted (accept? : ρ → Option β) (inputs : List ρ) (n : Nat) (result : β) : Prop :=
  AllRejected accept? (inputs.take n) ∧
    ∃ input, inputs[n]? = some input ∧ accept? input = some result

theorem AllRejected.concat {read : List ρ} {last : ρ} (hread : AllRejected accept? read)
    (hlast : accept? last = none) : AllRejected accept? (read ++ [last]) := by
  intro input hmem
  rcases List.mem_append.mp hmem with hold | hnew
  · exact hread input hold
  · rwa [List.mem_singleton.mp hnew]

variable {inputs read : List ρ} {n : Nat} {result : β}

/-- Rejected inputs come before the first accepted one. -/
theorem AllRejected.length_le (hread : AllRejected accept? read)
    (hfirst : FirstAccepted accept? inputs n result) (hinitial : read <+: inputs) :
    read.length ≤ n := by
  obtain ⟨rest, rfl⟩ := hinitial
  obtain ⟨-, input, hat, hresult⟩ := hfirst
  by_contra hlong
  rw [List.getElem?_append_left (Nat.lt_of_not_le hlong)] at hat
  rw [hread input (List.mem_of_getElem? hat)] at hresult
  cases hresult

/-- The accepted input behind rejected ones is the first accepted one. -/
theorem AllRejected.length_eq {last : ρ} {found : β} (hread : AllRejected accept? read)
    (hfirst : FirstAccepted accept? inputs n result) (hinitial : read ++ [last] <+: inputs)
    (hfound : accept? last = some found) : read.length = n ∧ found = result := by
  have hle := hread.length_le hfirst ((List.prefix_append read [last]).trans hinitial)
  obtain ⟨rest, rfl⟩ := hinitial
  obtain ⟨hearlier, input, hat, hresult⟩ := hfirst
  rw [List.append_assoc, List.singleton_append] at hearlier hat
  rcases Nat.lt_or_eq_of_le hle with hlt | rfl
  · have hmem : last ∈ (read ++ last :: rest).take n :=
      List.mem_take_iff_getElem.mpr ⟨read.length, by simp; omega, by simp⟩
    rw [hearlier last hmem] at hfound
    cases hfound
  · rw [List.getElem?_append_right (Nat.le_refl _), Nat.sub_self,
      List.getElem?_cons_zero] at hat
    obtain rfl := Option.some.inj hat
    exact ⟨rfl, Option.some.inj (hfound.symm.trans hresult)⟩

end FirstAccepted

end Loop
