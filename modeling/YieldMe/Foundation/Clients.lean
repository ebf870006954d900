/-
  Foundation/Clients.lean --- clients of a data type, and two ways to run them.

  A client makes calls on a value and goes on with the answers it gets, so that a call
  may depend on the answers before.  A data type is what its calls do to a value.  One
  data type implements another where a call that is allowed on the specified value
  succeeds on the implementing one, gives the same answer and keeps the relation
  between them; then every client that makes only allowed calls gets the same result
  from both.
-/

set_option autoImplicit false

namespace Clients

variable {σ τ Op : Type} {Answer : Op → Type} {Result : Type}

/-- A client: a result, or a call and what follows an answer. -/
inductive Client (Answer : Op → Type) (Result : Type) : Type where
  | done (result : Result)
  | call (op : Op) (next : Answer op → Client Answer Result)

/-- What the calls do to a value; a call may stop the process. -/
abbrev Implementation (σ : Type) (Answer : Op → Type) : Type :=
  σ → (op : Op) → Option (σ × Answer op)

/-- What the calls are to do. -/
abbrev Specification (τ : Type) (Answer : Op → Type) : Type := τ → (op : Op) → τ × Answer op

namespace Client

/-- A client on an implementation. -/
def run (impl : Implementation σ Answer) : σ → Client Answer Result → Option (σ × Result)
  | s, .done result => some (s, result)
  | s, .call op next => (impl s op).bind fun (s, answer) => run impl s (next answer)

/-- A client as it is specified. -/
def meaning (spec : Specification τ Answer) : τ → Client Answer Result → τ × Result
  | t, .done result => (t, result)
  | t, .call op next => meaning spec (spec t op).1 (next (spec t op).2)

/-- A client whose calls are all allowed, along the specified answers. -/
def Careful (spec : Specification τ Answer) (Allowed : τ → Op → Prop) :
    τ → Client Answer Result → Prop
  | _, .done _ => True
  | t, .call op next =>
      Allowed t op ∧ Careful spec Allowed (spec t op).1 (next (spec t op).2)

end Client

/-- A relation under which an implementation does what is specified. -/
def Implements (impl : Implementation σ Answer) (spec : Specification τ Answer)
    (Allowed : τ → Op → Prop) (R : σ → τ → Prop) : Prop :=
  ∀ s t op, R s t → Allowed t op → ∃ s', impl s op = some (s', (spec t op).2) ∧ R s' (spec t op).1

/-- A careful client gets the specified result. -/
theorem Implements.run {impl : Implementation σ Answer} {spec : Specification τ Answer}
    {Allowed : τ → Op → Prop} {R : σ → τ → Prop} (h : Implements impl spec Allowed R)
    (client : Client Answer Result) :
    ∀ s t, R s t → client.Careful spec Allowed t →
      ∃ s', client.run impl s = some (s', (client.meaning spec t).2) ∧
        R s' (client.meaning spec t).1 := by
  induction client with
  | done result => exact fun s t hst _ => ⟨s, rfl, hst⟩
  | call op next ih =>
      intro s t hst hcareful
      obtain ⟨hallowed, hrest⟩ := hcareful
      obtain ⟨s₁, hcall, hst₁⟩ := h s t op hst hallowed
      obtain ⟨s', hrun, hst'⟩ := ih _ s₁ _ hst₁ hrest
      refine ⟨s', ?_, hst'⟩
      rw [Client.run, hcall, Option.bind_some]
      exact hrun

end Clients
