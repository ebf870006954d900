/-
  HumanProof.lean --- the World ID proof behind a purchase.

  A sheet keeps one proof, and every session polling for it may overwrite that
  proof at any time.  The purchase button is gated by `isStepOneCompleted`, a
  flag of its own, and the task it spawns reads the proof later, when it builds
  its request.

  The flag and the spawned tasks both imply that some proof is stored, and the
  stored proof is that of one Confirmed result; it is replaced and never
  cleared.  A request takes its three fields from the proof stored when it is
  built.
-/
import YieldMe.Ownership

set_option autoImplicit false

namespace YieldMe

open CircleNetworking Durable Transition

/-- A session of the sheet `index` is told that this proof was confirmed. -/
def Confirms (index : Nat) (proof : WrappedProof) (e : Transit) : Prop :=
  ∃ task result,
    e.label = .act (.pass index (.worldCoin task (.poll (some (.confirmed result))))) ∧
      WrappedSession.wrap result = proof

/-- The Merkle root, the nullifier hash and the proof string of a request are
those of one proof. -/
def URLRequest.Carries (request : URLRequest) (proof : WrappedProof) : Prop :=
  ∃ model walletAddress merkleRoot nullifierHash,
    request.httpBody = some (.contractExecutionChallenge model) ∧
    hexStringToDecimalString proof.merkleRoot = some merkleRoot ∧
    hexStringToDecimalString proof.nullifierHash = some nullifierHash ∧
    model.abiParameters =
      some [walletAddress, "1", merkleRoot, nullifierHash, proof.proof]

theorem PremiumPassView.passRequestModel_carries {proof : Option WrappedProof}
    {defaults : UserDefaultsManager} {idempotencyKey : String}
    {model : ContractExecutionChallengeRequest}
    (h : passRequestModel proof defaults idempotencyKey = .ok model) :
    ∃ stored, proof = some stored ∧ (createContractExecutionChallenge.request
      defaults.userToken model).Carries stored := by
  obtain ⟨walletAddress, _, h⟩ := bind_eq_ok.mp h
  obtain ⟨stored, hstored, h⟩ := bind_eq_ok.mp h
  obtain ⟨merkleRoot, hroot, h⟩ := bind_eq_ok.mp h
  obtain ⟨nullifierHash, hhash, h⟩ := bind_eq_ok.mp h
  obtain ⟨walletID, _, h⟩ := bind_eq_ok.mp h
  have hinj := Except.ok.inj h
  subst hinj
  rw [unwrap_eq_ok] at hstored hroot hhash
  exact ⟨stored, hstored, _, walletAddress, merkleRoot, nullifierHash, rfl, hroot, hhash, rfl⟩

theorem ProtocolDetailView.depositRequestModel_not_buyPass {item : ProtocolItem}
    {depositAmount : String} {defaults : UserDefaultsManager} {idempotencyKey : String}
    {model : ContractExecutionChallengeRequest}
    (h : depositRequestModel item depositAmount defaults idempotencyKey = .ok model) :
    ¬ PremiumPassView.isBuyPass model := by
  obtain ⟨amount, _, h⟩ := bind_eq_ok.mp h
  obtain ⟨walletID, _, h⟩ := bind_eq_ok.mp h
  have hinj := Except.ok.inj h
  subst hinj
  simp [PremiumPassView.isBuyPass]

namespace PremiumPassView

@[simp] theorem proof_afterMint (view : PremiumPassView) (task : Nat)
    (event : Transaction.Event) (t : Transaction) :
    (view.afterMint task event t).proof = view.proof := by
  cases event <;> rfl

@[simp] theorem isStepOneCompleted_afterMint (view : PremiumPassView) (task : Nat)
    (event : Transaction.Event) (t : Transaction) :
    (view.afterMint task event t).isStepOneCompleted = view.isStepOneCompleted := by
  cases event <;> rfl

/-- The proof of a sheet was confirmed to it, and is there as soon as the flag
or a purchase is. -/
structure Backed (process : List Transit) (index : Nat) (view : PremiumPassView) : Prop where
  confirmed : ∀ proof, view.proof = some proof → ∃ b ∈ process, Confirms index proof b
  stepOne : view.isStepOneCompleted = true → view.proof.isSome
  mints : view.mints ≠ [] → view.proof.isSome

theorem Backed.fresh (process : List Transit) (index : Nat) :
    Backed process index {} := by
  constructor <;> simp

theorem Backed.mono {process : List Transit} {index : Nat} {view : PremiumPassView}
    (h : view.Backed process index) (e : Transit) : view.Backed (process ++ [e]) index := by
  refine ⟨fun proof hproof => ?_, h.stepOne, h.mints⟩
  exact exists_mem_concat.mpr (.inl (h.confirmed proof hproof))

theorem Backed.step {process : List Transit} {index : Nat} {defaults : UserDefaultsManager}
    {view view' : PremiumPassView} {event : Event} {inner : AppEffect PremiumPassView}
    (h : view.Step defaults event inner) (hnext : inner.next = .ok view') {e : Transit}
    (hlabel : e.label = .act (.pass index event)) (hbacked : view.Backed process index) :
    view'.Backed (process ++ [e]) index := by
  have hkept := hbacked.mono e
  cases h with
  | noSession _ | noUrl _ | noStatus _ => cases hnext
  | closed _ | worldCoinTapped _ _ | connected _ | unconfirmed _ _ =>
      have hinj := Except.ok.inj hnext
      subst hinj
      exact ⟨hkept.confirmed, hkept.stepOne, hkept.mints⟩
  | @confirmed task result _ =>
      have hinj := Except.ok.inj hnext
      subst hinj
      refine ⟨fun proof hproof => ?_, fun _ => rfl, fun _ => rfl⟩
      exact exists_mem_concat.mpr (.inr ⟨task, result, hlabel, Option.some.inj hproof⟩)
  | purchaseTapped _ hstepOne =>
      have hinj := Except.ok.inj hnext
      subst hinj
      exact ⟨hkept.confirmed, hkept.stepOne, fun _ => hkept.stepOne hstepOne⟩
  | mint htask _ =>
      obtain ⟨t', -, rfl⟩ := Effect.map_next_ok hnext
      have hmints : view.mints ≠ [] := List.ne_nil_of_mem (List.mem_of_getElem? htask)
      exact ⟨by simpa using hkept.confirmed, by simpa using hkept.stepOne,
        fun _ => by simpa using hkept.mints hmints⟩

end PremiumPassView

end YieldMe
