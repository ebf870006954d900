/-
  DepositAmount.lean --- the amount of a deposit on its way into a request.

  The text of the amount field is parsed as an integer and scaled by 10 ^ 17.  A
  whole number arrives exactly, whatever its length.  The field is a decimal pad,
  but the parser knows no decimal separator: a text with one stops the process at
  the forced unwrap.

  The call takes two `uint256`, and neither its id nor its amount is checked: a
  negative id, a minus sign in front of the amount and an amount that is too large
  are sent as they are.
-/
import YieldMe.BigInt.Conversion
import YieldMe.ProtocolDetailView

set_option autoImplicit false

namespace YieldMe

open BigUInt CircleNetworking Positional

/-- A fresh deposit task sends the request of a deposit of `amount`. -/
def SendsAmount (view : ProtocolDetailView) (defaults : UserDefaultsManager)
    (idempotencyKey : String) (amount : Nat) : Prop :=
  ∃ model,
    model.abiFunctionSignature = some "depositIntoPool(uint256, uint256)" ∧
      model.abiParameters = some [toString view.protocolItem.id.toInt, toString amount] ∧
      ({} : Transaction).step view.depositCode defaults (.start idempotencyKey) =
        some ⟨[], [.request (createContractExecutionChallenge.request defaults.userToken model)],
          .ok { stage := .requesting
                sent := some (createContractExecutionChallenge.request defaults.userToken
                  model) }⟩

/-! ## Whole numbers -/

theorem depositParameter_eq {depositAmount : String}
    (hamount : IsNumeral 10 depositAmount.toList) :
    depositParameter depositAmount =
      some (toString (value 10 depositAmount.toList * 10 ^ 17)) := by
  obtain ⟨x, hx, hvalue⟩ := BigInt.ofText_eq chunking_ten hamount.2
  have hscaled : (⟨x, .plus⟩ : BigInt).toInt * (100000000000000000 : Word).toNat =
      ((value 10 depositAmount.toList * 10 ^ 17 : Nat) : Int) := by
    rw [BigInt.toInt, hvalue]
    rfl
  rw [depositParameter, hx, Option.map_some, BigInt.text_timesWord, hscaled]
  rfl

/-- The request model of a deposit that gets past both unwraps. -/
theorem depositModel_of_ok {view : ProtocolDetailView} {defaults : UserDefaultsManager}
    {amount walletID : String} (idempotencyKey : String)
    (hparameter : depositParameter view.depositAmount = some amount)
    (hid : defaults.walletID = some walletID) :
    view.depositCode.requestModel defaults idempotencyKey = .ok {
      idempotencyKey := idempotencyKey
      abiFunctionSignature := some "depositIntoPool(uint256, uint256)"
      abiParameters := some [toString view.protocolItem.id.toInt, amount]
      contractAddress := "0x17dE46BAB525309fE846f0eeD4A4dcBFBfB588d4"
      walletId := walletID } := by
  simp only [ProtocolDetailView.depositCode, ProtocolDetailView.depositRequestModel,
    hparameter, hid, unwrap]
  rfl

theorem sendsAmount_of_depositParameter {view : ProtocolDetailView}
    {defaults : UserDefaultsManager} {amount : Nat} (idempotencyKey : String)
    (hparameter : depositParameter view.depositAmount = some (toString amount))
    (hid : defaults.walletID.isSome) : SendsAmount view defaults idempotencyKey amount := by
  obtain ⟨walletID, hid⟩ := Option.isSome_iff_exists.mp hid
  have hmodel := depositModel_of_ok idempotencyKey hparameter hid
  refine ⟨_, ?_, ?_, Transaction.step_start_of_ok hmodel⟩
  · rfl
  · rfl

/-- A deposit of a whole number sends exactly the number times 10 ^ 17. -/
theorem sendsAmount_of_whole_number {view : ProtocolDetailView}
    {defaults : UserDefaultsManager} (idempotencyKey : String)
    (hamount : IsNumeral 10 view.depositAmount.toList) (hid : defaults.walletID.isSome) :
    SendsAmount view defaults idempotencyKey
      (value 10 view.depositAmount.toList * 10 ^ 17) :=
  sendsAmount_of_depositParameter idempotencyKey (depositParameter_eq hamount) hid

theorem sendsAmount_of_two_words :
    SendsAmount
      { protocolItem := ⟨1, "Pool", 5, "url", "description", "tvl", "date", "network", "paper"⟩
        depositAmount := "00184467440737095516160" }
      { walletID := some "id" } "key"
      (value 10 "00184467440737095516160".toList * 10 ^ 17) :=
  sendsAmount_of_whole_number "key" (by decide) rfl

/-! ## Fractions -/

theorem depositParameter_eq_none (whole fraction : String) :
    depositParameter (whole ++ "." ++ fraction) = none := by
  have hdot : '.' ∈ (whole ++ "." ++ fraction).toList := by
    rw [String.toList_append, String.toList_append]
    simp
  rw [depositParameter,
    BigInt.ofText_eq_none chunking_ten hdot (by decide) (by decide) (by decide)]
  rfl

/-- A fresh deposit task for a fraction of at most 17 digits sends exactly the
number times 10 ^ 17. -/
def SendsFraction (view : ProtocolDetailView) (defaults : UserDefaultsManager)
    (idempotencyKey : String) (whole fraction : String) : Prop :=
  SendsAmount { view with depositAmount := whole ++ "." ++ fraction } defaults idempotencyKey
    (value 10 (whole.toList ++ fraction.toList) * 10 ^ (17 - fraction.length))

/-- A deposit of a fraction stops the process, whatever the digits are. -/
theorem fraction_traps (view : ProtocolDetailView) (defaults : UserDefaultsManager)
    (idempotencyKey whole fraction : String) :
    ({} : Transaction).step
        ({ view with depositAmount := whole ++ "." ++ fraction } :
          ProtocolDetailView).depositCode defaults (.start idempotencyKey) =
      some (.trap .depositAmount) := by
  have hmodel : ({ view with depositAmount := whole ++ "." ++ fraction } :
      ProtocolDetailView).depositCode.requestModel defaults idempotencyKey =
        .error .depositAmount := by
    simp only [ProtocolDetailView.depositCode, ProtocolDetailView.depositRequestModel,
      depositParameter_eq_none, unwrap]
    rfl
  exact Transaction.step_start_of_error hmodel

theorem not_sendsFraction (view : ProtocolDetailView) (defaults : UserDefaultsManager)
    (idempotencyKey whole fraction : String) :
    ¬ SendsFraction view defaults idempotencyKey whole fraction := by
  rintro ⟨model, -, -, hstep⟩
  rw [fraction_traps] at hstep
  cases Option.some.inj hstep

theorem not_always_sendsFraction :
    ¬ ∀ (view : ProtocolDetailView) (defaults : UserDefaultsManager)
      (idempotencyKey whole fraction : String), defaults.walletID.isSome →
        IsNumeral 10 whole.toList → IsNumeral 10 fraction.toList → fraction.length ≤ 17 →
          SendsFraction view defaults idempotencyKey whole fraction := by
  intro hall
  have hsends := hall
    { protocolItem := ⟨1, "Pool", 5, "url", "description", "tvl", "date", "network", "paper"⟩ }
    { walletID := some "id" } "key" "1" "5" rfl (by decide) (by decide) (by decide)
  obtain ⟨model, -, -, hstep⟩ := hsends
  rw [fraction_traps] at hstep
  cases Option.some.inj hstep

/-! ## The range of the parameters -/

/-- A decimal numeral of a `uint256`. -/
def IsUInt256 (text : String) : Prop :=
  IsNumeral 10 text.toList ∧ value 10 text.toList < 2 ^ 256

/-- A request that a fresh deposit task sends is a call of `depositIntoPool` with
two numerals of `uint256`. -/
def SendsUInt256 (view : ProtocolDetailView) (defaults : UserDefaultsManager)
    (idempotencyKey : String) : Prop :=
  ∀ e request,
    ({} : Transaction).step view.depositCode defaults (.start idempotencyKey) = some e →
    .request request ∈ e.calls →
    ∃ model, request.httpBody = some (.contractExecutionChallenge model) ∧
      model.abiFunctionSignature = some "depositIntoPool(uint256, uint256)" ∧
      ∃ poolId amount, model.abiParameters = some [poolId, amount] ∧
        IsUInt256 poolId ∧ IsUInt256 amount

/-- Some block of 19 characters, counted from the right end of the text behind one
leading sign, is not what the word parser accepts. -/
def HasMalformedDecimalBlock (text : String) : Prop :=
  ∃ block ∈ blocks 19 (BigInt.dropSign text.toList), ¬ Word.IsWordText 10 block

theorem isUInt256_toString (i : Int) : IsUInt256 (toString i) ↔ 0 ≤ i ∧ i < 2 ^ 256 := by
  rw [IsUInt256, Int.toString_eq_repr, Int.repr_eq_if]
  by_cases hnonneg : 0 ≤ i
  · obtain ⟨n, rfl⟩ := Int.eq_ofNat_of_zero_le hnonneg
    rw [if_pos hnonneg, Int.toNat_natCast, Nat.toList_repr, value_toDigits_ten]
    simp only [isNumeral_toDigits_ten, hnonneg, true_and]
    norm_cast
  · rw [if_neg hnonneg, String.toList_append]
    refine iff_of_false ?_ fun h => hnonneg h.1
    rintro ⟨⟨-, hdigits⟩, -⟩
    exact Word.not_isDigit_minus 10 (hdigits '-' List.mem_cons_self)

/-- An accepted text is sent as the integer it is taken for, times 10 ^ 17. -/
theorem depositParameter_of_blocks {depositAmount : String}
    (haccepted : ¬ HasMalformedDecimalBlock depositAmount) :
    depositParameter depositAmount =
      some (toString (BigInt.numberOf 10 19 depositAmount.toList * 10 ^ 17)) := by
  have hblocks : ∀ block ∈ blocks 19 (BigInt.dropSign depositAmount.toList),
      Word.IsWordText 10 block := by
    simpa [HasMalformedDecimalBlock] using haccepted
  obtain ⟨amount, hamount, hnumber⟩ := BigInt.ofText_of_blocks chunking_ten hblocks
  rw [depositParameter, hamount, Option.map_some, BigInt.text_timesWord, hnumber]
  rfl

theorem depositParameter_eq_none_iff (depositAmount : String) :
    depositParameter depositAmount = none ↔ HasMalformedDecimalBlock depositAmount := by
  rw [depositParameter, Option.map_eq_none_iff, ← Option.not_isSome_iff_eq_none,
    BigInt.ofText_isSome_iff chunking_ten, HasMalformedDecimalBlock]
  simp only [not_forall, exists_prop]

/-- A deposit that does not get past both unwraps sends nothing. -/
theorem sendsUInt256_of_trap {view : ProtocolDetailView} {defaults : UserDefaultsManager}
    (idempotencyKey : String)
    (htrap : depositParameter view.depositAmount = none ∨ defaults.walletID = none) :
    SendsUInt256 view defaults idempotencyKey := by
  obtain ⟨trap, hmodel⟩ :
      ∃ trap, view.depositCode.requestModel defaults idempotencyKey = .error trap := by
    cases hresult : view.depositCode.requestModel defaults idempotencyKey with
    | error trap => exact ⟨trap, rfl⟩
    | ok model =>
        obtain ⟨amount, hamount, -⟩ := bind_eq_ok.mp hresult
        rw [unwrap_eq_ok] at hamount
        have hid := ProtocolDetailView.depositRequestModel_spec hresult
        rw [hamount, hid] at htrap
        rcases htrap with htrap | htrap <;> cases htrap
  intro e request hstep hsent
  rw [Transaction.step_start_of_error hmodel] at hstep
  rw [← Option.some.inj hstep] at hsent
  cases hsent

/-- A deposit that gets past both unwraps sends its two parameters. -/
theorem sendsUInt256_of_model {view : ProtocolDetailView} {defaults : UserDefaultsManager}
    {idempotencyKey poolId amount : String} {model : ContractExecutionChallengeRequest}
    (hmodel : view.depositCode.requestModel defaults idempotencyKey = .ok model)
    (hsignature : model.abiFunctionSignature = some "depositIntoPool(uint256, uint256)")
    (hparameters : model.abiParameters = some [poolId, amount]) :
    SendsUInt256 view defaults idempotencyKey ↔ IsUInt256 poolId ∧ IsUInt256 amount := by
  have hstart := Transaction.step_start_of_ok hmodel
  constructor
  · intro hsends
    obtain ⟨model', hbody, -, poolId', amount', hparameters', hrange⟩ :=
      hsends _ _ hstart (List.mem_singleton_self _)
    obtain rfl : model = model' :=
      HTTPBody.contractExecutionChallenge.inj (Option.some.inj hbody)
    rw [hparameters] at hparameters'
    obtain ⟨rfl, hrest⟩ := List.cons.inj (Option.some.inj hparameters')
    obtain ⟨rfl, -⟩ := List.cons.inj hrest
    exact hrange
  · intro hrange e request hstep hsent
    rw [hstart] at hstep
    rw [← Option.some.inj hstep] at hsent
    obtain rfl := OutsideCall.request_mem_singleton.mp hsent
    exact ⟨model, rfl, hsignature, poolId, amount, hparameters, hrange⟩

/-- A deposit task sends valid `uint256` parameters, if any, exactly when its text
is rejected, no wallet is stored, or the id and the scaled amount are in range. -/
theorem sendsUInt256_iff (view : ProtocolDetailView) (defaults : UserDefaultsManager)
    (idempotencyKey : String) :
    SendsUInt256 view defaults idempotencyKey ↔
      HasMalformedDecimalBlock view.depositAmount ∨ defaults.walletID = none ∨
        (0 ≤ view.protocolItem.id.toInt ∧
          0 ≤ BigInt.numberOf 10 19 view.depositAmount.toList ∧
          BigInt.numberOf 10 19 view.depositAmount.toList * 10 ^ 17 < 2 ^ 256) := by
  by_cases hmalformed : HasMalformedDecimalBlock view.depositAmount
  · have hnone := (depositParameter_eq_none_iff _).mpr hmalformed
    exact iff_of_true (sendsUInt256_of_trap idempotencyKey (.inl hnone)) (.inl hmalformed)
  cases hid : defaults.walletID with
  | none => exact iff_of_true (sendsUInt256_of_trap idempotencyKey (.inr hid)) (.inr (.inl rfl))
  | some walletID =>
      have hmodel := depositModel_of_ok idempotencyKey
        (depositParameter_of_blocks hmalformed) hid
      have hid : view.protocolItem.id.toInt < 2 ^ 256 := by
        have hlt := view.protocolItem.id.toInt_lt
        omega
      rw [sendsUInt256_of_model hmodel rfl rfl, isUInt256_toString, isUInt256_toString]
      generalize BigInt.numberOf 10 19 view.depositAmount.toList = number
      simp only [hmalformed, hid, and_true, false_or, reduceCtorEq]
      omega

theorem not_always_sendsUInt256 :
    ¬ ∀ (view : ProtocolDetailView) (defaults : UserDefaultsManager) (idempotencyKey : String),
      view.depositAmount ≠ "" → SendsUInt256 view defaults idempotencyKey := by
  intro hall
  let view : ProtocolDetailView :=
    { protocolItem := ⟨1, "Pool", 5, "url", "description", "tvl", "date", "network", "paper"⟩
      depositAmount := "-1" }
  let defaults : UserDefaultsManager := { walletID := some "id" }
  have hamount : depositParameter view.depositAmount = some "-100000000000000000" := by decide
  have hid : defaults.walletID = some "id" := rfl
  have hmodel := depositModel_of_ok "key" hamount hid
  have hsends := hall view defaults "key" (by decide)
  rw [sendsUInt256_of_model hmodel rfl rfl] at hsends
  exact absurd hsends.2.1 (by decide)

end YieldMe
