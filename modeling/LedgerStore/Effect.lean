/-
  The transaction effect compiler: `TxnEffect::compute_effect` and
  `TxnEffect::deep_invariant_check` (`store.rs`).

  * `Verifier`: the signature and proof checks `compute_effect` calls, as
    deterministic oracles;
  * `effectStep`: one turn of the loop over the operations, with the
    `assert!(txo_count == txos.len())` at its head, split into
    `defineAssetStep`, `issueAssetStep` and `transferAssetStep`
    (`transferInput` for one input of a transfer);
  * `computeEffect`, and `TxnEffect.Computed`: an effect `compute_effect`
    returns for its own transaction, its maps enumerated in any order.
-/
import LedgerStore.Basic

namespace LedgerStore

/-- The checks `compute_effect` delegates: `verifyDefine k b s` is
    `k.verify(&serde_json::to_vec(&b).unwrap(), &s)` on a `DefineAssetBody`,
    `verifyIssue` the same on an `IssueAssetBody`, `verifyBodySig s b` is
    `s.verify(&serde_json::to_vec(&b).unwrap())` on a transfer body, and
    `verifyXfrNote` is zei's `verify_xfr_note` with no policies. -/
structure Verifier (P : Prims) where
  verifyDefine : P.Key → DefineAssetBody P → P.Sig → Bool
  verifyIssue : P.Key → IssueAssetBody P → P.Sig → Bool
  verifyBodySig : P.Sig → TransferAssetBody P → Bool
  verifyXfrNote : XfrNote P → Bool

/-- The locals of `compute_effect`'s loop. -/
structure EffectState (P : Prims) where
  txoCount : Nat
  txos : List (Option (TxOutput P))
  inputTxos : HashMap Nat P.Rec
  newAssetCodes : HashMap P.Code (AssetType P)
  newIssuanceNums : HashMap P.Code (List UInt64)

variable {P : Prims} (V : Verifier P)

/-- The locals before the first operation. -/
def EffectState.init : EffectState P := ⟨0, [], ∅, ∅, ∅⟩

/-- `Operation::DefineAsset`: the signature, then the code must not be defined
    or issued earlier in this transaction. -/
def defineAssetStep (st : EffectState P) (d : DefineAsset P) : Except Failure (EffectState P) := do
  if !V.verifyDefine d.pubkey d.body d.signature then throw (.err .zeiError)
  let code := d.body.asset.code
  let token : AssetType P := { properties := d.body.asset }
  if code ∈ st.newAssetCodes ∨ code ∈ st.newIssuanceNums then throw (.err .inputsError)
  pure { st with newAssetCodes := st.newAssetCodes.insert code token,
                 newIssuanceNums := st.newIssuanceNums.insert code [] }

/-- `Operation::IssueAsset`: the output count, the sequence number against the
    last one of this code in this transaction, the signature; then the
    records become new output slots. -/
def issueAssetStep (st : EffectState P) (iss : IssueAsset P) : Except Failure (EffectState P) := do
  if iss.body.numOutputs ≠ iss.body.records.length then throw (.err .inputsError)
  if iss.body.numOutputs ≠ iss.body.records.length then throw .panic
  let code := iss.body.code
  let seqNum := iss.body.seqNum
  let nums := if code ∈ st.newIssuanceNums then st.newIssuanceNums
    else st.newIssuanceNums.insert code []
  let some issNums := nums.lookup code | throw .panic
  if issNums.getLast?.isSome then
    let some last := issNums[issNums.length - 1]? | throw .panic
    if seqNum ≤ last then throw (.err .inputsError)
  let nums := nums.replace code (issNums ++ [seqNum])
  if !V.verifyIssue iss.pubkey iss.body iss.signature then throw (.err .zeiError)
  pure { st with txos := st.txos ++ iss.body.records.map some,
                 txoCount := st.txoCount + iss.body.records.length,
                 newIssuanceNums := nums }

/-- One `(inp, record)` of a transfer: a `Relative(offs)` input must name a
    slot of this transaction that is still present and holds `record`, and
    empties it; an `Absolute(sid)` input is recorded in `input_txos`, once. -/
def transferInput (st : EffectState P) : TxoRef × P.Rec → Except Failure (EffectState P)
  | (.relative offs, record) => do
    if offs ≥ st.txoCount then throw (.err .inputsError)
    let ix := (st.txoCount - 1) - offs
    match st.txos[ix]? with
    | none => throw .panic
    | some none => throw (.err .inputsError)
    | some (some inpRecord) =>
      if inpRecord.record ≠ record then throw (.err .inputsError)
      pure { st with txos := st.txos.set ix none }
  | (.absolute sid, record) => do
    if sid ∈ st.inputTxos then throw (.err .inputsError)
    pure { st with inputTxos := st.inputTxos.insert sid record }

/-- `Operation::TransferAsset`: the counts, the body signatures, the transfer
    proof, each input, then the outputs become new output slots. -/
def transferAssetStep (st : EffectState P) (trn : TransferAsset P) :
    Except Failure (EffectState P) := do
  if trn.body.inputs.length ≠ trn.body.transfer.body.inputs.length then throw (.err .inputsError)
  if trn.body.numOutputs ≠ trn.body.transfer.body.outputs.length then throw (.err .inputsError)
  if trn.body.inputs.length ≠ trn.body.transfer.body.inputs.length then throw .panic
  if trn.body.numOutputs ≠ trn.body.transfer.body.outputs.length then throw .panic
  if !trn.bodySignatures.all (V.verifyBodySig · trn.body) then throw (.err .inputsError)
  if !V.verifyXfrNote trn.body.transfer then throw (.err .zeiError)
  let st ← (trn.body.inputs.zip trn.body.transfer.body.inputs).foldlM transferInput st
  let outs := trn.body.transfer.body.outputs
  pure { st with txos := st.txos ++ outs.map fun r => some ⟨r⟩,
                 txoCount := st.txoCount + outs.length }

/-- One turn of the loop over the operations. -/
def effectStep (st : EffectState P) (op : Operation P) : Except Failure (EffectState P) := do
  if st.txoCount ≠ st.txos.length then throw .panic
  match op with
  | .defineAsset d => defineAssetStep V st d
  | .issueAsset iss => issueAssetStep V st iss
  | .transferAsset trn => transferAssetStep V st trn

/-- `TxnEffect::compute_effect`. -/
def computeEffect (txn : Transaction P) : Except Failure (TxnEffect P) := do
  let st ← txn.operations.foldlM (effectStep V) EffectState.init
  pure { txn, txos := st.txos, inputTxos := st.inputTxos, newAssetCodes := st.newAssetCodes,
         newIssuanceNums := st.newIssuanceNums }

/-! ## One operation at a time -/

section
variable {V} {st st' : EffectState P}

theorem defineAssetStep_eq_ok {d : DefineAsset P} :
    defineAssetStep V st d = .ok st' ↔
      V.verifyDefine d.pubkey d.body d.signature = true ∧
      d.body.asset.code ∉ st.newAssetCodes ∧ d.body.asset.code ∉ st.newIssuanceNums ∧
      st' = { st with newAssetCodes := st.newAssetCodes.insert d.body.asset.code ⟨d.body.asset⟩,
                      newIssuanceNums := st.newIssuanceNums.insert d.body.asset.code [] } := by
  unfold defineAssetStep
  by_cases hv : V.verifyDefine d.pubkey d.body d.signature <;>
    by_cases h₁ : d.body.asset.code ∈ st.newAssetCodes <;>
    by_cases h₂ : d.body.asset.code ∈ st.newIssuanceNums <;>
    simp [hv, h₁, h₂, eq_comm]

/-- The issuance numbers of `code` so far in this transaction. -/
def issuanceNumsOf (m : HashMap P.Code (List UInt64)) (code : P.Code) : List UInt64 :=
  (m.lookup code).getD []

theorem lookup_ensure (m : HashMap P.Code (List UInt64)) (code : P.Code) :
    (if code ∈ m then m else m.insert code []).lookup code = some (issuanceNumsOf m code) := by
  by_cases h : code ∈ m
  · obtain ⟨v, hv⟩ := Option.isSome_iff_exists.1 (AList.lookup_isSome.2 h)
    simp [h, hv, issuanceNumsOf]
  · simp [h, AList.lookup_insert, AList.lookup_eq_none.2 h, issuanceNumsOf]

theorem issueAssetStep_eq_ok {iss : IssueAsset P} :
    issueAssetStep V st iss = .ok st' ↔
      iss.body.numOutputs = iss.body.records.length ∧
      (∀ l ∈ (issuanceNumsOf st.newIssuanceNums iss.body.code).getLast?, l < iss.body.seqNum) ∧
      V.verifyIssue iss.pubkey iss.body iss.signature = true ∧
      st' = { st with
        txos := st.txos ++ iss.body.records.map some,
        txoCount := st.txoCount + iss.body.records.length,
        newIssuanceNums :=
          (if iss.body.code ∈ st.newIssuanceNums then st.newIssuanceNums
            else st.newIssuanceNums.insert iss.body.code []).replace iss.body.code
          (issuanceNumsOf st.newIssuanceNums iss.body.code ++ [iss.body.seqNum]) } := by
  unfold issueAssetStep
  simp only [lookup_ensure]
  generalize issuanceNumsOf st.newIssuanceNums iss.body.code = nums
  by_cases hn : iss.body.numOutputs = iss.body.records.length
  · cases hl : nums.getLast? with
    | none =>
      by_cases hv : V.verifyIssue iss.pubkey iss.body iss.signature <;> simp [hn, hl, hv, eq_comm]
    | some l =>
      have hi : nums[nums.length - 1]? = some l := by rw [← List.getLast?_eq_getElem?, hl]
      by_cases hlt : iss.body.seqNum ≤ l <;>
        by_cases hv : V.verifyIssue iss.pubkey iss.body iss.signature <;>
        simp [hn, hl, hi, hlt, hv, eq_comm, UInt64.not_le.1]
  · simp [hn]

theorem transferInput_relative_eq_ok {offs : Nat} {record : P.Rec} :
    transferInput st (.relative offs, record) = .ok st' ↔ offs < st.txoCount ∧
      ∃ o : TxOutput P, st.txos[st.txoCount - 1 - offs]? = some (some o) ∧ o.record = record ∧
        st' = { st with txos := st.txos.set (st.txoCount - 1 - offs) none } := by
  simp only [transferInput]
  by_cases h : offs ≥ st.txoCount
  · simp [h]
  · have h' : offs < st.txoCount := Nat.lt_of_not_le h
    rcases hx : st.txos[st.txoCount - 1 - offs]? with _ | _ | o
    · simp [h, hx]
    · simp [h, hx]
    · by_cases hr : o.record = record
      · simp [h, h', hx, hr, eq_comm]
      · simp [h, hx, hr, Ne.symm hr]

theorem transferInput_absolute_eq_ok {sid : Nat} {record : P.Rec} :
    transferInput st (.absolute sid, record) = .ok st' ↔ sid ∉ st.inputTxos ∧
      st' = { st with inputTxos := st.inputTxos.insert sid record } := by
  simp only [transferInput]
  by_cases h : sid ∈ st.inputTxos <;> simp [h, eq_comm]

theorem transferInput_frame {p : TxoRef × P.Rec} (h : transferInput st p = .ok st') :
    st'.newAssetCodes = st.newAssetCodes ∧ st'.newIssuanceNums = st.newIssuanceNums := by
  rcases p with ⟨_ | sid, record⟩
  · obtain ⟨-, o, -, -, rfl⟩ := transferInput_relative_eq_ok.1 h
    exact ⟨rfl, rfl⟩
  · obtain ⟨-, rfl⟩ := transferInput_absolute_eq_ok.1 h
    exact ⟨rfl, rfl⟩

theorem transferAssetStep_eq_ok {trn : TransferAsset P} :
    transferAssetStep V st trn = .ok st' ↔
      trn.body.inputs.length = trn.body.transfer.body.inputs.length ∧
      trn.body.numOutputs = trn.body.transfer.body.outputs.length ∧
      trn.bodySignatures.all (V.verifyBodySig · trn.body) = true ∧
      V.verifyXfrNote trn.body.transfer = true ∧
      ∃ st₁, (trn.body.inputs.zip trn.body.transfer.body.inputs).foldlM transferInput st = .ok st₁ ∧
        st' = { st₁ with txos := st₁.txos ++ trn.body.transfer.body.outputs.map fun r => some ⟨r⟩,
                         txoCount := st₁.txoCount + trn.body.transfer.body.outputs.length } := by
  unfold transferAssetStep
  by_cases h₁ : trn.body.inputs.length = trn.body.transfer.body.inputs.length <;>
    by_cases h₂ : trn.body.numOutputs = trn.body.transfer.body.outputs.length <;>
    by_cases h₃ : trn.bodySignatures.all (V.verifyBodySig · trn.body) <;>
    by_cases h₄ : V.verifyXfrNote trn.body.transfer <;>
    simp [h₁, h₂, h₃, h₄, except_bind_eq_ok, @eq_comm _ st']

/-- A transfer leaves the asset definitions and issuance numbers alone. -/
theorem transferAssetStep_frame {trn : TransferAsset P} (h : transferAssetStep V st trn = .ok st') :
    st'.newAssetCodes = st.newAssetCodes ∧ st'.newIssuanceNums = st.newIssuanceNums := by
  obtain ⟨-, -, -, -, st₁, h₁, rfl⟩ := transferAssetStep_eq_ok.1 h
  simpa using foldlM_except_induction
    (fun (b : EffectState P) (_ : List (TxoRef × P.Rec)) => b.newAssetCodes = st.newAssetCodes ∧
      b.newIssuanceNums = st.newIssuanceNums)
    (fun _ _ _ _ hb hs => ⟨(transferInput_frame hs).1.trans hb.1,
      (transferInput_frame hs).2.trans hb.2⟩)
    [] ⟨rfl, rfl⟩ h₁

theorem effectStep_eq_ok {op : Operation P} :
    effectStep V st op = .ok st' ↔ st.txoCount = st.txos.length ∧
      match op with
      | .defineAsset d => defineAssetStep V st d = .ok st'
      | .issueAsset iss => issueAssetStep V st iss = .ok st'
      | .transferAsset trn => transferAssetStep V st trn = .ok st' := by
  unfold effectStep
  by_cases h : st.txoCount = st.txos.length <;> cases op <;> simp [h]

end

/-! ## Concrete transactions

On `natPrims`, a signature is valid iff it is the signer's key, and every
transfer signature and transfer proof verifies. -/

/-- Signatures of `natPrims`: a key signs with itself. -/
def keyVerifier : Verifier natPrims :=
  ⟨fun k _ s => decide (s = k), fun k _ s => decide (s = k), fun _ _ => true, fun _ => true⟩

/-- A `DefineAsset` of `code` with issuer `key`, signed by `key`. -/
def defineTx (code key : Nat) : Transaction natPrims :=
  ⟨[.defineAsset ⟨⟨⟨code, key⟩⟩, key, key⟩]⟩

/-- An `IssueAsset` of one record `7` of `code` with number `seqNum`, signed
    by `key`. -/
def issueTx (code : Nat) (seqNum : UInt64) (key : Nat) : Transaction natPrims :=
  ⟨[.issueAsset ⟨⟨code, seqNum, 1, [⟨7⟩]⟩, key, key⟩]⟩

/-- The definition of code `1` by key `1`, then an issuance of it. -/
def defineThenIssue : Transaction natPrims :=
  ⟨(defineTx 1 1).operations ++ (issueTx 1 0 1).operations⟩

/-- A transfer of ledger output `sid`, said to hold record `7`, to records
    `8` and `9`. -/
def transferTx (sid : Nat) : Transaction natPrims :=
  ⟨[.transferAsset ⟨⟨[.absolute sid], 2, ⟨⟨[7], [8, 9], 0⟩, 0⟩⟩, []⟩]⟩

/-- An issuance of record `7`, then a transfer consuming it (`Relative(0)`)
    with no outputs. -/
def issueThenBurn : Transaction natPrims :=
  ⟨(issueTx 1 0 1).operations ++
    [.transferAsset ⟨⟨[.relative 0], 0, ⟨⟨[7], [], 0⟩, 0⟩⟩, []⟩]⟩

/-- An issuance of record `7`, then a transfer of it (`Relative(0)`) together
    with ledger output `5`, also claimed to hold record `7`. -/
def issueThenMixedTransfer : Transaction natPrims :=
  ⟨(issueTx 1 0 1).operations ++
    [.transferAsset ⟨⟨[.relative 0, .absolute 5], 1, ⟨⟨[7, 7], [9], 0⟩, 0⟩⟩, []⟩]⟩

/-- Issuances of code `2`, then of code `1`, each numbered `0` and signed by
    key `1`. -/
def issueTwoCodes : Transaction natPrims :=
  ⟨(issueTx 2 0 1).operations ++ (issueTx 1 0 1).operations⟩

/-- `e` is what `compute_effect` returns for `e.txn`, up to the iteration order
    of its three `HashMap`s. -/
def TxnEffect.Computed (e : TxnEffect P) : Prop :=
  ∃ e₀, computeEffect V e.txn = .ok e₀ ∧ e.txos = e₀.txos ∧
    e.inputTxos.entries.Perm e₀.inputTxos.entries ∧
    e.newAssetCodes.entries.Perm e₀.newAssetCodes.entries ∧
    e.newIssuanceNums.entries.Perm e₀.newIssuanceNums.entries

theorem computed_of_computeEffect {txn : Transaction P} {e : TxnEffect P}
    (h : computeEffect V txn = .ok e) : e.Computed V := by
  have he : e.txn = txn := by
    simp only [computeEffect, bind, Except.bind] at h
    split at h <;> cases h; rfl
  exact ⟨e, he ▸ h, rfl, .refl _, .refl _, .refl _⟩

/-! ## `deep_invariant_check` -/

/-- The inner loop of `deep_invariant_check` over the inputs of one transfer,
    for the external input `(txoSid, record)`; the state is `found`. -/
def checkTransferInputs (txoSid : Nat) (record : P.Rec) (found : Bool) :
    List (TxoRef × P.Rec) → Except Failure Bool
  | [] => pure found
  | (.absolute inputTid, inpRecord) :: rest => do
    if inputTid = txoSid then
      if inpRecord ≠ record then throw (.err (.invariantError none))
      if found then throw (.err (.invariantError none))
      checkTransferInputs txoSid record true rest
    else checkTransferInputs txoSid record found rest
  | (.relative _, inpRecord) :: rest => do
    if inpRecord = record then throw (.err (.invariantError none))
    checkTransferInputs txoSid record found rest

/-- The loop over the operations for one external input. -/
def checkOperations (txoSid : Nat) (record : P.Rec) (found : Bool) (op : Operation P) :
    Except Failure Bool :=
  match op with
  | .transferAsset trn => do
    if trn.body.inputs.length ≠ trn.body.transfer.body.inputs.length then
      throw (.err (.invariantError none))
    checkTransferInputs txoSid record found (trn.body.inputs.zip trn.body.transfer.body.inputs)
  | _ => pure found

/-- `TxnEffect::deep_invariant_check`: every external input is claimed by
    exactly one transfer input with a matching record, and recomputing the
    effect from its transaction gives it back. -/
def TxnEffect.deepInvariantCheck (e : TxnEffect P) : Except Failure Unit := do
  for inp in e.inputTxos.entries do
    let found ← e.txn.operations.foldlM (checkOperations inp.1 inp.2) false
    if !found then throw (.err (.invariantError none))
  let e₀ ← computeEffect V e.txn
  if !e₀.beq e then throw (.err (.invariantError none))

end LedgerStore
