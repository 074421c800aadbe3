/-
  The transfer builders of `txn_builder.rs`.

  * `AssetRecord` and `OpenAssetRecord` (zei) by the fields the builders
    read; `Zei` gathers the calls into zei and `data_model` whose sources are
    not in the repository, as oracles;
  * `TransferOperationBuilder` with `add_input`, `add_output`, `balance`,
    `create` and `transaction`, and `BuildsTransactions::add_basic_transfer_asset`
    on a `TransactionBuilder`; both run `consumeStep` over the pairs of
    spent amount and input record;
  * amounts are `u64`: their totals wrap, as in release builds, and
    `exactTotal` is the total as a natural number;
  * `consume_eq`: the loop in closed form; `balance_eq_ok`: when `balance`
    passes, and what it appends; `total_of_balanced`: what the check
    guarantees of the totals;
  * `build_balance`: after any sequence of `add_input` and `add_output`
    calls, an `Ok` from `balance` means every spend is within its record and
    the outputs' exact total equals the inputs' modulo `2 ^ 64`, exactly so
    when neither the inputs nor the outputs added overflow;
    `addBasicTransferAsset_ok`: the same of the records
    `add_basic_transfer_asset` passes on;
  * `balance_accepts_overflow`: two outputs of `2 ^ 63` balance an input of
    `0`;
  * `sign` and `validate_signatures`: `validateSignatures_eq`, its two loops
    in closed form with the order of their errors;
    `validateSignatures_after_sign`: signing with the key pairs of the input
    records' owners makes `validate_signatures` pass.
-/
import LedgerStore.Effect
import LedgerStore.Status
import Mathlib.Algebra.Group.Nat.Basic

namespace LedgerStore

variable {P : Prims}

/-! ## Amounts -/

/-- The exact total of `u64` amounts. -/
def exactTotal (l : List UInt64) : Nat := l.foldr (fun a s => a.toNat + s) 0

@[simp] theorem exactTotal_nil : exactTotal [] = 0 := rfl

@[simp] theorem exactTotal_cons (a : UInt64) (l : List UInt64) :
    exactTotal (a :: l) = a.toNat + exactTotal l := rfl

@[simp] theorem exactTotal_append (l l' : List UInt64) :
    exactTotal (l ++ l') = exactTotal l + exactTotal l' := by
  induction l with
  | nil => simp
  | cons a l ih => simp [ih, Nat.add_assoc]

theorem uint64_toNat_add (a b : UInt64) : (a + b).toNat = (a.toNat + b.toNat) % 2 ^ 64 := by
  show (a.toBitVec + b.toBitVec).toNat = _
  rw [BitVec.toNat_add]
  rfl

/-- The wrapping total `iter().sum()` (or the `fold` with `+`) is the exact
    total modulo `2 ^ 64`. -/
theorem foldl_add_toNat (l : List UInt64) (acc : UInt64) :
    (l.foldl (· + ·) acc).toNat = (acc.toNat + exactTotal l) % 2 ^ 64 := by
  induction l generalizing acc with
  | nil => simpa using (Nat.mod_eq_of_lt acc.toBitVec.isLt).symm
  | cons a l ih =>
    rw [List.foldl_cons, ih, uint64_toNat_add, Nat.mod_add_mod, exactTotal_cons, Nat.add_assoc]

/-! ## Records -/

/-- zei's `AssetRecord`: an amount of an asset type (the code's bytes,
    identified with the code) for a public key. -/
structure AssetRecord (P : Prims) where
  amount : UInt64
  assetType : P.Code
  publicKey : P.Key
  deriving DecidableEq

/-- zei's `OpenAssetRecord`, by its getters `get_amount`, `get_asset_type`
    and `get_pub_key`. -/
structure OpenAssetRecord (P : Prims) where
  amount : UInt64
  assetType : P.Code
  pubKey : P.Key
  deriving DecidableEq

/-- zei's `AssetRecord::new`, taken to return the record of its arguments. -/
def AssetRecord.new (amount : UInt64) (assetType : P.Code) (publicKey : P.Key) : AssetRecord P :=
  ⟨amount, assetType, publicKey⟩

/-- `AccountAddress`: a public key. -/
structure AccountAddress (P : Prims) where
  key : P.Key

/-- The calls of the builders whose sources are not in the repository:
    `open_asset_record` with a key pair's secret key (`none` for its
    `ZeiError`), `TransferAssetBody::new` on the inputs and the output
    records, and `TransferAsset::new`. -/
structure Zei (P : Prims) where
  KeyPair : Type
  openAssetRecord : P.Rec → KeyPair → Option (OpenAssetRecord P)
  transferAssetBodyNew : List TxoRef → List (OpenAssetRecord P) → List (AssetRecord P) →
    Except PlatformError (TransferAssetBody P)
  transferAssetNew : TransferAssetBody P → Except PlatformError (TransferAsset P)

/-- The keys `validate_signatures` compares by their bytes: the address key
    of a body signature (`sig.address.key`) and the owner of a blind asset
    record (`record.public_key`). -/
structure Owners (P : Prims) where
  sigKey : P.Sig → P.Key
  recordKey : P.Rec → P.Key

/-! ## Consuming the inputs -/

/-- One turn of the loop over `(spend_amount, oar)`: spending more than the
    record holds is an `InputsError`; spending less returns the rest to the
    record's owner as a new record. -/
def consumeStep (partiallyConsumedInputs : List (AssetRecord P)) (p : UInt64 × OpenAssetRecord P) :
    Except PlatformError (List (AssetRecord P)) :=
  if p.1 > p.2.amount then throw .inputsError
  else if p.1 < p.2.amount then
    pure (partiallyConsumedInputs ++ [AssetRecord.new (p.2.amount - p.1) p.2.assetType p.2.pubKey])
  else pure partiallyConsumedInputs

/-- The records the loop returns to the inputs' owners. -/
def refunds (ps : List (UInt64 × OpenAssetRecord P)) : List (AssetRecord P) :=
  ps.filterMap fun p =>
    if p.1 < p.2.amount then some (AssetRecord.new (p.2.amount - p.1) p.2.assetType p.2.pubKey)
    else none

/-- The loop in closed form: it fails iff some spend exceeds its record. -/
theorem consume_eq (ps : List (UInt64 × OpenAssetRecord P)) (acc : List (AssetRecord P)) :
    ps.foldlM consumeStep acc =
      if ps.all (fun p => p.1 ≤ p.2.amount) then .ok (acc ++ refunds ps) else .error .inputsError := by
  induction ps generalizing acc with
  | nil => simp [refunds]
  | cons p ps ih =>
    rw [List.foldlM_cons]
    by_cases hgt : p.1 > p.2.amount
    · simp [consumeStep, hgt, UInt64.not_le.2 hgt]
    · have hle : p.1 ≤ p.2.amount := UInt64.not_lt.1 hgt
      rw [List.all_cons, decide_eq_true hle, Bool.true_and]
      by_cases hlt : p.1 < p.2.amount <;> simp [consumeStep, hgt, hlt, ih, refunds]

theorem consume_eq_ok {ps : List (UInt64 × OpenAssetRecord P)} {acc out : List (AssetRecord P)} :
    ps.foldlM consumeStep acc = .ok out ↔ (∀ p ∈ ps, p.1 ≤ p.2.amount) ∧ out = acc ++ refunds ps := by
  rw [consume_eq]
  by_cases hs : ∀ p ∈ ps, p.1 ≤ p.2.amount
  · rw [if_pos (List.all_eq_true.2 fun p hp => decide_eq_true (hs p hp))]
    exact ⟨fun h => ⟨hs, (Except.ok.inj h).symm⟩, fun h => h.2 ▸ rfl⟩
  · rw [if_neg fun hb => hs fun p hp => of_decide_eq_true (List.all_eq_true.1 hb p hp)]
    exact ⟨fun h => (nomatch h), fun h => absurd h.1 hs⟩

theorem mapError_eq_ok {ε ε' α : Type} {x : Except ε α} {f : ε → ε'} {a : α} :
    x.mapError f = .ok a ↔ x = .ok a := by
  cases x <;> simp [Except.mapError]

/-- What the refunds add up to: with the spends, the amounts of the records. -/
theorem exactTotal_refunds {ps : List (UInt64 × OpenAssetRecord P)}
    (h : ∀ p ∈ ps, p.1 ≤ p.2.amount) :
    exactTotal ((refunds ps).map (·.amount)) + exactTotal (ps.map (·.1)) =
      exactTotal (ps.map (·.2.amount)) := by
  induction ps with
  | nil => rfl
  | cons p ps ih =>
    have hp : p.1.toNat ≤ p.2.amount.toNat := h p (.head _)
    have ih := ih fun q hq => h q (.tail _ hq)
    by_cases hlt : p.1 < p.2.amount
    · simp only [refunds, List.filterMap_cons, hlt, if_true, List.map_cons, exactTotal_cons,
        AssetRecord.new, UInt64.toNat_sub_of_le _ _ (h p (.head _))] at ih ⊢
      omega
    · have : p.1.toNat = p.2.amount.toNat := Nat.le_antisymm hp (UInt64.not_lt.1 hlt)
      simp only [refunds, List.filterMap_cons, hlt, if_false, List.map_cons, exactTotal_cons] at ih ⊢
      omega

/-- When the spends are within their records and their wrapping total is
    that of the outputs `outs`, the outputs and the refunds total the records'
    amounts modulo `2 ^ 64`, and exactly when neither side overflows. -/
theorem total_of_balanced {ps : List (UInt64 × OpenAssetRecord P)} {outs : List UInt64}
    (hs : ∀ p ∈ ps, p.1 ≤ p.2.amount) (htot : (ps.map (·.1)).foldl (· + ·) 0 = outs.foldl (· + ·) 0) :
    exactTotal (outs ++ (refunds ps).map (·.amount)) % 2 ^ 64 =
      exactTotal (ps.map (·.2.amount)) % 2 ^ 64 ∧
    (exactTotal (ps.map (·.2.amount)) < 2 ^ 64 → exactTotal outs < 2 ^ 64 →
      exactTotal (outs ++ (refunds ps).map (·.amount)) = exactTotal (ps.map (·.2.amount))) := by
  have href := exactTotal_refunds hs
  have hmod := congrArg UInt64.toNat htot
  simp only [foldl_add_toNat, UInt64.toNat_zero, Nat.zero_add] at hmod
  rw [exactTotal_append]
  refine ⟨by omega, fun hin hout => ?_⟩
  rw [Nat.mod_eq_of_lt (by omega), Nat.mod_eq_of_lt hout] at hmod
  omega

/-! ## `TransferOperationBuilder` -/

/-- `TransferOperationBuilder`, without `transfer_type`, which nothing
    reads. -/
structure TransferOperationBuilder (P : Prims) where
  inputSids : List TxoRef
  inputRecords : List (OpenAssetRecord P)
  spendAmounts : List UInt64
  outputRecords : List (AssetRecord P)
  transfer : Option (TransferAsset P)

namespace TransferOperationBuilder

/-- `TransferOperationBuilder::new`. -/
def new : TransferOperationBuilder P := ⟨[], [], [], [], none⟩

/-- The error of a mutation after `create`. -/
def signedError : PlatformError :=
  .invariantError (some "Cannot mutate a transfer that has been signed")

/-- `add_input`: an input, its record, and the amount of it to spend. -/
def addInput (b : TransferOperationBuilder P) (txoSid : TxoRef) (openAr : OpenAssetRecord P)
    (amount : UInt64) : Except PlatformError (TransferOperationBuilder P) := do
  if b.transfer.isSome then throw signedError
  pure { b with inputSids := b.inputSids ++ [txoSid], inputRecords := b.inputRecords ++ [openAr],
                spendAmounts := b.spendAmounts ++ [amount] }

/-- `add_output`: a record of `amount` of `code` for `recipient`. -/
def addOutput (b : TransferOperationBuilder P) (amount : UInt64) (recipient : P.Key)
    (code : P.Code) : Except PlatformError (TransferOperationBuilder P) := do
  if b.transfer.isSome then throw signedError
  pure { b with outputRecords := b.outputRecords ++ [AssetRecord.new amount code recipient] }

/-- `balance`: the spends must be within their records and total (wrapping)
    the outputs' amounts; what is not spent goes back to the inputs' owners
    as new outputs. -/
def balance (b : TransferOperationBuilder P) : Except PlatformError (TransferOperationBuilder P) := do
  if b.transfer.isSome then throw signedError
  let spendTotal : UInt64 := b.spendAmounts.foldl (· + ·) 0
  let partiallyConsumedInputs ← (b.spendAmounts.zip b.inputRecords).foldlM consumeStep []
  let outputTotal : UInt64 := b.outputRecords.foldl (fun acc ar => acc + ar.amount) 0
  if spendTotal ≠ outputTotal then throw .inputsError
  pure { b with outputRecords := b.outputRecords ++ partiallyConsumedInputs }

/-- `create`: the transfer of the inputs and outputs, after which the
    builder no longer changes. -/
def create (Z : Zei P) (b : TransferOperationBuilder P) :
    Except PlatformError (TransferOperationBuilder P) := do
  let body ← Z.transferAssetBodyNew b.inputSids b.inputRecords b.outputRecords
  let trn ← Z.transferAssetNew body
  pure { b with transfer := some trn }

/-- `transaction`: the transfer operation, once created. -/
def transaction (b : TransferOperationBuilder P) : Except PlatformError (Operation P) :=
  match b.transfer with
  | none => throw (.invariantError (some "Must create transfer"))
  | some trn => pure (.transferAsset trn)

/-- **`balance`.**  It passes iff the transfer is not created, every spend
    is within its record, and the spends total (wrapping) the outputs'
    amounts; it then appends the refunds. -/
theorem balance_eq_ok {b b' : TransferOperationBuilder P} :
    b.balance = .ok b' ↔ b.transfer = none ∧
      (∀ p ∈ b.spendAmounts.zip b.inputRecords, p.1 ≤ p.2.amount) ∧
      b.spendAmounts.foldl (· + ·) 0 = (b.outputRecords.map (·.amount)).foldl (· + ·) 0 ∧
      b' = { b with outputRecords := b.outputRecords ++ refunds (b.spendAmounts.zip b.inputRecords) } := by
  rw [List.foldl_map]
  unfold balance
  rcases b with ⟨sids, oars, spends, outs, _ | trn⟩
  · simp only [Option.isSome_none, consume_eq, List.all_eq_true, decide_eq_true_eq]
    by_cases hs : ∀ p ∈ spends.zip oars, p.1 ≤ p.2.amount
    · rw [if_pos hs]
      by_cases ht : spends.foldl (· + ·) 0 = outs.foldl (fun acc ar => acc + ar.amount) 0
      · simp only [ht, ne_eq, not_true_eq_false, if_false, Option.isSome_none, Bool.false_eq_true,
          List.nil_append, except_ok_bind, except_pure, Except.ok.injEq, true_and]
        exact ⟨fun h => ⟨hs, h.symm⟩, fun h => h.2.symm⟩
      · simp [ht]
    · rw [if_neg hs]
      exact ⟨fun h => by simp at h, fun h => absurd h.2.1 hs⟩
  · simp

/-! ### Signatures -/

/-- The error of `sign` and `validate_signatures` before `create`. -/
def notFinalizedError : PlatformError :=
  .invariantError (some "Transaction has not yet been finalized")

/-- `sign`: the created transfer, signed with `kp` by `TransferAsset::sign`
    (`signTransfer`, whose source is not in the repository). -/
def sign {KeyPair : Type} (signTransfer : TransferAsset P → KeyPair → TransferAsset P)
    (b : TransferOperationBuilder P) (kp : KeyPair) : Except PlatformError (TransferOperationBuilder P) :=
  match b.transfer with
  | none => throw notFinalizedError
  | some trn => pure { b with transfer := some (signTransfer trn kp) }

section
variable (V : Verifier P) (O : Owners P)

/-- One turn of the loop over the body signatures: the signature must verify
    on the body, as `compute_effect` checks it; its key joins `sig_keys`. -/
def checkBodySignature (body : TransferAssetBody P) (sigKeys : List P.Key) (sig : P.Sig) :
    Except PlatformError (List P.Key) :=
  if !V.verifyBodySig sig body then throw (.invariantError (some "Invalid signature"))
  else pure (sigKeys.insert (O.sigKey sig))

/-- `validate_signatures`: every body signature verifies, and the owner of
    every input record of the transfer has signed. -/
def validateSignatures (b : TransferOperationBuilder P) :
    Except PlatformError (TransferOperationBuilder P) := do
  let some trn := b.transfer | throw notFinalizedError
  let sigKeys ← trn.bodySignatures.foldlM (checkBodySignature V O trn.body) []
  trn.body.transfer.body.inputs.forM fun record =>
    if O.recordKey record ∉ sigKeys then throw (.invariantError (some "Not all signatures present"))
    else pure ()
  pure b

/-- A loop whose every turn passes or fails with `x`, and not every turn
    passes, fails with `x`. -/
theorem forM_eq_error_of {α ε : Type} {l : List α} {f : α → Except ε Unit} {x : ε}
    (hf : ∀ a ∈ l, f a = .ok () ∨ f a = .error x) (h : ¬ ∀ a ∈ l, f a = .ok ()) :
    l.forM f = .error x := by
  induction l with
  | nil => exact absurd (fun a ha => absurd ha (List.not_mem_nil a)) h
  | cons a l ih =>
    rw [List.forM_cons']
    rcases hf a (.head _) with ha | ha
    · rw [ha, except_ok_bind]
      exact ih (fun b hb => hf b (.tail _ hb)) fun hl => h (List.forall_mem_cons.2 ⟨ha, hl⟩)
    · rw [ha]
      rfl

theorem mem_foldl_insert {α β : Type} [DecidableEq β] (f : α → β) (l : List α) (acc : List β)
    (k : β) : k ∈ l.foldl (fun ks a => ks.insert (f a)) acc ↔ k ∈ acc ∨ k ∈ l.map f := by
  induction l generalizing acc with
  | nil => simp
  | cons a l ih =>
    simp only [List.foldl_cons, ih, List.mem_insert_iff, List.map_cons, List.mem_cons]
    exact or_assoc.trans or_left_comm

/-- The loop over the body signatures: it fails at a signature that does not
    verify; otherwise `sig_keys` ends as the keys of all of them. -/
theorem foldlM_checkBodySignature (body : TransferAssetBody P) (sigs : List P.Sig)
    (acc : List P.Key) :
    sigs.foldlM (checkBodySignature V O body) acc =
      if sigs.all (V.verifyBodySig · body) then .ok (sigs.foldl (fun ks sig => ks.insert (O.sigKey sig)) acc)
      else .error (.invariantError (some "Invalid signature")) := by
  induction sigs generalizing acc with
  | nil => rfl
  | cons sig sigs ih =>
    rw [List.foldlM_cons]
    by_cases hv : V.verifyBodySig sig body <;> simp [checkBodySignature, hv, ih]

/-- The keys `validate_signatures` collects are those of the body signatures. -/
theorem mem_sigKeys {trn : TransferAsset P} {k : P.Key} :
    k ∈ trn.bodySignatures.foldl (fun ks sig => ks.insert (O.sigKey sig)) [] ↔
      k ∈ trn.bodySignatures.map O.sigKey := by
  simp [mem_foldl_insert]

/-- `validate_signatures` passes on a created transfer whose body signatures
    all verify and whose input records' owners have all signed. -/
theorem validateSignatures_of_signed {b : TransferOperationBuilder P} {trn : TransferAsset P}
    (hb : b.transfer = some trn) (hv : ∀ sig ∈ trn.bodySignatures, V.verifyBodySig sig trn.body)
    (ho : ∀ r ∈ trn.body.transfer.body.inputs, O.recordKey r ∈ trn.bodySignatures.map O.sigKey) :
    b.validateSignatures V O = .ok b := by
  rcases b with ⟨sids, oars, spends, outs, _ | trn'⟩ <;> cases hb
  simp only [validateSignatures, foldlM_checkBodySignature, if_pos (List.all_eq_true.2 hv)]
  rw [except_ok_bind, forM_eq_ok.2 fun r hr => by simp [mem_sigKeys, ho r hr]]
  rfl

/-- **`validate_signatures`.**  It fails before `create` with "Transaction
    has not yet been finalized"; then with "Invalid signature" if a body
    signature does not verify on the body; then with "Not all signatures
    present" if the owner of an input record of the transfer is not the key
    of a body signature; otherwise it passes and changes nothing. -/
theorem validateSignatures_eq (b : TransferOperationBuilder P) :
    b.validateSignatures V O = match b.transfer with
      | none => .error notFinalizedError
      | some trn =>
        if trn.bodySignatures.all (V.verifyBodySig · trn.body) then
          if trn.body.transfer.body.inputs.all fun r => O.recordKey r ∈ trn.bodySignatures.map O.sigKey
          then .ok b else .error (.invariantError (some "Not all signatures present"))
        else .error (.invariantError (some "Invalid signature")) := by
  rcases b with ⟨sids, oars, spends, outs, _ | trn⟩
  · rfl
  · dsimp only
    split_ifs with hv ho
    · exact validateSignatures_of_signed V O rfl (List.all_eq_true.1 hv)
        fun r hr => of_decide_eq_true (List.all_eq_true.1 ho r hr)
    · -- an owner has not signed: the loop over the inputs fails, with this error only
      obtain ⟨r, hr, hno⟩ : ∃ r ∈ trn.body.transfer.body.inputs,
          O.recordKey r ∉ trn.bodySignatures.map O.sigKey := by simpa using ho
      simp only [validateSignatures, foldlM_checkBodySignature, if_pos hv]
      rw [except_ok_bind, @forM_eq_error_of _ _ _ _ (.invariantError (some "Not all signatures present"))
        (fun r _ => by split_ifs <;> simp) fun h => absurd (h r hr) (by simp [mem_sigKeys, hno])]
      rfl
    · simp only [validateSignatures, foldlM_checkBodySignature, if_neg hv]
      rfl

/-- What `TransferAsset::sign` (whose source is not in the repository) is
    taken to do with a key pair: keep the body, and append one signature of
    it that verifies and whose key is the pair's public key. -/
structure SignsBody {KeyPair : Type} (signTransfer : TransferAsset P → KeyPair → TransferAsset P)
    (pubKey : KeyPair → P.Key) : Prop where
  body_eq : ∀ trn kp, (signTransfer trn kp).body = trn.body
  appends : ∀ trn kp, ∃ sig, (signTransfer trn kp).bodySignatures = trn.bodySignatures ++ [sig] ∧
    V.verifyBodySig sig trn.body = true ∧ O.sigKey sig = pubKey kp

/-- **Signing, then validating.**  Sign a created transfer whose body
    signatures all verify with the key pairs `kps`, one `sign` call each:
    every call passes, and `validate_signatures` then passes when the owner
    of every input record had signed already or is the public key of one of
    `kps`. -/
theorem validateSignatures_after_sign {KeyPair : Type}
    {signTransfer : TransferAsset P → KeyPair → TransferAsset P} {pubKey : KeyPair → P.Key}
    (hs : SignsBody V O signTransfer pubKey) (kps : List KeyPair) :
    ∀ {b : TransferOperationBuilder P} {trn : TransferAsset P}, b.transfer = some trn →
      (∀ sig ∈ trn.bodySignatures, V.verifyBodySig sig trn.body) →
      (∀ r ∈ trn.body.transfer.body.inputs,
        O.recordKey r ∈ trn.bodySignatures.map O.sigKey ∨ O.recordKey r ∈ kps.map pubKey) →
      ∃ b', kps.foldlM (sign signTransfer) b = .ok b' ∧ b'.validateSignatures V O = .ok b' := by
  induction kps with
  | nil =>
    intro b trn hb hv ho
    exact ⟨b, rfl, validateSignatures_of_signed V O hb hv fun r hr =>
      (ho r hr).resolve_right (List.not_mem_nil _)⟩
  | cons kp kps ih =>
    intro b trn hb hv ho
    obtain ⟨sig, hsigs, hver, hkey⟩ := hs.appends trn kp
    have hbody := hs.body_eq trn kp
    have hsign : b.sign signTransfer kp = .ok { b with transfer := some (signTransfer trn kp) } := by
      simp [sign, hb]
    rw [List.foldlM_cons, hsign, except_ok_bind]
    refine ih rfl (fun s hs' => ?_) (fun r hr => ?_)
    · -- the signatures so far, and the new one, verify on the unchanged body
      rw [hsigs, List.mem_append, List.mem_singleton] at hs'
      rw [hbody]
      rcases hs' with hs' | rfl
      · exact hv s hs'
      · exact hver
    · -- the new signature's key is that of `kp`
      rw [hbody] at hr
      rw [hsigs, List.map_append, List.mem_append, List.map_singleton, List.mem_singleton, hkey]
      rcases ho r hr with h | h
      · exact .inl (.inl h)
      · exact (List.mem_cons.1 h).elim (.inl ∘ .inr) .inr
end

/-- Owners on `natPrims` for the examples: a signature and a record are
    their own keys. -/
def natOwners : Owners natPrims := ⟨id, id⟩

/-- `TransferAsset::sign` on `natPrims` for the examples: key pair `k`
    appends signature `k`. -/
def natSignTransfer (trn : TransferAsset natPrims) (kp : Nat) : TransferAsset natPrims :=
  ⟨trn.body, trn.bodySignatures ++ [kp]⟩

theorem validateSignatures_after_sign_bothOwners :
    ∃ b', [6, 5].foldlM (sign natSignTransfer)
        (⟨[], [], [], [], some ⟨⟨[], 0, ⟨⟨[5, 6], [], 0⟩, 0⟩⟩, []⟩⟩ : TransferOperationBuilder natPrims) =
        .ok b' ∧ b'.validateSignatures keyVerifier natOwners = .ok b' :=
  validateSignatures_after_sign keyVerifier natOwners
    (⟨fun _ _ => rfl, fun _ kp => ⟨kp, rfl, rfl, rfl⟩⟩ : SignsBody keyVerifier natOwners natSignTransfer id)
    [6, 5] rfl (by decide) (by decide)

end TransferOperationBuilder

/-! ## Building a transfer -/

/-- The calls that fill a `TransferOperationBuilder`. -/
inductive BuilderCall (P : Prims) where
  | addInput (txoSid : TxoRef) (openAr : OpenAssetRecord P) (amount : UInt64)
  | addOutput (amount : UInt64) (recipient : P.Key) (code : P.Code)

namespace BuilderCall

def apply (b : TransferOperationBuilder P) : BuilderCall P → Except PlatformError (TransferOperationBuilder P)
  | .addInput txoSid openAr amount => b.addInput txoSid openAr amount
  | .addOutput amount recipient code => b.addOutput amount recipient code

/-- The input a call adds, with the amount to spend. -/
def input : BuilderCall P → Option (TxoRef × OpenAssetRecord P × UInt64)
  | .addInput txoSid openAr amount => some (txoSid, openAr, amount)
  | .addOutput .. => none

/-- The output a call adds. -/
def output : BuilderCall P → Option (AssetRecord P)
  | .addInput .. => none
  | .addOutput amount recipient code => some (AssetRecord.new amount code recipient)

end BuilderCall

/-- The builder after the calls `cs` from `TransferOperationBuilder::new`. -/
def built (cs : List (BuilderCall P)) : TransferOperationBuilder P :=
  ⟨(cs.filterMap BuilderCall.input).map (·.1), (cs.filterMap BuilderCall.input).map (·.2.1),
    (cs.filterMap BuilderCall.input).map (·.2.2), cs.filterMap BuilderCall.output, none⟩

/-- Before `create`, every call succeeds and the builder holds the inputs and
    outputs added, in order. -/
theorem build_eq (cs : List (BuilderCall P)) :
    cs.foldlM BuilderCall.apply TransferOperationBuilder.new = .ok (built cs) := by
  suffices ∀ done, (cs.foldlM BuilderCall.apply (built done)) = .ok (built (done ++ cs)) by
    simpa using this []
  induction cs with
  | nil => simp
  | cons c cs ih =>
    intro done
    rw [List.foldlM_cons]
    have hc : BuilderCall.apply (built done) c = .ok (built (done ++ [c])) := by
      cases c <;> simp [BuilderCall.apply, TransferOperationBuilder.addInput,
        TransferOperationBuilder.addOutput, built, BuilderCall.input, BuilderCall.output]
    rw [hc]
    simpa using ih (done ++ [c])

/-- **Balancing a transfer.**  After any sequence of `add_input` and
    `add_output` calls, if `balance` returns `Ok`, then every spend is within
    its record, and the amounts of `output_records` total those of the input
    records modulo `2 ^ 64`; exactly, if neither the input records nor the
    outputs added total `2 ^ 64` or more. -/
theorem build_balance (cs : List (BuilderCall P)) {b : TransferOperationBuilder P}
    (h : (cs.foldlM BuilderCall.apply TransferOperationBuilder.new >>= (·.balance)) = .ok b) :
    (∀ txoSid openAr amount, .addInput txoSid openAr amount ∈ cs → amount ≤ openAr.amount) ∧
    b.inputRecords = (cs.filterMap BuilderCall.input).map (·.2.1) ∧
    exactTotal (b.outputRecords.map (·.amount)) % 2 ^ 64 =
      exactTotal (b.inputRecords.map (·.amount)) % 2 ^ 64 ∧
    (exactTotal (b.inputRecords.map (·.amount)) < 2 ^ 64 →
      exactTotal ((cs.filterMap BuilderCall.output).map (·.amount)) < 2 ^ 64 →
      exactTotal (b.outputRecords.map (·.amount)) = exactTotal (b.inputRecords.map (·.amount))) := by
  rw [build_eq, except_ok_bind, TransferOperationBuilder.balance_eq_ok] at h
  obtain ⟨-, hs, htot, rfl⟩ := h
  simp only [built, List.zip_map'] at hs htot ⊢
  obtain ⟨hmod, hexact⟩ := total_of_balanced hs
    (by simpa only [List.map_map, Function.comp_def] using htot)
  simp only [List.map_map, Function.comp_def, List.map_append] at hmod hexact ⊢
  exact ⟨fun txoSid openAr amount hc =>
    hs _ (List.mem_map.2 ⟨(txoSid, openAr, amount), List.mem_filterMap.2 ⟨_, hc, rfl⟩, rfl⟩),
    trivial, hmod, hexact⟩

theorem build_balance_spendPart :
    ∃ b, (([.addInput (.relative 1) ⟨1000, 1, 1⟩ 20, .addOutput 5 2 1, .addOutput 13 3 1,
        .addOutput 2 4 1] : List (BuilderCall natPrims)).foldlM BuilderCall.apply
        TransferOperationBuilder.new >>= (·.balance)) = .ok b ∧
      exactTotal (b.outputRecords.map (·.amount)) % 2 ^ 64 =
        exactTotal (b.inputRecords.map (·.amount)) % 2 ^ 64 := by
  refine ⟨?b, ?h, (build_balance _ ?h).2.2.1⟩
  case h => exact rfl

/-! ## `BuildsTransactions::add_basic_transfer_asset` -/

/-- `TransactionBuilder`, by its transaction (`outputs` is never read). -/
structure TransactionBuilder (P : Prims) where
  txn : Transaction P

namespace TransactionBuilder

/-- `add_operation_transfer_asset`: the transfer of the inputs to the output
    records, appended to the transaction. -/
def addOperationTransferAsset (Z : Zei P) (tb : TransactionBuilder P) (inputSids : List TxoRef)
    (inputRecords : List (OpenAssetRecord P)) (outputRecords : List (AssetRecord P)) :
    Except PlatformError (TransactionBuilder P) := do
  let body ← Z.transferAssetBodyNew inputSids inputRecords outputRecords
  let trn ← Z.transferAssetNew body
  pure ⟨⟨tb.txn.operations ++ [.transferAsset trn]⟩⟩

/-- `add_basic_transfer_asset`: open each input record with the key pair,
    check the amounts to spend as `balance` does against the targets'
    amounts, and transfer to each target a record of the first input's asset
    type, the refunds last.  Reading the first input of an empty list
    panics. -/
def addBasicTransferAsset (Z : Zei P) (tb : TransactionBuilder P) (keyPair : Z.KeyPair)
    (transferFrom : List (TxoRef × P.Rec × UInt64)) (transferTo : List (UInt64 × AccountAddress P)) :
    Except Failure (TransactionBuilder P) := do
  let inputSids := transferFrom.map (·.1)
  let inputAmounts := transferFrom.map (·.2.2)
  let some inputOars := transferFrom.mapM (fun t => Z.openAssetRecord t.2.1 keyPair)
    | throw (.err .zeiError)
  let inputTotal : UInt64 := inputAmounts.foldl (· + ·) 0
  let partiallyConsumedInputs ← ((inputAmounts.zip inputOars).foldlM consumeStep []).mapError .err
  let outputTotal : UInt64 := transferTo.foldl (fun acc p => acc + p.1) 0
  if inputTotal ≠ outputTotal then throw (.err .inputsError)
  let some oar := inputOars[0]? | throw .panic
  let outputArs := transferTo.map fun p => AssetRecord.new p.1 oar.assetType p.2.key
  (tb.addOperationTransferAsset Z inputSids inputOars (outputArs ++ partiallyConsumedInputs)).mapError .err

end TransactionBuilder

theorem length_of_mapM_eq_some {α β : Type} {f : α → Option β} :
    ∀ {l : List α} {l' : List β}, l.mapM f = some l' → l'.length = l.length
  | [], l', h => by cases h; rfl
  | a :: l, l', h => by
    simp only [List.mapM_cons, Option.bind_eq_bind, Option.bind_eq_some, Option.pure_def,
      Option.some.injEq] at h
    obtain ⟨b, -, bs, hbs, rfl⟩ := h
    simp [length_of_mapM_eq_some hbs]

/-- **A basic transfer.**  If `add_basic_transfer_asset` succeeds, it opened
    every input record, every amount to spend is within its record, and it
    passed on one record per target, of the first input's asset type, then
    the refunds; these total the opened records' amounts modulo `2 ^ 64`;
    exactly, if neither the records nor the targets' amounts total `2 ^ 64`
    or more. -/
theorem addBasicTransferAsset_ok {Z : Zei P} {tb tb' : TransactionBuilder P} {keyPair : Z.KeyPair}
    {transferFrom : List (TxoRef × P.Rec × UInt64)} {transferTo : List (UInt64 × AccountAddress P)}
    (h : tb.addBasicTransferAsset Z keyPair transferFrom transferTo = .ok tb') :
    ∃ inputOars oar,
      transferFrom.mapM (fun t => Z.openAssetRecord t.2.1 keyPair) = some inputOars ∧
      inputOars[0]? = some oar ∧
      let outputArs := transferTo.map (fun p => AssetRecord.new p.1 oar.assetType p.2.key) ++
        refunds ((transferFrom.map (·.2.2)).zip inputOars)
      tb.addOperationTransferAsset Z (transferFrom.map (·.1)) inputOars outputArs = .ok tb' ∧
      (∀ p ∈ (transferFrom.map (·.2.2)).zip inputOars, p.1 ≤ p.2.amount) ∧
      exactTotal (outputArs.map (·.amount)) % 2 ^ 64 = exactTotal (inputOars.map (·.amount)) % 2 ^ 64 ∧
      (exactTotal (inputOars.map (·.amount)) < 2 ^ 64 → exactTotal (transferTo.map (·.1)) < 2 ^ 64 →
        exactTotal (outputArs.map (·.amount)) = exactTotal (inputOars.map (·.amount))) := by
  unfold TransactionBuilder.addBasicTransferAsset at h
  rcases hopen : transferFrom.mapM (fun t => Z.openAssetRecord t.2.1 keyPair) with _ | inputOars <;>
    rw [hopen] at h
  · cases h
  obtain ⟨_, hcons, h⟩ := except_bind_eq_ok.1 h
  obtain ⟨hs, rfl⟩ := consume_eq_ok.1 (mapError_eq_ok.1 hcons)
  dsimp only at h
  split_ifs at h with ht
  · cases h
  rcases hoar : inputOars[0]? with _ | oar <;> simp only [hoar, except_ok_bind] at h
  · cases h
  have hlen := length_of_mapM_eq_some hopen
  -- the pairs of the loop: the amounts to spend, and the opened records
  have hfst := List.map_fst_zip (transferFrom.map (·.2.2)) inputOars (by simp [hlen])
  have hsnd := List.map_snd_zip (transferFrom.map (·.2.2)) inputOars (by simp [hlen])
  have hamounts : ((transferFrom.map (·.2.2)).zip inputOars).map (·.2.amount) =
      inputOars.map (·.amount) := by
    have := congrArg (List.map fun r : OpenAssetRecord P => r.amount) hsnd
    rwa [List.map_map] at this
  obtain ⟨hmod, hexact⟩ := @total_of_balanced _ ((transferFrom.map (·.2.2)).zip inputOars)
    (transferTo.map (·.1)) hs (by rw [hfst, not_not.1 ht, List.foldl_map])
  rw [hamounts] at hmod hexact
  rw [List.nil_append] at h
  refine ⟨inputOars, oar, hopen, hoar, mapError_eq_ok.1 h, hs, ?_, ?_⟩ <;>
    simpa only [List.map_append, List.map_map, Function.comp_def, AssetRecord.new] using ‹_›

/-- A zei on `natPrims` for the examples: key pair `k` opens record `r` as
    `r` units of code `1` owned by `k`; every transfer body is accepted, and
    lists the input and output records by their amounts. -/
def natZei : Zei natPrims where
  KeyPair := Nat
  openAssetRecord r k := some ⟨r.toUInt64, 1, k⟩
  transferAssetBodyNew sids ins outs :=
    .ok ⟨sids, outs.length, ⟨⟨ins.map (·.amount.toNat), outs.map (·.amount.toNat), 0⟩, 0⟩⟩
  transferAssetNew body := .ok ⟨body, []⟩

/-- Spending `20` of a record of `1000`: the targets get `5` and `15`, and
    the owner of the record gets back `980`. -/
theorem addBasicTransferAsset_ok_partialSpend :
    ∃ tb', (⟨⟨[]⟩⟩ : TransactionBuilder natPrims).addBasicTransferAsset natZei (1 : Nat)
        [(.relative 0, 1000, 20)] [(5, ⟨2⟩), (15, ⟨3⟩)] = .ok tb' ∧
      (⟨⟨[]⟩⟩ : TransactionBuilder natPrims).addOperationTransferAsset natZei [.relative 0]
        [⟨1000, 1, 1⟩] [AssetRecord.new 5 1 2, AssetRecord.new 15 1 3, AssetRecord.new 980 1 1] =
          .ok tb' := by
  obtain ⟨tb', h⟩ : ∃ tb', (⟨⟨[]⟩⟩ : TransactionBuilder natPrims).addBasicTransferAsset natZei
      (1 : Nat) [(.relative 0, 1000, 20)] [(5, ⟨2⟩), (15, ⟨3⟩)] = .ok tb' := ⟨_, rfl⟩
  obtain ⟨inputOars, oar, hopen, hoar, hadd, -⟩ := addBasicTransferAsset_ok h
  obtain rfl : [⟨1000, 1, 1⟩] = inputOars := Option.some_inj.1 hopen
  obtain rfl : ⟨1000, 1, 1⟩ = oar := Option.some_inj.1 hoar
  exact ⟨tb', h, hadd⟩

/-- An input record of amount `0`, all of it spent, and two outputs of
    `2 ^ 63`: both wrapping totals are `0`, so `balance` returns `Ok` with
    outputs totalling `2 ^ 64` against inputs totalling `0`.
    `add_basic_transfer_asset` makes the same check and passes the same two
    outputs on to `TransferAssetBody::new`. -/
theorem balance_accepts_overflow :
    (∃ b, (([.addInput (.relative 0) ⟨0, 1, 1⟩ 0, .addOutput 9223372036854775808 2 1,
        .addOutput 9223372036854775808 2 1] : List (BuilderCall natPrims)).foldlM
        BuilderCall.apply TransferOperationBuilder.new >>= (·.balance)) = .ok b ∧
      exactTotal (b.outputRecords.map (·.amount)) = 2 ^ 64 ∧
      exactTotal (b.inputRecords.map (·.amount)) = 0) ∧
    ∃ tb, (⟨⟨[]⟩⟩ : TransactionBuilder natPrims).addBasicTransferAsset natZei (1 : Nat)
        [(.relative 0, 0, 0)] [(9223372036854775808, ⟨2⟩), (9223372036854775808, ⟨2⟩)] = .ok tb ∧
      tb.txn.operations = [.transferAsset ⟨⟨[.relative 0], 2, ⟨⟨[0], [2 ^ 63, 2 ^ 63], 0⟩, 0⟩⟩, []⟩] :=
  ⟨⟨_, rfl, rfl, rfl⟩, _, rfl, rfl⟩

end LedgerStore
