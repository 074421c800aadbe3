/-
  `TxnEffect::deep_invariant_check` on the effects `compute_effect` returns.

  * `transferPairs`, `absolutePairs`, `relativeRecords`: the inputs of the
    transfers of a transaction, with the records their bodies claim;
  * `TransferInv`, `computeEffect_inputs`: `compute_effect` records each
    `Absolute` input in `input_txos` with the claimed record, and no SID
    twice;
  * `checkTransferInputs_eq`, `foldlM_checkOperations`: the loops of the
    checker over one external input, in closed form;
  * `deepInvariantCheck_computed`: the checker accepts a computed effect iff
    no `Relative` input claims the record of one of its external inputs.
-/
import LedgerStore.EffectInv

namespace LedgerStore

variable {P : Prims} {V : Verifier P}

/-- The inputs of a transfer, each with the record its transfer body claims. -/
def Operation.inputPairs : Operation P → List (TxoRef × P.Rec)
  | .transferAsset trn => trn.body.inputs.zip trn.body.transfer.body.inputs
  | _ => []

/-- The inputs of the transfers among `ops`, in order. -/
def transferPairs (ops : List (Operation P)) : List (TxoRef × P.Rec) :=
  ops.flatMap Operation.inputPairs

/-- The `Absolute` inputs among `ps`, as `(sid, record)`. -/
def absolutePairs (ps : List (TxoRef × P.Rec)) : List (Nat × P.Rec) :=
  ps.filterMap fun
    | (.absolute sid, r) => some (sid, r)
    | _ => none

/-- The records claimed by the `Relative` inputs among `ps`. -/
def relativeRecords (ps : List (TxoRef × P.Rec)) : List P.Rec :=
  ps.filterMap fun
    | (.relative _, r) => some r
    | _ => none

@[simp] theorem absolutePairs_nil : absolutePairs ([] : List (TxoRef × P.Rec)) = [] := rfl

@[simp] theorem absolutePairs_cons_absolute (sid : Nat) (r : P.Rec) (ps : List (TxoRef × P.Rec)) :
    absolutePairs ((.absolute sid, r) :: ps) = (sid, r) :: absolutePairs ps := rfl

@[simp] theorem absolutePairs_cons_relative (offs : Nat) (r : P.Rec) (ps : List (TxoRef × P.Rec)) :
    absolutePairs ((.relative offs, r) :: ps) = absolutePairs ps := rfl

@[simp] theorem relativeRecords_nil : relativeRecords ([] : List (TxoRef × P.Rec)) = [] := rfl

@[simp] theorem relativeRecords_cons_absolute (sid : Nat) (r : P.Rec) (ps : List (TxoRef × P.Rec)) :
    relativeRecords ((.absolute sid, r) :: ps) = relativeRecords ps := rfl

@[simp] theorem relativeRecords_cons_relative (offs : Nat) (r : P.Rec)
    (ps : List (TxoRef × P.Rec)) :
    relativeRecords ((.relative offs, r) :: ps) = r :: relativeRecords ps := rfl

@[simp] theorem transferPairs_nil : transferPairs ([] : List (Operation P)) = [] := rfl

@[simp] theorem transferPairs_cons (op : Operation P) (ops : List (Operation P)) :
    transferPairs (op :: ops) = op.inputPairs ++ transferPairs ops := rfl

@[simp] theorem transferPairs_append (ops ops' : List (Operation P)) :
    transferPairs (ops ++ ops') = transferPairs ops ++ transferPairs ops' :=
  List.flatMap_append ..

@[simp] theorem absolutePairs_append (ps ps' : List (TxoRef × P.Rec)) :
    absolutePairs (ps ++ ps') = absolutePairs ps ++ absolutePairs ps' :=
  List.filterMap_append ..

@[simp] theorem relativeRecords_append (ps ps' : List (TxoRef × P.Rec)) :
    relativeRecords (ps ++ ps') = relativeRecords ps ++ relativeRecords ps' :=
  List.filterMap_append ..

/-! ## What `compute_effect` records of the inputs -/

/-- `input_txos` records the `Absolute` inputs `abs` seen so far. -/
structure TransferInv (m : HashMap Nat P.Rec) (abs : List (Nat × P.Rec)) : Prop where
  /-- The recorded inputs are those, with their records. -/
  inputs : ∀ sid r, (⟨sid, r⟩ : Σ _ : Nat, P.Rec) ∈ m.entries ↔ (sid, r) ∈ abs
  /-- No SID is an `Absolute` input twice. -/
  nodup : (abs.map Prod.fst).Nodup

theorem TransferInv.mem_iff {m : HashMap Nat P.Rec} {abs : List (Nat × P.Rec)}
    (hI : TransferInv m abs) {sid : Nat} : sid ∈ m ↔ sid ∈ abs.map Prod.fst := by
  rw [mem_hashMap_iff]
  constructor
  · rintro ⟨⟨_, r⟩, ha, rfl⟩
    exact List.mem_map.2 ⟨_, (hI.inputs _ r).1 ha, rfl⟩
  · intro h
    obtain ⟨⟨_, r⟩, hr, rfl⟩ := List.mem_map.1 h
    exact ⟨⟨_, r⟩, (hI.inputs _ r).2 hr, rfl⟩

/-- One input of a transfer keeps the invariant. -/
theorem TransferInv.input {st st' : EffectState P} {ps : List (TxoRef × P.Rec)}
    {p : TxoRef × P.Rec} (hI : TransferInv st.inputTxos (absolutePairs ps))
    (h : transferInput st p = .ok st') : TransferInv st'.inputTxos (absolutePairs (ps ++ [p])) := by
  rcases p with ⟨_ | sid, r⟩
  · obtain ⟨-, o, -, -, rfl⟩ := transferInput_relative_eq_ok.1 h
    simpa using hI
  · obtain ⟨hfresh, rfl⟩ := transferInput_absolute_eq_ok.1 h
    refine ⟨fun sid' r' => ?_, ?_⟩
    · rw [AList.insert_entries_of_neg hfresh, List.mem_cons, hI.inputs]
      simp [or_comm, and_comm]
    · simp only [absolutePairs_append, absolutePairs_cons_absolute, absolutePairs_nil,
        List.map_append, List.map_singleton, List.nodup_append]
      exact ⟨hI.nodup, List.nodup_singleton _, fun a ha hb =>
        hfresh (hI.mem_iff.2 (List.mem_singleton.1 hb ▸ ha))⟩

theorem computeEffect_inputs {txn : Transaction P} {e : TxnEffect P}
    (h : computeEffect V txn = .ok e) :
    TransferInv e.inputTxos (absolutePairs (transferPairs txn.operations)) ∧
    ∀ trn, .transferAsset trn ∈ txn.operations →
      trn.body.inputs.length = trn.body.transfer.body.inputs.length := by
  obtain ⟨st, hst, rfl⟩ := computeEffect_eq_ok.1 h
  have hinit : TransferInv (EffectState.init : EffectState P).inputTxos [] :=
    ⟨fun _ _ => by simp [EffectState.init], List.nodup_nil⟩
  refine (foldlM_except_induction (fun (st : EffectState P) done =>
    TransferInv st.inputTxos (absolutePairs (transferPairs done)) ∧
    ∀ trn, .transferAsset trn ∈ done →
      trn.body.inputs.length = trn.body.transfer.body.inputs.length)
    (fun st done op st' ⟨hI, hlen⟩ h => ?_) [] ⟨hinit, by simp⟩ hst)
  obtain ⟨-, h⟩ := effectStep_eq_ok.1 h
  cases op with
  | defineAsset d =>
    obtain ⟨-, -, -, rfl⟩ := defineAssetStep_eq_ok.1 h
    exact ⟨by simpa [Operation.inputPairs] using hI, by simpa using hlen⟩
  | issueAsset iss =>
    obtain ⟨-, -, -, rfl⟩ := issueAssetStep_eq_ok.1 h
    exact ⟨by simpa [Operation.inputPairs] using hI, by simpa using hlen⟩
  | transferAsset trn =>
    obtain ⟨hl, -, -, -, st₁, h₁, rfl⟩ := transferAssetStep_eq_ok.1 h
    refine ⟨?_, fun trn' h' => ?_⟩
    · simpa [Operation.inputPairs] using foldlM_except_induction (fun (st : EffectState P) ps =>
        TransferInv st.inputTxos (absolutePairs (transferPairs done ++ ps)))
        (fun _ _ _ _ hI h => by simpa using hI.input h) [] (by simpa using hI) h₁
    · rcases List.mem_append.1 h' with h' | h'
      · exact hlen trn' h'
      · obtain rfl : trn' = trn := by simpa using h'
        exact hl

/-! ## The loops of the checker -/

section
variable {sid : Nat} {rec : P.Rec}

theorem checkTransferInputs_append (found : Bool) (ps ps' : List (TxoRef × P.Rec)) :
    checkTransferInputs sid rec found (ps ++ ps') =
      checkTransferInputs sid rec found ps >>= fun b => checkTransferInputs sid rec b ps' := by
  induction ps generalizing found with
  | nil => rfl
  | cons p ps ih =>
    rcases p with ⟨_ | t, r⟩
    · by_cases hr : r = rec <;> simp [checkTransferInputs, hr, ih]
    · by_cases ht : t = sid
      · by_cases hr : r = rec <;> cases found <;> simp [checkTransferInputs, ht, hr, ih]
      · simp [checkTransferInputs, ht, ih]

/-- The loop over one transfer's inputs for the external input `(sid, rec)`:
    when `sid` is an `Absolute` input at most once, with record `rec`, and not
    yet `found`, it fails iff a `Relative` input claims `rec`. -/
theorem checkTransferInputs_eq {found : Bool} {ps : List (TxoRef × P.Rec)}
    (hnd : ((absolutePairs ps).map Prod.fst).Nodup)
    (hfound : found = true → sid ∉ (absolutePairs ps).map Prod.fst)
    (hrec : ∀ r, (sid, r) ∈ absolutePairs ps → r = rec) :
    checkTransferInputs sid rec found ps =
      if rec ∈ relativeRecords ps then .error (.err (.invariantError none))
      else .ok (found || decide (sid ∈ (absolutePairs ps).map Prod.fst)) := by
  induction ps generalizing found with
  | nil => simp [checkTransferInputs]
  | cons p ps ih =>
    rcases p with ⟨_ | t, r⟩
    · simp only [absolutePairs_cons_relative, relativeRecords_cons_relative] at *
      by_cases hr : r = rec
      · simp [checkTransferInputs, hr]
      · simp [checkTransferInputs, hr, Ne.symm hr, ih hnd hfound hrec]
    · simp only [absolutePairs_cons_absolute, relativeRecords_cons_absolute, List.map_cons,
        List.mem_cons, List.nodup_cons] at *
      by_cases ht : t = sid
      · subst ht
        have hr : r = rec := hrec r (.inl rfl)
        have hf : found = false := by simpa using mt hfound (by simp)
        subst hr hf
        simp [checkTransferInputs, ih hnd.2 (fun (_ : true = true) => hnd.1)
          fun r' h => hrec r' (.inr h)]
      · have ih' := ih hnd.2 (fun h hm => hfound h (.inr hm)) fun r' h => hrec r' (.inr h)
        simp [checkTransferInputs, ht, ih', Ne.symm ht]

/-- With every transfer's two input lists of one length, the loop over the
    operations is the loop over all transfer inputs. -/
theorem foldlM_checkOperations {found : Bool} {ops : List (Operation P)}
    (hlen : ∀ trn, .transferAsset trn ∈ ops →
      trn.body.inputs.length = trn.body.transfer.body.inputs.length) :
    ops.foldlM (checkOperations sid rec) found =
      checkTransferInputs sid rec found (transferPairs ops) := by
  induction ops generalizing found with
  | nil => rfl
  | cons op ops ih =>
    have ih' := fun b => @ih b fun trn h => hlen trn (.tail _ h)
    rw [List.foldlM_cons, transferPairs_cons, checkTransferInputs_append]
    cases op with
    | transferAsset trn => simp [checkOperations, Operation.inputPairs, hlen trn (.head _), ih']
    | defineAsset _ => simp [checkOperations, Operation.inputPairs, checkTransferInputs, ih']
    | issueAsset _ => simp [checkOperations, Operation.inputPairs, checkTransferInputs, ih']

end

/-- A `for` loop over a list whose turns never `break` passes iff each turn
    passes. -/
theorem forIn'_eq_ok {α ε : Type} {l : List α} {f : α → PUnit → Except ε (ForInStep PUnit)}
    (hf : ∀ a, f a () ≠ .ok (.done ())) :
    forIn' l () (fun a _ b => f a b) = .ok () ↔ ∀ a ∈ l, f a () = .ok (.yield ()) := by
  induction l with
  | nil => simp
  | cons a l ih =>
    simp only [List.forIn'_cons, List.forall_mem_cons]
    rcases h : f a () with x | (⟨⟩ | ⟨⟩)
    · simp
    · exact absurd h (hf a)
    · simpa using ih

theorem hashMapEq_of_perm {α β : Type} [DecidableEq α] [DecidableEq β] {a b : HashMap α β}
    (h : a.entries.Perm b.entries) : hashMapEq a b = true := by
  simp only [hashMapEq, Bool.and_eq_true, beq_iff_eq, List.all_eq_true]
  exact ⟨h.length_eq, fun x hx => (AList.perm_lookup h).symm.trans (AList.mem_lookup_iff.2 hx)⟩

/-- `deep_invariant_check` passes iff for each external input the loop over
    the operations finds it, and recomputing gives the effect back. -/
theorem deepInvariantCheck_eq_ok {e : TxnEffect P} :
    e.deepInvariantCheck V = .ok () ↔
      (∀ inp ∈ e.inputTxos.entries,
        e.txn.operations.foldlM (checkOperations inp.1 inp.2) false = .ok true) ∧
      ∃ e₀, computeEffect V e.txn = .ok e₀ ∧ e₀.beq e = true := by
  unfold TxnEffect.deepInvariantCheck
  simp only [forIn, except_bind_eq_ok, Unique.exists_iff]
  rw [forIn'_eq_ok]
  · refine and_congr (forall₂_congr fun a _ => ?_)
      (exists_congr fun e₀ => and_congr_right fun _ => ?_)
    · rcases List.foldlM (checkOperations a.1 a.2) false e.txn.operations with y | (_ | _) <;> simp
    · cases e₀.beq e <;> simp
  · -- no turn breaks out of the loop
    intro a
    rcases List.foldlM (checkOperations a.1 a.2) false e.txn.operations with y | (_ | _) <;> simp

/-- A computed effect is given back by recomputing it. -/
theorem TxnEffect.Computed.beq {e : TxnEffect P} (hc : e.Computed V) :
    ∃ e₀, computeEffect V e.txn = .ok e₀ ∧ e₀.beq e = true := by
  obtain ⟨e₀, he₀, htxos, hin, hac, hiss⟩ := hc
  obtain ⟨st, -, rfl⟩ := computeEffect_eq_ok.1 he₀
  refine ⟨_, he₀, ?_⟩
  simp [TxnEffect.beq, htxos, hashMapEq_of_perm hin.symm, hashMapEq_of_perm hac.symm,
    hashMapEq_of_perm hiss.symm]

/-- **`deep_invariant_check` on the effects of `compute_effect`.**  It
    accepts an effect that `compute_effect` returns, its maps enumerated in
    any order, iff no `Relative` input of its transaction claims the record
    of one of the effect's external inputs. -/
theorem deepInvariantCheck_computed {e : TxnEffect P} (hc : e.Computed V) :
    e.deepInvariantCheck V = .ok () ↔
      ∀ inp ∈ e.inputTxos.entries, inp.2 ∉ relativeRecords (transferPairs e.txn.operations) := by
  rw [deepInvariantCheck_eq_ok, and_iff_left hc.beq]
  obtain ⟨e₀, he₀, -, hin, -, -⟩ := hc
  obtain ⟨hI, hlen⟩ := computeEffect_inputs he₀
  refine forall₂_congr fun ⟨sid, rec⟩ hinp => ?_
  -- the external input is the one `Absolute` input with its SID
  have hmem : (sid, rec) ∈ absolutePairs (transferPairs e.txn.operations) :=
    (hI.inputs sid rec).1 (hin.subset hinp)
  have hkey : sid ∈ (absolutePairs (transferPairs e.txn.operations)).map Prod.fst :=
    List.mem_map.2 ⟨_, hmem, rfl⟩
  rw [foldlM_checkOperations hlen, checkTransferInputs_eq hI.nodup (by simp) fun r hr =>
    e₀.inputTxos.nodupKeys.eq_of_mk_mem ((hI.inputs sid r).2 hr) ((hI.inputs sid rec).2 hmem)]
  split_ifs with h <;> simp [h, hkey]

theorem deepInvariantCheck_computed_transfer :
    ∃ e, computeEffect keyVerifier (transferTx 0) = .ok e ∧
      e.deepInvariantCheck keyVerifier = .ok () := by
  refine ⟨?e, ?h, (deepInvariantCheck_computed (computed_of_computeEffect _ ?h)).2 ?hcond⟩
  case h => exact rfl
  case hcond => decide

/-- `deep_invariant_check` rejects an effect `compute_effect` returns: the
    `Relative` input of the transfer claims the same record as its
    `Absolute` one. -/
theorem deepInvariantCheck_rejects_computed :
    ∃ e, computeEffect keyVerifier issueThenMixedTransfer = .ok e ∧
      e.deepInvariantCheck keyVerifier = .error (.err (.invariantError none)) :=
  ⟨_, rfl, rfl⟩

end LedgerStore
