/-
  The output slots of `compute_effect`: what its loop keeps, and that it
  never panics.

  * `effectStep_ne_panic`: from a state with `txo_count = txos.len()`, no
    operation takes a panic path (the asserts, the slot read of a
    `Relative` input, the unwrap and the index of the issuance numbers), and
    an accepted one keeps the equality;
  * `computeEffect_never_panics`: hence `compute_effect` returns `Ok` or
    `Err` on every transaction, the assert at the head of the loop holding at
    every turn;
  * `slotOutputs`, `relativeUses`, `resolvedSlots`, `InputsOk`: the output
    slots of a transaction, the slot each `Relative` input names, and the
    conditions on the inputs, read off the operations;
  * `SlotInv`, `computeEffect_slots`: `compute_effect` accepts exactly the
    transactions whose inputs meet them; its `txos` are the output slots with
    the named ones emptied, its `input_txos` the `Absolute` inputs.
-/
import LedgerStore.DeepCheck

namespace LedgerStore

variable {P : Prims} {V : Verifier P}

/-! ## No panic -/

section
variable {st st' : EffectState P}

/-- The loop invariant asserted at the head of each turn. -/
def EffectState.Counted (st : EffectState P) : Prop := st.txoCount = st.txos.length

theorem defineAssetStep_ne_panic {d : DefineAsset P} : defineAssetStep V st d ≠ .error .panic := by
  unfold defineAssetStep
  by_cases hv : V.verifyDefine d.pubkey d.body d.signature <;>
    by_cases h : d.body.asset.code ∈ st.newAssetCodes ∨ d.body.asset.code ∈ st.newIssuanceNums <;>
    simp [hv, h]

theorem issueAssetStep_ne_panic {iss : IssueAsset P} : issueAssetStep V st iss ≠ .error .panic := by
  unfold issueAssetStep
  simp only [lookup_ensure]
  generalize issuanceNumsOf st.newIssuanceNums iss.body.code = nums
  by_cases hn : iss.body.numOutputs = iss.body.records.length
  · cases hl : nums.getLast? with
    | none =>
      by_cases hv : V.verifyIssue iss.pubkey iss.body iss.signature <;> simp [hn, hl, hv]
    | some l =>
      have hi : nums[nums.length - 1]? = some l := by rw [← List.getLast?_eq_getElem?, hl]
      by_cases hlt : iss.body.seqNum ≤ l <;>
        by_cases hv : V.verifyIssue iss.pubkey iss.body iss.signature <;>
        simp [hn, hl, hi, hlt, hv]
  · simp [hn]

/-- The slot a `Relative` input reads lies within `txos`. -/
theorem transferInput_ne_panic {p : TxoRef × P.Rec} (h : st.Counted) :
    transferInput st p ≠ .error .panic := by
  rcases p with ⟨_ | sid, r⟩
  · rename_i offs
    simp only [transferInput]
    by_cases hk : offs ≥ st.txoCount
    · simp [hk]
    · have hix : st.txoCount - 1 - offs < st.txos.length := by
        unfold EffectState.Counted at h
        omega
      rcases hx : st.txos[st.txoCount - 1 - offs]? with _ | _ | o
      · exact absurd hx (List.getElem?_eq_some_iff.2 ⟨hix, rfl⟩ ▸ Option.some_ne_none _)
      · simp [hk, hx]
      · by_cases hr : o.record = r <;> simp [hk, hx, hr]
  · simp only [transferInput]
    by_cases hs : sid ∈ st.inputTxos <;> simp [hs]

/-- An input leaves `txo_count` and the number of slots alone. -/
theorem transferInput_counts {p : TxoRef × P.Rec} (h : transferInput st p = .ok st') :
    st'.txoCount = st.txoCount ∧ st'.txos.length = st.txos.length := by
  rcases p with ⟨_ | sid, r⟩
  · obtain ⟨-, o, -, -, rfl⟩ := transferInput_relative_eq_ok.1 h
    simp
  · obtain ⟨-, rfl⟩ := transferInput_absolute_eq_ok.1 h
    simp

theorem foldlM_transferInput_counts {ps : List (TxoRef × P.Rec)}
    (h : ps.foldlM transferInput st = .ok st') :
    st'.txoCount = st.txoCount ∧ st'.txos.length = st.txos.length := by
  simpa using foldlM_except_induction
    (fun (b : EffectState P) (_ : List (TxoRef × P.Rec)) =>
      b.txoCount = st.txoCount ∧ b.txos.length = st.txos.length)
    (fun _ _ _ _ hb hs => by rw [← hb.1, ← hb.2]; exact transferInput_counts hs) [] ⟨rfl, rfl⟩ h

theorem transferAssetStep_ne_panic {trn : TransferAsset P} (h : st.Counted) :
    transferAssetStep V st trn ≠ .error .panic := by
  have hfold : (trn.body.inputs.zip trn.body.transfer.body.inputs).foldlM transferInput st ≠
      .error .panic :=
    foldlM_except_ne EffectState.Counted (fun b p hb => ⟨transferInput_ne_panic hb, fun b' hb' => by
      unfold EffectState.Counted
      rw [(transferInput_counts hb').1, (transferInput_counts hb').2]
      exact hb⟩) h
  unfold transferAssetStep
  generalize (trn.body.inputs.zip trn.body.transfer.body.inputs).foldlM transferInput st = r at hfold
  split_ifs <;> simp
  -- every check passed: only the loop over the inputs is left
  rcases r with _ | b <;> simp_all

/-- One turn from a counted state: no panic, and a counted state after it. -/
theorem effectStep_ne_panic {op : Operation P} (h : st.Counted) :
    effectStep V st op ≠ .error .panic ∧ ∀ st', effectStep V st op = .ok st' → st'.Counted := by
  refine ⟨?_, fun st' hst => ?_⟩
  · cases op <;> simp [effectStep, show st.txoCount = st.txos.length from h,
      defineAssetStep_ne_panic, issueAssetStep_ne_panic, transferAssetStep_ne_panic h]
  · obtain ⟨-, hst⟩ := effectStep_eq_ok.1 hst
    unfold EffectState.Counted at h ⊢
    cases op with
    | defineAsset d =>
      obtain ⟨-, -, -, rfl⟩ := defineAssetStep_eq_ok.1 hst
      exact h
    | issueAsset iss =>
      obtain ⟨-, -, -, rfl⟩ := issueAssetStep_eq_ok.1 hst
      simp [h]
    | transferAsset trn =>
      obtain ⟨-, -, -, -, st₁, h₁, rfl⟩ := transferAssetStep_eq_ok.1 hst
      obtain ⟨hc, hl⟩ := foldlM_transferInput_counts h₁
      simp [hc, hl, h]

end

theorem counted_init : (EffectState.init : EffectState P).Counted := rfl

/-- `compute_effect` does not panic. -/
theorem computeEffect_ne_panic (txn : Transaction P) : computeEffect V txn ≠ .error .panic := by
  have h : txn.operations.foldlM (effectStep V) EffectState.init ≠ .error .panic :=
    foldlM_except_ne EffectState.Counted (fun _ _ hb => effectStep_ne_panic hb) counted_init
  simp only [computeEffect]
  cases hf : txn.operations.foldlM (effectStep V) EffectState.init with
  | error y => rw [hf] at h; simpa using h
  | ok st => simp

/-- A transaction `compute_effect` does not accept is rejected with an `Err`. -/
theorem computeEffect_err_of_ne_ok {txn : Transaction P} (h : ∀ e, computeEffect V txn ≠ .ok e) :
    ∃ err, computeEffect V txn = .error (.err err) := by
  rcases hc : computeEffect V txn with (err | _) | e
  · exact ⟨err, rfl⟩
  · exact absurd hc (computeEffect_ne_panic txn)
  · exact absurd hc (h e)

/-- **`compute_effect` never panics.**  On every transaction, with the
    signature and proof checks total, `txo_count = txos.len()` holds at the
    head of every turn of the loop, so the assert there holds, and no turn
    reaches an assert, an out-of-range slot, an `unwrap` of `None` or an
    index out of range: the result is `Ok` or `Err`. -/
theorem computeEffect_never_panics (txn : Transaction P) :
    (∀ done rest (st : EffectState P), txn.operations = done ++ rest →
      done.foldlM (effectStep V) EffectState.init = .ok st → st.txoCount = st.txos.length) ∧
    computeEffect V txn ≠ .error .panic := by
  refine ⟨fun done _ st _ h => ?_, computeEffect_ne_panic txn⟩
  simpa using foldlM_except_induction (fun (b : EffectState P) (_ : List (Operation P)) => b.Counted)
    (fun _ _ _ _ hb hs => (effectStep_ne_panic hb).2 _ hs) [] counted_init h

/-! ## Output slots and inputs, read off the operations -/

/-- The output slots an operation adds, in order: an issuance's records, a
    transfer's outputs. -/
def Operation.outputs : Operation P → List (TxOutput P)
  | .defineAsset _ => []
  | .issueAsset iss => iss.body.records
  | .transferAsset trn => trn.body.transfer.body.outputs.map TxOutput.mk

/-- `outs`: the output slots of the operations `ops`, in order. -/
def slotOutputs (ops : List (Operation P)) : List (TxOutput P) := ops.flatMap Operation.outputs

@[simp] theorem slotOutputs_nil : slotOutputs ([] : List (Operation P)) = [] := rfl

@[simp] theorem slotOutputs_append (ops ops' : List (Operation P)) :
    slotOutputs (ops ++ ops') = slotOutputs ops ++ slotOutputs ops' := List.flatMap_append ..

@[simp] theorem slotOutputs_singleton (op : Operation P) : slotOutputs [op] = op.outputs := by
  simp [slotOutputs]

/-- A `Relative(k)` input claiming record `r`, preceded by `n` output slots,
    as `(n, k, r)`. -/
def relativeUse (n : Nat) : TxoRef × P.Rec → Option (Nat × Nat × P.Rec)
  | (.relative k, r) => some (n, k, r)
  | (.absolute _, _) => none

/-- The `Relative` inputs of the transfers among `ops`, the first operation
    being preceded by `n` output slots. -/
def relativeUsesFrom : Nat → List (Operation P) → List (Nat × Nat × P.Rec)
  | _, [] => []
  | n, op :: ops =>
    op.inputPairs.filterMap (relativeUse n) ++ relativeUsesFrom (n + op.outputs.length) ops

/-- The `Relative` inputs of the transfers of a transaction. -/
def relativeUses (ops : List (Operation P)) : List (Nat × Nat × P.Rec) := relativeUsesFrom 0 ops

/-- The slot `n - 1 - k` that `Relative(k)` names after `n` slots. -/
def resolvedSlot (u : Nat × Nat × P.Rec) : Nat := u.1 - 1 - u.2.1

/-- The slots the `Relative` inputs name, in order. -/
def resolvedSlots (ops : List (Operation P)) : List Nat := (relativeUses ops).map resolvedSlot

/-- The slots `outs`, those in `S` emptied. -/
def resolveSlots (outs : List (TxOutput P)) (S : List Nat) : List (Option (TxOutput P)) :=
  outs.mapIdx fun j o => if j ∈ S then none else some o

/-- What the inputs of a transaction must satisfy: each `Relative(k)` input,
    preceded by `n` output slots, names one of them (slot `n - 1 - k`), which
    holds the record the input claims; no slot is named twice; no `TxoSID` is
    an `Absolute` input twice. -/
structure InputsOk (ops : List (Operation P)) : Prop where
  inRange : ∀ u ∈ relativeUses ops, u.2.1 < u.1
  records : ∀ u ∈ relativeUses ops,
    ∃ o, (slotOutputs ops)[resolvedSlot u]? = some o ∧ o.record = u.2.2
  slotsNodup : (resolvedSlots ops).Nodup
  absNodup : ((absolutePairs (transferPairs ops)).map Prod.fst).Nodup

theorem relativeUsesFrom_append (n : Nat) (ops ops' : List (Operation P)) :
    relativeUsesFrom n (ops ++ ops') =
      relativeUsesFrom n ops ++ relativeUsesFrom (n + (slotOutputs ops).length) ops' := by
  induction ops generalizing n with
  | nil => simp [relativeUsesFrom]
  | cons op ops ih =>
    simp [relativeUsesFrom, ih, slotOutputs, Nat.add_assoc]

theorem relativeUses_append_singleton (ops : List (Operation P)) (op : Operation P) :
    relativeUses (ops ++ [op]) =
      relativeUses ops ++ op.inputPairs.filterMap (relativeUse (slotOutputs ops).length) := by
  simp [relativeUses, relativeUsesFrom_append, relativeUsesFrom]

theorem getElem?_resolveSlots {outs : List (TxOutput P)} {S : List Nat} {j : Nat} :
    (resolveSlots outs S)[j]? = outs[j]?.map fun o => if j ∈ S then none else some o :=
  List.getElem?_mapIdx

@[simp] theorem length_resolveSlots (outs : List (TxOutput P)) (S : List Nat) :
    (resolveSlots outs S).length = outs.length := List.length_mapIdx

/-- New slots, past all emptied ones, are kept. -/
theorem resolveSlots_append {outs new : List (TxOutput P)} {S : List Nat}
    (hS : ∀ j ∈ S, j < outs.length) :
    resolveSlots (outs ++ new) S = resolveSlots outs S ++ new.map some := by
  refine List.ext_getElem? fun j => ?_
  rw [getElem?_resolveSlots]
  rcases Nat.lt_or_ge j outs.length with h | h
  · rw [List.getElem?_append_left h, List.getElem?_append_left (by simpa using h),
      getElem?_resolveSlots]
  · have hj : j ∉ S := fun hj => absurd (hS j hj) (Nat.not_lt.2 h)
    rw [List.getElem?_append_right h, List.getElem?_append_right (by simpa using h)]
    simp [hj]

/-- Emptying one more slot. -/
theorem resolveSlots_set (outs : List (TxOutput P)) (S : List Nat) (j : Nat) :
    (resolveSlots outs S).set j none = resolveSlots outs (S ++ [j]) := by
  refine List.ext_getElem? fun i => ?_
  rw [List.getElem?_set, getElem?_resolveSlots, getElem?_resolveSlots]
  by_cases hij : j = i
  · subst hij
    rcases hj : outs[j]? with _ | o
    · simp [List.getElem?_eq_none_iff.1 hj]
    · simp [(List.getElem?_eq_some_iff.1 hj).1]
  · simp [hij, Ne.symm hij]

/-! ## The loop, slot by slot -/

/-- The `Relative` inputs met after the operations `done` and the inputs `ps`
    of the transfer under way. -/
def usesSoFar (done : List (Operation P)) (ps : List (TxoRef × P.Rec)) :
    List (Nat × Nat × P.Rec) :=
  relativeUses done ++ ps.filterMap (relativeUse (slotOutputs done).length)

/-- What the loop has built after the operations `done` and the inputs `ps`
    of the transfer under way, whose outputs are not yet added. -/
structure SlotInv (done : List (Operation P)) (ps : List (TxoRef × P.Rec)) (st : EffectState P) :
    Prop where
  count : st.txoCount = (slotOutputs done).length
  txos : st.txos = resolveSlots (slotOutputs done) ((usesSoFar done ps).map resolvedSlot)
  uses : ∀ u ∈ usesSoFar done ps, u.2.1 < u.1 ∧
    ∃ o, (slotOutputs done)[resolvedSlot u]? = some o ∧ o.record = u.2.2
  nodup : ((usesSoFar done ps).map resolvedSlot).Nodup
  inputs : TransferInv st.inputTxos (absolutePairs (transferPairs done ++ ps))

theorem slotInv_init : SlotInv [] [] (EffectState.init : EffectState P) where
  count := rfl
  txos := rfl
  uses := by simp [usesSoFar, relativeUses, relativeUsesFrom]
  nodup := by simp [usesSoFar, relativeUses, relativeUsesFrom]
  inputs := ⟨fun _ _ => by simp [EffectState.init], List.nodup_nil⟩

section
variable {done : List (Operation P)} {ps : List (TxoRef × P.Rec)} {st st' : EffectState P}

/-- One input of the transfer under way. -/
theorem SlotInv.input {p : TxoRef × P.Rec} (hI : SlotInv done ps st)
    (h : transferInput st p = .ok st') : SlotInv done (ps ++ [p]) st' := by
  have hin : TransferInv st'.inputTxos (absolutePairs (transferPairs done ++ (ps ++ [p]))) := by
    rw [← List.append_assoc]; exact hI.inputs.input h
  rcases p with ⟨_ | sid, r⟩
  · rename_i k
    obtain ⟨hk, o, ho, hr, rfl⟩ := transferInput_relative_eq_ok.1 h
    rw [hI.txos, getElem?_resolveSlots, hI.count] at ho
    obtain ⟨o', ho', hsel⟩ := Option.map_eq_some'.1 ho
    have hfree : (slotOutputs done).length - 1 - k ∉ (usesSoFar done ps).map resolvedSlot := by
      intro hm; simp [hm] at hsel
    obtain rfl : o' = o := by simpa [hfree] using hsel
    have huses : usesSoFar done (ps ++ [(.relative k, r)]) =
        usesSoFar done ps ++ [((slotOutputs done).length, k, r)] := by
      simp [usesSoFar, relativeUse]
    rw [hI.count] at hk
    refine ⟨hI.count, ?_, ?_, ?_, hin⟩
    · rw [huses, List.map_append, List.map_singleton, ← resolveSlots_set, ← hI.txos, hI.count]
      rfl
    · rw [huses]
      intro u hu
      rcases List.mem_append.1 hu with hu | hu
      · exact hI.uses u hu
      · obtain rfl := List.mem_singleton.1 hu
        exact ⟨hk, o', ho', hr⟩
    · rw [huses, List.map_append, List.map_singleton, List.nodup_append]
      exact ⟨hI.nodup, List.nodup_singleton _, fun a ha hb => hfree (by rw [List.mem_singleton.1 hb] at ha; exact ha)⟩
  · obtain ⟨-, rfl⟩ := transferInput_absolute_eq_ok.1 h
    have huses : usesSoFar done (ps ++ [(.absolute sid, r)]) = usesSoFar done ps := by
      simp [usesSoFar, relativeUse]
    exact ⟨hI.count, huses ▸ hI.txos, huses ▸ hI.uses, huses ▸ hI.nodup, hin⟩

/-- An operation whose inputs were `ps` ends by adding its output slots. -/
theorem SlotInv.close {op : Operation P} (hI : SlotInv done ps st) (hps : op.inputPairs = ps)
    (hc : st'.txoCount = st.txoCount + op.outputs.length)
    (ht : st'.txos = st.txos ++ op.outputs.map some) (hi : st'.inputTxos = st.inputTxos) :
    SlotInv (done ++ [op]) [] st' := by
  have huses : usesSoFar (done ++ [op]) [] = usesSoFar done ps := by
    simp [usesSoFar, relativeUses_append_singleton, hps]
  have hlt : ∀ j ∈ (usesSoFar done ps).map resolvedSlot, j < (slotOutputs done).length := by
    intro j hj
    obtain ⟨u, hu, rfl⟩ := List.mem_map.1 hj
    obtain ⟨-, o, ho, -⟩ := hI.uses u hu
    exact (List.getElem?_eq_some_iff.1 ho).1
  refine ⟨?_, ?_, ?_, ?_, ?_⟩
  · simp [hc, hI.count]
  · rw [huses, ht, hI.txos, slotOutputs_append, slotOutputs_singleton, resolveSlots_append hlt]
  · rw [huses]
    intro u hu
    obtain ⟨hk, o, ho, hr⟩ := hI.uses u hu
    refine ⟨hk, o, ?_, hr⟩
    rwa [slotOutputs_append, List.getElem?_append_left (List.getElem?_eq_some_iff.1 ho).1]
  · rw [huses]; exact hI.nodup
  · simpa [hi, hps] using hI.inputs

theorem SlotInv.step {op : Operation P} (hI : SlotInv done [] st)
    (h : effectStep V st op = .ok st') : SlotInv (done ++ [op]) [] st' := by
  obtain ⟨-, h⟩ := effectStep_eq_ok.1 h
  cases op with
  | defineAsset d =>
    obtain ⟨-, -, -, rfl⟩ := defineAssetStep_eq_ok.1 h
    exact hI.close rfl (by simp [Operation.outputs]) (by simp [Operation.outputs]) rfl
  | issueAsset iss =>
    obtain ⟨-, -, -, rfl⟩ := issueAssetStep_eq_ok.1 h
    exact hI.close rfl rfl rfl rfl
  | transferAsset trn =>
    obtain ⟨-, -, -, -, st₁, h₁, rfl⟩ := transferAssetStep_eq_ok.1 h
    have hI₁ : SlotInv done (trn.body.inputs.zip trn.body.transfer.body.inputs) st₁ := by
      simpa using foldlM_except_induction (fun b ps => SlotInv done ps b)
        (fun _ _ _ _ hb hs => hb.input hs) [] hI h₁
    exact hI₁.close rfl (by simp [Operation.outputs])
      (by simp [Operation.outputs, Function.comp_def]) rfl

end

/-- The recorded inputs are the `Absolute` ones, one entry each. -/
theorem TransferInv.perm {m : HashMap Nat P.Rec} {abs : List (Nat × P.Rec)}
    (hI : TransferInv m abs) :
    m.entries.Perm (abs.map fun p => (⟨p.1, p.2⟩ : Σ _ : Nat, P.Rec)) := by
  have hnd : (abs.map fun p => (⟨p.1, p.2⟩ : Σ _ : Nat, P.Rec)).Nodup :=
    List.Nodup.of_map Sigma.fst (by simpa [List.map_map, Function.comp_def] using hI.nodup)
  refine (List.perm_ext_iff_of_nodup m.nodupKeys.nodup hnd).2 fun ⟨sid, r⟩ => ?_
  rw [hI.inputs]
  simp

/-- **The output slots and inputs of `compute_effect`.**  If it returns
    `Ok(e)`, the inputs of the transaction meet `InputsOk`: each
    `Relative(k)` input, preceded by `n` output slots, names slot
    `n - 1 - k` of an earlier operation, holding the record it claims, and no
    slot is named twice; no `TxoSID` is an `Absolute` input twice.  Then
    `e.txos` are the output slots `outs`, in operation order, `None` exactly
    at the named slots; `input_txos` has one entry per `Absolute` input, with
    its claimed record; and every transfer's two input lists have one
    length, so no input is dropped.  Conversely, on any transaction whose
    inputs break `InputsOk`, `compute_effect` returns `Err`. -/
theorem computeEffect_slots (txn : Transaction P) :
    (∀ e, computeEffect V txn = .ok e →
      InputsOk txn.operations ∧
      e.txos.length = (slotOutputs txn.operations).length ∧
      (∀ j, e.txos[j]? = (slotOutputs txn.operations)[j]?.map fun o =>
        if j ∈ resolvedSlots txn.operations then none else some o) ∧
      e.inputTxos.entries.Perm
        ((absolutePairs (transferPairs txn.operations)).map fun p => ⟨p.1, p.2⟩) ∧
      ∀ trn, .transferAsset trn ∈ txn.operations →
        trn.body.inputs.length = trn.body.transfer.body.inputs.length) ∧
    (¬ InputsOk txn.operations → ∃ err, computeEffect V txn = .error (.err err)) := by
  have hok : ∀ e, computeEffect V txn = .ok e → InputsOk txn.operations ∧
      e.txos.length = (slotOutputs txn.operations).length ∧
      (∀ j, e.txos[j]? = (slotOutputs txn.operations)[j]?.map fun o =>
        if j ∈ resolvedSlots txn.operations then none else some o) ∧
      e.inputTxos.entries.Perm
        ((absolutePairs (transferPairs txn.operations)).map fun p => ⟨p.1, p.2⟩) ∧
      ∀ trn, .transferAsset trn ∈ txn.operations →
        trn.body.inputs.length = trn.body.transfer.body.inputs.length := by
    intro e h
    have hlen := (computeEffect_inputs h).2
    obtain ⟨st, hst, rfl⟩ := computeEffect_eq_ok.1 h
    have hI : SlotInv txn.operations [] st := by
      simpa using foldlM_except_induction (fun b done => SlotInv done [] b)
        (fun _ _ _ _ hb hs => hb.step hs) [] slotInv_init hst
    have huses : usesSoFar txn.operations [] = relativeUses txn.operations := by simp [usesSoFar]
    have hslots : (usesSoFar txn.operations []).map resolvedSlot = resolvedSlots txn.operations := by
      rw [huses]; rfl
    refine ⟨⟨fun u hu => (hI.uses u (huses ▸ hu)).1, fun u hu => (hI.uses u (huses ▸ hu)).2,
      hslots ▸ hI.nodup, by simpa using hI.inputs.nodup⟩, by simp [hI.txos], fun j => ?_,
      by simpa using hI.inputs.perm, hlen⟩
    rw [hI.txos, getElem?_resolveSlots, hslots]
  exact ⟨hok, fun hbad => computeEffect_err_of_ne_ok fun e he => hbad (hok e he).1⟩

/-- An issuance whose output the transfer after it spends (`Relative(0)`),
    together with ledger output `5`: the effect takes only `5` as an input,
    and the spent output's slot holds no output. -/
theorem computeEffect_slots_issueThenMixedTransfer :
    ∃ e, computeEffect keyVerifier issueThenMixedTransfer = .ok e ∧
      InputsOk issueThenMixedTransfer.operations ∧ e.txos.length = 2 ∧
      e.txos[0]? = some none ∧ e.inputTxos.entries.Perm [⟨5, 7⟩] := by
  obtain ⟨e, h⟩ : ∃ e, computeEffect keyVerifier issueThenMixedTransfer = .ok e := ⟨_, rfl⟩
  obtain ⟨hok, hlen, hslot, hinputs, -⟩ := (computeEffect_slots issueThenMixedTransfer).1 e h
  exact ⟨e, h, hok, hlen, hslot 0, hinputs⟩

end LedgerStore
