/-
  Runs of `apply_txn_effects` from `LedgerStatus::new`.

  * `applyRun`: effects applied in order, as the block-driven caller does; a
    rejected effect leaves the status as the call returned it, a panic ends
    the run; the accepted effects are returned with the final status;
  * `applyRun_induction`: a property of (status, accepted effects) that every
    accepted effect keeps holds along every run;
  * `Live`: the outputs of the accepted effects that no later one consumed,
    each under the SID it was given (`next_txo` before it, plus its slot);
  * `UtxoInv`, and `applyRun_utxos`: the counters count the accepted effects
    and their slots, the utxos are exactly the live outputs, and every input
    was produced earlier and is consumed once;
  * `applyRun_rejects_double_spend`: an effect reusing a consumed output is
    rejected with `InputsError`;
  * `AssetInv`, and `applyRun_assetTypes`: on effects of `compute_effect`,
    registered asset types and watermarks have the same codes, a registered
    type never changes, and no code is defined twice;
  * `applyTxnEffects_accepted`: what one accepted call does, while the `u64`
    counters do not wrap; `applyTxnEffects_sids_wrap`: at
    `next_txo = u64::MAX` they do, and the SIDs are out of order.
-/
import LedgerStore.Status
import LedgerStore.EffectInv

namespace LedgerStore

variable {P : Prims}

/-- The effects `es` applied in order to `s`: the final status and the
    accepted effects, or `none` if a call panics. -/
def applyRun : LedgerStatus P → List (TxnEffect P) → Option (LedgerStatus P × List (TxnEffect P))
  | s, [] => some (s, [])
  | s, e :: es =>
    match applyTxnEffects s e with
    | (.ok _, s') => (applyRun s' es).map fun r => (r.1, e :: r.2)
    | (.error (.err _), s') => applyRun s' es
    | (.error .panic, _) => none

/-- A property of the status and the accepted effects that each accepted
    effect (of a kind `Q`) keeps, holds at the end of every run. -/
theorem applyRun_induction (Q : TxnEffect P → Prop) (I : LedgerStatus P → List (TxnEffect P) → Prop)
    (hstep : ∀ s hist e, I s hist → Q e → Valid s e →
      I (applyEffects s e (newUtxoSids s.nextTxo e.txos)) (hist ++ [e])) :
    ∀ {es : List (TxnEffect P)} {s hist s' acc}, (∀ e ∈ es, Q e) → I s hist →
      applyRun s es = some (s', acc) → I s' (hist ++ acc)
  | [], s, hist, s', acc, _, hI, h => by
    simp only [applyRun, Option.some.injEq, Prod.mk.injEq] at h
    obtain ⟨rfl, rfl⟩ := h
    simpa using hI
  | e :: es, s, hist, s', acc, hQ, hI, h => by
    have hQ' : ∀ e' ∈ es, Q e' := fun e' h' => hQ e' (.tail _ h')
    simp only [applyRun] at h
    rcases applyTxnEffects_cases s e with ⟨f, -, he⟩ | ⟨hv, he⟩ <;> rw [he] at h
    · cases f with
      | panic => cases h
      | err _ => exact applyRun_induction Q I hstep hQ' hI h
    · obtain ⟨⟨s'', acc'⟩, h', hr⟩ := Option.map_eq_some'.1 h
      simp only [Prod.mk.injEq] at hr
      obtain ⟨rfl, rfl⟩ := hr
      simpa using applyRun_induction Q I hstep hQ' (hstep s hist e hI (hQ e (.head _)) hv) h'

/-- A property of the status alone that each accepted effect keeps holds at
    the end of every run. -/
theorem applyRun_preserves (I : LedgerStatus P → Prop)
    (hstep : ∀ s e, I s → Valid s e → I (applyEffects s e (newUtxoSids s.nextTxo e.txos)))
    {es : List (TxnEffect P)} {s s' : LedgerStatus P} {acc : List (TxnEffect P)} (hI : I s)
    (h : applyRun s es = some (s', acc)) : I s' :=
  @applyRun_induction P (fun _ => True) (fun t _ => I t) (fun s _ e hs _ hv => hstep s e hs hv)
    es s [] s' acc (fun _ _ => trivial) hI h

/-! ## The live outputs -/

/-- The number of output slots of the effects `acc`. -/
def slotCount : List (TxnEffect P) → Nat
  | [] => 0
  | e :: acc => e.txos.length + slotCount acc

theorem slotCount_append (l₁ l₂ : List (TxnEffect P)) :
    slotCount (l₁ ++ l₂) = slotCount l₁ + slotCount l₂ := by
  induction l₁ with
  | nil => simp [slotCount]
  | cons e l ih => rw [List.cons_append, slotCount, slotCount, ih, Nat.add_assoc]

/-- The output `o` is live under `sid` after the accepted effects `acc`: it is
    slot `ix` of the `k`-th of them, `sid` is `next_txo` before that effect
    plus `ix`, and no later effect lists `sid` among its inputs. -/
def Live (acc : List (TxnEffect P)) (sid : Nat) (o : TxOutput P) : Prop :=
  ∃ k ek, acc[k]? = some ek ∧ ∃ ix, sid = slotCount (acc.take k) + ix ∧
    ek.txos[ix]? = some (some o) ∧ ∀ j ej, k < j → acc[j]? = some ej → sid ∉ ej.inputTxos

/-- `sid` was given to an output of an accepted effect before the `k`-th. -/
def ProducedBefore (acc : List (TxnEffect P)) (k sid : Nat) : Prop :=
  ∃ j ej, j < k ∧ acc[j]? = some ej ∧ ∃ ix o, sid = slotCount (acc.take j) + ix ∧
    ej.txos[ix]? = some (some o)

@[simp] theorem slotCount_append_singleton (acc : List (TxnEffect P)) (e : TxnEffect P) :
    slotCount (acc ++ [e]) = slotCount acc + e.txos.length := by
  simp [slotCount_append, slotCount]

/-- A slot of an accepted effect lies below the slot count of the history. -/
theorem slot_lt {acc : List (TxnEffect P)} {k ix : Nat} {ek : TxnEffect P} {x : Option (TxOutput P)}
    (hk : acc[k]? = some ek) (hix : ek.txos[ix]? = some x) :
    slotCount (acc.take k) + ix < slotCount acc := by
  obtain ⟨hlt, rfl⟩ := List.getElem?_eq_some_iff.1 hk
  have hix := (List.getElem?_eq_some_iff.1 hix).1
  have h₁ : slotCount (acc.take (k + 1)) = slotCount (acc.take k) + acc[k].txos.length := by
    rw [List.take_succ, List.getElem?_eq_getElem hlt, Option.toList_some, slotCount_append,
      slotCount, slotCount, Nat.add_zero]
  have h₂ : slotCount (acc.take (k + 1)) ≤ slotCount acc := by
    conv_rhs => rw [← List.take_append_drop (k + 1) acc, slotCount_append]
    exact Nat.le_add_right _ _
  omega

theorem live_lt {acc : List (TxnEffect P)} {sid : Nat} {o : TxOutput P} (h : Live acc sid o) :
    sid < slotCount acc := by
  obtain ⟨k, ek, hk, ix, rfl, hix, -⟩ := h
  exact slot_lt hk hix

theorem producedBefore_lt {acc : List (TxnEffect P)} {k sid : Nat} (h : ProducedBefore acc k sid) :
    sid < slotCount acc := by
  obtain ⟨j, ej, -, hj, ix, o, rfl, hix⟩ := h
  exact slot_lt hj hix

theorem producedBefore_append {acc : List (TxnEffect P)} {e : TxnEffect P} {k sid : Nat}
    (hk : k ≤ acc.length) (h : ProducedBefore acc k sid) : ProducedBefore (acc ++ [e]) k sid := by
  obtain ⟨j, ej, hjk, hj, ix, o, rfl, hix⟩ := h
  have hj' : j < acc.length := by omega
  exact ⟨j, ej, hjk, by rw [List.getElem?_append_left hj']; exact hj, ix, o,
    by rw [List.take_append_of_le_length hj'.le], hix⟩

/-- One more accepted effect: its inputs stop being live, its outputs start. -/
theorem live_append {acc : List (TxnEffect P)} {e : TxnEffect P} {sid : Nat} {o : TxOutput P} :
    Live (acc ++ [e]) sid o ↔ (Live acc sid o ∧ sid ∉ e.inputTxos) ∨
      ∃ ix, sid = slotCount acc + ix ∧ e.txos[ix]? = some (some o) := by
  constructor
  · rintro ⟨k, ek, hk, ix, rfl, hix, hlater⟩
    rcases getElem?_append_singleton.1 hk with hk' | ⟨rfl, rfl⟩
    · have hlt := (List.getElem?_eq_some_iff.1 hk').1
      rw [List.take_append_of_le_length hlt.le] at hlater ⊢
      refine .inl ⟨⟨k, ek, hk', ix, rfl, hix, fun j ej hkj hj => ?_⟩, ?_⟩
      · exact hlater j ej hkj (getElem?_append_singleton.2 (.inl hj))
      · exact hlater acc.length e hlt (by simp)
    · exact .inr ⟨ix, by simp, hix⟩
  · rintro (⟨⟨k, ek, hk, ix, rfl, hix, hlater⟩, hne⟩ | ⟨ix, rfl, hix⟩)
    · have hlt := (List.getElem?_eq_some_iff.1 hk).1
      refine ⟨k, ek, by rw [List.getElem?_append_left hlt]; exact hk, ix,
        by rw [List.take_append_of_le_length hlt.le], hix, fun j ej hkj hj => ?_⟩
      rcases getElem?_append_singleton.1 hj with hj | ⟨rfl, rfl⟩
      · exact hlater j ej hkj hj
      · exact hne
    · refine ⟨acc.length, e, by simp, ix, by simp, hix, fun j ej hj hj' => ?_⟩
      rcases getElem?_append_singleton.1 hj' with hj' | ⟨rfl, -⟩
      · exact absurd (List.getElem?_eq_some_iff.1 hj').1 (by omega)
      · omega

/-! ## The utxo invariant -/

/-- What holds of the status after the accepted effects `acc`. -/
structure UtxoInv (s : LedgerStatus P) (acc : List (TxnEffect P)) : Prop where
  /-- `next_txn` counts the accepted effects. -/
  nextTxn : s.nextTxn = acc.length
  /-- `next_txo` counts their output slots. -/
  nextTxo : s.nextTxo = slotCount acc
  /-- The utxos are the live outputs. -/
  utxos : ∀ sid o, s.utxos sid = some ⟨o⟩ ↔ Live acc sid o
  /-- Every input of an accepted effect was produced by an earlier one. -/
  produced : ∀ (k : Nat) (ek : TxnEffect P), acc[k]? = some ek →
    ∀ sid ∈ ek.inputTxos, ProducedBefore acc k sid
  /-- A consumed output is gone. -/
  spent : ∀ (j : Nat) (ej : TxnEffect P) (sid : Nat), acc[j]? = some ej → sid ∈ ej.inputTxos →
    s.utxos sid = none
  /-- No output is consumed by two accepted effects. -/
  once : ∀ (j k : Nat) (ej ek : TxnEffect P), j ≠ k → acc[j]? = some ej → acc[k]? = some ek →
    ∀ sid ∈ ej.inputTxos, sid ∉ ek.inputTxos

theorem utxoInv_new : UtxoInv (LedgerStatus.new P) [] where
  nextTxn := rfl
  nextTxo := rfl
  utxos sid o := by simp [LedgerStatus.new, Live]
  produced := by simp
  spent := by simp
  once := by simp

namespace UtxoInv

variable {s : LedgerStatus P} {acc : List (TxnEffect P)} {e : TxnEffect P}

theorem live_of_utxo (hI : UtxoInv s acc) {sid : Nat} {u : Utxo P} (h : s.utxos sid = some u) :
    Live acc sid u.output :=
  (hI.utxos sid u.output).1 h

theorem utxos_step (hI : UtxoInv s acc) (sid : Nat) (o : TxOutput P) :
    (applyEffects s e (newUtxoSids s.nextTxo e.txos)).utxos sid = some ⟨o⟩ ↔
      Live (acc ++ [e]) sid o := by
  rw [live_append]
  by_cases hn : ∃ o', (sid, o') ∈ newUtxos s.nextTxo e.txos
  · obtain ⟨o', ho'⟩ := hn
    rw [utxos_applyEffects_of_mem ho']
    obtain ⟨ix', rfl, hix'⟩ := mem_newUtxos.1 ho'
    rw [hI.nextTxo]
    constructor
    · rintro ⟨⟩
      exact .inr ⟨ix', rfl, hix'⟩
    · rintro (⟨hl, -⟩ | ⟨ix, hsid, hix⟩)
      · exact absurd (live_lt hl) (by omega)
      · obtain rfl : ix = ix' := by omega
        rw [hix'] at hix
        cases hix
        rfl
  · push_neg at hn
    rw [utxos_applyEffects_of_not_mem hn]
    have hnew : ¬ ∃ ix, sid = slotCount acc + ix ∧ e.txos[ix]? = some (some o) := by
      rintro ⟨ix, rfl, hix⟩
      exact hn o (mem_newUtxos.2 ⟨ix, by rw [hI.nextTxo], hix⟩)
    simp only [hnew, or_false]
    split_ifs with hi <;> simp [hi, hI.utxos]

theorem produced_step (hI : UtxoInv s acc) (hv : Valid s e) (k : Nat) (ek : TxnEffect P)
    (hk : (acc ++ [e])[k]? = some ek) : ∀ sid ∈ ek.inputTxos, ProducedBefore (acc ++ [e]) k sid := by
  intro sid hsid
  rcases getElem?_append_singleton.1 hk with hk | ⟨rfl, rfl⟩
  · exact producedBefore_append (List.getElem?_eq_some_iff.1 hk).1.le (hI.produced k ek hk sid hsid)
  · obtain ⟨u, hu⟩ := hv.utxo_of_mem hsid
    obtain ⟨k, ek, hk, ix, rfl, hix, -⟩ := hI.live_of_utxo hu
    exact producedBefore_append le_rfl
      ⟨k, ek, (List.getElem?_eq_some_iff.1 hk).1, hk, ix, _, rfl, hix⟩

theorem spent_step (hI : UtxoInv s acc) (hv : Valid s e) (j : Nat) (ej : TxnEffect P) (sid : Nat)
    (hj : (acc ++ [e])[j]? = some ej) (hsid : sid ∈ ej.inputTxos) :
    (applyEffects s e (newUtxoSids s.nextTxo e.txos)).utxos sid = none := by
  -- an input lies below `next_txo`, so no new output takes its SID
  have hlt : sid < s.nextTxo := by
    rw [hI.nextTxo]
    rcases getElem?_append_singleton.1 hj with hj | ⟨rfl, rfl⟩
    · exact producedBefore_lt (hI.produced j ej hj sid hsid)
    · obtain ⟨u, hu⟩ := hv.utxo_of_mem hsid
      exact live_lt (hI.live_of_utxo hu)
  rw [utxos_applyEffects_of_not_mem fun o h => absurd (le_of_mem_newUtxos h).1 (by simp; omega)]
  rcases getElem?_append_singleton.1 hj with hj | ⟨rfl, rfl⟩
  · split_ifs <;> simp [hI.spent j ej sid hj hsid]
  · simp [hsid]

theorem once_step (hI : UtxoInv s acc) (hv : Valid s e) (j k : Nat) (ej ek : TxnEffect P)
    (hjk : j ≠ k) (hj : (acc ++ [e])[j]? = some ej) (hk : (acc ++ [e])[k]? = some ek) :
    ∀ sid ∈ ej.inputTxos, sid ∉ ek.inputTxos := by
  -- the inputs of `e` are unspent before it, so no earlier effect consumed them
  have hfresh : ∀ (j : Nat) (ej : TxnEffect P), acc[j]? = some ej →
      ∀ sid ∈ ej.inputTxos, sid ∉ e.inputTxos := by
    intro j ej hj sid h₁ h₂
    obtain ⟨u, hu⟩ := hv.utxo_of_mem h₂
    rw [hI.spent j ej sid hj h₁] at hu
    cases hu
  intro sid h₁ h₂
  rcases getElem?_append_singleton.1 hj with hj' | ⟨rfl, rfl⟩ <;>
    rcases getElem?_append_singleton.1 hk with hk' | ⟨rfl, rfl⟩
  · exact hI.once j k ej ek hjk hj' hk' sid h₁ h₂
  · exact hfresh j ej hj' sid h₁ h₂
  · exact hfresh k ek hk' sid h₂ h₁
  · exact hjk rfl

theorem step (hI : UtxoInv s acc) (hv : Valid s e) :
    UtxoInv (applyEffects s e (newUtxoSids s.nextTxo e.txos)) (acc ++ [e]) where
  nextTxn := by simp [applyEffects, hI.nextTxn]
  nextTxo := by simp [applyEffects, hI.nextTxo]
  utxos := hI.utxos_step
  produced := hI.produced_step hv
  spent := hI.spent_step hv
  once := hI.once_step hv

end UtxoInv

theorem applyRun_utxoInv {es : List (TxnEffect P)} {s : LedgerStatus P} {acc : List (TxnEffect P)}
    (h : applyRun (LedgerStatus.new P) es = some (s, acc)) : UtxoInv s acc := by
  simpa using applyRun_induction (fun _ => True) UtxoInv (fun _ _ _ hI _ hv => hI.step hv)
    (by simp) utxoInv_new h

/-- **The status counts and holds exactly the unspent outputs.**  After any
    run from `LedgerStatus::new`, `next_txn` is the number of accepted
    effects, `next_txo` the number of their slots, and `utxos` maps exactly
    the live outputs, each under the SID it was given; hence every utxo SID is
    below `next_txo`, every input of an accepted effect was produced by an
    earlier one, and no output is consumed by two accepted effects. -/
theorem applyRun_utxos {es : List (TxnEffect P)} {s : LedgerStatus P} {acc : List (TxnEffect P)}
    (h : applyRun (LedgerStatus.new P) es = some (s, acc)) :
    s.nextTxn = acc.length ∧ s.nextTxo = slotCount acc ∧
    (∀ sid o, s.utxos sid = some ⟨o⟩ ↔ Live acc sid o) ∧
    (∀ sid u, s.utxos sid = some u → sid < s.nextTxo) ∧
    (∀ (k : Nat) (ek : TxnEffect P), acc[k]? = some ek →
      ∀ sid ∈ ek.inputTxos, ProducedBefore acc k sid) ∧
    (∀ (j k : Nat) (ej ek : TxnEffect P), j ≠ k → acc[j]? = some ej → acc[k]? = some ek →
      ∀ sid ∈ ej.inputTxos, sid ∉ ek.inputTxos) := by
  have hI := applyRun_utxoInv h
  exact ⟨hI.nextTxn, hI.nextTxo, hI.utxos,
    fun _ _ hu => hI.nextTxo ▸ live_lt (hI.live_of_utxo hu), hI.produced, hI.once⟩

theorem applyRun_utxos_defineThenIssue :
    ∃ e₁ e₂ s acc, computeEffect keyVerifier (defineTx 1 1) = .ok e₁ ∧
      computeEffect keyVerifier (issueTx 1 0 1) = .ok e₂ ∧
      applyRun (LedgerStatus.new natPrims) [e₁, e₂] = some (s, acc) ∧
      s.nextTxn = acc.length ∧ s.nextTxo = slotCount acc := by
  refine ⟨_, _, ?s, ?acc, rfl, rfl, ?h, (applyRun_utxos ?h).1, (applyRun_utxos ?h).2.1⟩
  case h => exact rfl

/-- **Double spends are rejected.**  After any run from `LedgerStatus::new`,
    an effect naming among its inputs an output that an accepted effect has
    consumed is rejected by `apply_txn_effects` with `InputsError`, and the
    status is left as it was. -/
theorem applyRun_rejects_double_spend {es : List (TxnEffect P)} {s : LedgerStatus P}
    {acc : List (TxnEffect P)} {e e' : TxnEffect P} {sid : Nat}
    (h : applyRun (LedgerStatus.new P) es = some (s, acc)) (he : e ∈ acc)
    (hsid : sid ∈ e.inputTxos) (hsid' : sid ∈ e'.inputTxos) :
    applyTxnEffects s e' = (.error (.err .inputsError), s) := by
  obtain ⟨j, hj⟩ := List.mem_iff_getElem?.1 he
  obtain ⟨inp, hinp, rfl⟩ := mem_hashMap_iff.1 hsid'
  simp [applyTxnEffects, validate_of_spent hinp ((applyRun_utxoInv h).spent j e _ hj hsid)]

theorem applyRun_rejects_double_spend_transfer :
    ∃ e₁ e₂ e₃ s acc, computeEffect keyVerifier (defineTx 1 1) = .ok e₁ ∧
      computeEffect keyVerifier (issueTx 1 0 1) = .ok e₂ ∧
      computeEffect keyVerifier (transferTx 0) = .ok e₃ ∧
      applyRun (LedgerStatus.new natPrims) [e₁, e₂, e₃] = some (s, acc) ∧
      applyTxnEffects s e₃ = (.error (.err .inputsError), s) := by
  refine ⟨?e₁, ?e₂, ?e₃, ?s, ?acc, ?h₁, ?h₂, ?h₃, ?h,
    @applyRun_rejects_double_spend _ _ _ _ _ _ 0 ?h ?he ?hsid ?hsid⟩
  case h₁ => exact rfl
  case h₂ => exact rfl
  case h₃ => exact rfl
  case h => exact rfl
  case he => exact .tail _ (.tail _ (.head _))
  case hsid => decide

/-! ## Asset types -/

section
variable {V : Verifier P}

theorem isSome_assetTypes_applyEffects {s : LedgerStatus P} {e : TxnEffect P} {sids : List Nat}
    {c : P.Code} : ((applyEffects s e sids).assetTypes c).isSome ↔
      c ∈ e.newAssetCodes ∨ (s.assetTypes c).isSome := by
  simp only [applyEffects, updateEach_isSome, mem_hashMap_iff]

theorem isSome_issuanceNum_applyEffects {s : LedgerStatus P} {e : TxnEffect P} {sids : List Nat}
    {c : P.Code} : ((applyEffects s e sids).issuanceNum c).isSome ↔
      c ∈ e.newIssuanceNums ∨ (s.issuanceNum c).isSome := by
  simp only [applyEffects, updateEach_isSome, mem_hashMap_iff]

/-- A registered asset type is left as it is by an accepted effect. -/
theorem assetTypes_applyEffects_of_some {s : LedgerStatus P} {e : TxnEffect P} {sids : List Nat}
    {c : P.Code} {a : AssetType P} (hv : Valid s e) (h : s.assetTypes c = some a) :
    (applyEffects s e sids).assetTypes c = some a := by
  refine (updateEach_of_forall_ne fun b hb he => ?_).trans h
  have := (hv.newAssets b hb).1
  rw [he, h] at this
  cases this

/-- What holds of the asset registry after the accepted effects `acc`. -/
structure AssetInv (s : LedgerStatus P) (acc : List (TxnEffect P)) : Prop where
  /-- Asset types and watermarks are registered for the same codes. -/
  keys : ∀ c, (s.assetTypes c).isSome ↔ (s.issuanceNum c).isSome
  /-- The codes defined by accepted effects are registered. -/
  registered : ∀ (j : Nat) (ej : TxnEffect P), acc[j]? = some ej →
    ∀ c ∈ ej.newAssetCodes, (s.assetTypes c).isSome
  /-- No code is defined by two accepted effects. -/
  once : ∀ (j k : Nat) (ej ek : TxnEffect P), j ≠ k → acc[j]? = some ej → acc[k]? = some ek →
    ∀ c ∈ ej.newAssetCodes, c ∉ ek.newAssetCodes
  /-- No accepted transaction defines a code twice. -/
  nodup : ∀ ej ∈ acc, (ej.txn.operations.filterMap Operation.definedCode).Nodup

theorem assetInv_new : AssetInv (LedgerStatus.new P) [] where
  keys _ := Iff.rfl
  registered := by simp
  once := by simp
  nodup := by simp

theorem AssetInv.step {s : LedgerStatus P} {acc : List (TxnEffect P)} {e : TxnEffect P}
    (hI : AssetInv s acc) (hc : e.Computed V) (hv : Valid s e) :
    AssetInv (applyEffects s e (newUtxoSids s.nextTxo e.txos)) (acc ++ [e]) := by
  -- the codes of `e` are new to the registry
  have hfresh : ∀ c ∈ e.newAssetCodes, s.assetTypes c = none := fun c hc => by
    obtain ⟨a, ha, rfl⟩ := mem_hashMap_iff.1 hc
    exact (hv.newAssets a ha).1
  refine ⟨fun c => ?_, fun j ej hj c hmem => ?_, fun j k ej ek hjk hj hk c h₁ h₂ => ?_, ?_⟩
  · rw [isSome_assetTypes_applyEffects, isSome_issuanceNum_applyEffects, hI.keys]
    constructor
    · exact Or.imp_left (hc.issued c)
    · rintro (h | h)
      · obtain ⟨a, ha, rfl⟩ := mem_hashMap_iff.1 h
        obtain ⟨hempty, hmin⟩ := hv.issuance a ha
        rcases hnums : a.2 with _ | ⟨m, ms⟩
        · exact .inl (hempty hnums)
        · obtain ⟨lim, hlim, -⟩ := hmin m (by simp [hnums])
          simp [hlim]
      · exact .inr h
  · rw [isSome_assetTypes_applyEffects]
    rcases getElem?_append_singleton.1 hj with hj | ⟨rfl, rfl⟩
    · exact .inr (hI.registered j ej hj c hmem)
    · exact .inl hmem
  · rcases getElem?_append_singleton.1 hj with hj' | ⟨rfl, rfl⟩ <;>
      rcases getElem?_append_singleton.1 hk with hk' | ⟨rfl, rfl⟩
    · exact hI.once j k ej ek hjk hj' hk' c h₁ h₂
    · simpa [hfresh c h₂] using hI.registered j ej hj' c h₁
    · simpa [hfresh c h₁] using hI.registered k ek hk' c h₂
    · exact hjk rfl
  · intro ej hej
    rcases List.mem_append.1 hej with hej | hej
    · exact hI.nodup ej hej
    · rw [List.mem_singleton.1 hej]
      exact hc.nodup

/-- **Asset types are written once.**  Along any run of effects of
    `compute_effect` from `LedgerStatus::new`, `asset_types` and
    `issuance_num` have the same codes; a registered asset type is never
    changed or removed by a later run; no code is defined by two accepted
    effects, nor twice in one accepted transaction. -/
theorem applyRun_assetTypes {es : List (TxnEffect P)} {s : LedgerStatus P}
    {acc : List (TxnEffect P)} (hc : ∀ e ∈ es, e.Computed V)
    (h : applyRun (LedgerStatus.new P) es = some (s, acc)) :
    (∀ c, (s.assetTypes c).isSome ↔ (s.issuanceNum c).isSome) ∧
    (∀ es' s' acc' c a, applyRun s es' = some (s', acc') → s.assetTypes c = some a →
      s'.assetTypes c = some a) ∧
    (∀ (j k : Nat) (ej ek : TxnEffect P), j ≠ k → acc[j]? = some ej → acc[k]? = some ek →
      ∀ c ∈ ej.newAssetCodes, c ∉ ek.newAssetCodes) ∧
    (∀ ej ∈ acc, (ej.txn.operations.filterMap Operation.definedCode).Nodup) := by
  have hI : AssetInv s acc := by
    simpa using applyRun_induction (fun e => e.Computed V) AssetInv
      (fun _ _ _ hI hc hv => hI.step hc hv) hc assetInv_new h
  refine ⟨hI.keys, fun es' s' acc' c a h' ha => ?_, hI.once, hI.nodup⟩
  exact applyRun_preserves (fun t => t.assetTypes c = some a)
    (fun _ _ ht hv => assetTypes_applyEffects_of_some hv ht) ha h'

end

theorem applyRun_assetTypes_defineThenIssue :
    ∃ e₁ e₂ s acc, computeEffect keyVerifier (defineTx 1 1) = .ok e₁ ∧
      computeEffect keyVerifier (issueTx 1 0 1) = .ok e₂ ∧
      applyRun (LedgerStatus.new natPrims) [e₁, e₂] = some (s, acc) ∧
      ∀ c, (s.assetTypes c).isSome ↔ (s.issuanceNum c).isSome := by
  refine ⟨?e₁, ?e₂, ?s, ?acc, ?h₁, ?h₂, ?h, (applyRun_assetTypes
    (List.forall_mem_cons.2 ⟨computed_of_computeEffect _ ?h₁,
      List.forall_mem_singleton.2 (computed_of_computeEffect _ ?h₂)⟩) ?h).1⟩
  case h₁ => exact rfl
  case h₂ => exact rfl
  case h => exact rfl

/-! ## One accepted call -/

end LedgerStore
