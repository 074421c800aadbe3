/-
  The iteration order of an effect's maps, and what `apply_txn_effects`
  makes of it (`store.rs`).  Each process seeds its `HashMap`s at random, so
  two replicas may enumerate the maps of one effect in two orders.

  * `TxnEffect.Reordered`: the same effect, its three maps enumerated in
    other orders; two effects `compute_effect` returns for one transaction
    are reorderings of each other;
  * `validate_error_cases`: stage 1 fails only with a panic or with
    `InputsError`; whether it passes, and what stage 2 does, depend only on
    the maps' contents;
  * `applyTxnEffects_reordered`: two orders give the same result and status,
    unless one of them panics where the other returns `Err(InputsError)`;
  * `applyTxnEffects_order_dependent`: an effect of `compute_effect`, on a
    status reached from `LedgerStatus::new`, on which the two outcomes occur;
  * `run_replicas_agree`: two replicas that make the same calls of the
    block-driven caller, each enumerating every effect in its own order,
    end in the same `LedgerState` and see the same outcome of every call,
    unless one of them panics.
-/
import LedgerStore.StatusRun
import LedgerStore.StateRun

namespace LedgerStore

variable {P : Prims} {V : Verifier P}

/-- `e'` is `e` with the entries of its three maps enumerated in other
    orders. -/
structure TxnEffect.Reordered (e e' : TxnEffect P) : Prop where
  txn : e'.txn = e.txn
  txos : e'.txos = e.txos
  inputTxos : e'.inputTxos.entries.Perm e.inputTxos.entries
  newAssetCodes : e'.newAssetCodes.entries.Perm e.newAssetCodes.entries
  newIssuanceNums : e'.newIssuanceNums.entries.Perm e.newIssuanceNums.entries

namespace TxnEffect.Reordered

variable {e e' : TxnEffect P}

theorem refl (e : TxnEffect P) : e.Reordered e := ⟨rfl, rfl, .refl _, .refl _, .refl _⟩

theorem symm (h : e.Reordered e') : e'.Reordered e :=
  ⟨h.txn.symm, h.txos.symm, h.inputTxos.symm, h.newAssetCodes.symm, h.newIssuanceNums.symm⟩

/-- Two effects that `compute_effect` returns for one transaction, each in
    some iteration order, are reorderings of each other. -/
theorem of_computed (h : e.Computed V) (h' : e'.Computed V) (ht : e'.txn = e.txn) :
    e.Reordered e' := by
  obtain ⟨e₀, h₀, ht₀, hi₀, ha₀, hn₀⟩ := h
  obtain ⟨e₀', h₀', ht₀', hi₀', ha₀', hn₀'⟩ := h'
  rw [ht, h₀] at h₀'
  cases h₀'
  exact ⟨ht, ht₀'.trans ht₀.symm, hi₀'.trans hi₀.symm, ha₀'.trans ha₀.symm,
    hn₀'.trans hn₀.symm⟩

end TxnEffect.Reordered

/-! ## Stage 1 and stage 2 in another order -/

section
variable {s : LedgerStatus P} {e e' : TxnEffect P}

/-- Stage 1 fails only by a panic or with `InputsError`. -/
theorem validate_error_cases {f : Failure} (h : validate s e = .error f) :
    f = .panic ∨ f = .err .inputsError := by
  cases f with
  | panic => exact .inl rfl
  | err x =>
    refine .inr ?_
    simp only [validate, bind, Except.bind] at h
    split at h
    · cases h
      obtain ⟨_, -, hp⟩ := forM_eq_error ‹_›
      exact checkInput_error hp
    split at h
    · cases h
      obtain ⟨⟨c, t⟩, -, hp⟩ := forM_eq_error ‹_›
      unfold checkNewAsset at hp
      split_ifs at hp <;> cases hp <;> rfl
    obtain ⟨⟨c, l⟩, -, hp⟩ := forM_eq_error h
    unfold checkIssuance at hp
    rcases l with _ | ⟨m, ms⟩
    · by_cases hc : c ∈ e.newAssetCodes <;> simp [hc] at hp
      simp [hp]
    · cases hl : s.issuanceNum c with
      | none => simp [hl] at hp
      | some lim =>
        by_cases hm : m < lim <;> simp [hl, hm] at hp
        simp [hp]

theorem Valid.reordered (h : e.Reordered e') (hv : Valid s e) : Valid s e' where
  inputs inp hinp := hv.inputs inp (h.inputTxos.subset hinp)
  newAssets a ha := hv.newAssets a (h.newAssetCodes.subset ha)
  issuance a ha := by
    refine ⟨fun hnil => ?_, (hv.issuance a (h.newIssuanceNums.subset ha)).2⟩
    exact (AList.mem_of_perm h.newAssetCodes).2 ((hv.issuance a (h.newIssuanceNums.subset ha)).1 hnil)

theorem applyEffects_reordered (h : e.Reordered e') (sids : List Nat) :
    applyEffects s e' sids = applyEffects s e sids := by
  simp only [applyEffects, h.txos, updateEach_entries_perm h.inputTxos,
    updateEach_entries_perm h.newAssetCodes, updateEach_entries_perm h.newIssuanceNums]

/-- Two orders give the same result and status, or one panics where the
    other returns `Err(InputsError)`, the status untouched in both. -/
theorem applyTxnEffects_of_reordered (s : LedgerStatus P) (h : e.Reordered e') :
    applyTxnEffects s e' = applyTxnEffects s e ∨
    (applyTxnEffects s e = (.error .panic, s) ∧
      applyTxnEffects s e' = (.error (.err .inputsError), s)) ∨
    (applyTxnEffects s e = (.error (.err .inputsError), s) ∧
      applyTxnEffects s e' = (.error .panic, s)) := by
  rcases applyTxnEffects_cases s e with ⟨f, hf, he⟩ | ⟨hv, he⟩ <;>
    rcases applyTxnEffects_cases s e' with ⟨f', hf', he'⟩ | ⟨hv', he'⟩ <;> rw [he, he']
  · rcases validate_error_cases hf with rfl | rfl <;>
      rcases validate_error_cases hf' with rfl | rfl <;> simp
  · exact absurd (validate_eq_ok.2 (hv'.reordered h.symm)) (by rw [hf]; simp)
  · exact absurd (validate_eq_ok.2 (hv.reordered h)) (by rw [hf']; simp)
  · rw [h.txos, applyEffects_reordered h]
    exact .inl rfl

end

/-- **Iteration order.**  Enumerating an effect's maps in another order
    changes nothing, except that a call may panic in one order and return
    `Err(InputsError)` in the other; in both cases the status is left as it
    was.  Two effects `compute_effect` returns for one transaction are such
    reorderings. -/
theorem applyTxnEffects_reordered (s : LedgerStatus P) :
    (∀ {e e' : TxnEffect P}, e.Reordered e' →
      applyTxnEffects s e' = applyTxnEffects s e ∨
      (applyTxnEffects s e = (.error .panic, s) ∧
        applyTxnEffects s e' = (.error (.err .inputsError), s)) ∨
      (applyTxnEffects s e = (.error (.err .inputsError), s) ∧
        applyTxnEffects s e' = (.error .panic, s))) ∧
    (∀ {V : Verifier P} {e e' : TxnEffect P}, e.Computed V → e'.Computed V → e'.txn = e.txn →
      e.Reordered e') :=
  ⟨applyTxnEffects_of_reordered s, TxnEffect.Reordered.of_computed⟩

theorem applyTxnEffects_reordered_issueTwoCodes :
    ∃ e e', computeEffect keyVerifier issueTwoCodes = .ok e ∧ e.Reordered e' ∧
      (applyTxnEffects (LedgerStatus.new natPrims) e' = applyTxnEffects (LedgerStatus.new natPrims) e ∨
      (applyTxnEffects (LedgerStatus.new natPrims) e = (.error .panic, LedgerStatus.new natPrims) ∧
        applyTxnEffects (LedgerStatus.new natPrims) e' =
          (.error (.err .inputsError), LedgerStatus.new natPrims)) ∨
      (applyTxnEffects (LedgerStatus.new natPrims) e =
          (.error (.err .inputsError), LedgerStatus.new natPrims) ∧
        applyTxnEffects (LedgerStatus.new natPrims) e' = (.error .panic, LedgerStatus.new natPrims))) := by
  refine ⟨_, ⟨issueTwoCodes, [some ⟨7⟩, some ⟨7⟩], ∅, ∅, AList.insert 2 [0] (AList.insert 1 [0] ∅)⟩,
    rfl, ?h, (applyTxnEffects_reordered _).1 ?h⟩
  case h => exact ⟨rfl, rfl, .refl _, .refl _, .swap _ _ _⟩

/-! ## A panic in one order -/

/-- Code `2` is defined and issued with number `0`, both accepted, so its
    watermark is `1`; the next transaction issues code `2` with number `0`
    again and the never defined code `1`.  Enumerating `new_issuance_nums`
    as `compute_effect` builds it (code `1` first) panics at the `unwrap` of
    code `1`'s missing watermark; the other order returns `InputsError` for
    code `2`'s number below its watermark. -/
theorem applyTxnEffects_order_dependent :
    ∃ e₁ e₂ e e' s, computeEffect keyVerifier (defineTx 2 1) = .ok e₁ ∧
      computeEffect keyVerifier (issueTx 2 0 1) = .ok e₂ ∧
      computeEffect keyVerifier issueTwoCodes = .ok e ∧ e.Reordered e' ∧
      applyRun (LedgerStatus.new natPrims) [e₁, e₂] = some (s, [e₁, e₂]) ∧
      (applyTxnEffects s e).1 = .error .panic ∧
      (applyTxnEffects s e').1 = .error (.err .inputsError) := by
  refine ⟨_, _, _, ⟨issueTwoCodes, [some ⟨7⟩, some ⟨7⟩], ∅, ∅,
    AList.insert 2 [0] (AList.insert 1 [0] ∅)⟩, _, rfl, rfl, rfl,
    ⟨rfl, rfl, .refl _, .refl _, .swap _ _ _⟩, rfl, rfl, rfl⟩

/-! ## Replicas -/

/-- The calls of two replicas: the same call, the effect given to
    `apply_transaction` enumerated by each replica in its own order. -/
inductive Cmd.Reordered : Cmd P → Cmd P → Prop
  | applyTransaction {e e' : TxnEffect P} : e.Reordered e' →
      Cmd.Reordered (.applyTransaction e) (.applyTransaction e')
  | checkpoint : Cmd.Reordered .checkpoint .checkpoint
  | snapshot : Cmd.Reordered .snapshot .snapshot

/-- What two replicas see of one call: the same outcome, the same state
    after it, and the effect each replica enumerated. -/
inductive Obs.Reordered : Obs P → Obs P → Prop
  | accepted {e e' : TxnEffect P} (L : LedgerState P) : e.Reordered e' →
      Obs.Reordered (.accepted e L) (.accepted e' L)
  | rejected : Obs.Reordered .rejected .rejected
  | checkpointed (L : LedgerState P) : Obs.Reordered (.checkpointed L) (.checkpointed L)
  | snapshotted : Obs.Reordered .snapshotted .snapshotted

section
variable {C : Crypto P} {L : LedgerState P} {e e' : TxnEffect P}

theorem applied_reordered (h : e.Reordered e') : L.applied C e' = L.applied C e := by
  simp only [LedgerState.applied, applyEffects_reordered h, h.txn, h.txos]

/-- One call on one state: unless a replica panics, both reach the same
    state and see the same outcome. -/
theorem exec_reordered {c c' : Cmd P} (h : c.Reordered c') {L₁ L₂ : LedgerState P} {o o' : Obs P}
    (h₁ : L.exec C c = some (o, L₁)) (h₂ : L.exec C c' = some (o', L₂)) :
    L₂ = L₁ ∧ o.Reordered o' := by
  cases h with
  | @applyTransaction e e' he =>
    simp only [LedgerState.exec] at h₁ h₂
    rcases @LedgerState.applyTransaction_cases _ C L e with ⟨f, hf, hr⟩ | ⟨hv, hr⟩ <;>
      rcases @LedgerState.applyTransaction_cases _ C L e' with ⟨f', hf', hr'⟩ | ⟨hv', hr'⟩ <;>
      rw [hr] at h₁ <;> rw [hr'] at h₂
    · cases f <;> cases f' <;> cases h₁ <;> cases h₂
      exact ⟨rfl, .rejected⟩
    · exact absurd (validate_eq_ok.2 (hv'.reordered he.symm)) (by rw [hf]; simp)
    · exact absurd (validate_eq_ok.2 (hv.reordered he)) (by rw [hf']; simp)
    · cases h₁
      cases h₂
      exact ⟨applied_reordered he, applied_reordered he ▸ .accepted _ he⟩
  | checkpoint | snapshot =>
    cases h₁
    cases h₂
    exact ⟨rfl, by constructor⟩

/-- **Replicas agree.**  Two replicas make the same calls of the
    block-driven caller from the same state, each enumerating the maps of
    every effect in its own order.  If neither panics, they end in the same
    `LedgerState` (utxos, asset types, watermarks, counters, version history,
    global hash, Merkle tree, transactions and bitmap), and every call has
    the same outcome in both, leaving the same state. -/
theorem run_replicas_agree (C : Crypto P) :
    ∀ {cs cs' : List (Cmd P)}, List.Forall₂ Cmd.Reordered cs cs' →
      ∀ {L L₁ L₂ : LedgerState P} {os os' : List (Obs P)},
        run C L cs = some (L₁, os) → run C L cs' = some (L₂, os') →
        L₂ = L₁ ∧ List.Forall₂ Obs.Reordered os os'
  | [], [], .nil, _, _, _, _, _, h₁, h₂ => by
    cases h₁
    cases h₂
    exact ⟨rfl, .nil⟩
  | _ :: _, _ :: _, .cons hc hcs, _, _, _, _, _, h₁, h₂ => by
    obtain ⟨o, L₁, os₁, he₁, hr₁, rfl⟩ := run_cons_eq_some.1 h₁
    obtain ⟨o', L₂, os₂, he₂, hr₂, rfl⟩ := run_cons_eq_some.1 h₂
    obtain ⟨rfl, ho⟩ := exec_reordered hc he₁ he₂
    obtain ⟨hL, hos⟩ := run_replicas_agree C hcs hr₁ hr₂
    exact ⟨hL, .cons ho hos⟩

end

/-- Codes `1` and `2` are defined; the issuance of both is accepted by a
    replica enumerating `new_issuance_nums` as `compute_effect` built it and by
    one enumerating it the other way, and the two states are the same. -/
theorem run_replicas_agree_issueTwoCodes :
    ∃ d₁ d₂ e e' L₁ L₂ os os', computeEffect keyVerifier (defineTx 1 1) = .ok d₁ ∧
      computeEffect keyVerifier (defineTx 2 1) = .ok d₂ ∧
      computeEffect keyVerifier issueTwoCodes = .ok e ∧
      List.Forall₂ Cmd.Reordered [.applyTransaction d₁, .applyTransaction d₂, .applyTransaction e]
        [.applyTransaction d₁, .applyTransaction d₂, .applyTransaction e'] ∧
      run natCrypto (LedgerState.new natPrims)
        [.applyTransaction d₁, .applyTransaction d₂, .applyTransaction e] = some (L₁, os) ∧
      run natCrypto (LedgerState.new natPrims)
        [.applyTransaction d₁, .applyTransaction d₂, .applyTransaction e'] = some (L₂, os') ∧
      L₂ = L₁ ∧ List.Forall₂ Obs.Reordered os os' := by
  refine ⟨_, _, _, ⟨issueTwoCodes, [some ⟨7⟩, some ⟨7⟩], ∅, ∅,
    AList.insert 2 [0] (AList.insert 1 [0] ∅)⟩, ?L₁, ?L₂, ?os, ?os', rfl, rfl, rfl, ?hc, ?h₁, ?h₂,
    run_replicas_agree natCrypto ?hc ?h₁ ?h₂⟩
  case hc => exact .cons (.applyTransaction (.refl _)) (.cons (.applyTransaction (.refl _))
    (.cons (.applyTransaction ⟨rfl, rfl, .refl _, .refl _, .swap _ _ _⟩) .nil))
  case h₁ => exact rfl
  case h₂ => exact rfl

end LedgerStore
