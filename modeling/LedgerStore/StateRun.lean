/-
  Runs of the ledger state from `LedgerState::new`: the block-driven caller
  calls `apply_transaction`, `checkpoint` and `snapshot` in any order.

  * `run`: the final state and what each call showed (`Obs`); a panic ends
    the run; `run_induction` says once what each kind of call can do;
  * `TxsInv`, `run_transactions`: `txs` holds the accepted transactions in
    order, each under its `TxnSID` and the index of the leaf of its hash;
  * `run_eraseLog`, `run_snapshot`: `snapshot` returns `next_txn`, and a run
    with its snapshots left out differs only in where the tree's log starts;
  * `GlobalInv`, `run_globalHash`: the global hash is the hash chain over
    the checkpoints, which binds the checksums and roots it saw unless two
    of the inputs it hashed collide;
  * `VersionInv`, `run_utxoChecksums`: the version history is the window of
    the last `MAX_VERSION` checkpoints, each with the checksum of the bitmap
    after that many accepted transactions.
-/
import LedgerStore.State
import LedgerStore.Effect
import Mathlib.Data.Nat.Pairing

namespace LedgerStore

variable {P : Prims}

/-- A call of the block-driven caller. -/
inductive Cmd (P : Prims) where
  | applyTransaction (txn : TxnEffect P)
  | checkpoint
  | snapshot

/-- What the caller sees of one call. -/
inductive Obs (P : Prims) where
  /-- `apply_transaction` returned `Ok`, leaving this state. -/
  | accepted (e : TxnEffect P) (after : LedgerState P)
  /-- `apply_transaction` returned `Err`. -/
  | rejected
  /-- `checkpoint` was called in this state. -/
  | checkpointed (before : LedgerState P)
  | snapshotted

namespace LedgerState

variable (C : Crypto P)

/-- One call; `none` if it panics. -/
def exec (L : LedgerState P) : Cmd P → Option (Obs P × LedgerState P)
  | .applyTransaction e =>
    match L.applyTransaction C e with
    | (.ok _, L') => some (.accepted e L', L')
    | (.error (.err _), L') => some (.rejected, L')
    | (.error .panic, _) => none
  | .checkpoint => some (.checkpointed L, L.checkpoint C)
  | .snapshot => some (.snapshotted, L.snapshot.2)

end LedgerState

/-- The calls `cs` from `L`: the final state and what each call showed, or
    `none` if one panics. -/
def run (C : Crypto P) : LedgerState P → List (Cmd P) → Option (LedgerState P × List (Obs P))
  | L, [] => some (L, [])
  | L, c :: cs =>
    match L.exec C c with
    | none => none
    | some (o, L') => (run C L' cs).map fun r => (r.1, o :: r.2)

theorem run_cons_eq_some {C : Crypto P} {L L' : LedgerState P} {c : Cmd P} {cs : List (Cmd P)}
    {os : List (Obs P)} :
    run C L (c :: cs) = some (L', os) ↔
      ∃ o L₁ os₁, L.exec C c = some (o, L₁) ∧ run C L₁ cs = some (L', os₁) ∧ os = o :: os₁ := by
  simp only [run]
  split <;> rename_i h
  · simp [h]
  · simp only [Option.map_eq_some', Prod.exists, Prod.mk.injEq, h, Option.some.injEq]
    constructor
    · rintro ⟨L₂, os₂, hr, rfl, rfl⟩
      exact ⟨_, _, _, ⟨rfl, rfl⟩, hr, rfl⟩
    · rintro ⟨o, L₁, os₁, ⟨rfl, rfl⟩, hr, rfl⟩
      exact ⟨_, _, hr, rfl, rfl⟩

/-- A property of the state and the calls seen so far that each kind of call
    keeps holds along every run. -/
theorem run_induction {C : Crypto P} (I : LedgerState P → List (Obs P) → Prop)
    (haccept : ∀ L hist e, I L hist → Valid L.status e →
      I (L.applied C e) (hist ++ [.accepted e (L.applied C e)]))
    (hreject : ∀ L hist, I L hist → I L (hist ++ [.rejected]))
    (hcheck : ∀ L hist, I L hist → I (L.checkpoint C) (hist ++ [.checkpointed L]))
    (hsnap : ∀ L hist, I L hist → I L.snapshot.2 (hist ++ [.snapshotted])) :
    ∀ {cs : List (Cmd P)} {L hist L' os}, I L hist → run C L cs = some (L', os) → I L' (hist ++ os)
  | [], L, hist, L', os, hI, h => by
    simp only [run, Option.some.injEq, Prod.mk.injEq] at h
    obtain ⟨rfl, rfl⟩ := h
    simpa using hI
  | c :: cs, L, hist, L', os, hI, h => by
    simp only [run] at h
    split at h
    · cases h
    · rename_i o L₁ hex
      obtain ⟨⟨L₂, os₂⟩, h', hr⟩ := Option.map_eq_some'.1 h
      simp only [Prod.mk.injEq] at hr
      obtain ⟨rfl, rfl⟩ := hr
      have hI₁ : I L₁ (hist ++ [o]) := by
        cases c with
        | applyTransaction e =>
          simp only [LedgerState.exec] at hex
          rcases @LedgerState.applyTransaction_cases _ C L e with ⟨f, -, he⟩ | ⟨hv, he⟩ <;>
            rw [he] at hex
          · cases f with
            | panic => cases hex
            | err _ => cases hex; exact hreject L hist hI
          · cases hex; exact haccept L hist e hI hv
        | checkpoint => cases hex; exact hcheck L hist hI
        | snapshot => cases hex; exact hsnap L hist hI
      simpa using run_induction I haccept hreject hcheck hsnap hI₁ h'

/-- The hash functions on `natPrims`: `sha256` pairs the fields, so it is
    injective; the others are simple. -/
def natCrypto : Crypto natPrims where
  sha256 d := Nat.pair (Nat.pair d.bitmap d.merkle) (Nat.pair d.block d.globalHash)
  computeChecksum m := m.bits.length
  getRootHash hs := hs.length
  computeMerkleHash _ i := i

theorem natCrypto_sha256_injective : Function.Injective natCrypto.sha256 := by
  rintro ⟨a, b, c, d⟩ ⟨a', b', c', d'⟩ h
  obtain ⟨⟨rfl, rfl⟩, rfl, rfl⟩ : (a = a' ∧ b = b') ∧ c = c' ∧ d = d' := by
    simpa only [natCrypto, Nat.pair_eq_pair] using h
  rfl

/-- **A rejected transaction changes nothing.**  `apply_transaction`
    returns what `apply_txn_effects` returns on the status; when that is an
    `Err`, the whole state is as it was: the status (utxos, asset types,
    watermarks, counters, version history, global hash and commit count),
    the bitmap, the Merkle tree and the transactions.  And whenever
    `apply_txn_effects` returns, it returns `Err` exactly when stage 1 finds
    one of the rejections `Rejected` lists. -/
theorem applyTransaction_rejected (C : Crypto P) (L : LedgerState P) (e : TxnEffect P) :
    (L.applyTransaction C e).1 = (applyTxnEffects L.status e).1 ∧
    (∀ err, (L.applyTransaction C e).1 = .error (.err err) → (L.applyTransaction C e).2 = L) ∧
    ((applyTxnEffects L.status e).1 ≠ .error .panic →
      ((∃ err, (applyTxnEffects L.status e).1 = .error (.err err)) ↔ Rejected L.status e)) := by
  refine ⟨?_, fun err h => ?_, fun hnp => ?_⟩
  · unfold LedgerState.applyTransaction
    split <;> rename_i heq <;> rw [heq]
  · rcases @LedgerState.applyTransaction_cases _ C L e with ⟨f, -, he⟩ | ⟨-, he⟩ <;> rw [he] at h ⊢
    cases h
  · rcases applyTxnEffects_cases L.status e with ⟨f, hf, he⟩ | ⟨hv, he⟩ <;> rw [he] at hnp ⊢
    · cases f with
      | panic => exact absurd rfl hnp
      | err x => exact ⟨fun _ => validate_eq_err hf, fun _ => ⟨x, rfl⟩⟩
    · exact ⟨fun ⟨_, h⟩ => (nomatch h), fun hr => absurd hr hv.not_rejected⟩

/-- A transaction `compute_effect` accepts, which spends an output of its
    own and ledger output `5`: `LedgerState::new` has no output `5`, so stage
    1 rejects it, and the state is left as it was. -/
theorem applyTransaction_rejected_issueThenMixedTransfer :
    ∃ e, computeEffect keyVerifier issueThenMixedTransfer = .ok e ∧
      ((LedgerState.new natPrims).applyTransaction natCrypto e).2 = LedgerState.new natPrims ∧
      Rejected (LedgerState.new natPrims).status e := by
  refine ⟨?e, ?h, (applyTransaction_rejected natCrypto _ ?e).2.1 .inputsError ?herr,
    ((applyTransaction_rejected natCrypto _ ?e).2.2 ?hnp).1 ⟨.inputsError, ?herr'⟩⟩
  case h => exact rfl
  case herr => exact rfl
  case herr' => exact rfl
  case hnp => intro h; cases h

/-! ## Transactions -/

/-- The transactions accepted, in order. -/
def acceptedTxns (os : List (Obs P)) : List (Transaction P) :=
  os.filterMap fun | .accepted e _ => some e.txn | _ => none

@[simp] theorem acceptedTxns_nil : acceptedTxns ([] : List (Obs P)) = [] := rfl

@[simp] theorem acceptedTxns_append (os os' : List (Obs P)) :
    acceptedTxns (os ++ os') = acceptedTxns os ++ acceptedTxns os' := List.filterMap_append ..

@[simp] theorem acceptedTxns_accepted (e : TxnEffect P) (L : LedgerState P) :
    acceptedTxns [.accepted e L] = [e.txn] := rfl

@[simp] theorem acceptedTxns_rejected : acceptedTxns [(.rejected : Obs P)] = [] := rfl

@[simp] theorem acceptedTxns_checkpointed (L : LedgerState P) :
    acceptedTxns [.checkpointed L] = [] := rfl

@[simp] theorem acceptedTxns_snapshotted : acceptedTxns [(.snapshotted : Obs P)] = [] := rfl

section
variable (C : Crypto P)

/-- The finalized transactions after the calls `os`. -/
structure TxsInv (L : LedgerState P) (os : List (Obs P)) : Prop where
  /-- One finalized transaction per `TxnSID`. -/
  length : L.txs.length = L.status.nextTxn
  /-- `next_txn` counts the accepted transactions. -/
  accepted : L.status.nextTxn = (acceptedTxns os).length
  /-- One leaf per transaction. -/
  leaves : L.merkle.leaves.length = L.txs.length
  /-- The `i`-th is the `i`-th accepted transaction, with `TxnSID` `i`, in leaf
      `i`, which holds its hash. -/
  txs : ∀ (i : Nat) (ft : FinalizedTransaction P), L.txs[i]? = some ft →
    (acceptedTxns os)[i]? = some ft.txn ∧ ft.txId = i ∧ ft.merkleId = i ∧
    L.merkle.leaves[i]? = some (C.computeMerkleHash ft.txn i)

theorem txsInv_new : TxsInv C (LedgerState.new P) [] where
  length := rfl
  accepted := rfl
  leaves := rfl
  txs := by simp [LedgerState.new]

theorem TxsInv.accept {L : LedgerState P} {os : List (Obs P)} {e : TxnEffect P}
    (hI : TxsInv C L os) : TxsInv C (L.applied C e) (os ++ [.accepted e (L.applied C e)]) where
  length := by simp [hI.length]
  accepted := by simp [hI.accepted]
  leaves := by simp [hI.leaves]
  txs i ft hft := by
    rw [LedgerState.applied_txs] at hft
    rcases getElem?_append_singleton.1 hft with hft | ⟨rfl, rfl⟩
    · have hi := (List.getElem?_eq_some_iff.1 hft).1
      have := hI.length; have := hI.accepted; have := hI.leaves
      obtain ⟨h₁, h₂, h₃, h₄⟩ := hI.txs i ft hft
      refine ⟨?_, h₂, h₃, ?_⟩
      · rw [acceptedTxns_append, List.getElem?_append_left (by omega)]; exact h₁
      · rw [LedgerState.applied_leaves, List.getElem?_append_left (by omega)]; exact h₄
    · simp [← hI.length, ← hI.accepted, hI.leaves]

theorem TxsInv.frame {L L' : LedgerState P} {os : List (Obs P)} {o : Obs P}
    (hI : TxsInv C L os) (ho : acceptedTxns [o] = []) (htxs : L'.txs = L.txs)
    (hn : L'.status.nextTxn = L.status.nextTxn) (hm : L'.merkle.leaves = L.merkle.leaves) :
    TxsInv C L' (os ++ [o]) where
  length := by rw [htxs, hn, hI.length]
  accepted := by simp [ho, hn, hI.accepted]
  leaves := by rw [hm, htxs, hI.leaves]
  txs i ft hft := by
    rw [acceptedTxns_append, ho, List.append_nil, hm]
    exact hI.txs i ft (htxs ▸ hft)

theorem run_txsInv {cmds : List (Cmd P)} {L : LedgerState P} {os : List (Obs P)}
    (h : run C (LedgerState.new P) cmds = some (L, os)) : TxsInv C L os := by
  simpa using run_induction (TxsInv C) (fun _ _ _ hI _ => hI.accept C)
    (fun _ _ hI => hI.frame C rfl rfl rfl rfl) (fun _ _ hI => hI.frame C rfl rfl rfl rfl)
    (fun _ _ hI => hI.frame C rfl rfl rfl rfl) (txsInv_new C) h

/-- **The archive holds the accepted transactions.**  After any run from
    `LedgerState::new`, `txs` has `next_txn` entries, one per accepted
    transaction; `get_transaction(i)` is the `i`-th accepted transaction with
    `TxnSID` `i` and the index of the leaf holding its hash for `i`, distinct
    transactions having distinct leaves; past `next_txn` there is none. -/
theorem run_transactions {cmds : List (Cmd P)} {L : LedgerState P} {os : List (Obs P)}
    (h : run C (LedgerState.new P) cmds = some (L, os)) :
    L.txs.length = L.status.nextTxn ∧ L.status.nextTxn = (acceptedTxns os).length ∧
    (∀ i < L.status.nextTxn, ∃ ft, L.getTransaction i = some ft ∧
      (acceptedTxns os)[i]? = some ft.txn ∧ ft.txId = i ∧
      L.merkle.leaves[ft.merkleId]? = some (C.computeMerkleHash ft.txn i)) ∧
    (∀ i j fi fj, i ≠ j → L.getTransaction i = some fi → L.getTransaction j = some fj →
      fi.merkleId ≠ fj.merkleId) ∧
    (∀ i, L.status.nextTxn ≤ i → L.getTransaction i = none) := by
  have hI := run_txsInv C h
  refine ⟨hI.length, hI.accepted, fun i hi => ?_, fun i j fi fj hij hi hj => ?_, fun i hi => ?_⟩
  · obtain ⟨ft, hft⟩ : ∃ ft, L.txs[i]? = some ft :=
      ⟨_, List.getElem?_eq_getElem (by rw [hI.length]; exact hi)⟩
    obtain ⟨h₁, h₂, h₃, h₄⟩ := hI.txs i ft hft
    exact ⟨ft, hft, h₁, h₂, h₃ ▸ h₄⟩
  · rw [(hI.txs i fi hi).2.2.1, (hI.txs j fj hj).2.2.1]
    exact hij
  · exact List.getElem?_eq_none (hI.length ▸ hi)

end

theorem run_transactions_defineThenIssue :
    ∃ e₁ e₂ L os, computeEffect keyVerifier (defineTx 1 1) = .ok e₁ ∧
      computeEffect keyVerifier (issueTx 1 0 1) = .ok e₂ ∧
      run natCrypto (LedgerState.new natPrims)
        [.applyTransaction e₁, .checkpoint, .applyTransaction e₂] = some (L, os) ∧
      L.txs.length = L.status.nextTxn ∧ L.status.nextTxn = (acceptedTxns os).length := by
  refine ⟨_, _, ?L, ?os, rfl, rfl, ?h, (run_transactions natCrypto ?h).1,
    (run_transactions natCrypto ?h).2.1⟩
  case h => exact rfl

/-! ## Snapshots

`snapshot` writes only where the tree's current log file starts, and no call
reads that: a run with its snapshots left out ends in the same state up to the
log start, and shows the same results. -/

/-- Whether a call is `snapshot`. -/
def Cmd.isSnapshot : Cmd P → Bool
  | .snapshot => true
  | _ => false

/-- Whether an observation is that of `snapshot`. -/
def Obs.isSnapshot : Obs P → Bool
  | .snapshotted => true
  | _ => false

namespace LedgerState

/-- The state with the start of the tree's log file forgotten. -/
def eraseLog (L : LedgerState P) : LedgerState P := { L with merkle := ⟨L.merkle.leaves, 0⟩ }

theorem applyTransaction_eraseLog (C : Crypto P) (L : LedgerState P) (e : TxnEffect P) :
    L.eraseLog.applyTransaction C e =
      ((L.applyTransaction C e).1, (L.applyTransaction C e).2.eraseLog) := by
  have hs : L.eraseLog.status = L.status := rfl
  unfold applyTransaction
  rw [hs]
  rcases applyTxnEffects L.status e with ⟨_ | _, _⟩ <;> rfl

end LedgerState

/-- The observation with the states in it erased as `LedgerState.eraseLog`. -/
def Obs.eraseLog : Obs P → Obs P
  | .accepted e L => .accepted e L.eraseLog
  | .rejected => .rejected
  | .checkpointed L => .checkpointed L.eraseLog
  | .snapshotted => .snapshotted

section
variable (C : Crypto P)

theorem exec_isSnapshot {L L' : LedgerState P} {c : Cmd P} {o : Obs P}
    (h : L.exec C c = some (o, L')) : o.isSnapshot = c.isSnapshot := by
  cases c with
  | applyTransaction e =>
    simp only [LedgerState.exec] at h
    split at h <;> cases h <;> rfl
  | checkpoint | snapshot => cases h; rfl

/-- Every call but `snapshot` commutes with `eraseLog`. -/
theorem exec_eraseLog (L : LedgerState P) {c : Cmd P} (hc : c.isSnapshot = false) :
    L.eraseLog.exec C c = (L.exec C c).map fun r => (r.1.eraseLog, r.2.eraseLog) := by
  cases c with
  | applyTransaction e =>
    simp only [LedgerState.exec, LedgerState.applyTransaction_eraseLog]
    rcases L.applyTransaction C e with ⟨(_ | _) | _, _⟩ <;> rfl
  | checkpoint => rfl
  | snapshot => cases hc

/-- Leaving out the snapshots of a run. -/
theorem run_eraseLog : ∀ {cs : List (Cmd P)} {L L' : LedgerState P} {os : List (Obs P)},
    run C L cs = some (L', os) →
    run C L.eraseLog (cs.filter fun c => !c.isSnapshot) =
      some (L'.eraseLog, (os.filter fun o => !o.isSnapshot).map Obs.eraseLog)
  | [], L, L', os, h => by cases h; rfl
  | c :: cs, L, L', os, h => by
    obtain ⟨o, L₁, os₁, hex, hr, rfl⟩ := run_cons_eq_some.1 h
    have ih := run_eraseLog hr
    cases hc : c.isSnapshot
    case true =>
      cases c <;> cases hc
      cases hex
      simpa [Obs.isSnapshot] using ih
    case false =>
      have ho : o.isSnapshot = false := (exec_isSnapshot C hex).trans hc
      simp [List.filter_cons, hc, ho, run, exec_eraseLog C L hc, hex, ih]

/-- **Snapshots.**  After any run from `LedgerState::new`, `snapshot` returns
    `next_txn` as its id (the tree has one leaf per transaction); and the run
    with its snapshots left out ends in the same state up to the start of the
    tree's log file, with the same results in the same order. -/
theorem run_snapshot {cmds : List (Cmd P)} {L : LedgerState P} {os : List (Obs P)}
    (h : run C (LedgerState.new P) cmds = some (L, os)) :
    L.snapshot.1 = L.status.nextTxn ∧
    run C (LedgerState.new P) (cmds.filter fun c => !c.isSnapshot) =
      some (L.eraseLog, (os.filter fun o => !o.isSnapshot).map Obs.eraseLog) :=
  ⟨(run_txsInv C h).leaves.trans (run_txsInv C h).length, run_eraseLog C h⟩

end

theorem run_snapshot_defineThenSnapshot :
    ∃ e L os, computeEffect keyVerifier (defineTx 1 1) = .ok e ∧
      run natCrypto (LedgerState.new natPrims) [.applyTransaction e, .snapshot] = some (L, os) ∧
      L.snapshot.1 = L.status.nextTxn := by
  refine ⟨_, ?L, ?os, rfl, ?h, (run_snapshot natCrypto ?h).1⟩
  case h => exact rfl

/-! ## The global hash -/

/-- The states in which checkpoints were taken, in order. -/
def checkpointStates (os : List (Obs P)) : List (LedgerState P) :=
  os.filterMap fun | .checkpointed L => some L | _ => none

@[simp] theorem checkpointStates_nil : checkpointStates ([] : List (Obs P)) = [] := rfl

@[simp] theorem checkpointStates_append (os os' : List (Obs P)) :
    checkpointStates (os ++ os') = checkpointStates os ++ checkpointStates os' :=
  List.filterMap_append ..

@[simp] theorem checkpointStates_accepted (e : TxnEffect P) (L : LedgerState P) :
    checkpointStates [.accepted e L] = [] := rfl

@[simp] theorem checkpointStates_rejected : checkpointStates [(.rejected : Obs P)] = [] := rfl

@[simp] theorem checkpointStates_checkpointed (L : LedgerState P) :
    checkpointStates [.checkpointed L] = [L] := rfl

@[simp] theorem checkpointStates_snapshotted :
    checkpointStates [(.snapshotted : Obs P)] = [] := rfl

section
variable (C : Crypto P)

/-- The bitmap checksum and Merkle root each checkpoint hashed. -/
def checkpointData (os : List (Obs P)) : List (P.Digest × P.HashValue) :=
  (checkpointStates os).map fun L => (C.computeChecksum L.utxoMap, C.getRootHash L.merkle.leaves)

/-- The hash chain over checkpoint data: from the all-zero digest, checkpoint
    `k` hashes its checksum, its root, `k` and the previous hash. -/
def chainHash (cps : List (P.Digest × P.HashValue)) : P.Digest :=
  cps.enum.foldl (fun h x => C.sha256 ⟨x.2.1, x.2.2, x.1, h⟩) P.zeroDigest

theorem chainHash_append_singleton (cps : List (P.Digest × P.HashValue)) (x : P.Digest × P.HashValue) :
    chainHash C (cps ++ [x]) = C.sha256 ⟨x.1, x.2, cps.length, chainHash C cps⟩ := by
  simp [chainHash, List.enum_append, List.foldl_append]

/-- What the chain gives `sha256`: checkpoint `k` its checksum, its root, `k`
    and the hash of the checkpoints before it. -/
def chainInputs (cps : List (P.Digest × P.HashValue)) : List (GlobalHashData P) :=
  cps.enum.map fun x => ⟨x.2.1, x.2.2, x.1, chainHash C (cps.take x.1)⟩

theorem chainInputs_append_singleton (cps : List (P.Digest × P.HashValue)) (x : P.Digest × P.HashValue) :
    chainInputs C (cps ++ [x]) = chainInputs C cps ++ [⟨x.1, x.2, cps.length, chainHash C cps⟩] := by
  simp only [chainInputs, List.enum_append, List.map_append, List.enumFrom_singleton, List.map_cons,
    List.map_nil, List.take_left' rfl]
  congr 1
  refine List.map_congr_left fun y hy => ?_
  rw [List.take_append_of_le_length (List.fst_lt_of_mem_enum hy).le]

/-- Checkpoint `k` gives `sha256` the block `k`, so no two inputs agree. -/
theorem chainInputs_nodup (cps : List (P.Digest × P.HashValue)) : (chainInputs C cps).Nodup := by
  refine List.Nodup.of_map GlobalHashData.block ?_
  simpa only [chainInputs, List.map_map, Function.comp_def] using
    (List.enum_map_fst cps).symm ▸ List.nodup_range cps.length

/-- A collision of `sha256` between two of the given inputs. -/
def Crypto.CollisionIn (ds₁ ds₂ : List (GlobalHashData P)) : Prop :=
  ∃ a ∈ ds₁, ∃ b ∈ ds₂, a ≠ b ∧ C.sha256 a = C.sha256 b

variable {C}

/-- **Binding of the chain.**  Two chains of one length with one hash are
    the same chain, or they gave `sha256` two different inputs with one
    digest. -/
theorem chainHash_binding :
    ∀ {c₁ c₂ : List (P.Digest × P.HashValue)}, c₁.length = c₂.length →
      chainHash C c₁ = chainHash C c₂ → c₁ = c₂ ∨ C.CollisionIn (chainInputs C c₁) (chainInputs C c₂) := by
  intro c₁
  induction c₁ using List.reverseRecOn with
  | nil => intro c₂ hl _; exact .inl (List.length_eq_zero.1 hl.symm).symm
  | append_singleton c₁ x ih =>
    intro c₂ hl h
    rcases List.eq_nil_or_concat c₂ with rfl | ⟨c₂, y, rfl⟩
    · simp at hl
    simp only [List.concat_eq_append, List.length_append, List.length_singleton,
      Nat.add_right_cancel_iff] at hl h ⊢
    rw [chainHash_append_singleton, chainHash_append_singleton] at h
    rw [chainInputs_append_singleton, chainInputs_append_singleton]
    by_cases hd : (⟨x.1, x.2, c₁.length, chainHash C c₁⟩ : GlobalHashData P) =
      ⟨y.1, y.2, c₂.length, chainHash C c₂⟩
    · obtain ⟨h₁, h₂, -, h₄⟩ := GlobalHashData.mk.inj hd
      rcases ih hl h₄ with rfl | ⟨a, ha, b, hb, hab⟩
      · exact .inl (by rw [Prod.ext h₁ h₂])
      · exact .inr ⟨a, List.mem_append_left _ ha, b, List.mem_append_left _ hb, hab⟩
    · exact .inr ⟨_, List.mem_append_right _ (List.mem_singleton_self _),
        _, List.mem_append_right _ (List.mem_singleton_self _), hd, h⟩

end

/-- What each checkpoint of the calls `os` gave `sha256`, in order. -/
def hashedData (C : Crypto P) (os : List (Obs P)) : List (GlobalHashData P) :=
  (checkpointStates os).map fun L =>
    ⟨C.computeChecksum L.utxoMap, C.getRootHash L.merkle.leaves, L.status.globalCommitCount,
      L.status.globalHash⟩

section
variable {C : Crypto P}

/-- The global hash and commit count after the calls `os`. -/
structure GlobalInv (C : Crypto P) (L : LedgerState P) (os : List (Obs P)) : Prop where
  /-- The commit count counts the checkpoints. -/
  count : L.status.globalCommitCount = (checkpointStates os).length
  /-- The global hash is the chain over their data. -/
  hash : L.status.globalHash = chainHash C (checkpointData C os)
  /-- The checkpoints hashed the chain's inputs. -/
  data : hashedData C os = chainInputs C (checkpointData C os)

theorem globalInv_new : GlobalInv C (LedgerState.new P) [] where
  count := rfl
  hash := rfl
  data := rfl

theorem GlobalInv.checkpoint {L : LedgerState P} {os : List (Obs P)} (hI : GlobalInv C L os) :
    GlobalInv C (L.checkpoint C) (os ++ [.checkpointed L]) where
  count := by simp [hI.count]
  hash := by
    rw [LedgerState.checkpoint_globalHash, hI.hash, hI.count]
    simp [checkpointData, chainHash_append_singleton]
  data := by
    have hd := hI.data
    have hh := hI.hash
    simp only [hashedData, checkpointData] at hd hh ⊢
    simp only [checkpointStates_append, checkpointStates_checkpointed, List.map_append,
      List.map_singleton, chainInputs_append_singleton, hd, hh, hI.count, List.length_map]

theorem GlobalInv.frame {L L' : LedgerState P} {os : List (Obs P)} {o : Obs P}
    (hI : GlobalInv C L os) (ho : checkpointStates [o] = [])
    (hh : L'.status.globalHash = L.status.globalHash)
    (hc : L'.status.globalCommitCount = L.status.globalCommitCount) : GlobalInv C L' (os ++ [o]) where
  count := by simp [ho, hc, hI.count]
  hash := by simp [checkpointData, ho, hh, hI.hash]
  data := by simpa [hashedData, checkpointData, ho] using hI.data

/-- **The global hash chains every checkpoint.**  After any run from
    `LedgerState::new`, the commit count is the number of checkpoints and the
    global hash is the chain over the checksum and root each one saw.  Two
    runs with the same `get_global_hash()` saw the same checksums and roots at
    each checkpoint, and the hashes the checkpoints of one run produce are
    pairwise distinct, unless two of the inputs these checkpoints gave
    `sha256` collide. -/
theorem run_globalHash {cmds₁ cmds₂ : List (Cmd P)} {L₁ L₂ : LedgerState P} {os₁ os₂ : List (Obs P)}
    (h₁ : run C (LedgerState.new P) cmds₁ = some (L₁, os₁))
    (h₂ : run C (LedgerState.new P) cmds₂ = some (L₂, os₂)) :
    L₁.status.globalCommitCount = (checkpointStates os₁).length ∧
    L₁.status.globalHash = chainHash C (checkpointData C os₁) ∧
    (L₁.getGlobalHash = L₂.getGlobalHash →
      checkpointData C os₁ = checkpointData C os₂ ∨ C.CollisionIn (hashedData C os₁) (hashedData C os₂)) ∧
    (((checkpointStates os₁).map fun Lc => (Lc.checkpoint C).status.globalHash).Nodup ∨
      C.CollisionIn (hashedData C os₁) (hashedData C os₁)) := by
  have hI : ∀ {cmds L os}, run C (LedgerState.new P) cmds = some (L, os) → GlobalInv C L os :=
    fun h => by
      simpa using run_induction (GlobalInv C) (fun _ _ _ hI _ => hI.frame rfl rfl rfl)
        (fun _ _ hI => hI.frame rfl rfl rfl) (fun _ _ hI => hI.checkpoint)
        (fun _ _ hI => hI.frame rfl rfl rfl) globalInv_new h
  have hI₁ := hI h₁
  have hI₂ := hI h₂
  refine ⟨hI₁.count, hI₁.hash, fun he => ?_, ?_⟩
  · simp only [LedgerState.getGlobalHash, Prod.mk.injEq] at he
    rw [hI₁.data, hI₂.data]
    refine chainHash_binding ?_ (by rw [← hI₁.hash, ← hI₂.hash, he.1])
    simp [checkpointData, ← hI₁.count, ← hI₂.count, he.2]
  · -- the checkpoint hashes are `sha256` of the checkpoints' inputs, which are distinct
    have hmap : ((checkpointStates os₁).map fun Lc => (Lc.checkpoint C).status.globalHash) =
        (hashedData C os₁).map C.sha256 := by
      simp [hashedData, Function.comp_def]
    rw [hmap]
    by_cases hc : C.CollisionIn (hashedData C os₁) (hashedData C os₁)
    · exact .inr hc
    refine .inl (List.Nodup.map_on (fun a ha b hb hab => ?_) (hI₁.data ▸ chainInputs_nodup C _))
    exact by_contra fun hne => hc ⟨a, ha, b, hb, hne, hab⟩

end

/-- Two checkpoints from `LedgerState::new` give two different global
    hashes: `natCrypto`'s hash has no collision. -/
theorem run_globalHash_checkpoints :
    ∃ L₁ os₁ L₂ os₂,
      run natCrypto (LedgerState.new natPrims) [.checkpoint, .checkpoint] = some (L₁, os₁) ∧
      run natCrypto (LedgerState.new natPrims) [.checkpoint] = some (L₂, os₂) ∧
      ((checkpointStates os₁).map fun Lc => (Lc.checkpoint natCrypto).status.globalHash).Nodup := by
  refine ⟨?L₁, ?os₁, ?L₂, ?os₂, ?h₁, ?h₂, (run_globalHash ?h₁ ?h₂).2.2.2.resolve_right ?hc⟩
  case h₁ => exact rfl
  case h₂ => exact rfl
  case hc => exact fun ⟨_, _, _, _, hab, h⟩ => hab (natCrypto_sha256_injective h)

/-! ## Bitmap versions -/

/-- The bitmaps after none, one, two, ... accepted transactions. -/
def bitmapsAfter (os : List (Obs P)) : List BitMap :=
  ⟨[]⟩ :: os.filterMap fun | .accepted _ L => some L.utxoMap | _ => none

@[simp] theorem bitmapsAfter_append_accepted (os : List (Obs P)) (e : TxnEffect P)
    (L : LedgerState P) : bitmapsAfter (os ++ [.accepted e L]) = bitmapsAfter os ++ [L.utxoMap] := by
  simp [bitmapsAfter, List.filterMap_append]

theorem bitmapsAfter_append_of_forall {os : List (Obs P)} {o : Obs P}
    (ho : ∀ t L, o ≠ .accepted t L) : bitmapsAfter (os ++ [o]) = bitmapsAfter os := by
  cases o <;> simp_all [bitmapsAfter, List.filterMap_append]

/-- The last `MAX_VERSION` entries of `l`. -/
def window {α : Type} (l : List α) : List α := l.drop (l.length - MAX_VERSION)

theorem window_append_singleton {α : Type} (l : List α) (x : α) :
    window (l ++ [x]) =
      (if (window l).length ≥ MAX_VERSION then (window l).tail else window l) ++ [x] := by
  simp only [window, List.length_drop, List.length_append, List.length_singleton, MAX_VERSION]
  split_ifs with h
  · rw [List.tail_drop, List.drop_append_of_le_length (by omega), Nat.sub_add_comm (by omega)]
  · rw [List.drop_append_of_le_length (by omega), Nat.sub_eq_zero_of_le (by omega),
      Nat.sub_eq_zero_of_le (by omega)]

section
variable (C : Crypto P)

/-- The `(next_txn, checksum)` each checkpoint pushed, in order. -/
def versionLog (os : List (Obs P)) : List (Nat × P.Digest) :=
  (checkpointStates os).map fun L => (L.status.nextTxn, C.computeChecksum L.utxoMap)

/-- The version history after the calls `os`. -/
structure VersionInv (L : LedgerState P) (os : List (Obs P)) : Prop where
  /-- The history is the window of the last checkpoints. -/
  versions : L.status.utxoMapVersions = window (versionLog C os)
  /-- One bitmap per accepted transaction, and the first. -/
  count : (bitmapsAfter os).length = L.status.nextTxn + 1
  /-- The bitmap now is the one after `next_txn` transactions. -/
  current : (bitmapsAfter os)[L.status.nextTxn]? = some L.utxoMap
  /-- Each checkpoint logged the checksum of the bitmap after `next_txn`
      transactions. -/
  logged : ∀ x ∈ versionLog C os, (bitmapsAfter os)[x.1]?.map C.computeChecksum = some x.2

theorem versionInv_new : VersionInv C (LedgerState.new P) [] where
  versions := rfl
  count := rfl
  current := rfl
  logged := by simp [versionLog]

theorem VersionInv.accept {L : LedgerState P} {os : List (Obs P)} {e : TxnEffect P}
    (hI : VersionInv C L os) :
    VersionInv C (L.applied C e) (os ++ [.accepted e (L.applied C e)]) where
  versions := by simpa [versionLog] using hI.versions
  count := by simp [hI.count]
  current := by simp [← hI.count]
  logged x hx := by
    have hx' := hI.logged x (by simpa [versionLog] using hx)
    have hlt : x.1 < (bitmapsAfter os).length := by
      by_contra hge
      rw [List.getElem?_eq_none (Nat.le_of_not_lt hge)] at hx'
      cases hx'
    rw [bitmapsAfter_append_accepted, List.getElem?_append_left hlt]
    exact hx'

theorem VersionInv.checkpoint {L : LedgerState P} {os : List (Obs P)} (hI : VersionInv C L os) :
    VersionInv C (L.checkpoint C) (os ++ [.checkpointed L]) where
  versions := by
    rw [LedgerState.checkpoint_utxoMapVersions, hI.versions]
    simp only [versionLog, checkpointStates_append, checkpointStates_checkpointed, List.map_append,
      List.map_singleton, window_append_singleton]
  count := by rw [bitmapsAfter_append_of_forall (by simp), hI.count]; rfl
  current := by rw [bitmapsAfter_append_of_forall (by simp)]; exact hI.current
  logged x hx := by
    rw [bitmapsAfter_append_of_forall (by simp)]
    simp only [versionLog, checkpointStates_append, checkpointStates_checkpointed, List.map_append,
      List.map_singleton, List.mem_append, List.mem_singleton] at hx
    rcases hx with hx | rfl
    · exact hI.logged x hx
    · simp [hI.current]

theorem VersionInv.frame {L L' : LedgerState P} {os : List (Obs P)} {o : Obs P}
    (hI : VersionInv C L os) (ho : ∀ t L, o ≠ .accepted t L) (hc : checkpointStates [o] = [])
    (hs : L'.status = L.status) (hm : L'.utxoMap = L.utxoMap) : VersionInv C L' (os ++ [o]) where
  versions := by simp [versionLog, hc, hs, hI.versions]
  count := by rw [bitmapsAfter_append_of_forall ho, hs, hI.count]
  current := by rw [bitmapsAfter_append_of_forall ho, hs, hm]; exact hI.current
  logged x hx := by
    rw [bitmapsAfter_append_of_forall ho]
    exact hI.logged x (by simpa [versionLog, hc] using hx)

/-- **The version history is faithful.**  After any run from
    `LedgerState::new`, `utxo_map_versions` holds at most `MAX_VERSION`
    entries, the `(next_txn, checksum)` pairs of the last checkpoints, oldest
    first; and `get_utxo_checksum(v)` is `some d` iff one of them was taken at
    `next_txn = v`, `d` being the checksum of the bitmap as it stood after
    exactly `v` accepted transactions. -/
theorem run_utxoChecksums {cmds : List (Cmd P)} {L : LedgerState P} {os : List (Obs P)}
    (h : run C (LedgerState.new P) cmds = some (L, os)) :
    L.status.utxoMapVersions.length ≤ MAX_VERSION ∧
    L.status.utxoMapVersions = window (versionLog C os) ∧
    ∀ v d, L.getUtxoChecksum v = some d ↔ (∃ x ∈ L.status.utxoMapVersions, x.1 = v) ∧
      (bitmapsAfter os)[v]?.map C.computeChecksum = some d := by
  have hI : VersionInv C L os := by
    simpa using run_induction (VersionInv C) (fun _ _ _ hI _ => hI.accept C)
      (fun _ _ hI => hI.frame C (by simp) rfl rfl rfl) (fun _ _ hI => hI.checkpoint C)
      (fun _ _ hI => hI.frame C (by simp) rfl rfl rfl) (versionInv_new C) h
  -- every kept entry was logged
  have hlog : ∀ x ∈ L.status.utxoMapVersions, (bitmapsAfter os)[x.1]?.map C.computeChecksum =
      some x.2 := fun x hx =>
    hI.logged x (List.mem_of_mem_drop (hI.versions ▸ hx))
  refine ⟨by rw [hI.versions, window, List.length_drop]; omega, hI.versions, fun v d => ?_⟩
  unfold LedgerState.getUtxoChecksum
  constructor
  · intro hd
    obtain ⟨x, hx, rfl⟩ := Option.map_eq_some'.1 hd
    have hv : x.1 = v := by simpa using List.find?_some hx
    have hmem := List.mem_of_find?_eq_some hx
    exact ⟨⟨x, hmem, hv⟩, hv ▸ hlog x hmem⟩
  · rintro ⟨⟨x, hx, rfl⟩, hd⟩
    obtain ⟨y, hy⟩ := Option.isSome_iff_exists.1
      (List.find?_isSome.2 ⟨x, hx, by simp⟩ : (L.status.utxoMapVersions.find? (·.1 = x.1)).isSome)
    have hv : y.1 = x.1 := by simpa using List.find?_some hy
    have hy' := hlog y (List.mem_of_find?_eq_some hy)
    rw [hv] at hy'
    rw [hy, Option.map_some']
    exact hy'.symm.trans hd

end

theorem run_utxoChecksums_defineThenCheckpoint :
    ∃ e L os, computeEffect keyVerifier (defineTx 1 1) = .ok e ∧
      run natCrypto (LedgerState.new natPrims) [.applyTransaction e, .checkpoint] = some (L, os) ∧
      L.status.utxoMapVersions.length ≤ MAX_VERSION := by
  refine ⟨_, ?L, ?os, rfl, ?h, (run_utxoChecksums natCrypto ?h).1⟩
  case h => exact rfl

end LedgerStore
