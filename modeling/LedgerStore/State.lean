/-
  The ledger state (`LedgerState` in `store.rs`): the status with its Merkle
  tree of transaction hashes, the finalized transactions and the UTXO bitmap.

  * `BitMap` and `LoggedMerkle`, whose sources are not in the repository, are
    modelled from the spec; `Crypto` gathers the hash functions the state
    calls;
  * `LedgerState.applyTransaction` (`apply_transaction`, with the bitmap loop
    `updateUtxoMap`), `checkpoint` (`save_utxo_map_version` then
    `save_global_hash`), `snapshot`, and the `ArchiveAccess` queries;
  * `updateUtxoMap_bits`: over any range and sorted SIDs inside it, the
    bitmap loop leaves a bit of the range set iff it is one of the SIDs or
    follows all of them, and no other bit changes;
  * `applyTransaction_cases`: a rejected transaction leaves the state as it
    was; an accepted one applies stage 2, the bitmap loop, and one leaf and
    one finalized transaction.
-/
import LedgerStore.Status

namespace LedgerStore

/-- Modelled from the spec: `BitMap` (`store/bitmap.rs`), the persisted
    bitmap of the output slots; entry `i` is bit `i`. -/
structure BitMap where
  bits : List Bool
  deriving DecidableEq, Repr

namespace BitMap

/-- Modelled from the spec: `BitMap::set`; only setting extends the map,
    with cleared bits up to `ix`. -/
def set (m : BitMap) (ix : Nat) : BitMap :=
  if ix < m.bits.length then ⟨m.bits.set ix true⟩
  else ⟨m.bits ++ List.replicate (ix - m.bits.length) false ++ [true]⟩

/-- Modelled from the spec: `BitMap::clear`. -/
def clear (m : BitMap) (ix : Nat) : BitMap := ⟨m.bits.set ix false⟩

/-- Bit `ix`; bits past the end are cleared. -/
def get (m : BitMap) (ix : Nat) : Bool := m.bits.getD ix false

theorem get_set (m : BitMap) (n ix : Nat) : (m.set n).get ix = (ix = n || m.get ix) := by
  unfold set get
  split_ifs with h
  · by_cases hix : ix = n
    · simp [List.getD_eq_getElem?_getD, List.getElem?_set, hix, h]
    · simp [List.getD_eq_getElem?_getD, List.getElem?_set, hix, Ne.symm hix]
  · rcases Nat.lt_or_ge ix m.bits.length with hlt | hge
    · simp [List.getD_eq_getElem?_getD, List.getElem?_append_left, hlt, show ix ≠ n by omega]
    · -- past the end: the appended cleared bits, then bit `n`
      have hk : ix = n ↔ ix - m.bits.length = n - m.bits.length := by omega
      simp only [List.getD_eq_getElem?_getD, List.append_assoc, List.getElem?_append_right hge,
        List.getElem?_eq_none hge, Option.getD_none, Bool.or_false, hk]
      generalize ix - m.bits.length = j; generalize n - m.bits.length = k
      rcases lt_trichotomy j k with hjk | rfl | hjk
      · simp [List.getElem?_append_left, hjk, hjk.ne]
      · simp
      · have : [true].length ≤ j - k := Nat.sub_pos_of_lt hjk
        simp [List.getElem?_append_right, hjk.le, hjk.ne', List.getElem?_eq_none this]

theorem get_clear (m : BitMap) (n ix : Nat) : (m.clear n).get ix = (ix ≠ n && m.get ix) := by
  unfold clear get
  by_cases hix : ix = n
  · simp [List.getD_eq_getElem?_getD, List.getElem?_set, hix]
    split <;> rfl
  · simp [List.getD_eq_getElem?_getD, List.getElem?_set, hix, Ne.symm hix]

end BitMap

variable {P : Prims}

/-- Modelled from the spec: `LoggedMerkle` (`store/logged_merkle.rs`), the
    append-only Merkle tree of transaction hashes (its leaves, in order) and
    the tree size at which its current log file starts. -/
structure LoggedMerkle (P : Prims) where
  leaves : List P.HashValue
  logStart : Nat

namespace LoggedMerkle

/-- Modelled from the spec: `append`, which returns the index of the new leaf. -/
def append (m : LoggedMerkle P) (h : P.HashValue) : LoggedMerkle P × Nat :=
  (⟨m.leaves ++ [h], m.logStart⟩, m.leaves.length)

/-- Modelled from the spec: `state`, the size of the tree. -/
def state (m : LoggedMerkle P) : Nat := m.leaves.length

/-- Modelled from the spec: `snapshot`, which starts a new log file keyed by
    the current size. -/
def snapshot (m : LoggedMerkle P) : LoggedMerkle P := ⟨m.leaves, m.state⟩

end LoggedMerkle

/-- `FinalizedTransaction`: a transaction, its `TxnSID`, and the index of its
    leaf in the Merkle tree. -/
structure FinalizedTransaction (P : Prims) where
  txn : Transaction P
  txId : Nat
  merkleId : Nat

/-- `GlobalHashData`, hashed as its bytes. -/
structure GlobalHashData (P : Prims) where
  bitmap : P.Digest
  merkle : P.HashValue
  block : Nat
  globalHash : P.Digest

/-- The hash functions of the state: `sha256::hash` of a `GlobalHashData`,
    `BitMap::compute_checksum`, the tree's `get_root_hash` (of its leaves),
    and `Transaction::compute_merkle_hash`. -/
structure Crypto (P : Prims) where
  sha256 : GlobalHashData P → P.Digest
  computeChecksum : BitMap → P.Digest
  getRootHash : List P.HashValue → P.HashValue
  computeMerkleHash : Transaction P → Nat → P.HashValue

/-- `LedgerState`, without the transaction log file, which nothing writes. -/
structure LedgerState (P : Prims) where
  status : LedgerStatus P
  merkle : LoggedMerkle P
  txs : List (FinalizedTransaction P)
  utxoMap : BitMap

/-- The bitmap loop of `apply_transaction`: for each `ix` of the new range,
    set bit `ix`, then clear it unless it is the next SID of `utxoSids`
    (`utxoIx` is that SID's index). -/
def updateUtxoMap (utxoSids : List Nat) : List Nat → BitMap → Nat → BitMap × Nat
  | [], m, utxoIx => (m, utxoIx)
  | ix :: ixs, m, utxoIx =>
    let m := m.set ix
    match utxoSids[utxoIx]? with
    | some utxoSid =>
      if utxoSid ≠ ix then updateUtxoMap utxoSids ixs (m.clear ix) utxoIx
      else updateUtxoMap utxoSids ixs m (utxoIx + 1)
    | none => updateUtxoMap utxoSids ixs m utxoIx

/-- The bits the loop writes for the slots `ts`: set for a slot holding an
    output, and for a slot with no output after it. -/
def slotBits : List (Option (TxOutput P)) → List Bool
  | [] => []
  | t :: ts => (t.isSome || ts.all Option.isNone) :: slotBits ts

@[simp] theorem length_slotBits (ts : List (Option (TxOutput P))) :
    (slotBits ts).length = ts.length := by
  induction ts with
  | nil => rfl
  | cons t ts ih => simp [slotBits, ih]

theorem slotBits_of_some {ts : List (Option (TxOutput P))} {ix : Nat} {o : TxOutput P}
    (h : ts[ix]? = some (some o)) : (slotBits ts)[ix]? = some true := by
  induction ts generalizing ix with
  | nil => simp at h
  | cons t ts ih =>
    cases ix with
    | zero => simp_all [slotBits]
    | succ ix => simpa [slotBits] using ih (by simpa using h)

/-- The loop reads the SID at index `pre.length` once the SIDs `pre` are matched. -/
theorem getElem?_append_length {α : Type} (pre l : List α) :
    (pre ++ l)[pre.length]? = l.head? := by
  rw [List.getElem?_append_right (le_refl _), Nat.sub_self, List.head?_eq_getElem?]

/-- The loop over the slots `ts` from `n`, on a bitmap of `n` bits, appends
    `slotBits ts`; `pre` are the SIDs of earlier slots, already matched.  A
    slot with no output is cleared only while a later SID is left to
    compare it with. -/
theorem updateUtxoMap_newUtxoSids (pre : List Nat) (n : Nat) (ts : List (Option (TxOutput P)))
    (m : BitMap) (hm : m.bits.length = n) :
    (updateUtxoMap (pre ++ newUtxoSids n ts) (List.range' n ts.length) m pre.length).1 =
      ⟨m.bits ++ slotBits ts⟩ := by
  induction ts generalizing pre n m with
  | nil => simp [updateUtxoMap, slotBits]
  | cons t ts ih =>
    have hset : m.set n = ⟨m.bits ++ [true]⟩ := by simp [BitMap.set, hm]
    rw [List.length_cons, List.range'_succ, newUtxoSids_cons]
    cases t with
    | some o =>
      have := ih (pre ++ [n]) (n + 1) ⟨m.bits ++ [true]⟩ (by simp [hm])
      simp only [List.append_assoc, List.length_append, List.length_singleton] at this
      simp only [updateUtxoMap, hset, getElem?_append_length, Option.map_some', Option.toList_some,
        List.singleton_append, List.head?_cons, ne_eq, not_true_eq_false, if_false]
      simpa [slotBits] using this
    | none =>
      simp only [Option.map_none', Option.toList_none, List.nil_append]
      by_cases hall : ts.all Option.isNone
      · have := ih pre (n + 1) ⟨m.bits ++ [true]⟩ (by simp [hm])
        simp only [updateUtxoMap, hset, getElem?_append_length, newUtxoSids_eq_nil.2 hall, List.head?_nil]
        simpa [slotBits, hall, newUtxoSids_eq_nil.2 hall] using this
      · -- the next SID is past `n`: bit `n` is cleared
        obtain ⟨s, rest, hs⟩ : ∃ s rest, newUtxoSids (n + 1) ts = s :: rest :=
          List.exists_cons_of_ne_nil (mt newUtxoSids_eq_nil.1 hall)
        have hsn : s ≠ n := by
          have := le_of_mem_newUtxoSids (hs ▸ List.mem_cons_self s rest)
          omega
        have hclr : BitMap.clear ⟨m.bits ++ [true]⟩ n = ⟨m.bits ++ [false]⟩ := by
          simp [BitMap.clear, ← hm, List.set_append_right]
        have := ih pre (n + 1) ⟨m.bits ++ [false]⟩ (by simp [hm])
        simp only [updateUtxoMap, hset, getElem?_append_length, hs, List.head?_cons, ne_eq, hsn, not_false_eq_true,
          if_true, hclr]
        rw [← hs]
        simpa [slotBits, hall] using this

/-- The bitmap loop over the range `[n, n + k)`, with the SIDs `pre` matched and
    the sorted SIDs `T` of the range left: it matches all of `T`, and leaves bit
    `ix` of the range set iff `ix` is in `T` or follows every SID of `T`; the
    bits outside the range keep their value. -/
theorem updateUtxoMap_range (pre T : List Nat) (n k : Nat) (m : BitMap)
    (hT : T.Pairwise (· < ·)) (hin : ∀ s ∈ T, n ≤ s ∧ s < n + k) :
    (updateUtxoMap (pre ++ T) (List.range' n k) m pre.length).2 = pre.length + T.length ∧
    (∀ ix, n ≤ ix → ix < n + k →
      ((updateUtxoMap (pre ++ T) (List.range' n k) m pre.length).1.get ix = true ↔
        ix ∈ T ∨ ∀ s ∈ T, s < ix)) ∧
    ∀ ix, ix < n ∨ n + k ≤ ix →
      (updateUtxoMap (pre ++ T) (List.range' n k) m pre.length).1.get ix = m.get ix := by
  induction k generalizing pre T n m with
  | zero =>
    obtain rfl : T = [] := List.eq_nil_iff_forall_not_mem.2 fun s hs => by
      have := hin s hs; omega
    exact ⟨by simp [updateUtxoMap], fun ix h h' => by omega, fun ix _ => by simp [updateUtxoMap]⟩
  | succ k ih =>
    rw [List.range'_succ]
    cases T with
    | nil =>
      -- every SID is matched: bit `n` stays set
      obtain ⟨hc, hin', hout⟩ := ih pre [] (n + 1) (m.set n) .nil (by simp)
      simp only [updateUtxoMap, getElem?_append_length, List.head?_nil]
      refine ⟨hc, fun ix h h' => ?_, fun ix h => ?_⟩
      · rcases Nat.eq_or_lt_of_le h with rfl | hlt
        · rw [hout n (.inl (by omega))]
          simp [BitMap.get_set]
        · exact hin' ix hlt (by omega)
      · rw [hout ix (by omega)]
        simp [BitMap.get_set, show ix ≠ n by omega]
    | cons s T =>
      have hs := hin s (List.mem_cons_self _ _)
      have hT' : ∀ t ∈ T, s < t := (List.pairwise_cons.1 hT).1
      by_cases hsn : s = n
      · -- `n` is the next SID: bit `n` stays set and the SID is matched
        subst hsn
        obtain ⟨hc, hin', hout⟩ := ih (pre ++ [s]) T (s + 1) (m.set s) hT.of_cons
          (fun t ht => ⟨hT' t ht, by have := (hin t (.tail _ ht)).2; omega⟩)
        simp only [List.append_assoc, List.singleton_append, List.length_append,
          List.length_singleton] at hc hin' hout
        simp only [updateUtxoMap, getElem?_append_length, List.head?_cons, ne_eq,
          not_true_eq_false, if_false]
        refine ⟨by rw [hc]; simp; omega, fun ix h h' => ?_, fun ix h => ?_⟩
        · rcases Nat.eq_or_lt_of_le h with rfl | hlt
          · rw [hout s (.inl (by omega))]
            simp [BitMap.get_set]
          · rw [hin' ix hlt (by omega)]
            simp [hlt.ne', hlt]
        · rw [hout ix (by omega)]
          simp [BitMap.get_set, show ix ≠ s by omega]
      · -- the next SID is past `n`: bit `n` is cleared
        obtain ⟨hc, hin', hout⟩ := ih pre (s :: T) (n + 1) ((m.set n).clear n) hT
          (fun t ht => by
            rcases List.mem_cons.1 ht with rfl | ht
            · omega
            · have := hin t (.tail _ ht); have := hT' t ht; omega)
        simp only [updateUtxoMap, getElem?_append_length, List.head?_cons, ne_eq, hsn,
          not_false_eq_true, if_true]
        refine ⟨hc, fun ix h h' => ?_, fun ix h => ?_⟩
        · rcases Nat.eq_or_lt_of_le h with rfl | hlt
          · -- neither in `s :: T` nor after `s`
            simp only [hout n (.inl (by omega)), BitMap.get_clear, ne_eq, not_true_eq_false,
              decide_False, Bool.false_and, Bool.false_eq_true, false_iff, not_or, not_forall, not_lt]
            exact ⟨fun h => (List.mem_cons.1 h).elim (fun h => hsn h.symm)
              fun h => absurd (hT' n h) (by omega), s, .head _, hs.1⟩
          · exact hin' ix hlt (by omega)
        · rw [hout ix (by omega)]
          simp [BitMap.get_clear, BitMap.get_set, show ix ≠ n by omega]

/-- **The bitmap loop of `apply_transaction`.**  Run over `base..max` with
    `utxo_sids` sorted and inside the range, the loop ends with
    `utxo_ix = utxo_sids.len()`; bit `ix` of the range is set iff `ix` is one of
    `utxo_sids` or comes after all of them, and no bit outside the range
    changes. -/
theorem updateUtxoMap_bits (S : List Nat) (base max : Nat) (m : BitMap)
    (hS : S.Pairwise (· < ·)) (hin : ∀ s ∈ S, base ≤ s ∧ s < max) :
    (updateUtxoMap S (List.range' base (max - base)) m 0).2 = S.length ∧
    (∀ ix, base ≤ ix → ix < max →
      ((updateUtxoMap S (List.range' base (max - base)) m 0).1.get ix = true ↔
        ix ∈ S ∨ ∀ s ∈ S, s < ix)) ∧
    ∀ ix, ix < base ∨ max ≤ ix →
      (updateUtxoMap S (List.range' base (max - base)) m 0).1.get ix = m.get ix := by
  obtain ⟨hc, hin', hout⟩ := updateUtxoMap_range [] S base (max - base) m hS
    fun s hs => ⟨(hin s hs).1, by have := hin s hs; omega⟩
  simp only [List.nil_append, List.length_nil, Nat.zero_add] at hc hin' hout
  exact ⟨hc, fun ix h h' => hin' ix h (by omega), fun ix h => hout ix (by omega)⟩

theorem updateUtxoMap_bits_gap :
    (updateUtxoMap [1] (List.range' 0 (3 - 0)) ⟨[]⟩ 0).2 = [1].length ∧
      ((updateUtxoMap [1] (List.range' 0 (3 - 0)) ⟨[]⟩ 0).1.get 2 = true ↔
        2 ∈ [1] ∨ ∀ s ∈ [1], s < 2) :=
  ⟨(updateUtxoMap_bits [1] 0 3 ⟨[]⟩ (by decide) (by decide)).1,
    (updateUtxoMap_bits [1] 0 3 ⟨[]⟩ (by decide) (by decide)).2.1 2 (by decide) (by decide)⟩

/-- Over `0..2` with `utxo_sids = [0]` (sorted, inside the range), the loop
    leaves bit `1` set although `1` is not among the SIDs: once every SID is
    matched, `utxo_sids.get(utxo_ix)` is `None` and the set bits stay. -/
theorem updateUtxoMap_keeps_trailing_bit :
    [0].Pairwise (· < ·) ∧ (∀ s ∈ [0], 0 ≤ s ∧ s < 2) ∧
      (updateUtxoMap [0] (List.range' 0 (2 - 0)) ⟨[]⟩ 0).2 = [0].length ∧
      (updateUtxoMap [0] (List.range' 0 (2 - 0)) ⟨[]⟩ 0).1.get 1 = true ∧ 1 ∉ [0] := by
  decide

namespace LedgerState

variable (C : Crypto P)

/-- `LedgerState::new(.., create = true)`: an empty tree and bitmap. -/
def new (P : Prims) : LedgerState P := ⟨LedgerStatus.new P, ⟨[], 0⟩, [], ⟨[]⟩⟩

/-- `LedgerState::apply_transaction`: the status applies the effect; then the
    bitmap is updated over the new SID range, and the transaction's hash goes
    into the tree and the transaction into `txs`. -/
def applyTransaction (L : LedgerState P) (txn : TxnEffect P) :
    Except Failure (Nat × List Nat) × LedgerState P :=
  let baseSid := L.status.nextTxo
  match applyTxnEffects L.status txn with
  | (.error f, status) => (.error f, { L with status })
  | (.ok (txnSid, utxoSids), status) =>
    let maxSid := status.nextTxo
    let utxoMap := (updateUtxoMap utxoSids (List.range' baseSid (maxSid - baseSid)) L.utxoMap 0).1
    let (merkle, merkleId) := L.merkle.append (C.computeMerkleHash txn.txn txnSid)
    (.ok (txnSid, utxoSids),
      { status, merkle, utxoMap, txs := L.txs ++ [⟨txn.txn, txnSid, merkleId⟩] })

/-- `save_utxo_map_version`: push `(next_txn, checksum)`, dropping the oldest
    entry once `MAX_VERSION` are kept. -/
def saveUtxoMapVersion (L : LedgerState P) : LedgerState P :=
  let versions := if L.status.utxoMapVersions.length ≥ MAX_VERSION
    then L.status.utxoMapVersions.tail else L.status.utxoMapVersions
  { L with status := { L.status with
    utxoMapVersions := versions ++ [(L.status.nextTxn, C.computeChecksum L.utxoMap)] } }

/-- `save_global_hash`: hash the bitmap checksum, the Merkle root, the commit
    count and the previous global hash; count the commit. -/
def saveGlobalHash (L : LedgerState P) : LedgerState P :=
  let data : GlobalHashData P := ⟨C.computeChecksum L.utxoMap, C.getRootHash L.merkle.leaves,
    L.status.globalCommitCount, L.status.globalHash⟩
  { L with status := { L.status with
    globalHash := C.sha256 data, globalCommitCount := L.status.globalCommitCount + 1 } }

/-- `LedgerState::checkpoint`. -/
def checkpoint (L : LedgerState P) : LedgerState P := (L.saveUtxoMapVersion C).saveGlobalHash C

/-- `LedgerState::snapshot`: the `SnapshotId` (the tree size) and the state
    with a new log file. -/
def snapshot (L : LedgerState P) : Nat × LedgerState P :=
  let state := L.merkle.state
  (state, { L with merkle := L.merkle.snapshot })

def getTransaction (L : LedgerState P) (addr : Nat) : Option (FinalizedTransaction P) := L.txs[addr]?

def getUtxoMap (L : LedgerState P) : BitMap := L.utxoMap

/-- `get_utxo_checksum`: the checksum of the first kept version for `version`. -/
def getUtxoChecksum (L : LedgerState P) (version : Nat) : Option P.Digest :=
  (L.status.utxoMapVersions.find? (·.1 = version)).map (·.2)

def getGlobalHash (L : LedgerState P) : P.Digest × Nat :=
  (L.status.globalHash, L.status.globalCommitCount)

end LedgerState

/-! ## Spec lemmas -/

namespace LedgerState

variable {C : Crypto P}

/-- An accepted transaction, in full. -/
def applied (C : Crypto P) (L : LedgerState P) (e : TxnEffect P) : LedgerState P :=
  let status := applyEffects L.status e (newUtxoSids L.status.nextTxo e.txos)
  { status
    merkle := (L.merkle.append (C.computeMerkleHash e.txn L.status.nextTxn)).1
    utxoMap := (updateUtxoMap (newUtxoSids L.status.nextTxo e.txos)
      (List.range' L.status.nextTxo e.txos.length) L.utxoMap 0).1
    txs := L.txs ++ [⟨e.txn, L.status.nextTxn, L.merkle.leaves.length⟩] }

/-- A call either fails with the state untouched, or passes stage 1 and
    returns `applied`. -/
theorem applyTransaction_cases (L : LedgerState P) (e : TxnEffect P) :
    (∃ f, validate L.status e = .error f ∧ L.applyTransaction C e = (.error f, L)) ∨
    (Valid L.status e ∧ L.applyTransaction C e =
      (.ok (L.status.nextTxn, newUtxoSids L.status.nextTxo e.txos), L.applied C e)) := by
  unfold applyTransaction
  rcases applyTxnEffects_cases L.status e with ⟨f, hf, he⟩ | ⟨hv, he⟩ <;> rw [he]
  · exact .inl ⟨f, hf, rfl⟩
  · refine .inr ⟨hv, ?_⟩
    simp [applied, applyEffects, LoggedMerkle.append]

/-- On a bitmap of `next_txo` bits, an accepted transaction appends the
    bits of its slots. -/
theorem applied_utxoMap (L : LedgerState P) (e : TxnEffect P)
    (h : L.utxoMap.bits.length = L.status.nextTxo) :
    (L.applied C e).utxoMap = ⟨L.utxoMap.bits ++ slotBits e.txos⟩ := by
  simpa using updateUtxoMap_newUtxoSids [] L.status.nextTxo e.txos L.utxoMap h

@[simp] theorem applied_nextTxn (L : LedgerState P) (e : TxnEffect P) :
    (L.applied C e).status.nextTxn = L.status.nextTxn + 1 := rfl

@[simp] theorem applied_txs (L : LedgerState P) (e : TxnEffect P) :
    (L.applied C e).txs = L.txs ++ [⟨e.txn, L.status.nextTxn, L.merkle.leaves.length⟩] := rfl

@[simp] theorem applied_leaves (L : LedgerState P) (e : TxnEffect P) :
    (L.applied C e).merkle.leaves = L.merkle.leaves ++ [C.computeMerkleHash e.txn L.status.nextTxn] :=
  rfl

@[simp] theorem applied_globalHash (L : LedgerState P) (e : TxnEffect P) :
    (L.applied C e).status.globalHash = L.status.globalHash := rfl

@[simp] theorem applied_globalCommitCount (L : LedgerState P) (e : TxnEffect P) :
    (L.applied C e).status.globalCommitCount = L.status.globalCommitCount := rfl

@[simp] theorem applied_utxoMapVersions (L : LedgerState P) (e : TxnEffect P) :
    (L.applied C e).status.utxoMapVersions = L.status.utxoMapVersions := rfl

@[simp] theorem checkpoint_nextTxn (L : LedgerState P) :
    (L.checkpoint C).status.nextTxn = L.status.nextTxn := rfl

@[simp] theorem checkpoint_txs (L : LedgerState P) : (L.checkpoint C).txs = L.txs := rfl

@[simp] theorem checkpoint_merkle (L : LedgerState P) : (L.checkpoint C).merkle = L.merkle := rfl

@[simp] theorem checkpoint_utxoMap (L : LedgerState P) : (L.checkpoint C).utxoMap = L.utxoMap := rfl

@[simp] theorem checkpoint_utxos (L : LedgerState P) :
    (L.checkpoint C).status.utxos = L.status.utxos := rfl

@[simp] theorem checkpoint_nextTxo (L : LedgerState P) :
    (L.checkpoint C).status.nextTxo = L.status.nextTxo := rfl

@[simp] theorem checkpoint_globalHash (L : LedgerState P) :
    (L.checkpoint C).status.globalHash = C.sha256 ⟨C.computeChecksum L.utxoMap,
      C.getRootHash L.merkle.leaves, L.status.globalCommitCount, L.status.globalHash⟩ := rfl

@[simp] theorem checkpoint_globalCommitCount (L : LedgerState P) :
    (L.checkpoint C).status.globalCommitCount = L.status.globalCommitCount + 1 := rfl

theorem checkpoint_utxoMapVersions (L : LedgerState P) :
    (L.checkpoint C).status.utxoMapVersions =
      (if L.status.utxoMapVersions.length ≥ MAX_VERSION then L.status.utxoMapVersions.tail
        else L.status.utxoMapVersions) ++ [(L.status.nextTxn, C.computeChecksum L.utxoMap)] := rfl

@[simp] theorem snapshot_status (L : LedgerState P) : L.snapshot.2.status = L.status := rfl

@[simp] theorem snapshot_txs (L : LedgerState P) : L.snapshot.2.txs = L.txs := rfl

@[simp] theorem snapshot_leaves (L : LedgerState P) :
    L.snapshot.2.merkle.leaves = L.merkle.leaves := rfl

@[simp] theorem snapshot_utxoMap (L : LedgerState P) : L.snapshot.2.utxoMap = L.utxoMap := rfl

end LedgerState

end LedgerStore
