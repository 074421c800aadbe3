/-
  `apply_txn_effects` and `apply_transaction` as a debug build runs them
  (`store.rs`): every `debug_assert!` is checked, and so is the `u64`
  addition that sets a watermark; a failed check panics.  SIDs and counters
  stay unbounded, as in the rest of the model.

  * `updateEachChecked`: a loop `for a in l { debug_assert!(..); m[key] = .. }`;
    on distinct keys it is the release loop exactly when every assertion
    holds of the map the loop started from (`updateEachChecked_eq`);
  * `validateDebug`, `applyEffectsDebug`, `applyTxnEffectsDebug`: stage 1
    with its `debug_assert!` on `new_issuance_nums`, stage 2 with the
    assertions of its four loops and the checked `x + 1`;
  * `updateUtxoMapDebug`, `LedgerState.applyTransactionDebug`, `runDebug`:
    the bitmap loop with its two assertions, and the runs of the
    block-driven caller; a panic (`none`) ends the run;
  * `applyEffectsDebug_eq`, `updateUtxoMapDebug_newUtxoSids`: on a status
    whose utxos are below `next_txo`, stage 2 panics only at an issuance
    number `u64::MAX`, and the bitmap loop only when the last slot of the
    transaction was consumed inside it;
  * `runDebug_eq_some_iff`: from `LedgerState::new`, on effects of
    `compute_effect`, a debug build ends where a release build does, unless
    an accepted transaction issues `u64::MAX` or consumes its own last
    output, where the debug build panics after stage 2 has changed the
    status.
-/
import LedgerStore.StateRun
import LedgerStore.Issuance

namespace LedgerStore

variable {P : Prims}

/-! ## Checked loops -/

section
variable {α κ V : Type} [DecidableEq κ]

/-- `for a in l { debug_assert!(ok(m[key a], a)); m[key a] = val a }` in a
    debug build; `none` when an assertion fails. -/
def updateEachChecked (ok : V → α → Bool) (m : κ → V) (l : List α) (key : α → κ)
    (val : α → V) : Option (κ → V) :=
  l.foldlM (fun m a => if ok (m (key a)) a then some (Function.update m (key a) (val a)) else none) m

/-- On distinct keys each assertion reads the map as the loop found it: the
    checked loop is the release loop iff every assertion holds there. -/
theorem updateEachChecked_eq {ok : V → α → Bool} {m : κ → V} {l : List α} {key : α → κ}
    {val : α → V} (hl : (l.map key).Nodup) :
    updateEachChecked ok m l key val =
      if l.all fun a => ok (m (key a)) a then some (updateEach m l key val) else none := by
  induction l generalizing m with
  | nil => rfl
  | cons a l ih =>
    rw [List.map_cons, List.nodup_cons] at hl
    have hrest : (l.all fun b => ok (Function.update m (key a) (val a) (key b)) b) =
        l.all fun b => ok (m (key b)) b := by
      rw [Bool.eq_iff_iff, List.all_eq_true, List.all_eq_true]
      exact forall₂_congr fun b hb => by
        rw [Function.update_noteq fun he => hl.1 (by rw [← he]; exact List.mem_map_of_mem key hb)]
    have ih := @ih (Function.update m (key a) (val a)) hl.2
    simp only [updateEachChecked] at ih
    by_cases ha : ok (m (key a)) a <;>
      simp [updateEachChecked, ha, ih, hrest, updateEach_cons]

/-- A loop that only removes leaves a missing key missing. -/
theorem updateEach_none_of {β : Type} {m : κ → Option β} {l : List α} {key : α → κ} {k : κ}
    (h : m k = none) : updateEach m l key (fun _ => none) k = none := by
  induction l generalizing m with
  | nil => exact h
  | cons a l ih =>
    rw [updateEach_cons]
    exact ih (by by_cases hk : k = key a <;> simp [Function.update, hk, h])

end

theorem forM_congr_mem {α ε : Type} {l : List α} {f g : α → Except ε Unit}
    (h : ∀ a ∈ l, f a = g a) : l.forM f = l.forM g := by
  induction l with
  | nil => rfl
  | cons a l ih => rw [List.forM_cons', List.forM_cons', h a (.head _), ih fun b hb => h b (.tail _ hb)]

/-! ## `apply_txn_effects` -/

section
variable (s : LedgerStatus P) (txn : TxnEffect P)

/-- The loop over the new asset codes in a debug build: the two checks, then
    `debug_assert!(txn.new_issuance_nums.contains_key(&code))`. -/
def checkNewAssetDebug (a : Σ _ : P.Code, AssetType P) : Except Failure Unit := do
  checkNewAsset s a
  if a.1 ∉ txn.newIssuanceNums then throw .panic

/-- Stage 1 in a debug build. -/
def validateDebug : Except Failure Unit := do
  txn.inputTxos.entries.forM (checkInput s)
  txn.newAssetCodes.entries.forM (checkNewAssetDebug s txn)
  txn.newIssuanceNums.entries.forM (checkIssuance s txn)

/-- Stage 2 in a debug build: the four loops of `applyEffects`, with
    `debug_assert!(self.utxos.contains_key(&inp_sid))` before each removal,
    `debug_assert!(!self.utxos.contains_key(txo_sid))` and
    `debug_assert!(txo_sid.0 < self.next_txo.0)` before each insertion, the
    overflow check of `x + 1` for each watermark, and
    `debug_assert!(!self.asset_types.contains_key(&code))` before each
    registration. -/
def applyEffectsDebug (newSids : List Nat) : Option (LedgerStatus P) := do
  let nextTxn := s.nextTxn + 1
  let nextTxo := s.nextTxo + txn.txos.length
  let utxos ← updateEachChecked (fun u _ => u.isSome) s.utxos txn.inputTxos.entries (·.1)
    fun _ => none
  let utxos ← updateEachChecked (fun u p => u.isNone && decide (p.1 < nextTxo)) utxos
    (newSids.zip (txn.txos.filterMap id)) (·.1) fun p => some ⟨p.2⟩
  let issuanceNum ← updateEachChecked (fun _ a => a.2.getLast?.all (·.toNat + 1 < UInt64.size))
    s.issuanceNum txn.newIssuanceNums.entries (·.1)
    fun a => some ((a.2.getLast?.map (· + 1)).getD 0)
  let assetTypes ← updateEachChecked (fun t _ => t.isNone) s.assetTypes
    txn.newAssetCodes.entries (·.1) fun a => some a.2
  pure { s with nextTxn, nextTxo, utxos, issuanceNum, assetTypes }

/-- `apply_txn_effects` in a debug build; `none` when it panics. -/
def applyTxnEffectsDebug : Option (Except PlatformError (Nat × List Nat) × LedgerStatus P) :=
  let newTxn := s.nextTxn
  let newSids := newUtxoSids s.nextTxo txn.txos
  match validateDebug s txn with
  | .error .panic => none
  | .error (.err e) => some (.error e, s)
  | .ok () => (applyEffectsDebug s txn newSids).map fun s' => (.ok (newTxn, newSids), s')

end

/-- Every utxo of the status is below `next_txo`. -/
def SidsBelow (s : LedgerStatus P) : Prop := ∀ sid u, s.utxos sid = some u → sid < s.nextTxo

section
variable {s : LedgerStatus P} {e : TxnEffect P}

theorem validateDebug_eq (h : ∀ c ∈ e.newAssetCodes, c ∈ e.newIssuanceNums) :
    validateDebug s e = validate s e := by
  have : ∀ a ∈ e.newAssetCodes.entries, checkNewAssetDebug s e a = checkNewAsset s a := by
    intro a ha
    have hn : a.1 ∈ e.newIssuanceNums := h a.1 (mem_hashMap_iff.2 ⟨a, ha, rfl⟩)
    simp only [checkNewAssetDebug, hn, not_true_eq_false, if_false]
    cases checkNewAsset s a <;> rfl
  simp only [validateDebug, validate, forM_congr_mem this]

/-- **Stage 2 in a debug build.**  After stage 1 passed, on a status whose
    utxos are below `next_txo`, the removals, insertions and registrations
    never fail their assertions; stage 2 panics iff a code's last issuance
    number is `u64::MAX`. -/
theorem applyEffectsDebug_eq (hs : SidsBelow s) (hv : Valid s e) :
    applyEffectsDebug s e (newUtxoSids s.nextTxo e.txos) =
      if e.newIssuanceNums.entries.all fun a => a.2.getLast?.all (·.toNat + 1 < UInt64.size)
      then some (applyEffects s e (newUtxoSids s.nextTxo e.txos)) else none := by
  have h₁ : e.inputTxos.entries.all (fun a => (s.utxos a.1).isSome) := List.all_eq_true.2
    fun a ha => by obtain ⟨u, hu, -⟩ := hv.inputs a ha; simp [hu]
  have h₂ : (newUtxos s.nextTxo e.txos).all fun p =>
      ((updateEach s.utxos e.inputTxos.entries (·.1) fun _ => none) p.1).isNone &&
        decide (p.1 < s.nextTxo + e.txos.length) := List.all_eq_true.2 fun p hp => by
    have hb := le_of_mem_newUtxos hp
    have hn : s.utxos p.1 = none := by
      cases hu : s.utxos p.1 with
      | none => rfl
      | some u => exact absurd (hs _ u hu) (by omega)
    simp [updateEach_none_of hn, hb.2]
  have h₄ : e.newAssetCodes.entries.all (fun a => (s.assetTypes a.1).isNone) := List.all_eq_true.2
    fun a ha => by simp [(hv.newAssets a ha).1]
  simp only [applyEffectsDebug, updateEachChecked_eq e.inputTxos.keys_nodup, h₁, if_true,
    Option.bind_eq_bind, Option.some_bind]
  rw [show (newUtxoSids s.nextTxo e.txos).zip (e.txos.filterMap id) = newUtxos s.nextTxo e.txos
    from rfl, updateEachChecked_eq (newUtxos_keys_nodup _ _), if_pos h₂, Option.some_bind,
    updateEachChecked_eq e.newIssuanceNums.keys_nodup,
    updateEachChecked_eq e.newAssetCodes.keys_nodup, if_pos h₄]
  split_ifs <;> rfl

end

/-! ## `apply_transaction` -/

/-- The bitmap loop in a debug build, with
    `debug_assert!(utxo_ix < utxo_sids.len())` at the head of each turn. -/
def updateUtxoMapDebug (utxoSids : List Nat) : List Nat → BitMap → Nat → Option (BitMap × Nat)
  | [], m, utxoIx => some (m, utxoIx)
  | ix :: ixs, m, utxoIx =>
    if utxoIx < utxoSids.length then
      let m := m.set ix
      match utxoSids[utxoIx]? with
      | some utxoSid =>
        if utxoSid ≠ ix then updateUtxoMapDebug utxoSids ixs (m.clear ix) utxoIx
        else updateUtxoMapDebug utxoSids ixs m (utxoIx + 1)
      | none => updateUtxoMapDebug utxoSids ixs m utxoIx
    else none

/-- **The bitmap loop in a debug build.**  Over the slots `ts` from `n`, with
    the SIDs `pre` of earlier slots matched, the loop panics iff the last
    slot holds no output (no SID is left to compare it with); otherwise it is
    the release loop. -/
theorem updateUtxoMapDebug_newUtxoSids (pre : List Nat) (n : Nat)
    (ts : List (Option (TxOutput P))) (m : BitMap) :
    updateUtxoMapDebug (pre ++ newUtxoSids n ts) (List.range' n ts.length) m pre.length =
      if ts.getLast? = some none then none
      else some (updateUtxoMap (pre ++ newUtxoSids n ts) (List.range' n ts.length) m pre.length) := by
  induction ts generalizing pre n m with
  | nil => simp [updateUtxoMapDebug, updateUtxoMap]
  | cons t ts ih =>
    rw [List.length_cons, List.range'_succ]
    by_cases hall : (t :: ts).all Option.isNone
    · -- no SID is left: the assertion fails at once
      have hlast : (t :: ts).getLast? = some none := by
        rw [List.getLast?_eq_getLast _ (List.cons_ne_nil t ts)]
        have := List.all_eq_true.1 hall _ (List.getLast_mem (List.cons_ne_nil t ts))
        simpa using this
      simp [updateUtxoMapDebug, newUtxoSids_eq_nil.2 hall, hlast]
    · -- the assertion holds, and the turn is the release one
      have hlast : (t :: ts).getLast? = some none ↔ ts.getLast? = some none := by
        cases ts with
        | nil => cases t <;> simp_all
        | cons t' ts => rw [List.getLast?_cons_cons]
      rw [newUtxoSids_cons]
      cases t with
      | some o =>
        have := ih (pre ++ [n]) (n + 1) (m.set n)
        simp only [List.append_assoc, List.length_append, List.length_singleton,
          List.singleton_append] at this
        have hlen : pre.length < (pre ++ n :: newUtxoSids (n + 1) ts).length := by simp
        simp only [updateUtxoMapDebug, updateUtxoMap, Option.map_some', Option.toList_some,
          List.singleton_append, hlen, if_true, getElem?_append_length, List.head?_cons, ne_eq,
          not_true_eq_false, if_false, hlast]
        exact this
      | none =>
        have hall' : ¬ ts.all Option.isNone := by simpa using hall
        obtain ⟨s, rest, hs⟩ : ∃ s rest, newUtxoSids (n + 1) ts = s :: rest :=
          List.exists_cons_of_ne_nil (mt newUtxoSids_eq_nil.1 hall')
        have hsn : s ≠ n := by
          have := le_of_mem_newUtxoSids (hs ▸ List.mem_cons_self s rest)
          omega
        have hlen : pre.length < (pre ++ s :: rest).length := by simp
        have := ih pre (n + 1) ((m.set n).clear n)
        simp only [Option.map_none', Option.toList_none, List.nil_append]
        simp only [updateUtxoMapDebug, updateUtxoMap, hlen, if_true, getElem?_append_length, hs,
          List.head?_cons, ne_eq, hsn, not_false_eq_true, if_true, hlast]
        rw [← hs]
        exact this

namespace LedgerState

variable (C : Crypto P)

/-- `apply_transaction` in a debug build: `none` when it panics, after which
    the state is not observed. -/
def applyTransactionDebug (L : LedgerState P) (txn : TxnEffect P) :
    Option (Except PlatformError (Nat × List Nat) × LedgerState P) :=
  let baseSid := L.status.nextTxo
  match applyTxnEffectsDebug L.status txn with
  | none => none
  | some (.error e, status) => some (.error e, { L with status })
  | some (.ok (txnSid, utxoSids), status) =>
    let maxSid := status.nextTxo
    match updateUtxoMapDebug utxoSids (List.range' baseSid (maxSid - baseSid)) L.utxoMap 0 with
    | none => none
    | some (utxoMap, utxoIx) =>
      if utxoIx ≠ utxoSids.length then none
      else
        let (merkle, merkleId) := L.merkle.append (C.computeMerkleHash txn.txn txnSid)
        some (.ok (txnSid, utxoSids),
          { status, merkle, utxoMap, txs := L.txs ++ [⟨txn.txn, txnSid, merkleId⟩] })

/-- One call in a debug build; `checkpoint` and `snapshot` assert nothing. -/
def execDebug (L : LedgerState P) : Cmd P → Option (Obs P × LedgerState P)
  | .applyTransaction e =>
    match L.applyTransactionDebug C e with
    | some (.ok _, L') => some (.accepted e L', L')
    | some (.error _, L') => some (.rejected, L')
    | none => none
  | .checkpoint => some (.checkpointed L, L.checkpoint C)
  | .snapshot => some (.snapshotted, L.snapshot.2)

end LedgerState

/-- The calls `cs` from `L` in a debug build, or `none` if one panics. -/
def runDebug (C : Crypto P) : LedgerState P → List (Cmd P) → Option (LedgerState P × List (Obs P))
  | L, [] => some (L, [])
  | L, c :: cs =>
    match L.execDebug C c with
    | none => none
    | some (o, L') => (runDebug C L' cs).map fun r => (r.1, o :: r.2)

theorem runDebug_cons_eq_some {C : Crypto P} {L L' : LedgerState P} {c : Cmd P}
    {cs : List (Cmd P)} {os : List (Obs P)} :
    runDebug C L (c :: cs) = some (L', os) ↔
      ∃ o L₁ os₁, L.execDebug C c = some (o, L₁) ∧ runDebug C L₁ cs = some (L', os₁) ∧
        os = o :: os₁ := by
  simp only [runDebug]
  split <;> rename_i h
  · simp [h]
  · simp only [Option.map_eq_some', Prod.exists, Prod.mk.injEq, h, Option.some.injEq]
    constructor
    · rintro ⟨L₂, os₂, hr, rfl, rfl⟩
      exact ⟨_, _, _, ⟨rfl, rfl⟩, hr, rfl⟩
    · rintro ⟨o, L₁, os₁, ⟨rfl, rfl⟩, hr, rfl⟩
      exact ⟨_, _, hr, rfl, rfl⟩

/-! ## The debug build along a run -/

/-- What a debug build asserts of an accepted effect beyond the release
    checks: no issuance has the number `u64::MAX`, and the last output slot,
    if any, was not consumed inside the transaction. -/
def DebugAccepts (e : TxnEffect P) : Prop := NoMaxSeqNum e ∧ e.txos.getLast? ≠ some none

section
variable {V : Verifier P} {C : Crypto P} {L L' : LedgerState P} {e : TxnEffect P}

/-- On an effect of `compute_effect`, a code's last issuance number is
    `u64::MAX` iff some issuance has that number: the numbers of a code
    strictly increase. -/
theorem noMaxSeqNum_iff (hc : e.Computed V) :
    (e.newIssuanceNums.entries.all fun a => a.2.getLast?.all (·.toNat + 1 < UInt64.size)) ↔
      NoMaxSeqNum e := by
  have hI := hc.issueInv
  rw [List.all_eq_true]
  constructor
  · intro h iss hiss
    by_contra hmax
    have hmem : iss.body.seqNum ∈ issuanceNumsOf e.newIssuanceNums iss.body.code := by
      rw [hI.nums]
      exact List.mem_filterMap.2 ⟨_, hiss, by simp [Operation.issuedNum]⟩
    obtain ⟨l, hl⟩ : ∃ l, e.newIssuanceNums.lookup iss.body.code = some l := by
      cases hl : e.newIssuanceNums.lookup iss.body.code with
      | none => simp [issuanceNumsOf, hl] at hmem
      | some l => exact ⟨l, rfl⟩
    rw [issuanceNumsOf, hl, Option.getD_some] at hmem
    -- the numbers of the code strictly increase, so none follows `u64::MAX`
    have hs : l.Pairwise (· < ·) := by
      have := hI.sorted iss.body.code
      rw [← hI.nums, issuanceNumsOf, hl, Option.getD_some] at this
      exact List.chain'_iff_pairwise.1 this
    obtain ⟨x, hx⟩ : ∃ x, l.getLast? = some x :=
      Option.isSome_iff_exists.1 (List.getLast?_isSome.2 (List.ne_nil_of_mem hmem))
    have hle := toNat_le_of_getLast? hs hmem hx
    have := h ⟨iss.body.code, l⟩ (AList.mem_lookup_iff.1 hl)
    simp only [hx, Option.all_some, decide_eq_true_eq] at this
    omega
  · intro h a ha
    cases hx : a.2.getLast? with
    | none => rfl
    | some x =>
      have hmem : x ∈ issuedNums e.txn.operations a.1 := by
        rw [← hI.nums, issuanceNumsOf, AList.mem_lookup_iff.2 ha, Option.getD_some]
        exact List.mem_of_mem_getLast? hx
      simpa using h.of_mem hmem

end

section
variable {V : Verifier P} {C : Crypto P} {L L' : LedgerState P}

/-- Every call keeps the utxos below `next_txo`. -/
theorem sidsBelow_exec {c : Cmd P} {o : Obs P} (hs : SidsBelow L.status)
    (h : L.exec C c = some (o, L')) : SidsBelow L'.status := by
  cases c with
  | applyTransaction e =>
    simp only [LedgerState.exec] at h
    rcases @LedgerState.applyTransaction_cases _ C L e with ⟨f, -, he⟩ | ⟨hv, he⟩ <;> rw [he] at h
    · cases f <;> cases h
      exact hs
    · cases h
      intro sid u hu
      show sid < L.status.nextTxo + e.txos.length
      by_cases hn : ∃ o, (sid, o) ∈ newUtxos L.status.nextTxo e.txos
      · obtain ⟨o, ho⟩ := hn
        exact (le_of_mem_newUtxos ho).2
      · have hu : (applyEffects L.status e (newUtxoSids L.status.nextTxo e.txos)).utxos sid =
            some u := hu
        rw [utxos_applyEffects_of_not_mem fun o ho => hn ⟨o, ho⟩] at hu
        split_ifs at hu
        exact Nat.lt_add_right _ (hs sid u hu)
  | checkpoint => cases h; exact hs
  | snapshot => cases h; exact hs

/-- One call in a debug build: the release call, unless it accepts an effect
    the debug build's assertions reject. -/
theorem execDebug_eq_some {c : Cmd P} {o : Obs P} (hs : SidsBelow L.status)
    (hc : ∀ e, c = .applyTransaction e → e.Computed V) :
    L.execDebug C c = some (o, L') ↔
      L.exec C c = some (o, L') ∧ ∀ e L'', o = .accepted e L'' → DebugAccepts e := by
  cases c with
  | applyTransaction e =>
    have hce := hc e rfl
    simp only [LedgerState.execDebug, LedgerState.exec, LedgerState.applyTransactionDebug,
      applyTxnEffectsDebug, validateDebug_eq hce.issued]
    rcases @LedgerState.applyTransaction_cases _ C L e with ⟨f, hf, he⟩ | ⟨hv, he⟩
    · rw [he, hf]
      cases f with
      | panic => simp
      | err x =>
        simp only [Option.some.injEq, Prod.mk.injEq, iff_self_and, and_imp]
        rintro rfl - _ _ ⟨⟩
    · rw [he, validate_eq_ok.2 hv, applyEffectsDebug_eq hs hv]
      by_cases hmax : (e.newIssuanceNums.entries.all fun a =>
          a.2.getLast?.all (·.toNat + 1 < UInt64.size)) = true
      · rw [if_pos hmax]
        have hb := updateUtxoMapDebug_newUtxoSids [] L.status.nextTxo e.txos L.utxoMap
        simp only [List.nil_append, List.length_nil] at hb
        have hmx : (applyEffects L.status e (newUtxoSids L.status.nextTxo e.txos)).nextTxo -
            L.status.nextTxo = e.txos.length := Nat.add_sub_cancel_left _ _
        simp only [Option.map_some', hmx, hb]
        by_cases hlast : e.txos.getLast? = some none
        · simp only [hlast, if_true]
          exact ⟨nofun, fun ⟨h, hd⟩ => by cases h; exact absurd hlast (hd e _ rfl).2⟩
        · -- the bitmap loop matches every SID
          have hix := (updateUtxoMap_range [] (newUtxoSids L.status.nextTxo e.txos) L.status.nextTxo
            e.txos.length L.utxoMap (newUtxoSids_pairwise _ _) fun s hs => by
              obtain ⟨ix, o, rfl, h⟩ := mem_newUtxoSids.1 hs
              have := (List.getElem?_eq_some_iff.1 h).1
              omega).1
          simp only [List.nil_append, List.length_nil, Nat.zero_add] at hix
          simp only [hlast, if_false, hix, ne_eq, not_true_eq_false]
          constructor
          · intro h
            cases h
            exact ⟨rfl, fun e' L'' h' => by cases h'; exact ⟨(noMaxSeqNum_iff hce).1 hmax, hlast⟩⟩
          · exact fun h => h.1
      · rw [if_neg hmax]
        exact ⟨nofun, fun ⟨h, hd⟩ => by
          cases h; exact absurd ((noMaxSeqNum_iff hce).2 (hd e _ rfl).1) hmax⟩
  | checkpoint | snapshot =>
    simp only [LedgerState.execDebug, LedgerState.exec, iff_self_and]
    rintro ⟨⟩ _ _ ⟨⟩

/-- Along a run from a state whose utxos are below `next_txo`. -/
theorem runDebug_eq_some_of {cs : List (Cmd P)} (hc : ∀ e, .applyTransaction e ∈ cs → e.Computed V) :
    ∀ {L L' : LedgerState P} {os : List (Obs P)}, SidsBelow L.status →
      (runDebug C L cs = some (L', os) ↔
        run C L cs = some (L', os) ∧ ∀ e L'', .accepted e L'' ∈ os → DebugAccepts e) := by
  induction cs with
  | nil =>
    intro L L' os _
    simp only [runDebug, run, Option.some.injEq, Prod.mk.injEq, iff_self_and, and_imp]
    rintro - rfl _ _ ⟨⟩
  | cons c cs ih =>
    intro L L' os hs
    have hc₁ : ∀ e, c = .applyTransaction e → e.Computed V := fun e h => hc e (by subst h; exact .head _)
    have hc' : ∀ e, .applyTransaction e ∈ cs → e.Computed V := fun e he => hc e (.tail _ he)
    rw [runDebug_cons_eq_some, run_cons_eq_some]
    constructor
    · rintro ⟨o, L₁, os₁, hx, hr, rfl⟩
      obtain ⟨hx', hd⟩ := (execDebug_eq_some hs hc₁).1 hx
      obtain ⟨hr', hd'⟩ := (ih hc' (sidsBelow_exec hs hx')).1 hr
      refine ⟨⟨o, L₁, os₁, hx', hr', rfl⟩, fun e L'' h => ?_⟩
      rcases List.mem_cons.1 h with h | h
      · exact hd e L'' h.symm
      · exact hd' e L'' h
    · rintro ⟨⟨o, L₁, os₁, hx, hr, rfl⟩, hd⟩
      have hx' := (execDebug_eq_some hs hc₁).2 ⟨hx, fun e L'' h => hd e L'' (h ▸ .head _)⟩
      have hr' := (ih hc' (sidsBelow_exec hs hx)).2 ⟨hr, fun e L'' h => hd e L'' (.tail _ h)⟩
      exact ⟨o, L₁, os₁, hx', hr', rfl⟩

/-- **The debug build.**  From `LedgerState::new`, for any calls of the
    block-driven caller on effects of `compute_effect`, a debug build ends in
    a state, having seen what it saw, iff a release build does and no
    transaction it accepted issues `u64::MAX` or consumes its own last output
    slot.  At the first such transaction the debug build panics, after stage
    2 has begun changing the status: at the checked `x + 1` of a watermark,
    or at `debug_assert!(utxo_ix < utxo_sids.len())` in the bitmap loop.
    Every other assertion of `apply_txn_effects` and `apply_transaction`
    holds. -/
theorem runDebug_eq_some_iff (C : Crypto P) {cs : List (Cmd P)}
    (hc : ∀ e, .applyTransaction e ∈ cs → e.Computed V) {L : LedgerState P} {os : List (Obs P)} :
    runDebug C (LedgerState.new P) cs = some (L, os) ↔
      run C (LedgerState.new P) cs = some (L, os) ∧ ∀ e L', .accepted e L' ∈ os → DebugAccepts e :=
  runDebug_eq_some_of hc fun _ _ h => by cases h

end

theorem runDebug_issueThenBurn :
    ∃ d e L os, computeEffect keyVerifier (defineTx 1 1) = .ok d ∧
      computeEffect keyVerifier issueThenBurn = .ok e ∧
      run natCrypto (LedgerState.new natPrims) [.applyTransaction d, .applyTransaction e] =
        some (L, os) ∧
      (runDebug natCrypto (LedgerState.new natPrims) [.applyTransaction d, .applyTransaction e] =
          some (L, os) ↔
        run natCrypto (LedgerState.new natPrims) [.applyTransaction d, .applyTransaction e] =
          some (L, os) ∧ ∀ e' L', .accepted e' L' ∈ os → DebugAccepts e') := by
  refine ⟨?d, ?e, ?L, ?os, ?hd, ?he, ?h, @runDebug_eq_some_iff _ keyVerifier natCrypto _ ?hc _ _⟩
  case hd => exact rfl
  case he => exact rfl
  case h => exact rfl
  case hc =>
    intro e' h'
    simp only [List.mem_cons, Cmd.applyTransaction.injEq, List.mem_singleton, List.not_mem_nil,
      or_false] at h'
    rcases h' with rfl | rfl
    · exact @computed_of_computeEffect _ keyVerifier (defineTx 1 1) _ rfl
    · exact @computed_of_computeEffect _ keyVerifier issueThenBurn _ rfl

end LedgerStore
