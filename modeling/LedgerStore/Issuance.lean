/-
  Issuances: what `compute_effect` records of the `IssueAsset` operations
  of a transaction, and what `apply_txn_effects` does with it.

  * `issuedNums`, `IssueInv`, `computeEffect_issuance`: for each code,
    `compute_effect` records exactly the sequence numbers of its issuances,
    in order and strictly increasing, and has checked each issuance's
    signature under the key the issuance itself carries;
  * `applyTxnEffects_panic`: `apply_txn_effects` panics only where it unwraps
    the watermark of a code with issuance numbers;
  * `WatermarkInv`, `applyRun_issuance`: as long as no sequence number is
    `u64::MAX`, the numbers of each code's accepted issuances strictly
    increase along a run and stay below its watermark.
-/
import LedgerStore.StatusRun
import LedgerStore.Slots
import Mathlib.Data.List.Chain

namespace LedgerStore

variable {P : Prims} {V : Verifier P}

/-- The sequence number of an issuance of `c`. -/
def Operation.issuedNum (c : P.Code) : Operation P → Option UInt64
  | .issueAsset iss => if iss.body.code = c then some iss.body.seqNum else none
  | _ => none

/-- The sequence numbers of the issuances of `c` among `ops`, in order. -/
def issuedNums (ops : List (Operation P)) (c : P.Code) : List UInt64 :=
  ops.filterMap (Operation.issuedNum c)

@[simp] theorem issuedNums_nil (c : P.Code) : issuedNums ([] : List (Operation P)) c = [] := rfl

@[simp] theorem issuedNums_append (ops ops' : List (Operation P)) (c : P.Code) :
    issuedNums (ops ++ ops') c = issuedNums ops c ++ issuedNums ops' c :=
  List.filterMap_append ..

theorem issuanceNumsOf_insert {m : HashMap P.Code (List UInt64)} {code c : P.Code}
    {v : List UInt64} :
    issuanceNumsOf (m.insert code v) c = if c = code then v else issuanceNumsOf m c := by
  by_cases h : c = code
  · subst h; simp [issuanceNumsOf, AList.lookup_insert]
  · simp [issuanceNumsOf, AList.lookup_insert_ne (Ne.symm h), h]

/-- The numbers of `code` after an issuance: those before, then `v`. -/
theorem issuanceNumsOf_ensure_replace {m : HashMap P.Code (List UInt64)} {code c : P.Code}
    {v : List UInt64} :
    issuanceNumsOf ((if code ∈ m then m else m.insert code []).replace code v) c =
      if c = code then v else issuanceNumsOf m c := by
  have hmem : code ∈ (if code ∈ m then m else m.insert code []) := by
    split_ifs with h
    · exact h
    · exact (AList.mem_insert _).2 (.inl rfl)
  by_cases h : c = code
  · simp [issuanceNumsOf, lookup_replace, h, hmem]
  · have : issuanceNumsOf (if code ∈ m then m else m.insert code []) c = issuanceNumsOf m c := by
      split_ifs
      · rfl
      · simp [issuanceNumsOf_insert, h]
    simpa [issuanceNumsOf, lookup_replace, h] using this

/-- What the loop of `compute_effect` has recorded in `new_issuance_nums` of
    the issuances among the operations `done`. -/
structure IssueInv (V : Verifier P) (m : HashMap P.Code (List UInt64))
    (done : List (Operation P)) : Prop where
  /-- The numbers recorded for a code are those of its issuances. -/
  nums : ∀ c, issuanceNumsOf m c = issuedNums done c
  /-- They strictly increase. -/
  sorted : ∀ c, (issuedNums done c).Chain' (· < ·)
  /-- Every issuance is signed under its own key. -/
  signed : ∀ iss, .issueAsset iss ∈ done → V.verifyIssue iss.pubkey iss.body iss.signature = true

theorem issueInv_init : IssueInv V (EffectState.init : EffectState P).newIssuanceNums [] where
  nums _ := rfl
  sorted _ := List.chain'_nil
  signed _ h := absurd h (List.not_mem_nil _)

theorem IssueInv.step {st st' : EffectState P} {done : List (Operation P)} {op : Operation P}
    (hI : IssueInv V st.newIssuanceNums done) (h : effectStep V st op = .ok st') :
    IssueInv V st'.newIssuanceNums (done ++ [op]) := by
  obtain ⟨-, h⟩ := effectStep_eq_ok.1 h
  cases op with
  | defineAsset d =>
    obtain ⟨-, -, hfresh, rfl⟩ := defineAssetStep_eq_ok.1 h
    have hop : ∀ c, issuedNums (done ++ [.defineAsset d]) c = issuedNums done c := fun c => by
      rw [issuedNums_append]; exact List.append_nil _
    refine ⟨fun c => ?_, fun c => hop c ▸ hI.sorted c,
      fun iss hiss => hI.signed iss (by simpa using hiss)⟩
    rw [issuanceNumsOf_insert, hop, ← hI.nums]
    split_ifs with hc
    · subst hc
      rw [issuanceNumsOf, AList.lookup_eq_none.2 hfresh]; rfl
    · rfl
  | issueAsset iss =>
    obtain ⟨-, hlast, hsig, rfl⟩ := issueAssetStep_eq_ok.1 h
    refine ⟨fun c => ?_, fun c => ?_, fun iss' hiss => ?_⟩
    · rw [issuanceNumsOf_ensure_replace, issuedNums_append]
      split_ifs with hc
      · simp [hc, hI.nums, issuedNums, Operation.issuedNum]
      · simp [hI.nums, issuedNums, Operation.issuedNum, Ne.symm hc]
    · rw [issuedNums_append]
      by_cases hc : iss.body.code = c
      · subst hc
        rw [← hI.nums]
        have hop : issuedNums [.issueAsset iss] iss.body.code = [iss.body.seqNum] := by
          simp [issuedNums, Operation.issuedNum]
        rw [hop, List.chain'_append]
        exact ⟨hI.nums _ ▸ hI.sorted _, List.chain'_singleton _, fun x hx y hy => by
          rw [List.head?_cons, Option.mem_some_iff] at hy
          exact hy ▸ hlast x hx⟩
      · simpa [issuedNums, Operation.issuedNum, hc] using hI.sorted c
    · rcases List.mem_append.1 hiss with hiss | hiss
      · exact hI.signed iss' hiss
      · obtain rfl : iss' = iss := by simpa using hiss
        exact hsig
  | transferAsset trn =>
    obtain ⟨-, hnums⟩ := transferAssetStep_frame h
    refine ⟨fun c => ?_, fun c => by simpa [issuedNums, Operation.issuedNum] using hI.sorted c,
      fun iss hiss => hI.signed iss (by simpa using hiss)⟩
    simpa [hnums, issuedNums, Operation.issuedNum] using hI.nums c

theorem computeEffect_issueInv {txn : Transaction P} {e : TxnEffect P}
    (h : computeEffect V txn = .ok e) : e.txn = txn ∧ IssueInv V e.newIssuanceNums txn.operations := by
  obtain ⟨st, hst, rfl⟩ := computeEffect_eq_ok.1 h
  refine ⟨rfl, ?_⟩
  simpa using foldlM_except_induction (fun (st : EffectState P) done =>
    IssueInv V st.newIssuanceNums done) (fun _ _ _ _ hI h => hI.step h) [] issueInv_init hst

/-- **What `compute_effect` records of the issuances.**  For each code, the
    effect's issuance numbers are the sequence numbers of the transaction's
    `IssueAsset`s of that code, in order, and they strictly increase; each
    issuance's signature was checked, under the key the issuance carries. -/
theorem computeEffect_issuance {txn : Transaction P} {e : TxnEffect P}
    (h : computeEffect V txn = .ok e) :
    (∀ c, issuanceNumsOf e.newIssuanceNums c = issuedNums txn.operations c) ∧
    (∀ c, (issuedNums txn.operations c).Chain' (· < ·)) ∧
    ∀ iss, .issueAsset iss ∈ txn.operations →
      V.verifyIssue iss.pubkey iss.body iss.signature = true := by
  obtain ⟨-, hI⟩ := computeEffect_issueInv h
  exact ⟨hI.nums, hI.sorted, hI.signed⟩

theorem computeEffect_issuance_defineThenIssue :
    ∃ e, computeEffect keyVerifier defineThenIssue = .ok e ∧
      issuanceNumsOf e.newIssuanceNums 1 = issuedNums defineThenIssue.operations 1 := by
  refine ⟨?e, ?h, (computeEffect_issuance ?h).1 1⟩
  case h => exact rfl

/-- Nothing ties the issuing key to the registered issuer: code `1`, defined
    with issuer `1`, is issued under key `2`. -/
theorem issuance_by_other_key :
    ∃ e₁ e₂ s, computeEffect keyVerifier (defineTx 1 1) = .ok e₁ ∧
      computeEffect keyVerifier (issueTx 1 0 2) = .ok e₂ ∧
      applyRun (LedgerStatus.new natPrims) [e₁, e₂] = some (s, [e₁, e₂]) ∧
      s.assetTypes 1 = some ⟨⟨1, 1⟩⟩ :=
  ⟨_, _, _, rfl, rfl, rfl, rfl⟩

/-- **`apply_txn_effects` panics only at the watermark unwrap**: when the
    effect has issuance numbers for a code that has no watermark. -/
theorem applyTxnEffects_panic {s : LedgerStatus P} {e : TxnEffect P}
    (h : (applyTxnEffects s e).1 = .error .panic) :
    ∃ a ∈ e.newIssuanceNums.entries, a.2 ≠ [] ∧ s.issuanceNum a.1 = none := by
  rcases applyTxnEffects_cases s e with ⟨f, hf, he⟩ | ⟨-, he⟩ <;> rw [he] at h
  · cases h
    exact validate_eq_panic hf
  · cases h

theorem applyTxnEffects_panic_issueTx :
    ∃ e, computeEffect keyVerifier (issueTx 1 0 1) = .ok e ∧
      ∃ a ∈ e.newIssuanceNums.entries, a.2 ≠ [] ∧
        (LedgerStatus.new natPrims).issuanceNum a.1 = none := by
  refine ⟨?e, ?h, applyTxnEffects_panic ?hp⟩
  case h => exact rfl
  case hp => exact rfl

/-- A definition and an issuance of its code in one transaction panic at
    `issuance_num.get(code).unwrap()`: the watermark is only written in
    stage 2; so does an issuance of a code that was never defined. -/
theorem applyTxnEffects_panics_on_computed :
    (∃ e, computeEffect keyVerifier defineThenIssue = .ok e ∧
      (applyTxnEffects (LedgerStatus.new natPrims) e).1 = .error .panic) ∧
    (∃ e, computeEffect keyVerifier (issueTx 1 0 1) = .ok e ∧
      (applyTxnEffects (LedgerStatus.new natPrims) e).1 = .error .panic) :=
  ⟨⟨_, rfl, rfl⟩, ⟨_, rfl, rfl⟩⟩

/-! ## Watermarks along a run -/

instance isTrans_uint64_lt : IsTrans UInt64 (· < ·) := ⟨fun _ _ _ => UInt64.lt_trans⟩

theorem uint64_lt_iff {a b : UInt64} : a < b ↔ a.toNat < b.toNat := Iff.rfl

/-- `x + 1` on `u64` does not wrap below `u64::MAX`. -/
theorem toNat_add_one {a : UInt64} (h : a.toNat + 1 < UInt64.size) :
    (a + 1).toNat = a.toNat + 1 := by
  show (a.toBitVec + 1).toNat = _
  rw [BitVec.toNat_add]
  exact Nat.mod_eq_of_lt h

theorem toNat_le_of_getLast? {l : List UInt64} {x y : UInt64} (hs : l.Pairwise (· < ·))
    (hx : x ∈ l) (hy : y ∈ l.getLast?) : x.toNat ≤ y.toNat := by
  rw [← List.dropLast_append_getLast? y hy] at hs hx
  rcases List.mem_append.1 hx with hx | hx
  · exact Nat.le_of_lt ((List.pairwise_append.1 hs).2.2 x hx y (List.mem_singleton_self y))
  · rw [List.mem_singleton.1 hx]

/-- The arithmetic of the watermark: numbers below `lim`, then a strictly
    increasing list from `m ≥ lim` to `last`, strictly increase, and all lie
    below `last + 1` when that does not wrap. -/
theorem pairwise_append_below_succ {old l : List UInt64} {m lim last : UInt64}
    (hold : old.Pairwise (· < ·)) (hbelow : ∀ x ∈ old, x < lim) (hl : l.Pairwise (· < ·))
    (hm : m ∈ l.head?) (hle : lim ≤ m) (hlast : last ∈ l.getLast?)
    (hwrap : last.toNat + 1 < UInt64.size) :
    (old ++ l).Pairwise (· < ·) ∧ ∀ n ∈ old ++ l, n < last + 1 := by
  obtain ⟨ms, rfl⟩ := List.head?_eq_some_iff.1 hm
  have hin : ∀ y ∈ m :: ms, lim.toNat ≤ y.toNat ∧ y.toNat ≤ last.toNat := fun y hy => by
    refine ⟨Nat.le_trans hle ?_, toNat_le_of_getLast? hl hy hlast⟩
    rcases List.mem_cons.1 hy with rfl | hy
    · exact le_rfl
    · exact Nat.le_of_lt ((List.pairwise_cons.1 hl).1 y hy)
  have hm := hin m (List.mem_cons_self _ _)
  refine ⟨List.pairwise_append.2 ⟨hold, hl, fun x hx y hy => ?_⟩, fun n hn => ?_⟩
  · have := hbelow x hx
    have := hin y hy
    rw [uint64_lt_iff] at *
    omega
  · rw [uint64_lt_iff, toNat_add_one hwrap]
    rcases List.mem_append.1 hn with hn | hn
    · have := hbelow n hn
      rw [uint64_lt_iff] at this
      omega
    · have := (hin n hn).2
      omega

theorem TxnEffect.Computed.issueInv {e : TxnEffect P} (h : e.Computed V) :
    IssueInv V e.newIssuanceNums e.txn.operations := by
  obtain ⟨e₀, he₀, -, -, -, hperm⟩ := h
  obtain ⟨-, hI⟩ := computeEffect_issueInv he₀
  exact ⟨fun c => by rw [issuanceNumsOf, AList.perm_lookup hperm]; exact hI.nums c,
    hI.sorted, hI.signed⟩

/-- The watermark of `c` after stage 2: if the effect has an entry for `c`,
    one past its last number, or `0`. -/
theorem issuanceNum_applyEffects {s : LedgerStatus P} {e : TxnEffect P} {sids : List Nat}
    {c : P.Code} : (applyEffects s e sids).issuanceNum c = if c ∈ e.newIssuanceNums then
      some (((issuanceNumsOf e.newIssuanceNums c).getLast?.map (· + 1)).getD 0)
      else s.issuanceNum c := by
  simp only [applyEffects]
  split_ifs with hc
  · obtain ⟨v, hv⟩ := Option.isSome_iff_exists.1 (AList.lookup_isSome.2 hc)
    rw [issuanceNumsOf, hv]
    exact updateEach_of_mem e.newIssuanceNums.keys_nodup (AList.mem_lookup_iff.1 hv)
  · exact updateEach_of_forall_ne fun a ha he => hc (mem_hashMap_iff.2 ⟨a, ha, he⟩)

/-- The sequence numbers of the issuances of `c` in the accepted effects
    `acc`, in order. -/
def acceptedNums (acc : List (TxnEffect P)) (c : P.Code) : List UInt64 :=
  acc.flatMap fun e => issuedNums e.txn.operations c

@[simp] theorem acceptedNums_append_singleton (acc : List (TxnEffect P)) (e : TxnEffect P)
    (c : P.Code) :
    acceptedNums (acc ++ [e]) c = acceptedNums acc c ++ issuedNums e.txn.operations c := by
  simp [acceptedNums]

/-- No issuance of `e` has the number `u64::MAX`, the one whose successor
    wraps. -/
def NoMaxSeqNum (e : TxnEffect P) : Prop :=
  ∀ iss, .issueAsset iss ∈ e.txn.operations → iss.body.seqNum.toNat + 1 < UInt64.size

theorem NoMaxSeqNum.of_mem {e : TxnEffect P} {c : P.Code} {n : UInt64} (h : NoMaxSeqNum e)
    (hn : n ∈ issuedNums e.txn.operations c) : n.toNat + 1 < UInt64.size := by
  obtain ⟨op, hop, hn⟩ := List.mem_filterMap.1 hn
  cases op with
  | issueAsset iss =>
    obtain ⟨-, rfl⟩ : iss.body.code = c ∧ iss.body.seqNum = n := by
      simpa [Operation.issuedNum] using hn
    exact h iss hop
  | defineAsset _ => cases hn
  | transferAsset _ => cases hn

/-- The watermarks after the accepted effects `acc`. -/
structure WatermarkInv (s : LedgerStatus P) (acc : List (TxnEffect P)) : Prop where
  /-- The numbers of a code's accepted issuances strictly increase. -/
  sorted : ∀ c, (acceptedNums acc c).Pairwise (· < ·)
  /-- Each is below the code's watermark. -/
  below : ∀ c, ∀ n ∈ acceptedNums acc c, ∃ lim, s.issuanceNum c = some lim ∧ n < lim

theorem watermarkInv_new : WatermarkInv (LedgerStatus.new P) [] :=
  ⟨fun _ => List.Pairwise.nil, fun _ _ h => absurd h (List.not_mem_nil _)⟩

theorem WatermarkInv.step {s : LedgerStatus P} {acc : List (TxnEffect P)} {e : TxnEffect P}
    (hI : WatermarkInv s acc) (hc : e.Computed V) (hmax : NoMaxSeqNum e) (hv : Valid s e) :
    WatermarkInv (applyEffects s e (newUtxoSids s.nextTxo e.txos)) (acc ++ [e]) := by
  have hE := hc.issueInv
  suffices h : ∀ c, (acceptedNums acc c ++ issuedNums e.txn.operations c).Pairwise (· < ·) ∧
      ∀ n ∈ acceptedNums acc c ++ issuedNums e.txn.operations c, ∃ lim,
        (applyEffects s e (newUtxoSids s.nextTxo e.txos)).issuanceNum c = some lim ∧ n < lim from
    ⟨fun c => by simpa using (h c).1, fun c => by simpa using (h c).2⟩
  intro c
  rw [issuanceNum_applyEffects, hE.nums c]
  by_cases hc : c ∈ e.newIssuanceNums
  swap
  · -- no entry for `c`: no issuance of it, and its watermark is kept
    have hnil : issuedNums e.txn.operations c = [] := by
      rw [← hE.nums, issuanceNumsOf, AList.lookup_eq_none.2 hc]; rfl
    simpa [hc, hnil] using ⟨hI.sorted c, hI.below c⟩
  obtain ⟨v, hlook⟩ := Option.isSome_iff_exists.1 (AList.lookup_isSome.2 hc)
  obtain ⟨hempty, hhead⟩ := hv.issuance _ (AList.mem_lookup_iff.1 hlook)
  have hv' : v = issuedNums e.txn.operations c := by rw [← hE.nums, issuanceNumsOf, hlook]; rfl
  simp only [hc, if_true]
  rw [hv'] at hempty hhead
  have hsorted := hE.sorted c
  rcases hnums : issuedNums e.txn.operations c with _ | ⟨m, ms⟩
  · -- a code defined here with no issuance: it had no watermark, so no issuance
    have hnone : s.issuanceNum c = none := by
      obtain ⟨a, ha, rfl⟩ := mem_hashMap_iff.1 (hempty hnums)
      exact (hv.newAssets a ha).2
    have hold : acceptedNums acc c = [] := List.eq_nil_iff_forall_not_mem.2 fun n hn => by
      simpa [hnone] using hI.below c n hn
    simp [hold]
  · rw [hnums] at hhead hsorted
    obtain ⟨lim, hlim, hle⟩ := hhead m rfl
    obtain ⟨last, hlast⟩ : ∃ last, (m :: ms).getLast? = some last :=
      ⟨_, List.getLast?_eq_getLast _ (List.cons_ne_nil _ _)⟩
    have hold : ∀ x ∈ acceptedNums acc c, x < lim := fun x hx => by
      simpa [hlim] using hI.below c x hx
    obtain ⟨hs, hlt⟩ := pairwise_append_below_succ (hI.sorted c) hold
      (List.chain'_iff_pairwise.1 hsorted) rfl hle hlast
      (hmax.of_mem (hnums ▸ List.mem_of_getLast?_eq_some hlast))
    simp only [hlast, Option.map_some', Option.getD_some]
    exact ⟨hs, fun n hn => ⟨_, rfl, hlt n hn⟩⟩

/-- **Issuance numbers strictly increase, as long as none is `u64::MAX`.**
    Along any run of effects of `compute_effect` from `LedgerStatus::new` in
    which no issuance has the number `u64::MAX`, the numbers of each code's
    accepted issuances, in order of application, strictly increase, so none
    is accepted twice; and each is below the code's watermark. -/
theorem applyRun_issuance {es : List (TxnEffect P)} {s : LedgerStatus P}
    {acc : List (TxnEffect P)} (hc : ∀ e ∈ es, e.Computed V) (hmax : ∀ e ∈ es, NoMaxSeqNum e)
    (h : applyRun (LedgerStatus.new P) es = some (s, acc)) :
    ∀ c, (acceptedNums acc c).Pairwise (· < ·) ∧ (acceptedNums acc c).Nodup ∧
      ∀ n ∈ acceptedNums acc c, ∃ lim, s.issuanceNum c = some lim ∧ n < lim := by
  have hI : WatermarkInv s acc := by
    simpa using applyRun_induction (fun e => e.Computed V ∧ NoMaxSeqNum e) WatermarkInv
      (fun _ _ _ hI hq hv => hI.step hq.1 hq.2 hv) (fun e he => ⟨hc e he, hmax e he⟩)
      watermarkInv_new h
  exact fun c => ⟨hI.sorted c, (hI.sorted c).imp UInt64.ne_of_lt, hI.below c⟩

theorem applyRun_issuance_defineThenIssue :
    ∃ e₁ e₂ s acc, computeEffect keyVerifier (defineTx 1 1) = .ok e₁ ∧
      computeEffect keyVerifier (issueTx 1 5 1) = .ok e₂ ∧
      applyRun (LedgerStatus.new natPrims) [e₁, e₂] = some (s, acc) ∧
      (acceptedNums acc 1).Pairwise (· < ·) := by
  refine ⟨?e₁, ?e₂, ?s, ?acc, ?h₁, ?h₂, ?h, (applyRun_issuance
    (List.forall_mem_cons.2 ⟨computed_of_computeEffect _ ?h₁,
      List.forall_mem_singleton.2 (computed_of_computeEffect _ ?h₂)⟩) ?hmax ?h 1).1⟩
  case h₁ => exact rfl
  case h₂ => exact rfl
  case h => exact rfl
  case hmax =>
    intro e he iss hiss
    rcases List.mem_pair.1 he with rfl | rfl
    · simp [defineTx] at hiss
    · obtain rfl : iss = ⟨⟨1, 5, 1, [⟨7⟩]⟩, 1, 1⟩ := by simpa [issueTx] using hiss
      decide

/-- The watermark `last + 1` wraps at `u64::MAX`: after an issuance with that
    number, number `5` of the same code is accepted a second time. -/
theorem issuance_replayed_after_wrap :
    ∃ e₁ e₂ e₃ s, computeEffect keyVerifier (defineTx 1 1) = .ok e₁ ∧
      computeEffect keyVerifier (issueTx 1 5 1) = .ok e₂ ∧
      computeEffect keyVerifier (issueTx 1 18446744073709551615 1) = .ok e₃ ∧
      applyRun (LedgerStatus.new natPrims) [e₁, e₂, e₃, e₂] = some (s, [e₁, e₂, e₃, e₂]) ∧
      s.issuanceNum 1 = some 6 :=
  ⟨_, _, _, _, rfl, rfl, rfl, rfl, rfl⟩

/-! ## The codes of a transaction -/

section
variable {st st' : EffectState P} {done : List (Operation P)}

/-- What a turn does to the codes with an issuance entry: a definition or an
    issuance adds its code. -/
theorem mem_newIssuanceNums_step {op : Operation P} (h : effectStep V st op = .ok st')
    (c : P.Code) : c ∈ st'.newIssuanceNums ↔
      c ∈ st.newIssuanceNums ∨ op.definedCode = some c ∨ (op.issuedNum c).isSome := by
  obtain ⟨-, h⟩ := effectStep_eq_ok.1 h
  cases op with
  | defineAsset d =>
    obtain ⟨-, -, -, rfl⟩ := defineAssetStep_eq_ok.1 h
    by_cases hc : c = d.body.asset.code <;>
      simp [AList.mem_insert, Operation.definedCode, Operation.issuedNum, hc, Ne.symm]
  | issueAsset iss =>
    obtain ⟨-, -, -, rfl⟩ := issueAssetStep_eq_ok.1 h
    rw [mem_ensure_replace]
    by_cases hc : c = iss.body.code <;>
      simp [Operation.definedCode, Operation.issuedNum, hc, Ne.symm]
  | transferAsset trn =>
    simp [(transferAssetStep_frame h).2, Operation.definedCode, Operation.issuedNum]

/-- A definition is accepted only for a code with no issuance entry yet. -/
theorem not_mem_of_defineStep {d : DefineAsset P} (h : effectStep V st (.defineAsset d) = .ok st') :
    d.body.asset.code ∉ st.newIssuanceNums :=
  (defineAssetStep_eq_ok.1 (effectStep_eq_ok.1 h).2).2.2.1

/-- What the loop has recorded of the codes after the operations `done`. -/
structure CodeInv (st : EffectState P) (done : List (Operation P)) : Prop where
  /-- A code has an issuance entry iff it was defined or issued. -/
  keys : ∀ c, c ∈ st.newIssuanceNums ↔
    ∃ op ∈ done, op.definedCode = some c ∨ (op.issuedNum c).isSome
  /-- A definition comes before every issuance of its code. -/
  precedes : ∀ (i j : Nat) (d : DefineAsset P) (iss : IssueAsset P), done[i]? = some (.defineAsset d) →
    done[j]? = some (.issueAsset iss) → iss.body.code = d.body.asset.code → i < j
  /-- No code is defined twice. -/
  once : ∀ (i j : Nat) (d d' : DefineAsset P), done[i]? = some (.defineAsset d) →
    done[j]? = some (.defineAsset d') → d.body.asset.code = d'.body.asset.code → i = j

theorem codeInv_init : CodeInv (EffectState.init : EffectState P) [] where
  keys c := by simp [EffectState.init, AList.not_mem_empty]
  precedes := by simp
  once := by simp

theorem CodeInv.step {op : Operation P} (hI : CodeInv st done) (h : effectStep V st op = .ok st') :
    CodeInv st' (done ++ [op]) := by
  -- an earlier operation on the code of a new definition would have given it an entry
  have hold : ∀ {i} {d : DefineAsset P} {o : Operation P}, op = .defineAsset d → done[i]? = some o →
      o.definedCode = some d.body.asset.code ∨ (o.issuedNum d.body.asset.code).isSome → False :=
    fun hop hi ho => not_mem_of_defineStep (hop ▸ h)
      ((hI.keys _).2 ⟨_, List.getElem?_mem hi, ho⟩)
  refine ⟨fun c => ?_, fun i j d iss hi hj hc => ?_, fun i j d d' hi hj hc => ?_⟩
  · rw [mem_newIssuanceNums_step h, hI.keys]
    simp [or_and_right, exists_or]
  · rcases getElem?_append_singleton.1 hi with hi | ⟨rfl, rfl⟩ <;>
      rcases getElem?_append_singleton.1 hj with hj | ⟨rfl, hop⟩
    · exact hI.precedes i j d iss hi hj hc
    · exact (List.getElem?_eq_some_iff.1 hi).1
    · exact (hold rfl hj (.inr (by simp [Operation.issuedNum, hc]))).elim
    · cases hop
  · rcases getElem?_append_singleton.1 hi with hi | ⟨rfl, rfl⟩ <;>
      rcases getElem?_append_singleton.1 hj with hj | ⟨rfl, hop⟩
    · exact hI.once i j d d' hi hj hc
    · exact (hold hop.symm hi (.inl (by simp [Operation.definedCode, hc]))).elim
    · exact (hold rfl hj (.inl (by simp [Operation.definedCode, hc]))).elim
    · rfl

end

/-- The first of a strictly increasing list is its least element, the last
    its greatest. -/
theorem head_le_le_getLast {v : List UInt64} (hv : v.Pairwise (· < ·)) {x : UInt64} (hx : x ∈ v) :
    (∀ m ∈ v.head?, m ≤ x) ∧ ∀ l ∈ v.getLast?, x ≤ l := by
  refine ⟨fun m hm => ?_, fun l hl => toNat_le_of_getLast? hv hx hl⟩
  obtain ⟨ms, rfl⟩ := List.head?_eq_some_iff.1 hm
  rcases List.mem_cons.1 hx with rfl | hx
  · exact Nat.le_refl _
  · exact Nat.le_of_lt ((List.pairwise_cons.1 hv).1 x hx)

/-- **What `compute_effect` records of the asset codes.**  If it returns
    `Ok(e)`, then for every code `c`: `new_issuance_nums` has an entry for
    `c` iff the transaction defines or issues `c`; that entry is the list of
    sequence numbers of the issuances of `c`, in operation order, strictly
    increasing, so its first element is its least and its last its
    greatest; `new_asset_codes` has an entry for `c` iff the transaction
    defines `c`, which it does at most once and before every issuance of
    `c`; so an empty list of numbers belongs to a code defined here.
    Conversely, `compute_effect` returns `Err` when two issuances of a code
    are out of order, or a definition of a code follows another definition or
    an issuance of it. -/
theorem computeEffect_assetCodes (txn : Transaction P) :
    (∀ e, computeEffect V txn = .ok e → ∀ c,
      (c ∈ e.newIssuanceNums ↔ ∃ op ∈ txn.operations,
        op.definedCode = some c ∨ (op.issuedNum c).isSome) ∧
      (∀ v, e.newIssuanceNums.lookup c = some v → v = issuedNums txn.operations c ∧
        v.Pairwise (· < ·) ∧ ∀ x ∈ v, (∀ m ∈ v.head?, m ≤ x) ∧ ∀ l ∈ v.getLast?, x ≤ l) ∧
      (c ∈ e.newAssetCodes ↔ c ∈ txn.operations.filterMap Operation.definedCode) ∧
      (txn.operations.filterMap Operation.definedCode).count c ≤ 1 ∧
      (∀ (i j : Nat) (d : DefineAsset P) (iss : IssueAsset P),
        txn.operations[i]? = some (.defineAsset d) →
        txn.operations[j]? = some (.issueAsset iss) → d.body.asset.code = c →
        iss.body.code = c → i < j) ∧
      (e.newIssuanceNums.lookup c = some [] → c ∈ e.newAssetCodes)) ∧
    ((∃ c, ¬ (issuedNums txn.operations c).Pairwise (· < ·)) ∨
      (∃ (i j : Nat) (d d' : DefineAsset P), i < j ∧ txn.operations[i]? = some (.defineAsset d) ∧
        txn.operations[j]? = some (.defineAsset d') ∧ d.body.asset.code = d'.body.asset.code) ∨
      (∃ (i j : Nat) (iss : IssueAsset P) (d : DefineAsset P), i < j ∧
        txn.operations[i]? = some (.issueAsset iss) ∧ txn.operations[j]? = some (.defineAsset d) ∧
        iss.body.code = d.body.asset.code) →
      ∃ err, computeEffect V txn = .error (.err err)) := by
  -- the three loop invariants, at the end of the loop
  have hinv : ∀ e, computeEffect V txn = .ok e → IssueInv V e.newIssuanceNums txn.operations ∧
      ∃ st : EffectState P, DefineInv st txn.operations ∧ CodeInv st txn.operations ∧
        st.newAssetCodes = e.newAssetCodes ∧ st.newIssuanceNums = e.newIssuanceNums := by
    intro e h
    refine ⟨(computeEffect_issueInv h).2, ?_⟩
    obtain ⟨st, hst, rfl⟩ := computeEffect_eq_ok.1 h
    obtain ⟨hD, hC⟩ : DefineInv st txn.operations ∧ CodeInv st txn.operations := by
      simpa using foldlM_except_induction (fun st done => DefineInv st done ∧ CodeInv st done)
        (fun _ _ _ _ hb hs => ⟨hb.1.step hs, hb.2.step hs⟩) [] ⟨defineInv_init, codeInv_init⟩ hst
    exact ⟨st, hD, hC, rfl, rfl⟩
  refine ⟨fun e h c => ?_, fun hbad => computeEffect_err_of_ne_ok fun e h => ?_⟩
  · obtain ⟨hN, st, hD, hC, ha, hn⟩ := hinv e h
    rw [← hn] at hN
    rw [← ha, ← hn]
    have hentry : ∀ v, st.newIssuanceNums.lookup c = some v → v = issuedNums txn.operations c :=
      fun v hv => by rw [← hN.nums c, issuanceNumsOf, hv]; rfl
    have hsorted : (issuedNums txn.operations c).Pairwise (· < ·) :=
      List.chain'_iff_pairwise.1 (hN.sorted c)
    refine ⟨hC.keys c, fun v hv => ?_, hD.defined c, List.nodup_iff_count_le_one.1 hD.nodup c,
      fun i j d iss hi hj hd hiss => hC.precedes i j d iss hi hj (hiss.trans hd.symm),
      fun hv => ?_⟩
    · obtain rfl := hentry v hv
      exact ⟨rfl, hsorted, fun x hx => head_le_le_getLast hsorted hx⟩
    · -- an empty entry: no issuance of `c`, so a definition of it
      obtain ⟨op, hop, hdef | hiss⟩ := (hC.keys c).1 (AList.lookup_isSome.1 (by simp [hv]))
      · exact (hD.defined c).2 (List.mem_filterMap.2 ⟨op, hop, hdef⟩)
      · obtain ⟨n, hn⟩ := Option.isSome_iff_exists.1 hiss
        have : n ∈ issuedNums txn.operations c := List.mem_filterMap.2 ⟨op, hop, hn⟩
        rw [← hentry [] hv] at this
        cases this
  · obtain ⟨hN, st, hD, hC, -, -⟩ := hinv e h
    rcases hbad with ⟨c, hc⟩ | ⟨i, j, d, d', hij, hi, hj, hd⟩ | ⟨i, j, iss, d, hij, hi, hj, hd⟩
    · exact hc (List.chain'_iff_pairwise.1 (hN.sorted c))
    · exact absurd (hC.once i j d d' hi hj hd) hij.ne
    · exact absurd (hC.precedes j i d iss hj hi hd) (Nat.lt_asymm hij)

/-- The definition of code `1` and then an issuance of it: the effect
    registers code `1`, once, and has numbers for it. -/
theorem computeEffect_assetCodes_defineThenIssue :
    ∃ e, computeEffect keyVerifier defineThenIssue = .ok e ∧
      1 ∈ e.newAssetCodes ∧ 1 ∈ e.newIssuanceNums ∧
      (defineThenIssue.operations.filterMap Operation.definedCode).count 1 ≤ 1 := by
  obtain ⟨e, h⟩ : ∃ e, computeEffect keyVerifier defineThenIssue = .ok e := ⟨_, rfl⟩
  obtain ⟨hnums, -, hcodes, hcount, -⟩ := (computeEffect_assetCodes defineThenIssue).1 e h 1
  have hdef : (Operation.defineAsset ⟨⟨⟨1, 1⟩⟩, 1, 1⟩ : Operation natPrims) ∈ defineThenIssue.operations :=
    List.mem_cons_self _ _
  exact ⟨e, h, hcodes.2 (List.mem_filterMap.2 ⟨_, hdef, rfl⟩), hnums.2 ⟨_, hdef, .inl rfl⟩, hcount⟩

end LedgerStore
