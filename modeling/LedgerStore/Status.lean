/-
  The ledger status and `LedgerStatus::apply_txn_effects` (`store.rs`).

  * `LedgerStatus`, `LedgerStatus.new`, and the `LedgerAccess` queries;
  * `validate` (stage 1: inputs unspent with the claimed record, new asset
    codes unregistered, issuance numbers above the watermark) and
    `applyEffects` (stage 2), joined by `applyTxnEffects`, which passes the
    status explicitly and returns it with the result;
  * `validate_eq_ok`: stage 1 passes iff `Valid`; `applyTxnEffects_cases`:
    either an `Err`/panic with the status untouched, or `Ok` with stage 2;
  * the utxos after stage 2, slot by slot (`utxos_applyEffects_of_mem`,
    `utxos_applyEffects_of_not_mem`).
-/
import LedgerStore.Basic
import Mathlib.Algebra.Group.Nat.Basic

namespace LedgerStore

/-- `MAX_VERSION`: the number of bitmap checksums kept. -/
def MAX_VERSION : Nat := 100

/-- `LedgerStatus`, without the paths of the log files (only the file
    handling reads them).  The maps are never iterated, so they are
    functions; the two counters are unbounded. -/
structure LedgerStatus (P : Prims) where
  utxos : Nat → Option (Utxo P)
  utxoMapVersions : List (Nat × P.Digest)
  assetTypes : P.Code → Option (AssetType P)
  issuanceNum : P.Code → Option UInt64
  nextTxn : Nat
  nextTxo : Nat
  globalHash : P.Digest
  globalCommitCount : Nat

variable {P : Prims}

namespace LedgerStatus

/-- `LedgerStatus::new`. -/
def new (P : Prims) : LedgerStatus P :=
  ⟨fun _ => none, [], fun _ => none, fun _ => none, 0, 0, P.zeroDigest, 0⟩

def getUtxo (s : LedgerStatus P) (addr : Nat) : Option (Utxo P) := s.utxos addr

def getIssuanceNum (s : LedgerStatus P) (code : P.Code) : Option UInt64 := s.issuanceNum code

def getAssetType (s : LedgerStatus P) (code : P.Code) : Option (AssetType P) := s.assetTypes code

end LedgerStatus

/-! ## Stage 1 -/

section
variable (s : LedgerStatus P) (txn : TxnEffect P)

/-- Each input must be unspent and hold the claimed record. -/
def checkInput (inp : Σ _ : Nat, P.Rec) : Except Failure Unit := do
  let some inpUtxo := s.utxos inp.1 | throw (.err .inputsError)
  if inpUtxo.output.record ≠ inp.2 then throw (.err .inputsError)

/-- New asset types must not already exist. -/
def checkNewAsset (a : Σ _ : P.Code, AssetType P) : Except Failure Unit := do
  if (s.assetTypes a.1).isSome then throw (.err .inputsError)
  if (s.issuanceNum a.1).isSome then throw (.err .inputsError)

/-- New issuance numbers: an empty list only for an asset defined here,
    otherwise the smallest number not below the current watermark, which is
    unwrapped. -/
def checkIssuance (a : Σ _ : P.Code, List UInt64) : Except Failure Unit := do
  if a.2.isEmpty then
    if a.1 ∉ txn.newAssetCodes then throw (.err .inputsError)
  else
    let some currSeqNumLimit := s.issuanceNum a.1 | throw .panic
    let some minSeqNum := a.2.head? | throw .panic
    if minSeqNum < currSeqNumLimit then throw (.err .inputsError)

/-- Stage 1 of `apply_txn_effects`: the three loops, in order. -/
def validate : Except Failure Unit := do
  txn.inputTxos.entries.forM (checkInput s)
  txn.newAssetCodes.entries.forM (checkNewAsset s)
  txn.newIssuanceNums.entries.forM (checkIssuance s txn)

/-! ## Stage 2 -/

/-- `new_utxo_sids`: `next_txo + ix` for each slot `ix` holding an output. -/
def newUtxoSids (nextTxo : Nat) (txos : List (Option (TxOutput P))) : List Nat :=
  txos.enum.filterMap fun (ix, txo) => txo.map fun _ => nextTxo + ix

/-- Stage 2 of `apply_txn_effects`: advance the counters, remove the consumed
    outputs, insert the new ones under `newSids`, set each watermark one past
    the last number used (or `0`), and register the new asset types. -/
def applyEffects (newSids : List Nat) : LedgerStatus P :=
  { s with
    nextTxn := s.nextTxn + 1
    nextTxo := s.nextTxo + txn.txos.length
    utxos := updateEach (updateEach s.utxos txn.inputTxos.entries (·.1) fun _ => none)
      (newSids.zip (txn.txos.filterMap id)) (·.1) fun p => some ⟨p.2⟩
    issuanceNum := updateEach s.issuanceNum txn.newIssuanceNums.entries (·.1)
      fun a => some ((a.2.getLast?.map (· + 1)).getD 0)
    assetTypes := updateEach s.assetTypes txn.newAssetCodes.entries (·.1) fun a => some a.2 }

/-- `LedgerStatus::apply_txn_effects`: the result, and the status after the
    call (untouched unless stage 1 passes). -/
def applyTxnEffects : Except Failure (Nat × List Nat) × LedgerStatus P :=
  let newTxn := s.nextTxn
  let newSids := newUtxoSids s.nextTxo txn.txos
  match validate s txn with
  | .error f => (.error f, s)
  | .ok () => (.ok (newTxn, newSids), applyEffects s txn newSids)

end

/-! ## Stage 1, declaratively -/

theorem forM_eq_ok {α ε : Type} {l : List α} {f : α → Except ε Unit} :
    l.forM f = .ok () ↔ ∀ a ∈ l, f a = .ok () := by
  induction l with
  | nil => simp
  | cons a l ih =>
    rw [List.forM_cons', List.forall_mem_cons, ← ih]
    cases f a <;> simp

theorem forM_eq_error {α ε : Type} {l : List α} {f : α → Except ε Unit} {x : ε}
    (h : l.forM f = .error x) : ∃ a ∈ l, f a = .error x := by
  induction l with
  | nil => cases h
  | cons a l ih =>
    rw [List.forM_cons'] at h
    cases hf : f a with
    | error y =>
      rw [hf] at h
      cases h
      exact ⟨a, .head _, hf⟩
    | ok u =>
      rw [hf] at h
      obtain ⟨b, hb, hfb⟩ := ih h
      exact ⟨b, .tail _ hb, hfb⟩

/-- What stage 1 checks. -/
structure Valid (s : LedgerStatus P) (e : TxnEffect P) : Prop where
  inputs : ∀ inp ∈ e.inputTxos.entries, ∃ u, s.utxos inp.1 = some u ∧ u.output.record = inp.2
  newAssets : ∀ a ∈ e.newAssetCodes.entries, s.assetTypes a.1 = none ∧ s.issuanceNum a.1 = none
  issuance : ∀ a ∈ e.newIssuanceNums.entries, (a.2 = [] → a.1 ∈ e.newAssetCodes) ∧
    ∀ m ∈ a.2.head?, ∃ lim, s.issuanceNum a.1 = some lim ∧ lim ≤ m

/-- The ways stage 1 rejects an effect, as the spec lists them: an input is
    missing or holds another record; a new code is already registered or has
    a watermark; a list of issuance numbers is empty for a code not defined
    here, or starts below the code's watermark. -/
def Rejected (s : LedgerStatus P) (e : TxnEffect P) : Prop :=
  (∃ inp ∈ e.inputTxos.entries, ∀ u, s.utxos inp.1 = some u → u.output.record ≠ inp.2) ∨
  (∃ a ∈ e.newAssetCodes.entries, (s.assetTypes a.1).isSome ∨ (s.issuanceNum a.1).isSome) ∨
  (∃ a ∈ e.newIssuanceNums.entries, (a.2 = [] ∧ a.1 ∉ e.newAssetCodes) ∨
    ∃ m ∈ a.2.head?, ∃ lim, s.issuanceNum a.1 = some lim ∧ m < lim)

section
variable {s : LedgerStatus P} {e : TxnEffect P}

theorem checkInput_eq_ok {inp : Σ _ : Nat, P.Rec} :
    checkInput s inp = .ok () ↔ ∃ u, s.utxos inp.1 = some u ∧ u.output.record = inp.2 := by
  unfold checkInput
  cases s.utxos inp.1 with
  | none => simp
  | some u => by_cases h : u.output.record = inp.2 <;> simp [h]

/-- Every error of the input check is `InputsError`. -/
theorem checkInput_error {inp : Σ _ : Nat, P.Rec} {f : Failure} (h : checkInput s inp = .error f) :
    f = .err .inputsError := by
  unfold checkInput at h
  cases hu : s.utxos inp.1 with
  | none => simp [hu] at h; exact h.symm
  | some u => by_cases hr : u.output.record = inp.2 <;> simp [hu, hr] at h; exact h.symm

theorem checkNewAsset_eq_ok {a : Σ _ : P.Code, AssetType P} :
    checkNewAsset s a = .ok () ↔ s.assetTypes a.1 = none ∧ s.issuanceNum a.1 = none := by
  unfold checkNewAsset
  cases s.assetTypes a.1 <;> cases s.issuanceNum a.1 <;> simp

theorem checkIssuance_eq_ok {a : Σ _ : P.Code, List UInt64} :
    checkIssuance s e a = .ok () ↔ (a.2 = [] → a.1 ∈ e.newAssetCodes) ∧
      ∀ m ∈ a.2.head?, ∃ lim, s.issuanceNum a.1 = some lim ∧ lim ≤ m := by
  unfold checkIssuance
  rcases a with ⟨code, _ | ⟨m, ms⟩⟩
  · by_cases h : code ∈ e.newAssetCodes <;> simp [h]
  · cases s.issuanceNum code with
    | none => simp
    | some lim => by_cases h : m < lim <;> simp [h, UInt64.not_lt.1]

/-- The only panic of stage 1: an issuance of a code with no watermark. -/
theorem checkIssuance_eq_panic {a : Σ _ : P.Code, List UInt64}
    (h : checkIssuance s e a = .error .panic) : a.2 ≠ [] ∧ s.issuanceNum a.1 = none := by
  unfold checkIssuance at h
  rcases a with ⟨code, _ | ⟨m, ms⟩⟩
  · by_cases hc : code ∈ e.newAssetCodes <;> simp [hc] at h
  · cases hl : s.issuanceNum code with
    | none => exact ⟨List.cons_ne_nil m ms, rfl⟩
    | some lim => by_cases hm : m < lim <;> simp [hl, hm] at h

theorem validate_eq_panic (h : validate s e = .error .panic) :
    ∃ a ∈ e.newIssuanceNums.entries, a.2 ≠ [] ∧ s.issuanceNum a.1 = none := by
  simp only [validate, bind, Except.bind] at h
  split at h
  · rename_i f h₁
    cases h
    obtain ⟨inp, -, hp⟩ := forM_eq_error h₁
    cases checkInput_error hp
  split at h
  · rename_i f h₂
    cases h
    obtain ⟨a, -, hp⟩ := forM_eq_error h₂
    revert hp
    unfold checkNewAsset
    split_ifs <;> simp
  obtain ⟨a, ha, hp⟩ := forM_eq_error h
  exact ⟨a, ha, checkIssuance_eq_panic hp⟩

/-- The errors of the issuance check: an empty list for a code not defined
    here, or a first number below the watermark. -/
theorem checkIssuance_eq_err {a : Σ _ : P.Code, List UInt64} {x : PlatformError}
    (h : checkIssuance s e a = .error (.err x)) : (a.2 = [] ∧ a.1 ∉ e.newAssetCodes) ∨
      ∃ m ∈ a.2.head?, ∃ lim, s.issuanceNum a.1 = some lim ∧ m < lim := by
  unfold checkIssuance at h
  rcases a with ⟨code, _ | ⟨m, ms⟩⟩
  · by_cases hc : code ∈ e.newAssetCodes <;> simp [hc] at h ⊢
  · cases hl : s.issuanceNum code with
    | none => simp [hl] at h
    | some lim => by_cases hm : m < lim <;> simp [hl, hm] at h ⊢

/-- An `Err` of stage 1 comes from one of the listed rejections. -/
theorem validate_eq_err {x : PlatformError} (h : validate s e = .error (.err x)) : Rejected s e := by
  simp only [validate, bind, Except.bind] at h
  split at h
  · rename_i f h₁
    cases h
    obtain ⟨inp, hinp, hp⟩ := forM_eq_error h₁
    exact .inl ⟨inp, hinp, fun u hu hr => by
      rw [checkInput_eq_ok.2 ⟨u, hu, hr⟩] at hp
      cases hp⟩
  split at h
  · rename_i f h₂
    cases h
    obtain ⟨a, ha, hp⟩ := forM_eq_error h₂
    refine .inr (.inl ⟨a, ha, ?_⟩)
    by_contra hn
    simp only [not_or, Option.not_isSome_iff_eq_none] at hn
    rw [checkNewAsset_eq_ok.2 hn] at hp
    cases hp
  obtain ⟨a, ha, hp⟩ := forM_eq_error h
  exact .inr (.inr ⟨a, ha, checkIssuance_eq_err hp⟩)

theorem Valid.not_rejected (hv : Valid s e) : ¬ Rejected s e := by
  rintro (⟨inp, hinp, hne⟩ | ⟨a, ha, hsome⟩ | ⟨a, ha, ⟨hnil, hcode⟩ | ⟨m, hm, lim, hlim, hlt⟩⟩)
  · obtain ⟨u, hu, hr⟩ := hv.inputs inp hinp
    exact hne u hu hr
  · obtain ⟨h₁, h₂⟩ := hv.newAssets a ha
    simp [h₁, h₂] at hsome
  · exact hcode ((hv.issuance a ha).1 hnil)
  · obtain ⟨lim', hlim', hle⟩ := (hv.issuance a ha).2 m hm
    rw [hlim] at hlim'
    cases hlim'
    exact absurd hlt (UInt64.not_lt.2 hle)

/-- An input that is not unspent makes stage 1 fail with `InputsError`,
    whatever the effect's other entries. -/
theorem validate_of_spent {inp : Σ _ : Nat, P.Rec} (hinp : inp ∈ e.inputTxos.entries)
    (hu : s.utxos inp.1 = none) : validate s e = .error (.err .inputsError) := by
  have hfail : e.inputTxos.entries.forM (checkInput s) = .error (.err .inputsError) := by
    cases hf : e.inputTxos.entries.forM (checkInput s) with
    | ok u => simpa [checkInput_eq_ok, hu] using forM_eq_ok.1 hf inp hinp
    | error f =>
      obtain ⟨a, -, ha⟩ := forM_eq_error hf
      rw [checkInput_error ha]
  rw [validate, hfail]
  rfl

theorem Valid.utxo_of_mem (hv : Valid s e) {sid : Nat} (h : sid ∈ e.inputTxos) :
    ∃ u, s.utxos sid = some u := by
  obtain ⟨v, hv'⟩ := List.mem_keys.1 (AList.mem_keys.1 h)
  obtain ⟨u, hu, -⟩ := hv.inputs _ hv'
  exact ⟨u, hu⟩

theorem validate_eq_ok : validate s e = .ok () ↔ Valid s e := by
  simp only [validate, bind, Except.bind]
  constructor
  · intro h
    split at h; · cases h
    rename_i h₁; split at h; · cases h
    rename_i h₂
    exact ⟨fun inp hi => checkInput_eq_ok.1 (forM_eq_ok.1 h₁ inp hi),
      fun a ha => checkNewAsset_eq_ok.1 (forM_eq_ok.1 h₂ a ha),
      fun a ha => checkIssuance_eq_ok.1 (forM_eq_ok.1 h a ha)⟩
  · intro ⟨h₁, h₂, h₃⟩
    rw [forM_eq_ok.2 fun inp hi => checkInput_eq_ok.2 (h₁ inp hi),
      forM_eq_ok.2 fun a ha => checkNewAsset_eq_ok.2 (h₂ a ha)]
    exact forM_eq_ok.2 fun a ha => checkIssuance_eq_ok.2 (h₃ a ha)

/-- A call either fails with the status untouched, or passes stage 1 and
    returns stage 2. -/
theorem applyTxnEffects_cases (s : LedgerStatus P) (e : TxnEffect P) :
    (∃ f, validate s e = .error f ∧ applyTxnEffects s e = (.error f, s)) ∨
    (Valid s e ∧ applyTxnEffects s e = (.ok (s.nextTxn, newUtxoSids s.nextTxo e.txos),
      applyEffects s e (newUtxoSids s.nextTxo e.txos))) := by
  unfold applyTxnEffects
  cases h : validate s e with
  | error f => exact .inl ⟨f, rfl, rfl⟩
  | ok u => exact .inr ⟨validate_eq_ok.1 h, rfl⟩

end

/-! ## Stage 2, slot by slot -/

/-- The outputs stage 2 inserts, with their SIDs. -/
def newUtxos (n : Nat) (txos : List (Option (TxOutput P))) : List (Nat × TxOutput P) :=
  (newUtxoSids n txos).zip (txos.filterMap id)

theorem newUtxoSids_cons (n : Nat) (t : Option (TxOutput P)) (ts : List (Option (TxOutput P))) :
    newUtxoSids n (t :: ts) = (t.map fun _ => n).toList ++ newUtxoSids (n + 1) ts := by
  have : ∀ p : Nat × Option (TxOutput P), (p.2.map fun _ => n + (p.1 + 1)) =
      p.2.map fun _ => n + 1 + p.1 := fun p => by rw [Nat.add_comm p.1, Nat.add_assoc]
  cases t <;> simp [newUtxoSids, List.enum_cons', List.filterMap_map, Function.comp_def, this]

theorem newUtxoSids_eq_nil {n : Nat} {ts : List (Option (TxOutput P))} :
    newUtxoSids n ts = [] ↔ ts.all Option.isNone := by
  induction ts generalizing n with
  | nil => simp [newUtxoSids]
  | cons t ts ih => cases t <;> simp [newUtxoSids_cons, ih]

theorem le_of_mem_newUtxoSids {n sid : Nat} {ts : List (Option (TxOutput P))}
    (h : sid ∈ newUtxoSids n ts) : n ≤ sid := by
  induction ts generalizing n with
  | nil => simp [newUtxoSids] at h
  | cons t ts ih =>
    rw [newUtxoSids_cons, List.mem_append] at h
    rcases h with h | h
    · cases t <;> simp_all
    · exact Nat.le_of_succ_le (ih h)

theorem mem_newUtxoSids {n sid : Nat} {ts : List (Option (TxOutput P))} :
    sid ∈ newUtxoSids n ts ↔ ∃ ix o, sid = n + ix ∧ ts[ix]? = some (some o) := by
  induction ts generalizing n with
  | nil => simp [newUtxoSids]
  | cons t ts ih =>
    rw [newUtxoSids_cons, List.mem_append, ih]
    constructor
    · rintro (h | ⟨ix, o, rfl, h⟩)
      · cases t <;> simp_all
      · exact ⟨ix + 1, o, by omega, by simpa using h⟩
    · rintro ⟨_ | ix, o, rfl, h⟩
      · simp_all
      · exact .inr ⟨ix, o, by omega, by simpa using h⟩

/-- The SIDs are given in increasing order. -/
theorem newUtxoSids_pairwise (n : Nat) (ts : List (Option (TxOutput P))) :
    (newUtxoSids n ts).Pairwise (· < ·) := by
  induction ts generalizing n with
  | nil => simp [newUtxoSids]
  | cons t ts ih =>
    rw [newUtxoSids_cons, List.pairwise_append]
    refine ⟨by cases t <;> simp, ih (n + 1), fun a ha b hb => ?_⟩
    have := le_of_mem_newUtxoSids hb
    cases t <;> simp_all
    omega

theorem newUtxos_nil (n : Nat) : newUtxos n ([] : List (Option (TxOutput P))) = [] := rfl

theorem newUtxos_cons (n : Nat) (t : Option (TxOutput P)) (ts : List (Option (TxOutput P))) :
    newUtxos n (t :: ts) = (t.map fun o => (n, o)).toList ++ newUtxos (n + 1) ts := by
  cases t <;> simp [newUtxos, newUtxoSids_cons]

theorem mem_newUtxos {n sid : Nat} {o : TxOutput P} {txos : List (Option (TxOutput P))} :
    (sid, o) ∈ newUtxos n txos ↔ ∃ ix, sid = n + ix ∧ txos[ix]? = some (some o) := by
  induction txos generalizing n with
  | nil => simp [newUtxos_nil]
  | cons t ts ih =>
    rw [newUtxos_cons, List.mem_append, ih]
    constructor
    · rintro (h | ⟨ix, rfl, h⟩)
      · cases t <;> simp_all
      · exact ⟨ix + 1, by omega, by simpa using h⟩
    · rintro ⟨_ | ix, rfl, h⟩
      · simp_all
      · exact .inr ⟨ix, by omega, by simpa using h⟩

theorem le_of_mem_newUtxos {n : Nat} {txos : List (Option (TxOutput P))} {p : Nat × TxOutput P}
    (h : p ∈ newUtxos n txos) : n ≤ p.1 ∧ p.1 < n + txos.length := by
  obtain ⟨sid, o⟩ := p
  obtain ⟨ix, h₁, h₂⟩ := mem_newUtxos.1 h
  have := (List.getElem?_eq_some_iff.1 h₂).1
  omega

theorem newUtxos_keys_nodup (n : Nat) (txos : List (Option (TxOutput P))) :
    ((newUtxos n txos).map (·.1)).Nodup := by
  induction txos generalizing n with
  | nil => simp [newUtxos_nil]
  | cons t ts ih =>
    rw [newUtxos_cons, List.map_append, List.nodup_append]
    refine ⟨by cases t <;> simp, ih (n + 1), ?_⟩
    cases t with
    | none => simp
    | some o =>
      intro a ha hb
      simp only [Option.map_some', Option.toList_some, List.map_cons, List.map_nil,
        List.mem_singleton] at ha
      obtain ⟨p, hp, rfl⟩ := List.mem_map.1 hb
      have := (le_of_mem_newUtxos hp).1
      omega

section
variable {s : LedgerStatus P} {e : TxnEffect P} {sid : Nat}

theorem utxos_applyEffects_of_mem {o : TxOutput P} (h : (sid, o) ∈ newUtxos s.nextTxo e.txos) :
    (applyEffects s e (newUtxoSids s.nextTxo e.txos)).utxos sid = some ⟨o⟩ :=
  updateEach_of_mem (newUtxos_keys_nodup _ _) h

theorem utxos_applyEffects_of_not_mem (h : ∀ o, (sid, o) ∉ newUtxos s.nextTxo e.txos) :
    (applyEffects s e (newUtxoSids s.nextTxo e.txos)).utxos sid =
      if sid ∈ e.inputTxos then none else s.utxos sid := by
  simp only [applyEffects]
  rw [updateEach_of_forall_ne fun p hp he => h p.2 (he ▸ hp)]
  split_ifs with hi
  · obtain ⟨v, hv⟩ := List.mem_keys.1 (AList.mem_keys.1 hi)
    exact updateEach_of_mem e.inputTxos.keys_nodup hv
  · exact updateEach_of_forall_ne fun a ha he =>
      hi (AList.mem_keys.2 (List.mem_keys.2 ⟨a.2, he ▸ ha⟩))

end

/-! ## The SIDs in `u64`

`TxoSID` and `TxnSID` hold 64-bit integers, and the additions of stage 2 wrap
in a release build.  `LedgerStatus` counts in `Nat`: what the code computes is
the model's value modulo `2^64`, which is the model's value while the counters
stay below `2^64`. -/

end LedgerStore
