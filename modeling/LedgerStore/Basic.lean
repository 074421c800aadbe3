/-
  The data model of the ledger store (`ledger/src/store/store.rs`) and its
  errors (`ledger/src/data_model/errors.rs`).

  * `Prims`: the types the store takes from outside (asset codes, keys,
    signatures, transfer proofs, blind asset records, the two digests);
  * the operations of a transaction and `TxoRef`, whose declarations live in
    `data_model` and are taken from the fields `store.rs` reads;
  * `HashMap`: an association list whose entry order is the map's iteration
    order, and `updateEach`, the loop `for (k, v) in m.iter() { t.insert(..) }`
    written on a map given as a function;
  * `TxnEffect`, with `TxnEffect.beq`, the derived `==` of the source.
-/
import Mathlib.Data.List.AList
import Mathlib.Logic.Function.Basic

namespace LedgerStore

/-- The external types of the store: asset type codes, public keys,
    signatures, the proofs of a confidential transfer, blind asset records,
    the SHA-256 digest `BitDigest` with its all-zero value, and the Merkle
    tree's `HashValue`. -/
structure Prims where
  Code : Type
  Key : Type
  Sig : Type
  Proof : Type
  Rec : Type
  Digest : Type
  HashValue : Type
  zeroDigest : Digest
  [decCode : DecidableEq Code]
  [decKey : DecidableEq Key]
  [decSig : DecidableEq Sig]
  [decProof : DecidableEq Proof]
  [decRec : DecidableEq Rec]

attribute [instance] Prims.decCode Prims.decKey Prims.decSig Prims.decProof Prims.decRec

/-- `PlatformError`, with the `InvariantError` variant that
    `deep_invariant_check` raises.  The payload of `ZeiError` is left out:
    no function of the store reads it. -/
inductive PlatformError where
  | deserializationError
  | serializationError
  | inputsError
  | zeiError
  | ioError (msg : String)
  | invariantError (msg : Option String)
  deriving DecidableEq, Repr

/-- How a call ends when it does not return `Ok`: with an `Err`, or with a
    panic (a failed `assert!`, an `unwrap` of `None`, an index out of range). -/
inductive Failure where
  | err (e : PlatformError)
  | panic
  deriving DecidableEq, Repr

section
variable {ε α β : Type}

@[simp] theorem except_pure (a : α) : (pure a : Except ε α) = .ok a := rfl

@[simp] theorem except_throw (e : ε) : (throw e : Except ε α) = .error e := rfl

@[simp] theorem except_ok_bind (a : α) (f : α → Except ε β) : (Except.ok a >>= f) = f a := rfl

@[simp] theorem except_error_bind (e : ε) (f : α → Except ε β) :
    (Except.error e >>= f) = .error e := rfl

theorem except_bind_eq_ok {x : Except ε α} {f : α → Except ε β} {b : β} :
    x >>= f = .ok b ↔ ∃ a, x = .ok a ∧ f a = .ok b := by
  cases x <;> simp

/-- A property of the accumulator that each successful step keeps holds after
    a successful `foldlM`; `done` is the prefix already folded. -/
theorem foldlM_except_induction {f : β → α → Except ε β} (I : β → List α → Prop)
    (hstep : ∀ b done a b', I b done → f b a = .ok b' → I b' (done ++ [a])) :
    ∀ {l : List α} {b b' : β} (done : List α), I b done → l.foldlM f b = .ok b' →
      I b' (done ++ l)
  | [], b, b', done, hI, h => by
    cases h
    simpa using hI
  | a :: l, b, b', done, hI, h => by
    rw [List.foldlM_cons, except_bind_eq_ok] at h
    obtain ⟨b₁, h₁, h⟩ := h
    simpa using foldlM_except_induction I hstep _ (hstep b done a b₁ hI h₁) h

/-- A `foldlM` whose steps, from an accumulator with `I`, never fail with `x`
    and keep `I`, never fails with `x`. -/
theorem foldlM_except_ne {f : β → α → Except ε β} {x : ε} (I : β → Prop)
    (hstep : ∀ b a, I b → f b a ≠ .error x ∧ ∀ b', f b a = .ok b' → I b') :
    ∀ {l : List α} {b : β}, I b → l.foldlM f b ≠ .error x
  | [], _, _ => by simp
  | a :: l, b, hI => by
    rw [List.foldlM_cons]
    cases h : f b a with
    | error y =>
      rintro ⟨⟩
      exact (hstep b a hI).1 h
    | ok b' => simpa using foldlM_except_ne I hstep ((hstep b a hI).2 b' h)

end

/-- A Rust `HashMap`: its entries, in iteration order, with distinct keys. -/
abbrev HashMap (α β : Type) := AList fun _ : α => β

/-- An instance of the external types, all `Nat`, on which the model runs. -/
abbrev natPrims : Prims :=
  { Code := Nat, Key := Nat, Sig := Nat, Proof := Nat, Rec := Nat, Digest := Nat, HashValue := Nat,
    zeroDigest := 0 }

/-! ## Transactions -/

variable (P : Prims)

/-- The properties of an asset type that the store reads: its code and the
    issuer's key. -/
structure Asset where
  code : P.Code
  issuer : P.Key
  deriving DecidableEq

/-- `AssetType`: registered metadata, `properties` being the defining
    operation's `Asset`. -/
structure AssetType where
  properties : Asset P
  deriving DecidableEq

/-- `TxOutput(BlindAssetRecord)`. -/
structure TxOutput where
  record : P.Rec
  deriving DecidableEq

/-- `Utxo(TxOutput)`: an unspent output. -/
structure Utxo where
  output : TxOutput P
  deriving DecidableEq

/-- `TxoRef`: an input of a transfer, either an output of the same
    transaction counted back from the last one, or an output of the ledger
    by its `TxoSID`.  SIDs (`TxoSID`, `TxnSID`) are natural numbers. -/
inductive TxoRef where
  | relative (offs : Nat)
  | absolute (sid : Nat)
  deriving DecidableEq, Repr

structure DefineAssetBody where
  asset : Asset P
  deriving DecidableEq

structure DefineAsset where
  body : DefineAssetBody P
  pubkey : P.Key
  signature : P.Sig
  deriving DecidableEq

structure IssueAssetBody where
  code : P.Code
  seqNum : UInt64
  numOutputs : Nat
  records : List (TxOutput P)
  deriving DecidableEq

structure IssueAsset where
  body : IssueAssetBody P
  pubkey : P.Key
  signature : P.Sig
  deriving DecidableEq

/-- The body of zei's `XfrNote`: the records consumed and produced, and the
    proofs that they balance. -/
structure XfrBody where
  inputs : List P.Rec
  outputs : List P.Rec
  proofs : P.Proof
  deriving DecidableEq

structure XfrNote where
  body : XfrBody P
  multisig : P.Sig
  deriving DecidableEq

structure TransferAssetBody where
  inputs : List TxoRef
  numOutputs : Nat
  transfer : XfrNote P
  deriving DecidableEq

structure TransferAsset where
  body : TransferAssetBody P
  bodySignatures : List P.Sig
  deriving DecidableEq

inductive Operation where
  | defineAsset (d : DefineAsset P)
  | issueAsset (iss : IssueAsset P)
  | transferAsset (trn : TransferAsset P)
  deriving DecidableEq

/-- A transaction: the only field `compute_effect` reads is its operations. -/
structure Transaction where
  operations : List (Operation P)
  deriving DecidableEq

/-- `TxnEffect`: the outputs a transaction produces (`None` for the slots
    consumed inside it), the ledger outputs it consumes with the records it
    claims for them, the asset types it defines, and the issuance sequence
    numbers it uses per asset code. -/
structure TxnEffect where
  txn : Transaction P
  txos : List (Option (TxOutput P))
  inputTxos : HashMap Nat P.Rec
  newAssetCodes : HashMap P.Code (AssetType P)
  newIssuanceNums : HashMap P.Code (List UInt64)
  deriving DecidableEq

variable {P}

/-- `HashMap`'s `==`: the same number of entries, each found in the other. -/
def hashMapEq {α β : Type} [DecidableEq α] [DecidableEq β] (a b : HashMap α β) : Bool :=
  a.entries.length == b.entries.length && a.entries.all fun e => b.lookup e.1 == some e.2

/-- The derived `PartialEq` of `TxnEffect`. -/
def TxnEffect.beq (a b : TxnEffect P) : Bool :=
  a.txn == b.txn && a.txos == b.txos && hashMapEq a.inputTxos b.inputTxos &&
    hashMapEq a.newAssetCodes b.newAssetCodes && hashMapEq a.newIssuanceNums b.newIssuanceNums

/-! ## Maps as functions

The maps of the ledger status are never iterated: they are functions, and
`m.insert(k, v)` is `Function.update m k (some v)`. -/

section
variable {α κ V : Type} [DecidableEq κ]

/-- `for a in l { m[key a] = val a }`. -/
def updateEach (m : κ → V) (l : List α) (key : α → κ) (val : α → V) : κ → V :=
  l.foldl (fun m a => Function.update m (key a) (val a)) m

@[simp] theorem updateEach_nil (m : κ → V) (key : α → κ) (val : α → V) :
    updateEach m [] key val = m := rfl

theorem updateEach_cons (m : κ → V) (a : α) (l : List α) (key : α → κ) (val : α → V) :
    updateEach m (a :: l) key val = updateEach (Function.update m (key a) (val a)) l key val := rfl

theorem updateEach_of_forall_ne {m : κ → V} {l : List α} {key : α → κ} {val : α → V} {k : κ}
    (h : ∀ a ∈ l, key a ≠ k) : updateEach m l key val k = m k := by
  induction l generalizing m with
  | nil => rfl
  | cons a l ih =>
    rw [updateEach_cons, ih fun b hb => h b (.tail _ hb),
      Function.update_noteq (h a (.head _)).symm]

theorem updateEach_of_mem {m : κ → V} {l : List α} {key : α → κ} {val : α → V} {a : α}
    (hl : (l.map key).Nodup) (ha : a ∈ l) : updateEach m l key val (key a) = val a := by
  induction l generalizing m with
  | nil => cases ha
  | cons b l ih =>
    rw [List.map_cons, List.nodup_cons] at hl
    rw [updateEach_cons]
    rcases List.mem_cons.1 ha with rfl | ha
    · rw [updateEach_of_forall_ne fun c hc he => hl.1 (List.mem_map.2 ⟨c, hc, he⟩),
        Function.update_same]
    · exact ih hl.2 ha

theorem updateEach_isSome {W : Type} {m : κ → Option W} {l : List α} {key : α → κ}
    {val : α → W} {k : κ} :
    ((updateEach m l key fun a => some (val a)) k).isSome ↔ (∃ a ∈ l, key a = k) ∨ (m k).isSome := by
  induction l generalizing m with
  | nil => simp
  | cons a l ih =>
    rw [updateEach_cons, ih]
    by_cases h : key a = k
    · subst h; simp
    · simp [Function.update_noteq (Ne.symm h), h]

end

theorem getElem?_append_singleton {α : Type} {l : List α} {a x : α} {j : Nat} :
    (l ++ [a])[j]? = some x ↔ l[j]? = some x ∨ (j = l.length ∧ x = a) := by
  rcases lt_trichotomy j l.length with h | rfl | h
  · simp [List.getElem?_append_left h, h.ne]
  · simp [eq_comm]
  · have h₁ : (l ++ [a])[j]? = none := List.getElem?_eq_none (by simp; omega)
    simp [h₁, List.getElem?_eq_none h.le, h.ne']

/-- `k` is a key of the `HashMap` iff it is the key of one of its entries. -/
theorem mem_hashMap_iff {α β : Type} [DecidableEq α] {m : HashMap α β} {k : α} :
    k ∈ m ↔ ∃ a ∈ m.entries, a.1 = k := by
  rw [AList.mem_keys, AList.keys, List.keys, List.mem_map]

section
variable {κ β V : Type} [DecidableEq κ] {m : κ → V} {l : HashMap κ β}
  {val : (Σ _ : κ, β) → V} {k : κ}

/-- `for (k, v) in l.iter() { m[k] = val(k, v) }`, read at a key of `l`. -/
theorem updateEach_entries_of_lookup {b : β} (h : l.lookup k = some b) :
    updateEach m l.entries (·.1) val k = val ⟨k, b⟩ :=
  updateEach_of_mem l.keys_nodup (AList.mem_lookup_iff.1 h)

/-- The same loop, read at any other key. -/
theorem updateEach_entries_of_not_mem (h : k ∉ l) : updateEach m l.entries (·.1) val k = m k :=
  updateEach_of_forall_ne fun a ha he => h (mem_hashMap_iff.2 ⟨a, ha, he⟩)

/-- The loop over a map's entries gives the same result in any iteration order. -/
theorem updateEach_entries_perm {l' : HashMap κ β} (h : l'.entries.Perm l.entries) :
    updateEach m l'.entries (·.1) val = updateEach m l.entries (·.1) val := by
  funext k
  cases hk : l.lookup k with
  | none =>
    have hk : k ∉ l := AList.lookup_eq_none.1 hk
    rw [updateEach_entries_of_not_mem hk,
      updateEach_entries_of_not_mem (mt (AList.mem_of_perm h).1 hk)]
  | some b =>
    rw [updateEach_entries_of_lookup hk,
      updateEach_entries_of_lookup ((AList.perm_lookup h).trans hk)]

end

theorem dlookup_kreplace {α β : Type} [DecidableEq α] {a a' : α} {b : β}
    (l : List (Σ _ : α, β)) :
    (l.kreplace a b).dlookup a' = if a' = a ∧ a ∈ l.keys then some b else l.dlookup a' := by
  induction l with
  | nil => simp [List.kreplace]
  | cons x l ih =>
    obtain ⟨k, v⟩ := x
    by_cases hk : a = k
    · subst hk
      have h : (fun s : Σ _ : α, β => if a = s.1 then some (⟨a, b⟩ : Σ _ : α, β) else none)
          ⟨a, v⟩ = some ⟨a, b⟩ := if_pos rfl
      rw [List.kreplace, List.lookmap_cons_some _ _ h]
      by_cases ha : a' = a
      · subst ha; simp [List.dlookup_cons_eq]
      · simp [List.dlookup_cons_ne l ⟨a, b⟩ ha, List.dlookup_cons_ne l ⟨a, v⟩ ha, ha]
    · rw [List.kreplace, List.lookmap_cons_none _ _ (by simp [hk]), ← List.kreplace]
      by_cases ha : a' = k
      · subst ha; simp [List.dlookup_cons_eq, Ne.symm hk]
      · rw [List.dlookup_cons_ne _ (⟨k, v⟩ : Σ _ : α, β) ha,
          List.dlookup_cons_ne _ (⟨k, v⟩ : Σ _ : α, β) ha, ih]
        simp [hk]

/-- `HashMap::get_mut(k)` then an assignment: only the value under `a`
    changes, and only if `a` is a key. -/
theorem lookup_replace {α β : Type} [DecidableEq α] {a a' : α} {b : β} (m : HashMap α β) :
    (m.replace a b).lookup a' = if a' = a ∧ a ∈ m then some b else m.lookup a' := by
  simp only [AList.mem_keys]
  exact dlookup_kreplace m.entries

end LedgerStore
