/-
  The ledger state over the ledger status.  `LedgerState::apply_transaction`
  delegates to `LedgerStatus::apply_txn_effects`, and `checkpoint` and
  `snapshot` only write the status fields the effects never read: a run of
  the state moves its status exactly as the run of the status on the same
  effects.

  * `LedgerStatus.core`: the status without the fields `checkpoint` writes;
  * `appliedEffects`, `acceptedEffects`: the effects a run of the state
    applies, and those it accepts;
  * `run_refines`: the run of the state, seen through `core`, is `applyRun`
    of its effects, panics included;
  * `run_utxoInv`: hence the utxo invariant of the status holds of every
    state reachable from `LedgerState::new`;
  * `BitmapInv`, `run_utxoMap`: the bitmap holds one bit per allocated slot,
    `slotBits` of each accepted effect; spent outputs keep their bits.
-/
import LedgerStore.StateRun
import LedgerStore.StatusRun

namespace LedgerStore

variable {P : Prims}

/-- The status without the fields only `checkpoint` writes. -/
def LedgerStatus.core (s : LedgerStatus P) : LedgerStatus P :=
  { s with utxoMapVersions := [], globalHash := P.zeroDigest, globalCommitCount := 0 }

@[simp] theorem LedgerStatus.core_new : (LedgerStatus.new P).core = LedgerStatus.new P := rfl

theorem applyTxnEffects_core (s : LedgerStatus P) (e : TxnEffect P) :
    applyTxnEffects s.core e = ((applyTxnEffects s e).1, (applyTxnEffects s e).2.core) := by
  unfold applyTxnEffects
  have : validate s.core e = validate s e := rfl
  rw [this]
  split <;> rfl

/-- The effects of the `apply_transaction` calls among `cmds`. -/
def appliedEffects : List (Cmd P) → List (TxnEffect P)
  | [] => []
  | .applyTransaction e :: cmds => e :: appliedEffects cmds
  | _ :: cmds => appliedEffects cmds

/-- The effects accepted, in order. -/
def acceptedEffects (os : List (Obs P)) : List (TxnEffect P) :=
  os.filterMap fun | .accepted e _ => some e | _ => none

@[simp] theorem acceptedEffects_cons_accepted (e : TxnEffect P) (L : LedgerState P)
    (os : List (Obs P)) : acceptedEffects (.accepted e L :: os) = e :: acceptedEffects os := rfl

@[simp] theorem acceptedEffects_cons_of_forall {o : Obs P} (ho : ∀ e L, o ≠ .accepted e L)
    (os : List (Obs P)) : acceptedEffects (o :: os) = acceptedEffects os := by
  cases o <;> simp_all [acceptedEffects]

@[simp] theorem acceptedEffects_nil : acceptedEffects ([] : List (Obs P)) = [] := rfl

@[simp] theorem acceptedEffects_append (os os' : List (Obs P)) :
    acceptedEffects (os ++ os') = acceptedEffects os ++ acceptedEffects os' :=
  List.filterMap_append ..

@[simp] theorem LedgerState.checkpoint_core (C : Crypto P) (L : LedgerState P) :
    (L.checkpoint C).status.core = L.status.core := rfl

/-- **The ledger state refines the ledger status.**  From any state, a run
    of `apply_transaction`, `checkpoint` and `snapshot` calls panics iff the
    run of `apply_txn_effects` on the same effects does; otherwise it accepts
    the same effects and leaves the same status, but for the fields
    `checkpoint` writes. -/
theorem run_refines (C : Crypto P) (L : LedgerState P) (cmds : List (Cmd P)) :
    (run C L cmds).map (fun r => (r.1.status.core, acceptedEffects r.2)) =
      applyRun L.status.core (appliedEffects cmds) := by
  induction cmds generalizing L with
  | nil => rfl
  | cons c cmds ih =>
    cases c with
    | applyTransaction e =>
      simp only [appliedEffects, applyRun, applyTxnEffects_core]
      rcases @LedgerState.applyTransaction_cases _ C L e with ⟨f, hf, he⟩ | ⟨hv, he⟩
      · have hs : applyTxnEffects L.status e = (.error f, L.status) := by
          unfold applyTxnEffects; rw [hf]
        rw [hs]
        cases f with
        | panic => simp [run, LedgerState.exec, he]
        | err _ => simpa [run, LedgerState.exec, he, Option.map_map, Function.comp_def] using ih L
      · have hs : applyTxnEffects L.status e = (.ok (L.status.nextTxn,
            newUtxoSids L.status.nextTxo e.txos), (L.applied C e).status) := by
          unfold applyTxnEffects; rw [validate_eq_ok.2 hv]; rfl
        rw [hs]
        simp [run, LedgerState.exec, he, ← ih (L.applied C e), Option.map_map, Function.comp_def]
    | checkpoint =>
      simpa [run, LedgerState.exec, appliedEffects, Option.map_map, Function.comp_def] using ih _
    | snapshot =>
      simpa [run, LedgerState.exec, appliedEffects, Option.map_map, Function.comp_def] using ih _

/-! ## The utxos and the bitmap of a run -/

section
variable {C : Crypto P} {cmds : List (Cmd P)} {L : LedgerState P} {os : List (Obs P)}

/-- A reachable state's status is reached by `applyRun` on the accepted
    effects. -/
theorem applyRun_of_run (h : run C (LedgerState.new P) cmds = some (L, os)) :
    applyRun (LedgerStatus.new P) (appliedEffects cmds) =
      some (L.status.core, acceptedEffects os) := by
  simpa [h] using (run_refines C (LedgerState.new P) cmds).symm

theorem run_utxoInv (h : run C (LedgerState.new P) cmds = some (L, os)) :
    UtxoInv L.status (acceptedEffects os) := by
  -- `UtxoInv` reads only what `core` keeps
  obtain ⟨h₁, h₂, h₃, h₄, h₅, h₆⟩ := applyRun_utxoInv (applyRun_of_run h)
  exact ⟨h₁, h₂, h₃, h₄, h₅, h₆⟩

end

/-- The bitmap the accepted effects `acc` leave: the bits of their slots. -/
def bitmapOf (acc : List (TxnEffect P)) : List Bool := acc.flatMap fun e => slotBits e.txos

@[simp] theorem bitmapOf_append (acc acc' : List (TxnEffect P)) :
    bitmapOf (acc ++ acc') = bitmapOf acc ++ bitmapOf acc' := List.flatMap_append ..

@[simp] theorem bitmapOf_singleton (e : TxnEffect P) : bitmapOf [e] = slotBits e.txos := by
  simp [bitmapOf]

theorem length_bitmapOf (acc : List (TxnEffect P)) : (bitmapOf acc).length = slotCount acc := by
  induction acc with
  | nil => rfl
  | cons e acc ih =>
    rw [← List.singleton_append, bitmapOf_append, List.length_append, ih]
    simp [slotCount]

theorem getElem?_bitmapOf {acc : List (TxnEffect P)} {k ix : Nat} {ek : TxnEffect P}
    (hk : acc[k]? = some ek) (hix : ix < ek.txos.length) :
    (bitmapOf acc)[slotCount (acc.take k) + ix]? = (slotBits ek.txos)[ix]? := by
  obtain ⟨hlt, hek⟩ := List.getElem?_eq_some_iff.1 hk
  have hsplit : acc = acc.take k ++ [ek] ++ acc.drop (k + 1) := by
    rw [List.append_assoc, List.singleton_append, ← hek, ← List.drop_eq_getElem_cons hlt,
      List.take_append_drop]
  generalize acc.take k = pre at hsplit ⊢
  generalize acc.drop (k + 1) = post at hsplit
  rw [hsplit, bitmapOf_append, bitmapOf_append, List.append_assoc,
    List.getElem?_append_right (by rw [length_bitmapOf]; omega), length_bitmapOf,
    Nat.add_sub_cancel_left, bitmapOf_singleton, List.getElem?_append_left (by simpa using hix)]

/-- The bitmap after the calls `os`. -/
structure BitmapInv (L : LedgerState P) (os : List (Obs P)) : Prop where
  bits : L.utxoMap.bits = bitmapOf (acceptedEffects os)
  nextTxo : L.status.nextTxo = slotCount (acceptedEffects os)

section
variable (C : Crypto P)

theorem bitmapInv_new : BitmapInv (LedgerState.new P) [] := ⟨rfl, rfl⟩

theorem BitmapInv.accept {L : LedgerState P} {os : List (Obs P)} {e : TxnEffect P}
    (hI : BitmapInv L os) : BitmapInv (L.applied C e) (os ++ [.accepted e (L.applied C e)]) := by
  have hlen : L.utxoMap.bits.length = L.status.nextTxo := by
    rw [hI.bits, hI.nextTxo, length_bitmapOf]
  refine ⟨?_, ?_⟩
  · rw [LedgerState.applied_utxoMap L e hlen, hI.bits]
    simp
  · show L.status.nextTxo + e.txos.length = _
    simp [hI.nextTxo]

theorem BitmapInv.frame {L L' : LedgerState P} {os : List (Obs P)} {o : Obs P}
    (hI : BitmapInv L os) (ho : ∀ e L, o ≠ .accepted e L) (hm : L'.utxoMap = L.utxoMap)
    (hn : L'.status.nextTxo = L.status.nextTxo) : BitmapInv L' (os ++ [o]) := by
  have : acceptedEffects [o] = [] := by simp [ho]
  exact ⟨by simp [hm, hI.bits, this], by simp [hn, hI.nextTxo, this]⟩

/-- **The bitmap records the allocated slots, not the unspent outputs.**
    After any run from `LedgerState::new`, the bitmap has one bit per
    allocated slot: those of each accepted transaction, set where the slot
    held an output when it was applied or no later slot of it did.  Spending
    never clears a bit, so every utxo's bit is set. -/
theorem run_utxoMap {cmds : List (Cmd P)} {L : LedgerState P} {os : List (Obs P)}
    (h : run C (LedgerState.new P) cmds = some (L, os)) :
    L.utxoMap.bits = bitmapOf (acceptedEffects os) ∧ L.utxoMap.bits.length = L.status.nextTxo ∧
    ∀ sid u, L.status.utxos sid = some u → L.utxoMap.get sid = true := by
  have hI : BitmapInv L os := by
    simpa using run_induction BitmapInv (fun _ _ _ hI _ => hI.accept C)
      (fun _ _ hI => hI.frame (by simp) rfl rfl) (fun _ _ hI => hI.frame (by simp) rfl rfl)
      (fun _ _ hI => hI.frame (by simp) rfl rfl) bitmapInv_new h
  refine ⟨hI.bits, by rw [hI.bits, hI.nextTxo, length_bitmapOf], fun sid ⟨o⟩ hu => ?_⟩
  obtain ⟨k, ek, hk, ix, rfl, hix, -⟩ := (run_utxoInv h).live_of_utxo hu
  have hlt := (List.getElem?_eq_some_iff.1 hix).1
  simp [BitMap.get, hI.bits, List.getD_eq_getElem?_getD, getElem?_bitmapOf hk hlt,
    slotBits_of_some hix]

end

theorem run_utxoMap_transfer :
    ∃ e₁ e₂ e₃ L os, computeEffect keyVerifier (defineTx 1 1) = .ok e₁ ∧
      computeEffect keyVerifier (issueTx 1 0 1) = .ok e₂ ∧
      computeEffect keyVerifier (transferTx 0) = .ok e₃ ∧
      run natCrypto (LedgerState.new natPrims)
        [.applyTransaction e₁, .applyTransaction e₂, .applyTransaction e₃] = some (L, os) ∧
      L.utxoMap.bits.length = L.status.nextTxo := by
  refine ⟨_, _, _, ?L, ?os, rfl, rfl, rfl, ?h, (run_utxoMap natCrypto ?h).2.1⟩
  case h => exact rfl

/-- Spent outputs keep their bits.  `apply_transaction` touches only the new
    SID range, so an output later spent through `Absolute(0)` stays set; and
    the loop leaves bit `ix` set once no utxo SID is left to match it, so an
    output consumed inside its own transaction (slot `0` of `issueThenBurn`)
    stays set as well. -/
theorem utxoMap_keeps_spent_slots :
    (∃ e₁ e₂ e₃ L os, computeEffect keyVerifier (defineTx 1 1) = .ok e₁ ∧
      computeEffect keyVerifier (issueTx 1 0 1) = .ok e₂ ∧
      computeEffect keyVerifier (transferTx 0) = .ok e₃ ∧
      run natCrypto (LedgerState.new natPrims)
        [.applyTransaction e₁, .applyTransaction e₂, .applyTransaction e₃, .checkpoint] =
        some (L, os) ∧
      L.status.nextTxn = 3 ∧ L.status.nextTxo = 3 ∧ L.utxoMap.get 0 = true ∧
      L.status.utxos 0 = none) ∧
    (∃ e₁ e₂ L os, computeEffect keyVerifier (defineTx 1 1) = .ok e₁ ∧
      computeEffect keyVerifier issueThenBurn = .ok e₂ ∧
      run natCrypto (LedgerState.new natPrims)
        [.applyTransaction e₁, .applyTransaction e₂] = some (L, os) ∧
      L.status.nextTxn = 2 ∧ L.status.nextTxo = 1 ∧ L.utxoMap.get 0 = true ∧
      L.status.utxos 0 = none) :=
  ⟨⟨_, _, _, _, _, rfl, rfl, rfl, rfl, rfl, rfl, rfl, rfl⟩,
    ⟨_, _, _, _, rfl, rfl, rfl, rfl, rfl, rfl, rfl⟩⟩

end LedgerStore
