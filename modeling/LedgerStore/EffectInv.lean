/-
  What the loop of `compute_effect` keeps.

  * `DefineInv`: every defined code has an issuance entry, the defined codes
    are those of the `DefineAsset`s seen so far, and no code is defined twice;
  * `computeEffect_defines`: hence in every effect `compute_effect` returns,
    `new_asset_codes` is within `new_issuance_nums` and the transaction
    defines each code at most once (`TxnEffect.Computed.issued` for any
    iteration order).
-/
import LedgerStore.Effect

namespace LedgerStore

variable {P : Prims} {V : Verifier P}

/-- The code an operation defines, if it is a `DefineAsset`. -/
def Operation.definedCode : Operation P → Option P.Code
  | .defineAsset d => some d.body.asset.code
  | _ => none

theorem computeEffect_eq_ok {txn : Transaction P} {e : TxnEffect P} :
    computeEffect V txn = .ok e ↔ ∃ st, txn.operations.foldlM (effectStep V) EffectState.init = .ok st ∧
      e = ⟨txn, st.txos, st.inputTxos, st.newAssetCodes, st.newIssuanceNums⟩ := by
  simp [computeEffect, except_bind_eq_ok, @eq_comm _ e]

theorem mem_ensure_replace {m : HashMap P.Code (List UInt64)} {code c : P.Code} {v : List UInt64} :
    c ∈ (if code ∈ m then m else m.insert code []).replace code v ↔ c = code ∨ c ∈ m := by
  rw [AList.mem_replace]
  split_ifs with h
  · exact ⟨.inr, fun h' => h'.elim (· ▸ h) id⟩
  · exact AList.mem_insert _

/-- The definitions seen after the operations `done`. -/
structure DefineInv (st : EffectState P) (done : List (Operation P)) : Prop where
  /-- Every defined code has an issuance entry. -/
  issued : ∀ c ∈ st.newAssetCodes, c ∈ st.newIssuanceNums
  /-- The defined codes are those of the `DefineAsset`s seen. -/
  defined : ∀ c, c ∈ st.newAssetCodes ↔ c ∈ done.filterMap Operation.definedCode
  /-- No code was defined twice. -/
  nodup : (done.filterMap Operation.definedCode).Nodup

theorem defineInv_init : DefineInv (EffectState.init : EffectState P) [] where
  issued c h := absurd h (AList.not_mem_empty c)
  defined c := by simp [EffectState.init, AList.not_mem_empty]
  nodup := List.nodup_nil

theorem DefineInv.step {st st' : EffectState P} {done : List (Operation P)} {op : Operation P}
    (hI : DefineInv st done) (h : effectStep V st op = .ok st') : DefineInv st' (done ++ [op]) := by
  rw [effectStep_eq_ok] at h
  obtain ⟨-, h⟩ := h
  cases op with
  | defineAsset d =>
    obtain ⟨-, h₁, h₂, rfl⟩ := defineAssetStep_eq_ok.1 h
    refine ⟨fun c hc => ?_, fun c => ?_, ?_⟩
    · rcases (AList.mem_insert _).1 hc with rfl | hc
      · exact (AList.mem_insert _).2 (.inl rfl)
      · exact (AList.mem_insert _).2 (.inr (hI.issued c hc))
    · simp [AList.mem_insert, hI.defined, Operation.definedCode, or_comm]
    · simpa [Operation.definedCode, List.nodup_append, ← hI.defined] using ⟨hI.nodup, h₁⟩
  | issueAsset iss =>
    obtain ⟨-, -, -, rfl⟩ := issueAssetStep_eq_ok.1 h
    refine ⟨fun c hc => mem_ensure_replace.2 (.inr (hI.issued c hc)), fun c => ?_, ?_⟩
    · simpa [Operation.definedCode] using hI.defined c
    · simpa [Operation.definedCode] using hI.nodup
  | transferAsset trn =>
    obtain ⟨h₁, h₂⟩ := transferAssetStep_frame h
    refine ⟨fun c hc => ?_, fun c => ?_, ?_⟩
    · rw [h₁] at hc; rw [h₂]; exact hI.issued c hc
    · simpa [Operation.definedCode, h₁] using hI.defined c
    · simpa [Operation.definedCode] using hI.nodup

theorem computeEffect_defines {txn : Transaction P} {e : TxnEffect P}
    (h : computeEffect V txn = .ok e) :
    (∀ c ∈ e.newAssetCodes, c ∈ e.newIssuanceNums) ∧
      (txn.operations.filterMap Operation.definedCode).Nodup := by
  obtain ⟨st, hst, rfl⟩ := computeEffect_eq_ok.1 h
  have hI := foldlM_except_induction DefineInv (fun _ _ _ _ hI h => hI.step h)
    [] defineInv_init hst
  exact ⟨hI.issued, by simpa using hI.nodup⟩

/-- In an effect of `compute_effect`, enumerated in any order, every defined
    code has an issuance entry. -/
theorem TxnEffect.Computed.issued {e : TxnEffect P} (h : e.Computed V) :
    ∀ c ∈ e.newAssetCodes, c ∈ e.newIssuanceNums := by
  obtain ⟨e₀, h₀, -, -, ha, hn⟩ := h
  intro c hc
  exact (AList.mem_of_perm hn).2
    ((computeEffect_defines h₀).1 c ((AList.mem_of_perm ha).1 hc))

theorem TxnEffect.Computed.nodup {e : TxnEffect P} (h : e.Computed V) :
    (e.txn.operations.filterMap Operation.definedCode).Nodup := by
  obtain ⟨e₀, h₀, -⟩ := h
  exact (computeEffect_defines h₀).2

end LedgerStore
