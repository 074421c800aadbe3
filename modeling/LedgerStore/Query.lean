/-
  The query server's handlers that compute on their request
  (`query_api/mod.rs`); the server's own lookups, whose sources are not in
  the repository, are their parameters.

  * `get_coinbase_oper_list` and `get_claim_txns` share `pagedList`: they
    ask the server for the entries `start..end` of a page of a
    `WalletQueryParams`, computed with `checked_mul` and `checked_add` on
    `usize` (64 bits here).  `pagedList_eq`: page `0` answers empty;
    otherwise the server is asked for `(page - 1) * per_page` up to
    `page * per_page`, and the answer is `BadRequest` exactly when
    `page * per_page` exceeds `usize::MAX`;
  * `get_owner_memo_batch` splits its argument at `,` and reads each piece
    with `u64::from_str` (`parseU64`, after `core`'s `from_str_radix`).
    `getOwnerMemoBatch_eq_some`: it answers exactly when every piece is an
    id written in decimal (`DecimalOf`), with the memos of those ids;
    `getOwnerMemoBatch_intercalate`: ids printed in decimal and joined by
    `,` read back as themselves.
-/
import Mathlib.Data.List.Forall2
import Mathlib.Data.Nat.Digits
import Mathlib.Data.String.Basic

namespace LedgerStore

/-! ## Checked arithmetic -/

/-- `usize::checked_mul` on a 64-bit target. -/
def checkedMul (a b : UInt64) : Option UInt64 :=
  if a.toNat * b.toNat < UInt64.size then some (a * b) else none

/-- `usize::checked_add` on a 64-bit target. -/
def checkedAdd (a b : UInt64) : Option UInt64 :=
  if a.toNat + b.toNat < UInt64.size then some (a + b) else none

theorem toNat_sub_one {a : UInt64} (h : a ≠ 0) : (a - 1).toNat = a.toNat - 1 :=
  UInt64.toNat_sub_of_le _ _ (Nat.one_le_iff_ne_zero.2 fun h' => h (@UInt64.toNat.inj a 0 h'))

theorem eq_ofNat_of_toNat {a : UInt64} {n : Nat} (h : a.toNat = n) (hn : n < UInt64.size) :
    a = .ofNat n :=
  UInt64.toNat.inj (h.trans (UInt64.toNat_ofNat_of_lt hn).symm)

theorem ofNat_toNat (a : UInt64) : UInt64.ofNat a.toNat = a :=
  (eq_ofNat_of_toNat rfl a.toNat_lt_size).symm

/-- `checked_mul` answers the product exactly when it fits. -/
theorem checkedMul_eq (a b : UInt64) :
    checkedMul a b =
      if a.toNat * b.toNat < UInt64.size then some (.ofNat (a.toNat * b.toNat)) else none := by
  unfold checkedMul
  split_ifs with h
  · exact congrArg some (eq_ofNat_of_toNat ((BitVec.toNat_mul _ _).trans (Nat.mod_eq_of_lt h)) h)
  · rfl

/-- `checked_add` answers the sum exactly when it fits. -/
theorem checkedAdd_eq (a b : UInt64) :
    checkedAdd a b =
      if a.toNat + b.toNat < UInt64.size then some (.ofNat (a.toNat + b.toNat)) else none := by
  unfold checkedAdd
  split_ifs with h
  · exact congrArg some (eq_ofNat_of_toNat ((BitVec.toNat_add _ _).trans (Nat.mod_eq_of_lt h)) h)
  · rfl

/-! ## Pages -/

/-- `WalletQueryParams`, the order as whether it is `OrderOption::Desc`. -/
structure WalletQueryParams where
  address : String
  page : UInt64
  perPage : UInt64
  desc : Bool

/-- The body of the paged handlers: the address must be a key
    (`public_key_from_base64`, `parseKey`); page `0` answers `empty`; then
    `start = (page - 1) * per_page` and `end = start + per_page`, checked,
    go to the server (`fetch`).  `none` is `ErrorBadRequest`. -/
def pagedList {K α : Type} (parseKey : String → Option K)
    (fetch : K → UInt64 → UInt64 → Bool → Option α) (empty : α) (info : WalletQueryParams) :
    Option α := do
  let key ← parseKey info.address
  if info.page = 0 then return empty
  let start ← checkedMul (info.page - 1) info.perPage
  let stop ← checkedAdd start info.perPage
  fetch key start stop info.desc

/-- `get_coinbase_oper_list`: page `0` answers a total count of `0` and no
    entries; `getCoinbaseEntries` is the server's `get_coinbase_entries`,
    its answer shaped into a `CoinbaseOperInfo`. -/
def getCoinbaseOperList {K α : Type} (parseKey : String → Option K)
    (getCoinbaseEntries : K → UInt64 → UInt64 → Bool → Option (UInt64 × List α))
    (info : WalletQueryParams) : Option (UInt64 × List α) :=
  pagedList parseKey getCoinbaseEntries (0, []) info

/-- `get_claim_txns`: page `0` answers no transactions;
    `getClaimTransactions` is the server's `get_claim_transactions`. -/
def getClaimTxns {K α : Type} (parseKey : String → Option K)
    (getClaimTransactions : K → UInt64 → UInt64 → Bool → Option (List α))
    (info : WalletQueryParams) : Option (List α) :=
  pagedList parseKey getClaimTransactions [] info

/-- Page `p` ends `per_page` after it starts. -/
theorem pred_mul_add_self (p q : Nat) (hp : p ≠ 0) : (p - 1) * q + q = p * q := by
  rw [← Nat.add_one_mul, Nat.sub_one_add_one hp]

/-- **Paging.**  For every address that is a key and every `page` and
    `per_page`: page `0` answers empty; otherwise the server is asked for
    the entries from `(page - 1) * per_page` to `page * per_page`, unless
    `page * per_page` exceeds `usize::MAX`, when the answer is
    `BadRequest`.  So pages `1, 2, ...` ask for adjacent ranges, and the
    first check (`checked_mul`) never fails where the second passes. -/
theorem pagedList_eq {K α : Type} (parseKey : String → Option K)
    (fetch : K → UInt64 → UInt64 → Bool → Option α) (empty : α) (info : WalletQueryParams) {k : K}
    (hk : parseKey info.address = some k) :
    pagedList parseKey fetch empty info =
      if info.page = 0 then some empty
      else if info.page.toNat * info.perPage.toNat < UInt64.size then
        fetch k (UInt64.ofNat ((info.page.toNat - 1) * info.perPage.toNat))
          (UInt64.ofNat (info.page.toNat * info.perPage.toNat)) info.desc
      else none := by
  simp only [pagedList, hk, Option.bind_eq_bind, Option.some_bind]
  by_cases h0 : info.page = 0
  · simp only [h0, if_true]
    rfl
  have hpage := pred_mul_add_self info.page.toNat info.perPage.toNat
    fun h => h0 (@UInt64.toNat.inj _ 0 h)
  rw [if_neg h0, if_neg h0, checkedMul_eq, toNat_sub_one h0]
  by_cases hstart : (info.page.toNat - 1) * info.perPage.toNat < UInt64.size
  · rw [if_pos hstart, Option.some_bind, checkedAdd_eq, UInt64.toNat_ofNat_of_lt hstart, hpage]
    split_ifs <;> rfl
  · rw [if_neg hstart, if_neg (by omega)]
    rfl

theorem getClaimTxns_thirdPage :
    getClaimTxns (fun a => some a) (fun _ start stop _ => some [start, stop])
      ⟨"addr", 3, 10, true⟩ = some [20, 30] :=
  (pagedList_eq _ _ _ _ rfl).trans (by decide)

/-! ## Owner memos in a batch -/

/-- `char::to_digit(10)`. -/
def toDigit (c : Char) : Option Nat :=
  if c.isDigit then some (c.toNat - '0'.toNat) else none

/-- One turn of the loop of `u64::from_str_radix` (in `core`) with radix
    `10`: the character's digit, then `checked_mul` by the radix and
    `checked_add` of the digit. -/
def fromStrStep (acc : UInt64) (c : Char) : Option UInt64 := do
  let x ← toDigit c
  let acc ← checkedMul acc 10
  checkedAdd acc (.ofNat x)

/-- The loop of `u64::from_str_radix` over the digits, from `acc`. -/
def fromStrDigits (acc : UInt64) (ds : List Char) : Option UInt64 :=
  ds.foldlM fromStrStep acc

/-- `u64::from_str`: an empty string, or a sign alone, is an error; a
    leading `+` is dropped, and the rest is read from `0`. -/
def parseU64 (s : String) : Option UInt64 :=
  match s.data with
  | [] => none
  | ['+'] | ['-'] => none
  | '+' :: ds => fromStrDigits 0 ds
  | ds => fromStrDigits 0 ds

/-- `get_owner_memo_batch`: the ids in `info` separated by `,`, each read by
    `u64::from_str`, the first that is not an id answering `BadRequest`
    (`none`); then the server's `get_owner_memo` of each id. -/
def getOwnerMemoBatch {Memo : Type} (getOwnerMemo : UInt64 → Option Memo) (info : String) :
    Option (List (Option Memo)) := do
  let ids ← (info.split (· == ',')).mapM parseU64
  pure (ids.map getOwnerMemo)

/-- The value of the decimal digits `ds` read after `acc`. -/
def decimalValue (acc : Nat) (ds : List Char) : Nat :=
  ds.foldl (fun a c => a * 10 + (c.toNat - '0'.toNat)) acc

@[simp] theorem decimalValue_nil (acc : Nat) : decimalValue acc [] = acc := rfl

@[simp] theorem decimalValue_cons (acc : Nat) (c : Char) (ds : List Char) :
    decimalValue acc (c :: ds) = decimalValue (acc * 10 + (c.toNat - '0'.toNat)) ds := rfl

theorem le_decimalValue (acc : Nat) (ds : List Char) : acc ≤ decimalValue acc ds := by
  induction ds generalizing acc with
  | nil => exact Nat.le_refl acc
  | cons c ds ih =>
    have := ih (acc * 10 + (c.toNat - '0'.toNat))
    rw [decimalValue_cons]
    omega

/-- The characters of an id after an optional leading `+`. -/
def unsigned : List Char → List Char
  | '+' :: ds => ds
  | ds => ds

/-- `piece` writes `n` in decimal as an id may be written: an optional `+`,
    then one or more digits, of value `n`. -/
def DecimalOf (piece : String) (n : UInt64) : Prop :=
  unsigned piece.data ≠ [] ∧ (∀ c ∈ unsigned piece.data, c.isDigit) ∧
    decimalValue 0 (unsigned piece.data) = n.toNat

instance (piece : String) (n : UInt64) : Decidable (DecimalOf piece n) :=
  inferInstanceAs (Decidable (_ ∧ _ ∧ _))

/-! ### Reading an id -/

theorem digit_lt {c : Char} (hc : c.isDigit) : c.toNat - '0'.toNat < 10 := by
  simp only [Char.isDigit, Bool.and_eq_true, decide_eq_true_eq] at hc
  have h1 : 48 ≤ c.toNat := hc.1
  have h2 : c.toNat ≤ 57 := hc.2
  show c.toNat - 48 < 10
  omega

/-- One turn reads a digit exactly when the new value fits. -/
theorem fromStrStep_eq (acc : UInt64) (c : Char) :
    fromStrStep acc c =
      if c.isDigit ∧ acc.toNat * 10 + (c.toNat - '0'.toNat) < UInt64.size then
        some (.ofNat (acc.toNat * 10 + (c.toNat - '0'.toNat))) else none := by
  by_cases hc : c.isDigit
  · have hd : (UInt64.ofNat (c.toNat - '0'.toNat)).toNat = c.toNat - '0'.toNat :=
      UInt64.toNat_ofNat_of_lt ((digit_lt hc).trans (by decide))
    simp only [fromStrStep, toDigit, hc, if_true, Option.bind_eq_bind, Option.some_bind, checkedMul_eq]
    by_cases hm : acc.toNat * 10 < UInt64.size
    · rw [show (10 : UInt64).toNat = 10 from rfl, if_pos hm, Option.some_bind, checkedAdd_eq,
        UInt64.toNat_ofNat_of_lt hm, hd]
      simp
    · rw [show (10 : UInt64).toNat = 10 from rfl, if_neg hm, if_neg (by omega)]
      rfl
  · simp [fromStrStep, toDigit, hc]

/-- The loop reads the value of `ds` exactly when every character is a
    digit and no prefix's value overflows, which is when the whole value
    fits. -/
theorem fromStrDigits_eq (acc : UInt64) (ds : List Char) :
    fromStrDigits acc ds =
      if (∀ c ∈ ds, c.isDigit) ∧ decimalValue acc.toNat ds < UInt64.size then
        some (.ofNat (decimalValue acc.toNat ds)) else none := by
  induction ds generalizing acc with
  | nil => simp [fromStrDigits, ofNat_toNat, acc.toNat_lt_size]
  | cons c ds ih =>
    rw [fromStrDigits, List.foldlM_cons, fromStrStep_eq]
    by_cases hs : c.isDigit ∧ acc.toNat * 10 + (c.toNat - '0'.toNat) < UInt64.size
    · -- the digit fits: the loop goes on from the new value
      rw [if_pos hs, Option.bind_eq_bind, Option.some_bind, ← fromStrDigits, ih,
        UInt64.toNat_ofNat_of_lt hs.2]
      simp only [List.forall_mem_cons, hs.1, true_and, decimalValue_cons]
    · -- a non-digit, or an overflow, which the whole value keeps
      rw [if_neg hs, if_neg fun h =>
        hs ⟨h.1 c (.head _), (le_decimalValue _ ds).trans_lt h.2⟩]
      rfl

theorem unsigned_eq_self {l : List Char} (h : ∀ ds, l ≠ '+' :: ds) : unsigned l = l := by
  unfold unsigned
  split
  · exact absurd rfl (h _)
  · rfl

/-- `u64::from_str` drops an optional `+`, and reads the rest if there is
    any. -/
theorem parseU64_eq (s : String) :
    parseU64 s = if unsigned s.data = [] then none else fromStrDigits 0 (unsigned s.data) := by
  unfold parseU64
  split <;> rename_i h
  · rw [h]; rfl
  · rw [h]; rfl
  · rw [h]; rfl
  · rw [h, unsigned, if_neg ‹_›]
  · rw [unsigned_eq_self h, if_neg ‹_›]

theorem parseU64_eq_some {s : String} {n : UInt64} : parseU64 s = some n ↔ DecimalOf s n := by
  rw [parseU64_eq, DecimalOf]
  split_ifs with hne
  · simp [hne]
  · rw [fromStrDigits_eq, UInt64.toNat_zero]
    split_ifs with hd
    · have hv := UInt64.toNat_ofNat_of_lt hd.2
      rw [Option.some_inj]
      exact ⟨fun h => ⟨hne, hd.1, hv.symm.trans (congrArg _ h)⟩,
        fun h => UInt64.toNat.inj (hv.trans h.2.2)⟩
    · exact ⟨nofun, fun ⟨_, hall, hv⟩ => hd ⟨hall, hv ▸ n.toNat_lt_size⟩⟩

/-! ### What a batch accepts -/

theorem mapM_eq_some_iff {α β : Type} {f : α → Option β} {l : List α} {r : List β} :
    l.mapM f = some r ↔ List.Forall₂ (fun a b => f a = some b) l r := by
  induction l generalizing r with
  | nil =>
    rw [List.mapM_nil]
    cases r
    · exact ⟨fun _ => .nil, fun _ => rfl⟩
    · exact ⟨nofun, nofun⟩
  | cons a l ih =>
    rw [List.mapM_cons]
    cases hfa : f a with
    | none => exact ⟨nofun, fun h => by cases h; simp_all⟩
    | some b =>
      cases hl : l.mapM f with
      | none =>
        refine ⟨nofun, fun h => ?_⟩
        cases h with
        | cons _ h => exact absurd (ih.2 h) (by rw [hl]; exact nofun)
      | some xs =>
        refine ⟨fun h => ?_, fun h => ?_⟩
        · cases h
          exact .cons hfa (ih.1 hl)
        · cases h with
          | cons hb h =>
            rw [hfa] at hb
            cases hb
            rw [ih.2 h] at hl
            cases hl
            rfl

/-- **What a batch accepts.**  `get_owner_memo_batch` answers exactly when
    every piece of `info` between commas writes an id in decimal (an
    optional `+`, then one or more digits, of a value that fits in a
    `u64`), and it then answers the memos of those ids in order.  An empty
    piece (an empty request, a doubled or a trailing comma), a space, a `-`
    or an id past `u64::MAX` answers `BadRequest`. -/
theorem getOwnerMemoBatch_eq_some {Memo : Type} (getOwnerMemo : UInt64 → Option Memo)
    {info : String} {r : List (Option Memo)} :
    getOwnerMemoBatch getOwnerMemo info = some r ↔
      ∃ ids, List.Forall₂ DecimalOf (info.split (· == ',')) ids ∧ r = ids.map getOwnerMemo := by
  have hparse : (fun piece n => parseU64 piece = some n) = DecimalOf :=
    funext fun _ => funext fun _ => propext parseU64_eq_some
  simp only [getOwnerMemoBatch, Option.bind_eq_bind, Option.bind_eq_some, mapM_eq_some_iff, hparse]
  exact exists_congr fun _ => and_congr_right fun _ => Option.some_inj.trans eq_comm

/-! ### Writing ids -/

theorem digitChar_digit {k : Nat} (hk : k < 10) :
    (Nat.digitChar k).isDigit ∧ (Nat.digitChar k).toNat - '0'.toNat = k := by
  have h : ∀ k < 10, (Nat.digitChar k).isDigit ∧ (Nat.digitChar k).toNat - '0'.toNat = k := by
    decide
  exact h k hk

/-- `Nat.toDigitsCore` writes decimal digits before `ds`. -/
theorem isDigit_of_mem_toDigitsCore {f n : Nat} {ds : List Char} {c : Char}
    (h : c ∈ Nat.toDigitsCore 10 f n ds) : c.isDigit ∨ c ∈ ds := by
  induction f generalizing n ds with
  | zero => exact .inr h
  | succ f ih =>
    have hd : c = Nat.digitChar (n % 10) ∨ c ∈ ds → c.isDigit ∨ c ∈ ds := by
      rintro (rfl | h)
      · exact .inl (digitChar_digit (Nat.mod_lt n (by decide))).1
      · exact .inr h
    simp only [Nat.toDigitsCore] at h
    split at h
    · exact hd (List.mem_cons.1 h)
    · exact (ih h).elim .inl fun h => hd (List.mem_cons.1 h)

/-- With fuel beyond `n`, `Nat.toDigitsCore` writes the digits of `n`. -/
theorem decimalValue_toDigitsCore {f n : Nat} (ds : List Char) (hf : n < f) :
    decimalValue 0 (Nat.toDigitsCore 10 f n ds) = decimalValue n ds := by
  induction f generalizing n ds with
  | zero => exact absurd hf (Nat.not_lt_zero n)
  | succ f ih =>
    have hd := (digitChar_digit (Nat.mod_lt n (show 10 > 0 by decide))).2
    simp only [Nat.toDigitsCore]
    split
    · rw [decimalValue_cons, hd]
      congr 1
      omega
    · rw [ih _ (by omega), decimalValue_cons, hd, Nat.div_add_mod']

theorem toDigitsCore_ne_nil {f n : Nat} {ds : List Char} (h : 0 < f ∨ ds ≠ []) :
    Nat.toDigitsCore 10 f n ds ≠ [] := by
  induction f generalizing n ds with
  | zero => exact h.resolve_left (Nat.lt_irrefl 0)
  | succ f ih =>
    simp only [Nat.toDigitsCore]
    split
    · exact List.cons_ne_nil _ _
    · exact ih (.inr (List.cons_ne_nil _ _))

/-- A string of digits is read by the loop from `0`. -/
theorem parseU64_of_digits {s : String} (hne : s.data ≠ []) (hd : ∀ c ∈ s.data, c.isDigit) :
    parseU64 s = fromStrDigits 0 s.data := by
  have hu : unsigned s.data = s.data := unsigned_eq_self fun ds h =>
    absurd (hd '+' (by rw [h]; exact .head _)) (by decide)
  rw [parseU64_eq, hu, if_neg hne]

theorem toString_data (n : UInt64) :
    (toString n).data = Nat.toDigitsCore 10 (n.toNat + 1) n.toNat [] := rfl

/-- A `u64` is written in decimal digits only. -/
theorem isDigit_of_mem_toString {n : UInt64} {c : Char} (hc : c ∈ (toString n).data) :
    c.isDigit :=
  (isDigit_of_mem_toDigitsCore (toString_data n ▸ hc)).resolve_right (List.not_mem_nil c)

/-- `u64::from_str` reads back the decimal representation of every `u64`. -/
theorem parseU64_toString (n : UInt64) : parseU64 (toString n) = some n := by
  rw [parseU64_of_digits (toString_data n ▸ toDigitsCore_ne_nil (.inl (Nat.succ_pos _)))
    fun _ => isDigit_of_mem_toString, fromStrDigits_eq, toString_data, UInt64.toNat_zero,
    decimalValue_toDigitsCore _ (Nat.lt_succ_self _), decimalValue_nil,
    if_pos ⟨fun _ hc => isDigit_of_mem_toString (toString_data n ▸ hc), n.toNat_lt_size⟩, ofNat_toNat]

theorem intercalate_cons {α : Type} (sep a : List α) (l : List (List α)) :
    sep.intercalate (a :: l) = a ++ (l.map (sep ++ ·)).flatten := by
  induction l generalizing a with
  | nil => simp [List.intercalate]
  | cons b l ih =>
    have := ih b
    simp only [List.intercalate, List.intersperse_cons_cons, List.flatten_cons] at this ⊢
    simp [this]

theorem data_intercalateGo (acc sep : String) (l : List String) :
    (String.intercalate.go acc sep l).data = acc.data ++ (l.map fun s => sep.data ++ s.data).flatten := by
  induction l generalizing acc with
  | nil => simp [String.intercalate.go]
  | cons s l ih => simp [String.intercalate.go, ih, String.data_append]

theorem data_intercalate (sep : String) (l : List String) :
    (sep.intercalate l).data = sep.data.intercalate (l.map String.data) := by
  cases l with
  | nil => rfl
  | cons s l => simp [String.intercalate, data_intercalateGo, intercalate_cons, Function.comp_def]

/-- **Batches of owner memos.**  For every non-empty list of `u64` ids,
    written in decimal and joined by `,`, `get_owner_memo_batch` answers the
    memo of each id in order, as `get_owner_memo` does one at a time.  (The
    empty list joins to the empty string, which `u64::from_str` refuses.) -/
theorem getOwnerMemoBatch_intercalate {Memo : Type} (getOwnerMemo : UInt64 → Option Memo)
    {ids : List UInt64} (h : ids ≠ []) :
    getOwnerMemoBatch getOwnerMemo (",".intercalate (ids.map toString)) =
      some (ids.map getOwnerMemo) := by
  -- no digit is a `,`, so splitting the join gives the ids back
  have hsplit : (",".intercalate (ids.map toString)).split (· == ',') = ids.map toString := by
    rw [String.split_of_valid, data_intercalate, List.map_map,
      show List.splitOnP (· == ',') _ = List.splitOn ',' _ from rfl, List.splitOn_intercalate]
    · simp [Function.comp_def]
    · simp only [List.mem_map, Function.comp_apply]
      rintro _ ⟨n, -, rfl⟩ hc
      exact absurd (isDigit_of_mem_toString hc) (by decide)
    · simpa using h
  rw [getOwnerMemoBatch, hsplit, mapM_eq_some_iff.2 (List.forall₂_map_left_iff.2 (List.forall₂_same.2 fun n _ => parseU64_toString n))]
  rfl

theorem getOwnerMemoBatch_twoIds :
    getOwnerMemoBatch (fun n => some n) "7,42" = some [some 7, some 42] :=
  @getOwnerMemoBatch_intercalate _ (fun n => some n) [7, 42] (by decide)

end LedgerStore
