import MiniDregg.PayWatcher.Decode

/-!
# The net change of a transaction

The credit of a transaction against the change of the watched balances it
reports. An account that is absent from a balance list holds nothing on that
side of the transaction; the reader of one account answers zero as soon as the
account is absent from the POST list, whatever the PRE list says about it.
-/

namespace MiniDregg.PayWatcher

open Fallible List
open Text (Value)

/-- The key list and the two balance lists of a transaction, as its reader sees them. -/
structure Reads (result : Value) (keys : List Key) (pre post : List (Nat × TokenBalanceEntry)) :
    Prop where
  keys_eq : accountKeys result = .ok keys
  pre_eq : balances ((result.get "meta").bind (Value.get "preTokenBalances")) keys
    "preTokenBalances" = .ok pre
  post_eq : balances ((result.get "meta").bind (Value.get "postTokenBalances")) keys
    "postTokenBalances" = .ok post

section
variable (keys : List Key)

/-- The entry of an account in a balance list. -/
def entryOf (list : List (Nat × TokenBalanceEntry)) (account : Key) :
    Option TokenBalanceEntry :=
  (keys.idxOf? account).bind (entryAt list)

/-- The balance of an account in a balance list, zero when it is absent. -/
def balanceOf (list : List (Nat × TokenBalanceEntry)) (account : Key) : Nat :=
  (entryOf keys list account).elim 0 TokenBalanceEntry.amount

variable (pre post : List (Nat × TokenBalanceEntry))

/-- The change of the balances of the accounts, summed. -/
def netChange (accounts : List Key) : Int :=
  (accounts.map fun a => (balanceOf keys post a : Int) - balanceOf keys pre a).sum

/-- What an account held when the transaction closed it: its PRE balance, counted
only when the account is absent from the POST list. -/
def closedBalance (account : Key) :
    Nat :=
  if (entryOf keys post account).isNone then balanceOf keys pre account else 0

end

variable {owner : Key} {accounts : List Key}

section Delta
variable {keys : List Key} {pre post : List (Nat × TokenBalanceEntry)} {asset : Asset}

/-- The reader of one account forgets the balance of a closed account. -/
theorem accountDelta_eq {account : Key} {d : Int}
    (h : accountDelta keys pre post asset owner account = .ok d) :
    d = (balanceOf keys post account : Int) - balanceOf keys pre account +
      closedBalance keys pre post account := by
  unfold accountDelta at h
  unfold closedBalance balanceOf entryOf
  cases hi : keys.idxOf? account with
  | none =>
    rw [hi] at h
    cases h
    simp
  | some index =>
    rw [hi] at h
    dsimp only at h
    cases hpost : entryAt post index with
    | none =>
      rw [hpost] at h
      cases h
      simp [hpost]
    | some entry =>
      rw [hpost] at h
      simp only [bind_eq_ok, refuseIf_eq_ok, pure_inj] at h
      obtain ⟨-, -, -, -, -, -, before, hbefore, rfl⟩ := h
      cases hpre : entryAt pre index with
      | none =>
        rw [hpre] at hbefore
        cases hbefore
        simp [hpost, hpre]
      | some p =>
        rw [hpre] at hbefore
        simp only [preAmount] at hbefore
        split at hbefore
        · cases hbefore
        · cases hbefore
          simp [hpost, hpre]

theorem deltas_sum_eq {ds : List Int}
    (h : accounts.mapM (accountDelta keys pre post asset owner) = .ok ds) :
    ds.sum = netChange keys pre post accounts +
      ((accounts.map (closedBalance keys pre post)).sum : Nat) := by
  induction accounts generalizing ds with
  | nil =>
    cases h
    rfl
  | cons a accounts ih =>
    rw [mapM_cons] at h
    simp only [bind_eq_ok, pure_inj] at h
    obtain ⟨d, hd, ds', hds, rfl⟩ := h
    have hhead := accountDelta_eq hd
    have htail := ih hds
    simp only [netChange, map_cons, sum_cons, Nat.cast_add] at htail ⊢
    omega

end Delta

section Credit
variable {result : Value} {signature : Sig} {listSlot : Nat} {asset : Asset} {slot blockTime : Nat}
    {delta : Int}

/-- A landed transaction was read from its lists, account by account. -/
theorem transactionCredit_landed
    (h : transactionCredit result signature listSlot accounts asset owner =
      .ok (.landed slot blockTime delta)) :
    ∃ keys pre post ds, Reads result keys pre post ∧
      accounts.mapM (accountDelta keys pre post asset owner) = .ok ds ∧ delta = ds.sum := by
  unfold transactionCredit at h
  split at h
  · cases h
  · simp only [bind_eq_ok, expect_eq_ok, refuseIf_eq_ok] at h
    obtain ⟨-, -, first, -, found, -, -, -, slot', -, -, -, txMeta, hmeta, h⟩ := h
    split at h
    · cases h
    · simp only [landedCredit, bind_eq_ok, expect_eq_ok, pure_inj,
        TxOutcome.landed.injEq] at h
      obtain ⟨time, -, keys, hkeys, pre, hpre, post, hpost, ds, hds, -, -, rfl⟩ := h
      refine ⟨keys, pre, post, ds, ⟨hkeys, ?_, ?_⟩, hds, rfl⟩
      · rw [hmeta]
        exact hpre
      · rw [hmeta]
        exact hpost

/-- The credited delta is the change of the watched balances exactly when every
watched account that the transaction closed held nothing before it. -/
theorem transactionCredit_delta_iff
    (h : transactionCredit result signature listSlot accounts asset owner =
      .ok (.landed slot blockTime delta)) :
    ∃ keys pre post, Reads result keys pre post ∧
      (delta = netChange keys pre post accounts ↔
        ∀ a ∈ accounts, entryOf keys post a = none → balanceOf keys pre a = 0) := by
  obtain ⟨keys, pre, post, ds, hreads, hds, rfl⟩ := transactionCredit_landed h
  refine ⟨keys, pre, post, hreads, ?_⟩
  have hsum := deltas_sum_eq hds
  have hzero : (accounts.map (closedBalance keys pre post)).sum = 0 ↔
      ∀ a ∈ accounts, entryOf keys post a = none → balanceOf keys pre a = 0 := by
    simp only [List.sum_eq_zero_iff_forall_eq_nat, mem_map, forall_exists_index, and_imp,
      forall_apply_eq_imp_iff₂]
    refine forall₂_congr fun a _ => ?_
    unfold closedBalance
    cases entryOf keys post a <;> simp
  rw [← hzero]
  omega

end Credit

/-! ## A transaction that closes an account -/

namespace Sample

/-- The spelling of the key whose bytes are zero but for the last. -/
def spell (length : Nat) (last : Char) : String :=
  String.ofList (replicate (length - 1) '1' ++ [last])

/-- The key of that spelling. -/
def key (last : UInt8) : Key := ⟨replicate 31 0 ++ [last], by simp⟩

def signature : Sig := ⟨replicate 63 0 ++ [1], by simp⟩

def asset : Asset := ⟨key 3, key 4⟩

/-- A balance entry of the sample asset and owner. -/
def balance (index : UInt64) (amount : String) : Value :=
  .object [("accountIndex", .number (.posInt index)), ("mint", .string (spell 32 '4')),
    ("owner", .string (spell 32 '6')), ("programId", .string (spell 32 '5')),
    ("uiTokenAmount", .object [("amount", .string amount)])]

/-- A legacy transaction over the accounts 1 and 2 with the given balance lists. -/
def transaction (pre post : List Value) : Value :=
  .object [("slot", .number (.posInt 7)), ("blockTime", .number (.posInt 9)),
    ("transaction", .object [("signatures", .array [.string (spell 64 '2')]),
      ("message", .object [("accountKeys",
        .array [.string (spell 32 '2'), .string (spell 32 '3')])])]),
    ("meta", .object [("err", .null), ("preTokenBalances", .array pre),
      ("postTokenBalances", .array post)])]

/-- Ten units move from account 1 to account 2, and account 1 is closed. -/
def closing : Value := transaction [balance 0 "10", balance 1 "0"] [balance 1 "10"]

/-- Account 2 receives ten units and account 1 is untouched. -/
def deposit : Value :=
  transaction [balance 0 "10", balance 1 "0"] [balance 0 "10", balance 1 "10"]

def entry (amount : Nat) : TokenBalanceEntry := ⟨key 3, key 5, key 4, amount⟩

end Sample

open Sample in
set_option maxRecDepth 8000 in
/-- A payment into an account that stays open is credited with what it added. -/
theorem transactionCredit_deposit :
    ∃ keys pre post, Reads deposit keys pre post ∧
      ((10 : Int) = netChange keys pre post [key 1, key 2] ↔
        ∀ a ∈ [key 1, key 2], entryOf keys post a = none → balanceOf keys pre a = 0) :=
  transactionCredit_delta_iff
    (show transactionCredit deposit signature 7 [key 1, key 2] asset (key 5) =
      .ok (.landed 7 9 10) by decide)

open Sample in
set_option maxRecDepth 8000 in
/-- Moving everything to an own account and closing the old one is credited. -/
theorem transactionCredit_closing :
    transactionCredit closing signature 7 [key 1, key 2] asset (key 5) = .ok (.landed 7 9 10) ∧
      ∃ keys pre post, Reads closing keys pre post ∧
        netChange keys pre post [key 1, key 2] = 0 := by
  refine ⟨by decide, [key 1, key 2], [(0, entry 10), (1, entry 0)], [(1, entry 10)], ?_, by decide⟩
  exact ⟨by decide, by decide, by decide⟩

end MiniDregg.PayWatcher
