import MiniDregg.PayWatcher.Model

/-!
# Decoding the RPC answers

The readers of `decode.rs`: the token accounts of an owner, a page of
signatures, and what one transaction added to the watched token accounts. Each
reader refuses, with a named reason, whatever it cannot attribute.

## Implementation notes

Amounts are `u64` and the sum of their differences is an `i128`; no answer
holds the `2^63` entries that could overflow it, so the sum is an integer.
-/

namespace MiniDregg.PayWatcher

open Fallible Refusal
open Text (Value)

/-- Highest transaction format decoded. -/
def maxSupportedTransactionVersion : Nat := 1

section
variable (result : Value)

/-- The version field: nothing for a legacy transaction. -/
def readVersion : Answer (Option Nat) :=
  match result.get "version" with
  | none => .ok none
  | some (.string name) =>
    if name = "legacy" then .ok none
    else .error (.malformed "unsupported transaction version")
  | some (.number n) => do
    let v ← expect ((Value.asU64 (.number n)).filter (· ≤ maxSupportedTransactionVersion))
      "unsupported transaction version"
    pure (some v)
  | some _ => .error (.malformed "unsupported transaction version")

def transactionConfigFields : List String :=
  ["computeUnitLimit", "heapSize", "loadedAccountsDataSizeLimit", "priorityFee"]

/-- A field that is null or an unsigned integer. -/
def isNullableInteger (fields : List (String × Value)) (name : String) : Bool :=
  match fields.lookup name with
  | some v => v.isNull || v.asU64.isSome
  | none => false

/-- The metadata of a version 1 transaction names no loaded address. -/
def checkNoLoaded : Answer Unit :=
  match (result.pointer ["meta", "loadedAddresses"]).filter fun v => !v.isNull with
  | none => .ok ()
  | some loaded => do
    let object ← expect loaded.asObject "v1 loadedAddresses must be absent or empty"
    refuseIf (decide (object.length ≠ 2) || ["writable", "readonly"].any fun field =>
        !(((object.lookup field).bind Value.asArray).elim false List.isEmpty))
      (malformed "v1 cannot contain loaded addresses")

/-- The shape of a version 1 message. -/
def checkVersionOne (message : List (String × Value)) : Answer Unit := do
  let config ← expect ((message.lookup "transactionConfig").bind Value.asObject)
    "v1 transactionConfig must be an object"
  refuseIf (decide (config.length ≠ transactionConfigFields.length) ||
      transactionConfigFields.any fun field => !isNullableInteger config field)
    (malformed "v1 transactionConfig requires four nullable integer fields")
  refuseIf (message.lookup "addressTableLookups").isSome
    (malformed "v1 omits addressTableLookups")
  let keys ← expect ((message.lookup "accountKeys").bind Value.asArray)
    "v1 accountKeys must be a parsed array"
  refuseIf (keys.any fun key => decide ((key.get "source").bind Value.asStr ≠ some "transaction"))
    (malformed "v1 account key must come from the transaction")
  checkNoLoaded result

/-- `transaction_version`. -/
def transactionVersion : Answer Unit := do
  let version ← readVersion result
  let message ← expect ((result.pointer ["transaction", "message"]).bind Value.asObject)
    "transaction message is not an object"
  if version = some 1 then checkVersionOne result message
  else
    refuseIf (message.lookup "transactionConfig").isSome
      (malformed "transactionConfig is only valid for v1")

/-- `decode::wrong`. -/
def wrong (reason : Reason) (what : String) (got want : Key) : Refusal :=
  ⟨reason, what ++ ": got " ++ base58 got.1 ++ ", configured " ++ base58 want.1⟩

/-- A required string field read as a key. -/
def keyField (v : Option Value) (missing what : String) : Answer Key := do
  let raw ← expect (v.bind Value.asStr) missing
  parseKey raw what

/-- Whether an `err` field reports a failure. -/
def reportsError (v : Value) : Bool := !((v.get "err").elim true Value.isNull)

/-! ## Transactions -/

inductive TxOutcome
  | pruned
  | failed
  | landed (slot blockTime : Nat) (delta : Int)
  deriving DecidableEq

structure TokenBalanceEntry where
  mint : Key
  owner : Key
  programId : Key
  amount : Nat
  deriving DecidableEq

/-- An entry of the account key list: a text, or an object with a `pubkey`. -/
def accountKey (key : Value) : Answer Key := do
  let raw ← expect (key.asStr <|> (key.get "pubkey").bind Value.asStr)
    "account key entry has no pubkey"
  parseKey raw "account key"

/-- The addresses loaded through lookup tables under one field. -/
def loadedKeys (field : String) : Answer (List Key) :=
  match (result.pointer ["meta", "loadedAddresses", field]).bind Value.asArray with
  | none => .ok []
  | some loaded => loaded.mapM fun key => do
    let raw ← expect key.asStr ("loadedAddresses." ++ field ++ " entry not a string")
    parseKey raw "loaded address"

/-- `account_keys`: the keys in `accountIndex` order. -/
def accountKeys : Answer (List Key) := do
  let listed ← expect
    ((result.pointer ["transaction", "message", "accountKeys"]).bind Value.asArray)
    "getTransaction missing `transaction.message.accountKeys`"
  let keys ← listed.mapM accountKey
  let writable ← loadedKeys result "writable"
  let readonly ← loadedKeys result "readonly"
  pure (keys ++ writable ++ readonly)

end

/-- A numeral without its plus sign. -/
def unsigned : Text → Text
  | '+' :: ds => ds
  | ds => ds

/-- The text of `ParseIntError` for an unsigned 64-bit number that does not parse. -/
def parseIntError (raw : Text) : String :=
  if raw = [] then "cannot parse integer from empty string"
  else match Text.readNat (unsigned raw) with
    | some _ => "number too large to fit in target type"
    | none => "invalid digit found in string"

/-- `str::parse::<u64>`: digits behind an optional plus sign. -/
def parseU64 (raw : Text) : Option Nat :=
  (Text.readNat (unsigned raw)).filter (· < 2 ^ 64)

def balanceField (entry : Value) (what name : String) : Answer Key :=
  keyField (entry.get name)
    (what ++ " entry missing `" ++ name ++ "`: this RPC cannot attribute a transfer")
    (what ++ " `" ++ name ++ "`")

def balanceAmount (entry : Value) (what : String) : Answer Nat := do
  let raw ← expect ((entry.pointer ["uiTokenAmount", "amount"]).bind Value.asStr)
    (what ++ " entry missing `uiTokenAmount.amount`")
  expect (parseU64 raw.toList) (what ++ " amount not a u64: " ++ parseIntError raw.toList)

/-- One round of the loop of `balances`. -/
def balanceEntry (keys : List Key) (what : String) (out : List (Nat × TokenBalanceEntry))
    (entry : Value) : Answer (List (Nat × TokenBalanceEntry)) := do
  let index ← expect ((entry.get "accountIndex").bind Value.asU64)
    (what ++ " entry missing `accountIndex`")
  refuseIf (decide (index ≥ keys.length)) ⟨.accountIndexOutOfRange,
    what ++ " accountIndex " ++ toString index ++ " out of range for " ++ toString keys.length ++
      " account keys"⟩
  refuseIf (out.any fun e => e.1 == index)
    (malformed (what ++ " lists accountIndex " ++ toString index ++ " twice"))
  let mint ← balanceField entry what "mint"
  let owner ← balanceField entry what "owner"
  let programId ← balanceField entry what "programId"
  let amount ← balanceAmount entry what
  pure (out ++ [(index, ⟨mint, owner, programId, amount⟩)])

/-- `balances`: every entry of a balance list, each index in range and once. -/
def balances (list : Option Value) (keys : List Key) (what : String) :
    Answer (List (Nat × TokenBalanceEntry)) :=
  match list.filter fun l => !l.isNull with
  | none => .ok []
  | some list => do
    let entries ← expect list.asArray (what ++ " not an array")
    entries.foldlM (balanceEntry keys what) []

/-- The closure `at`: the entry of an account index. -/
def entryAt (list : List (Nat × TokenBalanceEntry)) (index : Nat) : Option TokenBalanceEntry :=
  (list.find? fun e => e.1 == index).map Prod.snd

/-- The amount of the PRE entry, which must agree with the POST entry. -/
def preAmount (account : Key) (pre : Option TokenBalanceEntry) (post : TokenBalanceEntry) :
    Answer Nat :=
  match pre with
  | none => .ok 0
  | some p =>
    if p.mint ≠ post.mint ∨ p.owner ≠ post.owner ∨ p.programId ≠ post.programId then
      .error ⟨.balanceEntriesDisagree,
        "PRE and POST token balances disagree about account " ++ base58 account.1⟩
    else .ok p.amount

/-- `account_delta`. -/
def accountDelta (keys : List Key) (pre post : List (Nat × TokenBalanceEntry)) (asset : Asset)
    (owner account : Key) : Answer Int :=
  match keys.idxOf? account with
  | none => .ok 0
  | some index =>
    match entryAt post index with
    | none => .ok 0
    | some post => do
      refuseIf (decide (post.programId ≠ asset.tokenProgram))
        (wrong .wrongTokenProgram "POST balance programId" post.programId asset.tokenProgram)
      refuseIf (decide (post.mint ≠ asset.mint))
        (wrong .wrongMint "POST balance mint" post.mint asset.mint)
      refuseIf (decide (post.owner ≠ owner))
        (wrong .wrongTokenOwner "POST balance owner" post.owner owner)
      let before ← preAmount account (entryAt pre index) post
      pure ((post.amount : Int) - before)

/-- The part of `transaction_credit` behind the checks of signature, slot and failure. -/
def landedCredit (result txMeta : Value) (slot : Nat) (accounts : List Key) (asset : Asset)
    (owner : Key) : Answer TxOutcome := do
  let blockTime ← expect ((result.get "blockTime").bind Value.asU64)
    "getTransaction missing `blockTime`"
  let keys ← accountKeys result
  let pre ← balances (txMeta.get "preTokenBalances") keys "preTokenBalances"
  let post ← balances (txMeta.get "postTokenBalances") keys "postTokenBalances"
  let deltas ← accounts.mapM (accountDelta keys pre post asset owner)
  pure (.landed slot blockTime deltas.sum)

/-- `transaction_credit`. -/
def transactionCredit (result : Value) (signature : Sig) (listSlot : Nat) (accounts : List Key)
    (asset : Asset) (owner : Key) : Answer TxOutcome :=
  if result.isNull then .ok .pruned
  else do
    transactionVersion result
    let first ← expect ((result.pointer ["transaction", "signatures", "0"]).bind Value.asStr)
      "getTransaction missing `transaction.signatures[0]`"
    let found ← parseSig first "transaction signature"
    refuseIf (decide (found ≠ signature))
      ⟨.signatureMismatch, "asked for one transaction, got " ++ first⟩
    let slot ← expect ((result.get "slot").bind Value.asU64) "getTransaction missing `slot`"
    refuseIf (decide (slot ≠ listSlot)) ⟨.slotMismatch,
      "signature list says slot " ++ toString listSlot ++ ", transaction says " ++ toString slot⟩
    let txMeta ← expect (result.get "meta") "getTransaction result missing `meta`"
    if reportsError txMeta then pure .failed
    else landedCredit result txMeta slot accounts asset owner

end MiniDregg.PayWatcher
