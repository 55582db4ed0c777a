import MiniDregg.Control.Fallible
import MiniDregg.Text.JsonValue

/-!
# Records and reasons of the payment watcher

Keys and signatures are byte strings of fixed length, spelled in base 58 on the
chain's side. Whatever the watcher withholds carries a named reason; the module
follows `model.rs`.

## Implementation notes

The hexadecimal spellings and the JSON of observations and events are output
only, and nothing the watcher decides reads them back; they are left out.
-/

namespace MiniDregg.PayWatcher

open Text (Value)

/-! ## Keys and signatures -/

/-- A byte string of a fixed length. -/
abbrev FixedBytes (n : Nat) := {b : List UInt8 // b.length = n}

/-- `model::Key`. -/
abbrev Key := FixedBytes 32

/-- `model::Sig`. -/
abbrev Sig := FixedBytes 64

def base58Alphabet : List Char :=
  "123456789ABCDEFGHJKLMNPQRSTUVWXYZabcdefghijkmnopqrstuvwxyz"

/-- The digits of a base-58 text, or nothing when a character is none. -/
def base58Digits (text : String) : Option (List Nat) :=
  text.toList.mapM fun c => base58Alphabet.idxOf? c

/-- Base 58 to bytes: every leading `1` is a zero byte, the rest a big-endian number. -/
def unbase58Bytes (text : String) : Option (List UInt8) := do
  let ds ← base58Digits text
  let zeros := (ds.takeWhile (· == 0)).length
  pure (List.replicate zeros 0 ++
    (Nat.digits 256 (Nat.ofDigits 58 ds.reverse)).reverse.map UInt8.ofNat)

/-- `model::unbase58`. -/
def unbase58 (n : Nat) (text : String) : Option (FixedBytes n) :=
  match unbase58Bytes text with
  | none => none
  | some b => if h : b.length = n then some ⟨b, h⟩ else none

/-- `model::base58`. -/
def base58 (b : List UInt8) : String :=
  let zeros := (b.takeWhile (· == 0)).length
  String.ofList (List.replicate zeros '1' ++
    (Nat.digits 58 (Nat.ofDigits 256 (b.reverse.map UInt8.toNat))).reverse.map fun d =>
      base58Alphabet.getD d '1')

/-! ## Reasons -/

inductive Reason
  | transport
  | rpcError
  | malformedResponse
  | wrongTokenProgram
  | wrongMint
  | wrongTokenOwner
  | balanceEntriesDisagree
  | accountIndexOutOfRange
  | signatureMismatch
  | slotMismatch
  | prunedTransaction
  | endpointsDisagree
  | failedTransaction
  | zeroDelta
  | netDebit
  | alreadyRetained
  | duplicateSignature
  | noTokenAccount
  | pageBound
  | ignoredReceiptName
  | belowJournalFloor
  | memoUnbound
  | memoInvalid
  | cursorHeld
  deriving DecidableEq

structure Refusal where
  reason : Reason
  detail : String
  deriving DecidableEq

/-- `Refusal::malformed`. -/
def Refusal.malformed (detail : String) : Refusal := ⟨.malformedResponse, detail⟩

/-- What a reader of an RPC answer returns. -/
abbrev Answer (α : Type) := Except Refusal α

/-- `ok_or_else` with a malformed-response refusal. -/
def expect {α : Type} (x : Option α) (detail : String) : Answer α :=
  match x with
  | some a => .ok a
  | none => .error (.malformed detail)

@[simp] theorem expect_eq_ok {α : Type} {x : Option α} {detail : String} {a : α} :
    expect x detail = .ok a ↔ x = some a := by
  cases x <;> simp [expect]

def parseKey (raw what : String) : Answer Key :=
  expect (unbase58 32 raw) (what ++ " is not a 32-byte base58 key: " ++ raw)

def parseSig (raw what : String) : Answer Sig :=
  expect (unbase58 64 raw) (what ++ " is not a 64-byte base58 signature: " ++ raw)

structure Asset where
  mint : Key
  tokenProgram : Key
  deriving DecidableEq

end MiniDregg.PayWatcher
