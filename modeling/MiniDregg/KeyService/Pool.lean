import Mathlib.Algebra.Group.Int.Defs
import Mathlib.Algebra.Group.Nat.Defs
import Mathlib.Order.Lattice
import MiniDregg.Control.Durable

/-!
# The pool's counters

One provider row of the operator's own key carries caps: output tokens per call, calls per
runner and day, a ceiling on the charged micro-USD, and each member's share of it. The
credential store keeps three records per row, each replaced as a whole file: the spend
since the operator's last reset, every member's spend, and every runner's calls of a day.
`poolGrant` checks the room, lets the ticket be minted, charges the spend and the member,
and counts the call, refunding what it charged when a later step refuses.

## Implementation notes

The provider lock is held from the first check to the last write, so grants of one row do
not interleave. Everything that can go wrong with a file, its size bound included, is a
fate of the operation on it.
-/

namespace MiniDregg.KeyService

open Fallible

/-- The text of a refusal that a caller may act on. -/
def refused (code : String) : String := "provider-refused:" ++ code

/-- The name of a provider row. -/
def providerName (value : String) : Result Unit :=
  let chars := value.toList
  refuseIf (chars.isEmpty || decide (32 < chars.length) ||
      !(chars.take 1).all (fun c => decide ('a' ≤ c ∧ c ≤ 'z')) ||
      !chars.all fun c => decide ('a' ≤ c ∧ c ≤ 'z') || c.isDigit || c == '-')
    "provider name must be [a-z][a-z0-9-]\x7b0,31\x7d"

/-- A row's spend ceiling and what one call is charged, in micro-USD, within the bounds that
the parser of the provider table checks. -/
structure SpendCap where
  ceiling : ℕ
  call : ℕ
  call_pos : 1 ≤ call
  call_le : call ≤ 1000000000
  call_le_ceiling : call ≤ ceiling
  ceiling_le : ceiling ≤ 1000000000000
  deriving DecidableEq

/-- One member's share of the ceiling. -/
structure MemberCap where
  day : ℕ
  total : ℕ
  day_le : day ≤ 1000000000000
  total_le : total ≤ 1000000000000
  deriving DecidableEq

/-- The caps of a pool row. -/
structure Caps where
  perCall : ℕ
  perDay : ℕ
  spend : Option SpendCap
  member : Option MemberCap
  deriving DecidableEq

/-- One member's charged share: `day` is the charge on day `dayIndex`. -/
structure MemberSpend where
  day : ℕ
  dayIndex : ℕ
  total : ℕ
  deriving DecidableEq

/-- One runner's calls of a day. -/
structure Usage where
  day : ℕ
  calls : ℕ
  deriving DecidableEq

/-- The records of the pool's rows, by the row's name. -/
structure Files where
  spend : String → Option ℕ
  members : String → String → Option MemberSpend
  usage : String → String → Option Usage

/-- The records before the first grant. -/
def Files.empty : Files := ⟨fun _ => none, fun _ _ => none, fun _ _ => none⟩

namespace Files

variable (f : Files)

def setSpend (provider : String) (spent : Option ℕ) : Files :=
  { f with spend := Function.update f.spend provider spent }

def setMember (provider member : String) (m : MemberSpend) : Files :=
  { f with
    members := Function.update f.members provider
      (Function.update (f.members provider) member (some m)) }

def setUsage (provider runner : String) (u : Usage) : Files :=
  { f with
    usage := Function.update f.usage provider
      (Function.update (f.usage provider) runner (some u)) }

end Files

/-- The source's `u64` addition that stops at the largest value. -/
def saturatingAdd (a b : ℕ) : ℕ := min (a + b) (2 ^ 64 - 1)

/-- The source's cast of a `u64` to an `i64`. -/
def asI64 (v : ℕ) : ℤ := if v < 2 ^ 63 then v else v - 2 ^ 64

/-- A counter after a charge, or after a refund when the charge is negative. -/
def applyDelta (delta : ℤ) (v : ℕ) : ℕ :=
  if 0 ≤ delta then saturatingAdd v delta.natAbs else v - delta.natAbs

/-- The charged spend since the operator's last reset. -/
def poolSpend (provider : String) : Durable Files ℕ := do
  Durable.lift (providerName provider)
  Durable.read fun f => (f.spend provider).getD 0

section
variable (provider member : String)

/-- A member's spend today and in total. -/
def poolMemberSpend (day : ℕ) : Durable Files (ℕ × ℕ) := do
  Durable.lift (providerName provider)
  Durable.read fun f =>
    match f.members provider member with
    | none => (0, 0)
    | some m => (if m.dayIndex = day then m.day else 0, m.total)

def memberRoom (call : ℕ) (limits : MemberCap) (day : ℕ) :
    Durable Files Unit := do
  let spent ← poolMemberSpend provider member day
  Durable.refuseIf (decide (limits.total < saturatingAdd spent.2 call))
    (refused "member-total-ceiling")
  Durable.refuseIf (decide (limits.day < saturatingAdd spent.1 call))
    (refused "member-day-ceiling")

/-- The entry a charge on `day` starts from. -/
def MemberSpend.onDay (m : Option MemberSpend) (day : ℕ) : MemberSpend :=
  match m with
  | none => ⟨0, day, 0⟩
  | some m => if m.dayIndex ≠ day then ⟨0, day, m.total⟩ else m

def chargeMember (delta : ℤ) (limits : MemberCap) (day : ℕ) :
    Durable Files Unit := do
  let found ← Durable.read fun f => f.members provider member
  let entry := MemberSpend.onDay found day
  let today := applyDelta delta entry.day
  let total := applyDelta delta entry.total
  Durable.refuseIf (decide (0 < delta ∧ limits.total < total)) (refused "member-total-ceiling")
  Durable.refuseIf (decide (0 < delta ∧ limits.day < today)) (refused "member-day-ceiling")
  Durable.write fun f => f.setMember provider member ⟨today, entry.dayIndex, total⟩

end

def chargeSpend (provider : String) (delta : ℤ) (ceiling : ℕ) : Durable Files Unit := do
  let before ← poolSpend provider
  let spent := applyDelta delta before
  Durable.refuseIf (decide (0 < delta ∧ ceiling < spent)) (refused "spend-ceiling")
  Durable.write fun f => f.setSpend provider (some spent)

/-- The operator's reset of the spend. -/
def resetPoolSpend (provider : String) : Durable Files ℕ := do
  let before ← poolSpend provider
  Durable.elsewhere -- the provider lock
  Durable.operation (fun f => if (f.spend provider).isSome then before else 0)
    fun f => f.setSpend provider none

def countCall (provider runner : String) (perDay day : ℕ) : Durable Files Unit := do
  Durable.elsewhere -- the usage lock
  let found ← Durable.read fun f => f.usage provider runner
  let last := found.getD ⟨day, 0⟩
  let calls := if last.day = day then last.calls else 0
  Durable.refuseIf (decide (perDay ≤ calls)) (refused "per-day-cap")
  Durable.write fun f => f.setUsage provider runner ⟨day, calls + 1⟩

/-- One call that a runner asks for, for a member and on a day. -/
structure Call where
  provider : String
  runner : String
  member : String
  maxTokens : Option ℕ
  day : ℕ

/-- The decimal subject a member is named by. -/
def isMember (member : String) : Bool :=
  member.toList.all Char.isDigit && !member.toList.isEmpty && decide (member.length ≤ 20)

/-- The checks before the ticket is minted. -/
def poolRoom (r : Call) (caps : Caps) : Durable Files Unit := do
  Durable.lift (providerName r.provider)
  Durable.elsewhere -- the credential directory and the key file are there
  Durable.elsewhere -- the provider lock
  Durable.refuseIf (match r.maxTokens with
    | none => true
    | some tokens => decide (caps.perCall < tokens)) (refused "per-call-cap")
  Durable.elsewhere -- the secret opens
  Durable.refuseIf (!isMember r.member) "pool member must be a decimal subject"
  match caps.spend with
  | none => pure ()
  | some s => do
    let spent ← poolSpend r.provider
    Durable.refuseIf (decide (s.ceiling < saturatingAdd spent s.call)) (refused "spend-ceiling")
    match caps.member with
    | none => pure ()
    | some limits => memberRoom r.provider r.member s.call limits r.day

/-- The charges before the call is counted: what the member was not charged is refunded. -/
def poolCharge (r : Call) (caps : Caps) : Durable Files Unit :=
  match caps.spend with
  | none => pure ()
  | some s => do
    chargeSpend r.provider (asI64 s.call) s.ceiling
    match caps.member with
    | none => pure ()
    | some limits => do
      match ← (chargeMember r.provider r.member (asI64 s.call) limits r.day).attempt with
      | .ok () => pure ()
      | .error e => do
        chargeSpend r.provider (-asI64 s.call) s.ceiling
        Durable.lift (.error e)

/-- What is given back when the call is not counted. -/
def poolRefund (r : Call) (caps : Caps) : Durable Files Unit :=
  match caps.spend with
  | none => pure ()
  | some s => do
    chargeSpend r.provider (-asI64 s.call) s.ceiling
    match caps.member with
    | none => pure ()
    | some limits => chargeMember r.provider r.member (-asI64 s.call) limits r.day

/-- The authorization of one pool call. Minting the ticket does not touch these records. -/
def poolGrant (r : Call) (caps : Caps) : Durable Files Unit := do
  poolRoom r caps
  Durable.elsewhere -- the ticket is minted
  poolCharge r caps
  match ← (countCall r.provider r.runner caps.perDay r.day).attempt with
  | .ok () => pure ()
  | .error e => do
    poolRefund r caps
    Durable.lift (.error e)

/-- What happens to the pool: a call is asked for, or the operator resets a row's spend, with
the fates of the operations. -/
inductive Event where
  | grant (r : Call) (fates : List Fate)
  | reset (provider : String) (fates : List Fate)

/-- The day of a call. -/
def Event.day? : Event → Option ℕ
  | .grant r _ => some r.day
  | .reset _ _ => none

/-- A call that was granted, with its charge, or a reset that took the spend record away. -/
inductive Entry where
  | granted (r : Call) (micro : ℕ)
  | reset (provider : String)

/-- The records and, newest first, what happened. -/
structure Books where
  files : Files
  history : List Entry

/-- The micro-USD of one call under a row's caps. -/
def Caps.micro (caps : Caps) : ℕ := (caps.spend.map SpendCap.call).getD 0

variable (table : String → Option Caps)

/-- One event on the records of the rows of a provider table. A process that died restarts
from the records. -/
def Books.step (b : Books) : Event → Books
  | .grant r fates =>
    match table r.provider with
    | none => b
    | some caps =>
      match poolGrant r caps b.files fates with
      | (.ok (), files, _) => ⟨files, .granted r caps.micro :: b.history⟩
      | (_, files, _) => { b with files }
  | .reset provider fates =>
    let files := (resetPoolSpend provider b.files fates).2.1
    if (files.spend provider).isNone then ⟨files, .reset provider :: b.history⟩
    else { b with files }

/-- A sequence of events. -/
def Books.run (b : Books) (events : List Event) : Books :=
  events.foldl (Books.step table) b

end MiniDregg.KeyService
