import MiniDregg.Hiding.Entry
import MiniDregg.Wire.Sha2

/-!
# Verifying a view against its root

A view carries a root and an opening: a frame and items, each either opened (its
salt and its entry) or sealed (its leaf). The verifier recomputes every opened
leaf and the root, checks the displayed declaration against the opened one, and
checks the displayed entries against the opened values.

## Implementation notes

The customizable hash is a parameter: a customization and an input give 32
bytes. Lists that the source sorts before it compares them are compared as
permutations. An item is read completely before the next, and hashing never
fails, so the items are read first and hashed together.
-/

namespace MiniDregg.Hiding

open Fallible Text
open Text (Value)

/-- `cSHAKE256` without a function name, 32 bytes of output: the customization
gives the hash. -/
abbrev CShake := Bytes → Wire.Digest

def LEAF : Bytes := PrivateBackend.ascii "DREGG.STORE.LEAF/v1"

def ROOT : Bytes := PrivateBackend.ascii "DREGG.STORE.ROOT/v2"

/-- The input of a leaf: the length-delimited salt and the entry. -/
def leafPreimage (salt entry : Bytes) : Bytes := bytesStream salt ++ entry

inductive Item
  | opened (salt entry : Bytes)
  | sealed (leaf : Bytes)
  deriving DecidableEq

namespace Item

/-- The entry of an opened item. -/
def entry? : Item → Option Bytes
  | opened _ entry => some entry
  | sealed _ => none

/-- `leaf` of an opened item, the leaf itself of a sealed one. -/
def leafBytes (cshake : CShake) : Item → Bytes
  | opened salt entry => (cshake LEAF).digest (leafPreimage salt entry)
  | sealed leaf => leaf

variable (item : Value)

def readOpened (salt : String) : Result Item := do
  let salt ← hexDecode salt
  let raw ← orElse ((item.get "entry").bind Value.asStr) "opened item lacks entry"
  let entry ← hexDecode raw
  pure (.opened salt entry)

def readSealed : Result Item := do
  let raw ← orElse ((item.get "leaf").bind Value.asStr) "item lacks leaf"
  let leaf ← hexDecode raw
  refuseIf (decide (leaf.length ≠ 32)) "a sealed leaf is not 32 bytes"
  pure (.sealed leaf)

def read : Result Item :=
  match (item.get "salt").bind Value.asStr with
  | some salt => readOpened item salt
  | none => readSealed item

end Item

/-- The root of a frame and items, as the decimal a view claims. -/
def rootText (cshake : CShake) (frame : Bytes) (items : List Item) : Text :=
  natText (Wire.fromLeBytes
    ((cshake ROOT).digest (frame ++ items.flatMap (Item.leafBytes cshake))))

/-! ## The declaration -/

/-- What the opened declaration entries say: the cell they name, the declared
fields, the number of open markers, and the tails. -/
structure Declaration where
  object : Option Nat
  fields : List Text
  «open» : Nat
  tails : List Bytes

def Declaration.empty : Declaration := ⟨none, [], 0, []⟩

/-- The part of a declaration entry behind its cell. -/
def Declaration.add (d : Declaration) (tag : UInt8) (rest : Bytes) : Result Declaration :=
  if tag = 4 then do
    let (field, rest) ← natPrefix rest
    refuseIf (decide (rest ≠ [255])) "view refused: a declaration entry holds a value other than 0"
    pure { d with fields := d.fields ++ [natText field] }
  else if tag = 5 then do
    refuseIf (decide (rest ≠ [255])) "view refused: a declaration entry holds a value other than 0"
    pure { d with «open» := d.open + 1 }
  else .ok { d with tails := d.tails ++ [rest] }

/-- One round of the loop of `check_declaration`. -/
def Declaration.step (d : Declaration) (entry : Bytes) : Result Declaration := do
  let (cell, rest) ← natPrefix entry.tail
  let d ← d.add (entry.headD 0) rest
  let object := d.object.getD cell
  refuseIf (decide (object ≠ cell)) "view refused: declaration entries name two cells"
  pure { d with object := some object }

section Verify
variable (cshake : CShake) (unprintable : Char → Bool)

/-- The displayed tail against the opened tails. -/
def checkTail (displayedFrom : Option Value) (tails : List Bytes) : Result Unit :=
  match displayedFrom, tails with
  | none, [] => .ok ()
  | some (.string first), [held] => do
    let shown ← intBytes unprintable first.toList
    refuseIf (decide (shown ≠ held))
      "view refused: its displayed roster tail is not its opened tail"
  | _, _ => .error "view refused: its displayed declaration tail is not its opened tail"

/-- A displayed list of fields. -/
def shownFields (list : List Value) : Result (List Text) :=
  list.mapM fun field => do
    let s ← orElse field.asStr "declared field is not a decimal"
    pure s.toList

/-- A displayed list of fields against the opened ones. -/
def checkFields (list : List Value) (d : Declaration) : Result Unit := do
  let shown ← shownFields list
  refuseIf (decide (d.open ≠ 0) || !decide (shown.Perm d.fields))
    "view refused: its displayed declaration is not its opened declaration"

/-- The displayed declaration against the opened one. -/
def checkShown (displayed : Option Value) (opened : List Bytes) (d : Declaration) : Result Unit :=
  match displayed with
  | some (.string text) =>
    if text = "open" then
      refuseIf (decide (d.open ≠ 1) || !d.fields.isEmpty || !d.tails.isEmpty)
        "view refused: it displays an open cell and opens a different declaration"
    else .error "view refused: it opens a declaration it does not display"
  | some (.array list) => checkFields list d
  | none =>
    refuseIf (!opened.isEmpty) "view refused: it opens a declaration it does not display"
  | some _ => .error "view refused: it opens a declaration it does not display"

/-- `check_declaration`. -/
def checkDeclaration (displayed displayedFrom : Option Value) (opened : List Bytes) :
    Result Unit := do
  let d ← opened.foldlM Declaration.step Declaration.empty
  checkTail unprintable displayedFrom d.tails
  checkShown displayed opened d

/-! ## The view -/

/-- The summary printed beside a view. -/
inductive Summary
  | unverified (reason : String)
  | verified (root : Text) (opened «sealed» : Nat) (entriesChecked : Bool)
  deriving DecidableEq

/-- The part of a view that carries the opening. -/
def resourceOf (view : Value) : Option Value :=
  if (view.get "opening").isSome then some view else view.get "resource"

/-- The frame of an opening. -/
def frameOf (opening : Value) : Result Bytes := do
  let raw ← orElse ((opening.get "frame").bind Value.asStr) "opening lacks frame"
  hexDecode raw

def itemsOf (opening : Value) : Result (List Item) := do
  let items ← orElse ((opening.get "items").bind Value.asArray) "opening lacks items"
  items.mapM Item.read

/-- The entries of the opened items. -/
def openedEntries (items : List Item) : List Bytes := items.filterMap Item.entry?

/-- The first byte of a declaration entry is 4, 5 or 6. -/
def isDeclaration (entry : Bytes) : Bool :=
  match entry.head? with
  | some tag => decide (4 ≤ tag ∧ tag ≤ 6)
  | none => false

/-- The opened entries that are not declarations. -/
def openedValues (items : List Item) : List Bytes :=
  (openedEntries items).filter fun e => !isDeclaration e

section
variable (resource : Value)

/-- The displayed entries of a cell. -/
def entriesOf : Option (List Value) :=
  ((resource.get "cell").bind (Value.get "entries")).bind Value.asArray

/-- The key types of declared entries. -/
def hasDeclaredKey (entry : Value) : Bool :=
  match ((entry.get "key").bind (Value.get "type")).bind Value.asStr with
  | some t => t = "object" || t = "account" || t = "program"
  | none => false

/-- A displayed entry must be an opened value. -/
def checkEntry (values : List Bytes) (entry : Value) : Result Unit := do
  let bytes ← declaredEntryBytes unprintable entry
  refuseIf (!values.contains bytes) "view refused: a displayed entry is not an opened entry"

/-- The displayed declaration and entries against the opened ones. -/
def checkEntries (items : List Item) (list : List Value) : Result Unit := do
  let cell := resource.get "cell"
  checkDeclaration unprintable (cell.bind (Value.get "declaration"))
    (cell.bind (Value.get "declaredFrom")) ((openedEntries items).filter isDeclaration)
  refuseIf (decide (list.length ≠ (openedValues items).length))
    ("view refused: it displays " ++ toString list.length ++ " entries and opens " ++
      toString (openedValues items).length)
  list.forM (checkEntry unprintable (openedValues items))

/-- Whether the displayed entries are checked: all of them, when all are declared. -/
def checkDisplayed (items : List Item) : Result Bool :=
  match entriesOf resource with
  | none => .ok false
  | some list =>
    if list.all hasDeclaredKey then do
      checkEntries unprintable resource items list
      pure true
    else .ok false

/-- The root a view claims. -/
def claimedRoot : Result Text := do
  let s ← orElse (((resource.get "cell").bind (Value.get "root")).bind Value.asStr)
    "view lacks cell.root"
  pure s.toList

end

/-- The part of `verify_view` behind a frame that is not empty. -/
def verifyOpening (resource opening : Value) (frame : Bytes) : Result Summary := do
  let items ← itemsOf opening
  let computed := rootText cshake frame items
  let claimed ← claimedRoot resource
  refuseIf (decide (computed ≠ claimed))
    ("view refused: its opening recomputes root " ++ String.ofList computed ++
      ", the view claims " ++ String.ofList claimed)
  let checked ← checkDisplayed unprintable resource items
  let opened := (openedEntries items).length
  pure (.verified computed opened (items.length - opened) checked)

/-- `verify_view`. -/
def verifyView (view : Value) : Result Summary :=
  match resourceOf view with
  | none => .ok (.unverified "view carries no opening")
  | some resource => do
    let opening ← orElse (resource.get "opening") "view lacks opening"
    let frame ← frameOf opening
    if frame = [] then pure (.unverified "this kind has no store opening")
    else verifyOpening cshake unprintable resource opening frame

end Verify

end MiniDregg.Hiding
