import MiniDregg.Law.Pred
import MiniDregg.Law.Tokens
import MiniDregg.Text.Debug
import MiniDregg.Text.Separated

/-!
# The law parser

The recursive-descent parser of `shell/law.rs`. Every function takes the tokens
that are left and returns those behind what it has read.

## Implementation notes

A clause can nest clauses. The recursion counts down from the number of tokens,
because a clause consumes a token before it reads another clause.
-/

namespace MiniDregg.Law

open Fallible Separated String

/-- Names joined to a slot path. -/
def path (parts : List Text) : Text := ['/'].intercalate parts

/-- The views of a field. -/
inductive FieldView
  | after | before | delta
deriving DecidableEq, Repr

/-- The word of a view. -/
def FieldView.text : FieldView → Text
  | after => "after"
  | before => "before"
  | delta => "delta"

/-- The view a word names. -/
def FieldView.read (w : Text) : Option FieldView :=
  [after, before, delta].find? fun view => view.text == w

/-- The request slots that have a word of their own. -/
inductive RequestWord
  | subject | verb | cost
deriving DecidableEq, Repr

/-- The word of a request slot. -/
def RequestWord.text : RequestWord → Text
  | subject => "subject"
  | verb => "verb"
  | cost => "cost"

/-- The request slot a word names. -/
def RequestWord.read (w : Text) : Option RequestWord :=
  [subject, verb, cost].find? fun request => request.text == w

/-- The slots that the grammar has words for. -/
inductive SlotWord
  | field (n : Text) (view : FieldView)
  | pair (a b : Text)
  | request (word : RequestWord)
deriving DecidableEq, Repr

/-- The slot that the words stand for. -/
def SlotWord.name : SlotWord → Text
  | field n view => path ["resource", "field", n, view.text]
  | pair a b => path ["resource", "pair", a, b, "delta"]
  | request word => path ["request", word.text]

/-- The tag that `request/verb` carries for each verb name. -/
def verbs : List (Text × Int) :=
  [("read", 1), ("write", 2), ("delegate", 3), ("install", 4),
    ("revoke", 5), ("append", 7), ("place", 10)]

/-- The slot whose values have names. -/
def verbSlot : Text := "request/verb"

/-- Whether a punctuation token stands next. -/
def isPunct (p : Punct) (toks : List Tok) : Bool := toks.head? == some (.punct p)

/-- Whether a word stands next. -/
def isWord (w : String) (toks : List Tok) : Bool := toks.head? == some (.word w.toList)

/-- Whether a slot stands next. -/
def atSlot : List Tok → Bool
  | .word w :: _ =>
    ["field", "pair", "subject", "verb", "cost", "slot"].any fun word => word.toList == w
  | _ => false

/-- The view behind a field number, `after` when none is named. -/
def fieldView : List Tok → FieldView × List Tok
  | .word w :: rest =>
    match FieldView.read w with
    | some view => (view, rest)
    | none => (.after, .word w :: rest)
  | toks => (.after, toks)

section Messages
variable (unprintable : Char → Bool)

/-- A token as an error message shows it. -/
def showTok : Option Tok → String
  | none => "the end of the law"
  | some (.word w) => "`" ++ ofList w ++ "`"
  | some (.int n) => "`" ++ ofList n ++ "`"
  | some (.str s) => ofList (Text.debug unprintable s)
  | some (.punct p) => "`" ++ ofList p.text ++ "`"

def expect (p : Punct) (toks : List Tok) : Result (List Tok) :=
  if isPunct p toks then .ok toks.tail
  else .error ("expected `" ++ ofList p.text ++ "`, found " ++
    showTok unprintable toks.head?)

def nat (what : String) (toks : List Tok) : Result (Text × List Tok) :=
  let refusal := "expected " ++ what ++ " (a number), found " ++ showTok unprintable toks.head?
  match toks with
  | .int n :: rest => if n.head? = some '-' then .error refusal else .ok (n, rest)
  | _ => .error refusal

/-- The slot a clause reads, and whether it is a field's `after` view. -/
def slot (toks : List Tok) : Result ((Text × Bool) × List Tok) :=
  match toks with
  | .word w :: rest =>
    if w = "field" then do
      let (n, rest) ← nat unprintable "a field number" rest
      let (view, rest) := fieldView rest
      pure (((SlotWord.field n view).name, view == .after), rest)
    else if w = "pair" then do
      let (a, rest) ← nat unprintable "the first field of the pair" rest
      let rest ← expect unprintable .comma rest
      let (b, rest) ← nat unprintable "the second field of the pair" rest
      if isWord "delta" rest then pure (((SlotWord.pair a b).name, false), rest.tail)
      else .error ("a pair has only its `delta` view, found " ++ showTok unprintable rest.head?)
    else match RequestWord.read w with
      | some request => .ok (((SlotWord.request request).name, false), rest)
      | none =>
        if w = "slot" then
          match rest with
          | .str s :: rest => .ok ((s, false), rest)
          | _ => .error ("slot takes a quoted slot name, found " ++
              showTok unprintable rest.head?)
        else .error ("unknown word `" ++ ofList w ++ "`: a clause starts with field, " ++
          "pair, subject, verb, cost, slot, any, all, not, sealed or open")
  | _ => .error ("expected a clause, found " ++ showTok unprintable toks.head?)

def value (slot : Text) (toks : List Tok) : Result (Text × List Tok) :=
  let refusal := "expected a number, found " ++ showTok unprintable toks.head?
  match toks with
  | .int n :: rest => .ok (n, rest)
  | .word w :: rest =>
    if slot = verbSlot then
      match verbs.find? fun verb => verb.1 == w with
      | some verb => .ok (Text.decimal verb.2, rest)
      | none => .error ("unknown verb `" ++ ofList w ++
          "` (read, write, delegate, install, revoke, append, place)")
    else .error refusal
  | _ => .error refusal

/-- The opened slots and the blinder, behind the commit slot and the word `opens`. -/
def opens (commit : Text) (toks : List Tok) : Result (Pred × List Tok) :=
  if ¬isPunct .lparen toks then
    .error ("`opens` takes the opened slots in parentheses, " ++
      "`opens (field 3, field 4) with field 5`; found " ++ showTok unprintable toks.head?)
  else if isPunct .rparen toks.tail then
    .error "`opens ()` opens nothing: name at least one slot"
  else do
    let (values, rest) ← separated (.punct .comma) (slot unprintable) toks.tail
    let rest ← expect unprintable .rparen rest
    if ¬isWord "with" rest then
      .error ("after the opened slots expected `with` and the blinder slot, found " ++
        showTok unprintable rest.head?)
    else
      let ((blinder, _), rest) ← slot unprintable rest.tail
      if ¬(values.map Prod.fst ++ [blinder, commit]).Nodup then
        .error ("`opens` names one slot twice: the commit, the blinder and each opened slot " ++
          "must differ")
      else pure (.hashEq (values.map Prod.fst) blinder commit, rest)

/-- An atom that compares the old and the new `after` view of a field. -/
def stepAtom (op : String) (mk : Text → Pred) (slot : Text) (after : Bool) (rest : List Tok) :
    Result (Pred × List Tok) :=
  if after then .ok (mk slot, rest)
  else .error (op ++ " compares a field's old and new `after` views; on " ++ ofList slot ++
    " both views are the same, so it could never refuse")

/-- The values behind the word `in`. -/
def members (slot : Text) (toks : List Tok) : Result (Pred × List Tok) := do
  let rest ← expect unprintable .lbrace toks
  let (values, rest) ← separated (.punct .comma) (value unprintable slot) rest
  let rest ← expect unprintable .rbrace rest
  pure (.memberOf slot values, rest)

/-- What stands behind `==`: a slot or a value. -/
def equals (left : Text) (toks : List Tok) : Result (Pred × List Tok) :=
  if atSlot toks then do
    let ((right, _), rest) ← slot unprintable toks
    pure (.eqSlots left right, rest)
  else do
    let (v, rest) ← value unprintable left toks
    pure (.eq left v, rest)

/-- What stands behind `<=`: a slot with or without an offset, or a value. -/
def atMost (left : Text) (toks : List Tok) : Result (Pred × List Tok) :=
  if atSlot toks then do
    let ((right, _), rest) ← slot unprintable toks
    if ¬isPunct .plus rest then pure (.leSlots left right, rest)
    else match rest.tail with
      | .int k :: rest => pure (.leSlotsOff left right k, rest)
      | other => .error ("after `+` expected an integer offset, found " ++
          showTok unprintable other.head?)
  else do
    let (v, rest) ← value unprintable left toks
    pure (.le left v, rest)

def atom (toks : List Tok) : Result (Pred × List Tok) := do
  let ((left, after), rest) ← slot unprintable toks
  let refusal := "after a slot expected ==, <=, in, monotone, writeOnce or opens, found " ++
    showTok unprintable rest.head?
  match rest with
  | .word w :: rest =>
    if w = "opens" then opens unprintable left rest
    else if w = "monotone" then stepAtom "monotone" .monotone left after rest
    else if w = "writeOnce" then stepAtom "writeOnce" .writeOnce left after rest
    else if w = "in" then members unprintable left rest
    else .error refusal
  | .punct .eq :: rest => equals unprintable left rest
  | .punct .le :: rest => atMost unprintable left rest
  | _ => .error refusal

/-- The clauses up to a closing bracket, which may stand at once. -/
def children (read : List Tok → Result (Pred × List Tok)) (toks : List Tok) :
    Result (List Pred × List Tok) :=
  if isPunct .rbracket toks then .ok ([], toks) else separated (.punct .comma) read toks

/-- The clauses between the brackets of `any` and `all`. -/
def bracketed (read : List Tok → Result (Pred × List Tok)) (toks : List Tok) :
    Result (List Pred × List Tok) := do
  let rest ← expect unprintable .lbracket toks
  let (ps, rest) ← children read rest
  let rest ← expect unprintable .rbracket rest
  pure (ps, rest)

def clause : Nat → List Tok → Result (Pred × List Tok)
  | fuel + 1, .word w :: rest =>
    if w = "sealed" then .ok (.any [], rest)
    else if w = "open" then .ok (.all [], rest)
    else if w = "any" then do
      let (ps, rest) ← bracketed unprintable (clause fuel) rest
      pure (.any ps, rest)
    else if w = "all" then do
      let (ps, rest) ← bracketed unprintable (clause fuel) rest
      pure (.all ps, rest)
    else if w = "not" then do
      let rest ← expect unprintable .lparen rest
      let (inner, rest) ← clause fuel rest
      let rest ← expect unprintable .rparen rest
      pure (.not inner, rest)
    else if w = "ran" then do
      let (program, rest) ← nat unprintable "a program id" rest
      pure (.ran program, rest)
    else if w = "witnessed" then
      .error ("witnessed is not a law clause: Mini admits by re-execution and has no proof " ++
        "system, so the clause could never hold")
    else atom unprintable (.word w :: rest)
  | _, toks => .error ("expected a clause, found " ++ showTok unprintable toks.head?)

/-- The clauses behind semicolons, of which the last may stand alone. -/
def lawMore (read : List Tok → Result (Pred × List Tok)) :
    Nat → List Tok → Result (List Pred × List Tok)
  | fuel + 1, .punct .semi :: rest =>
    if rest = [] then .ok ([], [])
    else do
      let (c, rest) ← read rest
      let (more, rest) ← lawMore read fuel rest
      pure (c :: more, rest)
  | _, toks => .ok ([], toks)

def law (toks : List Tok) : Result Pred := do
  let (c, rest) ← clause unprintable toks.length toks
  let (more, rest) ← lawMore (clause unprintable toks.length) rest.length rest
  if rest = [] then pure (if more = [] then c else .all (c :: more))
  else .error ("expected `;` or the end of the law, found " ++ showTok unprintable rest.head?)

/-- Parse law text to a predicate. -/
def parse (text : Text) : Result Pred := do
  let toks ← tokens text
  if toks = [] then .error "empty law" else law unprintable toks

end Messages

example : parse (fun _ => false) "field 2 in \x7b0,1\x7d; not (verb == write)" =
    .ok (.all [.memberOf "resource/field/2/after" ["0", "1"],
      .not (.eq verbSlot "2")]) := rfl

end MiniDregg.Law
