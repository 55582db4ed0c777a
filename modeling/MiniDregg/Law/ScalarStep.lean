import MiniDregg.Arith.Int128
import MiniDregg.Law.Render
import MiniDregg.Text.JsonValue

/-!
# The old state of a scalar resource

`eval_pred` of `lawsat.rs` decides a predicate on a step from an old to a new
state. `realize_scalar` rewrites the clauses that read the old state of a scalar
resource into clauses over the new one.

## Implementation notes

Both functions take any JSON value: a field that is missing or of another kind
is read as the source reads it. A state is the map of the slots it holds. The
patterns of `scalar_old` on the fields of a resource are those that `slotWord`
collects.
-/

namespace MiniDregg.Law

open Arith List Fallible SlotWord
open Text (Value)

/-- The values of the slots that are present. -/
abbrev State := Text → Option I128

/-- Read an integer that fits 128 bits. -/
def parseI128 (value : Text) : Option I128 :=
  ((Text.readInt value).filter fun z => -2 ^ 127 ≤ z ∧ z < 2 ^ 127).map .wrap

/-- Whether both values are present and related. -/
def both (related : I128 → I128 → Bool) : Option I128 → Option I128 → Bool
  | some a, some b => related a b
  | _, _ => false

section
variable (pred : Value)

/-- The type of a predicate, empty where there is none. -/
def typeOf : String := (pred.text "type").getD ""

/-- A text field of a predicate, empty where there is none. -/
def textOf (name : String) : Text := ((pred.text name).getD "").toList

def intVal (name : String) : Option I128 := (pred.text name).bind fun v => parseI128 v.toList

/-- The sum, if every item is a slot that is present and no partial sum overflows. -/
def sumOf (new : State) (name : String) : Option I128 := do
  (← pred.items name).foldlM (fun total item => do
    let value ← new (← item.asStr).toList
    let sum := total.toInt + value.toInt
    if -2 ^ 127 ≤ sum ∧ sum < 2 ^ 127 then some (.wrap sum) else none) 0

end

/-- Whether a step satisfies a predicate. -/
def evalPred (old new : State) (pred : Value) : Bool :=
  match typeOf pred with
  | "eq" => both (· == ·) (new (textOf pred "slot")) (intVal pred "value")
  | "le" => both (· ≤ ·) (new (textOf pred "slot")) (intVal pred "value")
  | "memberOf" =>
    match new (textOf pred "slot") with
    | none => false
    | some actual =>
      (((pred.items "values").getD []).filterMap fun v =>
        v.asStr.bind fun s => parseI128 s.toList).any (· == actual)
  | "monotone" => both (· ≤ ·) (old (textOf pred "slot")) (new (textOf pred "slot"))
  | "writeOnce" =>
    match old (textOf pred "slot") with
    | none => true
    | some o => o == 0 || new (textOf pred "slot") == some o
  | "eqSlots" => both (· == ·) (new (textOf pred "left")) (new (textOf pred "right"))
  | "leSlots" => both (· ≤ ·) (new (textOf pred "left")) (new (textOf pred "right"))
  | "leSlotsOff" =>
    match intVal pred "offset" with
    | none => false
    | some k =>
      both (fun a b => a ≤ b.saturatingAdd k) (new (textOf pred "left")) (new (textOf pred "right"))
  | "sumEq" => both (· == ·) (sumOf pred new "left") (sumOf pred new "right")
  | "not" =>
    match _h : pred.get "predicate" with
    | none => false
    | some inner => !evalPred old new inner
  | "all" => (pred.items "predicates").isSome &&
    (((pred.items "predicates").getD []).attach.map fun p => evalPred old new p.1).all id
  | "any" => (pred.items "predicates").isSome &&
    (((pred.items "predicates").getD []).attach.map fun p => evalPred old new p.1).any id
  | "ran" => new ("run/program/" ++ textOf pred "program") == some 1
  | _ => false
termination_by pred
decreasing_by
  · exact Value.sizeOf_get_lt _h
  · exact Value.sizeOf_items_lt p.2
  · exact Value.sizeOf_items_lt p.2

/-- The slot of a field before the step. -/
def beforeSlot (k : Text) : Text := (field k .before).name

/-- The first parts of the slots that a step does not move. -/
def fixedRoots : List Text :=
  ["request", "target", "clock", "command", "run"]

/-- Where the old value of a slot stands in the new state: under another slot,
or as a zero that is there with all of some slots. -/
def scalarOld (slot : Text) : Option (Text ⊕ List Text) :=
  match slotWord slot with
  | some (.field k .after) => some (.inl (beforeSlot k))
  | some (.field _ .before) => some (.inl slot)
  | some (.field k .delta) => some (.inr [beforeSlot k])
  | some (.pair a b) => some (.inr [beforeSlot a, beforeSlot b])
  | _ => if (slot.splitOn '/').head? ∈ fixedRoots.map some then some (.inl slot) else none

/-- A predicate of a type with some fields. -/
def predicate (type : String) (fields : List (String × Value)) : Value :=
  .object (("type", .string type) :: fields)

def slotText (slot : Text) : Value := .string (String.ofList slot)

def leSlots (left right : Text) : Value :=
  predicate "leSlots" [("left", slotText left), ("right", slotText right)]

def negation (p : Value) : Value := predicate "not" [("predicate", p)]

def connective (type : String) (ps : List Value) :
    Value := predicate type [("predicates", .array ps)]

/-- Rewrite a predicate to one that does not read the old state; the error is
the slot without an old value. -/
def realizeScalar (pred : Value) : Except Text Value :=
  let slot := textOf pred "slot"
  match typeOf pred with
  | "monotone" =>
    match scalarOld slot with
    | none => .error slot
    | some (.inl t) => .ok (leSlots t slot)
    | some (.inr ts) =>
      .ok (connective "all" (ts.map (fun t => leSlots t t) ++ [leSlots slot slot,
        negation (predicate "le" [("slot", slotText slot), ("value", .string "-1")])]))
  | "writeOnce" =>
    match scalarOld slot with
    | none => .error slot
    | some (.inl t) =>
      .ok (connective "any" [negation (leSlots t t),
        predicate "eq" [("slot", slotText t), ("value", .string "0")],
        predicate "eqSlots" [("left", slotText slot), ("right", slotText t)]])
    | some (.inr _) => .ok (connective "all" [])
  | "not" =>
    match _h : pred.get "predicate" with
    | none => .error "?"
    | some inner => do return negation (← realizeScalar inner)
  | "all" => do
    return connective "all"
      (← (((pred.items "predicates").getD []).attach.map fun p => realizeScalar p.1).mapM id)
  | "any" => do
    return connective "any"
      (← (((pred.items "predicates").getD []).attach.map fun p => realizeScalar p.1).mapM id)
  | _ => .ok pred
termination_by pred
decreasing_by
  · exact Value.sizeOf_get_lt _h
  · exact Value.sizeOf_items_lt p.2
  · exact Value.sizeOf_items_lt p.2

section
variable {old new : State} {p : Value}

theorem evalPred_not (h : typeOf p = "not") :
    evalPred old new p = (p.get "predicate").any fun inner => !evalPred old new inner := by
  rw [evalPred, h]
  simp only
  split <;> simp [*]

theorem evalPred_all (h : typeOf p = "all") : evalPred old new p =
    ((p.items "predicates").isSome && ((p.items "predicates").getD []).all (evalPred old new)) := by
  rw [evalPred, h]
  simp

theorem evalPred_any (h : typeOf p = "any") : evalPred old new p =
    ((p.items "predicates").isSome && ((p.items "predicates").getD []).any (evalPred old new)) := by
  rw [evalPred, h]
  simp

theorem textOf_eq {name : String} {t : Text} (h : p.get name = some (slotText t)) :
    textOf p name = t := by
  simp [textOf, Value.text, h, slotText, Value.asStr]

theorem typeOf_predicate (type : String) (fields : List (String × Value)) :
    typeOf (predicate type fields) = type := rfl

@[simp] theorem evalPred_leSlots (left right : Text) :
    evalPred old new (leSlots left right) = both (· ≤ ·) (new left) (new right) := by
  rw [evalPred, leSlots, typeOf_predicate]
  simp only
  rw [textOf_eq (t := left) rfl, textOf_eq (t := right) rfl]

@[simp] theorem evalPred_negation (p : Value) :
    evalPred old new (negation p) = !evalPred old new p := evalPred_not rfl

@[simp] theorem evalPred_connective_all (ps : List Value) :
    evalPred old new (connective "all" ps) = ps.all (evalPred old new) := evalPred_all rfl

@[simp] theorem evalPred_connective_any (ps : List Value) :
    evalPred old new (connective "any" ps) = ps.any (evalPred old new) := evalPred_any rfl

variable (slot : Text)

theorem evalPred_eqSlots (right : Text) : evalPred old new
    (predicate "eqSlots" [("left", slotText slot), ("right", slotText right)]) =
      both (· == ·) (new slot) (new right) := by
  rw [evalPred, typeOf_predicate]
  simp only
  rw [textOf_eq (t := slot) rfl, textOf_eq (t := right) rfl]

theorem evalPred_eq_zero :
    evalPred old new (predicate "eq" [("slot", slotText slot), ("value", .string "0")]) =
      both (· == ·) (new slot) (some 0) := by
  rw [evalPred, typeOf_predicate]
  simp only
  rw [textOf_eq (t := slot) rfl]
  rfl

theorem evalPred_le_negOne :
    evalPred old new (predicate "le" [("slot", slotText slot), ("value", .string "-1")]) =
      both (· ≤ ·) (new slot) (some (-1)) := by
  rw [evalPred, typeOf_predicate]
  simp only
  rw [textOf_eq (t := slot) rfl]
  rfl

end

/-- A step of a scalar resource: the old state has what the fields were before
the step under both views, no change under any delta, and the slots that a step
does not move. -/
structure ScalarStep (old new : State) : Prop where
  after : ∀ k, '/' ∉ k → old (field k .after).name = new (beforeSlot k)
  before : ∀ k, '/' ∉ k → old (beforeSlot k) = new (beforeSlot k)
  delta : ∀ k, '/' ∉ k → old (field k .delta).name = (new (beforeSlot k)).map fun _ => 0
  pair : ∀ a b, '/' ∉ a → '/' ∉ b → old (pair a b).name =
    if (new (beforeSlot a)).isSome ∧ (new (beforeSlot b)).isSome then some 0 else none
  fixed : ∀ slot, (slot.splitOn '/').head? ∈ fixedRoots.map some → old slot = new slot

/-- Every `all` that a predicate is made of carries its array. -/
inductive Arrays : Value → Prop
  | mk {p : Value} (all : typeOf p = "all" → (p.items "predicates").isSome)
      (inner : typeOf p = "not" → ∀ q, p.get "predicate" = some q → Arrays q)
      (members : typeOf p = "all" ∨ typeOf p = "any" →
        ∀ q ∈ (p.items "predicates").getD [], Arrays q) : Arrays p

section
variable {old new : State} {slot : Text}

theorem both_self (a : Option I128) : both (· ≤ ·) a a = a.isSome := by
  cases a with
  | none => rfl
  | some a => simp [both]

namespace ScalarStep

/-- Every slot that `scalar_old` knows has in the new state the old value that
it says. -/
theorem scalarOld_eq (h : ScalarStep old new) {place : Text ⊕ List Text}
    (hold : scalarOld slot = some place) :
    old slot = place.elim new fun slots =>
      if slots.all fun t => (new t).isSome then some 0 else none := by
  unfold scalarOld at hold
  split at hold
  next k hword =>
    obtain rfl := Option.some.inj hold
    rw [← name_of_slotWord hword]
    exact h.after k (slash_notMem_numbers hword k (mem_singleton_self k))
  next k hword =>
    obtain rfl := Option.some.inj hold
    rw [← name_of_slotWord hword]
    exact h.before k (slash_notMem_numbers hword k (mem_singleton_self k))
  next k hword =>
    obtain rfl := Option.some.inj hold
    rw [← name_of_slotWord hword, h.delta k (slash_notMem_numbers hword k (mem_singleton_self k))]
    cases hnew : new (beforeSlot k) <;> simp [hnew]
  next a b hword =>
    obtain rfl := Option.some.inj hold
    have hparts := slash_notMem_numbers hword
    rw [← name_of_slotWord hword, h.pair a b (hparts a (by simp [numbers]))
      (hparts b (by simp [numbers]))]
    simp
  · split_ifs at hold with hroot
    obtain rfl := Option.some.inj hold
    exact h.fixed slot hroot

/-- An absent slot is not below any number, so a delta that is there and not at
most `-1` is one that did not fall. -/
theorem zero_le_eq (a : Option I128) :
    both (· ≤ ·) (some 0) a = (a.isSome && !both (· ≤ ·) a (some (-1))) := by
  cases a with
  | none => rfl
  | some a =>
    simp only [both, Option.isSome_some, Bool.true_and, ← decide_not, decide_eq_decide,
      I128.le_iff, I128.toInt_zero, I128.toInt_neg_one]
    omega

section Clauses
variable (h : ScalarStep old new) {p q : Value} (old' : State) (hq : realizeScalar p = .ok q)
include h hq

theorem monotone_eq (htype : typeOf p = "monotone") : evalPred old new p = evalPred old' new q := by
  rw [realizeScalar, htype] at hq
  rw [evalPred, htype]
  simp only at hq ⊢
  split at hq
  · cases hq
  next hold =>
    obtain rfl := Except.ok.inj hq
    rw [h.scalarOld_eq hold, evalPred_leSlots]
    rfl
  next slots hold =>
    obtain rfl := Except.ok.inj hq
    rw [h.scalarOld_eq hold, evalPred_connective_all, all_append, Sum.elim_inr]
    simp only [all_map, Function.comp_def, all_cons, all_nil, evalPred_leSlots, evalPred_negation,
      evalPred_le_negOne,
      both_self, Bool.and_true, ← zero_le_eq]
    cases slots.all fun t => (new t).isSome with
    | false => rfl
    | true => rw [Bool.true_and, if_pos rfl]

theorem writeOnce_eq (htype : typeOf p = "writeOnce") :
    evalPred old new p = evalPred old' new q := by
  rw [realizeScalar, htype] at hq
  rw [evalPred, htype]
  simp only at hq ⊢
  split at hq
  · cases hq
  next t hold =>
    obtain rfl := Except.ok.inj hq
    rw [h.scalarOld_eq hold]
    simp only [Sum.elim_inl, evalPred_connective_any, any_cons, any_nil, evalPred_negation,
      evalPred_leSlots, evalPred_eq_zero, evalPred_eqSlots, both_self, Bool.or_false]
    cases new t with
    | none => rfl
    | some o => cases new (textOf p "slot") <;> simp [both, Bool.beq_eq_decide_eq]
  next slots hold =>
    obtain rfl := Except.ok.inj hq
    rw [h.scalarOld_eq hold, Sum.elim_inr, evalPred_connective_all]
    cases slots.all fun t => (new t).isSome <;> rfl

end Clauses

end ScalarStep

end

/-- The members of a connective are rewritten one by one. -/
theorem realizeScalar_connective {p q : Value} (htype : typeOf p = "all" ∨ typeOf p = "any")
    (hq : realizeScalar p = .ok q) : ∃ qs, q = connective (typeOf p) qs ∧
      Forall₂ (fun p q => realizeScalar p = .ok q) ((p.items "predicates").getD []) qs := by
  rw [realizeScalar] at hq
  rcases htype with htype | htype <;> rw [htype] at hq ⊢ <;> simp only at hq <;>
  · obtain ⟨qs, hqs, heq⟩ := bind_eq_ok.1 hq
    rw [attach_map_val, mapM_eq_ok, forall₂_map_left_iff] at hqs
    exact ⟨qs, (Except.ok.inj heq).symm, hqs⟩

theorem map_evalPred_eq {old new old' : State} {ps qs : List Value}
    (h : ∀ p ∈ ps, ∀ {q}, realizeScalar p = .ok q → evalPred old new p = evalPred old' new q)
    (hqs : Forall₂ (fun p q => realizeScalar p = .ok q) ps qs) :
    ps.map (evalPred old new) = qs.map (evalPred old' new) := by
  induction hqs with
  | nil => rfl
  | cons hq _ ih =>
    rw [map_cons, map_cons, h _ mem_cons_self hq, ih fun p hp => h p (mem_cons_of_mem _ hp)]

end MiniDregg.Law
