import MiniDregg.Text.Numerals

/-!
# Law predicates

The predicates the client exchanges with the Host as JSON objects: one
constructor for each `type`, with the fields that type carries. Numbers are
texts, because the JSON carries every integer as a decimal string.
-/

namespace MiniDregg.Law

/-- A law clause over projected slots. -/
inductive Pred
  | eq (slot value : Text)
  | le (slot value : Text)
  | memberOf (slot : Text) (values : List Text)
  | writeOnce (slot : Text)
  | monotone (slot : Text)
  | eqSlots (left right : Text)
  | leSlots (left right : Text)
  | leSlotsOff (left right offset : Text)
  | sumEq (left right : List Text)
  | hashEq (values : List Text) (blinder commit : Text)
  | ran (program : Text)
  | witnessed (identifier : Text)
  | not (predicate : Pred)
  | all (predicates : List Pred)
  | any (predicates : List Pred)
deriving Repr

namespace Pred

mutual

/-- The slots a predicate names, in the order in which its text names them. -/
def slots : Pred → List Text
  | eq slot _ | le slot _ | memberOf slot _ | writeOnce slot | monotone slot => [slot]
  | eqSlots left right | leSlots left right | leSlotsOff left right _ => [left, right]
  | sumEq left right => left ++ right
  | hashEq values blinder commit => commit :: (values ++ [blinder])
  | ran _ | witnessed _ => []
  | not p => p.slots
  | all ps | any ps => slotsAll ps

/-- The slots a list of predicates names. -/
def slotsAll : List Pred → List Text
  | [] => []
  | p :: ps => p.slots ++ slotsAll ps

end

theorem slotsAll_eq (ps : List Pred) : slotsAll ps = ps.flatMap slots := by
  induction ps with
  | nil => rfl
  | cons p ps ih => rw [slotsAll, ih, List.flatMap_cons]

@[simp] theorem slots_all (ps : List Pred) : (all ps).slots = ps.flatMap slots := by
  rw [slots, slotsAll_eq]

@[simp] theorem slots_any (ps : List Pred) : (any ps).slots = ps.flatMap slots := by
  rw [slots, slotsAll_eq]

@[simp] theorem slots_not (p : Pred) : (not p).slots = p.slots := by rw [slots]

end Pred

end MiniDregg.Law
