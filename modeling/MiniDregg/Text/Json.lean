import Mathlib.Algebra.Order.BigOperators.Group.List
import MiniDregg.Text.Debug

/-!
# JSON text

The compact form the JSON serializer writes: strings with the short escapes and
`\u` escapes for the other controls, arrays and objects without blanks. The
length of such a text is counted in UTF-8 bytes, as file and frame bounds count
it, and every constructor comes with the length of what it writes.
-/

namespace MiniDregg.Text

open List

/-- How the JSON serializer writes a character of a string. -/
def jsonChar (c : Char) : Text :=
  if c = '"' then ['\\', '"']
  else if c = '\\' then ['\\', '\\']
  else if c = '\x08' then ['\\', 'b']
  else if c = '\x0c' then ['\\', 'f']
  else if c = '\n' then ['\\', 'n']
  else if c = '\r' then ['\\', 'r']
  else if c = '\t' then ['\\', 't']
  else if c.toNat < 0x20 then
    "\\u00" ++ [hexChar (c.toNat / 16), hexChar (c.toNat % 16)]
  else [c]

/-- A JSON string. -/
def jsonText (s : Text) : Text := '"' :: (s.flatMap jsonChar ++ ['"'])

/-- A JSON array of written items. -/
def jsonArray (items : List Text) : Text := '[' :: ([','].intercalate items ++ [']'])

/-- A JSON array of strings. -/
def jsonTexts (ss : List Text) : Text := jsonArray (ss.map jsonText)

variable (fields : List (String × Text))

/-- A JSON object of written fields, in the order given. -/
def jsonObject : Text :=
  "\x7b" ++
    ([','].intercalate (fields.map fun e => jsonText e.1.toList ++ ':' :: e.2) ++ "\x7d")

/-- A JSON number or `null`. -/
def jsonOption : Option Nat → Text
  | some n => natText n
  | none => "null"

/-- A JSON truth value. -/
def jsonBool (b : Bool) : Text := if b then "true" else "false"

/-- The number of bytes of a text in UTF-8. -/
def utf8Length (t : Text) : Nat := (t.map Char.utf8Size).sum

/-- The control characters of Unicode. -/
def isControl (c : Char) : Bool := c.toNat < 0x20 || (0x7f ≤ c.toNat && c.toNat < 0xa0)

@[simp] theorem utf8Length_nil : utf8Length [] = 0 := rfl

@[simp] theorem utf8Length_cons (c : Char) (t : Text) :
    utf8Length (c :: t) = c.utf8Size + utf8Length t := by
  simp [utf8Length]

@[simp] theorem utf8Length_append (s t : Text) :
    utf8Length (s ++ t) = utf8Length s + utf8Length t := by
  simp [utf8Length]

/-- Digits are one byte each. -/
theorem utf8Length_natText (n : Nat) : utf8Length (natText n) = (natText n).length := by
  have hsize : ∀ t : Text, (∀ c ∈ t, c.isDigit) → utf8Length t = t.length := by
    intro t ht
    induction t with
    | nil => rfl
    | cons c t ih =>
      obtain ⟨-, hhi⟩ := isDigit_iff.1 (ht c mem_cons_self)
      have hone : c.utf8Size = 1 := by
        rw [Char.utf8Size, if_pos]
        exact UInt32.le_iff_toNat_le.2 (hhi.trans (by decide))
      rw [utf8Length_cons, ih fun d hd => ht d (mem_cons_of_mem c hd), hone,
        length_cons, Nat.add_comm]
  exact hsize _ (canonicalNat_natText n).digits

/-- A number of 64 bits has at most twenty digits. -/
theorem utf8Length_natText_le {n : Nat} (h : n < 2 ^ 64) : utf8Length (natText n) ≤ 20 := by
  rw [utf8Length_natText, natText]
  split_ifs with hzero
  · decide
  · rw [length_map, length_reverse]
    exact (Nat.digits_length_le_iff (by decide) n).2 (h.trans (by norm_num))

/-- Outside the controls an escape adds one byte. -/
theorem utf8Length_jsonChar_le {c : Char} (h : isControl c = false) :
    utf8Length (jsonChar c) ≤ 2 * c.utf8Size := by
  have hcontrol : ¬c.toNat < 0x20 := by
    intro hlt
    simp [isControl, hlt] at h
  have hne : ∀ d : Char, d.toNat < 0x20 → ¬c = d := fun d hd hc => hcontrol (hc ▸ hd)
  rw [jsonChar]
  split_ifs with hquote hslash
  · rw [hquote]
    decide
  · rw [hslash]
    decide
  all_goals first
    | exact absurd ‹c = _› (hne _ (by decide))
    | skip
  · rw [utf8Length_cons, utf8Length_nil]
    omega

/-- A string without controls at most doubles, between its quotes. -/
theorem utf8Length_jsonText_le {s : Text} (h : s.any isControl = false) :
    utf8Length (jsonText s) ≤ 2 * utf8Length s + 2 := by
  have hbody : utf8Length (s.flatMap jsonChar) ≤ 2 * utf8Length s := by
    induction s with
    | nil => exact le_rfl
    | cons c s ih =>
      simp only [any_cons, Bool.or_eq_false_iff] at h
      have hchar := utf8Length_jsonChar_le h.1
      have hrest := ih h.2
      rw [flatMap_cons, utf8Length_append, utf8Length_cons]
      omega
  have hquote : Char.utf8Size '"' = 1 := by decide
  rw [jsonText, utf8Length_cons, utf8Length_append, utf8Length_cons, utf8Length_nil, hquote]
  omega

theorem intercalate_comma (item next : Text) (items : List Text) :
    [','].intercalate (item :: next :: items) =
      item ++ ',' :: [','].intercalate (next :: items) := by
  simp [List.intercalate, List.intersperse]

section
variable (items : List Text)

/-- Items between commas: each brings its length and at most one comma. -/
theorem utf8Length_intercalate_le :
    utf8Length ([','].intercalate items) ≤ (items.map fun item => utf8Length item + 1).sum := by
  induction items with
  | nil => exact le_rfl
  | cons item items ih =>
    cases items with
    | nil => simp [List.intercalate]
    | cons next items =>
      have hcomma : Char.utf8Size ',' = 1 := by decide
      rw [intercalate_comma, utf8Length_append, utf8Length_cons, hcomma, List.map_cons,
        List.sum_cons]
      omega

/-- The length of an array, from the lengths of its items. -/
theorem utf8Length_jsonArray_le :
    utf8Length (jsonArray items) ≤ (items.map fun item => utf8Length item + 1).sum + 2 := by
  have hitems := utf8Length_intercalate_le items
  have hbrackets : Char.utf8Size '[' = 1 ∧ Char.utf8Size ']' = 1 := by decide
  rw [jsonArray, utf8Length_cons, utf8Length_append, utf8Length_cons, utf8Length_nil,
    hbrackets.1, hbrackets.2]
  omega

/-- The length of an object, from the lengths of its keys and values. -/
theorem utf8Length_jsonObject_le :
    utf8Length (jsonObject fields) ≤
      (fields.map fun e => utf8Length (jsonText e.1.toList) + utf8Length e.2 + 2).sum + 2 := by
  have hitems := utf8Length_intercalate_le
    (fields.map fun e => jsonText e.1.toList ++ ':' :: e.2)
  have hbraces : utf8Length "\x7b" = 1 ∧ utf8Length "\x7d" = 1 := by decide
  have hcolon : Char.utf8Size ':' = 1 := by decide
  have hsum : ((fields.map fun e => jsonText e.1.toList ++ ':' :: e.2).map
      fun item => utf8Length item + 1) =
      fields.map fun e => utf8Length (jsonText e.1.toList) + utf8Length e.2 + 2 := by
    rw [List.map_map]
    refine List.map_congr_left fun e _ => ?_
    simp only [Function.comp_apply, utf8Length_append, utf8Length_cons, hcolon]
    omega
  rw [hsum] at hitems
  rw [jsonObject, utf8Length_append, utf8Length_append, hbraces.1, hbraces.2]
  omega

/-- A string without escapes stands as it is between its quotes. -/
theorem utf8Length_jsonText_of_plain {s : Text} (h : ∀ c ∈ s, jsonChar c = [c]) :
    utf8Length (jsonText s) = utf8Length s + 2 := by
  have hbody : s.flatMap jsonChar = s := by
    induction s with
    | nil => rfl
    | cons c s ih =>
      obtain ⟨hc, hs⟩ := List.forall_mem_cons.1 h
      rw [List.flatMap_cons, hc, ih hs]
      rfl
  have hquote : Char.utf8Size '"' = 1 := by decide
  rw [jsonText, hbody, utf8Length_cons, utf8Length_append, utf8Length_cons, utf8Length_nil, hquote]
  omega

/-- Items between commas are no shorter than the items. -/
theorem sum_le_utf8Length_intercalate :
    (items.map utf8Length).sum ≤ utf8Length ([','].intercalate items) := by
  induction items with
  | nil => exact le_rfl
  | cons item items ih =>
    cases items with
    | nil => simp [List.intercalate]
    | cons next items =>
      rw [intercalate_comma, utf8Length_append, utf8Length_cons, map_cons, sum_cons]
      omega

end

/-- An object is no shorter than its values. -/
theorem sum_le_utf8Length_jsonObject :
    (fields.map fun e => utf8Length e.2).sum ≤ utf8Length (jsonObject fields) := by
  have hitems := sum_le_utf8Length_intercalate
    (fields.map fun e => jsonText e.1.toList ++ ':' :: e.2)
  have hvalues : (fields.map fun e => utf8Length e.2).sum ≤
      ((fields.map fun e => jsonText e.1.toList ++ ':' :: e.2).map utf8Length).sum := by
    rw [map_map]
    apply sum_le_sum
    intro e _
    simp only [Function.comp_apply, utf8Length_append, utf8Length_cons]
    omega
  rw [jsonObject, utf8Length_append, utf8Length_append]
  omega

end MiniDregg.Text
