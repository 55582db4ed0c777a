import MiniDregg.Text.Numerals

/-!
# Quoted debug text

The `{:?}` format of a string: quotes around it, short escapes for five control
and quoting characters, and `\u` escapes for what the standard library holds to
be unprintable. Its tables for characters beyond ASCII are a parameter.
-/

namespace MiniDregg.Text

/-- A lower case hexadecimal digit. -/
def hexChar (d : Nat) : Char := if d < 10 then digitChar d else Char.ofNat (87 + d)

/-- The code point of a character in lower case hexadecimal. -/
def hexText (c : Char) : Text := (Nat.digits 16 c.toNat).reverse.map hexChar

variable (unprintable : Char → Bool)

/-- The characters the debug format cannot show: controls, and beyond ASCII what
the tables hold to be unprintable. -/
def isHidden (c : Char) : Bool :=
  c.toNat < 0x20 || c.toNat == 0x7f || (0x80 ≤ c.toNat && unprintable c)

/-- How one character stands in debug text. -/
def debugChar (c : Char) : Text :=
  if c = '\x00' then ['\\', '0']
  else if c = '\t' then ['\\', 't']
  else if c = '\r' then ['\\', 'r']
  else if c = '\n' then ['\\', 'n']
  else if c = '"' then ['\\', '"']
  else if c = '\\' then ['\\', '\\']
  else if isHidden unprintable c then
    "\\u\x7b" ++ (hexText c ++ "\x7d")
  else [c]

/-- The debug text of a string. -/
def debug (s : Text) : Text := '"' :: (s.flatMap (debugChar unprintable) ++ ['"'])

variable {unprintable} {c d : Char}

theorem debugChar_shown (h : isHidden unprintable c = false) :
    debugChar unprintable c =
      if c = '"' then ['\\', '"'] else if c = '\\' then ['\\', '\\'] else [c] := by
  have hcontrol : ∀ d : Char, d.toNat < 0x20 → ¬c = d := by
    rintro d hd rfl
    simp [isHidden, hd] at h
  rw [debugChar, if_neg (hcontrol _ (by decide)), if_neg (hcontrol _ (by decide)),
    if_neg (hcontrol _ (by decide)), if_neg (hcontrol _ (by decide)), h]
  rfl

theorem hexChar_spec : ∀ d < 16, hexChar d ≠ '\\' ∧ hexChar d ≠ '/' := by decide

theorem hexText_count (hd : d = '\\' ∨ d = '/') : (hexText c).count d = 0 := by
  refine List.count_eq_zero.2 fun hmem => ?_
  obtain ⟨n, hn, rfl⟩ := List.mem_map.1 hmem
  have hlt : n < 16 := Nat.digits_lt_base (by decide) (List.mem_reverse.1 hn)
  exact hd.elim (hexChar_spec n hlt).1 (hexChar_spec n hlt).2

/-- A hidden character is written with one backslash and without a slash. -/
theorem debugChar_hidden (h : isHidden unprintable c) :
    (debugChar unprintable c).count '\\' = 1 ∧ (debugChar unprintable c).count '/' = 0 := by
  have hquote : ¬c = '"' := by rintro rfl; simp [isHidden] at h
  have hslash : ¬c = '\\' := by rintro rfl; simp [isHidden] at h
  unfold debugChar
  split
  · decide
  split
  · decide
  split
  · decide
  split
  · decide
  simp [List.count_append, hexText_count]

end MiniDregg.Text
