import MiniDregg.Control.Fallible
import MiniDregg.Text.Numerals
import Mathlib.Data.List.TakeWhile

/-!
# Tokens of the law grammar

The tokenizer of `shell/law.rs`: words, canonical integers of any width, quoted
strings with two escapes, and punctuation. Every token has one spelling, and an
accepted text is its tokens' spellings with whitespace between them.

## Implementation notes

The source scans by index. Here the text is consumed from the front, and the
main loop counts down from the length of the text, because every turn of it
consumes a character.
-/

namespace MiniDregg.Law

open Fallible List Char Text

/-- The punctuation of the grammar. -/
inductive Punct
  | eq | le | lbracket | rbracket | lparen | rparen | lbrace | rbrace | comma | semi | plus
deriving DecidableEq, Repr

/-- The spelling of a punctuation token. -/
def Punct.text : Punct → Text
  | eq => "=="
  | le => "<="
  | lbracket => "["
  | rbracket => "]"
  | lparen => "("
  | rparen => ")"
  | lbrace => "\x7b"
  | rbrace => "\x7d"
  | comma => ","
  | semi => ";"
  | plus => "+"

/-- A token. -/
inductive Tok
  | word (w : Text)
  | int (n : Text)
  | str (s : Text)
  | punct (p : Punct)
deriving DecidableEq, Repr

/-- The characters with Unicode's `White_Space` property. -/
def isWhitespace (c : Char) : Bool :=
  let n := c.toNat
  (9 ≤ n && n ≤ 13) || n == 32 || n == 0x85 || n == 0xA0 || n == 0x1680 ||
    (0x2000 ≤ n && n ≤ 0x200A) || n == 0x2028 || n == 0x2029 || n == 0x202F ||
    n == 0x205F || n == 0x3000

/-- The characters a word continues with. -/
def isWordChar (c : Char) : Bool := c.isAlphanum || c == '_'

/-- The punctuation that is one character. -/
def singlePunct (c : Char) : Option Punct :=
  [Punct.lbracket, .rbracket, .lparen, .rparen, .lbrace, .rbrace, .comma, .semi, .plus].find?
    fun p => p.text == [c]

/-- The rest of a quoted string: its content, and the text behind the closing quote. -/
def stringBody : Text → Result (Text × Text)
  | [] => .error "unterminated string"
  | '"' :: rest => .ok ([], rest)
  | '\\' :: '"' :: rest => do
    let (s, rest) ← stringBody rest
    pure ('"' :: s, rest)
  | '\\' :: '\\' :: rest => do
    let (s, rest) ← stringBody rest
    pure ('\\' :: s, rest)
  | '\\' :: _ => .error "only \\\" and \\\\ escapes are allowed in a string"
  | ch :: rest => do
    let (s, rest) ← stringBody rest
    pure (ch :: s, rest)

/-- Whether scanned digits are refused: no digit, a leading zero, or minus zero. -/
def notCanonical (digits : Text) : Bool :=
  let magnitude := magnitude digits
  magnitude.isEmpty || (1 < magnitude.length && magnitude.head? == some '0') ||
    digits == "-0"

/-- The token that starts with `c`, and the text behind it. -/
def nextTok (c : Char) (text : Text) : Result (Tok × Text) :=
  if c = '=' ∧ text.head? = some '=' then .ok (.punct .eq, text.tail)
  else if c = '<' ∧ text.head? = some '=' then .ok (.punct .le, text.tail)
  else match singlePunct c with
    | some p => .ok (.punct p, text)
    | none =>
      if c = '"' then do
        let (s, rest) ← stringBody text
        pure (.str s, rest)
      else if c = '-' ∨ c.isDigit then
        let digits := c :: text.takeWhile Char.isDigit
        if notCanonical digits then
          .error ("`" ++ String.ofList digits ++ "` is not a canonical integer")
        else .ok (.int digits, text.dropWhile Char.isDigit)
      else if c.isAlpha then
        .ok (.word (c :: text.takeWhile isWordChar), text.dropWhile isWordChar)
      else .error ("unexpected `" ++ String.ofList [c] ++ "`")

/-- The tokenizer's main loop. -/
def tokensFrom : Nat → Text → Result (List Tok)
  | 0, _ => .ok []
  | _ + 1, [] => .ok []
  | fuel + 1, c :: text =>
    if isWhitespace c then tokensFrom fuel text
    else do
      let (tok, rest) ← nextTok c text
      let toks ← tokensFrom fuel rest
      pure (tok :: toks)

/-- Split a law text into tokens. -/
def tokens (text : Text) : Result (List Tok) := tokensFrom text.length text

/-- How a character of a quoted string is written. -/
def escapeQuoted (c : Char) : Text :=
  if c = '"' then ['\\', '"'] else if c = '\\' then ['\\', '\\'] else [c]

/-- The one spelling of a token. -/
def Tok.text : Tok → Text
  | word w => w
  | int n => n
  | str s => '"' :: (s.flatMap escapeQuoted ++ ['"'])
  | punct p => p.text

/-- The tokens that a text can contain. -/
def Tok.Valid : Tok → Prop
  | word w => ∃ c rest, w = c :: rest ∧ c.isAlpha ∧ ∀ d ∈ rest, isWordChar d
  | int n => n.Canonical
  | str _ | punct _ => True

/-! ## One token -/

theorem singlePunct_text {c : Char} {p : Punct} (h : singlePunct c = some p) : p.text = [c] := by
  have hp := List.find?_some h
  exact eq_of_beq hp

theorem singlePunct_eq_none {c : Char} (h : ∀ p : Punct, p.text ≠ [c]) : singlePunct c = none := by
  cases hp : singlePunct c with
  | none => rfl
  | some p => exact absurd (singlePunct_text hp) (h p)

/-- Letters, digits, the minus sign and the quote are no punctuation. -/
theorem Punct.text_ne {c : Char} (h : c.isAlphanum ∨ c = '-' ∨ c = '"') (p : Punct) :
    p.text ≠ [c] := by
  rintro hp
  cases p <;> simp only [Punct.text] at hp <;> obtain rfl : _ = c := (cons.inj hp).1 <;>
    revert h <;> decide

theorem stringBody_escaped (s rest : Text) :
    stringBody (s.flatMap escapeQuoted ++ '"' :: rest) = .ok (s, rest) := by
  induction s with
  | nil => rfl
  | cons c s ih =>
    rw [List.flatMap_cons, List.append_assoc, escapeQuoted]
    split
    next hc =>
      subst hc
      simp [stringBody, ih]
    · split
      next hc =>
        subst hc
        simp [stringBody, ih]
      next hquote hslash =>
        simp [stringBody, ih, hslash]

variable {text n : Text}

/-- A string is accepted only in its one escaped spelling. -/
theorem stringBody_eq_ok {s rest : Text} (h : stringBody text = .ok (s, rest)) :
    text = s.flatMap escapeQuoted ++ '"' :: rest := by
  induction text using stringBody.induct generalizing s with
  | case1 => cases h
  | case2 tail =>
    cases h
    rfl
  | case3 tail ih | case4 tail ih =>
    obtain ⟨⟨s', rest'⟩, hs, hret⟩ := bind_eq_ok.1 h
    cases hret
    rw [ih hs]
    rfl
  | case5 tail hquote hslash =>
    rw [stringBody.eq_5 tail hquote hslash] at h
    cases h
  | case6 c tail hquote hqq hss hslash ih =>
    rw [stringBody.eq_6 c tail hquote hqq hss hslash] at h
    obtain ⟨⟨s', rest'⟩, hs, hret⟩ := bind_eq_ok.1 h
    cases hret
    rw [ih hs, flatMap_cons, escapeQuoted, if_neg hquote, if_neg hslash]
    rfl

variable {c : Char} {ds : Text}

theorem notCanonical_eq_false (hc : c = '-' ∨ c.isDigit) (hds : ∀ d ∈ ds, d.isDigit)
    (h : notCanonical (c :: ds) = false) : Text.Canonical (c :: ds) := by
  simp only [notCanonical, Bool.or_eq_false_iff, isEmpty_eq_false_iff, Bool.and_eq_false_iff,
    decide_eq_false_iff_not, beq_eq_false_iff_ne] at h
  obtain ⟨⟨hne, hlead⟩, hzero⟩ := h
  refine ⟨⟨hne, ?_, ?_⟩, hzero⟩
  · intro d hd
    by_cases hminus : c = '-'
    · subst hminus
      exact hds d hd
    · rw [magnitude.eq_2 _ (by simpa using hminus)] at hd
      rcases mem_cons.1 hd with rfl | hmem
      · exact hc.resolve_left hminus
      · exact hds d hmem
  · intro rest hrest
    rw [hrest] at hlead
    simpa using hlead

theorem notCanonical_of_canonical (h : n.Canonical) : notCanonical n = false := by
  simp only [notCanonical, Bool.or_eq_false_iff, isEmpty_eq_false_iff,
    Bool.and_eq_false_iff, decide_eq_false_iff_not, beq_eq_false_iff_ne]
  refine ⟨⟨h.magnitude.nonempty, ?_⟩, h.noNegativeZero⟩
  by_cases hlen : 1 < (magnitude n).length
  · refine .inr fun hhead => ?_
    obtain ⟨rest, hrest⟩ := head?_eq_some_iff.1 hhead
    rw [hrest, h.magnitude.noLeadingZero rest hrest] at hlen
    exact absurd hlen (by simp)
  · exact .inl hlen

variable {rest : Text}

/-- What is read is the token's spelling. -/
theorem nextTok_eq_ok {tok : Tok} (h : nextTok c text = .ok (tok, rest)) :
    c :: text = tok.text ++ rest ∧ tok.Valid := by
  unfold nextTok at h
  split at h
  next hc =>
    cases h
    obtain ⟨tail, rfl⟩ := head?_eq_some_iff.1 hc.2
    exact ⟨by rw [hc.1]; rfl, trivial⟩
  split at h
  next hc =>
    cases h
    obtain ⟨tail, rfl⟩ := head?_eq_some_iff.1 hc.2
    exact ⟨by rw [hc.1]; rfl, trivial⟩
  split at h
  next p hp =>
    cases h
    exact ⟨by rw [Tok.text, singlePunct_text hp]; rfl, trivial⟩
  split at h
  next hc =>
    obtain ⟨⟨s, rest'⟩, hs, hret⟩ := bind_eq_ok.1 h
    cases hret
    refine ⟨?_, trivial⟩
    rw [hc, stringBody_eq_ok hs]
    simp [Tok.text]
  split at h
  next hc =>
    have hds : ∀ d ∈ text.takeWhile isDigit, d.isDigit := fun d => mem_takeWhile_imp
    dsimp only at h
    split at h
    · cases h
    next hcanon =>
      cases h
      refine ⟨?_, notCanonical_eq_false hc hds (by simpa using hcanon)⟩
      simp [Tok.text]
  split at h
  next hc =>
    cases h
    refine ⟨?_, c, _, rfl, hc, fun d => mem_takeWhile_imp⟩
    simp [Tok.text]
  · cases h

/-- The text behind a word or a number does not continue it. -/
def Breaks (rest : Text) : Prop := ∀ c ∈ rest.head?, isWordChar c = false

theorem takeWhile_append_of_all {q : Char → Bool} (hds : ∀ d ∈ ds, q d)
    (hrest : ∀ c ∈ rest.head?, q c = false) :
    (ds ++ rest).takeWhile q = ds ∧ (ds ++ rest).dropWhile q = rest := by
  rw [takeWhile_append_of_pos hds, dropWhile_append_of_pos hds]
  cases rest with
  | nil => simp
  | cons c rest =>
    have hc := hrest c rfl
    simp [hc]

theorem Breaks.not_digit (h : Breaks rest) : ∀ c ∈ rest.head?, c.isDigit = false := by
  intro c hc
  have hword := h c hc
  simp only [isWordChar, isAlphanum, Bool.or_eq_false_iff] at hword
  exact hword.1.2

theorem isAlpha_iff :
    c.isAlpha ↔ (65 ≤ c.toNat ∧ c.toNat ≤ 90) ∨ (97 ≤ c.toNat ∧ c.toNat ≤ 122) := by
  change (decide (c.val ≥ 65 ∧ c.val ≤ 90) || decide (c.val ≥ 97) && decide (c.val ≤ 122)) = true ↔ _
  simp only [Bool.or_eq_true, Bool.and_eq_true, decide_eq_true_eq, Char.toNat]
  exact Iff.rfl

theorem isWhitespace_of_alphanum (h : c.isAlphanum) : isWhitespace c = false := by
  rw [isAlphanum, Bool.or_eq_true, isAlpha_iff, isDigit_iff] at h
  simp only [isWhitespace, Bool.or_eq_false_iff, Bool.and_eq_false_iff, decide_eq_false_iff_not,
    beq_eq_false_iff_ne]
  omega

theorem ne_of_alphanum {d : Char} (h : c.isAlphanum) (hd : d.isAlphanum = false) : c ≠ d := by
  rintro rfl
  exact absurd h (by simp [hd])

theorem not_isDigit_of_isAlpha (h : c.isAlpha) : c.isDigit = false := by
  rw [isAlpha_iff] at h
  rw [← Bool.not_eq_true, isDigit_iff]
  omega

theorem nextTok_word (hc : c.isAlpha) (hds : ∀ d ∈ ds, isWordChar d) (hrest : Breaks rest) :
    nextTok c (ds ++ rest) = .ok (.word (c :: ds), rest) := by
  have halnum : c.isAlphanum := by simp [isAlphanum, hc]
  have hpunct : singlePunct c = none := singlePunct_eq_none (Punct.text_ne (.inl halnum))
  have hne {d : Char} (hd : d.isAlphanum = false) : ¬c = d := ne_of_alphanum halnum hd
  obtain ⟨htake, hdrop⟩ := takeWhile_append_of_all hds hrest
  rw [nextTok, if_neg (fun h => hne (by decide) h.1), if_neg (fun h => hne (by decide) h.1), hpunct]
  dsimp only
  rw [if_neg (hne (by decide)), if_neg (by simp [hne, not_isDigit_of_isAlpha hc]), if_pos hc,
    htake, hdrop]

theorem nextTok_int (h : Text.Canonical (c :: ds)) (hrest : Breaks rest) :
    nextTok c (ds ++ rest) = .ok (.int (c :: ds), rest) := by
  obtain ⟨hc, hds⟩ := h.of_cons
  have halnum : c.isAlphanum ∨ c = '-' ∨ c = '"' := by
    rcases hc with rfl | hdigit
    · exact .inr (.inl rfl)
    · exact .inl (by simp [Char.isAlphanum, hdigit])
  have hpunct : singlePunct c = none := singlePunct_eq_none (Punct.text_ne halnum)
  have hne {d : Char} (hd : d ≠ '-' ∧ d.isDigit = false) : ¬c = d := by
    rintro rfl
    rcases hc with hminus | hdigit
    · exact hd.1 hminus
    · exact absurd hdigit (by simp [hd.2])
  obtain ⟨htake, hdrop⟩ := takeWhile_append_of_all hds hrest.not_digit
  rw [nextTok, if_neg (fun h => hne (by decide) h.1), if_neg (fun h => hne (by decide) h.1), hpunct]
  dsimp only
  rw [if_neg (hne (by decide)), if_pos hc, htake, hdrop, notCanonical_of_canonical h]
  rfl

/-- The tokens that the text behind them could continue. -/
def Tok.isOpen : Tok → Bool
  | word _ | int _ => true
  | str _ | punct _ => false

/-- A valid token's spelling is read back as the token. -/
theorem nextTok_text {tok : Tok} (hvalid : tok.Valid) {rest : Text}
    (hrest : tok.isOpen → Breaks rest) :
    ∃ c text, tok.text = c :: text ∧ isWhitespace c = false ∧
      nextTok c (text ++ rest) = .ok (tok, rest) := by
  cases tok with
  | word w =>
    obtain ⟨c, ds, rfl, hc, hds⟩ := hvalid
    have halnum : c.isAlphanum := by simp [Char.isAlphanum, hc]
    exact ⟨c, ds, rfl, isWhitespace_of_alphanum halnum, nextTok_word hc hds (hrest rfl)⟩
  | int n =>
    have hcanon : n.Canonical := hvalid
    cases n with
    | nil => exact absurd rfl hcanon.magnitude.nonempty
    | cons c ds =>
      refine ⟨c, ds, rfl, ?_, nextTok_int hcanon (hrest rfl)⟩
      rcases hcanon.of_cons.1 with rfl | hdigit
      · rfl
      · exact isWhitespace_of_alphanum (by simp [Char.isAlphanum, hdigit])
  | str s =>
    refine ⟨'"', _, rfl, rfl, ?_⟩
    have hpunct : singlePunct '"' = none := by decide
    rw [nextTok, if_neg (by simp), if_neg (by simp), hpunct]
    dsimp only
    rw [if_pos rfl, append_assoc, singleton_append, stringBody_escaped]
    rfl
  | punct p =>
    cases p <;> exact ⟨_, _, rfl, rfl, rfl⟩

theorem nextTok_length {tok : Tok} (h : nextTok c text = .ok (tok, rest)) :
    rest.length ≤ text.length := by
  obtain ⟨hspell, hvalid⟩ := nextTok_eq_ok h
  obtain ⟨d, ds, hd, -⟩ := nextTok_text hvalid (fun _ => by simp [Breaks] : _ → Breaks [])
  have hlen := congrArg length hspell
  rw [hd, length_append, length_cons, length_cons] at hlen
  omega

/-! ## The whole text -/

/-- Fuel for every character is enough. -/
theorem tokensFrom_eq {fuel : Nat} (hfuel : text.length ≤ fuel) :
    tokensFrom fuel text = tokens text := by
  suffices hall : ∀ fuel' text, text.length ≤ fuel → text.length ≤ fuel' →
      tokensFrom fuel text = tokensFrom fuel' text from hall text.length text hfuel le_rfl
  clear hfuel
  induction fuel with
  | zero =>
    intro fuel' text hlen _
    obtain rfl := length_eq_zero_iff.1 (Nat.le_zero.1 hlen)
    cases fuel' <;> rfl
  | succ fuel ih =>
    intro fuel' text hlen hlen'
    cases text with
    | nil => cases fuel' <;> rfl
    | cons c text =>
      obtain ⟨fuel', rfl⟩ := Nat.exists_eq_add_of_le' (Nat.one_le_of_lt hlen')
      have hle : text.length ≤ fuel := Nat.le_of_succ_le_succ hlen
      have hle' : text.length ≤ fuel' := Nat.le_of_succ_le_succ hlen'
      rw [tokensFrom, tokensFrom, ih fuel' text hle hle']
      split
      · rfl
      · cases hnext : nextTok c text with
        | error e => rfl
        | ok out =>
          obtain ⟨tok, rest⟩ := out
          have hrest := nextTok_length hnext
          rw [ok_bind, ok_bind]
          dsimp only
          rw [ih fuel' rest (hrest.trans hle) (hrest.trans hle')]

@[simp] theorem tokens_nil : tokens [] = .ok [] := rfl

theorem tokens_space (hc : isWhitespace c) (text : Text) : tokens (c :: text) = tokens text := by
  rw [tokens, length_cons, tokensFrom, if_pos hc]
  exact tokensFrom_eq le_rfl

theorem tokens_tok {tok : Tok} (hvalid : tok.Valid) (hrest : tok.isOpen → Breaks rest) :
    tokens (tok.text ++ rest) = (tokens rest).map (tok :: ·) := by
  obtain ⟨c, text, htext, hspace, hnext⟩ := nextTok_text hvalid hrest
  rw [htext, cons_append, tokens, length_cons, tokensFrom, if_neg (by simp [hspace]),
    hnext, ok_bind]
  dsimp only
  rw [tokensFrom_eq (by simp)]
  cases tokens rest <;> rfl

variable {toks : List Tok}

/-- One turn of the tokenizer on a nonempty text that it accepts. -/
theorem tokens_cons_eq_ok (h : tokens (c :: text) = .ok toks) :
    (isWhitespace c ∧ tokens text = .ok toks) ∨
      ∃ tok rest more, c :: text = tok.text ++ rest ∧ tok.Valid ∧ toks = tok :: more ∧
        rest.length ≤ text.length ∧ tokens rest = .ok more := by
  rw [tokens, length_cons, tokensFrom] at h
  split at h
  next hc =>
    exact .inl ⟨hc, h⟩
  · obtain ⟨⟨tok, rest⟩, hnext, hmore⟩ := bind_eq_ok.1 h
    obtain ⟨more, htoks, hret⟩ := bind_eq_ok.1 hmore
    obtain ⟨hspell, hvalid⟩ := nextTok_eq_ok hnext
    have hrest := nextTok_length hnext
    rw [tokensFrom_eq hrest] at htoks
    exact .inr ⟨tok, rest, more, hspell, hvalid, (Except.ok.inj hret).symm, hrest, htoks⟩

/-- An accepted text has valid tokens only, and its characters other than
whitespace are counted by the spellings of its tokens. -/
theorem tokens_eq_ok (h : tokens text = .ok toks) :
    (∀ tok ∈ toks, tok.Valid) ∧
      ∀ c, isWhitespace c = false → text.count c = (toks.map (·.text.count c)).sum := by
  induction hlen : text.length using Nat.strong_induction_on generalizing text toks with
  | _ n ih =>
    cases text with
    | nil =>
      obtain rfl := Except.ok.inj h
      simp
    | cons d text =>
      subst hlen
      rcases tokens_cons_eq_ok h with ⟨hd, htext⟩ |
        ⟨tok, rest, more, hspell, hvalid, rfl, hle, hmore⟩
      · obtain ⟨hvalid, hcount⟩ := ih _ (Nat.lt_succ_self _) htext rfl
        refine ⟨hvalid, fun c hc => ?_⟩
        have hne : d ≠ c := by rintro rfl; simp [hd] at hc
        rw [count_cons_of_ne hne, hcount c hc]
      · obtain ⟨hall, hcount⟩ := ih _ (Nat.lt_succ_of_le hle) hmore rfl
        refine ⟨by simpa using ⟨hvalid, hall⟩, fun c hc => ?_⟩
        rw [hspell, count_append, hcount c hc]
        simp

/-! ## Texts put together from spellings -/

/-- The text yields the tokens wherever no word or number runs on behind it. -/
def Lexes (text : Text) (toks : List Tok) : Prop :=
  ∀ rest, Breaks rest → tokens (text ++ rest) = (tokens rest).map (toks ++ ·)

/-- The text yields the tokens in front of anything, and breaks what stands before it. -/
structure Separator (text : Text) (toks : List Tok) : Prop where
  ne_nil : text ≠ []
  breaks : Breaks text
  lexes : ∀ rest, tokens (text ++ rest) = (tokens rest).map (toks ++ ·)

theorem map_append_map {ε : Type} (x : Except ε (List Tok)) (ts ts' : List Tok) :
    (x.map (ts' ++ ·)).map (ts ++ ·) = x.map ((ts ++ ts') ++ ·) := by
  cases x <;> simp [Except.map]

section Compose
variable {a b s s' : Text} {ta tb ts ts' : List Tok}

theorem Lexes.tok {tok : Tok} (h : tok.Valid) : Lexes tok.text [tok] :=
  fun _ hrest => tokens_tok h fun _ => hrest

theorem Separator.punct (p : Punct) : Separator p.text [.punct p] where
  ne_nil := by cases p <;> decide
  breaks := by cases p <;> simp [Punct.text, Breaks, isWordChar]
  lexes _ := tokens_tok (show (Tok.punct p).Valid from trivial) (by simp [Tok.isOpen])

theorem Separator.space : Separator [' '] [] where
  ne_nil := by decide
  breaks := by simp [Breaks, isWordChar]
  lexes rest := by
    rw [singleton_append, tokens_space (by decide)]
    cases tokens rest <;> rfl

theorem Separator.breaks_append (h : Separator s ts) (rest : Text) : Breaks (s ++ rest) := by
  obtain ⟨c, tail, rfl⟩ := exists_cons_of_ne_nil h.ne_nil
  exact h.breaks

theorem Separator.append (h : Separator s ts) (h' : Separator s' ts') :
    Separator (s ++ s') (ts ++ ts') where
  ne_nil := by simp [h.ne_nil]
  breaks := h.breaks_append s'
  lexes rest := by rw [append_assoc, h.lexes, h'.lexes, map_append_map]

theorem Lexes.append (ha : Lexes a ta) (h : Separator s ts) : Lexes (a ++ s) (ta ++ ts) := by
  intro rest _
  rw [append_assoc, ha _ (h.breaks_append rest), h.lexes, map_append_map]

theorem Separator.before (h : Separator s ts) (hb : Lexes b tb) : Lexes (s ++ b) (ts ++ tb) := by
  intro rest hrest
  rw [append_assoc, h.lexes, hb rest hrest, map_append_map]

theorem Lexes.between (ha : Lexes a ta) (h : Separator s ts) (hb : Lexes b tb) :
    Lexes (a ++ (s ++ b)) (ta ++ (ts ++ tb)) := by
  intro rest hrest
  rw [append_assoc, append_assoc, ha _ (h.breaks_append _), ← append_assoc,
    h.before hb rest hrest, map_append_map]

theorem Separator.around (h : Separator s ts) (ha : Lexes a ta) (h' : Separator s' ts') :
    Separator (s ++ (a ++ s')) (ts ++ (ta ++ ts')) where
  ne_nil := by simp [h.ne_nil]
  breaks := h.breaks_append _
  lexes rest := by
    rw [append_assoc, append_assoc, h.lexes, ha _ (h'.breaks_append rest), h'.lexes,
      map_append_map, map_append_map, append_assoc]

/-- Texts joined by a separator yield their tokens joined by the separator's. -/
theorem Separator.intercalate (h : Separator s ts) (items : List (Text × List Tok))
    (hne : items ≠ []) (hitems : ∀ i ∈ items, Lexes i.1 i.2) :
    Lexes (s.intercalate (items.map Prod.fst)) (ts.intercalate (items.map Prod.snd)) := by
  induction items with
  | nil => exact absurd rfl hne
  | cons item items ih =>
    have hitem := hitems item (by simp)
    cases items with
    | nil => simpa using hitem
    | cons next items =>
      have htail := ih (by simp) fun i hi => hitems i (mem_cons_of_mem _ hi)
      have hall := hitem.between h htail
      simp only [map_cons, intercalate_cons_cons, append_assoc] at hall ⊢
      exact hall

end Compose

end MiniDregg.Law
