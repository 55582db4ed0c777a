import MiniDregg.Law.Grammar
import MiniDregg.Text.Json

/-!
# Rendering a law

`render_slot`, `render_value` and `render_clause` of `shell/law.rs`, and the
slots whose rendered text stands for them in the grammar.

## Implementation notes

The patterns of `render_slot` are collected in `slotWord`, which gives the
words that stand for a slot name. A predicate without a rendering of its own is
printed as JSON, with the keys in the order of the serializer's sorted map.
-/

namespace MiniDregg.Law

open Fallible List Text FieldView

/-- The words for a slot whose name matches a pattern of `render_slot`. -/
def slotWord (slot : Text) : Option SlotWord :=
  match slot.splitOn '/' with
  | [a, b, n, v] =>
    if a = "resource" ∧ b = "field" then (read v).map (.field n) else none
  | [a, b, m, n, v] =>
    if a = "resource" ∧ b = "pair" ∧ v = "delta" then some (.pair m n)
    else none
  | [a, b] => if a = "request" then (RequestWord.read b).map .request else none
  | _ => none

/-- The text of the words for a slot. -/
def SlotWord.render : SlotWord → Text
  | field n .after => "field " ++ n
  | field n .before => "field " ++ (n ++ " before")
  | field n .delta => "field " ++ (n ++ " delta")
  | pair a b => "pair " ++ (a ++ ("," ++ (b ++ " delta")))
  | request word => word.text

/-- Read an integer that fits 64 bits. -/
def parseI64 (value : Text) : Option Int :=
  (readInt value).filter fun z => -2 ^ 63 ≤ z ∧ z < 2 ^ 63

/-- A slot value, with the verbs under their names. -/
def renderValue (slot value : Text) : Text :=
  if slot = verbSlot then
    match (parseI64 value).bind fun tag => verbs.find? fun verb => verb.2 == tag with
    | some verb => verb.1
    | none => value
  else value

/-- Clauses between brackets, with a word of its own for no clause. -/
def listText (ty empty : Text) (items : List Text) : Text :=
  if items.isEmpty then empty
  else ty ++ (" [ ".toList ++ (", ".toList.intercalate items ++ " ]".toList))

section Render
variable (unprintable : Char → Bool)

def renderSlot (slot : Text) : Text :=
  match slotWord slot with
  | some word => word.render
  | none => "slot " ++ debug unprintable slot

mutual

/-- Render a predicate in the law grammar. -/
def renderClause : Pred → Text
  | .eq slot value => renderSlot unprintable slot ++ (" == " ++ renderValue slot value)
  | .le slot value => renderSlot unprintable slot ++ (" <= " ++ renderValue slot value)
  | .memberOf slot values =>
    renderSlot unprintable slot ++ (" in \x7b" ++
      ([','].intercalate (values.map (renderValue slot)) ++ "\x7d"))
  | .writeOnce slot => renderSlot unprintable slot ++ " writeOnce"
  | .monotone slot => renderSlot unprintable slot ++ " monotone"
  | .eqSlots left right =>
    renderSlot unprintable left ++ (" == " ++ renderSlot unprintable right)
  | .leSlots left right =>
    renderSlot unprintable left ++ (" <= " ++ renderSlot unprintable right)
  | .leSlotsOff left right offset =>
    renderSlot unprintable left ++ (" <= " ++
      (renderSlot unprintable right ++ (" + " ++ offset)))
  | .hashEq values blinder commit =>
    renderSlot unprintable commit ++ (" opens (" ++
      (", ".toList.intercalate (values.map (renderSlot unprintable)) ++
        (") with " ++ renderSlot unprintable blinder)))
  | .ran program => "ran " ++ program
  | .not p => "not (" ++ (renderClause p ++ ")")
  | .all ps => listText "all" "open" (renderClauses ps)
  | .any ps => listText "any" "sealed" (renderClauses ps)
  | .sumEq left right =>
    "\x7b\"left\":" ++ jsonTexts left ++ ",\"right\":" ++ jsonTexts right ++
      ",\"type\":\"sumEq\"\x7d"
  | .witnessed identifier =>
    "\x7b\"identifier\":" ++ jsonText identifier ++ ",\"type\":\"witnessed\"\x7d"

/-- Render each predicate of a list. -/
def renderClauses : List Pred → List Text
  | [] => []
  | p :: ps => renderClause p :: renderClauses ps

end

variable (ps : List Pred)

theorem renderClauses_eq :
    renderClauses unprintable ps = ps.map (renderClause unprintable) := by
  induction ps with
  | nil => rfl
  | cons p ps ih => exact congrArg (renderClause unprintable p :: ·) ih

theorem renderClause_memberOf (slot : Text) (values : List Text) :
    renderClause unprintable (.memberOf slot values) =
      renderSlot unprintable slot ++ (" in \x7b" ++
        ([','].intercalate (values.map (renderValue slot)) ++ "\x7d")) := rfl

theorem renderClause_hashEq (values : List Text) (blinder commit : Text) :
    renderClause unprintable (.hashEq values blinder commit) =
      renderSlot unprintable commit ++ (" opens (" ++
        (", ".toList.intercalate (values.map (renderSlot unprintable)) ++
          (") with " ++ renderSlot unprintable blinder))) := rfl

theorem renderClause_not (p : Pred) :
    renderClause unprintable (.not p) =
      "not (".toList ++ (renderClause unprintable p ++ ")".toList) := rfl

theorem renderClause_all :
    renderClause unprintable (.all ps) =
      listText "all".toList "open".toList (ps.map (renderClause unprintable)) :=
  congrArg (listText _ _) (renderClauses_eq unprintable ps)

theorem renderClause_any :
    renderClause unprintable (.any ps) =
      listText "any".toList "sealed".toList (ps.map (renderClause unprintable)) :=
  congrArg (listText _ _) (renderClauses_eq unprintable ps)

end Render

/-- The words of a slot in which every number is canonical. -/
def SlotWord.Canonical : SlotWord → Prop
  | field n _ => n.CanonicalNat
  | pair a b => a.CanonicalNat ∧ b.CanonicalNat
  | request _ => True

/-- The slots whose rendered text the grammar reads back: the words have
canonical numbers, or the quoted name shows every character. -/
def Readable (unprintable : Char → Bool) (slot : Text) : Prop :=
  match slotWord slot with
  | some word => word.Canonical
  | none => ∀ c ∈ slot, isHidden unprintable c = false

instance (ds : Text) : Decidable ds.CanonicalNat :=
  decidable_of_iff
      (ds ≠ [] ∧ ds.all Char.isDigit = true ∧ (ds.head? = some '0' → ds.tail = [])) <| by
    constructor
    · rintro ⟨hne, hdigits, hzero⟩
      refine ⟨hne, all_eq_true.1 hdigits, ?_⟩
      rintro rest rfl
      exact hzero rfl
    · rintro ⟨hne, hdigits, hzero⟩
      refine ⟨hne, all_eq_true.2 hdigits, fun hhead => ?_⟩
      obtain ⟨rest, rfl⟩ := head?_eq_some_iff.1 hhead
      exact hzero rest rfl

instance (word : SlotWord) : Decidable word.Canonical :=
  match word with
  | .field n _ => inferInstanceAs (Decidable n.CanonicalNat)
  | .pair a b => inferInstanceAs (Decidable (a.CanonicalNat ∧ b.CanonicalNat))
  | .request _ => inferInstanceAs (Decidable True)

instance (unprintable : Char → Bool) (slot : Text) : Decidable (Readable unprintable slot) :=
  match h : slotWord slot with
  | some word => decidable_of_iff word.Canonical (by simp [Readable, h])
  | none =>
    decidable_of_iff (slot.all (fun c => !isHidden unprintable c) = true)
      (by simp [Readable, h])

/-! ## The words of a slot -/

theorem splitOn_path {parts : List Text} (hne : parts ≠ []) (h : ∀ part ∈ parts, '/' ∉ part) :
    (path parts).splitOn '/' = parts := splitOn_intercalate '/' h hne

variable {n : Text} {word : SlotWord} {slot : Text} {c : Char}

theorem CanonicalNat.slash_notMem (h : n.CanonicalNat) : '/' ∉ n :=
  fun hmem => absurd (h.digits _ hmem) (by decide)

theorem slotWord_name (h : word.Canonical) : slotWord word.name = some word := by
  cases word with
  | field n view =>
    have hn := CanonicalNat.slash_notMem h
    have hview : '/' ∉ view.text := by cases view <;> decide
    have hread : read view.text = some view := read_eq_some.2 rfl
    rw [slotWord, SlotWord.name, splitOn_path (by simp) (by simp [hn, hview])]
    simp [hread]
  | pair a b =>
    have ha := CanonicalNat.slash_notMem h.1
    have hb := CanonicalNat.slash_notMem h.2
    rw [slotWord, SlotWord.name, splitOn_path (by simp) (by simp [ha, hb])]
    simp
  | request word => cases word <;> decide

theorem name_of_slotWord (h : slotWord slot = some word) : word.name = slot := by
  have hpath : path (slot.splitOn '/') = slot := intercalate_splitOn '/'
  unfold slotWord at h
  split at h
  next a b n v hsplit =>
    split at h
    next hwords =>
      obtain ⟨view, hview, rfl⟩ := Option.map_eq_some_iff.1 h
      obtain rfl := read_eq_some.1 hview
      rw [← hpath, hsplit, hwords.1, hwords.2]
      rfl
    · cases h
  next a b m n v hsplit =>
    split at h
    next hwords =>
      obtain rfl := Option.some.inj h
      rw [← hpath, hsplit, hwords.1, hwords.2.1, hwords.2.2]
      rfl
    · cases h
  next a b hsplit =>
    split at h
    next hwords =>
      obtain ⟨request, hrequest, rfl⟩ := Option.map_eq_some_iff.1 h
      obtain rfl := RequestWord.read_eq_some.1 hrequest
      rw [← hpath, hsplit, hwords]
      rfl
    · cases h
  · cases h

/-- A number that the tokenizer and `nat` accept is a canonical magnitude. -/
theorem Natural.canonicalNat (h : Natural n) (hn : (Tok.int n).Valid) : n.CanonicalNat := by
  have hcanon : n.Canonical := hn
  rcases hcanon.cases with hnat | ⟨ds, rfl, -⟩
  · exact hnat
  · exact absurd rfl h

/-- A spelled slot is quoted, or it is the name of canonical words. -/
theorem SlotSpelling.cases_of_valid {used : List Tok} {b : Bool} (h : SlotSpelling used slot b)
    (hvalid : ∀ t ∈ used, t.Valid) :
    (quotes used = [slot] ∧ b = false) ∨
      (quotes used = [] ∧ ∃ word : SlotWord, word.Canonical ∧ word.name = slot ∧
        (b = true → ∃ n, word = .field n .after)) := by
  cases h with
  | @field n hn =>
    refine .inr ⟨rfl, .field n .after, hn.canonicalNat (hvalid _ (by simp)), rfl, fun _ => ⟨n, rfl⟩⟩
  | @view n hn view =>
    refine .inr ⟨rfl, .field n view, hn.canonicalNat (hvalid _ (by simp)), rfl, fun hview => ?_⟩
    exact ⟨n, by rw [eq_of_beq hview]⟩
  | @pair a b ha hb =>
    refine .inr ⟨rfl, .pair a b, ⟨ha.canonicalNat (hvalid _ (by simp)),
      hb.canonicalNat (hvalid _ (by simp))⟩, rfl, by simp⟩
  | request word => exact .inr ⟨rfl, .request word, trivial, rfl, by simp⟩
  | named s => exact .inl ⟨rfl, rfl⟩

/-! ## Counting slashes and backslashes -/

theorem notMem_of_mem_splitOn {sep : Char} {text part : Text} (h : part ∈ text.splitOn sep) :
    sep ∉ part := by
  induction text generalizing part with
  | nil => simp_all
  | cons c text ih =>
    rw [splitOn_cons_eq_if_modifyHead] at h
    split at h
    · rcases mem_cons.1 h with rfl | hmem
      · simp
      · exact ih hmem
    next hc =>
      obtain ⟨first, parts, hsplit⟩ := exists_cons_of_ne_nil (splitOn_ne_nil sep text)
      rw [hsplit, modifyHead_cons] at h
      rcases mem_cons.1 h with rfl | hmem
      · have hfirst := ih (hsplit ▸ mem_cons_self ..)
        have hne : sep ≠ c := fun heq => hc (beq_iff_eq.2 heq.symm)
        simp [hne, hfirst]
      · exact ih (hsplit ▸ mem_cons_of_mem _ hmem)

/-- The characters that stand in no word, number or punctuation. -/
def Marker (c : Char) : Prop := c = '/' ∨ c = '\\'

/-- The numbers in the words of a slot. -/
def SlotWord.numbers : SlotWord → List Text
  | field n _ => [n]
  | pair a b => [a, b]
  | request _ => []

/-- The words of a slot have the markers of their numbers. -/
theorem Marker.count_render (hc : Marker c) (h : ∀ n ∈ word.numbers, n.count c = 0) :
    word.render.count c = 0 := by
  have words : "field ".toList.count c = 0 ∧ " before".toList.count c = 0 ∧
      " delta".toList.count c = 0 ∧ "pair ".toList.count c = 0 ∧ ",".toList.count c = 0 := by
    rcases hc with rfl | rfl <;> decide
  obtain ⟨hfield, hbefore, hdelta, hpair, hcomma⟩ := words
  cases word with
  | field n view =>
    have hn : n.count c = 0 := h n (mem_singleton_self n)
    cases view with
    | after =>
      change count c ("field " ++ n) = 0
      rw [count_append, hfield, hn]
    | before =>
      change count c ("field " ++ (n ++ " before")) = 0
      rw [count_append, count_append, hfield, hn, hbefore]
    | delta =>
      change count c ("field " ++ (n ++ " delta")) = 0
      rw [count_append, count_append, hfield, hn, hdelta]
  | pair a b =>
    have ha : a.count c = 0 := h a (mem_cons_self ..)
    have hb : b.count c = 0 := h b (mem_cons_of_mem _ (mem_singleton_self b))
    change count c ("pair " ++ (a ++ ("," ++ (b ++ " delta")))) = 0
    simp only [count_append, hpair, ha, hcomma, hb, hdelta]
  | request word => rcases hc with rfl | rfl <;> cases word <;> decide

/-- The numbers of a slot are parts of its name between slashes. -/
theorem slash_notMem_numbers (h : slotWord slot = some word) :
    ∀ part ∈ word.numbers, '/' ∉ part := by
  intro part hpart
  suffices hmem : part ∈ slot.splitOn '/' from notMem_of_mem_splitOn hmem
  unfold slotWord at h
  split at h
  next a b n v hsplit =>
    split at h
    · obtain ⟨view, -, rfl⟩ := Option.map_eq_some_iff.1 h
      rw [hsplit, mem_singleton.1 hpart]
      simp
    · cases h
  next a b m n v hsplit =>
    split at h
    · obtain rfl := Option.some.inj h
      rw [hsplit]
      rcases mem_cons.1 hpart with rfl | hmem
      · simp
      · rw [mem_singleton.1 hmem]
        simp
    · cases h
  · split at h
    · obtain ⟨request, -, rfl⟩ := Option.map_eq_some_iff.1 h
      exact absurd hpart not_mem_nil
    · cases h
  · cases h

theorem count_render_slash (h : slotWord slot = some word) : word.render.count '/' = 0 :=
  Marker.count_render (.inl rfl) fun part hpart =>
    count_eq_zero.2 (slash_notMem_numbers h part hpart)

theorem Marker.count_alphanum (hc : Marker c) {text : Text} (h : ∀ d ∈ text, isWordChar d ∨ d = '-')
    : text.count c = 0 := by
  refine count_eq_zero.2 fun hmem => ?_
  have hd := h c hmem
  rcases hc with rfl | rfl <;> revert hd <;> decide

theorem Canonical.isWordChar_or (h : n.Canonical) : ∀ d ∈ n, isWordChar d ∨ d = '-' := by
  intro d hd
  have digit {d : Char} (hdigit : d.isDigit) : isWordChar d := by
    simp [isWordChar, Char.isAlphanum, hdigit]
  cases n with
  | nil => simp at hd
  | cons c ds =>
    obtain ⟨hc, hds⟩ := h.of_cons
    rcases mem_cons.1 hd with rfl | hmem
    · exact hc.elim .inr fun hdigit => .inl (digit hdigit)
    · exact .inl (digit (hds d hmem))

theorem Marker.count_canonical (hc : Marker c) (h : n.Canonical) :
    n.count c = 0 := hc.count_alphanum (Canonical.isWordChar_or h)

theorem count_escapeQuoted_slash (s : Text) : (s.flatMap escapeQuoted).count '/' = s.count '/' := by
  induction s with
  | nil => rfl
  | cons c s ih =>
    rw [flatMap_cons, count_append, ih, escapeQuoted]
    split
    next hc =>
      simp [hc]
    · split
      next hc =>
        simp [hc]
      · simp [count_cons, Nat.add_comm]

variable {unprintable : Char → Bool}

theorem debugChar_eq_escapeQuoted (h : isHidden unprintable c = false) :
    debugChar unprintable c = escapeQuoted c := debugChar_shown h

theorem escapeQuoted_hidden (h : isHidden unprintable c) :
    escapeQuoted c = [c] ∧ c ≠ '\\' ∧ c ≠ '/' := by
  have hne (d : Char) (hd : 0x20 ≤ d.toNat ∧ d.toNat < 0x7f) : c ≠ d := by
    rintro rfl
    simp only [isHidden, Bool.or_eq_true, decide_eq_true_eq, beq_iff_eq, Bool.and_eq_true] at h
    omega
  refine ⟨?_, hne _ (by decide), hne _ (by decide)⟩
  rw [escapeQuoted, if_neg (hne _ (by decide)), if_neg (hne _ (by decide))]

theorem count_debug_slash (s : Text) : (debug unprintable s).count '/' = s.count '/' := by
  have hbody : (s.flatMap (debugChar unprintable)).count '/' = s.count '/' := by
    induction s with
    | nil => rfl
    | cons c s ih =>
      rw [flatMap_cons, count_append, ih]
      cases hc : isHidden unprintable c with
      | true =>
        rw [(debugChar_hidden hc).2, count_cons_of_ne (escapeQuoted_hidden hc).2.2]
        omega
      | false =>
        have h := count_escapeQuoted_slash [c]
        rw [flatMap_singleton] at h
        rw [debugChar_eq_escapeQuoted hc, h, ← count_append, singleton_append]
  simp [debug, count_append, hbody]

/-- The debug format writes one backslash more for each character it hides. -/
theorem count_debug_backslash (s : Text) :
    (debug unprintable s).count '\\' =
      (s.flatMap escapeQuoted).count '\\' + s.countP (isHidden unprintable) := by
  have hbody : (s.flatMap (debugChar unprintable)).count '\\' =
      (s.flatMap escapeQuoted).count '\\' + s.countP (isHidden unprintable) := by
    induction s with
    | nil => rfl
    | cons c s ih =>
      rw [flatMap_cons, count_append, ih, flatMap_cons, count_append,
        countP_cons]
      cases hc : isHidden unprintable c with
      | true =>
        obtain ⟨hescape, hslash, -⟩ := escapeQuoted_hidden hc
        rw [(debugChar_hidden hc).1, hescape, count_singleton]
        simp [hslash]
        omega
      | false =>
        rw [debugChar_eq_escapeQuoted hc]
        simp
        omega
  simp [debug, count_append, hbody]

end MiniDregg.Law
