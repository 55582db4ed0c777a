import MiniDregg.Law.Render

/-!
# Law text round trip

A parsed law is rendered and parsed again. The rendered text yields the same
predicate exactly when every slot of the law is readable: a slot name that
looks like a word form but has no canonical number, or that contains a
character the debug format escapes, comes back as something else or not at all.

## Implementation notes

For readable slots the rendered text is cut into tokens piece by piece, and the
tokens spell the predicate. For the converse, slashes and backslashes are
counted: outside of quoted names no law text contains any, the rendered text
has no slash for a slot in word form, and one backslash too many for each
escaped character.
-/

namespace MiniDregg.Law

open Fallible Separated List Separator Text Law.Pred

/-- A letter and word characters behind it. -/
def isWordText : Text → Bool
  | c :: rest => c.isAlpha && rest.all isWordChar
  | [] => false

theorem lexes_word (w : Text) (h : isWordText w = true) : Lexes w [.word w] := by
  cases w with
  | nil => cases h
  | cons c rest =>
    rw [isWordText, Bool.and_eq_true, all_eq_true] at h
    exact Lexes.tok (show (Tok.word (c :: rest)).Valid from ⟨c, rest, rfl, h.1, h.2⟩)

variable {n a sep commit blinder ty empty s : Text}

theorem lexes_int (h : n.Canonical) : Lexes n [.int n] :=
  Lexes.tok (show (Tok.int n).Valid from h)

theorem Separator.spaced (p : Punct) : Separator ([' '] ++ (p.text ++ [' '])) [.punct p] :=
  space.append ((punct p).append space)

theorem Separator.word_punct (w : Text) (h : isWordText w = true) (p : Punct) :
    Separator ([' '] ++ (w ++ ([' '] ++ p.text))) [.word w, .punct p] :=
  space.around (lexes_word w h) (space.append (punct p))

theorem separator_with : Separator ") with " [.punct .rparen, .word "with"] :=
  ((punct .rparen).append space).around (lexes_word "with" rfl)
    space

theorem separator_comma : Separator ", " [.punct .comma] :=
  (punct .comma).append space

/-- A word behind a blank ends what it stands behind. -/
theorem Lexes.space_word {ta : List Tok} (ha : Lexes a ta) (w : Text)
    (h : isWordText w = true) : Lexes (a ++ (' ' :: w)) (ta ++ [.word w]) :=
  ha.between space (lexes_word w h)

theorem lexes_word_int (w : Text) (h : isWordText w = true) (hn : n.Canonical) :
    Lexes (w ++ (' ' :: n)) [.word w, .int n] :=
  (lexes_word w h).between space (lexes_int hn)

theorem Natural.of_canonicalNat (h : n.CanonicalNat) : Natural n := by
  intro hhead
  obtain ⟨rest, rfl⟩ := head?_eq_some_iff.1 hhead
  exact absurd (h.digits '-' (by simp)) (by decide)

variable {word : SlotWord}

/-- The words of a slot are spelled by their rendered text. -/
theorem lexes_words (h : word.Canonical) :
    ∃ ts b, Lexes word.render ts ∧ SlotSpelling ts word.name b ∧
      ∀ n, word = .field n .after → b = true := by
  cases word with
  | field n view =>
    have hn := Natural.of_canonicalNat h
    have hfield := lexes_word_int "field" rfl (Text.CanonicalNat.canonical h)
    cases view with
    | after => exact ⟨_, _, hfield, .field hn, fun _ _ => rfl⟩
    | before => exact ⟨_, _, hfield.space_word "before" rfl, .view hn .before, by simp⟩
    | delta => exact ⟨_, _, hfield.space_word "delta" rfl, .view hn .delta, by simp⟩
  | pair a b =>
    obtain ⟨ha, hb⟩ := h
    have hboth : Lexes (("pair " ++ a) ++ ("," ++ b))
        [.word "pair", .int a, .punct .comma, .int b] :=
      (lexes_word_int "pair" rfl ha.canonical).between (punct .comma) (lexes_int hb.canonical)
    refine ⟨_, _, ?_, .pair (.of_canonicalNat ha) (.of_canonicalNat hb), by simp⟩
    have hall := hboth.space_word "delta" rfl
    rw [append_assoc, append_assoc, append_assoc] at hall
    exact hall
  | request word =>
    refine ⟨[.word word.text], false, ?_, .request word, by simp⟩
    cases word <;> exact lexes_word _ rfl

section RoundTrip
variable {unprintable : Char → Bool}
  {slot left v : Text} {used : List Tok} {p : Pred} {c : Char} {text : Text}

/-- A readable slot is spelled by its rendered text. -/
theorem lexes_renderSlot (h : Readable unprintable slot) :
    ∃ ts b, Lexes (renderSlot unprintable slot) ts ∧ SlotSpelling ts slot b ∧
      ∀ n, slotWord slot = some (.field n .after) → b = true := by
  unfold Readable at h
  unfold renderSlot
  cases hword : slotWord slot with
  | some word =>
    rw [hword] at h
    obtain ⟨ts, b, hlexes, hspells, hafter⟩ := lexes_words h
    rw [name_of_slotWord hword] at hspells
    exact ⟨ts, b, hlexes, hspells, fun n hn => hafter n (Option.some.inj hn)⟩
  | none =>
    rw [hword] at h
    have hdebug : debug unprintable slot = (Tok.str slot).text := by
      have hbody : slot.flatMap (debugChar unprintable) = slot.flatMap escapeQuoted :=
        flatMap_congr fun c hc => debugChar_eq_escapeQuoted (h c hc)
      rw [debug, Tok.text, hbody]
    have hquoted : Lexes (Tok.str slot).text [.str slot] := Lexes.tok trivial
    refine ⟨_, _, ?_, .named slot, by simp⟩
    rw [hdebug]
    exact (lexes_word "slot" rfl).between space hquoted

/-- A spelled value is canonical. -/
theorem ValueSpelling.canonical (h : ValueSpelling left used v) (hvalid : ∀ t ∈ used, t.Valid) :
    v.Canonical := by
  cases h with
  | int => exact hvalid (.int v) (by simp)
  | verb hslot hmem => exact canonical_decimal _

/-- A canonical value is spelled by its rendered text. -/
theorem lexes_renderValue (left : Text) (h : v.Canonical) :
    ∃ ts, Lexes (renderValue left v) ts ∧ ValueSpelling left ts v := by
  unfold renderValue
  split
  next hslot =>
    split
    next verb hfind =>
      obtain ⟨tag, htag, hverb⟩ := Option.bind_eq_some_iff.1 hfind
      have hread : readInt v = some tag := (Option.filter_eq_some_iff.1 htag).1
      have hname := find?_some hverb
      have hmem := mem_of_find?_eq_some hverb
      have hword : ∀ verb ∈ verbs, isWordText verb.1 = true := by decide
      have hdecimal : decimal verb.2 = v := by
        rw [beq_iff_eq.1 hname]
        exact (h.eq_decimal hread).symm
      refine ⟨_, lexes_word verb.1 (hword verb hmem), ?_⟩
      rw [← hdecimal]
      exact .verb hslot hmem
    · exact ⟨_, lexes_int h, .int v⟩
  · exact ⟨_, lexes_int h, .int v⟩

variable {γ κ α : Type}

/-- Items whose rendered texts spell them are spelled by the joined texts. A
slot item also carries its view, so items are compared by what is rendered. -/
theorem lexes_joined (hsep : Separator sep [.punct .comma])
    (key : γ → κ) (render : κ → Text) (R : List Tok → γ → Prop) {items : List (List Tok × γ)}
    (hne : items ≠ [])
    (h : ∀ i ∈ items, ∃ out : List Tok × γ,
      Lexes (render (key i.2)) out.1 ∧ R out.1 out.2 ∧ key out.2 = key i.2) :
    ∃ items' : List (List Tok × γ), items' ≠ [] ∧ (∀ i ∈ items', R i.1 i.2) ∧
      (items'.map fun i => key i.2) = (items.map fun i => key i.2) ∧
      Lexes (sep.intercalate (items.map fun i => render (key i.2)))
        (joined (.punct .comma) items') := by
  obtain ⟨first, -⟩ := exists_mem_of_ne_nil _ hne
  have : Nonempty γ := ⟨first.2⟩
  choose! out hout using h
  refine ⟨items.map out, by simpa using hne, ?_, ?_, ?_⟩
  · exact forall_mem_map.2 fun j hj => (hout j hj).2.1
  · rw [map_map]
    exact map_congr_left fun i hi => (hout i hi).2.2
  · have hlexes := hsep.intercalate (items.map fun i => (render (key i.2), (out i).1))
      (by simpa using hne) (forall_mem_map.2 fun j hj => (hout j hj).1)
    rw [map_map, map_map] at hlexes
    rw [joined, map_map]
    exact hlexes

theorem memberOf_roundTrip {items : List (List Tok × Text)} (hne : items ≠ [])
    (hv : ∀ i ∈ items, ValueSpelling left i.1 i.2) (hvalid : ∀ i ∈ items, ∀ t ∈ i.1, t.Valid)
    (hleft : Readable unprintable left) :
    ∃ ts, Lexes (renderClause unprintable (.memberOf left (items.map Prod.snd))) ts ∧
      Atom ts (.memberOf left (items.map Prod.snd)) := by
  obtain ⟨l', b', hlex, hspell, -⟩ := lexes_renderSlot hleft
  have hitems : ∀ i ∈ items, ∃ out : List Tok × Text,
      Lexes (renderValue left i.2) out.1 ∧ ValueSpelling left out.1 out.2 ∧ out.2 = i.2 := by
    intro i hi
    obtain ⟨ts, hts, hspells⟩ := lexes_renderValue left ((hv i hi).canonical (hvalid i hi))
    exact ⟨(ts, i.2), hts, hspells, rfl⟩
  have hcomma : Separator [','] [.punct .comma] := punct .comma
  have hbrace : Separator "\x7d" [.punct .rbrace] := punct .rbrace
  obtain ⟨items', hne', hspells, hmap, hlexes⟩ :=
    lexes_joined hcomma id (renderValue left) (ValueSpelling left) hne hitems
  have hsnd : items'.map Prod.snd = items.map Prod.snd := hmap
  have hatom := Atom.memberOf hspell hne' hspells
  rw [hsnd] at hatom
  refine ⟨_, ?_, hatom⟩
  rw [renderClause_memberOf, map_map]
  exact hlex.between (.word_punct "in" rfl .lbrace) (hlexes.append hbrace)

theorem hashEq_roundTrip {items : List (List Tok × Text × Bool)}
    (hne : items ≠ []) (hnodup : (items.map (·.2.1) ++ [blinder, commit]).Nodup)
    (hcommit : Readable unprintable commit) (hblinder : Readable unprintable blinder)
    (hvalues : ∀ i ∈ items, Readable unprintable i.2.1) :
    ∃ ts, Lexes (renderClause unprintable (.hashEq (items.map (·.2.1)) blinder commit)) ts ∧
      Atom ts (.hashEq (items.map (·.2.1)) blinder commit) := by
  obtain ⟨l', b₁, hlex, hspell, -⟩ := lexes_renderSlot hcommit
  obtain ⟨r', b₂, hlex', hspell', -⟩ := lexes_renderSlot hblinder
  have hitems : ∀ i ∈ items, ∃ out : List Tok × Text × Bool,
      Lexes (renderSlot unprintable i.2.1) out.1 ∧ SlotSpelling out.1 out.2.1 out.2.2 ∧
        out.2.1 = i.2.1 := by
    intro i hi
    obtain ⟨ts, b, hts, hspells, -⟩ := lexes_renderSlot (hvalues i hi)
    exact ⟨(ts, i.2.1, b), hts, hspells, rfl⟩
  obtain ⟨items', hne', hspells, hmap, hlexes⟩ :=
    lexes_joined separator_comma Prod.fst (renderSlot unprintable)
      (fun ts s => SlotSpelling ts s.1 s.2) hne hitems
  have hatom := Atom.hashEq hspell hne' hspells hspell' (hmap ▸ hnodup)
  rw [hmap] at hatom
  refine ⟨_, ?_, hatom⟩
  rw [renderClause_hashEq, map_map]
  exact hlex.between (.word_punct "opens" rfl .lparen) (hlexes.between separator_with hlex')

theorem atom_roundTrip (h : Atom used p) (hvalid : ∀ t ∈ used, t.Valid)
    (hslots : ∀ s ∈ p.slots, Readable unprintable s) :
    ∃ ts, Lexes (renderClause unprintable p) ts ∧ Atom ts p := by
  have slot (s : Text) (hs : s ∈ p.slots := by simp [slots]) := lexes_renderSlot (hslots s hs)
  -- A slot that the parser holds for an `after` view is rendered as one.
  have after {l rest : List Tok} (left : Text) (hl : SlotSpelling l left true)
      (hl' : ∀ t ∈ l ++ rest, t.Valid) (hs : left ∈ p.slots := by simp [slots]) :
      ∃ ts, Lexes (renderSlot unprintable left) ts ∧ SlotSpelling ts left true := by
    obtain ⟨ts, b, hlex, hspell, hafter⟩ := slot left hs
    rcases hl.cases_of_valid fun t ht => hl' t (mem_append_left _ ht) with
      ⟨-, hb⟩ | ⟨-, word, hword, rfl, hview⟩
    · cases hb
    · obtain ⟨n, rfl⟩ := hview rfl
      obtain rfl := hafter n (slotWord_name hword)
      exact ⟨ts, hlex, hspell⟩
  have value {left v : Text} {t : List Tok} (hv : ValueSpelling left t v) (ht : t ⊆ used) :=
    lexes_renderValue left (hv.canonical fun t' ht' => hvalid t' (ht ht'))
  cases h with
  | @eq l left b t v hl hv =>
    obtain ⟨l', b', hlex, hspell, -⟩ := slot left
    obtain ⟨t', hlexv, hspellv⟩ := value hv (by simp)
    exact ⟨_, hlex.between (.spaced .eq) hlexv, .eq hspell hspellv⟩
  | @le l left b t v hl hv =>
    obtain ⟨l', b', hlex, hspell, -⟩ := slot left
    obtain ⟨t', hlexv, hspellv⟩ := value hv (by simp)
    exact ⟨_, hlex.between (.spaced .le) hlexv, .le hspell hspellv⟩
  | memberOf hl hne hv =>
    refine memberOf_roundTrip hne hv (fun i hi t ht => hvalid t ?_) (hslots _ (by simp [slots]))
    simp only [mem_append, mem_cons]
    exact .inr (.inr (.inr (.inl (mem_joined_of_mem hi ht))))
  | @monotone l left hl =>
    obtain ⟨l', hlex, hspell⟩ := after left hl hvalid
    exact ⟨_, hlex.space_word "monotone" rfl, .monotone hspell⟩
  | @writeOnce l left hl =>
    obtain ⟨l', hlex, hspell⟩ := after left hl hvalid
    exact ⟨_, hlex.space_word "writeOnce" rfl, .writeOnce hspell⟩
  | @eqSlots l left b r right b' hl hr =>
    obtain ⟨l', b₁, hlex, hspell, -⟩ := slot left
    obtain ⟨r', b₂, hlex', hspell', -⟩ := slot right
    exact ⟨_, hlex.between (.spaced .eq) hlex', .eqSlots hspell hspell'⟩
  | @leSlots l left b r right b' hl hr =>
    obtain ⟨l', b₁, hlex, hspell, -⟩ := slot left
    obtain ⟨r', b₂, hlex', hspell', -⟩ := slot right
    exact ⟨_, hlex.between (.spaced .le) hlex', .leSlots hspell hspell'⟩
  | @leSlotsOff l left b r right b' hl hr k =>
    obtain ⟨l', b₁, hlex, hspell, -⟩ := slot left
    obtain ⟨r', b₂, hlex', hspell', -⟩ := slot right
    have hk : Canonical k := hvalid (.int k) (by simp)
    have hsum := hlex'.between (.spaced .plus) (lexes_int hk)
    exact ⟨_, hlex.between (.spaced .le) hsum, .leSlotsOff hspell hspell' k⟩
  | hashEq hl hne hv hr hnodup =>
    refine hashEq_roundTrip hne hnodup (hslots _ (by simp [slots]))
      (hslots _ (by simp [slots])) fun i hi => hslots _ ?_
    simp only [slots, mem_cons, mem_append]
    exact .inr (.inl (mem_map.2 ⟨i, hi, rfl⟩))

/-- Clauses that their rendered texts spell are spelled by the text of the list. -/
theorem list_roundTrip {q : List Pred → Pred} {items : List (List Tok × Pred)}
    (hty : isWordText ty = true) (hempty : isWordText empty = true)
    (hnil : Clause [.word empty] (q []))
    (hcons : ∀ {items : List (List Tok × Pred)}, (∀ i ∈ items, Clause i.1 i.2) →
      Clause (.word ty :: .punct .lbracket :: (joined (.punct .comma) items ++ [.punct .rbracket]))
        (q (items.map Prod.snd)))
    (ih : ∀ i ∈ items, (∀ t ∈ i.1, t.Valid) → (∀ s ∈ i.2.slots, Readable unprintable s) →
      ∃ ts, Lexes (renderClause unprintable i.2) ts ∧ Clause ts i.2)
    (htoks : ∀ t ∈ joined (.punct .comma) items, t.Valid)
    (hall : ∀ s ∈ (items.map Prod.snd).flatMap slots, Readable unprintable s) :
    ∃ ts, Lexes (listText ty empty ((items.map Prod.snd).map (renderClause unprintable))) ts ∧
      Clause ts (q (items.map Prod.snd)) := by
  by_cases hne : items = []
  · subst hne
    exact ⟨_, lexes_word empty hempty, hnil⟩
  have hitems : ∀ i ∈ items, ∃ out : List Tok × Pred,
      Lexes (renderClause unprintable i.2) out.1 ∧ Clause out.1 out.2 ∧ out.2 = i.2 := by
    intro i hi
    obtain ⟨ts, hlex, hclause⟩ := ih i hi (fun t ht => htoks t (mem_joined_of_mem hi ht))
      fun s hs => hall s (mem_flatMap.2 ⟨i.2, mem_map_of_mem hi, hs⟩)
    exact ⟨(ts, i.2), hlex, hclause, rfl⟩
  obtain ⟨items', -, hspells, hmap, hlexes⟩ :=
    lexes_joined separator_comma id (renderClause unprintable) Clause hne hitems
  have hopen : Separator " [ " [.punct .lbracket] := .spaced .lbracket
  have hclose : Separator " ]" [.punct .rbracket] :=
    space.append (punct .rbracket)
  have hsnd : items'.map Prod.snd = items.map Prod.snd := hmap
  have hclause := hcons hspells
  rw [hsnd] at hclause
  refine ⟨_, ?_, hclause⟩
  have hnonempty : ¬((items.map Prod.snd).map (renderClause unprintable)).isEmpty := by
    simpa using hne
  rw [listText, if_neg hnonempty, map_map]
  exact (lexes_word ty hty).between hopen (hlexes.append hclose)

/-- A clause over readable slots is spelled by its rendered text. -/
theorem clause_roundTrip (h : Clause used p) (hvalid : ∀ t ∈ used, t.Valid)
    (hslots : ∀ s ∈ p.slots, Readable unprintable s) :
    ∃ ts, Lexes (renderClause unprintable p) ts ∧ Clause ts p := by
  induction h with
  | «sealed» => exact ⟨_, lexes_word "sealed".toList rfl, .sealed⟩
  | «open» => exact ⟨_, lexes_word "open".toList rfl, .open⟩
  | any hitems ih =>
    rw [renderClause_any]
    exact list_roundTrip rfl rfl .sealed .any ih (fun t ht => hvalid t (by simp [ht]))
      (by simpa using hslots)
  | all hitems ih =>
    rw [renderClause_all]
    exact list_roundTrip rfl rfl .open .all ih (fun t ht => hvalid t (by simp [ht]))
      (by simpa using hslots)
  | @not used p hinner ih =>
    obtain ⟨ts, hlex, hclause⟩ := ih (fun t ht => hvalid t (by simp [ht])) (by simpa using hslots)
    have hopen : Separator " (".toList [.punct .lparen] :=
      space.append (punct .lparen)
    have hclose : Separator ")".toList [.punct .rparen] := punct .rparen
    refine ⟨_, ?_, .not hclause⟩
    rw [renderClause_not, show "not (".toList = "not".toList ++ " (".toList by simp,
      append_assoc]
    exact (lexes_word "not".toList rfl).between hopen (hlex.append hclose)
  | @ran n hn =>
    have hcanon : Canonical n := hvalid (.int n) (by simp)
    exact ⟨_, lexes_word_int "ran".toList rfl hcanon, .ran hn⟩
  | atom hatom =>
    obtain ⟨ts, hlex, hspells⟩ := atom_roundTrip hatom hvalid hslots
    exact ⟨ts, hlex, .atom hspells⟩

/-! ## What the rendered text contains -/

theorem count_intercalate (hsep : sep.count c = 0) (items : List Text) :
    (sep.intercalate items).count c = (items.map (List.count c)).sum := by
  induction items with
  | nil => rfl
  | cons item items ih =>
    cases items with
    | nil => simp
    | cons next items =>
      rw [intercalate_cons_cons, count_append, count_append, ih, hsep]
      simp

theorem Marker.count_value (hc : Marker c) (left : Text) (h : v.Canonical) :
    (renderValue left v).count c = 0 := by
  unfold renderValue
  split
  · split
    next verb hfind =>
      obtain ⟨tag, -, hverb⟩ := Option.bind_eq_some_iff.1 hfind
      have hnames : verbs.all (fun verb => verb.1.all isWordChar) = true := rfl
      have hverbs := all_eq_true.1 hnames verb (mem_of_find?_eq_some hverb)
      exact hc.count_alphanum fun d hd => .inl (all_eq_true.1 hverbs d hd)
    · exact hc.count_canonical h
  · exact hc.count_canonical h

/-- The markers in the rendered slots of a predicate. -/
def slotMarkers (unprintable : Char → Bool) (c : Char) (slots : List Text) : Nat :=
  (slots.map fun s => (renderSlot unprintable s).count c).sum

theorem slotMarkers_flatMap (c : Char) (ps : List Pred) :
    slotMarkers unprintable c (ps.flatMap slots) =
      (ps.map fun p => slotMarkers unprintable c p.slots).sum := by
  induction ps with
  | nil => rfl
  | cons p ps ih =>
    simp only [slotMarkers, flatMap_cons, map_append, sum_append, map_cons,
      sum_cons] at ih ⊢
    rw [ih]

theorem slotMarkers_one (c : Char) (slot : Text) :
    slotMarkers unprintable c [slot] = (renderSlot unprintable slot).count c := by
  simp [slotMarkers]

theorem slotMarkers_two (c : Char) (left right : Text) :
    slotMarkers unprintable c [left, right] =
      (renderSlot unprintable left).count c + (renderSlot unprintable right).count c := by
  simp [slotMarkers]

/-- No word or punctuation of a rendered text holds a marker. -/
theorem Marker.count_pieces (hc : Marker c) :
    ∀ t ∈ ([", ", [','], " == ", " <= ", " + ", " in \x7b",
    "\x7d", " writeOnce", " monotone", " opens (", ") with ", " [ ", " ]", "all", "any", "open",
    "sealed", "not (", ")", "ran "] : List Text), t.count c = 0 := by
  rcases hc with rfl | rfl <;> decide

theorem atom_markers (hc : Marker c) (h : Atom used p) (hvalid : ∀ t ∈ used, t.Valid) :
    (renderClause unprintable p).count c = slotMarkers unprintable c p.slots := by
  have hpieces := hc.count_pieces
  simp only [forall_mem_cons] at hpieces
  cases h with
  | @eq l left b t v hl hv | @le l left b t v hl hv =>
    have hvalue := hc.count_value left (hv.canonical fun t ht => hvalid t (by simp [ht]))
    change count c (_ ++ (_ ++ _)) = _
    simp only [count_append, hpieces, hvalue, slotMarkers_one, slots, add_zero]
  | @memberOf l left b items hl hne hv =>
    have hvalues : ∀ i ∈ items, (renderValue left i.2).count c = 0 := by
      intro i hi
      refine hc.count_value left ((hv i hi).canonical fun t ht => hvalid t ?_)
      simp only [mem_append, mem_cons]
      exact .inr (.inr (.inr (.inl (mem_joined_of_mem hi ht))))
    have hsum : (((items.map Prod.snd).map (renderValue left)).map (count c)).sum = 0 := by
      rw [map_map, map_map]
      exact sum_eq_zero (forall_mem_map.2 hvalues)
    rw [renderClause_memberOf]
    simp only [count_append, hpieces, count_intercalate hpieces.2.1, hsum,
      slotMarkers_one, slots, add_zero]
  | monotone hl | writeOnce hl =>
    change count c (_ ++ _) = _
    simp only [count_append, hpieces, slotMarkers_one, slots, add_zero]
  | eqSlots hl hr | leSlots hl hr =>
    change count c (_ ++ (_ ++ _)) = _
    simp only [count_append, hpieces, slotMarkers_two, slots, zero_add]
  | leSlotsOff hl hr k =>
    have hk := hc.count_canonical (show Canonical k from hvalid (.int k) (by simp))
    change count c (_ ++ (_ ++ (_ ++ (_ ++ _)))) = _
    simp only [count_append, hpieces, hk, slotMarkers_two, slots,
      add_zero, zero_add]
  | hashEq hl hne hv hr hnodup =>
    rw [renderClause_hashEq]
    simp only [count_append, hpieces, count_intercalate hpieces.1, slotMarkers, slots,
      map_map, map_cons, map_append, sum_cons, sum_append]
    simp [Function.comp_def]

theorem listText_markers (hc : Marker c)
    (hty : ty.count c = 0) (hempty : empty.count c = 0) (items : List Text) :
    (listText ty empty items).count c = (items.map (List.count c)).sum := by
  have hpieces := hc.count_pieces
  simp only [forall_mem_cons] at hpieces
  unfold listText
  cases items with
  | nil => exact hempty
  | cons item items =>
    rw [if_neg (by simp)]
    simp only [count_append, hty, hpieces, count_intercalate hpieces.1, add_zero,
      zero_add]

/-- The rendered text has the markers of the rendered slots and no others. -/
theorem clause_markers (hc : Marker c) (h : Clause used p) (hvalid : ∀ t ∈ used, t.Valid) :
    (renderClause unprintable p).count c = slotMarkers unprintable c p.slots := by
  have hpieces := hc.count_pieces
  have piece {t : Text} := hpieces t
  simp only [forall_mem_cons] at hpieces
  have children {items : List (List Tok × Pred)}
      (ih : ∀ i ∈ items, (∀ t ∈ i.1, t.Valid) →
        (renderClause unprintable i.2).count c = slotMarkers unprintable c i.2.slots)
      (htoks : ∀ t ∈ joined (.punct .comma) items, t.Valid) :
      (((items.map Prod.snd).map (renderClause unprintable)).map (count c)).sum =
        slotMarkers unprintable c ((items.map Prod.snd).flatMap slots) := by
    rw [slotMarkers_flatMap, map_map, map_map, map_map]
    refine congrArg sum (map_congr_left fun i hi => ?_)
    exact ih i hi fun t ht => htoks t (mem_joined_of_mem hi ht)
  induction h with
  | «sealed» => exact piece (t := "sealed") (by decide)
  | «open» => exact piece (t := "open") (by decide)
  | @any items hitems ih =>
    rw [renderClause_any, slots_any, listText_markers hc (piece (by decide)) (piece (by decide))]
    exact children ih fun t ht => hvalid t (by simp [ht])
  | @all items hitems ih =>
    rw [renderClause_all, slots_all, listText_markers hc (piece (by decide)) (piece (by decide))]
    exact children ih fun t ht => hvalid t (by simp [ht])
  | not hinner ih =>
    rw [renderClause_not, slots_not]
    simp only [count_append, hpieces, add_zero, zero_add]
    exact ih fun t ht => hvalid t (by simp [ht])
  | @ran n hn =>
    have hcount := hc.count_canonical (show Canonical n from hvalid (.int n) (by simp))
    change count c ("ran " ++ n) = 0
    rw [count_append, piece (by decide), hcount]
  | atom hatom => exact atom_markers hc hatom hvalid

/-! ## What a law text quotes -/

/-- Whether a slot is the name of canonical words. -/
def isWordForm (slot : Text) : Bool :=
  match slotWord slot with
  | some word => decide word.Canonical
  | none => false

theorem isWordForm_name (h : word.Canonical) : isWordForm word.name = true := by
  rw [isWordForm, slotWord_name h]
  exact decide_eq_true h

/-- The slots that only a quoted name can spell. -/
def strange (slots : List Text) : List Text := slots.filter fun s => !isWordForm s

@[simp] theorem strange_append (slots slots' : List Text) :
    strange (slots ++ slots') = strange slots ++ strange slots' := filter_append ..

theorem SlotSpelling.strange_quotes {b : Bool} (h : SlotSpelling used slot b)
    (hvalid : ∀ t ∈ used, t.Valid) : strange (quotes used) = strange [slot] := by
  rcases h.cases_of_valid hvalid with ⟨hquotes, -⟩ | ⟨hquotes, word, hword, rfl, -⟩
  · rw [hquotes]
  · rw [hquotes]
    simp [strange, isWordForm_name hword]

theorem strange_flatMap {items : List α} {f g : α → List Text}
    (h : ∀ i ∈ items, strange (f i) = strange (g i)) :
    strange (items.flatMap f) = strange (items.flatMap g) := by
  rw [strange, strange, filter_flatMap, filter_flatMap]
  exact flatMap_congr h

@[simp] theorem quotes_nil : quotes [] = [] := rfl

@[simp] theorem quotes_cons_int (n : Text) (toks : List Tok) :
    quotes (.int n :: toks) = quotes toks := rfl

@[simp] theorem quotes_cons_str (s : Text) (toks : List Tok) :
    quotes (.str s :: toks) = s :: quotes toks := rfl

@[simp] theorem quotes_cons_punct (p : Punct) (toks : List Tok) :
    quotes (.punct p :: toks) = quotes toks := rfl

@[simp] theorem quotes_cons_word (w : Text) (toks : List Tok) :
    quotes (.word w :: toks) = quotes toks := rfl

theorem ValueSpelling.quotes_eq (h : ValueSpelling left used v) : quotes used = [] := by
  cases h <;> rfl

theorem atom_strange (h : Atom used p) (hvalid : ∀ t ∈ used, t.Valid) :
    strange (quotes used) = strange p.slots := by
  have left {l toks : List Tok} {s : Text} {b : Bool} (hl : SlotSpelling l s b)
      (htoks : ∀ t ∈ l ++ toks, t.Valid) : strange (quotes l) = strange [s] :=
    hl.strange_quotes fun t ht => htoks t (mem_append_left _ ht)
  cases h with
  | eq hl hv | le hl hv =>
    simpa [hv.quotes_eq, slots] using left hl hvalid
  | @memberOf l s b items hl hne hv =>
    have hitems : items.flatMap (fun i => quotes i.1) = [] :=
      flatMap_eq_nil_iff.2 fun i hi => (hv i hi).quotes_eq
    simpa [quotes_joined, hitems, slots] using left hl hvalid
  | monotone hl | writeOnce hl => simpa [slots] using left hl hvalid
  | eqSlots hl hr | leSlots hl hr | leSlotsOff hl hr =>
    have hright := hr.strange_quotes fun t ht => hvalid t (by simp [ht])
    simp only [quotes_append, quotes_cons_punct, quotes_cons_int, quotes_nil, append_nil,
      strange_append, left hl hvalid, hright]
    rw [← strange_append]
    rfl
  | @hashEq l commit b r blinder b' items hl hne hv hr hnodup =>
    have hright := hr.strange_quotes fun t ht => hvalid t (by simp [ht])
    have hitems : strange (items.flatMap fun i => quotes i.1) =
        strange (items.flatMap fun i => [i.2.1]) :=
      strange_flatMap fun i hi => (hv i hi).strange_quotes fun t ht => hvalid t (by
        simp only [mem_append, mem_cons]
        exact .inr (.inr (.inr (.inl (mem_joined_of_mem hi ht)))))
    rw [quotes_append, quotes_cons_word, quotes_cons_punct, quotes_append, quotes_joined,
      quotes_cons_punct, quotes_cons_word, strange_append, strange_append, left hl hvalid, hitems,
      hright, ← strange_append, ← strange_append, ← map_eq_flatMap]
    rfl

/-- Outside of word forms, a law names the slots that its text quotes. -/
theorem clause_strange (h : Clause used p) (hvalid : ∀ t ∈ used, t.Valid) :
    strange (quotes used) = strange p.slots := by
  have children {items : List (List Tok × Pred)}
      (ih : ∀ i ∈ items, (∀ t ∈ i.1, t.Valid) → strange (quotes i.1) = strange i.2.slots)
      (htoks : ∀ t ∈ joined (.punct .comma) items, t.Valid) :
      strange (quotes (joined (.punct .comma) items)) =
        strange ((items.map Prod.snd).flatMap slots) := by
    rw [quotes_joined, flatMap_map]
    exact strange_flatMap fun i hi => ih i hi fun t ht => htoks t (mem_joined_of_mem hi ht)
  induction h with
  | «sealed» => rfl
  | «open» => rfl
  | any hitems ih | all hitems ih =>
    simpa using children ih fun t ht => hvalid t (by simp [ht])
  | not hinner ih => simpa using ih fun t ht => hvalid t (by simp [ht])
  | ran hn => rfl
  | atom hatom => exact atom_strange hatom hvalid

/-- The markers of an accepted text are those of the names it quotes. -/
theorem tokens_markers (hc : Marker c) {toks : List Tok} (h : tokens text = .ok toks) :
    text.count c = ((quotes toks).map fun s => (s.flatMap escapeQuoted).count c).sum := by
  obtain ⟨hvalid, hcount⟩ := tokens_eq_ok h
  have hspace : isWhitespace c = false := by rcases hc with rfl | rfl <;> rfl
  rw [hcount c hspace]
  clear h hcount
  induction toks with
  | nil => rfl
  | cons t toks ih =>
    rw [map_cons, sum_cons, ih fun t ht => hvalid t (mem_cons_of_mem _ ht)]
    have ht := hvalid t (mem_cons_self ..)
    cases t with
    | word w =>
      obtain ⟨d, rest, rfl, hd, hrest⟩ := ht
      have hword : ∀ e ∈ d :: rest, isWordChar e ∨ e = '-' := by
        intro e he
        rcases mem_cons.1 he with rfl | hmem
        · exact .inl (by simp [isWordChar, Char.isAlphanum, hd])
        · exact .inl (hrest e hmem)
      rw [Tok.text, hc.count_alphanum hword, zero_add, quotes_cons_word]
    | int n => rw [Tok.text, hc.count_canonical ht, zero_add, quotes_cons_int]
    | str s =>
      have hquote : '"' ≠ c := by rcases hc with rfl | rfl <;> decide
      rw [quotes_cons_str, map_cons, sum_cons, Tok.text, count_cons_of_ne hquote,
        count_append, count_cons_of_ne hquote, count_nil, Nat.add_zero]
    | punct p =>
      have hpunct : p.text.count c = 0 := by rcases hc with rfl | rfl <;> cases p <;> decide
      rw [Tok.text, hpunct, Nat.zero_add, quotes_cons_punct]

theorem mem_path {parts : List Text} (h : c ∈ path parts) : c = '/' ∨ ∃ part ∈ parts, c ∈ part := by
  induction parts with
  | nil => cases h
  | cons part parts ih =>
    cases parts with
    | nil => exact .inr ⟨part, mem_cons_self, by simpa [path] using h⟩
    | cons next parts =>
      rw [path, intercalate_cons_cons, mem_append, mem_append,
        mem_singleton] at h
      obtain (hpart | hslash) | hrest := h
      · exact .inr ⟨part, mem_cons_self, hpart⟩
      · exact .inl hslash
      · exact (ih hrest).imp_right fun ⟨q, hq, hc⟩ => ⟨q, mem_cons_of_mem _ hq, hc⟩

theorem mem_name (h : word.Canonical) :
    ∀ c ∈ word.name, c = '/' ∨ isWordChar c := by
  have digits {n : Text} (hn : n.CanonicalNat) : ∀ c ∈ n, isWordChar c := fun c hc => by
    simp [isWordChar, Char.isAlphanum, hn.digits c hc]
  have literal {w : Text} (hw : w.all isWordChar = true) : ∀ c ∈ w, isWordChar c :=
    all_eq_true.1 hw
  have parts {ps : List Text} (hps : ∀ p ∈ ps, ∀ c ∈ p, isWordChar c) :
      ∀ c ∈ path ps, c = '/' ∨ isWordChar c := fun c hc =>
    (mem_path hc).imp_right fun h => h.elim fun p hp => hps p hp.1 c hp.2
  cases word with
  | field n view =>
    refine parts (forall_mem_cons.2 ⟨literal rfl, forall_mem_cons.2 ⟨literal rfl,
      forall_mem_cons.2 ⟨digits h, forall_mem_singleton.2 (literal ?_)⟩⟩⟩)
    cases view <;> rfl
  | pair a b =>
    exact parts (forall_mem_cons.2 ⟨literal rfl, forall_mem_cons.2 ⟨literal rfl,
      forall_mem_cons.2 ⟨digits h.1, forall_mem_cons.2 ⟨digits h.2,
        forall_mem_singleton.2 (literal rfl)⟩⟩⟩⟩)
  | request word =>
    have hall : (SlotWord.request word).name.all (fun c => c == '/' || isWordChar c) = true := by
      cases word <;> rfl
    exact fun c hc => by simpa using all_eq_true.1 hall c hc

theorem isWordForm_iff :
    isWordForm slot = true ↔ ∃ word, slotWord slot = some word ∧ word.Canonical := by
  unfold isWordForm
  cases slotWord slot <;> simp

/-- A word form needs no escape. -/
theorem count_escape_wordForm (h : isWordForm slot = true) :
    (slot.flatMap escapeQuoted).count '\\' = 0 := by
  obtain ⟨word, hword, hcanon⟩ := isWordForm_iff.1 h
  obtain rfl := name_of_slotWord hword
  refine count_eq_zero.2 fun hmem => ?_
  obtain ⟨c, hc, hescape⟩ := mem_flatMap.1 hmem
  have hne : c ≠ '"' ∧ c ≠ '\\' := by
    rcases mem_name hcanon c hc with rfl | hchar
    · decide
    · constructor <;> rintro rfl <;> revert hchar <;> decide
  rw [escapeQuoted, if_neg hne.1, if_neg hne.2, mem_singleton] at hescape
  exact hne.2 hescape.symm

/-- Numbers that are bounded one by one and not in the sum are equal one by one. -/
theorem eq_of_sum_le {l : List α} {m n : α → Nat} (hle : ∀ a ∈ l, m a ≤ n a)
    (hsum : (l.map n).sum ≤ (l.map m).sum) : ∀ a ∈ l, m a = n a := by
  intro a ha
  by_contra hne
  have hlt : m a < n a := lt_of_le_of_ne (hle a ha) hne
  exact hsum.not_gt (sum_lt_sum m n hle ⟨a, ha, hlt⟩)

theorem sum_strange (f : Text → Nat) (slots : List Text) :
    ((strange slots).map f).sum = (slots.map fun s => if isWordForm s then 0 else f s).sum := by
  induction slots with
  | nil => rfl
  | cons s slots ih =>
    rw [map_cons, sum_cons, ← ih, strange, filter_cons]
    cases isWordForm s <;> simp [strange]

/-- A parsed law is a clause over the valid tokens of its text. -/
theorem parse_sound (h : parse unprintable text = .ok p) :
    ∃ toks used, tokens text = .ok toks ∧ Clause used p ∧ quotes used = quotes toks ∧
      ∀ t ∈ used, t.Valid := by
  obtain ⟨toks, htoks, hlaw⟩ := bind_eq_ok.1 h
  split at hlaw
  · cases hlaw
  · obtain ⟨used, hclause, hquotes, hvalid⟩ := law_sound hlaw
    exact ⟨toks, used, htoks, hclause, hquotes, hvalid (tokens_eq_ok htoks).1⟩

theorem parse_render_of_readable (h : parse unprintable text = .ok p)
    (hslots : ∀ s ∈ p.slots, Readable unprintable s) :
    parse unprintable (renderClause unprintable p) = .ok p := by
  obtain ⟨toks, used, -, hclause, -, hvalid⟩ := parse_sound h
  obtain ⟨ts, hlexes, hspells⟩ := clause_roundTrip hclause hvalid hslots
  have htoks := hlexes [] (by simp [Breaks])
  rw [append_nil, tokens_nil] at htoks
  simp only [Except.map, append_nil] at htoks
  rw [parse, htoks, ok_bind, if_neg hspells.ne_nil, law_complete hspells]

theorem slash_mem_name (word : SlotWord) : '/' ∈ word.name := by
  cases word <;> simp [SlotWord.name, path]

/-- A slot loses no slash in its rendering only if it is no pattern, or one with
canonical numbers. -/
theorem renderSlot_slash :
    (renderSlot unprintable s).count '/' ≤ (if isWordForm s then 0 else s.count '/') ∧
      ((renderSlot unprintable s).count '/' = (if isWordForm s then 0 else s.count '/') →
        slotWord s = none ∨ isWordForm s = true) := by
  unfold renderSlot
  cases hword : slotWord s with
  | some word =>
    have hslash : 0 < s.count '/' := by
      rw [← name_of_slotWord hword]
      exact count_pos_iff.2 (slash_mem_name word)
    dsimp only
    rw [count_render_slash hword]
    refine ⟨Nat.zero_le _, fun heq => .inr ?_⟩
    by_contra hform
    rw [if_neg hform] at heq
    omega
  | none =>
    have hform : isWordForm s = false := by rw [isWordForm, hword]
    dsimp only
    rw [hform, count_append, count_debug_slash]
    exact ⟨by simp, fun _ => .inl rfl⟩

/-- Outside of patterns a slot gains a backslash for each hidden character. -/
theorem renderSlot_backslash (h : slotWord s = none ∨ isWordForm s = true) :
    (if isWordForm s then 0 else (s.flatMap escapeQuoted).count '\\') ≤
        (renderSlot unprintable s).count '\\' ∧
      ((if isWordForm s then 0 else (s.flatMap escapeQuoted).count '\\') =
          (renderSlot unprintable s).count '\\' → Readable unprintable s) := by
  rcases h with hword | hform
  · have hform : isWordForm s = false := by rw [isWordForm, hword]
    have hslot : "slot ".toList.count '\\' = 0 := by decide
    simp only [renderSlot, Readable, hword, hform, count_append, count_debug_backslash, hslot]
    refine ⟨by simp, fun heq => ?_⟩
    have hzero : s.countP (isHidden unprintable) = 0 := by simpa using heq
    intro c hc
    simpa using countP_eq_zero.1 hzero c hc
  · obtain ⟨word, hword, hcanon⟩ := isWordForm_iff.1 hform
    rw [hform]
    refine ⟨Nat.zero_le _, fun _ => ?_⟩
    rw [Readable, hword]
    exact hcanon

theorem readable_of_parse_render (h : parse unprintable text = .ok p)
    (hback : parse unprintable (renderClause unprintable p) = .ok p) :
    ∀ s ∈ p.slots, Readable unprintable s := by
  obtain ⟨-, used, -, hclause, -, hvalid⟩ := parse_sound h
  obtain ⟨toks, used', htoks, hclause', hquotes, hvalid'⟩ := parse_sound hback
  have hstrange : strange (quotes toks) = strange p.slots :=
    hquotes ▸ clause_strange hclause' hvalid'
  -- The rendered slots hold as many markers as the names that the rendered text quotes.
  have hmarkers {c : Char} (hc : Marker c) : slotMarkers unprintable c p.slots =
      ((quotes toks).map fun s => (s.flatMap escapeQuoted).count c).sum :=
    (clause_markers hc hclause hvalid).symm.trans (tokens_markers hc htoks)
  have hsum (f : Text → Nat) : (p.slots.map fun s => if isWordForm s then 0 else f s).sum =
      ((quotes toks).map fun s => if isWordForm s then 0 else f s).sum := by
    rw [← sum_strange, ← hstrange, sum_strange]
  have hslash : (p.slots.map fun s => if isWordForm s then 0 else s.count '/').sum ≤
      slotMarkers unprintable '/' p.slots := by
    rw [hsum fun s => s.count '/', hmarkers (.inl rfl)]
    refine sum_le_sum fun s _ => ?_
    rw [count_escapeQuoted_slash]
    split <;> simp
  have hpattern : ∀ s ∈ p.slots, slotWord s = none ∨ isWordForm s = true := fun s hs =>
    renderSlot_slash.2 (eq_of_sum_le (fun _ _ => renderSlot_slash.1) hslash s hs)
  have hbackslash : slotMarkers unprintable '\\' p.slots ≤
      (p.slots.map fun s => if isWordForm s then 0 else (s.flatMap escapeQuoted).count '\\').sum := by
    rw [hsum fun s => (s.flatMap escapeQuoted).count '\\', hmarkers (.inr rfl)]
    refine sum_le_sum fun s _ => ?_
    split
    next hform =>
      exact (count_escape_wordForm hform).le
    · exact le_rfl
  intro s hs
  refine (renderSlot_backslash (hpattern s hs)).2 ?_
  exact eq_of_sum_le (fun t ht => (renderSlot_backslash (hpattern t ht)).1) hbackslash s hs

/-- A parsed law comes back from its rendered text exactly when all its slots are readable. -/
theorem parse_renderClause_iff (unprintable : Char → Bool) (text : Text) (p : Pred)
    (h : parse unprintable text = .ok p) :
    parse unprintable (renderClause unprintable p) = .ok p ↔
      ∀ s ∈ p.slots, Readable unprintable s :=
  ⟨readable_of_parse_render h, parse_render_of_readable h⟩

end RoundTrip

/-- A law with a verb name, a field, a pair and a quoted slot comes back. -/
theorem parse_renderClause_mixed :
    parse (fun _ => false) (renderClause (fun _ => false)
        (.any [.memberOf verbSlot ["2", "4"],
          .not (.leSlots "resource/pair/1/2/delta" "a \"b\"")])) =
      .ok (.any [.memberOf verbSlot ["2", "4"],
        .not (.leSlots "resource/pair/1/2/delta" "a \"b\"")]) :=
  (parse_renderClause_iff (fun _ => false)
    "any [verb in \x7bwrite, 4\x7d, not (pair 1,2 delta <= slot \"a \\\"b\\\"\")]"
    (.any [.memberOf verbSlot ["2", "4"],
      .not (.leSlots "resource/pair/1/2/delta" "a \"b\"")]) rfl).2 (by
    have hall : [verbSlot, "resource/pair/1/2/delta", "a \"b\""].all
        (fun s => decide (Readable (fun _ => false) s)) = true := by decide
    exact fun s hs => of_decide_eq_true (all_eq_true.1 hall s hs))

/-- A quoted slot name with a word in the place of a field number is rendered
without its quotes, and the parser refuses the text. -/
theorem quoted_field_name_lost :
    parse (fun _ => false) "slot \"resource/field/x/after\" == 1" =
        .ok (.eq "resource/field/x/after" "1") ∧
      renderClause (fun _ => false) (.eq "resource/field/x/after" "1") =
        "field x == 1" ∧
      parse (fun _ => false) "field x == 1" =
        .error "expected a field number (a number), found `x`" := by
  refine ⟨rfl, rfl, rfl⟩

end MiniDregg.Law
