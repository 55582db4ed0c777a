import MiniDregg.Law.Parser

/-!
# The law grammar

The grammar in the head of `shell/law.rs` as relations between token lists and
what they spell, and the proof that the parser reads exactly that grammar.
-/

namespace MiniDregg.Law

open Fallible Separated List FieldView SlotWord Tok

/-- A token that `nat` takes as a number. -/
def Natural (n : Text) : Prop := n.head? ≠ some '-'

/-- The tokens of a slot, and whether the parser holds it for an `after` view. -/
inductive SlotSpelling : List Tok → Text → Bool → Prop
  | field {n : Text} (hn : Natural n) :
      SlotSpelling [.word "field", .int n] (field n .after).name true
  | view {n : Text} (hn : Natural n) (view : FieldView) :
      SlotSpelling [.word "field", .int n, .word view.text] (field n view).name
        (view == .after)
  | pair {a b : Text} (ha : Natural a) (hb : Natural b) :
      SlotSpelling [.word "pair", .int a, .punct .comma, .int b, .word "delta"]
        (pair a b).name false
  | request (word : RequestWord) :
      SlotSpelling [.word word.text] (request word).name false
  | named (s : Text) : SlotSpelling [.word "slot", .str s] s false

/-- The token of a value: an integer, or on the verb slot the name of a verb. -/
inductive ValueSpelling (slot : Text) : List Tok → Text → Prop
  | int (n : Text) : ValueSpelling slot [.int n] n
  | verb {verb : Text × Int} (hslot : slot = verbSlot) (hmem : verb ∈ verbs) :
      ValueSpelling slot [.word verb.1] (Text.decimal verb.2)

/-- The atoms, each of which starts with a slot. -/
inductive Atom : List Tok → Pred → Prop
  | eq {l left b t v} (hl : SlotSpelling l left b) (hv : ValueSpelling left t v) :
      Atom (l ++ .punct .eq :: t) (.eq left v)
  | le {l left b t v} (hl : SlotSpelling l left b) (hv : ValueSpelling left t v) :
      Atom (l ++ .punct .le :: t) (.le left v)
  | memberOf {l left b} {items : List (List Tok × Text)} (hl : SlotSpelling l left b)
      (hne : items ≠ []) (hv : ∀ i ∈ items, ValueSpelling left i.1 i.2) :
      Atom (l ++ .word "in" :: .punct .lbrace ::
        (joined (.punct .comma) items ++ [.punct .rbrace])) (.memberOf left (items.map Prod.snd))
  | monotone {l left} (hl : SlotSpelling l left true) :
      Atom (l ++ [.word "monotone"]) (.monotone left)
  | writeOnce {l left} (hl : SlotSpelling l left true) :
      Atom (l ++ [.word "writeOnce"]) (.writeOnce left)
  | eqSlots {l left b r right b'} (hl : SlotSpelling l left b) (hr : SlotSpelling r right b') :
      Atom (l ++ .punct .eq :: r) (.eqSlots left right)
  | leSlots {l left b r right b'} (hl : SlotSpelling l left b) (hr : SlotSpelling r right b') :
      Atom (l ++ .punct .le :: r) (.leSlots left right)
  | leSlotsOff {l left b r right b'} (hl : SlotSpelling l left b) (hr : SlotSpelling r right b')
      (k : Text) : Atom (l ++ .punct .le :: (r ++ [.punct .plus, .int k]))
        (.leSlotsOff left right k)
  | hashEq {l commit b r blinder b'} {items : List (List Tok × Text × Bool)}
      (hl : SlotSpelling l commit b) (hne : items ≠ [])
      (hv : ∀ i ∈ items, SlotSpelling i.1 i.2.1 i.2.2) (hr : SlotSpelling r blinder b')
      (hnodup : (items.map (·.2.1) ++ [blinder, commit]).Nodup) :
      Atom (l ++ .word "opens" :: .punct .lparen ::
        (joined (.punct .comma) items ++ .punct .rparen :: .word "with" :: r))
        (.hashEq (items.map (·.2.1)) blinder commit)

/-- The clauses. -/
inductive Clause : List Tok → Pred → Prop
  | «sealed» : Clause [.word "sealed"] (.any [])
  | «open» : Clause [.word "open"] (.all [])
  | any {items : List (List Tok × Pred)} (h : ∀ i ∈ items, Clause i.1 i.2) :
      Clause (.word "any" :: .punct .lbracket ::
        (joined (.punct .comma) items ++ [.punct .rbracket])) (.any (items.map Prod.snd))
  | all {items : List (List Tok × Pred)} (h : ∀ i ∈ items, Clause i.1 i.2) :
      Clause (.word "all" :: .punct .lbracket ::
        (joined (.punct .comma) items ++ [.punct .rbracket])) (.all (items.map Prod.snd))
  | not {used p} (h : Clause used p) :
      Clause (.word "not" :: .punct .lparen :: (used ++ [.punct .rparen])) (.not p)
  | ran {n : Text} (hn : Natural n) : Clause [.word "ran", .int n] (.ran n)
  | atom {used p} (h : Atom used p) : Clause used p

variable {view : FieldView} {w n s : Text}

theorem FieldView.read_eq_some : FieldView.read w = some view ↔ w = view.text := by
  constructor
  · intro h
    have hview := find?_some h
    exact (eq_of_beq hview).symm
  · rintro rfl
    cases view <;> rfl

theorem RequestWord.read_eq_some {word : RequestWord} :
    RequestWord.read w = some word ↔ w = word.text := by
  constructor
  · intro h
    have hword := find?_some h
    exact (eq_of_beq hword).symm
  · rintro rfl
    cases word <;> rfl

variable {toks : List Tok}

theorem isPunct_iff {p : Punct} : isPunct p toks ↔ ∃ rest, toks = .punct p :: rest := by
  rw [isPunct, beq_iff_eq, head?_eq_some_iff]

theorem isWord_iff {w : String} : isWord w toks ↔ ∃ rest, toks = .word w.toList :: rest := by
  rw [isWord, beq_iff_eq, head?_eq_some_iff]

section Reads
variable {unprintable : Char → Bool} {rest used : List Tok} {left v : Text} {p : Pred}
  {read : List Tok → Result (Pred × List Tok)} {fuel : Nat}

theorem expect_eq_ok {p : Punct} :
    expect unprintable p toks = .ok rest ↔ toks = .punct p :: rest := by
  unfold expect
  split
  next hp =>
    obtain ⟨tail, rfl⟩ := isPunct_iff.1 hp
    simp
  next hp =>
    simp only [reduceCtorEq, false_iff]
    rintro rfl
    exact hp (isPunct_iff.2 ⟨rest, rfl⟩)

variable {what : String}

theorem nat_eq_ok :
    nat unprintable what toks = .ok (n, rest) ↔ toks = .int n :: rest ∧ Natural n := by
  unfold nat Natural
  cases toks with
  | nil => simp
  | cons t toks =>
    cases t with
    | int m =>
      by_cases hm : m.head? = some '-'
      · simp only [hm, ↓reduceIte, reduceCtorEq, List.cons.injEq, int.injEq, false_iff]
        rintro ⟨⟨rfl, -⟩, hn⟩
        exact hn hm
      · simp only [hm, ↓reduceIte, Except.ok.injEq, Prod.mk.injEq, List.cons.injEq,
          int.injEq]
        refine ⟨fun h => ⟨h, h.1 ▸ hm⟩, fun h => h.1⟩
    | _ => simp

theorem nat_cons (hn : Natural n) (rest : List Tok) :
    nat unprintable what (.int n :: rest) = .ok (n, rest) := nat_eq_ok.2 ⟨rfl, hn⟩

theorem expect_cons (p : Punct) (rest : List Tok) :
    expect unprintable p (.punct p :: rest) = .ok rest := expect_eq_ok.2 rfl

theorem fieldView_eq (h : fieldView toks = (view, rest)) :
    (view = .after ∧ toks = rest) ∨ toks = .word view.text :: rest := by
  unfold fieldView at h
  split at h
  · split at h
    next hread =>
      cases h
      exact .inr (by rw [read_eq_some.1 hread])
    · cases h
      exact .inl ⟨rfl, rfl⟩
  · cases h
    exact .inl ⟨rfl, rfl⟩

theorem slot_sound : Sound (slot unprintable) fun used s => SlotSpelling used s.1 s.2 := by
  intro toks s rest h
  unfold slot at h
  split at h
  next w toks =>
    by_cases hfield : w = "field"
    · subst hfield
      obtain ⟨⟨n, next⟩, hn, hret⟩ := bind_eq_ok.1 h
      obtain ⟨rfl, hnat⟩ := nat_eq_ok.1 hn
      dsimp only at hret
      cases hview : fieldView next with
      | mk view rest' =>
        rw [hview] at hret
        cases hret
        rcases fieldView_eq hview with ⟨rfl, rfl⟩ | rfl
        · exact ⟨[_, _], rfl, .field hnat⟩
        · exact ⟨[_, _, _], rfl, .view hnat view⟩
    rw [if_neg hfield] at h
    by_cases hpair : w = "pair"
    · subst hpair
      obtain ⟨⟨a, next⟩, ha, hcomma⟩ := bind_eq_ok.1 h
      obtain ⟨next', hexpect, hsecond⟩ := bind_eq_ok.1 hcomma
      obtain ⟨⟨b, next''⟩, hb, hdelta⟩ := bind_eq_ok.1 hsecond
      obtain ⟨rfl, hnat⟩ := nat_eq_ok.1 ha
      obtain rfl := expect_eq_ok.1 hexpect
      obtain ⟨rfl, hnat'⟩ := nat_eq_ok.1 hb
      dsimp only at hdelta
      split at hdelta
      next hword =>
        obtain ⟨tail, rfl⟩ := isWord_iff.1 hword
        cases hdelta
        exact ⟨[_, _, _, _, _], rfl, .pair hnat hnat'⟩
      · cases hdelta
    rw [if_neg hpair] at h
    split at h
    next word hread =>
      cases h
      obtain rfl := RequestWord.read_eq_some.1 hread
      exact ⟨[_], rfl, .request word⟩
    split_ifs at h with hslot
    subst hslot
    split at h
    · cases h
      exact ⟨[_, _], rfl, .named _⟩
    · cases h
  · cases h

/-- No view word follows, so a field number ends its slot. -/
def SlotEnd (rest : List Tok) : Prop :=
  ∀ view : FieldView, rest.head? ≠ some (.word view.text)

theorem fieldView_of_slotEnd (h : SlotEnd rest) : fieldView rest = (.after, rest) := by
  unfold fieldView
  split
  next w tail =>
    split
    next view hread =>
      exact absurd (by rw [read_eq_some.1 hread]; rfl) (h view)
    · rfl
  · rfl

variable {b : Bool}

theorem slot_complete (h : SlotSpelling used s b) (hrest : SlotEnd rest) :
    slot unprintable (used ++ rest) = .ok ((s, b), rest) := by
  cases h with
  | field hn =>
    simp only [cons_append, nil_append, slot, if_pos, nat_cons hn, ok_bind,
      fieldView_of_slotEnd hrest]
    rfl
  | view hn view =>
    have hview : read view.text = some view := read_eq_some.2 rfl
    simp only [cons_append, nil_append, slot, if_pos, nat_cons hn, ok_bind, fieldView, hview]
    rfl
  | pair ha hb =>
    exact bind_eq_ok.2 ⟨_, nat_cons ha _, bind_eq_ok.2 ⟨_, expect_cons .comma _,
      bind_eq_ok.2 ⟨_, nat_cons hb _, rfl⟩⟩⟩
  | request word => cases word <;> rfl
  | named s => rfl

theorem value_sound : Sound (value unprintable left) (ValueSpelling left) := by
  intro toks v rest h
  unfold value at h
  dsimp only at h
  split at h
  · cases h
    exact ⟨[_], rfl, .int _⟩
  · split at h
    next hslot =>
      split at h
      next verb hfind =>
        cases h
        have hname := find?_some hfind
        refine ⟨[_], ?_, .verb hslot (mem_of_find?_eq_some hfind)⟩
        rw [eq_of_beq hname]
        rfl
      · cases h
    · cases h
  · cases h

theorem find_verb : ∀ verb ∈ verbs, (verbs.find? fun other => other.1 == verb.1) = some verb := by
  decide

theorem value_complete (h : ValueSpelling left used v) (rest : List Tok) :
    value unprintable left (used ++ rest) = .ok (v, rest) := by
  cases h with
  | int n => rfl
  | verb hslot hmem =>
    simp only [cons_append, nil_append, value, if_pos hslot, find_verb _ hmem]

theorem atSlot_of_slot (h : SlotSpelling used s b) (rest : List Tok) :
    atSlot (used ++ rest) = true := by
  cases h with
  | request word => cases word <;> rfl
  | _ => rfl

theorem atSlot_of_value (h : ValueSpelling left used v) (rest : List Tok) :
    atSlot (used ++ rest) = false := by
  cases h with
  | int n => rfl
  | @verb verb hslot hmem =>
    have hnames : ∀ verb ∈ verbs, atSlot [.word verb.1] = false := by decide
    exact hnames verb hmem

section Tails
variable {l rest : List Tok} {left : Text} {p : Pred}

section
variable (hl : SlotSpelling l left b)
include hl

theorem opens_sound :
    Sound (opens unprintable left) fun used => Atom (l ++ .word "opens" :: used) := by
  intro toks p rest h
  unfold opens at h
  split_ifs at h with hparen
  obtain ⟨toks, rfl⟩ := isPunct_iff.1 hparen
  obtain ⟨⟨values, next⟩, hvalues, htail⟩ := bind_eq_ok.1 h
  obtain ⟨next', hexpect, hwith⟩ := bind_eq_ok.1 htail
  obtain rfl := expect_eq_ok.1 hexpect
  split at hwith
  · cases hwith
  rename_i hword
  obtain ⟨next', rfl⟩ := isWord_iff.1 (not_not.1 hword)
  obtain ⟨⟨⟨blinder, b'⟩, last⟩, hblinder, hret⟩ := bind_eq_ok.1 hwith
  dsimp only at hret
  split at hret
  · cases hret
  rename_i hnodup
  cases hret
  obtain ⟨used, rfl, hr⟩ := slot_sound hblinder
  obtain ⟨items, hne, hitems, rfl, heq⟩ := separated_sound slot_sound hvalues
  rw [map_map] at hnodup ⊢
  refine ⟨_, ?_, .hashEq hl hne hitems hr (not_not.1 hnodup)⟩
  simp only [tail_cons] at heq
  simp [heq]

theorem members_sound :
    Sound (members unprintable left) fun used => Atom (l ++ .word "in" :: used) := by
  intro toks p rest h
  obtain ⟨next, hopen, hvalues⟩ := bind_eq_ok.1 h
  obtain ⟨⟨values, next'⟩, hread, hclose⟩ := bind_eq_ok.1 hvalues
  obtain ⟨next'', hexpect, hret⟩ := bind_eq_ok.1 hclose
  cases hret
  obtain rfl := expect_eq_ok.1 hopen
  obtain rfl := expect_eq_ok.1 hexpect
  obtain ⟨items, hne, hitems, rfl, rfl⟩ := separated_sound value_sound hread
  exact ⟨_, by simp, .memberOf hl hne hitems⟩

theorem equals_sound :
    Sound (equals unprintable left) fun used => Atom (l ++ .punct .eq :: used) := by
  intro toks p rest h
  unfold equals at h
  split at h
  · obtain ⟨⟨⟨right, b'⟩, next⟩, hright, hret⟩ := bind_eq_ok.1 h
    cases hret
    obtain ⟨used, rfl, hr⟩ := slot_sound hright
    exact ⟨used, rfl, .eqSlots hl hr⟩
  · obtain ⟨⟨v, next⟩, hv, hret⟩ := bind_eq_ok.1 h
    cases hret
    obtain ⟨used, rfl, hvalue⟩ := value_sound hv
    exact ⟨used, rfl, .eq hl hvalue⟩

theorem atMost_sound :
    Sound (atMost unprintable left) fun used => Atom (l ++ .punct .le :: used) := by
  intro toks p rest h
  unfold atMost at h
  split at h
  · obtain ⟨⟨⟨right, b'⟩, next⟩, hright, hret⟩ := bind_eq_ok.1 h
    obtain ⟨used, rfl, hr⟩ := slot_sound hright
    dsimp only at hret
    split at hret
    · cases hret
      exact ⟨used, rfl, .leSlots hl hr⟩
    next hplus =>
      obtain ⟨tail, rfl⟩ := isPunct_iff.1 (not_not.1 hplus)
      split at hret
      next k tail' htail =>
        cases hret
        obtain rfl : tail = _ := htail
        exact ⟨used ++ [.punct .plus, .int k], by simp, .leSlotsOff hl hr k⟩
      · cases hret
  · obtain ⟨⟨v, next⟩, hv, hret⟩ := bind_eq_ok.1 h
    cases hret
    obtain ⟨used, rfl, hvalue⟩ := value_sound hv
    exact ⟨used, rfl, .le hl hvalue⟩

end

theorem stepAtom_eq_ok {op : String} {mk : Text → Pred}
    (h : stepAtom op mk left b toks = .ok (p, rest)) : b = true ∧ p = mk left ∧ toks = rest := by
  unfold stepAtom at h
  split at h
  next hb =>
    cases h
    exact ⟨hb, rfl, rfl⟩
  · cases h

end Tails

theorem atom_sound : Sound (atom unprintable) Atom := by
  intro toks p rest h
  obtain ⟨⟨⟨left, b⟩, next⟩, hleft, htail⟩ := bind_eq_ok.1 h
  obtain ⟨l, rfl, hl⟩ := slot_sound hleft
  -- Each operator has its own tail, which is spelled behind the slot and the operator.
  have append {op : Tok} {toks : List Tok}
      (htoks : ∃ used, toks = used ++ rest ∧ Atom (l ++ op :: used) p) :
      ∃ used, l ++ op :: toks = used ++ rest ∧ Atom used p := by
    obtain ⟨used, rfl, hatom⟩ := htoks
    exact ⟨_, by simp, hatom⟩
  dsimp only at htail
  split at htail
  · split_ifs at htail with hopens hmonotone hwriteOnce hin
    · subst hopens
      exact append (opens_sound hl htail)
    · subst hmonotone
      obtain ⟨rfl, rfl, rfl⟩ := stepAtom_eq_ok htail
      exact append ⟨[], rfl, .monotone hl⟩
    · subst hwriteOnce
      obtain ⟨rfl, rfl, rfl⟩ := stepAtom_eq_ok htail
      exact append ⟨[], rfl, .writeOnce hl⟩
    · subst hin
      exact append (members_sound hl htail)
  · exact append (equals_sound hl htail)
  · exact append (atMost_sound hl htail)
  · cases htail

/-- What can follow a clause: nothing, or the punctuation that ends one. -/
def Closing (rest : List Tok) : Prop :=
  ∀ t ∈ rest.head?, t ∈ [punct .comma, .punct .semi, .punct .rbracket, .punct .rparen]

theorem slotEnd_cons_punct (p : Punct) (rest : List Tok) : SlotEnd (.punct p :: rest) := by
  simp [SlotEnd]

theorem slotEnd_cons_word (h : FieldView.read w = none) (rest : List Tok) :
    SlotEnd (.word w :: rest) := by
  intro view hview
  have hw : w = view.text := by simpa using hview
  rw [read_eq_some.2 hw] at h
  cases h

theorem Closing.slotEnd (h : Closing rest) : SlotEnd rest := by
  cases rest with
  | nil => simp [SlotEnd]
  | cons t rest =>
    have ht := h t rfl
    cases t with
    | punct p => exact slotEnd_cons_punct p rest
    | _ => simp at ht

theorem Closing.not_plus (h : Closing rest) : isPunct .plus rest = false := by
  cases rest with
  | nil => rfl
  | cons t rest =>
    have ht := h t rfl
    rw [← Bool.not_eq_true, isPunct_iff]
    rintro ⟨tail, heq⟩
    rw [(List.cons.inj heq).1] at ht
    simp at ht

variable {items : List (List Tok × Text × Bool)}

theorem joined_slots_head (hne : items ≠ [])
    (hitems : ∀ i ∈ items, SlotSpelling i.1 i.2.1 i.2.2) (rest : List Tok) :
    isPunct .rparen (joined (.punct .comma) items ++ rest) = false := by
  obtain ⟨⟨used, s, b⟩, items, rfl⟩ := exists_cons_of_ne_nil hne
  have hslot : SlotSpelling used s b := hitems _ (mem_cons_self ..)
  rw [joined_cons, append_assoc]
  cases hslot <;> rfl

theorem atom_complete (h : Atom used p) (hrest : Closing rest) :
    atom unprintable (used ++ rest) = .ok (p, rest) := by
  -- The slot in front is read first, and the operator behind it is no view word.
  have hend := hrest.slotEnd
  cases h with
  | eq hl hv | le hl hv =>
    simp only [append_assoc, cons_append, atom, slot_complete hl (slotEnd_cons_punct _ _),
      ok_bind, equals, atMost, atSlot_of_value hv, value_complete hv]
    rfl
  | eqSlots hl hr | leSlots hl hr =>
    simp only [append_assoc, cons_append, atom, slot_complete hl (slotEnd_cons_punct _ _),
      ok_bind, equals, atMost, atSlot_of_slot hr, slot_complete hr hend, if_pos, hrest.not_plus]
    rfl
  | leSlotsOff hl hr k =>
    simp only [append_assoc, cons_append, nil_append, atom,
      slot_complete hl (slotEnd_cons_punct _ _), ok_bind, atMost, atSlot_of_slot hr,
      slot_complete hr (slotEnd_cons_punct _ _), if_pos]
    rfl
  | monotone hl =>
    simp only [append_assoc, cons_append, nil_append, atom,
      slot_complete hl (slotEnd_cons_word (by decide : read "monotone" = none) _), ok_bind]
    rfl
  | writeOnce hl =>
    simp only [append_assoc, cons_append, nil_append, atom,
      slot_complete hl (slotEnd_cons_word (by decide : read "writeOnce" = none) _), ok_bind]
    rfl
  | memberOf hl hne hv =>
    have hvalues : separated (.punct .comma) (value unprintable _) (_ ++ .punct .rbrace :: rest) =
        _ := separated_complete (fun _ => True) (fun _ => trivial) trivial (by simp)
      (fun i hi toks _ => value_complete (hv i hi) toks) hne
    simp only [append_assoc, cons_append, nil_append, atom,
      slot_complete hl (slotEnd_cons_word (by decide : read "in" = none) _), ok_bind, ↓reduceIte,
      members, expect_cons, hvalues]
    rfl
  | hashEq hl hne hv hr hnodup =>
    have hslots toks : separated _ (slot unprintable) (_ ++ .punct .rparen :: toks) = _ :=
      separated_complete SlotEnd (slotEnd_cons_punct .comma) (slotEnd_cons_punct _ _) (by simp)
        (fun i hi _ => slot_complete (hv i hi)) hne
    have hparen (toks : List Tok) : isPunct .lparen (.punct .lparen :: toks) = true := rfl
    have hwith (toks : List Tok) : isWord "with" (.word "with" :: toks) = true := rfl
    simp only [append_assoc, cons_append, atom,
      slot_complete hl (slotEnd_cons_word (by decide : read "opens" = none) _), ok_bind, ↓reduceIte,
      opens, hparen, tail_cons, joined_slots_head hne hv, hslots, expect_cons,
      hwith, slot_complete hr hend, map_map, not_true_eq_false, Bool.false_eq_true]
    exact if_neg (not_not.2 hnodup)

variable {Spells : List Tok → Pred → Prop} {ps : List Pred}

theorem bracketed_sound (hread : Sound read Spells)
    (h : bracketed unprintable read toks = .ok (ps, rest)) :
    ∃ items : List (List Tok × Pred), (∀ i ∈ items, Spells i.1 i.2) ∧ ps = items.map Prod.snd ∧
      toks = .punct .lbracket :: (joined (.punct .comma) items ++ .punct .rbracket :: rest) := by
  obtain ⟨next, hopen, hitems⟩ := bind_eq_ok.1 h
  obtain ⟨⟨ps', next'⟩, hchildren, hclose⟩ := bind_eq_ok.1 hitems
  obtain ⟨next'', hexpect, hret⟩ := bind_eq_ok.1 hclose
  cases hret
  obtain rfl := expect_eq_ok.1 hopen
  obtain rfl := expect_eq_ok.1 hexpect
  unfold children at hchildren
  split at hchildren
  · cases hchildren
    exact ⟨[], by simp, rfl, rfl⟩
  · obtain ⟨items, -, hspells, rfl, rfl⟩ := separated_sound hread hchildren
    exact ⟨items, hspells, rfl, rfl⟩

/-- The parser accepts clauses of the grammar only. -/
theorem clause_sound : Sound (clause unprintable fuel) Clause := by
  induction fuel with
  | zero =>
    intro toks p rest h
    cases h
  | succ fuel ih =>
    intro toks p rest h
    unfold clause at h
    split at h
    next fuel' w toks heq =>
      obtain rfl := Nat.succ.inj heq
      split_ifs at h with hsealed hopen hany hall hnot hran
      · subst hsealed
        cases h
        exact ⟨[_], rfl, .sealed⟩
      · subst hopen
        cases h
        exact ⟨[_], rfl, .open⟩
      · subst hany
        obtain ⟨⟨ps, next⟩, hchildren, hret⟩ := bind_eq_ok.1 h
        cases hret
        obtain ⟨items, hitems, rfl, rfl⟩ := bracketed_sound ih hchildren
        exact ⟨_, by simp, .any hitems⟩
      · subst hall
        obtain ⟨⟨ps, next⟩, hchildren, hret⟩ := bind_eq_ok.1 h
        cases hret
        obtain ⟨items, hitems, rfl, rfl⟩ := bracketed_sound ih hchildren
        exact ⟨_, by simp, .all hitems⟩
      · subst hnot
        obtain ⟨next, hopen, hinner⟩ := bind_eq_ok.1 h
        obtain ⟨⟨inner, next'⟩, hclause, hclose⟩ := bind_eq_ok.1 hinner
        obtain ⟨next'', hexpect, hret⟩ := bind_eq_ok.1 hclose
        cases hret
        obtain rfl := expect_eq_ok.1 hopen
        obtain rfl := expect_eq_ok.1 hexpect
        obtain ⟨used, rfl, hused⟩ := ih hclause
        exact ⟨_, by simp, .not hused⟩
      · subst hran
        obtain ⟨⟨program, next⟩, hprogram, hret⟩ := bind_eq_ok.1 h
        cases hret
        obtain ⟨rfl, hnat⟩ := nat_eq_ok.1 hprogram
        exact ⟨[_, _], rfl, .ran hnat⟩
      · obtain ⟨used, heq, hused⟩ := atom_sound h
        exact ⟨used, heq, .atom hused⟩
    · cases h

theorem Clause.ne_nil (h : Clause used p) : used ≠ [] := by
  cases h with
  | atom h => cases h <;> simp
  | _ => simp

/-- Every clause starts with a word, and an atom not with a word that a clause has of its own. -/
theorem Clause.head (h : Clause used p) : ∃ w rest, used = .word w :: rest := by
  have slot {l : List Tok} {left : Text} {b : Bool} (hl : SlotSpelling l left b) (toks : List Tok) :
      ∃ w rest, l ++ toks = .word w :: rest := by
    cases hl <;> exact ⟨_, _, rfl⟩
  cases h with
  | atom h => cases h <;> exact slot (by assumption) _
  | _ => exact ⟨_, _, rfl⟩

theorem clause_atom (h : Atom used p) (fuel : Nat) (rest : List Tok) :
    clause unprintable (fuel + 1) (used ++ rest) = atom unprintable (used ++ rest) := by
  have slot {l : List Tok} {left : Text} {b : Bool} (hl : SlotSpelling l left b) (toks : List Tok) :
      clause unprintable (fuel + 1) (l ++ toks) = atom unprintable (l ++ toks) := by
    cases hl with
    | request word => cases word <;> rfl
    | _ => rfl
  cases h <;> rw [append_assoc] <;> exact slot (by assumption) _

theorem children_complete {items : List (List Tok × Pred)}
    (hhead : ∀ i ∈ items, ∃ w rest, i.1 = .word w :: rest)
    (hread : ∀ i ∈ items, ∀ toks, Closing toks → read (i.1 ++ toks) = .ok (i.2, toks))
    (rest : List Tok) :
    children read (joined (.punct .comma) items ++ .punct .rbracket :: rest) =
      .ok (items.map Prod.snd, .punct .rbracket :: rest) := by
  cases items with
  | nil => rfl
  | cons item items =>
    obtain ⟨w, tail, hw⟩ := hhead item (by simp)
    have hne : isPunct .rbracket
        (joined (.punct .comma) (item :: items) ++ .punct .rbracket :: rest) = false := by
      rw [joined_cons, hw]
      rfl
    rw [children, hne]
    exact separated_complete Closing (by simp [Closing]) (by simp [Closing]) (by simp) hread
      (by simp)

theorem bracketed_complete {items : List (List Tok × Pred)} (hitems : ∀ i ∈ items, Clause i.1 i.2)
    (hread : ∀ i ∈ items, ∀ {rest fuel}, i.1.length ≤ fuel → Closing rest →
      clause unprintable fuel (i.1 ++ rest) = .ok (i.2, rest))
    (hfuel : (joined (punct .comma) items).length ≤ fuel) (rest : List Tok) :
    bracketed unprintable (clause unprintable fuel)
        (.punct .lbracket :: (joined (.punct .comma) items ++ .punct .rbracket :: rest)) =
      .ok (items.map Prod.snd, rest) := by
  have hchildren := children_complete (fun i hi => (hitems i hi).head)
    (fun i hi toks => hread i hi ((length_le_joined (punct .comma) hi).trans hfuel)) rest
  simp only [bracketed, expect_cons, ok_bind, hchildren]
  rfl

/-- Every clause of the grammar is read back in front of what can follow one. -/
theorem clause_complete (h : Clause used p) (hfuel : used.length ≤ fuel) (hrest : Closing rest) :
    clause unprintable fuel (used ++ rest) = .ok (p, rest) := by
  induction h generalizing fuel rest with
  | «sealed» | «open» =>
    obtain ⟨fuel, rfl⟩ := Nat.exists_eq_add_of_le' hfuel
    rfl
  | any hitems ih | all hitems ih =>
    obtain ⟨fuel, rfl⟩ := Nat.exists_eq_add_of_le' (Nat.one_le_of_lt hfuel)
    simp only [length_cons, length_append] at hfuel
    have hread := bracketed_complete hitems ih (by omega : _ ≤ fuel) rest
    simp only [cons_append, append_assoc, nil_append]
    exact bind_eq_ok.2 ⟨_, hread, rfl⟩
  | not hinner ih =>
    obtain ⟨fuel, rfl⟩ := Nat.exists_eq_add_of_le' (Nat.one_le_of_lt hfuel)
    simp only [length_cons, length_append] at hfuel
    have hread := ih (show _ ≤ fuel by omega) (by simp [Closing] : Closing (.punct .rparen :: rest))
    simp only [cons_append, append_assoc, nil_append]
    exact bind_eq_ok.2 ⟨_, expect_cons .lparen _, bind_eq_ok.2 ⟨_, hread, rfl⟩⟩
  | ran hn =>
    obtain ⟨fuel, rfl⟩ := Nat.exists_eq_add_of_le' (Nat.one_le_of_lt hfuel)
    exact bind_eq_ok.2 ⟨_, nat_cons hn rest, rfl⟩
  | atom hatom =>
    have hpos := length_pos_iff.2 (Clause.atom hatom).ne_nil
    obtain ⟨fuel, rfl⟩ := Nat.exists_eq_add_of_le' (hpos.trans_le hfuel)
    rw [clause_atom hatom, atom_complete hatom hrest]

/-- The quoted slot names among the tokens. -/
def quotes (toks : List Tok) : List Text :=
  toks.filterMap fun
    | .str s => some s
    | _ => none

@[simp] theorem quotes_append (toks toks' : List Tok) :
    quotes (toks ++ toks') = quotes toks ++ quotes toks' := filterMap_append

theorem quotes_joined {α : Type} (p : Punct) (items : List (List Tok × α)) :
    quotes (joined (.punct p) items) = items.flatMap fun i => quotes i.1 := by
  induction items with
  | nil => rfl
  | cons item items ih =>
    cases items with
    | nil => simp
    | cons next items =>
      rw [joined_cons_cons, quotes_append, flatMap_cons, ← ih]
      rfl

theorem quotes_flatMap {α : Type} (p : Punct) (items : List (List Tok × α)) :
    quotes (items.flatMap fun i => .punct p :: i.1) = items.flatMap fun i => quotes i.1 := by
  rw [quotes, filterMap_flatMap]
  rfl

theorem lawMore_sound (hread : Sound read Spells) (h : lawMore read fuel toks = .ok (ps, rest)) :
    ∃ items : List (List Tok × Pred), (∀ i ∈ items, Spells i.1 i.2) ∧ ps = items.map Prod.snd ∧
      ∃ last, (last = [] ∨ last = [.punct .semi]) ∧
        toks = items.flatMap (fun i => .punct .semi :: i.1) ++ (last ++ rest) := by
  induction fuel generalizing toks ps with
  | zero =>
    cases h
    exact ⟨[], by simp, rfl, [], .inl rfl, rfl⟩
  | succ fuel ih =>
    unfold lawMore at h
    split at h
    next fuel' toks heq =>
      obtain rfl := Nat.succ.inj heq
      split at h
      next hnil =>
        cases h
        exact ⟨[], by simp, rfl, [.punct .semi], .inr rfl, by simp [hnil]⟩
      · obtain ⟨⟨c, next⟩, hc, hmore⟩ := bind_eq_ok.1 h
        obtain ⟨⟨more, next'⟩, hrest, hret⟩ := bind_eq_ok.1 hmore
        cases hret
        obtain ⟨used, rfl, hused⟩ := hread hc
        obtain ⟨items, hitems, rfl, last, hlast, rfl⟩ := ih hrest
        exact ⟨(used, c) :: items, by simpa using ⟨hused, by simpa using hitems⟩, rfl, last, hlast,
          by simp⟩
    · cases h
      exact ⟨[], by simp, rfl, [], .inl rfl, rfl⟩

/-- A law is one clause of the grammar, whose tokens quote what the law's tokens
quote and are valid when those are. -/
theorem law_sound (h : law unprintable toks = .ok p) :
    ∃ used, Clause used p ∧ quotes used = quotes toks ∧
      ((∀ t ∈ toks, t.Valid) → ∀ t ∈ used, t.Valid) := by
  obtain ⟨⟨c, rest⟩, hc, htail⟩ := bind_eq_ok.1 h
  obtain ⟨⟨more, rest'⟩, hmore, hret⟩ := bind_eq_ok.1 htail
  obtain ⟨used, rfl, hused⟩ := clause_sound hc
  obtain ⟨items, hitems, rfl, last, hlast, rfl⟩ := lawMore_sound clause_sound hmore
  dsimp only at hret
  split at hret
  next hnil =>
    have hquotes : quotes last = [] := by rcases hlast with rfl | rfl <;> rfl
    simp only [pure_inj] at hret
    subst hret hnil
    cases items with
    | nil =>
      exact ⟨used, hused, by simp [hquotes], fun hvalid t ht => hvalid t (by simp [ht])⟩
    | cons next items =>
      -- Clauses behind semicolons are the predicate that `all` and brackets would spell.
      have hclauses : ∀ i ∈ (used, c) :: next :: items, Clause i.1 i.2 := by
        simpa using ⟨hused, by simpa using hitems⟩
      rw [if_neg (by simp)]
      refine ⟨_, .all hclauses, ?_, fun hvalid t ht => ?_⟩
      · have hjoined := quotes_joined .comma ((used, c) :: next :: items)
        have hmore := quotes_flatMap .semi (next :: items)
        simp only [quotes_append, hmore, hquotes, append_nil]
        change quotes (joined _ _ ++ _) = _
        rw [quotes_append, hjoined]
        simp [quotes]
      · have hpunct (q : Punct) : (punct q).Valid := trivial
        simp only [mem_cons, mem_append, not_mem_nil, or_false] at ht
        rcases ht with rfl | rfl | ht | rfl
        · exact ⟨'a', ['l', 'l'], rfl, rfl, all_eq_true.1 rfl⟩
        · exact hpunct _
        · rcases mem_joined ht with rfl | ⟨i, hi, hmem⟩
          · exact hpunct _
          · refine hvalid t ?_
            rcases mem_cons.1 hi with rfl | htail
            · exact mem_append_left _ hmem
            · refine mem_append_right _ (mem_append_left _ ?_)
              exact mem_flatMap.2 ⟨i, htail, mem_cons_of_mem _ hmem⟩
        · exact hpunct _
  · cases hret

/-- The parser of laws reads back every clause. -/
theorem law_complete (h : Clause used p) : law unprintable used = .ok p := by
  have hclause : clause unprintable used.length (used ++ []) = .ok (p, []) :=
    clause_complete h le_rfl (by simp [Closing])
  rw [append_nil] at hclause
  simp only [law, hclause, ok_bind]
  rfl

end Reads

end MiniDregg.Law
