import MiniDregg.Hiding.View
import MiniDregg.Wire.Blocks

/-!
# What a verified view binds

Two questions about an accepted view: whether the displayed entries are the
opened values, and whether the root fixes the opening. The first holds unless an
entry is displayed more often than it is opened, the second unless the frames of
the two openings have different lengths.
-/

namespace MiniDregg.Hiding

open Fallible List Text Item
open Text (Value)

/-- The opening a view carries. -/
structure Opens (view : Value) (frame : Bytes) (items : List Item) : Prop where
  opening : ∃ resource opening, resourceOf view = some resource ∧
    resource.get "opening" = some opening ∧ frameOf opening = .ok frame ∧
    itemsOf opening = .ok items

/-- The canonical bytes of the entries a view displays. -/
structure Displays (unprintable : Char → Bool) (view : Value) (shown : List Bytes) : Prop where
  entries : ∃ resource list, resourceOf view = some resource ∧ entriesOf resource = some list ∧
    list.mapM (declaredEntryBytes unprintable) = .ok shown

/-- The input of the root. -/
def rootPreimage (cshake : CShake) (frame : Bytes) (items : List Item) : Bytes :=
  frame ++ items.flatMap (leafBytes cshake)

/-- No two different inputs that the verification of the two openings hashes
under one customization have the same hash. -/
structure CollisionFree (cshake : CShake) (f₁ f₂ : Bytes) (i₁ i₂ : List Item) : Prop where
  root : (cshake ROOT).digest (rootPreimage cshake f₁ i₁) =
    (cshake ROOT).digest (rootPreimage cshake f₂ i₂) →
    rootPreimage cshake f₁ i₁ = rootPreimage cshake f₂ i₂
  leaf : ∀ s₁ e₁ s₂ e₂, opened s₁ e₁ ∈ i₁ → opened s₂ e₂ ∈ i₂ →
    (cshake LEAF).digest (leafPreimage s₁ e₁) = (cshake LEAF).digest (leafPreimage s₂ e₂) →
    leafPreimage s₁ e₁ = leafPreimage s₂ e₂

variable {frame : Bytes} {items : List Item} {item : Item}

section Reading
variable {view : Value} {frame' : Bytes} {items' : List Item}

theorem Opens.unique (h : Opens view frame items) (h' : Opens view frame' items') :
    frame = frame' ∧ items = items' := by
  obtain ⟨r, o, hr, ho, hf, hi⟩ := h.opening
  obtain ⟨r', o', hr', ho', hf', hi'⟩ := h'.opening
  rw [hr] at hr'
  cases hr'
  rw [ho] at ho'
  cases ho'
  rw [hf] at hf'
  rw [hi] at hi'
  cases hf'
  cases hi'
  exact ⟨rfl, rfl⟩

/-- A sealed leaf has the length of a digest. -/
theorem Item.length_of_read {v : Value} (cshake : CShake) (h : read v = .ok item) :
    (item.leafBytes cshake).length = 32 := by
  unfold read at h
  split at h
  · simp only [readOpened, bind_eq_ok, pure_inj] at h
    obtain ⟨salt, -, raw, -, entry, -, rfl⟩ := h
    exact (cshake LEAF).length_digest _
  · simp only [readSealed, bind_eq_ok, refuseIf_decide, ne_eq, not_not, pure_inj] at h
    obtain ⟨raw, -, leaf, -, -, hlen, rfl⟩ := h
    exact hlen

theorem Opens.length_leafBytes (cshake : CShake) (h : Opens view frame items) :
    ∀ item ∈ items, (item.leafBytes cshake).length = 32 := by
  intro item hitem
  obtain ⟨r, o, -, -, -, hi⟩ := h.opening
  simp only [itemsOf, bind_eq_ok] at hi
  obtain ⟨list, -, hread⟩ := hi
  obtain ⟨v, -, hv⟩ := mem_of_mapM_eq_ok hread hitem
  exact length_of_read cshake hv

end Reading

variable {cshake : CShake} {unprintable : Char → Bool} {root : Text} {checked : Bool}

section Accepted
variable {view : Value}
  {opened «sealed» : Nat}

/-- An accepted view opens to its root, and its displayed entries were checked
when the summary says so. -/
theorem verifyView_eq_verified
    (h : verifyView cshake unprintable view = .ok (.verified root opened «sealed» checked)) :
    ∃ resource frame items, resourceOf view = some resource ∧ Opens view frame items ∧
      root = rootText cshake frame items ∧
      checkDisplayed unprintable resource items = .ok checked := by
  unfold verifyView at h
  split at h
  · cases h
  next resource hres =>
    simp only [bind_eq_ok, orElse_eq_ok] at h
    obtain ⟨opening, hopening, frame, hframe, h⟩ := h
    split at h
    · cases h
    · simp only [verifyOpening, bind_eq_ok, refuseIf_eq_ok, pure_inj,
        Summary.verified.injEq] at h
      obtain ⟨items, hitems, claimed, -, -, -, c, hc, rfl, -, -, rfl⟩ := h
      exact ⟨resource, frame, items, hres, ⟨resource, opening, hres, hopening, hframe, hitems⟩,
        rfl, hc⟩

theorem root_eq_of_verified
    (h : verifyView cshake unprintable view = .ok (.verified root opened «sealed» checked))
    (ho : Opens view frame items) : root = rootText cshake frame items := by
  obtain ⟨resource, frame', items', -, ho', hroot, -⟩ := verifyView_eq_verified h
  obtain ⟨rfl, rfl⟩ := ho.unique ho'
  exact hroot

/-- A checked view displays as many entries as it opens values, and each of them
is an opened value. -/
theorem checked_of_verified {shown : List Bytes}
    (h : verifyView cshake unprintable view = .ok (.verified root opened «sealed» true))
    (ho : Opens view frame items) (hd : Displays unprintable view shown) :
    shown.length = (openedValues items).length ∧ ∀ b ∈ shown, b ∈ openedValues items := by
  obtain ⟨resource, frame', items', hres, ho', -, hcheck⟩ := verifyView_eq_verified h
  obtain ⟨rfl, rfl⟩ := ho.unique ho'
  obtain ⟨resource', list, hres', hlist, hshown⟩ := hd.entries
  rw [hres] at hres'
  cases hres'
  rw [checkDisplayed, hlist] at hcheck
  dsimp only at hcheck
  split at hcheck
  · simp only [checkEntries, bind_eq_ok, refuseIf_decide, ne_eq, not_not, forM_eq_ok] at hcheck
    obtain ⟨-, ⟨-, -, -, hlen, hall⟩, -⟩ := hcheck
    refine ⟨(mapM_eq_ok.1 hshown).length_eq.symm.trans hlen, ?_⟩
    intro b hb
    obtain ⟨entry, hentry, hbytes⟩ := mem_of_mapM_eq_ok hshown hb
    have hcheckEntry := hall entry hentry
    simp only [checkEntry, hbytes, ok_bind, refuseIf_eq_ok, Bool.not_eq_false',
      contains_iff_mem] at hcheckEntry
    exact hcheckEntry
  · cases hcheck

/-- The displayed entries of a checked view are the opened values exactly when
every entry it displays more than once is opened at least as often. -/
theorem displayed_perm_iff {shown : List Bytes}
    (h : verifyView cshake unprintable view = .ok (.verified root opened «sealed» true))
    (ho : Opens view frame items) (hd : Displays unprintable view shown) :
    shown.Perm (openedValues items) ↔
      ∀ b, 2 ≤ shown.count b → shown.count b ≤ (openedValues items).count b := by
  obtain ⟨hlen, hmem⟩ := checked_of_verified h ho hd
  constructor
  · intro hperm b _
    exact (hperm.count_eq b).le
  · intro hcount
    have hsub : List.Subperm shown (openedValues items) := by
      rw [subperm_ext_iff]
      intro b hb
      have hopened : 1 ≤ (openedValues items).count b := one_le_count_iff.2 (hmem b hb)
      by_cases htwice : 2 ≤ shown.count b
      · exact hcount b htwice
      · omega
    exact hsub.perm_of_length_le hlen.ge

end Accepted

section Root
variable {f₁ f₂ : Bytes} {i₁ i₂ : List Item}

/-- Equal root texts come from equal inputs. -/
theorem rootPreimage_eq (hfree : CollisionFree cshake f₁ f₂ i₁ i₂)
    (h : rootText cshake f₁ i₁ = rootText cshake f₂ i₂) :
    rootPreimage cshake f₁ i₁ = rootPreimage cshake f₂ i₂ := by
  apply hfree.root
  apply Wire.fromLeBytes_inj
  · rw [(cshake ROOT).length_digest, (cshake ROOT).length_digest]
  · have hvalue := congrArg digitsValue h
    simpa only [rootText, rootPreimage, digitsValue_natText] using hvalue

/-- What two openings of one root are to have in common: the frame, the number
of items, and the entry of every item that both open. -/
structure SameOpening (f₁ f₂ : Bytes) (i₁ i₂ : List Item) : Prop where
  frame : f₁ = f₂
  length : i₁.length = i₂.length
  entry : ∀ (k : Nat) (s₁ e₁ s₂ e₂ : Bytes), i₁[k]? = some (opened s₁ e₁) →
    i₂[k]? = some (opened s₂ e₂) → e₁ = e₂

/-- Two accepted views of one root have the same opening exactly when their
frames have the same length. -/
theorem sameOpening_iff {unprintable : Char → Bool} {v₁ v₂ : Value} {root : Text}
    {n₁ n₂ m₁ m₂ : Nat} {c₁ c₂ : Bool} (o₁ : Opens v₁ f₁ i₁) (o₂ : Opens v₂ f₂ i₂)
    (hfree : CollisionFree cshake f₁ f₂ i₁ i₂)
    (h₁ : verifyView cshake unprintable v₁ = .ok (.verified root n₁ m₁ c₁))
    (h₂ : verifyView cshake unprintable v₂ = .ok (.verified root n₂ m₂ c₂)) :
    SameOpening f₁ f₂ i₁ i₂ ↔ f₁.length = f₂.length := by
  constructor
  · intro hsame
    rw [hsame.frame]
  · intro hlen
    have hroot : rootText cshake f₁ i₁ = rootText cshake f₂ i₂ := by
      rw [← root_eq_of_verified h₁ o₁, ← root_eq_of_verified h₂ o₂]
    obtain ⟨hframe, hflat⟩ := append_inj (rootPreimage_eq hfree hroot) hlen
    have hleaves := Wire.map_eq_of_flatMap_eq (by decide) (o₁.length_leafBytes cshake)
      (o₂.length_leafBytes cshake) hflat
    refine ⟨hframe, by simpa using congrArg List.length hleaves, ?_⟩
    intro k s₁ e₁ s₂ e₂ hk₁ hk₂
    have hk := congrArg (fun l => l[k]?) hleaves
    simp only [getElem?_map, hk₁, hk₂, Option.map_some, Option.some.injEq] at hk
    have hleaf := hfree.leaf s₁ e₁ s₂ e₂ (mem_of_getElem? hk₁) (mem_of_getElem? hk₂) hk
    exact (bytesStream_delimited _ _ _ _ hleaf).2

end Root

/-! ## Views written out -/

namespace Sample

/-- An item as a view carries it. -/
def itemValue : Item → Value
  | .opened salt entry => .object [("salt", .string (Text.hexEncode salt)),
      ("entry", .string (Text.hexEncode entry))]
  | .sealed leaf => .object [("leaf", .string (Text.hexEncode leaf))]

/-- The view of an opening that claims the given root and displays the given entries. -/
def view (root : Text) (frame : Bytes) (items : List Item) (entries : Value) : Value :=
  .object [("cell", .object [("root", .string (String.ofList root)), ("entries", entries)]),
    ("opening", .object [("frame", .string (Text.hexEncode frame)),
      ("items", .array (items.map itemValue))])]

/-- A displayed value of field 0 of resource 0. -/
def shownEntry (value : String) : Value :=
  .object [("key", .object [("type", .string "object"), ("resource", .string "0"),
    ("field", .string "0")]), ("value", .string value)]

variable {entries : Value}

theorem read_itemValue (h : ∀ leaf, item = .sealed leaf → leaf.length = 32) :
    read (itemValue item) = .ok item := by
  cases item with
  | opened salt entry =>
    change readOpened _ (hexEncode salt) = _
    change (do
      let salt ← hexDecode (hexEncode salt)
      let raw ← orElse (some (hexEncode entry)) "opened item lacks entry"
      let entry ← hexDecode raw
      pure (opened salt entry)) = _
    simp only [hexDecode_hexEncode, orElse, ok_bind, pure_eq_ok]
  | «sealed» leaf =>
    change (do
      let raw ← orElse (some (hexEncode leaf)) "item lacks leaf"
      let leaf ← hexDecode raw
      refuseIf (decide (leaf.length ≠ 32)) "a sealed leaf is not 32 bytes"
      pure (sealed leaf)) = _
    simp only [hexDecode_hexEncode, orElse, ok_bind, pure_eq_ok, h leaf rfl, ne_eq,
      not_true_eq_false, decide_false, refuseIf_false]

theorem opens_view (h : ∀ item ∈ items, ∀ leaf, item = .sealed leaf → leaf.length = 32) :
    Opens (view root frame items entries) frame items := by
  refine ⟨_, _, rfl, rfl, ?_, ?_⟩
  · exact hexDecode_hexEncode frame
  · exact mapM_map_eq_ok fun item hitem => read_itemValue (h item hitem)

/-- The verifier accepts the view of an opening under its own root, once the
displayed entries pass. -/
theorem verifyView_view
    (hframe : frame ≠ []) (h : ∀ item ∈ items, ∀ leaf, item = .sealed leaf → leaf.length = 32)
    (hcheck : checkDisplayed unprintable
      (view (rootText cshake frame items) frame items entries) items = .ok checked) :
    verifyView cshake unprintable (view (rootText cshake frame items) frame items entries) =
      .ok (.verified (rootText cshake frame items) (openedEntries items).length
        (items.length - (openedEntries items).length) checked) := by
  obtain ⟨resource, opening, hres, hopening, hf, hi⟩ :=
    (opens_view h : Opens (view (rootText cshake frame items) frame items entries) _ _).opening
  obtain rfl : view (rootText cshake frame items) frame items entries = resource :=
    Option.some.inj hres
  have hclaimed : claimedRoot (view (rootText cshake frame items) frame items entries) =
      .ok (rootText cshake frame items) := by
    change Except.ok (String.ofList (rootText cshake frame items)).toList = _
    rw [String.toList_ofList]
  unfold verifyView
  simp only [hres, hopening, orElse, hf, ok_bind, if_neg hframe, verifyOpening, hi, hclaimed,
    hcheck, ne_eq, not_true_eq_false, decide_false, refuseIf_false, pure_eq_ok]

/-- Openings of one item have no two leaf inputs. -/
theorem collisionFree_of_item {f₁ f₂ : Bytes} {i₁ i₂ : List Item} (s e : Bytes)
    (hroot : rootPreimage cshake f₁ i₁ = rootPreimage cshake f₂ i₂) (h₁ : ∀ i ∈ i₁, i = .opened s e)
    (h₂ : ∀ i ∈ i₂, i = .opened s e) : CollisionFree cshake f₁ f₂ i₁ i₂ := by
  refine ⟨fun _ => hroot, ?_⟩
  intro s₁ e₁ s₂ e₂ hm₁ hm₂ _
  cases h₁ _ hm₁
  cases h₂ _ hm₂
  rfl

/-- The bytes of `shownEntry "0"` and of `shownEntry "1"`. -/
def zeroEntry : Bytes := [0, 255, 255, 255]

def oneEntry : Bytes := [0, 255, 255, 2, 255]

/-- One entry opened under one salt. -/
def lone : List Item := [.opened [1] zeroEntry]

/-- The same entry twice, and two entries. -/
def twice : List Item := [.opened [1] zeroEntry, .opened [1] zeroEntry]

def pair : List Item := [.opened [1] zeroEntry, .opened [2] oneEntry]

/-- The two entries with the second one sealed. -/
def half (cshake : CShake) : List Item :=
  [.opened [1] zeroEntry, .sealed ((Item.opened [2] oneEntry).leafBytes cshake)]

/-- A hash that keeps the end of its input. -/
def tailShake : CShake := fun _ =>
  { digest := fun b => (b.reverse ++ List.replicate 32 0).take 32
    length_digest := by simp }

theorem lone_opened : ∀ item ∈ lone, ∀ leaf, item = .sealed leaf → leaf.length = 32 := by
  simp [lone]

theorem pair_opened : ∀ item ∈ pair, ∀ leaf, item = .sealed leaf → leaf.length = 32 := by
  simp [pair]

end Sample

open Sample in
/-- Two entries displayed in another order than they are opened in. -/
theorem displayed_perm_pair : [oneEntry, zeroEntry].Perm (openedValues pair) := by
  have hcount := nodup_iff_count_le_one.1 (by decide : [oneEntry, zeroEntry].Nodup)
  have h : verifyView tailShake (fun _ => false) (view _ [0xaa] pair
      (.array [shownEntry "1", shownEntry "0"])) = .ok (.verified _ 2 0 true) :=
    verifyView_view (by decide) pair_opened rfl
  have hiff : [oneEntry, zeroEntry].Perm (openedValues pair) ↔ _ :=
    displayed_perm_iff h (opens_view pair_opened) ⟨_, _, rfl, rfl, rfl⟩
  exact hiff.2 fun b hb => absurd (hcount b) (by omega)

open Sample in
/-- An entry displayed twice hides an opened one. -/
theorem displayed_not_perm :
    ¬ [zeroEntry, zeroEntry].Perm (openedValues pair) ∧
      ∀ (cshake : CShake) (unprintable : Char → Bool),
        let v := view (rootText cshake [0xaa] pair) [0xaa] pair
          (.array [shownEntry "0", shownEntry "0"])
        verifyView cshake unprintable v = .ok (.verified (rootText cshake [0xaa] pair) 2 0 true) ∧
          Opens v [0xaa] pair ∧ Displays unprintable v [zeroEntry, zeroEntry] := by
  refine ⟨by decide, fun cshake unprintable => ?_⟩
  exact ⟨verifyView_view (by decide) pair_opened rfl, opens_view pair_opened,
    ⟨_, _, rfl, rfl, rfl⟩⟩

open Sample in
/-- Two views of one root, the second of which seals an entry that the first opens. -/
theorem sameOpening_half : SameOpening [0xaa] [0xaa] pair (half tailShake) := by
  have hopened : ∀ item ∈ half tailShake, ∀ leaf, item = .sealed leaf → leaf.length = 32 := by
    simp [half, leafBytes, (tailShake LEAF).length_digest]
  have hfree : CollisionFree tailShake [0xaa] [0xaa] pair (half tailShake) := by
    refine ⟨fun _ => rfl, fun s₁ e₁ s₂ e₂ h₁ h₂ h => ?_⟩
    simp only [half, pair, mem_cons, opened.injEq, reduceCtorEq, not_mem_nil, or_false] at h₁ h₂
    obtain ⟨rfl, rfl⟩ := h₂
    rcases h₁ with ⟨rfl, rfl⟩ | ⟨rfl, rfl⟩
    · rfl
    · exact absurd h (by decide)
  have h₁ : verifyView tailShake (fun _ => false) (view (rootText tailShake [0xaa] pair) [0xaa]
      pair .null) = _ := verifyView_view (by decide) pair_opened rfl
  have h₂ : verifyView tailShake (fun _ => false) (view (rootText tailShake [0xaa] pair) [0xaa]
      (half tailShake) .null) = _ := verifyView_view (by decide) hopened rfl
  exact (sameOpening_iff (opens_view pair_opened) (opens_view hopened) hfree h₁ h₂).2 rfl

open Sample in
/-- A leaf moved into the frame leaves the root as it is. -/
theorem not_sameOpening :
    (∀ f₁ f₂, ¬ SameOpening f₁ f₂ twice lone) ∧
      ∀ (cshake : CShake) (unprintable : Char → Bool),
        let f₁ : Bytes := [0xaa]
        let f₂ : Bytes := f₁ ++ (opened [1] zeroEntry).leafBytes cshake
        let root := rootText cshake f₁ twice
        let v₁ := view root f₁ twice .null
        let v₂ := view root f₂ lone .null
        verifyView cshake unprintable v₁ = .ok (.verified root 2 0 false) ∧
          verifyView cshake unprintable v₂ = .ok (.verified root 1 0 false) ∧
          Opens v₁ f₁ twice ∧ Opens v₂ f₂ lone ∧ CollisionFree cshake f₁ f₂ twice lone := by
  refine ⟨fun _ _ hsame => absurd hsame.length (by decide), ?_⟩
  intro cshake unprintable f₁ f₂ root v₁ v₂
  have hpre : rootPreimage cshake f₁ twice = rootPreimage cshake f₂ lone := by
    simp [rootPreimage, f₁, f₂, twice, lone]
  have hroot : root = rootText cshake f₂ lone := by
    change natText (Wire.fromLeBytes ((cshake ROOT).digest (rootPreimage _ _ _))) = _
    rw [hpre]
    rfl
  have htwice : ∀ item ∈ twice, ∀ leaf, item = .sealed leaf → leaf.length = 32 := by
    simp [twice]
  refine ⟨verifyView_view (by decide) htwice rfl, ?_, opens_view htwice, opens_view lone_opened,
    collisionFree_of_item [1] zeroEntry hpre (by simp [twice]) (by simp [lone])⟩
  change verifyView cshake unprintable (view root f₂ lone .null) = _
  rw [hroot]
  exact verifyView_view (by simp [f₂, f₁]) lone_opened rfl

end MiniDregg.Hiding
