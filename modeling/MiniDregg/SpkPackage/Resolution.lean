import MiniDregg.SpkPackage.Archive

/-!
# Resolving paths of an accepted archive

Ordinary resolution of a path in the image: a link is replaced by its target,
an absolute target restarts at the root of the image, and `..` goes to the
parent of the directory reached, which at the root lies outside the image.
The index checks a target by counting its components, as if no component were a
link itself.
-/

namespace MiniDregg.SpkPackage

open Fallible List Component Index

/-- The files of the directory at a place. -/
def filesAt : Files → List Name → Option Files
  | files, [] => some files
  | files, name :: place =>
    match files.lookup name with
    | some (.directory children) => filesAt children place
    | _ => none

/-- The file of a name in the directory at a place. -/
def fileAt (root : Files) (place : List Name) (name : Name) : Option File :=
  (filesAt root place).bind fun files => files.lookup name

/-- A directory that was reached and the components still to resolve. -/
structure Position where
  place : List Name
  rest : List Component

/-- The position at the root with the components of a path. -/
def Position.start (path : List Name) : Position := ⟨[], path.map normal⟩

inductive Move
  | next (p : Position)
  | stop
  | escape

/-- One component of the resolution. It stops at the end of the path, at a name
that does not exist and at a regular file. -/
def step (root : Files) (p : Position) : Move :=
  match p.rest with
  | [] => .stop
  | .parentDir :: rest => if p.place = [] then .escape else .next ⟨p.place.dropLast, rest⟩
  | .normal name :: rest =>
    match fileAt root p.place name with
    | some (.directory _) => .next ⟨p.place ++ [name], rest⟩
    | some (.symlink target) =>
      .next ⟨if isAbsolute target then [] else p.place, components target ++ rest⟩
    | _ => .stop

/-- The positions of a resolution. -/
def Reaches (root : Files) : Position → Position → Prop :=
  Relation.ReflTransGen fun p q => step root p = .next q

/-! ## Counting components -/

theorem lexicalDepth_append (d : Nat) (a b : List Component) :
    lexicalDepth d (a ++ b) = (lexicalDepth d a).bind fun e => lexicalDepth e b := by
  fun_induction lexicalDepth d a with
  | case1 d => rfl
  | case2 d name rest ih | case4 d rest ih => simpa [lexicalDepth] using ih
  | case3 rest => rfl

variable {rest : List Component}

/-- Components that stay inside the image from a place stay inside it from a deeper one. -/
theorem lexicalDepth_isSome_mono {d e : Nat}
    (h : (lexicalDepth d rest).isSome) (hde : d ≤ e) : (lexicalDepth e rest).isSome := by
  induction rest generalizing d e with
  | nil => rfl
  | cons c rest ih =>
    cases c with
    | normal name =>
      simp only [lexicalDepth] at h ⊢
      exact ih h (by omega)
    | parentDir =>
      obtain _ | d := d
      · simp [lexicalDepth] at h
      · obtain _ | e := e
        · omega
        · simp only [lexicalDepth] at h ⊢
          exact ih h (by omega)

theorem lexicalDepth_normal (d : Nat) (path : List Name) :
    (lexicalDepth d (path.map normal)).isSome := by
  induction path generalizing d with
  | nil => rfl
  | cons name path ih =>
    simp only [map_cons, lexicalDepth]
    exact ih (d + 1)

/-! ## What the index checks -/

/-- Every link below a directory passed `valid_link` at its own place. -/
def LinksValid (parent : List Name) (files : Files) : Prop :=
  ∀ place name target, fileAt files place name = some (.symlink target) →
    validLink (parent ++ place) target = .ok ()

/-- What the walk of one file establishes. -/
def FileValid (parent : List Name) (name : Name) : File → Prop
  | .regular _ _ => True
  | .symlink target => validLink parent target = .ok ()
  | .directory children => LinksValid (parent ++ [name]) children

variable {parent : List Name} {name : Name}

theorem linksValid_cons {file : File} {rest : Files} (hfile : FileValid parent name file)
    (hrest : LinksValid parent rest) : LinksValid parent ((name, file) :: rest) := by
  intro place target' target h
  cases place with
  | nil =>
    simp only [fileAt, filesAt, Option.bind_some, lookup_cons] at h
    split at h
    · cases h
      simpa [FileValid] using hfile
    · exact hrest [] target' target h
  | cons dir place =>
    by_cases hdir : dir = name
    · subst hdir
      cases file with
      | directory children =>
        have hchild : fileAt children place target' = some (.symlink target) := by
          simpa [fileAt, filesAt, lookup_cons] using h
        have := hfile place target' target hchild
        rwa [append_assoc, singleton_append] at this
      | regular | symlink => simp [fileAt, filesAt] at h
    · have hne : (dir == name) = false := by simpa using hdir
      apply hrest (dir :: place) target' target
      simpa [fileAt, filesAt, lookup_cons, hne] using h

mutual

theorem walkFile_valid {idx idx' : Index} {parent : List Name} {depth : Nat} {name : Name} :
    (file : File) → idx.walkFile parent depth name file = .ok idx' → FileValid parent name file
  | .regular _ _, _ => trivial
  | .symlink target, h => by
    simp only [walkFile, addLink, bind_eq_ok] at h
    obtain ⟨-, -, ⟨⟩, hlink, -⟩ := h
    exact hlink
  | .directory children, h => by
    simp only [walkFile, bind_eq_ok] at h
    obtain ⟨-, -, hloop⟩ := h
    exact walkLoop_valid children hloop

theorem walkLoop_valid {idx idx' : Index} {parent : List Name} {depth : Nat} {seen : List Name} :
    (files : Files) → idx.walkLoop parent depth seen files = .ok idx' → LinksValid parent files
  | [], _ => by
    intro place name target h
    cases place <;> simp [fileAt, filesAt] at h
  | (name, file) :: rest, h => by
    simp only [walkLoop, bind_eq_ok] at h
    obtain ⟨idx₁, -, idx₂, hfile, hrest⟩ := h
    exact linksValid_cons (walkFile_valid file hfile) (walkLoop_valid rest hrest)

end

variable {root : Files} {idx : Index} {p : Position}

/-- Every link of an accepted archive passed the check of its target. -/
theorem linksValid_of_index {maxData : Nat} (h : index maxData root = .ok idx) :
    LinksValid [] root := by
  simp only [index, walk, bind_eq_ok] at h
  obtain ⟨-, -, hloop⟩ := h
  exact walkLoop_valid root hloop

variable {target : Text}

/-- The target of an accepted link stays inside the image, counted from its place. -/
theorem lexicalDepth_of_validLink (h : validLink parent target = .ok ()) :
    (lexicalDepth (if isAbsolute target then 0 else parent.length) (components target)).isSome := by
  simp only [validLink, bind_eq_ok, refuseIf_eq_ok] at h
  obtain ⟨-, -, hdepth⟩ := h
  simpa using hdepth

/-! ## Containment -/

/-- Wherever the resolution of an accepted path meets a link, the components
behind the link do not climb above the place it leads to. -/
def Plain (root : Files) (idx : Index) : Prop :=
  ∀ e ∈ idx.entries, ∀ p, Reaches root (.start e.path) p → ∀ name rest target,
    p.rest = .normal name :: rest → fileAt root p.place name = some (.symlink target) →
    (lexicalDepth 0 rest).isSome

variable {q : Position}

/-- Every move to a new position. -/
theorem step_eq_next (h : step root p = .next q) :
    (∃ rest, p.rest = .parentDir :: rest ∧ p.place ≠ [] ∧ q = ⟨p.place.dropLast, rest⟩) ∨
    (∃ name rest children, p.rest = .normal name :: rest ∧
      fileAt root p.place name = some (.directory children) ∧ q = ⟨p.place ++ [name], rest⟩) ∨
    ∃ name rest target, p.rest = .normal name :: rest ∧
      fileAt root p.place name = some (.symlink target) ∧
      q = ⟨if isAbsolute target then [] else p.place, components target ++ rest⟩ := by
  unfold step at h
  split at h
  · cases h
  next rest hrest =>
    split at h
    · cases h
    next hplace =>
      cases h
      exact Or.inl ⟨rest, hrest, hplace, rfl⟩
  next name rest hrest =>
    split at h
    next children hfile =>
      cases h
      exact Or.inr (Or.inl ⟨name, rest, children, hrest, hfile, rfl⟩)
    next target hfile =>
      cases h
      exact Or.inr (Or.inr ⟨name, rest, target, hrest, hfile, rfl⟩)
    · cases h

/-- One step keeps the remaining components inside the image. -/
theorem step_inside (hlinks : LinksValid [] root)
    (hplain : ∀ name rest target, p.rest = .normal name :: rest → fileAt root p.place name =
      some (.symlink target) → (lexicalDepth 0 rest).isSome)
    (hp : (lexicalDepth p.place.length p.rest).isSome) (h : step root p = .next q) :
    (lexicalDepth q.place.length q.rest).isSome := by
  rcases step_eq_next h with ⟨rest, hrest, hplace, rfl⟩ | ⟨name, rest, children, hrest, -, rfl⟩ |
    ⟨name, rest, target, hrest, hfile, rfl⟩
  · obtain ⟨d, hd⟩ := Nat.exists_eq_succ_of_ne_zero (length_pos_iff.2 hplace).ne'
    rw [hrest, hd] at hp
    rw [length_dropLast, hd]
    exact hp
  · rw [hrest] at hp
    rw [length_append, length_singleton]
    exact hp
  · have hvalid := lexicalDepth_of_validLink (hlinks p.place name target hfile)
    rw [nil_append] at hvalid
    have hlength : (if isAbsolute target then [] else p.place : List Name).length =
        if isAbsolute target then 0 else p.place.length := by
      split <;> rfl
    obtain ⟨d, hd⟩ := Option.isSome_iff_exists.1 hvalid
    rw [hlength, lexicalDepth_append, hd]
    exact lexicalDepth_isSome_mono (hplain name rest target hrest hfile) (Nat.zero_le d)

/-- A run of the resolution keeps the remaining components inside the image. -/
theorem reaches_inside (hlinks : LinksValid [] root) (hplain : Plain root idx) {e : Entry}
    (he : e ∈ idx.entries) (h : Reaches root (.start e.path) p) :
    (lexicalDepth p.place.length p.rest).isSome := by
  induction h with
  | refl => exact lexicalDepth_normal 0 e.path
  | tail hreach hstep ih => exact step_inside hlinks (hplain e he _ hreach) ih hstep

/-- The resolution of an accepted path never leaves the image, when behind every
link it meets the path does not climb above the place the link leads to. -/
theorem resolution_contained {maxData : Nat} {root : Files} {idx : Index}
    (h : index maxData root = .ok idx) (hplain : Plain root idx) :
    ∀ e ∈ idx.entries, ∀ p, Reaches root (.start e.path) p → step root p ≠ .escape := by
  intro e he p hreach hescape
  have hinside := reaches_inside (linksValid_of_index h) hplain he hreach
  unfold step at hescape
  split at hescape
  · cases hescape
  next rest hrest =>
    split at hescape
    next hplace =>
      rw [hrest, hplace] at hinside
      cases hinside
    · cases hescape
  · split at hescape <;> cases hescape

/-- Whether a position meets no link, or does not climb behind the link it meets. -/
def plainAt (root : Files) (p : Position) : Bool :=
  match p.rest with
  | .normal name :: rest =>
    match fileAt root p.place name with
    | some (.symlink _) => (lexicalDepth 0 rest).isSome
    | _ => true
  | _ => true

/-- Whether the resolution from a position ends within `n` steps and is plain at each of them. -/
def plainFrom (root : Files) : Nat → Position → Bool
  | 0, _ => false
  | n + 1, p => plainAt root p &&
    match step root p with
    | .next q => plainFrom root n q
    | _ => true

theorem plainAt_of_plainFrom {n : Nat} (h : plainFrom root n p = true) (hreach : Reaches root p q) :
    plainAt root q = true := by
  induction n generalizing p with
  | zero => cases h
  | succ n ih =>
    rw [plainFrom, Bool.and_eq_true] at h
    rcases hreach.cases_head with rfl | ⟨p', hstep, hreach⟩
    · exact h.1
    · rw [hstep] at h
      exact ih h.2 hreach

/-- A resolution of every path that ends and is plain makes an archive plain. -/
theorem plain_of_plainFrom {n : Nat}
    (h : ∀ e ∈ idx.entries, plainFrom root n (.start e.path) = true) : Plain root idx := by
  intro e he p hp name rest target hrest hfile
  have hplain := plainAt_of_plainFrom (h e he) hp
  simpa only [plainAt, hrest, hfile] using hplain

/-! ## Two archives -/

/-- A link to the root of the image, and one that climbs through it. -/
def climbing : Files :=
  [("l", .symlink "/"), ("m", .symlink "l/..")]

def climbingIndex : Index :=
  ⟨[⟨["l"], .symlink "/", 0⟩, ⟨["m"], .symlink "l/..", 0⟩], 7, 0, 0⟩

/-- The index accepts a link whose resolution leaves the image. -/
theorem climbing_escapes :
    index 0 climbing = .ok climbingIndex ∧
      ∃ e ∈ climbingIndex.entries, ∃ p, Reaches climbing (.start e.path) p ∧
        step climbing p = .escape := by
  refine ⟨by decide, ⟨["m"], .symlink "l/..", 0⟩, by decide,
    ⟨[], [.parentDir]⟩, ?_, rfl⟩
  refine .head (b := ⟨[], [.normal "l", .parentDir]⟩) ?_ (.single ?_)
  · rfl
  · rfl

/-- A directory with a file and a link to it beside the directory. -/
def linked : Files :=
  [("a", .directory [("b", .regular false [])]), ("l", .symlink "a/b")]

def linkedIndex : Index :=
  ⟨[⟨["a"], .directory, 0⟩, ⟨["a", "b"], .regular false, 0⟩,
    ⟨["l"], .symlink "a/b", 0⟩], 8, 0, 0⟩

theorem linked_contained :
    index 0 linked = .ok linkedIndex ∧ ∀ e ∈ linkedIndex.entries, ∀ p,
      Reaches linked (.start e.path) p → step linked p ≠ .escape := by
  have hindex : index 0 linked = .ok linkedIndex := by decide
  have hplain : Plain linked linkedIndex := @plain_of_plainFrom _ _ 5 (by decide)
  exact ⟨hindex, resolution_contained hindex hplain⟩

end MiniDregg.SpkPackage
