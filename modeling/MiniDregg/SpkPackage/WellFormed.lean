import MiniDregg.SpkPackage.Archive

/-!
# Accepted archives are well formed

Every entry the index lists is new, lies in directories that are listed before
it, and is counted against the bound on the extracted bytes. The bound is the
profile's and not the length of the decoded archive: members may share bytes.
-/

namespace MiniDregg.SpkPackage

open Fallible List Index

/-- A directory is listed under the path. -/
def HasDirectory (entries : List Entry) (path : List Name) : Prop :=
  ∃ d ∈ entries, d.path = path ∧ d.kind = .directory

namespace Index

/-- What every stage of a walk keeps. -/
structure Listed (idx : Index) : Prop where
  distinct : (idx.entries.map Entry.path).Nodup
  parents : ∀ before e after, idx.entries = before ++ e :: after →
    ∀ q, q <+: e.path → q ≠ [] → q ≠ e.path → HasDirectory before q
  names : ∀ e ∈ idx.entries, ∀ name ∈ e.path, invalidName name = false
  counted : (idx.entries.map Entry.length).sum = idx.data
  bounded : idx.data ≤ idx.maxData

/-- All directories down to a place are listed. -/
def Open (entries : List Entry) (place : List Name) : Prop :=
  ∀ q, q <+: place → q ≠ [] → HasDirectory entries q

/-- What a part of the walk does: it keeps what is listed and adds entries at some paths. -/
structure Adds (idx idx' : Index) (At : List Name → Prop) : Prop where
  listed : idx'.Listed
  kept : idx.entries ⊆ idx'.entries
  added : ∀ e ∈ idx'.entries, e ∈ idx.entries ∨ At e.path
  maxData : idx'.maxData = idx.maxData

variable {idx idx' : Index} {parent seen : List Name} {depth : Nat} {name : Name}

section
variable (h : idx.Listed) (hopen : Open idx.entries parent) (hname : invalidName name = false)
  (hfresh : ∀ e ∈ idx.entries, ¬parent ++ [name] <+: e.path) (kind : EntryKind) {length : Nat}
  (hdata : idx.data + length ≤ idx.maxData)
include h hopen hname hfresh hdata

/-- An entry under a new path of an open place. -/
theorem Listed.add :
    ({ idx with data := idx.data + length }.push ⟨parent ++ [name], kind, length⟩).Listed := by
  constructor
  · change ((idx.entries ++ [_]).map Entry.path).Nodup
    rw [map_append, nodup_append]
    refine ⟨h.distinct, nodup_singleton _, fun p hp q hq heq => ?_⟩
    obtain ⟨e, he, rfl⟩ := mem_map.1 hp
    exact hfresh e he (heq.trans (mem_singleton.1 hq) ▸ prefix_rfl)
  · intro before e after hsplit q hq hne hproper
    change idx.entries ++ [_] = before ++ e :: after at hsplit
    -- The entry is an older one, or the new one behind them all.
    rcases eq_nil_or_concat after with rfl | ⟨after, last, rfl⟩
    · obtain ⟨rfl, heq⟩ := append_inj' hsplit rfl
      obtain rfl := singleton_inj.1 heq
      exact hopen q ((prefix_concat_iff.1 hq).resolve_left hproper) hne
    · rw [concat_eq_append, ← cons_append, ← append_assoc] at hsplit
      exact h.parents before e after (append_inj' hsplit rfl).1 q hq hne hproper
  · intro e he component hcomponent
    rcases mem_append.1 he with he | he
    · exact h.names e he component hcomponent
    obtain rfl := mem_singleton.1 he
    rcases mem_append.1 hcomponent with hold | hnew
    · obtain ⟨d, hd, hpath, -⟩ := hopen parent prefix_rfl (ne_nil_of_mem hold)
      exact h.names d hd component (hpath ▸ hold)
    · exact mem_singleton.1 hnew ▸ hname
  · change ((idx.entries ++ [_]).map Entry.length).sum = idx.data + length
    rw [map_append, sum_append, h.counted]
    rfl
  · exact hdata

theorem Listed.adds :
    Adds idx ({ idx with data := idx.data + length }.push ⟨parent ++ [name], kind, length⟩)
      (parent ++ [name] <+: ·) where
  listed := h.add hopen hname hfresh kind hdata
  kept := subset_append_left _ _
  added e he := by
    rcases mem_append.1 he with he | he
    · exact .inl he
    · exact .inr (mem_singleton.1 he ▸ prefix_rfl)
  maxData := rfl

end

theorem checkName_eq_ok {isDirectory : Bool}
    (h : idx.checkName parent seen name isDirectory = .ok idx') :
    invalidName name = false ∧ name ∉ seen ∧ ∃ k, idx' = { idx with names := k } := by
  simp only [checkName, countName, bind_eq_ok, refuseIf_eq_ok, pure_inj] at h
  obtain ⟨-, -, -, hname, -, hseen, -, -, _, ⟨-, -, rfl⟩, -, -, rfl⟩ := h
  exact ⟨hname, by simpa using hseen, _, rfl⟩

mutual

theorem walkFile_adds {idx idx' : Index} {parent : List Name} {depth : Nat} {name : Name}
    (h : idx.Listed) (hopen : Open idx.entries parent) (hname : invalidName name = false)
    (hfresh : ∀ e ∈ idx.entries, ¬parent ++ [name] <+: e.path) :
    (file : File) → idx.walkFile parent depth name file = .ok idx' →
      Adds idx idx' (parent ++ [name] <+: ·)
  | .regular executable data, hwalk => by
    simp only [walkFile, addRegular, bind_eq_ok, refuseIf_decide, pure_inj, not_lt] at hwalk
    obtain ⟨-, -, -, hdata, rfl⟩ := hwalk
    exact h.adds hopen hname hfresh _ hdata
  | .symlink target, hwalk => by
    simp only [walkFile, addLink, countName, bind_eq_ok, refuseIf_eq_ok, pure_inj] at hwalk
    obtain ⟨-, -, -, -, _, ⟨-, -, rfl⟩, rfl⟩ := hwalk
    have hadds := h.adds hopen hname hfresh (.symlink target)
      (show idx.data + 0 ≤ idx.maxData from h.bounded)
    exact ⟨{ hadds.listed with }, hadds.kept, hadds.added, rfl⟩
  | .directory children, hwalk => by
    simp only [walkFile, bind_eq_ok] at hwalk
    obtain ⟨-, -, hloop⟩ := hwalk
    have hadds := h.adds hopen hname hfresh .directory
      (show idx.data + 0 ≤ idx.maxData from h.bounded)
    have hopen' : Open (idx.entries ++ [⟨parent ++ [name], .directory, 0⟩]) (parent ++ [name]) := by
      intro q hq hne
      rcases prefix_concat_iff.1 hq with rfl | hq
      · exact ⟨_, mem_append_right _ mem_cons_self, rfl, rfl⟩
      · obtain ⟨d, hd, hdir⟩ := hopen q hq hne
        exact ⟨d, hadds.kept hd, hdir⟩
    have hbelow := walkLoop_adds hadds.listed hopen' (fun e he n hn => ?_) children hloop
    · refine ⟨hbelow.listed, List.Subset.trans hadds.kept hbelow.kept, fun e he => ?_,
        hbelow.maxData⟩
      exact (hbelow.added e he).elim (hadds.added e) .inr
    · -- Nothing lies below the directory yet.
      rcases mem_append.1 he with he | he
      · exact absurd ((prefix_append _ _).trans hn) (hfresh e he)
      · rw [mem_singleton.1 he] at hn
        have hlength := hn.length_le
        simp at hlength

theorem walkLoop_adds {idx idx' : Index} {parent seen : List Name} {depth : Nat}
    (h : idx.Listed) (hopen : Open idx.entries parent)
    (hseen : ∀ e ∈ idx.entries, ∀ n, parent ++ [n] <+: e.path → n ∈ seen) :
    (files : Files) → idx.walkLoop parent depth seen files = .ok idx' →
      Adds idx idx' (parent <+: ·)
  | [], hwalk => by
    cases hwalk
    exact ⟨h, List.Subset.refl _, fun e he => .inl he, rfl⟩
  | (name, file) :: rest, hwalk => by
    simp only [walkLoop, bind_eq_ok] at hwalk
    obtain ⟨_, hcheck, idx₂, hfile, hrest⟩ := hwalk
    obtain ⟨hname, hnew, k, rfl⟩ := checkName_eq_ok hcheck
    have hsame : { idx with names := k }.Listed := { h with }
    have hfirst := walkFile_adds hsame hopen hname
      (fun e he hbelow => hnew (hseen e he name hbelow)) file hfile
    have hopen₂ : Open idx₂.entries parent := fun q hq hne => by
      obtain ⟨d, hd, hdir⟩ := hopen q hq hne
      exact ⟨d, hfirst.kept hd, hdir⟩
    have hmore := walkLoop_adds hfirst.listed hopen₂ (fun e he n hn => ?_) rest hrest
    · refine ⟨hmore.listed, List.Subset.trans hfirst.kept hmore.kept, fun e he => ?_,
        hmore.maxData.trans hfirst.maxData⟩
      exact (hmore.added e he).elim
        (fun he => (hfirst.added e he).imp_right (prefix_append _ _).trans) .inr
    · rcases hfirst.added e he with he | hbelow
      · exact mem_cons_of_mem _ (hseen e he n hn)
      · have heq := (prefix_of_prefix_length_le hn hbelow (by simp)).eq_of_length (by simp)
        obtain rfl := singleton_inj.1 (append_cancel_left heq)
        exact mem_cons_self

end

end Index

/-- The paths of an accepted archive are distinct, every proper parent of one is listed before it
as a directory, no component is empty, `.` or `..` or holds a separator, and the lengths
of the members add up to no more than the bound on the extracted bytes. -/
theorem index_wellFormed {maxData : Nat} {files : Files} {idx : Index}
    (h : index maxData files = .ok idx) :
    (idx.entries.map Entry.path).Nodup ∧
      (∀ before e after, idx.entries = before ++ e :: after →
        ∀ q, q <+: e.path → q ≠ [] → q ≠ e.path →
          ∃ d ∈ before, d.path = q ∧ d.kind = .directory) ∧
      (∀ e ∈ idx.entries, ∀ name ∈ e.path,
        name ≠ [] ∧ name ≠ ['.'] ∧ name ≠ ['.', '.'] ∧ '/' ∉ name) ∧
      (idx.entries.map Entry.length).sum ≤ maxData := by
  simp only [index, walk, bind_eq_ok] at h
  obtain ⟨-, -, hloop⟩ := h
  have hstart : (new maxData).Listed := by
    constructor <;> simp [new]
  obtain ⟨hlisted, -, -, hmax⟩ := walkLoop_adds hstart
    (fun q hq hne => absurd (prefix_nil.1 hq) hne) (by simp [new]) files hloop
  refine ⟨hlisted.distinct, hlisted.parents, fun e he name hname => ?_, ?_⟩
  · have hvalid := hlisted.names e he name hname
    simp only [invalidName, Bool.or_eq_false_iff, decide_eq_false_iff_not, isEmpty_eq_false_iff,
      contains_eq_mem] at hvalid
    exact ⟨hvalid.1.1.1.1.1, hvalid.1.1.1.2, hvalid.1.1.2, hvalid.1.2⟩
  · calc (idx.entries.map Entry.length).sum = idx.data := hlisted.counted
      _ ≤ idx.maxData := hlisted.bounded
      _ = maxData := hmax

theorem index_wellFormed_nested :
    ∃ idx, index 2 [("d", .directory [("f", .regular false [1, 2])])] = .ok idx ∧
      (idx.entries.map Entry.path).Nodup := by
  have h : index 2 [("d", .directory [("f", .regular false [1, 2])])] =
      .ok ⟨[⟨["d"], .directory, 0⟩, ⟨["d", "f"], .regular false, 2⟩],
        4, 2, 2⟩ := rfl
  exact ⟨_, h, (index_wellFormed h).1⟩

/-- An archive whose three members share their bytes. -/
def sharing (data : List UInt8) : Files :=
  ["a", "b", "c"].map fun name => (name.toList, .regular false data)

theorem index_sharing {data : List UInt8} (h : data.length = 200) :
    index (768 * 1024 * 1024) (sharing data) =
      .ok ⟨["a", "b", "c"].map fun name => ⟨[name.toList], .regular false, 200⟩, 3, 600,
        768 * 1024 * 1024⟩ := by
  simp only [index, walk, sharing, List.map, walkLoop, walkFile, addRegular, h]
  rfl

/-- Members that share their bytes add up to more than the decoded archive they lie in. -/
theorem sharing_exceeds_decoded :
    ∃ (data decoded : List UInt8) (idx : Index), data <:+: decoded ∧
      index (768 * 1024 * 1024) (sharing data) = .ok idx ∧
      decoded.length < (idx.entries.map Entry.length).sum :=
  ⟨List.replicate 200 0, List.replicate 344 0 ++ List.replicate 200 0, _,
    (suffix_append _ _).isInfix, index_sharing length_replicate, by
      rw [length_append, length_replicate, length_replicate]
      decide⟩

end MiniDregg.SpkPackage
