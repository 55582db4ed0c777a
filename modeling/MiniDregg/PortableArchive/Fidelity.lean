import MiniDregg.PortableArchive.Archive

/-!
# Fidelity of the portable archive

What a captured file reads back as, and what a manifest commits to. The proofs
rest on one reading of a chunk: a chunk that is read has the length and the
digest its selector names. With digests that do not collide on the byte strings
at hand, the pieces behind a list of selectors are fixed, and a range is cut out
of their concatenation.
-/

namespace MiniDregg.PortableArchive

open Fallible List Function Directory Text Wire

/-! ## Pieces -/

theorem pieces_nil : pieces [] = [] := by
  rw [pieces, if_pos rfl]

variable {content : Bytes}

theorem pieces_of_ne_nil (h : content ≠ []) :
    pieces content = content.take CHUNK_BYTES :: pieces (content.drop CHUNK_BYTES) := by
  rw [pieces, if_neg h]

/-- The placement of pieces: none is empty or larger than a chunk, and all but
the last are full. -/
def Placed : List Bytes → Prop
  | [] => True
  | p :: rest => p ≠ [] ∧ p.length ≤ CHUNK_BYTES ∧ (rest ≠ [] → p.length = CHUNK_BYTES) ∧
    Placed rest

variable {ps : List Bytes} {p : Bytes}

theorem Placed.of_mem (h : Placed ps) (hp : p ∈ ps) : p ≠ [] ∧ p.length ≤ CHUNK_BYTES := by
  induction ps with
  | nil => cases hp
  | cons q ps ih =>
    obtain ⟨hne, hle, -, hrest⟩ := h
    rcases mem_cons.1 hp with rfl | hp
    · exact ⟨hne, hle⟩
    · exact ih hrest hp

theorem flatten_pieces (content : Bytes) : (pieces content).flatten = content := by
  fun_induction pieces content with
  | case1 => rfl
  | case2 content h ih => rw [flatten_cons, ih, take_append_drop]

theorem placed_pieces (content : Bytes) : Placed (pieces content) := by
  fun_induction pieces content with
  | case1 => trivial
  | case2 content h ih =>
    have hpos := length_pos_iff.2 h
    refine ⟨?_, length_take_le _ _, fun hrest => ?_, ih⟩
    · rw [← length_pos_iff, length_take, CHUNK_BYTES]
      omega
    · have hmore : content.drop CHUNK_BYTES ≠ [] := by
        intro hnil
        exact hrest (by rw [hnil, pieces_nil])
      have hlong := length_pos_iff.2 hmore
      rw [length_drop] at hlong
      rw [length_take]
      omega

/-! ## Digests -/

section Digest
variable {sha : Wire.Digest} {root : Directory}

theorem hexChar_lower : ∀ d < 16, ((hexChar d).isDigit ||
    decide (97 ≤ (hexChar d).toNat ∧ (hexChar d).toNat ≤ 102)) = true := by decide

theorem canonicalHash_hash (b : Bytes) : canonicalHash (hash sha b) = true := by
  simp only [canonicalHash, hash, hexEncode, String.toList_ofList,
    utf8Length_flatMap_hexByte, sha.length_digest, decide_true, Bool.true_and,
    all_eq_true, mem_flatMap]
  rintro c ⟨x, -, hc⟩
  have hx := x.toNat_lt
  simp only [hexByte, mem_cons, not_mem_nil, or_false] at hc
  rcases hc with rfl | rfl
  · exact hexChar_lower _ (by omega)
  · exact hexChar_lower _ (by omega)

variable {a b : Bytes}

theorem digest_eq_of_hash_eq (h : hash sha a = hash sha b) : sha.digest a = sha.digest b := by
  have hdecode := congrArg hexDecode h
  simp only [hash, hexDecode_hexEncode, Except.ok.injEq] at hdecode
  exact hdecode

theorem chunkOf_valid (hne : p ≠ []) (hle : p.length ≤ CHUNK_BYTES) :
    (chunkOf sha p).invalid = false := by
  have hlen : p.length ≠ 0 := by simpa using hne
  simp [Chunk.invalid, chunkOf, canonicalHash_hash, hlen, hle]

variable {name : String}

theorem privateFile_eq_ok : privateFile root name = .ok b ↔ root name = some (.file b) := by
  unfold privateFile
  split <;> simp_all

variable {chunk : Chunk}

/-- A chunk is read exactly when a private file of its length and digest stands
under its name. -/
theorem exactChunk_eq_ok :
    exactChunk sha root chunk = .ok b ↔
      chunk.invalid = false ∧ root chunk.sha256 = some (.file b) ∧ chunk = chunkOf sha b := by
  simp only [exactChunk, bind_eq_ok, refuseIf_eq_ok, pure_inj,
    decide_eq_false_iff_not, ne_eq, not_not, privateFile_eq_ok]
  constructor
  · rintro ⟨-, hvalid, b', hb', -, hlen, -, hhash, rfl⟩
    refine ⟨hvalid, hb', ?_⟩
    rw [chunkOf, hhash, hlen]
  · rintro ⟨hvalid, hroot, hchunk⟩
    refine ⟨(), hvalid, b, hroot, (), ?_, (), ?_, rfl⟩
    · rw [hchunk]
      rfl
    · rw [hchunk]
      rfl

/-- The byte strings in the private files of a directory. -/
def contents (root : Directory) : Set Bytes := {b | ∃ name, root name = some (.file b)}

theorem mem_contents_of_exactChunk (h : exactChunk sha root chunk = .ok b) : b ∈ contents root :=
  ⟨chunk.sha256, (exactChunk_eq_ok.1 h).2.1⟩

variable {s : Set Bytes}

/-- Where digests do not collide, a selector has one byte string. -/
theorem eq_of_chunkOf_eq (hinj : Set.InjOn sha.digest s)
    (ha : a ∈ s) (hb : b ∈ s) (h : chunkOf sha a = chunkOf sha b) : a = b :=
  hinj ha hb (digest_eq_of_hash_eq (congrArg Chunk.sha256 h))

/-! ## Reading -/

variable {offset fin start : Nat} {chunks : List Chunk} {r r₁ r₂ : Bytes}

/-- The part of a chunk that is read is the range cut out of its bytes. -/
theorem readPart_eq (hlen : chunk.bytes = p.length)
    (hp : ∀ b, exactChunk sha root chunk = .ok b → b = p)
    (h : readPart sha root chunk offset fin start = .ok r) :
    r = (p.take (fin - start)).drop (offset - start) := by
  unfold readPart at h
  split at h
  next hread =>
    simp only [bind_eq_ok, pure_inj] at h
    obtain ⟨b, hb, rfl⟩ := h
    have htake : p.take (min fin (start + p.length) - start) = p.take (fin - start) := by
      rw [take_eq_take_iff]
      omega
    rw [hp b hb, hlen, htake]
  next hskip =>
    cases h
    symm
    rw [drop_eq_nil_iff, length_take]
    omega

/-- The bytes behind a list of selectors, as far as the directory has them. -/
def Selects (sha : Wire.Digest) (root : Directory) (chunks : List Chunk) (ps : List Bytes) : Prop :=
  List.Forall₂ (fun chunk p => chunk.bytes = p.length ∧
    ∀ b, exactChunk sha root chunk = .ok b → b = p) chunks ps

/-- A range that is read is cut out of the concatenated pieces. -/
theorem readLoop_eq (hsel : Selects sha root chunks ps)
    (h : readLoop sha root offset fin chunks start = .ok r) :
    r = (ps.flatten.take (fin - start)).drop (offset - start) := by
  induction hsel generalizing start r with
  | nil =>
    cases h
    simp
  | @cons chunk p chunks ps hp _ ih =>
    simp only [readLoop, bind_eq_ok] at h
    obtain ⟨part, hpart, h⟩ := h
    have hcut := readPart_eq hp.1 hp.2 hpart
    rw [flatten_cons, take_append]
    split at h
    next hlast =>
      -- The range ends inside this chunk, so nothing of the others is in it.
      cases h
      have hnone : fin - start - p.length = 0 := by
        rw [hp.1] at hlast
        omega
      rw [hnone, take_zero, append_nil, hcut]
    next hmore =>
      simp only [bind_eq_ok, pure_inj] at h
      obtain ⟨later, hlater, rfl⟩ := h
      have hrest := ih hlater
      rw [hp.1] at hmore hrest
      have hwhole : (p.take (fin - start)).length = p.length := by
        rw [length_take]
        omega
      rw [drop_append, hwhole, hcut, hrest, Nat.sub_sub, Nat.sub_sub]

/-- Reading succeeds where every chunk is there. -/
theorem readLoop_ok (h : ∀ chunk ∈ chunks, ∃ b, exactChunk sha root chunk = .ok b) :
    ∃ r, readLoop sha root offset fin chunks start = .ok r := by
  induction chunks generalizing start with
  | nil => exact ⟨[], rfl⟩
  | cons chunk chunks ih =>
    obtain ⟨b, hb⟩ := h chunk (by simp)
    obtain ⟨later, hlater⟩ := @ih (start + chunk.bytes) fun c hc => h c (by simp [hc])
    have hpart : ∃ part, readPart sha root chunk offset fin start = .ok part := by
      unfold readPart
      split
      · exact ⟨_, by rw [hb]; rfl⟩
      · exact ⟨[], rfl⟩
    obtain ⟨part, hpart⟩ := hpart
    simp only [readLoop, hpart, ok_bind, hlater, pure_eq_ok]
    split
    · exact ⟨part, rfl⟩
    · exact ⟨part ++ later, rfl⟩

variable {parts : List Bytes}

theorem parts_eq (hsel : Selects sha root chunks ps)
    (h : chunks.mapM (exactChunk sha root) = .ok parts) : parts = ps := by
  have hread := mapM_eq_ok.1 h
  clear h
  induction hsel generalizing parts with
  | nil =>
    cases hread
    rfl
  | cons hp _ ih =>
    cases hread with
    | cons hb hrest => rw [hp.2 _ hb, ih hrest]

/-- What is read of every chunk is what the selectors name. -/
theorem chunks_eq (h : chunks.mapM (exactChunk sha root) = .ok parts) :
    chunks = parts.map (chunkOf sha) := by
  rw [← forall₂_eq_eq_eq, forall₂_map_right_iff]
  exact (mapM_eq_ok.1 h).imp fun _ _ hb => (exactChunk_eq_ok.1 hb).2.2

/-- Selectors made from pieces select them, where digests do not collide. -/
theorem selects_map (hinj : Set.InjOn sha.digest (contents root ∪ {p | p ∈ ps})) :
    Selects sha root (ps.map (chunkOf sha)) ps := by
  rw [Selects, forall₂_map_left_iff, forall₂_same]
  intro p hp
  refine ⟨rfl, ?_⟩
  intro b hb
  exact eq_of_chunkOf_eq hinj (Or.inl (mem_contents_of_exactChunk hb)) (Or.inr hp)
    (exactChunk_eq_ok.1 hb).2.2.symm

/-! ## Capturing -/

variable {coordinate : String}

/-- The directory with the pieces in the files of their digests. -/
def retained (sha : Wire.Digest) (root : Directory) (ps : List Bytes) : Directory :=
  ps.foldl (fun r p => update r (hash sha p) (some (.file p))) root

theorem retained_cons (p : Bytes) (ps : List Bytes) :
    retained sha root (p :: ps) =
      retained sha (update root (hash sha p) (some (.file p))) ps := rfl

theorem contents_update (hroot : contents root ⊆ s) (hp : p ∈ s) :
    contents (update root name (some (.file p))) ⊆ s := by
  rintro b ⟨other, hb⟩
  by_cases hname : other = name
  · rw [hname, update_self] at hb
    cases hb
    exact hp
  · rw [update_of_ne hname] at hb
    exact hroot ⟨other, hb⟩

section
variable (hinj : Set.InjOn sha.digest s)
include hinj

/-- Retaining a piece puts it into the file of its digest. -/
theorem retainChunk_eq (hroot : contents root ⊆ s) (hp : p ∈ s)
    (hne : p ≠ []) (hle : p.length ≤ CHUNK_BYTES) (hforeign : root (hash sha p) ≠ some .foreign) :
    retainChunk sha root p =
      .ok (update root (hash sha p) (some (.file p)), chunkOf sha p) := by
  unfold retainChunk
  cases hread : exactChunk sha root (chunkOf sha p) with
  | ok b =>
    obtain ⟨-, hfile, hchunk⟩ := exactChunk_eq_ok.1 hread
    have hb : b = p :=
      eq_of_chunkOf_eq hinj (hroot (mem_contents_of_exactChunk hread)) hp hchunk.symm
    have hsame : update root (hash sha p) (some (.file p)) = root := by
      rw [update_eq_self_iff]
      exact (hb ▸ hfile).symm
    rw [hsame]
  | error e =>
    have hwritten : exactChunk sha (update root (hash sha p) (some (.file p)))
        (chunkOf sha p) = .ok p := by
      rw [exactChunk_eq_ok]
      exact ⟨chunkOf_valid hne hle, update_self _ _ _, rfl⟩
    have hown : root (chunkOf sha p).sha256 ≠ some .foreign := hforeign
    dsimp only
    rw [writeChunk, if_neg hown]
    change (exactChunk sha (update root (hash sha p) (some (.file p))) (chunkOf sha p) >>=
      fun _ => Except.ok _) = _
    rw [hwritten]
    rfl

theorem retainAll_eq (hroot : contents root ⊆ s) (hps : ∀ p ∈ ps, p ∈ s) (hplaced : Placed ps)
    (hforeign : ∀ p ∈ ps, root (hash sha p) ≠ some .foreign) :
    retainAll sha root ps = .ok (retained sha root ps, ps.map (chunkOf sha)) := by
  induction ps generalizing root with
  | nil => rfl
  | cons p ps ih =>
    obtain ⟨hne, hle, -, hrest⟩ := hplaced
    have hp := hps p (by simp)
    have hnext := @ih (update root (hash sha p) (some (.file p)))
      (contents_update hroot hp) (fun q hq => hps q (by simp [hq])) hrest (by
        intro q hq
        by_cases hname : hash sha q = hash sha p
        · rw [hname, update_self]
          simp
        · rw [update_of_ne hname]
          exact hforeign q (by simp [hq]))
    simp only [retainAll, retainChunk_eq hinj hroot hp hne hle (hforeign p (by simp)), ok_bind,
      hnext, pure_eq_ok, retained_cons, map_cons]

/-- Every retained piece is in the file of its digest. -/
theorem retained_apply (hps : ∀ p ∈ ps, p ∈ s) (hs : p ∈ s)
    (hp : p ∈ ps ∨ root (hash sha p) = some (.file p)) :
    retained sha root ps (hash sha p) = some (.file p) := by
  induction ps generalizing root with
  | nil => exact hp.elim (nofun) id
  | cons q ps ih =>
    rw [retained_cons]
    apply ih fun r hr => hps r (by simp [hr])
    by_cases hname : hash sha p = hash sha q
    · have hpq : p = q := hinj hs (hps q (by simp)) (digest_eq_of_hash_eq hname)
      rw [hpq, update_self]
      exact Or.inr rfl
    · rw [update_of_ne hname]
      rcases hp with hp | hp
      · rcases mem_cons.1 hp with rfl | hp
        · exact absurd rfl hname
        · exact Or.inl hp
      · exact Or.inr hp

end

theorem checkPlacement_map {total : Nat} (hplaced : Placed ps)
    (hsize : total + ps.flatten.length < 2 ^ 64) :
    checkPlacement (ps.map (chunkOf sha)) total = .ok (total + ps.flatten.length) := by
  induction ps generalizing total with
  | nil => rfl
  | cons p ps ih =>
    obtain ⟨hne, hle, hfull, hrest⟩ := hplaced
    rw [flatten_cons, length_append] at hsize ⊢
    have hplace : (!(ps.map (chunkOf sha)).isEmpty && decide ((chunkOf sha p).bytes ≠ CHUNK_BYTES))
        = false := by
      cases ps with
      | nil => rfl
      | cons q ps => simp [chunkOf, hfull (by simp)]
    have hbound : decide (total + (chunkOf sha p).bytes ≥ 2 ^ 64) = false := by
      rw [decide_eq_false_iff_not]
      dsimp only [chunkOf]
      omega
    have hnext := @ih (total + p.length) hrest (by omega)
    simp only [map_cons, checkPlacement, chunkOf_valid hne hle, hplace, hbound, Bool.or_false,
      refuseIf_false, ok_bind]
    rw [show total + (chunkOf sha p).bytes = total + p.length from rfl, hnext, Nat.add_assoc]

/-- The manifest of a content. -/
def manifestOf (sha : Wire.Digest) (coordinate : String) (content : Bytes) : FileManifest :=
  ⟨protocolName, coordinate, content.length, hash sha content, (pieces content).map (chunkOf sha)⟩

theorem checkManifest_manifestOf (hcoord : badCoordinate coordinate = false)
    (hsize : content.length < 2 ^ 64) :
    checkManifest (manifestOf sha coordinate content) = .ok () := by
  have htotal := @checkPlacement_map (pieces content) sha 0 (placed_pieces content)
    (by rwa [flatten_pieces, Nat.zero_add])
  rw [flatten_pieces, Nat.zero_add] at htotal
  simp only [checkManifest, manifestOf, hcoord, canonicalHash_hash, htotal, ok_bind, ne_eq,
    not_true_eq_false, decide_false, Bool.not_true, Bool.or_false, refuseIf_false]

/-- Every piece of the content can be read from the directory. -/
def Holds (sha : Wire.Digest) (root : Directory) (content : Bytes) : Prop :=
  ∀ p ∈ pieces content, exactChunk sha root (chunkOf sha p) = .ok p

theorem holds_retained (hinj : Set.InjOn sha.digest s) (hps : ∀ p ∈ pieces content, p ∈ s) :
    Holds sha (retained sha root (pieces content)) content := by
  intro p hp
  obtain ⟨hne, hle⟩ := (placed_pieces content).of_mem hp
  rw [exactChunk_eq_ok]
  exact ⟨chunkOf_valid hne hle, retained_apply hinj hps (hps p hp) (Or.inl hp), rfl⟩

/-- A file that can be read is captured. -/
theorem capture_eq (hcoord : badCoordinate coordinate = false) (hsize : content.length < 2 ^ 64)
    (hinj : Set.InjOn sha.digest (contents root ∪ {p | p ∈ pieces content}))
    (hforeign : ∀ p ∈ pieces content, root (hash sha p) ≠ some .foreign) :
    capture sha root coordinate content =
      .ok (retained sha root (pieces content), manifestOf sha coordinate content) := by
  have hps : ∀ p ∈ pieces content, p ∈ contents root ∪ {p | p ∈ pieces content} :=
    fun p hp => Or.inr hp
  have hread := mapM_map_eq_ok (holds_retained hinj hps : Holds sha
    (retained sha root (pieces content)) content)
  have hverify : verify sha (retained sha root (pieces content))
      (manifestOf sha coordinate content) = .ok () := by
    simp only [verify, checkManifest_manifestOf hcoord hsize, ok_bind]
    simp only [manifestOf, hread, ok_bind, flatten_pieces, ne_eq, not_true_eq_false, decide_false,
      refuseIf_false]
  simp only [capture, hcoord, refuseIf_false, ok_bind,
    retainAll_eq hinj Set.subset_union_left hps (placed_pieces content) hforeign]
  change (verify sha _ (manifestOf sha coordinate content) >>= fun _ => Except.ok _) = _
  rw [hverify]
  rfl

section
variable (hcoord : badCoordinate coordinate = false) (hsize : content.length < 2 ^ 64)
  (hholds : Holds sha root content)
include hcoord hsize hholds

/-- A range of at most one chunk's size is cut out of the content. -/
theorem readRange_of_holds {count : Nat}
    (hrange : offset + count ≤ content.length) (hcount : count ≤ CHUNK_BYTES) :
    readRange sha root (manifestOf sha coordinate content) offset count =
      .ok ((content.drop offset).take count) := by
  have hsel : Selects sha root ((pieces content).map (chunkOf sha)) (pieces content) := by
    rw [Selects, forall₂_map_left_iff, forall₂_same]
    intro p hp
    refine ⟨rfl, ?_⟩
    intro b hb
    rw [hholds p hp] at hb
    exact (Except.ok.inj hb).symm
  obtain ⟨r, hr⟩ := @readLoop_ok sha root offset (offset + count) 0
    ((pieces content).map (chunkOf sha)) (forall_mem_map.2 fun p hp => ⟨p, hholds p hp⟩)
  have hcut := readLoop_eq hsel hr
  rw [flatten_pieces, Nat.sub_zero, Nat.sub_zero, drop_take, Nat.add_sub_cancel_left] at hcut
  have hlen : r.length = count := by
    rw [hcut, length_take, length_drop]
    omega
  have hguard : (decide (count > CHUNK_BYTES) || decide (offset > content.length) ||
      decide (count > content.length - offset)) = false := by
    simp only [Bool.or_eq_false_iff, decide_eq_false_iff_not]
    omega
  unfold readRange
  rw [checkManifest_manifestOf hcoord hsize, ok_bind]
  change (refuseIf (decide (count > CHUNK_BYTES) || decide (offset > content.length) ||
    decide (count > content.length - offset)) _ >>= _) = _
  rw [hguard, refuseIf_false, ok_bind]
  simp only [manifestOf, hr, ok_bind, hlen, ne_eq, not_true_eq_false, decide_false, refuseIf_false,
    pure_eq_ok]
  exact congrArg Except.ok hcut

/-- Restoring writes the content. -/
theorem restoreNew_of_holds :
    restoreNew sha root (manifestOf sha coordinate content) none = .ok content := by
  unfold restoreNew
  rw [checkManifest_manifestOf hcoord hsize, ok_bind]
  simp only [manifestOf, Option.isSome_none, refuseIf_false, ok_bind, mapM_map_eq_ok hholds,
    flatten_pieces, ne_eq, not_true_eq_false, decide_false, pure_eq_ok]

end

/-! ## What a manifest commits to -/

section Commitment
variable {manifest : FileManifest} {count : Nat}

/-- A manifest commits to the pieces whose lengths and digests it lists. -/
def Commits (sha : Wire.Digest) (manifest : FileManifest) (ps : List Bytes) : Prop :=
  manifest.chunks = ps.map (chunkOf sha)

theorem readRange_eq_ok (h : readRange sha root manifest offset count = .ok b) :
    checkManifest manifest = .ok () ∧
      readLoop sha root offset (offset + count) manifest.chunks 0 = .ok b := by
  simp only [readRange, bind_eq_ok, refuseIf_eq_ok, pure_inj] at h
  obtain ⟨⟨⟩, hcheck, -, -, r, hr, -, -, rfl⟩ := h
  exact ⟨hcheck, hr⟩

/-- A request for more than one chunk's size is refused. -/
theorem readRange_long (hcheck : checkManifest manifest = .ok ()) (hlong : CHUNK_BYTES < count) :
    readRange sha root manifest offset count = .error "range exceeds bounded artifact" := by
  rw [readRange, hcheck, ok_bind, decide_eq_true hlong]
  rfl

variable {target : Option Node}

theorem restoreNew_eq_ok (h : restoreNew sha root manifest target = .ok b) :
    ∃ ps, manifest.chunks.mapM (exactChunk sha root) = .ok ps ∧ b = ps.flatten ∧
      hash sha b = manifest.sha256 := by
  simp only [restoreNew, bind_eq_ok, refuseIf_decide, pure_inj, ne_eq, not_not] at h
  obtain ⟨-, -, -, -, ps, hps, -, hsha, -, -, rfl⟩ := h
  exact ⟨ps, hps, rfl, hsha⟩

section
variable (hcommit : Commits sha manifest ps)
  (hinj : Set.InjOn sha.digest (contents root ∪ {p | p ∈ ps}))
include hcommit hinj

/-- A range that is read is cut out of the pieces the manifest commits to. -/
theorem readRange_of_commits (h : readRange sha root manifest offset count = .ok b) :
    b = (ps.flatten.drop offset).take count := by
  obtain ⟨-, hloop⟩ := readRange_eq_ok h
  rw [hcommit] at hloop
  have hcut := readLoop_eq (selects_map hinj) hloop
  rwa [Nat.sub_zero, Nat.sub_zero, drop_take, Nat.add_sub_cancel_left] at hcut

/-- What is restored is the concatenation of the pieces the manifest commits to. -/
theorem restoreNew_of_commits (h : restoreNew sha root manifest target = .ok b) :
    b = ps.flatten := by
  obtain ⟨parts, hparts, rfl, -⟩ := restoreNew_eq_ok h
  rw [hcommit] at hparts
  rw [parts_eq (selects_map hinj) hparts]

end

/-- Two directories answer a range alike. -/
theorem readLoop_unique {root₁ root₂ : Directory}
    (hinj : Set.InjOn sha.digest (contents root₁ ∪ contents root₂))
    (h₁ : readLoop sha root₁ offset fin chunks start = .ok r₁)
    (h₂ : readLoop sha root₂ offset fin chunks start = .ok r₂) : r₁ = r₂ := by
  have hpart {chunk : Chunk} {start : Nat} {p₁ p₂ : Bytes}
      (hp₁ : readPart sha root₁ chunk offset fin start = .ok p₁)
      (hp₂ : readPart sha root₂ chunk offset fin start = .ok p₂) : p₁ = p₂ := by
    unfold readPart at hp₁ hp₂
    split at hp₁
    next hread =>
      rw [if_pos hread] at hp₂
      simp only [bind_eq_ok, pure_inj] at hp₁ hp₂
      obtain ⟨b₁, hb₁, rfl⟩ := hp₁
      obtain ⟨b₂, hb₂, rfl⟩ := hp₂
      have hsame : chunkOf sha b₁ = chunkOf sha b₂ := by
        rw [← (exactChunk_eq_ok.1 hb₁).2.2, ← (exactChunk_eq_ok.1 hb₂).2.2]
      rw [eq_of_chunkOf_eq hinj (Or.inl (mem_contents_of_exactChunk hb₁))
        (Or.inr (mem_contents_of_exactChunk hb₂)) hsame]
    next hskip =>
      rw [if_neg hskip] at hp₂
      rw [← Except.ok.inj hp₁, ← Except.ok.inj hp₂]
  induction chunks generalizing start r₁ r₂ with
  | nil =>
    rw [← Except.ok.inj h₁, ← Except.ok.inj h₂]
  | cons chunk chunks ih =>
    simp only [readLoop, bind_eq_ok] at h₁ h₂
    obtain ⟨p₁, hp₁, h₁⟩ := h₁
    obtain ⟨p₂, hp₂, h₂⟩ := h₂
    rw [← hpart hp₁ hp₂] at h₂
    split at h₁
    next hlast =>
      rw [if_pos hlast] at h₂
      rw [← Except.ok.inj h₁, ← Except.ok.inj h₂]
    next hmore =>
      rw [if_neg hmore] at h₂
      simp only [bind_eq_ok, pure_inj] at h₁ h₂
      obtain ⟨l₁, hl₁, rfl⟩ := h₁
      obtain ⟨l₂, hl₂, rfl⟩ := h₂
      rw [ih hl₁ hl₂]

end Commitment

end Digest

/-- The fidelity of an archive under a digest. -/
structure Faithful (sha : Wire.Digest) : Prop where
  /-- A captured file passes the manifest check, reads back range by range up to
  one chunk's size and no further, and is restored. -/
  captured : ∀ (root : Directory) (coordinate : String) (content : Bytes),
    badCoordinate coordinate = false → content.length < 2 ^ 64 →
    Set.InjOn sha.digest (contents root ∪ {p | p ∈ pieces content}) →
    (∀ p ∈ pieces content, root (hash sha p) ≠ some .foreign) →
    ∃ root' manifest, capture sha root coordinate content = .ok (root', manifest) ∧
      checkManifest manifest = .ok () ∧ Commits sha manifest (pieces content) ∧
      (∀ offset count, offset + count ≤ content.length → count ≤ CHUNK_BYTES →
        readRange sha root' manifest offset count = .ok ((content.drop offset).take count)) ∧
      (∀ offset count, CHUNK_BYTES < count → readRange sha root' manifest offset count =
        .error "range exceeds bounded artifact") ∧
      restoreNew sha root' manifest none = .ok content
  /-- Whatever a directory answers is cut out of the pieces the manifest commits to. -/
  bound : ∀ (root : Directory) (manifest : FileManifest) (ps : List Bytes),
    Commits sha manifest ps → Set.InjOn sha.digest (contents root ∪ {p | p ∈ ps}) →
    (∀ offset count b, readRange sha root manifest offset count = .ok b →
      b = (ps.flatten.drop offset).take count) ∧
    ∀ target b, restoreNew sha root manifest target = .ok b → b = ps.flatten
  /-- A restored file is one the manifest commits to. -/
  restored : ∀ (root : Directory) (manifest : FileManifest) (target : Option Node) (b : Bytes),
    restoreNew sha root manifest target = .ok b →
    ∃ ps, Commits sha manifest ps ∧ b = ps.flatten ∧ hash sha b = manifest.sha256
  /-- Two directories answer a range alike. -/
  unique : ∀ (root₁ root₂ : Directory) (manifest : FileManifest) (offset count : Nat)
    (b₁ b₂ : Bytes), Set.InjOn sha.digest (contents root₁ ∪ contents root₂) →
    readRange sha root₁ manifest offset count = .ok b₁ →
    readRange sha root₂ manifest offset count = .ok b₂ → b₁ = b₂

/-- The archive is faithful under every digest. -/
theorem archive_faithful (sha : Wire.Digest) : Faithful sha where
  captured := by
    intro root coordinate content hcoord hsize hinj hforeign
    have hholds : Holds sha (retained sha root (pieces content)) content :=
      holds_retained hinj fun p hp => Or.inr hp
    have hcheck : checkManifest (manifestOf sha coordinate content) = .ok () :=
      checkManifest_manifestOf hcoord hsize
    refine ⟨_, _, capture_eq hcoord hsize hinj hforeign, hcheck, rfl, ?_, ?_,
      restoreNew_of_holds hcoord hsize hholds⟩
    · intro offset count hrange hcount
      exact readRange_of_holds hcoord hsize hholds hrange hcount
    · intro offset count hlong
      exact readRange_long hcheck hlong
  bound := by
    intro root manifest ps hcommit hinj
    constructor
    · intro offset count b h
      exact readRange_of_commits hcommit hinj h
    · intro target b h
      exact restoreNew_of_commits hcommit hinj h
  restored := by
    intro root manifest target b h
    obtain ⟨ps, hps, hb, hsha⟩ := restoreNew_eq_ok h
    exact ⟨ps, chunks_eq hps, hb, hsha⟩
  unique := by
    intro root₁ root₂ manifest offset count b₁ b₂ hinj h₁ h₂
    exact readLoop_unique hinj (readRange_eq_ok h₁).2 (readRange_eq_ok h₂).2

theorem contents_empty : contents empty = ∅ := by
  ext b
  simp [contents, empty]

/-- A digest that tells byte strings of different lengths apart. -/
def lengthDigest : Wire.Digest := ⟨fun b => toLeBytes 32 b.length, fun _ => length_toLeBytes 32 _⟩

/-- A file of one byte more than a chunk. -/
def longer : Bytes := replicate (CHUNK_BYTES + 1) 7

theorem length_longer : longer.length = 65537 := length_replicate

theorem pieces_longer : pieces longer = [replicate CHUNK_BYTES 7, [7]] := by
  have hne : longer ≠ [] := length_pos_iff.1 (by rw [length_longer]; decide)
  rw [pieces_of_ne_nil hne, longer, take_replicate, drop_replicate, Nat.add_sub_cancel_left,
    Nat.min_eq_left (Nat.le_succ _), replicate_one, pieces_of_ne_nil (cons_ne_nil _ _)]
  change [_, [7]] ++ pieces [] = _
  rw [pieces_nil, append_nil]

/-- A file of two chunks is captured, read and restored. -/
theorem archive_faithful_longer :
    ∃ root manifest, capture lengthDigest empty "c" longer = .ok (root, manifest) ∧
      checkManifest manifest = .ok () ∧ Commits lengthDigest manifest (pieces longer) ∧
      (∀ offset count, offset + count ≤ longer.length → count ≤ CHUNK_BYTES →
        readRange lengthDigest root manifest offset count =
          .ok ((longer.drop offset).take count)) ∧
      (∀ offset count, CHUNK_BYTES < count → readRange lengthDigest root manifest offset count =
        .error "range exceeds bounded artifact") ∧
      restoreNew lengthDigest root manifest none = .ok longer := by
  apply (archive_faithful lengthDigest).captured empty "c" longer (by decide)
  · rw [length_longer]
    decide
  · have hne : lengthDigest.digest (replicate CHUNK_BYTES 7) ≠ lengthDigest.digest [7] := by
      simp only [lengthDigest, length_replicate]
      decide
    rw [contents_empty, pieces_longer, Set.empty_union]
    simp only [mem_cons, not_mem_nil, or_false]
    rintro p (rfl | rfl) q (rfl | rfl) heq
    · rfl
    · exact absurd heq hne
    · exact absurd heq.symm hne
    · rfl
  · simp [empty]

/-- A file larger than one chunk is not read in one request. -/
theorem readRange_not_whole :
    0 + 65537 ≤ longer.length ∧
      ∀ sha : Wire.Digest, Set.InjOn sha.digest {p | p ∈ pieces longer} →
        ∃ root manifest, capture sha empty "c" longer = .ok (root, manifest) ∧
          readRange sha root manifest 0 65537 = .error "range exceeds bounded artifact" := by
  have hlen : longer.length < 2 ^ 64 := by
    rw [length_longer]
    decide
  refine ⟨by rw [length_longer], fun sha hinj => ?_⟩
  refine ⟨_, _, capture_eq (by decide) hlen (by rwa [contents_empty, Set.empty_union])
    (fun _ _ => Option.some_ne_none _ |>.symm), ?_⟩
  exact readRange_long (checkManifest_manifestOf (by decide) hlen) (by decide)

end MiniDregg.PortableArchive
