import MiniDregg.PqMailbox.Relay

/-!
# One shuffle for each relay stage

Over any sequence of calls on one state directory, each of them possibly stopped by
a crash, all results for one epoch and stage are the same bytes: they come from one
manifest and one input, and their packets are the peeled packets of that input in
some order.

## Implementation notes

The directory only grows, and a call that succeeds leaves its admission and its
result in it. So the directory after the whole sequence holds the admission and the
result of every successful call, under names that the epoch and the stage
determine. Statements hold up to a collision of the hash among the inputs and the
packets of the results.
-/

namespace MiniDregg.PqMailbox

open Fallible Store.OrderedMap List Call

variable {c : Primitives}

/-- What a result says about its call: the manifest is repeated, and the packets behind it are
those the manifest lists for the next stage. -/
structure Released (c : Primitives) (call : Call) (bytes : Bytes) : Prop where
  bounded : call.profile.Bounded
  manifest : bytes.take call.manifestLength = call.manifest
  packets : ∃ key next packets, readKey c call.key = .ok key ∧
    prepareTransition c call.profile call.hop key call.input call.manifest call.auth = .ok next ∧
    unbatch c call.profile (call.hop + 1) (bytes.drop call.manifestLength) = .ok packets ∧
    sorted (digests c packets) = stageSet call.profile (call.hop + 1) call.manifest ∧
    (digests c packets).Perm (digests c next)

/-- The journal holds the admission and the result of a call. -/
structure Recorded (c : Primitives) (files : Files) (call : Call) (bytes : Bytes) : Prop where
  admitted : ∃ admission, call.admission c = .ok admission ∧
    files.get? call.claimName = some admission
  output : files.get? call.outputName = some bytes

variable {call : Call} {bytes : Bytes}

theorem Recorded.grows {files files' : Files} (h : Recorded c files call bytes)
    (hgrows : files.Grows files') : Recorded c files' call bytes := by
  obtain ⟨⟨admission, hadmission, hclaim⟩, houtput⟩ := h
  exact ⟨⟨admission, hadmission, hgrows _ _ hclaim⟩, hgrows _ _ houtput⟩

/-- What the checks before the journal established. -/
structure Call.Ready (c : Primitives) (call : Call) (next : List Bytes) (admission : Bytes) :
    Prop where
  bounded : call.profile.Bounded
  hop_lt : call.hop < 3
  length : call.segment.length
    = call.manifestLength + 19 + call.profile.width * call.profile.size call.hop
  peeled : ∃ key, readKey c call.key = .ok key ∧
    prepareTransition c call.profile call.hop key call.input call.manifest call.auth = .ok next
  admitted : call.admission c = .ok admission

variable {next : List Bytes} {admission : Bytes}

theorem Call.prepare_eq_ok (h : call.prepare c = .ok (next, admission)) :
    call.Ready c next admission := by
  obtain ⟨hcheck, h⟩ := check_bind_eq_ok.1 h
  obtain ⟨hhop, h⟩ := check_bind_eq_ok.1 h
  obtain ⟨hlength, h⟩ := check_bind_eq_ok.1 h
  obtain ⟨key, hkey, h⟩ := bind_eq_ok.1 h
  obtain ⟨next', hnext, h⟩ := bind_eq_ok.1 h
  obtain ⟨admission', hadmission, h⟩ := bind_eq_ok.1 h
  cases h
  simp only [refuseIf_eq_ok, decide_eq_false_iff_not, not_le, bne_eq_false_iff_eq] at hhop hlength
  exact ⟨call.profile.check_eq_ok.1 hcheck, hhop, hlength, ⟨key, hkey, hnext⟩, hadmission⟩

theorem Call.Ready.length_manifest (h : call.Ready c next admission) :
    call.manifest.length = call.manifestLength := by
  rw [manifest, length_take, h.length]
  omega

/-- A replayed output was recorded with its admission, and passed the checks of a result. -/
theorem Call.replay_eq_ok {files : Files} (hready : call.Ready c next admission)
    (h : call.replay c files admission = .ok bytes) :
    Recorded c files call bytes ∧ Released c call bytes := by
  obtain ⟨recorded, hrecorded, h⟩ := bind_eq_ok.1 h
  obtain ⟨hsame, h⟩ := check_bind_eq_ok.1 h
  obtain ⟨-, h⟩ := check_bind_eq_ok.1 h
  obtain ⟨cached, hcached, h⟩ := bind_eq_ok.1 h
  obtain ⟨hmanifest, h⟩ := check_bind_eq_ok.1 h
  obtain ⟨packets, hpackets, h⟩ := bind_eq_ok.1 h
  obtain ⟨hset, h⟩ := check_bind_eq_ok.1 h
  cases h
  simp only [refuseIf_eq_ok, bne_eq_false_iff_eq, decide_eq_false_iff_not, not_not]
    at hsame hmanifest hset
  subst hsame
  obtain ⟨key, hkey, hnext⟩ := hready.peeled
  have hlisted := (prepareTransition_eq_ok.1 hnext).listed
  constructor
  · exact ⟨⟨recorded, hready.admitted, Files.readPrivate_eq_ok hrecorded⟩,
      Files.readPrivate_eq_ok hcached⟩
  · exact ⟨hready.bounded, hmanifest, key, next, packets, hkey, hnext, hpackets, hset,
      sorted_eq_iff.1 (hset.trans hlisted.symm)⟩

/-- A new release passes the checks of a result. -/
theorem Call.release_eq_ok (hready : call.Ready c next admission)
    (h : call.release next = .ok bytes) : Released c call bytes := by
  obtain ⟨shuffled, hshuffled, h⟩ := bind_eq_ok.1 h
  obtain ⟨body, hbody, h⟩ := bind_eq_ok.1 h
  cases h
  obtain ⟨key, hkey, hnext⟩ := hready.peeled
  have hprepared := prepareTransition_eq_ok.1 hnext
  have hperm : (digests c shuffled).Perm (digests c next) := (shuffleFrom_perm hshuffled).map _
  have hset : sorted (digests c shuffled) = stageSet call.profile (call.hop + 1) call.manifest :=
    (sorted_eq_iff.2 hperm).trans hprepared.listed
  have hhop : call.hop + 1 ≤ LAYERS := Nat.le_succ_of_le hready.hop_lt
  have hnodup : (digests c shuffled).Nodup :=
    (sorted_perm _).nodup_iff.1 (hset ▸ nodup_stageSet hprepared.verified hhop)
  have hlen := hready.length_manifest
  constructor
  · exact hready.bounded
  · exact take_left' hlen
  · refine ⟨key, next, shuffled, hkey, hnext, ?_, hset, hperm⟩
    rw [drop_left' hlen]
    exact unbatch_batch hready.bounded hbody hnodup

theorem Call.claimName_ne_outputName (call : Call) : call.outputName ≠ call.claimName := by
  intro h
  have := append_cancel_left h
  revert this
  decide

/-- A call that succeeds leaves its admission and its result behind. -/
theorem liveRelay_eq_ok {files : Files} (h : (liveRelay c call files).1 = .ok bytes) :
    Recorded c (files.createAll (liveRelay c call files).2) call bytes ∧
      Released c call bytes := by
  unfold liveRelay at h ⊢
  split at h
  · cases h
  next next admission hprepare =>
    have hready := prepare_eq_ok hprepare
    split_ifs at h ⊢ with hlegacy hclaim houtput
    · exact replay_eq_ok hready h
    · split at h
      · cases h
      next out hrelease =>
        cases h
        rw [Bool.not_eq_true, Store.OrderedMap.contains_eq_false] at hclaim houtput
        refine ⟨⟨⟨admission, hready.admitted, ?_⟩, ?_⟩, release_eq_ok hready hrelease⟩
        · exact grows_create _ _ _ _ _
            (get?_create_self hclaim admission)
        · apply get?_create_self
          rw [get?_create_of_ne _ call.claimName_ne_outputName]
          exact houtput

/-- One call of a sequence. A stopped call created the first few of its files and returned
nothing. -/
structure Attempt where
  call : Call
  stoppedAfter : Option Nat

namespace Attempt

/-- The files after an attempt. -/
def files (c : Primitives) (files : Files) (attempt : Attempt) : Files :=
  let writes := (liveRelay c attempt.call files).2
  match attempt.stoppedAfter with
  | none => files.createAll writes
  | some n => files.createAll (writes.take n)

/-- The bytes an attempt returned. -/
def result (c : Primitives) (files : Files) (attempt : Attempt) : Option Bytes :=
  match attempt.stoppedAfter, (liveRelay c attempt.call files).1 with
  | none, .ok bytes => some bytes
  | _, _ => none

theorem files_grows (files : Files) (attempt : Attempt) : files.Grows (attempt.files c files) := by
  unfold Attempt.files
  split
  · exact grows_createAll _ _
  · exact grows_createAll _ _

/-- An attempt that returned bytes leaves them recorded. -/
theorem recorded_of_result {files : Files} {attempt : Attempt}
    (h : attempt.result c files = some bytes) :
    Recorded c (attempt.files c files) attempt.call bytes ∧ Released c attempt.call bytes := by
  unfold result at h
  split at h
  next hstopped hok =>
    cases h
    simpa only [Attempt.files, hstopped] using liveRelay_eq_ok hok
  · cases h

end Attempt

/-- The files after a sequence of attempts. -/
def relayFiles (c : Primitives) (files : Files) (attempts : List Attempt) : Files :=
  attempts.foldl (Attempt.files c) files

/-- The calls of a sequence that returned bytes, with these bytes. -/
def relayResults (c : Primitives) : Files → List Attempt → List (Call × Bytes)
  | _, [] => []
  | files, attempt :: rest =>
    ((attempt.result c files).toList.map fun bytes => (attempt.call, bytes))
      ++ relayResults c (attempt.files c files) rest

theorem relayFiles_grows (files : Files) (attempts : List Attempt) :
    files.Grows (relayFiles c files attempts) := by
  induction attempts generalizing files with
  | nil => exact Store.OrderedMap.Grows.refl files
  | cons attempt rest ih => exact (attempt.files_grows files).trans (ih _)

/-- The files after the sequence record every result of it. -/
theorem recorded_of_mem {files : Files} {attempts : List Attempt} {r : Call × Bytes}
    (h : r ∈ relayResults c files attempts) :
    Recorded c (relayFiles c files attempts) r.1 r.2 ∧ Released c r.1 r.2 := by
  induction attempts generalizing files with
  | nil => cases h
  | cons attempt rest ih =>
    rcases mem_append.1 h with h | h
    · obtain ⟨bytes, hbytes, rfl⟩ := mem_map.1 h
      obtain ⟨hrecorded, hreleased⟩ :=
        Attempt.recorded_of_result (Option.mem_toList.1 hbytes)
      exact ⟨hrecorded.grows (relayFiles_grows _ rest), hreleased⟩
    · exact ih h

/-- Equal admissions have one profile, and manifests and inputs of one digest. -/
theorem Call.admission_inj {call' : Call}
    (h : call.admission c = .ok admission) (h' : call'.admission c = .ok admission)
    (hb : call.profile.Bounded) (hb' : call'.profile.Bounded) :
    call.profile = call'.profile ∧ c.sha256.digest call.input = c.sha256.digest call'.input := by
  obtain ⟨when, -, h⟩ := bind_eq_ok.1 h
  obtain ⟨when', -, h'⟩ := bind_eq_ok.1 h'
  cases h
  have heq := append_cancel_left (Except.ok.inj h')
  have hlen : (call'.profile.aad (call'.hop + 1)).length
      = (call.profile.aad (call.hop + 1)).length := by
    rw [Profile.length_aad, Profile.length_aad]
  obtain ⟨haad, heq⟩ := append_inj heq hlen
  obtain ⟨-, heq⟩ := append_inj heq (by simp)
  obtain ⟨-, heq⟩ := append_inj heq (by simp)
  obtain ⟨-, heq⟩ := append_inj heq (by simp)
  obtain ⟨-, hinput⟩ := append_inj heq (by simp [Wire.Digest.length_digest])
  exact ⟨(Profile.aad_inj hb' hb haad).symm, hinput.symm⟩

/-- The byte strings whose digests a result rests on: the input, the packets that were released,
and the packets that were peeled. -/
def hashed (c : Primitives) (r : Call × Bytes) : List Bytes :=
  let peeled := do
    prepareTransition c r.1.profile r.1.hop (← readKey c r.1.key) r.1.input r.1.manifest r.1.auth
  r.1.input ::
    ((unbatch c r.1.profile (r.1.hop + 1) (r.2.drop r.1.manifestLength)).toOption.getD [] ++
      peeled.toOption.getD [])

/-- Two of these byte strings have one digest. -/
def Collision (c : Primitives) (results : List (Call × Bytes)) : Prop :=
  ∃ a ∈ results.flatMap (hashed c), ∃ b ∈ results.flatMap (hashed c),
    a ≠ b ∧ c.sha256.digest a = c.sha256.digest b

instance decidableCollision (c : Primitives) (results : List (Call × Bytes)) :
    Decidable (Collision c results) :=
  inferInstanceAs (Decidable (∃ a ∈ results.flatMap (hashed c),
    ∃ b ∈ results.flatMap (hashed c), a ≠ b ∧ c.sha256.digest a = c.sha256.digest b))

theorem eq_of_not_collision {results : List (Call × Bytes)} (h : ¬ Collision c results)
    {a b : Bytes}
    {r r' : Call × Bytes} (hr : r ∈ results) (hr' : r' ∈ results) (ha : a ∈ hashed c r)
    (hb : b ∈ hashed c r') (heq : c.sha256.digest a = c.sha256.digest b) : a = b := by
  by_contra hne
  exact h ⟨a, mem_flatMap_of_mem hr ha, b, mem_flatMap_of_mem hr' hb, hne, heq⟩

/-- Every stage of every epoch is shuffled once. All results for one epoch and stage are the same
bytes and come from one profile, manifest and input. The input holds the packets that the manifest
lists for the stage, each of them opens under the relay's key, and the packets of a result are what
they hold, in some order; their digests are the manifest's set for the next stage. -/
theorem one_shuffle (c : Primitives) (files : Files) (attempts : List Attempt) :
    Collision c (relayResults c files attempts) ∨
      (∀ r ∈ relayResults c files attempts, ∀ r' ∈ relayResults c files attempts,
        r.1.profile.epoch = r'.1.profile.epoch → r.1.hop = r'.1.hop →
          r.2 = r'.2 ∧ r.1.profile = r'.1.profile ∧ r.1.manifest = r'.1.manifest ∧
            r.1.input = r'.1.input) ∧
      ∀ r ∈ relayResults c files attempts, ∃ key packets opened released,
        readKey c r.1.key = .ok key ∧
        verifyManifest c r.1.profile r.1.hop r.1.manifest r.1.auth = .ok () ∧
        unbatch c r.1.profile r.1.hop r.1.input = .ok packets ∧
        sorted (digests c packets) = stageSet r.1.profile r.1.hop r.1.manifest ∧
        Forall₂ (Opens c r.1.profile r.1.hop key) packets opened ∧
        r.2.take r.1.manifestLength = r.1.manifest ∧
        unbatch c r.1.profile (r.1.hop + 1) (r.2.drop r.1.manifestLength) = .ok released ∧
        released.Perm opened ∧
        sorted (digests c released) = stageSet r.1.profile (r.1.hop + 1) r.1.manifest := by
  refine or_iff_not_imp_left.2 fun hfree => ?_
  constructor
  · intro r hr r' hr' hepoch hhop
    obtain ⟨⟨⟨admission, hadmission, hclaim⟩, houtput⟩, hreleased⟩ := recorded_of_mem hr
    obtain ⟨⟨⟨admission', hadmission', hclaim'⟩, houtput'⟩, hreleased'⟩ := recorded_of_mem hr'
    have hstem : r.1.stem = r'.1.stem := by rw [stem, stem, hepoch, hhop]
    have hbytes : r.2 = r'.2 := by
      rw [outputName, hstem] at houtput
      exact Option.some.inj (houtput.symm.trans houtput')
    have hsame : admission = admission' := by
      rw [claimName, hstem] at hclaim
      exact Option.some.inj (hclaim.symm.trans hclaim')
    subst hsame
    obtain ⟨hprofile, hdigest⟩ :=
      admission_inj hadmission hadmission' hreleased.bounded hreleased'.bounded
    refine ⟨hbytes, hprofile, ?_, ?_⟩
    · rw [← hreleased.manifest, ← hreleased'.manifest, hbytes, manifestLength,
        manifestLength, hprofile]
    · exact eq_of_not_collision hfree hr hr' mem_cons_self mem_cons_self hdigest
  · intro r hr
    obtain ⟨-, hreleased⟩ := recorded_of_mem hr
    obtain ⟨key, opened, released, hkey, hnext, hbatch, hset, hperm⟩ := hreleased.packets
    obtain ⟨hverified, ⟨packets, hpackets, hlisted, hpeeled⟩, -⟩ := prepareTransition_eq_ok.1 hnext
    refine ⟨key, packets, opened, released, hkey, hverified, hpackets, hlisted,
      (mapM_eq_ok.1 hpeeled).imp fun _ _ => opens_of_peel c, hreleased.manifest, hbatch, ?_, hset⟩
    apply perm_of_digests (nodup_of_unbatch hbatch) hperm
    intro a ha b hb hdigest
    refine eq_of_not_collision hfree hr hr ?_ ?_ hdigest
    · simp [hashed, hbatch, ha, Except.toOption]
    · simp [hashed, hkey, hnext, hb, Except.toOption]

/-- Primitives without secrecy: a digest is a beginning, and a ciphertext is the plaintext and a
tag. -/
def plainPrimitives : Primitives where
  sha256 := ⟨fun b => (b ++ replicate 32 0).take 32, by simp⟩
  hmacVerify _ _ _ := true
  cshake256 _ _ := []
  x25519Public secret := secret
  x25519 secret _ := some secret
  mlKem768FromSeed seed := .ok (seed, seed)
  mlKem768Decapsulate key _ := some key
  decrypt _ _ _ ciphertext := some (ciphertext.take (ciphertext.length - TAG_BYTES))

/-- A call of the last relay with two packets. -/
def pairCall (draws : List UInt64) : Call where
  profile := ⟨1, 2, 1024⟩
  hop := 2
  key := some (replicate SECRET_LEN 0)
  auth := replicate 32 0
  segment := MANIFEST_MAGIC ++ Wire.toLeBytes 8 1 ++ Wire.toLeBytes 2 2 ++ Wire.toLeBytes 4 1024 ++
    (range 10).flatMap (fun k => replicate 32 (UInt8.ofNat k)) ++ replicate 128 0 ++
    (batch ⟨1, 2, 1024⟩ 2 ([(4, 6), (5, 7)].map fun k =>
      replicate (CIPHERTEXT_LEN + NONCE_BYTES + COMMITMENT_BYTES) k.1 ++ replicate 2216 k.2 ++
        replicate TAG_BYTES 0)).toOption.getD []
  origin := 0
  tick := 10
  draws := draws

/-- The call is stopped before its first file, made again, and repeated with other random words. -/
def pairAttempts : List Attempt :=
  [⟨pairCall [0], some 0⟩, ⟨pairCall [0], none⟩, ⟨pairCall [1], none⟩]

set_option maxRecDepth 20000 in
/-- Both calls that were not stopped release the two packets in the order of the first shuffle. -/
theorem one_shuffle_pair :
    (relayResults plainPrimitives .empty pairAttempts).map (fun r =>
        unbatch plainPrimitives r.1.profile 3 (r.2.drop r.1.manifestLength)) =
      replicate 2 (.ok [replicate 2216 7, replicate 2216 6]) ∧
    ∀ r ∈ relayResults plainPrimitives .empty pairAttempts,
      ∀ r' ∈ relayResults plainPrimitives .empty pairAttempts,
        r.1.profile.epoch = r'.1.profile.epoch → r.1.hop = r'.1.hop →
          r.2 = r'.2 ∧ r.1.profile = r'.1.profile ∧ r.1.manifest = r'.1.manifest ∧
            r.1.input = r'.1.input := by
  have hfree : ¬ Collision plainPrimitives (relayResults plainPrimitives .empty pairAttempts) := by
    decide +kernel
  exact ⟨by decide +kernel, ((one_shuffle _ _ _).resolve_left hfree).1⟩

end MiniDregg.PqMailbox
