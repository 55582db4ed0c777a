import MiniDregg.RoomKeys.Lineage
import MiniDregg.Store.HashChain

/-!
# The epoch lineage only grows

What a client accepts of a room's keys cell is one chain of epoch certificates, linked by
digests from a first certificate on. A view is accepted only when the retained head lies on
its chain, so it repeats everything accepted before and can only add later epochs.

## Implementation notes

The digest is a parameter with finite output, so collisions of it exist. The results are
stated as: either certificates that the client accepted exhibit a failure of the digest, or
the chain grew.
-/

namespace MiniDregg.RoomKeys

open Fallible Store List EpochCertificate Lineage OrderedMap

variable {a : EpochCertificate} {ws : List WrapAtom} {c : Crypto} {chain : FounderChain}

section Gather

/-- The certificates of wraps put under their epochs. -/
def gather : List WrapAtom → OrderedMap Nat EpochCertificate → OrderedMap Nat EpochCertificate
  | [], certificates => certificates
  | w :: rest, certificates =>
    match w.attestation with
    | none => gather rest certificates
    | some a => gather rest (certificates.insert a.certificate.epoch.toNat a.certificate)

variable {m r : OrderedMap Nat EpochCertificate}

theorem insertCertificate_eq (h : insertCertificate m a = .ok r) :
    r = m.insert a.epoch.toNat a := by
  simp only [insertCertificate] at h
  split at h
  · split_ifs at h
    exact (Except.ok.inj h).symm
  · exact (Except.ok.inj h).symm

theorem chainCertificates_eq {context : Option (UInt64 × UInt64)}
    (h : chainCertificates ws context m = .ok r) : r = gather ws m := by
  induction ws generalizing context m with
  | nil => exact (Except.ok.inj h).symm
  | cons w rest ih =>
    simp only [chainCertificates, gather] at h ⊢
    cases hatt : w.attestation with
    | none => simp [hatt] at h
    | some a =>
      simp only [hatt] at h
      obtain ⟨-, h⟩ := check_bind_eq_ok.1 h
      obtain ⟨-, h⟩ := check_bind_eq_ok.1 h
      obtain ⟨m', hm', h⟩ := bind_eq_ok.1 h
      cases insertCertificate_eq hm'
      exact ih h

/-- A gathered certificate stood there before or comes from a wrap, under its epoch. -/
theorem get?_gather {e : Nat} (h : (gather ws m).get? e = some a) :
    m.get? e = some a ∨
      (∃ w ∈ ws, ∃ att, w.attestation = some att ∧ att.certificate = a) ∧ a.epoch.toNat = e := by
  induction ws generalizing m with
  | nil => exact .inl h
  | cons w rest ih =>
    simp only [gather] at h
    cases hatt : w.attestation with
    | none =>
      rw [hatt] at h
      refine (ih h).imp id fun ⟨⟨v, hv, hfrom⟩, he⟩ => ⟨⟨v, ?_, hfrom⟩, he⟩
      exact mem_cons_of_mem w hv
    | some att =>
      rw [hatt] at h
      rcases ih h with h | ⟨⟨v, hv, hfrom⟩, he⟩
      · rw [get?_insert] at h
        split_ifs at h with he
        · exact .inr ⟨⟨w, by simp, att, hatt, Option.some.inj h⟩,
            by rw [he, Option.some.inj h]⟩
        · exact .inl h
      · exact .inr ⟨⟨v, mem_cons_of_mem w hv, hfrom⟩, he⟩

variable {room keys : UInt64}
  {releases : OrderedMap Nat ReleaseStatement}

/-- The certificate was signed by the founder key in effect at its epoch. -/
structure FoundedBy (c : Crypto) (chain : FounderChain) (a : EpochCertificate) : Prop where
  signer : a.signerPublic = chain.epochKey a.epoch
  isKey : c.isKey (chain.epochKey a.epoch) = true
  verifies : c.verifyStrict (chain.epochKey a.epoch) a.statement a.signature = true

/-- A wrap that passes its check carries a certificate of its epoch's founder key. -/
theorem checkWrap_eq_ok {w : WrapAtom} (h : checkWrap c room keys chain releases w = .ok a) :
    (∃ att, w.attestation = some att ∧ att.certificate = a) ∧ FoundedBy c chain a := by
  simp only [checkWrap] at h
  cases hatt : w.attestation with
  | none => simp [hatt] at h
  | some att =>
    simp only [hatt] at h
    obtain ⟨-, h⟩ := check_bind_eq_ok.1 h
    obtain ⟨hsigned, h⟩ := check_bind_eq_ok.1 h
    have ha : att.certificate = a := by
      split at h
      · cases h
      · exact Except.ok.inj (check_bind_eq_ok.1 h).2
    subst ha
    simp only [WrapAtom.checkSignatures, hatt, checkSignature, checkSigned,
      check_bind_eq_ok, refuseIf_eq_ok] at hsigned
    obtain ⟨hplace, ⟨hsigner, hkey, hverify⟩, -⟩ := hsigned
    have hepoch : att.certificate.epoch = w.epoch := by
      simp only [decide_eq_false_iff_not, not_or, not_not] at hplace
      exact hplace.2.2.1
    refine ⟨⟨att, rfl, rfl⟩, ?_⟩
    constructor
    · rw [hepoch]
      simpa using hsigner
    · rw [hepoch]
      simpa using hkey
    · rw [hepoch]
      simpa using hverify

theorem checkWraps_eq_ok (h : checkWraps c room keys chain releases ws m = .ok r) :
    r = gather ws m ∧
      ∀ w ∈ ws, ∀ att, w.attestation = some att → FoundedBy c chain att.certificate := by
  induction ws generalizing m with
  | nil => exact ⟨(Except.ok.inj h).symm, by simp⟩
  | cons w rest ih =>
    obtain ⟨a, ha, h⟩ := bind_eq_ok.1 h
    obtain ⟨⟨att, hatt, rfl⟩, hfounded⟩ := checkWrap_eq_ok ha
    obtain ⟨hr, hrest⟩ := ih h
    constructor
    · rw [hr, gather, hatt]
    · intro v hv att' hatt'
      rcases mem_cons.1 hv with rfl | hv
      · rw [hatt] at hatt'
        cases hatt'
        exact hfounded
      · exact hrest v hv att' hatt'

end Gather

variable {head : Option EpochHead} {certs : List EpochCertificate}

section Walk
variable {retained : Option EpochHead}

/-- Certificates linked to their predecessors, the newest first. -/
abbrev LinkedDown (c : Crypto) : List EpochCertificate → Prop :=
  Linked (identity c) parent zeroDigest

variable {included : Bool}

/-- One more certificate is linked to the head before it. -/
theorem walkChain_cons {rest : List EpochCertificate} {r : Option EpochHead × Bool}
    (h : walkChain c retained (a :: rest) head included = .ok r) :
    a.parent = (head.map EpochHead.identity).getD zeroDigest ∧
      walkChain c retained rest (some (a.head c)) (included || retained == some (a.head c)) =
        .ok r := by
  cases head <;> simp only [walkChain] at h <;> split_ifs at h with hparent
  · exact ⟨hparent, h⟩
  · exact ⟨hparent.2, h⟩

variable {seen : List EpochCertificate}

theorem linkedDown_cons (hseen : LinkedDown c seen)
    (ha : a.parent = ((seen.head?.map (·.head c)).map EpochHead.identity).getD zeroDigest) :
    LinkedDown c (a :: seen) := by
  cases seen with
  | nil => exact ha
  | cons b seen => exact hseen.cons ha

/-- A walk over certificates after those it has seen, newest first: all of them are linked,
its head is the newest, and when it has met the retained head it met it on one of them. -/
theorem walkChain_eq_ok {r : Option EpochHead × Bool} (hseen : LinkedDown c seen)
    (hhead : head = seen.head?.map (·.head c))
    (h : walkChain c retained certs head included = .ok r) :
    LinkedDown c (certs.reverse ++ seen) ∧ r.1 = (certs.reverse ++ seen).head?.map (·.head c) ∧
      (r.2 = true → included = true ∨ ∃ a ∈ certs, retained = some (a.head c)) := by
  induction certs generalizing seen head included with
  | nil =>
    cases h
    exact ⟨hseen, hhead, .inl⟩
  | cons a rest ih =>
    obtain ⟨hparent, h⟩ := walkChain_cons h
    rw [hhead] at hparent
    obtain ⟨hlinked, hr, hmet⟩ := ih (linkedDown_cons hseen hparent) rfl h
    rw [reverse_cons, append_assoc]
    refine ⟨hlinked, hr, fun hr2 => ?_⟩
    rcases hmet hr2 with hincluded | ⟨b, hb, hretained⟩
    · rw [Bool.or_eq_true, beq_iff_eq] at hincluded
      exact hincluded.imp id fun hretained => ⟨a, by simp, hretained⟩
    · exact .inr ⟨b, mem_cons_of_mem a hb, hretained⟩

end Walk

variable {lineage : Lineage}

section Accepted

/-- The certificates of a lineage, by epoch. -/
def Lineage.epochs (lineage : Lineage) : List EpochCertificate := lineage.certificates.values

/-- What a client knows of a lineage it accepted. -/
structure Lineage.Sound (c : Crypto) (lineage : Lineage) : Prop where
  linked : LinkedDown c lineage.epochs.reverse
  ascending : lineage.epochs.Pairwise fun a b => a.epoch < b.epoch
  head_eq : lineage.head = lineage.epochs.getLast?.map (·.head c)
  founded : ∀ a ∈ lineage.epochs, FoundedBy c lineage.chain a

variable {room keys : UInt64} {pin : Key}

/-- The head of a checked chain is its newest certificate, and the retained head is met. -/
theorem checkEpochChain_eq_ok {retained : Option EpochHead}
    (h : checkEpochChain c ws retained = .ok head) :
    LinkedDown c (gather ws .empty).values.reverse ∧
      head = (gather ws .empty).values.getLast?.map (·.head c) ∧
      ∀ old, retained = some old → ∃ a ∈ (gather ws .empty).values, a.head c = old := by
  obtain ⟨m, hm, h⟩ := bind_eq_ok.1 h
  cases chainCertificates_eq hm
  obtain ⟨⟨newest, included⟩, hwalk, h⟩ := bind_eq_ok.1 h
  have hnil : LinkedDown c [] := trivial
  obtain ⟨hlinked, hnewest, hmet⟩ := walkChain_eq_ok hnil rfl hwalk
  simp only [append_nil, head?_reverse] at hlinked hnewest hmet
  cases newest with
  | none =>
    cases retained with
    | none =>
      cases h
      exact ⟨hlinked, hnewest, by simp⟩
    | some old => cases h
  | some newest =>
    obtain ⟨-, h⟩ := check_bind_eq_ok.1 h
    obtain ⟨hincluded, h⟩ := check_bind_eq_ok.1 h
    cases h
    refine ⟨hlinked, hnewest, ?_⟩
    rintro old rfl
    have hincluded : included = true := by simpa using hincluded
    rcases hmet hincluded with hnone | ⟨a, ha, hold⟩
    · cases hnone
    · exact ⟨a, ha, (Option.some.inj hold).symm⟩

theorem gather_ascending (ws : List WrapAtom) :
    (gather ws .empty).values.Pairwise fun a b => a.epoch < b.epoch := by
  have hkeyed : ∀ e ∈ (gather ws .empty).entries, e.2.epoch.toNat = e.1 := by
    intro e he
    rcases get?_gather (get?_eq_some.2 he) with h | h
    · simp at h
    · exact h.2
  refine List.Pairwise.map _ (fun _ _ h => h) ?_
  refine (gather ws .empty).ascending.imp_of_mem fun {d e} hd he hlt => ?_
  rw [← hkeyed d hd, ← hkeyed e he] at hlt
  exact UInt32.lt_iff_toNat_lt.2 hlt

variable {view : View}

/-- A verified lineage is sound, and it shows the retained head. -/
theorem verifyLineage_eq_ok {retained : Option EpochHead}
    (h : verifyLineage c room keys pin view retained = .ok lineage) :
    lineage.Sound c ∧ ∀ old, retained = some old → ∃ a ∈ lineage.epochs, a.head c = old := by
  obtain ⟨ws, -, h⟩ := bind_eq_ok.1 h
  obtain ⟨releases, -, h⟩ := bind_eq_ok.1 h
  obtain ⟨transitions, -, h⟩ := bind_eq_ok.1 h
  obtain ⟨served, -, h⟩ := bind_eq_ok.1 h
  obtain ⟨chain, -, h⟩ := bind_eq_ok.1 h
  obtain ⟨-, h⟩ := check_bind_eq_ok.1 h
  obtain ⟨certificates, hwraps, h⟩ := bind_eq_ok.1 h
  obtain ⟨head, hhead, h⟩ := bind_eq_ok.1 h
  cases h
  obtain ⟨rfl, hfounded⟩ := checkWraps_eq_ok hwraps
  obtain ⟨hlinked, hhead, hmet⟩ := checkEpochChain_eq_ok hhead
  refine ⟨?_, hmet⟩
  constructor
  · exact hlinked
  · exact gather_ascending ws
  · exact hhead
  · intro a ha
    obtain ⟨e, he⟩ := mem_values.1 ha
    rcases get?_gather he with h | ⟨⟨w, hw, att, hatt, rfl⟩, -⟩
    · simp at h
    · exact hfounded w hw att hatt

/-- The retained head after a synchronization is that of the lineage it accepted. -/
theorem sync_eq_ok {retained retained' : Option Retained} {latest : Option UInt32}
    (h : sync c room keys pin retained latest view = .ok (lineage, retained')) :
    lineage.Sound c ∧
      (∀ old, retained = some old → ∃ a ∈ lineage.epochs, a.head c = old.head) ∧
      retained'.map (·.head) = lineage.head := by
  obtain ⟨shown, hverify, h⟩ := bind_eq_ok.1 h
  obtain ⟨-, h⟩ := check_bind_eq_ok.1 h
  obtain ⟨-, h⟩ := check_bind_eq_ok.1 h
  cases h
  obtain ⟨hsound, hmet⟩ := verifyLineage_eq_ok hverify
  have hmet' : ∀ old, retained = some old → ∃ a ∈ lineage.epochs, a.head c = old.head := by
    rintro old rfl
    exact hmet old.head rfl
  refine ⟨hsound, hmet', ?_⟩
  simp only [retainEpochHead]
  cases hhead : lineage.head with
  | some head => rfl
  | none =>
    cases retained with
    | none => rfl
    | some old =>
      -- A lineage that shows the retained head has one itself.
      obtain ⟨a, ha, -⟩ := hmet' old rfl
      have hnone := hsound.head_eq.symm.trans hhead
      rw [Option.map_eq_none_iff, getLast?_eq_none_iff] at hnone
      rw [hnone] at ha
      cases ha

end Accepted

section Runs
variable {room keys : UInt64} {pin : Key}

/-- The digest fails on certificates: two that state different things share an identity, or
one has the identity that stands for no certificate. -/
def DigestFails (c : Crypto) (certs : List EpochCertificate) : Prop :=
  (∃ a ∈ certs, ∃ b ∈ certs, a.statement ≠ b.statement ∧ a.identity c = b.identity c) ∨
    ∃ a ∈ certs, a.identity c = zeroDigest

/-- One key made at most one signature of a statement among certificates that verify. -/
def SignsOnce (c : Crypto) (certs : List EpochCertificate) : Prop :=
  ∀ a ∈ certs, ∀ b ∈ certs, a.statement = b.statement →
    c.verifyStrict a.signerPublic a.statement a.signature = true →
    c.verifyStrict b.signerPublic b.statement b.signature = true → a.signature = b.signature

/-- A later lineage states what an earlier one did, and after that only greater epochs; so
what an epoch's certificate states never changes. -/
structure Grows (earlier later : Lineage) : Prop where
  contents : earlier.epochs.map content <+:
    later.epochs.map content
  above : ∀ a ∈ earlier.epochs, ∀ b ∈ later.epochs.drop earlier.epochs.length, a.epoch < b.epoch
  agree : ∀ a ∈ earlier.epochs, ∀ b ∈ later.epochs, a.epoch = b.epoch → a.content = b.content

theorem separates_of_not_digestFails (h : ¬ DigestFails c certs) :
    Separates (identity c) content zeroDigest certs := by
  constructor
  · intro a ha b hb hab
    by_contra hne
    refine h (.inl ⟨a, ha, b, hb, fun hstatement => hne ?_, hab⟩)
    exact content_eq_of_statement hstatement
  · intro a ha hzero
    exact h (.inr ⟨a, ha, hzero⟩)

variable {b : EpochCertificate}

theorem parent_eq_of_content (h : a.content = b.content) :
    a.parent = b.parent := congrArg Statement.parent h

variable {views : List (Option UInt32 × View)}

section
variable {retained : Option Retained}

/-- From certificates that the retained head is the newest of, every accepted lineage states
what those and all lineages accepted before it state. -/
theorem syncs_contents (hlinked : LinkedDown c certs.reverse)
    (hretained : retained.map (·.head) = certs.getLast?.map (·.head c))
    (hsep : Separates (identity c) content zeroDigest
      (certs ++ (syncs c room keys pin retained views).flatMap epochs)) :
    (certs :: (syncs c room keys pin retained views).map epochs).Pairwise
      (fun l m => l.map content <+: m.map content) := by
  induction views generalizing retained certs with
  | nil => exact pairwise_singleton _ _
  | cons view rest ih =>
    simp only [syncs] at hsep ⊢
    cases hsync : sync c room keys pin retained view.1 view.2 with
    | error e =>
      simp only [hsync] at hsep ⊢
      exact ih hlinked hretained hsep
    | ok r =>
      obtain ⟨lineage, retained'⟩ := r
      simp only [hsync, flatMap_cons, map_cons] at hsep ⊢
      obtain ⟨hsound, hmet, hretained'⟩ := sync_eq_ok hsync
      have hstep : certs.map content <+:
          lineage.epochs.map content := by
        cases hlast : certs.getLast? with
        | none =>
          rw [getLast?_eq_none_iff.1 hlast]
          exact nil_prefix
        | some a =>
          rw [hlast] at hretained
          obtain ⟨old, hold, holdHead⟩ := Option.map_eq_some_iff.1 hretained
          obtain ⟨b, hb, hbHead⟩ := hmet old hold
          apply Linked.isPrefix_of_mem hlinked hsound.linked
            (fun _ _ => parent_eq_of_content) (hsep.mono ?_) hlast hb
          · exact congrArg EpochHead.identity (holdHead.symm.trans hbHead.symm)
          · intro x hx
            simp only [mem_append] at hx ⊢
            tauto
      have hlater := ih hsound.linked (hretained'.trans hsound.head_eq)
        (hsep.mono (subset_append_right _ _))
      refine pairwise_cons.2 ⟨fun m hm => ?_, hlater⟩
      rcases mem_cons.1 hm with rfl | hm
      · exact hstep
      · exact hstep.trans ((pairwise_cons.1 hlater).1 m hm)

/-- What every accepted view makes of its lineage holds of all accepted lineages. -/
theorem syncs_forall {P : Lineage → Prop}
    (h : ∀ view ∈ views, ∀ retained r, sync c room keys pin retained view.1 view.2 = .ok r →
      P r.1) :
    ∀ lineage ∈ syncs c room keys pin retained views, P lineage := by
  induction views generalizing retained with
  | nil => simp [syncs]
  | cons view rest ih =>
    have hrest := fun v hv => h v (mem_cons_of_mem view hv)
    simp only [syncs]
    cases hsync : sync c room keys pin retained view.1 view.2 with
    | error e => exact ih hrest
    | ok r => exact forall_mem_cons.2 ⟨h view mem_cons_self retained r hsync, ih hrest⟩

/-- Every accepted lineage is sound. -/
theorem syncs_sound :
    ∀ lineage ∈ syncs c room keys pin retained views, lineage.Sound c :=
  syncs_forall fun _ _ _ _ hsync => (sync_eq_ok hsync).1

end

variable {earlier later : Lineage}

/-- A certificate of an earlier lineage has a twin among the first ones of a later one. -/
theorem exists_twin
    (hcontents : earlier.epochs.map content <+: later.epochs.map content)
    (ha : a ∈ earlier.epochs) :
    ∃ b ∈ later.epochs.take earlier.epochs.length, b.content = a.content := by
  have htake : (later.epochs.take earlier.epochs.length).map content =
      earlier.epochs.map content := by
    rw [map_take]
    simpa using (prefix_iff_eq_take.1 hcontents).symm
  apply mem_map.1
  rw [htake]
  exact mem_map_of_mem ha

theorem Lineage.Sound.eq_of_epoch (h : lineage.Sound c)
    (ha : a ∈ lineage.epochs) (hb : b ∈ lineage.epochs) (hab : a.epoch = b.epoch) : a = b := by
  have hnodup : (lineage.epochs.map epoch).Nodup := by
    rw [List.Nodup, pairwise_map]
    exact h.ascending.imp fun hlt => UInt32.ne_of_lt hlt
  exact inj_on_of_nodup_map hnodup ha hb hab

/-- Ascending certificates that state what others do first have greater epochs after that. -/
theorem grows_of_contents (hlater : later.Sound c)
    (hcontents : earlier.epochs.map content <+:
      later.epochs.map content) : Grows earlier later := by
  constructor
  · exact hcontents
  · intro a ha b hb
    obtain ⟨twin, htwin, hcontent⟩ := exists_twin hcontents ha
    have hepoch : twin.epoch = a.epoch := congrArg Statement.epoch hcontent
    have hascending := hlater.ascending
    rw [← take_append_drop earlier.epochs.length later.epochs, pairwise_append]
      at hascending
    rw [← hepoch]
    exact hascending.2.2 twin htwin b hb
  · intro a ha b hb hab
    obtain ⟨twin, htwin, hcontent⟩ := exists_twin hcontents ha
    have hepoch : twin.epoch = a.epoch := congrArg Statement.epoch hcontent
    rw [← hlater.eq_of_epoch (mem_of_mem_take htwin) hb (hepoch.trans hab), hcontent]

theorem statement_eq_of_content (h : a.content = b.content) : a.statement = b.statement := by
  simp only [content, Statement.mk.injEq] at h
  simp only [statement, body, h]

theorem eq_of_content (h : a.content = b.content) (hsignature : a.signature = b.signature) :
    a = b := by
  simp only [content, Statement.mk.injEq] at h
  cases a
  cases b
  simp_all

/-- Certificates with the same contents and one signature a statement are the same. -/
theorem certificates_isPrefix {l m : List EpochCertificate}
    (hcontents : l.map content <+: m.map content)
    (hsame : ∀ a ∈ l, ∀ b ∈ m, a.content = b.content → a = b) : l <+: m := by
  induction l generalizing m with
  | nil => exact nil_prefix
  | cons a l ih =>
    cases m with
    | nil => simp at hcontents
    | cons b m =>
      obtain ⟨hab, htail⟩ := cons_prefix_cons.1 hcontents
      cases hsame a (by simp) b (by simp) hab
      refine cons_prefix_cons.2 ⟨rfl, ih htail fun x hx y hy => ?_⟩
      exact hsame x (mem_cons_of_mem _ hx) y (mem_cons_of_mem _ hy)

theorem FoundedBy.verifies_signer (h : FoundedBy c chain a) :
    c.verifyStrict a.signerPublic a.statement a.signature = true := by
  rw [h.signer]
  exact h.verifies

/-- However the keys cell is served, the lineages that a client accepts one after another only
grow: unless the digest fails on accepted certificates, every one states what those before it
state and then only greater epochs, and every certificate is signed by the founder key in
effect at its epoch. When keys sign a statement once, the certificates themselves repeat. -/
theorem lineage_grows (c : Crypto) (room keys : UInt64) (pin : Key)
    (views : List (Option UInt32 × View)) :
    DigestFails c ((syncs c room keys pin none views).flatMap epochs) ∨
      (syncs c room keys pin none views).Pairwise Grows ∧
      (∀ lineage ∈ syncs c room keys pin none views, ∀ a ∈ lineage.epochs,
        FoundedBy c lineage.chain a) ∧
      (SignsOnce c ((syncs c room keys pin none views).flatMap epochs) →
        (syncs c room keys pin none views).Pairwise fun earlier later =>
          earlier.epochs <+: later.epochs) := by
  by_cases hfails : DigestFails c ((syncs c room keys pin none views).flatMap epochs)
  · exact .inl hfails
  · have hsep := separates_of_not_digestFails hfails
    have hnil : LinkedDown c [].reverse := trivial
    have hcontents : (syncs c room keys pin none views).Pairwise fun earlier later =>
        earlier.epochs.map content <+:
          later.epochs.map content := by
      have hall := (syncs_contents hnil rfl hsep).tail
      rw [tail_cons, pairwise_map] at hall
      exact hall
    refine .inr ⟨?_, fun lineage h => (syncs_sound lineage h).founded, fun honce => ?_⟩
    · exact hcontents.imp_of_mem fun _ hl h => grows_of_contents (syncs_sound _ hl) h
    · refine hcontents.imp_of_mem fun {earlier later} he hl h => certificates_isPrefix h ?_
      intro a ha b hb hab
      apply eq_of_content hab
      apply honce a (mem_flatMap.2 ⟨earlier, he, ha⟩) b (mem_flatMap.2 ⟨later, hl, hb⟩)
        (statement_eq_of_content hab)
      · exact ((syncs_sound earlier he).founded a ha).verifies_signer
      · exact ((syncs_sound later hl).founded b hb).verifies_signer

end Runs

end MiniDregg.RoomKeys
