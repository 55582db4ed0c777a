import MiniDregg.AsyncDispatch.Frame

/-!
# What the answers of the service say about its files

An offer is taken into custody when the files of its ticket hold its class, its body
and a capability with the same tag. Only such offers, and fetches that name exactly such
a ticket, are answered with a reply, and the reply is the one on file.
-/

namespace MiniDregg.AsyncDispatch

open Fallible Action

variable {s : Setup} {k : Nat} {id : Id} {body : Bytes} {recovery : Capability} {w w' : World}

/-- The files hold the ticket of an offer. -/
structure Ticket (s : Setup) (files : Files) (k : Nat) (id : Id) (body : Bytes)
    (recovery : Capability) : Prop where
  class_lt : k < 3
  classFile : files.get? (path id "class") = some (classByte k)
  request : files.get? (path id "request") = some body
  access : ∃ key, files.get? (path id "recovery") = some key ∧
    s.accessTag key = s.accessTag recovery.1

theorem Ticket.grows {files files' : Files} (h : Ticket s files k id body recovery)
    (hgrows : files.Grows files') : Ticket s files' k id body recovery := by
  obtain ⟨key, hkey, htag⟩ := h.access
  exact ⟨h.class_lt, hgrows _ _ h.classFile, hgrows _ _ h.request, key, hgrows _ _ hkey, htag⟩

/-- Creating any file keeps what is there. -/
theorem persist_grows {name : Text} {bytes : Bytes} {r : Result Unit}
    (h : persist name bytes w = (r, w')) : w.files.Grows w'.files := by
  have hkeeps : Keeps (Adds fun _ _ => True) (persist name bytes) := adds_persist trivial
  have hgrows := (hkeeps w).grows
  rwa [h] at hgrows

theorem journalAdmission_grows {r : Result Admission} (h : journalAdmission k id body w = (r, w')) :
    w.files.Grows w'.files := by
  have hkeeps : Keeps (Adds fun _ _ => True) (journalAdmission k id body) :=
    adds_journalAdmission trivial trivial
  have hgrows := (hkeeps w).grows
  rwa [h] at hgrows

variable {u : Unit} {a : Admission} {v digest : Bytes}

theorem keepClass_eq_ok (h : keepClass k id w = (.ok u, w')) :
    w'.files.get? (path id "class") = some (classByte k) := by
  rw [keepClass, state_bind] at h
  split_ifs at h
  · obtain ⟨held, hheld, h⟩ := readPrivate_bind_eq_ok h
    obtain ⟨hsame, rfl⟩ := refuseIf_eq_ok.1 h
    rw [bne_eq_false_iff_eq] at hsame
    exact hsame ▸ hheld
  · exact (persist_eq_ok h).2

/-- A retained request is on file with its class. -/
theorem retain_eq_ok (h : retain k id body w = (.ok u, w')) :
    w'.files.get? (path id "class") = some (classByte k) ∧
      w'.files.get? (path id "request") = some body := by
  rw [retain, state_bind] at h
  split_ifs at h
  · obtain ⟨held, hheld, h⟩ := readPrivate_bind_eq_ok h
    obtain ⟨hbody, h⟩ := refuseIf_bind_eq_ok.1 h
    obtain ⟨heldClass, hclass, h⟩ := readPrivate_bind_eq_ok h
    obtain ⟨hsame, rfl⟩ := refuseIf_eq_ok.1 h
    rw [bne_eq_false_iff_eq] at hbody hsame
    exact ⟨hsame ▸ hclass, hbody ▸ hheld⟩
  · obtain ⟨-, h⟩ := refuseIf_bind_eq_ok.1 h
    obtain ⟨_, w₁, hkeep, h⟩ := bind_eq_ok.1 h
    obtain ⟨_, w₂, hpersist, h⟩ := bind_eq_ok.1 h
    have hfiles : w'.files = w₂.files := by
      cases h
      rfl
    rw [hfiles]
    exact ⟨persist_grows hpersist _ _ (keepClass_eq_ok hkeep), (persist_eq_ok hpersist).2⟩

/-- The standing of a request reads the reply on file. -/
theorem standing_eq_ok (h : standing id w = (.ok a, w')) :
    w' = w ∧ ∀ v, a = .cached v → w.files.get? (path id "reply") = some v := by
  rw [standing, state_bind] at h
  split_ifs at h
  · obtain ⟨reply, hreply, h⟩ := readPrivate_bind_eq_ok h
    cases h
    refine ⟨rfl, fun v hv => ?_⟩
    cases hv
    exact hreply
  · cases h
    exact ⟨rfl, fun v hv => by cases hv⟩
  · cases h
    exact ⟨rfl, fun v hv => by cases hv⟩

theorem journalAdmission_eq_ok (h : journalAdmission k id body w = (.ok a, w')) :
    k < 3 ∧ w'.files.get? (path id "class") = some (classByte k) ∧
      w'.files.get? (path id "request") = some body ∧
      ∀ v, a = .cached v → w'.files.get? (path id "reply") = some v := by
  obtain ⟨hbound, h⟩ := refuseIf_bind_eq_ok.1 h
  obtain ⟨_, w₁, hretain, h⟩ := bind_eq_ok.1 h
  obtain ⟨rfl, hreply⟩ := standing_eq_ok h
  obtain ⟨hclass, hrequest⟩ := retain_eq_ok hretain
  simp only [Bool.or_eq_false_iff, decide_eq_false_iff_not, not_le] at hbound
  exact ⟨hbound.1.1, hclass, hrequest, hreply⟩

theorem checkAccess_eq_ok (h : checkAccess s id recovery w = (.ok u, w')) :
    w' = w ∧ ∃ key, w.files.get? (path id "recovery") = some key ∧
      s.accessTag key = s.accessTag recovery.1 := by
  obtain ⟨actual, hactual, h⟩ := readPrivate_bind_eq_ok h
  obtain ⟨hsame, rfl⟩ := refuseIf_eq_ok.1 h
  rw [bne_eq_false_iff_eq] at hsame
  exact ⟨rfl, actual, hactual, hsame⟩

theorem grantAccess_eq_ok (h : grantAccess s id recovery w = (.ok u, w')) :
    ∃ key, w'.files.get? (path id "recovery") = some key ∧
      s.accessTag key = s.accessTag recovery.1 := by
  rw [grantAccess, state_bind] at h
  split_ifs at h
  · obtain ⟨rfl, haccess⟩ := checkAccess_eq_ok h
    exact haccess
  · obtain ⟨-, h⟩ := refuseIf_bind_eq_ok.1 h
    exact ⟨recovery.1, (persist_eq_ok h).2, rfl⟩

/-- Custody of an offer: its ticket is on file, and a cached reply is the one on file. -/
theorem takeCustody_eq_ok (h : takeCustody s k id body recovery w = (.ok a, w')) :
    Ticket s w'.files k id body recovery ∧
      ∀ v, a = .cached v → w'.files.get? (path id "reply") = some v := by
  obtain ⟨-, h⟩ := refuseIf_bind_eq_ok.1 h
  obtain ⟨_, -, h⟩ := lift_bind_eq_ok.1 h
  obtain ⟨_, w₁, -, h⟩ := bind_eq_ok.1 h
  obtain ⟨_, w₂, hgrant, h⟩ := bind_eq_ok.1 h
  obtain ⟨hk, hclass, hrequest, hreply⟩ := journalAdmission_eq_ok h
  obtain ⟨key, hkey, htag⟩ := grantAccess_eq_ok hgrant
  exact ⟨⟨hk, hclass, hrequest, key, journalAdmission_grows h _ _ hkey, htag⟩, hreply⟩

theorem status_eq_ready {active : Finset Id} (h : status active id a = .ready v) :
    a = .cached v := by
  cases a with
  | cached reply =>
    cases h
    rfl
  | uncertain =>
    unfold status at h
    split_ifs at h
  | fresh => cases h

/-- An offer that is answered with a reply has its ticket on file, and the reply. -/
theorem offer_eq_ready (h : offer s k id body recovery w = (.ok (.ready v), w')) :
    Ticket s w'.files k id body recovery ∧ w'.files.get? (path id "reply") = some v := by
  obtain ⟨a, w₁, hcustody, h⟩ := bind_eq_ok.1 h
  rw [state_bind] at h
  obtain ⟨-, h⟩ := refuseIf_bind_eq_ok.1 h
  obtain ⟨hstatus, rfl⟩ := Prod.ext_iff.1 h
  obtain ⟨hticket, hreply⟩ := takeCustody_eq_ok hcustody
  exact ⟨hticket, hreply v (status_eq_ready (Except.ok.inj hstatus))⟩

/-- A fetch that names a request has its ticket on file. -/
theorem namedRequest_eq_ok (h : namedRequest s k id digest recovery w = (.ok body, w')) :
    w' = w ∧ Ticket s w.files k id body recovery ∧ s.sha256.digest body = digest := by
  obtain ⟨_, w₁, haccess, hrest⟩ := bind_eq_ok.1 h
  obtain ⟨rfl, key, hkey, htag⟩ := checkAccess_eq_ok haccess
  obtain ⟨held, hheld, h⟩ := readPrivate_bind_eq_ok hrest
  obtain ⟨hbound, h⟩ := refuseIf_bind_eq_ok.1 h
  obtain ⟨heldClass, hclass, h⟩ := readPrivate_bind_eq_ok h
  obtain ⟨hsame, h⟩ := refuseIf_bind_eq_ok.1 h
  cases h
  rw [bne_eq_false_iff_eq] at hsame
  simp only [Bool.or_eq_false_iff, decide_eq_false_iff_not, not_le, bne_eq_false_iff_eq] at hbound
  exact ⟨rfl, ⟨hbound.1, hsame ▸ hclass, hheld, key, hkey, htag⟩, hbound.2⟩

theorem fetch_eq_ready (h : fetch s k id digest recovery w = (.ok (.ready v), w')) :
    (∃ body, Ticket s w'.files k id body recovery ∧ s.sha256.digest body = digest) ∧
      w'.files.get? (path id "reply") = some v := by
  obtain ⟨body, w₁, hnamed, h⟩ := bind_eq_ok.1 h
  obtain ⟨a, w₂, hadmission, h⟩ := bind_eq_ok.1 h
  rw [state_bind] at h
  obtain ⟨hstatus, rfl⟩ := Prod.ext_iff.1 h
  obtain ⟨rfl, hticket, hdigest⟩ := namedRequest_eq_ok hnamed
  obtain ⟨-, -, -, hreply⟩ := journalAdmission_eq_ok hadmission
  have hlater := hticket.grows (journalAdmission_grows hadmission)
  exact ⟨⟨body, hlater, hdigest⟩, hreply v (status_eq_ready (Except.ok.inj hstatus))⟩

/-- The journal creates nothing for a ticket that is on file. -/
theorem journalAdmission_adds_nothing (h : Ticket s w.files k id body recovery) :
    Adds (fun _ _ => False) w (journalAdmission k id body w).2 := by
  have hkeeps : Keeps (Adds fun name v => w.files.get? name = some v)
      (journalAdmission k id body) := adds_journalAdmission h.classFile h.request
  obtain ⟨hgrows, horigin, hworkers⟩ := hkeeps w
  exact ⟨hgrows, fun name v hv => .inl ((horigin name v hv).elim (fun h => h) fun h => h), hworkers⟩

/-- A fetch creates nothing: the request and the class it names are there. -/
theorem adds_fetch : Action.Keeps (Adds fun _ _ => False) (fetch s k id digest recovery) := by
  intro w
  refine bind_rule (adds_namedRequest s w) fun body t h => ?_
  obtain ⟨rfl, hticket, -⟩ := namedRequest_eq_ok h
  refine bind_rule ?_ fun a u hu => ?_
  · exact journalAdmission_adds_nothing hticket
  · have hnothing := journalAdmission_adds_nothing hticket
    rw [hu] at hnothing
    exact hnothing

theorem reserve_eq_ok (h : reserve k id w = (.ok u, w')) :
    w'.files.get? (path id "class") = some (classByte k) := by
  rw [reserve, state_bind] at h
  split_ifs at h
  · obtain ⟨held, hheld, h⟩ := readPrivate_bind_eq_ok h
    obtain ⟨hsame, rfl⟩ := refuseIf_eq_ok.1 h
    rw [bne_eq_false_iff_eq] at hsame
    exact hsame ▸ hheld
  · obtain ⟨-, h⟩ := refuseIf_bind_eq_ok.1 h
    obtain ⟨_, w₁, -, h⟩ := bind_eq_ok.1 h
    exact (persist_eq_ok h).2

/-- Every request on file was there before or is an offered one with the offered class, also when
the custody of the offer failed half way. -/
def RequestsFrom (files : Files) (k : Nat) (id : Id) (body : Bytes) (w : World) : Prop :=
  ∀ other b, w.files.get? (path other "request") = some b →
    files.get? (path other "request") = some b ∨
      (other = id ∧ b = body ∧ k < 3 ∧ w.files.get? (path id "class") = some (classByte k))

theorem RequestsFrom.of_class (hk : k < 3) (hadds : Adds (OfferFile k id body recovery) w w')
    (hclass : w'.files.get? (path id "class") = some (classByte k)) :
    RequestsFrom w.files k id body w' := by
  intro other b hb
  rcases hadds.origin _ _ hb with hold | hnew
  · exact .inl hold
  · rcases hnew with ⟨hname, -⟩ | ⟨hname, -⟩ | ⟨hname, rfl⟩
    · exact absurd (path_inj hname).2 (by decide)
    · exact absurd (path_inj hname).2 (by decide)
    · exact .inr ⟨(path_inj hname).1, rfl, hk, hclass⟩

theorem RequestsFrom.refl : RequestsFrom w.files k id body w := fun _ _ h => .inl h

theorem takeCustody_requestsFrom :
    RequestsFrom w.files k id body (takeCustody s k id body recovery w).2 := by
  refine bind_rule RequestsFrom.refl fun _ w₁ h => ?_
  obtain ⟨hbound, rfl⟩ := refuseIf_eq_ok.1 h
  simp only [Bool.or_eq_false_iff, decide_eq_false_iff_not, not_le] at hbound
  refine bind_rule RequestsFrom.refl fun _ w₁ h => ?_
  obtain ⟨-, rfl⟩ := Prod.ext_iff.1 h
  -- until the class is reserved, nothing but the class file is created
  refine bind_rule ?_ fun _ w₁ h => ?_
  · intro other b hb
    have hkeeps : Keeps (Adds fun name _ => name = path id "class") (reserve k id) :=
      adds_reserve rfl
    rcases (hkeeps w).origin _ _ hb with hold | hname
    · exact .inl hold
    · exact absurd (path_inj hname).2 (by decide)
  · have hreserve : Adds (OfferFile k id body recovery) w w₁ := by
      have hkeeps : Keeps (Adds (OfferFile k id body recovery)) (reserve k id) :=
        adds_reserve (.inl ⟨rfl, rfl⟩)
      have hadds := hkeeps w
      change reserve k id w = _ at h
      rwa [h] at hadds
    have hclass := reserve_eq_ok h
    have hrest : Keeps (Adds (OfferFile k id body recovery)) (do
        grantAccess s id recovery
        journalAdmission k id body) := by
      refine adds_bind (adds_grantAccess s (.inr (.inl ⟨rfl, rfl⟩))) fun _ => ?_
      exact adds_journalAdmission (.inl ⟨rfl, rfl⟩) (.inr (.inr ⟨rfl, rfl⟩))
    have hadds := hrest w₁
    exact RequestsFrom.of_class hbound.1.1 (hreserve.trans hadds) (hadds.grows _ _ hclass)

theorem offer_snd_files : (offer s k id body recovery w).2.files
    = (takeCustody s k id body recovery w).2.files := by
  refine bind_rule (P := fun v : World => v.files
    = (takeCustody s k id body recovery w).2.files) rfl fun a w₁ h => ?_
  rw [h, state_bind]
  refine bind_rule (P := fun v : World => v.files = w₁.files) rfl fun _ w₂ h => ?_
  obtain ⟨-, rfl⟩ := refuseIf_eq_ok.1 h
  rfl

/-- The name of a request file is that of the ticket it spells. -/
theorem eq_path_of_ticketOf {name stem : Text} {refusal : String}
    (hstem : stripSuffix ".request" name = some stem) (hid : ticketOf refusal stem = .ok id) :
    name = path id "request" := by
  unfold stripSuffix at hstem
  split_ifs at hstem with hsuffix
  cases hstem
  obtain ⟨bytes, hbytes, hid⟩ := bind_eq_ok.1 hid
  obtain ⟨-, hbytes⟩ := check_bind_eq_ok.1 hbytes
  have hname := List.suffix_iff_eq_append.1 (List.isSuffixOf_iff_suffix.1 hsuffix)
  split_ifs at hid with hlength
  cases hid
  rw [Text.hexPairs_eq_ok hbytes] at hname
  exact hname.symm

/-- What a worker claims: a request of its class on file, unmarked before and marked after. -/
theorem claimFirst_eq_ok {names : List Text}
    (h : claimFirst s k names w = (.ok (some (id, body)), w')) :
    w.files.get? (path id "class") = some (classByte k) ∧
      w.files.get? (path id "request") = some body ∧
      w.files.get? (path id "dispatch") = none ∧ w'.files.contains (path id "dispatch") = true := by
  induction names with
  | nil => cases h
  | cons name names ih =>
    cases hstem : stripSuffix ".request" name with
    | none =>
      simp only [claimFirst, hstem] at h
      exact ih h
    | some stem =>
      simp only [claimFirst, hstem] at h
      obtain ⟨other, hid, h⟩ := lift_bind_eq_ok.1 h
      obtain ⟨held, hheld, h⟩ := readPrivate_bind_eq_ok h
      rw [state_bind] at h
      split_ifs at h with hskip
      · exact ih h
      · obtain ⟨_, -, h⟩ := readPrivate_bind_eq_ok h
        obtain ⟨content, hcontent, h⟩ := readPrivate_bind_eq_ok h
        obtain ⟨_, w₁, hclaim, h⟩ := bind_eq_ok.1 h
        obtain ⟨_, w₂, hmodify, h⟩ := bind_eq_ok.1 h
        cases h
        cases hmodify
        rw [Bool.not_eq_true, Bool.or_eq_false_iff, bne_eq_false_iff_eq] at hskip
        obtain ⟨hfree, hmarked⟩ := persist_eq_ok hclaim
        refine ⟨hskip.1 ▸ hheld, ?_, hfree, Store.OrderedMap.contains_iff.2 ⟨_, hmarked⟩⟩
        rw [← eq_path_of_ticketOf hstem hid]
        exact hcontent

/-- A started service has its workers idle; starting it creates nothing but the pin. -/
theorem openService_files :
    w.files.Grows (openService s w).2.files ∧
      ∀ name v, (openService s w).2.files.get? name = some v →
        w.files.get? name = some v ∨ ProfileFile name v := by
  let P (v : World) : Prop := w.files.Grows v.files ∧ ∀ name b,
    v.files.get? name = some b → w.files.get? name = some b ∨ ProfileFile name b
  have hpin := adds_checkPin s w
  refine bind_rule (P := P) ⟨.refl _, fun _ _ => .inl⟩ fun _ w₁ h => ?_
  obtain ⟨-, rfl⟩ := refuseIf_eq_ok.1 h
  refine bind_rule (P := P) ⟨hpin.grows, hpin.origin⟩ fun _ w₁ h => ?_
  rw [h] at hpin
  rw [state_bind]
  refine bind_rule (P := P) ⟨hpin.grows, hpin.origin⟩ fun _ w₂ h => ?_
  obtain ⟨-, rfl⟩ := Prod.ext_iff.1 h
  exact ⟨hpin.grows, hpin.origin⟩

theorem openService_workers (h : openService s w = (.ok u, w')) (k : Nat) :
    w'.memory.workers k = .idle := by
  obtain ⟨-, h⟩ := refuseIf_bind_eq_ok.1 h
  obtain ⟨_, w₁, -, h⟩ := bind_eq_ok.1 h
  rw [state_bind] at h
  obtain ⟨memory, hmemory, h⟩ := lift_bind_eq_ok.1 h
  cases h
  obtain ⟨counts, -, hmemory⟩ := bind_eq_ok.1 hmemory
  obtain ⟨reserved, -, hmemory⟩ := bind_eq_ok.1 hmemory
  obtain ⟨-, hmemory⟩ := check_bind_eq_ok.1 hmemory
  cases hmemory
  rfl

end MiniDregg.AsyncDispatch
