import MiniDregg.PrivateBackend.AsksLocal

/-!
# Sharings under every schedule

The broadcast of the commitments and the agreement on acceptance are parts of a
sharing, so their quorum results hold of it. Together with what each record
keeps they give the agreement of the keys.
-/

namespace MiniDregg.PrivateBackend.Asks

open Arith MiniDregg.Network Store Fallible Reconstruction List Bracha Asks Wire World

variable {n f : ℕ} {sha : Wire.Digest} {a t : Asks n f} {out : List (ℕ × Message)}

/-- What a message carries for the broadcast of the commitments. -/
def unwrapCommit (m : Message) : Option (PhaseMessage Bytes) :=
  match m.body with
  | .commit p => some p
  | _ => none

/-- What a message carries for the agreement. -/
def unwrapRa (m : Message) : Option (PhaseMessage Bytes) :=
  match m.body with
  | .ra p => some p
  | _ => none

theorem unwrapCommit_mk (inst : Bytes) (p : PhaseMessage Bytes) :
    unwrapCommit ⟨inst, .commit p⟩ = some p := rfl

theorem unwrapRa_mk (inst : Bytes) (p : PhaseMessage Bytes) :
    unwrapRa ⟨inst, .ra p⟩ = some p := rfl

variable {r q : ℕ} {m : Message} {taken : List (ℕ × Message)} {c : List (List GF128)} {b : Asks n f}

theorem mem_all {bodies : List Body} :
    (r, m) ∈ a.all bodies ↔ r < n ∧ m.inst = a.inst ∧ m.body ∈ bodies := by
  obtain ⟨inst, body⟩ := m
  simp only [all, mem_toAll, mem_map, Message.mk.injEq]
  constructor
  · rintro ⟨hr, b, hb, rfl, rfl⟩
    exact ⟨hr, rfl, hb⟩
  · rintro ⟨hr, rfl, hb⟩
    exact ⟨hr, body, hb, rfl, rfl⟩

theorem all_map (wrap : PhaseMessage Bytes → Body) (ps : List (PhaseMessage Bytes)) :
    a.all (ps.map wrap) = Bracha.toAll n (ps.map fun p => (⟨a.inst, wrap p⟩ : Message)) := by
  rw [all, map_map]
  rfl

/-- The sharing step sends messages of the agreement only. -/
theorem mem_share (hm : (r, m) ∈ (a.share sha).2) : ∃ p, m.body = .ra p := by
  unfold share at hm
  cases hc : a.commits with
  | none => simp [hc] at hm
  | some c =>
    simp only [hc, accept] at hm
    cases hv : a.privateValid sha c with
    | none => simp [hv] at hm
    | some s =>
      simp only [hv] at hm
      obtain ⟨p, -, hp⟩ := mem_map.1 (mem_all.1 hm).2.2
      exact ⟨p, hp.symm⟩

/-- A message passes on messages of the broadcast it belongs to. -/
theorem mem_take {body : Body} (hact : a.take q body = .ok (b, taken)) (hm : (r, m) ∈ taken) :
    (∃ p p', body = .commit p ∧ m.body = .commit p' ∧ p' ∈ (a.rbc.receive q p).2) ∨
      ∃ p p', body = .ra p ∧ m.body = .ra p' ∧ p' ∈ (a.ra.receive q p).2 := by
  cases body with
  | commit p =>
    obtain ⟨-, -, rfl⟩ := take_commit hact
    obtain ⟨p', hp', hbody⟩ := mem_map.1 (mem_all.1 hm).2.2
    exact .inl ⟨p, p', rfl, hbody.symm, hp'⟩
  | ra p =>
    obtain ⟨-, -, -, rfl⟩ := take_ra hact
    obtain ⟨p', hp', hbody⟩ := mem_map.1 (mem_all.1 hm).2.2
    exact .inr ⟨p, p', rfl, hbody.symm, hp'⟩
  | privateShare s =>
    obtain ⟨-, -, rfl, -⟩ := take_privateShare hact
    cases hm
  | reconstruct s =>
    obtain ⟨-, rfl, -⟩ := take_reconstruct hact
    cases hm

theorem mem_opening {sh : SharingOutput} :
    (r, m) ∈ a.opening sh ↔
      ∃ s, sh.localShare = some s ∧ r < n ∧ m.inst = a.inst ∧ m.body = .reconstruct s := by
  unfold opening
  cases sh.localShare with
  | none => simp
  | some s => simp [mem_all]

theorem dealerWithCoefficients_ok (hact : a.dealerWithCoefficients sha c = .ok out) :
    a.me = a.dealer ∧ dimensions f c = true ∧
      out = ((range n).map fun i => (i, ⟨a.inst, .privateShare (shareOf c i)⟩)) ++
        a.all [.commit (.init (commitmentsOf sha n a.inst c))] := by
  simp only [dealerWithCoefficients, bind_eq_ok, refuseIf_eq_ok, pure_inj,
    Bool.or_eq_false_iff, bne_eq_false_iff_eq, Bool.not_eq_false'] at hact
  obtain ⟨-, ⟨hme, hdim⟩, rfl⟩ := hact
  exact ⟨hme, hdim, rfl⟩

section Parts
variable {got got' : Option (ℕ × PhaseMessage Bytes)}

/-- A move of a sharing as moves of its two broadcasts. -/
structure Does (got got' : Option (ℕ × PhaseMessage Bytes)) (a t : Asks n f)
    (out : List (ℕ × Message)) : Prop where
  rbc : (Bracha.machine n f Bytes).Does unwrapCommit got a.rbc t.rbc out
  ra : (Bracha.machine n f Bytes).Does unwrapRa got' a.ra t.ra out

/-- Messages that carry nothing for the broadcasts leave them at rest. -/
theorem Does.rest (hrbc : t.rbc = a.rbc) (hra : t.ra = a.ra)
    (h : ∀ r m, (r, m) ∈ out → unwrapCommit m = none ∧ unwrapRa m = none) :
    Does got got' a t out :=
  ⟨hrbc ▸ .rest fun r m hm => (h r m hm).1, hra ▸ .rest fun r m hm => (h r m hm).2⟩

theorem Does.append {later : List (ℕ × Message)} (h : Does got got' a b out)
    (h' : Does got got' b t later) : Does got got' a t (out ++ later) :=
  ⟨h.rbc.append h'.rbc, h.ra.append h'.ra⟩

theorem share_does_ra : (Bracha.machine n f Bytes).Does unwrapRa got a.ra (a.share sha).1.ra
    (a.share sha).2 := by
  unfold share
  cases a.commits with
  | none => exact .rest nofun
  | some c =>
    have hfinish : ∀ b : Asks n f, (b.finish sha c).ra = b.ra := by
      intro b
      unfold finish
      split_ifs <;> rfl
    simp only [hfinish]
    unfold accept
    cases a.privateValid sha c with
    | none => exact .rest nofun
    | some s =>
      simp only [all_map]
      exact does_inputRa (unwrapRa_mk a.inst) a.ra [1]

theorem Moved.does (hm : Moved sha a t) : Does got got' a t (a.share sha).2 := by
  refine ⟨hm.rbc ▸ .rest fun r m hmem => ?_, hm.ra ▸ share_does_ra⟩
  obtain ⟨p, hp⟩ := mem_share hmem
  simp [unwrapCommit, hp]

theorem take_does (hact : a.take q m.body = .ok (b, taken)) :
    Does ((unwrapCommit m).map fun p => (q, p)) ((unwrapRa m).map fun p => (q, p)) a b taken := by
  obtain ⟨-, -, hrbc, hra⟩ := take_frame hact
  obtain ⟨inst, body⟩ := m
  cases body with
  | commit p =>
    obtain ⟨-, rfl, rfl⟩ := take_commit hact
    rw [all_map]
    refine ⟨does_receive (unwrapCommit_mk a.inst) a.rbc rfl, .rest fun r m hm => ?_⟩
    obtain ⟨p', -, rfl⟩ := mem_map.1 (mem_toAll.1 hm).2
    rfl
  | ra p =>
    obtain ⟨-, -, rfl, rfl⟩ := take_ra hact
    rw [all_map]
    refine ⟨.rest fun r m hm => ?_, does_receive (unwrapRa_mk a.inst) a.ra rfl⟩
    obtain ⟨p', -, rfl⟩ := mem_map.1 (mem_toAll.1 hm).2
    rfl
  | privateShare s =>
    obtain ⟨-, -, rfl, -⟩ := take_privateShare hact
    exact .rest (hrbc nofun) (hra nofun) nofun
  | reconstruct s =>
    obtain ⟨-, rfl, -⟩ := take_reconstruct hact
    exact .rest (hrbc nofun) (hra nofun) nofun

section
variable (ha : Sound sha a) (hn : n ≤ 16) (hact : a.receive sha q m = .ok (t, out))
include ha hn hact

theorem receive_does :
    Does ((unwrapCommit m).map fun p => (q, p)) ((unwrapRa m).map fun p => (q, p)) a t out := by
  obtain ⟨b, taken, -, -, htake, hmoved, rfl⟩ := receive_ok ha hn hact
  exact (take_does htake).append hmoved.does

/-- What a party passes on of the broadcast is never an INIT. -/
theorem receive_no_init {m' : Message} (hm : (r, m') ∈ out) (v : Bytes) :
    unwrapCommit m' ≠ some (.init v) := by
  obtain ⟨b, taken, -, -, htake, -, rfl⟩ := receive_ok ha hn hact
  intro hv
  rcases mem_append.1 hm with hm | hm
  · rcases mem_take htake hm with ⟨p, p', -, hp', hmem⟩ | ⟨p, p', -, hp', -⟩
    · rw [unwrapCommit, hp', Option.some.injEq] at hv
      rw [hv] at hmem
      exact (a.rbc.receive_move q p).no_init v hmem
    · rw [unwrapCommit, hp'] at hv
      cases hv
  · obtain ⟨p, hp⟩ := mem_share hm
    rw [unwrapCommit, hp] at hv
    cases hv

end

/-- Opening the key moves neither broadcast. -/
theorem startReconstruction_frame (ha : Sound sha a) (hn : n ≤ 16)
    (hact : a.startReconstruction sha = .ok (t, out)) :
    t.rbc = a.rbc ∧ t.ra = a.ra ∧ ∀ r m, (r, m) ∈ out → ∃ s, m.body = .reconstruct s := by
  obtain ⟨sh, hsh, ⟨-, rfl, rfl⟩ | ⟨-, hmoved, rfl⟩⟩ := startReconstruction_ok ha hn hact
  · exact ⟨rfl, rfl, nofun⟩
  · have hsound : Sound sha { a with reconstructStarted := true } :=
      { ha with started := fun _ => by rw [hsh]; rfl }
    refine ⟨hmoved.rbc, ?_, fun r m hm => ?_⟩
    · rw [hmoved.ra, hsound.share_eq_self (by rw [hsh]; rfl)]
    · obtain ⟨s, -, -, -, hs⟩ := mem_opening.1 hm
      exact ⟨s, hs⟩

theorem deal_does (hact : a.dealerWithCoefficients sha c = .ok out) : Does got got' a a out := by
  obtain ⟨-, -, rfl⟩ := dealerWithCoefficients_ok hact
  refine Does.append (b := a) (.rest rfl rfl fun r m hm => ?_)
    ⟨does_broadcast (unwrapCommit_mk a.inst) a.rbc _, .rest fun r m hm => ?_⟩
  · obtain ⟨i, -, hi⟩ := mem_map.1 hm
    cases hi
    exact ⟨rfl, rfl⟩
  · simp [unwrapRa, mem_singleton.1 (mem_all.1 hm).2.2]

end Parts

section Machine
variable {e : Event Input Message}

/-- The four kinds of moves of the protocol. -/
theorem handle_cases (hact : (machine sha n f).handle a e = .ok (t, out)) :
    (∃ p c, e = .input p (.deal c) ∧ t = a ∧ a.dealerWithCoefficients sha c = .ok out) ∨
      (∃ p, e = .input p .startReconstruction ∧ a.startReconstruction sha = .ok (t, out)) ∨
        ∃ p q m, e = .deliver p q m ∧ a.receive sha q m = .ok (t, out) := by
  cases e with
  | input p i =>
    cases i with
    | deal c =>
      obtain ⟨out', hdeal, h⟩ := bind_eq_ok.1 hact
      cases h
      exact .inl ⟨p, c, rfl, rfl, hdeal⟩
    | startReconstruction => exact .inr (.inl ⟨p, rfl, hact⟩)
  | deliver p q m => exact .inr (.inr ⟨p, q, m, rfl, hact⟩)

theorem handle_sound (hn : n ≤ 16) (ha : Sound sha a)
    (hact : (machine sha n f).handle a e = .ok (t, out)) :
    Sound sha t ∧ (Settled sha a → Settled sha t) ∧ Kept a t := by
  rcases handle_cases hact with ⟨p, c, rfl, rfl, -⟩ | ⟨p, rfl, h⟩ | ⟨p, q, m, rfl, h⟩
  · exact ⟨ha, id, .refl t⟩
  · exact startReconstruction_sound ha hn h
  · obtain ⟨b, taken, -, -, htake, hmoved, -⟩ := receive_ok ha hn h
    exact ⟨hmoved.sound, fun _ => hmoved.settled, (take_frame htake).1.trans hmoved.kept⟩

theorem handle_does (hn : n ≤ 16) (ha : Sound sha a)
    (hact : (machine sha n f).handle a e = .ok (t, out)) :
    Does (e.carried unwrapCommit) (e.carried unwrapRa) a t out := by
  rcases handle_cases hact with ⟨p, c, rfl, rfl, h⟩ | ⟨p, rfl, h⟩ | ⟨p, q, m, rfl, h⟩
  · exact deal_does h
  · obtain ⟨hrbc, hra, hout⟩ := startReconstruction_frame ha hn h
    refine .rest hrbc hra fun r m hm => ?_
    obtain ⟨s, hs⟩ := hout r m hm
    simp [unwrapCommit, unwrapRa, hs]
  · exact receive_does ha hn h

variable (sha : Wire.Digest)

/-- The broadcast of the commitments as a part of the sharing. -/
def rbcPart (f : ℕ) (hn : n ≤ 16) :
    Embedding (machine sha n f) (Bracha.machine n f Bytes) where
  Local := Sound sha
  view := rbc
  unwrap := unwrapCommit
  course _ _ _ _ ha hact := ⟨(handle_sound hn ha hact).1, (handle_does hn ha hact).rbc⟩

/-- The agreement on acceptance as a part of the sharing. -/
def raPart (f : ℕ) (hn : n ≤ 16) :
    Embedding (machine sha n f) (Bracha.machine n f Bytes) where
  Local := Sound sha
  view := ra
  unwrap := unwrapRa
  course _ _ _ _ ha hact := ⟨(handle_sound hn ha hact).1, (handle_does hn ha hact).ra⟩

end Machine

section Keys
variable {k k' : Bytes}

/-- Two records of one instance with the same commitments hold the same key. -/
theorem Sound.key_eq (ha : Sound sha a) (hb : Sound sha b) (hn : n ≤ 16)
    (hinst : b.inst = a.inst) (hbind : Binding sha a.inst)
    (hagree : ∀ v w, a.rbc.output = some v → b.rbc.output = some w → v = w)
    (hk : a.key = some k) (hk' : b.key = some k') : k = k' := by
  obtain ⟨sh, points, hsh, ho, hopen⟩ := ha.key k hk
  obtain ⟨sh', points', hsh', ho', hopen'⟩ := hb.key k' hk'
  obtain ⟨v, hv, -, hc⟩ := commits_eq_some.1 (ha.commits sh hsh)
  obtain ⟨w, hw, -, hc'⟩ := commits_eq_some.1 (hb.commits sh' hsh')
  have hcommitments : sh'.commitments = sh.commitments := by
    rw [← hc, ← hc', hagree v w hv hw]
  rw [hinst, hcommitments] at ho' hopen'
  rw [ho.keyOf_eq ho' hn hbind, hopen', Except.ok.injEq] at hopen
  exact hopen.symm

/-- A record of a deal's commitments holds the deal's key. -/
theorem Sound.key_deal (ha : Sound sha a) (hn : n ≤ 16) (hbind : Binding sha a.inst)
    (hdim : dimensions f c = true)
    (hout : ∀ v, a.rbc.output = some v → v = commitmentsOf sha n a.inst c)
    (hk : a.key = some k) : h sha a.inst 0 (c.map fun p => p.getD 0 0) = k := by
  obtain ⟨sh, points, hsh, ho, hopen⟩ := ha.key k hk
  obtain ⟨v, hv, -, hc⟩ := commits_eq_some.1 (ha.commits sh hsh)
  rw [hout v hv, chunksExact_commitmentsOf] at hc
  rw [← hc] at ho hopen
  rw [ho.keyOf_deal hdim hn hbind, Except.ok.injEq] at hopen
  exact hopen

end Keys

section Network
variable {R : Roster} {dealer : ℕ} {g : Generation} {schedule : List (Event Input Message)}

/-- All parties before the sharing of a dealer. -/
def beginning (sha : Wire.Digest) (R : Roster) (dealer : ℕ) (g : Generation) :
    World (Asks R.n R.f) Message :=
  .start fun p => fresh sha R.n R.f p dealer g

/-- All parties after a schedule. -/
abbrev outcome (sha : Wire.Digest) (R : Roster) (dealer : ℕ) (g : Generation)
    (schedule : List (Event Input Message)) : World (Asks R.n R.f) Message :=
  (beginning sha R dealer g).run R (machine sha R.n R.f) schedule

variable (hn : R.n ≤ 16)
include hn

theorem run_sound (p : ℕ) : Sound sha ((outcome sha R dealer g schedule).state p) :=
  run_local (fun p => sound_fresh sha R.n R.f p dealer g)
    (fun _ _ _ _ ha hact => (handle_sound hn ha hact).1) schedule p

theorem run_settled (p : ℕ) : Settled sha ((outcome sha R dealer g schedule).state p) :=
  (run_local (L := fun a => Sound sha a ∧ Settled sha a)
    (fun p => ⟨sound_fresh sha R.n R.f p dealer g, settled_fresh sha R.n R.f p dealer g⟩)
    (fun _ _ _ _ ha hact =>
      ⟨(handle_sound hn ha.1 hact).1, (handle_sound hn ha.1 hact).2.1 ha.2⟩) schedule p).2

theorem run_kept (p : ℕ) : Kept (fresh sha R.n R.f p dealer g)
    ((outcome sha R dealer g schedule).state p) :=
  run_related (W := beginning sha R dealer g) (L := Sound sha) (r := Kept) Kept.refl
    (fun _ _ _ => Kept.trans) (fun p => sound_fresh sha R.n R.f p dealer g)
    (fun _ _ _ _ ha hact => ⟨(handle_sound hn ha hact).1, (handle_sound hn ha hact).2.2⟩)
    schedule p

variable {v : Bytes} {p d : ℕ}

/-- All honest parties that have the commitments have the same. -/
theorem rbc_agreement {w : Bytes}
    (hv : ((outcome sha R dealer g schedule).state p).rbc.output = some v)
    (hw : ((outcome sha R dealer g schedule).state q).rbc.output = some w) : v = w := by
  exact part_agreement (rbcPart sha R.f hn) _ (fun p => sound_fresh sha R.n R.f p dealer g)
    (fun _ => rfl) schedule hv hw

/-- The only INITs of the commitments are the dealer's deals. -/
theorem init_of_deal (hm : ⟨d, r, m⟩ ∈ (outcome sha R dealer g schedule).sent)
    (hv : unwrapCommit m = some (.init v)) :
    ∃ c, .input d (.deal c) ∈ schedule ∧ dimensions R.f c = true ∧
      v = commitmentsOf sha R.n (instanceOf sha R.n R.f dealer g) c := by
  refine (run_invariant_of_mem (P := fun W : World (Asks R.n R.f) Message =>
    (∀ p, Sound sha (W.state p) ∧ Kept (fresh sha R.n R.f p dealer g) (W.state p)) ∧
    ∀ d r m v, ⟨d, r, m⟩ ∈ W.sent → unwrapCommit m = some (.init v) →
      ∃ c, .input d (.deal c) ∈ schedule ∧ dimensions R.f c = true ∧
        v = commitmentsOf sha R.n
          (instanceOf sha R.n R.f dealer g) c) ?_ schedule ?_).2 d r m v hm hv
  · exact ⟨fun p => ⟨sound_fresh sha R.n R.f p dealer g, .refl _⟩,
      nofun⟩
  · rintro W e t out he ⟨hlocal, hinit⟩ - hact
    obtain ⟨hsound, hkept⟩ := hlocal e.party
    obtain ⟨ht, -, hkt⟩ := handle_sound hn hsound hact
    refine ⟨W.forall_advance (P := fun p a => Sound sha a ∧
      Kept (fresh sha R.n R.f p dealer g) a) ⟨ht, hkept.trans hkt⟩ hlocal, ?_⟩
    intro d r m v hm hv
    rcases mem_advance_sent.1 hm with hm | ⟨rfl, hout⟩
    · exact hinit d r m v hm hv
    -- Of the three kinds of moves only a deal sends an INIT.
    rcases handle_cases hact with ⟨p, c, rfl, rfl, h⟩ | ⟨p, rfl, h⟩ | ⟨p, q, m', rfl, h⟩
    · obtain ⟨-, hdim, rfl⟩ := dealerWithCoefficients_ok h
      refine ⟨c, he, hdim, ?_⟩
      rcases mem_append.1 hout with hout | hout
      · obtain ⟨i, -, hi⟩ := mem_map.1 hout
        obtain rfl : _ = m := (Prod.mk.inj hi).2
        cases hv
      · have hbody := (mem_all.1 hout).2.2
        rw [mem_singleton] at hbody
        rw [unwrapCommit, hbody, Option.some.injEq, PhaseMessage.init.injEq] at hv
        rw [← hv, hkept.inst]
        rfl
    · obtain ⟨-, -, hbody⟩ := startReconstruction_frame hsound hn h
      obtain ⟨s, hs⟩ := hbody r m hout
      simp [unwrapCommit, hs] at hv
    · exact absurd hv (receive_no_init hsound hn h hout v)

/-- An honest dealer's commitments are those of one of its deals. -/
theorem output_of_deal (hd : R.Honest dealer)
    (hv : ((outcome sha R dealer g schedule).state p).rbc.output = some v) :
    ∃ c, .input dealer (.deal c) ∈ schedule ∧ dimensions R.f c = true ∧
      v = commitmentsOf sha R.n (instanceOf sha R.n R.f dealer g) c := by
  obtain ⟨q, m, hm, hunwrap⟩ := part_output_init (rbcPart sha R.f hn) _
    (fun p => sound_fresh sha R.n R.f p dealer g) (fun _ => rfl) schedule hv hd rfl
  exact init_of_deal hn hm hunwrap

end Network

/-- A function to 32 bytes that tells share vectors apart: the last 32 bytes. -/
def lastBytes : Wire.Digest where
  digest b := (replicate 32 0 ++ b).drop b.length
  length_digest b := by rw [length_drop, length_append, length_replicate,
    Nat.add_sub_cancel]

def firstGeneration : Generation :=
  ⟨CodecNat.new 1, [], CodecNat.new 1, CodecNat.new 1, CodecNat.new 1⟩

theorem binding_lastBytes (inst : Bytes) : Binding lastBytes inst := by
  intro index v w hv hw heq
  have hlen : ∀ u : List GF128, u.length = WORDS →
      (u.flatMap fun x => toLeBytes 16 x.bits.toNat).length = 32 := by
    intro u hu
    simp [length_flatMap, hu, WORDS]
  have hlast : ∀ u : List GF128, u.length = WORDS → h lastBytes inst index u =
      u.flatMap fun x => toLeBytes 16 x.bits.toNat := by
    intro u hu
    simp only [h, lastBytes]
    rw [← append_assoc]
    refine drop_left' ?_
    simp [hlen u hu]
    omega
  rw [hlast v hv, hlast w hw] at heq
  have hmap := map_eq_of_flatMap_eq (w := 16) (by decide) (fun _ _ => by simp)
    (fun _ _ => by simp) heq
  refine map_injective_iff.2 (fun x y hxy => ?_) hmap
  have hnat := congrArg fromLeBytes hxy
  rw [fromLeBytes_toLeBytes (lt_of_lt_of_le x.bits.isLt (by decide)),
    fromLeBytes_toLeBytes (lt_of_lt_of_le y.bits.isLt (by decide))] at hnat
  exact GF128.ext (BitVec.eq_of_toNat_eq hnat)

end MiniDregg.PrivateBackend.Asks
