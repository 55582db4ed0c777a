import MiniDregg.PrivateBackend.AsksRuns

/-!
# Completeness of a sharing

A complete sharing rests on a quorum of parties that told the agreement that
their share matches, so more than `f` honest parties hold one. Each of them
sends its share when it starts to open the key. Once these messages are
delivered, every honest party that opens the key has more than `f` valid shares,
and so the key.
-/

namespace MiniDregg.PrivateBackend.Asks

open Arith MiniDregg.Network Store Fallible Reconstruction OrderedMap List World

variable {out : List (ℕ × Message)} {n f : ℕ} {sha : Wire.Digest} {a t : Asks n f}

section Moves
variable {q : ℕ} {m : Message}

section
variable (ha : Sound sha a) (hn : n ≤ 16)
include ha hn

/-- A message that arrives starts nothing, and no opening is sent because of it. -/
theorem receive_no_opening (hact : a.receive sha q m = .ok (t, out)) :
    t.reconstructStarted = a.reconstructStarted ∧
      ∀ r m' s, (r, m') ∈ out → m'.body ≠ .reconstruct s := by
  obtain ⟨b, taken, -, -, htake, hmoved, rfl⟩ := receive_ok ha hn hact
  refine ⟨hmoved.started.trans (take_frame htake).2.1, fun r m' s hm hs => ?_⟩
  rcases mem_append.1 hm with hm | hm
  · rcases mem_take htake hm with ⟨p, p', -, hp', -⟩ | ⟨p, p', -, hp', -⟩
    · rw [hp'] at hs
      cases hs
    · rw [hp'] at hs
      cases hs
  · obtain ⟨p, hp⟩ := mem_share hm
    cases hp.symm.trans hs

/-- What is pending arrived in an opening of its sender. -/
theorem receive_pending (hact : a.receive sha q m = .ok (t, out)) {e : ℕ × List GF128}
    (he : e ∈ t.pending.entries) : e ∈ a.pending.entries ∨ e.1 = q ∧ m.body = .reconstruct e.2 := by
  obtain ⟨b, taken, -, -, htake, hmoved, rfl⟩ := receive_ok ha hn hact
  rw [hmoved.pending] at he
  cases hbody : m.body with
  | commit p =>
    rw [hbody] at htake
    obtain ⟨-, rfl, -⟩ := take_commit htake
    exact .inl he
  | ra p =>
    rw [hbody] at htake
    obtain ⟨-, -, rfl, -⟩ := take_ra htake
    exact .inl he
  | privateShare s =>
    rw [hbody] at htake
    obtain ⟨-, -, -, rfl | ⟨-, -, rfl⟩⟩ := take_privateShare htake
    · exact .inl he
    · exact .inl he
  | reconstruct s =>
    rw [hbody] at htake
    obtain ⟨-, -, ⟨-, rfl⟩ | rfl⟩ := take_reconstruct htake
    · exact .inl he
    · rcases mem_insertEntry he with rfl | he
      · exact .inr ⟨rfl, rfl⟩
      · exact .inl he

variable {s : List GF128}

/-- The share of an opening that arrives is kept. -/
theorem receive_held (hbody : m.body = .reconstruct s) (hact : a.receive sha q m = .ok (t, out)) :
    (t.pending.contains q || t.valid.contains q) = true := by
  obtain ⟨b, taken, -, -, htake, hmoved, -⟩ := receive_ok ha hn hact
  refine hmoved.kept.held q ?_
  rw [hbody] at htake
  obtain ⟨-, -, ⟨hvalid, rfl⟩ | rfl⟩ := take_reconstruct htake
  · rw [hvalid, Bool.or_true]
  · simp [OrderedMap.contains]

/-- An opening of the right size is not refused. -/
theorem receive_opening_ok (hq : q < n) (hs : s.length = WORDS) :
    ∃ t out, a.receive sha q ⟨a.inst, .reconstruct s⟩ = .ok (t, out) := by
  obtain ⟨b, htake⟩ : ∃ b, a.take q (.reconstruct s) = .ok (b, []) := by
    simp [Asks.take, hs]
  obtain ⟨t, ht, -⟩ := (ha.take hq htake).progress hn
  refine ⟨t, (b.share sha).2, ?_⟩
  simp [Asks.receive, htake, ht, decide_eq_false (Nat.not_le.2 hq)]

/-- A complete sharing sends nothing when an opening arrives. -/
theorem receive_opening_silent (hs : a.sharing.isSome) (hbody : m.body = .reconstruct s)
    (hact : a.receive sha q m = .ok (t, out)) : out = [] := by
  obtain ⟨b, taken, hq, -, htake, -, rfl⟩ := receive_ok ha hn hact
  rw [hbody] at htake
  obtain ⟨-, rfl, -⟩ := take_reconstruct htake
  obtain ⟨sh, hsh⟩ := Option.isSome_iff_exists.1 hs
  rw [(ha.take hq htake).share_eq_self (by rw [(take_frame htake).1.sharing sh hsh]; rfl)]
  rfl

end

end Moves

section Network
variable {R : Roster} {dealer : ℕ} {g : Generation} {schedule : List (Event Input Message)}

/-- The openings that honest parties have sent, and those that others hold of them, are
their local shares. -/
structure Opened (R : Roster) (W : World (Asks R.n R.f) Message) : Prop where
  told : ∀ p sh s, (W.state p).reconstructStarted = true → (W.state p).sharing = some sh →
    sh.localShare = some s →
      ∀ r < R.n, ⟨p, r, ⟨(W.state p).inst, .reconstruct s⟩⟩ ∈ W.sent
  sent : ∀ p r m s, ⟨p, r, m⟩ ∈ W.sent → m.body = .reconstruct s →
    ∃ sh, (W.state p).sharing = some sh ∧ sh.localShare = some s
  pending : ∀ p q s, R.Honest q → (q, s) ∈ (W.state p).pending.entries →
    ∃ sh, (W.state q).sharing = some sh ∧ sh.localShare = some s

variable {p : ℕ}

section Step
variable {W : World (Asks R.n R.f) Message} {t : Asks R.n R.f}

/-- A move of one party keeps the openings, if it sends its own share when it starts, sends
no other opening, and keeps only openings that were sent to it. -/
theorem Opened.advance (hW : Opened R W) (hkept : Kept (W.state p) t)
    (hstart : t.reconstructStarted = true → (W.state p).reconstructStarted = true ∨
      ∃ sh, (W.state p).sharing = some sh ∧ out = (W.state p).opening sh)
    (hout : ∀ r m s, (r, m) ∈ out → m.body = .reconstruct s →
      ∃ sh, (W.state p).sharing = some sh ∧ sh.localShare = some s)
    (hsharing : t.reconstructStarted = true → (W.state p).sharing.isSome)
    (hpending : ∀ q s, R.Honest q → (q, s) ∈ t.pending.entries →
      (q, s) ∈ (W.state p).pending.entries ∨
        ∃ m : Message, m.body = .reconstruct s ∧ ⟨q, p, m⟩ ∈ W.sent) :
    Opened R (W.advance p t out) := by
  have hlift : ∀ q s, (∃ sh, (W.state q).sharing = some sh ∧ sh.localShare = some s) →
      ∃ sh, ((W.advance p t out).state q).sharing = some sh ∧ sh.localShare = some s :=
    fun q s ⟨sh, hsh, hlocal⟩ => ⟨sh, advance_kept (hkept.sharing sh) hsh, hlocal⟩
  constructor
  case told =>
    refine W.forall_advance (P := fun q a => ∀ sh s, a.reconstructStarted = true →
      a.sharing = some sh → sh.localShare = some s →
        ∀ r < R.n, ⟨q, r, ⟨a.inst, .reconstruct s⟩⟩ ∈ (W.advance p t out).sent) ?_ ?_
    · intro sh s hstarted hsh hs r hr
      obtain ⟨sh', hsh'⟩ := Option.isSome_iff_exists.1 (hsharing hstarted)
      obtain rfl : sh' = sh := Option.some.inj ((hkept.sharing sh' hsh').symm.trans hsh)
      rw [mem_advance_sent, hkept.inst]
      rcases hstart hstarted with hold | ⟨sh'', hsh'', rfl⟩
      · exact .inl (hW.told p sh' s hold hsh' hs r hr)
      · obtain rfl : sh' = sh'' := Option.some.inj (hsh'.symm.trans hsh'')
        exact .inr ⟨rfl, mem_opening.2 ⟨s, hs, hr, rfl, rfl⟩⟩
    · intro q sh s hstarted hsh hs r hr
      exact mem_advance_sent.2 (.inl (hW.told q sh s hstarted hsh hs r hr))
  case sent =>
    intro q r m s hm hs
    rcases mem_advance_sent.1 hm with hm | ⟨rfl, hmem⟩
    · exact hlift q s (hW.sent q r m s hm hs)
    · exact hlift q s (hout r m s hmem hs)
  case pending =>
    intro p' q s hq hmem
    refine hlift q s ?_
    obtain rfl | hne := eq_or_ne p' p
    · rw [advance_state_self] at hmem
      rcases hpending q s hq hmem with hold | ⟨m, hbody, hsent⟩
      · exact hW.pending p' q s hq hold
      · exact hW.sent q p' m s hsent hbody
    · exact hW.pending p' q s hq (advance_state_ne hne ▸ hmem)

end Step

variable (hn : R.n ≤ 16)
include hn

theorem run_opened : Opened R (outcome sha R dealer g schedule) := by
  refine (run_invariant (P := fun W => (∀ p, Sound sha (W.state p)) ∧ Opened R W)
    ⟨fun p => sound_fresh sha R.n R.f p dealer g, ?_⟩ ?_ schedule).2
  · constructor <;> simp [beginning, start, fresh, empty]
  · rintro W e t out ⟨hsound, hW⟩ hpos hact
    obtain ⟨ht, -, hkept⟩ := handle_sound hn (hsound e.party) hact
    refine ⟨W.forall_advance (P := fun _ a => Sound sha a) ht hsound, ?_⟩
    rcases handle_cases hact with ⟨p, c, rfl, rfl, h⟩ | ⟨p, rfl, h⟩ | ⟨p, q, m, rfl, h⟩
    · refine hW.advance hkept .inl ?_ (hsound p).started fun q s _ hmem => .inl hmem
      obtain ⟨-, -, rfl⟩ := dealerWithCoefficients_ok h
      intro r m s hm hs
      rcases mem_append.1 hm with hm | hm
      · obtain ⟨i, -, hi⟩ := mem_map.1 hm
        rw [← (Prod.mk.inj hi).2] at hs
        cases hs
      · have hbody := (mem_all.1 hm).2.2
        rw [mem_singleton, hs] at hbody
        cases hbody
    · obtain ⟨sh, hsh, ⟨hold, rfl, rfl⟩ | ⟨-, hmoved, rfl⟩⟩ :=
        startReconstruction_ok (hsound p) hn h
      · have hsome : (W.state p).sharing.isSome := by rw [hsh]; rfl
        exact hW.advance hkept .inl (by simp)
          (fun _ => hsome) fun q s _ hmem => .inl hmem
      · have hsome : (W.state p).sharing.isSome := by rw [hsh]; rfl
        refine hW.advance hkept (fun _ => .inr ⟨sh, hsh, rfl⟩) ?_ (fun _ => hsome) ?_
        · intro r m s hm hs
          obtain ⟨s', hs', -, -, hbody⟩ := mem_opening.1 hm
          rw [hs, Body.reconstruct.injEq] at hbody
          exact ⟨sh, hsh, by rw [hs', hbody]⟩
        · intro q s _ hmem
          rw [hmoved.pending] at hmem
          exact .inl hmem
    · obtain ⟨hstarted, hbody⟩ := receive_no_opening (hsound p) hn h
      refine hW.advance hkept (fun hs => .inl (hstarted ▸ hs)) ?_ ?_ ?_
      · exact fun r m' s hm hs => absurd hs (hbody r m' s hm)
      · exact fun hs => (hsound p).started (hstarted ▸ hs)
      · intro q' s hq' hmem
        rcases receive_pending (hsound p) hn h hmem with hold | ⟨rfl, hm⟩
        · exact .inl hold
        · refine .inr ⟨m, hm, ?_⟩
          rcases hpos.2 with hfaulty | hsent
          · exact absurd hfaulty hq'.2
          · exact hsent

/-- More than `f` honest parties hold a share that matches the commitments of a complete
sharing. -/
theorem exists_accepted {sh : SharingOutput}
    (hsh : ((outcome sha R dealer g schedule).state p).sharing = some sh) :
    ∃ S : Finset ℕ, R.f < S.card ∧ ∀ q ∈ S, R.Honest q ∧
      ∃ s, ((outcome sha R dealer g schedule).state
          q).acceptedShare = some s ∧
        h sha (instanceOf sha R.n R.f dealer g) (q + 1) s = sh.commitments.getD q [] := by
  obtain ⟨V, hshows, hV, -⟩ := Bracha.backed_part (raPart sha R.f hn)
    (fun p => fresh sha R.n R.f p dealer g) (fun p => sound_fresh sha R.n R.f p dealer g)
    (fun p => (rfl : (fresh sha R.n R.f p dealer g).ra = .new R.n R.f none)) schedule
  have hagreed : (V.state p).output = some [1] := by
    rw [hshows.state p]
    exact (run_sound hn p).agreed (by rw [hsh]; rfl)
  obtain ⟨Q, hQ, hback⟩ := hV.output_echoed hagreed
  refine ⟨Q \ R.faulty, hQ.honest_card, fun q hq => ?_⟩
  obtain ⟨hmem, hout⟩ := Finset.mem_sdiff.1 hq
  have hhonest : R.Honest q := ⟨Finset.mem_range.1 (hQ.subset hmem), hout⟩
  have hecho := hback q hmem hhonest
  rw [hshows.state q] at hecho
  have hsound : Sound sha ((outcome sha R dealer g schedule).state q) := run_sound hn q
  have hra : ((outcome sha R dealer g schedule).state q).ra.echoSent = some [1] := hecho
  obtain ⟨s, hs⟩ := Option.isSome_iff_exists.1 (hsound.echoed.symm.trans (by rw [hra]; rfl))
  refine ⟨hhonest, s, hs, ?_⟩
  obtain ⟨c, hc, hmatch⟩ := hsound.accepted s hs
  obtain ⟨v, hv, -, hcv⟩ := commits_eq_some.1 hc
  obtain ⟨w, hw, -, hcw⟩ := commits_eq_some.1 ((run_sound hn p).commits sh hsh)
  have heq : c = sh.commitments := by rw [← hcv, ← hcw, rbc_agreement hn hv hw]
  have hkept : Kept (fresh sha R.n R.f q dealer g) ((outcome sha R dealer g schedule).state q) :=
    run_kept hn q
  rw [hkept.inst, hkept.me, heq] at hmatch
  exact hmatch

/-- Once the honest openings are delivered, every honest party that opens the key has it. -/
theorem key_isSome (hp : R.Honest p)
    (hquiet : (beginning sha R dealer g).Quiet R (machine sha R.n R.f) schedule)
    (hstarted : ∀ q, R.Honest q → ((outcome sha R dealer g schedule).state q).reconstructStarted =
      true) :
    ((outcome sha R dealer g schedule).state p).key.isSome := by
  have hopened : Opened R (outcome sha R dealer g schedule) := run_opened hn
  have hsound : ∀ q, Sound sha ((outcome sha R dealer g schedule).state q) := run_sound hn
  have hsettled : Settled sha ((outcome sha R dealer g schedule).state p) := run_settled hn p
  have hkept : ∀ q, Kept (fresh sha R.n R.f q dealer g)
      ((outcome sha R dealer g schedule).state q) := run_kept hn
  obtain ⟨sh, hsh⟩ := Option.isSome_iff_exists.1 ((hsound p).started (hstarted p hp))
  obtain ⟨S, hcard, hS⟩ := exists_accepted hn hsh
  -- Each of the honest parties that hold a matching share is among the valid ones of `p`.
  have hvalid : ∀ q ∈ S, ((outcome sha R dealer g schedule).state p).valid.contains q = true := by
    intro q hq
    obtain ⟨hhonest, s, hs, hmatch⟩ := hS q hq
    obtain ⟨sh', hsh'⟩ := Option.isSome_iff_exists.1 ((hsound q).started (hstarted q hhonest))
    have hlocal : sh'.localShare = some s := ((hsound q).frozen sh' hsh').1.trans hs
    have hsent := hopened.told q sh' s (hstarted q hhonest) hsh' hlocal p hp.1
    have hheld : (_ || _) = true := (hquiet _ hsent hhonest hp).lasting
      (P := fun a => (a.pending.contains q || a.valid.contains q) = true)
      (L := fun a => Sound sha a ∧ a.inst = instanceOf sha R.n R.f dealer g) hp
      (fun p => ⟨sound_fresh sha R.n R.f p dealer g, rfl⟩)
      (fun a e t out ha hact => ⟨(handle_sound hn ha.1 hact).1,
        (handle_sound hn ha.1 hact).2.2.inst.trans ha.2⟩)
      (fun a t out ha hact => receive_held ha.1 hn rfl hact)
      (fun a e ha hact => ?_)
      (fun a e t out ha hheld hact => (handle_sound hn ha.1 hact).2.2.held q hheld)
    · rcases Bool.or_eq_true_iff.1 hheld with hpending | hvalid
      · obtain ⟨s', hs'⟩ := contains_iff.1 hpending
        have hmem := get?_eq_some.1 hs'
        obtain ⟨sh'', hsh'', hlocal'⟩ := hopened.pending p q s' hhonest hmem
        obtain rfl : sh' = sh'' := Option.some.inj (hsh'.symm.trans hsh'')
        obtain rfl : s = s' := Option.some.inj (hlocal.symm.trans hlocal')
        refine hsettled.counted (hstarted p hp) sh hsh (q, s) hmem ?_
        rw [(hkept p).inst]
        exact hmatch
      · exact hvalid
    · obtain ⟨t, out, hok⟩ := receive_opening_ok ha.1 hn hhonest.1
        ((hsound q).accepted_words s hs)
      rw [ha.2, ← show _ = instanceOf sha R.n R.f dealer g from (hkept q).inst] at hok
      exact absurd (hact.symm.trans hok) (by simp)
  have hsub : S ⊆ ((outcome sha R dealer g schedule).state p).valid.keys.toFinset := by
    intro q hq
    obtain ⟨s, hs⟩ := contains_iff.1 (hvalid q hq)
    rw [mem_toFinset]
    exact mem_map.2 ⟨(q, s), get?_eq_some.1 hs, rfl⟩
  refine hsettled.keyed (hstarted p hp) ?_
  calc R.f < S.card := hcard
    _ ≤ _ := Finset.card_le_card hsub
    _ = _ := toFinset_card_of_nodup (keys_nodup _)
    _ = _ := by rw [OrderedMap.keys, length_map]

/-- The openings of parties that have all started change no state but theirs. -/
theorem flood_openings {W : World (Asks R.n R.f) Message}
    (hsound : ∀ p, Sound sha (W.state p))
    (hstarted : ∀ p, R.Honest p → (W.state p).reconstructStarted = true) (count : ℕ) {k : ℕ}
    (hopen : ∀ x ∈ W.sent.drop k, ∃ s, x.message.body = .reconstruct s) :
    (W.flood R (machine sha R.n R.f) count k).sent = W.sent ∧ ∀ p, R.Honest p →
      ((W.flood R (machine sha R.n R.f) count k).state p).reconstructStarted = true := by
  induction count generalizing W k with
  | zero => exact ⟨rfl, hstarted⟩
  | succ count ih =>
    unfold flood
    cases hx : W.sent[k]? with
    | none => exact ⟨rfl, hstarted⟩
    | some x =>
      obtain ⟨s, hs⟩ := hopen x (mem_of_getElem? (i := 0) (by rw [getElem?_drop, ← hx]; rfl))
      have hrest : ∀ y ∈ W.sent.drop (k + 1), ∃ s, y.message.body = .reconstruct s := by
        intro y hy
        rw [← drop_drop] at hy
        exact hopen y (mem_of_mem_drop hy)
      dsimp only
      rcases W.step_cases (R := R) (M := machine sha R.n R.f)
        (.deliver x.recipient x.sender x.message) with h | ⟨t, out, hpos, hact, h⟩
      · rw [h]
        exact ih hsound hstarted hrest
      · have hstart := hstarted _ hpos.honest
        obtain ⟨ht, -, hkept⟩ := handle_sound hn (hsound x.recipient) hact
        obtain rfl := receive_opening_silent (hsound x.recipient) hn
          ((hsound _).started hstart) hs hact
        have hsent : (W.advance x.recipient t []).sent = W.sent := by simp [World.advance]
        rw [h]
        rw [← hsent] at hrest ⊢
        exact ih (W.forall_advance (P := fun _ a => Sound sha a) ht hsound)
          (W.forall_advance (P := fun p a => R.Honest p → a.reconstructStarted = true)
            (fun _ => hkept.started hstart) hstarted) hrest

/-- Parties that have all started to open the key come to rest when the openings arrive. -/
theorem exists_quiet {k : ℕ}
    (hstarted : ∀ p, R.Honest p →
      ((outcome sha R dealer g schedule).state p).reconstructStarted = true)
    (hopen : ∀ x ∈ (outcome sha R dealer g schedule).sent.drop k,
      ∃ s, x.message.body = .reconstruct s)
    (hdelivered : ∀ x ∈ (outcome sha R dealer g schedule).sent.take k,
      (beginning sha R dealer g).Delivered R (machine sha R.n R.f) schedule x) :
    ∃ later, (beginning sha R dealer g).Quiet R (machine sha R.n R.f) (schedule ++ later) ∧
      ∀ p, R.Honest p →
        ((outcome sha R dealer g (schedule ++ later)).state p).reconstructStarted = true := by
  obtain ⟨later, hlater, hall⟩ :=
    exists_flood (outcome sha R dealer g schedule).sent.length schedule hdelivered
  obtain ⟨hsent, hstill⟩ := flood_openings hn (run_sound hn) hstarted
    (outcome sha R dealer g schedule).sent.length hopen
  refine ⟨later, fun x hx _ _ => hall x ?_, fun p hp => ?_⟩
  · rwa [take_of_length_le]
    rw [hlater, hsent]
    exact Nat.le_add_left ..
  · rw [outcome, hlater]
    exact hstill p hp

omit hn in
/-- A sharing that one honest party has completed has more than `f` honest holders of
matching shares; and once all honest parties have started to open the key and their messages
are delivered, all of them have the key. -/
theorem sharing_complete (hn : R.n ≤ 16) (sha : Wire.Digest) (dealer : ℕ) (g : Generation)
    (schedule : List (Event Input Message)) :
    let W := outcome sha R dealer g schedule
    (∀ p sh, R.Honest p → (W.state p).sharing = some sh →
        ∃ S : Finset ℕ, R.f + 1 ≤ S.card ∧ ∀ q ∈ S, R.Honest q ∧
          ∃ s, (W.state q).acceptedShare = some s ∧
            h sha (W.state q).inst (q + 1) s = sh.commitments.getD q []) ∧
      ((beginning sha R dealer g).Quiet R (machine sha R.n R.f) schedule →
        (∀ q, R.Honest q → (W.state q).reconstructStarted = true) →
          ∀ p, R.Honest p → (W.state p).key.isSome) := by
  intro W
  constructor
  · intro p sh _ hsh
    obtain ⟨S, hcard, hS⟩ := exists_accepted hn hsh
    refine ⟨S, hcard, fun q hq => ?_⟩
    obtain ⟨hhonest, s, hs, hmatch⟩ := hS q hq
    refine ⟨hhonest, s, hs, ?_⟩
    rw [show (W.state q).inst = instanceOf sha R.n R.f dealer g from (run_kept hn q).inst]
    exact hmatch
  · intro hquiet hstarted p hp
    exact key_isSome hn hp hquiet hstarted

omit hn in
/-- Whatever the dealer and the other faulty parties do, honest parties that set the key
hold the same one; and the key of an honest dealer's sharing is the one it dealt. -/
theorem key_agreement (hn : R.n ≤ 16) (hbind : Binding sha (instanceOf sha R.n R.f dealer g))
    (schedule : List (Event Input Message)) :
    let W := outcome sha R dealer g schedule
    (∀ p q k k', R.Honest p → R.Honest q → (W.state p).key = some k →
        (W.state q).key = some k' → k = k') ∧
      (R.Honest dealer → ∀ p k, R.Honest p → (W.state p).key = some k →
        ∃ c, .input dealer (.deal c) ∈ schedule ∧ (W.state dealer).dealerKey sha c = .ok k) := by
  intro W
  have hinst : ∀ p, (W.state p).inst = instanceOf sha R.n R.f dealer g := fun p =>
    (run_kept hn p).inst
  constructor
  · intro p q k k' hp hq hk hk'
    refine (run_sound hn p).key_eq (run_sound hn q) hn ?_ ?_ ?_ hk hk'
    · rw [hinst, hinst]
    · rwa [hinst]
    · exact fun v w hv hw => rbc_agreement hn hv hw
  · intro hd p k hp hk
    obtain ⟨sh, -, hsh, -⟩ := (run_sound hn p).key k hk
    obtain ⟨v, hv, -⟩ := commits_eq_some.1 ((run_sound hn p).commits sh hsh)
    obtain ⟨c, hc, hdim, rfl⟩ := output_of_deal hn hd hv
    refine ⟨c, hc, ?_⟩
    have hkey : h sha (W.state p).inst 0 (c.map fun p => p.getD 0 0) = k := by
      refine (run_sound hn p).key_deal hn ?_ hdim (fun w hw => ?_) hk
      · rwa [hinst]
      · rw [hinst]
        exact rbc_agreement hn hw hv
    rw [dealerKey, hdim, Bool.not_true, refuseIf_false, ok_bind, pure_eq_ok, ← hkey, hinst, hinst]

end Network

/-- A faulty dealer deals constant polynomials to the honest parties of four. -/
def constantDeal : List (Event Input Message) :=
  (range 3).flatMap fun p => [.privateShare [1, 0],
    .commit (.init (replicate 4 (h lastBytes [] 1 [1, 0])).flatten)].map fun b =>
      .deliver p 3 ⟨instanceOf lastBytes 4 1 3 firstGeneration, b⟩

/-- The honest parties of four start to open the key. -/
def opens : List (Event Input Message) := (range 3).map fun p => .input p .startReconstruction

/-- Four parties after a deal, when everything sent has arrived, the honest parties have
started to open the key, and everything but the openings has arrived again. -/
def openingRun : World (Asks fourParties.n fourParties.f) Message :=
  let M := machine lastBytes fourParties.n fourParties.f
  let shared :=
    (outcome lastBytes fourParties 3 firstGeneration constantDeal).flood fourParties M 48 0
  (shared.run fourParties M opens).flood fourParties M 48 0

set_option maxRecDepth 20000 in
theorem openingRun_openings :
    (∀ p < 3, (openingRun.state p).reconstructStarted = true) ∧
      ∀ x ∈ openingRun.sent.drop 48, x.message =
        ⟨instanceOf lastBytes 4 1 3 firstGeneration, .reconstruct [1, 0]⟩ := by
  decide +kernel

theorem lt_of_honest {p : ℕ} (hp : fourParties.Honest p) : p < 3 := by
  have hne : p ≠ 3 := fun h => hp.2 (Finset.mem_singleton.2 h)
  have hlt : p < 4 := hp.1
  omega

/-- Four parties can be brought to open the key, with nothing left to deliver. -/
theorem exists_opened : ∃ schedule,
    (beginning lastBytes fourParties 3 firstGeneration).Quiet fourParties
        (machine lastBytes fourParties.n fourParties.f) schedule ∧
      ∀ p, fourParties.Honest p →
        ((outcome lastBytes fourParties 3 firstGeneration schedule).state p).reconstructStarted =
          true := by
  obtain ⟨hstarted, hopen⟩ := openingRun_openings
  have arrive (schedule : List (Event Input Message)) := exists_flood (R := fourParties)
    (M := machine lastBytes fourParties.n fourParties.f)
    (W := beginning lastBytes fourParties 3 firstGeneration) 48 (k := 0) schedule (by simp)
  obtain ⟨shared, hshared, -⟩ := arrive constantDeal
  obtain ⟨again, hagain, hdelivered⟩ := arrive (constantDeal ++ shared ++ opens)
  rw [run_append _ _ opens, hshared] at hagain
  change _ = openingRun at hagain
  obtain ⟨last, hquiet, hstill⟩ := exists_quiet (R := fourParties) (by decide)
    (fun p hp => by rw [outcome, hagain]; exact hstarted p (lt_of_honest hp))
    (fun x hx => by
      rw [outcome, hagain] at hx
      exact ⟨_, congrArg Message.body (hopen x hx)⟩) hdelivered
  exact ⟨_, hquiet, hstill⟩

/-- In a run of four parties that ends quiet, all honest ones have the key. -/
theorem sharing_complete_fourParties : ∃ schedule,
    (beginning lastBytes fourParties 3 firstGeneration).Quiet fourParties
        (machine lastBytes fourParties.n fourParties.f) schedule ∧
      ∀ p, fourParties.Honest p →
        ((outcome lastBytes fourParties 3 firstGeneration schedule).state p).key.isSome := by
  obtain ⟨schedule, hquiet, hstarted⟩ := exists_opened
  exact ⟨schedule, hquiet, (sharing_complete (R := fourParties) (by decide) lastBytes 3
    firstGeneration schedule).2 hquiet hstarted⟩

/-- In this run all honest parties have set the key, and they hold the same. -/
theorem key_agreement_fourParties : ∃ schedule,
    let W := outcome lastBytes fourParties 3 firstGeneration schedule
    (∀ p, fourParties.Honest p → (W.state p).key.isSome) ∧
      ∀ p q k k', fourParties.Honest p → fourParties.Honest q → (W.state p).key = some k →
        (W.state q).key = some k' → k = k' := by
  obtain ⟨schedule, hquiet, hstarted⟩ := exists_opened
  exact ⟨schedule, fun p hp => key_isSome (by decide) hp hquiet hstarted,
    (key_agreement (by decide) (binding_lastBytes _) schedule).1⟩

end MiniDregg.PrivateBackend.Asks
