import MiniDregg.PrivateBackend.PrivateSendRuns

/-!
# What a private delivery guarantees

No share of an honest party is disclosed to a receiver that no honest party has
requested. All honest receivers that deliver hold the same plaintext, which is
the dealer's if the dealer is honest. And no honest party ever refuses a step
because the sharing inside it would have let a message out.
-/

namespace MiniDregg.PrivateBackend.PrivateSend

open Arith MiniDregg.Network Store Fallible World List Asks

variable {out : List (ℕ × Message)} {n f : ℕ} {sha : Wire.Digest} {s t : PrivateSend n f}
  {e : Event Input Message}

section Runs
variable {R : Roster} {dealer : ℕ} {g : Generation} {length : ℕ}
  {schedule : List (Event Input Message)}

/-- All parties before the delivery of a dealer. -/
def beginning (sha : Wire.Digest) (R : Roster) (dealer : ℕ) (g : Generation) (length : ℕ) :
    World (PrivateSend R.n R.f) Message :=
  .start fun p => fresh sha R.n R.f p dealer g length

/-- All parties after a schedule. -/
abbrev outcome (sha : Wire.Digest) (R : Roster) (dealer : ℕ) (g : Generation) (length : ℕ)
    (schedule : List (Event Input Message)) : World (PrivateSend R.n R.f) Message :=
  (beginning sha R dealer g length).run R (machine sha R.n R.f) schedule

variable (hn : R.n ≤ 16)
include hn

theorem run_sound (p : ℕ) : Sound sha ((outcome sha R dealer g length schedule).state p) :=
  run_local (fun p => sound_fresh sha R.n R.f p dealer g length)
    (fun _ _ _ _ hs hact => (handle_sound hn hs hact).1) schedule p

theorem run_kept (p : ℕ) : Kept (fresh sha R.n R.f p dealer g length)
    ((outcome sha R dealer g length schedule).state p) :=
  run_related (W := beginning sha R dealer g length) (L := Sound sha) (r := Kept) Kept.refl
    (fun _ _ _ => Kept.trans) (fun p => sound_fresh sha R.n R.f p dealer g length)
    (fun _ _ _ _ hs hact => handle_sound hn hs hact) schedule p

variable {r p : ℕ} {m : Message}

omit hn in
/-- What stands behind a message of an honest party. -/
def Backed (schedule : List (Event Input Message)) (W : World (PrivateSend R.n R.f) Message)
    (p r : ℕ) : Body → Prop
  | .transfer i _ => i = r ∧ i ∈ (W.state p).authorized
  | .key m => isOpening m = false
  | .request i j (.init _) => j = p ∧ .input p (.requestDelivery i) ∈ schedule
  | _ => True

/-- Nothing is sent that is not backed. -/
theorem sends_backed {W : World (PrivateSend R.n R.f) Message} {t : PrivateSend R.n R.f} {b : Body}
    (he : e ∈ schedule)
    (hs : Sound sha (W.state e.party)) (hme : (W.state e.party).me = e.party)
    (hsend : Sends sha (W.state e.party) t e r b) :
    Backed schedule (W.advance e.party t out) e.party r b := by
  cases hsend with
  | dealt x c key ps hps hkey hdeal hevent b hb =>
    rcases hb with ⟨m, hm, rfl⟩ | rfl
    · obtain ⟨-, -, rfl⟩ := dealerWithCoefficients_ok hps
      rcases mem_append.1 hm with hm | hm
      · obtain ⟨i, -, hi⟩ := mem_map.1 hm
        rw [← (Prod.mk.inj hi).2]
        rfl
      · have hbody := (Asks.mem_all.1 hm).2.2
        rw [mem_singleton] at hbody
        exact isOpening_eq_false.2 fun share => by simp [hbody]
    · trivial
  | asked p receiver hevent =>
    refine ⟨hme, ?_⟩
    subst hevent
    exact he
  | passed p q m m' k ps hevent hm hopening hk m'' hmem =>
    obtain ⟨-, hbody⟩ := receive_no_opening hs.key hn hk
    exact isOpening_eq_false.2 fun share => hbody r m'' share hmem
  | cipher p q m b hevent hm b' hmem => trivial
  | echoed p q i j m b hevent hm b' hmem =>
    cases b' with
    | init v =>
      exact absurd hmem (((W.state e.party).requests i j).receive_move q b |>.no_init v)
    | echo | ready => trivial
  | transferred share hr =>
    refine ⟨rfl, ?_⟩
    rw [advance_state_self]
    exact hr

/-- Every message of an honest party is backed at all later times. -/
theorem run_backed (hm : ⟨p, r, m⟩ ∈ (outcome sha R dealer g length schedule).sent) :
    Backed schedule (outcome sha R dealer g length schedule) p r m.body := by
  refine (run_invariant_of_mem (P := fun W : World (PrivateSend R.n R.f) Message =>
    (∀ p, Sound sha (W.state p) ∧ (W.state p).me = p) ∧
      ∀ p r m, ⟨p, r, m⟩ ∈ W.sent → Backed schedule W p r m.body) ?_ schedule ?_).2 p r m hm
  · exact ⟨fun p => ⟨sound_fresh sha R.n R.f p dealer g length, rfl⟩,
      nofun⟩
  · rintro W e t out he ⟨hlocal, hbacked⟩ - hact
    obtain ⟨hs, hme⟩ := hlocal e.party
    obtain ⟨ht, hkept⟩ := handle_sound hn hs hact
    refine ⟨W.forall_advance (P := fun p s => Sound sha s ∧ s.me = p)
      ⟨ht, hkept.me.trans hme⟩ hlocal, fun p r m hm => ?_⟩
    rcases mem_advance_sent.1 hm with hold | ⟨rfl, hnew⟩
    · have hauth : ∀ q, (W.state q).authorized ⊆ ((W.advance e.party t out).state q).authorized :=
        W.forall_advance (P := fun q s => (W.state q).authorized ⊆ s.authorized)
          hkept.authorized fun _ => Finset.Subset.refl _
      have hb := hbacked p r m hold
      cases hbody : m.body with
      | transfer i share =>
        rw [hbody] at hb
        exact ⟨hb.1, hauth p hb.2⟩
      | key m' => rwa [hbody] at hb
      | cipher b => trivial
      | request i j b =>
        rw [hbody] at hb
        cases b with
        | init v => exact hb
        | echo | ready => trivial
    · exact sends_backed hn he hs hme (handle_sends hn hs hact hnew)

omit hn in
/-- An honest party transfers its share to a receiver only, and to none that no honest party
has requested; and none sends an opening of the sharing. -/
theorem delivery_gate (hn : R.n ≤ 16) (sha : Wire.Digest) (dealer : ℕ) (g : Generation)
    (length : ℕ) (schedule : List (Event Input Message)) :
    let W := outcome sha R dealer g length schedule
    (∀ p r m i share, ⟨p, r, m⟩ ∈ W.sent → m.body = .transfer i share →
        i = r ∧ ∃ j, R.Honest j ∧ .input j (.requestDelivery i) ∈ schedule) ∧
      ∀ p r m m' share, ⟨p, r, m⟩ ∈ W.sent → m.body = .key m' →
        m'.body ≠ .reconstruct share := by
  intro W
  constructor
  · intro p r m i share hm hbody
    have hb := run_backed hn hm
    rw [hbody] at hb
    -- More than `f` requests are known, so one of an honest party is.
    have hmany := (run_sound hn p).authorized i hb.2
    obtain ⟨j, hj, hhonest⟩ := Roster.exists_honest (Finset.filter_subset _ _) hmany
    obtain ⟨q, m₀, hm₀, hunwrap⟩ := Bracha.part_output_init (requestPart i j sha R.f hn) _
      (fun p => sound_fresh sha R.n R.f p dealer g length) (fun _ => rfl) schedule
      (Finset.mem_filter.1 hj).2 hhonest rfl
    have hb₀ := run_backed hn hm₀
    refine ⟨hb.1, j, hhonest, ?_⟩
    change unwrapRequest i j m₀ = some (.init [1]) at hunwrap
    unfold unwrapRequest at hunwrap
    split at hunwrap
    next i' j' b heq =>
      split_ifs at hunwrap with hij
      cases hunwrap
      rw [heq, hij.1] at hb₀
      exact hb₀.2
    next => cases hunwrap
  · intro p r m m' share hm hbody hopen
    have hb := run_backed hn hm
    rw [hbody] at hb
    exact isOpening_eq_false.1 hb share hopen

omit hn in
/-- What a faulty dealer sends to one of four parties: a ciphertext, a share that matches for
two of them, commitments that no polynomial meets, and its voice for the agreement. -/
def forgedDeal (p : ℕ) : List Body :=
  let inst := (fresh lastBytes 4 1 p 3 firstGeneration 2).key.inst
  let commitments := replicate 32 0 ++ h lastBytes [] 2 [1, 2] ++ h lastBytes [] 3 [3, 4] ++
    replicate 32 0
  [.cipher (.init [7, 9]), .key ⟨inst, .privateShare (if p = 1 then [1, 2] else [3, 4])⟩,
    .key ⟨inst, .commit (.init commitments)⟩, .key ⟨inst, .ra (.echo [1])⟩]

omit hn in
/-- The forged deal at the honest parties, and two requests for one receiver. -/
def forgedEvents : List (Event Input Message) :=
  ((range 3).flatMap fun p => (forgedDeal p).map fun b =>
      .deliver p 3 ⟨contextOf lastBytes 4 1 3 firstGeneration 2, b⟩) ++
    [.input 0 (.requestDelivery 1), .input 1 (.requestDelivery 1)]

omit hn in
/-- Four parties after a forged deal, when everything sent has arrived. -/
def forgedRun : World (PrivateSend fourParties.n fourParties.f) Message :=
  (outcome lastBytes fourParties 3 firstGeneration 2 forgedEvents).flood fourParties
    (machine lastBytes fourParties.n fourParties.f) 126 0

omit hn in
theorem exists_forgedRun :
    ∃ schedule, outcome lastBytes fourParties 3 firstGeneration 2 schedule = forgedRun := by
  obtain ⟨later, hrun, -⟩ := exists_flood (R := fourParties)
    (M := machine lastBytes fourParties.n fourParties.f)
    (W := beginning lastBytes fourParties 3 firstGeneration 2) 126 (k := 0)
    forgedEvents (by simp)
  exact ⟨_, hrun⟩

omit hn in
set_option maxRecDepth 20000 in
/-- A share is transferred in the run, and the receiver delivers. -/
theorem forgedRun_delivers :
    ⟨2, 1, ⟨contextOf lastBytes 4 1 3 firstGeneration 2, .transfer 1 [3, 4]⟩⟩ ∈ forgedRun.sent ∧
      (forgedRun.state 1).delivered = some [7, 9] := by
  decide +kernel

omit hn in
theorem delivery_gate_fourParties : ∃ schedule,
    let W := outcome lastBytes fourParties 3 firstGeneration 2 schedule
    (∃ m, ⟨2, 1, m⟩ ∈ W.sent ∧ m.body = .transfer 1 [3, 4]) ∧
      ∃ j, fourParties.Honest j ∧ .input j (.requestDelivery 1) ∈ schedule := by
  obtain ⟨schedule, hrun⟩ := exists_forgedRun
  have hsent := hrun ▸ forgedRun_delivers.1
  exact ⟨schedule, ⟨_, hsent, rfl⟩, ((delivery_gate (R := fourParties) (by decide) lastBytes 3
    firstGeneration 2 schedule).1 _ _ _ _ _ hsent rfl).2⟩

section Deals

omit hn in
/-- In this state the event makes the party send a deal of the plaintext. -/
def Deals (sha : Wire.Digest) (s : PrivateSend n f) (e : Event Input Message) (x : Bytes)
    (c : List (List GF128)) : Prop :=
  (∃ moved, s.dealerWithCoefficients sha x c = .ok moved) ∧
    ((∃ p, e = .input p (.deal x c)) ∨
      (∃ p, e = .input p .emitDeal) ∧ s.committedDeal = some (x, c))

omit hn in
/-- Some event of the schedule makes the dealer send a deal of the plaintext. -/
def Dealt (sha : Wire.Digest) (R : Roster) (dealer : ℕ) (g : Generation) (length : ℕ)
    (schedule : List (Event Input Message)) (x : Bytes) (c : List (List GF128)) : Prop :=
  ∃ before e after, schedule = before ++ e :: after ∧ e.party = dealer ∧
    Deals sha ((outcome sha R dealer g length before).state dealer) e x c

variable {c : List (List GF128)} {x k v : Bytes}

omit hn in
theorem dealt_concat :
    Dealt sha R dealer g length (schedule ++ [e]) x c ↔
      Dealt sha R dealer g length schedule x c ∨ e.party = dealer ∧
        Deals sha ((outcome sha R dealer g length schedule).state dealer) e x c := by
  constructor
  · rintro ⟨before, e', after, heq, hparty, hdeals⟩
    rcases eq_nil_or_concat after with rfl | ⟨after, e'', rfl⟩
    · obtain ⟨rfl, hlast⟩ := append_inj' heq rfl
      obtain rfl : e = e' := head_eq_of_cons_eq hlast
      exact .inr ⟨hparty, hdeals⟩
    · rw [concat_eq_append, ← cons_append, ← append_assoc] at heq
      obtain ⟨rfl, -⟩ := append_inj' heq rfl
      exact .inl ⟨before, e', after, rfl, hparty, hdeals⟩
  · rintro (⟨before, e', after, rfl, hparty, hdeals⟩ | ⟨hparty, hdeals⟩)
    · exact ⟨before, e', after ++ [e], by simp, hparty, hdeals⟩
    · exact ⟨schedule, e, [], rfl, hparty, hdeals⟩

omit hn in
/-- The name of the sharing inside the delivery. -/
def instanceOf (sha : Wire.Digest) (n f dealer : ℕ) (g : Generation) (length : ℕ) : Bytes :=
  Asks.instanceOf sha n f dealer (g.derived (contextOf sha n f dealer g length))

omit hn in
/-- The key of a deal. -/
def keyOfDeal (sha : Wire.Digest) (inst : Bytes) (c : List (List GF128)) : Bytes :=
  h sha inst 0 (c.map fun p => p.getD 0 0)

omit hn in
theorem dealerKey_ok {a : Asks n f} (hk : a.dealerKey sha c = .ok k) :
    k = keyOfDeal sha a.inst c := by
  simp only [dealerKey, bind_eq_ok, pure_inj] at hk
  obtain ⟨-, -, rfl⟩ := hk
  rfl

omit hn in
/-- What an honest dealer has dealt: one plaintext at most, and what it has broadcast is of
this deal. -/
structure OneDeal (sha : Wire.Digest) (R : Roster) (dealer : ℕ) (g : Generation) (length : ℕ)
    (schedule : List (Event Input Message)) : Prop where
  started : ∀ x c, Dealt sha R dealer g length schedule x c →
    ((outcome sha R dealer g length schedule).state dealer).started = true
  unique : ∀ x c x' c', Dealt sha R dealer g length schedule x c →
    Dealt sha R dealer g length schedule x' c' → x = x' ∧ c = c'
  commit : ∀ r m v, ⟨dealer, r, m⟩ ∈ (outcome sha R dealer g length schedule).sent →
    unwrapCommit m = some (.init v) → ∃ x c, Dealt sha R dealer g length schedule x c ∧
      Asks.dimensions R.f c = true ∧
        v = Asks.commitmentsOf sha R.n (instanceOf sha R.n R.f dealer g length) c
  cipher : ∀ r m v, ⟨dealer, r, m⟩ ∈ (outcome sha R dealer g length schedule).sent →
    unwrapCipher m = some (.init v) → ∃ x c, Dealt sha R dealer g length schedule x c ∧
      v = mask sha (contextOf sha R.n R.f dealer g length)
        (keyOfDeal sha (instanceOf sha R.n R.f dealer g length) c) x

omit hn in
theorem outcome_concat : outcome sha R dealer g length (schedule ++ [e]) =
    (outcome sha R dealer g length schedule).step R (machine sha R.n R.f) e := by
  rw [outcome, run_append, run_cons, run_nil]

theorem kept_concat (p : ℕ) : Kept ((outcome sha R dealer g length schedule).state p)
    ((outcome sha R dealer g length (schedule ++ [e])).state p) := by
  rw [outcome_concat]
  rcases step_cases (R := R) (M := machine sha R.n R.f)
    (outcome sha R dealer g length schedule) e with h | ⟨t, out, -, hact, h⟩
  · rw [h]
    exact .refl _
  · rw [h]
    exact forall_advance _ (P := fun q s =>
      Kept ((outcome sha R dealer g length schedule).state q) s)
      (handle_sound hn (run_sound hn _) hact).2 (fun _ => .refl _) p

omit hn in
/-- A deal of an honest dealer is carried out, and only once. -/
theorem started_of_deals (hd : R.Honest dealer) (hparty : e.party = dealer)
    (hdeals : Deals sha ((outcome sha R dealer g length schedule).state dealer) e x c) :
    ((outcome sha R dealer g length schedule).state dealer).started = false ∧
      ((outcome sha R dealer g length (schedule ++ [e])).state dealer).started = true := by
  obtain ⟨⟨⟨t, out⟩, hdeal⟩, hevent⟩ := hdeals
  obtain ⟨-, hfree, rfl, -⟩ := deal_ok hdeal
  refine ⟨hfree, ?_⟩
  have hhandle : (machine sha R.n R.f).handle
      ((outcome sha R dealer g length schedule).state e.party) e =
        .ok ({ (outcome sha R dealer g length schedule).state dealer with started := true }, out) := by
    rw [hparty]
    rcases hevent with ⟨p, rfl⟩ | ⟨⟨p, rfl⟩, hc⟩
    · exact hdeal
    · change emitDealer sha _ = _
      rw [emitDealer, hc, okOr_some, ok_bind]
      exact hdeal
  have hpos : e.Possible R (outcome sha R dealer g length schedule) := by
    rcases hevent with ⟨p, rfl⟩ | ⟨⟨p, rfl⟩, -⟩
    · exact hparty ▸ hd
    · exact hparty ▸ hd
  rw [outcome_concat]
  rcases step_of_possible (M := machine sha R.n R.f) hpos with
    ⟨t, out', hact, h⟩ | ⟨⟨x, hact⟩, -⟩
  · rw [hhandle, Except.ok.injEq, Prod.mk.injEq] at hact
    rw [h, ← hact.1, hparty, advance_state_self]
  · cases hhandle.symm.trans hact

theorem sent_concat (hm : ⟨p, r, m⟩ ∈ (outcome sha R dealer g length (schedule ++ [e])).sent) :
    ⟨p, r, m⟩ ∈ (outcome sha R dealer g length schedule).sent ∨
      e.party = p ∧ ∃ t, Sends sha ((outcome sha R dealer g length schedule).state p) t e r m.body := by
  rw [outcome_concat] at hm
  rcases step_cases (R := R) (M := machine sha R.n R.f)
    (outcome sha R dealer g length schedule) e with h | ⟨t, out, -, hact, h⟩
  · rw [h] at hm
    exact .inl hm
  · rw [h, mem_advance_sent] at hm
    rcases hm with hm | ⟨rfl, hnew⟩
    · exact .inl hm
    · exact .inr ⟨rfl, t, handle_sends hn (run_sound hn _) hact hnew⟩

/-- Only a deal sends an INIT of the commitments. -/
theorem Sends.init_commit {s : PrivateSend R.n R.f} {t : PrivateSend R.n R.f}
    (hs : Sound sha s) (hsend : Sends sha s t e r m.body) (hv : unwrapCommit m = some (.init v)) :
    ∃ x c, Deals sha s e x c ∧ Asks.dimensions R.f c = true ∧
      v = Asks.commitmentsOf sha R.n s.key.inst c := by
  generalize hbody : m.body = b at hsend
  cases hsend with
  | dealt x c key ps hps hkey hdeal hevent b hb =>
    refine ⟨x, c, ⟨hdeal, hevent⟩, ?_⟩
    obtain ⟨-, hdim, rfl⟩ := dealerWithCoefficients_ok hps
    refine ⟨hdim, ?_⟩
    rcases hb with ⟨m', hm', rfl⟩ | rfl
    · simp only [unwrapCommit, hbody] at hv
      rcases mem_append.1 hm' with hm' | hm'
      · obtain ⟨i, -, hi⟩ := mem_map.1 hm'
        rw [← (Prod.mk.inj hi).2] at hv
        cases hv
      · have hinit := (Asks.mem_all.1 hm').2.2
        rw [mem_singleton] at hinit
        rw [Asks.unwrapCommit, hinit, Option.some.injEq, PhaseMessage.init.injEq] at hv
        exact hv.symm
    · simp [unwrapCommit, hbody] at hv
  | passed p q m₁ m' k ps hevent hm hopening hk m'' hmem =>
    simp only [unwrapCommit, hbody] at hv
    exact absurd hv (receive_no_init hs.key hn hk hmem v)
  | asked | cipher | echoed | transferred => simp [unwrapCommit, hbody] at hv

omit hn in
/-- Only a deal sends an INIT of the ciphertext. -/
theorem Sends.init_cipher {s : PrivateSend R.n R.f} {t : PrivateSend R.n R.f}
    (hsend : Sends sha s t e r m.body) (hv : unwrapCipher m = some (.init v)) :
    ∃ x c, Deals sha s e x c ∧ v = mask sha s.context (keyOfDeal sha s.key.inst c) x := by
  generalize hbody : m.body = b at hsend
  cases hsend with
  | dealt x c key ps hps hkey hdeal hevent b hb =>
    refine ⟨x, c, ⟨hdeal, hevent⟩, ?_⟩
    rcases hb with ⟨m', -, rfl⟩ | rfl
    · simp [unwrapCipher, hbody] at hv
    · simp only [unwrapCipher, hbody, Option.some.injEq, PhaseMessage.init.injEq] at hv
      rw [← hv, dealerKey_ok hkey]
  | cipher p q m₁ b₁ hevent hm b' hmem =>
    simp only [unwrapCipher, hbody, Option.some.injEq] at hv
    rw [hv] at hmem
    exact absurd hmem ((s.cipher.receive_move q b₁).no_init v)
  | passed | asked | echoed | transferred => simp [unwrapCipher, hbody] at hv

theorem oneDeal (hd : R.Honest dealer) (schedule : List (Event Input Message)) :
    OneDeal sha R dealer g length schedule := by
  induction schedule using List.reverseRecOn with
  | nil =>
    have hnone : ∀ x c, ¬ Dealt sha R dealer g length [] x c := by
      rintro x c ⟨before, e, after, heq, -⟩
      simp at heq
    exact ⟨fun x c h => absurd h (hnone x c), fun x c _ _ h => absurd h (hnone x c),
      nofun, nofun⟩
  | append_singleton schedule e ih =>
    constructor
    case started =>
      intro x c hdealt
      rcases dealt_concat.1 hdealt with hold | ⟨hparty, hnew⟩
      · exact (kept_concat hn dealer).started (ih.started x c hold)
      · exact (started_of_deals hd hparty hnew).2
    case unique =>
      intro x c x' c' hdealt hdealt'
      rcases dealt_concat.1 hdealt with hold | ⟨hparty, hnew⟩
      · rcases dealt_concat.1 hdealt' with hold' | ⟨hparty', hnew'⟩
        · exact ih.unique x c x' c' hold hold'
        · have h := (started_of_deals hd hparty' hnew').1
          rw [ih.started x c hold] at h
          cases h
      · rcases dealt_concat.1 hdealt' with hold' | ⟨hparty', hnew'⟩
        · have h := (started_of_deals hd hparty hnew).1
          rw [ih.started x' c' hold'] at h
          cases h
        · rcases hnew.2 with ⟨p, rfl⟩ | ⟨⟨p, rfl⟩, hc⟩
          · rcases hnew'.2 with ⟨p', heq⟩ | ⟨⟨p', heq⟩, -⟩
            · cases heq
              exact ⟨rfl, rfl⟩
            · cases heq
          · rcases hnew'.2 with ⟨p', heq⟩ | ⟨-, hc'⟩
            · cases heq
            · rw [hc, Option.some.injEq, Prod.mk.injEq] at hc'
              exact hc'
    case commit =>
      intro r m v hm hv
      rcases sent_concat hn hm with hold | ⟨hparty, t, hsend⟩
      · obtain ⟨x, c, hdealt, hrest⟩ := ih.commit r m v hold hv
        exact ⟨x, c, dealt_concat.2 (.inl hdealt), hrest⟩
      · obtain ⟨x, c, hdeals, hdim, rfl⟩ := Sends.init_commit hn (run_sound hn dealer) hsend hv
        refine ⟨x, c, dealt_concat.2 (.inr ⟨hparty, hdeals⟩), hdim, ?_⟩
        rw [(run_kept hn dealer).inst]
        rfl
    case cipher =>
      intro r m v hm hv
      rcases sent_concat hn hm with hold | ⟨hparty, t, hsend⟩
      · obtain ⟨x, c, hdealt, hrest⟩ := ih.cipher r m v hold hv
        exact ⟨x, c, dealt_concat.2 (.inl hdealt), hrest⟩
      · obtain ⟨x, c, hdeals, rfl⟩ := hsend.init_cipher hv
        refine ⟨x, c, dealt_concat.2 (.inr ⟨hparty, hdeals⟩), ?_⟩
        rw [(run_kept hn dealer).inst, (run_kept hn dealer).context]
        rfl

end Deals

end Runs

end MiniDregg.PrivateBackend.PrivateSend
