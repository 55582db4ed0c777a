import MiniDregg.PrivateBackend.PrivateSendLocal

/-!
# Private deliveries under every schedule

The broadcasts of the commitments, of the ciphertext and of each request are
parts of a delivery. A share is disclosed only to a receiver that an honest
party has requested, because more than `f` requests include one of an honest
party, and the broadcast of an honest requester is its own.
-/

namespace MiniDregg.PrivateBackend.PrivateSend

open Arith MiniDregg.Network Store Fallible List Bracha Machine.Does

variable {n f : ℕ} {sha : Wire.Digest} {s t : PrivateSend n f} {out : List (ℕ × Message)}
  {e : Event Input Message}

/-- The kinds of moves of the protocol. -/
inductive Kind (sha : Wire.Digest) (s t : PrivateSend n f) (out : List (ℕ × Message)) :
    Event Input Message → Prop where
  | deal (p : ℕ) (x : Bytes) (c : List (List GF128))
      (h : s.dealerWithCoefficients sha x c = .ok (t, out)) : Kind sha s t out (.input p (.deal x c))
  | commit (p : ℕ) (x : Bytes) (c : List (List GF128)) (hfree : s.committedDeal = none)
      (ht : t = { s with committedDeal := some (x, c) }) (hout : out = []) :
      Kind sha s t out (.input p (.commitDeal x c))
  | emit (p : ℕ) (x : Bytes) (c : List (List GF128)) (hc : s.committedDeal = some (x, c))
      (h : s.dealerWithCoefficients sha x c = .ok (t, out)) : Kind sha s t out (.input p .emitDeal)
  | request (p receiver : ℕ) (h : s.requestDelivery sha receiver = .ok (t, out)) :
      Kind sha s t out (.input p (.requestDelivery receiver))
  | receive (p q : ℕ) (m : Message) (h : s.receive sha q m = .ok (t, out)) :
      Kind sha s t out (.deliver p q m)

theorem handle_kind (hact : (machine sha n f).handle s e = .ok (t, out)) : Kind sha s t out e := by
  cases e with
  | input p i =>
    cases i with
    | deal x c => exact .deal p x c hact
    | commitDeal x c =>
      change s.commitDealer sha x c = .ok (t, out) at hact
      simp only [commitDealer, bind_eq_ok, refuseIf_eq_ok, pure_pair, Option.isSome_eq_false_iff,
        Option.isNone_iff_eq_none] at hact
      obtain ⟨-, hfree, -, -, rfl, rfl⟩ := hact
      exact .commit p x c hfree rfl rfl
    | emitDeal =>
      obtain ⟨⟨x, c⟩, hc, h⟩ := bind_eq_ok.1 hact
      exact .emit p x c (okOr_eq_ok.1 hc) h
    | requestDelivery receiver => exact .request p receiver hact
  | deliver p q m => exact .receive p q m hact

theorem handle_sound (hn : n ≤ 16) (hs : Sound sha s)
    (hact : (machine sha n f).handle s e = .ok (t, out)) : Sound sha t ∧ Kept s t := by
  cases handle_kind hact with
  | deal p x c h | emit p x c hc h => exact hs.deal h
  | commit p x c hfree ht hout =>
    subst ht
    exact ⟨{ hs with }, { Kept.refl s with }⟩
  | request p receiver h =>
    obtain ⟨first, more, hmoved, -⟩ := requestDelivery_ok hs hn h
    have hkept : Kept s { s with requested := insert receiver s.requested } :=
      { Kept.refl s with }
    exact ⟨hmoved.sound, hkept.trans hmoved.kept⟩
  | receive p q m h =>
    obtain ⟨u, taken, more, hq, -, htake, hmoved, -⟩ := receive_ok hs hn h
    exact ⟨hmoved.sound, (hs.take hn hq htake).2.trans hmoved.kept⟩

variable {m : Message} {bodies : List Body} {ps : List (ℕ × Asks.Message)}

section Messages
variable {r : ℕ}

theorem mem_all : (r, m) ∈ s.all bodies ↔ r < n ∧ m.context = s.context ∧ m.body ∈ bodies := by
  obtain ⟨context, body⟩ := m
  simp only [all, mem_toAll, mem_map, Message.mk.injEq]
  constructor
  · rintro ⟨hr, b, hb, rfl, rfl⟩
    exact ⟨hr, rfl, hb⟩
  · rintro ⟨hr, rfl, hb⟩
    exact ⟨hr, body, hb, rfl, rfl⟩

theorem mem_keyPackets :
    (r, m) ∈ s.keyPackets ps ↔ ∃ m', (r, m') ∈ ps ∧ m = ⟨s.context, .key m'⟩ := by
  simp only [keyPackets, mem_map, Prod.exists, Prod.mk.injEq]
  constructor
  · rintro ⟨_, m', hm', rfl, rfl⟩
    exact ⟨m', hm', rfl⟩
  · rintro ⟨m', hm', rfl⟩
    exact ⟨r, m', hm', rfl, rfl⟩

/-- The messages a party sends, by what makes it send them. -/
inductive Sends (sha : Wire.Digest) (s t : PrivateSend n f) (e : Event Input Message) (r : ℕ) :
    Body → Prop where
  | dealt (x : Bytes) (c : List (List GF128)) (key : Bytes) (ps : List (ℕ × Asks.Message))
      (hps : s.key.dealerWithCoefficients sha c = .ok ps)
      (hkey : s.key.dealerKey sha c = .ok key)
      (hdeal : ∃ moved, s.dealerWithCoefficients sha x c = .ok moved)
      (he : (∃ p, e = .input p (.deal x c)) ∨
        (∃ p, e = .input p .emitDeal) ∧ s.committedDeal = some (x, c)) (b : Body)
      (hb : (∃ m, (r, m) ∈ ps ∧ b = .key m) ∨ b = .cipher (.init (mask sha s.context key x))) :
      Sends sha s t e r b
  | asked (p receiver : ℕ) (he : e = .input p (.requestDelivery receiver)) :
      Sends sha s t e r (.request receiver s.me (.init [1]))
  | passed (p q : ℕ) (m : Message) (m' : Asks.Message) (k : Asks n f)
      (ps : List (ℕ × Asks.Message)) (he : e = .deliver p q m) (hm : m.body = .key m')
      (hopening : isOpening m' = false) (hk : s.key.receive sha q m' = .ok (k, ps))
      (m'' : Asks.Message) (hmem : (r, m'') ∈ ps) : Sends sha s t e r (.key m'')
  | cipher (p q : ℕ) (m : Message) (b : PhaseMessage Bytes) (he : e = .deliver p q m)
      (hm : m.body = .cipher b) (b' : PhaseMessage Bytes)
      (hmem : b' ∈ (s.cipher.receive q b).2) : Sends sha s t e r (.cipher b')
  | echoed (p q i j : ℕ) (m : Message) (b : PhaseMessage Bytes) (he : e = .deliver p q m)
      (hm : m.body = .request i j b) (b' : PhaseMessage Bytes)
      (hmem : b' ∈ ((s.requests i j).receive q b).2) : Sends sha s t e r (.request i j b')
  | transferred (share : List GF128) (hr : r ∈ t.authorized) :
      Sends sha s t e r (.transfer r share)

theorem handle_sends (hn : n ≤ 16) (hs : Sound sha s)
    (hact : (machine sha n f).handle s e = .ok (t, out)) (hm : (r, m) ∈ out) :
    Sends sha s t e r m.body := by
  have hdeal : ∀ {x c}, s.dealerWithCoefficients sha x c = .ok (t, out) →
      ((∃ p, e = .input p (.deal x c)) ∨
        (∃ p, e = .input p .emitDeal) ∧ s.committedDeal = some (x, c)) →
      Sends sha s t e r m.body := by
    intro x c h he
    obtain ⟨-, -, -, ps, key, hps, hkey, rfl⟩ := deal_ok h
    refine .dealt x c key ps hps hkey ⟨_, h⟩ he m.body ?_
    rcases mem_append.1 hm with hm | hm
    · obtain ⟨m', hm', rfl⟩ := mem_keyPackets.1 hm
      exact .inl ⟨m', hm', rfl⟩
    · exact .inr (by simpa using (mem_all.1 hm).2.2)
  cases handle_kind hact with
  | deal p x c h => exact hdeal h (.inl ⟨p, rfl⟩)
  | commit p x c hfree ht hout =>
    subst hout
    cases hm
  | emit p x c hc h => exact hdeal h (.inr ⟨⟨p, rfl⟩, hc⟩)
  | request p receiver h =>
    obtain ⟨first, more, hmoved, rfl, hfirst⟩ := requestDelivery_ok hs hn h
    rcases mem_append.1 hm with hm | hm
    · rcases hfirst with rfl | rfl
      · cases hm
      · have hbody := (mem_all.1 hm).2.2
        rw [mem_singleton] at hbody
        rw [hbody]
        exact .asked p receiver rfl
    · obtain ⟨hr, share, hbody⟩ := hmoved.transfers r m hm
      rw [hbody]
      exact .transferred share hr
  | receive p q m' h =>
    obtain ⟨u, taken, more, -, -, htake, hmoved, rfl⟩ := receive_ok hs hn h
    rcases mem_append.1 hm with hm | hm
    · obtain ⟨context, body⟩ := m'
      cases body with
      | key k =>
        obtain ⟨hopening, key, ps, hkey, -, rfl⟩ := take_key htake
        obtain ⟨m'', hm'', rfl⟩ := mem_keyPackets.1 hm
        exact .passed p q _ k key ps rfl rfl hopening hkey m'' hm''
      | cipher b =>
        obtain ⟨-, rfl⟩ := take_cipher htake
        obtain ⟨b', hb', hwrap⟩ := mem_map.1 (mem_all.1 hm).2.2
        rw [← hwrap]
        exact .cipher p q _ b rfl rfl b' hb'
      | request i j b =>
        obtain ⟨-, -, rfl⟩ := take_request htake
        obtain ⟨b', hb', hwrap⟩ := mem_map.1 (mem_all.1 hm).2.2
        rw [← hwrap]
        exact .echoed p q i j _ b rfl rfl b' hb'
      | transfer i share =>
        obtain ⟨-, rfl, -⟩ := take_transfer htake
        cases hm
    · obtain ⟨hr, share, hbody⟩ := hmoved.transfers r m hm
      rw [hbody]
      exact .transferred share hr

end Messages

section Parts

/-- What a message carries for the broadcast of the commitments. -/
def unwrapCommit (m : Message) : Option (PhaseMessage Bytes) :=
  match m.body with
  | .key m' => Asks.unwrapCommit m'
  | _ => none

/-- What a message carries for the broadcast of the ciphertext. -/
def unwrapCipher (m : Message) : Option (PhaseMessage Bytes) :=
  match m.body with
  | .cipher p => some p
  | _ => none

/-- What a message carries for the broadcast of one request. -/
def unwrapRequest (receiver requester : ℕ) (m : Message) : Option (PhaseMessage Bytes) :=
  match m.body with
  | .request i j p => if i = receiver ∧ j = requester then some p else none
  | _ => none

theorem unwrapCommit_key (context : Bytes) (m : Asks.Message) :
    unwrapCommit ⟨context, .key m⟩ = Asks.unwrapCommit m := rfl

theorem unwrapCipher_mk (context : Bytes) (p : PhaseMessage Bytes) :
    unwrapCipher ⟨context, .cipher p⟩ = some p := rfl

theorem unwrapRequest_mk (i j : ℕ) (context : Bytes) (p : PhaseMessage Bytes) :
    unwrapRequest i j ⟨context, .request i j p⟩ = some p := by
  simp [unwrapRequest]

variable {got : Option (ℕ × PhaseMessage Bytes)}

theorem all_map (wrap : PhaseMessage Bytes → Body) (ps : List (PhaseMessage Bytes)) :
    s.all (ps.map wrap) = Bracha.toAll n (ps.map fun p => (⟨s.context, wrap p⟩ : Message)) := by
  rw [all, map_map]
  rfl

variable {unwrap : Message → Option (PhaseMessage Bytes)} {b : Bracha n f Bytes}
  {view : PrivateSend n f → Bracha n f Bytes}

/-- Transfers carry nothing for a broadcast. -/
theorem Moved.rest {C : Machine (Bracha.Input Bytes) (Bracha n f Bytes) (PhaseMessage Bytes)}
    (hm : Moved sha s t out)
    (hunwrap : ∀ context r share, unwrap ⟨context, .transfer r share⟩ = none) :
    C.Does unwrap got b b out := by
  refine .rest fun r m hmem => ?_
  obtain ⟨context, body⟩ := m
  obtain ⟨-, share, rfl⟩ := hm.transfers r _ hmem
  exact hunwrap context r share

/-- What makes a broadcast a part of the delivery: its own operations account for what deals and
requests send and for what the messages do, and everything else leaves it alone. -/
structure Part (sha : Wire.Digest) (unwrap : Message → Option (PhaseMessage Bytes))
    (view : PrivateSend n f → Bracha n f Bytes) (s : PrivateSend n f) : Prop where
  notes : ∀ started committed requested pending, view { s with
    started := started, committedDeal := committed, requested := requested, pending := pending } =
      view s
  moved : ∀ u t more, Moved sha u t more → view t = view u
  transfer : ∀ context r share, unwrap ⟨context, .transfer r share⟩ = none
  dealt : ∀ c ps, s.key.dealerWithCoefficients sha c = .ok ps →
    (Bracha.machine n f Bytes).Does unwrap none (view s) (view s) (s.keyPackets ps)
  masked : ∀ x, (Bracha.machine n f Bytes).Does unwrap none (view s) (view s)
    (s.all [.cipher (.init x)])
  ask : ∀ receiver, (Bracha.machine n f Bytes).Does unwrap none (view s) (view s)
    (s.all [.request receiver s.me (.init [1])])
  key : ∀ q m k ps, s.key.receive sha q m = .ok (k, ps) →
    (Bracha.machine n f Bytes).Does unwrap ((unwrap ⟨s.context, .key m⟩).map fun p => (q, p))
      (view s)
      (view { s with key := k }) (s.keyPackets ps)
  cipher : ∀ q p, (Bracha.machine n f Bytes).Does unwrap
    ((unwrap ⟨s.context, .cipher p⟩).map fun p => (q, p)) (view s)
    (view { s with cipher := (s.cipher.receive q p).1 })
    (s.all ((s.cipher.receive q p).2.map .cipher))
  request : ∀ q i j p, (Bracha.machine n f Bytes).Does unwrap
    ((unwrap ⟨s.context, .request i j p⟩).map fun p => (q, p)) (view s)
    (view (s.setRequest i j ((s.requests i j).receive q p).1))
    (s.all (((s.requests i j).receive q p).2.map (.request i j)))

theorem Part.does (h : Part sha unwrap view s) (hn : n ≤ 16) (hs : Sound sha s)
    (hact : (machine sha n f).handle s e = .ok (t, out)) :
    (Bracha.machine n f Bytes).Does unwrap (e.carried unwrap) (view s) (view t) out := by
  cases handle_kind hact with
  | deal p x c hdeal | emit p x c hc hdeal =>
    obtain ⟨-, -, rfl, ps, key, hps, -, rfl⟩ := deal_ok hdeal
    rw [h.notes true s.committedDeal s.requested s.pending]
    exact (h.dealt c ps hps).append (h.masked _)
  | commit p x c hfree ht hout =>
    subst ht hout
    rw [h.notes s.started (some (x, c)) s.requested s.pending]
    exact .rest nofun
  | request p receiver hrequest =>
    obtain ⟨first, more, hmove, rfl, hfirst⟩ := requestDelivery_ok hs hn hrequest
    rw [h.moved _ _ _ hmove, h.notes s.started s.committedDeal (insert receiver s.requested) s.pending]
    refine append ?_ (hmove.rest h.transfer)
    rcases hfirst with rfl | rfl
    · exact .rest nofun
    · exact h.ask receiver
  | receive p q m hreceive =>
    obtain ⟨u, taken, more, -, hcontext, htake, hmove, rfl⟩ := receive_ok hs hn hreceive
    rw [h.moved _ _ _ hmove]
    refine append ?_ (hmove.rest h.transfer)
    obtain ⟨context, body⟩ := m
    subst hcontext
    cases body with
    | key m' =>
      obtain ⟨-, key, ps, hkey, rfl, rfl⟩ := take_key htake
      exact h.key q m' key ps hkey
    | cipher b =>
      obtain ⟨rfl, rfl⟩ := take_cipher htake
      exact h.cipher q b
    | request i j b =>
      obtain ⟨-, rfl, rfl⟩ := take_request htake
      exact h.request q i j b
    | transfer i share =>
      obtain ⟨-, rfl, rfl⟩ := take_transfer htake
      rw [h.notes s.started s.committedDeal s.requested (orInsert s.pending q share)]
      exact .rest nofun

/-- A part of the delivery as an embedding of the broadcast. -/
def embedding (sha : Wire.Digest) (hn : n ≤ 16)
    (h : ∀ s : PrivateSend n f, Sound sha s → Part sha unwrap view s) :
    Embedding (machine sha n f) (Bracha.machine n f Bytes) where
  Local := Sound sha
  view := view
  unwrap := unwrap
  course s _ _ _ hs hact := ⟨(handle_sound hn hs hact).1, (h s hs).does hn hs hact⟩

/-- Messages for all parties that carry nothing for a broadcast leave it at rest. -/
theorem rest_all (h : ∀ context, ∀ body ∈ bodies, unwrap ⟨context, body⟩ = none) :
    (Bracha.machine n f Bytes).Does unwrap got b b (s.all bodies) :=
  .rest fun _ m hm => h m.context m.body (mem_all.1 hm).2.2

theorem rest_keyPackets (h : ∀ context m, unwrap ⟨context, .key m⟩ = none) :
    (Bracha.machine n f Bytes).Does unwrap got b b (s.keyPackets ps) := by
  refine .rest fun r m hm => ?_
  obtain ⟨m', -, rfl⟩ := mem_keyPackets.1 hm
  exact h _ m'

theorem commit_part (hn : n ≤ 16) (hs : Sound sha s) : Part sha unwrapCommit (·.key.rbc) s where
  notes _ _ _ _ := rfl
  moved _ _ _ hm := hm.rbc
  transfer _ _ _ := rfl
  dealt _ _ hps := (Asks.deal_does hps : Asks.Does _ none _ _ _).rbc.map
    (unwrapCommit_key s.context)
  masked _ := rest_all fun _ => by simp [unwrapCommit]
  ask _ := rest_all fun _ => by simp [unwrapCommit]
  key _ _ _ _ hkey := (Asks.receive_does hs.key hn hkey).rbc.map (unwrapCommit_key s.context)
  cipher _ _ := rest_all fun _ => by simp [unwrapCommit]
  request _ _ _ _ := rest_all fun _ => by simp [unwrapCommit]

/-- The broadcast of the commitments as a part of the delivery. -/
def commitPart (sha : Wire.Digest) (f : ℕ) (hn : n ≤ 16) :
    Embedding (machine sha n f) (Bracha.machine n f Bytes) :=
  embedding sha hn fun _ => commit_part hn

theorem cipher_part : Part sha unwrapCipher PrivateSend.cipher s where
  notes _ _ _ _ := rfl
  moved _ _ _ hm := hm.cipher
  transfer _ _ _ := rfl
  dealt _ _ _ := rest_keyPackets fun _ _ => rfl
  masked _ := does_broadcast (unwrapCipher_mk s.context) s.cipher _
  ask _ := rest_all fun _ => by simp [unwrapCipher]
  key _ _ _ _ _ := rest_keyPackets fun _ _ => rfl
  cipher q p := by
    rw [all_map]
    exact does_receive (unwrapCipher_mk s.context) s.cipher rfl
  request _ _ _ _ := rest_all fun _ => by simp [unwrapCipher]

/-- The broadcast of the ciphertext as a part of the delivery. -/
def cipherPart (sha : Wire.Digest) (f : ℕ) (hn : n ≤ 16) :
    Embedding (machine sha n f) (Bracha.machine n f Bytes) :=
  embedding sha hn fun _ _ => cipher_part

theorem request_part (i j : ℕ) : Part sha (unwrapRequest i j) (·.requests i j) s where
  notes _ _ _ _ := rfl
  moved _ _ _ hm := congrFun (congrFun hm.requests i) j
  transfer _ _ _ := rfl
  dealt _ _ _ := rest_keyPackets fun _ _ => rfl
  masked _ := rest_all fun _ => by simp [unwrapRequest]
  ask receiver := by
    by_cases hij : receiver = i ∧ s.me = j
    · rw [hij.1, hij.2]
      exact does_broadcast (unwrapRequest_mk i j s.context) (s.requests i j) [1]
    · exact rest_all fun _ => by simp [unwrapRequest, hij]
  key _ _ _ _ _ := rest_keyPackets fun _ _ => rfl
  cipher _ _ := rest_all fun _ => by simp [unwrapRequest]
  request q i' j' p := by
    rw [setRequest_requests]
    by_cases hij : i' = i ∧ j' = j
    · obtain ⟨rfl, rfl⟩ := hij
      rw [if_pos ⟨rfl, rfl⟩, all_map]
      exact does_receive (unwrapRequest_mk i' j' s.context) (s.requests i' j')
        (by simp [unwrapRequest])
    · rw [if_neg fun h => hij ⟨h.1.symm, h.2.symm⟩]
      exact rest_all fun _ => by simp [unwrapRequest, hij]

/-- The broadcast of one request as a part of the delivery. -/
def requestPart (i j : ℕ) (sha : Wire.Digest) (f : ℕ) (hn : n ≤ 16) :
    Embedding (machine sha n f) (Bracha.machine n f Bytes) :=
  embedding sha hn fun _ _ => request_part i j

end Parts

end MiniDregg.PrivateBackend.PrivateSend
