import MiniDregg.PrivateBackend.PrivateSend

/-!
# What one party of a private delivery keeps

The wrapped sharing is complete before anything is disclosed, and a complete
sharing sends nothing but openings when the key is opened. So opening it inside
the party fails in no way, and lets nothing out.
-/

namespace MiniDregg.PrivateBackend.PrivateSend

open Arith MiniDregg.Network Store Fallible List Asks

variable {n f : ℕ} {sha : Wire.Digest} {s t : PrivateSend n f} {out : List (ℕ × Message)}

section Mask
variable (sha) (context key : Bytes)

theorem maskFrom_nil (i : ℕ) : maskFrom sha context key i [] = [] := by
  rw [maskFrom, if_pos rfl]

theorem zipWith_xor_self {a b : Bytes} (h : a.length ≤ b.length) :
    List.zipWith (· ^^^ ·) (List.zipWith (· ^^^ ·) a b) b = a := by
  refine ext_getElem (by simpa using h) fun i _ _ => ?_
  rw [getElem_zipWith, getElem_zipWith, UInt8.xor_assoc, UInt8.xor_self, UInt8.xor_zero]

/-- Masking twice gives the text back. -/
theorem maskFrom_maskFrom (i : ℕ) (input : Bytes) :
    maskFrom sha context key i (maskFrom sha context key i input) = input := by
  induction h : input.length using Nat.strong_induction_on generalizing i input with
  | _ m ih =>
    by_cases hnil : input = []
    · rw [hnil, maskFrom_nil, maskFrom_nil]
    have hpos := length_pos_iff.2 hnil
    have hpad : (pad sha context key i).length = 32 := sha.length_digest _
    have hchunk : (List.zipWith (· ^^^ ·) (input.take 32) (pad sha context key i)).length =
        min 32 input.length := by
      rw [length_zipWith, length_take, hpad]
      omega
    have hself : List.zipWith (· ^^^ ·)
        (List.zipWith (· ^^^ ·) (input.take 32) (pad sha context key i))
          (pad sha context key i) = input.take 32 :=
      zipWith_xor_self (by rw [hpad]; exact length_take_le _ _)
    have hne : List.zipWith (· ^^^ ·) (input.take 32) (pad sha context key i) ++
        maskFrom sha context key (i + 1) (input.drop 32) ≠ [] := by
      intro hempty
      have := congrArg List.length hempty
      rw [length_append, hchunk, length_nil] at this
      omega
    rw [maskFrom.eq_def sha context key i input, if_neg hnil, maskFrom, if_neg hne]
    -- A full chunk ends where the rest begins; after a short one nothing is left.
    rcases Nat.lt_or_ge input.length 32 with hshort | hlong
    · rw [drop_eq_nil_of_le (Nat.le_of_lt hshort), maskFrom_nil, append_nil,
        take_of_length_le (by rw [hchunk]; omega), hself,
        drop_eq_nil_of_le (by rw [hchunk]; omega), maskFrom_nil, append_nil,
        take_of_length_le (Nat.le_of_lt hshort)]
    · have hfull : (List.zipWith (· ^^^ ·) (input.take 32)
          (pad sha context key i)).length = 32 := by
        rw [hchunk]
        omega
      rw [take_left' hfull, drop_left' hfull, hself,
        ih (input.drop 32).length (by rw [length_drop]; omega) _ _ rfl,
        take_append_drop]

theorem mask_mask (input : Bytes) : mask sha context key (mask sha context key input) = input :=
  maskFrom_maskFrom sha context key 0 input

end Mask

/-- What holds of a party's record at all times. -/
structure Sound (sha : Wire.Digest) (s : PrivateSend n f) : Prop where
  key : Asks.Sound sha s.key
  pending : ∀ e ∈ s.pending.entries, e.1 < n ∧ e.2.length = Asks.WORDS
  authorized : ∀ r ∈ s.authorized, f < (s.requesters r).card
  delivered : ∀ x, s.delivered = some x → ∃ k c, s.key.key = some k ∧
    s.cipher.output = some c ∧ x = mask sha s.context k c

/-- What no operation takes back. -/
structure Kept (s t : PrivateSend n f) : Prop where
  me : t.me = s.me
  dealer : t.dealer = s.dealer
  context : t.context = s.context
  inst : t.key.inst = s.key.inst
  authorized : s.authorized ⊆ t.authorized
  started : s.started = true → t.started = true

namespace Kept

variable {u : PrivateSend n f}

theorem refl (s : PrivateSend n f) : Kept s s :=
  ⟨rfl, rfl, rfl, rfl, Finset.Subset.refl _, id⟩

theorem trans (h : Kept s t) (h' : Kept t u) : Kept s u :=
  ⟨h'.me.trans h.me, h'.dealer.trans h.dealer, h'.context.trans h.context,
    h'.inst.trans h.inst, h.authorized.trans h'.authorized, fun hs => h'.started (h.started hs)⟩

end Kept

theorem sound_fresh (sha : Wire.Digest) (n f me dealer : ℕ) (g : Generation) (length : ℕ) :
    Sound sha (fresh sha n f me dealer g length) := by
  refine ⟨Asks.sound_fresh .., ?_, ?_, ?_⟩ <;> simp [fresh, OrderedMap.empty]

theorem requesters_mono (h : ∀ r j v, (s.requests r j).output = some v →
    (t.requests r j).output = some v) (r : ℕ) : s.requesters r ⊆ t.requesters r := by
  intro j hj
  rw [requesters, Finset.mem_filter] at hj ⊢
  exact ⟨hj.1, h r j _ hj.2⟩

theorem isOpening_eq_false {m : Asks.Message} :
    isOpening m = false ↔ ∀ share, m.body ≠ .reconstruct share := by
  unfold isOpening
  cases m.body <;> simp

section Opening
variable {a b : Asks n f}

/-- What opening the key inside the party does to the sharing. -/
structure Opens (sha : Wire.Digest) (a b : Asks n f) : Prop where
  sound : Asks.Sound sha b
  kept : Asks.Kept a b
  rbc : b.rbc = a.rbc

theorem Opens.sharing (h : Opens sha a b) (hs : a.sharing.isSome) : b.sharing.isSome := by
  obtain ⟨sh, hsh⟩ := Option.isSome_iff_exists.1 hs
  rw [h.kept.sharing sh hsh]
  rfl

section
variable (ha : Asks.Sound sha a) (hn : n ≤ 16) (hs : a.sharing.isSome)
include ha hn hs

/-- A complete sharing starts to open without failing and sends openings only. -/
theorem startOpening_ok : ∃ b, startOpening sha a = .ok b ∧ Opens sha a b := by
  unfold startOpening
  split_ifs with hstarted
  · exact ⟨a, rfl, ha, .refl a, rfl⟩
  · obtain ⟨t, out, hact⟩ := startReconstruction_total ha hn hs
    obtain ⟨hrbc, -, hout⟩ := startReconstruction_frame ha hn hact
    obtain ⟨ht, -, hkept⟩ := startReconstruction_sound ha hn hact
    have hquiet : (out.any fun p => !isOpening p.2) = false := by
      rw [any_eq_false]
      rintro ⟨r, m⟩ hm
      obtain ⟨s, hs⟩ := hout r m hm
      simp [isOpening, hs]
    refine ⟨t, ?_, ht, hkept, hrbc⟩
    rw [hact, ok_bind, hquiet, refuseIf_false, ok_bind, pure_eq_ok]

/-- A complete sharing takes a transferred share without failing and sends nothing. -/
theorem openShare_ok {e : ℕ × List GF128} (he : e.1 < n ∧ e.2.length = Asks.WORDS) :
    ∃ b, openShare sha a e = .ok b ∧ Opens sha a b := by
  obtain ⟨t, out, hact⟩ := receive_opening_ok ha hn he.1 he.2
  obtain rfl := receive_opening_silent ha hn hs rfl hact
  obtain ⟨b, taken, -, -, htake, hmoved, -⟩ := Asks.receive_ok ha hn hact
  obtain ⟨hb, -, hrbc, -⟩ := take_frame htake
  refine ⟨t, ?_, hmoved.sound, hb.trans hmoved.kept, hmoved.rbc.trans (hrbc nofun)⟩
  rw [openShare, hact, ok_bind, isEmpty_nil, Bool.not_true, refuseIf_false, ok_bind, pure_eq_ok]

theorem foldlM_openShare_ok
    {l : List (ℕ × List GF128)} (hl : ∀ e ∈ l, e.1 < n ∧ e.2.length = Asks.WORDS) :
    ∃ b, l.foldlM (openShare sha) a = .ok b ∧ Opens sha a b := by
  induction l generalizing a with
  | nil => exact ⟨a, rfl, ha, .refl a, rfl⟩
  | cons e l ih =>
    obtain ⟨b, hb, hopens⟩ := openShare_ok ha hn hs (hl e mem_cons_self)
    obtain ⟨c, hc, hrest⟩ := ih hopens.sound (hopens.sharing hs)
      fun d hd => hl d (mem_cons_of_mem e hd)
    refine ⟨c, ?_, hrest.sound, hopens.kept.trans hrest.kept, hrest.rbc.trans hopens.rbc⟩
    rw [foldlM_cons, hb, ok_bind, hc]

end

end Opening

/-- What `progress` does to the record, and what it sends. -/
structure Moved (sha : Wire.Digest) (s t : PrivateSend n f) (out : List (ℕ × Message)) : Prop where
  sound : Sound sha t
  kept : Kept s t
  rbc : t.key.rbc = s.key.rbc
  cipher : t.cipher = s.cipher
  requests : t.requests = s.requests
  started : t.started = s.started
  transfers : ∀ r m, (r, m) ∈ out → r ∈ t.authorized ∧ ∃ share, m.body = .transfer r share

theorem Sound.authorize (hs : Sound sha s) : Sound sha s.authorize := by
  refine ⟨hs.key, hs.pending, fun r hr => ?_, hs.delivered⟩
  rcases Finset.mem_union.1 hr with hr | hr
  · exact hs.authorized r hr
  · exact (Finset.mem_filter.1 hr).2

theorem mem_disclose {r : ℕ} {m : Message} (hm : (r, m) ∈ s.disclose.2) :
    r ∈ s.authorized ∧ ∃ share, m.body = .transfer r share := by
  obtain ⟨r', hr', hmem⟩ := mem_flatMap.1 hm
  have hauth : r' ∈ s.authorized := by
    have := (mem_filter.1 hr').2
    simp only [Bool.and_eq_true, decide_eq_true_eq] at this
    exact this.1
  unfold transferTo at hmem
  split at hmem
  next share _ =>
    rw [mem_singleton, Prod.mk.injEq] at hmem
    obtain ⟨rfl, rfl⟩ := hmem
    exact ⟨hauth, share, rfl⟩
  next => cases hmem

theorem Sound.deliver (hs : Sound sha s) (hn : n ≤ 16) (hsharing : s.key.sharing.isSome) :
    ∃ key delivered, s.deliver sha = .ok { s with key := key, delivered := delivered } ∧
      Opens sha s.key key ∧ Sound sha { s with key := key, delivered := delivered } := by
  unfold PrivateSend.deliver
  split_ifs with hme
  · obtain ⟨a, ha, hstart⟩ := startOpening_ok hs.key hn hsharing
    obtain ⟨b, hb, hopen⟩ := foldlM_openShare_ok hstart.sound hn (hstart.sharing hsharing)
      hs.pending
    have hkept := hstart.kept.trans hopen.kept
    refine ⟨b, _, by rw [ha, ok_bind, hb, ok_bind, pure_eq_ok],
      ⟨hopen.sound, hkept, hopen.rbc.trans hstart.rbc⟩, ?_⟩
    refine ⟨hopen.sound, hs.pending, hs.authorized, fun x hx => ?_⟩
    rcases Option.or_eq_some_iff.1 hx with hx | ⟨-, hx⟩
    · obtain ⟨k, c, hk, hc, rfl⟩ := hs.delivered x hx
      exact ⟨k, c, hkept.key k hk, hc, rfl⟩
    · obtain ⟨k, hk, hx⟩ := Option.bind_eq_some_iff.1 hx
      obtain ⟨c, hc, rfl⟩ := Option.map_eq_some_iff.1 hx
      exact ⟨k, c, hk, hc, rfl⟩
  · exact ⟨s.key, s.delivered, rfl, ⟨hs.key, .refl _, rfl⟩, hs⟩

/-- `progress` never fails; it sends transfers to authorized receivers only. -/
theorem Sound.progress (hs : Sound sha s) (hn : n ≤ 16) :
    ∃ t out, s.progress sha = .ok (t, out) ∧ Moved sha s t out := by
  unfold PrivateSend.progress
  by_cases hdispersed : (s.key.sharing.isSome && s.cipher.output.isSome) = true
  · rw [if_pos hdispersed]
    rw [Bool.and_eq_true] at hdispersed
    have hsound : Sound sha { s with dispersed := true } :=
      { hs with }
    have hauth := hsound.authorize
    have hdisclosed : Sound sha
        ({ s with dispersed := true } : PrivateSend n f).authorize.disclose.1 :=
      { hauth with }
    obtain ⟨key, delivered, hact, hopens, ht⟩ := hdisclosed.deliver hn hdispersed.1
    refine ⟨_, _, by dsimp only; rw [hact]; rfl, ht, ?_, hopens.rbc, rfl, rfl, rfl, ?_⟩
    · exact ⟨rfl, rfl, rfl, hopens.kept.inst, Finset.subset_union_left, id⟩
    · intro r m hm
      obtain ⟨hr, share, hbody⟩ := mem_disclose hm
      exact ⟨hr, share, hbody⟩
  · rw [if_neg hdispersed]
    refine ⟨_, _, rfl, { hs with }, ?_, rfl, rfl, rfl, rfl,
      nofun⟩
    exact { Kept.refl s with }

variable {q receiver : ℕ}

section Take

theorem take_key {m : Asks.Message} (hact : s.take sha q (.key m) = .ok (t, out)) :
    isOpening m = false ∧ ∃ key ps, s.key.receive sha q m = .ok (key, ps) ∧
      t = { s with key := key } ∧ out = s.keyPackets ps := by
  simp only [take, bind_eq_ok, refuseIf_eq_ok, pure_pair] at hact
  obtain ⟨-, hopening, ⟨key, ps⟩, hkey, rfl, rfl⟩ := hact
  exact ⟨hopening, key, ps, hkey, rfl, rfl⟩

variable {p : PhaseMessage Bytes}

theorem take_cipher (hact : s.take sha q (.cipher p) = .ok (t, out)) :
    t = { s with cipher := (s.cipher.receive q p).1 } ∧
      out = s.all ((s.cipher.receive q p).2.map .cipher) := by
  simp only [take, bind_eq_ok, refuseIf_eq_ok, pure_pair] at hact
  obtain ⟨-, -, rfl, rfl⟩ := hact
  exact ⟨rfl, rfl⟩

theorem take_request {requester : ℕ}
    (hact : s.take sha q (.request receiver requester p) = .ok (t, out)) :
    p.payload = [1] ∧
      t = s.setRequest receiver requester ((s.requests receiver requester).receive q p).1 ∧
      out = s.all (((s.requests receiver requester).receive q p).2.map
        (.request receiver requester)) := by
  simp only [take, bind_eq_ok, refuseIf_eq_ok, pure_pair, bne_eq_false_iff_eq] at hact
  obtain ⟨-, -, -, hone, rfl, rfl⟩ := hact
  exact ⟨hone, rfl, rfl⟩

theorem take_transfer {share : List GF128}
    (hact : s.take sha q (.transfer receiver share) = .ok (t, out)) :
    share.length = 2 ∧ out = [] ∧ t = { s with pending := orInsert s.pending q share } := by
  simp only [take, bind_eq_ok, refuseIf_eq_ok, pure_pair, Bool.or_eq_false_iff,
    bne_eq_false_iff_eq] at hact
  obtain ⟨-, ⟨-, hlen⟩, rfl, rfl⟩ := hact
  exact ⟨hlen, rfl, rfl⟩

theorem setRequest_requests (r j r' j' : ℕ) (b : Bracha n f Bytes) :
    (s.setRequest r j b).requests r' j' = if r' = r ∧ j' = j then b else s.requests r' j' := by
  simp only [setRequest]
  by_cases hr : r' = r
  · subst hr
    by_cases hj : j' = j
    · subst hj
      simp
    · simp [hj]
  · simp [hr]

theorem Sound.take (hs : Sound sha s) (hn : n ≤ 16) (hq : q < n) {b : Body}
    (hact : s.take sha q b = .ok (t, out)) : Sound sha t ∧ Kept s t := by
  cases b with
  | key m =>
    obtain ⟨-, key, ps, hkey, rfl, -⟩ := take_key hact
    obtain ⟨c, taken, -, -, htake, hmoved, -⟩ := Asks.receive_ok hs.key hn hkey
    have hkept := (take_frame htake).1.trans hmoved.kept
    refine ⟨⟨hmoved.sound, hs.pending, hs.authorized, fun x hx => ?_⟩,
      { Kept.refl s with inst := hkept.inst }⟩
    obtain ⟨k, c, hk, hc, rfl⟩ := hs.delivered x hx
    exact ⟨k, c, hkept.key k hk, hc, rfl⟩
  | cipher p =>
    obtain ⟨rfl, -⟩ := take_cipher hact
    refine ⟨⟨hs.key, hs.pending, hs.authorized, fun x hx => ?_⟩, { Kept.refl s with }⟩
    obtain ⟨k, c, hk, hc, rfl⟩ := hs.delivered x hx
    exact ⟨k, c, hk, (s.cipher.receive_move q p).output_kept c hc, rfl⟩
  | request receiver requester p =>
    obtain ⟨-, rfl, -⟩ := take_request hact
    refine ⟨⟨hs.key, hs.pending, fun r hr => ?_, hs.delivered⟩, { Kept.refl s with }⟩
    refine lt_of_lt_of_le (hs.authorized r hr) (Finset.card_le_card (requesters_mono ?_ r))
    intro r j v hv
    rw [setRequest_requests]
    split_ifs with h
    · rw [h.1, h.2] at hv
      exact ((s.requests receiver requester).receive_move q p).output_kept v hv
    · exact hv
  | transfer receiver share =>
    obtain ⟨hlen, -, rfl⟩ := take_transfer hact
    refine ⟨⟨hs.key, fun e he => ?_, hs.authorized, hs.delivered⟩, { Kept.refl s with }⟩
    change e ∈ (orInsert s.pending q share).entries at he
    unfold orInsert at he
    split_ifs at he
    · exact hs.pending e he
    · rcases OrderedMap.mem_insertEntry he with rfl | he
      · exact ⟨hq, hlen⟩
      · exact hs.pending e he

end Take

section Operations

theorem receive_ok (hs : Sound sha s) (hn : n ≤ 16) {m : Message}
    (hact : s.receive sha q m = .ok (t, out)) :
    ∃ u taken more, q < n ∧ m.context = s.context ∧ s.take sha q m.body = .ok (u, taken) ∧
      Moved sha u t more ∧ out = taken ++ more := by
  simp only [receive, bind_eq_ok, refuseIf_eq_ok, pure_inj, Prod.mk.injEq,
    Bool.or_eq_false_iff, decide_eq_false_iff_not, Nat.not_le, bne_eq_false_iff_eq] at hact
  obtain ⟨-, ⟨hq, hcontext⟩, ⟨u, taken⟩, htake, ⟨t', more⟩, hprogress, rfl, rfl⟩ := hact
  obtain ⟨t'', more', ht, hmoved⟩ := (hs.take hn hq htake).1.progress hn
  rw [hprogress, Except.ok.injEq, Prod.mk.injEq] at ht
  obtain ⟨rfl, rfl⟩ := ht
  exact ⟨u, taken, more, hq, hcontext, htake, hmoved, rfl⟩

theorem requestDelivery_ok (hs : Sound sha s) (hn : n ≤ 16)
    (hact : s.requestDelivery sha receiver = .ok (t, out)) :
    ∃ first more, Moved sha { s with requested := insert receiver s.requested } t more ∧
      out = first ++ more ∧
      (first = [] ∨ first = s.all [.request receiver s.me (.init [1])]) := by
  simp only [requestDelivery, bind_eq_ok, refuseIf_eq_ok, pure_pair] at hact
  obtain ⟨-, -, ⟨t', more⟩, hprogress, rfl, rfl⟩ := hact
  have hsound : Sound sha { s with requested := insert receiver s.requested } :=
    { hs with }
  obtain ⟨t'', more', ht, hmoved⟩ := hsound.progress hn
  rw [hprogress, Except.ok.injEq, Prod.mk.injEq] at ht
  obtain ⟨rfl, rfl⟩ := ht
  refine ⟨_, more, hmoved, rfl, ?_⟩
  split_ifs
  · exact .inl rfl
  · exact .inr rfl

variable {c : List (List GF128)} {x : Bytes}

theorem deal_ok (hact : s.dealerWithCoefficients sha x c = .ok (t, out)) :
    s.me = s.dealer ∧ s.started = false ∧ t = { s with started := true } ∧
      ∃ ps key, s.key.dealerWithCoefficients sha c = .ok ps ∧
        s.key.dealerKey sha c = .ok key ∧
        out = s.keyPackets ps ++ s.all [.cipher (.init (mask sha s.context key x))] := by
  simp only [dealerWithCoefficients, bind_eq_ok, refuseIf_eq_ok, pure_pair, Bool.or_eq_false_iff,
    bne_eq_false_iff_eq] at hact
  obtain ⟨-, ⟨⟨hme, hstarted⟩, -⟩, ps, hps, key, hkey, rfl, rfl⟩ := hact
  exact ⟨hme, hstarted, rfl, ps, key, hps, hkey, rfl⟩

theorem Sound.deal (hs : Sound sha s)
    (hact : s.dealerWithCoefficients sha x c = .ok (t, out)) : Sound sha t ∧ Kept s t := by
  obtain ⟨-, -, rfl, -⟩ := deal_ok hact
  exact ⟨{ hs with },
    { Kept.refl s with started := fun _ => rfl }⟩

end Operations

end MiniDregg.PrivateBackend.PrivateSend
