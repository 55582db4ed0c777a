import MiniDregg.PrivateBackend.AsksKey

/-!
# What one party's record keeps

`Sound` collects what holds of a party's record whatever messages it was sent:
what is accepted matches, what is valid matches, a complete sharing is frozen,
and a key was opened by matching shares. `Settled` says that nothing is left to
do once reconstruction has started. Both hold after every operation, and no
operation fails after it has begun to change the record.
-/

namespace MiniDregg.PrivateBackend.Asks

open Arith MiniDregg.Network Store Fallible Reconstruction List OrderedMap Asks Bracha

variable {n f : ℕ} {sha : Wire.Digest} {a t : Asks n f} {out : List (ℕ × Message)}

/-- What holds of a party's record at all times. -/
structure Sound (sha : Wire.Digest) (a : Asks n f) : Prop where
  ra_dealer : a.ra.dealer = none
  private_words : ∀ s, a.privateShare = some s → s.length = WORDS
  accepted_words : ∀ s, a.acceptedShare = some s → s.length = WORDS
  accepted : ∀ s, a.acceptedShare = some s →
    ∃ c, a.commits = some c ∧ h sha a.inst (a.me + 1) s = c.getD a.me []
  echoed : a.ra.echoSent.isSome = a.acceptedShare.isSome
  agreed : a.sharing.isSome → a.ra.output = some [1]
  commits : ∀ sh, a.sharing = some sh → a.commits = some sh.commitments
  frozen : ∀ sh, a.sharing = some sh → sh.localShare = a.acceptedShare ∧
    a.privateValid sha sh.commitments = a.acceptedShare
  pending : ∀ e ∈ a.pending.entries, e.1 < n ∧ e.2.length = WORDS
  valid : ∀ e ∈ a.valid.entries, e.1 < n ∧ e.2.length = WORDS ∧ ∃ sh, a.sharing = some sh ∧
    h sha a.inst (e.1 + 1) e.2 = sh.commitments.getD e.1 []
  key : ∀ k, a.key = some k → ∃ sh points, a.sharing = some sh ∧
    Opening sha n f a.inst sh.commitments points ∧
      keyOf sha n a.inst sh.commitments points = .ok k
  started : a.reconstructStarted = true → a.sharing.isSome

/-- Once reconstruction has started, matching shares are valid, and enough valid shares
have opened the key. -/
structure Settled (sha : Wire.Digest) (a : Asks n f) : Prop where
  counted : a.reconstructStarted = true → ∀ sh, a.sharing = some sh →
    ∀ e ∈ a.pending.entries, h sha a.inst (e.1 + 1) e.2 = sh.commitments.getD e.1 [] →
      a.valid.contains e.1 = true
  keyed : a.reconstructStarted = true → f < a.valid.entries.length → a.key.isSome

/-- What no operation takes back. -/
structure Kept (a t : Asks n f) : Prop where
  me : t.me = a.me
  dealer : t.dealer = a.dealer
  inst : t.inst = a.inst
  sharing : ∀ sh, a.sharing = some sh → t.sharing = some sh
  started : a.reconstructStarted = true → t.reconstructStarted = true
  key : ∀ k, a.key = some k → t.key = some k
  held : ∀ q, (a.pending.contains q || a.valid.contains q) = true →
    (t.pending.contains q || t.valid.contains q) = true

namespace Kept

variable {b : Asks n f}

theorem refl (a : Asks n f) : Kept a a :=
  ⟨rfl, rfl, rfl, fun _ => id, id, fun _ => id, fun _ => id⟩

theorem trans (h : Kept a b) (h' : Kept b t) : Kept a t :=
  ⟨h'.me.trans h.me, h'.dealer.trans h.dealer, h'.inst.trans h.inst,
    fun sh hs => h'.sharing sh (h.sharing sh hs), fun hs => h'.started (h.started hs),
    fun k hk => h'.key k (h.key k hk), fun q hq => h'.held q (h.held q hq)⟩

end Kept

theorem sound_fresh (sha : Wire.Digest) (n f me dealer : ℕ) (g : Generation) :
    Sound sha (fresh sha n f me dealer g) := by
  constructor <;> simp [fresh, Bracha.new, empty]

theorem settled_fresh (sha : Wire.Digest) (n f me dealer : ℕ) (g : Generation) :
    Settled sha (fresh sha n f me dealer g) := by
  constructor <;> simp [fresh]

variable {c : List Bytes}

theorem commits_eq_some : a.commits = some c ↔
    ∃ b, a.rbc.output = some b ∧ b.length = n * 32 ∧ Wire.chunksExact 32 b = c := by
  simp [commits, Option.bind_eq_some_iff]

theorem commits_kept (hout : ∀ b, a.rbc.output = some b → t.rbc.output = some b)
    (hc : a.commits = some c) :
    t.commits = some c := by
  obtain ⟨b, hb, hrest⟩ := commits_eq_some.1 hc
  exact commits_eq_some.2 ⟨b, hout b hb, hrest⟩

variable {q : ℕ} {s : List GF128} {m : PhaseMessage Bytes}

theorem take_commit (hact : a.take q (.commit m) = .ok (t, out)) :
    m.payload.length = n * 32 ∧ t = { a with rbc := (a.rbc.receive q m).1 } ∧
      out = a.all ((a.rbc.receive q m).2.map .commit) := by
  simp only [take, bind_eq_ok, refuseIf_eq_ok, pure_pair, bne_eq_false_iff_eq] at hact
  obtain ⟨-, hlen, rfl, rfl⟩ := hact
  exact ⟨hlen, rfl, rfl⟩

theorem take_ra (hact : a.take q (.ra m) = .ok (t, out)) :
    m.payload = [1] ∧ (∀ v, m ≠ .init v) ∧ t = { a with ra := (a.ra.receive q m).1 } ∧
      out = a.all ((a.ra.receive q m).2.map .ra) := by
  simp only [take, bind_eq_ok, refuseIf_eq_ok, pure_pair, Bool.or_eq_false_iff,
    bne_eq_false_iff_eq, beq_eq_false_iff_ne] at hact
  obtain ⟨-, ⟨hone, hinit⟩, rfl, rfl⟩ := hact
  refine ⟨hone, fun v hv => hinit ?_, rfl, rfl⟩
  rw [hv]
  rfl

theorem take_privateShare (hact : a.take q (.privateShare s) = .ok (t, out)) :
    q = a.dealer ∧ s.length = WORDS ∧ out = [] ∧
      (t = a ∨ a.sharing = none ∧ a.acceptedShare = none ∧ t = { a with privateShare := some s }) := by
  simp only [take, bind_eq_ok, refuseIf_eq_ok, pure_pair, Bool.or_eq_false_iff,
    bne_eq_false_iff_eq] at hact
  obtain ⟨-, ⟨hq, hs⟩, ht, hout⟩ := hact
  refine ⟨hq, hs, hout.symm, ?_⟩
  split_ifs at ht with hnone
  · simp only [Bool.and_eq_true, Option.isNone_iff_eq_none] at hnone
    exact .inr ⟨hnone.1, hnone.2, ht.symm⟩
  · exact .inl ht.symm

theorem take_reconstruct (hact : a.take q (.reconstruct s) = .ok (t, out)) :
    s.length = WORDS ∧ out = [] ∧
      (a.valid.contains q = true ∧ t = a ∨ t = { a with pending := a.pending.insert q s }) := by
  simp only [take, bind_eq_ok, refuseIf_eq_ok, pure_pair, bne_eq_false_iff_eq] at hact
  obtain ⟨-, hs, ht, hout⟩ := hact
  refine ⟨hs, hout.symm, ?_⟩
  split_ifs at ht with hvalid
  · exact .inl ⟨hvalid, ht.symm⟩
  · exact .inr ht.symm

/-- A message takes nothing back, moves only the broadcast it belongs to, and starts nothing. -/
theorem take_frame {b : Body} (hact : a.take q b = .ok (t, out)) :
    Kept a t ∧ t.reconstructStarted = a.reconstructStarted ∧
      ((∀ m, b ≠ .commit m) → t.rbc = a.rbc) ∧ ((∀ m, b ≠ .ra m) → t.ra = a.ra) := by
  have hkept := Kept.refl a
  cases b with
  | commit m =>
    obtain ⟨-, rfl, -⟩ := take_commit hact
    exact ⟨{ hkept with }, rfl, fun h => absurd rfl (h m), fun _ => rfl⟩
  | ra m =>
    obtain ⟨-, -, rfl, -⟩ := take_ra hact
    exact ⟨{ hkept with }, rfl, fun _ => rfl, fun h => absurd rfl (h m)⟩
  | privateShare s =>
    obtain ⟨-, -, -, rfl | ⟨-, -, rfl⟩⟩ := take_privateShare hact <;>
      exact ⟨{ hkept with }, rfl, fun _ => rfl, fun _ => rfl⟩
  | reconstruct s =>
    obtain ⟨-, -, ⟨-, rfl⟩ | rfl⟩ := take_reconstruct hact
    · exact ⟨hkept, rfl, fun _ => rfl, fun _ => rfl⟩
    · refine ⟨{ hkept with held := fun p hp => ?_ }, rfl, fun _ => rfl, fun _ => rfl⟩
      by_cases hpq : p = q
      · simp [OrderedMap.contains, hpq]
      · simpa [OrderedMap.contains, get?_insert_ne hpq] using hp

theorem Sound.take (ha : Sound sha a) (hq : q < n) {b : Body} (hact : a.take q b = .ok (t, out)) :
    Sound sha t := by
  cases b with
  | commit m =>
    obtain ⟨-, rfl, -⟩ := take_commit hact
    have hkept : ∀ c, a.commits = some c →
        Asks.commits { a with rbc := (a.rbc.receive q m).1 } = some c := fun c hc =>
      commits_kept (a.rbc.receive_move q m).output_kept hc
    exact { ha with
      accepted := fun s hs => by
        obtain ⟨c, hc, hmatch⟩ := ha.accepted s hs
        exact ⟨c, hkept c hc, hmatch⟩
      commits := fun sh hsh => hkept _ (ha.commits sh hsh) }
  | ra m =>
    obtain ⟨-, -, rfl, -⟩ := take_ra hact
    have hmove := a.ra.receive_move q m
    exact { ha with
      ra_dealer := hmove.dealer.trans ha.ra_dealer
      agreed := fun hs => hmove.output_kept _ (ha.agreed hs)
      echoed := by
        rw [← ha.echoed]
        change (a.ra.receive q m).1.echoSent.isSome = a.ra.echoSent.isSome
        cases hecho : a.ra.echoSent with
        | some v => rw [hmove.echo_kept v hecho]
        | none =>
          cases hnew : (a.ra.receive q m).1.echoSent with
          | none => rfl
          | some v =>
            rcases hmove.echo_from v hnew with hv | ⟨-, hgot⟩ | ⟨d, hd, -⟩
            · exact nomatch hecho.symm.trans hv
            · cases hgot
            · exact nomatch ha.ra_dealer.symm.trans hd }
  | privateShare s =>
    obtain ⟨-, hs, -, rfl | ⟨hsharing, hnone, rfl⟩⟩ := take_privateShare hact
    · exact ha
    · exact { ha with
        private_words := fun w hw => by
          cases hw
          exact hs
        frozen := fun sh hsh => nomatch hsharing.symm.trans hsh }
  | reconstruct s =>
    obtain ⟨hs, -, ⟨-, rfl⟩ | rfl⟩ := take_reconstruct hact
    · exact ha
    · exact { ha with
        pending := fun e he => by
          rcases mem_insertEntry he with rfl | he
          · exact ⟨hq, hs⟩
          · exact ha.pending e he }

/-- What is accepted passes the test that a fresh share has to pass. -/
theorem Sound.privateValid_of_accepted (ha : Sound sha a) (hc : a.commits = some c)
    (hs : a.acceptedShare = some s) : a.privateValid sha c = some s := by
  obtain ⟨c', hc', hmatch⟩ := ha.accepted s hs
  rw [hc, Option.some.injEq] at hc'
  subst hc'
  simp [privateValid, hs, hmatch]

/-- What passes the test is what is accepted, or a private share that matches. -/
theorem Sound.privateValid_spec (ha : Sound sha a) (hs : a.privateValid sha c = some s) :
    s.length = WORDS ∧ h sha a.inst (a.me + 1) s = c.getD a.me [] ∧
      a.acceptedShare.or (some s) = some s := by
  obtain ⟨hor, hmatch⟩ := Option.filter_eq_some_iff.1 hs
  refine ⟨?_, by simpa using hmatch, ?_⟩
  · rcases Option.or_eq_some_iff.1 hor with h | ⟨-, h⟩
    · exact ha.accepted_words s h
    · exact ha.private_words s h
  · rcases Option.or_eq_some_iff.1 hor with h | ⟨h, -⟩ <;> rw [h] <;> rfl

theorem accept_none (hnone : a.privateValid sha c = none) : a.accept sha c = (a, []) := by
  simp [accept, hnone]

theorem Sound.accept_some (ha : Sound sha a) (hs : a.privateValid sha c = some s) :
    a.accept sha c = ({ a with acceptedShare := some s, ra := (a.ra.inputRa [1]).1 },
      a.all ((a.ra.inputRa [1]).2.map .ra)) := by
  simp [accept, hs, (ha.privateValid_spec hs).2.2]

theorem inputRa_isSome (hdealer : a.ra.dealer = none) :
    (a.ra.inputRa [1]).1.echoSent.isSome = true := by
  unfold inputRa
  split_ifs with hnone
  · rfl
  · rw [hdealer] at hnone
    simpa [Option.isSome_iff_ne_none] using hnone

theorem Sound.accept (ha : Sound sha a) (hc : a.commits = some c) :
    Sound sha (a.accept sha c).1 := by
  cases hvalid : a.privateValid sha c with
  | none => rwa [accept_none hvalid]
  | some s =>
    rw [ha.accept_some hvalid]
    obtain ⟨hwords, hmatch, hor⟩ := ha.privateValid_spec hvalid
    have hmove := a.ra.inputRa_move [1]
    exact { ha with
      ra_dealer := hmove.dealer.trans ha.ra_dealer
      accepted_words := fun w hw => by
        cases hw
        exact hwords
      accepted := fun w hw => by
        cases hw
        exact ⟨c, hc, hmatch⟩
      echoed := inputRa_isSome ha.ra_dealer
      agreed := fun hs => hmove.output_kept _ (ha.agreed hs)
      frozen := fun sh hsh => by
        obtain ⟨hlocal, hpv⟩ := ha.frozen sh hsh
        have hcommits := ha.commits sh hsh
        rw [hc, Option.some.injEq] at hcommits
        rw [← hcommits, hvalid] at hpv
        refine ⟨hlocal.trans hpv.symm, ?_⟩
        rw [← hcommits]
        simp [privateValid, hmatch] }

theorem accept_commits : (a.accept sha c).1.commits = a.commits := by
  unfold accept
  cases a.privateValid sha c <;> rfl

section
variable (ha : Sound sha a)
include ha

/-- After acceptance, what is accepted is exactly what passes the test. -/
theorem Sound.accept_privateValid (hc : a.commits = some c) :
    (a.accept sha c).1.privateValid sha c = (a.accept sha c).1.acceptedShare := by
  have ht := ha.accept hc
  cases hacc : (a.accept sha c).1.acceptedShare with
  | some s => exact ht.privateValid_of_accepted (accept_commits.trans hc) hacc
  | none =>
    cases hvalid : a.privateValid sha c with
    | none => rwa [accept_none hvalid]
    | some s => simp [ha.accept_some hvalid] at hacc

theorem Sound.finish (hc : a.commits = some c)
    (hpv : a.privateValid sha c = a.acceptedShare) : Sound sha (a.finish sha c) := by
  unfold Asks.finish
  split_ifs with hdue
  · rw [Bool.and_eq_true, Option.isNone_iff_eq_none, beq_iff_eq] at hdue
    obtain ⟨hnone, hone⟩ := hdue
    exact { ha with
      agreed := fun _ => hone
      commits := fun sh hsh => by
        cases hsh
        exact hc
      frozen := fun sh hsh => by
        cases hsh
        exact ⟨hpv, hpv⟩
      valid := fun e he => by
        obtain ⟨-, -, sh, hsh, -⟩ := ha.valid e he
        exact nomatch hnone.symm.trans hsh
      key := fun k hk => by
        obtain ⟨sh, -, hsh, -⟩ := ha.key k hk
        exact nomatch hnone.symm.trans hsh
      started := fun _ => rfl }
  · exact ha

theorem Sound.share : Sound sha (a.share sha).1 := by
  unfold Asks.share
  cases hc : a.commits with
  | none => exact ha
  | some c =>
    exact (ha.accept hc).finish (accept_commits.trans hc) (ha.accept_privateValid hc)

/-- A complete sharing is frozen: nothing more is accepted, told or finished. -/
theorem Sound.share_eq_self (hs : a.sharing.isSome) : a.share sha = (a, []) := by
  obtain ⟨sh, hsh⟩ := Option.isSome_iff_exists.1 hs
  have hpv := (ha.frozen sh hsh).2
  have haccept : a.accept sha sh.commitments = (a, []) := by
    cases hacc : a.acceptedShare with
    | none => exact accept_none (hpv.trans hacc)
    | some s =>
      have hecho : a.ra.echoSent.isSome = true := by rw [ha.echoed, hacc]; rfl
      have hinput : a.ra.inputRa [1] = (a.ra, []) := by
        unfold inputRa
        rw [if_neg]
        simpa [Option.isSome_iff_ne_none] using fun _ => Option.isSome_iff_ne_none.1 hecho
      rw [ha.accept_some (hpv.trans hacc), hinput]
      simp only [all, map_nil, toAll, flatMap_nil, Prod.mk.injEq, and_true]
      rw [← hacc]
  unfold Asks.share
  simp only [ha.commits sh hsh, haccept, Asks.finish, hsh, Option.isNone_some, Bool.false_and,
    Bool.false_eq_true, if_false]

end

theorem kept_share : Kept a (a.share sha).1 := by
  unfold Asks.share
  cases a.commits with
  | none => exact .refl a
  | some c =>
    have haccept : Kept a (a.accept sha c).1 := by
      unfold accept
      cases a.privateValid sha c with
      | none => exact .refl a
      | some s => exact { Kept.refl a with }
    refine haccept.trans ?_
    change Kept (a.accept sha c).1 ((a.accept sha c).1.finish sha c)
    generalize (a.accept sha c).1 = b
    unfold Asks.finish
    split_ifs with hdue
    · rw [Bool.and_eq_true, Option.isNone_iff_eq_none] at hdue
      exact { Kept.refl b with sharing := fun sh hsh => nomatch hdue.1.symm.trans hsh }
    · exact .refl b

section Reconstruct
variable {sh : SharingOutput}
  {inst : Bytes} {commitments : List Bytes} {valid : OrderedMap ℕ (List GF128)}
  {l : List (ℕ × List GF128)} {e : ℕ × List GF128}

/-- What a round of checks leaves valid was valid or was pending and matched. -/
theorem mem_foldl_validate (he : e ∈ (l.foldl (validate sha inst commitments) valid).entries) :
    e ∈ valid.entries ∨ e ∈ l ∧ h sha inst (e.1 + 1) e.2 = commitments.getD e.1 [] := by
  induction l generalizing valid with
  | nil => exact .inl he
  | cons d l ih =>
    rcases ih he with he | ⟨he, hmatch⟩
    · unfold validate at he
      split_ifs at he with hmatch hin
      · exact .inl he
      · rcases mem_insertEntry he with rfl | he
        · exact .inr ⟨mem_cons_self, by simpa using hmatch⟩
        · exact .inl he
      · exact .inl he
    · exact .inr ⟨mem_cons_of_mem d he, hmatch⟩

theorem contains_validate (hq : valid.contains q = true) :
    (validate sha inst commitments valid e).contains q = true := by
  unfold validate
  split_ifs
  · exact hq
  · by_cases hqe : q = e.1
    · simp [OrderedMap.contains, hqe]
    · simpa [OrderedMap.contains, get?_insert_ne hqe] using hq
  · exact hq

theorem contains_foldl_validate
    (hq : valid.contains q = true ∨
      ∃ e ∈ l, e.1 = q ∧ h sha inst (e.1 + 1) e.2 = commitments.getD e.1 []) :
    (l.foldl (validate sha inst commitments) valid).contains q = true := by
  induction l generalizing valid with
  | nil =>
    rcases hq with hq | ⟨e, he, -⟩
    · exact hq
    · cases he
  | cons d l ih =>
    refine ih ?_
    rcases hq with hq | ⟨e, he, rfl, hmatch⟩
    · exact .inl (contains_validate hq)
    · rcases mem_cons.1 he with rfl | he
      · refine .inl ?_
        unfold validate
        rw [if_pos (by simpa using hmatch)]
        split_ifs with hin
        · exact hin
        · simp [OrderedMap.contains]
      · exact .inr ⟨e, he, rfl, hmatch⟩

theorem Sound.checkPending (ha : Sound sha a) (hsh : a.sharing = some sh) :
    Sound sha (a.checkPending sha sh) := by
  exact { ha with
    valid := fun e he => by
      rcases mem_foldl_validate he with he | ⟨he, hmatch⟩
      · exact ha.valid e he
      · obtain ⟨hparty, hwords⟩ := ha.pending e he
        exact ⟨hparty, hwords, sh, hsh, hmatch⟩ }

/-- The first `f + 1` valid shares are an opening. -/
theorem Sound.opening (ha : Sound sha a) (hsh : a.sharing = some sh)
    (hmany : f < a.valid.entries.length) :
    Opening sha n f a.inst sh.commitments (a.valid.entries.take (f + 1)) := by
  have hmem : ∀ e ∈ a.valid.entries.take (f + 1), e ∈ a.valid.entries := fun e he =>
    mem_of_mem_take he
  constructor
  · rw [length_take]
    omega
  · rw [map_take]
    exact a.valid.keys_nodup.sublist (take_sublist _ _)
  · exact fun e he => (ha.valid e (hmem e he)).1
  · exact fun e he => (ha.valid e (hmem e he)).2.1
  · intro e he
    obtain ⟨-, -, sh', hsh', hmatch⟩ := ha.valid e (hmem e he)
    rw [hsh, Option.some.injEq] at hsh'
    rw [hmatch, hsh']

/-- The key is set, without failing, when there are enough valid shares. -/
theorem Sound.setKey (ha : Sound sha a) (hn : n ≤ 16) (hsh : a.sharing = some sh) :
    ∃ k, a.setKey sha sh = .ok { a with key := k } ∧ Sound sha { a with key := k } ∧
      (f < a.valid.entries.length → k.isSome) ∧ ∀ k', a.key = some k' → k = some k' := by
  unfold Asks.setKey
  split_ifs with hdue
  · rw [Bool.and_eq_true, decide_eq_true_iff] at hdue
    have ho := ha.opening hsh hdue.2
    obtain ⟨k, hk⟩ : ∃ k, keyOf sha n a.inst sh.commitments (a.valid.entries.take (f + 1)) =
        .ok k := ⟨_, keyOf_ok (ho.shares hn)⟩
    refine ⟨some k, by rw [hk, ok_bind, pure_eq_ok], ?_, fun _ => rfl, fun k' hk' => ?_⟩
    · exact { ha with
        key := fun k' hk' => by
          cases hk'
          exact ⟨sh, _, hsh, ho, hk⟩ }
    · rw [hk'] at hdue
      exact absurd hdue.1 (by simp)
  · refine ⟨a.key, rfl, ha, fun hmany => ?_, fun _ => id⟩
    rw [Bool.and_eq_true, not_and_or, decide_eq_true_iff] at hdue
    rcases hdue with hdue | hdue
    · rwa [Bool.not_eq_true, Option.isNone_eq_false_iff] at hdue
    · exact absurd hmany hdue

/-- What `progress` does to the record: it keeps what is kept, leaves nothing to do, and
moves the two broadcasts only by the sharing step. -/
structure Moved (sha : Wire.Digest) (a t : Asks n f) : Prop where
  sound : Sound sha t
  settled : Settled sha t
  kept : Kept a t
  rbc : t.rbc = a.rbc
  ra : t.ra = (a.share sha).1.ra
  pending : t.pending = a.pending
  started : t.reconstructStarted = a.reconstructStarted

/-- Reconstruction never fails, and leaves nothing to do. -/
theorem Sound.reconstruct (ha : Sound sha a) (hn : n ≤ 16) :
    ∃ valid key, a.reconstruct sha = .ok { a with valid := valid, key := key } ∧
      Sound sha { a with valid := valid, key := key } ∧
      Settled sha { a with valid := valid, key := key } ∧
      (∀ q, a.valid.contains q = true → valid.contains q = true) ∧
        ∀ k, a.key = some k → key = some k := by
  unfold Asks.reconstruct
  split_ifs with hstarted
  · obtain ⟨sh, hsh⟩ := Option.isSome_iff_exists.1 (ha.started hstarted)
    obtain ⟨k, hk, hsound, hkey, hkept⟩ := (ha.checkPending hsh).setKey hn hsh
    refine ⟨(a.checkPending sha sh).valid, k, ?_, hsound, ⟨?_, fun _ => hkey⟩, ?_, hkept⟩
    · nth_rewrite 1 [hsh]
      exact hk
    · intro _ sh' hsh' e he hmatch
      obtain rfl : sh = sh' := Option.some.inj (hsh.symm.trans hsh')
      exact contains_foldl_validate (.inr ⟨e, he, rfl, hmatch⟩)
    · exact fun q hq => contains_foldl_validate (.inl hq)
  · exact ⟨a.valid, a.key, rfl, ha, ⟨fun h => absurd h hstarted, fun h => absurd h hstarted⟩,
      fun _ => id, fun _ => id⟩

end Reconstruct

theorem share_frame (sha : Wire.Digest) (a : Asks n f) :
    (a.share sha).1.rbc = a.rbc ∧ (a.share sha).1.pending = a.pending ∧
    (a.share sha).1.valid = a.valid ∧
      (a.share sha).1.reconstructStarted = a.reconstructStarted := by
  have haccept : ∀ c, (a.accept sha c).1.rbc = a.rbc ∧ (a.accept sha c).1.pending = a.pending ∧
      (a.accept sha c).1.valid = a.valid ∧
        (a.accept sha c).1.reconstructStarted = a.reconstructStarted := by
    intro c
    unfold accept
    cases a.privateValid sha c <;> exact ⟨rfl, rfl, rfl, rfl⟩
  unfold Asks.share
  cases a.commits with
  | none => exact ⟨rfl, rfl, rfl, rfl⟩
  | some c =>
    simp only [Asks.finish]
    split_ifs <;> exact haccept c

section
variable (ha : Sound sha a) (hn : n ≤ 16)
include ha hn

/-- `progress` never fails; it sends what the sharing step sends. -/
theorem Sound.progress : ∃ t, a.progress sha = .ok (t, (a.share sha).2) ∧ Moved sha a t := by
  obtain ⟨valid, key, ht, hsound, hsettled, hvalid, hkey⟩ := ha.share.reconstruct hn
  obtain ⟨hrbc, hpending, hold, hstarted⟩ := share_frame sha a
  refine ⟨_, by rw [Asks.progress, ht, ok_bind, pure_eq_ok], hsound, hsettled, ?_, hrbc, rfl,
    hpending, hstarted⟩
  refine kept_share.trans { Kept.refl _ with key := hkey, held := fun q hq => ?_ }
  rw [Bool.or_eq_true] at hq ⊢
  exact hq.imp_right (hvalid q)

theorem receive_ok {m : Message} (hact : a.receive sha q m = .ok (t, out)) :
    ∃ b taken, q < n ∧ m.inst = a.inst ∧ a.take q m.body = .ok (b, taken) ∧ Moved sha b t ∧
      out = taken ++ (b.share sha).2 := by
  simp only [receive, bind_eq_ok, refuseIf_eq_ok, pure_inj, Prod.mk.injEq,
    Bool.or_eq_false_iff, decide_eq_false_iff_not, Nat.not_le, bne_eq_false_iff_eq] at hact
  obtain ⟨-, ⟨hq, hinst⟩, ⟨b, taken⟩, htake, ⟨t', more⟩, hprogress, rfl, rfl⟩ := hact
  obtain ⟨t'', ht, hmoved⟩ := (ha.take hq htake).progress hn
  rw [hprogress, Except.ok.injEq, Prod.mk.injEq] at ht
  obtain ⟨rfl, rfl⟩ := ht
  exact ⟨b, taken, hq, hinst, htake, hmoved, rfl⟩

/-- Starting to open does nothing the second time; the first time the party's share is
sent, and nothing else. -/
theorem startReconstruction_ok (hact : a.startReconstruction sha = .ok (t, out)) :
    ∃ sh, a.sharing = some sh ∧
      (a.reconstructStarted = true ∧ t = a ∧ out = [] ∨
        a.reconstructStarted = false ∧ Moved sha { a with reconstructStarted := true } t ∧
          out = a.opening sh) := by
  simp only [startReconstruction, bind_eq_ok, okOr_eq_ok] at hact
  obtain ⟨sh, hsh, hact⟩ := hact
  refine ⟨sh, hsh, ?_⟩
  split_ifs at hact with hstarted
  · cases hact
    exact .inl ⟨hstarted, rfl, rfl⟩
  · have hsound : Sound sha { a with reconstructStarted := true } :=
      { ha with started := fun _ => by rw [hsh]; rfl }
    obtain ⟨t', ht, hmoved⟩ := hsound.progress hn
    have hquiet := hsound.share_eq_self (by rw [hsh]; rfl)
    rw [ht, ok_bind, pure_eq_ok, Except.ok.injEq, Prod.mk.injEq, hquiet, append_nil] at hact
    obtain ⟨rfl, rfl⟩ := hact
    exact .inr ⟨by simpa using hstarted, hmoved, rfl⟩

theorem startReconstruction_total (hs : a.sharing.isSome) :
    ∃ t out, a.startReconstruction sha = .ok (t, out) := by
  obtain ⟨sh, hsh⟩ := Option.isSome_iff_exists.1 hs
  rw [startReconstruction, okOr_eq_ok.2 hsh, ok_bind]
  split_ifs
  · exact ⟨a, [], rfl⟩
  · have hsound : Sound sha { a with reconstructStarted := true } :=
      { ha with started := fun _ => hs }
    obtain ⟨t, ht, -⟩ := hsound.progress hn
    exact ⟨t, _, by rw [ht, ok_bind, pure_eq_ok]⟩

theorem startReconstruction_sound (hact : a.startReconstruction sha = .ok (t, out)) :
    Sound sha t ∧ (Settled sha a → Settled sha t) ∧ Kept a t := by
  obtain ⟨sh, hsh, ⟨-, rfl, -⟩ | ⟨-, hmoved, -⟩⟩ := startReconstruction_ok ha hn hact
  · exact ⟨ha, id, .refl t⟩
  · have hkept : Kept a { a with reconstructStarted := true } :=
      { Kept.refl a with started := fun _ => rfl }
    exact ⟨hmoved.sound, fun _ => hmoved.settled, hkept.trans hmoved.kept⟩

end

end MiniDregg.PrivateBackend.Asks
