import MiniDregg.RoomKeys.Growth

/-!
# The founder keys a client accepts

A client pins one founder key of a room and follows the served hand-overs through it. Between
two views it retains how many hand-overs it authenticated and the key they ended at. As long
as the founder keys sign no hand-over but the real ones, every chain of keys it accepts is a
beginning of the real one, and no shorter one is accepted later.

A founder key that was retired can still sign: whoever holds its secret can hand the room over
a second time, and a chain that is longer than the retained one is not compared with it.
-/

namespace MiniDregg.RoomKeys

open Fallible Store List OrderedMap

variable {c : Crypto} {ks : List Key} {ts : List FounderTransition} {chain : FounderChain}
  {pin : Key} {view : View} {lineage : Lineage}

section Chain
variable {room keys : UInt64}

/-- Keys handed from one to the next by transitions that verify, numbered from zero. -/
structure Handed (c : Crypto) (room keys : UInt64) (ks : List Key)
    (ts : List FounderTransition) : Prop where
  length : ks.length = ts.length + 1
  link : ∀ k t, ts[k]? = some t → t.index.toNat = k ∧ t.check c room keys = .ok () ∧
    ks[k]? = some t.oldKey ∧ ks[k + 1]? = some t.newKey

theorem Handed.single (k : Key) : Handed c room keys [k] [] :=
  ⟨rfl, fun _ _ h => by simp at h⟩

theorem Handed.push {t : FounderTransition} (h : Handed c room keys ks ts)
    (hindex : t.index.toNat = ts.length) (hcheck : t.check c room keys = .ok ())
    (hold : ks.getLast? = some t.oldKey) : Handed c room keys (ks ++ [t.newKey]) (ts ++ [t]) := by
  have hlength := h.length
  constructor
  · simp [hlength]
  · intro k u hu
    by_cases hk : k < ts.length
    · rw [getElem?_append_left hk] at hu
      obtain ⟨hindex', hcheck', hold', hnew'⟩ := h.link k u hu
      refine ⟨hindex', hcheck', ?_, ?_⟩
      · rw [getElem?_append_left (by omega), hold']
      · rw [getElem?_append_left (by omega), hnew']
    · obtain ⟨hlast, rfl⟩ : k = ts.length ∧ t = u := by
        rw [getElem?_append_right (by omega), getElem?_singleton] at hu
        split_ifs at hu with hzero
        exact ⟨by omega, Option.some.inj hu⟩
      refine ⟨hindex.trans hlast.symm, hcheck, ?_, ?_⟩
      · rw [getElem?_append_left (by omega), ← hold, getLast?_eq_getElem?, hlength, hlast,
          Nat.add_sub_cancel]
      · rw [getElem?_append_right (by omega), hlength, hlast]
        simp

theorem FounderChain.getLast?_keys (chain : FounderChain) :
    chain.keys.getLast? = some chain.tip := getLast?_eq_some_getLast chain.keys_ne_nil

variable {certificates : OrderedMap Nat EpochCertificate}

/-- Verified transitions hand the keys of the chain from one to the next. -/
theorem FounderChain.verifyFrom_eq_ok
    {done : List FounderTransition} {position : Nat} {r : FounderChain}
    (hdone : Handed c room keys chain.keys done) (hposition : position = done.length)
    (h : verifyFrom c room keys certificates position chain ts = .ok r) :
    Handed c room keys r.keys (done ++ ts) ∧
      ∀ t ∈ ts, ∃ a, certificates.get? t.afterEpoch.toNat = some a := by
  induction ts generalizing done position chain with
  | nil =>
    cases h
    rw [append_nil]
    exact ⟨hdone, by simp⟩
  | cons t rest ih =>
    simp only [verifyFrom] at h
    obtain ⟨hindex, h⟩ := check_bind_eq_ok.1 h
    obtain ⟨hcheck, h⟩ := check_bind_eq_ok.1 h
    obtain ⟨hold, h⟩ := check_bind_eq_ok.1 h
    obtain ⟨-, h⟩ := check_bind_eq_ok.1 h
    simp only [refuseIf_decide, not_not] at hindex hold
    cases hget : certificates.get? t.afterEpoch.toNat with
    | none => simp [hget] at h
    | some a =>
      simp only [hget] at h
      obtain ⟨-, h⟩ := check_bind_eq_ok.1 h
      obtain ⟨-, h⟩ := check_bind_eq_ok.1 h
      have hpush : Handed c room keys (chain.push t.newKey t.afterEpoch).keys (done ++ [t]) := by
        apply hdone.push (hindex.trans hposition) hcheck
        rw [getLast?_keys, hold]
      obtain ⟨hhanded, hshown⟩ := ih hpush (by simp [hposition]) h
      rw [append_assoc] at hhanded
      exact ⟨hhanded, forall_mem_cons.2 ⟨⟨a, hget⟩, hshown⟩⟩

/-- A verified chain holds the pin, and its keys are handed over by the transitions. -/
theorem FounderChain.verify_eq_ok (h : verify c room keys pin ts certificates = .ok chain) :
    Handed c room keys chain.keys ts ∧ pin ∈ chain.keys ∧
      ∀ t ∈ ts, ∃ a, certificates.get? t.afterEpoch.toNat = some a := by
  cases ts with
  | nil =>
    cases h
    exact ⟨Handed.single pin, by simp [single], by simp⟩
  | cons first rest =>
    obtain ⟨r, hr, h⟩ := bind_eq_ok.1 h
    obtain ⟨hpin, h⟩ := check_bind_eq_ok.1 h
    cases h
    have hfirst : Handed c room keys (single first.oldKey).keys [] := Handed.single _
    obtain ⟨hhanded, hshown⟩ := verifyFrom_eq_ok hfirst rfl hr
    exact ⟨hhanded, by simpa using hpin, hshown⟩

theorem mem_of_keyByAddress {α : Type} {check : α → Result Unit} {address : α → Nat}
    {repeated : String} {l : List α} {m r : OrderedMap Nat α} {a : α}
    (h : keyByAddress check address repeated l m = .ok r) (ha : a ∈ r.values) :
    a ∈ l ∨ a ∈ m.values := by
  induction l generalizing m with
  | nil =>
    cases h
    exact .inr ha
  | cons b rest ih =>
    obtain ⟨-, h⟩ := check_bind_eq_ok.1 h
    obtain ⟨-, h⟩ := check_bind_eq_ok.1 h
    rcases ih h with ha | ha
    · exact .inl (mem_cons_of_mem b ha)
    · obtain ⟨k, hk⟩ := mem_values.1 ha
      obtain ⟨-, rfl⟩ | hk := of_get?_insert hk
      · exact .inl mem_cons_self
      · exact .inr (mem_values.2 ⟨k, hk⟩)

theorem mem_of_transitionsInView (h : transitionsInView view = .ok ts) :
    ∀ t ∈ ts, t ∈ view.transitions := by
  obtain ⟨m, hm, h⟩ := bind_eq_ok.1 h
  cases h
  intro t ht
  rcases mem_of_keyByAddress hm ht with ht | ht
  · exact ht
  · cases ht

theorem servedCertificates_eq {ws : List WrapAtom} {m r : OrderedMap Nat EpochCertificate}
    (h : servedCertificates ws m = .ok r) : r = gather ws m := by
  induction ws generalizing m with
  | nil => exact (Except.ok.inj h).symm
  | cons w rest ih =>
    simp only [servedCertificates, gather] at h ⊢
    cases hatt : w.attestation with
    | none => simp [hatt] at h
    | some a =>
      simp only [hatt] at h
      obtain ⟨m', hm', h⟩ := bind_eq_ok.1 h
      cases insertCertificate_eq hm'
      exact ih h

/-- The founder keys of a verified lineage: handed over by served transitions through the
pin, and only in a cell that shows an epoch. -/
theorem verifyLineage_chain {retained : Option EpochHead}
    (h : verifyLineage c room keys pin view retained = .ok lineage) :
    ∃ ts, (∀ t ∈ ts, t ∈ view.transitions) ∧ Handed c room keys lineage.chain.keys ts ∧
      pin ∈ lineage.chain.keys ∧ (ts ≠ [] → lineage.epochs ≠ []) := by
  obtain ⟨ws, -, h⟩ := bind_eq_ok.1 h
  obtain ⟨releases, -, h⟩ := bind_eq_ok.1 h
  obtain ⟨ts, hts, h⟩ := bind_eq_ok.1 h
  obtain ⟨served, hserved, h⟩ := bind_eq_ok.1 h
  obtain ⟨chain, hchain, h⟩ := bind_eq_ok.1 h
  obtain ⟨-, h⟩ := check_bind_eq_ok.1 h
  obtain ⟨certificates, hwraps, h⟩ := bind_eq_ok.1 h
  obtain ⟨head, -, h⟩ := bind_eq_ok.1 h
  cases h
  obtain ⟨rfl, -⟩ := checkWraps_eq_ok hwraps
  cases servedCertificates_eq hserved
  obtain ⟨hhanded, hpin, hshown⟩ := FounderChain.verify_eq_ok hchain
  refine ⟨ts, mem_of_transitionsInView hts, hhanded, hpin, fun hne hnil => ?_⟩
  obtain ⟨t, ht⟩ := exists_mem_of_ne_nil ts hne
  obtain ⟨a, ha⟩ := hshown t ht
  have hmem : a ∈ (gather ws .empty).values := mem_values.2 ⟨_, ha⟩
  rw [Lineage.epochs] at hnil
  rw [hnil] at hmem
  cases hmem

end Chain

variable {founders : List Key}

section Genuine
variable {room keys : UInt64}

/-- The founder keys sign no hand-over but the one from each to its next: a transition that
verifies and names one of them is that one. -/
def OnlyRealHandOvers (c : Crypto) (room keys : UInt64) (founders : List Key)
    (ts : List FounderTransition) : Prop :=
  ∀ t ∈ ts, t.check c room keys = .ok () → t.oldKey ∈ founders ∨ t.newKey ∈ founders →
    founders[t.index.toNat]? = some t.oldKey ∧ founders[t.index.toNat + 1]? = some t.newKey

section
variable (h : Handed c room keys ks ts) (hreal : OnlyRealHandOvers c room keys founders ts)
include h hreal

/-- A key handed on or received, that is a founder key, is so in its place, with its
neighbour. -/
theorem Handed.real_link {k : Nat} (hk : k < ts.length)
    (hfounder : (∃ a ∈ founders, ks[k]? = some a) ∨ ∃ a ∈ founders, ks[k + 1]? = some a) :
    ks[k]? = founders[k]? ∧ ks[k + 1]? = founders[k + 1]? := by
  have ht : ts[k]? = some (ts[k]) := getElem?_eq_getElem hk
  obtain ⟨hindex, hcheck, hold, hnew⟩ := h.link k _ ht
  have hnamed : ts[k].oldKey ∈ founders ∨ ts[k].newKey ∈ founders := by
    apply hfounder.imp
    · rintro ⟨a, ha, hka⟩
      rw [hold] at hka
      exact Option.some.inj hka ▸ ha
    · rintro ⟨a, ha, hka⟩
      rw [hnew] at hka
      exact Option.some.inj hka ▸ ha
  have hplace := hreal _ (getElem_mem hk) hcheck hnamed
  rw [hindex] at hplace
  exact ⟨hold.trans hplace.1.symm, hnew.trans hplace.2.symm⟩

/-- Keys handed over through a founder key are a beginning of the founder keys, or one key
alone. -/
theorem Handed.isPrefix (hts : ts ≠ []) (hpin : pin ∈ ks) (hfounder : pin ∈ founders) :
    ks <+: founders := by
  have hlength := h.length
  have hpos : 0 < ts.length := length_pos_of_ne_nil hts
  obtain ⟨p, hp, hpin⟩ := mem_iff_getElem.1 hpin
  -- A founder key in one place makes the keys beside it founder keys; so all of them are.
  have hstep : ∀ k < ts.length, ((∃ a ∈ founders, ks[k]? = some a) ↔
      ∃ a ∈ founders, ks[k + 1]? = some a) := by
    have hof {k : Nat} (hk : ks[k]? = founders[k]?) (hlt : k < ks.length) :
        ∃ a ∈ founders, ks[k]? = some a := by
      refine ⟨ks[k], mem_of_getElem? (?_ : founders[k]? = _), getElem?_eq_getElem hlt⟩
      rw [← hk, getElem?_eq_getElem hlt]
    intro k hk
    constructor
    · exact fun hat => hof (h.real_link hreal hk (.inl hat)).2 (by omega)
    · exact fun hat => hof (h.real_link hreal hk (.inr hat)).1 (by omega)
  have hfirst : ∀ k ≤ ts.length, ((∃ a ∈ founders, ks[0]? = some a) ↔
      ∃ a ∈ founders, ks[k]? = some a) := by
    intro k
    induction k with
    | zero => exact fun _ => Iff.rfl
    | succ k ih => exact fun hk => (ih (by omega)).trans (hstep k hk)
  have hall : ∀ k < ks.length, ∃ a ∈ founders, ks[k]? = some a := by
    have hat : ∃ a ∈ founders, ks[p]? = some a := ⟨pin, hfounder, by rw [← hpin]; simp [hp]⟩
    intro k hk
    exact (hfirst k (by omega)).1 ((hfirst p (by omega)).2 hat)
  rw [prefix_iff_getElem?]
  intro k hk
  rw [← getElem?_eq_getElem hk]
  symm
  by_cases hlast : k < ts.length
  · exact (h.real_link hreal hlast (.inl (hall k hk))).1
  · obtain ⟨j, rfl⟩ : ∃ j, k = j + 1 := ⟨k - 1, by omega⟩
    exact (h.real_link hreal (by omega) (.inr (hall (j + 1) hk))).2

end

end Genuine

section Runs
variable {room keys : UInt64}

/-- A chain against an earlier one: no fewer hand-overs, and after as many the same key. -/
structure FounderChain.Continues (chain : FounderChain) (seen : Nat) (tip : Option Key) :
    Prop where
  le : seen ≤ chain.transitions
  tip : 0 < seen → chain.transitions = seen → ∀ key, tip = some key → chain.tip = key

/-- The check refuses a chain that is shorter, or as long with another tip, and no other. -/
theorem checkChainNotRolledBack_eq_ok {retained : Option Retained} :
    checkChainNotRolledBack retained chain = .ok () ↔
      chain.Continues (retainedTransitions retained) (retainedFounderTip retained) := by
  simp only [checkChainNotRolledBack, check_bind_eq_ok, refuseIf_decide, not_lt, not_and]
  constructor
  · rintro ⟨hle, hfork⟩
    refine ⟨hle, fun hpos heq key hkey => ?_⟩
    have hsame : key = chain.tip := by simpa [hkey] using hfork heq hpos
    exact hsame.symm
  · intro h
    refine ⟨h.le, fun heq hpos => ?_⟩
    cases htip : retainedFounderTip retained with
    | none => simp
    | some key => simp [h.tip hpos heq key htip]

theorem FounderChain.Continues.trans {later : FounderChain} {seen seen' : Nat}
    {tip tip' : Option Key} (h : chain.Continues seen tip) (h' : later.Continues seen' tip')
    (hseen : seen' = chain.transitions)
    (htip : 0 < chain.transitions → tip' = some chain.tip) : later.Continues seen tip where
  le := h.le.trans (hseen ▸ h'.le)
  tip := by
    subst hseen
    intro hpos heq key hkey
    have hsame : chain.transitions = seen := le_antisymm (heq ▸ h'.le) h.le
    rw [h'.tip (hsame ▸ hpos) (heq.trans hsame.symm) _ (htip (hsame ▸ hpos))]
    exact h.tip hpos hsame key hkey

/-- One synchronization: the chain continues the retained one, and its length and its tip are
what is retained. -/
theorem sync_continues {retained retained' : Option Retained} {latest : Option UInt32}
    (h : sync c room keys pin retained latest view = .ok (lineage, retained')) :
    lineage.chain.Continues (retainedTransitions retained) (retainedFounderTip retained) ∧
      retainedTransitions retained' = lineage.chain.transitions ∧
      (0 < lineage.chain.transitions → retainedFounderTip retained' = some lineage.chain.tip) := by
  have hhead := (sync_eq_ok h).1.head_eq
  obtain ⟨shown, hverify, h⟩ := bind_eq_ok.1 h
  obtain ⟨hchain, h⟩ := check_bind_eq_ok.1 h
  obtain ⟨-, h⟩ := check_bind_eq_ok.1 h
  cases h
  have hcontinues := checkChainNotRolledBack_eq_ok.1 hchain
  refine ⟨hcontinues, ?_⟩
  simp only [retainEpochHead]
  cases hcase : lineage.head with
  | some head => exact ⟨rfl, fun _ => rfl⟩
  | none =>
    -- Without an epoch there is no hand-over, so none was retained before either.
    obtain ⟨ts, -, hhanded, -, hepochs⟩ := verifyLineage_chain hverify
    have hnil : ts = [] := by
      by_contra hne
      apply hepochs hne
      rw [hcase] at hhead
      simpa using hhead.symm
    have hzero : lineage.chain.transitions = 0 := by
      have hlength := hhanded.length
      rw [hnil, lineage.chain.length, length_nil] at hlength
      exact Nat.succ.inj hlength
    have hle := hcontinues.le
    rw [hzero] at hle ⊢
    exact ⟨Nat.le_zero.1 hle, fun hpos => absurd hpos (lt_irrefl 0)⟩

variable {views : List (Option UInt32 × View)}

/-- Every accepted chain continues those before it. -/
theorem syncs_continues {retained : Option Retained} :
    (∀ lineage ∈ syncs c room keys pin retained views,
        lineage.chain.Continues (retainedTransitions retained) (retainedFounderTip retained)) ∧
      (syncs c room keys pin retained views).Pairwise fun earlier later =>
        later.chain.Continues earlier.chain.transitions (some earlier.chain.tip) := by
  induction views generalizing retained with
  | nil => simp [syncs]
  | cons view rest ih =>
    simp only [syncs]
    cases hsync : sync c room keys pin retained view.1 view.2 with
    | error e => exact ih
    | ok r =>
      obtain ⟨lineage, retained'⟩ := r
      obtain ⟨hfirst, hseen, htip⟩ := sync_continues hsync
      obtain ⟨habove, hpairwise⟩ := @ih retained'
      have hself : lineage.chain.Continues lineage.chain.transitions (some lineage.chain.tip) :=
        ⟨le_rfl, fun _ _ _ hkey => Option.some.inj hkey⟩
      constructor
      · intro later hlater
        rcases mem_cons.1 hlater with rfl | hlater
        · exact hfirst
        · exact hfirst.trans (habove later hlater) hseen htip
      · refine pairwise_cons.2 ⟨fun later hlater => ?_, hpairwise⟩
        exact hself.trans (habove later hlater) hseen htip

/-- An accepted chain is the pin alone or a beginning of the founder keys. -/
theorem syncs_chain {retained : Option Retained} (hpin : pin ∈ founders)
    (hreal : OnlyRealHandOvers c room keys founders (views.flatMap (·.2.transitions))) :
    ∀ lineage ∈ syncs c room keys pin retained views,
      lineage.chain.keys = [pin] ∨ lineage.chain.keys <+: founders := by
  refine syncs_forall fun view hview retained r hsync => ?_
  obtain ⟨shown, hverify, h⟩ := bind_eq_ok.1 hsync
  obtain ⟨-, h⟩ := check_bind_eq_ok.1 h
  obtain ⟨-, h⟩ := check_bind_eq_ok.1 h
  cases h
  obtain ⟨ts, hserved, hhanded, hmem, -⟩ := verifyLineage_chain hverify
  by_cases hnil : ts = []
  · left
    have hlength := hhanded.length
    rw [hnil] at hlength
    obtain ⟨key, hkey⟩ := length_eq_one_iff.1 hlength
    rw [hkey, mem_singleton] at hmem
    rw [hkey, hmem]
  · right
    apply hhanded.isPrefix (fun t ht => hreal t ?_) hnil hmem hpin
    exact mem_flatMap.2 ⟨view, hview, hserved t ht⟩

theorem isPrefix_of_chain (hseen : 0 < chain.transitions ∨ founders.head? = some pin)
    (hchain : chain.keys = [pin] ∨ chain.keys <+: founders) : chain.keys <+: founders := by
  rcases hchain with hpin | hprefix
  · rcases hseen with hpos | hfirst
    · have hlength := chain.length
      rw [hpin, length_singleton] at hlength
      rw [FounderChain.transitions] at hpos
      omega
    · rw [hpin]
      obtain ⟨rest, rfl⟩ := head?_eq_some_iff.1 hfirst
      exact ⟨rest, rfl⟩
  · exact hprefix

/-- Whoever signs, a client accepts no chain with fewer hand-overs than one it accepted before,
and none with as many and another tip. As long as the founder keys sign no hand-over but the real
ones, the founder keys that it accepts once it saw a hand-over are the first ones of all that it
accepts later. -/
theorem founderKeys_isPrefix (c : Crypto) (room keys : UInt64) (pin : Key) (founders : List Key)
    (views : List (Option UInt32 × View)) :
    ((syncs c room keys pin none views).Pairwise fun earlier later =>
      later.chain.Continues earlier.chain.transitions (some earlier.chain.tip)) ∧
    (pin ∈ founders →
      OnlyRealHandOvers c room keys founders (views.flatMap (·.2.transitions)) →
      (syncs c room keys pin none views).Pairwise fun earlier later =>
        0 < earlier.chain.transitions ∨ founders.head? = some pin →
          earlier.chain.keys <+: later.chain.keys) := by
  have hcontinues : (syncs c room keys pin none views).Pairwise fun earlier later =>
    later.chain.Continues earlier.chain.transitions (some earlier.chain.tip) := syncs_continues.2
  refine ⟨hcontinues, fun hpin hreal => ?_⟩
  have hchain := @syncs_chain c pin founders room keys views none hpin hreal
  refine hcontinues.imp_of_mem fun {earlier later} hearlier hlater hlonger hseen => ?_
  apply prefix_of_prefix_length_le (isPrefix_of_chain hseen (hchain earlier hearlier))
  · apply isPrefix_of_chain (hseen.imp (fun hpos => ?_) id) (hchain later hlater)
    exact hpos.trans_le hlonger.le
  · rw [earlier.chain.length, later.chain.length]
    exact Nat.succ_le_succ hlonger.le

end Runs

/-- A key of one repeated byte. -/
def repeatedByte (b : UInt8) : Key := ⟨List.replicate 32 b, by simp⟩

def blankSignature : Signature := ⟨List.replicate 64 0, by simp⟩

/-- A hand-over after the first epoch. -/
def handOver (index : UInt32) (old new : UInt8) : FounderTransition where
  room := 1
  keys := 2
  index := index
  afterEpoch := 0
  afterCertificate := repeatedByte 9
  oldKey := repeatedByte old
  newKey := repeatedByte new
  oldSignature := blankSignature
  newSignature := blankSignature

/-- The certificate of the first epoch. -/
def firstCertificate : EpochCertificate where
  room := 1
  keys := 2
  epoch := 0
  parent := zeroDigest
  keyCommitment := zeroDigest
  signer := 7
  signerEpoch := 0
  signerPublic := repeatedByte 1
  signature := blankSignature

/-- The founder's own wrap of the first epoch. -/
def firstWrap : WrapAtom where
  epoch := 0
  gen := 0
  member := 7
  encId := zeroDigest
  wrapped := ⟨List.replicate 1192 0, List.length_replicate⟩
  grant := 0
  attestation := some
    { certificate := firstCertificate, signer := 7, signerEpoch := 0
      signerPublic := repeatedByte 1, signature := blankSignature }

def firstRelease : ReleaseStatement where
  room := 1
  keys := 2
  epoch := 0
  certificate := repeatedByte 9
  member := 7
  gen := 0
  record := zeroDigest
  grant := 0
  commitment := repeatedByte 9
  signerPublic := repeatedByte 1
  signature := blankSignature

/-- A keys cell at the first epoch with some hand-overs. -/
def firstEpochView (transitions : List FounderTransition) : View where
  preHybrid := false
  wraps := [firstWrap]
  releases := [firstRelease]
  transitions := transitions
  records := []

/-- The second founder key signed its hand-over alone; whoever serves the cell signs with every
other key, the retired first one among them. -/
def leakedCrypto : Crypto where
  cshake := fun _ => repeatedByte 9
  isKey := fun _ => true
  verifyStrict := fun key message _ =>
    key != repeatedByte 2 || message == (handOver 0 1 2).statement

/-- Signatures that all verify. -/
def permissiveCrypto : Crypto := { leakedCrypto with verifyStrict := fun _ _ _ => true }

/-- The views of two real hand-overs one after the other. -/
def handOverViews : List (Option UInt32 × View) :=
  [(none, firstEpochView [handOver 0 1 2]), (none, firstEpochView [handOver 0 1 2, handOver 1 2 3])]

/-- Two real hand-overs are accepted one after the other. -/
theorem founderKeys_isPrefix_handOverViews :
    (syncs permissiveCrypto 1 2 (repeatedByte 1) none handOverViews).length = 2 ∧
    (syncs permissiveCrypto 1 2 (repeatedByte 1) none handOverViews).Pairwise
      fun earlier later => 0 < earlier.chain.transitions ∨
          [repeatedByte 1, repeatedByte 2, repeatedByte 3].head? = some (repeatedByte 1) →
        earlier.chain.keys <+: later.chain.keys := by
  constructor
  · decide +kernel
  · apply (founderKeys_isPrefix permissiveCrypto 1 2 (repeatedByte 1)
      [repeatedByte 1, repeatedByte 2, repeatedByte 3] handOverViews).2
    · exact mem_cons_self
    · intro t ht _ _
      change t ∈ [handOver 0 1 2, handOver 0 1 2, handOver 1 2 3] at ht
      simp only [mem_cons, not_mem_nil, or_false] at ht
      rcases ht with rfl | rfl | rfl <;> exact ⟨rfl, rfl⟩

/-- With the secret of a retired founder key a longer chain is served that leaves out the key
in effect, and the client that saw the hand-over accepts it. -/
theorem longerFork_accepted :
    (∀ message signature, leakedCrypto.verifyStrict (repeatedByte 2) message signature = true →
      message = (handOver 0 1 2).statement) ∧
    (syncs leakedCrypto 1 2 (repeatedByte 1) none
      [(none, firstEpochView [handOver 0 1 2]),
        (none, firstEpochView [handOver 0 1 3, handOver 1 3 4])]).map (·.chain.keys) =
      [[repeatedByte 1, repeatedByte 2], [repeatedByte 1, repeatedByte 3, repeatedByte 4]] ∧
    ¬ [repeatedByte 1, repeatedByte 2] <+: [repeatedByte 1, repeatedByte 3, repeatedByte 4] := by
  refine ⟨fun message signature h => ?_, ?_, ?_⟩
  · simpa [leakedCrypto] using h
  · decide +kernel
  · decide

end MiniDregg.RoomKeys
