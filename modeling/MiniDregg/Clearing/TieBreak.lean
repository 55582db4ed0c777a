import MiniDregg.Clearing.Completeness

/-!
# How the solver breaks ties

The price loop runs over the candidates in ascending order and keeps the first one that
clears the most with the least imbalance. Its comment promises two things that the
comparisons leave out: among candidates that clear nothing the imbalance is not compared,
and a price of zero is not given up for a positive one that is as good.

## Implementation notes

The loop is followed on words, with what is known of the candidates seen so far as its
invariant. The statement about the prices is over natural numbers.
-/

namespace MiniDregg.Clearing

open Arith List U128

variable {orders : List Order} {best : Best} {c p : U128} {seen : List U128}

/-- The imbalance word of the price loop. -/
def imbalanceWord (orders : List Order) (p : U128) : U128 :=
  (crossingCapacity .bid orders p).absDiff (crossingCapacity .ask orders p)

/-- How far crossing demand and supply are apart at a price. -/
def imbalance (orders : List Order) (price : ℕ) : ℕ :=
  ((sideCapacity .bid orders price : ℤ) - sideCapacity .ask orders price).natAbs

/-- A candidate with the largest volume and, among those, the smallest imbalance. -/
structure Optimal (orders : List Order) (p : U128) : Prop where
  mem : p ∈ candidates orders
  volume : ∀ q ∈ candidates orders, crossVolume orders q.toNat ≤ crossVolume orders p.toNat
  imbalance : ∀ q ∈ candidates orders, crossVolume orders q.toNat = crossVolume orders p.toNat →
    imbalance orders p.toNat ≤ imbalance orders q.toNat

/-- The price that the comment of the loop describes: optimal, positive when an optimal
candidate is, and then the smallest of these. -/
structure TieBroken (orders : List Order) (p : U128) : Prop where
  optimal : Optimal orders p
  least : ∀ q, Optimal orders q → 0 < q.toNat → 0 < p.toNat ∧ p.toNat ≤ q.toNat

/-- The books on which the left out comparisons make no difference: either something clears,
or the lowest candidate has the smallest imbalance; and zero is not as good as a positive
candidate. -/
structure Undisputed (orders : List Order) : Prop where
  idle : (∀ q ∈ candidates orders, crossVolume orders q.toNat = 0) →
    ∀ q ∈ candidates orders, imbalance orders ((candidates orders).headD 0).toNat ≤
      imbalance orders q.toNat
  zero : ∀ p q, Optimal orders p → Optimal orders q → p.toNat = 0 → q.toNat = 0

theorem insertAscending_ascending {a : U128} {l : List U128} (h : l.Pairwise (· < ·)) :
    (insertAscending a l).Pairwise (· < ·) := by
  induction l with
  | nil => simp [insertAscending]
  | cons b rest ih =>
    obtain ⟨hb, hrest⟩ := pairwise_cons.1 h
    simp only [insertAscending]
    split
    next hlt =>
      refine pairwise_cons.2 ⟨?_, h⟩
      intro x hx
      rcases mem_cons.1 hx with rfl | hx
      · exact hlt
      · exact hlt.trans (hb x hx)
    next hnot =>
      split
      · exact h
      next hne =>
        refine pairwise_cons.2 ⟨?_, ih hrest⟩
        intro x hx
        rcases mem_insertAscending.1 hx with rfl | hx
        · exact lt_of_le_of_ne (not_lt.1 hnot) (Ne.symm hne)
        · exact hb x hx

theorem thresholds_ascending (orders : List Order) : (thresholds orders).Pairwise (· < ·) := by
  refine List.foldlRecOn (motive := fun acc : List U128 => acc.Pairwise (· < ·)) orders _ .nil
    fun acc hacc o _ => ?_
  exact insertAscending_ascending (insertAscending_ascending (insertAscending_ascending hacc))

theorem withMidpoints_ascending {bidLimits askLimits acc : List U128} (h : acc.Pairwise (· < ·)) :
    (withMidpoints bidLimits askLimits acc).Pairwise (· < ·) := by
  refine List.foldlRecOn (motive := fun acc : List U128 => acc.Pairwise (· < ·)) bidLimits _ h
    fun acc hacc b _ => ?_
  refine List.foldlRecOn (motive := fun acc : List U128 => acc.Pairwise (· < ·)) askLimits _ hacc
    fun acc hacc a _ => ?_
  by_cases hab : a ≤ b
  · simp only [hab, if_true]
    exact insertAscending_ascending hacc
  · simpa only [hab, if_false] using hacc

theorem candidates_ascending (orders : List Order) : (candidates orders).Pairwise (· < ·) := by
  unfold candidates
  dsimp only
  split
  · exact insertAscending_ascending (withMidpoints_ascending (thresholds_ascending orders))
  · exact withMidpoints_ascending (thresholds_ascending orders)

theorem headD_mem_candidates (orders : List Order) :
    (candidates orders).headD 0 ∈ candidates orders := by
  obtain ⟨c, rest, hc⟩ := exists_cons_of_ne_nil (candidates_ne_nil orders)
  rw [hc]
  exact mem_cons_self

theorem headD_le_candidate {q : U128} (hq : q ∈ candidates orders) :
    (candidates orders).headD 0 ≤ q := by
  have hsorted := candidates_ascending orders
  obtain ⟨c, rest, hc⟩ := exists_cons_of_ne_nil (candidates_ne_nil orders)
  rw [hc] at hq hsorted ⊢
  rcases mem_cons.1 hq with rfl | hq
  · exact le_rfl
  · exact ((pairwise_cons.1 hsorted).1 q hq).le

/-- What the loop knows of the candidates it has seen, `c` the lowest of all. -/
structure Leads (orders : List Order) (c : U128) (seen : List U128) (best : Best) : Prop where
  top : ∀ q ∈ seen, volumeWord orders q ≤ best.vol
  idle : best.vol = 0 → best.price = c
  chosen : 0 < best.vol → best.price ∈ seen ∧ volumeWord orders best.price = best.vol ∧
    imbalanceWord orders best.price = best.imbalance
  least : 0 < best.vol → ∀ q ∈ seen, volumeWord orders q = best.vol →
    best.imbalance < imbalanceWord orders q ∨
      best.imbalance = imbalanceWord orders q ∧ best.price ≤ q

theorem beatenBy_cases {vol imbalance : U128} (h : best.beatenBy vol imbalance = true) :
    best.vol < vol ∨ (vol = best.vol ∧ 0 < vol ∧ imbalance < best.imbalance) := by
  unfold Best.beatenBy at h
  split at h
  · exact .inl (of_decide_eq_true h)
  next heq =>
    split at h
    · next hpos => exact .inr ⟨not_not.1 heq, hpos.1, of_decide_eq_true h⟩
    · cases h

theorem not_beatenBy_cases {vol imbalance : U128} (h : ¬best.beatenBy vol imbalance = true) :
    vol ≤ best.vol ∧ (vol = best.vol → 0 < vol → best.imbalance ≤ imbalance) := by
  refine ⟨Best.le_of_not_beatenBy h, ?_⟩
  intro heq hpos
  unfold Best.beatenBy at h
  rw [if_neg (not_not.2 heq)] at h
  by_cases hne : imbalance = best.imbalance
  · exact hne.ge
  · rw [if_pos ⟨hpos, hne⟩] at h
    exact not_lt.1 fun hlt => h (decide_eq_true hlt)

/-- One round of the loop on a candidate above all that were seen. -/
theorem Leads.step (h : Leads orders c seen best) (hp : ∀ q ∈ seen, q < p) :
    Leads orders c (seen ++ [p]) (selectStep orders best p) := by
  have hmem : ∀ {q}, q ∈ seen ++ [p] → q ∈ seen ∨ q = p := by
    intro q hq
    simpa using hq
  have hstep : selectStep orders best p =
      if best.beatenBy (volumeWord orders p) (imbalanceWord orders p) then
        ⟨p, volumeWord orders p, imbalanceWord orders p⟩ else best := rfl
  rw [hstep]
  split
  next hbeaten =>
    have hlast : p ∈ seen ++ [p] := by simp
    rcases beatenBy_cases hbeaten with hlt | ⟨heq, hpos, hless⟩
    · constructor
      · intro q hq
        rcases hmem hq with hq | rfl
        · exact (h.top q hq).trans hlt.le
        · exact le_rfl
      · intro hzero
        have hword : volumeWord orders p = 0 := hzero
        exact absurd (hword ▸ hlt) (by simp [lt_iff])
      · exact fun _ => ⟨hlast, rfl, rfl⟩
      · intro _ q hq hvol
        rcases hmem hq with hq | rfl
        · have hle : volumeWord orders p ≤ best.vol := hvol.symm.trans_le (h.top q hq)
          exact absurd hle (not_le.2 hlt)
        · exact .inr ⟨rfl, le_rfl⟩
    · constructor
      · intro q hq
        rcases hmem hq with hq | rfl
        · exact (h.top q hq).trans heq.ge
        · exact le_rfl
      · intro hzero
        have hword : volumeWord orders p = 0 := hzero
        exact absurd (hword ▸ hpos) (lt_irrefl 0)
      · exact fun _ => ⟨hlast, rfl, rfl⟩
      · intro _ q hq hvol
        rcases hmem hq with hq | rfl
        · rcases h.least (heq ▸ hpos) q hq (hvol.trans heq) with hq' | ⟨hq', -⟩
          · exact .inl (hless.trans hq')
          · exact .inl (hless.trans_eq hq')
        · exact .inr ⟨rfl, le_rfl⟩
  next hkept =>
    obtain ⟨hle, himb⟩ := not_beatenBy_cases hkept
    constructor
    · intro q hq
      rcases hmem hq with hq | rfl
      · exact h.top q hq
      · exact hle
    · exact h.idle
    · intro hpos
      obtain ⟨hseen, hrest⟩ := h.chosen hpos
      exact ⟨mem_append_left _ hseen, hrest⟩
    · intro hpos q hq hvol
      rcases hmem hq with hq | rfl
      · exact h.least hpos q hq hvol
      · rcases (himb hvol (hpos.trans_eq hvol.symm)).lt_or_eq with hlt | heq
        · exact .inl hlt
        · exact .inr ⟨heq, (hp _ (h.chosen hpos).1).le⟩

/-- The loop over ascending candidates. -/
theorem Leads.run (l : List U128) (h : Leads orders c seen best)
    (hsorted : (seen ++ l).Pairwise (· < ·)) :
    Leads orders c (seen ++ l) (l.foldl (selectStep orders) best) := by
  induction l generalizing seen best with
  | nil => simpa using h
  | cons p l ih =>
    have hp : ∀ q ∈ seen, q < p := fun q hq =>
      (pairwise_append.1 hsorted).2.2 q hq p mem_cons_self
    rw [append_cons] at hsorted ⊢
    exact ih (h.step hp) hsorted

theorem selectPrice_leads (orders : List Order) :
    Leads orders ((candidates orders).headD 0) (candidates orders) (selectPrice orders) := by
  have hstart : Leads orders ((candidates orders).headD 0) []
      ⟨(candidates orders).headD 0, 0, maxValue⟩ := by
    constructor
    · simp
    · exact fun _ => rfl
    · exact fun hpos => absurd hpos (by simp)
    · exact fun hpos => absurd hpos (by simp)
  exact hstart.run (candidates orders) (candidates_ascending orders)

section
variable (h : SelectionFits orders)
include h

theorem SelectionFits.toNat_imbalanceWord (hp : p ∈ candidates orders) :
    (imbalanceWord orders p).toNat = imbalance orders p.toNat := by
  have hbid := toNat_crossingCapacity .bid (h.notional p hp) h.goods
  have hask := toNat_crossingCapacity .ask (h.notional p hp) h.goods
  simp only [imbalanceWord, absDiff, imbalance, hbid, hask]
  omega

/-- When something clears, the selected price is the smallest optimal one. -/
theorem selectPrice_of_pos (hpos : 0 < (selectPrice orders).vol) :
    Optimal orders (selectPrice orders).price ∧
      ∀ q, Optimal orders q → (selectPrice orders).price ≤ q := by
  have hleads := selectPrice_leads orders
  obtain ⟨hmem, hvol, himb⟩ := hleads.chosen hpos
  have hvolume : ∀ q ∈ candidates orders, crossVolume orders q.toNat ≤
      crossVolume orders (selectPrice orders).price.toNat := by
    intro q hq
    rw [← h.toNat_volumeWord hq, ← h.toNat_volumeWord hmem, hvol]
    exact le_iff.1 (hleads.top q hq)
  have hword : ∀ q ∈ candidates orders, crossVolume orders q.toNat =
      crossVolume orders (selectPrice orders).price.toNat →
      volumeWord orders q = (selectPrice orders).vol := by
    intro q hq heq
    apply ext
    rw [← hvol, h.toNat_volumeWord hq, h.toNat_volumeWord hmem, heq]
  refine ⟨⟨hmem, hvolume, ?_⟩, ?_⟩
  · intro q hq heq
    rw [← h.toNat_imbalanceWord hmem, ← h.toNat_imbalanceWord hq, himb]
    rcases hleads.least hpos q hq (hword q hq heq) with hlt | ⟨heq', -⟩
    · exact (lt_iff.1 hlt).le
    · exact (le_iff.1 heq'.le)
  · intro q hq
    have hsame := le_antisymm (hvolume q hq.mem) (hq.volume _ hmem)
    rcases hleads.least hpos q hq.mem (hword q hq.mem hsame) with hlt | ⟨-, hle⟩
    · have hopt := hq.imbalance _ hmem hsame.symm
      rw [← h.toNat_imbalanceWord hmem, ← h.toNat_imbalanceWord hq.mem, himb] at hopt
      exact absurd (lt_iff.1 hlt) (not_lt.2 hopt)
    · exact hle

/-- When nothing clears, the selected price is the lowest candidate. -/
theorem selectPrice_of_zero (hzero : (selectPrice orders).vol = 0) :
    (selectPrice orders).price = (candidates orders).headD 0 ∧
      ∀ q ∈ candidates orders, crossVolume orders q.toNat = 0 := by
  have hleads := selectPrice_leads orders
  refine ⟨hleads.idle hzero, ?_⟩
  intro q hq
  have hle := le_iff.1 (hleads.top q hq)
  rw [h.toNat_volumeWord hq, hzero, toNat_zero] at hle
  omega

/-- No optimal price is below the selected one. -/
theorem selectPrice_le_optimal {q : U128} (hq : Optimal orders q) :
    (selectPrice orders).price ≤ q := by
  rcases eq_or_ne (selectPrice orders).vol 0 with hzero | hne
  · rw [(selectPrice_of_zero h hzero).1]
    exact headD_le_candidate hq.mem
  · have hpos : 0 < (selectPrice orders).vol :=
      lt_of_le_of_ne (le_iff.2 (Nat.zero_le _)) (Ne.symm hne)
    exact (selectPrice_of_pos h hpos).2 q hq

theorem selectPrice_optimal_iff :
    Optimal orders (selectPrice orders).price ↔
      ((∀ q ∈ candidates orders, crossVolume orders q.toNat = 0) →
        ∀ q ∈ candidates orders, imbalance orders ((candidates orders).headD 0).toNat ≤
          imbalance orders q.toNat) := by
  rcases eq_or_ne (selectPrice orders).vol 0 with hzero | hne
  · obtain ⟨hprice, hall⟩ := selectPrice_of_zero h hzero
    rw [hprice]
    constructor
    · intro hopt _ q hq
      exact hopt.imbalance q hq ((hall q hq).trans (hall _ hopt.mem).symm)
    · intro hidle
      refine ⟨headD_mem_candidates orders, ?_, fun q hq _ => hidle hall q hq⟩
      intro q hq
      rw [hall q hq]
      exact Nat.zero_le _
  · have hpos : 0 < (selectPrice orders).vol :=
      lt_of_le_of_ne (le_iff.2 (Nat.zero_le _)) (Ne.symm hne)
    refine ⟨fun _ hall => ?_, fun _ => (selectPrice_of_pos h hpos).1⟩
    obtain ⟨hmem, hvol, -⟩ := (selectPrice_leads orders).chosen hpos
    have hnat := lt_iff.1 hpos
    rw [← hvol, h.toNat_volumeWord hmem, hall _ hmem] at hnat
    exact absurd hnat (by simp)

end

/-- The selected price is the one the comment describes exactly on the undisputed books, and
it is the price of the settlement that the solver returns. -/
theorem selectPrice_tieBroken_iff (market : Market) (h : SelectionFits orders) :
    (TieBroken orders (selectPrice orders).price ↔ Undisputed orders) ∧
      ∀ sol, solveClearing market orders = .ok sol →
        sol.cert.price = (selectPrice orders).price := by
  refine ⟨⟨?_, ?_⟩, ?_⟩
  · intro hbroken
    refine ⟨(selectPrice_optimal_iff h).1 hbroken.optimal, ?_⟩
    intro p q hp hq hzero
    by_contra hne
    have hpos := (hbroken.least q hq (Nat.pos_of_ne_zero hne)).1
    have hle := le_iff.1 (selectPrice_le_optimal h hp)
    omega
  · intro hbook
    have hopt := (selectPrice_optimal_iff h).2 hbook.idle
    refine ⟨hopt, ?_⟩
    intro q hq hpos
    refine ⟨?_, le_iff.1 (selectPrice_le_optimal h hq)⟩
    by_contra hnot
    have hzero := hbook.zero _ q hopt hq (by omega)
    omega
  · intro sol hok
    obtain ⟨-, rfl⟩ := solveClearing_eq_ok.1 hok
    rfl

theorem smallBook_tieBroken :
    SelectionFits smallBook ∧ TieBroken smallBook (selectPrice smallBook).price := by
  have hfits := smallBook_noOverflow.selectionFits
  have hcandidates : candidates smallBook = [3] := by decide
  refine ⟨hfits, (selectPrice_tieBroken_iff ⟨1, 2, 0⟩ hfits).1.2 ⟨?_, ?_⟩⟩
  · rw [hcandidates]
    intro _ q hq
    cases mem_singleton.1 hq
    exact le_rfl
  · intro p q hp _ hzero
    have hmem := hp.mem
    rw [hcandidates] at hmem
    cases mem_singleton.1 hmem
    cases hzero

/-- A bid at 5 and an ask that gives its unit away. -/
def giftBook : List Order := [⟨1, .bid, 5, 1, 5⟩, ⟨2, .ask, 0, 1, 0⟩]

/-- The unit changes hands at price zero, although it clears at the price 5 with the same
imbalance. -/
theorem giftBook_price_zero :
    NoOverflow giftBook ∧ (∃ sol, solveClearing ⟨1, 2, 0⟩ giftBook = .ok sol ∧
      sol.cert.price = 0) ∧ Optimal giftBook 5 ∧ ¬TieBroken giftBook 0 := by
  have hfive : Optimal giftBook 5 := by
    constructor
    · decide
    · decide
    · decide
  have hno : NoOverflow giftBook := ⟨by decide, by decide, by decide, by decide, by decide⟩
  have hwf : WellFormed ⟨1, 2, 0⟩ giftBook := ⟨by simp, by decide, by decide⟩
  have haccepted := (accepted_routeAll_iff hwf (hno.priceFits hwf.positive)).2 (by decide)
  refine ⟨hno, ?_, hfive, ?_⟩
  · exact ⟨_, solveClearing_eq_ok.2 ⟨haccepted, rfl⟩, by decide⟩
  · intro hbroken
    exact absurd (hbroken.least 5 hfive (by decide)).1 (by decide)

end MiniDregg.Clearing
