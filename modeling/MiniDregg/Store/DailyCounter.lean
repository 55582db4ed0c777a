import Mathlib.Algebra.GroupWithZero.Nat
import Mathlib.Algebra.Order.BigOperators.Group.List

/-!
# Counters that restart every day

A stored counter keeps one day and the amount charged on it; a charge on another day starts
from zero. Such a counter covers a ledger of charges when no charge of the ledger is later
than its day and the charges of its day sum to at most its amount. Along non-decreasing
days this is what every charge preserves, so the charges of any one day stay within what
the counter showed on that day.
-/

namespace MiniDregg.Store

/-- The amount charged on a day. -/
structure DayAmount where
  day : ℕ
  amount : ℕ
  deriving DecidableEq, Repr

/-- What a counter shows on day `d`. -/
def shown (c : Option DayAmount) (d : ℕ) : ℕ :=
  match c with
  | none => 0
  | some e => if e.day = d then e.amount else 0

/-- The sum of a ledger's charges on day `d`. -/
def onDay (d : ℕ) (ledger : List DayAmount) : ℕ :=
  ((ledger.filter fun x => x.day = d).map DayAmount.amount).sum

@[simp] theorem onDay_nil (d : ℕ) : onDay d [] = 0 := rfl

theorem onDay_cons (d : ℕ) (x : DayAmount) (ledger : List DayAmount) :
    onDay d (x :: ledger) = (if x.day = d then x.amount else 0) + onDay d ledger := by
  unfold onDay
  rw [List.filter_cons]
  by_cases h : x.day = d
  · simp [h]
  · simp [h]

variable {ledger : List DayAmount}

theorem onDay_eq_zero {d : ℕ} (h : ∀ x ∈ ledger, x.day ≠ d) : onDay d ledger = 0 := by
  have hnil : ledger.filter (fun x => x.day = d) = [] := by
    rw [List.filter_eq_nil_iff]
    intro x hx
    simpa using h x hx
  rw [onDay, hnil]
  rfl

/-- A counter that was left alone, or set on day `d` to no less than it showed. -/
def Held (c c' : Option DayAmount) (d : ℕ) : Prop :=
  c' = c ∨ ∃ v, c' = some ⟨d, v⟩ ∧ shown c d ≤ v

/-- The counter accounts for a ledger whose charges are not later than `today`. -/
structure Covers (c : Option DayAmount) (today : ℕ) (ledger : List DayAmount) : Prop where
  stored : ∀ x ∈ ledger, ∃ e, c = some e ∧ x.day ≤ e.day ∧ e.day ≤ today
  amount : ∀ e, c = some e → onDay e.day ledger ≤ e.amount

namespace Covers

variable {c : Option DayAmount} {today d v k : ℕ}

theorem nil (c : Option DayAmount) (today : ℕ) : Covers c today [] where
  stored := by simp
  amount := by simp

section
variable (h : Covers c today ledger) (hd : today ≤ d)
include h hd

theorem later : Covers c d ledger where
  stored := by
    intro x hx
    obtain ⟨e, he, hle, hlast⟩ := h.stored x hx
    exact ⟨e, he, hle, hlast.trans hd⟩
  amount := h.amount

/-- From today on, the charges of a day are at most what the counter shows on it. -/
theorem onDay_le : onDay d ledger ≤ shown c d := by
  cases hc : c with
  | none =>
    rw [onDay_eq_zero]
    · exact Nat.zero_le _
    · intro x hx
      obtain ⟨e, he, -⟩ := h.stored x hx
      cases hc.symm.trans he
  | some e =>
    by_cases heq : e.day = d
    · subst heq
      simpa [shown] using h.amount e hc
    · rw [onDay_eq_zero]
      · exact Nat.zero_le _
      · intro x hx hxd
        obtain ⟨e', he', hle, hlast⟩ := h.stored x hx
        rw [hc, Option.some.injEq] at he'
        subst he'
        omega

/-- The counter may show more than the ledger's charges. -/
theorem overcharge (hv : shown c d ≤ v) :
    Covers (some ⟨d, v⟩) d ledger where
  stored := by
    intro x hx
    obtain ⟨e, -, hle, hlast⟩ := h.stored x hx
    exact ⟨⟨d, v⟩, rfl, (hle.trans hlast).trans hd, le_refl d⟩
  amount := by
    intro e he
    cases he
    exact (h.onDay_le hd).trans hv

theorem held {c' : Option DayAmount} (hheld : Held c c' d) : Covers c' d ledger := by
  rcases hheld with rfl | ⟨v, rfl, hv⟩
  · exact h.later hd
  · exact h.overcharge hd hv

theorem charge (hv : shown c d + k ≤ v) :
    Covers (some ⟨d, v⟩) d (⟨d, k⟩ :: ledger) where
  stored := by
    intro x hx
    rcases List.mem_cons.1 hx with rfl | hx
    · exact ⟨⟨d, v⟩, rfl, le_refl d, le_refl d⟩
    · obtain ⟨e, -, hle, hlast⟩ := h.stored x hx
      exact ⟨⟨d, v⟩, rfl, (hle.trans hlast).trans hd, le_refl d⟩
  amount := by
    intro e he
    cases he
    have hday := h.onDay_le hd
    rw [onDay_cons, if_pos rfl]
    dsimp only
    omega

end

/-- A charge that the counter shows within a cap keeps every day within it. -/
theorem charged_le {today' cap : ℕ} (h : Covers (some ⟨d, v⟩) today' (⟨d, k⟩ :: ledger))
    (hv : v ≤ cap) {d' : ℕ} (hcap : onDay d' ledger ≤ cap) : onDay d' (⟨d, k⟩ :: ledger) ≤ cap := by
  by_cases hd : d = d'
  · subst hd
    exact (h.amount _ rfl).trans hv
  · rwa [onDay_cons, if_neg hd, zero_add]

end Covers

end MiniDregg.Store
