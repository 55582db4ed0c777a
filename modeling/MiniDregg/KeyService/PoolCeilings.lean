import MiniDregg.KeyService.Pool
import MiniDregg.Store.DailyCounter

/-!
# The pool's ceilings

Whatever fails and wherever the process dies, the records never show less than what was
granted: a charge comes before the call is counted, a refund gives back at most its own
charge, and a call is granted only when all three records were within their caps. So the
grants since the last reset stay under the ceiling, each member's grants under that
member's caps, and each runner's calls of a day under the row's number.
-/

namespace MiniDregg.KeyService

open Fallible Store Durable Function Files Nat Books List

variable {v cap : ℕ}

section Arithmetic
variable (s : SpendCap)

theorem asI64_call : asI64 s.call = s.call := by
  have h := s.call_le
  unfold asI64
  rw [if_pos (by omega)]

theorem call_delta_pos : 0 < asI64 s.call := by
  have h := s.call_pos
  rw [asI64_call]
  omega

theorem applyDelta_charge (v : ℕ) : applyDelta (asI64 s.call) v = saturatingAdd v s.call := by
  unfold applyDelta
  rw [if_pos (call_delta_pos s).le, asI64_call, Int.natAbs_natCast]

theorem applyDelta_refund (v : ℕ) : applyDelta (-asI64 s.call) v = v - s.call := by
  have h := call_delta_pos s
  unfold applyDelta
  rw [if_neg (by omega), Int.natAbs_neg, asI64_call, Int.natAbs_natCast]

/-- Below the caps of a row the addition is exact. -/
theorem saturatingAdd_eq {k : ℕ} (hcap : cap ≤ 1000000000000) (h : saturatingAdd v k ≤ cap) :
    saturatingAdd v k = v + k := by
  unfold saturatingAdd at h ⊢
  omega

end Arithmetic

variable {p m : String} {e : MemberSpend}

namespace Files

variable (f : Files)

/-- The spend that a row's record shows. -/
def spent (provider : String) : ℕ := (f.spend provider).getD 0

/-- The daily part of a member's record. -/
def memberDay (provider member : String) : Option DayAmount :=
  (f.members provider member).map fun m => ⟨m.dayIndex, m.day⟩

/-- The total of a member's record. -/
def memberTotal (provider member : String) : ℕ :=
  ((f.members provider member).map MemberSpend.total).getD 0

/-- A runner's record. -/
def runnerDay (provider runner : String) : Option DayAmount :=
  (f.usage provider runner).map fun u => ⟨u.day, u.calls⟩

variable {f} {q m' : String} {s : Option ℕ} {u : Usage}

theorem spend_setSpend : (f.setSpend p s).spend q = if q = p then s else f.spend q :=
  update_apply ..

theorem update_update_apply {α : Type} (rows : String → String → Option α) (a : α) :
    update rows p (update (rows p) m (some a)) q m' =
      if q = p ∧ m' = m then some a else rows q m' := by
  by_cases hq : q = p
  · subst hq
    simp [update_apply]
  · simp [hq]

theorem members_setMember : (f.setMember p m e).members q m' =
    if q = p ∧ m' = m then some e else f.members q m' := by
  simpa only [setMember] using update_update_apply ..

theorem usage_setUsage : (f.setUsage p m u).usage q m' =
    if q = p ∧ m' = m then some u else f.usage q m' := by
  simpa only [setUsage] using update_update_apply ..

@[simp] theorem spend_setSpend_self : (f.setSpend p s).spend p = s := by
  rw [spend_setSpend, if_pos rfl]

@[simp] theorem members_setMember_self : (f.setMember p m e).members p m = some e := by
  rw [members_setMember, if_pos ⟨rfl, rfl⟩]

@[simp] theorem usage_setUsage_self : (f.setUsage p m u).usage p m = some u := by
  rw [usage_setUsage, if_pos ⟨rfl, rfl⟩]

end Files

variable {r : Call}

section Kept
variable {f g : Files}

/-- No record shows less than before. -/
structure Kept (r : Call) (f g : Files) : Prop where
  spend : ∀ p, f.spent p ≤ g.spent p
  day : ∀ p m, Held (f.memberDay p m) (g.memberDay p m) r.day
  total : ∀ p m, f.memberTotal p m ≤ g.memberTotal p m
  runner : ∀ p x, Held (f.runnerDay p x) (g.runnerDay p x) r.day

theorem Kept.refl (r : Call) (f : Files) : Kept r f f where
  spend _ := le_refl _
  day _ _ := .inl rfl
  total _ _ := le_refl _
  runner _ _ := .inl rfl

variable (h : Kept r f g)
include h

theorem Kept.setSpend (hv : f.spent r.provider ≤ v) :
    Kept r f (g.setSpend r.provider (some v)) where
  spend p := by
    by_cases hp : p = r.provider
    · subst hp
      simpa [spent] using hv
    · simpa [spent, spend_setSpend, hp] using h.spend p
  day := h.day
  total := h.total
  runner := h.runner

theorem Kept.setMember (hindex : e.dayIndex = r.day)
    (hday : shown (f.memberDay r.provider r.member) r.day ≤ e.day)
    (htotal : f.memberTotal r.provider r.member ≤ e.total) :
    Kept r f (g.setMember r.provider r.member e) where
  spend := h.spend
  day p m := by
    by_cases hp : p = r.provider ∧ m = r.member
    · obtain ⟨rfl, rfl⟩ := hp
      refine .inr ⟨e.day, ?_, hday⟩
      simp [memberDay, hindex]
    · simpa [memberDay, members_setMember, hp] using h.day p m
  total p m := by
    by_cases hp : p = r.provider ∧ m = r.member
    · obtain ⟨rfl, rfl⟩ := hp
      simpa [memberTotal] using htotal
    · simpa [memberTotal, members_setMember, hp] using h.total p m
  runner := h.runner

theorem Kept.setUsage (hv : shown (f.runnerDay r.provider r.runner) r.day ≤ v) :
    Kept r f (g.setUsage r.provider r.runner ⟨r.day, v⟩) where
  spend := h.spend
  day := h.day
  total := h.total
  runner p x := by
    by_cases hp : p = r.provider ∧ x = r.runner
    · obtain ⟨rfl, rfl⟩ := hp
      refine .inr ⟨v, ?_, hv⟩
      simp [runnerDay]
    · simpa [runnerDay, usage_setUsage, hp] using h.runner p x

end Kept

variable {limits : MemberCap}

section Specs
variable {x : String} {delta : ℤ} {day : ℕ} {f : Files}

theorem steady_poolSpend (p : String) : Steady (poolSpend p) :=
  steady_bind (steady_lift _) fun _ => steady_read _

theorem poolSpend_ends {Q : Ending ℕ → Files → Prop} (hok : Q (.ok (f.spent p)) f)
    (hstop : Stops Q f) : Ends (poolSpend p) f Q := by
  refine ends_steady_bind (steady_lift _) (fun _ => ?_) hstop
  exact ends_read hok hstop

variable {Q : Ending Unit → Files → Prop}

theorem chargeSpend_ends
    (hwrite : (0 < delta → applyDelta delta (f.spent p) ≤ cap) →
      Lands Q (f.setSpend p (some (applyDelta delta (f.spent p)))))
    (hstop : Stops Q f) :
    Ends (chargeSpend p delta cap) f Q := by
  apply ends_bind
  refine poolSpend_ends ?_ hstop
  apply ends_bind
  apply ends_refuseIf
  · intro hroom
    have hnot := of_decide_eq_false hroom
    obtain ⟨hok, hstored⟩ := hwrite fun hpos => not_lt.1 fun hlt => hnot ⟨hpos, hlt⟩
    exact ends_operation hok hstop hstored
  · intro _
    exact hstop.1 _

theorem chargeMember_ends (he : e = MemberSpend.onDay (f.members p m) day)
    (hwrite : (0 < delta →
        applyDelta delta e.total ≤ limits.total ∧ applyDelta delta e.day ≤ limits.day) →
      Lands Q (f.setMember p m ⟨applyDelta delta e.day, e.dayIndex, applyDelta delta e.total⟩))
    (hstop : Stops Q f) :
    Ends (chargeMember p m delta limits day) f Q := by
  subst he
  apply ends_bind
  refine ends_read ?_ hstop
  apply ends_bind
  apply ends_refuseIf
  · intro htotal
    apply ends_bind
    apply ends_refuseIf
    · intro htoday
      have hnot := of_decide_eq_false htotal
      have hnot' := of_decide_eq_false htoday
      obtain ⟨hok, hstored⟩ := hwrite fun hpos =>
        ⟨not_lt.1 fun hlt => hnot ⟨hpos, hlt⟩, not_lt.1 fun hlt => hnot' ⟨hpos, hlt⟩⟩
      exact ends_operation hok hstop hstored
    · intro _
      exact hstop.1 _
  · intro _
    exact hstop.1 _

theorem countCall_ends (hv : v = shown (f.runnerDay p x) day)
    (hwrite : v < cap → Lands Q (f.setUsage p x ⟨day, v + 1⟩))
    (hstop : Stops Q f) :
    Ends (countCall p x cap day) f Q := by
  have hcalls : (if ((f.usage p x).getD ⟨day, 0⟩).day = day
      then ((f.usage p x).getD ⟨day, 0⟩).calls else 0) = v := by
    subst hv
    unfold runnerDay shown
    cases f.usage p x with
    | none | some => simp
  refine ends_steady_bind steady_elsewhere (fun _ => ?_) hstop
  apply ends_bind
  refine ends_read ?_ hstop
  apply ends_bind
  apply ends_refuseIf
  · intro hroom
    rw [hcalls] at hroom
    have hnot := of_decide_eq_false hroom
    obtain ⟨hok, hstored⟩ := hwrite (not_le.1 hnot)
    change Ends (write _) f Q
    rw [hcalls]
    exact ends_operation hok hstop hstored
  · intro _
    exact hstop.1 _

theorem steady_poolRoom (r : Call) (caps : Caps) : Steady (poolRoom r caps) := by
  refine steady_bind (steady_lift _) fun _ => steady_bind steady_elsewhere fun _ =>
    steady_bind steady_elsewhere fun _ => steady_bind (steady_refuseIf _ _) fun _ =>
      steady_bind steady_elsewhere fun _ => steady_bind (steady_refuseIf _ _) fun _ => ?_
  cases caps.spend with
  | none => exact steady_pure _
  | some s =>
    refine steady_bind (steady_poolSpend _) fun _ => steady_bind (steady_refuseIf _ _) fun _ => ?_
    cases caps.member with
    | none => exact steady_pure _
    | some limits =>
      exact steady_bind (steady_bind (steady_lift _) fun _ => steady_read _) fun _ =>
        steady_bind (steady_refuseIf _ _) fun _ => steady_refuseIf _ _

end Specs

variable {caps : Caps}

section Grant
variable {f g : Files} {s : SpendCap}

theorem onDay_spec (f : Files) (p m : String) (day : ℕ) :
    (MemberSpend.onDay (f.members p m) day).dayIndex = day ∧
      (MemberSpend.onDay (f.members p m) day).day = shown (f.memberDay p m) day ∧
      (MemberSpend.onDay (f.members p m) day).total = f.memberTotal p m := by
  unfold MemberSpend.onDay memberDay memberTotal shown
  cases f.members p m with
  | none => simp
  | some e =>
    by_cases h : e.dayIndex = day
    · simp [h]
    · simp [h]

/-- The spend was charged within its ceiling. -/
def SpendCharged (r : Call) (s : SpendCap) (f g : Files) : Prop :=
  f.spent r.provider + s.call ≤ g.spent r.provider ∧ g.spent r.provider ≤ s.ceiling

/-- The member was charged within the caps. -/
def MemberCharged (r : Call) (s : SpendCap) (limits : MemberCap) (f g : Files) : Prop :=
  ∃ e, g.members r.provider r.member = some e ∧ e.dayIndex = r.day ∧
    shown (f.memberDay r.provider r.member) r.day + s.call ≤ e.day ∧ e.day ≤ limits.day ∧
    f.memberTotal r.provider r.member + s.call ≤ e.total ∧ e.total ≤ limits.total

/-- Everything that a row charges was charged. -/
structure Charged (r : Call) (caps : Caps) (f g : Files) : Prop where
  kept : Kept r f g
  spend : ∀ s, caps.spend = some s → SpendCharged r s f g
  member : ∀ s limits, caps.spend = some s → caps.member = some limits →
    MemberCharged r s limits f g

/-- A part of a grant ends with what it is for, or with nothing lost. -/
def OrKept (r : Call) (f : Files) (P : Files → Prop) : Ending Unit → Files → Prop
  | .ok _, g => P g
  | .error _, g => Kept r f g
  | .killed, g => Kept r f g

variable {Q : Ending Unit → Files → Prop}

theorem chargeSpend_charges
    (hwrite : ∀ v, f.spent r.provider + s.call = v → v ≤ s.ceiling →
      Lands Q (f.setSpend r.provider (some v)))
    (hstop : Stops Q f) :
    Ends (chargeSpend r.provider (asI64 s.call) s.ceiling) f Q := by
  refine chargeSpend_ends (fun hroom => ?_) hstop
  have hle := hroom (call_delta_pos s)
  rw [applyDelta_charge] at hle ⊢
  exact hwrite _ (saturatingAdd_eq s.ceiling_le hle).symm hle

theorem chargeSpend_refunds
    (hwrite : Lands Q (g.setSpend r.provider (some (g.spent r.provider - s.call))))
    (hstop : Stops Q g) :
    Ends (chargeSpend r.provider (-asI64 s.call) s.ceiling) g Q := by
  refine chargeSpend_ends (fun _ => ?_) hstop
  rw [applyDelta_refund]
  exact hwrite

theorem chargeMember_charges (hsame : g.members = f.members)
    (hwrite : ∀ e : MemberSpend, e.dayIndex = r.day →
      shown (f.memberDay r.provider r.member) r.day + s.call ≤ e.day → e.day ≤ limits.day →
      f.memberTotal r.provider r.member + s.call ≤ e.total → e.total ≤ limits.total →
      Lands Q (g.setMember r.provider r.member e))
    (hstop : Stops Q g) :
    Ends (chargeMember r.provider r.member (asI64 s.call) limits r.day) g Q := by
  refine chargeMember_ends rfl (fun hroom => ?_) hstop
  obtain ⟨hindex, hday, htotal⟩ := onDay_spec f r.provider r.member r.day
  obtain ⟨hletotal, hleday⟩ := hroom (call_delta_pos s)
  rw [hsame, applyDelta_charge] at hletotal hleday
  rw [hsame, applyDelta_charge, applyDelta_charge]
  have hdayeq := saturatingAdd_eq limits.day_le hleday
  have htotaleq := saturatingAdd_eq limits.total_le hletotal
  refine hwrite _ hindex ?_ hleday ?_ hletotal
  · rw [← hday]
    exact hdayeq.ge
  · rw [← htotal]
    exact htotaleq.ge

theorem chargeMember_refunds (he : g.members r.provider r.member = some e)
    (hindex : e.dayIndex = r.day)
    (hwrite : Lands Q (g.setMember r.provider r.member ⟨e.day - s.call, r.day, e.total - s.call⟩))
    (hstop : Stops Q g) :
    Ends (chargeMember r.provider r.member (-asI64 s.call) limits r.day) g Q := by
  have hentry : e = MemberSpend.onDay (g.members r.provider r.member) r.day := by
    rw [he]
    simp [MemberSpend.onDay, hindex]
  refine chargeMember_ends hentry (fun _ => ?_) hstop
  rw [applyDelta_refund, applyDelta_refund, hindex]
  exact hwrite

/-- A charge does not count the call. -/
theorem poolCharge_ends : Ends (poolCharge r caps) f
    (OrKept r f fun g => Charged r caps f g ∧ g.usage = f.usage) := by
  unfold poolCharge
  cases hspend : caps.spend with
  | none =>
    refine ends_pure ⟨⟨.refl r f, ?_, ?_⟩, rfl⟩
    · simp [hspend]
    · simp [hspend]
  | some s =>
    apply ends_bind
    refine chargeSpend_charges (fun v hv hle => ?_) ⟨fun _ => .refl r f, .refl r f⟩
    have hkept : Kept r f (f.setSpend r.provider (some v)) := (Kept.refl r f).setSpend (by omega)
    have hcharged : SpendCharged r s f (f.setSpend r.provider (some v)) := by
      simpa [SpendCharged, spent, hle] using hv.le
    refine ⟨?_, hkept⟩
    cases hmember : caps.member with
    | none =>
      refine ends_pure ⟨⟨hkept, ?_, ?_⟩, rfl⟩
      · simpa [hspend] using hcharged
      · simp [hmember]
    | some limits =>
      apply ends_bind
      apply ends_attempt
      refine chargeMember_charges (f := f) rfl
        (fun e hindex hday hleday htotal hletotal => ?_) ⟨?_, hkept⟩
      · have hkept' := hkept.setMember hindex (by omega) (by omega)
        refine ⟨ends_pure ⟨⟨hkept', ?_, ?_⟩, rfl⟩, hkept'⟩
        · rw [hspend]
          rintro s' ⟨⟩
          exact hcharged
        · rw [hspend, hmember]
          rintro s' limits' ⟨⟩ ⟨⟩
          exact ⟨e, by simp, hindex, hday, hleday, htotal, hletotal⟩
      · -- the member is over a cap, or its record cannot be written: the spend goes back
        intro e
        apply ends_bind
        have hback := hkept.setSpend (v := (f.setSpend r.provider (some v)).spent r.provider -
          s.call) (by simpa [spent] using le_sub_of_add_le hv.le)
        refine chargeSpend_refunds ⟨fun _ => hback, hback⟩ ⟨fun _ => hkept, hkept⟩

theorem poolRefund_ends (h : Charged r caps f g) :
    Ends (poolRefund r caps) g fun _ t => Kept r f t := by
  unfold poolRefund
  cases hspend : caps.spend with
  | none => exact ends_pure h.kept
  | some s =>
    obtain ⟨hcall, -⟩ := h.spend s hspend
    have hback := h.kept.setSpend (v := g.spent r.provider - s.call)
      (le_sub_of_add_le hcall)
    apply ends_bind
    refine chargeSpend_refunds ⟨?_, hback⟩ ⟨fun _ => h.kept, h.kept⟩
    dsimp only [Next]
    cases hmember : caps.member with
    | none => exact ends_pure hback
    | some limits =>
      obtain ⟨e, he, hindex, hday, -, htotal, -⟩ := h.member s limits hspend hmember
      have hback' := hback.setMember (e := ⟨e.day - s.call, r.day, e.total - s.call⟩) rfl
        (le_sub_of_add_le hday) (le_sub_of_add_le htotal)
      exact chargeMember_refunds he hindex ⟨hback', hback'⟩ ⟨fun _ => hback, hback⟩

/-- The call was counted within the row's number. -/
def Counted (r : Call) (caps : Caps) (f g : Files) : Prop :=
  ∃ v, g.runnerDay r.provider r.runner = some ⟨r.day, v⟩ ∧
    shown (f.runnerDay r.provider r.runner) r.day + 1 ≤ v ∧ v ≤ caps.perDay

/-- A granted call was charged and counted within every cap. -/
structure Granted (r : Call) (caps : Caps) (f g : Files) : Prop extends Charged r caps f g where
  counted : Counted r caps f g

theorem poolGrant_ends : Ends (poolGrant r caps) f (OrKept r f (Granted r caps f)) := by
  refine ends_steady_bind (steady_poolRoom r caps) (fun _ => ?_) ⟨fun _ => .refl r f, .refl r f⟩
  refine ends_steady_bind steady_elsewhere (fun _ => ?_) ⟨fun _ => .refl r f, .refl r f⟩
  refine ends_bind (ends_mono poolCharge_ends fun ending g hend => ?_)
  cases ending with
  | error | killed => exact hend
  | ok _ =>
    obtain ⟨hcharged, husage⟩ : Charged r caps f g ∧ g.usage = f.usage := hend
    have hsame : g.runnerDay r.provider r.runner = f.runnerDay r.provider r.runner := by
      rw [runnerDay, runnerDay, husage]
    apply ends_bind
    apply ends_attempt
    refine countCall_ends (congrArg (shown · r.day) hsame.symm) (fun hlt => ?_)
      ⟨fun e => ?_, hcharged.kept⟩
    · have hkept := hcharged.kept.setUsage (v := shown (f.runnerDay r.provider r.runner) r.day + 1)
        (le_succ _)
      refine ⟨ends_pure ⟨⟨hkept, hcharged.spend, hcharged.member⟩, ?_⟩, hkept⟩
      exact ⟨_, by simp [runnerDay], le_refl _, hlt⟩
    · exact ends_bind_of (poolRefund_ends hcharged) (fun _ _ ht => ⟨fun _ => ht, ht⟩)
        fun _ _ ht _ => ht

end Grant

section Ledger

/-- The micro-USD of a row's grants since its last reset. -/
def spentSinceReset (p : String) : List Entry → ℕ
  | [] => 0
  | .granted r micro :: h => (if r.provider = p then micro else 0) + spentSinceReset p h
  | .reset q :: h => if q = p then 0 else spentSinceReset p h

/-- A member's charges on a row. -/
def memberCharges (p m : String) : List Entry → List DayAmount
  | [] => []
  | .granted r micro :: h =>
    if r.provider = p ∧ r.member = m then ⟨r.day, micro⟩ :: memberCharges p m h
    else memberCharges p m h
  | .reset _ :: h => memberCharges p m h

/-- A runner's calls on a row, each of them as the charge of one. -/
def runnerCalls (p x : String) : List Entry → List DayAmount
  | [] => []
  | .granted r _ :: h =>
    if r.provider = p ∧ r.runner = x then ⟨r.day, 1⟩ :: runnerCalls p x h
    else runnerCalls p x h
  | .reset _ :: h => runnerCalls p x h

/-- The micro-USD of a member's grants on a row. -/
def memberGrants (p m : String) (h : List Entry) : ℕ :=
  ((memberCharges p m h).map DayAmount.amount).sum

/-- The micro-USD of a member's grants of one day. -/
def memberGrantsOn (p m : String) (d : ℕ) (h : List Entry) : ℕ := onDay d (memberCharges p m h)

/-- The number of a runner's granted calls of one day. -/
def callsOn (p x : String) (d : ℕ) (h : List Entry) : ℕ := onDay d (runnerCalls p x h)

variable {table : String → Option Caps} {today : ℕ} {b : Books}
  {g : Files}

/-- A member's record accounts for its grants, and they are within the caps. -/
structure MemberAccounted (limits : MemberCap) (today : ℕ) (b : Books) (p m : String) :
    Prop where
  day : Covers (b.files.memberDay p m) today (memberCharges p m b.history)
  total : memberGrants p m b.history ≤ b.files.memberTotal p m
  dayCap : ∀ d, memberGrantsOn p m d b.history ≤ limits.day
  totalCap : memberGrants p m b.history ≤ limits.total

/-- The records account for the grants, and the grants are within the caps. -/
structure Accounted (table : String → Option Caps) (today : ℕ) (b : Books) : Prop where
  spend : ∀ p, spentSinceReset p b.history ≤ b.files.spent p
  ceiling : ∀ p caps s, table p = some caps → caps.spend = some s →
    spentSinceReset p b.history ≤ s.ceiling
  member : ∀ p caps s limits, table p = some caps → caps.spend = some s →
    caps.member = some limits → ∀ m, MemberAccounted limits today b p m
  runner : ∀ p x, Covers (b.files.runnerDay p x) today (runnerCalls p x b.history)
  runnerCap : ∀ p caps, table p = some caps → ∀ x d, callsOn p x d b.history ≤ caps.perDay

/-- A member's account depends on the member's record and charges only. -/
theorem MemberAccounted.congr {b' : Books} (h : MemberAccounted limits today b p m)
    (hrecord : b'.files.members p m = b.files.members p m)
    (hcharges : memberCharges p m b'.history = memberCharges p m b.history) :
    MemberAccounted limits today b' p m := by
  obtain ⟨hday, htotal, hdayCap, htotalCap⟩ := h
  constructor <;>
    simpa only [memberDay, memberTotal, memberGrants, memberGrantsOn, hrecord, hcharges]

theorem MemberAccounted.kept
    (h : MemberAccounted limits today b p m) (hday : today ≤ r.day) (hkept : Kept r b.files g) :
    MemberAccounted limits r.day ⟨g, b.history⟩ p m where
  day := h.day.held hday (hkept.day p m)
  total := h.total.trans (hkept.total p m)
  dayCap := h.dayCap
  totalCap := h.totalCap

theorem Accounted.kept (h : Accounted table today b) (hday : today ≤ r.day)
    (hkept : Kept r b.files g) : Accounted table r.day ⟨g, b.history⟩ where
  spend p := (h.spend p).trans (hkept.spend p)
  ceiling := h.ceiling
  member p caps s limits hrow hs hlimits m :=
    (h.member p caps s limits hrow hs hlimits m).kept hday hkept
  runner p x := (h.runner p x).held hday (hkept.runner p x)
  runnerCap := h.runnerCap

theorem MemberAccounted.granted {s : SpendCap} {micro : ℕ}
    (h : MemberAccounted limits today b p m) (hday : today ≤ r.day) (hkept : Kept r b.files g)
    (hcharged : r.provider = p → MemberCharged r s limits b.files g ∧ micro = s.call) :
    MemberAccounted limits r.day ⟨g, .granted r micro :: b.history⟩ p m := by
  by_cases hp : r.provider = p ∧ r.member = m
  · obtain ⟨rfl, rfl⟩ := hp
    obtain ⟨⟨e, he, hindex, hroom, hleday, htotal, hletotal⟩, rfl⟩ := hcharged rfl
    have hcharges : memberCharges r.provider r.member (.granted r s.call :: b.history) =
        ⟨r.day, s.call⟩ :: memberCharges r.provider r.member b.history := if_pos ⟨rfl, rfl⟩
    have hshown : g.memberDay r.provider r.member = some ⟨r.day, e.day⟩ := by
      simp [memberDay, he, hindex]
    have hstored : g.memberTotal r.provider r.member = e.total := by
      simp [memberTotal, he]
    have hcovers := h.day.charge hday hroom
    have hgrants : memberGrants r.provider r.member (.granted r s.call :: b.history) =
        s.call + memberGrants r.provider r.member b.history := by
      rw [memberGrants, hcharges]
      rfl
    have hbound := h.total
    refine ⟨?_, ?_, fun d => ?_, ?_⟩
    · rw [hcharges]
      dsimp only
      rw [hshown]
      exact hcovers
    · dsimp only
      omega
    · dsimp only
      rw [memberGrantsOn, hcharges]
      exact hcovers.charged_le hleday (h.dayCap d)
    · dsimp only
      omega
  · exact (h.kept hday hkept).congr rfl (if_neg hp)

theorem Accounted.granted (h : Accounted table today b) (hday : today ≤ r.day)
    (hrow : table r.provider = some caps) (hgranted : Granted r caps b.files g) :
    Accounted table r.day ⟨g, .granted r caps.micro :: b.history⟩ := by
  have hkept := h.kept hday hgranted.kept
  have hspent : ∀ s, caps.spend = some s → caps.micro = s.call := by
    intro s hs
    rw [Caps.micro, hs]
    rfl
  have hsince : ∀ s, caps.spend = some s →
      spentSinceReset r.provider (.granted r caps.micro :: b.history) ≤ g.spent r.provider ∧
        g.spent r.provider ≤ s.ceiling := by
    intro s hs
    obtain ⟨hcall, hle⟩ := hgranted.spend s hs
    have hold := h.spend r.provider
    rw [spentSinceReset, if_pos rfl, hspent s hs]
    omega
  constructor
  · intro p
    by_cases hp : r.provider = p
    · subst hp
      cases hs : caps.spend with
      | none =>
        have hmicro : caps.micro = 0 := by
          rw [Caps.micro, hs]
          rfl
        rw [spentSinceReset, if_pos rfl, hmicro, zero_add]
        exact hkept.spend r.provider
      | some s => exact (hsince s hs).1
    · rw [spentSinceReset, if_neg hp, zero_add]
      exact hkept.spend p
  · intro p caps' s hrow' hs
    by_cases hp : r.provider = p
    · subst hp
      obtain rfl := Option.some.inj (hrow.symm.trans hrow')
      exact (hsince s hs).1.trans (hsince s hs).2
    · rw [spentSinceReset, if_neg hp, zero_add]
      exact h.ceiling p caps' s hrow' hs
  · intro p caps' s limits hrow' hs hlimits m
    refine (h.member p caps' s limits hrow' hs hlimits m).granted (s := s) hday hgranted.kept
      fun hp => ?_
    subst hp
    obtain rfl := Option.some.inj (hrow.symm.trans hrow')
    exact ⟨hgranted.member s limits hs hlimits, hspent s hs⟩
  · intro p x
    by_cases hp : r.provider = p ∧ r.runner = x
    · obtain ⟨rfl, rfl⟩ := hp
      obtain ⟨v, hv, hroom, -⟩ := hgranted.counted
      rw [runnerCalls, if_pos ⟨rfl, rfl⟩]
      dsimp only
      rw [hv]
      exact (h.runner _ _).charge hday hroom
    · rw [runnerCalls, if_neg hp]
      exact hkept.runner p x
  · intro p caps' hrow' x d
    rw [callsOn]
    by_cases hp : r.provider = p ∧ r.runner = x
    · obtain ⟨rfl, rfl⟩ := hp
      obtain rfl := Option.some.inj (hrow.symm.trans hrow')
      obtain ⟨v, -, hroom, hle⟩ := hgranted.counted
      rw [runnerCalls, if_pos ⟨rfl, rfl⟩]
      exact ((h.runner _ _).charge hday hroom).charged_le hle (h.runnerCap _ _ hrow _ d)
    · rw [runnerCalls, if_neg hp]
      exact h.runnerCap p caps' hrow' x d

theorem resetPoolSpend_ends (p : String) (f : Files) :
    Ends (resetPoolSpend p) f fun _ g => g = f ∨ g = f.setSpend p none := by
  refine ends_steady_bind (steady_poolSpend p) (fun _ => ?_) ⟨fun _ => .inl rfl, .inl rfl⟩
  refine ends_steady_bind steady_elsewhere (fun _ => ?_) ⟨fun _ => .inl rfl, .inl rfl⟩
  exact ends_operation (.inr rfl) ⟨fun _ => .inl rfl, .inl rfl⟩ (.inr rfl)

section
variable (h : Accounted table today b)
include h

theorem Accounted.reset (hg : g = b.files ∨ g = b.files.setSpend p none) :
    Accounted table today ⟨g, .reset p :: b.history⟩ := by
  have hsame : g.members = b.files.members ∧ g.usage = b.files.usage := by
    rcases hg with rfl | rfl
    · exact ⟨rfl, rfl⟩
    · exact ⟨rfl, rfl⟩
  constructor
  · intro q
    rw [spentSinceReset]
    by_cases hq : p = q
    · rw [if_pos hq]
      exact zero_le _
    · rw [if_neg hq]
      rcases hg with rfl | rfl
      · exact h.spend q
      · simpa [spent, spend_setSpend, Ne.symm hq] using h.spend q
  · intro q caps s hrow hs
    rw [spentSinceReset]
    by_cases hq : p = q
    · rw [if_pos hq]
      exact zero_le _
    · rw [if_neg hq]
      exact h.ceiling q caps s hrow hs
  · intro q caps s limits hrow hs hlimits m
    exact (h.member q caps s limits hrow hs hlimits m).congr (by rw [hsame.1]) rfl
  · intro q x
    rw [runnerDay, hsame.2]
    exact h.runner q x
  · exact h.runnerCap

/-- One event keeps the books, from a day that is not later than its own. -/
theorem step_accounted (e : Event) (hday : ∀ d ∈ e.day?, today ≤ d) :
    Accounted table (e.day?.getD today) (b.step table e) := by
  cases e with
  | grant r fates =>
    have hle : today ≤ r.day := hday r.day rfl
    change Accounted table r.day (b.step table (.grant r fates))
    cases hrow : table r.provider with
    | none =>
      simp only [step, hrow]
      exact h.kept hle (.refl r b.files)
    | some caps =>
      have hend : OrKept r b.files (Granted r caps b.files) _ _ := poolGrant_ends fates
      simp only [step, hrow]
      split
      next files rest heq =>
        rw [heq] at hend
        exact h.granted hle hrow hend
      next ending files rest hnot heq =>
        rw [heq] at hend
        cases ending with
        | ok v => exact absurd rfl hnot
        | error | killed => exact h.kept hle hend
  | reset p fates =>
    have hend := resetPoolSpend_ends p b.files fates
    change Accounted table today (b.step table (.reset p fates))
    unfold step
    dsimp only
    split
    · exact h.reset hend
    next hsome =>
      rcases hend with heq | heq
      · rw [heq]
        exact h
      · rw [heq] at hsome
        simp at hsome

end

theorem run_accounted (events : List Event) (h : Accounted table today b)
    (hfrom : ∀ d ∈ events.filterMap Event.day?, today ≤ d)
    (hdays : (events.filterMap Event.day?).Pairwise (· ≤ ·)) :
    ∃ last, Accounted table last (b.run table events) := by
  induction events generalizing b today with
  | nil => exact ⟨today, h⟩
  | cons e events ih =>
    have hstep := step_accounted h e
    cases hd : e.day? with
    | none =>
      rw [filterMap_cons_none hd] at hfrom hdays
      rw [hd] at hstep
      exact ih (hstep (by simp)) hfrom hdays
    | some d =>
      rw [filterMap_cons_some hd] at hfrom hdays
      rw [hd] at hstep
      obtain ⟨hfirst, hrest⟩ := pairwise_cons.1 hdays
      have hle : ∀ d' ∈ some d, today ≤ d' := by
        intro d' hd'
        cases hd'
        exact hfrom d mem_cons_self
      exact ih (hstep hle) hfirst hrest

/-- The pool's ceilings: for a constant provider table and days that do not go back, over
every sequence of grants and resets, with every way the operations of each can fail and
every point at which the process can die, the grants of a row since its last reset stay
within the row's ceiling, each member's grants within that member's total and, on one day,
within the cap of a day, and each runner's calls of a day within the row's number. -/
theorem grants_within_caps (table : String → Option Caps) (files : Files) (events : List Event)
    (hdays : (events.filterMap Event.day?).Pairwise (· ≤ ·)) {p : String} {caps : Caps}
    (hrow : table p = some caps) :
    (∀ s, caps.spend = some s →
      spentSinceReset p (run table ⟨files, []⟩ events).history ≤ s.ceiling ∧
      ∀ limits, caps.member = some limits → ∀ m,
        memberGrants p m (run table ⟨files, []⟩ events).history ≤ limits.total ∧
        ∀ d, memberGrantsOn p m d (run table ⟨files, []⟩ events).history ≤ limits.day) ∧
    ∀ x d, callsOn p x d (run table ⟨files, []⟩ events).history ≤ caps.perDay := by
  have hstart : Accounted table 0 ⟨files, []⟩ := by
    constructor
    · exact fun _ => zero_le _
    · exact fun _ _ _ _ _ => zero_le _
    · exact fun _ _ _ _ _ _ _ _ => ⟨.nil _ _, zero_le _, fun _ => zero_le _, zero_le _⟩
    · exact fun _ _ => .nil _ _
    · exact fun _ _ _ _ _ => zero_le _
  obtain ⟨last, hrun⟩ := run_accounted events hstart (fun d _ => zero_le d) hdays
  constructor
  · intro s hs
    refine ⟨hrun.ceiling p caps s hrow hs, fun limits hlimits m => ?_⟩
    have hmember := hrun.member p caps s limits hrow hs hlimits m
    exact ⟨hmember.totalCap, hmember.dayCap⟩
  · exact hrun.runnerCap p caps hrow

/-- A row whose ceiling has room for two calls, and one of them for each member and day. -/
def twoCalls : Caps := ⟨64, 5, some ⟨20, 10, by decide, by decide, by decide, by decide⟩,
  some ⟨10, 20, by decide, by decide⟩⟩

/-- A call of the first runner for a member. -/
def callFor (member : String) (day : ℕ) : Call := ⟨"pool", "9", member, some 64, day⟩

/-- A member's second call of a day, a death after the spend was charged, a call that finds no
room, and one behind a reset of the spend. -/
def twoMembers : List Event :=
  [.grant (callFor "7" 1) [], .grant (callFor "7" 1) [],
    .grant (callFor "8" 1) (replicate 10 .done ++ [.killed true]),
    .grant (callFor "8" 2) [], .reset "pool" [], .grant (callFor "8" 2) []]

theorem grants_within_caps_twoCalls :
    (run (fun _ => some twoCalls) ⟨.empty, []⟩ twoMembers).history.length = 3 ∧
    memberGrantsOn "pool" "7" 1
      (run (fun _ => some twoCalls) ⟨.empty, []⟩ twoMembers).history ≤ 10 :=
  ⟨by decide, (((grants_within_caps (fun _ => some twoCalls) .empty _ (by decide) rfl).1 _ rfl).2
    _ rfl "7").2 1⟩

end Ledger

end MiniDregg.KeyService
