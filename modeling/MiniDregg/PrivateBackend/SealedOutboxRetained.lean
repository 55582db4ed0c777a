import MiniDregg.PrivateBackend.SealedOutboxImmutable

/-!
# Capsules that were handed out

`retained_capsule` recognises the current form of a draft and of each of its
refinements: the final capsule once there is one, the inner capsule until then. A final
capsule is therefore recognised forever, an inner one until its outer credential is
attached.
-/

namespace MiniDregg.PrivateBackend.SealedOutbox

open Fallible TransitionJournal Sample Wire
open MiniDregg.Store (OrderedMap)

/-- The bytes are the current form of the draft or of one of its refinements: its final capsule,
or its inner capsule as long as it has no final one. -/
def Entry.Current (e : Entry) (raw : Bytes) : Prop :=
  (e.finalCapsule = some raw ∨ e.finalCapsule = none ∧ e.capsule = some raw) ∨
    ∃ c v, e.refinements.get? c = some v ∧
      (v.finalCapsule = some raw ∨ v.finalCapsule = none ∧ v.capsule = raw)

variable {s : Store} {r : DraftReceipt} {raw out : Bytes}

/-- `retained_capsule` accepts exactly the current forms. -/
theorem retainedCapsule_eq_ok :
    Store.retainedCapsule s r raw = .ok out ↔
      out = raw ∧ s.state.Has r.key r.commitment fun e => e.Current raw := by
  have hany (e : Entry) : (e.refinements.values.any fun v =>
      decide (v.finalCapsule.getD v.capsule = raw)) = true ↔
      ∃ c v, e.refinements.get? c = some v ∧
        (v.finalCapsule = some raw ∨ v.finalCapsule = none ∧ v.capsule = raw) := by
    simp only [List.any_eq_true, OrderedMap.mem_values, decide_eq_true_eq, ← Option.getD_eq_iff]
    constructor
    · rintro ⟨v, ⟨c, hv⟩, hraw⟩
      exact ⟨c, v, hv, hraw⟩
    · rintro ⟨c, v, hv, hraw⟩
      exact ⟨v, ⟨c, hv⟩, hraw⟩
  simp only [Store.retainedCapsule, bind_eq_ok, entryFor_eq_ok, State.Has, Entry.Current, and_assoc,
    ← exists_and_left]
  apply exists_congr
  intro e
  rw [and_left_comm (a := out = raw), and_left_comm (a := out = raw)]
  apply and_congr_right
  intro _
  apply and_congr_right
  intro _
  rw [← hany e, ← Option.or_eq_some_iff]
  split_ifs with hcurrent hrefined
  · simp [hcurrent, eq_comm (a := out)]
  · simp [hrefined, eq_comm (a := out)]
  · simp [hcurrent, hrefined]

/-- The draft receipts a capsule of this call belongs to. -/
def Call.About (r : DraftReceipt) : Call → Prop
  | .prepare .. => False
  | .sealDraft r' _ _ => r.key = r'.key ∧ r.commitment = r'.commitment
  | .attachOuter r' _ => r.key = r'.key ∧ r.commitment = r'.commitment
  | .refineInner .. => False
  | .refinedCapsule v => r.key = v.key ∧ r.commitment = v.commitment
  | .attachRefinedOuter v _ => r.key = v.key ∧ r.commitment = v.commitment

/-- No outer credential has replaced the capsule this call has returned. -/
def Call.Standing (s : State) (raw : Bytes) : Call → Prop
  | .sealDraft r _ _ => ∀ e, s.entries.get? r.key = some e → e.finalCapsule = none
  | .refinedCapsule v => ∀ e w, s.entries.get? v.key = some e →
      e.refinements.get? v.credential = some w → w.finalCapsule = none ∨ w.finalCapsule = some raw
  | _ => True

/-- What is recorded and still stands is recognised. -/
theorem Recorded.retained {c : Call} (h : Recorded s.state c (.capsule raw)) (habout : c.About r)
    (hstanding : c.Standing s.state raw) : Store.retainedCapsule s r raw = .ok raw := by
  refine retainedCapsule_eq_ok.2 ⟨rfl, ?_⟩
  cases c with
  | prepare | refineInner => cases habout
  | sealDraft r' credential transit =>
    obtain ⟨e, he, hc, hraw⟩ := h
    rw [habout.1, habout.2]
    exact ⟨e, he, hc, .inl (.inr ⟨hstanding e he, hraw⟩)⟩
  | attachOuter r' credential =>
    obtain ⟨e, he, hc, hraw⟩ := h
    rw [habout.1, habout.2]
    exact ⟨e, he, hc, .inl (.inl hraw)⟩
  | refinedCapsule v =>
    obtain ⟨e, he, hc, w, hw, hraw⟩ := h
    rw [habout.1, habout.2]
    refine ⟨e, he, hc, .inr ⟨_, w, hw, ?_⟩⟩
    rcases hstanding e w he hw with hnone | hfinal
    · rcases hraw with hraw | hraw
      · exact .inr ⟨hnone, hraw⟩
      · exact .inl hraw
    · exact .inl hfinal
  | attachRefinedOuter v credential =>
    obtain ⟨e, he, hc, w, hw, hraw⟩ := h
    rw [habout.1, habout.2]
    exact ⟨e, he, hc, .inr ⟨_, w, hw, .inl hraw⟩⟩

/-- At the end of every run, each capsule a call of the run has returned is recognised,
unless it is an inner capsule whose draft or refinement has got its outer credential
since. What is recognised at all is the current form of the draft or of a refinement: once
the outer credential is attached, the final capsule in place of the inner one. -/
theorem handed_out_retained {sha : Wire.Digest} {sourceIdentity : Bytes} {maxEntries : Nat}
    {f₀ : Bytes} {s₀ : Store}
    (hopen : Store.openStore sha [] sourceIdentity maxEntries = (f₀, .ok s₀))
    (actions : List Action) :
    ∃ s log, run sha sourceIdentity maxEntries s₀ actions = .ok (s, log) ∧
      (∀ c raw r, (c, .ok (.capsule raw)) ∈ log → c.About r → c.Standing s.state raw →
        Store.retainedCapsule s r raw = .ok raw) ∧
      ∀ r raw out, Store.retainedCapsule s r raw = .ok out ↔
        out = raw ∧ s.state.Has r.key r.commitment fun e => e.Current raw := by
  obtain ⟨hreopen, hid, hsound₀⟩ := openStore_empty hopen
  obtain ⟨s, log, hrun, hsound, -⟩ := hsound₀.run hid hreopen actions
  refine ⟨s, log, hrun, ?_, fun r raw out => retainedCapsule_eq_ok⟩
  intro c raw r hmem habout hstanding
  exact (hsound.recorded c _ hmem).retained habout hstanding

/-! ## A run that attaches an outer credential -/

namespace Sample

def finalBytes : Bytes := (capsule [2]).encoding

theorem attached_bytes :
    (Store.attachOuter sha256 (perform sha256
      (perform sha256 (fresh sha256) none prepare).1 none
      (.sealDraft receipt [1] transit)).1 receipt [2] none).2 = .ok finalBytes ∧
    Store.retainedCapsule (perform sha256 (perform sha256
      (perform sha256 (fresh sha256) none prepare).1 none
      (.sealDraft receipt [1] transit)).1 none (.attachOuter receipt [2])).1 receipt innerBytes =
        .error "source selected capsule was never retained" := by
  decide +kernel

end Sample

theorem perform_attachOuter {sha : Wire.Digest} {credential : Bytes}
    (h : (Store.attachOuter sha s r credential none).2 = .ok raw) :
    (perform sha s none (.attachOuter r credential)).2 = .ok (.capsule raw) := by
  simp only [perform, h, Except.map]

theorem handed_out_retained_sample :
    ∃ s log, run sha256 [1] 2 (fresh sha256)
        [.call prepare none, .call (.sealDraft receipt [1] transit) none,
          .call (.attachOuter receipt [2]) none] = .ok (s, log) ∧
      (.attachOuter receipt [2], .ok (.capsule finalBytes)) ∈ log ∧
      Store.retainedCapsule s receipt finalBytes = .ok finalBytes := by
  obtain ⟨s, log, hrun, hretained, -⟩ := handed_out_retained (fresh_opens sha256)
    [.call prepare none, .call (.sealDraft receipt [1] transit) none,
      .call (.attachOuter receipt [2]) none]
  obtain ⟨log', hrun', -, hlogged⟩ := run_calls (perform_sealDraft sealed_bytes.1)
    (perform_attachOuter attached_bytes.1)
  have hlog : log = log' := congrArg Prod.snd (Except.ok.inj (hrun.symm.trans hrun'))
  rw [← hlog] at hlogged
  have habout : (Call.attachOuter receipt [2]).About receipt := ⟨rfl, rfl⟩
  exact ⟨s, _, hrun, hlogged, hretained _ _ _ hlogged habout trivial⟩

/-- The capsule that the sealing has returned is no longer recognised once the outer
credential is attached. -/
theorem sealed_capsule_forgotten :
    ∃ s log, run sha256 [1] 2 (fresh sha256)
        [.call prepare none, .call (.sealDraft receipt [1] transit) none,
          .call (.attachOuter receipt [2]) none] = .ok (s, log) ∧
      (.sealDraft receipt [1] transit, .ok (.capsule innerBytes)) ∈ log ∧
      Store.retainedCapsule s receipt innerBytes =
        .error "source selected capsule was never retained" := by
  obtain ⟨log, hrun, hlogged, -⟩ := run_calls (perform_sealDraft sealed_bytes.1)
    (perform_attachOuter attached_bytes.1)
  exact ⟨_, log, hrun, hlogged, attached_bytes.2⟩

end MiniDregg.PrivateBackend.SealedOutbox
