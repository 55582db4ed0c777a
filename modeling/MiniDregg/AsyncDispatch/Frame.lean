import MiniDregg.AsyncDispatch.Service

/-!
# What an action of the service writes

Every action creates files and never changes one, and each action creates files of few
names only. The names of different tickets and of different files of a ticket differ.

## Implementation notes

One relation says what an action may create; it is kept by every step of the action,
failed or not, so it holds at every crash point too.
-/

namespace MiniDregg.AsyncDispatch

open Fallible Store.OrderedMap Action List

/-- The files grow by files that satisfy `P` only, and the workers stay as they are. -/
structure Adds (P : Text → Bytes → Prop) (w w' : World) : Prop where
  grows : w.files.Grows w'.files
  origin : ∀ name v, w'.files.get? name = some v → w.files.get? name = some v ∨ P name v
  workers : w'.memory.workers = w.memory.workers

variable {P : Text → Bytes → Prop}

namespace Adds

variable {Q : Text → Bytes → Prop} {a b c : World}

theorem refl (w : World) : Adds P w w := ⟨Store.OrderedMap.Grows.refl _, fun _ _ h => .inl h, rfl⟩

theorem trans (h : Adds P a b) (h' : Adds P b c) : Adds P a c := by
  refine ⟨h.grows.trans h'.grows, fun name v hv => ?_, h'.workers.trans h.workers⟩
  rcases h'.origin name v hv with hb | hP
  · exact h.origin name v hb
  · exact .inr hP

theorem imp (h : Adds P a b) (himp : ∀ name v, P name v → Q name v) : Adds Q a b :=
  ⟨h.grows, fun name v hv => (h.origin name v hv).imp id (himp name v), h.workers⟩

end Adds

section Keeps
variable {α β : Type}

/-- A step and what follows it add allowed files only. -/
theorem adds_bind {x : Action World α} {f : α → Action World β} (hx : Action.Keeps (Adds P) x)
    (hf : ∀ a, Action.Keeps (Adds P) (f a)) : Action.Keeps (Adds P) (x >>= f) :=
  keeps_bind Adds.trans hx hf

/-- A step that does not touch the state. -/
theorem adds_lift (r : Result α) : Action.Keeps (Adds P) (lift r : Action World α) :=
  keeps_lift Adds.refl r

theorem adds_refuseIf (c : Bool) (e : String) : Action.Keeps (Adds P) (refuseIf c e) :=
  keeps_refuseIf Adds.refl c e

theorem adds_pure (a : α) : Action.Keeps (Adds P) (pure a : Action World α) :=
  keeps_pure Adds.refl a

theorem adds_state : Action.Keeps (Adds P) (state : Action World World) :=
  keeps_state Adds.refl

theorem adds_readPrivate (name : Text) (limit : Nat) :
    Action.Keeps (Adds P) (readPrivate name limit) := fun w => Adds.refl w

/-- A change of the memory that leaves the workers alone. -/
theorem adds_modify {f : World → World} (hfiles : ∀ w, (f w).files = w.files)
    (hworkers : ∀ w, (f w).memory.workers = w.memory.workers) :
    Action.Keeps (Adds P) (modify f) := by
  intro w
  change Adds P w (f w)
  refine ⟨?_, fun name v hv => ?_, hworkers w⟩
  · rw [hfiles]
    exact Store.OrderedMap.Grows.refl _
  · rw [hfiles] at hv
    exact .inl hv

variable {name : Text} {bytes : Bytes}

theorem adds_create (h : P name bytes) (w w' : World)
    (hfiles : w'.files = w.files.create name bytes) (hmemory : w'.memory = w.memory) :
    Adds P w w' := by
  refine ⟨hfiles ▸ grows_create _ _ _, fun other v hv => ?_, by rw [hmemory]⟩
  rw [hfiles] at hv
  by_cases hother : other = name
  · subst hother
    cases hget : w.files.get? other with
    | some v' =>
      have hkept := grows_create w.files other bytes other v' hget
      exact .inl (hkept.symm.trans hv)
    | none =>
      rw [get?_create_self hget] at hv
      exact .inr (Option.some.inj hv ▸ h)
  · rw [get?_create_of_ne _ hother] at hv
    exact .inl hv

theorem adds_persist (h : P name bytes) : Action.Keeps (Adds P) (persist name bytes) := by
  intro w
  unfold persist
  split
  · split_ifs
    · exact adds_create h _ _ rfl rfl
    · exact Adds.refl w
  · split_ifs
    · exact Adds.refl w
    · exact adds_create h _ _ rfl rfl

/-- A file that was created is there. -/
theorem persist_eq_ok {w w' : World} {u : Unit} (h : persist name bytes w = (.ok u, w')) :
    w.files.get? name = none ∧ w'.files.get? name = some bytes := by
  unfold persist at h
  split at h
  · cases h
  · split_ifs at h with htaken
    · cases h
    · rw [Bool.not_eq_true, Store.OrderedMap.contains_eq_false] at htaken
      cases h
      exact ⟨htaken, get?_create_self htaken bytes⟩

variable {limit : Nat}

theorem readPrivate_bind_eq_ok {f : Bytes → Action World β} {w w' : World} {b : β}
    (h : (readPrivate name limit >>= f) w = (.ok b, w')) :
    ∃ bytes, w.files.get? name = some bytes ∧ f bytes w = (.ok b, w') := by
  obtain ⟨bytes, t, hread, h⟩ := bind_eq_ok.1 h
  obtain ⟨hfile, rfl⟩ := Prod.ext_iff.1 hread
  exact ⟨bytes, Files.readPrivate_eq_ok hfile, h⟩

end Keeps

/-- Tickets and files of a ticket are told apart by their names. -/
theorem path_inj {id id' : Id} {a b : String} (h : path id a = path id' b) :
    id = id' ∧ a.toList = b.toList := by
  have hlen (i : Id) : (i.1.flatMap Text.hexByte).length = 32 := by
    have hconst : (i.1.map fun x => (Text.hexByte x).length) = i.1.map fun _ => 2 := rfl
    rw [length_flatMap, hconst, map_const', sum_replicate, i.2]
    rfl
  obtain ⟨hid, hrest⟩ := append_inj h (by rw [hlen, hlen])
  refine ⟨Subtype.ext ?_, (cons.inj hrest).2⟩
  have hpairs := Text.hexPairs_flatMap id.1
  rw [hid, Text.hexPairs_flatMap] at hpairs
  exact (Except.ok.inj hpairs).symm

/-- The pin is under a name of its own. -/
theorem path_ne_profile (id : Id) (a : String) : path id a ≠ "async-profile" := by
  intro h
  have hdot : '.' ∈ path id a := mem_append_right _ mem_cons_self
  rw [h] at hdot
  revert hdot
  decide

section Writes
variable {k : Nat} {id : Id} {body : Bytes}

theorem adds_keepClass (h : P (path id "class") (classByte k)) :
    Action.Keeps (Adds P) (keepClass k id) := by
  refine adds_bind adds_state fun w => ?_
  split_ifs
  · exact adds_bind (adds_readPrivate _ _) fun _ => adds_refuseIf _ _
  · exact adds_persist h

theorem adds_retain (hclass : P (path id "class") (classByte k))
    (hrequest : P (path id "request") body) : Action.Keeps (Adds P) (retain k id body) := by
  refine adds_bind adds_state fun w => ?_
  split_ifs
  · refine adds_bind (adds_readPrivate _ _) fun _ => adds_bind (adds_refuseIf _ _) fun _ => ?_
    exact adds_bind (adds_readPrivate _ _) fun _ => adds_refuseIf _ _
  · refine adds_bind (adds_refuseIf _ _) fun _ => adds_bind (adds_keepClass hclass) fun _ => ?_
    refine adds_bind (adds_persist hrequest) fun _ => ?_
    exact adds_modify (fun _ => rfl) fun _ => rfl

theorem adds_standing : Action.Keeps (Adds P) (standing id) := by
  refine adds_bind adds_state fun w => ?_
  split_ifs
  · exact adds_bind (adds_readPrivate _ _) fun _ => adds_pure _
  · exact adds_pure _
  · exact adds_pure _

theorem adds_journalAdmission (hclass : P (path id "class") (classByte k))
    (hrequest : P (path id "request") body) :
    Action.Keeps (Adds P) (journalAdmission k id body) := by
  refine adds_bind (adds_refuseIf _ _) fun _ => ?_
  exact adds_bind (adds_retain hclass hrequest) fun _ => adds_standing

variable (s : Setup) {recovery : Capability}

theorem adds_checkAccess : Action.Keeps (Adds P) (checkAccess s id recovery) :=
  adds_bind (adds_readPrivate _ _) fun _ => adds_refuseIf _ _

theorem adds_reserve (h : P (path id "class") (classByte k)) :
    Action.Keeps (Adds P) (reserve k id) := by
  refine adds_bind adds_state fun w => ?_
  split_ifs
  · exact adds_bind (adds_readPrivate _ _) fun _ => adds_refuseIf _ _
  · refine adds_bind (adds_refuseIf _ _) fun _ => ?_
    refine adds_bind (adds_modify (fun _ => rfl) fun _ => rfl) fun _ => ?_
    exact adds_persist h

theorem adds_grantAccess (h : P (path id "recovery") recovery.1) :
    Action.Keeps (Adds P) (grantAccess s id recovery) := by
  refine adds_bind adds_state fun w => ?_
  split_ifs
  · exact adds_checkAccess s
  · exact adds_bind (adds_refuseIf _ _) fun _ => adds_persist h

/-- The files that an offer may create. -/
def OfferFile (k : Nat) (id : Id) (body : Bytes) (recovery : Capability) (name : Text) (v : Bytes) :
    Prop :=
  (name = path id "class" ∧ v = classByte k) ∨ (name = path id "recovery" ∧ v = recovery.1) ∨
    (name = path id "request" ∧ v = body)

theorem adds_takeCustody :
    Action.Keeps (Adds (OfferFile k id body recovery)) (takeCustody s k id body recovery) := by
  refine adds_bind (adds_refuseIf _ _) fun _ => adds_bind (adds_lift _) fun _ => ?_
  refine adds_bind (adds_reserve (.inl ⟨rfl, rfl⟩)) fun _ => ?_
  refine adds_bind (adds_grantAccess s (.inr (.inl ⟨rfl, rfl⟩))) fun _ => ?_
  exact adds_journalAdmission (.inl ⟨rfl, rfl⟩) (.inr (.inr ⟨rfl, rfl⟩))

theorem adds_offer :
    Action.Keeps (Adds (OfferFile k id body recovery)) (offer s k id body recovery) := by
  refine adds_bind (adds_takeCustody s) fun _ => adds_bind adds_state fun _ => ?_
  exact adds_bind (adds_refuseIf _ _) fun _ => adds_pure _

theorem adds_namedRequest {digest : Bytes} :
    Action.Keeps (Adds P) (namedRequest s k id digest recovery) := by
  refine adds_bind (adds_checkAccess s) fun _ => adds_bind (adds_readPrivate _ _) fun _ => ?_
  refine adds_bind (adds_refuseIf _ _) fun _ => adds_bind (adds_readPrivate _ _) fun _ => ?_
  exact adds_bind (adds_refuseIf _ _) fun _ => adds_pure _

/-- The dispatch markers. -/
def DispatchFile (name : Text) (_ : Bytes) : Prop := ∃ id, name = path id "dispatch"

theorem adds_claimFirst (names : List Text) :
    Action.Keeps (Adds DispatchFile) (claimFirst s k names) := by
  induction names with
  | nil => exact adds_pure _
  | cons name names ih =>
    unfold claimFirst
    split
    · exact ih
    · refine adds_bind (adds_lift _) fun id => adds_bind (adds_readPrivate _ _) fun _ => ?_
      refine adds_bind adds_state fun w => ?_
      split_ifs
      · exact ih
      · refine adds_bind (adds_readPrivate _ _) fun _ => adds_bind (adds_readPrivate _ _) fun _ => ?_
        refine adds_bind (adds_persist ⟨id, rfl⟩) fun _ => ?_
        exact adds_bind (adds_modify (fun _ => rfl) fun _ => rfl) fun _ => adds_pure _

theorem adds_scan : Action.Keeps (Adds DispatchFile) (scan s k) :=
  adds_bind adds_state fun w => adds_claimFirst s w.files.keys

/-- The pin. -/
def ProfileFile (name : Text) (_ : Bytes) : Prop := name = "async-profile"

theorem adds_checkPin : Action.Keeps (Adds ProfileFile) (checkPin s) := by
  refine adds_bind adds_state fun w => ?_
  split_ifs
  · exact adds_bind (adds_readPrivate _ _) fun _ => adds_refuseIf _ _
  · exact adds_persist rfl

end Writes

end MiniDregg.AsyncDispatch
