import MiniDregg.PrivateBackend.OneUse

/-!
# Changes of a view

Each kind of change to a view keeps `Sound`: a change of phase, the end of a
call, a file replaced, a packet sent, lost or applied, and a call that takes
its lock.
-/

namespace MiniDregg.PrivateBackend

open Fallible TransitionJournal Call Function List Journal

namespace View

/-- The phase of one call changes. -/
def setPhase (v : View) (i : Nat) (phase : Phase) : View :=
  { v with clients := v.clients.modify i fun cl => { cl with phase := phase } }

theorem getElem?_setPhase (v : View) (i k : Nat) (phase : Phase) :
    (v.setPhase i phase).clients[k]? =
      v.clients[k]?.map fun cl => if i = k then { cl with phase := phase } else cl := by
  simp only [setPhase, getElem?_modify]
  rfl

/-- A call after a change of phase: the one that changed, or another as it was. -/
theorem eq_of_setPhase {v : View} {i k : Nat} {phase : Phase} {cl : Client}
    (h : (v.setPhase i phase).clients[k]? = some cl) :
    (∃ old, i = k ∧ v.clients[k]? = some old ∧ cl = { old with phase := phase }) ∨
      i ≠ k ∧ v.clients[k]? = some cl := by
  rw [getElem?_setPhase, Option.map_eq_some_iff] at h
  obtain ⟨old, hold, rfl⟩ := h
  split_ifs with hik
  · exact .inl ⟨old, hik, hold, rfl⟩
  · exact .inr ⟨hik, hold⟩

@[simp] theorem call_setPhase (v : View) (i k : Nat) (phase : Phase) :
    (v.setPhase i phase).call k = v.call k := by
  rw [call, getElem?_setPhase, call, Option.map_map]
  refine congrArg (Option.map · _) (funext fun cl => ?_)
  simp only [comp_apply]
  split <;> rfl

variable {v : View} {i k : Nat} {phase : Phase} {c : Call} {calls : Set Call}

theorem phaseSound_setPhase {phase' : Phase} :
    (v.setPhase i phase').PhaseSound calls k c phase ↔ v.PhaseSound calls k c phase := by
  cases phase <;>
    simp only [PhaseSound, Ahead, Clear, Kin, Unrivalled, Holds, Owned, Reserves,
      call_setPhase] <;> rfl

variable {cl : Client} {b : Bytes}

namespace Sound

section
variable (h : Sound calls v)
include h

theorem setPhase (hi : v.clients[i]? = some cl) (ho : cl.phase ≠ .ended)
    (hphase : v.PhaseSound calls i cl.call phase) (hwait : ∀ b, (i, b) ∉ v.pending) :
    Sound calls (v.setPhase i phase) where
  canonical := h.canonical
  spent := h.spent
  members := by simpa using h.members
  packets := by
    intro k b hb
    obtain ⟨cl', hk, hkind, ha⟩ := h.packets k b hb
    have hne : i ≠ k := by
      rintro rfl
      exact hwait b hb
    exact ⟨cl', by rw [getElem?_setPhase, hk, Option.map_some, if_neg hne], hkind, ha⟩
  single := h.single
  locks := by
    intro k cl' hk ho'
    obtain ⟨old, rfl, hold, rfl⟩ | ⟨-, hk⟩ := eq_of_setPhase hk
    · obtain rfl := Option.some.inj (hi.symm.trans hold)
      exact h.locks i cl hi ho
    · exact h.locks k cl' hk ho'
  retained := h.retained
  flying := by
    intro k c hk
    exact h.flying k c ⟨call_setPhase v i k phase ▸ hk.1, hk.2⟩
  phases := by
    intro k cl' hk
    rw [phaseSound_setPhase]
    obtain ⟨old, rfl, hold, rfl⟩ | ⟨-, hk⟩ := eq_of_setPhase hk
    · obtain rfl := Option.some.inj (hi.symm.trans hold)
      exact hphase
    · exact h.phases k cl' hk
  returned := h.returned

/-- The end of a call frees its lock and leaves its packet under way. -/
theorem endCall (i : Nat) :
    Sound calls { v.setPhase i .ended with
      holder := fun p => if v.holder p = some i then none else v.holder p } where
  canonical := h.canonical
  spent := h.spent
  members := by
    intro k c hk
    exact h.members k c (call_setPhase v i k .ended ▸ hk)
  packets := by
    intro k b hb
    obtain ⟨cl, hk, hkind, ha⟩ := h.packets k b hb
    refine ⟨_, (getElem?_setPhase v i k .ended).trans (by rw [hk, Option.map_some]), ?_, ?_⟩
    · split <;> exact hkind
    · split
      · exact fun ho => absurd rfl ho
      · exact ha
  single := h.single
  locks := by
    intro k cl hk ho
    obtain ⟨old, -, -, rfl⟩ | ⟨hik, hk⟩ := eq_of_setPhase hk
    · exact absurd rfl ho
    · have hlock := h.locks k cl hk ho
      have hne : v.holder cl.call.lockPath ≠ some i := by
        rw [hlock]
        exact fun heq => hik (Option.some.inj heq).symm
      simpa only [if_neg hne] using hlock
  retained := h.retained
  flying := by
    intro k c hk
    exact h.flying k c ⟨call_setPhase v i k .ended ▸ hk.1, hk.2⟩
  phases := by
    intro k cl hk
    change (v.setPhase i .ended).PhaseSound calls k _ _
    rw [phaseSound_setPhase]
    obtain ⟨old, -, -, rfl⟩ | ⟨-, hk⟩ := eq_of_setPhase hk
    · trivial
    · exact h.phases k cl hk
  returned := h.returned

/-- A file is replaced. An intent may appear on disk only for a batch that is
not held, while no rival is under way and no other rival is running. -/
theorem write {p : Path} (hlock : ∀ c ∈ calls, c.lockPath ≠ p)
    (hnew : ∀ d ∈ calls, d.intentPath = p → d.intent = b →
      ¬ v.Holds d ∧ (∀ k c, v.Reserves k c → ¬ Rival d c) ∧
        ∀ (k : Nat) (cl : Client), v.clients[k]? = some cl → cl.phase ≠ .ended →
          Rival d cl.call → Same d cl.call) :
    Sound calls { v with disk := update v.disk p (some b)
                         holder := update v.holder p none } where
  canonical := h.canonical
  spent := h.spent
  members := h.members
  packets := h.packets
  single := h.single
  locks := by
    intro k cl hk ho
    have hne := hlock _ (h.mem_of_client hk)
    simpa only [update_of_ne hne] using h.locks k cl hk ho
  retained := by
    intro d hd hdisk hholds
    by_cases hp : d.intentPath = p
    · simp only [hp, update_self, Option.some.injEq] at hdisk
      exact absurd hholds (hnew d hd hp hdisk.symm).1
    · simp only [update_of_ne hp] at hdisk
      exact h.retained d hd hdisk hholds
  flying := by
    intro k c hk d hd hr hdisk
    by_cases hp : d.intentPath = p
    · simp only [hp, update_self, Option.some.injEq] at hdisk
      exact absurd hr ((hnew d hd hp hdisk.symm).2.1 k c hk)
    · simp only [update_of_ne hp] at hdisk
      exact h.flying k c hk d hd hr hdisk
  phases := by
    intro k cl hk
    by_cases ho : cl.phase = .ended
    · rw [ho]
      trivial
    · refine (h.phases k cl hk).mono ?_ id id id (fun _ => id) (fun _ => id) id
      intro hclear d hd hr hdisk
      by_cases hp : d.intentPath = p
      · simp only [hp, update_self, Option.some.injEq] at hdisk
        exact (hnew d hd hp hdisk.symm).2.2 k cl hk ho hr
      · simp only [update_of_ne hp] at hdisk
        exact hclear d hd hr hdisk
  returned := h.returned

/-- Packets that are lost can no longer do harm. -/
theorem drop {pending : List (Nat × Bytes)} (hsub : pending.Sublist v.pending) :
    Sound calls { v with pending := pending } where
  canonical := h.canonical
  spent := h.spent
  members := h.members
  packets := fun i b hb => h.packets i b (hsub.subset hb)
  single := h.single.sublist (hsub.map _)
  locks := h.locks
  retained := h.retained
  flying := fun i c hi => h.flying i c ⟨hi.1, hsub.subset hi.2⟩
  phases := by
    intro k cl hk
    refine (h.phases k cl hk).mono id ?_ ?_ (fun ha => ha.sublist hsub) (fun _ => id)
      (fun _ => id) id
    · exact fun hkin i d hi => hkin i d ⟨hi.1, hsub.subset hi.2⟩
    · exact fun hun i d hi => hun i d ⟨hi.1, hsub.subset hi.2⟩
  returned := h.returned

end

end Sound

/-- A call sends a packet and waits for the reply. -/
def post (v : View) (i : Nat) (b : Bytes) (phase : Phase) : View :=
  { v.setPhase i phase with pending := v.pending ++ [(i, b)] }

theorem call_post (v : View) (i k : Nat) (b : Bytes) (phase : Phase) :
    (v.post i b phase).call k = v.call k := call_setPhase v i k phase

variable {d : Call}

theorem reserves_post :
    (v.post i b phase).Reserves k d ↔
      v.Reserves k d ∨ (k = i ∧ d.request = b ∧ v.call i = some d) := by
  simp only [Reserves, call_post]
  simp only [post, mem_append, mem_singleton, Prod.mk.injEq]
  constructor
  · rintro ⟨hc, hmem | ⟨rfl, rfl⟩⟩
    · exact .inl ⟨hc, hmem⟩
    · exact .inr ⟨rfl, rfl, hc⟩
  · rintro (⟨hc, hmem⟩ | ⟨rfl, rfl, hc⟩)
    · exact ⟨hc, .inl hmem⟩
    · exact ⟨hc, .inr ⟨rfl, rfl⟩⟩

theorem ahead_post (h : v.Ahead k c)
    (hnew : ∀ b', (k, b') ∈ v.pending → ∀ d, v.call i = some d → b = d.request → ¬ Rival d c) :
    (v.post i b phase).Ahead k c := by
  simp only [Ahead, call_post]
  simp only [post]
  refine pairwise_append.2 ⟨h, pairwise_singleton _ _, ?_⟩
  rintro ⟨k', b'⟩ hmem y hy rfl d hd hreq
  obtain rfl := mem_singleton.1 hy
  exact hnew b' hmem d hd hreq

namespace Sound

theorem post (h : Sound calls v) (hD : Disciplined calls) (hi : v.clients[i]? = some cl)
    (ho : cl.phase ≠ .ended) (hidle : awaits cl.call cl.phase = none)
    (hwait : awaits cl.call phase = some b)
    (hb : b = [0] ∨ (b = cl.call.request ∧ v.Clear calls cl.call))
    (hphase : (v.post i b phase).PhaseSound calls i cl.call phase) :
    Sound calls (v.post i b phase) := by
  have hcall : v.call i = some cl.call := by simp [call, hi]
  have hnone := h.not_pending hi ho hidle
  have hread (d : Call) (hd : d ∈ calls) : d.request ≠ [0] := by
    intro heq
    rcases (hD.asks d hd).head with hh | hh <;> simp [heq] at hh
  have hrival (k : Nat) (cl' : Client) (hk : v.clients[k]? = some cl') (ho' : cl'.phase ≠ .ended)
      (hik : i ≠ k) (d : Call) (hd : v.call i = some d) : ¬ Rival d cl'.call := by
    rw [hcall] at hd
    obtain rfl := Option.some.inj hd
    exact fun hr => hik (h.eq_of_rival hD hi hk ho ho' hr)
  refine ⟨h.canonical, h.spent, ?_, ?_, ?_, ?_, h.retained, ?_, ?_, h.returned⟩
  · exact fun k c hk => h.members k c (call_post v i k b phase ▸ hk)
  · intro k b' hmem
    rcases mem_append.1 hmem with hold | hnew
    · obtain ⟨cl', hk, hkind, ha⟩ := h.packets k b' hold
      have hne : i ≠ k := by
        rintro rfl
        exact hnone b' hold
      exact ⟨cl', (getElem?_setPhase v i k phase).trans (by rw [hk, Option.map_some, if_neg hne]),
        hkind, ha⟩
    · obtain ⟨rfl, rfl⟩ := Prod.mk.inj (mem_singleton.1 hnew)
      refine ⟨_, (getElem?_setPhase v k k phase).trans (by rw [hi, Option.map_some, if_pos rfl]),
        ?_, fun _ => hwait⟩
      exact hb.imp_right And.left
  · have hfresh : i ∉ v.pending.map Prod.fst := by
      intro hmem
      obtain ⟨⟨k, b'⟩, hpacket, rfl⟩ := mem_map.1 hmem
      exact hnone b' hpacket
    change ((v.pending ++ [(i, b)]).map Prod.fst).Nodup
    rw [map_append]
    exact h.single.append (nodup_singleton _) (by simpa using hfresh)
  · intro k cl' hk ho'
    obtain ⟨old, rfl, hold, rfl⟩ | ⟨-, hk⟩ := eq_of_setPhase hk
    · obtain rfl := Option.some.inj (hi.symm.trans hold)
      exact h.locks i cl hi ho
    · exact h.locks k cl' hk ho'
  · intro k c hk
    rcases reserves_post.1 hk with hold | ⟨rfl, hreq, hc⟩
    · exact h.flying k c hold
    · rw [hcall] at hc
      obtain rfl := Option.some.inj hc
      rcases hb with rfl | ⟨-, hclear⟩
      · exact absurd hreq (hread _ (h.mem_of_client hi))
      · exact hclear
  · intro k cl' hk
    obtain ⟨old, rfl, hold, rfl⟩ | ⟨hik, hk⟩ := eq_of_setPhase hk
    · obtain rfl := Option.some.inj (hi.symm.trans hold)
      exact hphase
    · by_cases ho' : cl'.phase = .ended
      · rw [ho']
        trivial
      · have hno := hrival k cl' hk ho' hik
        refine (h.phases k cl' hk).mono id ?_ ?_ ?_ (fun _ => id) (fun _ => id) id
        · intro hkin m d hm hr
          rcases reserves_post.1 hm with hold | ⟨rfl, -, hd⟩
          · exact hkin m d hold hr
          · exact absurd hr (hno d hd)
        · intro hun m d hm
          rcases reserves_post.1 hm with hold | ⟨rfl, -, hd⟩
          · exact hun m d hold
          · exact hno d hd
        · exact fun ha => ahead_post ha fun _ _ d hd _ => hno d hd

end Sound

/-- The anchor applies the reservation of a call. -/
def grant (v : View) (c : Call) (j : Journal) (rest : List (Nat × Bytes)) : View :=
  { v with
    journal := j
    pending := rest
    owner := fun id => if id ∈ c.ids then some c else v.owner id }

section Grant
variable {c : Call} {rest : List (Nat × Bytes)} {j : Journal}

section
variable (h : Sound calls v) (hj : v.journal.reserveBatch c.ids c.generation c.purpose = .ok j)
include h hj

theorem Sound.owned_grant (hd : v.Owned d) : (v.grant c j rest).Owned d := by
  intro id hid
  obtain ⟨o, ho, hsame⟩ := hd id hid
  obtain ⟨-, -, -, hfresh, -, -⟩ := reserveBatch_eq_ok.1 hj
  have hnot : id ∉ c.ids := fun hc => hfresh id hc (h.spent id o ho)
  exact ⟨o, by simpa only [grant, if_neg hnot] using ho, hsame⟩

/-- A batch that becomes held is that of a rival. -/
theorem Sound.holds_of_grant (hd : (v.grant c j rest).Holds d) : v.Holds d ∨ Rival c d := by
  have hcan := h.canonical.reserveBatch hj
  obtain ⟨-, -, -, hfresh, -, rfl⟩ := reserveBatch_eq_ok.1 hj
  obtain ⟨hne, hnd, hrows⟩ := hcan.holdsBatch_iff.1 hd
  by_cases hmeet : ∃ id ∈ c.ids, id ∈ d.ids
  · obtain ⟨id, hc, hid⟩ := hmeet
    rcases allocatedTo_allocate.1 (hrows id hid) with ⟨-, hg, hp⟩ | hold
    · exact .inr ⟨⟨id, hc, hid⟩, hg, hp⟩
    · exact absurd (h.canonical.spent_of_allocatedTo hold) (hfresh id hc)
  · refine .inl (h.canonical.holdsBatch_iff.2 ⟨hne, hnd, fun id hid => ?_⟩)
    rcases allocatedTo_allocate.1 (hrows id hid) with ⟨hc, -⟩ | hold
    · exact absurd ⟨id, hc, hid⟩ hmeet
    · exact hold

end

theorem owned_grant_of_same (hD : Disciplined calls) (hc : c ∈ calls) (hd : d ∈ calls)
    (hsame : Same c d) : (v.grant c j rest).Owned d := by
  intro id hid
  rw [← (hD.batch_of_same hc hd hsame).1] at hid
  exact ⟨c, by simp only [grant, if_pos hid], hsame⟩

theorem Sound.grant (h : Sound calls v) (hD : Disciplined calls)
    (hpend : v.pending = (k, c.request) :: rest) (hcall : v.call k = some c)
    (hj : v.journal.reserveBatch c.ids c.generation c.purpose = .ok j) :
    Sound calls (v.grant c j rest) := by
  have hc := h.members k c hcall
  have hres : v.Reserves k c := ⟨hcall, by simp [hpend]⟩
  have hsub : rest.Sublist v.pending := hpend ▸ sublist_cons_self _ _
  have hdrop := h.drop hsub
  have howned (d : Call) : v.Owned d → (v.grant c j rest).Owned d := h.owned_grant hj
  refine ⟨h.canonical.reserveBatch hj, ?_, h.members, hdrop.packets, hdrop.single, h.locks, ?_,
    hdrop.flying, ?_, fun r hr => ⟨(h.returned r hr).1, howned _ (h.returned r hr).2⟩⟩
  · intro id o ho
    obtain ⟨-, -, -, -, -, rfl⟩ := reserveBatch_eq_ok.1 hj
    simp only [View.grant] at ho
    simp only [View.grant, Journal.allocate, mem_append, mem_reverse]
    split at ho
    · next hid => exact .inl hid
    · exact .inr (h.spent id o ho)
  · intro d hd hdisk hholds
    rcases h.holds_of_grant hj hholds with hold | hr
    · exact howned d (h.retained d hd hdisk hold)
    · exact owned_grant_of_same hD hc hd (h.flying k c hres d hd hr.symm hdisk).symm
  · intro i cl hi
    have hcl := h.mem_of_client hi
    refine (h.phases i cl hi).mono id ?_ ?_ (fun ha => ha.sublist hsub) ?_ ?_ (howned _)
    · exact fun hkin m d hm => hkin m d ⟨hm.1, hsub.subset hm.2⟩
    · exact fun hun m d hm => hun m d ⟨hm.1, hsub.subset hm.2⟩
    · intro hkin hmine hholds
      rcases h.holds_of_grant hj hholds with hold | hr
      · exact howned _ (hmine hold)
      · exact owned_grant_of_same hD hc hcl (hkin k c hres hr)
    · intro hun hnot hholds
      rcases h.holds_of_grant hj hholds with hold | hr
      · exact hnot hold
      · exact hun k c hres hr

end Grant

/-- A call takes its lock. -/
def begin (v : View) (c : Call) : View :=
  { v with
    disk := update v.disk c.lockPath (some ((v.disk c.lockPath).getD []))
    holder := update v.holder c.lockPath (some v.clients.length)
    clients := v.clients ++ [⟨c, .locked⟩] }

theorem Sound.begin (h : Sound calls v) (hD : Disciplined calls) (hc : c ∈ calls)
    (hfree : v.holder c.lockPath = none) : Sound calls (v.begin c) := by
  have hget (k : Nat) (cl : Client) (hk : (v.begin c).clients[k]? = some cl) :
      v.clients[k]? = some cl ∨ (k = v.clients.length ∧ cl = ⟨c, .locked⟩) := by
    simp only [View.begin, getElem?_append] at hk
    split at hk
    · exact .inl hk
    next hlen =>
      obtain ⟨hlt, heq⟩ := List.getElem?_eq_some_iff.1 hk
      rw [length_singleton] at hlt
      refine .inr ⟨by omega, ?_⟩
      simpa using heq.symm
  have hold {k : Nat} {cl : Client} (hk : v.clients[k]? = some cl) :
      (v.begin c).clients[k]? = some cl := by
    simp only [View.begin]
    rw [getElem?_append_left (List.getElem?_eq_some_iff.1 hk).1, hk]
  have hcall {k : Nat} {b : Bytes} (hk : (k, b) ∈ v.pending) : (v.begin c).call k = v.call k := by
    obtain ⟨cl, hcl, -⟩ := h.packets k b hk
    simp only [call, hold hcl, hcl]
  have hres {k : Nat} {d : Call} (hk : (v.begin c).Reserves k d) : v.Reserves k d :=
    ⟨hcall hk.2 ▸ hk.1, hk.2⟩
  have hdisk {d : Call} (hd : d ∈ calls) : (v.begin c).disk d.intentPath = v.disk d.intentPath :=
    update_of_ne (hD.lockApart c hc d hd).2.symm _ _
  have hclear {d : Call} (hd : v.Clear calls d) : (v.begin c).Clear calls d :=
    fun e he hr hfile => hd e he hr (hdisk he ▸ hfile)
  refine ⟨h.canonical, h.spent, ?_, ?_, h.single, ?_, ?_, ?_, ?_, h.returned⟩
  · intro k d hk
    obtain ⟨cl, hcl, rfl⟩ := Option.map_eq_some_iff.1 hk
    rcases hget k cl hcl with hcl | ⟨-, rfl⟩
    · exact h.mem_of_client hcl
    · exact hc
  · intro k b hk
    obtain ⟨cl, hcl, hrest⟩ := h.packets k b hk
    exact ⟨cl, hold hcl, hrest⟩
  · intro k cl hk ho
    rcases hget k cl hk with hk | ⟨rfl, rfl⟩
    · have hlock := h.locks k cl hk ho
      have hne : cl.call.lockPath ≠ c.lockPath := by
        intro heq
        rw [heq, hfree] at hlock
        cases hlock
      exact (update_of_ne hne _ _).trans hlock
    · exact update_self _ _ _
  · intro d hd hfile hholds
    exact h.retained d hd (hdisk hd ▸ hfile) hholds
  · exact fun k d hk => hclear (h.flying k d (hres hk))
  · intro k cl hk
    rcases hget k cl hk with hk | ⟨-, rfl⟩
    · refine (h.phases k cl hk).mono hclear (fun hkin m d hm => hkin m d (hres hm))
        (fun hun m d hm => hun m d (hres hm)) ?_ (fun _ => id) (fun _ => id) id
      intro ha
      refine List.Pairwise.imp_of_mem ?_ ha
      intro x y _ hy hxy hx d hd
      exact hxy hx d (hcall hy ▸ hd)
    · trivial

end View

end MiniDregg.PrivateBackend
