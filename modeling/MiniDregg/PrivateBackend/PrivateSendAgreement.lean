import MiniDregg.PrivateBackend.PrivateSendDelivery

/-!
# Agreement of private deliveries

A delivered plaintext is the agreed ciphertext unmasked with the opened key, so
two honest receivers deliver the same. If the dealer is honest both are of its
one deal, and unmasking gives its plaintext back.
-/

namespace MiniDregg.PrivateBackend

open Arith MiniDregg.Network Store Fallible Asks Bracha

variable {n f q : ℕ} {sha : Wire.Digest} {x : String} {c : List (List GF128)}

namespace Asks

variable {a : Asks n f}

/-- What a party may answer to a message it does not take. -/
def refusals : List String :=
  ["foreign sender/instance", "commit vector dimensions", "RA input domain",
    "private share sender/dimensions", "reconstruction dimensions"]

/-- A message is refused before it changes anything, never later. -/
theorem receive_error (ha : Sound sha a) (hn : n ≤ 16) {m : Message}
    (hact : a.receive sha q m = .error x) : x ∈ refusals := by
  rcases refuseIf_bind_error hact with rfl | ⟨hq, hact⟩
  · simp [refusals]
  rw [Bool.or_eq_false_iff, decide_eq_false_iff_not, Nat.not_le] at hq
  rcases bind_eq_error.1 hact with hact | ⟨⟨b, taken⟩, htake, hact⟩
  · cases hbody : m.body with
    | commit p | ra p | privateShare s | reconstruct s =>
      rw [hbody] at hact
      simp only [take, bind_eq_error, refuseIf_eq_error, pure_eq_ok, reduceCtorEq, and_false,
        exists_false, or_false] at hact
      simp [refusals, ← hact.2]
  · obtain ⟨t, ht, -⟩ := (ha.take hq.1 htake).progress hn
    rw [ht, ok_bind] at hact
    cases hact

theorem dealerWithCoefficients_error (hact : a.dealerWithCoefficients sha c = .error x) :
    x = "dealer dimensions" := by
  rcases refuseIf_bind_error hact with rfl | ⟨-, hact⟩
  · rfl
  · cases hact

theorem dealerKey_error (hact : a.dealerKey sha c = .error x) :
    x = "dealer key degree/dimensions" := by
  rcases refuseIf_bind_error hact with rfl | ⟨-, hact⟩
  · rfl
  · cases hact

end Asks

namespace PrivateSend

variable {s : PrivateSend n f} {e : Event Input Message}

/-- What a party may answer to a step it does not take. -/
def refusals : List String :=
  Asks.refusals ++ ["private delivery sender/context", "public key opening forbidden",
    "private ciphertext fixed length", "private request roster", "private request domain",
    "private opening addressed to another recipient", "private recipient range",
    "private sender role/replay/fixed length", "dealer dimensions",
    "dealer key degree/dimensions", "private sender already committed",
    "private sender emit without commit"]

theorem take_error (hs : Sound sha s) (hn : n ≤ 16) {b : Body} (hact : s.take sha q b = .error x) :
    x ∈ refusals := by
  cases b with
  | key m =>
    rcases refuseIf_bind_error hact with rfl | ⟨-, hact⟩
    · simp [refusals]
    · rcases bind_eq_error.1 hact with hact | ⟨moved, -, hact⟩
      · exact List.mem_append_left _ (receive_error hs.key hn hact)
      · cases hact
  | cipher | transfer =>
    rcases refuseIf_bind_error hact with rfl | ⟨-, hact⟩
    · simp [refusals]
    · cases hact
  | request i j p =>
    rcases refuseIf_bind_error hact with rfl | ⟨-, hact⟩
    · simp [refusals]
    · rcases refuseIf_bind_error hact with rfl | ⟨-, hact⟩
      · simp [refusals]
      · cases hact

theorem deal_error {y : Bytes} (hact : s.dealerWithCoefficients sha y c = .error x) :
    x ∈ refusals := by
  rcases refuseIf_bind_error hact with rfl | ⟨-, hact⟩
  · simp [refusals]
  rcases bind_eq_error.1 hact with hact | ⟨ps, -, hact⟩
  · rw [dealerWithCoefficients_error hact]
    simp [refusals]
  rcases bind_eq_error.1 hact with hact | ⟨key, -, hact⟩
  · rw [dealerKey_error hact]
    simp [refusals]
  · cases hact

/-- Every refusal is made before the record changes: the sharing inside never lets a
message out. -/
theorem handle_error (hs : Sound sha s) (hn : n ≤ 16)
    (hact : (machine sha n f).handle s e = .error x) : x ∈ refusals := by
  cases e with
  | input p i =>
    cases i with
    | deal y c => exact deal_error hact
    | commitDeal y c =>
      rcases refuseIf_bind_error hact with rfl | ⟨-, hact⟩
      · simp [refusals]
      · rcases bind_eq_error.1 hact with hact | ⟨moved, -, hact⟩
        · exact deal_error hact
        · cases hact
    | emitDeal =>
      rcases bind_eq_error.1 hact with hact | ⟨deal, -, hact⟩
      · rw [← okOr_eq_error hact]
        simp [refusals]
      · exact deal_error hact
    | requestDelivery i =>
      rcases refuseIf_bind_error hact with rfl | ⟨-, hact⟩
      · simp [refusals]
      · have hsound : Sound sha { s with requested := insert i s.requested } :=
          { hs with }
        obtain ⟨t, out, ht, -⟩ := hsound.progress hn
        rcases bind_eq_error.1 hact with hact | ⟨moved, -, hact⟩
        · cases ht.symm.trans hact
        · cases hact
  | deliver p q m =>
    rcases refuseIf_bind_error hact with rfl | ⟨hq, hact⟩
    · simp [refusals]
    rw [Bool.or_eq_false_iff, decide_eq_false_iff_not, Nat.not_le] at hq
    rcases bind_eq_error.1 hact with hact | ⟨taken, htake, hact⟩
    · exact take_error hs hn hact
    · obtain ⟨t, out, ht, -⟩ := (hs.take hn hq.1 htake).1.progress hn
      rw [ht, ok_bind] at hact
      cases hact

section Network
variable {R : Roster} {dealer : ℕ} {g : Generation} {length : ℕ}
  {schedule : List (Event Input Message)} (hn : R.n ≤ 16)
include hn

variable {v w : Bytes} {p : ℕ}

theorem commit_agreement
    (hv : ((outcome sha R dealer g length schedule).state p).key.rbc.output = some v)
    (hw : ((outcome sha R dealer g length schedule).state q).key.rbc.output = some w) : v = w := by
  exact part_agreement (commitPart sha R.f hn) _
    (sound_fresh sha R.n R.f · dealer g length) (fun _ => rfl) schedule hv hw

theorem cipher_agreement
    (hv : ((outcome sha R dealer g length schedule).state p).cipher.output = some v)
    (hw : ((outcome sha R dealer g length schedule).state q).cipher.output = some w) : v = w := by
  exact part_agreement (cipherPart sha R.f hn) _
    (sound_fresh sha R.n R.f · dealer g length) (fun _ => rfl) schedule hv hw

/-- The commitments of an honest dealer's delivery are those of its deal. -/
theorem commit_of_deal (hd : R.Honest dealer)
    (hv : ((outcome sha R dealer g length schedule).state p).key.rbc.output = some v) :
    ∃ x c, Dealt sha R dealer g length schedule x c ∧ Asks.dimensions R.f c = true ∧
      v = Asks.commitmentsOf sha R.n (instanceOf sha R.n R.f dealer g length) c := by
  obtain ⟨q, m, hm, hunwrap⟩ := part_output_init (commitPart sha R.f hn) _
    (sound_fresh sha R.n R.f · dealer g length) (fun _ => rfl) schedule hv hd rfl
  exact (oneDeal hn hd schedule).commit q m v hm hunwrap

/-- The ciphertext of an honest dealer's delivery is that of its deal. -/
theorem cipher_of_deal (hd : R.Honest dealer)
    (hv : ((outcome sha R dealer g length schedule).state p).cipher.output = some v) :
    ∃ x c, Dealt sha R dealer g length schedule x c ∧
      v = mask sha (contextOf sha R.n R.f dealer g length)
        (keyOfDeal sha (instanceOf sha R.n R.f dealer g length) c) x := by
  obtain ⟨q, m, hm, hunwrap⟩ := part_output_init (cipherPart sha R.f hn) _
    (sound_fresh sha R.n R.f · dealer g length) (fun _ => rfl) schedule hv hd rfl
  exact (oneDeal hn hd schedule).cipher q m v hm hunwrap

omit hn in
/-- What an honest receiver delivers is the plaintext that an honest dealer dealt, and the
same for all honest receivers whoever the dealer is; and an honest party's step is never
refused for what the sharing inside it would send. -/
theorem delivery_agreement (hn : R.n ≤ 16)
    (hbind : Asks.Binding sha (instanceOf sha R.n R.f dealer g length))
    (schedule : List (Event Input Message)) :
    let W := outcome sha R dealer g length schedule
    (R.Honest dealer → ∀ p x, R.Honest p → (W.state p).delivered = some x →
        (∃ c, Dealt sha R dealer g length schedule x c) ∧
          ∀ y c, Dealt sha R dealer g length schedule y c → y = x) ∧
      (∀ p q x y, R.Honest p → R.Honest q → (W.state p).delivered = some x →
        (W.state q).delivered = some y → x = y) ∧
      ∀ p e x, R.Honest p → (machine sha R.n R.f).handle (W.state p) e = .error x →
        x ≠ sideEffect ∧ x ≠ publicTraffic := by
  intro W
  have hinst : ∀ p, (W.state p).key.inst = instanceOf sha R.n R.f dealer g length := fun p =>
    (run_kept hn p).inst
  have hcontext : ∀ p, (W.state p).context = contextOf sha R.n R.f dealer g length := fun p =>
    (run_kept hn p).context
  refine ⟨?_, ?_, ?_⟩
  · intro hd p x hp hx
    obtain ⟨k, v, hk, hv, rfl⟩ := (run_sound hn p).delivered x hx
    obtain ⟨x, c, hdealt, rfl⟩ := cipher_of_deal hn hd hv
    have hkey : keyOfDeal sha (W.state p).key.inst c = k := by
      obtain ⟨sh, -, hsh, -⟩ := (run_sound hn p).key.key k hk
      obtain ⟨w, hw, -⟩ := commits_eq_some.1 ((run_sound hn p).key.commits sh hsh)
      obtain ⟨x', c', hdealt', hdim, rfl⟩ := commit_of_deal hn hd hw
      obtain ⟨-, rfl⟩ := (oneDeal hn hd schedule).unique x c x' c' hdealt hdealt'
      refine (run_sound hn p).key.key_deal hn ?_ hdim (fun u hu => ?_) hk
      · rwa [hinst]
      · rw [hinst]
        exact commit_agreement hn hu hw
    rw [hinst] at hkey
    rw [hcontext, hkey, mask_mask]
    exact ⟨⟨c, hdealt⟩, fun y c' hy => ((oneDeal hn hd schedule).unique y c' x c hy hdealt).1⟩
  · intro p q x y hp hq hx hy
    obtain ⟨k, v, hk, hv, rfl⟩ := (run_sound hn p).delivered x hx
    obtain ⟨k', w, hk', hw, rfl⟩ := (run_sound hn q).delivered y hy
    have hkey : k = k' := by
      refine (run_sound hn p).key.key_eq (run_sound hn q).key hn ?_ ?_ ?_ hk hk'
      · rw [hinst, hinst]
      · rwa [hinst]
      · exact fun u u' hu hu' => commit_agreement hn hu hu'
    rw [hcontext, hcontext, hkey, cipher_agreement hn hv hw]
  · intro p e x hp hx
    have hmem := handle_error (run_sound hn p) hn hx
    constructor <;> rintro rfl <;> exact absurd hmem (by decide)

end Network

section Sample

open Asks (lastBytes firstGeneration)

/-- One of four parties delivers, and every honest one that delivers holds its plaintext. -/
theorem delivery_agreement_fourParties : ∃ schedule,
    let W := outcome lastBytes fourParties 3 firstGeneration 2 schedule
    (W.state 1).delivered = some [7, 9] ∧
      ∀ q y, fourParties.Honest q → (W.state q).delivered = some y → [7, 9] = y := by
  obtain ⟨schedule, hrun⟩ := exists_forgedRun
  have hdelivered := hrun ▸ forgedRun_delivers.2
  refine ⟨schedule, hdelivered, fun q y hq hy => ?_⟩
  exact (delivery_agreement (R := fourParties) (by decide) (binding_lastBytes _) schedule).2.1
    1 q _ y (by decide) hq hdelivered hy

end Sample

end PrivateSend

end MiniDregg.PrivateBackend
