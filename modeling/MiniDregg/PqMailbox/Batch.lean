import Mathlib.Data.List.Sort
import MiniDregg.PqMailbox.Transit
import MiniDregg.Wire.Blocks
import MiniDregg.Wire.Order

/-!
# Batches of the mix cascade

A batch carries a fixed number of packets of one size. A stage of the cascade
peels one layer off each packet, and a manifest the registrar authenticated lists
the digests of the packets before the first stage and after each stage.

## Implementation notes

The operating system's random words are an argument of the shuffle; running out
of them stands for a failed read. A slice that the source takes after it checked
the length is cut with `take` and `drop`.
-/

namespace MiniDregg.PqMailbox

open Fallible List Wire List.IsChain PrivateBackend

/-- Three relays and the mailbox receiver. -/
def LAYERS : Nat := 4

def OVERHEAD : Nat := OVERHEAD_BYTES

/-- The layer overhead of the first version, kept to refuse its packets by name. -/
def V1_OVERHEAD : Nat := 1088 + 24 + 32 + 16

def DOMAIN : Bytes := ascii "Mini/PQ-batch-mailbox/v2"

def BATCH_MAGIC : Bytes := ascii "MPB2"

def MANIFEST_MAGIC : Bytes := ascii "MPM2"

def V1_REFUSAL : String :=
  "this is a v1 pure ML-KEM-768 mix frame (no X25519 component): refused; the mix is hybrid X25519 + ML-KEM-768 (v2). Re-key the operators (`mix --action key`) and re-seal"

@[ext]
structure Profile where
  epoch : UInt64
  width : Nat
  payload : Nat
  deriving DecidableEq

namespace Profile

variable (p : Profile)

def check : Result Unit :=
  refuseIf (!(decide (2 ≤ p.width) && decide (p.width ≤ 64)
    && (decide (1024 ≤ p.payload) && decide (p.payload ≤ 262144))))
    "PQ batch profile bound refused"

def aad (hop : Nat) : Bytes :=
  DOMAIN ++ [p.epoch.toNat, p.width, p.payload, hop].flatMap (toLeBytes 8)

/-- The size of a packet that enters a stage. -/
def size (hop : Nat) : Nat := p.payload + (LAYERS - hop) * OVERHEAD

def v1Size (hop : Nat) : Nat := p.payload + (LAYERS - hop) * V1_OVERHEAD

/-- The bounds that `check` enforces. -/
structure Bounded : Prop where
  two_le_width : 2 ≤ p.width
  width_le : p.width ≤ 64
  le_payload : 1024 ≤ p.payload
  payload_le : p.payload ≤ 262144

theorem check_eq_ok {u : Unit} : p.check = .ok u ↔ p.Bounded := by
  simp only [check, refuseIf_eq_ok, Bool.not_eq_eq_eq_not, Bool.not_false, Bool.and_eq_true,
    decide_eq_true_eq]
  constructor
  · rintro ⟨⟨h1, h2⟩, h3, h4⟩
    exact ⟨h1, h2, h3, h4⟩
  · rintro ⟨h1, h2, h3, h4⟩
    exact ⟨⟨h1, h2⟩, h3, h4⟩

theorem length_aad (hop : Nat) : (p.aad hop).length = 56 := by
  simp only [aad, length_append, flatMap_cons, flatMap_nil, length_toLeBytes,
    length_nil]
  decide

variable {p}

/-- The context of a layer determines the profile. -/
theorem aad_inj {p' : Profile} {hop hop' : Nat} (hp : p.Bounded) (hp' : p'.Bounded)
    (h : p.aad hop = p'.aad hop') : p = p' := by
  have hfields := map_eq_of_flatMap_eq (w := 8) (by decide)
    (fun _ _ => length_toLeBytes _ _) (fun _ _ => length_toLeBytes _ _)
    (append_cancel_left h)
  simp only [map_cons, map_nil, List.cons.injEq, and_true] at hfields
  obtain ⟨hepoch, hwidth, hpayload, -⟩ := hfields
  have hword {n n' : Nat} (hn : n < 256 ^ 8) (hn' : n' < 256 ^ 8)
      (heq : toLeBytes 8 n = toLeBytes 8 n') : n = n' := by
    rw [← fromLeBytes_toLeBytes hn, heq, fromLeBytes_toLeBytes hn']
  have hw := hp.width_le
  have hw' := hp'.width_le
  have hl := hp.payload_le
  have hl' := hp'.payload_le
  ext
  · exact congrArg _ (UInt64.toNat_inj.1 (hword p.epoch.toNat_lt p'.epoch.toNat_lt hepoch))
  · exact hword (by omega) (by omega) hwidth
  · exact hword (by omega) (by omega) hpayload

end Profile

/-- The bytes `start..stop`. -/
def slice (bytes : Bytes) (start stop : Nat) : Bytes := (bytes.drop start).take (stop - start)

variable {a b rest m auth input : Bytes}

theorem slice_append {start stop : Nat} (ha : a.length = start)
    (hb : b.length = stop - start) : slice (a ++ (b ++ rest)) start stop = b := by
  rw [slice, drop_left' ha, take_left' hb]

section Peeling
variable (c : Primitives)

/-- Take one layer off a packet. -/
def peel (p : Profile) (hop : Nat) (key : HybridSecret) (packet : Bytes) : Result Bytes := do
  refuseIf (decide (hop < LAYERS) && packet.length == p.v1Size hop)
    ("PQ layer packet: " ++ V1_REFUSAL)
  refuseIf (decide (LAYERS ≤ hop) || packet.length != p.size hop) "PQ layer packet shape mismatch"
  openRawContext c key (p.aad hop)
    { hybridCiphertext := packet.take CIPHERTEXT_LEN
      nonce := slice packet CIPHERTEXT_LEN (CIPHERTEXT_LEN + NONCE_BYTES)
      commitment := slice packet (CIPHERTEXT_LEN + NONCE_BYTES)
        (CIPHERTEXT_LEN + NONCE_BYTES + COMMITMENT_BYTES)
      ciphertext := packet.drop (CIPHERTEXT_LEN + NONCE_BYTES + COMMITMENT_BYTES) }

/-- A packet of its stage's size that is a sealed layer, and what the layer holds: the key opens
it under the context of the stage. -/
def Opens (p : Profile) (hop : Nat) (key : HybridSecret) (packet plain : Bytes) : Prop :=
  packet.length = p.size hop ∧ ∃ part : SealedRef,
    packet = part.hybridCiphertext ++ (part.nonce ++ (part.commitment ++ part.ciphertext)) ∧
      openRawContext c key (p.aad hop) part = .ok plain

theorem opens_of_peel {p : Profile} {hop : Nat} {key : HybridSecret} {packet plain : Bytes}
    (h : peel c p hop key packet = .ok plain) : Opens c p hop key packet plain := by
  simp only [peel, check_bind_eq_ok, refuseIf_eq_ok, Bool.or_eq_false_iff,
    bne_eq_false_iff_eq] at h
  obtain ⟨-, ⟨-, hsize⟩, hopen⟩ := h
  refine ⟨hsize, _, ?_, hopen⟩
  simp only [slice, Nat.add_sub_cancel_left, ← drop_drop, take_append_drop]

end Peeling

section Shuffling
variable {α : Type}

/-- Exchange two elements. -/
def swap (values : List α) (i j : Nat) : List α :=
  match values[i]?, values[j]? with
  | some a, some b => (values.set i b).set j a
  | _, _ => values

theorem swap_perm (values : List α) (i j : Nat) : (swap values i j).Perm values := by
  unfold swap
  split
  next a b ha hb =>
    obtain ⟨hi, rfl⟩ := List.getElem?_eq_some_iff.1 ha
    obtain ⟨hj, rfl⟩ := List.getElem?_eq_some_iff.1 hb
    exact set_set_perm hi hj
  · exact List.Perm.refl values

/-- Rejection sampling: the first word below the largest multiple of the bound, reduced. -/
def drawBelow (bound : Nat) : List UInt64 → Result (Nat × List UInt64)
  | [] => .error "cannot obtain operating-system randomness"
  | n :: draws =>
    if n.toNat < (2 ^ 64 - 1) - (2 ^ 64 - 1) % bound then .ok (n.toNat % bound, draws)
    else drawBelow bound draws

/-- The rounds of the shuffle from index `i` down to one. -/
def shuffleFrom : Nat → List α → List UInt64 → Result (List α)
  | 0, values, _ => .ok values
  | i + 1, values, draws => do
    let (j, draws) ← drawBelow (i + 2) draws
    shuffleFrom i (swap values (i + 1) j) draws

def shuffle (values : List α) (draws : List UInt64) : Result (List α) :=
  shuffleFrom (values.length - 1) values draws

variable {draws : List UInt64} {values out : List α}

/-- A shuffle loses and invents nothing. -/
theorem shuffleFrom_perm {i : Nat}
    (h : shuffleFrom i values draws = .ok out) : out.Perm values := by
  induction i generalizing values draws with
  | zero =>
    cases h
    exact List.Perm.refl _
  | succ i ih =>
    obtain ⟨⟨j, draws'⟩, -, h⟩ := bind_eq_ok.1 h
    exact (ih h).trans (swap_perm values (i + 1) j)

end Shuffling

section Batches
variable (c : Primitives)

section
variable (p : Profile) (hop : Nat)

def batch (packets : List Bytes) : Result Bytes := do
  refuseIf (decide (LAYERS < hop) || packets.length != p.width
      || packets.any fun v => v.length != p.size hop)
    "PQ batch fixed shape mismatch"
  return BATCH_MAGIC ++ (toLeBytes 8 p.epoch.toNat ++ (UInt8.ofNat hop ::
    (toLeBytes 2 p.width ++ (toLeBytes 4 p.payload ++ packets.flatten))))

/-- The digest of each packet. -/
def digests (packets : List Bytes) : List Bytes := packets.map c.sha256.digest

def unbatch (bytes : Bytes) : Result (List Bytes) := do
  refuseIf (bytes.take 4 == ascii "MPB1") ("PQ batch (MPB1): " ++ V1_REFUSAL)
  refuseIf (decide (LAYERS < hop) || bytes.length != 19 + p.width * p.size hop
      || bytes.take 4 != BATCH_MAGIC || fromLeBytes (slice bytes 4 12) != p.epoch.toNat
      || (bytes.getD 12 0).toNat != hop || fromLeBytes (slice bytes 13 15) != p.width
      || fromLeBytes (slice bytes 15 19) != p.payload)
    "PQ batch epoch/stage/shape refused before allocation"
  let packets := chunksExact (p.size hop) (bytes.drop 19)
  refuseIf (!decide (digests c packets).Nodup) "duplicate packet within fixed cohort batch"
  return packets

/-- Digests in the order of `sort`. -/
def sorted (l : List Bytes) : List Bytes := @insertionSort Octets (· ≤ ·) _ l

def stageSet (m : Bytes) : List Bytes :=
  chunksExact 32 (slice m (18 + hop * p.width * 32) (18 + (hop + 1) * p.width * 32))

def verifyManifest (m auth : Bytes) : Result Unit := do
  refuseIf (m.take 4 == ascii "MPM1")
    ("authenticated cohort manifest (MPM1): " ++ V1_REFUSAL)
  let n := 18 + (LAYERS + 1) * p.width * 32
  refuseIf (decide (LAYERS ≤ hop) || auth.length != 32 || m.length != n + LAYERS * 32
      || m.take 4 != MANIFEST_MAGIC || fromLeBytes (slice m 4 12) != p.epoch.toNat
      || fromLeBytes (slice m 12 14) != p.width
      || fromLeBytes (slice m 14 18) != p.payload)
    "authenticated cohort manifest epoch/shape"
  let bound := p.aad hop ++ m.take n
  refuseIf (!c.hmacVerify auth bound (slice m (n + hop * 32) (n + (hop + 1) * 32)))
    "registrar/operator manifest authentication refused"
  (List.range (LAYERS + 1)).forM fun stage =>
    let set := stageSet p stage m
    refuseIf ((set.zip set.tail).any fun w => @LE.le Octets _ w.2 w.1)
      "manifest admitted set not strict/sorted"

/-- Check a batch and its manifest, and peel every packet. -/
def prepareTransition (key : HybridSecret) (input m auth : Bytes) :
    Result (List Bytes) := do
  verifyManifest c p hop m auth
  let packets ← unbatch c p hop input
  refuseIf (decide (sorted (digests c packets) ≠ stageSet p hop m))
    "active omission/replacement/input-set substitution refused"
  let next ← packets.mapM (peel c p hop key)
  refuseIf (decide (sorted (digests c next) ≠ stageSet p (hop + 1) m))
    "active peeled-output-set substitution refused"
  return next

end

theorem sorted_perm (l : List Bytes) : (sorted l).Perm l := @perm_insertionSort Octets _ _ l

variable {l : List Bytes} {p : Profile} {hop : Nat} {l' : List Bytes}

/-- Sorting forgets the order, and nothing else. -/
theorem sorted_eq_iff : sorted l = sorted l' ↔ l.Perm l' := by
  have hpairs (l : List Bytes) : @List.Pairwise Octets (· ≤ ·) (sorted l) :=
    @pairwise_insertionSort Octets (· ≤ ·) _ _ _ l
  constructor
  · intro h
    exact (sorted_perm l).symm.trans (h ▸ sorted_perm l')
  · intro h
    exact List.Perm.eq_of_pairwise (fun a b _ _ => @le_antisymm Octets _ a b) (hpairs l) (hpairs l')
      (((sorted_perm l).trans h).trans (sorted_perm l').symm)

/-- A list whose neighbours ascend strictly has no duplicate. -/
theorem nodup_of_neighbours
    (h : ((l.zip l.tail).any fun w => @LE.le Octets _ w.2 w.1) = false) : l.Nodup := by
  have hchain : @List.IsChain Octets (· < ·) l := by
    induction l with
    | nil => exact nil
    | cons a l ih =>
      cases l with
      | nil => exact singleton a
      | cons b l =>
        simp only [tail_cons, zip_cons_cons, any_cons, Bool.or_eq_false_iff,
          decide_eq_false_iff_not] at h
        exact cons_cons (lt_of_not_ge h.1) (ih h.2)
  exact (isChain_iff_pairwise.1 hchain).imp ne_of_lt

variable {c} {packets : List Bytes} {bytes : Bytes}

/-- What `batch` writes, `unbatch` reads back, unless two packets have one digest. -/
theorem unbatch_batch (hp : p.Bounded) (h : batch p hop packets = .ok bytes)
    (hnodup : (digests c packets).Nodup) : unbatch c p hop bytes = .ok packets := by
  simp only [batch, check_bind_eq_ok, refuseIf_eq_ok, Bool.or_eq_false_iff, decide_eq_false_iff_not,
    bne_eq_false_iff_eq, any_eq_false, Nat.not_lt] at h
  obtain ⟨⟨⟨hhop, hlen⟩, hsize⟩, h⟩ := h
  cases h
  have hblocks : ∀ b ∈ packets, b.length = p.size hop := fun b hb => by
    simpa using hsize b hb
  have hpos : 0 < p.size hop := by
    have := hp.le_payload
    unfold Profile.size
    omega
  have hmagic : BATCH_MAGIC.length = 4 := by decide
  -- the fields of the header, one after the other
  generalize hE : toLeBytes 8 p.epoch.toNat = E
  generalize hW : toLeBytes 2 p.width = W
  generalize hP : toLeBytes 4 p.payload = P
  have hElen : E.length = 8 := by rw [← hE, length_toLeBytes]
  have hWlen : W.length = 2 := by rw [← hW, length_toLeBytes]
  have hPlen : P.length = 4 := by rw [← hP, length_toLeBytes]
  have hepoch : fromLeBytes E = p.epoch.toNat := by
    rw [← hE, fromLeBytes_toLeBytes p.epoch.toNat_lt]
  have hwidth : fromLeBytes W = p.width := by
    rw [← hW, fromLeBytes_toLeBytes (by have := hp.width_le; omega)]
  have hpayload : fromLeBytes P = p.payload := by
    rw [← hP, fromLeBytes_toLeBytes (by have := hp.payload_le; omega)]
  have hbyte : (UInt8.ofNat hop).toNat = hop := by
    unfold LAYERS at hhop
    rw [UInt8.toNat_ofNat']
    omega
  generalize hbytes : BATCH_MAGIC ++ (E ++ (UInt8.ofNat hop :: (W ++ (P ++ packets.flatten))))
    = bytes
  have htake : bytes.take 4 = BATCH_MAGIC := by rw [← hbytes, take_left' hmagic]
  have hslice1 : slice bytes 4 12 = E := by rw [← hbytes, slice_append hmagic hElen]
  have hstage : bytes.getD 12 0 = UInt8.ofNat hop := by
    have hat : (BATCH_MAGIC ++ E).length = 12 := by simp [hmagic, hElen]
    rw [← hbytes, ← append_assoc, getD_eq_getElem?_getD,
      getElem?_append_right (Nat.le_of_eq hat), hat]
    rfl
  have hslice2 : slice bytes 13 15 = W := by
    have hassoc : bytes = (BATCH_MAGIC ++ (E ++ [UInt8.ofNat hop])) ++
      (W ++ (P ++ packets.flatten)) := by
      simp [← hbytes]
    rw [hassoc, slice_append (by simp [hmagic, hElen]) hWlen]
  have hslice3 : slice bytes 15 19 = P := by
    have hassoc : bytes = (BATCH_MAGIC ++ (E ++ (UInt8.ofNat hop :: W))) ++
      (P ++ packets.flatten) := by
      simp [← hbytes]
    rw [hassoc, slice_append (by simp [hmagic, hElen, hWlen]) hPlen]
  have hbody : bytes.drop 19 = packets.flatten := by
    have hassoc : bytes = (BATCH_MAGIC ++ (E ++ (UInt8.ofNat hop :: (W ++ P)))) ++ packets.flatten := by
      simp [← hbytes]
    rw [hassoc, drop_left' (by simp [hmagic, hElen, hWlen, hPlen])]
  have hlength : bytes.length = 19 + p.width * p.size hop := by
    rw [← hbytes]
    simp only [length_append, length_cons, hmagic, hElen, hWlen, hPlen,
      length_flatten_of_blocks hblocks, hlen]
    omega
  have hversion : (BATCH_MAGIC == ascii "MPB1") = false := by decide
  simp only [unbatch, hversion, htake, hlength, hslice1, hslice2, hslice3, hstage, hbody, hepoch,
    hwidth, hpayload, hbyte, chunksExact_flatten hpos hblocks, hnodup, bne_self_eq_false,
    Nat.not_lt.2 hhop, refuseIf_false, ok_bind, decide_false, decide_true, Bool.or_false,
    Bool.not_true, pure_eq_ok]

/-- What `unbatch` accepts has no two packets of one digest. -/
theorem nodup_of_unbatch (h : unbatch c p hop bytes = .ok packets) : (digests c packets).Nodup := by
  simp only [unbatch, check_bind_eq_ok, refuseIf_eq_ok] at h
  obtain ⟨-, -, hnodup, h⟩ := h
  cases h
  simpa using hnodup

/-- The sets of a verified manifest have no duplicate. -/
theorem nodup_stageSet {stage : Nat} (h : verifyManifest c p hop m auth = .ok ())
    (hstage : stage ≤ LAYERS) : (stageSet p stage m).Nodup := by
  simp only [verifyManifest, check_bind_eq_ok, forM_eq_ok, refuseIf_eq_ok] at h
  obtain ⟨-, -, -, hsets⟩ := h
  exact nodup_of_neighbours (hsets stage (mem_range.2 (Nat.lt_succ_of_le hstage)))

/-- What a prepared transition established: the input is a batch of the admitted packets, and the
peeled packets are those the manifest lists for the next stage. -/
structure Prepared (c : Primitives) (p : Profile) (hop : Nat) (key : HybridSecret)
    (input m auth : Bytes) (next : List Bytes) : Prop where
  verified : verifyManifest c p hop m auth = .ok ()
  peeled : ∃ packets, unbatch c p hop input = .ok packets ∧
    sorted (digests c packets) = stageSet p hop m ∧ packets.mapM (peel c p hop key) = .ok next
  listed : sorted (digests c next) = stageSet p (hop + 1) m

theorem prepareTransition_eq_ok {key : HybridSecret} {next : List Bytes} :
    prepareTransition c p hop key input m auth = .ok next ↔
      Prepared c p hop key input m auth next := by
  constructor
  · intro h
    obtain ⟨hverified, h⟩ := check_bind_eq_ok.1 h
    obtain ⟨packets, hunbatch, h⟩ := bind_eq_ok.1 h
    obtain ⟨hbefore, h⟩ := check_bind_eq_ok.1 h
    obtain ⟨peeled, hpeeled, h⟩ := bind_eq_ok.1 h
    obtain ⟨hafter, h⟩ := check_bind_eq_ok.1 h
    cases h
    simp only [refuseIf_decide, not_not] at hbefore hafter
    exact ⟨hverified, ⟨packets, hunbatch, hbefore, hpeeled⟩, hafter⟩
  · rintro ⟨hverified, ⟨packets, hunbatch, hbefore, hpeeled⟩, hafter⟩
    simp only [prepareTransition, hverified, hunbatch, hbefore, hpeeled, hafter, ok_bind, ne_eq,
      not_true_eq_false, decide_false, refuseIf_false, pure_eq_ok]

/-- Without a collision, batches with the same digests have the same packets. -/
theorem perm_of_digests (hnodup : (digests c l).Nodup) (h : (digests c l).Perm (digests c l'))
    (hinj : ∀ a ∈ l, ∀ b ∈ l', c.sha256.digest a = c.sha256.digest b → a = b) : l.Perm l' := by
  have hl : l.Nodup := hnodup.of_map _
  have hl' : l'.Nodup := (h.nodup_iff.1 hnodup).of_map _
  refine (perm_ext_iff_of_nodup hl hl').2 fun a => ?_
  constructor
  · intro ha
    obtain ⟨b, hb, hab⟩ := mem_map.1 (h.mem_iff.1 (mem_map_of_mem ha))
    exact hinj a ha b hb hab.symm ▸ hb
  · intro ha
    obtain ⟨b, hb, hba⟩ := mem_map.1 (h.mem_iff.2 (mem_map_of_mem ha))
    exact hinj b hb a ha hba ▸ hb

end Batches

end MiniDregg.PqMailbox
