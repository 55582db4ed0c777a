import MiniDregg.PrivateBackend.Codec
import MiniDregg.Wire.Delimited

/-!
# The journal of allocated correlations

A correlation is a row of a preparation pool. The journal lists the spent rows
and, for each, the generation and the purpose it was allocated to. The module
follows `codec.rs`: the field codecs, the journal with its canonical encoding,
batch reservation, and the single and batch reservation requests.

## Implementation notes

The ordered sets and maps of the source are used for membership, counting and
lookup only. A set is the list it was collected from, its size equals that of
the list exactly when the list has no duplicates, and a map collected from rows
keeps the last row of an id.
-/

namespace MiniDregg.PrivateBackend

open Fallible Reader CodecNat Wire.Delimited
open List hiding count

namespace Reader

theorem nat_delimited : Wire.Delimited put := natCodec.delimited fun _ => trivial

/-- Lengths and codes written with `Nat::new` are delimited without a bound. -/
theorem new_delimited : Wire.Delimited fun n : Nat => (CodecNat.new n).put := by
  intro n m r r' h
  obtain ⟨hn, hr⟩ := nat_delimited _ _ _ _ h
  have hval := congrArg toNat hn
  simp only [toNat_new] at hval
  exact ⟨hval, hr⟩

theorem bytes_delimited : Wire.Delimited PrivateBackend.bytes := by
  intro a a' r r' h
  simp only [PrivateBackend.bytes, append_assoc] at h
  obtain ⟨hlen, htail⟩ := new_delimited _ _ _ _ h
  exact append_inj htail hlen

end Reader

/-! ## Fields -/

structure Generation where
  invocation : CodecNat
  command : Bytes
  attempt : CodecNat
  generation : CodecNat
  configuration : CodecNat
  deriving DecidableEq

namespace Generation

def put (g : Generation) : Bytes :=
  g.invocation.put ++ bytes g.command ++ g.attempt.put ++ g.generation.put ++ g.configuration.put

def get : Wire.Reader String Generation := fun b => do
  let (invocation, b) ← Reader.nat b
  let (command, b) ← Reader.bytes b
  let (attempt, b) ← Reader.nat b
  let (generation, b) ← Reader.nat b
  let (configuration, b) ← Reader.nat b
  pure (⟨invocation, command, attempt, generation, configuration⟩, b)

theorem put_delimited : Wire.Delimited put := by
  intro a a' r r' h
  obtain ⟨i, c, t, g, f⟩ := a
  obtain ⟨i', c', t', g', f'⟩ := a'
  simp only [put, append_assoc] at h
  obtain ⟨rfl, h₁⟩ := nat_delimited _ _ _ _ h
  obtain ⟨rfl, h₂⟩ := bytes_delimited _ _ _ _ h₁
  obtain ⟨rfl, h₃⟩ := nat_delimited _ _ _ _ h₂
  obtain ⟨rfl, h₄⟩ := nat_delimited _ _ _ _ h₃
  obtain ⟨rfl, h₅⟩ := nat_delimited _ _ _ _ h₄
  exact ⟨rfl, h₅⟩

def codec : Wire.Codec String Generation where
  put := put
  get := get
  valid g := g.command.length ≤ MAX
  get_put := by
    intro g rest hg
    have hb (r : Bytes) : Reader.bytes (bytes g.command ++ r) = .ok (g.command, r) :=
      Reader.bytesCodec.get_put g.command r hg
    simp only [get, put, List.append_assoc, nat_put, ok_bind, hb, pure_eq_ok]
  put_get := by
    intro b g rest h
    simp only [get, bind_eq_ok, Prod.exists, pure_pair] at h
    obtain ⟨i, b₁, h₁, c, b₂, h₂, t, b₃, h₃, g', b₄, h₄, f, b₅, h₅, rfl, rfl⟩ := h
    obtain ⟨hc, rfl⟩ := Reader.bytesCodec.put_get _ _ _ h₂
    refine ⟨hc, ?_⟩
    rw [put_nat h₁, put_nat h₃, put_nat h₄, put_nat h₅]
    simp only [put, Reader.bytesCodec, List.append_assoc]

end Generation

structure Correlation where
  pool : CodecNat
  row : CodecNat
  deriving DecidableEq

namespace Correlation

def put (c : Correlation) : Bytes := c.pool.put ++ c.row.put

def get : Wire.Reader String Correlation := fun b => do
  let (pool, b) ← Reader.nat b
  let (row, b) ← Reader.nat b
  pure (⟨pool, row⟩, b)

def codec : Wire.Codec String Correlation where
  put := put
  get := get
  valid _ := True
  get_put := by
    intro c rest _
    simp only [get, put, List.append_assoc, nat_put, ok_bind, pure_eq_ok]
  put_get := by
    intro b c rest h
    simp only [get, bind_eq_ok, Prod.exists, pure_pair] at h
    obtain ⟨p, b₁, h₁, r, b₂, h₂, rfl, rfl⟩ := h
    refine ⟨trivial, ?_⟩
    rw [put_nat h₁, put_nat h₂]
    simp only [put, List.append_assoc]

theorem put_delimited : Wire.Delimited put := codec.delimited fun _ => trivial

end Correlation

inductive Purpose
  | triple
  | coin
  | holderPad
  | audiencePad
  deriving DecidableEq

/-- `p as u64`. -/
def Purpose.code : Purpose → Nat
  | triple => 0
  | coin => 1
  | holderPad => 2
  | audiencePad => 3

/-- `codec::purpose`. -/
def purpose : Nat → Result Purpose
  | 0 => .ok .triple
  | 1 => .ok .coin
  | 2 => .ok .holderPad
  | 3 => .ok .audiencePad
  | _ => .error "purpose code"

/-- The 0 and 1 codes of a consumption flag. -/
def consumption : Nat → Result Bool
  | 0 => .ok false
  | 1 => .ok true
  | _ => .error "consumption code"

variable {α : Type}

section Codes
variable (number : α → Nat) (parse : Nat → Result α)

/-- A number field read through the parser of its codes. -/
def Reader.code : Wire.Reader String α := fun b => do
  let (n, b) ← Reader.nat b
  let v ← n.value
  let a ← parse v
  pure (a, b)

/-- A table of codes below `2^64` is a codec. -/
def codeCodec (hparse : ∀ a, parse (number a) = .ok a)
    (hcode : ∀ n a, parse n = .ok a → number a = n) (hlt : ∀ a, number a < 2 ^ 64) :
    Wire.Codec String α where
  put a := (CodecNat.new (number a)).put
  get := code parse
  valid _ := True
  get_put := by
    intro a rest _
    have hv : (CodecNat.new (number a)).value = .ok (number a) := by
      rw [value_eq_ok, toNat_new]
      exact ⟨hlt a, rfl⟩
    simp only [code, nat_put, ok_bind, hv, hparse, pure_eq_ok]
  put_get := by
    intro b a rest h
    simp only [code, bind_eq_ok, Prod.exists, pure_pair] at h
    obtain ⟨n, b₁, h₁, v, hv, a', ha, rfl, rfl⟩ := h
    refine ⟨trivial, ?_⟩
    rw [value_eq_ok] at hv
    rw [hcode v a' ha, ← hv.2, new_toNat]
    exact put_nat h₁

end Codes

/-- `a.consumed as u64`. -/
def consumptionCode (b : Bool) : Nat := if b then 1 else 0

def purposeCodec : Wire.Codec String Purpose :=
  codeCodec Purpose.code purpose (by intro p; cases p <;> rfl)
    (by
      intro n p h
      unfold purpose at h
      split at h <;> cases h <;> rfl)
    (by intro p; cases p <;> decide)

def consumptionCodec : Wire.Codec String Bool :=
  codeCodec consumptionCode consumption (by intro b; cases b <;> rfl)
    (by
      intro n b h
      unfold consumption at h
      split at h <;> cases h <;> rfl)
    (by intro b; cases b <;> decide)

theorem purpose_delimited : Wire.Delimited fun p : Purpose => (CodecNat.new p.code).put :=
  purposeCodec.delimited fun _ => trivial

structure Allocation where
  id : Correlation
  generation : Generation
  purpose : Purpose
  consumed : Bool
  deriving DecidableEq

namespace Allocation

def put (a : Allocation) : Bytes :=
  a.id.put ++ a.generation.put ++ (CodecNat.new a.purpose.code).put ++
    (CodecNat.new (consumptionCode a.consumed)).put

def get : Wire.Reader String Allocation := fun b => do
  let (id, b) ← Correlation.get b
  let (generation, b) ← Generation.get b
  let (purpose, b) ← code PrivateBackend.purpose b
  let (consumed, b) ← code consumption b
  pure (⟨id, generation, purpose, consumed⟩, b)

theorem put_delimited : Wire.Delimited put := by
  intro a a' r r' h
  obtain ⟨i, g, p, c⟩ := a
  obtain ⟨i', g', p', c'⟩ := a'
  simp only [put, append_assoc] at h
  obtain ⟨rfl, h₁⟩ := Correlation.put_delimited _ _ _ _ h
  obtain ⟨rfl, h₂⟩ := Generation.put_delimited _ _ _ _ h₁
  obtain ⟨rfl, h₃⟩ := purpose_delimited _ _ _ _ h₂
  obtain ⟨rfl, h₄⟩ := (consumptionCodec.delimited fun _ => trivial) _ _ _ _ h₃
  exact ⟨rfl, h₄⟩

def codec : Wire.Codec String Allocation where
  put := put
  get := get
  valid a := a.generation.command.length ≤ MAX
  get_put := by
    intro a rest ha
    have hi (r : Bytes) := Correlation.codec.get_put a.id r trivial
    have hg (r : Bytes) := Generation.codec.get_put a.generation r ha
    have hp (r : Bytes) := purposeCodec.get_put a.purpose r trivial
    have hc (r : Bytes) := consumptionCodec.get_put a.consumed r trivial
    simp only [Correlation.codec, Generation.codec, purposeCodec, consumptionCodec,
      codeCodec] at hi hg hp hc
    simp only [get, put, List.append_assoc, hi, hg, hp, hc, ok_bind, pure_eq_ok]
  put_get := by
    intro b a rest h
    simp only [get, bind_eq_ok, Prod.exists, pure_pair] at h
    obtain ⟨i, b₁, h₁, g, b₂, h₂, p, b₃, h₃, c, b₄, h₄, rfl, rfl⟩ := h
    obtain ⟨_, rfl⟩ := Correlation.codec.put_get _ _ _ h₁
    obtain ⟨hg, rfl⟩ := Generation.codec.put_get _ _ _ h₂
    obtain ⟨_, rfl⟩ := purposeCodec.put_get _ _ _ h₃
    obtain ⟨_, rfl⟩ := consumptionCodec.put_get _ _ _ h₄
    refine ⟨hg, ?_⟩
    simp only [put, Correlation.codec, Generation.codec, purposeCodec, consumptionCodec,
      codeCodec, List.append_assoc]

end Allocation

/-! ## The journal -/

structure Journal where
  spent : List Correlation
  allocations : List Allocation

variable {ids : List Correlation} {g g' : Generation} {p p' : Purpose} {id : Correlation}
  {b : Bytes}

namespace Journal

/-- `Journal::default`. -/
def empty : Journal := ⟨[], []⟩

def domain : Bytes := ascii "DREGG.PRIVATE.CORRELATIONS\x01"

def encode (j : Journal) : Bytes :=
  bytes domain ++ (CodecNat.new j.spent.length).put ++ j.spent.flatMap Correlation.put ++
    (CodecNat.new j.allocations.length).put ++ j.allocations.flatMap Allocation.put

/-- The ids of the allocated rows. -/
def allocated (j : Journal) : List Correlation := j.allocations.map Allocation.id

/-- A reachable journal: every spent row is allocated exactly once. -/
structure Canonical (j : Journal) : Prop where
  spent_nodup : j.spent.Nodup
  allocated_nodup : j.allocated.Nodup
  spent_iff : ∀ id, id ∈ j.spent ↔ id ∈ j.allocated

theorem canonical_empty : empty.Canonical := ⟨nodup_nil, nodup_nil, fun _ => Iff.rfl⟩

/-- The set comparisons at the end of `Journal::decode`. -/
def isCanonical (j : Journal) : Bool :=
  decide j.spent.Nodup && decide j.allocated.Nodup &&
    (j.spent.all fun id => decide (id ∈ j.allocated)) &&
    (j.allocated.all fun id => decide (id ∈ j.spent))

theorem isCanonical_iff (j : Journal) : j.isCanonical = true ↔ j.Canonical := by
  simp only [isCanonical, Bool.and_eq_true, decide_eq_true_eq, all_eq_true]
  constructor
  · rintro ⟨⟨⟨hs, ha⟩, hsub⟩, hsup⟩
    exact ⟨hs, ha, fun id => ⟨hsub id, hsup id⟩⟩
  · rintro ⟨hs, ha, hiff⟩
    exact ⟨⟨⟨hs, ha⟩, fun id => (hiff id).1⟩, fun id => (hiff id).2⟩

def decode (b : Bytes) : Result Journal := do
  let r ← Reader.new b
  let (tag, r) ← Reader.bytes r
  refuseIf (decide (tag ≠ domain)) "journal domain/version"
  let (n, r) ← Reader.count r
  let (spent, r) ← Correlation.codec.get.times n r
  let (m, r) ← Reader.count r
  let (allocations, r) ← Allocation.codec.get.times m r
  Reader.finish r
  let j : Journal := ⟨spent, allocations⟩
  refuseIf (decide (j.encode ≠ b) || !j.isCanonical) "not canonical reachable journal"
  pure j

section
variable (j : Journal)

/-- The rows `reserve_batch` puts in front of a journal. -/
def allocate (ids : List Correlation) (g : Generation) (p : Purpose) : Journal where
  spent := ids.reverse ++ j.spent
  allocations := (ids.reverse.map fun id => ⟨id, g, p, false⟩) ++ j.allocations

/-- The preflight of a batch: every id is inserted into the set of spent rows. -/
def insertAll (seen : List Correlation) : List Correlation → Result (List Correlation)
  | [] => .ok seen
  | id :: ids =>
    if id ∈ seen then .error "spent/aliased physical row" else insertAll (id :: seen) ids

variable (ids : List Correlation)

def reserveBatch (g : Generation) (p : Purpose) :
    Result Journal := do
  refuseIf (ids.isEmpty || decide (ids.length > 65536))
    "empty/over-capacity physical reservation batch"
  let _ ← insertAll j.spent ids
  refuseIf (decide ((j.allocate ids g p).encode.length > MAX))
    "journal exhausted: source retirement proof required"
  pure (j.allocate ids g p)

/-- `Journal::reserve`. -/
def reserve (id : Correlation) (g : Generation) (p : Purpose) : Result Journal :=
  j.reserveBatch [id] g p

/-- Lookup in the map of allocations by id. -/
def indexed (id : Correlation) : Option Allocation :=
  j.allocations.reverse.find? fun a => decide (a.id = id)

def holdsBatch (g : Generation) (p : Purpose) : Bool :=
  !ids.isEmpty && decide ids.Nodup && ids.all fun id =>
    match j.indexed id with
    | none => false
    | some a => decide (a.generation = g) && decide (a.purpose = p)

end

def «extends» (j old : Journal) : Bool := old.spent.all fun id => decide (id ∈ j.spent)

def preservesAllocations (j old : Journal) : Bool :=
  old.allocations.all fun a =>
    match j.indexed a.id with
    | none => false
    | some x => decide (x = a)

variable {j : Journal}

section Lemmas
variable {j' : Journal}

theorem encode_injective (h : j.encode = j'.encode) : j = j' := by
  have hc := counted new_delimited Correlation.put_delimited
  have ha := counted new_delimited Allocation.put_delimited
  have h' := congrArg (· ++ ([] : Bytes)) h
  simp only [encode, append_assoc] at h'
  have h₁ := append_cancel_left h'
  obtain ⟨hs, h₂⟩ := hc j.spent j'.spent _ _ (by simpa only [append_assoc] using h₁)
  obtain ⟨hl, _⟩ := ha j.allocations j'.allocations _ _
    (by simpa only [append_assoc] using h₂)
  cases j
  cases j'
  exact congrArg₂ Journal.mk hs hl

/-- What is decoded is canonical and its encoding is the input. -/
theorem decode_eq_ok (h : decode b = .ok j) : j.encode = b ∧ j.Canonical ∧ b.length ≤ MAX := by
  simp only [decode, Reader.new, bind_eq_ok, Prod.exists, pure_inj,
    refuseIf_eq_ok, Bool.or_eq_false_iff, Bool.not_eq_false', decide_eq_false_iff_not,
    ne_eq, not_not, not_lt, isCanonical_iff] at h
  obtain ⟨r, ⟨_, hlen, rfl⟩, tag, r₁, -, -, -, n, r₂, -, spent, r₃, -, m, r₄, -, rows, r₅, -,
    -, -, -, ⟨henc, hcan⟩, rfl⟩ := h
  exact ⟨henc, hcan, hlen⟩

theorem decode_encode_eq (h : decode j.encode = .ok j') : j' = j :=
  encode_injective (decode_eq_ok h).1

private theorem length_le_flatMap {put : α → Bytes} (l : List α) (hput : ∀ a, put a ≠ []) :
    l.length ≤ (l.flatMap put).length := by
  induction l with
  | nil => simp
  | cons a l ih =>
    have hpos := length_pos_iff.2 (hput a)
    simp only [length_cons, flatMap_cons, length_append]
    omega

private theorem put_length_le_flatMap (put : α → Bytes) {a : α} {l : List α} (ha : a ∈ l) :
    (put a).length ≤ (l.flatMap put).length := by
  obtain ⟨s, t, rfl⟩ := append_of_mem ha
  simp only [flatMap_append, flatMap_cons, length_append]
  omega

/-- A reachable journal within the bound survives its encoding. -/
theorem Canonical.decode_encode (hj : j.Canonical) (hfit : j.encode.length ≤ MAX) :
    decode j.encode = .ok j := by
  have hsplit : j.encode = bytes domain ++ ((CodecNat.new j.spent.length).put ++
      (j.spent.flatMap Correlation.put ++ ((CodecNat.new j.allocations.length).put ++
        (j.allocations.flatMap Allocation.put ++ [])))) := by
    simp only [encode, append_assoc, append_nil]
  have hparts := congrArg List.length hsplit
  simp only [length_append, length_nil] at hparts
  have hspent : j.spent.length ≤ (j.spent.flatMap Correlation.put).length :=
    length_le_flatMap j.spent fun c => by simp [Correlation.put, put]
  have hrows : j.allocations.length ≤ (j.allocations.flatMap Allocation.put).length :=
    length_le_flatMap j.allocations fun a => by simp [Allocation.put, put]
  have htag (r : Bytes) : Reader.bytes (bytes domain ++ r) = .ok (domain, r) :=
    Reader.bytesCodec.get_put domain r (show domain.length ≤ MAX by decide)
  have hn (r : Bytes) :
      Reader.count ((CodecNat.new j.spent.length).put ++ r) = .ok (j.spent.length, r) :=
    countCodec.get_put j.spent.length r (show j.spent.length ≤ MAX by omega)
  have hm (r : Bytes) : Reader.count ((CodecNat.new j.allocations.length).put ++ r) =
      .ok (j.allocations.length, r) :=
    countCodec.get_put j.allocations.length r (show j.allocations.length ≤ MAX by omega)
  have hs (r : Bytes) : Correlation.codec.get.times j.spent.length
      (j.spent.flatMap Correlation.put ++ r) = .ok (j.spent, r) :=
    Correlation.codec.times_put j.spent r fun _ _ => trivial
  have ha (r : Bytes) : Allocation.codec.get.times j.allocations.length
      (j.allocations.flatMap Allocation.put ++ r) = .ok (j.allocations, r) := by
    refine Allocation.codec.times_put j.allocations r fun a hmem => ?_
    have hrow := put_length_le_flatMap Allocation.put hmem
    have hcommand : a.generation.command.length ≤ a.put.length := by
      simp only [Allocation.put, Generation.put, bytes, length_append]
      omega
    change a.generation.command.length ≤ MAX
    omega
  have hlen : decide (j.encode.length > MAX) = false := by simpa using hfit
  have hcanonical : (!j.isCanonical) = false := by simp [(isCanonical_iff j).2 hj]
  simp only [decode, Reader.new, hlen, refuseIf_false, ok_bind, pure_eq_ok]
  rw [show Reader.bytes j.encode = .ok (domain, _) from hsplit ▸ htag _]
  simp only [ok_bind, ne_eq, not_true_eq_false, decide_false, refuseIf_false, hn, hs, hm, ha,
    Reader.finish, isEmpty_nil, Bool.not_true, hcanonical, Bool.or_false]

theorem insertAll_eq_ok {seen r : List Correlation} :
    insertAll seen ids = .ok r ↔
      r = ids.reverse ++ seen ∧ ids.Nodup ∧ ∀ id ∈ ids, id ∉ seen := by
  induction ids generalizing seen with
  | nil => simp [insertAll, eq_comm]
  | cons id ids ih =>
    by_cases h : id ∈ seen
    · simp [insertAll, h]
    · have hstep : insertAll seen (id :: ids) = insertAll (id :: seen) ids := by
        simp only [insertAll, if_neg h]
      rw [hstep, ih]
      simp only [reverse_cons, append_assoc, singleton_append,
        nodup_cons, mem_cons, not_or, forall_eq_or_imp, h, not_false_eq_true,
        true_and]
      constructor
      · rintro ⟨hr, hnd, hfresh⟩
        exact ⟨hr, ⟨fun hid => (hfresh id hid).1 rfl, hnd⟩, fun x hx => (hfresh x hx).2⟩
      · rintro ⟨hr, ⟨hid, hnd⟩, hfresh⟩
        exact ⟨hr, hnd, fun x hx => ⟨fun heq => hid (heq ▸ hx), hfresh x hx⟩⟩

/-- A batch is reserved exactly when it is a set of unspent rows that fits. -/
theorem reserveBatch_eq_ok :
    j.reserveBatch ids g p = .ok j' ↔
      ids ≠ [] ∧ ids.length ≤ 65536 ∧ ids.Nodup ∧ (∀ id ∈ ids, id ∉ j.spent) ∧
        (j.allocate ids g p).encode.length ≤ MAX ∧ j' = j.allocate ids g p := by
  simp only [reserveBatch, bind_eq_ok, refuseIf_eq_ok, Bool.or_eq_false_iff,
    isEmpty_eq_false_iff, decide_eq_false_iff_not, not_lt, pure_inj,
    insertAll_eq_ok]
  constructor
  · rintro ⟨_, ⟨hne, hlen⟩, _, ⟨-, hnd, hfresh⟩, _, hfit, rfl⟩
    exact ⟨hne, hlen, hnd, hfresh, hfit, rfl⟩
  · rintro ⟨hne, hlen, hnd, hfresh, hfit, rfl⟩
    exact ⟨(), ⟨hne, hlen⟩, _, ⟨rfl, hnd, hfresh⟩, (), hfit, rfl⟩

theorem allocated_allocate : (j.allocate ids g p).allocated = ids.reverse ++ j.allocated := by
  simp [allocate, allocated, Function.comp_def]

/-- Reserving keeps the journal reachable. -/
theorem Canonical.allocate (hj : j.Canonical) (hnd : ids.Nodup)
    (hfresh : ∀ id ∈ ids, id ∉ j.spent) : (j.allocate ids g p).Canonical where
  spent_nodup := by
    refine List.Nodup.append (nodup_reverse.2 hnd) hj.spent_nodup ?_
    intro id hid hspent
    exact hfresh id (mem_reverse.1 hid) hspent
  allocated_nodup := by
    rw [allocated_allocate]
    refine List.Nodup.append (nodup_reverse.2 hnd) hj.allocated_nodup ?_
    intro id hid hrow
    exact hfresh id (mem_reverse.1 hid) ((hj.spent_iff id).2 hrow)
  spent_iff := by
    intro id
    rw [allocated_allocate]
    simp only [Journal.allocate, mem_append, hj.spent_iff id]

theorem Canonical.reserveBatch (hj : j.Canonical) (h : j.reserveBatch ids g p = .ok j') :
    j'.Canonical := by
  obtain ⟨-, -, hnd, hfresh, -, rfl⟩ := reserveBatch_eq_ok.1 h
  exact hj.allocate hnd hfresh

theorem allocate_cons (rest : List Correlation) :
    j.allocate (id :: rest) g p = (j.allocate [id] g p).allocate rest g p := by
  simp [allocate]

/-- A journal only grows, in its bytes too, when rows are put in front of it. -/
theorem length_encode_le_allocate :
    j.encode.length ≤ (j.allocate ids g p).encode.length := by
  have hspent := length_put_new_mono (m := j.spent.length)
    (n := (j.allocate ids g p).spent.length) (by simp [allocate])
  have hallocations := length_put_new_mono (m := j.allocations.length)
    (n := (j.allocate ids g p).allocations.length) (by simp [allocate])
  simp only [encode, allocate, length_append, flatMap_append] at hspent hallocations ⊢
  omega

/-- A batch of several rows is its first row and then the batch of the others. -/
theorem reserveBatch_cons_eq_ok (hne : ids ≠ []) (hlen : ids.length < 65536) :
    j.reserveBatch (id :: ids) g p = .ok j' ↔
      ∃ j₁, j.reserve id g p = .ok j₁ ∧ j₁.reserveBatch ids g p = .ok j' := by
  have hspent : (∀ x ∈ ids, x ∉ (j.allocate [id] g p).spent) ↔
      id ∉ ids ∧ ∀ x ∈ ids, x ∉ j.spent := by
    simp only [allocate, reverse_singleton, singleton_append, mem_cons, not_or]
    grind
  simp only [reserve, reserveBatch_eq_ok, allocate_cons ids, nodup_cons, forall_mem_cons]
  constructor
  · rintro ⟨-, -, ⟨hid, hnd⟩, ⟨hfirst, hrest⟩, hfit, rfl⟩
    exact ⟨_, ⟨by simp, by simp, by simp, by simpa using hfirst,
      length_encode_le_allocate.trans hfit, rfl⟩, hne, hlen.le, hnd, hspent.2 ⟨hid, hrest⟩, hfit,
        rfl⟩
  · rintro ⟨_, ⟨-, -, -, hfirst, -, rfl⟩, -, -, hnd, hrest, hfit, rfl⟩
    have hids := hspent.1 hrest
    exact ⟨by simp, hlen, ⟨hids.1, hnd⟩, ⟨hfirst.1, hids.2⟩, hfit, rfl⟩

/-- `reserve_batch` is `reserve` repeated in the given order. -/
theorem reserveBatch_eq_foldlM (hne : ids ≠ []) (hlen : ids.length ≤ 65536) :
    j.reserveBatch ids g p = .ok j' ↔ ids.foldlM (fun j id => j.reserve id g p) j = .ok j' := by
  induction ids generalizing j with
  | nil => exact absurd rfl hne
  | cons id ids ih =>
    rw [foldlM_cons, bind_eq_ok]
    rcases eq_or_ne ids [] with rfl | hids
    · simp [reserve]
    · rw [reserveBatch_cons_eq_ok hids (by simpa using hlen)]
      simp only [ih hids (by simp at hlen; omega)]

/-- Rows 0 and 1 of pool 0. -/
def twoRows : List Correlation := [⟨.new 0, .new 0⟩, ⟨.new 0, .new 1⟩]

theorem reserve_twoRows :
    twoRows.foldlM (fun j id => j.reserve id ⟨.new 0, [], .new 0, .new 0, .new 0⟩ .coin) empty =
      .ok (empty.allocate twoRows ⟨.new 0, [], .new 0, .new 0, .new 0⟩ .coin) := by
  refine (reserveBatch_eq_foldlM (by decide) (by decide)).1 (reserveBatch_eq_ok.2 ?_)
  exact ⟨by decide, by decide, by decide, by simp [empty], by decide, rfl⟩

/-- In a reachable journal the lookup finds the one row of an id. -/
theorem Canonical.indexed_eq_some (hj : j.Canonical) {a : Allocation} :
    j.indexed id = some a ↔ a ∈ j.allocations ∧ a.id = id := by
  constructor
  · intro h
    have hid := find?_some h
    exact ⟨mem_reverse.1 (mem_of_find?_eq_some h), by simpa using hid⟩
  · rintro ⟨ha, rfl⟩
    cases hf : j.indexed a.id with
    | none =>
      have := find?_eq_none.1 hf a (mem_reverse.2 ha)
      simp at this
    | some a' =>
      have hid := find?_some hf
      have ha' := mem_reverse.1 (mem_of_find?_eq_some hf)
      exact congrArg some
        (inj_on_of_nodup_map hj.allocated_nodup ha' ha (by simpa using hid))

/-- The id is allocated to this generation and purpose. -/
def AllocatedTo (j : Journal) (g : Generation) (p : Purpose) (id : Correlation) : Prop :=
  ∃ a ∈ j.allocations, a.id = id ∧ a.generation = g ∧ a.purpose = p

theorem Canonical.holdsBatch_iff (hj : j.Canonical) :
    j.holdsBatch ids g p = true ↔ ids ≠ [] ∧ ids.Nodup ∧ ∀ id ∈ ids, j.AllocatedTo g p id := by
  have hrow (id : Correlation) : (match j.indexed id with
      | none => false
      | some a => decide (a.generation = g) && decide (a.purpose = p)) = true ↔
        j.AllocatedTo g p id := by
    cases hf : j.indexed id with
    | none =>
      simp only [Bool.false_eq_true, false_iff]
      rintro ⟨a, ha, hid, -⟩
      rw [hj.indexed_eq_some.2 ⟨ha, hid⟩] at hf
      cases hf
    | some a =>
      simp only [Bool.and_eq_true, decide_eq_true_eq]
      constructor
      · rintro ⟨hg, hp⟩
        obtain ⟨ha, hid⟩ := hj.indexed_eq_some.1 hf
        exact ⟨a, ha, hid, hg, hp⟩
      · rintro ⟨a', ha', hid, hg, hp⟩
        rw [hj.indexed_eq_some.2 ⟨ha', hid⟩] at hf
        obtain rfl := Option.some.inj hf
        exact ⟨hg, hp⟩
  simp only [holdsBatch, Bool.and_eq_true, Bool.not_eq_true', isEmpty_eq_false_iff,
    decide_eq_true_eq, all_eq_true, hrow, and_assoc]

/-- An allocated row is spent. -/
theorem Canonical.spent_of_allocatedTo (hj : j.Canonical) (h : j.AllocatedTo g p id) :
    id ∈ j.spent := by
  obtain ⟨a, ha, rfl, -⟩ := h
  exact (hj.spent_iff a.id).2 (mem_map_of_mem ha)

/-- A row of a batch is allocated as the batch says, any other as before. -/
theorem allocatedTo_allocate :
    (j.allocate ids g p).AllocatedTo g' p' id ↔
      (id ∈ ids ∧ g = g' ∧ p = p') ∨ j.AllocatedTo g' p' id := by
  simp only [AllocatedTo, allocate, mem_append, mem_map, mem_reverse]
  constructor
  · rintro ⟨a, ⟨id', hid', rfl⟩ | ha, rfl, rfl, rfl⟩
    · exact .inl ⟨hid', rfl, rfl⟩
    · exact .inr ⟨a, ha, rfl, rfl, rfl⟩
  · rintro (⟨hid, rfl, rfl⟩ | ⟨a, ha, hrow⟩)
    · exact ⟨⟨id, g, p, false⟩, .inl ⟨id, hid, rfl⟩, rfl, rfl, rfl⟩
    · exact ⟨a, .inr ha, hrow⟩

end Lemmas

end Journal

/-! ## Requests -/

def request (id : Correlation) (g : Generation) (p : Purpose) : Bytes :=
  id.put ++ g.put ++ (CodecNat.new p.code).put

def parseRequest (b : Bytes) : Result (Correlation × Generation × Purpose) := do
  let r ← Reader.new b
  let (id, r) ← Correlation.get r
  let (g, r) ← Generation.get r
  let (p, r) ← code purpose r
  Reader.finish r
  pure (id, g, p)

def batchFrame : Bytes := ascii "DREGG.PRIVATE.RESERVE.BATCH\x01"

def batchRequest (ids : List Correlation) (g : Generation) (p : Purpose) : Bytes :=
  batchFrame ++ g.put ++ (CodecNat.new p.code).put ++ (CodecNat.new ids.length).put ++
    ids.flatMap Correlation.put

def parseBatchRequest (b : Bytes) : Result (List Correlation × Generation × Purpose) := do
  refuseIf (!batchFrame.isPrefixOf b) "batch reservation frame"
  let r ← Reader.new (b.drop batchFrame.length)
  let (g, r) ← Generation.get r
  let (p, r) ← code purpose r
  let (count, r) ← Reader.count r
  refuseIf (decide (count = 0) || decide (count > 65536)) "batch reservation count"
  let (ids, r) ← Correlation.codec.get.times count r
  Reader.finish r
  refuseIf (decide (batchRequest ids g p ≠ b)) "batch canonical"
  pure (ids, g, p)

theorem request_injective {id' : Correlation} (h : request id g p = request id' g' p') :
    id = id' ∧ g = g' ∧ p = p' := by
  simp only [request, append_assoc] at h
  obtain ⟨hid, h₁⟩ := Correlation.put_delimited _ _ _ _ h
  obtain ⟨hg, h₂⟩ := Generation.put_delimited _ _ _ _ h₁
  exact ⟨hid, hg, purpose_delimited.injective h₂⟩

theorem batchRequest_injective {ids' : List Correlation}
    (h : batchRequest ids g p = batchRequest ids' g' p') : ids = ids' ∧ g = g' ∧ p = p' := by
  simp only [batchRequest, append_assoc] at h
  obtain ⟨hg, h₁⟩ := Generation.put_delimited _ _ _ _ (append_cancel_left h)
  obtain ⟨hp, h₂⟩ := purpose_delimited _ _ _ _ h₁
  exact ⟨(counted new_delimited Correlation.put_delimited).injective h₂,
    hg, hp⟩

theorem parseRequest_eq_ok (h : parseRequest b = .ok (id, g, p)) : b = request id g p := by
  simp only [parseRequest, Reader.new, Reader.finish, bind_eq_ok, Prod.exists, pure_inj,
    Prod.mk.injEq, refuseIf_eq_ok, Bool.not_eq_false', List.isEmpty_iff] at h
  obtain ⟨r, ⟨-, -, rfl⟩, i, r₁, h₁, g', r₂, h₂, p', r₃, h₃, -, rfl, rfl, rfl, rfl⟩ := h
  obtain ⟨-, rfl⟩ := Correlation.codec.put_get _ _ _ h₁
  obtain ⟨-, rfl⟩ := Generation.codec.put_get _ _ _ h₂
  obtain ⟨-, rfl⟩ := purposeCodec.put_get _ _ _ h₃
  simp only [request, Correlation.codec, Generation.codec, purposeCodec, codeCodec,
    append_assoc, append_nil]

theorem parseBatchRequest_eq_ok (h : parseBatchRequest b = .ok (ids, g, p)) :
    b = batchRequest ids g p := by
  simp only [parseBatchRequest, bind_eq_ok, Prod.exists, pure_pair, refuseIf_decide, ne_eq,
    not_not] at h
  obtain ⟨-, -, -, -, g', -, -, p', -, -, -, -, -, -, -, ids', -, -, -, -, -, heq, rfl, rfl,
    rfl⟩ := h
  exact heq.symm

end MiniDregg.PrivateBackend
