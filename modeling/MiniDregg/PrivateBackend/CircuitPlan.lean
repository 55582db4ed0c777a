import Mathlib.Data.List.TakeWhile
import MiniDregg.PrivateBackend.Correlations

/-!
# Circuit allocation plans

A plan fixes the Boolean network of a batch evaluation, the number of public
ticks and the correlation rows its conjunctions burn. The module follows
`circuit_batch.rs`: the validation of a plan, its canonical encoding, the
decoder, and the assignment of rows to conjunctions.

## Implementation notes

`u64` values that pass validation are below `2^17`, so wires and counts are
`Nat`. The ordered set that detects aliased rows is used for membership only,
so it is a check that the encoded rows have no duplicates.
-/

namespace MiniDregg.PrivateBackend

open Fallible List Reader CodecNat

namespace Reader

/-- `r.nat()?.value()?`. -/
def value : Wire.Reader String Nat := fun b => do
  let (n, b) ← nat b
  let v ← n.value
  pure (v, b)

/-- Numbers below `2^64` form a codec. -/
def valueCodec : Wire.Codec String Nat where
  put n := (CodecNat.new n).put
  get := value
  valid n := n < 2 ^ 64
  get_put := by
    intro n rest hn
    have hv : (CodecNat.new n).value = .ok n := by
      rw [value_eq_ok, toNat_new]
      exact ⟨hn, rfl⟩
    simp only [value, nat_put, ok_bind, hv, pure_eq_ok]
  put_get := by
    intro b n rest h
    simp only [value, bind_eq_ok, Prod.exists, pure_pair] at h
    obtain ⟨m, r, hm, v, hv, rfl, rfl⟩ := h
    rw [value_eq_ok] at hv
    refine ⟨hv.2 ▸ hv.1, ?_⟩
    rw [← hv.2, new_toNat]
    exact put_nat hm

end Reader

/-! ## Gates -/

/-- `circuit_batch::Op`. Operands are wires: the inputs come first, then the gates. -/
inductive Op
  | constant (value : Bool)
  | xor (a b : Nat)
  | and (a b : Nat)
  deriving DecidableEq

namespace Op

/-- The tag and the operands a gate is written with. -/
def code : Op → Nat × Nat × Nat
  | constant false => (0, 0, 0)
  | constant true => (1, 0, 0)
  | xor a c => (2, a, c)
  | and a c => (3, a, c)

def parse : Nat × Nat × Nat → Result Op
  | (0, 0, 0) => .ok (constant false)
  | (1, 0, 0) => .ok (constant true)
  | (2, a, c) => .ok (xor a c)
  | (3, a, c) => .ok (and a c)
  | _ => .error "noncanonical gate"

def put (op : Op) : Bytes :=
  (CodecNat.new op.code.1).put ++ (CodecNat.new op.code.2.1).put ++ (CodecNat.new op.code.2.2).put

def get : Wire.Reader String Op := fun b => do
  let (tag, b) ← Reader.value b
  let (a, b) ← Reader.value b
  let (c, b) ← Reader.value b
  let op ← parse (tag, a, c)
  pure (op, b)

/-- Both operands name wires below the bound. -/
def operandsBelow (bound : Nat) : Op → Bool
  | constant _ => true
  | xor a b | and a b => decide (a < bound) && decide (b < bound)

/-- `matches!(op, Op::And(..))`. -/
def isAnd : Op → Bool
  | and _ _ => true
  | _ => false

theorem parse_code (op : Op) : parse op.code = .ok op := by
  rcases op with (_ | _) | ⟨a, b⟩ | ⟨a, b⟩ <;> rfl

theorem code_of_parse {n : Nat × Nat × Nat} {op : Op} (h : parse n = .ok op) : op.code = n := by
  unfold parse at h
  split at h <;> cases h <;> rfl

theorem code_lt {bound : Nat} {op : Op} (h : op.operandsBelow bound = true) (hb : bound < 2 ^ 64) :
    op.code.1 < 2 ^ 64 ∧ op.code.2.1 < 2 ^ 64 ∧ op.code.2.2 < 2 ^ 64 := by
  rcases op with (_ | _) | ⟨a, b⟩ | ⟨a, b⟩ <;>
    simp_all only [operandsBelow, Bool.and_eq_true, decide_eq_true_eq, code] <;> omega

/-- Gates with operands below `2^64` form a codec. -/
def codec : Wire.Codec String Op where
  put := put
  get := get
  valid op := op.code.1 < 2 ^ 64 ∧ op.code.2.1 < 2 ^ 64 ∧ op.code.2.2 < 2 ^ 64
  get_put := by
    intro op rest h
    have hv (n : Nat) (r : Bytes) (hn : n < 2 ^ 64) :
        Reader.value ((CodecNat.new n).put ++ r) = .ok (n, r) := valueCodec.get_put n r hn
    have hparse : parse (op.code.1, op.code.2.1, op.code.2.2) = .ok op := parse_code op
    simp only [get, put, List.append_assoc, hv _ _ h.1, hv _ _ h.2.1, hv _ _ h.2.2, ok_bind,
      hparse, pure_eq_ok]
  put_get := by
    intro b op rest h
    simp only [get, bind_eq_ok, Prod.exists, pure_pair] at h
    obtain ⟨t, b₁, h₁, a, b₂, h₂, c, b₃, h₃, op', hop, rfl, rfl⟩ := h
    obtain ⟨ht, rfl⟩ := valueCodec.put_get _ _ _ h₁
    obtain ⟨ha, rfl⟩ := valueCodec.put_get _ _ _ h₂
    obtain ⟨hc, rfl⟩ := valueCodec.put_get _ _ _ h₃
    have hcode := code_of_parse hop
    simp only [put, hcode, valueCodec, List.append_assoc]
    exact ⟨⟨ht, ha, hc⟩, trivial⟩

end Op

structure Network where
  inputCount : Nat
  gates : List Op
  outputs : List Nat
  deriving DecidableEq

namespace Network

/-- Every gate reads wires in front of it. -/
def forward (n : Network) : Bool :=
  n.gates.zipIdx.all fun (op, i) => op.operandsBelow (n.inputCount + i)

def wires (n : Network) : Nat := n.inputCount + n.gates.length

end Network

/-! ## Plans -/

structure Plan where
  generation : Generation
  network : Network
  publicTicks : Nat
  bindingBytes : Bytes
  rows : List Correlation
  deriving DecidableEq

namespace Plan

def domain : Bytes := ascii "DREGG.PRIVATE.CIRCUIT.ALLOCATION\x01"

def validate (p : Plan) : Result Unit := do
  refuseIf (decide (p.network.gates.length > 65536) || decide (p.network.inputCount > 65536) ||
    decide (p.publicTicks > 4096) || decide (p.rows.length > 65536) || p.bindingBytes.isEmpty)
    "physical circuit capacity/profile"
  refuseIf (!p.network.forward) "forward gate operand"
  refuseIf (p.network.outputs.any fun i => decide (i ≥ p.network.wires)) "output wire range"
  refuseIf (decide (p.publicTicks * (p.network.gates.filter Op.isAnd).length ≠ p.rows.length))
    "fixed circuit correlation count"
  refuseIf (!decide (p.rows.map Correlation.put).Nodup) "physical row alias"

def encode (p : Plan) : Bytes :=
  bytes domain ++ p.generation.put ++ (CodecNat.new p.network.inputCount).put ++
    (CodecNat.new p.network.gates.length).put ++ p.network.gates.flatMap Op.put ++
    (CodecNat.new p.network.outputs.length).put ++
    (p.network.outputs.flatMap fun v => (CodecNat.new v).put) ++
    (CodecNat.new p.publicTicks).put ++ bytes p.bindingBytes ++
    (CodecNat.new p.rows.length).put ++ p.rows.flatMap Correlation.put

def decode (b : Bytes) : Result Plan := do
  let r ← Reader.new b
  let (tag, r) ← Reader.bytes r
  refuseIf (decide (tag ≠ domain)) "circuit plan frame"
  let (generation, r) ← Generation.get r
  let (inputCount, r) ← Reader.value r
  let (gateCount, r) ← Reader.count r
  refuseIf (decide (gateCount > 65536)) "gate count bound"
  let (gates, r) ← Op.get.times gateCount r
  let (outputsCount, r) ← Reader.count r
  refuseIf (decide (outputsCount > 65536)) "output count"
  let (outputs, r) ← Reader.value.times outputsCount r
  let (publicTicks, r) ← Reader.value r
  let (bindingBytes, r) ← Reader.bytes r
  let (rowCount, r) ← Reader.count r
  refuseIf (decide (rowCount > 65536)) "row count"
  let (rows, r) ← Correlation.get.times rowCount r
  finish r
  let v : Plan := ⟨generation, ⟨inputCount, gates, outputs⟩, publicTicks, bindingBytes, rows⟩
  v.validate
  refuseIf (decide (v.encode ≠ b)) "circuit plan canonical"
  pure v

/-- What `validate` accepts. -/
structure Valid (p : Plan) : Prop where
  gates_le : p.network.gates.length ≤ 65536
  inputs_le : p.network.inputCount ≤ 65536
  ticks_le : p.publicTicks ≤ 4096
  rows_le : p.rows.length ≤ 65536
  binding_ne : p.bindingBytes ≠ []
  forward : p.network.forward = true
  outputs_lt : ∀ i ∈ p.network.outputs, i < p.network.wires
  rows_eq : p.publicTicks * (p.network.gates.filter Op.isAnd).length = p.rows.length
  rows_nodup : (p.rows.map Correlation.put).Nodup

section Lemmas
variable {p : Plan}

theorem validate_eq_ok : p.validate = .ok () ↔ p.Valid := by
  simp only [validate, check_bind_eq_ok, refuseIf_eq_ok, Bool.or_eq_false_iff,
    decide_eq_false_iff_not, not_lt, Bool.not_eq_false', any_eq_false, decide_eq_true_eq,
    not_le, ne_eq, not_not, isEmpty_eq_false_iff]
  constructor
  · rintro ⟨⟨⟨⟨⟨hg, hi⟩, ht⟩, hr⟩, hb⟩, hf, ho, hc, hn⟩
    exact ⟨hg, hi, ht, hr, hb, hf, ho, hc, hn⟩
  · rintro ⟨hg, hi, ht, hr, hb, hf, ho, hc, hn⟩
    exact ⟨⟨⟨⟨⟨hg, hi⟩, ht⟩, hr⟩, hb⟩, hf, ho, hc, hn⟩

theorem Valid.op_valid (hp : p.Valid) {op : Op} (hop : op ∈ p.network.gates) :
    Op.codec.valid op := by
  obtain ⟨i, hi, rfl⟩ := mem_iff_getElem.1 hop
  have hmem : (p.network.gates[i], i) ∈ p.network.gates.zipIdx := by
    rw [mk_mem_zipIdx_iff_getElem?]
    exact getElem?_eq_getElem hi
  have hbelow := all_eq_true.1 hp.forward _ hmem
  have hgates := hp.gates_le
  have hinputs := hp.inputs_le
  exact Op.code_lt hbelow (by omega)

theorem Valid.output_lt (hp : p.Valid) {i : Nat} (hi : i ∈ p.network.outputs) : i < 2 ^ 64 := by
  have hlt := hp.outputs_lt i hi
  have hgates := hp.gates_le
  have hinputs := hp.inputs_le
  rw [Network.wires] at hlt
  omega

/-- What is decoded is a valid plan within the decoder's own bounds, and its
encoding is the input. -/
theorem decode_eq_ok {b : Bytes} (h : decode b = .ok p) :
    p.encode = b ∧ p.Valid ∧ p.network.outputs.length ≤ 65536 ∧ b.length ≤ MAX := by
  simp only [decode, Reader.new, bind_eq_ok, Prod.exists, pure_inj, refuseIf_decide, ne_eq,
    not_not, not_lt] at h
  obtain ⟨r, ⟨_, hlen, rfl⟩, tag, r₁, -, -, -, g, r₂, -, ic, r₃, -, gc, r₄, -, -, -, gates, r₅, -,
    oc, r₆, -, -, hoc, outputs, r₇, hout, ticks, r₈, -, binding, r₉, -, rc, s₁, -, -, -, rows, s₂,
    -, -, -, u, hvalid, -, henc, rfl⟩ := h
  have hcount := (valueCodec.put_times hout).1
  exact ⟨henc, validate_eq_ok.1 (by cases u; exact hvalid), hcount.trans_le hoc, hlen⟩

theorem length_command_le : p.generation.command.length ≤ p.encode.length := by
  simp only [encode, Generation.put, bytes, length_append]
  omega

theorem length_bindingBytes_le : p.bindingBytes.length ≤ p.encode.length := by
  simp only [encode, bytes, length_append]
  omega

/-- Within the decoder's own bounds a valid plan is read back from its encoding. -/
theorem Valid.decode_encode (hp : p.Valid) (hout : p.network.outputs.length ≤ 65536)
    (hlen : p.encode.length ≤ MAX) : decode p.encode = .ok p := by
  have hMAX : 65536 ≤ MAX := by decide
  have htag (r : Bytes) : Reader.bytes (bytes domain ++ r) = .ok (domain, r) :=
    bytesCodec.get_put domain r (show domain.length ≤ MAX by decide)
  have hgen (r : Bytes) : Generation.get (p.generation.put ++ r) = .ok (p.generation, r) :=
    Generation.codec.get_put p.generation r (length_command_le.trans hlen)
  have hbind (r : Bytes) : Reader.bytes (bytes p.bindingBytes ++ r) = .ok (p.bindingBytes, r) :=
    bytesCodec.get_put p.bindingBytes r (length_bindingBytes_le.trans hlen)
  have hvalue {n : Nat} (hn : n ≤ 65536) (r : Bytes) :
      Reader.value ((CodecNat.new n).put ++ r) = .ok (n, r) :=
    valueCodec.get_put n r (lt_of_le_of_lt hn (by decide))
  have hcount {n : Nat} (hn : n ≤ 65536) (r : Bytes) :
      Reader.count ((CodecNat.new n).put ++ r) = .ok (n, r) :=
    countCodec.get_put n r (hn.trans hMAX)
  have hgates (r : Bytes) : Op.get.times p.network.gates.length
      (p.network.gates.flatMap Op.put ++ r) = .ok (p.network.gates, r) :=
    Op.codec.times_put _ r fun _ hop => hp.op_valid hop
  have houts (r : Bytes) : Reader.value.times p.network.outputs.length
      ((p.network.outputs.flatMap fun v => (CodecNat.new v).put) ++ r) =
        .ok (p.network.outputs, r) :=
    valueCodec.times_put _ r fun _ hi => hp.output_lt hi
  have hrows : Correlation.get.times p.rows.length (p.rows.flatMap Correlation.put) =
      .ok (p.rows, []) := by
    have h := Correlation.codec.times_put p.rows [] fun _ _ => trivial
    rwa [append_nil] at h
  have hnew : Reader.new p.encode = .ok p.encode := by
    rw [Reader.new, decide_eq_false (not_lt.2 hlen)]
    rfl
  have hticks : p.publicTicks ≤ 65536 := hp.ticks_le.trans (by decide)
  have hread : p.encode = bytes domain ++ (p.generation.put ++
      ((CodecNat.new p.network.inputCount).put ++ ((CodecNat.new p.network.gates.length).put ++
      (p.network.gates.flatMap Op.put ++ ((CodecNat.new p.network.outputs.length).put ++
      ((p.network.outputs.flatMap fun v => (CodecNat.new v).put) ++
      ((CodecNat.new p.publicTicks).put ++ (bytes p.bindingBytes ++
      ((CodecNat.new p.rows.length).put ++ p.rows.flatMap Correlation.put))))))))) := by
    simp only [encode, append_assoc]
  have hsame : (⟨p.generation, ⟨p.network.inputCount, p.network.gates, p.network.outputs⟩,
      p.publicTicks, p.bindingBytes, p.rows⟩ : Plan) = p := rfl
  unfold decode
  rw [hnew, ok_bind]
  nth_rewrite 1 [hread]
  simp only [htag, hgen, hvalue hp.inputs_le, hcount hp.gates_le, hgates, hcount hout, houts,
    hvalue hticks, hbind, hcount hp.rows_le, hrows, ok_bind, hsame, validate_eq_ok.2 hp,
    finish, isEmpty_nil, Bool.not_true, ne_eq, not_true_eq_false, decide_false,
    not_lt.2 hp.gates_le, not_lt.2 hout, not_lt.2 hp.rows_le, gt_iff_lt, refuseIf_false,
    pure_eq_ok]

/-- A validated plan is read back from its encoding exactly when it has at most
65536 outputs and its encoding fits a frame. -/
theorem decode_encode_iff (hp : p.validate = .ok ()) :
    decode p.encode = .ok p ↔ p.network.outputs.length ≤ 65536 ∧ p.encode.length ≤ MAX := by
  constructor
  · intro h
    obtain ⟨-, -, hout, hlen⟩ := decode_eq_ok h
    exact ⟨hout, hlen⟩
  · rintro ⟨hout, hlen⟩
    exact (validate_eq_ok.1 hp).decode_encode hout hlen

end Lemmas

/-- One input wire shown `n` times and nothing computed. -/
def echo (n : Nat) : Plan where
  generation := ⟨.new 0, [], .new 0, .new 0, .new 0⟩
  network := ⟨1, [], List.replicate n 0⟩
  publicTicks := 0
  bindingBytes := [0]
  rows := []

theorem validate_echo (n : Nat) : (echo n).validate = .ok () := by
  rw [validate_eq_ok]
  exact {
    gates_le := by simp [echo]
    inputs_le := by simp [echo]
    ticks_le := by simp [echo]
    rows_le := by simp [echo]
    binding_ne := by simp [echo]
    forward := by simp [echo, Network.forward]
    outputs_lt := by simp [echo, Network.wires]
    rows_eq := by simp [echo]
    rows_nodup := by simp [echo] }

theorem decode_encode_echo : decode (echo 2).encode = .ok (echo 2) :=
  (decode_encode_iff (validate_echo 2)).2 ⟨by decide, by decide⟩

/-- The validator does not bound the outputs, the decoder does. -/
theorem validate_not_decode :
    (echo 65537).validate = .ok () ∧ decode (echo 65537).encode ≠ .ok (echo 65537) := by
  refine ⟨validate_echo _, ?_⟩
  intro h
  have hout := (decode_eq_ok h).2.2.1
  simp only [echo, length_replicate] at hout
  omega

/-! ## Assignments -/

section Assignments

variable (p : Plan)

/-- The positions of the conjunctions, in gate order. -/
def andGates : List Nat :=
  p.network.gates.zipIdx.filterMap fun (op, gate) => if op.isAnd then some gate else none

/-- The loop of `Plan::assignments` over the rows, from the row at `i`. -/
def assign (gates : List Nat) (h : 0 < gates.length) (ticks : Nat) :
    Nat → List Correlation → List (Nat × Nat × Correlation)
  | _, [] => []
  | i, row :: rows =>
    if i / gates.length ≥ ticks then []
    else
      (i / gates.length, gates.get ⟨i % gates.length, Nat.mod_lt i h⟩, row) ::
        assign gates h ticks (i + 1) rows

/-- `Plan::assignments`. -/
def assignments : List (Nat × Nat × Correlation) :=
  if h : 0 < p.andGates.length then assign p.andGates h p.publicTicks 0 p.rows else []

/-- The conjunctions among the gate numbers, in order. -/
def conjunctions : List Nat :=
  (range p.network.gates.length).filter fun gate =>
    match p.network.gates[gate]? with
    | some (.and _ _) => true
    | _ => false

/-- The turns of the nested loop: the ticks outside, the conjunctions inside. -/
def slots : List (Nat × Nat) :=
  range p.publicTicks ×ˢ p.conjunctions

theorem getElem?_product {gates : List Nat} (h : 0 < gates.length) (ticks i : Nat) :
    (range ticks ×ˢ gates)[i]? = if i / gates.length ≥ ticks then none
      else some (i / gates.length, gates.get ⟨i % gates.length, Nat.mod_lt i h⟩) := by
  induction ticks with
  | zero => simp
  | succ ticks ih =>
    have hsplit : range (ticks + 1) ×ˢ gates =
        range ticks ×ˢ gates ++ gates.map (ticks, ·) := by
      simp [SProd.sprod, product, range_succ]
    have hlt := Nat.div_lt_iff_lt_mul (x := i) (y := ticks) h
    rw [hsplit, getElem?_append, length_product, length_range, ih]
    rcases lt_trichotomy (i / gates.length) ticks with hi | hi | hi
    · rw [if_pos (hlt.1 hi), if_neg (by omega), if_neg (by omega)]
    · -- the last tick: what is left of `i` is its remainder
      have hrest : i - ticks * gates.length = i % gates.length := by
        rw [← hi, Nat.mul_comm, ← Nat.mod_eq_sub_mul_div]
      rw [if_neg (mt hlt.2 (by omega)), if_neg (by omega), hrest, getElem?_map,
        getElem?_eq_getElem (Nat.mod_lt i h), hi]
      rfl
    · have hend := (Nat.le_div_iff_mul_le h).1 (Nat.succ_le_of_lt hi)
      rw [Nat.succ_mul] at hend
      rw [if_neg (mt hlt.2 (by omega)), if_pos (by omega), getElem?_eq_none_iff, length_map]
      omega

/-- The row at `i` gets the slot at `i`. -/
theorem assign_eq {gates : List Nat} (h : 0 < gates.length) (ticks i : Nat)
    (rows : List Correlation) :
    assign gates h ticks i rows =
      zipWith (fun slot row => (slot.1, slot.2, row)) ((range ticks ×ˢ gates).drop i) rows := by
  induction rows generalizing i with
  | nil => simp [assign]
  | cons row rows ih =>
    rw [assign, ih, ← drop_drop]
    have hslot := getElem?_product h ticks i
    split_ifs at hslot ⊢ with hticks
    · rw [drop_eq_nil_iff.2 (getElem?_eq_none_iff.1 hslot), zipWith_nil_left]
    · obtain ⟨hi, hget⟩ := List.getElem?_eq_some_iff.1 hslot
      rw [drop_eq_getElem_cons hi, hget]
      rfl

theorem mem_andGates {gate : Nat} :
    gate ∈ p.andGates ↔ ∃ a b, p.network.gates[gate]? = some (.and a b) := by
  simp only [andGates, mem_filterMap, Prod.exists, mk_mem_zipIdx_iff_getElem?]
  constructor
  · rintro ⟨op, i, hop, h⟩
    cases op <;> simp_all [Op.isAnd]
  · rintro ⟨a, b, h⟩
    exact ⟨_, gate, h, rfl⟩

theorem mem_conjunctions {gate : Nat} :
    gate ∈ p.conjunctions ↔ ∃ a b, p.network.gates[gate]? = some (.and a b) := by
  rw [conjunctions, mem_filter, mem_range]
  constructor
  · rintro ⟨-, h⟩
    split at h
    next a b hgate => exact ⟨a, b, hgate⟩
    · cases h
  · rintro ⟨a, b, h⟩
    exact ⟨(List.getElem?_eq_some_iff.1 h).1, by rw [h]⟩

theorem pairwise_andGates : p.andGates.Pairwise (· < ·) := by
  have hindex : (p.network.gates.zipIdx.map Prod.snd).Pairwise (· < ·) := by
    rw [zipIdx_map_snd]
    exact pairwise_lt_range'
  rw [pairwise_map] at hindex
  rw [andGates, pairwise_filterMap]
  refine hindex.imp fun {x y} hlt b hb b' hb' => ?_
  aesop

theorem pairwise_conjunctions : p.conjunctions.Pairwise (· < ·) :=
  pairwise_lt_range.filter _

/-- The list of the source holds the conjunctions in gate order. -/
theorem andGates_eq : p.andGates = p.conjunctions := by
  apply p.pairwise_andGates.eq_of_mem_iff p.pairwise_conjunctions
  intro gate
  rw [mem_andGates, mem_conjunctions]

theorem assignments_eq :
    p.assignments = zipWith (fun slot row => (slot.1, slot.2, row)) p.slots p.rows := by
  unfold assignments slots
  rw [← andGates_eq]
  split_ifs with h
  · exact assign_eq h p.publicTicks 0 p.rows
  · rw [length_pos_iff, not_not] at h
    simp [h]

private theorem isPrefix_zipWith_left {α β : Type} (l : List α) (r : List β) :
    zipWith (fun a _ => a) l r <+: l := by
  induction l generalizing r with
  | nil => simp
  | cons a l ih => cases r <;> simp [ih]

/-- The single pass by quotient and remainder is the nested loop over the ticks and, within
a tick, over the conjunctions, handing out the rows in order until they run out. No turn is
used twice, the rows used are a front part of the rows, and every assigned gate is a
conjunction. -/
theorem assignments_nested :
    p.assignments = zipWith (fun slot row => (slot.1, slot.2, row)) p.slots p.rows ∧
      (p.assignments.map fun a => (a.1, a.2.1)).Nodup ∧
      (p.assignments.map fun a => a.2.2) <+: p.rows ∧
      ∀ a ∈ p.assignments, a.1 < p.publicTicks ∧
        ∃ x y, p.network.gates[a.2.1]? = some (.and x y) := by
  have hslots : (p.assignments.map fun a => (a.1, a.2.1)) <+: p.slots := by
    rw [assignments_eq, map_zipWith]
    exact isPrefix_zipWith_left p.slots p.rows
  refine ⟨p.assignments_eq, ?_, ?_, ?_⟩
  · have hnodup : p.conjunctions.Nodup := p.pairwise_conjunctions.imp ne_of_lt
    exact hslots.sublist.nodup (nodup_range.product hnodup)
  · rw [assignments_eq, map_zipWith, zipWith_comm]
    exact isPrefix_zipWith_left p.rows p.slots
  · intro a ha
    have hslot := hslots.mem (mem_map_of_mem ha)
    rw [slots, mem_product, mem_range, mem_conjunctions] at hslot
    exact hslot

/-- A plan of two ticks with two conjunctions and three rows. -/
def alternating : Plan :=
  { echo 0 with
    network := ⟨2, [.and 0 1, .xor 0 1, .and 2 3], []⟩
    publicTicks := 2
    rows := [⟨.new 0, .new 0⟩, ⟨.new 0, .new 1⟩, ⟨.new 0, .new 2⟩] }

/-- The rows run out in the second tick. -/
theorem assignments_nested_alternating :
    (alternating.assignments.map fun a => (a.1, a.2.1)) = [(0, 0), (0, 2), (1, 0)] ∧
      (alternating.assignments.map fun a => a.2.2) <+: alternating.rows :=
  ⟨by decide, alternating.assignments_nested.2.2.1⟩

end Assignments

end Plan

end MiniDregg.PrivateBackend
