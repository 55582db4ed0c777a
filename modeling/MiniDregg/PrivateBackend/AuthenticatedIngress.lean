import MiniDregg.PrivateBackend.ConsensusWire

/-!
# Enrolled parties and their packets

The record of a committee party and the packet it signs. Both have one canonical
encoding; the decoder of a party refuses any other spelling and any empty field.
-/

namespace MiniDregg.PrivateBackend

open Fallible Cursor List Reader

inductive Protocol
  | acs
  | privateSend
  | acssId
  | dzk
  | fieldNetwork
  | privateOutput
  deriving DecidableEq, Repr

namespace Protocol

/-- `protocol as u8`. -/
def code : Protocol → UInt8
  | acs => 0
  | privateSend => 1
  | acssId => 2
  | dzk => 3
  | fieldNetwork => 4
  | privateOutput => 5

def ofCode (x : UInt8) : Result Protocol :=
  if x = 0 then .ok acs
  else if x = 1 then .ok privateSend
  else if x = 2 then .ok acssId
  else if x = 3 then .ok dzk
  else if x = 4 then .ok fieldNetwork
  else if x = 5 then .ok privateOutput
  else .error "protocol tag"

theorem ofCode_code (p : Protocol) : ofCode p.code = .ok p := by
  cases p <;> rfl

theorem code_injective {p p' : Protocol} (h : p.code = p'.code) : p = p' := by
  have hcode := ofCode_code p
  rw [h, ofCode_code] at hcode
  exact (Except.ok.inj hcode).symm

end Protocol

/-- The session a packet belongs to. -/
structure Context where
  protocol : Protocol
  generation : Generation
  authorityEpoch : CodecNat
  session : Bytes
  recipient : UInt16
  recipientRole : Bytes
  deriving DecidableEq

structure CommitteeParty where
  context : Context
  party : UInt16
  subject : Bytes
  keyEpoch : CodecNat
  keyBinding : Bytes
  credentialPurpose : Bytes
  deriving DecidableEq

namespace CommitteeParty

def PARTY : Bytes := ascii "DREGG.PRIVATE.COMMITTEE.PARTY\x01"

def encode (v : CommitteeParty) : Bytes :=
  PARTY ++ v.context.protocol.code :: bytes v.context.generation.put ++
    v.context.authorityEpoch.put ++ bytes v.context.session ++ le16 v.party ++
    le16 v.context.recipient ++ bytes v.context.recipientRole ++ bytes v.subject ++
    v.keyEpoch.put ++ bytes v.keyBinding ++ bytes v.credentialPurpose

/-- A field every enrolled party fills in is empty. -/
def blank (v : CommitteeParty) : Bool :=
  v.context.session.isEmpty || v.context.recipientRole.isEmpty || v.subject.isEmpty ||
    v.keyBinding.isEmpty || v.credentialPurpose.isEmpty

def decode (b : Bytes) : Result CommitteeParty := do
  let c ← Cursor.new b
  let (tag, c) ← take PARTY.length c
  refuseIf (decide (tag.1 ≠ PARTY)) "party record domain"
  let (code, c) ← byte c
  let protocol ← Protocol.ofCode code
  let (g, c) ← Cursor.bytes c
  let r ← Reader.new g
  let (generation, r) ← Generation.get r
  Reader.finish r
  let (authorityEpoch, c) ← Cursor.nat c
  let (session, c) ← Cursor.bytes c
  let (party, c) ← u16 c
  let (recipient, c) ← u16 c
  let (recipientRole, c) ← Cursor.bytes c
  let (subject, c) ← Cursor.bytes c
  let (keyEpoch, c) ← Cursor.nat c
  let (keyBinding, c) ← Cursor.bytes c
  let (credentialPurpose, c) ← Cursor.bytes c
  Cursor.finish c
  let v : CommitteeParty :=
    ⟨⟨protocol, generation, authorityEpoch, session, recipient, recipientRole⟩, party, subject,
      keyEpoch, keyBinding, credentialPurpose⟩
  refuseIf (decide (v.encode ≠ b) || v.blank) "noncanonical/empty enrolled context"
  pure v

variable {v v' : CommitteeParty}

theorem encode_injective (h : v.encode = v'.encode) : v = v' := by
  obtain ⟨⟨p, g, a, s, r, q⟩, n, u, k, d, c⟩ := v
  obtain ⟨⟨p', g', a', s', r', q'⟩, n', u', k', d', c'⟩ := v'
  simp only [encode, append_assoc, cons_append] at h
  obtain ⟨hp, h₁⟩ := List.cons.inj (append_cancel_left h)
  obtain rfl := Protocol.code_injective hp
  obtain ⟨hg, h₂⟩ := bytes_delimited _ _ _ _ h₁
  obtain rfl := Generation.put_delimited.injective hg
  obtain ⟨rfl, h₃⟩ := nat_delimited _ _ _ _ h₂
  obtain ⟨rfl, h₄⟩ := bytes_delimited _ _ _ _ h₃
  obtain ⟨rfl, h₅⟩ := le16_delimited _ _ _ _ h₄
  obtain ⟨rfl, h₆⟩ := le16_delimited _ _ _ _ h₅
  obtain ⟨rfl, h₇⟩ := bytes_delimited _ _ _ _ h₆
  obtain ⟨rfl, h₈⟩ := bytes_delimited _ _ _ _ h₇
  obtain ⟨rfl, h₉⟩ := nat_delimited _ _ _ _ h₈
  obtain ⟨rfl, h₁₀⟩ := bytes_delimited _ _ _ _ h₉
  obtain rfl := bytes_delimited.injective h₁₀
  rfl

/-- A decoded party is filled in and its encoding is the input. -/
theorem decode_eq_ok {b : Bytes} (h : decode b = .ok v) :
    v.encode = b ∧ v.blank = false := by
  simp only [decode, bind_eq_ok, Prod.exists, pure_inj, refuseIf_eq_ok,
    Bool.or_eq_false_iff, decide_eq_false_iff_not, ne_eq, not_not] at h
  obtain ⟨_, -, _, _, -, _, -, _, _, -, _, -, _, _, -, _, -, _, _, -, _, -, _, _, -, _, _, -, _,
    _, -, _, _, -, _, _, -, _, _, -, _, _, -, _, _, -, _, _, -, _, -, _, ⟨henc, hblank⟩, rfl⟩ := h
  exact ⟨henc, hblank⟩

end CommitteeParty

def MAX_PACKET : Nat := 131072

structure Envelope where
  party : CommitteeParty
  sequence : UInt64
  message : Bytes
  credential : Bytes

namespace Envelope

def signingBytes (v : Envelope) : Bytes :=
  ascii "DREGG.PRIVATE.AUTH.SIGN\x01" ++ bytes v.party.encode ++ le64 v.sequence ++
    bytes v.message

def encode (v : Envelope) : Result Bytes := do
  let b := ascii "DREGG.PRIVATE.AUTH\x01" ++ bytes v.party.encode ++ le64 v.sequence ++
    bytes v.message ++ bytes v.credential
  refuseIf (decide (b.length > MAX_PACKET)) "authenticated packet capacity"
  pure b

end Envelope

end MiniDregg.PrivateBackend
