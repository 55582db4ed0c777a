import MiniDregg.PrivateBackend.OneUseRuns

/-!
# The calls that reserve rows

Two places of the source call `reserve_with_receipt`: the one-use reservation of
a private output and the burn of a preparation. Both derive the lock from the
local path, ask for exactly the batch they name, and use prefix-free receipts,
so their calls are disciplined as soon as rivals share one local path. Nothing
in the source makes them share it: the row of an output depends on the result
and the recipient only, and two descriptors at two local paths can both be
reserved.
-/

namespace MiniDregg.PrivateBackend

open Fallible TransitionJournal Call List CodecNat Wire PrivateBackend.Path

/-- What `PrivateOutput::reserve` reads of the completed layer engine. -/
structure OutputParent where
  n : Nat
  f : Nat
  generation : Generation
  context : Bytes
  outputs : Nat
  /-- An output is present and there is no failure. -/
  completed : Bool
  context_length : context.length = 32

namespace PrivateOutput

variable (sha : Wire.Digest) (parent : OutputParent) (recipient : UInt16)

/-- The public binding of an output to its recipient and descriptor. -/
def binding (descriptor : Bytes) : Bytes :=
  ascii "DREGG.PRIVATE.OUTPUT\x01" ++ parent.generation.put ++ parent.context ++
    toLeBytes 2 recipient.toNat ++ bytes descriptor ++ (new parent.n).put ++
    (new parent.f).put ++ (new parent.outputs).put

/-- The row of a result for a recipient, whatever the descriptor. -/
def correlation : Correlation where
  pool := fromBe (sha.digest
    (ascii "DREGG.PRIVATE.OUTPUT.ONE.USE\x01" ++ parent.context ++
      toLeBytes 2 recipient.toNat))
  row := new 0

variable (descriptor : Bytes)

/-- The receipt prefix of an output. -/
def receipt : Bytes :=
  ascii "DREGG.PRIVATE.OUTPUT.BURN\x01" ++ bytes (binding parent recipient descriptor)

/-- The arguments with which `PrivateOutput::reserve` calls `reserve_with_receipt`. -/
def call (localPath : Path) : Call where
  lockPath := localPath.withExtension "output.lock"
  request := 1 :: request (correlation sha parent recipient) parent.generation .holderPad
  ids := [correlation sha parent recipient]
  generation := parent.generation
  purpose := .holderPad
  receipt := receipt parent recipient descriptor
  localPath := localPath
  what := "private output"

/-- `PrivateOutput::reserve` up to its call of `reserve_with_receipt`. -/
def reserveCall (localPath : Path) : Result Call := do
  refuseIf (!parent.completed || decide (recipient.toNat ≥ parent.n) || descriptor.isEmpty ||
    decide (descriptor.length > 65536) || decide (parent.outputs = 0) ||
    decide (parent.outputs > 4092)) "actual completed output/recipient/descriptor capacity"
  pure (call sha parent recipient descriptor localPath)

end PrivateOutput

/-- `burn_receipt_prefix`. -/
def burnReceiptPrefix (binding : Bytes) (g : Generation) : Bytes :=
  ascii "DREGG.PREPARATION.BURN.V1" ++ bytes binding ++ g.put

/-- The arguments with which `burn_preparation` calls `reserve_with_receipt`. -/
def burnPreparation (ids : List Correlation) (g : Generation) (binding : Bytes)
    (localPath : Path) : Call where
  lockPath := localPath.withExtension "preparation.lock"
  request := 2 :: batchRequest ids g .triple
  ids := ids
  generation := g
  purpose := .triple
  receipt := burnReceiptPrefix binding g
  localPath := localPath
  what := "preparation burn"

/-- The calls the source makes. -/
inductive Issued (sha : Wire.Digest) : Call → Prop
  | output (parent recipient descriptor localPath) {c : Call}
      (h : PrivateOutput.reserveCall sha parent recipient descriptor localPath = .ok c) :
      Issued sha c
  | burn (ids g binding localPath) : Issued sha (burnPreparation ids g binding localPath)

namespace Issued

variable {sha : Wire.Digest} {c d : Call}

/-- The two shapes of an issued call. -/
theorem shape (h : Issued sha c) :
    (∃ parent recipient descriptor localPath,
      c = PrivateOutput.call sha parent recipient descriptor localPath) ∨
    ∃ ids g binding localPath, c = burnPreparation ids g binding localPath := by
  cases h with
  | output parent recipient descriptor localPath h =>
    simp only [PrivateOutput.reserveCall, bind_eq_ok, pure_inj] at h
    obtain ⟨-, -, rfl⟩ := h
    exact .inl ⟨parent, recipient, descriptor, localPath, rfl⟩
  | burn ids g binding localPath => exact .inr ⟨ids, g, binding, localPath, rfl⟩

theorem asks (h : Issued sha c) : Anchor.Asks c.request c.ids c.generation c.purpose := by
  obtain ⟨_, _, _, _, rfl⟩ | ⟨ids, g, _, _, rfl⟩ := h.shape
  · exact .single _ _ _
  · exact .batch ids g .triple

private theorem receipt_apart {x y : Bytes} {parent : OutputParent} {recipient : UInt16}
    {descriptor binding : Bytes} {g : Generation} :
    PrivateOutput.receipt parent recipient descriptor ++ x ≠ burnReceiptPrefix binding g ++ y := by
  intro h
  have houtput (z : Bytes) :
      (ascii "DREGG.PRIVATE.OUTPUT.BURN\x01" ++ z)[8]? = some 73 := by
    rw [getElem?_append_left (by decide)]
    decide
  have hburn (z : Bytes) : (ascii "DREGG.PREPARATION.BURN.V1" ++ z)[8]? = some 69 := by
    rw [getElem?_append_left (by decide)]
    decide
  have heq := congrArg (fun b : Bytes => b[8]?) h
  simp only [PrivateOutput.receipt, burnReceiptPrefix, append_assoc, houtput, hburn] at heq
  exact absurd heq (by decide)

/-- No receipt prefix of an issued call starts another one. -/
theorem prefixFree (hc : Issued sha c) (hd : Issued sha d) {x y : Bytes}
    (h : c.receipt ++ x = d.receipt ++ y) : c.receipt = d.receipt := by
  obtain ⟨_, _, _, _, rfl⟩ | ⟨_, _, _, _, rfl⟩ := hc.shape
  · obtain ⟨_, _, _, _, rfl⟩ | ⟨_, _, _, _, rfl⟩ := hd.shape
    · simp only [PrivateOutput.call, PrivateOutput.receipt, append_assoc] at h ⊢
      rw [(Reader.bytes_delimited _ _ _ _ (append_cancel_left h)).1]
    · exact absurd h receipt_apart
  · obtain ⟨_, _, _, _, rfl⟩ | ⟨_, _, _, _, rfl⟩ := hd.shape
    · exact absurd h.symm receipt_apart
    · simp only [burnPreparation, burnReceiptPrefix, append_assoc] at h ⊢
      obtain ⟨hbinding, htail⟩ := Reader.bytes_delimited _ _ _ _ (append_cancel_left h)
      rw [hbinding, (Generation.put_delimited _ _ _ _ htail).1]

private theorem lockPath_ne_intentPath (hc : Issued sha c) : c.lockPath ≠ d.intentPath := by
  intro h
  have hlast := congrArg (fun p : Path => p.fileName.getLast?) h
  have hintent (stem : List Char) : (stem ++ '.' :: "intent".toList).getLast? = some 't' := by
    simp
  have hlock (stem : List Char) (ext : String) (hext : ext.toList.getLast? = some 'k') :
      (stem ++ '.' :: ext.toList).getLast? = some 'k' := by
    simp [getLast?_cons, hext]
  obtain ⟨_, _, _, _, rfl⟩ | ⟨_, _, _, _, rfl⟩ := hc.shape
  · simp only [PrivateOutput.call, Call.intentPath, withExtension, hintent,
      hlock _ "output.lock" (by decide)] at hlast
    exact absurd hlast (by decide)
  · simp only [burnPreparation, Call.intentPath, withExtension, hintent,
      hlock _ "preparation.lock" (by decide)] at hlast
    exact absurd hlast (by decide)

private theorem lockPath_eq (hc : Issued sha c) (hd : Issued sha d)
    (hlocal : c.localPath = d.localPath) (hp : c.purpose = d.purpose) :
    c.lockPath = d.lockPath := by
  obtain ⟨_, _, _, _, rfl⟩ | ⟨_, _, _, _, rfl⟩ := hc.shape <;>
    obtain ⟨_, _, _, _, rfl⟩ | ⟨_, _, _, _, rfl⟩ := hd.shape
  · exact congrArg (withExtension · "output.lock") hlocal
  · cases hp
  · cases hp
  · exact congrArg (withExtension · "preparation.lock") hlocal

/-- Issued calls are disciplined when rivals share one local path and no local
path is a lock file. -/
theorem disciplined {calls : Set Call} (hissued : ∀ c ∈ calls, Issued sha c)
    (hlocal : ∀ c ∈ calls, ∀ d ∈ calls, Rival c d → c.localPath = d.localPath)
    (hlock : ∀ c ∈ calls, ∀ d ∈ calls, c.lockPath ≠ d.localPath) : Disciplined calls where
  asks c hc := (hissued c hc).asks
  prefixFree c hc d hd _ _ h := (hissued c hc).prefixFree (hissued d hd) h
  onePath c hc d hd hr :=
    ⟨(hissued c hc).lockPath_eq (hissued d hd) (hlocal c hc d hd hr) hr.2.2,
      congrArg (withExtension · "intent") (hlocal c hc d hd hr)⟩
  lockApart c hc d hd := ⟨hlock c hc d hd, (hissued c hc).lockPath_ne_intentPath⟩

end Issued

/-! ## Two descriptors for one result -/

/-- A completed result with one output among four parties. -/
def smallResult : OutputParent :=
  ⟨4, 1, ⟨new 7, [9], new 0, new 1, new 2⟩,
    List.replicate 32 0, 1, true, by decide⟩

/-- The reservation of the small result for party 0 under a one-byte descriptor. -/
def smallOutput (descriptor : UInt8) (dir : String) : Call :=
  PrivateOutput.call sha256 smallResult 0 [descriptor] ⟨dir.toList, "output".toList⟩

theorem smallOutput_issued (descriptor : UInt8) (dir : String) :
    Issued sha256 (smallOutput descriptor dir) :=
  .output smallResult 0 [descriptor] ⟨dir.toList, "output".toList⟩ rfl

/-- The moves of an undisturbed reservation by call number `i`. -/
def undisturbed (i : Nat) : List Action :=
  [.advance i true, .serve none, .advance i true, .advance i true, .serve none, .advance i true,
    .advance i true, .serve none, .advance i true]

/-- The moves of a reservation that finds its batch held and its intent retained. -/
def recovering (i : Nat) : List Action :=
  [.advance i true, .serve none, .advance i true, .advance i true, .advance i true, .serve none,
    .advance i true]

/-- The moves of a reservation whose preflight finds its batch held. -/
def refused (i : Nat) : List Action :=
  [.advance i true, .serve none, .advance i true, .advance i true]

/-- One call leaves its intent and loses its packet; another call for the same
row runs undisturbed. -/
def overtaking (first second : Call) : List Action :=
  [.start first, .advance 0 true, .serve none, .advance 0 true, .advance 0 true, .lose 0,
    .advance 0 true, .start second] ++ undisturbed 1

/-- At two local paths both descriptors are reserved for the same row. -/
theorem replaced_descriptor_reserved_twice :
    ((World.initial fun _ => none : World sha256).run
        (overtaking (smallOutput 2 "b") (smallOutput 1 "a") ++
          .start (smallOutput 2 "b") :: recovering 2)).map
        (fun w => w.returned.map Returned.call) =
          some [smallOutput 2 "b", smallOutput 1 "a"] ∧
      (smallOutput 2 "b").ids = (smallOutput 1 "a").ids ∧
      (smallOutput 2 "b").receipt ≠ (smallOutput 1 "a").receipt := by
  decide +kernel

theorem smallOutput_disciplined :
    Disciplined {c | c = smallOutput 1 "a" ∨ c = smallOutput 2 "a"} := by
  have hlocal {c : Call} (hc : c = smallOutput 1 "a" ∨ c = smallOutput 2 "a") :
      c.localPath = ⟨"a".toList, "output".toList⟩ := by
    rcases hc with rfl | rfl <;> rfl
  have hissued : ∀ c ∈ {c | c = smallOutput 1 "a" ∨ c = smallOutput 2 "a"},
      Issued sha256 c := by
    rintro c (rfl | rfl)
    · exact smallOutput_issued 1 "a"
    · exact smallOutput_issued 2 "a"
  refine Issued.disciplined hissued ?_ ?_
  · intro c hc d hd _
    rw [hlocal hc, hlocal hd]
  · rintro c hc d hd
    rw [hlocal hd]
    rcases hc with rfl | rfl <;> decide

/-- At one local path the overtaken descriptor is refused, and the one that was
reserved is answered again. -/
theorem shared_path_reserves_one_descriptor :
    ∃ w : World sha256,
      (World.initial fun _ => none).run
          (overtaking (smallOutput 2 "a") (smallOutput 1 "a") ++
            .start (smallOutput 2 "a") :: refused 2 ++
            .start (smallOutput 1 "a") :: recovering 3) = some w ∧
        w.returned.map Returned.call = [smallOutput 1 "a", smallOutput 1 "a"] ∧
        ∀ r ∈ w.returned, ∀ r' ∈ w.returned, (∃ id ∈ r.call.ids, id ∈ r'.call.ids) →
          r.call.receipt = r'.call.receipt ∧ r.call.request = r'.call.request := by
  have hrun : ((World.initial fun _ => none : World sha256).run
      (overtaking (smallOutput 2 "a") (smallOutput 1 "a") ++
        .start (smallOutput 2 "a") :: refused 2 ++
        .start (smallOutput 1 "a") :: recovering 3)).map
        (fun w => w.returned.map Returned.call) =
          some [smallOutput 1 "a", smallOutput 1 "a"] := by
    decide +kernel
  obtain ⟨w, hw, hcalls⟩ := Option.map_eq_some_iff.1 hrun
  refine ⟨w, hw, hcalls, fun r hr r' hr' hmeet => ?_⟩
  refine reservation_oneUse smallOutput_disciplined (fun _ => none) ?_ hw hr hr' hmeet
  intro c hc
  simp only [overtaking, undisturbed, refused, recovering, mem_append, mem_cons,
    Action.start.injEq, reduceCtorEq, not_mem_nil, or_false, false_or] at hc
  rcases hc with ((h | h) | h) | h
  · exact .inr h
  · exact .inl h
  · exact .inr h
  · exact .inl h

end MiniDregg.PrivateBackend
