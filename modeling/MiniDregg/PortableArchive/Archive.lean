import MiniDregg.Text.Hex
import MiniDregg.Wire.Sha2

/-!
# The portable archive

A file is kept as chunks of at most 65536 bytes, each in a file named by its
digest, and a manifest that lists the chunks in order. The module follows the
archive's `lib.rs`: retaining and reading a chunk, capturing a file, checking a
manifest, reading a range and restoring the file.

## Implementation notes

A directory maps a name to a file the process owns alone, or to anything else,
which every reader refuses. A file does not change while it is read and a rename
is atomic, so the second readings of the source and the lock and staging files
of a chunk are left out. The digest is a parameter.
-/

namespace MiniDregg.PortableArchive

open Fallible

def CHUNK_BYTES : Nat := 65536

structure Chunk where
  sha256 : String
  bytes : Nat
  deriving DecidableEq

structure FileManifest where
  protocol : String
  coordinate : String
  bytes : Nat
  sha256 : String
  chunks : List Chunk
  deriving DecidableEq

/-- What stands under a name: a private file, or something of other custody. -/
inductive Node
  | file (bytes : Bytes)
  | foreign
  deriving DecidableEq

abbrev Directory := String → Option Node

def Directory.empty : Directory := fun _ => none

def protocolName : String := "mini-portable-artifact-chunks-v1"

/-- `private_file`, read to its end. -/
def privateFile (root : Directory) (name : String) : Result Bytes :=
  match root name with
  | none => .error "No such file or directory (os error 2)"
  | some .foreign => .error "expected an owned private single-link regular file"
  | some (.file bytes) => .ok bytes

/-- `canonical_hash`. -/
def canonicalHash (s : String) : Bool :=
  decide (Text.utf8Length s.toList = 64) &&
    s.toList.all fun c => c.isDigit || decide (97 ≤ c.toNat ∧ c.toNat ≤ 102)

/-- A selector that names no chunk. -/
def Chunk.invalid (chunk : Chunk) : Bool :=
  !canonicalHash chunk.sha256 || decide (chunk.bytes = 0) || decide (chunk.bytes > CHUNK_BYTES)

section Digest
variable (sha : Wire.Digest)

/-- The hexadecimal digest of a byte string. -/
def hash (bytes : Bytes) : String := Text.hexEncode (sha.digest bytes)

/-- The chunk a byte string is retained as. -/
def chunkOf (bytes : Bytes) : Chunk := ⟨hash sha bytes, bytes.length⟩

/-- `exact_chunk`. -/
def exactChunk (root : Directory) (chunk : Chunk) : Result Bytes := do
  refuseIf chunk.invalid "chunk selector invalid"
  let bytes ← privateFile root chunk.sha256
  refuseIf (decide (bytes.length ≠ chunk.bytes)) "chunk length differs"
  refuseIf (decide (hash sha bytes ≠ chunk.sha256)) "chunk bytes differ"
  pure bytes

/-- The file of a chunk written over whatever private file stands there. -/
def writeChunk (root : Directory) (chunk : Chunk) (bytes : Bytes) :
    Result (Directory × Chunk) :=
  if root chunk.sha256 = some .foreign then .error "existing corrupt chunk custody invalid"
  else do
    let root' : Directory := Function.update root chunk.sha256 (some (.file bytes))
    let _ ← exactChunk sha root' chunk
    pure (root', chunk)

/-- `retain_chunk`. -/
def retainChunk (root : Directory) (bytes : Bytes) : Result (Directory × Chunk) :=
  match exactChunk sha root (chunkOf sha bytes) with
  | .ok _ => .ok (root, chunkOf sha bytes)
  | .error _ => writeChunk sha root (chunkOf sha bytes) bytes

/-- What the reads of `capture` return, one buffer after the other. -/
def pieces (content : Bytes) : List Bytes :=
  if content = [] then [] else content.take CHUNK_BYTES :: pieces (content.drop CHUNK_BYTES)
termination_by content.length
decreasing_by
  have hpos := List.length_pos_iff.2 ‹_›
  rw [List.length_drop, CHUNK_BYTES]
  omega

/-- The loop of `capture` over the buffers. -/
def retainAll (root : Directory) : List Bytes → Result (Directory × List Chunk)
  | [] => .ok (root, [])
  | piece :: rest => do
    let (root, chunk) ← retainChunk sha root piece
    let (root, chunks) ← retainAll root rest
    pure (root, chunk :: chunks)

/-- The loop of `check_manifest`: the total of the sizes of the chunks. -/
def checkPlacement : List Chunk → Nat → Result Nat
  | [], total => .ok total
  | chunk :: rest, total => do
    refuseIf (chunk.invalid || (!rest.isEmpty && decide (chunk.bytes ≠ CHUNK_BYTES)))
      "artifact chunk placement invalid"
    refuseIf (decide (total + chunk.bytes ≥ 2 ^ 64)) "artifact size overflow"
    checkPlacement rest (total + chunk.bytes)

/-- A coordinate that no manifest may carry. -/
def badCoordinate (coordinate : String) : Bool :=
  coordinate.toList.isEmpty || decide (Text.utf8Length coordinate.toList > 4096)

/-- `check_manifest`. -/
def checkManifest (manifest : FileManifest) : Result Unit := do
  refuseIf (decide (manifest.protocol ≠ protocolName) || badCoordinate manifest.coordinate ||
    !canonicalHash manifest.sha256) "artifact manifest invalid"
  let total ← checkPlacement manifest.chunks 0
  refuseIf (decide (total ≠ manifest.bytes)) "artifact inventory size differs"

/-- `verify`. -/
def verify (root : Directory) (manifest : FileManifest) : Result Unit := do
  checkManifest manifest
  let bytes ← manifest.chunks.mapM (exactChunk sha root)
  refuseIf (decide (hash sha bytes.flatten ≠ manifest.sha256)) "artifact aggregate digest differs"

/-- `capture`: the directory with the chunks, and the manifest. -/
def capture (root : Directory) (coordinate : String) (content : Bytes) :
    Result (Directory × FileManifest) := do
  refuseIf (badCoordinate coordinate) "artifact coordinate invalid"
  let (root, chunks) ← retainAll sha root (pieces content)
  let manifest : FileManifest :=
    ⟨protocolName, coordinate, content.length, hash sha content, chunks⟩
  verify sha root manifest
  pure (root, manifest)

/-- The part of a chunk at `start` that lies between `offset` and `fin`. -/
def readPart (root : Directory) (chunk : Chunk) (offset fin start : Nat) : Result Bytes :=
  if start < fin ∧ start + chunk.bytes > offset then do
    let bytes ← exactChunk sha root chunk
    pure ((bytes.take (min fin (start + chunk.bytes) - start)).drop (offset - start))
  else .ok []

/-- The loop of `read_range`. -/
def readLoop (root : Directory) (offset fin : Nat) : List Chunk → Nat → Result Bytes
  | [], _ => .ok []
  | chunk :: rest, start => do
    let part ← readPart sha root chunk offset fin start
    if start + chunk.bytes ≥ fin then pure part
    else do
      let later ← readLoop root offset fin rest (start + chunk.bytes)
      pure (part ++ later)

/-- `read_range`. -/
def readRange (root : Directory) (manifest : FileManifest) (offset count : Nat) :
    Result Bytes := do
  checkManifest manifest
  refuseIf (decide (count > CHUNK_BYTES) || decide (offset > manifest.bytes) ||
    decide (count > manifest.bytes - offset)) "range exceeds bounded artifact"
  let output ← readLoop sha root offset (offset + count) manifest.chunks 0
  refuseIf (decide (output.length ≠ count)) "range incomplete"
  pure output

/-- `restore_new`: what is written to a target that must not exist yet. -/
def restoreNew (root : Directory) (manifest : FileManifest) (target : Option Node) :
    Result Bytes := do
  checkManifest manifest
  refuseIf target.isSome "File exists (os error 17)"
  let parts ← manifest.chunks.mapM (exactChunk sha root)
  refuseIf (decide (hash sha parts.flatten ≠ manifest.sha256)) "restored artifact aggregate differs"
  refuseIf (decide (parts.flatten.length ≠ manifest.bytes)) "restore readback differs"
  pure parts.flatten

end Digest

end MiniDregg.PortableArchive
