import MiniDregg.Control.Fallible
import MiniDregg.Store.WriteOnce
import MiniDregg.Text.Numerals
import MiniDregg.Wire.Words

/-!
# Private files

The directory that a service keeps its records in, and the bounded read of one of its
files. Owners and modes of files are left out.
-/

namespace MiniDregg

open Fallible

abbrev Files := Store.OrderedMap Text Bytes

/-- `read_private`: a file of at most `limit` bytes. -/
def Files.readPrivate (files : Files) (name : Text) (limit : Nat) : Result Bytes :=
  match files.get? name with
  | none => .error ("cannot read key file " ++ String.ofList name)
  | some bytes =>
    if bytes.length ≤ limit then .ok bytes
    else .error ("key file " ++ String.ofList name ++ " has an unacceptable size (at most "
      ++ toString limit ++ " bytes)")

theorem Files.readPrivate_eq_ok {files : Files} {name : Text} {limit : Nat} {bytes : Bytes}
    (h : files.readPrivate name limit = .ok bytes) : files.get? name = some bytes := by
  unfold readPrivate at h
  split at h
  · cases h
  next content hread =>
    split_ifs at h
    cases h
    exact hread

end MiniDregg
