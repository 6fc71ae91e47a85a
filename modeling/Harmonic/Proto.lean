/-
Harmonic/Proto.lean

Messages, errors and configuration.

The message types follow the `.proto` files; a `oneof` is an `Option` of its
alternatives.  Code of other crates that the program calls for a value is
collected in `Crates`, a parameter of every definition that needs it.

A function that can return an error or panic has type `Except Halt α`.
-/
import Harmonic.Lib.Disk
import Harmonic.Place

namespace Harmonic

open Storage (Failure)

/-- `usize::MAX` and `isize::MAX` on the 64-bit targets. -/
def usizeMax : ℕ := 2 ^ 64 - 1
def isizeMax : ℕ := 2 ^ 63 - 1

/-- A BLAKE3 digest, `[u8; 32]`. -/
abbrev Digest := Vector UInt8 32

/-- `<[u8; 32]>::try_from` of a slice. -/
def Digest.ofBytes? (bs : Bytes) : Option Digest :=
  if h : bs.length = 32 then some ⟨bs.toArray, by simpa using h⟩ else none

/-- `to_vec`. -/
def Digest.toBytes (d : Digest) : Bytes := d.toList

@[simp] theorem Digest.ofBytes?_toBytes (d : Digest) : Digest.ofBytes? d.toBytes = some d := by
  have h : d.toBytes.length = 32 := by simp [Digest.toBytes]
  rw [Digest.ofBytes?, dif_pos h]
  exact congrArg some (Vector.toArray_inj.mp (by simp [Digest.toBytes, Vector.toList]))

/-- Code of other crates. -/
structure Crates where
  /-- `blake3::hash` -/
  blake3 : Bytes → Digest
  /-- `path_clean::PathClean::clean` -/
  clean : PathBuf → PathBuf

/-! ### Messages -/

/-- `prost_types::Timestamp`. -/
structure Timestamp where
  seconds : Int
  nanos : Int
  deriving DecidableEq

/-- `Timestamp::default`. -/
instance : Inhabited Timestamp := ⟨⟨0, 0⟩⟩

/-- `FileType`, as the number it is sent as. -/
inductive FileType
  | other
  | markdown
  | pdf
  deriving DecidableEq

def FileType.toI32 : FileType → Int
  | .other => 0
  | .markdown => 1
  | .pdf => 2

inductive TransferDirection
  | skip
  | download
  | upload
  deriving DecidableEq

def TransferDirection.toI32 : TransferDirection → Int
  | .skip => 0
  | .download => 1
  | .upload => 2

theorem TransferDirection.toI32_injective : Function.Injective TransferDirection.toI32 := by
  rintro (- | - | -) (- | - | -) h <;> first | rfl | cases h

structure FileStatus where
  path : String
  timestamp : Option Timestamp
  fileType : Int
  hash : Bytes
  deriving DecidableEq

structure FileAction where
  path : String
  direction : Int
  timestampLatestModified : Option Timestamp
  deriving DecidableEq

structure BlockSignature where
  weakChecksum : BitVec 64
  strongChecksum : Bytes
  deriving DecidableEq

/-- `block_size` is a `u64`. -/
structure BlockSignatures where
  blockSize : ℕ
  blocks : List BlockSignature
  deriving DecidableEq

/-- `BlockSignatures::default`. -/
instance : Inhabited BlockSignatures := ⟨⟨0, []⟩⟩

/-- The `oneof` of `Delta`; a block index is a `u32`. -/
inductive Instruction
  | blockIndex (index : ℕ)
  | literal (bytes : Bytes)
  deriving DecidableEq

structure Delta where
  index : ℕ
  instruction : Option Instruction
  deriving DecidableEq

/-- The `oneof` of `SyncRequest`. -/
inductive Payload
  | fileAction (action : FileAction)
  | signatures (signatures : BlockSignatures)
  | delta (delta : Delta)
  | complete (complete : Bool)
  deriving DecidableEq

structure SyncRequest where
  payload : Option Payload
  deriving DecidableEq

/-- A request with a payload. -/
def Payload.request (p : Payload) : SyncRequest := ⟨some p⟩

/-- The deltas among messages. -/
def deltasOf (ms : List SyncRequest) : List Delta :=
  ms.filterMap fun m =>
    match m.payload with
    | some (.delta d) => some d
    | _ => none

@[simp] theorem deltasOf_append (ms ns : List SyncRequest) :
    deltasOf (ms ++ ns) = deltasOf ms ++ deltasOf ns := by
  simp [deltasOf]

@[simp] theorem deltasOf_map_delta (ds : List Delta) :
    deltasOf (ds.map fun d => (Payload.delta d).request) = ds := by
  induction ds with
  | nil => rfl
  | cons d ds ih =>
    have h : deltasOf [(Payload.delta d).request] = [d] := rfl
    rw [List.map_cons, ← List.singleton_append, deltasOf_append, h, ih, List.singleton_append]

/-! ### Errors and configuration -/

/-- `HarmonicError`, the variants the modelled functions build.  A `SendError`
carries the text of another error, or of a channel that is closed. -/
inductive HarmonicError
  | pathError (path : PathBuf)
  | pathIntegrityError (path syncPath : PathBuf)
  | json
  | configError
  | io (error : Failure)
  | stringInvalid
  | systemTime
  | sendError (cause : HarmonicError)
  | channelClosed
  deriving DecidableEq

/-- How a call ends without a value. -/
inductive Halt
  | err (e : HarmonicError)
  | panic
  deriving DecidableEq

/-- Both parts of a sequence that succeeds succeed. -/
theorem bind_eq_ok {α β ε : Type} {x : Except ε α} {f : α → Except ε β} {r : β} :
    x >>= f = .ok r ↔ ∃ a, x = .ok a ∧ f a = .ok r := by
  rcases x with e | a
  · constructor
    · intro h
      cases h
    · rintro ⟨a, ha, -⟩
      cases ha
  · constructor
    · exact fun h => ⟨a, rfl, h⟩
    · rintro ⟨a', ha, h⟩
      obtain rfl := Except.ok.inj ha
      exact h

/-- How a spawned task ends. -/
inductive TaskResult
  | ok
  | err
  | panic
  deriving DecidableEq

/-- `Config`, the fields that decide what is transferred.  `block_size` is a
`u64`. -/
structure Config where
  syncPath : PathBuf
  blockSize : ℕ
  blockSize_le : blockSize ≤ usizeMax

end Harmonic
