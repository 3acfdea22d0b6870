import SectorChain.Layout

/-!
# What can go wrong

Each error is a cause; its wording is in one function `message` per type.
-/

namespace SectorChain

/-- One request to a device for a whole sector. -/
inductive Access where
  | read (sector : Nat)
  | write (sector : Nat)
  deriving DecidableEq, Repr

/-- A device could not answer a request, or is not fit for a volume: the error in `Io`. -/
inductive IoError where
  /-- The device has no such sector. -/
  | outOfRange (sector : Nat) (sectors : Nat)
  /-- The buffer is not one whole sector. -/
  | partialSector (length sectorSize : Nat)
  /-- The image file ends inside the sector. -/
  | imageTooShort
  /-- The fault pattern made this access fail. -/
  | injected (access : Access)
  /-- Neither a block nor a file header fits into a sector. -/
  | sectorTooSmall (sectorSize : Nat)
  deriving DecidableEq, Repr

/-- The wording of a device error. -/
def IoError.message : IoError → String
  | .outOfRange sector sectors => s!"sector {sector} out of range (device has {sectors})"
  | .partialSector length size => s!"buffer of {length} bytes, expected a whole sector of {size}"
  | .imageTooShort => "failed to fill whole buffer"
  | .injected (.read sector) => s!"injected read fault at sector {sector}"
  | .injected (.write sector) => s!"injected write fault at sector {sector}"
  | .sectorTooSmall size => s!"sector size {size} is too small"

/-- Bytes on the device are no record of the kind that was expected: the error in `Codec`. -/
inductive RecordError where
  | unexpectedEnd
  /-- A truth value must be 0 or 1. -/
  | badBool (found : Nat)
  /-- An entry is of kind 0 or 1. -/
  | badKind (found : Nat)
  deriving DecidableEq, Repr

/-- The wording of a record error. -/
def RecordError.message : RecordError → String
  | .unexpectedEnd => "io error: unexpected end of file"
  | .badBool n => s!"invalid u8 while decoding bool, expected 0 or 1, found {n}"
  | .badKind n =>
    "invalid value: integer `" ++ toString n ++ "`, expected variant index 0 <= i < 2"

/-- The records of a volume contradict one another: the text in `CorruptChain`. -/
inductive Corruption where
  /-- The block found in `sector` says that it belongs to `found`. -/
  | misplaced (sector : Nat) (found : Int)
  /-- The chain goes on after its last block. -/
  | chainTooLong (blocks : Nat)
  /-- The chain ends after `found` of its blocks. -/
  | chainTooShort (found blocks : Nat)
  /-- The chain has no block for this byte of the file. -/
  | pastChain (offset blocks : Nat)
  /-- The header gives no first block. -/
  | noFirstBlock (length : Nat)
  /-- A stored length or number of blocks is negative. -/
  | notHeader (sector : Nat)
  /-- A block of a chain is free according to the free map. -/
  | freeBlock (sector : Nat)
  /-- The header of the file at `path` is free according to the free map. -/
  | freeHeader (sector : Nat) (path : String)
  /-- The directory entry for `path` gives no header sector. -/
  | noHeader (path : String)
  /-- The free map file does not have one bit for each sector. -/
  | freeMapLength (length needed : Nat)
  /-- The free map counts free sectors and yields none. -/
  | noneToClaim
  /-- Directories are nested more deeply than links can name sectors for them. -/
  | endlessNesting (path : String)
  deriving DecidableEq, Repr

/-- The wording of a contradiction. -/
def Corruption.message : Corruption → String
  | .misplaced sector found => s!"sector {sector} carries the link header of sector {found}"
  | .chainTooLong blocks => s!"chain longer than the expected {blocks} blocks"
  | .chainTooShort found blocks => s!"chain ends after {found} of {blocks} blocks"
  | .pastChain offset blocks => s!"offset {offset} lies beyond a chain of {blocks} blocks"
  | .noFirstBlock length => s!"header of {length} bytes has no first block"
  | .notHeader sector => s!"sector {sector} does not hold a file header"
  | .freeBlock sector => s!"sector {sector} belongs to a chain but is not marked in use"
  | .freeHeader sector path => s!"header sector {sector} of {path} is not marked in use"
  | .noHeader path => s!"entry for {path} has no header sector"
  | .freeMapLength length needed => s!"bitmap file holds {length} bytes, disk needs {needed}"
  | .noneToClaim => "bitmap reported free sectors but none could be claimed"
  | .endlessNesting path => s!"directories nested without end at {path}"

/-- `FileSystemError`: why an operation on a volume failed. -/
inductive VolumeError where
  | io (error : IoError)
  | record (error : RecordError)
  | outOfSpace
  | notFound (path : String)
  | alreadyExists (path : String)
  | directoryFull (path : String)
  | notADirectory (path : String)
  | directoryNotEmpty (path : String)
  | invalidPath (path : String)
  | corrupt (cause : Corruption)
  | notOpen (id : Nat)
  | tooManyOpen
  | stillOpen (path : String)
  deriving DecidableEq, Repr

/-- The device failed, or what is stored on it makes no sense: no request can be to blame. -/
def VolumeError.isDamage : VolumeError → Bool
  | .io _ | .record _ | .corrupt _ => true
  | _ => false

/-- `source`: the wording of the error inside, where there is one. -/
def VolumeError.source? : VolumeError → Option String
  | .io e => some e.message
  | .record e => some e.message
  | _ => none

/-- The wording of a volume error. -/
def VolumeError.message : VolumeError → String
  | .io e => s!"Disk I/O error: {e.message}"
  | .record e => s!"Malformed on-disk record: {e.message}"
  | .outOfSpace => "Not enough free sectors"
  | .notFound path => s!"File or directory not found: {path}"
  | .alreadyExists path => s!"File or directory already exists: {path}"
  | .directoryFull path => s!"Directory is full: {path}"
  | .notADirectory path => s!"Expected a directory, found a file: {path}"
  | .directoryNotEmpty path => s!"Directory is not empty: {path}"
  | .invalidPath path => s!"Invalid path: {path}"
  | .corrupt cause => s!"Corrupt sector chain: {cause.message}"
  | .notOpen id => s!"No open file with id {id}"
  | .tooManyOpen => "Too many open files"
  | .stillOpen path => s!"File is still open: {path}"

end SectorChain
