import SourceLabel.ClassFile.Error
import SourceLabel.Deflate.PrefixCode
import SourceLabel.Text.Escape

/-!
# Failures

Every failure is a value that names its cause; the wording is in the `message` functions. Failures of
the archive layer do not know where in the nesting they arose. `Error.inContainer` adds the place, and
leaves alone what already carries one and what is no fault of the container.
-/
namespace SourceLabel

/-! ## Files and streams -/

/-- The sort of an input or output failure. -/
inductive IoKind where
  | notFound
  | permissionDenied
  | notADirectory
  | isADirectory
  | resourceBusy
  | alreadyExists
  | invalidInput
  | invalidName
  | invalidData
  | unexpectedEnd
  | other (label : String)
deriving DecidableEq, Repr

inductive IoFault where
  | noSuchFile
  | notADirectory
  | isADirectory
  | busy
  | nameTooLong
  | invalidArgument
  | notARegularFile
  /-- No file system takes a name with a NUL character. -/
  | nulInPath
  | tooManyTemporaryFiles
  /-- Fewer bytes are left than a read asked for. -/
  | shortRead
  | undecodable (cause : Deflate.Fault)
  /-- A fault met while a temporary file was created at `path`. -/
  | atPath (path : String) (cause : IoFault)
  | other (kind : IoKind) (text : String)
deriving DecidableEq, Repr

namespace IoFault

def kind : IoFault → IoKind
  | .noSuchFile => .notFound
  | .notADirectory => .notADirectory
  | .isADirectory => .isADirectory
  | .busy => .resourceBusy
  | .nameTooLong => .invalidName
  | .invalidArgument | .notARegularFile | .nulInPath => .invalidInput
  | .tooManyTemporaryFiles => .alreadyExists
  | .shortRead => .unexpectedEnd
  | .undecodable .truncated => .unexpectedEnd
  | .undecodable .corrupt => .invalidInput
  | .atPath _ cause => cause.kind
  | .other kind _ => kind

def message : IoFault → String
  | .noSuchFile => "No such file or directory (os error 2)"
  | .notADirectory => "Not a directory (os error 20)"
  | .isADirectory => "Is a directory (os error 21)"
  | .busy => "Device or resource busy (os error 16)"
  | .nameTooLong => "File name too long (os error 36)"
  | .invalidArgument => "Invalid argument (os error 22)"
  | .notARegularFile => "the source path is neither a regular file nor a symlink to a regular file"
  | .nulInPath => "file name contained an unexpected NUL byte"
  | .tooManyTemporaryFiles => "too many temporary files exist"
  | .shortRead => "failed to fill whole buffer"
  | .undecodable .truncated => "incomplete deflate stream"
  | .undecodable .corrupt => "corrupt deflate stream"
  | .atPath path cause => s!"{cause.message} at path {Text.quotePath path}"
  | .other _ text => text

end IoFault

/-! ## Archives -/

/-- What is wrong with an entry name. -/
inductive NameFault where
  | empty
  | containsNul (name : String)
  | other (text : String)
deriving DecidableEq, Repr

def NameFault.message : NameFault → String
  | .empty => "empty name"
  | .containsNul name => s!"'{Text.escape name}' contains NUL byte"
  | .other text => text

/-- What is wrong with a header; entries are named by their decoded name. -/
inductive HeaderFault where
  | truncatedCentral
  | badCentralSignature
  | centralOverrun
  | badLocalSignature
  | badName (fault : NameFault)
  /-- The directory's range reaches into the end record. -/
  | directoryOverlap (start stop : Nat)
  | offsetIntoDirectory (entry : String)
  | payloadPastEnd (entry : String)
  | other (text : String)
deriving DecidableEq, Repr

def HeaderFault.message : HeaderFault → String
  | .truncatedCentral => "truncated central directory header"
  | .badCentralSignature => "bad central directory signature"
  | .centralOverrun => "central directory header overruns the directory"
  | .badLocalSignature => "bad local header signature"
  | .badName fault => fault.message
  | .directoryOverlap start stop =>
    "central directory [" ++ Text.hex start ++ ", " ++ Text.hex stop ++ ") overlaps the end record"
  | .offsetIntoDirectory entry => s!"local header of '{entry}' points into the central directory"
  | .payloadPastEnd entry => s!"payload of '{entry}' extends past end of archive"
  | .other text => text

/-- Data that is no archive, or a call that cannot make one. -/
inductive FormatFault where
  | tooShort (length : Nat)
  | noEndRecord
  | noSuchEntry (index : Nat)
  | undecodable (entry : String) (cause : Deflate.Fault)
  | wrongSize (entry : String) (actual declared : Nat)
  | directoryWithData (entry : String)
  | wrongPayloadSize (entry : String) (actual declared : Nat)
  | fieldTooLong (entry : String)
  | commentTooLong (length : Nat)
  /-- A nested container came without the header of its entry. -/
  | noHeader (path : String)
  | closedTwice (path : String)
  | noOpenArchive
  | outputTaken
  | notClosed
  | other (text : String)
deriving DecidableEq, Repr

def FormatFault.message : FormatFault → String
  | .tooShort length => s!"{length} bytes is too short for a zip archive"
  | .noEndRecord => "end of central directory record not found"
  | .noSuchEntry index => s!"entry index {index} out of range"
  | .undecodable entry cause =>
    s!"entry '{entry}' does not inflate: {(IoFault.undecodable cause).message}"
  | .wrongSize entry actual declared =>
    s!"entry '{entry}' decodes to {actual} bytes, header says {declared}"
  | .directoryWithData entry => s!"directory entry '{entry}' cannot carry data"
  | .wrongPayloadSize entry actual declared =>
    s!"payload of '{entry}' is {actual} bytes, header says {declared}"
  | .fieldTooLong entry => s!"header field of '{entry}' exceeds 65535 bytes"
  | .commentTooLong length => s!"archive comment of {length} bytes is too long"
  | .noHeader path => s!"nested container {path} has no header"
  | .closedTwice path => s!"container {path} closed twice"
  | .noOpenArchive => "no open output archive"
  | .outputTaken => "output file is owned by an open archive"
  | .notClosed => "output archive was not closed"
  | .other text => text

inductive Feature where
  | splitArchives
  | zip64
  | encryption
  | other (text : String)
deriving DecidableEq, Repr

def Feature.message : Feature → String
  | .splitArchives => "split archives"
  | .zip64 => "zip64"
  | .encryption => "encrypted entries"
  | .other text => text

/-- Why a container cannot be packed up again. -/
inductive NestingFault where
  /-- No stage is left for `level`; `left` of `total` levels are still unpacked. -/
  | unpackable (level : String) (left total : Nat)
  | other (text : String)
deriving DecidableEq, Repr

def NestingFault.message : NestingFault → String
  | .unpackable level left total =>
    s!"no output stage packs '{level}' ({left} of {total} levels left)"
  | .other text => text

/-! ## All failures -/

inductive Error where
  | io (fault : IoFault)
  | invalidFormat (fault : FormatFault)
  | corruptHeader (offset : Nat) (fault : HeaderFault)
  | unsupportedMethod (method : UInt16) (entry : String)
  | unsupportedFeature (feature : Feature)
  | crcMismatch (entry : String) (expected actual : UInt32)
  | invalidEntryName (fault : NameFault)
  | invalidLevel (level : Nat)
  | malformedContainer (path reason : String)
  | malformedClass (path : String) (cause : ClassError)
  | unsupportedNesting (path : String) (fault : NestingFault)
  | classNotPooled (path : String)
  | cancelled
deriving DecidableEq, Repr

/-- What a user is told a failure was about. -/
inductive Category where
  | malformedContainer
  | malformedClass
  | ioFailure
  | unsupportedNesting
  | cancelled
deriving DecidableEq, Repr

def Category.label : Category → String
  | .malformedContainer => "malformed container"
  | .malformedClass => "malformed class file"
  | .ioFailure => "I/O failure"
  | .unsupportedNesting => "unsupported nesting"
  | .cancelled => "cancelled"

namespace Error

def message : Error → String
  | .io fault => "I/O error: " ++ fault.message
  | .invalidFormat fault => "Invalid zip format: " ++ fault.message
  | .corruptHeader offset fault => s!"Corrupt header at offset {Text.hex offset}: {fault.message}"
  | .unsupportedMethod method entry =>
    s!"Unsupported compression method {method} for entry '{entry}'"
  | .unsupportedFeature feature => "Unsupported feature: " ++ feature.message
  | .crcMismatch entry expected actual =>
    s!"CRC mismatch for entry '{entry}': expected {Text.hex expected.toNat}, " ++
      s!"got {Text.hex actual.toNat}"
  | .invalidEntryName fault => "Invalid entry name: " ++ fault.message
  | .invalidLevel level => s!"invalid compression level {level}: must be 0-9"
  | .malformedContainer path reason => s!"Malformed container '{path}': {reason}"
  | .malformedClass path cause => s!"Malformed class file '{path}': {cause.message}"
  | .unsupportedNesting path fault => s!"Unsupported nesting at '{path}': {fault.message}"
  | .classNotPooled path => s!"Class file '{path}' was not seen while building the class pool"
  | .cancelled => "Operation cancelled"

/-- Does a failed read say that the data is damaged, and not that it cannot be reached? -/
def isDamage (kind : IoKind) : Bool :=
  kind = .invalidData || kind = .unexpectedEnd

def category : Error → Category
  | .io fault => if isDamage fault.kind then .malformedContainer else .ioFailure
  | .invalidFormat _ | .corruptHeader .. | .unsupportedMethod .. | .unsupportedFeature _
  | .crcMismatch .. | .invalidEntryName _ | .malformedContainer .. => .malformedContainer
  | .malformedClass .. => .malformedClass
  | .unsupportedNesting .. | .classNotPooled _ | .invalidLevel _ => .unsupportedNesting
  | .cancelled => .cancelled

def isCorruption : Error → Bool
  | .crcMismatch .. | .corruptHeader .. | .invalidFormat _ | .malformedContainer ..
  | .malformedClass .. => true
  | _ => false

/-- The place that the failure names: a nesting path, or the name of an entry. -/
def path? : Error → Option String
  | .malformedContainer path _ | .malformedClass path _ | .unsupportedNesting path _
  | .classNotPooled path => some path
  | .crcMismatch entry .. | .unsupportedMethod _ entry => some entry
  | _ => none

/-- Lays a failure at the container at `path`. -/
def inContainer (path : String) (e : Error) : Error :=
  match e with
  | .io fault => if isDamage fault.kind then .malformedContainer path e.message else e
  | .malformedContainer .. | .malformedClass .. | .unsupportedNesting .. | .classNotPooled _
  | .cancelled => e
  | _ => .malformedContainer path e.message

end Error
end SourceLabel
