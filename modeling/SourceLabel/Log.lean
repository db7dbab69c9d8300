import SourceLabel.Container.Kind
import SourceLabel.Location
import SourceLabel.Text.Numeral

/-!
# What is told along the way
-/
namespace SourceLabel

inductive Severity where
  | warn
  | info
  | debug
  | trace
deriving DecidableEq, Repr

namespace Severity

/-- Greater for what is less important. -/
def rank : Severity → Nat
  | .warn => 2
  | .info => 3
  | .debug => 4
  | .trace => 5

def label : Severity → String
  | .warn => "WARN"
  | .info => "INFO"
  | .debug => "DEBUG"
  | .trace => "TRACE"

end Severity

inductive Record where
  /-- The directory of an archive was read. -/
  | archiveOpened (entries directoryOffset : Nat)
  | archiveFinished (entries bytes : Nat)
  | notContainer (name : String)
  | unpacking (kind : Container.Kind) (path : NestedPath) (entries : Nat)
  | repacked (path : NestedPath) (entries bytes : Nat)
  /-- A class has a label that is no text. -/
  | undecodable (path : NestedPath) (index : UInt16)
  | labelKept (path : NestedPath) (label : String)
  | labelChanged (path : NestedPath) (old new : String)
  /-- A file was copied so that it can be read while it is replaced. -/
  | copied (source target : String)
  | collecting (input : String)
  | collected (parsed relabelled unlabelled : Nat)
  | writing (output : String)
  | wrote (output : String) (bytes resources containers : Nat)
deriving DecidableEq, Repr

namespace Record

def severity : Record → Severity
  | .undecodable .. => .warn
  | .collecting _ | .collected .. | .writing _ | .wrote .. => .info
  | .notContainer _ | .unpacking .. | .repacked .. | .labelChanged .. | .copied .. => .debug
  | .archiveOpened .. | .archiveFinished .. | .labelKept .. => .trace

def message : Record → String
  | .archiveOpened entries directoryOffset =>
    s!"opened zip archive: {entries} entries, central directory at {Text.hex directoryOffset}"
  | .archiveFinished entries bytes => s!"finished zip archive: {entries} entries, {bytes} bytes"
  | .notContainer name => s!"{name} is not a container, treating it as a single entry"
  | .unpacking kind path entries => s!"unpacking {kind} container {path} ({entries} entries)"
  | .repacked path entries bytes => s!"repacked {path} ({entries} entries, {bytes} bytes)"
  | .undecodable path index =>
    s!"{path}: SourceFile constant #{index} is not a decodable Utf8 string"
  | .labelKept path label => s!"{path}: SourceFile '{label}' kept"
  | .labelChanged path old new => s!"{path}: SourceFile '{old}' -> '{new}'"
  | .copied source target => s!"copied {source} to {target}"
  | .collecting input => s!"pass 1: collecting classes from {input}"
  | .collected parsed relabelled unlabelled =>
    s!"pass 1: {parsed} classes, {relabelled} rewritten, {unlabelled} without SourceFile"
  | .writing output => s!"pass 2: writing {output}"
  | .wrote output bytes resources containers =>
    s!"wrote {output} ({bytes} bytes, {resources} resources, {containers} nested containers)"

end Record
end SourceLabel
