import SourceLabel.Text.Suffix

/-!
# Which label a class gets

A class is labelled with the file that it was compiled from. Once names have been shortened that label
gives the old name away, or no longer fits the class. The new label follows from the name of the class
and from what kind of file the old label names:

* files with one outer class each (a primary suffix): the name of the outer class and the old extension;
* files that may hold any classes (a loose suffix): the short name of the class if it is short enough to
  have been shortened, else the old label;
* anything else: the short name of the class.

Packages are separated by `/` or `.`. An inner class follows its outer class after a `$`, but a
name that begins with `$` is not taken apart.
-/
namespace SourceLabel

structure Policy where
  /-- Suffixes of files that hold one outer class each. -/
  primary : List String := [".java"]
  /-- Suffixes of files that may hold unrelated classes. -/
  loose : List String := [".kt"]
  /-- The greatest length of a name that counts as shortened. -/
  threshold : Nat := 3
deriving DecidableEq, Repr

def isPackageSeparator (c : Char) : Bool :=
  c = '/' || c = '.'

/-- The name of a class without its package. -/
def shortName (className : String) : String :=
  String.ofList (Text.afterLast isPackageSeparator className.toList)

/-- A short name up to its first `$`. If it begins with one, all of it is the name. -/
def outerName (short : String) : String :=
  let cs := short.toList
  if cs.head? = some '$' then short else String.ofList (cs.takeWhile (· ≠ '$'))

/-- A label from its last dot on, or `suffix` if it has no dot. -/
def extensionOr (suffix label : String) : String :=
  let cs := label.toList
  if '.' ∈ cs then String.ofList ('.' :: Text.afterLast (· = '.') cs) else suffix

namespace Policy

/-- The new label of a class. Primary suffixes are looked at before loose ones. -/
def relabel (p : Policy) (className label : String) : String :=
  let short := shortName className
  match p.primary.find? (Text.endsWith label) with
  | some suffix => outerName short ++ extensionOr suffix label
  | none =>
    if p.loose.any (Text.endsWith label) then
      if short.length ≤ p.threshold then short else label
    else short

end Policy
end SourceLabel
