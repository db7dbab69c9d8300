/-!
# Ends of names

What a name is, is told by how it ends. A text is cut at the last character of some kind into the part
up to and with that character and the part after it; together they are the text.
-/
namespace SourceLabel.Text

/-- Does the text end with `suffix`? Case counts. -/
def endsWith (s suffix : String) : Bool :=
  suffix.toList.isSuffixOf s.toList

/-- What follows the last character that satisfies `p`: everything if none does. -/
def afterLast (p : Char → Bool) (cs : List Char) : List Char :=
  (cs.reverse.takeWhile fun c => !p c).reverse

/-- Everything up to the last character that satisfies `p`, which is the last of it. -/
def throughLast (p : Char → Bool) (cs : List Char) : List Char :=
  (cs.reverse.dropWhile fun c => !p c).reverse

theorem throughLast_append_afterLast (p : Char → Bool) (cs : List Char) :
    throughLast p cs ++ afterLast p cs = cs := by
  rw [throughLast, afterLast, ← List.reverse_append, List.takeWhile_append_dropWhile,
    List.reverse_reverse]

/-- Drops the characters at the end that satisfy `p`. -/
def trimEnd (p : Char → Bool) (cs : List Char) : List Char :=
  (cs.reverse.dropWhile p).reverse

end SourceLabel.Text
