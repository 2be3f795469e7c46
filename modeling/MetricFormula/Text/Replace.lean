/-! Occurrences of one text in another. -/

namespace MetricFormula

def occursIn (old : List Char) : List Char → Bool
  | [] => old.isEmpty
  | c :: cs => old.isPrefixOf (c :: cs) || occursIn old cs

/-- Replaces the occurrences of `old` from left to right, none overlapping an earlier one. The number counts the
characters still covered by the last occurrence. -/
def replaceFrom (old new : List Char) : Nat → List Char → List Char
  | _, [] => []
  | covered + 1, _ :: cs => replaceFrom old new covered cs
  | 0, c :: cs =>
    if old.isPrefixOf (c :: cs) then new ++ replaceFrom old new (old.length - 1) cs
    else c :: replaceFrom old new 0 cs

/-- Replaces every occurrence of a text that is not empty. -/
def replaceText (old new text : String) : String :=
  String.ofList (replaceFrom old.toList new.toList 0 text.toList)

def containsText (old text : String) : Bool := occursIn old.toList text.toList

end MetricFormula
