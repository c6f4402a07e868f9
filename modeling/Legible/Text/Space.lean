import Legible.Text.CharRanges

namespace Legible.Text

def spaceRanges : CharRanges :=
  [(0x9, 0xd), (0x1c, 0x20), (0x85, 0x85), (0xa0, 0xa0), (0x1680, 0x1680), (0x2000, 0x200a),
   (0x2028, 0x2029), (0x202f, 0x202f), (0x205f, 0x205f), (0x3000, 0x3000)]

def isSpace (c : Char) : Bool :=
  spaceRanges.contains c

def dropSpacesRight (cs : List Char) : List Char :=
  (cs.reverse.dropWhile isSpace).reverse

def trim (s : String) : String :=
  String.ofList (dropSpacesRight (s.toList.dropWhile isSpace))

end Legible.Text
