import Legible.Text.Letters
import Legible.Text.Digits

namespace Legible.Text

def isWordChar (c : Char) : Bool :=
  isLetter c || isNumeric c || c == '_'

end Legible.Text
