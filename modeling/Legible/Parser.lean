import Legible.Tree

namespace Legible

abbrev Parser := String → Except String Tree

def unreadableMessage (message : String) : String :=
  "Failed to parse JavaScript: " ++ message

end Legible
