namespace Legible.Text

def lineFeeds : List Char → List Char
  | '\r' :: '\n' :: cs => '\n' :: lineFeeds cs
  | '\r' :: cs => '\n' :: lineFeeds cs
  | c :: cs => c :: lineFeeds cs
  | [] => []

def withLineFeeds (s : String) : String :=
  String.ofList (lineFeeds s.toList)

end Legible.Text
