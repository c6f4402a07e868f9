import Legible.Number
import Legible.Script.Chars
import Legible.Text.Halves

/-!
Tokens of scripts. Whether a slash starts a regular expression is settled by the reader, who calls
for that piece of text by name. A closing brace goes on with a template if the innermost open brace
began a substitution.
-/

namespace Legible.Script

inductive Token where
  | name (word : String)
  | keyword (word : String)
  | number (value : Number)
  | string (value : String)
  | punct (symbol : String)
  | template (raw cooked : String) (opens closes : Bool)
  | done
deriving DecidableEq, Inhabited

def Token.spelling : Token → String
  | .name w | .keyword w | .string w | .punct w | .template w _ _ _ => w
  | _ => ""

/-! ### Words -/

def keywords : List String :=
  ["if", "in", "do", "var", "for", "new", "try", "let", "this", "else", "case", "void", "with",
   "enum", "while", "break", "catch", "throw", "const", "yield", "class", "super", "return",
   "typeof", "delete", "switch", "export", "import", "default", "finally", "extends", "function",
   "continue", "debugger", "instanceof", "null", "true", "false"]

def strictWords : List String :=
  ["implements", "interface", "package", "private", "protected", "public", "static", "yield",
   "let"]

def wordToken (w : String) : Token :=
  if keywords.contains w then .keyword w else .name w

def Token.inStrict : Token → Token
  | .name w => if strictWords.contains w then .keyword w else .name w
  | t => t

/-! ### Blanks and comments -/

inductive GapMode where
  | blank
  | lineComment
  | blockComment
deriving DecidableEq

/-- Skips blanks and comments, and counts on from `lines` the lines that end in them. An arrow of
two dashes starts a comment only behind a line end (`fresh`), be it the end of a comment of two
slashes. -/
def skipGap : GapMode → (fresh : Bool) → (lines : Nat) → List Char → Option (Nat × List Char)
  | _, _, lines, [] => some (lines, [])
  | .lineComment, fresh, lines, c :: cs =>
    if endsLine c cs then skipGap .blank fresh (lines + 1) cs
    else skipGap .lineComment fresh lines cs
  | .blockComment, fresh, lines, '*' :: '/' :: cs => skipGap .blank fresh lines cs
  | .blockComment, fresh, lines, c :: cs =>
    skipGap .blockComment fresh (lines + (endsLine c cs).toNat) cs
  | .blank, _, lines, '/' :: '/' :: cs => skipGap .lineComment true lines cs
  | .blank, fresh, lines, '/' :: '*' :: cs => skipGap .blockComment fresh lines cs
  | .blank, fresh, lines, '<' :: '!' :: '-' :: '-' :: cs => skipGap .lineComment fresh lines cs
  | .blank, true, lines, '-' :: '-' :: '>' :: cs => skipGap .lineComment true lines cs
  | .blank, fresh, lines, c :: cs =>
    if isBlank c then skipGap .blank fresh lines cs
    else if isLineEnd c then skipGap .blank true (lines + (endsLine c cs).toNat) cs
    else some (lines, c :: cs)

/-! ### Escapes

An escape is read as what it stands for and the number of characters it takes. Escapes of two halves
of a surrogate pair stay two halves. -/

def hexDigits (n : Nat) (cs : List Char) : Option (Nat × Nat) :=
  let ds := cs.take n
  if ds.length = n ∧ ds.all (fun c => (hexValue? c).isSome) then some (digitsValue 16 ds, n)
  else none

def bracedHex (cs : List Char) : Option (Nat × Nat) :=
  let ds := cs.takeWhile fun c => (hexValue? c).isSome
  if (cs.drop ds.length).head? = some '\x7d' ∧ ds ≠ [] ∧ digitsValue 16 ds ≤ 0x10ffff then
    some (digitsValue 16 ds, ds.length + 1)
  else none

def unicodeEscape (cs : List Char) : Option (Nat × Nat) :=
  match cs with
  | '\x7b' :: rest => (bracedHex rest).map fun r => (r.1, r.2 + 1)
  | _ => hexDigits 4 cs

def isOctal (c : Char) : Bool :=
  '0' ≤ c && c ≤ '7'

def octalEscape (cs : List Char) : Nat × Nat :=
  let limit := match cs with
    | c :: _ => if c ≤ '3' then 3 else 2
    | [] => 0
  let ds := (cs.take limit).takeWhile isOctal
  (digitsValue 8 ds, ds.length)

def escaped (c : Char) : Char :=
  match c with
  | 'n' => '\n'
  | 'r' => '\r'
  | 't' => '\t'
  | 'b' => '\x08'
  | 'f' => '\x0c'
  | 'v' => '\x0b'
  | c => c

def pointEscape (size : Nat) (r : Nat × Nat) : List Char × Nat :=
  (Text.ofCodePoint r.1, r.2 + size)

def stringEscape : List Char → Option (List Char × Nat)
  | [] => none
  | '\r' :: '\n' :: _ => some ([], 2)
  | 'u' :: rest => (unicodeEscape rest).map (pointEscape 1)
  | 'x' :: rest => (hexDigits 2 rest).map (pointEscape 1)
  | c :: rest =>
    if isLineEnd c then some ([], 1)
    else if isOctal c then some (pointEscape 0 (octalEscape (c :: rest)))
    else some ([escaped c], 1)

def templateEscape : List Char → Option (List Char × Nat)
  | [] => none
  | '\r' :: '\n' :: _ => some ([], 2)
  | 'u' :: '\x7b' :: rest => (bracedHex rest).map (pointEscape 2)
  | 'u' :: rest => some (((hexDigits 4 rest).map (pointEscape 1)).getD (['u'], 1))
  | 'x' :: rest => (hexDigits 2 rest).map (pointEscape 1)
  | c :: rest =>
    if isLineEnd c then some ([], 1)
    else if c = '0' then
      if (rest.head?.map Char.isDigit).getD false then none else some (['\x00'], 1)
    else if isOctal c then none
    else some ([escaped c], 1)

/-! ### Strings, templates and regular expressions -/

structure Piece where
  value : String
  size : Nat
  rest : List Char

def stringTail (quote : Char) : List Char → (skip : Nat) → List Char → Nat → Option Piece
  | [], _, _, _ => none
  | _ :: cs, skip + 1, value, size => stringTail quote cs skip value (size + 1)
  | c :: cs, 0, value, size =>
    if c = '\\' then
      match stringEscape cs with
      | some (ds, n) => stringTail quote cs n (ds.reverse ++ value) (size + 1)
      | none => none
    else if c = quote then some ⟨String.ofList value.reverse, size + 1, cs⟩
    else if isLineEnd c then none
    else stringTail quote cs 0 (c :: value) (size + 1)

structure TemplatePiece where
  cooked : String
  raw : String
  tail : Bool
  rest : List Char

def templateText (cooked raw : List Char) (tail : Bool) (rest : List Char) : TemplatePiece :=
  ⟨String.ofList cooked.reverse, String.ofList raw.reverse, tail, rest⟩

def templateTail : List Char → (skip : Nat) → List Char → List Char → Option TemplatePiece
  | [], _, _, _ => none
  | c :: cs, skip + 1, cooked, raw => templateTail cs skip cooked (c :: raw)
  | c :: cs, 0, cooked, raw =>
    if c = '\x60' then some (templateText cooked raw true cs)
    else if c = '$' ∧ cs.head? = some '\x7b' then some (templateText cooked raw false (cs.drop 1))
    else if c = '\\' then
      match templateEscape cs with
      | some (ds, n) => templateTail cs n (ds.reverse ++ cooked) (c :: raw)
      | none => none
    else if c = '\r' ∧ cs.head? = some '\n' then templateTail cs 1 ('\n' :: cooked) (c :: raw)
    else if isLineEnd c then templateTail cs 0 ('\n' :: cooked) (c :: raw)
    else templateTail cs 0 (c :: cooked) (c :: raw)

def regexBody : List Char → (escaped inClass : Bool) → List Char → Option (List Char × List Char)
  | [], _, _, _ => none
  | c :: cs, escaped, inClass, body =>
    if isLineEnd c then none
    else if escaped then regexBody cs false inClass (c :: body)
    else if c = '\\' then regexBody cs true inClass (c :: body)
    else if inClass then regexBody cs false (c != ']') (c :: body)
    else if c = '/' then some (body.reverse, cs)
    else regexBody cs false (c == '[') (c :: body)

/-! ### Names and numbers -/

def nameTail : List Char → (skip : Nat) → (first : Bool) → List Char → Option (String × List Char)
  | [], _, first, name => if first then none else some (String.ofList name.reverse, [])
  | _ :: cs, skip + 1, first, name => nameTail cs skip first name
  | c :: cs, 0, first, name =>
    let fits (c : Char) : Bool := if first then isNameStart c else isNamePart c
    if c = '\\' then
      match cs with
      | 'u' :: rest =>
        match unicodeEscape rest with
        | some (u, n) =>
          if fits (Char.ofNat u) then nameTail cs (n + 1) false (Char.ofNat u :: name) else none
        | none => none
      | _ => none
    else if fits c then nameTail cs 0 false (c :: name)
    else if first then none else some (String.ofList name.reverse, c :: cs)

structure Numeral where
  value : Number
  source : List Char
  rest : List Char

def ofDigits (base : Nat) (lead ds rest : List Char) (allowed : Char → Bool) : Option Numeral :=
  if ds = [] then none
  else match rest with
    | c :: _ => if allowed c then some ⟨.ofInt (digitsValue base ds), lead ++ ds, rest⟩ else none
    | [] => some ⟨.ofInt (digitsValue base ds), lead ++ ds, rest⟩

def basedNumeral (base : Nat) (isDigit : Char → Bool) (lead cs : List Char) : Option Numeral :=
  let ds := cs.takeWhile isDigit
  ofDigits base lead ds (cs.drop ds.length) fun c =>
    !isNameStart c && c != '\\' && (base == 16 || !c.isDigit)

def exponentPart (cs : List Char) : Option (Int × List Char) :=
  match cs with
  | e :: rest =>
    if e = 'e' ∨ e = 'E' then
      let sign := rest.takeWhile fun c => c == '+' || c == '-'
      let ds := (rest.drop (sign.take 1).length).takeWhile Char.isDigit
      if ds = [] then none
      else
        let n : Int := digitsValue 10 ds
        some (if sign.head? = some '-' then -n else n, e :: sign.take 1 ++ ds)
    else some (0, [])
  | [] => some (0, [])

def decimalNumeral (cs : List Char) : Option Numeral :=
  let whole := cs.takeWhile Char.isDigit
  let rest := cs.drop whole.length
  let fraction := match rest with
    | '.' :: rest => '.' :: rest.takeWhile Char.isDigit
    | _ => []
  let rest := rest.drop fraction.length
  match exponentPart rest with
  | none => none
  | some (e, part) =>
    let rest := rest.drop part.length
    let digits := whole ++ fraction.drop 1
    let value := Number.ofDecimal (digitsValue 10 digits) (e - ((fraction.length - 1 : Nat) : Int))
    match rest with
    | c :: _ =>
      if isNameStart c || c == '\\' then none
      else some ⟨value, whole ++ fraction ++ part, rest⟩
    | [] => some ⟨value, whole ++ fraction ++ part, rest⟩

def isBareOctal (cs : List Char) : Bool :=
  match cs with
  | '0' :: c :: rest =>
    isOctal c && !(match rest.dropWhile isOctal with
      | d :: _ => d == '8' || d == '9'
      | [] => false)
  | _ => false

def numeral (cs : List Char) : Option Numeral :=
  match cs with
  | '0' :: x :: rest =>
    if x = 'x' ∨ x = 'X' then
      basedNumeral 16 (fun c => (hexValue? c).isSome) ['0', x] rest
    else if x = 'b' ∨ x = 'B' then basedNumeral 2 (fun c => c == '0' || c == '1') ['0', x] rest
    else if x = 'o' ∨ x = 'O' then basedNumeral 8 isOctal ['0', x] rest
    else if isBareOctal cs then basedNumeral 8 isOctal ['0'] (x :: rest)
    else decimalNumeral cs
  | _ => decimalNumeral cs

/-! ### Tokens -/

def punctuators : List String :=
  [">>>=", "...", "===", "!==", ">>>", "<<=", ">>=", "**=", "&&", "||", "==", "!=", "+=", "-=",
   "*=", "/=", "++", "--", "<<", ">>", "&=", "|=", "^=", "%=", "<=", ">=", "=>", "**", "\x7b",
   "\x7d", "(", ")", "[", "]", ";", ",", "<", ">", "+", "-", "*", "/", "%", "&", "|", "^", "!",
   "~", "?", ":", "=", "."]

def punctuator? (cs : List Char) : Option String :=
  punctuators.find? fun p => p.toList.isPrefixOf cs

inductive Brace where
  | block
  | substitution
deriving DecidableEq

structure Scanned where
  token : Token
  raw : String
  rest : List Char
  braces : List Brace

def bracesAfterTemplate (opens closes : Bool) (braces : List Brace) : List Brace :=
  match opens, closes with
  | true, false => .substitution :: braces
  | false, true => braces.tail
  | _, _ => braces

def bracesAfterPunct (symbol : String) (braces : List Brace) : List Brace :=
  if symbol == "\x7b" then .block :: braces
  else if symbol == "\x7d" then braces.tail
  else braces

def scan (braces : List Brace) : List Char → Option Scanned
  | [] => some ⟨.done, "", [], braces⟩
  | c :: cs =>
    if isNameStart c || c == '\\' then
      (nameTail (c :: cs) 0 true []).map fun r => ⟨wordToken r.1, "", r.2, braces⟩
    else if c.isDigit || (c == '.' && (cs.head?.map Char.isDigit).getD false) then
      (numeral (c :: cs)).map fun n =>
        ⟨.number n.value, String.ofList n.source, n.rest, braces⟩
    else if c == '"' || c == '\x27' then
      (stringTail c cs 0 [] 0).map fun p =>
        ⟨.string p.value, String.ofList (c :: cs.take p.size), p.rest, braces⟩
    else if c == '\x60' || (c == '\x7d' && braces.head? == some .substitution) then
      let opens := c == '\x60'
      (templateTail cs 0 [] []).map fun p =>
        ⟨.template p.raw p.cooked opens p.tail, p.raw, p.rest,
          bracesAfterTemplate opens p.tail braces⟩
    else
      (punctuator? (c :: cs)).map fun p =>
        ⟨.punct p, "", (c :: cs).drop p.length, bracesAfterPunct p braces⟩

/-! ### Places -/

structure Place where
  text : List Char
  line : Nat
  braces : List Brace

structure Lexeme where
  token : Token
  raw : String
  start : List Char
  line : Nat

def Place.lexeme? (p : Place) (fresh : Bool) : Option (Lexeme × Place) := do
  let (line, start) ← skipGap .blank fresh p.line p.text
  let s ← scan p.braces start
  let line := lineEnds line s.raw.toList
  return (⟨s.token, s.raw, start, line⟩, ⟨s.rest, line, s.braces⟩)

end Legible.Script
