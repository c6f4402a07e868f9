import Legible.FilePath.Output
import Legible.Text.Decoding

namespace Legible

abbrev Address := List FilePath.Part

inductive Content where
  | text (s : String)
  | bytes (bs : List UInt8)
deriving DecidableEq

def Content.read : Content → Except Text.DecodingError String
  | .text s => .ok s
  | .bytes bs => .error (Text.firstFault 0 0 bs)

def Content.append (c : Content) (s : String) : Content :=
  match c with
  | .text t => .text (t ++ s)
  | .bytes bs => .bytes (bs ++ s.toUTF8.toList)

/-- Each file is at one address. All addresses on the way to a file, or to one of `directories`, are
directories. -/
structure Files where
  contents : List (Address × Content)
  directories : List Address

inductive FileError where
  | exists (path : String)
  | notDirectory (path : String)
  | isDirectory (path : String)
deriving DecidableEq

namespace FilePath

def absolute (dir path : String) : String :=
  if path.toList.head? == some '/' then path
  else String.ofList (inDirectory dir.toList path.toList)

def addressOf (path : String) : Address :=
  normalParts true (parts path.toList)

def directoryOf (path : String) : String :=
  match dropSlashesRight (withoutLastPart path.toList) with
  | [] => "/"
  | cs => String.ofList cs

end FilePath

def FileError.message : FileError → String
  | .exists path => "[Errno 17] File exists: " ++ Text.quoted path
  | .notDirectory path => "[Errno 20] Not a directory: " ++ Text.quoted path
  | .isDirectory path => "[Errno 21] Is a directory: " ++ Text.quoted path

namespace Files

open FilePath

def content? (fs : Files) (p : Address) : Option Content :=
  fs.contents.lookup p

def isFile (fs : Files) (p : Address) : Bool :=
  (fs.content? p).isSome

def isAbove (p q : Address) : Bool :=
  p.isPrefixOf q && p != q

def isDirectory (fs : Files) (p : Address) : Bool :=
  p.isEmpty || fs.directories.any p.isPrefixOf || fs.contents.any fun e => isAbove p e.1

def putContent (p : Address) (c : Content) : List (Address × Content) → List (Address × Content)
  | [] => [(p, c)]
  | e :: es => if e.1 = p then (p, c) :: es else e :: putContent p c es

def put (fs : Files) (p : Address) (c : Content) : Files :=
  { fs with contents := putContent p c fs.contents }

theorem lookup_putContent (p : Address) (c : Content) (es : List (Address × Content)) :
    (putContent p c es).lookup p = some c := by
  induction es with
  | nil => simp [putContent]
  | cons e es ih =>
    obtain ⟨q, old⟩ := e
    by_cases h : q = p
    · simp [putContent, h]
    · have h' : (p == q) = false := by simpa using Ne.symm h
      simp [putContent, h, List.lookup_cons, h', ih]

theorem lookup_putContent_of_ne {p q : Address} (h : q ≠ p) (c : Content)
    (es : List (Address × Content)) : (putContent p c es).lookup q = es.lookup q := by
  have h' : (q == p) = false := by simpa using h
  induction es with
  | nil => simp [putContent, List.lookup_cons, h']
  | cons e es ih =>
    obtain ⟨r, old⟩ := e
    by_cases hr : r = p
    · simp [putContent, hr, List.lookup_cons, h']
    · simp [putContent, hr, List.lookup_cons, ih]

theorem content?_put (fs : Files) (p : Address) (c : Content) : (fs.put p c).content? p = some c :=
  lookup_putContent p c fs.contents

theorem content?_put_of_ne (fs : Files) {p q : Address} (h : q ≠ p) (c : Content) :
    (fs.put p c).content? q = fs.content? q :=
  lookup_putContent_of_ne h c fs.contents

def append (fs : Files) (p : Address) (s : String) : Files :=
  fs.put p (((fs.content? p).getD (.text "")).append s)

def isPassable (fs : Files) (seen : List Part) : List Part → Bool
  | [] => true
  | p :: ps => fs.isDirectory seen.reverse && isPassable fs (step true seen p) ps

def leadsToFile (fs : Files) (dir path : String) : Bool :=
  let path' := absolute dir path
  !path.isEmpty && fs.isPassable [] (parts path'.toList) && fs.isFile (addressOf path')

def opened (fs : Files) (path : String) : Except FileError Files :=
  let dir := directoryOf path
  if fs.isFile (addressOf dir) then .error (.exists dir)
  else if fs.contents.any fun e => isAbove e.1 (addressOf dir) then .error (.notDirectory dir)
  else if fs.isDirectory (addressOf path) then .error (.isDirectory path)
  else .ok (fs.put (addressOf path) (.text ""))

def isWritable (fs : Files) (path : String) : Bool :=
  fs.isDirectory (addressOf (directoryOf path)) && !fs.isDirectory (addressOf path)

end Files

end Legible
