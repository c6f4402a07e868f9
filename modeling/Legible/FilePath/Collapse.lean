import Legible.FilePath

/-!
Collapsing the path of a module: repeated slashes, inner parts `.`, and a part with `..` behind it
are left out. A part at the end is left out only if it is empty.
-/

namespace Legible.FilePath

def filterInner (keep : Part → Bool) : List Part → List Part
  | [] => []
  | p :: ps => p :: (ps.dropLast.filter keep ++ ps.getLast?.toList)

/-- Leaves out the first part that is not empty and has an inner part `..` behind it, together with
that part. -/
def dropParent? : List Part → Option (List Part)
  | p :: q :: r :: ps =>
    if !p.isEmpty && q = above then some (r :: ps)
    else (dropParent? (q :: r :: ps)).map (p :: ·)
  | _ => none

theorem dropParent?_length {ps qs : List Part} (h : dropParent? ps = some qs) :
    qs.length + 2 = ps.length := by
  fun_induction dropParent? ps generalizing qs with
  | case1 =>
    obtain rfl := Option.some.inj h
    rfl
  | case2 p q r ps _ ih =>
    obtain ⟨rs, hr, rfl⟩ := Option.map_eq_some_iff.1 h
    simpa using ih hr
  | case3 => simp at h

def dropParents (ps : List Part) : List Part :=
  match h : dropParent? ps with
  | none => ps
  | some qs =>
    have := dropParent?_length h
    dropParents qs
termination_by ps.length

def dropAbove : List Part → List Part
  | p :: q :: ps => if p = above then dropAbove (q :: ps) else p :: q :: ps
  | ps => ps

def dropFirstRun : List Part → List Part
  | p :: q :: ps => if p = above then dropAbove (q :: ps) else p :: dropFirstRun (q :: ps)
  | ps => ps

def dropFinalSlashes (cs : List Char) : List Char :=
  match cs.reverse with
  | '\n' :: '/' :: rest => (dropSlashes rest).reverse ++ ['\n']
  | rest => (dropSlashes rest).reverse

def collapsedParts (ps : List Part) : List Part :=
  match dropParents (filterInner (· != here) (filterInner (!·.isEmpty) ps)) with
  | p :: ps => p :: dropFirstRun ps
  | [] => []

def collapse (path : String) : String :=
  String.ofList (dropFinalSlashes (joined (collapsedParts (parts path.toList))))

end Legible.FilePath
