import Legible.Files
import Legible.Proofs.FilePath.Output
import Mathlib.Data.List.DropRight

namespace Legible

namespace FilePath

/-! ### Addresses of paths -/

theorem addressOf_eq (path : String) : addressOf path = (walk [] (parts path.toList)).reverse :=
  normalParts_eq _

theorem walk_append_slash (st : List Part) (cs : List Char) :
    walk st (parts (cs ++ ['/'])) = walk st (parts cs) := by
  rw [parts_append_slash, walk_append]
  exact enter_nil _

theorem walk_dropSlashesRight (st : List Part) (cs : List Char) :
    walk st (parts (dropSlashesRight cs)) = walk st (parts cs) := by
  induction cs using List.reverseRecOn with
  | nil => rfl
  | append_singleton cs c ih =>
    by_cases hc : c = '/'
    · subst hc
      rw [walk_append_slash, ← ih]
      exact congrArg (fun ds => walk st (parts ds)) (List.rdropWhile_concat_pos _ _ _ rfl)
    · exact congrArg (fun ds => walk st (parts ds))
        (List.rdropWhile_concat_neg _ _ _ (by simpa using hc))

theorem addressOf_directoryOf {path : String} {ps : List Part} {p : Part}
    (h : parts path.toList = ps ++ [p]) : addressOf (directoryOf path) = (walk [] ps).reverse := by
  have hslash : ∀ q ∈ ps ++ [p], '/' ∉ q := fun q hq => slash_notMem_of_mem_parts (h ▸ hq)
  have hdir : addressOf (directoryOf path) =
      (walk [] (parts (withoutLastPart path.toList))).reverse := by
    rw [← walk_dropSlashesRight, directoryOf]
    split
    · rename_i hnil
      rw [hnil]
      rfl
    · rw [addressOf_eq, String.toList_ofList]
  have hpath : path.toList = joined (ps ++ [p]) := by
    rw [← h, joined_parts]
  rw [hdir, hpath]
  apply congrArg List.reverse
  by_cases hps : ps = []
  · have hp : '/' ∉ p := hslash p (List.mem_append_right ps List.mem_cons_self)
    have hdrop : p.reverse.dropWhile (· != '/') = [] := by
      rw [List.dropWhile_eq_nil_iff]
      exact fun c hc => bne_iff_ne.mpr fun he => hp (he ▸ List.mem_reverse.mp hc)
    rw [hps, List.nil_append, joined, withoutLastPart, hdrop]
    rfl
  · rw [joined_append_singleton hps, withoutLastPart_append
        (hslash p (List.mem_append_right ps List.mem_cons_self)), walk_append_slash,
      parts_joined hps fun q hq => hslash q (List.mem_append_left [p] hq)]

theorem exists_parts_inDirectory (dir : List Char) :
    ∃ ps, ∀ file, parts (inDirectory dir file) = ps ++ parts file := by
  by_cases h : dir.isEmpty || dir.getLast? == some '/'
  · rw [Bool.or_eq_true, List.isEmpty_iff, beq_iff_eq] at h
    rcases h with rfl | h
    · exact ⟨[], fun file => rfl⟩
    · obtain ⟨ds, rfl⟩ := List.getLast?_eq_some_iff.mp h
      refine ⟨parts ds, fun file => ?_⟩
      rw [← parts_append_slash, inDirectory, if_pos (by simp), List.append_assoc]
      rfl
  · refine ⟨parts dir, fun file => ?_⟩
    rw [inDirectory, if_neg h, parts_append_slash]

theorem absolute_of_root {path : String} (h : path.toList.head? = some '/') (dir : String) :
    absolute dir path = path :=
  if_pos (beq_iff_eq.mpr h)

theorem absolute_of_not_root {path : String} (h : path.toList.head? ≠ some '/') (dir : String) :
    absolute dir path = String.ofList (inDirectory dir.toList path.toList) :=
  if_neg fun hc => h (beq_iff_eq.mp hc)

theorem exists_parts_absolute (dir path : String) :
    ∃ ps, parts (absolute dir path).toList = ps ++ parts path.toList := by
  by_cases h : path.toList.head? = some '/'
  · exact ⟨[], by rw [absolute_of_root h]; rfl⟩
  · obtain ⟨ps, hps⟩ := exists_parts_inDirectory dir.toList
    exact ⟨ps, by rw [absolute_of_not_root h, String.toList_ofList, hps]⟩

/-! ### Tidy paths -/

theorem mem_properParts {cs : List Char} {p : Part} :
    p ∈ properParts cs ↔ p ∈ parts cs ∧ p ≠ [] ∧ p ≠ here := by
  simp [properParts]

theorem walk_properParts (st : List Part) (cs : List Char) :
    walk st (properParts cs) = walk st (parts cs) := by
  refine walk_filter (fun p hp => ?_) st (parts cs)
  rw [Bool.and_eq_false_iff, Bool.not_eq_false', List.isEmpty_iff, bne_eq_false_iff_eq] at hp
  exact hp

theorem toList_tidy (path : String) : (tidy path).toList =
      List.replicate (leadingSlashes path.toList) '/' ++ joined (properParts path.toList) ∨
    properParts path.toList = [] ∧ leadingSlashes path.toList = 0 ∧ (tidy path).toList = here := by
  unfold tidy
  simp only
  split
  · rename_i h
    obtain ⟨hslashes, hjoined⟩ := List.append_eq_nil_iff.mp h
    right
    refine ⟨?_, (List.replicate_eq_nil_iff _).mp hslashes, String.toList_ofList⟩
    cases hps : properParts path.toList with
    | nil => rfl
    | cons p ps =>
      have hp := (mem_properParts.mp (hps ▸ List.mem_cons_self)).2.1
      rw [hps] at hjoined
      cases ps with
      | nil => exact absurd hjoined hp
      | cons q ps => exact absurd (List.append_eq_nil_iff.mp hjoined).1 hp
  · rename_i h
    left
    rw [String.toList_ofList]

theorem parts_tidy {path : String} (h : properParts path.toList ≠ []) :
    parts (tidy path).toList =
      List.replicate (leadingSlashes path.toList) [] ++ properParts path.toList := by
  rcases toList_tidy path with htidy | ⟨hnil, -⟩
  · rw [htidy, parts_replicate_append, parts_joined h fun p hp =>
      slash_notMem_of_mem_parts (mem_properParts.mp hp).1]
  · exact absurd hnil h

theorem walk_tidy (st : List Part) (path : String) :
    walk st (parts (tidy path).toList) = walk st (parts path.toList) := by
  rw [← walk_properParts st path.toList]
  by_cases h : properParts path.toList = []
  · rw [h]
    rcases toList_tidy path with htidy | ⟨-, -, htidy⟩
    · rw [htidy, h, parts_replicate_append, walk_replicate_append]
      rfl
    · rw [htidy]
      rfl
  · rw [parts_tidy h, walk_replicate_append]

theorem head?_joined_properParts (cs : List Char) : (joined (properParts cs)).head? ≠ some '/' := by
  cases hps : properParts cs with
  | nil => exact (Option.some_ne_none _).symm
  | cons p ps =>
    obtain ⟨hp, hne, -⟩ := mem_properParts.mp (hps ▸ List.mem_cons_self)
    have hslash := slash_notMem_of_mem_parts hp
    obtain ⟨c, ds, rfl⟩ := List.exists_cons_of_ne_nil hne
    rw [List.mem_cons, not_or] at hslash
    rw [joined_cons_append]
    exact fun h => hslash.1 (Option.some.inj h).symm

theorem head?_tidy (path : String) :
    (tidy path).toList.head? = some '/' ↔ path.toList.head? = some '/' := by
  constructor
  · intro h
    by_contra hno
    have hzero : leadingSlashes path.toList = 0 := by
      cases hcs : path.toList with
      | nil => rfl
      | cons c cs =>
        have hc : c ≠ '/' := fun hc => hno (by rw [hcs, hc]; rfl)
        rw [leadingSlashes, List.takeWhile_cons_of_neg (by simpa using hc)]
        rfl
    rcases toList_tidy path with htidy | ⟨-, -, htidy⟩
    · rw [htidy, hzero] at h
      exact head?_joined_properParts _ h
    · rw [htidy] at h
      cases h
  · intro h
    have hslashes := leadingSlashes_cases h
    rcases toList_tidy path with htidy | ⟨-, hzero, -⟩
    · rw [htidy]
      rcases hslashes with hn | hn <;> rw [hn] <;> rfl
    · omega

theorem addressOf_absolute_tidy (dir path : String) :
    addressOf (absolute dir (tidy path)) = addressOf (absolute dir path) := by
  rw [addressOf_eq, addressOf_eq]
  by_cases h : path.toList.head? = some '/'
  · rw [absolute_of_root h, absolute_of_root ((head?_tidy path).mpr h), walk_tidy]
  · have h' : (tidy path).toList.head? ≠ some '/' := fun hc => h ((head?_tidy path).mp hc)
    rw [absolute_of_not_root h, absolute_of_not_root h', String.toList_ofList,
      String.toList_ofList, walk_inDirectory, walk_inDirectory, walk_tidy]

theorem exists_parts_tidy {path : String} {ps : List Part} {p : Part}
    (h : parts path.toList = ps ++ [p]) (hp : IsName p) :
    ∃ qs, parts (tidy path).toList = qs ++ [p] := by
  have hproper : ∃ qs, properParts path.toList = qs ++ [p] := by
    refine ⟨ps.filter fun q => !q.isEmpty && q != here, ?_⟩
    rw [properParts, h, List.filter_append, List.filter_cons_of_pos, List.filter_nil]
    simpa using hp.ne.imp_right And.left
  obtain ⟨qs, hqs⟩ := hproper
  refine ⟨List.replicate (leadingSlashes path.toList) [] ++ qs, ?_⟩
  rw [parts_tidy (hqs ▸ List.append_ne_nil_of_right_ne_nil qs (List.cons_ne_nil p [])), hqs,
    List.append_assoc]

end FilePath

open FilePath

namespace Files

def Proper (fs : Files) : Prop := ∀ a, fs.isFile a = true → fs.isDirectory a = false

/-- A file can stand here: there is no directory, and all addresses on the way are directories. -/
structure Fits (fs : Files) (a : Address) : Prop where
  free : fs.isDirectory a = false
  above : ∀ b, b <+: a → b ≠ a → fs.isDirectory b = true

structure Grows (fs gs : Files) : Prop where
  isDirectory_eq : ∀ a, gs.isDirectory a = fs.isDirectory a
  proper : gs.Proper

variable {fs gs : Files} {a b : Address}

theorem isFile_iff_mem : fs.isFile a = true ↔ a ∈ fs.contents.map (·.1) := by
  rw [isFile, content?]
  induction fs.contents with
  | nil => simp
  | cons e es ih =>
    rw [List.lookup_cons, List.map_cons, List.mem_cons, ← ih]
    by_cases h : a = e.1
    · simp [h]
    · have h' : (a == e.1) = false := by simpa using h
      simp [h, h']

theorem isDirectory_iff : fs.isDirectory a = true ↔ a = [] ∨ (∃ d ∈ fs.directories, a <+: d) ∨
    ∃ b, fs.isFile b = true ∧ a <+: b ∧ a ≠ b := by
  simp only [isFile_iff_mem]
  simp [isDirectory, isAbove, or_assoc]

theorem isDirectory_above (h : fs.isDirectory b = true) (hab : a <+: b) :
    fs.isDirectory a = true := by
  rw [isDirectory_iff] at h ⊢
  rcases h with rfl | ⟨d, hd, hbd⟩ | ⟨e, he, hbe, hne⟩
  · exact Or.inl (List.prefix_nil.mp hab)
  · exact Or.inr (Or.inl ⟨d, hd, hab.trans hbd⟩)
  · refine Or.inr (Or.inr ⟨e, he, hab.trans hbe, ?_⟩)
    rintro rfl
    exact hne (hbe.eq_of_length (le_antisymm hbe.length_le hab.length_le))

theorem Proper.fits (h : fs.Proper) (ha : fs.isFile a = true) : fs.Fits a :=
  ⟨h a ha, fun _ hab hne => isDirectory_iff.mpr (Or.inr (Or.inr ⟨a, ha, hab, hne⟩))⟩

/-! ### Putting a file where it fits -/

theorem isFile_put {c : Content} :
    (fs.put a c).isFile b = true ↔ b = a ∨ fs.isFile b = true := by
  by_cases h : b = a
  · rw [isFile, h, content?_put]
    simp
  · rw [isFile, content?_put_of_ne _ h, ← isFile]
    simp [h]

theorem isDirectory_put (h : fs.Fits a) (c : Content) (b : Address) :
    (fs.put a c).isDirectory b = fs.isDirectory b := by
  rw [Bool.eq_iff_iff]
  constructor
  · intro hb
    rw [isDirectory_iff] at hb
    rcases hb with hb | hb | ⟨e, he, hbe, hne⟩
    · exact isDirectory_iff.mpr (Or.inl hb)
    · exact isDirectory_iff.mpr (Or.inr (Or.inl hb))
    · rcases isFile_put.mp he with rfl | he
      · exact h.above b hbe hne
      · exact isDirectory_iff.mpr (Or.inr (Or.inr ⟨e, he, hbe, hne⟩))
  · intro hb
    rw [isDirectory_iff] at hb ⊢
    exact hb.imp_right (Or.imp_right fun ⟨e, he, hbe⟩ => ⟨e, isFile_put.mpr (Or.inr he), hbe⟩)

namespace Grows

theorem refl (h : fs.Proper) : Grows fs fs := ⟨fun _ => rfl, h⟩

variable (h : Grows fs gs)

include h

theorem fits (ha : fs.Fits a) : gs.Fits a where
  free := (h.isDirectory_eq a).trans ha.free
  above b hb hne := (h.isDirectory_eq b).trans (ha.above b hb hne)

theorem put (ha : fs.Fits a) (c : Content) : Grows fs (gs.put a c) where
  isDirectory_eq b := (isDirectory_put (h.fits ha) c b).trans (h.isDirectory_eq b)
  proper b hb := by
    rw [isDirectory_put (h.fits ha)]
    rcases isFile_put.mp hb with rfl | hb
    · exact (h.fits ha).free
    · exact h.proper b hb

end Grows

/-! ### Paths that lead to a file -/

theorem isDirectory_of_not_name {st ps : List Part} {p : Part}
    (hdir : fs.isDirectory (walk st ps).reverse = true) (hp : ¬ IsName p) :
    fs.isDirectory (walk st (ps ++ [p])).reverse = true := by
  rw [walk_append, walk_cons, walk_nil, enter]
  split_ifs with hskip habove
  · exact hdir
  · refine isDirectory_above hdir ?_
    rw [← List.dropLast_reverse]
    exact List.dropLast_prefix _
  · exact absurd ⟨not_or.mp hskip, habove⟩ hp

theorem addressOf_eq_append {path : String} {ps : List Part} {p : Part}
    (hparts : parts path.toList = ps ++ [p]) (hp : IsName p) :
    addressOf path = addressOf (directoryOf path) ++ [p] := by
  rw [addressOf_eq, addressOf_directoryOf hparts, hparts, walk_append, walk_cons, walk_nil,
    enter_name hp, List.reverse_cons]

theorem fits_of_isWritable {path : String} (h : fs.isWritable path = true) :
    fs.Fits (addressOf path) := by
  rw [isWritable, Bool.and_eq_true, Bool.not_eq_true'] at h
  obtain ⟨hdir, hfree⟩ := h
  obtain ⟨ps, p, hparts⟩ :=
    (List.eq_nil_or_concat' (parts path.toList)).resolve_left (parts_ne_nil path.toList)
  have hp : IsName p := by
    by_contra hp
    rw [addressOf_directoryOf hparts] at hdir
    have hlast := isDirectory_of_not_name hdir hp
    rw [← hparts, ← addressOf_eq, hfree] at hlast
    exact Bool.false_ne_true hlast
  have haddress := addressOf_eq_append hparts hp
  refine ⟨hfree, fun b hb hne => isDirectory_above hdir ?_⟩
  rw [haddress] at hb hne
  exact (List.prefix_concat_iff.mp hb).resolve_left hne

theorem opened_of_fits (h : fs.Proper) {path : String} {ps : List Part} {p : Part}
    (hparts : parts path.toList = ps ++ [p]) (hp : IsName p) (hfits : fs.Fits (addressOf path)) :
    fs.opened path = .ok (fs.put (addressOf path) (.text "")) := by
  have haddress := addressOf_eq_append hparts hp
  have hdir : fs.isDirectory (addressOf (directoryOf path)) = true := by
    refine hfits.above _ ⟨[p], haddress.symm⟩ ?_
    rw [haddress]
    simp
  unfold opened
  rw [if_neg, if_neg, if_neg]
  · exact fun hc => Bool.false_ne_true (hfits.free.symm.trans hc)
  · -- A file on the way to the directory would be at the address of a directory.
    rw [List.any_eq_true]
    rintro ⟨e, he, hbelow⟩
    have hfile : fs.isFile e.1 = true := isFile_iff_mem.mpr (List.mem_map_of_mem he)
    rw [isAbove, Bool.and_eq_true, List.isPrefixOf_iff_prefix] at hbelow
    exact Bool.false_ne_true ((h _ hfile).symm.trans (isDirectory_above hdir hbelow.1))
  · exact fun hc => Bool.false_ne_true ((h _ hc).symm.trans hdir)

theorem eq_put_of_opened {path : String} (h : fs.opened path = .ok gs) :
    gs = fs.put (addressOf path) (.text "") := by
  simp only [opened] at h
  split_ifs at h
  exact (Except.ok.inj h).symm

theorem isDirectory_of_isPassable {st ps : List Part} {p : Part} (hst : ∀ q ∈ st, q ≠ above)
    (h : fs.isPassable st (ps ++ [p]) = true) : fs.isDirectory (walk st ps).reverse = true := by
  induction ps generalizing st with
  | nil =>
    rw [List.nil_append, isPassable, Bool.and_eq_true] at h
    exact h.1
  | cons q ps ih =>
    rw [List.cons_append, isPassable, Bool.and_eq_true, step_eq_enter hst] at h
    exact ih (forall_enter hst fun hq => hq.2) h.2

theorem exists_name_of_leadsToFile (h : fs.Proper) {dir path : String}
    (hpath : fs.leadsToFile dir path = true) :
    fs.isFile (addressOf (absolute dir path)) = true ∧
      ∃ ps p, parts path.toList = ps ++ [p] ∧ IsName p := by
  rw [leadsToFile, Bool.and_eq_true, Bool.and_eq_true] at hpath
  obtain ⟨⟨-, hpass⟩, hfile⟩ := hpath
  refine ⟨hfile, ?_⟩
  obtain ⟨ps, p, hps⟩ :=
    (List.eq_nil_or_concat' (parts path.toList)).resolve_left (parts_ne_nil path.toList)
  obtain ⟨qs, hqs⟩ := exists_parts_absolute dir path
  rw [hps, ← List.append_assoc] at hqs
  rw [hqs] at hpass
  have hdir := isDirectory_of_isPassable (List.forall_mem_nil _) hpass
  refine ⟨ps, p, hps, by_contra fun hp => ?_⟩
  have hlast := isDirectory_of_not_name hdir hp
  rw [← hqs, ← addressOf_eq, h _ hfile] at hlast
  exact Bool.false_ne_true hlast

theorem opened_of_leadsToFile (h : fs.Proper) {dir path : String}
    (hpath : fs.leadsToFile dir path = true) (hgrows : Grows fs gs) :
    gs.opened (absolute dir (tidy path)) =
      .ok (gs.put (addressOf (absolute dir path)) (.text "")) := by
  obtain ⟨hfile, ps, p, hps, hp⟩ := exists_name_of_leadsToFile h hpath
  obtain ⟨qs, hqs⟩ := exists_parts_tidy hps hp
  obtain ⟨rs, hrs⟩ := exists_parts_absolute dir (tidy path)
  rw [hqs, ← List.append_assoc] at hrs
  have hfits := hgrows.fits (h.fits hfile)
  rw [← addressOf_absolute_tidy] at hfits ⊢
  exact opened_of_fits hgrows.proper hrs hp hfits

end Files

end Legible
