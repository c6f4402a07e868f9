import Legible.FilePath.Output
import Legible.Proofs.FilePath.Collapse

namespace Legible.FilePath

theorem IsName.ne {p : Part} (h : IsName p) : p ≠ [] ∧ p ≠ here ∧ p ≠ above :=
  ⟨h.1.1, h.1.2, h.2⟩

theorem forall_enter {P : Part → Prop} {st : List Part} {p : Part} (hst : ∀ q ∈ st, P q)
    (hp : IsName p → P p) : ∀ q ∈ enter st p, P q := by
  rw [enter]
  split_ifs with hskip habove
  · exact hst
  · exact fun q hq => hst q (List.mem_of_mem_tail hq)
  · rw [List.forall_mem_cons]
    exact ⟨hp ⟨not_or.mp hskip, habove⟩, hst⟩

theorem isPart_walk {st ps : List Part} (hst : ∀ p ∈ st, IsPart p) (hps : ∀ p ∈ ps, '/' ∉ p) :
    ∀ p ∈ walk st ps, IsPart p := by
  induction ps generalizing st with
  | nil => exact hst
  | cons p ps ih =>
    rw [List.forall_mem_cons] at hps
    apply ih _ hps.2
    exact forall_enter hst fun hp => ⟨hp, hps.1⟩

theorem isPart_walk_parts {st : List Part} (hst : ∀ p ∈ st, IsPart p) (cs : List Char) :
    ∀ p ∈ walk st (parts cs), IsPart p :=
  isPart_walk hst fun _ => slash_notMem_of_mem_parts

theorem walk_dropSlashes (st : List Part) (cs : List Char) :
    walk st (parts (dropSlashes cs)) = walk st (parts cs) := by
  induction cs with
  | nil => rfl
  | cons c cs ih =>
    by_cases hc : c = '/'
    · rw [hc, parts_cons_slash, walk_cons, enter_nil, ← ih]
      simp [dropSlashes]
    · simp [dropSlashes, hc]

/-! ### Normal forms -/

theorem step_eq_enter {st : List Part} (hst : ∀ p ∈ st, p ≠ above) (p : Part) :
    step true st p = enter st p := by
  unfold step enter
  simp only [Bool.or_eq_true, List.isEmpty_iff, decide_eq_true_iff]
  split
  · rfl
  · cases st with
    | nil => rfl
    | cons q st => simp [hst q List.mem_cons_self]

theorem foldl_step {st ps : List Part} (hst : ∀ p ∈ st, p ≠ above) :
    ps.foldl (step true) st = walk st ps := by
  induction ps generalizing st with
  | nil => rfl
  | cons p ps ih =>
    rw [List.foldl_cons, step_eq_enter hst, walk_cons]
    apply ih
    exact forall_enter hst fun hp => hp.2

theorem normalParts_eq (ps : List Part) : normalParts true ps = (walk [] ps).reverse := by
  rw [normalParts, foldl_step]
  simp

def located (slashes : Nat) (ps : List Part) : List Char :=
  List.replicate slashes '/' ++ joined ps

def components (cs : List Char) : List Part :=
  (parts cs).filter (!·.isEmpty)

theorem parts_replicate_append (n : Nat) (cs : List Char) :
    parts (List.replicate n '/' ++ cs) = List.replicate n [] ++ parts cs := by
  induction n with
  | zero => rfl
  | succ n ih => simp only [List.replicate_succ, List.cons_append, parts_cons_slash, ih]

theorem walk_replicate_append (st : List Part) (n : Nat) (ps : List Part) :
    walk st (List.replicate n [] ++ ps) = walk st ps := by
  induction n with
  | zero => rfl
  | succ n ih => simp only [List.replicate_succ, List.cons_append, walk_cons, enter_nil, ih]

section

variable {n : Nat} {ps qs : List Part} (h : ∀ p ∈ ps, IsPart p)

include h

theorem walk_parts_joined (st : List Part) : walk st (parts (joined ps)) = ps.reverse ++ st := by
  cases ps with
  | nil => simp [joined, parts]
  | cons p ps =>
    rw [parts_joined (List.cons_ne_nil p ps) fun q hq => (h q hq).2,
      walk_names fun q hq => (h q hq).1]

theorem walk_located (st : List Part) : walk st (parts (located n ps)) = ps.reverse ++ st := by
  rw [located, parts_replicate_append, walk_replicate_append, walk_parts_joined h]

theorem filter_parts_located {keep : Part → Bool} (hkeep : ∀ p, IsName p → keep p = true)
    (hnil : keep [] = false) : (parts (located n ps)).filter keep = ps := by
  rw [located, parts_replicate_append, List.filter_append,
    List.filter_replicate_of_neg (by simp [hnil]), List.nil_append]
  cases ps with
  | nil => simp [joined, parts, hnil]
  | cons p ps =>
    rw [parts_joined (List.cons_ne_nil p ps) fun q hq => (h q hq).2, List.filter_eq_self]
    exact fun q hq => hkeep q (h q hq).1

theorem components_located : components (located n ps) = ps := by
  apply filter_parts_located h
  · intro p hp
    simpa using hp.ne.1
  · rfl

theorem properParts_located : properParts (located n ps) = ps := by
  apply filter_parts_located h
  · intro p hp
    simpa using ⟨hp.ne.1, hp.ne.2.1⟩
  · rfl

theorem takeWhile_located : (located n ps).takeWhile (· == '/') = List.replicate n '/' := by
  have hfirst : (joined ps).takeWhile (· == '/') = [] := by
    cases ps with
    | nil => rfl
    | cons p ps =>
      obtain ⟨hname, hslash⟩ := h p List.mem_cons_self
      obtain ⟨c, cs, rfl⟩ := List.exists_cons_of_ne_nil hname.ne.1
      have hc : c ≠ '/' := fun hc => hslash (hc ▸ List.mem_cons_self)
      cases ps with
      | nil => simp [joined, hc]
      | cons q ps => simp [joined, hc]
  rw [located, List.takeWhile_append_of_pos (by simp), hfirst, List.append_nil]

theorem leadingSlashes_located (hn : n = 1 ∨ n = 2) : leadingSlashes (located n ps) = n := by
  rw [leadingSlashes, takeWhile_located h, List.length_replicate]
  rcases hn with rfl | rfl <;> rfl

end

theorem located_injective {n m : Nat} {ps qs : List Part} (hp : ∀ p ∈ ps, IsPart p)
    (hq : ∀ p ∈ qs, IsPart p) (h : located n ps = located m qs) : n = m ∧ ps = qs := by
  constructor
  · have hslashes := congrArg (fun cs => (cs.takeWhile (· == '/')).length) h
    simpa [takeWhile_located hp, takeWhile_located hq] using hslashes
  · rw [← components_located (n := n) hp, h, components_located hq]

theorem normal_eq {cs : List Char} (h : leadingSlashes cs ≠ 0) :
    normal cs = located (leadingSlashes cs) (walk [] (parts cs)).reverse := by
  obtain ⟨n, hn⟩ := Nat.exists_eq_succ_of_ne_zero h
  have habs : (leadingSlashes cs != 0) = true := bne_iff_ne.mpr h
  simp only [normal, habs, normalParts_eq]
  rw [located, hn, Nat.succ_eq_add_one, List.replicate_succ, List.cons_append]

theorem leadingSlashes_cases {cs : List Char} (h : cs.head? = some '/') :
    leadingSlashes cs = 1 ∨ leadingSlashes cs = 2 := by
  obtain ⟨cs, rfl⟩ := List.head?_eq_some_iff.mp h
  rw [leadingSlashes, List.takeWhile_cons_of_pos rfl, List.length_cons]
  split
  · omega
  · exact Or.inr rfl
  · exact Or.inl rfl

theorem exists_located {cs : List Char} (h : cs.head? = some '/') :
    ∃ n ps, (n = 1 ∨ n = 2) ∧ (∀ p ∈ ps, IsPart p) ∧ normal cs = located n ps := by
  have hn := leadingSlashes_cases h
  refine ⟨leadingSlashes cs, _, hn, fun p hp => ?_, normal_eq (by omega)⟩
  exact isPart_walk_parts (by simp) cs p (List.mem_reverse.mp hp)

theorem normal_located {n : Nat} {ps : List Part} (hn : n = 1 ∨ n = 2) (h : ∀ p ∈ ps, IsPart p) :
    normal (located n ps) = located n ps := by
  have hs := leadingSlashes_located h hn
  rw [normal_eq (by omega), hs, walk_located h, List.append_nil, List.reverse_reverse]

/-! ### The file for a name -/

theorem walk_inDirectory (st : List Part) (dir file : List Char) :
    walk st (parts (inDirectory dir file)) = walk (walk st (parts dir)) (parts file) := by
  rw [inDirectory]
  split_ifs with h
  · rw [Bool.or_eq_true, List.isEmpty_iff, beq_iff_eq] at h
    rcases h with rfl | h
    · simp [parts]
    · obtain ⟨dir, rfl⟩ := List.getLast?_eq_some_iff.mp h
      simp only [List.append_assoc, List.singleton_append, parts_append_slash, walk_append]
      simp [parts]
  · rw [parts_append_slash, walk_append]

theorem leadingSlashes_inDirectory {n : Nat} {ps : List Part} (hn : n = 1 ∨ n = 2)
    (h : ∀ p ∈ ps, IsPart p) (name : List Char) :
    leadingSlashes (inDirectory (located n ps) (dropSlashes name)) = n := by
  have htake : ((inDirectory (located n ps) (dropSlashes name)).takeWhile (· == '/')).length = n := by
    cases ps with
    | nil =>
      have hdir : inDirectory (located n []) (dropSlashes name) =
          List.replicate n '/' ++ dropSlashes name := by
        rcases hn with rfl | rfl <;> rfl
      have hname : (dropSlashes name).takeWhile (· == '/') = [] := by
        have hno := not_slash_prefix_dropSlashes name
        cases hd : dropSlashes name with
        | nil => rfl
        | cons c cs =>
          rw [hd, List.cons_prefix_cons] at hno
          have hc : c ≠ '/' := fun hc => hno ⟨hc.symm, List.nil_prefix⟩
          exact List.takeWhile_cons_of_neg (by simpa using hc)
      rw [hdir, List.takeWhile_append_of_pos (by simp), hname, List.append_nil,
        List.length_replicate]
    | cons p ps =>
      obtain ⟨rest, hrest⟩ : ∃ rest, inDirectory (located n (p :: ps)) (dropSlashes name) =
          located n (p :: ps) ++ rest := by
        rw [inDirectory]
        split_ifs <;> exact ⟨_, rfl⟩
      have hne : joined (p :: ps) ≠ [] := by
        intro hnil
        have heq : located n (p :: ps) = located n [] := congrArg (List.replicate n '/' ++ ·) hnil
        cases (located_injective h (by simp) heq).2
      rw [hrest, List.takeWhile_append, takeWhile_located h, if_neg, List.length_replicate]
      simpa [located] using hne
  rw [leadingSlashes, htake]
  rcases hn with rfl | rfl <;> rfl

theorem normal_inDirectory {n : Nat} {ps : List Part} (hn : n = 1 ∨ n = 2)
    (h : ∀ p ∈ ps, IsPart p) (name : List Char) :
    normal (inDirectory (located n ps) (dropSlashes name)) =
      located n (walk ps.reverse (parts name)).reverse := by
  have hs := leadingSlashes_inDirectory hn h name
  rw [normal_eq (by omega), hs, walk_inDirectory, walk_located h, List.append_nil, walk_dropSlashes]

/-! ### Endings -/

def ending : Part := ['.', 'j', 's']

def finished : List Part → List Part
  | [] => [ending]
  | p :: st => (if p.contains '.' then p else p ++ ending) :: st

theorem isPart_append_ending {p : Part} (h : '/' ∉ p) : IsPart (p ++ ending) := by
  refine ⟨⟨⟨by simp [ending], ?_⟩, ?_⟩, by simpa [ending] using h⟩
  · intro he
    have hlength := congrArg List.length he
    simp [ending, here] at hlength
  · intro he
    have hlength := congrArg List.length he
    simp [ending, above] at hlength

theorem isPart_finished {st : List Part} (h : ∀ p ∈ st, IsPart p) : ∀ p ∈ finished st, IsPart p := by
  cases st with
  | nil =>
    intro p hp
    rw [List.mem_singleton.mp hp]
    exact isPart_append_ending (p := []) (by simp)
  | cons p st =>
    rw [List.forall_mem_cons] at h
    rw [finished, List.forall_mem_cons]
    refine ⟨?_, h.2⟩
    split_ifs with hp
    · exact h.1
    · exact isPart_append_ending h.1.2

theorem withEnding_append_slash {as : List Char} {p : Part} (h : '/' ∉ p) :
    withEnding (as ++ '/' :: p) = as ++ '/' :: if p.contains '.' then p else p ++ ending := by
  rw [withEnding, lastPart_append h]
  split_ifs
  · rfl
  · simp [ending]

theorem exists_located_eq {n : Nat} (hn : n ≠ 0) (ps : List Part) :
    ∃ as, ∀ p, located n (ps ++ [p]) = as ++ '/' :: p := by
  obtain ⟨m, rfl⟩ := Nat.exists_eq_succ_of_ne_zero hn
  cases ps with
  | nil =>
    refine ⟨List.replicate m '/', fun p => ?_⟩
    simp [located, joined, List.replicate_succ']
  | cons q ps =>
    refine ⟨located (m + 1) (q :: ps), fun p => ?_⟩
    rw [located, joined_append_singleton (List.cons_ne_nil q ps), located, List.append_assoc]

theorem withEnding_located {n : Nat} {st : List Part} (hn : n ≠ 0) (h : ∀ p ∈ st, IsPart p) :
    withEnding (located n st.reverse) = located n (finished st).reverse := by
  cases st with
  | nil =>
    -- The root has an empty part at the end.
    obtain ⟨as, has⟩ := exists_located_eq hn []
    have hroot := has []
    have hfile := has ending
    have hending : withEnding (as ++ ['/']) = as ++ '/' :: ending :=
      withEnding_append_slash List.not_mem_nil
    rw [← hroot] at hending
    exact hending.trans hfile.symm
  | cons p st =>
    obtain ⟨as, has⟩ := exists_located_eq hn st.reverse
    rw [finished, List.reverse_cons, List.reverse_cons, has, has,
      withEnding_append_slash (h p List.mem_cons_self).2]

theorem commonPrefix_eq_left_iff {ps qs : List Part} : commonPrefix ps qs = ps ↔ ps <+: qs := by
  induction ps generalizing qs with
  | nil => simp [commonPrefix]
  | cons p ps ih =>
    cases qs with
    | nil => simp [commonPrefix]
    | cons q qs =>
      rw [commonPrefix, List.cons_prefix_cons]
      split_ifs with h
      · simp [h, ih]
      · simp [h]

theorem commonPrefix_start (ps qs : List Part) : commonPrefix ps qs <+: ps := by
  induction ps generalizing qs with
  | nil => simp [commonPrefix]
  | cons p ps ih =>
    cases qs with
    | nil => simp [commonPrefix]
    | cons q qs =>
      rw [commonPrefix]
      split_ifs
      · exact (List.prefix_cons_inj p).mpr (ih qs)
      · exact List.nil_prefix

theorem common_located_iff {n : Nat} {ps qs : List Part} (hp : ∀ p ∈ ps, IsPart p)
    (hq : ∀ p ∈ qs, IsPart p) :
    common (located n ps) (located n qs) = located n ps ↔ n = 1 ∧ ps <+: qs := by
  have hsub : ∀ p ∈ commonPrefix ps qs, IsPart p := fun p hm =>
    hp p ((commonPrefix_start ps qs).subset hm)
  have hcommon : common (located n ps) (located n qs) = located 1 (commonPrefix ps qs) := by
    rw [common, properParts_located hp, properParts_located hq]
    rfl
  rw [hcommon, ← commonPrefix_eq_left_iff]
  constructor
  · intro h
    obtain ⟨hn, he⟩ := located_injective hsub hp h
    exact ⟨hn.symm, he⟩
  · rintro ⟨rfl, he⟩
    rw [he]

theorem output_eq {target : String} {n : Nat} {ps : List Part} (hn : n = 1 ∨ n = 2)
    (hps : ∀ p ∈ ps, IsPart p) (h : normal target.toList = located n ps) (name : String) :
    let file := (finished (walk ps.reverse (parts name.toList))).reverse
    output target name =
      if n = 1 ∧ ps <+: file ∧ file ≠ ps then .ok (String.ofList (located n file))
      else .error ⟨String.ofList (located n file)⟩ := by
  intro file
  have hreverse : ∀ p ∈ ps.reverse, IsPart p := by simpa using hps
  have hwalk := isPart_walk_parts hreverse name.toList
  have hfile : ∀ p ∈ file, IsPart p := by
    simpa [file] using isPart_finished hwalk
  have hpath : withEnding (normal (inDirectory (located n ps) (dropSlashes name.toList))) =
      located n file := by
    rw [normal_inDirectory hn hps, withEnding_located (by omega) hwalk]
  clear_value file
  have hne : located n file = located n ps ↔ file = ps :=
    ⟨fun he => (located_injective hfile hps he).2, fun he => he ▸ rfl⟩
  have hguard : (common (located n ps) (located n file) != located n ps ||
      located n file == located n ps) = true ↔ ¬ (n = 1 ∧ ps <+: file ∧ file ≠ ps) := by
    rw [Bool.or_eq_true, bne_iff_ne, beq_iff_eq, Ne, common_located_iff hps hfile, hne, ← and_assoc]
    exact or_iff_not_and_not.trans (not_congr (and_congr_left' not_not))
  simp only [output, h, hpath, hguard, ite_not]

/-! ### Below the target -/

def Below (dir path : List Char) : Prop :=
  ∃ ps ≠ [], components path = components dir ++ ps

theorem exists_finished (st : List Part) : ∃ p, '.' ∈ p ∧ finished st = p :: st.tail := by
  cases st with
  | nil => exact ⟨ending, by decide, rfl⟩
  | cons p st =>
    refine ⟨_, ?_, rfl⟩
    split_ifs with h
    · simpa using h
    · simp [ending]

theorem prefix_concat_ne_iff {ps qs : List Part} {q : Part} :
    ps <+: qs ++ [q] ∧ qs ++ [q] ≠ ps ↔ ps <+: qs := by
  rw [List.prefix_concat_iff]
  constructor
  · rintro ⟨he | hp, hne⟩
    · exact absurd he.symm hne
    · exact hp
  · intro hp
    refine ⟨Or.inr hp, fun he => ?_⟩
    have hlength := hp.length_le
    rw [← he, List.length_append, List.length_singleton] at hlength
    omega

theorem prefix_finished_iff {ps st : List Part} :
    ps <+: (finished st).reverse ∧ (finished st).reverse ≠ ps ↔
      (∃ qs ≠ [], st.reverse = ps ++ qs) ∨ ps = [] := by
  obtain ⟨p, -, hp⟩ := exists_finished st
  rw [hp, List.reverse_cons, prefix_concat_ne_iff]
  cases st with
  | nil =>
    rw [List.tail_nil, List.reverse_nil, List.prefix_nil]
    refine (or_iff_right ?_).symm
    rintro ⟨qs, hqs, he⟩
    exact hqs (List.append_eq_nil_iff.mp he.symm).2
  | cons q st =>
    rw [List.tail_cons, List.reverse_cons]
    constructor
    · rintro ⟨qs, he⟩
      exact Or.inl ⟨qs ++ [q], by simp, by rw [← he, List.append_assoc]⟩
    · rintro (⟨qs, hqs, he⟩ | rfl)
      · rw [← List.dropLast_append_getLast hqs, ← List.append_assoc] at he
        exact ⟨_, (List.append_inj_left' he rfl).symm⟩
      · exact List.nil_prefix

/-- A file is written below the target directory, unless its name leads out of it or to the target
itself. In the topmost directory no name does. -/
theorem output_below {target : String} (h : target.toList.head? = some '/') (name : String) :
    let dir := normal target.toList
    let path := normal (inDirectory dir (dropSlashes name.toList))
    (∀ file, output target name = .ok file → file = String.ofList (withEnding path) ∧
      normal file.toList = file.toList ∧
      (∃ ps last, components file.toList = components dir ++ ps ++ [last] ∧ '.' ∈ last) ∧
      ∀ p ∈ components file.toList, p ≠ here ∧ p ≠ above) ∧
    (leadingSlashes dir ≠ 2 →
      ((∃ file, output target name = .ok file) ↔ Below dir path ∨ dir = ['/']) ∧
      (¬ (Below dir path ∨ dir = ['/']) →
        output target name = .error ⟨String.ofList (withEnding path)⟩)) := by
  intro dir path
  obtain ⟨n, ps, hn, hps, hdir⟩ := exists_located h
  have houtput := output_eq hn hps hdir name
  have hreverse : ∀ p ∈ ps.reverse, IsPart p := by simpa using hps
  have hwalk := isPart_walk_parts hreverse name.toList
  have hpath : path = located n (walk ps.reverse (parts name.toList)).reverse := by
    rw [← normal_inDirectory hn hps, ← hdir]
  have hending : withEnding path =
      located n (finished (walk ps.reverse (parts name.toList))).reverse := by
    rw [hpath, withEnding_located (by omega) hwalk]
  have hfinished := isPart_finished hwalk
  have hdir : dir = located n ps := hdir
  clear_value dir path
  generalize walk ps.reverse (parts name.toList) = st at *
  have hfile : ∀ p ∈ (finished st).reverse, IsPart p := by
    simpa using hfinished
  constructor
  · intro file hok
    rw [houtput] at hok
    split_ifs at hok with hguard
    obtain rfl := Except.ok.inj hok
    rw [String.toList_ofList, hending, normal_located hn hfile, components_located hfile, hdir,
      components_located hps]
    refine ⟨rfl, rfl, ?_, fun p hp => (hfile p hp).1.ne.2⟩
    obtain ⟨last, hdot, hlast⟩ := exists_finished st
    rw [hlast, List.reverse_cons, prefix_concat_ne_iff] at hguard
    obtain ⟨-, qs, hqs⟩ := hguard
    exact ⟨qs, last, by rw [hlast, List.reverse_cons, ← hqs], hdot⟩
  · intro hslashes
    rw [hdir, leadingSlashes_located hps hn] at hslashes
    obtain rfl := hn.resolve_right hslashes
    have hbelow : Below dir path ∨ dir = ['/'] ↔
        ps <+: (finished st).reverse ∧ (finished st).reverse ≠ ps := by
      have hroot : dir = ['/'] ↔ ps = [] := by
        have htop : ['/'] = located 1 [] := rfl
        rw [hdir, htop]
        exact ⟨fun he => (located_injective hps (by simp) he).2, fun he => he ▸ rfl⟩
      rw [prefix_finished_iff, Below, hpath, hroot, hdir, components_located hps,
        components_located (by simpa using hwalk)]
    rw [hbelow, houtput, hending]
    constructor
    · constructor
      · rintro ⟨file, hok⟩
        split_ifs at hok with hguard
        exact hguard.2
      · intro hguard
        exact ⟨_, if_pos ⟨rfl, hguard⟩⟩
    · intro hguard
      exact if_neg fun hc => hguard hc.2

theorem output_below_back :
    "/a//b/".toList.head? = some '/' ∧ output "/a//b/" "/../b/./lib/../x" = .ok "/a/b/x.js" ∧
      normal "/a/b/x.js".toList = "/a/b/x.js".toList ∧
      ∃ ps last, components "/a/b/x.js".toList = components (normal "/a//b/".toList) ++ ps ++ [last] ∧
        '.' ∈ last := by
  have h : "/a//b/".toList.head? = some '/' := by decide
  have hok : output "/a//b/" "/../b/./lib/../x" = .ok "/a/b/x.js" := by rfl
  obtain ⟨-, hnormal, hbelow, -⟩ := (output_below h "/../b/./lib/../x").1 _ hok
  exact ⟨h, hok, hnormal, hbelow⟩

example : output "/a.js" "../a" = .error ⟨"/a.js"⟩ := by rfl

/-! ### Names that share a file -/

def place (target name : String) : List Part :=
  walk (components (normal target.toList)).reverse (parts name.toList)

@[mk_iff]
inductive Ended : List Part → List Part → Prop where
  | root : Ended [] [ending]
  | last (p : Part) (st : List Part) : '.' ∉ p → Ended (p :: st) ((p ++ ending) :: st)

def SameFile (a b : List Part) : Prop :=
  a = b ∨ Ended a b ∨ Ended b a

theorem finished_of_dot {p : Part} (h : '.' ∈ p) (st : List Part) : finished (p :: st) = p :: st := by
  simp [finished, h]

theorem finished_of_ended {a b : List Part} (h : Ended a b) : finished a = b ∧ finished b = b := by
  cases h with
  | root => exact ⟨rfl, rfl⟩
  | last p st hp => exact ⟨by simp [finished, hp], finished_of_dot (by simp [ending]) st⟩

theorem eq_or_ended_finished (a : List Part) : finished a = a ∨ Ended a (finished a) := by
  cases a with
  | nil => exact Or.inr .root
  | cons p st =>
    by_cases hp : '.' ∈ p
    · exact Or.inl (finished_of_dot hp st)
    · right
      have hfinished : finished (p :: st) = (p ++ ending) :: st := by
        simp [finished, hp]
      rw [hfinished]
      exact .last p st hp

theorem ended_injective {a b c : List Part} (ha : ∀ p ∈ a, IsPart p) (hb : ∀ p ∈ b, IsPart p)
    (hac : Ended a c) (hbc : Ended b c) : a = b := by
  have hne : ∀ {p : Part} {st : List Part}, (∀ q ∈ p :: st, IsPart q) → p ++ ending ≠ ending :=
    fun h he => (h _ List.mem_cons_self).1.ne.1 (List.self_eq_append_left.mp he.symm)
  rw [ended_iff] at hac hbc
  rcases hac with ⟨rfl, rfl⟩ | ⟨p, st, -, rfl, rfl⟩
  · rcases hbc with ⟨rfl, -⟩ | ⟨q, st', -, rfl, he⟩
    · rfl
    · exact absurd (List.cons.inj he).1.symm (hne hb)
  · rcases hbc with ⟨rfl, he⟩ | ⟨q, st', -, rfl, he⟩
    · exact absurd (List.cons.inj he).1 (hne ha)
    · obtain ⟨hlast, rfl⟩ := List.cons.inj he
      rw [List.append_cancel_right hlast]

theorem finished_eq_iff {a b : List Part} (ha : ∀ p ∈ a, IsPart p) (hb : ∀ p ∈ b, IsPart p) :
    finished a = finished b ↔ SameFile a b := by
  constructor
  · intro h
    rcases eq_or_ended_finished a with hfa | hfa
    · rcases eq_or_ended_finished b with hfb | hfb
      · exact Or.inl (hfa.symm.trans (h.trans hfb))
      · rw [← h, hfa] at hfb
        exact Or.inr (Or.inr hfb)
    · rcases eq_or_ended_finished b with hfb | hfb
      · rw [h, hfb] at hfa
        exact Or.inr (Or.inl hfa)
      · rw [← h] at hfb
        exact Or.inl (ended_injective ha hb hfa hfb)
  · rintro (rfl | h | h)
    · rfl
    · rw [(finished_of_ended h).1, (finished_of_ended h).2]
    · rw [(finished_of_ended h).1, (finished_of_ended h).2]

theorem output_eq_iff {target name name' file file' : String}
    (h : target.toList.head? = some '/') (hfile : output target name = .ok file)
    (hfile' : output target name' = .ok file') :
    file = file' ↔ SameFile (place target name) (place target name') := by
  obtain ⟨n, ps, hn, hps, hdir⟩ := exists_located h
  have hwalk : ∀ name : String, ∀ p ∈ walk ps.reverse (parts name.toList), IsPart p := fun name =>
    isPart_walk_parts (by simpa using hps) name.toList
  have hpath : ∀ {name file : String}, output target name = .ok file →
      file = String.ofList (located n (finished (walk ps.reverse (parts name.toList))).reverse) := by
    intro name file hok
    rw [output_eq hn hps hdir] at hok
    split_ifs at hok
    exact (Except.ok.inj hok).symm
  rw [place, place, hdir, components_located hps, ← finished_eq_iff (hwalk name) (hwalk name'),
    hpath hfile, hpath hfile', String.ofList_inj]
  constructor
  · intro he
    apply List.reverse_injective
    apply (located_injective _ _ he).2
    · simpa using isPart_finished (hwalk name)
    · simpa using isPart_finished (hwalk name')
  · intro he
    rw [he]

theorem place_append_slashes (target : String) {name stripped : String} {n : Nat}
    (h : name.toList = stripped.toList ++ List.replicate n '/') :
    place target name = place target stripped := by
  rw [place, place, h]
  cases n with
  | zero => rw [List.replicate_zero, List.append_nil]
  | succ n =>
    have hslashes : parts (List.replicate n '/') = List.replicate n [] ++ [[]] := by
      have hparts := parts_replicate_append n []
      rwa [List.append_nil] at hparts
    rw [List.replicate_succ, parts_append_slash, walk_append, hslashes, walk_replicate_append,
      walk_cons, enter_nil, walk_nil]

end Legible.FilePath
