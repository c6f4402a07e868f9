import Legible.Form
import Legible.Proofs.Scope.Paths
import Legible.Proofs.Scope.Renaming
import Mathlib.Data.List.Infix

/-!
Where references end up: each belongs to the variable that the innermost scope around it gives its
name, and passes through the scopes on the way there.
-/

namespace Legible

def Reference.name (r : Reference) : String := r.occurrence.name

def Reference.tag (r : Reference) : Nat := r.occurrence.tag

namespace Scope

def resolves (s : Scope) (name : String) : Bool :=
  !s.dynamic && s.declares name

def binder? (root : Scope) (p : Path) (name : String) : Option Path :=
  p.inits.reverse.find? fun q => (root.at? q).any (·.resolves name)

def meaning? (root : Scope) (p : Path) (name : String) : Option (Path × Nat) :=
  (root.binder? p name).bind fun q => ((root.at? q).bind (·.position? name)).map (q, ·)

def recorded (root : Scope) : List (Path × Reference) :=
  root.paths.flatMap fun p => (root.at? p).toList.flatMap fun s => s.references.map (p, ·)

def passes (root : Scope) (q : Path) (m : Path × Reference) : Bool :=
  q.isPrefixOf m.1 && (root.binder? m.1 m.2.name).all (·.length < q.length)

variable {root s c : Scope} {name : String}

theorem binder?_nil (s : Scope) (name : String) :
    s.binder? [] name = if s.resolves name then some [] else none := by
  cases h : s.resolves name <;> simp [binder?, at?, h]

theorem binder?_cons {i : Nat} (hc : s.children[i]? = some c) (p : Path) (name : String) :
    s.binder? (i :: p) name = ((c.binder? p name).map (i :: ·)).or (s.binder? [] name) := by
  have hat : ∀ q, s.at? (i :: q) = c.at? q := fun q => by rw [at?, hc]; rfl
  rw [binder?, List.inits_cons, List.reverse_cons, List.find?_append, ← List.map_reverse,
    List.find?_map]
  simp only [Function.comp_def, hat]
  rfl

theorem binder?_append {q : Path} (hc : root.at? q = some c) (name : String) :
    ∃ outer : Option Path, (∀ b ∈ outer, b.length < q.length) ∧
      ∀ p, root.binder? (q ++ p) name = ((c.binder? p name).map (q ++ ·)).or outer := by
  induction q generalizing root with
  | nil =>
    obtain rfl := Option.some.inj hc
    exact ⟨none, nofun, fun p => by simp⟩
  | cons i q ih =>
    obtain ⟨d, hd, hc⟩ := Option.bind_eq_some_iff.mp hc
    obtain ⟨outer, ho, hq⟩ := ih hc
    refine ⟨(outer.map (i :: ·)).or (root.binder? [] name), fun b hb => ?_, fun p => ?_⟩
    · rcases Option.or_eq_some_iff.mp hb with hb | ⟨-, hb⟩
      · obtain ⟨b', hb', rfl⟩ := Option.map_eq_some_iff.mp hb
        exact Nat.succ_lt_succ (ho b' hb')
      · rw [binder?_nil] at hb
        split at hb
        · obtain rfl := Option.some.inj hb
          exact Nat.succ_pos _
        · cases hb
    · rw [List.cons_append, binder?_cons hd, hq, Option.map_or, Option.or_assoc, Option.map_map]
      rfl

theorem prefix_of_binder? {p q : Path} (h : root.binder? p name = some q) : q <+: p :=
  (List.mem_inits q p).mp (List.mem_reverse.mp (List.mem_of_find?_eq_some h))

/-! ### All references -/

def inChild (i : Nat) (m : Path × Reference) : Path × Reference := (i :: m.1, m.2)

theorem recorded_eq (s : Scope) : s.recorded =
    s.references.map (([], ·)) ++ s.children.zipIdx.flatMap fun e => e.1.recorded.map (inChild e.2) := by
  have hcs : ∀ l cs : List Scope, s.children = l ++ cs →
      ((pathsOfChildren l.length cs).flatMap fun p =>
        (s.at? p).toList.flatMap fun c => c.references.map (p, ·)) =
      (cs.zipIdx l.length).flatMap fun e => e.1.recorded.map (inChild e.2) := by
    intro l cs
    induction cs generalizing l with
    | nil => exact fun _ => rfl
    | cons c cs ih =>
      intro h
      have hget : s.children[l.length]? = some c := by
        rw [h, List.getElem?_append_right (Nat.le_refl _), Nat.sub_self]
        rfl
      have hrest := ih (l ++ [c]) (by rw [h, List.append_assoc]; rfl)
      rw [List.length_append, List.length_singleton] at hrest
      rw [pathsOfChildren, List.flatMap_append, hrest, List.zipIdx_cons, List.flatMap_cons,
        List.flatMap_map, recorded, List.map_flatMap]
      refine congrArg (· ++ _) (List.flatMap_congr fun p _ => ?_)
      simp only [at?, hget, Option.bind_some, List.map_flatMap, List.map_map]
      rfl
  have hcs := hcs [] s.children rfl
  rw [List.length_nil] at hcs
  rw [recorded, paths_eq, List.flatMap_cons, hcs]
  simp [at?]

theorem recorded_at {q : Path} (hc : root.at? q = some c) :
    root.recorded.filter (fun m => q.isPrefixOf m.1) =
      c.recorded.map fun m => (q ++ m.1, m.2) := by
  induction q generalizing root with
  | nil =>
    obtain rfl := Option.some.inj hc
    simp
  | cons i q ih =>
    obtain ⟨d, hd, hc⟩ := Option.bind_eq_some_iff.mp hc
    let below (m : Path × Reference) : Bool := (i :: q).isPrefixOf m.1
    have hother : ∀ (d : Scope) (j : Nat), j ≠ i → (d.recorded.map (inChild j)).filter below = [] := by
      intro d j hj
      refine List.filter_eq_nil_iff.mpr fun m hm => ?_
      obtain ⟨m, -, rfl⟩ := List.mem_map.mp hm
      simp [below, inChild, List.isPrefixOf, hj.symm]
    -- Of the children, only the one on the way to the path has anything there.
    have hcs : ∀ (cs : List Scope) (n k : Nat), n + k = i → cs[k]? = some d →
        ((cs.zipIdx n).flatMap fun e => (e.1.recorded.map (inChild e.2)).filter below) =
          (d.recorded.map (inChild i)).filter below := by
      intro cs
      induction cs with
      | nil => exact fun _ _ _ h => nomatch h
      | cons e cs ihs =>
        intro n k hk h
        rw [List.zipIdx_cons, List.flatMap_cons]
        cases k with
        | zero =>
          obtain rfl := Option.some.inj h
          obtain rfl : n = i := hk
          refine (congrArg (_ ++ ·) (List.flatMap_eq_nil_iff.mpr fun e he => ?_)).trans
            (List.append_nil _)
          have := List.le_snd_of_mem_zipIdx he
          exact hother e.1 e.2 (by omega)
        | succ k =>
          rw [hother e n (by omega), List.nil_append]
          exact ihs (n + 1) k (by omega) h
    have hself : (root.references.map fun r => (([] : Path), r)).filter below = [] := by
      refine List.filter_eq_nil_iff.mpr fun m hm => ?_
      obtain ⟨r, -, rfl⟩ := List.mem_map.mp hm
      simp [below, List.isPrefixOf]
    rw [recorded_eq, List.filter_append, hself, List.nil_append, List.filter_flatMap,
      hcs root.children 0 i (Nat.zero_add i) hd, List.filter_map]
    have hbelow : below ∘ inChild i = fun m => q.isPrefixOf m.1 := by
      funext m
      simp [below, inChild]
    rw [hbelow, ih hc, List.map_map]
    rfl

theorem mem_recorded {p : Path} {r : Reference} (hs : root.at? p = some s) (hr : r ∈ s.references) :
    (p, r) ∈ root.recorded := by
  have hm : (p, r) ∈ s.recorded.map fun m => (p ++ m.1, m.2) := by
    refine List.mem_map.mpr ⟨([], r), ?_, by simp⟩
    rw [recorded_eq]
    exact List.mem_append_left _ (List.mem_map_of_mem hr)
  rw [← recorded_at hs] at hm
  exact (List.mem_filter.mp hm).1

theorem exists_of_mem_recorded {m : Path × Reference} (h : m ∈ root.recorded) :
    ∃ s, root.at? m.1 = some s ∧ m.2 ∈ s.references := by
  obtain ⟨p, -, h⟩ := List.mem_flatMap.mp h
  obtain ⟨s, hs, h⟩ := List.mem_flatMap.mp h
  obtain ⟨r, hr, rfl⟩ := List.mem_map.mp h
  exact ⟨s, Option.mem_toList.mp hs, hr⟩

/-! ### One scope -/

structure Shares (s : Scope) : Prop where
  references : ∀ v ∈ s.declared, v.references.Perm
    ((s.incoming.filter fun o => s.resolves o.name && o.name == v.name).map (·.tag))
  through : s.through.Perm (s.incoming.filter fun o => !s.resolves o.name)

section

variable (kind : ScopeKind) (block : Block) (dynamic registered : Bool) (ds : List Declaration)
  (parts : List Part)

theorem perm_incoming_assemble :
    (assemble kind block dynamic registered ds parts).incoming.Perm (pending parts) := by
  rw [incoming, assemble_eq]
  induction parts with
  | nil => exact .nil
  | cons p parts ih =>
    cases p with
    | refer r => exact ih.cons r.occurrence
    | child c =>
      refine List.Perm.trans ?_ (ih.append_left c.through)
      exact (List.perm_append_comm_assoc _ _ _)

theorem resolves_assemble (name : String) :
    (assemble kind block dynamic registered ds parts).resolves name =
      (!dynamic && (ds.map (·.name)).contains name) := by
  rw [Bool.eq_iff_iff, resolves, Bool.and_eq_true, Bool.and_eq_true]
  refine and_congr_right fun _ => ?_
  rw [List.contains_iff_mem, ← mem_names_variablesOf, declares_iff_mem, ← names_tableOf,
    assemble_eq]

theorem shares_assemble : (assemble kind block dynamic registered ds parts).Shares := by
  have hin := perm_incoming_assemble kind block dynamic registered ds parts
  have htakes : ∀ o : Occurrence, (assemble kind block dynamic registered ds parts).resolves o.name =
      takes dynamic (variablesOf ds) o := fun o => by rw [resolves_assemble, frame_takes]
  constructor
  · rw [declared_assemble, List.forall_mem_map]
    intro v _
    simp only [htakes]
    exact ((hin.filter _).map _).symm
  · rw [through_assemble]
    simp only [htakes]
    exact (hin.filter _).symm

end

theorem shares_partsOf {i : Item} {env : List Frame} :
    ∀ p ∈ partsOf env i, ∀ c ∈ p.scopes, c.Shares := by
  induction i generalizing env with
  | declare kind hoisted name id => exact nofun
  | refer o => simp [partsOf, Part.scopes]
  | scope kind block dynamic is ih =>
    rw [partsOf_scope, List.forall_mem_singleton, Part.scopes, scopes_made, List.forall_mem_cons]
    refine ⟨shares_assemble .., fun c hc => ?_⟩
    obtain ⟨p, hp, hc⟩ := List.mem_flatMap.mp hc
    obtain ⟨i, hi, hp⟩ := List.mem_flatMap.mp hp
    exact ih i hi p hp c hc

theorem shares_ofTree (t : Tree) : ∀ c ∈ (ofTree t).scopes, c.Shares := by
  obtain ⟨kind, block, dynamic, is, -, -, -, h, -⟩ := exists_made t
  rw [h, scopes_made, List.forall_mem_cons]
  refine ⟨shares_assemble .., fun c hc => ?_⟩
  obtain ⟨p, hp, hc⟩ := List.mem_flatMap.mp hc
  obtain ⟨i, -, hp⟩ := List.mem_flatMap.mp hp
  exact shares_partsOf p hp c hc

/-! ### What arrives at a scope -/

def arrives (s : Scope) (m : Path × Reference) : Bool :=
  (s.binder? m.1 m.2.name).all (·.isEmpty)

theorem arrives_nil (s : Scope) (r : Reference) : s.arrives ([], r) = true := by
  rw [arrives, binder?_nil]
  split <;> rfl

theorem arrives_inChild {i : Nat} (hc : s.children[i]? = some c) (m : Path × Reference) :
    s.arrives (inChild i m) = (c.binder? m.1 m.2.name).isNone := by
  rw [arrives, inChild, binder?_cons hc]
  cases c.binder? m.1 m.2.name with
  | none =>
    rw [binder?_nil]
    split <;> rfl
  | some q => rfl

theorem binder?_of_recorded {m : Path × Reference} (hm : m ∈ s.recorded) :
    s.binder? m.1 m.2.name =
      if s.arrives m then if s.resolves m.2.name then some [] else none
      else s.binder? m.1 m.2.name := by
  rw [recorded_eq, List.mem_append, List.mem_flatMap] at hm
  rcases hm with hm | ⟨e, he, hm⟩
  · obtain ⟨r, -, rfl⟩ := List.mem_map.mp hm
    rw [arrives_nil, if_pos rfl, binder?_nil]
  · obtain ⟨m, -, rfl⟩ := List.mem_map.mp hm
    have hc := List.mem_zipIdx_iff_getElem?.mp he
    rw [arrives_inChild hc, inChild, binder?_cons hc, binder?_nil]
    cases e.1.binder? m.1 m.2.name <;> rfl

theorem binder?_eq_none_iff {m : Path × Reference} (hm : m ∈ s.recorded) :
    s.binder? m.1 m.2.name = none ↔ s.arrives m = true ∧ s.resolves m.2.name = false := by
  have h := binder?_of_recorded hm
  constructor
  · intro hn
    rw [arrives, hn]
    refine ⟨rfl, ?_⟩
    rw [arrives, hn] at h
    cases hr : s.resolves m.2.name with
    | false => rfl
    | true => rw [hr] at h; cases h
  · rintro ⟨ha, hr⟩
    rw [h, if_pos ha, hr]
    rfl

theorem binder?_eq_nil_iff {m : Path × Reference} (hm : m ∈ s.recorded) :
    s.binder? m.1 m.2.name = some [] ↔ s.arrives m = true ∧ s.resolves m.2.name = true := by
  have h := binder?_of_recorded hm
  constructor
  · intro hn
    rw [arrives, hn]
    refine ⟨rfl, ?_⟩
    rw [arrives, hn] at h
    cases hr : s.resolves m.2.name with
    | true => rfl
    | false => rw [hr] at h; cases h
  · rintro ⟨ha, hr⟩
    rw [h, if_pos ha, hr]
    rfl

theorem perm_incoming (h : ∀ c ∈ s.scopes, c.Shares) :
    s.incoming.Perm ((s.recorded.filter s.arrives).map (·.2.occurrence)) := by
  induction s using induction with
  | node s ih =>
    have hthrough : ∀ c ∈ s.children, c.through.Perm
        ((c.recorded.filter fun m => (c.binder? m.1 m.2.name).isNone).map (·.2.occurrence)) := by
      intro c hc
      have hc := fun d hd => h d (mem_scopes_of_child hc hd)
      refine (hc c c.self_mem_scopes).through.trans (((ih c ‹_› hc).filter _).trans ?_)
      rw [List.filter_map, List.filter_filter]
      refine .of_eq (congrArg _ (List.filter_congr fun m hm => ?_))
      rw [Bool.eq_iff_iff, Option.isNone_iff_eq_none, binder?_eq_none_iff hm, and_comm]
      simp [Reference.name]
    have hself : (s.references.map fun r => (([] : Path), r)).filter s.arrives =
        s.references.map fun r => ([], r) := by
      refine List.filter_eq_self.mpr fun m hm => ?_
      obtain ⟨r, -, rfl⟩ := List.mem_map.mp hm
      exact s.arrives_nil r
    rw [recorded_eq, List.filter_append, List.map_append, hself, List.map_map, incoming,
      List.filter_flatMap, List.map_flatMap]
    refine List.Perm.append_left _ ?_
    have hfst : s.children.flatMap (·.through) = s.children.zipIdx.flatMap fun e => e.1.through := by
      conv_lhs => rw [← List.zipIdx_map_fst 0 s.children, List.flatMap_map]
    rw [hfst]
    refine List.Perm.flatMap_left _ fun e he => ?_
    have he := List.mem_zipIdx_iff_getElem?.mp he
    refine (hthrough e.1 (List.mem_of_getElem? he)).trans (.of_eq ?_)
    rw [List.filter_map, List.map_map]
    refine congrArg _ (List.filter_congr fun m _ => ?_)
    exact (arrives_inChild he m).symm

theorem perm_through (h : ∀ c ∈ s.scopes, c.Shares) :
    s.through.Perm ((s.recorded.filter fun m => (s.binder? m.1 m.2.name).isNone).map
      (·.2.occurrence)) := by
  refine (h s s.self_mem_scopes).through.trans (((perm_incoming h).filter _).trans ?_)
  rw [List.filter_map, List.filter_filter]
  refine .of_eq (congrArg _ (List.filter_congr fun m hm => ?_))
  rw [Bool.eq_iff_iff, Option.isNone_iff_eq_none, binder?_eq_none_iff hm, and_comm]
  simp [Reference.name]

/-! ### What scopes and variables get -/

theorem exists_of_lookup_tableOf {vs : List Variable} {i : Nat}
    (h : (tableOf vs).lookup name = some i) : ∃ v, vs[i]? = some v ∧ v.name = name := by
  obtain ⟨l, r, he, -⟩ := List.lookup_eq_some_iff.mp h
  have hm : (name, i) ∈ tableOf vs := he ▸ List.mem_append_right l List.mem_cons_self
  obtain ⟨⟨v, j⟩, hv, he⟩ := List.mem_map.mp hm
  obtain ⟨rfl, rfl⟩ := Prod.mk.inj he
  exact ⟨v, List.mem_zipIdx_iff_getElem?.mp hv, rfl⟩

theorem Fresh.position?_eq_some_iff (h : c.Fresh) {i : Nat} {v : Variable}
    (hv : c.declared[i]? = some v) : c.position? name = some i ↔ name = v.name := by
  rw [position?, h.table]
  constructor
  · intro hi
    obtain ⟨u, hu, rfl⟩ := exists_of_lookup_tableOf hi
    rw [Option.some.inj (hu.symm.trans hv)]
  · rintro rfl
    have hm : v.name ∈ (tableOf c.declared).map (·.1) := by
      rw [names_tableOf]
      exact List.mem_map_of_mem (List.mem_of_getElem? hv)
    cases hj : (tableOf c.declared).lookup v.name with
    | none =>
      obtain ⟨e, he, hn⟩ := List.mem_map.mp hm
      simpa [hn] using List.lookup_eq_none_iff.mp hj e he
    | some j =>
      obtain ⟨u, hu, hn⟩ := exists_of_lookup_tableOf hj
      have hnames : (c.declared.map (·.name))[j]? = (c.declared.map (·.name))[i]? := by
        rw [List.getElem?_map, List.getElem?_map, hu, hv, Option.map_some, Option.map_some, hn]
      have hlt : j < (c.declared.map (·.name)).length := by
        rw [List.length_map]
        exact (List.getElem?_eq_some_iff.mp hu).1
      rw [(List.getElem?_inj hlt h.nodup).mp hnames]

section

variable {q : Path} (hc : root.at? q = some c)

include hc

theorem binder?_append_eq_self_iff {p : Path} :
    root.binder? (q ++ p) name = some q ↔ c.binder? p name = some [] := by
  obtain ⟨outer, ho, hq⟩ := binder?_append hc name
  rw [hq]
  cases c.binder? p name with
  | none =>
    refine iff_of_false (fun he => ?_) nofun
    exact Nat.lt_irrefl _ (ho q he)
  | some b => simp

theorem passes_append {m : Path × Reference} :
    root.passes q (q ++ m.1, m.2) = (c.binder? m.1 m.2.name).isNone := by
  obtain ⟨outer, ho, hq⟩ := binder?_append hc m.2.name
  rw [passes, List.isPrefixOf_iff_prefix.mpr (List.prefix_append q m.1), Bool.true_and, hq]
  cases c.binder? m.1 m.2.name with
  | none =>
    cases outer with
    | none => rfl
    | some b => exact decide_eq_true (ho b rfl)
  | some b => simp

theorem filter_recorded_at {f : Path × Reference → Bool} {g : Path × Reference → Bool}
    (hf : ∀ m, f m = true → q.isPrefixOf m.1 = true)
    (hg : ∀ m ∈ c.recorded, f (q ++ m.1, m.2) = g m) :
    (root.recorded.filter f).map (·.2) = (c.recorded.filter g).map (·.2) := by
  have hboth : root.recorded.filter f =
      (root.recorded.filter fun m => q.isPrefixOf m.1).filter f := by
    rw [List.filter_filter]
    refine List.filter_congr fun m _ => ?_
    cases hm : f m with
    | false => rfl
    | true => rw [hf m hm]; rfl
  rw [hboth, recorded_at hc, List.filter_map, List.map_map]
  exact congrArg _ (List.filter_congr hg)

theorem meaning?_append (p : Path) (i : Nat) :
    root.meaning? (q ++ p) name = some (q, i) ↔
      c.binder? p name = some [] ∧ c.position? name = some i := by
  rw [← binder?_append_eq_self_iff hc, meaning?, Option.bind_eq_some_iff]
  constructor
  · rintro ⟨b, hb, he⟩
    obtain ⟨j, hj, he⟩ := Option.map_eq_some_iff.mp he
    obtain ⟨rfl, rfl⟩ := Prod.mk.inj he
    rw [hc] at hj
    exact ⟨hb, hj⟩
  · rintro ⟨hb, hi⟩
    refine ⟨q, hb, ?_⟩
    rw [hc, Option.bind_some, hi]
    rfl

variable (h : ∀ d ∈ c.scopes, d.Shares)

include h

theorem perm_through_at : c.through.Perm
    ((root.recorded.filter (root.passes q)).map (·.2.occurrence)) := by
  have hf : ∀ m, root.passes q m = true → q.isPrefixOf m.1 = true := fun m hm =>
    (Bool.and_eq_true _ _ ▸ hm).1
  have hat := congrArg (List.map Reference.occurrence)
    (filter_recorded_at hc hf fun m _ => passes_append hc)
  rw [List.map_map, List.map_map] at hat
  exact (perm_through h).trans (.of_eq hat.symm)

theorem perm_references_at (hfresh : c.Fresh) {i : Nat} {v : Variable}
    (hv : c.declared[i]? = some v) : v.references.Perm ((root.recorded.filter fun m =>
      root.meaning? m.1 m.2.name = some (q, i)).map (·.2.tag)) := by
  have hf : ∀ m : Path × Reference, decide (root.meaning? m.1 m.2.name = some (q, i)) = true →
      q.isPrefixOf m.1 = true := by
    intro m hm
    obtain ⟨b, hb, he⟩ := Option.bind_eq_some_iff.mp (of_decide_eq_true hm)
    obtain ⟨j, -, he⟩ := Option.map_eq_some_iff.mp he
    obtain ⟨rfl, -⟩ := Prod.mk.inj he
    exact List.isPrefixOf_iff_prefix.mpr (prefix_of_binder? hb)
  have hg : ∀ m ∈ c.recorded, decide (root.meaning? (q ++ m.1) m.2.name = some (q, i)) =
      (c.arrives m && (c.resolves m.2.name && m.2.name == v.name)) := by
    intro m hm
    rw [Bool.eq_iff_iff, decide_eq_true_iff, meaning?_append hc, binder?_eq_nil_iff hm,
      hfresh.position?_eq_some_iff hv]
    simp [and_assoc]
  have hat := congrArg (List.map Reference.tag) (filter_recorded_at hc hf hg)
  rw [List.map_map, List.map_map] at hat
  refine ((h c c.self_mem_scopes).references v (List.mem_of_getElem? hv)).trans
    ((((perm_incoming h).filter _).map _).trans (.of_eq ?_))
  rw [List.filter_map, List.filter_filter, List.map_map]
  refine (congrArg _ (List.filter_congr fun m _ => ?_)).trans hat.symm
  exact Bool.and_comm _ _

end

/-! ### Distances -/

theorem reference_of_made {kind : ScopeKind} {block : Block} {dynamic registered : Bool}
    {env : List Frame} {is : List Item} {r : Reference}
    (hr : r ∈ (made kind block dynamic registered env is).references) :
    r.resolved = if (made kind block dynamic registered env is).resolves r.name then some 0
      else (resolve env r.name).map (· + 1) := by
  rw [made, assemble_eq] at hr
  obtain ⟨part, hp, hr⟩ := List.mem_filterMap.mp hr
  obtain ⟨i, -, hp⟩ := List.mem_flatMap.mp hp
  cases i with
  | declare kind hoisted name id => cases hp
  | refer o =>
    obtain rfl := List.mem_singleton.mp hp
    obtain rfl := Option.some.inj hr
    rw [made, resolves_assemble]
    exact resolve_cons _ _ _
  | scope kind block dynamic is =>
    rw [partsOf_scope, List.mem_singleton] at hp
    subst hp
    cases hr

def Measures (env : List Frame) (c : Scope) : Prop :=
  ∀ p s, c.at? p = some s → ∀ r ∈ s.references,
    r.resolved = ((c.binder? p r.name).map (p.length - ·.length)).or
      ((resolve env r.name).map (· + (p.length + 1)))

theorem measures_made {kind : ScopeKind} {block : Block} {dynamic registered : Bool}
    {env : List Frame} {is : List Item}
    (hi : ∀ i ∈ is, ∀ env, ∀ c, Part.child c ∈ partsOf env i → Measures env c) :
    Measures env (made kind block dynamic registered env is) := by
  intro p s hs r hr
  cases p with
  | nil =>
    obtain rfl := Option.some.inj hs
    rw [reference_of_made hr, binder?_nil]
    split <;> rfl
  | cons i p =>
    obtain ⟨c, hc, hs⟩ := Option.bind_eq_some_iff.mp hs
    rw [binder?_cons hc, binder?_nil]
    rw [made, assemble_eq] at hc
    obtain ⟨part, hp, hpart⟩ := List.mem_filterMap.mp (List.mem_of_getElem? hc)
    obtain ⟨j, hj, hp⟩ := List.mem_flatMap.mp hp
    cases part with
    | refer r => cases hpart
    | child d =>
      obtain rfl := Option.some.inj hpart
      rw [hi j hj _ d hp p s hs r hr, resolve_cons, made, resolves_assemble]
      cases hb : d.binder? p r.name with
      | some b => simp
      | none =>
        split
        · simp
        · simp [Function.comp_def]
          exact Option.map_congr fun k _ => by omega

theorem measures_partsOf {i : Item} : ∀ env, ∀ c, Part.child c ∈ partsOf env i → Measures env c := by
  induction i with
  | declare kind hoisted name id => exact nofun
  | refer o =>
    intro env c hc
    cases List.mem_singleton.mp hc
  | scope kind block dynamic is ih =>
    intro env c hc
    rw [partsOf_scope, List.mem_singleton] at hc
    obtain rfl := Part.child.inj hc
    exact measures_made ih

theorem resolved_ofTree (t : Tree) {p : Path} (hs : (ofTree t).at? p = some s) {r : Reference}
    (hr : r ∈ s.references) :
    r.resolved = ((ofTree t).binder? p r.name).map (p.length - ·.length) := by
  obtain ⟨kind, block, dynamic, is, -, -, -, h, -⟩ := exists_made t
  rw [h] at hs ⊢
  rw [measures_made (fun i _ => measures_partsOf) p s hs r hr]
  exact Option.or_none

/-! ### How often -/

def Part.recorded : Part → List Occurrence
  | .refer r => [r.occurrence]
  | .child c => c.recorded.map (·.2.occurrence)

theorem perm_recorded_made (kind : ScopeKind) (block : Block) (dynamic registered : Bool)
    (env : List Frame) (is : List Item) :
    ((made kind block dynamic registered env is).recorded.map (·.2.occurrence)).Perm
      ((partsIn kind dynamic env is).flatMap Part.recorded) := by
  have hrec : ∀ s : Scope, s.recorded.map (·.2.occurrence) =
      s.references.map (·.occurrence) ++ s.children.flatMap fun c =>
        c.recorded.map (·.2.occurrence) := by
    intro s
    rw [recorded_eq, List.map_append, List.map_map, List.map_flatMap]
    conv_rhs => rw [← List.zipIdx_map_fst 0 s.children, List.flatMap_map]
    simp only [List.map_map]
    rfl
  rw [hrec, made, assemble_eq]
  induction partsIn kind dynamic env is with
  | nil => exact .nil
  | cons p parts ih =>
    cases p with
    | refer r => exact ih.cons r.occurrence
    | child c =>
      refine List.Perm.trans ?_ (ih.append_left (c.recorded.map (·.2.occurrence)))
      exact List.perm_append_comm_assoc _ _ _

theorem subperm_recorded_partsOf (i : Item) (env : List Frame) :
    ((partsOf env i).flatMap Part.recorded).Subperm i.occurrences := by
  induction i generalizing env with
  | declare kind hoisted name id => exact List.nil_subperm
  | refer o => exact List.Subperm.refl _
  | scope kind block dynamic is ih =>
    rw [partsOf_scope, List.flatMap_singleton, Part.recorded, Item.occurrences_scope]
    refine (perm_recorded_made ..).subperm.trans ?_
    rw [partsIn, List.flatMap_assoc]
    exact subperm_flatMap fun i hi => ih i hi _

theorem nodup_recorded {t : Tree} (ht : t.Numbered) :
    ((ofTree t).recorded.map (·.2.tag)).Nodup := by
  obtain ⟨kind, block, dynamic, is, -, -, ho, h, -⟩ := exists_made t
  have hsub : ((ofTree t).recorded.map (·.2.occurrence)).Subperm (mentioned t) := by
    rw [h]
    refine (perm_recorded_made ..).subperm.trans ?_
    rw [(perm_mentioned t).subperm_left, ← ho, partsIn, List.flatMap_assoc]
    exact subperm_flatMap fun i _ => subperm_recorded_partsOf i _
  obtain ⟨l, hl, hs⟩ := hsub
  have hn := (hl.map (·.tag)).nodup_iff.mp ((nodup_mentioned ht).sublist (hs.map _))
  rw [List.map_map] at hn
  exact hn

theorem count_map_filter {α β : Type} [BEq β] [LawfulBEq β] {l : List α} {f : α → β}
    (h : (l.map f).Nodup) (p : α → Bool) {a : α} (ha : a ∈ l) :
    ((l.filter p).map f).count (f a) = if p a = true then 1 else 0 := by
  have hmem : f a ∈ (l.filter p).map f ↔ p a = true := by
    constructor
    · intro hm
      obtain ⟨b, hb, he⟩ := List.mem_map.mp hm
      obtain ⟨hb, hp⟩ := List.mem_filter.mp hb
      rwa [← List.inj_on_of_nodup_map h hb ha he]
    · exact fun hp => List.mem_map_of_mem (List.mem_filter.mpr ⟨ha, hp⟩)
  split
  · rename_i hp
    exact List.count_eq_one_of_mem (h.sublist (List.filter_sublist.map f)) (hmem.mpr hp)
  · rename_i hp
    exact List.count_eq_zero_of_not_mem fun hm => hp (hmem.mp hm)

/-- References are resolved by the names that the scopes around them end up with, wherever these
are declared. -/
structure Lexical (root : Scope) : Prop where
  resolved : ∀ p s, root.at? p = some s → ∀ r ∈ s.references,
    r.resolved = (root.binder? p r.name).map (p.length - ·.length)
  meaning : ∀ p name q, root.binder? p name = some q → ∃ c i v, root.at? q = some c ∧
    c.declared[i]? = some v ∧ v.name = name ∧ root.meaning? p name = some (q, i)
  references : ∀ q c, root.at? q = some c → ∀ (i : Nat) v, c.declared[i]? = some v →
    v.references.Perm ((root.recorded.filter fun m =>
      root.meaning? m.1 m.2.name = some (q, i)).map (·.2.tag))
  through : ∀ q c, root.at? q = some c →
    c.through.Perm ((root.recorded.filter (root.passes q)).map (·.2.occurrence))

/-- Each reference belongs to its variable once and to no other, and passes once through the scopes
on the way there and through no others. -/
structure Once (root : Scope) : Prop where
  references : ∀ p s, root.at? p = some s → ∀ r ∈ s.references, ∀ q c, root.at? q = some c →
    ∀ (i : Nat) v, c.declared[i]? = some v → v.references.count r.tag =
      if root.meaning? p r.name = some (q, i) then 1 else 0
  through : ∀ p s, root.at? p = some s → ∀ r ∈ s.references, ∀ q c, root.at? q = some c →
    c.through.count r.occurrence =
      if q <+: p ∧ ∀ b, root.binder? p r.name = some b → b.length < q.length then 1 else 0

theorem lexical_ofTree (t : Tree) : (ofTree t).Lexical := by
  have hfresh := fresh_ofTree t
  have hshares : ∀ q c, (ofTree t).at? q = some c → ∀ d ∈ c.scopes, d.Shares := fun q c hc d hd =>
    shares_ofTree t d (mem_scopes_trans (at?_mem_scopes hc) hd)
  constructor
  · exact fun p s hs r => resolved_ofTree t hs
  · intro p name q hq
    have hb := List.find?_some hq
    obtain ⟨c, hc, hr⟩ := (Option.any_eq_true _ _).mp hb
    have hf := hfresh c (at?_mem_scopes hc)
    obtain ⟨v, hv, hn⟩ := hf.declares_iff.mp (Bool.and_eq_true _ _ ▸ hr).2
    obtain ⟨i, hi⟩ := List.mem_iff_getElem?.mp hv
    refine ⟨c, i, v, hc, hi, hn, ?_⟩
    rw [meaning?, hq, Option.bind_some, hc, Option.bind_some,
      (hf.position?_eq_some_iff hi).mpr hn.symm]
    rfl
  · exact fun q c hc i v => perm_references_at hc (hshares q c hc) (hfresh c (at?_mem_scopes hc))
  · exact fun q c hc => perm_through_at hc (hshares q c hc)

theorem Lexical.once {t : Tree} (h : (ofTree t).Lexical) (ht : t.Numbered) : (ofTree t).Once := by
  have hn := nodup_recorded ht
  constructor
  · intro p s hs r hr q c hc i v hv
    rw [(h.references q c hc i v hv).count_eq]
    refine (count_map_filter (f := (·.2.tag)) hn _ (mem_recorded hs hr)).trans ?_
    simp
  · intro p s hs r hr q c hc
    rw [(h.through q c hc).count_eq]
    refine (count_map_filter (f := (·.2.occurrence)) ?_ _ (mem_recorded hs hr)).trans ?_
    · refine List.Nodup.of_map (·.tag) ?_
      rw [List.map_map]
      exact hn
    · refine if_congr ?_ rfl rfl
      rw [passes, Bool.and_eq_true, List.isPrefixOf_iff_prefix, Option.all_eq_true]
      simp only [decide_eq_true_iff]

theorem resolves_lexically (t : Tree) :
    (ofTree t.numbered).Lexical ∧ (t.wellFormed = true → (ofTree t.numbered).Once) := by
  have h := lexical_ofTree t.numbered
  exact ⟨h, fun ht => h.once (Tree.wellFormed.numbered ht)⟩

def hoistedUse : Tree :=
  Form.program [Form.functionDeclaration (Form.identifier "f") []
    (Form.blockStatement [Form.expressionStatement (Form.identifier "x"),
      Form.blockStatement
        [Form.variableDeclaration "var" [Form.variableDeclarator (Form.identifier "x") Form.null]]])]

theorem resolves_lexically_hoistedUse :
    let root := ofTree hoistedUse.numbered
    hoistedUse.wellFormed = true ∧ root.Lexical ∧ root.Once ∧
      (root.at? [0]).map (·.references.map fun r => (r.name, r.resolved)) =
        some [("x", some 0)] := by
  have ht : hoistedUse.wellFormed = true := by decide
  obtain ⟨hl, ho⟩ := resolves_lexically hoistedUse
  exact ⟨ht, hl, ho ht, by decide⟩

end Scope

end Legible
