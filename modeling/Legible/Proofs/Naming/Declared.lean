import Legible.Proofs.Naming.Entered
import Legible.Proofs.Naming.Idioms
import Legible.Proofs.Scope.Recorded
import Legible.Proofs.Scope.Successive

namespace Legible.Naming

open Scope

namespace Deduction

variable {t : Tree} {d : Deduction} {p q : Path} {i : Nat} {old new : String}

theorem nameAt_eq (d : Deduction) (q : Path) (u : Tree) : d.nameAt q u =
    match deduceName? (d.names.apply u) with
    | none => d
    | some (old, new) =>
      match d.root.lookup? q old with
      | none => d
      | some (p, i) =>
        if new = old then d
        else
          { d with
            root := (d.root.rename p i (d.root.uniqueName q new) d.names).1
            names := (d.root.rename p i (d.root.uniqueName q new) d.names).2
            count := d.count + 1 } := by
  have happly : (if d.names.isEmpty then u else d.names.apply u) = d.names.apply u := by
    split
    · rename_i h
      exact (Names.apply_of_isEmpty h u).symm
    · rfl
  rw [← happly]
  rfl

theorem tracks_nameAt (ht : t.Numbered) (h : Tracks t d.root d.names) (q : Path) (u : Tree) :
    Tracks t (d.nameAt q u).root (d.nameAt q u).names := by
  rw [nameAt_eq]
  split
  · exact h
  · split
    · exact h
    · rename_i p i hl
      split
      · exact h
      · obtain ⟨hp, hi, -⟩ := lookup?_eq_some hl
        obtain ⟨s, v, hs, hv, -⟩ := h.positionAt?_eq_some.mp hi
        exact h.rename ht hs hv (position?_uniqueName hs hp _)

theorem tracks_visit (ht : t.Numbered) (owners : Std.HashMap Nat Path)
    (h : Tracks t d.root d.names) (v : Visit) :
    Tracks t (d.visit owners v).root (d.visit owners v).names := by
  rw [visit]
  cases v.phase with
  | enter =>
    simp only [enter]
    split
    · exact h
    · apply tracks_nameAt ht
      exact h
  | leave =>
    simp only [leave]
    split <;> exact h

theorem tracks_after (ht : t.Numbered) (vs : List Visit) :
    Tracks t (after t vs).root (after t vs).names :=
  List.foldlRecOn (motive := fun d : Deduction => Tracks t d.root d.names) vs _ (tracks_ofTree ht)
    fun _ h v _ => tracks_visit ht _ h v

/-! ### Where the node stands -/

variable {pre post : List Visit} {v : Visit}

theorem exists_stands_heading (ht : t.Numbered) (hprogram : t.isKind "Program" = true)
    (hf : t.formed true = true) (hs : ∀ o ∈ t.objects, o.2.spelled = true)
    (hvisits : t.traverse = pre ++ v :: post) (hv : v.phase = .enter)
    (hkind : (heading v.node).isKind "VariableDeclaration" = true)
    (hwhere : v.node.isKind "VariableDeclaration" = true ∨ ∃ key, HeadSlot v.node key) :
    ∃ way, t.Stands way (heading v.node) ∧
      (after t (pre ++ [v])).entered = (ofTree t).enclosing way := by
  obtain ⟨way, hway, hentered⟩ := exists_way_of_visits (ofTree t) hvisits hv []
  rw [List.append_nil, ← entered_after] at hentered
  rw [after_concat, entered_visit, track, hv, hentered]
  rcases hwhere with hself | ⟨key, hkey⟩
  · refine ⟨way, ?_, ?_⟩
    · rwa [heading_of_declaration hself]
    · rw [hway.acquire?_declaration hprogram ht hf hs hself]
      rfl
  · rw [heading_of_headSlot hkey] at hkind ⊢
    obtain ⟨hchild, hheld⟩ := hkey.child (Pattern.isNode_of_kind? (eq_of_beq hkind))
    refine ⟨_, hway.child hchild hheld, ?_⟩
    rw [enclosing_cons]

/-! ### Which variable is found -/

/-- A declaration of one variable, in the scope at a path, and the variable that is found there under
the name of the declared one. -/
structure Finds (t : Tree) (d : Deduction) (u : Tree) (q : Path) (old : String) (e : Tree) (p : Path)
    (i : Nat) (x : Variable) : Prop where
  declares : DeclaresOne u e
  declared : ∃ s, d.root.at? ((ofTree t).restOf u q) = some s ∧
    ∃ y ∈ s.declared, (e.get "id").tag ∈ y.identifiers ∧ y.name = old
  found : d.root.lookup? q old = some (p, i)
  named : ∃ s, d.root.at? p = some s ∧ s.declared[i]? = some x ∧ x.name = old

/-- Of the scopes on the way to a path, none inside a certain one has a name. -/
def Bare (root : Scope) (h q : Path) (name : String) : Prop :=
  ∀ r, r <+: q → h.length < r.length → (root.at? r).any (·.declares name) = false

theorem exists_finds (h : Tracks t d.root d.names) {u e : Tree} {q : Path}
    (he : DeclaresOne u e) (hid : ⟨(e.get "id").tag, (e.get "id").name⟩ ∈ t.identifiers)
    (hold : d.names.current ⟨(e.get "id").tag, (e.get "id").name⟩ = old) {c : Scope}
    (hc : (ofTree t).at? ((ofTree t).restOf u q) = some c) {y : Variable} (hy : y ∈ c.declared)
    (htag : (e.get "id").tag ∈ y.identifiers) : ∃ p i x, Finds t d u q old e p i x := by
  obtain ⟨s, hs, k, y', hy', hids⟩ := h.exists_of_ofTree hc hy
  rw [← hids] at htag
  have hmem := List.mem_of_getElem? hy'
  have hname : y'.name = old := (h.current _ s hs y' hmem _ hid htag).symm.trans hold
  have hposition : d.root.positionAt? ((ofTree t).restOf u q) old = some k :=
    h.positionAt?_eq_some.mpr ⟨s, y', hs, hy', hname⟩
  obtain ⟨p, i, hl, -⟩ := exists_lookup? (prefix_restOf (ofTree t) u q) (by rw [hposition]; rfl)
  obtain ⟨s', x, hs', hx, hxname⟩ := h.positionAt?_eq_some.mp (lookup?_eq_some hl).2.1
  exact ⟨p, i, x, he, ⟨s, hs, y', hmem, htag, hname⟩, hl, s', hs', hx, hxname⟩

theorem Finds.mem_iff (ht : t.Numbered) (h : Tracks t d.root d.names) {u e : Tree} {q : Path}
    {x : Variable} (hfinds : Finds t d u q old e p i x) : (e.get "id").tag ∈ x.identifiers ↔
      Bare d.root ((ofTree t).restOf u q) q old := by
  obtain ⟨s, hs, y, hy, htag, hyname⟩ := hfinds.declared
  obtain ⟨s', hs', hx, hxname⟩ := hfinds.named
  obtain ⟨k, hk⟩ := List.mem_iff_getElem?.mp hy
  have hposition : d.root.positionAt? ((ofTree t).restOf u q) old = some k :=
    h.positionAt?_eq_some.mpr ⟨s, y, hs, hk, hyname⟩
  obtain ⟨hpq, hi, hinner⟩ := lookup?_eq_some hfinds.found
  constructor
  · intro hmem r hr hlt
    obtain ⟨hpath, -⟩ := h.place_unique ht hs hk hs' hx htag hmem
    exact positionAt?_eq_none_iff.mp (hinner r hr (hpath ▸ hlt))
  · intro hbare
    obtain ⟨r, j, hl, hprefix⟩ := exists_lookup? (prefix_restOf (ofTree t) u q)
      (by rw [hposition]; rfl)
    obtain ⟨rfl, -⟩ := Prod.mk.inj (Option.some.inj (hl.symm.trans hfinds.found))
    have hpath : (ofTree t).restOf u q = r := by
      refine hprefix.eq_of_length_le (Nat.le_of_not_lt fun hlt => ?_)
      rw [positionAt?_eq_none_iff.mpr (hbare r hpq hlt)] at hi
      cases hi
    rw [hpath] at hs hposition
    obtain rfl := Option.some.inj (hs.symm.trans hs')
    obtain rfl := Option.some.inj (hposition.symm.trans hi)
    rw [Option.some.inj (hx.symm.trans hk)]
    exact htag

theorem Finds.rename (ht : t.Numbered) (h : Tracks t d.root d.names) {u e : Tree} {x : Variable}
    (hfinds : Finds t d u q old e p i x) (new : String) :
    let w := d.root.uniqueName q new
    w ≠ old ∧ ∀ o : Occurrence, o.tag ∈ (ofTree t).declaring →
      (d.root.rename p i w d.names).2.current o =
        if o.tag ∈ x.identifiers then w else d.names.current o := by
  intro w
  obtain ⟨s, hs, hx, hxname⟩ := hfinds.named
  constructor
  · intro hw
    have hnone : s.position? w = none :=
      position?_uniqueName hs (lookup?_eq_some hfinds.found).1 new
    rw [hw, (h.indexed p s hs old i).mpr ⟨x, hx, hxname⟩] at hnone
    cases hnone
  · intro o hdeclaring
    obtain ⟨c, hc, y, hy, ho⟩ := mem_declaring.mp hdeclaring
    obtain ⟨r, hr⟩ := exists_path_of_mem_scopes hc
    obtain ⟨s', hs', j, y', hy', hids⟩ := h.exists_of_ofTree hr hy
    exact h.current_rename ht hs hx hs' hy' (hids.symm ▸ ho) w

theorem exists_nameAt (hv : v.phase = .enter)
    (hq : (after t (pre ++ [v])).entered.head? = some q) : ∃ entered,
      after t (pre ++ [v]) = nameAt q { after t pre with entered := entered } v.node := by
  rw [after_concat, visit, hv] at hq ⊢
  simp only [enter] at hq ⊢
  split at hq
  · rename_i hnil
    rw [hnil] at hq
    cases hq
  · rename_i path entered hcons
    rw [entered_nameAt, hcons] at hq
    obtain rfl := Option.some.inj hq
    exact ⟨_, by rw [hcons]⟩

theorem after_of_fits (hv : v.phase = .enter)
    (hq : (after t (pre ++ [v])).entered.head? = some q)
    (hfits : deduceName? ((after t pre).names.apply v.node) = some (old, new))
    (hfound : (after t pre).root.lookup? q old = some (p, i)) :
    let d := after t pre
    let d' := after t (pre ++ [v])
    let renamed := d.root.rename p i (d.root.uniqueName q new) d.names
    (new = old → d'.root = d.root ∧ d'.names = d.names ∧ d'.count = d.count) ∧
      (new ≠ old → d'.root = renamed.1 ∧ d'.names = renamed.2 ∧ d'.count = d.count + 1) := by
  intro d d' renamed
  obtain ⟨entered, hvisit⟩ := exists_nameAt hv hq
  rw [nameAt_eq] at hvisit
  simp only [hfits, hfound] at hvisit
  have hvisit : d' = _ := hvisit
  constructor
  · intro hsame
    rw [hvisit, if_pos hsame]
    exact ⟨rfl, rfl, rfl⟩
  · intro hne
    rw [hvisit, if_neg hne]
    exact ⟨rfl, rfl, rfl⟩

theorem after_of_unfit {vs : List Visit} (h : ∀ v ∈ vs, deduceName? v.node = none) :
    (after t vs).root = ofTree t ∧ (after t vs).names = ∅ ∧ (after t vs).count = 0 := by
  apply List.foldlRecOn (motive := fun d : Deduction =>
    d.root = ofTree t ∧ d.names = ∅ ∧ d.count = 0)
  · exact ⟨rfl, rfl, rfl⟩
  · intro d hd v hv
    rw [visit]
    cases v.phase with
    | enter =>
      simp only [enter]
      split
      · exact hd
      · rw [nameAt_eq]
        simp only [hd.2.1, Names.apply_empty, h v hv]
        exact ⟨hd.1, trivial, hd.2.2⟩
    | leave =>
      simp only [leave]
      split <;> exact hd

end Deduction

open Deduction

/-- A node that an idiom fits declares one variable, and the innermost variable with its name is
renamed. This is the declared one iff no scope in between has the name at that time, as with `let`
and `const` always; then and only then the declared identifier gets the new name. -/
theorem deduces_declared {t : Tree} (ht : t.wellFormed = true) (hprogram : t.isKind "Program" = true)
    (hf : t.formed true = true) (hs : t.spelled = true) {pre post : List Visit} {v : Visit}
    (hvisits : t.numbered.traverse = pre ++ v :: post) (hv : v.phase = .enter) {old new : String}
    (hfits : deduceName? ((after t.numbered pre).names.apply v.node) = some (old, new)) :
    let root := ofTree t.numbered
    let d := after t.numbered pre
    let d' := after t.numbered (pre ++ [v])
    ∃ q e p i x, d'.entered.head? = some q ∧ Finds t.numbered d (heading v.node) q old e p i x ∧
      ((e.get "id").tag ∈ x.identifiers ↔
        Bare d.root (root.restOf (heading v.node) q) q old) ∧
      (((heading v.node).get "kind").text? ≠ some "var" → (e.get "id").tag ∈ x.identifiers) ∧
      (new = old → d'.root = d.root ∧ d'.names = d.names ∧ d'.count = d.count) ∧
      (new ≠ old →
        let w := d.root.uniqueName q new
        w ≠ old ∧ d'.root = (d.root.rename p i w d.names).1 ∧
          d'.names = (d.root.rename p i w d.names).2 ∧ d'.count = d.count + 1 ∧
          (∀ o : Occurrence, o.tag ∈ root.declaring →
            d'.names.current o = if o.tag ∈ x.identifiers then w else d.names.current o) ∧
          (d'.names.apply (e.get "id")).name =
            if (e.get "id").tag ∈ x.identifiers then w else old) := by
  intro root d d'
  have hn := Tree.wellFormed.numbered ht
  have hprogram := (Tree.isKind_numbered t "Program").trans hprogram
  have hf := (Tree.likeness_numbered.formed true (Tree.untagged_numbered t)).mpr hf
  have hs := Tree.forall_objects_numbered (P := fun fs => fs.spelled = true)
    (fun fs => by rw [Fields.spelled_untaggedFields]) (List.all_eq_true.mp hs)
  obtain ⟨way₀, hway₀, -⟩ := exists_way_of_visits root hvisits hv []
  obtain ⟨e, he, hold, hwhere⟩ := declaresOne_of_apply (hway₀.numbered hn).distinct hfits
  obtain ⟨way, hway, hentered⟩ := exists_stands_heading hn hprogram hf hs hvisits hv he.kind hwhere
  obtain ⟨q, hq, c, hc, y, hy, htag⟩ := hway.exists_variable hprogram hn hf hs he.kind he.single
    (List.mem_singleton_self e) he.identifier
  rw [← hentered] at hq
  have hid : ⟨(e.get "id").tag, (e.get "id").name⟩ ∈ t.numbered.identifiers :=
    List.filterMap_subset _ hway.objects he.mem_identifiers
  have htracks := tracks_after hn pre
  obtain ⟨p, i, x, hfinds⟩ := exists_finds htracks he hid hold hc hy htag
  have hiff := hfinds.mem_iff hn htracks
  obtain ⟨hunchanged, hchanged⟩ := after_of_fits hv hq hfits hfinds.found
  refine ⟨q, e, p, i, x, hq, hfinds, hiff, fun hkind => ?_, hunchanged, fun hne => ?_⟩
  · refine hiff.mpr fun r hr hlt => absurd hr.length_le (Nat.not_le_of_lt ?_)
    rwa [restOf, if_neg (by simpa using hkind)] at hlt
  · obtain ⟨hroot, hnames, hcount⟩ := hchanged hne
    obtain ⟨hnew, hcurrent⟩ := hfinds.rename hn htracks new
    have hdeclaring : (e.get "id").tag ∈ root.declaring :=
      mem_declaring.mpr ⟨c, at?_mem_scopes hc, y, hy, htag⟩
    have hnames : d'.names = _ := hnames
    refine ⟨hnew, hroot, hnames, hcount, hnames ▸ hcurrent, ?_⟩
    rw [he.name_apply, hnames, hcurrent _ hdeclaring, hold]

def visitAt (t : Tree) (n : Nat) : Visit :=
  t.traverse.getD n ⟨.enter, t, none⟩

theorem traverse_eq {t : Tree} {n : Nat} (h : n < t.traverse.length) :
    t.traverse = t.traverse.take n ++ visitAt t n :: t.traverse.drop (n + 1) := by
  have hvisit : visitAt t n = t.traverse[n] := by
    rw [visitAt, List.getD_eq_getElem?_getD, List.getElem?_eq_getElem h, Option.getD_some]
  rw [hvisit, List.getElem_cons_drop, List.take_append_drop]

def requiring (kind : String) : Tree :=
  Form.variableDeclaration kind [Form.variableDeclarator (Form.identifier "a")
    (Form.callExpression (Form.identifier "require") [Form.literal (.text "x") "'x'"])]

def nestedRequire : Tree :=
  Form.program [Form.functionDeclaration (Form.identifier "f") []
    (Form.blockStatement [Form.blockStatement [requiring "var"]])]

theorem deduces_declared_nestedRequire :
    let t := nestedRequire.numbered
    let pre := t.traverse.take 6
    let v := visitAt t 6
    let d' := after t (pre ++ [v])
    (nestedRequire.wellFormed = true ∧ nestedRequire.isKind "Program" = true ∧
      nestedRequire.formed true = true ∧ nestedRequire.spelled = true ∧
      t.traverse = pre ++ v :: t.traverse.drop 7 ∧ v.phase = .enter ∧
      deduceName? ((after t pre).names.apply v.node) = some ("a", "x")) ∧
      ∃ e, DeclaresOne (heading v.node) e ∧ d'.count = 1 ∧
        (d'.names.apply (e.get "id")).name = "x" := by
  intro t pre v d'
  have ht : nestedRequire.wellFormed = true := by decide
  have hprogram : nestedRequire.isKind "Program" = true := by decide
  have hf : nestedRequire.formed true = true := by decide
  have hs : nestedRequire.spelled = true := by decide
  have hvisits : t.traverse = pre ++ v :: t.traverse.drop 7 := traverse_eq (by decide)
  have hunfit : ∀ v ∈ pre, deduceName? v.node = none := by decide +kernel
  obtain ⟨hroot, hnames, hcount⟩ := after_of_unfit (t := t) hunfit
  have hfits : deduceName? ((after t pre).names.apply v.node) = some ("a", "x") := by
    rw [hnames, Names.apply_empty]
    decide +kernel
  refine ⟨⟨ht, hprogram, hf, hs, hvisits, rfl, hfits⟩, ?_⟩
  obtain ⟨q, e, p, i, x, hq, hfinds, hiff, -, -, hrenamed⟩ :=
    deduces_declared ht hprogram hf hs hvisits rfl hfits
  have hentered : d'.entered.head? = some [0, 0] := by
    rw [entered_after]
    decide +kernel
  obtain rfl := Option.some.inj (hentered.symm.trans hq)
  have hbare : Bare (after t pre).root ((ofTree t).restOf (heading v.node) [0, 0]) [0, 0] "a" := by
    have hrest : (ofTree t).restOf (heading v.node) [0, 0] = [0] := by decide +kernel
    intro r hr hlt
    rw [hrest] at hlt
    rw [hroot, hr.eq_of_length_le hlt]
    decide +kernel
  obtain ⟨-, -, -, hmore, -, hname⟩ := hrenamed (by decide)
  rw [if_pos (hiff.mpr hbare), hroot] at hname
  rw [hcount] at hmore
  exact ⟨e, hfinds.declares, hmore, hname.trans (by decide +kernel)⟩

def caughtName : Tree :=
  Form.program [Form.tryStatement (Form.blockStatement [])
    (Form.catchClause (Form.identifier "a") (Form.blockStatement [requiring "var"])) Form.null]

def handlerScope : Scope :=
  ((ofTree caughtName.numbered).at? [1]).getD default

def caughtVariable : Variable :=
  handlerScope.declared.getD 0 default

theorem at?_handlerScope : (ofTree caughtName.numbered).at? [1] = some handlerScope := rfl

theorem declared_handlerScope : handlerScope.declared[0]? = some caughtVariable := rfl

theorem rename_caughtVariable (tag : Nat) :
    ((ofTree caughtName.numbered).rename [1] 0 "x" ∅).2[tag]? =
      if tag ∈ [5] then some "x" else none := by
  have htags : caughtVariable.identifiers ++ handlerScope.uses caughtVariable = [5] := by decide
  rw [getElem?_rename at?_handlerScope declared_handlerScope, htags]

theorem deduces_caught :
    let t := caughtName.numbered
    let pre := t.traverse.take 8
    let v := visitAt t 8
    let d := after t pre
    let d' := after t (pre ++ [v])
    (caughtName.wellFormed = true ∧ caughtName.isKind "Program" = true ∧
      caughtName.formed true = true ∧ caughtName.spelled = true ∧
      t.traverse = pre ++ v :: t.traverse.drop 9 ∧ v.phase = .enter ∧
      deduceName? (d.names.apply v.node) = some ("a", "x")) ∧
      (d.root = ofTree t ∧
        (ofTree t).declared.map (fun y => (y.name, y.identifiers)) = [("a", [9])] ∧
        handlerScope.kind = .caught ∧
        handlerScope.declared.map (fun y => (y.name, y.identifiers)) = [("a", [5])]) ∧
      ∃ e, DeclaresOne (heading v.node) e ∧ (e.get "id").tag = 9 ∧
        d'.count = 1 ∧ (d'.names.apply (e.get "id")).name = "a" ∧ d'.names[5]? = some "x" := by
  intro t pre v d d'
  have hunfit : ∀ v ∈ pre, deduceName? v.node = none := by decide +kernel
  obtain ⟨hroot, hnames, hcount⟩ := after_of_unfit (t := t) hunfit
  have hfits : deduceName? ((after t pre).names.apply v.node) = some ("a", "x") := by
    rw [hnames, Names.apply_empty]
    decide +kernel
  have hentered : d'.entered.head? = some [1, 0] := by
    rw [entered_after]
    decide +kernel
  have hfound : (after t pre).root.lookup? [1, 0] "a" = some ([1], 0) := by
    rw [hroot]
    decide
  obtain ⟨-, hrenamed, hmore⟩ := (after_of_fits rfl hentered hfits hfound).2 (by decide)
  have hname : (ofTree t).uniqueName [1, 0] "x" = "x" := by decide +kernel
  rw [hroot, hnames, hname] at hrenamed
  rw [hcount] at hmore
  obtain ⟨e, he, htag, hid⟩ : ∃ e, DeclaresOne (heading v.node) e ∧ (e.get "id").tag = 9 ∧
      (e.get "id").name = "a" :=
    ⟨(v.node.get "declarations").items.getD 0 .null, ⟨by decide, rfl, by decide⟩, by decide,
      by decide⟩
  refine ⟨⟨by decide, by decide, by decide, by decide, traverse_eq (by decide), rfl, hfits⟩,
    ⟨hroot, by decide, by decide, by decide⟩,
    e, he, htag, hmore, ?_, ?_⟩
  · rw [he.name_apply, Names.current_eq, htag, hid, show d'.names = _ from hrenamed,
      rename_caughtVariable, if_neg (by decide)]
    rfl
  · rw [show d'.names = _ from hrenamed, rename_caughtVariable, if_pos (by decide)]

end Legible.Naming
