import Legible.Proofs.Simplify.Sound

namespace Legible

namespace Tree

def Lacks (kinds : List String) (t : Tree) : Prop :=
  ∀ o ∈ t.objects, o.2.kind ∉ kinds

variable {kinds : List String}

theorem lacks_list {ts : List Tree} : (list ts).Lacks kinds ↔ ∀ t ∈ ts, t.Lacks kinds := by
  simp only [Lacks, objects_list, List.mem_flatMap]
  constructor
  · exact fun h t ht o ho => h o ⟨t, ht, ho⟩
  · rintro h o ⟨t, ht, ho⟩
    exact h t ht o ho

theorem lacks_object {tag : Nat} {fs : Fields} : (object tag fs).Lacks kinds ↔
    (object tag fs).kind ∉ kinds ∧ ∀ f ∈ fs, f.2.Lacks kinds := by
  have hkind : (object tag fs).kind = fs.kind := (Fields.kind_eq fs).symm
  simp only [Lacks, objects_object, List.forall_mem_cons, List.mem_flatMap, hkind]
  refine and_congr_right fun _ => ⟨fun h f hf o ho => h o ⟨f, hf, ho⟩, ?_⟩
  rintro h o ⟨f, hf, ho⟩
  exact h f hf o ho

theorem Lacks.kind {t : Tree} (h : t.Lacks kinds) (hk : "" ∉ kinds) : t.kind ∉ kinds := by
  cases t with
  | scalar a => exact hk
  | list ts => exact hk
  | object tag fs => exact (lacks_object.mp h).1

theorem Lacks.get {t : Tree} (h : t.Lacks kinds) (key : String) : (t.get key).Lacks kinds := by
  cases t with
  | scalar a => exact nofun
  | list ts => exact nofun
  | object tag fs =>
    exact get_induction (motive := Lacks kinds) key nofun (lacks_object.mp h).2

theorem Lacks.childrenAt {t c : Tree} {key : String} (h : t.Lacks kinds)
    (hc : c ∈ t.childrenAt key) : c.Lacks kinds := by
  have hget := h.get key
  rw [Tree.childrenAt] at hc
  cases hv : t.get key with
  | scalar a => rw [hv] at hc; cases hc
  | list ts =>
    rw [hv] at hget hc
    exact lacks_list.mp hget c (mem_heldNodes_of_list.mp hc).1
  | object tag fs =>
    rw [hv, heldNodes] at hc
    split at hc
    · rw [List.mem_singleton.mp hc, ← hv]
      exact hget
    · cases hc

theorem Lacks.numbered {t : Tree} (h : t.Lacks kinds) : t.numbered.Lacks kinds := by
  have huntagged : ∀ u : Tree, u.untagged.Lacks kinds ↔ u.Lacks kinds := by
    intro u
    rw [Lacks, objects_untagged, List.forall_mem_map]
    simp only [Fields.kind_untaggedFields]
    rfl
  rw [← huntagged, untagged_numbered, huntagged]
  exact h

end Tree

namespace Pattern

variable (kinds : List String)

mutual

def lacks : Pattern → Bool
  | .hole _ => true
  | .scalar _ => true
  | .list ps => lacksItems ps
  | .object fs => (object fs).kind?.any (!kinds.contains ·) && lacksFields fs
termination_by structural p => p

def lacksItems : List Pattern → Bool
  | [] => true
  | p :: ps => p.lacks && lacksItems ps
termination_by structural ps => ps

def lacksFields : List (String × Pattern) → Bool
  | [] => true
  | (_, p) :: fs => p.lacks && lacksFields fs
termination_by structural fs => fs

end

variable {kinds}

theorem lacks_built {s : Assignment} (hs : ∀ n, (s n).Lacks kinds) {p : Pattern}
    (hp : p.lacks kinds = true) : (p.built s).Lacks kinds := by
  induction p with
  | hole g => exact hs g.name
  | scalar a => exact nofun
  | list ps ih =>
    rw [lacks] at hp
    rw [built, Tree.lacks_list]
    intro c hc
    induction ps with
    | nil => cases hc
    | cons p ps ihs =>
      rw [List.forall_mem_cons] at ih
      rw [lacksItems, Bool.and_eq_true] at hp
      rw [builtItems, List.mem_append] at hc
      rcases hc with hc | hc
      · have hbuilt := ih.1 hp.1
        unfold spliced at hc
        split at hc
        · rename_i hts
          rw [hts] at hbuilt
          exact Tree.lacks_list.mp hbuilt c hc
        · rwa [List.mem_singleton.mp hc]
      · exact ihs ih.2 hp.2 hc
  | object fs ih =>
    rw [lacks, Bool.and_eq_true, Option.any_eq_true] at hp
    obtain ⟨⟨kind, hk, hkind⟩, hfields⟩ := hp
    have hbuilt := Tree.kind_of_kind? (kind?_built hk s)
    rw [built] at hbuilt ⊢
    rw [Tree.lacks_object, hbuilt]
    refine ⟨by simpa using hkind, ?_⟩
    clear hk hbuilt
    induction fs with
    | nil => exact fun f hf => absurd hf List.not_mem_nil
    | cons f fs ihs =>
      obtain ⟨k, p⟩ := f
      rw [List.forall_mem_cons] at ih
      rw [lacksFields, Bool.and_eq_true] at hfields
      rw [builtFields, List.forall_mem_cons]
      exact ⟨ih.1 hfields.1, ihs ih.2 hfields.2⟩

end Pattern

namespace Simplify

open Pattern Behaviour

variable {σ ν : Type} (M : Setting σ ν)

/-! ### Entering a node -/

theorem lacks_replacement : ∀ r ∈ simpleRules ++ braceRules,
    (∃ kind ∈ excludedKinds, r.pattern.kind? = some kind) ∨ r.replacement.lacks excludedKinds = true := by
  decide

theorem lacks_step {t u : Tree} (ht : t.Lacks excludedKinds) (h : Step t u) :
    u.Lacks excludedKinds := by
  obtain ⟨r, hr, -, rfl, hkind⟩ := result_of_step (ht.kind (by decide)) h
  rcases lacks_replacement r hr with ⟨kind, hmem, hk⟩ | hlacks
  · exact absurd hmem (hkind kind hk)
  · refine lacks_built (fun n => ?_) hlacks
    exact forall_assignment (P := Tree.Lacks excludedKinds) nofun (fun _ => Tree.lacks_list)
      (fun _ key h => h.get key) ht n

theorem read_entered {t : Tree} (ht : t.Lacks excludedKinds) (place : Place) {s : State}
    (hs : s.names = ∅) : (entered t place s).Lacks excludedKinds ∧
      M.read (entered t place s) = M.read t ∧ (enter t place s).2.names = ∅ := by
  let P (_ : List Rule) (u : Tree) (s' : State) : Prop :=
    u.Lacks excludedKinds ∧ M.read u = M.read t ∧ s'.names = ∅
  have hstep : ∀ rs r rs' u s' v, rs ⊆ rules → P rs u s' → rs.Perm (r :: rs') →
      r.apply? u = some v → P rs' (carried u v s').1 (carried u v s').2 := by
    rintro rs r rs' u s' v hrs ⟨hu, hread, hnames⟩ hp hv
    have hfunction : isFunction u = false := by
      rw [← Bool.not_eq_true, isFunction, Tree.isKind_iff]
      intro hk
      have := hu.kind (by decide)
      rw [Tree.kind_of_kind? hk] at this
      exact this (by decide)
    have hs : Step u v := ⟨r, hrs (hp.symm.subset List.mem_cons_self), v, hv, Or.inl rfl⟩
    rw [carried_of_not_isFunction hfunction]
    exact ⟨lacks_step hu hs, (read_step M (hu.kind (by decide)) hs).trans hread, hnames⟩
  have hstart : P rules (s.current t) s := by
    rw [current_of_empty hs]
    exact ⟨ht, rfl, hs⟩
  rcases enter_cases place hstep hstart with ⟨he, -⟩ | ⟨rs', u, s', he, -, hP, -⟩
  · rw [entered, he]
    exact ⟨ht, rfl, hs⟩
  · rw [entered, he]
    exact hP

/-! ### Leaving a node -/

theorem exec_flattened (t : Tree) :
    sequence ((flattened t).map fun c => M.exec (M.read c)) = M.exec (M.read t) := by
  induction t using statements_induction with
  | list t hk ih =>
    rw [flattened_list hk, M.read_statements (Or.inl (Tree.isKind_iff.mp hk)), List.map_flatMap,
      sequence_flatMap, Setting.exec, Setting.execAll, List.map_map]
    exact congrArg sequence (List.map_congr_left ih)
  | other t hk =>
    rw [flattened_other hk]
    exact sequence_singleton _

theorem read_asBlock {t : Tree} (hn : t.isNode = true) (place : Place) :
    M.read (asBlock t place) = M.read t := by
  rcases asBlock_cases t place with ⟨hb, -⟩ | ⟨hb, hk, -⟩
  · rw [hb]
  · rw [Tree.isKind_iff] at hk
    rw [hb, M.read_statements (Or.inr (kind?_block hn)), M.read_statements (Or.inl hk),
      Tree.get_erase_of_ne (by decide), Tree.get_set_of_ne (by decide)]

theorem read_flattenStatements {t : Tree} (hn : t.isNode = true) (hk : t.kind ≠ "SwitchCase") :
    M.read (flattenStatements t) = M.read t := by
  rcases flattenStatements_cases t with ⟨hf, -⟩ | ⟨field, hf, hfield, -⟩
  · rw [hf]
  · obtain ⟨hkind, rfl⟩ : (t.kind? = some "Program" ∨ t.kind? = some "BlockStatement") ∧
        field = "body" := by
      rcases statementField?_cases hfield with ⟨h, rfl⟩ | ⟨h, rfl⟩ | ⟨h, -⟩
      · exact ⟨Or.inl (Tree.kind?_of_kind h (by decide)), rfl⟩
      · exact ⟨Or.inr (Tree.kind?_of_kind h (by decide)), rfl⟩
      · exact absurd h hk
    have hsame : (flattenStatements t).kind? = t.kind? := by
      rw [hf, Tree.kind?, Tree.get_set_of_ne (by decide), Tree.kind?]
    rw [M.read_statements (hsame ▸ hkind), M.read_statements hkind, hf, Tree.get_set hn,
      Tree.items, Setting.execAll, Setting.execAll, List.map_map, List.map_map, List.map_flatMap,
      sequence_flatMap]
    refine congrArg (Sense.statement ∘ sequence) (List.map_congr_left fun c _ => ?_)
    exact exec_flattened M c

theorem read_left {t : Tree} (hn : t.isNode = true) (hk : t.kind ≠ "SwitchCase") (place : Place) :
    M.read (left t place) = M.read t := by
  have hnode : (asBlock t place).isNode = true ∧ (asBlock t place).kind ≠ "SwitchCase" := by
    rcases asBlock_cases t place with ⟨hb, -⟩ | ⟨hb, -⟩
    · rw [hb]
      exact ⟨hn, hk⟩
    · rw [hb, Tree.kind_of_kind? (kind?_block hn)]
      exact ⟨isNode_of_kind? (kind?_block hn), by decide⟩
  rw [left, read_flattenStatements M hnode.1 hnode.2, read_asBlock M hn]

/-! ### The walk -/

theorem read_grown {R : Tree → Tree → Prop} (hR : ∀ c d, R c d → M.read d = M.read c) {c d : Tree}
    (h : Tree.Grown R c d) : M.read d = M.read c := by
  cases h with
  | node _ h => exact hR c d h
  | other _ => rfl
  | list h =>
    rw [Setting.read, Setting.read, M.readItems_eq, M.readItems_eq]
    congr 1
    induction h with
    | nil => rfl
    | @cons c d cs ds h _ ih =>
      have hread : M.read d = M.read c := by
        rw [Tree.Held] at h
        split at h
        · exact hR c d h
        · rw [h]
      rw [List.map_cons, List.map_cons, hread, ih]

structure Same (t u : Tree) : Prop where
  node : u.isNode = true
  distinct : u.distinct = true
  read : M.read u = M.read t

theorem same_left {t : Tree} (hn : t.isNode = true) (hd : t.distinct = true)
    (ht : t.Lacks excludedKinds) (place : Place) {s : State} (hs : s.names = ∅) {v : Tree}
    (hv : Tree.Walked (fun _ => Same M) (entered t place s).childKeys (entered t place s) v) :
    Same M t (left v place) := by
  have hR : ∀ (place : Place) c d, Same M c d → d.isNode = true ∧ d.distinct = true :=
    fun _ _ _ h => ⟨h.node, h.distinct⟩
  obtain ⟨hlacks, hread, -⟩ := read_entered M ht place hs
  have hun := isNode_entered hn place s
  have hud := distinct_entered hd place s
  have hvd := hv.distinct hR hun hud
  have hkind : v.kind = (entered t place s).kind := by
    rw [Tree.kind, hv.kind? hR hud (List.Subset.refl _), Tree.kind]
  have hswitch : v.kind ≠ "SwitchCase" := by
    intro hk
    have hno := hlacks.kind (by decide)
    rw [← hkind, hk] at hno
    exact hno (by decide)
  have hsame : M.read v = M.read (entered t place s) := by
    refine M.read_congr hun hv.node hud hvd hv.names fun key => ?_
    by_cases hkey : key ∈ (entered t place s).childKeys
    · refine read_grown M ?_ (hv.child key hkey)
      rintro c d ⟨p, -, h⟩
      exact h.read
    · rw [hv.other key hkey]
  have hleaves := leaves_left hv.node hvd place
  exact ⟨hleaves.node, hleaves.distinct, (read_left M hv.node hswitch place).trans (hsame.trans hread)⟩

/-- A program without functions, `switch`, `for`-`in` and `for`-`of` has the same executions when it
has been simplified, whatever its atoms do. -/
theorem run_simplify {t : Tree} (hk : t.kind? = some "Program") (hd : t.distinct = true)
    (ht : t.Lacks excludedKinds) (s : σ) (e : Ending ν) (s' : σ) :
    M.run (simplify t).1 s e s' ↔ M.run t s e s' := by
  have hn : t.numbered.isNode = true := isNode_of_kind? ((kind?_numbered t).trans hk)
  have hR : ∀ (place : Place) c d, Same M c d → d.isNode = true ∧ d.distinct = true :=
    fun _ _ _ h => ⟨h.node, h.distinct⟩
  have hsure : Sure (fun s : State => s.names = ∅)
      (Tree.replace? enter leave (t.numbered.weight + 1) ⟨none, none⟩ t.numbered)
      (Same M t.numbered) := by
    refine walk_sure id (fun _ => Same M) (fun _ t => t.Lacks excludedKinds) (fun _ _ _ => rfl)
      leave_state hR (fun t place s _ _ ht hs => ?_)
      (fun t place s hn hd ht hs v hv => same_left M hn hd ht place hs hv) hn (distinct_numbered hd)
      ht.numbered
    obtain ⟨hlacks, -, hnames⟩ := read_entered M ht place hs
    exact ⟨fun _ _ _ _ _ hc => hlacks.childrenAt hc, hnames⟩
  obtain ⟨u, x, hwalk, hsimplify, -⟩ := exists_walk hk hd
  obtain ⟨u', x', hwalk', hsame, hnames⟩ := hsure ⟨Scope.ofTree t.numbered, ∅, 0⟩ rfl
  obtain ⟨rfl, rfl⟩ := Prod.mk.inj (Option.some.inj (hwalk'.symm.trans hwalk))
  have hread : M.read (simplify t).1 = M.read t := by
    rw [hsimplify, hnames, Names.apply_empty, hsame.read, ← M.read_untagged, Tree.untagged_numbered,
      M.read_untagged]
  rw [Setting.run, hread, Setting.run]

def tracing : Setting (List String) Scalar where
  literal := id
  undefined := .null
  truthy := Scalar.truthy
  truthy_literal _ := rfl
  truthy_undefined := rfl
  atom fs := fun s => .ok .null (s ++ [((Sense.atom fs).part "name").text?.getD ""])
  declare _ _ _ := pure ()

theorem eval_identifier {name : String} (h : name ≠ "undefined") (s : List String) :
    tracing.eval (tracing.read (Form.identifier name)) s = .ok .null (s ++ [name]) := by
  have hread : tracing.read (Form.identifier name) =
      .atom [("type", .scalar (.text "Identifier")), ("name", .scalar (.text name))] := by
    have hnone : tracing.meaning? "Identifier"
        (fun key => tracing.read ((Form.identifier name : Tree).get key)) = none := by
      have hname : (tracing.read ((Form.identifier name : Tree).get "name")).text? = some name := rfl
      simp [Setting.meaning?, Setting.expression?, hname, h, Setting.statement?]
    exact (tracing.read_object 0 _).trans (congrArg (Option.getD · _) hnone)
  rw [hread]
  rfl

def disjunctionProgram : Tree := Form.program [disjunction]

theorem run_simplify_disjunctionProgram :
    disjunctionProgram.kind? = some "Program" ∧ disjunctionProgram.distinct = true ∧
      disjunctionProgram.Lacks excludedKinds ∧
        tracing.run disjunctionProgram [] .normal ["a", "b"] ∧
          ∀ s e s', tracing.run (simplify disjunctionProgram).1 s e s' ↔
            tracing.run disjunctionProgram s e s' := by
  have hk : disjunctionProgram.kind? = some "Program" := rfl
  have hd : disjunctionProgram.distinct = true := by decide
  have hlacks : disjunctionProgram.Lacks excludedKinds := by
    rw [Tree.Lacks]
    decide
  have heval : tracing.shortCircuit true (tracing.read (Form.identifier "a"))
      (tracing.read (Form.identifier "b")) [] = .ok .null ["a", "b"] := by
    have ha := eval_identifier (by decide : "a" ≠ "undefined") []
    have hb := eval_identifier (by decide : "b" ≠ "undefined") ["a"]
    simp only [Setting.shortCircuit, bind, EStateM.bind, ha]
    exact hb
  have hread : tracing.read disjunction = .statement (effect (tracing.shortCircuit true
      (tracing.read (Form.identifier "a")) (tracing.read (Form.identifier "b")))) := by
    rw [tracing.read_expressionStatement rfl]
    exact congrArg (Sense.statement ∘ effect ∘ tracing.eval)
      (tracing.read_or (t := disjunction.get "expression") rfl rfl)
  have hrun : tracing.run disjunctionProgram [] .normal ["a", "b"] := by
    have hprogram : tracing.run disjunctionProgram =
        sequence [tracing.exec (tracing.read disjunction)] :=
      congrArg tracing.exec (tracing.read_statements (Or.inl hk))
    rw [hprogram, sequence_singleton, hread, Setting.exec, effect, after, heval]
    exact ⟨rfl, rfl⟩
  exact ⟨hk, hd, hlacks, hrun, run_simplify tracing hk hd hlacks⟩

end Simplify

end Legible
