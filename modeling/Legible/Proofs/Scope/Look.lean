import Legible.Proofs.Scope.Item
import Legible.Proofs.Tree.Children
import Legible.Proofs.Tree.Objects
import Mathlib.Data.Option.Basic

namespace Legible

theorem Fields.get_induction {motive : Tree → Prop} {fs : Fields} (k : String)
    (hn : motive .null) (hf : ∀ f ∈ fs, motive f.2) : motive (fs.get k) :=
  @Tree.get_induction motive 0 fs k hn hf

namespace Item

def ofLooked (arity : Arity) (view : View) : Tree → List Item
  | .list ts => if arity = .one then [] else ofTrees view ts
  | t => if arity = .many then [] else ofTree view t

theorem ofField_eq (arity : Arity) (view : View) (key : String) (fs : Fields) :
    ofField arity view key fs = ofLooked arity view (fs.get key) := by
  induction fs with
  | nil => simp [ofField, Fields.get, ofLooked, ofTree]
  | cons f fs ih =>
    obtain ⟨k, v⟩ := f
    by_cases hk : k = key
    · have hget : Fields.get key ((k, v) :: fs) = v := by simp [Fields.get, hk]
      rw [hget]
      cases v <;> simp [ofField, ofLooked, hk]
    · have hget : Fields.get key ((k, v) :: fs) = Fields.get key fs := by
        have hb : (key == k) = false := by simp [Ne.symm hk]
        simp [Fields.get, List.lookup_cons, hb]
      rw [hget, ← ih]
      cases v <;> simp [ofField, hk]

theorem ofTree_eq_ofLooked (view : View) (t : Tree) : ofTree view t = ofLooked .one view t := by
  cases t <;> rfl

theorem ofLooked_scalar (arity : Arity) (view : View) (a : Scalar) :
    ofLooked arity view (.scalar a) = [] := by
  cases arity <;> rfl

theorem ofLooked_list (arity : Arity) (view : View) (ts : List Tree) :
    ofLooked arity view (.list ts) =
      if arity = .one then [] else ts.flatMap (ofLooked .one view) := by
  have hts : ofTrees view ts = ts.flatMap (ofLooked .one view) := by
    induction ts with
    | nil => rfl
    | cons t ts ih => rw [ofTrees, List.flatMap_cons, ih, ofTree_eq_ofLooked]
  rw [ofLooked, hts]

theorem ofSteps_eq (tag : Nat) (fs : Fields) (look : Look) (ss : List Step) :
    ofSteps tag fs look ss = ss.flatMap (ofStep tag fs look) := by
  induction ss with
  | nil => rfl
  | cons s ss ih => rw [ofSteps, List.flatMap_cons, ih]

def ofStepAt (tag : Nat) (fs : Fields) (s : Step) : List Item :=
  ofStep tag fs (fun arity view key => ofLooked arity view (fs.get key)) s

theorem ofStepAt_scope (tag : Nat) (fs : Fields) (kind : ScopeKind) (dynamic : Bool)
    (ss : List Step) :
    ofStepAt tag fs (.scope kind dynamic ss) =
      [.scope kind ⟨tag, fs.kind⟩ dynamic (ss.flatMap (ofStepAt tag fs))] := by
  rw [ofStepAt, ofStep, ofSteps_eq]
  rfl

theorem ofLooked_object (arity : Arity) (view : View) (tag : Nat) (fs : Fields) :
    ofLooked arity view (.object tag fs) =
      if arity ≠ .many ∧ ((Tree.object tag fs).isNode || view.takesUntyped) = true then
        (Step.ofView fs view).flatMap (ofStepAt tag fs)
      else [] := by
  simp only [ofLooked, ofTree, ofSteps_eq, ofField_eq]
  by_cases ha : arity = .many
  · rw [if_pos ha, if_neg fun h => h.1 ha]
  · rw [if_neg ha]
    exact if_congr (by simp [ha]) rfl rfl

end Item

namespace Step

/-! ### Places

A step is about some fields of the node, or about the node itself. -/

mutual

def places : Step → List (Option String)
  | .look _ _ key => [some key]
  | .bind _ key => [some key]
  | .self _ => [none]
  | .arguments => []
  | .scope _ _ steps => placesOf steps
termination_by structural s => s

def placesOf : List Step → List (Option String)
  | [] => []
  | s :: ss => places s ++ placesOf ss
termination_by structural ss => ss

end

theorem placesOf_eq (ss : List Step) : placesOf ss = ss.flatMap places := by
  induction ss with
  | nil => rfl
  | cons s ss ih => rw [placesOf, List.flatMap_cons, ih]

theorem places_scope (kind : ScopeKind) (dynamic : Bool) (ss : List Step) :
    places (.scope kind dynamic ss) = ss.flatMap places := by
  rw [places, placesOf_eq]

theorem places_loopScope (head : Tree) (ss : List Step) :
    (loopScope head ss).flatMap places = ss.flatMap places := by
  rw [loopScope]
  split
  · rw [List.flatMap_singleton, places_scope]
  · rfl

theorem places_declareIf (kind : VariableKind) (fs : Fields) :
    (declareIf kind fs).flatMap places = if (fs.get "id").isNull then [] else [some "id"] := by
  rw [declareIf]
  split <;> rfl

theorem places_functionScope (fs : Fields) :
    (functionScope fs).places = [some "params", some "body"] := by
  rw [functionScope, places_scope]
  split <;> rfl

theorem places_classScope (fs : Fields) :
    (classScope fs).flatMap places =
      some "superClass" ::
        ((if fs.kind = "ClassExpression" ∧ (fs.get "id").isNull = false then [some "id"] else []) ++
          [some "body"]) := by
  simp only [classScope, List.flatMap_cons, places_scope, List.flatMap_append, List.flatMap_nil]
  split
  · rename_i hk
    cases hn : (fs.get "id").isNull <;> simp [hk, hn, places_declareIf, places]
  · rename_i hk
    simp [hk, places]

theorem nodup_places_ofNode {fs : Fields} (hd : (fs.map (·.1)).Nodup) :
    ((ofNode fs).flatMap places).Nodup := by
  unfold ofNode
  split
  case h_30 =>
    -- The steps of a kind of no interest are about its children.
    have hkeys : (fs.childKeys.map (look .either .visit)).flatMap places =
        fs.childKeys.map some := by
      rw [List.flatMap_map, List.map_eq_flatMap]
      rfl
    rw [hkeys]
    exact (Fields.nodup_childKeys hd).map (Option.some_injective _)
  all_goals try split_ifs
  all_goals
    simp [places, placesOf_eq, places_loopScope, places_declareIf, places_functionScope,
      places_classScope, *]
  all_goals split <;> simp

theorem nodup_places {fs : Fields} (hd : (fs.map (·.1)).Nodup) (view : View) :
    ((ofView fs view).flatMap places).Nodup := by
  have hnode := nodup_places_ofNode hd
  cases view with
  | visit => exact hnode
  | target b =>
    rw [ofView]
    unfold ofTarget
    split
    case h_6 => exact hnode
    all_goals simp [places]
  | property b =>
    rw [ofView, ofProperty]
    split_ifs <;> simp [places]
  | declarator hoisted => simp [ofView, places]
  | functionBody =>
    rw [ofView]
    split_ifs
    · simp [places]
    · exact hnode
  | importSpecifier => simp [ofView, places]
  | exportSpecifier => simp [ofView, places]

/-! ### Steps that fit -/

end Step

def View.suits : View → Tree → Bool
  | .importSpecifier, t | .exportSpecifier, t => (t.get "local").isKind "Identifier"
  | _, _ => true

namespace Step

inductive Fits (fs : Fields) : Step → Prop where
  | look {arity view key} (one : arity ≠ .many → view.suits (fs.get key) = true)
      (many : ∀ u ∈ (fs.get key).items, view.suits u = true) : Fits fs (.look arity view key)
  | bind {b key} (h : (fs.get key).isKind "Identifier" = true) : Fits fs (.bind b key)
  | self {b} (h : fs.kind = "Identifier") : Fits fs (.self b)
  | arguments : Fits fs .arguments
  | scope {kind dynamic steps} (h : ∀ s ∈ steps, Fits fs s) : Fits fs (.scope kind dynamic steps)

variable {fs : Fields}

theorem Fits.visit (arity : Arity) (key : String) : Fits fs (.look arity .visit key) :=
  .look (fun _ => rfl) fun _ _ => rfl

theorem Fits.target (arity : Arity) (b : Binding) (key : String) :
    Fits fs (.look arity (.target b) key) :=
  .look (fun _ => rfl) fun _ _ => rfl

theorem Fits.declareIf {kind : VariableKind}
    (h : (fs.get "id").isNull = true ∨ (fs.get "id").isKind "Identifier" = true) :
    ∀ s ∈ declareIf kind fs, Fits fs s := by
  intro s hs
  rw [Step.declareIf] at hs
  split at hs
  · cases hs
  · rename_i hn
    obtain rfl := List.mem_singleton.mp hs
    exact .bind (h.resolve_left hn)

theorem Fits.functionScope : Fits fs (functionScope fs) := by
  refine .scope fun s hs => ?_
  rcases List.mem_append.mp hs with hs | hs
  · split at hs
    · cases hs
    · obtain rfl := List.mem_singleton.mp hs
      exact .arguments
  · simp only [List.mem_cons, List.not_mem_nil, or_false] at hs
    rcases hs with rfl | rfl
    · exact .target ..
    · exact .look (fun _ => rfl) fun _ _ => rfl

theorem Fits.classScope (h : fs.kind = "ClassExpression" →
      (fs.get "id").isNull = true ∨ (fs.get "id").isKind "Identifier" = true) :
    ∀ s ∈ classScope fs, Fits fs s := by
  rw [Step.classScope, List.forall_mem_cons, List.forall_mem_singleton]
  refine ⟨.visit .., .scope fun s hs => ?_⟩
  rcases List.mem_append.mp hs with hs | hs
  · split at hs
    · rename_i hk
      exact Fits.declareIf (h hk) s hs
    · cases hs
  · obtain rfl := List.mem_singleton.mp hs
    exact .visit ..

theorem Fits.loopScope {head : Tree} {ss : List Step} (h : ∀ s ∈ ss, Fits fs s) :
    ∀ s ∈ loopScope head ss, Fits fs s := by
  rw [Step.loopScope]
  split
  · rw [List.forall_mem_singleton]
    exact .scope h
  · exact h

theorem fits_ofNode (h : fs.fits = true) : ∀ s ∈ ofNode fs, Fits fs s := by
  simp only [Fields.fits, Bool.and_eq_true, Bool.or_eq_true, Bool.not_eq_true'] at h
  have hid : ["FunctionDeclaration", "FunctionExpression", "ClassDeclaration",
      "ClassExpression"].contains fs.kind = true →
      (fs.get "id").isNull = true ∨ (fs.get "id").isKind "Identifier" = true := by
    intro hk
    rw [hk] at h
    simpa using h.1
  have hspec : ["ImportDeclaration", "ExportNamedDeclaration"].contains fs.kind = true →
      ∀ u ∈ (fs.get "specifiers").items, (u.get "local").isKind "Identifier" = true := by
    intro hk
    rw [hk] at h
    simpa using h.2
  have hclass := Fits.classScope fun hk => hid (by rw [hk]; decide)
  unfold ofNode
  split
  case h_2 hk =>
    rw [List.forall_mem_append, List.forall_mem_singleton]
    exact ⟨Fits.declareIf (hid (by rw [hk]; decide)), .functionScope⟩
  case h_3 hk =>
    split
    · exact List.forall_mem_singleton.mpr .functionScope
    · refine List.forall_mem_singleton.mpr (.scope ?_)
      rw [List.forall_mem_append, List.forall_mem_singleton]
      exact ⟨Fits.declareIf (hid (by rw [hk]; decide)), .functionScope⟩
  case h_6 hk =>
    rw [List.forall_mem_append]
    exact ⟨Fits.declareIf (hid (by rw [hk]; decide)), hclass⟩
  case h_17 =>
    exact List.forall_mem_singleton.mpr (.look (fun _ => rfl) fun _ _ => rfl)
  case h_28 hk =>
    exact List.forall_mem_singleton.mpr (.look (absurd rfl) (hspec (by rw [hk]; decide)))
  case h_29 hk =>
    split_ifs
    · exact List.forall_mem_singleton.mpr (.visit ..)
    · exact List.forall_mem_singleton.mpr (.look (absurd rfl) (hspec (by rw [hk]; decide)))
    · simp
  case h_30 =>
    rw [List.forall_mem_map]
    exact fun _ _ => .visit ..
  all_goals try refine Fits.loopScope ?_
  all_goals try split_ifs
  all_goals simp_all [Fits.visit, Fits.target, Fits.functionScope, Fits.self, Fits.scope]

theorem fits_ofView (h : fs.fits = true) {view : View} {tag : Nat}
    (hv : view.suits (.object tag fs) = true) : ∀ s ∈ ofView fs view, Fits fs s := by
  have hnode := fits_ofNode h
  cases view with
  | visit => exact hnode
  | target b =>
    rw [ofView]
    unfold ofTarget
    split
    case h_6 => exact hnode
    all_goals simp_all [Fits.visit, Fits.target, Fits.self]
    exact .look (fun _ => rfl) fun _ _ => rfl
  | property b =>
    rw [ofView, ofProperty]
    split_ifs <;> simp [Fits.visit, Fits.target]
  | declarator hoisted =>
    rw [ofView, List.forall_mem_cons, List.forall_mem_singleton]
    exact ⟨.target .., .visit ..⟩
  | functionBody =>
    rw [ofView]
    split_ifs
    · exact List.forall_mem_singleton.mpr (.visit ..)
    · exact hnode
  | importSpecifier => exact List.forall_mem_singleton.mpr (.bind hv)
  | exportSpecifier => exact List.forall_mem_singleton.mpr (.bind hv)

mutual

def placed (kind : String) : Step → Bool
  | .scope k dynamic steps =>
    (!dynamic || k == .withBody || kind == "Program") && placedAll kind steps
  | _ => true
termination_by structural s => s

def placedAll (kind : String) : List Step → Bool
  | [] => true
  | s :: ss => placed kind s && placedAll kind ss
termination_by structural ss => ss

end

theorem placedAll_iff {kind : String} {ss : List Step} :
    placedAll kind ss = true ↔ ∀ s ∈ ss, s.placed kind = true := by
  induction ss with
  | nil => simp [placedAll]
  | cons s ss ih => rw [placedAll, Bool.and_eq_true, ih, List.forall_mem_cons]

theorem placedAll_append {kind : String} {ss ss' : List Step} :
    placedAll kind (ss ++ ss') = (placedAll kind ss && placedAll kind ss') := by
  rw [Bool.eq_iff_iff, Bool.and_eq_true, placedAll_iff, placedAll_iff, placedAll_iff,
    List.forall_mem_append]

theorem placedAll_declareIf (kind : String) (k : VariableKind) (fs : Fields) :
    placedAll kind (declareIf k fs) = true := by
  rw [declareIf]
  split <;> rfl

theorem placed_functionScope (kind : String) (fs : Fields) :
    placed kind (functionScope fs) = true := by
  rw [functionScope]
  split <;> rfl

theorem placedAll_classScope (kind : String) (fs : Fields) :
    placedAll kind (classScope fs) = true := by
  rw [classScope]
  split
  · simp [placedAll, placed, placedAll_append, placedAll_declareIf]
  · rfl

theorem placedAll_loopScope {kind : String} {head : Tree} {ss : List Step}
    (h : placedAll kind ss = true) : placedAll kind (loopScope head ss) = true := by
  rw [loopScope]
  split
  · rw [placedAll, placed, h]
    rfl
  · exact h

theorem placed_ofNode (fs : Fields) : placedAll fs.kind (ofNode fs) = true := by
  unfold ofNode
  split
  case h_30 =>
    rw [placedAll_iff, List.forall_mem_map]
    exact fun _ _ => rfl
  all_goals try refine placedAll_loopScope ?_
  all_goals try split_ifs
  all_goals simp_all [placedAll, placed, placedAll_append, placedAll_declareIf,
    placed_functionScope, placedAll_classScope]

theorem placed_ofView (fs : Fields) (view : View) : placedAll fs.kind (ofView fs view) = true := by
  have hnode := placed_ofNode fs
  cases view with
  | visit => exact hnode
  | target b =>
    rw [ofView]
    unfold ofTarget
    split
    case h_6 => exact hnode
    all_goals rfl
  | property b =>
    rw [ofView, ofProperty]
    split_ifs <;> rfl
  | declarator hoisted => rfl
  | functionBody =>
    rw [ofView]
    split_ifs
    · rfl
    · exact hnode
  | importSpecifier => rfl
  | exportSpecifier => rfl

end Step

end Legible
