import Legible.Naming.Deduce
import Legible.Proofs.Scope.Enclosing

namespace Legible.Naming.Deduction

open Scope

def ownerTable (root : Scope) : Std.HashMap Nat Path :=
  root.owners.foldr (fun o m => m.insert o.1 o.2) ∅

theorem getElem?_ownerTable (root : Scope) (tag : Nat) :
    (ownerTable root)[tag]? = root.acquire? tag := by
  rw [ownerTable, acquire?]
  induction root.owners with
  | nil => exact Std.HashMap.getElem?_empty
  | cons o os ih =>
    rw [List.foldr_cons, Std.HashMap.getElem?_insert, List.lookup_cons, ih]
    by_cases h : o.1 = tag
    · simp [h]
    · simp [h, beq_false_of_ne (Ne.symm h)]

def after (t : Tree) (vs : List Visit) : Deduction :=
  vs.foldl (visit (ownerTable (ofTree t))) ⟨ofTree t, ∅, [], 0⟩

theorem after_concat (t : Tree) (vs : List Visit) (v : Visit) :
    after t (vs ++ [v]) = visit (ownerTable (ofTree t)) (after t vs) v := by
  rw [after, List.foldl_append]
  rfl

def track (root : Scope) (entered : List Path) (v : Visit) : List Path :=
  match v.phase with
  | .enter => (root.acquire? v.node.tag).toList ++ entered
  | .leave => if (root.acquire? v.node.tag).isSome then entered.tail else entered

theorem entered_nameAt (path : Path) (d : Deduction) (t : Tree) :
    (d.nameAt path t).entered = d.entered := by
  rw [nameAt]
  split
  · rfl
  · split
    · rfl
    · split <;> rfl

theorem entered_visit (root : Scope) (d : Deduction) (v : Visit) :
    (d.visit (ownerTable root) v).entered = track root d.entered v := by
  rw [visit, track, getElem?_ownerTable]
  cases v.phase with
  | enter =>
    rw [enter]
    simp only
    split
    · rename_i h
      rw [h]
    · rw [entered_nameAt]
  | leave =>
    simp only [leave]
    split <;> rfl

theorem entered_after (t : Tree) (vs : List Visit) :
    (after t vs).entered = vs.foldl (track (ofTree t)) [] := by
  have hfold : ∀ d : Deduction, (vs.foldl (visit (ownerTable (ofTree t))) d).entered =
      vs.foldl (track (ofTree t)) d.entered := by
    induction vs with
    | nil => exact fun _ => rfl
    | cons v vs ih => exact fun d => (ih _).trans (by rw [entered_visit]; rfl)
  exact hfold _

end Legible.Naming.Deduction

namespace Legible

open Naming.Deduction

namespace Tree

def edges (t : Tree) : List (String × Tree) :=
  t.childKeys.flatMap fun key => (t.childrenAt key).map (key, ·)

theorem mem_edges {t : Tree} {e : String × Tree} :
    e ∈ t.edges ↔ e.1 ∈ t.childKeys ∧ e.2 ∈ t.childrenAt e.1 := by
  rw [edges, List.mem_flatMap]
  constructor
  · rintro ⟨key, hkey, he⟩
    obtain ⟨c, hc, rfl⟩ := List.mem_map.mp he
    exact ⟨hkey, hc⟩
  · exact fun ⟨hkey, hc⟩ => ⟨e.1, hkey, List.mem_map.mpr ⟨e.2, hc, rfl⟩⟩

theorem visits_object (parent : Option Tree) (tag : Nat) (fs : Fields) :
    (object tag fs).visits parent = ⟨.enter, object tag fs, parent⟩ ::
      ((object tag fs).edges.flatMap fun e => e.2.visits (some (object tag fs))) ++
        [⟨.leave, object tag fs, parent⟩] := by
  have hfields : ((object tag fs).edges.flatMap fun e => e.2.visits (some (object tag fs))) =
      (Fields.childKeys fs).flatMap fun key => fieldVisits (object tag fs) key fs := by
    rw [edges, List.flatMap_assoc]
    refine List.flatMap_congr fun key _ => ?_
    rw [fieldVisits_eq tag fs, List.flatMap_map]
  rw [visits, hfields]

theorem Stands.under {t c u : Tree} {way : List (Tree × String)} {key : String}
    (h : Stands c way u) (hkey : key ∈ t.childKeys) (hc : c ∈ t.childrenAt key) :
    Stands t (way ++ [(t, key)]) u := by
  induction h with
  | self => exact Stands.self.child hkey hc
  | child _ hk hd ih => exact ih.child hk hd

end Tree

theorem exists_of_flatMap_eq {α β : Type} {f : α → List β} {l : List α} {pre post : List β} {b : β}
    (h : l.flatMap f = pre ++ b :: post) : ∃ l₁ a l₂ pre' post', l = l₁ ++ a :: l₂ ∧
      pre = l₁.flatMap f ++ pre' ∧ f a = pre' ++ b :: post' := by
  induction l generalizing pre with
  | nil => simp at h
  | cons a l ih =>
    rw [List.flatMap_cons, List.append_eq_append_iff] at h
    rcases h with ⟨mid, rfl, h⟩ | ⟨mid, ha, h⟩
    · obtain ⟨l₁, a', l₂, pre', post', rfl, rfl, ha⟩ := ih h
      exact ⟨a :: l₁, a', l₂, pre', post', rfl, by simp, ha⟩
    · cases mid with
      | nil =>
        have hrest : l.flatMap f = [] ++ b :: post := h.symm
        obtain ⟨l₁, a', l₂, pre', post', rfl, hpre, ha'⟩ := ih hrest
        rw [List.nil_eq_append_iff] at hpre
        refine ⟨a :: l₁, a', l₂, pre', post', rfl, ?_, ha'⟩
        rw [List.flatMap_cons, ha, hpre.1, hpre.2]
        simp
      | cons b' mid =>
        obtain ⟨rfl, -⟩ := List.cons_eq_cons.mp h
        exact ⟨[], a, l, pre, mid, rfl, rfl, ha⟩

namespace Scope

variable (root : Scope)

theorem foldl_track_visits (u : Tree) (parent : Option Tree) (entered : List Path) :
    (u.visits parent).foldl (track root) entered = entered := by
  induction u using Tree.children_induction generalizing parent entered with
  | node u ih =>
    cases u with
    | scalar a => rfl
    | list ts => rfl
    | object tag fs =>
      have hedges : ∀ es : List (String × Tree), es ⊆ (Tree.object tag fs).edges → ∀ entered,
          (es.flatMap fun e => e.2.visits (some (.object tag fs))).foldl (track root) entered =
            entered := by
        intro es
        induction es with
        | nil => exact fun _ _ => rfl
        | cons e es ihes =>
          intro hes entered
          rw [List.cons_subset, Tree.mem_edges] at hes
          rw [List.flatMap_cons, List.foldl_append,
            ih e.2 (Tree.mem_children.mpr ⟨e.1, hes.1⟩), ihes hes.2]
      rw [Tree.visits_object, List.cons_append, List.foldl_cons, List.foldl_append,
        hedges _ (List.Subset.refl _), List.foldl_cons, List.foldl_nil, track, track]
      cases root.acquire? (Tree.object tag fs).tag <;> rfl

theorem foldl_track_edges (es : List (String × Tree)) (parent : Option Tree)
    (entered : List Path) :
    (es.flatMap fun e => e.2.visits parent).foldl (track root) entered = entered := by
  induction es with
  | nil => rfl
  | cons e es ih => rw [List.flatMap_cons, List.foldl_append, foldl_track_visits, ih]

theorem exists_way_of_visits {u : Tree} {parent : Option Tree} {pre post : List Visit} {v : Visit}
    (h : u.visits parent = pre ++ v :: post) (hv : v.phase = .enter) (entered : List Path) :
    ∃ way, u.Stands way v.node ∧
      pre.foldl (track root) entered = root.enclosing way ++ entered := by
  induction u using Tree.children_induction generalizing parent pre post entered with
  | node u ih =>
    cases u with
    | scalar a => simp [Tree.visits] at h
    | list ts => simp [Tree.visits] at h
    | object tag fs =>
      rw [Tree.visits_object, List.cons_append] at h
      cases pre with
      | nil =>
        obtain ⟨rfl, -⟩ := List.cons_eq_cons.mp h
        exact ⟨[], .self, rfl⟩
      | cons x pre =>
        rw [List.cons_append, List.cons_eq_cons] at h
        obtain ⟨rfl, h⟩ := h
        rcases List.append_eq_append_iff.mp h with ⟨mid, rfl, hlast⟩ | ⟨mid, hmid, hlast⟩
        · -- The last visit does not enter a node.
          have hmem : v ∈ [(⟨.leave, .object tag fs, parent⟩ : Visit)] := by
            rw [hlast]
            exact List.mem_append_right _ List.mem_cons_self
          rw [List.mem_singleton.mp hmem] at hv
          cases hv
        · cases mid with
          | nil =>
            obtain ⟨rfl, -⟩ := List.cons_eq_cons.mp hlast
            cases hv
          | cons x mid =>
            obtain ⟨rfl, -⟩ := List.cons_eq_cons.mp hlast
            obtain ⟨es, e, es', pre', post', hes, rfl, he⟩ := exists_of_flatMap_eq hmid
            have hmem : e ∈ (Tree.object tag fs).edges :=
              hes ▸ List.mem_append_right _ List.mem_cons_self
            rw [Tree.mem_edges] at hmem
            obtain ⟨way, hway, hentered⟩ := ih e.2 (Tree.mem_children.mpr ⟨e.1, hmem⟩) he
              (track root entered ⟨.enter, .object tag fs, parent⟩)
            refine ⟨_, hway.under hmem.1 hmem.2, ?_⟩
            rw [List.foldl_cons, List.foldl_append, foldl_track_edges, hentered, enclosing_append,
              List.append_assoc, enclosing_cons]
            simp [track, enclosing]

end Scope

end Legible
