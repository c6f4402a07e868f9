import Legible.Proofs.Script.Reads
import Legible.Script.Pattern

namespace Legible.Script

open Contents

/-! ### Fields of patterns -/

def patternContents : Tree → Tree
  | .list ts => .list (ts.map asPattern)
  | t => asPattern t

theorem patternItems_eq (ts : List Tree) : patternItems ts = ts.map asPattern := by
  induction ts with
  | nil => rfl
  | cons t ts ih => rw [patternItems, List.map_cons, ih]

theorem patternField_eq (key : String) (fs : Fields) :
    patternField key fs = patternContents (fs.get key) := by
  induction fs with
  | nil => rfl
  | cons f fs ih =>
    obtain ⟨k, v⟩ := f
    rw [Fields.get] at ih ⊢
    by_cases hk : k = key
    · rw [hk, List.lookup_cons_self, Option.getD_some]
      cases v <;> simp [patternField, patternContents, patternItems_eq]
    · rw [List.lookup_cons, beq_false_of_ne (Ne.symm hk), ← ih]
      cases v <;> simp [patternField, hk]

theorem patternValue_eq (fs : Fields) : patternValue fs =
    fs.map fun f => (f.1, if f.1 = "value" then asPattern f.2 else f.2) := by
  induction fs with
  | nil => rfl
  | cons f fs ih => rw [patternValue, List.map_cons, ih]

theorem get_patternValue (key : String) (fs : Fields) : Fields.get key (patternValue fs) =
    if key = "value" then asPattern (fs.get key) else fs.get key := by
  induction fs with
  | nil => simp [patternValue, Fields.get, asPattern]
  | cons f fs ih =>
    obtain ⟨k, v⟩ := f
    simp only [patternValue, Fields.get, List.lookup_cons] at ih ⊢
    by_cases hk : key = k
    · simp [hk]
    · simp only [beq_false_of_ne hk, ih]

/-! ### Kinds of patterns -/

def patternKind : String → String
  | "SpreadElement" => "RestElement"
  | "ArrayExpression" => "ArrayPattern"
  | "ObjectExpression" => "ObjectPattern"
  | "AssignmentExpression" => "AssignmentPattern"
  | kind => kind

def Recasts (t : Tree) : Prop :=
  ∀ kind, t.kind? = some kind →
    (asPattern t).kind? = some (patternKind kind) ∧ (asPattern t).Neat ∧ (asPattern t).Loose

section

variable {c c' : Contents}
  (hk : ∀ kind ∈ looseKinds c.kinds, patternKind kind ∈ looseKinds c'.kinds)
  (ho : c.optional = c'.optional)

include hk ho

theorem readsOne_asPattern {t : Tree} (h : c.loosely.takes t = true)
    (ht : t.isNode = true → Recasts t) : c'.ReadsOne (asPattern t) := by
  rcases takes_iff.mp h with ⟨hopt, rfl⟩ | ⟨kind, hm, hkind⟩
  · exact Or.inl ⟨ho.symm.trans hopt, rfl⟩
  · exact Or.inr ⟨_, hk kind hm, ht (Pattern.isNode_of_kind? hkind) kind hkind⟩

theorem reads_asPattern (hc : c.list = false) (hc' : c'.list = false) {v : Tree}
    (h : c.loosely.admits v = true) (hv : ∀ x ∈ v.heldNodes, Recasts x) :
    c'.Reads (asPattern v) := by
  have hself : v.isNode = true → Recasts v := fun hn => hv v (Tree.self_mem_heldNodes hn)
  cases v with
  | list ts => simp [Contents.admits, loosely, hc] at h
  | scalar a =>
    simp only [Contents.admits, Bool.and_eq_true] at h
    exact (reads_iff hc').mpr (readsOne_asPattern hk ho h.2 hself)
  | object tag fs =>
    simp only [Contents.admits, Bool.and_eq_true] at h
    exact (reads_iff hc').mpr (readsOne_asPattern hk ho h.2 hself)

theorem reads_patternContents (hl : c.list = c'.list) {v : Tree} (h : c.loosely.admits v = true)
    (hv : ∀ x ∈ v.heldNodes, Recasts x) : c'.Reads (patternContents v) := by
  cases v with
  | list ts =>
    rw [Contents.admits, Bool.and_eq_true, List.all_eq_true] at h
    refine ⟨hl.symm.trans h.1, List.forall_mem_map.mpr fun t ht => ?_⟩
    exact readsOne_asPattern hk ho (h.2 t ht) fun hn =>
      hv t (Tree.mem_heldNodes_of_list.mpr ⟨ht, hn⟩)
  | scalar a =>
    have hc : c.list = false := (Bool.not_eq_true' _).mp (Bool.and_eq_true_iff.mp h).1
    exact reads_asPattern hk ho hc (hl.symm.trans hc) h hv
  | object tag fs =>
    have hc : c.list = false := (Bool.not_eq_true' _).mp (Bool.and_eq_true_iff.mp h).1
    exact reads_asPattern hk ho hc (hl.symm.trans hc) h hv

end

theorem asPattern_object (tag : Nat) (fs : Fields) : asPattern (.object tag fs) =
    match Fields.kind fs with
    | "SpreadElement" => Form.restElement (patternField "argument" fs)
    | "ArrayExpression" => Form.node "ArrayPattern" [("elements", patternField "elements" fs)]
    | "ObjectExpression" => Form.node "ObjectPattern" [("properties", patternField "properties" fs)]
    | "AssignmentExpression" =>
      Form.assignmentPattern (patternField "left" fs) ((fs.lookup "right").getD .null)
    | "Property" => .object tag (patternValue fs)
    | _ => .object tag fs :=
  rfl

theorem kind_of_kind?_object {tag : Nat} {fs : Fields} {kind : String}
    (h : (Tree.object tag fs).kind? = some kind) : Fields.kind fs = kind := by
  rw [Fields.kind_eq]
  exact congrArg (·.getD "") h

/-! ### Properties that hold patterns -/

section

variable {tag : Nat} {fs : Fields} (hk : (Tree.object tag fs).kind? = some "Property")

include hk

theorem kind?_patternValue : (Tree.object tag (patternValue fs)).kind? = some "Property" := by
  have hget : (Tree.object tag (patternValue fs)).get "type" = fs.get "type" :=
    (get_patternValue "type" fs).trans (if_neg (by decide))
  rw [Tree.kind?, hget]
  exact hk

theorem neat_patternValue (hn : (Tree.object tag fs).Neat)
    (hvalue : (asPattern (fs.get "value")).Neat) : (Tree.object tag (patternValue fs)).Neat := by
  obtain ⟨ho, hfs⟩ := Tree.neat_object.mp hn
  refine Tree.neat_object.mpr ⟨⟨ho.untagged, ?_, ?_, ?_⟩, ?_⟩
  · rw [patternValue_eq, List.map_map]
    exact ho.nodup
  · simp [Fields.fits, kind_of_kind?_object (kind?_patternValue hk)]
  · simp only [patternValue_eq, List.forall_mem_map]
    intro f hf hi
    have hne : f.1 ≠ "value" := by
      intro he
      rw [he] at hi
      exact absurd hi (by decide)
    rw [if_neg hne]
    exact ho.plain f hf hi
  · simp only [patternValue_eq, List.forall_mem_map]
    intro f hf
    split
    · rename_i he
      rwa [Fields.get, ← he, Fields.lookup_of_mem ho.nodup hf] at hvalue
    · exact hfs f hf

theorem loose_patternValue (hkey : (one expressionKinds).Reads (fs.get "key"))
    (hvalue : (one targetKinds).Reads (asPattern (fs.get "value"))) :
    (Tree.object tag (patternValue fs)).Loose := by
  have hget : ∀ key, (Tree.object tag (patternValue fs)).get key =
      if key = "value" then asPattern (fs.get key) else fs.get key :=
    fun key => get_patternValue key fs
  have hkind := kind?_patternValue hk
  have hslots : slots? "Property" =
      some [("key", .one expressionKinds), ("value", .one targetKinds)] := rfl
  refine .node hkind (looseSlots?_eq hslots) (by simp [Tree.worded, Tree.isKind, hkind]) ?_ ?_
  · rintro e (_ | ⟨_, _ | ⟨_, ⟨⟩⟩⟩)
    · exact hget "key" ▸ hkey.admits
    · exact hget "value" ▸ hvalue.admits
  · rintro e (_ | ⟨_, _ | ⟨_, ⟨⟩⟩⟩)
    · exact hget "key" ▸ hkey.loose
    · exact hget "value" ▸ hvalue.loose

end

/-! ### Nodes that become patterns -/

attribute [local simp] fills_iff slots? grammarTable List.lookup_cons Fields.get

theorem made_of_fills {kind : String} {fs : Fields} (h : Fills kind fs) :
    (Form.node kind fs : Tree).kind? = some kind ∧ (Form.node kind fs : Tree).Neat ∧
      (Form.node kind fs : Tree).Loose :=
  ⟨rfl, h.neat, h.loose⟩

theorem recasts_of_loose {t : Tree} (h : t.Loose) (hn : t.Neat) : Recasts t := by
  induction h with
  | @node t kind slots hk hs hw hadmits hheld ih =>
    obtain ⟨tag, fs, rfl⟩ := Tree.eq_object_of_isNode (Pattern.isNode_of_kind? hk)
    have hreads : ∀ e ∈ slots, e.2.Reads (Fields.get e.1 fs) :=
      fun e he => reads_of_admits (hadmits e he) (hn.get e.1) (hheld e he)
    have hbelow : ∀ e ∈ slots, ∀ x ∈ (Fields.get e.1 fs).heldNodes, Recasts x :=
      fun e he x hx => ih e he x hx ((hn.get e.1).held hx)
    have hfield : ∀ {key : String} {c : Contents} (c' : Contents), (key, c) ∈ slots →
        (∀ kind ∈ looseKinds c.kinds, patternKind kind ∈ looseKinds c'.kinds) →
        c.optional = c'.optional → c.list = c'.list → c'.Reads (patternField key fs) := by
      intro key c c' he hkinds ho hl
      rw [patternField_eq]
      exact reads_patternContents hkinds ho hl (hadmits _ he) (hbelow _ he)
    intro kind' hk'
    obtain rfl := Option.some.inj (hk.symm.trans hk')
    rw [asPattern_object, kind_of_kind?_object hk]
    split
    · obtain rfl := slots_unique ‹_› rfl
      have harg := hfield (.one targetKinds) List.mem_cons_self (by decide) rfl rfl
      exact made_of_fills (by simp [harg])
    · obtain rfl := slots_unique ‹_› rfl
      have hitems := hfield (.sparse parameterKinds) List.mem_cons_self (by decide) rfl rfl
      exact made_of_fills (by simp [hitems])
    · obtain rfl := slots_unique ‹_› rfl
      have hitems := hfield (.many ["Property", "RestElement"]) List.mem_cons_self (by decide)
        rfl rfl
      exact made_of_fills (by simp [hitems])
    · obtain rfl := slots_unique ‹_› rfl
      have hleft := hfield (.one targetKinds) List.mem_cons_self (by decide) rfl rfl
      have hright := hreads ("right", .one expressionKinds) (by simp)
      simp only [Fields.get] at hright
      exact made_of_fills (by simp [hleft, hright])
    · obtain rfl := slots_unique ‹_› rfl
      have hvalue := hreads ("value", .one targetKinds) (by simp)
      have hpattern : (one targetKinds).Reads (asPattern (Fields.get "value" fs)) :=
        reads_asPattern (c := .one targetKinds) (by decide) rfl rfl rfl hvalue.admits
          (hbelow ("value", .one targetKinds) (by simp))
      refine ⟨kind?_patternValue hk, neat_patternValue hk hn hpattern.neat, ?_⟩
      exact loose_patternValue hk (hreads ("key", .one expressionKinds) (by simp)) hpattern
    · refine ⟨?_, hn, .node hk hs hw hadmits hheld⟩
      rw [hk, patternKind] <;> assumption

theorem reads_recast {kinds kinds' : List String} {t : Tree} (h : (one kinds).Reads t)
    (hk : ∀ kind ∈ looseKinds kinds, patternKind kind ∈ looseKinds kinds') :
    (one kinds').Reads (asPattern t) :=
  @reads_asPattern (one kinds) (one kinds') hk rfl rfl rfl t h.admits fun x hx =>
    recasts_of_loose (h.loose x hx) (h.neat.held hx)

/-! ### Parameters before an arrow -/

theorem reads_arrowParameters {ps : List Tree} (h : ∀ p ∈ ps, (one parameterKinds).Reads p)
    (isAsync : Bool) : (one expressionKinds).Reads (Form.arrowParameters ps isAsync) := by
  have hlist : (many parameterKinds).Reads (.list ps) := reads_many.mpr h
  have hneat : (Form.arrowParameters ps isAsync : Tree).Neat := by
    refine Tree.neat_object.mpr ⟨⟨rfl, by simp, rfl, ?_⟩, ?_⟩
    · simp [isIgnored]
    · rintro f (_ | ⟨_, _ | ⟨_, _ | ⟨_, ⟨⟩⟩⟩⟩)
      · exact Tree.neat_scalar _
      · exact hlist.neat
      · exact Tree.neat_scalar _
  have hloose : (Form.arrowParameters ps isAsync : Tree).Loose := by
    refine @Tree.Loose.node _ parametersKind [("params", .many parameterKinds)] rfl rfl rfl ?_ ?_
    · exact List.forall_mem_singleton.mpr hlist.admits
    · exact List.forall_mem_singleton.mpr hlist.loose
  exact (reads_iff rfl).mpr (Or.inr ⟨parametersKind, by decide, rfl, hneat, hloose⟩)

theorem reads_map_asPattern {kinds : List String} {ts : List Tree}
    (h : ∀ t ∈ ts, (one kinds).Reads t)
    (hk : ∀ kind ∈ looseKinds kinds, patternKind kind ∈ looseKinds parameterKinds) :
    ∀ p ∈ ts.map asPattern, (one parameterKinds).Reads p :=
  List.forall_mem_map.mpr fun t ht => reads_recast (h t ht) hk

theorem reads_params {kinds : List String} {t : Tree} (h : (one kinds).Reads t)
    (hk : t.isKind "ArrowParameterPlaceHolder" = true) :
    ∀ p ∈ (t.get "params").items, (one parameterKinds).Reads p := by
  have hparams : (many parameterKinds).Reads (t.get "params") :=
    @Reads.slot _ _ h _ hk [("params", many parameterKinds)] rfl _ _ List.mem_cons_self
  cases hv : t.get "params" with
  | list ps => exact reads_many.mp (hv ▸ hparams)
  | scalar a => simp [Tree.items]
  | object tag fs => simp [Tree.items]

end Legible.Script
