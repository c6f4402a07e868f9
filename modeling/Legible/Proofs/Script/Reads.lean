import Legible.Proofs.Pattern.Compile
import Legible.Proofs.Tree.Grammar

/-!
What a reader of scripts makes: nodes without tags whose fields hold what the grammar puts there,
but for one thing. Parentheses that spell the parameters of an arrow function are let pass where an
expression stands even if no arrow follows.
-/

namespace Legible

def parametersKind : String := "ArrowParameterPlaceHolder"

/-! ### Neat objects -/

structure NeatObject (o : Nat × Fields) : Prop where
  untagged : o.1 = 0
  nodup : (o.2.map (·.1)).Nodup
  fits : o.2.fits = true
  plain : ∀ f ∈ o.2, isIgnored f.1 = true → f.2.holdsNode = false

namespace Tree

def Neat (t : Tree) : Prop :=
  ∀ o ∈ t.objects, NeatObject o

theorem neat_scalar (a : Scalar) : (scalar a).Neat := by
  simp [Neat, objects]

theorem neat_list {ts : List Tree} : (list ts).Neat ↔ ∀ t ∈ ts, t.Neat := by
  simp only [Neat, objects_list, List.mem_flatMap]
  exact ⟨fun h t ht o ho => h o ⟨t, ht, ho⟩, fun h o ⟨t, ht, ho⟩ => h t ht o ho⟩

theorem neat_object {tag : Nat} {fs : Fields} :
    (object tag fs).Neat ↔ NeatObject (tag, fs) ∧ ∀ f ∈ fs, f.2.Neat := by
  simp only [Neat, objects_object, List.forall_mem_cons, List.mem_flatMap]
  exact and_congr_right' ⟨fun h f hf o ho => h o ⟨f, hf, ho⟩, fun h o ⟨f, hf, ho⟩ => h f hf o ho⟩

theorem Neat.get {t : Tree} (h : t.Neat) (key : String) : (t.get key).Neat := by
  cases t with
  | scalar a => exact neat_scalar .null
  | list ts => exact neat_scalar .null
  | object tag fs => exact get_induction key (neat_scalar .null) (neat_object.mp h).2

theorem Neat.held {v x : Tree} (h : v.Neat) (hx : x ∈ v.heldNodes) : x.Neat := by
  cases v with
  | scalar a => cases hx
  | list ts => exact neat_list.mp h x (mem_heldNodes_of_list.mp hx).1
  | object tag fs =>
    rw [heldNodes] at hx
    split at hx
    · rwa [List.mem_singleton.mp hx]
    · cases hx

theorem Neat.distinct {t : Tree} (h : t.Neat) : t.distinct = true := by
  induction t with
  | scalar a => rfl
  | list ts ih => exact distinct_list.mpr fun t ht => ih t ht (neat_list.mp h t ht)
  | object tag fs ih =>
    obtain ⟨ho, hfs⟩ := neat_object.mp h
    exact distinct_object.mpr ⟨ho.nodup, fun f hf => ih f hf (hfs f hf)⟩

theorem Neat.wellFormed {t : Tree} (h : t.Neat) : t.wellFormed = true := by
  have htags : t.tags.filter (· ≠ 0) = [] := by
    rw [tags, List.filter_eq_nil_iff, List.forall_mem_map]
    intro o ho
    simp [(h o ho).untagged]
  simp only [Tree.wellFormed, htags, List.nodup_nil, decide_true, Bool.and_true, Bool.and_eq_true,
    List.all_eq_true]
  exact ⟨h.distinct, fun o ho => (h o ho).fits⟩

theorem Neat.plainRaw {t : Tree} (h : t.Neat) : Pattern.PlainRaw t :=
  fun o ho => (h o ho).plain

end Tree

/-! ### Loose nodes -/

def looseKinds (kinds : List String) : List String :=
  if expressionKinds ⊆ kinds then parametersKind :: kinds else kinds

theorem mem_looseKinds {kinds : List String} {kind : String} : kind ∈ looseKinds kinds ↔
    kind ∈ kinds ∨ kind = parametersKind ∧ expressionKinds ⊆ kinds := by
  unfold looseKinds
  split
  · rename_i h
    simp [h, or_comm]
  · rename_i h
    simp [h]

theorem looseKinds_mono {kinds kinds' : List String} (h : kinds ⊆ kinds') :
    looseKinds kinds ⊆ looseKinds kinds' := by
  intro kind hk
  rw [mem_looseKinds] at hk ⊢
  exact hk.imp (@h kind) (And.imp_right fun he => List.Subset.trans he h)

def Contents.loosely (c : Contents) : Contents :=
  { c with kinds := looseKinds c.kinds }

def looseSlots? (kind : String) : Option (List (String × Contents)) :=
  if kind = parametersKind then some [("params", .many parameterKinds)] else slots? kind

theorem looseSlots?_eq {kind : String} {slots : List (String × Contents)}
    (h : slots? kind = some slots) : looseSlots? kind = some slots := by
  have hnone : slots? parametersKind = none := by decide
  have hne : kind ≠ parametersKind := by
    rintro rfl
    rw [hnone] at h
    cases h
  rw [looseSlots?, if_neg hne, h]

theorem slots_unique {kind : String} {slots slots' : List (String × Contents)}
    (h : looseSlots? kind = some slots) (h' : slots? kind = some slots') : slots = slots' :=
  Option.some.inj (h.symm.trans (looseSlots?_eq h'))

inductive Tree.Loose : Tree → Prop where
  | node {t : Tree} {kind : String} {slots : List (String × Contents)} (hk : t.kind? = some kind)
      (hs : looseSlots? kind = some slots) (hw : t.worded = true)
      (hadmits : ∀ e ∈ slots, e.2.loosely.admits (t.get e.1) = true)
      (hheld : ∀ e ∈ slots, ∀ x ∈ (t.get e.1).heldNodes, x.Loose) : t.Loose

namespace Contents

variable {c c' : Contents} {t : Tree}

def ReadsOne (c : Contents) (t : Tree) : Prop :=
  c.optional = true ∧ t = .null ∨
    ∃ kind ∈ looseKinds c.kinds, t.kind? = some kind ∧ t.Neat ∧ t.Loose

def Reads (c : Contents) : Tree → Prop
  | .list ts => c.list = true ∧ ∀ t ∈ ts, c.ReadsOne t
  | t => c.list = false ∧ c.ReadsOne t

theorem ReadsOne.takes (h : c.ReadsOne t) : c.loosely.takes t = true :=
  takes_iff.mpr (h.imp_right fun ⟨kind, hm, hk, _⟩ => ⟨kind, hm, hk⟩)

theorem ReadsOne.neat (h : c.ReadsOne t) : t.Neat := by
  rcases h with ⟨-, rfl⟩ | ⟨_, -, -, hn, -⟩
  · exact Tree.neat_scalar .null
  · exact hn

theorem ReadsOne.loose (h : c.ReadsOne t) (hn : t.isNode = true) : t.Loose := by
  rcases h with ⟨-, rfl⟩ | ⟨_, -, -, -, hl⟩
  · cases hn
  · exact hl

theorem ReadsOne.mono (h : c.ReadsOne t) (hk : c.kinds ⊆ c'.kinds)
    (ho : c.optional = true → c'.optional = true) : c'.ReadsOne t :=
  h.imp (And.imp_left ho) fun ⟨kind, hm, h⟩ => ⟨kind, looseKinds_mono hk hm, h⟩

theorem not_readsOne_list {ts : List Tree} : ¬ c.ReadsOne (.list ts) := by
  rintro (⟨-, h⟩ | ⟨_, -, h, -⟩)
  · cases h
  · cases h

theorem reads_iff (hc : c.list = false) : c.Reads t ↔ c.ReadsOne t := by
  cases t with
  | list ts => simp [Reads, hc, not_readsOne_list]
  | scalar a => simp [Reads, hc]
  | object tag fs => simp [Reads, hc]

theorem Reads.admits (h : c.Reads t) : c.loosely.admits t = true := by
  cases t with
  | list ts =>
    rw [Contents.admits, Bool.and_eq_true, List.all_eq_true]
    exact ⟨h.1, fun t ht => (h.2 t ht).takes⟩
  | scalar a => simp [Contents.admits, loosely, h.1, ← h.2.takes]
  | object tag fs => simp [Contents.admits, loosely, h.1, ← h.2.takes]

theorem Reads.neat (h : c.Reads t) : t.Neat := by
  cases t with
  | list ts => exact Tree.neat_list.mpr fun t ht => (h.2 t ht).neat
  | scalar a => exact h.2.neat
  | object tag fs => exact h.2.neat

theorem Reads.loose (h : c.Reads t) : ∀ x ∈ t.heldNodes, x.Loose := by
  intro x hx
  have hn := Tree.isNode_of_mem_heldNodes hx
  cases t with
  | list ts => exact (h.2 x (Tree.mem_heldNodes_of_list.mp hx).1).loose hn
  | scalar a => cases hx
  | object tag fs =>
    rw [Tree.heldNodes] at hx
    split at hx
    · rw [List.mem_singleton.mp hx] at hn ⊢
      exact h.2.loose hn
    · cases hx

theorem reads_of_admits (h : c.loosely.admits t = true) (hn : t.Neat)
    (hl : ∀ x ∈ t.heldNodes, x.Loose) : c.Reads t := by
  have hone : ∀ {x : Tree}, c.loosely.takes x = true → x.Neat → (x.isNode = true → x.Loose) →
      c.ReadsOne x := by
    intro x hx hn hl
    refine (takes_iff.mp hx).imp_right fun ⟨kind, hm, hk⟩ => ⟨kind, hm, hk, hn, hl ?_⟩
    exact Pattern.isNode_of_kind? hk
  have hself : t.isNode = true → t.Loose := fun hnode => hl t (Tree.self_mem_heldNodes hnode)
  cases t with
  | list ts =>
    rw [Contents.admits, Bool.and_eq_true, List.all_eq_true] at h
    refine ⟨h.1, fun x hx => hone (h.2 x hx) (Tree.neat_list.mp hn x hx) fun hnode => ?_⟩
    exact hl x (Tree.mem_heldNodes_of_list.mpr ⟨hx, hnode⟩)
  | scalar a =>
    simp only [Contents.admits, Bool.and_eq_true, Bool.not_eq_true'] at h
    exact ⟨h.1, hone h.2 hn hself⟩
  | object tag fs =>
    simp only [Contents.admits, Bool.and_eq_true, Bool.not_eq_true'] at h
    exact ⟨h.1, hone h.2 hn hself⟩

theorem Reads.mono (h : c.Reads t) (hk : c.kinds ⊆ c'.kinds)
    (ho : c.optional = true → c'.optional = true) (hl : c.list = c'.list) : c'.Reads t := by
  cases t with
  | list ts => exact ⟨hl.symm.trans h.1, fun t ht => (h.2 t ht).mono hk ho⟩
  | scalar a => exact ⟨hl.symm.trans h.1, h.2.mono hk ho⟩
  | object tag fs => exact ⟨hl.symm.trans h.1, h.2.mono hk ho⟩

theorem reads_null {kinds : List String} : (maybe kinds).Reads .null :=
  ⟨rfl, Or.inl ⟨rfl, rfl⟩⟩

theorem reads_many {kinds : List String} {ts : List Tree} :
    (many kinds).Reads (.list ts) ↔ ∀ t ∈ ts, (one kinds).Reads t := by
  simp only [reads_iff (c := one kinds) rfl]
  exact and_iff_right rfl

theorem reads_sparse {kinds : List String} {ts : List Tree} :
    (sparse kinds).Reads (.list ts) ↔ ∀ t ∈ ts, (maybe kinds).Reads t := by
  simp only [reads_iff (c := maybe kinds) rfl]
  exact and_iff_right rfl

theorem Reads.widen {kinds kinds' : List String} (h : (one kinds).Reads t) (hk : kinds ⊆ kinds') :
    (one kinds').Reads t :=
  h.mono hk nofun rfl

theorem Reads.narrow {kinds : List String} (h : (one kinds).Reads t) {kind : String}
    (hk : t.isKind kind = true) : (one [kind]).Reads t := by
  obtain ⟨hopt, -⟩ | ⟨kind', -, hkind', h'⟩ := (reads_iff rfl).mp h
  · cases hopt
  refine (reads_iff rfl).mpr (Or.inr ⟨kind, mem_looseKinds.mpr (Or.inl ?_), beq_iff_eq.mp hk, h'⟩)
  exact List.mem_singleton_self kind

theorem Reads.orNull {kinds : List String} (h : (one kinds).Reads t) : (maybe kinds).Reads t :=
  h.mono (List.Subset.refl _) nofun rfl

theorem Reads.cases {kinds : List String} (h : (maybe kinds).Reads t) :
    t = .null ∨ (one kinds).Reads t :=
  ((reads_iff rfl).mp h).imp And.right fun h => (reads_iff rfl).mpr (Or.inr h)

theorem isIdentifier_of_admits (h : (one ["Identifier"]).loosely.admits t = true) :
    t.isKind "Identifier" = true := by
  have hkinds : (one ["Identifier"]).loosely = one ["Identifier"] := by decide
  rw [hkinds] at h
  cases t with
  | list ts => cases h
  | scalar a => cases h
  | object tag fs =>
    have htakes : (one ["Identifier"]).takes (.object tag fs) = true := h
    obtain ⟨ho, -⟩ | ⟨kind, hm, hk⟩ := takes_iff.mp htakes
    · cases ho
    · rw [Tree.isKind, hk, List.mem_singleton.mp hm, beq_self_eq_true]

end Contents

/-! ### Making nodes -/

namespace Tree

structure Bare (t : Tree) : Prop where
  neat : t.Neat
  holdsNode : t.holdsNode = false

@[simp]
theorem bare_scalar (a : Scalar) : (scalar a).Bare :=
  ⟨neat_scalar a, rfl⟩

@[simp]
theorem bare_formScalar (a : Scalar) : (Form.scalar a : Tree).Bare :=
  bare_scalar a

@[simp]
theorem bare_text (s : String) : (Form.text s : Tree).Bare :=
  bare_scalar _

@[simp]
theorem bare_bool (b : Bool) : (Form.bool b : Tree).Bare :=
  bare_scalar _

theorem bare_object {fs : Fields} (hd : (fs.map (·.1)).Nodup) (ht : "type" ∉ fs.map (·.1))
    (h : ∀ f ∈ fs, f.2.Bare) : (object 0 fs).Bare := by
  have hl : fs.lookup "type" = none := by
    rw [List.lookup_eq_none_iff]
    intro f hf
    simpa using fun he => ht (List.mem_map.mpr ⟨f, hf, he.symm⟩)
  have hfits : fs.fits = true := by simp [Fields.fits, Fields.kind, hl]
  constructor
  · rw [neat_object]
    exact ⟨⟨rfl, hd, hfits, fun f hf _ => (h f hf).holdsNode⟩, fun f hf => (h f hf).neat⟩
  · simp [Tree.holdsNode, isNode, field?, fields, hl]

end Tree

def specifierKinds : List String :=
  ["ImportDefaultSpecifier", "ImportNamespaceSpecifier", "ImportSpecifier", "ExportSpecifier"]

theorem ne_type_of_mem_slots : ∀ e ∈ grammarTable, ∀ s ∈ e.2, s.1 ≠ "type" := by
  decide

open Contents in
theorem nameSlots_spec : ∀ e ∈ grammarTable,
    (e.1 ∈ ["FunctionDeclaration", "FunctionExpression", "ClassDeclaration", "ClassExpression"] →
      ("id", maybe ["Identifier"]) ∈ e.2) ∧
    (e.1 ∈ ["ImportDeclaration", "ExportNamedDeclaration"] →
      ∃ s ∈ e.2, s.1 = "specifiers" ∧ s.2 = many s.2.kinds ∧ s.2.kinds ⊆ specifierKinds) := by
  decide

namespace Contents

theorem Reads.slot {kinds : List String} {t : Tree} (h : (one kinds).Reads t) {kind : String}
    (hk : t.isKind kind = true) {slots : List (String × Contents)}
    (hs : looseSlots? kind = some slots) {key : String} {c : Contents} (he : (key, c) ∈ slots) :
    c.Reads (t.get key) := by
  obtain ⟨hopt, -⟩ | ⟨kind', -, hkind, hneat, hloose⟩ := (reads_iff rfl).mp h
  · cases hopt
  obtain ⟨hkind', hslots, -, hadmits, hheld⟩ := hloose
  obtain rfl := Option.some.inj ((beq_iff_eq.mp hk).symm.trans hkind')
  obtain rfl := Option.some.inj (hs.symm.trans hslots)
  exact reads_of_admits (hadmits _ he) (hneat.get key) (hheld _ he)

theorem Reads.local {kinds : List String} {t : Tree} (h : (one kinds).Reads t)
    (hkinds : kinds ⊆ specifierKinds) : (t.get "local").isKind "Identifier" = true := by
  obtain ⟨hopt, -⟩ | ⟨kind, hm, hk, -, hloose⟩ := (reads_iff rfl).mp h
  · cases hopt
  have hm' : kind ∈ specifierKinds := by
    have hs : looseKinds specifierKinds = specifierKinds := by decide
    exact hs ▸ looseKinds_mono hkinds hm
  obtain ⟨slots, hs, hlocal⟩ : ∃ slots, slots? kind = some slots ∧
      ("local", one ["Identifier"]) ∈ slots := by
    simp only [specifierKinds, List.mem_cons, List.not_mem_nil, or_false] at hm'
    rcases hm' with rfl | rfl | rfl | rfl <;> exact ⟨_, rfl, by decide⟩
  have hnode : t.isKind kind = true := by rw [Tree.isKind, hk, beq_self_eq_true]
  exact isIdentifier_of_admits (h.slot hnode (looseSlots?_eq hs) hlocal).admits

variable {c : Contents} {kind : String} {fs : Fields}

theorem get_cons_type {key : String} (h : key ≠ "type") (v : Tree) :
    Fields.get key (("type", v) :: fs) = fs.get key := by
  rw [Fields.get, List.lookup_cons, beq_false_of_ne h, Fields.get]

theorem fits_of_reads {slots : List (String × Contents)} (hs : slots? kind = some slots)
    (h : ∀ e ∈ slots, e.2.Reads (fs.get e.1)) :
    Fields.fits (("type", .text kind) :: fs) = true := by
  obtain ⟨hid, hspecifiers⟩ := nameSlots_spec _ (mem_grammarTable hs)
  have hname : kind ∈ ["FunctionDeclaration", "FunctionExpression", "ClassDeclaration",
      "ClassExpression"] →
      (fs.get "id").isNull = true ∨ (fs.get "id").isKind "Identifier" = true := by
    intro hk
    rcases (h _ (hid hk)).cases with hnull | hone
    · exact Or.inl (by rw [hnull]; rfl)
    · exact Or.inr (isIdentifier_of_admits hone.admits)
  have hlocal : kind ∈ ["ImportDeclaration", "ExportNamedDeclaration"] →
      ∀ u ∈ (fs.get "specifiers").items, (u.get "local").isKind "Identifier" = true := by
    intro hk u hu
    obtain ⟨⟨_, c⟩, hs, rfl, hmany, hkinds⟩ := hspecifiers hk
    have hreads := h _ hs
    cases hv : fs.get "specifiers" with
    | list ts =>
      rw [hv] at hu
      rw [hmany, hv, reads_many] at hreads
      exact (hreads u hu).local hkinds
    | scalar a => simp [hv, Tree.items] at hu
    | object tag gs => simp [hv, Tree.items] at hu
  have hkind : Fields.kind (("type", Tree.text kind) :: fs) = kind := rfl
  rw [Fields.fits, get_cons_type (by decide), get_cons_type (by decide), hkind]
  simp only [Bool.and_eq_true, Bool.or_eq_true, Bool.not_eq_true', List.contains_eq_mem,
    decide_eq_false_iff_not, List.all_eq_true]
  tauto

@[mk_iff]
structure Fills (kind : String) (fs : Fields) : Prop where
  nodup : ("type" :: fs.map (·.1)).Nodup
  worded : kind = "VariableDeclaration" →
    (fs.get "kind").text?.any declarationWords.contains = true
  reads : match slots? kind with
    | some slots =>
      (∀ e ∈ slots, e.2.Reads (fs.get e.1)) ∧ ∀ f ∈ fs, f.1 ∈ slots.map (·.1) ∨ f.2.Bare
    | none => False

namespace Fills

variable (h : Fills kind fs)

include h

theorem exists_slots : ∃ slots, slots? kind = some slots ∧
    (∀ e ∈ slots, e.2.Reads (fs.get e.1)) ∧ ∀ f ∈ fs, f.1 ∈ slots.map (·.1) ∨ f.2.Bare := by
  have hfields := h.reads
  split at hfields
  · exact ⟨_, ‹_›, hfields⟩
  · exact hfields.elim

theorem field {f : String × Tree} (hf : f ∈ fs) :
    f.2.Neat ∧ (isIgnored f.1 = true → f.2.holdsNode = false) := by
  obtain ⟨slots, hs, hreads, hbare⟩ := h.exists_slots
  rcases hbare f hf with hm | hb
  · obtain ⟨e, he, hkey⟩ := List.mem_map.mp hm
    have hv : fs.get e.1 = f.2 := by
      rw [Fields.get, hkey, Fields.lookup_of_mem (List.nodup_cons.mp h.nodup).2 hf,
        Option.getD_some]
    refine ⟨hv ▸ (hreads e he).neat, fun hi => ?_⟩
    rw [← hkey, (slots_spec _ (mem_grammarTable hs) e he).2.1] at hi
    cases hi
  · exact ⟨hb.neat, fun _ => hb.holdsNode⟩

theorem neat : (Form.node kind fs : Tree).Neat := by
  obtain ⟨slots, hs, hreads, -⟩ := h.exists_slots
  refine Tree.neat_object.mpr ⟨⟨rfl, h.nodup, fits_of_reads hs hreads, ?_⟩, ?_⟩
  · rintro f (_ | ⟨_, hm⟩)
    · exact fun _ => rfl
    · exact (h.field hm).2
  · rintro f (_ | ⟨_, hm⟩)
    · exact Tree.neat_scalar _
    · exact (h.field hm).1

theorem worded_node : (Form.node kind fs : Tree).worded = true := by
  rw [Tree.worded, Bool.or_eq_true, Bool.not_eq_true']
  by_cases hk : kind = "VariableDeclaration"
  · exact Or.inr (h.worded hk)
  · exact Or.inl (beq_false_of_ne fun he => hk (Option.some.inj he))

theorem loose : (Form.node kind fs : Tree).Loose := by
  obtain ⟨slots, hs, hreads, -⟩ := h.exists_slots
  have hget : ∀ e ∈ slots, (Form.node kind fs : Tree).get e.1 = fs.get e.1 :=
    fun e he => get_cons_type (ne_type_of_mem_slots _ (mem_grammarTable hs) e he) _
  refine .node rfl (looseSlots?_eq hs) h.worded_node ?_ ?_
  · exact fun e he => hget e he ▸ (hreads e he).admits
  · exact fun e he => hget e he ▸ (hreads e he).loose

end Fills

theorem reads_node {kinds : List String} (hm : kind ∈ kinds) (h : Fills kind fs) :
    (one kinds).Reads (Form.node kind fs) :=
  (reads_iff rfl).mpr (Or.inr ⟨kind, mem_looseKinds.mpr (Or.inl hm), rfl, h.neat, h.loose⟩)

end Contents

/-! ### Without parameters out of place -/

namespace Tree

theorem admits_of_loosely {c : Contents} {v : Tree} (h : c.loosely.admits v = true)
    (hv : ∀ x ∈ v.heldNodes, x.kind? ≠ some parametersKind) : c.admits v = true := by
  have htakes : ∀ {x : Tree}, (x.isNode = true → x.kind? ≠ some parametersKind) →
      c.loosely.takes x = true → c.takes x = true := by
    intro x hx h
    rw [Contents.takes_iff] at h ⊢
    refine h.imp_right fun ⟨kind, hm, hk⟩ => ⟨kind, (mem_looseKinds.mp hm).resolve_right ?_, hk⟩
    rintro ⟨rfl, -⟩
    exact hx (Pattern.isNode_of_kind? hk) hk
  have hself : v.isNode = true → v.kind? ≠ some parametersKind :=
    fun hn => hv v (self_mem_heldNodes hn)
  cases v with
  | list ts =>
    rw [Contents.admits, Bool.and_eq_true, List.all_eq_true] at h ⊢
    refine ⟨h.1, fun t ht => htakes (fun hn => ?_) (h.2 t ht)⟩
    exact hv t (mem_heldNodes_of_list.mpr ⟨ht, hn⟩)
  | scalar a =>
    simp only [Contents.admits, Bool.and_eq_true] at h ⊢
    exact ⟨h.1, htakes hself h.2⟩
  | object tag fs =>
    simp only [Contents.admits, Bool.and_eq_true] at h ⊢
    exact ⟨h.1, htakes hself h.2⟩

theorem Loose.formed {t : Tree} (h : t.Loose)
    (hnodes : ∀ n ∈ t.nodes, n.kind? ≠ some parametersKind) : t.formed true = true := by
  induction h with
  | @node t kind slots hk hs hw hadmits hheld ih =>
    obtain ⟨tag, fs, rfl⟩ := eq_object_of_isNode (Pattern.isNode_of_kind? hk)
    rw [nodes_object, List.forall_mem_cons] at hnodes
    have hne : kind ≠ parametersKind := fun he => hnodes.1 (he ▸ hk)
    rw [looseSlots?, if_neg hne] at hs
    have hbelow : ∀ e ∈ slots, ∀ x ∈ ((object tag fs).get e.1).heldNodes,
        ∀ n ∈ x.nodes, n.kind? ≠ some parametersKind := by
      intro e he x hx n hn
      have hchild : x ∈ (object tag fs).children := (mem_children_of_slots hk hs).mpr ⟨e, he, hx⟩
      exact hnodes.2 n (List.mem_flatMap.mpr ⟨x, hchild, hn⟩)
    refine (formed_iff hk hs).mpr ⟨hw, Or.inl rfl, fun e he => ⟨?_, ?_⟩⟩
    · refine admits_of_loosely (hadmits e he) fun x hx => ?_
      obtain ⟨_, _, rfl⟩ := eq_object_of_isNode (isNode_of_mem_heldNodes hx)
      exact hbelow e he _ hx _ (by rw [nodes_object]; exact List.mem_cons_self)
    · exact fun x hx => ih e he x hx (hbelow e he x hx)

end Tree

end Legible
