import Legible.Proofs.Tree.Grammar

namespace Legible

def Tree.entries : Tree → List Tree
  | .list ts => ts
  | t => [t]

/-! ### Contents of placeholders -/

namespace Contents

def narrowed (h : Placeholder) (c : Contents) : Contents :=
  ⟨c.kinds, c.optional && h.optional, c.list && h.repeatable⟩

def goesInto (c c' : Contents) : Bool :=
  c.kinds.all c'.kinds.contains && (!c.optional || c'.optional) && (!c.list || c'.list)

def receives (several : Bool) (c : Contents) (t : Tree) : Prop :=
  if c.list = true then ∀ x ∈ t.entries, c.item.holds several x else c.holds several t

variable {several : Bool} {c c' : Contents} {t : Tree}

theorem holds_congr (hc : c.list = false) (hc' : c'.list = false) (hkinds : c.kinds ⊆ c'.kinds)
    (hopt : c.optional = true → c'.optional = true) (ht : c.holds true t) :
    c'.holds several t ↔ c.holds several t := by
  rcases cases_of_holds hc ht with ⟨rfl, ho⟩ | ⟨kind, hm, hk, -⟩
  · simp only [holds_null, hc, hc', ho, hopt ho]
  · simp only [holds_node hc hk, holds_node hc' hk, hm, hkinds hm]

theorem holds_narrowed {h : Placeholder} (hc : c.list = false) (ha : h.accepts t = true)
    (ht : c.holds true t) : (c.narrowed h).holds several t ↔ c.holds several t := by
  have hlist : (c.narrowed h).list = false := by rw [narrowed, hc, Bool.false_and]
  rcases cases_of_holds hc ht with ⟨rfl, ho⟩ | ⟨kind, -, hk, -⟩
  · have hopt : h.optional = true := by
      unfold Placeholder.accepts at ha
      split at ha
      · cases ha
      · exact ha
    have ho' : (c.narrowed h).optional = true := by rw [narrowed, ho, hopt, Bool.and_true]
    simp only [holds_null, hlist, hc, ho, ho']
  · rw [holds_node hlist hk, holds_node hc hk, narrowed]

theorem receives_iff (hgo : c.goesInto c' = true) (ht : c.holds true t) :
    c'.receives several t ↔ c.holds several t := by
  simp only [goesInto, Bool.and_eq_true, List.all_eq_true, List.contains_iff_mem, Bool.or_eq_true,
    Bool.not_eq_true', ← Bool.not_eq_true, ← imp_iff_not_or] at hgo
  obtain ⟨⟨hkinds, hopt⟩, hlist⟩ := hgo
  rw [receives]
  cases hc : c.list with
  | true =>
    obtain ⟨ts, rfl⟩ := exists_list_of_holds hc ht
    rw [if_pos (hlist hc), holds_list, Tree.entries]
    rw [holds_list] at ht
    simp only [hc, true_and]
    exact forall₂_congr fun x hx => holds_congr rfl rfl hkinds hopt (ht.2 x hx)
  | false =>
    have hentries : t.entries = [t] := by
      rcases cases_of_holds hc ht with ⟨rfl, -⟩ | ⟨kind, -, hk, -⟩
      · rfl
      · obtain ⟨tag, fs, rfl⟩ := Tree.eq_object_of_isNode (Pattern.isNode_of_kind? hk)
        rfl
    split
    · rw [hentries, List.forall_mem_singleton]
      exact holds_congr hc rfl hkinds hopt ht
    · rename_i hc'
      exact holds_congr hc (Bool.of_not_eq_true hc') hkinds hopt ht

end Contents

namespace Pattern

/-! ### Placeholders for nodes -/

section

variable (f : Placeholder → Contents → Contents)

mutual

def nodeHoles : Pattern → Contents → List (String × Contents)
  | .hole h, c => [(h.name, f h c)]
  | .scalar _, _ => []
  | .list ps, c => nodeHolesItems ps c
  | .object fs, _ => nodeHolesFields fs (((object fs).kind?.bind slots?).getD [])
termination_by structural p => p

def nodeHolesItems : List Pattern → Contents → List (String × Contents)
  | [], _ => []
  | p :: ps, c => p.nodeHoles c ++ nodeHolesItems ps c
termination_by structural ps => ps

def nodeHolesFields : List (String × Pattern) → List (String × Contents) →
    List (String × Contents)
  | [], _ => []
  | (k, p) :: fs, slots =>
    (match slots.lookup k with
    | some c => p.nodeHoles c
    | none => []) ++ nodeHolesFields fs slots
termination_by structural fs => fs

end

end

def provides : Pattern → Contents → List (String × Contents) :=
  nodeHoles fun h c => c.narrowed h

def needs : Pattern → Contents → List (String × Contents) :=
  nodeHoles fun _ c => c

def worded (p : Pattern) : Bool :=
  !p.isKind "VariableDeclaration" || match p.field? "kind" with
    | some (.scalar (.text w)) => declarationWords.contains w
    | _ => false

mutual

def suits : Pattern → Contents → Bool
  | .hole _, c => !c.list
  | .scalar a, c => c.admits (.scalar a)
  | .list ps, c => c.list && suitsItems ps c.item
  | .object fs, c =>
    !c.list && (object fs).worded && !(object fs).isKind "ExportNamedDeclaration" &&
    (object fs).kind?.any c.kinds.contains && decide (fs.map (·.1)).Nodup &&
    match (object fs).kind?.bind slots? with
    | some slots => slots.all (fun e => (fs.lookup e.1).isSome) && suitsFields fs slots
    | none => false
termination_by structural p => p

def suitsItems : List Pattern → Contents → Bool
  | [], _ => true
  | p :: ps, c => p.suits c && suitsItems ps c
termination_by structural ps => ps

def suitsFields : List (String × Pattern) → List (String × Contents) → Bool
  | [], _ => true
  | (k, p) :: fs, slots =>
    (match slots.lookup k with
    | some c => p.suits c
    | none => true) && suitsFields fs slots
termination_by structural fs => fs

end

theorem mem_nodeHolesFields {f : Placeholder → Contents → Contents} {fs : List (String × Pattern)}
    {slots : List (String × Contents)} {e : String × Contents} :
    e ∈ nodeHolesFields f fs slots ↔
      ∃ g ∈ fs, ∃ c, slots.lookup g.1 = some c ∧ e ∈ g.2.nodeHoles f c := by
  induction fs with
  | nil => simp [nodeHolesFields]
  | cons g fs ih =>
    obtain ⟨k, p⟩ := g
    rw [nodeHolesFields, List.mem_append, ih, List.exists_mem_cons_iff]
    refine or_congr_left ?_
    cases slots.lookup k <;> simp

structure SuitsNode (fs : List (String × Pattern)) (c : Contents) (kind : String)
    (slots : List (String × Contents)) : Prop where
  single : c.list = false
  worded : (object fs).worded = true
  ne : kind ≠ "ExportNamedDeclaration"
  isKind : (object fs).kind? = some kind
  mem : kind ∈ c.kinds
  nodup : (fs.map (·.1)).Nodup
  known : slots? kind = some slots
  field : ∀ e ∈ slots, ∃ p, fs.lookup e.1 = some p ∧ p.suits e.2 = true

theorem suits_of_suitsFields {fs : List (String × Pattern)} {slots : List (String × Contents)}
    (h : suitsFields fs slots = true) {g : String × Pattern} (hg : g ∈ fs) {c : Contents}
    (hc : slots.lookup g.1 = some c) : g.2.suits c = true := by
  induction fs with
  | nil => cases hg
  | cons f fs ih =>
    obtain ⟨k, p⟩ := f
    rw [suitsFields, Bool.and_eq_true] at h
    rcases List.mem_cons.mp hg with rfl | hg
    · have hp := h.1
      rwa [hc] at hp
    · exact ih h.2 hg

theorem suits_object {fs : List (String × Pattern)} {c : Contents}
    (h : (object fs).suits c = true) : ∃ kind slots, SuitsNode fs c kind slots := by
  rw [suits] at h
  simp only [Bool.and_eq_true, Bool.not_eq_true', decide_eq_true_iff, Option.any_eq_true,
    List.contains_iff_mem] at h
  obtain ⟨⟨⟨⟨⟨hlist, hworded⟩, hne⟩, kind, hk, hm⟩, hn⟩, hslots⟩ := h
  rw [hk, Option.bind_some] at hslots
  cases hs : slots? kind with
  | none => rw [hs] at hslots; cases hslots
  | some slots =>
    rw [hs] at hslots
    simp only [Bool.and_eq_true, List.all_eq_true] at hslots
    refine ⟨kind, slots, hlist, hworded, ?_, hk, hm, hn, hs, fun e he => ?_⟩
    · rintro rfl
      rw [isKind, hk, beq_self_eq_true] at hne
      cases hne
    · obtain ⟨p, hp⟩ := Option.isSome_iff_exists.mp (hslots.1 e he)
      exact ⟨p, hp, suits_of_suitsFields hslots.2 (mem_of_lookup_eq hp) (lookup_of_mem_slots hs he)⟩

theorem SuitsNode.forall_nodeHoles {fs : List (String × Pattern)} {c : Contents} {kind : String}
    {slots : List (String × Contents)} (h : SuitsNode fs c kind slots)
    {f : Placeholder → Contents → Contents} {P : String × Contents → Prop} :
    (∀ e ∈ (object fs).nodeHoles f c, P e) ↔
      ∀ s ∈ slots, ∀ p, fs.lookup s.1 = some p → ∀ e ∈ p.nodeHoles f s.2, P e := by
  have hslots : ((object fs).kind?.bind slots?).getD [] = slots := by
    rw [h.isKind, Option.bind_some, h.known, Option.getD_some]
  simp only [nodeHoles, hslots, mem_nodeHolesFields]
  constructor
  · intro hall s hs p hp e he
    exact hall e ⟨(s.1, p), mem_of_lookup_eq hp, s.2, lookup_of_mem_slots h.known hs, he⟩
  · rintro hall e ⟨g, hg, c', hc', he⟩
    exact hall _ (mem_of_lookup_eq hc') g.2 (lookup_eq_of_mem h.nodup hg) e he

theorem isIgnored_of_mem_slots {kind : String} {slots : List (String × Contents)}
    (h : slots? kind = some slots) {e : String × Contents} (he : e ∈ slots) :
    isIgnored e.1 = false :=
  (slots_spec _ (mem_grammarTable h) e he).2.1

theorem mem_capturedFields {fs : List (String × Pattern)} {g : String × Pattern} (hg : g ∈ fs)
    (hi : isIgnored g.1 = false) {t : Tree} {e : String × Tree} (he : e ∈ g.2.captured (t.get g.1)) :
    e ∈ capturedFields fs t := by
  induction fs with
  | nil => cases hg
  | cons f fs ih =>
    obtain ⟨k, p⟩ := f
    rw [capturedFields, List.mem_append]
    rcases List.mem_cons.mp hg with rfl | hg
    · exact Or.inl (by rw [hi, if_neg Bool.false_ne_true]; exact he)
    · exact Or.inr (ih hg)

theorem repeatable_of_run? {h g : Placeholder} (hr : (hole h).run? = some g) :
    h.repeatable = true := by
  rw [run?] at hr
  split at hr
  · assumption
  · cases hr

theorem provides_item {p : Pattern} {c : Contents} (hr : p.run? = none) (hp : p.suits c.item = true) :
    p.provides c = p.provides c.item := by
  cases p with
  | hole h =>
    have hh : h.repeatable = false := by
      rw [run?] at hr
      split at hr
      · cases hr
      · rename_i hh
        exact Bool.of_not_eq_true hh
    simp only [provides, nodeHoles, Contents.narrowed, Contents.item, hh, Bool.and_false]
  | scalar a => rfl
  | list ps => cases hp
  | object fs => rfl

/-! ### Trees that fit -/

section

variable {names : List String} {s : Assignment} {several : Bool}

def Accounts (names : List String) (s : Assignment) (several : Bool) (p : Pattern) : Prop :=
  ∀ {c : Contents} {t : Tree}, p.suits c = true → p.fits t = true → c.holds true t →
    (∀ e ∈ p.provides c, e.1 ∈ names) → (∀ e ∈ p.captured t, e.1 ∈ names → s e.1 = e.2) →
      (c.holds several t ↔ ∀ e ∈ p.provides c, e.2.holds several (s e.1))

theorem formed_hole (h : Placeholder) : Accounts names s several (.hole h) := by
  intro c t hp hf ht hnames hs
  have hc : c.list = false := by simpa [suits] using hp
  have hprovides : (hole h).provides c = [(h.name, c.narrowed h)] := rfl
  rw [hprovides, List.forall_mem_singleton] at hnames ⊢
  rw [captured, List.forall_mem_singleton] at hs
  rw [hs hnames, Contents.holds_narrowed hc hf ht]

theorem formed_object {fs : List (String × Pattern)} (ih : ∀ f ∈ fs, Accounts names s several f.2) :
    Accounts names s several (.object fs) := by
  intro c t hp hf ht hnames hs
  obtain ⟨kind, slots, h⟩ := suits_object hp
  have hk := kind?_of_fits h.isKind hf
  have hfit := (fits_object_iff.mp hf).2
  rw [Contents.holds_node h.single hk, Tree.formed_iff hk h.known] at ht ⊢
  rw [provides, h.forall_nodeHoles] at hnames ⊢
  have hexports : t.exportsSeveral = false := by
    rw [Tree.exportsSeveral, Tree.isKind, hk, beq_false_of_ne, Bool.false_and]
    exact fun he => h.ne (Option.some.inj he)
  simp only [ht.1, ht.2.1, hexports, or_true, true_and]
  refine forall₂_congr fun e he => ?_
  obtain ⟨p, hlookup, hsuits⟩ := h.field e he
  have hmem := mem_of_lookup_eq hlookup
  have hignored := isIgnored_of_mem_slots h.known he
  rw [ih _ hmem hsuits (hfit _ hmem hignored) (ht.2.2.2 e he) (hnames e he p hlookup)
    fun g hg => hs g (mem_capturedFields hmem hignored hg)]
  simp [hlookup, provides]

theorem formed_list {ps : List Pattern} (ih : ∀ p ∈ ps, Accounts names s several p) :
    Accounts names s several (.list ps) := by
  intro c t hp hf ht hnames hs
  rw [suits, Bool.and_eq_true] at hp
  obtain ⟨hc, hps⟩ := hp
  obtain ⟨ts, rfl⟩ := Contents.exists_list_of_holds hc ht
  rw [Contents.holds_list] at ht ⊢
  rw [and_iff_right hc]
  replace ht := ht.2
  have hprovides : ∀ p ps, nodeHolesItems (fun h c => Contents.narrowed h c) (p :: ps) c =
      p.provides c ++ nodeHolesItems (fun h c => Contents.narrowed h c) ps c := fun _ _ => rfl
  rw [provides, nodeHoles] at hnames ⊢
  rw [captured, Tree.items] at hs
  rw [fits] at hf
  induction ps generalizing ts with
  | nil =>
    rw [fitsItems, List.isEmpty_iff] at hf
    simp [hf, nodeHolesItems]
  | cons p ps ihs =>
    rw [List.forall_mem_cons] at ih
    rw [suitsItems, Bool.and_eq_true] at hps
    rw [hprovides, List.forall_mem_append] at hnames ⊢
    cases hr : p.run? with
    | some h =>
      obtain rfl := eq_hole_of_run? hr
      obtain ⟨run, rest, hrun, rfl, hdrop, hacc⟩ := exists_run h ts (ts.length - minimumLength ps)
      simp only [fitsItems, capturedItems, hr, runFrom, hrun, hdrop, Bool.and_eq_true,
        List.forall_mem_cons] at hf hs
      rw [List.forall_mem_append] at ht ⊢
      have hprovides : (hole h).provides c = [(h.name, c.narrowed h)] := rfl
      rw [hprovides, List.forall_mem_singleton] at hnames ⊢
      have hlist : (c.narrowed h).list = true := by
        rw [Contents.narrowed, hc, repeatable_of_run? hr]
        rfl
      rw [hs.1 hnames.1, Contents.holds_list, and_iff_right hlist]
      refine and_congr (forall₂_congr fun x hx => ?_)
        (ihs ih.2 hnames.2 hps.2 rest hf.2 hs.2 ht.2)
      have hitem : (c.narrowed h).item = c.item.narrowed h := by
        simp only [Contents.narrowed, Contents.item, Bool.false_and]
      rw [hitem, Contents.holds_narrowed rfl (hacc x hx) (ht.1 x hx)]
    | none =>
      cases ts with
      | nil => simp [fitsItems, hr] at hf
      | cons t ts =>
        simp only [fitsItems, capturedItems, hr, Bool.and_eq_true, List.headD_cons, List.tail_cons,
          List.forall_mem_append] at hf hs
        rw [List.forall_mem_cons] at ht ⊢
        have hitem := provides_item hr hps.1
        rw [hitem] at hnames ⊢
        exact and_congr (ih.1 hps.1 hf.1 ht.1 hnames.1 hs.1)
          (ihs ih.2 hnames.2 hps.2 ts hf.2 hs.2 ht.2)

theorem formed_pattern (p : Pattern) : Accounts names s several p := by
  induction p with
  | hole h => exact formed_hole h
  | scalar a =>
    intro c t hp hf ht _ _
    have hprovides : (scalar a).provides c = [] := rfl
    obtain ⟨b, rfl, -⟩ := Tree.exists_scalar_of_same hf
    simp [hprovides, Contents.holds, ht.1, Tree.heldNodes]
  | list ps ih => exact formed_list ih
  | object fs ih => exact formed_object ih

/-! ### Trees that are built -/

theorem spliced_hole (h : Placeholder) (t : Tree) : (hole h).spliced t = t.entries := by
  cases t <;> rfl

theorem needs_item {p : Pattern} (hp : ∀ h, p ≠ .hole h) {c : Contents} (hs : p.suits c.item = true) :
    p.needs c = p.needs c.item := by
  cases p with
  | hole h => exact absurd rfl (hp h)
  | scalar a => rfl
  | list ps => cases hs
  | object fs => rfl

theorem worded_built {fs : List (String × Pattern)} (h : (object fs).worded = true) (s : Assignment)
    {kind : String} (hk : (object fs).kind? = some kind) : ((object fs).built s).worded = true := by
  have hb := kind?_built hk s
  rw [worded, isKind, hk, field?] at h
  rw [Tree.worded, Tree.isKind, hb]
  rw [Bool.or_eq_true] at h ⊢
  refine h.imp_right fun hw => ?_
  split at hw
  · rename_i w hl
    rw [get_built hl]
    exact hw
  · cases hw

theorem holds_built {q : Pattern} {c : Contents} (hq : q.suits c = true) :
    c.holds several (q.built s) ↔ ∀ e ∈ q.needs c, e.2.receives several (s e.1) := by
  induction q generalizing c with
  | hole h =>
    have hc : c.list = false := by simpa [suits] using hq
    have hneeds : (hole h).needs c = [(h.name, c)] := rfl
    rw [hneeds, List.forall_mem_singleton, Contents.receives, hc, if_neg Bool.false_ne_true, built]
  | scalar a =>
    have hneeds : (scalar a).needs c = [] := rfl
    rw [suits] at hq
    simp [hneeds, Contents.holds, built, hq, Tree.heldNodes]
  | list ps ih =>
    rw [suits, Bool.and_eq_true] at hq
    obtain ⟨hc, hps⟩ := hq
    rw [built, Contents.holds_list, and_iff_right hc, needs, nodeHoles]
    induction ps with
    | nil => simp [builtItems, nodeHolesItems]
    | cons p ps ihs =>
      rw [List.forall_mem_cons] at ih
      rw [suitsItems, Bool.and_eq_true] at hps
      have hneeds : nodeHolesItems (fun _ c => c) (p :: ps) c =
          p.needs c ++ nodeHolesItems (fun _ c => c) ps c := rfl
      rw [builtItems, List.forall_mem_append, hneeds, List.forall_mem_append, ihs ih.2 hps.2]
      refine and_congr_left' ?_
      cases p with
      | hole h =>
        have hhole : (hole h).needs c = [(h.name, c)] := rfl
        rw [spliced_hole, hhole, List.forall_mem_singleton, Contents.receives, hc, if_pos rfl, built]
      | scalar _ | list _ | object _ =>
        rw [needs_item (fun _ h => by cases h) hps.1, ← ih.1 hps.1]
        exact List.forall_mem_singleton
  | object fs ih =>
    obtain ⟨kind, slots, h⟩ := suits_object hq
    have hk := kind?_built h.isKind s
    have hexports : ((object fs).built s).exportsSeveral = false := by
      rw [Tree.exportsSeveral, Tree.isKind, hk, beq_false_of_ne, Bool.false_and]
      exact fun he => h.ne (Option.some.inj he)
    rw [Contents.holds_node h.single hk, Tree.formed_iff hk h.known, needs, h.forall_nodeHoles]
    simp only [h.mem, worded_built h.worded s h.isKind, hexports, or_true, true_and]
    refine forall₂_congr fun e he => ?_
    obtain ⟨p, hlookup, hsuits⟩ := h.field e he
    rw [get_built hlookup, ih _ (mem_of_lookup_eq hlookup) hsuits]
    simp [hlookup, needs]

end

end Pattern

end Legible
