import Legible.Proofs.Pattern.Alike
import Legible.Proofs.Simplify.Leave

namespace Legible.Simplify

open Pattern

def kindChanges : List (String × String) :=
  ("Program", "BlockStatement") :: rules.filterMap fun r =>
    (r.pattern.kind?).bind fun a => (r.replacement.kind?).map fun b => (a, b)

def isPlainKind (kind : String) : Bool :=
  (statementField? kind).isNone && kind != "FunctionDeclaration"

mutual

def steady : Pattern → Bool
  | .hole h => kindChanges.all fun c => !h.slot.takes c.2 || h.slot.takes c.1
  | .scalar _ => true
  | .list ps => steadyItems ps
  | .object fs =>
    (object fs).kind?.any isPlainKind && rules.all (fun r => (object fs).clash r.replacement) &&
      steadyFields fs
termination_by structural p => p

def steadyItems : List Pattern → Bool
  | [] => true
  | p :: ps => steady p && (p.run?.isNone || ps.isEmpty) && steadyItems ps
termination_by structural ps => ps

def steadyFields : List (String × Pattern) → Bool
  | [] => true
  | (_, p) :: fs => steady p && steadyFields fs
termination_by structural fs => fs

end

theorem steady_simple : ∀ r ∈ simpleRules,
    steady r.pattern = true ∧ r.pattern.nameless = true ∧ r.pattern.kind?.isSome = true := by
  decide

/-! ### Patterns after a walk -/

def Keeps (t u : Tree) : Prop :=
  ∀ p, steady p = true → p.fits u = true → p.fits t = true

section

variable {R : Tree → Tree → Prop} (hkeeps : ∀ c d, R c d → Keeps c d)

include hkeeps

theorem keeps_of_held {c d : Tree} (h : Tree.Held R c d) : Keeps c d := by
  rw [Tree.Held] at h
  split at h
  · exact hkeeps _ _ h
  · rw [h]
    exact fun _ _ hf => hf

theorem fitsItems_of_held {ps : List Pattern} (hp : steadyItems ps = true) {cs ds : List Tree}
    (h : List.Forall₂ (Tree.Held R) cs ds) (hf : fitsItems ps ds = true) :
    fitsItems ps cs = true := by
  induction ps generalizing cs ds with
  | nil =>
    cases h with
    | nil => exact hf
    | cons _ _ => cases hf
  | cons p ps ih =>
    simp only [steadyItems, Bool.and_eq_true] at hp
    cases hr : p.run? with
    | some g =>
      -- A run stands last, so it takes everything.
      have hps : ps = [] := by simpa [hr] using hp.1.2
      subst hps
      rw [fitsItems_run hr] at hf ⊢
      refine ⟨fun c hc => ?_, fun hc => hf.2 ?_⟩
      · obtain ⟨d, hd, hcd⟩ := exists_of_forall₂ h.flip hc
        have hg : steady (.hole g) = true := eq_hole_of_run? hr ▸ hp.1.1
        exact keeps_of_held hkeeps hcd (.hole g) hg (hf.1 d hd)
      · subst hc
        cases h
        rfl
    | none =>
      cases h with
      | nil => exact hf
      | cons hcd hrest =>
        simp only [fitsItems, hr, Bool.and_eq_true] at hf ⊢
        exact ⟨keeps_of_held hkeeps hcd p hp.1.1 hf.1, ih hp.2 hrest hf.2⟩

theorem keeps_of_grown {c d : Tree} (h : Tree.Grown R c d) : Keeps c d := by
  intro p hp hf
  cases h with
  | node _ hcd => exact hkeeps _ _ hcd p hp hf
  | other _ => exact hf
  | @list cs ds h =>
    cases p with
    | hole g => exact absurd rfl (not_list_of_accepts hf ds)
    | scalar a => cases hf
    | object fs => cases hf
    | list ps => exact fitsItems_of_held hkeeps hp h hf

end

theorem fits_of_walked {R : Place → Tree → Tree → Prop}
    (hkeeps : ∀ place c d, R place c d → Keeps c d) {keys : List String} {t u : Tree} (ht : t.isNode = true)
    (h : Tree.Walked R keys t u) {fs : List (String × Pattern)} (hp : steadyFields fs = true)
    (hf : (object fs).fits u = true) : (object fs).fits t = true := by
  rw [fits_object_iff] at hf ⊢
  refine ⟨Tree.eq_object_of_isNode ht, fun f hfm hi => ?_⟩
  have hsteady : steady f.2 = true := by
    clear hf
    induction fs with
    | nil => cases hfm
    | cons g fs ih =>
      obtain ⟨k, p⟩ := g
      rw [steadyFields, Bool.and_eq_true] at hp
      rcases List.mem_cons.mp hfm with rfl | hfm
      · exact hp.1
      · exact ih hp.2 hfm
  have hfit := hf.2 f hfm hi
  by_cases hk : f.1 ∈ keys
  · refine keeps_of_grown ?_ (h.child f.1 hk) f.2 hsteady hfit
    rintro c d ⟨p, -, hcd⟩
    exact hkeeps _ c d hcd
  · rwa [h.other f.1 hk] at hfit

/-! ### Nodes after a walk -/

def Spent (place : Place) (t : Tree) : Prop :=
  isLoopHead t place = false → ∀ r ∈ simpleRules, r.pattern.fits t = false

theorem isLoopHead_like {L : Tree → Tree → Prop} (hL : Tree.Likeness L) {p q : Place} {t u : Tree}
    (hpq : Place.Like p q) (htu : L t u) : isLoopHead u q = isLoopHead t p := by
  have hparent : ∀ place : Place, place.parent.bind Tree.kind? = (place.parent.map Tree.kind?).join := by
    intro place
    cases place.parent <;> rfl
  rw [isLoopHead, isLoopHead, Tree.isKind, Tree.isKind, hL.kind? htu, hparent, hparent, hpq.1, hpq.2]

theorem spent_like {L : Tree → Tree → Prop} (hL : Tree.Likeness L) {p q : Place} {t u : Tree}
    (hpq : Place.Like p q) (htu : L t u) (h : Spent p t) : Spent q u := by
  intro hl r hr
  rw [isLoopHead_like hL hpq htu] at hl
  rw [fits_alike hL (steady_simple r hr).2.1 htu]
  exact h hl r hr

theorem level_like {L : Tree → Tree → Prop} (hL : Tree.Likeness L) {p q : Place} {t u : Tree}
    (hpq : Place.Like p q) (htu : L t u) (h : Level p t) : Level q u := by
  constructor
  · intro hk parent hparent
    have hmap := hpq.2
    rw [hparent] at hmap
    rw [Tree.isKind, hL.kind? htu] at hk
    cases hp : p.parent with
    | none => rw [hp] at hmap; cases hmap
    | some a =>
      rw [hp] at hmap
      have hl := h.1 hk a hp
      rwa [Tree.kind, Option.some.inj hmap, hpq.1] at hl
  · intro field hfield d hd
    have hne : field ≠ "name" := by
      rcases statementField?_cases hfield with ⟨-, rfl⟩ | ⟨-, rfl⟩ | ⟨-, rfl⟩ <;> decide
    rw [Tree.kind, hL.kind? htu, ← Tree.kind] at hfield
    have hget := hL.get htu hne
    cases hv : t.get field with
    | scalar a =>
      rw [hv] at hget
      rw [hL.scalar hget] at hd
      cases hd
    | object tag fs =>
      rw [hv] at hget
      obtain ⟨tag', fs', hu⟩ := hL.object hget
      rw [hu] at hd
      cases hd
    | list ts =>
      rw [hv] at hget
      obtain ⟨us, hu, hs⟩ := hL.list hget
      rw [hu] at hd
      obtain ⟨c, hc, hcd⟩ := exists_of_forall₂ hs hd
      rw [Tree.isKind, hL.kind? hcd, ← Tree.isKind]
      exact h.2 field hfield c (by rw [hv]; exact hc)

structure Exhausted (place : Place) (t u : Tree) : Prop where
  node : u.isNode = true
  distinct : u.distinct = true
  keeps : Keeps t u
  throughout : Tree.Throughout (fun p c => Spent p c ∧ Level p c) place u
  root : place.parent = none → t.kind? = some "Program" → u.kind? = some "Program" ∧ u.tag = t.tag

theorem kind_of_step {t u : Tree} (h : Step t u) :
    ∃ c ∈ kindChanges, t.kind? = some c.1 ∧ u.kind? = some c.2 := by
  obtain ⟨r, hr, a, b, ha, hb, ht, hu⟩ := kind?_of_step h
  refine ⟨(a, b), List.mem_cons_of_mem _ (List.mem_filterMap.mpr ⟨r, hr, ?_⟩), ht, hu⟩
  rw [ha, hb]
  rfl

theorem takes_of_change {h : Placeholder} (hs : steady (.hole h) = true) {c : String × String}
    (hc : c ∈ kindChanges) (hu : h.slot.takes c.2 = true) : h.slot.takes c.1 = true := by
  have hall := List.all_eq_true.mp hs c hc
  simpa [hu] using hall

theorem takes_of_chain {h : Placeholder} (hs : steady (.hole h) = true) {t u : Tree}
    (hc : Relation.TransGen Step t u) (hu : h.slot.takes u.kind = true) :
    h.slot.takes t.kind = true := by
  have hstep : ∀ {t u}, Step t u → h.slot.takes u.kind = true → h.slot.takes t.kind = true := by
    intro t u hstep hu
    obtain ⟨c, hc, ha, hb⟩ := kind_of_step hstep
    rw [Tree.kind_of_kind? hb] at hu
    rw [Tree.kind_of_kind? ha]
    exact takes_of_change hs hc hu
  induction hc with
  | single h => exact hstep h hu
  | tail _ h ih => exact ih (hstep h hu)

theorem kind_of_steady {fs : List (String × Pattern)} (hs : steady (.object fs) = true) :
    ∃ kind, (object fs).kind? = some kind ∧ isPlainKind kind = true := by
  simp only [steady, Bool.and_eq_true, Option.any_eq_true] at hs
  exact hs.1.1

theorem not_fits_of_chain {fs : List (String × Pattern)} (hs : steady (.object fs) = true) {t u : Tree}
    (hc : Relation.TransGen Step t u) : (object fs).fits u = false := by
  obtain ⟨kind, hk, hplain⟩ := kind_of_steady hs
  simp only [steady, Bool.and_eq_true, List.all_eq_true] at hs
  rw [isPlainKind, Bool.and_eq_true, bne_iff_ne] at hplain
  obtain ⟨r, hr, s, rfl | ⟨hf, name, rfl⟩⟩ := (bounded_chain hc).2
  · exact fits_of_clash (hs.1.2 r hr) s
  · rw [isFunction, Tree.isKind_iff, ← kind?_withName _ name] at hf
    exact not_fits_of_kind hk hf hplain.2

theorem accepts_of_isNode {t : Tree} (h : Placeholder) (hn : t.isNode = true) :
    h.accepts t = h.slot.takes t.kind := by
  obtain ⟨tag, fs, rfl⟩ := Tree.eq_object_of_isNode hn
  unfold Placeholder.accepts
  split
  · rename_i hs
    rw [hs]
    rfl
  · rw [hn, Bool.true_and]
    rfl

theorem Keeps.trans {t u v : Tree} (h : Keeps t u) (h' : Keeps u v) : Keeps t v :=
  fun p hp hf => h p hp (h' p hp hf)

theorem keeps_of_isNode {t u : Tree} (ht : t.isNode = true) (hu : u.isNode = true)
    (hhole : ∀ h : Placeholder, steady (.hole h) = true → h.slot.takes u.kind = true →
      h.slot.takes t.kind = true)
    (hobject : ∀ fs, steady (.object fs) = true → (object fs).fits u = true →
      (object fs).fits t = true) : Keeps t u := by
  intro p hp hf
  cases p with
  | hole h =>
    rw [fits, accepts_of_isNode h hu] at hf
    rw [fits, accepts_of_isNode h ht]
    exact hhole h hp hf
  | object fs => exact hobject fs hp hf
  | scalar a =>
    obtain ⟨tag, fs, rfl⟩ := Tree.eq_object_of_isNode hu
    cases hf
  | list ps =>
    obtain ⟨tag, fs, rfl⟩ := Tree.eq_object_of_isNode hu
    cases hf

theorem kind?_current (s : State) (t : Tree) : (s.current t).kind? = t.kind? := by
  rw [State.current]
  split
  · rfl
  · exact (Tree.likeness_apply s.names).kind? rfl

theorem keeps_entered {t : Tree} (hn : t.isNode = true) (place : Place) (s : State) :
    Keeps t (entered t place s) := by
  rcases entered_cases t place s with ⟨he, -⟩ | hc
  · rw [he]
    exact fun _ _ hf => hf
  · refine keeps_of_isNode hn (isNode_entered hn place s) (fun h hs hu => ?_) fun fs hs hf => ?_
    · have ht := takes_of_chain hs hc hu
      rwa [Tree.kind, kind?_current, ← Tree.kind] at ht
    · rw [not_fits_of_chain hs hc] at hf
      cases hf

theorem eq_of_leaves {place : Place} {t u : Tree} (h : Leaves place t u) {fs : List (String × Pattern)}
    (hs : steady (.object fs) = true) (hf : (object fs).fits u = true) : u = t := by
  obtain ⟨kind, hk, hplain⟩ := kind_of_steady hs
  rw [isPlainKind, Bool.and_eq_true, Option.isNone_iff_eq_none] at hplain
  refine h.list.resolve_right ?_
  rintro ⟨field, hfield⟩
  rw [Tree.kind_of_kind? (kind?_of_fits hk hf), hplain.1] at hfield
  cases hfield

theorem keeps_of_leaves {place : Place} {t u : Tree} (hn : t.isNode = true) (h : Leaves place t u) :
    Keeps t u := by
  refine keeps_of_isNode hn h.node (fun g hs hu => ?_) fun fs hs hf => ?_
  · rcases h.kind with hk | ⟨-, ht, hk⟩
    · rwa [Tree.kind, hk, ← Tree.kind] at hu
    · rw [Tree.kind_of_kind? hk] at hu
      rw [Tree.kind_of_kind? ht]
      exact takes_of_change (c := ("Program", "BlockStatement")) hs List.mem_cons_self hu
  · rwa [← eq_of_leaves h hs hf]

theorem not_step_program {t u : Tree} (ht : t.kind? = some "Program") : ¬ Step t u := by
  have hpattern : ∀ r ∈ rules, r.pattern.kind? ≠ some "Program" := by decide
  intro h
  obtain ⟨r, hr, a, b, ha, -, hk, -⟩ := kind?_of_step h
  exact hpattern r hr (ha.trans (hk.symm.trans ht))

theorem entered_program {t : Tree} (hk : t.kind? = some "Program") (place : Place) (s : State) :
    entered t place s = t := by
  rcases entered_cases t place s with ⟨he, -⟩ | hc
  · exact he
  · obtain ⟨u, hstep, -⟩ := Relation.TransGen.head'_iff.mp hc
    exact absurd hstep (not_step_program ((kind?_current s t).trans hk))

def isHeadKey (key : Option String) : Bool :=
  key == some "init" || key == some "left"

theorem isHeadKey_of_statementField? {kind field : String} (h : statementField? kind = some field) :
    isHeadKey (some field) = false := by
  rcases statementField?_cases h with ⟨-, rfl⟩ | ⟨-, rfl⟩ | ⟨-, rfl⟩ <;> decide

theorem isLoopHead_of_isHeadKey {place : Place} (h : isHeadKey place.key = false) (t : Tree) :
    isLoopHead t place = false := by
  rw [isHeadKey] at h
  rw [isLoopHead, h, Bool.and_false, Bool.false_and]

theorem Spent.move {p : Place} {t : Tree} (h : Spent p t) (hp : isHeadKey p.key = false) (q : Place) :
    Spent q t :=
  fun _ => h (isLoopHead_of_isHeadKey hp t)

theorem throughout_of_mem_flattened {P : Place → Tree → Prop} {q : Place} {d x : Tree}
    (hkey : isHeadKey q.key = false) (h : Tree.Throughout P q d) (hm : x ∈ flattened d)
    (hx : x.isNode = true) : ∃ p, isHeadKey p.key = false ∧ Tree.Throughout P p x := by
  induction d using statements_induction generalizing q with
  | list d hk ih =>
    rw [flattened_list hk] at hm
    obtain ⟨e, he, hm⟩ := List.mem_flatMap.mp hm
    have hc := Tree.mem_childrenAt_of_mem_items he (isNode_of_mem_flattened hm hx)
    exact ih e he (q := ⟨some d, some "body"⟩) rfl
      ((Tree.throughout_iff.mp h).2 "body" (mem_childKeys_program hk) e hc) hm
  | other d hk =>
    rw [flattened_other hk] at hm
    rw [List.mem_singleton.mp hm]
    exact ⟨q, hkey, h⟩

section

variable {t v : Tree} {place : Place} {s : State} (hn : t.isNode = true) (hd : t.distinct = true)
  (hv : Tree.Walked Exhausted (entered t place s).childKeys (entered t place s) v)

include hd hv

theorem kind?_walked : v.kind? = (entered t place s).kind? :=
  hv.kind? (fun _ _ _ h => ⟨h.node, h.distinct⟩) (distinct_entered hd place s) (List.Subset.refl _)

include hn

theorem keeps_walked : Keeps (entered t place s) v := by
  refine keeps_of_isNode (isNode_entered hn place s) hv.node (fun h _ hu => ?_) fun fs hs hf => ?_
  · rwa [Tree.kind, kind?_walked hd hv, ← Tree.kind] at hu
  · simp only [steady, Bool.and_eq_true] at hs
    exact fits_of_walked (fun _ _ _ h => h.keeps) (isNode_entered hn place s) hv hs.2 hf

theorem spent_left : Spent place (left v place) := by
  intro hhead r hr
  rw [← Bool.not_eq_true]
  intro hf
  obtain ⟨hsteady, hnameless, hkind⟩ := steady_simple r hr
  obtain ⟨kind, hkind⟩ := Option.isSome_iff_exists.mp hkind
  obtain ⟨fs, hfs⟩ := exists_object_of_kind? hkind
  rw [hfs] at hsteady hf
  have hvd : v.distinct = true :=
    hv.distinct (fun _ _ _ h => ⟨h.node, h.distinct⟩) (isNode_entered hn place s)
      (distinct_entered hd place s)
  have hleaves := leaves_left hv.node hvd place
  have hw := eq_of_leaves hleaves hsteady hf
  rw [hw] at hf hhead
  have hu := keeps_walked hn hd hv _ hsteady hf
  rcases entered_cases t place s with ⟨he, hwhy⟩ | hc
  · rcases hwhy hn with hl | hnone
    · have hsame : v.kind? = t.kind? := by rw [kind?_walked hd hv, he]
      rw [isLoopHead, Tree.isKind, hsame, ← Tree.isKind, ← isLoopHead, hl] at hhead
      cases hhead
    · have hr' : r ∈ simpleRules ++ braceRules := List.mem_append_left _ hr
      have hcurrent : r.pattern.fits (s.current t) = r.pattern.fits t := by
        rw [State.current]
        split
        · rfl
        · exact fits_alike (Tree.likeness_apply s.names) hnameless rfl
      have hno := hnone r (mem_rules_of_mem hr')
      rw [Rule.apply?_eq (linear_of_mem r hr'), hcurrent, hfs, ← he, if_pos hu] at hno
      cases hno
  · rw [not_fits_of_chain hsteady hc] at hu
    cases hu

theorem throughout_left {key : String} (hkey : key ∈ (left v place).childKeys) {x : Tree}
    (hx : x ∈ (left v place).childrenAt key) :
    Tree.Throughout (fun p c => Spent p c ∧ Level p c) ⟨some (left v place), some key⟩ x := by
  have hR : ∀ place c d, Exhausted place c d → d.isNode = true ∧ d.distinct = true :=
    fun _ _ _ h => ⟨h.node, h.distinct⟩
  have hun := isNode_entered hn place s
  have hud := distinct_entered hd place s
  have hleaves := leaves_left hv.node (hv.distinct hR hun hud) place
  obtain ⟨hkey', hbelow⟩ := hleaves.below key hkey x hx
  rw [hv.childKeys hR hun hud (List.Subset.refl _)] at hkey'
  have hchild : ∀ d ∈ v.childrenAt key, ∃ p : Tree, p.kind? = v.kind? ∧
      Tree.Throughout (fun p c => Spent p c ∧ Level p c) ⟨some p, some key⟩ d := by
    intro d hdm
    have hheld := (hv.child key hkey').heldNodes (Tree.distinct_replaced hR)
    obtain ⟨c, -, p, hp, hcd⟩ := exists_of_forall₂ hheld hdm
    exact ⟨p, hp.trans (kind?_walked hd hv).symm, hcd.throughout⟩
  rcases hbelow with hxv | ⟨hfield, d, hdm, hm⟩
  · obtain ⟨p, hpv, hx⟩ := hchild x hxv
    refine hx.move ?_
    obtain ⟨hspent, hlevel⟩ := (Tree.throughout_iff.mp hx).1
    rcases hleaves.kind with hk | ⟨-, hprogram, hblock⟩
    · have hlike : Place.Like ⟨some p, some key⟩ ⟨some (left v place), some key⟩ :=
        ⟨rfl, congrArg some (hpv.trans hk.symm)⟩
      exact ⟨spent_like Tree.likeness_numbered hlike rfl hspent,
        level_like Tree.likeness_numbered hlike rfl hlevel⟩
    · rw [Tree.childKeys_of_kind? hblock rfl, List.mem_singleton] at hkey
      subst hkey
      refine ⟨hspent.move rfl _, fun _ parent hparent => ?_, hlevel.2⟩
      rw [← Option.some.inj hparent, Tree.kind_of_kind? hblock]
      rfl
  · obtain ⟨p, -, hd⟩ := hchild d hdm
    obtain ⟨q, hq, hthrough⟩ := throughout_of_mem_flattened (q := ⟨some p, some key⟩)
      (isHeadKey_of_statementField? hfield) hd hm (Tree.isNode_of_mem_heldNodes hx)
    obtain ⟨hspent, hlevel⟩ := (Tree.throughout_iff.mp hthrough).1
    refine hthrough.move ⟨hspent.move hq _, fun hk => ?_, hlevel.2⟩
    rw [isKind_of_mem_flattened hm] at hk
    cases hk

theorem exhausted_left : Exhausted place t (left v place) := by
  have hR : ∀ place c d, Exhausted place c d → d.isNode = true ∧ d.distinct = true :=
    fun _ _ _ h => ⟨h.node, h.distinct⟩
  have hvd := hv.distinct hR (isNode_entered hn place s) (distinct_entered hd place s)
  have hleaves := leaves_left hv.node hvd place
  refine ⟨hleaves.node, hleaves.distinct, ?_, ?_, fun hroot hk => ?_⟩
  · exact ((keeps_entered hn place s).trans (keeps_walked hn hd hv)).trans
      (keeps_of_leaves hv.node hleaves)
  · exact Tree.throughout_iff.mpr ⟨⟨spent_left hn hd hv, hleaves.level⟩,
      fun key hkey x hx => throughout_left hn hd hv hkey hx⟩
  · have he := entered_program hk place s
    rw [he] at hv
    rcases hleaves.kind with hw | ⟨hparent, -⟩
    · rw [hw, kind?_walked hd (he ▸ hv), he]
      exact ⟨hk, hleaves.tag.trans hv.tag⟩
    · exact absurd hroot hparent

end

theorem exhausts {t : Tree} (hn : t.isNode = true) (hd : t.distinct = true) (place : Place)
    (s : State) : ∃ u s', Tree.replace? enter leave (t.weight + 1) place t s = some (u, s') ∧
      Exhausted place t u := by
  have hsure : Sure (fun _ : State => True) (Tree.replace? enter leave (t.weight + 1) place t)
      (Exhausted place t) :=
    walk_sure id Exhausted (fun _ _ => True) (fun _ _ _ => rfl) leave_state
      (fun _ _ _ h => ⟨h.node, h.distinct⟩)
      (fun _ _ _ _ _ _ _ => ⟨fun _ _ _ _ _ _ => trivial, trivial⟩)
      (fun t place s hn hd _ _ v hv => exhausted_left hn hd hv) hn hd trivial
  obtain ⟨u, s', he, hu, -⟩ := hsure s trivial
  exact ⟨u, s', he, hu⟩

/-! ### A whole run -/

def Calm (place : Place) (t : Tree) : Prop :=
  isLoopHead t place = false → ∀ r ∈ plainRules, r.pattern.fits t = false

theorem fits_anyExpression {t : Tree} {kind name : String} (hk : t.kind? = some kind)
    (h : Slot.takes kind (.expression .any false false) = true) :
    (anyExpression name).fits t = true := by
  rw [anyExpression, fits, accepts_of_isNode _ (isNode_of_kind? hk), Tree.kind_of_kind? hk]
  exact h

theorem returns_of_interop {t : Tree} (h : interopRule.pattern.fits t = true) :
    ∃ d ∈ (t.get "body").childrenAt "body", returnConditionalRule.pattern.fits d = true := by
  have hbody := fits_get "body" rfl rfl h
  obtain ⟨d, hd, hreturn⟩ := fits_singleton rfl (fits_get "body" rfl rfl hbody)
  have hargument := fits_get "argument" rfl rfl hreturn
  refine ⟨d, ?_, ?_⟩
  · rw [Tree.mem_items_of_mem_childrenAt hd]
    exact ⟨List.mem_singleton_self d, isNode_of_kind? (kind?_of_fits rfl hreturn)⟩
  · have hconditional : conditional.fits (d.get "argument") = true := by
      refine fits_node_iff.mpr ⟨kind?_of_fits rfl hargument, fun f hf _ => ?_⟩
      simp only [List.mem_cons, List.not_mem_nil, or_false] at hf
      rcases hf with rfl | rfl | rfl
      · exact fits_anyExpression (kind?_of_fits rfl (fits_get "test" rfl rfl hargument)) rfl
      · exact fits_anyExpression (kind?_of_fits rfl (fits_get "consequent" rfl rfl hargument)) rfl
      · exact fits_anyExpression (kind?_of_fits rfl (fits_get "alternate" rfl rfl hargument)) rfl
    refine fits_node_iff.mpr ⟨kind?_of_fits rfl hreturn, fun f hf _ => ?_⟩
    obtain rfl := List.mem_singleton.mp hf
    exact hconditional

theorem calm_of_spent {place : Place} {t : Tree} (h : Tree.Throughout Spent place t) :
    Tree.Throughout Calm place t := by
  intro p c hr hhead r hrule
  rcases List.mem_append.mp hrule with hsimple | hinterop
  · exact h p c hr hhead r hsimple
  · obtain rfl := List.mem_singleton.mp hinterop
    rw [← Bool.not_eq_true]
    intro hf
    obtain ⟨d, hd, hfd⟩ := returns_of_interop hf
    have hc : c.kind? = some "FunctionDeclaration" := kind?_of_fits rfl hf
    have hbody : (c.get "body").kind? = some "BlockStatement" :=
      kind?_of_fits rfl (fits_get "body" rfl rfl hf)
    have hreach : Tree.Reaches place t ⟨some c, some "body"⟩ (c.get "body") := by
      refine hr.child ?_ ?_
      · rw [Tree.childKeys_of_kind? hc rfl]
        decide
      · exact Tree.self_mem_heldNodes (isNode_of_kind? hbody)
    have hkey : "body" ∈ (c.get "body").childKeys := by
      rw [Tree.childKeys_of_kind? hbody rfl]
      exact List.mem_singleton_self _
    have hno := h _ d (hreach.child hkey hd) (isLoopHead_of_isHeadKey rfl d) returnConditionalRule
      (by simp [simpleRules])
    rw [hno] at hfd
    cases hfd

theorem graft_of_tag {t u : Tree} (ht : t.isNode = true) (hu : u.isNode = true) (h : u.tag = t.tag) :
    graft u t = u := by
  obtain ⟨m, fs, rfl⟩ := Tree.eq_object_of_isNode ht
  obtain ⟨n, gs, rfl⟩ := Tree.eq_object_of_isNode hu
  obtain rfl : n = m := h
  simp [graft, Tree.find?]

theorem kind?_numbered (t : Tree) : t.numbered.kind? = t.kind? :=
  Tree.likeness_numbered.kind? (Tree.untagged_numbered t)

theorem distinct_numbered {t : Tree} (h : t.distinct = true) : t.numbered.distinct = true := by
  rw [← Tree.distinct_untagged, Tree.untagged_numbered, Tree.distinct_untagged, h]

theorem exists_walk {t : Tree} (hk : t.kind? = some "Program") (hd : t.distinct = true) :
    ∃ u s, walk t.numbered = some (u, s) ∧ simplify t = (s.names.apply u, s.count) ∧
      Exhausted ⟨none, none⟩ t.numbered u := by
  have hkind := (kind?_numbered t).trans hk
  have hn := isNode_of_kind? hkind
  obtain ⟨u, s, hwalk, hu⟩ := exhausts hn (distinct_numbered hd) ⟨none, none⟩
    ⟨Scope.ofTree t.numbered, ∅, 0⟩
  refine ⟨u, s, hwalk, ?_, hu⟩
  have hwalk' : walk t.numbered = some (u, s) := hwalk
  rw [simplify, run, hwalk']
  simp only [graft_of_tag hn hu.node (hu.root rfl hkind).2]

theorem exhausted_simplify {t : Tree} (hk : t.kind? = some "Program") (hd : t.distinct = true) :
    (simplify t).1.kind? = some "Program" ∧ (simplify t).1.distinct = true ∧
      Tree.Throughout (fun p c => Spent p c ∧ Level p c) ⟨none, none⟩ (simplify t).1 := by
  obtain ⟨u, s, -, hs, hu⟩ := exists_walk hk hd
  rw [hs]
  have hlike := Tree.likeness_apply s.names
  refine ⟨?_, s.names.distinct_apply hu.distinct, ?_⟩
  · exact (hlike.kind? rfl).trans (hu.root rfl ((kind?_numbered t).trans hk)).1
  · exact hu.throughout.alike hlike (fun hpq htu h =>
      ⟨spent_like hlike hpq htu h.1, level_like hlike hpq htu h.2⟩) ⟨rfl, rfl⟩ rfl hu.distinct

end Legible.Simplify
