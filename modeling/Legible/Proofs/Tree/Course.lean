import Legible.Proofs.Tree.Total

/-!
The course of a walk that replaces nodes. Every child of what has been put at a place is walked just
once, in order and between entering the place and leaving it, and all else there stays. If nothing is
ever replaced, the calls are the visits of a reading walk.
-/

namespace Legible

/-! ### Calls and courses -/

structure Call where
  phase : Phase
  node : Tree
  place : Place
  answer : Option Tree

def Call.visit (c : Call) : Visit :=
  ⟨c.phase, c.node, c.place.parent⟩

def Replacer.noting {σ : Type} (phase : Phase) (f : Replacer σ) : Replacer (σ × List Call) :=
  fun t place s =>
    ((f t place s.1).1, (f t place s.1).2, s.2 ++ [⟨phase, t, place, (f t place s.1).1⟩])

structure Spot where
  key : String
  index : Option Nat
deriving DecidableEq

/-- What happens at a place from entering to leaving it. -/
structure Course where
  parent : Option Tree
  spot : Option Spot
  found : Tree
  entered : Option Tree
  inside : List Course
  walked : Tree
  left : Option Tree

namespace Course

def place (c : Course) : Place :=
  ⟨c.parent, c.spot.map (·.key)⟩

def placed (c : Course) : Tree :=
  c.entered.getD c.found

def stored (c : Course) : Tree :=
  c.left.getD c.walked

mutual

def calls : Course → List Call
  | ⟨parent, spot, found, entered, inside, walked, left⟩ =>
    ⟨.enter, found, ⟨parent, spot.map (·.key)⟩, entered⟩ :: callsOf inside ++
      [⟨.leave, walked, ⟨parent, spot.map (·.key)⟩, left⟩]
termination_by structural c => c

def callsOf : List Course → List Call
  | [] => []
  | c :: cs => calls c ++ callsOf cs
termination_by structural cs => cs

end

def new? (cs : List Course) (spot : Spot) : Option Tree :=
  (cs.find? fun c => c.spot == some spot).map (·.stored)

end Course

namespace Tree

def itemSpots (key : String) (cs : List Tree) : List (Spot × Tree) :=
  cs.zipIdx.filterMap fun c => if c.1.isNode then some (⟨key, some c.2⟩, c.1) else none

def spotsAt (t : Tree) (key : String) : List (Spot × Tree) :=
  match t.get key with
  | .list cs => itemSpots key cs
  | c => if c.isNode then [(⟨key, none⟩, c)] else []

def spots (t : Tree) : List (Spot × Tree) :=
  t.childKeys.flatMap t.spotsAt

def renewed (new : Option Nat → Option Tree) : Tree → Tree
  | .list cs => .list (cs.mapIdx fun i c => (new (some i)).getD c)
  | c => (new none).getD c

def refilled (t : Tree) (new : Spot → Option Tree) : Tree :=
  match t with
  | .object tag fs => .object tag (fs.map fun f => (f.1, f.2.renewed fun i => new ⟨f.1, i⟩))
  | t => t

end Tree

/-- Each child of what was put at the place has a course of its own, whose parent is as the courses
before it have left it, and nothing else there changes. -/
inductive Course.Sound : Course → Prop
  | intro {c : Course}
      (spots : c.inside.map (fun d => (d.spot, d.found)) =
        (if c.placed.isNode then c.placed.spots else []).map fun s => (some s.1, s.2))
      (once : (c.inside.map (·.spot)).Nodup)
      (parents : ∀ before d after, c.inside = before ++ d :: after →
        d.parent = some (c.placed.refilled (Course.new? before)))
      (walked : c.walked = c.placed.refilled (Course.new? c.inside))
      (below : ∀ d ∈ c.inside, d.Sound) : c.Sound

/-! ### Spots -/

namespace Course

theorem callsOf_append (cs ds : List Course) : callsOf (cs ++ ds) = callsOf cs ++ callsOf ds := by
  induction cs with
  | nil => rfl
  | cons c cs ih => rw [List.cons_append, callsOf, callsOf, ih, List.append_assoc]

theorem new?_concat (cs : List Course) (d : Course) (spot : Spot) :
    new? (cs ++ [d]) spot =
      (new? cs spot).or (if d.spot = some spot then some d.stored else none) := by
  rw [new?, new?, List.find?_append]
  cases cs.find? fun c => c.spot == some spot with
  | some c => rfl
  | none => by_cases h : d.spot = some spot <;> simp [h]

theorem new?_eq_none {cs : List Course} {spot : Spot} (h : ∀ c ∈ cs, c.spot ≠ some spot) :
    new? cs spot = none := by
  rw [new?, List.find?_eq_none.mpr]
  · rfl
  · intro c hc
    simpa using h c hc

end Course

namespace Tree

theorem itemSpots_concat (key : String) (cs : List Tree) (c : Tree) :
    itemSpots key (cs ++ [c]) =
      itemSpots key cs ++ if c.isNode then [(⟨key, some cs.length⟩, c)] else [] := by
  rw [itemSpots, List.zipIdx_append, List.filterMap_append, itemSpots]
  congr 1
  by_cases h : c.isNode = true <;> simp [h]

theorem of_mem_itemSpots {key : String} {cs : List Tree} {s : Spot × Tree}
    (h : s ∈ itemSpots key cs) : ∃ i < cs.length, s.1 = ⟨key, some i⟩ := by
  obtain ⟨c, hc, hs⟩ := List.mem_filterMap.mp h
  split at hs
  · obtain rfl := Option.some.inj hs
    exact ⟨c.2, List.snd_lt_of_mem_zipIdx hc, rfl⟩
  · cases hs

theorem key_of_mem_spotsAt {t : Tree} {key : String} {s : Spot × Tree} (h : s ∈ t.spotsAt key) :
    s.1.key = key := by
  rw [spotsAt] at h
  split at h
  · obtain ⟨i, -, hs⟩ := of_mem_itemSpots h
    rw [hs]
  · split at h
    · rw [List.mem_singleton.mp h]
    · cases h

theorem renewed_none (c : Tree) : c.renewed (fun _ => none) = c := by
  cases c with
  | list cs =>
    rw [renewed]
    congr 1
    apply List.ext_getElem
    · simp
    · intro i hi hj
      rw [List.getElem_mapIdx]
      rfl
  | scalar a => rfl
  | object tag fs => rfl

theorem refilled_none (t : Tree) : t.refilled (fun _ => none) = t := by
  cases t with
  | object tag fs => simp [refilled, renewed_none]
  | scalar a => rfl
  | list cs => rfl

theorem field?_refilled (t : Tree) (new : Spot → Option Tree) (key : String) :
    (t.refilled new).field? key = (t.field? key).map (renewed fun i => new ⟨key, i⟩) := by
  cases t with
  | scalar a => rfl
  | list cs => rfl
  | object tag fs =>
    simp only [refilled, field?, fields]
    induction fs with
    | nil => rfl
    | cons f fs ih =>
      rw [List.map_cons, List.lookup_cons, List.lookup_cons]
      by_cases h : key = f.1
      · simp [h]
      · rw [beq_false_of_ne h]
        exact ih

theorem refilled_eq_set {t c : Tree} (ht : (t.fields.map (·.1)).Nodup) {key : String}
    (hc : t.field? key = some c) {new new' : Spot → Option Tree}
    (h : ∀ spot : Spot, spot.key ≠ key → new' spot = new spot) :
    t.refilled new' = (t.refilled new).set key (c.renewed fun i => new' ⟨key, i⟩) := by
  cases t with
  | scalar a => cases hc
  | list cs => cases hc
  | object tag fs =>
    simp only [refilled, set]
    congr 1
    simp only [field?, fields] at hc ht
    induction fs with
    | nil => cases hc
    | cons f fs ih =>
      rw [List.map_cons, List.nodup_cons] at ht
      rw [List.map_cons, List.map_cons, Fields.set]
      by_cases hk : f.1 = key
      · rw [if_pos hk]
        subst hk
        rw [List.lookup_cons_self] at hc
        obtain rfl := Option.some.inj hc
        congr 1
        apply List.map_congr_left
        intro g hg
        have hne : g.1 ≠ f.1 := fun he => ht.1 (he ▸ List.mem_map_of_mem hg)
        simp only [h ⟨g.1, _⟩ hne]
      · rw [if_neg hk]
        rw [List.lookup_cons, beq_false_of_ne (Ne.symm hk)] at hc
        rw [ih ht.2 hc]
        simp only [h ⟨f.1, _⟩ hk]

theorem append_eq_mapIdx {ts done rest : List Tree} {c d : Tree} {f g : Nat → Tree → Tree}
    (h : done ++ c :: rest = ts.mapIdx f) (hd : ∀ t, g done.length t = d)
    (hother : ∀ i t, i ≠ done.length → g i t = f i t) : done ++ d :: rest = ts.mapIdx g := by
  have hset : done ++ d :: rest = (ts.mapIdx f).set done.length d := by
    rw [← h, List.set_append_right _ _ (Nat.le_refl _), Nat.sub_self, List.set_cons_zero]
  rw [hset]
  apply List.ext_getElem
  · simp
  · intro i hi hj
    rw [List.getElem_set, List.getElem_mapIdx, List.getElem_mapIdx]
    split
    · rename_i he
      subst he
      exact (hd _).symm
    · rename_i he
      exact (hother i _ (Ne.symm he)).symm

end Tree

/-! ### Walks that note their calls -/

def Logs {σ α : Type} (x : StateT (σ × List Call) Option α) (P : α → List Call → Prop) : Prop :=
  ∀ s a s', x s = some (a, s') → ∃ calls, s'.2 = s.2 ++ calls ∧ P a calls

namespace Logs

variable {σ α β : Type} {P Q : α → List Call → Prop}

theorem pure {a : α} (h : P a []) : Logs (σ := σ) (Pure.pure a) P := by
  rintro s _ _ ⟨⟩
  exact ⟨[], (List.append_nil _).symm, h⟩

theorem bind {x : StateT (σ × List Call) Option α} {f : α → StateT (σ × List Call) Option β}
    {P' : β → List Call → Prop} (hx : Logs x P)
    (hf : ∀ a calls, P a calls → Logs (f a) fun b more => P' b (calls ++ more)) :
    Logs (x >>= f) P' := by
  intro s b s' h
  obtain ⟨⟨a, s₁⟩, ha, hb⟩ := Option.bind_eq_some_iff.mp h
  obtain ⟨calls, hcalls, hP⟩ := hx s a s₁ ha
  obtain ⟨more, hmore, hP'⟩ := hf a calls hP s₁ b s' hb
  exact ⟨calls ++ more, by rw [hmore, hcalls, List.append_assoc], hP'⟩

theorem imp {x : StateT (σ × List Call) Option α} (hx : Logs x P)
    (h : ∀ a calls, P a calls → Q a calls) : Logs x Q := by
  intro s a s' he
  obtain ⟨calls, hcalls, hP⟩ := hx s a s' he
  exact ⟨calls, hcalls, h a calls hP⟩

end Logs

theorem logs_run {σ : Type} (phase : Phase) (f : Replacer σ) (t : Tree) (place : Place) :
    Logs ((f.noting phase).run t place) fun u calls =>
      ∃ s, u = (f t place s).1.getD t ∧ calls = [⟨phase, t, place, (f t place s).1⟩] := by
  rintro s _ _ ⟨⟩
  exact ⟨_, rfl, s.1, rfl, rfl⟩

namespace Tree

/-! ### The courses inside a place -/

structure Partway (t : Tree) (spots : List (Spot × Tree)) (inside : List Course) : Prop where
  spots : inside.map (fun d => (d.spot, d.found)) = spots.map fun s => (some s.1, s.2)
  once : (inside.map (·.spot)).Nodup
  parents : ∀ before d after, inside = before ++ d :: after →
    d.parent = some (t.refilled (Course.new? before))
  below : ∀ d ∈ inside, d.Sound

namespace Partway

variable {t : Tree} {spots : List (Spot × Tree)} {inside : List Course}

theorem nil (t : Tree) : Partway t [] [] := by
  constructor
  · rfl
  · exact List.nodup_nil
  · intro before d after h
    simp at h
  · simp

theorem exists_spot (h : Partway t spots inside) {d : Course} (hd : d ∈ inside) :
    ∃ s ∈ spots, d.spot = some s.1 := by
  have hm := List.mem_map_of_mem (f := fun d : Course => (d.spot, d.found)) hd
  rw [h.spots] at hm
  obtain ⟨s, hs, he⟩ := List.mem_map.mp hm
  exact ⟨s, hs, (Prod.mk.inj he).1.symm⟩

theorem new?_eq_none (h : Partway t spots inside) {spot : Spot}
    (hs : ∀ s ∈ spots, s.1 ≠ spot) : Course.new? inside spot = none := by
  apply Course.new?_eq_none
  intro d hd he
  obtain ⟨s, hm, hd⟩ := h.exists_spot hd
  exact hs s hm (Option.some.inj (hd.symm.trans he))

theorem concat (h : Partway t spots inside) {spot : Spot} {d : Course}
    (hs : ∀ s ∈ spots, s.1 ≠ spot) (hspot : d.spot = some spot)
    (hp : d.parent = some (t.refilled (Course.new? inside))) (hd : d.Sound) :
    Partway t (spots ++ [(spot, d.found)]) (inside ++ [d]) := by
  constructor
  · rw [List.map_append, List.map_append, h.spots, List.map_singleton, List.map_singleton, hspot]
  · rw [List.map_append, List.map_singleton, List.nodup_append]
    refine ⟨h.once, by simp, ?_⟩
    rintro _ hm _ hd' rfl
    obtain ⟨e, he, rfl⟩ := List.mem_map.mp hm
    obtain ⟨s, hmem, hes⟩ := h.exists_spot he
    rw [List.mem_singleton.mp hd', hspot] at hes
    exact hs s hmem (Option.some.inj hes).symm
  · intro before e after he
    rcases List.eq_nil_or_concat after with rfl | ⟨after, x, rfl⟩
    · obtain ⟨rfl, rfl⟩ := List.append_singleton_inj.mp he
      exact hp
    · rw [List.concat_eq_append, ← List.cons_append, ← List.append_assoc] at he
      exact h.parents before e after (List.append_singleton_inj.mp he).1
  · intro e he
    rcases List.mem_append.mp he with he | he
    · exact h.below e he
    · rw [List.mem_singleton.mp he]
      exact hd

end Partway

/-! ### Steps of a walk -/

section

variable {σ : Type} {enter leave : Replacer σ} {fuel : Nat}

def HasCourse (enter leave : Replacer σ) (fuel : Nat) (t : Tree) : Prop :=
  ∀ (parent : Option Tree) (spot : Option Spot),
    Logs (replace? (enter.noting .enter) (leave.noting .leave) fuel ⟨parent, spot.map (·.key)⟩ t)
      fun u calls => ∃ d : Course, d.parent = parent ∧ d.spot = spot ∧ d.found = t ∧
        d.stored = u ∧ d.Sound ∧ calls = d.calls

variable {t : Tree} {key : String} {spots : List (Spot × Tree)}

theorem logs_replaceItems {cs : List Tree} (ht : (t.fields.map (·.1)).Nodup)
    (hcs : t.field? key = some (.list cs)) (hkey : ∀ s ∈ spots, s.1.key ≠ key)
    {new : Spot → Option Tree} (before done : List Tree) {rest : List Tree} {now : List Course}
    (hc : ∀ c ∈ rest, c.isNode = true → HasCourse enter leave fuel c) (hall : cs = before ++ rest)
    (hnow : Partway t (spots ++ itemSpots key before) now)
    (hsame : ∀ spot : Spot, spot.key ≠ key → Course.new? now spot = new spot)
    (hlen : done.length = before.length)
    (hdone : done ++ rest = cs.mapIdx fun i c => (Course.new? now ⟨key, some i⟩).getD c) :
    Logs (replaceItems (fun all => walkChild (enter.noting .enter) (leave.noting .leave) fuel
        ((t.refilled new).set key (.list all)) key) done rest) fun us calls =>
      ∃ ds, calls = Course.callsOf ds ∧ Partway t (spots ++ itemSpots key cs) (now ++ ds) ∧
        (t.refilled new).set key (.list us) = t.refilled (Course.new? (now ++ ds)) := by
  induction rest generalizing before now done with
  | nil =>
    rw [List.append_nil] at hall hdone
    refine .pure ⟨[], rfl, ?_, ?_⟩
    · rw [List.append_nil, hall]
      exact hnow
    · rw [List.append_nil, hdone]
      exact (refilled_eq_set ht hcs hsame).symm
  | cons c rest ih =>
    rw [List.forall_mem_cons] at hc
    have hall' : cs = (before ++ [c]) ++ rest := by rw [hall, List.append_assoc]; rfl
    have hset : (t.refilled new).set key (.list (done ++ c :: rest)) =
        t.refilled (Course.new? now) := by
      rw [hdone]
      exact (refilled_eq_set ht hcs hsame).symm
    rw [replaceItems, hset, walkChild]
    split
    · rename_i hn
      have hspot : ∀ s ∈ spots ++ itemSpots key before, s.1 ≠ ⟨key, some done.length⟩ := by
        intro s hs he
        rcases List.mem_append.mp hs with hs | hs
        · exact hkey s hs (congrArg Spot.key he)
        · obtain ⟨i, hi, hs⟩ := of_mem_itemSpots hs
          rw [hs] at he
          have := Option.some.inj (congrArg Spot.index he)
          omega
      refine (hc.1 hn _ (some ⟨key, some done.length⟩)).bind ?_
      rintro _ _ ⟨d, hp, hd, rfl, rfl, hsound, rfl⟩
      have hnew : ∀ spot : Spot, spot ≠ ⟨key, some done.length⟩ →
          Course.new? (now ++ [d]) spot = Course.new? now spot := by
        intro spot hne
        rw [Course.new?_concat, hd, if_neg fun he => hne (Option.some.inj he).symm, Option.or_none]
      have hat : Course.new? (now ++ [d]) ⟨key, some done.length⟩ = some d.stored := by
        rw [Course.new?_concat, hnow.new?_eq_none hspot, hd, if_pos rfl, Option.none_or]
      have hnow' := hnow.concat hspot hd hp hsound
      have hdone' : (done ++ [d.stored]) ++ rest =
          cs.mapIdx fun i c => (Course.new? (now ++ [d]) ⟨key, some i⟩).getD c := by
        rw [List.append_assoc]
        apply append_eq_mapIdx hdone
        · intro u
          rw [hat, Option.getD_some]
        · intro i u hi
          rw [hnew]
          rintro ⟨⟩
          exact hi rfl
      refine (ih _ _ hc.2 hall' ?_ ?_ ?_ hdone').imp ?_
      · rw [itemSpots_concat, if_pos hn, ← hlen, ← List.append_assoc]
        exact hnow'
      · intro spot hne
        rw [hnew, hsame spot hne]
        rintro rfl
        exact hne rfl
      · rw [List.length_append, List.length_append, hlen]
        rfl
      · rintro us _ ⟨ds, rfl, hds, hus⟩
        rw [List.append_assoc] at hds hus
        exact ⟨d :: ds, rfl, hds, hus⟩
    · rename_i hn
      refine Logs.bind (.pure (P := fun u calls => u = c ∧ calls = []) ⟨rfl, rfl⟩) ?_
      rintro _ _ ⟨rfl, rfl⟩
      refine ih _ _ hc.2 hall' ?_ hsame ?_ ?_
      · rw [itemSpots_concat, if_neg hn, List.append_nil]
        exact hnow
      · rw [List.length_append, List.length_append, hlen]
      · rw [List.append_assoc]
        exact hdone

theorem logs_walkField {inside : List Course} (ht : (t.fields.map (·.1)).Nodup)
    (hkey : ∀ s ∈ spots, s.1.key ≠ key) (hP : Partway t spots inside)
    (hc : ∀ c ∈ t.childrenAt key, HasCourse enter leave fuel c) :
    Logs (walkField (enter.noting .enter) (leave.noting .leave) fuel
        (t.refilled (Course.new? inside)) key) fun v calls =>
      ∃ ds, calls = Course.callsOf ds ∧ Partway t (spots ++ t.spotsAt key) (inside ++ ds) ∧
        v = t.refilled (Course.new? (inside ++ ds)) := by
  have hnone : ∀ i, Course.new? inside ⟨key, i⟩ = none := by
    intro i
    apply hP.new?_eq_none
    intro s hs he
    exact hkey s hs (congrArg Spot.key he)
  have hfield : (t.refilled (Course.new? inside)).field? key = t.field? key := by
    have hid : (renewed fun i => Course.new? inside ⟨key, i⟩) = id := by
      funext c
      simp only [hnone, renewed_none, id]
    rw [field?_refilled, hid, Option.map_id, id]
  -- Nothing is walked in a field that holds no node.
  have hskip : t.spotsAt key = [] →
      Logs (σ := σ) (pure (t.refilled (Course.new? inside))) fun v calls =>
        ∃ ds, calls = Course.callsOf ds ∧ Partway t (spots ++ t.spotsAt key) (inside ++ ds) ∧
          v = t.refilled (Course.new? (inside ++ ds)) := by
    intro h
    refine .pure ⟨[], rfl, ?_, ?_⟩
    · rw [h, List.append_nil, List.append_nil]
      exact hP
    · rw [List.append_nil]
  rw [walkField, hfield]
  split
  · rename_i cs hcs
    have hspots : t.spotsAt key = itemSpots key cs := by rw [spotsAt, get, hcs]; rfl
    have hheld : t.childrenAt key = (Tree.list cs).heldNodes := by rw [childrenAt, get, hcs]; rfl
    have hitems := logs_replaceItems ht hcs hkey [] []
      (fun c hm hn => hc c (hheld ▸ mem_heldNodes_of_list.mpr ⟨hm, hn⟩)) rfl
      (by rw [itemSpots, List.zipIdx_nil, List.filterMap_nil, List.append_nil]; exact hP)
      (fun _ _ => rfl) rfl
      (by simp only [hnone, Option.getD_none]; exact (renewed_none (.list cs) |> Tree.list.inj).symm)
    refine hitems.bind fun us calls h => .pure ?_
    obtain ⟨ds, rfl, hds, hus⟩ := h
    exact ⟨ds, List.append_nil _, hspots ▸ hds, hus⟩
  · rename_i c hlist hcs
    have hget : t.get key = c := by rw [get, hcs]; rfl
    have hspots : t.spotsAt key = if c.isNode then [(⟨key, none⟩, c)] else [] := by
      rw [spotsAt, hget]
      cases c with
      | list cs => exact absurd rfl (hlist cs)
      | scalar a => rfl
      | object tag fs => rfl
    split
    · rename_i hn
      rw [walkChild, if_pos hn]
      have hchild : c ∈ t.childrenAt key := by
        rw [childrenAt, hget]
        exact self_mem_heldNodes hn
      have hspot : ∀ s ∈ spots, s.1 ≠ ⟨key, none⟩ := by
        intro s hs he
        exact hkey s hs (congrArg Spot.key he)
      refine (hc c hchild _ (some ⟨key, none⟩)).bind ?_
      rintro _ _ ⟨d, hp, hd, rfl, rfl, hsound, rfl⟩
      refine .pure ⟨[d], rfl, ?_, ?_⟩
      · rw [hspots, if_pos hn]
        exact hP.concat hspot hd hp hsound
      · have hat : Course.new? (inside ++ [d]) ⟨key, none⟩ = some d.stored := by
          rw [Course.new?_concat, hnone, hd, if_pos rfl, Option.none_or]
        have hother : ∀ spot : Spot, spot.key ≠ key →
            Course.new? (inside ++ [d]) spot = Course.new? inside spot := by
          intro spot hne
          rw [Course.new?_concat, hd, if_neg, Option.or_none]
          rintro ⟨⟩
          exact hne rfl
        rw [refilled_eq_set ht hcs hother]
        obtain ⟨tag, fs, hf⟩ := eq_object_of_isNode hn
        rw [hf, renewed, hat, Option.getD_some]
        rintro _ ⟨⟩
    · rename_i hn
      exact hskip (by rw [hspots, if_neg hn])
  · rename_i hcs
    exact hskip (by rw [spotsAt, get, hcs]; rfl)

theorem logs_walkFields {inside : List Course} (done : List String) {keys : List String}
    (ht : (t.fields.map (·.1)).Nodup) (hkeys : (done ++ keys).Nodup)
    (hP : Partway t (done.flatMap t.spotsAt) inside)
    (hc : ∀ key ∈ keys, ∀ c ∈ t.childrenAt key, HasCourse enter leave fuel c) :
    Logs (keys.foldlM (walkField (enter.noting .enter) (leave.noting .leave) fuel)
        (t.refilled (Course.new? inside))) fun v calls =>
      ∃ ds, calls = Course.callsOf ds ∧
        Partway t ((done ++ keys).flatMap t.spotsAt) (inside ++ ds) ∧
        v = t.refilled (Course.new? (inside ++ ds)) := by
  induction keys generalizing done inside with
  | nil =>
    refine .pure ⟨[], rfl, ?_, ?_⟩
    · rw [List.append_nil, List.append_nil]
      exact hP
    · rw [List.append_nil]
  | cons key keys ih =>
    rw [List.forall_mem_cons] at hc
    have hkey : ∀ s ∈ done.flatMap t.spotsAt, s.1.key ≠ key := by
      intro s hs
      obtain ⟨k, hk, hs⟩ := List.mem_flatMap.mp hs
      rw [key_of_mem_spotsAt hs]
      exact (List.nodup_append.mp hkeys).2.2 k hk key List.mem_cons_self
    rw [List.append_cons] at hkeys
    rw [List.foldlM_cons]
    refine (logs_walkField ht hkey hP hc.1).bind ?_
    rintro _ _ ⟨ds, rfl, hds, rfl⟩
    refine (ih _ hkeys ?_ hc.2).imp ?_
    · rw [List.flatMap_append, List.flatMap_singleton]
      exact hds
    · rintro _ _ ⟨es, rfl, hes, rfl⟩
      rw [List.append_assoc, List.append_assoc] at hes
      rw [List.append_assoc]
      exact ⟨ds ++ es, (Course.callsOf_append ds es).symm, hes, rfl⟩

theorem hasCourse (henter : ∀ t place s u, (enter t place s).1 = some u → u.distinct = true)
    (fuel : Nat) {t : Tree} (ht : t.distinct = true) : HasCourse enter leave fuel t := by
  induction fuel generalizing t with
  | zero => exact fun _ _ s a s' h => nomatch h
  | succ fuel ih =>
    intro parent spot
    rw [replace?_succ]
    refine (logs_run .enter enter t _).bind ?_
    rintro u _ ⟨s, hu, rfl⟩
    have hud : u.distinct = true := by
      rw [hu]
      cases he : (enter t ⟨parent, spot.map (·.key)⟩ s).1 with
      | none => exact ht
      | some v => exact henter _ _ _ v he
    have hfields : Logs (if u.isNode then u.childKeys.foldlM (walkField (enter.noting .enter)
        (leave.noting .leave) fuel) u else pure u) fun v calls => ∃ ds,
          calls = Course.callsOf ds ∧ Partway u (if u.isNode then u.spots else []) ds ∧
          v = u.refilled (Course.new? ds) := by
      have hself : u.refilled (Course.new? []) = u := refilled_none u
      split
      · rename_i hn
        have hnodup : (u.fields.map (·.1)).Nodup := by
          obtain ⟨tag, fs, rfl⟩ := eq_object_of_isNode hn
          exact (distinct_object.mp hud).1
        have hall := logs_walkFields [] hnodup (Fields.nodup_childKeys hnodup) (Partway.nil u)
          fun key hk c hm => ih (distinct_of_mem_children hud (mem_children.mpr ⟨key, hk, hm⟩))
        rwa [hself] at hall
      · exact .pure ⟨[], rfl, .nil u, hself.symm⟩
    refine hfields.bind ?_
    rintro v _ ⟨ds, rfl, hds, hv⟩
    refine (logs_run .leave leave v _).imp ?_
    rintro w _ ⟨s', hw, rfl⟩
    let d : Course := ⟨parent, spot, t, (enter t ⟨parent, spot.map (·.key)⟩ s).1, ds, v,
      (leave v ⟨parent, spot.map (·.key)⟩ s').1⟩
    have hplaced : d.placed = u := hu.symm
    refine ⟨d, rfl, rfl, rfl, hw.symm, ?_, rfl⟩
    apply Course.Sound.intro
    · rw [hplaced]
      exact hds.spots
    · exact hds.once
    · rw [hplaced]
      exact hds.parents
    · rw [hplaced]
      exact hv
    · exact hds.below

end

/-! ### Walks that replace nothing -/

def Reads {σ α : Type} (x : StateT (σ × List Call) Option α) (a : α) (visits : List Visit) : Prop :=
  ∀ s, ∃ s' calls, x s = some (a, s', s.2 ++ calls) ∧ calls.map Call.visit = visits

namespace Reads

variable {σ α β : Type}

theorem pure (a : α) : Reads (σ := σ) (Pure.pure a) a [] := by
  intro s
  exact ⟨s.1, [], by rw [List.append_nil]; rfl, rfl⟩

theorem bind {x : StateT (σ × List Call) Option α} {f : α → StateT (σ × List Call) Option β}
    {a : α} {b : β} {vs ws : List Visit} (hx : Reads x a vs) (hf : Reads (f a) b ws) :
    Reads (x >>= f) b (vs ++ ws) := by
  intro s
  obtain ⟨s₁, calls, hs₁, rfl⟩ := hx s
  obtain ⟨s₂, more, hs₂, rfl⟩ := hf (s₁, s.2 ++ calls)
  refine ⟨s₂, calls ++ more, ?_, List.map_append⟩
  rw [bind_of_eq_some hs₁, hs₂, List.append_assoc]

end Reads

section

variable {σ : Type} {enter leave : Replacer σ} {fuel : Nat}

theorem reads_run {f : Replacer σ} (hf : ∀ t place s, (f t place s).1 = none) (phase : Phase)
    (t : Tree) (place : Place) :
    Reads ((f.noting phase).run t place) t [⟨phase, t, place.parent⟩] := by
  intro s
  refine ⟨(f t place s.1).2, [⟨phase, t, place, none⟩], ?_, rfl⟩
  simp only [Replacer.run, Replacer.noting, hf, Option.getD_none]

def ReadsAll (enter leave : Replacer σ) (fuel : Nat) (t : Tree) : Prop :=
  ∀ place : Place, Reads (replace? (enter.noting .enter) (leave.noting .leave) fuel place t) t
    (t.visits place.parent)

theorem reads_replaceItems {t : Tree} {key : String} {cs done rest : List Tree}
    (hcs : t.field? key = some (.list cs)) (hall : done ++ rest = cs)
    (hc : ∀ c ∈ rest, c.isNode = true → ReadsAll enter leave fuel c) :
    Reads (replaceItems (fun all => walkChild (enter.noting .enter) (leave.noting .leave) fuel
        (t.set key (.list all)) key) done rest) cs
      ((rest.filter isNode).flatMap (visits (some t))) := by
  induction rest generalizing done with
  | nil =>
    rw [← hall, List.append_nil]
    exact .pure done
  | cons c rest ih =>
    rw [List.forall_mem_cons] at hc
    have hrest := ih ((List.append_cons done c rest).symm.trans hall) hc.2
    rw [replaceItems, hall, set_self hcs, walkChild, List.filter_cons]
    split
    · rename_i hn
      rw [List.flatMap_cons]
      exact (hc.1 hn ⟨some t, some key⟩).bind hrest
    · exact (Reads.pure c).bind hrest

theorem reads_walkField {t : Tree} {key : String}
    (hc : ∀ c ∈ t.childrenAt key, ReadsAll enter leave fuel c) :
    Reads (walkField (enter.noting .enter) (leave.noting .leave) fuel t key) t
      ((t.childrenAt key).flatMap (visits (some t))) := by
  rw [childrenAt, get] at hc ⊢
  rw [walkField]
  cases hv : t.field? key with
  | none => exact .pure t
  | some v =>
    rw [hv, Option.getD_some] at hc
    rw [Option.getD_some]
    cases v with
    | scalar a => exact .pure t
    | list cs =>
      have hitems := reads_replaceItems hv (List.nil_append cs) fun c hm hn =>
        hc c (mem_heldNodes_of_list.mpr ⟨hm, hn⟩)
      have hset := hitems.bind (f := fun us => pure (t.set key (.list us))) (.pure _)
      rwa [List.append_nil, set_self hv] at hset
    | object tag fs =>
      change Reads (if _ then _ else _) _ _
      split
      · rename_i hn
        rw [heldNodes_of_isNode hn] at hc ⊢
        rw [walkChild, if_pos hn]
        have hset := (hc _ (List.mem_singleton_self _) ⟨some t, some key⟩).bind
          (f := fun u => pure (t.set key u)) (.pure _)
        rw [set_self hv, List.append_nil] at hset
        rwa [List.flatMap_singleton]
      · rename_i hn
        rw [heldNodes, if_neg hn]
        exact .pure t

theorem readsAll (henter : ∀ t place s, (enter t place s).1 = none)
    (hleave : ∀ t place s, (leave t place s).1 = none) {t : Tree} (hn : t.isNode = true)
    (hfuel : sizeOf t < fuel) : ReadsAll enter leave fuel t := by
  induction fuel generalizing t with
  | zero => omega
  | succ fuel ih =>
    intro place
    obtain ⟨tag, fs, rfl⟩ := eq_object_of_isNode hn
    have hfields : ∀ keys : List String,
        Reads (keys.foldlM (walkField (enter.noting .enter) (leave.noting .leave) fuel)
            (object tag fs)) (object tag fs)
          (keys.flatMap fun key => fieldVisits (object tag fs) key fs) := by
      intro keys
      induction keys with
      | nil => exact .pure _
      | cons key keys ihk =>
        rw [List.foldlM_cons, List.flatMap_cons, fieldVisits_eq tag fs]
        refine (reads_walkField fun c hc => ih (isNode_of_mem_heldNodes hc) ?_).bind ihk
        have := sizeOf_lt_of_mem_childrenAt hc
        omega
    rw [replace?_succ, visits, List.cons_append, ← List.singleton_append]
    apply (reads_run henter .enter _ place).bind
    rw [if_pos hn]
    exact (hfields _).bind (reads_run hleave .leave _ place)

end

/-! ### The course of a walk -/

/-- A walk that replaces nothing calls as a reading walk does, and whatever is replaced, a walk that
comes to its end has a course. -/
theorem replace?_course {σ : Type} (enter leave : Replacer σ) (t : Tree) (place : Place) :
    ((∀ t place s, (enter t place s).1 = none) → (∀ t place s, (leave t place s).1 = none) →
      t.isNode = true → ∀ fuel s, sizeOf t < fuel → ∃ s' calls,
        replace? enter leave fuel place t s = some (t, s') ∧
        replace? (enter.noting .enter) (leave.noting .leave) fuel place t (s, []) =
          some (t, s', calls) ∧
        calls.map Call.visit = t.visits place.parent) ∧
    ((∀ t place s u, (enter t place s).1 = some u → u.distinct = true) → t.distinct = true →
      ∀ fuel s u s', replace? enter leave fuel place t s = some (u, s') → ∃ c : Course,
        c.place = place ∧ c.found = t ∧ c.Sound ∧ c.stored = u ∧
        replace? (enter.noting .enter) (leave.noting .leave) fuel place t (s, []) =
          some (u, s', c.calls)) := by
  have hplain : ∀ fuel s, replace? enter leave fuel place t s =
      (replace? (enter.noting .enter) (leave.noting .leave) fuel place t (s, [])).map
        fun r => (r.1, r.2.1) := fun fuel s =>
    replace?_projects (π := Prod.fst) (fun _ _ _ => rfl) (fun _ _ _ => rfl) fuel place t (s, [])
  constructor
  · intro henter hleave hn fuel s hfuel
    obtain ⟨s', calls, he, hcalls⟩ := readsAll henter hleave hn hfuel place (s, [])
    rw [List.nil_append] at he
    refine ⟨s', calls, ?_, he, hcalls⟩
    rw [hplain, he, Option.map_some]
  · intro henter ht fuel s u s' h
    rw [hplain] at h
    obtain ⟨⟨u', s₁, log⟩, he, hr⟩ := Option.map_eq_some_iff.mp h
    obtain ⟨rfl, rfl⟩ := Prod.mk.inj hr
    obtain ⟨parent, key⟩ := place
    have hkey : (key.map fun k => (⟨k, none⟩ : Spot)).map (·.key) = key := by cases key <;> rfl
    have hcourse : HasCourse enter leave fuel t := hasCourse henter fuel ht
    obtain ⟨calls, hlog, c, rfl, hspot, hfound, hstored, hsound, rfl⟩ :=
      hcourse parent (key.map (⟨·, none⟩)) (s, []) u' (s₁, log) (by rw [hkey]; exact he)
    refine ⟨c, ?_, hfound, hsound, hstored, ?_⟩
    · rw [Course.place, hspot, hkey]
    · rw [he, ← List.nil_append c.calls, ← hlog]

def mixture (first second : Tree) : Tree :=
  .object 0 [("type", text "Mixture"), ("parts", .list [first, null, text "b", second]), ("rest", null)]

def ingredient (name : String) : Tree :=
  .object 0 [("type", text "Identifier"), ("name", text name)]

def mixing : Replacer Nat := fun t _ n =>
  (if t.name == "a" then some (mixture (ingredient "b") null) else none, n + 1)

def spelling : Replacer Nat := fun t _ n =>
  (if t.name == "b" then some (text "b") else none, n + 1)

theorem replace?_course_mixture :
    (∃ (s' : Nat) (calls : List Call), replace?
        (Replacer.noting .enter fun _ _ n => (none, n + 1))
        (Replacer.noting .leave fun _ _ n => (none, n + 1))
        (sizeOf (mixture (ingredient "a") (ingredient "c")) + 1) ⟨none, none⟩
        (mixture (ingredient "a") (ingredient "c")) (0, []) =
          some (mixture (ingredient "a") (ingredient "c"), s', calls) ∧
      calls.map Call.visit = (mixture (ingredient "a") (ingredient "c")).traverse) ∧
    ∃ c : Course, c.found = mixture (ingredient "a") (ingredient "c") ∧ c.Sound ∧
      c.stored = mixture (mixture (text "b") null) (ingredient "c") := by
  have hend : replace? mixing spelling 4 ⟨none, none⟩ (mixture (ingredient "a") (ingredient "c")) 0 =
      some (mixture (mixture (text "b") null) (ingredient "c"), 8) := by
    rfl
  have hmixing : ∀ t place s u, (mixing t place s).1 = some u → u.distinct = true := by
    intro t place s u h
    rw [mixing] at h
    split at h
    · cases h
      decide
    · cases h
  constructor
  · obtain ⟨s', calls, -, h, hcalls⟩ := (replace?_course (fun _ _ n => (none, n + 1))
      (fun _ _ n => (none, n + 1)) (mixture (ingredient "a") (ingredient "c")) ⟨none, none⟩).1
      (fun _ _ _ => rfl) (fun _ _ _ => rfl) rfl _ 0 (Nat.lt_succ_self _)
    exact ⟨s', calls, h, hcalls⟩
  · obtain ⟨c, -, hfound, hsound, hstored, -⟩ := (replace?_course mixing spelling
      (mixture (ingredient "a") (ingredient "c")) ⟨none, none⟩).2 hmixing (by decide) 4 0 _ _ hend
    exact ⟨c, hfound, hsound, hstored⟩

end Tree

end Legible
