import Legible.Pattern.Vocabulary
import Legible.Proofs.Pattern.Instance
import Mathlib.Data.List.TakeWhile

namespace Legible

namespace Captures

def Extends (c d : Captures) : Prop :=
  ∀ x u, c.lookup x = some u → d.lookup x = some u

def assignment (c : Captures) : Assignment :=
  fun x => (c.lookup x).getD .null

theorem Extends.refl (c : Captures) : c.Extends c :=
  fun _ _ h => h

theorem Extends.trans {c d e : Captures} (h : c.Extends d) (h' : d.Extends e) : c.Extends e :=
  fun x u hx => h' x u (h x u hx)

theorem Extends.assignment_eq {c d : Captures} (h : c.Extends d) {x : String} {u : Tree}
    (hx : c.lookup x = some u) : d.assignment x = u := by
  rw [assignment, h x u hx, Option.getD_some]

theorem lookup_concat (c : Captures) (x y : String) (t : Tree) :
    (c ++ [(x, t)]).lookup y = (c.lookup y).or (if y = x then some t else none) := by
  rw [List.lookup_append, List.lookup_cons, List.lookup_nil]
  by_cases h : y = x
  · simp [h]
  · simp [h, beq_false_of_ne h]

end Captures

/-- An assignment gives every captured name a tree that equals the captured one. -/
def Assignment.Agrees (s : Assignment) (c : Captures) : Prop :=
  ∀ x u, c.lookup x = some u → u.same (s x) = true

structure Outcome (names : List String) (p : Assignment → Prop) (c d : Captures) : Prop where
  extend : c.Extends d
  bound : ∀ x, (d.lookup x).isSome = true ↔ (c.lookup x).isSome = true ∨ x ∈ names
  holds : ∀ e, d.Extends e → p e.assignment

namespace Outcome

variable {m n : List String} {p q : Assignment → Prop} {c d e : Captures}

theorem refl (h : ∀ s, p s) : Outcome [] p c c :=
  ⟨.refl c, fun x => by simp, fun e _ => h e.assignment⟩

theorem trans (h : Outcome m p c d) (h' : Outcome n q d e) :
    Outcome (m ++ n) (fun s => p s ∧ q s) c e where
  extend := h.extend.trans h'.extend
  bound x := by rw [h'.bound, h.bound, List.mem_append, or_assoc]
  holds f hf := ⟨h.holds f (h'.extend.trans hf), h'.holds f hf⟩

theorem mono (h : Outcome m p c d) (hpq : ∀ s, p s → q s) : Outcome m q c d :=
  ⟨h.extend, h.bound, fun e he => hpq _ (h.holds e he)⟩

end Outcome

namespace Captures

theorem bind_outcome {c d : Captures} {x : String} {t : Tree} (ht : t.distinct = true)
    (h : c.bind x t = some d) : Outcome [x] (fun s => (s x).same t = true) c d := by
  unfold bind at h
  cases hx : c.lookup x with
  | some u =>
    simp only [hx] at h
    split at h
    · rename_i hu
      obtain rfl := Option.some.inj h
      refine ⟨.refl c, fun y => ?_, fun e he => ?_⟩
      · rw [List.mem_singleton]
        exact ⟨Or.inl, fun hy => hy.elim id (fun hy => by rw [hy, hx]; rfl)⟩
      · rw [he.assignment_eq hx]
        exact hu
    · cases h
  | none =>
    simp only [hx] at h
    obtain rfl := Option.some.inj h
    have hd : (c ++ [(x, t)]).lookup x = some t := by rw [lookup_concat, hx]; simp
    refine ⟨fun y u hy => ?_, fun y => ?_, fun e he => ?_⟩
    · rw [lookup_concat, hy, Option.some_or]
    · rw [lookup_concat, Option.isSome_or, Bool.or_eq_true, List.mem_singleton]
      by_cases hy : y = x <;> simp [hy]
    · rw [he.assignment_eq hd]
      exact Tree.same_refl ht

theorem bind_complete {s : Assignment} {c : Captures} {x : String} {t : Tree}
    (ht : t.distinct = true) (hc : s.Agrees c) (h : (s x).same t = true) :
    ∃ d, c.bind x t = some d ∧ s.Agrees d := by
  unfold bind
  cases hx : c.lookup x with
  | some u => exact ⟨c, if_pos (Tree.same_trans ht (hc x u hx) h), hc⟩
  | none =>
    refine ⟨_, rfl, fun y u hy => ?_⟩
    rw [lookup_concat] at hy
    by_cases hyx : y = x
    · subst hyx
      rw [hx, Option.none_or, if_pos rfl] at hy
      obtain rfl := Option.some.inj hy
      exact Tree.same_symm ht h
    · rw [if_neg hyx, Option.or_none] at hy
      exact hc y u hy

end Captures

namespace Pattern

theorem exists_run (h : Placeholder) (ts : List Tree) (n : Nat) :
    ∃ run rest, (ts.take n).takeWhile h.accepts = run ∧ ts = run ++ rest ∧
      ts.drop run.length = rest ∧ ∀ t ∈ run, h.accepts t = true := by
  generalize hrun : (ts.take n).takeWhile h.accepts = run
  have hpre : run <+: ts := hrun ▸ (List.takeWhile_prefix h.accepts).trans (List.take_prefix n ts)
  obtain ⟨rest, rfl⟩ := hpre
  exact ⟨run, rest, rfl, rfl, List.drop_left, fun t ht => List.mem_takeWhile_imp (hrun ▸ ht)⟩

theorem matchItems_outcome {ps : List Pattern}
    (ih : ∀ p ∈ ps, ∀ t c d, t.distinct = true → p.match? t c = some d →
      Outcome p.names (Instance · p t) c d)
    {ts : List Tree} {c d : Captures} (ht : ∀ t ∈ ts, t.distinct = true)
    (hm : matchItems ps ts c = some d) : Outcome (namesItems ps) (InstanceItems · ps ts) c d := by
  induction ps generalizing ts c with
  | nil =>
    simp only [matchItems] at hm
    split at hm
    · rename_i he
      obtain rfl := List.isEmpty_iff.mp he
      obtain rfl := Option.some.inj hm
      exact .refl fun _ => .nil
    · cases hm
  | cons p ps ihs =>
    rw [List.forall_mem_cons] at ih
    cases hp : p.run? with
    | some h =>
      simp only [matchItems, hp] at hm
      obtain ⟨run, rest, hrun, rfl, hdrop, hacc⟩ :=
        exists_run h ts (ts.length - minimumLength ps)
      rw [hrun, hdrop] at hm
      split at hm
      · cases hm
      · rename_i hne
        obtain ⟨e, hb, hs⟩ := Option.bind_eq_some_iff.mp hm
        rw [List.forall_mem_append] at ht
        have hfirst := Captures.bind_outcome (Tree.distinct_list.mpr ht.1) hb
        have hn : p.names = [h.name] := by rw [eq_hole_of_run? hp]; rfl
        rw [namesItems, hn]
        refine (hfirst.trans (ihs ih.2 ht.2 hs)).mono fun s hs => ?_
        refine .run hp hacc (fun he => ?_) hs.1 hs.2
        simpa [he] using hne
    | none =>
      simp only [matchItems, hp] at hm
      cases ts with
      | nil => cases hm
      | cons t ts =>
        obtain ⟨e, hb, hs⟩ := Option.bind_eq_some_iff.mp hm
        rw [List.forall_mem_cons] at ht
        exact ((ih.1 t c e ht.1 hb).trans (ihs ih.2 ht.2 hs)).mono fun s hs => .one hp hs.1 hs.2

theorem matchFields_outcome {fs : List (String × Pattern)}
    (ih : ∀ f ∈ fs, ∀ t c d, t.distinct = true → f.2.match? t c = some d →
      Outcome f.2.names (Instance · f.2 t) c d)
    {t : Tree} {c d : Captures} (ht : ∀ k, (t.get k).distinct = true)
    (hm : matchFields fs t c = some d) :
    Outcome (namesFields fs)
      (fun s => ∀ f ∈ fs, isIgnored f.1 = false → Instance s f.2 (t.get f.1)) c d := by
  induction fs generalizing c with
  | nil =>
    obtain rfl := Option.some.inj hm
    exact .refl fun s => by simp
  | cons f fs ihs =>
    obtain ⟨k, p⟩ := f
    rw [List.forall_mem_cons] at ih
    simp only [matchFields] at hm
    rw [namesFields]
    cases hk : isIgnored k with
    | true =>
      rw [hk, if_pos rfl] at hm
      rw [if_pos rfl, List.nil_append]
      exact (ihs ih.2 hm).mono fun s hs => List.forall_mem_cons.mpr ⟨by simp [hk], hs⟩
    | false =>
      rw [hk, if_neg Bool.false_ne_true] at hm
      rw [if_neg Bool.false_ne_true]
      obtain ⟨e, hb, hs⟩ := Option.bind_eq_some_iff.mp hm
      exact ((ih.1 _ c e (ht k) hb).trans (ihs ih.2 hs)).mono fun s hs =>
        List.forall_mem_cons.mpr ⟨fun _ => hs.1, hs.2⟩

theorem match?_outcome {p : Pattern} {t : Tree} {c d : Captures} (ht : t.distinct = true)
    (hm : p.match? t c = some d) : Outcome p.names (Instance · p t) c d := by
  induction p generalizing t c d with
  | hole h =>
    simp only [match?] at hm
    split at hm
    · rename_i ha
      exact (Captures.bind_outcome ht hm).mono fun s hs => .hole ha hs
    · cases hm
  | scalar a =>
    simp only [match?] at hm
    split at hm
    · rename_i ha
      obtain rfl := Option.some.inj hm
      exact .refl fun _ => .scalar ha
    · cases hm
  | list ps ih =>
    cases t with
    | list ts =>
      simp only [match?] at hm
      exact (matchItems_outcome (fun p hp t c d => ih p hp) (Tree.distinct_list.mp ht) hm).mono
        fun s hs => .list hs
    | scalar a => simp [match?] at hm
    | object tag gs => simp [match?] at hm
  | object fs ih =>
    cases t with
    | object tag gs =>
      simp only [match?] at hm
      exact (matchFields_outcome (fun f hf t c d => ih f hf) (Tree.distinct_get ht) hm).mono
        fun s hs => .object hs
    | scalar a => simp [match?] at hm
    | list ts => simp [match?] at hm

theorem matchItems_complete {s : Assignment} {ps : List Pattern}
    (ih : ∀ p ∈ ps, ∀ t c, t.distinct = true → s.Agrees c → Instance s p t →
      ∃ d, p.match? t c = some d ∧ s.Agrees d)
    (hr : (ps.filterMap run?).length ≤ 1) {ts : List Tree} {c : Captures}
    (ht : ∀ t ∈ ts, t.distinct = true) (hc : s.Agrees c) (hi : InstanceItems s ps ts) :
    ∃ d, matchItems ps ts c = some d ∧ s.Agrees d := by
  induction ps generalizing ts c with
  | nil =>
    cases hi
    exact ⟨c, rfl, hc⟩
  | cons p ps ihs =>
    rw [List.forall_mem_cons] at ih
    cases hi with
    | @one _ _ t ts hn hp hs =>
      rw [List.forall_mem_cons] at ht
      rw [List.filterMap_cons_none hn] at hr
      obtain ⟨d, hd, hc⟩ := ih.1 t c ht.1 hc hp
      obtain ⟨e, he, hc⟩ := ihs ih.2 hr ht.2 hc hs
      exact ⟨e, by simp only [matchItems, hn, hd, Option.bind_some, he], hc⟩
    | @run _ h _ run ts hp hacc hopt hsame hs =>
      rw [List.forall_mem_append] at ht
      rw [List.filterMap_cons_some hp, List.length_cons] at hr
      have hps : ps.filterMap run? = [] := List.eq_nil_of_length_eq_zero (by omega)
      -- The items behind the run are as many as the patterns, so the run ends where it has to.
      have htake : (run ++ ts).take ((run ++ ts).length - minimumLength ps) = run := by
        rw [minimumLength_eq hps, ← hs.length_eq hps, List.length_append, Nat.add_sub_cancel,
          List.take_left]
      have hwhile : run.takeWhile h.accepts = run := List.takeWhile_eq_self_iff.mpr hacc
      obtain ⟨d, hd, hc⟩ := Captures.bind_complete (Tree.distinct_list.mpr ht.1) hc hsame
      obtain ⟨e, he, hc⟩ := ihs ih.2 (by omega) ht.2 hc hs
      refine ⟨e, ?_, hc⟩
      simp only [matchItems, hp, htake, hwhile, List.drop_left, hd, Option.bind_some, he]
      refine if_neg ?_
      rw [Bool.and_eq_true, List.isEmpty_iff, Bool.not_eq_true']
      exact fun ⟨hn, ho⟩ => Bool.false_ne_true (ho.symm.trans (hopt hn))

theorem matchFields_complete {s : Assignment} {fs : List (String × Pattern)} {t : Tree}
    (ih : ∀ f ∈ fs, ∀ t c, t.distinct = true → s.Agrees c → Instance s f.2 t →
      ∃ d, f.2.match? t c = some d ∧ s.Agrees d)
    {c : Captures} (ht : ∀ k, (t.get k).distinct = true) (hc : s.Agrees c)
    (hi : ∀ f ∈ fs, isIgnored f.1 = false → Instance s f.2 (t.get f.1)) :
    ∃ d, matchFields fs t c = some d ∧ s.Agrees d := by
  induction fs generalizing c with
  | nil => exact ⟨c, rfl, hc⟩
  | cons f fs ihs =>
    obtain ⟨k, p⟩ := f
    rw [List.forall_mem_cons] at ih hi
    simp only [matchFields]
    cases hk : isIgnored k with
    | true => exact ihs ih.2 hc hi.2
    | false =>
      obtain ⟨d, hd, hc⟩ := ih.1 _ c (ht k) hc (hi.1 hk)
      obtain ⟨e, he, hc⟩ := ihs ih.2 hc hi.2
      exact ⟨e, by rw [if_neg Bool.false_ne_true, hd, Option.bind_some, he], hc⟩

theorem match?_complete {s : Assignment} {p : Pattern} (hp : p.singleRun = true) {t : Tree}
    {c : Captures} (ht : t.distinct = true) (hc : s.Agrees c) (hi : Instance s p t) :
    ∃ d, p.match? t c = some d ∧ s.Agrees d := by
  induction p generalizing t c with
  | hole h =>
    cases hi with
    | hole ha hs =>
      obtain ⟨d, hd, hc⟩ := Captures.bind_complete ht hc hs
      exact ⟨d, by rw [match?, if_pos ha, hd], hc⟩
  | scalar a =>
    cases hi with
    | scalar ha => exact ⟨c, by rw [match?, if_pos ha], hc⟩
  | list ps ih =>
    cases hi with
    | list hs =>
      obtain ⟨hr, hp⟩ := singleRun_list.mp hp
      obtain ⟨d, hd, hc⟩ := matchItems_complete (fun p hm t c => ih p hm (hp p hm)) hr
        (Tree.distinct_list.mp ht) hc hs
      exact ⟨d, by rw [match?, hd], hc⟩
  | object fs ih =>
    cases hi with
    | object hs =>
      rw [singleRun, singleRunFields_iff] at hp
      obtain ⟨d, hd, hc⟩ := matchFields_complete (fun f hm t c => ih f hm (hp f hm))
        (Tree.distinct_get ht) hc hs
      exact ⟨d, by rw [match?, hd], hc⟩

/-- A tree matches a pattern, given some captures, iff an assignment that agrees with the captures
makes it an instance. The captures then grow by the names of the pattern, they stand for such an
assignment, and all others agree with them. -/
theorem match?_decides_instance (p : Pattern) (t : Tree) (c : Captures)
    (hp : p.singleRun = true) (ht : t.distinct = true) (hc : ∀ f ∈ c, f.2.distinct = true) :
    ((p.match? t c).isSome = true ↔ ∃ s : Assignment, s.Agrees c ∧ Instance s p t) ∧
      ∀ d, p.match? t c = some d →
        (∀ x u, c.lookup x = some u → d.lookup x = some u) ∧
        (∀ x, (d.lookup x).isSome = true ↔ (c.lookup x).isSome = true ∨ x ∈ p.names) ∧
        Instance d.assignment p t ∧
        ∀ s : Assignment, s.Agrees c → Instance s p t → s.Agrees d := by
  refine ⟨⟨fun h => ?_, fun ⟨s, hs, hi⟩ => ?_⟩, fun d hd => ?_⟩
  · obtain ⟨d, hd⟩ := Option.isSome_iff_exists.mp h
    have ho := match?_outcome ht hd
    refine ⟨d.assignment, fun x u hx => ?_, ho.holds d (.refl d)⟩
    rw [ho.extend.assignment_eq hx]
    exact Tree.same_refl (hc _ (Fields.mem_of_lookup hx))
  · obtain ⟨d, hd, -⟩ := match?_complete hp ht hs hi
    rw [hd]
    rfl
  · have ho := match?_outcome ht hd
    refine ⟨ho.extend, ho.bound, ho.holds d (.refl d), fun s hs hi => ?_⟩
    obtain ⟨e, he, hse⟩ := match?_complete hp ht hs hi
    obtain rfl := Option.some.inj (hd.symm.trans he)
    exact hse

theorem match?_decides_self_application :
    let p := Form.callExpression (anyExpression "expression1")
      [expressions "expression2", anyExpression "expression1"]
    let t : Tree := Form.callExpression (Form.identifier "f")
      [Form.identifier "a", Form.identifier "b", Form.identifier "f"]
    let c : Captures := [("expression2", .list [Form.identifier "a", Form.identifier "b"])]
    (p.singleRun = true ∧ t.distinct = true ∧ ∀ f ∈ c, f.2.distinct = true) ∧
      ∃ s : Assignment, s.Agrees c ∧ Instance s p t := by
  refine ⟨by decide, ?_⟩
  exact (match?_decides_instance _ _ _ (by decide) (by decide)
    (by decide)).1.mp (by decide)

end Pattern

end Legible
