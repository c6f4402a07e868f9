import Legible.Proofs.Pattern.Instance
import Legible.Pattern.Fill
import Mathlib.Data.List.Nodup

namespace Legible

namespace Pattern

def runFrom (h : Placeholder) (ps : List Pattern) (ts : List Tree) : List Tree :=
  (ts.take (ts.length - minimumLength ps)).takeWhile h.accepts

mutual

def fits : Pattern → Tree → Bool
  | .hole h, t => h.accepts t
  | .scalar a, t => (Tree.scalar a).same t
  | .list ps, .list ts => fitsItems ps ts
  | .list _, _ => false
  | .object fs, .object tag gs => fitsFields fs (.object tag gs)
  | .object _, _ => false
termination_by structural p => p

def fitsItems : List Pattern → List Tree → Bool
  | [], ts => ts.isEmpty
  | p :: ps, ts =>
    match p.run? with
    | some h =>
      (!(runFrom h ps ts).isEmpty || h.optional) && fitsItems ps (ts.drop (runFrom h ps ts).length)
    | none =>
      match ts with
      | [] => false
      | t :: ts => p.fits t && fitsItems ps ts
termination_by structural ps => ps

def fitsFields : List (String × Pattern) → Tree → Bool
  | [], _ => true
  | (k, p) :: fs, t => (isIgnored k || p.fits (t.get k)) && fitsFields fs t
termination_by structural fs => fs

end

mutual

def captured : Pattern → Tree → Captures
  | .hole h, t => [(h.name, t)]
  | .scalar _, _ => []
  | .list ps, t => capturedItems ps t.items
  | .object fs, t => capturedFields fs t
termination_by structural p => p

def capturedItems : List Pattern → List Tree → Captures
  | [], _ => []
  | p :: ps, ts =>
    match p.run? with
    | some h =>
      (h.name, .list (runFrom h ps ts)) :: capturedItems ps (ts.drop (runFrom h ps ts).length)
    | none => p.captured (ts.headD .null) ++ capturedItems ps ts.tail
termination_by structural ps => ps

def capturedFields : List (String × Pattern) → Tree → Captures
  | [], _ => []
  | (k, p) :: fs, t => (if isIgnored k then [] else p.captured (t.get k)) ++ capturedFields fs t
termination_by structural fs => fs

end

theorem names_capturedItems {ps : List Pattern} (ih : ∀ p ∈ ps, ∀ t, (p.captured t).map (·.1) = p.names)
    (ts : List Tree) : (capturedItems ps ts).map (·.1) = namesItems ps := by
  induction ps generalizing ts with
  | nil => rfl
  | cons p ps ihs =>
    rw [List.forall_mem_cons] at ih
    rw [capturedItems, namesItems]
    split
    · rename_i h hp
      rw [eq_hole_of_run? hp, List.map_cons, ihs ih.2]
      rfl
    · rw [List.map_append, ih.1, ihs ih.2]

theorem names_captured (p : Pattern) (t : Tree) : (p.captured t).map (·.1) = p.names := by
  induction p generalizing t with
  | hole h => rfl
  | scalar a => rfl
  | list ps ih => exact names_capturedItems ih _
  | object fs ih =>
    rw [captured, names]
    induction fs with
    | nil => rfl
    | cons f fs ihs =>
      obtain ⟨k, p⟩ := f
      rw [List.forall_mem_cons] at ih
      rw [capturedFields, namesFields, List.map_append, ihs ih.2]
      split
      · rfl
      · rw [ih.1]

def Apart (names : List String) (c : Captures) : Prop :=
  ∀ n ∈ names, n ∉ c.map (·.1)

section

variable {m n : List String} {c d : Captures}

theorem Apart.left (h : Apart (m ++ n) c) : Apart m c :=
  fun x hx => h x (List.mem_append_left n hx)

theorem Apart.right (h : Apart (m ++ n) c) (hn : (m ++ n).Nodup) (hd : d.map (·.1) = m) :
    Apart n (c ++ d) := by
  intro x hx
  rw [List.map_append, List.mem_append, hd, not_or]
  exact ⟨h x (List.mem_append_right m hx), fun hm => (List.nodup_append.mp hn).2.2 x hm x hx rfl⟩

theorem bind_of_apart {name : String} (h : Apart [name] c) (t : Tree) :
    c.bind name t = some (c ++ [(name, t)]) := by
  have hn : c.lookup name = none := by
    rw [List.lookup_eq_none_iff]
    intro e he
    rw [bne_iff_ne]
    rintro rfl
    exact h _ (List.mem_singleton_self _) (List.mem_map_of_mem he)
  rw [Captures.bind, hn]

end

theorem bind_some_append {a b : Bool} {c x y : Captures} {f : Captures → Option Captures}
    (hf : f (c ++ x) = if b = true then some (c ++ x ++ y) else none) :
    (if a = true then some (c ++ x) else none).bind f =
      if (a && b) = true then some (c ++ (x ++ y)) else none := by
  cases a <;> cases b <;> simp_all

theorem matchItems_eq {ps : List Pattern} (ih : ∀ p ∈ ps, p.names.Nodup → ∀ t c, Apart p.names c →
      p.match? t c = if p.fits t = true then some (c ++ p.captured t) else none)
    (hn : (namesItems ps).Nodup) (ts : List Tree) {c : Captures} (hc : Apart (namesItems ps) c) :
    matchItems ps ts c = if fitsItems ps ts = true then some (c ++ capturedItems ps ts) else none := by
  induction ps generalizing ts c with
  | nil => simp [matchItems, fitsItems, capturedItems]
  | cons p ps ihs =>
    rw [List.forall_mem_cons] at ih
    rw [namesItems] at hn hc
    have hps := fun ts (d : Captures) (hd : d.map (·.1) = p.names) =>
      ihs ih.2 (List.nodup_append.mp hn).2.1 ts (hc.right hn hd)
    cases hp : p.run? with
    | some h =>
      have hnames : p.names = [h.name] := by rw [eq_hole_of_run? hp]; rfl
      have hrest := hps (ts.drop (runFrom h ps ts).length) [(h.name, .list (runFrom h ps ts))]
        hnames.symm
      have hrun : (ts.take (ts.length - minimumLength ps)).takeWhile h.accepts = runFrom h ps ts := rfl
      simp only [matchItems, fitsItems, capturedItems, hp, hrun]
      rw [bind_of_apart (hnames ▸ hc.left), Option.bind_some, hrest]
      cases (runFrom h ps ts).isEmpty <;> cases h.optional <;> simp
    | none =>
      cases ts with
      | nil => simp [matchItems, fitsItems, hp]
      | cons t ts =>
        simp only [matchItems, fitsItems, capturedItems, hp, List.headD_cons, List.tail_cons]
        rw [ih.1 (List.nodup_append.mp hn).1 t c hc.left]
        exact bind_some_append (hps ts _ (names_captured p t))

theorem matchFields_eq {fs : List (String × Pattern)} (ih : ∀ f ∈ fs, f.2.names.Nodup → ∀ t c,
      Apart f.2.names c →
        f.2.match? t c = if f.2.fits t = true then some (c ++ f.2.captured t) else none)
    (hn : (namesFields fs).Nodup) (t : Tree) {c : Captures} (hc : Apart (namesFields fs) c) :
    matchFields fs t c =
      if fitsFields fs t = true then some (c ++ capturedFields fs t) else none := by
  induction fs generalizing c with
  | nil => simp [matchFields, fitsFields, capturedFields]
  | cons f fs ihs =>
    obtain ⟨k, p⟩ := f
    rw [List.forall_mem_cons] at ih
    rw [namesFields] at hn hc
    rw [matchFields, fitsFields, capturedFields]
    by_cases hk : isIgnored k = true
    · simp only [hk, if_true, List.nil_append, Bool.true_or, Bool.true_and] at hn hc ⊢
      exact ihs ih.2 hn hc
    · simp only [hk, Bool.false_eq_true, if_false, Bool.false_or] at hn hc ⊢
      rw [ih.1 (List.nodup_append.mp hn).1 _ c hc.left]
      exact bind_some_append
        (ihs ih.2 (List.nodup_append.mp hn).2.1 (hc.right hn (names_captured p _)))

theorem match?_eq {p : Pattern} (hn : p.names.Nodup) (t : Tree) {c : Captures}
    (hc : Apart p.names c) :
    p.match? t c = if p.fits t = true then some (c ++ p.captured t) else none := by
  induction p generalizing t c with
  | hole h =>
    rw [match?, fits, captured, bind_of_apart hc]
  | scalar a => simp [match?, fits, captured]
  | list ps ih =>
    cases t with
    | list ts =>
      rw [match?, fits, captured]
      exact matchItems_eq (fun p hp hn t c hc => ih p hp hn t hc) hn ts hc
    | scalar a => rfl
    | object tag gs => rfl
  | object fs ih =>
    cases t with
    | object tag gs =>
      rw [match?, fits, captured]
      exact matchFields_eq (fun f hf hn t c hc => ih f hf hn t hc) hn _ hc
    | scalar a => rfl
    | list ts => rfl

theorem matches?_eq {p : Pattern} (hn : p.names.Nodup) (t : Tree) :
    p.matches? t = if p.fits t = true then some (p.captured t) else none :=
  match?_eq hn t fun _ _ => List.not_mem_nil

/-! ### Shapes of all patterns -/

theorem fitsItems_of_matchItems {ps : List Pattern}
    (ih : ∀ p ∈ ps, ∀ t c d, p.match? t c = some d → p.fits t = true) {ts : List Tree}
    {c d : Captures} (h : matchItems ps ts c = some d) : fitsItems ps ts = true := by
  induction ps generalizing ts c with
  | nil =>
    rw [matchItems] at h
    split at h
    · assumption
    · cases h
  | cons p ps ihs =>
    rw [List.forall_mem_cons] at ih
    cases hp : p.run? with
    | some g =>
      have hrun : (ts.take (ts.length - minimumLength ps)).takeWhile g.accepts = runFrom g ps ts := rfl
      simp only [matchItems, hp, hrun] at h
      simp only [fitsItems, hp]
      split at h
      · cases h
      · rename_i hr
        obtain ⟨e, -, h⟩ := Option.bind_eq_some_iff.mp h
        rw [Bool.and_eq_true, ihs ih.2 h]
        revert hr
        cases (runFrom g ps ts).isEmpty <;> simp
    | none =>
      cases ts with
      | nil => simp [matchItems, hp] at h
      | cons t ts =>
        simp only [matchItems, hp] at h
        simp only [fitsItems, hp]
        obtain ⟨e, he, h⟩ := Option.bind_eq_some_iff.mp h
        rw [Bool.and_eq_true]
        exact ⟨ih.1 t c e he, ihs ih.2 h⟩

theorem fits_of_match? {p : Pattern} {t : Tree} {c d : Captures} (h : p.match? t c = some d) :
    p.fits t = true := by
  induction p generalizing t c d with
  | hole g =>
    rw [match?] at h
    split at h
    · assumption
    · cases h
  | scalar a =>
    rw [match?] at h
    split at h
    · assumption
    · cases h
  | list ps ih =>
    cases t with
    | list ts => exact fitsItems_of_matchItems (fun p hp t c d => ih p hp) h
    | scalar a => cases h
    | object tag gs => cases h
  | object fs ih =>
    cases t with
    | scalar a => cases h
    | list ts => cases h
    | object tag gs =>
      rw [match?] at h
      rw [fits]
      induction fs generalizing c with
      | nil => rfl
      | cons f fs ihs =>
        obtain ⟨k, p⟩ := f
        rw [List.forall_mem_cons] at ih
        rw [matchFields] at h
        rw [fitsFields]
        split at h
        · rename_i hk
          rw [hk, Bool.true_or, Bool.true_and]
          exact ihs ih.2 h
        · obtain ⟨e, he, h⟩ := Option.bind_eq_some_iff.mp h
          rw [ih.1 he, ihs ih.2 h, Bool.or_true, Bool.true_and]

theorem fits_of_matches? {p : Pattern} {t : Tree} {c : Captures} (h : p.matches? t = some c) :
    p.fits t = true :=
  fits_of_match? h

theorem fitsFields_iff {fs : List (String × Pattern)} {t : Tree} :
    fitsFields fs t = true ↔
      ∀ f ∈ fs, isIgnored f.1 = false → f.2.fits (t.get f.1) = true := by
  induction fs with
  | nil => simp [fitsFields]
  | cons f fs ih =>
    obtain ⟨k, p⟩ := f
    rw [fitsFields, Bool.and_eq_true, ih, List.forall_mem_cons]
    refine and_congr_left' ?_
    cases isIgnored k <;> simp

theorem fits_object_iff {fs : List (String × Pattern)} {t : Tree} :
    (object fs).fits t = true ↔ (∃ tag gs, t = .object tag gs) ∧
      ∀ f ∈ fs, isIgnored f.1 = false → f.2.fits (t.get f.1) = true := by
  cases t with
  | scalar a => simp [fits]
  | list ts => simp [fits]
  | object tag gs => simp [fits, fitsFields_iff]

theorem fits_get (key : String) {p q : Pattern} (hq : p.field? key = some q)
    (hi : isIgnored key = false) {t : Tree} (h : p.fits t = true) : q.fits (t.get key) = true := by
  cases p with
  | object fs =>
    rw [field?] at hq
    obtain ⟨l, r, rfl, -⟩ := List.lookup_eq_some_iff.mp hq
    exact (fits_object_iff.mp h).2 (key, q) (List.mem_append_right _ List.mem_cons_self) hi
  | hole _ => cases hq
  | scalar _ => cases hq
  | list _ => cases hq

theorem fits_cons {p : Pattern} (hp : p.run? = none) {ps : List Pattern} {t : Tree}
    (h : (list (p :: ps)).fits t = true) :
    ∃ a ts, t = .list (a :: ts) ∧ p.fits a = true ∧ (list ps).fits (.list ts) = true := by
  cases t with
  | scalar a => cases h
  | object tag fs => cases h
  | list ts =>
    cases ts with
    | nil => simp [fits, fitsItems, hp] at h
    | cons a ts =>
      simp only [fits, fitsItems, hp, Bool.and_eq_true] at h ⊢
      exact ⟨a, ts, rfl, h⟩

theorem fits_singleton {p : Pattern} (hp : p.run? = none) {t : Tree}
    (h : (list [p]).fits t = true) : ∃ d, t = .list [d] ∧ p.fits d = true := by
  obtain ⟨d, ts, rfl, hd, hnil⟩ := fits_cons hp h
  obtain rfl : ts = [] := List.isEmpty_iff.mp hnil
  exact ⟨d, rfl, hd⟩

theorem text?_of_fits {s : String} {t : Tree} (h : (scalar (.text s)).fits t = true) :
    t.text? = some s := by
  cases t with
  | list ts => simp [fits, Tree.same] at h
  | object tag gs => simp [fits, Tree.same] at h
  | scalar b =>
    cases b with
    | text b =>
      have hb : s = b := by simpa [fits, Tree.same, Scalar.same] using h
      rw [hb]
      rfl
    | _ => simp [fits, Tree.same, Scalar.same] at h

theorem fits_of_text? {s : String} {t : Tree} (h : t.text? = some s) :
    (scalar (.text s)).fits t = true := by
  have ht : t = .text s := by
    cases t with
    | scalar a => cases a <;> simp_all [Tree.text?]
    | list ts => cases h
    | object tag gs => cases h
  rw [ht]
  simp [fits, Tree.same, Scalar.same]

theorem number_of_fits {n : Number} {t : Tree} (h : (scalar (.number n)).fits t = true) :
    ∃ m, t = .scalar (.number m) ∧ n.same m = true := by
  cases t with
  | list ts => simp [fits, Tree.same] at h
  | object tag gs => simp [fits, Tree.same] at h
  | scalar b =>
    cases b with
    | number m => exact ⟨m, rfl, by simpa [fits, Tree.same, Scalar.same] using h⟩
    | _ => simp [fits, Tree.same, Scalar.same] at h

theorem exists_object_of_kind? {p : Pattern} {kind : String} (hk : p.kind? = some kind) :
    ∃ fs, p = .object fs := by
  cases p with
  | object fs => exact ⟨fs, rfl⟩
  | hole _ => cases hk
  | scalar _ => cases hk
  | list _ => cases hk

theorem kind?_of_fits {p : Pattern} {kind : String} (hk : p.kind? = some kind) {t : Tree}
    (h : p.fits t = true) : t.kind? = some kind := by
  obtain ⟨fs, rfl⟩ := exists_object_of_kind? hk
  rw [kind?] at hk
  split at hk
  · rename_i a hf
    have hm : ("type", Pattern.scalar (.text a)) ∈ fs := by
      obtain ⟨l, r, rfl, -⟩ := List.lookup_eq_some_iff.mp hf
      simp
    have htype := (fits_object_iff.mp h).2 _ hm rfl
    obtain rfl := Option.some.inj hk
    exact text?_of_fits htype
  · cases hk

theorem fits_node_iff {kind : String} {fs : List (String × Pattern)} {t : Tree} :
    (Form.node kind fs : Pattern).fits t = true ↔
      t.kind? = some kind ∧ ∀ f ∈ fs, isIgnored f.1 = false → f.2.fits (t.get f.1) = true := by
  constructor
  · intro h
    refine ⟨kind?_of_fits rfl h, fun f hf => ?_⟩
    exact (fits_object_iff.mp h).2 f (List.mem_cons_of_mem _ hf)
  · rintro ⟨hk, h⟩
    refine fits_object_iff.mpr ⟨?_, List.forall_mem_cons.mpr ⟨fun _ => ?_, h⟩⟩
    · cases t with
      | object tag gs => exact ⟨tag, gs, rfl⟩
      | scalar a => cases hk
      | list ts => cases hk
    · exact fits_of_text? hk

theorem cases_of_accepts {h : Placeholder} {t : Tree} (ha : h.accepts t = true) :
    (∃ a, t = .scalar a) ∨ t.isNode = true := by
  cases t with
  | scalar a => exact Or.inl ⟨a, rfl⟩
  | list ts =>
    unfold Placeholder.accepts at ha
    split at ha <;> cases ha
  | object tag fs =>
    unfold Placeholder.accepts at ha
    split at ha
    · cases ha
    · exact Or.inr (Bool.and_eq_true _ _ ▸ ha).1

end Pattern

end Legible
